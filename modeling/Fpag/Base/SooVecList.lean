import Fpag.Base.SooVecLayout

/-!
A `SooVec` is a list.

`listStep` is what an operation does to lists, for any number of vectors and a way to copy a list.
Each function of the vector gets its specification in these terms, `step_spec` puts them together,
and `run_is_list` says what follows for programs whose sizes the index type holds.
-/

namespace Fpag.Base.SooVec

open Lifetime

variable {T : Type} {c : SooVec T} {m m' : Machine T} {mem mem' : Memory T}
  {k i n v u a : Nat} {x : T} {xs ys : List T} {r : Object} {ls : Nat → Option (List T)}

/-! ## Lists -/

/-- What a copy of a vector is: its elements by the indices that the loop casts. -/
def copied (c : SooVec T) (xs : List T) : List T :=
  (List.range xs.length).filterMap fun i => xs[c.toIdx i]?

/-- The value that an argument gives, and the lists after it is given. -/
def given (c : SooVec T) (source : Source T) (ls : Nat → Option (List T)) :
    Option (T × (Nat → Option (List T))) :=
  match source with
  | .value x => some (x, ls)
  | .copyOf u i => (ls u).bind fun ys => ys[i]?.map fun x => (x, ls)
  | .moveOf u i => (ls u).bind fun ys =>
      ys[i]?.map fun x => (x, Function.update ls u (some (ys.set i (c.movedFrom x))))

/-- The operation on lists, for a way to copy one. -/
def listStep (c : SooVec T) (copy : List T → List T) (op : Op T) (ls : Nat → Option (List T)) :
    Option (Nat → Option (List T)) :=
  match op with
  | .construct v => if (ls v).isNone then some (Function.update ls v (some [])) else none
  | .fromList v init => if (ls v).isNone then some (Function.update ls v (some init)) else none
  | .reserve v _ => (ls v).map fun _ => ls
  | .emplaceBack v source =>
      (c.given source ls).bind fun r =>
        (r.2 v).map fun xs => Function.update r.2 v (some (xs ++ [r.1]))
  | .popBack v => (ls v).bind fun xs =>
      if xs.isEmpty then none else some (Function.update ls v (some xs.dropLast))
  | .clear v => (ls v).map fun _ => Function.update ls v (some [])
  | .copyConstruct v other =>
      if (ls v).isNone then (ls other).map fun ys => Function.update ls v (some (copy ys)) else none
  | .moveConstruct v other =>
      if (ls v).isNone then
        (ls other).map fun ys => Function.update (Function.update ls v (some ys)) other (some [])
      else none
  | .copyAssign v other => (ls v).bind fun _ =>
      if v = other then some ls
      else (ls other).map fun ys => Function.update ls v (some (copy ys))
  | .moveAssign v other => (ls v).bind fun _ =>
      if v = other then some ls
      else (ls other).map fun ys =>
        Function.update (Function.update ls v (some ys)) other (some [])
  | .destroy v => (ls v).map fun _ => Function.update ls v none

/-- The vector that an operation may make longer. -/
def Op.target : Op T → Nat
  | .construct v | .fromList v _ | .reserve v _ | .emplaceBack v _ | .popBack v | .clear v
  | .copyConstruct v _ | .moveConstruct v _ | .copyAssign v _ | .moveAssign v _ | .destroy v => v

/-- The index type holds the size. -/
def representable (c : SooVec T) (l : Option (List T)) : Bool :=
  l.all fun xs => decide (xs.length < 2 ^ c.bits)

/-- The operation on lists, as far as the sizes are representable. -/
def sizedStep (c : SooVec T) (op : Op T) (ls : Nat → Option (List T)) :
    Option (Nat → Option (List T)) :=
  (c.listStep id op ls).filter fun ls' => c.representable (ls' op.target)

/-- A program with lists. -/
def listRun (c : SooVec T) (ops : List (Op T)) : Option (Nat → Option (List T)) :=
  Schedule.run c.sizedStep (fun _ => none) ops

/-! ## The functions of a vector -/

/-- The machine has these lists in its vectors. -/
structure Holds (c : SooVec T) (m : Machine T) (ls : Nat → Option (List T)) : Prop where
  logged : Logged m
  good : Good c m.toMemory ls

theorem setVec_idem {r r' : Option Object} : (mem.setVec v r).setVec v r' = mem.setVec v r' := by
  simp [Memory.setVec]

/-- A vector that has a block gives it back. -/
theorem release_spec (logged : Logged m) (fits : Fits c mem v r xs)
    (theirs : ∀ a, r.dynamicData = some a → m.blocks a = some r.capacity) :
    ∃ m', (if c.isDynamic r then deallocate r.dynamicData r.capacity m else some m) = some m' ∧
      m'.Shows { m.toMemory with blocks := released m.toMemory r } := by
  cases pointer : r.dynamicData with
  | none =>
      have inline : c.isDynamic r ≠ true := by simp [fits.isDynamic_iff, pointer]
      refine ⟨m, if_neg inline, logged, ?_⟩
      rw [released, pointer]
  | some a =>
      rw [if_pos (fits.isDynamic_iff.mpr ⟨a, pointer⟩), released, pointer]
      exact deallocate_spec logged (theirs a pointer)

/-- `reserve` in a vector that has to grow. -/
theorem grow_spec (holds : Holds c m ls) (here : m.vecs v = some r) (list : ls v = some xs)
    (more : r.capacity < n) :
    ∃ m', c.reserve v n m = some m' ∧ m'.Shows (grown m.toMemory v r xs m.next n) := by
  obtain ⟨logged, good⟩ := holds
  obtain ⟨_, eq, fits⟩ := good.fits here
  obtain rfl := Option.some.inj (list.symm.trans eq)
  have fresh : m.blocks m.next = none := logged.fresh _ (Nat.le_refl _)
  have older : ∀ a, r.dynamicData = some a → a ≠ m.next := by
    rintro a pointer rfl
    cases (fits.large _ pointer).2.1.symm.trans fresh
  have own : r.buffer v ≠ .block m.next := by
    intro same
    cases pointer : r.dynamicData with
    | none =>
        rw [buffer_none pointer] at same
        cases same
    | some a =>
        rw [buffer_some pointer] at same
        exact older a pointer (Buffer.block.inj same)
  -- the new block
  have shows₁ := allocate_spec (n := n) logged
  obtain ⟨m₁, allocated⟩ : ∃ m₁, (allocate n m).2 = m₁ := ⟨_, rfl⟩
  rw [allocated] at shows₁
  obtain ⟨logged₁, memory₁⟩ := shows₁
  have fits₁ : Fits c m₁.toMemory v r xs := by
    rw [memory₁]
    refine fits.congr rfl rfl fun a pointer => ?_
    exact Function.update_of_ne (older a pointer) _ _
  have here₁ : m₁.vecs v = some r := by rw [memory₁, here]
  -- the elements
  have start : m₁.toMemory = (m₁.toMemory.setRow (r.buffer v) (rowFrom 0 xs)).setRow
      (.block m.next) (row (xs.take 0)) := by
    have empty : m₁.cells (.block m.next) = row [] := by
      rw [memory₁]
      exact good.freed fresh
    rw [rowFrom_zero, ← fits₁.elements, setRow_self, List.take_zero, ← empty, setRow_self]
  obtain ⟨m₂, relocated, logged₂, memory₂⟩ := relocate_spec (c := c) (n := r.size) logged₁ start
    (by rw [fits.size, Nat.zero_add]) own
    (fun k inside => fits₁.usable here₁ (Nat.lt_of_lt_of_le inside fits.le))
    (fun k inside => usable_block.mpr ⟨n, by rw [memory₁]; exact Function.update_self ..,
      Nat.lt_of_lt_of_le inside (fits.le.trans more.le)⟩)
  -- the old block
  have blocks₂ : m₂.blocks = Function.update m.blocks m.next (some n) := by
    rw [memory₂, setRow_blocks, setRow_blocks, memory₁]
  obtain ⟨m₃, deallocated, logged₃, memory₃⟩ := release_spec logged₂ fits fun a pointer => by
    rw [blocks₂, Function.update_of_ne (older a pointer)]
    exact (fits.large a pointer).2.1
  have blocks₃ : released m₂.toMemory r =
      Function.update (released m.toMemory r) m.next (some n) := by
    cases pointer : r.dynamicData with
    | none => rw [released, released, pointer, blocks₂]
    | some a => rw [released, released, pointer, blocks₂, Function.update_comm (older a pointer)]
  rw [blocks₃] at memory₃
  -- the pointer
  have here₃ : m₃.vecs v = some r := by
    rw [memory₃, memory₂, setRow_vecs, setRow_vecs, here₁]
  have cells₃ : m₃.cells = (grown m.toMemory v r xs m.next n).cells := by
    rw [memory₃, memory₂, setRow_cells, setRow_cells, memory₁]
    rfl
  have empty₃ : m₃.cells (.inline v) = row [] := by
    rw [cells₃, grown_cells_buffer inline_ne_block]
    split
    · rfl
    · next other =>
        cases pointer : r.dynamicData with
        | none => exact absurd (buffer_none pointer).symm other
        | some a => exact (fits.large a pointer).2.2
  obtain ⟨m₄, stored, logged₄, memory₄⟩ :=
    setDynamicData_spec (c := c) (p := some m.next) logged₃ here₃ empty₃
  have here₄ : m₄.vecs v = some { r with dynamicData := some m.next } := by
    rw [memory₄]
    exact Function.update_self ..
  refine ⟨m₄.setVec v ⟨r.size, n, some m.next⟩, ?_, (shows_setVec logged₄).logged, ?_⟩
  · have first : (allocate n m).1 = m.next := rfl
    simp only [reserve, here, Option.bind_eq_bind, Option.bind_some, if_neg (Nat.not_le.mpr more)]
    rw [allocated, first, fits₁.data, Option.bind_some, relocated, Option.bind_some]
    split at deallocated
    · next dynamic =>
        rw [if_pos dynamic, deallocated, Option.bind_some, stored, Option.bind_some, here₄]
        rfl
    · next inline =>
        obtain rfl := Option.some.inj deallocated
        rw [if_neg inline, stored, Option.bind_some, here₄]
        rfl
  · rw [Machine.setVec]
    simp only [memory₄, setVec_idem]
    rw [memory₃, memory₂, memory₁]
    rfl

theorem reserve_spec (holds : Holds c m ls) (here : m.vecs v = some r) :
    ∃ m', c.reserve v n m = some m' ∧ Holds c m' ls ∧
      ∃ r', m'.vecs v = some r' ∧ r'.size = r.size ∧ n ≤ r'.capacity := by
  by_cases enough : n ≤ r.capacity
  · refine ⟨m, ?_, holds, r, here, rfl, enough⟩
    simp only [reserve, here, Option.bind_eq_bind, Option.bind_some, if_pos enough]
  · obtain ⟨xs, list, -⟩ := holds.good.fits here
    obtain ⟨m', reserved, logged, memory⟩ := grow_spec holds here list (Nat.lt_of_not_le enough)
    have good := holds.good.grow here list (holds.logged.fresh _ (Nat.le_refl _))
      (Nat.lt_of_not_le enough)
    refine ⟨m', reserved, ⟨logged, memory ▸ good⟩, ⟨r.size, n, some m.next⟩, ?_, rfl, Nat.le_refl _⟩
    rw [memory]
    exact Function.update_self ..

/-- As many elements, with other values. -/
theorem Good.assign (good : Good c mem ls) (here : mem.vecs v = some r) (list : ls v = some xs)
    (length : ys.length = xs.length) :
    Good c (mem.setRow (r.buffer v) (row ys)) (Function.update ls v (some ys)) := by
  obtain ⟨_, eq, fits⟩ := good.fits here
  obtain rfl := Option.some.inj (list.symm.trans eq)
  have edited := good.edit _ here list (length.trans_le fits.le)
  have same : (mem.setRow (r.buffer v) (row ys)).setVec v (some { r with size := ys.length }) =
      mem.setRow (r.buffer v) (row ys) := by
    rw [length, ← fits.size, Memory.setVec, setRow_vecs, ← here, Function.update_eq_self]
    rfl
  rwa [same] at edited

theorem element_spec (good : Good c m.toMemory ls) (list : ls u = some ys)
    (inside : i < ys.length) :
    ∃ r, m.vecs u = some r ∧ c.element u i m = some (r.buffer u) ∧
      c.usable m.toMemory i (r.buffer u) = true ∧ m.cells (r.buffer u) i = some ys[i] := by
  obtain ⟨r, here, fits⟩ := good.object list
  refine ⟨r, here, ?_, fits.usable here (Nat.lt_of_lt_of_le inside fits.le), ?_⟩
  · have counted : i < r.size := by rw [fits.size]; exact inside
    simp only [element, here, Option.bind_eq_bind, Option.bind_some, if_pos counted, fits.data]
  · rw [fits.elements, row_apply, List.getElem?_eq_getElem inside]

theorem argument_spec {source : Source T} {ls' : Nat → Option (List T)} (holds : Holds c m ls)
    (gives : c.given source ls = some (x, ls')) :
    ∃ m', c.argument source m = some (x, m') ∧ Holds c m' ls' ∧ m'.vecs = m.vecs := by
  cases source with
  | value y =>
      cases gives
      exact ⟨m, rfl, holds, rfl⟩
  | copyOf u i =>
      simp only [given, Option.bind_eq_some_iff, Option.map_eq_some_iff, Prod.mk.injEq] at gives
      obtain ⟨ys, list, y, at_, rfl, rfl⟩ := gives
      obtain ⟨inside, rfl⟩ := List.getElem?_eq_some_iff.mp at_
      obtain ⟨r, -, element, usable, here⟩ := element_spec holds.good list inside
      refine ⟨m, ?_, holds, rfl⟩
      simp only [argument, element, Option.bind_eq_bind, Option.bind_some, read, if_pos usable,
        here]
  | moveOf u i =>
      simp only [given, Option.bind_eq_some_iff, Option.map_eq_some_iff, Prod.mk.injEq] at gives
      obtain ⟨ys, list, y, at_, rfl, rfl⟩ := gives
      obtain ⟨inside, rfl⟩ := List.getElem?_eq_some_iff.mp at_
      obtain ⟨r, there, element, usable, here⟩ := element_spec holds.good list inside
      obtain ⟨m', taken, logged, memory⟩ := take_spec holds.logged usable here
      obtain ⟨_, eq, fits⟩ := holds.good.fits there
      obtain rfl := Option.some.inj (list.symm.trans eq)
      rw [setCell_eq, fits.elements, update_row_set inside] at memory
      refine ⟨m', ?_, ⟨logged, ?_⟩, by rw [memory]; rfl⟩
      · simp only [argument, element, Option.bind_eq_bind, Option.bind_some, taken]
      · rw [memory]
        exact holds.good.assign there list (List.length_set ..)

/-- A new last element. -/
theorem append_spec (holds : Holds c m ls) (here : m.vecs v = some r) (list : ls v = some xs)
    (room : r.size < r.capacity) : ∃ m', c.constructBack v x m = some m' ∧ m'.vecs = m.vecs ∧
      Holds c (m'.setVec v { r with size := r.size + 1 })
        (Function.update ls v (some (xs ++ [x]))) := by
  obtain ⟨logged, good⟩ := holds
  obtain ⟨_, eq, fits⟩ := good.fits here
  obtain rfl := Option.some.inj (list.symm.trans eq)
  have free : m.cells (r.buffer v) r.size = none := by
    rw [fits.elements, fits.size, row_apply, List.getElem?_length]
  obtain ⟨m', constructed, logged', memory⟩ :=
    constructAt_spec (x := x) logged (fits.usable here room) free
  rw [setCell_eq, fits.elements, fits.size, update_row_length] at memory
  refine ⟨m', ?_, by rw [memory]; rfl, (shows_setVec logged').logged, ?_⟩
  · simp only [constructBack, here, Option.bind_eq_bind, Option.bind_some, fits.data, constructed]
  · have edited := good.edit (xs ++ [x]) here list
      (by rw [List.length_append, ← fits.size]; exact room)
    have length : (xs ++ [x]).length = r.size + 1 := by rw [fits.size]; simp
    rw [length] at edited
    change Good c (m'.toMemory.setVec v _) _
    rwa [memory]

theorem emplaceBack_spec (source : Source T) {ls' : Nat → Option (List T)} (holds : Holds c m ls)
    (gives : c.given source ls = some (x, ls')) (list : ls' v = some xs) :
    ∃ m', c.emplaceBack v source m = some (c.toIdx xs.length, m') ∧
      Holds c m' (Function.update ls' v (some (xs ++ [x]))) := by
  obtain ⟨m₁, argued, holds₁, vecs₁⟩ := argument_spec holds gives
  obtain ⟨r, here₁, fits⟩ := holds₁.good.object list
  have here : m.vecs v = some r := by rw [← vecs₁, here₁]
  obtain ⟨m₂, made, holds₂, r₂, here₂, size, room⟩ : ∃ m₂,
      (if r.size = r.capacity then c.reserve v (if r.capacity = 0 then 1 else r.capacity * 2) m₁
        else some m₁) = some m₂ ∧ Holds c m₂ ls' ∧
      ∃ r₂, m₂.vecs v = some r₂ ∧ r₂.size = r.size ∧ r₂.size < r₂.capacity := by
    split
    · next full =>
        obtain ⟨m₂, reserved, holds₂, r₂, here₂, size, enough⟩ := reserve_spec
          (n := if r.capacity = 0 then 1 else r.capacity * 2) holds₁ here₁
        refine ⟨m₂, reserved, holds₂, r₂, here₂, size, ?_⟩
        split at enough <;> omega
    · next spare =>
        have := fits.le
        have := fits.size
        exact ⟨m₁, rfl, holds₁, r, here₁, rfl, by omega⟩
  obtain ⟨m₃, constructed, vecs₃, holds₃⟩ := append_spec (x := x) holds₂ here₂ list room
  have here₃ : m₃.vecs v = some r₂ := by rw [vecs₃, here₂]
  refine ⟨m₃.setVec v { r₂ with size := r₂.size + 1 }, ?_, holds₃⟩
  simp only [emplaceBack, here, Option.bind_eq_bind, Option.bind_some, argued]
  have index : c.toIdx r₂.size = c.toIdx xs.length := by rw [size, fits.size]
  split at made
  · next full =>
      rw [if_pos full, made, Option.bind_some, constructed, Option.bind_some, here₃,
        Option.bind_some, index]
  · next spare =>
      obtain rfl := Option.some.inj made
      rw [if_neg spare, constructed, Option.bind_some, here₃, Option.bind_some, index]

theorem usable_setVec {r' : Object} {b : Buffer} (here : mem.vecs v = some r)
    (pointer : r'.dynamicData = r.dynamicData) :
    c.usable (mem.setVec v (some r')) k b = c.usable mem k b := by
  cases b with
  | block a => rfl
  | inline u =>
      by_cases same : u = v
      · subst same
        simp only [usable, setVec_vecs, Function.update_self, here, Option.any_some, pointer]
      · simp only [usable, setVec_vecs, Function.update_of_ne same]

theorem popBack_spec (holds : Holds c m ls) (list : ls v = some (xs ++ [x])) :
    ∃ m', c.popBack v m = some m' ∧ Holds c m' (Function.update ls v (some xs)) := by
  obtain ⟨logged, good⟩ := holds
  obtain ⟨r, here, fits⟩ := good.object list
  have size : r.size = xs.length + 1 := by rw [fits.size]; simp
  have last : r.size - 1 = xs.length := by omega
  have le := fits.le
  rw [← fits.size] at le
  have shows₁ := shows_setVec (v := v) (r := { r with size := r.size - 1 }) logged
  have at_ : (m.setVec v { r with size := r.size - 1 }).cells (r.buffer v) (r.size - 1) =
      some x := by
    change m.cells (r.buffer v) (r.size - 1) = some x
    rw [fits.elements, last]
    simp
  have usable : c.usable (m.setVec v { r with size := r.size - 1 }).toMemory (r.size - 1)
      (r.buffer v) = true := by
    refine (usable_setVec here ?_).trans (fits.usable here (by omega))
    rfl
  obtain ⟨m', destroyed, logged', memory⟩ := destroyAt_spec shows₁.logged usable at_
  refine ⟨m', ?_, logged', ?_⟩
  · simp only [popBack, here, Option.bind_eq_bind, Option.bind_some, fits.data]
    rw [if_pos (by omega), destroyed]
  · have edited := good.edit xs here list (by omega)
    have same : (m.setVec v { r with size := r.size - 1 }).toMemory.setCell (r.buffer v)
        (r.size - 1) none =
        (m.toMemory.setRow (r.buffer v) (row xs)).setVec v (some { r with size := xs.length }) := by
      have shorter : Function.update (m.cells (r.buffer v)) xs.length none = row xs := by
        rw [fits.elements, update_row_last]
      rw [last, ← shorter]
      rfl
    rwa [memory, same]

theorem clear_spec (holds : Holds c m ls) (list : ls v = some xs) :
    ∃ m', c.clear v m = some m' ∧ m'.vecs v = some ⟨0, c.N, none⟩ ∧
      Holds c m' (Function.update ls v (some [])) := by
  obtain ⟨logged, good⟩ := holds
  obtain ⟨r, here, fits⟩ := good.object list
  have start : m.toMemory = m.toMemory.setRow (r.buffer v) (rowFrom 0 xs) := by
    rw [rowFrom_zero, ← fits.elements, setRow_self]
  obtain ⟨m₁, destroyed, logged₁, memory₁⟩ := destroyAll_spec (c := c) (n := r.size) logged start
    (by rw [fits.size, Nat.zero_add])
    (fun k inside => fits.usable here (Nat.lt_of_lt_of_le inside fits.le))
  have here₁ : m₁.vecs v = some r := by rw [memory₁, setRow_vecs, here]
  have blocks₁ : m₁.blocks = m.blocks := by rw [memory₁, setRow_blocks]
  obtain ⟨m₂, deallocated, logged₂, memory₂⟩ := release_spec logged₁ fits fun a pointer => by
    rw [blocks₁]
    exact (fits.large a pointer).2.1
  have here₂ : m₂.vecs v = some r := by rw [memory₂, here₁]
  obtain ⟨m₃, stored, logged₃, memory₃⟩ : ∃ m₃,
      (if c.isDynamic r then c.setDynamicData v none m₂ else some m₂) = some m₃ ∧
        m₃.Shows (m₂.toMemory.setVec v (some { r with dynamicData := none })) := by
    cases pointer : r.dynamicData with
    | none =>
        have inline : c.isDynamic r ≠ true := by simp [fits.isDynamic_iff, pointer]
        refine ⟨m₂, if_neg inline, logged₂, ?_⟩
        have same : ({ r with dynamicData := none } : Object) = r := by rw [← pointer]
        rw [same, Memory.setVec, ← here₂, Function.update_eq_self]
    | some a =>
        rw [if_pos (fits.isDynamic_iff.mpr ⟨a, pointer⟩)]
        refine setDynamicData_spec logged₂ here₂ ?_
        rw [memory₂, memory₁]
        refine Eq.trans (Function.update_of_ne ?_ _ _) (fits.large a pointer).2.2
        rw [buffer_some pointer]
        exact inline_ne_block
  have here₃ : m₃.vecs v = some { r with dynamicData := none } := by
    rw [memory₃]
    exact Function.update_self ..
  refine ⟨m₃.setVec v ⟨0, c.N, none⟩, ?_, Function.update_self .., (shows_setVec logged₃).logged,
    ?_⟩
  · simp only [clear, here, Option.bind_eq_bind, Option.bind_some, fits.data, destroyed]
    split at stored
    · next dynamic =>
        rw [if_pos dynamic] at deallocated ⊢
        rw [deallocated, Option.bind_some, stored, Option.bind_some, here₃]
        rfl
    · next inline =>
        rw [if_neg inline] at deallocated ⊢
        cases deallocated
        cases stored
        rw [here₃]
        rfl
  · have cleared := good.clear here
    have blocks : released m₁.toMemory r = released m.toMemory r := by
      rw [released, released, blocks₁]
    change Good c (m₃.toMemory.setVec v _) _
    rw [memory₃, setVec_idem, memory₂, blocks, memory₁]
    exact cleared

/-- `move_from` in a vector that is empty and has no block. -/
theorem moveFrom_spec (holds : Holds c m ls) (here : m.vecs v = some ⟨0, c.N, none⟩)
    (list : ls v = some []) (list' : ls u = some ys) (other : u ≠ v) :
    ∃ m', c.moveFrom v u m = some m' ∧
      Holds c m' (Function.update (Function.update ls v (some ys)) u (some [])) := by
  obtain ⟨logged, good⟩ := holds
  obtain ⟨o, there, fits⟩ := good.object list'
  obtain ⟨_, eq, empty⟩ := good.fits here
  obtain rfl := Option.some.inj (list.symm.trans eq)
  have free : m.cells (.inline v) = row [] := empty.elements
  obtain ⟨m₁, set₁⟩ : ∃ m₁, m.setVec v ⟨o.size, o.capacity, none⟩ = m₁ := ⟨_, rfl⟩
  have memory₁ : m₁.toMemory = m.toMemory.setVec v (some ⟨o.size, o.capacity, none⟩) := by
    rw [← set₁]
    rfl
  have logged₁ : Logged m₁ := set₁ ▸ (shows_setVec logged).logged
  have here₁ : m₁.vecs v = some ⟨o.size, o.capacity, none⟩ := by
    rw [memory₁]
    exact Function.update_self ..
  have there₁ : m₁.vecs u = some o := by
    rw [memory₁, setVec_vecs, Function.update_of_ne other, there]
  cases block : o.dynamicData with
  | some a =>
      -- the block changes hands
      obtain ⟨m₂, stored, logged₂, memory₂⟩ := setDynamicData_spec (c := c) (p := some a)
        logged₁ here₁ (by rw [memory₁]; exact free)
      have there₂ : m₂.vecs u = some o := by
        rw [memory₂, setVec_vecs, Function.update_of_ne other, there₁]
      obtain ⟨m₃, nulled, logged₃, memory₃⟩ := setDynamicData_spec (c := c) (p := none)
        logged₂ there₂ (by rw [memory₂, memory₁]; exact (fits.large a block).2.2)
      have there₃ : m₃.vecs u = some { o with dynamicData := none } := by
        rw [memory₃]
        exact Function.update_self ..
      refine ⟨m₃.setVec u ⟨0, c.N, none⟩, ?_, (shows_setVec logged₃).logged, ?_⟩
      · simp only [moveFrom, here, there, Option.bind_eq_bind, Option.bind_some, set₁, block]
        rw [if_pos (fits.isDynamic_iff.mpr ⟨a, block⟩), stored, Option.bind_some, nulled,
          Option.bind_some, there₃]
        rfl
      · have stolen := good.steal here list rfl there list' block other
        change Good c (m₃.toMemory.setVec u _) _
        rwa [memory₃, setVec_idem, memory₂, memory₁, setVec_idem]
  | none =>
      -- the elements change places
      have small := fits.small block
      have elements := fits.elements
      rw [buffer_none block] at elements
      have inline : c.isDynamic o ≠ true := by simp [fits.isDynamic_iff, block]
      have apart : Buffer.inline u ≠ Buffer.inline v := fun same => other (Buffer.inline.inj same)
      have start : m₁.toMemory = (m₁.toMemory.setRow (.inline u) (rowFrom 0 ys)).setRow
          (.inline v) (row (ys.take 0)) := by
        have source : m₁.cells (.inline u) = row ys := by rw [memory₁]; exact elements
        have target : m₁.cells (.inline v) = row [] := by rw [memory₁]; exact free
        rw [rowFrom_zero, ← source, setRow_self, List.take_zero, ← target, setRow_self]
      have within : ∀ k < ys.length, k < max c.N 1 := by
        intro k inside
        have := fits.le
        omega
      obtain ⟨m₂, relocated, logged₂, memory₂⟩ := relocate_spec (c := c) (n := o.size) logged₁ start
        (by rw [fits.size, Nat.zero_add]) apart
        (fun k inside => usable_inline.mpr ⟨within k inside, o, there₁, block⟩)
        (fun k inside => usable_inline.mpr ⟨within k inside, _, here₁, rfl⟩)
      have there₂ : m₂.vecs u = some o := by rw [memory₂, setRow_vecs, setRow_vecs, there₁]
      refine ⟨m₂.setVec u ⟨0, c.N, none⟩, ?_, (shows_setVec logged₂).logged, ?_⟩
      · simp only [moveFrom, here, there, Option.bind_eq_bind, Option.bind_some, set₁]
        rw [if_neg inline, relocated, Option.bind_some, there₂, ← block]
        rfl
      · have emptied := good.edit [] there list' (Nat.zero_le _)
        rw [buffer_none block] at emptied
        have here' : ((m.toMemory.setRow (.inline u) (row [])).setVec u
            (some { o with size := ([] : List T).length })).vecs v = some ⟨0, c.N, none⟩ := by
          rw [setVec_vecs, Function.update_of_ne other.symm, setRow_vecs, here]
        have list₁ : Function.update ls u (some []) v = some [] := by
          rw [Function.update_of_ne other.symm, list]
        have filled := emptied.edit ys here' list₁ (by rw [← small]; exact fits.le)
        rw [Function.update_comm other] at filled
        change Good c (m₂.toMemory.setVec u _) _
        rw [memory₂, memory₁, ← small, fits.size]
        rw [← small] at filled
        have pointer : ({ o with size := 0 } : Object) = ⟨0, o.capacity, none⟩ := by rw [← block]
        rw [List.length_nil, pointer] at filled
        convert filled using 1
        simp only [Memory.setVec, Memory.setRow, Function.update_comm other]
        rfl

/-- The loop that copies a part of another vector to the end of this one. -/
theorem copyLoop_spec (holds : Holds c m ls) (list : ls v = some xs) (list' : ls u = some ys)
    (other : u ≠ v) (count : i + n = ys.length) :
    ∃ m', c.copyLoop v u n i m = some m' ∧ Holds c m' (Function.update ls v
      (some (xs ++ (List.range' i n).filterMap fun i => ys[c.toIdx i]?))) := by
  induction n generalizing i m xs ls with
  | zero =>
      refine ⟨m, rfl, ?_⟩
      have same : Function.update ls v (some xs) = ls := Function.update_eq_self_iff.mpr list.symm
      simpa [same] using holds
  | succ n ih =>
      have inside : c.toIdx i < ys.length :=
        Nat.lt_of_le_of_lt (Nat.mod_le _ _) (by omega)
      have gives : c.given (.copyOf u (c.toIdx i)) ls = some (ys[c.toIdx i], ls) := by
        simp only [given, list', Option.bind_some, List.getElem?_eq_getElem inside, Option.map_some]
      obtain ⟨m₁, appended, holds₁⟩ := emplaceBack_spec _ holds gives list
      obtain ⟨m', rest, holds'⟩ := ih (i := i + 1) holds₁ (Function.update_self ..)
        (by rw [Function.update_of_ne other, list']) (by omega)
      refine ⟨m', by rw [copyLoop, appended, Option.bind_some, rest], ?_⟩
      rw [Function.update_idem, List.append_assoc] at holds'
      rw [List.range'_succ, List.filterMap_cons, List.getElem?_eq_getElem inside]
      exact holds'

theorem copyFrom_spec (holds : Holds c m ls) (list : ls v = some []) (list' : ls u = some ys)
    (other : u ≠ v) : ∃ m', c.copyFrom v u m = some m' ∧
      Holds c m' (Function.update ls v (some (c.copied ys))) := by
  obtain ⟨r, here, -⟩ := holds.good.object list
  obtain ⟨o, there, fits⟩ := holds.good.object list'
  obtain ⟨m₁, reserved, holds₁, -⟩ := reserve_spec (n := o.size) holds here
  obtain ⟨m', copied_, holds'⟩ := copyLoop_spec (n := o.size) holds₁ list list' other
    (by rw [fits.size, Nat.zero_add])
  refine ⟨m', ?_, ?_⟩
  · simp only [copyFrom, there, Option.bind_eq_bind, Option.bind_some, reserved, copied_]
  · rwa [List.nil_append, fits.size, ← List.range_eq_range'] at holds'

theorem appendAll_spec (ys : List T) (holds : Holds c m ls) (list : ls v = some xs) :
    ∃ m', c.appendAll v ys m = some m' ∧
      Holds c m' (Function.update ls v (some (xs ++ ys))) := by
  induction ys generalizing m xs ls with
  | nil =>
      refine ⟨m, rfl, ?_⟩
      have same : Function.update ls v (some xs) = ls := Function.update_eq_self_iff.mpr list.symm
      rwa [List.append_nil, same]
  | cons y ys ih =>
      obtain ⟨m₁, appended, holds₁⟩ := emplaceBack_spec (.value y) holds rfl list
      obtain ⟨m', rest, holds'⟩ := ih holds₁ (Function.update_self ..)
      refine ⟨m', by rw [appendAll, appended, Option.bind_some, rest], ?_⟩
      rwa [Function.update_idem, List.append_assoc] at holds'

theorem construct_spec (holds : Holds c m ls) (free : ls v = none) :
    ∃ m', c.construct v m = some m' ∧ m'.vecs v = some ⟨0, c.N, none⟩ ∧
      Holds c m' (Function.update ls v (some [])) := by
  have unused : m.vecs v = none := holds.good.none_iff.mpr free
  refine ⟨m.setVec v ⟨0, c.N, none⟩, ?_, Function.update_self ..,
    (shows_setVec holds.logged).logged, holds.good.construct free⟩
  rw [construct, unused]
  rfl

theorem destroy_spec (holds : Holds c m ls) (list : ls v = some xs) :
    ∃ m', c.destroy v m = some m' ∧ Holds c m' (Function.update ls v none) := by
  obtain ⟨m₁, cleared, here, holds₁⟩ := clear_spec holds list
  have destroyed := holds₁.good.destroy here (Function.update_self ..) rfl
  rw [Function.update_idem] at destroyed
  refine ⟨{ m₁ with toMemory := m₁.toMemory.setVec v none }, ?_,
    holds₁.logged.congr rfl rfl (fun _ _ => rfl) rfl rfl, destroyed⟩
  simp only [destroy, Option.bind_eq_bind, cleared, Option.bind_some]

/-! ## Programs -/

/-- What an operation does to the lists, it does to the vectors. -/
theorem step_spec {op : Op T} {ls' : Nat → Option (List T)} (holds : Holds c m ls)
    (moves : c.listStep c.copied op ls = some ls') :
    ∃ m', c.step op m = some m' ∧ Holds c m' ls' := by
  cases op with
  | construct v =>
      simp only [listStep, Option.ite_none_right_eq_some, Option.isNone_iff_eq_none] at moves
      obtain ⟨free, moved⟩ := moves
      obtain rfl := Option.some.inj moved
      obtain ⟨m', constructed, -, holds'⟩ := construct_spec holds free
      exact ⟨m', constructed, holds'⟩
  | fromList v init =>
      simp only [listStep, Option.ite_none_right_eq_some, Option.isNone_iff_eq_none] at moves
      obtain ⟨free, moved⟩ := moves
      obtain rfl := Option.some.inj moved
      obtain ⟨m₁, constructed, here, holds₁⟩ := construct_spec holds free
      obtain ⟨m₂, reserved, holds₂, -⟩ := reserve_spec (n := init.length) holds₁ here
      obtain ⟨m', appended, holds'⟩ := appendAll_spec init holds₂ (Function.update_self ..)
      refine ⟨m', ?_, ?_⟩
      · simp only [step, Option.bind_eq_bind, constructed, Option.bind_some, reserved, appended]
      · rwa [Function.update_idem, List.nil_append] at holds'
  | reserve v n =>
      simp only [listStep, Option.map_eq_some_iff] at moves
      obtain ⟨xs, list, rfl⟩ := moves
      obtain ⟨r, here, -⟩ := holds.good.object list
      obtain ⟨m', reserved, holds', -⟩ := reserve_spec (n := n) holds here
      exact ⟨m', reserved, holds'⟩
  | emplaceBack v source =>
      simp only [listStep, Option.bind_eq_some_iff, Option.map_eq_some_iff] at moves
      obtain ⟨⟨x, ls₁⟩, gives, xs, list, rfl⟩ := moves
      obtain ⟨m', appended, holds'⟩ := emplaceBack_spec _ holds gives list
      exact ⟨m', by rw [step, appended]; rfl, holds'⟩
  | popBack v =>
      simp only [listStep, Option.bind_eq_some_iff, Option.ite_none_left_eq_some] at moves
      obtain ⟨xs, list, some_, moved⟩ := moves
      obtain rfl := Option.some.inj moved
      have nonempty : xs ≠ [] := by simpa using some_
      rw [← List.dropLast_append_getLast nonempty] at list
      exact popBack_spec holds list
  | clear v =>
      simp only [listStep, Option.map_eq_some_iff] at moves
      obtain ⟨xs, list, rfl⟩ := moves
      obtain ⟨m', cleared, -, holds'⟩ := clear_spec holds list
      exact ⟨m', cleared, holds'⟩
  | copyConstruct v u =>
      simp only [listStep, Option.ite_none_right_eq_some, Option.isNone_iff_eq_none,
        Option.map_eq_some_iff] at moves
      obtain ⟨free, ys, list, rfl⟩ := moves
      have other : u ≠ v := by
        rintro rfl
        cases list.symm.trans free
      obtain ⟨m₁, constructed, -, holds₁⟩ := construct_spec holds free
      obtain ⟨m', copied_, holds'⟩ := copyFrom_spec holds₁ (Function.update_self ..)
        (by rw [Function.update_of_ne other, list]) other
      refine ⟨m', ?_, ?_⟩
      · simp only [step, Option.bind_eq_bind, constructed, Option.bind_some, copied_]
      · rwa [Function.update_idem] at holds'
  | moveConstruct v u =>
      simp only [listStep, Option.ite_none_right_eq_some, Option.isNone_iff_eq_none,
        Option.map_eq_some_iff] at moves
      obtain ⟨free, ys, list, rfl⟩ := moves
      have other : u ≠ v := by
        rintro rfl
        cases list.symm.trans free
      obtain ⟨m₁, constructed, here, holds₁⟩ := construct_spec holds free
      obtain ⟨m', moved, holds'⟩ := moveFrom_spec holds₁ here (Function.update_self ..)
        (by rw [Function.update_of_ne other, list]) other
      refine ⟨m', ?_, ?_⟩
      · simp only [step, Option.bind_eq_bind, constructed, Option.bind_some, moved]
      · rwa [Function.update_idem] at holds'
  | copyAssign v u =>
      simp only [listStep, Option.bind_eq_some_iff] at moves
      obtain ⟨xs, list, moved⟩ := moves
      split at moved
      · next same =>
          obtain rfl := Option.some.inj moved
          obtain ⟨r, here, -⟩ := holds.good.object list
          exact ⟨m, by rw [step, if_pos same, here]; rfl, holds⟩
      · next other =>
          obtain ⟨ys, list', rfl⟩ := Option.map_eq_some_iff.mp moved
          obtain ⟨m₁, cleared, -, holds₁⟩ := clear_spec holds list
          obtain ⟨m', copied_, holds'⟩ := copyFrom_spec holds₁ (Function.update_self ..)
            (by rw [Function.update_of_ne (Ne.symm other), list']) (Ne.symm other)
          refine ⟨m', ?_, ?_⟩
          · simp only [step, if_neg other, Option.bind_eq_bind, cleared, Option.bind_some, copied_]
          · rwa [Function.update_idem] at holds'
  | moveAssign v u =>
      simp only [listStep, Option.bind_eq_some_iff] at moves
      obtain ⟨xs, list, moved⟩ := moves
      split at moved
      · next same =>
          obtain rfl := Option.some.inj moved
          obtain ⟨r, here, -⟩ := holds.good.object list
          exact ⟨m, by rw [step, if_pos same, here]; rfl, holds⟩
      · next other =>
          obtain ⟨ys, list', rfl⟩ := Option.map_eq_some_iff.mp moved
          obtain ⟨m₁, cleared, here, holds₁⟩ := clear_spec holds list
          obtain ⟨m', moved_, holds'⟩ := moveFrom_spec holds₁ here (Function.update_self ..)
            (by rw [Function.update_of_ne (Ne.symm other), list']) (Ne.symm other)
          refine ⟨m', ?_, ?_⟩
          · simp only [step, if_neg other, Option.bind_eq_bind, cleared, Option.bind_some, moved_]
          · rwa [Function.update_idem] at holds'
  | destroy v =>
      simp only [listStep, Option.map_eq_some_iff] at moves
      obtain ⟨xs, list, rfl⟩ := moves
      exact destroy_spec holds list

theorem run_spec {ops : List (Op T)} {ls' : Nat → Option (List T)} (holds : Holds c m ls)
    (moves : Schedule.run (c.listStep c.copied) ls ops = some ls') :
    ∃ m', Schedule.run c.step m ops = some m' ∧ Holds c m' ls' := by
  induction ops generalizing m ls with
  | nil =>
      cases moves
      exact ⟨m, rfl, holds⟩
  | cons op ops ih =>
      obtain ⟨ls₁, first, rest⟩ := Schedule.run_cons_eq_some.mp moves
      obtain ⟨m₁, step, holds₁⟩ := step_spec holds first
      obtain ⟨m', last, holds'⟩ := ih holds₁ rest
      exact ⟨m', Schedule.run_cons_eq_some.mpr ⟨m₁, step, last⟩, holds'⟩

/-! ## Sizes that the index type holds -/

theorem filterMap_range : (List.range xs.length).filterMap (fun i => xs[i]?) = xs := by
  induction xs using List.reverseRecOn with
  | nil => rfl
  | append_singleton xs x ih =>
      have before : (List.range xs.length).filterMap (fun i => (xs ++ [x])[i]?) =
          (List.range xs.length).filterMap fun i => xs[i]? :=
        List.filterMap_congr fun i inside =>
          List.getElem?_append_left (List.mem_range.mp inside)
      rw [List.length_append, List.length_singleton, List.range_succ, List.filterMap_append, before,
        ih]
      simp

theorem copied_eq (small : xs.length ≤ 2 ^ c.bits) : c.copied xs = xs := by
  have same : ∀ i ∈ List.range xs.length, xs[c.toIdx i]? = xs[i]? := by
    intro i inside
    rw [toIdx, Nat.mod_eq_of_lt (Nat.lt_of_lt_of_le (List.mem_range.mp inside) small)]
  rw [copied, List.filterMap_congr same, filterMap_range]

theorem representable_eq {l : Option (List T)} : c.representable l = true ↔
    ∀ xs, l = some xs → xs.length < 2 ^ c.bits := by
  cases l <;> simp [representable]

/-- Among lists whose sizes are representable, the copies of the code are copies. -/
theorem listStep_copied {op : Op T} (sizes : ∀ v, c.representable (ls v) = true) :
    c.listStep c.copied op ls = c.listStep id op ls := by
  have same : ∀ v u, ((ls u).map fun ys => Function.update ls v (some (c.copied ys))) =
      (ls u).map fun ys => Function.update ls v (some (id ys)) := by
    intro v u
    cases list : ls u with
    | none => rfl
    | some ys =>
        have small := representable_eq.mp (sizes u) ys list
        simp only [Option.map_some, id, copied_eq small.le]
  cases op with
  | copyConstruct v u => simp only [listStep, same]
  | copyAssign v u => simp only [listStep, same]
  | _ => rfl

theorem length_of_given {source : Source T} {ls' : Nat → Option (List T)}
    (gives : c.given source ls = some (x, ls')) (list : ls' v = some xs) :
    ∃ ys, ls v = some ys ∧ xs.length = ys.length := by
  cases source with
  | value y =>
      cases gives
      exact ⟨xs, list, rfl⟩
  | copyOf u i =>
      simp only [given, Option.bind_eq_some_iff, Option.map_eq_some_iff, Prod.mk.injEq] at gives
      obtain ⟨ys, -, y, -, -, rfl⟩ := gives
      exact ⟨xs, list, rfl⟩
  | moveOf u i =>
      simp only [given, Option.bind_eq_some_iff, Option.map_eq_some_iff, Prod.mk.injEq] at gives
      obtain ⟨ys, there, y, -, -, rfl⟩ := gives
      rw [Function.update_apply] at list
      split at list
      · next same =>
          cases list
          exact ⟨ys, same ▸ there, List.length_set⟩
      · exact ⟨xs, list, rfl⟩

/-- An operation makes no list longer but that of its target. -/
theorem length_of_listStep {op : Op T} {ls' : Nat → Option (List T)}
    (moves : c.listStep id op ls = some ls') (other : v ≠ op.target) (list : ls' v = some xs) :
    ∃ ys, ls v = some ys ∧ xs.length ≤ ys.length := by
  have unchanged : ∀ {l}, Function.update ls op.target l v = some xs →
      ∃ ys, ls v = some ys ∧ xs.length ≤ ys.length := by
    intro l list
    rw [Function.update_of_ne other] at list
    exact ⟨xs, list, Nat.le_refl _⟩
  have emptied : ∀ {l u ys}, ls u = some ys →
      Function.update (Function.update ls op.target l) u (some []) v = some xs →
      ∃ ys, ls v = some ys ∧ xs.length ≤ ys.length := by
    intro l u ys there list
    rw [Function.update_apply] at list
    split at list
    · next same =>
        cases list
        exact ⟨ys, same ▸ there, Nat.zero_le _⟩
    · exact unchanged list
  cases op with
  | construct w =>
      obtain ⟨-, rfl⟩ := by simpa only [listStep, Option.ite_none_right_eq_some,
        Option.some.injEq] using moves
      exact unchanged list
  | fromList w init =>
      obtain ⟨-, rfl⟩ := by simpa only [listStep, Option.ite_none_right_eq_some,
        Option.some.injEq] using moves
      exact unchanged list
  | reserve w n =>
      obtain ⟨_, -, rfl⟩ := Option.map_eq_some_iff.mp moves
      exact ⟨xs, list, Nat.le_refl _⟩
  | emplaceBack w source =>
      obtain ⟨⟨y, ls₁⟩, gives, appended⟩ := Option.bind_eq_some_iff.mp moves
      obtain ⟨zs, -, rfl⟩ := Option.map_eq_some_iff.mp appended
      change v ≠ w at other
      rw [Function.update_of_ne other] at list
      obtain ⟨ys, list', length⟩ := length_of_given gives list
      exact ⟨ys, list', length.le⟩
  | popBack w =>
      obtain ⟨zs, -, popped⟩ := Option.bind_eq_some_iff.mp moves
      obtain ⟨-, rfl⟩ := by simpa only [Option.ite_none_left_eq_some, Option.some.injEq]
        using popped
      exact unchanged list
  | clear w =>
      obtain ⟨_, -, rfl⟩ := Option.map_eq_some_iff.mp moves
      exact unchanged list
  | copyConstruct w u =>
      rw [listStep, Option.ite_none_right_eq_some] at moves
      obtain ⟨_, -, rfl⟩ := Option.map_eq_some_iff.mp moves.2
      exact unchanged list
  | moveConstruct w u =>
      rw [listStep, Option.ite_none_right_eq_some] at moves
      obtain ⟨_, there, rfl⟩ := Option.map_eq_some_iff.mp moves.2
      exact emptied there list
  | copyAssign w u =>
      obtain ⟨zs, -, assigned⟩ := Option.bind_eq_some_iff.mp moves
      split at assigned
      · cases assigned
        exact ⟨xs, list, Nat.le_refl _⟩
      · obtain ⟨_, -, rfl⟩ := Option.map_eq_some_iff.mp assigned
        exact unchanged list
  | moveAssign w u =>
      obtain ⟨zs, -, assigned⟩ := Option.bind_eq_some_iff.mp moves
      split at assigned
      · cases assigned
        exact ⟨xs, list, Nat.le_refl _⟩
      · obtain ⟨_, there, rfl⟩ := Option.map_eq_some_iff.mp assigned
        exact emptied there list
  | destroy w =>
      obtain ⟨_, -, rfl⟩ := Option.map_eq_some_iff.mp moves
      exact unchanged list

theorem sizedStep_spec {op : Op T} {ls' : Nat → Option (List T)}
    (sizes : ∀ v, c.representable (ls v) = true) (moves : c.sizedStep op ls = some ls') :
    c.listStep c.copied op ls = some ls' ∧ ∀ v, c.representable (ls' v) = true := by
  obtain ⟨moved, small⟩ := Option.filter_eq_some_iff.mp moves
  refine ⟨by rw [listStep_copied sizes, moved], fun v => ?_⟩
  by_cases same : v = op.target
  · rw [same]
    exact small
  · rw [representable_eq]
    intro xs list
    obtain ⟨ys, list', le⟩ := length_of_listStep moved same list
    exact Nat.lt_of_le_of_lt le (representable_eq.mp (sizes v) ys list')

theorem listRun_spec {ops : List (Op T)} {ls' : Nat → Option (List T)}
    (sizes : ∀ v, c.representable (ls v) = true)
    (moves : Schedule.run c.sizedStep ls ops = some ls') :
    Schedule.run (c.listStep c.copied) ls ops = some ls' := by
  induction ops generalizing ls with
  | nil => exact moves
  | cons op ops ih =>
      obtain ⟨ls₁, first, rest⟩ := Schedule.run_cons_eq_some.mp moves
      obtain ⟨moved, sizes₁⟩ := sizedStep_spec sizes first
      exact Schedule.run_cons_eq_some.mpr ⟨ls₁, moved, ih sizes₁ rest⟩

/-! ## What a program leaves -/

theorem Holds.elements (holds : Holds c m ls) : c.elements v m = ls v := by
  cases list : ls v with
  | none =>
      have unused : m.vecs v = none := holds.good.none_iff.mpr list
      simp only [SooVec.elements, unused, Option.bind_eq_bind, Option.bind_none]
  | some xs =>
      obtain ⟨r, here, fits⟩ := holds.good.object list
      simp only [SooVec.elements, here, Option.bind_eq_bind, Option.bind_some, fits.data,
        fits.size]
      refine mapM_range fun i inside => ?_
      rw [read, if_pos (fits.usable here (Nat.lt_of_lt_of_le inside fits.le)), fits.elements,
        row_apply]

/-- The elements are in a block when and only when the capacity is above `N`. -/
theorem Holds.dynamic_iff (holds : Holds c m ls) (here : m.vecs v = some r) :
    (∃ a, c.data v r = some (.block a)) ↔ c.N < r.capacity := by
  obtain ⟨xs, -, fits⟩ := holds.good.fits here
  rw [fits.data, ← decide_eq_true_iff (p := c.N < r.capacity), ← isDynamic, fits.isDynamic_iff]
  cases pointer : r.dynamicData with
  | none => simp [buffer_none pointer]
  | some a => simp [buffer_some pointer]

/-- Where there are no vectors, there is nothing. -/
theorem Holds.nothing (holds : Holds c m ls) (ended : ∀ v, ls v = none) :
    after ∅ m.lifetimes = ∅ ∧ after ∅ m.allocations = ∅ := by
  have gone : ∀ v, m.vecs v = none := fun v => holds.good.none_iff.mpr (ended v)
  have released : ∀ a, m.blocks a = none := by
    intro a
    cases allocated : m.blocks a with
    | none => rfl
    | some n =>
        obtain ⟨v, r, here, -⟩ := holds.good.owned allocated
        cases here.symm.trans (gone v)
  constructor
  · refine Finset.eq_empty_iff_forall_notMem.mpr ?_
    rintro ⟨⟨b, k⟩, ⟨⟩⟩ member
    have alive := (holds.logged.alive b k).mp member
    have empty : m.cells b = row [] := by
      cases b with
      | inline v => exact holds.good.unused (gone v)
      | block a => exact holds.good.freed (released a)
    rw [empty] at alive
    cases alive
  · refine Finset.eq_empty_iff_forall_notMem.mpr ?_
    rintro ⟨a, n⟩ member
    cases (holds.logged.allocated a n).mp member |>.symm.trans (released a)

/-- A program with lists whose sizes the index type holds runs with vectors, and the vectors have
exactly the elements of the lists. No element is constructed over another one or destroyed without
having been constructed, no block is released that is not allocated with that capacity; and when
all vectors are destroyed, so are all elements, and all blocks are released. -/
theorem run_is_list (c : SooVec T) (ops : List (Op T)) (ls : Nat → Option (List T))
    (lists : c.listRun ops = some ls) :
    ∃ m, c.run ops = some m ∧
      (∀ v, c.elements v m = ls v) ∧
      (∀ v r, m.vecs v = some r → r.size ≤ r.capacity ∧
        ((∃ a, c.data v r = some (.block a)) ↔ c.N < r.capacity)) ∧
      Proper (fun _ => false) ∅ m.lifetimes ∧
      Proper (fun _ => false) ∅ m.allocations ∧
      ((∀ v, ls v = none) →
        (after ∅ m.lifetimes = ∅ ∧
          constructions () m.lifetimes = destructions () m.lifetimes) ∧
        after ∅ m.allocations = ∅ ∧
          ∀ n, constructions n m.allocations = destructions n m.allocations) := by
  obtain ⟨m, ran, holds⟩ := run_spec (c := c) ⟨logged_initial, good_initial⟩
    (listRun_spec (fun v => rfl) lists)
  refine ⟨m, ran, fun v => holds.elements, ?_, holds.logged.lifetimes, holds.logged.allocations, ?_⟩
  · intro v r here
    obtain ⟨xs, -, fits⟩ := holds.good.fits here
    exact ⟨fits.size.trans_le fits.le, holds.dynamic_iff here⟩
  · intro ended
    obtain ⟨dead, released⟩ := holds.nothing ended
    exact ⟨⟨dead, balance_of_empty rfl holds.logged.lifetimes dead⟩, released,
      fun n => balance_of_empty rfl holds.logged.allocations released⟩

/-- Numbers, two of them inline; a number that was moved from is 0. -/
def numbers : SooVec Nat := ⟨2, 8, fun _ => 0⟩

/-- Appends of elements of the vector itself, across its growth and after it, a copy, moves out of
a block and out of the inline storage, and an append to what was moved from. -/
def numbersOps : List (Op Nat) :=
  [.construct 0, .emplaceBack 0 (.value 10), .emplaceBack 0 (.value 20),
    .emplaceBack 0 (.copyOf 0 0), .emplaceBack 0 (.moveOf 0 1), .copyConstruct 1 0,
    .moveConstruct 2 0, .emplaceBack 0 (.value 5), .moveAssign 1 0, .popBack 2]

theorem run_is_list_numbers : ∃ m, numbers.run numbersOps = some m ∧
    numbers.elements 0 m = some [] ∧ numbers.elements 1 m = some [5] ∧
    numbers.elements 2 m = some [10, 0, 10] := by
  have sized : (numbers.listRun numbersOps).isSome = true := by decide
  obtain ⟨m, ran, elements, -⟩ := run_is_list numbers numbersOps
    ((numbers.listRun numbersOps).get sized) (Option.some_get sized).symm
  exact ⟨m, ran, elements 0, elements 1, elements 2⟩

end Fpag.Base.SooVec
