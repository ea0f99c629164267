import Fpag.Base.SooVecMemory

/-!
How `SooVec`s lie in memory.

`Good` ties the memory to one list for each vector: the buffer that the vector reads through
`data()` has exactly the elements of its list, the pointer is set when and only when the capacity
is above `N`, and no two vectors have one block. What an operation does to memory is one of a few
changes to one vector, or the passing of a block from one vector to another one, and each of them
keeps `Good` for the lists that it makes.
-/

namespace Fpag.Base.SooVec

open Lifetime

variable {T : Type} {c : SooVec T} {m m' : Machine T} {mem mem' : Memory T}
  {k i n v u a : Nat} {x : T} {xs ys : List T} {r : Object} {ls : Nat → Option (List T)}

/-! ## Vectors and their lists -/

/-- The buffer that has the elements. -/
def Object.buffer (r : Object) (v : Nat) : Buffer :=
  match r.dynamicData with
  | some a => .block a
  | none => .inline v

/-- The vector has the elements of the list, where its capacity says. -/
structure Fits (c : SooVec T) (mem : Memory T) (v : Nat) (r : Object) (xs : List T) : Prop where
  size : r.size = xs.length
  le : xs.length ≤ r.capacity
  small : r.dynamicData = none → r.capacity = c.N
  large : ∀ a, r.dynamicData = some a →
    c.N < r.capacity ∧ mem.blocks a = some r.capacity ∧ mem.cells (.inline v) = row []
  elements : mem.cells (r.buffer v) = row xs

/-- The vectors have the elements of the lists, and nothing else is in memory. -/
structure Good (c : SooVec T) (mem : Memory T) (ls : Nat → Option (List T)) : Prop where
  vecs : ∀ v, Option.Rel (Fits c mem v) (mem.vecs v) (ls v)
  apart : ∀ {v v' r r' a}, mem.vecs v = some r → mem.vecs v' = some r' →
    r.dynamicData = some a → r'.dynamicData = some a → v = v'
  owned : ∀ {a n}, mem.blocks a = some n → ∃ v r, mem.vecs v = some r ∧ r.dynamicData = some a
  unused : ∀ {v}, mem.vecs v = none → mem.cells (.inline v) = row []
  freed : ∀ {a}, mem.blocks a = none → mem.cells (.block a) = row []

theorem Good.fits (good : Good c mem ls) (here : mem.vecs v = some r) :
    ∃ xs, ls v = some xs ∧ Fits c mem v r xs := by
  have related := good.vecs v
  rw [here] at related
  generalize ls v = l at related
  cases related with
  | some fits => exact ⟨_, rfl, fits⟩

theorem Good.object (good : Good c mem ls) (here : ls v = some xs) :
    ∃ r, mem.vecs v = some r ∧ Fits c mem v r xs := by
  have related := good.vecs v
  rw [here] at related
  generalize mem.vecs v = o at related
  cases related with
  | some fits => exact ⟨_, rfl, fits⟩

theorem Good.none_iff (good : Good c mem ls) : mem.vecs v = none ↔ ls v = none := by
  have related := good.vecs v
  generalize mem.vecs v = o, ls v = l at related
  cases related <;> simp

theorem good_initial : Good c Machine.initial.toMemory fun _ => none := by
  refine ⟨fun v => .none, ?_, ?_, fun _ => rfl, fun _ => rfl⟩
  · intro v v' r r' a here
    cases here
  · intro a n allocated
    cases allocated

/-! ## One vector -/

theorem buffer_none (pointer : r.dynamicData = none) : r.buffer v = .inline v := by
  rw [Object.buffer, pointer]

theorem buffer_some (pointer : r.dynamicData = some a) : r.buffer v = .block a := by
  rw [Object.buffer, pointer]

theorem Fits.isDynamic_iff (fits : Fits c mem v r xs) :
    c.isDynamic r = true ↔ ∃ a, r.dynamicData = some a := by
  rw [isDynamic, decide_eq_true_eq]
  cases pointer : r.dynamicData with
  | none => simp [fits.small pointer]
  | some a => simp [(fits.large a pointer).1]

theorem Fits.data (fits : Fits c mem v r xs) : c.data v r = some (r.buffer v) := by
  rw [SooVec.data]
  cases pointer : r.dynamicData with
  | none =>
      have inline : c.isDynamic r ≠ true := by simp [fits.isDynamic_iff, pointer]
      rw [if_neg inline, buffer_none pointer]
  | some a =>
      rw [if_pos (fits.isDynamic_iff.mpr ⟨a, pointer⟩), buffer_some pointer]
      rfl

theorem Fits.le_capacity (fits : Fits c mem v r xs) : c.N ≤ r.capacity := by
  cases pointer : r.dynamicData with
  | none => exact (fits.small pointer).ge
  | some a => exact (fits.large a pointer).1.le

theorem Fits.usable (fits : Fits c mem v r xs) (here : mem.vecs v = some r)
    (room : k < r.capacity) : c.usable mem k (r.buffer v) = true := by
  cases pointer : r.dynamicData with
  | none =>
      rw [buffer_none pointer, usable_inline]
      have capacity := fits.small pointer
      exact ⟨by omega, r, here, pointer⟩
  | some a =>
      rw [buffer_some pointer, usable_block]
      exact ⟨r.capacity, (fits.large a pointer).2.1, room⟩

/-- A vector that nothing happened to. -/
theorem Fits.congr (fits : Fits c mem v r xs)
    (cells : mem'.cells (r.buffer v) = mem.cells (r.buffer v))
    (inline : mem'.cells (.inline v) = mem.cells (.inline v))
    (blocks : ∀ a, r.dynamicData = some a → mem'.blocks a = mem.blocks a) :
    Fits c mem' v r xs := by
  refine ⟨fits.size, fits.le, fits.small, ?_, ?_⟩
  · intro a pointer
    rw [blocks a pointer, inline]
    exact fits.large a pointer
  · rw [cells]
    exact fits.elements

theorem Good.buffer_ne (good : Good c mem ls) {s : Object} (here : mem.vecs v = some r)
    (there : mem.vecs u = some s) (other : u ≠ v) : s.buffer u ≠ r.buffer v := by
  intro same
  cases pointer : r.dynamicData with
  | none =>
      cases pointer' : s.dynamicData with
      | none =>
          rw [buffer_none pointer, buffer_none pointer'] at same
          exact other (Buffer.inline.inj same)
      | some a =>
          rw [buffer_none pointer, buffer_some pointer'] at same
          cases same
  | some a =>
      cases pointer' : s.dynamicData with
      | none =>
          rw [buffer_some pointer, buffer_none pointer'] at same
          cases same
      | some a' =>
          rw [buffer_some pointer, buffer_some pointer'] at same
          cases same
          exact other (good.apart there here pointer' pointer)

theorem inline_ne_buffer (other : u ≠ v) : Buffer.inline u ≠ r.buffer v := by
  rw [Object.buffer]
  cases r.dynamicData with
  | none => exact fun same => other (Buffer.inline.inj same)
  | some a => exact Buffer.noConfusion

theorem inline_ne_block : Buffer.inline v ≠ Buffer.block a := Buffer.noConfusion

/-! ## Changes to one vector -/

/-- What another vector needs of a change. -/
structure Spared (mem mem' : Memory T) (u : Nat) (s : Object) : Prop where
  cells : mem'.cells (s.buffer u) = mem.cells (s.buffer u)
  inline : mem'.cells (.inline u) = mem.cells (.inline u)
  blocks : ∀ a, s.dynamicData = some a → mem'.blocks a = mem.blocks a

theorem Good.change (good : Good c mem ls) {o : Option Object} {l : Option (List T)}
    (vecs : mem'.vecs = Function.update mem.vecs v o)
    (here : Option.Rel (Fits c mem' v) o l)
    (spared : ∀ u s, u ≠ v → mem.vecs u = some s → Spared mem mem' u s)
    (apart : ∀ r u s a, o = some r → u ≠ v → mem.vecs u = some s → r.dynamicData = some a →
      s.dynamicData ≠ some a)
    (owned : ∀ a n, mem'.blocks a = some n → (∃ r, o = some r ∧ r.dynamicData = some a) ∨
      ∃ u s, u ≠ v ∧ mem.vecs u = some s ∧ s.dynamicData = some a)
    (gone : o = none → mem'.cells (.inline v) = row [])
    (unused : ∀ u, u ≠ v → mem.vecs u = none → mem'.cells (.inline u) = row [])
    (freed : ∀ a, mem'.blocks a = none → mem'.cells (.block a) = row []) :
    Good c mem' (Function.update ls v l) := by
  refine ⟨fun u => ?_, ?_, ?_, ?_, fun {a} => freed a⟩
  · rw [vecs]
    by_cases same : u = v
    · subst same
      rwa [Function.update_self, Function.update_self]
    · rw [Function.update_of_ne same, Function.update_of_ne same]
      cases there : mem.vecs u with
      | none =>
          rw [good.none_iff.mp there]
          exact .none
      | some s =>
          obtain ⟨xs, list, fits⟩ := good.fits there
          have kept := spared u s same there
          rw [list]
          exact .some (fits.congr kept.cells kept.inline kept.blocks)
  · intro u u' s s' a there there' pointer pointer'
    rw [vecs, Function.update_apply] at there there'
    split at there <;> split at there'
    · simp_all
    · next same other => exact absurd pointer' (apart s u' s' a there other there' pointer)
    · next other same => exact absurd pointer (apart s' u s a there' other there pointer')
    · exact good.apart there there' pointer pointer'
  · intro a n allocated
    rw [vecs]
    obtain ⟨r, rfl, pointer⟩ | ⟨u, s, other, there, pointer⟩ := owned a n allocated
    · exact ⟨v, r, Function.update_self .., pointer⟩
    · exact ⟨u, s, by rw [Function.update_of_ne other, there], pointer⟩
  · intro u empty
    rw [vecs, Function.update_apply] at empty
    split at empty
    · next same =>
        subst same
        exact gone empty
    · next other => exact unused u other empty

/-- Every block is the one of this vector or of another one. -/
theorem Good.owner (good : Good c mem ls) (here : mem.vecs v = some r)
    (allocated : mem.blocks a = some n) : r.dynamicData = some a ∨
      ∃ u s, u ≠ v ∧ mem.vecs u = some s ∧ s.dynamicData = some a := by
  obtain ⟨u, s, there, pointer⟩ := good.owned allocated
  by_cases same : u = v
  · subst same
    obtain rfl : s = r := Option.some.inj (there.symm.trans here)
    exact .inl pointer
  · exact .inr ⟨u, s, same, there, pointer⟩

/-- Other elements in the same buffer. -/
theorem Good.edit (ys : List T) (good : Good c mem ls) (here : mem.vecs v = some r)
    (list : ls v = some xs) (le : ys.length ≤ r.capacity) :
    Good c ((mem.setRow (r.buffer v) (row ys)).setVec v (some { r with size := ys.length }))
      (Function.update ls v (some ys)) := by
  obtain ⟨_, list', fits⟩ := good.fits here
  obtain rfl := Option.some.inj (list.symm.trans list')
  refine good.change (v := v) rfl (.some ⟨rfl, le, fits.small, ?_, Function.update_self ..⟩)
    ?_ ?_ ?_ ?_ ?_ ?_
  · intro a pointer
    change r.dynamicData = some a at pointer
    obtain ⟨above, allocated, inline⟩ := fits.large a pointer
    refine ⟨above, allocated, ?_⟩
    rw [buffer_some pointer, setVec_cells, setRow_cells, Function.update_of_ne inline_ne_block]
    exact inline
  · intro u s other there
    refine ⟨Function.update_of_ne (good.buffer_ne here there other) _ _, ?_, fun _ _ => rfl⟩
    exact Function.update_of_ne (inline_ne_buffer other) _ _
  · rintro r' u s a ⟨⟩ other there pointer pointer'
    exact other (good.apart there here pointer' pointer)
  · intro a n allocated
    exact (good.owner here allocated).imp_left fun pointer => ⟨_, rfl, pointer⟩
  · rintro ⟨⟩
  · intro u other empty
    exact (Function.update_of_ne (inline_ne_buffer other) _ _).trans (good.unused empty)
  · intro a free
    have other : Buffer.block a ≠ r.buffer v := by
      intro same
      cases pointer : r.dynamicData with
      | none =>
          rw [buffer_none pointer] at same
          cases same
      | some a' =>
          rw [buffer_some pointer] at same
          cases same
          exact Option.some_ne_none _ ((fits.large a pointer).2.1.symm.trans free)
    exact (Function.update_of_ne other _ _).trans (good.freed free)

theorem Good.construct (good : Good c mem ls) (free : ls v = none) :
    Good c (mem.setVec v (some ⟨0, c.N, none⟩)) (Function.update ls v (some [])) := by
  have unused : mem.vecs v = none := good.none_iff.mpr free
  refine good.change (v := v) rfl (.some ⟨rfl, Nat.zero_le _, fun _ => rfl, ?_, good.unused unused⟩)
    ?_ ?_ ?_ ?_ ?_ ?_
  · rintro a ⟨⟩
  · exact fun u s other there => ⟨rfl, rfl, fun _ _ => rfl⟩
  · rintro r u s a ⟨⟩ other there ⟨⟩
  · intro a n allocated
    obtain ⟨u, s, there, pointer⟩ := good.owned allocated
    refine .inr ⟨u, s, ?_, there, pointer⟩
    rintro rfl
    cases there.symm.trans unused
  · rintro ⟨⟩
  · exact fun u other empty => good.unused empty
  · exact fun a free => good.freed free

/-- The end of a vector that is empty and has no block. -/
theorem Good.destroy (good : Good c mem ls) (here : mem.vecs v = some r) (list : ls v = some [])
    (pointer : r.dynamicData = none) : Good c (mem.setVec v none) (Function.update ls v none) := by
  obtain ⟨_, list', fits⟩ := good.fits here
  obtain rfl := Option.some.inj (list.symm.trans list')
  refine good.change (v := v) rfl .none ?_ ?_ ?_ ?_ ?_ ?_
  · exact fun u s other there => ⟨rfl, rfl, fun _ _ => rfl⟩
  · rintro r' u s a ⟨⟩
  · intro a n allocated
    obtain pointer' | other := good.owner here allocated
    · cases pointer.symm.trans pointer'
    · exact .inr other
  · intro _
    have elements := fits.elements
    rwa [buffer_none pointer] at elements
  · exact fun u other empty => good.unused empty
  · exact fun a free => good.freed free

/-- The blocks without that of the vector. -/
def released (mem : Memory T) (r : Object) : Nat → Option Nat :=
  match r.dynamicData with
  | some a => Function.update mem.blocks a none
  | none => mem.blocks

theorem released_of_ne (other : r.dynamicData ≠ some a) : released mem r a = mem.blocks a := by
  rw [released]
  cases pointer : r.dynamicData with
  | none => rfl
  | some a' =>
      refine Function.update_of_ne ?_ _ _
      rintro rfl
      exact other pointer

theorem released_self (pointer : r.dynamicData = some a) : released mem r a = none := by
  simp [released, pointer]

/-- A block that is still there is the one of another vector. -/
theorem Good.owner_released (good : Good c mem ls) (here : mem.vecs v = some r)
    (allocated : released mem r a = some n) :
    r.dynamicData ≠ some a ∧ ∃ u s, u ≠ v ∧ mem.vecs u = some s ∧ s.dynamicData = some a := by
  have other : r.dynamicData ≠ some a := by
    intro pointer
    cases (released_self pointer).symm.trans allocated
  rw [released_of_ne other] at allocated
  exact ⟨other, (good.owner here allocated).resolve_left other⟩

/-- A vector that gives its elements and its block up. -/
theorem Good.clear (good : Good c mem ls) (here : mem.vecs v = some r) :
    Good c ({ mem.setRow (r.buffer v) (row []) with blocks := released mem r }.setVec v
      (some ⟨0, c.N, none⟩)) (Function.update ls v (some [])) := by
  obtain ⟨xs, list, fits⟩ := good.fits here
  have inline : Function.update mem.cells (r.buffer v) (row []) (.inline v) = row [] := by
    cases pointer : r.dynamicData with
    | none =>
        rw [buffer_none pointer]
        exact Function.update_self ..
    | some a =>
        rw [buffer_some pointer]
        exact (Function.update_of_ne inline_ne_block _ _).trans (fits.large a pointer).2.2
  refine good.change (v := v) rfl (.some ⟨rfl, Nat.zero_le _, fun _ => rfl, ?_, inline⟩)
    ?_ ?_ ?_ ?_ ?_ ?_
  · rintro a ⟨⟩
  · intro u s other there
    refine ⟨Function.update_of_ne (good.buffer_ne here there other) _ _, ?_, ?_⟩
    · exact Function.update_of_ne (inline_ne_buffer other) _ _
    · intro a pointer
      refine released_of_ne fun pointer' => ?_
      exact other (good.apart there here pointer pointer')
  · rintro r' u s a ⟨⟩ other there ⟨⟩
  · intro a n allocated
    exact .inr (good.owner_released here allocated).2
  · rintro ⟨⟩
  · intro u other empty
    exact (Function.update_of_ne (inline_ne_buffer other) _ _).trans (good.unused empty)
  · intro a free
    change Function.update mem.cells (r.buffer v) (row []) (.block a) = row []
    rw [Function.update_apply]
    split
    · rfl
    · next other =>
        refine good.freed ?_
        rwa [← released_of_ne fun pointer => other (buffer_some pointer).symm]

/-- The memory after a vector moved its elements into a new block. -/
def grown (mem : Memory T) (v : Nat) (r : Object) (xs : List T) (a n : Nat) : Memory T :=
  { (mem.setRow (r.buffer v) (row [])).setRow (.block a) (row xs) with
    blocks := Function.update (released mem r) a (some n)
    next := a + 1 }.setVec v (some ⟨r.size, n, some a⟩)

theorem grown_cells_block : (grown mem v r xs a n).cells (.block a) = row xs :=
  Function.update_self ..

theorem grown_cells_buffer {b : Buffer} (other : b ≠ .block a) :
    (grown mem v r xs a n).cells b = if b = r.buffer v then row [] else mem.cells b := by
  change Function.update (Function.update mem.cells (r.buffer v) (row [])) (.block a) (row xs) b = _
  rw [Function.update_of_ne other, Function.update_apply]

/-- A vector that moves its elements into a block of its own. -/
theorem Good.grow (good : Good c mem ls) (here : mem.vecs v = some r) (list : ls v = some xs)
    (fresh : mem.blocks a = none) (more : r.capacity < n) :
    Good c (grown mem v r xs a n) ls := by
  obtain ⟨_, list', fits⟩ := good.fits here
  obtain rfl := Option.some.inj (list.symm.trans list')
  have theirs : ∀ u s, mem.vecs u = some s → s.dynamicData ≠ some a := by
    intro u s there pointer
    obtain ⟨_, -, fits'⟩ := good.fits there
    cases (fits'.large a pointer).2.1.symm.trans fresh
  have elsewhere : ∀ u s, mem.vecs u = some s → s.buffer u ≠ .block a := by
    intro u s there same
    cases pointer : s.dynamicData with
    | none =>
        rw [buffer_none pointer] at same
        cases same
    | some a' =>
        rw [buffer_some pointer] at same
        cases same
        exact theirs u s there pointer
  have same : ls = Function.update ls v (some xs) :=
    (Function.update_eq_self_iff.mpr list.symm).symm
  rw [same]
  refine good.change (v := v) rfl (.some ⟨fits.size, fits.le.trans more.le, ?_, ?_,
    grown_cells_block⟩) ?_ ?_ ?_ ?_ ?_ ?_
  · rintro ⟨⟩
  · rintro _ ⟨⟩
    refine ⟨Nat.lt_of_le_of_lt fits.le_capacity more, Function.update_self .., ?_⟩
    rw [grown_cells_buffer inline_ne_block]
    split
    · rfl
    · next other =>
        cases pointer : r.dynamicData with
        | none => exact absurd (buffer_none pointer).symm other
        | some a' => exact (fits.large a' pointer).2.2
  · intro u s other there
    refine ⟨?_, ?_, ?_⟩
    · rw [grown_cells_buffer (elsewhere u s there), if_neg (good.buffer_ne here there other)]
    · rw [grown_cells_buffer inline_ne_block, if_neg (inline_ne_buffer other)]
    · intro a' pointer
      have different : a' ≠ a := by
        rintro rfl
        exact theirs u s there pointer
      refine (Function.update_of_ne different _ _).trans (released_of_ne fun pointer' => ?_)
      exact other (good.apart there here pointer pointer')
  · rintro r' u s a' ⟨⟩ other there ⟨⟩
    exact theirs u s there
  · intro a' n' allocated
    change Function.update (released mem r) a (some n) a' = some n' at allocated
    rw [Function.update_apply] at allocated
    split at allocated
    · next same =>
        subst same
        exact .inl ⟨_, rfl, rfl⟩
    · exact .inr (good.owner_released here allocated).2
  · rintro ⟨⟩
  · intro u other empty
    rw [grown_cells_buffer inline_ne_block, if_neg (inline_ne_buffer other)]
    exact good.unused empty
  · intro a' free
    change Function.update (released mem r) a (some n) a' = none at free
    have different : a' ≠ a := by
      rintro rfl
      rw [Function.update_self] at free
      cases free
    rw [Function.update_of_ne different] at free
    rw [grown_cells_buffer fun same => different (Buffer.block.inj same)]
    split
    · rfl
    · next other =>
        refine good.freed ?_
        rwa [← released_of_ne fun pointer => other (buffer_some pointer).symm]

/-- A vector that takes the block of another one over. -/
theorem Good.steal (good : Good c mem ls) (here : mem.vecs v = some r) (list : ls v = some [])
    (pointer : r.dynamicData = none) {o : Object} (there : mem.vecs u = some o)
    (list' : ls u = some ys) (block : o.dynamicData = some a) (other : u ≠ v) :
    Good c ((mem.setVec v (some ⟨o.size, o.capacity, some a⟩)).setVec u (some ⟨0, c.N, none⟩))
      (Function.update (Function.update ls v (some ys)) u (some [])) := by
  obtain ⟨_, eq, fits⟩ := good.fits here
  obtain rfl := Option.some.inj (list.symm.trans eq)
  obtain ⟨_, eq', fits'⟩ := good.fits there
  obtain rfl := Option.some.inj (list'.symm.trans eq')
  obtain ⟨above, allocated, inline⟩ := fits'.large a block
  have elements := fits'.elements
  rw [buffer_some block] at elements
  have empty := fits.elements
  rw [buffer_none pointer] at empty
  have moved : ∀ w,
      Function.update (Function.update mem.vecs v (some ⟨o.size, o.capacity, some a⟩)) u
      (some ⟨0, c.N, none⟩) w =
      if w = u then some ⟨0, c.N, none⟩ else if w = v then some ⟨o.size, o.capacity, some a⟩
        else mem.vecs w := by
    intro w
    rw [Function.update_apply, Function.update_apply]
  -- whose pointer it is afterwards
  have pointers : ∀ {w s a'}, Function.update (Function.update mem.vecs v
      (some ⟨o.size, o.capacity, some a⟩)) u (some ⟨0, c.N, none⟩) w = some s →
      s.dynamicData = some a' → (w = v ∧ a' = a) ∨ (w ≠ u ∧ mem.vecs w = some s) := by
    intro w s a' at_ data
    rw [moved] at at_
    split at at_
    · cases at_
      cases data
    · next away =>
        split at at_
        · next same =>
            cases at_
            cases data
            exact .inl ⟨same, rfl⟩
        · exact .inr ⟨away, at_⟩
  refine ⟨fun w => ?_, ?_, ?_, ?_, good.freed⟩
  · rw [setVec_vecs, setVec_vecs, moved, Function.update_apply, Function.update_apply]
    split
    · next same =>
        subst same
        refine .some ⟨rfl, Nat.zero_le _, fun _ => rfl, ?_, inline⟩
        rintro _ ⟨⟩
    split
    · next same =>
        subst same
        refine .some ⟨fits'.size, fits'.le, ?_, ?_, elements⟩
        · rintro ⟨⟩
        · rintro _ ⟨⟩
          exact ⟨above, allocated, empty⟩
    · cases at_ : mem.vecs w with
      | none =>
          rw [good.none_iff.mp at_]
          exact .none
      | some s =>
          obtain ⟨zs, list'', fits''⟩ := good.fits at_
          rw [list'']
          exact .some (fits''.congr rfl rfl fun _ _ => rfl)
  · intro w w' s s' a' at_ at_' data data'
    obtain ⟨rfl, rfl⟩ | ⟨away, old⟩ := pointers at_ data
    · obtain ⟨same, -⟩ | ⟨away', old'⟩ := pointers at_' data'
      · exact same.symm
      · exact absurd (good.apart old' there data' block) away'
    · obtain ⟨-, rfl⟩ | ⟨away', old'⟩ := pointers at_' data'
      · exact absurd (good.apart old there data block) away
      · exact good.apart old old' data data'
  · intro a' n allocated'
    obtain ⟨w, s, at_, data⟩ := good.owned allocated'
    by_cases own : w = u
    · subst own
      obtain rfl : s = o := Option.some.inj (at_.symm.trans there)
      obtain rfl : a' = a := Option.some.inj (data.symm.trans block)
      refine ⟨v, ⟨s.size, s.capacity, some a'⟩, ?_, rfl⟩
      rw [setVec_vecs, setVec_vecs, moved, if_neg other.symm, if_pos rfl]
    · refine ⟨w, s, ?_, data⟩
      have away : w ≠ v := by
        rintro rfl
        obtain rfl : s = r := Option.some.inj (at_.symm.trans here)
        cases pointer.symm.trans data
      rw [setVec_vecs, setVec_vecs, moved, if_neg own, if_neg away, at_]
  · intro w gone
    rw [setVec_vecs, setVec_vecs, moved] at gone
    split at gone
    · cases gone
    split at gone
    · cases gone
    · exact good.unused gone

end Fpag.Base.SooVec
