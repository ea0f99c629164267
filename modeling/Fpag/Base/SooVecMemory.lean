import Fpag.Base.SooVec

/-!
The memory of `SooVec`s, operation by operation.

Each function on the memory gets the condition under which it does not fail and the memory that it
leaves. `Machine.Shows` says the latter, with the other half of what every function keeps: that the
events written down are allowed and agree with the objects and the blocks there are. The two loops
over elements are stated on whole buffers, a buffer that has exactly the elements of a list being
`row` of it.
-/

namespace Fpag.Base.SooVec

open Lifetime

variable {T : Type} {c : SooVec T} {m : Machine T} {mem : Memory T} {b source target : Buffer}
  {k i n v a : Nat} {x : T} {xs : List T} {r : Object}

/-! ## Rows -/

/-- A buffer with exactly these elements, from its start on. -/
def row (xs : List T) : Nat → Option T := fun k => xs[k]?

def Memory.setRow (mem : Memory T) (b : Buffer) (cells : Nat → Option T) : Memory T :=
  { mem with cells := Function.update mem.cells b cells }

@[simp] theorem row_apply : row xs k = xs[k]? := rfl

theorem update_row_length : Function.update (row xs) xs.length (some x) = row (xs ++ [x]) := by
  funext k
  simp only [row, Function.update_apply]
  grind

theorem update_row_set (inside : i < xs.length) :
    Function.update (row xs) i (some x) = row (xs.set i x) := by
  funext k
  simp only [row, Function.update_apply]
  grind

theorem update_row_last : Function.update (row (xs ++ [x])) xs.length none = row xs := by
  funext k
  simp only [row, Function.update_apply]
  grind

theorem setCell_eq : mem.setCell b k (some x) =
    mem.setRow b (Function.update (mem.cells b) k (some x)) := rfl

@[simp] theorem setRow_same {cells cells' : Nat → Option T} :
    (mem.setRow b cells).setRow b cells' = mem.setRow b cells' := by
  simp [Memory.setRow]

theorem setRow_self : mem.setRow b (mem.cells b) = mem := by
  simp [Memory.setRow]

@[simp] theorem setRow_vecs {cells : Nat → Option T} : (mem.setRow b cells).vecs = mem.vecs := rfl

@[simp] theorem setRow_blocks {cells : Nat → Option T} :
    (mem.setRow b cells).blocks = mem.blocks := rfl

@[simp] theorem setRow_next {cells : Nat → Option T} : (mem.setRow b cells).next = mem.next := rfl

@[simp] theorem setRow_cells {cells : Nat → Option T} :
    (mem.setRow b cells).cells = Function.update mem.cells b cells := rfl

@[simp] theorem setVec_vecs {r : Option Object} :
    (mem.setVec v r).vecs = Function.update mem.vecs v r := rfl

@[simp] theorem setVec_cells {r : Option Object} : (mem.setVec v r).cells = mem.cells := rfl

@[simp] theorem setVec_blocks {r : Option Object} : (mem.setVec v r).blocks = mem.blocks := rfl

@[simp] theorem setVec_next {r : Option Object} : (mem.setVec v r).next = mem.next := rfl

theorem usable_inline : c.usable mem k (.inline v) = true ↔
    k < max c.N 1 ∧ ∃ r, mem.vecs v = some r ∧ r.dynamicData = none := by
  simp only [usable, Bool.and_eq_true, decide_eq_true_eq, Option.any_eq_true,
    Option.isNone_iff_eq_none]

theorem usable_block : c.usable mem k (.block a) = true ↔ ∃ n, mem.blocks a = some n ∧ k < n := by
  simp only [usable, Option.any_eq_true, decide_eq_true_eq]

/-! ## What is written down -/

/-- The events agree with the objects and the blocks there are. -/
structure Logged (m : Machine T) : Prop where
  lifetimes : Proper (fun _ => false) ∅ m.lifetimes
  alive : ∀ b k, ((b, k), ()) ∈ after ∅ m.lifetimes ↔ (m.cells b k).isSome = true
  allocations : Proper (fun _ => false) ∅ m.allocations
  allocated : ∀ a n, (a, n) ∈ after ∅ m.allocations ↔ m.blocks a = some n
  fresh : ∀ a, m.next ≤ a → m.blocks a = none

/-- The machine has this memory, and its events agree with it. -/
structure Machine.Shows (m : Machine T) (mem : Memory T) : Prop where
  logged : Logged m
  memory : m.toMemory = mem

theorem logged_initial : Logged (Machine.initial : Machine T) := by
  refine ⟨Proper.nil, ?_, Proper.nil, ?_, fun _ _ => rfl⟩
  · intro b k
    simp [Machine.initial]
  · intro a n
    simp [Machine.initial]

/-- Objects and blocks that stay as they are keep the agreement. -/
theorem Logged.congr {m' : Machine T} (logged : Logged m)
    (lifetimes : m'.lifetimes = m.lifetimes) (allocations : m'.allocations = m.allocations)
    (cells : ∀ b k, (m'.cells b k).isSome = (m.cells b k).isSome) (blocks : m'.blocks = m.blocks)
    (next : m'.next = m.next) : Logged m' := by
  refine ⟨?_, ?_, ?_, ?_, ?_⟩
  · rw [lifetimes]
    exact logged.lifetimes
  · intro b k
    rw [lifetimes, cells]
    exact logged.alive b k
  · rw [allocations]
    exact logged.allocations
  · rw [allocations, blocks]
    exact logged.allocated
  · rw [blocks, next]
    exact logged.fresh

theorem shows_setVec (logged : Logged m) : (m.setVec v r).Shows (m.toMemory.setVec v (some r)) :=
  ⟨logged.congr rfl rfl (fun _ _ => rfl) rfl rfl, rfl⟩

/-! ## One object -/

theorem setCell_apply {y : Option T} {b' : Buffer} {k' : Nat} :
    (mem.setCell b k y).cells b' k' = if b' = b ∧ k' = k then y else mem.cells b' k' := by
  simp only [Memory.setCell, Function.update_apply]
  grind

theorem take_spec (logged : Logged m) (usable : c.usable m.toMemory k b = true)
    (here : m.cells b k = some x) : ∃ m', c.take b k m = some (x, m') ∧
      m'.Shows (m.toMemory.setCell b k (some (c.movedFrom x))) := by
  refine ⟨_, by rw [take, read, if_pos usable, here]; rfl, ?_, rfl⟩
  refine logged.congr rfl rfl (fun b' k' => ?_) rfl rfl
  rw [setCell_apply]
  split
  · next same =>
      obtain ⟨rfl, rfl⟩ := same
      rw [here]
      rfl
  · rfl

theorem constructAt_spec (logged : Logged m) (usable : c.usable m.toMemory k b = true)
    (free : m.cells b k = none) : ∃ m', c.constructAt b k x m = some m' ∧
      m'.Shows (m.toMemory.setCell b k (some x)) := by
  refine ⟨_, if_pos ⟨usable, by rw [free]; rfl⟩, ⟨?_, ?_, logged.allocations,
    logged.allocated, logged.fresh⟩, rfl⟩
  · refine proper_append.mpr ⟨logged.lifetimes, proper_singleton.mpr ?_⟩
    rintro ⟨p, ⟨⟩⟩ member rfl
    have alive := (logged.alive b k).mp member
    rw [free] at alive
    cases alive
  · intro b' k'
    rw [after_append, after_cons, after_nil, Event.after, setCell_apply]
    simp only [Finset.mem_insert, Finset.mem_filter, logged.alive, Prod.mk.injEq, and_true]
    grind

theorem destroyAt_spec (logged : Logged m) (usable : c.usable m.toMemory k b = true)
    (here : m.cells b k = some x) : ∃ m', c.destroyAt b k m = some m' ∧
      m'.Shows (m.toMemory.setCell b k none) := by
  refine ⟨_, if_pos ⟨usable, by rw [here]; rfl⟩, ⟨?_, ?_, logged.allocations,
    logged.allocated, logged.fresh⟩, rfl⟩
  · refine proper_append.mpr ⟨logged.lifetimes, proper_singleton.mpr ?_⟩
    exact (logged.alive b k).mpr (by rw [here]; rfl)
  · intro b' k'
    rw [after_append, after_cons, after_nil, Event.after, setCell_apply]
    simp only [Finset.mem_erase, logged.alive, ne_eq, Prod.mk.injEq, and_true]
    grind

/-! ## One block -/

theorem allocate_spec (logged : Logged m) : (allocate n m).2.Shows
    { m.toMemory with blocks := Function.update m.blocks m.next (some n), next := m.next + 1 } := by
  refine ⟨⟨logged.lifetimes, logged.alive, ?_, ?_, ?_⟩, rfl⟩
  · refine proper_append.mpr ⟨logged.allocations, proper_singleton.mpr ?_⟩
    rintro ⟨a, n'⟩ member rfl
    have allocated := (logged.allocated _ n').mp member
    rw [logged.fresh _ (Nat.le_refl _)] at allocated
    cases allocated
  · intro a n'
    change _ ∈ after ∅ (m.allocations ++ [.constructed m.next n]) ↔
      Function.update m.blocks m.next (some n) a = some n'
    rw [after_append, after_cons, after_nil, Event.after]
    simp only [Finset.mem_insert, Finset.mem_filter, logged.allocated, Prod.mk.injEq,
      Function.update_apply]
    grind
  · intro a later
    change m.next + 1 ≤ a at later
    change Function.update m.blocks m.next (some n) a = none
    rw [Function.update_of_ne (by omega)]
    exact logged.fresh a (by omega)

theorem deallocate_spec (logged : Logged m) (allocated : m.blocks a = some n) :
    ∃ m', deallocate (some a) n m = some m' ∧
      m'.Shows { m.toMemory with blocks := Function.update m.blocks a none } := by
  refine ⟨_, if_pos allocated, ⟨logged.lifetimes, logged.alive, ?_, ?_, ?_⟩,
    rfl⟩
  · refine proper_append.mpr ⟨logged.allocations, proper_singleton.mpr ?_⟩
    exact (logged.allocated a n).mpr allocated
  · intro a' n'
    change _ ∈ after ∅ (m.allocations ++ [.destroyed a n]) ↔
      Function.update m.blocks a none a' = some n'
    rw [after_append, after_cons, after_nil, Event.after]
    simp only [Finset.mem_erase, logged.allocated, Function.update_apply, ne_eq, Prod.mk.injEq]
    grind
  · intro a' later
    change Function.update m.blocks a none a' = none
    rw [Function.update_apply, logged.fresh a' later, ite_self]

theorem setDynamicData_spec {p : Option Nat} (logged : Logged m) (here : m.vecs v = some r)
    (empty : m.cells (.inline v) = row []) : ∃ m', c.setDynamicData v p m = some m' ∧
      m'.Shows (m.toMemory.setVec v (some { r with dynamicData := p })) := by
  refine ⟨m.setVec v { r with dynamicData := p }, ?_, shows_setVec logged⟩
  rw [setDynamicData, here, Option.bind_some, if_pos]
  intro k _
  rw [empty]
  rfl

/-! ## Loops over elements -/

/-- A row whose first elements are gone. -/
def rowFrom (i : Nat) (xs : List T) : Nat → Option T := fun k => if k < i then none else xs[k]?

theorem rowFrom_zero : rowFrom 0 xs = row xs := by
  funext k
  simp [rowFrom, row]

theorem rowFrom_length : rowFrom xs.length xs = row [] := by
  funext k
  simp only [rowFrom, row]
  grind

theorem update_rowFrom : Function.update (rowFrom i xs) i none = rowFrom (i + 1) xs := by
  funext k
  simp only [rowFrom, Function.update_apply]
  grind

theorem update_row_take (inside : i < xs.length) :
    Function.update (row (xs.take i)) i (some xs[i]) = row (xs.take (i + 1)) := by
  funext k
  simp only [row, Function.update_apply]
  grind

theorem setCell_setRow {cells : Nat → Option T} {y : Option T} :
    (mem.setRow b cells).setCell b k y = mem.setRow b (Function.update cells k y) := by
  simp [Memory.setRow, Memory.setCell]

theorem setRow_comm {b' : Buffer} {cells cells' : Nat → Option T} (other : b ≠ b') :
    (mem.setRow b cells).setRow b' cells' = (mem.setRow b' cells').setRow b cells := by
  simp only [Memory.setRow, Function.update_comm other]

/-- The destructions of all elements from `i` on. -/
theorem destroyAll_spec (logged : Logged m) (memory : m.toMemory = mem.setRow b (rowFrom i xs))
    (count : i + n = xs.length) (usable : ∀ k < xs.length, c.usable mem k b = true) :
    ∃ m', c.destroyAll b n i m = some m' ∧ m'.Shows (mem.setRow b (row [])) := by
  induction n generalizing i m with
  | zero =>
      obtain rfl : i = xs.length := count
      rw [rowFrom_length] at memory
      exact ⟨m, rfl, logged, memory⟩
  | succ n ih =>
      have inside : i < xs.length := by omega
      have here : m.cells b i = some xs[i] := by
        rw [memory]
        simp [rowFrom, inside]
      have room : c.usable m.toMemory i b = true := by
        rw [memory]
        exact usable i inside
      obtain ⟨m', destroyed, shows'⟩ := destroyAt_spec logged room here
      have next : m'.toMemory = mem.setRow b (rowFrom (i + 1) xs) := by
        rw [shows'.memory, memory, setCell_setRow, update_rowFrom]
      obtain ⟨m'', rest, done⟩ := ih shows'.logged next (by omega)
      exact ⟨m'', by rw [destroyAll, destroyed, Option.bind_some, rest], done⟩

/-- The moves of all elements from `i` on into a buffer that has those before them. -/
theorem relocate_spec (logged : Logged m)
    (memory : m.toMemory =
      (mem.setRow source (rowFrom i xs)).setRow target (row (xs.take i)))
    (count : i + n = xs.length) (apart : source ≠ target)
    (give : ∀ k < xs.length, c.usable mem k source = true)
    (hold : ∀ k < xs.length, c.usable mem k target = true) :
    ∃ m', c.relocate source target n i m = some m' ∧
      m'.Shows ((mem.setRow source (row [])).setRow target (row xs)) := by
  induction n generalizing i m with
  | zero =>
      obtain rfl : i = xs.length := count
      rw [rowFrom_length, List.take_length] at memory
      exact ⟨m, rfl, logged, memory⟩
  | succ n ih =>
      have inside : i < xs.length := by omega
      have here : m.cells source i = some xs[i] := by
        rw [memory]
        simp [rowFrom, inside, Function.update_of_ne apart]
      have room : c.usable m.toMemory i source = true := by
        rw [memory]
        exact give i inside
      obtain ⟨m₁, taken, left⟩ := take_spec logged room here
      have memory₁ := left.memory
      rw [memory, setRow_comm apart, setCell_setRow] at memory₁
      have free : m₁.cells target i = none := by
        rw [memory₁]
        simp [Function.update_of_ne apart.symm]
      have room₁ : c.usable m₁.toMemory i target = true := by
        rw [memory₁]
        exact hold i inside
      obtain ⟨m₂, constructed, moved⟩ := constructAt_spec (x := xs[i]) left.logged room₁ free
      have memory₂ := moved.memory
      rw [memory₁, setRow_comm apart.symm, setCell_setRow, update_row_take inside] at memory₂
      have here₂ : m₂.cells source i = some (c.movedFrom xs[i]) := by
        rw [memory₂]
        simp [Function.update_of_ne apart]
      have room₂ : c.usable m₂.toMemory i source = true := by
        rw [memory₂]
        exact give i inside
      obtain ⟨m₃, destroyed, gone⟩ := destroyAt_spec moved.logged room₂ here₂
      have next : m₃.toMemory =
          (mem.setRow source (rowFrom (i + 1) xs)).setRow target (row (xs.take (i + 1))) := by
        rw [gone.memory, memory₂, setRow_comm apart, setCell_setRow, Function.update_idem,
          update_rowFrom, setRow_comm apart.symm]
      obtain ⟨m', rest, done⟩ := ih gone.logged next (by omega)
      refine ⟨m', ?_, done⟩
      rw [relocate, taken, Option.bind_some, constructed, Option.bind_some, destroyed,
        Option.bind_some, rest]

end Fpag.Base.SooVec
