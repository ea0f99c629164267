import Fpag.Mem.ConcurrentArena

/-!
Moving a `mem::ConcurrentArena`.

The move constructor and the move assignment take the pages, the capacity, the lanes and both
cursors, but neither `lane_unit_` nor `pool_begin_`. The first is read only by a debug check of
`alloc_from`, the second by queries and by a debug check of `set_lanes`. `moves_iff` says for
which arenas nothing of this shows.

An `Object` is an arena with the pages that it holds, and an `Owned` is one in use: the threads
that allocate from it are part of the state, as `World` has them.
-/

namespace Fpag.Mem

open Schedule

variable {ι : Type} [DecidableEq ι]

/-! ## Objects -/

/-- An arena object. `ptr_` is where its pages are. -/
structure Object : Type where
  ptr : Option (BitVec 64)
  arena : ConcurrentArena 64
  holds : arena.reserved = ptr.isSome

namespace Object

/-- A default-constructed object. -/
def fresh : Object := ⟨none, .fresh 64, rfl⟩

/-- `ConcurrentArena::reset`. -/
def reset (o : Object) : Object where
  ptr := none
  arena := { o.arena with
    reserved := false, capacity := 0, lanes := [], poolBegin := 0, size := 0, committedSize := 0 }
  holds := rfl

/-- The arena that has taken over the pages, the lanes and the cursors of another. -/
def take (target source : Object) : Object where
  ptr := source.ptr
  arena := { target.arena with
    reserved := source.arena.reserved
    capacity := source.arena.capacity
    lanes := source.arena.lanes
    size := source.arena.size
    committedSize := source.arena.committedSize }
  holds := source.holds

/-- What a move leaves of its source. -/
def left (source : Object) : Object where
  ptr := none
  arena := { source.arena with
    reserved := false, capacity := 0, lanes := [], size := 0, committedSize := 0 }
  holds := rfl

/-- The move constructor: the fields that it does not name get their defaults. -/
def moveConstruct (source : Object) : Object × Object := (fresh.take source, source.left)

/-- The move assignment between two objects. -/
def moveAssign (target source : Object) : Object × Object :=
  ((if target.ptr.isSome then target.reset else target).take source, source.left)

end Object

/-- A move into a new object or into one that exists. -/
inductive Move : Type
  | construct
  | assign (target : Object)

/-- The object that a move writes to, as it is before. -/
def Move.target : Move → Object
  | .construct => .fresh
  | .assign target => target

/-- The target and the source after a move. -/
def Move.run (source : Object) : Move → Object × Object
  | .construct => source.moveConstruct
  | .assign target => target.moveAssign source

/-! ## Queries -/

/-- What an arena answers to `lane_begin`, `lane_end` and `lane_size`; nothing for a lane that
the debug checks refuse. -/
structure LaneAnswer : Type where
  laneBegin : BitVec 64
  laneEnd : BitVec 64
  laneSize : BitVec 64

/-- `ConcurrentArena::lane_begin`, `lane_end` and `lane_size`. -/
def ConcurrentArena.laneAnswer (a : ConcurrentArena 64) (lane : Nat) : Option LaneAnswer :=
  if a.lanes = [] then
    if lane = 0 then some ⟨0, a.size, a.size⟩ else none
  else a.lanes[lane]?.map fun l => ⟨l.laneBegin, l.laneEnd, l.cursor - l.laneBegin⟩

/-- The answers to all queries. -/
structure Answers : Type where
  basePtr : Option (BitVec 64)
  capacity : BitVec 64
  size : BitVec 64
  committedSize : BitVec 64
  lane : Nat → Option LaneAnswer
  poolBegin : BitVec 64
  poolSize : BitVec 64

def answers (ptr : Option (BitVec 64)) (a : ConcurrentArena 64) : Answers where
  basePtr := ptr
  capacity := a.capacity
  size := a.size
  committedSize := a.committedSize
  lane := a.laneAnswer
  poolBegin := a.poolBegin
  poolSize := a.size - a.poolBegin

/-! ## Calls -/

/-- The debug checks that a thread passes with one step of a call. -/
def World.checked (e : Event ι 64) (s : World ι 64) : Bool :=
  match e.action with
  | .call (.alloc _ _) => s.arena.reserved
  | .call (.allocExact size align) => s.arena.reserved && align != 0 && size % align == 0
  | .call (.allocFrom lane size align) =>
      s.arena.reserved && decide (lane < s.arena.lanes.length) &&
        (align != 0 && size % s.arena.laneUnit == 0) &&
        s.arena.lanes[lane]?.all fun l => l.cursor % align == 0
  | .go ok =>
      match s.threads e.thread with
      | .allocLoad size align =>
          Base.isPowerOfTwo align && (s.arena.fit s.arena.size size align).isSome
      | .exactAdd size align =>
          s.arena.size % align == 0 && decide (size ≤ s.arena.capacity - s.arena.size)
      | .commitPages _ _ _ => ok
      | _ => true

/-- An arena in use. -/
structure Owned (ι : Type) : Type where
  ptr : Option (BitVec 64)
  world : World ι 64

/-- What its owner and its threads can do with an arena. -/
inductive Op (ι : Type) : Type
  | reserve (ptr capacity : BitVec 64)
  | setLanes (lanes unit poolBytes : BitVec 64)
  | reset
  | event (e : Event ι 64)

namespace Owned

/-- An object that no thread uses yet. -/
def ofObject (o : Object) (owner : Nat → ι) : Owned ι := ⟨o.ptr, .initial o.arena owner⟩

def step : Op ι → Owned ι → Option (Owned ι)
  | .reserve ptr capacity, o =>
      some ⟨some ptr, { o.world with arena := o.world.arena.reserve capacity }⟩
  | .setLanes lanes unit poolBytes, o =>
      some { o with world := { o.world with arena := o.world.arena.setLanes lanes unit poolBytes } }
  | .reset, o =>
      some ⟨none, { o.world with arena := { o.world.arena with
        reserved := false, capacity := 0, lanes := [], poolBegin := 0, size := 0
        committedSize := 0 } }⟩
  | .event e, o => (o.world.step e).map fun world => { o with world := world }

/-- The debug checks of an operation, with `pageSize` for `page_size()`. -/
def checked (pageSize : BitVec 64) : Op ι → Owned ι → Bool
  | .reserve _ capacity, o => !o.world.arena.reserved && capacity % pageSize == 0
  | .setLanes lanes unit _, o =>
      o.world.arena.lanes.isEmpty && (o.world.arena.poolBegin == 0 && o.world.arena.size == 0) &&
        decide (0 < lanes) && decide (0 < unit)
  | .reset, o => o.world.arena.reserved
  | .event e, o => o.world.checked e

end Owned

/-- What is seen of an operation: whether its debug checks pass, what the caller gets, and the
answers to all queries afterwards. -/
structure Sight : Type where
  passes : Bool
  outcome : Option (Outcome 64)
  answers : Option Answers

/-- What a thread gets from its step; the other operations return nothing. -/
def Owned.outcome : Op ι → Owned ι → Option (Outcome 64)
  | .reserve _ _, _ => none
  | .setLanes _ _ _, _ => none
  | .reset, _ => none
  | .event e, o => (o.world.step e).map fun world => World.outcome o.world world e.thread

def Owned.see (pageSize : BitVec 64) (op : Op ι) (o : Owned ι) : Sight where
  passes := o.checked pageSize op
  outcome := o.outcome op
  answers := (o.step op).map fun o' => Mem.answers o'.ptr o'.world.arena

/-- The two objects answer every query, and what is seen of the operations from a family is the
same for both, however often and in whatever order the threads use them. -/
structure Alike (family : ∀ ι : Type, Op ι → Prop) (o o' : Object) : Prop where
  answers : answers o.ptr o.arena = answers o'.ptr o'.arena
  seen : ∀ (ι : Type) [DecidableEq ι] (owner : Nat → ι) (pageSize : BitVec 64) (ops : List (Op ι)),
    (∀ op ∈ ops, family ι op) →
    seen Owned.step (Owned.see pageSize) (Owned.ofObject o owner) ops =
      seen Owned.step (Owned.see pageSize) (Owned.ofObject o' owner) ops

/-! ## The unit of the lanes -/

namespace World

/-- The same state with another `lane_unit_`. -/
def withUnit (s : World ι 64) (unit : BitVec 64) : World ι 64 :=
  { s with arena := { s.arena with laneUnit := unit } }

variable {s s' : World ι 64} {t : ι}

theorem allocFrom_withUnit (unit : BitVec 64) (lane : Nat) (size align : BitVec 64) :
    (s.withUnit unit).allocFrom t lane size align =
      (s.allocFrom t lane size align).map (·.withUnit unit) := by
  have lanes : (s.withUnit unit).arena.lanes = s.arena.lanes := rfl
  rw [allocFrom, allocFrom, lanes]
  cases s.arena.lanes[lane]? with
  | none => rfl
  | some cursor =>
      rw [apply_ite (Option.map _)]
      rfl

theorem advance_withUnit (unit : BitVec 64) (ok : Bool) :
    (s.withUnit unit).advance t ok = (s.advance t ok).map (·.withUnit unit) := by
  have fit (old size align : BitVec 64) :
      (s.withUnit unit).arena.fit old size align = s.arena.fit old size align := rfl
  have cursor : (s.withUnit unit).arena.size = s.arena.size := rfl
  have threads : (s.withUnit unit).threads = s.threads := rfl
  simp only [advance, threads]
  cases s.threads t with
  | idle => rfl
  | allocLoad size align =>
      simp only [fit, cursor]
      cases s.arena.fit s.arena.size size align <;> rfl
  | allocSwap size align oldSize aligned newSize =>
      rw [apply_ite (Option.map _)]
      rfl
  | exactAdd size align => rfl
  | commitLoad b =>
      rw [apply_ite (Option.map _)]
      rfl
  | commitPages b committed next =>
      rw [apply_ite (Option.map _)]
      rfl
  | commitSwap b committed next =>
      rw [apply_ite (Option.map _)]
      rfl

/-- No step reads the unit. -/
theorem step_withUnit (unit : BitVec 64) (e : Event ι 64) :
    (s.withUnit unit).step e = (s.step e).map (·.withUnit unit) := by
  have threads : (s.withUnit unit).threads = s.threads := rfl
  rw [step, step]
  cases e.action with
  | go ok => exact advance_withUnit unit ok
  | call c =>
      simp only [threads]
      split
      · cases c with
        | alloc size align => rfl
        | allocExact size align => rfl
        | allocFrom lane size align => exact allocFrom_withUnit unit lane size align
      · rfl

/-- What no step changes. -/
structure Frame (s s' : World ι 64) : Prop where
  reserved : s'.arena.reserved = s.arena.reserved
  laneUnit : s'.arena.laneUnit = s.arena.laneUnit
  lanes : s'.arena.lanes.length = s.arena.lanes.length

theorem allocFrom_frame {lane : Nat} {size align : BitVec 64}
    (h : s.allocFrom t lane size align = some s') : Frame s s' := by
  rw [allocFrom] at h
  split at h
  · cases h
  · split at h
    · cases h
      exact ⟨rfl, rfl, rfl⟩
    · cases h
      exact ⟨rfl, rfl, List.length_set⟩

theorem advance_frame {ok : Bool} (h : s.advance t ok = some s') : Frame s s' := by
  rw [advance] at h
  split at h
  · cases h
  · split at h <;> cases h <;> exact ⟨rfl, rfl, rfl⟩
  · split at h <;> cases h <;> exact ⟨rfl, rfl, rfl⟩
  · cases h
    exact ⟨rfl, rfl, rfl⟩
  · split at h <;> cases h <;> exact ⟨rfl, rfl, rfl⟩
  · split at h <;> cases h <;> exact ⟨rfl, rfl, rfl⟩
  · split at h <;> cases h <;> exact ⟨rfl, rfl, rfl⟩

theorem step_frame {e : Event ι 64} (h : s.step e = some s') : Frame s s' := by
  rw [step] at h
  split at h
  · next c _ =>
      split at h
      · cases c with
        | alloc size align =>
            cases h
            exact ⟨rfl, rfl, rfl⟩
        | allocExact size align =>
            cases h
            exact ⟨rfl, rfl, rfl⟩
        | allocFrom lane size align => exact allocFrom_frame h
      · cases h
  · exact advance_frame h

omit [DecidableEq ι] in
/-- The debug checks read the unit only for a lane that is there, of an arena that has pages. -/
theorem checked_withUnit {unit : BitVec 64} (e : Event ι 64)
    (same : s.arena.reserved = true → s.arena.lanes ≠ [] → unit = s.arena.laneUnit) :
    (s.withUnit unit).checked e = s.checked e := by
  rw [checked, checked]
  split
  · rfl
  · rfl
  · next lane size align _ =>
      by_cases used : s.arena.reserved = true ∧ s.arena.lanes ≠ []
      · rw [same used.1 used.2]
        rfl
      · have refused : (s.arena.reserved && decide (lane < s.arena.lanes.length)) = false := by
          rw [Bool.and_eq_false_iff, decide_eq_false_iff_not]
          by_cases reserved : s.arena.reserved = true
          · have none : s.arena.lanes = [] := by
              by_contra some
              exact used ⟨reserved, some⟩
            exact .inr (by rw [none]; exact Nat.not_lt_zero _)
          · exact .inl (Bool.eq_false_iff.mpr reserved)
        have refused' : ((s.withUnit unit).arena.reserved &&
            decide (lane < (s.withUnit unit).arena.lanes.length)) = false := refused
        simp only [refused, refused', Bool.false_and]
  · rfl

end World

/-! ## Two arenas that differ in their units -/

/-- The same arena in use, but for `lane_unit_`, which is the same wherever `matters`. -/
structure Twin (matters : ConcurrentArena 64 → Prop) (o o' : Owned ι) : Prop where
  ptr : o'.ptr = o.ptr
  world : ∃ unit, o'.world = o.world.withUnit unit ∧
    (matters o.world.arena → unit = o.world.arena.laneUnit)

namespace Twin

variable {matters : ConcurrentArena 64 → Prop} {o o' : Owned ι}

/-- The unit matters only where there are lanes, and no step of a thread makes it matter. -/
structure Fair (matters : ConcurrentArena 64 → Prop) : Prop where
  used : ∀ a, a.reserved = true → a.lanes ≠ [] → matters a
  stays : ∀ a a' : ConcurrentArena 64, a'.reserved = a.reserved →
    a'.lanes.length = a.lanes.length → matters a' → matters a

theorem fairLanes : Fair fun a => a.lanes ≠ [] where
  used := fun _ _ lanes => lanes
  stays := fun a a' _ length lanes none => lanes (by
    rw [← List.length_eq_zero_iff, length, none]
    rfl)

theorem fairReserved : Fair fun a => a.reserved = true ∧ a.lanes ≠ [] where
  used := fun _ reserved lanes => ⟨reserved, lanes⟩
  stays :=
    fun a a' reserved length it => ⟨reserved ▸ it.1, fairLanes.stays a a' reserved length it.2⟩

theorem event (fair : Fair matters) (twin : Twin matters o o') (e : Event ι 64) :
    Option.Rel (Twin matters) (o.step (.event e)) (o'.step (.event e)) := by
  obtain ⟨unit, world, same⟩ := twin.world
  rw [Owned.step, Owned.step, world, World.step_withUnit]
  cases h : o.world.step e with
  | none => exact .none
  | some s =>
      have frame := World.step_frame h
      refine .some ⟨twin.ptr, unit, rfl, fun it => ?_⟩
      rw [frame.laneUnit]
      exact same (fair.stays _ _ frame.reserved frame.lanes it)

omit [DecidableEq ι] in
theorem answers (twin : Twin matters o o') :
    Mem.answers o'.ptr o'.world.arena = Mem.answers o.ptr o.world.arena := by
  obtain ⟨unit, world, -⟩ := twin.world
  rw [twin.ptr, world]
  rfl

theorem outcome (twin : Twin matters o o') (op : Op ι) : o.outcome op = o'.outcome op := by
  cases op with
  | reserve ptr capacity => rfl
  | setLanes lanes unit poolBytes => rfl
  | reset => rfl
  | event e =>
      obtain ⟨unit, world, -⟩ := twin.world
      rw [Owned.outcome, Owned.outcome, world, World.step_withUnit, Option.map_map]
      rfl

omit [DecidableEq ι] in
theorem checked (fair : Fair matters) (twin : Twin matters o o') (e : Event ι 64) :
    o'.world.checked e = o.world.checked e := by
  obtain ⟨unit, world, same⟩ := twin.world
  rw [world]
  exact World.checked_withUnit e fun reserved lanes => same (fair.used _ reserved lanes)

/-- One operation looks the same in twins. -/
theorem see (fair : Fair matters) (twin : Twin matters o o') (pageSize : BitVec 64) (op : Op ι)
    (steps : Option.Rel (Twin matters) (o.step op) (o'.step op)) :
    o.see pageSize op = o'.see pageSize op := by
  have passes : o.checked pageSize op = o'.checked pageSize op := by
    cases op with
    | event e => exact (twin.checked fair e).symm
    | reserve ptr capacity =>
        obtain ⟨unit, world, -⟩ := twin.world
        rw [Owned.checked, Owned.checked, world]
        rfl
    | setLanes lanes unit poolBytes =>
        obtain ⟨unit', world, -⟩ := twin.world
        rw [Owned.checked, Owned.checked, world]
        rfl
    | reset =>
        obtain ⟨unit, world, -⟩ := twin.world
        rw [Owned.checked, Owned.checked, world]
        rfl
  have after : ((o.step op).map fun u => Mem.answers u.ptr u.world.arena) =
      (o'.step op).map fun u => Mem.answers u.ptr u.world.arena := by
    generalize o.step op = u, o'.step op = u' at steps ⊢
    cases steps with
    | none => rfl
    | some next => exact congrArg some next.answers.symm
  rw [Owned.see, Owned.see, passes, after, twin.outcome op]

/-- In an arena that has no lanes yet the unit does not matter: `set_lanes` sets it. -/
theorem op (twin : Twin (fun a => a.lanes ≠ []) o o') (op : Op ι) :
    Option.Rel (Twin fun a => a.lanes ≠ []) (o.step op) (o'.step op) := by
  cases op with
  | event e => exact twin.event fairLanes e
  | reserve ptr capacity =>
      obtain ⟨unit, world, same⟩ := twin.world
      exact .some ⟨rfl, unit, by rw [world]; rfl, same⟩
  | setLanes lanes unit poolBytes =>
      obtain ⟨unit', world, same⟩ := twin.world
      exact .some ⟨twin.ptr, unit, by rw [world]; rfl, fun _ => rfl⟩
  | reset =>
      obtain ⟨unit, world, same⟩ := twin.world
      exact .some ⟨rfl, unit, by rw [world]; rfl, fun lanes => absurd rfl lanes⟩

end Twin

/-! ## Moves -/

/-- The steps of `alloc`, `alloc_exact` and `alloc_from`. -/
def allocations (ι : Type) (op : Op ι) : Prop := ∃ e, op = .event e

def everything (ι : Type) (_ : Op ι) : Prop := True

/-- A move has moved all of it: nobody can tell the target from what the source was, nor the
source from a new object. -/
structure MovesAll (move : Move) (source : Object) : Prop where
  target : Alike allocations (move.run source).1 source
  source : Alike everything (move.run source).2 .fresh

section Moves

variable {move : Move} {source o o' : Object}

/-- The constructor is the assignment to a new object. -/
theorem Move.run_eq (move : Move) (source : Object) :
    move.run source = move.target.moveAssign source := by
  cases move <;> rfl

/-- What differs in its unit alone is alike in allocations, unless it has pages and lanes. -/
theorem alike_allocations {unit : BitVec 64} (ptr : o'.ptr = o.ptr)
    (arena : o'.arena = { o.arena with laneUnit := unit })
    (same : o.arena.reserved = true ∧ o.arena.lanes ≠ [] → unit = o.arena.laneUnit) :
    Alike allocations o o' := by
  refine ⟨by rw [ptr, arena]; rfl, fun ι _ owner pageSize ops all => ?_⟩
  have twin : Twin (fun a => a.reserved = true ∧ a.lanes ≠ []) (Owned.ofObject o owner)
      (Owned.ofObject o' owner) := by
    refine ⟨ptr, unit, ?_, same⟩
    simp only [Owned.ofObject, arena]
    rfl
  refine seen_eq (fun allowed twin => ?_) (fun allowed twin => ?_) twin all
  · obtain ⟨e, rfl⟩ := allowed
    exact twin.see Twin.fairReserved pageSize _ (twin.event Twin.fairReserved e)
  · obtain ⟨e, rfl⟩ := allowed
    exact twin.event Twin.fairReserved e

/-- What differs in its unit alone and has no lanes is alike in everything. -/
theorem alike_everything {unit : BitVec 64} (ptr : o'.ptr = o.ptr)
    (arena : o'.arena = { o.arena with laneUnit := unit }) (none : o.arena.lanes = []) :
    Alike everything o o' := by
  refine ⟨by rw [ptr, arena]; rfl, fun ι _ owner pageSize ops all => ?_⟩
  have twin : Twin (fun a => a.lanes ≠ []) (Owned.ofObject o owner) (Owned.ofObject o' owner) := by
    refine ⟨ptr, unit, ?_, fun lanes => absurd none lanes⟩
    simp only [Owned.ofObject, arena]
    rfl
  exact seen_eq (fun _ twin => twin.see Twin.fairLanes pageSize _ (twin.op _))
    (fun _ twin => twin.op _) twin all

/-- Two units with the same multiples are equal. -/
theorem unit_eq {u v : BitVec 64}
    (same : ∀ size : BitVec 64, (size % u == 0) = (size % v == 0)) : u = v := by
  have divides {x y : BitVec 64} : (x % y == 0) = true ↔ y.toNat ∣ x.toNat := by
    rw [beq_iff_eq, BitVec.toNat_eq, BitVec.toNat_umod, Nat.dvd_iff_mod_eq_zero]
    rfl
  have left : v.toNat ∣ u.toNat := divides.mp (by rw [← same]; exact divides.mpr (Nat.dvd_refl _))
  have right : u.toNat ∣ v.toNat := divides.mp (by rw [same]; exact divides.mpr (Nat.dvd_refl _))
  exact BitVec.eq_of_toNat_eq (Nat.dvd_antisymm right left)

/-- Of arenas with pages and the same lanes, `alloc_from` tells the units apart. -/
theorem laneUnit_eq_of_alike (alike : Alike allocations o o') (reserved : o.arena.reserved = true)
    (reserved' : o'.arena.reserved = true) (lanes : o.arena.lanes ≠ [])
    (sameLanes : o'.arena.lanes = o.arena.lanes) : o.arena.laneUnit = o'.arena.laneUnit := by
  refine unit_eq fun size => ?_
  let op : Op Unit := .event ⟨(), .call (.allocFrom 0 size 1)⟩
  have seen := alike.seen Unit (fun _ => ()) 1 [op]
    (fun other member => ⟨_, List.mem_singleton.mp member⟩)
  have passes := congrArg (fun sights => (sights.head?).map Sight.passes) seen
  have first : 0 < o.arena.lanes.length := List.length_pos_iff.mpr lanes
  have checked {o : Object} (reserved : o.arena.reserved = true)
      (first : 0 < o.arena.lanes.length) :
      (Owned.ofObject o fun _ => ()).checked 1 op = (size % o.arena.laneUnit == 0) := by
    have any : o.arena.lanes[0]?.all (fun l => l.cursor % 1 == 0) = true := by
      rw [List.getElem?_eq_getElem first]
      simp
    have one : ((1 : BitVec 64) != 0) = true := rfl
    simp only [op, Owned.ofObject, Owned.checked, World.checked, World.initial, reserved, first,
      decide_true, one, any, Bool.true_and, Bool.and_true]
  have equal : (Owned.ofObject o fun _ => ()).checked 1 op =
      (Owned.ofObject o' fun _ => ()).checked 1 op := Option.some.inj passes
  rw [checked reserved first, checked reserved' (sameLanes ▸ first)] at equal
  exact equal

end Moves

/-- A move moves all of an arena exactly if there is no pool in the source, none is left in a
target without pages, and the target has the unit that the lanes of the source have been cut
with. -/
theorem moves_iff (move : Move) (source : Object) :
    MovesAll move source ↔
      source.arena.poolBegin = 0 ∧
      (move.target.ptr = none → move.target.arena.poolBegin = 0) ∧
      (source.arena.reserved = true → source.arena.lanes ≠ [] →
        move.target.arena.laneUnit = source.arena.laneUnit) := by
  have pool : (move.run source).1.arena.poolBegin =
      if move.target.ptr.isSome then 0 else move.target.arena.poolBegin := by
    rw [Move.run_eq, Object.moveAssign]
    split <;> rfl
  have unit : (move.run source).1.arena.laneUnit = move.target.arena.laneUnit := by
    rw [Move.run_eq, Object.moveAssign]
    split <;> rfl
  have rest : source.arena = { (move.run source).1.arena with
      laneUnit := source.arena.laneUnit, poolBegin := source.arena.poolBegin } := by
    rw [Move.run_eq]
    rfl
  constructor
  · rintro ⟨target, moved⟩
    have empty : source.arena.poolBegin = 0 := by
      have := congrArg Answers.poolBegin moved.answers
      rw [Move.run_eq] at this
      exact this
    have same : (move.run source).1.arena.poolBegin = source.arena.poolBegin :=
      congrArg Answers.poolBegin target.answers
    refine ⟨empty, fun none => ?_, fun reserved lanes => ?_⟩
    · rw [pool, none, empty] at same
      exact same
    · rw [← unit]
      refine laneUnit_eq_of_alike target ?_ reserved ?_ ?_
      · rw [rest] at reserved
        exact reserved
      · rw [rest] at lanes
        exact lanes
      · rw [Move.run_eq]
        rfl
  · rintro ⟨empty, clean, units⟩
    have same : (move.run source).1.arena.poolBegin = source.arena.poolBegin := by
      rw [pool, empty]
      split
      · rfl
      · next none => exact clean (Option.not_isSome_iff_eq_none.mp none)
    refine ⟨?_, ?_⟩
    · refine @alike_allocations _ _ source.arena.laneUnit ?_ ?_ ?_
      · rw [Move.run_eq]
        rfl
      · rw [← same] at rest
        exact rest
      · rintro ⟨reserved, lanes⟩
        rw [unit]
        refine (units ?_ ?_).symm
        · rw [rest]
          exact reserved
        · rw [rest]
          exact lanes
    · refine @alike_everything _ _ 1 ?_ ?_ ?_
      · rw [Move.run_eq]
        rfl
      · rw [Move.run_eq]
        simp only [Object.moveAssign, Object.left, empty]
        rfl
      · rw [Move.run_eq]
        rfl

/-- An arena of 64 KiB with two lanes of 64 byte units and a pool of a page. -/
def divided : Object :=
  ⟨some 0x100000, ((ConcurrentArena.fresh 64).reserve 0x10000).setLanes 2 64 0x1000, rfl⟩

/-- A move constructor forgets where its pool begins. -/
theorem not_moves_divided : ¬ MovesAll .construct divided := by
  intro moves
  have pool : (0 : BitVec 64) = 0xF000 := congrArg Answers.poolBegin moves.target.answers
  exact absurd pool (by decide)

end Fpag.Mem
