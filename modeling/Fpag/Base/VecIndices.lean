import Fpag.Base.SooVecList

/-!
Indices of `Vec` and `SooVec`.

Both vectors count their elements in `usize` and hand out indices of the type `Idx::IdxType`, to
which every count is cast. Nothing keeps a vector from having more elements than that type has
values. `indices_iff` says that the indices mean what they should, that the range of them is the
vector and that a copy is one, in every state of a program, if and only if the program never gets
a vector to `2 ^ bits` elements.
-/

namespace Fpag.Base

variable {T : Type}

/-! ## Ranges of indices -/

/-- `base/idx_range.h`. -/
structure IdxRange : Type where
  head : Nat
  size : Nat
  deriving DecidableEq, Repr

/-- The loop from an iterator to the end, whose increment wraps. -/
def IdxRange.iterate (bits stop : Nat) : Nat → Nat → List Nat
  | 0, _ => []
  | fuel + 1, value =>
      if value = stop then [] else value :: iterate bits stop fuel ((value + 1) % 2 ^ bits)

/-- The indices from `begin()` to `end()`, which are fewer than the type has. -/
def IdxRange.indices (bits : Nat) (range : IdxRange) : List Nat :=
  iterate bits ((range.head + range.size) % 2 ^ bits) (2 ^ bits) range.head

theorem IdxRange.iterate_eq {bits stop fuel value : Nat} (small : stop < 2 ^ bits)
    (le : value ≤ stop) (enough : stop - value ≤ fuel) :
    iterate bits stop fuel value = List.range' value (stop - value) := by
  induction fuel generalizing value with
  | zero =>
      have none : stop - value = 0 := by omega
      rw [none]
      rfl
  | succ fuel ih =>
      rw [iterate]
      split
      · next same =>
          rw [same, Nat.sub_self]
          rfl
      · next other =>
          have next : (value + 1) % 2 ^ bits = value + 1 := Nat.mod_eq_of_lt (by omega)
          have count : stop - value = stop - (value + 1) + 1 := by omega
          rw [next, ih (by omega) (by omega), count, List.range'_succ]

/-- A range from 0 has the indices below its size. -/
theorem IdxRange.indices_zero {bits size : Nat} (small : size < 2 ^ bits) :
    (IdxRange.mk 0 size).indices bits = List.range size := by
  have stop : (0 + size) % 2 ^ bits = size := by rw [Nat.zero_add, Nat.mod_eq_of_lt small]
  rw [indices, stop, iterate_eq small (Nat.zero_le _) (by omega), Nat.sub_zero,
    List.range_eq_range']

/-! ## `Vec` -/

/-- `base/vec.h`, over the elements of its `std::vector`. -/
structure Vec (T : Type) : Type where
  vec : List T
  deriving DecidableEq, Repr

/-- `emplace_back` of a value, and the index that it returns. -/
def Vec.emplaceBack (bits : Nat) (v : Vec T) (x : T) : Nat × Vec T :=
  let v : Vec T := ⟨v.vec ++ [x]⟩
  ((v.vec.length - 1) % 2 ^ bits, v)

def Vec.popBack (v : Vec T) : Option (Vec T) :=
  if v.vec.isEmpty then none else some ⟨v.vec.dropLast⟩

def Vec.clear (_ : Vec T) : Vec T := ⟨[]⟩

def Vec.idxRange (bits : Nat) (v : Vec T) : IdxRange := ⟨0, v.vec.length % 2 ^ bits⟩

namespace SooVec

def idxRange (c : SooVec T) (v : Nat) (m : Machine T) : Option IdxRange :=
  (m.vecs v).map fun r => ⟨0, c.toIdx r.size⟩

end SooVec

/-! ## Programs with one vector -/

/-- What is appended: a value from elsewhere, or an element of the vector itself. -/
inductive Argument (T : Type) : Type
  | value (x : T)
  | copyOf (i : Nat)
  | moveOf (i : Nat)

inductive IndexOp (T : Type) : Type
  | emplaceBack (argument : Argument T)
  | popBack
  | clear
  | reserve (n : Nat)

/-- A vector, and for each of its elements the index that its `emplace_back` returned. -/
structure Indexed (V : Type) : Type where
  vec : V
  handed : List Nat

variable (c : SooVec T)

/-- The value that an argument gives, and the elements after it is given. -/
def Argument.given (argument : Argument T) (xs : List T) : Option (T × List T) :=
  match argument with
  | .value x => some (x, xs)
  | .copyOf i => xs[i]?.map fun x => (x, xs)
  | .moveOf i => xs[i]?.map fun x => (x, xs.set i (c.movedFrom x))

/-- One operation on a `Vec`. -/
def vecStep (op : IndexOp T) (s : Indexed (Vec T)) : Option (Indexed (Vec T)) :=
  match op with
  | .emplaceBack argument =>
      (argument.given c s.vec.vec).map fun r =>
        let appended := (Vec.mk r.2).emplaceBack c.bits r.1
        ⟨appended.2, s.handed ++ [appended.1]⟩
  | .popBack => s.vec.popBack.map fun v => ⟨v, s.handed.dropLast⟩
  | .clear => some ⟨s.vec.clear, []⟩
  | .reserve _ => some s

/-- A program with a `Vec`. -/
def vecRun (ops : List (IndexOp T)) : Option (Indexed (Vec T)) :=
  Schedule.run (vecStep c) ⟨⟨[]⟩, []⟩ ops

/-- The argument as a reference into the vector. -/
def Argument.source (v : Nat) : Argument T → SooVec.Source T
  | .value x => .value x
  | .copyOf i => .copyOf v i
  | .moveOf i => .moveOf v i

/-- One operation on a `SooVec`. -/
def sooVecStep (op : IndexOp T) (s : Indexed (SooVec.Machine T)) :
    Option (Indexed (SooVec.Machine T)) :=
  match op with
  | .emplaceBack argument =>
      (c.emplaceBack 0 (argument.source 0) s.vec).map fun r => ⟨r.2, s.handed ++ [r.1]⟩
  | .popBack => (c.popBack 0 s.vec).map fun m => ⟨m, s.handed.dropLast⟩
  | .clear => (c.clear 0 s.vec).map fun m => ⟨m, []⟩
  | .reserve n => (c.reserve 0 n s.vec).map fun m => ⟨m, s.handed⟩

/-- A program with a `SooVec`. -/
def sooVecRun (ops : List (IndexOp T)) : Option (Indexed (SooVec.Machine T)) :=
  (c.construct 0 .initial).bind fun m => Schedule.run (sooVecStep c) ⟨m, []⟩ ops

/-- The number of elements after an operation. -/
def IndexOp.size (n : Nat) : IndexOp T → Nat
  | .emplaceBack _ => n + 1
  | .popBack => n - 1
  | .clear => 0
  | .reserve _ => n

/-- The number of elements after the operations. -/
def sizeAfter (ops : List (IndexOp T)) : Nat := ops.foldl IndexOp.size 0

/-! ## What indices should mean -/

/-- Of these elements, each has an index of its own, and that index is its place. -/
def Designates (handed : List Nat) (xs : List T) : Prop :=
  handed.length = xs.length ∧ handed.Nodup ∧ ∀ k i : Nat, handed[k]? = some i → i = k

/-- The range has exactly the elements, in their order. -/
def Enumerates (bits : Nat) (range : IdxRange) (xs : List T) : Prop :=
  (range.indices bits).map (fun i => xs[i]?) = xs.map some

def VecExact (s : Indexed (Vec T)) : Prop :=
  Designates s.handed s.vec.vec ∧ Enumerates c.bits (s.vec.idxRange c.bits) s.vec.vec

/-- For a `SooVec`, a copy of it also has the same elements. -/
def SooVecExact (s : Indexed (SooVec.Machine T)) : Prop :=
  ∃ xs range m, c.elements 0 s.vec = some xs ∧ c.idxRange 0 s.vec = some range ∧
    Designates s.handed xs ∧ Enumerates c.bits range xs ∧
    c.step (.copyConstruct 1 0) s.vec = some m ∧ c.elements 1 m = some xs

/-! ## One operation -/

variable {c} {s s' : Indexed (Vec T)} {op : IndexOp T} {ops : List (IndexOp T)} {x : T}
  {xs ys : List T}

theorem length_given {argument : Argument T} (gives : argument.given c xs = some (x, ys)) :
    ys.length = xs.length := by
  cases argument with
  | value y =>
      cases gives
      rfl
  | copyOf i =>
      obtain ⟨y, -, same⟩ := Option.map_eq_some_iff.mp gives
      cases same
      rfl
  | moveOf i =>
      obtain ⟨y, -, same⟩ := Option.map_eq_some_iff.mp gives
      cases same
      exact List.length_set

theorem vecStep_length (step : vecStep c op s = some s') :
    s'.vec.vec.length = op.size s.vec.vec.length := by
  cases op with
  | emplaceBack argument =>
      obtain ⟨⟨x, ys⟩, gives, rfl⟩ := Option.map_eq_some_iff.mp step
      simp [Vec.emplaceBack, IndexOp.size, length_given gives]
  | popBack =>
      obtain ⟨v, popped, rfl⟩ := Option.map_eq_some_iff.mp step
      obtain ⟨-, rfl⟩ := by simpa only [Vec.popBack, Option.ite_none_left_eq_some,
        Option.some.injEq] using popped
      exact List.length_dropLast
  | clear =>
      cases step
      rfl
  | reserve n =>
      cases step
      rfl

/-- The indices count the elements, as long as the index type can. -/
theorem vecStep_handed (step : vecStep c op s = some s') (small : s'.vec.vec.length < 2 ^ c.bits)
    (counts : s.handed = List.range s.vec.vec.length) :
    s'.handed = List.range s'.vec.vec.length := by
  have length := vecStep_length step
  cases op with
  | emplaceBack argument =>
      obtain ⟨⟨x, ys⟩, gives, rfl⟩ := Option.map_eq_some_iff.mp step
      have same := length_given gives
      simp only [Vec.emplaceBack, List.length_append, List.length_singleton,
        Nat.add_sub_cancel, same] at small ⊢
      rw [counts, Nat.mod_eq_of_lt (by omega), List.range_succ]
  | popBack =>
      obtain ⟨v, popped, rfl⟩ := Option.map_eq_some_iff.mp step
      rw [length]
      change s.handed.dropLast = List.range (s.vec.vec.length - 1)
      rw [counts]
      cases s.vec.vec.length with
      | zero => rfl
      | succ n => rw [List.range_succ, List.dropLast_concat, Nat.add_sub_cancel]
  | clear =>
      cases step
      rfl
  | reserve n =>
      cases step
      exact counts

/-- The lists of a program with one vector. -/
def only (xs : List T) : Nat → Option (List T) := Function.update (fun _ => none) 0 (some xs)

theorem given_only {argument : Argument T} (gives : argument.given c xs = some (x, ys)) :
    c.given (argument.source 0) (only xs) = some (x, only ys) := by
  cases argument with
  | value y =>
      cases gives
      rfl
  | copyOf i =>
      obtain ⟨y, at_, same⟩ := Option.map_eq_some_iff.mp gives
      cases same
      simp only [Argument.source, SooVec.given, only, Function.update_self, Option.bind_some, at_,
        Option.map_some]
  | moveOf i =>
      obtain ⟨y, at_, same⟩ := Option.map_eq_some_iff.mp gives
      cases same
      simp only [Argument.source, SooVec.given, only, Function.update_self, Option.bind_some, at_,
        Option.map_some, Function.update_idem]

/-- The states of the two vectors after the same program. -/
structure Alike (c : SooVec T) (s : Indexed (Vec T)) (t : Indexed (SooVec.Machine T)) : Prop where
  holds : c.Holds t.vec (only s.vec.vec)
  handed : t.handed = s.handed

/-- What a `Vec` does, a `SooVec` does. -/
theorem Alike.step {t : Indexed (SooVec.Machine T)} (alike : Alike c s t)
    (step : vecStep c op s = some s') : ∃ t', sooVecStep c op t = some t' ∧ Alike c s' t' := by
  obtain ⟨holds, handed⟩ := alike
  have list : only s.vec.vec 0 = some s.vec.vec := Function.update_self ..
  cases op with
  | emplaceBack argument =>
      obtain ⟨⟨x, ys⟩, gives, rfl⟩ := Option.map_eq_some_iff.mp step
      obtain ⟨m, appended, holds'⟩ := SooVec.emplaceBack_spec (v := 0) _ holds (given_only gives)
        (Function.update_self ..)
      refine ⟨_, by rw [sooVecStep, appended]; rfl, ?_, ?_⟩
      · rwa [only, Function.update_idem] at holds'
      · simp [Vec.emplaceBack, SooVec.toIdx, handed]
  | popBack =>
      obtain ⟨v, popped, rfl⟩ := Option.map_eq_some_iff.mp step
      obtain ⟨some_, rfl⟩ := by simpa only [Vec.popBack, Option.ite_none_left_eq_some,
        Option.some.injEq] using popped
      have nonempty : s.vec.vec ≠ [] := by simpa using some_
      have last := List.dropLast_append_getLast nonempty
      obtain ⟨m, removed, holds'⟩ :=
        SooVec.popBack_spec holds (list.trans (congrArg some last.symm))
      refine ⟨_, by rw [sooVecStep, removed]; rfl, ?_, by rw [handed]⟩
      rwa [only, Function.update_idem] at holds'
  | clear =>
      cases step
      obtain ⟨m, cleared, -, holds'⟩ := SooVec.clear_spec holds list
      refine ⟨_, by rw [sooVecStep, cleared]; rfl, ?_, rfl⟩
      rwa [only, Function.update_idem] at holds'
  | reserve n =>
      cases step
      obtain ⟨r, here, -⟩ := holds.good.object list
      obtain ⟨m, reserved, holds', -⟩ := SooVec.reserve_spec (n := n) holds here
      exact ⟨⟨m, t.handed⟩, by rw [sooVecStep, reserved]; rfl, holds', handed⟩

/-! ## Programs -/

theorem run_length (run : vecRun c ops = some s) : s.vec.vec.length = sizeAfter ops := by
  induction ops using List.reverseRecOn generalizing s with
  | nil =>
      cases run
      rfl
  | append_singleton ops op ih =>
      obtain ⟨m, before, last⟩ := Schedule.run_append_eq_some.mp run
      obtain ⟨_, step, ⟨⟩⟩ := Schedule.run_cons_eq_some.mp last
      rw [vecStep_length step, ih before, sizeAfter, sizeAfter, List.foldl_append]
      rfl

theorem run_handed (run : vecRun c ops = some s)
    (small : ∀ before, before <+: ops → sizeAfter before < 2 ^ c.bits) :
    s.handed = List.range s.vec.vec.length := by
  induction ops using List.reverseRecOn generalizing s with
  | nil =>
      cases run
      rfl
  | append_singleton ops op ih =>
      obtain ⟨m, before, last⟩ := Schedule.run_append_eq_some.mp run
      obtain ⟨_, step, ⟨⟩⟩ := Schedule.run_cons_eq_some.mp last
      refine vecStep_handed step ?_ (ih before fun ops' first => small ops' ?_)
      · rw [run_length run]
        exact small _ (List.prefix_refl _)
      · exact first.trans (List.prefix_append _ _)

theorem run_alike (run : vecRun c ops = some s) :
    ∃ t, sooVecRun c ops = some t ∧ Alike c s t := by
  obtain ⟨m, constructed, -, holds⟩ :=
    SooVec.construct_spec (c := c) (v := 0) ⟨SooVec.logged_initial, SooVec.good_initial⟩ rfl
  simp only [sooVecRun, constructed, Option.bind_some]
  have start : Alike c ⟨⟨[]⟩, []⟩ ⟨m, []⟩ := ⟨holds, rfl⟩
  rw [vecRun] at run
  revert run start
  generalize (⟨⟨[]⟩, []⟩ : Indexed (Vec T)) = s₀, (⟨m, []⟩ : Indexed (SooVec.Machine T)) = t₀
  intro run start
  induction ops generalizing s₀ t₀ with
  | nil =>
      cases run
      exact ⟨t₀, rfl, start⟩
  | cons op ops ih =>
      obtain ⟨s₁, step, rest⟩ := Schedule.run_cons_eq_some.mp run
      obtain ⟨t₁, step', alike⟩ := start.step step
      obtain ⟨t, rest', alike'⟩ := ih s₁ t₁ rest alike
      exact ⟨t, Schedule.run_cons_eq_some.mpr ⟨t₁, step', rest'⟩, alike'⟩

/-! ## The indices -/

theorem designates_range : Designates (List.range xs.length) xs := by
  refine ⟨List.length_range, List.nodup_range, fun k i at_ => ?_⟩
  obtain ⟨inside, rfl⟩ := List.getElem?_eq_some_iff.mp at_
  exact List.getElem_range inside

theorem enumerates_iff {bits : Nat} :
    Enumerates bits ⟨0, xs.length % 2 ^ bits⟩ xs ↔ xs.length < 2 ^ bits := by
  rw [Enumerates, IdxRange.indices_zero (Nat.mod_lt _ (Nat.two_pow_pos bits))]
  constructor
  · intro same
    have length := congrArg List.length same
    rw [List.length_map, List.length_map, List.length_range] at length
    rw [← length]
    exact Nat.mod_lt _ (Nat.two_pow_pos bits)
  · intro small
    rw [Nat.mod_eq_of_lt small]
    refine List.ext_getElem? fun k => ?_
    rw [List.getElem?_map, List.getElem?_map]
    by_cases inside : k < xs.length
    · rw [List.getElem?_range inside, Option.map_some]
      rw [List.getElem?_eq_getElem inside, Option.map_some]
    · rw [List.getElem?_eq_none (by simpa using inside), List.getElem?_eq_none (by omega)]
      rfl

theorem vecExact_of_handed (handed : s.handed = List.range s.vec.vec.length)
    (small : s.vec.vec.length < 2 ^ c.bits) : VecExact c s := by
  refine ⟨?_, enumerates_iff.mpr small⟩
  rw [handed]
  exact designates_range

theorem Alike.idxRange {t : Indexed (SooVec.Machine T)} (alike : Alike c s t) :
    c.idxRange 0 t.vec = some (s.vec.idxRange c.bits) := by
  obtain ⟨r, here, fits⟩ := alike.holds.good.object (v := 0) (Function.update_self ..)
  rw [SooVec.idxRange, here, Option.map_some, fits.size]
  rfl

theorem Alike.elements {t : Indexed (SooVec.Machine T)} (alike : Alike c s t) :
    c.elements 0 t.vec = some s.vec.vec := alike.holds.elements

/-- A copy of the vector, while the index type counts its elements. -/
theorem Alike.copy {t : Indexed (SooVec.Machine T)} (alike : Alike c s t)
    (small : s.vec.vec.length < 2 ^ c.bits) : ∃ m, c.step (.copyConstruct 1 0) t.vec = some m ∧
      c.elements 1 m = some s.vec.vec := by
  have moves : c.listStep c.copied (.copyConstruct 1 0) (only s.vec.vec) =
      some (Function.update (only s.vec.vec) 1 (some (c.copied s.vec.vec))) := rfl
  obtain ⟨m, copied, holds⟩ := SooVec.step_spec alike.holds moves
  refine ⟨m, copied, ?_⟩
  rw [holds.elements, Function.update_self, SooVec.copied_eq small.le]

/-- In every state of a program with a `Vec`, and of one with a `SooVec`, the indices that were
returned designate the elements that they were returned for, the range of indices has exactly the
elements, and a copy is the same, if and only if the program never gets the vector to as many
elements as there are indices. -/
theorem indices_iff (c : SooVec T) (ops : List (IndexOp T)) (s : Indexed (Vec T))
    (accepted : vecRun c ops = some s) :
    ((∀ before s, before <+: ops → vecRun c before = some s → VecExact c s) ↔
      ∀ before, before <+: ops → sizeAfter before < 2 ^ c.bits) ∧
    ((∀ before t, before <+: ops → sooVecRun c before = some t → SooVecExact c t) ↔
      ∀ before, before <+: ops → sizeAfter before < 2 ^ c.bits) := by
  have reached : ∀ before, before <+: ops → ∃ s, vecRun c before = some s := by
    rintro before ⟨after, rfl⟩
    obtain ⟨m, first, -⟩ := Schedule.run_append_eq_some.mp accepted
    exact ⟨m, first⟩
  refine ⟨⟨?_, ?_⟩, ?_, ?_⟩
  · intro exact_ before first
    obtain ⟨s, run⟩ := reached before first
    rw [← run_length run]
    exact enumerates_iff.mp (exact_ before s first run).2
  · intro small before s first run
    have sizes := fun ops' first' => small ops' (List.IsPrefix.trans first' first)
    refine vecExact_of_handed (run_handed run sizes) ?_
    rw [run_length run]
    exact small before first
  · intro exact_ before first
    obtain ⟨s, run⟩ := reached before first
    obtain ⟨t, run', alike⟩ := run_alike run
    obtain ⟨xs, range, m, elements, ranged, -, enumerates, -⟩ := exact_ before t first run'
    cases alike.elements.symm.trans elements
    cases alike.idxRange.symm.trans ranged
    rw [← run_length run]
    exact enumerates_iff.mp enumerates
  · intro small before t first run
    obtain ⟨s, run'⟩ := reached before first
    obtain ⟨t', run'', alike⟩ := run_alike run'
    obtain rfl : t = t' := Option.some.inj (run.symm.trans run'')
    have sizes := fun ops' first' => small ops' (List.IsPrefix.trans first' first)
    have fits : s.vec.vec.length < 2 ^ c.bits := by
      rw [run_length run']
      exact small before first
    have vec := vecExact_of_handed (run_handed run' sizes) fits
    obtain ⟨m, copied, same⟩ := alike.copy fits
    exact ⟨s.vec.vec, _, m, alike.elements, alike.idxRange, alike.handed ▸ vec.1, vec.2, copied,
      same⟩

theorem sizeAfter_le_length : sizeAfter ops ≤ ops.length := by
  induction ops using List.reverseRecOn with
  | nil => exact Nat.le_refl _
  | append_singleton ops op ih =>
      rw [sizeAfter, List.foldl_append, List.length_append]
      change op.size (sizeAfter ops) ≤ ops.length + 1
      cases op <;> simp only [IndexOp.size] <;> omega

/-- Numbers with indices of one byte. -/
def bytes : SooVec Nat := ⟨2, 8, fun _ => 0⟩

def bytesOps : List (IndexOp Nat) :=
  [.emplaceBack (.value 7), .emplaceBack (.copyOf 0), .popBack, .emplaceBack (.moveOf 0),
    .reserve 10, .emplaceBack (.value 9)]

theorem indices_iff_bytes :
    VecExact bytes ⟨⟨[0, 7, 9]⟩, [0, 1, 2]⟩ ∧
      ∃ t, sooVecRun bytes bytesOps = some t ∧ SooVecExact bytes t := by
  have accepted : vecRun bytes bytesOps = some ⟨⟨[0, 7, 9]⟩, [0, 1, 2]⟩ := rfl
  obtain ⟨vec, sooVec⟩ := indices_iff bytes bytesOps _ accepted
  have small : ∀ before, before <+: bytesOps → sizeAfter before < 2 ^ bytes.bits := by
    intro before first
    have le := sizeAfter_le_length.trans first.length_le
    exact Nat.lt_of_le_of_lt le (by decide)
  obtain ⟨t, run, -⟩ := run_alike accepted
  exact ⟨vec.mpr small bytesOps _ (List.prefix_refl _) accepted, t, run,
    sooVec.mpr small bytesOps t (List.prefix_refl _) run⟩

/-- A program of appends alone gets the casts of the places. -/
theorem run_values (xs : List T) : vecRun c (xs.map fun x => .emplaceBack (.value x)) =
    some ⟨⟨xs⟩, (List.range xs.length).map c.toIdx⟩ := by
  induction xs using List.reverseRecOn with
  | nil => rfl
  | append_singleton xs x ih =>
      rw [List.map_append]
      refine Schedule.run_append_eq_some.mpr ⟨_, ih, Schedule.run_cons_eq_some.mpr ⟨_, rfl, ?_⟩⟩
      simp [Vec.emplaceBack, List.range_succ, SooVec.toIdx]

/-- As many appends as there are indices of one byte, and one more. -/
def tooMany : List (IndexOp Nat) := (List.range 257).map fun x => .emplaceBack (.value x)

/-- The 257th element gets the index of the first one. -/
theorem not_designates_byte : ∃ s t, vecRun bytes tooMany = some s ∧
    sooVecRun bytes tooMany = some t ∧ s.handed[0]? = some 0 ∧ s.handed[256]? = some 0 ∧
    ¬ VecExact bytes s ∧ ¬ SooVecExact bytes t := by
  have run := run_values (c := bytes) (List.range 257)
  rw [List.length_range] at run
  have last : ((List.range 257).map bytes.toIdx)[256]? = some 0 := by
    rw [List.getElem?_map, List.getElem?_range (by omega)]
    rfl
  obtain ⟨t, run', alike⟩ := run_alike run
  refine ⟨_, t, run, run', ?_, last, ?_, ?_⟩
  · rw [List.getElem?_map, List.getElem?_range (by omega)]
    rfl
  · intro exact_
    have same := exact_.1.2.2 256 0 last
    omega
  · rintro ⟨xs, range, m, -, -, designates, -⟩
    rw [alike.handed] at designates
    have same := designates.2.2 256 0 last
    omega

end Fpag.Base
