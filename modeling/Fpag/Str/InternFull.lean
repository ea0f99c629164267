import Fpag.Str.InternSafety

/-!
When `try_intern` reports a full table.

A walk of `try_intern` that has covered every slot returns nothing, whatever it saw on
the way. A slot that is claimed for another name can be passed, since the name in a slot
never changes; a slot that is claimed for the very name asked for is passed like it, and
the call then reports a full table although the name is about to be published. So the
report is right exactly when no load of the walk met a slot that was claimed for its own
name (`full_iff`).
-/

namespace Fpag.Str

/-- The name of the `try_intern` a thread is in. -/
def Walker.call : Walker → Option (List UInt8)
  | .walking .intern content _ _ _ => some content
  | .claiming content _ => some content
  | .calling content _ => some content
  | .appending content _ => some content
  | .entering content _ _ => some content
  | .publishing content _ _ => some content
  | .counting content _ => some content
  | _ => none

/-- The name a thread begins to intern. -/
def TableAction.asked : TableAction → Option (List UInt8)
  | .intern content => some content.bytes
  | _ => none

namespace InternTable

variable {ι : Type} {shape : Shape} {s s' : InternTable ι} {t u : ι} {content : List UInt8}

/-! ## The report and what it should mean -/

/-- The thread's `try_intern` of the name returns nothing: it stops walking, and no id was
handed out. -/
structure ReturnsNothing (t : ι) (content : List UInt8) (s s' : InternTable ι) : Prop where
  walks : ∃ index step claimed, s.walkers t = .walking .intern content index step claimed
  stops : s'.walkers t = .idle
  silent : s'.interned = s.interned

/-- The slot is claimed or published for a name other than this one. -/
def TakenByOther (s : InternTable ι) (content : List UInt8) (i : Nat) : Prop :=
  s.control i ≠ emptyControl ∧ ∃ name, name ≠ content ∧ s.occupants i = some name

/-- Every slot of the table is claimed or published for a name other than this one. -/
def FullOfOthers (shape : Shape) (s : InternTable ι) (content : List UInt8) : Prop :=
  ∀ i, i < 2 ^ shape.bits → s.TakenByOther content i

/-- The next load of the thread, in `try_intern` of the name, is of the control byte of a slot
that is claimed for the same name and not published yet. -/
def awaits (s : InternTable ι) (t : ι) (content : List UInt8) : Bool :=
  match s.walkers t with
  | .walking .intern name index _ _ =>
      decide (name = content ∧ s.control index.toNat = claimedControl ∧
        s.occupants index.toNat = some content)
  | _ => false

/-- The events that do not make the thread load such a byte. -/
def Clear (t : ι) (content : List UInt8) (e : TableEvent ι) (s : InternTable ι) :
    Prop :=
  e.thread = t → s.awaits t content = false

instance [DecidableEq ι] (t : ι) (content : List UInt8) (e : TableEvent ι) (s : InternTable ι) :
    Decidable (Clear t content e s) :=
  inferInstanceAs (Decidable (e.thread = t → s.awaits t content = false))

theorem awaits_iff : s.awaits t content = true ↔ ∃ index step claimed,
    s.walkers t = .walking .intern content index step claimed ∧ s.Claims content index := by
  constructor
  · intro waits
    simp only [awaits] at waits
    split at waits
    · next name index step claimed at_ =>
        obtain ⟨rfl, held⟩ := of_decide_eq_true waits
        exact ⟨index, step, claimed, at_, held⟩
    · cases waits
  · rintro ⟨index, step, claimed, at_, held⟩
    simp only [awaits, at_]
    exact decide_eq_true ⟨trivial, held⟩

/-! ## Slots and walkers of the other threads -/

variable [DecidableEq ι]

theorem setWalker_self {r : InternTable ι} {state : Walker} :
    (r.setWalker t state).walkers t = state := by
  simp only [setWalker, Function.update_self]

theorem setWalker_of_ne {r : InternTable ι} {state : Walker} (other : u ≠ t) :
    (r.setWalker t state).walkers u = r.walkers u := by
  simp only [setWalker, Function.update_of_ne other]

omit [DecidableEq ι] in
/-- What a step does to the slots, seen with where the thread was and where it arrives: it leaves
them alone and keeps the claim it holds, it claims a free slot, or it publishes the slot it had
claimed. -/
inductive SlotChange (shape : Shape) (s r : InternTable ι) (before after : Walker) : Prop
  | keeps (control : r.control = s.control) (occupants : r.occupants = s.occupants)
      (claim : after.claim = before.claim)
  | claims (content : List UInt8) (index : BitVec 32) (at_ : before = .claiming content index)
      (empty : s.control index.toNat = emptyControl)
      (control : r.control = Function.update s.control index.toNat claimedControl)
      (occupants : r.occupants = Function.update s.occupants index.toNat (some content))
      (claim : after.claim = some (content, index))
  | publishes (content : List UInt8) (index : BitVec 32)
      (claim : before.claim = some (content, index))
      (control : r.control = Function.update s.control index.toNat (published (shape.hash content)))
      (occupants : r.occupants = s.occupants)

omit [DecidableEq ι] in
/-- A thread is in the `try_intern` it was in, has just begun one, or is in none. -/
def Calls (e : TableEvent ι) (before after : Walker) : Prop :=
  after.call = none ∨ after.call = before.call ∨ after.call = e.action.asked

/-- A thread moves, and besides its position at most one slot changes. -/
def OneSlot (shape : Shape) (s s' : InternTable ι) (e : TableEvent ι) : Prop :=
  ∃ r state, s' = setWalker r e.thread state ∧ r.walkers = s.walkers ∧
    SlotChange shape s r (s.walkers e.thread) state ∧ Calls e (s.walkers e.thread) state

/-- A walk that passes a slot goes on to the next one or ends. -/
theorem pass_change {e : TableEvent ι} {purpose : Purpose} {name : List UInt8}
    {index step : BitVec 32} {claimed : Bool} (claimed' : Bool)
    (at_ : s.walkers e.thread = .walking purpose name index step claimed) :
    OneSlot shape s (s.pass shape e.thread purpose name index step claimed') e := by
  rw [OneSlot, at_]
  simp only [pass]
  split
  · refine ⟨s, _, rfl, rfl, .keeps rfl rfl rfl, Or.inr (Or.inl ?_)⟩
    cases purpose <;> rfl
  · cases purpose with
    | intern => exact ⟨s, _, rfl, rfl, .keeps rfl rfl rfl, Or.inl rfl⟩
    | find known => exact ⟨_, _, rfl, rfl, .keeps rfl rfl rfl, Or.inl rfl⟩

/-- What comes of an append leaves the slots alone. -/
theorem settle_change {e : TableEvent ι} {r : InternTable ι} {name : List UInt8}
    {index : BitVec 32} {pool : StringPool ι} (walkers : r.walkers = s.walkers)
    (control : r.control = s.control) (occupants : r.occupants = s.occupants)
    (claim : (s.walkers e.thread).claim = some (name, index))
    (call : (s.walkers e.thread).call = some name)
    (h : r.settle e.thread name index pool = some s') : OneSlot shape s s' e := by
  simp only [settle] at h
  split at h
  · split at h
    · cases h
    · cases h
      exact ⟨_, _, rfl, walkers, .keeps control occupants claim.symm, Or.inr (Or.inl call.symm)⟩
  · cases h
    exact ⟨_, _, rfl, walkers, .keeps control occupants claim.symm, Or.inr (Or.inl call.symm)⟩

/-- What a step of a thread changes besides its own position: at most one slot. -/
theorem step_change {e : TableEvent ι} (h : InternTable.step shape e s = some s') :
    OneSlot shape s s' e := by
  obtain ⟨t, action⟩ := e
  unfold OneSlot
  cases action with
  | intern name =>
      simp only [InternTable.step] at h
      split at h
      · next at_ =>
          cases h
          rw [at_]
          exact ⟨s, _, rfl, rfl, .keeps rfl rfl rfl, Or.inr (Or.inr rfl)⟩
      · cases h
  | find name =>
      simp only [InternTable.step] at h
      split at h
      · next at_ =>
          cases h
          rw [at_]
          exact ⟨s, _, rfl, rfl, .keeps rfl rfl rfl, Or.inl rfl⟩
      · cases h
  | go ok =>
      simp only [InternTable.step] at h
      cases at_ : s.walkers t with
      | idle =>
          simp only [InternTable.advance, at_] at h
          cases h
      | walking purpose name index step claimed =>
          simp only [InternTable.advance, at_] at h
          cases h
          simp only [probe]
          split
          · cases purpose with
            | intern => exact ⟨_, _, rfl, rfl, .keeps rfl rfl rfl, Or.inl rfl⟩
            | find known => exact ⟨_, _, rfl, rfl, .keeps rfl rfl rfl, Or.inl rfl⟩
          · cases purpose with
            | intern =>
                simp only
                split
                · exact ⟨s, _, rfl, rfl, .keeps rfl rfl rfl, Or.inr (Or.inl rfl)⟩
                · exact ⟨s, _, rfl, rfl, .keeps rfl rfl rfl, Or.inr (Or.inl rfl)⟩
            | find known => exact ⟨_, _, rfl, rfl, .keeps rfl rfl rfl, Or.inl rfl⟩
          · rw [← at_]
            exact pass_change (e := ⟨t, .go ok⟩) true at_
          · rw [← at_]
            exact pass_change (e := ⟨t, .go ok⟩) claimed at_
      | claiming name index =>
          simp only [InternTable.advance, at_] at h
          split at h
          · next empty =>
              cases h
              exact ⟨_, _, rfl, rfl, .claims name index rfl empty rfl rfl rfl, Or.inr (Or.inl rfl)⟩
          · cases h
            exact ⟨s, _, rfl, rfl, .keeps rfl rfl rfl, Or.inr (Or.inl rfl)⟩
      | calling name index =>
          simp only [InternTable.advance, at_] at h
          split at h
          · cases h
          · rw [← at_]
            exact settle_change (e := ⟨t, .go ok⟩) (r := { s with appended := name :: s.appended })
              rfl rfl rfl (by rw [at_]; rfl) (by rw [at_]; rfl) h
      | appending name index =>
          simp only [InternTable.advance, at_] at h
          split at h
          · cases h
          · rw [← at_]
            exact settle_change (e := ⟨t, .go ok⟩) rfl rfl rfl (by rw [at_]; rfl)
              (by rw [at_]; rfl) h
      | entering name index id =>
          simp only [InternTable.advance, at_] at h
          cases h
          exact ⟨_, _, rfl, rfl, .keeps rfl rfl rfl, Or.inr (Or.inl rfl)⟩
      | publishing name index id =>
          simp only [InternTable.advance, at_] at h
          cases h
          exact ⟨_, _, rfl, rfl, .publishes name index rfl rfl rfl, Or.inr (Or.inl rfl)⟩
      | counting name id =>
          simp only [InternTable.advance, at_] at h
          cases h
          exact ⟨_, _, rfl, rfl, .keeps rfl rfl rfl, Or.inl rfl⟩

theorem walkers_step {e : TableEvent ι} (h : InternTable.step shape e s = some s')
    (other : u ≠ e.thread) : s'.walkers u = s.walkers u := by
  obtain ⟨r, state, rfl, walkers, -⟩ := step_change h
  rw [setWalker_of_ne other, walkers]

/-- A taken slot keeps the name it was taken for. -/
theorem Inv.occupants_step (inv : s.Inv shape) {e : TableEvent ι}
    (h : InternTable.step shape e s = some s') {i : Nat} {name : List UInt8}
    (taken : s.occupants i = some name) : s'.occupants i = some name := by
  obtain ⟨r, state, rfl, -, change, -⟩ := step_change h
  change r.occupants i = some name
  cases change with
  | keeps _ same _ => rw [same, taken]
  | claims content index _ empty _ occupants _ =>
      rw [occupants, Function.update_of_ne ?_, taken]
      rintro rfl
      rw [(inv.table.free _).mp empty] at taken
      cases taken
  | publishes _ _ _ _ same => rw [same, taken]

/-! ## What a walk has passed -/

/-- The name in the slot is another one. -/
def HoldsOther (s : InternTable ι) (content : List UInt8) (i : Nat) : Prop :=
  ∃ name, name ≠ content ∧ s.occupants i = some name

/-- Every slot the thread's `try_intern` of the name has passed on this walk holds another
name. -/
def Covered (shape : Shape) (t : ι) (content : List UInt8) (s : InternTable ι) : Prop :=
  ∀ index step claimed, s.walkers t = .walking .intern content index step claimed →
    ∀ k, k < step.toNat → s.HoldsOther content (shape.slot content k)

theorem Inv.holdsOther_step (inv : s.Inv shape) {e : TableEvent ι}
    (h : InternTable.step shape e s = some s') {i : Nat} (other : s.HoldsOther content i) :
    s'.HoldsOther content i := by
  obtain ⟨name, ne, occupant⟩ := other
  exact ⟨name, ne, inv.occupants_step h occupant⟩

omit [DecidableEq ι] in
/-- A slot that is taken, and neither published for the name nor claimed for it, holds another
one. -/
theorem Inv.holdsOther_of_look (inv : s.Inv shape) {index step : BitVec 32} {claimed : Bool}
    (at_ : s.walkers t = .walking .intern content index step claimed)
    (clear : s.awaits t content = false)
    (seen : s.look shape content index = .claimed ∨ s.look shape content index = .other) :
    s.HoldsOther content index.toNat := by
  rcases inv.table.look_cases content index with ⟨id, look, -⟩ | ⟨look, -⟩ | ⟨look, byte⟩ |
    ⟨look, name, ne, occupant, -⟩
  · simp [look] at seen
  · simp [look] at seen
  · have busy : s.control index.toNat ≠ emptyControl := by
      rw [byte]
      decide
    obtain ⟨name, occupant⟩ := Option.ne_none_iff_exists'.mp (mt (inv.table.free _).mpr busy)
    refine ⟨name, ?_, occupant⟩
    rintro rfl
    have waits : s.awaits t name = true :=
      awaits_iff.mpr ⟨index, step, claimed, at_, byte, occupant⟩
    rw [clear] at waits
    cases waits
  · exact ⟨name, ne, occupant⟩

theorem settle_not_walking {name : List UInt8} {index : BitVec 32} {pool : StringPool ι}
    (h : s.settle t name index pool = some s') {purpose : Purpose} {content : List UInt8}
    {at_ step : BitVec 32} {claimed : Bool} :
    s'.walkers t ≠ .walking purpose content at_ step claimed := by
  simp only [settle] at h
  split at h
  · split at h
    · cases h
    · simp [← Option.some.inj h, setWalker_self]
  · simp [← Option.some.inj h, setWalker_self]

/-- How a thread comes to stand in a walk of `try_intern`: at its first slot, or by passing the
slot before. -/
theorem walking_step {e : TableEvent ι} (h : InternTable.step shape e s = some s')
    {index step : BitVec 32} {claimed : Bool}
    (at_ : s'.walkers e.thread = .walking .intern content index step claimed) :
    step = 0 ∨ ∃ before last seen, s.walkers e.thread = .walking .intern content before last seen ∧
      step = last + 1 ∧ (s.look shape content before = .claimed ∨
        s.look shape content before = .other) := by
  obtain ⟨t, action⟩ := e
  have starts : ∀ {r : InternTable ι} {purpose name}, s' = r.walk shape t purpose name →
      step = 0 := by
    rintro r purpose name rfl
    rw [walk, setWalker_self] at at_
    cases at_
    rfl
  cases action with
  | intern name =>
      simp only [InternTable.step] at h
      split at h
      · exact Or.inl (starts (Option.some.inj h).symm)
      · cases h
  | find name =>
      simp only [InternTable.step] at h
      split at h
      · exact Or.inl (starts (Option.some.inj h).symm)
      · cases h
  | go ok =>
      simp only [InternTable.step] at h
      cases before : s.walkers t with
      | idle =>
          simp only [InternTable.advance, before] at h
          cases h
      | walking purpose name last_ last seen =>
          simp only [InternTable.advance, before] at h
          replace h := Option.some.inj h
          have passes : ∀ seen', s' = s.pass shape t purpose name last_ last seen' →
              purpose = .intern ∧ name = content ∧ step = last + 1 := by
            rintro seen' rfl
            simp only [pass] at at_
            split at at_
            · rw [setWalker_self] at at_
              cases at_
              exact ⟨rfl, rfl, rfl⟩
            · cases purpose <;> simp [returnLookup, setWalker_self] at at_
          simp only [probe] at h
          split at h
          · cases purpose <;> simp [← h, returnId, returnLookup, setWalker_self] at at_
          · cases purpose with
            | intern =>
                simp only at h
                split at h
                · exact Or.inl (starts h.symm)
                · simp [← h, setWalker_self] at at_
            | find known => simp [← h, returnLookup, setWalker_self] at at_
          · next look =>
              obtain ⟨rfl, rfl, rfl⟩ := passes _ h.symm
              exact Or.inr ⟨last_, last, seen, rfl, rfl, Or.inl look⟩
          · next look =>
              obtain ⟨rfl, rfl, rfl⟩ := passes _ h.symm
              exact Or.inr ⟨last_, last, seen, rfl, rfl, Or.inr look⟩
      | claiming name index =>
          simp only [InternTable.advance, before] at h
          split at h
          · simp [← Option.some.inj h, setWalker_self] at at_
          · exact Or.inl (starts (Option.some.inj h).symm)
      | calling name index =>
          simp only [InternTable.advance, before] at h
          split at h
          · cases h
          · exact absurd at_ (settle_not_walking h)
      | appending name index =>
          simp only [InternTable.advance, before] at h
          split at h
          · cases h
          · exact absurd at_ (settle_not_walking h)
      | entering name index id =>
          simp only [InternTable.advance, before] at h
          simp [← Option.some.inj h, setWalker_self] at at_
      | publishing name index id =>
          simp only [InternTable.advance, before] at h
          simp [← Option.some.inj h, setWalker_self] at at_
      | counting name id =>
          simp only [InternTable.advance, before] at h
          simp [← Option.some.inj h, returnId, setWalker_self] at at_

omit [DecidableEq ι] in
theorem Inv.toNat_step_add_one (inv : s.Inv shape) {purpose : Purpose} {index step : BitVec 32}
    {claimed : Bool} (at_ : s.walkers t = .walking purpose content index step claimed) :
    (step + 1).toNat = step.toNat + 1 := by
  have known := inv.walkers t
  rw [at_] at known
  have below : step.toNat < 2 ^ shape.bits := known.2.2.2.1
  have small := shape.two_pow_le
  have one : (1 : BitVec 32).toNat = 1 := rfl
  rw [BitVec.toNat_add, one, Nat.mod_eq_of_lt (by omega)]

omit [DecidableEq ι] in
theorem Inv.toNat_index (inv : s.Inv shape) {purpose : Purpose} {index step : BitVec 32}
    {claimed : Bool} (at_ : s.walkers t = .walking purpose content index step claimed) :
    index.toNat = shape.slot content step.toNat := by
  have known := inv.walkers t
  rw [at_] at known
  exact known.2.2.1

/-- As long as the thread meets no slot that is claimed for its own name, what its walk has
passed holds other names. -/
theorem Covered.step (covered : Covered shape t content s) (inv : s.Inv shape)
    {e : TableEvent ι} (clear : Clear t content e s)
    (h : InternTable.step shape e s = some s') : Covered shape t content s' := by
  intro index step claimed at_ k hk
  by_cases mine : e.thread = t
  · have open_ := clear mine
    subst mine
    rcases walking_step h at_ with rfl | ⟨before, last, seen, was, rfl, look⟩
    · exact absurd hk (Nat.not_lt_zero k)
    rw [inv.toNat_step_add_one was] at hk
    apply inv.holdsOther_step h
    rcases Nat.lt_succ_iff_lt_or_eq.mp hk with hk | rfl
    · exact covered before last seen was k hk
    · rw [← inv.toNat_index was]
      exact inv.holdsOther_of_look was open_ look
  · rw [walkers_step h (Ne.symm mine)] at at_
    exact inv.holdsOther_step h (covered index step claimed at_ k hk)

/-! ## The report -/

/-- `try_intern` returns nothing only from the last slot of a walk. -/
theorem ReturnsNothing.last_slot {ok : Bool} (nothing : ReturnsNothing t content s s')
    (h : InternTable.step shape ⟨t, .go ok⟩ s = some s') :
    ∃ index step claimed, s.walkers t = .walking .intern content index step claimed ∧
      (s.look shape content index = .claimed ∨ s.look shape content index = .other) ∧
        ¬ step + 1 ≤ shape.mask := by
  obtain ⟨⟨index, step, claimed, at_⟩, stops, silent⟩ := nothing
  have passes : ∀ claimed', s' = s.pass shape t .intern content index step claimed' →
      ¬ step + 1 ≤ shape.mask := by
    rintro claimed' rfl more
    simp only [pass, if_pos more, setWalker_self] at stops
    cases stops
  simp only [InternTable.step, InternTable.advance, at_] at h
  replace h := (Option.some.inj h).symm
  simp only [probe] at h
  split at h
  · next id look =>
      rw [h] at silent
      exact absurd silent (List.cons_ne_self _ _)
  · split at h
    · rw [h, walk, setWalker_self] at stops
      cases stops
    · rw [h, setWalker_self] at stops
      cases stops
  · next look => exact ⟨index, step, claimed, at_, Or.inl look, passes _ h⟩
  · next look => exact ⟨index, step, claimed, at_, Or.inr look, passes _ h⟩

omit [DecidableEq ι] in
/-- The probe sequence of a name reaches every slot. -/
theorem Shape.exists_slot (shape : Shape) (content : List UInt8) {i : Nat}
    (inside : i < 2 ^ shape.bits) : ∃ j, j < 2 ^ shape.bits ∧ shape.slot content j = i := by
  have home : (shape.hash content).toNat % 2 ^ shape.bits < 2 ^ shape.bits :=
    Nat.mod_lt _ (Nat.two_pow_pos _)
  refine ⟨(i + (2 ^ shape.bits - (shape.hash content).toNat % 2 ^ shape.bits)) % 2 ^ shape.bits,
    Nat.mod_lt _ (Nat.two_pow_pos _), ?_⟩
  rw [Shape.slot, Nat.add_mod_mod, ← Nat.mod_add_mod]
  have sum : (shape.hash content).toNat % 2 ^ shape.bits +
      (i + (2 ^ shape.bits - (shape.hash content).toNat % 2 ^ shape.bits)) =
        i + 2 ^ shape.bits := by omega
  rw [sum, Nat.add_mod_right, Nat.mod_eq_of_lt inside]

/-- A walk that met no slot claimed for its own name and returns nothing has seen every slot
taken by another name. -/
theorem Inv.full_of_covered {ok : Bool} (inv : s.Inv shape) (covered : Covered shape t content s)
    (clear : s.awaits t content = false) (h : InternTable.step shape ⟨t, .go ok⟩ s = some s')
    (nothing : ReturnsNothing t content s s') : FullOfOthers shape s content := by
  obtain ⟨index, step, claimed, at_, look, last⟩ := nothing.last_slot h
  rw [BitVec.le_def, inv.toNat_step_add_one at_, shape.toNat_mask] at last
  intro i inside
  obtain ⟨j, below, rfl⟩ := shape.exists_slot content inside
  have other : s.HoldsOther content (shape.slot content j) := by
    rcases Nat.lt_or_ge j step.toNat with before | after
    · exact covered index step claimed at_ j before
    · have here : j = step.toNat := by
        have known := inv.walkers t
        rw [at_] at known
        have := known.2.2.2.1
        omega
      rw [here, ← inv.toNat_index at_]
      exact inv.holdsOther_of_look at_ clear look
  obtain ⟨name, ne, occupant⟩ := other
  refine ⟨fun empty => ?_, name, ne, occupant⟩
  rw [(inv.table.free _).mp empty] at occupant
  cases occupant

omit [DecidableEq ι] in
/-- A full table of other names has no slot for the name. -/
theorem Inv.not_occupies (inv : s.Inv shape) (full : FullOfOthers shape s content) :
    ¬ ∃ i, s.occupants i = some content := by
  rintro ⟨i, occupant⟩
  obtain ⟨j, -, rfl, -⟩ := inv.table.placed i content occupant
  obtain ⟨-, name, ne, holds⟩ := full _ (Nat.mod_lt _ (Nat.two_pow_pos _))
  have same : some name = some content := holds.symm.trans occupant
  exact ne (Option.some.inj same)

/-- In every run, a `try_intern` that returns nothing is right that every slot is taken by
another name exactly when none of its loads met a slot that was claimed for its own name. -/
theorem full_iff {pageSize : Nat} {pages : Nat → UInt8} {capacity : BitVec 64}
    {pool : StringPool ι} {es : List (TableEvent ι)} {ok : Bool}
    (constructed : StringPool.construct u pageSize pages capacity = some pool)
    (reached : Schedule.run (InternTable.step shape) (initial pool) es = some s)
    (returns : InternTable.step shape ⟨t, .go ok⟩ s = some s')
    (nothing : ReturnsNothing t content s s') :
    FullOfOthers shape s content ↔
      Schedule.run (Schedule.guarded (Clear t content) (InternTable.step shape)) (initial pool)
        (es ++ [⟨t, .go ok⟩]) = some s' := by
  have begins : (initial pool).Inv shape :=
    inv_initial (StringPool.inv_construct constructed) (StringPool.idle_of_construct constructed)
  constructor
  · intro full
    have inv := Schedule.run_invariant (fun h inv => Inv.step inv h) reached begins
    have absent := inv.not_occupies full
    have leaves : ∀ {e : TableEvent ι} {s : InternTable ι}, ¬ Clear t content e s →
        ∃ i, s.occupants i = some content := by
      intro e s unclear
      obtain ⟨-, waits⟩ := Classical.not_imp.mp unclear
      obtain ⟨index, -, -, -, -, occupant⟩ := awaits_iff.mp ((Bool.not_eq_false _).mp waits)
      exact ⟨index.toNat, occupant⟩
    have stays : ∀ {e : TableEvent ι} {s s' : InternTable ι},
        InternTable.step shape e s = some s' → s.Inv shape →
        (∃ i, s.occupants i = some content) → ∃ i, s'.occupants i = some content := by
      rintro e s s' h inv ⟨i, occupant⟩
      exact ⟨i, inv.occupants_step h occupant⟩
    have clear : Schedule.run (Schedule.guarded (Clear t content) (InternTable.step shape))
        (initial pool) es = some s :=
      (Schedule.run_guarded_of_trace (fun h inv => Inv.step inv h) stays
        (fun _ unclear => leaves unclear) reached begins absent).1
    refine Schedule.run_append_eq_some.mpr ⟨s, clear, ?_⟩
    refine Schedule.run_cons_eq_some.mpr ⟨s', Schedule.guarded_eq_some.mpr ⟨?_, returns⟩, rfl⟩
    by_contra unclear
    exact absent (leaves unclear)
  · intro clear
    obtain ⟨m, before, last⟩ := Schedule.run_append_eq_some.mp clear
    have same : m = s := by
      have := (Schedule.run_of_guarded before).symm.trans reached
      exact Option.some.inj this
    subst same
    obtain ⟨m', legal, -⟩ := Schedule.run_cons_eq_some.mp last
    have open_ := (Schedule.guarded_eq_some.mp legal).1 rfl
    obtain ⟨inv, covered⟩ := Schedule.run_invariant
      (I := fun s => s.Inv shape ∧ Covered shape t content s)
      (fun h inv => by
        obtain ⟨legal, moved⟩ := Schedule.guarded_eq_some.mp h
        exact ⟨Inv.step inv.1 moved, inv.2.step inv.1 legal moved⟩)
      before ⟨begins, fun index step claimed at_ => by cases at_⟩
    exact inv.full_of_covered covered open_ returns nothing

/-- A name of one letter. -/
def letter (name : UInt8) : StringView where
  bytes := [name]
  size_lt := Nat.one_lt_two_pow (by decide)

/-- A table of one slot. One thread has claimed it for the name `a` when another one asks for
`name`. -/
def latecomer (name : UInt8) : List (TableEvent Bool) :=
  [⟨false, .intern (letter 97)⟩, ⟨false, .go true⟩, ⟨false, .go true⟩,
    ⟨true, .intern (letter name)⟩]

/-- The table of one slot. -/
def oneSlot : Shape := ⟨fun _ => 1, 0, by decide⟩

theorem latecomer_cases {name : UInt8}
    (history : ((StringPool.construct false 4096 (fun _ => 255) 4096).bind fun pool =>
      (Schedule.run (InternTable.step oneSlot) (initial pool) (latecomer name)).bind fun s =>
        (InternTable.step oneSlot ⟨true, .go true⟩ s).map fun s' =>
          (s.walkers true, s'.walkers true, decide (s'.interned = s.interned), s.occupants 0)) =
      some (.walking .intern [name] 0 0 false, .idle, true, some [97])) :
    ∃ pool s s', StringPool.construct false 4096 (fun _ => 255) 4096 = some pool ∧
      Schedule.run (InternTable.step oneSlot) (initial pool) (latecomer name) = some s ∧
      InternTable.step oneSlot ⟨true, .go true⟩ s = some s' ∧
      ReturnsNothing true [name] s s' ∧ s.occupants 0 = some [97] := by
  obtain ⟨pool, constructed, history⟩ := Option.bind_eq_some_iff.mp history
  obtain ⟨s, reached, history⟩ := Option.bind_eq_some_iff.mp history
  obtain ⟨s', returns, seen⟩ := Option.map_eq_some_iff.mp history
  simp only [Prod.mk.injEq] at seen
  obtain ⟨walks, stops, silent, occupant⟩ := seen
  exact ⟨pool, s, s', constructed, reached, returns,
    ⟨⟨0, 0, false, walks⟩, stops, of_decide_eq_true silent⟩, occupant⟩

/-- Asked for `b`, the table is full, and the call says so. -/
theorem full_iff_latecomer :
    ∃ pool s s', StringPool.construct false 4096 (fun _ => 255) 4096 = some pool ∧
      Schedule.run (InternTable.step oneSlot) (initial pool) (latecomer 98) = some s ∧
      ReturnsNothing true [98] s s' ∧ FullOfOthers oneSlot s [98] := by
  obtain ⟨pool, s, s', constructed, reached, returns, nothing, -⟩ :=
    @latecomer_cases 98 (by decide +kernel)
  refine ⟨pool, s, s', constructed, reached, nothing,
    (full_iff constructed reached returns nothing).mpr ?_⟩
  have clear : ((StringPool.construct false 4096 (fun _ => 255) 4096).bind fun pool =>
      Schedule.run (Schedule.guarded (Clear true [98]) (InternTable.step oneSlot)) (initial pool)
        (latecomer 98 ++ [⟨true, .go true⟩])).isSome = true := by decide +kernel
  rw [constructed, Option.bind_some, Option.isSome_iff_exists] at clear
  obtain ⟨m, clear⟩ := clear
  have whole : Schedule.run (InternTable.step oneSlot) (initial pool)
      (latecomer 98 ++ [⟨true, .go true⟩]) = some s' :=
    Schedule.run_append_eq_some.mpr ⟨s, reached, Schedule.run_cons_eq_some.mpr ⟨s', returns, rfl⟩⟩
  rw [clear, ← Schedule.run_of_guarded clear, whole]

/-- Asked for `a`, the call reports a full table although the slot is claimed for `a`. -/
theorem not_full_latecomer :
    ∃ pool s s', StringPool.construct false 4096 (fun _ => 255) 4096 = some pool ∧
      Schedule.run (InternTable.step oneSlot) (initial pool) (latecomer 97) = some s ∧
      InternTable.step oneSlot ⟨true, .go true⟩ s = some s' ∧
      ReturnsNothing true [97] s s' ∧ ¬ FullOfOthers oneSlot s [97] := by
  obtain ⟨pool, s, s', constructed, reached, returns, nothing, occupant⟩ :=
    @latecomer_cases 97 (by decide +kernel)
  refine ⟨pool, s, s', constructed, reached, returns, nothing, fun full => ?_⟩
  obtain ⟨-, name, ne, holds⟩ := full 0 (by decide)
  exact ne (Option.some.inj (holds.symm.trans occupant))

end InternTable

end Fpag.Str
