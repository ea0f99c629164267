import Fpag.Str.InternTable

/-!
One id per name: what holds of an `InternTable` under every interleaving.

A name is put into the first slot of its probe sequence that was free, so no slot in
front of it is ever free again, and a walk that meets a free slot has passed every slot
the name could be in. A walk reads its slots at different times; what makes it
conclusive is that a published slot never changes (`Evolves`), so what it saw is still
true when it acts on it.
-/

namespace Fpag.Str

open Fpag.Mem

variable {ι : Type}

/-! ## Bytes of names and of controls -/

theorem wordAt_eq_iff {lhs rhs : Nat → UInt8} {at_ : Nat} :
    wordAt lhs at_ = wordAt rhs at_ ↔ ∀ i, i < 8 → lhs (at_ + i) = rhs (at_ + i) := by
  rw [wordAt, wordAt, ofBytes_inj (by rw [length_readBytes, length_readBytes]), readBytes_inj]

/-- The comparison by words is the comparison by bytes. -/
theorem sameName_iff {lhs rhs : Nat → UInt8} {length : Nat} :
    sameName lhs rhs length = true ↔ ∀ i, i < length → lhs i = rhs i := by
  have words : ((List.range (length / 8)).all fun word =>
      wordAt lhs (8 * word) == wordAt rhs (8 * word)) = true ↔
      ∀ i, i < 8 * (length / 8) → lhs i = rhs i := by
    simp only [List.all_eq_true, List.mem_range, beq_iff_eq, wordAt_eq_iff]
    constructor
    · intro same i hi
      have := same (i / 8) (by omega) (i % 8) (by omega)
      rwa [Nat.div_add_mod] at this
    · intro same word hword i hi
      exact same _ (by omega)
  simp only [sameName]
  split
  · next whole =>
      have whole := words.mp whole
      split
      · next exact_ =>
          have exact_ : 8 * (length / 8) = length := by simpa using exact_
          rw [exact_] at whole
          simp only [true_iff]
          exact whole
      · split
        · next long =>
            rw [beq_iff_eq, wordAt_eq_iff]
            constructor
            · intro last i hi
              by_cases early : i < 8 * (length / 8)
              · exact whole i early
              · have := last (i - (length - 8)) (by omega)
                have at_ : length - 8 + (i - (length - 8)) = i := by omega
                rwa [at_] at this
            · intro same i hi
              exact same _ (by omega)
        · simp only [List.all_eq_true, List.mem_range, beq_iff_eq]
  · next differ =>
      simp only [Bool.false_eq_true, false_iff]
      intro same
      exact differ (words.mpr fun i hi => same i (by omega))

theorem published_high (hash : BitVec 64) : 128 ≤ (published hash).toNat := by
  rw [published, UInt8.toNat_or]
  exact Nat.right_le_or

theorem published_ne_empty (hash : BitVec 64) : published hash ≠ emptyControl := by
  intro same
  have := published_high hash
  rw [same] at this
  exact absurd this (by decide)

theorem published_ne_claimed (hash : BitVec 64) : published hash ≠ claimedControl := by
  intro same
  have := published_high hash
  rw [same] at this
  exact absurd this (by decide)

/-! ## Probe sequences -/

namespace InternTable.Shape

variable (shape : Shape)

/-- The `j`-th slot of the probe sequence of a name. -/
def slot (content : List UInt8) (j : Nat) : Nat :=
  ((shape.hash content).toNat + j) % 2 ^ shape.bits

theorem two_pow_le : 2 ^ shape.bits ≤ 2 ^ 31 :=
  Nat.pow_le_pow_right (by decide) (Nat.le_of_lt_succ shape.bits_lt)

theorem toNat_mask : shape.mask.toNat = 2 ^ shape.bits - 1 := by
  have := shape.two_pow_le
  rw [mask, BitVec.toNat_ofNat, Nat.mod_eq_of_lt (by omega)]

theorem toNat_home (content : List UInt8) : (shape.home content).toNat = shape.slot content 0 := by
  rw [home, BitVec.toNat_and, toNat_mask, Nat.and_two_pow_sub_one_eq_mod, BitVec.toNat_setWidth,
    Nat.mod_mod_of_dvd _ (Nat.pow_dvd_pow 2 (Nat.le_of_lt shape.bits_lt)), slot, Nat.add_zero]

theorem toNat_next {content : List UInt8} {index : BitVec 32} {j : Nat}
    (at_ : index.toNat = shape.slot content j) :
    (shape.next index).toNat = shape.slot content (j + 1) := by
  have small := shape.two_pow_le
  have below : shape.slot content j < 2 ^ shape.bits := Nat.mod_lt _ (Nat.two_pow_pos _)
  have one : (1 : BitVec 32).toNat = 1 := rfl
  rw [next, BitVec.toNat_and, toNat_mask, Nat.and_two_pow_sub_one_eq_mod, BitVec.toNat_add, one,
    Nat.mod_eq_of_lt (by omega : index.toNat + 1 < 2 ^ 32), at_, slot, slot, Nat.mod_add_mod,
    Nat.add_assoc]

end InternTable.Shape

/-- The name and the slot of a thread that holds a claim. -/
def Walker.claim : Walker → Option (List UInt8 × BitVec 32)
  | .calling content index => some (content, index)
  | .appending content index => some (content, index)
  | .entering content index _ => some (content, index)
  | .publishing content index _ => some (content, index)
  | _ => none

namespace InternTable

variable (shape : Shape) {s s' : InternTable ι} {t u : ι}

/-! ## The invariant -/

/-- The name is published in the slot, with this id. -/
def Settled (s : InternTable ι) (i : Nat) (content : List UInt8) (id : StringPoolId) : Prop :=
  s.occupants i = some content ∧ s.control i ≠ claimedControl ∧ s.entries i = id

/-- Another name is published in the slot. -/
def Passed (s : InternTable ι) (i : Nat) (content : List UInt8) : Prop :=
  ∃ name, name ≠ content ∧ s.occupants i = some name ∧ s.control i ≠ claimedControl

/-- What holds of the slots, and of what was returned. -/
structure TableOk (s : InternTable ι) : Prop where
  pool : s.pool.Inv
  free : ∀ i, s.control i = emptyControl ↔ s.occupants i = none
  placed : ∀ i content, s.occupants i = some content → ∃ j, j < 2 ^ shape.bits ∧
    shape.slot content j = i ∧ ∀ k, k < j → s.control (shape.slot content k) ≠ emptyControl
  unique : ∀ i j content, s.occupants i = some content → s.occupants j = some content → i = j
  published : ∀ i content, s.occupants i = some content → s.control i ≠ claimedControl →
    s.control i = Str.published (shape.hash content) ∧
      ⟨content, s.entries i⟩ ∈ s.pool.returned ∧ content ∈ s.appended
  once : s.appended.Nodup
  occupied : ∀ content ∈ s.appended, ∃ i, s.occupants i = some content
  interned : ∀ r ∈ s.interned, ∃ i, s.Settled i r.str r.id
  lookups : ∀ l ∈ s.lookups, (∀ r ∈ l.known, r.str = l.content → l.result = some r.id) ∧
    ∀ id, l.result = some id → ∃ i, s.Settled i l.content id

/-- What a walk for `purpose` knows about the slots in front of it: a name whose intern had
returned is not behind it. -/
def Ahead (s : InternTable ι) (content : List UInt8) (step : Nat) : Purpose → Prop
  | .intern => True
  | .find known => ∀ r ∈ known, r.str = content →
      ∃ j, step ≤ j ∧ j < 2 ^ shape.bits ∧ s.Settled (shape.slot content j) content r.id ∧
        ∀ k, k < j → s.control (shape.slot content k) ≠ emptyControl

/-- The thread's claim: the slot is its own, for its name. -/
def Claims (s : InternTable ι) (content : List UInt8) (index : BitVec 32) : Prop :=
  s.control index.toNat = claimedControl ∧ s.occupants index.toNat = some content

/-- What a thread knows where it stands. -/
def WalkerOk (s : InternTable ι) (t : ι) : Walker → Prop
  | .idle => s.pool.appenders t = .idle
  | .walking purpose content index step claimed =>
      s.pool.appenders t = .idle ∧ content.length < 2 ^ 63 ∧
        index.toNat = shape.slot content step.toNat ∧ step.toNat < 2 ^ shape.bits ∧
        (∀ k, k < step.toNat → s.control (shape.slot content k) ≠ emptyControl) ∧
        (claimed = false → ∀ k, k < step.toNat → s.Passed (shape.slot content k) content) ∧
        s.Ahead shape content step.toNat purpose
  | .claiming content index =>
      s.pool.appenders t = .idle ∧ content.length < 2 ^ 63 ∧
        ∃ j, j < 2 ^ shape.bits ∧ index.toNat = shape.slot content j ∧
          ∀ k, k < j → s.Passed (shape.slot content k) content
  | .calling content index =>
      s.pool.appenders t = .idle ∧ content.length < 2 ^ 63 ∧ s.Claims content index ∧
        content ∉ s.appended
  | .appending content index =>
      (s.pool.appenders t).text = some content ∧ s.Claims content index ∧ content ∈ s.appended
  | .entering content index id =>
      s.pool.appenders t = .idle ∧ s.Claims content index ∧ content ∈ s.appended ∧
        ⟨content, id⟩ ∈ s.pool.returned
  | .publishing content index id =>
      s.pool.appenders t = .idle ∧ s.Claims content index ∧ content ∈ s.appended ∧
        ⟨content, id⟩ ∈ s.pool.returned ∧ s.entries index.toNat = id
  | .counting content id =>
      s.pool.appenders t = .idle ∧ ∃ i, s.Settled i content id

/-- The invariant of every reachable state. -/
structure Inv (s : InternTable ι) : Prop where
  table : s.TableOk shape
  walkers : ∀ t, s.WalkerOk shape t (s.walkers t)
  owners : ∀ t u content name index, (s.walkers t).claim = some (content, index) →
    (s.walkers u).claim = some (name, index) → t = u

variable {shape}

theorem WalkerOk.claims {content : List UInt8} {index : BitVec 32} {state : Walker}
    (ok : s.WalkerOk shape t state) (claim : state.claim = some (content, index)) :
    s.Claims content index := by
  cases state with
  | calling content index =>
      cases claim
      exact ok.2.2.1
  | appending content index =>
      cases claim
      exact ok.2.1
  | entering content index id =>
      cases claim
      exact ok.2.1
  | publishing content index id =>
      cases claim
      exact ok.2.1
  | idle => cases claim
  | walking => cases claim
  | claiming => cases claim
  | counting => cases claim

/-- A thread that has won its slot and not called `append` yet is the first to call it for the
name. -/
theorem Inv.waits (inv : s.Inv shape) {content : List UInt8} {index : BitVec 32}
    (calling : s.walkers t = .calling content index) : content ∉ s.appended := by
  have known := inv.walkers t
  rw [calling] at known
  exact known.2.2.2

/-! ## What does not change any more -/

/-- How the table may change: slots fill up, what is published stays, and the histories grow. -/
structure Evolves (s s' : InternTable ι) : Prop where
  occupants : ∀ i content, s.occupants i = some content → s'.occupants i = some content
  busy : ∀ i, s.control i ≠ emptyControl → s'.control i ≠ emptyControl
  settled : ∀ i content, s.occupants i = some content → s.control i ≠ claimedControl →
    s'.control i ≠ claimedControl ∧ s'.entries i = s.entries i
  returned : s.pool.returned ⊆ s'.pool.returned
  appended : s.appended ⊆ s'.appended

theorem Settled.evolves {i : Nat} {content : List UInt8} {id : StringPoolId}
    (settled : s.Settled i content id) (ev : Evolves s s') : s'.Settled i content id := by
  obtain ⟨occupant, open_, entry⟩ := settled
  obtain ⟨still, same⟩ := ev.settled i content occupant open_
  exact ⟨ev.occupants i content occupant, still, same.trans entry⟩

theorem Passed.evolves {i : Nat} {content : List UInt8} (passed : s.Passed i content)
    (ev : Evolves s s') : s'.Passed i content := by
  obtain ⟨name, ne, occupant, open_⟩ := passed
  exact ⟨name, ne, ev.occupants i name occupant, (ev.settled i name occupant open_).1⟩

theorem Ahead.evolves {content : List UInt8} {step : Nat} {purpose : Purpose}
    (ahead : s.Ahead shape content step purpose) (ev : Evolves s s') :
    s'.Ahead shape content step purpose := by
  cases purpose with
  | intern => trivial
  | find known =>
      intro r hr same
      obtain ⟨j, le, lt, settled, busy⟩ := ahead r hr same
      exact ⟨j, le, lt, settled.evolves ev, fun k hk => ev.busy _ (busy k hk)⟩

/-- What was returned stays settled. -/
theorem TableOk.history (ok : s.TableOk shape) (ev : Evolves s s') :
    (∀ r ∈ s.interned, ∃ i, s'.Settled i r.str r.id) ∧
      ∀ l ∈ s.lookups, (∀ r ∈ l.known, r.str = l.content → l.result = some r.id) ∧
        ∀ id, l.result = some id → ∃ i, s'.Settled i l.content id := by
  refine ⟨fun r hr => ?_, fun l hl => ⟨(ok.lookups l hl).1, fun id hid => ?_⟩⟩
  · obtain ⟨i, settled⟩ := ok.interned r hr
    exact ⟨i, settled.evolves ev⟩
  · obtain ⟨i, settled⟩ := (ok.lookups l hl).2 id hid
    exact ⟨i, settled.evolves ev⟩

/-- What a thread knows survives the steps of the others. -/
theorem WalkerOk.evolves {state : Walker} (ok : s.WalkerOk shape t state) (ev : Evolves s s')
    (appender : s'.pool.appenders t = s.pool.appenders t)
    (claims : ∀ content index, state.claim = some (content, index) →
      s'.control index.toNat = s.control index.toNat ∧
        s'.entries index.toNat = s.entries index.toNat)
    (fresh : ∀ content index, state = .calling content index → content ∉ s'.appended) :
    s'.WalkerOk shape t state := by
  have claim : ∀ content index, state.claim = some (content, index) → s.Claims content index →
      s'.Claims content index := by
    intro content index mine held
    exact ⟨(claims content index mine).1.trans held.1, ev.occupants _ _ held.2⟩
  cases state with
  | idle => exact appender.trans ok
  | walking purpose content index step claimed =>
      obtain ⟨rests, short, at_, below, busy, passed, ahead⟩ := ok
      exact ⟨appender.trans rests, short, at_, below, fun k hk => ev.busy _ (busy k hk),
        fun clear k hk => (passed clear k hk).evolves ev, ahead.evolves ev⟩
  | claiming content index =>
      obtain ⟨rests, short, j, below, at_, passed⟩ := ok
      exact ⟨appender.trans rests, short, j, below, at_, fun k hk => (passed k hk).evolves ev⟩
  | calling content index =>
      obtain ⟨rests, short, held, -⟩ := ok
      exact ⟨appender.trans rests, short, claim _ _ rfl held, fresh _ _ rfl⟩
  | appending content index =>
      obtain ⟨busy, held, called⟩ := ok
      refine ⟨?_, claim _ _ rfl held, ev.appended called⟩
      rw [appender]
      exact busy
  | entering content index id =>
      obtain ⟨rests, held, called, receipt⟩ := ok
      exact ⟨appender.trans rests, claim _ _ rfl held, ev.appended called, ev.returned receipt⟩
  | publishing content index id =>
      obtain ⟨rests, held, called, receipt, entry⟩ := ok
      exact ⟨appender.trans rests, claim _ _ rfl held, ev.appended called, ev.returned receipt,
        (claims _ _ rfl).2.trans entry⟩
  | counting content id =>
      obtain ⟨rests, i, settled⟩ := ok
      exact ⟨appender.trans rests, i, settled.evolves ev⟩

/-! ## What a walk sees -/

/-- The comparison of a candidate with the name asked for. -/
theorem compare_iff {content : List UInt8} {id : StringPoolId} :
    ((s.pool.lengthAt id.offset.toNat).toNat == content.length &&
      sameName (fun i => s.pool.memory (id.offset.toNat + i)) (textOf content) content.length)
        = true ↔ s.pool.get id = content := by
  have bytes : (∀ i, i < content.length → s.pool.memory (id.offset.toNat + i) = textOf content i) ↔
      readBytes s.pool.memory id.offset.toNat content.length = content := by
    constructor
    · intro same
      apply List.ext_getElem length_readBytes
      intro i hi inside
      simp [readBytes, same i inside, textOf, inside]
    · intro same i inside
      have := congrArg (fun l => l[i]?) same
      simpa [readBytes, inside, textOf] using this
  rw [Bool.and_eq_true, beq_iff_eq, sameName_iff, bytes, StringPool.get]
  constructor
  · rintro ⟨length, same⟩
    rw [length]
    exact same
  · intro same
    have length : (s.pool.lengthAt id.offset.toNat).toNat = content.length := by
      rw [← same, length_readBytes]
    rw [length] at same
    exact ⟨length, same⟩

/-- What one load of a control byte tells. -/
theorem TableOk.look_cases (ok : s.TableOk shape) (content : List UInt8) (index : BitVec 32) :
    (∃ id, s.look shape content index = .name id ∧ s.Settled index.toNat content id) ∨
      (s.look shape content index = .free ∧ s.control index.toNat = emptyControl) ∨
      (s.look shape content index = .claimed ∧ s.control index.toNat = claimedControl) ∨
      (s.look shape content index = .other ∧ s.Passed index.toNat content) := by
  by_cases empty : s.control index.toNat = emptyControl
  · refine Or.inr (Or.inl ⟨?_, empty⟩)
    have ne : emptyControl ≠ Str.published (shape.hash content) := (published_ne_empty _).symm
    simp only [look, empty, if_neg ne, if_pos]
  by_cases claimed : s.control index.toNat = claimedControl
  · refine Or.inr (Or.inr (Or.inl ⟨?_, claimed⟩))
    have ne : claimedControl ≠ Str.published (shape.hash content) := (published_ne_claimed _).symm
    have busy : claimedControl ≠ emptyControl := by decide
    simp only [look, claimed, if_neg ne, if_neg busy, if_pos]
  obtain ⟨name, occupant⟩ := Option.ne_none_iff_exists'.mp (mt (ok.free _).mpr empty)
  obtain ⟨byte, receipt, -⟩ := ok.published _ name occupant claimed
  have reads : s.pool.get (s.entries index.toNat) = name := ok.pool.intact.get _ receipt
  by_cases candidate : s.control index.toNat = Str.published (shape.hash content)
  · by_cases same : name = content
    · subst same
      refine Or.inl ⟨s.entries index.toNat, ?_, occupant, claimed, rfl⟩
      simp only [look, if_pos candidate, if_pos (compare_iff.mpr reads)]
    · refine Or.inr (Or.inr (Or.inr ⟨?_, name, same, occupant, claimed⟩))
      have differ := mt compare_iff.mp (fun found => same (reads.symm.trans found))
      simp only [look, if_pos candidate, if_neg differ]
  · refine Or.inr (Or.inr (Or.inr ⟨?_, name, ?_, occupant, claimed⟩))
    · simp only [look, if_neg candidate, if_neg empty, if_neg claimed]
    · intro same
      rw [same] at byte
      exact candidate byte

/-! ## Steps -/

variable [DecidableEq ι]

/-- A step of one thread: the table becomes `r`, and the thread arrives at `state`. -/
theorem Inv.change {r : InternTable ι} {state : Walker} (inv : s.Inv shape)
    (table : r.TableOk shape) (ev : Evolves s r) (walkers : r.walkers = s.walkers)
    (appenders : ∀ u, u ≠ t → r.pool.appenders u = s.pool.appenders u)
    (claims : ∀ u content index, u ≠ t → (s.walkers u).claim = some (content, index) →
      r.control index.toNat = s.control index.toNat ∧
        r.entries index.toNat = s.entries index.toNat)
    (fresh : ∀ u content index, u ≠ t → s.walkers u = .calling content index →
      content ∉ r.appended)
    (ok : r.WalkerOk shape t state)
    (owner : ∀ u content name index, u ≠ t → state.claim = some (content, index) →
      (s.walkers u).claim ≠ some (name, index)) :
    (r.setWalker t state).Inv shape := by
  have mine : (r.setWalker t state).walkers t = state := by
    simp only [setWalker, Function.update_self]
  have away : ∀ u, u ≠ t → (r.setWalker t state).walkers u = s.walkers u := by
    intro u other
    simp only [setWalker, Function.update_of_ne other, walkers]
  refine ⟨⟨table.pool, table.free, table.placed, table.unique, table.published, table.once,
    table.occupied, table.interned, table.lookups⟩, fun u => ?_,
    fun u v content name index hu hv => ?_⟩
  · by_cases same : u = t
    · subst same
      rw [mine]
      exact ok.evolves ⟨fun _ _ h => h, fun _ h => h, fun _ _ _ h => ⟨h, rfl⟩, List.Subset.refl _,
        List.Subset.refl _⟩ rfl (fun _ _ _ => ⟨rfl, rfl⟩) (by
          rintro content index rfl
          exact ok.2.2.2)
    · rw [away u same]
      have moved : Evolves s (r.setWalker t state) :=
        ⟨ev.occupants, ev.busy, ev.settled, ev.returned, ev.appended⟩
      exact (inv.walkers u).evolves moved (appenders u same)
        (fun content index claim => claims u content index same claim)
        (fun content index calling => fresh u content index same calling)
  · by_cases su : u = t
    · subst su
      by_cases sv : v = u
      · exact sv.symm
      · rw [mine] at hu
        rw [away v sv] at hv
        exact absurd hv (owner v content name index sv hu)
    · rw [away u su] at hu
      by_cases sv : v = t
      · subst sv
        rw [mine] at hv
        exact absurd hu (owner u name content index su hv)
      · rw [away v sv] at hv
        exact inv.owners u v content name index hu hv

/-- A step that leaves the slots and the pool alone. -/
theorem Inv.move {r : InternTable ι} {state : Walker} (inv : s.Inv shape) (table : r.TableOk shape)
    (pool : r.pool = s.pool) (control : r.control = s.control) (entries : r.entries = s.entries)
    (occupants : r.occupants = s.occupants) (appended : r.appended = s.appended)
    (walkers : r.walkers = s.walkers) (ok : r.WalkerOk shape t state)
    (claim : state.claim = none) : (r.setWalker t state).Inv shape := by
  refine inv.change table ⟨?_, ?_, ?_, ?_, ?_⟩ walkers ?_ ?_ ?_ ok ?_
  · rw [occupants]
    exact fun _ _ h => h
  · rw [control]
    exact fun _ h => h
  · rw [control, entries]
    exact fun _ _ _ h => ⟨h, rfl⟩
  · rw [pool]
    exact List.Subset.refl _
  · rw [appended]
    exact List.Subset.refl _
  · rw [pool]
    exact fun _ _ => rfl
  · rw [control, entries]
    exact fun _ _ _ _ _ => ⟨rfl, rfl⟩
  · intro u content index _ calling
    rw [appended]
    exact inv.waits calling
  · intro u content name index _ mine
    rw [claim] at mine
    cases mine

theorem Inv.walk (inv : s.Inv shape) {purpose : Purpose} {content : List UInt8}
    (rests : s.pool.appenders t = .idle) (short : content.length < 2 ^ 63)
    (ahead : s.Ahead shape content 0 purpose) : (s.walk shape t purpose content).Inv shape := by
  refine inv.move inv.table rfl rfl rfl rfl rfl rfl
    ⟨rests, short, shape.toNat_home content, Nat.two_pow_pos _, ?_, ?_, ahead⟩ rfl
  · intro k hk
    exact absurd hk (Nat.not_lt_zero k)
  · intro _ k hk
    exact absurd hk (Nat.not_lt_zero k)

omit [DecidableEq ι] in
/-- A `find` starts with every name whose intern has returned ahead of it. -/
theorem TableOk.ahead (ok : s.TableOk shape) (content : List UInt8) :
    s.Ahead shape content 0 (.find s.interned) := by
  intro r hr same
  obtain ⟨i, settled⟩ := ok.interned r hr
  obtain ⟨j, below, rfl, busy⟩ := ok.placed i r.str settled.1
  rw [same] at settled busy
  exact ⟨j, Nat.zero_le j, below, settled, busy⟩

theorem Inv.returnId (inv : s.Inv shape) {content : List UInt8} {id : StringPoolId}
    (rests : s.pool.appenders t = .idle) (settled : ∃ i, s.Settled i content id) :
    (s.returnId t content id).Inv shape := by
  have table := inv.table
  refine inv.move ⟨table.pool, table.free, table.placed, table.unique, table.published,
    table.once, table.occupied, fun r hr => ?_, table.lookups⟩ rfl rfl rfl rfl rfl rfl rests rfl
  rcases List.mem_cons.mp hr with rfl | hr
  · exact settled
  · exact table.interned r hr

theorem Inv.returnLookup (inv : s.Inv shape) {content : List UInt8} {known : List Receipt}
    {result : Option StringPoolId} (rests : s.pool.appenders t = .idle)
    (told : ∀ r ∈ known, r.str = content → result = some r.id)
    (settled : ∀ id, result = some id → ∃ i, s.Settled i content id) :
    (s.returnLookup t content known result).Inv shape := by
  have table := inv.table
  refine inv.move ⟨table.pool, table.free, table.placed, table.unique, table.published,
    table.once, table.occupied, table.interned, fun l hl => ?_⟩ rfl rfl rfl rfl rfl rfl rests rfl
  rcases List.mem_cons.mp hl with rfl | hl
  · exact ⟨told, settled⟩
  · exact table.lookups l hl

/-- A walk goes past a slot that is taken and does not hold its name. -/
theorem Inv.pass (inv : s.Inv shape) {purpose : Purpose} {content : List UInt8}
    {index step : BitVec 32} {claimed claimed' : Bool}
    (at_ : s.walkers t = .walking purpose content index step claimed)
    (taken : s.control index.toNat ≠ emptyControl)
    (elsewhere : ∀ id, ¬ s.Settled index.toNat content id)
    (clear : claimed' = false → claimed = false ∧ s.Passed index.toNat content) :
    (s.pass shape t purpose content index step claimed').Inv shape := by
  have known := inv.walkers t
  rw [at_] at known
  obtain ⟨rests, short, here, below, busy, passed, ahead⟩ := known
  have small := shape.two_pow_le
  have one : (1 : BitVec 32).toNat = 1 := rfl
  have stepped : (step + 1).toNat = step.toNat + 1 := by
    rw [BitVec.toNat_add, one, Nat.mod_eq_of_lt (by omega)]
  have further : s.Ahead shape content (step.toNat + 1) purpose := by
    cases purpose with
    | intern => trivial
    | find known =>
        intro r hr same
        obtain ⟨j, le, lt, settled, front⟩ := ahead r hr same
        rcases Nat.eq_or_lt_of_le le with rfl | lt'
        · rw [← here] at settled
          exact absurd settled (elsewhere r.id)
        · exact ⟨j, lt', lt, settled, front⟩
  simp only [InternTable.pass]
  split
  · next more =>
      rw [BitVec.le_def, stepped, shape.toNat_mask] at more
      refine inv.move inv.table rfl rfl rfl rfl rfl rfl
        ⟨rests, short, ?_, ?_, fun k hk => ?_, fun open_ k hk => ?_, ?_⟩ rfl
      · rw [stepped]
        exact shape.toNat_next here
      · omega
      · rw [stepped] at hk
        rcases Nat.lt_succ_iff_lt_or_eq.mp hk with hk | rfl
        · exact busy k hk
        · rw [← here]
          exact taken
      · rw [stepped] at hk
        obtain ⟨open_, passes⟩ := clear open_
        rcases Nat.lt_succ_iff_lt_or_eq.mp hk with hk | rfl
        · exact passed open_ k hk
        · rw [← here]
          exact passes
      · rw [stepped]
        exact further
  · next last =>
      rw [BitVec.le_def, stepped, shape.toNat_mask] at last
      cases purpose with
      | intern => exact inv.move inv.table rfl rfl rfl rfl rfl rfl rests rfl
      | find known =>
          refine inv.returnLookup rests (fun r hr same => ?_) (fun id none => by cases none)
          -- Every slot was walked, so the name cannot be ahead.
          obtain ⟨j, le, lt, -⟩ := further r hr same
          omega

theorem Inv.probe (inv : s.Inv shape) {purpose : Purpose} {content : List UInt8}
    {index step : BitVec 32} {claimed : Bool}
    (at_ : s.walkers t = .walking purpose content index step claimed) :
    (s.probe shape t purpose content index step claimed).Inv shape := by
  have known := inv.walkers t
  rw [at_] at known
  obtain ⟨rests, short, here, below, busy, passed, ahead⟩ := known
  obtain ⟨id, seen, settled⟩ | ⟨seen, empty⟩ | ⟨seen, held⟩ | ⟨seen, passes⟩ :=
    inv.table.look_cases content index
  · simp only [InternTable.probe, seen]
    cases purpose with
    | intern => exact inv.returnId rests ⟨_, settled⟩
    | find known =>
        refine inv.returnLookup rests (fun r hr same => ?_) (fun id' some => ?_)
        · obtain ⟨j, -, -, there, -⟩ := ahead r hr same
          have slot := inv.table.unique _ _ _ settled.1 there.1
          rw [← slot] at there
          rw [← settled.2.2, there.2.2]
        · cases some
          exact ⟨_, settled⟩
  · simp only [InternTable.probe, seen]
    cases purpose with
    | intern =>
        cases claimed with
        | true => exact inv.walk rests short trivial
        | false =>
            exact inv.move inv.table rfl rfl rfl rfl rfl rfl
              ⟨rests, short, step.toNat, below, here, passed rfl⟩ rfl
    | find known =>
        refine inv.returnLookup rests (fun r hr same => ?_) (fun id none => by cases none)
        -- The name is at this slot or behind it, and no slot in front of a name is free.
        obtain ⟨j, le, -, settled, front⟩ := ahead r hr same
        rcases Nat.eq_or_lt_of_le le with rfl | lt
        · rw [← here] at settled
          exact absurd ((inv.table.free _).mp empty)
            (by rw [settled.1]; exact Option.some_ne_none _)
        · rw [here] at empty
          exact absurd empty (front _ lt)
  · simp only [InternTable.probe, seen]
    refine inv.pass at_ ?_ ?_ ?_
    · rw [held]
      decide
    · intro id settled
      exact settled.2.1 held
    · intro none
      cases none
  · simp only [InternTable.probe, seen]
    refine inv.pass at_ ?_ ?_ (fun open_ => ⟨open_, passes⟩)
    · obtain ⟨name, -, occupant, -⟩ := passes
      intro empty
      rw [(inv.table.free _).mp empty] at occupant
      cases occupant
    · rintro id ⟨mine, -, -⟩
      obtain ⟨name, ne, occupant, -⟩ := passes
      rw [mine] at occupant
      exact ne (Option.some.inj occupant).symm

omit [DecidableEq ι] in
/-- A free slot behind slots that hold other names: the name is nowhere in the table. -/
theorem TableOk.absent (ok : s.TableOk shape) {content : List UInt8} {j : Nat}
    (empty : s.control (shape.slot content j) = emptyControl)
    (passed : ∀ k, k < j → s.Passed (shape.slot content k) content) (i : Nat) :
    s.occupants i ≠ some content := by
  intro occupant
  obtain ⟨k, -, rfl, front⟩ := ok.placed i content occupant
  rcases Nat.lt_trichotomy k j with before | rfl | after
  · obtain ⟨name, ne, other, -⟩ := passed k before
    rw [occupant] at other
    exact ne (Option.some.inj other).symm
  · rw [(ok.free _).mp empty] at occupant
    cases occupant
  · exact front j after empty

/-- The compare-exchange of `claim` succeeds. -/
theorem Inv.claim (inv : s.Inv shape) {content : List UInt8} {index : BitVec 32}
    (at_ : s.walkers t = .claiming content index)
    (empty : s.control index.toNat = emptyControl) :
    (setWalker { s with
      control := Function.update s.control index.toNat claimedControl
      occupants := Function.update s.occupants index.toNat (some content) } t
      (.calling content index)).Inv shape := by
  have known := inv.walkers t
  rw [at_] at known
  obtain ⟨rests, short, j, below, here, passed⟩ := known
  have table := inv.table
  rw [here] at empty
  have absent := table.absent empty passed
  rw [← here] at empty
  have vacant := (table.free _).mp empty
  have keeps : ∀ i, s.control i ≠ emptyControl → i ≠ index.toNat := by
    rintro i busy rfl
    exact busy empty
  have busy : ∀ i, s.control i ≠ emptyControl →
      Function.update s.control index.toNat claimedControl i ≠ emptyControl := by
    intro i taken
    rw [Function.update_of_ne (keeps i taken)]
    exact taken
  have taken : ∀ i name, s.occupants i = some name → s.control i ≠ emptyControl := by
    intro i name occupant free
    rw [(table.free i).mp free] at occupant
    cases occupant
  have occupant : ∀ i name, Function.update s.occupants index.toNat (some content) i = some name →
      (i = index.toNat ∧ name = content) ∨ (i ≠ index.toNat ∧ s.occupants i = some name) := by
    intro i name h
    by_cases same : i = index.toNat
    · rw [same, Function.update_self] at h
      exact Or.inl ⟨same, (Option.some.inj h).symm⟩
    · rw [Function.update_of_ne same] at h
      exact Or.inr ⟨same, h⟩
  have ev : Evolves s { s with
      control := Function.update s.control index.toNat claimedControl
      occupants := Function.update s.occupants index.toNat (some content) } := by
    refine ⟨fun i name h => ?_, busy, fun i name h open_ => ?_, List.Subset.refl _,
      List.Subset.refl _⟩
    · exact (Function.update_of_ne (keeps i (taken i name h)) _ _).trans h
    · refine ⟨?_, rfl⟩
      change Function.update s.control index.toNat claimedControl i ≠ claimedControl
      rw [Function.update_of_ne (keeps i (taken i name h))]
      exact open_
  obtain ⟨interned, lookups⟩ := table.history ev
  refine inv.change ⟨table.pool, fun i => ?_, fun i name h => ?_, fun i k name hi hk => ?_,
    fun i name h open_ => ?_, table.once, fun name called => ?_, interned, lookups⟩
    ev rfl (fun _ _ => rfl) ?_ ?_ ⟨rests, short, ⟨Function.update_self _ _ _,
      Function.update_self _ _ _⟩, ?_⟩ ?_
  · by_cases same : i = index.toNat
    · subst same
      simp [claimedControl, emptyControl]
    · simpa only [Function.update_of_ne same] using table.free i
  · obtain ⟨rfl, rfl⟩ | ⟨-, h⟩ := occupant i name h
    · refine ⟨j, below, here.symm, fun k hk => busy _ ?_⟩
      obtain ⟨other, -, there, -⟩ := passed k hk
      exact taken _ other there
    · obtain ⟨k, lt, slot, front⟩ := table.placed i name h
      exact ⟨k, lt, slot, fun m hm => busy _ (front m hm)⟩
  · obtain ⟨rfl, rfl⟩ | ⟨-, first⟩ := occupant i name hi
    · obtain ⟨rfl, -⟩ | ⟨-, second⟩ := occupant k name hk
      · rfl
      · exact absurd second (absent k)
    · obtain ⟨rfl, rfl⟩ | ⟨-, second⟩ := occupant k name hk
      · exact absurd first (absent i)
      · exact table.unique i k name first second
  · obtain ⟨rfl, rfl⟩ | ⟨ne, h⟩ := occupant i name h
    · exact absurd (Function.update_self _ _ _) open_
    · simp only [Function.update_of_ne ne] at open_ ⊢
      exact table.published i name h open_
  · obtain ⟨i, h⟩ := table.occupied name called
    exact ⟨i, ev.occupants i name h⟩
  · intro u name other _ mine
    have held := (inv.walkers u).claims mine
    refine ⟨Function.update_of_ne (keeps _ ?_) _ _, rfl⟩
    rw [held.1]
    decide
  · intro u name other _ calling
    exact inv.waits calling
  · intro called
    obtain ⟨i, h⟩ := table.occupied content called
    exact absent i h
  · intro u content' name other _ mine theirs
    cases mine
    have held := (inv.walkers u).claims theirs
    rw [held.1] at empty
    exact absurd empty (by decide)

omit [DecidableEq ι] in
/-- Two threads with claims hold different slots. -/
theorem Inv.claims_ne (inv : s.Inv shape) {content name : List UInt8} {index other : BitVec 32}
    (mine : (s.walkers t).claim = some (content, index)) (apart : u ≠ t)
    (theirs : (s.walkers u).claim = some (name, other)) : other.toNat ≠ index.toNat := by
  intro same
  have := BitVec.eq_of_toNat_eq same
  subst this
  exact apart (inv.owners u t name content _ theirs mine)

/-- The pool makes a step for a thread that holds a claim; `called` are the names it was called
for by then. -/
theorem Inv.settle (inv : s.Inv shape) {content : List UInt8} {index : BitVec 32}
    {pool : StringPool ι} (called : List (List UInt8))
    (mine : (s.walkers t).claim = some (content, index)) (ok : pool.Inv)
    (effect : StringPool.Effect s.pool pool t content)
    (calls : content ∈ called ∧ called.Nodup ∧ s.appended ⊆ called ∧
      ∀ name ∈ called, name = content ∨ name ∈ s.appended)
    (new : ∀ u name other, u ≠ t → s.walkers u = .calling name other → name ≠ content)
    (h : settle { s with appended := called } t content index pool = some s') :
    s'.Inv shape := by
  have table := inv.table
  obtain ⟨here, nodup, grows, only⟩ := calls
  have held := (inv.walkers t).claims mine
  have returned : s.pool.returned ⊆ pool.returned := by
    rcases effect.mine with ⟨-, same⟩ | ⟨-, id, more⟩
    · rw [same]
      exact List.Subset.refl _
    · rw [more]
      exact List.subset_cons_self _ _
  have ev : Evolves s { s with appended := called, pool := pool } :=
    ⟨fun _ _ h => h, fun _ h => h, fun _ _ _ h => ⟨h, rfl⟩, returned, grows⟩
  have next : TableOk shape { s with appended := called, pool := pool } := by
    refine ⟨ok, table.free, table.placed, table.unique, fun i name h open_ => ?_, nodup,
      fun name hname => ?_, table.interned, table.lookups⟩
    · obtain ⟨byte, receipt, known⟩ := table.published i name h open_
      exact ⟨byte, returned receipt, grows known⟩
    · rcases only name hname with rfl | known
      · exact ⟨index.toNat, held.2⟩
      · exact table.occupied name known
  have arrive : ∀ state : Walker, state.claim = some (content, index) →
      WalkerOk shape { s with appended := called, pool := pool } t state →
      (setWalker { s with appended := called, pool := pool } t state).Inv shape := by
    intro state claim there
    refine inv.change next ev rfl effect.away (fun _ _ _ _ _ => ⟨rfl, rfl⟩) ?_ there ?_
    · intro u name other apart calling called'
      rcases only name called' with same | known
      · exact new u name other apart calling same
      · exact inv.waits calling known
    · intro u content' name other apart claims theirs
      rw [claim] at claims
      cases claims
      exact inv.claims_ne mine apart theirs rfl
  simp only [InternTable.settle] at h
  split at h
  · next idle =>
      rcases effect.mine with ⟨text, -⟩ | ⟨-, id, more⟩
      · rw [idle] at text
        cases text
      · rw [more] at h
        cases h
        refine arrive _ rfl ⟨idle, held, here, ?_⟩
        change _ ∈ pool.returned
        rw [more]
        exact List.mem_cons_self
  · next busy =>
      cases h
      rcases effect.mine with ⟨text, -⟩ | ⟨idle, -⟩
      · exact arrive _ rfl ⟨text, held, here⟩
      · exact absurd idle busy

theorem Inv.enter (inv : s.Inv shape) {content : List UInt8} {index : BitVec 32}
    {id : StringPoolId} (at_ : s.walkers t = .entering content index id) :
    (setWalker { s with entries := Function.update s.entries index.toNat id } t
      (.publishing content index id)).Inv shape := by
  have known := inv.walkers t
  rw [at_] at known
  obtain ⟨rests, held, called, receipt⟩ := known
  have mine : (s.walkers t).claim = some (content, index) := by rw [at_]; rfl
  have table := inv.table
  have away : ∀ i, s.control i ≠ claimedControl →
      Function.update s.entries index.toNat id i = s.entries i := by
    intro i open_
    refine Function.update_of_ne ?_ _ _
    rintro rfl
    exact open_ held.1
  have ev : Evolves s { s with entries := Function.update s.entries index.toNat id } :=
    ⟨fun _ _ h => h, fun _ h => h, fun i _ _ open_ => ⟨open_, away i open_⟩, List.Subset.refl _,
      List.Subset.refl _⟩
  obtain ⟨interned, lookups⟩ := table.history ev
  refine inv.change ⟨table.pool, table.free, table.placed, table.unique, fun i name h open_ => ?_,
    table.once, table.occupied, interned, lookups⟩ ev rfl (fun _ _ => rfl) ?_ ?_
    ⟨rests, held, called, receipt, Function.update_self _ _ _⟩ ?_
  · obtain ⟨byte, there, called'⟩ := table.published i name h open_
    refine ⟨byte, ?_, called'⟩
    change (⟨name, Function.update s.entries index.toNat id i⟩ : Receipt) ∈ s.pool.returned
    rw [away i open_]
    exact there
  · intro u name other apart theirs
    exact ⟨rfl, Function.update_of_ne (inv.claims_ne mine apart theirs) _ _⟩
  · intro u name other _ calling
    exact inv.waits calling
  · intro u content' name other apart claims theirs
    cases claims
    exact inv.claims_ne mine apart theirs rfl

theorem Inv.publish (inv : s.Inv shape) {content : List UInt8} {index : BitVec 32}
    {id : StringPoolId} (at_ : s.walkers t = .publishing content index id) :
    (setWalker { s with
      control := Function.update s.control index.toNat (published (shape.hash content)) } t
      (.counting content id)).Inv shape := by
  have known := inv.walkers t
  rw [at_] at known
  obtain ⟨rests, held, called, receipt, entry⟩ := known
  have mine : (s.walkers t).claim = some (content, index) := by rw [at_]; rfl
  have table := inv.table
  have busy : ∀ i, s.control i ≠ emptyControl →
      Function.update s.control index.toNat (published (shape.hash content)) i ≠ emptyControl := by
    intro i taken
    by_cases same : i = index.toNat
    · rw [same, Function.update_self]
      exact published_ne_empty _
    · rw [Function.update_of_ne same]
      exact taken
  have open_ : Function.update s.control index.toNat (published (shape.hash content)) index.toNat
      ≠ claimedControl := by
    rw [Function.update_self]
    exact published_ne_claimed _
  have ev : Evolves s { s with
      control := Function.update s.control index.toNat (published (shape.hash content)) } := by
    refine ⟨fun _ _ h => h, busy, fun i _ _ was => ⟨?_, rfl⟩, List.Subset.refl _,
      List.Subset.refl _⟩
    change Function.update s.control index.toNat (published (shape.hash content)) i ≠ claimedControl
    rw [Function.update_of_ne]
    · exact was
    · rintro rfl
      exact was held.1
  obtain ⟨interned, lookups⟩ := table.history ev
  refine inv.change ⟨table.pool, fun i => ?_, fun i name h => ?_, table.unique,
    fun i name h still => ?_, table.once, table.occupied, interned, lookups⟩ ev rfl
    (fun _ _ => rfl) ?_ ?_ ⟨rests, index.toNat, held.2, open_, entry⟩ ?_
  · by_cases same : i = index.toNat
    · subst same
      simp only [Function.update_self, held.2, reduceCtorEq, iff_false]
      exact published_ne_empty _
    · simpa only [Function.update_of_ne same] using table.free i
  · obtain ⟨k, lt, slot, front⟩ := table.placed i name h
    exact ⟨k, lt, slot, fun m hm => busy _ (front m hm)⟩
  · by_cases same : i = index.toNat
    · subst same
      rw [held.2] at h
      cases h
      refine ⟨Function.update_self _ _ _, ?_, called⟩
      rw [entry]
      exact receipt
    · simp only [Function.update_of_ne same] at still ⊢
      exact table.published i name h still
  · intro u name other apart theirs
    exact ⟨Function.update_of_ne (inv.claims_ne mine apart theirs) _ _, rfl⟩
  · intro u name other _ calling
    exact inv.waits calling
  · intro u content' name other apart claims
    cases claims

theorem Inv.advance (inv : s.Inv shape) {ok : Bool} (h : s.advance shape t ok = some s') :
    s'.Inv shape := by
  have known := inv.walkers t
  cases at_ : s.walkers t with
  | idle =>
      simp only [InternTable.advance, at_] at h
      cases h
  | walking purpose content index step claimed =>
      simp only [InternTable.advance, at_] at h
      cases h
      exact inv.probe at_
  | claiming content index =>
      simp only [InternTable.advance, at_] at h
      rw [at_] at known
      split at h
      · next empty =>
          cases h
          exact inv.claim at_ empty
      · cases h
        exact inv.walk known.1 known.2.1 trivial
  | calling content index =>
      simp only [InternTable.advance, at_] at h
      rw [at_] at known
      obtain ⟨rests, short, held, first⟩ := known
      have mine : (s.walkers t).claim = some (content, index) := by rw [at_]; rfl
      split at h
      · cases h
      · next pool started =>
          refine inv.settle _ mine (inv.table.pool.start short started)
            (StringPool.start_effect rests started) ⟨List.mem_cons_self, ?_,
              List.subset_cons_self _ _, fun name hname => List.mem_cons.mp hname⟩ ?_ h
          · exact List.nodup_cons.mpr ⟨first, inv.table.once⟩
          · rintro u name other apart calling rfl
            have theirs : (s.walkers u).claim = some (name, other) := by rw [calling]; rfl
            have slot := inv.table.unique _ _ _ ((inv.walkers u).claims theirs).2 held.2
            exact inv.claims_ne mine apart theirs slot
  | appending content index =>
      simp only [InternTable.advance, at_] at h
      rw [at_] at known
      obtain ⟨busy, held, called⟩ := known
      have mine : (s.walkers t).claim = some (content, index) := by rw [at_]; rfl
      split at h
      · cases h
      · next pool moved =>
          refine inv.settle s.appended mine (inv.table.pool.advance moved)
            (StringPool.advance_effect busy moved)
            ⟨called, inv.table.once, List.Subset.refl _, fun name hname => Or.inr hname⟩ ?_ h
          rintro u name other - calling rfl
          exact inv.waits calling called
  | entering content index id =>
      simp only [InternTable.advance, at_] at h
      cases h
      exact inv.enter at_
  | publishing content index id =>
      simp only [InternTable.advance, at_] at h
      cases h
      exact inv.publish at_
  | counting content id =>
      simp only [InternTable.advance, at_] at h
      rw [at_] at known
      cases h
      have counted : Inv shape { s with count := s.count + 1 } :=
        ⟨⟨inv.table.pool, inv.table.free, inv.table.placed, inv.table.unique, inv.table.published,
          inv.table.once, inv.table.occupied, inv.table.interned, inv.table.lookups⟩,
          fun u => (inv.walkers u).evolves ⟨fun _ _ h => h, fun _ h => h, fun _ _ _ h => ⟨h, rfl⟩,
            List.Subset.refl _, List.Subset.refl _⟩ rfl (fun _ _ _ => ⟨rfl, rfl⟩)
            (fun _ _ calling => inv.waits calling),
          inv.owners⟩
      exact counted.returnId known.1 known.2

/-- Every step of every thread preserves the invariant. -/
theorem Inv.step (inv : s.Inv shape) {e : TableEvent ι} (h : InternTable.step shape e s = some s') :
    s'.Inv shape := by
  obtain ⟨t, action⟩ := e
  have rests : s.walkers t = .idle → s.pool.appenders t = .idle := by
    intro at_
    have known := inv.walkers t
    rw [at_] at known
    exact known
  cases action with
  | intern content =>
      simp only [InternTable.step] at h
      split at h
      · next at_ =>
          cases h
          exact inv.walk (rests at_) content.size_lt trivial
      · cases h
  | find content =>
      simp only [InternTable.step] at h
      split at h
      · next at_ =>
          cases h
          exact inv.walk (rests at_) content.size_lt (inv.table.ahead content.bytes)
      · cases h
  | go ok => exact inv.advance h

omit [DecidableEq ι] in
theorem inv_initial {pool : StringPool ι} (ok : pool.Inv) (rests : ∀ t, pool.appenders t = .idle) :
    (initial pool).Inv shape := by
  refine ⟨⟨ok, fun i => ⟨fun _ => rfl, fun _ => rfl⟩, (fun i content h => by cases h),
    (fun i j content h => by cases h), (fun i content h => by cases h), List.nodup_nil,
    (fun content h => by cases h), (fun r hr => by cases hr), (fun l hl => by cases hl)⟩,
    rests, (fun t u content name index h => by cases h)⟩

/-! ## Whole runs -/

/-- What the table promises at any moment: a taken slot has one name and a name one slot, the
interns that returned agree on the ids, each name was appended once, and a lookup tells the id
of its name, at the latest once an intern of it has returned. -/
structure Coherent (s : InternTable ι) : Prop where
  taken : ∀ i, s.control i ≠ emptyControl ↔ ∃ content, s.occupants i = some content
  unique : ∀ i j content, s.occupants i = some content → s.occupants j = some content → i = j
  entry : ∀ i content, s.occupants i = some content → s.control i ≠ claimedControl →
    s.pool.get (s.entries i) = content
  same : ∀ r ∈ s.interned, ∀ q ∈ s.interned, r.str = q.str ↔ r.id = q.id
  once : s.appended.Nodup ∧ ∀ r ∈ s.interned, s.appended.count r.str = 1
  get : ∀ r ∈ s.interned, s.pool.get r.id = r.str
  find : ∀ l ∈ s.lookups, ∀ r ∈ l.known, r.str = l.content → l.result = some r.id
  found : ∀ l ∈ s.lookups, ∀ id, l.result = some id → s.pool.get id = l.content

omit [DecidableEq ι]

theorem TableOk.get_of_settled (ok : s.TableOk shape) {i : Nat} {content : List UInt8}
    {id : StringPoolId} (settled : s.Settled i content id) : s.pool.get id = content := by
  obtain ⟨occupant, open_, rfl⟩ := settled
  obtain ⟨-, receipt, -⟩ := ok.published i content occupant open_
  exact ok.pool.intact.get _ receipt

theorem TableOk.coherent (ok : s.TableOk shape) : s.Coherent := by
  have reads : ∀ r ∈ s.interned, s.pool.get r.id = r.str := by
    intro r hr
    obtain ⟨i, settled⟩ := ok.interned r hr
    exact ok.get_of_settled settled
  refine ⟨fun i => ?_, ok.unique, fun i content occupant open_ =>
    ok.get_of_settled ⟨occupant, open_, rfl⟩, fun r hr q hq => ⟨fun names => ?_, fun ids => ?_⟩,
    ⟨ok.once, fun r hr => ?_⟩, reads, fun l hl => (ok.lookups l hl).1, fun l hl id hid => ?_⟩
  · rw [← Option.ne_none_iff_exists']
    exact not_congr (ok.free i)
  · obtain ⟨i, there⟩ := ok.interned r hr
    obtain ⟨j, here⟩ := ok.interned q hq
    rw [names] at there
    have slot := ok.unique i j q.str there.1 here.1
    rw [← there.2.2, ← here.2.2, slot]
  · rw [← reads r hr, ← reads q hq, ids]
  · obtain ⟨i, occupant, open_, -⟩ := ok.interned r hr
    obtain ⟨-, -, called⟩ := ok.published i r.str occupant open_
    exact List.count_eq_one_of_mem ok.once called
  · obtain ⟨i, settled⟩ := (ok.lookups l hl).2 id hid
    exact ok.get_of_settled settled

/-- Under every schedule the table gives one id per name. -/
theorem coherent_of_run [DecidableEq ι] {pageSize : Nat} {pages : Nat → UInt8}
    {capacity : BitVec 64} {pool : StringPool ι} {es : List (TableEvent ι)}
    (constructed : StringPool.construct t pageSize pages capacity = some pool)
    (reached : Schedule.run (InternTable.step shape) (initial pool) es = some s) : s.Coherent :=
  (Schedule.run_invariant (fun h inv => inv.step h) reached
    (inv_initial (StringPool.inv_construct constructed)
      (StringPool.idle_of_construct constructed))).table.coherent

/-- Two threads race for one name in a table of two slots in which every name collides: both
see the first slot of the sequence free, one claims it, the other starts its walk again. -/
def rivals : List (TableEvent Bool) :=
  ⟨false, .intern ⟨[97], by decide⟩⟩ :: ⟨true, .intern ⟨[97], by decide⟩⟩ ::
    ⟨false, .go true⟩ :: ⟨true, .go true⟩ :: ⟨false, .go true⟩ :: ⟨true, .go true⟩ ::
    (List.replicate 13 ⟨false, .go true⟩ ++
      [⟨true, .go true⟩, ⟨false, .find ⟨[97], by decide⟩⟩, ⟨false, .go true⟩])

theorem coherent_of_run_rivals :
    ∃ pool s, StringPool.construct false 4096 (fun _ => 255) 4096 = some pool ∧
      Schedule.run (InternTable.step ⟨fun _ => 1, 1, by decide⟩) (initial pool) rivals = some s ∧
      s.interned = [⟨[97], ⟨8⟩⟩, ⟨[97], ⟨8⟩⟩] ∧ s.Coherent := by
  have history : ((StringPool.construct false 4096 (fun _ => 255) 4096).bind fun pool =>
      (Schedule.run (InternTable.step ⟨fun _ => 1, 1, by decide⟩) (initial pool) rivals).map
        InternTable.interned) = some [⟨[97], ⟨8⟩⟩, ⟨[97], ⟨8⟩⟩] := by decide +kernel
  obtain ⟨pool, constructed, history⟩ := Option.bind_eq_some_iff.mp history
  obtain ⟨s, reached, interned⟩ := Option.map_eq_some_iff.mp history
  exact ⟨pool, s, constructed, reached, interned, coherent_of_run constructed reached⟩

end InternTable

end Fpag.Str
