import Fpag.Str.InternFull
import Mathlib.Data.Finset.Card

/-!
The size that `InternTable::reserve` gives a table, and the names it then holds.

`reserve` takes four slots for every three names and rounds to a power of two. It divides
first, so the names left over by the division get no slot of their own; the rounding makes up
for them except for two names, which get one slot, and for five, which get four. With at least
as many slots as names, a walk that has covered every slot has met every name, its own among
them, so no `try_intern` reports a full table (`reserves_iff`).
-/

namespace Fpag.Str.InternTable

open Fpag.Base

variable {ι : Type} {w : Nat} {shape : Shape} {s s' : InternTable ι} {t u : ι}
  {content : List UInt8} {names : List (List UInt8)}

/-! ## Sizing -/

/-- `DEFAULT_NAMES`. -/
def defaultNames (w : Nat) : BitVec w :=
  if w = 64 then BitVec.ofNat w (2 ^ 24) else BitVec.ofNat w (2 ^ 20)

/-- `SLOT_BYTES`. -/
def slotBytes : Nat := 5

/-- `LOAD_NUMERATOR`. -/
def loadNumerator : Nat := 4

/-- `LOAD_DENOMINATOR`. -/
def loadDenominator : Nat := 3

/-- `MAX_SLOTS`. -/
def maxSlots : Nat := 2 ^ 30

/-- `MAX_NAMES`. -/
def maxNames : Nat := maxSlots / loadNumerator * loadDenominator

/-- What `reserve` sets: `slots_` and `region_bytes_`. -/
structure Region (w : Nat) : Type where
  slots : BitVec w
  regionBytes : BitVec w
  deriving DecidableEq

/-- `InternTable::reserve`; `mapped` tells whether `allocate_pages` maps so many bytes. A failed
check ends the process. -/
def reserve (pageSize : BitVec w) (mapped : BitVec w → Bool) (names : BitVec w) :
    Option (Region w) :=
  let wanted := if names = 0 then defaultNames w else names
  if wanted ≤ BitVec.ofNat w maxNames then
    let slots := nextPowerOfTwo
      (wanted / BitVec.ofNat w loadDenominator * BitVec.ofNat w loadNumerator)
    if slots ≤ BitVec.allOnes w / BitVec.ofNat w slotBytes then
      let regionBytes := roundUp (slots * BitVec.ofNat w slotBytes) pageSize
      if mapped regionBytes then some ⟨slots, regionBytes⟩ else none
    else none
  else none

/-! ## Room -/

/-- A pool that threads may have appended to, with none of them in an append. -/
def Rests [DecidableEq ι] (pool : StringPool ι) : Prop :=
  ∃ u pageSize pages capacity fresh es,
    StringPool.construct u pageSize pages capacity = some fresh ∧
      Schedule.run StringPool.step fresh es = some pool ∧ ∀ t, pool.appenders t = .idle

/-- The events in which a thread begins to intern only one of the names. -/
def Asks (names : List (List UInt8)) (e : TableEvent ι) (_ : InternTable ι) : Prop :=
  ∀ content ∈ e.action.asked, content ∈ names

/-- As `Asks`, and only a name that no thread is interning at the moment. -/
def AsksAlone (names : List (List UInt8)) (e : TableEvent ι) (s : InternTable ι) : Prop :=
  ∀ content ∈ e.action.asked, content ∈ names ∧ ∀ u, (s.walkers u).call ≠ some content

instance (e : TableEvent ι) (s : InternTable ι) : Decidable (Asks names e s) :=
  inferInstanceAs (Decidable (∀ content ∈ e.action.asked, content ∈ names))

instance [Fintype ι] (e : TableEvent ι) (s : InternTable ι) : Decidable (AsksAlone names e s) :=
  inferInstanceAs (Decidable (∀ content ∈ e.action.asked,
    content ∈ names ∧ ∀ u, (s.walkers u).call ≠ some content))

/-- A table of `slots` slots has room for `n` names: whatever its hash, whichever `n` different
names the threads intern, in whatever order and as often as they like, as long as no two intern
one name at once, no `try_intern` returns nothing. -/
def HasRoom (slots n : Nat) : Prop :=
  ∀ (ι : Type) [DecidableEq ι] (shape : Shape) (pool : StringPool ι) (names : List (List UInt8))
    [∀ (e : TableEvent ι) (s : InternTable ι), Decidable (AsksAlone names e s)]
    (es : List (TableEvent ι)) (s s' : InternTable ι) (t : ι) (content : List UInt8) (ok : Bool),
    2 ^ shape.bits = slots → Rests pool → names.Nodup → names.length = n →
    Schedule.run (Schedule.guarded (AsksAlone names) (InternTable.step shape)) (initial pool) es
      = some s →
    InternTable.step shape ⟨t, .go ok⟩ s = some s' → ¬ ReturnsNothing t content s s'

/-- After `reserve(n)` the slot count is a power of two and at least `n`. -/
def Sized (n : BitVec w) : Prop :=
  ∀ pageSize mapped region, reserve pageSize mapped n = some region →
    (∃ k, region.slots.toNat = 2 ^ k) ∧ n.toNat ≤ region.slots.toNat

/-- After `reserve(n)` the table has room for `n` names. -/
def Roomy (n : BitVec w) : Prop :=
  ∀ pageSize mapped region, reserve pageSize mapped n = some region →
    HasRoom region.slots.toNat n.toNat

/-! ## Names and slots -/

/-- Every name in the table, and every name a thread is interning, is one of these. -/
structure Within (names : List (List UInt8)) (s : InternTable ι) : Prop where
  occupants : ∀ i content, s.occupants i = some content → content ∈ names
  calls : ∀ t content, (s.walkers t).call = some content → content ∈ names

/-- No two threads intern one name, and a slot that is claimed is the claim of a thread. -/
structure Alone (s : InternTable ι) : Prop where
  apart : ∀ t u content, (s.walkers t).call = some content → (s.walkers u).call = some content →
    t = u
  held : ∀ i, s.control i = claimedControl → ∃ t content index,
    (s.walkers t).claim = some (content, index) ∧ index.toNat = i

theorem call_of_claim {state : Walker} {index : BitVec 32}
    (claim : state.claim = some (content, index)) : state.call = some content := by
  cases state <;> cases claim <;> rfl

/-- A thread other than the one that moves stays where it is. -/
theorem walkers_change [DecidableEq ι] {r : InternTable ι} (walkers : r.walkers = s.walkers)
    (t : ι) (state : Walker) (u : ι) :
    (u = t ∧ (r.setWalker t state).walkers u = state) ∨
      (u ≠ t ∧ (r.setWalker t state).walkers u = s.walkers u) := by
  by_cases mine : u = t
  · subst mine
    exact Or.inl ⟨rfl, setWalker_self⟩
  · refine Or.inr ⟨mine, ?_⟩
    rw [setWalker_of_ne mine, walkers]

theorem Within.step [DecidableEq ι] (within : Within names s) {e : TableEvent ι}
    (asks : Asks names e s) (h : InternTable.step shape e s = some s') : Within names s' := by
  obtain ⟨r, state, rfl, walkers, change, calls⟩ := step_change h
  refine ⟨fun i name occupant => ?_, fun u name call => ?_⟩
  · change r.occupants i = some name at occupant
    cases change with
    | keeps _ same _ =>
        rw [same] at occupant
        exact within.occupants i name occupant
    | claims content index at_ _ _ occupants _ =>
        rw [occupants] at occupant
        by_cases here : i = index.toNat
        · rw [here, Function.update_self] at occupant
          cases occupant
          exact within.calls e.thread name (by rw [at_]; rfl)
        · rw [Function.update_of_ne here] at occupant
          exact within.occupants i name occupant
    | publishes _ _ _ _ same =>
        rw [same] at occupant
        exact within.occupants i name occupant
  · obtain ⟨-, here⟩ | ⟨-, away⟩ := walkers_change walkers e.thread state u
    · rw [here] at call
      obtain none | same | asked := calls
      · rw [none] at call
        cases call
      · exact within.calls e.thread name (same.symm.trans call)
      · exact asks name (asked.symm.trans call)
    · rw [away] at call
      exact within.calls u name call

theorem Alone.step [DecidableEq ι] (alone : Alone s) {e : TableEvent ι}
    (asks : AsksAlone names e s) (h : InternTable.step shape e s = some s') : Alone s' := by
  obtain ⟨r, state, rfl, walkers, change, calls⟩ := step_change h
  have spot := fun u => walkers_change walkers e.thread state u
  -- The name the moving thread is in afterwards is in no other thread's call.
  have only : ∀ u name, u ≠ e.thread → state.call = some name →
      (s.walkers u).call ≠ some name := by
    intro u name other mine theirs
    obtain none | same | asked := calls
    · rw [none] at mine
      cases mine
    · exact other (alone.apart u e.thread name theirs (same.symm.trans mine))
    · exact (asks name (asked.symm.trans mine)).2 u theirs
  refine ⟨fun u v name hu hv => ?_, fun i claimed => ?_⟩
  · obtain ⟨rfl, hereU⟩ | ⟨otherU, awayU⟩ := spot u
    · obtain ⟨rfl, -⟩ | ⟨otherV, awayV⟩ := spot v
      · rfl
      · rw [hereU] at hu
        rw [awayV] at hv
        exact absurd hv (only v name otherV hu)
    · obtain ⟨rfl, hereV⟩ | ⟨-, awayV⟩ := spot v
      · rw [awayU] at hu
        rw [hereV] at hv
        exact absurd hu (only u name otherU hv)
      · rw [awayU] at hu
        rw [awayV] at hv
        exact alone.apart u v name hu hv
  · change r.control i = claimedControl at claimed
    -- A slot that was claimed before is still the claim of a thread, if it was not the mover's.
    have still : s.control i = claimedControl →
        (∀ name index, (s.walkers e.thread).claim = some (name, index) → index.toNat = i →
          state.claim = some (name, index)) →
        ∃ u name index, ((r.setWalker e.thread state).walkers u).claim = some (name, index) ∧
          index.toNat = i := by
      intro before keeps
      obtain ⟨u, name, index, claim, at_⟩ := alone.held i before
      obtain ⟨rfl, here⟩ | ⟨-, away⟩ := spot u
      · exact ⟨e.thread, name, index, by rw [here]; exact keeps name index claim at_, at_⟩
      · exact ⟨u, name, index, by rw [away]; exact claim, at_⟩
    cases change with
    | keeps control _ claim =>
        rw [control] at claimed
        exact still claimed fun name index mine _ => claim.trans mine
    | claims content index at_ _ control _ claim =>
        by_cases here : i = index.toNat
        · exact ⟨e.thread, content, index, by rw [setWalker_self]; exact claim, here.symm⟩
        · rw [control, Function.update_of_ne here] at claimed
          refine still claimed fun name other mine _ => ?_
          rw [at_] at mine
          cases mine
    | publishes content index claim control _ =>
        by_cases here : i = index.toNat
        · rw [control, here, Function.update_self] at claimed
          exact absurd claimed (published_ne_claimed _)
        · rw [control, Function.update_of_ne here] at claimed
          refine still claimed fun name other mine at_ => ?_
          rw [claim] at mine
          cases mine
          exact absurd at_.symm here

/-- A thread that is walking for a name meets no slot that is claimed for it: the claim would be
another call's. -/
theorem Alone.not_awaits (alone : Alone s) (inv : s.Inv shape) : s.awaits t content = false := by
  by_contra waits
  obtain ⟨index, step, claimed, at_, control, occupant⟩ :=
    awaits_iff.mp ((Bool.not_eq_false _).mp waits)
  obtain ⟨u, name, other, claim, same⟩ := alone.held _ control
  have holds := ((inv.walkers u).claims claim).2
  rw [same, occupant] at holds
  cases holds
  have mine : u = t := alone.apart u t content (call_of_claim claim) (by rw [at_]; rfl)
  rw [mine, at_] at claim
  cases claim

/-- Slots that are all taken by different names are no more than the names. -/
theorem TableOk.slots_le (table : s.TableOk shape) {among : Finset (List UInt8)}
    (full : ∀ i, i < 2 ^ shape.bits → ∃ name ∈ among, s.occupants i = some name) :
    2 ^ shape.bits ≤ among.card := by
  have slots := Finset.card_range (2 ^ shape.bits)
  rw [← slots]
  refine Finset.card_le_card_of_injOn (fun i => (s.occupants i).getD []) (fun i inside => ?_)
    (fun i insideI j insideJ same => ?_)
  · obtain ⟨name, member, occupant⟩ := full i (Finset.mem_range.mp inside)
    simp only [occupant, Option.getD_some]
    exact member
  · obtain ⟨nameI, -, occupantI⟩ := full i (Finset.mem_range.mp insideI)
    obtain ⟨nameJ, -, occupantJ⟩ := full j (Finset.mem_range.mp insideJ)
    simp only [occupantI, occupantJ, Option.getD_some] at same
    rw [← same] at occupantJ
    exact table.unique i j nameI occupantI occupantJ

/-! ## Walks that cover every slot -/

theorem Rests.inv [DecidableEq ι] {pool : StringPool ι} (rests : Rests pool) :
    (initial pool).Inv shape := by
  obtain ⟨u, pageSize, pages, capacity, fresh, es, constructed, appended, idle⟩ := rests
  exact inv_initial (Schedule.run_invariant (fun h inv => StringPool.Inv.step inv h) appended
    (StringPool.inv_construct constructed)) idle

theorem within_initial {pool : StringPool ι} : Within names (initial pool) :=
  ⟨(fun i content h => by cases h), (fun t content h => by cases h)⟩

theorem alone_initial {pool : StringPool ι} : Alone (initial pool) :=
  ⟨(fun t u content h => by cases h), (fun i h => by cases h)⟩

theorem ReturnsNothing.call (nothing : ReturnsNothing t content s s') :
    (s.walkers t).call = some content := by
  obtain ⟨index, step, claimed, at_⟩ := nothing.walks
  rw [at_]
  rfl

/-- A `try_intern` that returns nothing has seen every slot taken. -/
theorem Inv.taken_of_last [DecidableEq ι] {ok : Bool} (inv : s.Inv shape)
    (nothing : ReturnsNothing t content s s')
    (returns : InternTable.step shape ⟨t, .go ok⟩ s = some s') (i : Nat)
    (inside : i < 2 ^ shape.bits) : s.control i ≠ emptyControl := by
  obtain ⟨index, step, claimed, at_, look, last⟩ := nothing.last_slot returns
  rw [BitVec.le_def, inv.toNat_step_add_one at_, shape.toNat_mask] at last
  have known := inv.walkers t
  rw [at_] at known
  obtain ⟨-, -, here, -, busy, -⟩ := known
  obtain ⟨j, below, rfl⟩ := shape.exists_slot content inside
  rcases Nat.lt_or_ge j step.toNat with before | after
  · exact busy j before
  · obtain rfl : j = step.toNat := by omega
    rw [← here]
    rcases inv.table.look_cases content index with ⟨id, seen, -⟩ | ⟨seen, -⟩ | ⟨-, held⟩ |
      ⟨-, name, -, occupant, -⟩
    · simp [seen] at look
    · simp [seen] at look
    · rw [held]
      decide
    · intro empty
      rw [(inv.table.free _).mp empty] at occupant
      cases occupant

/-- A table of at least as many slots as there are names reports no full table to calls that are
alone with their names. -/
theorem hasRoom_of_le {slots n : Nat} (enough : n ≤ slots) : HasRoom slots n := by
  intro ι _ shape pool names _ es s s' t content ok size rests different count reached returns
    nothing
  obtain ⟨inv, within, alone, covered⟩ := Schedule.run_invariant
    (I := fun s => s.Inv shape ∧ Within names s ∧ Alone s ∧ Covered shape t content s)
    (fun h inv => by
      obtain ⟨inv, within, alone, covered⟩ := inv
      obtain ⟨asks, moved⟩ := Schedule.guarded_eq_some.mp h
      exact ⟨inv.step moved, within.step (fun name asked => (asks name asked).1) moved,
        alone.step asks moved, covered.step inv (fun _ => alone.not_awaits inv) moved⟩)
    reached ⟨rests.inv, within_initial, alone_initial, fun index step claimed at_ => by cases at_⟩
  have full := inv.full_of_covered covered (alone.not_awaits inv) returns nothing
  have member : content ∈ names.toFinset :=
    List.mem_toFinset.mpr (within.calls t content nothing.call)
  have others : 2 ^ shape.bits ≤ (names.toFinset.erase content).card := by
    refine inv.table.slots_le fun i inside => ?_
    obtain ⟨-, name, ne, occupant⟩ := full i inside
    have among := List.mem_toFinset.mpr (within.occupants i name occupant)
    exact ⟨name, Finset.mem_erase.mpr ⟨ne, among⟩, occupant⟩
  have some_ := Finset.card_pos.mpr ⟨content, member⟩
  rw [Finset.card_erase_of_mem member] at others
  rw [List.toFinset_card_of_nodup different] at others some_
  omega

/-- With more slots than names there is always a free one, and no `try_intern` reports a full
table, whatever the calls that race for one name. -/
theorem not_returnsNothing_of_lt [DecidableEq ι] {pool : StringPool ι} {es : List (TableEvent ι)}
    {ok : Bool} (spare : names.length < 2 ^ shape.bits) (rests : Rests pool)
    (reached : Schedule.run (Schedule.guarded (Asks names) (InternTable.step shape)) (initial pool)
      es = some s)
    (returns : InternTable.step shape ⟨t, .go ok⟩ s = some s') :
    ¬ ReturnsNothing t content s s' := by
  intro nothing
  obtain ⟨inv, within⟩ := Schedule.run_invariant
    (I := fun s => s.Inv shape ∧ Within names s)
    (fun h inv => by
      obtain ⟨asks, moved⟩ := Schedule.guarded_eq_some.mp h
      exact ⟨inv.1.step moved, inv.2.step asks moved⟩)
    reached ⟨rests.inv, within_initial⟩
  have taken := inv.taken_of_last nothing returns
  have few : 2 ^ shape.bits ≤ names.toFinset.card := by
    refine inv.table.slots_le fun i inside => ?_
    obtain ⟨name, occupant⟩ := Option.ne_none_iff_exists'.mp
      (mt (inv.table.free i).mpr (taken i inside))
    exact ⟨name, List.mem_toFinset.mpr (within.occupants i name occupant), occupant⟩
  have := names.toFinset_card_le
  omega

/-! ## How many slots there are -/

/-- Four slots for every three names, which is more than the word holds for no number of names. -/
theorem toNat_slotsFor (word : w = 32 ∨ w = 64) {wanted : BitVec w}
    (few : wanted ≤ BitVec.ofNat w maxNames) :
    (wanted / BitVec.ofNat w loadDenominator * BitVec.ofNat w loadNumerator).toNat
        = wanted.toNat / 3 * 4 ∧ wanted.toNat / 3 * 4 ≤ 2 ^ 30 := by
  have limit : maxNames = 805306368 := by decide
  rw [BitVec.le_def, limit] at few
  have three : loadDenominator = 3 := rfl
  have four : loadNumerator = 4 := rfl
  rw [BitVec.toNat_mul, BitVec.toNat_udiv, three, four]
  rcases word with rfl | rfl
  · simp only [BitVec.toNat_ofNat, Nat.reducePow, Nat.reduceMod] at few ⊢
    omega
  · simp only [BitVec.toNat_ofNat, Nat.reducePow, Nat.reduceMod] at few ⊢
    omega

/-- The slot count is the least power of two that gives four slots to every three names. -/
theorem reserve_slots (word : w = 32 ∨ w = 64) {pageSize : BitVec w} {mapped : BitVec w → Bool}
    {n : BitVec w} {region : Region w} (named : n ≠ 0)
    (reserved : reserve pageSize mapped n = some region) :
    ∃ k, region.slots.toNat = 2 ^ k ∧ n.toNat / 3 * 4 ≤ 2 ^ k ∧
      ∀ m, n.toNat / 3 * 4 ≤ 2 ^ m → k ≤ m := by
  simp only [reserve, if_neg named] at reserved
  split at reserved
  · next few =>
      obtain ⟨exact_, small⟩ := toNat_slotsFor word few
      have width : 0 < w ∧ w ≤ 64 ∧ 30 ≤ w - 1 := by omega
      have fits := small.trans (Nat.pow_le_pow_right Nat.two_pos width.2.2)
      rw [← exact_] at fits
      have spec := nextPowerOfTwo_spec width.1 width.2.1 fits
      rw [exact_] at spec
      split at reserved
      · split at reserved
        · cases reserved
          exact spec
        · cases reserved
      · cases reserved
  · cases reserved

/-- The names that the division leaves over find room by the rounding, except the two of two
names and of five. -/
theorem le_slots_iff {n k : Nat} (some_ : n ≠ 0) (reaches : n / 3 * 4 ≤ 2 ^ k)
    (least : ∀ m, n / 3 * 4 ≤ 2 ^ m → k ≤ m) : n ≤ 2 ^ k ↔ n ≠ 2 ∧ n ≠ 5 := by
  have positive := Nat.two_pow_pos k
  constructor
  · rintro enough
    refine ⟨?_, ?_⟩
    · rintro rfl
      have zero : k ≤ 0 := least 0 (by decide)
      obtain rfl := Nat.le_zero.mp zero
      exact absurd enough (by decide)
    · rintro rfl
      have two : k ≤ 2 := least 2 (by decide)
      have small : 2 ^ k ≤ 2 ^ 2 := Nat.pow_le_pow_right Nat.two_pos two
      omega
  · rintro ⟨notTwo, notFive⟩
    omega

/-- On 64-bit words `reserve` returns for every number of names up to `MAX_NAMES`, when the pages
are mapped. -/
theorem reserve_returns {pageSize : BitVec 64} {mapped : BitVec 64 → Bool} {n : BitVec 64}
    (named : n ≠ 0) (few : n.toNat ≤ maxNames) (maps : ∀ bytes, mapped bytes = true) :
    ∃ region, reserve pageSize mapped n = some region := by
  have limit : maxNames = 805306368 := by decide
  have below : n ≤ BitVec.ofNat 64 maxNames := by
    rw [BitVec.le_def, BitVec.toNat_ofNat]
    omega
  obtain ⟨exact_, small⟩ := toNat_slotsFor (Or.inr rfl) below
  have fits : n.toNat / 3 * 4 ≤ 2 ^ 63 := small.trans (by decide)
  rw [← exact_] at fits small
  obtain ⟨k, slots, -, least⟩ := nextPowerOfTwo_spec (by decide) (by decide) fits
  have short : 2 ^ k ≤ 2 ^ 30 := Nat.pow_le_pow_right Nat.two_pos (least 30 small)
  have room : nextPowerOfTwo (n / BitVec.ofNat 64 loadDenominator * BitVec.ofNat 64 loadNumerator)
      ≤ BitVec.allOnes 64 / BitVec.ofNat 64 slotBytes := by
    rw [BitVec.le_def, slots]
    exact short.trans (by decide)
  rw [← Option.isSome_iff_exists]
  simp only [reserve, if_neg named, if_pos below, if_pos room, if_pos (maps _), Option.isSome_some]

/-! ## Names without a slot -/

/-- A table in which the home of a one-letter name is the letter. -/
def byLetter (bits : Nat) (bits_lt : bits < 32) : Shape :=
  ⟨fun name => BitVec.ofNat 64 (name.headD 0).toNat, bits, bits_lt⟩

/-- One thread interns one-letter names, one after the other, each into a free slot. -/
def inTurn (names : List UInt8) : List (TableEvent Unit) :=
  names.flatMap fun name => ⟨(), .intern (letter name)⟩ :: List.replicate 15 ⟨(), .go true⟩

/-- The thread asks for a name, and its walk stands before the last of the slots. -/
def lastWalk (slots : Nat) (name : UInt8) : List (TableEvent Unit) :=
  ⟨(), .intern (letter name)⟩ :: List.replicate (slots - 1) ⟨(), .go true⟩

/-- A run in which the last of the names gets nothing. -/
theorem not_hasRoom_of_history (bits : Nat) (bits_lt : bits < 32) (before : List UInt8)
    (last : UInt8) (different : (before ++ [last]).Nodup)
    (history : ((StringPool.construct () 4096 (fun _ => 255) 4096).bind fun pool =>
      (Schedule.run (Schedule.guarded (AsksAlone ((before ++ [last]).map fun name => [name]))
        (InternTable.step (byLetter bits bits_lt))) (initial pool)
          (inTurn before ++ lastWalk (2 ^ bits) last)).bind fun s =>
        (InternTable.step (byLetter bits bits_lt) ⟨(), .go true⟩ s).map fun s' =>
          (s.walkers (), s'.walkers (), decide (s'.interned = s.interned))) =
      some (.walking .intern [last] (byLetter bits bits_lt).mask (byLetter bits bits_lt).mask
        false, .idle, true)) :
    ¬ HasRoom (2 ^ bits) (before.length + 1) := by
  intro room
  obtain ⟨pool, constructed, history⟩ := Option.bind_eq_some_iff.mp history
  obtain ⟨s, reached, history⟩ := Option.bind_eq_some_iff.mp history
  obtain ⟨s', returns, seen⟩ := Option.map_eq_some_iff.mp history
  simp only [Prod.mk.injEq] at seen
  obtain ⟨walks, stops, silent⟩ := seen
  refine room Unit (byLetter bits bits_lt) pool _ _ s s' () [last] true rfl
    ⟨(), 4096, _, 4096, pool, [], constructed, rfl, StringPool.idle_of_construct constructed⟩
    (different.map fun _ _ same => List.head_eq_of_cons_eq same) (by simp) reached returns
    ⟨⟨_, _, _, walks⟩, stops, of_decide_eq_true silent⟩

theorem not_hasRoom_one_two : ¬ HasRoom 1 2 :=
  not_hasRoom_of_history 0 (by decide) [97] 98 (by decide) (by decide +kernel)

theorem not_hasRoom_four_five : ¬ HasRoom 4 5 :=
  not_hasRoom_of_history 2 (by decide) [96, 97, 98, 99] 100 (by decide) (by decide +kernel)

/-! ## When there is room -/

/-- For two names and for five there is no room. -/
theorem not_hasRoom_of_odd {n k : Nat} (odd : ¬ (n ≠ 2 ∧ n ≠ 5)) (reaches : n / 3 * 4 ≤ 2 ^ k)
    (least : ∀ m, n / 3 * 4 ≤ 2 ^ m → k ≤ m) : ¬ HasRoom (2 ^ k) n := by
  have two_or_five : n = 2 ∨ n = 5 := by omega
  rcases two_or_five with rfl | rfl
  · obtain rfl := Nat.le_zero.mp (least 0 (by decide))
    exact not_hasRoom_one_two
  · obtain rfl : k = 2 := by
      have large : ¬ k ≤ 1 := by
        intro small
        have := reaches.trans (Nat.pow_le_pow_right Nat.two_pos small)
        omega
      have := least 2 (by decide)
      omega
    exact not_hasRoom_four_five

/-- `reserve(n)` makes the table large enough for `n` names, and `n` names find room in it,
exactly when `n` is neither two nor five. -/
theorem reserves_iff (word : w = 32 ∨ w = 64) {n : BitVec w} (named : n ≠ 0) :
    (Sized n ↔ n.toNat ≠ 2 ∧ n.toNat ≠ 5) ∧ (Roomy n ↔ n.toNat ≠ 2 ∧ n.toNat ≠ 5) := by
  have some_ : n.toNat ≠ 0 := by
    intro zero
    exact named (BitVec.eq_of_toNat_eq (by simpa using zero))
  have returns : ¬ (n.toNat ≠ 2 ∧ n.toNat ≠ 5) →
      ∃ region, reserve 0 (fun _ => true) n = some region := by
    intro odd
    have two_or_five : n = BitVec.ofNat w 2 ∨ n = BitVec.ofNat w 5 := by
      have small : n.toNat = 2 ∨ n.toNat = 5 := by omega
      rcases small with two | five
      · exact Or.inl (by rw [← two, BitVec.ofNat_toNat, BitVec.setWidth_eq])
      · exact Or.inr (by rw [← five, BitVec.ofNat_toNat, BitVec.setWidth_eq])
    rw [← Option.isSome_iff_exists]
    rcases word with rfl | rfl <;> rcases two_or_five with rfl | rfl <;> decide
  have enough : n.toNat ≠ 2 ∧ n.toNat ≠ 5 → Sized n := by
    intro even pageSize mapped region reserved
    obtain ⟨k, slots, reaches, least⟩ := reserve_slots word named reserved
    rw [slots]
    exact ⟨⟨k, rfl⟩, (le_slots_iff some_ reaches least).mpr even⟩
  refine ⟨⟨fun sized => ?_, enough⟩, ⟨fun roomy => ?_, fun even => ?_⟩⟩
  · by_contra odd
    obtain ⟨region, reserved⟩ := returns odd
    obtain ⟨k, slots, reaches, least⟩ := reserve_slots word named reserved
    have reached := (sized _ _ region reserved).2
    rw [slots, le_slots_iff some_ reaches least] at reached
    exact odd reached
  · by_contra odd
    obtain ⟨region, reserved⟩ := returns odd
    obtain ⟨k, slots, reaches, least⟩ := reserve_slots word named reserved
    have room := roomy _ _ region reserved
    rw [slots] at room
    exact not_hasRoom_of_odd odd reaches least room
  · intro pageSize mapped region reserved
    exact hasRoom_of_le (enough even pageSize mapped region reserved).2

theorem reserves_iff_three : Sized (3 : BitVec 64) ∧ Roomy (3 : BitVec 64) :=
  have counted := reserves_iff (Or.inr rfl) (n := (3 : BitVec 64)) (by decide)
  ⟨counted.1.mpr (by decide), counted.2.mpr (by decide)⟩

/-- Two names get one slot. -/
theorem not_roomy_two : ∃ region, reserve 4096 (fun _ => true) (2 : BitVec 64) = some region ∧
    region.slots.toNat < 2 ∧ ¬ HasRoom region.slots.toNat 2 :=
  ⟨⟨1, 4096⟩, by decide, by decide, not_hasRoom_one_two⟩

end Fpag.Str.InternTable
