import Fpag.Debug.UnitEncoding

/-!
`walk_legacy_ranges` and the range lists before version 5.

A list is a sequence of pairs of addresses, measured from a base that entries of their own
select, and ends with a pair of zeros. The walk takes the pairs as they are written: it reads a
new base and does not use it. It does not know the pair of zeros either, and ends at an address
of all ones but the last, so it goes on with whatever follows the list. `covers_legacy_iff`
says for which addresses this comes to the same.
-/

namespace Fpag.Debug

open Cursor Reader

/-! ## Lists -/

/-- An entry of a list in front of its end. -/
inductive LegacyItem : Type
  | pair (first last : Nat)
  | select (address : Nat)
  deriving DecidableEq

/-- The address that has all of its bits. -/
def allOnes (addressSize : Nat) : Nat := 256 ^ addressSize - 1

namespace LegacyItem

def bytes (addressSize : Nat) : LegacyItem → List UInt8
  | .pair first last => toBytes addressSize first ++ toBytes addressSize last
  | .select address => toBytes addressSize (allOnes addressSize) ++ toBytes addressSize address

/-- The addresses fit, and a pair is neither the end of the list nor the selection of a base. -/
def WellFormed (addressSize : Nat) : LegacyItem → Prop
  | .pair first last => first < allOnes addressSize ∧ last < 256 ^ addressSize ∧
      ¬ (first = 0 ∧ last = 0)
  | .select address => address < 256 ^ addressSize

end LegacyItem

/-- A list with its end. -/
def legacyBytes (addressSize : Nat) (items : List LegacyItem) : List UInt8 :=
  items.flatMap (LegacyItem.bytes addressSize) ++ (toBytes addressSize 0 ++ toBytes addressSize 0)

/-- The address is in a pair of the list, measured from the base that is selected there. -/
def Covered (linkAddress : Nat) : Nat → List LegacyItem → Prop
  | _, [] => False
  | base, .pair first last :: items =>
      (base + first ≤ linkAddress ∧ linkAddress < base + last) ∨ Covered linkAddress base items
  | _, .select base :: items => Covered linkAddress base items

/-- The address is in a pair as it is written, in front of the first one that begins with all
ones but the last. -/
def Written (addressSize linkAddress : Nat) : List LegacyItem → Prop
  | [] => False
  | .pair first last :: items => first ≠ allOnes addressSize - 1 ∧
      ((first ≤ linkAddress ∧ linkAddress < last) ∨ Written addressSize linkAddress items)
  | .select _ :: items => Written addressSize linkAddress items

/-- A pair of the list begins with all ones but the last. -/
def Cut (addressSize : Nat) (items : List LegacyItem) : Prop :=
  ∃ last, .pair (allOnes addressSize - 1) last ∈ items

instance decidableWritten (addressSize linkAddress : Nat) :
    (items : List LegacyItem) → Decidable (Written addressSize linkAddress items)
  | [] => .isFalse id
  | .pair first last :: items =>
      have := decidableWritten addressSize linkAddress items
      inferInstanceAs (Decidable (first ≠ allOnes addressSize - 1 ∧
        ((first ≤ linkAddress ∧ linkAddress < last) ∨ Written addressSize linkAddress items)))
  | .select _ :: items => decidableWritten addressSize linkAddress items

/-! ## The walk of a list -/

section Walk

variable {addressSize linkAddress : Nat} {items : List LegacyItem} {c : Cursor}
  {rest : List UInt8}

/-- The address sizes that there are. -/
def Wide (addressSize : Nat) : Prop := addressSize = 4 ∨ addressSize = 8

theorem Wide.bounds (wide : Wide addressSize) :
    0 < addressSize ∧ addressSize ≤ 8 ∧ 1 < allOnes addressSize ∧
      allOnes addressSize + 1 = 256 ^ addressSize := by
  rcases wide with rfl | rfl
  · decide
  · decide

theorem readLegacyEntry_eq (wide : Wide addressSize) : readLegacyEntry addressSize = (do
    let start ← fixed addressSize
    if start = allOnes addressSize then do
      pure (.base (← fixed addressSize))
    else if start = allOnes addressSize - 1 then pure .stop
    else do
      let stop ← fixed addressSize
      pure (.range start stop)) := by
  rcases wide with rfl | rfl
  · rfl
  · rfl

/-- An address is read back. -/
theorem Wide.reads (wide : Wide addressSize) {address : Nat} (small : address < 256 ^ addressSize) :
    Reads (fixed addressSize) (toBytes addressSize address) address :=
  .fixed wide.bounds.1 wide.bounds.2.1 small

theorem readLegacyEntry_pair (wide : Wide addressSize) {first last : Nat}
    (small : first < allOnes addressSize) (small' : last < 256 ^ addressSize)
    (goes : first ≠ allOnes addressSize - 1) :
    Reads (readLegacyEntry addressSize) ((LegacyItem.pair first last).bytes addressSize)
      (.range first last) := by
  have bounds := wide.bounds
  have fits : first < 256 ^ addressSize := by omega
  rw [readLegacyEntry_eq wide]
  refine (wide.reads fits).bind ?_
  rw [if_neg (ne_of_lt small), if_neg goes]
  exact (wide.reads small').bind_pure (.pure _)

theorem readLegacyEntry_cut (wide : Wide addressSize) :
    Reads (readLegacyEntry addressSize) (toBytes addressSize (allOnes addressSize - 1)) .stop := by
  have bounds := wide.bounds
  have fits : allOnes addressSize - 1 < 256 ^ addressSize := by omega
  rw [readLegacyEntry_eq wide]
  refine (wide.reads fits).bind_pure ?_
  rw [if_neg (by omega), if_pos rfl]
  exact .pure _

theorem readLegacyEntry_select (wide : Wide addressSize) {address : Nat}
    (small : address < 256 ^ addressSize) :
    Reads (readLegacyEntry addressSize) ((LegacyItem.select address).bytes addressSize)
      (.base address) := by
  have bounds := wide.bounds
  have fits : allOnes addressSize < 256 ^ addressSize := by omega
  rw [readLegacyEntry_eq wide]
  refine (wide.reads fits).bind ?_
  rw [if_pos rfl]
  exact (wide.reads small).bind_pure (.pure _)

/-- The walk in search of an address, with what is left of its turns. -/
abbrev search (addressSize linkAddress fuel base : Nat) : Reader Cursor Bool :=
  walkEntries (fun _ => readLegacyEntry addressSize) (misses linkAddress) fuel base

theorem misses_eq_true {start stop : Nat} :
    misses linkAddress start stop = true ↔ ¬ (start ≤ linkAddress ∧ linkAddress < stop) := by
  simp only [misses, Bool.not_eq_true', Bool.and_eq_false_iff, decide_eq_false_iff_not]
  exact not_and_or.symm

/-- One turn over a pair. -/
theorem search_pair (wide : Wide addressSize) {first last fuel base : Nat}
    (small : first < allOnes addressSize) (small' : last < 256 ^ addressSize)
    (goes : first ≠ allOnes addressSize - 1)
    (ahead : c.Over ((LegacyItem.pair first last).bytes addressSize ++ rest)) :
    (search addressSize linkAddress (fuel + 1) base).run c =
      if first ≤ linkAddress ∧ linkAddress < last then
        .ok (true, c.advance ((LegacyItem.pair first last).bytes addressSize).length)
      else (search addressSize linkAddress fuel base).run
        (c.advance ((LegacyItem.pair first last).bytes addressSize).length) := by
  rw [search, walkEntries, (readLegacyEntry_pair wide small small' goes).run_bind ahead]
  dsimp only
  by_cases inside : first ≤ linkAddress ∧ linkAddress < last
  · rw [if_pos inside, if_neg (fun missed => misses_eq_true.mp missed inside)]
    rfl
  · rw [if_neg inside, if_pos (misses_eq_true.mpr inside)]

/-- The walk of a list finds an address that is written in it, ends where the list is cut, and
otherwise goes on behind it. -/
theorem search_items (wide : Wide addressSize)
    (wellFormed : ∀ item ∈ items, item.WellFormed addressSize) {fuel base : Nat}
    (ahead : c.Over (items.flatMap (LegacyItem.bytes addressSize) ++ rest)) :
    (Written addressSize linkAddress items → ∃ c',
      (search addressSize linkAddress (items.length + fuel) base).run c = .ok (true, c')) ∧
    (¬ Written addressSize linkAddress items → Cut addressSize items → ∃ c',
      (search addressSize linkAddress (items.length + fuel) base).run c = .ok (false, c')) ∧
    (¬ Written addressSize linkAddress items → ¬ Cut addressSize items → ∃ base',
      (search addressSize linkAddress (items.length + fuel) base).run c =
        (search addressSize linkAddress fuel base').run
          (c.advance (items.flatMap (LegacyItem.bytes addressSize)).length)) := by
  induction items generalizing c base with
  | nil =>
      refine ⟨fun none => none.elim, fun _ cut => ?_, fun _ _ => ⟨base, ?_⟩⟩
      · obtain ⟨last, member⟩ := cut
        cases member
      · rw [List.length_nil, Nat.zero_add]
        rfl
  | cons item items ih =>
      have there : c.Over (item.bytes addressSize ++
          (items.flatMap (LegacyItem.bytes addressSize) ++ rest)) := by
        rw [List.flatMap_cons, List.append_assoc] at ahead
        exact ahead
      have further (base : Nat) := @ih _
        (fun other member => wellFormed other (List.mem_cons_of_mem _ member)) base there.advance
      have length : (item :: items).length + fuel = items.length + fuel + 1 := by
        rw [List.length_cons]
        omega
      rw [length, List.flatMap_cons, List.length_append, ← advance_advance]
      have ok := wellFormed item List.mem_cons_self
      cases item with
      | select address =>
          have cut : Cut addressSize (.select address :: items) ↔ Cut addressSize items := by
            simp [Cut]
          have step : (search addressSize linkAddress (items.length + fuel + 1) base).run c =
              (search addressSize linkAddress (items.length + fuel) address).run
                (c.advance ((LegacyItem.select address).bytes addressSize).length) := by
            rw [search, walkEntries, (readLegacyEntry_select wide ok).run_bind there]
          rw [step, cut]
          exact further address
      | pair first last =>
          obtain ⟨small, small', -⟩ := ok
          by_cases stops : first = allOnes addressSize - 1
          · have ends : ∃ c',
                (search addressSize linkAddress (items.length + fuel + 1) base).run c =
                .ok (false, c') := by
              subst stops
              rw [LegacyItem.bytes, List.append_assoc] at there
              have run : (search addressSize linkAddress (items.length + fuel + 1) base).run c =
                  (pure false : Reader Cursor Bool).run
                    (c.advance (toBytes addressSize (allOnes addressSize - 1)).length) := by
                rw [search, walkEntries, (readLegacyEntry_cut wide).run_bind there]
              exact ⟨_, run⟩
            refine ⟨fun written => absurd stops written.1, fun _ _ => ends, fun _ uncut => ?_⟩
            exact absurd ⟨last, by rw [← stops]; exact List.mem_cons_self⟩ uncut
          · have cut : Cut addressSize (.pair first last :: items) ↔ Cut addressSize items := by
              constructor
              · rintro ⟨last', member⟩
                rcases List.mem_cons.mp member with same | member
                · cases same
                  exact absurd rfl stops
                · exact ⟨last', member⟩
              · rintro ⟨last', member⟩
                exact ⟨last', List.mem_cons_of_mem _ member⟩
            rw [search_pair wide small small' stops there, cut]
            by_cases inside : first ≤ linkAddress ∧ linkAddress < last
            · rw [if_pos inside]
              have written : Written addressSize linkAddress (.pair first last :: items) :=
                ⟨stops, .inl inside⟩
              exact ⟨fun _ => ⟨_, rfl⟩, fun unwritten => absurd written unwritten,
                fun unwritten => absurd written unwritten⟩
            · rw [if_neg inside]
              have written : Written addressSize linkAddress (.pair first last :: items) ↔
                  Written addressSize linkAddress items := by
                constructor
                · rintro ⟨-, here | later⟩
                  · exact absurd here inside
                  · exact later
                · intro later
                  exact ⟨stops, .inr later⟩
              rw [written]
              exact further base

/-- What an entry of any bytes can be: it is refused, it ends the walk, or it takes two addresses
from the section. -/
theorem readLegacyEntry_sound (wide : Wide addressSize) (sound : c.Sound) :
    (readLegacyEntry addressSize).run c = .error .refused ∨
      (∃ c', (readLegacyEntry addressSize).run c = .ok (.stop, c')) ∨
      ∃ entry c', (readLegacyEntry addressSize).run c = .ok (entry, c') ∧ c'.Sound ∧
        c'.size = c.size ∧ c.position < c'.position ∧
        ((∃ address, entry = .base address) ∨
          ∃ start stop, entry = .range start stop ∧ stop < 256 ^ addressSize) := by
  obtain ⟨pos, few, -, -⟩ := wide.bounds
  rw [readLegacyEntry_eq wide]
  by_cases first : c.position + addressSize ≤ c.size
  case neg => exact .inl (run_bind_error (sound.fixed_refused (Nat.not_le.mp first)))
  obtain ⟨start, -, run⟩ := sound.fixed_ok pos few first
  have sound₁ : (c.advance addressSize).Sound := (fixed_safe addressSize c sound).1 _ _ run
  rw [run_bind_eq run]
  by_cases stops : start ≠ allOnes addressSize ∧ start = allOnes addressSize - 1
  · rw [if_neg stops.1, if_pos stops.2]
    exact .inr (.inl ⟨_, rfl⟩)
  by_cases second : (c.advance addressSize).position + addressSize ≤ c.size
  case neg =>
    have refused := sound₁.fixed_refused (Nat.not_le.mp second)
    refine .inl ?_
    split
    · exact run_bind_error refused
    · next selects =>
        rw [if_neg fun last => stops ⟨selects, last⟩]
        exact run_bind_error refused
  obtain ⟨value, small, run'⟩ := sound₁.fixed_ok pos few second
  have sound₂ := (fixed_safe addressSize _ sound₁).1 _ _ run'
  refine .inr (.inr ?_)
  have further : c.position < ((c.advance addressSize).advance addressSize).position := by
    simp only [Cursor.advance]
    omega
  split
  · rw [run_bind_eq run']
    exact ⟨_, _, rfl, sound₂, rfl, further, .inl ⟨value, rfl⟩⟩
  · next selects =>
      rw [if_neg fun last => stops ⟨selects, last⟩, run_bind_eq run']
      exact ⟨_, _, rfl, sound₂, rfl, further, .inr ⟨start, value, rfl, small⟩⟩

/-- No pair contains an address that is not below the greatest one, so that a walk for it comes
to nothing, whatever it goes over. -/
theorem search_high (wide : Wide addressSize) (high : 256 ^ addressSize ≤ linkAddress + 1)
    (sound : c.Sound) {fuel base : Nat} (enough : c.size - c.position < fuel) :
    (search addressSize linkAddress fuel base).run c = .error .refused ∨
      ∃ c', (search addressSize linkAddress fuel base).run c = .ok (false, c') := by
  induction fuel generalizing c base with
  | zero => omega
  | succ fuel ih =>
      rw [search, walkEntries]
      rcases readLegacyEntry_sound wide sound with
        refused | ⟨c', stops⟩ | ⟨entry, c', run, sound', size, further, goesOn⟩
      · exact .inl (run_bind_error refused)
      · rw [run_bind_eq stops]
        exact .inr ⟨c', rfl⟩
      · have left : c'.size - c'.position < fuel := by
          have := sound'.inside
          omega
        rw [run_bind_eq run]
        rcases goesOn with ⟨address, rfl⟩ | ⟨start, stop, rfl, small⟩
        · exact ih sound' left
        · have missed : misses linkAddress start stop = true := misses_eq_true.mpr (by omega)
          simp only [missed, if_true]
          exact ih sound' left

end Walk

/-! ## The answer for a unit -/

/-- What the visitor has found when a walk is over. -/
def found (walk : Reader Cursor Bool) (c : Cursor) : Except Stop Bool := do
  let covered ← Reader.attempt walk c
  pure (covered.getD false)

theorem found_ok {walk : Reader Cursor Bool} {c c' : Cursor} {covered : Bool}
    (run : walk.run c = .ok (covered, c')) : found walk c = .ok covered := by
  simp only [found, Reader.attempt, run]
  rfl

theorem found_refused {walk : Reader Cursor Bool} {c : Cursor}
    (run : walk.run c = .error .refused) : found walk c = .ok false := by
  simp only [found, Reader.attempt, run]
  rfl

theorem found_congr {walk walk' : Reader Cursor Bool} {c c' : Cursor}
    (run : walk.run c = walk'.run c') : found walk c = found walk' c' := by
  simp only [found, Reader.attempt, run]

section Answer

variable {tables : Tables} {unit : CompilationUnit} {linkAddress : Nat} {items : List LegacyItem}
  {rest : List UInt8}

theorem Cursor.Over.sound {c : Cursor} {bytes : List UInt8} (ahead : c.Over bytes) : c.Sound := by
  obtain ⟨front, more, data, position, size, small⟩ := ahead
  refine ⟨.inr ⟨_, data, ?_⟩, small, by omega⟩
  simp only [List.length_append]
  omega

/-- An entry takes at least a byte. -/
theorem length_le_bytes (wide : Wide unit.addressSize) (items : List LegacyItem) :
    items.length ≤ (items.flatMap (LegacyItem.bytes unit.addressSize)).length := by
  have pos := wide.bounds.1
  induction items with
  | nil => exact Nat.zero_le _
  | cons item items ih =>
      have some : 0 < (item.bytes unit.addressSize).length := by
        cases item <;> simp only [LegacyItem.bytes, List.length_append, length_toBytes] <;> omega
      rw [List.flatMap_cons, List.length_append, List.length_cons]
      omega

variable (linkAddress) in
/-- The walk for a unit finds an address that is written in its list, ends where the list is cut,
and otherwise goes on with what follows the pair of zeros. -/
theorem unitCovers_legacy (ranged : unit.hasRanges = true) (legacy : unit.legacyRanges = true)
    (wide : Wide unit.addressSize)
    (wellFormed : ∀ item ∈ items, item.WellFormed unit.addressSize)
    (ahead : Cursor.Over ⟨tables.debugRanges.data, tables.debugRanges.size, unit.ranges⟩
      (legacyBytes unit.addressSize items ++ rest)) :
    (Written unit.addressSize linkAddress items → unitCovers tables unit linkAddress = .ok true) ∧
    (¬ Written unit.addressSize linkAddress items → Cut unit.addressSize items →
      unitCovers tables unit linkAddress = .ok false) ∧
    (¬ Written unit.addressSize linkAddress items → ¬ Cut unit.addressSize items →
      ∃ c fuel base, c.Over rest ∧ rest.length < fuel ∧
        unitCovers tables unit linkAddress =
          found (search unit.addressSize linkAddress fuel base) c) := by
  obtain ⟨pos, -, several, fits⟩ := wide.bounds
  have section_eq : rangeSection tables unit = tables.debugRanges := by
    rw [rangeSection, if_pos legacy]
  have sum : unit.ranges + _ = tables.debugRanges.size := ahead.position_add
  have long : (legacyBytes unit.addressSize items ++ rest).length =
      (items.flatMap (LegacyItem.bytes unit.addressSize)).length + 2 * unit.addressSize +
        rest.length := by
    simp only [legacyBytes, List.length_append, length_toBytes]
    omega
  have turnsEnough := length_le_bytes wide items
  -- What is left of the turns when the walk is at the pair of zeros.
  obtain ⟨fuel, enough, total⟩ : ∃ fuel, rest.length < fuel ∧
      tables.debugRanges.size - unit.ranges + 1 = items.length + (fuel + 1) := by
    refine ⟨tables.debugRanges.size - unit.ranges - items.length, ?_, ?_⟩ <;> omega
  have answer : unitCovers tables unit linkAddress =
      found (search unit.addressSize linkAddress (items.length + (fuel + 1)) unit.lowPc)
        ⟨tables.debugRanges.data, tables.debugRanges.size, unit.ranges⟩ := by
    rw [unitCovers, if_pos ranged, section_eq, if_neg (by omega), ← total]
    refine found_congr ?_
    rw [SectionView.seek_run ahead, walkUnit, if_pos legacy]
    rfl
  have whole : Cursor.Over ⟨tables.debugRanges.data, tables.debugRanges.size, unit.ranges⟩
      (items.flatMap (LegacyItem.bytes unit.addressSize) ++
        ((LegacyItem.pair 0 0).bytes unit.addressSize ++ rest)) := by
    rw [legacyBytes, List.append_assoc] at ahead
    exact ahead
  obtain ⟨written, cut, behind⟩ :=
    @search_items _ linkAddress _ _ _ wide wellFormed (fuel + 1) unit.lowPc whole
  rw [answer]
  refine ⟨fun is => ?_, fun not is => ?_, fun not uncut => ?_⟩
  · obtain ⟨c', run⟩ := written is
    exact found_ok run
  · obtain ⟨c', run⟩ := cut not is
    exact found_ok run
  · obtain ⟨base, run⟩ := behind not uncut
    rw [search_pair wide (by omega) (by omega) (by omega) whole.advance, if_neg (by omega)] at run
    exact ⟨_, fuel, base, whole.advance.advance, enough, found_congr run⟩

/-- At the end of the section nothing is found. -/
theorem found_end (wide : Wide unit.addressSize) {c : Cursor} (ended : c.Over []) {fuel base : Nat}
    (enough : 0 < fuel) :
    found (search unit.addressSize linkAddress fuel base) c = .ok false := by
  obtain ⟨fuel, rfl⟩ : ∃ n, fuel = n + 1 := ⟨fuel - 1, by omega⟩
  have atEnd : c.position + 0 = c.size := ended.position_add
  have outside : c.size < c.position + unit.addressSize := by
    have := wide.bounds.1
    omega
  refine found_refused ?_
  rw [search, walkEntries, readLegacyEntry_eq wide]
  exact run_bind_error (run_bind_error (ended.sound.fixed_refused outside))

/-- There are tables with the bytes at an offset of the section of range lists. -/
theorem exists_tables {offset : Nat} {bytes : List UInt8} (room : offset + bytes.length < 2 ^ 64) :
    ∃ tables : Tables,
      Cursor.Over ⟨tables.debugRanges.data, tables.debugRanges.size, offset⟩ bytes := by
  let empty : SectionView := ⟨none, 0⟩
  let ranges : SectionView := ⟨some (List.replicate offset 0 ++ bytes), offset + bytes.length⟩
  refine ⟨⟨empty, empty, empty, empty, empty, empty, ranges, [], 0, 0, 8, 4⟩,
    List.replicate offset 0, [], ?_, ?_, ?_, room⟩
  · rw [List.append_nil]
  · rw [List.length_replicate]
  · rw [List.length_replicate]

/-- The answer for the unit is what its list says about the address, wherever the list is. -/
def AnswersLegacy (unit : CompilationUnit) (items : List LegacyItem) (linkAddress : Nat) : Prop :=
  ∀ (tables : Tables) (rest : List UInt8),
    Cursor.Over ⟨tables.debugRanges.data, tables.debugRanges.size, unit.ranges⟩
      (legacyBytes unit.addressSize items ++ rest) →
    ∃ covers, unitCovers tables unit linkAddress = .ok covers ∧
      (covers = true ↔ Covered linkAddress unit.lowPc items)

/-- A unit with a range list before version 5 is found to cover an address as its list says, for
every list and whatever follows it, exactly where the pairs as they are written say the same as
the pairs measured from their bases, and the walk does not come to what follows the list or
cannot find the address there. -/
theorem covers_legacy_iff (ranged : unit.hasRanges = true) (legacy : unit.legacyRanges = true)
    (wide : Wide unit.addressSize)
    (wellFormed : ∀ item ∈ items, item.WellFormed unit.addressSize)
    (room : unit.ranges + (legacyBytes unit.addressSize items).length + 2 * unit.addressSize <
      2 ^ 64) :
    AnswersLegacy unit items linkAddress ↔
      ((Covered linkAddress unit.lowPc items ↔ Written unit.addressSize linkAddress items) ∧
        (Covered linkAddress unit.lowPc items ∨ Cut unit.addressSize items ∨
          256 ^ unit.addressSize ≤ linkAddress + 1)) := by
  obtain ⟨pos, -, several, fits⟩ := wide.bounds
  constructor
  · intro answers
    obtain ⟨tables, ahead⟩ := @exists_tables unit.ranges (legacyBytes unit.addressSize items ++ [])
      (by rw [List.append_nil]; omega)
    obtain ⟨covers, answer, means⟩ := answers tables [] ahead
    obtain ⟨written, cut, behind⟩ :=
      unitCovers_legacy linkAddress ranged legacy wide wellFormed ahead
    by_cases is : Written unit.addressSize linkAddress items
    · rw [written is] at answer
      cases answer
      have covered := means.mp rfl
      exact ⟨iff_of_true covered is, .inl covered⟩
    by_cases isCut : Cut unit.addressSize items
    · rw [cut is isCut] at answer
      cases answer
      exact ⟨iff_of_false (fun covered => Bool.noConfusion (means.mpr covered)) is,
        .inr (.inl isCut)⟩
    obtain ⟨c, fuel, base, ended, enough, run⟩ := behind is isCut
    rw [run, found_end wide ended enough] at answer
    cases answer
    have uncovered : ¬ Covered linkAddress unit.lowPc items :=
      fun covered => Bool.noConfusion (means.mpr covered)
    refine ⟨iff_of_false uncovered is, .inr (.inr (Nat.not_lt.mp fun low => uncovered ?_))⟩
    -- A list behind this one may have the address.
    obtain ⟨tables, ahead⟩ := @exists_tables unit.ranges (legacyBytes unit.addressSize items ++
      ((LegacyItem.pair 0 (linkAddress + 1)).bytes unit.addressSize ++ []))
      (by simp only [LegacyItem.bytes, List.length_append, length_toBytes, List.length_nil]; omega)
    obtain ⟨covers, answer, means⟩ := answers tables _ ahead
    obtain ⟨-, -, behind⟩ :=
      unitCovers_legacy linkAddress ranged legacy wide wellFormed ahead
    obtain ⟨c, fuel, base, there, enough, run⟩ := behind is isCut
    obtain ⟨fuel, rfl⟩ : ∃ n, fuel = n + 1 := ⟨fuel - 1, by omega⟩
    have finds : (search unit.addressSize linkAddress (fuel + 1) base).run c = _ :=
      search_pair wide (by omega) low (by omega) there
    rw [if_pos ⟨Nat.zero_le _, Nat.lt_succ_self _⟩] at finds
    rw [run, found_ok finds] at answer
    cases answer
    exact means.mp rfl
  · rintro ⟨same, ends⟩ tables rest ahead
    obtain ⟨written, cut, behind⟩ :=
      unitCovers_legacy linkAddress ranged legacy wide wellFormed ahead
    by_cases is : Written unit.addressSize linkAddress items
    · exact ⟨true, written is, iff_of_true rfl (same.mpr is)⟩
    have uncovered : ¬ Covered linkAddress unit.lowPc items := mt same.mp is
    suffices no : unitCovers tables unit linkAddress = .ok false from
      ⟨false, no, iff_of_false Bool.noConfusion uncovered⟩
    by_cases isCut : Cut unit.addressSize items
    · exact cut is isCut
    obtain ⟨c, fuel, base, there, enough, run⟩ := behind is isCut
    have high := (ends.resolve_left uncovered).resolve_left isCut
    have left : c.size - c.position < fuel := by
      have := there.position_add
      omega
    rw [run]
    rcases search_high wide high there.sound left with refused | ⟨c', missed⟩
    · exact found_refused refused
    · exact found_ok missed

end Answer

/-- A unit of 32-bit addresses with the first range list of the section. -/
def legacyUnit (lowPc : Nat) : CompilationUnit :=
  { ranges := 0, lowPc := lowPc, addressSize := 4, hasRanges := true, legacyRanges := true }

/-- A pair of a unit at zero means what is written, and an address in it is found. -/
theorem covers_legacy_iff_atZero :
    AnswersLegacy (legacyUnit 0) [.pair 0x10 0x20] 0x15 := by
  have covered : Covered 0x15 0 [.pair 0x10 0x20] := .inl (by decide)
  have written : Written 4 0x15 [.pair 0x10 0x20] := by decide
  refine (covers_legacy_iff rfl rfl (.inl rfl) ?_ (by decide)).mpr
    ⟨iff_of_true covered written, .inl covered⟩
  intro item member
  cases List.mem_singleton.mp member
  exact (by decide : 0x10 < allOnes 4 ∧ 0x20 < 256 ^ 4 ∧ ¬ (0x10 = 0 ∧ 0x20 = 0))

/-- The same pair of a unit at `0x1000`: its addresses are not found. -/
theorem not_covers_legacy_based :
    ¬ AnswersLegacy (legacyUnit 0x1000) [.pair 0x10 0x20] 0x1015 := by
  intro answers
  let empty : SectionView := ⟨none, 0⟩
  let bytes := legacyBytes 4 [.pair 0x10 0x20]
  let tables : Tables :=
    ⟨empty, empty, empty, empty, empty, empty, ⟨some bytes, 16⟩, [], 0, 0, 8, 4⟩
  obtain ⟨covers, answer, means⟩ := answers tables [] ⟨[], [], rfl, rfl, rfl, by decide⟩
  have missed : unitCovers tables (legacyUnit 0x1000) 0x1015 = .ok false := by decide +kernel
  rw [missed] at answer
  cases answer
  exact Bool.noConfusion (means.mpr (.inl (by decide)))

end Fpag.Debug
