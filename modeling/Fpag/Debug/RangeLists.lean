import Fpag.Debug.LegacyRanges
import Fpag.Debug.Padding

/-!
`walk_ranges` and the range lists of version 5.

An entry of a list is a kind and its operands: LEB128 numbers, addresses, and indices into
`.debug_addr`. Two kinds select a base, which the offset pairs behind them are measured from, and
the others are ranges. `covers_ranges` says that a unit covers the addresses that its list says,
wherever the list is and whatever follows it; LEB128 numbers may be padded as far as `uleb` reads.
-/

namespace Fpag.Debug

open Cursor Reader

/-! ## Entries -/

namespace RangeItem

/-- The bytes are an encoding of the entry. -/
def Encoded (addressSize : Nat) : RangeItem → List UInt8 → Prop
  | .baseAddressx index, bytes => ∃ a, Operand a index ∧ bytes = 1 :: a
  | .startxEndx start stop, bytes =>
      ∃ a b, Operand a start ∧ Operand b stop ∧ bytes = 2 :: (a ++ b)
  | .startxLength start length, bytes =>
      ∃ a b, Operand a start ∧ Operand b length ∧ bytes = 3 :: (a ++ b)
  | .offsetPair start stop, bytes =>
      ∃ a b, Operand a start ∧ Operand b stop ∧ bytes = 4 :: (a ++ b)
  | .baseAddress address, bytes =>
      address < 256 ^ addressSize ∧ bytes = 5 :: toBytes addressSize address
  | .startEnd start stop, bytes => start < 256 ^ addressSize ∧ stop < 256 ^ addressSize ∧
      bytes = 6 :: (toBytes addressSize start ++ toBytes addressSize stop)
  | .startLength start length, bytes => start < 256 ^ addressSize ∧
      ∃ b, Operand b length ∧ bytes = 7 :: (toBytes addressSize start ++ b)

/-- The indices of addresses that the entry names. -/
def indices : RangeItem → List Nat
  | .baseAddressx index => [index]
  | .startxEndx start stop => [start, stop]
  | .startxLength start _ => [start]
  | _ => []

variable (address : Nat → Nat) (base : Nat)

/-- The addresses that the entry covers, measured from the base in front of it. -/
def range? : RangeItem → Option (Nat × Nat)
  | .startxEndx start stop => some (address start, address stop)
  | .startxLength start length => some (address start, address start + length)
  | .offsetPair start stop => some (base + start, base + stop)
  | .startEnd start stop => some (start, stop)
  | .startLength start length => some (start, start + length)
  | _ => none

/-- The base behind the entry. -/
def next : RangeItem → Nat
  | .baseAddressx index => address index
  | .baseAddress first => first
  | _ => base

/-- No sum of the entry reaches `2 ^ 64`. -/
def Fits : RangeItem → Prop
  | .startxLength start length => address start + length < 2 ^ 64
  | .offsetPair start stop => base + start < 2 ^ 64 ∧ base + stop < 2 ^ 64
  | .startLength start length => start + length < 2 ^ 64
  | _ => True

/-- What the reader makes of the entry. -/
def reading (item : RangeItem) : RangeEntry :=
  match item.range? address base with
  | some (first, last) => .range first last
  | none => .base (item.next address base)

end RangeItem

/-- The bytes are an encoding of the list with its end. -/
def EncodedList (addressSize : Nat) : List RangeItem → List UInt8 → Prop
  | [], bytes => bytes = [0]
  | item :: items, bytes => ∃ front rest, item.Encoded addressSize front ∧
      EncodedList addressSize items rest ∧ bytes = front ++ rest

/-- The ranges of a list, from a base on. -/
def rangesOf (address : Nat → Nat) : Nat → List RangeItem → List (Nat × Nat)
  | _, [] => []
  | base, item :: items =>
      (item.range? address base).toList ++ rangesOf address (item.next address base) items

/-- No sum of the list reaches `2 ^ 64`. -/
def ListFits (address : Nat → Nat) : Nat → List RangeItem → Prop
  | _, [] => True
  | base, item :: items =>
      item.Fits address base ∧ ListFits address (item.next address base) items

/-- The address is in one of the ranges. -/
def InRanges (linkAddress : Nat) (ranges : List (Nat × Nat)) : Prop :=
  ∃ range ∈ ranges, range.1 ≤ linkAddress ∧ linkAddress < range.2

section Walk

variable {tables : Tables} {address : Nat → Nat} {addressSize linkAddress : Nat}

theorem readIndexed_reads {index : Nat}
    (known : indexedAddress tables index = .ok (some (address index))) :
    Reads (readIndexed tables index) [] (address index) := by
  intro c rest ahead
  rw [readIndexed, known]
  rfl

/-- An entry is read as what it says, over exactly its bytes. -/
theorem readRangeEntry_reads {item : RangeItem} {bytes : List UInt8} {base : Nat}
    (known : ∀ index ∈ item.indices, indexedAddress tables index = .ok (some (address index)))
    (pos : 0 < tables.addressSize) (le : tables.addressSize ≤ 8)
    (encoded : item.Encoded tables.addressSize bytes) (fits : item.Fits address base) :
    Reads (readRangeEntry tables base) bytes (item.reading address base) := by
  have kind (code : UInt8) (small : code.toNat < 128) : Reads uleb [code] code.toNat :=
    (Operand.byte small).reads
  have fixed_ {value : Nat} (small : value < 256 ^ tables.addressSize) :
      Reads (fixed tables.addressSize) (toBytes tables.addressSize value) value :=
    .fixed pos le small
  cases item with
  | baseAddressx index =>
      obtain ⟨a, operand, rfl⟩ := encoded
      refine (kind 1 (by decide)).bind_cons (operand.reads.bind_pure ?_)
      exact (readIndexed_reads (known index (by simp [RangeItem.indices]))).bind_pure (.pure _)
  | startxEndx start stop =>
      obtain ⟨a, b, operand, operand', rfl⟩ := encoded
      refine (kind 2 (by decide)).bind_cons (operand.reads.bind ?_)
      refine (readIndexed_reads (known start (by simp [RangeItem.indices]))).bind_nil ?_
      refine operand'.reads.bind_pure ?_
      exact (readIndexed_reads (known stop (by simp [RangeItem.indices]))).bind_pure (.pure _)
  | startxLength start length =>
      obtain ⟨a, b, operand, operand', rfl⟩ := encoded
      refine (kind 3 (by decide)).bind_cons (operand.reads.bind (operand'.reads.bind_pure ?_))
      have sum : u64 (address start + length) = address start + length := u64_eq fits
      refine (readIndexed_reads (known start (by simp [RangeItem.indices]))).bind_pure ?_
      rw [sum]
      exact .pure _
  | offsetPair start stop =>
      obtain ⟨a, b, operand, operand', rfl⟩ := encoded
      refine (kind 4 (by decide)).bind_cons (operand.reads.bind (operand'.reads.bind_pure ?_))
      rw [u64_eq fits.1, u64_eq fits.2]
      exact .pure _
  | baseAddress first =>
      obtain ⟨small, rfl⟩ := encoded
      exact (kind 5 (by decide)).bind_cons ((fixed_ small).bind_pure (.pure _))
  | startEnd start stop =>
      obtain ⟨small, small', rfl⟩ := encoded
      exact (kind 6 (by decide)).bind_cons
        ((fixed_ small).bind ((fixed_ small').bind_pure (.pure _)))
  | startLength start length =>
      obtain ⟨small, b, operand, rfl⟩ := encoded
      refine (kind 7 (by decide)).bind_cons ((fixed_ small).bind (operand.reads.bind_pure ?_))
      have sum : u64 (start + length) = start + length := u64_eq fits
      rw [sum]
      exact .pure _

theorem readRangeEntry_end {base : Nat} : Reads (readRangeEntry tables base) [0] .stop :=
  (Operand.byte (by decide : (0 : UInt8).toNat < 128)).reads.bind_pure (.pure _)

theorem RangeItem.Encoded.pos {item : RangeItem} {bytes : List UInt8}
    (encoded : item.Encoded addressSize bytes) : 0 < bytes.length := by
  cases item with
  | baseAddressx index => obtain ⟨a, -, rfl⟩ := encoded; exact Nat.succ_pos _
  | startxEndx start stop => obtain ⟨a, b, -, -, rfl⟩ := encoded; exact Nat.succ_pos _
  | startxLength start length => obtain ⟨a, b, -, -, rfl⟩ := encoded; exact Nat.succ_pos _
  | offsetPair start stop => obtain ⟨a, b, -, -, rfl⟩ := encoded; exact Nat.succ_pos _
  | baseAddress first => obtain ⟨-, rfl⟩ := encoded; exact Nat.succ_pos _
  | startEnd start stop => obtain ⟨-, -, rfl⟩ := encoded; exact Nat.succ_pos _
  | startLength start length => obtain ⟨-, b, -, rfl⟩ := encoded; exact Nat.succ_pos _

theorem EncodedList.length_lt {items : List RangeItem} {bytes : List UInt8}
    (encoded : EncodedList addressSize items bytes) : items.length < bytes.length := by
  induction items generalizing bytes with
  | nil =>
      obtain rfl : bytes = [0] := encoded
      exact Nat.one_pos
  | cons item items ih =>
      obtain ⟨front, rest, first, others, rfl⟩ := encoded
      have := first.pos
      have := ih others
      rw [List.length_append, List.length_cons]
      omega

theorem inRanges_cons {base : Nat} {item : RangeItem} {items : List RangeItem} :
    InRanges linkAddress (rangesOf address base (item :: items)) ↔
      (∃ range, item.range? address base = some range ∧ range.1 ≤ linkAddress ∧
        linkAddress < range.2) ∨
      InRanges linkAddress (rangesOf address (item.next address base) items) := by
  simp only [InRanges, rangesOf, List.mem_append, Option.mem_toList, or_and_right, exists_or]

/-- The walk of a list says whether the address is in one of its ranges. -/
theorem found_ranges {items : List RangeItem} {bytes rest : List UInt8} {fuel base : Nat}
    {c : Cursor} (known : ∀ item ∈ items, ∀ index ∈ item.indices,
      indexedAddress tables index = .ok (some (address index)))
    (pos : 0 < tables.addressSize) (le : tables.addressSize ≤ 8)
    (encoded : EncodedList tables.addressSize items bytes) (fits : ListFits address base items)
    (turns : items.length < fuel) (ahead : c.Over (bytes ++ rest)) :
    ∃ covers, found (walkEntries (readRangeEntry tables) (misses linkAddress) fuel base) c =
        .ok covers ∧
      (covers = true ↔ InRanges linkAddress (rangesOf address base items)) := by
  obtain ⟨fuel, rfl⟩ := Nat.exists_eq_succ_of_ne_zero (Nat.ne_zero_of_lt turns)
  induction items generalizing bytes fuel base c with
  | nil =>
      obtain rfl : bytes = [0] := encoded
      have run : (walkEntries (readRangeEntry tables) (misses linkAddress) (fuel + 1) base).run c =
          .ok (false, c.advance 1) := by
        rw [walkEntries, readRangeEntry_end.run_bind ahead]
        rfl
      refine ⟨false, found_ok run, iff_of_false Bool.noConfusion ?_⟩
      rintro ⟨range, there, -⟩
      cases there
  | cons item items ih =>
      obtain ⟨front, later, first, others, rfl⟩ := encoded
      obtain ⟨fuel, rfl⟩ := Nat.exists_eq_succ_of_ne_zero
        (by rw [List.length_cons] at turns; omega : fuel ≠ 0)
      rw [List.append_assoc] at ahead
      obtain ⟨covers, found_, means⟩ := ih
        (fun other there => known other (List.mem_cons_of_mem _ there)) others fits.2
        ahead.advance fuel (by rw [List.length_cons] at turns; omega)
      have read := readRangeEntry_reads (known item List.mem_cons_self) pos le first fits.1
      rw [RangeItem.reading] at read
      cases ranged : item.range? address base with
      | none =>
          rw [ranged] at read
          refine ⟨covers, ?_, ?_⟩
          · rw [← found_]
            refine found_congr ?_
            rw [walkEntries, read.run_bind ahead]
          · rw [means, inRanges_cons, ranged]
            simp
      | some range =>
          have same : item.next address base = base := by
            cases item <;> first | rfl | cases ranged
          obtain ⟨start, stop⟩ := range
          rw [ranged] at read
          rw [same] at found_ means
          rw [inRanges_cons, ranged, same]
          by_cases inside : start ≤ linkAddress ∧ linkAddress < stop
          · have run : (walkEntries (readRangeEntry tables) (misses linkAddress) (fuel + 1 + 1)
                base).run c = .ok (true, c.advance front.length) := by
              rw [walkEntries, read.run_bind ahead]
              simp only
              rw [if_neg (fun missed => misses_eq_true.mp missed inside)]
              rfl
            exact ⟨true, found_ok run, iff_of_true rfl (.inl ⟨_, rfl, inside⟩)⟩
          · refine ⟨covers, ?_, ?_⟩
            · rw [← found_]
              refine found_congr ?_
              rw [walkEntries, read.run_bind ahead]
              simp only
              rw [if_pos (misses_eq_true.mpr inside)]
            · rw [means]
              refine ⟨.inr, fun either => either.resolve_left ?_⟩
              rintro ⟨_, here, is⟩
              cases here
              exact inside is

end Walk

/-! ## The answer for a unit -/

section Answer

variable {tables : Tables} {unit : CompilationUnit} {address : Nat → Nat}

/-- The table of addresses of the unit has the address at the index. -/
structure Named (tables : Tables) (unit : CompilationUnit) (address : Nat → Nat) (index : Nat) :
    Prop where
  based : unit.addrBase ≠ 0
  small : address index < 256 ^ unit.addressSize
  has : tables.debugAddr.Has (unit.addrBase + index * unit.addressSize)
    (toBytes unit.addressSize (address index))

theorem Named.indexedAddress_eq {index : Nat} (named : Named tables unit address index)
    (pos : 0 < unit.addressSize) (le : unit.addressSize ≤ 8) :
    indexedAddress
      { tables with addressSize := unit.addressSize, addrBase := unit.addrBase } index =
        .ok (some (address index)) := by
  have place : u64 (unit.addrBase + u64 (index * unit.addressSize)) =
      unit.addrBase + index * unit.addressSize := by
    obtain ⟨rest, ahead⟩ := named.has
    have inside : unit.addrBase + index * unit.addressSize + _ = tables.debugAddr.size :=
      ahead.position_add
    have small : tables.debugAddr.size < 2 ^ 64 := ahead.small
    rw [u64_eq (n := index * unit.addressSize) (by omega), u64_eq (by omega)]
  rw [indexedAddress, if_neg named.based, place]
  exact named.has.attempt_some (.fixed pos le named.small)

/-- A unit with a range list of version 5 covers an address exactly if the list does. -/
theorem covers_ranges {items : List RangeItem} {bytes : List UInt8}
    (ranged : unit.hasRanges = true) (modern : unit.legacyRanges = false)
    (pos : 1 ≤ unit.addressSize) (le : unit.addressSize ≤ 8)
    (encoded : EncodedList unit.addressSize items bytes)
    (named : ∀ item ∈ items, ∀ index ∈ item.indices, Named tables unit address index)
    (fits : ListFits address unit.lowPc items) (has : tables.debugRnglists.Has unit.ranges bytes)
    (linkAddress : Nat) :
    ∃ covers, unitCovers tables unit linkAddress = .ok covers ∧
      (covers = true ↔ InRanges linkAddress (rangesOf address unit.lowPc items)) := by
  have section_eq : rangeSection tables unit = tables.debugRnglists := by
    rw [rangeSection, modern]
    rfl
  obtain ⟨rest, ahead⟩ := has
  have sum : unit.ranges + _ = tables.debugRnglists.size := ahead.position_add
  have long := encoded.length_lt
  rw [List.length_append] at sum
  obtain ⟨covers, found_, means⟩ := @found_ranges
    { tables with addressSize := unit.addressSize, addrBase := unit.addrBase } address linkAddress
    items bytes rest (tables.debugRnglists.size - unit.ranges + 1) unit.lowPc _
    (fun item there index mem => (named item there index mem).indexedAddress_eq pos le)
    pos le encoded fits (by omega) ahead
  refine ⟨covers, ?_, means⟩
  rw [unitCovers, if_pos ranged, section_eq, if_neg (by omega), ← found_]
  refine found_congr ?_
  rw [SectionView.seek_run ahead, walkUnit, modern]
  rfl

end Answer

/-- A unit with a list of its own and a table with one address. -/
def rangedUnit : CompilationUnit :=
  { ranges := 0, lowPc := 0x1000, addressSize := 8, addrBase := 8, hasRanges := true }

/-- The base is the address that the table names, by an index with one byte of padding. -/
def rangedBytes : List UInt8 := [1, 0x80, 0x00, 4, 0x10, 0x20, 0]

def rangedTables : Tables :=
  let empty : SectionView := ⟨none, 0⟩
  let addresses : List UInt8 := List.replicate 8 0 ++ toBytes 8 0x4000
  ⟨empty, empty, empty, ⟨some addresses, 16⟩, empty, ⟨some rangedBytes, 7⟩, empty, [], 0, 0, 8, 4⟩

theorem covers_ranges_based : ∃ covers, unitCovers rangedTables rangedUnit 0x4015 = .ok covers ∧
    (covers = true ↔ InRanges 0x4015 (rangesOf (fun _ => 0x4000) 0x1000
      [.baseAddressx 0, .offsetPair 0x10 0x20])) := by
  have padded : Operand [0x80, 0x00] 0 :=
    ⟨.more (by decide : 128 ≤ (0x80 : UInt8).toNat) (.last (by decide : (0 : UInt8).toNat < 128)),
      by decide, by decide⟩
  have encoded : EncodedList 8 [.baseAddressx 0, .offsetPair 0x10 0x20] rangedBytes :=
    ⟨[1, 0x80, 0x00], _, ⟨_, padded, rfl⟩, ⟨[4, 0x10, 0x20], _, ⟨[0x10], [0x20], .byte (by decide),
      .byte (by decide), rfl⟩, rfl, rfl⟩, rfl⟩
  refine covers_ranges rfl rfl (by decide) (by decide) encoded ?_ ?_ ?_ _
  · intro item there index mem
    have named : Named rangedTables rangedUnit (fun _ => 0x4000) 0 :=
      ⟨by decide, by decide, [], List.replicate 8 0, [], rfl, rfl, rfl, by decide⟩
    simp only [List.mem_cons, List.not_mem_nil, or_false] at there
    rcases there with rfl | rfl
    · obtain rfl : index = 0 := by simpa [RangeItem.indices] using mem
      exact named
    · cases mem
  · exact ⟨trivial, ⟨by decide, by decide⟩, trivial⟩
  · exact ⟨[], [], [], rfl, rfl, rfl, by decide⟩

end Fpag.Debug
