import Fpag.Debug.Tracks
import Fpag.Debug.UnitEncoding

/-!
One unit in both formats of DWARF.

The reader of a unit follows the width that the unit gives to offsets, in its header, in the
forms and in the table of string offsets, so what it makes of a unit does not depend on the
format. The table of the offsets of range lists is the exception: it is always read as one of
four-byte entries. `widths_agree` says that the two readings of a unit agree unless the reader
gets to its ranges and they are named by an index into that table, other than zero.
-/

namespace Fpag.Debug

open Cursor Reader

/-! ## Sections -/

/-- A section with nothing behind it. -/
def sectionOf (bytes : List UInt8) : SectionView := ⟨some bytes, bytes.length⟩

theorem scan_append_left {n : Nat} {bytes : List UInt8} (inside : n ≤ bytes.length)
    (more : List UInt8) : scan n (bytes ++ more) = scan n bytes := by
  induction bytes generalizing n with
  | nil =>
      obtain rfl : n = 0 := Nat.le_zero.mp inside
      rw [scan, scan]
  | cons byte bytes ih =>
      cases n with
      | zero => rw [scan, scan]
      | succ n => rw [List.cons_append, scan, scan, ih (Nat.le_of_succ_le_succ inside)]

/-- The strings of a section are those of its bytes. -/
theorem SectionView.Is.stringAt_eq {view : SectionView} {bytes : List UInt8} (is : view.Is bytes)
    (offset : Nat) : view.stringAt offset = (sectionOf bytes).stringAt offset := by
  obtain ⟨size, small, empty | ⟨more, data⟩⟩ := is
  · subst empty
    rw [SectionView.stringAt, SectionView.stringAt, if_pos, if_pos]
    · exact Nat.zero_le _
    · rw [size]
      exact Nat.zero_le _
  · rw [SectionView.stringAt, SectionView.stringAt, size, data]
    change (if bytes.length ≤ offset then _ else _) = if bytes.length ≤ offset then _ else _
    split
    · rfl
    · next inside =>
        change scan _ ((bytes ++ more).drop offset) =
          scan (bytes.length - offset) (bytes.drop offset)
        rw [List.drop_append_of_le_length (by omega), scan_append_left]
        rw [List.length_drop]

theorem SectionView.Is.textAt_eq {view : SectionView} {bytes : List UInt8} (is : view.Is bytes)
    (offset : Nat) : view.textAt offset = (sectionOf bytes).textAt offset := by
  rw [SectionView.textAt, SectionView.textAt, is.stringAt_eq]

section Entries

variable {view : SectionView} {base n : Nat} {xs : List Nat}

theorem flatMap_split {index x : Nat} (found : xs[index]? = some x) :
    ∃ front back, xs.flatMap (toBytes n) = front ++ (toBytes n x ++ back) ∧
      front.length = index * n := by
  induction xs generalizing index with
  | nil => cases found
  | cons y xs ih =>
      cases index with
      | zero =>
          cases found
          exact ⟨[], xs.flatMap (toBytes n), by rw [List.flatMap_cons]; rfl, by simp⟩
      | succ index =>
          obtain ⟨front, back, split, length⟩ := ih found
          refine ⟨toBytes n y ++ front, back, ?_, ?_⟩
          · rw [List.flatMap_cons, split, List.append_assoc]
          · rw [List.length_append, length_toBytes, length, Nat.succ_mul, Nat.add_comm]

/-- An entry of a table is at its index. -/
theorem SectionView.Has.entry (has : view.Has base (xs.flatMap (toBytes n))) {index x : Nat}
    (found : xs[index]? = some x) :
    u64 (base + u64 (index * n)) = base + index * n ∧
      view.Has (base + index * n) (toBytes n x) := by
  obtain ⟨rest, ahead⟩ := has
  obtain ⟨front, back, split, length⟩ := flatMap_split (n := n) found
  rw [split, List.append_assoc, List.append_assoc] at ahead
  have at_ := ahead.advance
  rw [length] at at_
  have inside : base + index * n + _ = view.size := at_.position_add
  have small : view.size < 2 ^ 64 := ahead.small
  refine ⟨?_, ⟨back ++ rest, at_⟩⟩
  rw [u64_eq (n := index * n) (by omega), u64_eq (by omega)]

/-- An entry of a table is read back. -/
theorem SectionView.Has.entry_reads (has : view.Has base (xs.flatMap (toBytes n))) (pos : 0 < n)
    (le : n ≤ 8) {index x : Nat} (found : xs[index]? = some x) (small : x < 256 ^ n) :
    Reader.attempt (do
      seek (u64 (base + u64 (index * n)))
      fixed n) view.cursor = .ok (some x) := by
  obtain ⟨place, entry⟩ := has.entry found
  rw [place]
  exact entry.attempt_some (.fixed pos le small)

end Entries

/-! ## What a unit says in any format -/

namespace AbstractUnit

variable (unit : AbstractUnit)

/-- The base that an attribute gives, or none. -/
def base (e : Encoding) (attr : Nat) : Nat := if (unit.value? attr).isSome then e.target attr else 0

/-- The address that an index names. -/
def address? (index : Nat) : Option Nat :=
  if (unit.value? dwAtAddrBase).isSome then unit.addresses[index]? else none

/-- The string that an index names; offset zero names none. -/
def string? (index : Nat) : Option (List UInt8) :=
  if (unit.value? dwAtStrOffsetsBase).isSome then
    (unit.strOffsets[index]?).bind fun offset =>
      if offset ≠ 0 then (sectionOf unit.str).textAt offset else none
  else none

/-- Tables with the strings of the unit and nothing else. -/
def texts : Tables where
  debugStr := sectionOf unit.str
  debugLineStr := sectionOf unit.lineStr
  debugStrOffsets := sectionOf []
  debugAddr := sectionOf []
  debugLine := sectionOf []
  debugRnglists := sectionOf []
  debugRanges := sectionOf []

variable {unit} {attr : Nat} {value : AttributeValue}

theorem mem_foldl_keep {kept attributes : List (Nat × AttributeValue)}
    {declared : Nat × AttributeValue} (member : declared ∈ attributes.foldl keepAttribute kept) :
    declared ∈ kept ∨ declared ∈ attributes := by
  induction attributes generalizing kept with
  | nil => exact .inl member
  | cons first attributes ih =>
      rcases ih member with member | member
      · unfold keepAttribute at member
        split at member
        · rw [List.mem_append, List.mem_singleton] at member
          rcases member with member | rfl
          · exact .inl member
          · exact .inr List.mem_cons_self
        · exact .inl member
      · exact .inr (List.mem_cons_of_mem _ member)

theorem WellFormed.value_fits (wellFormed : unit.WellFormed)
    (found : unit.value? attr = some value) :
    unit.Fits (attr, value) := by
  obtain ⟨⟨code, other⟩, kept, rfl⟩ := Option.map_eq_some_iff.mp found
  have same : code = attr := by simpa using List.find?_some kept
  subst same
  rcases mem_foldl_keep (List.mem_of_find?_eq_some kept) with member | member
  · cases member
  · exact wellFormed.fits _ member

/-- A place is what an attribute that wants one has. -/
theorem WellFormed.value_pointer (wellFormed : unit.WellFormed) (wants : attr ∈ pointerAttributes)
    (found : unit.value? attr = some value) : ∃ form, value = .pointer form := by
  have fits := wellFormed.value_fits found
  cases value with
  | datum datum => exact absurd wants fits.2.1
  | implicit value => exact absurd (List.mem_cons_of_mem _ wants) fits.1
  | pointer form => exact ⟨form, rfl⟩

/-- An attribute is looked up among those that are kept. -/
theorem lookup_eq (e : Encoding) (tables : Tables) (attr : Nat) :
    lookup (unit.tracked.map (e.found tables)) attr =
      (unit.value? attr).map fun value => e.found tables (attr, value) := by
  rw [lookup, List.find?_map, value?, Option.map_map]
  change Option.map (e.found tables) (unit.tracked.find? (·.1 = attr)) = _
  cases kept : unit.tracked.find? (·.1 = attr) with
  | none => rfl
  | some declared =>
      obtain ⟨code, value⟩ := declared
      have same : code = attr := by simpa using List.find?_some kept
      rw [same]
      rfl

theorem WellFormed.base_eq (wellFormed : unit.WellFormed) {e : Encoding} {tables : Tables}
    (wants : attr ∈ pointerAttributes) :
    ((lookup (unit.tracked.map (e.found tables)) attr).map (·.value.value)).getD 0 =
      unit.base e attr := by
  rw [lookup_eq, base]
  cases found : unit.value? attr with
  | none => rfl
  | some value =>
      obtain ⟨form, rfl⟩ := wellFormed.value_pointer wants found
      rfl

end AbstractUnit

section Meaning

variable {unit : AbstractUnit} {e : Encoding} {tables : Tables}

/-- A value means the same in all files with the strings of the unit. -/
theorem Encodes.meaning_eq (encodes : Encodes unit e) (datum : Datum) :
    datum.meaning (e.own unit) = datum.meaning unit.texts := by
  induction datum with
  | offset form value =>
      have str := encodes.str.textAt_eq value
      have lineStr := encodes.lineStr.textAt_eq value
      simp only [Datum.meaning, textOf, Encoding.own, AbstractUnit.texts, str, lineStr]
  | indirect datum ih => exact ih
  | fixed | index | address | number | anyIndex | signed | string | block | anyBlock | sixteen |
    present => rfl

theorem Encodes.indexedAddress_eq (encodes : Encodes unit e) (wellFormed : unit.WellFormed)
    (view : tables.debugAddr = e.tables.debugAddr)
    (base : tables.addrBase = unit.base e dwAtAddrBase)
    (width : tables.addressSize = unit.addressSize) {index : Nat}
    (named : index < unit.addressCount) :
    indexedAddress tables index = .ok (unit.address? index) := by
  rw [indexedAddress, base, width, view, AbstractUnit.base, AbstractUnit.address?]
  by_cases declared : (unit.value? dwAtAddrBase).isSome = true
  · obtain ⟨pos, table⟩ := encodes.addresses declared
    rw [AbstractUnit.addressCount, if_pos declared] at named
    have found : unit.addresses[index]? = some unit.addresses[index] :=
      List.getElem?_eq_getElem named
    have same : e.target dwAtAddrBase = e.addrBase := rfl
    rw [if_pos declared, if_pos declared, same, if_neg (by omega), found]
    exact table.entry_reads wellFormed.address.1 wellFormed.address.2 found
      (wellFormed.numbers _ (List.getElem_mem named))
  · rw [if_neg declared, if_neg declared, if_pos rfl]

theorem Encodes.indexedString_eq (encodes : Encodes unit e) (wellFormed : unit.WellFormed)
    (view : tables.debugStrOffsets = e.tables.debugStrOffsets)
    (str : tables.debugStr = e.tables.debugStr)
    (base : tables.strOffsetsBase = unit.base e dwAtStrOffsetsBase)
    (width : tables.offsetSize = e.offsetSize) {index : Nat} (named : index < unit.stringCount) :
    indexedString tables index = .ok (unit.string? index) := by
  have readable := encodes.readable wellFormed
  rw [indexedString, base, width, view, str, AbstractUnit.base, AbstractUnit.string?]
  by_cases declared : (unit.value? dwAtStrOffsetsBase).isSome = true
  · obtain ⟨pos, table⟩ := encodes.strOffsets declared
    rw [AbstractUnit.stringCount, if_pos declared] at named
    have found : unit.strOffsets[index]? = some unit.strOffsets[index] :=
      List.getElem?_eq_getElem named
    have small := lt_of_lt_of_le (wellFormed.strings _ (List.getElem_mem named)) e.four_le
    have same : e.target dwAtStrOffsetsBase = e.strOffsetsBase := rfl
    have entry := table.entry_reads readable.offset_pos readable.offset_le found small
    rw [if_pos declared, if_pos declared, same, if_neg (by omega), indexedOffset, if_neg (by omega),
      entry, found]
    change (if unit.strOffsets[index] ≠ 0 then
      e.tables.debugStr.stringAt unit.strOffsets[index] else .ok none) =
        .ok (if unit.strOffsets[index] ≠ 0 then _ else none)
    split
    · rw [encodes.str.sound.stringAt_eq, encodes.str.textAt_eq]
    · rfl
  · rw [if_neg declared, if_neg declared, if_pos rfl]

end Meaning

/-! ## Filling in the unit -/

namespace Encoding

/-- What the reader keeps of the root entry. -/
def kept (e : Encoding) (unit : AbstractUnit) : List Found :=
  unit.tracked.map (e.found (e.own unit))

/-- The tables with the bases that the unit declares. -/
def based (e : Encoding) (unit : AbstractUnit) : Tables :=
  { e.own unit with
    addrBase := unit.base e dwAtAddrBase
    strOffsetsBase := unit.base e dwAtStrOffsetsBase }

/-- The unit that the reader starts to fill in. -/
def started (e : Encoding) (unit : AbstractUnit) : CompilationUnit where
  addressSize := unit.addressSize
  addrBase := unit.base e dwAtAddrBase
  strOffsetsBase := unit.base e dwAtStrOffsetsBase

end Encoding

/-- The units have the same addresses, flags and file table. -/
structure CompilationUnit.Alike (u v : CompilationUnit) : Prop where
  lowPc : u.lowPc = v.lowPc
  highPc : u.highPc = v.highPc
  addressSize : u.addressSize = v.addressSize
  offsetHighPc : u.offsetHighPc = v.offsetHighPc
  indexedAddresses : u.indexedAddresses = v.indexedAddresses
  hasLineProgram : u.hasLineProgram = v.hasLineProgram
  hasRanges : u.hasRanges = v.hasRanges
  legacyRanges : u.legacyRanges = v.legacyRanges
  files : u.files = v.files

/-- The two units are what was read of one unit in two formats, up to its ranges. -/
structure Paired (unit : AbstractUnit) (e e' : Encoding) (u v : CompilationUnit) : Prop where
  alike : u.Alike v
  addressSize : u.addressSize = unit.addressSize
  addrBase : u.addrBase = unit.base e dwAtAddrBase ∧ v.addrBase = unit.base e' dwAtAddrBase
  fresh : u.hasRanges = false ∧ u.legacyRanges = false

/-- The two units are what was read of one unit in two formats: where they have ranges these are
one list. -/
structure Ranged (unit : AbstractUnit) (e e' : Encoding) (u v : CompilationUnit) : Prop where
  alike : u.Alike v
  addressSize : u.addressSize = unit.addressSize
  addrBase : u.addrBase = unit.base e dwAtAddrBase ∧ v.addrBase = unit.base e' dwAtAddrBase
  ranges : u.hasRanges = true → if u.legacyRanges then u.ranges = v.ranges else
    ∃ list ∈ unit.rangeLists,
      e.tables.debugRnglists.Has u.ranges (listBytes unit.addressSize list) ∧
      e'.tables.debugRnglists.Has v.ranges (listBytes unit.addressSize list)

namespace AbstractUnit

variable (unit : AbstractUnit)

/-- What a value that is no place means. -/
def meaning : AttributeValue → FormValue
  | .datum datum => datum.meaning unit.texts
  | .implicit value => { value := (value % 2 ^ 64).toNat }
  | .pointer _ => {}

/-- The unit with its low address, and whether it has one. -/
def low (u : CompilationUnit) : Bool × CompilationUnit :=
  match unit.value? dwAtLowPc with
  | none => (true, u)
  | some value =>
      if (unit.meaning value).indexed then
        ((unit.address? (unit.meaning value).value).isSome,
          { u with
            indexedAddresses := true
            lowPc := (unit.address? (unit.meaning value).value).getD 0 })
      else (true, { u with indexedAddresses := false, lowPc := (unit.meaning value).value })

/-- A value in the form of an address. -/
def isAddress : AttributeValue → Bool
  | .datum datum => datum.form = dwFormAddr
  | .implicit _ => false
  | .pointer _ => false

/-- The unit with its high address, and whether it has one. -/
def high (u : CompilationUnit) : Bool × CompilationUnit :=
  match unit.value? dwAtHighPc with
  | none => (true, u)
  | some value =>
      if (unit.meaning value).indexed then
        ((unit.address? (unit.meaning value).value).isSome,
          { u with
            offsetHighPc := false
            highPc := (unit.address? (unit.meaning value).value).getD 0 })
      else (true, { u with offsetHighPc := !isAddress value, highPc := (unit.meaning value).value })

/-- Nothing stops the reader in front of the ranges: where the low or the high address is named by
an index, the address is in the table. -/
def ReachesRanges : Prop :=
  ∀ attr ∈ [dwAtLowPc, dwAtHighPc], ∀ value, unit.value? attr = some value →
    (unit.meaning value).indexed = true →
      (unit.address? (unit.meaning value).value).isSome = true

/-- The string that an attribute is. -/
def text? (attr : Nat) : Option (List UInt8) :=
  (unit.value? attr).bind fun value =>
    if (unit.meaning value).text = none ∧ (unit.meaning value).indexed then
      unit.string? (unit.meaning value).value
    else (unit.meaning value).text

/-- The files of the line program of the unit, if it is read. -/
def files : List (List UInt8) :=
  if unit.lines.Taken then
    nameFirst unit.version ((unit.text? dwAtName).getD []) (unit.lines.fileTables.paths
      { unit.texts with workingDirectory := (unit.text? dwAtCompDir).getD [] })
  else []

end AbstractUnit

section Resolve

variable {unit : AbstractUnit} {e e' : Encoding} {u v : CompilationUnit}

theorem started_paired : Paired unit e e' (e.started unit) (e'.started unit) :=
  ⟨⟨rfl, rfl, rfl, rfl, rfl, rfl, rfl, rfl, rfl⟩, rfl, ⟨rfl, rfl⟩, ⟨rfl, rfl⟩⟩

/-- The bases are resolved before anything else. -/
theorem Encodes.resolveUnit_eq (encodes : Encodes unit e) (wellFormed : unit.WellFormed) :
    resolveUnit (e.own unit) unit.version (e.kept unit) = (do
      let low ← resolveLow (e.based unit) (e.kept unit) (e.started unit)
      if low.1 then do
        let high ← resolveHigh (e.based unit) (e.kept unit) low.2
        if high.1 then do
          let ranged ← resolveRanges (e.based unit) unit.version (e.kept unit) high.2
          resolveLines (e.based unit) unit.version (e.kept unit) ranged
        else pure high.2
      else pure low.2) := by
  have addr : ((lookup (e.kept unit) dwAtAddrBase).map (·.value.value)).getD 0 =
      unit.base e dwAtAddrBase := wellFormed.base_eq (by decide)
  have str : ((lookup (e.kept unit) dwAtStrOffsetsBase).map (·.value.value)).getD 0 =
      unit.base e dwAtStrOffsetsBase := wellFormed.base_eq (by decide)
  have none : (e.own unit).strOffsetsBase = 0 := encodes.plain.2.1
  have started : resolveBases (e.kept unit) { addressSize := (e.own unit).addressSize } =
      e.started unit := by
    rw [resolveBases, addr, str]
    rfl
  rw [resolveUnit, started, none, str]
  rfl

/-- A value that is no place is the same to the readers of all formats. -/
theorem Encodes.found_value (encodes : Encodes unit e) {attr : Nat} {value : AttributeValue}
    (fits : unit.Fits (attr, value)) (plain : attr ∉ dwAtRanges :: pointerAttributes) :
    (e.found (e.own unit) (attr, value)).value = unit.meaning value ∧
      (decide (e.form value = dwFormAddr)) = AbstractUnit.isAddress value := by
  cases value with
  | datum datum => exact ⟨encodes.meaning_eq datum, rfl⟩
  | implicit value => exact ⟨rfl, rfl⟩
  | pointer form => exact absurd fits plain

/-- An index that a unit has for an attribute is one of the table. -/
theorem AbstractUnit.index_lt {attr count : Nat} {value : AttributeValue}
    (fits : unit.Fits (attr, value)) (plain : attr ∉ dwAtRanges :: pointerAttributes)
    (named : ∀ datum, value = .datum datum → ∀ index, datum.index? = some index → index < count)
    (indexed : (unit.meaning value).indexed = true) : (unit.meaning value).value < count := by
  cases value with
  | datum datum =>
      rw [AbstractUnit.meaning, Datum.meaning_indexed] at indexed
      obtain ⟨index, found⟩ := Option.isSome_iff_exists.mp indexed
      rw [AbstractUnit.meaning, Datum.meaning_value found]
      exact named datum rfl index found
  | implicit value => cases indexed
  | pointer form => exact absurd fits plain

theorem Encodes.resolveLow_eq (encodes : Encodes unit e) (wellFormed : unit.WellFormed) :
    resolveLow (e.based unit) (e.kept unit) u = .ok (unit.low u) := by
  rw [resolveLow, Encoding.kept, AbstractUnit.lookup_eq, AbstractUnit.low]
  cases found : unit.value? dwAtLowPc with
  | none => rfl
  | some value =>
      have fits := wellFormed.value_fits found
      have plain : dwAtLowPc ∉ dwAtRanges :: pointerAttributes := by decide
      simp only [Option.map_some, (encodes.found_value fits plain).1]
      split
      · next indexed =>
          have named : (unit.meaning value).value < unit.addressCount := by
            refine AbstractUnit.index_lt fits plain (fun datum same => ?_) indexed
            subst same
            exact fits.2.2.2.1 (.inl rfl)
          rw [@Encodes.indexedAddress_eq _ _ (e.based unit) encodes wellFormed rfl rfl rfl _ named]
          rfl
      · rfl

theorem Encodes.resolveHigh_eq (encodes : Encodes unit e) (wellFormed : unit.WellFormed) :
    resolveHigh (e.based unit) (e.kept unit) u = .ok (unit.high u) := by
  rw [resolveHigh, Encoding.kept, AbstractUnit.lookup_eq, AbstractUnit.high]
  cases found : unit.value? dwAtHighPc with
  | none => rfl
  | some value =>
      have fits := wellFormed.value_fits found
      have plain : dwAtHighPc ∉ dwAtRanges :: pointerAttributes := by decide
      obtain ⟨same, address⟩ := encodes.found_value fits plain
      simp only [Option.map_some, same]
      split
      · next indexed =>
          have named : (unit.meaning value).value < unit.addressCount := by
            refine AbstractUnit.index_lt fits plain (fun datum same => ?_) indexed
            subst same
            exact fits.2.2.2.1 (.inr rfl)
          rw [@Encodes.indexedAddress_eq _ _ (e.based unit) encodes wellFormed rfl rfl rfl _ named]
          rfl
      · rw [← address, ← decide_not]
        rfl

theorem Encodes.resolveText_eq (encodes : Encodes unit e) (wellFormed : unit.WellFormed)
    {attr : Nat} (named : attr = dwAtName ∨ attr = dwAtCompDir) :
    resolveText (e.based unit) (lookup (e.kept unit) attr) = .ok (unit.text? attr) := by
  have plain : attr ∉ dwAtRanges :: pointerAttributes := by
    rcases named with rfl | rfl <;> decide
  rw [Encoding.kept, AbstractUnit.lookup_eq, AbstractUnit.text?]
  cases found : unit.value? attr with
  | none => rfl
  | some value =>
      have fits := wellFormed.value_fits found
      simp only [Option.map_some, Option.bind_some, resolveText, (encodes.found_value fits plain).1]
      split
      · next indexed =>
          refine
            @Encodes.indexedString_eq _ _ (e.based unit) encodes wellFormed rfl rfl rfl rfl _ ?_
          refine AbstractUnit.index_lt fits plain (fun datum same => ?_) indexed.2
          subst same
          exact fits.2.2.2.2 named
      · rfl

/-- A reader that goes on behind both addresses reaches the ranges. -/
theorem AbstractUnit.reachesRanges (low : (unit.low u).1 = true) (high : (unit.high v).1 = true) :
    unit.ReachesRanges := by
  intro attr member value found indexed
  rcases List.mem_pair.mp member with rfl | rfl
  · simp only [AbstractUnit.low, found, indexed, if_true] at low
    exact low
  · simp only [AbstractUnit.high, found, indexed, if_true] at high
    exact high

theorem Paired.low (paired : Paired unit e e' u v) :
    (unit.low u).1 = (unit.low v).1 ∧ Paired unit e e' (unit.low u).2 (unit.low v).2 := by
  obtain ⟨⟨low, high, size, offset, indexed, lines, ranges, legacy, files⟩, own, base, fresh⟩ :=
    paired
  unfold AbstractUnit.low
  split
  · exact ⟨rfl, ⟨low, high, size, offset, indexed, lines, ranges, legacy, files⟩, own, base, fresh⟩
  · split
    · exact ⟨rfl, ⟨rfl, high, size, offset, rfl, lines, ranges, legacy, files⟩, own, base, fresh⟩
    · exact ⟨rfl, ⟨rfl, high, size, offset, rfl, lines, ranges, legacy, files⟩, own, base, fresh⟩

theorem Paired.high (paired : Paired unit e e' u v) :
    (unit.high u).1 = (unit.high v).1 ∧ Paired unit e e' (unit.high u).2 (unit.high v).2 := by
  obtain ⟨⟨low, high, size, offset, indexed, lines, ranges, legacy, files⟩, own, base, fresh⟩ :=
    paired
  unfold AbstractUnit.high
  split
  · exact ⟨rfl, ⟨low, high, size, offset, indexed, lines, ranges, legacy, files⟩, own, base, fresh⟩
  · split
    · exact ⟨rfl, ⟨low, rfl, size, rfl, indexed, lines, ranges, legacy, files⟩, own, base, fresh⟩
    · exact ⟨rfl, ⟨low, rfl, size, rfl, indexed, lines, ranges, legacy, files⟩, own, base, fresh⟩

theorem Paired.ranged (paired : Paired unit e e' u v) : Ranged unit e e' u v where
  alike := paired.alike
  addressSize := paired.addressSize
  addrBase := paired.addrBase
  ranges := fun has => by
    rw [paired.fresh.1] at has
    cases has

/-! ## Ranges -/

/-- The first four bytes of an offset are the offset, where it is small. -/
theorem Encoding.toBytes_split (e : Encoding) (value : Nat) :
    ∃ more, toBytes e.offsetSize value = toBytes 4 value ++ more := by
  unfold Encoding.offsetSize
  split
  · exact ⟨toBytes 4 (value / 256 / 256 / 256 / 256), rfl⟩
  · exact ⟨[], (List.append_nil _).symm⟩

/-- The first entry of the offset table is read in either format. -/
theorem Encodes.firstOffset (encodes : Encodes unit e)
    (declared : (unit.value? dwAtRnglistsBase).isSome = true) {offset : Nat}
    (first : e.listOffsets[0]? = some offset) (small : offset < 2 ^ 32) :
    indexedOffset e.tables.debugRnglists e.rnglistsBase 0 4 = .ok offset := by
  obtain ⟨pos, ⟨rest, table⟩, -⟩ := encodes.offsetTable declared
  obtain ⟨others, split⟩ : ∃ others, e.listOffsets = offset :: others := by
    cases offsets : e.listOffsets with
    | nil =>
        rw [offsets] at first
        cases first
    | cons head others =>
        rw [offsets] at first
        cases first
        exact ⟨others, rfl⟩
  obtain ⟨more, bytes⟩ := e.toBytes_split offset
  rw [split, List.flatMap_cons, bytes, List.append_assoc, List.append_assoc] at table
  have inside : e.rnglistsBase + _ = e.tables.debugRnglists.size := table.position_add
  have bound : e.tables.debugRnglists.size < 2 ^ 64 := table.small
  have place : u64 (e.rnglistsBase + u64 (0 * 4)) = e.rnglistsBase := by
    rw [Nat.zero_mul, u64_eq (n := 0) (by decide), Nat.add_zero, u64_eq (by omega)]
  have entry : e.tables.debugRnglists.Has e.rnglistsBase (toBytes 4 offset) := ⟨_, table⟩
  rw [indexedOffset, if_neg (by omega), place,
    entry.attempt_some (.fixed (by decide) (by decide) (by omega))]
  rfl

theorem Encoding.resolveRanges_pointer (e : Encoding) {form : PointerForm}
    (found : unit.value? dwAtRanges = some (.pointer form)) :
    resolveRanges (e.based unit) unit.version (e.kept unit) u =
      .ok { u with hasRanges := true, ranges := e.ranges, legacyRanges := unit.version < 5 } := by
  rw [resolveRanges, Encoding.kept, AbstractUnit.lookup_eq, found]
  exact if_neg (PointerForm.form_ne e.wide)

theorem Encodes.resolveRanges_first (encodes : Encodes unit e) (wellFormed : unit.WellFormed)
    (found : unit.value? dwAtRanges = some (.datum (.number dwFormRnglistx 0)))
    (declared : (unit.value? dwAtRnglistsBase).isSome = true) {offset : Nat}
    (first : e.listOffsets[0]? = some offset) (small : offset < 2 ^ 32) :
    resolveRanges (e.based unit) unit.version (e.kept unit) u =
      .ok { u with hasRanges := true, ranges := u64 (offset + e.rnglistsBase) } := by
  have base : ((lookup (e.kept unit) dwAtRnglistsBase).map (·.value.value)).getD 0 =
      e.rnglistsBase := by
    rw [Encoding.kept, wellFormed.base_eq (by decide), AbstractUnit.base, if_pos declared]
    rfl
  have entry : indexedOffset (e.based unit).debugRnglists e.rnglistsBase 0 4 = .ok offset :=
    encodes.firstOffset declared first small
  have kept : lookup (e.kept unit) dwAtRanges =
      some ⟨dwAtRanges, dwFormRnglistx, { value := 0 }⟩ := by
    rw [Encoding.kept, AbstractUnit.lookup_eq, found]
    rfl
  rw [resolveRanges, kept]
  simp only [if_true, base, entry]
  rfl

/-- The unit does not name its range list by an index, or it does by index zero, in the form for
it and with a base for the table, and the offset in the table is one of four bytes. -/
def NamesFirst (unit : AbstractUnit) (e : Encoding) : Prop :=
  ∀ datum, unit.value? dwAtRanges = some (.datum datum) →
    datum = .number dwFormRnglistx 0 ∧ (unit.value? dwAtRnglistsBase).isSome = true ∧
      ∀ offset, e.listOffsets[0]? = some offset → offset < 2 ^ 32

/-- A list that index zero names is where the reader goes. -/
theorem Encodes.resolveRanges_list (encodes : Encodes unit e) (wellFormed : unit.WellFormed)
    (found : unit.value? dwAtRanges = some (.datum (.number dwFormRnglistx 0)))
    (names : NamesFirst unit e) {list : List RangeItem} (listed : unit.rangeLists[0]? = some list) :
    ∃ place, e.tables.debugRnglists.Has place (listBytes unit.addressSize list) ∧
      ∀ u, resolveRanges (e.based unit) unit.version (e.kept unit) u =
        .ok { u with hasRanges := true, ranges := place } := by
  obtain ⟨-, declared, small⟩ := names _ found
  obtain ⟨-, -, -, lists⟩ := encodes.offsetTable declared
  obtain ⟨offset, first, rest, ahead⟩ := lists 0 list listed
  have inside : e.rnglistsBase + offset + _ = e.tables.debugRnglists.size := ahead.position_add
  have bound : e.tables.debugRnglists.size < 2 ^ 64 := ahead.small
  refine ⟨e.rnglistsBase + offset, ⟨rest, ahead⟩, fun u => ?_⟩
  rw [encodes.resolveRanges_first wellFormed found declared first (small offset first),
    Nat.add_comm offset, u64_eq (by omega)]

/-- The ranges of the unit are one list in both formats. -/
theorem Paired.resolveRanges (paired : Paired unit e e' u v) (wellFormed : unit.WellFormed)
    (encodes : Encodes unit e) (encodes' : Encodes unit e') (names : NamesFirst unit e)
    (names' : NamesFirst unit e') :
    ∃ u' v', resolveRanges (e.based unit) unit.version (e.kept unit) u = .ok u' ∧
      resolveRanges (e'.based unit) unit.version (e'.kept unit) v = .ok v' ∧
        Ranged unit e e' u' v' := by
  cases found : unit.value? dwAtRanges with
  | none =>
      have none (e : Encoding) (w : CompilationUnit) :
          Debug.resolveRanges (e.based unit) unit.version (e.kept unit) w = .ok w := by
        rw [Debug.resolveRanges, Encoding.kept, AbstractUnit.lookup_eq, found]
        rfl
      exact ⟨u, v, none e u, none e' v, paired.ranged⟩
  | some value =>
      have fits := wellFormed.value_fits found
      obtain ⟨⟨low, high, size, offset, indexed, lines, ranges, legacy, files⟩, own, base, fresh⟩ :=
        paired
      cases value with
      | implicit value => exact absurd List.mem_cons_self fits.1
      | pointer form =>
          refine ⟨_, _, e.resolveRanges_pointer found, e'.resolveRanges_pointer found,
            ⟨low, high, size, offset, indexed, lines, rfl, rfl, files⟩, own, base, fun _ => ?_⟩
          have list := encodes.rangeList form found
          have list' := encodes'.rangeList form found
          by_cases old : unit.version < 5
          · simp only [old, decide_true, if_true] at list list' ⊢
            rw [list, list']
          · simp only [old, decide_false, Bool.false_eq_true, if_false] at list list' ⊢
            obtain ⟨items, member, has⟩ := list
            obtain ⟨items', member', has'⟩ := list'
            rw [member] at member'
            cases member'
            exact ⟨items, List.mem_of_getElem? member, has, has'⟩
      | datum datum =>
          obtain ⟨rfl, declared, -⟩ := names datum found
          obtain ⟨index, zero, named⟩ := fits.2.2.1 rfl
          obtain rfl : 0 = index := Option.some.inj zero
          have listed : unit.rangeLists[0]? = some unit.rangeLists[0] :=
            List.getElem?_eq_getElem named
          obtain ⟨place, has, resolved⟩ := encodes.resolveRanges_list wellFormed found names listed
          obtain ⟨place', has', resolved'⟩ :=
            encodes'.resolveRanges_list wellFormed found names' listed
          refine ⟨_, _, resolved u, resolved' v,
            ⟨low, high, size, offset, indexed, lines, rfl, legacy, files⟩, own, base, fun _ => ?_⟩
          simp only [fresh.2, Bool.false_eq_true, if_false]
          exact ⟨_, List.getElem_mem named, has, has'⟩

/-! ## The file table -/

/-- The paths of a file table depend on the strings and the working directory only. -/
theorem FileTables.paths_congr {tables other : Tables} (fileTables : FileTables)
    (meaning : ∀ datum : Datum, datum.meaning tables = datum.meaning other)
    (directory : tables.workingDirectory = other.workingDirectory) :
    fileTables.paths tables = fileTables.paths other := by
  have join : joinPath tables = joinPath other := by
    funext directory file
    unfold joinPath
    rw [‹tables.workingDirectory = _›]
  have legacy : legacyDirectory tables = legacyDirectory other := by
    funext directories index
    unfold legacyDirectory
    rw [directory]
  have entry : entryMeaning tables = entryMeaning other := by
    funext format entry
    simp only [entryMeaning, meaning]
  cases fileTables with
  | legacy directories files => simp only [FileTables.paths, join, legacy]
  | entries directories files => simp only [FileTables.paths, join, entry]

theorem Datum.meaning_tables {tables other : Tables} (str : tables.debugStr = other.debugStr)
    (lineStr : tables.debugLineStr = other.debugLineStr) (datum : Datum) :
    datum.meaning tables = datum.meaning other := by
  induction datum with
  | offset form value => simp only [Datum.meaning, textOf, str, lineStr]
  | indirect datum ih => exact ih
  | fixed | index | address | number | anyIndex | signed | string | block | anyBlock | sixteen |
    present => rfl

/-- The line program is read for its files in either format, if it is read at all. -/
theorem Encodes.readLineHeader_files (encodes : Encodes unit e)
    (declared : (unit.value? dwAtStmtList).isSome = true) (directory : List UInt8) :
    ∃ header, Reader.attempt (do
      seek e.line
      readLineHeader { e.based unit with workingDirectory := directory })
        e.tables.debugLine.cursor =
      .ok (if unit.lines.Taken then
        some (header, unit.lines.fileTables.paths { unit.texts with workingDirectory := directory })
      else none) := by
  obtain ⟨⟨rest, ahead⟩, headed⟩ := encodes.line declared
  have headed : (e.lines unit).Headed { e.based unit with workingDirectory := directory } :=
    ⟨headed.version, headed.address, headed.declared, headed.operations, headed.opcodeBase,
      headed.length, headed.fileTables⟩
  have readable := headed.readable encodes.str.sound encodes.lineStr.sound
  have width : (e.lines unit).wide = true ∨ (e.based unit).offsetSize = 4 := by
    cases wide : e.wide with
    | true => exact .inl wide
    | false => exact .inr (by simp [Encoding.based, Encoding.own, Encoding.offsetSize, wide])
  have paths : (e.lines unit).fileTables.paths
      ((e.lines unit).tables { e.based unit with workingDirectory := directory }) =
        unit.lines.fileTables.paths { unit.texts with workingDirectory := directory } := by
    refine FileTables.paths_congr _ (fun datum => ?_) rfl
    exact (Datum.meaning_tables (by rfl) (by rfl) datum).trans ((encodes.meaning_eq datum).trans
      (Datum.meaning_tables (by rfl) (by rfl) datum))
  have taken_iff : (e.lines unit).Taken ↔ unit.lines.Taken := Iff.rfl
  refine ⟨{ (e.lines unit).header e.line with lineBase := -5 }, ?_⟩
  rw [Reader.attempt, SectionView.seek_run ahead, headed.readLineHeader_run readable width ahead,
    paths]
  simp only [taken_iff]
  by_cases taken : unit.lines.Taken
  · rw [if_pos taken, if_pos taken]
  · rw [if_neg taken, if_neg taken]

theorem Encodes.resolveLines_eq (encodes : Encodes unit e) (wellFormed : unit.WellFormed) :
    resolveLines (e.based unit) unit.version (e.kept unit) u =
      .ok (if (unit.value? dwAtStmtList).isSome then
        { u with lineProgram := e.line, hasLineProgram := true, files := unit.files } else u) := by
  have name := encodes.resolveText_eq wellFormed (.inl rfl)
  have directory := encodes.resolveText_eq wellFormed (.inr rfl)
  rw [resolveLines, name, directory]
  have kept : lookup (e.kept unit) dwAtStmtList = _ := AbstractUnit.lookup_eq _ _ _
  rw [kept]
  cases found : unit.value? dwAtStmtList with
  | none => rfl
  | some value =>
      obtain ⟨form, rfl⟩ := wellFormed.value_pointer (by decide) found
      have declared : (unit.value? dwAtStmtList).isSome = true := by rw [found]; rfl
      obtain ⟨⟨rest, ahead⟩, -⟩ := encodes.line declared
      have inside : e.line + _ = e.tables.debugLine.size := ahead.position_add
      have nonempty : 0 < (e.lines unit).encode.length := by
        rw [LineUnit.length_encode, LineUnit.length_body]
        omega
      rw [List.length_append] at inside
      obtain ⟨header, read⟩ :=
        encodes.readLineHeader_files declared ((unit.text? dwAtCompDir).getD [])
      have plain : (e.based unit).workingDirectory = [] := encodes.plain.2.2
      have behind : ¬ e.tables.debugLine.size ≤ e.line := by omega
      change (if e.tables.debugLine.size ≤ e.line then Except.ok u else (do
        let decoded ← Reader.attempt (do
          seek e.line
          readLineHeader { e.based unit with
            workingDirectory := (unit.text? dwAtCompDir).getD (e.based unit).workingDirectory })
          e.tables.debugLine.cursor
        pure { u with
          lineProgram := e.line
          hasLineProgram := true
          files := (decoded.map fun d =>
            nameFirst unit.version ((unit.text? dwAtName).getD []) d.2).getD [] })) = _
      rw [if_neg behind, plain, read, AbstractUnit.files]
      by_cases taken : unit.lines.Taken
      · rw [if_pos taken, if_pos taken]
        rfl
      · rw [if_neg taken, if_neg taken]
        rfl

theorem Ranged.lines (ranged : Ranged unit e e' u v) :
    Ranged unit e e'
      (if (unit.value? dwAtStmtList).isSome then
        { u with lineProgram := e.line, hasLineProgram := true, files := unit.files } else u)
      (if (unit.value? dwAtStmtList).isSome then
        { v with lineProgram := e'.line, hasLineProgram := true, files := unit.files } else v) := by
  obtain ⟨⟨low, high, size, offset, indexed, lines, ranges, legacy, files⟩, own, base, list⟩ :=
    ranged
  split
  · exact ⟨⟨low, high, size, offset, indexed, rfl, ranges, legacy, rfl⟩, own, base, list⟩
  · exact ⟨⟨low, high, size, offset, indexed, lines, ranges, legacy, files⟩, own, base, list⟩

/-- Both readings of the unit come to an end, with the same addresses, flags and files. -/
theorem resolveUnit_ranged (wellFormed : unit.WellFormed) (encodes : Encodes unit e)
    (encodes' : Encodes unit e') (names : unit.ReachesRanges → NamesFirst unit e)
    (names' : unit.ReachesRanges → NamesFirst unit e') :
    ∃ u v, resolveUnit (e.own unit) unit.version (e.kept unit) = .ok u ∧
      resolveUnit (e'.own unit) unit.version (e'.kept unit) = .ok v ∧ Ranged unit e e' u v := by
  rw [encodes.resolveUnit_eq wellFormed, encodes'.resolveUnit_eq wellFormed,
    encodes.resolveLow_eq wellFormed, encodes'.resolveLow_eq wellFormed]
  obtain ⟨goes, paired⟩ := (@started_paired unit e e').low
  generalize lowIs : unit.low (e.started unit) = low at goes paired ⊢
  generalize unit.low (e'.started unit) = low' at goes paired ⊢
  obtain ⟨go, u⟩ := low
  obtain ⟨go', v⟩ := low'
  obtain rfl : go = go' := goes
  cases go with
  | false => exact ⟨u, v, rfl, rfl, paired.ranged⟩
  | true =>
      simp only [bind, Except.bind, if_true, encodes.resolveHigh_eq wellFormed,
        encodes'.resolveHigh_eq wellFormed]
      obtain ⟨goes, paired⟩ := paired.high
      generalize highIs : unit.high u = high at goes paired ⊢
      generalize unit.high v = high' at goes paired ⊢
      obtain ⟨go, u⟩ := high
      obtain ⟨go', v⟩ := high'
      obtain rfl : go = go' := goes
      cases go with
      | false => exact ⟨u, v, rfl, rfl, paired.ranged⟩
      | true =>
          have reaches : unit.ReachesRanges :=
            AbstractUnit.reachesRanges (congrArg Prod.fst lowIs) (congrArg Prod.fst highIs)
          obtain ⟨u', v', resolved, resolved', ranged⟩ :=
            paired.resolveRanges wellFormed encodes encodes' (names reaches) (names' reaches)
          simp only [if_true, resolved, resolved', encodes.resolveLines_eq wellFormed,
            encodes'.resolveLines_eq wellFormed]
          exact ⟨_, _, rfl, rfl, ranged.lines⟩

end Resolve

/-! ## Walking a range list -/

/-- What an entry of a range list says, where the addresses that it names are known. -/
def RangeItem.entry (address? : Nat → Option Nat) (base : Nat) : RangeItem → Option RangeEntry
  | .baseAddressx index => (address? index).map .base
  | .startxEndx start stop =>
      (address? start).bind fun first => (address? stop).map fun last => .range first last
  | .startxLength start length =>
      (address? start).map fun first => .range first (u64 (first + length))
  | .offsetPair start stop => some (.range (u64 (base + start)) (u64 (base + stop)))
  | .baseAddress address => some (.base address)
  | .startEnd start stop => some (.range start stop)
  | .startLength start length => some (.range start (u64 (start + length)))

/-- The walk of a list, and whether a visit stopped it. -/
def walkItems (address? : Nat → Option Nat) (visit : Nat → Nat → Bool) :
    Nat → List RangeItem → Option Bool
  | _, [] => some false
  | base, item :: items =>
      match item.entry address? base with
      | none => none
      | some .stop => some false
      | some (.base address) => walkItems address? visit address items
      | some (.range start stop) =>
          if visit start stop then walkItems address? visit base items else some true

section Walk

variable {tables : Tables} {address? : Nat → Option Nat} {addressSize count : Nat}

/-- The entry is read as what it says, or refused where it says nothing. -/
def Tells {α : Type} (m : Reader Cursor α) (bytes : List UInt8) : Option α → Prop
  | some a => Reads m bytes a
  | none => Refuses m bytes

theorem readIndexed_tells
    (known : ∀ index < count, indexedAddress tables index = .ok (address? index))
    {index : Nat} (named : index < count) :
    Tells (readIndexed tables index) [] (address? index) := by
  cases found : address? index with
  | none =>
      intro c rest ahead
      rw [readIndexed, known index named, found]
      rfl
  | some address =>
      intro c rest ahead
      rw [readIndexed, known index named, found]
      rfl

/-- A step that reads the bytes in front, and one that tells of the rest. -/
theorem Tells.bind {α β : Type} {m : Reader Cursor α} {f : α → Reader Cursor β} {a : α}
    {bytes bytes' : List UInt8} {b : Option β} (first : Reads m bytes a)
    (then_ : Tells (f a) bytes' b) : Tells (m >>= f) (bytes ++ bytes') b := by
  cases b with
  | none => exact first.bind_refuses then_
  | some b => exact first.bind then_

theorem Tells.bind_nil {α β : Type} {m : Reader Cursor α} {f : α → Reader Cursor β} {a : α}
    {bytes : List UInt8} {b : Option β} (first : Reads m [] a) (then_ : Tells (f a) bytes b) :
    Tells (m >>= f) bytes b :=
  Tells.bind first then_

/-- A step that reads nothing and may refuse, before one that reads. -/
theorem Tells.map_bind {α β : Type} {m : Reader Cursor α} {f : α → Reader Cursor β} {g : α → β}
    {bytes : List UInt8} {a : Option α} (first : Tells m [] a)
    (then_ : ∀ a, Reads (f a) bytes (g a)) : Tells (m >>= f) bytes (a.map g) := by
  cases a with
  | none => exact Refuses.append (Refuses.bind first) bytes
  | some a => exact Reads.bind_nil first (then_ a)

theorem readRangeEntry_tells
    (known : ∀ index < count, indexedAddress tables index = .ok (address? index))
    (width : tables.addressSize = addressSize) (pos : 0 < addressSize) (le : addressSize ≤ 8)
    (few : count ≤ 2 ^ 64) {item : RangeItem} (wellFormed : item.WellFormed addressSize count)
    (base : Nat) :
    Tells (readRangeEntry tables base) (item.bytes addressSize) (item.entry address? base) := by
  have code (value : Nat) (small : value < 128) : Reads uleb [UInt8.ofNat value] value := by
    have reads := @Reads.uleb value (by omega)
    rwa [encodeUleb, ulebBytes, if_pos small] at reads
  have number {value : Nat} (small : value < 2 ^ 64) : Reads uleb (encodeUleb value) value :=
    .uleb small
  have address {value : Nat} (small : value < 256 ^ addressSize) :
      Reads (fixed tables.addressSize) (toBytes addressSize value) value := by
    rw [width]
    exact .fixed pos le small
  cases item with
  | baseAddressx index =>
      have named : index < count := wellFormed
      refine Tells.bind (code 1 (by decide)) ?_
      rw [← List.append_nil (encodeUleb index)]
      refine Tells.bind (number (by omega)) ?_
      exact (readIndexed_tells known named).map_bind fun _ => .pure _
  | startxEndx start stop =>
      obtain ⟨named, named'⟩ := wellFormed
      refine Tells.bind (code 2 (by decide)) (Tells.bind (number (by omega)) ?_)
      change Tells _ _ ((address? start).bind _)
      have first := readIndexed_tells known named
      cases found : address? start with
      | none =>
          rw [found] at first
          exact Refuses.append (Refuses.bind first) _
      | some address =>
          rw [found] at first
          refine Tells.bind_nil first ?_
          rw [← List.append_nil (encodeUleb stop)]
          refine Tells.bind (number (by omega)) ?_
          exact (readIndexed_tells known named').map_bind fun _ => .pure _
  | startxLength start length =>
      obtain ⟨named, small⟩ := wellFormed
      refine Tells.bind (code 3 (by decide)) (Tells.bind (number (by omega)) ?_)
      rw [← List.append_nil (encodeUleb length)]
      refine Tells.bind (number small) ?_
      exact (readIndexed_tells known named).map_bind fun _ => .pure _
  | offsetPair start stop =>
      obtain ⟨small, small'⟩ := wellFormed
      refine Tells.bind (code 4 (by decide)) (Tells.bind (number small) ?_)
      exact (number small').bind_pure (.pure _)
  | baseAddress first =>
      refine Tells.bind (code 5 (by decide)) ?_
      exact (address wellFormed).bind_pure (.pure _)
  | startEnd start stop =>
      obtain ⟨small, small'⟩ := wellFormed
      refine Tells.bind (code 6 (by decide)) (Tells.bind (address small) ?_)
      exact (address small').bind_pure (.pure _)
  | startLength start length =>
      obtain ⟨small, small'⟩ := wellFormed
      refine Tells.bind (code 7 (by decide)) (Tells.bind (address small) ?_)
      exact (number small').bind_pure (.pure _)

/-- A list is walked as its entries say, in as many turns as it has bytes. -/
theorem walkEntries_attempt {entry : Nat → Reader Cursor RangeEntry} {visit : Nat → Nat → Bool}
    {items : List RangeItem}
    (tells : ∀ item ∈ items, ∀ base,
      Tells (entry base) (item.bytes addressSize) (item.entry address? base))
    (ends : ∀ base, Reads (entry base) [0] .stop) {fuel base : Nat} (turns : items.length < fuel)
    {c : Cursor} {rest : List UInt8} (ahead : c.Over (listBytes addressSize items ++ rest)) :
    Reader.attempt (walkEntries entry visit fuel base) c =
      .ok (walkItems address? visit base items) := by
  obtain ⟨fuel, rfl⟩ := Nat.exists_eq_succ_of_ne_zero (Nat.ne_zero_of_lt turns)
  induction items generalizing fuel base c with
  | nil =>
      rw [Reader.attempt, walkEntries, (ends base).run_bind ahead]
      rfl
  | cons item items ih =>
      rw [List.length_cons] at turns
      obtain ⟨fuel, rfl⟩ := Nat.exists_eq_succ_of_ne_zero (by omega : fuel ≠ 0)
      have over' : c.Over (item.bytes addressSize ++ (listBytes addressSize items ++ rest)) := by
        simpa only [listBytes, List.flatMap_cons, List.append_assoc] using ahead
      have told := tells item List.mem_cons_self base
      have further (base : Nat) : Reader.attempt (walkEntries entry visit (fuel + 1) base)
          (c.advance (item.bytes addressSize).length) = .ok (walkItems address? visit base items) :=
        ih (fun other member => tells other (List.mem_cons_of_mem _ member)) over'.advance fuel
          (by omega)
      rw [walkItems]
      cases meant : item.entry address? base with
      | none =>
          rw [meant] at told
          have refuses : Refuses (entry base) (item.bytes addressSize) := told
          rw [Reader.attempt, walkEntries, run_bind_error (refuses c _ over')]
      | some found =>
          rw [meant] at told
          have reads : Reads (entry base) (item.bytes addressSize) found := told
          rw [Reader.attempt, walkEntries, reads.run_bind over']
          cases found with
          | stop => rfl
          | base address => exact further address
          | range start stop =>
              by_cases more : visit start stop = true
              · simp only [more, if_true]
                exact further base
              · simp only [more, Bool.false_eq_true, if_false]
                rfl

theorem length_items (items : List RangeItem) :
    items.length < (listBytes addressSize items).length := by
  induction items with
  | nil => exact Nat.one_pos
  | cons item items ih =>
      have pos : 0 < (item.bytes addressSize).length := by cases item <;> exact Nat.succ_pos _
      rw [listBytes, List.length_append] at ih ⊢
      rw [List.flatMap_cons, List.length_append, List.length_cons]
      omega

/-- A list of version 5 is walked as its entries say, wherever it is. -/
theorem walkRanges_attempt
    (known : ∀ index < count, indexedAddress tables index = .ok (address? index))
    (width : tables.addressSize = addressSize) (pos : 0 < addressSize) (le : addressSize ≤ 8)
    (few : count ≤ 2 ^ 64) {items : List RangeItem}
    (wellFormed : ∀ item ∈ items, item.WellFormed addressSize count) {view : SectionView}
    {offset base : Nat} {visit : Nat → Nat → Bool}
    (has : view.Has offset (listBytes addressSize items)) :
    Reader.attempt (do
      seek offset
      walkRanges tables base visit) view.cursor = .ok (walkItems address? visit base items) := by
  obtain ⟨rest, ahead⟩ := has
  have inside : offset + _ = view.size := ahead.position_add
  have long := @length_items addressSize items
  have ends (base : Nat) : Reads (readRangeEntry tables base) [0] .stop :=
    (@Reads.uleb 0 (by decide)).bind_pure (.pure _)
  rw [List.length_append] at inside
  have walked : Reader.attempt (walkEntries (readRangeEntry tables) visit
      (view.size - offset + 1) base) ⟨view.data, view.size, offset⟩ = _ :=
    walkEntries_attempt (fun item member base =>
      readRangeEntry_tells known width pos le few (wellFormed item member) base)
      ends (by omega) ahead
  rw [Reader.attempt, SectionView.seek_run ahead]
  exact walked

/-- A walk stays among the bytes that are left. -/
theorem walkEntries_tracks {entry : Nat → Reader Cursor RangeEntry} {rest : List UInt8}
    (tracks : ∀ base bytes, Tracks (rest ≠ []) 0 (entry base) (entry base) bytes rest)
    (visit : Nat → Nat → Bool) (fuel base : Nat) (bytes : List UInt8) :
    Tracks (rest ≠ []) 0 (walkEntries entry visit fuel base) (walkEntries entry visit fuel base)
      bytes rest := by
  induction fuel generalizing base bytes with
  | zero => exact .stop .running
  | succ fuel ih =>
      refine .bind (tracks base bytes) fun found _ _ _ => ?_
      cases found with
      | stop => exact .pure false
      | base address => exact ih address _
      | range start stop => exact .ite (fun _ => ih base _) fun _ => .pure true

theorem readLegacyEntry_settles (bytes : List UInt8) :
    Settles 1 (readLegacyEntry addressSize) bytes := by
  refine .bind (.fixed addressSize) fun start back => .ite ?_ (.ite (.pure _) ?_)
  · exact (Settles.bind (.fixed addressSize) fun _ _ => .pure _).weaken
  · exact (Settles.bind (.fixed addressSize) fun _ _ => .pure _).weaken

/-- Over the same bytes a reader comes to the same. -/
theorem Tracks.attempt_eq {α : Type} {m : Reader Cursor α} {bytes : List UInt8} {c c' : Cursor}
    (tracks : Tracks ([] ≠ ([] : List UInt8)) 0 m m bytes []) (ahead : c.Over bytes)
    (over' : c'.Over bytes) : Reader.attempt m c = Reader.attempt m c' := by
  rw [Reader.attempt, Reader.attempt]
  rcases tracks c c' ahead (by rwa [List.append_nil]) with
    ⟨a, used, -, -, run, run'⟩ | ⟨stop, run, run'⟩ | ⟨-, excused⟩
  · rw [run, run']
  · rw [run, run']
  · exact absurd rfl excused

/-- The walk of a list of `.debug_ranges` depends on the bytes of the section only. -/
theorem walkLegacyRanges_attempt {view view' : SectionView} {bytes : List UInt8}
    (is : view.Is bytes) (is' : view'.Is bytes) {offset base : Nat} {visit : Nat → Nat → Bool}
    (inside : offset < bytes.length) :
    Reader.attempt (do
      seek offset
      walkLegacyRanges addressSize base visit) view.cursor =
    Reader.attempt (do
      seek offset
      walkLegacyRanges addressSize base visit) view'.cursor := by
  have at_ {view : SectionView} (is : view.Is bytes) :
      Cursor.Over ⟨view.data, view.size, offset⟩ (bytes.drop offset) := by
    obtain ⟨size, small, empty | ⟨more, data⟩⟩ := is
    · rw [empty] at inside
      exact absurd inside (Nat.not_lt_zero _)
    · have whole : Cursor.Over ⟨view.data, view.size, 0⟩ bytes :=
        ⟨[], more, by rw [data]; rfl, rfl, by rw [size]; simp, size.trans_lt small⟩
      have sought := whole.drop inside.le
      simpa [Cursor.advance] using sought
  have run {view : SectionView} (is : view.Is bytes) : Reader.attempt (do
      seek offset
      walkLegacyRanges addressSize base visit) view.cursor =
      Reader.attempt (walkEntries (fun _ => readLegacyEntry addressSize) visit
        (bytes.length - offset + 1) base) ⟨view.data, view.size, offset⟩ := by
    rw [Reader.attempt, SectionView.seek_run (at_ is), Reader.attempt, ← is.1]
    rfl
  rw [run is, run is']
  exact Tracks.attempt_eq (walkEntries_tracks (fun _ bytes =>
    .ofSettles (readLegacyEntry_settles bytes).weaken) visit _ base _) (at_ is) (at_ is')

end Walk

/-! ## Both formats -/

section Formats

variable {unit : AbstractUnit} {e e' : Encoding} {u v : CompilationUnit}

/-- The reader of a range list of the unit finds the addresses that it names. -/
theorem Encodes.walkRanges_attempt (encodes : Encodes unit e) (wellFormed : unit.WellFormed)
    {list : List RangeItem} (member : list ∈ unit.rangeLists) {offset base : Nat}
    {visit : Nat → Nat → Bool}
    (has : e.tables.debugRnglists.Has offset (listBytes unit.addressSize list)) :
    Reader.attempt (do
      seek offset
      walkRanges { e.tables with
        addressSize := unit.addressSize, addrBase := unit.base e dwAtAddrBase } base visit)
      e.tables.debugRnglists.cursor = .ok (walkItems unit.address? visit base list) := by
  have few : unit.addressCount ≤ 2 ^ 64 := by
    unfold AbstractUnit.addressCount
    split
    · exact wellFormed.count
    · exact le_rfl
  refine Debug.walkRanges_attempt (fun index named => ?_) rfl wellFormed.address.1
    wellFormed.address.2 few (wellFormed.items list member) has
  exact @Encodes.indexedAddress_eq _ _ { e.tables with
    addressSize := unit.addressSize, addrBase := unit.base e dwAtAddrBase } encodes wellFormed rfl
    rfl rfl _ named

/-- The two readings of a unit cover the same addresses. -/
theorem Ranged.unitCovers (ranged : Ranged unit e e' u v) (wellFormed : unit.WellFormed)
    (encodes : Encodes unit e) (encodes' : Encodes unit e') (linkAddress : Nat) :
    Debug.unitCovers e.tables u linkAddress = Debug.unitCovers e'.tables v linkAddress := by
  obtain
    ⟨⟨low, high, size, offset, indexed, lines, has, legacy, files⟩, own, ⟨base, base'⟩, list⟩ :=
    ranged
  have own' : v.addressSize = unit.addressSize := size.symm.trans own
  unfold Debug.unitCovers rangeSection walkUnit
  rw [← has, ← legacy, ← low, ← high, ← offset, own, own', base, base']
  cases ranges : u.hasRanges with
  | false => rw [if_neg Bool.false_ne_true, if_neg Bool.false_ne_true]
  | true =>
      have list := list ranges
      simp only [if_true]
      cases old : u.legacyRanges with
      | true =>
          rw [old] at list
          simp only [if_true] at list ⊢
          rw [← list, encodes.legacyRanges.1, encodes'.legacyRanges.1]
          by_cases outside : unit.legacyRanges.length ≤ u.ranges
          · rw [if_pos outside, if_pos outside]
          · rw [if_neg outside, if_neg outside,
              walkLegacyRanges_attempt encodes.legacyRanges encodes'.legacyRanges (by omega)]
      | false =>
          rw [old] at list
          obtain ⟨items, member, here, there⟩ := list
          simp only [Bool.false_eq_true, if_false]
          have inside {e : Encoding} {place : Nat}
              (has : e.tables.debugRnglists.Has place (listBytes unit.addressSize items)) :
              ¬ e.tables.debugRnglists.size ≤ place := by
            obtain ⟨rest, ahead⟩ := has
            have inside : place + _ = e.tables.debugRnglists.size := ahead.position_add
            have long := @length_items unit.addressSize items
            rw [List.length_append] at inside
            omega
          rw [if_neg (inside here), if_neg (inside there),
            encodes.walkRanges_attempt wellFormed member here,
            encodes'.walkRanges_attempt wellFormed member there]

/-- The readings of a unit in both formats: `read_unit` gives units with the same addresses, flags
and file table, and `unit_covers` the same answer for every address. -/
def ReadAlike (e e' : Encoding) : Prop :=
  ∃ u v next next' c c', (readUnit e.abbrevs e.tables).run e.info = .ok ((u, next), c) ∧
    (readUnit e'.abbrevs e'.tables).run e'.info = .ok ((v, next'), c') ∧ u.Alike v ∧
      ∀ linkAddress, unitCovers e.tables u linkAddress = unitCovers e'.tables v linkAddress

/-- A unit is read alike in the 32-bit and in the 64-bit format, unless its ranges are reached and
it names its range list by an index into the table of offsets, other than zero. -/
theorem widths_agree (wellFormed : unit.WellFormed) (encodes : Encodes unit e)
    (encodes' : Encodes unit e') (narrow : e.wide = false) (_wide : e'.wide = true)
    (names : unit.ReachesRanges → NamesFirst unit e') : ReadAlike e e' := by
  have short : unit.ReachesRanges → NamesFirst unit e := by
    intro reaches datum found
    obtain ⟨first, declared, -⟩ := names reaches datum found
    refine ⟨first, declared, fun offset listed => ?_⟩
    obtain ⟨-, -, small, -⟩ := encodes.offsetTable declared
    have bound := small offset (List.mem_of_getElem? listed)
    rw [Encoding.offsetSize, narrow] at bound
    exact bound
  obtain ⟨u, v, resolved, resolved', ranged⟩ :=
    resolveUnit_ranged wellFormed encodes encodes' short names
  obtain ⟨next, c, read⟩ := encodes.readUnit_ok wellFormed resolved
  obtain ⟨next', c', read'⟩ := encodes'.readUnit_ok wellFormed resolved'
  exact ⟨u, v, next, next', c, c', read, read', ranged.alike,
    ranged.unitCovers wellFormed encodes encodes'⟩

end Formats

/-! ## A unit with two range lists -/

/-- A unit of version 5 with two range lists, that names one of them by an index. -/
def listedUnit (second : Bool) : AbstractUnit where
  version := 5
  addressSize := 8
  attributes := [(dwAtStmtList, .pointer .secOffset),
    (dwAtRanges, .datum (.number dwFormRnglistx second.toNat)),
    (dwAtRnglistsBase, .pointer .secOffset)]
  str := []
  lineStr := []
  strOffsets := []
  addresses := []
  legacyRanges := []
  rangeLists := [[.startLength 0x10 0x10], [.startLength 0x40 0x10]]
  ranges := 0
  lines := oneFile (-5)

/-- What stands in front of the table of offsets. -/
def listsHead (wide : Bool) : List UInt8 :=
  frameBytes wide (if wide then 46 else 38) ++ (toBytes 2 5 ++ ([8, 0] ++ toBytes 4 2))

/-- The offsets of the two lists, from the table on. -/
def listsOffsets (wide : Bool) : List Nat := if wide then [16, 27] else [8, 19]

def listsBytes (wide : Bool) : List UInt8 :=
  listsHead wide ++ ((listsOffsets wide).flatMap (toBytes (if wide then 8 else 4)) ++
    (listBytes 8 [.startLength 0x10 0x10] ++ listBytes 8 [.startLength 0x40 0x10]))

/-- The file with the unit, before its root entry and its abbreviation. -/
def listedPlaces (wide : Bool) : Encoding where
  wide := wide
  code := 1
  hasChildren := 0
  children := []
  earlier := []
  abbrevOffset := 0
  line := 0
  ranges := 0
  addrBase := 0
  strOffsetsBase := 0
  rnglistsBase := (listsHead wide).length
  listOffsets := listsOffsets wide
  info := whole []
  abbrevs := sectionOf []
  tables := onlyLines

/-- The file with the unit. -/
def listedEncoding (wide second : Bool) : Encoding :=
  { listedPlaces wide with
    info := whole (frameBytes wide ((listedPlaces wide).body (listedUnit second)).length ++
      (listedPlaces wide).body (listedUnit second))
    abbrevs := sectionOf ((listedPlaces wide).abbrevBytes (listedUnit second))
    tables := { onlyLines with
      debugLine := sectionOf ((listedPlaces wide).lines (listedUnit second)).encode
      debugRnglists := sectionOf (listsBytes wide) } }

theorem sectionOf_has {front bytes rest : List UInt8}
    (small : (front ++ (bytes ++ rest)).length < 2 ^ 64) :
    (sectionOf (front ++ (bytes ++ rest))).Has front.length bytes := by
  refine ⟨rest, front, [], by rw [List.append_nil]; rfl, rfl, ?_, small⟩
  rw [sectionOf, List.length_append]

theorem listedUnit_wellFormed (second : Bool) : (listedUnit second).WellFormed where
  version := of_decide_eq_true rfl
  address := of_decide_eq_true rfl
  few := of_decide_eq_true rfl
  codes := of_decide_eq_true rfl
  fits := by
    intro declared member
    simp only [listedUnit, List.mem_cons, List.not_mem_nil, or_false] at member
    rcases member with rfl | rfl | rfl
    · exact (by decide : dwAtStmtList ∈ dwAtRanges :: pointerAttributes)
    · refine ⟨by cases second <;> decide, by decide, fun _ => ⟨second.toNat, rfl, ?_⟩, ?_, ?_⟩
      · cases second <;> decide
      · rintro (absurd | absurd) <;> exact nomatch absurd
      · rintro (absurd | absurd) <;> exact nomatch absurd
    · exact (by decide : dwAtRnglistsBase ∈ dwAtRanges :: pointerAttributes)
  strings := of_decide_eq_true rfl
  numbers := of_decide_eq_true rfl
  count := of_decide_eq_true rfl
  items := by
    intro list member item listed
    simp only [listedUnit, List.mem_cons, List.not_mem_nil, or_false] at member
    rcases member with rfl | rfl
    · obtain rfl := List.mem_singleton.mp listed
      exact (by decide : 0x10 < 256 ^ 8 ∧ 0x10 < 2 ^ 64)
    · obtain rfl := List.mem_singleton.mp listed
      exact (by decide : 0x40 < 256 ^ 8 ∧ 0x10 < 2 ^ 64)

theorem listedLines_headed (wide : Bool) :
    { oneFile (-5) with wide := wide }.Headed onlyLines where
  version := of_decide_eq_true rfl
  address := of_decide_eq_true rfl
  declared := fun _ => rfl
  operations := fun _ => rfl
  opcodeBase := of_decide_eq_true rfl
  length := by cases wide <;> decide +kernel
  fileTables := by
    cases wide <;> refine ⟨of_decide_eq_true rfl, ⟨?_, ?_, ?_, ?_, ?_⟩, ⟨?_, ?_, ?_, ?_, ?_⟩⟩ <;>
      exact of_decide_eq_true rfl

theorem listsBytes_small (wide : Bool) : (listsBytes wide).length < 2 ^ 64 := by
  cases wide <;> decide +kernel

/-- Both lists are where their offsets say. -/
theorem listsBytes_lists (wide : Bool) (index : Nat) (list : List RangeItem)
    (listed : (listedUnit false).rangeLists[index]? = some list) :
    ∃ offset, (listsOffsets wide)[index]? = some offset ∧
      (sectionOf (listsBytes wide)).Has ((listsHead wide).length + offset) (listBytes 8 list) := by
  have small := listsBytes_small wide
  match index, listed with
  | 0, listed =>
      cases listed
      have split : listsBytes wide = (listsHead wide ++
          (listsOffsets wide).flatMap (toBytes (if wide then 8 else 4))) ++
          (listBytes 8 [.startLength 0x10 0x10] ++ listBytes 8 [.startLength 0x40 0x10]) :=
        (List.append_assoc _ _ _).symm
      rw [split] at small ⊢
      have has := sectionOf_has small
      cases wide with
      | false => exact ⟨8, rfl, has⟩
      | true => exact ⟨16, rfl, has⟩
  | 1, listed =>
      cases listed
      have split : listsBytes wide = (listsHead wide ++
          ((listsOffsets wide).flatMap (toBytes (if wide then 8 else 4)) ++
            listBytes 8 [.startLength 0x10 0x10])) ++
            (listBytes 8 [.startLength 0x40 0x10] ++ []) := by
        simp only [listsBytes, List.append_assoc, List.append_nil]
      rw [split] at small ⊢
      have has := sectionOf_has small
      cases wide with
      | false => exact ⟨19, rfl, has⟩
      | true => exact ⟨27, rfl, has⟩

theorem listedEncoding_encodes (wide second : Bool) :
    Encodes (listedUnit second) (listedEncoding wide second) where
  code := of_decide_eq_true rfl
  length := by cases wide <;> cases second <;> decide +kernel
  info := by
    refine ⟨[], ?_⟩
    rw [List.append_nil]
    exact whole_over (by cases wide <;> cases second <;> decide +kernel)
  abbrevs := by
    have has := @sectionOf_has [] ((listedPlaces wide).abbrevBytes (listedUnit second)) []
      (by cases wide <;> cases second <;> decide +kernel)
    rw [List.append_nil] at has
    exact has
  earlier := fun _ listed => nomatch listed
  offsets := by cases wide <;> cases second <;> decide +kernel
  plain := ⟨rfl, rfl, rfl⟩
  str := ⟨rfl, of_decide_eq_true rfl, .inl rfl⟩
  lineStr := ⟨rfl, of_decide_eq_true rfl, .inl rfl⟩
  strOffsets := by
    intro declared
    cases second <;> cases declared
  addresses := by
    intro declared
    cases second <;> cases declared
  legacyRanges := ⟨rfl, of_decide_eq_true rfl, .inl rfl⟩
  offsetTable := by
    intro _
    refine ⟨?_, sectionOf_has (listsBytes_small wide), ?_, listsBytes_lists wide⟩
    · cases wide <;> exact of_decide_eq_true rfl
    · cases wide <;> exact of_decide_eq_true rfl
  rangeList := by
    intro form found
    cases second <;> cases found
  line := by
    intro _
    refine ⟨?_, ?_⟩
    · have has := @sectionOf_has [] ((listedPlaces wide).lines (listedUnit second)).encode []
        (by cases wide <;> cases second <;> decide +kernel)
      rw [List.append_nil] at has
      exact has
    · have headed := listedLines_headed wide
      exact ⟨headed.version, headed.address, fun _ => rfl, headed.operations, headed.opcodeBase,
        headed.length, headed.fileTables⟩

/-- A unit that names the first list is read alike. -/
theorem widths_agree_first : (listedUnit false).ReachesRanges ∧
    NamesFirst (listedUnit false) (listedEncoding true false) ∧
    ReadAlike (listedEncoding false false) (listedEncoding true false) := by
  have reaches : (listedUnit false).ReachesRanges := by
    intro attr member value found
    rcases List.mem_pair.mp member with rfl | rfl <;> cases found
  have names : NamesFirst (listedUnit false) (listedEncoding true false) := by
    intro datum found
    cases found
    refine ⟨rfl, rfl, fun offset listed => ?_⟩
    cases listed
    decide
  exact ⟨reaches, names, widths_agree (listedUnit_wellFormed false)
    (listedEncoding_encodes false false) (listedEncoding_encodes true false) rfl rfl fun _ => names⟩

/-- What is read of the unit that names the second list. -/
def secondUnit (wide : Bool) : CompilationUnit where
  ranges := if wide then 20 else 31
  addressSize := 8
  hasLineProgram := true
  hasRanges := true
  files := [[47, 115, 47, 97]]

/-- In the 64-bit format the upper half of the first offset is taken for the second one, and the
table of offsets for the range list. -/
theorem not_widths_agree_second : (listedUnit true).WellFormed ∧
    Encodes (listedUnit true) (listedEncoding false true) ∧
    Encodes (listedUnit true) (listedEncoding true true) ∧
    ¬ ReadAlike (listedEncoding false true) (listedEncoding true true) := by
  refine ⟨listedUnit_wellFormed true, listedEncoding_encodes false true,
    listedEncoding_encodes true true, ?_⟩
  rintro ⟨u, v, next, next', c, c', read, read', -, covers⟩
  have first :
      ((readUnit (listedEncoding false true).abbrevs (listedEncoding false true).tables).run
      (listedEncoding false true).info).map (·.1.1) = .ok (secondUnit false) := by decide +kernel
  have second : ((readUnit (listedEncoding true true).abbrevs (listedEncoding true true).tables).run
      (listedEncoding true true).info).map (·.1.1) = .ok (secondUnit true) := by decide +kernel
  rw [read] at first
  rw [read'] at second
  cases first
  cases second
  have differ : unitCovers (listedEncoding false true).tables (secondUnit false) 0x40 ≠
      unitCovers (listedEncoding true true).tables (secondUnit true) 0x40 := by decide +kernel
  exact differ (covers 0x40)

end Fpag.Debug
