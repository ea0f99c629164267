import Fpag.Debug.LineProgram

/-!
`read_unit` and `unit_covers`: the compilation units of `.debug_info` and the addresses that
they cover.

`read_unit` reports success on most of its ways out, with what it has filled in by then; here
`orElse` gives that unit where a read is refused. A walk of a range list gives whether a visit
stopped it.
-/

namespace Fpag.Debug

open Cursor

def dwTagCompileUnit : Nat := 0x11
def dwUtCompile : Nat := 0x01

def dwAtName : Nat := 0x03
def dwAtStmtList : Nat := 0x10
def dwAtLowPc : Nat := 0x11
def dwAtHighPc : Nat := 0x12
def dwAtCompDir : Nat := 0x1B
def dwAtRanges : Nat := 0x55
def dwAtStrOffsetsBase : Nat := 0x72
def dwAtAddrBase : Nat := 0x73
def dwAtRnglistsBase : Nat := 0x74

def dwRleEndOfList : Nat := 0x00
def dwRleBaseAddressx : Nat := 0x01
def dwRleStartxEndx : Nat := 0x02
def dwRleStartxLength : Nat := 0x03
def dwRleOffsetPair : Nat := 0x04
def dwRleBaseAddress : Nat := 0x05
def dwRleStartEnd : Nat := 0x06
def dwRleStartLength : Nat := 0x07

def maxTrackedAttributes : Nat := 16

/-! ## Attributes -/

/-- `Found`: an attribute that the reader wants. -/
structure Found : Type where
  attr : Nat
  form : Nat
  value : FormValue
  deriving DecidableEq

/-- The attributes that are kept. -/
def wanted (attr : Nat) : Bool :=
  attr ∈ [dwAtName, dwAtCompDir, dwAtStmtList, dwAtLowPc, dwAtHighPc, dwAtRanges, dwAtAddrBase,
    dwAtStrOffsetsBase, dwAtRnglistsBase]

/-- What was found, with one more attribute if it is wanted and there is room. -/
def track (found : List Found) (declared : AbbreviationAttribute) (value : FormValue) :
    List Found :=
  if wanted declared.attr && found.length < maxTrackedAttributes then
    found ++ [⟨declared.attr, declared.form, value⟩]
  else found

/-- The pass over the attributes of the root entry, which ends at a form that is refused. -/
def readFound (tables : Tables) :
    List AbbreviationAttribute → List Found → Reader Cursor (List Found)
  | [], found => pure found
  | declared :: attributes, found =>
      (readForm tables declared declared.form).orElse found fun value =>
        readFound tables attributes (track found declared value)

/-- The lambda `lookup`. -/
def lookup (found : List Found) (attr : Nat) : Option Found := found.find? (·.attr = attr)

/-! ## What the attributes say

Each step gives the unit as it is filled in, and whether the reader goes on. -/

/-- The bases of the indexed forms. -/
def resolveBases (found : List Found) (unit : CompilationUnit) : CompilationUnit :=
  { unit with
    addrBase := ((lookup found dwAtAddrBase).map (·.value.value)).getD unit.addrBase
    strOffsetsBase :=
      ((lookup found dwAtStrOffsetsBase).map (·.value.value)).getD unit.strOffsetsBase }

def resolveLow (tables : Tables) (found : List Found) (unit : CompilationUnit) :
    Except Stop (Bool × CompilationUnit) :=
  match lookup found dwAtLowPc with
  | none => .ok (true, unit)
  | some low =>
      if low.value.indexed then do
        let address ← indexedAddress tables low.value.value
        pure (address.isSome, { unit with indexedAddresses := true, lowPc := address.getD 0 })
      else
        .ok (true, { unit with indexedAddresses := false, lowPc := low.value.value })

def resolveHigh (tables : Tables) (found : List Found) (unit : CompilationUnit) :
    Except Stop (Bool × CompilationUnit) :=
  match lookup found dwAtHighPc with
  | none => .ok (true, unit)
  | some high =>
      if high.value.indexed then do
        let address ← indexedAddress tables high.value.value
        pure (address.isSome, { unit with offsetHighPc := false, highPc := address.getD 0 })
      else
        .ok (true, { unit with
          offsetHighPc := high.form ≠ dwFormAddr
          highPc := high.value.value })

def resolveRanges (tables : Tables) (version : Nat) (found : List Found) (unit : CompilationUnit) :
    Except Stop CompilationUnit :=
  match lookup found dwAtRanges with
  | none => .ok unit
  | some ranges =>
      if ranges.form = dwFormRnglistx then do
        let base := ((lookup found dwAtRnglistsBase).map (·.value.value)).getD 0
        let offset ← indexedOffset tables.debugRnglists base ranges.value.value 4
        pure { unit with hasRanges := true, ranges := u64 (offset + base) }
      else
        .ok { unit with
          hasRanges := true
          ranges := ranges.value.value
          legacyRanges := version < 5 }

/-- The string of an attribute, which may be named by an index. -/
def resolveText (tables : Tables) : Option Found → Except Stop (Option (List UInt8))
  | none => .ok none
  | some found =>
      if found.value.text = none ∧ found.value.indexed then
        indexedString tables found.value.value
      else .ok found.value.text

/-- Before version 5 index zero of the file table stands for the name of the unit. -/
def nameFirst (version : Nat) (name : List UInt8) : List (List UInt8) → List (List UInt8)
  | [] => []
  | file :: files => if version < 5 ∧ name ≠ [] then name :: files else file :: files

def resolveLines (tables : Tables) (version : Nat) (found : List Found) (unit : CompilationUnit) :
    Except Stop CompilationUnit :=
  match lookup found dwAtStmtList with
  | none => .ok unit
  | some statementList =>
      if tables.debugLine.size ≤ statementList.value.value then .ok unit
      else do
        let name ← resolveText tables (lookup found dwAtName)
        let directory ← resolveText tables (lookup found dwAtCompDir)
        let decoded ← Reader.attempt (do
          seek statementList.value.value
          readLineHeader { tables with
            workingDirectory := directory.getD tables.workingDirectory }) tables.debugLine.cursor
        pure { unit with
          lineProgram := statementList.value.value
          hasLineProgram := true
          files := (decoded.map fun d => nameFirst version (name.getD []) d.2).getD [] }

/-- All that the attributes of the root entry say about the unit. -/
def resolveUnit (tables : Tables) (version : Nat) (found : List Found) :
    Except Stop CompilationUnit := do
  let unit := resolveBases found { addressSize := tables.addressSize }
  let tables := { tables with
    addrBase := unit.addrBase
    strOffsetsBase :=
      ((lookup found dwAtStrOffsetsBase).map (·.value.value)).getD tables.strOffsetsBase }
  let low ← resolveLow tables found unit
  if low.1 then do
    let high ← resolveHigh tables found low.2
    if high.1 then do
      let ranged ← resolveRanges tables version found high.2
      resolveLines tables version found ranged
    else pure high.2
  else pure low.2

/-! ## Units -/

/-- The root entry of a unit. -/
def readRoot (abbrevs : SectionView) (tables : Tables) (version abbrevOffset : Nat) :
    Reader Cursor CompilationUnit :=
  (do
    let code ← uleb
    Reader.require (code ≠ 0)
    pure code : Reader Cursor Nat).orElse { addressSize := tables.addressSize } fun code => do
      match ← Reader.ofExcept (Reader.attempt (do
          seek abbrevOffset
          readAbbreviation code) abbrevs.cursor) with
      | none => pure { addressSize := tables.addressSize }
      | some declaration =>
          if declaration.tag ≠ dwTagCompileUnit then pure { addressSize := tables.addressSize }
          else do
            let found ← readFound tables declaration.attributes []
            Reader.ofExcept (resolveUnit tables version found)

/-- What follows the version of a unit. From version 5 on the width of an address stands in
front of the offset of the abbreviations, before that behind it. -/
def readUnitBody (abbrevs : SectionView) (tables : Tables) (version : Nat) :
    Reader Cursor CompilationUnit :=
  if 5 ≤ version then
    (fixed 1).orElse {} fun unitType =>
      (fixed 1).orElse { addressSize := 0 } fun addressSize =>
        if unitType ≠ dwUtCompile then pure { addressSize := addressSize }
        else
          (fixed tables.offsetSize).orElse { addressSize := addressSize } fun abbrevOffset =>
            readRoot abbrevs { tables with addressSize := addressSize } version abbrevOffset
  else
    (fixed tables.offsetSize).orElse {} fun abbrevOffset =>
      (fixed 1).orElse { addressSize := 0 } fun addressSize =>
        readRoot abbrevs { tables with addressSize := addressSize } version abbrevOffset

/-- The unit behind its length. -/
def readUnitContents (abbrevs : SectionView) (tables : Tables) : Reader Cursor CompilationUnit :=
  (do
    let version ← fixed 2
    Reader.require (2 ≤ version && version ≤ 5)
    pure version : Reader Cursor Nat).orElse {} fun version => readUnitBody abbrevs tables version

/-- `read_unit`: the unit and the offset of the one behind it. -/
def readUnit (abbrevs : SectionView) (tables : Tables) : Reader Cursor (CompilationUnit × Nat) := do
  let length ← readUnitLength tables.offsetSize
  let c ← get
  let unit ← readUnitContents abbrevs { tables with offsetSize := length.2 }
  pure (unit, u64 (c.position + length.1))

/-! ## Ranges -/

/-- One entry of a range list: where the list ends, the base that it selects, or the addresses
that it covers. -/
inductive RangeEntry : Type
  | stop
  | base (address : Nat)
  | range (first last : Nat)
  deriving DecidableEq

/-- An address that an index names, and a refusal where it names none. -/
def readIndexed (tables : Tables) (index : Nat) : Reader Cursor Nat := do
  match ← Reader.ofExcept (indexedAddress tables index) with
  | none => throw .refused
  | some address => pure address

/-- One turn of the loop of `walk_ranges`. -/
def readRangeEntry (tables : Tables) (addressBase : Nat) : Reader Cursor RangeEntry := do
  let entry ← uleb
  if entry = dwRleEndOfList then pure .stop
  else if entry = dwRleBaseAddressx then do
    let index ← uleb
    pure (.base (← readIndexed tables index))
  else if entry = dwRleBaseAddress then do
    pure (.base (← fixed tables.addressSize))
  else if entry = dwRleOffsetPair then do
    let startOffset ← uleb
    let endOffset ← uleb
    pure (.range (u64 (addressBase + startOffset)) (u64 (addressBase + endOffset)))
  else if entry = dwRleStartxLength then do
    let index ← uleb
    let length ← uleb
    let start ← readIndexed tables index
    pure (.range start (u64 (start + length)))
  else if entry = dwRleStartxEndx then do
    let startIndex ← uleb
    let start ← readIndexed tables startIndex
    let endIndex ← uleb
    let stop ← readIndexed tables endIndex
    pure (.range start stop)
  else if entry = dwRleStartLength then do
    let start ← fixed tables.addressSize
    let length ← uleb
    pure (.range start (u64 (start + length)))
  else if entry = dwRleStartEnd then do
    let start ← fixed tables.addressSize
    let stop ← fixed tables.addressSize
    pure (.range start stop)
  else throw .refused

/-- One turn of the loop of `walk_legacy_ranges`. -/
def readLegacyEntry (addressSize : Nat) : Reader Cursor RangeEntry := do
  let allOnes := if addressSize = 8 then 2 ^ 64 - 1 else 0xFFFFFFFF
  let start ← fixed addressSize
  if start = allOnes then do
    pure (.base (← fixed addressSize))
  else if start = allOnes - 1 then pure .stop
  else do
    let stop ← fixed addressSize
    pure (.range start stop)

/-- The loop of both walks, over the entries that `entry` reads. -/
def walkEntries (entry : Nat → Reader Cursor RangeEntry) (visit : Nat → Nat → Bool) :
    Nat → Nat → Reader Cursor Bool
  | 0, _ => throw .running
  | fuel + 1, addressBase => do
      match ← entry addressBase with
      | .stop => pure false
      | .base address => walkEntries entry visit fuel address
      | .range start stop =>
          if visit start stop then walkEntries entry visit fuel addressBase else pure true

/-- `walk_ranges`. -/
def walkRanges (tables : Tables) (base : Nat) (visit : Nat → Nat → Bool) : Reader Cursor Bool := do
  walkEntries (readRangeEntry tables) visit (← turns) base

/-- `walk_legacy_ranges`. -/
def walkLegacyRanges (addressSize base : Nat) (visit : Nat → Nat → Bool) :
    Reader Cursor Bool := do
  walkEntries (fun _ => readLegacyEntry addressSize) visit (← turns) base

/-- The lambda `visit` goes on where the address is not in the range. -/
def misses (linkAddress start stop : Nat) : Bool :=
  !(start ≤ linkAddress && linkAddress < stop)

/-- The section with the range list of a unit. -/
def rangeSection (tables : Tables) (unit : CompilationUnit) : SectionView :=
  if unit.legacyRanges then tables.debugRanges else tables.debugRnglists

/-- The walk of the range list of a unit. -/
def walkUnit (tables : Tables) (unit : CompilationUnit) (linkAddress : Nat) : Reader Cursor Bool :=
  if unit.legacyRanges then
    walkLegacyRanges unit.addressSize unit.lowPc (misses linkAddress)
  else
    walkRanges { tables with addressSize := unit.addressSize, addrBase := unit.addrBase } unit.lowPc
      (misses linkAddress)

/-- `unit_covers`. -/
def unitCovers (tables : Tables) (unit : CompilationUnit) (linkAddress : Nat) : Except Stop Bool :=
  if unit.hasRanges then
    if (rangeSection tables unit).size ≤ unit.ranges then .ok false
    else do
      let covered ← Reader.attempt (do
        seek unit.ranges
        walkUnit tables unit linkAddress) (rangeSection tables unit).cursor
      pure (covered.getD false)
  else if unit.highPc = 0 then .ok false
  else
    let stop := if unit.offsetHighPc then u64 (unit.lowPc + unit.highPc) else unit.highPc
    .ok (unit.lowPc ≤ linkAddress && linkAddress < stop)

end Fpag.Debug
