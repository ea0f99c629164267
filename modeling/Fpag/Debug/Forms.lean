import Fpag.Debug.Cursor

/-!
Attribute values of DWARF: `read_abbreviation`, `read_form` and the tables that an index
names an entry of.

A loop of the source that reads at least a byte in every turn has the bytes that are left as
its fuel.
-/

namespace Fpag.Debug

/-! ## The numbers of the format -/

def dwFormAddr : Nat := 0x01
def dwFormBlock2 : Nat := 0x03
def dwFormBlock4 : Nat := 0x04
def dwFormData2 : Nat := 0x05
def dwFormData4 : Nat := 0x06
def dwFormData8 : Nat := 0x07
def dwFormString : Nat := 0x08
def dwFormBlock : Nat := 0x09
def dwFormBlock1 : Nat := 0x0A
def dwFormData1 : Nat := 0x0B
def dwFormFlag : Nat := 0x0C
def dwFormSdata : Nat := 0x0D
def dwFormStrp : Nat := 0x0E
def dwFormUdata : Nat := 0x0F
def dwFormRefAddr : Nat := 0x10
def dwFormRef1 : Nat := 0x11
def dwFormRef2 : Nat := 0x12
def dwFormRef4 : Nat := 0x13
def dwFormRef8 : Nat := 0x14
def dwFormRefUdata : Nat := 0x15
def dwFormIndirect : Nat := 0x16
def dwFormSecOffset : Nat := 0x17
def dwFormExprloc : Nat := 0x18
def dwFormFlagPresent : Nat := 0x19
def dwFormStrx : Nat := 0x1A
def dwFormAddrx : Nat := 0x1B
def dwFormRefSup4 : Nat := 0x1C
def dwFormStrpSup : Nat := 0x1D
def dwFormData16 : Nat := 0x1E
def dwFormLineStrp : Nat := 0x1F
def dwFormRefSig8 : Nat := 0x20
def dwFormImplicitConst : Nat := 0x21
def dwFormLoclistx : Nat := 0x22
def dwFormRnglistx : Nat := 0x23
def dwFormRefSup8 : Nat := 0x24
def dwFormStrx1 : Nat := 0x25
def dwFormStrx4 : Nat := 0x28
def dwFormAddrx1 : Nat := 0x29
def dwFormAddrx4 : Nat := 0x2C

def maxAttributesPerAbbreviation : Nat := 24

/-! ## Tables -/

/-- `detail::Tables`. -/
structure Tables : Type where
  debugStr : SectionView
  debugLineStr : SectionView
  debugStrOffsets : SectionView
  debugAddr : SectionView
  debugLine : SectionView
  debugRnglists : SectionView
  debugRanges : SectionView
  workingDirectory : List UInt8 := []
  strOffsetsBase : Nat := 0
  addrBase : Nat := 0
  addressSize : Nat := 8
  offsetSize : Nat := 4

/-- `AbbreviationAttribute`. -/
structure AbbreviationAttribute : Type where
  attr : Nat := 0
  form : Nat := 0
  implicit : Int := 0
  deriving DecidableEq

/-- `Abbreviation`. -/
structure Abbreviation : Type where
  tag : Nat
  attributes : List AbbreviationAttribute
  deriving DecidableEq

/-- `FormValue`. -/
structure FormValue : Type where
  value : Nat := 0
  text : Option (List UInt8) := none
  indexed : Bool := false
  deriving DecidableEq

open Cursor

/-- Fuel for a loop that reads at least a byte in every turn. -/
def turns : Reader Cursor Nat := do
  let c ← get
  pure (c.size - c.position + 1)

theorem turns_run (c : Cursor) : turns.run c = .ok (c.size - c.position + 1, c) := rfl

/-! ## Abbreviations -/

/-- The value that an abbreviation itself gives an attribute. -/
def readImplicit (form : Nat) : Reader Cursor Int :=
  if form = dwFormImplicitConst then sleb else pure 0

/-- The attributes of one entry of an abbreviation table. -/
def readAttributes : Nat → List AbbreviationAttribute → Reader Cursor (List AbbreviationAttribute)
  | 0, _ => throw .running
  | fuel + 1, attributes => do
      let attr ← uleb
      let form ← uleb
      if attr = 0 ∧ form = 0 then pure attributes
      else do
        Reader.require (attributes.length ≠ maxAttributesPerAbbreviation)
        let implicit ← readImplicit form
        readAttributes fuel (attributes ++ [⟨attr, form, implicit⟩])

/-- The search for an abbreviation from the current entry on. -/
def findAbbreviation (code : Nat) : Nat → Reader Cursor Abbreviation
  | 0 => throw .running
  | fuel + 1 => do
      let entryCode ← uleb
      Reader.require (entryCode ≠ 0)
      let tag ← uleb
      let _hasChildren ← fixed 1
      let attributes ← readAttributes (← turns) []
      if entryCode = code then pure ⟨tag, attributes⟩ else findAbbreviation code fuel

/-- `read_abbreviation`. -/
def readAbbreviation (code : Nat) : Reader Cursor Abbreviation := do
  findAbbreviation code (← turns)

/-! ## Forms -/

/-- The value of a form with its string, where an offset names one. -/
def withText (tables : Tables) (form value : Nat) : Reader Cursor FormValue :=
  if form = dwFormStrp then do
    let text ← Reader.ofExcept (tables.debugStr.stringAt value)
    pure { value := value, text := text }
  else if form = dwFormLineStrp then do
    let text ← Reader.ofExcept (tables.debugLineStr.stringAt value)
    pure { value := value, text := text }
  else pure { value := value }

/-- A block of as many bytes, which are stepped over. -/
def readBlock (length : Reader Cursor Nat) : Reader Cursor FormValue := do
  skip (← length)
  pure {}

/-- `read_form`, with the fuel for its calls of itself. -/
def readFormLoop (tables : Tables) (declaration : AbbreviationAttribute) :
    Nat → Nat → Reader Cursor FormValue
  | 0, _ => throw .running
  | fuel + 1, form =>
      if form = dwFormIndirect then do
        readFormLoop tables declaration fuel (← uleb)
      else if form = dwFormImplicitConst then
        pure { value := (declaration.implicit % 2 ^ 64).toNat }
      else if form = dwFormFlagPresent then pure { value := 1 }
      else if form = dwFormAddr then do
        pure { value := ← fixed tables.addressSize }
      else if dwFormStrx1 ≤ form ∧ form ≤ dwFormStrx4 then do
        pure { value := ← fixed (form - dwFormStrx1 + 1), indexed := true }
      else if dwFormAddrx1 ≤ form ∧ form ≤ dwFormAddrx4 then do
        pure { value := ← fixed (form - dwFormAddrx1 + 1), indexed := true }
      else if form ∈ [dwFormData1, dwFormFlag, dwFormRef1] then do
        withText tables form (← fixed 1)
      else if form ∈ [dwFormData2, dwFormRef2] then do
        withText tables form (← fixed 2)
      else if form ∈ [dwFormData4, dwFormRef4, dwFormRefSup4] then do
        withText tables form (← fixed 4)
      else if form ∈ [dwFormData8, dwFormRef8, dwFormRefSig8, dwFormRefSup8] then do
        withText tables form (← fixed 8)
      else if form = dwFormData16 then do
        skip 16
        pure {}
      else if form ∈ [dwFormUdata, dwFormRefUdata, dwFormLoclistx, dwFormRnglistx, dwFormStrx,
          dwFormAddrx] then do
        pure { value := ← uleb, indexed := form = dwFormStrx || form = dwFormAddrx }
      else if form = dwFormSdata then do
        withText tables form (((← sleb) % 2 ^ 64).toNat)
      else if form ∈ [dwFormSecOffset, dwFormStrp, dwFormRefAddr, dwFormLineStrp,
          dwFormStrpSup] then do
        withText tables form (← fixed tables.offsetSize)
      else if form = dwFormString then do
        pure { text := some (← string) }
      else if form = dwFormBlock1 then readBlock (fixed 1)
      else if form = dwFormBlock2 then readBlock (fixed 2)
      else if form = dwFormBlock4 then readBlock (fixed 4)
      else if form = dwFormBlock ∨ form = dwFormExprloc then readBlock uleb
      else throw .refused

/-- `read_form`. -/
def readForm (tables : Tables) (declaration : AbbreviationAttribute) (form : Nat) :
    Reader Cursor FormValue := do
  readFormLoop tables declaration (← turns) form

theorem readForm_run {tables : Tables} {declaration : AbbreviationAttribute} {form : Nat}
    (c : Cursor) : (readForm tables declaration form).run c =
      (readFormLoop tables declaration (c.size - c.position + 1) form).run c := by
  rw [readForm, Reader.run_bind_eq (turns_run c)]

/-! ## Indices -/

/-- `indexed_offset`. -/
def indexedOffset (table : SectionView) (base index entrySize : Nat) : Except Stop Nat :=
  if base = 0 then .ok 0
  else do
    let offset ← Reader.attempt (do
      seek (u64 (base + u64 (index * entrySize)))
      fixed entrySize) table.cursor
    pure (offset.getD 0)

/-- `indexed_string`. -/
def indexedString (tables : Tables) (index : Nat) : Except Stop (Option (List UInt8)) :=
  if tables.strOffsetsBase = 0 then .ok none
  else do
    let offset ← indexedOffset tables.debugStrOffsets tables.strOffsetsBase index tables.offsetSize
    if offset ≠ 0 then tables.debugStr.stringAt offset else pure none

/-- `indexed_address`. -/
def indexedAddress (tables : Tables) (index : Nat) : Except Stop (Option Nat) :=
  if tables.addrBase = 0 then .ok none
  else Reader.attempt (do
    seek (u64 (tables.addrBase + u64 (index * tables.addressSize)))
    fixed tables.addressSize) tables.debugAddr.cursor

end Fpag.Debug
