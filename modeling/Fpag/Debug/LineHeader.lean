import Fpag.Debug.Forms

/-!
`read_line_header`: the header of a line program and its file table.

The table of files is read whether or not the caller asked for it, so the reader gives it
together with the header.
-/

namespace Fpag.Debug

open Cursor

def dwLnctPath : Nat := 1
def dwLnctDirectoryIndex : Nat := 2

def reservedUnitLength : Nat := 0xFFFFFFF0
def dwarf64UnitLength : Nat := 0xFFFFFFFF
def maxLineHeaderEntries : Nat := 16
def maxStandardOpcodes : Nat := 32

/-- The character `'/'`. -/
def slash : UInt8 := 47

/-- `join_path`. -/
def joinPath (tables : Tables) (directory file : List UInt8) : List UInt8 :=
  if file = [] ∨ file.head? = some slash then file
  else
    let base :=
      if directory = [] then tables.workingDirectory
      else if directory.head? ≠ some slash ∧ tables.workingDirectory ≠ [] then
        tables.workingDirectory ++ [slash] ++ directory
      else directory
    if base = [] then file
    else if base.getLast? ≠ some slash then base ++ [slash] ++ file
    else base ++ file

/-- `LineHeader`, with its default values. -/
structure LineHeader : Type where
  version : Nat := 4
  addressSize : Nat := 8
  minimumInstructionLength : Nat := 1
  maximumOperations : Nat := 1
  lineBase : Int := -5
  lineRange : Nat := 14
  opcodeBase : Nat := 13
  standardLengths : List Nat := List.replicate maxStandardOpcodes 0
  program : Nat := 0
  stop : Nat := 0
  deriving DecidableEq

/-- The array of the lengths of the standard opcodes, which are counted from one. -/
def standardArray (lengths : List Nat) : List Nat :=
  0 :: lengths ++ List.replicate (maxStandardOpcodes - 1 - lengths.length) 0

/-- The length that the first four bytes of a unit give or announce, and the size of an offset
in the unit. -/
def readWideLength (offsetSize unitLength : Nat) : Reader Cursor (Nat × Nat) :=
  if unitLength = dwarf64UnitLength then do
    let unitLength ← fixed 8
    pure (unitLength, 8)
  else do
    Reader.require (unitLength < reservedUnitLength)
    pure (unitLength, offsetSize)

/-- The length of a unit, and the size of an offset in it. -/
def readUnitLength (offsetSize : Nat) : Reader Cursor (Nat × Nat) := do
  let unitLength ← fixed 4
  let length ← readWideLength offsetSize unitLength
  let c ← get
  Reader.require (length.1 ≤ subtract c.size c.position)
  pure length

/-! ## The tables of version 5 -/

/-- What an entry is made of: pairs of what a value is for and the form it has. -/
def readFormat : Reader Cursor (List (Nat × Nat)) := do
  let formatCount ← uleb
  Reader.require (formatCount ≤ maxLineHeaderEntries)
  Reader.repeated (do
    let content ← uleb
    let form ← uleb
    pure (content, form)) formatCount

/-- What an entry names: a path, and the directory it is relative to. -/
structure FileEntry : Type where
  path : List UInt8 := []
  directoryIndex : Nat := 0
  deriving DecidableEq

/-- The entry with one more of its values. -/
def FileEntry.with (entry : FileEntry) (content : Nat) (value : FormValue) : FileEntry :=
  match value.text with
  | some text =>
      if content = dwLnctPath then { entry with path := text }
      else if content = dwLnctDirectoryIndex then { entry with directoryIndex := value.value }
      else entry
  | none =>
      if content = dwLnctDirectoryIndex then { entry with directoryIndex := value.value } else entry

/-- One entry of either table. Of a directory, only the path is used. -/
def readEntry (tables : Tables) : List (Nat × Nat) → FileEntry → Reader Cursor FileEntry
  | [], entry => pure entry
  | (content, form) :: format, entry => do
      let value ← readForm tables {} form
      readEntry tables format (entry.with content value)

/-- One of the two tables. -/
def readEntries (tables : Tables) : Reader Cursor (List FileEntry) := do
  let format ← readFormat
  let count ← uleb
  Reader.repeated (readEntry tables format {}) count

/-- The directory table and the file table from version 5 on. -/
def readTables (tables : Tables) : Reader Cursor (List (List UInt8)) := do
  let directories ← readEntries tables
  let files ← readEntries tables
  pure (files.map fun file =>
    joinPath tables ((directories.map FileEntry.path)[file.directoryIndex]?.getD []) file.path)

/-! ## The tables before version 5 -/

def readDirectories : Nat → Reader Cursor (List (List UInt8))
  | 0 => throw .running
  | fuel + 1 => do
      let directory ← string
      if directory = [] then pure []
      else do
        let directories ← readDirectories fuel
        pure (directory :: directories)

def readFiles : Nat → Reader Cursor (List FileEntry)
  | 0 => throw .running
  | fuel + 1 => do
      let path ← string
      if path = [] then pure []
      else do
        let directoryIndex ← uleb
        let _timestamp ← uleb
        let _length ← uleb
        let files ← readFiles fuel
        pure (⟨path, directoryIndex⟩ :: files)

/-- The directory of a file before version 5, where index zero is the working directory. -/
def legacyDirectory (tables : Tables) (directories : List (List UInt8))
    (index : Nat) : List UInt8 :=
  if index = 0 then tables.workingDirectory else directories[index - 1]?.getD []

/-- The directory table and the file table before version 5. -/
def readLegacyTables (tables : Tables) : Reader Cursor (List (List UInt8)) := do
  let directories ← readDirectories (← turns)
  let files ← readFiles (← turns)
  pure ([] :: files.map fun file =>
    joinPath tables (legacyDirectory tables directories file.directoryIndex) file.path)

/-! ## The header -/

/-- The width of an address: from version 5 on the header says it. -/
def readAddressSize (version addressSize : Nat) : Reader Cursor Nat :=
  if 5 ≤ version then do
    let addressSize ← fixed 1
    let _segmentSelectorSize ← fixed 1
    Reader.require (addressSize ≠ 0 && addressSize ≤ 8)
    pure addressSize
  else pure addressSize

/-- Operations per instruction arrived with version 4. -/
def readMaximumOperations (version : Nat) : Reader Cursor Nat :=
  if 4 ≤ version then fixed 1 else pure 1

/-- The file table of a version. -/
def readFileTable (version : Nat) (tables : Tables) : Reader Cursor (List (List UInt8)) :=
  if 5 ≤ version then readTables tables else readLegacyTables tables

/-- The fields of a header that its length counts, and the tables. -/
def readLineFields (tables : Tables) (version program stop : Nat) :
    Reader Cursor (LineHeader × List (List UInt8)) := do
  let minimumInstructionLength ← fixed 1
  let maximumOperations ← readMaximumOperations version
  let _defaultIsStmt ← fixed 1
  let _lineBase ← fixed 1
  let lineRange ← fixed 1
  let opcodeBase ← fixed 1
  Reader.require (minimumInstructionLength ≠ 0 && maximumOperations ≠ 0 && lineRange ≠ 0 &&
    opcodeBase ≠ 0 && opcodeBase ≤ maxStandardOpcodes)
  let lengths ← Reader.repeated (fixed 1) (opcodeBase - 1)
  let files ← readFileTable version tables
  pure ({ version := version, addressSize := tables.addressSize,
          minimumInstructionLength := minimumInstructionLength,
          maximumOperations := maximumOperations, lineRange := lineRange,
          opcodeBase := opcodeBase, standardLengths := standardArray lengths,
          program := program, stop := stop }, files)

/-- `read_line_header`. -/
def readLineHeader (tables : Tables) : Reader Cursor (LineHeader × List (List UInt8)) := do
  let length ← readUnitLength tables.offsetSize
  let start ← get
  let stop := u64 (start.position + length.1)
  let version ← fixed 2
  Reader.require (2 ≤ version && version ≤ 5)
  let addressSize ← readAddressSize version tables.addressSize
  let headerLength ← fixed length.2
  let c ← get
  Reader.require (headerLength ≤ subtract stop c.position && stop ≤ c.size)
  readLineFields { tables with addressSize := addressSize, offsetSize := length.2 } version
    (u64 (c.position + headerLength)) stop

end Fpag.Debug
