import Fpag.Debug.Unit

/-!
`debug::dwarf::Module`: what is read of an object file, and the two questions about it.

The mapping is the list of the bytes of the file. `std::sort` is a parameter: it puts the
functions in the order of their addresses, and which of two at one address comes first is
not said.
-/

namespace Fpag.Debug

open Cursor

def elfMagic : Nat := 0x464C457F
def elfClass64 : Nat := 2
def elfDataLsb : Nat := 1
def elfTypeDyn : Nat := 3

def shtSymtab : Nat := 2
def shtStrtab : Nat := 3

def sttFunc : Nat := 2
def stbGlobal : Nat := 1
def stbWeak : Nat := 2

def elfSectionEntrySize : Nat := 64
def elfSymbolSize : Nat := 24

/-! ## Sections -/

/-- `SectionHeader`. -/
structure SectionHeader : Type where
  name : Nat := 0
  type : Nat := 0
  offset : Nat := 0
  size : Nat := 0
  link : Nat := 0
  entrySize : Nat := 0
  deriving DecidableEq

/-- `Module::Section`. -/
structure Section : Type where
  offset : Nat := 0
  size : Nat := 0
  entrySize : Nat := 0
  deriving DecidableEq

/-- The sections of a `Module`. -/
structure Sections : Type where
  symtab : Section := {}
  strtab : Section := {}
  info : Section := {}
  abbrevs : Section := {}
  line : Section := {}
  str : Section := {}
  lineStr : Section := {}
  strOffsets : Section := {}
  addr : Section := {}
  rnglists : Section := {}
  ranges : Section := {}
  deriving DecidableEq

/-- The whole file. -/
def fileCursor (file : List UInt8) : Cursor := ⟨some file, file.length, 0⟩

/-- `read_section_header`. -/
def readSectionHeader (file : List UInt8) (offset : Nat) : Except Stop (Option SectionHeader) :=
  Reader.attempt (do
    seek offset
    let name ← fixed 4
    let type ← fixed 4
    skip 8
    skip 8
    let offset ← fixed 8
    let size ← fixed 8
    let link ← fixed 4
    skip 4
    skip 8
    let entrySize ← fixed 8
    pure ⟨name, type, offset, size, link, entrySize⟩) (fileCursor file)

/-- A range of the file that lies in it and is not empty. -/
def Inside (file : List UInt8) (offset size : Nat) : Prop :=
  size ≠ 0 ∧ offset ≤ file.length ∧ size ≤ file.length - offset

instance (file : List UInt8) (offset size : Nat) : Decidable (Inside file offset size) :=
  inferInstanceAs (Decidable (_ ∧ _))

/-- `view_of`. -/
def viewOf (file : List UInt8) (s : SectionHeader) : SectionView :=
  if Inside file s.offset s.size then ⟨some (file.drop s.offset), s.size⟩ else ⟨none, 0⟩

/-- `Module::section_data`. -/
def sectionData (file : List UInt8) (s : Section) : Option (List UInt8) :=
  if Inside file s.offset s.size then some (file.drop s.offset) else none

/-- The view that a section is handed to the reader as: its data, and the size that its header
claims. -/
def sectionView (file : List UInt8) (s : Section) : SectionView := ⟨sectionData file s, s.size⟩

/-- The characters of a name. -/
def ascii (name : List Char) : List UInt8 := name.map fun c => UInt8.ofNat c.toNat

/-! The names of the sections that are wanted. -/

namespace SectionName

def symtab : List UInt8 := ascii ['.', 's', 'y', 'm', 't', 'a', 'b']

def info : List UInt8 := ascii ['.', 'd', 'e', 'b', 'u', 'g', '_', 'i', 'n', 'f', 'o']

def abbrevs : List UInt8 := ascii ['.', 'd', 'e', 'b', 'u', 'g', '_', 'a', 'b', 'b', 'r', 'e', 'v']

def line : List UInt8 := ascii ['.', 'd', 'e', 'b', 'u', 'g', '_', 'l', 'i', 'n', 'e']

def str : List UInt8 := ascii ['.', 'd', 'e', 'b', 'u', 'g', '_', 's', 't', 'r']

def lineStr : List UInt8 :=
  ascii ['.', 'd', 'e', 'b', 'u', 'g', '_', 'l', 'i', 'n', 'e', '_', 's', 't', 'r']

def strOffsets : List UInt8 :=
  ascii ['.', 'd', 'e', 'b', 'u', 'g', '_', 's', 't', 'r', '_', 'o', 'f', 'f', 's', 'e', 't', 's']

def addr : List UInt8 := ascii ['.', 'd', 'e', 'b', 'u', 'g', '_', 'a', 'd', 'd', 'r']

def rnglists : List UInt8 :=
  ascii ['.', 'd', 'e', 'b', 'u', 'g', '_', 'r', 'n', 'g', 'l', 'i', 's', 't', 's']

def ranges : List UInt8 := ascii ['.', 'd', 'e', 'b', 'u', 'g', '_', 'r', 'a', 'n', 'g', 'e', 's']

end SectionName

/-- The table `wanted`. -/
def wantedSections : List (List UInt8 × (Sections → Section → Sections)) :=
  [(SectionName.symtab, fun all s => { all with symtab := s }),
    (SectionName.info, fun all s => { all with info := s }),
    (SectionName.abbrevs, fun all s => { all with abbrevs := s }),
    (SectionName.line, fun all s => { all with line := s }),
    (SectionName.str, fun all s => { all with str := s }),
    (SectionName.lineStr, fun all s => { all with lineStr := s }),
    (SectionName.strOffsets, fun all s => { all with strOffsets := s }),
    (SectionName.addr, fun all s => { all with addr := s }),
    (SectionName.rnglists, fun all s => { all with rnglists := s }),
    (SectionName.ranges, fun all s => { all with ranges := s })]

/-- The lambda `section_at`. -/
def sectionAt (file : List UInt8) (sectionTable index : Nat) : Except Stop (Option SectionHeader) :=
  readSectionHeader file (u64 (sectionTable + u64 (index * elfSectionEntrySize)))

/-- The sections with the strings that a symbol table names, where its header points at them. -/
def linkStrings (file : List UInt8) (sectionTable : Nat) (s : SectionHeader) (all : Sections) :
    Except Stop Sections :=
  if s.type = shtSymtab then do
    let strings ← sectionAt file sectionTable s.link
    match strings with
    | none => pure all
    | some strings =>
        if strings.type = shtStrtab then
          pure { all with strtab :=
            { all.strtab with offset := strings.offset, size := strings.size } }
        else pure all
  else .ok all

/-- The sections with one more, if its name is a wanted one. -/
def keepSection (file : List UInt8) (sectionTable : Nat) (name : List UInt8) (s : SectionHeader)
    (all : Sections) : Except Stop Sections :=
  match wantedSections.find? (·.1 = name) with
  | none => .ok all
  | some entry =>
      linkStrings file sectionTable s (entry.2 all ⟨s.offset, s.size, s.entrySize⟩)

/-- The loop over the section headers; nothing where one of them is not in the file. -/
def readSections (file : List UInt8) (sectionTable : Nat) (names : SectionView) :
    Nat → Nat → Sections → Except Stop (Option Sections)
  | 0, _, all => .ok (some all)
  | count + 1, index, all => do
      match ← sectionAt file sectionTable index with
      | none => pure none
      | some s =>
          match ← names.stringAt s.name with
          | none => readSections file sectionTable names count (index + 1) all
          | some name =>
              let all ← keepSection file sectionTable name s all
              readSections file sectionTable names count (index + 1) all

/-! ## Functions -/

/-- `Module::Function`, with the string that its pointer stands for. -/
structure Function : Type where
  address : Nat
  size : Nat
  name : List UInt8
  deriving DecidableEq

/-- The fields of one symbol that are read: name, info, value and length. -/
def readSymbol (position : Nat) : Reader Cursor (Nat × Nat × Nat × Nat) := do
  seek position
  let nameOffset ← fixed 4
  let info ← fixed 1
  skip 3
  let value ← fixed 8
  let length ← fixed 8
  pure (nameOffset, info, value, length)

/-- The function that a symbol stands for, if it does. -/
def functionOf (strings : SectionView) : Nat × Nat × Nat × Nat → Except Stop (Option Function)
  | (nameOffset, info, value, length) =>
      if info &&& 0xF ≠ sttFunc ∨ value = 0 ∨ length = 0 then .ok none
      else if info >>> 4 ≠ 0 ∧ info >>> 4 ≠ stbGlobal ∧ info >>> 4 ≠ stbWeak then .ok none
      else do
        match ← strings.stringAt nameOffset with
        | none => pure none
        | some name => pure (if name = [] then none else some ⟨value, length, name⟩)

/-- The loop over the symbols; the functions are put in order only where it comes to its end. -/
def readSymbols (sort : List Function → List Function) (symbols strings : SectionView)
    (entrySize : Nat) : Nat → Nat → List Function → Except Stop (List Function)
  | 0, _, functions => .ok (sort functions)
  | count + 1, index, functions => do
      match ← Reader.attempt (readSymbol (u64 (index * entrySize))) symbols.cursor with
      | none => pure functions
      | some symbol =>
          let function ← functionOf strings symbol
          readSymbols sort symbols strings entrySize count (index + 1)
            (functions ++ function.toList)

/-- `Module::read_functions`. -/
def readFunctions (sort : List Function → List Function) (file : List UInt8) (all : Sections) :
    Except Stop (List Function) :=
  let symbols := sectionView file all.symtab
  let strings := sectionView file all.strtab
  if !symbols.present || !strings.present then .ok []
  else
    let entrySize := if all.symtab.entrySize ≠ 0 then all.symtab.entrySize else elfSymbolSize
    if entrySize < elfSymbolSize then .ok []
    else readSymbols sort symbols strings entrySize (all.symtab.size / entrySize) 0 []

/-- `Module::function_at`, where `std::upper_bound` is behind the functions that start at or
before the address. -/
def functionAt (functions : List Function) (linkAddress : Nat) : Option (List UInt8) :=
  match (functions.takeWhile fun entry => entry.address ≤ linkAddress).getLast? with
  | none => none
  | some candidate =>
      if u64 (candidate.address + candidate.size) ≤ linkAddress then none else some candidate.name

/-! ## Units -/

/-- `Module::detail_tables`. -/
def detailTables (file : List UInt8) (all : Sections) : Tables where
  debugStr := sectionView file all.str
  debugLineStr := sectionView file all.lineStr
  debugStrOffsets := sectionView file all.strOffsets
  debugAddr := sectionView file all.addr
  debugLine := sectionView file all.line
  debugRnglists := sectionView file all.rnglists
  debugRanges := sectionView file all.ranges

/-- The loop of `Module::read_compilation_units` from an offset on. -/
def readUnits (info abbrevs : SectionView) (tables : Tables) :
    Nat → Nat → List CompilationUnit → Except Stop (List CompilationUnit)
  | 0, _, _ => .error .running
  | fuel + 1, offset, units =>
      if offset < info.size then do
        match ← Reader.attempt (do
            seek offset
            readUnit abbrevs tables) info.cursor with
        | none => pure units
        | some (unit, next) =>
            if next ≤ offset then pure units
            else
              readUnits info abbrevs tables fuel next
                (if unit.hasLineProgram then units ++ [unit] else units)
      else .ok units

/-- `Module::read_compilation_units`. -/
def readCompilationUnits (file : List UInt8) (all : Sections) :
    Except Stop (List CompilationUnit) :=
  let info := sectionView file all.info
  let abbrevs := sectionView file all.abbrevs
  if !info.present || !abbrevs.present then .ok []
  else readUnits info abbrevs (detailTables file all) (info.size + 1) 0 []

/-! ## Modules -/

/-- `Module`. -/
structure Module : Type where
  loaded : Bool := false
  positionIndependent : Bool := false
  sections : Sections := {}
  functions : List Function := []
  units : List CompilationUnit := []
  deriving DecidableEq

/-- The fields of the header of the file that are used. -/
structure ObjectHeader : Type where
  magic : Nat
  classByte : Nat
  dataByte : Nat
  type : Nat
  sectionTable : Nat
  sectionEntrySize : Nat
  sectionCount : Nat
  sectionNames : Nat

def readObjectHeader : Reader Cursor ObjectHeader := do
  let magic ← fixed 4
  let classByte ← fixed 1
  let dataByte ← fixed 1
  skip 10
  let type ← fixed 2
  let _machine ← fixed 2
  let _version ← fixed 4
  let _entry ← fixed 8
  let _programTable ← fixed 8
  let sectionTable ← fixed 8
  let _flags ← fixed 4
  let _headerSize ← fixed 2
  let _programEntrySize ← fixed 2
  let _programCount ← fixed 2
  let sectionEntrySize ← fixed 2
  let sectionCount ← fixed 2
  let sectionNames ← fixed 2
  pure { magic := magic, classByte := classByte, dataByte := dataByte, type := type,
         sectionTable := sectionTable, sectionEntrySize := sectionEntrySize,
         sectionCount := sectionCount, sectionNames := sectionNames }

/-- The header of an object that this reader reads. -/
def objectHeader (file : List UInt8) : Except Stop (Option ObjectHeader) := do
  let header ← Reader.attempt readObjectHeader (fileCursor file)
  pure (header.filter fun h =>
    h.magic = elfMagic && h.classByte = elfClass64 && h.dataByte = elfDataLsb)

/-- The sections of the file, if all of its section headers are read. -/
def readSectionTable (file : List UInt8) (header : ObjectHeader) : Except Stop (Option Sections) :=
  if header.sectionEntrySize ≠ elfSectionEntrySize ∨ header.sectionCount = 0 ∨
      file.length / elfSectionEntrySize < header.sectionCount ∨
      file.length < header.sectionTable then
    .ok none
  else do
    match ← sectionAt file header.sectionTable header.sectionNames with
    | none => pure none
    | some names =>
        if names.type ≠ shtStrtab then pure none
        else
          readSections file header.sectionTable (viewOf file names) header.sectionCount 0 {}

/-- `Module::read_object`. Where it gives up there is nothing to ask. -/
def readObject (sort : List Function → List Function) (file : List UInt8) : Except Stop Module := do
  match ← objectHeader file with
  | none => pure {}
  | some header =>
      let positionIndependent := header.type == elfTypeDyn
      match ← readSectionTable file header with
      | none => pure { positionIndependent := positionIndependent }
      | some all =>
          let functions ← readFunctions sort file all
          let units ← readCompilationUnits file all
          pure { loaded := !functions.isEmpty || !units.isEmpty,
                 positionIndependent := positionIndependent, sections := all,
                 functions := functions, units := units }

/-- The constructor of `Module`, of a file that was opened and mapped. -/
def construct (sort : List Function → List Function) (file : List UInt8) : Except Stop Module :=
  if file = [] then .ok {} else readObject sort file

/-- The loop of `Module::source_at` over the units. -/
def sourceIn (tables : Tables) (linkAddress fuel : Nat) :
    List CompilationUnit → Except Stop (Option SourcePosition)
  | [] => .ok none
  | unit :: units => do
      let covers ← unitCovers tables unit linkAddress
      if covers then do
        match ← linePosition tables unit linkAddress fuel with
        | none => sourceIn tables linkAddress fuel units
        | some position => pure (some position)
      else sourceIn tables linkAddress fuel units

/-- `Module::source_at`, with the fuel of each walk of a line program. -/
def sourceAt (file : List UInt8) (module : Module) (linkAddress fuel : Nat) :
    Except Stop (Option SourcePosition) :=
  sourceIn (detailTables file module.sections) linkAddress fuel module.units

end Fpag.Debug
