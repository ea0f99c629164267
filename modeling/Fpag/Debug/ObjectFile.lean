import Fpag.Debug.FunctionLookup
import Fpag.Debug.UnitEncoding

/-!
What `Module` makes of an object file that is well formed.

`ObjectFile` is an object as the format has it: its header, the headers of its sections with the
names that they stand for, and the symbols of its functions. A file encodes it when the bytes of
each part stand where the other parts say; nothing is said of the order of the parts, of what is
between them, or of the fields that no one reads. `construct_object` is that the module has the
sections and the functions of the object, whatever the file looks like otherwise, and that
`function_at` then answers with a function that an address lies in, where that is not hidden by
one that starts behind it.
-/

namespace Fpag.Debug

open Cursor

/-! ## Objects -/

/-- A section header, with the name that its name offset stands for. -/
structure ObjectSection : Type where
  name : List UInt8
  nameOffset : Nat
  type : Nat
  flags : List UInt8
  address : List UInt8
  offset : Nat
  size : Nat
  link : Nat
  info : List UInt8
  align : List UInt8
  entrySize : Nat

/-- A symbol, with the name that its name offset stands for. -/
structure ObjectSymbol : Type where
  name : List UInt8
  nameOffset : Nat
  kind : Nat
  binding : Nat
  other : List UInt8
  value : Nat
  size : Nat

/-- The fields of the header of the file that no one reads. -/
structure HeaderRest : Type where
  ident : List UInt8
  machine : List UInt8
  version : List UInt8
  entry : List UInt8
  programTable : List UInt8
  flags : List UInt8
  headerSize : List UInt8
  programEntrySize : List UInt8
  programCount : List UInt8

structure ObjectFile : Type where
  type : Nat
  rest : HeaderRest
  sectionTable : Nat
  sections : List ObjectSection
  sectionNames : Nat
  symbols : List ObjectSymbol

namespace ObjectSection

def bytes (s : ObjectSection) : List UInt8 :=
  toBytes 4 s.nameOffset ++ (toBytes 4 s.type ++ (s.flags ++ (s.address ++ (toBytes 8 s.offset ++
    (toBytes 8 s.size ++ (toBytes 4 s.link ++ (s.info ++ (s.align ++ toBytes 8 s.entrySize))))))))

/-- Every field fits its width. -/
structure WellFormed (s : ObjectSection) : Prop where
  name : 0 ∉ s.name
  nameOffset : s.nameOffset < 256 ^ 4
  type : s.type < 256 ^ 4
  flags : s.flags.length = 8
  address : s.address.length = 8
  offset : s.offset < 256 ^ 8
  size : s.size < 256 ^ 8
  link : s.link < 256 ^ 4
  info : s.info.length = 4
  align : s.align.length = 8
  entrySize : s.entrySize < 256 ^ 8

/-- What is read of the header. -/
def header (s : ObjectSection) : SectionHeader :=
  ⟨s.nameOffset, s.type, s.offset, s.size, s.link, s.entrySize⟩

/-- What is kept of the section. -/
def kept (s : ObjectSection) : Section := ⟨s.offset, s.size, s.entrySize⟩

end ObjectSection

namespace ObjectSymbol

def bytes (s : ObjectSymbol) : List UInt8 :=
  toBytes 4 s.nameOffset ++ (toBytes 1 (s.binding * 16 + s.kind) ++ (s.other ++
    (toBytes 8 s.value ++ toBytes 8 s.size)))

structure WellFormed (s : ObjectSymbol) : Prop where
  name : 0 ∉ s.name
  nameOffset : s.nameOffset < 256 ^ 4
  kind : s.kind < 16
  binding : s.binding < 16
  other : s.other.length = 3
  value : s.value < 256 ^ 8
  size : s.size < 256 ^ 8

/-- A symbol that names the code of a function: local, global or weak, defined and not empty. -/
def IsFunction (s : ObjectSymbol) : Prop :=
  s.kind = sttFunc ∧ s.binding ≤ stbWeak ∧ s.value ≠ 0 ∧ s.size ≠ 0 ∧ s.name ≠ []

instance (s : ObjectSymbol) : Decidable s.IsFunction := inferInstanceAs (Decidable (_ ∧ _))

def function (s : ObjectSymbol) : Function := ⟨s.value, s.size, s.name⟩

end ObjectSymbol

namespace ObjectFile

def header (o : ObjectFile) : List UInt8 :=
  toBytes 4 elfMagic ++ (toBytes 1 elfClass64 ++ (toBytes 1 elfDataLsb ++ (o.rest.ident ++
    (toBytes 2 o.type ++ (o.rest.machine ++ (o.rest.version ++ (o.rest.entry ++
      (o.rest.programTable ++ (toBytes 8 o.sectionTable ++ (o.rest.flags ++ (o.rest.headerSize ++
        (o.rest.programEntrySize ++ (o.rest.programCount ++ (toBytes 2 elfSectionEntrySize ++
          (toBytes 2 o.sections.length ++ toBytes 2 o.sectionNames)))))))))))))))

/-- The last section of a name, or an empty one. -/
def named (o : ObjectFile) (name : List UInt8) : Section :=
  ((o.sections.filter (·.name = name)).getLast?.map ObjectSection.kept).getD {}

/-- The functions that the symbols of the object name. -/
def functions (o : ObjectFile) : List Function :=
  (o.symbols.filter fun s => s.IsFunction).map ObjectSymbol.function

end ObjectFile

/-! ## Records -/

/-- The whole file as a section. -/
def wholeFile (file : List UInt8) : SectionView := ⟨some file, file.length⟩

/-- Any bytes of a width are skipped. -/
theorem Reads.skip_of {n : Nat} {bytes : List UInt8} (length : bytes.length = n) :
    Reads (Cursor.skip n) bytes () := length ▸ Reads.skip bytes

/-- Any bytes of a width are a number. -/
theorem Reads.number {n : Nat} {bytes : List UInt8} (pos : 0 < n) (le : n ≤ 8)
    (length : bytes.length = n) : Reads (Cursor.fixed n) bytes (ofBytes bytes) := by
  subst length
  exact Reads.raw pos le

theorem readSectionHeader_eq {file : List UInt8} {offset : Nat} {s : ObjectSection}
    (wellFormed : s.WellFormed) (has : (wholeFile file).Has offset s.bytes) :
    readSectionHeader file offset = .ok (some s.header) := by
  refine has.attempt_some ?_
  refine (Reads.fixed (by decide) (by decide) wellFormed.nameOffset).bind ?_
  refine (Reads.fixed (by decide) (by decide) wellFormed.type).bind ?_
  refine (Reads.skip_of wellFormed.flags).bind ((Reads.skip_of wellFormed.address).bind ?_)
  refine (Reads.fixed (by decide) (by decide) wellFormed.offset).bind ?_
  refine (Reads.fixed (by decide) (by decide) wellFormed.size).bind ?_
  refine (Reads.fixed (by decide) (by decide) wellFormed.link).bind ?_
  refine (Reads.skip_of wellFormed.info).bind ((Reads.skip_of wellFormed.align).bind ?_)
  exact (Reads.fixed (by decide) (by decide) wellFormed.entrySize).bind_pure (.pure _)

/-- The header of the file, as it is read. -/
def ObjectFile.read (o : ObjectFile) : ObjectHeader where
  magic := elfMagic
  classByte := elfClass64
  dataByte := elfDataLsb
  type := o.type
  sectionTable := o.sectionTable
  sectionEntrySize := elfSectionEntrySize
  sectionCount := o.sections.length
  sectionNames := o.sectionNames

/-- Every field of the header fits its width. -/
structure ObjectFile.HeaderFits (o : ObjectFile) : Prop where
  type : o.type < 256 ^ 2
  sectionTable : o.sectionTable < 256 ^ 8
  sections : o.sections.length < 256 ^ 2
  sectionNames : o.sectionNames < 256 ^ 2
  ident : o.rest.ident.length = 10
  machine : o.rest.machine.length = 2
  version : o.rest.version.length = 4
  entry : o.rest.entry.length = 8
  programTable : o.rest.programTable.length = 8
  flags : o.rest.flags.length = 4
  headerSize : o.rest.headerSize.length = 2
  programEntrySize : o.rest.programEntrySize.length = 2
  programCount : o.rest.programCount.length = 2

theorem readObjectHeader_reads {o : ObjectFile} (fits : o.HeaderFits) :
    Reads readObjectHeader o.header o.read := by
  refine (Reads.fixed (by decide) (by decide) (by decide)).bind ?_
  refine (Reads.fixed (by decide) (by decide) (by decide)).bind ?_
  refine (Reads.fixed (by decide) (by decide) (by decide)).bind ?_
  refine (Reads.skip_of fits.ident).bind ?_
  refine (Reads.fixed (by decide) (by decide) fits.type).bind ?_
  refine (Reads.number (by decide) (by decide) fits.machine).bind ?_
  refine (Reads.number (by decide) (by decide) fits.version).bind ?_
  refine (Reads.number (by decide) (by decide) fits.entry).bind ?_
  refine (Reads.number (by decide) (by decide) fits.programTable).bind ?_
  refine (Reads.fixed (by decide) (by decide) fits.sectionTable).bind ?_
  refine (Reads.number (by decide) (by decide) fits.flags).bind ?_
  refine (Reads.number (by decide) (by decide) fits.headerSize).bind ?_
  refine (Reads.number (by decide) (by decide) fits.programEntrySize).bind ?_
  refine (Reads.number (by decide) (by decide) fits.programCount).bind ?_
  refine (Reads.fixed (by decide) (by decide) (by decide)).bind ?_
  refine (Reads.fixed (by decide) (by decide) fits.sections).bind ?_
  exact (Reads.fixed (by decide) (by decide) fits.sectionNames).bind_pure (.pure _)

theorem objectHeader_eq {file : List UInt8} {o : ObjectFile} (fits : o.HeaderFits)
    (has : (wholeFile file).Has 0 o.header) : objectHeader file = .ok (some o.read) := by
  obtain ⟨rest, ahead⟩ := has
  have run : readObjectHeader.run (fileCursor file) =
      .ok (o.read, (fileCursor file).advance o.header.length) :=
    readObjectHeader_reads fits _ rest ahead
  rw [objectHeader, Reader.attempt, run]
  rfl

/-! ## Encodings -/

/-- The zero-terminated string stands in the section at the offset. -/
def SectionView.Names (view : SectionView) (offset : Nat) (name : List UInt8) : Prop :=
  view.Has offset (name ++ [0])

theorem SectionView.Names.stringAt {view : SectionView} {offset : Nat} {name : List UInt8}
    (names : view.Names offset name) (plain : 0 ∉ name) :
    view.stringAt offset = .ok (some name) := by
  obtain ⟨rest, front, more, data, position, size, small⟩ := names
  simp only [List.length_append, List.length_singleton] at data position size
  rw [SectionView.stringAt, if_neg (by omega), data, scanAt, position, List.drop_left,
    List.append_assoc, List.append_assoc]
  exact Reads.scan_append plain _ (by omega)

/-- The strings that the header of a symbol table points at. -/
def ObjectFile.strings (o : ObjectFile) (s : ObjectSection) : Option ObjectSection :=
  (if s.type = shtSymtab then o.sections[s.link]? else none).filter (·.type = shtStrtab)

/-- The sections with one more: a section of a wanted name is kept, and with a symbol table its
strings. -/
def ObjectFile.keep (o : ObjectFile) (all : Sections) (s : ObjectSection) : Sections :=
  match wantedSections.find? (·.1 = s.name) with
  | none => all
  | some entry =>
      let all := entry.2 all s.kept
      match o.strings s with
      | none => all
      | some strings =>
          { all with strtab := { all.strtab with offset := strings.offset, size := strings.size } }

/-- The file has the section headers of the object, and the section of their names. -/
structure ObjectFile.Tabled (o : ObjectFile) (file : List UInt8) : Prop where
  small : file.length < 2 ^ 64
  fits : o.HeaderFits
  header : (wholeFile file).Has 0 o.header
  wellFormed : ∀ s ∈ o.sections, s.WellFormed
  table : ∀ i, ∀ h : i < o.sections.length,
    (wholeFile file).Has (o.sectionTable + i * elfSectionEntrySize) o.sections[i].bytes
  linked : ∀ s ∈ o.sections, s.type = shtSymtab → s.link < o.sections.length
  names : ∃ names, o.sections[o.sectionNames]? = some names ∧ names.type = shtStrtab ∧
    ∀ s ∈ o.sections, (viewOf file names.header).Names s.nameOffset s.name

theorem SectionView.Has.le {view : SectionView} {offset : Nat} {bytes : List UInt8}
    (has : view.Has offset bytes) : offset + bytes.length ≤ view.size := by
  obtain ⟨rest, ahead⟩ := has
  have sum := ahead.position_add
  rw [List.length_append] at sum
  change offset + _ = view.size at sum
  omega

theorem SectionView.Has.of_take {view : SectionView} {offset : Nat} {bytes data : List UInt8}
    (there : view.data = some data) (same : (data.drop offset).take bytes.length = bytes)
    (fits : offset + bytes.length ≤ view.size) (within : view.size ≤ data.length)
    (small : view.size < 2 ^ 64) : view.Has offset bytes := by
  let rest := (data.drop (offset + bytes.length)).take (view.size - (offset + bytes.length))
  refine ⟨rest, data.take offset, data.drop view.size, ?_, ?_, ?_, small⟩
  · have last : rest ++ data.drop view.size = data.drop (offset + bytes.length) := by
      have behind := List.take_append_drop (view.size - (offset + bytes.length))
        (data.drop (offset + bytes.length))
      rw [List.drop_drop, Nat.add_sub_cancel' fits] at behind
      exact behind
    have first := List.take_append_drop bytes.length (data.drop offset)
    rw [same, List.drop_drop] at first
    change view.data = _
    rw [there, List.append_assoc, last, first, List.take_append_drop]
  · simp only [List.length_take]
    omega
  · simp only [rest, List.length_append, List.length_take, List.length_drop]
    omega

theorem SectionView.Has.present {view : SectionView} {offset : Nat} {bytes : List UInt8}
    (has : view.Has offset bytes) : view.present = true := by
  obtain ⟨rest, front, more, data, -⟩ := has
  change view.data = _ at data
  rw [SectionView.present, data]
  rfl

namespace ObjectFile.Tabled

variable {o : ObjectFile} {file : List UInt8}

theorem inside (tabled : o.Tabled file) {i : Nat} (h : i < o.sections.length) :
    o.sectionTable + (i + 1) * elfSectionEntrySize ≤ file.length := by
  have le := (tabled.table i h).le
  have length : o.sections[i].bytes.length = elfSectionEntrySize := by
    have fits := tabled.wellFormed _ (List.getElem_mem h)
    simp only [ObjectSection.bytes, List.length_append, length_toBytes, fits.flags, fits.address,
      fits.info, fits.align]
    rfl
  rw [length] at le
  change _ ≤ file.length at le
  rw [Nat.add_mul, Nat.one_mul]
  omega

theorem sectionAt_eq (tabled : o.Tabled file) {i : Nat} {s : ObjectSection}
    (there : o.sections[i]? = some s) : sectionAt file o.sectionTable i = .ok (some s.header) := by
  obtain ⟨h, rfl⟩ := List.getElem?_eq_some_iff.mp there
  have inside := tabled.inside h
  have small := tabled.small
  rw [Nat.add_mul, Nat.one_mul] at inside
  rw [sectionAt, u64_eq (show i * elfSectionEntrySize < 2 ^ 64 by omega), u64_eq (by omega)]
  exact readSectionHeader_eq (tabled.wellFormed _ (List.getElem_mem h)) (tabled.table i h)

theorem keepSection_eq (tabled : o.Tabled file) {s : ObjectSection} (member : s ∈ o.sections)
    (all : Sections) :
    keepSection file o.sectionTable s.name s.header all = .ok (o.keep all s) := by
  rw [keepSection, ObjectFile.keep, ObjectFile.strings]
  cases wantedSections.find? (·.1 = s.name) with
  | none => rfl
  | some entry =>
      dsimp only
      rw [linkStrings]
      by_cases table : s.type = shtSymtab
      · obtain ⟨h⟩ : ∃ _ : s.link < o.sections.length, True :=
          ⟨tabled.linked s member table, trivial⟩
        have there := List.getElem?_eq_getElem h
        rw [if_pos table, if_pos (show s.header.type = shtSymtab from table), there]
        change (sectionAt file o.sectionTable s.link >>= _) = _
        rw [tabled.sectionAt_eq there]
        change (if o.sections[s.link].type = shtStrtab then _ else _) = _
        by_cases strings : o.sections[s.link].type = shtStrtab
        · rw [if_pos strings, Option.filter_some, if_pos (decide_eq_true strings)]
          rfl
        · rw [if_neg strings, Option.filter_some, if_neg (by simpa using strings)]
          rfl
      · rw [if_neg table, if_neg (show ¬ s.header.type = shtSymtab from table)]
        rfl

/-- The loop over the headers keeps what is wanted of the sections that are left. -/
theorem readSections_eq (tabled : o.Tabled file) {names : SectionView}
    (named : ∀ s ∈ o.sections, names.Names s.nameOffset s.name) {index : Nat}
    {left : List ObjectSection} (behind : o.sections.drop index = left) (all : Sections) :
    readSections file o.sectionTable names left.length index all =
      .ok (some (left.foldl o.keep all)) := by
  induction left generalizing index all with
  | nil => rfl
  | cons s left ih =>
      have there : o.sections[index]? = some s := by
        rw [← List.head?_drop, behind]
        rfl
      have member := List.mem_of_getElem? there
      have next : o.sections.drop (index + 1) = left := by
        rw [← List.drop_drop, behind]
        rfl
      rw [List.length_cons, readSections, tabled.sectionAt_eq there]
      change (names.stringAt s.nameOffset >>= _) = _
      rw [(named s member).stringAt (tabled.wellFormed s member).name]
      change (keepSection file o.sectionTable s.name s.header all >>= fun all =>
        readSections file o.sectionTable names left.length (index + 1) all) = _
      rw [tabled.keepSection_eq member]
      exact ih next _

theorem readSectionTable_eq (tabled : o.Tabled file) :
    readSectionTable file o.read = .ok (some (o.sections.foldl o.keep {})) := by
  obtain ⟨names, there, strings, named⟩ := tabled.names
  obtain ⟨h, -⟩ := List.getElem?_eq_some_iff.mp there
  have last := tabled.inside (show o.sections.length - 1 < o.sections.length by omega)
  rw [Nat.sub_add_cancel (by omega)] at last
  have checks : ¬ (o.read.sectionEntrySize ≠ elfSectionEntrySize ∨ o.read.sectionCount = 0 ∨
      file.length / elfSectionEntrySize < o.read.sectionCount ∨
        file.length < o.read.sectionTable) := by
    rw [not_or, not_or, not_or, not_not, Nat.not_lt, Nat.not_lt,
      Nat.le_div_iff_mul_le (by decide)]
    refine ⟨rfl, ?_, (Nat.le_add_left _ _).trans last, (Nat.le_add_right _ _).trans last⟩
    change ¬ o.sections.length = 0
    omega
  rw [readSectionTable, if_neg checks]
  change (sectionAt file o.sectionTable o.sectionNames >>= _) = _
  rw [tabled.sectionAt_eq there]
  change (if names.type ≠ shtStrtab then _ else _) = _
  rw [if_neg (not_not.mpr strings)]
  exact tabled.readSections_eq named List.drop_zero _

end ObjectFile.Tabled

/-! ## The sections that are kept -/

/-- A field that a fold writes at some of the elements holds what it wrote at the last of them. -/
theorem foldl_field {α β γ : Type} {step : β → α → β} {field : β → γ} {p : α → Bool} {g : α → γ}
    {l : List α} (one : ∀ a ∈ l, ∀ b, field (step b a) = if p a then g a else field b) (b : β) :
    field (l.foldl step b) = ((l.filter p).getLast?.map g).getD (field b) := by
  induction l generalizing b with
  | nil => rfl
  | cons a l ih =>
      obtain ⟨first, rest⟩ := List.forall_mem_cons.mp one
      rw [List.foldl_cons, ih rest, first, List.filter_cons]
      by_cases here : p a = true
      · rw [if_pos here, if_pos here, List.getLast?_cons]
        cases (l.filter p).getLast? <;> rfl
      · rw [if_neg here, if_neg here]

/-- The wanted names, and where the sections of these names are kept. -/
def wantedFields : List (List UInt8 × (Sections → Section)) :=
  [(SectionName.symtab, Sections.symtab), (SectionName.info, Sections.info),
    (SectionName.abbrevs, Sections.abbrevs), (SectionName.line, Sections.line),
    (SectionName.str, Sections.str), (SectionName.lineStr, Sections.lineStr),
    (SectionName.strOffsets, Sections.strOffsets), (SectionName.addr, Sections.addr),
    (SectionName.rnglists, Sections.rnglists), (SectionName.ranges, Sections.ranges)]

/-- Each entry of the table writes the field of its name and no other. -/
theorem wantedSections_field : ∀ field ∈ wantedFields, ∀ entry ∈ wantedSections,
    ∀ all s, field.2 (entry.2 all s) = if entry.1 = field.1 then s else field.2 all := by
  simp only [wantedFields, wantedSections, List.forall_mem_cons, List.not_mem_nil, false_imp_iff,
    implies_true, and_true]
  repeat' apply And.intro
  all_goals exact fun all s => rfl

theorem wantedSections_name : ∀ field ∈ wantedFields, ∃ entry ∈ wantedSections,
    entry.1 = field.1 := by
  decide

theorem wantedFields_strtab : ∀ field ∈ wantedFields, ∀ (all : Sections) (strtab : Section),
    field.2 { all with strtab := strtab } = field.2 all := by
  simp only [wantedFields, List.forall_mem_cons, List.not_mem_nil, false_imp_iff, implies_true,
    and_true]

theorem wantedSections_strtab : ∀ entry ∈ wantedSections, ∀ all s,
    (entry.2 all s).strtab = all.strtab := by
  simp only [wantedSections, List.forall_mem_cons, List.not_mem_nil, false_imp_iff, implies_true,
    and_true]

namespace ObjectFile

variable {o : ObjectFile} {file : List UInt8}

theorem keep_field {field : List UInt8 × (Sections → Section)} (member : field ∈ wantedFields)
    (all : Sections) (s : ObjectSection) :
    field.2 (o.keep all s) = if s.name = field.1 then s.kept else field.2 all := by
  rw [keep]
  cases found : wantedSections.find? (·.1 = s.name) with
  | none =>
      have other : s.name ≠ field.1 := by
        obtain ⟨entry, listed, same⟩ := wantedSections_name field member
        have := List.find?_eq_none.mp found entry listed
        intro named
        exact this (by simp [same, named])
      rw [if_neg other]
  | some entry =>
      have listed := List.mem_of_find?_eq_some found
      have named : entry.1 = s.name := by simpa using List.find?_some found
      have one := wantedSections_field field member entry listed all s.kept
      rw [named] at one
      dsimp only
      split
      · exact one
      · rw [wantedFields_strtab field member]
        exact one

/-- Each field has the last section of its name. -/
theorem foldl_keep {field : List UInt8 × (Sections → Section)} (member : field ∈ wantedFields) :
    field.2 (o.sections.foldl o.keep {}) = o.named field.1 := by
  have one (all : Sections) (s : ObjectSection) : field.2 (o.keep all s) =
      if decide (s.name = field.1) = true then s.kept else field.2 all := by
    rw [keep_field member]
    simp only [decide_eq_true_eq]
  rw [foldl_field (fun s _ all => one all s), named]
  have empty : field.2 {} = {} := by
    revert field
    simp [wantedFields]
  rw [empty]

end ObjectFile

/-! ## Functions -/

/-- How far apart the symbols of a table are. -/
def ObjectSection.stride (s : ObjectSection) : Nat :=
  if s.entrySize ≠ 0 then s.entrySize else elfSymbolSize

/-- The section `symtab` has the symbols of the object, and `strtab` has their names. -/
structure ObjectFile.SymbolsIn (o : ObjectFile) (file : List UInt8)
    (symtab strtab : ObjectSection) :
    Prop where
  last : (o.sections.filter (·.name = SectionName.symtab)).getLast? = some symtab
  type : symtab.type = shtSymtab
  only : ∀ s ∈ o.sections, s.type = shtSymtab → s.name = SectionName.symtab
  link : o.sections[symtab.link]? = some strtab
  strings : strtab.type = shtStrtab
  stride : elfSymbolSize ≤ symtab.stride
  count : symtab.size / symtab.stride = o.symbols.length
  wellFormed : ∀ s ∈ o.symbols, s.WellFormed
  symbols : ∀ i, ∀ h : i < o.symbols.length,
    (sectionView file symtab.kept).Has (i * symtab.stride) o.symbols[i].bytes
  names : ∀ s ∈ o.symbols, (sectionView file strtab.kept).Names s.nameOffset s.name

theorem readSymbol_eq {view : SectionView} {position : Nat} {s : ObjectSymbol}
    (wellFormed : s.WellFormed) (has : view.Has position s.bytes) :
    Reader.attempt (readSymbol position) view.cursor =
      .ok (some (s.nameOffset, s.binding * 16 + s.kind, s.value, s.size)) := by
  have kind := wellFormed.kind
  have binding := wellFormed.binding
  refine has.attempt_some ?_
  refine (Reads.fixed (by decide) (by decide) wellFormed.nameOffset).bind ?_
  refine (Reads.fixed (by decide) (by decide) (by omega)).bind ?_
  refine (Reads.skip_of wellFormed.other).bind ?_
  refine (Reads.fixed (by decide) (by decide) wellFormed.value).bind ?_
  exact (Reads.fixed (by decide) (by decide) wellFormed.size).bind_pure (.pure _)

theorem functionOf_eq {strings : SectionView} {s : ObjectSymbol} (wellFormed : s.WellFormed)
    (names : strings.Names s.nameOffset s.name) :
    functionOf strings (s.nameOffset, s.binding * 16 + s.kind, s.value, s.size) =
      .ok (if s.IsFunction then some s.function else none) := by
  have kind := wellFormed.kind
  have low : (s.binding * 16 + s.kind) &&& 0xF = s.kind := by
    rw [show (0xF : Nat) = 2 ^ 4 - 1 from rfl, Nat.and_two_pow_sub_one_eq_mod]
    omega
  have high : (s.binding * 16 + s.kind) >>> 4 = s.binding := by
    rw [Nat.shiftRight_eq_div_pow]
    omega
  rw [functionOf, low, high, names.stringAt wellFormed.name]
  by_cases other : s.kind ≠ sttFunc ∨ s.value = 0 ∨ s.size = 0
  · rw [if_pos other, if_neg]
    rintro ⟨func, -, value, size, -⟩
    rcases other with other | other | other
    · exact other func
    · exact value other
    · exact size other
  · rw [if_neg other]
    simp only [not_or, not_not] at other
    by_cases bound : s.binding ≠ 0 ∧ s.binding ≠ stbGlobal ∧ s.binding ≠ stbWeak
    · rw [if_pos bound, if_neg]
      rintro ⟨-, weak, -⟩
      simp only [stbGlobal, stbWeak] at bound weak
      omega
    · rw [if_neg bound]
      have weak : s.binding ≤ stbWeak := by
        simp only [stbGlobal, stbWeak] at bound ⊢
        omega
      change Except.ok (if s.name = [] then none else some s.function) = _
      by_cases named : s.name = []
      · rw [if_pos named, if_neg fun function => function.2.2.2.2 named]
      · rw [if_neg named, if_pos ⟨other.1, weak, other.2.1, other.2.2, named⟩]

namespace ObjectFile

variable {o : ObjectFile} {file : List UInt8} {symtab strtab : ObjectSection}

/-- The loop over the symbols finds the functions among those that are left. -/
theorem SymbolsIn.readSymbols_eq (table : o.SymbolsIn file symtab strtab)
    (sort : List Function → List Function) {index : Nat} {left : List ObjectSymbol}
    (behind : o.symbols.drop index = left) (functions : List Function) :
    readSymbols sort (sectionView file symtab.kept) (sectionView file strtab.kept) symtab.stride
        left.length index functions =
      .ok (sort (functions ++ (left.filter fun s => s.IsFunction).map ObjectSymbol.function)) := by
  induction left generalizing index functions with
  | nil => simp [readSymbols]
  | cons s left ih =>
      have there : o.symbols[index]? = some s := by
        rw [← List.head?_drop, behind]
        rfl
      obtain ⟨h, rfl⟩ := List.getElem?_eq_some_iff.mp there
      have member := List.getElem_mem h
      have next : o.symbols.drop (index + 1) = left := by
        rw [← List.drop_drop, behind]
        rfl
      have has := table.symbols index h
      have place : u64 (index * symtab.stride) = index * symtab.stride := by
        obtain ⟨rest, ahead⟩ := has
        have sum : index * symtab.stride + _ = symtab.size := ahead.position_add
        have bound : symtab.size < 2 ^ 64 := ahead.small
        exact u64_eq (by omega)
      rw [List.length_cons, readSymbols, place, readSymbol_eq (table.wellFormed _ member) has]
      change (functionOf (sectionView file strtab.kept) _ >>= fun function =>
        readSymbols sort _ _ symtab.stride left.length (index + 1)
          (functions ++ function.toList)) = _
      rw [functionOf_eq (table.wellFormed _ member) (table.names _ member)]
      change readSymbols sort _ _ symtab.stride left.length (index + 1) _ = _
      rw [ih next, List.filter_cons]
      by_cases function : o.symbols[index].IsFunction
      · simp [function]
      · simp [function]

namespace SymbolsIn

theorem strings_eq (table : o.SymbolsIn file symtab strtab) : o.strings symtab = some strtab := by
  rw [ObjectFile.strings, if_pos table.type, table.link, Option.filter_some,
    if_pos (decide_eq_true table.strings)]

/-- A section with strings is a symbol table. -/
theorem named (table : o.SymbolsIn file symtab strtab) {s : ObjectSection} (member : s ∈ o.sections)
    (linked : (o.strings s).isSome = true) :
    s.name = SectionName.symtab := by
  apply table.only s member
  by_contra other
  rw [ObjectFile.strings, if_neg other] at linked
  cases linked

theorem last_strings (table : o.SymbolsIn file symtab strtab) :
    (o.sections.filter fun s => (o.strings s).isSome).getLast? = some symtab := by
  have twice : (o.sections.filter fun s => (o.strings s).isSome) =
      (o.sections.filter fun s => s.name = SectionName.symtab).filter
        fun s => (o.strings s).isSome := by
    rw [List.filter_filter]
    apply List.filter_congr
    intro s member
    cases linked : (o.strings s).isSome with
    | false => rfl
    | true => simp [table.named member linked]
  obtain ⟨front, ends⟩ := List.getLast?_eq_some_iff.mp table.last
  rw [twice, ends, List.filter_append, List.filter_cons_of_pos (by simp [table.strings_eq]),
    List.filter_nil, List.getLast?_concat]

/-- A section with strings leaves its own, and any other leaves the strings alone. -/
theorem keep_strtab (table : o.SymbolsIn file symtab strtab) {s : ObjectSection}
    (member : s ∈ o.sections) (all : Sections) :
    ((o.keep all s).strtab.offset, (o.keep all s).strtab.size) =
      if (o.strings s).isSome then ((o.strings s).map fun t => (t.offset, t.size)).getD (0, 0)
      else (all.strtab.offset, all.strtab.size) := by
  rw [keep]
  cases found : wantedSections.find? (·.1 = s.name) with
  | none =>
      rw [if_neg]
      intro linked
      obtain ⟨entry, listed, same⟩ := wantedSections_name _ List.mem_cons_self
      have other := List.find?_eq_none.mp found entry listed
      exact other (by simp [same, table.named member linked])
  | some entry =>
      have kept := wantedSections_strtab entry (List.mem_of_find?_eq_some found) all s.kept
      dsimp only
      cases o.strings s with
      | none =>
          dsimp only
          rw [kept]
          rfl
      | some t => rfl

/-- The strings that are kept are those of the last symbol table. -/
theorem strtab_eq (table : o.SymbolsIn file symtab strtab) :
    (o.sections.foldl o.keep {}).strtab.offset = strtab.offset ∧
      (o.sections.foldl o.keep {}).strtab.size = strtab.size := by
  let strings (all : Sections) : Nat × Nat := (all.strtab.offset, all.strtab.size)
  have last : strings (o.sections.foldl o.keep {}) = _ :=
    foldl_field (fun s member all => table.keep_strtab member all) {}
  rw [table.last_strings, Option.map_some, table.strings_eq] at last
  exact Prod.mk.inj last

/-- The functions of the file are the functions of the object. -/
theorem readFunctions_eq (table : o.SymbolsIn file symtab strtab)
    (sort : List Function → List Function) (empty : sort [] = []) :
    readFunctions sort file (o.sections.foldl o.keep {}) = .ok (sort o.functions) := by
  obtain ⟨offset, size⟩ := table.strtab_eq
  have symbols : (o.sections.foldl o.keep {}).symtab = symtab.kept := by
    have kept := foldl_keep (o := o) (List.mem_cons_self : _ ∈ wantedFields)
    rw [ObjectFile.named, table.last] at kept
    exact kept
  have strings : sectionView file (o.sections.foldl o.keep {}).strtab =
      sectionView file strtab.kept := by
    rw [sectionView, sectionData, offset, size]
    rfl
  have loop : readSymbols sort (sectionView file symtab.kept) (sectionView file strtab.kept)
      symtab.stride (symtab.size / symtab.stride) 0 [] = .ok (sort o.functions) := by
    rw [table.count]
    exact table.readSymbols_eq sort List.drop_zero []
  have wide : ¬ symtab.stride < elfSymbolSize := Nat.not_lt.mpr table.stride
  rw [readFunctions, symbols, strings]
  split
  · next absent =>
      -- A section that is not there has no symbol.
      have none_ : o.symbols = [] := by
        by_contra some_
        have pos := List.length_pos_iff.mpr some_
        have first := table.symbols 0 pos
        have name := table.names _ (List.getElem_mem pos)
        rw [Bool.or_eq_true, Bool.not_eq_true', Bool.not_eq_true', ← Bool.not_eq_true,
          ← Bool.not_eq_true] at absent
        exact absent.elim (fun not => not first.present) fun not => not name.present
      rw [functions, none_]
      exact congrArg _ empty.symm
  · change (if symtab.stride < elfSymbolSize then _ else _) = _
    rw [if_neg wide]
    exact loop

end SymbolsIn

/-- The object has no symbol table, and so no functions, or the file has its symbols. -/
def Symbols (o : ObjectFile) (file : List UInt8) : Prop :=
  ((∀ s ∈ o.sections, s.name ≠ SectionName.symtab) ∧ o.symbols = []) ∨
    ∃ symtab strtab, o.SymbolsIn file symtab strtab

theorem Symbols.readFunctions_eq (symbols : o.Symbols file) (sort : List Function → List Function)
    (empty : sort [] = []) :
    readFunctions sort file (o.sections.foldl o.keep {}) = .ok (sort o.functions) := by
  rcases symbols with ⟨other, none_⟩ | ⟨symtab, strtab, table⟩
  · have kept := foldl_keep (o := o) (List.mem_cons_self : _ ∈ wantedFields)
    have nothing : (o.sections.filter fun s =>
        s.name = SectionName.symtab) = [] := by
      rw [List.filter_eq_nil_iff]
      intro s member
      simpa using other s member
    rw [named, nothing] at kept
    have absent : (!(sectionView file (o.sections.foldl o.keep {}).symtab).present ||
        !(sectionView file (o.sections.foldl o.keep {}).strtab).present) = true := by
      change (o.sections.foldl o.keep {}).symtab = {} at kept
      rw [kept]
      rfl
    rw [readFunctions, absent, functions, none_]
    exact congrArg _ empty.symm
  · exact table.readFunctions_eq sort empty

/-- The sections that the units are read from. -/
def debugSections (o : ObjectFile) : Sections where
  info := o.named SectionName.info
  abbrevs := o.named SectionName.abbrevs
  line := o.named SectionName.line
  str := o.named SectionName.str
  lineStr := o.named SectionName.lineStr
  strOffsets := o.named SectionName.strOffsets
  addr := o.named SectionName.addr
  rnglists := o.named SectionName.rnglists
  ranges := o.named SectionName.ranges

/-- The units and the tables are read from these sections only. -/
theorem units_eq {all : Sections}
    (fields : ∀ field ∈ wantedFields, field.2 all = o.named field.1) :
    readCompilationUnits file all = readCompilationUnits file o.debugSections ∧
      detailTables file all = detailTables file o.debugSections := by
  simp only [wantedFields, List.forall_mem_cons, List.not_mem_nil, false_imp_iff, implies_true,
    and_true] at fields
  obtain ⟨-, info, abbrevs, line, str, lineStr, strOffsets, addr, rnglists, ranges⟩ := fields
  have tables : detailTables file all = detailTables file o.debugSections := by
    simp only [detailTables, line, str, lineStr, strOffsets, addr, rnglists, ranges]
    rfl
  refine ⟨?_, tables⟩
  rw [readCompilationUnits, readCompilationUnits, info, abbrevs, tables]
  rfl

/-- The functions of the object do not overlap, and none goes to the end of the addresses. -/
structure Apart (functions : List Function) : Prop where
  apart : ∀ f ∈ functions, ∀ g ∈ functions, ∀ a, f.Contains a → g.Contains a → f = g
  short : ∀ f ∈ functions, f.address + f.size < 2 ^ 64

theorem functions_pos {f : Function} (member : f ∈ o.functions) : 0 < f.size := by
  obtain ⟨s, listed, rfl⟩ := List.mem_map.mp member
  have function := (List.mem_filter.mp listed).2
  rw [decide_eq_true_eq] at function
  exact Nat.pos_of_ne_zero function.2.2.2.1

/-- The last function that starts at or before an address is the only one that can contain it. -/
theorem Apart.finds (apart : Apart o.functions) {sort : List Function → List Function}
    (sorts : Sorts Function.address sort) (linkAddress : Nat) :
    Finds (sort o.functions) linkAddress := by
  apply finds_sort sorts apart.short
  rintro ⟨g, listed, inside⟩ f last
  have pos := functions_pos last.mem
  have start : g.Contains f.address :=
    ⟨last.greatest g listed inside.1, Nat.lt_of_le_of_lt last.below inside.2⟩
  rw [apart.apart f last.mem g listed f.address ⟨Nat.le_refl _, by omega⟩ start]
  exact inside

/-- An address is looked up as the function that it lies in. -/
theorem Apart.functionAt (apart : Apart o.functions) {sort : List Function → List Function}
    (sorts : Sorts Function.address sort) (linkAddress : Nat) :
    (∀ f ∈ o.functions, f.Contains linkAddress →
      Debug.functionAt (sort o.functions) linkAddress = some f.name) ∧
    ((∀ f ∈ o.functions, ¬ f.Contains linkAddress) →
      Debug.functionAt (sort o.functions) linkAddress = none) := by
  have perm := sorts.perm o.functions
  have finds := apart.finds sorts linkAddress
  constructor
  · intro f member contains
    rcases finds with ⟨g, listed, inside, named⟩ | ⟨none_, -⟩
    · rw [named, apart.apart f member g (perm.mem_iff.mp listed) linkAddress contains inside]
    · exact absurd contains (none_ f (perm.mem_iff.mpr member))
  · intro none_
    rcases finds with ⟨g, listed, inside, -⟩ | ⟨-, unnamed⟩
    · exact absurd inside (none_ g (perm.mem_iff.mp listed))
    · exact unnamed

/-- What is read of a file that encodes the object. -/
theorem construct_eq (tabled : o.Tabled file) (symbols : o.Symbols file)
    {sort : List Function → List Function} (sorts : Sorts Function.address sort) :
    construct sort file = (readCompilationUnits file (o.sections.foldl o.keep {})).map fun units =>
      { loaded := !o.functions.isEmpty || !units.isEmpty,
        positionIndependent := o.type == elfTypeDyn, sections := o.sections.foldl o.keep {},
        functions := sort o.functions, units := units } := by
  have empty : sort [] = [] := (sorts.perm []).eq_nil
  have perm := sorts.perm o.functions
  have some_ : file ≠ [] := by
    rintro rfl
    obtain ⟨h, -⟩ := List.getElem?_eq_some_iff.mp tabled.names.choose_spec.1
    have inside := tabled.inside h
    simp only [List.length_nil, elfSectionEntrySize] at inside
    omega
  rw [construct, if_neg some_, readObject, objectHeader_eq tabled.fits tabled.header]
  change (readSectionTable file o.read >>= _) = _
  rw [tabled.readSectionTable_eq]
  change (readFunctions sort file (o.sections.foldl o.keep {}) >>= _) = _
  rw [symbols.readFunctions_eq sort empty]
  change (readCompilationUnits file (o.sections.foldl o.keep {}) >>= _) = _
  cases readCompilationUnits file (o.sections.foldl o.keep {}) with
  | error stop => rfl
  | ok units =>
      have same : (sort o.functions).isEmpty = o.functions.isEmpty := by
        rw [Bool.eq_iff_iff, List.isEmpty_iff, List.isEmpty_iff]
        exact ⟨fun none_ => (none_ ▸ perm).symm.eq_nil, fun none_ => by rw [none_, empty]⟩
      rw [← same]
      rfl

end ObjectFile

/-- A file that encodes an object is read as the object: the sections that the reader wants are the
last ones of their names, and the functions are its functions in the order of their addresses. An
address is looked up as a function that it lies in, if as soon as any function contains it those
that start last in front of it do. -/
theorem construct_object {o : ObjectFile} {file : List UInt8} (tabled : o.Tabled file)
    (symbols : o.Symbols file) {sort : List Function → List Function}
    (sorts : Sorts Function.address sort) :
    ∃ all : Sections, (∀ field ∈ wantedFields, field.2 all = o.named field.1) ∧
      (construct sort file = (readCompilationUnits file all).map fun units =>
        { loaded := !o.functions.isEmpty || !units.isEmpty,
          positionIndependent := o.type == elfTypeDyn, sections := all,
          functions := sort o.functions, units := units }) ∧
      ((∀ f ∈ o.functions, f.address + f.size < 2 ^ 64) → ∀ linkAddress,
        ((∃ f ∈ o.functions, f.Contains linkAddress) →
          ∀ f, IsLast Function.address linkAddress o.functions f → f.Contains linkAddress) →
        Finds (sort o.functions) linkAddress) := by
  refine ⟨o.sections.foldl o.keep {}, fun field => ObjectFile.foldl_keep, ?_, ?_⟩
  · exact ObjectFile.construct_eq tabled symbols sorts
  · exact fun short linkAddress => finds_sort sorts short

/-- The names of the sections and of the functions, in one section. -/
def smallNames : ObjectSection where
  name := []
  nameOffset := 0
  type := shtStrtab
  flags := .replicate 8 0
  address := .replicate 8 0
  offset := 384
  size := 49
  link := 0
  info := .replicate 4 0
  align := .replicate 8 0
  entrySize := 0

def smallSymtab : ObjectSection where
  name := SectionName.symtab
  nameOffset := 1
  type := shtSymtab
  flags := .replicate 8 0
  address := .replicate 8 0
  offset := 433
  size := 24
  link := 0
  info := .replicate 4 0
  align := .replicate 8 0
  entrySize := 24

/-- A section of debug information. -/
def smallDebug (name : List UInt8) (nameOffset offset size : Nat) : ObjectSection where
  name := name
  nameOffset := nameOffset
  type := 1
  flags := .replicate 8 0
  address := .replicate 8 0
  offset := offset
  size := size
  link := 0
  info := .replicate 4 0
  align := .replicate 8 0
  entrySize := 0

def smallSymbol : ObjectSymbol where
  name := ascii ['f']
  nameOffset := 9
  kind := sttFunc
  binding := stbGlobal
  other := .replicate 3 0
  value := 0x1000
  size := 0x20

/-- An object with one function, and one unit for the addresses of it. -/
def smallObject : ObjectFile where
  type := elfTypeDyn
  rest := ⟨.replicate 10 0, .replicate 2 0, .replicate 4 0, .replicate 8 0, .replicate 8 0,
    .replicate 4 0, .replicate 2 0, .replicate 2 0, .replicate 2 0⟩
  sectionTable := 64
  sections := [smallNames, smallSymtab, smallDebug SectionName.info 11 457 28,
    smallDebug SectionName.abbrevs 23 485 12, smallDebug SectionName.line 37 497 52]
  sectionNames := 0
  symbols := [smallSymbol]

/-- A unit of version 4 for the addresses from `0x1000` up to `0x1020`. -/
def smallInfo : List UInt8 :=
  toBytes 4 24 ++ [4, 0] ++ toBytes 4 0 ++ [8] ++ [1] ++ toBytes 8 0x1000 ++ toBytes 4 0x20 ++
    toBytes 4 0

/-- `DW_AT_low_pc`, `DW_AT_high_pc` and `DW_AT_stmt_list`. -/
def smallAbbrevs : List UInt8 := [1, 0x11, 0, 0x11, 0x01, 0x12, 0x06, 0x10, 0x17, 0, 0, 0]

/-- A line program with one row, the first line of the file `a`. -/
def smallLine : List UInt8 :=
  toBytes 4 48 ++ [4, 0] ++ toBytes 4 25 ++ [1, 1, 1, 251, 14, 13] ++
    [0, 1, 1, 1, 1, 0, 0, 0, 1, 0, 0, 1] ++ [0] ++ [97, 0, 0, 0, 0] ++ [0] ++
    [0, 9, 2] ++ toBytes 8 0x1000 ++ [1, 2, 0x20, 0, 1, 1]

/-- The parts of the object, one behind the other. -/
def smallFile : List UInt8 :=
  smallObject.header ++ (smallObject.sections.flatMap ObjectSection.bytes ++
    (0 :: SectionName.symtab ++ 0 :: ascii ['f'] ++ 0 :: SectionName.info ++
      0 :: SectionName.abbrevs ++ 0 :: SectionName.line ++ [0] ++
      smallObject.symbols.flatMap ObjectSymbol.bytes ++ smallInfo ++ smallAbbrevs ++ smallLine))

theorem smallNames_wellFormed : smallNames.WellFormed := by
  constructor <;> decide

theorem smallSymtab_wellFormed : smallSymtab.WellFormed := by
  constructor <;> decide

theorem smallDebug_wellFormed {name : List UInt8} {nameOffset offset size : Nat} (plain : 0 ∉ name)
    (small : nameOffset < 256 ∧ offset < 1024 ∧ size < 256) :
    (smallDebug name nameOffset offset size).WellFormed := by
  obtain ⟨nameOffset_, offset_, size_⟩ := small
  constructor <;> simp only [smallDebug, List.length_replicate] <;> first | exact plain | omega

theorem smallNames_view : viewOf smallFile smallNames.header = ⟨some (smallFile.drop 384), 49⟩ :=
  if_pos (by decide +kernel)

theorem smallNames_sectionView :
    sectionView smallFile smallNames.kept = ⟨some (smallFile.drop 384), 49⟩ := by
  rw [sectionView, sectionData, if_pos (by decide +kernel)]
  rfl

theorem smallSymtab_sectionView :
    sectionView smallFile smallSymtab.kept = ⟨some (smallFile.drop 433), 24⟩ := by
  rw [sectionView, sectionData, if_pos (by decide +kernel)]
  rfl

theorem smallFile_has {offset : Nat} {bytes : List UInt8}
    (same : (smallFile.drop offset).take bytes.length = bytes)
    (fits : offset + bytes.length ≤ 549) :
    (wholeFile smallFile).Has offset bytes := by
  have length : (wholeFile smallFile).size = 549 := by decide +kernel
  exact .of_take rfl same (by rw [length]; exact fits) (Nat.le_refl _) (by rw [length]; decide)

theorem smallObject_tabled : smallObject.Tabled smallFile where
  small := by decide +kernel
  fits := by constructor <;> decide
  header := smallFile_has (by decide +kernel) (by decide +kernel)
  wellFormed := by
    simp only [smallObject, List.forall_mem_cons, List.not_mem_nil, false_imp_iff, implies_true,
      and_true]
    exact ⟨smallNames_wellFormed, smallSymtab_wellFormed,
      smallDebug_wellFormed (by decide) (by decide), smallDebug_wellFormed (by decide) (by decide),
      smallDebug_wellFormed (by decide) (by decide)⟩
  table := by
    intro i h
    obtain rfl | rfl | rfl | rfl | rfl : i = 0 ∨ i = 1 ∨ i = 2 ∨ i = 3 ∨ i = 4 := by
      change i < 5 at h
      omega
    · change (wholeFile smallFile).Has 64 smallNames.bytes
      exact smallFile_has (by decide +kernel) (by decide +kernel)
    · change (wholeFile smallFile).Has 128 smallSymtab.bytes
      exact smallFile_has (by decide +kernel) (by decide +kernel)
    · change (wholeFile smallFile).Has 192 (smallDebug SectionName.info 11 457 28).bytes
      exact smallFile_has (by decide +kernel) (by decide +kernel)
    · change (wholeFile smallFile).Has 256 (smallDebug SectionName.abbrevs 23 485 12).bytes
      exact smallFile_has (by decide +kernel) (by decide +kernel)
    · change (wholeFile smallFile).Has 320 (smallDebug SectionName.line 37 497 52).bytes
      exact smallFile_has (by decide +kernel) (by decide +kernel)
  linked := by decide
  names := by
    refine ⟨smallNames, rfl, rfl, ?_⟩
    rw [smallNames_view]
    simp only [smallObject, List.forall_mem_cons, List.not_mem_nil, false_imp_iff, implies_true,
      and_true]
    refine ⟨?_, ?_, ?_, ?_, ?_⟩ <;>
      exact .of_take rfl (by decide +kernel) (by decide) (by decide +kernel) (by decide)

theorem smallObject_symbols : smallObject.SymbolsIn smallFile smallSymtab smallNames where
  last := rfl
  type := rfl
  only := by decide
  link := rfl
  strings := rfl
  stride := by decide
  count := by decide
  wellFormed := by
    simp only [smallObject, List.forall_mem_cons, List.not_mem_nil, false_imp_iff, implies_true,
      and_true]
    constructor <;> decide
  symbols := by
    intro i h
    obtain rfl : i = 0 := by
      change i < 1 at h
      omega
    rw [smallSymtab_sectionView]
    change SectionView.Has _ 0 smallSymbol.bytes
    exact .of_take rfl (by decide +kernel) (by decide) (by decide +kernel) (by decide)
  names := by
    rw [smallNames_sectionView]
    simp only [smallObject, List.forall_mem_cons, List.not_mem_nil, false_imp_iff, implies_true,
      and_true]
    exact .of_take rfl (by decide +kernel) (by decide) (by decide +kernel) (by decide)

/-- The unit of the object. -/
def smallUnit : CompilationUnit where
  lowPc := 0x1000
  highPc := 0x20
  offsetHighPc := true
  hasLineProgram := true
  files := [[], [97]]

theorem smallObject_functions : smallObject.functions = [⟨0x1000, 0x20, ascii ['f']⟩] := by decide

theorem smallObject_units :
    readCompilationUnits smallFile smallObject.debugSections = .ok [smallUnit] := by
  decide +kernel

theorem construct_object_small : ∃ sort module, construct sort smallFile = .ok module ∧
    module.loaded = true ∧ module.positionIndependent = true ∧ module.units = [smallUnit] ∧
      functionAt module.functions 0x101F = some (ascii ['f']) ∧
      functionAt module.functions 0x1020 = none := by
  have last : IsLast Function.address 0x1000 smallObject.functions ⟨0x1000, 0x20, ascii ['f']⟩ := by
    rw [smallObject_functions]
    constructor <;> decide
  obtain ⟨sort, sorts, -⟩ := exists_sort_last last
  obtain ⟨all, fields, read, looked⟩ :=
    construct_object smallObject_tabled (.inr ⟨_, _, smallObject_symbols⟩) sorts
  rw [(ObjectFile.units_eq fields).1, smallObject_units] at read
  have sorted : sort smallObject.functions = [⟨0x1000, 0x20, ascii ['f']⟩] := by
    have perm := sorts.perm smallObject.functions
    rw [smallObject_functions] at perm ⊢
    exact perm.eq_singleton
  rw [sorted, smallObject_functions] at looked
  have finds : ∀ linkAddress, Finds [⟨0x1000, 0x20, ascii ['f']⟩] linkAddress := by
    intro linkAddress
    apply looked (by decide)
    rintro ⟨f, member, contains⟩ g lastg
    rw [List.mem_singleton.mp lastg.mem, ← List.mem_singleton.mp member]
    exact contains
  refine ⟨sort, _, read, rfl, rfl, rfl, ?_, ?_⟩
  · change functionAt (sort smallObject.functions) _ = _
    rw [sorted]
    rcases finds 0x101F with ⟨f, member, -, named⟩ | ⟨outside, -⟩
    · rw [named, List.mem_singleton.mp member]
    · exact absurd ⟨by decide, by decide⟩ (outside _ List.mem_cons_self)
  · change functionAt (sort smallObject.functions) _ = _
    rw [sorted]
    rcases finds 0x1020 with ⟨f, member, contains, -⟩ | ⟨-, none_⟩
    · rw [List.mem_singleton.mp member] at contains
      exact absurd contains.2 (by decide)
    · exact none_

end Fpag.Debug
