import Fpag.Debug.Encoding
import Fpag.Debug.LineHeader

/-!
Line program headers and their standard encoding.

`LineUnit` is a line program header of any version with its tables and its opcodes, and
`LineUnit.encode` the bytes that the DWARF standard gives it in a section. The reader gives
back what was encoded for the values of the tables, for the tables, and, apart from the line
base, for the whole header; `readLineHeader_iff` says for which headers it gives back
everything.
-/

namespace Fpag.Debug

/-! ## Values and their forms -/

/-- The forms of a number of fixed width, with the width. -/
def fixedForms : List (Nat × Nat) :=
  [(dwFormData1, 1), (dwFormFlag, 1), (dwFormRef1, 1), (dwFormData2, 2), (dwFormRef2, 2),
    (dwFormData4, 4), (dwFormRef4, 4), (dwFormRefSup4, 4), (dwFormData8, 8), (dwFormRef8, 8),
    (dwFormRefSig8, 8), (dwFormRefSup8, 8)]

/-- The forms of an index of fixed width into the strings or the addresses. -/
def indexForms : List (Nat × Nat) :=
  [(dwFormStrx1, 1), (0x26, 2), (0x27, 3), (dwFormStrx4, 4),
    (dwFormAddrx1, 1), (0x2A, 2), (0x2B, 3), (dwFormAddrx4, 4)]

/-- The forms of an offset into a section. -/
def offsetForms : List Nat :=
  [dwFormSecOffset, dwFormStrp, dwFormRefAddr, dwFormLineStrp, dwFormStrpSup]

/-- The forms of a number of any size. -/
def numberForms : List Nat := [dwFormUdata, dwFormRefUdata, dwFormLoclistx, dwFormRnglistx]

/-- The forms of an index of any size. -/
def anyIndexForms : List Nat := [dwFormStrx, dwFormAddrx]

/-- The forms of a block, with the width of its length. -/
def blockForms : List (Nat × Nat) := [(dwFormBlock1, 1), (dwFormBlock2, 2), (dwFormBlock4, 4)]

/-- The forms of a block whose length has any size. -/
def anyBlockForms : List Nat := [dwFormBlock, dwFormExprloc]

/-- A value in one of the forms of the standard. -/
inductive Datum : Type
  | fixed (form width value : Nat)
  | index (form width value : Nat)
  | address (value : Nat)
  | offset (form value : Nat)
  | number (form value : Nat)
  | anyIndex (form value : Nat)
  | signed (value : Int)
  | string (text : List UInt8)
  | block (form width : Nat) (bytes : List UInt8)
  | anyBlock (form : Nat) (bytes : List UInt8)
  | sixteen (bytes : List UInt8)
  | present
  | indirect (datum : Datum)

namespace Datum

def form : Datum → Nat
  | .fixed form _ _ => form
  | .index form _ _ => form
  | .address _ => dwFormAddr
  | .offset form _ => form
  | .number form _ => form
  | .anyIndex form _ => form
  | .signed _ => dwFormSdata
  | .string _ => dwFormString
  | .block form _ _ => form
  | .anyBlock form _ => form
  | .sixteen _ => dwFormData16
  | .present => dwFormFlagPresent
  | .indirect _ => dwFormIndirect

/-- The encoding of a value in a unit with these widths of an address and of an offset. -/
def bytes (addressSize offsetSize : Nat) : Datum → List UInt8
  | .fixed _ width value => toBytes width value
  | .index _ width value => toBytes width value
  | .address value => toBytes addressSize value
  | .offset _ value => toBytes offsetSize value
  | .number _ value => encodeUleb value
  | .anyIndex _ value => encodeUleb value
  | .signed value => encodeSleb value
  | .string text => text ++ [0]
  | .block _ width bytes => toBytes width bytes.length ++ bytes
  | .anyBlock _ bytes => encodeUleb bytes.length ++ bytes
  | .sixteen bytes => bytes
  | .present => []
  | .indirect datum => encodeUleb datum.form ++ datum.bytes addressSize offsetSize

/-- The value fits its form. -/
def WellFormed (addressSize offsetSize : Nat) : Datum → Prop
  | .fixed form width value => (form, width) ∈ fixedForms ∧ value < 256 ^ width
  | .index form width value => (form, width) ∈ indexForms ∧ value < 256 ^ width
  | .address value => value < 256 ^ addressSize
  | .offset form value => form ∈ offsetForms ∧ value < 256 ^ offsetSize
  | .number form value => form ∈ numberForms ∧ value < 2 ^ 64
  | .anyIndex form value => form ∈ anyIndexForms ∧ value < 2 ^ 64
  | .signed value => -2 ^ 63 ≤ value ∧ value < 2 ^ 63
  | .string text => 0 ∉ text
  | .block form width bytes => (form, width) ∈ blockForms ∧ bytes.length < 256 ^ width
  | .anyBlock form bytes => form ∈ anyBlockForms ∧ bytes.length < 2 ^ 64
  | .sixteen bytes => bytes.length = 16
  | .present => True
  | .indirect datum => datum.WellFormed addressSize offsetSize

instance (addressSize offsetSize : Nat) :
    (datum : Datum) → Decidable (datum.WellFormed addressSize offsetSize)
  | .fixed .. | .index .. | .offset .. | .number .. | .anyIndex .. | .signed _ | .block .. |
    .anyBlock .. => inferInstanceAs (Decidable (_ ∧ _))
  | .address _ => inferInstanceAs (Decidable (_ < _))
  | .string _ => inferInstanceAs (Decidable (¬ _))
  | .sixteen _ => inferInstanceAs (Decidable (_ = _))
  | .present => inferInstanceAs (Decidable True)
  | .indirect datum => instDecidableWellFormed addressSize offsetSize datum

end Datum

/-- The string at an offset of a section. -/
def SectionView.textAt (view : SectionView) (offset : Nat) : Option (List UInt8) :=
  match view.stringAt offset with
  | .ok text => text
  | .error _ => none

theorem SectionView.Sound.stringAt_eq {view : SectionView} (sound : view.Sound) (offset : Nat) :
    view.stringAt offset = .ok (view.textAt offset) := by
  obtain ⟨text, found⟩ := sound.stringAt_ok offset
  rw [SectionView.textAt, found]

/-- The string that an offset in one of the two string forms names. -/
def textOf (tables : Tables) (form value : Nat) : Option (List UInt8) :=
  if form = dwFormStrp then tables.debugStr.textAt value
  else if form = dwFormLineStrp then tables.debugLineStr.textAt value
  else none

/-- What a value means to the reader of a unit. -/
def Datum.meaning (tables : Tables) : Datum → FormValue
  | .fixed _ _ value => { value := value }
  | .index _ _ value => { value := value, indexed := true }
  | .address value => { value := value }
  | .offset form value => { value := value, text := textOf tables form value }
  | .number _ value => { value := value }
  | .anyIndex _ value => { value := value, indexed := true }
  | .signed value => { value := (value % 2 ^ 64).toNat }
  | .string text => { text := some text }
  | .block .. => {}
  | .anyBlock .. => {}
  | .sixteen _ => {}
  | .present => { value := 1 }
  | .indirect datum => datum.meaning tables

/-- The sections that offsets name strings of are there, and the widths are ones the reader
knows. -/
structure Tables.Readable (tables : Tables) : Prop where
  debugStr : tables.debugStr.Sound
  debugLineStr : tables.debugLineStr.Sound
  address_pos : 0 < tables.addressSize
  address_le : tables.addressSize ≤ 8
  offset_pos : 0 < tables.offsetSize
  offset_le : tables.offsetSize ≤ 8

section Values

variable {tables : Tables} {declaration : AbbreviationAttribute} {fuel : Nat}

theorem withText_eq (readable : tables.Readable) (form value : Nat) :
    Reads (withText tables form value) [] { value := value, text := textOf tables form value } := by
  unfold withText textOf
  split
  · exact (Reads.ofExcept (readable.debugStr.stringAt_eq value)).bind_nil (.pure _)
  · split
    · exact (Reads.ofExcept (readable.debugLineStr.stringAt_eq value)).bind_nil (.pure _)
    · exact .pure _

theorem withText_reads (readable : tables.Readable) (form : Nat) {width value : Nat}
    (pos : 0 < width) (le : width ≤ 8) (small : value < 256 ^ width) :
    Reads (do withText tables form (← Cursor.fixed width)) (toBytes width value)
      { value := value, text := textOf tables form value } :=
  (Reads.fixed pos le small).bind_pure (withText_eq readable form value)

/-! Which branch of the reader a form takes, for each of the families of forms. -/

theorem readFormLoop_fixed : ∀ p ∈ fixedForms, readFormLoop tables declaration (fuel + 1) p.1 =
    (do withText tables p.1 (← Cursor.fixed p.2)) := by
  unfold fixedForms
  repeat refine List.forall_mem_cons.mpr ⟨rfl, ?_⟩
  exact List.forall_mem_nil _

theorem readFormLoop_index : ∀ p ∈ indexForms, readFormLoop tables declaration (fuel + 1) p.1 =
    (do pure { value := ← Cursor.fixed p.2, indexed := true }) := by
  unfold indexForms
  repeat refine List.forall_mem_cons.mpr ⟨rfl, ?_⟩
  exact List.forall_mem_nil _

theorem readFormLoop_offset : ∀ form ∈ offsetForms,
    readFormLoop tables declaration (fuel + 1) form =
      (do withText tables form (← Cursor.fixed tables.offsetSize)) := by
  unfold offsetForms
  repeat refine List.forall_mem_cons.mpr ⟨rfl, ?_⟩
  exact List.forall_mem_nil _

theorem readFormLoop_number : ∀ form ∈ numberForms,
    readFormLoop tables declaration (fuel + 1) form = (do pure { value := ← Cursor.uleb }) := by
  unfold numberForms
  repeat refine List.forall_mem_cons.mpr ⟨rfl, ?_⟩
  exact List.forall_mem_nil _

theorem readFormLoop_anyIndex : ∀ form ∈ anyIndexForms,
    readFormLoop tables declaration (fuel + 1) form =
      (do pure { value := ← Cursor.uleb, indexed := true }) := by
  unfold anyIndexForms
  repeat refine List.forall_mem_cons.mpr ⟨rfl, ?_⟩
  exact List.forall_mem_nil _

theorem readFormLoop_block : ∀ p ∈ blockForms,
    readFormLoop tables declaration (fuel + 1) p.1 = readBlock (Cursor.fixed p.2) := by
  unfold blockForms
  repeat refine List.forall_mem_cons.mpr ⟨rfl, ?_⟩
  exact List.forall_mem_nil _

theorem readFormLoop_anyBlock : ∀ form ∈ anyBlockForms,
    readFormLoop tables declaration (fuel + 1) form = readBlock Cursor.uleb := by
  unfold anyBlockForms
  repeat refine List.forall_mem_cons.mpr ⟨rfl, ?_⟩
  exact List.forall_mem_nil _

/-- None of the forms of fixed width is read through a string. -/
theorem textOf_fixed : ∀ p ∈ fixedForms, ∀ value, textOf tables p.1 value = none := by
  unfold fixedForms
  repeat refine List.forall_mem_cons.mpr ⟨fun _ => rfl, ?_⟩
  exact List.forall_mem_nil _

theorem width_fixedForms : ∀ p ∈ fixedForms, 0 < p.2 ∧ p.2 ≤ 8 := by decide

theorem width_indexForms : ∀ p ∈ indexForms, 0 < p.2 ∧ p.2 ≤ 8 := by decide

theorem width_blockForms : ∀ p ∈ blockForms, 0 < p.2 ∧ p.2 ≤ 8 := by decide

/-- The form of every value is small enough to be written as one, and means nothing else in an
abbreviation. -/
theorem Datum.form_plain {addressSize offsetSize : Nat} {datum : Datum}
    (wellFormed : datum.WellFormed addressSize offsetSize) :
    datum.form < 128 ∧ datum.form ≠ 0 ∧ datum.form ≠ dwFormImplicitConst := by
  have fixed : ∀ p ∈ fixedForms ++ indexForms ++ blockForms,
      p.1 < 128 ∧ p.1 ≠ 0 ∧ p.1 ≠ dwFormImplicitConst := by decide
  have plain : ∀ form ∈ offsetForms ++ numberForms ++ anyIndexForms ++ anyBlockForms,
      form < 128 ∧ form ≠ 0 ∧ form ≠ dwFormImplicitConst := by decide
  cases datum with
  | fixed form width value => exact fixed (form, width) (by simp [wellFormed.1])
  | index form width value => exact fixed (form, width) (by simp [wellFormed.1])
  | block form width bytes => exact fixed (form, width) (by simp [wellFormed.1])
  | offset form value => exact plain form (by simp [wellFormed.1])
  | number form value => exact plain form (by simp [wellFormed.1])
  | anyIndex form value => exact plain form (by simp [wellFormed.1])
  | anyBlock form bytes => exact plain form (by simp [wellFormed.1])
  | address | signed | string | sixteen | present | indirect => exact of_decide_eq_true rfl

theorem readBlock_reads {length : Reader Cursor Nat} {front bytes : List UInt8}
    (reads : Reads length front bytes.length) : Reads (readBlock length) (front ++ bytes) {} :=
  reads.bind ((Reads.skip bytes).bind_pure (.pure _))

/-- The reader gives back every value in every form. -/
theorem readFormLoop_reads (readable : tables.Readable) {datum : Datum}
    (wellFormed : datum.WellFormed tables.addressSize tables.offsetSize)
    (enough : (datum.bytes tables.addressSize tables.offsetSize).length < fuel) :
    Reads (readFormLoop tables declaration fuel datum.form)
      (datum.bytes tables.addressSize tables.offsetSize) (datum.meaning tables) := by
  obtain ⟨fuel, rfl⟩ := Nat.exists_eq_succ_of_ne_zero (Nat.ne_zero_of_lt enough)
  induction datum generalizing fuel with
  | fixed form width value =>
      obtain ⟨pos, le⟩ := width_fixedForms _ wellFormed.1
      have reads := withText_reads readable form pos le wellFormed.2
      rw [textOf_fixed _ wellFormed.1] at reads
      rw [Datum.form, readFormLoop_fixed _ wellFormed.1]
      exact reads
  | index form width value =>
      obtain ⟨pos, le⟩ := width_indexForms _ wellFormed.1
      rw [Datum.form, readFormLoop_index _ wellFormed.1]
      exact (Reads.fixed pos le wellFormed.2).bind_pure (.pure _)
  | address value =>
      exact (Reads.fixed readable.address_pos readable.address_le wellFormed).bind_pure (.pure _)
  | offset form value =>
      rw [Datum.form, readFormLoop_offset _ wellFormed.1]
      exact withText_reads readable form readable.offset_pos readable.offset_le wellFormed.2
  | number form value =>
      rw [Datum.form, readFormLoop_number _ wellFormed.1]
      exact (Reads.uleb wellFormed.2).bind_pure (.pure _)
  | anyIndex form value =>
      rw [Datum.form, readFormLoop_anyIndex _ wellFormed.1]
      exact (Reads.uleb wellFormed.2).bind_pure (.pure _)
  | signed value => exact (Reads.sleb wellFormed.1 wellFormed.2).bind_pure (.pure _)
  | string text => exact (Reads.string wellFormed).bind_pure (.pure _)
  | block form width bytes =>
      obtain ⟨pos, le⟩ := width_blockForms _ wellFormed.1
      rw [Datum.form, readFormLoop_block _ wellFormed.1]
      exact readBlock_reads (Reads.fixed pos le wellFormed.2)
  | anyBlock form bytes =>
      rw [Datum.form, readFormLoop_anyBlock _ wellFormed.1]
      exact readBlock_reads (Reads.uleb wellFormed.2)
  | sixteen bytes =>
      have skipped := Reads.skip bytes
      rw [show bytes.length = 16 from wellFormed] at skipped
      exact skipped.bind_pure (.pure _)
  | present => exact .pure _
  | indirect datum ih =>
      have inner : datum.WellFormed tables.addressSize tables.offsetSize := wellFormed
      have small : datum.form < 128 := (Datum.form_plain inner).1
      have one : 0 < (encodeUleb datum.form).length := by
        rw [encodeUleb, ulebBytes, if_pos small]
        exact Nat.succ_pos _
      rw [Datum.bytes, List.length_append] at enough
      obtain ⟨fuel, rfl⟩ := Nat.exists_eq_succ_of_ne_zero (by omega : fuel ≠ 0)
      exact (Reads.uleb (by omega)).bind (ih wellFormed _ (by omega))

theorem readForm_reads (readable : tables.Readable) {datum : Datum}
    (wellFormed : datum.WellFormed tables.addressSize tables.offsetSize) :
    Reads (readForm tables declaration datum.form)
      (datum.bytes tables.addressSize tables.offsetSize) (datum.meaning tables) :=
  Reads.turns_bind fun _ enough => readFormLoop_reads readable wellFormed enough

end Values

/-! ## The tables of version 5 -/

/-- A table of entries with the format that it declares for them. -/
structure EntryTable : Type where
  format : List (Nat × Nat)
  entries : List (List Datum)

namespace EntryTable

def formatBytes (table : EntryTable) : List UInt8 :=
  table.format.flatMap fun pair => encodeUleb pair.1 ++ encodeUleb pair.2

def bytes (addressSize offsetSize : Nat) (table : EntryTable) : List UInt8 :=
  [UInt8.ofNat table.format.length] ++ (table.formatBytes ++ (encodeUleb table.entries.length ++
    table.entries.flatMap fun entry => entry.flatMap (Datum.bytes addressSize offsetSize)))

/-- The number of formats is a byte, a content type code is one of the standard or of a vendor,
and every entry has a value for each format. -/
structure WellFormed (addressSize offsetSize : Nat) (table : EntryTable) : Prop where
  formats : table.format.length < 256
  contents : ∀ pair ∈ table.format, 0 < pair.1 ∧ pair.1 ≤ 0x3FFF ∧ pair.2 < 2 ^ 64
  count : table.entries.length < 2 ^ 64
  forms : ∀ entry ∈ table.entries, entry.map Datum.form = table.format.map Prod.snd
  data : ∀ entry ∈ table.entries, ∀ datum ∈ entry, datum.WellFormed addressSize offsetSize

end EntryTable

/-- The last of the values of an entry that a content type code is for. -/
def lastOf {α : Type} (select : Datum → Option α) (content : Nat) (format : List (Nat × Nat))
    (entry : List Datum) : Option α :=
  ((format.zip entry).filterMap fun pair =>
    if pair.1.1 = content then select pair.2 else none).getLast?

/-- What an entry says: its path is the last one that is a string. -/
def entryMeaning (tables : Tables) (format : List (Nat × Nat)) (entry : List Datum) :
    FileEntry where
  path := (lastOf (fun datum => (datum.meaning tables).text) dwLnctPath format entry).getD []
  directoryIndex := (lastOf (fun datum => some (datum.meaning tables).value) dwLnctDirectoryIndex
    format entry).getD 0

section Entries

variable {tables : Tables} {table : EntryTable}

theorem lastOf_cons {α : Type} {select : Datum → Option α} {content : Nat} {pair : Nat × Nat}
    {format : List (Nat × Nat)} {datum : Datum} {entry : List Datum} (default : α) :
    (lastOf select content (pair :: format) (datum :: entry)).getD default =
      (lastOf select content format entry).getD
        ((if pair.1 = content then select datum else none).getD default) := by
  rw [lastOf, lastOf, List.zip_cons_cons, List.filterMap_cons]
  cases (if pair.1 = content then select datum else none) with
  | none => rfl
  | some value =>
      rw [List.getLast?_cons]
      rfl

theorem FileEntry.with_eq (entry : FileEntry) (content : Nat) (value : FormValue) :
    entry.with content value =
      { path := (if content = dwLnctPath then value.text else none).getD entry.path,
        directoryIndex :=
          (if content = dwLnctDirectoryIndex then some value.value else none).getD
            entry.directoryIndex } := by
  unfold FileEntry.with
  by_cases path : content = dwLnctPath
  · cases value.text <;> simp [path, dwLnctPath, dwLnctDirectoryIndex]
  · by_cases index : content = dwLnctDirectoryIndex
    · cases value.text <;> simp [index, dwLnctPath, dwLnctDirectoryIndex]
    · cases value.text <;> simp [path, index]

/-- An entry is read value by value, and a later value replaces an earlier one. -/
theorem readEntry_reads (readable : tables.Readable) {format : List (Nat × Nat)}
    {entry : List Datum} (forms : entry.map Datum.form = format.map Prod.snd)
    (data : ∀ datum ∈ entry, datum.WellFormed tables.addressSize tables.offsetSize)
    (start : FileEntry) :
    Reads (readEntry tables format start)
      (entry.flatMap (Datum.bytes tables.addressSize tables.offsetSize))
      { path := (lastOf (fun datum => (datum.meaning tables).text) dwLnctPath format
          entry).getD start.path,
        directoryIndex := (lastOf (fun datum => some (datum.meaning tables).value)
          dwLnctDirectoryIndex format entry).getD start.directoryIndex } := by
  induction format generalizing entry start with
  | nil =>
      obtain rfl : entry = [] := by simpa using forms
      exact .pure start
  | cons pair format ih =>
      obtain ⟨content, form⟩ := pair
      obtain _ | ⟨datum, entry⟩ := entry
      · cases forms
      · obtain ⟨rfl, rest⟩ := List.cons_eq_cons.mp forms
        rw [lastOf_cons, lastOf_cons, List.flatMap_cons]
        refine (readForm_reads readable (data datum (by simp))).bind ?_
        rw [FileEntry.with_eq]
        exact ih rest (fun d hd => data d (by simp [hd])) _

theorem formatCount_reads (few : table.format.length < 128) :
    Reads Cursor.uleb [UInt8.ofNat table.format.length] table.format.length := by
  have short : encodeUleb table.format.length = [UInt8.ofNat table.format.length] := by
    rw [encodeUleb, ulebBytes, if_pos few]
  rw [← short]
  exact .uleb (by omega)

theorem readFormat_reads (wellFormed : table.WellFormed tables.addressSize tables.offsetSize)
    (few : table.format.length ≤ maxLineHeaderEntries) :
    Reads readFormat ([UInt8.ofNat table.format.length] ++ table.formatBytes) table.format := by
  rw [maxLineHeaderEntries] at few
  refine (formatCount_reads (by omega)).bind ?_
  refine (Reads.require (decide_eq_true few)).bind_nil ?_
  rw [EntryTable.formatBytes]
  nth_rewrite 3 [← List.map_id table.format]
  refine Reads.repeated fun pair mem => ?_
  obtain ⟨-, content, form⟩ := wellFormed.contents pair mem
  exact (Reads.uleb (by omega)).bind ((Reads.uleb form).bind_pure (.pure _))

/-- A table with no more formats than the reader has room for is read back. -/
theorem readEntries_reads (readable : tables.Readable)
    (wellFormed : table.WellFormed tables.addressSize tables.offsetSize)
    (few : table.format.length ≤ maxLineHeaderEntries) :
    Reads (readEntries tables) (table.bytes tables.addressSize tables.offsetSize)
      (table.entries.map (entryMeaning tables table.format)) := by
  rw [EntryTable.bytes, ← List.append_assoc]
  refine (readFormat_reads wellFormed few).bind ((Reads.uleb wellFormed.count).bind ?_)
  exact Reads.repeated fun entry mem =>
    readEntry_reads readable (wellFormed.forms entry mem) (wellFormed.data entry mem) {}

/-- A byte that announces more is the low part of a larger number. -/
theorem uleb_cons {low value : Nat} (small : low < 128) (pos : 0 < value) (fits : value < 128 ^ 8) :
    Reads Cursor.uleb (UInt8.ofNat (low + 128) :: encodeUleb value) (low + 128 * value) := by
  have whole : encodeUleb (low + 128 * value) = UInt8.ofNat (low + 128) :: encodeUleb value := by
    have rest : (low + 128 * value) / 128 = value := by omega
    have digit : (low + 128 * value) % 128 = low := by omega
    have same : ulebBytes 10 value = ulebBytes 9 value := ulebBytes_succ (by omega) (by decide)
    rw [encodeUleb, ulebBytes, if_neg (by omega), rest, digit, encodeUleb, same]
  rw [← whole]
  exact .uleb (by omega)

/-- The number of formats is a byte of the table and not LEB128, but no number that the reader
would take for another one is a number that it accepts. -/
theorem readEntries_refuses (wellFormed : table.WellFormed tables.addressSize tables.offsetSize)
    (many : maxLineHeaderEntries < table.format.length) :
    Refuses (readEntries tables) (table.bytes tables.addressSize tables.offsetSize) := by
  have refuses {count : Nat} {front back : List UInt8} (reads : Reads Cursor.uleb front count)
      (more : maxLineHeaderEntries < count) : Refuses (readEntries tables) (front ++ back) :=
    .bind (reads.bind_refuses (.require (decide_eq_false (Nat.not_le.mpr more))))
  by_cases few : table.format.length < 128
  · exact refuses (formatCount_reads few) many
  · have byte := wellFormed.formats
    obtain ⟨format, entries⟩ := table
    obtain _ | ⟨⟨content, form⟩, format⟩ := format
    · exact absurd many (Nat.not_lt_zero _)
    · obtain ⟨pos, le, -⟩ := wellFormed.contents (content, form) (by simp)
      have low : format.length + 1 = format.length + 1 - 128 + 128 := by
        rw [List.length_cons] at few
        omega
      rw [EntryTable.bytes, EntryTable.formatBytes, List.flatMap_cons, List.length_cons, low]
      simp only [List.append_assoc, List.singleton_append, ← List.cons_append]
      refine refuses (uleb_cons (by simp at byte; omega) pos (by omega)) ?_
      rw [maxLineHeaderEntries]
      omega

end Entries

/-! ## The tables before version 5 -/

/-- A file of a table before version 5. -/
structure LegacyFile : Type where
  path : List UInt8
  directoryIndex : Nat
  timestamp : Nat
  length : Nat

namespace LegacyFile

def bytes (file : LegacyFile) : List UInt8 :=
  (file.path ++ [0]) ++ (encodeUleb file.directoryIndex ++
    (encodeUleb file.timestamp ++ encodeUleb file.length))

structure WellFormed (file : LegacyFile) : Prop where
  named : file.path ≠ []
  plain : 0 ∉ file.path
  directory : file.directoryIndex < 2 ^ 64
  timestamp : file.timestamp < 2 ^ 64
  length : file.length < 2 ^ 64

end LegacyFile

/-- The table of directories before version 5 ends with an empty string. -/
def directoryBytes (directories : List (List UInt8)) : List UInt8 :=
  directories.flatMap (· ++ [0]) ++ [0]

def fileBytes (files : List LegacyFile) : List UInt8 := files.flatMap LegacyFile.bytes ++ [0]

/-- A table ends where a string is empty. -/
theorem string_end : Reads Cursor.string [0] [] := Reads.string (List.not_mem_nil)

theorem readDirectories_reads {directories : List (List UInt8)}
    (named : ∀ directory ∈ directories, directory ≠ [] ∧ 0 ∉ directory) {fuel : Nat}
    (enough : (directoryBytes directories).length < fuel) :
    Reads (readDirectories fuel) (directoryBytes directories) directories := by
  obtain ⟨fuel, rfl⟩ := Nat.exists_eq_succ_of_ne_zero (Nat.ne_zero_of_lt enough)
  induction directories generalizing fuel with
  | nil =>
      refine string_end.bind_pure ?_
      rw [if_pos rfl]
      exact .pure []
  | cons directory directories ih =>
      obtain ⟨named', plain⟩ := named directory (by simp)
      have split : directoryBytes (directory :: directories) =
          (directory ++ [0]) ++ directoryBytes directories := by
        rw [directoryBytes, directoryBytes, List.flatMap_cons, List.append_assoc]
      rw [split] at enough ⊢
      simp only [List.length_append, List.length_cons, List.length_nil] at enough
      refine (Reads.string plain).bind ?_
      rw [if_neg named']
      obtain ⟨fuel, rfl⟩ := Nat.exists_eq_succ_of_ne_zero (by omega : fuel ≠ 0)
      exact (ih (fun d hd => named d (by simp [hd])) _ (by omega)).bind_pure (.pure _)

theorem readFiles_reads {files : List LegacyFile} (wellFormed : ∀ file ∈ files, file.WellFormed)
    {fuel : Nat} (enough : (fileBytes files).length < fuel) :
    Reads (readFiles fuel) (fileBytes files)
      (files.map fun file => ⟨file.path, file.directoryIndex⟩) := by
  obtain ⟨fuel, rfl⟩ := Nat.exists_eq_succ_of_ne_zero (Nat.ne_zero_of_lt enough)
  induction files generalizing fuel with
  | nil =>
      refine string_end.bind_pure ?_
      rw [if_pos rfl]
      exact .pure []
  | cons file files ih =>
      obtain ⟨named, plain, directory, timestamp, length⟩ := wellFormed file (by simp)
      have split : fileBytes (file :: files) =
          (file.path ++ [0]) ++ (encodeUleb file.directoryIndex ++
          (encodeUleb file.timestamp ++ (encodeUleb file.length ++ fileBytes files))) := by
        simp only [fileBytes, List.flatMap_cons, LegacyFile.bytes, List.append_assoc]
      rw [split] at enough ⊢
      simp only [List.length_append, List.length_cons, List.length_nil] at enough
      refine (Reads.string plain).bind ?_
      rw [if_neg named]
      refine (Reads.uleb directory).bind ((Reads.uleb timestamp).bind ((Reads.uleb length).bind ?_))
      obtain ⟨fuel, rfl⟩ := Nat.exists_eq_succ_of_ne_zero (by omega : fuel ≠ 0)
      exact (ih (fun f hf => wellFormed f (by simp [hf])) _ (by omega)).bind_pure (.pure _)

/-! ## The file tables -/

/-- The directories and the files of a unit, in the encoding of its version. -/
inductive FileTables : Type
  | legacy (directories : List (List UInt8)) (files : List LegacyFile)
  | entries (directories files : EntryTable)

namespace FileTables

def bytes (addressSize offsetSize : Nat) : FileTables → List UInt8
  | .legacy directories files => directoryBytes directories ++ fileBytes files
  | .entries directories files =>
      directories.bytes addressSize offsetSize ++ files.bytes addressSize offsetSize

def WellFormed (version addressSize offsetSize : Nat) : FileTables → Prop
  | .legacy directories files =>
      version < 5 ∧ (∀ directory ∈ directories, directory ≠ [] ∧ 0 ∉ directory) ∧
        ∀ file ∈ files, file.WellFormed
  | .entries directories files =>
      5 ≤ version ∧ directories.WellFormed addressSize offsetSize ∧
        files.WellFormed addressSize offsetSize

/-- The paths of the files in their order, joined with their directories. Before version 5 the
files are counted from one and directory zero is that of the unit. -/
def paths (tables : Tables) : FileTables → List (List UInt8)
  | .legacy directories files =>
      [] :: files.map fun file =>
        joinPath tables (legacyDirectory tables directories file.directoryIndex) file.path
  | .entries directories files =>
      (files.entries.map (entryMeaning tables files.format)).map fun file =>
        joinPath tables
          (((directories.entries.map (entryMeaning tables directories.format)).map
            FileEntry.path)[file.directoryIndex]?.getD []) file.path

/-- The reader has room for the formats of both tables. -/
def Fit : FileTables → Prop
  | .legacy _ _ => True
  | .entries directories files =>
      directories.format.length ≤ maxLineHeaderEntries ∧ files.format.length ≤ maxLineHeaderEntries

instance : (tables : FileTables) → Decidable tables.Fit
  | .legacy _ _ => inferInstanceAs (Decidable True)
  | .entries _ _ => inferInstanceAs (Decidable (_ ∧ _))

variable {version : Nat} {tables : Tables} {fileTables : FileTables}

theorem reads (readable : tables.Readable)
    (wellFormed : fileTables.WellFormed version tables.addressSize tables.offsetSize)
    (fit : fileTables.Fit) :
    Reads (readFileTable version tables)
      (fileTables.bytes tables.addressSize tables.offsetSize) (fileTables.paths tables) := by
  cases fileTables with
  | legacy directories files =>
      obtain ⟨old, named, wellFormed⟩ := wellFormed
      rw [readFileTable, if_neg (Nat.not_le.mpr old)]
      refine Reads.turns_bind fun fuel enough => ?_
      rw [bytes, List.length_append] at enough
      refine (readDirectories_reads named (by omega)).bind (Reads.turns_bind fun fuel enough => ?_)
      refine (readFiles_reads wellFormed enough).bind_pure ?_
      rw [List.map_map]
      exact .pure _
  | entries directories files =>
      obtain ⟨new, wellFormed, wellFormed'⟩ := wellFormed
      rw [readFileTable, if_pos new]
      exact (readEntries_reads readable wellFormed fit.1).bind
        ((readEntries_reads readable wellFormed' fit.2).bind_pure (.pure _))

theorem refuses (readable : tables.Readable)
    (wellFormed : fileTables.WellFormed version tables.addressSize tables.offsetSize)
    (large : ¬ fileTables.Fit) :
    Refuses (readFileTable version tables)
      (fileTables.bytes tables.addressSize tables.offsetSize) := by
  cases fileTables with
  | legacy directories files => exact absurd trivial large
  | entries directories files =>
      obtain ⟨new, wellFormed, wellFormed'⟩ := wellFormed
      rw [readFileTable, if_pos new]
      by_cases few : directories.format.length ≤ maxLineHeaderEntries
      · have many : ¬ files.format.length ≤ maxLineHeaderEntries := fun h => large ⟨few, h⟩
        exact (readEntries_reads readable wellFormed few).bind_refuses
          (readEntries_refuses wellFormed' (Nat.not_le.mp many)).bind
      · exact ((readEntries_refuses wellFormed (Nat.not_le.mp few)).bind).append _

end FileTables

/-! ## The length of a unit -/

/-- The length in front of a unit, in the 64-bit format or not. -/
def frameBytes (wide : Bool) (length : Nat) : List UInt8 :=
  if wide then toBytes 4 dwarf64UnitLength ++ toBytes 8 length else toBytes 4 length

section Frame

variable {wide : Bool} {c : Cursor} {body rest : List UInt8}

/-- A length is read with the width that it gives to offsets. -/
theorem frameBytes_reads {length : Nat}
    (small : length < if wide then 2 ^ 64 else reservedUnitLength) (offsetSize : Nat) :
    Reads (do
      let unitLength ← Cursor.fixed 4
      readWideLength offsetSize unitLength) (frameBytes wide length)
      (length, if wide then 8 else offsetSize) := by
  cases wide with
  | true =>
      refine (Reads.fixed (by decide) (by decide) (by decide)).bind ?_
      exact (Reads.fixed (by decide) (by decide) small).bind_pure (.pure _)
  | false =>
      simp only [Bool.false_eq_true, if_false, reservedUnitLength] at small
      refine (Reads.fixed (by decide) (by decide) (by omega)).bind_pure ?_
      rw [readWideLength, if_neg (by rw [dwarf64UnitLength]; omega)]
      exact .bind_nil (.require (decide_eq_true (by rwa [reservedUnitLength]))) (.pure _)

/-- The length is accepted where the section has room for what it counts. -/
theorem readUnitLength_frame (small : body.length < if wide then 2 ^ 64 else reservedUnitLength)
    (ahead : c.Over (frameBytes wide body.length ++ (body ++ rest))) (offsetSize : Nat) :
    (readUnitLength offsetSize).run c =
      .ok ((body.length, if wide then 8 else offsetSize),
        c.advance (frameBytes wide body.length).length) := by
  have split : readUnitLength offsetSize = (do
      let length ← (do
        let unitLength ← Cursor.fixed 4
        readWideLength offsetSize unitLength : Reader Cursor (Nat × Nat))
      let c ← get
      Reader.require (length.1 ≤ subtract c.size c.position)
      pure length) := by
    rw [readUnitLength, bind_assoc]
  have got (c : Cursor) : (get : Reader Cursor Cursor).run c = .ok (c, c) := rfl
  have room : (body.length ≤ subtract (c.advance (frameBytes wide body.length).length).size
      (c.advance (frameBytes wide body.length).length).position : Bool) = true := by
    rw [ahead.advance.left, List.length_append]
    exact decide_eq_true (Nat.le_add_right _ _)
  rw [split, (frameBytes_reads small offsetSize).run_bind ahead, Reader.run_bind_eq (got _),
    Reader.run_require_bind room]
  rfl

end Frame

/-! ## Units -/

/-- A line program: the fields of its header, its tables and its opcodes. -/
structure LineUnit : Type where
  version : Nat
  wide : Bool
  addressSize : Nat
  segmentSelectorSize : UInt8
  minimumInstructionLength : UInt8
  maximumOperations : UInt8
  defaultIsStmt : UInt8
  lineBase : Int
  lineRange : UInt8
  lengths : List UInt8
  fileTables : FileTables
  opcodes : List UInt8

namespace LineUnit

variable (u : LineUnit)

def offsetSize : Nat := if u.wide then 8 else 4

/-- What the length of the header counts. -/
def fields : List UInt8 :=
  [u.minimumInstructionLength] ++ ((if 4 ≤ u.version then [u.maximumOperations] else []) ++
    ([u.defaultIsStmt] ++ ([UInt8.ofNat (u.lineBase % 256).toNat] ++ ([u.lineRange] ++
      ([UInt8.ofNat (u.lengths.length + 1)] ++ (u.lengths ++
        u.fileTables.bytes u.addressSize u.offsetSize))))))

/-- The widths, which only version 5 writes. -/
def widths : List UInt8 :=
  if 5 ≤ u.version then [UInt8.ofNat u.addressSize] ++ [u.segmentSelectorSize] else []

/-- What stands between the length of the unit and what the length of the header counts. -/
def head : List UInt8 :=
  toBytes 2 u.version ++ (u.widths ++ toBytes u.offsetSize u.fields.length)

/-- What the length of the unit counts. -/
def body : List UInt8 := u.head ++ (u.fields ++ u.opcodes)

def lengthBytes : List UInt8 :=
  if u.wide then toBytes 4 dwarf64UnitLength ++ toBytes 8 u.body.length else toBytes 4 u.body.length

/-- The encoding of a line program. -/
def encode : List UInt8 := u.lengthBytes ++ u.body

/-- A header of version 2 to 5. Only some versions write the operations per instruction and
the width of an address, the others have one operation and the width that their unit
declares. -/
structure WellFormed (tables : Tables) : Prop where
  version : 2 ≤ u.version ∧ u.version ≤ 5
  address : 0 < u.addressSize ∧ u.addressSize ≤ 8
  declared : u.version < 5 → u.addressSize = tables.addressSize
  operations : u.version < 4 → u.maximumOperations = 1
  lineBase : -128 ≤ u.lineBase ∧ u.lineBase < 128
  lineRange : u.lineRange ≠ 0
  opcodeBase : u.lengths.length + 1 ≤ maxStandardOpcodes
  length : u.wide = false → u.body.length < reservedUnitLength
  fileTables : u.fileTables.WellFormed u.version u.addressSize u.offsetSize

/-- What the reader needs to come to the fields and to read as many of them as it accepts. -/
structure Headed (tables : Tables) : Prop where
  version : 2 ≤ u.version ∧ u.version ≤ 5
  address : 0 < u.addressSize ∧ u.addressSize ≤ 8
  declared : u.version < 5 → u.addressSize = tables.addressSize
  operations : u.version < 4 → u.maximumOperations = 1
  opcodeBase : u.lengths.length + 1 < 256
  length : u.wide = false → u.body.length < reservedUnitLength
  fileTables : u.fileTables.WellFormed u.version u.addressSize u.offsetSize

/-- The tables as the unit sees them. -/
def tables (tables : Tables) : Tables :=
  { tables with addressSize := u.addressSize, offsetSize := u.offsetSize }

/-- The header that was encoded, of a unit that starts at an offset of the section. -/
def header (start : Nat) : LineHeader where
  version := u.version
  addressSize := u.addressSize
  minimumInstructionLength := u.minimumInstructionLength.toNat
  maximumOperations := u.maximumOperations.toNat
  lineBase := u.lineBase
  lineRange := u.lineRange.toNat
  opcodeBase := u.lengths.length + 1
  standardLengths := standardArray (u.lengths.map UInt8.toNat)
  program := start + (u.lengthBytes ++ (u.head ++ u.fields)).length
  stop := start + u.encode.length

/-- The reader keeps room for the formats of the tables, and an instruction has a length and
operations. -/
def Accepted : Prop :=
  u.minimumInstructionLength ≠ 0 ∧ u.maximumOperations ≠ 0 ∧ u.fileTables.Fit

instance : Decidable u.Accepted := inferInstanceAs (Decidable (_ ∧ _))

/-- The reader accepts all of the fields. -/
def Taken : Prop := u.lineRange ≠ 0 ∧ u.lengths.length + 1 ≤ maxStandardOpcodes ∧ u.Accepted

instance : Decidable u.Taken := inferInstanceAs (Decidable (_ ∧ _))

variable {u} {tables : Tables}

theorem WellFormed.headed (wellFormed : u.WellFormed tables) : u.Headed tables where
  version := wellFormed.version
  address := wellFormed.address
  declared := wellFormed.declared
  operations := wellFormed.operations
  opcodeBase := by
    have small := wellFormed.opcodeBase
    rw [maxStandardOpcodes] at small
    omega
  length := wellFormed.length
  fileTables := wellFormed.fileTables

theorem WellFormed.taken_iff (wellFormed : u.WellFormed tables) : u.Taken ↔ u.Accepted :=
  ⟨fun taken => taken.2.2, fun accepted => ⟨wellFormed.lineRange, wellFormed.opcodeBase, accepted⟩⟩

theorem Headed.readable (headed : u.Headed tables) (str : tables.debugStr.Sound)
    (lineStr : tables.debugLineStr.Sound) : (u.tables tables).Readable where
  debugStr := str
  debugLineStr := lineStr
  address_pos := headed.address.1
  address_le := headed.address.2
  offset_pos := by
    simp only [LineUnit.tables, offsetSize]
    split <;> decide
  offset_le := by
    simp only [LineUnit.tables, offsetSize]
    split <;> decide

theorem toNat_ne_zero {byte : UInt8} : byte.toNat ≠ 0 ↔ byte ≠ 0 := by
  rw [Ne, Ne, ← UInt8.toNat_inj]
  rfl

theorem Headed.readMaximumOperations (headed : u.Headed tables) :
    Reads (readMaximumOperations u.version) (if 4 ≤ u.version then [u.maximumOperations] else [])
      u.maximumOperations.toNat := by
  rw [Debug.readMaximumOperations]
  split
  · exact .byte _
  · next old =>
      rw [headed.operations (Nat.not_le.mp old)]
      exact .pure 1

theorem Headed.opcodeBase_reads (headed : u.Headed tables) :
    Reads (Cursor.fixed 1) [UInt8.ofNat (u.lengths.length + 1)] (u.lengths.length + 1) := by
  have small := headed.opcodeBase
  have read := Reads.byte (UInt8.ofNat (u.lengths.length + 1))
  rw [UInt8.toNat_ofNat', Nat.mod_eq_of_lt (by omega)] at read
  exact read

theorem lengths_reads (lengths : List UInt8) :
    Reads (Reader.repeated (Cursor.fixed 1) lengths.length) lengths (lengths.map UInt8.toNat) := by
  have read : Reads (Reader.repeated (Cursor.fixed 1) lengths.length)
      (lengths.flatMap fun byte => [byte]) (lengths.map UInt8.toNat) :=
    Reads.repeated fun byte _ => Reads.byte byte
  rw [List.flatMap_singleton'] at read
  exact read

/-- The fields up to the check of them, which accepts or refuses. -/
theorem Headed.readLineFields (headed : u.Headed tables) (readable : (u.tables tables).Readable)
    (taken : u.Taken) (program stop : Nat) :
    Reads (readLineFields (u.tables tables) u.version program stop) u.fields
      ({ u.header 0 with lineBase := -5, program := program, stop := stop },
        u.fileTables.paths (u.tables tables)) := by
  obtain ⟨range, opcodes, length, operations, fit⟩ := taken
  refine (Reads.byte _).bind (headed.readMaximumOperations.bind ((Reads.byte _).bind
    ((Reads.byte _).bind ((Reads.byte _).bind (headed.opcodeBase_reads.bind ?_)))))
  refine (Reads.require ?_).bind_nil ?_
  · simp [toNat_ne_zero, length, operations, range, opcodes]
  · exact (lengths_reads u.lengths).bind
      ((FileTables.reads readable headed.fileTables fit).bind_pure (.pure _))

theorem Headed.readLineFields_refuses (headed : u.Headed tables)
    (readable : (u.tables tables).Readable) (rejected : ¬ u.Taken) (program stop : Nat) :
    Refuses (Debug.readLineFields (u.tables tables) u.version program stop) u.fields := by
  refine (Reads.byte _).bind_refuses (headed.readMaximumOperations.bind_refuses
    ((Reads.byte _).bind_refuses ((Reads.byte _).bind_refuses ((Reads.byte _).bind_refuses
      (headed.opcodeBase_reads.bind_refuses ?_)))))
  by_cases numbers : u.minimumInstructionLength ≠ 0 ∧ u.maximumOperations ≠ 0 ∧ u.lineRange ≠ 0 ∧
      u.lengths.length + 1 ≤ maxStandardOpcodes
  · obtain ⟨length, operations, range, opcodes⟩ := numbers
    have large : ¬ u.fileTables.Fit :=
      fun fit => rejected ⟨range, opcodes, length, operations, fit⟩
    refine Reads.bind_refuses_nil (Reads.require ?_) ?_
    · simp [toNat_ne_zero, length, operations, range, opcodes]
    · exact (lengths_reads u.lengths).bind_refuses
        (FileTables.refuses readable headed.fileTables large).bind
  · refine Refuses.require ?_
    simp only [not_and_or, not_not, ← UInt8.toNat_inj] at numbers
    rcases numbers with zero | zero | zero | many
    · simp [zero]
    · simp [zero]
    · simp [zero]
    · simp [many]

section Header

variable {c : Cursor} {rest : List UInt8}

theorem Headed.readUnitLength (headed : u.Headed tables)
    (ahead : c.Over (u.lengthBytes ++ (u.body ++ rest))) :
    (readUnitLength tables.offsetSize).run c =
      .ok ((u.body.length, if u.wide then 8 else tables.offsetSize),
        c.advance u.lengthBytes.length) := by
  have sum := ahead.position_add
  have small := ahead.small
  rw [List.length_append, List.length_append] at sum
  refine readUnitLength_frame ?_ ahead tables.offsetSize
  split
  · omega
  · next narrow => exact headed.length (Bool.eq_false_iff.mpr narrow)

theorem Headed.readAddressSize (headed : u.Headed tables) :
    Reads (readAddressSize u.version tables.addressSize) u.widths u.addressSize := by
  obtain ⟨pos, le⟩ := headed.address
  rw [Debug.readAddressSize, widths]
  split
  · have size := Reads.byte (UInt8.ofNat u.addressSize)
    rw [UInt8.toNat_ofNat', Nat.mod_eq_of_lt (by omega)] at size
    refine size.bind ((Reads.byte _).bind_pure ((Reads.require ?_).bind_nil (.pure _)))
    simp only [Bool.and_eq_true, decide_eq_true_eq]
    omega
  · next old =>
      rw [headed.declared (Nat.not_le.mp old)]
      exact .pure _

theorem Headed.version_reads (headed : u.Headed tables) :
    Reads (Cursor.fixed 2) (toBytes 2 u.version) u.version := by
  obtain ⟨-, le⟩ := headed.version
  exact .fixed (by decide) (by decide) (by omega)

theorem Headed.known (headed : u.Headed tables) :
    (2 ≤ u.version && u.version ≤ 5 : Bool) = true := by
  obtain ⟨ge, le⟩ := headed.version
  simp only [ge, le, decide_true, Bool.and_self]

theorem length_body : u.body.length = 2 + u.widths.length + u.offsetSize + u.fields.length +
    u.opcodes.length := by
  simp only [body, head, List.length_append, length_toBytes]
  omega

theorem length_encode : u.encode.length = u.lengthBytes.length + u.body.length := by
  rw [encode, List.length_append]

theorem get_run (c : Cursor) : (get : Reader Cursor Cursor).run c = .ok (c, c) := rfl

/-- The reader comes to the length of the header, which is an offset of the unit to it. -/
theorem Headed.readLineHeader_head (headed : u.Headed tables) {width : Nat}
    (same : (if u.wide then 8 else tables.offsetSize) = width) (ahead : c.Over (u.encode ++ rest)) :
    (readLineHeader tables).run c = (do
      let headerLength ← Cursor.fixed width
      let c' ← get
      Reader.require (headerLength ≤ subtract (c.position + u.encode.length) c'.position &&
        c.position + u.encode.length ≤ c'.size)
      Debug.readLineFields { tables with addressSize := u.addressSize, offsetSize := width }
        u.version (u64 (c'.position + headerLength)) (c.position + u.encode.length)).run
      (c.advance (u.lengthBytes.length + 2 + u.widths.length)) := by
  have sum := ahead.position_add
  have small := ahead.small
  have atLength := ahead
  rw [encode, List.append_assoc] at atLength
  have atVersion := atLength.advance
  rw [body, head] at atVersion
  simp only [List.append_assoc] at atVersion
  have stopped : u64 ((c.advance u.lengthBytes.length).position + u.body.length) =
      c.position + u.encode.length := by
    rw [List.length_append, length_encode] at sum
    rw [length_encode, Cursor.advance, u64_eq (by simp only; omega)]
    simp only [Nat.add_assoc]
  rw [Debug.readLineHeader, Reader.run_bind_eq (headed.readUnitLength atLength), same,
    Reader.run_bind_eq (get_run _), headed.version_reads.run_bind atVersion,
    Reader.run_require_bind headed.known,
    headed.readAddressSize.run_bind atVersion.advance]
  simp only [Cursor.advance_advance, length_toBytes] at stopped ⊢
  rw [stopped]

theorem Headed.headerLength_reads (headed : u.Headed tables)
    (ahead : c.Over (u.encode ++ rest)) :
    Reads (Cursor.fixed u.offsetSize) (toBytes u.offsetSize u.fields.length) u.fields.length := by
  have sum := ahead.position_add
  have small := ahead.small
  have body := length_body (u := u)
  rw [List.length_append, length_encode] at sum
  rw [offsetSize]
  cases wide : u.wide with
  | true => exact .fixed (by decide) (by decide) (by simp; omega)
  | false =>
      have narrow := headed.length wide
      rw [reservedUnitLength] at narrow
      exact .fixed (by decide) (by decide) (by simp; omega)

theorem over_headerLength (ahead : c.Over (u.encode ++ rest)) :
    (c.advance (u.lengthBytes.length + 2 + u.widths.length)).Over
      (toBytes u.offsetSize u.fields.length ++ (u.fields ++ (u.opcodes ++ rest))) := by
  have front : u.lengthBytes.length + 2 + u.widths.length =
      (u.lengthBytes ++ (toBytes 2 u.version ++ u.widths)).length := by
    simp only [List.length_append, length_toBytes, Nat.add_assoc]
  rw [front]
  apply Cursor.Over.advance
  simpa only [encode, body, head, List.append_assoc] using ahead

/-- Where offsets have the width that the unit gives them, the reader comes to the fields. -/
theorem Headed.readLineHeader_eq (headed : u.Headed tables)
    (same : u.wide = true ∨ tables.offsetSize = 4) (ahead : c.Over (u.encode ++ rest)) :
    (readLineHeader tables).run c =
      (Debug.readLineFields (u.tables tables) u.version
        (c.position + (u.lengthBytes ++ (u.head ++ u.fields)).length)
        (c.position + u.encode.length)).run (c.advance (u.lengthBytes ++ u.head).length) := by
  have width : (if u.wide then 8 else tables.offsetSize) = u.offsetSize := by
    rw [offsetSize]
    rcases same with wide | narrow
    · rw [wide]
      rfl
    · rw [narrow]
  have sum := ahead.position_add
  have small := ahead.small
  have body := length_body (u := u)
  rw [List.length_append, length_encode] at sum
  rw [headed.readLineHeader_head width ahead,
    (headed.headerLength_reads ahead).run_bind (over_headerLength ahead),
    Reader.run_bind_eq (get_run _), Reader.run_require_bind]
  · have position : u.lengthBytes.length + 2 + u.widths.length + u.offsetSize =
        (u.lengthBytes ++ u.head).length := by
      simp only [head, List.length_append, length_toBytes]
      omega
    have program : u64 ((c.advance (u.lengthBytes ++ u.head).length).position + u.fields.length) =
        c.position + (u.lengthBytes ++ (u.head ++ u.fields)).length := by
      simp only [Cursor.advance, List.length_append]
      rw [u64_eq (by simp only [head, List.length_append, length_toBytes]; omega)]
      omega
    rw [Cursor.advance_advance, length_toBytes, position, program]
    rfl
  · rw [Bool.and_eq_true, decide_eq_true_eq, decide_eq_true_eq]
    simp only [Cursor.advance, length_toBytes, length_encode]
    rw [subtract_eq (by omega) (by omega)]
    omega

/-- A header is read, apart from its line base, where the reader accepts its fields. -/
theorem Headed.readLineHeader_run (headed : u.Headed tables) (readable : (u.tables tables).Readable)
    (same : u.wide = true ∨ tables.offsetSize = 4) (ahead : c.Over (u.encode ++ rest)) :
    (readLineHeader tables).run c =
      if u.Taken then .ok (({ u.header c.position with lineBase := -5 },
        u.fileTables.paths (u.tables tables)),
          (c.advance (u.lengthBytes ++ u.head).length).advance u.fields.length)
      else .error .refused := by
  have atFields : (c.advance (u.lengthBytes ++ u.head).length).Over
      (u.fields ++ (u.opcodes ++ rest)) := by
    apply Cursor.Over.advance
    simpa only [encode, body, List.append_assoc] using ahead
  rw [headed.readLineHeader_eq same ahead]
  split
  · next taken =>
      rw [headed.readLineFields readable taken _ _ _ _ atFields]
      rfl
  · next rejected => exact headed.readLineFields_refuses readable rejected _ _ _ _ atFields

/-- The line base of every header that is read is the default. -/
theorem lineBase_of_readLineHeader :
    (readLineHeader tables).Gives fun decoded => decoded.1.lineBase = -5 :=
  .bind fun _ => .bind fun _ => .bind fun _ => .bind fun _ => .bind fun _ => .bind fun _ =>
    .bind fun _ => .bind fun _ => .bind fun _ => .bind fun _ => .bind fun _ => .bind fun _ =>
      .bind fun _ => .bind fun _ => .bind fun _ => .bind fun _ => .bind fun _ => .pure rfl

/-- The first four bytes of the fields. -/
theorem WellFormed.fields_split (wellFormed : u.WellFormed tables) (base : u.lineBase = -5) :
    ∃ a b c d back, u.fields = [a, b, c, d] ++ back ∧ d ≠ 0 := by
  by_cases new : 4 ≤ u.version
  · refine ⟨_, _, _, _, _, by simp only [fields, new, if_true]; rfl, ?_⟩
    rw [base]
    decide
  · exact ⟨_, _, _, _, _, by simp only [fields, new, if_false]; rfl, wellFormed.lineRange⟩

/-- A length of four bytes that is read as eight takes in the first fields and is too long. -/
theorem WellFormed.readLineHeader_refused (wellFormed : u.WellFormed tables)
    (base : u.lineBase = -5) (narrow : u.wide = false) (width : tables.offsetSize = 8)
    (ahead : c.Over (u.encode ++ rest)) : (readLineHeader tables).run c = .error .refused := by
  obtain ⟨a, b, d, e, back, split, nonzero⟩ := wellFormed.fields_split base
  have sum := ahead.position_add
  have small := ahead.small
  have body := length_body (u := u)
  have short := wellFormed.length narrow
  have four : u.offsetSize = 4 := by rw [offsetSize, narrow, if_neg Bool.false_ne_true]
  have atLength := over_headerLength ahead
  rw [reservedUnitLength] at short
  rw [List.length_append, length_encode] at sum
  rw [split, four, List.append_assoc, ← List.append_assoc (toBytes 4 _)] at atLength
  rw [split, List.length_append] at body
  have eight : (toBytes 4 ([a, b, d, e] ++ back).length ++ [a, b, d, e]).length = 8 := by
    rw [List.length_append, length_toBytes]
    rfl
  have read := Reads.raw (by omega) (Nat.le_of_eq eight)
  have large : 2 ^ 56 ≤ ofBytes (toBytes 4 ([a, b, d, e] ++ back).length ++ [a, b, d, e]) := by
    have last : e.toNat ≠ 0 := toNat_ne_zero.mpr nonzero
    simp only [toBytes, List.cons_append, List.nil_append, ofBytes]
    omega
  rw [eight] at read
  rw [wellFormed.headed.readLineHeader_head (by rw [narrow, if_neg Bool.false_ne_true, width])
    ahead, read.run_bind atLength, Reader.run_bind_eq (get_run _), Reader.run_require_refused]
  rw [Bool.and_eq_false_iff, decide_eq_false_iff_not]
  left
  simp only [Cursor.advance, eight, length_encode]
  simp only [List.length_cons, List.length_nil] at body
  rw [subtract_eq (by omega) (by omega)]
  omega

end Header

end LineUnit

open LineUnit in
/-- A line program header is given back as it was encoded exactly if its line base is the
default, the reader accepts its numbers and its tables, and offsets are as wide in the unit as
in the line program. -/
theorem readLineHeader_iff {u : LineUnit} {tables : Tables} {c : Cursor} {rest : List UInt8}
    (wellFormed : u.WellFormed tables) (str : tables.debugStr.Sound)
    (lineStr : tables.debugLineStr.Sound) (width : tables.offsetSize = 4 ∨ tables.offsetSize = 8)
    (ahead : c.Over (u.encode ++ rest)) :
    (∃ c', (readLineHeader tables).run c =
      .ok ((u.header c.position, u.fileTables.paths (u.tables tables)), c')) ↔
      u.lineBase = -5 ∧ u.Accepted ∧ (u.wide = true ∨ tables.offsetSize = 4) := by
  have headed := wellFormed.headed
  have readable := headed.readable str lineStr
  constructor
  · rintro ⟨c', decoded⟩
    have base : u.lineBase = -5 := lineBase_of_readLineHeader c _ c' decoded
    by_cases same : u.wide = true ∨ tables.offsetSize = 4
    · refine ⟨base, ?_, same⟩
      by_contra rejected
      rw [← wellFormed.taken_iff] at rejected
      rw [headed.readLineHeader_run readable same ahead, if_neg rejected] at decoded
      cases decoded
    · rw [not_or, Bool.not_eq_true] at same
      rw [wellFormed.readLineHeader_refused base same.1 (by tauto) ahead] at decoded
      cases decoded
  · rintro ⟨base, accepted, same⟩
    have header : { u.header c.position with lineBase := -5 } = u.header c.position := by
      rw [← base]
      rfl
    rw [headed.readLineHeader_run readable same ahead, if_pos (wellFormed.taken_iff.mpr accepted),
      header]
    exact ⟨_, rfl⟩

/-! ## A unit of version 5 -/

/-- A line program of version 5 for the file `/s/a` with a line base. -/
def oneFile (lineBase : Int) : LineUnit where
  version := 5
  wide := false
  addressSize := 8
  segmentSelectorSize := 0
  minimumInstructionLength := 1
  maximumOperations := 1
  defaultIsStmt := 1
  lineBase := lineBase
  lineRange := 14
  lengths := [0, 1, 1, 1, 1, 0, 0, 0, 1, 0, 0, 1]
  fileTables := .entries
    ⟨[(dwLnctPath, dwFormString)], [[.string [47, 115]]]⟩
    ⟨[(dwLnctPath, dwFormString), (dwLnctDirectoryIndex, dwFormUdata)],
      [[.string [97], .number dwFormUdata 0]]⟩
  opcodes := [0, 1, 1]

/-- Tables with no section but the line programs. -/
def onlyLines : Tables where
  debugStr := ⟨none, 0⟩
  debugLineStr := ⟨none, 0⟩
  debugStrOffsets := ⟨none, 0⟩
  debugAddr := ⟨none, 0⟩
  debugLine := ⟨none, 0⟩
  debugRnglists := ⟨none, 0⟩
  debugRanges := ⟨none, 0⟩

/-- The start of a section that holds one unit. -/
def startOf (u : LineUnit) : Cursor := ⟨some u.encode, u.encode.length, 0⟩

theorem oneFile_wellFormed {lineBase : Int} (byte : -128 ≤ lineBase ∧ lineBase < 128) :
    (oneFile lineBase).WellFormed onlyLines where
  version := of_decide_eq_true rfl
  address := of_decide_eq_true rfl
  declared := fun _ => rfl
  operations := fun _ => rfl
  lineBase := byte
  lineRange := of_decide_eq_true rfl
  opcodeBase := of_decide_eq_true rfl
  length := fun _ => of_decide_eq_true rfl
  fileTables := by
    refine ⟨of_decide_eq_true rfl, ⟨?_, ?_, ?_, ?_, ?_⟩, ⟨?_, ?_, ?_, ?_, ?_⟩⟩ <;>
      exact of_decide_eq_true rfl

theorem over_startOf (u : LineUnit) (small : u.encode.length < 2 ^ 64) :
    (startOf u).Over (u.encode ++ []) :=
  ⟨[], [], by simp [startOf], rfl, by simp [startOf], small⟩

/-- With the default as its line base the unit is given back. -/
theorem readLineHeader_iff_oneFile : (oneFile (-5)).WellFormed onlyLines ∧
    ∃ c', (readLineHeader onlyLines).run (startOf (oneFile (-5))) =
      .ok (((oneFile (-5)).header 0, [[47, 115, 47, 97]]), c') := by
  have wellFormed := oneFile_wellFormed (show -128 ≤ (-5 : Int) ∧ (-5 : Int) < 128 by decide)
  refine ⟨wellFormed, ?_⟩
  exact (readLineHeader_iff wellFormed ⟨.inl rfl, by decide⟩ ⟨.inl rfl, by decide⟩
    (.inl rfl) (over_startOf _ (by decide +kernel))).mpr (by decide)

/-- Any other line base is read and not kept. -/
theorem readLineHeader_lineBase : (oneFile (-3)).WellFormed onlyLines ∧
    (startOf (oneFile (-3))).Over ((oneFile (-3)).encode ++ []) ∧
    (∃ c', (readLineHeader onlyLines).run (startOf (oneFile (-3))) =
      .ok (({ (oneFile (-3)).header 0 with lineBase := -5 }, [[47, 115, 47, 97]]), c')) ∧
    ¬ ∃ c', (readLineHeader onlyLines).run (startOf (oneFile (-3))) =
      .ok (((oneFile (-3)).header 0, (oneFile (-3)).fileTables.paths
        ((oneFile (-3)).tables onlyLines)), c') := by
  have decoded : (readLineHeader onlyLines).run (startOf (oneFile (-3))) =
      .ok (({ (oneFile (-3)).header 0 with lineBase := -5 }, [[47, 115, 47, 97]]),
        { startOf (oneFile (-3)) with position := (oneFile (-3)).encode.length - 3 }) := by
    decide +kernel
  refine ⟨oneFile_wellFormed (by decide), over_startOf _ (by decide +kernel), ⟨_, decoded⟩, ?_⟩
  rintro ⟨c', same⟩
  rw [decoded] at same
  exact absurd same (by simp [LineUnit.header, oneFile])

end Fpag.Debug
