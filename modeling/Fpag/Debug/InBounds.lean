import Fpag.Debug.Module

/-!
Reads inside the mapping.

Every reader of `reader.cc` keeps its cursor sound and does not fault, as long as the sections
that it is given are backed by the mapping: the bounds that it checks are those of the section.
What is left is which of the sections that a module hands out are backed.
-/

namespace Fpag.Debug

open Cursor Reader

/-- All the sections of the tables are backed by the mapping. -/
structure Tables.Sound (tables : Tables) : Prop where
  debugStr : tables.debugStr.Sound
  debugLineStr : tables.debugLineStr.Sound
  debugStrOffsets : tables.debugStrOffsets.Sound
  debugAddr : tables.debugAddr.Sound
  debugLine : tables.debugLine.Sound
  debugRnglists : tables.debugRnglists.Sound
  debugRanges : tables.debugRanges.Sound

section Readers

variable {tables : Tables}

/-- Only the sections of the tables are sound or not, whatever else they carry. -/
theorem Tables.Sound.vary (sound : tables.Sound) (workingDirectory : List UInt8)
    (strOffsetsBase addrBase addressSize offsetSize : Nat) :
    Tables.Sound { tables with
      workingDirectory := workingDirectory, strOffsetsBase := strOffsetsBase,
      addrBase := addrBase, addressSize := addressSize, offsetSize := offsetSize } :=
  ⟨sound.debugStr, sound.debugLineStr, sound.debugStrOffsets, sound.debugAddr, sound.debugLine,
    sound.debugRnglists, sound.debugRanges⟩

theorem turns_safe : Safe turns := .bind .get fun _ => .pure _

/-! ## Abbreviations and forms -/

theorem readAttributes_safe (fuel : Nat) (attributes : List AbbreviationAttribute) :
    Safe (readAttributes fuel attributes) := by
  induction fuel generalizing attributes with
  | zero => exact .running
  | succ fuel ih =>
      refine .bind uleb_safe fun attr => .bind uleb_safe fun form => .ite (.pure _) ?_
      refine .bind (.require _) fun _ => .bind ?_ fun _ => ih _
      exact .ite sleb_safe (.pure _)

theorem findAbbreviation_safe (code fuel : Nat) : Safe (findAbbreviation code fuel) := by
  induction fuel with
  | zero => exact .running
  | succ fuel ih =>
      refine .bind uleb_safe fun entryCode => .bind (.require _) fun _ => .bind uleb_safe fun tag =>
        .bind (fixed_safe 1) fun _ => .bind turns_safe fun n => .bind (readAttributes_safe _ _) ?_
      exact fun attributes => .ite (.pure _) ih

theorem readAbbreviation_safe (code : Nat) : Safe (readAbbreviation code) :=
  .bind turns_safe fun _ => findAbbreviation_safe code _

theorem withText_safe (sound : tables.Sound) (form value : Nat) :
    Safe (withText tables form value) := by
  refine .ite (.bind (.ofExcept (sound.debugStr.stringAt value)) fun _ => .pure _) ?_
  exact .ite (.bind (.ofExcept (sound.debugLineStr.stringAt value)) fun _ => .pure _) (.pure _)

theorem readBlock_safe {length : Reader Cursor Nat} (safe : Safe length) :
    Safe (readBlock length) :=
  .bind safe fun n => .bind (skip_safe n) fun _ => .pure _

theorem readFormLoop_safe (sound : tables.Sound) (declaration : AbbreviationAttribute)
    (fuel form : Nat) : Safe (readFormLoop tables declaration fuel form) := by
  have text {m : Reader Cursor Nat} (safe : Safe m) : Safe (do withText tables form (← m)) :=
    .bind safe fun value => withText_safe sound form value
  induction fuel generalizing form with
  | zero => exact .running
  | succ fuel ih =>
      refine .ite (.bind uleb_safe fun form => ih form fun safe => ?_) ?_
      · exact .bind safe fun value => withText_safe sound form value
      refine .ite (.pure _) (.ite (.pure _) ?_)
      refine .ite (.bind (fixed_safe _) fun _ => .pure _) ?_
      refine .ite (.bind (fixed_safe _) fun _ => .pure _) ?_
      refine .ite (.bind (fixed_safe _) fun _ => .pure _) ?_
      refine .ite (text (fixed_safe 1)) (.ite (text (fixed_safe 2)) (.ite (text (fixed_safe 4)) ?_))
      refine .ite (text (fixed_safe 8)) (.ite (.bind (skip_safe 16) fun _ => .pure _) ?_)
      refine .ite (.bind uleb_safe fun _ => .pure _) ?_
      refine .ite (.bind sleb_safe fun value => withText_safe sound form _) ?_
      refine .ite (text (fixed_safe _)) (.ite (.bind string_safe fun _ => .pure _) ?_)
      refine .ite (readBlock_safe (fixed_safe 1)) (.ite (readBlock_safe (fixed_safe 2)) ?_)
      refine .ite (readBlock_safe (fixed_safe 4)) (.ite (readBlock_safe uleb_safe) .refused)

theorem readForm_safe (sound : tables.Sound) (declaration : AbbreviationAttribute) (form : Nat) :
    Safe (readForm tables declaration form) :=
  .bind turns_safe fun _ => readFormLoop_safe sound declaration _ form

/-! ## Indices -/

theorem indexedOffset_harmless {table : SectionView} (sound : table.Sound)
    (base index entrySize : Nat) : Harmless (indexedOffset table base index entrySize) := by
  refine .ite (.ok _) (.bind (Keeps.attempt ?_ sound.cursor) fun _ _ => .ok _)
  exact .bind (seek_safe _) fun _ => fixed_safe _

theorem indexedString_harmless (sound : tables.Sound) (index : Nat) :
    Harmless (indexedString tables index) := by
  refine .ite (.ok _)
    (.bind (indexedOffset_harmless sound.debugStrOffsets _ _ _) fun offset _ => ?_)
  exact .ite (sound.debugStr.stringAt offset) (.ok _)

theorem indexedAddress_harmless (sound : tables.Sound) (index : Nat) :
    Harmless (indexedAddress tables index) := by
  refine .ite (.ok _) (Keeps.attempt ?_ sound.debugAddr.cursor)
  exact .bind (seek_safe _) fun _ => fixed_safe _

/-! ## Line programs -/

theorem readUnitLength_safe (offsetSize : Nat) : Safe (readUnitLength offsetSize) := by
  refine .bind (fixed_safe 4) fun unitLength => .bind ?_ fun length => .bind .get fun c =>
    .bind (.require _) fun _ => .pure _
  exact .ite (.bind (fixed_safe 8) fun _ => .pure _) (.bind (.require _) fun _ => .pure _)

theorem readFormat_safe : Safe readFormat := by
  refine .bind uleb_safe fun count => .bind (.require _) fun _ => .repeated ?_ count
  exact .bind uleb_safe fun _ => .bind uleb_safe fun _ => .pure _

theorem readEntry_safe (sound : tables.Sound) (format : List (Nat × Nat)) (entry : FileEntry) :
    Safe (readEntry tables format entry) := by
  induction format generalizing entry with
  | nil => exact .pure _
  | cons pair format ih => exact .bind (readForm_safe sound _ _) fun value => ih _

theorem readEntries_safe (sound : tables.Sound) : Safe (readEntries tables) :=
  .bind readFormat_safe fun format => .bind uleb_safe fun count =>
    .repeated (readEntry_safe sound format {}) count

theorem readDirectories_safe (fuel : Nat) : Safe (readDirectories fuel) := by
  induction fuel with
  | zero => exact .running
  | succ fuel ih =>
      exact .bind string_safe fun _ => .ite (.pure _) (.bind ih fun _ => .pure _)

theorem readFiles_safe (fuel : Nat) : Safe (readFiles fuel) := by
  induction fuel with
  | zero => exact .running
  | succ fuel ih =>
      refine .bind string_safe fun _ => .ite (.pure _) ?_
      exact .bind uleb_safe fun _ => .bind uleb_safe fun _ => .bind uleb_safe fun _ =>
        .bind ih fun _ => .pure _

theorem readFileTable_safe (sound : tables.Sound) (version : Nat) :
    Safe (readFileTable version tables) := by
  refine .ite ?_ ?_
  · exact .bind (readEntries_safe sound) fun _ => .bind (readEntries_safe sound) fun _ => .pure _
  · exact .bind turns_safe fun _ => .bind (readDirectories_safe _) fun _ =>
      .bind turns_safe fun _ => .bind (readFiles_safe _) fun _ => .pure _

theorem readLineFields_safe (sound : tables.Sound) (version program stop : Nat) :
    Safe (readLineFields tables version program stop) := by
  refine .bind (fixed_safe 1) fun _ => .bind (.ite (fixed_safe 1) (.pure _)) fun _ =>
    .bind (fixed_safe 1) fun _ => .bind (fixed_safe 1) fun _ => .bind (fixed_safe 1) fun _ =>
      .bind (fixed_safe 1) fun _ => .bind (.require _) fun _ => ?_
  exact .bind (.repeated (fixed_safe 1) _) fun _ =>
    .bind (readFileTable_safe sound version) fun _ => .pure _

theorem readAddressSize_safe (version addressSize : Nat) :
    Safe (readAddressSize version addressSize) := by
  refine .ite ?_ (.pure _)
  exact .bind (fixed_safe 1) fun _ => .bind (fixed_safe 1) fun _ => .bind (.require _) fun _ =>
    .pure _

theorem readLineHeader_safe (sound : tables.Sound) : Safe (readLineHeader tables) := by
  refine .bind (readUnitLength_safe _) fun length => .bind .get fun start =>
    .bind (fixed_safe 2) fun version => .bind (.require _) fun _ =>
      .bind (readAddressSize_safe _ _) fun addressSize => .bind (fixed_safe _) fun headerLength =>
        .bind .get fun c => .bind (.require _) fun _ => ?_
  exact readLineFields_safe (sound.vary _ _ _ _ _) _ _ _

theorem fetch_safe (header : LineHeader) : Safe (fetch header) := by
  refine .bind (fixed_safe 1) fun opcode => .ite (.pure _) (.ite ?_ ?_)
  · refine .bind uleb_safe fun length => .bind .get fun c => .bind (.require _) fun _ =>
      .bind (fixed_safe 1) fun subOpcode => .bind ?_ fun _ => .bind (seek_safe _) fun _ => .pure _
    exact .ite (.pure _) (.ite (.bind (fixed_safe _) fun _ => .pure _) (.pure _))
  · refine .ite (.pure _) (.ite (.bind uleb_safe fun _ => .pure _) ?_)
    refine .ite (.bind sleb_safe fun _ => .pure _) (.ite (.bind uleb_safe fun _ => .pure _) ?_)
    refine .ite (.bind uleb_safe fun _ => .pure _) (.ite (.pure _) ?_)
    refine .ite (.bind (fixed_safe 2) fun _ => .pure _) (.ite (.bind uleb_safe fun _ => .pure _) ?_)
    exact .ite (.pure _) (.bind (.repeated uleb_safe _) fun _ => .pure _)

theorem walk_safe (header : LineHeader) (files : List (List UInt8))
    (linkAddress fuel position : Nat)
    (w : Walk) : Safe (walk header files linkAddress fuel position w) := by
  induction fuel generalizing position w with
  | zero => exact .running
  | succ fuel ih =>
      refine .ite ?_ (.pure _)
      exact .bind (seek_safe position) fun _ => .bind (fetch_safe header) fun _ =>
        .bind .get fun _ => ih _ _

theorem linePosition_harmless (sound : tables.Sound) (unit : CompilationUnit)
    (linkAddress fuel : Nat) : Harmless (linePosition tables unit linkAddress fuel) := by
  refine .ite (.ok _) (.bind (Keeps.attempt ?_ sound.debugLine.cursor) fun _ _ => .ok _)
  exact .bind (seek_safe _) fun _ => .bind (readLineHeader_safe sound) fun _ =>
    walk_safe _ _ _ _ _ _

/-! ## Units -/

theorem readFound_safe (sound : tables.Sound) (attributes : List AbbreviationAttribute)
    (found : List Found) : Safe (readFound tables attributes found) := by
  induction attributes generalizing found with
  | nil => exact .pure _
  | cons declared attributes ih => exact .orElse (readForm_safe sound _ _) fun value => ih _

theorem resolveLow_harmless (sound : tables.Sound) (found : List Found) (unit : CompilationUnit) :
    Harmless (resolveLow tables found unit) := by
  unfold resolveLow
  split
  · exact .ok _
  · exact .ite (.bind (indexedAddress_harmless sound _) fun _ _ => .ok _) (.ok _)

theorem resolveHigh_harmless (sound : tables.Sound) (found : List Found) (unit : CompilationUnit) :
    Harmless (resolveHigh tables found unit) := by
  unfold resolveHigh
  split
  · exact .ok _
  · exact .ite (.bind (indexedAddress_harmless sound _) fun _ _ => .ok _) (.ok _)

theorem resolveRanges_harmless (sound : tables.Sound) (version : Nat) (found : List Found)
    (unit : CompilationUnit) : Harmless (resolveRanges tables version found unit) := by
  unfold resolveRanges
  split
  · exact .ok _
  · exact .ite (.bind (indexedOffset_harmless sound.debugRnglists _ _ _) fun _ _ => .ok _) (.ok _)

theorem resolveText_harmless (sound : tables.Sound) (found : Option Found) :
    Harmless (resolveText tables found) := by
  cases found with
  | none => exact .ok _
  | some found => exact .ite (indexedString_harmless sound _) (.ok _)

/-- The line program is read with the tables as they are, but for the working directory. -/
theorem resolveLines_harmless (sound : tables.Sound) (version : Nat) (found : List Found)
    (unit : CompilationUnit) : Harmless (resolveLines tables version found unit) := by
  unfold resolveLines
  split
  · exact .ok _
  · refine .ite (.ok _) (.bind (resolveText_harmless sound _) fun name _ =>
      .bind (resolveText_harmless sound _) fun directory _ =>
        .bind (Keeps.attempt ?_ sound.debugLine.cursor) fun _ _ => .ok _)
    exact .bind (seek_safe _) fun _ => readLineHeader_safe (sound.vary _ _ _ _ _)

theorem resolveUnit_harmless (sound : tables.Sound) (version : Nat) (found : List Found) :
    Harmless (resolveUnit tables version found) := by
  have based (addrBase strOffsetsBase : Nat) : Tables.Sound
      { tables with addrBase := addrBase, strOffsetsBase := strOffsetsBase } :=
    sound.vary _ _ _ _ _
  refine .bind (resolveLow_harmless (based _ _) _ _) fun low _ => .ite ?_ (.ok _)
  refine .bind (resolveHigh_harmless (based _ _) _ _) fun high _ => .ite ?_ (.ok _)
  exact .bind (resolveRanges_harmless (based _ _) _ _ _) fun ranged _ =>
    resolveLines_harmless (based _ _) _ _ _

theorem readRoot_safe {abbrevs : SectionView} (known : abbrevs.Sound) (sound : tables.Sound)
    (version abbrevOffset : Nat) : Safe (readRoot abbrevs tables version abbrevOffset) := by
  refine .orElse (.bind uleb_safe fun _ => .bind (.require _) fun _ => .pure _) fun code => ?_
  refine .bind (.ofExcept (Keeps.attempt ?_ known.cursor)) fun declaration => ?_
  · exact .bind (seek_safe _) fun _ => readAbbreviation_safe code
  · cases declaration with
    | none => exact .pure _
    | some declaration =>
        refine .ite (.pure _) (.bind (readFound_safe sound _ _) fun found => ?_)
        exact .ofExcept (resolveUnit_harmless sound version found)

theorem readUnitBody_safe {abbrevs : SectionView} (known : abbrevs.Sound) (sound : tables.Sound)
    (version : Nat) : Safe (readUnitBody abbrevs tables version) := by
  refine .ite ?_ ?_
  · refine .orElse (fixed_safe 1) fun unitType => .orElse (fixed_safe 1) fun addressSize =>
      .ite (.pure _) (.orElse (fixed_safe _) fun abbrevOffset => ?_)
    exact readRoot_safe known (sound.vary _ _ _ _ _) _ _
  · refine .orElse (fixed_safe _) fun abbrevOffset => .orElse (fixed_safe 1) fun addressSize => ?_
    exact readRoot_safe known (sound.vary _ _ _ _ _) _ _

theorem readUnit_safe {abbrevs : SectionView} (known : abbrevs.Sound) (sound : tables.Sound) :
    Safe (readUnit abbrevs tables) := by
  refine .bind (readUnitLength_safe _) fun length => .bind .get fun c => .bind ?_ fun _ => .pure _
  refine .orElse
    (.bind (fixed_safe 2) fun _ => .bind (.require _) fun _ => .pure _) fun version => ?_
  exact readUnitBody_safe known (sound.vary _ _ _ _ _) version

/-! ## Ranges -/

theorem readIndexed_safe (sound : tables.Sound) (index : Nat) :
    Safe (readIndexed tables index) := by
  refine .bind (.ofExcept (indexedAddress_harmless sound index)) fun address => ?_
  cases address with
  | none => exact .refused
  | some address => exact .pure _

theorem readRangeEntry_safe (sound : tables.Sound) (addressBase : Nat) :
    Safe (readRangeEntry tables addressBase) := by
  refine .bind uleb_safe fun entry => .ite (.pure _) ?_
  refine .ite (.bind uleb_safe fun _ => .bind (readIndexed_safe sound _) fun _ => .pure _) ?_
  refine .ite (.bind (fixed_safe _) fun _ => .pure _) ?_
  refine .ite (.bind uleb_safe fun _ => .bind uleb_safe fun _ => .pure _) ?_
  refine .ite (.bind uleb_safe fun _ => .bind uleb_safe fun _ =>
    .bind (readIndexed_safe sound _) fun _ => .pure _) ?_
  refine .ite (.bind uleb_safe fun _ => .bind (readIndexed_safe sound _) fun _ =>
    .bind uleb_safe fun _ => .bind (readIndexed_safe sound _) fun _ => .pure _) ?_
  refine .ite (.bind (fixed_safe _) fun _ => .bind uleb_safe fun _ => .pure _) ?_
  exact .ite (.bind (fixed_safe _) fun _ => .bind (fixed_safe _) fun _ => .pure _) .refused

theorem readLegacyEntry_safe (addressSize : Nat) : Safe (readLegacyEntry addressSize) := by
  refine .bind (fixed_safe _) fun start => .ite (.bind (fixed_safe _) fun _ => .pure _) ?_
  exact .ite (.pure _) (.bind (fixed_safe _) fun _ => .pure _)

theorem walkEntries_safe {entry : Nat → Reader Cursor RangeEntry} (each : ∀ base, Safe (entry base))
    (visit : Nat → Nat → Bool) (fuel addressBase : Nat) :
    Safe (walkEntries entry visit fuel addressBase) := by
  induction fuel generalizing addressBase with
  | zero => exact .running
  | succ fuel ih =>
      refine .bind (each addressBase) fun read => ?_
      cases read with
      | stop => exact .pure _
      | base address => exact ih address
      | range start stop => exact .ite (ih addressBase) (.pure _)

theorem walkUnit_safe (sound : tables.Sound) (unit : CompilationUnit) (linkAddress : Nat) :
    Safe (walkUnit tables unit linkAddress) := by
  refine .ite ?_ ?_
  · exact .bind turns_safe fun _ => walkEntries_safe (fun _ => readLegacyEntry_safe _) _ _ _
  · exact .bind turns_safe fun _ =>
      walkEntries_safe (fun base => readRangeEntry_safe (sound.vary _ _ _ _ _) base) _ _ _

theorem unitCovers_harmless (sound : tables.Sound) (unit : CompilationUnit) (linkAddress : Nat) :
    Harmless (unitCovers tables unit linkAddress) := by
  have listed : (rangeSection tables unit).Sound := by
    unfold rangeSection
    split
    · exact sound.debugRanges
    · exact sound.debugRnglists
  refine .ite (.ite (.ok _) (.bind (Keeps.attempt ?_ listed.cursor) fun _ _ => .ok _)) ?_
  · exact .bind (seek_safe _) fun _ => walkUnit_safe sound unit linkAddress
  · exact .ite (.ok _) (.ok _)

end Readers

/-! ## Modules -/

/-- What the second step gives where both of them give something. -/
def bothOf {α β : Type} (x : Except Stop (Option α)) (f : α → Except Stop (Option β)) : Option β :=
  match x with
  | .ok (some a) => (f a).toOption.join
  | _ => none

theorem bothOf_eq {α β : Type} {x : Except Stop (Option α)} {f : α → Except Stop (Option β)} {a : α}
    {b : β} (first : x = .ok (some a)) (second : f a = .ok (some b)) : bothOf x f = some b := by
  subst first
  rw [bothOf, second]
  rfl

/-- The sections of a file whose section headers are all read. -/
def sectionsOf (file : List UInt8) : Option Sections :=
  bothOf (objectHeader file) (readSectionTable file)

/-- The sections that `detail_tables` hands out. -/
def Sections.details (all : Sections) : List Section :=
  [all.str, all.lineStr, all.strOffsets, all.addr, all.line, all.rnglists, all.ranges]

/-- The views that the module hands to the reader, after its presence tests. -/
def handed (file : List UInt8) (all : Sections) : List SectionView :=
  (if (sectionView file all.symtab).present && (sectionView file all.strtab).present then
    [sectionView file all.symtab, sectionView file all.strtab] else []) ++
  (if (sectionView file all.info).present && (sectionView file all.abbrevs).present then
    sectionView file all.info :: sectionView file all.abbrevs ::
      all.details.map (sectionView file) else [])

/-- The view is empty or stands for bytes of the file. -/
def Denotes (file : List UInt8) (view : SectionView) : Prop :=
  view.size = 0 ∨ ∃ offset, view.data = some (file.drop offset) ∧ offset + view.size ≤ file.length

/-- No read leaves the mapped file. -/
structure InBounds (sort : List Function → List Function) (file : List UInt8) : Prop where
  views : ∀ all ∈ sectionsOf file, ∀ view ∈ handed file all, Denotes file view
  constructs : Harmless (construct sort file)
  answers : ∀ m, construct sort file = .ok m → ∀ linkAddress fuel,
    Harmless (sourceAt file m linkAddress fuel)

/-- Where there are units to read, the sections that they resolve against are empty or lie in
the file. -/
def DetailsInside (file : List UInt8) : Prop :=
  ∀ all ∈ sectionsOf file, Inside file all.info.offset all.info.size →
    Inside file all.abbrevs.offset all.abbrevs.size →
      ∀ s ∈ all.details, s.size = 0 ∨ Inside file s.offset s.size

instance (file : List UInt8) : Decidable (DetailsInside file) :=
  match h : sectionsOf file with
  | none => isTrue (by simp [DetailsInside, h])
  | some all => decidable_of_iff
      (Inside file all.info.offset all.info.size → Inside file all.abbrevs.offset all.abbrevs.size →
        ∀ s ∈ all.details, s.size = 0 ∨ Inside file s.offset s.size) (by simp [DetailsInside, h])

section Modules

variable {sort : List Function → List Function} {file : List UInt8} {all : Sections} {s : Section}

theorem present_iff : (sectionView file s).present = true ↔ Inside file s.offset s.size := by
  rw [sectionView, SectionView.present, sectionData]
  split <;> simp [*]

/-- A section that is empty or lies in the file is sound, whatever its header claims besides. -/
theorem sectionView_sound (small : file.length < 2 ^ 64)
    (lies : s.size = 0 ∨ Inside file s.offset s.size) : (sectionView file s).Sound := by
  rcases lies with zero | inside
  · refine ⟨.inl zero, ?_⟩
    change s.size < 2 ^ 64
    omega
  · obtain ⟨-, -, fits⟩ := id inside
    refine ⟨.inr ⟨file.drop s.offset, ?_, ?_⟩, ?_⟩
    · rw [sectionView, sectionData, if_pos inside]
    · rw [List.length_drop]
      exact fits
    · exact lt_of_le_of_lt (fits.trans (Nat.sub_le _ _)) small

theorem denotes_of_lies (lies : s.size = 0 ∨ Inside file s.offset s.size) :
    Denotes file (sectionView file s) := by
  rcases lies with zero | inside
  · exact .inl zero
  · obtain ⟨-, first, fits⟩ := id inside
    refine .inr ⟨s.offset, ?_, ?_⟩
    · rw [sectionView, sectionData, if_pos inside]
    · change s.offset + s.size ≤ file.length
      omega

theorem lies_of_denotes (denotes : Denotes file (sectionView file s)) :
    s.size = 0 ∨ Inside file s.offset s.size := by
  rcases denotes with zero | ⟨offset, data, -⟩
  · exact .inl zero
  · rw [sectionView, sectionData] at data
    split at data
    · next inside => exact .inr inside
    · cases data

theorem fileCursor_sound (small : file.length < 2 ^ 64) : (fileCursor file).Sound :=
  ⟨.inr ⟨file, rfl, Nat.le_refl _⟩, small, Nat.zero_le _⟩

theorem viewOf_sound (small : file.length < 2 ^ 64) (s : SectionHeader) :
    (viewOf file s).Sound := by
  unfold viewOf
  split
  · next inside =>
      have sound : (sectionView file ⟨s.offset, s.size, 0⟩).Sound :=
        sectionView_sound small (.inr inside)
      rw [sectionView, sectionData, if_pos inside] at sound
      exact sound
  · exact ⟨.inl rfl, by decide⟩

theorem sectionAt_harmless (small : file.length < 2 ^ 64) (sectionTable index : Nat) :
    Harmless (sectionAt file sectionTable index) := by
  refine Keeps.attempt ?_ (fileCursor_sound small)
  exact .bind (seek_safe _) fun _ => .bind (fixed_safe 4) fun _ => .bind (fixed_safe 4) fun _ =>
    .bind (skip_safe 8) fun _ => .bind (skip_safe 8) fun _ => .bind (fixed_safe 8) fun _ =>
      .bind (fixed_safe 8) fun _ => .bind (fixed_safe 4) fun _ => .bind (skip_safe 4) fun _ =>
        .bind (skip_safe 8) fun _ => .bind (fixed_safe 8) fun _ => .pure _

theorem keepSection_harmless (small : file.length < 2 ^ 64) (sectionTable : Nat)
    (name : List UInt8) (s : SectionHeader) (all : Sections) :
    Harmless (keepSection file sectionTable name s all) := by
  unfold keepSection
  split
  · exact .ok _
  · refine .ite (.bind (sectionAt_harmless small _ _) fun strings _ => ?_) (.ok _)
    cases strings with
    | none => exact .ok _
    | some strings => exact .ite (.ok _) (.ok _)

theorem readSections_harmless (small : file.length < 2 ^ 64) {names : SectionView}
    (named : names.Sound) (sectionTable count index : Nat) (all : Sections) :
    Harmless (readSections file sectionTable names count index all) := by
  induction count generalizing index all with
  | zero => exact .ok _
  | succ count ih =>
      refine .bind (sectionAt_harmless small _ _) fun s _ => ?_
      cases s with
      | none => exact .ok _
      | some s =>
          refine .bind (named.stringAt s.name) fun name _ => ?_
          cases name with
          | none => exact ih _ _
          | some name =>
              exact .bind (keepSection_harmless small _ _ _ _) fun all _ => ih _ all

theorem objectHeader_harmless (small : file.length < 2 ^ 64) : Harmless (objectHeader file) := by
  refine .bind (Keeps.attempt ?_ (fileCursor_sound small)) fun _ _ => .ok _
  exact .bind (fixed_safe 4) fun _ => .bind (fixed_safe 1) fun _ => .bind (fixed_safe 1) fun _ =>
    .bind (skip_safe 10) fun _ => .bind (fixed_safe 2) fun _ => .bind (fixed_safe 2) fun _ =>
      .bind (fixed_safe 4) fun _ => .bind (fixed_safe 8) fun _ => .bind (fixed_safe 8) fun _ =>
        .bind (fixed_safe 8) fun _ => .bind (fixed_safe 4) fun _ => .bind (fixed_safe 2) fun _ =>
          .bind (fixed_safe 2) fun _ => .bind (fixed_safe 2) fun _ => .bind (fixed_safe 2) fun _ =>
            .bind (fixed_safe 2) fun _ => .bind (fixed_safe 2) fun _ => .pure _

theorem readSectionTable_harmless (small : file.length < 2 ^ 64) (header : ObjectHeader) :
    Harmless (readSectionTable file header) := by
  refine .ite (.ok _) (.bind (sectionAt_harmless small _ _) fun names _ => ?_)
  cases names with
  | none => exact .ok _
  | some names =>
      exact .ite (.ok _) (readSections_harmless small (viewOf_sound small names) _ _ _ _)

theorem readSymbols_harmless {symbols strings : SectionView} (sound : symbols.Sound)
    (named : strings.Sound) (entrySize count index : Nat) (functions : List Function) :
    Harmless (readSymbols sort symbols strings entrySize count index functions) := by
  induction count generalizing index functions with
  | zero => exact .ok _
  | succ count ih =>
      refine .bind (Keeps.attempt ?_ sound.cursor) fun symbol _ => ?_
      · exact .bind (seek_safe _) fun _ => .bind (fixed_safe 4) fun _ =>
          .bind (fixed_safe 1) fun _ =>
          .bind (skip_safe 3) fun _ => .bind (fixed_safe 8) fun _ => .bind (fixed_safe 8) fun _ =>
            .pure _
      · cases symbol with
        | none => exact .ok _
        | some symbol =>
            refine .bind ?_ fun function _ => ih _ _
            obtain ⟨nameOffset, info, value, length⟩ := symbol
            refine .ite (.ok _) (.ite (.ok _) (.bind (named.stringAt nameOffset) fun name _ => ?_))
            cases name with
            | none => exact .ok _
            | some name => exact .ok _

/-- The symbols are read only where both of their sections are present. -/
theorem readFunctions_harmless (small : file.length < 2 ^ 64) :
    Harmless (readFunctions sort file all) := by
  unfold readFunctions
  by_cases present : (sectionView file all.symtab).present = true ∧
      (sectionView file all.strtab).present = true
  · simp only [present, Bool.not_true, Bool.or_self, Bool.false_eq_true, if_false]
    refine .ite (.ok _) (readSymbols_harmless ?_ ?_ _ _ _ _)
    · exact sectionView_sound small (.inr (present_iff.mp present.1))
    · exact sectionView_sound small (.inr (present_iff.mp present.2))
  · rw [if_pos]
    · exact .ok _
    · rw [Bool.or_eq_true, Bool.not_eq_true', Bool.not_eq_true']
      rw [not_and_or, Bool.not_eq_true, Bool.not_eq_true] at present
      exact present

theorem detailTables_sound (small : file.length < 2 ^ 64)
    (lies : ∀ s ∈ all.details, s.size = 0 ∨ Inside file s.offset s.size) :
    (detailTables file all).Sound where
  debugStr := sectionView_sound small (lies all.str (by simp [Sections.details]))
  debugLineStr := sectionView_sound small (lies all.lineStr (by simp [Sections.details]))
  debugStrOffsets := sectionView_sound small (lies all.strOffsets (by simp [Sections.details]))
  debugAddr := sectionView_sound small (lies all.addr (by simp [Sections.details]))
  debugLine := sectionView_sound small (lies all.line (by simp [Sections.details]))
  debugRnglists := sectionView_sound small (lies all.rnglists (by simp [Sections.details]))
  debugRanges := sectionView_sound small (lies all.ranges (by simp [Sections.details]))

theorem readUnits_harmless {info abbrevs : SectionView} {tables : Tables} (sound : info.Sound)
    (known : abbrevs.Sound) (tabled : tables.Sound) (fuel offset : Nat)
    (units : List CompilationUnit) :
    Harmless (readUnits info abbrevs tables fuel offset units) := by
  induction fuel generalizing offset units with
  | zero => rintro ⟨⟩
  | succ fuel ih =>
      refine .ite (.bind (Keeps.attempt ?_ sound.cursor) fun read _ => ?_) (.ok _)
      · exact .bind (seek_safe offset) fun _ => readUnit_safe known tabled
      · cases read with
        | none => exact .ok _
        | some read => exact .ite (.ok _) (ih _ _)

/-- Without both of the sections that units are read from there are no units. -/
theorem readCompilationUnits_absent (absent : ¬ (Inside file all.info.offset all.info.size ∧
    Inside file all.abbrevs.offset all.abbrevs.size)) : readCompilationUnits file all = .ok [] := by
  unfold readCompilationUnits
  rw [if_pos]
  rw [Bool.or_eq_true, Bool.not_eq_true', Bool.not_eq_true', ← Bool.not_eq_true, ← Bool.not_eq_true,
    present_iff, present_iff]
  exact not_and_or.mp absent

theorem readCompilationUnits_harmless (small : file.length < 2 ^ 64)
    (info : Inside file all.info.offset all.info.size)
    (abbrevs : Inside file all.abbrevs.offset all.abbrevs.size)
    (lies : ∀ s ∈ all.details, s.size = 0 ∨ Inside file s.offset s.size) :
    Harmless (readCompilationUnits file all) := by
  unfold readCompilationUnits
  refine .ite (.ok _) (readUnits_harmless ?_ ?_ (detailTables_sound small lies) _ _ _)
  · exact sectionView_sound small (.inr info)
  · exact sectionView_sound small (.inr abbrevs)

/-- Whatever else a constructed module is, its units come from its sections. -/
theorem construct_units {m : Module} (made : construct sort file = .ok m) :
    m.units = [] ∨ sectionsOf file = some m.sections ∧
      readCompilationUnits file m.sections = .ok m.units := by
  unfold construct at made
  split at made
  · cases made
    exact .inl rfl
  · obtain ⟨header?, header, made⟩ := bind_eq_ok made
    cases header? with
    | none =>
        cases made
        exact .inl rfl
    | some h =>
        obtain ⟨all?, table, made⟩ := bind_eq_ok made
        cases all? with
        | none =>
            cases made
            exact .inl rfl
        | some all =>
            obtain ⟨functions, -, made⟩ := bind_eq_ok made
            obtain ⟨units, read, made⟩ := bind_eq_ok made
            cases made
            exact .inr ⟨bothOf_eq header table, read⟩

theorem sourceIn_harmless {tables : Tables} (sound : tables.Sound) (linkAddress fuel : Nat)
    (units : List CompilationUnit) : Harmless (sourceIn tables linkAddress fuel units) := by
  induction units with
  | nil => exact .ok _
  | cons unit units ih =>
      refine .bind (unitCovers_harmless sound unit linkAddress) fun covers _ => .ite ?_ ih
      refine .bind (linePosition_harmless sound unit linkAddress fuel) fun position _ => ?_
      cases position with
      | none => exact ih
      | some position => exact .ok _

theorem construct_harmless (small : file.length < 2 ^ 64) (inside : DetailsInside file) :
    Harmless (construct sort file) := by
  refine .ite (.ok _) (.bind (objectHeader_harmless small) fun header? header => ?_)
  cases header? with
  | none => exact .ok _
  | some h =>
      refine .bind (readSectionTable_harmless small h) fun all? table => ?_
      cases all? with
      | none => exact .ok _
      | some all =>
          have mine := bothOf_eq header table
          refine .bind (readFunctions_harmless small) fun _ _ => .bind ?_ fun _ _ => .ok _
          by_cases both : Inside file all.info.offset all.info.size ∧
              Inside file all.abbrevs.offset all.abbrevs.size
          · exact readCompilationUnits_harmless small both.1 both.2
              (inside all mine both.1 both.2)
          · rw [readCompilationUnits_absent both]
            exact .ok _

theorem sourceAt_harmless (small : file.length < 2 ^ 64) (inside : DetailsInside file) {m : Module}
    (made : construct sort file = .ok m) (linkAddress fuel : Nat) :
    Harmless (sourceAt file m linkAddress fuel) := by
  unfold sourceAt
  rcases construct_units made with none | ⟨mine, read⟩
  · rw [none]
    exact .ok _
  · by_cases both : Inside file m.sections.info.offset m.sections.info.size ∧
        Inside file m.sections.abbrevs.offset m.sections.abbrevs.size
    · exact sourceIn_harmless (detailTables_sound small (inside _ mine both.1 both.2)) _ _ _
    · rw [readCompilationUnits_absent both] at read
      rw [← Except.ok.inj read]
      exact .ok _

theorem handed_denotes (inside : DetailsInside file) (mine : sectionsOf file = some all)
    {view : SectionView} (mem : view ∈ handed file all) : Denotes file view := by
  rw [handed, List.mem_append] at mem
  rcases mem with mem | mem
  · split at mem
    · next present =>
        rw [Bool.and_eq_true, present_iff, present_iff] at present
        rcases List.mem_pair.mp mem with rfl | rfl
        · exact denotes_of_lies (.inr present.1)
        · exact denotes_of_lies (.inr present.2)
    · cases mem
  · split at mem
    · next present =>
        rw [Bool.and_eq_true, present_iff, present_iff] at present
        rcases List.mem_cons.mp mem with rfl | mem
        · exact denotes_of_lies (.inr present.1)
        rcases List.mem_cons.mp mem with rfl | mem
        · exact denotes_of_lies (.inr present.2)
        obtain ⟨s, hs, rfl⟩ := List.mem_map.mp mem
        exact denotes_of_lies (inside all mine present.1 present.2 s hs)
    · cases mem

/-- No read leaves the mapped file exactly if, where there are units to read, every section
that they resolve against is empty or lies in the file. -/
theorem inBounds_iff (sort : List Function → List Function) (file : List UInt8)
    (small : file.length < 2 ^ 64) : InBounds sort file ↔ DetailsInside file := by
  constructor
  · intro bounds all mine info abbrevs s mem
    apply lies_of_denotes
    apply bounds.views all mine
    rw [handed, List.mem_append]
    right
    rw [if_pos (by rw [Bool.and_eq_true, present_iff, present_iff]; exact ⟨info, abbrevs⟩)]
    exact List.mem_cons_of_mem _ (List.mem_cons_of_mem _ (List.mem_map_of_mem mem))
  · intro inside
    exact ⟨fun all mine view mem => handed_denotes inside mine mem, construct_harmless small inside,
      fun m made linkAddress fuel => sourceAt_harmless small inside made linkAddress fuel⟩

end Modules

/-! ## An object with one unit -/

def sectionHeaderBytes (name type offset size : Nat) : List UInt8 :=
  toBytes 4 name ++ toBytes 4 type ++ toBytes 16 0 ++ toBytes 8 offset ++ toBytes 8 size ++
    toBytes 24 0

/-- An object with `.debug_info`, `.debug_abbrev` and `.debug_line` for one unit of version 4,
whose `.debug_line` is said to be at an offset. -/
def oneUnit (lineOffset : Nat) : List UInt8 :=
  toBytes 4 elfMagic ++ [2, 1] ++ toBytes 10 0 ++ toBytes 24 2 ++ toBytes 8 64 ++ toBytes 10 0 ++
    toBytes 2 64 ++ toBytes 2 4 ++ toBytes 2 0 ++
  sectionHeaderBytes 0 shtStrtab 320 39 ++ sectionHeaderBytes 1 1 359 16 ++
    sectionHeaderBytes 13 1 375 8 ++ sectionHeaderBytes 27 1 lineOffset 4 ++
  [0] ++ SectionName.info ++ [0] ++
    SectionName.abbrevs ++ [0] ++
    SectionName.line ++ [0] ++
  toBytes 4 12 ++ [4, 0] ++ toBytes 4 0 ++ [8] ++ [1] ++ toBytes 4 0 ++
  [1, 0x11, 0, 0x10, 0x06, 0, 0, 0] ++ toBytes 4 0

/-- With its line programs in the file the object is read inside of it. -/
theorem inBounds_iff_oneUnit : (oneUnit 383).length < 2 ^ 64 ∧ InBounds id (oneUnit 383) :=
  ⟨by decide +kernel, (inBounds_iff id (oneUnit 383) (by decide +kernel)).mpr (by decide +kernel)⟩

/-- With its line programs outside of the file the constructor reads through `nullptr`, with the
size that the header of the section claims. -/
theorem not_inBounds_oneUnit : ⟨none, 4⟩ ∈
    ((sectionsOf (oneUnit (2 ^ 32))).map (handed (oneUnit (2 ^ 32)))).getD [] ∧
    construct id (oneUnit (2 ^ 32)) = .error .fault ∧ ¬ InBounds id (oneUnit (2 ^ 32)) := by
  have fault : construct id (oneUnit (2 ^ 32)) = .error .fault := by decide +kernel
  refine ⟨by decide +kernel, fault, fun bounds => ?_⟩
  exact bounds.constructs fault

end Fpag.Debug
