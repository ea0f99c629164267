import Fpag.Debug.LineMatrix
import Fpag.Debug.Module

/-!
The two readings of a line program header.

`read_unit` reads the header of the line program of a unit for its file table, with the widths
that the unit declares; `line_position` reads it again for the rows, with the widths of
`detail_tables`. `lineReading_iff` says when the second reading gives the header of the first.
-/

namespace Fpag.Debug

open Cursor Reader

/-! ## What a reading depends on -/

/-- The tables give the same values to all forms. -/
structure Tables.Alike (tables other : Tables) : Prop where
  debugStr : tables.debugStr = other.debugStr
  debugLineStr : tables.debugLineStr = other.debugLineStr
  addressSize : tables.addressSize = other.addressSize
  offsetSize : tables.offsetSize = other.offsetSize

section Alike

variable {tables other : Tables}

theorem withText_congr (alike : tables.Alike other) : withText tables = withText other := by
  funext form value
  rw [withText, withText, alike.debugStr, alike.debugLineStr]

theorem readFormLoop_congr (alike : tables.Alike other) (declaration : AbbreviationAttribute)
    (fuel form : Nat) :
    readFormLoop tables declaration fuel form = readFormLoop other declaration fuel form := by
  induction fuel generalizing form with
  | zero => rfl
  | succ fuel ih =>
      simp only [readFormLoop, ih, withText_congr alike, alike.addressSize, alike.offsetSize]

theorem readEntry_congr (alike : tables.Alike other) (format : List (Nat × Nat))
    (entry : FileEntry) :
    readEntry tables format entry = readEntry other format entry := by
  induction format generalizing entry with
  | nil => rfl
  | cons pair format ih => simp only [readEntry, readForm, readFormLoop_congr alike, ih]

theorem readEntries_congr (alike : tables.Alike other) :
    readEntries tables = readEntries other := by
  simp only [readEntries, readEntry_congr alike]

/-- The files may differ in the working directory, but both tables are read or neither. -/
theorem readFileTable_congr (alike : tables.Alike other) {version : Nat} {c c' : Cursor}
    {files : List (List UInt8)} (read : (readFileTable version tables).run c = .ok (files, c')) :
    ∃ files', (readFileTable version other).run c = .ok (files', c') := by
  unfold readFileTable at read ⊢
  split at read
  · obtain ⟨directories, c₁, h₁, read⟩ := run_bind_ok read
    obtain ⟨entries, c₂, h₂, read⟩ := run_bind_ok read
    cases read
    rw [if_pos ‹_›, readTables, ← readEntries_congr alike, run_bind_eq h₁, run_bind_eq h₂]
    exact ⟨_, rfl⟩
  · obtain ⟨fuel, c₁, h₁, read⟩ := run_bind_ok read
    obtain ⟨directories, c₂, h₂, read⟩ := run_bind_ok read
    obtain ⟨fuel', c₃, h₃, read⟩ := run_bind_ok read
    obtain ⟨entries, c₄, h₄, read⟩ := run_bind_ok read
    cases read
    rw [if_neg ‹_›, readLegacyTables, run_bind_eq h₁, run_bind_eq h₂, run_bind_eq h₃,
      run_bind_eq h₄]
    exact ⟨_, rfl⟩

theorem readLineFields_congr (alike : tables.Alike other) {version program stop : Nat}
    {c c' : Cursor} {header : LineHeader} {files : List (List UInt8)}
    (read : (readLineFields tables version program stop).run c = .ok ((header, files), c')) :
    ∃ files', (readLineFields other version program stop).run c = .ok ((header, files'), c') := by
  obtain ⟨length, c₁, h₁, read⟩ := run_bind_ok read
  obtain ⟨operations, c₂, h₂, read⟩ := run_bind_ok read
  obtain ⟨isStmt, c₃, h₃, read⟩ := run_bind_ok read
  obtain ⟨lineBase, c₄, h₄, read⟩ := run_bind_ok read
  obtain ⟨lineRange, c₅, h₅, read⟩ := run_bind_ok read
  obtain ⟨opcodeBase, c₆, h₆, read⟩ := run_bind_ok read
  obtain ⟨accepted, read⟩ := run_require_ok read
  obtain ⟨lengths, c₇, h₇, read⟩ := run_bind_ok read
  obtain ⟨files₀, c₈, h₈, read⟩ := run_bind_ok read
  obtain ⟨files', h₈'⟩ := readFileTable_congr alike h₈
  cases read
  rw [readLineFields, run_bind_eq h₁, run_bind_eq h₂, run_bind_eq h₃, run_bind_eq h₄,
    run_bind_eq h₅, run_bind_eq h₆, run_require_bind accepted, run_bind_eq h₇, run_bind_eq h₈',
    alike.addressSize]
  exact ⟨files', rfl⟩

end Alike

/-! ## Fields of the input -/

/-- The number in the next `n` bytes. -/
def Cursor.number (c : Cursor) (n : Nat) : Nat :=
  ofBytes (((c.data.getD []).drop c.position).take n)

/-- The unit at the cursor is in the 64-bit format. -/
def Cursor.Wide (c : Cursor) : Prop := c.number 4 = dwarf64UnitLength

instance (c : Cursor) : Decidable c.Wide := inferInstanceAs (Decidable (_ = _))

/-- How long the length of the unit at the cursor is. -/
def Cursor.lengthSize (c : Cursor) : Nat := if c.Wide then 12 else 4

/-- The version of the unit at the cursor. -/
def Cursor.version (c : Cursor) : Nat := (c.advance c.lengthSize).number 2

section Fields

variable {c c' : Cursor} {tables other : Tables} {header : LineHeader} {files : List (List UInt8)}

/-- A number that is read is in the bytes at the cursor, and they are all there. -/
theorem fixed_ok {n value : Nat} (read : (fixed n).run c = .ok (value, c')) :
    value = c.number n ∧ c' = c.advance n ∧ n ≤ ((c.data.getD []).drop c.position).length := by
  rw [fixed_run] at read
  split at read
  · cases read
  · unfold load at read
    cases data : c.data with
    | none =>
        rw [data] at read
        cases read
    | some bytes =>
        simp only [data] at read
        split at read
        · next length =>
            cases read
            rw [Cursor.number, data]
            refine ⟨rfl, rfl, ?_⟩
            rw [List.length_take] at length
            simp only [Option.getD_some]
            omega
        · cases read

/-- The numbers in four and in eight bytes differ by a multiple of `2 ^ 32`. -/
theorem number_eight (full : 8 ≤ ((c.data.getD []).drop c.position).length) :
    c.number 8 = c.number 4 + 2 ^ 32 * (c.advance 4).number 4 := by
  have split : ((c.data.getD []).drop c.position).take 8 =
      ((c.data.getD []).drop c.position).take 4 ++
        ((c.data.getD []).drop (c.position + 4)).take 4 := by
    rw [← List.drop_drop, ← List.take_add]
  have four : (((c.data.getD []).drop c.position).take 4).length = 4 := by
    rw [List.length_take]
    omega
  rw [Cursor.number, split, ofBytes_append, four]
  rfl

/-- The length of a unit, which takes nothing of the tables but the width of an offset. -/
theorem readUnitLength_ok {offsetSize : Nat} {length : Nat × Nat}
    (read : (readUnitLength offsetSize).run c = .ok (length, c')) :
    length.2 = (if c.Wide then 8 else offsetSize) ∧ c' = c.advance c.lengthSize ∧
      ∀ other, (readUnitLength other).run c =
        .ok ((length.1, if c.Wide then 8 else other), c') := by
  obtain ⟨unitLength, c₁, h₁, read⟩ := run_bind_ok read
  obtain ⟨length', c₂, h₂, read⟩ := run_bind_ok read
  have checked := run_get_ok read
  obtain ⟨room, checked⟩ := run_require_ok checked
  cases checked
  obtain ⟨value, rfl, -⟩ := fixed_ok h₁
  have tail (p : Nat × Nat) (same : p.1 = length.1) : (do
      let c ← get
      Reader.require (p.1 ≤ subtract c.size c.position)
      pure p : Reader Cursor (Nat × Nat)).run c' = .ok (p, c') := by
    rw [← same] at room
    have got : (get : Reader Cursor Cursor).run c' = .ok (c', c') := rfl
    rw [run_bind_eq got, run_require_bind room]
    rfl
  unfold readWideLength at h₂
  split at h₂
  · next wide =>
      have wide' : c.Wide := value.symm.trans wide
      obtain ⟨long, c₃, h₃, h₂⟩ := run_bind_ok h₂
      cases h₂
      obtain ⟨-, rfl, -⟩ := fixed_ok h₃
      refine ⟨by rw [if_pos wide'], by rw [lengthSize, if_pos wide']; rfl, fun other => ?_⟩
      rw [readUnitLength, run_bind_eq h₁, readWideLength, if_pos wide, if_pos wide']
      have second : (do
          let unitLength ← fixed 8
          pure (unitLength, 8) : Reader Cursor (Nat × Nat)).run (c.advance 4) =
            .ok ((long, 8), (c.advance 4).advance 8) := by
        rw [run_bind_eq h₃]
        rfl
      rw [run_bind_eq second]
      exact tail (long, 8) rfl
  · next narrow =>
      have narrow' : ¬ c.Wide := fun wide => narrow (value.trans wide)
      obtain ⟨small, h₂⟩ := run_require_ok h₂
      cases h₂
      refine ⟨by rw [if_neg narrow'], by rw [lengthSize, if_neg narrow'], fun other => ?_⟩
      rw [readUnitLength, run_bind_eq h₁, readWideLength, if_neg narrow, if_neg narrow']
      have second : (do
          Reader.require (unitLength < reservedUnitLength)
          pure (unitLength, other) : Reader Cursor (Nat × Nat)).run (c.advance 4) =
            .ok ((unitLength, other), c.advance 4) := by
        rw [run_require_bind small]
        rfl
      rw [run_bind_eq second]
      exact tail (unitLength, other) rfl

/-- The width of an address is the header's own from version 5 on. -/
theorem readAddressSize_ok {version addressSize value : Nat}
    (read : (readAddressSize version addressSize).run c = .ok (value, c')) :
    (version < 5 → value = addressSize) ∧ ∀ other,
      (readAddressSize version other).run c = .ok (if 5 ≤ version then value else other, c') := by
  unfold readAddressSize at read
  split at read
  · next new =>
      refine ⟨fun old => by omega, fun other => ?_⟩
      rw [readAddressSize, if_pos new, if_pos new, read]
  · next old =>
      cases read
      refine ⟨fun _ => rfl, fun other => ?_⟩
      rw [readAddressSize, if_neg old, if_neg old]
      rfl

theorem readLineFields_gives (version program stop : Nat) :
    (readLineFields tables version program stop).Gives fun decoded =>
      decoded.1.addressSize = tables.addressSize ∧ decoded.1.program = program :=
  .bind fun _ => .bind fun _ => .bind fun _ => .bind fun _ => .bind fun _ => .bind fun _ =>
    .bind fun _ => .bind fun _ => .bind fun _ => .pure ⟨rfl, rfl⟩

/-- The second reading gives the header of the first exactly if it takes offsets and, where the
header does not say it, addresses to be as wide. -/
theorem readLineHeader_same (str : tables.debugStr = other.debugStr)
    (lineStr : tables.debugLineStr = other.debugLineStr)
    (width : tables.offsetSize = 4 ∨ tables.offsetSize = 8) (four : other.offsetSize = 4)
    (first : (readLineHeader tables).run c = .ok ((header, files), c')) :
    (∃ files' c₂, (readLineHeader other).run c = .ok ((header, files'), c₂)) ↔
      (5 ≤ c.version ∨ tables.addressSize = other.addressSize) ∧
        (c.Wide ∨ tables.offsetSize = 4) := by
  obtain ⟨length, c₁, h₁, first⟩ := run_bind_ok first
  obtain ⟨length₂, rfl, again⟩ := readUnitLength_ok h₁
  have first := run_get_ok first
  obtain ⟨version, c₂, h₂, first⟩ := run_bind_ok first
  obtain ⟨known, first⟩ := run_require_ok first
  obtain ⟨value, rfl, -⟩ := fixed_ok h₂
  change version = c.version at value
  subst value
  obtain ⟨addressSize, c₃, h₃, first⟩ := run_bind_ok first
  obtain ⟨declared, addresses⟩ := readAddressSize_ok h₃
  obtain ⟨headerLength, c₄, h₄, first⟩ := run_bind_ok first
  obtain ⟨read₄, rfl, full⟩ := fixed_ok h₄
  have first := run_get_ok first
  obtain ⟨fits, first⟩ := run_require_ok first
  obtain ⟨mine, program⟩ := readLineFields_gives _ _ _ _ _ _ first
  constructor
  · rintro ⟨files', c₂, second⟩
    rw [readLineHeader, run_bind_eq (again _)] at second
    have second := run_get_ok second
    rw [run_bind_eq h₂, run_require_bind known, run_bind_eq (addresses _)] at second
    obtain ⟨headerLength', c₄', h₄', second⟩ := run_bind_ok second
    obtain ⟨read₄', rfl, -⟩ := fixed_ok h₄'
    have second := run_get_ok second
    obtain ⟨-, second⟩ := run_require_ok second
    obtain ⟨other', program'⟩ := readLineFields_gives _ _ _ _ _ _ second
    refine ⟨?_, ?_⟩
    · by_contra differ
      rw [not_or, Nat.not_le] at differ
      rw [mine, if_neg (by omega)] at other'
      exact differ.2 ((declared differ.1).symm.trans other')
    · -- The two lengths of the header are congruent modulo `2 ^ 32`, the programs that follow
      -- from them are four bytes apart.
      by_contra narrow
      rw [not_or] at narrow
      have eight : tables.offsetSize = 8 := by omega
      rw [length₂, if_neg narrow.1, eight] at program read₄ full
      rw [if_neg narrow.1, four] at program' read₄'
      have lengths := number_eight full
      have programs := program.symm.trans program'
      change headerLength' = c₃.number 4 at read₄'
      simp only [Cursor.advance, u64] at programs
      omega
  · rintro ⟨addressed, offset⟩
    have same : (if c.Wide then 8 else other.offsetSize) = length.2 := by
      rw [length₂]
      rcases offset with wide | narrow
      · rw [if_pos wide, if_pos wide]
      · rw [four, narrow]
    have sized : (if 5 ≤ c.version then addressSize else other.addressSize) = addressSize := by
      split
      · rfl
      · next old =>
          rcases addressed with new | addressed
          · exact absurd new old
          · rw [← addressed, declared (by omega)]
    have alike : Tables.Alike { tables with addressSize := addressSize, offsetSize := length.2 }
        { other with addressSize := addressSize, offsetSize := length.2 } :=
      ⟨str, lineStr, rfl, rfl⟩
    obtain ⟨files', second⟩ := readLineFields_congr alike first
    refine ⟨files', c', ?_⟩
    have got (c : Cursor) : (get : Reader Cursor Cursor).run c = .ok (c, c) := rfl
    rw [readLineHeader, run_bind_eq (again _), same, run_bind_eq (got _), run_bind_eq h₂,
      run_require_bind known, run_bind_eq (addresses _), sized, run_bind_eq h₄, run_bind_eq (got _),
      run_require_bind fits]
    exact second

end Fields

/-! ## The reading of `read_unit` -/

/-- The steps that fill in a unit leave the width of its addresses and its files alone. -/
def Fills (unit filled : CompilationUnit) : Prop :=
  filled.addressSize = unit.addressSize ∧ filled.files = unit.files

section Units

variable {tables : Tables} {version : Nat} {found : List Found} {unit filled : CompilationUnit}

theorem resolveLow_fills {goes : Bool} (h : resolveLow tables found unit = .ok (goes, filled)) :
    Fills unit filled := by
  unfold resolveLow at h
  split at h
  · cases h
    exact ⟨rfl, rfl⟩
  · split at h
    · obtain ⟨address, -, h⟩ := bind_eq_ok h
      cases h
      exact ⟨rfl, rfl⟩
    · cases h
      exact ⟨rfl, rfl⟩

theorem resolveHigh_fills {goes : Bool} (h : resolveHigh tables found unit = .ok (goes, filled)) :
    Fills unit filled := by
  unfold resolveHigh at h
  split at h
  · cases h
    exact ⟨rfl, rfl⟩
  · split at h
    · obtain ⟨address, -, h⟩ := bind_eq_ok h
      cases h
      exact ⟨rfl, rfl⟩
    · cases h
      exact ⟨rfl, rfl⟩

theorem resolveRanges_fills (h : resolveRanges tables version found unit = .ok filled) :
    Fills unit filled := by
  unfold resolveRanges at h
  split at h
  · cases h
    exact ⟨rfl, rfl⟩
  · split at h
    · obtain ⟨offset, -, h⟩ := bind_eq_ok h
      cases h
      exact ⟨rfl, rfl⟩
    · cases h
      exact ⟨rfl, rfl⟩

/-- The line program header of a unit, with the tables that one of its callers hands over. -/
def lineReading (tables : Tables) (unit : CompilationUnit) :
    Except Stop ((LineHeader × List (List UInt8)) × Cursor) :=
  (do
    seek unit.lineProgram
    readLineHeader tables : Reader Cursor (LineHeader × List (List UInt8))).run
      tables.debugLine.cursor

/-- The tables that `read_unit` hands over for a unit at a cursor: those that it was given, with
the widths that the unit declares and with bases and a working directory. -/
structure UnitTables (tables : Tables) (c : Cursor) (unit : CompilationUnit) (own : Tables) :
    Prop where
  debugStr : own.debugStr = tables.debugStr
  debugLineStr : own.debugLineStr = tables.debugLineStr
  debugLine : own.debugLine = tables.debugLine
  addressSize : own.addressSize = unit.addressSize
  offsetSize : own.offsetSize = if c.Wide then 8 else tables.offsetSize

/-- `read_unit` has read the header of the line program with the tables. -/
def ReadWith (version : Nat) (unit : CompilationUnit) (own : Tables) (header : LineHeader) : Prop :=
  ∃ files c name, lineReading own unit = .ok ((header, files), c) ∧
    unit.files = nameFirst version name files

theorem resolveLines_named (h : resolveLines tables version found unit = .ok filled)
    (without : unit.files = []) (named : filled.files ≠ []) :
    filled.addressSize = unit.addressSize ∧ ∃ own header, own.Alike tables ∧
      own.debugLine = tables.debugLine ∧ ReadWith version filled own header := by
  unfold resolveLines at h
  split at h
  · cases h
    exact absurd without named
  · split at h
    · cases h
      exact absurd without named
    · obtain ⟨name, -, h⟩ := bind_eq_ok h
      obtain ⟨directory, -, h⟩ := bind_eq_ok h
      obtain ⟨decoded, read, h⟩ := bind_eq_ok h
      cases h
      cases decoded with
      | none => exact absurd rfl named
      | some decoded =>
          obtain ⟨c, run⟩ := attempt_some read
          exact ⟨rfl, { tables with workingDirectory := directory.getD tables.workingDirectory },
            decoded.1, ⟨rfl, rfl, rfl, rfl⟩, rfl, decoded.2, c, name.getD [], run, rfl⟩

theorem resolveUnit_named (h : resolveUnit tables version found = .ok unit)
    (named : unit.files ≠ []) : unit.addressSize = tables.addressSize ∧ ∃ own header,
      own.Alike tables ∧ own.debugLine = tables.debugLine ∧ ReadWith version unit own header := by
  obtain ⟨⟨goes, low⟩, h₁, h⟩ := bind_eq_ok h
  obtain ⟨size₁, files₁⟩ := resolveLow_fills h₁
  cases goes with
  | false =>
      cases h
      exact absurd files₁ named
  | true =>
      obtain ⟨⟨goes, high⟩, h₂, h⟩ := bind_eq_ok h
      obtain ⟨size₂, files₂⟩ := resolveHigh_fills h₂
      cases goes with
      | false =>
          cases h
          exact absurd (files₂.trans files₁) named
      | true =>
          obtain ⟨ranged, h₃, h⟩ := bind_eq_ok h
          obtain ⟨size₃, files₃⟩ := resolveRanges_fills h₃
          obtain ⟨size, own, header, alike, line, read⟩ := resolveLines_named h
            (files₃.trans (files₂.trans files₁)) named
          exact ⟨size.trans (size₃.trans (size₂.trans size₁)), own, header,
            ⟨alike.debugStr, alike.debugLineStr, alike.addressSize, alike.offsetSize⟩, line, read⟩

variable {abbrevs : SectionView} {c c' : Cursor} {next : Nat}

theorem readRoot_named {abbrevOffset : Nat}
    (h : (readRoot abbrevs tables version abbrevOffset).run c = .ok (unit, c'))
    (named : unit.files ≠ []) : unit.addressSize = tables.addressSize ∧ ∃ own header,
      own.Alike tables ∧ own.debugLine = tables.debugLine ∧ ReadWith version unit own header := by
  obtain rfl | ⟨code, c₁, -, h⟩ := run_orElse_ok h
  · exact absurd rfl named
  · obtain ⟨declaration, c₂, -, h⟩ := run_bind_ok h
    cases declaration with
    | none =>
        cases h
        exact absurd rfl named
    | some declaration =>
        simp only at h
        split at h
        · cases h
          exact absurd rfl named
        · obtain ⟨found, c₃, -, h⟩ := run_bind_ok h
          obtain ⟨resolved, -⟩ := run_ofExcept_ok h
          exact resolveUnit_named resolved named

theorem readUnitBody_named (h : (readUnitBody abbrevs tables version).run c = .ok (unit, c'))
    (named : unit.files ≠ []) : ∃ own header, own.debugStr = tables.debugStr ∧
      own.debugLineStr = tables.debugLineStr ∧ own.debugLine = tables.debugLine ∧
        own.addressSize = unit.addressSize ∧ own.offsetSize = tables.offsetSize ∧
          ReadWith version unit own header := by
  have root {addressSize abbrevOffset : Nat} {c c' : Cursor}
      (h : (readRoot abbrevs { tables with addressSize := addressSize } version abbrevOffset).run c
        = .ok (unit, c')) : ∃ own header, own.debugStr = tables.debugStr ∧
      own.debugLineStr = tables.debugLineStr ∧ own.debugLine = tables.debugLine ∧
        own.addressSize = unit.addressSize ∧ own.offsetSize = tables.offsetSize ∧
          ReadWith version unit own header := by
    obtain ⟨size, own, header, alike, line, read⟩ := readRoot_named h named
    exact ⟨own, header, alike.debugStr, alike.debugLineStr, line, alike.addressSize.trans size.symm,
      alike.offsetSize, read⟩
  unfold readUnitBody at h
  split at h
  · obtain rfl | ⟨unitType, c₁, -, h⟩ := run_orElse_ok h
    · exact absurd rfl named
    obtain rfl | ⟨addressSize, c₂, -, h⟩ := run_orElse_ok h
    · exact absurd rfl named
    split at h
    · cases h
      exact absurd rfl named
    · obtain rfl | ⟨abbrevOffset, c₃, -, h⟩ := run_orElse_ok h
      · exact absurd rfl named
      · exact root h
  · obtain rfl | ⟨abbrevOffset, c₁, -, h⟩ := run_orElse_ok h
    · exact absurd rfl named
    obtain rfl | ⟨addressSize, c₂, -, h⟩ := run_orElse_ok h
    · exact absurd rfl named
    exact root h

/-- A unit with a file table is one whose line program header was read with its own tables. -/
theorem readUnit_named (h : (readUnit abbrevs tables).run c = .ok ((unit, next), c'))
    (named : unit.files ≠ []) :
    ∃ own header version, UnitTables tables c unit own ∧ ReadWith version unit own header := by
  obtain ⟨length, c₁, h₁, h⟩ := run_bind_ok h
  obtain ⟨width, -, -⟩ := readUnitLength_ok h₁
  have h := run_get_ok h
  obtain ⟨unit', c₂, h₂, h⟩ := run_bind_ok h
  cases h
  obtain rfl | ⟨version, c₃, -, h₃⟩ := run_orElse_ok h₂
  · exact absurd rfl named
  · obtain ⟨own, header, str, lineStr, line, address, offset, read⟩ := readUnitBody_named h₃ named
    refine ⟨own, header, version, ⟨str, lineStr, line, address, offset.trans width⟩, read⟩

/-- The line program of a unit. -/
def lineCursorOf (tables : Tables) (unit : CompilationUnit) : Cursor :=
  { tables.debugLine.cursor with position := unit.lineProgram }

/-- `line_position` reads the header that `read_unit` has read exactly if the header says itself
how wide an address is or the unit declares eight bytes, and an offset is as wide in the line
program as in the unit. -/
theorem lineReading_iff (address : tables.addressSize = 8) (offset : tables.offsetSize = 4)
    (accepted : (readUnit abbrevs tables).run c = .ok ((unit, next), c'))
    (named : unit.files ≠ []) :
    ∃ own header version, UnitTables tables c unit own ∧ ReadWith version unit own header ∧
      ((∃ files c₂, lineReading tables unit = .ok ((header, files), c₂)) ↔
        (5 ≤ (lineCursorOf tables unit).version ∨ unit.addressSize = 8) ∧
          ((lineCursorOf tables unit).Wide ∨ ¬ c.Wide)) := by
  obtain ⟨own, header, version, same, read⟩ := readUnit_named accepted named
  refine ⟨own, header, version, same, read, ?_⟩
  obtain ⟨files, c₁, name, first, -⟩ := read
  rw [lineReading, same.debugLine] at first
  obtain ⟨done, c₂, sought, first⟩ := run_bind_ok first
  rw [seek_run] at sought
  split at sought
  · next inside =>
      cases sought
      have second : lineReading tables unit =
          (readLineHeader tables).run (lineCursorOf tables unit) := by
        rw [lineReading, run_bind_eq (by rw [seek_run, if_pos inside])]
        rfl
      have width : own.offsetSize = 4 ∨ own.offsetSize = 8 := by
        rw [same.offsetSize, offset]
        split
        · exact .inr rfl
        · exact .inl rfl
      have narrow : own.offsetSize = 4 ↔ ¬ c.Wide := by
        rw [same.offsetSize, offset]
        by_cases wide : c.Wide <;> simp [wide]
      have first : (readLineHeader own).run (lineCursorOf tables unit) =
        .ok ((header, files), c₁) :=
        first
      rw [second, readLineHeader_same same.debugStr same.debugLineStr width offset first,
        same.addressSize, address, narrow]
  · cases sought

end Units

/-! ## A unit of version 4 -/

/-- A unit of version 4 with `DW_AT_stmt_list` and nothing else. -/
def unitBytes (addressSize : UInt8) : List UInt8 :=
  toBytes 4 12 ++ [4, 0] ++ toBytes 4 0 ++ [addressSize] ++ [1] ++ toBytes 4 0

/-- The abbreviation of the unit. -/
def unitAbbrevs : SectionView := ⟨some [1, 0x11, 0, 0x10, 0x06, 0, 0, 0], 8⟩

/-- What is read of the unit. -/
def unitOf (addressSize : UInt8) : CompilationUnit where
  addressSize := addressSize.toNat
  hasLineProgram := true
  files := [[], [97]]

/-- The line program of the unit, of version 4 as well. -/
def unitLines : Tables := lineTables (lineHeaderBytes [])

def unitCursor (addressSize : UInt8) : Cursor :=
  ⟨some (unitBytes addressSize), (unitBytes addressSize).length, 0⟩

/-- With eight bytes for an address both readings agree. -/
theorem lineReading_iff_eight : (unitOf 8).files ≠ [] ∧
    ∃ own header version, UnitTables unitLines (unitCursor 8) (unitOf 8) own ∧
      ReadWith version (unitOf 8) own header ∧
        ∃ files c₂, lineReading unitLines (unitOf 8) = .ok ((header, files), c₂) := by
  have accepted : (readUnit unitAbbrevs unitLines).run (unitCursor 8) =
      .ok ((unitOf 8, 16), { unitCursor 8 with position := 16 }) := by decide +kernel
  have named : (unitOf 8).files ≠ [] := by decide
  obtain ⟨own, header, version, tables, read, both⟩ := lineReading_iff rfl rfl accepted named
  exact ⟨named, own, header, version, tables, read, both.mpr (by decide +kernel)⟩

/-- With four bytes for an address the first reading gives four and the second eight. -/
theorem lineReading_four :
    (readUnit unitAbbrevs unitLines).run (unitCursor 4) =
      .ok ((unitOf 4, 16), { unitCursor 4 with position := 16 }) ∧
    UnitTables unitLines (unitCursor 4) (unitOf 4) { unitLines with addressSize := 4 } ∧
    ReadWith 4 (unitOf 4) { unitLines with addressSize := 4 }
      { lineHeader (lineHeaderBytes []) with addressSize := 4 } ∧
    ¬ ∃ files c₂, lineReading unitLines (unitOf 4) =
      .ok (({ lineHeader (lineHeaderBytes []) with addressSize := 4 }, files), c₂) := by
  have second : lineReading unitLines (unitOf 4) =
      .ok ((lineHeader (lineHeaderBytes []), [[], [97]]), lineCursor (lineHeaderBytes [])) := by
    decide +kernel
  refine ⟨by decide +kernel, ⟨rfl, rfl, rfl, rfl, by decide +kernel⟩,
    ⟨[[], [97]], lineCursor (lineHeaderBytes []), [], by decide +kernel, rfl⟩, ?_⟩
  rintro ⟨files, c₂, same⟩
  rw [second] at same
  exact absurd same (by simp [lineHeader])

end Fpag.Debug
