import Fpag.Debug.Abbreviations
import Fpag.Debug.HeaderTables
import Fpag.Debug.UnitFraming

/-!
`DW_FORM_indirect` in the root entry of a unit.

An abbreviation may leave it to the entry to say which form a value has. `read_form` follows the
indirection, but the attribute loop of `read_unit` keeps the form that the abbreviation declares,
and two decisions are made by it: whether the high address is an offset, and whether the ranges
are an index. `transparent_iff` says of every unit and every subset of its attributes when it makes
no difference that these are written with their forms in front.
-/

namespace Fpag.Debug

open Cursor Reader

/-! ## Entries -/

/-- An attribute of an entry: how the abbreviation declares it, the bytes of its value with what
`read_form` makes of them, if it does not refuse the form, and whether it is one of those that are
written with their form. -/
structure EntryAttribute : Type where
  attr : Nat
  form : Nat
  implicit : Int
  bytes : List UInt8
  value : Option FormValue
  chosen : Bool

namespace EntryAttribute

/-- How the abbreviation declares the attribute. -/
def declared (indirect : Bool) (a : EntryAttribute) : AbbreviationAttribute :=
  if indirect && a.chosen then ⟨a.attr, dwFormIndirect, 0⟩ else ⟨a.attr, a.form, a.implicit⟩

/-- The bytes are those of the attribute in the entry. -/
def Written (indirect : Bool) (a : EntryAttribute) (bytes : List UInt8) : Prop :=
  if indirect && a.chosen then ∃ form, Operand form a.form ∧ bytes = form ++ a.bytes
  else bytes = a.bytes

/-- The bytes of the attribute are a value of its form, or no value of any. -/
def Tells (tables : Tables) (a : EntryAttribute) : Prop :=
  match a.value with
  | some value => Reads (readForm tables (a.declared false) a.form) a.bytes value
  | none => Refuses (readForm tables (a.declared false) a.form) a.bytes

theorem form_direct (a : EntryAttribute) : (a.declared false).form = a.form := by
  rw [declared, Bool.false_and]
  rfl

theorem form_indirect (a : EntryAttribute) :
    (a.declared true).form = if a.chosen = true then dwFormIndirect else a.form := by
  rw [declared, Bool.true_and]
  split <;> rfl

/-- What `read_unit` keeps of the attribute. -/
def found (indirect : Bool) (a : EntryAttribute) : Found :=
  ⟨a.attr, (a.declared indirect).form, a.value.getD {}⟩

end EntryAttribute

/-- The attributes that are kept, up to one that is refused. -/
def keepAttributes : List EntryAttribute → List EntryAttribute → List EntryAttribute
  | kept, [] => kept
  | kept, a :: attributes =>
      if a.value.isNone then kept
      else if wanted a.attr && kept.length < maxTrackedAttributes then
        keepAttributes (kept ++ [a]) attributes
      else keepAttributes kept attributes

/-- A unit with its root entry, and the declarations around its own in the abbreviation table. -/
structure EntryUnit : Type where
  version : Nat
  wide : Bool
  addressSize : Nat
  code : Nat
  hasChildren : UInt8
  earlier : List Declaration
  later : List Declaration
  attributes : List EntryAttribute

namespace EntryUnit

variable (unit : EntryUnit)

def offsetSize : Nat := if unit.wide then 8 else 4

/-- The tables as `read_unit` has them for the attributes. -/
def own (tables : Tables) : Tables :=
  { tables with offsetSize := unit.offsetSize, addressSize := unit.addressSize }

def declaration (indirect : Bool) : Declaration :=
  ⟨unit.code, unit.hasChildren,
    ⟨dwTagCompileUnit, unit.attributes.map (EntryAttribute.declared indirect)⟩⟩

def declarations (indirect : Bool) : List Declaration :=
  unit.earlier ++ unit.declaration indirect :: unit.later

/-- The codes in front of its own are others, a form is never left to the entry where the
abbreviation has the value, and the bytes of an attribute are a value of its form. -/
structure WellFormed (tables : Tables) : Prop where
  version : 2 ≤ unit.version ∧ unit.version ≤ 5
  address : unit.addressSize < 256
  others : ∀ other ∈ unit.earlier, other.code ≠ unit.code
  chosen : ∀ a ∈ unit.attributes, a.chosen = true → a.form ≠ dwFormImplicitConst
  tells : ∀ a ∈ unit.attributes, a.Tells (unit.own tables)

end EntryUnit

/-- A file with the unit: its sections, where they have the unit and its abbreviations, and the
bytes of these. -/
structure EntryFile : Type where
  abbrevs : SectionView
  info : Cursor
  abbrevOffset : Nat
  table : List UInt8
  code : List UInt8
  values : List UInt8
  behind : List UInt8

namespace EntryFile

/-- What stands between the version and the root entry. -/
def head (file : EntryFile) (unit : EntryUnit) : List UInt8 :=
  if 5 ≤ unit.version then toBytes 1 dwUtCompile ++ (toBytes 1 unit.addressSize ++
    toBytes unit.offsetSize file.abbrevOffset)
  else toBytes unit.offsetSize file.abbrevOffset ++ toBytes 1 unit.addressSize

/-- The unit behind its length. -/
def body (file : EntryFile) (unit : EntryUnit) : List UInt8 :=
  toBytes 2 unit.version ++ (file.head unit ++ (file.code ++ (file.values ++ file.behind)))

/-- The file holds the unit, with the chosen attributes written indirectly or not. -/
structure Holds (file : EntryFile) (unit : EntryUnit) (indirect : Bool) : Prop where
  table : EncodedTable (unit.declarations indirect) file.table
  abbrevs : file.abbrevs.Has file.abbrevOffset file.table
  offset : file.abbrevOffset < 256 ^ unit.offsetSize
  code : Operand file.code unit.code
  values : InTurn (EntryAttribute.Written indirect) unit.attributes file.values
  length : (file.body unit).length < if unit.wide then 2 ^ 64 else reservedUnitLength
  info : ∃ rest, file.info.Over (frameBytes unit.wide (file.body unit).length ++
    (file.body unit ++ rest))

/-- The unit that `read_unit` gives. -/
def unitOf (file : EntryFile) (tables : Tables) : Except Stop CompilationUnit :=
  ((readUnit file.abbrevs tables).run file.info).map (·.1.1)

end EntryFile

/-! ## The value behind its form -/

section Forms

variable {tables : Tables} {declaration declaration' : AbbreviationAttribute}
    {form fuel fuel' : Nat}
  {c : Cursor} {bytes rest : List UInt8}

/-- The abbreviation matters to `read_form` only by the value that it may have itself. -/
theorem readFormLoop_declaration (same : declaration.implicit = declaration'.implicit) :
    readFormLoop tables declaration fuel form = readFormLoop tables declaration' fuel form := by
  induction fuel generalizing form with
  | zero => rfl
  | succ fuel ih =>
      rw [readFormLoop, readFormLoop, same]
      simp only [ih]

/-- More turns change nothing about a value that is read. -/
theorem readFormLoop_more (more : fuel ≤ fuel')
    (ends : (readFormLoop tables declaration fuel form).run c ≠ .error .running) :
    (readFormLoop tables declaration fuel' form).run c =
      (readFormLoop tables declaration fuel form).run c := by
  induction fuel generalizing fuel' form c with
  | zero => exact absurd rfl ends
  | succ fuel ih =>
      obtain ⟨fuel', rfl⟩ := Nat.exists_eq_succ_of_ne_zero (by omega : fuel' ≠ 0)
      by_cases indirect : form = dwFormIndirect
      · rw [readFormLoop, if_pos indirect] at ends
        rw [readFormLoop, readFormLoop, if_pos indirect, if_pos indirect]
        cases read : uleb.run c with
        | error stop => rw [run_bind_error read, run_bind_error read]
        | ok pair =>
            rw [run_bind_eq read] at ends ⊢
            rw [run_bind_eq read]
            exact ih (by omega) ends
      · rw [readFormLoop, readFormLoop, if_neg indirect, if_neg indirect]

/-- A form in front of the value leads to what is read behind it. -/
theorem readForm_indirect {operand : List UInt8} (leads : Operand operand form)
    (same : declaration.implicit = declaration'.implicit) (ahead : c.Over (operand ++ bytes))
    (ends : (readForm tables declaration form).run (c.advance operand.length) ≠ .error .running) :
    (readForm tables declaration' dwFormIndirect).run c =
      (readForm tables declaration form).run (c.advance operand.length) := by
  have pos := leads.is.pos
  have inside := ahead.position_add
  rw [List.length_append] at inside
  rw [readForm_run] at ends ⊢
  rw [readForm_run, readFormLoop, if_pos rfl, leads.reads.run_bind ahead,
    ← readFormLoop_declaration same]
  exact readFormLoop_more (by simp only [Cursor.advance]; omega) ends

end Forms

/-! ## The attribute loop -/

section Attributes

variable {tables : Tables} {indirect : Bool} {c : Cursor} {bytes rest : List UInt8}

/-- The value of an attribute is read as what it is, whichever way it is written. -/
theorem EntryAttribute.value_run {a : EntryAttribute} (tells : a.Tells tables)
    (chosen : a.chosen = true → a.implicit = 0) (written : a.Written indirect bytes)
    (ahead : c.Over (bytes ++ rest)) :
    (readForm tables (a.declared indirect) (a.declared indirect).form).run c =
      a.value.elim (.error .refused) fun value => .ok (value, c.advance bytes.length) := by
  have direct {c : Cursor} {rest : List UInt8} (ahead : c.Over (a.bytes ++ rest)) :
      (readForm tables (a.declared false) a.form).run c =
        a.value.elim (.error .refused) fun value => .ok (value, c.advance a.bytes.length) := by
    unfold EntryAttribute.Tells at tells
    cases told : a.value with
    | none =>
        rw [told] at tells
        exact tells c rest ahead
    | some value =>
        rw [told] at tells
        exact tells c rest ahead
  unfold EntryAttribute.Written at written
  by_cases leads : (indirect && a.chosen) = true
  · rw [if_pos leads] at written
    obtain ⟨operand, form, rfl⟩ := written
    rw [List.append_assoc] at ahead
    have same : (a.declared false).implicit = (a.declared indirect).implicit := by
      rw [EntryAttribute.declared, EntryAttribute.declared, if_pos leads]
      exact chosen (Bool.and_eq_true_iff.mp leads).2
    have read := direct ahead.advance
    have whole : (readForm tables (a.declared indirect) dwFormIndirect).run c =
        (readForm tables (a.declared false) a.form).run (c.advance operand.length) := by
      refine readForm_indirect form same ahead ?_
      rw [read]
      cases a.value <;> rintro ⟨⟩
    have outer : (a.declared indirect).form = dwFormIndirect := by
      rw [EntryAttribute.declared, if_pos leads]
    rw [outer, whole, read, List.length_append]
    simp only [advance_advance]
  · rw [if_neg leads] at written
    subst written
    have own : a.declared indirect = a.declared false := by
      rw [EntryAttribute.declared, EntryAttribute.declared, if_neg leads, Bool.false_and]
      rfl
    rw [own]
    exact direct ahead

/-- What is kept of the attributes is the same, but for the forms that it is kept with. -/
theorem readFound_run {attributes kept : List EntryAttribute}
    (tells : ∀ a ∈ attributes, a.Tells tables)
    (chosen : ∀ a ∈ attributes, a.chosen = true → a.implicit = 0)
    (written : InTurn (EntryAttribute.Written indirect) attributes bytes)
    (ahead : c.Over (bytes ++ rest)) :
    ∃ c', (readFound tables (attributes.map (EntryAttribute.declared indirect))
        (kept.map (EntryAttribute.found indirect))).run c =
      .ok ((keepAttributes kept attributes).map (EntryAttribute.found indirect), c') := by
  induction attributes generalizing kept bytes c with
  | nil => exact ⟨c, rfl⟩
  | cons a attributes ih =>
      obtain ⟨front, later, first, others, rfl⟩ := written
      rw [List.append_assoc] at ahead
      have read :=
        EntryAttribute.value_run (tells a List.mem_cons_self) (chosen a List.mem_cons_self)
        first ahead
      rw [List.map_cons, readFound, run_orElse, read, keepAttributes]
      cases told : a.value with
      | none => exact ⟨c, rfl⟩
      | some value =>
          have tracked :
              track (kept.map (EntryAttribute.found indirect)) (a.declared indirect) value =
              (if wanted a.attr && kept.length < maxTrackedAttributes then kept ++ [a]
                else kept).map (EntryAttribute.found indirect) := by
            have attr : (a.declared indirect).attr = a.attr := by
              unfold EntryAttribute.declared
              split <;> rfl
            rw [track, List.length_map, attr, apply_ite (List.map (EntryAttribute.found indirect)),
              List.map_append]
            simp only [List.map_cons, List.map_nil, EntryAttribute.found, told, Option.getD_some]
          simp only [Option.elim_some, Option.isNone_some, Bool.false_eq_true, if_false]
          rw [tracked, ← apply_ite (fun kept => keepAttributes kept attributes)]
          exact ih (fun b member => tells b (List.mem_cons_of_mem _ member))
            (fun b member => chosen b (List.mem_cons_of_mem _ member)) others ahead.advance

end Attributes

/-! ## The unit -/

namespace EntryUnit

variable (unit : EntryUnit)

/-- The abbreviation of the root entry is found. -/
def Declared : Prop :=
  (∀ other ∈ unit.earlier, other.Few) ∧ unit.attributes.length ≤ maxAttributesPerAbbreviation

instance : Decidable unit.Declared := inferInstanceAs (Decidable (_ ∧ _))

/-- The attributes that are kept. -/
def kept : List EntryAttribute := keepAttributes [] unit.attributes

/-- What the attributes say. -/
def resolved (tables : Tables) (indirect : Bool) : Except Stop CompilationUnit :=
  resolveUnit (unit.own tables) unit.version (unit.kept.map (EntryAttribute.found indirect))

/-- The unit that is read. -/
def outcome (tables : Tables) (indirect : Bool) : Except Stop CompilationUnit :=
  if unit.Declared then unit.resolved tables indirect else .ok { addressSize := unit.addressSize }

end EntryUnit

section Units

variable {tables : Tables} {unit : EntryUnit} {file : EntryFile} {indirect : Bool} {c : Cursor}
  {rest : List UInt8}

theorem EntryFile.Holds.encoded (holds : file.Holds unit indirect) :
    ∃ bytes, (unit.declaration indirect).Encoded bytes := by
  obtain ⟨front, last, listed, -, -⟩ := holds.table
  exact listed.exists_encoded (List.mem_append_right _ List.mem_cons_self)

/-- Where the abbreviation has no value of its own for an attribute, it is read as zero. -/
theorem EntryFile.Holds.implicit (direct : file.Holds unit false) {a : EntryAttribute}
    (member : a ∈ unit.attributes) (other : a.form ≠ dwFormImplicitConst) : a.implicit = 0 := by
  obtain ⟨bytes, -, k, t, l, e, -, -, listed, -⟩ := direct.encoded
  obtain ⟨bytes', -, a', f, v, -, -, implicit, -⟩ :=
    listed.exists_encoded (List.mem_map_of_mem member)
  exact ((if_neg other).mp implicit).1

theorem EntryFile.Holds.abbreviation (holds : file.Holds unit indirect)
    (wellFormed : unit.WellFormed tables) : Reader.attempt (do
      Cursor.seek file.abbrevOffset
      readAbbreviation unit.code) file.abbrevs.cursor =
    .ok (if unit.Declared then some (unit.declaration indirect).abbreviation else none) := by
  obtain ⟨rest, ahead⟩ := holds.abbrevs
  obtain ⟨c', run⟩ := @readAbbreviation_run _ _ _ unit.code _ holds.table ahead
  have few : (unit.declaration indirect).Few ↔
      unit.attributes.length ≤ maxAttributesPerAbbreviation := by
    rw [Declaration.Few, EntryUnit.declaration, List.length_map]
  rw [EntryUnit.declarations, answer_append wellFormed.others rfl] at run
  rw [Reader.attempt, SectionView.seek_run ahead, run]
  by_cases declared : unit.Declared
  · rw [if_pos declared, if_pos ⟨declared.1, few.mpr declared.2⟩]
    rfl
  · rw [if_neg declared, if_neg fun both => declared ⟨both.1, few.mp both.2⟩]
    rfl

/-- The root entry is read as what its attributes say. -/
theorem EntryFile.Holds.readRoot_run (holds : file.Holds unit indirect)
    (wellFormed : unit.WellFormed tables)
    (chosen : ∀ a ∈ unit.attributes, a.chosen = true → a.implicit = 0)
    (ahead : c.Over (file.code ++ (file.values ++ rest))) :
    ((readRoot file.abbrevs (unit.own tables) unit.version file.abbrevOffset).run c).map Prod.fst =
      unit.outcome tables indirect := by
  obtain ⟨bytes, named, -⟩ := holds.encoded
  have code : Reads (do
      let code ← uleb
      Reader.require (code ≠ 0)
      pure code : Reader Cursor Nat) file.code unit.code :=
    holds.code.reads.bind_pure ((Reads.require (decide_eq_true named)).bind_nil (.pure _))
  rw [readRoot, code.run_orElse ahead, holds.abbreviation wellFormed, EntryUnit.outcome]
  by_cases declared : unit.Declared
  · have tag : (unit.declaration indirect).abbreviation.tag = dwTagCompileUnit := rfl
    obtain ⟨c', found⟩ := @readFound_run _ _ _ _ _ unit.attributes [] wellFormed.tells chosen
      holds.values ahead.advance
    have rest_ : (do
        let found ← readFound (unit.own tables)
          (unit.declaration indirect).abbreviation.attributes []
        Reader.ofExcept (resolveUnit (unit.own tables) unit.version found) :
          Reader Cursor CompilationUnit).run (c.advance file.code.length) =
        (unit.resolved tables indirect).map fun u => (u, c') := run_bind_eq found
    have given {a : Option Abbreviation} {c : Cursor} :
        (Reader.ofExcept (.ok a) : Reader Cursor (Option Abbreviation)).run c = .ok (a, c) := rfl
    rw [if_pos declared, if_pos declared, run_bind_eq given]
    simp only [ne_eq, tag, not_true_eq_false, if_false]
    rw [rest_]
    cases unit.resolved tables indirect <;> rfl
  · simp only [if_neg declared]
    rfl

/-- The unit behind its length is read as what its attributes say. -/
theorem EntryFile.Holds.readUnitContents_run (holds : file.Holds unit indirect)
    (wellFormed : unit.WellFormed tables)
    (chosen : ∀ a ∈ unit.attributes, a.chosen = true → a.implicit = 0)
    (ahead : c.Over (file.body unit ++ rest)) :
    ((readUnitContents file.abbrevs { tables with offsetSize := unit.offsetSize }).run c).map
      Prod.fst = unit.outcome tables indirect := by
  obtain ⟨least, most⟩ := wellFormed.version
  have known : (2 ≤ unit.version && unit.version ≤ 5 : Bool) = true := by simp [least, most]
  have version : Reads (do
      let version ← fixed 2
      Reader.require (2 ≤ version && version ≤ 5)
      pure version : Reader Cursor Nat) (toBytes 2 unit.version) unit.version :=
    (Reads.fixed (by decide) (by decide) (by omega)).bind_pure
      ((Reads.require known).bind_nil (.pure _))
  have address : Reads (fixed 1) (toBytes 1 unit.addressSize) unit.addressSize :=
    .fixed (by decide) (by decide) wellFormed.address
  have offset : Reads (fixed unit.offsetSize) (toBytes unit.offsetSize file.abbrevOffset)
      file.abbrevOffset := by
    refine .fixed ?_ ?_ holds.offset
    · unfold EntryUnit.offsetSize
      split <;> decide
    · unfold EntryUnit.offsetSize
      split <;> decide
  unfold EntryFile.body EntryFile.head at ahead
  simp only [List.append_assoc] at ahead
  rw [readUnitContents, version.run_orElse ahead, readUnitBody]
  have behind := ahead.advance
  split at behind
  · next modern =>
      simp only [List.append_assoc] at behind
      have type : Reads (fixed 1) (toBytes 1 dwUtCompile) dwUtCompile :=
        .fixed (by decide) (by decide) (by decide)
      rw [if_pos modern, type.run_orElse behind, address.run_orElse behind.advance,
        if_neg (fun other => other rfl), offset.run_orElse behind.advance.advance]
      change ((readRoot file.abbrevs (unit.own tables) _ _).run _).map Prod.fst = _
      exact holds.readRoot_run wellFormed chosen behind.advance.advance.advance
  · next old =>
      simp only [List.append_assoc] at behind
      rw [if_neg old, offset.run_orElse behind, address.run_orElse behind.advance]
      change ((readRoot file.abbrevs (unit.own tables) _ _).run _).map Prod.fst = _
      exact holds.readRoot_run wellFormed chosen behind.advance.advance

theorem EntryFile.Holds.unitOf_eq (holds : file.Holds unit indirect)
    (wellFormed : unit.WellFormed tables) (plain : tables.offsetSize = 4)
    (chosen : ∀ a ∈ unit.attributes, a.chosen = true → a.implicit = 0) :
    file.unitOf tables = unit.outcome tables indirect := by
  obtain ⟨rest, ahead⟩ := holds.info
  rw [← List.append_assoc] at ahead
  have widths : FramedUnit.tables ⟨unit.wide, file.body unit, holds.length⟩ tables =
      { tables with offsetSize := unit.offsetSize } := by
    rw [FramedUnit.tables, plain]
    rfl
  have run := @FramedUnit.readUnit_run ⟨unit.wide, file.body unit, holds.length⟩ file.info rest
    file.abbrevs tables ahead
  rw [widths] at run
  have first (n : Nat) (x : Except Stop (CompilationUnit × Cursor)) :
      (x.map fun read => ((read.1, n), read.2)).map (·.1.1) = x.map Prod.fst := by
    cases x <;> rfl
  rw [EntryFile.unitOf, run, first]
  rw [List.append_assoc] at ahead
  exact holds.readUnitContents_run wellFormed chosen ahead.advance

end Units

/-! ## What the forms decide -/

/-- The number of an attribute. -/
def EntryAttribute.number (a : EntryAttribute) : Nat := (a.value.getD {}).value

/-- The number is an index. -/
def EntryAttribute.indexed (a : EntryAttribute) : Bool := (a.value.getD {}).indexed

namespace EntryUnit

variable (unit : EntryUnit) (tables : Tables)

/-- The attribute that a lookup finds. -/
def look (attr : Nat) : Option EntryAttribute := unit.kept.find? (·.attr = attr)

/-- The base that an attribute gives, if there is one. -/
def base (attr : Nat) : Nat := ((unit.look attr).map EntryAttribute.number).getD 0

/-- The tables with the bases of the unit. -/
def based : Tables :=
  { unit.own tables with
    addrBase := unit.base dwAtAddrBase
    strOffsetsBase :=
      ((unit.look dwAtStrOffsetsBase).map EntryAttribute.number).getD tables.strOffsetsBase }

/-- If the attribute is an index, there is an address at it. -/
def Names (attr : Nat) : Prop :=
  ∀ a, unit.look attr = some a → a.indexed = true →
    ∃ address, indexedAddress (unit.based tables) a.number = .ok (some address)

/-- The high address is not an address whose form stands in the entry. -/
def HighAlike : Prop :=
  ∀ high, unit.look dwAtHighPc = some high → high.chosen = true → high.indexed = false →
    high.form ≠ dwFormAddr

/-- The ranges are not an index whose form stands in the entry, or the list at the index is at the
offset that is the index itself. -/
def RangesAlike : Prop :=
  ∀ ranges, unit.look dwAtRanges = some ranges → ranges.chosen = true →
    ranges.form = dwFormRnglistx → 5 ≤ unit.version ∧
      ∀ offset, indexedOffset tables.debugRnglists (unit.base dwAtRnglistsBase) ranges.number 4 =
        .ok offset → u64 (offset + unit.base dwAtRnglistsBase) = ranges.number

/-- No form that stands in the entry is decided by: either `read_unit` does not come to the
decision, or it comes to the same. -/
def Alike : Prop :=
  unit.Declared → unit.Names tables dwAtLowPc →
    unit.HighAlike ∧ (unit.Names tables dwAtHighPc → unit.RangesAlike tables)

end EntryUnit

section Decisions

variable {unit : EntryUnit} {tables : Tables}

theorem lookup_found (indirect : Bool) (attr : Nat) :
    lookup (unit.kept.map (EntryAttribute.found indirect)) attr =
      (unit.look attr).map (EntryAttribute.found indirect) := by
  rw [lookup, List.find?_map, EntryUnit.look]
  rfl

theorem number_found (indirect : Bool) (attr : Nat) :
    (lookup (unit.kept.map (EntryAttribute.found indirect)) attr).map (·.value.value) =
      (unit.look attr).map EntryAttribute.number := by
  rw [lookup_found, Option.map_map]
  rfl

theorem based_sound (sound : tables.Sound) : (unit.based tables).Sound := sound.vary _ _ _ _ _

theorem indexedOffset_ok {table : SectionView} (sound : table.Sound) (base index entrySize : Nat) :
    ∃ offset, indexedOffset table base index entrySize = .ok offset := by
  refine (indexedOffset_answered _ _ _ _).exists_ok (indexedOffset_harmless sound _ _ _) ?_
  have ends : Halts (do
      seek (u64 (base + u64 (index * entrySize)))
      fixed entrySize) := .bind (seek_halts _) fun _ => fixed_halts _
  unfold indexedOffset
  split
  · rintro ⟨⟩
  · have attempted := Halts.attempt ends table.cursor
    intro stopped
    cases read : Reader.attempt (do
        seek (u64 (base + u64 (index * entrySize)))
        fixed entrySize) table.cursor with
    | ok a =>
        rw [read] at stopped
        cases stopped
    | error stop =>
        rw [read] at stopped attempted
        cases stopped
        exact attempted rfl

theorem indexedAddress_ok (sound : tables.Sound) (index : Nat) :
    ∃ address, indexedAddress tables index = .ok address := by
  refine (indexedAddress_answered _).exists_ok (indexedAddress_harmless sound _) ?_
  have ends : Halts (do
      seek (u64 (tables.addrBase + u64 (index * tables.addressSize)))
      fixed tables.addressSize) := .bind (seek_halts _) fun _ => fixed_halts _
  unfold indexedAddress
  split
  · rintro ⟨⟩
  · exact Halts.attempt ends _

/-- The low address does not depend on the forms. -/
theorem resolveLow_found (sound : tables.Sound) (u : CompilationUnit) :
    ∃ go low indexed, (go = true ↔ unit.Names tables dwAtLowPc) ∧ ∀ indirect,
      resolveLow (unit.based tables) (unit.kept.map (EntryAttribute.found indirect)) u =
        .ok (go, { u with lowPc := low, indexedAddresses := indexed }) := by
  simp only [resolveLow, lookup_found]
  unfold EntryUnit.Names
  cases found : unit.look dwAtLowPc with
  | none => exact ⟨true, u.lowPc, u.indexedAddresses, by simp, fun _ => rfl⟩
  | some low =>
      obtain ⟨address, named⟩ :=
        @indexedAddress_ok (unit.based tables) (based_sound sound) low.number
      simp only [Option.map_some, EntryAttribute.found, Option.some.injEq, forall_eq']
      by_cases indexed : low.indexed = true
      · refine ⟨address.isSome, address.getD 0, true, ?_, fun indirect => ?_⟩
        · rw [named, Option.isSome_iff_exists]
          simp [indexed]
        · refine (if_pos indexed).trans ?_
          change (indexedAddress (unit.based tables) low.number >>= _) = _
          rw [named]
          rfl
      · refine ⟨true, low.number, false, by simp [indexed], fun indirect => ?_⟩
        exact if_neg indexed

/-- Of the high address only the question whether it is an offset depends on the forms. -/
theorem resolveHigh_found (sound : tables.Sound) (u : CompilationUnit) :
    ∃ (go : Bool) (high : Nat) (offset : Bool → Bool), (go = true ↔ unit.Names tables dwAtHighPc) ∧
      (offset false = offset true ↔ unit.HighAlike) ∧ (go = false → unit.HighAlike) ∧ ∀ indirect,
        resolveHigh (unit.based tables) (unit.kept.map (EntryAttribute.found indirect)) u =
          .ok (go, { u with highPc := high, offsetHighPc := offset indirect }) := by
  simp only [resolveHigh, lookup_found]
  unfold EntryUnit.Names EntryUnit.HighAlike
  cases found : unit.look dwAtHighPc with
  | none => exact ⟨true, u.highPc, fun _ => u.offsetHighPc, by simp, by simp, by simp, fun _ => rfl⟩
  | some high =>
      obtain ⟨address, named⟩ :=
        @indexedAddress_ok (unit.based tables) (based_sound sound) high.number
      simp only [Option.map_some, EntryAttribute.found, Option.some.injEq, forall_eq']
      by_cases indexed : high.indexed = true
      · refine ⟨address.isSome, address.getD 0, fun _ => false, ?_, by simp [indexed],
          by simp [indexed], fun indirect => ?_⟩
        · rw [named, Option.isSome_iff_exists]
          simp [indexed]
        · refine (if_pos indexed).trans ?_
          change (indexedAddress (unit.based tables) high.number >>= _) = _
          rw [named]
          rfl
      · refine ⟨true, high.number,
          fun indirect => decide ((high.declared indirect).form ≠ dwFormAddr), by simp [indexed],
          ?_, Bool.noConfusion, fun indirect => if_neg indexed⟩
        simp only [EntryAttribute.form_direct, EntryAttribute.form_indirect, indexed]
        by_cases chosen : high.chosen = true
        · have other : ¬ dwFormIndirect = dwFormAddr := by decide
          simp [chosen, other]
        · simp [chosen]

/-- A unit with ranges, at the place of a list that an index names, or at the number itself. -/
def withRanges (version listed number form : Nat) (u : CompilationUnit) : CompilationUnit :=
  if form = dwFormRnglistx then { u with hasRanges := true, ranges := listed }
  else { u with hasRanges := true, ranges := number, legacyRanges := version < 5 }

/-- The ranges depend on the forms by the offset of the list and the section that it is in. -/
theorem resolveRanges_found (sound : tables.Sound) :
    ∃ place : Bool → CompilationUnit → CompilationUnit,
      (∀ u : CompilationUnit, u.legacyRanges = false →
        ((place false u).ranges = (place true u).ranges ∧
          (place false u).legacyRanges = (place true u).legacyRanges ↔ unit.RangesAlike tables) ∧
        (unit.RangesAlike tables → place false u = place true u)) ∧
      (∀ indirect u, (place indirect u).offsetHighPc = u.offsetHighPc) ∧ ∀ indirect u,
        resolveRanges (unit.based tables) unit.version
          (unit.kept.map (EntryAttribute.found indirect)) u = .ok (place indirect u) := by
  simp only [resolveRanges, lookup_found]
  unfold EntryUnit.RangesAlike
  cases found : unit.look dwAtRanges with
  | none => exact ⟨fun _ u => u, by simp, fun _ _ => rfl, fun _ _ => rfl⟩
  | some ranges =>
      obtain ⟨offset, listed⟩ := @indexedOffset_ok tables.debugRnglists sound.debugRnglists
        (unit.base dwAtRnglistsBase) ranges.number 4
      simp only [Option.map_some, EntryAttribute.found, Option.some.injEq, forall_eq', listed,
        Except.ok.injEq]
      refine ⟨fun indirect => withRanges unit.version (u64 (offset + unit.base dwAtRnglistsBase))
        ranges.number (ranges.declared indirect).form, ?_, ?_, ?_⟩
      · intro u fresh
        simp only [EntryAttribute.form_direct, EntryAttribute.form_indirect]
        by_cases decided : ranges.chosen = true ∧ ranges.form = dwFormRnglistx
        · have other : ¬ dwFormIndirect = dwFormRnglistx := by decide
          have modern : (false = decide (unit.version < 5)) ↔ 5 ≤ unit.version := by
            rw [eq_comm, decide_eq_false_iff_not, Nat.not_lt]
          simp only [withRanges, decided.1, decided.2, if_true, other, if_false, fresh, modern,
            forall_const]
          refine ⟨and_comm, ?_⟩
          rintro ⟨least, same⟩
          rw [same, decide_eq_false (Nat.not_lt.mpr least)]
        · have same :
              (if ranges.chosen = true then dwFormIndirect else ranges.form) = dwFormRnglistx ↔
              ranges.form = dwFormRnglistx := by
            by_cases chosen : ranges.chosen = true
            · have form : ranges.form ≠ dwFormRnglistx := fun form => decided ⟨chosen, form⟩
              rw [if_pos chosen]
              exact iff_of_false (by decide) form
            · rw [if_neg chosen]
          have place : withRanges unit.version (u64 (offset + unit.base dwAtRnglistsBase))
              ranges.number ranges.form u =
                withRanges unit.version (u64 (offset + unit.base dwAtRnglistsBase)) ranges.number
                  (if ranges.chosen = true then dwFormIndirect else ranges.form) u := by
            simp only [withRanges, same]
          rw [← place]
          exact ⟨iff_of_true ⟨rfl, rfl⟩ fun chosen form => absurd ⟨chosen, form⟩ decided,
            fun _ => rfl⟩
      · intro indirect u
        dsimp only [withRanges]
        split <;> rfl
      · intro indirect u
        have base : (((unit.look dwAtRnglistsBase).map (EntryAttribute.found indirect)).map
            (·.value.value)).getD 0 = unit.base dwAtRnglistsBase := by
          rw [Option.map_map]
          rfl
        dsimp only [withRanges]
        rw [base]
        split
        · change
            (indexedOffset tables.debugRnglists (unit.base dwAtRnglistsBase) ranges.number 4 >>=
            _) = _
          rw [listed]
          rfl
        · rfl

theorem indexedString_ok (sound : tables.Sound) (index : Nat) :
    ∃ text, indexedString tables index = .ok text := by
  obtain ⟨offset, listed⟩ := @indexedOffset_ok tables.debugStrOffsets sound.debugStrOffsets
    tables.strOffsetsBase index tables.offsetSize
  obtain ⟨text, found⟩ := sound.debugStr.stringAt_ok offset
  unfold indexedString
  split
  · exact ⟨none, rfl⟩
  · rw [listed]
    by_cases there : offset ≠ 0
    · exact ⟨text, (if_pos there).trans found⟩
    · exact ⟨none, if_neg there⟩

theorem resolveText_ok (sound : tables.Sound) (found : Option Found) :
    ∃ text, resolveText tables found = .ok text := by
  cases found with
  | none => exact ⟨none, rfl⟩
  | some found =>
      simp only [resolveText]
      split
      · exact indexedString_ok sound _
      · exact ⟨_, rfl⟩

/-- A text does not depend on the forms. -/
theorem resolveText_found (indirect : Bool) (attr : Nat) :
    resolveText tables ((unit.look attr).map (EntryAttribute.found indirect)) =
      resolveText tables ((unit.look attr).map (EntryAttribute.found false)) := by
  cases unit.look attr <;> rfl

theorem lineHeader_ok (sound : tables.Sound) (program : Nat) :
    ∃ decoded, Reader.attempt (do
      seek program
      readLineHeader tables) tables.debugLine.cursor = .ok decoded := by
  have safe : Safe (do
      seek program
      readLineHeader tables) := .bind (seek_safe _) fun _ => readLineHeader_safe sound
  have ends : Ends (do
      seek program
      readLineHeader tables) :=
    .bind (seek_halts _).on (fun c a c' run kept => (seek_safe _ c kept).1 a c' run) fun _ =>
      readLineHeader_ends
  exact (Answered.attempt _ _).exists_ok (safe.attempt sound.debugLine.cursor)
    (ends.attempt sound.debugLine.cursor)

/-- The line program and the files do not depend on the forms. -/
theorem resolveLines_found (sound : tables.Sound) :
    ∃ lines : CompilationUnit → CompilationUnit,
      (∀ u, (lines u).offsetHighPc = u.offsetHighPc ∧ (lines u).ranges = u.ranges ∧
        (lines u).legacyRanges = u.legacyRanges) ∧
      ∀ indirect u, resolveLines (unit.based tables) unit.version
        (unit.kept.map (EntryAttribute.found indirect)) u = .ok (lines u) := by
  simp only [resolveLines, lookup_found]
  cases found : unit.look dwAtStmtList with
  | none => exact ⟨fun u => u, fun _ => ⟨rfl, rfl, rfl⟩, fun _ _ => rfl⟩
  | some program =>
      by_cases outside : tables.debugLine.size ≤ program.number
      · exact ⟨fun u => u, fun _ => ⟨rfl, rfl, rfl⟩, fun _ _ => if_pos outside⟩
      · obtain ⟨name, named⟩ := @resolveText_ok (unit.based tables) (based_sound sound)
          ((unit.look dwAtName).map (EntryAttribute.found false))
        obtain ⟨directory, working⟩ := @resolveText_ok (unit.based tables) (based_sound sound)
          ((unit.look dwAtCompDir).map (EntryAttribute.found false))
        have header : ∃ decoded, Reader.attempt (do
            seek program.number
            readLineHeader { unit.based tables with
              workingDirectory := directory.getD tables.workingDirectory })
            tables.debugLine.cursor = .ok decoded :=
          @lineHeader_ok { unit.based tables with
            workingDirectory := directory.getD tables.workingDirectory } (sound.vary _ _ _ _ _) _
        obtain ⟨decoded, read⟩ := header
        refine ⟨fun u => { u with
          lineProgram := program.number
          hasLineProgram := true
          files := (decoded.map fun d => nameFirst unit.version (name.getD []) d.2).getD [] },
          fun _ => ⟨rfl, rfl, rfl⟩, fun indirect u => ?_⟩
        refine (if_neg outside).trans ?_
        rw [resolveText_found indirect dwAtName, resolveText_found indirect dwAtCompDir, named,
          working]
        change (Reader.attempt (do
          seek program.number
          readLineHeader { unit.based tables with
            workingDirectory := directory.getD tables.workingDirectory })
            tables.debugLine.cursor >>=
          _) = _
        rw [read]
        rfl

/-- The unit in front of the low address, with its bases. -/
def EntryUnit.fresh (unit : EntryUnit) : CompilationUnit :=
  { addressSize := unit.addressSize
    addrBase := unit.base dwAtAddrBase
    strOffsetsBase := unit.base dwAtStrOffsetsBase }

theorem resolved_eq (indirect : Bool) : unit.resolved tables indirect = (do
      let found := unit.kept.map (EntryAttribute.found indirect)
      let low ← resolveLow (unit.based tables) found unit.fresh
      if low.1 then do
        let high ← resolveHigh (unit.based tables) found low.2
        if high.1 then do
          let ranged ← resolveRanges (unit.based tables) unit.version found high.2
          resolveLines (unit.based tables) unit.version found ranged
        else pure high.2
      else pure low.2) := by
  have bases : resolveBases (unit.kept.map (EntryAttribute.found indirect))
      { addressSize := unit.addressSize } = unit.fresh := by
    simp only [resolveBases, number_found]
    rfl
  have widths : (unit.own tables).addressSize = unit.addressSize := rfl
  rw [EntryUnit.resolved, resolveUnit, widths, bases, number_found]
  rfl

/-- The attributes say the same in both files exactly if no decision depends on a form that stands
in the entry. -/
theorem resolved_iff (sound : tables.Sound) :
    unit.resolved tables false = unit.resolved tables true ↔
      (unit.Names tables dwAtLowPc → unit.HighAlike ∧
        (unit.Names tables dwAtHighPc → unit.RangesAlike tables)) := by
  obtain ⟨go, low, indexed, reached, lows⟩ := @resolveLow_found unit tables sound unit.fresh
  obtain ⟨go', high, offset, reached', same, ended, highs⟩ := @resolveHigh_found unit tables sound
    { unit.fresh with lowPc := low, indexedAddresses := indexed }
  obtain ⟨place, places, offsets, ranges⟩ := @resolveRanges_found unit tables sound
  obtain ⟨lines, keeps, programs⟩ := @resolveLines_found unit tables sound
  let before : CompilationUnit := { unit.fresh with lowPc := low, indexedAddresses := indexed }
  let behind (indirect : Bool) : CompilationUnit :=
    { before with highPc := high, offsetHighPc := offset indirect }
  have whole (indirect : Bool) : unit.resolved tables indirect = .ok (
      if go = true then if go' = true then lines (place indirect (behind indirect))
        else behind indirect
      else before) := by
    rw [resolved_eq]
    simp only [lows]
    cases go with
    | false => rfl
    | true =>
        change (resolveHigh (unit.based tables) _ before >>= _) = _
        rw [highs]
        cases go' with
        | false => rfl
        | true =>
            change (resolveRanges (unit.based tables) unit.version _ (behind indirect) >>= _) = _
            rw [ranges]
            exact programs indirect _
  rw [whole, whole, Except.ok.injEq]
  cases go with
  | false =>
      have stopped : ¬ unit.Names tables dwAtLowPc := fun names =>
        Bool.noConfusion (reached.mpr names)
      exact iff_of_true rfl fun names => absurd names stopped
  | true =>
      have names := reached.mp rfl
      simp only [if_true]
      cases go' with
      | false =>
          have stopped : ¬ unit.Names tables dwAtHighPc :=
            fun names => Bool.noConfusion (reached'.mpr names)
          have alike := ended rfl
          refine iff_of_true ?_ fun _ => ⟨alike, fun names => absurd names stopped⟩
          simp only [Bool.false_eq_true, if_false, behind, same.mpr alike]
      | true =>
          have names' := reached'.mp rfl
          simp only [if_true]
          obtain ⟨different, equal⟩ := places (behind false) rfl
          constructor
          · intro lined _
            have high_ := congrArg CompilationUnit.offsetHighPc lined
            rw [(keeps _).1, (keeps _).1, offsets, offsets] at high_
            have alike := same.mp high_
            have behind_ : behind true = behind false := by
              simp only [behind, same.mpr alike]
            have ranges_ := congrArg CompilationUnit.ranges lined
            have legacy := congrArg CompilationUnit.legacyRanges lined
            rw [behind_, (keeps _).2.1, (keeps _).2.1] at ranges_
            rw [behind_, (keeps _).2.2, (keeps _).2.2] at legacy
            exact ⟨alike, fun _ => different.mp ⟨ranges_, legacy⟩⟩
          · intro alike
            obtain ⟨highs_, ranges_⟩ := alike names
            have behind_ : behind true = behind false := by
              simp only [behind, same.mpr highs_]
            rw [behind_, equal (ranges_ names')]

end Decisions

/-- Both files are read as the same unit exactly if no decision depends on a form that stands in
the entry. -/
theorem transparent_iff {tables : Tables} {unit : EntryUnit} {direct indirect : EntryFile}
    (sound : tables.Sound) (plain : tables.offsetSize = 4) (wellFormed : unit.WellFormed tables)
    (holds : direct.Holds unit false) (holds' : indirect.Holds unit true) :
    direct.unitOf tables = indirect.unitOf tables ↔ unit.Alike tables := by
  have chosen (a : EntryAttribute) (member : a ∈ unit.attributes) (chosen : a.chosen = true) :
      a.implicit = 0 := holds.implicit member (wellFormed.chosen a member chosen)
  rw [holds.unitOf_eq wellFormed plain chosen, holds'.unitOf_eq wellFormed plain chosen,
    EntryUnit.outcome, EntryUnit.outcome, EntryUnit.Alike]
  by_cases declared : unit.Declared
  · rw [if_pos declared, if_pos declared, resolved_iff sound]
    exact ⟨fun alike _ => alike, fun alike => alike declared⟩
  · exact iff_of_true (by rw [if_neg declared, if_neg declared]) fun is => absurd is declared

/-! ## Bounds that are written with their forms -/

/-- Every value in the standard encoding of its form is one. -/
theorem EntryAttribute.tells_datum {tables : Tables} (readable : tables.Readable) {datum : Datum}
    (wellFormed : datum.WellFormed tables.addressSize tables.offsetSize) (attr : Nat)
    (chosen : Bool) :
    EntryAttribute.Tells tables ⟨attr, datum.form, 0,
      datum.bytes tables.addressSize tables.offsetSize, some (datum.meaning tables), chosen⟩ :=
  readForm_reads readable wellFormed

/-- A unit with a low address, and with a high one of the form that may stand in the entry. -/
def boundsUnit (form : UInt8) : EntryUnit where
  version := 4
  wide := false
  addressSize := 8
  code := 1
  hasChildren := 0
  earlier := []
  later := []
  attributes := [⟨dwAtLowPc, dwFormAddr, 0, toBytes 8 0x1000, some { value := 0x1000 }, false⟩,
    ⟨dwAtHighPc, form.toNat, 0, toBytes 8 0x2000, some { value := 0x2000 }, true⟩]

def boundsTable (form : UInt8) (indirect : Bool) : List UInt8 :=
  [1, 0x11, 0, 0x11, 0x01, 0x12, if indirect then 0x16 else form, 0, 0, 0]

def boundsValues (form : UInt8) (indirect : Bool) : List UInt8 :=
  toBytes 8 0x1000 ++ ((if indirect then [form] else []) ++ toBytes 8 0x2000)

def boundsInfo (form : UInt8) (indirect : Bool) : List UInt8 :=
  toBytes 4 (if indirect then 25 else 24) ++ (toBytes 2 4 ++ (toBytes 4 0 ++ ([8, 1] ++
    boundsValues form indirect)))

def boundsFile (form : UInt8) (indirect : Bool) : EntryFile where
  abbrevs := ⟨some (boundsTable form indirect), 10⟩
  info := ⟨some (boundsInfo form indirect), if indirect then 29 else 28, 0⟩
  abbrevOffset := 0
  table := boundsTable form indirect
  code := [1]
  values := boundsValues form indirect
  behind := []

theorem noSections_sound : noSections.Sound := by
  have empty : SectionView.Sound ⟨none, 0⟩ := ⟨.inl rfl, by decide⟩
  exact ⟨empty, empty, empty, empty, empty, empty, empty⟩

theorem boundsFile_holds {form : UInt8} (small : form.toNat < 128)
    (own : form.toNat ≠ dwFormImplicitConst) (indirect : Bool) :
    (boundsFile form indirect).Holds (boundsUnit form) indirect where
  table := by
    have low : AbbreviationAttribute.Encoded
        (EntryAttribute.declared indirect
          ⟨dwAtLowPc, dwFormAddr, 0, toBytes 8 0x1000, some { value := 0x1000 }, false⟩)
        [0x11, 0x01] := by
      cases indirect <;>
        exact @encoded_pair 0x11 0x01 (by decide) (by decide) (by decide) (by decide)
    have high : AbbreviationAttribute.Encoded
        (EntryAttribute.declared indirect
          ⟨dwAtHighPc, form.toNat, 0, toBytes 8 0x2000, some { value := 0x2000 }, true⟩)
        [0x12, if indirect then 0x16 else form] := by
      cases indirect with
      | false => exact @encoded_pair 0x12 form (by decide) small (by decide) own
      | true => exact @encoded_pair 0x12 0x16 (by decide) (by decide) (by decide) (by decide)
    have encoded : ((boundsUnit form).declaration indirect).Encoded
        [1, 0x11, 0, 0x11, 0x01, 0x12, if indirect then 0x16 else form, 0, 0] :=
      ⟨Nat.one_ne_zero, [1], [0x11], _, [0, 0], .byte (by decide), .byte (by decide),
        ⟨_, _, low, ⟨_, _, high, rfl, rfl⟩, rfl⟩, encodedEnd_zeros, rfl⟩
    exact ⟨_, [0], ⟨_, _, encoded, rfl, rfl⟩, .byte (by decide), rfl⟩
  abbrevs := ⟨[], [], [], rfl, rfl, rfl, of_decide_eq_true rfl⟩
  offset := of_decide_eq_true rfl
  code := .byte (by decide)
  values := by
    cases indirect with
    | false => exact ⟨_, _, rfl, ⟨_, _, rfl, rfl, rfl⟩, rfl⟩
    | true => exact ⟨_, _, rfl, ⟨_, _, ⟨[form], .byte small, rfl⟩, rfl, rfl⟩, rfl⟩
  length := by cases indirect <;> exact of_decide_eq_true rfl
  info := by
    refine ⟨[], [], [], ?_, rfl, ?_, ?_⟩
    · cases indirect <;> rfl
    · cases indirect <;> rfl
    · cases indirect <;> exact of_decide_eq_true rfl

theorem boundsTables_readable {form : UInt8} : ((boundsUnit form).own noSections).Readable :=
  ⟨noSections_sound.debugStr, noSections_sound.debugLineStr, of_decide_eq_true rfl,
    of_decide_eq_true rfl, of_decide_eq_true rfl, of_decide_eq_true rfl⟩

theorem boundsUnit_wellFormed {form : UInt8} (own : form.toNat ≠ dwFormImplicitConst)
    (tells : Reads
      (readForm ((boundsUnit form).own noSections) ⟨dwAtHighPc, form.toNat, 0⟩ form.toNat)
      (toBytes 8 0x2000) { value := 0x2000 }) : (boundsUnit form).WellFormed noSections where
  version := of_decide_eq_true rfl
  address := of_decide_eq_true rfl
  others := by
    rintro other ⟨⟩
  chosen := by
    intro a member chosen
    simp only [boundsUnit, List.mem_cons, List.not_mem_nil, or_false] at member
    rcases member with rfl | rfl
    · cases chosen
    · exact own
  tells := by
    intro a member
    simp only [boundsUnit, List.mem_cons, List.not_mem_nil, or_false] at member
    rcases member with rfl | rfl
    · have low : (Datum.address 0x1000).WellFormed 8 4 := by decide
      exact EntryAttribute.tells_datum (@boundsTables_readable form) low dwAtLowPc false
    · exact tells

/-- A length behind its form is read as the length. -/
theorem transparent_iff_length : (boundsUnit 0x07).Alike noSections ∧
    (boundsFile 0x07 false).unitOf noSections = (boundsFile 0x07 true).unitOf noSections := by
  have wellFormed : (boundsUnit 0x07).WellFormed noSections :=
    boundsUnit_wellFormed (by decide)
      (@readForm_reads _ _ boundsTables_readable (.fixed dwFormData8 8 0x2000) (by decide))
  have alike : (boundsUnit 0x07).Alike noSections := by
    intro _ _
    constructor
    · intro high found _ _
      cases found
      decide
    · intro _ ranges found
      cases found
  exact ⟨alike, (transparent_iff noSections_sound rfl wellFormed
    (boundsFile_holds (by decide) (by decide) false)
    (boundsFile_holds (by decide) (by decide) true)).mpr alike⟩

/-- An address behind its form is read as a length. -/
theorem not_transparent_address : noSections.Sound ∧ (boundsUnit 0x01).WellFormed noSections ∧
    (boundsFile 0x01 false).Holds (boundsUnit 0x01) false ∧
    (boundsFile 0x01 true).Holds (boundsUnit 0x01) true ∧
    (boundsFile 0x01 false).unitOf noSections ≠ (boundsFile 0x01 true).unitOf noSections := by
  have wellFormed : (boundsUnit 0x01).WellFormed noSections :=
    boundsUnit_wellFormed (by decide) (@readForm_reads _ _ boundsTables_readable (.address 0x2000)
      (by decide))
  have direct := @boundsFile_holds 0x01 (by decide) (by decide) false
  have indirect := @boundsFile_holds 0x01 (by decide) (by decide) true
  have chosen : ∀ a ∈ (boundsUnit 0x01).attributes, a.chosen = true → a.implicit = 0 := by
    simp [boundsUnit]
  refine ⟨noSections_sound, wellFormed, direct, indirect, ?_⟩
  rw [direct.unitOf_eq wellFormed rfl chosen, indirect.unitOf_eq wellFormed rfl chosen,
    EntryUnit.outcome, EntryUnit.outcome, if_pos (by decide), if_pos (by decide), ne_eq,
    resolved_iff noSections_sound]
  intro alike
  have low : (boundsUnit 0x01).Names noSections dwAtLowPc := by
    rintro a ⟨⟩ ⟨⟩
  exact (alike low).1 _ rfl rfl rfl rfl

end Fpag.Debug
