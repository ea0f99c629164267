import Fpag.Debug.LineEncoding
import Fpag.Debug.Unit

/-!
Compilation units and their standard encoding, in both formats of DWARF.

`AbstractUnit` is a unit of any version with the values of its attributes and the tables that
they refer to. `Encodes` says of the sections of a file that they hold the unit, in the 32-bit
or in the 64-bit format: the formats differ in the width of an offset, and with it in where
everything is. What the reader finds in the root entry is what was encoded.
-/

namespace Fpag.Debug

/-! ## Attributes -/

/-- How an offset of a section is written that depends on the layout of the section. Before
there was a form for it, it was a number of the width of an offset. -/
inductive PointerForm : Type
  | secOffset
  | data
  | indirect (form : PointerForm)

def PointerForm.datum (wide : Bool) (value : Nat) : PointerForm → Datum
  | .secOffset => .offset dwFormSecOffset value
  | .data => if wide then .fixed dwFormData8 8 value else .fixed dwFormData4 4 value
  | .indirect form => .indirect (form.datum wide value)

/-- The value of an attribute: one that is the same in every layout, one that the abbreviation
itself gives, or a place in the section that the attribute is about. -/
inductive AttributeValue : Type
  | datum (datum : Datum)
  | implicit (value : Int)
  | pointer (form : PointerForm)

/-- The value that stands in the abbreviation. -/
def AttributeValue.constant : AttributeValue → Int
  | .implicit value => value
  | .datum _ => 0
  | .pointer _ => 0

/-- The index that a value is, of a string or of an address. -/
def Datum.index? : Datum → Option Nat
  | .index _ _ value => some value
  | .anyIndex _ value => some value
  | .indirect datum => datum.index?
  | _ => none

/-- The index of a range list that a value is. -/
def Datum.listIndex? : Datum → Option Nat
  | .number form value => if form = dwFormRnglistx then some value else none
  | .indirect datum => datum.listIndex?
  | _ => none

/-- The attributes whose value is a place. -/
def pointerAttributes : List Nat :=
  [dwAtStmtList, dwAtAddrBase, dwAtStrOffsetsBase, dwAtRnglistsBase]

/-! ## Abbreviations -/

def AbbreviationAttribute.bytes (declared : AbbreviationAttribute) : List UInt8 :=
  encodeUleb declared.attr ++ (encodeUleb declared.form ++
    if declared.form = dwFormImplicitConst then encodeSleb declared.implicit else [])

/-- The attribute does not end the list, and has a value of its own if its form says so. -/
structure AbbreviationAttribute.WellFormed (declared : AbbreviationAttribute) : Prop where
  attr : declared.attr < 2 ^ 64
  form : declared.form < 2 ^ 64
  named : ¬ (declared.attr = 0 ∧ declared.form = 0)
  implicit : if declared.form = dwFormImplicitConst then
    -2 ^ 63 ≤ declared.implicit ∧ declared.implicit < 2 ^ 63 else declared.implicit = 0

/-- An entry of an abbreviation table. -/
structure Declaration : Type where
  code : Nat
  hasChildren : UInt8
  abbreviation : Abbreviation

namespace Declaration

def bytes (declaration : Declaration) : List UInt8 :=
  encodeUleb declaration.code ++ (encodeUleb declaration.abbreviation.tag ++
    ([declaration.hasChildren] ++
      (declaration.abbreviation.attributes.flatMap AbbreviationAttribute.bytes ++ [0, 0])))

structure WellFormed (declaration : Declaration) : Prop where
  code : declaration.code ≠ 0 ∧ declaration.code < 2 ^ 64
  tag : declaration.abbreviation.tag < 2 ^ 64
  few : declaration.abbreviation.attributes.length ≤ maxAttributesPerAbbreviation
  attributes : ∀ declared ∈ declaration.abbreviation.attributes, declared.WellFormed

end Declaration

section Abbreviations

theorem encodeUleb_pos (value : Nat) : 0 < (encodeUleb value).length := by
  rw [encodeUleb, ulebBytes]
  split <;> exact Nat.succ_pos _

theorem readImplicit_reads {declared : AbbreviationAttribute} (wellFormed : declared.WellFormed) :
    Reads (readImplicit declared.form)
      (if declared.form = dwFormImplicitConst then encodeSleb declared.implicit else [])
      declared.implicit := by
  have implicit := wellFormed.implicit
  unfold readImplicit
  split at implicit
  · next own =>
      rw [if_pos own, if_pos own]
      exact .sleb implicit.1 implicit.2
  · next other =>
      rw [if_neg other, if_neg other, implicit]
      exact .pure 0

/-- The attributes that an abbreviation declares are read back. -/
theorem readAttributes_reads {attributes : List AbbreviationAttribute}
    (wellFormed : ∀ declared ∈ attributes, declared.WellFormed)
    {before : List AbbreviationAttribute}
    (few : before.length + attributes.length ≤ maxAttributesPerAbbreviation) {fuel : Nat}
    (turns : attributes.length < fuel) :
    Reads (readAttributes fuel before)
      (attributes.flatMap AbbreviationAttribute.bytes ++ [0, 0]) (before ++ attributes) := by
  obtain ⟨fuel, rfl⟩ := Nat.exists_eq_succ_of_ne_zero (Nat.ne_zero_of_lt turns)
  induction attributes generalizing before fuel with
  | nil =>
      have zero : Reads Cursor.uleb [0] 0 := @Reads.uleb 0 (by decide)
      refine zero.bind_cons (zero.bind_pure ?_)
      rw [if_pos ⟨rfl, rfl⟩, List.append_nil]
      exact .pure _
  | cons declared attributes ih =>
      obtain ⟨attr, form, named, -⟩ := wellFormed declared List.mem_cons_self
      rw [List.length_cons] at few turns
      obtain ⟨fuel, rfl⟩ := Nat.exists_eq_succ_of_ne_zero (by omega : fuel ≠ 0)
      rw [List.flatMap_cons, AbbreviationAttribute.bytes]
      simp only [List.append_assoc]
      refine (Reads.uleb attr).bind ((Reads.uleb form).bind ?_)
      rw [if_neg named]
      refine (Reads.require (decide_eq_true (by omega))).bind_nil ?_
      refine (readImplicit_reads (wellFormed declared List.mem_cons_self)).bind ?_
      have room : (before ++ [declared]).length + attributes.length ≤
          maxAttributesPerAbbreviation := by
        rw [List.length_append, List.length_singleton]
        omega
      have rest :=
        ih (fun other member => wellFormed other (List.mem_cons_of_mem _ member)) room fuel
        (by omega)
      rw [List.append_assoc, List.singleton_append] at rest
      exact rest

theorem AbbreviationAttribute.bytes_pos (declared : AbbreviationAttribute) :
    0 < declared.bytes.length := by
  have pos := encodeUleb_pos declared.attr
  rw [AbbreviationAttribute.bytes, List.length_append]
  omega

theorem Declaration.bytes_pos (declaration : Declaration) : 0 < declaration.bytes.length := by
  have pos := encodeUleb_pos declaration.code
  rw [Declaration.bytes, List.length_append]
  omega

/-- What has no empty encoding takes as many bytes as there are of it. -/
theorem length_le_flatMap {α : Type} {bytes : α → List UInt8} (pos : ∀ a, 0 < (bytes a).length)
    (l : List α) : l.length ≤ (l.flatMap bytes).length := by
  induction l with
  | nil => exact le_rfl
  | cons a l ih =>
      have := pos a
      rw [List.flatMap_cons, List.length_append, List.length_cons]
      omega

/-- An entry is read up to the question whether it is the one. -/
theorem Declaration.WellFormed.reads {declaration : Declaration}
    (wellFormed : declaration.WellFormed) {code fuel : Nat} {bytes : List UInt8} {a : Abbreviation}
    (then_ : Reads (if declaration.code = code then pure declaration.abbreviation
      else findAbbreviation code fuel) bytes a) :
    Reads (findAbbreviation code (fuel + 1)) (declaration.bytes ++ bytes) a := by
  unfold Declaration.bytes
  simp only [List.append_assoc]
  refine (Reads.uleb wellFormed.code.2).bind ?_
  refine (Reads.require (decide_eq_true wellFormed.code.1)).bind_nil ?_
  refine (Reads.uleb wellFormed.tag).bind ((Reads.byte _).bind ?_)
  refine Reads.turns_bind fun turns enough => ?_
  have long : declaration.abbreviation.attributes.length < turns := by
    have := length_le_flatMap AbbreviationAttribute.bytes_pos declaration.abbreviation.attributes
    rw [List.length_append] at enough
    omega
  rw [← List.append_assoc]
  refine (readAttributes_reads wellFormed.attributes ?_ long).bind then_
  simpa using wellFormed.few

theorem findAbbreviation_reads {earlier : List Declaration} {declaration : Declaration}
    (others : ∀ other ∈ earlier, other.WellFormed ∧ other.code ≠ declaration.code)
    (wellFormed : declaration.WellFormed) {fuel : Nat} (turns : earlier.length < fuel) :
    Reads (findAbbreviation declaration.code fuel)
      (earlier.flatMap Declaration.bytes ++ declaration.bytes) declaration.abbreviation := by
  obtain ⟨fuel, rfl⟩ := Nat.exists_eq_succ_of_ne_zero (Nat.ne_zero_of_lt turns)
  induction earlier generalizing fuel with
  | nil =>
      have reads : Reads (findAbbreviation declaration.code (fuel + 1)) (declaration.bytes ++ [])
          declaration.abbreviation := by
        refine wellFormed.reads ?_
        rw [if_pos rfl]
        exact .pure _
      rw [List.append_nil] at reads
      exact reads
  | cons other earlier ih =>
      obtain ⟨well, differs⟩ := others other List.mem_cons_self
      rw [List.length_cons] at turns
      obtain ⟨fuel, rfl⟩ := Nat.exists_eq_succ_of_ne_zero (by omega : fuel ≠ 0)
      rw [List.flatMap_cons, List.append_assoc]
      refine well.reads ?_
      rw [if_neg differs]
      exact ih (fun other member => others other (List.mem_cons_of_mem _ member)) fuel (by omega)

end Abbreviations

/-! ## Range lists -/

/-- An entry of a range list of version 5. -/
inductive RangeItem : Type
  | baseAddressx (index : Nat)
  | startxEndx (start stop : Nat)
  | startxLength (start length : Nat)
  | offsetPair (start stop : Nat)
  | baseAddress (address : Nat)
  | startEnd (start stop : Nat)
  | startLength (start length : Nat)

namespace RangeItem

def bytes (addressSize : Nat) : RangeItem → List UInt8
  | .baseAddressx index => [1] ++ encodeUleb index
  | .startxEndx start stop => [2] ++ (encodeUleb start ++ encodeUleb stop)
  | .startxLength start length => [3] ++ (encodeUleb start ++ encodeUleb length)
  | .offsetPair start stop => [4] ++ (encodeUleb start ++ encodeUleb stop)
  | .baseAddress address => [5] ++ toBytes addressSize address
  | .startEnd start stop => [6] ++ (toBytes addressSize start ++ toBytes addressSize stop)
  | .startLength start length => [7] ++ (toBytes addressSize start ++ encodeUleb length)

/-- The numbers of the entry fit, and its indices are ones of so many addresses. -/
def WellFormed (addressSize count : Nat) : RangeItem → Prop
  | .baseAddressx index => index < count
  | .startxEndx start stop => start < count ∧ stop < count
  | .startxLength start length => start < count ∧ length < 2 ^ 64
  | .offsetPair start stop => start < 2 ^ 64 ∧ stop < 2 ^ 64
  | .baseAddress address => address < 256 ^ addressSize
  | .startEnd start stop => start < 256 ^ addressSize ∧ stop < 256 ^ addressSize
  | .startLength start length => start < 256 ^ addressSize ∧ length < 2 ^ 64

end RangeItem

/-- The encoding of a range list. -/
def listBytes (addressSize : Nat) (items : List RangeItem) : List UInt8 :=
  items.flatMap (RangeItem.bytes addressSize) ++ [0]

/-! ## Units -/

/-- A compilation unit: the attributes of its root entry in their order, and what they refer to.
`ranges` is where its range list is: before version 5 an offset of `.debug_ranges`, from then on
one of the lists. -/
structure AbstractUnit : Type where
  version : Nat
  addressSize : Nat
  attributes : List (Nat × AttributeValue)
  str : List UInt8
  lineStr : List UInt8
  strOffsets : List Nat
  addresses : List Nat
  legacyRanges : List UInt8
  rangeLists : List (List RangeItem)
  ranges : Nat
  lines : LineUnit

/-- What is kept of the attributes. -/
def keepAttribute (kept : List (Nat × AttributeValue)) (declared : Nat × AttributeValue) :
    List (Nat × AttributeValue) :=
  if wanted declared.1 && kept.length < maxTrackedAttributes then kept ++ [declared] else kept

namespace AbstractUnit

variable (unit : AbstractUnit)

/-- The attributes that are kept. -/
def tracked : List (Nat × AttributeValue) := unit.attributes.foldl keepAttribute []

/-- The value of an attribute, if the unit declares it. -/
def value? (attr : Nat) : Option AttributeValue :=
  (unit.tracked.find? (·.1 = attr)).map Prod.snd

/-- How many addresses an index can name; without a base it names none, and is not used. -/
def addressCount : Nat :=
  if (unit.value? dwAtAddrBase).isSome then unit.addresses.length else 2 ^ 64

def stringCount : Nat :=
  if (unit.value? dwAtStrOffsetsBase).isSome then unit.strOffsets.length else 2 ^ 64

/-- The value fits the attribute: a place where one is asked for, and an index of the table that
the attribute is about. -/
def Fits : Nat × AttributeValue → Prop
  | (attr, .datum datum) =>
      datum.WellFormed unit.addressSize 4 ∧ attr ∉ pointerAttributes ∧
      (attr = dwAtRanges → ∃ index, datum.listIndex? = some index ∧
        index < unit.rangeLists.length) ∧
      (attr = dwAtLowPc ∨ attr = dwAtHighPc → ∀ index, datum.index? = some index →
        index < unit.addressCount) ∧
      (attr = dwAtName ∨ attr = dwAtCompDir → ∀ index, datum.index? = some index →
        index < unit.stringCount)
  | (attr, .implicit value) =>
      attr ∉ dwAtRanges :: pointerAttributes ∧ -2 ^ 63 ≤ value ∧ value < 2 ^ 63
  | (attr, .pointer _) => attr ∈ dwAtRanges :: pointerAttributes

/-- A unit of version 2 to 5 that can be encoded in the 32-bit format. -/
structure WellFormed : Prop where
  version : 2 ≤ unit.version ∧ unit.version ≤ 5
  address : 0 < unit.addressSize ∧ unit.addressSize ≤ 8
  few : unit.attributes.length ≤ maxAttributesPerAbbreviation
  codes : ∀ declared ∈ unit.attributes, declared.1 < 2 ^ 64
  fits : ∀ declared ∈ unit.attributes, unit.Fits declared
  strings : ∀ offset ∈ unit.strOffsets, offset < 2 ^ 32
  numbers : ∀ address ∈ unit.addresses, address < 256 ^ unit.addressSize
  count : unit.addresses.length ≤ 2 ^ 64
  items : ∀ list ∈ unit.rangeLists, ∀ item ∈ list,
    item.WellFormed unit.addressSize unit.addressCount

end AbstractUnit

/-! ## Sections -/

/-- The section is these bytes. -/
def SectionView.Is (view : SectionView) (bytes : List UInt8) : Prop :=
  view.size = bytes.length ∧ bytes.length < 2 ^ 64 ∧
    (bytes = [] ∨ ∃ more, view.data = some (bytes ++ more))

/-- The section has the bytes at the offset. -/
def SectionView.Has (view : SectionView) (offset : Nat) (bytes : List UInt8) : Prop :=
  ∃ rest, Cursor.Over ⟨view.data, view.size, offset⟩ (bytes ++ rest)

section Has

variable {view : SectionView} {offset : Nat} {bytes : List UInt8} {α : Type} {m : Reader Cursor α}

theorem SectionView.seek_run {rest : List UInt8}
    (ahead : Cursor.Over ⟨view.data, view.size, offset⟩ rest) :
    (do
      Cursor.seek offset
      m).run view.cursor = m.run ⟨view.data, view.size, offset⟩ := by
  have inside : offset + rest.length = view.size := ahead.position_add
  exact Reader.run_bind_eq (Cursor.seek_cursor (by omega))

/-- What is read at an offset is what is there. -/
theorem SectionView.Has.attempt_some {a : α} (has : view.Has offset bytes)
    (reads : Reads m bytes a) :
    Reader.attempt (do
      Cursor.seek offset
      m) view.cursor = .ok (some a) := by
  obtain ⟨rest, ahead⟩ := has
  rw [Reader.attempt, SectionView.seek_run ahead, reads _ rest ahead]

end Has

/-- Where the parts of a unit are in a file, and the sections of the file. -/
structure Encoding : Type where
  wide : Bool
  code : Nat
  hasChildren : UInt8
  children : List UInt8
  earlier : List Declaration
  abbrevOffset : Nat
  line : Nat
  ranges : Nat
  addrBase : Nat
  strOffsetsBase : Nat
  rnglistsBase : Nat
  listOffsets : List Nat
  info : Cursor
  abbrevs : SectionView
  tables : Tables

namespace Encoding

variable (e : Encoding)

def offsetSize : Nat := if e.wide then 8 else 4

/-- The place that an attribute is about. -/
def target (attr : Nat) : Nat :=
  if attr = dwAtStmtList then e.line
  else if attr = dwAtRanges then e.ranges
  else if attr = dwAtAddrBase then e.addrBase
  else if attr = dwAtStrOffsetsBase then e.strOffsetsBase
  else e.rnglistsBase

/-- The form of a value in this format. -/
def form : AttributeValue → Nat
  | .datum datum => datum.form
  | .implicit _ => dwFormImplicitConst
  | .pointer form => (form.datum e.wide 0).form

/-- The bytes of a value in this format. -/
def valueBytes (addressSize : Nat) : Nat × AttributeValue → List UInt8
  | (_, .datum datum) => datum.bytes addressSize e.offsetSize
  | (_, .implicit _) => []
  | (attr, .pointer form) => (form.datum e.wide (e.target attr)).bytes addressSize e.offsetSize

/-- What the abbreviation declares of an attribute. -/
def declaration (declared : Nat × AttributeValue) : AbbreviationAttribute :=
  ⟨declared.1, e.form declared.2, declared.2.constant⟩

/-- The abbreviation of the root entry. -/
def root (unit : AbstractUnit) : Declaration :=
  ⟨e.code, e.hasChildren, dwTagCompileUnit, unit.attributes.map e.declaration⟩

/-- The abbreviations up to that of the root entry. -/
def abbrevBytes (unit : AbstractUnit) : List UInt8 :=
  e.earlier.flatMap Declaration.bytes ++ (e.root unit).bytes

/-- The root entry. -/
def rootBytes (unit : AbstractUnit) : List UInt8 :=
  encodeUleb e.code ++ unit.attributes.flatMap (e.valueBytes unit.addressSize)

/-- What follows the version. -/
def headBytes (unit : AbstractUnit) : List UInt8 :=
  if 5 ≤ unit.version then
    toBytes 1 dwUtCompile ++ (toBytes 1 unit.addressSize ++ toBytes e.offsetSize e.abbrevOffset)
  else toBytes e.offsetSize e.abbrevOffset ++ toBytes 1 unit.addressSize

/-- What the length of the unit counts. -/
def body (unit : AbstractUnit) : List UInt8 :=
  toBytes 2 unit.version ++ (e.headBytes unit ++ (e.rootBytes unit ++ e.children))

/-- The line program in this format. -/
def lines (unit : AbstractUnit) : LineUnit := { unit.lines with wide := e.wide }

end Encoding

/-- The file holds the unit: its entry, its abbreviation, and whatever its attributes refer to
where they refer to it. -/
structure Encodes (unit : AbstractUnit) (e : Encoding) : Prop where
  code : e.code ≠ 0 ∧ e.code < 2 ^ 64
  length : e.wide = false → (e.body unit).length < reservedUnitLength
  info : ∃ rest, e.info.Over (frameBytes e.wide (e.body unit).length ++ (e.body unit ++ rest))
  abbrevs : e.abbrevs.Has e.abbrevOffset (e.abbrevBytes unit)
  earlier : ∀ other ∈ e.earlier, other.WellFormed ∧ other.code ≠ e.code
  offsets : e.abbrevOffset < 256 ^ e.offsetSize ∧ e.line < 256 ^ e.offsetSize ∧
    e.ranges < 256 ^ e.offsetSize ∧ e.addrBase < 256 ^ e.offsetSize ∧
    e.strOffsetsBase < 256 ^ e.offsetSize ∧ e.rnglistsBase < 256 ^ e.offsetSize
  plain : e.tables.offsetSize = 4 ∧ e.tables.strOffsetsBase = 0 ∧ e.tables.workingDirectory = []
  str : e.tables.debugStr.Is unit.str
  lineStr : e.tables.debugLineStr.Is unit.lineStr
  strOffsets : (unit.value? dwAtStrOffsetsBase).isSome → 0 < e.strOffsetsBase ∧
    e.tables.debugStrOffsets.Has e.strOffsetsBase (unit.strOffsets.flatMap (toBytes e.offsetSize))
  addresses : (unit.value? dwAtAddrBase).isSome → 0 < e.addrBase ∧
    e.tables.debugAddr.Has e.addrBase (unit.addresses.flatMap (toBytes unit.addressSize))
  legacyRanges : e.tables.debugRanges.Is unit.legacyRanges
  offsetTable : (unit.value? dwAtRnglistsBase).isSome → 0 < e.rnglistsBase ∧
    e.tables.debugRnglists.Has e.rnglistsBase (e.listOffsets.flatMap (toBytes e.offsetSize)) ∧
    (∀ offset ∈ e.listOffsets, offset < 256 ^ e.offsetSize) ∧
    ∀ (index : Nat) (list : List RangeItem), unit.rangeLists[index]? = some list →
      ∃ offset, e.listOffsets[index]? = some offset ∧
        e.tables.debugRnglists.Has (e.rnglistsBase + offset) (listBytes unit.addressSize list)
  rangeList : ∀ form, unit.value? dwAtRanges = some (.pointer form) →
    if unit.version < 5 then e.ranges = unit.ranges
    else ∃ list, unit.rangeLists[unit.ranges]? = some list ∧
      e.tables.debugRnglists.Has e.ranges (listBytes unit.addressSize list)
  line : (unit.value? dwAtStmtList).isSome → e.tables.debugLine.Has e.line (e.lines unit).encode ∧
    (e.lines unit).Headed { e.tables with addressSize := unit.addressSize }

/-! ## The values of the attributes -/

theorem Encoding.four_le (e : Encoding) : 256 ^ 4 ≤ 256 ^ e.offsetSize := by
  unfold Encoding.offsetSize
  split <;> decide

theorem Datum.WellFormed.widen {addressSize : Nat} {datum : Datum} (e : Encoding)
    (wellFormed : datum.WellFormed addressSize 4) : datum.WellFormed addressSize e.offsetSize := by
  induction datum with
  | offset form value => exact ⟨wellFormed.1, lt_of_lt_of_le wellFormed.2 e.four_le⟩
  | indirect datum ih => exact ih wellFormed
  | fixed | index | address | number | anyIndex | signed | string | block | anyBlock | sixteen |
    present => exact wellFormed

/-- An index is what the reader is told is one. -/
theorem Datum.meaning_indexed (tables : Tables) (datum : Datum) :
    (datum.meaning tables).indexed = datum.index?.isSome := by
  induction datum with
  | indirect datum ih => exact ih
  | fixed | index | address | offset | number | anyIndex | signed | string | block | anyBlock |
    sixteen | present => rfl

theorem Datum.meaning_value {tables : Tables} {datum : Datum} {index : Nat}
    (found : datum.index? = some index) : (datum.meaning tables).value = index := by
  induction datum with
  | indirect datum ih => exact ih found
  | index form width value => exact Option.some.inj found
  | anyIndex form value => exact Option.some.inj found
  | fixed | address | offset | number | signed | string | block | anyBlock | sixteen |
    present => cases found

namespace PointerForm

variable {form : PointerForm} {value : Nat}

theorem wellFormed {e : Encoding} {addressSize : Nat} (small : value < 256 ^ e.offsetSize) :
    (form.datum e.wide value).WellFormed addressSize e.offsetSize := by
  induction form with
  | secOffset => exact ⟨by decide, small⟩
  | data =>
      unfold Encoding.offsetSize at small
      unfold datum
      cases wide : e.wide with
      | true =>
          rw [wide] at small
          exact ⟨by decide, small⟩
      | false =>
          rw [wide] at small
          exact ⟨by decide, small⟩
  | indirect form ih => exact ih

theorem meaning (wide : Bool) (tables : Tables) :
    (form.datum wide value).meaning tables = { value := value } := by
  induction form with
  | secOffset => rfl
  | data => cases wide <;> rfl
  | indirect form ih => exact ih

theorem form_datum (wide : Bool) : (form.datum wide value).form = (form.datum wide 0).form := by
  cases form with
  | data => cases wide <;> rfl
  | secOffset | indirect => rfl

/-- No place is written as the index of a range list. -/
theorem form_ne (wide : Bool) : (form.datum wide value).form ≠ dwFormRnglistx := by
  cases form with
  | data => cases wide <;> exact of_decide_eq_true rfl
  | secOffset | indirect => exact of_decide_eq_true rfl

end PointerForm

/-- What a value means to the reader of the file. -/
def Encoding.meaning (e : Encoding) (tables : Tables) : Nat × AttributeValue → FormValue
  | (_, .datum datum) => datum.meaning tables
  | (_, .implicit value) => { value := (value % 2 ^ 64).toNat }
  | (attr, .pointer _) => { value := e.target attr }

/-- What the reader keeps of an attribute. -/
def Encoding.found (e : Encoding) (tables : Tables) (declared : Nat × AttributeValue) : Found :=
  ⟨declared.1, e.form declared.2, e.meaning tables declared⟩

/-- The tables as the reader of the unit has them for its attributes. -/
def Encoding.own (e : Encoding) (unit : AbstractUnit) : Tables :=
  { e.tables with offsetSize := e.offsetSize, addressSize := unit.addressSize }

theorem SectionView.Is.sound {view : SectionView} {bytes : List UInt8} (is : view.Is bytes) :
    view.Sound := by
  obtain ⟨size, small, empty | ⟨more, data⟩⟩ := is
  · exact ⟨.inl (by rw [size, empty]; rfl), size.trans_lt small⟩
  · refine ⟨.inr ⟨_, data, ?_⟩, size.trans_lt small⟩
    rw [size, List.length_append]
    exact Nat.le_add_right _ _

section Root

variable {unit : AbstractUnit} {e : Encoding}

theorem Encodes.readable (encodes : Encodes unit e) (wellFormed : unit.WellFormed) :
    (e.own unit).Readable where
  debugStr := encodes.str.sound
  debugLineStr := encodes.lineStr.sound
  address_pos := wellFormed.address.1
  address_le := wellFormed.address.2
  offset_pos := by
    simp only [Encoding.own, Encoding.offsetSize]
    split <;> decide
  offset_le := by
    simp only [Encoding.own, Encoding.offsetSize]
    split <;> decide

theorem Encodes.target_lt (encodes : Encodes unit e) (attr : Nat) :
    e.target attr < 256 ^ e.offsetSize := by
  obtain ⟨-, line, ranges, addrBase, strOffsetsBase, rnglistsBase⟩ := encodes.offsets
  unfold Encoding.target
  split
  · exact line
  · split
    · exact ranges
    · split
      · exact addrBase
      · split
        · exact strOffsetsBase
        · exact rnglistsBase

/-- Every value of the root entry is read back. -/
theorem Encodes.value_reads (encodes : Encodes unit e) (wellFormed : unit.WellFormed)
    {declared : Nat × AttributeValue} (fits : unit.Fits declared) :
    Reads (readForm (e.own unit) (e.declaration declared) (e.declaration declared).form)
      (e.valueBytes unit.addressSize declared) (e.meaning (e.own unit) declared) := by
  have readable := encodes.readable wellFormed
  obtain ⟨attr, value⟩ := declared
  cases value with
  | datum datum => exact readForm_reads readable (Datum.WellFormed.widen e fits.1)
  | implicit value =>
      refine Reads.turns_bind fun fuel enough => ?_
      obtain ⟨fuel, rfl⟩ := Nat.exists_eq_succ_of_ne_zero (Nat.ne_zero_of_lt enough)
      exact .pure _
  | pointer form =>
      have small : (form.datum e.wide (e.target attr)).WellFormed (e.own unit).addressSize
          (e.own unit).offsetSize := PointerForm.wellFormed (encodes.target_lt attr)
      have reads := @readForm_reads _ (e.declaration (attr, .pointer form)) readable _ small
      rw [PointerForm.meaning, PointerForm.form_datum] at reads
      exact reads

theorem Encoding.form_bounds (e : Encoding) {declared : Nat × AttributeValue}
    (fits : unit.Fits declared) : e.form declared.2 ≠ 0 ∧ e.form declared.2 < 128 := by
  obtain ⟨attr, value⟩ := declared
  cases value with
  | datum datum => exact ⟨(Datum.form_plain fits.1).2.1, (Datum.form_plain fits.1).1⟩
  | implicit value => exact of_decide_eq_true rfl
  | pointer form =>
      have small : (form.datum e.wide 0).WellFormed unit.addressSize e.offsetSize :=
        PointerForm.wellFormed (Nat.pow_pos (by decide))
      exact ⟨(Datum.form_plain small).2.1, (Datum.form_plain small).1⟩

theorem Encoding.declaration_wellFormed (e : Encoding) {declared : Nat × AttributeValue}
    (code : declared.1 < 2 ^ 64) (fits : unit.Fits declared) :
    (e.declaration declared).WellFormed := by
  have bounds := e.form_bounds fits
  refine ⟨code, lt_trans bounds.2 (by decide), fun both => bounds.1 both.2, ?_⟩
  obtain ⟨attr, value⟩ := declared
  cases value with
  | datum datum => exact (if_neg (Datum.form_plain fits.1).2.2).mpr rfl
  | implicit value => exact ⟨fits.2.1, fits.2.2⟩
  | pointer form =>
      have small : (form.datum e.wide 0).WellFormed unit.addressSize e.offsetSize :=
        PointerForm.wellFormed (Nat.pow_pos (by decide))
      exact (if_neg (Datum.form_plain small).2.2).mpr rfl

theorem Encodes.root_wellFormed (encodes : Encodes unit e) (wellFormed : unit.WellFormed) :
    (e.root unit).WellFormed where
  code := encodes.code
  tag := of_decide_eq_true rfl
  few := by
    rw [Encoding.root, List.length_map]
    exact wellFormed.few
  attributes := by
    intro declared member
    obtain ⟨origin, listed, rfl⟩ := List.mem_map.mp member
    exact e.declaration_wellFormed (wellFormed.codes origin listed) (wellFormed.fits origin listed)

/-- The abbreviation of the root entry is found. -/
theorem Encodes.abbreviation (encodes : Encodes unit e) (wellFormed : unit.WellFormed) :
    Reader.attempt (do
      Cursor.seek e.abbrevOffset
      readAbbreviation e.code) e.abbrevs.cursor =
      .ok (some ⟨dwTagCompileUnit, unit.attributes.map e.declaration⟩) := by
  refine encodes.abbrevs.attempt_some (Reads.turns_bind fun fuel enough => ?_)
  have long : e.earlier.length < fuel := by
    have := length_le_flatMap Declaration.bytes_pos e.earlier
    rw [Encoding.abbrevBytes, List.length_append] at enough
    omega
  exact findAbbreviation_reads encodes.earlier (encodes.root_wellFormed wellFormed) long

/-- What is kept of the root entry is what was encoded of it. -/
theorem Encodes.readFound_reads (encodes : Encodes unit e) (wellFormed : unit.WellFormed)
    {attributes kept : List (Nat × AttributeValue)}
    (fits : ∀ declared ∈ attributes, unit.Fits declared) :
    Reads (readFound (e.own unit) (attributes.map e.declaration) (kept.map (e.found (e.own unit))))
      (attributes.flatMap (e.valueBytes unit.addressSize))
      ((attributes.foldl keepAttribute kept).map (e.found (e.own unit))) := by
  induction attributes generalizing kept with
  | nil => exact .pure _
  | cons declared attributes ih =>
      have tracked : track (kept.map (e.found (e.own unit))) (e.declaration declared)
          (e.meaning (e.own unit) declared) =
            (keepAttribute kept declared).map (e.found (e.own unit)) := by
        rw [track, keepAttribute, List.length_map, apply_ite (List.map (e.found (e.own unit))),
          List.map_append]
        rfl
      have rest := @ih (keepAttribute kept declared) fun d member => fits d (by simp [member])
      rw [← tracked] at rest
      exact (encodes.value_reads wellFormed (fits declared (by simp))).orElse rest

/-- The root entry is read as what its attributes say. -/
theorem Encodes.readRoot_reads (encodes : Encodes unit e) (wellFormed : unit.WellFormed)
    {resolved : CompilationUnit}
    (resolves : resolveUnit (e.own unit) unit.version (unit.tracked.map (e.found (e.own unit))) =
      .ok resolved) :
    Reads (readRoot e.abbrevs (e.own unit) unit.version e.abbrevOffset) (e.rootBytes unit)
      resolved := by
  refine Reads.orElse ((Reads.uleb encodes.code.2).bind_pure
    ((Reads.require (decide_eq_true encodes.code.1)).bind_nil (.pure _))) ?_
  refine (Reads.ofExcept (encodes.abbreviation wellFormed)).bind_nil ?_
  have found : Reads (readFound (e.own unit) (unit.attributes.map e.declaration) [])
      (unit.attributes.flatMap (e.valueBytes unit.addressSize))
      (unit.tracked.map (e.found (e.own unit))) :=
    @Encodes.readFound_reads unit e encodes wellFormed unit.attributes [] wellFormed.fits
  simp only [ne_eq, not_true_eq_false, if_false]
  exact found.bind_pure (.ofExcept resolves)

/-- A unit is read as what its attributes say. -/
theorem Encodes.readUnitContents_reads (encodes : Encodes unit e) (wellFormed : unit.WellFormed)
    {resolved : CompilationUnit}
    (resolves : resolveUnit (e.own unit) unit.version (unit.tracked.map (e.found (e.own unit))) =
      .ok resolved) :
    Reads (readUnitContents e.abbrevs { e.tables with offsetSize := e.offsetSize })
      (toBytes 2 unit.version ++ (e.headBytes unit ++ e.rootBytes unit)) resolved := by
  obtain ⟨least, most⟩ := wellFormed.version
  have readable := encodes.readable wellFormed
  have known : (2 ≤ unit.version && unit.version ≤ 5 : Bool) = true := by simp [least, most]
  have address : Reads (Cursor.fixed 1) (toBytes 1 unit.addressSize) unit.addressSize := by
    have := wellFormed.address.2
    exact .fixed (by decide) (by decide) (by omega)
  have offset : Reads (Cursor.fixed e.offsetSize) (toBytes e.offsetSize e.abbrevOffset)
      e.abbrevOffset := .fixed readable.offset_pos readable.offset_le encodes.offsets.1
  have root := encodes.readRoot_reads wellFormed resolves
  refine Reads.orElse ((Reads.fixed (by decide) (by decide) (by omega)).bind_pure
    ((Reads.require known).bind_nil (.pure _))) ?_
  unfold readUnitBody Encoding.headBytes
  split
  · simp only [List.append_assoc]
    refine Reads.orElse (.fixed (by decide) (by decide) (by decide)) (address.orElse ?_)
    rw [if_neg (fun other => other rfl)]
    exact offset.orElse root
  · simp only [List.append_assoc]
    exact offset.orElse (address.orElse root)

theorem Encodes.readUnit_ok (encodes : Encodes unit e) (wellFormed : unit.WellFormed)
    {resolved : CompilationUnit}
    (resolves : resolveUnit (e.own unit) unit.version (unit.tracked.map (e.found (e.own unit))) =
      .ok resolved) :
    ∃ next c, (readUnit e.abbrevs e.tables).run e.info = .ok ((resolved, next), c) := by
  obtain ⟨rest, ahead⟩ := encodes.info
  have small := ahead.small
  have inside := ahead.position_add
  have bound : (e.body unit).length < if e.wide then 2 ^ 64 else reservedUnitLength := by
    split
    · rw [List.length_append, List.length_append] at inside
      omega
    · next narrow => exact encodes.length (Bool.eq_false_iff.mpr narrow)
  have offsetSize : (if e.wide then 8 else e.tables.offsetSize) = e.offsetSize := by
    rw [encodes.plain.1]
    rfl
  have contents : (e.info.advance (frameBytes e.wide (e.body unit).length).length).Over
      (toBytes 2 unit.version ++ (e.headBytes unit ++ e.rootBytes unit) ++
        (e.children ++ rest)) := by
    have behind := ahead.advance
    simp only [Encoding.body, List.append_assoc] at behind ⊢
    exact behind
  rw [readUnit, Reader.run_bind_eq (readUnitLength_frame bound ahead e.tables.offsetSize),
    offsetSize, Reader.run_bind_eq (LineUnit.get_run _),
    (encodes.readUnitContents_reads wellFormed resolves).run_bind contents]
  exact ⟨_, _, rfl⟩

end Root

end Fpag.Debug
