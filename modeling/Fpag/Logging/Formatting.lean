import Mathlib.Data.List.TakeWhile
import Fpag.Logging.Deserializer
import Fpag.Logging.LogLevel

/-!
The arguments of a log call as the caller has them, and as `fmt` is given them.

An argument refers to storage of the caller: the characters of a string, the object of a
value, what a pointer points to. What a logger hands to `fmt` is read from that storage,
by the synchronous logger at once, by the asynchronous one through the codec that the
decayed type of the argument selects. A `char*` selects the codec of trivially copyable
types, which copies the pointer; `fmt` follows it when the worker formats the record.

`fmt` is a parameter, with what its documentation says of it (`Documented`).
Pointers and `usize` have eight bytes here.
-/

namespace Fpag.Logging

/-! ## Storage -/

/-- The storage of the caller at one moment. -/
abbrev Storage : Type := List UInt8

namespace Storage

/-- The object of `n` bytes at an address, when it lies in the storage. -/
def objectAt (mem : Storage) (address : BitVec 64) (n : Nat) : Option (Object n) :=
  if whole : ((mem.drop address.toNat).take n).length = n then
    some ⟨(mem.drop address.toNat).take n, whole⟩
  else none

/-- The characters up to the terminating zero. -/
def cStringAt (mem : Storage) (address : BitVec 64) :
    Option { bytes : List UInt8 // (0 : UInt8) ∉ bytes } :=
  let bytes := (mem.drop address.toNat).takeWhile fun c => c ≠ 0
  if bytes.length < (mem.drop address.toNat).length then
    some ⟨bytes, fun zero => by simpa using List.mem_takeWhile_imp zero⟩
  else none

end Storage

/-! ## Arguments -/

/-- An argument of a log call. -/
inductive Argument : Type
  | string (address : BitVec 64) (size : Nat)
  | stringView (address : BitVec 64) (size : Nat)
  | constCharPtr (address : BitVec 64)
  | charPtr (address : BitVec 64)
  | constCharArray (address : BitVec 64)
  | charArray (address : BitVec 64)
  | value (address : BitVec 64) (size : Nat) (pos : 0 < size)
  | vector (address : BitVec 64) (count element : Nat) (pos : 0 < element)

/-- An argument of `fmt`: an object of a type with a formatter of its own, a string, a
terminated string, or a range of objects. -/
inductive FmtArg : Type
  | object (bytes : List UInt8)
  | string (bytes : List UInt8)
  | cstring (address : BitVec 64) (bytes : List UInt8)
  | range (objects : List (List UInt8))
  deriving DecidableEq

namespace Argument

/-- `std::decay_t`: an array of characters decays to a pointer to its first one. -/
def decay : Argument → Argument
  | .constCharArray address => .constCharPtr address
  | .charArray address => .charPtr address
  | arg => arg

/-- The decayed type is `char*`. -/
def isCharPtr (arg : Argument) : Bool :=
  match arg.decay with
  | .charPtr _ => true
  | _ => false

/-- The objects of a vector. -/
def objectsAt (mem : Storage) (address : BitVec 64) (count element : Nat) :
    Option (List (Object element)) :=
  (mem.objectAt address (element * count)).bind fun body => ArgType.objects element count body.val

/-- What the codec of the decayed type encodes of the argument. -/
def encoded (mem : Storage) (arg : Argument) : Option Arg :=
  match arg.decay with
  | .string address size => (mem.objectAt address size).map fun body => ⟨.string, body.val⟩
  | .stringView address size => (mem.objectAt address size).map fun body => ⟨.stringView, body.val⟩
  | .constCharPtr address => (mem.cStringAt address).map fun chars => ⟨.cString, chars⟩
  | .charPtr address =>
      -- Trivially copyable: the pointer itself.
      some ⟨.trivial 8 (by decide), ⟨toBytes 8 address.toNat, length_toBytes 8 address.toNat⟩⟩
  | .value address size pos => (mem.objectAt address size).map fun body => ⟨.trivial size pos, body⟩
  | .vector address count element pos =>
      (objectsAt mem address count element).map fun objects => ⟨.vector element pos, objects⟩
  | _ => none

/-- What `fmt` is given of the argument itself. -/
def given (mem : Storage) (arg : Argument) : Option FmtArg :=
  match arg.decay with
  | .string address size => (mem.objectAt address size).map fun body => .string body.val
  | .stringView address size => (mem.objectAt address size).map fun body => .string body.val
  | .constCharPtr address => (mem.cStringAt address).map fun chars => .cstring address chars.val
  | .charPtr address => (mem.cStringAt address).map fun chars => .cstring address chars.val
  | .value address size _ => (mem.objectAt address size).map fun body => .object body.val
  | .vector address count element _ =>
      (objectsAt mem address count element).map fun objects => .range (objects.map Subtype.val)
  | _ => none

end Argument

/-- What `fmt` is given of a decoded argument, by the storage at that time: a `char*` is followed
then. -/
def DecodedArg.given (mem : Storage) (isCharPtr : Bool) (arg : DecodedArg) : Option FmtArg :=
  match arg with
  | ⟨.trivial _ _, object⟩ =>
      if isCharPtr then
        let address := BitVec.ofNat 64 (ofBytes object.val)
        (mem.cStringAt address).map fun chars => .cstring address chars.val
      else some (.object object.val)
  | ⟨.string, chars⟩ => some (.string chars)
  | ⟨.stringView, chars⟩ => some (.string chars)
  | ⟨.cString, chars⟩ => some (.string chars)
  | ⟨.vector _ _, objects⟩ => some (.range (List.map Subtype.val objects))

/-! ## The formatter -/

/-- `fmt` without arguments: doubled braces become single ones, and there is no argument for a
replacement field. -/
def unescape : List UInt8 → Option (List UInt8)
  | [] => some []
  | 123 :: 123 :: rest => (unescape rest).map (123 :: ·)
  | 125 :: 125 :: rest => (unescape rest).map (125 :: ·)
  | 123 :: _ => none
  | 125 :: _ => none
  | c :: rest => (unescape rest).map (c :: ·)

/-- The replacement field of the argument with this index. -/
def field (index : Nat) : List UInt8 := 123 :: (text (Nat.repr index) ++ [125])

/-- A function from a format string and arguments to text; `none` is a `format_error`. -/
abbrev Fmt : Type := List UInt8 → List FmtArg → Option (List UInt8)

/-- What the documentation says of `fmt`; `pointers` are the indices of the arguments that a
format string presents as pointers. -/
structure Documented (fmt : Fmt) (pointers : List UInt8 → List Nat) : Prop where
  /-- Without arguments there is only text and doubled braces. -/
  noArguments : ∀ format, fmt format [] = unescape format
  /-- A terminated string is formatted by its characters, like any string, unless it is
  presented as a pointer. -/
  strings : ∀ format (args others : List FmtArg), args.length = others.length →
    (∀ i arg other, args[i]? = some arg → others[i]? = some other → arg = other ∨
      ∃ address bytes, i ∉ pointers format ∧ arg = .cstring address bytes ∧
        other = .string bytes) →
    fmt format args = fmt format others
  /-- The replacement field of an index is the text of that argument. -/
  positional : ∀ (args : List FmtArg) i address bytes, args[i]? = some (.cstring address bytes) →
    fmt (field i) args = some bytes

/-- There is nothing for `fmt` to interpret. -/
def Plain (format : List UInt8) : Prop := ∀ c ∈ format, c ≠ 123 ∧ c ≠ 125

/-- Without arguments a text never gets longer, and keeps its length only when it is plain. -/
theorem unescape_length {format message : List UInt8} (h : unescape format = some message) :
    message.length ≤ format.length ∧ (message.length = format.length → Plain format) := by
  fun_induction unescape format generalizing message with
  | case1 =>
      cases h
      exact ⟨Nat.le_refl _, fun _ _ there => by cases there⟩
  | case2 rest ih =>
      obtain ⟨message, inner, rfl⟩ := Option.map_eq_some_iff.mp h
      have short := (ih inner).1
      simp only [List.length_cons]
      exact ⟨by omega, fun same => by omega⟩
  | case3 rest ih =>
      obtain ⟨message, inner, rfl⟩ := Option.map_eq_some_iff.mp h
      have short := (ih inner).1
      simp only [List.length_cons]
      exact ⟨by omega, fun same => by omega⟩
  | case4 => cases h
  | case5 => cases h
  | case6 c rest _ _ open_ close ih =>
      obtain ⟨message, inner, rfl⟩ := Option.map_eq_some_iff.mp h
      obtain ⟨short, plain⟩ := ih inner
      simp only [List.length_cons, Nat.add_right_cancel_iff]
      refine ⟨by omega, fun same other there => ?_⟩
      rcases List.mem_cons.mp there with rfl | there
      · exact ⟨open_, close⟩
      · exact plain same other there

theorem unescape_of_plain {format : List UInt8} (plain : Plain format) :
    unescape format = some format := by
  fun_induction unescape format with
  | case1 => rfl
  | case2 rest ih => exact absurd rfl (plain 123 List.mem_cons_self).1
  | case3 rest ih => exact absurd rfl (plain 125 List.mem_cons_self).2
  | case4 => exact absurd rfl (plain 123 List.mem_cons_self).1
  | case5 => exact absurd rfl (plain 125 List.mem_cons_self).2
  | case6 c rest _ _ open_ close ih =>
      rw [ih fun other there => plain other (List.mem_cons_of_mem _ there)]
      rfl

/-- `fmt` leaves a text alone exactly when it has no braces. -/
theorem unescape_eq_self_iff {format : List UInt8} :
    unescape format = some format ↔ Plain format :=
  ⟨fun same => (unescape_length same).2 rfl, unescape_of_plain⟩

/-! ## A formatter -/

/-- The characters of an argument. -/
def FmtArg.shown : FmtArg → List UInt8
  | .object bytes => bytes
  | .string bytes => bytes
  | .cstring _ bytes => bytes
  | .range objects => objects.flatten

/-- The index of a replacement field. -/
def fieldIndex (format : List UInt8) : Nat :=
  Nat.ofDigitChars 10 ((format.drop 1).dropLast.map fun b => Char.ofNat b.toNat) 0

theorem fieldIndex_field (i : Nat) : fieldIndex (field i) = i := by
  have chars : (text (Nat.repr i)).map (fun b => Char.ofNat b.toNat) = Nat.toDigits 10 i := by
    rw [text, List.map_map, Nat.toList_repr]
    calc (Nat.toDigits 10 i).map ((fun b : UInt8 => Char.ofNat b.toNat) ∘
          fun c => UInt8.ofNat c.toNat)
        = (Nat.toDigits 10 i).map id := by
          refine List.map_congr_left fun c there => ?_
          have digit := Nat.isDigit_of_mem_toDigits (by decide) (by decide) there
          have small : c.toNat < 256 := by
            simp only [Char.isDigit, Bool.and_eq_true, decide_eq_true_eq] at digit
            have : c.val.toNat ≤ 57 := digit.2
            exact Nat.lt_of_le_of_lt this (by decide)
          simp [Nat.mod_eq_of_lt small]
      _ = Nat.toDigits 10 i := List.map_id _
  rw [fieldIndex, field, List.drop_succ_cons, List.drop_zero, List.dropLast_concat, chars,
    Nat.ofDigitChars_ten_toDigits]

/-- A formatter of one replacement field, which shows every argument by its characters. -/
def fieldFmt (format : List UInt8) (args : List FmtArg) : Option (List UInt8) :=
  match args.map FmtArg.shown with
  | [] => unescape format
  | first :: rest =>
      if format = field (fieldIndex format) then (first :: rest)[fieldIndex format]?
      else if format = [123, 125] then some first
      else none

/-- It does what the documentation says. -/
theorem documented_fieldFmt : Documented fieldFmt fun _ => [] := by
  refine ⟨fun format => rfl, fun format args others length likewise => ?_, ?_⟩
  · have same : args.map FmtArg.shown = others.map FmtArg.shown := by
      apply List.ext_getElem?
      intro i
      rw [List.getElem?_map, List.getElem?_map]
      rcases Nat.lt_or_ge i args.length with inside | outside
      · have inside' : i < others.length := by omega
        rw [List.getElem?_eq_getElem inside, List.getElem?_eq_getElem inside']
        rcases likewise i _ _ (List.getElem?_eq_getElem inside) (List.getElem?_eq_getElem inside')
          with same | ⟨address, bytes, -, here, there⟩
        · rw [same]
        · rw [here, there]
          rfl
      · rw [List.getElem?_eq_none outside, List.getElem?_eq_none (by omega)]
    simp only [fieldFmt, same]
  · intro args i address bytes there
    have shown : (args.map FmtArg.shown)[i]? = some bytes := by
      rw [List.getElem?_map, there]
      rfl
    simp only [fieldFmt]
    cases list : args.map FmtArg.shown with
    | nil =>
        rw [list] at shown
        cases shown
    | cons first rest =>
        rw [list] at shown
        simp only [fieldIndex_field, if_true]
        exact shown

end Fpag.Logging
