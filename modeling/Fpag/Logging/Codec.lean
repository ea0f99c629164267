import Fpag.Lib.Bytes

/-!
`logging/async/codec`: how one argument of a log call crosses the queue.

A value of a trivially copyable type is its object representation. Strings of the
three kinds cross as their bytes and come back as a view of them, and a vector of
trivially copyable elements crosses as the representations of its elements in a row.
-/

namespace Fpag.Logging

/-- The object representation of a trivially copyable object of `n` bytes. -/
abbrev Object (n : Nat) : Type := { bytes : List UInt8 // bytes.length = n }

/-- The argument types that have a codec, by the `sizeof` of what they hold. -/
inductive ArgType : Type
  | trivial (size : Nat) (pos : 0 < size)
  | string
  | stringView
  | cString
  | vector (element : Nat) (pos : 0 < element)
  deriving DecidableEq

namespace ArgType

/-- The values of an argument type. A C string holds no zero byte. -/
def Value : ArgType → Type
  | .trivial size _ => Object size
  | .string => List UInt8
  | .stringView => List UInt8
  | .cString => { bytes : List UInt8 // (0 : UInt8) ∉ bytes }
  | .vector element _ => List (Object element)

/-- `Codec::DecodedType`. -/
def Decoded : ArgType → Type
  | .trivial size _ => Object size
  | .string => List UInt8
  | .stringView => List UInt8
  | .cString => List UInt8
  | .vector element _ => List (Object element)

/-- An original value as a value of the decoded type. -/
def asDecoded : (type : ArgType) → type.Value → type.Decoded
  | .trivial _ _, value => value
  | .string, value => value
  | .stringView, value => value
  | .cString, value => value.val
  | .vector _ _, value => value

/-- `Codec::is_fixed_size`. -/
def isFixedSize : ArgType → Bool
  | .trivial _ _ => true
  | _ => false

/-- `Codec::body_size`, of the fixed-size types. -/
def bodySize : ArgType → Nat
  | .trivial size _ => size
  | _ => 0

/-- `Codec::encoded_size`. -/
def encodedSize : (type : ArgType) → type.Value → Nat
  | .trivial size _, _ => size
  | .string, value => List.length value
  | .stringView, value => List.length value
  | .cString, value => value.val.length
  | .vector element _, value => element * List.length value

/-- `Codec::encode`: the bytes it writes. -/
def encode : (type : ArgType) → type.Value → List UInt8
  | .trivial _ _, value => value.val
  | .string, value => value
  | .stringView, value => value
  | .cString, value => value.val
  | .vector _ _, value => (List.map Subtype.val value).flatten

/-- The objects a `memcpy` of all of `bytes` fills, `count` of them in a row; `none` when the
bytes are not as many as the objects have. -/
def objects (n : Nat) : Nat → List UInt8 → Option (List (Object n))
  | 0, [] => some []
  | 0, _ :: _ => none
  | count + 1, bytes =>
      if whole : (bytes.take n).length = n then
        (objects n count (bytes.drop n)).map (⟨bytes.take n, whole⟩ :: ·)
      else none

/-- `Codec::decode`, of a body that is exactly `bytes`; `none` is a copy that does not fit the
object it goes to. -/
def decode : (type : ArgType) → List UInt8 → Option type.Decoded
  | .trivial size _, bytes => if whole : bytes.length = size then some ⟨bytes, whole⟩ else none
  | .string, bytes => some bytes
  | .stringView, bytes => some bytes
  | .cString, bytes => some bytes
  | .vector element _, bytes => objects element (bytes.length / element) bytes

theorem length_flatten {n : Nat} (values : List (Object n)) :
    (values.map Subtype.val).flatten.length = n * values.length := by
  induction values with
  | nil => rfl
  | cons value values ih =>
      rw [List.map_cons, List.flatten_cons, List.length_append, value.property, ih,
        List.length_cons, Nat.mul_succ, Nat.add_comm]

theorem objects_flatten {n : Nat} (values : List (Object n)) :
    objects n values.length (values.map Subtype.val).flatten = some values := by
  induction values with
  | nil => rfl
  | cons value values ih =>
      have front : (value.val ++ (values.map Subtype.val).flatten).take n = value.val := by
        rw [List.take_append_of_le_length (Nat.le_of_eq value.property.symm),
          List.take_of_length_le (Nat.le_of_eq value.property)]
      have back : (value.val ++ (values.map Subtype.val).flatten).drop n
          = (values.map Subtype.val).flatten :=
        List.drop_left' value.property
      rw [List.length_cons, objects, List.map_cons, List.flatten_cons]
      simp only [front, back, value.property, ih, Option.map_some, dif_pos]

theorem objects_all {n : Nat} (pos : 0 < n) (values : List (Object n)) :
    objects n ((values.map Subtype.val).flatten.length / n) (values.map Subtype.val).flatten
      = some values := by
  rw [length_flatten, Nat.mul_div_cancel_left _ pos, objects_flatten]

/-- A body has the size that was announced for it. -/
theorem length_encode : (type : ArgType) → (value : type.Value) →
    (type.encode value).length = type.encodedSize value
  | .trivial _ _, value => value.property
  | .string, _ => rfl
  | .stringView, _ => rfl
  | .cString, _ => rfl
  | .vector _ _, value => length_flatten value

theorem encodedSize_of_isFixedSize {type : ArgType} (fixed : type.isFixedSize = true)
    (value : type.Value) : type.encodedSize value = type.bodySize := by
  cases type with
  | trivial size pos => rfl
  | _ => cases fixed

/-- What was encoded is decoded. -/
theorem decode_encode : (type : ArgType) → (value : type.Value) →
    type.decode (type.encode value) = some (type.asDecoded value)
  | .trivial _ _, value => dif_pos value.property
  | .string, _ => rfl
  | .stringView, _ => rfl
  | .cString, _ => rfl
  | .vector _ pos, value => objects_all pos value

end ArgType

/-- One argument of a log call. -/
structure Arg : Type where
  type : ArgType
  value : type.Value

/-- One argument as the deserializer hands it to the formatter. -/
structure DecodedArg : Type where
  type : ArgType
  value : type.Decoded

def Arg.asDecoded (arg : Arg) : DecodedArg := ⟨arg.type, arg.type.asDecoded arg.value⟩

end Fpag.Logging
