import Fpag.Logging.Serializer

/-!
`logging::Deserializer`: how a record is read back.

The worker reads the header of a record where the serializer wrote it, and the
deserializer that the header names decodes the arguments behind it, counting down what
remains. A record is the bytes of the reserved room: where the serializer wrote nothing
it may hold anything (`Fills`).
-/

namespace Fpag.Logging

variable {b : Nat}

/-- The record is one way to fill the slots. -/
structure Fills (slots : List (Option UInt8)) (record : List UInt8) : Prop where
  length : record.length = slots.length
  written : ∀ (i : Nat) (byte : UInt8), slots[i]? = some (some byte) → record[i]? = some byte

/-- Subtraction in `usize`. -/
def subtract (b x y : Nat) : Nat := wrap b (x + (256 ^ b - wrap b y))

/-- What `process_batch` reads of a record. -/
structure Header (b : Nat) : Type where
  payloadSize : Nat
  deserializer : BitVec (8 * b)
  level : UInt8
  deriving DecidableEq

/-- The three loads of `process_batch` from a record. -/
def readHeader (b : Nat) (record : List UInt8) : Option (Header b) :=
  match record[b + b]? with
  | some level => some ⟨ofBytes (record.take b),
      BitVec.ofNat (8 * b) (ofBytes ((record.drop b).take b)), level⟩
  | none => none

/-- The load of the format string, at the end of the smallest header. -/
def readFormat (b : Nat) (kind : FormatKind) (record : List UInt8) : Option (Format b) :=
  let slot := (record.drop (payloadMinHeaderSize b)).take (kind.slotSize b)
  match kind with
  | .compiled => some .compiled
  | .interned => some (.interned (BitVec.ofNat 32 (ofBytes slot)))
  | .view => if whole : slot.length = b + b then some (.view ⟨slot, whole⟩) else none

/-- The bytes behind the cursor, and `remaining_size`. -/
structure Input : Type where
  data : List UInt8
  remaining : Nat
  deriving DecidableEq

/-- The next `size` bytes, or nothing when the record ends before. -/
def Input.next (b : Nat) (input : Input) (size : Nat) : Option (List UInt8 × Input) :=
  if size ≤ input.data.length then
    some (input.data.take size, ⟨input.data.drop size, subtract b input.remaining size⟩)
  else none

/-- One turn of `Deserializer::decode_args`. -/
def decodeArg (b : Nat) (type : ArgType) (input : Input) : Option (DecodedArg × Input) :=
  if type.isFixedSize then do
    let (body, input) ← input.next b type.bodySize
    let value ← type.decode body
    pure (⟨type, value⟩, input)
  else do
    let (size, input) ← input.next b b
    let (body, input) ← input.next b (ofBytes size)
    let value ← type.decode body
    pure (⟨type, value⟩, input)

/-- `Deserializer::decode_args`, with what remains when it is done. -/
def decodeArgs (b : Nat) : List ArgType → Input → Option (List DecodedArg × Input)
  | [], input => some ([], input)
  | type :: types, input => do
      let (arg, input) ← decodeArg b type input
      let (args, input) ← decodeArgs b types input
      pure (arg :: args, input)

/-- What `Deserializer::deserialize` hands to the formatter, and what remains then. -/
structure Decoded (b : Nat) : Type where
  format : Format b
  args : List DecodedArg
  remaining : Nat

/-- `Deserializer::deserialize` of one instance, up to the formatting. -/
def deserialize (b : Nat) (kind : FormatKind) (types : List ArgType) (record : List UInt8)
    (totalPayloadSize : Nat) : Option (Decoded b) := do
  let format ← readFormat b kind record
  let size := subtract b totalPayloadSize (payloadHeaderSize b kind)
  let (args, input) ← decodeArgs b types ⟨record.drop (payloadHeaderSize b kind), size⟩
  pure ⟨format, args, input.remaining⟩

/-! ## Reading back -/

theorem two_pow_mul (b : Nat) : 2 ^ (8 * b) = 256 ^ b := Nat.pow_mul 2 8 b

theorem subtract_eq {x y : Nat} (le : y ≤ x) (lt : x < 256 ^ b) : subtract b x y = x - y := by
  simp only [subtract, wrap]
  rw [Nat.mod_eq_of_lt (by omega : y < 256 ^ b)]
  have : x + (256 ^ b - y) = x - y + 256 ^ b := by omega
  rw [this, Nat.add_mod_right, Nat.mod_eq_of_lt (by omega)]

theorem next_append (front back : List UInt8) {n : Nat} (lt : front.length + n < 256 ^ b) :
    Input.next b ⟨front ++ back, front.length + n⟩ front.length = some (front, ⟨back, n⟩) := by
  have enough : front.length ≤ (front ++ back).length := by simp
  rw [Input.next, if_pos enough]
  simp only [List.take_left, List.drop_left, subtract_eq (Nat.le_add_right _ _) lt,
    Nat.add_sub_cancel_left]

/-- One argument is decoded from what it contributed to the record. -/
theorem decodeArg_eq {arg : Arg} {rest : List UInt8} {n : Nat}
    (lt : (argBytes b arg).length + n < 256 ^ b) :
    decodeArg b arg.type ⟨argBytes b arg ++ rest, (argBytes b arg).length + n⟩
      = some (arg.asDecoded, ⟨rest, n⟩) := by
  by_cases fixed : arg.type.isFixedSize = true
  · have bytes : argBytes b arg = arg.type.encode arg.value := by rw [argBytes, if_pos fixed]
    have size : (argBytes b arg).length = arg.type.bodySize := by
      rw [length_argBytes, if_pos fixed]
    simp only [decodeArg, if_pos fixed, Option.bind_eq_bind]
    rw [← size, next_append _ _ lt, Option.bind_some, bytes, ArgType.decode_encode]
    rfl
  · have bytes : argBytes b arg
        = toBytes b (arg.type.encodedSize arg.value) ++ arg.type.encode arg.value := by
      rw [argBytes, if_neg fixed]
    have size : (argBytes b arg).length = b + (arg.type.encode arg.value).length := by
      rw [bytes, List.length_append, length_toBytes]
    have slot := next_append (b := b) (toBytes b (arg.type.encodedSize arg.value))
      (arg.type.encode arg.value ++ rest) (n := (arg.type.encode arg.value).length + n)
      (by rw [length_toBytes]; omega)
    have body := next_append (b := b) (arg.type.encode arg.value) rest (n := n)
      (by omega)
    have length : ofBytes (toBytes b (arg.type.encodedSize arg.value))
        = (arg.type.encode arg.value).length := by
      rw [ofBytes_toBytes, ← ArgType.length_encode, Nat.mod_eq_of_lt (by omega)]
    rw [length_toBytes] at slot
    simp only [decodeArg, if_neg fixed, Option.bind_eq_bind]
    rw [size, bytes, List.append_assoc, Nat.add_assoc, slot, Option.bind_some, length, body,
      Option.bind_some, ArgType.decode_encode]
    rfl

theorem decodeArgs_eq (args : List Arg) (rest : List UInt8) {n : Nat}
    (lt : (argsBytes b args).length + n < 256 ^ b) :
    decodeArgs b (args.map Arg.type) ⟨argsBytes b args ++ rest, (argsBytes b args).length + n⟩
      = some (args.map Arg.asDecoded, ⟨rest, n⟩) := by
  induction args with
  | nil =>
      simp [decodeArgs, argsBytes]
  | cons arg args ih =>
      rw [argsBytes_cons, List.length_append, Nat.add_assoc] at lt
      rw [argsBytes_cons, List.length_append, List.append_assoc, Nat.add_assoc, List.map_cons,
        decodeArgs, decodeArg_eq lt]
      simp only [Option.bind_eq_bind, Option.bind_some]
      rw [ih (by omega)]
      rfl

/-! ## Records -/

/-- Bytes that were written are read back. -/
theorem Fills.of_map {bytes : List UInt8} {slots : List (Option UInt8)} {record : List UInt8}
    (fills : Fills (bytes.map some ++ slots) record) :
    ∃ rest, record = bytes ++ rest ∧ Fills slots rest := by
  have total := fills.length
  rw [List.length_append, List.length_map] at total
  have front : record.take bytes.length = bytes := by
    apply List.ext_getElem
    · rw [List.length_take]
      omega
    · intro i hi inside
      have written := fills.written i bytes[i] (by
        rw [List.getElem?_append_left (by rw [List.length_map]; exact inside)]
        simp [inside])
      rw [List.getElem_take]
      exact (List.getElem_eq_iff _).mpr written
  refine ⟨record.drop bytes.length, ?_, ?_, fun i byte h => ?_⟩
  · calc record = record.take bytes.length ++ record.drop bytes.length :=
          (List.take_append_drop _ _).symm
      _ = bytes ++ record.drop bytes.length := by rw [front]
  · rw [List.length_drop]
    omega
  · rw [List.getElem?_drop]
    apply fills.written
    rw [List.getElem?_append_right (by rw [List.length_map]; omega), List.length_map,
      Nat.add_sub_cancel_left]
    exact h

/-- Bytes that were not written are whatever they are. -/
theorem Fills.of_replicate {n : Nat} {slots : List (Option UInt8)} {record : List UInt8}
    (fills : Fills (List.replicate n none ++ slots) record) :
    ∃ pad rest, record = pad ++ rest ∧ pad.length = n ∧ Fills slots rest := by
  have total := fills.length
  rw [List.length_append, List.length_replicate] at total
  refine ⟨record.take n, record.drop n, (List.take_append_drop _ _).symm, ?_, ?_,
    fun i byte h => ?_⟩
  · rw [List.length_take]
    omega
  · rw [List.length_drop]
    omega
  · rw [List.getElem?_drop]
    apply fills.written
    rw [List.getElem?_append_right (by rw [List.length_replicate]; omega), List.length_replicate,
      Nat.add_sub_cancel_left]
    exact h

/-- A record that fills what `serialize_to` wrote, piece by piece. -/
theorem Fills.of_serialized {size : Nat} {func : BitVec (8 * b)} {level : UInt8}
    {format : Format b} {bytes record : List UInt8}
    (fills : Fills (headerSlots size func level format ++ bytes.map some) record) :
    ∃ pad, pad.length = 7 ∧ record = toBytes b size ++ (toBytes b func.toNat ++ (level ::
      (pad ++ (format.bytes ++ bytes)))) := by
  have pad : alignUp 1 payloadAlign - 1 = 7 := by decide
  have shape : headerSlots size func level format ++ bytes.map some
      = (toBytes b size).map some ++ ((toBytes b func.toNat).map some ++ ([level].map some ++
          (List.replicate 7 none ++ (format.bytes.map some ++ (bytes.map some ++ []))))) := by
    simp [headerSlots, pad]
  rw [shape] at fills
  obtain ⟨fromFunc, rfl, fills₁⟩ := fills.of_map
  obtain ⟨fromLevel, rfl, fills₂⟩ := fills₁.of_map
  obtain ⟨fromPad, rfl, fills₃⟩ := fills₂.of_map
  obtain ⟨gap, fromFormat, rfl, length, fills₄⟩ := fills₃.of_replicate
  obtain ⟨fromArgs, rfl, fills₅⟩ := fills₄.of_map
  obtain ⟨rest, rfl, fills₆⟩ := fills₅.of_map
  have none_ : rest = [] := List.length_eq_zero_iff.mp fills₆.length
  subst none_
  exact ⟨gap, length, by simp⟩

theorem readFormat_eq {format : Format b} {front back : List UInt8}
    (length : front.length = payloadMinHeaderSize b) :
    readFormat b format.kind (front ++ (format.bytes ++ back)) = some format := by
  have slot : ((front ++ (format.bytes ++ back)).drop (payloadMinHeaderSize b)).take
      (format.kind.slotSize b) = format.bytes := by
    rw [← length, List.drop_left, ← format.length_bytes, List.take_left]
  simp only [readFormat, slot]
  cases format with
  | compiled => rfl
  | interned id =>
      simp only [Format.kind, Format.bytes, ofBytes_toBytes]
      have small : id.toNat % 256 ^ 4 = id.toNat := Nat.mod_eq_of_lt id.isLt
      rw [small, BitVec.ofNat_toNat, BitVec.setWidth_eq]
  | view representation =>
      simp only [Format.kind, Format.bytes]
      exact dif_pos representation.property

/-- A record is read back as it was written. -/
theorem deserialize_eq {level : UInt8} {func : BitVec (8 * b)} {format : Format b}
    {args : List Arg} {record : List UInt8}
    (fits : payloadHeaderSize b format.kind + (argsBytes b args).length < 256 ^ b)
    (fills : Fills (headerSlots (totalPayloadSize format args) func level format ++
      (argsBytes b args).map some) record) :
    readHeader b record = some ⟨totalPayloadSize format args, func, level⟩ ∧
      deserialize b format.kind (args.map Arg.type) record (totalPayloadSize format args)
        = some ⟨format, args.map Arg.asDecoded, 0⟩ := by
  have size := totalPayloadSize_eq fits
  obtain ⟨pad, length, rfl⟩ := fills.of_serialized
  generalize totalPayloadSize format args = total at size ⊢
  have header : (toBytes b total ++ (toBytes b func.toNat ++ (level :: pad))).length
      = payloadMinHeaderSize b := by
    have gap : alignUp 1 payloadAlign = 8 := by decide
    simp only [List.length_append, length_toBytes, List.length_cons, length, payloadMinHeaderSize,
      gap]
    omega
  constructor
  · have level_ : (toBytes b total ++ (toBytes b func.toNat ++ (level ::
        (pad ++ (format.bytes ++ argsBytes b args)))))[b + b]? = some level := by
      rw [List.getElem?_append_right (by rw [length_toBytes]; omega), length_toBytes,
        List.getElem?_append_right (by rw [length_toBytes]; omega), length_toBytes]
      simp
    have size_ : (toBytes b total ++ (toBytes b func.toNat ++ (level ::
        (pad ++ (format.bytes ++ argsBytes b args))))).take b = toBytes b total :=
      List.take_left' (length_toBytes b total)
    have func_ : ((toBytes b total ++ (toBytes b func.toNat ++ (level ::
        (pad ++ (format.bytes ++ argsBytes b args))))).drop b).take b = toBytes b func.toNat := by
      rw [List.drop_left' (length_toBytes b total), List.take_left' (length_toBytes b func.toNat)]
    have small := func.isLt
    rw [two_pow_mul] at small
    rw [readHeader, level_, size_, func_]
    simp only [ofBytes_toBytes, Nat.mod_eq_of_lt small, BitVec.ofNat_toNat, BitVec.setWidth_eq]
    rw [Nat.mod_eq_of_lt (by omega)]
  · have whole : toBytes b total ++ (toBytes b func.toNat ++ (level ::
        (pad ++ (format.bytes ++ argsBytes b args))))
        = (toBytes b total ++ (toBytes b func.toNat ++ (level :: pad))) ++
            (format.bytes ++ argsBytes b args) := by
      simp only [List.append_assoc, List.cons_append]
    have behind : ((toBytes b total ++ (toBytes b func.toNat ++ (level :: pad))) ++
        (format.bytes ++ argsBytes b args)).drop (payloadHeaderSize b format.kind)
        = argsBytes b args := by
      rw [payloadHeaderSize, ← header, ← List.drop_drop, List.drop_left, ← format.length_bytes,
        List.drop_left]
    have left : subtract b total (payloadHeaderSize b format.kind) = (argsBytes b args).length := by
      rw [subtract_eq (by omega) (by omega)]
      omega
    have decoded := decodeArgs_eq (b := b) args [] (n := 0) (by omega)
    rw [List.append_nil, Nat.add_zero] at decoded
    simp only [deserialize, whole, readFormat_eq header, Option.bind_eq_bind, Option.bind_some,
      behind, left, decoded, Option.pure_def]

/-- Of a record, only the bytes between the level and the format string are left as they were. -/
theorem unwritten_iff {size : Nat} {func : BitVec (8 * b)} {level : UInt8} {format : Format b}
    {bytes : List UInt8} {i : Nat} :
    (headerSlots size func level format ++ bytes.map some)[i]? = some none ↔
      b + b < i ∧ i < payloadMinHeaderSize b := by
  have pad : alignUp 1 payloadAlign = 8 := by decide
  have shape : headerSlots size func level format ++ bytes.map some
      = (toBytes b size ++ toBytes b func.toNat ++ [level]).map some ++
          (List.replicate 7 none ++ (format.bytes ++ bytes).map some) := by
    simp [headerSlots, pad]
  have front : ((toBytes b size ++ toBytes b func.toNat ++ [level]).map some).length
      = b + b + 1 := by
    simp [Nat.add_assoc]
  rw [shape, payloadMinHeaderSize, pad]
  by_cases early : i < b + b + 1
  · rw [List.getElem?_append_left (by omega)]
    simp only [List.getElem?_map, Option.map_eq_some_iff, reduceCtorEq, and_false, exists_false,
      false_iff]
    omega
  rw [List.getElem?_append_right (by omega), front]
  by_cases gap : i < b + b + 8
  · rw [List.getElem?_append_left (by rw [List.length_replicate]; omega),
      List.getElem?_replicate_of_lt (by omega)]
    simp only [true_iff]
    omega
  · rw [List.getElem?_append_right (by rw [List.length_replicate]; omega)]
    simp only [List.getElem?_map, Option.map_eq_some_iff, reduceCtorEq, and_false, exists_false,
      false_iff]
    omega

/-- The wire format round-trips: `serialize_to` writes exactly the room that it reserved, and
from every record that fills that room the worker reads the size and the level, and the
deserializer the format string and the arguments, with nothing remaining. -/
theorem roundTrip (level : UInt8) (func : BitVec (8 * b)) (format : Format b) (args : List Arg)
    (fits : payloadHeaderSize b format.kind + (argsBytes b args).length < 256 ^ b) :
    ∃ out, serializeTo level func format args = some out ∧
      out.cursor = totalPayloadSize format args ∧
      out.slots.length = totalPayloadSize format args ∧
      (∀ i, out.slots[i]? = some none ↔ b + b < i ∧ i < payloadMinHeaderSize b) ∧
      ∀ record, Fills out.slots record →
        readHeader b record = some ⟨totalPayloadSize format args, func, level⟩ ∧
          deserialize b format.kind (args.map Arg.type) record (totalPayloadSize format args)
            = some ⟨format, args.map Arg.asDecoded, 0⟩ := by
  refine ⟨_, serializeTo_eq fits, rfl, ?_, fun i => unwritten_iff, fun record fills =>
    deserialize_eq fits fills⟩
  rw [List.length_append, length_headerSlots, List.length_map, totalPayloadSize_eq fits]

/-- An integer, a string, an empty C string and a vector of two objects. -/
def mixedArgs : List Arg :=
  [⟨.trivial 4 (by decide), ⟨[1, 2, 3, 4], rfl⟩⟩, ⟨.string, [104, 105]⟩,
    ⟨.cString, ⟨[], by decide⟩⟩, ⟨.vector 2 (by decide), [⟨[5, 6], rfl⟩, ⟨[7, 8], rfl⟩]⟩]

theorem roundTrip_mixedArgs :
    totalPayloadSize (.interned 12 : Format 8) mixedArgs = 62 ∧
      ∃ out, serializeTo 3 77 (.interned 12 : Format 8) mixedArgs = some out ∧
        out.cursor = totalPayloadSize (.interned 12 : Format 8) mixedArgs ∧
        out.slots.length = totalPayloadSize (.interned 12 : Format 8) mixedArgs ∧
        (∀ i, out.slots[i]? = some none ↔ 8 + 8 < i ∧ i < payloadMinHeaderSize 8) ∧
        ∀ record, Fills out.slots record →
          readHeader 8 record
              = some ⟨totalPayloadSize (.interned 12 : Format 8) mixedArgs, 77, 3⟩ ∧
            deserialize 8 .interned (mixedArgs.map Arg.type) record
                (totalPayloadSize (.interned 12 : Format 8) mixedArgs)
              = some ⟨.interned 12, mixedArgs.map Arg.asDecoded, 0⟩ :=
  ⟨by decide, roundTrip 3 77 (.interned 12) mixedArgs (by decide)⟩

end Fpag.Logging
