import Fpag.Lib.Align
import Fpag.Logging.Codec

/-!
`logging::Serializer`: the record of a log call, as it is written into the queue.

`b` is `sizeof(usize)`, and arithmetic in `usize` is modulo `256 ^ b`. A record is
written into the reserved room with copies to explicit offsets, and a copy that leaves
the room is an overrun: there is no result then. `slots` is what the room holds
afterwards, with `none` for the bytes that no copy reached.
-/

namespace Fpag.Logging

variable {b : Nat}

/-- A value of `usize` after arithmetic. -/
def wrap (b n : Nat) : Nat := n % 256 ^ b

/-- `PAYLOAD_ALIGN`. -/
def payloadAlign : Nat := 8

/-- How a record names its format string: compiled into the deserializer, as the id the interner
gave it, or as the view itself, whose representation is two words. -/
inductive Format (b : Nat) : Type
  | compiled
  | interned (id : BitVec 32)
  | view (representation : Object (b + b))

inductive FormatKind : Type
  | compiled
  | interned
  | view
  deriving DecidableEq, Repr

def Format.kind : Format b → FormatKind
  | .compiled => .compiled
  | .interned _ => .interned
  | .view _ => .view

/-- What stands in the slot of the format string. -/
def Format.bytes : Format b → List UInt8
  | .compiled => []
  | .interned id => toBytes 4 id.toNat
  | .view representation => representation.val

/-- `FMT_SLOT_SIZE`, or nothing for a compiled format. -/
def FormatKind.slotSize (b : Nat) : FormatKind → Nat
  | .compiled => 0
  | .interned => 4
  | .view => b + b

theorem Format.length_bytes (format : Format b) : format.bytes.length = format.kind.slotSize b := by
  cases format with
  | compiled => rfl
  | interned id => exact length_toBytes 4 id.toNat
  | view representation => exact representation.property

/-- `PAYLOAD_MIN_HEADER_SIZE`: the size, the deserializer and the level. -/
def payloadMinHeaderSize (b : Nat) : Nat := b + b + alignUp 1 payloadAlign

/-- `Deserializer::PAYLOAD_HEADER_SIZE`. -/
def payloadHeaderSize (b : Nat) (kind : FormatKind) : Nat :=
  payloadMinHeaderSize b + kind.slotSize b

/-! ## Writing -/

/-- The reserved room and the cursor in it. -/
structure Output : Type where
  slots : List (Option UInt8)
  cursor : Nat

/-- A `memcpy` of `bytes` to offset `offset` of the room. -/
def Output.copy (out : Output) (offset : Nat) (bytes : List UInt8) : Option Output :=
  if offset + bytes.length ≤ out.slots.length then
    some { out with slots :=
      out.slots.take offset ++ bytes.map some ++ out.slots.drop (offset + bytes.length) }
  else none

/-- `Serializer::write_header`; the cursor of the arguments begins behind it. -/
def writeHeader (totalPayloadSize : Nat) (func : BitVec (8 * b)) (level : UInt8)
    (format : Format b) (out : Output) : Option Output := do
  let out ← out.copy 0 (toBytes b totalPayloadSize)
  let out ← out.copy b (toBytes b func.toNat)
  let out ← out.copy (b + b) [level]
  let out ← if format.kind = .compiled then some out
    else out.copy (payloadMinHeaderSize b) format.bytes
  pure { out with cursor := payloadHeaderSize b format.kind }

/-- One turn of the encode pass. -/
def encodeArg (b : Nat) (out : Output) (arg : Arg) : Option Output :=
  let body := arg.type.encode arg.value
  if arg.type.isFixedSize then do
    let out ← out.copy out.cursor body
    pure { out with cursor := out.cursor + arg.type.bodySize }
  else do
    -- The body first, behind the room for its size; then the size it turned out to have.
    let out ← out.copy (out.cursor + b) body
    let out ← out.copy out.cursor (toBytes b body.length)
    pure { out with cursor := out.cursor + b + body.length }

/-- One turn of the size pass over arguments of which some vary in size. -/
def addSize (b argsBodySize : Nat) (arg : Arg) : Nat :=
  if arg.type.isFixedSize then wrap b (argsBodySize + arg.type.bodySize)
  else wrap b (argsBodySize + (b + arg.type.encodedSize arg.value))

/-- The size that is reserved, written into the header and committed. -/
def totalPayloadSize (format : Format b) (args : List Arg) : Nat :=
  let header := payloadHeaderSize b format.kind
  if args = [] then header
  else if args.all fun arg => arg.type.isFixedSize then
    header + (args.map fun arg => arg.type.bodySize).sum
  else wrap b (header + args.foldl (addSize b) 0)

/-- `Serializer::serialize_to` once the room is reserved. -/
def serializeTo (level : UInt8) (func : BitVec (8 * b)) (format : Format b) (args : List Arg) :
    Option Output := do
  let size := totalPayloadSize format args
  let out ← writeHeader size func level format ⟨List.replicate size none, 0⟩
  args.foldlM (encodeArg b) out

/-! ## What is written -/

/-- What an argument contributes to a record: its body, with the size in front of it when the
type does not fix it. -/
def argBytes (b : Nat) (arg : Arg) : List UInt8 :=
  if arg.type.isFixedSize then arg.type.encode arg.value
  else toBytes b (arg.type.encodedSize arg.value) ++ arg.type.encode arg.value

def argsBytes (b : Nat) (args : List Arg) : List UInt8 := args.flatMap (argBytes b)

theorem argsBytes_cons (arg : Arg) (args : List Arg) :
    argsBytes b (arg :: args) = argBytes b arg ++ argsBytes b args := List.flatMap_cons

/-- The room of a header: no copy reaches the bytes between the level and the format string. -/
def headerSlots (size : Nat) (func : BitVec (8 * b)) (level : UInt8) (format : Format b) :
    List (Option UInt8) :=
  (toBytes b size).map some ++ ((toBytes b func.toNat).map some ++ (some level ::
    (List.replicate (alignUp 1 payloadAlign - 1) none ++ format.bytes.map some)))

theorem length_headerSlots (size : Nat) (func : BitVec (8 * b)) (level : UInt8)
    (format : Format b) :
    (headerSlots size func level format).length = payloadHeaderSize b format.kind := by
  have pad : alignUp 1 payloadAlign = 8 := by decide
  simp only [headerSlots, List.length_append, List.length_map, length_toBytes, List.length_cons,
    List.length_replicate, format.length_bytes, payloadHeaderSize, payloadMinHeaderSize, pad]
  omega

/-- A copy into room of its own size. -/
theorem copy_eq {slots : List (Option UInt8)} (front middle back : List (Option UInt8))
    {offset cursor : Nat} {bytes : List UInt8} (here : slots = front ++ (middle ++ back))
    (at_ : offset = front.length) (fits : middle.length = bytes.length) :
    Output.copy ⟨slots, cursor⟩ offset bytes
      = some ⟨front ++ (bytes.map some ++ back), cursor⟩ := by
  subst here at_
  have inside : front.length + bytes.length ≤ (front ++ (middle ++ back)).length := by
    simp only [List.length_append]
    omega
  have rest : (front ++ (middle ++ back)).drop (front.length + bytes.length) = back := by
    rw [← fits, ← List.drop_drop, List.drop_left, List.drop_left]
  rw [Output.copy, if_pos inside, List.take_left, rest, List.append_assoc]

theorem length_argBytes (arg : Arg) : (argBytes b arg).length =
    if arg.type.isFixedSize then arg.type.bodySize else b + arg.type.encodedSize arg.value := by
  simp only [argBytes]
  split
  · next fixed => rw [ArgType.length_encode, ArgType.encodedSize_of_isFixedSize fixed]
  · rw [List.length_append, length_toBytes, ArgType.length_encode]

/-- One argument is written at the cursor. -/
theorem encodeArg_eq {front rest : List (Option UInt8)} (arg : Arg) :
    encodeArg b ⟨front ++ (List.replicate (argBytes b arg).length none ++ rest), front.length⟩ arg
      = some ⟨front ++ ((argBytes b arg).map some ++ rest),
          front.length + (argBytes b arg).length⟩ := by
  by_cases fixed : arg.type.isFixedSize = true
  · have bytes : argBytes b arg = arg.type.encode arg.value := by rw [argBytes, if_pos fixed]
    have size := length_argBytes (b := b) arg
    rw [if_pos fixed] at size
    simp only [encodeArg, if_pos fixed]
    rw [← bytes, copy_eq _ _ _ rfl rfl (by rw [List.length_replicate])]
    simp only [Option.bind_eq_bind, Option.bind_some, Option.pure_def, size]
  · have bytes : argBytes b arg
        = toBytes b (arg.type.encodedSize arg.value) ++ arg.type.encode arg.value := by
      rw [argBytes, if_neg fixed]
    have room : List.replicate (argBytes b arg).length (none : Option UInt8)
        = List.replicate b none ++ List.replicate (arg.type.encode arg.value).length none := by
      rw [bytes, List.length_append, length_toBytes, List.replicate_add]
    simp only [encodeArg, if_neg fixed]
    -- The body is written behind the room of its size, and the size in front of it.
    rw [copy_eq (front ++ List.replicate b none)
      (List.replicate (arg.type.encode arg.value).length none) rest
      (by rw [room]; simp only [List.append_assoc]) (by simp) (by rw [List.length_replicate])]
    simp only [Option.bind_eq_bind, Option.bind_some]
    rw [copy_eq front (List.replicate b none)
      ((arg.type.encode arg.value).map some ++ rest) (by simp only [List.append_assoc]) rfl
      (by rw [List.length_replicate, length_toBytes])]
    simp only [Option.bind_some, Option.pure_def, bytes, ArgType.length_encode, List.map_append,
      List.append_assoc, List.length_append, length_toBytes, Nat.add_assoc]

/-- The encode pass fills the room that its arguments need, and ends at the end of it. -/
theorem encodeArgs_eq (front : List (Option UInt8)) (args : List Arg) :
    args.foldlM (encodeArg b)
        ⟨front ++ List.replicate (argsBytes b args).length none, front.length⟩
      = some ⟨front ++ (argsBytes b args).map some, front.length + (argsBytes b args).length⟩ := by
  induction args generalizing front with
  | nil =>
      simp [argsBytes]
  | cons arg args ih =>
      have next := ih (front ++ (argBytes b arg).map some)
      rw [List.length_append, List.length_map] at next
      rw [argsBytes_cons, List.length_append, List.replicate_add, List.foldlM_cons, encodeArg_eq]
      simp only [Option.bind_eq_bind, Option.bind_some, List.map_append]
      rw [List.append_assoc, List.append_assoc, Nat.add_assoc] at next
      exact next

theorem foldl_addSize (acc : Nat) (args : List Arg) :
    wrap b (args.foldl (addSize b) acc) = wrap b (acc + (argsBytes b args).length) := by
  induction args generalizing acc with
  | nil => rfl
  | cons arg args ih =>
      have one : addSize b acc arg = wrap b (acc + (argBytes b arg).length) := by
        rw [addSize, length_argBytes]
        split <;> rfl
      rw [List.foldl_cons, ih, one, argsBytes_cons, List.length_append, wrap, wrap, wrap,
        Nat.mod_add_mod, Nat.add_assoc]

theorem length_of_all_fixed {args : List Arg}
    (fixed : (args.all fun arg => arg.type.isFixedSize) = true) :
    (argsBytes b args).length = (args.map fun arg => arg.type.bodySize).sum := by
  induction args with
  | nil => rfl
  | cons arg args ih =>
      rw [List.all_cons, Bool.and_eq_true] at fixed
      rw [argsBytes_cons, List.length_append, length_argBytes, if_pos fixed.1, List.map_cons,
        List.sum_cons, ← ih fixed.2]

/-- The size pass of each of the three paths counts what the encode pass writes. -/
theorem totalPayloadSize_eq {format : Format b} {args : List Arg}
    (fits : payloadHeaderSize b format.kind + (argsBytes b args).length < 256 ^ b) :
    totalPayloadSize format args
      = payloadHeaderSize b format.kind + (argsBytes b args).length := by
  simp only [totalPayloadSize]
  split
  · next none =>
      subst none
      rfl
  · split
    · next fixed => rw [length_of_all_fixed fixed]
    · have whole := foldl_addSize (b := b) 0 args
      simp only [wrap, Nat.zero_add] at whole ⊢
      rw [← Nat.add_mod_mod, whole, Nat.add_mod_mod, Nat.mod_eq_of_lt fits]

theorem writeHeader_eq {size : Nat} {func : BitVec (8 * b)} {level : UInt8} {format : Format b}
    {rest : List (Option UInt8)} :
    writeHeader size func level format
        ⟨List.replicate (payloadHeaderSize b format.kind) none ++ rest, 0⟩
      = some ⟨headerSlots size func level format ++ rest, payloadHeaderSize b format.kind⟩ := by
  have pad : alignUp 1 payloadAlign = 8 := by decide
  have room : List.replicate (payloadHeaderSize b format.kind) (none : Option UInt8)
      = List.replicate b none ++ (List.replicate b none ++ ([none] ++
          (List.replicate 7 none ++ List.replicate format.bytes.length none))) := by
    rw [format.length_bytes, payloadHeaderSize, payloadMinHeaderSize, pad]
    simp only [List.replicate_add, List.append_assoc]
    rfl
  have size_ : Output.copy ⟨_, 0⟩ 0 (toBytes b size) = some _ :=
    copy_eq [] (List.replicate b none) (List.replicate b none ++ ([none] ++
      (List.replicate 7 none ++ (List.replicate format.bytes.length none ++ rest)))) rfl rfl
      (by rw [List.length_replicate, length_toBytes])
  have func_ : Output.copy ⟨_, 0⟩ b (toBytes b func.toNat) = some _ :=
    copy_eq ((toBytes b size).map some) (List.replicate b none) ([none] ++
      (List.replicate 7 none ++ (List.replicate format.bytes.length none ++ rest))) rfl (by simp)
      (by rw [List.length_replicate, length_toBytes])
  have level_ : Output.copy ⟨_, 0⟩ (b + b) [level] = some _ :=
    copy_eq ((toBytes b size).map some ++ (toBytes b func.toNat).map some) [none]
      (List.replicate 7 none ++ (List.replicate format.bytes.length none ++ rest)) rfl (by simp) rfl
  have format_ : Output.copy ⟨_, 0⟩ (payloadMinHeaderSize b) format.bytes = some _ :=
    copy_eq ((toBytes b size).map some ++ (toBytes b func.toNat).map some ++
      ([some level] ++ List.replicate 7 none)) (List.replicate format.bytes.length none) rest rfl
      (by simp [payloadMinHeaderSize, pad]; omega) (by rw [List.length_replicate])
  simp only [List.nil_append, List.append_assoc, List.map_cons, List.map_nil]
    at size_ func_ level_ format_
  simp only [writeHeader, Option.bind_eq_bind, room, List.append_assoc, size_, Option.bind_some,
    func_, level_]
  have header : headerSlots size func level format ++ rest = (toBytes b size).map some ++
      ((toBytes b func.toNat).map some ++ ([some level] ++ (List.replicate 7 none ++
        (format.bytes.map some ++ rest)))) := by
    simp only [headerSlots, pad, List.append_assoc, List.cons_append, List.nil_append]
  rw [header]
  split
  · next compiled =>
      have none_ : format.bytes = [] := by
        cases format <;> simp_all [Format.kind, Format.bytes]
      simp only [none_, List.length_nil, List.replicate_zero, List.map_nil, List.nil_append,
        Option.pure_def]
  · simp only [format_, Option.bind_some, Option.pure_def]

/-- What `serialize_to` leaves in the room: the header and the arguments, with the cursor at the
end of the room. -/
theorem serializeTo_eq {level : UInt8} {func : BitVec (8 * b)} {format : Format b}
    {args : List Arg}
    (fits : payloadHeaderSize b format.kind + (argsBytes b args).length < 256 ^ b) :
    serializeTo level func format args
      = some ⟨headerSlots (totalPayloadSize format args) func level format ++
          (argsBytes b args).map some, totalPayloadSize format args⟩ := by
  have size := totalPayloadSize_eq fits
  simp only [serializeTo, Option.bind_eq_bind]
  have pass := encodeArgs_eq (b := b)
    (headerSlots (payloadHeaderSize b format.kind + (argsBytes b args).length) func level
      format) args
  rw [length_headerSlots] at pass
  rw [size, List.replicate_add, writeHeader_eq, Option.bind_some]
  exact pass

end Fpag.Logging
