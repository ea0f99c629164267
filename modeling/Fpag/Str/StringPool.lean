import Fpag.Lib.Bytes
import Fpag.Lib.Interval
import Fpag.Mem.ArenaSafety

/-!
`str::StringPool` under concurrent appends.

A name is stored in a block of the arena as its length followed by its bytes, and its
id is the offset of the bytes. A thread that appends goes through the steps of
`ConcurrentArena::alloc`, copies the length and the name byte by byte, and adds to the
packed totals; the addition is the last thing the others can see, so the append
returns with it. A failed check ends the process: there is no step then.

`returned` is the history of the appends that returned, with the id each of them got.
-/

namespace Fpag.Str

open Fpag.Mem

variable {ι : Type}

/-! ## The pool -/

/-- `LENGTH_PREFIX_BYTES`. -/
def lengthPrefixBytes : Nat := 4

structure StringPoolId : Type where
  offset : BitVec 32
  deriving DecidableEq, Repr

/-- `EMPTY_STRING_ID`. -/
def emptyStringId : StringPoolId := ⟨BitVec.ofNat 32 lengthPrefixBytes⟩

/-- A `std::string_view`: what it views lies in memory, so its size is below `2 ^ 63`. -/
structure StringView : Type where
  bytes : List UInt8
  size_lt : bytes.length < 2 ^ 63

/-- What a name looks like in the pool: its length as a `u32`, and its bytes. -/
def stored (str : List UInt8) : List UInt8 := toBytes lengthPrefixBytes str.length ++ str

/-- Where a thread is in `append`. -/
inductive Appender : Type
  | idle
  | allocating (str : List UInt8)
  | writing (str : List UInt8) (ptr : BitVec 64) (done : Nat)
  deriving DecidableEq

/-- The name a thread is appending. -/
def Appender.text : Appender → Option (List UInt8)
  | .idle => none
  | .allocating str => some str
  | .writing str _ _ => some str

/-- An append that returned. -/
structure Receipt : Type where
  str : List UInt8
  id : StringPoolId
  deriving DecidableEq

/-- `StringPool`, the threads that append to it, and what their appends returned. -/
structure StringPool (ι : Type) : Type where
  arena : World ι 64
  memory : Nat → UInt8
  totals : BitVec 64
  appenders : ι → Appender
  returned : List Receipt

/-- What a thread does to the pool: it calls `append`, or goes on with the call it is in. -/
inductive PoolAction : Type
  | append (str : StringView)
  | go (ok : Bool)

structure PoolEvent (ι : Type) : Type where
  thread : ι
  action : PoolAction

namespace StringPool

/-- `StringPool::length_at`, for bytes that begin at offset `data`. -/
def lengthAt (s : StringPool ι) (data : Nat) : BitVec 32 :=
  BitVec.ofNat 32 (ofBytes (readBytes s.memory (data - lengthPrefixBytes) lengthPrefixBytes))

/-- `StringPool::get`. -/
def get (s : StringPool ι) (id : StringPoolId) : List UInt8 :=
  readBytes s.memory id.offset.toNat (s.lengthAt id.offset.toNat).toNat

/-- `BYTES_SHIFT`. -/
def bytesShift : Nat := 32

/-- `STRING_COUNT_MASK`. -/
def stringCountMask : BitVec 64 := 0xFFFFFFFF

/-- `StringPool::size`. -/
def size (s : StringPool ι) : BitVec 64 := s.totals >>> bytesShift

/-- `StringPool::string_count`. -/
def stringCount (s : StringPool ι) : BitVec 64 := s.totals &&& stringCountMask

/-- What an append of a name of `length` bytes adds to the totals. -/
def tally (length : Nat) : BitVec 64 := BitVec.ofNat 64 length <<< bytesShift ||| 1

variable [DecidableEq ι]

def setAppender (s : StringPool ι) (t : ι) (state : Appender) : StringPool ι :=
  { s with appenders := Function.update s.appenders t state }

/-- The constructor of `StringPool`, over pages that hold anything: the checks of the capacity,
and `reserve_empty_name` on the one thread there is, whose requests for pages succeed. -/
def construct (t : ι) (pageSize : Nat) (pages : Nat → UInt8) (capacity : BitVec 64) :
    Option (StringPool ι) :=
  if 0 < capacity.toNat ∧ capacity.toNat ≤ 2 ^ 32 - 1 ∧ capacity.toNat % pageSize = 0 then
    match Schedule.run World.step
        (World.initial ((ConcurrentArena.fresh 64).reserve capacity) fun _ => t)
        ([.call (.alloc (BitVec.ofNat 64 lengthPrefixBytes) 4), .go true, .go true, .go true,
          .go true, .go true].map fun action => ⟨t, action⟩) with
    | none => none
    | some arena =>
        match arena.blocks with
        | [ptr] => some {
            arena := arena
            memory := writeBytes pages ptr.offset.toNat (toBytes lengthPrefixBytes 0)
            totals := 0
            appenders := fun _ => .idle
            returned := [] }
        | _ => none
  else none

/-- The call of `StringPool::append`, up to the first step of the allocation. -/
def start (s : StringPool ι) (t : ι) (str : List UInt8) : Option (StringPool ι) :=
  if str = [] then some { s with returned := ⟨str, emptyStringId⟩ :: s.returned }
  else
    match s.arena.start t (.alloc (BitVec.ofNat 64 (lengthPrefixBytes + str.length)) 4) with
    | none => none
    | some arena => some ({ s with arena := arena }.setAppender t (.allocating str))

/-- One step of a thread inside `StringPool::append`. -/
def advance (s : StringPool ι) (t : ι) (ok : Bool) : Option (StringPool ι) :=
  match s.appenders t with
  | .idle => none
  | .allocating str =>
      match s.arena.advance t ok with
      | none => none
      | some arena =>
          match s.arena.outcome arena t with
          | .pending => some { s with arena := arena }
          | .null => none
          | .block ptr => some ({ s with arena := arena }.setAppender t (.writing str ptr.offset 0))
  | .writing str ptr done =>
      match (stored str)[done]? with
      | some byte =>
          some ({ s with memory := Function.update s.memory (ptr.toNat + done) byte }.setAppender t
            (.writing str ptr (done + 1)))
      | none =>
          let offset := ptr + BitVec.ofNat 64 lengthPrefixBytes
          some ({ s with
            totals := s.totals + tally str.length
            returned := ⟨str, ⟨offset.setWidth 32⟩⟩ :: s.returned }.setAppender t .idle)

def step (e : PoolEvent ι) (s : StringPool ι) : Option (StringPool ι) :=
  match e.action with
  | .append str => if s.appenders e.thread = .idle then s.start e.thread str.bytes else none
  | .go ok => s.advance e.thread ok

end StringPool

end Fpag.Str
