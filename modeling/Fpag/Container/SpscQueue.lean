import Fpag.Base.MathUtil

/-!
`container::SpscQueue`: the state of the queue and its operations.

The ring is the double mapping of `allocate_aliased_pages`: index `i` and index
`i + capacity` are the same byte, so `byteAt` and `setByte` address it modulo the
capacity. Counters are words of `w` bits and wrap.

An operation that loads the other side's counter is one atomic step together with
the private computation around it, so `reserve` stops at the load inside
`available_producer` and says how it goes on.
-/

namespace Fpag.Container

/-- `SpscQueue::Mode`; the default is `Drop`. -/
inductive Mode : Type
  | drop
  | block
  deriving DecidableEq, Repr

/-- `SpscQueue`, with `mapped` for `data_ != nullptr`. -/
structure SpscQueue (w : Nat) : Type where
  mapped : Bool
  data : Nat → UInt8
  capacity : BitVec w
  mode : Mode
  droppedCount : BitVec w
  blockedCount : BitVec w
  head : BitVec w
  headCache : BitVec w
  tail : BitVec w
  tailCache : BitVec w

/-- `SpscQueue::MAX_CAPACITY`: 32 GiB with 64-bit addresses and 1 GiB below that. -/
def maxCapacity (w : Nat) : Nat := if 64 ≤ w then 2 ^ 35 else 2 ^ 30

namespace SpscQueue

variable {w : Nat}

/-- A default-constructed queue. -/
def fresh (w : Nat) : SpscQueue w where
  mapped := false
  data := fun _ => 0
  capacity := 0
  mode := .drop
  droppedCount := 0
  blockedCount := 0
  head := 0
  headCache := 0
  tail := 0
  tailCache := 0

/-- `SpscQueue::init`, with the pages the system handed out; `none` is a failed check. -/
def init (q : SpscQueue w) (pageSize : Nat) (ring : Nat → UInt8) (capacity : BitVec w)
    (mode : Mode) : Option (SpscQueue w) :=
  if Base.isPowerOfTwo capacity && capacity.toNat % pageSize == 0 &&
      decide (capacity.toNat ≤ maxCapacity w) then
    some { q with mapped := true, data := ring, capacity := capacity, mode := mode }
  else none

def capacityMask (q : SpscQueue w) : BitVec w := q.capacity - 1

/-- The byte at index `i` of the double mapping. -/
def byteAt (q : SpscQueue w) (i : Nat) : UInt8 := q.data (i % q.capacity.toNat)

/-- The queue after a store of one byte at index `i` of the double mapping. -/
def setByte (q : SpscQueue w) (i : Nat) (b : UInt8) : SpscQueue w :=
  { q with data := Function.update q.data (i % q.capacity.toNat) b }

def size (q : SpscQueue w) : BitVec w := q.tail - q.head

def empty (q : SpscQueue w) : Bool := q.size == 0

def sizeConsumer (q : SpscQueue w) : BitVec w := q.tail - q.headCache

def sizeProducer (q : SpscQueue w) : BitVec w := q.tailCache - q.head

def availableProducer (q : SpscQueue w) : BitVec w := q.capacity - q.sizeProducer

/-- What `dequeue` asks for: the record and the padding in front of it. -/
def neededConsumer (q : SpscQueue w) (size align : BitVec w) : BitVec w :=
  size + (Base.roundUp q.headCache align - q.headCache)

/-- What `reserve` asks for: the record and the padding in front of it. -/
def neededProducer (q : SpscQueue w) (size align : BitVec w) : BitVec w :=
  size + (Base.roundUp q.tailCache align - q.tailCache)

/-- `SpscQueue::peek`: the index the returned pointer has in the double mapping. -/
def peek (q : SpscQueue w) (align : BitVec w) : BitVec w :=
  Base.roundUp q.headCache align &&& q.capacityMask

/-- `SpscQueue::discard`. -/
def discard (q : SpscQueue w) (size align : BitVec w) : SpscQueue w :=
  let headCache := Base.roundUp q.headCache align + size
  { q with headCache := headCache, head := headCache }

/-- How `reserve` goes on after its first look at `head_`. -/
inductive Reserved (w : Nat) : Type
  | ok (out : BitVec w)
  | dropped
  | blocked (needed : BitVec w)
  deriving DecidableEq

/-- The end of `reserve`: `tail_cache_` moves to the aligned tail, `tail_` does not. -/
def take (q : SpscQueue w) (align : BitVec w) : SpscQueue w × BitVec w :=
  let alignedTail := Base.roundUp q.tailCache align
  ({ q with tailCache := alignedTail }, alignedTail &&& q.capacityMask)

/-- `SpscQueue::reserve` up to the wait. -/
def reserve (q : SpscQueue w) (size align : BitVec w) : SpscQueue w × Reserved w :=
  let totalNeeded := q.neededProducer size align
  if q.availableProducer < totalNeeded then
    match q.mode with
    | .drop => ({ q with droppedCount := q.droppedCount + 1 }, .dropped)
    | .block => ({ q with blockedCount := q.blockedCount + 1 }, .blocked totalNeeded)
  else
    let taken := q.take align
    (taken.1, .ok taken.2)

/-- `SpscQueue::commit`. -/
def commit (q : SpscQueue w) (size : BitVec w) : SpscQueue w :=
  let tailCache := q.tailCache + size
  { q with tailCache := tailCache, tail := tailCache }

/-- The bytes a `memcpy` of `n` bytes from index `i` reads. -/
def copyFrom (q : SpscQueue w) (i n : Nat) : List UInt8 :=
  (List.range n).map fun k => q.byteAt (i + k)

/-- `SpscQueue::dequeue` run to its end with the producer standing still; `none` is `Empty`. -/
def dequeue (q : SpscQueue w) (size align : BitVec w) : Option (List UInt8 × SpscQueue w) :=
  if q.sizeConsumer < q.neededConsumer size align then none
  else some (q.copyFrom (q.peek align).toNat size.toNat, q.discard size align)

section Frame

variable (q : SpscQueue w) (i : Nat) (b : UInt8) (size align : BitVec w)

@[simp] theorem setByte_mapped : (q.setByte i b).mapped = q.mapped := rfl
@[simp] theorem setByte_capacity : (q.setByte i b).capacity = q.capacity := rfl
@[simp] theorem setByte_mode : (q.setByte i b).mode = q.mode := rfl
@[simp] theorem setByte_head : (q.setByte i b).head = q.head := rfl
@[simp] theorem setByte_headCache : (q.setByte i b).headCache = q.headCache := rfl
@[simp] theorem setByte_tail : (q.setByte i b).tail = q.tail := rfl
@[simp] theorem setByte_tailCache : (q.setByte i b).tailCache = q.tailCache := rfl
@[simp] theorem setByte_droppedCount : (q.setByte i b).droppedCount = q.droppedCount := rfl

@[simp] theorem discard_data : (q.discard size align).data = q.data := rfl
@[simp] theorem discard_capacity : (q.discard size align).capacity = q.capacity := rfl
@[simp] theorem discard_tail : (q.discard size align).tail = q.tail := rfl
@[simp] theorem discard_tailCache : (q.discard size align).tailCache = q.tailCache := rfl
@[simp] theorem discard_droppedCount : (q.discard size align).droppedCount = q.droppedCount := rfl

@[simp] theorem commit_data : (q.commit size).data = q.data := rfl
@[simp] theorem commit_capacity : (q.commit size).capacity = q.capacity := rfl
@[simp] theorem commit_head : (q.commit size).head = q.head := rfl
@[simp] theorem commit_headCache : (q.commit size).headCache = q.headCache := rfl
@[simp] theorem commit_droppedCount : (q.commit size).droppedCount = q.droppedCount := rfl

end Frame

/-- What `reserve` can do: all that a caller needs to know of it. -/
theorem reserve_cases (q : SpscQueue w) (size align : BitVec w) :
    (q.availableProducer < q.neededProducer size align ∧ q.mode = .drop ∧
      q.reserve size align = ({ q with droppedCount := q.droppedCount + 1 }, .dropped)) ∨
    (q.availableProducer < q.neededProducer size align ∧ q.mode = .block ∧
      q.reserve size align = ({ q with blockedCount := q.blockedCount + 1 },
        .blocked (q.neededProducer size align))) ∨
    (¬ q.availableProducer < q.neededProducer size align ∧
      q.reserve size align = ((q.take align).1, .ok (q.take align).2)) := by
  unfold reserve
  by_cases short : q.availableProducer < q.neededProducer size align
  · cases mode : q.mode with
    | drop => exact Or.inl ⟨short, rfl, by simp only [short, if_true]⟩
    | block => exact Or.inr (Or.inl ⟨short, rfl, by simp only [short, if_true]⟩)
  · exact Or.inr (Or.inr ⟨short, by simp only [short, if_false]⟩)

end SpscQueue

end Fpag.Container
