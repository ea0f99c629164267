import Fpag.Base.MathUtil
import Fpag.Lib.Schedule

/-!
`mem::ConcurrentArena`: the state of the arena and the steps of the threads that
allocate from it.

A block is an offset from `base_ptr`. Threads interleave at every atomic load,
compare-exchange, `fetch_add` and `commit_pages` call; what a thread computes on its
own between two of these belongs to the step before. The environment decides whether
a `commit_pages` call succeeds and whether a weak compare-exchange fails without a
reason. `committedBytes` records which bytes were ever made writable.
-/

namespace Fpag.Mem

variable {w : Nat} {ι : Type}

/-- `ConcurrentArena::Lane`. -/
structure Lane (w : Nat) : Type where
  cursor : BitVec w
  laneBegin : BitVec w
  laneEnd : BitVec w
  deriving DecidableEq

/-- `ConcurrentArena`, with `reserved` for `ptr_ != nullptr`. -/
structure ConcurrentArena (w : Nat) : Type where
  reserved : Bool
  capacity : BitVec w
  laneUnit : BitVec w
  poolBegin : BitVec w
  lanes : List (Lane w)
  size : BitVec w
  committedSize : BitVec w
  deriving DecidableEq

/-- `COMMIT_CHUNK_BYTES`. -/
def commitChunkBytes (w : Nat) : BitVec w := BitVec.ofNat w (256 <<< 10)

namespace ConcurrentArena

/-- A default-constructed arena. -/
def fresh (w : Nat) : ConcurrentArena w where
  reserved := false
  capacity := 0
  laneUnit := 1
  poolBegin := 0
  lanes := []
  size := 0
  committedSize := 0

/-- `ConcurrentArena::reserve`, where the reservation succeeds. -/
def reserve (a : ConcurrentArena w) (capacity : BitVec w) : ConcurrentArena w :=
  { a with reserved := true, capacity := capacity, size := 0, committedSize := 0 }

/-- The end of lane `i - 1` and the begin of lane `i`, as `set_lanes` cuts them. -/
def cut (laneRoom lanes unit : BitVec w) (i : Nat) : BitVec w :=
  laneRoom * BitVec.ofNat w i / lanes / unit * unit

/-- `ConcurrentArena::set_lanes`. -/
def setLanes (a : ConcurrentArena w) (lanes unit poolBytes : BitVec w) : ConcurrentArena w :=
  let asked := if poolBytes > a.capacity then a.capacity else poolBytes
  let pool := asked / unit * unit
  let laneRoom := (a.capacity - pool) / unit * unit
  { a with
    laneUnit := unit
    poolBegin := laneRoom
    lanes := (List.range lanes.toNat).map fun i =>
      let first := cut laneRoom lanes unit i
      let last := cut laneRoom lanes unit (i + 1)
      ⟨first, first, if last > first then last else first⟩
    size := laneRoom }

/-- The part of `alloc` between the load of `size_` and the compare-exchange: where the block
would start and end, or `none` when it does not fit. -/
def fit (a : ConcurrentArena w) (oldSize size align : BitVec w) : Option (BitVec w × BitVec w) :=
  let aligned := Base.roundUp oldSize align
  if aligned > a.capacity || size > a.capacity - aligned then none
  else some (aligned, aligned + size)

/-- The watermark `commit_until` aims at: a whole chunk, clipped to the capacity. -/
def chunkEnd (a : ConcurrentArena w) (upTo : BitVec w) : BitVec w :=
  let next := Base.roundUp upTo (commitChunkBytes w)
  if next > a.capacity then a.capacity else next

end ConcurrentArena

/-- What a caller asked for. -/
inductive Call (w : Nat) : Type
  | alloc (size align : BitVec w)
  | allocFrom (lane : Nat) (size align : BitVec w)
  | allocExact (size align : BitVec w)
  deriving DecidableEq

/-- Which cursor a block came from. -/
inductive Source : Type
  | shared
  | lane (i : Nat)
  deriving DecidableEq, Repr

/-- A block handed out, or taken and not committed yet. -/
structure Block (w : Nat) : Type where
  source : Source
  offset : BitVec w
  size : BitVec w
  align : BitVec w
  deriving DecidableEq

/-- The offset a block ends at, as the code computes it. -/
def Block.upTo (b : Block w) : BitVec w := b.offset + b.size

/-- Where a thread is. The three last states are the loop of `commit_until` for a block that
the thread has taken. -/
inductive Thread (w : Nat) : Type
  | idle
  | allocLoad (size align : BitVec w)
  | allocSwap (size align oldSize aligned newSize : BitVec w)
  | exactAdd (size align : BitVec w)
  | commitLoad (b : Block w)
  | commitPages (b : Block w) (committed next : BitVec w)
  | commitSwap (b : Block w) (committed next : BitVec w)
  deriving DecidableEq

/-- The arena, its threads, the owner of each lane, and what was handed out and committed. -/
structure World (ι : Type) (w : Nat) : Type where
  arena : ConcurrentArena w
  threads : ι → Thread w
  owner : Nat → ι
  blocks : List (Block w)
  committedBytes : Nat → Bool

/-- A thread at rest makes a call; a thread in a call goes on, and `ok` is what the
environment answers it. -/
inductive Action (w : Nat) : Type
  | call (c : Call w)
  | go (ok : Bool)
  deriving DecidableEq

structure Event (ι : Type) (w : Nat) : Type where
  thread : ι
  action : Action w

/-- What a caller knows of its call: it has not returned, it returned `nullptr`, or it
returned a block. -/
inductive Outcome (w : Nat) : Type
  | pending
  | null
  | block (b : Block w)
  deriving DecidableEq

namespace World

variable [DecidableEq ι]

def setThread (s : World ι w) (t : ι) (state : Thread w) : World ι w :=
  { s with threads := Function.update s.threads t state }

/-- `ConcurrentArena::alloc_from` up to `commit_until`: the lane's one writer moves its
cursor, or gets nothing. -/
def allocFrom (s : World ι w) (t : ι) (lane : Nat) (size align : BitVec w) : Option (World ι w) :=
  match s.arena.lanes[lane]? with
  | none => none
  | some cursor =>
      if size > cursor.laneEnd - cursor.cursor then some s
      else
        let moved := { cursor with cursor := cursor.cursor + size }
        some ({ s with arena := { s.arena with lanes := s.arena.lanes.set lane moved } }.setThread
          t (.commitLoad ⟨.lane lane, cursor.cursor, size, align⟩))

def start (s : World ι w) (t : ι) : Call w → Option (World ι w)
  | .alloc size align => some (s.setThread t (.allocLoad size align))
  | .allocFrom lane size align => s.allocFrom t lane size align
  | .allocExact size align => some (s.setThread t (.exactAdd size align))

/-- One step of a thread inside a call. -/
def advance (s : World ι w) (t : ι) (ok : Bool) : Option (World ι w) :=
  match s.threads t with
  | .idle => none
  | .allocLoad size align =>
      match s.arena.fit s.arena.size size align with
      | none => some (s.setThread t .idle)
      | some (aligned, newSize) =>
          some (s.setThread t (.allocSwap size align s.arena.size aligned newSize))
  | .allocSwap size align oldSize aligned newSize =>
      if ok && s.arena.size == oldSize then
        some ({ s with arena := { s.arena with size := newSize } }.setThread t
          (.commitLoad ⟨.shared, aligned, size, align⟩))
      else some (s.setThread t (.allocLoad size align))
  | .exactAdd size align =>
      some ({ s with arena := { s.arena with size := s.arena.size + size } }.setThread t
        (.commitLoad ⟨.shared, s.arena.size, size, align⟩))
  | .commitLoad b =>
      if b.upTo ≤ s.arena.committedSize then
        some ({ s with blocks := b :: s.blocks }.setThread t .idle)
      else
        some (s.setThread t
          (.commitPages b s.arena.committedSize (s.arena.chunkEnd b.upTo)))
  | .commitPages b committed next =>
      if ok then
        some ({ s with committedBytes := fun x =>
            s.committedBytes x ||
              (decide (committed.toNat ≤ x) && decide (x < next.toNat)) }.setThread
          t (.commitSwap b committed next))
      else some (s.setThread t .idle)
  | .commitSwap b committed next =>
      if ok && s.arena.committedSize == committed then
        some ({ s with
          arena := { s.arena with committedSize := next }
          blocks := b :: s.blocks }.setThread t .idle)
      else some (s.setThread t (.commitLoad b))

def step (e : Event ι w) (s : World ι w) : Option (World ι w) :=
  match e.action with
  | .call c => if s.threads e.thread = .idle then s.start e.thread c else none
  | .go ok => s.advance e.thread ok

/-- What the call of thread `t` has come to with the step from `s` to `s'`. -/
def outcome (s s' : World ι w) (t : ι) : Outcome w :=
  if s'.threads t = .idle then
    if s'.blocks.length = s.blocks.length then .null
    else match s'.blocks with
      | [] => .null
      | b :: _ => .block b
  else .pending

/-- No thread has called yet. -/
def initial (a : ConcurrentArena w) (owner : Nat → ι) : World ι w where
  arena := a
  threads := fun _ => .idle
  owner := owner
  blocks := []
  committedBytes := fun _ => false

end World

end Fpag.Mem
