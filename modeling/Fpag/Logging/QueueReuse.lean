import Fpag.Logging.WorkerLifecycle
import Fpag.Lib.Schedule

/-!
A queue that is reset and initialized again, on its own and as the queue of a `BackendWorker`.

`reset` clears the ring and the four counters of the positions and leaves the two counts of
records that were dropped or had to wait, which the moves do clear. No operation looks at these
counts, so a queue that has been used before does everything a new one does, and tells its counts
as those of a new one on top of what was left (`seen_counting`).
-/

namespace Fpag.Container

variable {w : Nat}

/-- A call on a queue, or a part of one: one more turn of `wait_for_space_producer`, and a byte
that the producer stores in the room it was given. -/
inductive QueueOp (w : Nat) : Type
  | reserve (size align : BitVec w)
  | wait (needed align : BitVec w)
  | write (i : Nat) (b : UInt8)
  | commit (size : BitVec w)
  | enqueue (bytes : List UInt8) (align : BitVec w)
  | peek (size align : BitVec w)
  | discard (size align : BitVec w)
  | dequeue (size align : BitVec w)
  deriving DecidableEq

/-- What a call comes to for its caller. -/
inductive QueueReply (w : Nat) : Type
  | room (result : SpscQueue.Reserved w)
  | bytes (found : Option (List UInt8))
  | done
  deriving DecidableEq

/-- What can be observed of a queue when a call is made. -/
structure QueueView (w : Nat) : Type where
  reply : QueueReply w
  size : BitVec w
  droppedCount : BitVec w
  blockedCount : BitVec w
  deriving DecidableEq

namespace SpscQueue

variable {q : SpscQueue w}

/-- The `memcpy` of `enqueue`. -/
def writeFrom (q : SpscQueue w) (i : Nat) : List UInt8 → SpscQueue w
  | [] => q
  | b :: bytes => (q.setByte i b).writeFrom (i + 1) bytes

/-- `SpscQueue::enqueue` up to its wait. -/
def enqueue (q : SpscQueue w) (bytes : List UInt8) (align : BitVec w) :
    SpscQueue w × Reserved w :=
  let size := BitVec.ofNat w bytes.length
  match q.reserve size align with
  | (q', .ok out) => ((q'.writeFrom out.toNat bytes).commit size, .ok out)
  | (q', status) => (q', status)

def call (q : SpscQueue w) : QueueOp w → SpscQueue w × QueueReply w
  | .reserve size align =>
      let result := q.reserve size align
      (result.1, .room result.2)
  | .wait needed align =>
      if q.availableProducer < needed then (q, .room (.blocked needed))
      else
        let taken := q.take align
        (taken.1, .room (.ok taken.2))
  | .write i b => (q.setByte i b, .done)
  | .commit size => (q.commit size, .done)
  | .enqueue bytes align =>
      let result := q.enqueue bytes align
      (result.1, .room result.2)
  | .peek size align => (q, .bytes (some (q.copyFrom (q.peek align).toNat size.toNat)))
  | .discard size align => (q.discard size align, .done)
  | .dequeue size align =>
      match q.dequeue size align with
      | some (found, q') => (q', .bytes (some found))
      | none => (q, .bytes none)

def view (op : QueueOp w) (q : SpscQueue w) : QueueView w :=
  ⟨(q.call op).2, q.size, q.droppedCount, q.blockedCount⟩

/-- All that a sequence of calls observes. -/
def seen (q : SpscQueue w) (ops : List (QueueOp w)) : List (QueueView w) :=
  Schedule.seen (fun op q => some (q.call op).1) view q ops

/-- No sequence of calls tells the two queues apart. -/
def Alike (q q' : SpscQueue w) : Prop := ∀ ops, q.seen ops = q'.seen ops

/-! ## The counts -/

/-- The queue with so much more on its counts. -/
def counting (dropped blocked : BitVec w) (q : SpscQueue w) : SpscQueue w :=
  { q with droppedCount := dropped + q.droppedCount, blockedCount := blocked + q.blockedCount }

section Counting

variable (dropped blocked : BitVec w) (size align : BitVec w)

theorem reserve_counting : (q.counting dropped blocked).reserve size align =
    ((q.reserve size align).1.counting dropped blocked, (q.reserve size align).2) := by
  have short : ((q.counting dropped blocked).availableProducer <
      (q.counting dropped blocked).neededProducer size align) =
        (q.availableProducer < q.neededProducer size align) := rfl
  unfold reserve
  simp only [short]
  split
  · rw [show (q.counting dropped blocked).mode = q.mode from rfl]
    cases q.mode <;> simp [counting, BitVec.add_assoc, neededProducer]
  · rfl

theorem writeFrom_counting (i : Nat) (bytes : List UInt8) :
    (q.counting dropped blocked).writeFrom i bytes =
      (q.writeFrom i bytes).counting dropped blocked := by
  induction bytes generalizing q i with
  | nil => rfl
  | cons b bytes ih => exact ih (q := q.setByte i b) (i + 1)

theorem enqueue_counting (bytes : List UInt8) : (q.counting dropped blocked).enqueue bytes align =
    ((q.enqueue bytes align).1.counting dropped blocked, (q.enqueue bytes align).2) := by
  unfold enqueue
  simp only [reserve_counting]
  cases (q.reserve (BitVec.ofNat w bytes.length) align) with
  | mk q' status =>
      cases status with
      | ok out =>
          simp only [writeFrom_counting]
          rfl
      | dropped => rfl
      | blocked needed => rfl

/-- No call looks at the counts. -/
theorem call_counting (op : QueueOp w) : (q.counting dropped blocked).call op =
    ((q.call op).1.counting dropped blocked, (q.call op).2) := by
  cases op with
  | reserve size align => simp only [call, reserve_counting]
  | wait needed align =>
      have short : ((q.counting dropped blocked).availableProducer < needed) =
        (q.availableProducer < needed) := rfl
      simp only [call, short]
      split <;> rfl
  | enqueue bytes align => simp only [call, enqueue_counting]
  | dequeue size align =>
      have short : ((q.counting dropped blocked).sizeConsumer <
          (q.counting dropped blocked).neededConsumer size align) =
            (q.sizeConsumer < q.neededConsumer size align) := rfl
      simp only [call, dequeue, short]
      by_cases empty : q.sizeConsumer < q.neededConsumer size align
      · simp only [empty, if_true]
      · simp only [empty, if_false]
        rfl
  | _ => rfl

/-- A queue that differs in its counts does the same, and tells its counts with the difference. -/
theorem seen_counting (ops : List (QueueOp w)) : (q.counting dropped blocked).seen ops =
    (q.seen ops).map fun v => { v with
      droppedCount := dropped + v.droppedCount, blockedCount := blocked + v.blockedCount } := by
  induction ops generalizing q with
  | nil => rfl
  | cons op ops ih =>
      have next := call_counting (q := q) dropped blocked op
      rw [seen, Schedule.seen, view, next]
      exact congrArg _ ih

end Counting

/-- What is left of a queue after `reset` is a new one with the old counts. -/
theorem reset_eq (q : SpscQueue w) :
    q.reset = (fresh w).counting q.droppedCount q.blockedCount := by
  simp [reset, counting, fresh]

theorem init_counting {pageSize : Nat} {ring : Nat → UInt8} {capacity : BitVec w} {mode : Mode}
    {new : SpscQueue w} (init : q.init pageSize ring capacity mode = some new)
    (dropped blocked : BitVec w) : (q.counting dropped blocked).init pageSize ring capacity mode =
      some (new.counting dropped blocked) := by
  unfold SpscQueue.init at init ⊢
  split at init
  · next legal =>
      cases init
      rw [if_pos legal]
      rfl
  · cases init

/-- A new queue and the same one with counts on it are alike only if the counts are zero. -/
theorem alike_counting_iff {dropped blocked : BitVec w} :
    Alike (q.counting dropped blocked) q ↔ dropped = 0 ∧ blocked = 0 := by
  constructor
  · intro alike
    have first := alike [.commit 0]
    rw [seen_counting] at first
    simp only [seen, Schedule.seen, List.map_cons, List.map_nil, List.cons.injEq, view,
      QueueView.mk.injEq, true_and, and_true] at first
    obtain ⟨left, left'⟩ := first
    constructor
    · simpa using left
    · simpa using left'
  · rintro ⟨rfl, rfl⟩ ops
    have same : q.counting 0 0 = q := by simp [counting]
    rw [same]

end SpscQueue

end Fpag.Container

namespace Fpag.Logging.Lifecycle

open Fpag.Container

variable {w : Nat} {S I : Type}

/-- A queue that is reset and initialized again is a new one for all that can be observed, on its
own or in a worker, exactly if it has never counted a record before. -/
theorem reuse_iff {pageSize : Nat} {ring : Nat → UInt8} {capacity : BitVec w} {mode : Mode}
    {new : SpscQueue w}
    (legal : (SpscQueue.fresh w).init pageSize ring capacity mode = some new) (q : SpscQueue w)
    (x : Worker w S I) (sink : S) (interner : I) :
    ((∃ again, q.reset.init pageSize ring capacity mode = some again ∧ again.Alike new) ↔
      q.droppedCount = 0 ∧ q.blockedCount = 0) ∧
    ((∃ y, x.reset.init pageSize sink (some interner) ring capacity mode = some y ∧
      y.queue.Alike new) ↔ x.queue.droppedCount = 0 ∧ x.queue.blockedCount = 0) := by
  have again (q : SpscQueue w) : q.reset.init pageSize ring capacity mode =
      some (new.counting q.droppedCount q.blockedCount) := by
    rw [SpscQueue.reset_eq]
    exact SpscQueue.init_counting legal _ _
  constructor
  · rw [again q]
    simp only [Option.some.injEq, exists_eq_left', SpscQueue.alike_counting_iff]
  · have set_ : x.reset.init pageSize sink (some interner) ring capacity mode =
        some { x.reset with
          queue := new.counting x.queue.droppedCount x.queue.blockedCount, sink := some sink
          interner := some interner, status := .initialized, given := some interner } := by
      have empty : x.reset.status = .notInitialized ∧ x.reset.queue.mapped = false ∧
          (some interner).isSome := ⟨rfl, rfl, rfl⟩
      have queue : x.reset.queue = x.queue.reset := by
        rw [Worker.reset]
        split <;> rfl
      rw [Worker.init, if_pos empty, queue, again x.queue]
      rfl
    rw [set_]
    simp only [Option.some.injEq, exists_eq_left', SpscQueue.alike_counting_iff]

/-- A queue that has just been initialized. -/
def newRing : SpscQueue 64 := { SpscQueue.fresh 64 with mapped := true, capacity := 16 }

/-- The same queue after some calls. -/
def usedRing (ops : List (QueueOp 64)) : SpscQueue 64 :=
  ops.foldl (fun q op => (q.call op).1) newRing

/-- A record went through the queue, and the queue and a worker with it are new after `reset`. -/
theorem reuse_iff_oneRecord :
    (∃ again, (usedRing [.enqueue [1, 2, 3] 1, .dequeue 3 1]).reset.init 16 (fun _ => 0) 16 .drop =
        some again ∧ again.Alike newRing) ∧
      ∃ y : Worker 64 Unit Nat,
        ({ queue := usedRing [.enqueue [1, 2, 3] 1] } : Worker 64 Unit Nat).reset.init 16 ()
          (some 7) (fun _ => 0) 16 .drop = some y ∧ y.queue.Alike newRing := by
  have legal : (SpscQueue.fresh 64).init 16 (fun _ => 0) 16 .drop = some newRing := rfl
  have both := reuse_iff (S := Unit) (I := Nat) legal
    (usedRing [.enqueue [1, 2, 3] 1, .dequeue 3 1])
    { queue := usedRing [.enqueue [1, 2, 3] 1] } () 7
  exact ⟨both.1.mpr ⟨by decide, by decide⟩, both.2.mpr ⟨by decide, by decide⟩⟩

/-- The queue was full once and dropped a record; after `reset` and `init` it still says so. -/
theorem not_reuse_droppedOnce :
    ∃ again, (usedRing [.reserve 16 1, .commit 16, .reserve 1 1]).reset.init 16 (fun _ => 0) 16
        .drop = some again ∧ again.droppedCount = 1 ∧ newRing.droppedCount = 0 ∧
      ¬ again.Alike newRing := by
  refine ⟨newRing.counting 1 0, rfl, rfl, rfl, fun alike => ?_⟩
  exact absurd (SpscQueue.alike_counting_iff.mp alike).1 (by decide)

end Fpag.Logging.Lifecycle
