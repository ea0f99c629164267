import Fpag.Logging.BatchProgress
import Fpag.Logging.FlushBarrier

/-!
The calls that wait for the worker come back.

`flush` waits until the queue is empty, and `stop` and `force_stop` wait until the worker has
left its loop. `Turns` says what one step of the worker can be, with the letters that are left
in the ring before it and after it, and two ranks over it bound how long the wait can be. A
flush waits for ever in one case: the bytes in the ring run across the end of the words of the
counters, where `process_batch` returns before it has looked at a record and the worker comes
back to the same batch again and again.
-/

namespace Fpag.Logging

open Fpag.Container

variable {b : Nat} {program : Program b}

namespace Pipeline

/-- How far the bytes in the ring reach, from where the word of the head stands. -/
def reach (s : Pipeline program) : Nat := s.queue.headCache.toNat + s.queue.sizeConsumer.toNat

/-- The bytes in the ring run up to the end of the words of the counters or across it. -/
def Wraps (s : Pipeline program) : Prop := 2 ^ (8 * b) ≤ s.reach

instance (s : Pipeline program) : Decidable s.Wraps := inferInstanceAs (Decidable (_ ≤ _))

/-- The accepted calls that the worker has not taken out of the ring. -/
def inRing (s : Pipeline program) : Nat :=
  s.accepted.length - ((logged s.events).length + s.worker.inHand.length)

end Pipeline

/-- What the head of the loop of `process_batch` has found is still so. -/
def Worker.InOrder : Worker b → Prop
  | .peek _ currentHead targetHead => currentHead < targetHead
  | .deserialize _ currentHead targetHead _ _ => currentHead < targetHead
  | .discard _ currentHead targetHead _ _ => currentHead < targetHead
  | _ => True

/-! ## Steps of the worker -/

/-- One step of `worker_loop`, with how many letters are in the ring before it and after it. -/
inductive Worker.Turns (now : InternalStatus) (wraps : Prop) :
    Nat → Worker b → Nat → Worker b → Prop
  | forced (n : Nat) (force : now = .forceStopping) : Turns now wraps n .loadStatus n .exited
  | loads (n : Nat) (going : now ≠ .forceStopping) : Turns now wraps n .loadStatus n (.batch now)
  | finds (status : InternalStatus) : Turns now wraps 0 (.batch status) 0 (.flag status false)
  | begins {n : Nat} (status : InternalStatus) (currentHead targetHead : BitVec (8 * b))
      (some_ : n ≠ 0) : Turns now wraps n (.batch status) n (.peek status currentHead targetHead)
  | skips {n : Nat} (status : InternalStatus) (some_ : n ≠ 0) (across : wraps) :
      Turns now wraps n (.batch status) n (.flag status true)
  | peeks {n : Nat} (status : InternalStatus) (currentHead targetHead dataPtr : BitVec (8 * b))
      (header : Header b) (some_ : n ≠ 0) :
      Turns now wraps n (.peek status currentHead targetHead) n
        (.deserialize status currentHead targetHead dataPtr header)
  | decodes {n : Nat} (status : InternalStatus) (currentHead targetHead dataPtr : BitVec (8 * b))
      (header : Header b) (entry : LogEntry) (some_ : n ≠ 0) :
      Turns now wraps n (.deserialize status currentHead targetHead dataPtr header) n
        (.discard status currentHead targetHead header.payloadSize entry)
  | discards (n : Nat) (status : InternalStatus) (currentHead head' targetHead : BitVec (8 * b))
      (payloadSize : Nat) (entry : LogEntry) :
      Turns now wraps (n + 1) (.discard status currentHead targetHead payloadSize entry) n
        (.log status head' targetHead entry)
  | goesOn {n : Nat} (status : InternalStatus) (currentHead targetHead : BitVec (8 * b))
      (entry : LogEntry) (some_ : n ≠ 0) :
      Turns now wraps n (.log status currentHead targetHead entry) n
        (.peek status currentHead targetHead)
  | ends (n : Nat) (status : InternalStatus) (currentHead targetHead : BitVec (8 * b))
      (entry : LogEntry) :
      Turns now wraps n (.log status currentHead targetHead entry) n (.flag status true)
  | answers (n : Nat) (status : InternalStatus) (processed : Bool) :
      Turns now wraps n (.flag status processed) n (.sinkFlush status processed)
  | passes (n : Nat) (status : InternalStatus) (processed : Bool) :
      Turns now wraps n (.flag status processed) n (.exitTest status processed)
  | flushes (n : Nat) (status : InternalStatus) (processed : Bool) :
      Turns now wraps n (.sinkFlush status processed) n (.clear status processed)
  | clears (n : Nat) (status : InternalStatus) (processed : Bool) :
      Turns now wraps n (.clear status processed) n (.exitTest status processed)
  | leaves : Turns now wraps 0 (.exitTest .stopping false) 0 .exited
  | again (n : Nat) (status : InternalStatus) (processed : Bool)
      (going : ¬ (status = .stopping ∧ processed = false ∧ n = 0)) :
      Turns now wraps n (.exitTest status processed) n .loadStatus

variable {base : BitVec (8 * b)} {s s' : Pipeline program} {head tail cache : Nat}
  {letters : List (Letter program)} {opened : Option (Letter program)}
  {done : List (LogCall program)}

theorem Pipeline.turn_inOrder (status : InternalStatus) (currentHead targetHead : BitVec (8 * b)) :
    (s.turn status currentHead targetHead).worker.InOrder := by
  unfold Pipeline.turn
  split
  · next before => exact before
  · trivial

theorem Worker.InOrder.advance (inOrder : s.worker.InOrder) (step : s.advanceWorker = some s') :
    s'.worker.InOrder := by
  unfold Pipeline.advanceWorker at step
  split at step
  · split at step <;> cases step <;> trivial
  · dsimp only at step
    split at step <;> cases step
    · trivial
    · exact Pipeline.turn_inOrder _ _ _
  · next status currentHead targetHead here =>
      rw [here] at inOrder
      dsimp only at step
      split at step <;> cases step
      exact inOrder
  · next status currentHead targetHead dataPtr header here =>
      rw [here] at inOrder
      split at step
      · cases step
      · dsimp only at step
        split at step <;> cases step
        exact inOrder
  · cases step
    trivial
  · cases step
    exact Pipeline.turn_inOrder _ _ _
  · split at step <;> cases step <;> trivial
  · cases step
    trivial
  · cases step
    trivial
  · split at step <;> cases step <;> trivial
  · cases step

theorem InBatch.length_ne_zero {currentHead targetHead : BitVec (8 * b)} {letter : Letter program}
    {batch : List (Letter program)}
    (inBatch : InBatch head letters currentHead targetHead (letter :: batch)) :
    letters.length ≠ 0 := by
  obtain ⟨⟨rest, rfl⟩, -, -⟩ := inBatch
  exact Nat.succ_ne_zero _

namespace Flows

/-- With the producer at rest, what is not taken out of the ring are its letters. -/
theorem inRing_eq (flows : Flows base s head tail cache letters opened done)
    (rest : s.producer = .idle) : s.inRing = letters.length := by
  have accepted := congrArg List.length flows.accepted
  have passed := congrArg List.length flows.logged
  rw [flows.opened_none rest] at accepted
  simp only [List.length_append, List.length_map, Option.toList_none, List.append_nil]
    at accepted passed
  rw [Pipeline.inRing]
  omega

theorem reach_eq (flows : Flows base s head tail cache letters opened done) :
    s.reach = (BitVec.ofNat (8 * b) head).toNat + (tail - head) := by
  have tracks := flows.settled.tracks
  rw [Pipeline.reach, tracks.sizeConsumer flows.settled.shaped, tracks.headCache_eq]

theorem size_eq_zero_iff (flows : Flows base s head tail cache letters opened done) :
    tail - head = 0 ↔ letters = [] := by
  have tracks := flows.settled.tracks
  have size := tracks.size flows.settled.shaped
  constructor
  · intro none_
    refine flows.letters_nil ?_
    rw [SpscQueue.empty, beq_iff_eq]
    exact BitVec.eq_of_toNat_eq (by rw [size, none_]; rfl)
  · intro none_
    have ends := flows.settled.ends
    rw [none_] at ends
    change head = tail at ends
    omega

theorem empty_iff (flows : Flows base s head tail cache letters opened done) :
    s.queue.empty = true ↔ letters = [] := by
  rw [← flows.size_eq_zero_iff, ← flows.settled.tracks.size flows.settled.shaped, SpscQueue.empty,
    beq_iff_eq, ← BitVec.toNat_inj]
  rfl

theorem sizeConsumer_eq_zero_iff (flows : Flows base s head tail cache letters opened done) :
    s.queue.sizeConsumer = 0 ↔ letters = [] := by
  rw [← flows.size_eq_zero_iff, ← flows.settled.tracks.sizeConsumer flows.settled.shaped,
    ← BitVec.toNat_inj]
  rfl

theorem begins_or_wraps (some_ : s.queue.sizeConsumer ≠ 0) :
    s.queue.headCache < s.queue.headCache + s.queue.sizeConsumer ∨ s.Wraps := by
  by_cases across : s.Wraps
  · exact Or.inr across
  · have pos : 0 < s.queue.sizeConsumer.toNat := by
      rw [Nat.pos_iff_ne_zero]
      intro zero
      exact some_ (BitVec.eq_of_toNat_eq zero)
    unfold Pipeline.Wraps Pipeline.reach at across
    refine Or.inl ?_
    rw [BitVec.lt_def, BitVec.toNat_add, Nat.mod_eq_of_lt (by omega)]
    omega

/-- A letter that the loop has found in front of its target is one behind which the words of the
counters go on. -/
theorem reach_stop (flows : Flows base s head tail cache letters opened done)
    {letter : Letter program} {batch : List (Letter program)}
    {currentHead targetHead : BitVec (8 * b)}
    (inBatch : InBatch head letters currentHead targetHead (letter :: batch))
    (inOrder : currentHead < targetHead) :
    (BitVec.ofNat (8 * b) (letter.record.stop head)).toNat + (tail - letter.record.stop head) =
      s.reach := by
  obtain ⟨⟨rest, rfl⟩, rfl, rfl⟩ := inBatch
  have settled := flows.settled
  have takes := settled.takes
  have ends := settled.ends
  rw [List.map_append, endOf_append] at ends
  rw [List.map_append] at takes
  have low := (takes letter.record (List.mem_append_left _ List.mem_cons_self)).le_stop head
  have inside := SpscQueue.le_endOf (fun r there => takes r (List.mem_append_right _ there))
    (endOf head ((letter :: batch).map Letter.record))
  have first := SpscQueue.le_endOf (fun r there => takes r
    (List.mem_append_left _ (List.mem_cons_of_mem _ there))) (letter.record.stop head)
  change letter.record.stop head ≤ endOf head ((letter :: batch).map Letter.record) at first
  have room := settled.tracks.room
  have above := settled.tracks.tail_le
  have half := settled.shaped.half
  have pos := settled.shaped.pos
  obtain ⟨k, end_⟩ := Nat.exists_eq_add_of_le (low.trans first)
  -- The target is a word behind the head, so no word in between wraps.
  have whole : (BitVec.ofNat (8 * b) head).toNat + k < 2 ^ (8 * b) := by
    by_contra across
    rw [end_, BitVec.lt_def, BitVec.ofNat_add, BitVec.toNat_add, BitVec.toNat_ofNat k,
      Nat.mod_eq_of_lt (show k < 2 ^ (8 * b) by omega)] at inOrder
    have small := (BitVec.ofNat (8 * b) head).isLt
    rw [Nat.mod_eq_sub_mod (by omega), Nat.mod_eq_of_lt (by omega)] at inOrder
    omega
  rw [flows.reach_eq, toNat_ofNat_within whole low (by omega)]
  omega

/-- A step of the worker that leaves the queue alone. -/
theorem turns_move {worker : Worker b} {events : List SinkEvent} {requested : Bool}
    (passed : Logging.logged events ++ worker.inHand
      = Logging.logged s.events ++ s.worker.inHand)
    (turns : Worker.Turns s.status s.Wraps s.inRing s.worker s.inRing worker)
    (moved : s' = { s with worker := worker, events := events, flushRequested := requested }) :
    s'.reach = s.reach ∧ Worker.Turns s.status s.Wraps s.inRing s.worker s'.inRing s'.worker := by
  have same : s'.inRing = s.inRing := by
    have length := congrArg List.length passed
    simp only [List.length_append] at length
    rw [moved, Pipeline.inRing, Pipeline.inRing, ← length]
  rw [same, moved]
  exact ⟨rfl, turns⟩

/-- What a step of the worker is while the producer is at rest. -/
theorem turns (flows : Flows base s head tail cache letters opened done)
    (rest : s.producer = .idle) (inOrder : s.worker.InOrder) (step : s.advanceWorker = some s') :
    s'.reach = s.reach ∧
      Worker.Turns s.status s.Wraps s.inRing s.worker s'.inRing s'.worker := by
  have count := flows.inRing_eq rest
  have ok := flows.worker
  unfold Pipeline.advanceWorker at step
  split at step
  · next here =>
      split at step
      · next force =>
          cases step
          exact turns_move (by simp [here, Worker.inHand]) (here ▸ .forced _ force) rfl
      · next going =>
          cases step
          exact turns_move (by simp [here, Worker.inHand]) (here ▸ .loads _ going) rfl
  · next status here =>
      dsimp only at step
      split at step
      · next zero =>
          cases step
          have none_ : s.inRing = 0 := by
            rw [count, flows.sizeConsumer_eq_zero_iff.mp zero]
            rfl
          exact turns_move (by simp [here, Worker.inHand])
            (by rw [here, none_]; exact .finds status) rfl
      · next some_ =>
          cases step
          have left : s.inRing ≠ 0 := by
            rw [count, ne_eq, List.length_eq_zero_iff, ← flows.sizeConsumer_eq_zero_iff]
            exact some_
          unfold Pipeline.turn
          split
          · exact turns_move (by simp [here, Worker.inHand]) (here ▸ .begins _ _ _ left) rfl
          · next not =>
              have across : s.Wraps := (begins_or_wraps some_).resolve_left not
              exact turns_move (by simp [here, Worker.inHand]) (here ▸ .skips _ left across) rfl
  · next status currentHead targetHead here =>
      rw [here] at ok
      obtain ⟨letter, batch, inBatch⟩ := ok
      have left : s.inRing ≠ 0 := count ▸ inBatch.length_ne_zero
      simp only [flows.readHeader_eq inBatch] at step
      cases step
      exact turns_move (by simp [here, Worker.inHand]) (here ▸ .peeks _ _ _ _ _ left) rfl
  · next status currentHead targetHead dataPtr header here =>
      rw [here] at ok
      obtain ⟨letter, batch, inBatch, rfl, rfl⟩ := ok
      have left : s.inRing ≠ 0 := count ▸ inBatch.length_ne_zero
      simp only [letter.call.linked, flows.copyFrom inBatch, letter.deserialize_eq] at step
      cases step
      exact turns_move (by simp [here, Worker.inHand]) (here ▸ .decodes _ _ _ _ _ _ left) rfl
  · next status currentHead targetHead payloadSize entry here =>
      have found := ok
      rw [here] at found inOrder
      obtain ⟨letter, batch, inBatch, rfl, same⟩ := found
      obtain ⟨letters', rfl, next⟩ := flows.discard here inBatch same
      cases step
      have count' := next.inRing_eq rest
      refine ⟨?_, ?_⟩
      · rw [next.reach_eq]
        exact flows.reach_stop inBatch inOrder
      · rw [here, count, count', List.length_cons]
        exact .discards _ _ _ _ _ _ _
  · next status currentHead targetHead entry here =>
      rw [here] at ok
      obtain ⟨batch, inBatch⟩ := ok
      cases step
      unfold Pipeline.turn
      split
      · next before =>
          have left : s.inRing ≠ 0 := by
            cases batch with
            | nil =>
                obtain ⟨-, rfl, rfl⟩ := inBatch
                exact absurd before (BitVec.lt_irrefl _)
            | cons letter batch => exact count ▸ inBatch.length_ne_zero
          exact turns_move (by simp [here, Worker.inHand]) (here ▸ .goesOn _ _ _ _ left) rfl
      · exact turns_move (by simp [here, Worker.inHand]) (here ▸ .ends _ _ _ _ _) rfl
  · next status processed here =>
      split at step <;> cases step
      · exact turns_move (by simp [here, Worker.inHand]) (here ▸ .answers _ _ _) rfl
      · exact turns_move (by simp [here, Worker.inHand]) (here ▸ .passes _ _ _) rfl
  · next status processed here =>
      cases step
      exact turns_move (by simp [here, Worker.inHand]) (here ▸ .flushes _ _ _) rfl
  · next status processed here =>
      cases step
      exact turns_move (by simp [here, Worker.inHand]) (here ▸ .clears _ _ _) rfl
  · next status processed here =>
      split at step
      · next last =>
          cases step
          simp only [Bool.and_eq_true, decide_eq_true_eq, Bool.not_eq_true'] at last
          obtain ⟨⟨rfl, rfl⟩, empty⟩ := last
          have none_ : s.inRing = 0 := by
            rw [count, flows.empty_iff.mp empty]
            rfl
          exact turns_move (by simp [here, Worker.inHand]) (by rw [here, none_]; exact .leaves) rfl
      · next going =>
          cases step
          refine turns_move (by simp [here, Worker.inHand]) (here ▸ .again _ _ _ ?_) rfl
          rintro ⟨rfl, rfl, none_⟩
          rw [count, List.length_eq_zero_iff] at none_
          exact going (by simp [flows.empty_iff.mpr none_])
  · cases step

end Flows

/-! ## How long a wait can be -/

/-- How many steps the worker can still make before it takes the next record out of a ring that
is not empty. -/
def Worker.untilTaken : Worker b → Nat
  | .log _ _ _ _ => 10
  | .flag _ _ => 9
  | .sinkFlush _ _ => 8
  | .clear _ _ => 7
  | .exitTest _ _ => 6
  | .loadStatus => 5
  | .batch _ => 4
  | .peek _ _ _ => 3
  | .deserialize _ _ _ _ _ => 2
  | .discard _ _ _ _ _ => 1
  | .exited => 0

/-- What a turn of the loop that does not leave it adds. -/
def InternalStatus.again (status : InternalStatus) (processed : Bool) : Nat :=
  if status = .stopping ∧ processed = false then 0 else 6

/-- How many steps the worker can still make when it has been told to come to its end, with `n`
letters in the ring. -/
def Worker.untilExit (now : InternalStatus) (n : Nat) : Worker b → Nat
  | .log _ _ _ _ => 4 * n + 11
  | .peek _ _ _ => 4 * n + 10
  | .deserialize _ _ _ _ _ => 4 * n + 9
  | .discard _ _ _ _ _ => 4 * n + 8
  | .batch status => if n = 0 ∧ status = .stopping then 5 else 4 * n + 11
  | .flag status processed => status.again processed + 4
  | .sinkFlush status processed => status.again processed + 3
  | .clear status processed => status.again processed + 2
  | .exitTest status processed => status.again processed + 1
  | .loadStatus => if now = .forceStopping then 1 else 6
  | .exited => 0

namespace Worker

variable {now : InternalStatus} {wraps : Prop} {n n' : Nat} {worker worker' : Worker b}

theorem untilTaken_le (worker : Worker b) : worker.untilTaken ≤ 10 := by
  cases worker <;> simp [untilTaken]

theorem untilExit_le (worker : Worker b) (now : InternalStatus) (n : Nat) :
    worker.untilExit now n ≤ 4 * n + 11 := by
  cases worker <;> simp only [untilExit, InternalStatus.again] <;> (try split) <;> omega

/-- A step that leaves letters in the ring brings the next one nearer to the sink. -/
theorem Turns.lowers_untilTaken (turns : Turns now wraps n worker n' worker') (whole : ¬ wraps)
    (going : now ≠ .forceStopping) (left : n' ≠ 0) :
    n ≠ 0 ∧ 11 * n' + worker'.untilTaken + 1 ≤ 11 * n + worker.untilTaken := by
  cases turns with
  | forced _ force => exact (going force).elim
  | skips _ _ across => exact (whole across).elim
  | finds => exact (left rfl).elim
  | leaves => exact (left rfl).elim
  | discards =>
      simp only [untilTaken]
      omega
  | _ =>
      simp only [untilTaken]
      omega

/-- Every step of a worker that has been told to come to its end brings it nearer to it. -/
theorem Turns.lowers_untilExit (turns : Turns now wraps n worker n' worker')
    (ends : now = .forceStopping ∨ now = .stopping ∧ n = 0)
    (read : worker.status = some .stopping → now = .stopping) :
    n' ≤ n ∧ worker'.untilExit now n' + 1 ≤ worker.untilExit now n := by
  cases turns with
  | forced _ force => exact ⟨Nat.le_refl _, by simp [untilExit, force]⟩
  | loads _ going =>
      obtain ⟨rfl, rfl⟩ := ends.resolve_left going
      exact ⟨Nat.le_refl _, by simp [untilExit]⟩
  | finds status =>
      refine ⟨Nat.le_refl _, ?_⟩
      simp only [untilExit, InternalStatus.again, true_and, and_true]
      split <;> omega
  | discards =>
      refine ⟨Nat.le_succ _, ?_⟩
      simp only [untilExit]
      omega
  | again _ status processed going =>
      refine ⟨Nat.le_refl _, ?_⟩
      have more : status.again processed = 6 := by
        rw [InternalStatus.again, if_neg]
        rintro ⟨rfl, rfl⟩
        -- A worker that has read that it is to stop finds nothing in the ring.
        have stopping := read rfl
        rcases ends with force | ⟨-, none_⟩
        · exact absurd (stopping.symm.trans force) (by decide)
        · exact going ⟨rfl, rfl, none_⟩
      simp only [untilExit, more]
      split <;> omega
  | begins _ _ _ some_ =>
      refine ⟨Nat.le_refl _, ?_⟩
      simp only [untilExit, some_, false_and, if_false]
      omega
  | skips _ some_ across =>
      refine ⟨Nat.le_refl _, ?_⟩
      simp only [untilExit, some_, false_and, if_false, InternalStatus.again]
      split <;> omega
  | ends =>
      refine ⟨Nat.le_refl _, ?_⟩
      simp only [untilExit, InternalStatus.again]
      split <;> omega
  | _ =>
      refine ⟨Nat.le_refl _, ?_⟩
      simp only [untilExit]
      omega

end Worker

/-! ## Runs -/

/-- What holds between the steps of every run. -/
structure Steady (base : BitVec (8 * b)) (s : Pipeline program) : Prop where
  flows : Inv base s
  inOrder : s.worker.InOrder
  drained : s.app = .storing ∨ s.status = .stopping → s.queue.empty = true
  told : s.app.Ending → s.status.Ends

theorem Worker.Turns.le {now : InternalStatus} {wraps : Prop} {n n' : Nat}
    {worker worker' : Worker b} (turns : Turns now wraps n worker n' worker') : n' ≤ n := by
  cases turns with
  | discards => exact Nat.le_succ _
  | _ => exact Nat.le_refl _

/-- The worker changes nothing that the application decides by. -/
theorem Pipeline.advanceWorker_frame (step : s.advanceWorker = some s') :
    s'.app = s.app ∧ s'.status = s.status ∧ s'.producer = s.producer := by
  unfold Pipeline.advanceWorker Pipeline.turn at step
  split at step
  · split at step <;> cases step <;> exact ⟨rfl, rfl, rfl⟩
  · dsimp only at step
    split at step
    · cases step
      exact ⟨rfl, rfl, rfl⟩
    · split at step <;> cases step <;> exact ⟨rfl, rfl, rfl⟩
  · dsimp only at step
    split at step <;> cases step
    exact ⟨rfl, rfl, rfl⟩
  · split at step
    · cases step
    · dsimp only at step
      split at step <;> cases step
      exact ⟨rfl, rfl, rfl⟩
  · cases step
    exact ⟨rfl, rfl, rfl⟩
  · split at step <;> cases step <;> exact ⟨rfl, rfl, rfl⟩
  · split at step <;> cases step <;> exact ⟨rfl, rfl, rfl⟩
  · cases step
    exact ⟨rfl, rfl, rfl⟩
  · cases step
    exact ⟨rfl, rfl, rfl⟩
  · split at step <;> cases step <;> exact ⟨rfl, rfl, rfl⟩
  · cases step

theorem Pipeline.after_app (s : Pipeline program) (call : LogCall program)
    (result : SpscQueue (8 * b) × Producer (8 * b) × Progress) :
    ((s.after call result).app ≠ .storing ∧ ¬ (s.after call result).app.Ending) ∧
      (s.after call result).status = s.status := by
  obtain ⟨q, p, progress⟩ := result
  cases progress <;> exact ⟨⟨by rintro ⟨⟩, id⟩, rfl⟩

namespace Steady

/-- While the application waits, the producer is at rest. -/
theorem rest (steady : Steady base s) (waits : s.app = .storing ∨ s.app.Ending) :
    s.producer = .idle := by
  apply steady.flows.idle_of_app
  rintro call logging
  rw [logging] at waits
  rcases waits with waits | waits <;> cases waits

theorem byWorker (steady : Steady base s) (step : s.advanceWorker = some s') : Steady base s' := by
  obtain ⟨app, status, producer⟩ := Pipeline.advanceWorker_frame step
  refine ⟨steady.flows.step (e := .worker) step, steady.inOrder.advance step, ?_,
    app ▸ status ▸ steady.told⟩
  rw [app, status]
  intro last
  obtain ⟨head, tail, cache, letters, opened, done, flows⟩ := id steady.flows
  obtain ⟨head', letters', done', next⟩ := flows.advanceWorker step
  have rest := steady.rest (last.imp_right fun stopping => flows.ending (by rw [stopping]; trivial))
  have turns := (flows.turns rest steady.inOrder step).2.le
  rw [flows.inRing_eq rest, next.inRing_eq (producer.trans rest),
    flows.empty_iff.mp (steady.drained last)] at turns
  exact next.empty_iff.mpr (List.eq_nil_of_length_eq_zero (Nat.le_zero.mp turns))

/-- A step of the application after which it is neither about to tell the worker nor has told it. -/
theorem of_quiet (flows : Inv base s') (inOrder : s'.worker.InOrder)
    (quiet : s'.app ≠ .storing ∧ ¬ s'.app.Ending) (going : s'.status ≠ .stopping) :
    Steady base s' :=
  ⟨flows, inOrder, fun last => (last.elim quiet.1 going).elim, fun ends => (quiet.2 ends).elim⟩

theorem byApp (steady : Steady base s) {e : PipelineEvent program} (app : e ≠ .worker)
    (step : Pipeline.step e s = some s') : Steady base s' := by
  obtain ⟨head, tail, cache, letters, opened, done, flows⟩ := id steady.flows
  obtain ⟨worker, -, -⟩ := Pipeline.step_frame app step
  have inOrder : s'.worker.InOrder := worker ▸ steady.inOrder
  have going (not : ¬ s.app.Ending) : s.status ≠ .stopping := fun stopping =>
    not (flows.ending (by rw [stopping]; trivial))
  have flows' := steady.flows.step step
  unfold Pipeline.step at step
  split at step
  · next call idle =>
      have before := going (by rw [idle]; exact id)
      unfold Pipeline.log at step
      split at step <;> cases step
      next r request =>
        obtain ⟨quiet, status⟩ := Pipeline.after_app { s with calls := s.calls + 1 } call
          (Producer.request s.queue r)
        exact of_quiet flows' inOrder quiet (status.trans_ne before)
  · next idle =>
      cases step
      exact of_quiet flows' inOrder ⟨by rintro ⟨⟩, id⟩ (going (by rw [idle]; exact id))
  · next idle =>
      cases step
      exact of_quiet flows' inOrder ⟨by rintro ⟨⟩, id⟩ (going (by rw [idle]; exact id))
  · cases step
    exact ⟨flows', inOrder, by rintro (⟨⟨⟩⟩ | ⟨⟨⟩⟩), fun _ => trivial⟩
  · unfold Pipeline.advanceApp at step
    split at step
    · next call logging =>
        obtain ⟨result, -, rfl⟩ := Option.map_eq_some_iff.mp step
        obtain ⟨quiet, status⟩ := Pipeline.after_app s call result
        exact of_quiet flows' inOrder quiet
          (status.trans_ne (going (by rw [logging]; exact id)))
    · next next before flushing =>
        split at step <;> cases step
        · next empty =>
            refine ⟨flows', inOrder, fun _ => empty, ?_⟩
            cases next <;> exact False.elim
        · exact steady
    · next storing =>
        cases step
        exact ⟨flows', inOrder, fun _ => steady.drained (Or.inl storing), fun _ => trivial⟩
    · next joining =>
        split at step <;> cases step
        refine ⟨flows', inOrder, ?_, fun _ => steady.told (by rw [joining]; trivial)⟩
        rintro (⟨⟨⟩⟩ | stopping)
        exact steady.drained (Or.inr stopping)
    · cases step
  · exact (app rfl).elim
  · cases step

theorem step {e : PipelineEvent program} (step : Pipeline.step e s = some s')
    (steady : Steady base s) : Steady base s' := by
  by_cases worker : e = .worker
  · subst worker
    exact steady.byWorker step
  · exact steady.byApp worker step

theorem start {q : SpscQueue (8 * b)} (prepared : Prepared q) :
    Steady q.droppedCount (Pipeline.start q : Pipeline program) :=
  ⟨Inv.start prepared, trivial, by rintro (⟨⟨⟩⟩ | ⟨⟨⟩⟩), False.elim⟩

end Steady

/-! ## `flush` -/

/-- The application is inside `wait_for_flush`. -/
def App.waits : App program → Bool
  | .flushing _ _ => true
  | _ => false

/-- The application is inside a `wait_for_flush` of its own. -/
def App.flushes : App program → Bool
  | .flushing .back _ => true
  | _ => false

/-- Where the application goes on when its flush has returned. -/
def AfterFlush.app (next : AfterFlush) : App program :=
  match next with
  | .back => .idle
  | .stop => .storing

/-- The steps of the pipeline while the application waits for a flush. -/
def Pipeline.waitStep : PipelineEvent program → Pipeline program → Option (Pipeline program) :=
  Schedule.guarded (fun _ s => s.app.waits = true) Pipeline.step

/-- What a step can be while the application waits for a flush. -/
theorem Pipeline.step_of_flushing {e : PipelineEvent program} {next : AfterFlush}
    {before : List (LogCall program)} (waits : s.app = .flushing next before)
    (step : Pipeline.step e s = some s') :
    (e = .worker ∧ s.advanceWorker = some s') ∨ (e = .app ∧ s.queue.empty = false ∧ s' = s) ∨
      (e = .app ∧ s.queue.empty = true ∧
        s' = { s with app := next.app, barriers := ⟨before, s.events⟩ :: s.barriers }) := by
  cases e with
  | worker =>
      refine Or.inl ⟨rfl, ?_⟩
      simpa [Pipeline.step] using step
  | app =>
      simp only [Pipeline.step, Pipeline.advanceApp, waits] at step
      split at step <;> cases step
      · next empty => exact Or.inr (Or.inr ⟨rfl, empty, by cases next <;> rfl⟩)
      · next some_ => exact Or.inr (Or.inl ⟨rfl, by simpa using some_, rfl⟩)
  | _ => simp [Pipeline.step, waits] at step

theorem App.exists_of_waits {app : App program} (waits : app.waits = true) :
    ∃ next before, app = .flushing next before := by
  cases app with
  | flushing next before => exact ⟨next, before, rfl⟩
  | _ => cases waits

/-- A waiting flush has a ring that the worker gets through. -/
structure Awaited (base : BitVec (8 * b)) (s : Pipeline program) : Prop where
  steady : Steady base s
  whole : s.app.waits = true → ¬ s.Wraps

/-- How many steps the worker can still make before the ring is empty. -/
def Pipeline.untilEmpty (s : Pipeline program) : Nat := 11 * s.inRing + s.worker.untilTaken

namespace Steady

theorem exists_flows (steady : Steady base s) (waits : s.app.waits = true) :
    s.producer = .idle ∧ s.status ≠ .stopping ∧ s.status ≠ .forceStopping ∧
      ∃ head tail cache letters opened done, Flows base s head tail cache letters opened done := by
  obtain ⟨head, tail, cache, letters, opened, done, flows⟩ := id steady.flows
  obtain ⟨next, before, app⟩ := App.exists_of_waits waits
  have going : ¬ s.status.Ends := by
    intro ends
    have ending := flows.ending ends
    rw [app] at ending
    exact ending
  refine ⟨steady.flows.idle_of_app (by simp [app]), ?_, ?_, _, _, _, _, _, _, flows⟩
  · intro stopping
    exact going (by rw [stopping]; trivial)
  · intro force
    exact going (by rw [force]; trivial)

/-- What a step of the worker is while the application waits for a flush. -/
theorem turns (steady : Steady base s) (waits : s.app.waits = true)
    (step : s.advanceWorker = some s') :
    s'.reach = s.reach ∧ Worker.Turns s.status s.Wraps s.inRing s.worker s'.inRing s'.worker := by
  obtain ⟨rest, -, -, head, tail, cache, letters, opened, done, flows⟩ := steady.exists_flows waits
  exact flows.turns rest steady.inOrder step

theorem empty_iff (steady : Steady base s) (waits : s.app.waits = true) :
    s.queue.empty = true ↔ s.inRing = 0 := by
  obtain ⟨rest, -, -, head, tail, cache, letters, opened, done, flows⟩ := steady.exists_flows waits
  rw [flows.empty_iff, flows.inRing_eq rest, List.length_eq_zero_iff]

end Steady

theorem Awaited.step {e : PipelineEvent program} (step : Pipeline.waitStep e s = some s')
    (awaited : Awaited base s) : Awaited base s' := by
  obtain ⟨waits, step⟩ := Schedule.guarded_eq_some.mp step
  refine ⟨awaited.steady.step step, fun waits' => ?_⟩
  obtain ⟨next, before, app⟩ := App.exists_of_waits waits
  rcases Pipeline.step_of_flushing app step with ⟨-, moved⟩ | ⟨-, -, rfl⟩ | ⟨-, -, rfl⟩
  · rw [Pipeline.Wraps, (awaited.steady.turns waits moved).1]
    exact awaited.whole waits
  · exact awaited.whole waits
  · cases next <;> cases waits'

/-- Every step of the worker while the ring is not empty counts. -/
theorem Awaited.lowers {e : PipelineEvent program} (step : Pipeline.waitStep e s = some s')
    (awaited : Awaited base s) (busy : s'.app.waits = true ∧ s'.queue.empty = false) :
    (s.app.waits = true ∧ s.queue.empty = false) ∧
      s'.untilEmpty + (if e.byWorker then 1 else 0) ≤ s.untilEmpty := by
  have after := (awaited.step step).steady
  obtain ⟨waits, step⟩ := Schedule.guarded_eq_some.mp step
  obtain ⟨next, before, app⟩ := App.exists_of_waits waits
  rcases Pipeline.step_of_flushing app step with ⟨rfl, moved⟩ | ⟨rfl, some_, rfl⟩ | ⟨rfl, -, rfl⟩
  · obtain ⟨-, turns⟩ := awaited.steady.turns waits moved
    obtain ⟨-, -, going, -⟩ := awaited.steady.exists_flows waits
    have left : s'.inRing ≠ 0 := by
      intro none_
      rw [(after.empty_iff busy.1).mpr none_] at busy
      exact absurd busy.2 (by decide)
    obtain ⟨some_, less⟩ := turns.lowers_untilTaken (awaited.whole waits) going left
    refine ⟨⟨waits, ?_⟩, less⟩
    rw [← Bool.not_eq_true, awaited.steady.empty_iff waits]
    exact some_
  · exact ⟨⟨waits, some_⟩, Nat.le_refl _⟩
  · obtain ⟨gone, -⟩ := busy
    cases next <;> cases gone

/-- A flush that waits over a ring that reaches across the end of the words waits on. -/
theorem Steady.stuck {e : PipelineEvent program} (step : Pipeline.step e s = some s')
    {app : App program} (waits : app.waits = true)
    (stuck : Steady base s ∧ s.app = app ∧ s.Wraps) : Steady base s' ∧ s'.app = app ∧ s'.Wraps := by
  obtain ⟨steady, rfl, across⟩ := stuck
  obtain ⟨next, before, app⟩ := App.exists_of_waits waits
  refine ⟨steady.step step, ?_⟩
  rcases Pipeline.step_of_flushing app step with ⟨-, moved⟩ | ⟨-, -, rfl⟩ | ⟨-, empty, rfl⟩
  · refine ⟨(Pipeline.advanceWorker_frame moved).1, ?_⟩
    rw [Pipeline.Wraps, (steady.turns waits moved).1]
    exact across
  · exact ⟨rfl, across⟩
  · obtain ⟨rest, -, -, head, tail, cache, letters, opened, done, flows⟩ :=
      steady.exists_flows waits
    have none_ := flows.sizeConsumer_eq_zero_iff.mpr (flows.empty_iff.mp empty)
    have small := s.queue.headCache.isLt
    unfold Pipeline.Wraps Pipeline.reach at across
    have zero : (0 : BitVec (8 * b)).toNat = 0 := rfl
    rw [none_, zero] at across
    omega

/-- `flush` comes back, and so does the flush that `stop` begins with: after eleven steps of the
worker for each record in the ring, and ten more, the next look of `wait_for_flush` is the last
one. Over a ring that reaches across the end of the words of its counters it never comes back. -/
theorem flush_returns (wide : 4 ≤ b) {pageSize : Nat} (pages : payloadAlign ≤ pageSize)
    {ring : Nat → UInt8} {capacity : BitVec (8 * b)} {mode : Mode} {q : SpscQueue (8 * b)}
    (init : (SpscQueue.fresh (8 * b)).init pageSize ring capacity mode = some q)
    {schedule : List (PipelineEvent program)} {s : Pipeline program}
    (run : Schedule.run Pipeline.step (Pipeline.start q) schedule = some s)
    {next : AfterFlush} {before : List (LogCall program)} (waits : s.app = .flushing next before) :
    if s.Wraps then
      ∀ later s', Schedule.run Pipeline.step s later = some s' → s'.app = s.app
    else
      ∀ later s', Schedule.run Pipeline.waitStep s later = some s' → s'.app = s.app →
        (∃ s'', s'.advanceWorker = some s'') ∧
        (11 * s.inRing + 10 ≤ later.countP PipelineEvent.byWorker →
          s'.advanceApp = some { s' with
            app := next.app, barriers := ⟨before, s'.events⟩ :: s'.barriers }) := by
  have steady : Steady q.droppedCount s := Schedule.run_invariant Steady.step run
    (.start (.of_init wide pages init))
  have waiting : s.app.waits = true := by
    rw [waits]
    rfl
  split
  · next across =>
      intro later s' run'
      have here : Steady q.droppedCount s ∧ s.app = s.app ∧ s.Wraps := ⟨steady, rfl, across⟩
      exact (Schedule.run_invariant (fun step => Steady.stuck step waiting) run' here).2.1
  · next whole =>
      intro later s' run' same
      have waiting' : s'.app.waits = true := by
        rw [same]
        exact waiting
      have awaited : Awaited q.droppedCount s := ⟨steady, fun _ => whole⟩
      obtain ⟨steady', -⟩ := Schedule.run_invariant Awaited.step run' awaited
      constructor
      · obtain ⟨-, stopping, force, head, tail, cache, letters, opened, done, flows⟩ :=
          steady'.exists_flows waiting'
        apply flows.worker_steps
        intro exited
        have ends := flows.exits exited
        cases status : s'.status <;> rw [status] at ends <;> first | exact ends | contradiction
      · intro enough
        have empty : s'.queue.empty = true := by
          by_contra some_
          obtain ⟨-, bound⟩ := Schedule.run_measure Awaited.step Awaited.lowers run' awaited
            ⟨waiting', (Bool.not_eq_true _).mp some_⟩
          have last := s.worker.untilTaken_le
          rw [steady'.empty_iff waiting'] at some_
          unfold Pipeline.untilEmpty at bound
          omega
        rw [Pipeline.advanceApp, same, waits]
        simp only [empty, if_true]
        cases next <;> rfl

/-- One call is in the ring when the flush begins. -/
theorem flush_returns_oneLogged : ∃ (s : Pipeline greeter) (before : List (LogCall greeter)),
    Schedule.run Pipeline.step (Pipeline.start smallRing) (oneLogged ++ [.flush]) = some s ∧
      s.app = .flushing .back before ∧ s.inRing = 1 ∧
      ∀ later s', Schedule.run Pipeline.waitStep s later = some s' → s'.app = s.app →
        21 ≤ later.countP PipelineEvent.byWorker →
          s'.advanceApp = some { s' with
            app := .idle, barriers := ⟨before, s'.events⟩ :: s'.barriers } := by
  have init : (SpscQueue.fresh (8 * 4)).init 16 (fun _ => 0) 16 .drop = some smallRing := rfl
  have done : (Schedule.run Pipeline.step (Pipeline.start smallRing : Pipeline greeter)
      (oneLogged ++ [.flush])).map (fun s => (decide s.Wraps, s.inRing, s.app.flushes)) =
        some (false, 1, true) := by
    decide +kernel
  obtain ⟨s, run, eq⟩ := Option.map_eq_some_iff.mp done
  simp only [Prod.mk.injEq, decide_eq_false_iff_not] at eq
  obtain ⟨whole, one, flushing⟩ := eq
  unfold App.flushes at flushing
  split at flushing
  · next before waits =>
      have returns := flush_returns (by decide) (by decide) init run waits
      rw [if_neg whole, one] at returns
      exact ⟨s, before, run, waits, one, fun later s' run' same =>
        (returns later s' run' same).2⟩
  · cases flushing

/-! ## `stop` and `force_stop` -/

/-- The worker has been told to come to its end, with `n` letters in the ring. -/
structure Ended (base : BitVec (8 * b)) (status : InternalStatus) (s : Pipeline program) :
    Prop where
  steady : Steady base s
  app : s.app.Ending
  told : s.status = status
  ends : status = .forceStopping ∨ status = .stopping ∧ s.inRing = 0

namespace Ended

variable {status : InternalStatus}

/-- What a step can be once the worker has been told. -/
theorem step_cases {e : PipelineEvent program} (ended : Ended base status s)
    (step : Pipeline.step e s = some s') :
    (e = .worker ∧ s.advanceWorker = some s') ∨
      (e = .app ∧ s.worker = .exited ∧ s' = { s with app := .stopped }) := by
  have app := ended.app
  cases e with
  | worker =>
      refine Or.inl ⟨rfl, ?_⟩
      simpa [Pipeline.step] using step
  | app =>
      cases waits : s.app with
      | joining =>
          simp only [Pipeline.step, Pipeline.advanceApp, waits] at step
          split at step <;> cases step
          exact Or.inr ⟨rfl, ‹_›, rfl⟩
      | stopped => simp [Pipeline.step, Pipeline.advanceApp, waits] at step
      | _ =>
          rw [waits] at app
          exact app.elim
  | _ =>
      cases waits : s.app with
      | joining => simp [Pipeline.step, waits] at step
      | stopped => simp [Pipeline.step, waits] at step
      | _ =>
          rw [waits] at app
          exact app.elim

/-- What a step of the worker is. -/
theorem turns (ended : Ended base status s) (step : s.advanceWorker = some s') :
    s'.inRing ≤ s.inRing ∧
      s'.worker.untilExit status s'.inRing + 1 ≤ s.worker.untilExit status s.inRing := by
  obtain ⟨head, tail, cache, letters, opened, done, flows⟩ := id ended.steady.flows
  obtain ⟨-, turns⟩ := flows.turns (ended.steady.rest (Or.inr ended.app)) ended.steady.inOrder step
  rw [ended.told] at turns
  exact turns.lowers_untilExit ended.ends fun read => ended.told ▸ flows.read read

theorem step {e : PipelineEvent program} (step : Pipeline.step e s = some s')
    (ended : Ended base status s) : Ended base status s' := by
  have steady := ended.steady.step step
  rcases ended.step_cases step with ⟨-, moved⟩ | ⟨-, -, rfl⟩
  · obtain ⟨app, status_, -⟩ := Pipeline.advanceWorker_frame moved
    refine ⟨steady, app ▸ ended.app, status_.trans ended.told, ?_⟩
    exact ended.ends.imp_right fun ⟨stopping, none_⟩ =>
      ⟨stopping, Nat.le_zero.mp (none_ ▸ (ended.turns moved).1)⟩
  · exact ⟨steady, trivial, ended.told, ended.ends⟩

theorem lowers {e : PipelineEvent program} (step : Pipeline.step e s = some s')
    (ended : Ended base status s) :
    s'.worker.untilExit status s'.inRing + (if e.byWorker then 1 else 0) ≤
      s.worker.untilExit status s.inRing := by
  rcases ended.step_cases step with ⟨rfl, moved⟩ | ⟨rfl, -, rfl⟩
  · exact (ended.turns moved).2
  · exact Nat.le_refl _

end Ended

/-- `stop` and `force_stop` come back from their wait for the worker: whatever it is doing when it
is told, it leaves its loop after four steps for each record in the ring and eleven more, and as
long as it has not it can make its next one. -/
theorem join_returns (wide : 4 ≤ b) {pageSize : Nat} (pages : payloadAlign ≤ pageSize)
    {ring : Nat → UInt8} {capacity : BitVec (8 * b)} {mode : Mode} {q : SpscQueue (8 * b)}
    (init : (SpscQueue.fresh (8 * b)).init pageSize ring capacity mode = some q)
    {schedule : List (PipelineEvent program)} {s : Pipeline program}
    (run : Schedule.run Pipeline.step (Pipeline.start q) schedule = some s)
    (waits : s.app = .joining) {later : List (PipelineEvent program)} {s' : Pipeline program}
    (run' : Schedule.run Pipeline.step s later = some s') :
    later.countP PipelineEvent.byWorker ≤ 4 * s.inRing + 11 ∧
      ((s'.app = .joining ∧ ∃ s'', s'.advanceWorker = some s'') ∨
        (s'.app = .joining ∧ s'.advanceApp = some { s' with app := .stopped }) ∨
        s'.app = .stopped) := by
  have steady : Steady q.droppedCount s := Schedule.run_invariant Steady.step run
    (.start (.of_init wide pages init))
  obtain ⟨head, tail, cache, letters, opened, done, flows⟩ := id steady.flows
  have app : s.app.Ending := by
    rw [waits]
    trivial
  have ended : Ended q.droppedCount s.status s := by
    refine ⟨steady, app, rfl, ?_⟩
    have told := steady.told app
    cases status : s.status with
    | stopping =>
        refine Or.inr ⟨rfl, ?_⟩
        rw [flows.inRing_eq (steady.rest (Or.inr app)),
          flows.empty_iff.mp (steady.drained (Or.inr status))]
        rfl
    | forceStopping => exact Or.inl rfl
    | _ =>
        rw [status] at told
        exact told.elim
  have measured : True ∧ s'.worker.untilExit s.status s'.inRing +
      later.countP PipelineEvent.byWorker ≤ s.worker.untilExit s.status s.inRing :=
    Schedule.run_measure Ended.step (fun step ended _ => ⟨trivial, ended.lowers step⟩) run' ended
      trivial
  have le := s.worker.untilExit_le s.status s.inRing
  have ended' := Schedule.run_invariant Ended.step run' ended
  refine ⟨by omega, ?_⟩
  obtain ⟨head', tail', cache', letters', opened', done', flows'⟩ := id ended'.steady.flows
  have ending := ended'.app
  cases waits' : s'.app with
  | joining =>
      by_cases exited : s'.worker = .exited
      · exact Or.inr (Or.inl ⟨rfl, by simp [Pipeline.advanceApp, waits', exited]⟩)
      · exact Or.inl ⟨rfl, flows'.worker_steps exited⟩
  | stopped => exact Or.inr (Or.inr rfl)
  | _ =>
      rw [waits'] at ending
      exact ending.elim

/-- The worker is forced to stop with one call in the ring. -/
theorem join_returns_forced : ∃ s : Pipeline greeter,
    Schedule.run Pipeline.step (Pipeline.start smallRing) (oneLogged ++ [.forceStop]) = some s ∧
      ∀ later s', Schedule.run Pipeline.step s later = some s' →
        later.countP PipelineEvent.byWorker ≤ 15 := by
  have init : (SpscQueue.fresh (8 * 4)).init 16 (fun _ => 0) 16 .drop = some smallRing := rfl
  have done : (Schedule.run Pipeline.step (Pipeline.start smallRing : Pipeline greeter)
      (oneLogged ++ [.forceStop])).map (fun s => (s.inRing,
        (match s.app with | .joining => true | _ => false : Bool))) = some (1, true) := by
    decide +kernel
  obtain ⟨s, run, eq⟩ := Option.map_eq_some_iff.mp done
  simp only [Prod.mk.injEq] at eq
  obtain ⟨one, joining⟩ := eq
  refine ⟨s, run, fun later s' run' => ?_⟩
  split at joining
  · next waits =>
      have returns := join_returns (by decide) (by decide) init run waits run'
      rw [one] at returns
      exact returns.1
  · cases joining

end Fpag.Logging
