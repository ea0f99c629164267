import Fpag.Logging.Pipeline

/-!
What one call of `process_batch` does with its window.

The window is what `size_consumer` answers when the batch begins: the records that lie in those
bytes are the letters in the ring at that moment, and the producer may add others behind them
while the batch goes on. `Drains` is the invariant of the loop: the letters of the window are the
ones that have been passed on and the ones that are left, and the two heads, the queue's and the
loop's own, stand between them. It needs the sum that the loop is bounded by,
`current_head + queue_size`, not to wrap: where it wraps, the comparison at the head of the loop
goes the other way, and the batch returns before it has looked at its first record.
-/

namespace Fpag.Logging

open Fpag.Container

variable {b : Nat} {program : Program b}

/-- The worker is in the loop of `process_batch`. -/
def Worker.inLoop : Worker b → Bool
  | .peek _ _ _ => true
  | .deserialize _ _ _ _ _ => true
  | .discard _ _ _ _ _ => true
  | .log _ _ _ _ => true
  | _ => false

/-- What `process_batch` has just returned. -/
def Worker.returned : Worker b → Option Bool
  | .flag _ processed => some processed
  | _ => none

/-- How many bytes the next step reads from where `peek` points. -/
def Worker.reads : Worker b → Nat
  | .peek _ _ _ => payloadMinHeaderSize b
  | .deserialize _ _ _ _ header => header.payloadSize
  | _ => 0

/-- The event is a step of the worker. -/
def PipelineEvent.byWorker : PipelineEvent program → Bool
  | .worker => true
  | _ => false

/-- The steps of the pipeline while the worker is in the loop of `process_batch`. -/
def Pipeline.loopStep : PipelineEvent program → Pipeline program → Option (Pipeline program) :=
  Schedule.guarded (fun _ s => s.worker.inLoop = true) Pipeline.step

/-- What is promised of a batch that began in `s` with `letters` in the ring, in a state that it
comes to after `steps` steps of the worker: the worker is not stuck and not for long in the loop,
what it reads lies in the window, and when the batch returns, the sink has been given exactly the
letters of the window and the head is at its end. -/
structure BatchKept (s : Pipeline program) (letters : List (Letter program)) (steps : Nat)
    (s' : Pipeline program) : Prop where
  moves : s'.worker.inLoop = true → ∃ next, s'.advanceWorker = some next
  turns : steps ≤ 4 * letters.length
  within : s'.worker.inLoop = true → 0 < s'.worker.reads →
    (Base.roundUp s'.queue.headCache (Pipeline.align b) - s.queue.headCache).toNat +
      s'.worker.reads ≤ s.queue.sizeConsumer.toNat
  drained : ∀ processed, s'.worker.returned = some processed →
    processed = true ∧
    s'.events = s.events ++ letters.map (fun letter => SinkEvent.log letter.call.entry) ∧
    s'.queue.headCache = s.queue.headCache + s.queue.sizeConsumer ∧
    s'.queue.head = s.queue.headCache + s.queue.sizeConsumer

/-- The batch that the worker is about to begin keeps its promises, whatever the application does
while it goes on. -/
def BatchDrains (s : Pipeline program) (letters : List (Letter program)) : Prop :=
  ∀ begun schedule s', s.advanceWorker = some begun →
    Schedule.run Pipeline.loopStep begun schedule = some s' →
      BatchKept s letters (schedule.countP PipelineEvent.byWorker) s'

variable {base : BitVec (8 * b)} {s s' before : Pipeline program}
  {start steps head tail cache : Nat} {letters gone left : List (Letter program)}
  {opened : Option (Letter program)} {done : List (LogCall program)}

/-! ## Positions in the window -/

/-- The word of a position that is at most `n` behind `start`, if the words do not wrap on the
way. -/
theorem toNat_ofNat_within {w n x : Nat} (whole : (BitVec.ofNat w start).toNat + n < 2 ^ w)
    (low : start ≤ x) (high : x ≤ start + n) :
    (BitVec.ofNat w x).toNat = (BitVec.ofNat w start).toNat + (x - start) := by
  obtain ⟨k, rfl⟩ := Nat.exists_eq_add_of_le low
  have small : k < 2 ^ w := by omega
  rw [BitVec.ofNat_add, BitVec.toNat_add, BitVec.toNat_ofNat k, Nat.mod_eq_of_lt small,
    Nat.add_sub_cancel_left, Nat.mod_eq_of_lt (by omega)]

theorem Letter.lt_stop {q : SpscQueue (8 * b)} {letter : Letter program}
    (takes : q.Takes letter.record) (place : Nat) : place < letter.record.stop place := by
  have low := takes.start_le place
  have header := letter.call.header_le
  have gap : alignUp 1 payloadAlign = 8 := by decide
  rw [payloadMinHeaderSize, gap, ← letter.length] at header
  rw [Record.stop]
  omega

/-- As long as a letter is left, the head is before the end of the window. -/
theorem lt_endOf_iff {q : SpscQueue (8 * b)} (takes : ∀ letter ∈ left, q.Takes letter.record)
    (place : Nat) : place < endOf place (left.map Letter.record) ↔ left ≠ [] := by
  cases left with
  | nil => simp [endOf]
  | cons letter rest =>
      have first := Letter.lt_stop (takes letter List.mem_cons_self) place
      have others : ∀ r ∈ rest.map Letter.record, q.Takes r := by
        intro r there
        obtain ⟨other, mem, rfl⟩ := List.mem_map.mp there
        exact takes other (List.mem_cons_of_mem _ mem)
      have last := SpscQueue.le_endOf others (letter.record.stop place)
      rw [List.map_cons, endOf]
      simp only [ne_eq, reduceCtorEq, not_false_eq_true, iff_true]
      omega

/-! ## The loop -/

/-- Where the loop is, with `left` the letters of its window that are still in the ring. -/
def Worker.Loops (q : SpscQueue (8 * b)) (head : Nat) (letters left : List (Letter program)) :
    Worker b → Prop
  | .peek _ currentHead targetHead =>
      InBatch head letters currentHead targetHead left ∧ left ≠ []
  | .deserialize _ currentHead targetHead dataPtr header =>
      ∃ letter rest, left = letter :: rest ∧ InBatch head letters currentHead targetHead left ∧
        dataPtr = q.peek (Pipeline.align b) ∧
        header = ⟨letter.call.size, letter.call.func, letter.call.level⟩
  | .discard _ currentHead targetHead payloadSize entry =>
      ∃ letter rest, left = letter :: rest ∧ InBatch head letters currentHead targetHead left ∧
        payloadSize = letter.call.size ∧ entry = letter.call.entry
  | .log _ currentHead targetHead _ => InBatch head letters currentHead targetHead left
  | .flag _ processed => processed = true ∧ left = []
  | _ => False

/-- How many steps of the worker the loop has in front of it at most, with `n` letters left. -/
def Worker.rank (n : Nat) : Worker b → Nat
  | .peek _ _ _ => 4 * n
  | .deserialize _ _ _ _ _ => 4 * n - 1
  | .discard _ _ _ _ _ => 4 * n - 2
  | .log _ _ _ _ => 4 * n + 1
  | _ => 0

/-- The invariant of a batch that began in `before` at position `start`. -/
structure Drains (base : BitVec (8 * b)) (before s : Pipeline program) (start steps : Nat)
    (head tail cache : Nat) (letters gone left : List (Letter program))
    (opened : Option (Letter program)) (done : List (LogCall program)) : Prop where
  flows : Flows base s head tail cache letters opened done
  place : head = endOf start (gone.map Letter.record)
  loops : s.worker.Loops s.queue head letters left
  passed : s.events ++ s.worker.inHand.map SinkEvent.log =
    before.events ++ gone.map (fun letter => SinkEvent.log letter.call.entry)
  turns : steps + s.worker.rank left.length ≤ 4 * (gone.length + left.length)

theorem Worker.Loops.producer {q q' : SpscQueue (8 * b)} {worker : Worker b}
    (loops : worker.Loops q head letters left) (same : q.SameConsumer q')
    {letters' : List (Letter program)} (grown : letters <+: letters') :
    worker.Loops q' head letters' left := by
  cases worker with
  | peek status currentHead targetHead => exact ⟨loops.1.grow grown, loops.2⟩
  | deserialize status currentHead targetHead dataPtr header =>
      obtain ⟨letter, rest, first, inBatch, place, hheader⟩ := loops
      exact ⟨letter, rest, first, inBatch.grow grown, by rw [same.peek, place], hheader⟩
  | discard status currentHead targetHead payloadSize entry =>
      obtain ⟨letter, rest, first, inBatch, rest'⟩ := loops
      exact ⟨letter, rest, first, inBatch.grow grown, rest'⟩
  | log status currentHead targetHead entry => exact InBatch.grow loops grown
  | flag status processed => exact loops
  | _ => exact loops.elim

theorem Pipeline.after_frame (s : Pipeline program) (call : LogCall program)
    (result : SpscQueue (8 * b) × Producer (8 * b) × Progress) :
    (s.after call result).worker = s.worker ∧ (s.after call result).events = s.events ∧
      (s.after call result).queue = result.1 := by
  obtain ⟨q, p, progress⟩ := result
  cases progress <;> exact ⟨rfl, rfl, rfl⟩

/-- What the application leaves alone. -/
theorem Pipeline.step_frame {e : PipelineEvent program} (app : e ≠ .worker)
    (step : Pipeline.step e s = some s') :
    s'.worker = s.worker ∧ s'.events = s.events ∧ s.queue.SameConsumer s'.queue := by
  unfold Pipeline.step at step
  split at step
  · next call idle =>
      unfold Pipeline.log at step
      split at step
      · cases step
      · next r request =>
          cases step
          obtain ⟨worker, events, queue⟩ :=
            Pipeline.after_frame { s with calls := s.calls + 1 } call (Producer.request s.queue r)
          exact ⟨worker, events, queue ▸ Producer.request_frame s.queue r⟩
  · cases step
    exact ⟨rfl, rfl, rfl, rfl⟩
  · cases step
    exact ⟨rfl, rfl, rfl, rfl⟩
  · cases step
    exact ⟨rfl, rfl, rfl, rfl⟩
  · unfold Pipeline.advanceApp at step
    split at step
    · next call logging =>
        obtain ⟨result, hstep, rfl⟩ := Option.map_eq_some_iff.mp step
        obtain ⟨worker, events, queue⟩ := Pipeline.after_frame s call result
        exact ⟨worker, events, queue ▸ Producer.advance_frame hstep⟩
    · split at step <;> cases step <;> exact ⟨rfl, rfl, rfl, rfl⟩
    · cases step
      exact ⟨rfl, rfl, rfl, rfl⟩
    · split at step <;> cases step
      exact ⟨rfl, rfl, rfl, rfl⟩
    · cases step
  · exact (app rfl).elim
  · cases step

namespace Drains

theorem takes (drains : Drains base before s start steps head tail cache letters gone left opened
    done) {currentHead targetHead : BitVec (8 * b)}
    (inBatch : InBatch head letters currentHead targetHead left) :
    ∀ letter ∈ left, s.queue.Takes letter.record := by
  obtain ⟨⟨rest, rfl⟩, -, -⟩ := inBatch
  intro letter there
  exact drains.flows.settled.takes letter.record
    (List.mem_map_of_mem (List.mem_append_left _ there))

/-- A step of the application. -/
theorem byApp (drains : Drains base before s start steps head tail cache letters gone left opened
    done) {e : PipelineEvent program} (app : e ≠ .worker) (step : Pipeline.step e s = some s') :
    ∃ tail' cache' letters' opened',
      Drains base before s' start steps head tail' cache' letters' gone left opened' done := by
  obtain ⟨tail', cache', letters', opened', grown, flows⟩ := drains.flows.byApp app step
  obtain ⟨worker, events, same⟩ := Pipeline.step_frame app step
  refine ⟨tail', cache', letters', opened', flows, drains.place, ?_, ?_, ?_⟩
  · rw [worker]
    exact drains.loops.producer same grown
  · rw [worker, events]
    exact drains.passed
  · rw [worker]
    exact drains.turns

/-- The head of the loop decides as it should: it goes on as long as a letter is left. -/
theorem loops_turn (status : InternalStatus) {currentHead targetHead : BitVec (8 * b)}
    (inBatch : InBatch head letters currentHead targetHead left)
    (going : currentHead < targetHead ↔ left ≠ []) :
    (s.turn status currentHead targetHead).worker.Loops s.queue head letters left ∧
      (s.turn status currentHead targetHead).worker.inHand = [] ∧
      (s.turn status currentHead targetHead).worker.rank left.length ≤ 4 * left.length ∧
      (s.turn status currentHead targetHead).events = s.events ∧
      (s.turn status currentHead targetHead).queue = s.queue := by
  unfold Pipeline.turn
  split
  · next before => exact ⟨⟨inBatch, going.mp before⟩, rfl, Nat.le_refl _, rfl, rfl⟩
  · next after =>
      have over_ : left = [] := by
        by_contra some_
        exact after (going.mpr some_)
      exact ⟨⟨rfl, over_⟩, rfl, Nat.zero_le _, rfl, rfl⟩

/-- Between two positions of a window that does not wrap, the words compare as the positions. -/
theorem going_iff {q : SpscQueue (8 * b)} {currentHead targetHead : BitVec (8 * b)}
    (inBatch : InBatch head letters currentHead targetHead left)
    (takes : ∀ letter ∈ left, q.Takes letter.record) (low : start ≤ head)
    (whole : (BitVec.ofNat (8 * b) start).toNat + (endOf head (left.map Letter.record) - start) <
      2 ^ (8 * b)) : currentHead < targetHead ↔ left ≠ [] := by
  obtain ⟨-, rfl, rfl⟩ := inBatch
  have all : ∀ r ∈ left.map Letter.record, q.Takes r := by
    intro r there
    obtain ⟨letter, mem, rfl⟩ := List.mem_map.mp there
    exact takes letter mem
  have high := SpscQueue.le_endOf all head
  rw [BitVec.lt_def, toNat_ofNat_within whole low (by omega),
    toNat_ofNat_within whole (low.trans high) (by omega), ← lt_endOf_iff takes head]
  omega

/-- A step of the worker, in a window that does not wrap. -/
theorem byWorker (drains : Drains base before s start steps head tail cache letters gone left opened
    done) (loop : s.worker.inLoop = true) (low : start ≤ head)
    (whole : (BitVec.ofNat (8 * b) start).toNat + (endOf head (left.map Letter.record) - start) <
      2 ^ (8 * b)) (step : s.advanceWorker = some s') :
    ∃ head' letters' gone' left' done', gone' ++ left' = gone ++ left ∧ head ≤ head' ∧
      endOf head' (left'.map Letter.record) = endOf head (left.map Letter.record) ∧
      Drains base before s' start (steps + 1) head' tail cache letters' gone' left' opened
      done' := by
  have flows := drains.flows
  have loops := drains.loops
  have passed := drains.passed
  have turns := drains.turns
  have read := flows.read
  have live : s.worker ≠ .exited := by
    intro exited
    rw [exited] at loop
    cases loop
  unfold Pipeline.advanceWorker at step
  split at step
  · next here => rw [here] at loop; cases loop
  · next status here => rw [here] at loop; cases loop
  · next status currentHead targetHead here =>
      rw [here] at loops read passed turns
      obtain ⟨inBatch, some_⟩ := loops
      obtain ⟨letter, rest, rfl⟩ := List.exists_cons_of_ne_nil some_
      simp only [flows.readHeader_eq inBatch] at step
      cases step
      refine ⟨_, _, gone, letter :: rest, _, rfl, Nat.le_refl _, rfl,
        flows.move live (by simp [here, Worker.inHand]) ⟨letter, rest, inBatch, rfl, rfl⟩ read
          (by rintro ⟨⟩), drains.place, ⟨letter, rest, rfl, inBatch, rfl, rfl⟩, passed, ?_⟩
      simp only [Worker.rank, List.length_cons] at turns ⊢
      omega
  · next status currentHead targetHead dataPtr header here =>
      rw [here] at loops read passed turns
      obtain ⟨letter, rest, rfl, inBatch, rfl, rfl⟩ := loops
      simp only [letter.call.linked, flows.copyFrom inBatch, letter.deserialize_eq] at step
      cases step
      refine ⟨_, _, gone, letter :: rest, _, rfl, Nat.le_refl _, rfl,
        flows.move live (by simp [here, Worker.inHand]) ⟨letter, rest, inBatch, rfl, rfl⟩ read
          (by rintro ⟨⟩), drains.place, ⟨letter, rest, rfl, inBatch, rfl, rfl⟩, passed, ?_⟩
      simp only [Worker.rank, List.length_cons] at turns ⊢
      omega
  · next status currentHead targetHead payloadSize entry here =>
      rw [here] at loops passed turns
      obtain ⟨letter, rest, rfl, inBatch, rfl, same⟩ := loops
      have stays := (drains.takes inBatch letter List.mem_cons_self).le_stop head
      cases step
      obtain ⟨letters', rfl, next⟩ := flows.discard here inBatch same
      obtain ⟨ahead, -, target⟩ := inBatch
      refine ⟨_, _, gone ++ [letter], rest, _, by simp, stays, rfl, next, ?_, ?_, ?_, ?_⟩
      · rw [List.map_append, endOf_append, ← drains.place]
        rfl
      · obtain ⟨batch, ahead'⟩ := next.worker
        exact ⟨(List.cons_prefix_cons.mp ahead).2, ahead'.2.1, target⟩
      · rw [List.map_append, ← List.append_assoc, ← passed, same]
        simp [Worker.inHand]
      · simp only [Worker.rank, List.length_cons, List.length_append, List.length_nil] at turns ⊢
        omega
  · next status currentHead targetHead entry here =>
      rw [here] at loops read passed turns
      cases step
      have going := going_iff loops (drains.takes loops) low whole
      obtain ⟨loops', hand, rank, events, queue⟩ :=
        loops_turn (s := { s with events := s.events ++ [.log entry] }) status loops going
      refine ⟨_, _, gone, left, _, rfl, Nat.le_refl _, rfl,
        flows.turn live loops (by simp [here, Worker.inHand])
          (by simpa [Worker.status] using read), drains.place, ?_, ?_, ?_⟩
      · rw [queue]
        exact loops'
      · rw [hand, events]
        simpa [Worker.inHand] using passed
      · simp only [Worker.rank] at turns
        omega
  all_goals
    next here => rw [here] at loop; cases loop

end Drains

/-- The batch that began in `before` with the letters of `window` from `start` to `stop` has made
`steps` steps of the worker and is in `s`. -/
def Draining (base : BitVec (8 * b)) (before : Pipeline program) (start stop : Nat)
    (window : List (Letter program)) (steps : Nat) (s : Pipeline program) : Prop :=
  ∃ head tail cache letters gone left opened done, gone ++ left = window ∧ start ≤ head ∧
    endOf head (left.map Letter.record) = stop ∧
    Drains base before s start steps head tail cache letters gone left opened done

variable {stop : Nat} {window : List (Letter program)}

/-- One step of the loop, in a window that does not wrap. -/
theorem Draining.step {e : PipelineEvent program}
    (draining : Draining base before start stop window steps s)
    (whole : (BitVec.ofNat (8 * b) start).toNat + (stop - start) < 2 ^ (8 * b))
    (step : Pipeline.loopStep e s = some s') :
    Draining base before start stop window (steps + [e].countP PipelineEvent.byWorker) s' := by
  obtain ⟨head, tail, cache, letters, gone, left, opened, done, rfl, low, rfl, drains⟩ := draining
  obtain ⟨loop, step⟩ := Schedule.guarded_eq_some.mp step
  by_cases worker : e = .worker
  · subst worker
    obtain ⟨head', letters', gone', left', done', same, moved, target, next⟩ :=
      drains.byWorker loop low whole step
    exact ⟨head', tail, cache, letters', gone', left', opened, done', same, low.trans moved, target,
      next⟩
  · obtain ⟨tail', cache', letters', opened', next⟩ := drains.byApp worker step
    have app : e.byWorker = false := by
      cases e with
      | worker => exact (worker rfl).elim
      | _ => rfl
    refine ⟨head, tail', cache', letters', gone, left, opened', done, rfl, low, rfl, ?_⟩
    rw [List.countP_singleton, app]
    exact next

/-- Every run of the loop, in a window that does not wrap. -/
theorem Draining.run {schedule : List (PipelineEvent program)}
    (draining : Draining base before start stop window steps s)
    (whole : (BitVec.ofNat (8 * b) start).toNat + (stop - start) < 2 ^ (8 * b))
    (run : Schedule.run Pipeline.loopStep s schedule = some s') :
    Draining base before start stop window (steps + schedule.countP PipelineEvent.byWorker) s' := by
  induction schedule generalizing s steps with
  | nil =>
      cases run
      exact draining
  | cons e es ih =>
      obtain ⟨m, step, rest⟩ := Schedule.run_cons_eq_some.mp run
      have next := ih (draining.step whole step) rest
      rw [Nat.add_assoc, ← List.countP_append] at next
      exact next

/-! ## What is promised -/

/-- What a step of the loop reads is at most the first letter that is left. -/
theorem Worker.Loops.reads_le {q : SpscQueue (8 * b)} {worker : Worker b}
    (loops : worker.Loops q head letters left) (some_ : 0 < worker.reads) :
    ∃ letter rest, left = letter :: rest ∧ worker.reads ≤ letter.record.bytes.length ∧
      left <+: letters := by
  cases worker with
  | peek status currentHead targetHead =>
      obtain ⟨letter, rest, rfl⟩ := List.exists_cons_of_ne_nil loops.2
      exact ⟨letter, rest, rfl, letter.length ▸ letter.call.header_le, loops.1.1⟩
  | deserialize status currentHead targetHead dataPtr header =>
      obtain ⟨letter, rest, rfl, inBatch, -, rfl⟩ := loops
      exact ⟨letter, rest, rfl, letter.length.ge, inBatch.1⟩
  | _ => exact (Nat.lt_irrefl 0 some_).elim

/-- A step of the loop reads inside the window. -/
theorem Drains.within {tail₀ cache₀ : Nat}
    (drains : Drains base before s start steps head tail cache letters gone left opened done)
    (tracks : before.queue.Tracks start tail₀ cache₀) (shaped : before.queue.Shaped)
    (low : start ≤ head) (last : endOf head (left.map Letter.record) = tail₀)
    (some_ : 0 < s.worker.reads) :
    (Base.roundUp s.queue.headCache (Pipeline.align b) - before.queue.headCache).toNat +
      s.worker.reads ≤ before.queue.sizeConsumer.toNat := by
  obtain ⟨letter, rest, rfl, le, ahead⟩ := drains.loops.reads_le some_
  have flows := drains.flows
  have takes : ∀ r ∈ (letter :: rest).map Letter.record, s.queue.Takes r := by
    intro r there
    obtain ⟨other, mem, rfl⟩ := List.mem_map.mp there
    exact flows.settled.takes _ (List.mem_map_of_mem (ahead.subset mem))
  have first := (takes letter.record (by simp)).start_le head
  have inside := SpscQueue.le_endOf (fun r hr => takes r (List.mem_cons_of_mem _ hr))
    (letter.record.stop head)
  rw [List.map_cons, endOf] at last
  rw [last] at inside
  have half := shaped.half
  have pos := shaped.pos
  have room := tracks.room
  have above := tracks.tail_le
  rw [tracks.sizeConsumer shaped, flows.settled.tracks.headCache_eq, tracks.headCache_eq,
    flows.aligns.roundUp, ← letter.align]
  change (BitVec.ofNat (8 * b) (letter.record.start head) - _).toNat + _ ≤ _
  rw [Record.stop] at inside
  rw [toNat_ofNat_sub (low.trans first) (by omega)]
  omega

/-- When the batch has returned, everything in its window has been passed on. -/
theorem Drains.returned {tail₀ cache₀ : Nat}
    (drains : Drains base before s start steps head tail cache letters gone left opened done)
    (tracks : before.queue.Tracks start tail₀ cache₀)
    (last : endOf head (left.map Letter.record) = tail₀) {processed : Bool}
    (returned : s.worker.returned = some processed) :
    processed = true ∧
    s.events = before.events ++
      (gone ++ left).map (fun letter => SinkEvent.log letter.call.entry) ∧
    s.queue.headCache = before.queue.headCache + before.queue.sizeConsumer ∧
    s.queue.head = before.queue.headCache + before.queue.sizeConsumer := by
  have loops := drains.loops
  have passed := drains.passed
  have now := drains.flows.settled.tracks
  cases here : s.worker with
  | flag status answer =>
      rw [here] at returned loops passed
      cases returned
      obtain ⟨rfl, rfl⟩ := loops
      have target : before.queue.headCache + before.queue.sizeConsumer =
          BitVec.ofNat (8 * b) head := by
        rw [SpscQueue.sizeConsumer, BitVec.add_comm, BitVec.sub_add_cancel, tracks.tail_eq, ← last]
        rfl
      refine ⟨rfl, ?_, ?_, ?_⟩
      · simpa [Worker.inHand] using passed
      · rw [target, now.headCache_eq]
      · rw [target, now.head_eq]
  | _ =>
      rw [here] at returned
      cases returned

theorem Draining.kept {tail₀ cache₀ : Nat}
    (draining : Draining base before start tail₀ window steps s)
    (tracks : before.queue.Tracks start tail₀ cache₀) (shaped : before.queue.Shaped) :
    BatchKept before window steps s := by
  obtain ⟨head, tail, cache, letters, gone, left, opened, done, rfl, low, last, drains⟩ := draining
  refine ⟨fun loop => ?_, ?_, fun _ => drains.within tracks shaped low last,
    fun processed => drains.returned tracks last⟩
  · apply drains.flows.worker_steps
    intro exited
    rw [exited] at loop
    cases loop
  · have turns := drains.turns
    rw [List.length_append]
    omega

/-! ## The batch -/

section Batch

variable {status : InternalStatus}

/-- The batch begins with its whole window in front of it. -/
theorem Flows.draining (flows : Flows base s head tail cache letters opened done)
    (batch : s.worker = .batch status)
    (whole : (BitVec.ofNat (8 * b) head).toNat + (tail - head) < 2 ^ (8 * b)) :
    Draining base s head tail letters 0
      (s.turn status s.queue.headCache (s.queue.headCache + s.queue.sizeConsumer)) := by
  have settled := flows.settled
  have live : s.worker ≠ .exited := by rw [batch]; rintro ⟨⟩
  have read := flows.read
  rw [batch] at read
  have inBatch : InBatch head letters s.queue.headCache
      (s.queue.headCache + s.queue.sizeConsumer) letters := by
    refine ⟨List.prefix_rfl, settled.tracks.headCache_eq, ?_⟩
    rw [SpscQueue.sizeConsumer, BitVec.add_comm, BitVec.sub_add_cancel, settled.tracks.tail_eq,
      settled.ends]
  have going : s.queue.headCache < s.queue.headCache + s.queue.sizeConsumer ↔ letters ≠ [] :=
    Drains.going_iff inBatch
      (fun letter there => settled.takes letter.record (List.mem_map_of_mem there))
      (Nat.le_refl head) (by rw [settled.ends]; exact whole)
  obtain ⟨loops, hand, rank, events, queue⟩ :=
    Drains.loops_turn (s := s) status inBatch going
  refine ⟨head, tail, cache, letters, [], letters, opened, done, rfl, Nat.le_refl head,
    settled.ends, ?_, rfl, ?_, ?_, ?_⟩
  · exact flows.turn live inBatch (by simp [batch, Worker.inHand])
      (by simpa [Worker.status] using read)
  · rw [queue]
    exact loops
  · rw [hand, events]
    rfl
  · rw [Nat.zero_add, List.length_nil, Nat.zero_add]
    exact rank

/-- A batch whose sum wraps returns at once, with nothing consumed. -/
theorem turn_of_wraps
    (wraps : ¬ s.queue.headCache.toNat + s.queue.sizeConsumer.toNat < 2 ^ (8 * b)) :
    s.turn status s.queue.headCache (s.queue.headCache + s.queue.sizeConsumer) =
      { s with worker := .flag status true } := by
  have back : ¬ s.queue.headCache < s.queue.headCache + s.queue.sizeConsumer := by
    have low := s.queue.headCache.isLt
    have small := s.queue.sizeConsumer.isLt
    rw [BitVec.lt_def, BitVec.toNat_add, Nat.mod_eq_sub_mod (by omega), Nat.mod_eq_of_lt (by omega)]
    omega
  rw [Pipeline.turn, if_neg back]

theorem not_batchDrains_of_wraps (batch : s.worker = .batch status)
    (some_ : s.queue.sizeConsumer ≠ 0)
    (wraps : ¬ s.queue.headCache.toNat + s.queue.sizeConsumer.toNat < 2 ^ (8 * b)) :
    ¬ BatchDrains s letters := by
  intro drains
  have begun : s.advanceWorker = some { s with worker := .flag status true } := by
    simp only [Pipeline.advanceWorker, batch, some_, if_false]
    rw [turn_of_wraps wraps]
  obtain ⟨-, -, same, -⟩ := (drains _ [] _ begun rfl).drained true rfl
  change s.queue.headCache = s.queue.headCache + s.queue.sizeConsumer at same
  exact some_ (by simpa using same)

/-- `process_batch` drains exactly its window, whatever happens meanwhile, unless the sum of the
head and the size of the window wraps. -/
theorem batchDrains_iff (flows : Flows base s head tail cache letters opened done)
    (batch : s.worker = .batch status) (some_ : s.queue.sizeConsumer ≠ 0) :
    BatchDrains s letters ↔
      s.queue.headCache.toNat + s.queue.sizeConsumer.toNat < 2 ^ (8 * b) := by
  have tracks := flows.settled.tracks
  have shaped := flows.settled.shaped
  constructor
  · intro drains
    by_contra wraps
    exact not_batchDrains_of_wraps batch some_ wraps drains
  · intro whole begun schedule s' first run
    rw [tracks.sizeConsumer shaped, tracks.headCache_eq] at whole
    simp only [Pipeline.advanceWorker, batch, some_, if_false, Option.some.injEq] at first
    subst first
    have kept := ((flows.draining batch whole).run whole run).kept tracks shaped
    rw [Nat.zero_add] at kept
    exact kept

end Batch

/-- The worker has read its status, and then one call is logged. -/
def oneLogged : List (PipelineEvent greeter) :=
  [.worker, .log greeting] ++ List.replicate 17 .app

/-- What is seen of the state in which the batch begins. -/
theorem oneLogged_run (q : SpscQueue (8 * 4)) (place : BitVec (8 * 4))
    (seen : (Schedule.run Pipeline.step (Pipeline.start q : Pipeline greeter) oneLogged).map
      (fun s => (s.queue.headCache, s.queue.sizeConsumer, s.events,
        (match s.worker with | .batch .running => true | _ => false : Bool))) =
          some (place, 16, [], true)) :
    ∃ s, Schedule.run Pipeline.step (Pipeline.start q : Pipeline greeter) oneLogged = some s ∧
      s.queue.headCache = place ∧ s.queue.sizeConsumer = 16 ∧ s.events = [] ∧
      s.worker = .batch .running := by
  obtain ⟨s, run, eq⟩ := Option.map_eq_some_iff.mp seen
  simp only [Prod.mk.injEq] at eq
  obtain ⟨head, size, events, batch⟩ := eq
  refine ⟨s, run, head, size, events, ?_⟩
  split at batch
  · assumption
  · cases batch

theorem batchDrains_iff_oneLogged :
    ∃ s letters, Schedule.run Pipeline.step (Pipeline.start smallRing) oneLogged = some s ∧
      s.queue.sizeConsumer = 16 ∧ BatchDrains s letters := by
  have init : (SpscQueue.fresh (8 * 4)).init 16 (fun _ => 0) 16 .drop = some smallRing := rfl
  obtain ⟨s, run, head_, size, -, batch⟩ := oneLogged_run smallRing 0 (by decide +kernel)
  obtain ⟨head, tail, cache, letters, opened, done, flows⟩ :=
    Schedule.run_invariant (fun step inv => Inv.step step inv) run
      (Inv.start (Prepared.of_init (by decide) (by decide) init))
  refine ⟨s, letters, run, size, (batchDrains_iff flows batch (by rw [size]; decide)).mpr ?_⟩
  rw [head_, size]
  decide

/-- The ring when the counters are one record before the end of their words. -/
def lateRing : SpscQueue (8 * 4) :=
  { smallRing with head := -16, headCache := -16, tail := -16, tailCache := -16 }

theorem lateRing_settled :
    Settled lateRing .idle (2 ^ 32 - 16) (2 ^ 32 - 16) (2 ^ 32 - 16) [] none where
  shaped := ⟨⟨4, rfl⟩, by decide⟩
  tracks := ⟨rfl, rfl, rfl, rfl, Nat.le_refl _, Nat.le_refl _, Nat.le_add_right _ _⟩
  takes := by simp
  holds := trivial
  ends := rfl
  producer := ⟨rfl, rfl⟩

/-- The record is in the window, and the batch returns that it has processed it when it has not
looked at it. -/
theorem not_batchDrains_lateRing :
    ∃ (s : Pipeline greeter) (head tail cache : Nat) (letters : List (Letter greeter))
      (opened : Option (Letter greeter)) (done : List (LogCall greeter)),
      Flows lateRing.droppedCount s head tail cache letters opened done ∧
      s.worker = .batch .running ∧ s.queue.headCache = -16 ∧ s.queue.sizeConsumer = 16 ∧
      s.events = [] ∧
      s.advanceWorker = some { s with worker := .flag .running true } ∧
      ¬ BatchDrains s letters := by
  obtain ⟨s, run, head_, size, events, batch⟩ :=
    oneLogged_run lateRing (-16) (by decide +kernel)
  obtain ⟨head, tail, cache, letters, opened, done, flows⟩ :=
    Schedule.run_invariant (fun step inv => Inv.step step inv) run
      ⟨_, _, _, _, _, _, Flows.start lateRing_settled ⟨⟨3, rfl⟩, by decide⟩⟩
  have some_ : s.queue.sizeConsumer ≠ 0 := by
    rw [size]
    decide
  have wraps : ¬ s.queue.headCache.toNat + s.queue.sizeConsumer.toNat < 2 ^ (8 * 4) := by
    rw [head_, size]
    decide
  refine ⟨s, head, tail, cache, letters, opened, done, flows, batch, head_, size, events, ?_,
    not_batchDrains_of_wraps batch some_ wraps⟩
  simp only [Pipeline.advanceWorker, batch, some_, if_false]
  rw [turn_of_wraps wraps]

end Fpag.Logging
