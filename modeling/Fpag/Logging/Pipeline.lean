import Fpag.Logging.BackendWorker

/-!
Nothing is lost, duplicated or reordered between the log calls and the sink.

A letter is an accepted call together with the record it has in the ring. `Flows` is the
invariant of the pipeline: what the sink was given to log, the entry the worker has in its
hand, the letters in the ring and the one that is being written are, in this order, the
accepted calls. The worker keeps a `current_head` of its own beside the queue's and a
`target_head` that was right when the batch began; `Worker.Ok` says which letters lie
between the two.
-/

namespace Fpag.Logging

open Fpag.Container

variable {b : Nat} {program : Program b}

/-- The entries among the calls of the sink. -/
def logged (events : List SinkEvent) : List LogEntry :=
  events.filterMap fun
    | .log entry => some entry
    | .flush => none

@[simp] theorem logged_append (xs ys : List SinkEvent) :
    logged (xs ++ ys) = logged xs ++ logged ys := List.filterMap_append

@[simp] theorem logged_flush : logged [.flush] = [] := rfl

@[simp] theorem logged_log (entry : LogEntry) : logged [.log entry] = [entry] := rfl

/-! ## Letters -/

namespace LogCall

def size (call : LogCall program) : Nat := totalPayloadSize call.format call.args

/-- What `serialize_to` writes for the call. -/
def slots (call : LogCall program) : List (Option UInt8) :=
  headerSlots call.size call.func call.level call.format ++ (argsBytes b call.args).map some

theorem small (call : LogCall program) :
    payloadHeaderSize b call.format.kind + (argsBytes b call.args).length < 256 ^ b := by
  have fits := call.fits
  simp only [payloadAlign] at fits
  omega

theorem size_eq (call : LogCall program) :
    call.size = payloadHeaderSize b call.format.kind + (argsBytes b call.args).length :=
  totalPayloadSize_eq call.small

theorem length_slots (call : LogCall program) : call.slots.length = call.size := by
  rw [slots, List.length_append, length_headerSlots, List.length_map, size_eq]

theorem request_eq (call : LogCall program) :
    call.request = some ⟨call.slots, Pipeline.align b⟩ := by
  rw [request, serializeTo_eq call.small]
  rfl

theorem header_le (call : LogCall program) : payloadMinHeaderSize b ≤ call.size := by
  rw [size_eq, payloadHeaderSize]
  omega

end LogCall

/-- An accepted call and the record it has in the ring. -/
structure Letter (program : Program b) : Type where
  call : LogCall program
  record : Record (8 * b)
  align : record.align = Pipeline.align b
  fills : Fills call.slots record.bytes

namespace Letter

theorem length (letter : Letter program) : letter.record.bytes.length = letter.call.size := by
  rw [letter.fills.length, letter.call.length_slots]

theorem size_eq (letter : Letter program) :
    letter.record.size = BitVec.ofNat (8 * b) letter.call.size := by
  rw [Record.size, letter.length]

/-- What a reservation for a call opens is a letter of the call. -/
theorem of_fills {call : LogCall program} {r : Request (8 * b)} {record : Record (8 * b)}
    (request : call.request = some r) (fills : record.Fills r) :
    ∃ letter : Letter program, letter.call = call ∧ letter.record = record := by
  rw [call.request_eq] at request
  cases request
  exact ⟨⟨call, record, fills.align, fills.length, fills.written⟩, rfl, rfl⟩

/-- The header of a letter is read from the bytes that `peek` promises. -/
theorem readHeader_eq (letter : Letter program) :
    readHeader b (letter.record.bytes.take (payloadMinHeaderSize b))
      = some ⟨letter.call.size, letter.call.func, letter.call.level⟩ := by
  have whole := (deserialize_eq letter.call.small letter.fills).1
  have gap : alignUp 1 payloadAlign = 8 := by decide
  have wide : payloadMinHeaderSize b = b + b + 8 := by rw [payloadMinHeaderSize, gap]
  have level : (letter.record.bytes.take (payloadMinHeaderSize b))[b + b]?
      = letter.record.bytes[b + b]? := List.getElem?_take_of_lt (by omega)
  have size : (letter.record.bytes.take (payloadMinHeaderSize b)).take b
      = letter.record.bytes.take b := by
    rw [List.take_take, Nat.min_eq_left (by omega)]
  have func : ((letter.record.bytes.take (payloadMinHeaderSize b)).drop b).take b
      = (letter.record.bytes.drop b).take b := by
    rw [List.drop_take, List.take_take, Nat.min_eq_left (by omega)]
  rw [readHeader, level, size, func]
  exact whole

theorem deserialize_eq (letter : Letter program) :
    Logging.deserialize b letter.call.format.kind (letter.call.args.map Arg.type)
        letter.record.bytes letter.call.size
      = some ⟨letter.call.format, letter.call.args.map Arg.asDecoded, 0⟩ :=
  (Logging.deserialize_eq letter.call.small letter.fills).2

end Letter

/-! ## The invariant -/

/-- The letters of a batch stand first in the ring, from the worker's own head to its target. -/
def InBatch (head : Nat) (letters : List (Letter program)) (currentHead targetHead : BitVec (8 * b))
    (batch : List (Letter program)) : Prop :=
  batch <+: letters ∧ currentHead = BitVec.ofNat (8 * b) head ∧
    targetHead = BitVec.ofNat (8 * b) (endOf head (batch.map Letter.record))

/-- What the worker's locals are, in each phase of its loop. -/
def Worker.Ok (q : SpscQueue (8 * b)) (head : Nat) (letters : List (Letter program)) :
    Worker b → Prop
  | .peek _ currentHead targetHead =>
      ∃ letter batch, InBatch head letters currentHead targetHead (letter :: batch)
  | .deserialize _ currentHead targetHead dataPtr header =>
      ∃ letter batch, InBatch head letters currentHead targetHead (letter :: batch) ∧
        dataPtr = q.peek (Pipeline.align b) ∧
        header = ⟨letter.call.size, letter.call.func, letter.call.level⟩
  | .discard _ currentHead targetHead payloadSize entry =>
      ∃ letter batch, InBatch head letters currentHead targetHead (letter :: batch) ∧
        payloadSize = letter.call.size ∧ entry = letter.call.entry
  | .log _ currentHead targetHead _ => ∃ batch, InBatch head letters currentHead targetHead batch
  | _ => True

/-- The entry that is out of the ring and not yet in the sink. -/
def Worker.inHand : Worker b → List LogEntry
  | .log _ _ _ entry => [entry]
  | _ => []

/-- The status that the worker has read in this turn of its loop. -/
def Worker.status : Worker b → Option InternalStatus
  | .batch status => some status
  | .peek status _ _ => some status
  | .deserialize status _ _ _ _ => some status
  | .discard status _ _ _ _ => some status
  | .log status _ _ _ => some status
  | .flag status _ => some status
  | .sinkFlush status _ => some status
  | .clear status _ => some status
  | .exitTest status _ => some status
  | _ => none

/-- The producer is at rest outside a log call, and inside one it works for that call. -/
def App.Ok (producer : Producer (8 * b)) : App program → Prop
  | .logging call => ∀ r needed, producer = .waiting r needed → call.request = some r
  | _ => producer = .idle

/-- The worker has been told to come to its end. -/
def InternalStatus.Ends : InternalStatus → Prop
  | .stopping => True
  | .forceStopping => True
  | _ => False

/-- The last call has been made. -/
def App.Ending : App program → Prop
  | .joining => True
  | .stopped => True
  | _ => False

/-- The log calls that `reserve` has not answered yet. -/
def waitingCalls : Producer (8 * b) → Nat
  | .waiting _ _ => 1
  | _ => 0

/-- What holds between the steps: where every accepted call is, over the letters in the ring,
the one that is being written and the calls that have left the ring. -/
structure Flows (base : BitVec (8 * b)) (s : Pipeline program) (head tail cache : Nat)
    (letters : List (Letter program)) (opened : Option (Letter program))
    (done : List (LogCall program)) : Prop where
  settled : Settled s.queue s.producer head tail cache (letters.map Letter.record)
    (opened.map Letter.record)
  aligns : s.queue.Aligns (Pipeline.align b)
  accepted : s.accepted = done ++ (letters ++ opened.toList).map Letter.call
  logged : logged s.events ++ s.worker.inHand = done.map LogCall.entry
  counted : ∃ dropped, s.calls = s.accepted.length + dropped + waitingCalls s.producer ∧
    s.queue.droppedCount = base + BitVec.ofNat (8 * b) dropped
  worker : s.worker.Ok s.queue head letters
  app : s.app.Ok s.producer
  ending : s.status.Ends → s.app.Ending
  read : s.worker.status = some .stopping → s.status = .stopping
  exits : s.worker = .exited → s.status.Ends
  drained : s.worker = .exited → s.status = .stopping → letters = []
  joined : s.app = .stopped → s.worker = .exited

variable {base : BitVec (8 * b)} {s s' : Pipeline program} {head tail cache : Nat}
  {letters : List (Letter program)} {opened : Option (Letter program)}
  {done : List (LogCall program)}

theorem InBatch.grow {currentHead targetHead : BitVec (8 * b)} {batch : List (Letter program)}
    (h : InBatch head letters currentHead targetHead batch) {letters' : List (Letter program)}
    (grown : letters <+: letters') : InBatch head letters' currentHead targetHead batch :=
  ⟨h.1.trans grown, h.2⟩

/-- The producer's steps leave what the worker knows alone. -/
theorem Worker.Ok.producer {q q' : SpscQueue (8 * b)} {worker : Worker b}
    (ok : worker.Ok q head letters) (same : q.SameConsumer q') {letters' : List (Letter program)}
    (grown : letters <+: letters') : worker.Ok q' head letters' := by
  cases worker with
  | peek status currentHead targetHead =>
      obtain ⟨letter, batch, inBatch⟩ := ok
      exact ⟨letter, batch, inBatch.grow grown⟩
  | deserialize status currentHead targetHead dataPtr header =>
      obtain ⟨letter, batch, inBatch, place, hheader⟩ := ok
      exact ⟨letter, batch, inBatch.grow grown, by rw [same.peek, place], hheader⟩
  | discard status currentHead targetHead payloadSize entry =>
      obtain ⟨letter, batch, inBatch, rest⟩ := ok
      exact ⟨letter, batch, inBatch.grow grown, rest⟩
  | log status currentHead targetHead entry =>
      obtain ⟨batch, inBatch⟩ := ok
      exact ⟨batch, inBatch.grow grown⟩
  | _ => trivial

/-- No record is empty, so an empty queue holds no letter. -/
theorem Flows.letters_nil (flows : Flows base s head tail cache letters opened done)
    (empty : s.queue.empty = true) : letters = [] := by
  have settled := flows.settled
  have size := settled.tracks.size settled.shaped
  have zero : s.queue.size = 0 := by simpa [SpscQueue.empty] using empty
  have none_ : tail - head = 0 := by
    rw [← size, zero]
    rfl
  cases letters with
  | nil => rfl
  | cons letter rest =>
      have ends := settled.ends
      rw [List.map_cons, endOf] at ends
      have start := (settled.takes letter.record (by simp)).start_le head
      have last := SpscQueue.le_endOf
        (fun r hr => settled.takes r (List.mem_cons_of_mem _ hr)) (letter.record.stop head)
      have length := letter.length
      have header := letter.call.header_le
      have gap : alignUp 1 payloadAlign = 8 := by decide
      rw [payloadMinHeaderSize, gap] at header
      simp only [Record.stop] at last ends
      omega

theorem Flows.opened_none (flows : Flows base s head tail cache letters opened done)
    (idle : s.producer = .idle) : opened = none := by
  have producer := flows.settled.producer
  rw [idle] at producer
  cases opened with
  | none => rfl
  | some letter => cases producer.2

namespace Flows

/-! ## Steps of the application -/

/-- A step of the producer inside a log call. -/
theorem produce (flows : Flows base s head tail cache letters opened done)
    (going : ¬ s.app.Ending) {q : SpscQueue (8 * b)} {p : Producer (8 * b)} {app : App program}
    {calls tail' cache' : Nat} {accepted : List (LogCall program)}
    {letters' : List (Letter program)} {opened' : Option (Letter program)}
    (same : s.queue.SameConsumer q) (grown : letters <+: letters')
    (settled : Settled q p head tail' cache' (letters'.map Letter.record)
      (opened'.map Letter.record))
    (kept : accepted = done ++ (letters' ++ opened'.toList).map Letter.call)
    (counted : ∃ dropped, calls = accepted.length + dropped + waitingCalls p ∧
      q.droppedCount = base + BitVec.ofNat (8 * b) dropped)
    (ok : app.Ok p) (on : app ≠ .stopped) :
    Flows base { s with queue := q, producer := p, app := app, calls := calls,
                        accepted := accepted } head tail' cache' letters' opened' done where
  settled := settled
  aligns := ⟨flows.aligns.pow, same.capacity ▸ flows.aligns.le⟩
  accepted := kept
  logged := flows.logged
  counted := counted
  worker := flows.worker.producer same grown
  app := ok
  ending := fun ends => (going (flows.ending ends)).elim
  read := flows.read
  exits := flows.exits
  drained := fun exited => (going (flows.ending (flows.exits exited))).elim
  joined := fun stop => (on stop).elim

/-- A request that a log call makes is one the queue can answer. -/
theorem serves (flows : Flows base s head tail cache letters opened done)
    (call : LogCall program) : s.queue.Serves ⟨call.slots, Pipeline.align b⟩ := by
  have fits := call.fits
  have align : (Pipeline.align b).toNat ≤ payloadAlign := by
    rw [Pipeline.align, BitVec.toNat_ofNat]
    exact Nat.mod_le _ _
  refine ⟨flows.aligns, ?_⟩
  change call.slots.length + (Pipeline.align b).toNat ≤ 2 ^ (8 * b)
  rw [call.length_slots, call.size_eq, two_pow_mul]
  omega

theorem log (flows : Flows base s head tail cache letters opened done) {call : LogCall program}
    (idle : s.app = .idle) (step : s.log call = some s') :
    ∃ cache' opened', Flows base s' head tail cache' letters opened' done := by
  have rest : s.producer = .idle := by
    have app := flows.app
    rw [idle] at app
    exact app
  have closed := flows.opened_none rest
  have going : ¬ s.app.Ending := by
    rw [idle]
    exact id
  have settled := flows.settled
  have accepted := flows.accepted
  obtain ⟨dropped, calls, count⟩ := flows.counted
  rw [rest] at settled calls
  rw [closed] at accepted
  have frame := Producer.request_frame s.queue ⟨call.slots, Pipeline.align b⟩
  simp only [Pipeline.log, call.request_eq] at step
  cases step
  rcases settled.request (flows.serves call) with
    ⟨result, next⟩ | ⟨result, next⟩ | ⟨record, cache', result, fills, next⟩
  · rw [result] at frame ⊢
    refine ⟨cache, none, flows.produce going frame List.prefix_rfl next accepted
      ⟨dropped + 1, ?_, ?_⟩ rfl (by rintro ⟨⟩)⟩
    · simp only [calls, waitingCalls]
      omega
    · rw [BitVec.ofNat_add, ← BitVec.add_assoc, ← count]
      rfl
  · rw [result] at frame ⊢
    refine ⟨cache, none, flows.produce going frame List.prefix_rfl next accepted
      ⟨dropped, ?_, count⟩ ?_ (by rintro ⟨⟩)⟩
    · simp only [calls, waitingCalls]
    · rintro r needed ⟨⟩
      exact call.request_eq
  · rw [result] at frame ⊢
    obtain ⟨letter, rfl, rfl⟩ := Letter.of_fills call.request_eq fills
    refine ⟨cache', some letter, flows.produce going frame List.prefix_rfl next ?_
      ⟨dropped, ?_, count⟩ (by rintro r needed ⟨⟩) (by rintro ⟨⟩)⟩
    · simp [accepted]
    · simp only [calls, waitingCalls, List.length_append, List.length_singleton]
      omega

/-- Every later step of a log call. -/
theorem advance (flows : Flows base s head tail cache letters opened done)
    {call : LogCall program} (logging : s.app = .logging call)
    {result : SpscQueue (8 * b) × Producer (8 * b) × Progress}
    (step : s.producer.advance s.queue = some result) :
    ∃ tail' cache' letters' opened', letters <+: letters' ∧
      Flows base (s.after call result) head tail' cache' letters' opened' done := by
  have going : ¬ s.app.Ending := by
    rw [logging]
    exact id
  have app := flows.app
  rw [logging] at app
  have accepted := flows.accepted
  have frame := Producer.advance_frame step
  have same := Producer.advance_droppedCount step
  obtain ⟨dropped, calls, count⟩ := flows.counted
  rw [← same] at count
  rcases flows.settled.advance step with
    ⟨r, needed, waiting, -, rfl⟩ |
    ⟨r, needed, q, out, record, cache', waiting, closed, fills, rfl, next⟩ |
    ⟨q, r, out, n, writing, rfl, next⟩ | ⟨q, r, out, n, record, tail', writing, rfl, hopen, next⟩
  · exact ⟨_, _, _, _, List.prefix_rfl, flows.produce going frame List.prefix_rfl flows.settled
      accepted ⟨dropped, calls, count⟩ app (by rintro ⟨⟩)⟩
  · obtain ⟨letter, rfl, rfl⟩ := Letter.of_fills (app r needed waiting) fills
    rw [Option.map_eq_none_iff.mp closed] at accepted
    rw [waiting] at calls
    refine ⟨_, _, letters, some letter, List.prefix_rfl, flows.produce going frame List.prefix_rfl
      next ?_ ⟨dropped, ?_, count⟩ (by rintro r needed ⟨⟩) (by rintro ⟨⟩)⟩
    · simp [accepted]
    · simp only [calls, waitingCalls, List.length_append, List.length_singleton]
      omega
  · rw [writing] at calls
    exact ⟨_, _, _, _, List.prefix_rfl, flows.produce going frame List.prefix_rfl next accepted
      ⟨dropped, calls, count⟩ (by rintro r needed ⟨⟩) (by rintro ⟨⟩)⟩
  · obtain ⟨letter, rfl, rfl⟩ := Option.map_eq_some_iff.mp hopen
    rw [writing] at calls
    refine ⟨tail', tail', letters ++ [letter], none, List.prefix_append _ _, flows.produce going
      frame (List.prefix_append _ _) ?_ ?_ ⟨dropped, calls, count⟩ rfl (by rintro ⟨⟩)⟩
    · rw [List.map_append]
      exact next
    · simpa using accepted

/-- Every step of the application keeps the invariant. -/
theorem advanceApp (flows : Flows base s head tail cache letters opened done)
    (step : s.advanceApp = some s') :
    ∃ tail' cache' letters' opened', letters <+: letters' ∧
      Flows base s' head tail' cache' letters' opened' done := by
  have app := flows.app
  unfold Pipeline.advanceApp at step
  split at step
  · next call logging =>
      obtain ⟨result, hstep, rfl⟩ := Option.map_eq_some_iff.mp step
      exact flows.advance logging hstep
  · next next before flushing =>
      rw [flushing] at app
      have going : ¬ s.app.Ending := by
        rw [flushing]
        exact id
      split at step
      · cases step
        refine ⟨tail, cache, letters, opened, List.prefix_rfl, ?_⟩
        cases next with
        | back => exact { flows with
            app := app, ending := fun ends => (going (flows.ending ends)).elim,
            joined := by rintro ⟨⟩ }
        | stop => exact { flows with
            app := app, ending := fun ends => (going (flows.ending ends)).elim,
            joined := by rintro ⟨⟩ }
      · cases step
        exact ⟨tail, cache, letters, opened, List.prefix_rfl, flows⟩
  · next storing =>
      cases step
      rw [storing] at app
      have going : ¬ s.app.Ending := by
        rw [storing]
        exact id
      exact ⟨tail, cache, letters, opened, List.prefix_rfl, { flows with
        app := app, ending := fun _ => trivial, read := fun _ => rfl, exits := fun _ => trivial,
        drained := fun exited => (going (flows.ending (flows.exits exited))).elim,
        joined := by rintro ⟨⟩ }⟩
  · next joining =>
      rw [joining] at app
      split at step
      · next exited =>
          cases step
          exact ⟨tail, cache, letters, opened, List.prefix_rfl, { flows with
            app := app, ending := fun _ => trivial, joined := fun _ => exited }⟩
      · cases step
  · cases step

/-- Whatever the application does, the head stays and no letter goes. -/
theorem byApp {e : PipelineEvent program}
    (flows : Flows base s head tail cache letters opened done) (app : e ≠ .worker)
    (step : Pipeline.step e s = some s') :
    ∃ tail' cache' letters' opened', letters <+: letters' ∧
      Flows base s' head tail' cache' letters' opened' done := by
  have ok := flows.app
  unfold Pipeline.step at step
  split at step
  · next call idle =>
      obtain ⟨cache', opened', next⟩ := flows.log idle step
      exact ⟨_, _, _, _, List.prefix_rfl, next⟩
  · next idle =>
      cases step
      rw [idle] at ok
      exact ⟨_, _, _, _, List.prefix_rfl, { flows with
        app := ok, ending := fun ends => (idle ▸ flows.ending ends : App.Ending .idle).elim,
        joined := by rintro ⟨⟩ }⟩
  · next idle =>
      cases step
      rw [idle] at ok
      exact ⟨_, _, _, _, List.prefix_rfl, { flows with
        app := ok, ending := fun ends => (idle ▸ flows.ending ends : App.Ending .idle).elim,
        joined := by rintro ⟨⟩ }⟩
  · next idle =>
      cases step
      rw [idle] at ok
      have going : ¬ s.app.Ending := by
        rw [idle]
        exact id
      refine ⟨_, _, _, _, List.prefix_rfl, { flows with
        app := ok, ending := fun _ => trivial, read := ?_, exits := fun _ => trivial,
        drained := by rintro - ⟨⟩, joined := by rintro ⟨⟩ }⟩
      intro stop
      exact (going (flows.ending (by rw [flows.read stop]; trivial))).elim
  · exact flows.advanceApp step
  · exact (app rfl).elim
  · cases step

/-! ## Steps of the worker -/

/-- A step of the worker that leaves the queue alone. -/
theorem move (flows : Flows base s head tail cache letters opened done)
    (live : s.worker ≠ .exited) {worker : Worker b} {events : List SinkEvent} {requested : Bool}
    (passed : Logging.logged events ++ worker.inHand
      = Logging.logged s.events ++ s.worker.inHand)
    (ok : worker.Ok s.queue head letters)
    (read : worker.status = some .stopping → s.status = .stopping)
    (exits : worker = .exited → s.status.Ends ∧ (s.status = .stopping → letters = [])) :
    Flows base { s with worker := worker, events := events, flushRequested := requested }
      head tail cache letters opened done :=
  { flows with
    logged := passed.trans flows.logged
    worker := ok
    read := read
    exits := fun exited => (exits exited).1
    drained := fun exited => (exits exited).2
    joined := fun stopped => (live (flows.joined stopped)).elim }

/-- The head of the loop: there is a letter left as long as the head is before the target. -/
theorem turn (flows : Flows base s head tail cache letters opened done)
    (live : s.worker ≠ .exited) {status : InternalStatus} {currentHead targetHead : BitVec (8 * b)}
    {batch : List (Letter program)} {events : List SinkEvent}
    (inBatch : InBatch head letters currentHead targetHead batch)
    (passed : Logging.logged events = Logging.logged s.events ++ s.worker.inHand)
    (read : status = .stopping → s.status = .stopping) :
    Flows base (Pipeline.turn { s with events := events } status currentHead targetHead)
      head tail cache letters opened done := by
  unfold Pipeline.turn
  split
  · next before =>
      cases batch with
      | nil =>
          obtain ⟨-, rfl, rfl⟩ := inBatch
          exact absurd before (BitVec.lt_irrefl _)
      | cons letter batch =>
          exact flows.move live (by simpa [Worker.inHand] using passed) ⟨letter, batch, inBatch⟩
            (by simpa [Worker.status] using read) (by rintro ⟨⟩)
  · exact flows.move live (by simpa [Worker.inHand] using passed) trivial
      (by simpa [Worker.status] using read) (by rintro ⟨⟩)

/-- What the deserializer reads is the first letter. -/
theorem copyFrom (flows : Flows base s head tail cache letters opened done)
    {currentHead targetHead : BitVec (8 * b)} {letter : Letter program}
    {batch : List (Letter program)}
    (inBatch : InBatch head letters currentHead targetHead (letter :: batch)) :
    s.queue.copyFrom (s.queue.peek (Pipeline.align b)).toNat letter.call.size
      = letter.record.bytes := by
  obtain ⟨⟨rest, rfl⟩, -, -⟩ := inBatch
  have settled := flows.settled
  have copied := settled.holds.copyFrom settled.tracks settled.shaped
    (settled.takes letter.record (by simp))
  rw [letter.align, letter.length] at copied
  exact copied

/-- What the worker finds where `peek` points is the header of the first letter. -/
theorem readHeader_eq (flows : Flows base s head tail cache letters opened done)
    {currentHead targetHead : BitVec (8 * b)} {letter : Letter program}
    {batch : List (Letter program)}
    (inBatch : InBatch head letters currentHead targetHead (letter :: batch)) :
    readHeader b (s.queue.copyFrom (s.queue.peek (Pipeline.align b)).toNat (payloadMinHeaderSize b))
      = some ⟨letter.call.size, letter.call.func, letter.call.level⟩ := by
  have header := letter.readHeader_eq
  rw [← flows.copyFrom inBatch, SpscQueue.copyFrom_take _ _ letter.call.header_le] at header
  exact header

/-- `discard` gives the room of the first letter back, and the worker's own head follows. -/
theorem discard {letter : Letter program} {batch : List (Letter program)} {status : InternalStatus}
    {currentHead targetHead : BitVec (8 * b)} {entry : LogEntry}
    (flows : Flows base s head tail cache letters opened done)
    (here : s.worker = .discard status currentHead targetHead letter.call.size entry)
    (inBatch : InBatch head letters currentHead targetHead (letter :: batch))
    (same : entry = letter.call.entry) :
    ∃ letters', letters = letter :: letters' ∧ Flows base { s with
        queue := s.queue.discard (BitVec.ofNat (8 * b) letter.call.size) (Pipeline.align b)
        worker := .log status (Base.roundUp currentHead (Pipeline.align b) +
          BitVec.ofNat (8 * b) letter.call.size) targetHead entry }
      (letter.record.stop head) tail cache letters' opened (done ++ [letter.call]) := by
  obtain ⟨⟨rest, rfl⟩, rfl, rfl⟩ := inBatch
  have settled := flows.settled.discard
  rw [letter.align, letter.size_eq] at settled
  have accepted := flows.accepted
  have passed := flows.logged
  have read := flows.read
  rw [here] at passed read
  refine ⟨batch ++ rest, rfl, settled, ⟨flows.aligns.pow, flows.aligns.le⟩, ?_, ?_, flows.counted,
    ?_, flows.app, flows.ending, read, by rintro ⟨⟩, by rintro ⟨⟩, ?_⟩
  · simpa using accepted
  · rw [List.map_append, ← passed, same]
    simp [Worker.inHand]
  · refine ⟨batch, List.prefix_append _ _, ?_, rfl⟩
    rw [flows.aligns.roundUp, Record.stop, letter.length, Record.start, letter.align,
      BitVec.ofNat_add]
  · intro stopped
    have exited := flows.joined stopped
    rw [here] at exited
    cases exited

/-- Every step of the worker keeps the invariant. -/
theorem advanceWorker (flows : Flows base s head tail cache letters opened done)
    (step : s.advanceWorker = some s') :
    ∃ head' letters' done', Flows base s' head' tail cache letters' opened done' := by
  have ok := flows.worker
  have read := flows.read
  unfold Pipeline.advanceWorker at step
  split at step
  · next here =>
      have live : s.worker ≠ .exited := by rw [here]; rintro ⟨⟩
      split at step
      · next force =>
          cases step
          refine ⟨_, _, _, flows.move live (by simp [here, Worker.inHand]) trivial
            (by rintro ⟨⟩) fun _ => ⟨?_, ?_⟩⟩
          · rw [force]
            trivial
          · rw [force]
            rintro ⟨⟩
      · cases step
        exact ⟨_, _, _, flows.move live (by simp [here, Worker.inHand]) trivial
          (by simp [Worker.status]) (by rintro ⟨⟩)⟩
  · next status here =>
      have live : s.worker ≠ .exited := by rw [here]; rintro ⟨⟩
      rw [here] at read
      dsimp only at step
      split at step
      · cases step
        exact ⟨_, _, _, flows.move live (by simp [here, Worker.inHand]) trivial read
          (by rintro ⟨⟩)⟩
      · cases step
        have tracks := flows.settled.tracks
        refine ⟨_, _, _, flows.turn live ⟨List.prefix_rfl, tracks.headCache_eq, ?_⟩
          (by simp [here, Worker.inHand]) (by simpa [Worker.status] using read)⟩
        rw [SpscQueue.sizeConsumer, BitVec.add_comm, BitVec.sub_add_cancel, tracks.tail_eq,
          flows.settled.ends]
  · next status currentHead targetHead here =>
      have live : s.worker ≠ .exited := by rw [here]; rintro ⟨⟩
      rw [here] at ok read
      obtain ⟨letter, batch, inBatch⟩ := ok
      simp only [flows.readHeader_eq inBatch] at step
      cases step
      exact ⟨_, _, _, flows.move live (by simp [here, Worker.inHand])
        ⟨letter, batch, inBatch, rfl, rfl⟩ read (by rintro ⟨⟩)⟩
  · next status currentHead targetHead dataPtr header here =>
      have live : s.worker ≠ .exited := by rw [here]; rintro ⟨⟩
      rw [here] at ok read
      obtain ⟨letter, batch, inBatch, rfl, rfl⟩ := ok
      simp only [letter.call.linked, flows.copyFrom inBatch, letter.deserialize_eq] at step
      cases step
      exact ⟨_, _, _, flows.move live (by simp [here, Worker.inHand])
        ⟨letter, batch, inBatch, rfl, rfl⟩ read (by rintro ⟨⟩)⟩
  · next status currentHead targetHead payloadSize entry here =>
      have found := ok
      rw [here] at found
      obtain ⟨letter, batch, inBatch, rfl, same⟩ := found
      cases step
      obtain ⟨letters', -, next⟩ := flows.discard here inBatch same
      exact ⟨_, _, _, next⟩
  · next status currentHead targetHead entry here =>
      have live : s.worker ≠ .exited := by rw [here]; rintro ⟨⟩
      rw [here] at ok read
      obtain ⟨batch, inBatch⟩ := ok
      cases step
      exact ⟨_, _, _, flows.turn live inBatch (by simp [here, Worker.inHand])
        (by simpa [Worker.status] using read)⟩
  · next status processed here =>
      have live : s.worker ≠ .exited := by rw [here]; rintro ⟨⟩
      rw [here] at read
      split at step <;> cases step <;>
        exact ⟨_, _, _, flows.move live (by simp [here, Worker.inHand]) trivial read
          (by rintro ⟨⟩)⟩
  · next status processed here =>
      have live : s.worker ≠ .exited := by rw [here]; rintro ⟨⟩
      rw [here] at read
      cases step
      exact ⟨_, _, _, flows.move live (by simp [here, Worker.inHand]) trivial read
        (by rintro ⟨⟩)⟩
  · next status processed here =>
      have live : s.worker ≠ .exited := by rw [here]; rintro ⟨⟩
      rw [here] at read
      cases step
      exact ⟨_, _, _, flows.move live (by simp [here, Worker.inHand]) trivial read
        (by rintro ⟨⟩)⟩
  · next status processed here =>
      have live : s.worker ≠ .exited := by rw [here]; rintro ⟨⟩
      rw [here] at read
      split at step
      · next last =>
          cases step
          simp only [Bool.and_eq_true, decide_eq_true_eq] at last
          have stop : s.status = .stopping := read (by simp [Worker.status, last.1.1])
          refine ⟨_, _, _, flows.move live (by simp [here, Worker.inHand]) trivial
            (by rintro ⟨⟩) fun _ => ⟨?_, fun _ => flows.letters_nil last.2⟩⟩
          rw [stop]
          trivial
      · cases step
        exact ⟨_, _, _, flows.move live (by simp [here, Worker.inHand]) trivial
          (by rintro ⟨⟩) (by rintro ⟨⟩)⟩
  · cases step

/-- The worker is never stuck: whatever it peeks at is the header of a record, and the record is
one that its deserializer decodes. -/
theorem worker_steps (flows : Flows base s head tail cache letters opened done)
    (live : s.worker ≠ .exited) : ∃ s', s.advanceWorker = some s' := by
  have ok := flows.worker
  unfold Pipeline.advanceWorker
  split
  · split <;> exact ⟨_, rfl⟩
  · dsimp only
    split <;> exact ⟨_, rfl⟩
  · next status currentHead targetHead here =>
      rw [here] at ok
      obtain ⟨letter, batch, inBatch⟩ := ok
      simp only [flows.readHeader_eq inBatch]
      exact ⟨_, rfl⟩
  · next status currentHead targetHead dataPtr header here =>
      rw [here] at ok
      obtain ⟨letter, batch, inBatch, rfl, rfl⟩ := ok
      simp only [letter.call.linked, flows.copyFrom inBatch, letter.deserialize_eq]
      exact ⟨_, rfl⟩
  · exact ⟨_, rfl⟩
  · exact ⟨_, rfl⟩
  · split <;> exact ⟨_, rfl⟩
  · exact ⟨_, rfl⟩
  · exact ⟨_, rfl⟩
  · split <;> exact ⟨_, rfl⟩
  · next exited => exact (live exited).elim

end Flows

/-! ## Every interleaving -/

/-- The invariant of every reachable state. -/
def Inv (base : BitVec (8 * b)) (s : Pipeline program) : Prop :=
  ∃ head tail cache letters opened done, Flows base s head tail cache letters opened done

theorem Inv.step {e : PipelineEvent program} (step : Pipeline.step e s = some s')
    (inv : Inv base s) : Inv base s' := by
  obtain ⟨head, tail, cache, letters, opened, done, flows⟩ := inv
  by_cases worker : e = .worker
  · subst worker
    obtain ⟨head', letters', done', next⟩ := flows.advanceWorker step
    exact ⟨_, _, _, _, _, _, next⟩
  · obtain ⟨tail', cache', letters', opened', -, next⟩ := flows.byApp worker step
    exact ⟨_, _, _, _, _, _, next⟩

/-- A queue that `init` has set up for the records of the logger. -/
structure Prepared (q : SpscQueue (8 * b)) : Prop where
  settled : Settled q .idle 0 0 0 [] none
  aligns : q.Aligns (Pipeline.align b)

theorem Prepared.of_init (wide : 4 ≤ b) {pageSize : Nat} (pages : payloadAlign ≤ pageSize)
    {ring : Nat → UInt8} {capacity : BitVec (8 * b)} {mode : Mode} {q : SpscQueue (8 * b)}
    (init : (SpscQueue.fresh (8 * b)).init pageSize ring capacity mode = some q) : Prepared q := by
  obtain ⟨shaped, dvd⟩ := SpscQueue.shaped_of_init (by omega) init
  have page : pageSize ≤ q.capacity.toNat := Nat.le_of_dvd shaped.pos dvd
  have align : (Pipeline.align b).toNat = payloadAlign := by
    have big : 2 ^ 32 ≤ 2 ^ (8 * b) := Nat.pow_le_pow_right (by decide) (by omega)
    rw [Pipeline.align, BitVec.toNat_ofNat, Nat.mod_eq_of_lt]
    exact lt_of_lt_of_le (by decide) big
  have fresh : q.head = 0 ∧ q.headCache = 0 ∧ q.tail = 0 ∧ q.tailCache = 0 := by
    unfold SpscQueue.init at init
    split at init <;> cases init
    exact ⟨rfl, rfl, rfl, rfl⟩
  obtain ⟨h₁, h₂, h₃, h₄⟩ := fresh
  refine ⟨⟨shaped, ⟨h₁, h₂, h₃, h₄, Nat.le_refl 0, Nat.le_refl 0, Nat.zero_le _⟩, by simp,
    trivial, rfl, rfl, rfl⟩, ⟨3, align⟩, ?_⟩
  rw [align]
  exact pages.trans page

/-- The invariant holds at the start, wherever the counters of the queue stand. -/
theorem Flows.start {q : SpscQueue (8 * b)} {place : Nat}
    (settled : Settled q .idle place place place [] none) (aligns : q.Aligns (Pipeline.align b)) :
    Flows q.droppedCount (Pipeline.start q : Pipeline program) place place place [] none [] where
  settled := settled
  aligns := aligns
  accepted := rfl
  logged := rfl
  counted := ⟨0, rfl, by simp [Pipeline.start]⟩
  worker := trivial
  app := rfl
  ending := id
  read := by rintro ⟨⟩
  exits := by rintro ⟨⟩
  drained := by rintro ⟨⟩
  joined := by rintro ⟨⟩

theorem Inv.start {q : SpscQueue (8 * b)} (prepared : Prepared q) :
    Inv q.droppedCount (Pipeline.start q : Pipeline program) :=
  ⟨0, 0, 0, [], none, [], Flows.start prepared.settled prepared.aligns⟩

/-- What has been delivered when `stop` has returned: the accepted calls, each once and in call
order, and every call is in the sink or among the dropped ones. -/
structure Delivered (base : BitVec (8 * b)) (s : Pipeline program) : Prop where
  inOrder : logged s.events = s.accepted.map LogCall.entry
  counted : ∃ dropped, s.calls = (logged s.events).length + dropped ∧
    s.queue.droppedCount = base + BitVec.ofNat (8 * b) dropped

/-- With the producer at rest, the queue empty and nothing in the worker's hand, everything that
was accepted is in the sink. -/
theorem Inv.logged_all (inv : Inv base s) (rest : s.producer = .idle)
    (hand : s.worker.inHand = [])
    (empty : s.queue.empty = true ∨ (s.worker = .exited ∧ s.status = .stopping)) :
    logged s.events = s.accepted.map LogCall.entry := by
  obtain ⟨head, tail, cache, letters, opened, done, flows⟩ := inv
  have none_ : letters = [] := by
    rcases empty with empty | ⟨exited, stopping⟩
    · exact flows.letters_nil empty
    · exact flows.drained exited stopping
  have accepted := flows.accepted
  have passed := flows.logged
  rw [none_, flows.opened_none rest] at accepted
  rw [hand] at passed
  simpa [accepted] using passed

theorem Inv.delivered (inv : Inv base s) (stopped : s.app = .stopped)
    (stopping : s.status = .stopping) : Delivered base s := by
  obtain ⟨head, tail, cache, letters, opened, done, flows⟩ := id inv
  have exited := flows.joined stopped
  have app := flows.app
  rw [stopped] at app
  have rest : s.producer = .idle := app
  have all := inv.logged_all rest (by rw [exited]; rfl) (Or.inr ⟨exited, stopping⟩)
  obtain ⟨dropped, calls, count⟩ := flows.counted
  rw [rest] at calls
  refine ⟨all, dropped, ?_, count⟩
  rw [all, List.length_map, calls]
  rfl

/-- Whatever the application and the worker do in whatever order, when `stop` has returned the
sink has logged exactly the accepted calls, in order, and the dropped calls are counted. -/
theorem delivered_of_run (wide : 4 ≤ b) {pageSize : Nat} (pages : payloadAlign ≤ pageSize)
    {ring : Nat → UInt8} {capacity : BitVec (8 * b)} {mode : Mode} {q : SpscQueue (8 * b)}
    (init : (SpscQueue.fresh (8 * b)).init pageSize ring capacity mode = some q)
    {schedule : List (PipelineEvent program)} {s : Pipeline program}
    (run : Schedule.run Pipeline.step (Pipeline.start q) schedule = some s)
    (stopped : s.app = .stopped) (stopping : s.status = .stopping) :
    Delivered q.droppedCount s :=
  (Schedule.run_invariant (fun step inv => Inv.step step inv) run
    (Inv.start (Prepared.of_init wide pages init))).delivered stopped stopping

/-- A program with one log statement, which has no arguments. -/
def greeter : Program 4 where
  deserializers := fun _ => some (.compiled, [])
  render := fun _ _ => [104, 105]

def greeting : LogCall greeter where
  level := 3
  func := 7
  format := .compiled
  args := []
  linked := rfl
  fits := by decide

/-- A ring with room for one record and no more. -/
def smallRing : SpscQueue (8 * 4) :=
  { SpscQueue.fresh (8 * 4) with mapped := true, capacity := 16 }

/-- One call is logged while the worker looks at the queue, a second one finds no room, and the
worker is stopped. -/
def stoppedSchedule : List (PipelineEvent greeter) :=
  [.worker, .log greeting, .worker] ++ List.replicate 17 .app ++ [.log greeting] ++
    List.replicate 10 .worker ++ [.stop, .app, .worker, .app] ++ List.replicate 9 .worker ++ [.app]

theorem delivered_of_run_stopped :
    ∃ s, Schedule.run Pipeline.step (Pipeline.start smallRing) stoppedSchedule = some s ∧
      s.events = [.log ⟨3, [104, 105]⟩, .flush] ∧ s.calls = 2 ∧ s.queue.droppedCount = 1 ∧
      Delivered smallRing.droppedCount s := by
  have init : (SpscQueue.fresh (8 * 4)).init 16 (fun _ => 0) 16 .drop = some smallRing := rfl
  have done : (Schedule.run Pipeline.step (Pipeline.start smallRing) stoppedSchedule).map
      (fun s => (s.events, s.calls, s.queue.droppedCount, s.status,
        (match s.app with | .stopped => true | _ => false : Bool))) =
        some ([.log ⟨3, [104, 105]⟩, .flush], 2, 1, .stopping, true) := by
    decide +kernel
  obtain ⟨s, run, eq⟩ := Option.map_eq_some_iff.mp done
  simp only [Prod.mk.injEq] at eq
  obtain ⟨events, calls, dropped, status, stopped⟩ := eq
  refine ⟨s, run, events, calls, dropped, delivered_of_run (by decide) (by decide) init run ?_
    status⟩
  split at stopped
  · assumption
  · cases stopped

end Fpag.Logging
