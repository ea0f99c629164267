import Fpag.Container.SpscProducer
import Fpag.Lib.Schedule
import Fpag.Logging.Deserializer

/-!
The asynchronous log pipeline: `AsyncLogger`, the queue, and `BackendWorker`.

The application thread makes log calls, flushes, and stops the worker at the end; the
worker runs `worker_loop`. The two interleave at every load and store of the queue's
counters, every byte that is written, every load and store of `flush_requested_` and
`internal_status_`, and every call of the sink. A worker that waits for the next record
changes nothing that others see, so its waiting is a schedule that does not run it.

`accepted` are the log calls whose `reserve` returned `Ok`, in call order, `events` the
calls of the sink, and `barriers` what every flush that returned had to cover and what
the sink had seen when it did.
-/

namespace Fpag.Logging

open Fpag.Container

/-- What the program is linked with: the deserializer at each address, and the formatter. -/
structure Program (b : Nat) : Type where
  deserializers : BitVec (8 * b) → Option (FormatKind × List ArgType)
  render : Format b → List DecodedArg → List UInt8

variable {b : Nat} {program : Program b}

/-- `BackendWorker::InternalStatus`. -/
inductive InternalStatus : Type
  | notInitialized
  | initialized
  | running
  | stopping
  | forceStopping
  deriving DecidableEq, Repr

/-- One call of `AsyncLogger::log` at a level that is logged, with the address of the
deserializer of its instance of the template. The arguments are objects in memory, so what they
come to in a record is a `usize`, with room for the padding in front of it. -/
structure LogCall (program : Program b) : Type where
  level : UInt8
  func : BitVec (8 * b)
  format : Format b
  args : List Arg
  linked : program.deserializers func = some (format.kind, args.map Arg.type)
  fits : payloadHeaderSize b format.kind + (argsBytes b args).length + payloadAlign ≤ 256 ^ b

/-- What the sink is called with. -/
structure LogEntry : Type where
  level : UInt8
  message : List UInt8
  deriving DecidableEq, Repr

inductive SinkEvent : Type
  | log (entry : LogEntry)
  | flush
  deriving DecidableEq, Repr

/-- The entry that a log call is about. -/
def LogCall.entry (call : LogCall program) : LogEntry :=
  ⟨call.level, program.render call.format (call.args.map Arg.asDecoded)⟩

/-- What `serialize_to` asks of the queue and writes. -/
def LogCall.request (call : LogCall program) : Option (Request (8 * b)) :=
  (serializeTo call.level call.func call.format call.args).map fun out =>
    ⟨out.slots, BitVec.ofNat (8 * b) payloadAlign⟩

/-- What the application does once its flush has returned. -/
inductive AfterFlush : Type
  | back
  | stop
  deriving DecidableEq, Repr

/-- Where the application thread is. -/
inductive App (program : Program b) : Type
  | idle
  | logging (call : LogCall program)
  | flushing (next : AfterFlush) (before : List (LogCall program))
  | storing
  | joining
  | stopped

/-- Where the worker is in `worker_loop`, with the status it has read and what `process_batch`
keeps in its locals. -/
inductive Worker (b : Nat) : Type
  | loadStatus
  | batch (status : InternalStatus)
  | peek (status : InternalStatus) (currentHead targetHead : BitVec (8 * b))
  | deserialize (status : InternalStatus) (currentHead targetHead dataPtr : BitVec (8 * b))
      (header : Header b)
  | discard (status : InternalStatus) (currentHead targetHead : BitVec (8 * b)) (payloadSize : Nat)
      (entry : LogEntry)
  | log (status : InternalStatus) (currentHead targetHead : BitVec (8 * b)) (entry : LogEntry)
  | flag (status : InternalStatus) (processed : Bool)
  | sinkFlush (status : InternalStatus) (processed : Bool)
  | clear (status : InternalStatus) (processed : Bool)
  | exitTest (status : InternalStatus) (processed : Bool)
  | exited

/-- What a flush that returned had to cover, and what the sink had seen by then. -/
structure Barrier (program : Program b) : Type where
  before : List (LogCall program)
  events : List SinkEvent

structure Pipeline (program : Program b) : Type where
  queue : SpscQueue (8 * b)
  producer : Producer (8 * b)
  app : App program
  status : InternalStatus
  flushRequested : Bool
  worker : Worker b
  events : List SinkEvent
  calls : Nat
  accepted : List (LogCall program)
  barriers : List (Barrier program)

/-- What happens next: the application makes a call or goes on with the one it is in, or the
worker makes a step. -/
inductive PipelineEvent (program : Program b) : Type
  | log (call : LogCall program)
  | flush
  | stop
  | forceStop
  | app
  | worker

namespace Pipeline

/-- `PAYLOAD_ALIGN` as a word. -/
def align (b : Nat) : BitVec (8 * b) := BitVec.ofNat (8 * b) payloadAlign

/-! ## The application -/

/-- The pipeline after a step of the producer inside a log call. -/
def after (s : Pipeline program) (call : LogCall program)
    (result : SpscQueue (8 * b) × Producer (8 * b) × Progress) : Pipeline program :=
  match result with
  | (q, p, .dropped) => { s with queue := q, producer := p, app := .idle }
  | (q, p, .accepted) =>
      { s with queue := q, producer := p, app := .logging call, accepted := s.accepted ++ [call] }
  | (q, p, .committed) => { s with queue := q, producer := p, app := .idle }
  | (q, p, _) => { s with queue := q, producer := p, app := .logging call }

/-- `AsyncLogger::log` up to the first look of `reserve` at the queue. -/
def log (s : Pipeline program) (call : LogCall program) : Option (Pipeline program) :=
  match call.request with
  | none => none
  | some r => some ({ s with calls := s.calls + 1 }.after call (Producer.request s.queue r))

/-- `BackendWorker::flush` up to its wait. -/
def flush (s : Pipeline program) (next : AfterFlush) : Pipeline program :=
  { s with flushRequested := true, app := .flushing next s.accepted }

/-- One step of the application inside a call. -/
def advanceApp (s : Pipeline program) : Option (Pipeline program) :=
  match s.app with
  | .logging call => (s.producer.advance s.queue).map (s.after call)
  | .flushing next before =>
      -- One turn of `wait_for_flush`.
      if s.queue.empty then
        some { s with
          app := match next with
            | .back => .idle
            | .stop => .storing
          barriers := ⟨before, s.events⟩ :: s.barriers }
      else some s
  | .storing => some { s with status := .stopping, app := .joining }
  | .joining =>
      match s.worker with
      | .exited => some { s with app := .stopped }
      | _ => none
  | _ => none

/-! ## The worker -/

/-- The head of the loop of `process_batch`. -/
def turn (s : Pipeline program) (status : InternalStatus)
    (currentHead targetHead : BitVec (8 * b)) : Pipeline program :=
  if currentHead < targetHead then { s with worker := .peek status currentHead targetHead }
  else { s with worker := .flag status true }

/-- One step of `worker_loop`. -/
def advanceWorker (s : Pipeline program) : Option (Pipeline program) :=
  match s.worker with
  | .loadStatus =>
      if s.status = .forceStopping then some { s with worker := .exited }
      else some { s with worker := .batch s.status }
  | .batch status =>
      let queueSize := s.queue.sizeConsumer
      if queueSize = 0 then some { s with worker := .flag status false }
      else
        let currentHead := s.queue.headCache
        some (s.turn status currentHead (currentHead + queueSize))
  | .peek status currentHead targetHead =>
      let dataPtr := s.queue.peek (align b)
      match readHeader b (s.queue.copyFrom dataPtr.toNat (payloadMinHeaderSize b)) with
      | none => none
      | some header =>
          some { s with worker := .deserialize status currentHead targetHead dataPtr header }
  | .deserialize status currentHead targetHead dataPtr header =>
      match program.deserializers header.deserializer with
      | none => none
      | some (kind, types) =>
          let record := s.queue.copyFrom dataPtr.toNat header.payloadSize
          match Logging.deserialize b kind types record header.payloadSize with
          | none => none
          | some decoded =>
              let entry : LogEntry := ⟨header.level, program.render decoded.format decoded.args⟩
              some { s with
                worker := .discard status currentHead targetHead header.payloadSize entry }
  | .discard status currentHead targetHead payloadSize entry =>
      let size := BitVec.ofNat (8 * b) payloadSize
      let alignedHead := Base.roundUp currentHead (align b)
      some { s with
        queue := s.queue.discard size (align b)
        worker := .log status (alignedHead + size) targetHead entry }
  | .log status currentHead targetHead entry =>
      let logged : Pipeline program := { s with events := s.events ++ [.log entry] }
      some (logged.turn status currentHead targetHead)
  | .flag status processed =>
      if s.flushRequested then some { s with worker := .sinkFlush status processed }
      else some { s with worker := .exitTest status processed }
  | .sinkFlush status processed =>
      some { s with events := s.events ++ [.flush], worker := .clear status processed }
  | .clear status processed =>
      some { s with flushRequested := false, worker := .exitTest status processed }
  | .exitTest status processed =>
      if status = .stopping && !processed && s.queue.empty then some { s with worker := .exited }
      else some { s with worker := .loadStatus }
  | .exited => none

def step (e : PipelineEvent program) (s : Pipeline program) : Option (Pipeline program) :=
  match e, s.app with
  | .log call, .idle => s.log call
  | .flush, .idle => some (s.flush .back)
  | .stop, .idle => some (s.flush .stop)
  | .forceStop, .idle => some { s with status := .forceStopping, app := .joining }
  | .app, _ => s.advanceApp
  | .worker, _ => s.advanceWorker
  | _, _ => none

/-- The pipeline when `start` has returned, over a queue that `init` has set up. -/
def start (q : SpscQueue (8 * b)) : Pipeline program where
  queue := q
  producer := .idle
  app := .idle
  status := .running
  flushRequested := false
  worker := .loadStatus
  events := []
  calls := 0
  accepted := []
  barriers := []

end Pipeline

end Fpag.Logging
