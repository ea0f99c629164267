import Fpag.Logging.FdSink
import Fpag.Logging.FlushBarrier

/-!
From the log calls to the descriptors: the pipeline over a `logging::CompositeSink`.

The worker hands every entry to the composite, and the composite to each of its sinks. An unbuffered
`FdSink` has written the line of every accepted call when `stop` returns, whatever the interleaving
was and whatever the other sinks are. A buffered one has too, if its records had a place and every
step was in time, because then the sink was flushed behind the last of them (`Concluded`).
-/

namespace Fpag.Logging

open Fpag.Container

variable {b : Nat} {program : Program b}

/-- A sink of a composite: `FdSink` or `NullSink`. -/
inductive AnySink : Type
  | fd (sink : FdSink)
  | null

def AnySink.step (e : SinkEvent) : AnySink → Option AnySink
  | .fd sink => (sink.step e).map .fd
  | .null => some .null

/-- `CompositeSink`: every call is made of each sink. -/
def CompositeSink.step : SinkEvent → List AnySink → Option (List AnySink) :=
  Schedule.together AnySink.step

/-- The lines of some calls. -/
def printed (style : ColorStyle) (calls : List (LogCall program)) : List UInt8 :=
  calls.flatMap fun call => FdSink.record style (.log call.entry)

/-! ## One sink -/

namespace FdSink

/-- A sink without a buffer, as the default arguments of the constructor make it. -/
structure Bare (s : FdSink) : Prop where
  unbuffered : s.useBuffer = false
  capacity : s.capacity = 0

variable {s s' : FdSink} {e : SinkEvent} {es : List SinkEvent}

theorem flush_same (s : FdSink) :
    s.flush.useBuffer = s.useBuffer ∧ s.flush.capacity = s.capacity := by
  rw [FdSink.flush]
  split <;> exact ⟨rfl, rfl⟩

theorem step_same (h : step e s = some s') :
    s'.useBuffer = s.useBuffer ∧ s'.capacity = s.capacity := by
  cases e with
  | flush =>
      cases h
      exact s.flush_same
  | log entry =>
      change s.log entry = some s' at h
      by_cases direct : s.Direct entry
      · rw [log_direct direct] at h
        cases h
        exact ⟨rfl, rfl⟩
      · rw [log_indirect direct] at h
        split at h
        · obtain ⟨buffer, -, rfl⟩ := Option.map_eq_some_iff.mp h
          exact ⟨rfl, rfl⟩
        · split at h <;> cases h <;> exact s.flush_same

theorem Bare.step (bare : s.Bare) (h : FdSink.step e s = some s') : s'.Bare := by
  obtain ⟨useBuffer, capacity⟩ := step_same h
  exact ⟨useBuffer.trans bare.unbuffered, capacity.trans bare.capacity⟩

/-- Every record is longer than no buffer. -/
theorem Bare.placed (bare : s.Bare) (e : SinkEvent) : Placed e s := by
  cases e with
  | flush => trivial
  | log entry =>
      left
      rw [bare.capacity, length_record]
      omega

theorem Bare.run (ok : s.Ok) (bare : s.Bare) (es : List SinkEvent) :
    ∃ s', Schedule.run (Schedule.guarded Placed FdSink.step) s es = some s' := by
  induction es generalizing s with
  | nil => exact ⟨s, rfl⟩
  | cons e es ih =>
      have placed := bare.placed e
      obtain ⟨m, moved, still, -, -⟩ := ok.step_placed placed
      obtain ⟨s', rest⟩ := ih still (bare.step moved)
      have first := Schedule.guarded_eq_some.mpr ⟨placed, moved⟩
      exact ⟨s', Schedule.run_cons_eq_some.mpr ⟨m, first, rest⟩⟩

theorem Bare.written (bare : s.Bare) : s.written = s.sent := by
  rw [sent, pending, if_neg (by rw [bare.unbuffered]; decide), List.append_nil]

/-- A bare sink has written what it was given. -/
theorem Bare.run_written (ok : s.Ok) (bare : s.Bare) (h : Schedule.run FdSink.step s es = some s') :
    s'.written = s.written ++ es.flatMap (record s.colorStyle) := by
  obtain ⟨s'', guarded_⟩ := bare.run ok es
  obtain rfl : s'' = s' := Option.some.inj ((Schedule.run_of_guarded guarded_).symm.trans h)
  have bare' : s''.Bare :=
    Schedule.run_invariant (fun moved still => Bare.step still moved) h bare
  rw [bare'.written, bare.written, ok.run_placed guarded_]

/-- A sink whose records have a place has written them all when it is flushed at the end. -/
theorem Ok.run_flushed (ok : s.Ok)
    (h : Schedule.run (Schedule.guarded Placed FdSink.step) s (es ++ [.flush]) = some s') :
    s'.written = s.sent ++ es.flatMap (record s.colorStyle) := by
  obtain ⟨m, front, last⟩ := Schedule.run_append_eq_some.mp h
  have flushed := Schedule.run_of_guarded last
  cases flushed
  rw [flush_written, ok.run_placed front]

theorem flatMap_record (style : ColorStyle) (es : List SinkEvent) :
    es.flatMap (record style) = (logged es).flatMap fun entry => record style (.log entry) := by
  induction es with
  | nil => rfl
  | cons e es ih =>
      rw [List.flatMap_cons, ih]
      cases e <;> rfl

end FdSink

/-! ## The flush of a stop -/

section Stop

variable {base : BitVec (8 * b)} {s s' : Pipeline program}

/-- Once the flush of `stop` has returned, it has covered every call that was accepted. -/
def Concluded (s : Pipeline program) : Prop :=
  s.app = .storing ∨ (s.app.Ending ∧ s.status = .stopping) →
    ∃ barrier ∈ s.barriers, barrier.before = s.accepted

theorem advanceWorker_status (step : s.advanceWorker = some s') : s'.status = s.status := by
  have turn (events : List SinkEvent) (status : InternalStatus)
      (currentHead targetHead : BitVec (8 * b)) :
      (Pipeline.turn { s with events := events } status currentHead targetHead).status =
        s.status := by
    rw [Pipeline.turn]
    split <;> rfl
  unfold Pipeline.advanceWorker at step
  split at step
  · split at step <;> cases step <;> rfl
  · dsimp only at step
    split at step <;> cases step
    · rfl
    · exact turn s.events _ _ _
  · dsimp only at step
    split at step <;> cases step
    rfl
  · split at step
    · cases step
    · dsimp only at step
      split at step <;> cases step
      rfl
  · cases step
    rfl
  · cases step
    exact turn _ _ _ _
  · split at step <;> cases step <;> rfl
  · cases step
    rfl
  · cases step
    rfl
  · split at step <;> cases step <;> rfl
  · cases step

theorem Concluded.worker (concluded : Concluded s) (step : s.advanceWorker = some s') :
    Concluded s' := by
  have status := advanceWorker_status step
  cases Moves.of_step step with
  | quiet app accepted barriers =>
      rw [Concluded, app, accepted, barriers, status]
      exact concluded
  | finds => exact concluded
  | flushes => exact concluded
  | clears => exact concluded

theorem Concluded.app (timely : Timely base s) (concluded : Concluded s)
    (step : s.advanceApp = some s') : Concluded s' := by
  unfold Pipeline.advanceApp at step
  split at step
  · obtain ⟨⟨q, p, progress⟩, -, rfl⟩ := Option.map_eq_some_iff.mp step
    cases progress <;> rintro (⟨⟨⟩⟩ | ⟨⟨⟩, -⟩)
  · next next before flushing =>
      split at step <;> cases step
      · intro _
        exact ⟨⟨before, s.events⟩, List.mem_cons_self, (timely.waits next before flushing).1⟩
      · exact concluded
  · next storing =>
      cases step
      exact fun _ => concluded (.inl storing)
  · next joining =>
      split at step <;> cases step
      rintro (⟨⟨⟩⟩ | ⟨-, stopping⟩)
      apply concluded
      rw [joining]
      exact .inr ⟨trivial, stopping⟩
  · cases step

theorem Concluded.step {e : PipelineEvent program} (timely : Timely base s)
    (concluded : Concluded s) (step : Pipeline.step e s = some s') : Concluded s' := by
  unfold Pipeline.step at step
  split at step
  · next call idle =>
      unfold Pipeline.log at step
      split at step <;> cases step
      generalize Producer.request _ _ = result
      obtain ⟨q, p, progress⟩ := result
      cases progress <;> rintro (⟨⟨⟩⟩ | ⟨⟨⟩, -⟩)
  · cases step
    rintro (⟨⟨⟩⟩ | ⟨⟨⟩, -⟩)
  · cases step
    rintro (⟨⟨⟩⟩ | ⟨⟨⟩, -⟩)
  · cases step
    rintro (⟨⟨⟩⟩ | ⟨-, ⟨⟩⟩)
  · exact concluded.app timely step
  · exact concluded.worker step
  · cases step

theorem concluded_of_run {q : SpscQueue (8 * b)} (prepared : Prepared q)
    {schedule : List (PipelineEvent program)}
    (run : Schedule.run Pipeline.stepInTime (Pipeline.start q) schedule = some s) :
    Timely q.droppedCount s ∧ Concluded s := by
  have start : Timely q.droppedCount (Pipeline.start q : Pipeline program) :=
    ⟨Inv.start prepared, by rintro _ ⟨⟩, by rintro _ ⟨⟩, by rintro ⟨⟩, by rintro ⟨⟩,
      by rintro _ _ ⟨⟩⟩
  have none_ : Concluded (Pipeline.start q : Pipeline program) := by
    rintro (⟨⟨⟩⟩ | ⟨⟨⟩, -⟩)
  apply Schedule.run_invariant (I := fun s => Timely q.droppedCount s ∧ Concluded s) _ run
    ⟨start, none_⟩
  rintro e s s' step ⟨timely, concluded⟩
  exact ⟨timely.step step, concluded.step timely (Schedule.guarded_eq_some.mp step).2⟩

/-- The last call of the sink is a flush, unless it was given nothing. -/
theorem flushedLast_of_covered {calls : List (LogCall program)} {events : List SinkEvent}
    (covered : Covered calls events) (all : logged events = calls.map LogCall.entry) :
    calls = [] ∨ ∃ front, events = front ++ [.flush] := by
  by_cases none_ : calls = []
  · exact .inl none_
  obtain ⟨before, after, rfl, inSink⟩ := covered none_
  right
  have quiet : logged after = [] := by
    have le := inSink.length_le
    have length := congrArg List.length all
    have split : logged (before ++ .flush :: after) = logged before ++ logged after :=
      logged_append before (.flush :: after)
    rw [split, List.length_append] at length
    exact List.length_eq_zero_iff.mp (by omega)
  rcases List.eq_nil_or_concat after with rfl | ⟨front, last, rfl⟩
  · exact ⟨before, rfl⟩
  · rw [List.concat_eq_append] at quiet ⊢
    cases last with
    | flush => exact ⟨before ++ .flush :: front, by simp⟩
    | log entry => simp at quiet

end Stop

/-! ## From calls to lines -/

/-- A sink as its constructor leaves it. -/
def AnySink.Fresh : AnySink → Prop
  | .fd sink => ∃ capacity buffer colorStyle useBuffer,
      FdSink.construct capacity buffer colorStyle useBuffer = some sink
  | .null => True

/-- A sink that never refuses a call. -/
def AnySink.Bare : AnySink → Prop
  | .fd sink => sink.Bare
  | .null => True

theorem run_fd {sink : FdSink} {es : List SinkEvent} : Schedule.run AnySink.step (.fd sink) es =
    (Schedule.run FdSink.step sink es).map .fd := by
  induction es generalizing sink with
  | nil => rfl
  | cons e es ih =>
      rw [Schedule.run, Schedule.run, AnySink.step, Option.bind_map]
      cases sink.step e with
      | none => rfl
      | some m => exact ih

theorem run_null (es : List SinkEvent) : Schedule.run AnySink.step .null es = some .null := by
  induction es with
  | nil => rfl
  | cons e es ih => exact ih

theorem AnySink.Fresh.run_bare {sink : AnySink} (fresh : sink.Fresh) (bare : sink.Bare)
    (es : List SinkEvent) : ∃ sink', Schedule.run AnySink.step sink es = some sink' := by
  cases sink with
  | null => exact ⟨.null, run_null es⟩
  | fd sink =>
      obtain ⟨capacity, buffer, colorStyle, useBuffer, constructed⟩ := fresh
      obtain ⟨sink', guarded_⟩ := bare.run (FdSink.ok_construct constructed).1 es
      exact ⟨.fd sink', by rw [run_fd, Schedule.run_of_guarded guarded_]; rfl⟩

theorem printed_eq {style : ColorStyle} {calls : List (LogCall program)} {events : List SinkEvent}
    (all : logged events = calls.map LogCall.entry) :
    events.flatMap (FdSink.record style) = printed style calls := by
  rw [FdSink.flatMap_record, all, List.flatMap_map]
  rfl

/-- Whatever the application and the worker do in whatever order, and whatever sinks the composite
has: when `stop` has returned, every call was accepted or is counted as dropped, and every
unbuffered sink has written the lines of the accepted calls, in order. So has a buffered one, if
every step was in time and every record had a place in its buffer or beyond it. -/
theorem lines_of_run (wide : 4 ≤ b) {pageSize : Nat} (pages : payloadAlign ≤ pageSize)
    {ring : Nat → UInt8} {capacity : BitVec (8 * b)} {mode : Mode} {q : SpscQueue (8 * b)}
    (init : (SpscQueue.fresh (8 * b)).init pageSize ring capacity mode = some q)
    {schedule : List (PipelineEvent program)} {s : Pipeline program}
    (run : Schedule.run Pipeline.step (Pipeline.start q) schedule = some s)
    (stopped : s.app = .stopped) (stopping : s.status = .stopping) {sinks : List AnySink}
    (fresh : ∀ sink ∈ sinks, sink.Fresh) :
    (∃ dropped, s.calls = s.accepted.length + dropped ∧
      s.queue.droppedCount = q.droppedCount + BitVec.ofNat (8 * b) dropped) ∧
    ((∀ sink ∈ sinks, sink.Bare) →
      ∃ sinks', Schedule.run CompositeSink.step sinks s.events = some sinks') ∧
    ∀ sinks', Schedule.run CompositeSink.step sinks s.events = some sinks' →
      ∀ (i : Nat) (sink : FdSink), sinks[i]? = some (.fd sink) →
        ∃ sink', sinks'[i]? = some (.fd sink') ∧
          (sink.Bare → sink'.written = printed sink.colorStyle s.accepted) ∧
          ((Schedule.run Pipeline.stepInTime (Pipeline.start q) schedule).isSome = true →
            (Schedule.run (Schedule.guarded FdSink.Placed FdSink.step) sink s.events).isSome
              = true →
            sink'.written = printed sink.colorStyle s.accepted) := by
  have prepared := Prepared.of_init wide pages init
  have delivered := (Schedule.run_invariant (fun step inv => Inv.step step inv) run
    (Inv.start prepared)).delivered stopped stopping
  refine ⟨?_, fun bare => ?_, fun sinks' wrote i sink here => ?_⟩
  · obtain ⟨dropped, calls, count⟩ := delivered.counted
    refine ⟨dropped, ?_, count⟩
    rw [calls, delivered.inOrder, List.length_map]
  · have each : ∀ sink ∈ sinks, ∃ sink', Schedule.run AnySink.step sink s.events = some sink' :=
      fun sink member => (fresh sink member).run_bare (bare sink member) s.events
    choose! after ran using each
    refine ⟨sinks.map after, Schedule.run_together.mpr ?_⟩
    rw [List.map_map]
    exact List.map_congr_left ran
  · have alone := congrArg (·[i]?) (Schedule.run_together.mp wrote)
    simp only [List.getElem?_map, here, Option.map_some, run_fd] at alone
    obtain ⟨capacity, buffer, colorStyle, useBuffer, constructed⟩ :=
      fresh (.fd sink) (List.mem_of_getElem? here)
    obtain ⟨ok, empty, -⟩ := FdSink.ok_construct constructed
    have nothing : sink.written = [] := (List.append_eq_nil_iff.mp empty).1
    obtain ⟨after, there, done⟩ := Option.map_eq_some_iff.mp alone.symm
    obtain ⟨sink', ran, rfl⟩ := Option.map_eq_some_iff.mp done.symm
    refine ⟨sink', there, fun bare => ?_, fun inTime kept => ?_⟩
    · rw [bare.run_written ok ran, nothing, List.nil_append, printed_eq delivered.inOrder]
    · obtain ⟨s', inTime⟩ := Option.isSome_iff_exists.mp inTime
      obtain rfl : s' = s := Option.some.inj ((Schedule.run_of_guarded inTime).symm.trans run)
      obtain ⟨sink'', kept⟩ := Option.isSome_iff_exists.mp kept
      obtain rfl : sink'' = sink' := Option.some.inj ((Schedule.run_of_guarded kept).symm.trans ran)
      obtain ⟨timely, concluded⟩ := concluded_of_run prepared inTime
      have ended : s'.app.Ending := by
        rw [stopped]
        trivial
      obtain ⟨barrier, listed, before⟩ := concluded (.inr ⟨ended, stopping⟩)
      have covered : Covered s'.accepted s'.events := by
        rw [← before]
        exact (timely.holds barrier listed).mono (timely.past barrier listed).1
      rcases flushedLast_of_covered covered delivered.inOrder with none_ | ⟨front, last⟩
      · have sent := ok.run_placed kept
        rw [empty, printed_eq delivered.inOrder, none_] at sent
        rw [none_]
        exact (List.append_eq_nil_iff.mp sent).1
      · rw [last] at kept
        have all : logged front = s'.accepted.map LogCall.entry := by
          rw [← delivered.inOrder, last, logged_append, logged_flush, List.append_nil]
        rw [ok.run_flushed kept, empty, List.nil_append, printed_eq all]

/-- A call, a flush of it, and a stop, with every step in time. -/
def stoppedInTime : List (PipelineEvent greeter) :=
  timelySchedule ++ [.app] ++ List.replicate 7 .worker ++ [.app]

/-- A sink without a buffer, a sink that takes nothing, and a buffered sink. -/
def threeSinks : List AnySink :=
  [.fd ⟨none, 0, 0, .off, false, []⟩, .null,
    .fd ⟨some (List.replicate 16 0), 16, 0, .off, true, []⟩]

theorem lines_of_run_stopped : ∃ s sinks' first last,
    Schedule.run Pipeline.stepInTime (Pipeline.start smallRing) stoppedInTime = some s ∧
      Schedule.run CompositeSink.step threeSinks s.events = some sinks' ∧
      sinks'[0]? = some (.fd first) ∧ sinks'[2]? = some (.fd last) ∧
      first.written = text " warn: hi\n" ∧ last.written = text " warn: hi\n" := by
  have init : (SpscQueue.fresh (8 * 4)).init 16 (fun _ => 0) 16 .drop = some smallRing := rfl
  have done : (Schedule.run Pipeline.stepInTime (Pipeline.start smallRing) stoppedInTime).map
      (fun s => (s.events, s.status, s.accepted.map LogCall.entry,
        (match s.app with | .stopped => true | _ => false : Bool))) =
        some ([.log ⟨3, [104, 105]⟩, .flush, .flush], .stopping, [⟨3, [104, 105]⟩], true) := by
    decide +kernel
  obtain ⟨s, inTime, eq⟩ := Option.map_eq_some_iff.mp done
  simp only [Prod.mk.injEq] at eq
  obtain ⟨events, status, accepted, stopped⟩ := eq
  have ended : s.app = .stopped := by
    split at stopped
    · assumption
    · cases stopped
  have fresh : ∀ sink ∈ threeSinks, sink.Fresh := by
    rintro sink (_ | ⟨_, _ | ⟨_, _ | ⟨_, ⟨⟩⟩⟩⟩)
    · exact ⟨0, none, .off, false, rfl⟩
    · trivial
    · exact ⟨16, some ⟨List.replicate 16 0, rfl⟩, .off, true, rfl⟩
  obtain ⟨-, -, wrote⟩ := lines_of_run (by decide) (by decide) init
    (Schedule.run_of_guarded inTime) ended status fresh
  rw [events] at wrote
  obtain ⟨first, there, bare, -⟩ := wrote _ rfl 0 _ rfl
  obtain ⟨last, there', -, buffered⟩ := wrote _ rfl 2 _ rfl
  have printed_ (style : ColorStyle) : printed style s.accepted =
      [⟨3, [104, 105]⟩].flatMap fun entry => FdSink.record style (.log entry) := by
    rw [← accepted, List.flatMap_map]
    rfl
  refine ⟨s, _, first, last, inTime, by rw [events]; rfl, there, there', ?_, ?_⟩
  · rw [bare ⟨rfl, rfl⟩, printed_]
    decide
  · rw [buffered (by rw [inTime]; rfl) (by decide), printed_]
    decide

end Fpag.Logging
