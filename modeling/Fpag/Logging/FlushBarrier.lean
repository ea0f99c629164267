import Fpag.Logging.Pipeline

/-!
`BackendWorker::flush` as a barrier.

`flush` asks for a flush of the sink and waits until the queue is empty. The worker takes a
record out of the queue before it hands it to the sink, and it clears the request wherever
in its loop it finds it, so an empty queue says neither that the last record is in the sink
nor that the sink was flushed after it. `inTime` is when a step does not fall into one of
these gaps; as long as every step of a run is in time, every flush that returns is a barrier.
-/

namespace Fpag.Logging

open Fpag.Container

variable {b : Nat} {program : Program b}

/-- The calls are in the sink, and the sink was flushed behind the last of them. -/
def Covered (calls : List (LogCall program)) (events : List SinkEvent) : Prop :=
  calls ≠ [] → ∃ before after, events = before ++ .flush :: after ∧
    calls.map LogCall.entry <+: logged before

/-- What a flush that returned promises. -/
def Barrier.Holds (barrier : Barrier program) : Prop := Covered barrier.before barrier.events

/-- The worker has found the request and has not cleared it yet. -/
def Worker.serving : Worker b → Bool
  | .sinkFlush _ _ => true
  | .clear _ _ => true
  | _ => false

/-- The worker has flushed the sink and has not cleared the request yet. -/
def Worker.served : Worker b → Bool
  | .clear _ _ => true
  | _ => false

namespace Pipeline

/-- How many calls the last flush that returned had to cover. -/
def covered (s : Pipeline program) : Nat :=
  match s.barriers with
  | [] => 0
  | barrier :: _ => barrier.before.length

/-- The steps that a flush can rely on. A request is made while the worker is not serving an
earlier one, or with nothing in the queue. The worker finds the request of a flush that waits
only once the queue is empty. And the wait ends only when the sink has been flushed for it, or
when nothing was accepted since the last flush that returned. -/
def inTime (e : PipelineEvent program) (s : Pipeline program) : Bool :=
  match e, s.app, s.worker with
  | .flush, _, worker => s.queue.empty || !worker.serving
  | .stop, _, worker => s.queue.empty || !worker.serving
  | .worker, .flushing _ _, .flag _ _ => !s.flushRequested || s.queue.empty
  | .app, .flushing _ before, worker =>
      !s.queue.empty || !s.flushRequested || worker.served || before.length == s.covered
  | _, _, _ => true

/-- The pipeline when every step is in time. -/
def stepInTime : PipelineEvent program → Pipeline program → Option (Pipeline program) :=
  Schedule.guarded (fun e s => s.inTime e = true) step

end Pipeline

theorem Covered.mono {calls : List (LogCall program)} {xs ys : List SinkEvent}
    (covered : Covered calls xs) (le : xs <+: ys) : Covered calls ys := by
  intro some_
  obtain ⟨before, after, rfl, inSink⟩ := covered some_
  obtain ⟨more, rfl⟩ := le
  exact ⟨before, after ++ more, by simp, inSink⟩

/-- A flush behind everything that was accepted covers it. -/
theorem Covered.of_flush {calls : List (LogCall program)} {events : List SinkEvent}
    (all : logged events = calls.map LogCall.entry) : Covered calls (events ++ [.flush]) :=
  fun _ => ⟨events, [], rfl, all ▸ List.prefix_rfl⟩

/-! ## What a step does to a flush that waits -/

variable {s s' : Pipeline program}

/-- What a step of the worker is to the flushes. -/
inductive Moves (s : Pipeline program) : Pipeline program → Prop
  | quiet {s' : Pipeline program} (app : s'.app = s.app) (accepted : s'.accepted = s.accepted)
      (barriers : s'.barriers = s.barriers) (requested : s'.flushRequested = s.flushRequested)
      (events : s.events <+: s'.events) (before : s.worker.serving = false)
      (after : s'.worker.serving = false) : Moves s s'
  | finds {status : InternalStatus} {processed : Bool} (here : s.worker = .flag status processed)
      (requested : s.flushRequested = true) :
      Moves s { s with worker := .sinkFlush status processed }
  | flushes {status : InternalStatus} {processed : Bool}
      (here : s.worker = .sinkFlush status processed) :
      Moves s { s with events := s.events ++ [.flush], worker := .clear status processed }
  | clears {status : InternalStatus} {processed : Bool}
      (here : s.worker = .clear status processed) :
      Moves s { s with flushRequested := false, worker := .exitTest status processed }

theorem Moves.turn {events : List SinkEvent} {status : InternalStatus}
    {currentHead targetHead : BitVec (8 * b)} (le : s.events <+: events)
    (before : s.worker.serving = false) :
    Moves s (Pipeline.turn { s with events := events } status currentHead targetHead) := by
  unfold Pipeline.turn
  split <;> exact .quiet rfl rfl rfl rfl le before rfl

theorem Moves.of_step (step : s.advanceWorker = some s') : Moves s s' := by
  unfold Pipeline.advanceWorker at step
  split at step
  · next here =>
      split at step <;> cases step <;>
        exact .quiet rfl rfl rfl rfl List.prefix_rfl (by rw [here]; rfl) rfl
  · next status here =>
      dsimp only at step
      split at step
      · cases step
        exact .quiet rfl rfl rfl rfl List.prefix_rfl (by rw [here]; rfl) rfl
      · cases step
        exact .turn List.prefix_rfl (by rw [here]; rfl)
  · next status currentHead targetHead here =>
      dsimp only at step
      split at step <;> cases step
      exact .quiet rfl rfl rfl rfl List.prefix_rfl (by rw [here]; rfl) rfl
  · next status currentHead targetHead dataPtr header here =>
      split at step
      · cases step
      · dsimp only at step
        split at step <;> cases step
        exact .quiet rfl rfl rfl rfl List.prefix_rfl (by rw [here]; rfl) rfl
  · next status currentHead targetHead payloadSize entry here =>
      cases step
      exact .quiet rfl rfl rfl rfl List.prefix_rfl (by rw [here]; rfl) rfl
  · next status currentHead targetHead entry here =>
      cases step
      exact .turn (List.prefix_append _ _) (by rw [here]; rfl)
  · next status processed here =>
      split at step <;> cases step
      · next requested => exact .finds here requested
      · exact .quiet rfl rfl rfl rfl List.prefix_rfl (by rw [here]; rfl) rfl
  · next status processed here =>
      cases step
      exact .flushes here
  · next status processed here =>
      cases step
      exact .clears here
  · next status processed here =>
      split at step <;> cases step <;>
        exact .quiet rfl rfl rfl rfl List.prefix_rfl (by rw [here]; rfl) rfl
  · cases step

/-! ## The invariant -/

/-- How far the request of a flush that waits has come: the worker has not found it, or it found
it with everything in the sink, or the sink was flushed for it. -/
def Awaits (s : Pipeline program) : Prop :=
  (s.flushRequested = true ∧ s.worker.serving = false) ∨
    (s.worker.served = false ∧ s.flushRequested = true ∧
      logged s.events = s.accepted.map LogCall.entry) ∨
    Covered s.accepted s.events

/-- What holds between the steps when every step is in time. -/
structure Timely (base : BitVec (8 * b)) (s : Pipeline program) : Prop where
  flows : Inv base s
  holds : ∀ barrier ∈ s.barriers, barrier.Holds
  past : ∀ barrier ∈ s.barriers, barrier.events <+: s.events ∧ barrier.before <+: s.accepted
  requested : s.worker.serving = true → s.flushRequested = true
  flushed : s.worker.served = true → ∃ events, s.events = events ++ [.flush]
  waits : ∀ next before, s.app = .flushing next before → before = s.accepted ∧ Awaits s

variable {base : BitVec (8 * b)}

theorem Inv.idle_of_app (inv : Inv base s) (quiet : ∀ call, s.app ≠ .logging call) :
    s.producer = .idle := by
  obtain ⟨head, tail, cache, letters, opened, done, flows⟩ := inv
  have app := flows.app
  cases happ : s.app with
  | logging call => exact (quiet call happ).elim
  | _ =>
      rw [happ] at app
      exact app

theorem Worker.inHand_of_serving {worker : Worker b} (serving : worker.serving = true) :
    worker.inHand = [] := by
  cases worker <;> first | rfl | cases serving

theorem Worker.serving_of_served {worker : Worker b} (served : worker.served = true) :
    worker.serving = true := by
  cases worker <;> first | rfl | cases served

namespace Timely

/-- A step of the worker. -/
theorem worker (timely : Timely base s) (inTime : s.inTime .worker = true)
    (step : s.advanceWorker = some s') : Timely base s' := by
  have flows : Inv base s' := timely.flows.step (e := .worker) step
  cases Moves.of_step step with
  | quiet app accepted barriers requested events before after =>
      refine ⟨flows, barriers ▸ timely.holds, ?_, ?_, ?_, ?_⟩
      · intro barrier hb
        obtain ⟨seen, known⟩ := timely.past barrier (barriers ▸ hb)
        exact ⟨seen.trans events, accepted ▸ known⟩
      · rw [after]
        rintro ⟨⟩
      · intro served
        rw [Worker.serving_of_served served] at after
        cases after
      · intro next list flushing
        obtain ⟨rfl, awaits⟩ := timely.waits next list (app ▸ flushing)
        refine ⟨accepted.symm, ?_⟩
        rcases awaits with ⟨waiting, -⟩ | ⟨-, waiting, -⟩ | covered
        · exact Or.inl ⟨requested ▸ waiting, after⟩
        · exact Or.inl ⟨requested ▸ waiting, after⟩
        · rw [← accepted] at covered
          exact Or.inr (Or.inr (covered.mono events))
  | @finds status processed here requested =>
      refine ⟨flows, timely.holds, timely.past, fun _ => requested, by rintro ⟨⟩, ?_⟩
      intro next list flushing
      refine ⟨(timely.waits next list flushing).1, Or.inr (Or.inl ⟨rfl, requested, ?_⟩)⟩
      -- The worker found the request only once the queue was empty.
      have flushing' : s.app = .flushing next list := flushing
      have empty : s.queue.empty = true := by
        simpa [Pipeline.inTime, flushing', here, requested] using inTime
      exact timely.flows.logged_all (timely.flows.idle_of_app (by simp [flushing']))
        (by rw [here]; rfl) (Or.inl empty)
  | @flushes status processed here =>
      have serving : s.worker.serving = true := by
        rw [here]
        rfl
      refine ⟨flows, timely.holds, ?_, fun _ => timely.requested serving,
        fun _ => ⟨s.events, rfl⟩, ?_⟩
      · intro barrier hb
        obtain ⟨seen, known⟩ := timely.past barrier hb
        exact ⟨seen.trans (List.prefix_append _ _), known⟩
      · intro next list flushing
        obtain ⟨rfl, awaits⟩ := timely.waits next list flushing
        refine ⟨rfl, Or.inr (Or.inr ?_)⟩
        rcases awaits with ⟨-, idle⟩ | ⟨-, -, all⟩ | covered
        · rw [serving] at idle
          cases idle
        · exact .of_flush all
        · exact covered.mono (List.prefix_append _ _)
  | @clears status processed here =>
      have served : s.worker.served = true := by
        rw [here]
        rfl
      refine ⟨flows, timely.holds, timely.past, by rintro ⟨⟩, by rintro ⟨⟩, ?_⟩
      intro next list flushing
      obtain ⟨rfl, awaits⟩ := timely.waits next list flushing
      refine ⟨rfl, Or.inr (Or.inr ?_)⟩
      rcases awaits with ⟨-, idle⟩ | ⟨not, -⟩ | covered
      · rw [Worker.serving_of_served served] at idle
        cases idle
      · rw [served] at not
        cases not
      · exact covered

/-- A flush that is called. -/
theorem call (timely : Timely base s) (idle : s.app = .idle)
    (inTime : (s.queue.empty || !s.worker.serving) = true) {next : AfterFlush}
    (flows : Inv base (s.flush next)) : Timely base (s.flush next) := by
  refine ⟨flows, timely.holds, timely.past, fun _ => rfl, timely.flushed, ?_⟩
  rintro next' list ⟨⟩
  refine ⟨rfl, ?_⟩
  cases serving : s.worker.serving with
  | false => exact Or.inl ⟨rfl, serving⟩
  | true =>
      -- The worker serves an earlier request, but with all that this one is about in the sink.
      have empty : s.queue.empty = true := by simpa [serving] using inTime
      have all := timely.flows.logged_all (timely.flows.idle_of_app (by simp [idle]))
        (Worker.inHand_of_serving serving) (Or.inl empty)
      cases served : s.worker.served with
      | false => exact Or.inr (Or.inl ⟨served, rfl, all⟩)
      | true =>
          obtain ⟨events, hevents⟩ := timely.flushed served
          rw [hevents] at all
          refine Or.inr (Or.inr ?_)
          change Covered s.accepted s.events
          rw [hevents]
          exact .of_flush (by simpa using all)

/-- What an earlier flush covered is covered. -/
theorem covered_of_length (timely : Timely base s) (same : s.accepted.length = s.covered) :
    Covered s.accepted s.events := by
  unfold Pipeline.covered at same
  split at same
  · intro some_
    exact (some_ (List.length_eq_zero_iff.mp same)).elim
  · next barrier rest hbarriers =>
      have earlier : barrier ∈ s.barriers := by simp [hbarriers]
      obtain ⟨seen, known⟩ := timely.past barrier earlier
      have holds := timely.holds barrier earlier
      rw [Barrier.Holds, known.eq_of_length same.symm] at holds
      exact holds.mono seen

/-- The flush that returns is a barrier. -/
theorem covered_of_return (timely : Timely base s) {next : AfterFlush}
    {before : List (LogCall program)} (flushing : s.app = .flushing next before)
    (empty : s.queue.empty = true) (inTime : s.inTime .app = true) : Covered before s.events := by
  obtain ⟨rfl, awaits⟩ := timely.waits next before flushing
  simp only [Pipeline.inTime, flushing, empty, Bool.not_true, Bool.false_or, Bool.or_eq_true,
    Bool.not_eq_true', beq_iff_eq] at inTime
  rcases inTime with (cleared | served) | same
  · rcases awaits with ⟨waiting, -⟩ | ⟨-, waiting, -⟩ | covered
    · rw [cleared] at waiting
      cases waiting
    · rw [cleared] at waiting
      cases waiting
    · exact covered
  · rcases awaits with ⟨-, idle⟩ | ⟨not, -⟩ | covered
    · rw [Worker.serving_of_served served] at idle
      cases idle
    · rw [served] at not
      cases not
    · exact covered
  · exact timely.covered_of_length same

/-- A step inside a log call. -/
theorem produce (timely : Timely base s) {call : LogCall program} {calls : Nat}
    {result : SpscQueue (8 * b) × Producer (8 * b) × Progress}
    (flows : Inv base (Pipeline.after { s with calls := calls } call result)) :
    Timely base (Pipeline.after { s with calls := calls } call result) := by
  obtain ⟨q, p, progress⟩ := result
  cases progress with
  | accepted =>
      refine ⟨flows, timely.holds, ?_, timely.requested, timely.flushed, by rintro _ _ ⟨⟩⟩
      intro barrier hb
      obtain ⟨seen, known⟩ := timely.past barrier hb
      exact ⟨seen, known.trans (List.prefix_append _ _)⟩
  | _ => exact ⟨flows, timely.holds, timely.past, timely.requested, timely.flushed,
      by rintro _ _ ⟨⟩⟩

/-- A step of the application inside a call. -/
theorem app (timely : Timely base s) (inTime : s.inTime .app = true)
    (step : s.advanceApp = some s') : Timely base s' := by
  have flows : Inv base s' := timely.flows.step (e := .app) step
  unfold Pipeline.advanceApp at step
  split at step
  · obtain ⟨result, -, rfl⟩ := Option.map_eq_some_iff.mp step
    exact timely.produce flows
  · next next before flushing =>
      split at step
      · next empty =>
          cases step
          have covered := timely.covered_of_return flushing empty inTime
          obtain ⟨known, -⟩ := timely.waits next before flushing
          refine ⟨flows, ?_, ?_, timely.requested, timely.flushed, ?_⟩
          · rintro barrier (_ | ⟨_, earlier⟩)
            · exact covered
            · exact timely.holds barrier earlier
          · rintro barrier (_ | ⟨_, earlier⟩)
            · exact ⟨List.prefix_rfl, known ▸ List.prefix_rfl⟩
            · exact timely.past barrier earlier
          · intro next' list again
            cases next <;> cases again
      · cases step
        exact timely
  · cases step
    exact ⟨flows, timely.holds, timely.past, timely.requested, timely.flushed, by rintro _ _ ⟨⟩⟩
  · split at step <;> cases step
    exact ⟨flows, timely.holds, timely.past, timely.requested, timely.flushed, by rintro _ _ ⟨⟩⟩
  · cases step

theorem step {e : PipelineEvent program} (taken : Pipeline.stepInTime e s = some s')
    (timely : Timely base s) : Timely base s' := by
  obtain ⟨inTime, step⟩ := Schedule.guarded_eq_some.mp taken
  have flows : Inv base s' := timely.flows.step step
  unfold Pipeline.step at step
  split at step
  · next call idle =>
      unfold Pipeline.log at step
      split at step <;> cases step
      exact timely.produce flows
  · next idle =>
      cases step
      exact timely.call idle inTime flows
  · next idle =>
      cases step
      exact timely.call idle inTime flows
  · cases step
    exact ⟨flows, timely.holds, timely.past, timely.requested, timely.flushed, by rintro _ _ ⟨⟩⟩
  · exact timely.app inTime step
  · exact timely.worker inTime step
  · cases step

end Timely

/-- As long as every step is in time, every flush that returned is a barrier: the calls that were
accepted before it are in the sink, and the sink was flushed behind the last of them. -/
theorem barrier_of_run (wide : 4 ≤ b) {pageSize : Nat} (pages : payloadAlign ≤ pageSize)
    {ring : Nat → UInt8} {capacity : BitVec (8 * b)} {mode : Mode} {q : SpscQueue (8 * b)}
    (init : (SpscQueue.fresh (8 * b)).init pageSize ring capacity mode = some q)
    {schedule : List (PipelineEvent program)}
    (run : Schedule.run Pipeline.stepInTime (Pipeline.start q) schedule = some s) :
    ∀ barrier ∈ s.barriers, barrier.Holds := by
  have start : Timely q.droppedCount (Pipeline.start q : Pipeline program) :=
    ⟨Inv.start (Prepared.of_init wide pages init), by rintro _ ⟨⟩, by rintro _ ⟨⟩, by rintro ⟨⟩,
      by rintro ⟨⟩, by rintro _ _ ⟨⟩⟩
  exact (Schedule.run_invariant (fun step timely => Timely.step step timely) run start).holds

/-- A call, a flush of it that waits until the worker has served it, and a stop. -/
def timelySchedule : List (PipelineEvent greeter) :=
  [.log greeting] ++ List.replicate 17 .app ++ List.replicate 6 .worker ++ [.flush, .worker] ++
    [.worker, .app, .worker, .stop, .app]

theorem barrier_of_run_timely :
    ∃ s, Schedule.run Pipeline.stepInTime (Pipeline.start smallRing) timelySchedule = some s ∧
      s.barriers.map Barrier.events
        = [[.log ⟨3, [104, 105]⟩, .flush], [.log ⟨3, [104, 105]⟩, .flush]] ∧
      ∀ barrier ∈ s.barriers, barrier.Holds := by
  have init : (SpscQueue.fresh (8 * 4)).init 16 (fun _ => 0) 16 .drop = some smallRing := rfl
  have done : (Schedule.run Pipeline.stepInTime (Pipeline.start smallRing) timelySchedule).map
      (fun s => s.barriers.map Barrier.events)
        = some [[.log ⟨3, [104, 105]⟩, .flush], [.log ⟨3, [104, 105]⟩, .flush]] := by
    decide +kernel
  obtain ⟨s, run, events⟩ := Option.map_eq_some_iff.mp done
  exact ⟨s, run, events, barrier_of_run (by decide) (by decide) init run⟩

/-- The worker has taken the record out of the queue when the flush looks at it. -/
def earlySchedule : List (PipelineEvent greeter) :=
  [.log greeting] ++ List.replicate 17 .app ++ [.flush] ++ List.replicate 5 .worker ++ [.app]

/-- A flush can return before the record it is for has reached the sink. -/
theorem not_barrier_early :
    ∃ s, Schedule.run Pipeline.step (Pipeline.start smallRing) earlySchedule = some s ∧
      ∃ barrier ∈ s.barriers, ¬ barrier.Holds := by
  have done : (Schedule.run Pipeline.step (Pipeline.start smallRing) earlySchedule).map
      (fun s => s.barriers.map fun barrier => (barrier.before.length, barrier.events))
        = some [(1, [])] := by
    decide +kernel
  obtain ⟨s, run, barriers⟩ := Option.map_eq_some_iff.mp done
  refine ⟨s, run, ?_⟩
  cases hs : s.barriers with
  | nil =>
      rw [hs] at barriers
      cases barriers
  | cons barrier rest =>
      rw [hs] at barriers
      simp only [List.map_cons, List.cons.injEq, Prod.mk.injEq] at barriers
      obtain ⟨⟨one, none_⟩, -⟩ := barriers
      refine ⟨barrier, by simp, fun holds => ?_⟩
      obtain ⟨before, after, events, -⟩ := holds (by
        intro nothing
        rw [nothing] at one
        cases one)
      rw [none_] at events
      cases before <;> cases events

end Fpag.Logging
