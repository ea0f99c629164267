import Fpag.Debug.TimeTrace
import Fpag.Lib.Schedule
import Fpag.Lib.Spans

/-!
`debug::Profiler` with the `ProfileScope`s of any number of threads.

The threads interleave at every load and store of `enabled_`, every reading of the clock and every
turn at the mutex. A scope may be stopped by hand before its destructor runs; `legal` asks that the
ones that opened inside it have stopped by then, and that the clock is not set back.
`nested_of_run` says that the events of a thread are nested like its scopes, and `recorded_of_run`
that every scope is recorded once while the profiler stays on.

The ids of the names are what the interner gave when the scope was constructed. A thread id that the
system gives to a later thread stands for both, whose scopes do not overlap.
-/

namespace Fpag.Debug

open Fpag.Str

/-- `ProfileSection` in a `ProfileScope`, with a profiler. -/
structure ProfileSection : Type where
  name : StringPoolId
  category : StringPoolId
  location : Location
  startTimeNs : BitVec 64 := 0
  isRunning : Bool := false

/-- Where a thread is in a call. A scope is named by how many opened inside it; `gone` says that its
destructor is running. -/
inductive Doing : Type
  | idle
  | opening
  | stamping
  | ending (scope : Nat) (gone : Bool)
  | checking (scope : Nat) (gone : Bool) (endTimeNs : BitVec 64)
  | pushing (scope : Nat) (gone : Bool) (endTimeNs : BitVec 64)
  | starting

/-- A thread, with its scopes from the innermost outwards. -/
structure ProfiledThread : Type where
  scopes : List ProfileSection := []
  doing : Doing := .idle

/-- `Profiler`, and the process around it. -/
structure Profiler : Type where
  enabled : Bool
  events : List ProfileEvent
  clock : BitVec 64
  processId : BitVec 32
  threads : BitVec 64 → ProfiledThread

inductive ProfilerEvent : Type
  | open_ (thread : BitVec 64) (name category : StringPoolId) (location : Location)
  | stop (thread : BitVec 64) (scope : Nat)
  | close (thread : BitVec 64)
  | startProfiler (thread : BitVec 64)
  | stopProfiler
  | clear
  | advance (thread : BitVec 64)
  | clock (now : BitVec 64)

namespace ProfiledThread

/-- `is_running_ = false`, and the end of a scope whose destructor this was. -/
def finish (thread : ProfiledThread) (scope : Nat) (gone : Bool) : ProfiledThread :=
  let scopes := thread.scopes.modify scope fun section_ => { section_ with isRunning := false }
  { scopes := if gone then scopes.drop 1 else scopes, doing := .idle }

/-- `ProfileSection::stop` up to its reading of the clock. -/
def stop (thread : ProfiledThread) (scope : Nat) (gone : Bool) : Option ProfiledThread :=
  match thread.doing, thread.scopes[scope]? with
  | .idle, some section_ =>
      if section_.isRunning then some { thread with doing := .ending scope gone }
      else some (thread.finish scope gone)
  | _, _ => none

end ProfiledThread

namespace Profiler

def set (s : Profiler) (t : BitVec 64) (thread : ProfiledThread) : Profiler :=
  { s with threads := Function.update s.threads t thread }

/-- The event of a section that stops. -/
def event (s : Profiler) (t : BitVec 64) (section_ : ProfileSection) (endTimeNs : BitVec 64) :
    ProfileEvent where
  name := section_.name
  category := section_.category
  location := section_.location
  startTimeNs := section_.startTimeNs
  durationNs := endTimeNs - section_.startTimeNs
  threadId := t
  processId := s.processId

/-- The next step of a thread in the call that it is in. -/
def advance (s : Profiler) (t : BitVec 64) : Option Profiler :=
  let thread := s.threads t
  match thread.doing with
  | .idle => none
  -- `ProfileSection::start`.
  | .opening =>
      some (s.set t { thread with doing := if s.enabled then .stamping else .idle })
  | .stamping =>
      some (s.set t
        { scopes := thread.scopes.modifyHead fun section_ =>
            { section_ with startTimeNs := s.clock, isRunning := true }
          doing := .idle })
  -- `ProfileSection::stop`, and `Profiler::record_event` in it.
  | .ending scope gone => some (s.set t { thread with doing := .checking scope gone s.clock })
  | .checking scope gone endTimeNs =>
      if s.enabled then some (s.set t { thread with doing := .pushing scope gone endTimeNs })
      else some (s.set t (thread.finish scope gone))
  | .pushing scope gone endTimeNs =>
      thread.scopes[scope]?.map fun section_ =>
        { s.set t (thread.finish scope gone) with
          events := s.events ++ [s.event t section_ endTimeNs] }
  -- `Profiler::start` behind its lock.
  | .starting => some { s.set t { thread with doing := .idle } with enabled := true }

def step (e : ProfilerEvent) (s : Profiler) : Option Profiler :=
  match e with
  | .open_ t name category location =>
      match (s.threads t).doing with
      | .idle =>
          some (s.set t
            { scopes := { name := name, category := category, location := location } ::
                (s.threads t).scopes
              doing := .opening })
      | _ => none
  | .stop t scope => ((s.threads t).stop scope false).map (s.set t)
  | .close t => ((s.threads t).stop 0 true).map (s.set t)
  | .startProfiler t =>
      match (s.threads t).doing with
      | .idle => some { s.set t { s.threads t with doing := .starting } with events := [] }
      | _ => none
  | .stopProfiler => some { s with enabled := false }
  | .clear => some { s with events := [] }
  | .advance t => s.advance t
  | .clock now => some { s with clock := now }

/-- The scopes that opened inside one that is stopped have stopped, and the clock goes on. -/
def legal (e : ProfilerEvent) (s : Profiler) : Prop :=
  match e with
  | .stop t scope => ((s.threads t).scopes.take scope).all fun section_ => !section_.isRunning
  | .clock now => s.clock ≤ now
  | _ => True

instance (e : ProfilerEvent) (s : Profiler) : Decidable (legal e s) :=
  match e with
  | .stop _ _ => inferInstanceAs (Decidable (_ = true))
  | .clock _ => inferInstanceAs (Decidable (_ ≤ _))
  | .open_ .. | .close _ | .startProfiler _ | .stopProfiler | .clear | .advance _ => .isTrue trivial

/-- A profiler before any scope has opened. -/
def initial (processId : BitVec 32) (clock : BitVec 64) : Profiler where
  enabled := false
  events := []
  clock := clock
  processId := processId
  threads _ := {}

end Profiler

/-! ## Threads -/

/-- What an event measured. -/
def ProfileEvent.span (e : ProfileEvent) : Span :=
  ⟨e.startTimeNs.toNat, e.startTimeNs.toNat + e.durationNs.toNat⟩

/-- The scopes that run. -/
def running (scopes : List ProfileSection) : List ProfileSection := scopes.filter (·.isRunning)

theorem running_append (inner outer : List ProfileSection) :
    running (inner ++ outer) = running inner ++ running outer := List.filter_append ..

namespace ProfiledThread

/-- The scopes that a thread has still to end. -/
def open_ (thread : ProfiledThread) : List ProfileSection :=
  match thread.doing with
  | .checking scope _ _ => running (thread.scopes.drop (scope + 1))
  | .pushing scope _ _ => running (thread.scopes.drop (scope + 1))
  | _ => running thread.scopes

/-- The span that has ended and is not recorded yet. -/
def ended (thread : ProfiledThread) : List Span :=
  match thread.doing with
  | .checking scope _ endTimeNs =>
      thread.scopes[scope]?.toList.map fun section_ =>
        ⟨section_.startTimeNs.toNat, endTimeNs.toNat⟩
  | .pushing scope _ endTimeNs =>
      thread.scopes[scope]?.toList.map fun section_ =>
        ⟨section_.startTimeNs.toNat, endTimeNs.toNat⟩
  | _ => []

/-- The scope that is ended, between those inside and those outside; a destructor is the one of the
innermost. -/
structure Ends (scopes : List ProfileSection) (scope : Nat) (gone : Bool)
    (inner : List ProfileSection) (section_ : ProfileSection) (outer : List ProfileSection) :
    Prop where
  scopes : scopes = inner ++ section_ :: outer
  innermost : gone = true → inner = []
  depth : inner.length = scope

/-- The scope that a call is about is there. -/
def Tidy (thread : ProfiledThread) : Prop :=
  match thread.doing with
  | .opening => ∃ section_ outer, thread.scopes = section_ :: outer ∧ section_.isRunning = false
  | .stamping => ∃ section_ outer, thread.scopes = section_ :: outer ∧ section_.isRunning = false
  | .ending scope gone =>
      ∃ inner section_ outer, Ends thread.scopes scope gone inner section_ outer ∧
        section_.isRunning = true
  | .checking scope gone _ =>
      ∃ inner section_ outer, Ends thread.scopes scope gone inner section_ outer ∧
        section_.isRunning = true
  | .pushing scope gone _ =>
      ∃ inner section_ outer, Ends thread.scopes scope gone inner section_ outer ∧
        section_.isRunning = true
  | _ => True

/-- No scope runs that opened inside the one that ends. -/
def Quiet (thread : ProfiledThread) : Prop :=
  match thread.doing with
  | .ending scope _ => running (thread.scopes.take scope) = []
  | .checking scope _ _ => running (thread.scopes.take scope) = []
  | .pushing scope _ _ => running (thread.scopes.take scope) = []
  | _ => True

theorem modify_append {α : Type} (inner : List α) (a : α) (outer : List α) (f : α → α) :
    (inner ++ a :: outer).modify inner.length f = inner ++ f a :: outer := by
  induction inner with
  | nil => rfl
  | cons b rest ih => exact congrArg (b :: ·) ih

namespace Ends

variable {thread : ProfiledThread} {scope : Nat} {gone : Bool} {inner outer : List ProfileSection}
  {section_ : ProfileSection}

theorem of_getElem? (here : thread.scopes[scope]? = some section_)
    (innermost : gone = true → scope = 0) :
    Ends thread.scopes scope gone (thread.scopes.take scope) section_
      (thread.scopes.drop (scope + 1)) := by
  obtain ⟨inside, rfl⟩ := List.getElem?_eq_some_iff.mp here
  refine ⟨?_, fun last => ?_, ?_⟩
  · rw [List.cons_getElem_drop_succ, List.take_append_drop]
  · rw [innermost last, List.take_zero]
  · rw [List.length_take, Nat.min_eq_left (Nat.le_of_lt inside)]

theorem getElem? (ends : Ends thread.scopes scope gone inner section_ outer) :
    thread.scopes[scope]? = some section_ := by
  rw [ends.scopes, ← ends.depth, List.getElem?_append_right (Nat.le_refl _), Nat.sub_self]
  rfl

theorem take (ends : Ends thread.scopes scope gone inner section_ outer) :
    thread.scopes.take scope = inner := by
  rw [ends.scopes, ← ends.depth, List.take_left]

theorem drop (ends : Ends thread.scopes scope gone inner section_ outer) :
    thread.scopes.drop (scope + 1) = outer := by
  rw [ends.scopes, ← ends.depth, ← List.drop_drop, List.drop_left]
  rfl

/-- Once the scope has ended, the others run as before. -/
theorem running_finish (ends : Ends thread.scopes scope gone inner section_ outer) :
    running (thread.finish scope gone).scopes = running inner ++ running outer := by
  have modified :
      thread.scopes.modify scope (fun section_ => { section_ with isRunning := false }) =
      inner ++ { section_ with isRunning := false } :: outer := by
    rw [ends.scopes, ← ends.depth]
    exact modify_append ..
  rw [finish]
  dsimp only
  rw [modified]
  cases gone with
  | false =>
      rw [if_neg (by decide), running_append]
      rfl
  | true =>
      rw [if_pos rfl, ends.innermost rfl]
      rfl

theorem running_scopes (ends : Ends thread.scopes scope gone inner section_ outer) :
    running thread.scopes = running inner ++ (running [section_] ++ running outer) := by
  rw [ends.scopes, running_append, ← running_append [section_] outer]
  rfl

end Ends

end ProfiledThread

/-! ## One step -/

section Steps

variable {thread : ProfiledThread} {recorded : List Span} {now : Nat} {s s' : Profiler}
  {t : BitVec 64} {e : ProfilerEvent}

def starts (scopes : List ProfileSection) : List Nat :=
  scopes.map fun section_ => section_.startTimeNs.toNat

/-- What holds of a thread between the steps, with the spans of it that were recorded. -/
structure ProfiledThread.Ok (thread : ProfiledThread) (recorded : List Span) (now : Nat) :
    Prop where
  tidy : thread.Tidy
  quiet : thread.Quiet
  nest : Span.Nest (starts thread.open_) (recorded ++ thread.ended) now

/-- The spans that were recorded of a thread. -/
def spans (t : BitVec 64) (events : List ProfileEvent) : List Span :=
  (events.filter fun e => e.threadId = t).map ProfileEvent.span

theorem spans_append (t : BitVec 64) (events more : List ProfileEvent) :
    spans t (events ++ more) = spans t events ++ spans t more := by
  rw [spans, List.filter_append, List.map_append]
  rfl

theorem spans_other {u : BitVec 64} {events : List ProfileEvent} {e : ProfileEvent}
    (other : e.threadId ≠ u) : spans u (events ++ [e]) = spans u events := by
  have none_ : spans u [e] = [] := by
    rw [spans, List.filter_cons, if_neg (by simpa using other)]
    rfl
  rw [spans_append, none_, List.append_nil]

/-- What holds of every thread between the steps. -/
def Profiler.Nested (s : Profiler) : Prop :=
  ∀ t, (s.threads t).Ok (spans t s.events) s.clock.toNat

namespace ProfiledThread.Ok

theorem sublist (ok : thread.Ok recorded now) {recorded' : List Span}
    (fewer : recorded'.Sublist recorded) : thread.Ok recorded' now :=
  ⟨ok.tidy, ok.quiet, ok.nest.sublist (.refl _) (fewer.append (.refl _))⟩

theorem later (ok : thread.Ok recorded now) {now' : Nat} (le : now ≤ now') :
    thread.Ok recorded now' :=
  ⟨ok.tidy, ok.quiet, ok.nest.later le⟩

/-- A thread outside a call. -/
theorem idle {scopes : List ProfileSection}
    (nest : Span.Nest (starts (running scopes)) recorded now) :
    Ok { scopes := scopes, doing := .idle } recorded now :=
  ⟨trivial, trivial, by rwa [ended, List.append_nil]⟩

/-- The scope that was ended is out of the way, whatever became of its event. -/
theorem finish {scope : Nat} {gone : Bool} {inner outer : List ProfileSection}
    {section_ : ProfileSection} (ends : Ends thread.scopes scope gone inner section_ outer)
    (quiet : running inner = []) (nest : Span.Nest (starts (running outer)) recorded now) :
    (thread.finish scope gone).Ok recorded now := by
  apply idle
  have same := ends.running_finish
  rw [quiet, List.nil_append] at same
  rw [← same] at nest
  exact nest

/-- `ProfileSection::stop` is called. -/
theorem stop {scope : Nat} {gone : Bool} {thread' : ProfiledThread} (ok : thread.Ok recorded now)
    (quiet : running (thread.scopes.take scope) = []) (innermost : gone = true → scope = 0)
    (stopped : thread.stop scope gone = some thread') : thread'.Ok recorded now := by
  unfold ProfiledThread.stop at stopped
  split at stopped
  · next section_ idle_ here =>
      have ends := Ends.of_getElem? here innermost
      have nest := ok.nest
      rw [ended, idle_, List.append_nil, ProfiledThread.open_, idle_] at nest
      split at stopped <;> cases stopped
      · next runs =>
          refine ⟨⟨_, _, _, ends, runs⟩, quiet, ?_⟩
          rwa [ended, List.append_nil, ProfiledThread.open_]
      · next still =>
          apply finish ends quiet
          rw [ends.running_scopes, quiet, List.nil_append] at nest
          have none_ : running [section_] = [] := List.filter_cons_of_neg still
          rwa [none_, List.nil_append] at nest
  · cases stopped

end ProfiledThread.Ok

namespace Profiler.Nested

/-- A step of one thread. The others see nothing of it but that events may be gone. -/
theorem of_set (nested : s.Nested) {thread' : ProfiledThread} {s' : Profiler}
    (threads : s'.threads = Function.update s.threads t thread') (clock : s'.clock = s.clock)
    (others : ∀ u, u ≠ t → (spans u s'.events).Sublist (spans u s.events))
    (ok : thread'.Ok (spans t s'.events) s.clock.toNat) : s'.Nested := by
  intro u
  rw [threads, clock]
  by_cases here : u = t
  · subst here
    rw [Function.update_self]
    exact ok
  · rw [Function.update_of_ne here]
    exact (nested u).sublist (others u here)

/-- A step of one thread that leaves the events. -/
theorem set (nested : s.Nested) {thread' : ProfiledThread}
    (ok : thread'.Ok (spans t s.events) s.clock.toNat) : (s.set t thread').Nested :=
  nested.of_set rfl rfl (fun _ _ => .refl _) ok

theorem advance (nested : s.Nested) (step : s.advance t = some s') : s'.Nested := by
  have ok := nested t
  obtain ⟨tidy, quiet, nest⟩ := nested t
  unfold Profiler.advance at step
  dsimp only at step
  split at step
  · cases step
  · next doing =>
      cases step
      rw [ProfiledThread.ended, ProfiledThread.open_, doing] at nest
      rw [ProfiledThread.Tidy, doing] at tidy
      apply nested.set
      split
      · exact ⟨tidy, trivial, nest⟩
      · exact ⟨trivial, trivial, nest⟩
  · next doing =>
      cases step
      rw [ProfiledThread.ended, ProfiledThread.open_, doing, List.append_nil] at nest
      rw [ProfiledThread.Tidy, doing] at tidy
      obtain ⟨section_, outer, scopes, still⟩ := tidy
      apply nested.set
      apply ProfiledThread.Ok.idle
      rw [scopes] at nest ⊢
      have outer_ : running (section_ :: outer) = running outer :=
        List.filter_cons_of_neg (by simp [still])
      rw [outer_] at nest
      exact nest.enter
  · next scope gone doing =>
      cases step
      rw [ProfiledThread.Tidy, doing] at tidy
      rw [ProfiledThread.Quiet, doing] at quiet
      rw [ProfiledThread.ended, ProfiledThread.open_, doing, List.append_nil] at nest
      obtain ⟨inner, section_, outer, ends, runs⟩ := tidy
      apply nested.set
      refine ⟨⟨inner, section_, outer, ends, runs⟩, quiet, ?_⟩
      have one : running [section_] = [section_] := List.filter_cons_of_pos runs
      dsimp only at quiet nest
      rw [ends.take] at quiet
      rw [ends.running_scopes, quiet, one] at nest
      simp only [ProfiledThread.ended, ProfiledThread.open_, ends.getElem?, ends.drop]
      exact nest.leave
  · next scope gone endTimeNs doing =>
      rw [ProfiledThread.Tidy, doing] at tidy
      rw [ProfiledThread.Quiet, doing] at quiet
      rw [ProfiledThread.ended, ProfiledThread.open_, doing] at nest
      obtain ⟨inner, section_, outer, ends, runs⟩ := tidy
      split at step <;> cases step
      · apply nested.set
        exact ⟨⟨inner, section_, outer, ends, runs⟩, quiet, nest⟩
      · apply nested.set
        dsimp only at quiet nest
        rw [ends.take] at quiet
        rw [ends.drop] at nest
        exact .finish ends quiet (nest.sublist (.refl _) (List.sublist_append_left _ _))
  · next scope gone endTimeNs doing =>
      rw [ProfiledThread.Tidy, doing] at tidy
      rw [ProfiledThread.Quiet, doing] at quiet
      rw [ProfiledThread.ended, ProfiledThread.open_, doing] at nest
      obtain ⟨inner, section_, outer, ends, runs⟩ := tidy
      dsimp only at quiet nest
      rw [ends.getElem?, ends.drop] at nest
      rw [ends.getElem?] at step
      cases step
      -- The span that had ended is the one of the event.
      have forward := (nest.ended ⟨section_.startTimeNs.toNat, endTimeNs.toNat⟩ (by simp)).1
      have span : (s.event t section_ endTimeNs).span =
          ⟨section_.startTimeNs.toNat, endTimeNs.toNat⟩ := by
        rw [ProfileEvent.span, Profiler.event]
        dsimp only at forward ⊢
        rw [BitVec.toNat_sub_of_le forward, Nat.add_sub_cancel' forward]
      refine nested.of_set rfl rfl (fun u other => ?_) ?_
      · rw [spans_other (by exact other.symm)]
      · rw [ends.take] at quiet
        apply ProfiledThread.Ok.finish ends quiet
        have mine : spans t [s.event t section_ endTimeNs] =
            [(s.event t section_ endTimeNs).span] := by
          rw [spans, List.filter_cons, if_pos (by simp [Profiler.event])]
          rfl
        dsimp only
        rw [spans_append, mine, span]
        exact nest
  · next doing =>
      cases step
      rw [ProfiledThread.ended, ProfiledThread.open_, doing, List.append_nil] at nest
      exact nested.of_set rfl rfl (fun _ _ => .refl _) (.idle nest)

theorem step (nested : s.Nested)
    (taken : Schedule.guarded Profiler.legal Profiler.step e s = some s') : s'.Nested := by
  obtain ⟨legal, step⟩ := Schedule.guarded_eq_some.mp taken
  cases e with
  | open_ t name category location =>
      simp only [Profiler.step] at step
      split at step <;> cases step
      next doing =>
        have nest := (nested t).nest
        rw [ProfiledThread.ended, ProfiledThread.open_, doing] at nest
        apply nested.set
        exact ⟨⟨_, _, rfl, rfl⟩, trivial, nest⟩
  | stop t scope =>
      obtain ⟨thread', stopped, rfl⟩ := Option.map_eq_some_iff.mp step
      apply nested.set
      refine (nested t).stop ?_ (by simp) stopped
      rw [running, List.filter_eq_nil_iff]
      intro section_ member
      have still := List.all_eq_true.mp legal section_ member
      simpa using still
  | close t =>
      obtain ⟨thread', stopped, rfl⟩ := Option.map_eq_some_iff.mp step
      apply nested.set
      exact (nested t).stop (by rw [List.take_zero]; rfl) (fun _ => rfl) stopped
  | startProfiler t =>
      simp only [Profiler.step] at step
      split at step <;> cases step
      next doing =>
        have nest := (nested t).nest
        rw [ProfiledThread.ended, ProfiledThread.open_, doing] at nest
        refine nested.of_set rfl rfl (fun u _ => List.nil_sublist _) ?_
        exact ⟨trivial, trivial, nest.sublist (.refl _) (List.nil_sublist _)⟩
  | stopProfiler =>
      cases step
      exact nested
  | clear =>
      cases step
      exact fun t => (nested t).sublist (List.nil_sublist _)
  | advance t => exact nested.advance step
  | clock now =>
      cases step
      exact fun t => (nested t).later legal

end Profiler.Nested

end Steps

/-- For every interleaving of the threads, of the profiler being started, stopped and cleared by any
of them, and of scopes being stopped by hand from the inside out: no event ends after the clock, and
of two events of one thread the earlier one is over before the later one begins, or lies within
it. -/
theorem nested_of_run {processId : BitVec 32} {clock : BitVec 64} {schedule : List ProfilerEvent}
    {s : Profiler} (run : Schedule.run (Schedule.guarded Profiler.legal Profiler.step)
      (Profiler.initial processId clock) schedule = some s) :
    (∀ e ∈ s.events, e.startTimeNs.toNat + e.durationNs.toNat ≤ s.clock.toNat) ∧
      s.events.Pairwise fun e f => e.threadId = f.threadId → e.span.Nests f.span := by
  have start : (Profiler.initial processId clock).Nested := fun t => .idle (.nil _)
  have nested : s.Nested :=
    Schedule.run_invariant (fun step nested => Profiler.Nested.step nested step) run start
  have nests (t : BitVec 64) : Span.Nest (starts (s.threads t).open_) (spans t s.events)
      s.clock.toNat := (nested t).nest.sublist (.refl _) (List.sublist_append_left _ _)
  constructor
  · intro e member
    apply ((nests e.threadId).ended e.span _).2
    exact List.mem_map.mpr ⟨e, List.mem_filter.mpr ⟨member, by simp⟩, rfl⟩
  · apply pairwise_of_classes
    intro t
    have each := (nests t).nests
    rwa [spans, List.pairwise_map] at each

theorem zero_notMem_nil : (0 : UInt8) ∉ [] := List.not_mem_nil

/-- Where the scopes of an example are opened. -/
def somewhere : Location := ⟨⟨[], zero_notMem_nil, by decide⟩, 1⟩

/-- Two threads, of which the first has a scope within a scope and the second overlaps both. -/
def twoThreads : List ProfilerEvent :=
  [.startProfiler 1, .advance 1, .open_ 1 ⟨0⟩ ⟨9⟩ somewhere, .advance 1, .clock 10, .advance 1,
    .open_ 2 ⟨1⟩ ⟨9⟩ somewhere, .advance 2, .clock 12, .advance 2, .open_ 1 ⟨2⟩ ⟨9⟩ somewhere,
    .advance 1, .clock 15, .advance 1, .close 1, .clock 20, .advance 1, .advance 1, .advance 1,
    .close 2, .clock 25, .advance 2, .advance 2, .close 1, .clock 30, .advance 1, .advance 2,
    .advance 1, .advance 1]

theorem nested_of_run_twoThreads : ∃ s,
    Schedule.run (Schedule.guarded Profiler.legal Profiler.step) (Profiler.initial 7 5) twoThreads =
        some s ∧
      (s.events.map fun e => (e.threadId, e.startTimeNs, e.durationNs)) =
        [(1, 15, 5), (2, 12, 13), (1, 10, 20)] ∧
      s.events.Pairwise fun e f => e.threadId = f.threadId → e.span.Nests f.span := by
  have done : (Schedule.run (Schedule.guarded Profiler.legal Profiler.step)
      (Profiler.initial 7 5) twoThreads).map
        (fun s => s.events.map fun e => (e.threadId, e.startTimeNs, e.durationNs)) =
      some [(1, 15, 5), (2, 12, 13), (1, 10, 20)] := by decide +kernel
  obtain ⟨s, run, events⟩ := Option.map_eq_some_iff.mp done
  exact ⟨s, run, events, (nested_of_run run).2⟩

/-! ## Recording -/

/-- What a scope was constructed with. -/
structure Label : Type where
  name : StringPoolId
  category : StringPoolId
  location : Location

def ProfileSection.label (section_ : ProfileSection) : Label :=
  ⟨section_.name, section_.category, section_.location⟩

def ProfileEvent.label (e : ProfileEvent) : Label := ⟨e.name, e.category, e.location⟩

/-- The scopes of a thread that run or are about to. -/
def ProfiledThread.live (thread : ProfiledThread) : List ProfileSection :=
  running thread.scopes ++
    match thread.doing with
    | .opening => thread.scopes.take 1
    | .stamping => thread.scopes.take 1
    | _ => []

namespace ProfilerEvent

/-- The profiler is neither started nor stopped nor cleared. -/
def Calm : ProfilerEvent → Prop
  | .startProfiler _ => False
  | .stopProfiler => False
  | .clear => False
  | _ => True

/-- The scope that a thread opens. -/
def opened (t : BitVec 64) : ProfilerEvent → List Label
  | .open_ u name category location => if u = t then [⟨name, category, location⟩] else []
  | _ => []

end ProfilerEvent

/-- The events that were recorded of a thread, by their labels. -/
def labels (t : BitVec 64) (events : List ProfileEvent) : List Label :=
  (events.filter fun e => e.threadId = t).map ProfileEvent.label

theorem labels_append (t : BitVec 64) (events more : List ProfileEvent) :
    labels t (events ++ more) = labels t events ++ labels t more := by
  rw [labels, List.filter_append, List.map_append]
  rfl

/-- While the profiler is on, events are only added, and for every thread what was recorded and what
is live is what was live and what has opened. -/
structure Accounts (s s' : Profiler) (opened : BitVec 64 → List Label) : Prop where
  on : s'.enabled = true
  added : ∃ new, s'.events = s.events ++ new ∧ ∀ t,
    (labels t new ++ (s'.threads t).live.map ProfileSection.label).Perm
      ((s.threads t).live.map ProfileSection.label ++ opened t)

section Steps

variable {thread thread' : ProfiledThread} {s s' : Profiler} {t : BitVec 64} {e : ProfilerEvent}

theorem ProfiledThread.Tidy.stop {scope : Nat} {gone : Bool} (innermost : gone = true → scope = 0)
    (stopped : thread.stop scope gone = some thread') :
    thread'.Tidy ∧ thread'.live = thread.live := by
  unfold ProfiledThread.stop at stopped
  split at stopped
  · next section_ idle here =>
      have ends := Ends.of_getElem? here innermost
      split at stopped <;> cases stopped
      · next runs =>
          refine ⟨⟨_, _, _, ends, runs⟩, ?_⟩
          rw [live, live, idle]
      · next still =>
          have none_ : running [section_] = [] := List.filter_cons_of_neg still
          refine ⟨trivial, ?_⟩
          rw [live, live, idle, ends.running_finish, ends.running_scopes, none_, List.nil_append]
          rfl
  · cases stopped

/-- A step of one thread that adds no event. -/
theorem Accounts.of_set {opened : BitVec 64 → List Label} (on : s'.enabled = true)
    (threads : s'.threads = Function.update s.threads t thread') (events : s'.events = s.events)
    (others : ∀ u, u ≠ t → opened u = [])
    (same : (thread'.live.map ProfileSection.label).Perm
      ((s.threads t).live.map ProfileSection.label ++ opened t)) : Accounts s s' opened := by
  refine ⟨on, [], by rw [events, List.append_nil], fun u => ?_⟩
  change ((s'.threads u).live.map _).Perm _
  rw [threads]
  by_cases here : u = t
  · subst here
    rwa [Function.update_self]
  · rw [Function.update_of_ne here, others u here, List.append_nil]

theorem Accounts.refl (on : s.enabled = true) : Accounts s s fun _ => [] :=
  ⟨on, [], (List.append_nil _).symm, fun t => by rw [List.append_nil]; rfl⟩

theorem Accounts.trans {s'' : Profiler} {opened opened' : BitVec 64 → List Label}
    (first : Accounts s s' opened) (second : Accounts s' s'' opened') :
    Accounts s s'' fun t => opened t ++ opened' t := by
  obtain ⟨new, added, account⟩ := first.added
  obtain ⟨new', added', account'⟩ := second.added
  refine ⟨second.on, new ++ new', by rw [added', added, List.append_assoc], fun t => ?_⟩
  have left := (account' t).append_left (labels t new)
  have right := (account t).append_right (opened' t)
  rw [← List.append_assoc, ← List.append_assoc] at left
  rw [labels_append, ← List.append_assoc]
  exact left.trans right

/-- The scope that a call is about is there, in every thread. -/
def Profiler.Tidy (s : Profiler) : Prop := ∀ t, (s.threads t).Tidy

theorem Profiler.Tidy.set {s' : Profiler} (tidy : s.Tidy)
    (threads : s'.threads = Function.update s.threads t thread') (ok : thread'.Tidy) : s'.Tidy := by
  intro u
  rw [threads]
  by_cases here : u = t
  · subst here
    rwa [Function.update_self]
  · rw [Function.update_of_ne here]
    exact tidy u

theorem Profiler.Tidy.advance (tidy : s.Tidy) (step : s.advance t = some s') :
    s'.Tidy ∧ (s.enabled = true → Accounts s s' fun _ => []) := by
  have mine := tidy t
  unfold Profiler.advance at step
  dsimp only at step
  split at step
  · cases step
  · next doing =>
      cases step
      rw [ProfiledThread.Tidy, doing] at mine
      refine ⟨tidy.set rfl ?_, fun on => .of_set on rfl rfl (fun _ _ => rfl) ?_⟩
      · split
        · exact mine
        · trivial
      · rw [List.append_nil, if_pos on, ProfiledThread.live, ProfiledThread.live, doing]
  · next doing =>
      cases step
      rw [ProfiledThread.Tidy, doing] at mine
      obtain ⟨section_, outer, scopes, still⟩ := mine
      refine ⟨tidy.set rfl trivial, fun on => .of_set on rfl rfl (fun _ _ => rfl) ?_⟩
      have none_ : running (section_ :: outer) = running outer :=
        List.filter_cons_of_neg (by simp [still])
      rw [List.append_nil, ProfiledThread.live, ProfiledThread.live, doing, scopes, none_,
        List.append_nil, List.map_append]
      exact (List.perm_append_singleton _ _).symm
  · next scope gone doing =>
      cases step
      rw [ProfiledThread.Tidy, doing] at mine
      refine ⟨tidy.set rfl mine, fun on => .of_set on rfl rfl (fun _ _ => rfl) ?_⟩
      rw [List.append_nil, ProfiledThread.live, ProfiledThread.live, doing]
  · next scope gone endTimeNs doing =>
      rw [ProfiledThread.Tidy, doing] at mine
      split at step <;> cases step
      · refine ⟨tidy.set rfl mine, fun on => .of_set on rfl rfl (fun _ _ => rfl) ?_⟩
        rw [List.append_nil, ProfiledThread.live, ProfiledThread.live, doing]
      · next off => exact ⟨tidy.set rfl trivial, fun on => absurd on off⟩
  · next scope gone endTimeNs doing =>
      rw [ProfiledThread.Tidy, doing] at mine
      obtain ⟨inner, section_, outer, ends, runs⟩ := mine
      rw [ends.getElem?] at step
      cases step
      refine ⟨tidy.set rfl trivial, fun on => ⟨on, [_], rfl, fun u => ?_⟩⟩
      rw [List.append_nil]
      change (_ ++ ((Function.update s.threads t _ u).live).map _).Perm _
      by_cases here : u = t
      · subst here
        have one : running [section_] = [section_] := List.filter_cons_of_pos runs
        have label : labels u [s.event u section_ endTimeNs] = [section_.label] := by
          rw [labels, List.filter_cons, if_pos (by simp [Profiler.event])]
          rfl
        rw [Function.update_self, label, ProfiledThread.live, ProfiledThread.live, doing,
          ends.running_finish, ends.running_scopes, one, List.append_nil, ProfiledThread.finish,
          List.append_nil, List.map_append, List.map_append, List.map_append]
        have middle : ((running inner).map ProfileSection.label ++ section_.label ::
            (running outer).map ProfileSection.label).Perm (section_.label ::
              ((running inner).map ProfileSection.label ++
                (running outer).map ProfileSection.label)) :=
          List.perm_middle
        exact middle.symm
      · have none_ : labels u [s.event t section_ endTimeNs] = [] := by
          rw [labels, List.filter_cons, if_neg (by rw [decide_eq_true_eq]; exact Ne.symm here)]
          rfl
        rw [Function.update_of_ne here, none_, List.nil_append]
  · next doing =>
      cases step
      refine ⟨tidy.set rfl trivial, fun _ => .of_set rfl rfl rfl (fun _ _ => rfl) ?_⟩
      rw [List.append_nil, ProfiledThread.live, ProfiledThread.live, doing]

theorem Profiler.Tidy.step (tidy : s.Tidy) (step : Profiler.step e s = some s') :
    s'.Tidy ∧ (s.enabled = true → e.Calm → Accounts s s' fun t => e.opened t) := by
  cases e with
  | open_ t name category location =>
      simp only [Profiler.step] at step
      split at step <;> cases step
      next doing =>
        refine ⟨tidy.set rfl ⟨_, _, rfl, rfl⟩, fun on _ => .of_set on rfl rfl ?_ ?_⟩
        · exact fun u other => if_neg other.symm
        · have own : ProfilerEvent.opened t (.open_ t name category location) =
              [⟨name, category, location⟩] := if_pos rfl
          rw [own, ProfiledThread.live, ProfiledThread.live, doing, List.append_nil,
            List.map_append]
          exact .refl _
  | stop t scope =>
      obtain ⟨thread', stopped, rfl⟩ := Option.map_eq_some_iff.mp step
      obtain ⟨ok, live⟩ := ProfiledThread.Tidy.stop (by simp) stopped
      refine ⟨tidy.set rfl ok, fun on _ => .of_set on rfl rfl (fun _ _ => rfl) ?_⟩
      rw [live]
      exact (List.append_nil _).symm ▸ .refl _
  | close t =>
      obtain ⟨thread', stopped, rfl⟩ := Option.map_eq_some_iff.mp step
      obtain ⟨ok, live⟩ := ProfiledThread.Tidy.stop (fun _ => rfl) stopped
      refine ⟨tidy.set rfl ok, fun on _ => .of_set on rfl rfl (fun _ _ => rfl) ?_⟩
      rw [live]
      exact (List.append_nil _).symm ▸ .refl _
  | startProfiler t =>
      simp only [Profiler.step] at step
      split at step <;> cases step
      exact ⟨tidy.set rfl trivial, fun _ calm => calm.elim⟩
  | stopProfiler =>
      cases step
      exact ⟨tidy, fun _ calm => calm.elim⟩
  | clear =>
      cases step
      exact ⟨tidy, fun _ calm => calm.elim⟩
  | advance t =>
      obtain ⟨next, accounts⟩ := tidy.advance step
      exact ⟨next, fun on _ => accounts on⟩
  | clock now =>
      cases step
      exact ⟨tidy, fun on _ => ⟨on, (Accounts.refl on).added⟩⟩

end Steps

/-- Whatever has happened before, in any interleaving: from a moment on at which the profiler is on,
as long as it is neither started nor stopped nor cleared, no event is lost. What was recorded of a
thread since then together with its live scopes is what was live then together with what it has
opened since, so every scope is recorded exactly once, with what it was constructed with. -/
theorem recorded_of_run {processId : BitVec 32} {clock : BitVec 64}
    {earlier schedule : List ProfilerEvent} {s s' : Profiler}
    (reached : Schedule.run Profiler.step (Profiler.initial processId clock) earlier = some s)
    (on : s.enabled = true) (calm : ∀ e ∈ schedule, e.Calm)
    (run : Schedule.run Profiler.step s schedule = some s') :
    s'.enabled = true ∧ ∃ new, s'.events = s.events ++ new ∧ ∀ t,
      (labels t new ++ (s'.threads t).live.map ProfileSection.label).Perm
        ((s.threads t).live.map ProfileSection.label ++
          schedule.flatMap (ProfilerEvent.opened t)) := by
  have start : (Profiler.initial processId clock).Tidy := fun _ => trivial
  have tidy : s.Tidy := Schedule.run_invariant (fun step tidy => (tidy.step step).1) reached start
  have accounts : Accounts s s' fun t => schedule.flatMap (ProfilerEvent.opened t) := by
    clear reached
    induction schedule generalizing s with
    | nil =>
        cases run
        exact .refl on
    | cons e rest ih =>
        obtain ⟨m, step, later⟩ := Schedule.run_cons_eq_some.mp run
        obtain ⟨first, others⟩ := List.forall_mem_cons.mp calm
        obtain ⟨next, account⟩ := tidy.step step
        have one := account on first
        exact one.trans (ih one.on others later next)
  exact ⟨accounts.on, accounts.added⟩

theorem recorded_of_run_twoThreads : ∃ s s' new,
    Schedule.run Profiler.step (Profiler.initial 7 5) (twoThreads.take 2) = some s ∧
      Schedule.run Profiler.step s (twoThreads.drop 2) = some s' ∧ s'.events = s.events ++ new ∧
      (labels 1 new).Perm [⟨⟨0⟩, ⟨9⟩, somewhere⟩, ⟨⟨2⟩, ⟨9⟩, somewhere⟩] := by
  have done : (Schedule.run Profiler.step (Profiler.initial 7 5) (twoThreads.take 2)).map
      (fun s => (s.enabled, (s.threads 1).live.isEmpty)) = some (true, true) := by decide +kernel
  obtain ⟨s, reached, eq⟩ := Option.map_eq_some_iff.mp done
  simp only [Prod.mk.injEq, List.isEmpty_iff] at eq
  have done' : ((Schedule.run Profiler.step (Profiler.initial 7 5) (twoThreads.take 2)).bind
      fun s => Schedule.run Profiler.step s (twoThreads.drop 2)).map
        (fun s => (s.threads 1).live.isEmpty) = some true := by decide +kernel
  obtain ⟨s', run, quiet⟩ := Option.map_eq_some_iff.mp done'
  rw [reached, Option.bind_some] at run
  obtain ⟨-, new, added, account⟩ := recorded_of_run reached eq.1 (by simp [twoThreads,
    ProfilerEvent.Calm]) run
  have one := account 1
  rw [eq.2, List.isEmpty_iff.mp quiet, List.map_nil, List.append_nil, List.nil_append] at one
  exact ⟨s, s', new, reached, run, added, one⟩

end Fpag.Debug
