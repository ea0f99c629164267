import Fpag.Logging.BackendWorker

/-!
The life of `logging::BackendWorker`: `init`, `start`, `stop`, `force_stop`, `reset` and moves.

A step of `World` is a call on one worker or a move between two, with the debug checks of the
call: one that fails a check is no step. `given` is the interner of the `init` that the queue and
the sink of a worker come from; it is not a field of the source, and it goes where they go.

`swap` exchanges the queue, the sink and the thread, moves the status one way, and forgets
`interner_`. `truthful_of_run` says which moves this does no harm to.
-/

namespace Fpag.Container.SpscQueue

variable {w : Nat}

/-- `SpscQueue::reset`; the counts of dropped and of blocked records stay. -/
def reset (q : SpscQueue w) : SpscQueue w :=
  { q with
    mapped := false, data := fun _ => 0, capacity := 0, mode := .drop
    head := 0, headCache := 0, tail := 0, tailCache := 0 }

/-- The move constructor: the new queue, and what is left of the other. -/
def moveConstruct (other : SpscQueue w) : SpscQueue w × SpscQueue w := (other, fresh w)

/-- The move assignment; what `reset` leaves of the queue is overwritten field by field. -/
def moveAssign (q other : SpscQueue w) : SpscQueue w × SpscQueue w :=
  let q := q.reset
  ({ q with
      mapped := other.mapped, data := other.data, capacity := other.capacity, mode := other.mode
      head := other.head, headCache := other.headCache, tail := other.tail
      tailCache := other.tailCache, droppedCount := other.droppedCount
      blockedCount := other.blockedCount }, fresh w)

/-- `std::swap` of two queues. -/
def swap (q other : SpscQueue w) : SpscQueue w × SpscQueue w :=
  let taken := q.moveConstruct
  let first := taken.2.moveAssign other
  let second := first.2.moveAssign taken.1
  (first.1, second.1)

theorem swap_eq (q other : SpscQueue w) : q.swap other = (other, q) := rfl

end Fpag.Container.SpscQueue

namespace Fpag.Logging.Lifecycle

open Fpag.Container Schedule

variable {w : Nat} {S I ι : Type}

/-! ## Workers -/

/-- The fields of `BackendWorker`, with whether `thread_` is there. -/
structure Worker (w : Nat) (S I : Type) : Type where
  queue : SpscQueue w := .fresh w
  sink : Option S := none
  thread : Bool := false
  interner : Option I := none
  status : InternalStatus := .notInitialized
  given : Option I := none

namespace Worker

/-- `BackendWorker::swap_sink`. -/
def swapSink : Option S → Option S → Option S × Option S
  | none, some rhs => (some rhs, none)
  | none, none => (none, none)
  | some lhs, none => (none, some lhs)
  | some lhs, some rhs =>
      let taken := lhs
      (some rhs, some taken)

/-- `BackendWorker::swap`: the worker and the other one. -/
def swap (x other : Worker w S I) : Worker w S I × Worker w S I :=
  let queues := x.queue.swap other.queue
  let sinks := swapSink x.sink other.sink
  ({ x with
      queue := queues.1, sink := sinks.1, thread := other.thread, status := other.status
      given := other.given },
    { other with
      queue := queues.2, sink := sinks.2, thread := x.thread, status := .notInitialized
      given := x.given })

/-- `BackendWorker::init`, with the page size and the pages of the system. -/
def init (x : Worker w S I) (pageSize : Nat) (sink : S) (interner : Option I)
    (ring : Nat → UInt8) (capacity : BitVec w) (mode : Mode) : Option (Worker w S I) :=
  if x.status = .notInitialized ∧ x.queue.mapped = false ∧ interner.isSome then
    (x.queue.init pageSize ring capacity mode).map fun queue =>
      { x with
        queue := queue, sink := some sink, interner := interner, status := .initialized
        given := interner }
  else none

/-- `BackendWorker::start`. -/
def start (x : Worker w S I) : Option (Worker w S I) :=
  if x.status = .initialized ∧ x.sink.isSome then some { x with status := .running, thread := true }
  else none

/-- The end of `BackendWorker::stop` and of `force_stop`: the thread is joined. -/
def halt (x : Worker w S I) (status : InternalStatus) : Worker w S I :=
  { x with status := status, thread := false }

/-- `BackendWorker::stop`. -/
def stop (x : Worker w S I) : Option (Worker w S I) :=
  if x.status = .running then some (x.halt .stopping) else none

/-- `BackendWorker::force_stop`. -/
def forceStop (x : Worker w S I) : Option (Worker w S I) :=
  if x.status = .running then some (x.halt .forceStopping) else none

/-- `BackendWorker::reset`. -/
def reset (x : Worker w S I) : Worker w S I :=
  let x := if x.status = .running then x.halt .stopping else x
  { x with
    status := .notInitialized, interner := none, queue := x.queue.reset, sink := none
    given := none }

end Worker

/-! ## The workers of a program -/

/-- The workers that have been constructed. -/
abbrev World (ι : Type) (w : Nat) (S I : Type) : Type := ι → Option (Worker w S I)

inductive Op (ι : Type) (w : Nat) (S I : Type) : Type
  | construct (i : ι)
  | init (i : ι) (sink : S) (interner : Option I) (ring : Nat → UInt8) (capacity : BitVec w)
      (mode : Mode)
  | start (i : ι)
  | stop (i : ι)
  | forceStop (i : ι)
  | reset (i : ι)
  | moveConstruct (target source : ι)
  | moveAssign (target source : ι)

section Step

variable [DecidableEq ι]

/-- A call on a worker that is there. -/
def call (world : World ι w S I) (i : ι) (f : Worker w S I → Option (Worker w S I)) :
    Option (World ι w S I) :=
  (world i).bind fun x => (f x).map fun x' => Function.update world i (some x')

/-- A move between two workers that are not running. -/
def move (world : World ι w S I) (target source : ι) (x other : Worker w S I) :
    Option (World ι w S I) :=
  if x.status = .running ∨ other.status = .running then none
  else
    let moved := x.swap other
    some (Function.update (Function.update world target (some moved.1)) source (some moved.2))

def step (pageSize : Nat) (op : Op ι w S I) (world : World ι w S I) : Option (World ι w S I) :=
  match op with
  | .construct i =>
      if (world i).isNone then some (Function.update world i (some {})) else none
  | .init i sink interner ring capacity mode =>
      call world i fun x => x.init pageSize sink interner ring capacity mode
  | .start i => call world i Worker.start
  | .stop i => call world i Worker.stop
  | .forceStop i => call world i Worker.forceStop
  | .reset i => call world i fun x => some x.reset
  | .moveConstruct target source =>
      match world target, world source with
      | none, some other => move world target source {} other
      | _, _ => none
  | .moveAssign target source =>
      if target = source then
        match world target with
        | some x => if x.status = .running then none else some world
        | none => none
      else
        match world target, world source with
        | some x, some other => move world target source x other
        | _, _ => none

end Step

/-! ## The truth of the status -/

/-- What the status of a worker says about its parts. -/
structure Truthful (x : Worker w S I) : Prop where
  ready : x.status = .initialized ∨ x.status = .running →
    x.sink.isSome = true ∧ x.queue.mapped = true ∧ ∃ i, x.given = some i ∧ x.interner = some i
  empty : x.status = .notInitialized → x.queue.mapped = false ∧ x.thread = false

/-- What a move asks for: the target has no ring that it would leave with the source, and it
knows the interner of a source that is initialized. -/
def gentle [DecidableEq ι] [DecidableEq I] (op : Op ι w S I) (world : World ι w S I) : Bool :=
  let fits (x other : Worker w S I) : Bool :=
    !x.queue.mapped && (other.status != .initialized || x.interner == other.interner)
  match op with
  | .moveConstruct _ source => (world source).all fun other => fits {} other
  | .moveAssign target source =>
      target == source || (world target).all fun x => (world source).all fun other => fits x other
  | _ => true

/-- What every step keeps. -/
structure Inv (x : Worker w S I) : Prop extends Truthful x where
  running : x.thread = true → x.status = .running

section Workers

variable {x other x' : Worker w S I}

theorem swapSink_eq (lhs rhs : Option S) : Worker.swapSink lhs rhs = (rhs, lhs) := by
  cases lhs <;> cases rhs <;> rfl

/-- What `swap` exchanges, what it moves and what it leaves. -/
theorem swap_eq (x other : Worker w S I) : x.swap other =
    (⟨other.queue, other.sink, other.thread, x.interner, other.status, other.given⟩,
      ⟨x.queue, x.sink, x.thread, other.interner, .notInitialized, x.given⟩) := by
  simp only [Worker.swap, swapSink_eq]
  rfl

theorem inv_new : Inv ({} : Worker w S I) where
  ready := by rintro (⟨⟨⟩⟩ | ⟨⟨⟩⟩)
  empty := fun _ => ⟨rfl, rfl⟩
  running := by rintro ⟨⟩

theorem Inv.init {pageSize : Nat} {sink : S} {interner : Option I} {ring : Nat → UInt8}
    {capacity : BitVec w} {mode : Mode} (inv : Inv x)
    (h : x.init pageSize sink interner ring capacity mode = some x') : Inv x' := by
  rw [Worker.init] at h
  split at h
  · next legal =>
      obtain ⟨status, -, given⟩ := legal
      obtain ⟨queue, mapped, rfl⟩ := Option.map_eq_some_iff.mp h
      obtain ⟨i, rfl⟩ := Option.isSome_iff_exists.mp given
      have ring : queue.mapped = true := by
        rw [SpscQueue.init] at mapped
        split at mapped
        · cases mapped
          rfl
        · cases mapped
      refine ⟨⟨fun _ => ⟨rfl, ring, i, rfl, rfl⟩, by rintro ⟨⟩⟩, fun thread => ?_⟩
      have none := (inv.empty status).2
      rw [show x.thread = true from thread] at none
      cases none
  · cases h

theorem Inv.start (inv : Inv x) (h : x.start = some x') : Inv x' := by
  rw [Worker.start] at h
  split at h
  · next legal =>
      cases h
      exact ⟨⟨fun _ => inv.ready (.inl legal.1), by rintro ⟨⟩⟩, fun _ => rfl⟩
  · cases h

/-- A worker that has been halted says nothing about its parts. -/
theorem Inv.halt {status : InternalStatus}
    (silent : status = .stopping ∨ status = .forceStopping) : Inv (x.halt status) := by
  refine ⟨⟨?_, ?_⟩, by rintro ⟨⟩⟩
  · rintro (ready | ready) <;> rcases silent with rfl | rfl <;> cases ready
  · intro empty
    rcases silent with rfl | rfl <;> cases empty

theorem Inv.stop (h : x.stop = some x') : Inv x' := by
  rw [Worker.stop] at h
  split at h
  · cases h
    exact Inv.halt (.inl rfl)
  · cases h

theorem Inv.forceStop (h : x.forceStop = some x') : Inv x' := by
  rw [Worker.forceStop] at h
  split at h
  · cases h
    exact Inv.halt (.inr rfl)
  · cases h

theorem Inv.reset (inv : Inv x) : Inv x.reset := by
  have thread : x.reset.thread = false := by
    rw [Worker.reset]
    split
    · rfl
    · next resting =>
        cases there : x.thread with
        | false => rfl
        | true => exact absurd (inv.running there) resting
  refine ⟨⟨?_, fun _ => ⟨rfl, thread⟩⟩, fun there => ?_⟩
  · rintro (⟨⟨⟩⟩ | ⟨⟨⟩⟩)
  · rw [thread] at there
    cases there

/-- A move between workers at rest that tell the truth leaves both telling the truth exactly if
the target has no ring and knows the interner of an initialized source. -/
theorem swap_truthful_iff (inv : Inv x) (inv' : Inv other) (resting : x.status ≠ .running)
    (resting' : other.status ≠ .running) :
    (Truthful (x.swap other).1 ∧ Truthful (x.swap other).2) ↔
      x.queue.mapped = false ∧ (other.status = .initialized → x.interner = other.interner) := by
  have thread : x.thread = false := by
    cases there : x.thread with
    | false => rfl
    | true => exact absurd (inv.running there) resting
  rw [swap_eq]
  constructor
  · rintro ⟨target, source⟩
    refine ⟨(source.empty rfl).1, fun initialized => ?_⟩
    obtain ⟨-, -, i, given, known⟩ := target.ready (.inl initialized)
    obtain ⟨-, -, j, given', known'⟩ := inv'.ready (.inl initialized)
    dsimp only at given known
    rw [known, known', ← given, ← given']
  · rintro ⟨empty, same⟩
    refine ⟨⟨fun ready => ?_, inv'.empty⟩, ⟨?_, fun _ => ⟨empty, thread⟩⟩⟩
    · obtain ⟨sink, ring, i, given, known⟩ := inv'.ready ready
      refine ⟨sink, ring, i, given, ?_⟩
      rw [← known]
      exact same (ready.resolve_right resting')
    · rintro (⟨⟨⟩⟩ | ⟨⟨⟩⟩)

/-- A gentle move keeps the invariant. -/
theorem Inv.swap (inv : Inv x) (inv' : Inv other) (resting : x.status ≠ .running)
    (resting' : other.status ≠ .running) (empty : x.queue.mapped = false)
    (same : other.status = .initialized → x.interner = other.interner) :
    Inv (x.swap other).1 ∧ Inv (x.swap other).2 := by
  obtain ⟨target, source⟩ := (swap_truthful_iff inv inv' resting resting').mpr ⟨empty, same⟩
  refine ⟨⟨target, ?_⟩, ⟨source, ?_⟩⟩
  · rw [swap_eq]
    exact inv'.running
  · rw [swap_eq]
    exact fun there => absurd (inv.running there) resting

end Workers

section Run

variable [DecidableEq ι] {world world' : World ι w S I}

/-- Every worker that is there has the invariant. -/
def AllInv (world : World ι w S I) : Prop := ∀ i x, world i = some x → Inv x

theorem AllInv.update (all : AllInv world) {i : ι} {x : Worker w S I} (inv : Inv x) :
    AllInv (Function.update world i (some x)) := by
  intro j y h
  by_cases same : j = i
  · subst same
    rw [Function.update_self] at h
    cases h
    exact inv
  · rw [Function.update_of_ne same] at h
    exact all j y h

theorem AllInv.call (all : AllInv world) {i : ι} {f : Worker w S I → Option (Worker w S I)}
    (keeps : ∀ {x x'}, Inv x → f x = some x' → Inv x') (h : call world i f = some world') :
    AllInv world' := by
  obtain ⟨x, there, h⟩ := Option.bind_eq_some_iff.mp h
  obtain ⟨x', called, rfl⟩ := Option.map_eq_some_iff.mp h
  exact all.update (keeps (all i x there) called)

theorem AllInv.move (all : AllInv world) {target source : ι} {x other : Worker w S I}
    (inv : Inv x) (there : world source = some other) (empty : x.queue.mapped = false)
    (same : other.status = .initialized → x.interner = other.interner)
    (h : move world target source x other = some world') : AllInv world' := by
  rw [Lifecycle.move] at h
  split at h
  · cases h
  · next resting =>
      rw [not_or] at resting
      cases h
      obtain ⟨moved, left⟩ := inv.swap (all source other there) resting.1 resting.2 empty same
      exact (all.update moved).update left

theorem AllInv.step [DecidableEq I] {pageSize : Nat} {op : Op ι w S I} (all : AllInv world)
    (fine : gentle op world = true) (h : step pageSize op world = some world') :
    AllInv world' := by
  have parts {x other : Worker w S I} (fits : (!x.queue.mapped &&
      (other.status != .initialized || x.interner == other.interner)) = true) :
      x.queue.mapped = false ∧ (other.status = .initialized → x.interner = other.interner) := by
    simp only [Bool.and_eq_true, Bool.not_eq_true', Bool.or_eq_true, bne_iff_ne, beq_iff_eq] at fits
    exact ⟨fits.1, fun initialized => fits.2.resolve_left (absurd initialized)⟩
  cases op with
  | construct i =>
      rw [Lifecycle.step] at h
      split at h
      · cases h
        exact all.update inv_new
      · cases h
  | init i sink interner ring capacity mode => exact all.call (fun inv h => inv.init h) h
  | start i => exact all.call (fun inv h => inv.start h) h
  | stop i => exact all.call (fun _ h => Inv.stop h) h
  | forceStop i => exact all.call (fun _ h => Inv.forceStop h) h
  | reset i =>
      refine all.call (fun inv h => ?_) h
      cases h
      exact inv.reset
  | moveConstruct target source =>
      simp only [Lifecycle.step] at h
      split at h
      · next other _ there =>
          simp only [gentle, there, Option.all_some] at fine
          obtain ⟨empty, same⟩ := @parts {} other fine
          exact all.move inv_new there empty same h
      · cases h
  | moveAssign target source =>
      simp only [Lifecycle.step] at h
      split at h
      · split at h
        · split at h
          · cases h
          · cases h
            exact all
        · cases h
      · next apart =>
          split at h
          · next x other there there' =>
              simp only [gentle, beq_eq_false_iff_ne.mpr apart, Bool.false_or, there, there',
                Option.all_some] at fine
              obtain ⟨empty, same⟩ := parts fine
              exact all.move (all target x there) there' empty same h
          · cases h

end Run

/-- In every run whose moves are all gentle, every worker's status tells the truth about its
parts, whatever workers there are and whatever is called on them. -/
theorem truthful_of_run [DecidableEq ι] [DecidableEq I] {pageSize : Nat}
    {ops : List (Op ι w S I)} {world : World ι w S I}
    (h : run (guarded (fun op world => gentle op world = true) (step pageSize)) (fun _ => none) ops
      = some world) {i : ι} {x : Worker w S I} (there : world i = some x) : Truthful x := by
  have all : AllInv world := by
    refine run_invariant (fun {op world world'} stepped all => ?_) h ?_
    · obtain ⟨fine, stepped⟩ := guarded_eq_some.mp stepped
      exact all.step fine stepped
    · intro i x none
      cases none
  exact (all i x there).toTruthful

/-- A worker is constructed and initialized; what a later move does is `last`. -/
def initialized (last : Op Nat 64 Unit Nat) : List (Op Nat 64 Unit Nat) :=
  [.construct 0, .init 0 () (some 7) (fun _ => 0) 0x1000 .drop, last]

/-- A worker that is started. -/
theorem truthful_of_run_started : ∃ world x,
    run (guarded (fun op world => gentle op world = true) (step 0x1000)) (fun _ => none)
      (initialized (.start 0)) = some world ∧ world 0 = some x ∧ Truthful x := by
  have runs : ((run (guarded (fun op world => gentle op world = true) (step 0x1000))
      (fun _ => none) (initialized (.start 0))).bind fun world => world 0).isSome = true := by
    decide +kernel
  obtain ⟨x, found⟩ := Option.isSome_iff_exists.mp runs
  obtain ⟨world, h, there⟩ := Option.bind_eq_some_iff.mp found
  exact ⟨world, x, h, there, truthful_of_run h there⟩

/-- A worker that is moved to a new one: the new one is initialized and has no interner. -/
theorem not_truthful_moved : ∃ world x,
    run (step 0x1000) (fun _ => none) (initialized (.moveConstruct 1 0)) = some world ∧
      world 1 = some x ∧ ¬ Truthful x := by
  have moved : ((run (step 0x1000) (fun _ => none) (initialized (.moveConstruct 1 0))).bind
      fun world => world 1).map (fun x => (x.status, x.interner)) =
      some (.initialized, none) := by decide +kernel
  obtain ⟨x, found, parts⟩ := Option.map_eq_some_iff.mp moved
  obtain ⟨world, h, there⟩ := Option.bind_eq_some_iff.mp found
  obtain ⟨status, interner⟩ := Prod.mk.inj parts
  refine ⟨world, x, h, there, fun truthful => ?_⟩
  obtain ⟨-, -, i, -, known⟩ := truthful.ready (.inl status)
  rw [interner] at known
  cases known

end Fpag.Logging.Lifecycle
