import Mathlib.Tactic.Ring
import Fpag.Lib.MapM

/-!
Scheduled machines.

A concurrent program is given by a partial step function `step : E → S → Option S`:
an event `e` names the thread that moves and the choices its environment makes for
it, and `none` says that the event cannot happen in that state. A schedule is a
list of events, and `run` executes it. A state is reachable when some schedule
leads to it, so "for every interleaving" is a quantifier over schedules.

The rules here are the only inductions over schedules: `run_invariant` for what
holds in every reachable state, `run_relation` for what holds between a state and
a later one, `run_measure` for how long something can go on, and `seen_eq` for two
states that no schedule tells apart.
-/

namespace Fpag.Schedule

variable {S T E F : Type _}

/-- Execute a schedule from a state. -/
def run (step : E → S → Option S) : S → List E → Option S
  | s, [] => some s
  | s, e :: es => (step e s).bind fun s' => run step s' es

/-- The machine that refuses the events its callers promise not to cause. -/
def guarded (legal : E → S → Prop) [∀ e s, Decidable (legal e s)] (step : E → S → Option S) :
    E → S → Option S :=
  fun e s => if legal e s then step e s else none

variable {step : E → S → Option S}

@[simp] theorem run_nil (s : S) : run step s [] = some s := rfl

theorem run_cons_eq_some {s s' : S} {e : E} {es : List E} :
    run step s (e :: es) = some s' ↔ ∃ m, step e s = some m ∧ run step m es = some s' := by
  simp only [run, Option.bind_eq_some_iff]

theorem run_append_eq_some {s s' : S} {es fs : List E} :
    run step s (es ++ fs) = some s' ↔ ∃ m, run step s es = some m ∧ run step m fs = some s' := by
  induction es generalizing s with
  | nil => simp
  | cons e es ih =>
      simp only [List.cons_append, run_cons_eq_some, ih]
      constructor
      · rintro ⟨a, ha, b, hb, hc⟩
        exact ⟨b, ⟨a, ha, hb⟩, hc⟩
      · rintro ⟨b, ⟨a, ha, hb⟩, hc⟩
        exact ⟨a, ha, b, hb, hc⟩

/-- What one step preserves, every run preserves. -/
theorem run_invariant {I : S → Prop}
    (preserved : ∀ {e s s'}, step e s = some s' → I s → I s')
    {s s' : S} {es : List E} (h : run step s es = some s') (start : I s) : I s' := by
  induction es generalizing s with
  | nil =>
      cases h
      exact start
  | cons e es ih =>
      obtain ⟨m, hstep, hrest⟩ := run_cons_eq_some.mp h
      exact ih hrest (preserved hstep start)

/-- A preorder that every step respects relates the two ends of every run. -/
theorem run_relation {R : S → S → Prop} (refl : ∀ s, R s s)
    (trans : ∀ {a b c}, R a b → R b c → R a c)
    (respected : ∀ {e s s'}, step e s = some s' → R s s')
    {s s' : S} {es : List E} (h : run step s es = some s') : R s s' := by
  induction es generalizing s with
  | nil =>
      cases h
      exact refl _
  | cons e es ih =>
      obtain ⟨m, hstep, hrest⟩ := run_cons_eq_some.mp h
      exact trans (respected hstep) (ih hrest)

/-- A measure that no event raises and every counted event lowers, as long as the machine stays
busy, bounds the counted events of every run that ends busy. -/
theorem run_measure {I busy : S → Prop} {μ : S → Nat} {counted : E → Bool}
    (kept : ∀ {e s s'}, step e s = some s' → I s → I s')
    (lowers : ∀ {e s s'}, step e s = some s' → I s → busy s' →
      busy s ∧ μ s' + (if counted e then 1 else 0) ≤ μ s)
    {s s' : S} {es : List E} (h : run step s es = some s') (start : I s) (ends : busy s') :
    busy s ∧ μ s' + es.countP counted ≤ μ s := by
  induction es generalizing s with
  | nil =>
      cases h
      exact ⟨ends, Nat.le_refl _⟩
  | cons e es ih =>
      obtain ⟨m, hstep, hrest⟩ := run_cons_eq_some.mp h
      obtain ⟨stays, bound⟩ := ih hrest (kept hstep start)
      obtain ⟨before, less⟩ := lowers hstep start stays
      refine ⟨before, ?_⟩
      rw [List.countP_cons]
      omega

/-- A fold over the events that every step stays related to is related to the end of the run. -/
theorem run_foldl {next : T → E → T} {allowed : E → Prop} {R : T → S → Prop}
    (follows : ∀ {e t s s'}, allowed e → step e s = some s' → R t s → R (next t e) s')
    {s s' : S} {es : List E} (h : run step s es = some s') (all : ∀ e ∈ es, allowed e) {t : T}
    (related : R t s) : R (es.foldl next t) s' := by
  induction es generalizing s t with
  | nil =>
      cases h
      exact related
  | cons e es ih =>
      obtain ⟨m, moved, rest⟩ := run_cons_eq_some.mp h
      obtain ⟨first, others⟩ := List.forall_mem_cons.mp all
      exact ih rest others (follows first moved related)

/-- Forward simulation: if each event is either seen as an event of another machine, which then
moves along, or is not seen, a run is a run of that machine on what is seen. -/
theorem run_simulates {see : E → Option F} {step' : F → T → Option T} {R : S → T → Prop}
    (moves : ∀ {e f s s' t}, see e = some f → step e s = some s' → R s t →
      ∃ t', step' f t = some t' ∧ R s' t')
    (stutters : ∀ {e s s' t}, see e = none → step e s = some s' → R s t → R s' t)
    {s s' : S} {es : List E} (h : run step s es = some s') {t : T} (related : R s t) :
    ∃ t', run step' t (es.filterMap see) = some t' ∧ R s' t' := by
  induction es generalizing s t with
  | nil =>
      cases h
      exact ⟨t, rfl, related⟩
  | cons e es ih =>
      obtain ⟨m, moved, rest⟩ := run_cons_eq_some.mp h
      cases seen : see e with
      | none =>
          rw [List.filterMap_cons_none seen]
          exact ih rest (stutters seen moved related)
      | some f =>
          obtain ⟨n, follows, related'⟩ := moves seen moved related
          obtain ⟨t', ran, related''⟩ := ih rest related'
          rw [List.filterMap_cons_some seen]
          exact ⟨t', run_cons_eq_some.mpr ⟨n, follows, ran⟩, related''⟩

/-- What is seen of a schedule, up to the first event that cannot happen. -/
def seen {O : Type _} (step : E → S → Option S) (see : E → S → O) : S → List E → List O
  | _, [] => []
  | s, e :: es => see e s ::
      match step e s with
      | none => []
      | some s' => seen step see s' es

/-- States that are related look the same, if every event of a schedule looks the same in related
states and leads to related ones. -/
theorem seen_eq {O : Type _} {see : E → S → O} {R : S → S → Prop} {allowed : E → Prop}
    (same : ∀ {e s t}, allowed e → R s t → see e s = see e t)
    (steps : ∀ {e s t}, allowed e → R s t → Option.Rel R (step e s) (step e t))
    {s t : S} (related : R s t) {es : List E} (all : ∀ e ∈ es, allowed e) :
    seen step see s es = seen step see t es := by
  induction es generalizing s t with
  | nil => rfl
  | cons e es ih =>
      have first : allowed e := all e List.mem_cons_self
      have next := steps first related
      rw [seen, seen, same first related]
      generalize step e s = after, step e t = after' at next ⊢
      cases next with
      | none => rfl
      | some related' =>
          exact congrArg _ (ih related' fun e member => all e (List.mem_cons_of_mem _ member))

/-- Machines that are all given every event; an event that one of them refuses is refused. -/
def together (step : E → S → Option S) : E → List S → Option (List S) :=
  fun e l => l.mapM (step e)

/-- Machines that run together run as each of them does alone. -/
theorem run_together {l l' : List S} {es : List E} :
    run (together step) l es = some l' ↔ l.map (fun s => run step s es) = l'.map some := by
  induction es generalizing l l' with
  | nil =>
      simp only [run_nil, Option.some_inj]
      exact (List.map_injective_iff.mpr (Option.some_injective S)).eq_iff.symm
  | cons e es ih =>
      rw [run_cons_eq_some]
      constructor
      · rintro ⟨m, moved, rest⟩
        have first := mapM_eq_some_iff.mp moved
        have last := ih.mp rest
        calc l.map (fun s => run step s (e :: es))
            = (l.map (step e)).map (·.bind fun s => run step s es) := by
              rw [List.map_map]
              rfl
          _ = m.map (fun s => run step s es) := by
              rw [first, List.map_map]
              rfl
          _ = l'.map some := last
      · intro all
        induction l generalizing l' with
        | nil => exact ⟨[], rfl, ih.mpr all⟩
        | cons s rest each =>
            cases l' with
            | nil => cases all
            | cons s' rest' =>
                rw [List.map_cons, List.map_cons, List.cons.injEq] at all
                obtain ⟨m, moved, ran⟩ := run_cons_eq_some.mp all.1
                obtain ⟨ms, moved', ran'⟩ := each all.2
                refine ⟨m :: ms, mapM_eq_some_iff.mpr ?_, ih.mpr ?_⟩
                · rw [List.map_cons, List.map_cons, moved, mapM_eq_some_iff.mp moved']
                · rw [List.map_cons, List.map_cons, ran, ih.mp ran']

section Guarded

variable {legal : E → S → Prop} [∀ e s, Decidable (legal e s)]

theorem guarded_eq_some {e : E} {s s' : S} :
    guarded legal step e s = some s' ↔ legal e s ∧ step e s = some s' := by
  simp only [guarded]
  split <;> simp_all

/-- A run of the guarded machine is a run. -/
theorem run_of_guarded {s s' : S} {es : List E} (h : run (guarded legal step) s es = some s') :
    run step s es = some s' := by
  induction es generalizing s with
  | nil => exact h
  | cons e es ih =>
      obtain ⟨m, hstep, hrest⟩ := run_cons_eq_some.mp h
      exact run_cons_eq_some.mpr ⟨m, (guarded_eq_some.mp hstep).2, ih hrest⟩

/-- Every step of a run of the guarded machine is legal. -/
theorem legal_of_guarded {s s' m : S} {before after : List E} {e : E}
    (h : run (guarded legal step) s (before ++ e :: after) = some s')
    (reached : run step s before = some m) : legal e m := by
  obtain ⟨r, first, rest⟩ := run_append_eq_some.mp h
  have same : r = m := Option.some.inj ((run_of_guarded first).symm.trans reached)
  obtain ⟨r', next, -⟩ := run_cons_eq_some.mp rest
  rw [← same]
  exact (guarded_eq_some.mp next).1

/-- A run that is not one of the guarded machine has a step that is illegal. -/
theorem exists_illegal {s s' : S} {es : List E} (h : run step s es = some s')
    (refused : run (guarded legal step) s es ≠ some s') : ∃ before e after m m',
    es = before ++ e :: after ∧ run step s before = some m ∧ step e m = some m' ∧ ¬ legal e m := by
  induction es generalizing s with
  | nil => exact absurd h refused
  | cons e es ih =>
      obtain ⟨m, hstep, hrest⟩ := run_cons_eq_some.mp h
      by_cases fine : legal e s
      · have later : run (guarded legal step) m es ≠ some s' := fun run =>
          refused (run_cons_eq_some.mpr ⟨m, guarded_eq_some.mpr ⟨fine, hstep⟩, run⟩)
        obtain ⟨before, f, after, r, r', rfl, reached, moved, illegal⟩ := ih hrest later
        exact ⟨e :: before, f, after, r, r', rfl, run_cons_eq_some.mpr ⟨m, hstep, reached⟩, moved,
          illegal⟩
      · exact ⟨[], e, es, s, m, rfl, rfl, hstep, fine⟩

/-- If an illegal step leaves a trace that stays, a run that ends without the trace was legal. -/
theorem run_guarded_of_trace {I trace : S → Prop}
    (preserved : ∀ {e s s'}, step e s = some s' → I s → I s')
    (stays : ∀ {e s s'}, step e s = some s' → I s → trace s → trace s')
    (left : ∀ {e s}, I s → ¬ legal e s → trace s)
    {s s' : S} {es : List E} (h : run step s es = some s') (start : I s) (clean : ¬ trace s') :
    run (guarded legal step) s es = some s' ∧ ¬ trace s := by
  induction es generalizing s with
  | nil =>
      cases h
      exact ⟨rfl, clean⟩
  | cons e es ih =>
      obtain ⟨m, hstep, hrest⟩ := run_cons_eq_some.mp h
      obtain ⟨guarded_, before⟩ := ih hrest (preserved hstep start)
      have untouched : ¬ trace s := fun touched => before (stays hstep start touched)
      have fine : legal e s := by
        by_contra bad
        exact untouched (left start bad)
      exact ⟨run_cons_eq_some.mpr ⟨m, guarded_eq_some.mpr ⟨fine, hstep⟩, guarded_⟩, untouched⟩

end Guarded

end Fpag.Schedule
