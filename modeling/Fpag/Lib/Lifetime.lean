import Mathlib.Data.Finset.Card
import Mathlib.Data.Finset.Insert
import Mathlib.Logic.Function.Basic

/-!
Lifetimes of objects in storage.

Code that places objects by hand constructs them in places and destroys them there. What it did is
a list of events; `Proper` says that each of them was allowed when it came: an object is destroyed
only where one of exactly its kind is alive, and none is constructed over one that is. Objects of a
`lax` kind need no destruction, and their places may be used again without one.

`balance` is the count that follows, and `Owned` the rule that proofs go by: an owner for each place
that says which object is there, kept in step with the events.
-/

namespace Fpag.Lifetime

variable {P K : Type}

inductive Event (P K : Type) : Type
  | constructed (place : P) (kind : K)
  | destroyed (place : P) (kind : K)
  deriving DecidableEq, Repr

variable [DecidableEq P] [DecidableEq K] {lax : K → Bool}

/-- The event is allowed among the objects that are alive. -/
def Event.Proper (lax : K → Bool) (alive : Finset (P × K)) : Event P K → Prop
  | .constructed p _ => ∀ x ∈ alive, x.1 = p → lax x.2 = true
  | .destroyed p k => (p, k) ∈ alive

instance (alive : Finset (P × K)) : DecidablePred (Event.Proper lax alive)
  | .constructed p _ => inferInstanceAs (Decidable (∀ x ∈ alive, x.1 = p → lax x.2 = true))
  | .destroyed p k => inferInstanceAs (Decidable ((p, k) ∈ alive))

/-- The objects that are alive after the event. -/
def Event.after (alive : Finset (P × K)) : Event P K → Finset (P × K)
  | .constructed p k => insert (p, k) (alive.filter fun x => x.1 ≠ p)
  | .destroyed p k => alive.erase (p, k)

/-- The objects that are alive after the events. -/
def after (alive : Finset (P × K)) (events : List (Event P K)) : Finset (P × K) :=
  events.foldl Event.after alive

/-- Every event is allowed when it comes. -/
def Proper (lax : K → Bool) : Finset (P × K) → List (Event P K) → Prop
  | _, [] => True
  | alive, e :: es => e.Proper lax alive ∧ Proper lax (e.after alive) es

instance Proper.decidable : ∀ (alive : Finset (P × K)) (es : List (Event P K)),
    Decidable (Proper lax alive es)
  | _, [] => isTrue trivial
  | alive, e :: es =>
      have := Proper.decidable (e.after alive) es
      inferInstanceAs (Decidable (e.Proper lax alive ∧ Proper lax (e.after alive) es))

def Event.constructs (k : K) : Event P K → Bool
  | .constructed _ j => decide (j = k)
  | .destroyed _ _ => false

def Event.destroys (k : K) : Event P K → Bool
  | .constructed _ _ => false
  | .destroyed _ j => decide (j = k)

def constructions (k : K) (events : List (Event P K)) : Nat := events.countP (Event.constructs k)

def destructions (k : K) (events : List (Event P K)) : Nat := events.countP (Event.destroys k)

variable {alive : Finset (P × K)} {e : Event P K} {es fs : List (Event P K)} {p : P} {k : K}

@[simp] theorem after_nil : after alive [] = alive := rfl

@[simp] theorem after_cons : after alive (e :: es) = after (e.after alive) es := rfl

@[simp] theorem after_append : after alive (es ++ fs) = after (after alive es) fs :=
  List.foldl_append ..

@[simp] theorem Proper.nil : Proper lax alive ([] : List (Event P K)) := trivial

theorem proper_cons : Proper lax alive (e :: es) ↔
    e.Proper lax alive ∧ Proper lax (e.after alive) es := Iff.rfl

theorem proper_singleton : Proper lax alive [e] ↔ e.Proper lax alive := by
  rw [proper_cons, and_iff_left Proper.nil]

theorem proper_append : Proper lax alive (es ++ fs) ↔
    Proper lax alive es ∧ Proper lax (after alive es) fs := by
  induction es generalizing alive with
  | nil => simp
  | cons e es ih =>
      rw [List.cons_append, proper_cons, proper_cons, ih, after_cons, and_assoc]

def Event.place : Event P K → P
  | .constructed p _ => p
  | .destroyed p _ => p

/-- Events at other places leave a place alone. -/
theorem mem_after_elsewhere (elsewhere : ∀ e ∈ es, e.place ≠ p) :
    (p, k) ∈ after alive es ↔ (p, k) ∈ alive := by
  induction es generalizing alive with
  | nil => exact Iff.rfl
  | cons e es ih =>
      rw [after_cons, ih fun f member => elsewhere f (List.mem_cons_of_mem _ member)]
      have other : e.place ≠ p := elsewhere e List.mem_cons_self
      cases e with
      | constructed q j =>
          have different : p ≠ q := other.symm
          simp [Event.after, different]
      | destroyed q j =>
          have different : p ≠ q := other.symm
          simp [Event.after, different]

/-- No two objects are in one place. -/
def Single (alive : Finset (P × K)) : Prop :=
  ∀ {p k j}, (p, k) ∈ alive → (p, j) ∈ alive → k = j

omit [DecidableEq P] [DecidableEq K] in
theorem Single.empty : Single (∅ : Finset (P × K)) := by
  intro p k j member
  exact absurd member (Finset.notMem_empty _)

theorem Single.after (single : Single alive) : Single (after alive es) := by
  induction es generalizing alive with
  | nil => exact single
  | cons e es ih =>
      refine ih ?_
      intro p k j left right
      cases e with
      | constructed q i =>
          simp only [Event.after, Finset.mem_insert, Finset.mem_filter, Prod.mk.injEq] at left right
          grind [Single]
      | destroyed q i =>
          exact single (Finset.mem_of_mem_erase left) (Finset.mem_of_mem_erase right)

/-! ## Counts -/

/-- The number of objects of one kind that are alive. -/
def living (k : K) (alive : Finset (P × K)) : Nat := (alive.filter fun x => x.2 = k).card

omit [DecidableEq P] in
theorem living_eq_zero : living k alive = 0 ↔ ∀ p, (p, k) ∉ alive := by
  rw [living, Finset.card_eq_zero, Finset.filter_eq_empty_iff]
  constructor
  · intro none p member
    exact none member rfl
  · rintro none ⟨p, j⟩ member rfl
    exact none p member

theorem living_constructed (strict : lax k = false) {j : K}
    (proper : (Event.constructed p j).Proper lax alive) :
    living k ((Event.constructed p j).after alive) = (if j = k then 1 else 0) + living k alive := by
  have others : (alive.filter fun x => x.1 ≠ p).filter (fun x => x.2 = k) =
      alive.filter fun x => x.2 = k := by
    rw [Finset.filter_filter]
    refine Finset.filter_congr fun x member => and_iff_right_of_imp ?_
    rintro kind rfl
    have := proper x member rfl
    simp [kind, strict] at this
  simp only [living, Event.after, Finset.filter_insert, others]
  split
  · next same =>
      have absent : (p, j) ∉ alive.filter fun x => x.2 = k := by
        rw [← others]
        simp
      rw [Finset.card_insert_of_notMem absent, Nat.add_comm]
  · rw [Nat.zero_add]

theorem living_destroyed {j : K} (proper : (Event.destroyed p j).Proper lax alive) :
    (if j = k then 1 else 0) + living k ((Event.destroyed p j).after alive) = living k alive := by
  simp only [living, Event.after]
  rw [Finset.filter_erase]
  split
  · next same =>
      have present : (p, j) ∈ alive.filter fun x => x.2 = k :=
        Finset.mem_filter.mpr ⟨proper, same⟩
      rw [Nat.add_comm, Finset.card_erase_add_one present]
  · next other =>
      have absent : (p, j) ∉ alive.filter fun x => x.2 = k := fun member =>
        other (Finset.mem_filter.mp member).2
      rw [Finset.erase_eq_of_notMem absent, Nat.zero_add]

/-- As many objects of a kind are constructed as are destroyed, up to those alive before and
after. -/
theorem balance (strict : lax k = false) (proper : Proper lax alive es) :
    constructions k es + living k alive = destructions k es + living k (after alive es) := by
  induction es generalizing alive with
  | nil => rfl
  | cons e es ih =>
      have rest := ih proper.2
      have first := proper.1
      rw [after_cons]
      cases e with
      | constructed p j =>
          have counted := living_constructed strict first
          simp only [constructions, destructions, List.countP_cons, Event.constructs,
            Event.destroys, decide_eq_true_eq, Bool.false_eq_true, if_false] at rest ⊢
          omega
      | destroyed p j =>
          have counted := living_destroyed (k := k) first
          simp only [constructions, destructions, List.countP_cons, Event.constructs,
            Event.destroys, decide_eq_true_eq, Bool.false_eq_true, if_false] at rest ⊢
          omega

/-- When nothing is alive any more, as many objects of a kind were destroyed as were
constructed. -/
theorem balance_of_empty (strict : lax k = false) (proper : Proper lax ∅ es)
    (none : after ∅ es = ∅) : constructions k es = destructions k es := by
  have counts := balance strict proper
  rwa [none, Nat.add_right_cancel_iff] at counts

/-! ## Owners -/

/-- The owner of a place says which object is there, of those that need a destruction. -/
def Owned (lax : K → Bool) (alive : Finset (P × K)) (owner : P → Option K) : Prop :=
  ∀ p k, lax k = false → ((p, k) ∈ alive ↔ owner p = some k)

section Owned

variable {owner : P → Option K}

omit [DecidableEq P] [DecidableEq K] in
theorem Owned.empty : Owned lax (∅ : Finset (P × K)) fun _ => none := by
  intro p k strict
  simp

omit [DecidableEq P] [DecidableEq K] in
theorem Owned.congr {owner' : P → Option K} (owned : Owned lax alive owner)
    (same : ∀ p, owner' p = owner p) : Owned lax alive owner' := by
  intro p k strict
  rw [same]
  exact owned p k strict

/-- What the owner says is there can be destroyed. -/
theorem Owned.destroyed (owned : Owned lax alive owner) (strict : lax k = false)
    (here : owner p = some k) :
    (Event.destroyed p k).Proper lax alive ∧
      Owned lax ((Event.destroyed p k).after alive) (Function.update owner p none) := by
  refine ⟨(owned p k strict).mpr here, ?_⟩
  intro q j strict'
  rw [Event.after, Finset.mem_erase, owned q j strict']
  by_cases same : q = p
  · subst same
    simp only [Function.update_self, reduceCtorEq, iff_false, not_and]
    intro other there
    exact other (by rw [Option.some.inj (here.symm.trans there)])
  · simp [same]

/-- Where the owner says that nothing is, an object can be constructed. -/
theorem Owned.constructed (owned : Owned lax alive owner) (free : owner p = none) :
    (Event.constructed p k).Proper lax alive ∧
      Owned lax ((Event.constructed p k).after alive)
        (Function.update owner p (if lax k then none else some k)) := by
  constructor
  · rintro ⟨q, j⟩ member rfl
    by_contra strict
    have there := (owned q j (Bool.eq_false_iff.mpr strict)).mp member
    exact Option.some_ne_none j (there.symm.trans free)
  intro q j strict'
  rw [Event.after, Finset.mem_insert, Finset.mem_filter, owned q j strict']
  by_cases same : q = p
  · subst same
    simp only [Prod.mk.injEq, true_and, ne_eq, not_true_eq_false, and_false, or_false,
      Function.update_self]
    split
    · next abandoned =>
        simp only [reduceCtorEq, iff_false]
        rintro rfl
        exact Bool.noConfusion (strict'.symm.trans abandoned)
    · rw [Option.some.injEq, eq_comm]
  · simp [same]

end Owned

end Fpag.Lifetime
