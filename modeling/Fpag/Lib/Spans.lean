import Mathlib.Data.List.Pairwise
import Mathlib.Order.Basic

/-!
Spans of time that open and end like the blocks of a program.

`Nest` is what such a discipline keeps: the starts that are open, the innermost first, and the
spans that are over, in the order in which they ended. Opening, ending and dropping are its
lemmas, and of any two spans that are over the earlier one lies before the later one or in it.
-/

namespace Fpag

structure Span : Type where
  start : Nat
  stop : Nat

namespace Span

/-- Of two spans the first is over before the second begins, or lies within it. -/
def Nests (a b : Span) : Prop := a.stop ≤ b.start ∨ (b.start ≤ a.start ∧ a.stop ≤ b.stop)

/-- The open starts and the spans that are over, at a point in time. -/
structure Nest (openings : List Nat) (done : List Span) (now : Nat) : Prop where
  ordered : openings.Pairwise fun inner outer => outer ≤ inner
  past : ∀ start ∈ openings, start ≤ now
  clean : ∀ span ∈ done, ∀ start ∈ openings, span.stop ≤ start ∨ start ≤ span.start
  ended : ∀ span ∈ done, span.start ≤ span.stop ∧ span.stop ≤ now
  nests : done.Pairwise Nests

namespace Nest

variable {openings openings' : List Nat} {done done' : List Span} {start now now' : Nat}

theorem nil (now : Nat) : Nest [] [] now := by
  constructor <;> simp

/-- Time passes. -/
theorem later (nest : Nest openings done now) (le : now ≤ now') : Nest openings done now' where
  ordered := nest.ordered
  past start member := Nat.le_trans (nest.past start member) le
  clean := nest.clean
  ended span member := ⟨(nest.ended span member).1, Nat.le_trans (nest.ended span member).2 le⟩
  nests := nest.nests

/-- Openings and spans may be dropped. -/
theorem sublist (nest : Nest openings done now) (fewer : openings'.Sublist openings)
    (fewer' : done'.Sublist done) : Nest openings' done' now where
  ordered := nest.ordered.sublist fewer
  past start member := nest.past start (fewer.subset member)
  clean span member start open_ := nest.clean span (fewer'.subset member) start (fewer.subset open_)
  ended span member := nest.ended span (fewer'.subset member)
  nests := nest.nests.sublist fewer'

/-- A span opens now. -/
theorem enter (nest : Nest openings done now) : Nest (now :: openings) done now where
  ordered := List.pairwise_cons.mpr ⟨nest.past, nest.ordered⟩
  past := List.forall_mem_cons.mpr ⟨Nat.le_refl now, nest.past⟩
  clean span member :=
    List.forall_mem_cons.mpr ⟨.inl (nest.ended span member).2, nest.clean span member⟩
  ended := nest.ended
  nests := nest.nests

/-- The innermost span ends now. -/
theorem leave (nest : Nest (start :: openings) done now) :
    Nest openings (done ++ [⟨start, now⟩]) now := by
  obtain ⟨first, ordered⟩ := List.pairwise_cons.mp nest.ordered
  obtain ⟨begun, past⟩ := List.forall_mem_cons.mp nest.past
  refine ⟨ordered, past, ?_, ?_, ?_⟩
  · intro span member outer open_
    rcases List.mem_append.mp member with old | new
    · exact nest.clean span old outer (List.mem_cons_of_mem _ open_)
    · rw [List.mem_singleton.mp new]
      exact .inr (first outer open_)
  · intro span member
    rcases List.mem_append.mp member with old | new
    · exact nest.ended span old
    · rw [List.mem_singleton.mp new]
      exact ⟨begun, Nat.le_refl now⟩
  · rw [List.pairwise_append]
    refine ⟨nest.nests, List.pairwise_singleton .., ?_⟩
    intro span old new member
    rw [List.mem_singleton.mp member]
    rcases nest.clean span old start List.mem_cons_self with before | within
    · exact .inl before
    · exact .inr ⟨within, (nest.ended span old).2⟩

end Nest

end Span

/-- What holds pairwise in every class of a list holds of the pairs of one class in the list. -/
theorem pairwise_of_classes {α κ : Type} [DecidableEq κ] {key : α → κ} {R : α → α → Prop}
    {l : List α} (each : ∀ k, (l.filter fun a => key a = k).Pairwise R) :
    l.Pairwise fun a b => key a = key b → R a b := by
  induction l with
  | nil => exact .nil
  | cons a rest ih =>
      rw [List.pairwise_cons]
      constructor
      · intro b member same
        have here := each (key a)
        rw [List.filter_cons, if_pos (by simp), List.pairwise_cons] at here
        exact here.1 b (List.mem_filter.mpr ⟨member, by simp [same]⟩)
      · refine ih fun k => (each k).sublist ?_
        exact (List.sublist_cons_self a rest).filter _

end Fpag
