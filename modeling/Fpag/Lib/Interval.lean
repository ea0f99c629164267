import Mathlib.Tactic.Ring
import Mathlib.Order.Interval.Finset.Nat
import Mathlib.Algebra.BigOperators.Group.List.Basic

/-!
Disjoint intervals of naturals: what they hold together is no more than what they lie
in.
-/

namespace Fpag

/-- Two half-open intervals that share no number. -/
def Disjointed (a b : Nat × Nat) : Prop := a.2 ≤ b.1 ∨ b.2 ≤ a.1

/-- The numbers in some interval of a list. -/
def covered : List (Nat × Nat) → Finset Nat
  | [] => ∅
  | a :: as => Finset.Ico a.1 a.2 ∪ covered as

theorem mem_covered {x : Nat} {as : List (Nat × Nat)} :
    x ∈ covered as ↔ ∃ a ∈ as, a.1 ≤ x ∧ x < a.2 := by
  induction as with
  | nil => simp [covered]
  | cons a as ih => simp [covered, ih]

theorem card_covered {as : List (Nat × Nat)} (apart : as.Pairwise Disjointed) :
    (covered as).card = (as.map fun a => a.2 - a.1).sum := by
  induction as with
  | nil => rfl
  | cons a as ih =>
      obtain ⟨others, rest⟩ := List.pairwise_cons.mp apart
      have separate : Disjoint (Finset.Ico a.1 a.2) (covered as) := by
        rw [Finset.disjoint_left]
        intro x inside elsewhere
        obtain ⟨b, hb, low, high⟩ := mem_covered.mp elsewhere
        rw [Finset.mem_Ico] at inside
        rcases others b hb with before | after
        · omega
        · omega
      rw [covered, Finset.card_union_of_disjoint separate, Nat.card_Ico, ih rest, List.map_cons,
        List.sum_cons]

/-- Disjoint intervals below `n` hold at most `n` numbers together. -/
theorem sum_length_le {as : List (Nat × Nat)} {n : Nat} (apart : as.Pairwise Disjointed)
    (inside : ∀ a ∈ as, a.2 ≤ n) : (as.map fun a => a.2 - a.1).sum ≤ n := by
  have below : covered as ⊆ Finset.range n := by
    intro x hx
    obtain ⟨a, ha, -, high⟩ := mem_covered.mp hx
    exact Finset.mem_range.mpr (high.trans_le (inside a ha))
  calc (as.map fun a => a.2 - a.1).sum = (covered as).card := (card_covered apart).symm
    _ ≤ (Finset.range n).card := Finset.card_le_card below
    _ = n := Finset.card_range n

end Fpag
