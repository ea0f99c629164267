import Mathlib.Tactic.Ring
import Mathlib.Data.List.TakeWhile
import Mathlib.Data.List.Basic

/-!
Sorting by a key, and the last element up to a bound.

`Sorts` is what an unstable sort promises: the elements in the order of their keys, and nothing
about the order of two with one key. In a sorted list the last element whose key does not
exceed a bound has the greatest such key, and every element with that key is the last one for
some sort.
-/

namespace Fpag

variable {α : Type} {key : α → Nat} {bound : Nat} {l : List α} {a : α}

/-- A sort by the key, which may be unstable. -/
structure Sorts (key : α → Nat) (sort : List α → List α) : Prop where
  perm : ∀ l, (sort l).Perm l
  ordered : ∀ l, (sort l).Pairwise fun a b => key a ≤ key b

/-- An element whose key does not exceed the bound, and is the greatest such key in the list. -/
structure IsLast (key : α → Nat) (bound : Nat) (l : List α) (a : α) : Prop where
  mem : a ∈ l
  below : key a ≤ bound
  greatest : ∀ b ∈ l, key b ≤ bound → key b ≤ key a

theorem IsLast.congr {l' : List α} (perm : l.Perm l') (last : IsLast key bound l a) :
    IsLast key bound l' a :=
  ⟨perm.mem_iff.mp last.mem, last.below,
    fun b member => last.greatest b (perm.mem_iff.mpr member)⟩

/-- What a sorted list has up to the bound is its beginning. -/
theorem takeWhile_eq_filter (ordered : l.Pairwise fun a b => key a ≤ key b) :
    l.takeWhile (fun a => key a ≤ bound) = l.filter fun a => key a ≤ bound := by
  induction l with
  | nil => rfl
  | cons a l ih =>
      obtain ⟨first, rest⟩ := List.pairwise_cons.mp ordered
      by_cases below : key a ≤ bound
      · rw [List.takeWhile_cons_of_pos (by simpa using below),
          List.filter_cons_of_pos (by simpa using below), ih rest]
      · rw [List.takeWhile_cons_of_neg (by simpa using below),
          List.filter_cons_of_neg (by simpa using below), eq_comm, List.filter_eq_nil_iff]
        intro b member
        have := first b member
        simp only [decide_eq_true_eq]
        omega

/-- In an ordered list every element comes before the last one. -/
theorem rel_getLast {r : α → α → Prop} (ordered : l.Pairwise r) (found : l.getLast? = some a) :
    ∀ b ∈ l, b = a ∨ r b a := by
  obtain ⟨front, rfl⟩ := List.getLast?_eq_some_iff.mp found
  intro b member
  rcases List.mem_append.mp member with before | here
  · exact .inr ((List.pairwise_append.mp ordered).2.2 b before a List.mem_cons_self)
  · exact .inl (List.mem_singleton.mp here)

theorem isLast_of_getLast (ordered : l.Pairwise fun a b => key a ≤ key b)
    (found : (l.takeWhile fun a => key a ≤ bound).getLast? = some a) : IsLast key bound l a := by
  rw [takeWhile_eq_filter ordered] at found
  have member := List.mem_of_getLast? found
  rw [List.mem_filter] at member
  refine ⟨member.1, by simpa using member.2, fun b listed below => ?_⟩
  have kept : b ∈ l.filter fun a => key a ≤ bound :=
    List.mem_filter.mpr ⟨listed, by simpa using below⟩
  rcases rel_getLast (ordered.filter _) found b kept with rfl | le
  · exact le_rfl
  · exact le

theorem getLast_eq_none (ordered : l.Pairwise fun a b => key a ≤ key b) :
    (l.takeWhile fun a => key a ≤ bound).getLast? = none ↔ ∀ a ∈ l, bound < key a := by
  rw [takeWhile_eq_filter ordered, List.getLast?_eq_none_iff, List.filter_eq_nil_iff]
  simp

/-! ## A sort for every last element -/

section Favour

variable [DecidableEq α]

/-- The order of the keys, with one element behind all others of its key. -/
def favour (key : α → Nat) (a x y : α) : Bool :=
  decide (key x < key y) || decide (key x = key y ∧ (x = a → y = a))

theorem favour_iff {x y : α} :
    favour key a x y = true ↔ key x < key y ∨ key x = key y ∧ (x = a → y = a) := by
  rw [favour, Bool.or_eq_true, decide_eq_true_eq, decide_eq_true_eq]

theorem favour_key {x y : α} (le : favour key a x y = true) : key x ≤ key y := by
  rw [favour_iff] at le
  omega

theorem favour_trans (x y z : α) (first : favour key a x y = true)
    (second : favour key a y z = true) : favour key a x z = true := by
  have le := favour_key second
  rw [favour_iff] at first second ⊢
  rcases first with less | ⟨same, goes⟩
  · exact .inl (by omega)
  · rcases second with less | ⟨same', goes'⟩
    · exact .inl (by omega)
    · exact .inr ⟨same.trans same', fun h => goes' (goes h)⟩

theorem favour_total (x y : α) : (favour key a x y || favour key a y x) = true := by
  rw [Bool.or_eq_true, favour_iff, favour_iff]
  by_cases same : key x = key y
  · by_cases here : x = a
    · exact .inr (.inr ⟨same.symm, fun _ => here⟩)
    · exact .inl (.inr ⟨same, fun h => absurd h here⟩)
  · rcases Nat.lt_or_gt_of_ne same with less | more
    · exact .inl (.inl less)
    · exact .inr (.inl more)

/-- Every element with the greatest key up to the bound is the last one for some sort. -/
theorem exists_sort_last (last : IsLast key bound l a) : ∃ sort, Sorts key sort ∧
    ((sort l).takeWhile fun a => key a ≤ bound).getLast? = some a := by
  let sort (l : List α) : List α := l.mergeSort (favour key a)
  have favoured (l : List α) : (sort l).Pairwise fun x y => favour key a x y = true :=
    List.pairwise_mergeSort favour_trans favour_total l
  have sorts : Sorts key sort :=
    ⟨fun l => List.mergeSort_perm l _, fun l => (favoured l).imp favour_key⟩
  refine ⟨sort, sorts, ?_⟩
  have moved := last.congr (sorts.perm l).symm
  have kept : a ∈ (sort l).filter fun a => key a ≤ bound :=
    List.mem_filter.mpr ⟨moved.mem, by simpa using moved.below⟩
  rw [takeWhile_eq_filter (sorts.ordered l)]
  cases found : ((sort l).filter fun a => key a ≤ bound).getLast? with
  | none =>
      rw [List.getLast?_eq_none_iff.mp found] at kept
      cases kept
  | some b =>
      rcases rel_getLast ((favoured l).filter _) found a kept with rfl | behind
      · rfl
      · have listed := List.mem_filter.mp (List.mem_of_getLast? found)
        have le := moved.greatest b listed.1 (by simpa using listed.2)
        rcases favour_iff.mp behind with less | ⟨-, goes⟩
        · omega
        · rw [goes rfl]

end Favour

end Fpag
