import Mathlib.Data.List.Basic

/-!
Computations for the elements of a list, in order.

With computations that may give nothing, `l.mapM f` is a list if all of them give something:
`mapM_eq_some_iff` says it of the lists, and the other rules are read off it.
-/

namespace Fpag

section Options

variable {α β : Type _} {f g : α → Option β} {l : List α} {r : List β}

theorem mapM_eq_some_iff : l.mapM f = some r ↔ l.map f = r.map some := by
  induction l generalizing r with
  | nil =>
      rw [List.mapM_nil, List.map_nil, eq_comm (a := []), List.map_eq_nil_iff, eq_comm]
      exact Option.some_inj
  | cons a rest ih =>
      rw [List.mapM_cons, List.map_cons]
      cases first : f a with
      | none => cases r <;> simp
      | some b =>
          cases r with
          | nil => cases rest.mapM f <;> simp
          | cons b' rest' =>
              rw [List.map_cons, List.cons.injEq, ← ih]
              cases rest.mapM f <;> simp

theorem mapM_congr (same : ∀ a ∈ l, f a = g a) : l.mapM f = l.mapM g := by
  apply Option.ext
  intro r
  rw [mapM_eq_some_iff, mapM_eq_some_iff, List.map_congr_left same]

theorem exists_mapM (all : ∀ a ∈ l, (f a).isSome = true) : ∃ r, l.mapM f = some r := by
  induction l with
  | nil => exact ⟨[], rfl⟩
  | cons a l ih =>
      obtain ⟨first, one⟩ := Option.isSome_iff_exists.mp (all a List.mem_cons_self)
      obtain ⟨rest, more⟩ := ih fun a there => all a (List.mem_cons_of_mem _ there)
      refine ⟨first :: rest, mapM_eq_some_iff.mpr ?_⟩
      rw [List.map_cons, List.map_cons, one, mapM_eq_some_iff.mp more]

theorem getElem?_mapM (given : l.mapM f = some r) (i : Nat) : r[i]? = (l[i]?).bind f := by
  have each := congrArg (·[i]?) (mapM_eq_some_iff.mp given)
  simp only [List.getElem?_map] at each
  cases here : l[i]? with
  | none =>
      rw [here] at each
      exact Option.map_eq_none_iff.mp each.symm
  | some a =>
      rw [here] at each
      obtain ⟨b, listed, same⟩ := Option.map_eq_some_iff.mp each.symm
      rw [listed, Option.bind_some, ← same]

/-- The elements by their indices are the list. -/
theorem mapM_range {f : Nat → Option α} (same : ∀ i < l.length, f i = l[i]?) :
    (List.range l.length).mapM f = some l := by
  apply mapM_eq_some_iff.mpr
  apply List.ext_getElem
  · simp
  · intro i inside _
    rw [List.length_map, List.length_range] at inside
    simp [same i inside, inside]

end Options

/-- What computations in a row give one by one, if none of them fails. -/
theorem mapM_getElem? {α β ε : Type} {f : α → Except ε β} {l : List α} {r : List β}
    (all : l.mapM f = .ok r) {i : Nat} {a : α} (here : l[i]? = some a) :
    ∃ b, r[i]? = some b ∧ f a = .ok b := by
  induction l generalizing i r with
  | nil => cases here
  | cons first rest ih =>
      rw [List.mapM_cons] at all
      cases head : f first with
      | error stop =>
          rw [head] at all
          cases all
      | ok b =>
          rw [head] at all
          cases tail : rest.mapM f with
          | error stop =>
              change (rest.mapM f >>= _) = _ at all
              rw [tail] at all
              cases all
          | ok more =>
              change (rest.mapM f >>= _) = _ at all
              rw [tail] at all
              cases all
              cases i with
              | zero =>
                  cases here
                  exact ⟨b, rfl, head⟩
              | succ i => exact ih tail here

end Fpag
