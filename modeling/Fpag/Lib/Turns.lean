import Fpag.Lib.Reader

/-!
The turns of a loop over a reader.

`repeated` and `gather` say what comes of a loop that gets to its end. Here the turns themselves
are what matters, those of a loop that a refusal ends included: where each of them began, where it
ended if it did, and whether it was worth an entry. If no turn that ends gives its bytes back, a
loop has at most as many turns as there are bytes, and one more that does not end.
-/

namespace Fpag.Reader

variable {C α : Type}

/-- A turn of a loop. -/
structure Turn (C : Type) : Type where
  start : C
  stop : Option C
  entry : Bool

/-- The turns of a loop of so many. -/
def counted (m : Reader C α) : Nat → C → List (Turn C)
  | 0, _ => []
  | n + 1, c =>
      match m.run c with
      | .ok (_, c') => ⟨c, some c', true⟩ :: counted m n c'
      | .error _ => [⟨c, none, false⟩]

/-- The turns of a loop up to the one that gives nothing. -/
def gathered (m : Reader C (Option α)) : Nat → C → List (Turn C)
  | 0, _ => []
  | fuel + 1, c =>
      match m.run c with
      | .ok (some _, c') => ⟨c, some c', true⟩ :: gathered m fuel c'
      | .ok (none, c') => [⟨c, some c', false⟩]
      | .error _ => [⟨c, none, false⟩]

/-- Every turn that ends, ends at a cursor that the one it began at is related to. -/
def Each (r : C → C → Prop) (turns : List (Turn C)) : Prop :=
  ∀ turn ∈ turns, ∀ c', turn.stop = some c' → r turn.start c'

section Each

variable {r : C → C → Prop} {turn : Turn C} {turns turns' : List (Turn C)}

theorem Each.nil : Each r [] := by
  rintro turn ⟨⟩

theorem each_cons : Each r (turn :: turns) ↔
    (∀ c', turn.stop = some c' → r turn.start c') ∧ Each r turns := List.forall_mem_cons

theorem each_append : Each r (turns ++ turns') ↔ Each r turns ∧ Each r turns' :=
  List.forall_mem_append

end Each

section Counted

variable {m : Reader C α} {Inv : C → Prop} {r : C → C → Prop} {n : Nat} {c : C}

/-- What a turn does from a cursor with the invariant that it keeps, all turns do. -/
theorem counted_each (inv : Inv c) (kept : Moves (fun c c' => Inv c → Inv c') m)
    (moves : Moves (fun c c' => Inv c → r c c') m) : Each r (counted m n c) := by
  induction n generalizing c with
  | zero => exact .nil
  | succ n ih =>
      rw [Reader.counted]
      split
      · next a c' run =>
          refine each_cons.mpr ⟨?_, ih (kept c a c' run inv)⟩
          rintro _ ⟨⟩
          exact moves c a c' run inv
      · refine each_cons.mpr ⟨?_, .nil⟩
        rintro _ ⟨⟩

/-- A loop that gets to its end has all of its turns, and an entry of each. -/
theorem counted_of_run {xs : List α} {c' : C} (run : (m.repeated n).run c = .ok (xs, c')) :
    (counted m n c).length = n ∧ (counted m n c).countP (·.entry) = xs.length := by
  induction n generalizing c xs with
  | zero =>
      cases run
      exact ⟨rfl, rfl⟩
  | succ n ih =>
      obtain ⟨a, c₁, one, run⟩ := run_bind_ok run
      obtain ⟨rest, c₂, others, run⟩ := run_bind_ok run
      cases run
      obtain ⟨length, entries⟩ := ih others
      constructor
      · simp only [counted, one, List.length_cons, length]
      · simp only [counted, one, List.countP_cons, entries, if_true, List.length_cons]

/-- A loop of turns that leave the cursor where it is has all of its turns, however many. -/
theorem counted_of_still (still : ∀ c, ∃ a, m.run c = .ok (a, c)) :
    (counted m n c).length = n ∧ (counted m n c).countP (·.entry) = n := by
  induction n with
  | zero => exact ⟨rfl, rfl⟩
  | succ n ih =>
      obtain ⟨a, run⟩ := still c
      constructor
      · simp only [counted, run, List.length_cons, ih.1]
      · simp only [counted, run, List.countP_cons, ih.2, if_true]

end Counted

section Gathered

variable {m : Reader C (Option α)} {Inv : C → Prop} {r : C → C → Prop} {n : Nat} {c : C}

theorem gathered_each (inv : Inv c) (kept : Moves (fun c c' => Inv c → Inv c') m)
    (moves : Moves (fun c c' => Inv c → r c c') m) : Each r (gathered m n c) := by
  induction n generalizing c with
  | zero => exact .nil
  | succ n ih =>
      rw [Reader.gathered]
      split
      · next a c' run =>
          refine each_cons.mpr ⟨?_, ih (kept c _ c' run inv)⟩
          rintro _ ⟨⟩
          exact moves c _ c' run inv
      · next c' run =>
          refine each_cons.mpr ⟨?_, .nil⟩
          rintro _ ⟨⟩
          exact moves c _ c' run inv
      · refine each_cons.mpr ⟨?_, .nil⟩
        rintro _ ⟨⟩

theorem gathered_of_run {xs : List α} {c' : C} (run : (gather m n).run c = .ok (xs, c')) :
    (gathered m n c).countP (·.entry) = xs.length := by
  induction n generalizing c xs with
  | zero => cases run
  | succ n ih =>
      obtain ⟨a, c₁, one, run⟩ := run_bind_ok run
      cases a with
      | none =>
          cases run
          simp only [gathered, one]
          rfl
      | some a =>
          obtain ⟨rest, c₂, others, run⟩ := run_bind_ok run
          cases run
          simp only [gathered, one, List.countP_cons, ih others, if_true, List.length_cons]

end Gathered

/-! ## How many turns there are -/

section Measure

variable {Inv : C → Prop} {position : C → Nat} {size : Nat}

/-- Turns that advance are at most as many as there are positions left, and one more that does
not end; a loop that gets to its end has no such turn. -/
theorem counted_length_le {m : Reader C α} {n : Nat} {c : C} (inv : Inv c)
    (inside : ∀ c, Inv c → position c ≤ size) (kept : Moves (fun c c' => Inv c → Inv c') m)
    (each : Each (fun c c' => position c < position c') (counted m n c)) :
    position c + (counted m n c).length ≤ size + 1 ∧
      ∀ xs c', (m.repeated n).run c = .ok (xs, c') →
        Inv c' ∧ position c + (counted m n c).length ≤ position c' := by
  induction n generalizing c with
  | zero =>
      refine ⟨(inside c inv).trans (Nat.le_succ _), ?_⟩
      rintro _ _ ⟨⟩
      exact ⟨inv, le_rfl⟩
  | succ n ih =>
      rw [counted] at each ⊢
      cases run : m.run c with
      | error stop =>
          refine ⟨Nat.succ_le_succ (inside c inv), fun xs c' whole => ?_⟩
          rw [repeated, run_bind_error run] at whole
          cases whole
      | ok pair =>
          obtain ⟨a, c₁⟩ := pair
          rw [run] at each
          obtain ⟨first, others⟩ := each_cons.mp each
          have ahead := first c₁ rfl
          obtain ⟨bound, whole⟩ := ih (kept c a c₁ run inv) others
          simp only [List.length_cons] at ahead ⊢
          refine ⟨by omega, fun xs c' all => ?_⟩
          rw [repeated, run_bind_eq run] at all
          obtain ⟨rest, c₂, others, all⟩ := run_bind_ok all
          cases all
          have := whole _ _ others
          exact ⟨this.1, by omega⟩

theorem gathered_length_le {m : Reader C (Option α)} {n : Nat} {c : C} (inv : Inv c)
    (inside : ∀ c, Inv c → position c ≤ size) (kept : Moves (fun c c' => Inv c → Inv c') m)
    (each : Each (fun c c' => position c < position c') (gathered m n c)) :
    position c + (gathered m n c).length ≤ size + 1 ∧
      ∀ xs c', (gather m n).run c = .ok (xs, c') →
        Inv c' ∧ position c + (gathered m n c).length ≤ position c' := by
  induction n generalizing c with
  | zero => exact ⟨(inside c inv).trans (Nat.le_succ _), by rintro _ _ ⟨⟩⟩
  | succ n ih =>
      rw [gathered] at each ⊢
      cases run : m.run c with
      | error stop =>
          refine ⟨Nat.succ_le_succ (inside c inv), fun xs c' whole => ?_⟩
          rw [gather, run_bind_error run] at whole
          cases whole
      | ok pair =>
          obtain ⟨a, c₁⟩ := pair
          have next := kept c a c₁ run inv
          cases a with
          | none =>
              rw [run] at each
              have ahead := (each_cons.mp each).1 c₁ rfl
              refine ⟨Nat.succ_le_succ (inside c inv), fun xs c' whole => ?_⟩
              rw [gather, run_bind_eq run] at whole
              cases whole
              exact ⟨next, ahead⟩
          | some a =>
              rw [run] at each
              obtain ⟨first, others⟩ := each_cons.mp each
              have ahead := first c₁ rfl
              obtain ⟨bound, whole⟩ := ih next others
              simp only [List.length_cons] at ahead ⊢
              refine ⟨by omega, fun xs c' all => ?_⟩
              rw [gather, run_bind_eq run] at all
              obtain ⟨rest, c₂, others, all⟩ := run_bind_ok all
              cases all
              have := whole _ _ others
              exact ⟨this.1, by omega⟩

/-- As many turns as positions are enough for a loop whose turns advance. -/
theorem gather_ends {m : Reader C (Option α)} {n : Nat} {c : C} (inv : Inv c)
    (inside : ∀ c, Inv c → position c ≤ size) (ends : HaltsOn Inv m)
    (kept : Moves (fun c c' => Inv c → Inv c') m)
    (ahead : Moves (fun c c' => Inv c → position c < position c') m)
    (enough : size - position c < n) : (gather m n).run c ≠ .error .running := by
  induction n generalizing c with
  | zero => exact absurd enough (Nat.not_lt_zero _)
  | succ n ih =>
      rw [gather]
      cases run : m.run c with
      | error stop =>
          rw [run_bind_error run]
          rintro ⟨⟩
          exact ends c inv run
      | ok pair =>
          obtain ⟨a, c₁⟩ := pair
          rw [run_bind_eq run]
          cases a with
          | none => rintro ⟨⟩
          | some a =>
              have next := kept c _ c₁ run inv
              have := ahead c _ c₁ run inv
              have := inside c₁ next
              intro whole
              have rest := ih next (by omega)
              cases others : (gather m n).run c₁ with
              | error stop =>
                  rw [run_bind_error others] at whole
                  cases whole
                  exact rest others
              | ok pair =>
                  rw [run_bind_eq others] at whole
                  cases whole

end Measure

end Fpag.Reader
