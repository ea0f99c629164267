import Mathlib.Tactic.Ring
import Mathlib.Data.List.Basic

/-!
Readers.

A reader works on a cursor of type `C` and either gives a value and moves the cursor, or
stops: it refuses its input, it touches something it must not touch, or it is still running
when its fuel is spent. `Keeps` is the rule for invariants of the cursor and the absence of
faults, `Answers` the one for readers that refuse nothing, `Gives` the one for what a value
is like whenever there is one, `Moves` the one for where the cursor goes, and `Halts` the one
for readers that come to an end; all are proved of a reader by walking down its binds.
-/

namespace Fpag

/-- Why a reader ended without a value. -/
inductive Stop : Type
  | refused
  | fault
  | running
  deriving DecidableEq, Repr

/-- A computation over a cursor that may stop. -/
abbrev Reader (C α : Type) : Type := StateT C (Except Stop) α

namespace Reader

variable {C α β : Type}

/-- Go on only if the condition holds. -/
def require (condition : Bool) : Reader C Unit :=
  if condition then pure () else throw .refused

/-- A computation that does not look at the cursor. -/
def ofExcept (result : Except Stop α) : Reader C α := fun c => result.map fun a => (a, c)

/-- The value of a reader on a cursor of its own, or nothing when it refuses. -/
def attempt (m : Reader C α) (c : C) : Except Stop (Option α) :=
  match m.run c with
  | .ok (a, _) => .ok (some a)
  | .error .refused => .ok none
  | .error stop => .error stop

/-- Go on with the value of a reader, or with a default where it refuses. -/
def orElse (m : Reader C α) (default : β) (f : α → Reader C β) : Reader C β := fun c =>
  match m.run c with
  | .ok (a, c') => (f a).run c'
  | .error .refused => .ok (default, c)
  | .error stop => .error stop

/-- The values of as many runs of a reader. -/
def repeated (m : Reader C α) : Nat → Reader C (List α)
  | 0 => pure []
  | n + 1 => do
      let a ← m
      let rest ← repeated m n
      pure (a :: rest)

/-- The values of a reader up to the run that gives none, which is the last one. -/
def gather (m : Reader C (Option α)) : Nat → Reader C (List α)
  | 0 => throw .running
  | fuel + 1 => do
      match ← m with
      | none => pure []
      | some a => do
          let rest ← gather m fuel
          pure (a :: rest)

theorem run_bind_eq {m : Reader C α} {f : α → Reader C β} {c c' : C} {a : α}
    (h : m.run c = .ok (a, c')) : (m >>= f).run c = (f a).run c' := by
  rw [StateT.run_bind, h]
  rfl

theorem run_bind_error {m : Reader C α} {f : α → Reader C β} {c : C} {stop : Stop}
    (h : m.run c = .error stop) : (m >>= f).run c = .error stop := by
  rw [StateT.run_bind, h]
  rfl

theorem run_bind_ok {m : Reader C α} {f : α → Reader C β} {c c'' : C} {b : β}
    (h : (m >>= f).run c = .ok (b, c'')) :
    ∃ a c', m.run c = .ok (a, c') ∧ (f a).run c' = .ok (b, c'') := by
  cases hm : m.run c with
  | error stop =>
      rw [run_bind_error hm] at h
      cases h
  | ok pair => exact ⟨pair.1, pair.2, rfl, by rw [← run_bind_eq hm, h]⟩

theorem run_require_bind {condition : Bool} {f : Unit → Reader C β} {c : C}
    (holds : condition = true) : (require condition >>= f).run c = (f ()).run c := by
  rw [require, if_pos holds]
  rfl

theorem run_require_refused {condition : Bool} {f : Unit → Reader C β} {c : C}
    (fails : condition = false) : (require condition >>= f).run c = .error .refused := by
  rw [require, if_neg (by simp [fails])]
  rfl

theorem run_require_ok {condition : Bool} {f : Unit → Reader C β} {c c' : C} {b : β}
    (h : (require condition >>= f).run c = .ok (b, c')) :
    condition = true ∧ (f ()).run c = .ok (b, c') := by
  cases condition with
  | true => exact ⟨rfl, by rw [← h, run_require_bind rfl]⟩
  | false =>
      rw [run_require_refused rfl] at h
      cases h

theorem run_get_ok {f : C → Reader C β} {c c' : C} {b : β}
    (h : ((get : Reader C C) >>= f).run c = .ok (b, c')) : (f c).run c = .ok (b, c') := h

theorem run_orElse (m : Reader C α) (default : β) (f : α → Reader C β) (c : C) :
    (m.orElse default f).run c = match m.run c with
      | .ok (a, c') => (f a).run c'
      | .error .refused => .ok (default, c)
      | .error stop => .error stop := rfl

/-- Where a reader with a default gives a value, it is the default or what follows the reader. -/
theorem run_orElse_ok {m : Reader C α} {default : β} {f : α → Reader C β} {c c' : C} {b : β}
    (h : (m.orElse default f).run c = .ok (b, c')) :
    b = default ∨ ∃ a c₁, m.run c = .ok (a, c₁) ∧ (f a).run c₁ = .ok (b, c') := by
  rw [run_orElse] at h
  split at h
  · next a c₁ found => exact .inr ⟨a, c₁, found, h⟩
  · cases h
    exact .inl rfl
  · cases h

theorem run_ofExcept_ok {result : Except Stop α} {c c' : C} {a : α}
    (h : (ofExcept result : Reader C α).run c = .ok (a, c')) : result = .ok a ∧ c' = c := by
  cases result with
  | error stop => cases h
  | ok b =>
      cases h
      exact ⟨rfl, rfl⟩

/-- An attempt that gives something is a run of the reader. -/
theorem attempt_some {m : Reader C α} {c : C} {a : α} (h : m.attempt c = .ok (some a)) :
    ∃ c', m.run c = .ok (a, c') := by
  unfold attempt at h
  split at h
  · next b c' found =>
      cases h
      exact ⟨c', found⟩
  · cases h
  · cases h

/-! ## What never happens -/

/-- From a cursor with the invariant the reader comes to one with the invariant, or it stops
without a fault. -/
def Keeps (Inv : C → Prop) (m : Reader C α) : Prop :=
  ∀ c, Inv c → (∀ a c', m.run c = .ok (a, c') → Inv c') ∧ m.run c ≠ .error .fault

section Keeps

variable {Inv : C → Prop} {m : Reader C α} {f : α → Reader C β}

theorem Keeps.pure (a : α) : Keeps Inv (Pure.pure a : Reader C α) := by
  intro c inv
  refine ⟨?_, by rintro ⟨⟩⟩
  rintro _ _ ⟨⟩
  exact inv

theorem Keeps.refused : Keeps Inv (throw .refused : Reader C α) :=
  fun _ _ => ⟨by rintro _ _ ⟨⟩, by rintro ⟨⟩⟩

theorem Keeps.running : Keeps Inv (throw .running : Reader C α) :=
  fun _ _ => ⟨by rintro _ _ ⟨⟩, by rintro ⟨⟩⟩

theorem Keeps.bind (first : Keeps Inv m) (then_ : ∀ a, Keeps Inv (f a)) : Keeps Inv (m >>= f) := by
  intro c inv
  obtain ⟨kept, safe⟩ := first c inv
  cases hm : m.run c with
  | error stop =>
      rw [run_bind_error hm]
      refine ⟨by rintro _ _ ⟨⟩, ?_⟩
      rintro ⟨⟩
      exact safe hm
  | ok pair =>
      obtain ⟨a, c'⟩ := pair
      rw [run_bind_eq hm]
      exact then_ a c' (kept a c' hm)

theorem Keeps.require (condition : Bool) : Keeps Inv (Reader.require condition) := by
  unfold Reader.require
  split
  · exact .pure ()
  · exact .refused

theorem Keeps.get : Keeps Inv (MonadState.get : Reader C C) := by
  intro c inv
  refine ⟨?_, by rintro ⟨⟩⟩
  rintro _ _ ⟨⟩
  exact inv

theorem Keeps.ofExcept {result : Except Stop α} (safe : result ≠ .error .fault) :
    Keeps Inv (Reader.ofExcept result) := by
  intro c inv
  cases result with
  | error stop => exact ⟨by rintro _ _ ⟨⟩, by rintro ⟨⟩; exact safe rfl⟩
  | ok a =>
      refine ⟨?_, by rintro ⟨⟩⟩
      rintro _ _ ⟨⟩
      exact inv

theorem Keeps.attempt (safe : Keeps Inv m) {c : C} (inv : Inv c) :
    m.attempt c ≠ .error .fault := by
  have no := (safe c inv).2
  unfold Reader.attempt
  split
  · rintro ⟨⟩
  · rintro ⟨⟩
  · next stop _ found =>
      rintro ⟨⟩
      exact no found

theorem Keeps.orElse {default : β} (first : Keeps Inv m) (then_ : ∀ a, Keeps Inv (f a)) :
    Keeps Inv (m.orElse default f) := by
  intro c inv
  obtain ⟨kept, safe⟩ := first c inv
  rw [run_orElse]
  split
  · next a c' found => exact then_ a c' (kept a c' found)
  · refine ⟨?_, by rintro ⟨⟩⟩
    rintro _ _ ⟨⟩
    exact inv
  · next stop _ found =>
      refine ⟨by rintro _ _ ⟨⟩, ?_⟩
      rintro ⟨⟩
      exact safe found

theorem Keeps.repeated (one : Keeps Inv m) (n : Nat) : Keeps Inv (m.repeated n) := by
  induction n with
  | zero => exact .pure []
  | succ n ih => exact .bind one fun _ => .bind ih fun _ => .pure _

theorem Keeps.ite {condition : Prop} [Decidable condition] {m' : Reader C α}
    (yes : Keeps Inv m) (no : Keeps Inv m') : Keeps Inv (if condition then m else m') := by
  split
  · exact yes
  · exact no

end Keeps

/-! ## Computations without a cursor -/

/-- The computation does not end in a fault. -/
def Harmless (result : Except Stop α) : Prop := result ≠ .error .fault

section Harmless

variable {x : Except Stop α} {f : α → Except Stop β}

theorem Harmless.ok (a : α) : Harmless (.ok a) := by
  rintro ⟨⟩

theorem Harmless.bind (first : Harmless x) (then_ : ∀ a, x = .ok a → Harmless (f a)) :
    Harmless (x >>= f) := by
  cases x with
  | error stop =>
      rintro ⟨⟩
      exact first rfl
  | ok a => exact then_ a rfl

theorem bind_eq_ok {b : β} (h : (x >>= f) = .ok b) : ∃ a, x = .ok a ∧ f a = .ok b := by
  cases x with
  | error stop => cases h
  | ok a => exact ⟨a, rfl, h⟩

theorem Harmless.ite {condition : Prop} [Decidable condition] {y : Except Stop α}
    (yes : Harmless x) (no : Harmless y) : Harmless (if condition then x else y) := by
  split
  · exact yes
  · exact no

end Harmless

/-! ## What is never refused -/

/-- The computation does not end in a refusal. -/
def Answered (result : Except Stop α) : Prop := result ≠ .error .refused

/-- The reader refuses nothing. -/
def Answers (m : Reader C α) : Prop := ∀ c, Answered (m.run c)

section Answers

variable {x : Except Stop α} {g : α → Except Stop β} {m : Reader C α} {f : α → Reader C β}

theorem Answered.ok (a : α) : Answered (.ok a) := by
  rintro ⟨⟩

theorem Answered.bind (first : Answered x) (then_ : ∀ a, Answered (g a)) : Answered (x >>= g) := by
  cases x with
  | error stop =>
      rintro ⟨⟩
      exact first rfl
  | ok a => exact then_ a

theorem Answered.ite {condition : Prop} [Decidable condition] {y : Except Stop α}
    (yes : Answered x) (no : Answered y) : Answered (if condition then x else y) := by
  split
  · exact yes
  · exact no

theorem Answered.attempt (m : Reader C α) (c : C) : Answered (m.attempt c) := by
  unfold Reader.attempt
  split
  · rintro ⟨⟩
  · rintro ⟨⟩
  · next stop other _ =>
      rintro ⟨⟩
      exact other rfl

/-- What neither faults nor refuses and comes to an end has a value. -/
theorem Answered.exists_ok (answered : Answered x) (harmless : Harmless x)
    (ends : x ≠ .error .running) : ∃ a, x = .ok a := by
  cases x with
  | ok a => exact ⟨a, rfl⟩
  | error stop =>
      cases stop with
      | refused => exact absurd rfl answered
      | fault => exact absurd rfl harmless
      | running => exact absurd rfl ends

theorem Answers.pure (a : α) : Answers (Pure.pure a : Reader C α) := by
  rintro c ⟨⟩

theorem Answers.ofExcept (answered : Answered x) : Answers (Reader.ofExcept x : Reader C α) := by
  intro c
  cases x with
  | error stop =>
      rintro ⟨⟩
      exact answered rfl
  | ok a => rintro ⟨⟩

theorem Answers.bind (first : Answers m) (then_ : ∀ a, Answers (f a)) : Answers (m >>= f) := by
  intro c
  cases run : m.run c with
  | error stop =>
      rw [run_bind_error run]
      rintro ⟨⟩
      exact first c run
  | ok pair =>
      rw [run_bind_eq run]
      exact then_ pair.1 pair.2

theorem Answers.orElse {default : β} (then_ : ∀ a, Answers (f a)) :
    Answers (m.orElse default f) := by
  intro c
  rw [run_orElse]
  split
  · next a c' _ => exact then_ a c'
  · rintro ⟨⟩
  · next stop other _ =>
      rintro ⟨⟩
      exact other rfl

theorem Answers.ite {condition : Prop} [Decidable condition] {n : Reader C α}
    (yes : Answers m) (no : Answers n) : Answers (if condition then m else n) := by
  split
  · exact yes
  · exact no

end Answers

/-! ## What a value is like -/

/-- Whatever the reader gives has the property. -/
def Gives (m : Reader C α) (P : α → Prop) : Prop := ∀ c a c', m.run c = .ok (a, c') → P a

section Gives

variable {m : Reader C α} {f : α → Reader C β} {P : β → Prop}

theorem Gives.bind (then_ : ∀ a, Gives (f a) P) : Gives (m >>= f) P := by
  intro c b c'' h
  obtain ⟨a, c', -, hf⟩ := run_bind_ok h
  exact then_ a c' b c'' hf

theorem Gives.pure {b : β} (holds : P b) : Gives (Pure.pure b : Reader C β) P := by
  rintro c _ _ ⟨⟩
  exact holds

theorem Gives.refused : Gives (throw .refused : Reader C β) P := by
  rintro c _ _ ⟨⟩

theorem Gives.ite {condition : Prop} [Decidable condition] {m m' : Reader C β}
    (yes : Gives m P) (no : Gives m' P) : Gives (if condition then m else m') P := by
  split
  · exact yes
  · exact no

end Gives

/-! ## Where the cursor goes -/

/-- Wherever the reader ends with a value, the cursor is related to the one it began at. -/
def Moves (r : C → C → Prop) (m : Reader C α) : Prop := ∀ c a c', m.run c = .ok (a, c') → r c c'

section Moves

variable {r : C → C → Prop} {m : Reader C α} {f : α → Reader C β}

theorem Moves.pure (refl : ∀ c, r c c) (a : α) : Moves r (Pure.pure a : Reader C α) := by
  rintro c _ _ ⟨⟩
  exact refl c

theorem Moves.refused : Moves r (throw .refused : Reader C α) := by
  rintro c _ _ ⟨⟩

theorem Moves.bind (trans : ∀ {a b c}, r a b → r b c → r a c) (first : Moves r m)
    (then_ : ∀ a, Moves r (f a)) : Moves r (m >>= f) := by
  intro c b c'' h
  obtain ⟨a, c', hm, hf⟩ := run_bind_ok h
  exact trans (first c a c' hm) (then_ a c' b c'' hf)

/-- Two relations one behind the other. -/
theorem Moves.comp {s t : C → C → Prop} (comp : ∀ {a b c}, r a b → s b c → t a c)
    (first : Moves r m) (then_ : ∀ a, Moves s (f a)) : Moves t (m >>= f) := by
  intro c b c'' h
  obtain ⟨a, c', hm, hf⟩ := run_bind_ok h
  exact comp (first c a c' hm) (then_ a c' b c'' hf)

theorem Moves.weaken {s : C → C → Prop} (weaker : ∀ {a b}, r a b → s a b) (moves : Moves r m) :
    Moves s m := fun c a c' h => weaker (moves c a c' h)

theorem Moves.running : Moves r (throw .running : Reader C α) := by
  rintro c _ _ ⟨⟩

theorem Moves.get (refl : ∀ c, r c c) : Moves r (MonadState.get : Reader C C) := by
  rintro c _ _ ⟨⟩
  exact refl c

theorem Moves.require (refl : ∀ c, r c c) (condition : Bool) :
    Moves r (Reader.require condition : Reader C Unit) := by
  cases condition with
  | true => exact .pure refl ()
  | false => exact .refused

theorem Moves.ofExcept (refl : ∀ c, r c c) (result : Except Stop α) :
    Moves r (Reader.ofExcept result : Reader C α) := by
  intro c a c' h
  obtain ⟨-, rfl⟩ := run_ofExcept_ok h
  exact refl c'

theorem Moves.ite {condition : Prop} [Decidable condition] {m' : Reader C α}
    (yes : Moves r m) (no : Moves r m') : Moves r (if condition then m else m') := by
  split
  · exact yes
  · exact no

theorem Moves.repeated (refl : ∀ c, r c c) (trans : ∀ {a b c}, r a b → r b c → r a c)
    (one : Moves r m) (n : Nat) : Moves r (m.repeated n) := by
  induction n with
  | zero => exact .pure refl []
  | succ n ih => exact .bind trans one fun _ => .bind trans ih fun _ => .pure refl _

end Moves

/-! ## Readers without an end -/

/-- The reader comes to an end, with a value or without. -/
def Halts (m : Reader C α) : Prop := ∀ c, m.run c ≠ .error .running

section Halts

variable {m : Reader C α} {f : α → Reader C β}

theorem Halts.pure (a : α) : Halts (Pure.pure a : Reader C α) := by
  rintro c ⟨⟩

theorem Halts.refused : Halts (throw .refused : Reader C α) := by
  rintro c ⟨⟩

theorem Halts.bind (first : Halts m) (then_ : ∀ a, Halts (f a)) : Halts (m >>= f) := by
  intro c h
  cases hm : m.run c with
  | error stop =>
      rw [run_bind_error hm] at h
      cases h
      exact first c hm
  | ok pair =>
      rw [run_bind_eq hm] at h
      exact then_ pair.1 pair.2 h

theorem Halts.require (condition : Bool) : Halts (Reader.require condition : Reader C Unit) := by
  cases condition with
  | true => exact .pure ()
  | false => exact .refused

theorem Halts.get : Halts (MonadState.get : Reader C C) := by
  rintro c ⟨⟩

theorem Halts.ite {condition : Prop} [Decidable condition] {m' : Reader C α}
    (yes : Halts m) (no : Halts m') : Halts (if condition then m else m') := by
  split
  · exact yes
  · exact no

theorem Halts.attempt (halts : Halts m) (c : C) : m.attempt c ≠ .error .running := by
  have no := halts c
  unfold Reader.attempt
  split
  · rintro ⟨⟩
  · rintro ⟨⟩
  · next stop _ found =>
      rintro ⟨⟩
      exact no found

theorem Halts.repeated (one : Halts m) (n : Nat) : Halts (m.repeated n) := by
  induction n with
  | zero => exact .pure []
  | succ n ih => exact .bind one fun _ => .bind ih fun _ => .pure _

end Halts

/-! ## Readers that come to an end from some cursors -/

/-- From a cursor with the invariant the reader comes to an end. -/
def HaltsOn (Inv : C → Prop) (m : Reader C α) : Prop := ∀ c, Inv c → m.run c ≠ .error .running

section HaltsOn

variable {Inv : C → Prop} {m : Reader C α} {f : α → Reader C β}

theorem Halts.on (halts : Halts m) : HaltsOn Inv m := fun c _ => halts c

theorem HaltsOn.bind (first : HaltsOn Inv m) (kept : Moves (fun c c' => Inv c → Inv c') m)
    (then_ : ∀ a, HaltsOn Inv (f a)) : HaltsOn Inv (m >>= f) := by
  intro c inv h
  cases hm : m.run c with
  | error stop =>
      rw [run_bind_error hm] at h
      cases h
      exact first c inv hm
  | ok pair =>
      rw [run_bind_eq hm] at h
      exact then_ pair.1 pair.2 (kept c _ _ hm inv) h

theorem HaltsOn.map (ends : HaltsOn Inv m) (g : α → β) :
    HaltsOn Inv (m >>= fun a => Pure.pure (g a)) := by
  intro c inv h
  cases hm : m.run c with
  | error stop =>
      rw [run_bind_error hm] at h
      cases h
      exact ends c inv hm
  | ok pair =>
      rw [run_bind_eq hm] at h
      cases h

theorem HaltsOn.ite {condition : Prop} [Decidable condition] {m' : Reader C α}
    (yes : HaltsOn Inv m) (no : HaltsOn Inv m') : HaltsOn Inv (if condition then m else m') := by
  split
  · exact yes
  · exact no

theorem HaltsOn.repeated (one : HaltsOn Inv m) (kept : Moves (fun c c' => Inv c → Inv c') m)
    (n : Nat) : HaltsOn Inv (m.repeated n) := by
  induction n with
  | zero => exact (Halts.pure []).on
  | succ n ih =>
      have keptAll : Moves (fun c c' => Inv c → Inv c') (m.repeated n) :=
        .repeated (fun _ inv => inv) (fun first second inv => second (first inv)) kept n
      exact .bind one kept fun _ => .bind ih keptAll fun _ => (Halts.pure _).on

theorem HaltsOn.attempt (halts : HaltsOn Inv m) {c : C} (inv : Inv c) :
    m.attempt c ≠ .error .running := by
  have no := halts c inv
  unfold Reader.attempt
  split
  · rintro ⟨⟩
  · rintro ⟨⟩
  · next stop _ found =>
      rintro ⟨⟩
      exact no found

end HaltsOn

end Reader

end Fpag
