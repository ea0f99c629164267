import Mathlib.Data.List.Nodup
import Mathlib.Control.Monad.Basic

/-!
Memories of what was computed.

`remember` computes a value the first time that it is asked for, and remembers it. `Transparent` is
the rule for what is computed with such a memory: it comes out as without one, whatever is
remembered, and it is proved by walking down the binds. Behind it stands `Coherent`: every value
that is remembered is the one that would be computed, and none was computed twice.
-/

namespace Fpag.Memo

variable {α β γ δ ε : Type}

/-- A computation that has a memory and may fail. -/
abbrev Recalling (α β ε γ : Type) : Type := StateT (List (α × β)) (Except ε) γ

/-- What was remembered, or else what is computed now. -/
def remember [DecidableEq α] (compute : α → Except ε β) (a : α) : Recalling α β ε β := fun known =>
  match known.find? (·.1 = a) with
  | some entry => .ok (entry.2, known)
  | none => (compute a).map fun b => (b, known ++ [(a, b)])

/-- A computation that makes no use of the memory. -/
def plain (result : Except ε γ) : Recalling α β ε γ := fun known => result.map fun c => (c, known)

/-- One computation for each element, in order. -/
def each (f : γ → Recalling α β ε δ) : List γ → Recalling α β ε (List δ)
  | [] => pure []
  | c :: rest => do
      let d ← f c
      let more ← each f rest
      pure (d :: more)

/-- The memory has only what is computed, and each of it once. -/
structure Coherent (compute : α → Except ε β) (known : List (α × β)) : Prop where
  computed : ∀ entry ∈ known, compute entry.1 = .ok entry.2
  once : (known.map Prod.fst).Nodup

theorem coherent_nil (compute : α → Except ε β) : Coherent compute [] := by
  constructor
  · intro entry member
    cases member
  · exact List.nodup_nil

variable {compute : α → Except ε β}

/-- A computation with a memory gives what the one without does, and what it adds to the memory are
the values that it asks for. -/
structure Transparent (compute : α → Except ε β) (m : Recalling α β ε γ) (result : Except ε γ)
    (asks : List α) : Prop where
  same : ∀ known, Coherent compute known → (m known).map Prod.fst = result
  keeps : ∀ known c known', Coherent compute known → m known = .ok (c, known') →
    Coherent compute known' ∧
      ∀ a, a ∈ known'.map Prod.fst ↔ a ∈ known.map Prod.fst ∨ a ∈ asks

/-- What is remembered is not computed again. -/
theorem remember_transparent [DecidableEq α] (a : α) :
    Transparent compute (remember compute a) (compute a) [a] := by
  constructor
  · intro known coherent
    rw [remember]
    cases found : known.find? (·.1 = a) with
    | some entry =>
        have here : entry.1 = a := by simpa using List.find?_some found
        have computed := coherent.computed entry (List.mem_of_find?_eq_some found)
        rw [← here, computed]
        rfl
    | none => cases h : compute a <;> rfl
  · intro known b known' coherent ran
    rw [remember] at ran
    cases found : known.find? (·.1 = a) with
    | some entry =>
        rw [found] at ran
        cases ran
        have here : entry.1 = a := by simpa using List.find?_some found
        have member : a ∈ known.map Prod.fst :=
          List.mem_map.mpr ⟨entry, List.mem_of_find?_eq_some found, here⟩
        refine ⟨coherent, fun x => ?_⟩
        rw [List.mem_singleton]
        constructor
        · exact .inl
        · rintro (known_ | rfl)
          · exact known_
          · exact member
    | none =>
        rw [found] at ran
        cases h : compute a with
        | error stop =>
            rw [h] at ran
            cases ran
        | ok b =>
            rw [h] at ran
            cases ran
            have new : a ∉ known.map Prod.fst := by
              intro member
              obtain ⟨entry, listed, rfl⟩ := List.mem_map.mp member
              have other := List.find?_eq_none.mp found entry listed
              simp at other
            refine ⟨⟨?_, ?_⟩, fun x => ?_⟩
            · intro entry member
              rcases List.mem_append.mp member with old | here
              · exact coherent.computed entry old
              · rw [List.mem_singleton.mp here]
                exact h
            · rw [List.map_append]
              apply List.Nodup.append coherent.once (List.nodup_singleton _)
              intro x old here
              rw [List.mem_singleton] at here
              subst here
              exact new old
            · rw [List.map_append, List.mem_append]
              rfl

theorem Transparent.plain (result : Except ε γ) :
    Transparent compute (Memo.plain result) result [] := by
  constructor
  · intro known _
    cases result <;> rfl
  · intro known c known' coherent ran
    cases result with
    | error stop => cases ran
    | ok c =>
        cases ran
        exact ⟨coherent, fun a => by simp⟩

theorem Transparent.pure (c : γ) : Transparent compute (Pure.pure c) (Pure.pure c) [] :=
  Transparent.plain (.ok c)

/-- Two computations after one another, where what the second asks for does not depend on what the
first gives. -/
theorem Transparent.bind {m : Recalling α β ε γ} {f : γ → Recalling α β ε δ}
    {result : Except ε γ} {next : γ → Except ε δ} {first second : List α}
    (before : Transparent compute m result first)
    (after : ∀ c, result = .ok c → Transparent compute (f c) (next c) second) :
    Transparent compute (m >>= f) (result >>= next) (first ++ second) := by
  have unfolded : ∀ known, (m >>= f) known = (m known >>= fun r => f r.1 r.2) := fun _ => rfl
  constructor
  · intro known coherent
    have same := before.same known coherent
    rw [unfolded]
    cases ran : m known with
    | error stop =>
        rw [ran] at same
        rw [← same]
        rfl
    | ok r =>
        rw [ran] at same
        have kept := before.keeps known r.1 r.2 coherent ran
        have then_ := (after r.1 same.symm).same r.2 kept.1
        rw [← same]
        exact then_
  · intro known d known' coherent ran
    rw [unfolded] at ran
    have same := before.same known coherent
    cases part : m known with
    | error stop =>
        rw [part] at ran
        cases ran
    | ok r =>
        rw [part] at ran same
        have kept := before.keeps known r.1 r.2 coherent part
        have last := (after r.1 same.symm).keeps r.2 d known' kept.1 ran
        refine ⟨last.1, fun a => ?_⟩
        rw [last.2 a, kept.2 a, List.mem_append, or_assoc]

theorem Transparent.each {f : γ → Recalling α β ε δ} {g : γ → Except ε δ} {asks : γ → List α}
    (one : ∀ c, Transparent compute (f c) (g c) (asks c)) (l : List γ) :
    Transparent compute (Memo.each f l) (l.mapM g) (l.flatMap asks) := by
  induction l with
  | nil => exact .pure []
  | cons c rest ih =>
      rw [List.mapM_cons, List.flatMap_cons, Memo.each]
      refine .bind (one c) fun d _ => ?_
      rw [← List.append_nil (List.flatMap asks rest)]
      exact .bind ih fun more _ => .pure (d :: more)

end Fpag.Memo
