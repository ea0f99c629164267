import Fpag.Debug.Encoding

/-!
Two runs of a reader, one over some bytes alone and one with more bytes behind them.

`Tracks` says that the second run comes to what the first one comes to. A primitive of the
cursor settles on some of the bytes whatever follows, or is refused for want of bytes, which the
second run may have; `Holds` says of the bytes that they are enough, and with it the rule for
`orElse` excuses nothing any more.
-/

namespace Fpag.Debug

open Cursor Reader

/-- A section that is nothing but these bytes. -/
def whole (bytes : List UInt8) : Cursor := ⟨some bytes, bytes.length, 0⟩

theorem whole_over {bytes : List UInt8} (small : bytes.length < 2 ^ 64) :
    (whole bytes).Over bytes :=
  ⟨[], [], by simp [whole], rfl, by simp [whole], small⟩

theorem Cursor.Over.drop {c : Cursor} {bytes : List UInt8} {used : Nat} (ahead : c.Over bytes)
    (enough : used ≤ bytes.length) : (c.advance used).Over (bytes.drop used) := by
  have length : (bytes.take used).length = used := by
    rw [List.length_take, Nat.min_eq_left enough]
  rw [← List.take_append_drop used bytes] at ahead
  have next := ahead.advance
  rw [length] at next
  exact next

/-! ## Readers that only want bytes -/

/-- The reader takes some of the bytes for a value whatever follows, and at least `least` of them,
or it refuses them where they end. -/
def Settles {α : Type} (least : Nat) (m : Reader Cursor α) (bytes : List UInt8) : Prop :=
  (∃ front back a, least ≤ front.length ∧ bytes = front ++ back ∧ Reads m front a) ∨
    ∀ c, c.Over bytes → m.run c = .error .refused

namespace Settles

variable {α β : Type} {least : Nat} {m : Reader Cursor α} {f : α → Reader Cursor β}
  {bytes : List UInt8}

theorem weaken (settles : Settles least m bytes) : Settles 0 m bytes := by
  rcases settles with ⟨front, back, a, -, split, reads⟩ | refused
  · exact .inl ⟨front, back, a, Nat.zero_le _, split, reads⟩
  · exact .inr refused

theorem pure (a : α) : Settles 0 (Pure.pure a) bytes :=
  .inl ⟨[], bytes, a, le_rfl, rfl, .pure a⟩

theorem require (condition : Bool) : Settles 0 (Reader.require condition) bytes := by
  unfold Reader.require
  split
  · exact pure ()
  · exact .inr fun _ _ => rfl

theorem bind (first : Settles least m bytes) (then_ : ∀ a back, Settles 0 (f a) back) :
    Settles least (m >>= f) bytes := by
  rcases first with ⟨front, back, a, least_le, rfl, reads⟩ | refused
  · rcases then_ a back with ⟨front', back', b, -, rfl, reads'⟩ | refused
    · refine .inl ⟨front ++ front', back', b, ?_, (List.append_assoc _ _ _).symm, reads.bind reads'⟩
      rw [List.length_append]
      omega
    · refine .inr fun c ahead => ?_
      rw [run_bind_eq (reads c back ahead), refused _ ahead.advance]
  · exact .inr fun c ahead => run_bind_error (refused c ahead)

theorem fixed (n : Nat) : Settles 1 (Cursor.fixed n) bytes := by
  by_cases reads : 0 < n ∧ n ≤ 8 ∧ n ≤ bytes.length
  · obtain ⟨pos, short, enough⟩ := reads
    have length : (bytes.take n).length = n := by rw [List.length_take, Nat.min_eq_left enough]
    have raw := @Reads.raw (bytes.take n) (by omega) (by omega)
    rw [length] at raw
    exact .inl ⟨_, _, _, by omega, (List.take_append_drop n bytes).symm, raw⟩
  · refine .inr fun c ahead => ?_
    have refuses : c.refuses n = true := by
      by_contra accepts
      rw [Bool.not_eq_true, refuses_eq_false, ahead.left] at accepts
      exact reads accepts
    rw [fixed_run, if_pos refuses]

theorem skip (n : Nat) : Settles 0 (Cursor.skip n) bytes := by
  by_cases enough : n ≤ bytes.length
  · have length : (bytes.take n).length = n := by rw [List.length_take, Nat.min_eq_left enough]
    have reads := Reads.skip (bytes.take n)
    rw [length] at reads
    exact .inl ⟨_, _, _, Nat.zero_le _, (List.take_append_drop n bytes).symm, reads⟩
  · refine .inr fun c ahead => ?_
    rw [skip_run, ahead.left, if_neg enough]

/-- No string ends in bytes without a zero. -/
theorem scan_none (plain : 0 ∉ bytes) (more : List UInt8) :
    scan bytes.length (bytes ++ more) = .ok none := by
  induction bytes with
  | nil => rfl
  | cons byte bytes ih =>
      rw [List.mem_cons, not_or] at plain
      rw [List.length_cons, List.cons_append, scan, if_neg (Ne.symm plain.1), ih plain.2]
      rfl

theorem string : Settles 0 Cursor.string bytes := by
  by_cases ends : 0 ∈ bytes
  · obtain ⟨text, back, split, plain⟩ := List.eq_append_cons_of_mem ends
    exact .inl ⟨_, _, _, Nat.zero_le _, split.trans (List.append_cons text 0 back),
      Reads.string plain⟩
  · refine .inr fun c ahead => ?_
    have left := ahead.left
    obtain ⟨front, more, data, position, -, -⟩ := ahead
    have found : scanAt c.data c.position (subtract c.size c.position) = .ok none := by
      rw [left, data, scanAt, position, List.drop_left]
      exact scan_none ends more
    rw [string_run, found]
    split <;> rfl

theorem ite {condition : Prop} [Decidable condition] {n : Reader Cursor α}
    (yes : Settles least m bytes) (no : Settles least n bytes) :
    Settles least (if condition then m else n) bytes := by
  split
  · exact yes
  · exact no

theorem ulebLoop (count shift value : Nat) :
    Settles 1 (Cursor.ulebLoop count shift value) bytes := by
  induction count generalizing shift value bytes with
  | zero => exact .inr fun _ _ => rfl
  | succ count ih => exact bind (fixed 1) fun byte back => ite (pure _) (ih _ _).weaken

theorem uleb : Settles 1 Cursor.uleb bytes := ulebLoop 10 0 0

theorem slebLoop (count shift value : Nat) :
    Settles 1 (Cursor.slebLoop count shift value) bytes := by
  induction count generalizing shift value bytes with
  | zero => exact .inr fun _ _ => rfl
  | succ count ih => exact bind (fixed 1) fun byte back => ite (pure _) (ih _ _).weaken

theorem sleb : Settles 1 Cursor.sleb bytes := slebLoop 10 0 0

end Settles

/-! ## Two runs -/

/-- Over the bytes alone `m` gives what `m'` gives with the rest behind them, as many bytes
further on and at least `least`, or both stop in the same way; where a refusal is excused,
nothing is said about the other run. -/
def Tracks {α : Type} (excused : Prop) (least : Nat) (m m' : Reader Cursor α)
    (bytes rest : List UInt8) : Prop :=
  ∀ c c', c.Over bytes → c'.Over (bytes ++ rest) →
    (∃ a used, least ≤ used ∧ used ≤ bytes.length ∧ m.run c = .ok (a, c.advance used) ∧
      m'.run c' = .ok (a, c'.advance used)) ∨
    (∃ stop, m.run c = .error stop ∧ m'.run c' = .error stop) ∨
    (m.run c = .error .refused ∧ excused)

namespace Tracks

variable {α β : Type} {excused : Prop} {least : Nat} {m m' : Reader Cursor α}
  {f f' : α → Reader Cursor β} {a : α} {bytes rest : List UInt8}

theorem weaken (tracks : Tracks excused least m m' bytes rest) :
    Tracks excused 0 m m' bytes rest := by
  intro c c' ahead over'
  rcases tracks c c' ahead over' with ⟨a, used, -, enough, runs⟩ | stops
  · exact .inl ⟨a, used, Nat.zero_le _, enough, runs⟩
  · exact .inr stops

theorem pure (a : α) : Tracks excused 0 (Pure.pure a) (Pure.pure a) bytes rest := by
  intro c c' ahead over'
  exact .inl ⟨a, 0, le_rfl, Nat.zero_le _, rfl, rfl⟩

theorem stop (stop : Stop) :
    Tracks excused least (throw stop : Reader Cursor α) (throw stop) bytes rest := by
  intro c c' ahead over'
  exact .inr (.inl ⟨stop, rfl, rfl⟩)

theorem ofExcept (result : Except Stop α) :
    Tracks excused 0 (Reader.ofExcept result) (Reader.ofExcept result) bytes rest := by
  cases result with
  | error stopped => exact stop stopped
  | ok a => exact pure a

theorem bind (first : Tracks excused least m m' bytes rest)
    (then_ : ∀ a used, least ≤ used → used ≤ bytes.length →
      Tracks excused 0 (f a) (f' a) (bytes.drop used) rest) :
    Tracks excused least (m >>= f) (m' >>= f') bytes rest := by
  intro c c' ahead over'
  rcases first c c' ahead over' with
    ⟨a, used, more, enough, run, run'⟩ | ⟨stop, run, run'⟩ | refused
  · have left : (c'.advance used).Over (bytes.drop used ++ rest) := by
      rw [← List.drop_append_of_le_length enough]
      exact over'.drop (by rw [List.length_append]; omega)
    rw [run_bind_eq run, run_bind_eq run']
    rcases then_ a used more enough _ _ (ahead.drop enough) left with
      ⟨b, further, -, enough', again, again'⟩ | stops
    · rw [List.length_drop] at enough'
      rw [advance_advance] at again again'
      exact .inl ⟨b, used + further, by omega, by omega, again, again'⟩
    · exact .inr stops
  · exact .inr (.inl ⟨stop, run_bind_error run, run_bind_error run'⟩)
  · exact .inr (.inr ⟨run_bind_error refused.1, refused.2⟩)

/-- A step in front that reads nothing. -/
theorem ofExcept_bind {result : Except Stop α}
    (then_ : ∀ a, result = .ok a → Tracks excused least (f a) (f' a) bytes rest) :
    Tracks excused least (Reader.ofExcept result >>= f) (Reader.ofExcept result >>= f') bytes
      rest := by
  cases result with
  | error stopped => exact stop stopped
  | ok a => exact then_ a rfl

theorem ite {condition : Prop} [Decidable condition] {n n' : Reader Cursor α}
    (yes : condition → Tracks excused least m m' bytes rest)
    (no : ¬ condition → Tracks excused least n n' bytes rest) :
    Tracks excused least (if condition then m else n) (if condition then m' else n')
      bytes rest := by
  split
  · next holds => exact yes holds
  · next fails => exact no fails

theorem ofSettles (settles : Settles least m bytes) : Tracks (rest ≠ []) least m m bytes rest := by
  intro c c' ahead over'
  rcases settles with ⟨front, back, a, least_le, rfl, reads⟩ | refused
  · rw [List.append_assoc] at over'
    exact .inl ⟨a, front.length, least_le, by simp, reads c _ ahead, reads c' _ over'⟩
  · by_cases more : rest = []
    · rw [more, List.append_nil] at over'
      exact .inr (.inl ⟨.refused, refused c ahead, refused c' over'⟩)
    · exact .inr (.inr ⟨refused c ahead, more⟩)

end Tracks

/-! ## Forms -/

section Forms

variable {tables : Tables} {bytes rest : List UInt8}

theorem withText_tracks (form value : Nat) :
    Tracks (rest ≠ []) 0 (withText tables form value) (withText tables form value) bytes rest :=
  .ite (fun _ => .ofExcept_bind fun _ _ => .pure _) fun _ =>
    .ite (fun _ => .ofExcept_bind fun _ _ => .pure _) fun _ => .pure _

theorem readBlock_tracks {length : Reader Cursor Nat} (settles : Settles 1 length bytes) :
    Tracks (rest ≠ []) 0 (readBlock length) (readBlock length) bytes rest :=
  .ofSettles (Settles.bind settles fun n _ => .bind (.skip n) fun _ _ => .pure _).weaken

/-- With a turn for every byte, the number of turns does not matter. -/
theorem readFormLoop_tracks (declaration : AbbreviationAttribute) {fuel fuel' : Nat} (form : Nat)
    (turns : bytes.length < fuel) (turns' : bytes.length < fuel') :
    Tracks (rest ≠ []) 0 (readFormLoop tables declaration fuel form)
      (readFormLoop tables declaration fuel' form) bytes rest := by
  induction fuel generalizing fuel' form bytes with
  | zero => omega
  | succ fuel ih =>
      obtain ⟨fuel', rfl⟩ := Nat.exists_eq_succ_of_ne_zero (by omega : fuel' ≠ 0)
      have number (n : Nat) {value : Nat → FormValue} : Tracks (rest ≠ []) 0
          (do Pure.pure (value (← fixed n))) (do Pure.pure (value (← fixed n))) bytes rest :=
        (Tracks.bind (.ofSettles (.fixed n)) fun _ _ _ _ => .pure _).weaken
      have text (n : Nat) : Tracks (rest ≠ []) 0 (do withText tables form (← fixed n))
          (do withText tables form (← fixed n)) bytes rest :=
        (Tracks.bind (.ofSettles (.fixed n)) fun value _ _ _ => withText_tracks form value).weaken
      refine .ite (fun _ => ?_) fun _ => .ite (fun _ => .pure _) fun _ => ?_
      · -- a form that names another one takes at least a byte, and a turn
        refine (Tracks.bind (.ofSettles .uleb) fun form used pos enough => ?_).weaken
        exact ih form (by rw [List.length_drop]; omega) (by rw [List.length_drop]; omega)
      refine .ite (fun _ => .pure _) fun _ => .ite (fun _ => number _) fun _ => ?_
      refine .ite (fun _ => number _) fun _ => .ite (fun _ => number _) fun _ => ?_
      refine .ite (fun _ => text 1) fun _ => .ite (fun _ => text 2) fun _ => ?_
      refine .ite (fun _ => text 4) fun _ => .ite (fun _ => text 8) fun _ => ?_
      refine .ite (fun _ => .ofSettles (.bind (.skip 16) fun _ _ => .pure _)) fun _ => ?_
      refine .ite (fun _ => .ofSettles (Settles.bind .uleb fun _ _ => .pure _).weaken) fun _ => ?_
      refine .ite (fun _ => ?_) fun _ => .ite (fun _ => text _) fun _ => ?_
      · exact (Tracks.bind (.ofSettles .sleb) fun _ _ _ _ => withText_tracks form _).weaken
      refine .ite (fun _ => .ofSettles (.bind .string fun _ _ => .pure _)) fun _ => ?_
      refine .ite (fun _ => readBlock_tracks (.fixed 1)) fun _ => ?_
      refine .ite (fun _ => readBlock_tracks (.fixed 2)) fun _ => ?_
      refine .ite (fun _ => readBlock_tracks (.fixed 4)) fun _ => ?_
      exact .ite (fun _ => readBlock_tracks .uleb) fun _ => .stop .refused

theorem readForm_tracks (declaration : AbbreviationAttribute) (form : Nat) :
    Tracks (rest ≠ []) 0 (readForm tables declaration form) (readForm tables declaration form)
      bytes rest := by
  intro c c' ahead over'
  have left := ahead.position_add
  have left' := over'.position_add
  rw [List.length_append] at left'
  have run (c : Cursor) : (readForm tables declaration form).run c =
      (readFormLoop tables declaration (c.size - c.position + 1) form).run c := rfl
  rw [run, run]
  exact readFormLoop_tracks declaration form (by omega) (by omega) c c' ahead over'

end Forms

/-! ## Bytes that are enough -/

section Holds

variable {α β : Type} {m : Reader Cursor α} {f : α → Reader Cursor β} {default : β}
  {next : α → List UInt8 → Prop} {bytes rest : List UInt8}

/-- The bytes hold what the reader asks for and what comes next: alone they are not refused,
unless they are refused whatever follows them. -/
@[irreducible] def Holds (m : Reader Cursor α) (bytes : List UInt8)
    (next : α → List UInt8 → Prop) : Prop :=
  match m.run (whole bytes) with
  | .ok (a, c) => next a (bytes.drop c.position)
  | .error .refused => Refuses m bytes
  | .error _ => True

theorem Holds.ofRun {a : α} {c : Cursor} (run : m.run (whole bytes) = .ok (a, c))
    (goes : next a (bytes.drop c.position)) : Holds m bytes next := by
  rw [Holds, run]
  exact goes

theorem Tracks.alone {c : Cursor} {excused : Prop} (tracks : Tracks excused 0 m m bytes [])
    (ahead : c.Over bytes) {c₁ : Cursor} {a : α} {used : Nat} (over₁ : c₁.Over bytes)
    (run : m.run c = .ok (a, c.advance used)) : m.run c₁ = .ok (a, c₁.advance used) := by
  rcases tracks c c₁ ahead (by rwa [List.append_nil]) with
    ⟨b, further, -, -, again, run₁⟩ | ⟨stop, again, -⟩ | ⟨again, -⟩
  · rw [run] at again
    simp only [Except.ok.injEq, Prod.mk.injEq, Cursor.advance, Cursor.mk.injEq, true_and] at again
    obtain ⟨rfl, moved⟩ := again
    rwa [Nat.add_left_cancel moved]
  · rw [run] at again
    cases again
  · rw [run] at again
    cases again

/-- A reader with a default excuses nothing over bytes that hold what it asks for. -/
theorem Tracks.orElse (tracks : ∀ more, Tracks (more ≠ []) 0 m m bytes more)
    (holds : rest = [] ∨ Holds m bytes next)
    (then_ : ∀ a used, used ≤ bytes.length → rest = [] ∨ next a (bytes.drop used) →
      Tracks False 0 (f a) (f a) (bytes.drop used) rest) :
    Tracks False 0 (m.orElse default f) (m.orElse default f) bytes rest := by
  intro c c' ahead over'
  have small := ahead.small
  have inside := ahead.position_add
  have over₁ : (whole bytes).Over bytes := whole_over (by omega)
  rw [run_orElse, run_orElse]
  rcases tracks rest c c' ahead over' with
    ⟨a, used, -, enough, run, run'⟩ | ⟨stop, run, run'⟩ | ⟨refused, more⟩
  · rw [run, run']
    have left : (c'.advance used).Over (bytes.drop used ++ rest) := by
      rw [← List.drop_append_of_le_length enough]
      exact over'.drop (by rw [List.length_append]; omega)
    have goes : rest = [] ∨ next a (bytes.drop used) := by
      refine holds.imp_right fun holds => ?_
      rw [Holds, (tracks []).alone ahead over₁ run] at holds
      simpa [whole, Cursor.advance] using holds
    rcases then_ a used enough goes _ _ (ahead.drop enough) left with
      ⟨b, further, -, enough', again, again'⟩ | stops
    · rw [List.length_drop] at enough'
      rw [advance_advance] at again again'
      exact .inl ⟨b, used + further, Nat.zero_le _, by omega, again, again'⟩
    · exact .inr stops
  · rw [run, run']
    cases stop with
    | refused => exact .inl ⟨default, 0, le_rfl, Nat.zero_le _, rfl, rfl⟩
    | fault => exact .inr (.inl ⟨.fault, rfl, rfl⟩)
    | running => exact .inr (.inl ⟨.running, rfl, rfl⟩)
  · -- something follows, so the bytes were refused whatever it is
    have refuses : Refuses m bytes := by
      have holds := holds.resolve_left more
      rw [Holds] at holds
      rcases tracks [] (whole bytes) c over₁ (by rwa [List.append_nil]) with
        ⟨a, used, -, -, -, run⟩ | ⟨stop, run, run'⟩ | ⟨-, absurd⟩
      · rw [refused] at run
        cases run
      · rw [refused] at run'
        cases run'
        rw [run] at holds
        exact holds
      · exact (absurd rfl).elim
    rw [refused, refuses c' rest over']
    exact .inl ⟨default, 0, le_rfl, Nat.zero_le _, rfl, rfl⟩

end Holds

end Fpag.Debug
