import Fpag.Debug.LineProgress

/-!
Readers that consume bytes.

From a sound cursor every reader of a section comes to a sound cursor of the same section that is
not in front of it, and most of them come to one that is behind it. A form takes bytes unless it is
one of the two whose value is not written. It follows that the loops of `read_form` and
`read_line_header` that the model gives a turn for every byte come to an end.
-/

namespace Fpag.Debug

open Cursor Reader

/-! ## Cursors -/

namespace Cursor

/-- A sound cursor of the same section that is not in front of the first one. -/
def Onward (c c' : Cursor) : Prop :=
  c.Sound → c'.Sound ∧ c'.size = c.size ∧ c.position ≤ c'.position

/-- A sound cursor of the same section that is behind the first one. -/
def Beyond (c c' : Cursor) : Prop :=
  c.Sound → c'.Sound ∧ c'.size = c.size ∧ c.position < c'.position

theorem Onward.refl (c : Cursor) : c.Onward c := fun sound => ⟨sound, rfl, le_rfl⟩

theorem Onward.trans {a b c : Cursor} (first : a.Onward b) (second : b.Onward c) : a.Onward c := by
  intro sound
  obtain ⟨middle, size, position⟩ := first sound
  obtain ⟨last, size', position'⟩ := second middle
  exact ⟨last, size'.trans size, position.trans position'⟩

theorem Beyond.onward {a b : Cursor} (beyond : a.Beyond b) : a.Onward b := fun sound =>
  ⟨(beyond sound).1, (beyond sound).2.1, (beyond sound).2.2.le⟩

theorem Beyond.trans_onward {a b c : Cursor} (first : a.Beyond b) (second : b.Onward c) :
    a.Beyond c := by
  intro sound
  obtain ⟨middle, size, position⟩ := first sound
  obtain ⟨last, size', position'⟩ := second middle
  exact ⟨last, size'.trans size, position.trans_le position'⟩

theorem Onward.trans_beyond {a b c : Cursor} (first : a.Onward b) (second : b.Beyond c) :
    a.Beyond c := by
  intro sound
  obtain ⟨middle, size, position⟩ := first sound
  obtain ⟨last, size', position'⟩ := second middle
  exact ⟨last, size'.trans size, position.trans_lt position'⟩

/-- Of a reader that gives no byte back. -/
abbrev GoesOn {α : Type} (m : Reader Cursor α) : Prop := Moves Onward m

/-- Of a reader that takes at least a byte. -/
abbrev Takes {α : Type} (m : Reader Cursor α) : Prop := Moves Beyond m

section Rules

variable {α β : Type} {m : Reader Cursor α} {f : α → Reader Cursor β}

theorem Takes.goesOn (takes : Takes m) : GoesOn m := takes.weaken Beyond.onward

theorem Takes.bind (first : Takes m) (then_ : ∀ a, GoesOn (f a)) : Takes (m >>= f) :=
  Moves.comp (r := Beyond) (s := Onward) (t := Beyond) Beyond.trans_onward first then_

theorem Takes.after (first : GoesOn m) (then_ : ∀ a, Takes (f a)) : Takes (m >>= f) :=
  Moves.comp (r := Onward) (s := Beyond) (t := Beyond) Onward.trans_beyond first then_

theorem GoesOn.pure (a : α) : GoesOn (Pure.pure a) := Moves.pure Onward.refl a

theorem GoesOn.bind (first : GoesOn m) (then_ : ∀ a, GoesOn (f a)) : GoesOn (m >>= f) :=
  Moves.bind Onward.trans first then_

theorem GoesOn.require (condition : Bool) : GoesOn (Reader.require condition) :=
  Moves.require Onward.refl condition

theorem GoesOn.repeated (one : GoesOn m) (n : Nat) : GoesOn (m.repeated n) :=
  Moves.repeated Onward.refl Onward.trans one n

/-- What a reader keeps that is safe or goes on. -/
theorem GoesOn.sound (goesOn : GoesOn m) : Moves (fun c c' => c.Sound → c'.Sound) m :=
  goesOn.weaken fun onward sound => (onward sound).1

end Rules

theorem fixed_takes (n : Nat) : Takes (fixed n) := by
  intro c value c' read sound
  have kept := (fixed_safe n c sound).1 value c' read
  have moved := fixed_advance read
  rw [fixed_run] at read
  split at read
  · cases read
  · next accepts =>
      have fits := refuses_eq_false.mp (Bool.not_eq_true _ ▸ accepts)
      rw [moved] at kept ⊢
      exact ⟨kept, rfl, Nat.lt_add_of_pos_right fits.1⟩

theorem uleb_takes : Takes uleb := by
  have loop (count shift value : Nat) : Takes (ulebLoop count shift value) := by
    induction count generalizing shift value with
    | zero => exact .refused
    | succ count ih => exact (fixed_takes 1).bind fun _ => .ite (GoesOn.pure _) (ih _ _).goesOn
  exact loop 10 0 0

theorem sleb_takes : Takes sleb := by
  have loop (count shift value : Nat) : Takes (slebLoop count shift value) := by
    induction count generalizing shift value with
    | zero => exact .refused
    | succ count ih => exact (fixed_takes 1).bind fun _ => .ite (GoesOn.pure _) (ih _ _).goesOn
  exact loop 10 0 0

theorem skip_onward {n : Nat} {c c' : Cursor} (read : (skip n).run c = .ok ((), c')) :
    c' = c.advance n ∧ c.Onward c' := by
  have kept := (skip_safe n c · |>.1 () c' read)
  rw [skip_run] at read
  split at read
  · cases read
    exact ⟨rfl, fun sound => ⟨kept sound, rfl, Nat.le_add_right _ _⟩⟩
  · cases read

theorem skip_goesOn (n : Nat) : GoesOn (skip n) := fun _ _ _ read => (skip_onward read).2

theorem skip_takes {n : Nat} (pos : 0 < n) : Takes (skip n) := by
  intro c _ c' read sound
  obtain ⟨rfl, onward⟩ := skip_onward read
  exact ⟨(onward sound).1, rfl, Nat.lt_add_of_pos_right pos⟩

theorem string_takes : Takes string := by
  intro c text c' read sound
  have kept := (string_safe c sound).1 text c' read
  rw [string_run] at read
  split at read
  · split at read
    · cases read
      exact ⟨kept, rfl, Nat.lt_add_of_pos_right (Nat.succ_pos _)⟩
    · cases read
    · cases read
  · cases read

end Cursor

/-! ## Forms -/

/-- A value of the form is written, in at least one byte. -/
def TakesBytes (form : Nat) : Prop := form ≠ dwFormImplicitConst ∧ form ≠ dwFormFlagPresent

instance (form : Nat) : Decidable (TakesBytes form) := inferInstanceAs (Decidable (_ ∧ _))

section Forms

variable {tables : Tables} {declaration : AbbreviationAttribute}

theorem withText_goesOn (form value : Nat) : GoesOn (withText tables form value) :=
  .ite (GoesOn.bind (.ofExcept Onward.refl _) fun _ => GoesOn.pure _)
    (.ite (GoesOn.bind (.ofExcept Onward.refl _) fun _ => GoesOn.pure _) (GoesOn.pure _))

theorem readBlock_takes {length : Reader Cursor Nat} (takes : Takes length) :
    Takes (readBlock length) :=
  Takes.bind takes fun n => GoesOn.bind (skip_goesOn n) fun _ => GoesOn.pure _

/-- The value of a form that is written takes a byte, whatever it leads to if it is indirect. -/
theorem readFormLoop_succ_takes {fuel form : Nat}
    (inner : ∀ form, GoesOn (readFormLoop tables declaration fuel form))
    (written : TakesBytes form) :
    Takes (readFormLoop tables declaration (fuel + 1) form) := by
  have text {m : Reader Cursor Nat} (takes : Takes m) : Takes (do withText tables form (← m)) :=
    Takes.bind takes fun value => withText_goesOn form value
  have plain {m : Reader Cursor Nat} {make : Nat → FormValue} (takes : Takes m) :
      Takes (do pure (make (← m))) := Takes.bind takes fun _ => GoesOn.pure _
  rw [readFormLoop]
  refine .ite (uleb_takes.bind fun form => inner form) ?_
  rw [if_neg written.1, if_neg written.2]
  refine .ite (plain (fixed_takes _))
    (.ite (plain (fixed_takes _)) (.ite (plain (fixed_takes _)) ?_))
  refine .ite (text (fixed_takes 1)) (.ite (text (fixed_takes 2)) (.ite (text (fixed_takes 4)) ?_))
  refine .ite (text (fixed_takes 8))
    (.ite ((skip_takes (by decide)).bind fun _ => GoesOn.pure _) ?_)
  refine .ite (plain uleb_takes) ?_
  refine .ite (sleb_takes.bind fun value => withText_goesOn form _) ?_
  refine .ite (text (fixed_takes _)) (.ite (string_takes.bind fun _ => GoesOn.pure _) ?_)
  refine .ite (readBlock_takes (fixed_takes 1)) (.ite (readBlock_takes (fixed_takes 2)) ?_)
  exact .ite (readBlock_takes (fixed_takes 4)) (.ite (readBlock_takes uleb_takes) .refused)

/-- The value of a form that is not written is there at once. -/
theorem readFormLoop_unwritten {form : Nat} (unwritten : ¬ TakesBytes form) :
    ∃ value, ∀ fuel, readFormLoop tables declaration (fuel + 1) form = pure value := by
  rw [TakesBytes, not_and_or, not_not, not_not] at unwritten
  rcases unwritten with rfl | rfl
  · exact ⟨_, fun _ => rfl⟩
  · exact ⟨_, fun _ => rfl⟩

theorem readFormLoop_goesOn (fuel form : Nat) :
    GoesOn (readFormLoop tables declaration fuel form) := by
  induction fuel generalizing form with
  | zero => exact .running
  | succ fuel ih =>
      by_cases written : TakesBytes form
      · exact (readFormLoop_succ_takes ih written).goesOn
      · obtain ⟨value, same⟩ := readFormLoop_unwritten written
        rw [same]
        exact GoesOn.pure value

theorem turns_goesOn : GoesOn turns := .bind (Moves.get Onward.refl) fun _ => .pure _

theorem readForm_takes {form : Nat} (written : TakesBytes form) :
    Takes (readForm tables declaration form) := by
  refine Takes.after turns_goesOn fun fuel => ?_
  cases fuel with
  | zero => exact .running
  | succ fuel => exact readFormLoop_succ_takes (readFormLoop_goesOn fuel) written

theorem readForm_goesOn (form : Nat) : GoesOn (readForm tables declaration form) :=
  GoesOn.bind turns_goesOn fun fuel => readFormLoop_goesOn fuel form

theorem readForm_unwritten {form : Nat} (unwritten : ¬ TakesBytes form) :
    ∃ value, ∀ c, (readForm tables declaration form).run c = .ok (value, c) := by
  obtain ⟨value, same⟩ := @readFormLoop_unwritten tables declaration form unwritten
  refine ⟨value, fun c => ?_⟩
  rw [readForm_run, same]
  rfl

end Forms

/-! ## Loops that come to an end -/

section Halting

variable {tables : Tables} {declaration : AbbreviationAttribute}

/-- From a sound cursor the reader comes to an end. -/
abbrev Cursor.Ends {α : Type} (m : Reader Cursor α) : Prop := HaltsOn Cursor.Sound m

theorem Cursor.Ends.next {α β : Type} {m : Reader Cursor α} {f : α → Reader Cursor β}
    (first : Ends m) (goesOn : GoesOn m) (then_ : ∀ a, Ends (f a)) : Ends (m >>= f) :=
  HaltsOn.bind first goesOn.sound then_

theorem scan_ne_running (n : Nat) (bytes : List UInt8) : scan n bytes ≠ .error .running := by
  induction bytes generalizing n with
  | nil => cases n <;> rintro ⟨⟩
  | cons byte bytes ih =>
      cases n with
      | zero => rintro ⟨⟩
      | succ n =>
          have rest := ih n
          rw [scan]
          cases found : scan n bytes with
          | error stop =>
              rw [found] at rest
              split
              · rintro ⟨⟩
              · rintro ⟨⟩
                exact rest rfl
          | ok text => split <;> rintro ⟨⟩

theorem scanAt_ne_running (data : Option (List UInt8)) (offset n : Nat) :
    scanAt data offset n ≠ .error .running := by
  cases data with
  | none => rintro ⟨⟩
  | some bytes => exact scan_ne_running n _

theorem SectionView.stringAt_ne_running (view : SectionView) (offset : Nat) :
    view.stringAt offset ≠ .error .running := by
  rw [SectionView.stringAt]
  split
  · rintro ⟨⟩
  · exact scanAt_ne_running _ _ _

theorem Cursor.string_halts : Halts string := by
  intro c
  have found := scanAt_ne_running c.data c.position (subtract c.size c.position)
  rw [string_run]
  split
  · split
    · rintro ⟨⟩
    · rintro ⟨⟩
    · next stop is =>
        rw [is] at found
        rintro ⟨⟩
        exact found rfl
  · rintro ⟨⟩

theorem Cursor.skip_halts (n : Nat) : Halts (skip n) := by
  intro c
  rw [skip_run]
  split <;> rintro ⟨⟩

theorem withText_halts (form value : Nat) : Halts (withText tables form value) := by
  have text (view : SectionView) : Halts (Reader.ofExcept (view.stringAt value) :
      Reader Cursor (Option (List UInt8))) := by
    have found := view.stringAt_ne_running value
    intro c
    cases is : view.stringAt value with
    | error stop =>
        rw [is] at found
        rintro ⟨⟩
        exact found rfl
    | ok text => rintro ⟨⟩
  exact .ite (.bind (text _) fun _ => .pure _) (.ite (.bind (text _) fun _ => .pure _) (.pure _))

theorem readBlock_halts {length : Reader Cursor Nat} (halts : Halts length) :
    Halts (readBlock length) :=
  .bind halts fun n => .bind (skip_halts n) fun _ => .pure _

/-- A form that is not indirect is read without a second turn. -/
theorem readFormLoop_direct_halts {fuel form : Nat} (direct : form ≠ dwFormIndirect) :
    Halts (readFormLoop tables declaration (fuel + 1) form) := by
  have text {m : Reader Cursor Nat} (halts : Halts m) : Halts (do withText tables form (← m)) :=
    .bind halts fun value => withText_halts form value
  have plain {m : Reader Cursor Nat} {make : Nat → FormValue} (halts : Halts m) :
      Halts (do pure (make (← m))) := .bind halts fun _ => .pure _
  rw [readFormLoop, if_neg direct]
  refine .ite (.pure _) (.ite (.pure _) (.ite (plain (fixed_halts _)) ?_))
  refine .ite (plain (fixed_halts _)) (.ite (plain (fixed_halts _)) ?_)
  refine .ite (text (fixed_halts 1)) (.ite (text (fixed_halts 2)) (.ite (text (fixed_halts 4)) ?_))
  refine .ite (text (fixed_halts 8)) (.ite (.bind (skip_halts 16) fun _ => .pure _) ?_)
  refine .ite (plain uleb_halts) (.ite (.bind sleb_halts fun value => withText_halts form _) ?_)
  refine .ite (text (fixed_halts _)) (.ite (.bind string_halts fun _ => .pure _) ?_)
  refine .ite (readBlock_halts (fixed_halts 1)) (.ite (readBlock_halts (fixed_halts 2)) ?_)
  exact .ite (readBlock_halts (fixed_halts 4)) (.ite (readBlock_halts uleb_halts) .refused)

/-- A turn for every byte that is left is enough: every indirection takes one. -/
theorem readFormLoop_ends {fuel form : Nat} {c : Cursor} (sound : c.Sound)
    (enough : c.size - c.position < fuel) :
    (readFormLoop tables declaration fuel form).run c ≠ .error .running := by
  induction fuel generalizing form c with
  | zero => exact absurd enough (Nat.not_lt_zero _)
  | succ fuel ih =>
      by_cases direct : form = dwFormIndirect
      · rw [readFormLoop, if_pos direct]
        cases read : uleb.run c with
        | error stop =>
            rw [run_bind_error read]
            rintro ⟨⟩
            exact uleb_halts c read
        | ok pair =>
            obtain ⟨kept, size, beyond⟩ := uleb_takes c _ _ read sound
            rw [run_bind_eq read]
            refine ih kept ?_
            have := kept.inside
            omega
      · exact readFormLoop_direct_halts direct c

theorem readForm_ends (form : Nat) : Ends (readForm tables declaration form) := by
  intro c sound
  rw [readForm_run]
  exact readFormLoop_ends sound (Nat.lt_succ_self _)

end Halting

end Fpag.Debug
