import Fpag.Debug.InBounds
import Fpag.Debug.LineMatrix

/-!
The opcode loop of `line_position` and its end.

Every opcode leaves the cursor behind itself, but for one kind. An extended opcode seeks to the
end that its length gives, and the check of the length is a subtraction from the end of the
program: where the length field itself ends behind the program, the difference wraps, and a
length close to `2 ^ 64` leads back. `advances_iff` says that this is the only way for the loop
not to advance, and that without it the loop ends.
-/

namespace Fpag.Debug

open Cursor Reader

/-! ## Cursors that move ahead -/

/-- The cursor is one of the same section, at the position or behind it. -/
structure Cursor.Ahead (c c' : Cursor) : Prop where
  data : c'.data = c.data
  size : c'.size = c.size
  position : c.position ≤ c'.position

namespace Cursor

theorem Ahead.refl (c : Cursor) : c.Ahead c := ⟨rfl, rfl, le_rfl⟩

theorem Ahead.trans {a b c : Cursor} (first : a.Ahead b) (second : b.Ahead c) : a.Ahead c :=
  ⟨second.data.trans first.data, second.size.trans first.size,
    first.position.trans second.position⟩

/-- Of a reader that does not go back. -/
abbrev GoesAhead {α : Type} (m : Reader Cursor α) : Prop := Moves Ahead m

theorem fixed_advance {n value : Nat} {c c' : Cursor} (read : (fixed n).run c = .ok (value, c')) :
    c' = c.advance n := by
  rw [fixed_run] at read
  split at read
  · cases read
  · cases load : c.load n with
    | error stop =>
        rw [load] at read
        cases read
    | ok got =>
        rw [load] at read
        cases read
        rfl

theorem fixed_ahead (n : Nat) : GoesAhead (fixed n) := by
  intro c value c' read
  rw [fixed_advance read]
  exact ⟨rfl, rfl, Nat.le_add_right _ _⟩

theorem ulebLoop_ahead (count shift value : Nat) : GoesAhead (ulebLoop count shift value) := by
  induction count generalizing shift value with
  | zero => exact .refused
  | succ count ih =>
      exact .bind .trans (fixed_ahead 1) fun _ => .ite (.pure .refl _) (ih _ _)

theorem slebLoop_ahead (count shift value : Nat) : GoesAhead (slebLoop count shift value) := by
  induction count generalizing shift value with
  | zero => exact .refused
  | succ count ih =>
      exact .bind .trans (fixed_ahead 1) fun _ => .ite (.pure .refl _) (ih _ _)

theorem uleb_ahead : GoesAhead uleb := ulebLoop_ahead 10 0 0

theorem sleb_ahead : GoesAhead sleb := slebLoop_ahead 10 0 0

theorem fixed_halts (n : Nat) : Halts (fixed n) := by
  intro c
  rw [fixed_run]
  split
  · rintro ⟨⟩
  · unfold load
    split
    · rintro ⟨⟩
    · dsimp only
      split
      · rintro ⟨⟩
      · rintro ⟨⟩

theorem seek_halts (position : Nat) : Halts (seek position) := by
  intro c
  rw [seek_run]
  split
  · rintro ⟨⟩
  · rintro ⟨⟩

theorem uleb_halts : Halts uleb := by
  have loop (count shift value : Nat) : Halts (ulebLoop count shift value) := by
    induction count generalizing shift value with
    | zero => exact .refused
    | succ count ih => exact .bind (fixed_halts 1) fun _ => .ite (.pure _) (ih _ _)
  exact loop 10 0 0

theorem sleb_halts : Halts sleb := by
  have loop (count shift value : Nat) : Halts (slebLoop count shift value) := by
    induction count generalizing shift value with
    | zero => exact .refused
    | succ count ih => exact .bind (fixed_halts 1) fun _ => .ite (.pure _) (ih _ _)
  exact loop 10 0 0

theorem addBits_lt {value shift byte : Nat} (small : value < 2 ^ 64) :
    addBits value shift byte < 2 ^ 64 := by
  unfold addBits
  split
  · exact Nat.or_lt_two_pow small (u64_lt _)
  · exact small

theorem ulebLoop_lt {count shift value : Nat} (small : value < 2 ^ 64) :
    Gives (ulebLoop count shift value) (· < 2 ^ 64) := by
  induction count generalizing shift value with
  | zero => exact .refused
  | succ count ih =>
      exact .bind fun byte => .ite (.pure (addBits_lt small)) (ih (addBits_lt small))

/-- A variable length number is a `u64`. -/
theorem uleb_lt : Gives uleb (· < 2 ^ 64) := ulebLoop_lt (by decide)

end Cursor

/-! ## One turn of the loop -/

section Opcodes

variable {header : LineHeader}

theorem fetchSubOpcode_halts (subOpcode : Nat) : Halts (fetchSubOpcode header subOpcode) :=
  .ite (.pure _) (.ite (.bind (fixed_halts _) fun _ => .pure _) (.pure _))

theorem fetchStandard_ahead (opcode : Nat) : GoesAhead (fetchStandard header opcode) := by
  have operand {make : Nat → Instruction} {m : Reader Cursor Nat} (ahead : GoesAhead m) :
      GoesAhead (do pure (make (← m))) := .bind .trans ahead fun _ => .pure .refl _
  refine .ite (.pure .refl _) (.ite (operand uleb_ahead) (.ite ?_ (.ite (operand uleb_ahead)
    (.ite (operand uleb_ahead) (.ite (.pure .refl _) (.ite (operand (fixed_ahead 2)) (.ite
      (operand uleb_ahead) (.ite (.pure .refl _) ?_))))))))
  · exact .bind .trans sleb_ahead fun _ => .pure .refl _
  · exact .bind .trans (.repeated .refl .trans uleb_ahead _) fun _ => .pure .refl _

theorem fetchStandard_halts (opcode : Nat) : Halts (fetchStandard header opcode) := by
  have operand {make : Nat → Instruction} {m : Reader Cursor Nat} (halts : Halts m) :
      Halts (do pure (make (← m))) := .bind halts fun _ => .pure _
  refine .ite (.pure _) (.ite (operand uleb_halts) (.ite ?_ (.ite (operand uleb_halts)
    (.ite (operand uleb_halts) (.ite (.pure _) (.ite (operand (fixed_halts 2)) (.ite
      (operand uleb_halts) (.ite (.pure _) ?_))))))))
  · exact .bind sleb_halts fun _ => .pure _
  · exact .bind (.repeated uleb_halts _) fun _ => .pure _

theorem fetch_halts : Halts (fetch header) := by
  refine .bind (fixed_halts 1) fun opcode => .ite (.pure _) (.ite ?_ (fetchStandard_halts opcode))
  exact .bind uleb_halts fun length => .bind .get fun c => .bind (.require _) fun _ =>
    .bind (fixed_halts 1) fun subOpcode => .bind (fetchSubOpcode_halts subOpcode) fun _ =>
      .bind (seek_halts _) fun _ => .pure _

/-- The length of an extended opcode, where the cursor is at one. -/
def readLength (header : LineHeader) : Reader Cursor Nat := do
  let opcode ← fixed 1
  Reader.require (opcode < header.opcodeBase && opcode = 0)
  uleb

/-- At the position is an extended opcode whose length field ends behind the program, and its
length, added to the end of the field, leads to the opcode or in front of it. -/
def WrapsAt (header : LineHeader) (position : Nat) (c : Cursor) : Prop :=
  ∃ length c', (do seek position; readLength header : Reader Cursor Nat).run c = .ok (length, c') ∧
    header.stop < c'.position ∧ 2 ^ 64 ≤ c'.position + length ∧
      length ≤ 2 ^ 64 - (c'.position - position)

/-- An opcode that is read leaves the cursor behind itself, unless it is one that wraps. -/
theorem fetch_advances {position : Nat} {c c' : Cursor} {i : Instruction} (sound : c.Sound)
    (small : header.stop < 2 ^ 64)
    (fetched : (do seek position; fetch header : Reader Cursor Instruction).run c = .ok (i, c')) :
    position < c'.position ↔ ¬ WrapsAt header position c := by
  obtain ⟨done, c₀, sought, fetched⟩ := run_bind_ok fetched
  obtain ⟨opcode, c₁, first, rest⟩ := run_bind_ok fetched
  have start : c₀ = { c with position := position } := by
    rw [seek_run] at sought
    split at sought
    · cases sought
      rfl
    · cases sought
  have behind : c₁.position = position + 1 := by
    rw [fixed_advance first, start]
    rfl
  -- Where the opcode is no extended one, there is no length to read.
  have unwrapped (other : ¬ (opcode < header.opcodeBase ∧ opcode = 0)) :
      ¬ WrapsAt header position c := by
    rintro ⟨length, c₂, read, -⟩
    rw [run_bind_eq sought, readLength, run_bind_eq first, run_require_refused] at read
    · cases read
    · rw [Bool.and_eq_false_iff, decide_eq_false_iff_not, decide_eq_false_iff_not]
      exact not_and_or.mp other
  split at rest
  · next special =>
      cases rest
      exact iff_of_true (by omega) (unwrapped (by omega))
  · next below =>
      split at rest
      · next extended =>
          obtain ⟨length, c₂, field, rest⟩ := run_bind_ok rest
          obtain ⟨checked, rest⟩ := run_require_ok (run_get_ok rest)
          obtain ⟨subOpcode, c₃, -, rest⟩ := run_bind_ok rest
          obtain ⟨instruction, c₄, -, rest⟩ := run_bind_ok rest
          obtain ⟨done, c₅, last, rest⟩ := run_bind_ok rest
          cases rest
          have place : c'.position = u64 (c₂.position + length) := by
            rw [seek_run] at last
            split at last
            · cases last
              rfl
            · cases last
          have ahead : c₁.position ≤ c₂.position := (uleb_ahead c₁ length c₂ field).position
          have bound : length < 2 ^ 64 := uleb_lt c₁ length c₂ field
          have inside : c₂.position < 2 ^ 64 := by
            have safe : Safe (do seek position; let _ ← fixed 1; uleb : Reader Cursor Nat) :=
              .bind (seek_safe _) fun _ => .bind (fixed_safe 1) fun _ => uleb_safe
            have read : (do seek position; let _ ← fixed 1; uleb : Reader Cursor Nat).run c =
                .ok (length, c₂) := by
              rw [run_bind_eq sought, run_bind_eq first, field]
            have kept := (safe c sound).1 _ _ read
            exact lt_of_le_of_lt kept.inside kept.small
          have wraps : WrapsAt header position c ↔ header.stop < c₂.position ∧
              2 ^ 64 ≤ c₂.position + length ∧ length ≤ 2 ^ 64 - (c₂.position - position) := by
            have read : (do seek position; readLength header : Reader Cursor Nat).run c =
                .ok (length, c₂) := by
              rw [run_bind_eq sought, readLength, run_bind_eq first, run_require_bind, field]
              rw [Bool.and_eq_true, decide_eq_true_eq, decide_eq_true_eq]
              exact ⟨by omega, extended⟩
            constructor
            · rintro ⟨length', c₂', same, facts⟩
              rw [read] at same
              cases same
              exact facts
            · intro facts
              exact ⟨length, c₂, read, facts⟩
          have fits : length ≤ subtract header.stop c₂.position := of_decide_eq_true checked
          rw [wraps, place]
          unfold subtract u64 at fits
          unfold u64
          omega
      · next standard =>
          have ahead := (fetchStandard_ahead opcode c₁ i c' rest).position
          exact iff_of_true (by omega) (unwrapped (by omega))

end Opcodes

/-! ## The loop -/

/-- The variables of the loop. -/
structure LineTurn : Type where
  position : Nat
  walk : Walk
  cursor : Cursor

namespace LineTurn

variable (header : LineHeader) (files : List (List UInt8)) (linkAddress : Nat)

/-- The loop goes on. -/
def Going (s : LineTurn) : Prop := s.position < header.stop ∧ s.walk.answer = none

instance (s : LineTurn) : Decidable (s.Going header) := inferInstanceAs (Decidable (_ ∧ _))

/-- One iteration, if there is one and it does not return. -/
def next (s : LineTurn) : Option LineTurn :=
  if s.Going header then
    match (do seek s.position; fetch header : Reader Cursor Instruction).run s.cursor with
    | .ok (i, c) => some ⟨c.position, s.walk.execute header files linkAddress i, c⟩
    | .error _ => none
  else none

/-- The variables after as many iterations. -/
def after : Nat → LineTurn → Option LineTurn
  | 0, s => some s
  | n + 1, s => (after n s).bind (next header files linkAddress)

/-- In front of the loop. -/
def start (c : Cursor) : LineTurn := ⟨header.program, {}, c⟩

end LineTurn

/-- What is claimed of the loop: every iteration advances, the loop makes no more of them than
the end of the program says, and so it comes to its end. -/
structure Advances (header : LineHeader) (files : List (List UInt8)) (linkAddress : Nat)
    (c : Cursor) : Prop where
  position : ∀ n s s', LineTurn.after header files linkAddress n (.start header c) = some s →
    s.next header files linkAddress = some s' → s.position < s'.position
  turns : ∀ n s, LineTurn.after header files linkAddress n (.start header c) = some s →
    n ≤ header.stop
  ends : (walk header files linkAddress (header.stop + 1) header.program {}).run c ≠
    .error .running

section Loop

variable {header : LineHeader} {files : List (List UInt8)} {linkAddress : Nat} {c : Cursor}
  {s s' : LineTurn}

/-- What an iteration does. -/
theorem LineTurn.next_eq_some (h : s.next header files linkAddress = some s') :
    s.Going header ∧ ∃ i,
      (do seek s.position; fetch header : Reader Cursor Instruction).run s.cursor =
        .ok (i, s'.cursor) ∧
      s' = ⟨s'.cursor.position, s.walk.execute header files linkAddress i, s'.cursor⟩ := by
  unfold next at h
  split at h
  · next going =>
      split at h
      · next i c' fetched =>
          cases h
          exact ⟨going, i, fetched, rfl⟩
      · cases h
  · cases h

theorem LineTurn.after_sound (sound : c.Sound) {n : Nat}
    (reached : after header files linkAddress n (start header c) = some s) : s.cursor.Sound := by
  induction n generalizing s with
  | zero =>
      cases reached
      exact sound
  | succ n ih =>
      obtain ⟨before, reached, step⟩ := Option.bind_eq_some_iff.mp reached
      obtain ⟨-, i, fetched, -⟩ := next_eq_some step
      have safe : Safe (do seek before.position; fetch header : Reader Cursor Instruction) :=
        .bind (seek_safe _) fun _ => fetch_safe header
      exact (safe _ (ih reached)).1 _ _ fetched

/-- Where every iteration advances there are no more of them than positions. -/
theorem LineTurn.add_le_position {n : Nat}
    (advances : ∀ n s s', after header files linkAddress n (start header c) = some s →
      s.next header files linkAddress = some s' → s.position < s'.position)
    (reached : after header files linkAddress n (start header c) = some s) :
    header.program + n ≤ s.position := by
  induction n generalizing s with
  | zero =>
      cases reached
      exact le_rfl
  | succ n ih =>
      obtain ⟨before, there, step⟩ := Option.bind_eq_some_iff.mp reached
      have low := ih there
      have less := advances n before s there step
      omega

theorem LineTurn.after_cons {t : LineTurn} (step : s.next header files linkAddress = some t)
    {n : Nat} (rest : after header files linkAddress n t = some s') :
    after header files linkAddress (n + 1) s = some s' := by
  induction n generalizing s' with
  | zero =>
      cases rest
      exact step
  | succ n ih =>
      obtain ⟨before, there, last⟩ := Option.bind_eq_some_iff.mp rest
      exact Option.bind_eq_some_iff.mpr ⟨before, ih there, last⟩

/-- The loop is still running only where it has made all of its iterations. -/
theorem exists_after_of_running {fuel : Nat}
    (running : (walk header files linkAddress fuel s.position s.walk).run s.cursor =
      .error .running) : ∃ s', LineTurn.after header files linkAddress fuel s = some s' := by
  induction fuel generalizing s with
  | zero => exact ⟨s, rfl⟩
  | succ fuel ih =>
      rw [walk_run] at running
      split at running
      · next going =>
          cases fetched : (do seek s.position; fetch header : Reader Cursor Instruction).run
            s.cursor with
          | error stop =>
              rw [fetched] at running
              cases running
              exact absurd fetched (Halts.bind (seek_halts _) (fun _ => fetch_halts) _)
          | ok pair =>
              obtain ⟨i, c'⟩ := pair
              rw [fetched] at running
              have step : s.next header files linkAddress =
                  some ⟨c'.position, s.walk.execute header files linkAddress i, c'⟩ := by
                rw [LineTurn.next, if_pos (show s.Going header from going), fetched]
              obtain ⟨s', reached⟩ :=
                @ih ⟨c'.position, s.walk.execute header files linkAddress i, c'⟩ running
              exact ⟨s', LineTurn.after_cons step reached⟩
      · cases running

/-- The end of a program that is read is a `u64`. -/
theorem readLineHeader_stop (tables : Tables) :
    Gives (readLineHeader tables) fun decoded => decoded.1.stop < 2 ^ 64 := by
  have fields (tables : Tables) (version program : Nat) {stop : Nat} (small : stop < 2 ^ 64) :
      Gives (readLineFields tables version program stop) fun decoded => decoded.1.stop < 2 ^ 64 :=
    .bind fun _ => .bind fun _ => .bind fun _ => .bind fun _ => .bind fun _ => .bind fun _ =>
      .bind fun _ => .bind fun _ => .bind fun _ => .pure small
  exact .bind fun _ => .bind fun _ => .bind fun _ => .bind fun _ => .bind fun _ => .bind fun _ =>
    .bind fun _ => .bind fun _ => fields _ _ _ (u64_lt _)

/-- The opcode loop of `line_position` advances with every iteration, and so ends, exactly where
no iteration is at an extended opcode that wraps. -/
theorem advances_iff {tables : Tables} {unit : CompilationUnit}
    {decoded : LineHeader × List (List UInt8)} (sound : tables.Sound)
    (decodes : (do seek unit.lineProgram; readLineHeader tables :
      Reader Cursor (LineHeader × List (List UInt8))).run tables.debugLine.cursor
        = .ok (decoded, c)) :
    Advances decoded.1 unit.files linkAddress c ↔
      ∀ n s, LineTurn.after decoded.1 unit.files linkAddress n (.start decoded.1 c) = some s →
        (s.next decoded.1 unit.files linkAddress).isSome →
        ¬ WrapsAt decoded.1 s.position s.cursor := by
  have small : decoded.1.stop < 2 ^ 64 := by
    obtain ⟨done, c₀, -, read⟩ := run_bind_ok decodes
    exact readLineHeader_stop tables _ _ _ read
  have behind : c.Sound := by
    have safe : Safe (do seek unit.lineProgram; readLineHeader tables :
        Reader Cursor (LineHeader × List (List UInt8))) :=
      .bind (seek_safe _) fun _ => readLineHeader_safe sound
    exact (safe _ sound.debugLine.cursor).1 _ _ decodes
  have turn {n : Nat} {s s' : LineTurn}
      (reached : LineTurn.after decoded.1 unit.files linkAddress n (.start decoded.1 c) = some s)
      (step : s.next decoded.1 unit.files linkAddress = some s') :
      s.position < s'.position ↔ ¬ WrapsAt decoded.1 s.position s.cursor := by
    obtain ⟨-, i, fetched, same⟩ := LineTurn.next_eq_some step
    have place : s'.position = s'.cursor.position := by
      rw [same]
    rw [place]
    exact fetch_advances (LineTurn.after_sound behind reached) small fetched
  constructor
  · intro advances n s reached goes
    obtain ⟨s', step⟩ := Option.isSome_iff_exists.mp goes
    exact (turn reached step).mp (advances.position n s s' reached step)
  · intro straight
    have position : ∀ n s s', LineTurn.after decoded.1 unit.files linkAddress n
        (.start decoded.1 c) = some s → s.next decoded.1 unit.files linkAddress = some s' →
          s.position < s'.position := by
      intro n s s' reached step
      exact (turn reached step).mpr (straight n s reached (Option.isSome_iff_exists.mpr ⟨s', step⟩))
    have turns : ∀ n s, LineTurn.after decoded.1 unit.files linkAddress n (.start decoded.1 c) =
        some s → n ≤ decoded.1.stop := by
      intro n s reached
      cases n with
      | zero => exact Nat.zero_le _
      | succ n =>
          obtain ⟨before, there, step⟩ := Option.bind_eq_some_iff.mp reached
          have low := LineTurn.add_le_position position there
          have going := (LineTurn.next_eq_some step).1.1
          omega
    refine ⟨position, turns, fun running => ?_⟩
    obtain ⟨s', reached⟩ := @exists_after_of_running decoded.1 unit.files linkAddress
      (.start decoded.1 c) _ running
    have := turns _ _ reached
    omega

end Loop

/-! ## A length that leads back -/

section Size

/-- The reader leaves the size of the section as it is. -/
abbrev KeepsSize {α : Type} (m : Reader Cursor α) : Prop := Moves (fun c c' => c'.size = c.size) m

theorem Cursor.GoesAhead.keepsSize {α : Type} {m : Reader Cursor α} (ahead : GoesAhead m) :
    KeepsSize m := fun c a c' read => (ahead c a c' read).size

theorem seek_keepsSize (position : Nat) : KeepsSize (seek position) := by
  intro c a c' read
  rw [seek_run] at read
  split at read
  · cases read
    rfl
  · cases read

theorem fetch_keepsSize (header : LineHeader) : KeepsSize (fetch header) := by
  have refl (c : Cursor) : c.size = c.size := rfl
  have trans {a b c : Cursor} (first : b.size = a.size) (second : c.size = b.size) :
      c.size = a.size := second.trans first
  have get : KeepsSize (get : Reader Cursor Cursor) := by
    rintro c _ _ ⟨⟩
    rfl
  have require (condition : Bool) : KeepsSize (Reader.require condition) := by
    cases condition with
    | true => exact .pure refl ()
    | false => exact .refused
  refine .bind trans (fixed_ahead 1).keepsSize fun opcode => .ite (.pure refl _) (.ite ?_
    (fetchStandard_ahead opcode).keepsSize)
  refine .bind trans uleb_ahead.keepsSize fun length => .bind trans get fun c =>
    .bind trans (require _) fun _ => .bind trans (fixed_ahead 1).keepsSize fun subOpcode =>
      .bind trans ?_ fun _ => .bind trans (seek_keepsSize _) fun _ => .pure refl _
  exact .ite (.pure refl _) (.ite (.bind trans (fixed_ahead _).keepsSize fun _ => .pure refl _)
    (.pure refl _))

theorem LineTurn.after_size {header : LineHeader} {files : List (List UInt8)} {linkAddress n : Nat}
    {c : Cursor} {s : LineTurn}
    (reached : after header files linkAddress n (start header c) = some s) :
    s.cursor.size = c.size := by
  induction n generalizing s with
  | zero =>
      cases reached
      rfl
  | succ n ih =>
      obtain ⟨before, there, step⟩ := Option.bind_eq_some_iff.mp reached
      obtain ⟨-, i, fetched, -⟩ := next_eq_some step
      have keeps : KeepsSize (do seek before.position; fetch header : Reader Cursor Instruction) :=
        .bind (fun first second => second.trans first) (seek_keepsSize _) fun _ => fetch_keepsSize _
      rw [keeps _ _ _ fetched, ih there]

/-- A program that ends with its section has no opcode that wraps. -/
theorem not_wrapsAt_of_last {header : LineHeader} {position : Nat} {c : Cursor} (sound : c.Sound)
    (last : c.size ≤ header.stop) : ¬ WrapsAt header position c := by
  rintro ⟨length, c', read, beyond, -⟩
  obtain ⟨done, c₀, sought, read⟩ := run_bind_ok read
  obtain ⟨opcode, c₁, first, read⟩ := run_bind_ok read
  obtain ⟨-, field⟩ := run_require_ok read
  have safe : Safe (do seek position; let _ ← fixed 1; uleb : Reader Cursor Nat) :=
    .bind (seek_safe _) fun _ => .bind (fixed_safe 1) fun _ => uleb_safe
  have whole : (do seek position; let _ ← fixed 1; uleb : Reader Cursor Nat).run c =
      .ok (length, c') := by
    rw [run_bind_eq sought, run_bind_eq first, field]
  have inside := ((safe c sound).1 _ _ whole).inside
  have size : c'.size = c.size := by
    rw [(uleb_ahead _ _ _ field).size, (fixed_ahead 1 _ _ _ first).size,
      seek_keepsSize _ _ _ _ sought]
  omega

end Size

/-- A program of one extended opcode. What follows it in the section is a length of
`2 ^ 64 - 11`, which leads from its end back to the opcode. -/
def leadingBack : List UInt8 :=
  lineHeaderBytes [0] ++ [0xF5, 0xFF, 0xFF, 0xFF, 0xFF, 0xFF, 0xFF, 0xFF, 0xFF, 0x01] ++ [3]

/-- What the header of it decodes to. -/
def leadingBackHeader : LineHeader := { lineHeader leadingBack with stop := 36 }

theorem lineTables_sound {contents : List UInt8} (small : contents.length < 2 ^ 64) :
    (lineTables contents).Sound where
  debugStr := ⟨.inl rfl, of_decide_eq_true rfl⟩
  debugLineStr := ⟨.inl rfl, of_decide_eq_true rfl⟩
  debugStrOffsets := ⟨.inl rfl, of_decide_eq_true rfl⟩
  debugAddr := ⟨.inl rfl, of_decide_eq_true rfl⟩
  debugLine := ⟨.inr ⟨contents, rfl, le_rfl⟩, small⟩
  debugRnglists := ⟨.inl rfl, of_decide_eq_true rfl⟩
  debugRanges := ⟨.inl rfl, of_decide_eq_true rfl⟩

/-- The loop over a program that ends with its section ends. -/
theorem advances_iff_rowAtOnce : Advances (lineHeader rowAtOnce) lineUnit.files 0x1001
    (lineCursor rowAtOnce) := by
  have sound := @lineTables_sound rowAtOnce (by decide)
  have decodes : (do seek lineUnit.lineProgram; readLineHeader (lineTables rowAtOnce) :
      Reader Cursor (LineHeader × List (List UInt8))).run (lineTables rowAtOnce).debugLine.cursor
        = .ok ((lineHeader rowAtOnce, [[], [97]]), lineCursor rowAtOnce) := by decide +kernel
  refine (advances_iff sound decodes).mpr fun n s reached _ => ?_
  have start : (lineCursor rowAtOnce).Sound :=
    ⟨.inr ⟨rowAtOnce, rfl, le_rfl⟩, by decide, by decide⟩
  have size := LineTurn.after_size reached
  exact not_wrapsAt_of_last (LineTurn.after_sound start reached) (size.trans_le le_rfl)

/-- The first iteration leads back to where it began, and `line_position` never returns. -/
theorem not_advances_leadingBack : (lineTables leadingBack).Sound ∧
    (∀ linkAddress fuel,
      linePosition (lineTables leadingBack) lineUnit linkAddress fuel = .error .running) ∧
    (do seek lineUnit.lineProgram; readLineHeader (lineTables leadingBack) :
      Reader Cursor (LineHeader × List (List UInt8))).run (lineTables leadingBack).debugLine.cursor
        = .ok ((leadingBackHeader, [[], [97]]), lineCursor leadingBack) ∧
    ∀ linkAddress, ¬ Advances leadingBackHeader lineUnit.files linkAddress
      (lineCursor leadingBack) := by
  have decodes : (do seek lineUnit.lineProgram; readLineHeader (lineTables leadingBack) :
      Reader Cursor (LineHeader × List (List UInt8))).run (lineTables leadingBack).debugLine.cursor
        = .ok ((leadingBackHeader, [[], [97]]), lineCursor leadingBack) := by decide +kernel
  have fetched : (do seek 35; fetch leadingBackHeader : Reader Cursor Instruction).run
      (lineCursor leadingBack) = .ok (.other, lineCursor leadingBack) := by decide +kernel
  have loops (linkAddress fuel : Nat) : (walk leadingBackHeader lineUnit.files linkAddress fuel 35
      {}).run (lineCursor leadingBack) = .error .running := by
    induction fuel with
    | zero => rfl
    | succ fuel ih =>
        rw [walk_run, if_pos ⟨by decide, rfl⟩, fetched]
        exact ih
  refine ⟨lineTables_sound (by decide), fun linkAddress fuel => ?_, decodes, fun linkAddress => ?_⟩
  · have runs : (do
        seek lineUnit.lineProgram
        let decoded ← readLineHeader (lineTables leadingBack)
        walk decoded.1 lineUnit.files linkAddress fuel decoded.1.program {} :
          Reader Cursor (Option SourcePosition)).run (lineTables leadingBack).debugLine.cursor =
            .error .running := by
      obtain ⟨done, c₀, sought, read⟩ := run_bind_ok decodes
      rw [run_bind_eq sought, run_bind_eq read]
      exact loops linkAddress fuel
    rw [linePosition, if_neg (by decide), attempt, runs]
    rfl
  · intro advances
    exact advances.ends (loops linkAddress _)

end Fpag.Debug
