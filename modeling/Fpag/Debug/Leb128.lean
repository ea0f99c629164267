import Fpag.Debug.Padding
import Fpag.Debug.Onward

/-!
What the reads of a cursor come to on a section of any bytes.

`Padding` says what `uleb` and `sleb` make of an encoding that is there. This module starts from
the bytes instead: `encoding?` cuts off the bytes up to the first one without the continuation
bit, and both loops are run once for all cursors in terms of it. A call that is refused may have
moved its cursor before it gave up, so the cursor that a call leaves behind is a function of its
own, `Cursor.after`, which a `Reader` does not show.
-/

namespace Fpag.Debug

open Cursor Reader

/-! ## The groups of an encoding -/

/-- The bytes up to the first one without the continuation bit. -/
def encoding? : List UInt8 → Option (List UInt8)
  | [] => none
  | byte :: bytes =>
      if byte.toNat < 128 then some [byte] else (encoding? bytes).map (byte :: ·)

/-- The number that groups of seven bits make, the lowest group first. -/
def groups : List UInt8 → Nat
  | [] => 0
  | byte :: bytes => byte.toNat % 128 + 128 * groups bytes

/-- The same number with the highest bit of the last group for its sign. -/
def signedGroups : List UInt8 → Int
  | [] => 0
  | [byte] => if byte.toNat % 128 < 64 then byte.toNat % 128 else byte.toNat % 128 - 128
  | byte :: next :: bytes => byte.toNat % 128 + 128 * signedGroups (next :: bytes)

theorem signedGroups_cons (byte : UInt8) {bytes : List UInt8} (more : bytes ≠ []) :
    signedGroups (byte :: bytes) = byte.toNat % 128 + 128 * signedGroups bytes := by
  cases bytes with
  | nil => exact absurd rfl more
  | cons next bytes => rw [signedGroups]

theorem encoding?_ne_nil {bytes found : List UInt8} (h : encoding? bytes = some found) :
    found ≠ [] := by
  cases bytes with
  | nil => cases h
  | cons byte bytes =>
      rw [encoding?] at h
      split at h
      · cases h
        exact List.cons_ne_nil _ _
      · obtain ⟨rest, -, rfl⟩ := Option.map_eq_some_iff.mp h
        exact List.cons_ne_nil _ _

/-- An encoding is found when a byte without the continuation bit is there. -/
theorem encoding?_isSome {bytes : List UInt8} :
    (∃ found, encoding? bytes = some found) ↔ ∃ byte ∈ bytes, byte.toNat < 128 := by
  induction bytes with
  | nil => simp [encoding?]
  | cons byte bytes ih =>
      rw [encoding?]
      split
      · next small => simp [small]
      · next large => simp [large, ← ih]

/-- What is found are the first bytes, and they are an encoding of their groups. -/
theorem encoding?_spec {bytes found : List UInt8} (h : encoding? bytes = some found) :
    found <+: bytes ∧ IsUleb found (groups found) ∧ IsSleb found (signedGroups found) := by
  induction bytes generalizing found with
  | nil => cases h
  | cons byte bytes ih =>
      rw [encoding?] at h
      split at h
      · next small =>
          cases h
          have unsigned := IsUleb.last small
          have signed := IsSleb.last small
          refine ⟨⟨bytes, rfl⟩, ?_, ?_⟩
          · rw [groups, groups, Nat.mod_eq_of_lt small]
            exact unsigned
          · have low : (byte.toNat : Int) % 128 = byte.toNat := by omega
            rw [signedGroups, Nat.mod_eq_of_lt small, low]
            exact signed
      · next large =>
          obtain ⟨rest, cut, rfl⟩ := Option.map_eq_some_iff.mp h
          obtain ⟨front, unsigned, signed⟩ := ih cut
          refine ⟨List.cons_prefix_cons.mpr ⟨rfl, front⟩, .more (by omega) unsigned, ?_⟩
          have step := IsSleb.more (by omega : 128 ≤ byte.toNat) signed
          rw [signedGroups_cons byte (encoding?_ne_nil cut)]
          push_cast at step
          exact step

/-- An encoding that is there is found, and its number is that of its groups. -/
theorem IsUleb.found {bytes : List UInt8} {value : Nat} (is : IsUleb bytes value)
    (rest : List UInt8) : encoding? (bytes ++ rest) = some bytes ∧ value = groups bytes := by
  induction is with
  | @last byte small => simp [encoding?, groups, small, Nat.mod_eq_of_lt small]
  | @more byte bytes value large tail ih =>
      rw [List.cons_append, encoding?, if_neg (by omega), ih.1, groups, ← ih.2]
      exact ⟨rfl, rfl⟩

theorem IsSleb.found {bytes : List UInt8} {value : Int} (is : IsSleb bytes value)
    (rest : List UInt8) : encoding? (bytes ++ rest) = some bytes ∧ value = signedGroups bytes := by
  induction is with
  | @last byte small =>
      have low : (byte.toNat : Int) % 128 = byte.toNat := by omega
      simp [encoding?, signedGroups, small, Nat.mod_eq_of_lt small, low]
  | @more byte bytes value large tail ih =>
      have more : bytes ≠ [] := List.ne_nil_of_length_pos tail.pos
      rw [List.cons_append, encoding?, if_neg (by omega), ih.1, signedGroups_cons byte more, ← ih.2]
      exact ⟨rfl, by push_cast; rfl⟩

/-! ## The bytes that are left -/

namespace Cursor

/-- The bytes from the position to the end of the section. -/
def left (c : Cursor) : List UInt8 :=
  ((c.data.getD []).drop c.position).take (c.size - c.position)

theorem left_advance (c : Cursor) (n : Nat) : (c.advance n).left = c.left.drop n := by
  simp only [left, advance, List.drop_take, List.drop_drop, Nat.sub_add_eq]

variable {c : Cursor}

theorem Sound.left_length (sound : c.Sound) : c.left.length = c.size - c.position := by
  have inside := sound.inside
  obtain zero | ⟨bytes, data, le⟩ := sound.backed
  · rw [left, List.length_take, zero]
    omega
  · rw [left, data, List.length_take, Option.getD_some, List.length_drop]
    omega

/-- One byte: the first of those that are left, when there is one. -/
theorem Sound.byte_run (sound : c.Sound) : (fixed 1).run c =
    match c.left with
    | [] => .error .refused
    | byte :: _ => .ok (byte.toNat, c.advance 1) := by
  have length := sound.left_length
  have room := subtract_eq sound.inside sound.small
  cases hleft : c.left with
  | nil =>
      rw [hleft, List.length_nil] at length
      exact sound.fixed_refused (by omega)
  | cons byte rest =>
      rw [hleft, List.length_cons] at length
      have accepts : c.refuses 1 = false := refuses_eq_false.mpr ⟨by decide, by decide, by omega⟩
      obtain zero | ⟨bytes, data, le⟩ := sound.backed
      · omega
      · have got : (bytes.drop c.position).take 1 = [byte] := by
          have first := congrArg (List.take 1) hleft
          rw [left, data, List.take_take, Option.getD_some, Nat.min_eq_left (by omega)] at first
          exact first
        rw [fixed_run, accepts]
        simp only [load, data, got]
        rfl

theorem Sound.advance_one (sound : c.Sound) {byte : UInt8} {rest : List UInt8}
    (hleft : c.left = byte :: rest) : (c.advance 1).Sound ∧ (c.advance 1).left = rest := by
  have length := sound.left_length
  rw [hleft, List.length_cons] at length
  refine ⟨sound.advance ?_, ?_⟩
  · rw [subtract_eq sound.inside sound.small]
    omega
  · rw [left_advance, hleft]
    rfl

/-! ## The loops -/

/-- Seven more bits, modulo `2 ^ 64`. -/
theorem addBits_mod {value shift : Nat} (low : value < 2 ^ shift) (inside : shift < 64)
    (byte : Nat) : addBits value shift byte = (value + byte % 128 * 2 ^ shift) % 2 ^ 64 := by
  have high := u64_shifted_le inside.le (byte % 128)
  have below : 2 ^ shift < 2 ^ 64 := Nat.pow_lt_pow_right (by decide) inside
  rw [addBits_eq low inside]
  simp only [u64] at high ⊢
  omega

/-- The seven bits leave room for those that follow. -/
theorem addBits_below {value shift count : Nat} (low : value < 2 ^ shift) (pos : 0 < count)
    (turns : shift + 7 * (count + 1) = 70) (byte : Nat) :
    addBits value shift byte < 2 ^ (shift + 7) := by
  rw [addBits_mod low (by omega)]
  have digit : byte % 128 * 2 ^ shift ≤ 127 * 2 ^ shift := Nat.mul_le_mul_right _ (by omega)
  have bound := Nat.mod_le (value + byte % 128 * 2 ^ shift) (2 ^ 64)
  rw [Nat.pow_add]
  omega

/-- The loop of `uleb`, on any bytes: the first encoding among as many of them as it has turns
left, with its groups above the bits that are there. -/
theorem Sound.ulebLoop_run {count shift value : Nat} (sound : c.Sound)
    (turns : shift + 7 * count = 70) (low : 0 < count → value < 2 ^ shift) :
    (ulebLoop count shift value).run c =
      match encoding? (c.left.take count) with
      | none => .error .refused
      | some bytes =>
          .ok ((value + groups bytes * 2 ^ shift) % 2 ^ 64, c.advance bytes.length) := by
  induction count generalizing shift value c with
  | zero =>
      rw [List.take_zero]
      rfl
  | succ count ih =>
      have byte_run := sound.byte_run
      cases hleft : c.left with
      | nil =>
          rw [hleft] at byte_run
          exact Reader.run_bind_error byte_run
      | cons byte rest =>
          rw [hleft] at byte_run
          obtain ⟨sound', left'⟩ := sound.advance_one hleft
          have below := low (Nat.succ_pos count)
          have bits := addBits_mod below (by omega) byte.toNat
          rw [ulebLoop, Reader.run_bind_eq byte_run, List.take_succ_cons, encoding?]
          by_cases small : byte.toNat < 128
          · rw [if_pos ((byte_last _ byte.toNat_lt).mpr small), if_pos small, bits]
            rfl
          · have more : ¬ byte.toNat &&& 0x80 = 0 := by
              rw [byte_last _ byte.toNat_lt]
              exact small
            have fits : 0 < count → addBits value shift byte.toNat < 2 ^ (shift + 7) :=
              fun pos => addBits_below below pos turns _
            rw [if_neg more, if_neg small, ih sound' (by omega) fits, left', bits]
            cases cut : encoding? (rest.take count) with
            | none => rfl
            | some found =>
                have whole : value + byte.toNat % 128 * 2 ^ shift + groups found * 2 ^ (shift + 7) =
                    value + groups (byte :: found) * 2 ^ shift := by
                  rw [groups, Nat.pow_add]
                  ring
                simp only [Option.map_some, Nat.mod_add_mod, whole, advance_advance,
                  List.length_cons, Nat.add_comm 1]

/-- The loop of `sleb`, on any bytes. -/
theorem Sound.slebLoop_run {count shift value : Nat} (sound : c.Sound)
    (turns : shift + 7 * count = 70) (low : 0 < count → value < 2 ^ shift) :
    (slebLoop count shift value).run c =
      match encoding? (c.left.take count) with
      | none => .error .refused
      | some bytes =>
          .ok (i64 ((value + signedGroups bytes * (2 ^ shift : Nat)) % 2 ^ 64).toNat,
            c.advance bytes.length) := by
  induction count generalizing shift value c with
  | zero =>
      rw [List.take_zero]
      rfl
  | succ count ih =>
      have byte_run := sound.byte_run
      cases hleft : c.left with
      | nil =>
          rw [hleft] at byte_run
          exact Reader.run_bind_error byte_run
      | cons byte rest =>
          rw [hleft] at byte_run
          obtain ⟨sound', left'⟩ := sound.advance_one hleft
          have below := low (Nat.succ_pos count)
          rw [slebLoop, Reader.run_bind_eq byte_run, List.take_succ_cons, encoding?]
          by_cases small : byte.toNat < 128
          · have digit : (byte.toNat : Int) = signedGroups [byte] % 128 := by
              rw [signedGroups]
              split <;> omega
            have range : -64 ≤ signedGroups [byte] ∧ signedGroups [byte] < 64 := by
              rw [signedGroups]
              split <;> omega
            rw [if_pos ((byte_last _ byte.toNat_lt).mpr small), if_pos small,
              addBits_eq below (by omega), Nat.mod_eq_of_lt small]
            have sign := addSign_eq below (by omega : shift < 64) digit range
            simp only [← sign]
            rfl
          · have more : ¬ byte.toNat &&& 0x80 = 0 := by
              rw [byte_last _ byte.toNat_lt]
              exact small
            have fits : 0 < count → addBits value shift byte.toNat < 2 ^ (shift + 7) :=
              fun pos => addBits_below below pos turns _
            rw [if_neg more, if_neg small, ih sound' (by omega) fits, left',
              addBits_mod below (by omega)]
            cases cut : encoding? (rest.take count) with
            | none => rfl
            | some found =>
                have whole : ((value + byte.toNat % 128 * 2 ^ shift : Nat) : Int) +
                    signedGroups found * (2 ^ (shift + 7) : Nat) =
                    value + signedGroups (byte :: found) * (2 ^ shift : Nat) := by
                  rw [signedGroups_cons byte (encoding?_ne_nil cut), Nat.pow_add]
                  push_cast
                  ring
                simp only [Option.map_some, Int.natCast_emod, Nat.cast_pow, Nat.cast_ofNat]
                  at whole ⊢
                simp only [Int.emod_add_emod, whole, advance_advance, List.length_cons,
                  Nat.add_comm 1]

/-- `Cursor::uleb` on a section of any bytes. -/
theorem Sound.uleb_run (sound : c.Sound) : uleb.run c =
    match encoding? (c.left.take 10) with
    | none => .error .refused
    | some bytes => .ok (groups bytes % 2 ^ 64, c.advance bytes.length) := by
  have run := sound.ulebLoop_run (by decide : 0 + 7 * 10 = 70) fun _ => Nat.two_pow_pos 0
  simp only [Nat.pow_zero, Nat.mul_one, Nat.zero_add] at run
  exact run

/-- `Cursor::sleb` on a section of any bytes. -/
theorem Sound.sleb_run (sound : c.Sound) : sleb.run c =
    match encoding? (c.left.take 10) with
    | none => .error .refused
    | some bytes => .ok (i64 (signedGroups bytes % 2 ^ 64).toNat, c.advance bytes.length) := by
  have run := sound.slebLoop_run (by decide : 0 + 7 * 10 = 70) fun _ => Nat.two_pow_pos 0
  simp only [Nat.pow_zero, Nat.cast_one, Int.mul_one, Nat.cast_zero, Int.zero_add] at run
  exact run

/-! ## The cursor behind a call -/

/-- The calls that move a cursor. -/
inductive Operation : Type
  | fixed (bytes : Nat)
  | uleb
  | sleb
  | skip (bytes : Nat)
  | string
  | seek (position : Nat)
  deriving DecidableEq

/-- The cursor behind a call that moves it in its last step only. -/
def moved {α : Type} (m : Reader Cursor α) (c : Cursor) : Cursor :=
  match m.run c with
  | .ok (_, c') => c'
  | .error _ => c

/-- The cursor behind the loops of `uleb` and `sleb`, which do not give back the bytes that they
read before they fail. -/
def lebMoved : Nat → Cursor → Cursor
  | 0, c => c
  | count + 1, c =>
      match (Cursor.fixed 1).run c with
      | .ok (byte, c') => if byte &&& 0x80 = 0 then c' else lebMoved count c'
      | .error _ => c

/-- The cursor that a call leaves behind, whether it succeeds or not. -/
def after (c : Cursor) : Operation → Cursor
  | .fixed bytes => moved (Cursor.fixed bytes) c
  | .uleb => lebMoved 10 c
  | .sleb => lebMoved 10 c
  | .skip bytes => moved (Cursor.skip bytes) c
  | .string => moved Cursor.string c
  | .seek position => moved (Cursor.seek position) c

/-- A loop that reads a number leaves the cursor where its reader says. -/
theorem ulebLoop_moved {count shift value v : Nat} {c' : Cursor}
    (read : (ulebLoop count shift value).run c = .ok (v, c')) : lebMoved count c = c' := by
  induction count generalizing shift value c with
  | zero => cases read
  | succ count ih =>
      obtain ⟨byte, c₁, first, rest⟩ := Reader.run_bind_ok read
      rw [lebMoved, first]
      split at rest
      · next last =>
          cases rest
          exact if_pos last
      · next more => exact (if_neg more).trans (ih rest)

theorem slebLoop_moved {count shift value : Nat} {v : Int} {c' : Cursor}
    (read : (slebLoop count shift value).run c = .ok (v, c')) : lebMoved count c = c' := by
  induction count generalizing shift value c with
  | zero => cases read
  | succ count ih =>
      obtain ⟨byte, c₁, first, rest⟩ := Reader.run_bind_ok read
      rw [lebMoved, first]
      split at rest
      · next last =>
          cases rest
          exact if_pos last
      · next more => exact (if_neg more).trans (ih rest)

/-- A sound cursor of the same section. -/
def Stays (c c' : Cursor) : Prop := c.Sound → c'.Sound ∧ c'.size = c.size

theorem Stays.refl (c : Cursor) : c.Stays c := fun sound => ⟨sound, rfl⟩

theorem Stays.trans {a b c : Cursor} (first : a.Stays b) (second : b.Stays c) : a.Stays c := by
  intro sound
  obtain ⟨middle, size⟩ := first sound
  obtain ⟨last, size'⟩ := second middle
  exact ⟨last, size'.trans size⟩

theorem GoesOn.stays_sound {α : Type} {m : Reader Cursor α} (goesOn : GoesOn m) : Moves Stays m :=
  goesOn.weaken fun onward sound => ⟨(onward sound).1, (onward sound).2.1⟩

theorem seek_stays (position : Nat) : Moves Stays (Cursor.seek position) := by
  intro c a c' read sound
  exact ⟨(seek_safe position c sound).1 a c' read, seek_keepsSize position c a c' read⟩

theorem moved_stays {α : Type} {m : Reader Cursor α} (stays : Moves Stays m) (c : Cursor) :
    c.Stays (moved m c) := by
  unfold moved
  cases read : m.run c with
  | error stop => exact .refl c
  | ok result => exact stays c _ _ read

theorem lebMoved_stays (count : Nat) (c : Cursor) : c.Stays (lebMoved count c) := by
  induction count generalizing c with
  | zero => exact .refl c
  | succ count ih =>
      rw [lebMoved]
      cases read : (Cursor.fixed 1).run c with
      | error stop => exact .refl c
      | ok result =>
          have first := (fixed_takes 1).goesOn.stays_sound c _ _ read
          dsimp only
          split
          · exact first
          · exact first.trans (ih _)

/-- No call leaves the section. -/
theorem after_stays (c : Cursor) (operation : Operation) : c.Stays (c.after operation) := by
  cases operation with
  | fixed bytes => exact moved_stays (fixed_takes bytes).goesOn.stays_sound c
  | uleb => exact lebMoved_stays 10 c
  | sleb => exact lebMoved_stays 10 c
  | skip bytes => exact moved_stays (skip_goesOn bytes).stays_sound c
  | string => exact moved_stays string_takes.goesOn.stays_sound c
  | seek position => exact moved_stays (seek_stays position) c

/-- Neither does any sequence of calls. -/
theorem foldl_after_stays (c : Cursor) (operations : List Operation) :
    c.Stays (operations.foldl after c) := by
  induction operations generalizing c with
  | nil => exact .refl c
  | cons operation operations ih => exact (after_stays c operation).trans (ih _)

/-- An encoding that lies ahead is the one that is found. -/
theorem encoding?_left {bytes : List UInt8} (ahead : bytes <+: c.left) (short : bytes.length ≤ 10)
    (found : ∀ rest, encoding? (bytes ++ rest) = some bytes) :
    encoding? (c.left.take 10) = some bytes := by
  obtain ⟨rest, left⟩ := ahead
  rw [← left, List.take_append, List.take_of_length_le short]
  exact found _

/-- `uleb` and `sleb` read exactly the numbers of the first encoding among the next ten bytes, and
no call moves the cursor out of its section. -/
theorem leb_exact {c : Cursor} (sound : c.Sound) :
    ((∃ byte ∈ c.left.take 10, byte.toNat < 128) →
      ∃ bytes, bytes <+: c.left.take 10 ∧ IsUleb bytes (groups bytes) ∧
        IsSleb bytes (signedGroups bytes) ∧
        uleb.run c = .ok (groups bytes % 2 ^ 64, c.advance bytes.length) ∧
        sleb.run c = .ok (i64 (signedGroups bytes % 2 ^ 64).toNat, c.advance bytes.length)) ∧
    ((¬ ∃ byte ∈ c.left.take 10, byte.toNat < 128) →
      uleb.run c = .error .refused ∧ sleb.run c = .error .refused) ∧
    (∀ bytes value, IsUleb bytes value → bytes.length ≤ 10 → value < 2 ^ 64 →
      bytes <+: c.left → uleb.run c = .ok (value, c.advance bytes.length)) ∧
    (∀ bytes value, IsSleb bytes value → bytes.length ≤ 10 → -2 ^ 63 ≤ value → value < 2 ^ 63 →
      bytes <+: c.left → sleb.run c = .ok (value, c.advance bytes.length)) ∧
    ∀ operations : List Operation,
      (operations.foldl after c).position ≤ c.size ∧ (operations.foldl after c).size = c.size := by
  refine ⟨fun some => ?_, fun none => ?_, ?_, ?_, fun operations => ?_⟩
  · obtain ⟨bytes, found⟩ := encoding?_isSome.mpr some
    obtain ⟨front, unsigned, signed⟩ := encoding?_spec found
    refine ⟨bytes, front, unsigned, signed, ?_, ?_⟩
    · rw [sound.uleb_run, found]
    · rw [sound.sleb_run, found]
  · have missing : encoding? (c.left.take 10) = Option.none := by
      rw [← encoding?_isSome] at none
      exact Option.eq_none_iff_forall_ne_some.mpr fun bytes found => none ⟨bytes, found⟩
    exact ⟨by rw [sound.uleb_run, missing], by rw [sound.sleb_run, missing]⟩
  · intro bytes value is short small ahead
    have found := encoding?_left ahead short fun rest => (is.found rest).1
    rw [sound.uleb_run, found]
    dsimp only
    rw [← (is.found []).2, Nat.mod_eq_of_lt small]
  · intro bytes value is short lower upper ahead
    have found := encoding?_left ahead short fun rest => (is.found rest).1
    rw [sound.sleb_run, found]
    dsimp only
    rw [← (is.found []).2, i64_toNat lower upper]
  · obtain ⟨last, size⟩ := foldl_after_stays c operations sound
    exact ⟨size ▸ last.inside, size⟩

/-- The greatest `u64`, in ten bytes behind a byte that was read. -/
theorem leb_exact_long :
    uleb.run ⟨some (0 :: (List.replicate 9 0xFF ++ [0x01])), 11, 1⟩ =
      .ok (2 ^ 64 - 1, ⟨some (0 :: (List.replicate 9 0xFF ++ [0x01])), 11, 11⟩) := by
  have sound : Sound ⟨some (0 :: (List.replicate 9 0xFF ++ [0x01])), 11, 1⟩ :=
    ⟨.inr ⟨_, rfl, by decide⟩, by decide, by decide⟩
  have cut : encoding? (List.replicate 9 0xFF ++ [0x01]) = some (List.replicate 9 0xFF ++ [0x01]) :=
    by decide
  have is : IsUleb (List.replicate 9 0xFF ++ [0x01]) (2 ^ 64 - 1) := (encoding?_spec cut).2.1
  exact (leb_exact sound).2.2.1 _ _ is (by decide) (by decide) ⟨[], by decide⟩

end Cursor

end Fpag.Debug
