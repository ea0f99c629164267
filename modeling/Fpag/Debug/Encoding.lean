import Mathlib.Tactic.Linarith
import Fpag.Debug.Forms

/-!
Encodings: which bytes a reader of a section takes for a value.

`Reads m bytes a` says that the reader `m` on any cursor that is over `bytes` gives `a` and
moves exactly behind them, whatever follows; it composes along the binds of a reader. The
primitives of the cursor read back what the standard encodings of numbers and strings write.
-/

namespace Fpag.Debug

/-- From its position to the end of its section, the cursor has these bytes before it. -/
def Cursor.Over (c : Cursor) (bytes : List UInt8) : Prop :=
  ∃ front more, c.data = some (front ++ (bytes ++ more)) ∧ c.position = front.length ∧
    c.size = front.length + bytes.length ∧ c.size < 2 ^ 64

/-- The reader takes the bytes for the value. -/
def Reads {α : Type} (m : Reader Cursor α) (bytes : List UInt8) (a : α) : Prop :=
  ∀ c rest, Cursor.Over c (bytes ++ rest) → m.run c = .ok (a, c.advance bytes.length)

namespace Cursor

variable {c : Cursor} {bytes rest : List UInt8}

theorem Over.advance (ahead : c.Over (bytes ++ rest)) : (c.advance bytes.length).Over rest := by
  obtain ⟨front, more, data, position, size, small⟩ := ahead
  refine ⟨front ++ bytes, more, ?_, ?_, ?_, small⟩
  · rw [Cursor.advance, data, List.append_assoc, List.append_assoc]
  · rw [Cursor.advance, position, List.length_append]
  · rw [Cursor.advance, size, List.length_append, List.length_append]
    omega

/-- What is left of the section is what the cursor is over. -/
theorem Over.left (ahead : c.Over bytes) : subtract c.size c.position = bytes.length := by
  obtain ⟨front, more, -, position, size, small⟩ := ahead
  rw [subtract_eq (by omega) small]
  omega

theorem Over.position_add (ahead : c.Over bytes) : c.position + bytes.length = c.size := by
  obtain ⟨front, more, -, position, size, -⟩ := ahead
  omega

theorem Over.small (ahead : c.Over bytes) : c.size < 2 ^ 64 := by
  obtain ⟨front, more, -, -, -, small⟩ := ahead
  exact small

theorem Over.load (ahead : c.Over (bytes ++ rest)) : c.load bytes.length = .ok bytes := by
  obtain ⟨front, more, data, position, -, -⟩ := ahead
  have got : ((front ++ (bytes ++ rest ++ more)).drop c.position).take bytes.length = bytes := by
    rw [position, List.drop_left, List.append_assoc, List.take_left]
  simp only [Cursor.load, data, got, if_true]

/-- There is a turn for every byte that the cursor is over, and one more. -/
theorem Over.turns_bind {α : Type} {f : Nat → Reader Cursor α} (ahead : c.Over (bytes ++ rest)) :
    ∃ n, bytes.length < n ∧ (turns >>= f).run c = (f n).run c := by
  have sum := ahead.position_add
  rw [List.length_append] at sum
  exact ⟨_, by omega, Reader.run_bind_eq (turns_run c)⟩

theorem advance_advance (c : Cursor) (n m : Nat) : (c.advance n).advance m = c.advance (n + m) := by
  simp only [Cursor.advance, Nat.add_assoc]

end Cursor

namespace Reads

open Cursor

variable {α β : Type} {m : Reader Cursor α} {f : α → Reader Cursor β} {a : α} {b : β}
  {bytes bytes' : List UInt8}

theorem pure (a : α) : Reads (Pure.pure a) [] a := fun _ _ _ => rfl

theorem bind (first : Reads m bytes a) (then_ : Reads (f a) bytes' b) :
    Reads (m >>= f) (bytes ++ bytes') b := by
  intro c rest ahead
  rw [List.append_assoc] at ahead
  rw [Reader.run_bind_eq (first c _ ahead), then_ _ rest ahead.advance, advance_advance,
    List.length_append]

theorem run_bind {c : Cursor} {rest : List UInt8} (reads : Reads m bytes a)
    (ahead : c.Over (bytes ++ rest)) : (m >>= f).run c = (f a).run (c.advance bytes.length) :=
  Reader.run_bind_eq (reads c rest ahead)

/-- A step in front that reads a byte. -/
theorem bind_cons {byte : UInt8} (first : Reads m [byte] a) (then_ : Reads (f a) bytes b) :
    Reads (m >>= f) (byte :: bytes) b :=
  first.bind then_

/-- A step in front that reads nothing. -/
theorem bind_nil (first : Reads m [] a) (then_ : Reads (f a) bytes b) :
    Reads (m >>= f) bytes b :=
  first.bind then_

/-- A step at the end that reads nothing. -/
theorem bind_pure (first : Reads m bytes a) (then_ : Reads (f a) [] b) :
    Reads (m >>= f) bytes b := by
  have whole := first.bind then_
  rw [List.append_nil] at whole
  exact whole

theorem require {condition : Bool} (holds : condition = true) :
    Reads (Reader.require condition) [] () := by
  intro c rest ahead
  rw [Reader.require, if_pos holds]
  rfl

theorem ofExcept {result : Except Stop α} (ok : result = .ok a) :
    Reads (Reader.ofExcept result) [] a := by
  intro c rest ahead
  rw [ok]
  rfl

/-- A reader with a default goes on with what it reads. -/
theorem orElse {default : β} (first : Reads m bytes a) (then_ : Reads (f a) bytes' b) :
    Reads (m.orElse default f) (bytes ++ bytes') b := by
  intro c rest ahead
  rw [List.append_assoc] at ahead
  rw [Reader.run_orElse, first c _ ahead]
  change (f a).run (c.advance bytes.length) = _
  rw [then_ _ rest ahead.advance, advance_advance, List.length_append]

theorem run_orElse {default : β} {c : Cursor} {rest : List UInt8} (reads : Reads m bytes a)
    (ahead : c.Over (bytes ++ rest)) :
    (m.orElse default f).run c = (f a).run (c.advance bytes.length) := by
  rw [Reader.run_orElse, reads c rest ahead]

/-- One value after the other. -/
theorem repeated {ι : Type} {encode : ι → List UInt8} {value : ι → α} {xs : List ι}
    (each : ∀ x ∈ xs, Reads m (encode x) (value x)) :
    Reads (m.repeated xs.length) (xs.flatMap encode) (xs.map value) := by
  induction xs with
  | nil => exact .pure []
  | cons x xs ih =>
      rw [List.flatMap_cons]
      exact (each x (by simp)).bind
        ((ih fun y hy => each y (by simp [hy])).bind_pure (.pure _))

/-! ## Numbers -/

/-- Any few bytes are a number. -/
theorem raw {bytes : List UInt8} (pos : 0 < bytes.length) (le : bytes.length ≤ 8) :
    Reads (Cursor.fixed bytes.length) bytes (ofBytes bytes) := by
  intro c rest ahead
  have accepts : c.refuses bytes.length = false := by
    rw [refuses_eq_false, ahead.left, List.length_append]
    omega
  rw [fixed_run, accepts, ahead.load]
  rfl

theorem fixed {n value : Nat} (pos : 0 < n) (le : n ≤ 8) (small : value < 256 ^ n) :
    Reads (Cursor.fixed n) (toBytes n value) value := by
  have read := @raw (toBytes n value) (by rwa [length_toBytes]) (by rwa [length_toBytes])
  rw [length_toBytes, ofBytes_toBytes, Nat.mod_eq_of_lt small] at read
  exact read

theorem byte (value : UInt8) : Reads (Cursor.fixed 1) [value] value.toNat :=
  @raw [value] Nat.one_pos (Nat.le_add_left 1 7)

end Reads

/-! ## LEB128 -/

/-- The shortest unsigned LEB128 encoding of a number, in at most `n` bytes. -/
def ulebBytes : Nat → Nat → List UInt8
  | 0, _ => []
  | n + 1, value =>
      if value < 128 then [UInt8.ofNat value]
      else UInt8.ofNat (value % 128 + 128) :: ulebBytes n (value / 128)

/-- The encoding of a `u64`. -/
def encodeUleb (value : Nat) : List UInt8 := ulebBytes 10 value

/-- The shortest signed LEB128 encoding of a number, in at most `n` bytes. -/
def slebBytes : Nat → Int → List UInt8
  | 0, _ => []
  | n + 1, value =>
      if -64 ≤ value ∧ value < 64 then [UInt8.ofNat (value % 128).toNat]
      else UInt8.ofNat ((value % 128).toNat + 128) :: slebBytes n (value / 128)

/-- The encoding of an `i64`. -/
def encodeSleb (value : Int) : List UInt8 := slebBytes 10 value

/-- The length of the encoding does not depend on how long it may be. -/
theorem ulebBytes_succ {n value : Nat} (small : value < 128 ^ n) (pos : 0 < n) :
    ulebBytes (n + 1) value = ulebBytes n value := by
  induction n generalizing value with
  | zero => omega
  | succ n ih =>
      by_cases last : value < 128
      · simp only [ulebBytes, last, if_true]
      · have rest : value / 128 < 128 ^ n := by
          rw [Nat.div_lt_iff_lt_mul (by decide), ← Nat.pow_succ]
          exact small
        have more : 0 < n := by
          rcases n with _ | n
          · omega
          · exact Nat.succ_pos n
        rw [ulebBytes, if_neg last, ih rest more]
        simp only [ulebBytes, last, if_false]

theorem byte_low (byte : Nat) : byte &&& 0x7F = byte % 128 :=
  Nat.and_two_pow_sub_one_eq_mod byte 7

theorem byte_last : ∀ byte < 256, byte &&& 0x80 = 0 ↔ byte < 128 := by
  decide +kernel

theorem byte_negative : ∀ byte < 128, byte &&& 0x40 ≠ 0 ↔ 64 ≤ byte := by
  decide +kernel

/-- Bits above those of a value are added to it. -/
theorem or_shift {value bits shift : Nat} (low : value < 2 ^ shift) (inside : shift ≤ 64) :
    value ||| u64 (bits <<< shift) = value + u64 (bits * 2 ^ shift) := by
  have split : u64 (bits * 2 ^ shift) = (bits % 2 ^ (64 - shift)) * 2 ^ shift := by
    rw [u64, ← Nat.sub_add_cancel inside, Nat.pow_add, Nat.add_sub_cancel,
      Nat.mul_mod_mul_right]
  rw [Nat.shiftLeft_eq, split, Nat.mul_comm, Nat.or_comm, Nat.add_comm value,
    Nat.two_pow_add_eq_or_of_lt low]

/-- Seven more bits, of a byte that may announce another one. -/
theorem addBits_eq {value shift : Nat} (low : value < 2 ^ shift) (inside : shift < 64)
    (byte : Nat) :
    Cursor.addBits value shift byte = value + u64 (byte % 128 * 2 ^ shift) := by
  rw [Cursor.addBits, if_pos inside, byte_low, or_shift low inside.le]

namespace Reads

/-- A byte of a LEB128 number that is not the last one. -/
theorem byte_more {low : Nat} (small : low < 128) :
    Reads (Cursor.fixed 1) [UInt8.ofNat (low + 128)] (low + 128) := by
  have read := byte (UInt8.ofNat (low + 128))
  rw [UInt8.toNat_ofNat', Nat.mod_eq_of_lt (by omega)] at read
  exact read

theorem byte_end {low : Nat} (small : low < 128) :
    Reads (Cursor.fixed 1) [UInt8.ofNat low] low := by
  have read := byte (UInt8.ofNat low)
  rw [UInt8.toNat_ofNat', Nat.mod_eq_of_lt (by omega)] at read
  exact read

theorem ulebLoop {count shift value v : Nat} (turns : v < 128 ^ count) (pos : 0 < count)
    (low : value < 2 ^ shift) (inside : shift < 64) (fits : value + v * 2 ^ shift < 2 ^ 64) :
    Reads (Cursor.ulebLoop count shift value) (ulebBytes count v) (value + v * 2 ^ shift) := by
  induction count generalizing shift value v with
  | zero => omega
  | succ count ih =>
      have lowBits : v % 128 * 2 ^ shift ≤ v * 2 ^ shift :=
        Nat.mul_le_mul_right _ (Nat.mod_le v 128)
      have bits : u64 (v % 128 * 2 ^ shift) = v % 128 * 2 ^ shift := u64_eq (by omega)
      rw [ulebBytes]
      split
      · next last =>
          refine (byte_end last).bind_pure ?_
          rw [if_pos ((byte_last v (by omega)).mpr last), addBits_eq low inside, bits,
            Nat.mod_eq_of_lt last]
          exact .pure _
      · next more =>
          have shifted : shift + 7 < 64 := by
            have enough : 2 ^ (shift + 7) < 2 ^ 64 := by
              rw [Nat.pow_add, Nat.mul_comm]
              have := Nat.mul_le_mul_right (2 ^ shift) (Nat.not_lt.mp more)
              omega
            exact (Nat.pow_lt_pow_iff_right (by decide)).mp enough
          have whole : value + v * 2 ^ shift =
              value + v % 128 * 2 ^ shift + v / 128 * 2 ^ (shift + 7) := by
            have digits := Nat.mod_add_div v 128
            have power : 2 ^ (shift + 7) = 128 * 2 ^ shift := by rw [Nat.pow_add, Nat.mul_comm]
            calc value + v * 2 ^ shift
                = value + (v % 128 + 128 * (v / 128)) * 2 ^ shift := by rw [digits]
              _ = value + v % 128 * 2 ^ shift + v / 128 * 2 ^ (shift + 7) := by rw [power]; ring
          have rest : v / 128 < 128 ^ count := by
            rw [Nat.div_lt_iff_lt_mul (by decide), ← Nat.pow_succ]
            exact turns
          have again : 0 < count := by
            rcases count with _ | count
            · omega
            · exact Nat.succ_pos count
          have lower : value + v % 128 * 2 ^ shift < 2 ^ (shift + 7) := by
            have digit := Nat.mul_le_mul_right (2 ^ shift) (by omega : v % 128 ≤ 127)
            rw [Nat.pow_add]
            omega
          refine (byte_more (Nat.mod_lt v (by decide))).bind_cons ?_
          rw [if_neg, addBits_eq low inside, Nat.add_mod_right, Nat.mod_mod, bits, whole]
          · exact ih rest again lower shifted (by omega)
          · rw [byte_last _ (by omega)]
            omega

theorem uleb {value : Nat} (small : value < 2 ^ 64) :
    Reads Cursor.uleb (encodeUleb value) value := by
  have read : Reads Cursor.uleb (encodeUleb value) (0 + value * 2 ^ 0) := ulebLoop
    (by omega) (by decide) (by decide) (by decide) (by omega)
  rw [Nat.pow_zero, Nat.mul_one, Nat.zero_add] at read
  exact read

end Reads

/-- What is left of shifted bits leaves the bits below them free. -/
theorem u64_shifted_le {shift : Nat} (inside : shift ≤ 64) (bits : Nat) :
    u64 (bits * 2 ^ shift) ≤ 2 ^ 64 - 2 ^ shift := by
  have whole : 2 ^ (64 - shift) * 2 ^ shift = 2 ^ 64 := by
    rw [← Nat.pow_add, Nat.sub_add_cancel inside]
  rw [u64, ← whole, Nat.mul_mod_mul_right, ← Nat.sub_one_mul]
  exact Nat.mul_le_mul_right _ (Nat.le_sub_one_of_lt (Nat.mod_lt _ (Nat.two_pow_pos _)))

/-- Where the bits of the last byte go beyond a `u64`, they already are its sign. -/
theorem sign_of_long {value shift byte : Nat} {v : Int} (low : value < 2 ^ shift)
    (inside : shift < 64) (long : 64 ≤ shift + 7)
    (sign : v * (2 ^ shift : Nat) = byte * (2 ^ shift : Nat) ∨
      v * (2 ^ shift : Nat) = byte * (2 ^ shift : Nat) - 128 * (2 ^ shift : Nat)) :
    ((value + u64 (byte * 2 ^ shift) : Nat) : Int) = (value + v * (2 ^ shift : Nat)) % 2 ^ 64 := by
  have multiple : 128 * 2 ^ shift = 2 ^ 64 * 2 ^ (shift + 7 - 64) := by
    rw [← Nat.pow_add, Nat.add_sub_cancel' long, Nat.pow_add, Nat.mul_comm]
  have high := u64_shifted_le inside.le byte
  have below : 2 ^ shift < 2 ^ 64 := Nat.pow_lt_pow_right (by decide) inside
  simp only [u64] at high ⊢
  rcases sign with sign | sign <;> rw [sign] <;> omega

/-- The sign that the last byte of a signed number carries, over the bits below it. -/
theorem addSign_eq {value shift byte : Nat} {v : Int} (low : value < 2 ^ shift)
    (inside : shift < 64) (digit : (byte : Int) = v % 128) (last : -64 ≤ v ∧ v < 64) :
    (Cursor.addSign (value + u64 (byte * 2 ^ shift)) (shift + 7) byte : Int) =
      (value + v * (2 ^ shift : Nat)) % 2 ^ 64 := by
  have small : byte < 128 := by omega
  have power : 2 ^ (shift + 7) = 128 * 2 ^ shift := by rw [Nat.pow_add, Nat.mul_comm]
  have bound : byte * 2 ^ shift ≤ 127 * 2 ^ shift := Nat.mul_le_mul_right _ (by omega)
  have positive (h : byte < 64) : v * (2 ^ shift : Nat) = byte * (2 ^ shift : Nat) := by
    rw [show v = byte by omega]
  have negative (h : 64 ≤ byte) :
      v * (2 ^ shift : Nat) = byte * (2 ^ shift : Nat) - 128 * (2 ^ shift : Nat) := by
    rw [show v = (byte : Int) - 128 by omega]
    ring
  by_cases short : shift + 7 < 64
  · have below : 2 ^ (shift + 7) ≤ 2 ^ 63 := Nat.pow_le_pow_right (by decide) (by omega)
    have bits : u64 (byte * 2 ^ shift) = byte * 2 ^ shift := u64_eq (by omega)
    by_cases sign : 64 ≤ byte
    · have ones : u64 ((2 ^ 64 - 1) * 2 ^ (shift + 7)) = 2 ^ 64 - 2 ^ (shift + 7) := by
        have := Nat.two_pow_pos (shift + 7)
        simp only [u64]
        omega
      rw [Cursor.addSign, if_pos ⟨short, (byte_negative byte small).mpr sign⟩, bits,
        or_shift (by omega) short.le, ones, negative sign]
      omega
    · rw [Cursor.addSign, if_neg (by rw [byte_negative byte small]; omega), bits,
        positive (by omega)]
      omega
  · rw [Cursor.addSign, if_neg (by omega)]
    refine sign_of_long low inside (by omega) ?_
    rcases Nat.lt_or_ge byte 64 with h | h
    · exact .inl (positive h)
    · exact .inr (negative h)

theorem i64_toNat {v : Int} (lower : -2 ^ 63 ≤ v) (upper : v < 2 ^ 63) :
    i64 (v % 2 ^ 64).toNat = v := by
  have small : u64 (v % 2 ^ 64).toNat = (v % 2 ^ 64).toNat := u64_eq (by omega)
  rw [i64, small]
  by_cases positive : (v % 2 ^ 64).toNat < 2 ^ 63
  · rw [if_pos positive]
    omega
  · rw [if_neg positive]
    omega

namespace Reads

theorem slebLoop {count shift value : Nat} {v : Int} (turns : shift + 7 * count = 70)
    (pos : 0 < count) (low : value < 2 ^ shift) (lower : -(2 ^ (63 - shift) : Nat) ≤ v)
    (upper : v < (2 ^ (63 - shift) : Nat)) :
    Reads (Cursor.slebLoop count shift value) (slebBytes count v)
      (i64 ((value + v * (2 ^ shift : Nat)) % 2 ^ 64).toNat) := by
  induction count generalizing shift value v with
  | zero => omega
  | succ count ih =>
      have inside : shift < 64 := by omega
      have digit : ((v % 128).toNat : Int) = v % 128 := by omega
      have small : (v % 128).toNat < 128 := by omega
      rw [slebBytes]
      split
      · next last =>
          refine (byte_end small).bind_pure ?_
          rw [if_pos ((byte_last _ (by omega)).mpr small), addBits_eq low inside,
            Nat.mod_eq_of_lt small, ← addSign_eq low inside digit last]
          exact .pure _
      · next more =>
          have shifted : shift + 7 ≤ 63 := by
            by_contra long
            have := Nat.pow_le_pow_right (show 0 < 2 by decide) (show 63 - shift ≤ 6 by omega)
            omega
          have power : 2 ^ (63 - shift) = 128 * 2 ^ (63 - (shift + 7)) := by
            rw [show 63 - shift = 63 - (shift + 7) + 7 by omega, Nat.pow_add, Nat.mul_comm]
          have next : 2 ^ (shift + 7) = 128 * 2 ^ shift := by rw [Nat.pow_add, Nat.mul_comm]
          have below : 2 ^ (shift + 7) ≤ 2 ^ 63 := Nat.pow_le_pow_right (by decide) shifted
          have bound : (v % 128).toNat * 2 ^ shift ≤ 127 * 2 ^ shift :=
            Nat.mul_le_mul_right _ (by omega)
          have bits : u64 ((v % 128).toNat * 2 ^ shift) = (v % 128).toNat * 2 ^ shift :=
            u64_eq (by omega)
          have whole : (value : Int) + v * (2 ^ shift : Nat) =
              ((value + (v % 128).toNat * 2 ^ shift : Nat) : Int) +
                v / 128 * (2 ^ (shift + 7) : Nat) := by
            calc (value : Int) + v * (2 ^ shift : Nat)
                = value + (v % 128 + 128 * (v / 128)) * (2 ^ shift : Nat) := by
                  rw [Int.emod_add_mul_ediv]
              _ = ((value + (v % 128).toNat * 2 ^ shift : Nat) : Int) +
                  v / 128 * (2 ^ (shift + 7) : Nat) := by
                  rw [next]
                  push_cast
                  rw [digit]
                  ring
          refine (byte_more small).bind_cons ?_
          rw [if_neg, addBits_eq low inside, Nat.add_mod_right, Nat.mod_eq_of_lt small, bits, whole]
          · exact ih (by omega) (by omega) (by omega) (by omega) (by omega)
          · rw [byte_last _ (by omega)]
            omega

theorem sleb {value : Int} (lower : -2 ^ 63 ≤ value) (upper : value < 2 ^ 63) :
    Reads Cursor.sleb (encodeSleb value) value := by
  have read : Reads Cursor.sleb (encodeSleb value)
      (i64 (((0 : Nat) + value * (2 ^ 0 : Nat)) % 2 ^ 64).toNat) := slebLoop
    (by decide) (by decide) (by decide) (by simpa using lower) (by simpa using upper)
  have bits : ((0 : Nat) : Int) + value * (2 ^ 0 : Nat) = value := by simp
  rw [bits, i64_toNat lower upper] at read
  exact read

/-! ## Strings, blocks and loops -/

theorem scan_append {text : List UInt8} (plain : 0 ∉ text) (more : List UInt8) {n : Nat}
    (room : text.length < n) : scan n (text ++ 0 :: more) = .ok (some text) := by
  induction text generalizing n with
  | nil =>
      obtain ⟨n, rfl⟩ := Nat.exists_eq_succ_of_ne_zero (by omega : n ≠ 0)
      rfl
  | cons byte text ih =>
      obtain ⟨n, rfl⟩ := Nat.exists_eq_succ_of_ne_zero (by omega : n ≠ 0)
      rw [List.mem_cons, not_or] at plain
      rw [List.cons_append, scan, if_neg (Ne.symm plain.1), ih plain.2 (by simpa using room)]
      rfl

theorem string {text : List UInt8} (plain : 0 ∉ text) : Reads Cursor.string (text ++ [0]) text := by
  intro c rest ahead
  have left := ahead.left
  have sum := ahead.position_add
  obtain ⟨front, more, data, position, size, small⟩ := ahead
  simp only [List.length_append, List.length_cons, List.length_nil] at left sum
  have found : scanAt c.data c.position (subtract c.size c.position) = .ok (some text) := by
    rw [left, data, scanAt, position, List.drop_left, List.append_assoc, List.append_assoc]
    exact scan_append plain _ (by omega)
  rw [Cursor.string_run, if_pos (by omega), found, List.length_append]
  rfl

theorem skip (bytes : List UInt8) : Reads (Cursor.skip bytes.length) bytes () := by
  intro c rest ahead
  rw [Cursor.skip_run, ahead.left, List.length_append, if_pos (Nat.le_add_right _ _)]

/-- A loop that has a turn for every byte that is left has enough of them. -/
theorem turns_bind {α : Type} {f : Nat → Reader Cursor α} {bytes : List UInt8} {a : α}
    (each : ∀ n, bytes.length < n → Reads (f n) bytes a) : Reads (turns >>= f) bytes a := by
  intro c rest ahead
  obtain ⟨n, enough, run⟩ := ahead.turns_bind
  rw [run]
  exact each n enough c rest ahead

end Reads

/-! ## Bytes that are refused -/

/-- The reader refuses the bytes, whatever follows them. -/
def Refuses {α : Type} (m : Reader Cursor α) (bytes : List UInt8) : Prop :=
  ∀ c rest, Cursor.Over c (bytes ++ rest) → m.run c = .error .refused

section Refuses

variable {α β : Type} {m : Reader Cursor α} {f : α → Reader Cursor β} {a : α}
  {bytes bytes' : List UInt8}

theorem Reads.bind_refuses (first : Reads m bytes a) (then_ : Refuses (f a) bytes') :
    Refuses (m >>= f) (bytes ++ bytes') := by
  intro c rest ahead
  rw [List.append_assoc] at ahead
  rw [Reader.run_bind_eq (first c _ ahead), then_ _ rest ahead.advance]

/-- A step in front that reads nothing. -/
theorem Reads.bind_refuses_nil (first : Reads m [] a) (then_ : Refuses (f a) bytes) :
    Refuses (m >>= f) bytes :=
  first.bind_refuses then_

theorem Refuses.bind (first : Refuses m bytes) : Refuses (m >>= f) bytes := by
  intro c rest ahead
  exact Reader.run_bind_error (first c rest ahead)

theorem Refuses.append (refuses : Refuses m bytes) (more : List UInt8) :
    Refuses m (bytes ++ more) := by
  intro c rest ahead
  rw [List.append_assoc] at ahead
  exact refuses c _ ahead

theorem Refuses.require {condition : Bool} {f' : Unit → Reader Cursor β}
    (fails : condition = false) :
    Refuses (Reader.require condition >>= f') bytes := by
  intro c rest ahead
  exact Reader.run_require_refused fails

/-- A loop with a turn for every byte that is left. -/
theorem Refuses.turns_bind {f : Nat → Reader Cursor α}
    (each : ∀ n, bytes.length < n → Refuses (f n) bytes) : Refuses (turns >>= f) bytes := by
  intro c rest ahead
  obtain ⟨n, enough, run⟩ := ahead.turns_bind
  rw [run]
  exact each n enough c rest ahead

end Refuses

end Fpag.Debug
