import Fpag.Debug.Encoding

/-!
LEB128 numbers with padding.

An encoder may write a number in more bytes than it needs, with groups of zeros behind the number,
or of ones behind a negative one. `uleb` and `sleb` read ten bytes at most, and give back every
number of 64 bits that is written in as many.
-/

namespace Fpag.Debug

open Cursor Reader

/-! ## Unsigned numbers -/

/-- The bytes are an unsigned LEB128 encoding of the number, the shortest one or not. -/
inductive IsUleb : List UInt8 → Nat → Prop
  | last {byte : UInt8} (small : byte.toNat < 128) : IsUleb [byte] byte.toNat
  | more {byte : UInt8} {bytes : List UInt8} {value : Nat} (large : 128 ≤ byte.toNat)
      (rest : IsUleb bytes value) : IsUleb (byte :: bytes) (byte.toNat % 128 + 128 * value)

/-- A `u64` in at most ten bytes. -/
structure Operand (bytes : List UInt8) (value : Nat) : Prop where
  is : IsUleb bytes value
  short : bytes.length ≤ 10
  small : value < 2 ^ 64

theorem IsUleb.pos {bytes : List UInt8} {value : Nat} (is : IsUleb bytes value) :
    0 < bytes.length := by
  cases is <;> exact Nat.succ_pos _

/-- What is left of the turns of `uleb` is enough for what is left of the bytes. -/
theorem IsUleb.loop {bytes : List UInt8} {count shift value v : Nat} (is : IsUleb bytes v)
    (short : bytes.length ≤ count) (turns : shift + 7 * count = 70) (low : value < 2 ^ shift)
    (fits : value + v * 2 ^ shift < 2 ^ 64) :
    Reads (Cursor.ulebLoop count shift value) bytes (value + v * 2 ^ shift) := by
  induction is generalizing count shift value with
  | @last byte small =>
      obtain ⟨count, rfl⟩ := Nat.exists_eq_succ_of_ne_zero (by
        rintro rfl
        exact Nat.not_succ_le_zero _ short : count ≠ 0)
      refine (Reads.byte byte).bind_pure ?_
      rw [if_pos ((byte_last _ byte.toNat_lt).mpr small), addBits_eq low (by omega),
        Nat.mod_eq_of_lt small, u64_eq (by omega)]
      exact .pure _
  | @more byte bytes v large rest ih =>
      obtain ⟨count, rfl⟩ := Nat.exists_eq_succ_of_ne_zero (by
        rintro rfl
        exact Nat.not_succ_le_zero _ short : count ≠ 0)
      rw [List.length_cons] at short
      have again : 0 < count := lt_of_lt_of_le rest.pos (by omega)
      have power : 2 ^ (shift + 7) = 128 * 2 ^ shift := by rw [Nat.pow_add, Nat.mul_comm]
      have digit : byte.toNat % 128 * 2 ^ shift ≤ 127 * 2 ^ shift :=
        Nat.mul_le_mul_right _ (by omega)
      have whole : value + (byte.toNat % 128 + 128 * v) * 2 ^ shift =
          value + byte.toNat % 128 * 2 ^ shift + v * 2 ^ (shift + 7) := by
        rw [power]
        ring
      rw [whole] at fits ⊢
      have bits : u64 (byte.toNat % 128 * 2 ^ shift) = byte.toNat % 128 * 2 ^ shift :=
        u64_eq (by omega)
      refine (Reads.byte byte).bind_cons ?_
      rw [if_neg, addBits_eq low (by omega), bits]
      · exact ih (by omega) (by omega) (by omega) fits
      · rw [byte_last _ byte.toNat_lt]
        omega

theorem Operand.byte {byte : UInt8} (small : byte.toNat < 128) : Operand [byte] byte.toNat :=
  ⟨.last small, Nat.le_add_left 1 9, by omega⟩

theorem Operand.reads {bytes : List UInt8} {value : Nat} (operand : Operand bytes value) :
    Reads uleb bytes value := by
  have small := operand.small
  have read : Reads uleb bytes (0 + value * 2 ^ 0) :=
    operand.is.loop operand.short (by decide) (by decide) (by omega)
  rw [Nat.pow_zero, Nat.mul_one, Nat.zero_add] at read
  exact read

/-! ## Signed numbers -/

/-- The bytes are a signed LEB128 encoding of the number, the shortest one or not. -/
inductive IsSleb : List UInt8 → Int → Prop
  | last {byte : UInt8} (small : byte.toNat < 128) :
      IsSleb [byte] (if byte.toNat < 64 then byte.toNat else byte.toNat - 128)
  | more {byte : UInt8} {bytes : List UInt8} {value : Int} (large : 128 ≤ byte.toNat)
      (rest : IsSleb bytes value) : IsSleb (byte :: bytes) ((byte.toNat % 128 : Nat) + 128 * value)

/-- An `i64` in at most ten bytes. -/
structure SignedOperand (bytes : List UInt8) (value : Int) : Prop where
  is : IsSleb bytes value
  short : bytes.length ≤ 10
  lower : -2 ^ 63 ≤ value
  upper : value < 2 ^ 63

theorem IsSleb.pos {bytes : List UInt8} {value : Int} (is : IsSleb bytes value) :
    0 < bytes.length := by
  cases is <;> exact Nat.succ_pos _

theorem IsSleb.loop {bytes : List UInt8} {count shift value : Nat} {v : Int} (is : IsSleb bytes v)
    (short : bytes.length ≤ count) (turns : shift + 7 * count = 70) (low : value < 2 ^ shift)
    (lower : -(2 ^ (63 - shift) : Nat) ≤ v) (upper : v < (2 ^ (63 - shift) : Nat)) :
    Reads (Cursor.slebLoop count shift value) bytes
      (i64 ((value + v * (2 ^ shift : Nat)) % 2 ^ 64).toNat) := by
  induction is generalizing count shift value with
  | @last byte small =>
      obtain ⟨count, rfl⟩ := Nat.exists_eq_succ_of_ne_zero (by
        rintro rfl
        exact Nat.not_succ_le_zero _ short : count ≠ 0)
      have inside : shift < 64 := by omega
      have digit : (byte.toNat : Int) =
          (if byte.toNat < 64 then (byte.toNat : Int) else byte.toNat - 128) % 128 := by
        split <;> omega
      have range : -64 ≤ (if byte.toNat < 64 then (byte.toNat : Int) else byte.toNat - 128) ∧
          (if byte.toNat < 64 then (byte.toNat : Int) else byte.toNat - 128) < 64 := by
        split <;> omega
      refine (Reads.byte byte).bind_pure ?_
      rw [if_pos ((byte_last _ byte.toNat_lt).mpr small), addBits_eq low inside,
        Nat.mod_eq_of_lt small, ← addSign_eq low inside digit range]
      exact .pure _
  | @more byte bytes v large rest ih =>
      obtain ⟨count, rfl⟩ := Nat.exists_eq_succ_of_ne_zero (by
        rintro rfl
        exact Nat.not_succ_le_zero _ short : count ≠ 0)
      rw [List.length_cons] at short
      have again : 0 < count := lt_of_lt_of_le rest.pos (by omega)
      have power : 2 ^ (63 - shift) = 128 * 2 ^ (63 - (shift + 7)) := by
        rw [show 63 - shift = 63 - (shift + 7) + 7 by omega, Nat.pow_add, Nat.mul_comm]
      have next : 2 ^ (shift + 7) = 128 * 2 ^ shift := by rw [Nat.pow_add, Nat.mul_comm]
      have below : 2 ^ (shift + 7) ≤ 2 ^ 63 := Nat.pow_le_pow_right (by decide) (by omega)
      have bound : byte.toNat % 128 * 2 ^ shift ≤ 127 * 2 ^ shift :=
        Nat.mul_le_mul_right _ (by omega)
      have bits : u64 (byte.toNat % 128 * 2 ^ shift) = byte.toNat % 128 * 2 ^ shift :=
        u64_eq (by omega)
      have whole : (value : Int) + ((byte.toNat % 128 : Nat) + 128 * v) * (2 ^ shift : Nat) =
          ((value + byte.toNat % 128 * 2 ^ shift : Nat) : Int) + v * (2 ^ (shift + 7) : Nat) := by
        rw [next]
        push_cast
        ring
      refine (Reads.byte byte).bind_cons ?_
      rw [if_neg, addBits_eq low (by omega), bits, whole]
      · exact ih (by omega) (by omega) (by omega) (by omega) (by omega)
      · rw [byte_last _ byte.toNat_lt]
        omega

theorem SignedOperand.reads {bytes : List UInt8} {value : Int}
    (operand : SignedOperand bytes value) : Reads sleb bytes value := by
  have read : Reads sleb bytes (i64 (((0 : Nat) + value * (2 ^ 0 : Nat)) % 2 ^ 64).toNat) :=
    operand.is.loop operand.short (by decide) (by decide) (by simpa using operand.lower)
      (by simpa using operand.upper)
  have bits : ((0 : Nat) : Int) + value * (2 ^ 0 : Nat) = value := by simp
  rw [bits, i64_toNat operand.lower operand.upper] at read
  exact read

end Fpag.Debug
