import Mathlib.Tactic.Ring

/-!
Alignment of naturals and of machine words.

`alignUp n a` is the least multiple of `a` at or above `n`. A machine rounds a word
up to a power of two by adding the mask and clearing the low bits; `alignUp` is what
that computes on the natural number behind the word, also across the wrap of the
word (`ofNat_alignUp`).
-/

namespace Fpag

/-- The least multiple of `a` at or above `n`. -/
def alignUp (n a : Nat) : Nat := (n + (a - 1)) / a * a

theorem dvd_alignUp (n a : Nat) : a ∣ alignUp n a := Dvd.intro_left _ rfl

theorem le_alignUp {n a : Nat} (pos : 0 < a) : n ≤ alignUp n a := by
  have split := Nat.div_add_mod (n + (a - 1)) a
  have low := Nat.mod_lt (n + (a - 1)) pos
  have flip : alignUp n a = a * ((n + (a - 1)) / a) := Nat.mul_comm _ _
  omega

theorem alignUp_lt {n a : Nat} (pos : 0 < a) : alignUp n a < n + a := by
  have bound : alignUp n a ≤ n + (a - 1) := Nat.div_mul_le_self _ _
  omega

theorem alignUp_le_of_dvd {n a m : Nat} (pos : 0 < a) (le : n ≤ m) (dvd : a ∣ m) :
    alignUp n a ≤ m := by
  obtain ⟨q, rfl⟩ := dvd
  have near := alignUp_lt (n := n) pos
  obtain ⟨p, hp⟩ := dvd_alignUp n a
  rw [hp] at near ⊢
  have lt : a * p < a * (q + 1) := by
    rw [Nat.mul_succ]
    omega
  exact Nat.mul_le_mul_left a (Nat.le_of_lt_succ (Nat.lt_of_mul_lt_mul_left lt))

theorem alignUp_eq_self {n a : Nat} (pos : 0 < a) (dvd : a ∣ n) : alignUp n a = n :=
  Nat.le_antisymm (alignUp_le_of_dvd pos (Nat.le_refl n) dvd) (le_alignUp pos)

/-! ## Clearing the low bits of a word -/

variable {w : Nat}

/-- The mask of an alignment is the number one below it. -/
theorem toNat_mask {a : BitVec w} (pos : 0 < a.toNat) : (a - 1).toNat = a.toNat - 1 := by
  have lt := a.isLt
  have one : (1 : BitVec w).toNat = 1 := by
    change 1 % 2 ^ w = 1
    exact Nat.mod_eq_of_lt (by omega)
  rw [BitVec.toNat_sub, one]
  have : 2 ^ w - 1 + a.toNat = 2 ^ w + (a.toNat - 1) := by omega
  rw [this, Nat.add_mod_left, Nat.mod_eq_of_lt (by omega)]

/-- Clearing the low `k` bits drops what lies above the last multiple of `2 ^ k`. -/
theorem toNat_and_not_mask {k : Nat} {a : BitVec w} (ha : a.toNat = 2 ^ k) (x : BitVec w) :
    (x &&& ~~~(a - 1)).toNat = x.toNat / 2 ^ k * 2 ^ k := by
  have mask : (a - 1).toNat = 2 ^ k - 1 := by
    rw [toNat_mask (by rw [ha]; exact Nat.two_pow_pos k), ha]
  rw [← Nat.shiftRight_eq_div_pow, ← Nat.shiftLeft_eq]
  apply Nat.eq_of_testBit_eq
  intro i
  rw [BitVec.testBit_toNat, BitVec.getLsbD_and, BitVec.getLsbD_not, ← BitVec.testBit_toNat (a - 1),
    mask, Nat.testBit_two_pow_sub_one, Nat.testBit_shiftLeft, Nat.testBit_shiftRight,
    ← BitVec.testBit_toNat]
  by_cases low : i < k
  · simp [low]
  · have reach : k + (i - k) = i := by omega
    rw [reach]
    by_cases inside : i < w
    · simp [low, inside]
      omega
    · have : x.toNat.testBit i = false :=
        Nat.testBit_lt_two_pow (x.isLt.trans_le (Nat.pow_le_pow_right (by omega) (by omega)))
      simp [this]

/-- Rounding a word up to a power of two rounds up the number behind it: the wrap of the
word commutes with the rounding, because the alignment divides the modulus. -/
theorem ofNat_alignUp {k : Nat} {a : BitVec w} (ha : a.toNat = 2 ^ k) (n : Nat) :
    (BitVec.ofNat w n + (a - 1)) &&& ~~~(a - 1) = BitVec.ofNat w (alignUp n (2 ^ k)) := by
  have pos : 0 < 2 ^ k := Nat.two_pow_pos k
  have le : k ≤ w := by
    by_contra gt
    have : 2 ^ w ≤ 2 ^ k := Nat.pow_le_pow_right (by omega) (by omega)
    have := a.isLt
    omega
  have modulus : 2 ^ w = 2 ^ k * 2 ^ (w - k) := by
    rw [← Nat.pow_add]
    congr 1
    omega
  apply BitVec.eq_of_toNat_eq
  rw [toNat_and_not_mask ha, BitVec.toNat_add, BitVec.toNat_ofNat, BitVec.toNat_ofNat,
    toNat_mask (by rw [ha]; exact pos), ha, Nat.mod_add_mod, alignUp, modulus,
    Nat.mod_mul_right_div_self, Nat.mul_comm (2 ^ k) (2 ^ (w - k)), Nat.mul_mod_mul_right]

end Fpag
