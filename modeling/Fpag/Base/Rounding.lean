import Mathlib.Order.Bounds.Basic
import Fpag.Base.MathUtil

/-!
The rounding helpers at every width.

`round_up` and `round_down` take a value of any unsigned type that is no wider than `usize`. The
value is widened, the mask arithmetic is done on the width of the alignment, and the result is cut
back. A multiple of the alignment that fits the type is all that it takes for the cut to change
nothing: the least one is then below the wrap of both widths.
-/

namespace Fpag.Base

variable {w u : Nat}

/-- `base::round_up` for a type of `w` bits, where `usize` has `u` of them. -/
def roundUpCast (value : BitVec w) (alignment : BitVec u) : BitVec w :=
  (roundUp (value.setWidth u) alignment).setWidth w

/-- `base::round_down`. -/
def roundDownCast (value : BitVec w) (alignment : BitVec u) : BitVec w :=
  (value.setWidth u &&& ~~~(alignment - 1)).setWidth w

/-- On `usize` itself the casts do nothing. -/
theorem roundUpCast_self (value alignment : BitVec w) :
    roundUpCast value alignment = roundUp value alignment := by
  rw [roundUpCast, BitVec.setWidth_eq, BitVec.setWidth_eq]

/-! ## Least and greatest multiples -/

theorem isLeast_alignUp {a : Nat} (pos : 0 < a) (n : Nat) :
    IsLeast {m | a ∣ m ∧ n ≤ m} (alignUp n a) :=
  ⟨⟨dvd_alignUp n a, le_alignUp pos⟩, fun _ reaches => alignUp_le_of_dvd pos reaches.2 reaches.1⟩

theorem isGreatest_div_mul {a : Nat} (pos : 0 < a) (n : Nat) :
    IsGreatest {m | a ∣ m ∧ m ≤ n} (n / a * a) := by
  refine ⟨⟨Nat.dvd_mul_left a _, Nat.div_mul_le_self n a⟩, ?_⟩
  rintro m ⟨⟨q, rfl⟩, below⟩
  rw [Nat.mul_comm a q] at below ⊢
  exact Nat.mul_le_mul_right a ((Nat.le_div_iff_mul_le pos).mpr below)

section Rounding

variable {value : BitVec w} {alignment : BitVec u}

theorem pos_of_isPowerOfTwo (power : isPowerOfTwo alignment = true) : 0 < alignment.toNat := by
  obtain ⟨k, is⟩ := isPowerOfTwo_iff.mp power
  rw [is]
  exact Nat.two_pow_pos k

/-- The rounded value is cut at no width where a multiple of the alignment fits. -/
theorem toNat_roundUpCast (narrow : w ≤ u) (power : isPowerOfTwo alignment = true)
    (fits : ∃ m, alignment.toNat ∣ m ∧ value.toNat ≤ m ∧ m < 2 ^ w) :
    (roundUpCast value alignment).toNat = alignUp value.toNat alignment.toNat := by
  have pos := pos_of_isPowerOfTwo power
  obtain ⟨k, power⟩ := isPowerOfTwo_iff.mp power
  obtain ⟨m, multiple, reaches, within⟩ := fits
  have near : alignUp value.toNat alignment.toNat < 2 ^ w :=
    (alignUp_le_of_dvd pos reaches multiple).trans_lt within
  have wide : 2 ^ w ≤ 2 ^ u := Nat.pow_le_pow_right Nat.two_pos narrow
  have widened : value.setWidth u = BitVec.ofNat u value.toNat := (BitVec.ofNat_toNat u value).symm
  rw [roundUpCast, widened, roundUp_ofNat power, BitVec.toNat_setWidth, BitVec.toNat_ofNat,
    Nat.mod_eq_of_lt (near.trans_le wide), Nat.mod_eq_of_lt near]

theorem toNat_roundDownCast (narrow : w ≤ u) (power : isPowerOfTwo alignment = true) :
    (roundDownCast value alignment).toNat = value.toNat / alignment.toNat * alignment.toNat := by
  obtain ⟨k, power⟩ := isPowerOfTwo_iff.mp power
  have below : value.toNat / 2 ^ k * 2 ^ k < 2 ^ w :=
    (Nat.div_mul_le_self _ _).trans_lt value.isLt
  rw [roundDownCast, BitVec.toNat_setWidth, toNat_and_not_mask power,
    BitVec.toNat_setWidth_of_le narrow, power, Nat.mod_eq_of_lt below]

end Rounding

/-- For the unsigned types: `next_power_of_two` is the least power of two that reaches a value up
to half the range, `round_up` the least multiple of the alignment that reaches a value, where one
fits the type, and `round_down` the greatest multiple that does not pass it. -/
theorem rounding_exact {w u : Nat} (width : w ∈ [8, 16, 32, 64]) :
    (∀ v : BitVec w, 1 ≤ v.toNat → v.toNat ≤ 2 ^ (w - 1) →
      IsLeast {p | (∃ k, p = 2 ^ k) ∧ v.toNat ≤ p} (nextPowerOfTwo v).toNat) ∧
    ∀ (value : BitVec w) (alignment : BitVec u), w ≤ u → isPowerOfTwo alignment = true →
      ((∃ m, alignment.toNat ∣ m ∧ value.toNat ≤ m ∧ m < 2 ^ w) →
        IsLeast {m | alignment.toNat ∣ m ∧ value.toNat ≤ m} (roundUpCast value alignment).toNat) ∧
      IsGreatest {m | alignment.toNat ∣ m ∧ m ≤ value.toNat}
        (roundDownCast value alignment).toNat := by
  constructor
  · intro v _ half
    have sizes : 0 < w ∧ w ≤ 64 := by
      simp only [List.mem_cons, List.not_mem_nil, or_false] at width
      omega
    obtain ⟨k, is, reaches, least⟩ := nextPowerOfTwo_spec sizes.1 sizes.2 half
    rw [is]
    refine ⟨⟨⟨k, rfl⟩, reaches⟩, ?_⟩
    rintro p ⟨⟨m, rfl⟩, reaches'⟩
    exact Nat.pow_le_pow_right Nat.two_pos (least m reaches')
  · intro value alignment narrow power
    have pos := pos_of_isPowerOfTwo power
    constructor
    · intro fits
      rw [toNat_roundUpCast narrow power fits]
      exact isLeast_alignUp pos _
    · rw [toNat_roundDownCast narrow power]
      exact isGreatest_div_mul pos _

/-- At their limits: the largest byte that has a next power of two, and bytes on 64 bits. -/
theorem rounding_exact_bytes :
    IsLeast {p | (∃ k, p = 2 ^ k) ∧ 128 ≤ p} (nextPowerOfTwo (128#8)).toNat ∧
      IsLeast {m | 16 ∣ m ∧ 240 ≤ m} (roundUpCast (240#8) (16#64)).toNat ∧
      IsGreatest {m | 256 ∣ m ∧ m ≤ 255} (roundDownCast (255#8) (256#64)).toNat := by
  obtain ⟨powers, multiples⟩ := @rounding_exact 8 64 (by decide)
  refine ⟨powers 128 (by decide) (by decide), ?_, ?_⟩
  · exact (multiples 240 16 (by decide) (by decide)).1 ⟨240, by decide, by decide, by decide⟩
  · exact (multiples 255 256 (by decide) (by decide)).2

end Fpag.Base
