import Fpag.Lib.Align

/-!
`base/math_util.h` at a word of `w` bits: the power-of-two test and the rounding
helper that the queue, the arenas and the wire format share, and the rounding to a power
of two that sizes the interner's table.
-/

namespace Fpag.Base

variable {w : Nat}

/-- `base::is_power_of_two`. -/
def isPowerOfTwo (n : BitVec w) : Bool := decide (0 < n) && n &&& (n - 1) == 0

/-- `base::next_power_of_two`. -/
def nextPowerOfTwo (v : BitVec w) : BitVec w :=
  if v ≤ 1 then 1
  else
    let v := v - 1
    let v := v ||| v >>> 1
    let v := v ||| v >>> 2
    let v := v ||| v >>> 4
    let v := v ||| v >>> 8
    let v := if 16 < w then v ||| v >>> 16 else v
    let v := if 32 < w then v ||| v >>> 32 else v
    v + 1

/-- `base::round_up`, with `alignment` a power of two. -/
def roundUp (value alignment : BitVec w) : BitVec w :=
  let mask := alignment - 1
  (value + mask) &&& ~~~mask

theorem isPowerOfTwo_iff {n : BitVec w} : isPowerOfTwo n = true ↔ ∃ k, n.toNat = 2 ^ k := by
  have zero : (0 : BitVec w).toNat = 0 := by simp
  by_cases pos : 0 < n.toNat
  · have masked : n &&& (n - 1) = 0 ↔ n.toNat &&& (n.toNat - 1) = 0 := by
      rw [BitVec.toNat_eq, BitVec.toNat_and, toNat_mask pos, zero]
    have lt : 0 < n := by
      rw [BitVec.lt_def, zero]
      exact pos
    simp only [isPowerOfTwo, lt, decide_true, Bool.true_and, beq_iff_eq, masked]
    rw [Nat.and_sub_one_eq_zero_iff_isPowerOfTwo (by omega)]
    rfl
  · have none : ¬ 0 < n := by
      rw [BitVec.lt_def, zero]
      exact pos
    simp only [isPowerOfTwo, none, decide_false, Bool.false_and, Bool.false_eq_true, false_iff]
    rintro ⟨k, hk⟩
    have := Nat.two_pow_pos k
    omega

theorem roundUp_ofNat {k : Nat} {a : BitVec w} (ha : a.toNat = 2 ^ k) (n : Nat) :
    roundUp (BitVec.ofNat w n) a = BitVec.ofNat w (alignUp n a.toNat) := by
  rw [ha]
  exact ofNat_alignUp ha n

/-- Without a wrap, `round_up` is the rounding of the number behind the word. -/
theorem toNat_roundUp {k : Nat} {x a : BitVec w} (ha : a.toNat = 2 ^ k)
    (fits : x.toNat + (a.toNat - 1) < 2 ^ w) : (roundUp x a).toNat = alignUp x.toNat a.toNat := by
  have image := roundUp_ofNat ha x.toNat
  rw [BitVec.ofNat_toNat, BitVec.setWidth_eq] at image
  have pos : 0 < a.toNat := by
    rw [ha]
    exact Nat.two_pow_pos k
  have near := alignUp_lt (n := x.toNat) pos
  rw [image, BitVec.toNat_ofNat, Nat.mod_eq_of_lt (by omega)]

/-- Every bit of `x` is the disjunction of `d` bits of `v`, from the same place upwards. -/
def Smeared (d : Nat) (v x : BitVec w) : Prop :=
  ∀ i, x.getLsbD i = true ↔ ∃ j, j < d ∧ v.getLsbD (i + j) = true

theorem smeared_one (v : BitVec w) : Smeared 1 v v := by
  intro i
  constructor
  · intro set
    exact ⟨0, Nat.one_pos, set⟩
  · rintro ⟨j, small, set⟩
    obtain rfl : j = 0 := by omega
    exact set

/-- A shift by as many bits as are gathered doubles their number. -/
theorem Smeared.double {d : Nat} {v x : BitVec w} (smeared : Smeared d v x) :
    Smeared (2 * d) v (x ||| x >>> d) := by
  intro i
  rw [BitVec.getLsbD_or, Bool.or_eq_true, BitVec.getLsbD_ushiftRight, smeared i, smeared (d + i)]
  constructor
  · rintro (⟨j, small, set⟩ | ⟨j, small, set⟩)
    · exact ⟨j, by omega, set⟩
    · refine ⟨d + j, by omega, ?_⟩
      rwa [show i + (d + j) = d + i + j by omega]
  · rintro ⟨j, small, set⟩
    rcases Nat.lt_or_ge j d with near | far
    · exact Or.inl ⟨j, near, set⟩
    · refine Or.inr ⟨j - d, by omega, ?_⟩
      rwa [show d + i + (j - d) = i + j by omega]

/-- Once the whole word is gathered, every bit below the leading one is set. -/
theorem Smeared.toNat_eq {d : Nat} {v x : BitVec w} (smeared : Smeared d v x) (whole : w ≤ d)
    (pos : v.toNat ≠ 0) : x.toNat = 2 ^ (v.toNat.log2 + 1) - 1 := by
  apply Nat.eq_of_testBit_eq
  intro i
  rw [Nat.testBit_two_pow_sub_one, ← BitVec.getLsbD, Bool.eq_iff_iff, smeared i, decide_eq_true_iff]
  constructor
  · rintro ⟨j, -, set⟩
    have le := Nat.ge_two_pow_of_testBit set
    have top := (Nat.le_log2 pos).mpr le
    omega
  · intro below
    have top : v.toNat.log2 < w := (Nat.log2_lt pos).mpr v.isLt
    refine ⟨v.toNat.log2 - i, by omega, ?_⟩
    rw [show i + (v.toNat.log2 - i) = v.toNat.log2 by omega]
    exact Nat.testBit_log2 pos

/-- As long as it fits, `next_power_of_two` is the least power of two that reaches the number. -/
theorem nextPowerOfTwo_spec {v : BitVec w} (pos : 0 < w) (wide : w ≤ 64)
    (fits : v.toNat ≤ 2 ^ (w - 1)) : ∃ k, (nextPowerOfTwo v).toNat = 2 ^ k ∧ v.toNat ≤ 2 ^ k ∧
      ∀ m, v.toNat ≤ 2 ^ m → k ≤ m := by
  have one : (1 : BitVec w).toNat = 1 := by
    obtain ⟨w, rfl⟩ := Nat.exists_eq_succ_of_ne_zero pos.ne'
    simp
  by_cases small : v ≤ 1
  · rw [nextPowerOfTwo, if_pos small]
    rw [BitVec.le_def, one] at small
    exact ⟨0, one, small, fun m _ => Nat.zero_le m⟩
  · have large : 1 < v.toNat := by
      rw [BitVec.le_def, one] at small
      omega
    have less : (v - 1).toNat = v.toNat - 1 := by
      rw [BitVec.toNat_sub_of_le (by rw [BitVec.le_def, one]; omega), one]
    have gathered : ∃ d x, w ≤ d ∧ Smeared d (v - 1) x ∧ nextPowerOfTwo v = x + 1 := by
      have smeared := ((((smeared_one (v - 1)).double).double).double).double
      simp only [nextPowerOfTwo, if_neg small]
      by_cases above : 16 < w
      · simp only [if_pos above]
        by_cases long : 32 < w
        · simp only [if_pos long]
          exact ⟨64, _, wide, smeared.double.double, rfl⟩
        · simp only [if_neg long]
          exact ⟨32, _, Nat.le_of_not_lt long, smeared.double, rfl⟩
      · simp only [if_neg above, if_neg (show ¬ 32 < w by omega)]
        exact ⟨16, _, Nat.le_of_not_lt above, smeared, rfl⟩
    obtain ⟨d, x, whole, smeared, next⟩ := gathered
    have ones := smeared.toNat_eq whole (by omega)
    rw [less] at ones
    have ne : v.toNat - 1 ≠ 0 := by omega
    have top : (v.toNat - 1).log2 + 1 ≤ w - 1 := (Nat.log2_lt ne).mpr (by omega)
    have room : 2 ^ ((v.toNat - 1).log2 + 1) < 2 ^ w :=
      Nat.pow_lt_pow_right Nat.one_lt_two (by omega)
    have up := Nat.two_pow_pos ((v.toNat - 1).log2 + 1)
    refine ⟨(v.toNat - 1).log2 + 1, ?_, ?_, fun m reaches => ?_⟩
    · rw [next, BitVec.toNat_add, ones, one, Nat.mod_eq_of_lt (by omega)]
      omega
    · have := Nat.lt_log2_self (n := v.toNat - 1)
      omega
    · exact (Nat.log2_lt ne).mpr (by omega)

end Fpag.Base
