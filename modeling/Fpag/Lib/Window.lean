import Mathlib.Tactic.Ring

/-!
A cyclic store addressed by absolute positions.

A ring of `cap` cells is read and written at positions that only ever grow; position
`p` is cell `p % cap`. Inside a window of `cap` consecutive positions distinct
positions are distinct cells, which is the whole reason a ring can be used as if it
were unbounded. The word facts say that machine counters that wrap at `2 ^ w` see the
same differences as the positions behind them.
-/

namespace Fpag

/-- Distinct positions of one window are distinct cells. -/
theorem mod_ne_of_window {cap low p q : Nat} (hp : low ≤ p) (hp' : p < low + cap)
    (hq : low ≤ q) (hq' : q < low + cap) (ne : p ≠ q) : p % cap ≠ q % cap := by
  intro same
  have aux : ∀ {a b : Nat}, a < b → b - a < cap → a % cap = b % cap → False := by
    intro a b lt near h
    have zero : (b - a) % cap = 0 := Nat.sub_mod_eq_zero_of_mod_eq h.symm
    rw [Nat.mod_eq_of_lt near] at zero
    omega
  rcases Nat.lt_or_gt_of_ne ne with lt | gt
  · exact aux lt (by omega) same
  · exact aux gt (by omega) same.symm

theorem mod_add_mod_add (x k cap : Nat) : (x % cap + k) % cap = (x + k) % cap := by
  rw [Nat.mod_add_mod]

variable {w : Nat}

/-- The difference of two counters is the distance of the positions behind them. -/
theorem toNat_ofNat_sub {a b : Nat} (le : b ≤ a) (near : a - b < 2 ^ w) :
    (BitVec.ofNat w a - BitVec.ofNat w b).toNat = a - b := by
  have split : BitVec.ofNat w a = BitVec.ofNat w (a - b) + BitVec.ofNat w b := by
    rw [← BitVec.ofNat_add]
    congr 1
    omega
  rw [split, BitVec.add_sub_cancel, BitVec.toNat_ofNat, Nat.mod_eq_of_lt near]

/-- Masking a counter with a power-of-two capacity gives the cell of its position. -/
theorem toNat_ofNat_and_mask {c : Nat} {cap : BitVec w} (hcap : cap.toNat = 2 ^ c)
    (mask : (cap - 1).toNat = cap.toNat - 1) (x : Nat) :
    (BitVec.ofNat w x &&& (cap - 1)).toNat = x % cap.toNat := by
  have dvd : 2 ^ c ∣ 2 ^ w := by
    apply Nat.pow_dvd_pow
    by_contra gt
    have : 2 ^ w ≤ 2 ^ c := Nat.pow_le_pow_right (by omega) (by omega)
    have := cap.isLt
    omega
  rw [BitVec.toNat_and, mask, hcap, Nat.and_two_pow_sub_one_eq_mod, BitVec.toNat_ofNat,
    Nat.mod_mod_of_dvd _ dvd]

end Fpag
