import Mathlib.Tactic.Ring
import Mathlib.Data.List.Range

/-!
Bytes, numbers and texts.

`text` are the characters of a literal. `toBytes n v` are the `n` little-endian bytes of `v`
and `ofBytes` reads them back. `readBytes m first n` is what a memory `m` holds in the `n`
bytes from `first` on; the lemmas here say how it splits and which writes it does not see.
-/

namespace Fpag

/-- The characters of a literal. -/
def text (literal : String) : List UInt8 := literal.toList.map fun c => UInt8.ofNat c.toNat

/-- The `n` low bytes of a number, the lowest first. -/
def toBytes : Nat → Nat → List UInt8
  | 0, _ => []
  | n + 1, value => UInt8.ofNat value :: toBytes n (value / 256)

/-- The number whose bytes these are, the lowest first. -/
def ofBytes : List UInt8 → Nat
  | [] => 0
  | b :: bs => b.toNat + 256 * ofBytes bs

@[simp] theorem length_toBytes (n value : Nat) : (toBytes n value).length = n := by
  induction n generalizing value with
  | zero => rfl
  | succ n ih => simp only [toBytes, List.length_cons, ih]

theorem ofBytes_toBytes (n value : Nat) : ofBytes (toBytes n value) = value % 256 ^ n := by
  induction n generalizing value with
  | zero => simp only [toBytes, ofBytes, Nat.pow_zero, Nat.mod_one]
  | succ n ih =>
      have low : (UInt8.ofNat value).toNat = value % 256 := by simp
      rw [toBytes, ofBytes, ih, low, Nat.pow_succ, Nat.mul_comm (256 ^ n), Nat.mod_mul]

theorem toBytes_ofBytes (bytes : List UInt8) : toBytes bytes.length (ofBytes bytes) = bytes := by
  induction bytes with
  | nil => rfl
  | cons b bs ih =>
      have small := b.toNat_lt
      have low : UInt8.ofNat (b.toNat + 256 * ofBytes bs) = b := by
        apply UInt8.toNat_inj.mp
        rw [UInt8.toNat_ofNat']
        omega
      have high : (b.toNat + 256 * ofBytes bs) / 256 = ofBytes bs := by omega
      rw [ofBytes, List.length_cons, toBytes, low, high, ih]

theorem ofBytes_append (front back : List UInt8) :
    ofBytes (front ++ back) = ofBytes front + 256 ^ front.length * ofBytes back := by
  induction front with
  | nil => rw [List.nil_append, ofBytes, List.length_nil, Nat.pow_zero, Nat.one_mul, Nat.zero_add]
  | cons b bs ih =>
      rw [List.cons_append, ofBytes, ofBytes, ih, List.length_cons, Nat.pow_succ', Nat.mul_add,
        Nat.add_assoc, Nat.mul_assoc]

/-- As many bytes with the same number are the same bytes. -/
theorem ofBytes_inj {xs ys : List UInt8} (length : xs.length = ys.length) :
    ofBytes xs = ofBytes ys ↔ xs = ys := by
  refine ⟨fun same => ?_, fun same => by rw [same]⟩
  rw [← toBytes_ofBytes xs, ← toBytes_ofBytes ys, length, same]

theorem ofBytes_lt (bytes : List UInt8) : ofBytes bytes < 256 ^ bytes.length := by
  induction bytes with
  | nil => decide
  | cons b bs ih =>
      have low := b.toNat_lt
      rw [ofBytes, List.length_cons, Nat.pow_succ]
      omega

/-! ## Memories -/

/-- What a memory holds in the `n` bytes from `first` on. -/
def readBytes (memory : Nat → UInt8) (first n : Nat) : List UInt8 :=
  (List.range n).map fun i => memory (first + i)

variable {memory other : Nat → UInt8} {first n k : Nat}

@[simp] theorem length_readBytes : (readBytes memory first n).length = n := by
  simp only [readBytes, List.length_map, List.length_range]

theorem readBytes_congr (same : ∀ x, first ≤ x → x < first + n → other x = memory x) :
    readBytes other first n = readBytes memory first n := by
  apply List.map_congr_left
  intro i hi
  exact same _ (Nat.le_add_right _ _) (Nat.add_lt_add_left (List.mem_range.mp hi) _)

theorem readBytes_inj : readBytes other first n = readBytes memory first n ↔
    ∀ i, i < n → other (first + i) = memory (first + i) := by
  simp only [readBytes, List.map_inj_left, List.mem_range]

theorem readBytes_add : readBytes memory first (n + k)
    = readBytes memory first n ++ readBytes memory (first + n) k := by
  simp only [readBytes, List.range_add, List.map_append, List.map_map, Function.comp_def,
    Nat.add_assoc]

theorem readBytes_succ :
    readBytes memory first (n + 1) = readBytes memory first n ++ [memory (first + n)] := by
  rw [readBytes_add]
  rfl

/-- A write outside the bytes read is not seen. -/
theorem readBytes_update {x : Nat} {byte : UInt8} (outside : x < first ∨ first + n ≤ x) :
    readBytes (Function.update memory x byte) first n = readBytes memory first n := by
  apply readBytes_congr
  intro y low high
  exact Function.update_of_ne (by omega) _ _

/-- A copy that goes on for one byte. -/
theorem readBytes_update_succ {bytes : List UInt8} (inside : n < bytes.length)
    (copied : readBytes memory first n = bytes.take n) :
    readBytes (Function.update memory (first + n) bytes[n]) first (n + 1)
      = bytes.take (n + 1) := by
  rw [readBytes_succ, readBytes_update (Or.inr (Nat.le_refl _)), copied, Function.update_self,
    List.take_add_one, List.getElem?_eq_getElem inside, Option.toList_some]

/-- The memory after a copy of some bytes to `first`. -/
def writeBytes (memory : Nat → UInt8) (first : Nat) (bytes : List UInt8) : Nat → UInt8 :=
  fun x => if first ≤ x then (bytes[x - first]?).getD (memory x) else memory x

theorem readBytes_writeBytes {bytes : List UInt8} :
    readBytes (writeBytes memory first bytes) first bytes.length = bytes := by
  apply List.ext_getElem
  · exact length_readBytes
  · intro i hi inside
    simp [readBytes, writeBytes, inside]

end Fpag
