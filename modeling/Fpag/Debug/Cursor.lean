import Fpag.Lib.Bytes
import Fpag.Lib.Reader

/-!
`debug::dwarf::detail::SectionView` and `Cursor`: bounded reads of a mapped file.

A pointer into the mapping is the list of the bytes from there to the end of the mapping,
and `nullptr` is no list at all. A read that goes beyond the list, or through `nullptr`, is a
fault; the bounds that the reader checks are those of the section, which it takes on trust.
Numbers are `u64`, so arithmetic on them is modulo `2 ^ 64`.
-/

namespace Fpag.Debug

/-- A value of `u64` after arithmetic. -/
def u64 (n : Nat) : Nat := n % 2 ^ 64

/-- Subtraction in `u64`. -/
def subtract (x y : Nat) : Nat := u64 (x + (2 ^ 64 - u64 y))

/-- A value of `u64` as an `i64`. -/
def i64 (n : Nat) : Int := if u64 n < 2 ^ 63 then u64 n else (u64 n : Int) - 2 ^ 64

/-- `detail::SectionView`. -/
structure SectionView : Type where
  data : Option (List UInt8)
  size : Nat
  deriving DecidableEq

/-- `detail::Cursor`. -/
structure Cursor : Type where
  data : Option (List UInt8)
  size : Nat
  position : Nat
  deriving DecidableEq

/-- The zero-terminated string that a `memchr` over at most `n` bytes ends, if it finds its end
there. -/
def scan : Nat → List UInt8 → Except Stop (Option (List UInt8))
  | 0, _ => .ok none
  | _ + 1, [] => .error .fault
  | n + 1, byte :: bytes =>
      if byte = 0 then .ok (some [])
      else (scan n bytes).map fun text => text.map (byte :: ·)

/-- A `memchr` over the `n` bytes at an offset. -/
def scanAt (data : Option (List UInt8)) (offset n : Nat) : Except Stop (Option (List UInt8)) :=
  match data with
  | none => .error .fault
  | some bytes => scan n (bytes.drop offset)

namespace SectionView

def present (view : SectionView) : Bool := view.data.isSome

/-- `SectionView::string_at`; the string is what the pointer that it returns stands for. -/
def stringAt (view : SectionView) (offset : Nat) : Except Stop (Option (List UInt8)) :=
  if view.size ≤ offset then .ok none else scanAt view.data offset (view.size - offset)

def cursor (view : SectionView) : Cursor := ⟨view.data, view.size, 0⟩

end SectionView

namespace Cursor

/-- The `n` bytes at the position. -/
def load (n : Nat) (c : Cursor) : Except Stop (List UInt8) :=
  match c.data with
  | none => .error .fault
  | some bytes =>
      let got := (bytes.drop c.position).take n
      if got.length = n then .ok got else .error .fault

def advance (c : Cursor) (n : Nat) : Cursor := { c with position := c.position + n }

/-- `Cursor::seek`. -/
def seek (position : Nat) : Reader Cursor Unit := do
  let c ← get
  Reader.require (position ≤ c.size)
  set { c with position := position }

/-- A width that `fixed` does not read here. -/
def refuses (c : Cursor) (bytes : Nat) : Bool :=
  bytes == 0 || decide (8 < bytes) || decide (subtract c.size c.position < bytes)

/-- `Cursor::fixed`. -/
def fixed (bytes : Nat) : Reader Cursor Nat := do
  let c ← get
  Reader.require (!c.refuses bytes)
  let got ← Reader.ofExcept (c.load bytes)
  set (c.advance bytes)
  pure (ofBytes got)

/-- The value with seven more bits of it. -/
def addBits (value shift byte : Nat) : Nat :=
  if shift < 64 then value ||| u64 ((byte &&& 0x7F) <<< shift) else value

/-- The loop of `Cursor::uleb`, with what is left of its ten turns. -/
def ulebLoop : Nat → Nat → Nat → Reader Cursor Nat
  | 0, _, _ => throw .refused
  | count + 1, shift, value => do
      let byte ← fixed 1
      if byte &&& 0x80 = 0 then pure (addBits value shift byte)
      else ulebLoop count (shift + 7) (addBits value shift byte)

/-- `Cursor::uleb`. -/
def uleb : Reader Cursor Nat := ulebLoop 10 0 0

/-- The value with the sign that the last byte carries. -/
def addSign (value shift byte : Nat) : Nat :=
  if shift < 64 ∧ byte &&& 0x40 ≠ 0 then value ||| u64 ((2 ^ 64 - 1) <<< shift) else value

/-- The loop of `Cursor::sleb`. -/
def slebLoop : Nat → Nat → Nat → Reader Cursor Int
  | 0, _, _ => throw .refused
  | count + 1, shift, value => do
      let byte ← fixed 1
      if byte &&& 0x80 = 0 then pure (i64 (addSign (addBits value shift byte) (shift + 7) byte))
      else slebLoop count (shift + 7) (addBits value shift byte)

/-- `Cursor::sleb`. -/
def sleb : Reader Cursor Int := slebLoop 10 0 0

/-- `Cursor::skip`. -/
def skip (bytes : Nat) : Reader Cursor Unit := do
  let c ← get
  Reader.require (bytes ≤ subtract c.size c.position)
  set (c.advance bytes)

/-- `Cursor::string`. -/
def string : Reader Cursor (List UInt8) := do
  let c ← get
  Reader.require (c.position < c.size)
  match ← Reader.ofExcept (scanAt c.data c.position (subtract c.size c.position)) with
  | none => throw .refused
  | some text =>
      set (c.advance (text.length + 1))
      pure text

end Cursor

/-! ## Arithmetic -/

theorem u64_lt (n : Nat) : u64 n < 2 ^ 64 := Nat.mod_lt _ (Nat.two_pow_pos 64)

theorem u64_eq {n : Nat} (small : n < 2 ^ 64) : u64 n = n := Nat.mod_eq_of_lt small

theorem subtract_eq {x y : Nat} (le : y ≤ x) (small : x < 2 ^ 64) : subtract x y = x - y := by
  simp only [subtract, u64]
  omega

theorem subtract_self (x : Nat) : subtract x x = 0 := by
  simp only [subtract, u64]
  omega

/-! ## Sound sections -/

/-- The bytes that a section claims are bytes of the mapping. -/
def Backed (data : Option (List UInt8)) (size : Nat) : Prop :=
  size = 0 ∨ ∃ bytes, data = some bytes ∧ size ≤ bytes.length

instance (data : Option (List UInt8)) (size : Nat) : Decidable (Backed data size) :=
  match data with
  | none => decidable_of_iff (size = 0) (by simp [Backed])
  | some bytes => decidable_of_iff (size = 0 ∨ size ≤ bytes.length) (by simp [Backed])

structure SectionView.Sound (view : SectionView) : Prop where
  backed : Backed view.data view.size
  small : view.size < 2 ^ 64

/-- What every operation of a cursor keeps. -/
structure Cursor.Sound (c : Cursor) : Prop where
  backed : Backed c.data c.size
  small : c.size < 2 ^ 64
  inside : c.position ≤ c.size

theorem SectionView.Sound.cursor {view : SectionView} (sound : view.Sound) :
    view.cursor.Sound :=
  ⟨sound.backed, sound.small, Nat.zero_le _⟩

theorem scan_ok {n : Nat} {bytes : List UInt8} (enough : n ≤ bytes.length) :
    ∃ text, scan n bytes = .ok text := by
  induction bytes generalizing n with
  | nil =>
      obtain rfl : n = 0 := Nat.le_zero.mp enough
      exact ⟨none, rfl⟩
  | cons byte bytes ih =>
      cases n with
      | zero => exact ⟨none, rfl⟩
      | succ n =>
          obtain ⟨text, found⟩ := ih (Nat.le_of_succ_le_succ enough)
          rw [scan, found]
          split
          · exact ⟨some [], rfl⟩
          · exact ⟨text.map (byte :: ·), rfl⟩

theorem scanAt_ok {data : Option (List UInt8)} {size offset : Nat} (backed : Backed data size)
    (inside : offset < size) : ∃ text, scanAt data offset (size - offset) = .ok text := by
  obtain zero | ⟨bytes, rfl, le⟩ := backed
  · omega
  · exact scan_ok (by rw [List.length_drop]; omega)

/-- Looking for a string in a section that is there does not stop. -/
theorem SectionView.Sound.stringAt_ok {view : SectionView} (sound : view.Sound) (offset : Nat) :
    ∃ text, view.stringAt offset = .ok text := by
  rw [SectionView.stringAt]
  split
  · exact ⟨none, rfl⟩
  · exact scanAt_ok sound.backed (by omega)

theorem SectionView.Sound.stringAt {view : SectionView} (sound : view.Sound) (offset : Nat) :
    view.stringAt offset ≠ .error .fault := by
  obtain ⟨text, found⟩ := sound.stringAt_ok offset
  rw [found]
  rintro ⟨⟩

theorem scan_length {n : Nat} {bytes text : List UInt8} (h : scan n bytes = .ok (some text)) :
    text.length < n := by
  induction bytes generalizing n text with
  | nil => cases n <;> cases h
  | cons byte bytes ih =>
      cases n with
      | zero => cases h
      | succ n =>
          rw [scan] at h
          split at h
          · cases h
            exact Nat.succ_pos n
          · cases hs : scan n bytes with
            | error stop =>
                rw [hs] at h
                cases h
            | ok found =>
                rw [hs] at h
                cases found with
                | none => cases h
                | some rest =>
                    cases h
                    have := ih hs
                    simpa using this

namespace Cursor

theorem Sound.advance {c : Cursor} (sound : c.Sound) {n : Nat}
    (room : n ≤ subtract c.size c.position) : (c.advance n).Sound := by
  rw [subtract_eq sound.inside sound.small] at room
  have := sound.inside
  exact ⟨sound.backed, sound.small, by simp only [Cursor.advance]; omega⟩

theorem Sound.load_ne_fault {c : Cursor} (sound : c.Sound) {n : Nat} (pos : 0 < n)
    (room : n ≤ subtract c.size c.position) : c.load n ≠ .error .fault := by
  rw [subtract_eq sound.inside sound.small] at room
  have inside := sound.inside
  unfold load
  obtain zero | ⟨bytes, data, le⟩ := sound.backed
  · omega
  · have length : ((bytes.drop c.position).take n).length = n := by
      rw [List.length_take, List.length_drop]
      omega
    simp only [data, length, if_true]
    rintro ⟨⟩

open Reader

/-- A reader of the section that neither leaves it nor faults. -/
abbrev Safe {α : Type} (m : Reader Cursor α) : Prop := Keeps Sound m

theorem seek_run (position : Nat) (c : Cursor) : (seek position).run c =
    if position ≤ c.size then .ok ((), { c with position := position }) else .error .refused := by
  by_cases inside : position ≤ c.size <;> simp [seek, require, inside] <;> rfl

/-- A cursor of a section is moved to any place in it. -/
theorem seek_cursor {view : SectionView} {position : Nat} (inside : position ≤ view.size) :
    (seek position).run view.cursor = .ok ((), ⟨view.data, view.size, position⟩) := by
  rw [seek_run]
  exact if_pos inside

theorem skip_run (bytes : Nat) (c : Cursor) : (skip bytes).run c =
    if bytes ≤ subtract c.size c.position then .ok ((), c.advance bytes) else .error .refused := by
  by_cases room : bytes ≤ subtract c.size c.position <;> simp [skip, require, room] <;> rfl

theorem refuses_eq_false {c : Cursor} {bytes : Nat} : c.refuses bytes = false ↔
    0 < bytes ∧ bytes ≤ 8 ∧ bytes ≤ subtract c.size c.position := by
  simp only [refuses, Bool.or_eq_false_iff, beq_eq_false_iff_ne, decide_eq_false_iff_not]
  constructor
  · rintro ⟨⟨h₁, h₂⟩, h₃⟩
    exact ⟨Nat.pos_of_ne_zero h₁, Nat.not_lt.mp h₂, Nat.not_lt.mp h₃⟩
  · rintro ⟨h₁, h₂, h₃⟩
    exact ⟨⟨Nat.pos_iff_ne_zero.mp h₁, Nat.not_lt.mpr h₂⟩, Nat.not_lt.mpr h₃⟩

theorem fixed_run (bytes : Nat) (c : Cursor) : (fixed bytes).run c =
    if c.refuses bytes then .error .refused
    else (c.load bytes).map fun got => (ofBytes got, c.advance bytes) := by
  by_cases refuses : c.refuses bytes = true
  · simp [fixed, require, refuses]
    rfl
  · cases load : c.load bytes <;> simp [fixed, require, refuses, load] <;> rfl

theorem string_run (c : Cursor) : string.run c =
    if c.position < c.size then
      match scanAt c.data c.position (subtract c.size c.position) with
      | .ok (some text) => .ok (text, c.advance (text.length + 1))
      | .ok none => .error .refused
      | .error stop => .error stop
    else .error .refused := by
  by_cases inside : c.position < c.size
  · cases found : scanAt c.data c.position (subtract c.size c.position) with
    | error stop =>
        simp [string, require, inside, found]
        rfl
    | ok text => cases text <;> simp [string, require, inside, found] <;> rfl
  · simp [string, require, inside]
    rfl

/-- A number that lies in the section is read. -/
theorem Sound.fixed_ok {c : Cursor} (sound : c.Sound) {n : Nat} (pos : 0 < n) (few : n ≤ 8)
    (inside : c.position + n ≤ c.size) :
    ∃ value, value < 256 ^ n ∧ (fixed n).run c = .ok (value, c.advance n) := by
  have room : n ≤ subtract c.size c.position := by
    rw [subtract_eq sound.inside sound.small]
    omega
  have accepts : c.refuses n = false := refuses_eq_false.mpr ⟨pos, few, room⟩
  rw [fixed_run, accepts]
  obtain zero | ⟨bytes, data, le⟩ := sound.backed
  · omega
  · have length : ((bytes.drop c.position).take n).length = n := by
      rw [List.length_take, List.length_drop]
      omega
    have bound := ofBytes_lt ((bytes.drop c.position).take n)
    rw [length] at bound
    refine ⟨_, bound, ?_⟩
    simp only [load, data, length, if_true]
    rfl

/-- A number that does not is refused. -/
theorem Sound.fixed_refused {c : Cursor} (sound : c.Sound) {n : Nat}
    (outside : c.size < c.position + n) : (fixed n).run c = .error .refused := by
  have refuses : c.refuses n = true := by
    rw [← Bool.not_eq_false, refuses_eq_false, subtract_eq sound.inside sound.small]
    have := sound.inside
    omega
  rw [fixed_run, if_pos refuses]

theorem seek_safe (position : Nat) : Safe (seek position) := by
  intro c sound
  rw [seek_run]
  split
  · next inside =>
      refine ⟨?_, by rintro ⟨⟩⟩
      rintro _ _ ⟨⟩
      exact ⟨sound.backed, sound.small, inside⟩
  · exact ⟨by rintro _ _ ⟨⟩, by rintro ⟨⟩⟩

theorem skip_safe (bytes : Nat) : Safe (skip bytes) := by
  intro c sound
  rw [skip_run]
  split
  · next room =>
      refine ⟨?_, by rintro ⟨⟩⟩
      rintro _ _ ⟨⟩
      exact sound.advance room
  · exact ⟨by rintro _ _ ⟨⟩, by rintro ⟨⟩⟩

theorem fixed_safe (bytes : Nat) : Safe (fixed bytes) := by
  intro c sound
  rw [fixed_run]
  split
  · exact ⟨by rintro _ _ ⟨⟩, by rintro ⟨⟩⟩
  · next accepts =>
      have fits := refuses_eq_false.mp (Bool.not_eq_true _ ▸ accepts)
      have safe := sound.load_ne_fault fits.1 fits.2.2
      cases load : c.load bytes with
      | error stop =>
          refine ⟨by rintro _ _ ⟨⟩, ?_⟩
          rintro ⟨⟩
          exact safe load
      | ok got =>
          refine ⟨?_, by rintro ⟨⟩⟩
          rintro _ _ ⟨⟩
          exact sound.advance fits.2.2

theorem ulebLoop_safe (count shift value : Nat) : Safe (ulebLoop count shift value) := by
  induction count generalizing shift value with
  | zero => exact .refused
  | succ count ih =>
      refine .bind (fixed_safe 1) fun byte => .ite (.pure _) (ih _ _)

theorem uleb_safe : Safe uleb := ulebLoop_safe 10 0 0

theorem slebLoop_safe (count shift value : Nat) : Safe (slebLoop count shift value) := by
  induction count generalizing shift value with
  | zero => exact .refused
  | succ count ih =>
      refine .bind (fixed_safe 1) fun byte => .ite (.pure _) (ih _ _)

theorem sleb_safe : Safe sleb := slebLoop_safe 10 0 0

theorem string_safe : Safe string := by
  intro c sound
  rw [string_run]
  split
  · next inside =>
      have room := subtract_eq sound.inside sound.small
      obtain ⟨answer, safe⟩ := scanAt_ok sound.backed inside
      rw [← room] at safe
      split
      · next text found =>
          refine ⟨?_, by rintro ⟨⟩⟩
          rintro _ _ ⟨⟩
          apply sound.advance
          cases hdata : c.data with
          | none =>
              rw [hdata] at found
              cases found
          | some bytes =>
              rw [hdata] at found
              exact scan_length found
      · exact ⟨by rintro _ _ ⟨⟩, by rintro ⟨⟩⟩
      · next stop found =>
          rw [found] at safe
          cases safe
  · exact ⟨by rintro _ _ ⟨⟩, by rintro ⟨⟩⟩

end Cursor

end Fpag.Debug
