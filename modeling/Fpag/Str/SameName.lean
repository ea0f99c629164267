import Mathlib.Data.List.GetD
import Fpag.Str.InternSafety

/-!
The bytes that `same_name` reads.

`sameName` says what the comparison of two names comes to. Here are its loops on the machine words
that they run on, with a list of the bytes that they read. A word of a name is read with the eight
bytes that it consists of, so that the words in front of the rest, and the last one that overlaps
them, have to lie within the name. `Gives` is what a piece of the comparison gives when it reads
nothing else, and it is put together along the loops.
-/

namespace Fpag.Str

/-! ## The comparison -/

/-- Which of the two names a byte is read from. -/
inductive NameSide : Type
  | lhs
  | rhs

/-- A byte that is read, and its index behind the pointer of its side. -/
structure NameRead : Type where
  side : NameSide
  index : Nat

/-- What reads bytes, and what may not come to an end. -/
abbrev Comparing : Type → Type := StateT (List NameRead) Option

variable (names : NameSide → Nat → UInt8) (length : BitVec 64)

/-- A byte behind the pointer of a side. -/
def readByte (side : NameSide) (at_ : Nat) : Comparing UInt8 :=
  fun reads => some (names side at_, reads ++ [⟨side, at_⟩])

/-- `InternTable::word_at`, byte by byte. -/
def readWord (side : NameSide) (at_ : Nat) : Comparing Nat := do
  let bytes ← (List.range 8).mapM fun i => readByte names side (at_ + i)
  pure (ofBytes bytes)

/-- The first loop of `same_name`: where it ends, or nothing where it returns that the names
differ. -/
def wordLoop : Nat → BitVec 64 → Comparing (Option (BitVec 64))
  | 0, _ => fun _ => none
  | fuel + 1, at_ =>
      if at_ + 8 ≤ length then do
        let left ← readWord names .lhs at_.toNat
        let right ← readWord names .rhs at_.toNat
        if left = right then wordLoop fuel (at_ + 8) else pure none
      else pure (some at_)

/-- The second one. -/
def byteLoop : Nat → BitVec 64 → Comparing Bool
  | 0, _ => fun _ => none
  | fuel + 1, at_ =>
      if at_ < length then do
        let left ← readByte names .lhs at_.toNat
        let right ← readByte names .rhs at_.toNat
        if left = right then byteLoop fuel (at_ + 1) else pure false
      else pure true

/-- `InternTable::same_name`, with loops that take `fuel` turns at most. -/
def sameNameReads (fuel : Nat) : Comparing Bool := do
  match ← wordLoop names length fuel 0 with
  | none => pure false
  | some at_ =>
      if at_ = length then pure true
      else if 8 ≤ length then do
        let left ← readWord names .lhs (length.toNat - 8)
        let right ← readWord names .rhs (length.toNat - 8)
        pure (left == right)
      else byteLoop names length fuel at_

/-! ## Reading within the names -/

variable {names} {length} {α β : Type} {n : Nat}

/-- The piece gives `a`, and every byte that it reads has an index below `n`. -/
def Gives (n : Nat) (piece : Comparing α) (a : α) : Prop :=
  ∀ reads, ∃ more, piece reads = some (a, reads ++ more) ∧ ∀ read ∈ more, read.index < n

theorem Gives.pure (a : α) : Gives n (pure a : Comparing α) a :=
  fun reads => ⟨[], by rw [List.append_nil]; rfl, fun _ none_ => absurd none_ List.not_mem_nil⟩

theorem Gives.bind {piece : Comparing α} {a : α} {next : α → Comparing β} {b : β}
    (first : Gives n piece a) (second : Gives n (next a) b) : Gives n (piece >>= next) b := by
  intro reads
  obtain ⟨more, run, inside⟩ := first reads
  obtain ⟨more', run', inside'⟩ := second (reads ++ more)
  refine ⟨more ++ more', ?_, ?_⟩
  · change (piece reads).bind (fun p => next p.1 p.2) = _
    rw [run, Option.bind_some, run', List.append_assoc]
  · intro read there
    rcases List.mem_append.mp there with there | there
    · exact inside read there
    · exact inside' read there

theorem Gives.mapM {pieces : α → Comparing β} {f : α → β} {xs : List α}
    (each : ∀ x ∈ xs, Gives n (pieces x) (f x)) : Gives n (xs.mapM pieces) (xs.map f) := by
  induction xs with
  | nil => exact .pure []
  | cons x xs ih =>
      rw [List.mapM_cons]
      have others := ih fun y there => each y (List.mem_cons_of_mem x there)
      exact (each x List.mem_cons_self).bind (others.bind (.pure _))

theorem readByte_gives {side : NameSide} {at_ : Nat} (inside : at_ < n) :
    Gives n (readByte names side at_) (names side at_) := by
  refine fun reads => ⟨[⟨side, at_⟩], rfl, fun read there => ?_⟩
  cases List.mem_singleton.mp there
  exact inside

/-- A word that ends within the name. -/
theorem readWord_gives {side : NameSide} {at_ : Nat} (inside : at_ + 8 ≤ n) :
    Gives n (readWord names side at_) (wordAt (names side) at_) := by
  refine Gives.bind (Gives.mapM (f := fun i => names side (at_ + i)) ?_) (.pure _)
  intro i small
  have small := List.mem_range.mp small
  exact readByte_gives (by omega)

/-! ## The loops -/

theorem toNat_eight : (8 : BitVec 64).toNat = 8 := rfl

/-- From a place at a whole word on: either all whole words that are left are the same and the loop
ends behind them, or it returns at one that is not. -/
theorem wordLoop_gives (names : NameSide → Nat → UInt8) (held : length.toNat < 2 ^ 63)
    (fuel : Nat) {at_ : BitVec 64} {k : Nat} (place : at_.toNat = 8 * k)
    (inside : 8 * k ≤ length.toNat) (enough : length.toNat / 8 - k < fuel) :
    (∃ last, Gives length.toNat (wordLoop names length fuel at_) (some last) ∧
      last.toNat = 8 * (length.toNat / 8) ∧ ∀ j, k ≤ j → j < length.toNat / 8 →
        wordAt (names .lhs) (8 * j) = wordAt (names .rhs) (8 * j)) ∨
      Gives length.toNat (wordLoop names length fuel at_) none ∧ ∃ j, k ≤ j ∧
        j < length.toNat / 8 ∧ wordAt (names .lhs) (8 * j) ≠ wordAt (names .rhs) (8 * j) := by
  induction fuel generalizing at_ k with
  | zero => omega
  | succ fuel ih =>
      have next : (at_ + 8).toNat = 8 * (k + 1) := by
        rw [BitVec.toNat_add_of_lt (by rw [place, toNat_eight]; omega), place, toNat_eight]
        rfl
      rw [wordLoop]
      by_cases more : at_ + 8 ≤ length
      · rw [if_pos more]
        rw [BitVec.le_def, next] at more
        have left : Gives length.toNat (readWord names .lhs at_.toNat)
            (wordAt (names .lhs) (8 * k)) := place ▸ readWord_gives (by omega)
        have right : Gives length.toNat (readWord names .rhs at_.toNat)
            (wordAt (names .rhs) (8 * k)) := place ▸ readWord_gives (by omega)
        by_cases same : wordAt (names .lhs) (8 * k) = wordAt (names .rhs) (8 * k)
        · rcases ih next more (by omega) with ⟨last, gives, ends, equal⟩ | ⟨gives, j, after, rest⟩
          · refine .inl ⟨last, left.bind (right.bind ?_), ends, fun j after before => ?_⟩
            · rw [if_pos same]
              exact gives
            · rcases Nat.eq_or_lt_of_le after with rfl | after
              · exact same
              · exact equal j after before
          · refine .inr ⟨left.bind (right.bind ?_), j, by omega, rest⟩
            rw [if_pos same]
            exact gives
        · refine .inr ⟨left.bind (right.bind ?_), k, Nat.le_refl k, by omega, same⟩
          rw [if_neg same]
          exact .pure none
      · rw [if_neg more]
        rw [BitVec.le_def, next] at more
        exact .inl ⟨at_, .pure _, by omega, fun j after before => by omega⟩

/-- From a place on: the loop gives whether the bytes that are left are the same. -/
theorem byteLoop_gives (names : NameSide → Nat → UInt8) (held : length.toNat < 2 ^ 63)
    (fuel : Nat) {at_ : BitVec 64} (inside : at_.toNat ≤ length.toNat)
    (enough : length.toNat - at_.toNat < fuel) :
    ∃ same, Gives length.toNat (byteLoop names length fuel at_) same ∧
      (same = true ↔ ∀ i, at_.toNat ≤ i → i < length.toNat → names .lhs i = names .rhs i) := by
  induction fuel generalizing at_ with
  | zero => omega
  | succ fuel ih =>
      rw [byteLoop]
      by_cases more : at_ < length
      · rw [if_pos more]
        rw [BitVec.lt_def] at more
        have next : (at_ + 1).toNat = at_.toNat + 1 :=
          BitVec.toNat_add_of_lt (by rw [show (1 : BitVec 64).toNat = 1 from rfl]; omega)
        have left : Gives length.toNat (readByte names .lhs at_.toNat) _ := readByte_gives more
        have right : Gives length.toNat (readByte names .rhs at_.toNat) _ := readByte_gives more
        by_cases same : names .lhs at_.toNat = names .rhs at_.toNat
        · obtain ⟨rest, gives, is⟩ := ih (show (at_ + 1).toNat ≤ length.toNat by omega) (by omega)
          refine ⟨rest, left.bind (right.bind ?_), is.trans ?_⟩
          · rw [if_pos same]
            exact gives
          · rw [next]
            constructor
            · intro equal i after before
              rcases Nat.eq_or_lt_of_le after with rfl | after
              · exact same
              · exact equal i after before
            · exact fun equal i after before => equal i (by omega) before
        · refine ⟨false, left.bind (right.bind ?_), ?_⟩
          · rw [if_neg same]
            exact .pure false
          · exact iff_of_false Bool.false_ne_true fun equal => same (equal _ (Nat.le_refl _) more)
      · rw [if_neg more]
        rw [BitVec.lt_def] at more
        exact ⟨true, .pure true, iff_of_true rfl fun i after before => by omega⟩

/-! ## The whole comparison -/

/-- The comparison comes to what `sameName` says, and reads within the names. -/
theorem sameNameReads_gives (names : NameSide → Nat → UInt8) (held : length.toNat < 2 ^ 63)
    {fuel : Nat} (enough : length.toNat < fuel) :
    Gives length.toNat (sameNameReads names length fuel)
      (sameName (names .lhs) (names .rhs) length.toNat) := by
  rcases wordLoop_gives names held fuel (show (0 : BitVec 64).toNat = 8 * 0 from rfl)
    (Nat.zero_le _) (by omega) with ⟨last, gives, ends, equal⟩ | ⟨gives, j, -, before, differ⟩
  · refine Gives.bind gives ?_
    have whole : ((List.range (length.toNat / 8)).all fun word =>
        wordAt (names .lhs) (8 * word) == wordAt (names .rhs) (8 * word)) = true := by
      simp only [List.all_eq_true, List.mem_range, beq_iff_eq]
      exact fun j before => equal j (Nat.zero_le j) before
    rw [sameName, if_pos whole, ← ends]
    by_cases exact_ : last = length
    · subst exact_
      rw [if_pos (beq_self_eq_true _)]
      simp only [if_true]
      exact .pure true
    · have rest : last.toNat ≠ length.toNat := fun same => exact_ (BitVec.eq_of_toNat_eq same)
      rw [if_neg (by simpa using rest)]
      simp only [if_neg exact_, BitVec.le_def, toNat_eight]
      by_cases long : 8 ≤ length.toNat
      · -- The last word overlaps those in front of it.
        rw [if_pos long, if_pos long]
        exact (readWord_gives (by omega)).bind ((readWord_gives (by omega)).bind (.pure _))
      · rw [if_neg long, if_neg long]
        obtain ⟨same, gives', is⟩ := byteLoop_gives names held fuel
          (show last.toNat ≤ length.toNat by omega) (by omega)
        have start : last.toNat = 0 := by omega
        have bytes : ((List.range length.toNat).all fun at_ => names .lhs at_ == names .rhs at_) =
            same := by
          rw [Bool.eq_iff_iff, is, start]
          simp only [List.all_eq_true, List.mem_range, beq_iff_eq]
          exact ⟨fun equal i _ before => equal i before, fun equal i => equal i (Nat.zero_le i)⟩
        rw [bytes]
        exact gives'
  · refine Gives.bind gives ?_
    have broken : ¬ ((List.range (length.toNat / 8)).all fun word =>
        wordAt (names .lhs) (8 * word) == wordAt (names .rhs) (8 * word)) = true := by
      simp only [List.all_eq_true, List.mem_range, beq_iff_eq]
      exact fun equal => differ (equal j before)
    rw [sameName, if_neg broken]
    exact .pure false

/-- What is behind the two pointers: the bytes of the views, and other ones behind these. -/
def pointees (lhs rhs : StringView) (others : NameSide → Nat → UInt8) : NameSide → Nat → UInt8
  | .lhs, i => lhs.bytes.getD i (others .lhs i)
  | .rhs, i => rhs.bytes.getD i (others .rhs i)

/-- For every length and all names of that length, whatever is behind them in memory:
`same_name` comes to its end, says whether the bytes are the same, and reads no byte that does not
belong to the names. -/
theorem same_name_exact (lhs rhs : StringView) (length : BitVec 64)
    (left : lhs.bytes.length = length.toNat) (right : rhs.bytes.length = length.toNat)
    (others : NameSide → Nat → UInt8) (fuel : Nat) (enough : length.toNat < fuel) :
    ∃ reads : List NameRead,
      (sameNameReads (pointees lhs rhs others) length fuel).run [] =
          some (decide (lhs.bytes = rhs.bytes), reads) ∧
      ∀ read ∈ reads, read.index < length.toNat := by
  obtain ⟨reads, run, inside⟩ :=
    sameNameReads_gives (pointees lhs rhs others) (left ▸ lhs.size_lt) enough []
  refine ⟨reads, ?_, inside⟩
  have equal : sameName (pointees lhs rhs others .lhs) (pointees lhs rhs others .rhs)
      length.toNat = decide (lhs.bytes = rhs.bytes) := by
    rw [Bool.eq_iff_iff, sameName_iff, decide_eq_true_iff]
    constructor
    · intro same
      apply List.ext_getElem (left.trans right.symm)
      intro i inLeft inRight
      have here := same i (left ▸ inLeft)
      rwa [pointees, pointees, List.getD_eq_getElem _ _ inLeft,
        List.getD_eq_getElem _ _ inRight] at here
    · intro same i before
      rw [pointees, pointees, List.getD_eq_getElem _ _ (left ▸ before),
        List.getD_eq_getElem _ _ (right ▸ before)]
      simp only [same]
  rw [← equal]
  exact run

/-- Names of eleven bytes that differ in the last one. -/
theorem same_name_exact_tail : ∃ reads : List NameRead,
    (sameNameReads (pointees ⟨[1, 2, 3, 4, 5, 6, 7, 8, 9, 10, 11], by decide⟩
      ⟨[1, 2, 3, 4, 5, 6, 7, 8, 9, 10, 12], by decide⟩ fun _ _ => 0) 11 12).run [] =
        some (false, reads) ∧ ∀ read ∈ reads, read.index < 11 :=
  same_name_exact ⟨[1, 2, 3, 4, 5, 6, 7, 8, 9, 10, 11], by decide⟩
    ⟨[1, 2, 3, 4, 5, 6, 7, 8, 9, 10, 12], by decide⟩ 11 rfl rfl (fun _ _ => 0) 12 (by decide)

end Fpag.Str
