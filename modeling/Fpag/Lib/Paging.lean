import Mathlib.Logic.Function.Basic
import Mathlib.Data.Option.Basic
import Mathlib.Tactic.Ring

/-!
An address space, and the system calls that change what it shows.

An address shows a byte of an object, or nothing. Two addresses that show the same byte are two
names of it: a store through the one is seen through the other. Objects are never used again, so
a mapping that is made shows bytes that no other address shows.

What the system decides is an argument of the call: the descriptor or the address it picks,
whether it refuses, and what a refused call has done to the range it was given. A pick that the
system may not make counts as a refusal. Lengths are those of whole pages. Only `munmap` is never
refused, since all that is given back here are whole mappings.
-/

namespace Fpag.Paging

/-- What an address shows: a byte of an object, and whether it can be read and written. -/
structure Cell : Type where
  object : Nat
  offset : Nat
  access : Bool
  deriving DecidableEq

/-- An address space with pages of `page` bytes, the objects made so far and the descriptors. -/
structure Space (page : Nat) : Type where
  view : Nat → Option Cell
  bytes : Nat → Nat → UInt8
  length : Nat → Nat
  files : Nat → Option Nat
  made : Nat
  shown : ∀ a cell, view a = some cell → cell.object < made
  opened : ∀ fd object, files fd = some object → object < made

namespace Space

variable {page : Nat}

/-- The address space in which nothing is mapped. -/
def empty (page : Nat) : Space page where
  view _ := none
  bytes _ _ := 0
  length _ := 0
  files _ := none
  made := 0
  shown _ _ h := nomatch h
  opened _ _ h := nomatch h

/-! ## Reading and writing -/

/-- The byte an address gives, unless the access faults. -/
def load (s : Space page) (a : Nat) : Option UInt8 :=
  match s.view a with
  | none => none
  | some cell =>
      if cell.access && decide (cell.offset < s.length cell.object) then
        some (s.bytes cell.object cell.offset)
      else none

/-- The space after a byte of an object has been set. -/
def poke (s : Space page) (cell : Cell) (b : UInt8) : Space page :=
  { s with
    bytes := Function.update s.bytes cell.object
      (Function.update (s.bytes cell.object) cell.offset b) }

/-- The space after a store, unless the access faults. -/
def store (s : Space page) (a : Nat) (b : UInt8) : Option (Space page) :=
  match s.view a with
  | none => none
  | some cell =>
      if cell.access && decide (cell.offset < s.length cell.object) then some (s.poke cell b)
      else none

/-! ## What the system calls are made of -/

/-- A new object of `n` bytes, all of them zero. -/
def create (s : Space page) (n : Nat) : Space page :=
  { s with
    bytes := Function.update s.bytes s.made fun _ => 0
    length := Function.update s.length s.made n
    made := s.made + 1
    shown := fun a cell h => Nat.lt_succ_of_lt (s.shown a cell h)
    opened := fun fd object h => Nat.lt_succ_of_lt (s.opened fd object h) }

/-- The addresses from `base` on, `n` of them, show what `f` says. -/
def remap (s : Space page) (base n : Nat) (f : Nat → Option Cell)
    (ok : ∀ a cell, f a = some cell → cell.object < s.made) : Space page :=
  { s with
    view := fun a => if base ≤ a ∧ a < base + n then f a else s.view a
    shown := by
      intro a cell h
      split at h
      · exact ok a cell h
      · exact s.shown a cell h }

/-- A descriptor stands for an object. -/
def bind (s : Space page) (fd object : Nat) (ok : object < s.made) : Space page :=
  { s with
    files := Function.update s.files fd (some object)
    opened := by
      intro fd' object' h
      by_cases same : fd' = fd
      · rw [same, Function.update_self, Option.some_inj] at h
        exact h ▸ ok
      · rw [Function.update_of_ne same] at h
        exact s.opened fd' object' h }

/-- An object is `n` bytes long from now on; what is new of it is zero. -/
def resize (s : Space page) (object n : Nat) : Space page :=
  { s with
    bytes := Function.update s.bytes object fun i =>
      if i < min (s.length object) n then s.bytes object i else 0
    length := Function.update s.length object n }

/-! ## The system calls -/

/-- `memfd_create`; the answer is the descriptor the system picks. -/
def memfdCreate (answer : Option Nat) (s : Space page) : Option Nat × Space page :=
  match answer with
  | none => (none, s)
  | some fd =>
      if s.files fd = none then (some fd, (s.create 0).bind fd s.made (Nat.lt_succ_self _))
      else (none, s)

/-- `ftruncate`; a length below zero is refused. -/
def ftruncate (answer : Bool) (fd : Nat) (n : Int) (s : Space page) : Bool × Space page :=
  match s.files fd with
  | none => (false, s)
  | some object =>
      if answer && decide (0 ≤ n) then (true, s.resize object n.toNat) else (false, s)

/-- `close`. -/
def close (fd : Nat) (s : Space page) : Space page :=
  { s with
    files := Function.update s.files fd none
    opened := by
      intro fd' object h
      by_cases same : fd' = fd
      · rw [same, Function.update_self] at h
        cases h
      · rw [Function.update_of_ne same] at h
        exact s.opened fd' object h }

/-- The system may place a mapping of `n` bytes at `base`. -/
structure Vacant (s : Space page) (base n : Nat) : Prop where
  pos : 0 < n
  nonnull : 0 < base
  aligned : base % page = 0
  inside : base + n ≤ 2 ^ 64
  free : ∀ i < n, s.view (base + i) = none

instance (s : Space page) (base n : Nat) : Decidable (s.Vacant base n) :=
  decidable_of_iff (0 < n ∧ 0 < base ∧ base % page = 0 ∧ base + n ≤ 2 ^ 64 ∧
      ∀ i < n, s.view (base + i) = none)
    ⟨fun ⟨h₁, h₂, h₃, h₄, h₅⟩ => ⟨h₁, h₂, h₃, h₄, h₅⟩,
      fun ⟨h₁, h₂, h₃, h₄, h₅⟩ => ⟨h₁, h₂, h₃, h₄, h₅⟩⟩

/-- `mmap` of `n` private, anonymous bytes; the answer is the address the system picks. -/
def mmapAnonymous (answer : Option Nat) (n : Nat) (access : Bool) (s : Space page) :
    Option Nat × Space page :=
  match answer with
  | none => (none, s)
  | some base =>
      if s.Vacant base n then
        (some base, (s.create n).remap base n (fun a => some ⟨s.made, a - base, access⟩)
          (fun _ _ h => Option.some_inj.mp h ▸ Nat.lt_succ_self _))
      else (none, s)

/-- What becomes of a call on a range: it is done, or it is refused after it has been carried
out on a part of the range. -/
inductive Answer : Type
  | done
  | refused (torn : Nat → Bool)

namespace Answer

/-- The call is done. -/
def isDone : Answer → Bool
  | .done => true
  | .refused _ => false

/-- The call has been carried out at an address of its range. -/
def reaches : Answer → Nat → Bool
  | .done, _ => true
  | .refused torn, a => torn a

end Answer

/-- `mmap` of a descriptor, shared, at a fixed place. A refused call may have taken away what
the range showed before. -/
def mmapFixed (answer : Answer) (base n fd : Nat) (s : Space page) : Bool × Space page :=
  match h : s.files fd with
  | none => (false, s)
  | some object =>
      match answer with
      | .done =>
          (true, s.remap base n (fun a => some ⟨object, a - base, true⟩)
            (fun _ _ same => Option.some_inj.mp same ▸ s.opened fd object h))
      | .refused torn =>
          (false, s.remap base n (fun a => if torn a then none else s.view a)
            (by
              intro a cell same
              split at same
              · cases same
              · exact s.shown a cell same))

/-- `mprotect` to reading and writing; the pages of the range have to be mapped. -/
def mprotect (answer : Answer) (base n : Nat) (s : Space page) : Bool × Space page :=
  if answer.isDone && !decide (∀ i < n, (s.view (base + i)).isSome) then (false, s)
  else
    (answer.isDone,
      s.remap base n
        (fun a =>
          if answer.reaches a then (s.view a).map fun cell => { cell with access := true }
          else s.view a)
        (by
          intro a cell h
          split at h
          · obtain ⟨old, shows, rfl⟩ := Option.map_eq_some_iff.mp h
            exact s.shown a old shows
          · exact s.shown a cell h))

/-- `munmap`, of a whole mapping. It takes no answer: the system may refuse to split a mapping, but
has no reason to refuse to give one back. -/
def munmap (base n : Nat) (s : Space page) : Space page :=
  s.remap base n (fun _ => none) (fun _ _ h => nomatch h)

/-! ## What a call leaves as it was -/

section Frame

variable (s : Space page) (cell : Cell) (b : UInt8) (base n fd object : Nat)
  (f : Nat → Option Cell) (ok : ∀ a cell, f a = some cell → cell.object < s.made)
  (made : object < s.made)

theorem remap_view (a : Nat) :
    (s.remap base n f ok).view a = if base ≤ a ∧ a < base + n then f a else s.view a := rfl

@[simp] theorem remap_bytes : (s.remap base n f ok).bytes = s.bytes := rfl
@[simp] theorem remap_length : (s.remap base n f ok).length = s.length := rfl
@[simp] theorem remap_files : (s.remap base n f ok).files = s.files := rfl
@[simp] theorem remap_made : (s.remap base n f ok).made = s.made := rfl

theorem munmap_view (a : Nat) :
    (s.munmap base n).view a = if base ≤ a ∧ a < base + n then none else s.view a := rfl

@[simp] theorem create_view : (s.create n).view = s.view := rfl
@[simp] theorem create_files : (s.create n).files = s.files := rfl
@[simp] theorem create_made : (s.create n).made = s.made + 1 := rfl

@[simp] theorem bind_view : (s.bind fd object made).view = s.view := rfl
@[simp] theorem bind_bytes : (s.bind fd object made).bytes = s.bytes := rfl
@[simp] theorem bind_length : (s.bind fd object made).length = s.length := rfl
@[simp] theorem bind_made : (s.bind fd object made).made = s.made := rfl

@[simp] theorem resize_view : (s.resize object n).view = s.view := rfl
@[simp] theorem resize_files : (s.resize object n).files = s.files := rfl
@[simp] theorem resize_made : (s.resize object n).made = s.made := rfl

@[simp] theorem close_view : (s.close fd).view = s.view := rfl
@[simp] theorem close_bytes : (s.close fd).bytes = s.bytes := rfl
@[simp] theorem close_length : (s.close fd).length = s.length := rfl
@[simp] theorem close_made : (s.close fd).made = s.made := rfl

theorem poke_bytes : (s.poke cell b).bytes cell.object =
    Function.update (s.bytes cell.object) cell.offset b := Function.update_self ..

theorem poke_bytes_of_ne {object : Nat} (ne : object ≠ cell.object) :
    (s.poke cell b).bytes object = s.bytes object := Function.update_of_ne ne ..

@[simp] theorem poke_view : (s.poke cell b).view = s.view := rfl
@[simp] theorem poke_length : (s.poke cell b).length = s.length := rfl
@[simp] theorem poke_files : (s.poke cell b).files = s.files := rfl
@[simp] theorem poke_made : (s.poke cell b).made = s.made := rfl

end Frame

/-- The objects there were are as they were. -/
structure Keeps (s s' : Space page) : Prop where
  made : s.made ≤ s'.made
  bytes : ∀ object < s.made, s'.bytes object = s.bytes object
  length : ∀ object < s.made, s'.length object = s.length object

namespace Keeps

variable {s m s' : Space page}

theorem refl (s : Space page) : s.Keeps s := ⟨Nat.le_refl _, fun _ _ => rfl, fun _ _ => rfl⟩

theorem trans (first : s.Keeps m) (second : m.Keeps s') : s.Keeps s' where
  made := Nat.le_trans first.made second.made
  bytes object old :=
    (second.bytes object (Nat.lt_of_lt_of_le old first.made)).trans (first.bytes object old)
  length object old :=
    (second.length object (Nat.lt_of_lt_of_le old first.made)).trans (first.length object old)

/-- A call that leaves the objects alone. -/
theorem congr (keeps : s.Keeps m) (made : s'.made = m.made) (bytes : s'.bytes = m.bytes)
    (length : s'.length = m.length) : s.Keeps s' where
  made := made ▸ keeps.made
  bytes := bytes ▸ keeps.bytes
  length := length ▸ keeps.length

theorem create (keeps : s.Keeps m) (n : Nat) : s.Keeps (m.create n) where
  made := Nat.le_succ_of_le keeps.made
  bytes object old := by
    have other : object ≠ m.made := Nat.ne_of_lt (Nat.lt_of_lt_of_le old keeps.made)
    exact (Function.update_of_ne other _ _).trans (keeps.bytes object old)
  length object old := by
    have other : object ≠ m.made := Nat.ne_of_lt (Nat.lt_of_lt_of_le old keeps.made)
    exact (Function.update_of_ne other _ _).trans (keeps.length object old)

theorem resize (keeps : s.Keeps m) {object : Nat} (new : s.made ≤ object) (n : Nat) :
    s.Keeps (m.resize object n) where
  made := keeps.made
  bytes other old :=
    (Function.update_of_ne (by omega) _ _).trans (keeps.bytes other old)
  length other old :=
    (Function.update_of_ne (by omega) _ _).trans (keeps.length other old)

theorem poke (keeps : s.Keeps m) {cell : Cell} (new : s.made ≤ cell.object) (b : UInt8) :
    s.Keeps (m.poke cell b) where
  made := keeps.made
  bytes other old :=
    (Function.update_of_ne (by omega) _ _).trans (keeps.bytes other old)
  length := keeps.length

/-- What was readable in the old objects still is, with the same byte. -/
theorem load (keeps : s.Keeps s') {a : Nat} (view : s'.view a = s.view a) :
    s'.load a = s.load a := by
  unfold Space.load
  rw [view]
  cases shows : s.view a with
  | none => rfl
  | some cell =>
      have old := s.shown a cell shows
      simp only [keeps.bytes _ old, keeps.length _ old]

end Keeps

/-- Only what a range shows has changed. -/
structure Touches (s s' : Space page) (base n : Nat) : Prop where
  files : s'.files = s.files
  made : s'.made = s.made
  bytes : s'.bytes = s.bytes
  length : s'.length = s.length
  outside : ∀ a, ¬ (base ≤ a ∧ a < base + n) → s'.view a = s.view a

namespace Touches

variable {s m s' : Space page} {base n base' n' : Nat}

theorem keeps (touches : s.Touches s' base n) : s.Keeps s' :=
  (Keeps.refl s).congr touches.made touches.bytes touches.length

theorem within (touches : s.Touches s' base' n') (low : base ≤ base')
    (high : base' + n' ≤ base + n) : s.Touches s' base n :=
  { touches with outside := fun a elsewhere => touches.outside a (by omega) }

theorem trans (first : s.Touches m base n) (second : m.Touches s' base n) :
    s.Touches s' base n where
  files := second.files.trans first.files
  made := second.made.trans first.made
  bytes := second.bytes.trans first.bytes
  length := second.length.trans first.length
  outside a elsewhere := (second.outside a elsewhere).trans (first.outside a elsewhere)

end Touches

theorem remap_touches (s : Space page) (base n : Nat) (f : Nat → Option Cell)
    (ok : ∀ a cell, f a = some cell → cell.object < s.made) :
    s.Touches (s.remap base n f ok) base n where
  files := rfl
  made := rfl
  bytes := rfl
  length := rfl
  outside _ elsewhere := if_neg elsewhere

theorem munmap_touches (s : Space page) (base n : Nat) : s.Touches (s.munmap base n) base n :=
  remap_touches ..

/-! ## A range that is backed by one object -/

/-- The `span` addresses from `base` on show one object of `n` bytes, over and over, and no other
address shows it; `granted` says which of them can be read and written. -/
structure Backed (s : Space page) (base span n object : Nat) (granted : Nat → Bool) : Prop where
  pos : 0 < n
  shows : ∀ i < span, s.view (base + i) = some ⟨object, i % n, granted i⟩
  length : s.length object = n
  alone : ∀ a cell, s.view a = some cell → cell.object = object → base ≤ a ∧ a < base + span

namespace Backed

variable {s s' : Space page} {base span n object i j : Nat} {granted : Nat → Bool}

/-- A load gives the byte of the object, as far as it has been granted. -/
theorem load (backed : s.Backed base span n object granted) (inside : i < span) :
    s.load (base + i) = if granted i then some (s.bytes object (i % n)) else none := by
  have within : i % n < s.length object := by
    rw [backed.length]
    exact Nat.mod_lt i backed.pos
  unfold Space.load
  rw [backed.shows i inside]
  simp only [within, decide_true, Bool.and_true]

/-- A store sets the byte of the object, as far as it has been granted. -/
theorem store (backed : s.Backed base span n object granted) (inside : i < span) (b : UInt8) :
    s.store (base + i) b =
      if granted i then some (s.poke ⟨object, i % n, granted i⟩ b) else none := by
  have within : i % n < s.length object := by
    rw [backed.length]
    exact Nat.mod_lt i backed.pos
  unfold Space.store
  rw [backed.shows i inside]
  simp only [within, decide_true, Bool.and_true]

theorem object_lt (backed : s.Backed base span n object granted) (inside : i < span) :
    object < s.made :=
  s.shown _ _ (backed.shows i inside)

/-- What changes elsewhere, and does not show the object, leaves the range as it is. -/
theorem frame (backed : s.Backed base span n object granted)
    (same : ∀ a, base ≤ a → a < base + span → s'.view a = s.view a)
    (others : ∀ a cell, s'.view a = some cell → cell.object = object → s.view a = some cell)
    (length : s'.length object = s.length object) :
    s'.Backed base span n object granted where
  pos := backed.pos
  shows i inside := (same _ (by omega) (by omega)).trans (backed.shows i inside)
  length := length.trans backed.length
  alone a cell shows its := backed.alone a cell (others a cell shows its) its

theorem poke (backed : s.Backed base span n object granted) (cell : Cell) (b : UInt8) :
    (s.poke cell b).Backed base span n object granted :=
  backed.frame (fun _ _ _ => rfl) (fun _ _ shows _ => shows) rfl

/-- `mprotect` on a part of the range grants what it is carried out on. -/
theorem mprotect (backed : s.Backed base span n object granted) {low count : Nat}
    (inside : low + count ≤ span) (answer : Answer) :
    ∃ s', s.mprotect answer (base + low) count = (answer.isDone, s') ∧
      s.Touches s' (base + low) count ∧
      s'.Backed base span n object fun i => granted i ||
        (decide (low ≤ i ∧ i < low + count) && answer.reaches (base + i)) := by
  have mapped : ∀ i < count, (s.view (base + low + i)).isSome := by
    intro i small
    rw [Nat.add_assoc, backed.shows (low + i) (by omega)]
    rfl
  unfold Space.mprotect
  rw [decide_eq_true mapped, Bool.not_true, Bool.and_false]
  refine ⟨_, rfl, remap_touches .., backed.pos, ?_, backed.length, ?_⟩
  · intro i small
    rw [remap_view, backed.shows i small]
    by_cases within : low ≤ i ∧ i < low + count
    · rw [if_pos (by omega), decide_eq_true within, Bool.true_and]
      cases answer.reaches (base + i) <;> simp
    · rw [if_neg (by omega), decide_eq_false within, Bool.false_and, Bool.or_false]
  · intro a cell shows its
    rw [remap_view] at shows
    split at shows
    · omega
    · exact backed.alone a cell shows its

/-- Two ranges that are apart are backed by different objects. -/
theorem object_ne {base' span' n' object' : Nat} {granted' : Nat → Bool}
    (backed : s.Backed base span n object granted)
    (backed' : s.Backed base' span' n' object' granted') (some_ : 0 < span')
    (apart : ∀ a, base ≤ a → a < base + span → ¬ (base' ≤ a ∧ a < base' + span')) :
    object ≠ object' := by
  intro same
  obtain ⟨low, high⟩ := backed.alone _ _ (backed'.shows 0 some_) same.symm
  exact apart _ low high ⟨Nat.le_refl _, by omega⟩

end Backed

/-! ## What comes of an allocation -/

/-- Nothing: what is mapped and the descriptors are as they were. -/
structure Same (s s' : Space page) : Prop where
  view : s'.view = s.view
  files : s'.files = s.files
  keeps : s.Keeps s'

/-- A range where nothing was mapped shows a new object of `n` zero bytes. -/
structure Gains (s s' : Space page) (base span n : Nat) (granted : Bool) : Prop where
  files : s'.files = s.files
  keeps : s.Keeps s'
  nonnull : 0 < base
  aligned : base % page = 0
  inside : base + span ≤ 2 ^ 64
  vacant : ∀ a, base ≤ a → a < base + span → s.view a = none
  outside : ∀ a, ¬ (base ≤ a ∧ a < base + span) → s'.view a = s.view a
  backed : s'.Backed base span n s.made fun _ => granted
  zero : s'.bytes s.made = fun _ => 0

section Allocation

variable {s s' m : Space page} {base span n : Nat} {granted : Bool}

theorem Same.refl (s : Space page) : s.Same s := ⟨rfl, rfl, .refl s⟩

theorem Vacant.view {a : Nat} (vacant : s.Vacant base n) (low : base ≤ a) (high : a < base + n) :
    s.view a = none := by
  have := vacant.free (a - base) (by omega)
  rwa [Nat.add_sub_cancel' low] at this

/-- Once a range where nothing was mapped is unmapped again, nothing has come of it. -/
theorem Same.of_munmap (files : m.files = s.files) (keeps : s.Keeps m)
    (vacant : ∀ a, base ≤ a → a < base + span → s.view a = none)
    (outside : ∀ a, ¬ (base ≤ a ∧ a < base + span) → m.view a = s.view a) :
    s.Same (m.munmap base span) where
  view := by
    funext a
    by_cases within : base ≤ a ∧ a < base + span
    · exact (if_pos within).trans (vacant a within.1 within.2).symm
    · exact (if_neg within).trans (outside a within)
  files := files
  keeps := keeps.congr rfl rfl rfl

/-- What was gained can be touched, and then be given back. -/
theorem Gains.munmap (gains : s.Gains m base span n granted) (touches : m.Touches s' base span) :
    s.Same (s'.munmap base span) := by
  apply Same.of_munmap (touches.files.trans gains.files) (gains.keeps.trans touches.keeps)
    gains.vacant
  intro a elsewhere
  exact (touches.outside a elsewhere).trans (gains.outside a elsewhere)

/-- What was gained can be touched, and all of it be granted. -/
theorem Gains.touch (gains : s.Gains m base span n granted) (touches : m.Touches s' base span)
    {granted' : Bool} (backed : s'.Backed base span n s.made fun _ => granted') :
    s.Gains s' base span n granted' :=
  { gains with
    files := touches.files.trans gains.files
    keeps := gains.keeps.trans touches.keeps
    outside := fun a elsewhere => (touches.outside a elsewhere).trans (gains.outside a elsewhere)
    backed := backed
    zero := touches.bytes ▸ gains.zero }

theorem mmapAnonymous_cases (answer : Option Nat) (n : Nat) (access : Bool) (s : Space page) :
    s.mmapAnonymous answer n access = (none, s) ∨
    ∃ base s', s.mmapAnonymous answer n access = (some base, s') ∧ s.Gains s' base n n access := by
  unfold mmapAnonymous
  cases answer with
  | none => exact .inl rfl
  | some base =>
      dsimp only
      split
      · rename_i vacant
        refine .inr ⟨base, _, rfl, ?_⟩
        constructor
        · rfl
        · exact ((Keeps.refl s).create n).congr rfl rfl rfl
        · exact vacant.nonnull
        · exact vacant.aligned
        · exact vacant.inside
        · exact fun a low high => vacant.view low high
        · intro a elsewhere
          exact if_neg elsewhere
        · refine ⟨vacant.pos, ?_, Function.update_self .., ?_⟩
          · intro i small
            rw [remap_view, if_pos (by omega), Nat.add_sub_cancel_left, Nat.mod_eq_of_lt small]
          · intro a cell shows its
            rw [remap_view] at shows
            split at shows
            · assumption
            · have old := s.shown a cell shows
              omega
        · exact Function.update_self ..
      · exact .inl rfl

/-- A descriptor that has just been made for a new object of `n` zero bytes. -/
structure Opens (s m : Space page) (fd n : Nat) : Prop where
  unused : s.files fd = none
  files : m.files = Function.update s.files fd (some s.made)
  view : m.view = s.view
  keeps : s.Keeps m
  made : s.made < m.made
  length : m.length s.made = n
  zero : m.bytes s.made = fun _ => 0

theorem memfdCreate_cases (answer : Option Nat) (s : Space page) :
    s.memfdCreate answer = (none, s) ∨
    ∃ fd m, s.memfdCreate answer = (some fd, m) ∧ s.Opens m fd 0 := by
  unfold memfdCreate
  cases answer with
  | none => exact .inl rfl
  | some fd =>
      dsimp only
      split
      · rename_i unused
        exact .inr ⟨fd, _, rfl, unused, rfl, rfl, ((Keeps.refl s).create 0).congr rfl rfl rfl,
          Nat.lt_succ_self _, Function.update_self .., Function.update_self ..⟩
      · exact .inl rfl

theorem Opens.file {fd : Nat} (opens : s.Opens m fd n) : m.files fd = some s.made := by
  rw [opens.files, Function.update_self]

/-- The descriptor of a new, empty object gives it its length, and no length below zero. -/
theorem Opens.ftruncate {fd : Nat} (opens : s.Opens m fd 0) (answer : Bool) (length : Int) :
    m.ftruncate answer fd length = (false, m) ∨
    ∃ m', m.ftruncate answer fd length = (true, m') ∧ 0 ≤ length ∧ s.Opens m' fd length.toNat := by
  unfold Space.ftruncate
  rw [opens.file]
  by_cases granted : (answer && decide (0 ≤ length)) = true
  · refine .inr ⟨_, if_pos granted, of_decide_eq_true (Bool.and_eq_true_iff.mp granted).2, ?_⟩
    refine ⟨opens.unused, opens.files, opens.view, opens.keeps.resize (Nat.le_refl _) _, opens.made,
      Function.update_self .., ?_⟩
    refine (Function.update_self ..).trans ?_
    funext i
    rw [opens.length, if_neg (by omega)]
  · exact .inl (if_neg granted)

/-- Closing a descriptor that was not in use gives back the descriptors there were. -/
theorem Opens.close {fd : Nat} (opens : s.Opens m fd n) (files : s'.files = m.files) :
    (s'.close fd).files = s.files := by
  change Function.update s'.files fd none = s.files
  rw [files, opens.files, Function.update_idem, ← opens.unused, Function.update_eq_self]

/-- What a fixed mapping does to the range it is given. -/
theorem mmapFixed_cases {fd object : Nat} (file : s.files fd = some object) (answer : Answer)
    (base n : Nat) :
    ∃ s', s.mmapFixed answer base n fd = (answer.isDone, s') ∧ s.Touches s' base n ∧
      (answer.isDone = true → ∀ i < n, s'.view (base + i) = some ⟨object, i, true⟩) := by
  unfold mmapFixed
  split
  · rename_i closed
    rw [file] at closed
    cases closed
  · rename_i object' file'
    obtain rfl : object = object' := Option.some_inj.mp (file.symm.trans file')
    cases answer with
    | done =>
        refine ⟨_, rfl, remap_touches .., ?_⟩
        intro _ i small
        rw [remap_view, if_pos (by omega), Nat.add_sub_cancel_left]
    | refused torn => exact ⟨_, rfl, remap_touches .., nofun⟩

/-- The same descriptor mapped in both halves of a range: the halves show the same bytes. -/
theorem mmapFixed_twice {fd object : Nat} (file : s.files fd = some object)
    (answer₁ answer₂ : Answer) (base n : Nat) :
    ∃ m s', s.mmapFixed answer₁ base n fd = (answer₁.isDone, m) ∧
      m.mmapFixed answer₂ (base + n) n fd = (answer₂.isDone, s') ∧
      s.Touches s' base (2 * n) ∧
      (answer₁.isDone = true → answer₂.isDone = true →
        ∀ i < 2 * n, s'.view (base + i) = some ⟨object, i % n, true⟩) := by
  obtain ⟨m, result₁, touches₁, shows₁⟩ := mmapFixed_cases file answer₁ base n
  obtain ⟨s', result₂, touches₂, shows₂⟩ :=
    mmapFixed_cases (touches₁.files ▸ file) answer₂ (base + n) n
  refine ⟨m, s', result₁, result₂, ?_, ?_⟩
  · exact (touches₁.within (Nat.le_refl _) (by omega)).trans
      (touches₂.within (Nat.le_add_right _ _) (by omega))
  · intro done₁ done₂ i small
    rcases Nat.lt_or_ge i n with first | second
    · rw [touches₂.outside _ (by omega), shows₁ done₁ i first, Nat.mod_eq_of_lt first]
    · obtain ⟨j, rfl⟩ := Nat.exists_eq_add_of_le second
      rw [← Nat.add_assoc, shows₂ done₂ j (by omega), Nat.add_mod_left, Nat.mod_eq_of_lt (by omega)]

/-- The descriptor is closed and the range given back. -/
theorem Opens.munmap {fd : Nat} {m₁ m₂ : Space page} {k : Nat} (opens : s.Opens m fd n)
    (gains : m.Gains m₁ base span k granted) (touches : m₁.Touches m₂ base span) :
    s.Same ((m₂.close fd).munmap base span) := by
  apply Same.of_munmap (opens.close (touches.files.trans gains.files))
    (((opens.keeps.trans gains.keeps).trans touches.keeps).congr rfl rfl rfl)
  · intro a low high
    exact opens.view ▸ gains.vacant a low high
  · intro a elsewhere
    rw [close_view, touches.outside a elsewhere, gains.outside a elsewhere, opens.view]

/-- A new object in both halves of a range that was vacant. -/
theorem Opens.ring {fd : Nat} {m₁ m₂ : Space page} (opens : s.Opens m fd n) (pos : 0 < n)
    (gains : m.Gains m₁ base (2 * n) (2 * n) granted) (touches : m₁.Touches m₂ base (2 * n))
    (shows : ∀ i < 2 * n, m₂.view (base + i) = some ⟨s.made, i % n, true⟩) :
    s.Gains (m₂.close fd) base (2 * n) n true where
  files := opens.close (touches.files.trans gains.files)
  keeps := ((opens.keeps.trans gains.keeps).trans touches.keeps).congr rfl rfl rfl
  nonnull := gains.nonnull
  aligned := gains.aligned
  inside := gains.inside
  vacant a low high := opens.view ▸ gains.vacant a low high
  outside a elsewhere := by
    rw [close_view, touches.outside a elsewhere, gains.outside a elsewhere, opens.view]
  backed := by
    refine ⟨pos, shows, ?_, ?_⟩
    · rw [close_length, touches.length, gains.keeps.length _ opens.made, opens.length]
    · intro a cell shown its
      by_contra elsewhere
      rw [close_view, touches.outside a elsewhere, gains.outside a elsewhere, opens.view] at shown
      have old := s.shown a cell shown
      omega
  zero := by
    rw [close_bytes, touches.bytes, gains.keeps.bytes _ opens.made, opens.zero]

end Allocation

end Space

end Fpag.Paging
