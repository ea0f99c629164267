import Mathlib.Data.List.Basic

/-!
Buffers that grow.

A buffer keeps its elements in a block of memory. When they outgrow it they move to a new block,
and what pointed into the old one dangles. The blocks of a buffer are numbered, so that a place in
it is the number of a block and an offset there. `Extends` says that a buffer has gained elements
in the block that it had: places keep what they held (`Holds.extends`).
-/

namespace Fpag

/-- How large a new block is, for a buffer of some capacity that needs some room. -/
structure GrowthPolicy : Type where
  room : Nat → Nat → Nat
  le_room : ∀ capacity needed, needed ≤ room capacity needed

structure GrowingBuffer (α : Type) : Type where
  block : Nat
  elements : List α
  capacity : Nat
  fits : elements.length ≤ capacity

/-- An element of a block, by its offset. -/
structure Place : Type where
  block : Nat
  offset : Nat

namespace GrowingBuffer

variable {α : Type}

/-- The elements are dropped; the block stays. -/
def clear (b : GrowingBuffer α) : GrowingBuffer α :=
  { b with elements := [], fits := Nat.zero_le _ }

/-- Room for `needed` elements: a block that has less is left for a new one. -/
def reserve (policy : GrowthPolicy) (needed : Nat) (b : GrowingBuffer α) : GrowingBuffer α :=
  if h : needed ≤ b.capacity then b
  else
    { block := b.block + 1
      elements := b.elements
      capacity := policy.room b.capacity needed
      fits := Nat.le_trans b.fits (Nat.le_trans (Nat.le_of_not_le h) (policy.le_room _ _)) }

theorem le_capacity_reserve (policy : GrowthPolicy) (needed : Nat) (b : GrowingBuffer α) :
    needed ≤ (b.reserve policy needed).capacity := by
  rw [reserve]
  split
  · next enough => exact enough
  · exact policy.le_room _ _

theorem elements_reserve (policy : GrowthPolicy) (needed : Nat) (b : GrowingBuffer α) :
    (b.reserve policy needed).elements = b.elements := by
  rw [reserve]
  split <;> rfl

/-- Elements are added at the end. -/
def append (policy : GrowthPolicy) (xs : List α) (b : GrowingBuffer α) : GrowingBuffer α :=
  { b.reserve policy (b.elements.length + xs.length) with
    elements := b.elements ++ xs
    fits := by
      rw [List.length_append]
      exact b.le_capacity_reserve policy _ }

/-! ## Growing within the capacity -/

/-- The buffer has gained elements in the block that it had. -/
structure Extends (b b' : GrowingBuffer α) (more : List α) : Prop where
  block : b'.block = b.block
  capacity : b'.capacity = b.capacity
  elements : b'.elements = b.elements ++ more

variable {b b' b'' : GrowingBuffer α} {more more' : List α}

theorem Extends.refl (b : GrowingBuffer α) : Extends b b [] :=
  ⟨rfl, rfl, (List.append_nil _).symm⟩

theorem Extends.trans (first : Extends b b' more) (second : Extends b' b'' more') :
    Extends b b'' (more ++ more') where
  block := second.block.trans first.block
  capacity := second.capacity.trans first.capacity
  elements := by rw [second.elements, first.elements, List.append_assoc]

/-- Elements for which there is room stay in the block. -/
theorem append_extends (policy : GrowthPolicy) {xs : List α}
    (room : b.elements.length + xs.length ≤ b.capacity) : Extends b (b.append policy xs) xs := by
  have stays : b.reserve policy (b.elements.length + xs.length) = b := by
    rw [reserve, dif_pos room]
  have sameBlock : (b.reserve policy (b.elements.length + xs.length)).block = b.block := by
    rw [stays]
  have sameCapacity : (b.reserve policy (b.elements.length + xs.length)).capacity =
      b.capacity := by
    rw [stays]
  exact ⟨sameBlock, sameCapacity, rfl⟩

/-! ## Places -/

/-- The place is one of the buffer's block, and `xs` stands there. -/
def Holds (b : GrowingBuffer α) (place : Place) (xs : List α) : Prop :=
  place.block = b.block ∧ xs <+: b.elements.drop place.offset

/-- Places keep what they hold. -/
theorem Holds.extends {place : Place} {xs : List α} (holds : b.Holds place xs)
    (grown : Extends b b' more) : b'.Holds place xs := by
  refine ⟨holds.1.trans grown.block.symm, holds.2.trans ?_⟩
  rw [grown.elements]
  rcases Nat.le_total place.offset b.elements.length with inside | outside
  · rw [List.drop_append_of_le_length inside]
    exact List.prefix_append _ _
  · rw [List.drop_eq_nil_of_le outside]
    exact List.nil_prefix

/-- What has been added stands where the end was. -/
theorem Extends.holds (grown : Extends b b' more) :
    b'.Holds ⟨b'.block, b.elements.length⟩ more := by
  have there : b'.elements.drop b.elements.length = more := by
    rw [grown.elements, List.drop_left]
  exact ⟨rfl, [], (List.append_nil more).trans there.symm⟩

end GrowingBuffer

end Fpag
