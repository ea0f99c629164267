import Fpag.Lib.Lifetime
import Fpag.Lib.Schedule

/-!
`base/soo_vec.h`: a vector that keeps up to `N` elements in itself and more of them in a block.

The inline storage and the pointer to the block share a union, and only the capacity tells which
of them it holds. The model has one memory for any number of vectors: the objects in the inline
storage of each and in each block. An operation fails where the behaviour of the code is undefined:
on an access outside of a buffer or to an object that is not there, on a construction over an
object, on the release of a block that is not allocated or has another capacity, and also when one
member of the union would overwrite what the other one holds. Every construction, destruction,
allocation and release is written down.

The element type is any type; a copy of a value is the value, and a value that was moved from is
what `movedFrom` says. The allocator always has another block.
-/

namespace Fpag.Base

open Lifetime

variable {T : Type}

/-- The class `SooVec<T, Idx, N>`, with an index type of so many bits. -/
structure SooVec (T : Type) : Type where
  N : Nat
  bits : Nat
  movedFrom : T → T

namespace SooVec

/-- What elements are constructed in: the inline storage of a vector, or a block. -/
inductive Buffer : Type
  | inline (v : Nat)
  | block (a : Nat)
  deriving DecidableEq, Repr

/-- The members of a vector; the pointer is null while it has none of its own. -/
structure Object : Type where
  size : Nat
  capacity : Nat
  dynamicData : Option Nat
  deriving DecidableEq, Repr

/-- The vectors, the objects in every buffer, and the blocks that are allocated, each with its
capacity. -/
structure Memory (T : Type) : Type where
  vecs : Nat → Option Object
  cells : Buffer → Nat → Option T
  blocks : Nat → Option Nat
  next : Nat

/-- The memory and what happened in it. -/
structure Machine (T : Type) : Type extends Memory T where
  lifetimes : List (Event (Buffer × Nat) Unit)
  allocations : List (Event Nat Nat)

def Machine.initial : Machine T := ⟨⟨fun _ => none, fun _ _ => none, fun _ => none, 0⟩, [], []⟩

/-- What is appended: a value from elsewhere, or an element of a vector that an argument names, to
copy or to move. -/
inductive Source (T : Type) : Type
  | value (x : T)
  | copyOf (u i : Nat)
  | moveOf (u i : Nat)

variable (c : SooVec T)

/-! ## Memory -/

/-- There is storage for an object, and the union does not hold a pointer in it. -/
def usable (m : Memory T) (k : Nat) : Buffer → Bool
  | .inline v => decide (k < max c.N 1) && (m.vecs v).any fun r => r.dynamicData.isNone
  | .block a => (m.blocks a).any fun n => decide (k < n)

def Memory.setVec (m : Memory T) (v : Nat) (r : Option Object) : Memory T :=
  { m with vecs := Function.update m.vecs v r }

def Memory.setCell (m : Memory T) (b : Buffer) (k : Nat) (x : Option T) : Memory T :=
  { m with cells := Function.update m.cells b (Function.update (m.cells b) k x) }

def Machine.setVec (m : Machine T) (v : Nat) (r : Object) : Machine T :=
  { m with toMemory := m.toMemory.setVec v (some r) }

def read (b : Buffer) (k : Nat) (m : Machine T) : Option T :=
  if c.usable m.toMemory k b then m.cells b k else none

/-- The construction of another object from a moved one, seen from the moved one. -/
def take (b : Buffer) (k : Nat) (m : Machine T) : Option (T × Machine T) :=
  (c.read b k m).map fun x =>
    (x, { m with toMemory := m.toMemory.setCell b k (some (c.movedFrom x)) })

/-- `std::construct_at`. -/
def constructAt (b : Buffer) (k : Nat) (x : T) (m : Machine T) : Option (Machine T) :=
  if c.usable m.toMemory k b ∧ (m.cells b k).isNone then
    some { m with
      toMemory := m.toMemory.setCell b k (some x)
      lifetimes := m.lifetimes ++ [.constructed (b, k) ()] }
  else none

/-- `std::destroy_at`. -/
def destroyAt (b : Buffer) (k : Nat) (m : Machine T) : Option (Machine T) :=
  if c.usable m.toMemory k b ∧ (m.cells b k).isSome then
    some { m with
      toMemory := m.toMemory.setCell b k none
      lifetimes := m.lifetimes ++ [.destroyed (b, k) ()] }
  else none

/-- `alloc_.allocate`. -/
def allocate (n : Nat) (m : Machine T) : Nat × Machine T :=
  (m.next, { m with
    blocks := Function.update m.blocks m.next (some n)
    next := m.next + 1
    allocations := m.allocations ++ [.constructed m.next n] })

/-- `alloc_.deallocate`. -/
def deallocate (p : Option Nat) (n : Nat) (m : Machine T) : Option (Machine T) :=
  match p with
  | none => none
  | some a =>
      if m.blocks a = some n then
        some { m with
          blocks := Function.update m.blocks a none
          allocations := m.allocations ++ [.destroyed a n] }
      else none

/-- The store to `dynamic_data_`, which the inline storage shares its bytes with. -/
def setDynamicData (v : Nat) (p : Option Nat) (m : Machine T) : Option (Machine T) :=
  (m.vecs v).bind fun r =>
    if ∀ k < max c.N 1, (m.cells (.inline v) k).isNone then
      some (m.setVec v { r with dynamicData := p })
    else none

/-! ## The vector -/

def isDynamic (r : Object) : Bool := decide (c.N < r.capacity)

/-- `data()`. -/
def data (v : Nat) (r : Object) : Option Buffer :=
  if c.isDynamic r then r.dynamicData.map .block else some (.inline v)

/-- The loop that moves so many elements from one buffer to another one. -/
def relocate (source target : Buffer) : Nat → Nat → Machine T → Option (Machine T)
  | 0, _, m => some m
  | n + 1, i, m =>
      (c.take source i m).bind fun r =>
        (c.constructAt target i r.1 r.2).bind fun m =>
          (c.destroyAt source i m).bind fun m => relocate source target n (i + 1) m

/-- The loop that destroys so many elements. -/
def destroyAll (b : Buffer) : Nat → Nat → Machine T → Option (Machine T)
  | 0, _, m => some m
  | n + 1, i, m => (c.destroyAt b i m).bind fun m => destroyAll b n (i + 1) m

def reserve (v newCapacity : Nat) (m : Machine T) : Option (Machine T) := do
  let r ← m.vecs v
  if newCapacity ≤ r.capacity then
    some m
  else
    let (newDynamic, m) := allocate newCapacity m
    let currentData ← c.data v r
    let m ← c.relocate currentData (.block newDynamic) r.size 0 m
    let m ← if c.isDynamic r then deallocate r.dynamicData r.capacity m else some m
    let m ← c.setDynamicData v (some newDynamic) m
    let r ← m.vecs v
    some (m.setVec v { r with capacity := newCapacity })

/-- `operator[]` with an offset, which names an element. -/
def element (u i : Nat) (m : Machine T) : Option Buffer := do
  let r ← m.vecs u
  if i < r.size then c.data u r else none

/-- The value that an argument gives, when it is forwarded to a constructor. -/
def argument (source : Source T) (m : Machine T) : Option (T × Machine T) :=
  match source with
  | .value x => some (x, m)
  | .copyOf u i => do
      let b ← c.element u i m
      let x ← c.read b i m
      some (x, m)
  | .moveOf u i => do
      let b ← c.element u i m
      c.take b i m

/-- `std::construct_at(data() + size_, value)`. -/
def constructBack (v : Nat) (x : T) (m : Machine T) : Option (Machine T) := do
  let r ← m.vecs v
  let b ← c.data v r
  c.constructAt b r.size x m

/-- `Idx(static_cast<IdxType>(i))`, by the number in it. -/
def toIdx (i : Nat) : Nat := i % 2 ^ c.bits

/-- `emplace_back` and both of `push_back`. -/
def emplaceBack (v : Nat) (source : Source T) (m : Machine T) : Option (Nat × Machine T) := do
  let r ← m.vecs v
  -- the value is built before the elements move, for it may be one of them
  let (value, m) ← c.argument source m
  let m ←
    if r.size = r.capacity then c.reserve v (if r.capacity = 0 then 1 else r.capacity * 2) m
    else some m
  let m ← c.constructBack v value m
  let r ← m.vecs v
  some (c.toIdx r.size, m.setVec v { r with size := r.size + 1 })

def popBack (v : Nat) (m : Machine T) : Option (Machine T) := do
  let r ← m.vecs v
  if 0 < r.size then
    let b ← c.data v r
    c.destroyAt b (r.size - 1) (m.setVec v { r with size := r.size - 1 })
  else none

def clear (v : Nat) (m : Machine T) : Option (Machine T) := do
  let r ← m.vecs v
  let currentData ← c.data v r
  let m ← c.destroyAll currentData r.size 0 m
  let m ←
    if c.isDynamic r then do
      let m ← deallocate r.dynamicData r.capacity m
      c.setDynamicData v none m
    else some m
  let r ← m.vecs v
  some (m.setVec v { r with size := 0, capacity := c.N })

/-- `SooVec()`. -/
def construct (v : Nat) (m : Machine T) : Option (Machine T) :=
  if (m.vecs v).isNone then some (m.setVec v ⟨0, c.N, none⟩) else none

/-- The loop of the constructor from an initializer list. -/
def appendAll (v : Nat) : List T → Machine T → Option (Machine T)
  | [], m => some m
  | x :: xs, m => (c.emplaceBack v (.value x) m).bind fun r => appendAll v xs r.2

/-- The loop of the copies, for so many elements from `i` on. -/
def copyLoop (v other : Nat) : Nat → Nat → Machine T → Option (Machine T)
  | 0, _, m => some m
  | n + 1, i, m =>
      (c.emplaceBack v (.copyOf other (c.toIdx i)) m).bind fun r =>
        copyLoop v other n (i + 1) r.2

/-- What the copy constructor and the copy assignment share. -/
def copyFrom (v other : Nat) (m : Machine T) : Option (Machine T) := do
  let r ← m.vecs other
  let m ← c.reserve v r.size m
  c.copyLoop v other r.size 0 m

def moveFrom (v other : Nat) (m : Machine T) : Option (Machine T) := do
  let r ← m.vecs v
  let o ← m.vecs other
  let m := m.setVec v { r with size := o.size, capacity := o.capacity }
  let m ←
    if c.isDynamic o then do
      let m ← c.setDynamicData v o.dynamicData m
      c.setDynamicData other none m
    else c.relocate (.inline other) (.inline v) o.size 0 m
  let o ← m.vecs other
  some (m.setVec other { o with size := 0, capacity := c.N })

/-- `~SooVec()`. -/
def destroy (v : Nat) (m : Machine T) : Option (Machine T) := do
  let m ← c.clear v m
  some { m with toMemory := m.toMemory.setVec v none }

/-! ## Programs -/

/-- What a program does with vectors. -/
inductive Op (T : Type) : Type
  | construct (v : Nat)
  | fromList (v : Nat) (init : List T)
  | reserve (v newCapacity : Nat)
  | emplaceBack (v : Nat) (source : Source T)
  | popBack (v : Nat)
  | clear (v : Nat)
  | copyConstruct (v other : Nat)
  | moveConstruct (v other : Nat)
  | copyAssign (v other : Nat)
  | moveAssign (v other : Nat)
  | destroy (v : Nat)

/-- One operation. -/
def step (op : Op T) (m : Machine T) : Option (Machine T) :=
  match op with
  | .construct v => c.construct v m
  | .fromList v init => do
      let m ← c.construct v m
      let m ← c.reserve v init.length m
      c.appendAll v init m
  | .reserve v newCapacity => c.reserve v newCapacity m
  | .emplaceBack v source => (c.emplaceBack v source m).map (·.2)
  | .popBack v => c.popBack v m
  | .clear v => c.clear v m
  | .copyConstruct v other => do
      let m ← c.construct v m
      c.copyFrom v other m
  | .moveConstruct v other => do
      let m ← c.construct v m
      c.moveFrom v other m
  | .copyAssign v other =>
      if v = other then (m.vecs v).map fun _ => m
      else do
        let m ← c.clear v m
        c.copyFrom v other m
  | .moveAssign v other =>
      if v = other then (m.vecs v).map fun _ => m
      else do
        let m ← c.clear v m
        c.moveFrom v other m
  | .destroy v => c.destroy v m

def run (ops : List (Op T)) : Option (Machine T) := Schedule.run c.step Machine.initial ops

/-- The elements of a vector, from the first to the last. -/
def elements (v : Nat) (m : Machine T) : Option (List T) := do
  let r ← m.vecs v
  let b ← c.data v r
  (List.range r.size).mapM fun k => c.read b k m

end SooVec

end Fpag.Base
