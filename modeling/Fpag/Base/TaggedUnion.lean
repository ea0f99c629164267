import Fpag.Lib.Lifetime
import Fpag.Lib.Schedule

/-!
`base/tagged_union.h`: a union of a list of alternatives that says with a tag which of them it
holds.

The model has the type traits that the code asks and the lifetimes that follow from them: which
objects are constructed in the storage of a union and which are destroyed there. The values of the
objects decide nothing and are left out, as are the accessors. A type is known by a name, so that
two entries of the list are one type when `std::is_same` says so.

The tag is stored in the underlying type of its enumeration. The generated enumeration of
`AutoTaggedUnion` is wide enough for its list; that of an explicit one is what its author chose.
-/

namespace Fpag.Base

open Lifetime

/-! ## Alternatives -/

/-- What the type traits say of a type. -/
structure Traits : Type where
  isEmpty : Bool
  isTriviallyDestructible : Bool
  isCopyConstructible : Bool
  isMoveConstructible : Bool
  deriving DecidableEq, Repr

inductive Alternative : Type
  | void
  | object (name : Nat) (traits : Traits)
  deriving DecidableEq, Repr

namespace Alternative

def isVoid : Alternative → Bool
  | void => true
  | object _ _ => false

/-- `std::is_empty_v`. -/
def isEmpty : Alternative → Bool
  | void => false
  | object _ traits => traits.isEmpty

/-- `std::is_trivially_destructible_v`. -/
def isTriviallyDestructible : Alternative → Bool
  | void => false
  | object _ traits => traits.isTriviallyDestructible

/-- `internal::SafeIsCopyConstructible_v`. -/
def isCopyConstructible : Alternative → Bool
  | void => true
  | object _ traits => traits.isCopyConstructible

/-- `internal::SafeIsMoveConstructible_v`. -/
def isMoveConstructible : Alternative → Bool
  | void => true
  | object _ traits => traits.isMoveConstructible

end Alternative

/-- `internal::TypeIndex::value`: every match overwrites the one before it. -/
def typeIndex (target : Alternative) (ts : List Alternative) : Nat :=
  ts.zipIdx.foldl (fun result t => if target = t.1 then t.2 else result) ts.length

/-! ## Tags -/

/-- The underlying type of the enumeration of the tags. -/
inductive Underlying : Type
  | bool
  | unsigned (bits : Nat)
  | signed (bits : Nat)
  deriving DecidableEq, Repr

/-- `static_cast<usize>(static_cast<TagStorageType>(index))`. -/
def Underlying.store (index : Nat) : Underlying → Nat
  | bool => if index = 0 then 0 else 1
  | unsigned bits => index % 2 ^ bits
  | signed bits =>
      let stored := index % 2 ^ bits
      if stored < 2 ^ (bits - 1) then stored else 2 ^ 64 - 2 ^ bits + stored

/-- `internal::TagTypeImpl`, the narrowest unsigned type that counts so many. -/
def tagType (count : Nat) : Underlying :=
  if count ≤ 255 then .unsigned 8
  else if count ≤ 65535 then .unsigned 16
  else if count ≤ 4294967295 then .unsigned 32
  else .unsigned 64

/-! ## Unions -/

/-- The class `TaggedUnion<TagEnum, Ts...>`. -/
structure TaggedUnion : Type where
  tagEnum : Underlying
  ts : List Alternative
  deriving DecidableEq, Repr

/-- `AutoTaggedUnion<Ts...>`. -/
def autoTaggedUnion (ts : List Alternative) : TaggedUnion := ⟨tagType ts.length, ts⟩

namespace TaggedUnion

/-- The unions of the class that were constructed so far, each with its `tag_` until it is
destroyed, and what happened to objects in their storage. -/
structure State : Type where
  tags : List (Option Nat)
  events : List (Event Nat Alternative)
  deriving DecidableEq, Repr

def State.initial : State := ⟨[], []⟩

/-- What a program does with unions of the class. A union is known by its place in the order of
construction. -/
inductive Op : Type
  | default
  | value (t : Alternative)
  | copy (other : Nat)
  | move (other : Nat)
  | copyAssign (u other : Nat)
  | moveAssign (u other : Nat)
  | destroy (u : Nat)
  deriving DecidableEq, Repr

variable (U : TaggedUnion)

/-- The `tag_` of a union that holds the alternative. -/
def tagOf (t : Alternative) : Nat := U.tagEnum.store (typeIndex t U.ts)

/-- The body of the constructor from a value. -/
def constructValue (u : Nat) (t : Alternative) : List (Event Nat Alternative) :=
  if !t.isEmpty then [.constructed u t] else []

def destroyAtIndex (u : Nat) (t : Alternative) : List (Event Nat Alternative) :=
  if !t.isVoid && !t.isTriviallyDestructible then [.destroyed u t] else []

def moveAtIndex (u : Nat) (t : Alternative) : List (Event Nat Alternative) :=
  if !t.isVoid && !t.isEmpty then [.constructed u t] else []

def copyAtIndex (u : Nat) (t : Alternative) : List (Event Nat Alternative) :=
  if !t.isVoid && !t.isEmpty then [.constructed u t] else []

/-- The dispatch on the tag that the three helpers share. -/
def atCurrentTag (atIndex : Alternative → List (Event Nat Alternative)) (tag : Nat) :
    List (Event Nat Alternative) :=
  match U.ts[tag]? with
  | some t => atIndex t
  | none => []

def destroyCurrent (u tag : Nat) : List (Event Nat Alternative) :=
  U.atCurrentTag (destroyAtIndex u) tag

def moveConstructFrom (u tag : Nat) : List (Event Nat Alternative) :=
  U.atCurrentTag (moveAtIndex u) tag

def copyConstructFrom (u tag : Nat) : List (Event Nat Alternative) :=
  U.atCurrentTag (copyAtIndex u) tag

/-- The `tag_` of a union that is alive. -/
def State.tag (s : State) (u : Nat) : Option Nat := (s.tags[u]?).join

/-- A constructor: the tag, and the events of its body. -/
def State.construct (s : State) (tag : Nat) (body : Nat → List (Event Nat Alternative)) : State :=
  ⟨s.tags ++ [some tag], s.events ++ body s.tags.length⟩

/-- An operation on a union that is there: its tag and its events. -/
def State.change (s : State) (u : Nat) (tag : Option Nat) (events : List (Event Nat Alternative)) :
    State :=
  ⟨s.tags.set u tag, s.events ++ events⟩

/-- An assignment, copy or move, by what it does after the old alternative is destroyed. -/
def assign (s : State) (u other : Nat) (constructFrom : Nat → Nat → List (Event Nat Alternative)) :
    Option State :=
  match s.tag u, s.tag other with
  | some tag, some tag' =>
      if u = other then some s
      else some (s.change u (some tag') (U.destroyCurrent u tag ++ constructFrom u tag'))
  | _, _ => none

/-- One operation. It cannot happen if a union that it names is not there, or if the class deletes
it. -/
def step (op : Op) (s : State) : Option State :=
  match op with
  | .default =>
      if .void ∈ U.ts then some (s.construct (U.tagOf .void) fun _ => []) else none
  | .value t =>
      if t.isVoid = false ∧ t ∈ U.ts then
        some (s.construct (U.tagOf t) fun u => constructValue u t)
      else none
  | .copy other =>
      if U.ts.all Alternative.isCopyConstructible then
        (s.tag other).map fun tag => s.construct tag fun u => U.copyConstructFrom u tag
      else none
  | .move other =>
      if U.ts.all Alternative.isMoveConstructible then
        (s.tag other).map fun tag => s.construct tag fun u => U.moveConstructFrom u tag
      else none
  | .copyAssign u other =>
      if U.ts.all Alternative.isCopyConstructible then U.assign s u other U.copyConstructFrom
      else none
  | .moveAssign u other =>
      if U.ts.all Alternative.isMoveConstructible then U.assign s u other U.moveConstructFrom
      else none
  | .destroy u =>
      (s.tag u).map fun tag => s.change u none (U.destroyCurrent u tag)

/-- A program with unions of the class. -/
def run (ops : List Op) : Option State := Schedule.run U.step State.initial ops

end TaggedUnion

end Fpag.Base
