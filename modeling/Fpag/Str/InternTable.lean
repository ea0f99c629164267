import Fpag.Str.PoolSafety

/-!
`str::InternTable`: the table, its probe, and the steps of the threads that intern and
look up names in it.

A slot is a control byte and the id beside it. A thread in `lookup` loads one control
byte a step; what it then reads of a published slot no longer changes, so it belongs to
the same step. The claim of a free slot, the steps of `StringPool::append`, the store of
the entry, the publishing store and the count are steps of their own. `occupants` records
for which name a slot was claimed, `appended` for which names `append` was called, and
`interned` and `lookups` what the calls returned.
-/

namespace Fpag.Str

variable {ι : Type}

/-! ## Control bytes and names -/

/-- `EMPTY_CONTROL`. -/
def emptyControl : UInt8 := 0x00

/-- `CLAIMED_CONTROL`. -/
def claimedControl : UInt8 := 0x7F

/-- `PUBLISHED_BIT`. -/
def publishedBit : UInt8 := 0x80

/-- `InternTable::published`: the control byte of a published name with this hash. -/
def published (hash : BitVec 64) : UInt8 :=
  UInt8.ofNat ((hash >>> 56) &&& 0x7F).toNat ||| publishedBit

/-- `InternTable::word_at`. -/
def wordAt (text : Nat → UInt8) (at_ : Nat) : Nat := ofBytes (readBytes text at_ 8)

/-- `InternTable::same_name`: whole words first, then an overlapping word for the rest, or
single bytes when the name is shorter than a word. -/
def sameName (lhs rhs : Nat → UInt8) (length : Nat) : Bool :=
  if (List.range (length / 8)).all fun word => wordAt lhs (8 * word) == wordAt rhs (8 * word) then
    if 8 * (length / 8) == length then true
    else if 8 ≤ length then wordAt lhs (length - 8) == wordAt rhs (length - 8)
    else (List.range length).all fun at_ => lhs at_ == rhs at_
  else false

/-- The bytes of a string view, from its first one on. -/
def textOf (content : List UInt8) : Nat → UInt8 := fun i => content.getD i 0

/-! ## The table -/

/-- Why a thread walks: to intern, or to find. A `find` remembers which interns had returned
when it began. -/
inductive Purpose : Type
  | intern
  | find (known : List Receipt)
  deriving DecidableEq

/-- Where a thread is in `try_intern` or `find`. -/
inductive Walker : Type
  | idle
  | walking (purpose : Purpose) (content : List UInt8) (index step : BitVec 32) (claimed : Bool)
  | claiming (content : List UInt8) (index : BitVec 32)
  | calling (content : List UInt8) (index : BitVec 32)
  | appending (content : List UInt8) (index : BitVec 32)
  | entering (content : List UInt8) (index : BitVec 32) (id : StringPoolId)
  | publishing (content : List UInt8) (index : BitVec 32) (id : StringPoolId)
  | counting (content : List UInt8) (id : StringPoolId)
  deriving DecidableEq

/-- A `find` that returned. -/
structure Lookup : Type where
  content : List UInt8
  known : List Receipt
  result : Option StringPoolId
  deriving DecidableEq

structure InternTable (ι : Type) : Type where
  pool : StringPool ι
  control : Nat → UInt8
  entries : Nat → StringPoolId
  count : BitVec 64
  walkers : ι → Walker
  occupants : Nat → Option (List UInt8)
  appended : List (List UInt8)
  interned : List Receipt
  lookups : List Lookup

/-- What a thread does: it calls `try_intern` or `find`, or goes on with the call it is in. -/
inductive TableAction : Type
  | intern (content : StringView)
  | find (content : StringView)
  | go (ok : Bool)

structure TableEvent (ι : Type) : Type where
  thread : ι
  action : TableAction

/-- What a walk saw in one slot. -/
inductive Seen : Type
  | name (id : StringPoolId)
  | free
  | claimed
  | other
  deriving DecidableEq

namespace InternTable

/-- The hash of the table and the binary logarithm of its slot count. -/
structure Shape : Type where
  hash : List UInt8 → BitVec 64
  bits : Nat
  bits_lt : bits < 32

namespace Shape

/-- `static_cast<u32>(slots_ - 1)`. -/
def mask (shape : Shape) : BitVec 32 := BitVec.ofNat 32 (2 ^ shape.bits - 1)

/-- The first slot of the probe sequence of a name. -/
def home (shape : Shape) (content : List UInt8) : BitVec 32 :=
  (shape.hash content).setWidth 32 &&& shape.mask

/-- The slot after `index`. -/
def next (shape : Shape) (index : BitVec 32) : BitVec 32 := (index + 1) &&& shape.mask

end Shape

variable (shape : Shape)

/-- One turn of the loop of `InternTable::lookup`, up to the decision what to do next. -/
def look (s : InternTable ι) (content : List UInt8) (index : BitVec 32) : Seen :=
  let state := s.control index.toNat
  if state = published (shape.hash content) then
    let id := s.entries index.toNat
    if (s.pool.lengthAt id.offset.toNat).toNat == content.length &&
        sameName (fun i => s.pool.memory (id.offset.toNat + i)) (textOf content) content.length then
      .name id
    else .other
  else if state = emptyControl then .free
  else if state = claimedControl then .claimed
  else .other

variable [DecidableEq ι]

def setWalker (s : InternTable ι) (t : ι) (state : Walker) : InternTable ι :=
  { s with walkers := Function.update s.walkers t state }

/-- `try_intern` returns an id. -/
def returnId (s : InternTable ι) (t : ι) (content : List UInt8) (id : StringPoolId) :
    InternTable ι :=
  { s with interned := ⟨content, id⟩ :: s.interned }.setWalker t .idle

/-- `find` returns. -/
def returnLookup (s : InternTable ι) (t : ι) (content : List UInt8) (known : List Receipt)
    (result : Option StringPoolId) : InternTable ι :=
  { s with lookups := ⟨content, known, result⟩ :: s.lookups }.setWalker t .idle

/-- The start of a walk. -/
def walk (s : InternTable ι) (t : ι) (purpose : Purpose) (content : List UInt8) : InternTable ι :=
  s.setWalker t (.walking purpose content (shape.home content) 0 false)

/-- The walk goes on behind a slot that was not its answer, or has covered every slot. -/
def pass (s : InternTable ι) (t : ι) (purpose : Purpose) (content : List UInt8)
    (index step : BitVec 32) (claimed : Bool) : InternTable ι :=
  if step + 1 ≤ shape.mask then
    s.setWalker t (.walking purpose content (shape.next index) (step + 1) claimed)
  else
    match purpose with
    | .intern => s.setWalker t .idle
    | .find known => s.returnLookup t content known none

/-- One control byte is loaded, and the walk decides. -/
def probe (s : InternTable ι) (t : ι) (purpose : Purpose) (content : List UInt8)
    (index step : BitVec 32) (claimed : Bool) : InternTable ι :=
  match s.look shape content index with
  | .name id =>
      match purpose with
      | .intern => s.returnId t content id
      | .find known => s.returnLookup t content known (some id)
  | .free =>
      match purpose with
      | .intern =>
          -- A slot claimed on the way may hold the name: `probe.blocked`, and the walk restarts.
          if claimed then s.walk shape t .intern content
          else s.setWalker t (.claiming content index)
      | .find known => s.returnLookup t content known none
  | .claimed => s.pass shape t purpose content index step true
  | .other => s.pass shape t purpose content index step claimed

/-- The pool made a step for the thread; its append may have returned with it. -/
def settle (s : InternTable ι) (t : ι) (content : List UInt8) (index : BitVec 32)
    (pool : StringPool ι) : Option (InternTable ι) :=
  if pool.appenders t = .idle then
    match pool.returned with
    | [] => none
    | receipt :: _ =>
        some ({ s with pool := pool }.setWalker t (.entering content index receipt.id))
  else some ({ s with pool := pool }.setWalker t (.appending content index))

/-- One step of a thread inside a call. -/
def advance (s : InternTable ι) (t : ι) (ok : Bool) : Option (InternTable ι) :=
  match s.walkers t with
  | .idle => none
  | .walking purpose content index step claimed =>
      some (s.probe shape t purpose content index step claimed)
  | .claiming content index =>
      -- `InternTable::claim`.
      if s.control index.toNat = emptyControl then
        some ({ s with
          control := Function.update s.control index.toNat claimedControl
          occupants := Function.update s.occupants index.toNat (some content) }.setWalker t
            (.calling content index))
      else some (s.walk shape t .intern content)
  | .calling content index =>
      match s.pool.start t content with
      | none => none
      | some pool => { s with appended := content :: s.appended }.settle t content index pool
  | .appending content index =>
      match s.pool.advance t ok with
      | none => none
      | some pool => s.settle t content index pool
  | .entering content index id =>
      some ({ s with entries := Function.update s.entries index.toNat id }.setWalker t
        (.publishing content index id))
  | .publishing content index id =>
      some ({ s with
        control :=
          Function.update s.control index.toNat (published (shape.hash content)) }.setWalker
          t (.counting content id))
  | .counting content id => some ({ s with count := s.count + 1 }.returnId t content id)

def step (e : TableEvent ι) (s : InternTable ι) : Option (InternTable ι) :=
  match e.action with
  | .intern content =>
      if s.walkers e.thread = .idle then some (s.walk shape e.thread .intern content.bytes)
      else none
  | .find content =>
      if s.walkers e.thread = .idle then
        some (s.walk shape e.thread (.find s.interned) content.bytes)
      else none
  | .go ok => s.advance shape e.thread ok

/-- The table over a pool, on a mapping that reads as zero. -/
def initial (pool : StringPool ι) : InternTable ι where
  pool := pool
  control := fun _ => emptyControl
  entries := fun _ => ⟨0⟩
  count := 0
  walkers := fun _ => .idle
  occupants := fun _ => none
  appended := []
  interned := []
  lookups := []

end InternTable

end Fpag.Str
