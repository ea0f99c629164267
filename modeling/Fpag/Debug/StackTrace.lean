import Mathlib.Data.List.TakeWhile
import Mathlib.Tactic.Ring
import Fpag.Lib.GrowingBuffer

/-!
`StackTrace::collect_trace`.

The names of a trace are kept in one buffer, and the frames have pointers into it. The buffer is
given room for all names before the first of them is put there. `collectTrace_reads_back` says that
the room is enough: no name makes the buffer move, so every pointer of every frame is still good at
the end.

What the platform does is a parameter: the addresses that it captures, and the symbols that they are
resolved to. Where memory cannot be allocated the process ends.
-/

namespace Fpag.Debug

/-! ## Symbols and frames -/

/-- `SymbolInfo`, without what `collect_trace` does not use. -/
structure SymbolInfo : Type where
  function : List UInt8
  file : List UInt8
  line : BitVec 32
  column : BitVec 32

/-- What the two strings of a symbol take in memory, each with its terminator. -/
def SymbolInfo.bytes (info : SymbolInfo) : Nat := info.function.length + 1 + (info.file.length + 1)

/-- A `const char*`: to the literal `""`, or into the buffer of the names. -/
inductive CharPointer : Type
  | literal
  | buffer (place : Place)

/-- The location of a frame. -/
structure FrameLocation : Type where
  file : CharPointer := .literal
  function : CharPointer := .literal
  line : BitVec 32 := 0
  column : BitVec 32 := 0

/-- `StackTraceFrame`. -/
structure StackTraceFrame : Type where
  address : BitVec 64
  index : Nat
  location : FrameLocation

inductive StackTraceStatus : Type
  | uninitialized
  | initialized
  | collected
  | failed

/-- `StackTrace`, after `init`: the buffer of frames that it was given has as many as `init` was
told. -/
structure StackTrace : Type where
  frames : List StackTraceFrame
  depth : Nat
  room : frames.length = depth
  count : Nat := 0
  stringBuffer : GrowingBuffer UInt8
  status : StackTraceStatus

/-- What `capture_stack_addresses` gives and `Symbolicator::resolve` makes of it. The capture stops
at the depth. The symbols are all in memory at once. -/
structure Capture (depth : Nat) : Type where
  rawAddrs : List (BitVec 64)
  few : rawAddrs.length ≤ depth
  resolve : BitVec 64 → SymbolInfo
  inMemory : ((rawAddrs.map resolve).map SymbolInfo.bytes).sum < 2 ^ 64

/-- `infos`. -/
def Capture.infos {depth : Nat} (capture : Capture depth) : List SymbolInfo :=
  capture.rawAddrs.map capture.resolve

/-! ## Collecting -/

/-- `needed`, on the words that it is added up on. -/
def neededBytes (infos : List SymbolInfo) : BitVec 64 :=
  infos.foldl (fun needed info => needed + (BitVec.ofNat 64 info.function.length +
    BitVec.ofNat 64 info.file.length + 2)) 0

/-- `StackTrace::intern_string`. -/
def internString (policy : GrowthPolicy) (str : List UInt8) (buffer : GrowingBuffer UInt8) :
    CharPointer × GrowingBuffer UInt8 :=
  if str = [] then (.literal, buffer)
  else
    let offset := buffer.elements.length
    let buffer := (buffer.append policy str).append policy [0]
    (.buffer ⟨buffer.block, offset⟩, buffer)

/-- One turn of the loop that fills the frames. -/
def fillFrame (policy : GrowthPolicy) (i : Nat) (address : BitVec 64) (info : SymbolInfo)
    (s : List StackTraceFrame × GrowingBuffer UInt8) :
    List StackTraceFrame × GrowingBuffer UInt8 :=
  let (function, buffer) := internString policy info.function s.2
  let (file, buffer) := internString policy info.file buffer
  (s.1.set i ⟨address, i, ⟨file, function, info.line, info.column⟩⟩, buffer)

/-- The loop, from the frame with index `i` on. -/
def fillFrames (policy : GrowthPolicy) (resolve : BitVec 64 → SymbolInfo) :
    Nat → List (BitVec 64) → List StackTraceFrame × GrowingBuffer UInt8 →
      List StackTraceFrame × GrowingBuffer UInt8
  | _, [], s => s
  | i, address :: rest, s =>
      fillFrames policy resolve (i + 1) rest (fillFrame policy i address (resolve address) s)

/-- The buffer when the first name is put there. -/
def reservedBuffer (policy : GrowthPolicy) (infos : List SymbolInfo)
    (buffer : GrowingBuffer UInt8) : GrowingBuffer UInt8 :=
  buffer.clear.reserve policy (neededBytes infos).toNat

theorem length_fillFrames (policy : GrowthPolicy) (resolve : BitVec 64 → SymbolInfo) (i : Nat)
    (addresses : List (BitVec 64)) (s : List StackTraceFrame × GrowingBuffer UInt8) :
    (fillFrames policy resolve i addresses s).1.length = s.1.length := by
  induction addresses generalizing i s with
  | nil => rfl
  | cons address rest ih =>
      rw [fillFrames, ih]
      exact List.length_set

/-- `StackTrace::collect_trace`. -/
def StackTrace.collectTrace (policy : GrowthPolicy) (s : StackTrace) (capture : Capture s.depth) :
    StackTrace :=
  if capture.rawAddrs = [] then { s with count := 0, status := .failed }
  else
    let filled := fillFrames policy capture.resolve 0 capture.rawAddrs
      (s.frames, reservedBuffer policy capture.infos s.stringBuffer)
    { frames := filled.1
      depth := s.depth
      room := (length_fillFrames ..).trans s.room
      count := capture.rawAddrs.length
      stringBuffer := filled.2
      status := .collected }

/-! ## Reading -/

/-- The bytes up to the terminating `NUL`, if there is one. -/
def cString (bytes : List UInt8) : Option (List UInt8) :=
  if 0 ∈ bytes then some (bytes.takeWhile (· ≠ 0)) else none

/-- What is read through a pointer; nothing where it dangles. -/
def CharPointer.read (buffer : GrowingBuffer UInt8) : CharPointer → Option (List UInt8)
  | literal => some []
  | .buffer place =>
      if place.block = buffer.block then cString (buffer.elements.drop place.offset) else none

theorem cString_append {str rest : List UInt8} (plain : 0 ∉ str) :
    cString (str ++ 0 :: rest) = some str := by
  rw [cString, if_pos (List.mem_append_right _ List.mem_cons_self), List.takeWhile_append_of_pos,
    List.takeWhile_cons_of_neg (by decide), List.append_nil]
  intro byte there
  exact decide_eq_true fun zero => plain (zero ▸ there)

namespace CharPointer

variable {buffer buffer' : GrowingBuffer UInt8} {str more : List UInt8} {pointer : CharPointer}

/-- The pointer is good, and the string stands there with its terminator. -/
def Shows (buffer : GrowingBuffer UInt8) (str : List UInt8) : CharPointer → Prop
  | literal => str = []
  | .buffer place => buffer.Holds place (str ++ [0])

theorem Shows.extends (shows_ : pointer.Shows buffer str) (grown : buffer.Extends buffer' more) :
    pointer.Shows buffer' str := by
  cases pointer with
  | literal => exact shows_
  | buffer place => exact GrowingBuffer.Holds.extends shows_ grown

theorem Shows.read (shows_ : pointer.Shows buffer str) (plain : 0 ∉ str) :
    pointer.read buffer = some str := by
  cases pointer with
  | literal =>
      cases shows_
      rfl
  | buffer place =>
      obtain ⟨live, rest, holds⟩ := shows_
      rw [CharPointer.read, if_pos live, ← holds, List.append_assoc]
      exact cString_append plain

end CharPointer

/-! ## What the loop leaves -/

section Filling

variable {buffer : GrowingBuffer UInt8} (policy : GrowthPolicy)

/-- A name for which there is room stays where it is put. An empty one takes no room. -/
theorem internString_spec (str : List UInt8)
    (room : buffer.elements.length + (str.length + 1) ≤ buffer.capacity) :
    ∃ more, buffer.Extends (internString policy str buffer).2 more ∧ more.length ≤ str.length + 1 ∧
      (internString policy str buffer).1.Shows (internString policy str buffer).2 str := by
  by_cases empty : str = []
  · rw [internString, if_pos empty]
    exact ⟨[], .refl buffer, Nat.zero_le _, empty⟩
  · rw [internString, if_neg empty]
    have text : buffer.Extends (buffer.append policy str) str :=
      GrowingBuffer.append_extends policy (by omega)
    have terminator : (buffer.append policy str).Extends
        ((buffer.append policy str).append policy [0]) [0] := by
      apply GrowingBuffer.append_extends
      rw [text.elements, text.capacity, List.length_append, List.length_singleton]
      omega
    have whole := text.trans terminator
    refine ⟨str ++ [0], whole, ?_, whole.holds⟩
    rw [List.length_append, List.length_singleton]

/-- The frame has what the loop writes for a symbol. -/
structure StackTraceFrame.Shows (buffer : GrowingBuffer UInt8) (i : Nat) (address : BitVec 64)
    (info : SymbolInfo) (frame : StackTraceFrame) : Prop where
  index : frame.index = i
  address : frame.address = address
  function : frame.location.function.Shows buffer info.function
  file : frame.location.file.Shows buffer info.file
  line : frame.location.line = info.line
  column : frame.location.column = info.column

theorem StackTraceFrame.Shows.extends {buffer' : GrowingBuffer UInt8} {more : List UInt8} {i : Nat}
    {address : BitVec 64} {info : SymbolInfo} {frame : StackTraceFrame}
    (shows_ : frame.Shows buffer i address info) (grown : buffer.Extends buffer' more) :
    frame.Shows buffer' i address info :=
  { shows_ with function := shows_.function.extends grown, file := shows_.file.extends grown }

variable {s : List StackTraceFrame × GrowingBuffer UInt8}

/-- One turn. -/
theorem fillFrame_spec (i : Nat) (address : BitVec 64) (info : SymbolInfo)
    (room : s.2.elements.length + info.bytes ≤ s.2.capacity) :
    ∃ more frame, s.2.Extends (fillFrame policy i address info s).2 more ∧
      more.length ≤ info.bytes ∧ (fillFrame policy i address info s).1 = s.1.set i frame ∧
      frame.Shows (fillFrame policy i address info s).2 i address info := by
  rw [SymbolInfo.bytes] at room
  obtain ⟨more, grown, few, function⟩ :=
    internString_spec policy info.function
      (show s.2.elements.length + (info.function.length + 1) ≤ s.2.capacity by omega)
  have room' : (internString policy info.function s.2).2.elements.length +
      (info.file.length + 1) ≤ (internString policy info.function s.2).2.capacity := by
    rw [grown.elements, grown.capacity, List.length_append]
    omega
  obtain ⟨more', grown', few', file⟩ := internString_spec policy info.file room'
  refine ⟨more ++ more', _, grown.trans grown', ?_, rfl, rfl, rfl, function.extends grown', file,
    rfl, rfl⟩
  rw [SymbolInfo.bytes, List.length_append]
  omega

/-- The room that the names of some addresses take. -/
def namesBytes (resolve : BitVec 64 → SymbolInfo) (addresses : List (BitVec 64)) : Nat :=
  ((addresses.map resolve).map SymbolInfo.bytes).sum

/-- The loop: with room for all names that are left, the buffer stays in its block, the frames in
front are not touched, and those behind get what is resolved. -/
theorem fillFrames_spec (resolve : BitVec 64 → SymbolInfo) (i : Nat) (addresses : List (BitVec 64))
    (room : s.2.elements.length + namesBytes resolve addresses ≤ s.2.capacity) :
    ∃ more, s.2.Extends (fillFrames policy resolve i addresses s).2 more ∧
      more.length ≤ namesBytes resolve addresses ∧
      (∀ j, j < i → (fillFrames policy resolve i addresses s).1[j]? = s.1[j]?) ∧
      ∀ j address, addresses[j]? = some address → i + j < s.1.length →
        ∃ frame, (fillFrames policy resolve i addresses s).1[i + j]? = some frame ∧
          frame.Shows (fillFrames policy resolve i addresses s).2 (i + j) address
            (resolve address) := by
  induction addresses generalizing i s with
  | nil => exact ⟨[], .refl s.2, Nat.zero_le _, fun _ _ => rfl, by rintro j address ⟨⟩⟩
  | cons address rest ih =>
      rw [namesBytes, List.map_cons, List.map_cons, List.sum_cons] at room
      obtain ⟨more, frame, grown, few, set, shows_⟩ :=
        fillFrame_spec (s := s) policy i address (resolve address) (by omega)
      have room' : (fillFrame policy i address (resolve address) s).2.elements.length +
          namesBytes resolve rest ≤
          (fillFrame policy i address (resolve address) s).2.capacity := by
        rw [grown.elements, grown.capacity, List.length_append, namesBytes]
        omega
      obtain ⟨more', grown', few', front, behind⟩ := ih (i := i + 1) room'
      rw [fillFrames]
      refine ⟨more ++ more', grown.trans grown', ?_, fun j before => ?_, fun j a at_ inside => ?_⟩
      · rw [namesBytes, List.map_cons, List.map_cons, List.sum_cons, List.length_append]
        exact Nat.add_le_add few few'
      · rw [front j (by omega), set, List.getElem?_set_ne (by omega)]
      · cases j with
        | zero =>
            cases at_
            refine ⟨frame, (front i (by omega)).trans ?_, shows_.extends grown'⟩
            rw [set]
            exact List.getElem?_set_self inside
        | succ j =>
            have here := behind j a at_ (by rw [set, List.length_set]; omega)
            rwa [Nat.add_assoc, Nat.add_comm 1 j] at here

end Filling

/-! ## The whole trace -/

theorem foldl_needed (infos : List SymbolInfo) (needed : BitVec 64) :
    infos.foldl (fun needed info => needed + (BitVec.ofNat 64 info.function.length +
      BitVec.ofNat 64 info.file.length + 2)) needed =
        needed + BitVec.ofNat 64 (infos.map SymbolInfo.bytes).sum := by
  induction infos generalizing needed with
  | nil => simp
  | cons info infos ih =>
      have bytes : BitVec.ofNat 64 info.function.length + BitVec.ofNat 64 info.file.length + 2 =
          BitVec.ofNat 64 info.bytes := by
        have sum : info.bytes = info.function.length + info.file.length + 2 := by
          rw [SymbolInfo.bytes]
          omega
        rw [sum, BitVec.ofNat_add, BitVec.ofNat_add]
        rfl
      rw [List.foldl_cons, ih, bytes, List.map_cons, List.sum_cons, BitVec.ofNat_add,
        BitVec.add_assoc]

/-- The sum does not wrap: it counts bytes that are all in memory. -/
theorem toNat_neededBytes {depth : Nat} (capture : Capture depth) :
    (neededBytes capture.infos).toNat = namesBytes capture.resolve capture.rawAddrs := by
  have start (x : BitVec 64) : 0 + x = x := BitVec.zero_add x
  rw [neededBytes, foldl_needed, start, BitVec.toNat_ofNat]
  exact Nat.mod_eq_of_lt capture.inMemory

theorem namesBytes_take_le (resolve : BitVec 64 → SymbolInfo) (addresses : List (BitVec 64))
    (k : Nat) : namesBytes resolve (addresses.take k) ≤ namesBytes resolve addresses := by
  have cut : namesBytes resolve addresses =
      namesBytes resolve (addresses.take k) + namesBytes resolve (addresses.drop k) := by
    rw [namesBytes, namesBytes, namesBytes, ← List.sum_append, ← List.map_append, ← List.map_append,
      List.take_append_drop]
  omega

/-- The room that is reserved is enough for the names of any of the addresses, from the front. -/
theorem room_reservedBuffer (policy : GrowthPolicy) (buffer : GrowingBuffer UInt8) {depth : Nat}
    (capture : Capture depth) (k : Nat) :
    (reservedBuffer policy capture.infos buffer).elements.length +
        namesBytes capture.resolve (capture.rawAddrs.take k) ≤
      (reservedBuffer policy capture.infos buffer).capacity := by
  have enough := buffer.clear.le_capacity_reserve policy (neededBytes capture.infos).toNat
  have names := namesBytes_take_le capture.resolve capture.rawAddrs k
  rw [toNat_neededBytes] at enough
  rw [reservedBuffer, GrowingBuffer.elements_reserve, GrowingBuffer.clear, List.length_nil,
    Nat.zero_add, toNat_neededBytes]
  exact names.trans enough

/-- For every trace, whatever its buffer has had in it before, and all resolved symbols: after any
number of turns the names are not longer than what was reserved for them, and the buffer has not
moved since. At the end, what is read through the pointers of every frame is the function and the
file of its symbol, where they have no `NUL` in them. -/
theorem collectTrace_reads_back (policy : GrowthPolicy) (s : StackTrace)
    (capture : Capture s.depth) :
    let reserved := reservedBuffer policy capture.infos s.stringBuffer
    let after := s.collectTrace policy capture
    (∀ k, let filled := (fillFrames policy capture.resolve 0 (capture.rawAddrs.take k)
        (s.frames, reserved)).2
      filled.elements.length ≤ (neededBytes capture.infos).toNat ∧
        filled.block = reserved.block ∧ filled.capacity = reserved.capacity) ∧
    after.count = capture.infos.length ∧
    ∀ (i : Nat) (info : SymbolInfo), capture.infos[i]? = some info →
      ∃ frame, after.frames[i]? = some frame ∧ frame.index = i ∧
        (0 ∉ info.function →
          frame.location.function.read after.stringBuffer = some info.function) ∧
        (0 ∉ info.file → frame.location.file.read after.stringBuffer = some info.file) := by
  intro reserved after
  refine ⟨fun k => ?_, ?_, fun i info at_ => ?_⟩
  · obtain ⟨more, grown, few, -⟩ := fillFrames_spec (s := (s.frames, reserved)) policy
      capture.resolve 0 (capture.rawAddrs.take k)
      (room_reservedBuffer policy s.stringBuffer capture k)
    refine ⟨?_, grown.block, grown.capacity⟩
    have clear : reserved.elements = [] := GrowingBuffer.elements_reserve ..
    rw [grown.elements, clear, List.nil_append, toNat_neededBytes]
    exact few.trans (namesBytes_take_le ..)
  · by_cases none_ : capture.rawAddrs = []
    · simp only [after, StackTrace.collectTrace, Capture.infos, none_]
      rfl
    · simp only [after, StackTrace.collectTrace, if_neg none_, Capture.infos, List.length_map]
  · rw [Capture.infos, List.getElem?_map] at at_
    obtain ⟨address, here, rfl⟩ := Option.map_eq_some_iff.mp at_
    have inside : i < capture.rawAddrs.length := (List.getElem?_eq_some_iff.mp here).1
    have some_ : capture.rawAddrs ≠ [] := List.ne_nil_of_length_pos (Nat.zero_lt_of_lt inside)
    have room := room_reservedBuffer policy s.stringBuffer capture capture.rawAddrs.length
    rw [List.take_length] at room
    obtain ⟨-, -, -, -, filled⟩ := fillFrames_spec (s := (s.frames, reserved)) policy
      capture.resolve 0 capture.rawAddrs room
    obtain ⟨frame, there, shows_⟩ := filled i address here (by
      rw [Nat.zero_add, s.room]
      exact inside.trans_le capture.few)
    rw [Nat.zero_add] at there shows_
    simp only [after, StackTrace.collectTrace, if_neg some_]
    exact ⟨frame, there, shows_.index, shows_.function.read, shows_.file.read⟩

end Fpag.Debug
