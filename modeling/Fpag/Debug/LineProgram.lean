import Fpag.Debug.LineHeader

/-!
`line_position`: the walk of a line program in search of an address.

An opcode is read with its operands and then acts on the registers of the machine and on the
row that is open. `walk` has a fuel of its own, because nothing in the source bounds the
turns of the loop: a walk that has used it up is still running.
-/

namespace Fpag.Debug

open Cursor

def dwLnsCopy : Nat := 1
def dwLnsAdvancePc : Nat := 2
def dwLnsAdvanceLine : Nat := 3
def dwLnsSetFile : Nat := 4
def dwLnsSetColumn : Nat := 5
def dwLnsNegateStmt : Nat := 6
def dwLnsSetBasicBlock : Nat := 7
def dwLnsConstAddPc : Nat := 8
def dwLnsFixedAdvancePc : Nat := 9
def dwLnsSetPrologueEnd : Nat := 10
def dwLnsSetEpilogueBegin : Nat := 11
def dwLnsSetIsa : Nat := 12

def dwLneEndSequence : Nat := 1
def dwLneSetAddress : Nat := 2

/-- `SourcePosition`, with the string that its pointer stands for. -/
structure SourcePosition : Type where
  file : List UInt8
  line : Nat
  column : Nat
  deriving DecidableEq

/-- `CompilationUnit`. -/
structure CompilationUnit : Type where
  lineProgram : Nat := 0
  ranges : Nat := 0
  lowPc : Nat := 0
  highPc : Nat := 0
  addrBase : Nat := 0
  strOffsetsBase : Nat := 0
  addressSize : Nat := 8
  offsetHighPc : Bool := false
  indexedAddresses : Bool := false
  hasLineProgram : Bool := false
  hasRanges : Bool := false
  legacyRanges : Bool := false
  files : List (List UInt8) := []
  deriving DecidableEq

/-! ## Opcodes -/

/-- An opcode with its operands, as far as it acts on anything that is reported. -/
inductive Instruction : Type
  | special (adjusted : Nat)
  | copy
  | advancePc (operand : Nat)
  | advanceLine (delta : Int)
  | setFile (operand : Nat)
  | setColumn (operand : Nat)
  | constAddPc
  | fixedAdvancePc (operand : Nat)
  | endSequence
  | setAddress (address : Nat)
  | other
  deriving DecidableEq

/-- The operand of an extended opcode. -/
def fetchSubOpcode (header : LineHeader) (subOpcode : Nat) : Reader Cursor Instruction :=
  if subOpcode = dwLneEndSequence then pure .endSequence
  else if subOpcode = dwLneSetAddress then do
    pure (.setAddress (← fixed header.addressSize))
  else pure .other

/-- An extended opcode, which declares the length of everything behind it. -/
def fetchExtended (header : LineHeader) : Reader Cursor Instruction := do
  let length ← uleb
  let c ← get
  Reader.require (length ≤ subtract header.stop c.position)
  let stop := u64 (c.position + length)
  let subOpcode ← fixed 1
  let instruction ← fetchSubOpcode header subOpcode
  seek stop
  pure instruction

/-- A standard opcode. -/
def fetchStandard (header : LineHeader) (opcode : Nat) : Reader Cursor Instruction :=
  if opcode = dwLnsCopy then pure .copy
  else if opcode = dwLnsAdvancePc then do
    pure (.advancePc (← uleb))
  else if opcode = dwLnsAdvanceLine then do
    pure (.advanceLine (← sleb))
  else if opcode = dwLnsSetFile then do
    pure (.setFile (← uleb))
  else if opcode = dwLnsSetColumn then do
    pure (.setColumn (← uleb))
  else if opcode = dwLnsConstAddPc then pure .constAddPc
  else if opcode = dwLnsFixedAdvancePc then do
    pure (.fixedAdvancePc (← fixed 2))
  else if opcode = dwLnsSetIsa then do
    let _isa ← uleb
    pure .other
  else if opcode ∈ [dwLnsNegateStmt, dwLnsSetBasicBlock, dwLnsSetPrologueEnd,
      dwLnsSetEpilogueBegin] then pure .other
  else do
    let _operands ← Reader.repeated uleb (header.standardLengths[opcode]?.getD 0)
    pure .other

/-- The opcode at the cursor. -/
def fetch (header : LineHeader) : Reader Cursor Instruction := do
  let opcode ← fixed 1
  if header.opcodeBase ≤ opcode then pure (.special (opcode - header.opcodeBase))
  else if opcode = 0 then fetchExtended header
  else fetchStandard header opcode

/-! ## The machine -/

/-- The registers of the machine that a row is made of. -/
structure Registers : Type where
  address : Nat := 0
  file : Nat := 1
  line : Int := 1
  column : Nat := 0
  deriving DecidableEq

/-- Addition in `i64`. -/
def addLine (line delta : Int) : Int := Int.bmod (line + delta) (2 ^ 64)

/-- The address register after `advance`. -/
def Registers.advance (header : LineHeader) (r : Registers) (operationAdvance : Nat) : Registers :=
  { r with address := u64 (r.address +
      u64 (operationAdvance / header.maximumOperations * header.minimumInstructionLength)) }

/-- What `close_row_at` answers for a row that ends at `stop`. -/
def closeRowAt (files : List (List UInt8)) (linkAddress : Nat) (row : Registers) (stop : Nat) :
    Option SourcePosition :=
  if linkAddress < row.address ∨ stop ≤ linkAddress ∨ files.length ≤ row.file ∨ row.line ≤ 0 then
    none
  else
    match files[row.file]? with
    | none => none
    | some file =>
        if file = [] then none
        else some ⟨file, (row.line % 2 ^ 32).toNat, row.column % 2 ^ 32⟩

/-- The machine, the row that is open, and the answer. -/
structure Walk : Type where
  registers : Registers := {}
  row : Option Registers := none
  answer : Option SourcePosition := none
  deriving DecidableEq

namespace Walk

/-- `close_row_at`. -/
def close (files : List (List UInt8)) (linkAddress : Nat) (w : Walk) (stop : Nat) : Walk :=
  match w.row.bind fun row => closeRowAt files linkAddress row stop with
  | none => w
  | some position => { w with answer := some position }

/-- `emit_row`. -/
def emit (files : List (List UInt8)) (linkAddress : Nat) (w : Walk) : Walk :=
  let closed := w.close files linkAddress w.registers.address
  { closed with row := some w.registers }

/-- What an opcode does. -/
def execute (header : LineHeader) (files : List (List UInt8)) (linkAddress : Nat) (w : Walk) :
    Instruction → Walk
  | .special adjusted =>
      let moved := w.registers.advance header (adjusted / header.lineRange)
      let delta := header.lineBase + (adjusted % header.lineRange : Nat)
      emit files linkAddress
        { w with registers := { moved with line := addLine moved.line delta } }
  | .copy => w.emit files linkAddress
  | .advancePc operand => { w with registers := w.registers.advance header operand }
  | .advanceLine delta =>
      { w with registers := { w.registers with line := addLine w.registers.line delta } }
  | .setFile operand => { w with registers := { w.registers with file := operand } }
  | .setColumn operand => { w with registers := { w.registers with column := operand } }
  | .constAddPc =>
      { w with registers :=
        w.registers.advance header ((255 - header.opcodeBase) / header.lineRange) }
  | .fixedAdvancePc operand =>
      { w with registers :=
        { w.registers with address := u64 (w.registers.address + operand) } }
  | .endSequence =>
      let closed := w.close files linkAddress w.registers.address
      { closed with registers := {}, row := none }
  | .setAddress address =>
      emit files linkAddress { w with registers := { w.registers with address := address } }
  | .other => w

end Walk

/-- The loop over the opcodes. -/
def walk (header : LineHeader) (files : List (List UInt8)) (linkAddress : Nat) :
    Nat → Nat → Walk → Reader Cursor (Option SourcePosition)
  | 0, _, _ => throw .running
  | fuel + 1, position, w =>
      if position < header.stop ∧ w.answer = none then do
        seek position
        let instruction ← fetch header
        let c ← get
        walk header files linkAddress fuel c.position
          (w.execute header files linkAddress instruction)
      else pure w.answer

/-- `line_position`, with the fuel of its loop. -/
def linePosition (tables : Tables) (unit : CompilationUnit) (linkAddress fuel : Nat) :
    Except Stop (Option SourcePosition) :=
  if !unit.hasLineProgram || unit.files.isEmpty || tables.debugLine.size ≤ unit.lineProgram then
    .ok none
  else do
    let answer ← Reader.attempt (do
      seek unit.lineProgram
      let decoded ← readLineHeader tables
      walk decoded.1 unit.files linkAddress fuel decoded.1.program {}) tables.debugLine.cursor
    pure (answer.getD none)

end Fpag.Debug
