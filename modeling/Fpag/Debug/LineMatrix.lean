import Mathlib.Data.List.Induction
import Fpag.Debug.LineProgram

/-!
The line-number machine of the DWARF standard, and how `line_position` departs from it.

The standard has the machine append rows to a matrix: a special opcode, `DW_LNS_copy` and
`DW_LNE_end_sequence` append one, and no other opcode does. A row covers the addresses from
its own up to that of the next row of its sequence. `line_position` looks for the address while
it walks, and it takes `DW_LNE_set_address` for an opcode that appends a row.
-/

namespace Fpag.Debug

open Cursor

/-! ## The machine of the standard -/

/-- A row of the matrix. -/
structure Row : Type where
  registers : Registers
  endSequence : Bool
  deriving DecidableEq

/-- What an opcode does to the registers, with one operation in an instruction. -/
def Registers.step (header : LineHeader) (r : Registers) : Instruction → Registers
  | .special adjusted =>
      { r with
        address := u64 (r.address + adjusted / header.lineRange * header.minimumInstructionLength)
        line := addLine r.line (header.lineBase + (adjusted % header.lineRange : Nat)) }
  | .advancePc operand =>
      { r with address := u64 (r.address + operand * header.minimumInstructionLength) }
  | .advanceLine delta => { r with line := addLine r.line delta }
  | .setFile operand => { r with file := operand }
  | .setColumn operand => { r with column := operand }
  | .constAddPc =>
      { r with address := u64 (r.address +
          (255 - header.opcodeBase) / header.lineRange * header.minimumInstructionLength) }
  | .fixedAdvancePc operand => { r with address := u64 (r.address + operand) }
  | .setAddress address => { r with address := address }
  | _ => r

/-- The opcodes that append a row. -/
def Instruction.appends : Instruction → Bool
  | .special _ => true
  | .copy => true
  | .endSequence => true
  | _ => false

/-- The opcodes at which `line_position` closes a row. -/
def Instruction.emits : Instruction → Bool
  | .setAddress _ => true
  | i => i.appends

/-- The registers behind an opcode: a sequence begins with the initial ones. -/
def Registers.next (header : LineHeader) (r : Registers) (i : Instruction) : Registers :=
  if i = .endSequence then {} else r.step header i

/-- The rows that the opcodes append, in program order. -/
def rowsFrom (appends : Instruction → Bool) (header : LineHeader) :
    Registers → List Instruction → List Row
  | _, [] => []
  | r, i :: is =>
      let rest := rowsFrom appends header (r.next header i) is
      if appends i then ⟨r.step header i, decide (i = .endSequence)⟩ :: rest else rest

/-- The opcodes of the first turns of a program. -/
def program (header : LineHeader) : Nat → Nat → Cursor → List Instruction
  | 0, _, _ => []
  | fuel + 1, position, c =>
      if position < header.stop then
        match (do seek position; fetch header : Reader Cursor Instruction).run c with
        | .ok (instruction, c') => instruction :: program header fuel c'.position c'
        | .error _ => []
      else []

/-- The rows that the first turns of a program append. -/
def matrix (header : LineHeader) (fuel : Nat) (c : Cursor) : List Row :=
  rowsFrom Instruction.appends header {} (program header fuel header.program c)

/-- The row and the next one enclose the address, and the row can be reported. -/
def Row.Covers (files : List (List UInt8)) (linkAddress : Nat) (r next : Row) : Prop :=
  r.endSequence = false ∧ r.registers.address ≤ linkAddress ∧
    linkAddress < next.registers.address ∧ 0 < r.registers.line ∧
    ∃ file, files[r.registers.file]? = some file ∧ file ≠ []

/-- The first row in program order that covers the address. -/
def FirstCovering (files : List (List UInt8)) (linkAddress : Nat) (rows : List Row) (r : Row) :
    Prop :=
  ∃ (i : Nat) (next : Row), rows[i]? = some r ∧ rows[i + 1]? = some next ∧
    r.Covers files linkAddress next ∧
    ∀ (j : Nat) (r' next' : Row), j < i → rows[j]? = some r' → rows[j + 1]? = some next' →
      ¬ r'.Covers files linkAddress next'

/-- The position is that of the first row that covers the address. -/
def Answers (files : List (List UInt8)) (linkAddress : Nat) (rows : List Row)
    (position : SourcePosition) : Prop :=
  ∃ r, FirstCovering files linkAddress rows r ∧
    files[r.registers.file]? = some position.file ∧ (position.line : Int) = r.registers.line ∧
    position.column = r.registers.column

/-! ## Looking for a row -/

/-- The first answer, with a row that is open in front of the rows. -/
def findFrom (files : List (List UInt8)) (linkAddress : Nat) :
    Option Registers → List Row → Option SourcePosition
  | _, [] => none
  | row, next :: rest =>
      match row.bind fun r => closeRowAt files linkAddress r next.registers.address with
      | some position => some position
      | none =>
          findFrom files linkAddress (if next.endSequence then none else some next.registers) rest

variable {header : LineHeader} {files : List (List UInt8)} {linkAddress : Nat}

/-- An answer stays the answer when more rows are appended. -/
theorem findFrom_append {row : Option Registers} {rows more : List Row} {position : SourcePosition}
    (found : findFrom files linkAddress row rows = some position) :
    findFrom files linkAddress row (rows ++ more) = some position := by
  induction rows generalizing row with
  | nil => cases found
  | cons next rest ih =>
      rw [List.cons_append, findFrom]
      rw [findFrom] at found
      split at found
      · exact found
      · exact ih found

theorem rowsFrom_append {appends : Instruction → Bool} (r : Registers) (is js : List Instruction) :
    rowsFrom appends header r (is ++ js) = rowsFrom appends header r is ++
      rowsFrom appends header (is.foldl (Registers.next header) r) js := by
  induction is generalizing r with
  | nil => rfl
  | cons i is ih =>
      rw [List.cons_append, rowsFrom, rowsFrom, List.foldl_cons, ih]
      split <;> simp

/-! ## The walk -/

theorem Registers.advance_eq {r : Registers} (single : header.maximumOperations = 1) (n : Nat) :
    r.advance header n =
      { r with address := u64 (r.address + n * header.minimumInstructionLength) } := by
  rw [Registers.advance, single, Nat.div_one, u64, u64, u64, Nat.add_mod_mod]

/-- What an opcode does to a walk that has no answer yet. -/
theorem execute_eq {w : Walk} (single : header.maximumOperations = 1) (open_ : w.answer = none)
    (i : Instruction) :
    w.execute header files linkAddress i =
      if i.emits then
        { registers := w.registers.next header i
          row := if i = .endSequence then none else some (w.registers.step header i)
          answer := w.row.bind fun row =>
            closeRowAt files linkAddress row (w.registers.step header i).address }
      else { w with registers := w.registers.next header i } := by
  have closed : ∀ (v : Walk) (stop : Nat), v.answer = none →
      v.close files linkAddress stop = { v with
        answer := v.row.bind fun row => closeRowAt files linkAddress row stop } := by
    intro v stop none_
    unfold Walk.close
    split
    · next found => rw [found, ← none_]
    · next position found => rw [found]
  obtain ⟨registers, row, answer⟩ := w
  have none_ : answer = none := open_
  subst none_
  have moved := fun n => Registers.advance_eq (r := registers) single n
  cases i <;> simp [Walk.execute, Walk.emit, Instruction.emits, Instruction.appends,
    Registers.next, Registers.step, moved, closed]

theorem walk_run {fuel position : Nat} {w : Walk} {c : Cursor} :
    (walk header files linkAddress (fuel + 1) position w).run c =
      if position < header.stop ∧ w.answer = none then
        match (do seek position; fetch header : Reader Cursor Instruction).run c with
        | .ok (i, c') => (walk header files linkAddress fuel c'.position
            (w.execute header files linkAddress i)).run c'
        | .error stop => .error stop
      else .ok (w.answer, c) := by
  rw [walk]
  split
  · cases sought : (seek position).run c with
    | error stop => rw [Reader.run_bind_error sought, Reader.run_bind_error sought]
    | ok found =>
        obtain ⟨done, c₁⟩ := found
        rw [Reader.run_bind_eq sought, Reader.run_bind_eq sought]
        cases fetched : (fetch header).run c₁ with
        | error stop => exact Reader.run_bind_error fetched
        | ok pair => exact Reader.run_bind_eq fetched
  · rfl

theorem program_succ {fuel position : Nat} {c : Cursor} :
    program header (fuel + 1) position c =
      if position < header.stop then
        match (do seek position; fetch header : Reader Cursor Instruction).run c with
        | .ok (i, c') => i :: program header fuel c'.position c'
        | .error _ => []
      else [] := rfl

/-- An answer of the walk is one among the rows that it sees. -/
theorem findFrom_of_walk (single : header.maximumOperations = 1) {fuel position : Nat} {w : Walk}
    {c c' : Cursor} {found : SourcePosition} (open_ : w.answer = none)
    (run : (walk header files linkAddress fuel position w).run c = .ok (some found, c')) :
    findFrom files linkAddress w.row
      (rowsFrom Instruction.emits header w.registers (program header fuel position c))
        = some found := by
  induction fuel generalizing position w c with
  | zero => cases run
  | succ fuel ih =>
      rw [walk_run] at run
      rw [program_succ]
      split at run
      · next going =>
          rw [if_pos going.1]
          split at run
          · next i c₁ fetched =>
              rw [execute_eq single open_] at run
              simp only [rowsFrom]
              split
              · next emits =>
                  rw [if_pos emits] at run
                  rw [findFrom]
                  cases answer : w.row.bind fun row =>
                      closeRowAt files linkAddress row (w.registers.step header i).address with
                  | some position' =>
                      rw [answer] at run
                      cases fuel with
                      | zero => cases run
                      | succ fuel =>
                          rw [walk_run, if_neg (by simp)] at run
                          cases run
                          rfl
                  | none =>
                      have later := ih (by simp [answer]) run
                      simpa using later
              · next quiet =>
                  rw [if_neg quiet] at run
                  exact ih (w := { w with registers := w.registers.next header i }) open_ run
          · cases run
      · next ahead =>
          rw [open_] at run
          cases run

/-- An answer among the rows that the walk sees is the answer of the walk. -/
theorem walk_of_findFrom (single : header.maximumOperations = 1) {fuel position : Nat} {w : Walk}
    {c : Cursor} {found : SourcePosition} (open_ : w.answer = none)
    (first : findFrom files linkAddress w.row
      (rowsFrom Instruction.emits header w.registers (program header fuel position c))
        = some found) :
    ∃ c', (walk header files linkAddress (fuel + 1) position w).run c = .ok (some found, c') := by
  induction fuel generalizing position w c with
  | zero => cases first
  | succ fuel ih =>
      rw [program_succ] at first
      rw [walk_run]
      split at first
      · next going =>
          rw [if_pos ⟨going, open_⟩]
          split at first
          · next i c₁ fetched =>
              rw [execute_eq single open_]
              simp only [rowsFrom] at first
              split at first
              · next emits =>
                  rw [if_pos emits]
                  rw [findFrom] at first
                  cases answer : w.row.bind fun row =>
                      closeRowAt files linkAddress row (w.registers.step header i).address with
                  | some position' =>
                      rw [answer] at first
                      cases first
                      exact ⟨c₁, by rw [walk_run, if_neg (by simp)]⟩
                  | none =>
                      rw [answer] at first
                      exact ih rfl (by simpa using first)
              · next quiet =>
                  rw [if_neg quiet]
                  exact ih (w := { w with registers := w.registers.next header i }) open_ first
          · cases first
      · cases first

/-- More turns only add opcodes. -/
theorem program_prefix {n m position : Nat} {c : Cursor} (le : n ≤ m) :
    program header n position c <+: program header m position c := by
  induction n generalizing m position c with
  | zero => exact List.nil_prefix
  | succ n ih =>
      obtain ⟨m, rfl⟩ : ∃ k, m = k + 1 := ⟨m - 1, by omega⟩
      rw [program_succ, program_succ]
      split
      · split
        · exact (List.prefix_cons_inj _).mpr (ih (by omega))
        · exact List.prefix_rfl
      · exact List.prefix_rfl

/-- Of two numbers of turns, one gives a prefix of the other's opcodes. -/
theorem program_total (header : LineHeader) (position : Nat) (c : Cursor) (n m : Nat) :
    program header n position c <+: program header m position c ∨
      program header m position c <+: program header n position c :=
  (Nat.le_total n m).imp program_prefix program_prefix

/-! ## The first row that covers an address -/

/-- What is reported of a row. -/
def report (file : List UInt8) (r : Registers) : SourcePosition :=
  ⟨file, (r.line % 2 ^ 32).toNat, r.column % 2 ^ 32⟩

theorem closeRowAt_eq_some_iff {r : Registers} {stop : Nat} {position : SourcePosition} :
    closeRowAt files linkAddress r stop = some position ↔
      r.address ≤ linkAddress ∧ linkAddress < stop ∧ 0 < r.line ∧
        ∃ file, files[r.file]? = some file ∧ file ≠ [] ∧ position = report file r := by
  unfold closeRowAt
  split
  · next outside =>
      simp only [reduceCtorEq, false_iff]
      rintro ⟨h₁, h₂, h₃, file, hfile, -⟩
      have inside := (List.getElem?_eq_some_iff.mp hfile).1
      rcases outside with h | h | h | h <;> omega
  · next inside =>
      have h₁ : r.address ≤ linkAddress := by omega
      have h₂ : linkAddress < stop := by omega
      have h₃ : 0 < r.line := by omega
      cases hfile : files[r.file]? with
      | none => simp
      | some file =>
          simp only [Option.some.injEq, exists_eq_left', h₁, h₂, h₃, true_and, report]
          split
          · next empty => simp [empty]
          · next named =>
              simp only [Option.some.injEq, ne_eq, named, not_false_eq_true, true_and]
              exact eq_comm

/-- The row that is open behind a row of the matrix. -/
def Row.opened (r : Row) : Option Registers := if r.endSequence then none else some r.registers

theorem Row.close_eq_some_iff {r next : Row} {position : SourcePosition} :
    (r.opened.bind fun row => closeRowAt files linkAddress row next.registers.address)
        = some position ↔
      r.Covers files linkAddress next ∧
        ∃ file, files[r.registers.file]? = some file ∧ position = report file r.registers := by
  unfold Row.opened Row.Covers
  cases r.endSequence with
  | true => simp
  | false =>
      simp only [Bool.false_eq_true, if_false, Option.bind_some, closeRowAt_eq_some_iff, true_and]
      constructor
      · rintro ⟨h₁, h₂, h₃, file, h₄, h₅, h₆⟩
        exact ⟨⟨h₁, h₂, h₃, file, h₄, h₅⟩, file, h₄, h₆⟩
      · rintro ⟨⟨h₁, h₂, h₃, file, h₄, h₅⟩, file', h₆, h₇⟩
        rw [h₄] at h₆
        cases h₆
        exact ⟨h₁, h₂, h₃, file, h₄, h₅, h₇⟩

theorem firstCovering_cons {r next found : Row} {rest : List Row} :
    FirstCovering files linkAddress (r :: next :: rest) found ↔
      (r.Covers files linkAddress next ∧ found = r) ∨
        (¬ r.Covers files linkAddress next ∧
          FirstCovering files linkAddress (next :: rest) found) := by
  constructor
  · rintro ⟨i, after, hi, hafter, covers, first⟩
    cases i with
    | zero =>
        cases hi
        cases hafter
        exact Or.inl ⟨covers, rfl⟩
    | succ i =>
        refine Or.inr ⟨first 0 r next (Nat.succ_pos i) rfl rfl, i, after, hi, hafter, covers, ?_⟩
        intro j r' next' lt hr hnext
        exact first (j + 1) r' next' (Nat.succ_lt_succ lt) hr hnext
  · rintro (⟨covers, rfl⟩ | ⟨not, i, after, hi, hafter, covers, first⟩)
    · exact ⟨0, next, rfl, rfl, covers, fun j _ _ lt => (Nat.not_lt_zero j lt).elim⟩
    · refine ⟨i + 1, after, hi, hafter, covers, ?_⟩
      intro j r' next' lt hr hnext
      cases j with
      | zero =>
          cases hr
          cases hnext
          exact not
      | succ j => exact first j r' next' (Nat.lt_of_succ_lt_succ lt) hr hnext

/-- The search finds the first row that covers the address. -/
theorem findFrom_eq_some_iff {rows : List Row} {position : SourcePosition} :
    findFrom files linkAddress none rows = some position ↔
      ∃ r, FirstCovering files linkAddress rows r ∧
        ∃ file, files[r.registers.file]? = some file ∧ position = report file r.registers := by
  have start : ∀ (r : Row) (rest : List Row), findFrom files linkAddress none (r :: rest)
      = findFrom files linkAddress r.opened rest := fun _ _ => rfl
  induction rows with
  | nil =>
      refine ⟨by rintro ⟨⟩, ?_⟩
      rintro ⟨r, ⟨i, next, hi, -⟩, -⟩
      simp at hi
  | cons r rest ih =>
      cases rest with
      | nil =>
          refine ⟨by rintro ⟨⟩, ?_⟩
          rintro ⟨found, ⟨i, next, -, hnext, -⟩, -⟩
          simp at hnext
      | cons next rest =>
          rw [start, findFrom]
          rw [start] at ih
          cases close : r.opened.bind fun row =>
              closeRowAt files linkAddress row next.registers.address with
          | some position' =>
              obtain ⟨covers, file, hfile, hposition⟩ := Row.close_eq_some_iff.mp close
              simp only [Option.some.injEq]
              constructor
              · rintro rfl
                exact ⟨r, firstCovering_cons.mpr (Or.inl ⟨covers, rfl⟩), file, hfile, hposition⟩
              · rintro ⟨found, first, file', hfile', rfl⟩
                rcases firstCovering_cons.mp first with ⟨-, rfl⟩ | ⟨not, -⟩
                · rw [hfile] at hfile'
                  cases hfile'
                  exact hposition
                · exact (not covers).elim
          | none =>
              have not : ¬ r.Covers files linkAddress next := by
                intro covers
                obtain ⟨file, hfile, -⟩ := covers.2.2.2.2
                rw [Row.close_eq_some_iff.mpr ⟨covers, file, hfile, rfl⟩] at close
                cases close
              have same : findFrom files linkAddress
                  (if next.endSequence then none else some next.registers) rest
                    = findFrom files linkAddress next.opened rest := rfl
              simp only [same, ih, firstCovering_cons, not, false_and, not_false_eq_true, true_and,
                false_or]

/-! ## When the walk answers as the standard says -/

/-- The registers behind some opcodes. -/
def Registers.after (header : LineHeader) (is : List Instruction) : Registers :=
  is.foldl (Registers.next header) {}

/-- A row with these registers can be reported, and begins at or below the address. -/
def Registers.Reaches (files : List (List UInt8)) (linkAddress : Nat) (r : Registers) : Prop :=
  r.address ≤ linkAddress ∧ 0 < r.line ∧ ∃ file, files[r.file]? = some file ∧ file ≠ []

/-- The row of the program that is open behind some opcodes, unless an address was set since. -/
def openFrom (header : LineHeader) :
    Registers → Option Registers → List Instruction → Option Registers
  | _, row, [] => row
  | r, row, i :: is =>
      openFrom header (r.next header i)
        (if i.emits then
          if i.appends ∧ i ≠ .endSequence then some (r.step header i) else none
        else row) is

/-- The program goes on behind these opcodes, and the next row that its opcodes append is above
the address. -/
def NextAbove (appends : Instruction → Bool) (header : LineHeader) (linkAddress : Nat) (c : Cursor)
    (front : List Instruction) : Prop :=
  ∃ (m : Nat) (more : List Instruction) (row : Row) (rest : List Row),
    program header m header.program c = front ++ more ∧
      rowsFrom appends header (.after header front) more = row :: rest ∧
      linkAddress < row.registers.address

/-- What has to hold wherever the walk executes `DW_LNE_set_address`, and so has found no row
yet. If a row that reaches the address asked for is open, that address is before the one that is
set exactly if it is before the row that the program appends next. And if the walk opens a row
that reaches it, the walk does not close that row above it. -/
def SetsRowAddresses (header : LineHeader) (files : List (List UInt8)) (linkAddress : Nat)
    (c : Cursor) : Prop :=
  ∀ (n : Nat) (front back : List Instruction) (address : Nat),
    program header n header.program c = front ++ .setAddress address :: back →
    (∀ r, ¬ FirstCovering files linkAddress (rowsFrom Instruction.emits header {} front) r) →
    (∀ r ∈ openFrom header {} none front, r.Reaches files linkAddress →
      (linkAddress < address ↔ NextAbove Instruction.appends header linkAddress c
        (front ++ [.setAddress address]))) ∧
    (Registers.Reaches files linkAddress { Registers.after header front with address := address } →
      ¬ NextAbove Instruction.emits header linkAddress c (front ++ [.setAddress address]))

theorem closeRowAt_eq_none {r : Registers} {stop : Nat}
    (not : r.Reaches files linkAddress → ¬ linkAddress < stop) :
    closeRowAt files linkAddress r stop = none := by
  rw [Option.eq_none_iff_forall_ne_some]
  intro position found
  obtain ⟨low, before, line, file, listed, named, -⟩ := closeRowAt_eq_some_iff.mp found
  exact not ⟨low, line, file, listed, named⟩ before

theorem reaches_of_closeRowAt {r : Registers} {stop : Nat} {position : SourcePosition}
    (found : closeRowAt files linkAddress r stop = some position) :
    r.Reaches files linkAddress ∧ linkAddress < stop := by
  obtain ⟨low, before, line, file, listed, named, -⟩ := closeRowAt_eq_some_iff.mp found
  exact ⟨⟨low, line, file, listed, named⟩, before⟩

/-- Where a row ends does not matter to what it reports. -/
theorem closeRowAt_of_lt {r : Registers} {stop stop' : Nat} {position : SourcePosition}
    (found : closeRowAt files linkAddress r stop = some position) (before : linkAddress < stop') :
    closeRowAt files linkAddress r stop' = some position := by
  obtain ⟨low, -, line, file⟩ := closeRowAt_eq_some_iff.mp found
  exact closeRowAt_eq_some_iff.mpr ⟨low, before, line, file⟩

/-- The row that is open behind some rows. -/
def openBehind (rows : List Row) : Option Registers := rows.getLast?.bind Row.opened

theorem openBehind_concat (rows : List Row) (next : Row) :
    openBehind (rows ++ [next]) = next.opened := by
  simp [openBehind]

/-- One more row closes the row that is open. -/
theorem findFrom_concat (rows : List Row) (next : Row) :
    findFrom files linkAddress none (rows ++ [next]) =
      (findFrom files linkAddress none rows).or ((openBehind rows).bind fun r =>
        closeRowAt files linkAddress r next.registers.address) := by
  have general : ∀ row, findFrom files linkAddress row (rows ++ [next]) =
      (findFrom files linkAddress row rows).or
        (((rows.getLast?.map Row.opened).getD row).bind fun r =>
          closeRowAt files linkAddress r next.registers.address) := by
    induction rows with
    | nil =>
        intro row
        have closes : ((([] : List Row).getLast?.map Row.opened).getD row) = row := rfl
        rw [List.nil_append, findFrom, closes, findFrom, Option.none_or]
        cases row.bind fun r => closeRowAt files linkAddress r next.registers.address <;> rfl
    | cons first rest ih =>
        intro row
        rw [List.cons_append, findFrom, findFrom]
        cases row.bind fun r => closeRowAt files linkAddress r first.registers.address with
        | some position => rfl
        | none =>
            have last : ((first :: rest).getLast?.map Row.opened).getD row =
                (rest.getLast?.map Row.opened).getD first.opened := by
              cases rest with
              | nil => rfl
              | cons second rest => simp [List.getLast?_cons]
            rw [last]
            exact ih first.opened
  rw [general none, openBehind]
  cases rows.getLast? <;> rfl

theorem rowsFrom_concat (appends : Instruction → Bool) (front : List Instruction)
    (i : Instruction) :
    rowsFrom appends header {} (front ++ [i]) = rowsFrom appends header {} front ++
      if appends i then [⟨(Registers.after header front).step header i, decide (i = .endSequence)⟩]
      else [] := by
  rw [rowsFrom_append, rowsFrom, rowsFrom]
  rfl

theorem openFrom_concat (r : Registers) (row : Option Registers) (front : List Instruction)
    (i : Instruction) :
    openFrom header r row (front ++ [i]) =
      if i.emits then
        if i.appends ∧ i ≠ .endSequence then
          some ((front.foldl (Registers.next header) r).step header i)
        else none
      else openFrom header r row front := by
  induction front generalizing r row with
  | nil => rfl
  | cons j front ih =>
      rw [List.cons_append, openFrom, openFrom, ih]
      rfl

section Programs

variable {c : Cursor} {position : SourcePosition}

/-- Behind an opcode without a row the next row is the one it was. -/
theorem NextAbove.of_quiet {appends : Instruction → Bool} {front : List Instruction}
    {i : Instruction} (quiet : appends i = false)
    (above : NextAbove appends header linkAddress c (front ++ [i])) :
    NextAbove appends header linkAddress c front := by
  obtain ⟨m, more, row, rest, there, rows, before⟩ := above
  refine ⟨m, i :: more, row, rest, by rw [there]; simp, ?_, before⟩
  rw [rowsFrom, quiet]
  rw [Registers.after, List.foldl_append] at rows
  exact rows

/-- The row of the opcode that comes next is the next row. -/
theorem nextAbove_of_row {appends : Instruction → Bool} {n : Nat} {front back : List Instruction}
    {i : Instruction} (here : program header n header.program c = front ++ i :: back)
    (row : appends i = true)
    (before : linkAddress < ((Registers.after header front).step header i).address) :
    NextAbove appends header linkAddress c front :=
  ⟨n, i :: back, _, _, here, by rw [rowsFrom, if_pos row], before⟩

/-- Behind some opcodes at which neither the walk nor the matrix has an answer: the rows of both
that are open are the same row of the program, or neither is closed above the address. -/
def OpenAlike (header : LineHeader) (files : List (List UInt8)) (linkAddress : Nat) (c : Cursor)
    (front : List Instruction) : Prop :=
  (openBehind (rowsFrom Instruction.emits header {} front) = openFrom header {} none front ∧
    openBehind (rowsFrom Instruction.appends header {} front) = openFrom header {} none front) ∨
  ((∀ r ∈ openBehind (rowsFrom Instruction.emits header {} front), r.Reaches files linkAddress →
      ¬ NextAbove Instruction.emits header linkAddress c front) ∧
    ∀ r ∈ openBehind (rowsFrom Instruction.appends header {} front),
      r.Reaches files linkAddress → ¬ NextAbove Instruction.appends header linkAddress c front)

theorem appends_emits {i : Instruction} (appends : i.appends = true) : i.emits = true := by
  cases i <;> first | rfl | cases appends

/-- An opcode that emits a row appends one or sets an address. -/
theorem emits_cases {i : Instruction} (emits : i.emits = true) :
    i.appends = true ∨ ∃ address, i = .setAddress address := by
  cases i with
  | setAddress address => exact Or.inr ⟨address, rfl⟩
  | _ => exact Or.inl emits

theorem unanswered_of_prefix {rows : Instruction → Bool} {front more : List Instruction}
    (nothing : findFrom files linkAddress none (rowsFrom rows header {} (front ++ more)) = none) :
    findFrom files linkAddress none (rowsFrom rows header {} front) = none := by
  cases found : findFrom files linkAddress none (rowsFrom rows header {} front) with
  | none => rfl
  | some position =>
      rw [rowsFrom_append, findFrom_append found] at nothing
      cases nothing

theorem not_firstCovering {rows : List Row}
    (nothing : findFrom files linkAddress none rows = none) (r : Row) :
    ¬ FirstCovering files linkAddress rows r := by
  intro first
  obtain ⟨i, next, -, -, covers, -⟩ := id first
  obtain ⟨file, listed, -⟩ := covers.2.2.2.2
  rw [findFrom_eq_some_iff.mpr ⟨r, first, file, listed, rfl⟩] at nothing
  cases nothing

/-- As long as the walk has no answer the matrix has none, and what is open is alike. -/
theorem SetsRowAddresses.alike (sets : SetsRowAddresses header files linkAddress c) {n : Nat}
    {front back : List Instruction} (here : program header n header.program c = front ++ back)
    (nothing : findFrom files linkAddress none (rowsFrom Instruction.emits header {} front)
      = none) :
    findFrom files linkAddress none (rowsFrom Instruction.appends header {} front) = none ∧
      OpenAlike header files linkAddress c front := by
  induction front using List.reverseRecOn generalizing back with
  | nil => exact ⟨rfl, Or.inl ⟨rfl, rfl⟩⟩
  | append_singleton front i ih =>
      have there : program header n header.program c = front ++ i :: back := by
        rw [here, List.append_assoc]
        rfl
      have before := unanswered_of_prefix nothing
      obtain ⟨unanswered, alike⟩ := ih there before
      rw [OpenAlike, rowsFrom_concat, rowsFrom_concat, openFrom_concat]
      rw [rowsFrom_concat] at nothing
      cases appends : i.appends with
      | true =>
          have emits := appends_emits appends
          rw [emits, if_pos rfl, findFrom_concat, before, Option.none_or] at nothing
          simp only [emits, if_true, openBehind_concat, findFrom_concat, unanswered, Option.none_or]
          -- Both sides close what they have open at this row, and both open this row.
          refine ⟨?_, Or.inl ?_⟩
          · rcases alike with ⟨walk, matrix⟩ | ⟨-, matrix⟩
            · rw [walk] at nothing
              rw [matrix, nothing]
            · cases opened : openBehind (rowsFrom Instruction.appends header {} front) with
              | none => rfl
              | some r =>
                  exact closeRowAt_eq_none fun reaches above =>
                    matrix r opened reaches (nextAbove_of_row there appends above)
          · simp only [Row.opened, decide_eq_true_eq, true_and, ite_not, Registers.after]
      | false =>
          cases emits : i.emits with
          | false =>
              -- Nothing is closed and nothing opened.
              simp only [Bool.false_eq_true, if_false, List.append_nil]
              refine ⟨unanswered, ?_⟩
              rcases alike with same | ⟨walk, matrix⟩
              · exact Or.inl same
              · exact Or.inr
                  ⟨fun r opened reaches above => walk r opened reaches (above.of_quiet emits),
                    fun r opened reaches above => matrix r opened reaches (above.of_quiet appends)⟩
          | true =>
              obtain appends' | ⟨address, rfl⟩ := emits_cases emits
              · rw [appends] at appends'
                cases appends'
              rw [emits, if_pos rfl, findFrom_concat, before, Option.none_or] at nothing
              simp only [Bool.false_eq_true, if_true, if_false, List.append_nil, openBehind_concat]
              obtain ⟨cut, opens⟩ := sets n front back address there (not_firstCovering before)
              refine ⟨unanswered, Or.inr ⟨?_, ?_⟩⟩
              · intro r opened
                cases opened
                exact opens
              · intro r opened reaches above
                rcases alike with ⟨walk, matrix⟩ | ⟨-, matrix⟩
                · rw [matrix] at opened
                  rw [walk, opened, Option.bind_some] at nothing
                  obtain ⟨low, line, file, listed, named⟩ := id reaches
                  have closed := closeRowAt_eq_some_iff.mpr ⟨low, (cut r opened reaches).mpr above,
                    line, file, listed, named, rfl⟩
                  exact absurd (closed.symm.trans nothing) (Option.some_ne_none _)
                · exact matrix r opened reaches (above.of_quiet appends)

/-- The opcodes up to the one at which the walk has its answer. -/
theorem exists_answering {is : List Instruction}
    (found : findFrom files linkAddress none (rowsFrom Instruction.emits header {} is)
      = some position) :
    ∃ front i back, is = front ++ i :: back ∧ i.emits = true ∧
      findFrom files linkAddress none (rowsFrom Instruction.emits header {} front) = none ∧
      ((openBehind (rowsFrom Instruction.emits header {} front)).bind fun r =>
        closeRowAt files linkAddress r ((Registers.after header front).step header i).address)
          = some position := by
  induction is using List.reverseRecOn with
  | nil => cases found
  | append_singleton is i ih =>
      cases early : findFrom files linkAddress none (rowsFrom Instruction.emits header {} is) with
      | some position' =>
          rw [rowsFrom_append, findFrom_append early] at found
          cases found
          obtain ⟨front, j, back, rfl, rest⟩ := ih early
          exact ⟨front, j, back ++ [i], by simp, rest⟩
      | none =>
          rw [rowsFrom_concat] at found
          cases emits : i.emits with
          | false =>
              rw [emits, if_neg Bool.false_ne_true, List.append_nil, early] at found
              cases found
          | true =>
              rw [emits, if_pos rfl, findFrom_concat, early, Option.none_or] at found
              exact ⟨is, i, [], rfl, emits, early, found⟩

/-- An answer of the walk's rows is an answer of the standard's, if not in as many turns. -/
theorem SetsRowAddresses.standard (sets : SetsRowAddresses header files linkAddress c) {n : Nat}
    (found : findFrom files linkAddress none
      (rowsFrom Instruction.emits header {} (program header n header.program c))
        = some position) :
    ∃ m, findFrom files linkAddress none (matrix header m c) = some position := by
  obtain ⟨front, i, back, here, emits, before, closed⟩ := exists_answering found
  obtain ⟨unanswered, alike⟩ := sets.alike here before
  obtain ⟨r, opened, closed⟩ := Option.bind_eq_some_iff.mp closed
  obtain ⟨reaches, above⟩ := reaches_of_closeRowAt closed
  -- The row that is closed is one of the program, as the walk does not close any other here.
  rcases alike with ⟨walk, same⟩ | ⟨walk, -⟩
  swap
  · exact absurd (nextAbove_of_row here emits above) (walk r opened reaches)
  rw [walk] at opened
  rw [opened] at same
  -- The matrix closes it at the next row, wherever that is.
  have answers : ∀ m more row rest, program header m header.program c = front ++ more →
      rowsFrom Instruction.appends header (.after header front) more = row :: rest →
      linkAddress < row.registers.address →
      findFrom files linkAddress none (matrix header m c) = some position := by
    intro m more row rest there rows later
    have split : matrix header m c
        = (rowsFrom Instruction.appends header {} front ++ [row]) ++ rest := by
      rw [matrix, there, rowsFrom_append, ← Registers.after, rows, List.append_assoc]
      rfl
    rw [split]
    apply findFrom_append
    rw [findFrom_concat, unanswered, Option.none_or, same, Option.bind_some]
    exact closeRowAt_of_lt closed later
  rcases emits_cases emits with appends | ⟨address, rfl⟩
  · exact ⟨n, answers n (i :: back) _ _ here (by rw [rowsFrom, if_pos appends]) above⟩
  · obtain ⟨cut, -⟩ := sets n front back address here (not_firstCovering before)
    obtain ⟨m, more, row, rest, there, rows, later⟩ :=
      ((cut r opened reaches).mp above).of_quiet rfl
    exact ⟨m, answers m more row rest there rows later⟩

/-- An answer of the standard's rows is an answer of the walk's. -/
theorem SetsRowAddresses.walked (sets : SetsRowAddresses header files linkAddress c) {n : Nat}
    (found : findFrom files linkAddress none (matrix header n c) = some position) :
    findFrom files linkAddress none
      (rowsFrom Instruction.emits header {} (program header n header.program c))
        = some position := by
  cases walk : findFrom files linkAddress none
      (rowsFrom Instruction.emits header {} (program header n header.program c)) with
  | none =>
      obtain ⟨unanswered, -⟩ := sets.alike (List.append_nil _).symm walk
      rw [← matrix, found] at unanswered
      cases unanswered
  | some position' =>
      obtain ⟨m, other⟩ := sets.standard walk
      -- Of the two programs one begins as the other, so their first answers are the same.
      rw [matrix] at found other
      rcases program_total header header.program c n m with ⟨more, same⟩ | ⟨more, same⟩
      · rw [← same, rowsFrom_append, findFrom_append found] at other
        exact other.symm
      · rw [← same, rowsFrom_append, findFrom_append other] at found
        exact found

end Programs

/-- A line program whose header decodes is inside its section. -/
theorem lineProgram_lt {tables : Tables} {offset : Nat} {decoded : LineHeader × List (List UInt8)}
    {c : Cursor} (decodes : (do seek offset; readLineHeader tables :
      Reader Cursor (LineHeader × List (List UInt8))).run tables.debugLine.cursor
        = .ok (decoded, c)) : offset < tables.debugLine.size := by
  obtain ⟨done, c₁, sought, read⟩ := Reader.run_bind_ok decodes
  rw [seek_run] at sought
  split at sought
  · next inside =>
      cases sought
      refine lt_of_le_of_ne inside fun last => ?_
      obtain ⟨length, c₂, read, -⟩ := Reader.run_bind_ok read
      obtain ⟨unitLength, c₃, read, -⟩ := Reader.run_bind_ok read
      rw [fixed_run, if_pos (by simp [refuses, last, SectionView.cursor, subtract_self])] at read
      cases read
  · cases sought

/-- The answer of `line_position` is that of its walk. -/
theorem linePosition_eq_some_iff {tables : Tables} {unit : CompilationUnit} {fuel : Nat}
    {entries : List (List UInt8)} {c : Cursor} {position : SourcePosition}
    (hasProgram : unit.hasLineProgram = true) (named : unit.files ≠ [])
    (decodes : (do seek unit.lineProgram; readLineHeader tables :
      Reader Cursor (LineHeader × List (List UInt8))).run tables.debugLine.cursor
        = .ok ((header, entries), c)) :
    linePosition tables unit linkAddress fuel = .ok (some position) ↔
      ∃ c', (walk header unit.files linkAddress fuel header.program {}).run c
        = .ok (some position, c') := by
  have inside := lineProgram_lt decodes
  obtain ⟨done, c₁, sought, read⟩ := Reader.run_bind_ok decodes
  have guard : (!unit.hasLineProgram || unit.files.isEmpty ||
      decide (tables.debugLine.size ≤ unit.lineProgram)) = false := by
    simp [hasProgram, named, inside]
  have run : (do
      seek unit.lineProgram
      let decoded ← readLineHeader tables
      walk decoded.1 unit.files linkAddress fuel decoded.1.program {} :
        Reader Cursor (Option SourcePosition)).run tables.debugLine.cursor
      = (walk header unit.files linkAddress fuel header.program {}).run c := by
    rw [Reader.run_bind_eq sought, Reader.run_bind_eq read]
  simp only [linePosition, guard, Bool.false_eq_true, if_false, Reader.attempt]
  rw [run]
  cases found : (walk header unit.files linkAddress fuel header.program {}).run c with
  | error stop => cases stop <;> exact ⟨by rintro ⟨⟩, by rintro ⟨c', ⟨⟩⟩⟩
  | ok pair =>
      obtain ⟨answer, c₂⟩ := pair
      constructor
      · intro same
        have : answer = some position := by
          cases same
          rfl
        exact ⟨c₂, by rw [this]⟩
      · rintro ⟨c', same⟩
        cases same
        rfl

/-- Where the addresses that a program sets are those of its rows, as far as the address asked
for can tell, `line_position` answers what the matrix of the standard says. -/
theorem linePosition_iff {tables : Tables} {unit : CompilationUnit}
    {entries : List (List UInt8)} {c : Cursor} (hasProgram : unit.hasLineProgram = true)
    (decodes : (do seek unit.lineProgram; readLineHeader tables :
      Reader Cursor (LineHeader × List (List UInt8))).run tables.debugLine.cursor
        = .ok ((header, entries), c))
    (single : header.maximumOperations = 1)
    (sets : SetsRowAddresses header unit.files linkAddress c)
    (fits : ∀ n r, FirstCovering unit.files linkAddress (matrix header n c) r →
      r.registers.line < 2 ^ 32 ∧ r.registers.column < 2 ^ 32)
    (position : SourcePosition) :
    (∃ fuel, linePosition tables unit linkAddress fuel = .ok (some position)) ↔
      ∃ fuel, Answers unit.files linkAddress (matrix header fuel c) position := by
  -- Within the bounds of the fields, what is reported is the row itself.
  have exact_ : ∀ n, findFrom unit.files linkAddress none (matrix header n c) = some position ↔
      Answers unit.files linkAddress (matrix header n c) position := by
    intro n
    rw [findFrom_eq_some_iff]
    constructor
    · rintro ⟨r, first, file, hfile, rfl⟩
      obtain ⟨small₁, small₂⟩ := fits n r first
      obtain ⟨i, next, -, -, covers, -⟩ := id first
      have := covers.2.2.2.1
      refine ⟨r, first, hfile, ?_, Nat.mod_eq_of_lt small₂⟩
      simp only [report]
      omega
    · rintro ⟨r, first, hfile, line, column⟩
      obtain ⟨small₁, small₂⟩ := fits n r first
      refine ⟨r, first, position.file, hfile, ?_⟩
      obtain ⟨file, line', column'⟩ := position
      simp only [report, SourcePosition.mk.injEq, true_and]
      simp only at line column
      omega
  by_cases named : unit.files = []
  · constructor
    · rintro ⟨fuel, answered⟩
      simp [linePosition, hasProgram, named] at answered
    · rintro ⟨fuel, r, -, hfile, -⟩
      simp [named] at hfile
  · constructor
    · rintro ⟨fuel, answered⟩
      obtain ⟨c', run⟩ := (linePosition_eq_some_iff hasProgram named decodes).mp answered
      obtain ⟨m, found⟩ := sets.standard (findFrom_of_walk single rfl run)
      exact ⟨m, (exact_ m).mp found⟩
    · rintro ⟨n, answers⟩
      obtain ⟨c', run⟩ := walk_of_findFrom (w := {}) single rfl
        (sets.walked ((exact_ n).mpr answers))
      exact ⟨n + 1, (linePosition_eq_some_iff hasProgram named decodes).mpr ⟨c', run⟩⟩

/-! ## Two programs -/

/-- A program that has ended stays as it is. -/
theorem program_of_length_lt {n m position : Nat} (le : n ≤ m) {c : Cursor}
    (ended : (program header n position c).length < n) :
    program header m position c = program header n position c := by
  induction n generalizing m position c with
  | zero => exact (Nat.not_lt_zero _ ended).elim
  | succ n ih =>
      obtain ⟨m, rfl⟩ : ∃ k, m = k + 1 := ⟨m - 1, by omega⟩
      rw [program_succ] at ended ⊢
      rw [program_succ]
      split
      · next going =>
          rw [if_pos going] at ended
          split
          · next i c' fetched =>
              rw [fetched] at ended
              rw [ih (by omega) (by simpa using ended)]
          · rfl
      · rfl

theorem program_prefix_of_length_lt {n position : Nat} {c : Cursor}
    (ended : (program header n position c).length < n) (m : Nat) :
    program header m position c <+: program header n position c := by
  rcases Nat.le_total m n with le | le
  · exact program_prefix le
  · have same : program header m position c = program header n position c :=
      program_of_length_lt le ended
    exact ⟨[], by rw [same, List.append_nil]⟩

/-- The rows of a program that has ended are all the rows there are. -/
theorem matrix_prefix {header : LineHeader} {n : Nat} {c : Cursor}
    (ended : (program header n header.program c).length < n) (m : Nat) :
    matrix header m c <+: matrix header n c := by
  obtain ⟨more, same⟩ := program_prefix_of_length_lt ended m
  rw [matrix, matrix, ← same, rowsFrom_append]
  exact List.prefix_append _ _

/-- The header of a line program of version 4 with one file, in front of its opcodes. -/
def lineHeaderBytes (opcodes : List UInt8) : List UInt8 :=
  toBytes 4 (31 + opcodes.length) ++ [4, 0] ++ toBytes 4 25 ++ [1, 1, 1, 251, 14, 13] ++
    [0, 1, 1, 1, 1, 0, 0, 0, 1, 0, 0, 1] ++ [0] ++ [97, 0, 0, 0, 0] ++ [0] ++ opcodes

/-- Tables with only a `.debug_line` section. -/
def lineTables (contents : List UInt8) : Tables where
  debugStr := ⟨none, 0⟩
  debugLineStr := ⟨none, 0⟩
  debugStrOffsets := ⟨none, 0⟩
  debugAddr := ⟨none, 0⟩
  debugLine := ⟨some contents, contents.length⟩
  debugRnglists := ⟨none, 0⟩
  debugRanges := ⟨none, 0⟩

def lineUnit : CompilationUnit where
  hasLineProgram := true
  files := [[], [97]]

/-- `DW_LNE_set_address 0x1000`, `DW_LNS_copy`, `DW_LNS_advance_pc 4`, `DW_LNE_end_sequence`. -/
def rowAtOnce : List UInt8 :=
  lineHeaderBytes ([0, 9, 2, 0, 16, 0, 0, 0, 0, 0, 0] ++ [1] ++ [2, 4] ++ [0, 1, 1])

/-- `DW_LNE_set_address 0x1000`, `DW_LNS_advance_pc 4`, `DW_LNS_copy`, `DW_LNS_advance_pc 4`,
`DW_LNE_end_sequence`. -/
def rowLater : List UInt8 :=
  lineHeaderBytes ([0, 9, 2, 0, 16, 0, 0, 0, 0, 0, 0] ++ [2, 4] ++ [1] ++ [2, 4] ++ [0, 1, 1])

/-- What the header of `lineHeaderBytes` decodes to. -/
def lineHeader (contents : List UInt8) : LineHeader where
  standardLengths := standardArray [0, 1, 1, 1, 1, 0, 0, 0, 1, 0, 0, 1]
  program := 35
  stop := contents.length

/-- The cursor behind the header. -/
def lineCursor (contents : List UInt8) : Cursor := ⟨some contents, contents.length, 35⟩

/-- The address that is set is the address of the row. -/
theorem linePosition_iff_rowAtOnce :
    linePosition (lineTables rowAtOnce) lineUnit 0x1001 9 = .ok (some ⟨[97], 1, 0⟩) ∧
      ∀ position,
        (∃ fuel, linePosition (lineTables rowAtOnce) lineUnit 0x1001 fuel = .ok (some position)) ↔
          ∃ fuel, Answers lineUnit.files 0x1001
            (matrix (lineHeader rowAtOnce) fuel (lineCursor rowAtOnce)) position := by
  have whole : program (lineHeader rowAtOnce) 9 35 (lineCursor rowAtOnce)
      = [.setAddress 0x1000, .copy, .advancePc 4, .endSequence] := by decide +kernel
  have every : ∀ n, program (lineHeader rowAtOnce) n 35 (lineCursor rowAtOnce)
      <+: [.setAddress 0x1000, .copy, .advancePc 4, .endSequence] := by
    intro n
    rw [← whole]
    exact program_prefix_of_length_lt (by rw [whole]; decide) n
  have sets : SetsRowAddresses (lineHeader rowAtOnce) lineUnit.files 0x1001
      (lineCursor rowAtOnce) := by
    intro n front back address here _
    have le := every n
    change program (lineHeader rowAtOnce) n 35 (lineCursor rowAtOnce) = _ at here
    rw [here] at le
    have first : front = [] ∧ address = 0x1000 := by
      rcases front with _ | ⟨i₁, _ | ⟨i₂, _ | ⟨i₃, _ | ⟨i₄, front⟩⟩⟩⟩ <;>
        simp [List.cons_prefix_cons] at le
      simpa using le.1
    obtain ⟨rfl, rfl⟩ := first
    refine ⟨fun r opened => absurd opened (Option.not_mem_none r), ?_⟩
    rintro - ⟨m, more, row, rest, there, rows, before⟩
    have le := every m
    change program (lineHeader rowAtOnce) m 35 (lineCursor rowAtOnce) = _ at there
    rw [there, List.nil_append, List.singleton_append, List.cons_prefix_cons] at le
    obtain ⟨tail, split⟩ := le.2
    -- The next row is that of `DW_LNS_copy`, at the address that was set.
    have head : (rowsFrom Instruction.emits (lineHeader rowAtOnce) (.after (lineHeader rowAtOnce)
        ([] ++ [.setAddress 0x1000])) [.copy, .advancePc 4, .endSequence]).head? = some row := by
      rw [← split, rowsFrom_append, rows]
      rfl
    cases head
    exact absurd before (by decide)
  have decodes : (do seek lineUnit.lineProgram; readLineHeader (lineTables rowAtOnce) :
      Reader Cursor (LineHeader × List (List UInt8))).run (lineTables rowAtOnce).debugLine.cursor
        = .ok ((lineHeader rowAtOnce, [[], [97]]), lineCursor rowAtOnce) := by decide +kernel
  refine ⟨by decide +kernel, linePosition_iff rfl decodes rfl sets ?_⟩
  intro n r first
  obtain ⟨i, next, here, -⟩ := first
  have rows : matrix _ n _ <+: matrix (lineHeader rowAtOnce) 9 (lineCursor rowAtOnce) :=
    matrix_prefix (by change (program _ 9 35 _).length < 9; rw [whole]; decide) n
  have small : ∀ row ∈ matrix (lineHeader rowAtOnce) 9 (lineCursor rowAtOnce),
      row.registers.line < 2 ^ 32 ∧ row.registers.column < 2 ^ 32 := by decide +kernel
  exact small r (rows.subset (List.mem_of_getElem? here))

/-- Behind `DW_LNE_set_address` the walk has a row open that the standard does not have: no row
of the matrix covers `0x1001`, and `line_position` answers. -/
theorem linePosition_rowLater :
    (do seek lineUnit.lineProgram; readLineHeader (lineTables rowLater) :
      Reader Cursor (LineHeader × List (List UInt8))).run (lineTables rowLater).debugLine.cursor
        = .ok ((lineHeader rowLater, [[], [97]]), lineCursor rowLater) ∧
      (lineHeader rowLater).maximumOperations = 1 ∧
      linePosition (lineTables rowLater) lineUnit 0x1001 9 = .ok (some ⟨[97], 1, 0⟩) ∧
      ∀ fuel r, ¬ FirstCovering lineUnit.files 0x1001
        (matrix (lineHeader rowLater) fuel (lineCursor rowLater)) r := by
  have whole : program (lineHeader rowLater) 9 35 (lineCursor rowLater)
      = [.setAddress 0x1000, .advancePc 4, .copy, .advancePc 4, .endSequence] := by decide +kernel
  refine ⟨by decide +kernel, rfl, by decide +kernel, ?_⟩
  intro n r first
  obtain ⟨file, named⟩ : ∃ file, lineUnit.files[r.registers.file]? = some file := by
    obtain ⟨i, next, -, -, covers, -⟩ := first
    obtain ⟨file, hfile, -⟩ := covers.2.2.2.2
    exact ⟨file, hfile⟩
  have found := findFrom_eq_some_iff.mpr ⟨r, first, file, named, rfl⟩
  have nothing : findFrom lineUnit.files 0x1001 none
      (matrix (lineHeader rowLater) 9 (lineCursor rowLater)) = none := by decide +kernel
  have rows : matrix _ n _ <+: matrix (lineHeader rowLater) 9 (lineCursor rowLater) :=
    matrix_prefix (by change (program _ 9 35 _).length < 9; rw [whole]; decide) n
  obtain ⟨more, same⟩ := rows
  rw [← same, findFrom_append found] at nothing
  cases nothing

end Fpag.Debug
