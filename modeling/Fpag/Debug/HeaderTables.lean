import Fpag.Debug.Onward
import Fpag.Lib.Turns

/-!
The tables of a line header and what they cost.

`read_line_header` appends an entry to a table in every turn of a loop. Before version 5 a turn
reads a string; from then on it reads a value of each form that the header declares for the table,
and the header says how many turns there are. `bounded_iff` says when every turn takes a byte, so
that neither the turns nor the entries are more than the bytes of the section and one.
-/

namespace Fpag.Debug

open Cursor Reader

/-! ## The header in front of its tables -/

/-- `read_line_header` up to its tables: the widths that they are read with, and the header. -/
def readLineHead (tables : Tables) : Reader Cursor (Tables × LineHeader) := do
  let length ← readUnitLength tables.offsetSize
  let start ← get
  let stop := u64 (start.position + length.1)
  let version ← fixed 2
  Reader.require (2 ≤ version && version ≤ 5)
  let addressSize ← readAddressSize version tables.addressSize
  let headerLength ← fixed length.2
  let c ← get
  Reader.require (headerLength ≤ subtract stop c.position && stop ≤ c.size)
  let minimumInstructionLength ← fixed 1
  let maximumOperations ← readMaximumOperations version
  let _defaultIsStmt ← fixed 1
  let _lineBase ← fixed 1
  let lineRange ← fixed 1
  let opcodeBase ← fixed 1
  Reader.require (minimumInstructionLength ≠ 0 && maximumOperations ≠ 0 && lineRange ≠ 0 &&
    opcodeBase ≠ 0 && opcodeBase ≤ maxStandardOpcodes)
  let lengths ← Reader.repeated (fixed 1) (opcodeBase - 1)
  pure ({ tables with addressSize := addressSize, offsetSize := length.2 },
    { version := version, addressSize := addressSize,
      minimumInstructionLength := minimumInstructionLength,
      maximumOperations := maximumOperations, lineRange := lineRange, opcodeBase := opcodeBase,
      standardLengths := standardArray lengths, program := u64 (c.position + headerLength),
      stop := stop })

theorem readLineHeader_eq (tables : Tables) : readLineHeader tables = (do
      let head ← readLineHead tables
      let files ← readFileTable head.2.version head.1
      pure (head.2, files)) := by
  simp only [readLineHeader, readLineHead, readLineFields, bind_assoc, pure_bind]

/-! ## The loops -/

/-- What a table of version 5 declares: the content and the form of each value of an entry, and how
many entries there are. -/
def readDeclared : Reader Cursor (List (Nat × Nat) × Nat) := do
  let format ← readFormat
  let count ← uleb
  pure (format, count)

/-- A turn of the loop over the directories before version 5, which the empty one ends. -/
def readDirectory : Reader Cursor (Option (List UInt8)) := do
  let directory ← string
  pure (if directory = [] then none else some directory)

/-- A turn of the loop over the files before version 5. -/
def readFile : Reader Cursor (Option FileEntry) := do
  let path ← string
  if path = [] then pure none
  else do
    let directoryIndex ← uleb
    let _timestamp ← uleb
    let _length ← uleb
    pure (some ⟨path, directoryIndex⟩)

theorem readEntries_eq (tables : Tables) : readEntries tables = (do
      let declared ← readDeclared
      Reader.repeated (readEntry tables declared.1 {}) declared.2) := by
  simp only [readEntries, readDeclared, bind_assoc, pure_bind]

theorem readDirectories_eq (fuel : Nat) : readDirectories fuel = gather readDirectory fuel := by
  induction fuel with
  | zero => rfl
  | succ fuel ih =>
      simp only [readDirectories, gather, readDirectory, bind_assoc, pure_bind, ih]
      congr 1
      funext directory
      split <;> rfl

theorem readFiles_eq (fuel : Nat) : readFiles fuel = gather readFile fuel := by
  induction fuel with
  | zero => rfl
  | succ fuel ih =>
      simp only [readFiles, gather, readFile, bind_assoc, ih]
      congr 1
      funext path
      split
      · rfl
      · simp only [bind_assoc, pure_bind]

/-- The turns of the loop over a table of version 5. -/
def entryTurns (tables : Tables) (c : Cursor) : List (Turn Cursor) :=
  match readDeclared.run c with
  | .ok (declared, c') => counted (readEntry tables declared.1 {}) declared.2 c'
  | .error _ => []

/-- The turns of the loop up to the end of a list. -/
def listTurns {α : Type} (m : Reader Cursor (Option α)) (c : Cursor) : List (Turn Cursor) :=
  gathered m (c.size - c.position + 1) c

/-- The turns of both loops of a call of `read_line_header`, at the end of the header in front of
the tables. The second loop is there if the first one gets to its end. -/
def bothTurns (tables : Tables) (version : Nat) (c : Cursor) : List (Turn Cursor) :=
  if 5 ≤ version then
    entryTurns tables c ++ match (readEntries tables).run c with
      | .ok (_, c') => entryTurns tables c'
      | .error _ => []
  else
    listTurns readDirectory c ++ match (do readDirectories (← turns)).run c with
      | .ok (_, c') => listTurns readFile c'
      | .error _ => []

/-- The turns of the loops of `read_line_header` over the tables. -/
def tableTurns (tables : Tables) (c : Cursor) : List (Turn Cursor) :=
  match (readLineHead tables).run c with
  | .ok ((widths, header), c') => bothTurns widths header.version c'
  | .error _ => []

/-- Before version 5 an entry is appended to the files in front of their loop. -/
def firstEntries (tables : Tables) (c : Cursor) : Nat :=
  match (do
      let head ← readLineHead tables
      Reader.require (head.2.version < 5)
      readDirectories (← turns) : Reader Cursor (List (List UInt8))).run c with
  | .ok _ => 1
  | .error _ => 0

/-- The entries that a call appends to the directories and to the files, where it is given a vector
for them; without one it appends those of the directories. -/
def appended (tables : Tables) (c : Cursor) : Nat :=
  (tableTurns tables c).countP (·.entry) + firstEntries tables c

/-- Every turn that ends has taken a byte, and neither the turns nor the entries are more than the
bytes of the section and one. -/
structure Bounded (tables : Tables) (c : Cursor) : Prop where
  progress : Each (fun c c' => c.position < c'.position) (tableTurns tables c)
  turns : (tableTurns tables c).length ≤ c.size + 1
  entries : appended tables c ≤ c.size + 1

/-! ## What the header declares -/

/-- What is declared for the table at the cursor. -/
def declaredAt (c : Cursor) : List (List (Nat × Nat) × Nat) :=
  match readDeclared.run c with
  | .ok (declared, _) => [declared]
  | .error _ => []

/-- What is declared for both tables, the second one if the first one gets to its end. -/
def declaredBoth (tables : Tables) (version : Nat) (c : Cursor) : List (List (Nat × Nat) × Nat) :=
  if 5 ≤ version then
    declaredAt c ++ match (readEntries tables).run c with
      | .ok (_, c') => declaredAt c'
      | .error _ => []
  else []

/-- What is declared for each of the tables that a call of `read_line_header` gets to. -/
def declaredTables (tables : Tables) (c : Cursor) : List (List (Nat × Nat) × Nat) :=
  match (readLineHead tables).run c with
  | .ok ((widths, header), c') => declaredBoth widths header.version c'
  | .error _ => []

/-- The table has no entries, or a value of each of them is written. -/
def Substantial (declared : List (Nat × Nat) × Nat) : Prop :=
  declared.2 = 0 ∨ ∃ value ∈ declared.1, TakesBytes value.2

instance (declared : List (Nat × Nat) × Nat) : Decidable (Substantial declared) :=
  inferInstanceAs (Decidable (_ ∨ _))

section Consumption

variable {tables : Tables} {c : Cursor}

theorem readUnitLength_takes (offsetSize : Nat) : Takes (readUnitLength offsetSize) := by
  refine Takes.bind (fixed_takes 4) fun unitLength => GoesOn.bind (.ite ?_ ?_) fun length =>
    GoesOn.bind (.get Onward.refl) fun c => GoesOn.bind (GoesOn.require _) fun _ => GoesOn.pure _
  · exact GoesOn.bind (fixed_takes 8).goesOn fun _ => GoesOn.pure _
  · exact GoesOn.bind (GoesOn.require _) fun _ => GoesOn.pure _

theorem readAddressSize_goesOn (version addressSize : Nat) :
    GoesOn (readAddressSize version addressSize) := by
  refine .ite ?_ (GoesOn.pure _)
  exact GoesOn.bind (fixed_takes 1).goesOn fun _ => GoesOn.bind (fixed_takes 1).goesOn fun _ =>
    GoesOn.bind (GoesOn.require _) fun _ => GoesOn.pure _

theorem readLineHead_takes : Takes (readLineHead tables) := by
  have byte (n : Nat) : GoesOn (fixed n) := (fixed_takes n).goesOn
  refine Takes.bind (readUnitLength_takes _) fun length =>
    GoesOn.bind (.get Onward.refl) fun start =>
    GoesOn.bind (byte 2) fun version => GoesOn.bind (GoesOn.require _) fun _ =>
      GoesOn.bind (readAddressSize_goesOn _ _) fun addressSize => GoesOn.bind (byte _) fun _ =>
        GoesOn.bind (.get Onward.refl) fun c => GoesOn.bind (GoesOn.require _) fun _ => ?_
  refine GoesOn.bind (byte 1) fun _ => GoesOn.bind (.ite (byte 1) (GoesOn.pure _)) fun _ =>
    GoesOn.bind (byte 1) fun _ => GoesOn.bind (byte 1) fun _ => GoesOn.bind (byte 1) fun _ =>
      GoesOn.bind (byte 1) fun _ => GoesOn.bind (GoesOn.require _) fun _ => ?_
  exact GoesOn.bind (GoesOn.repeated (byte 1) _) fun _ => GoesOn.pure _

theorem readDeclared_goesOn : GoesOn readDeclared := by
  refine GoesOn.bind (GoesOn.bind uleb_takes.goesOn fun _ => GoesOn.bind (GoesOn.require _) fun _ =>
    GoesOn.repeated ?_ _) fun _ => GoesOn.bind uleb_takes.goesOn fun _ => GoesOn.pure _
  exact GoesOn.bind uleb_takes.goesOn fun _ => GoesOn.bind uleb_takes.goesOn fun _ => GoesOn.pure _

theorem readEntry_goesOn (format : List (Nat × Nat)) (entry : FileEntry) :
    GoesOn (readEntry tables format entry) := by
  induction format generalizing entry with
  | nil => exact GoesOn.pure _
  | cons value format ih => exact GoesOn.bind (readForm_goesOn _) fun _ => ih _

/-- An entry takes a byte if one of its values is written. -/
theorem readEntry_takes {format : List (Nat × Nat)}
    (written : ∃ value ∈ format, TakesBytes value.2) (entry : FileEntry) :
    Takes (readEntry tables format entry) := by
  induction format generalizing entry with
  | nil =>
      obtain ⟨value, listed, -⟩ := written
      cases listed
  | cons value format ih =>
      by_cases here : TakesBytes value.2
      · exact Takes.bind (readForm_takes here) fun _ => readEntry_goesOn format _
      · obtain ⟨other, listed, takes⟩ := written
        rcases List.mem_cons.mp listed with rfl | behind
        · exact absurd takes here
        · exact Takes.after (readForm_goesOn _) fun _ => ih ⟨other, behind, takes⟩ _

/-- An entry of which nothing is written leaves the cursor where it is. -/
theorem readEntry_still {format : List (Nat × Nat)}
    (unwritten : ¬ ∃ value ∈ format, TakesBytes value.2) (entry : FileEntry) (c : Cursor) :
    ∃ entry', (readEntry tables format entry).run c = .ok (entry', c) := by
  induction format generalizing entry with
  | nil => exact ⟨entry, rfl⟩
  | cons first format ih =>
      have here : ¬ TakesBytes first.2 := fun takes => unwritten ⟨first, List.mem_cons_self, takes⟩
      obtain ⟨value, run⟩ := @readForm_unwritten tables {} _ here
      obtain ⟨content, form⟩ := first
      rw [readEntry, run_bind_eq (run c)]
      exact ih (fun ⟨other, listed, takes⟩ =>
        unwritten ⟨other, List.mem_cons_of_mem _ listed, takes⟩) _

theorem readDirectory_takes : Takes readDirectory := Takes.bind string_takes fun _ => GoesOn.pure _

theorem readFile_takes : Takes readFile := by
  refine Takes.bind string_takes fun _ => .ite (GoesOn.pure _) ?_
  exact GoesOn.bind uleb_takes.goesOn fun _ => GoesOn.bind uleb_takes.goesOn fun _ =>
    GoesOn.bind uleb_takes.goesOn fun _ => GoesOn.pure _

end Consumption

/-! ## One loop -/

section Loops

variable {tables : Tables} {c : Cursor} {size : Nat}

/-- A sound cursor of a section of the size. -/
def Cursor.In (size : Nat) (c : Cursor) : Prop := c.Sound ∧ c.size = size

theorem Cursor.In.inside (c : Cursor) (within : c.In size) : c.position ≤ size :=
  within.2 ▸ within.1.inside

theorem Cursor.GoesOn.stays {α : Type} {m : Reader Cursor α} (goesOn : GoesOn m) :
    Moves (fun c c' => c.In size → c'.In size) m :=
  goesOn.weaken fun onward within =>
    ⟨(onward within.1).1, (onward within.1).2.1.trans within.2⟩

theorem Cursor.Takes.ahead {α : Type} {m : Reader Cursor α} (takes : Takes m) :
    Moves (fun c c' => c.In size → c.position < c'.position) m :=
  takes.weaken fun beyond within => (beyond within.1).2.2

/-- The turns of a loop over a table of version 5 all take a byte exactly if what is declared for
the table does. -/
theorem entryTurns_progress (within : c.In size) :
    Each (fun c c' => c.position < c'.position) (entryTurns tables c) ↔
      ∀ declared ∈ declaredAt c, Substantial declared := by
  unfold entryTurns declaredAt
  cases run : readDeclared.run c with
  | error stop => exact iff_of_true .nil (fun _ listed => by cases listed)
  | ok pair =>
      obtain ⟨⟨format, count⟩, c₁⟩ := pair
      have within₁ := readDeclared_goesOn.stays c _ c₁ run within
      simp only [List.mem_singleton, forall_eq, Substantial]
      by_cases written : ∃ value ∈ format, TakesBytes value.2
      · refine iff_of_true ?_ (.inr written)
        exact counted_each within₁ (readEntry_goesOn format {}).stays
          (readEntry_takes written {}).ahead
      · rw [or_iff_left written]
        constructor
        · intro each
          by_contra some_
          obtain ⟨n, rfl⟩ := Nat.exists_eq_succ_of_ne_zero some_
          obtain ⟨entry, still⟩ := @readEntry_still tables format written {} c₁
          simp only [counted, still] at each
          exact absurd ((each_cons.mp each).1 c₁ rfl) (Nat.lt_irrefl _)
        · rintro rfl
          exact .nil

/-- Such a loop has no more turns than the section has bytes from the cursor on, and one. -/
theorem entryTurns_length_le (within : c.In size)
    (each : Each (fun c c' => c.position < c'.position) (entryTurns tables c)) :
    c.position + (entryTurns tables c).length ≤ size + 1 ∧
      ∀ entries c', (readEntries tables).run c = .ok (entries, c') →
        c'.In size ∧ c.position + (entryTurns tables c).length ≤ c'.position := by
  unfold entryTurns at each ⊢
  rw [readEntries_eq]
  cases run : readDeclared.run c with
  | error stop =>
      refine ⟨(within.inside c).trans (Nat.le_succ _), fun entries c' whole => ?_⟩
      rw [run_bind_error run] at whole
      cases whole
  | ok pair =>
      obtain ⟨⟨format, count⟩, c₁⟩ := pair
      obtain ⟨sound₁, size₁, position₁⟩ := readDeclared_goesOn c _ c₁ run within.1
      rw [run] at each
      obtain ⟨bound, whole⟩ := counted_length_le (m := readEntry tables format {}) (n := count)
        ⟨sound₁, size₁.trans within.2⟩ Cursor.In.inside (readEntry_goesOn format {}).stays each
      refine ⟨(Nat.add_le_add_right position₁ _).trans bound, fun entries c' all => ?_⟩
      rw [run_bind_eq run] at all
      obtain ⟨within', ahead⟩ := whole entries c' all
      exact ⟨within', (Nat.add_le_add_right position₁ _).trans ahead⟩

/-- A loop up to the end of a list has no more turns either. -/
theorem listTurns_length_le {α : Type} {m : Reader Cursor (Option α)} (takes : Takes m)
    (within : c.In size) :
    Each (fun c c' => c.position < c'.position) (listTurns m c) ∧
      c.position + (listTurns m c).length ≤ size + 1 ∧
      ∀ xs c', (gather m (c.size - c.position + 1)).run c = .ok (xs, c') →
        c'.In size ∧ c.position + (listTurns m c).length ≤ c'.position := by
  have each : Each (fun c c' => c.position < c'.position) (listTurns m c) :=
    gathered_each within takes.goesOn.stays takes.ahead
  exact ⟨each, gathered_length_le within Cursor.In.inside takes.goesOn.stays each⟩

end Loops

/-! ## Both loops -/

section Both

variable {tables : Tables} {c : Cursor} {size version : Nat}

theorem readEntries_stays : Moves (fun c c' => c.In size → c'.In size) (readEntries tables) := by
  rw [readEntries_eq]
  exact GoesOn.stays (GoesOn.bind readDeclared_goesOn fun declared =>
    GoesOn.repeated (readEntry_goesOn declared.1 {}) _)

theorem readDirectories_run (c : Cursor) : (do readDirectories (← turns)).run c =
    (gather readDirectory (c.size - c.position + 1)).run c := by
  rw [run_bind_eq (turns_run c), readDirectories_eq]

theorem bothTurns_progress (within : c.In size) :
    Each (fun c c' => c.position < c'.position) (bothTurns tables version c) ↔
      ∀ declared ∈ declaredBoth tables version c, Substantial declared := by
  unfold bothTurns declaredBoth
  by_cases modern : 5 ≤ version
  · rw [if_pos modern, if_pos modern, each_append, entryTurns_progress within,
      List.forall_mem_append]
    refine and_congr_right fun _ => ?_
    cases run : (readEntries tables).run c with
    | error stop => exact iff_of_true .nil (fun _ listed => by cases listed)
    | ok pair => exact entryTurns_progress (readEntries_stays c _ _ run within)
  · rw [if_neg modern, if_neg modern, readDirectories_run]
    obtain ⟨each, -, ended⟩ := listTurns_length_le readDirectory_takes within
    refine iff_of_true (each_append.mpr ⟨each, ?_⟩) (fun _ listed => by cases listed)
    cases run : (gather readDirectory (c.size - c.position + 1)).run c with
    | error stop => exact .nil
    | ok pair => exact (listTurns_length_le readFile_takes (ended _ _ run).1).1

theorem bothTurns_length_le (within : c.In size)
    (each : Each (fun c c' => c.position < c'.position) (bothTurns tables version c)) :
    c.position + (bothTurns tables version c).length ≤ size + 1 := by
  unfold bothTurns at each ⊢
  by_cases modern : 5 ≤ version
  · rw [if_pos modern] at each ⊢
    obtain ⟨first, second⟩ := each_append.mp each
    obtain ⟨bound, ended⟩ := entryTurns_length_le within first
    rw [List.length_append]
    cases run : (readEntries tables).run c with
    | error stop => exact bound
    | ok pair =>
        rw [run] at second
        obtain ⟨within', ahead⟩ := ended _ _ run
        have rest := (entryTurns_length_le within' second).1
        simp only
        omega
  · rw [if_neg modern, readDirectories_run]
    obtain ⟨-, bound, ended⟩ := listTurns_length_le readDirectory_takes within
    rw [List.length_append]
    cases run : (gather readDirectory (c.size - c.position + 1)).run c with
    | error stop => exact bound
    | ok pair =>
        obtain ⟨within', ahead⟩ := ended _ _ run
        have rest := (listTurns_length_le readFile_takes within').2.1
        simp only
        omega

end Both

/-! ## The turns and the reader -/

section Reading

variable {tables : Tables} {c c' : Cursor}

/-- The entries that are counted are at least the files that the reader gives. -/
theorem readFileTable_length_le {version : Nat} {files : List (List UInt8)}
    (run : (readFileTable version tables).run c = .ok (files, c')) :
    files.length ≤ (bothTurns tables version c).countP (·.entry) +
      if version < 5 then 1 else 0 := by
  unfold readFileTable at run
  unfold bothTurns
  by_cases modern : 5 ≤ version
  · rw [if_pos modern] at run
    obtain ⟨directories, c₁, first, run⟩ := run_bind_ok run
    obtain ⟨entries, c₂, second, run⟩ := run_bind_ok run
    cases run
    rw [readEntries_eq] at second
    obtain ⟨declared, c₃, head, loop⟩ := run_bind_ok second
    have turns : entryTurns tables c₁ = counted (readEntry tables declared.1 {}) declared.2 c₃ := by
      rw [entryTurns, head]
    simp only [if_pos modern, first]
    rw [turns, List.countP_append, (counted_of_run loop).2, List.length_map]
    omega
  · rw [if_neg modern] at run
    have old : version < 5 := Nat.not_le.mp modern
    obtain ⟨fuel, c₀, left, run⟩ := run_bind_ok run
    cases left
    obtain ⟨directories, c₁, first, run⟩ := run_bind_ok run
    obtain ⟨fuel', c₂, left, run⟩ := run_bind_ok run
    cases left
    obtain ⟨entries, c₃, second, run⟩ := run_bind_ok run
    cases run
    rw [readFiles_eq] at second
    have ran : (do readDirectories (← turns)).run c = .ok (directories, _) := first
    simp only [if_neg modern, ran, if_pos old]
    rw [List.countP_append, listTurns, listTurns, gathered_of_run second, List.length_cons,
      List.length_map]
    omega

theorem readLineHeader_length_le {header : LineHeader} {files : List (List UInt8)}
    (run : (readLineHeader tables).run c = .ok ((header, files), c')) :
    files.length ≤ appended tables c := by
  rw [readLineHeader_eq] at run
  obtain ⟨⟨widths, head⟩, c₁, first, run⟩ := run_bind_ok run
  obtain ⟨files', c₂, second, run⟩ := run_bind_ok run
  cases run
  have counts := readFileTable_length_le second
  have loops : tableTurns tables c = bothTurns widths head.version c₁ := by
    rw [tableTurns, first]
  rw [appended, loops]
  refine counts.trans (Nat.add_le_add_left ?_ _)
  split
  · next old =>
      rw [readFileTable, if_neg (Nat.not_le.mpr old)] at second
      obtain ⟨fuel, c₃, left, second⟩ := run_bind_ok second
      obtain ⟨directories, c₄, listed, -⟩ := run_bind_ok second
      cases left
      have ran : (do
          let head ← readLineHead tables
          Reader.require (head.2.version < 5)
          readDirectories (← turns) : Reader Cursor (List (List UInt8))).run c =
          .ok (directories, c₄) := by
        rw [run_bind_eq first, run_require_bind (decide_eq_true old)]
        exact listed
      rw [firstEntries, ran]
  · exact Nat.zero_le _

theorem readAddressSize_halts (version addressSize : Nat) :
    Halts (readAddressSize version addressSize) := by
  refine .ite ?_ (.pure _)
  exact .bind (fixed_halts 1) fun _ => .bind (fixed_halts 1) fun _ => .bind (.require _) fun _ =>
    .pure _

theorem readLineHead_halts : Halts (readLineHead tables) := by
  refine .bind ?_ fun length => .bind .get fun start => .bind (fixed_halts 2) fun version =>
    .bind (.require _) fun _ => .bind (readAddressSize_halts _ _) fun _ => .bind (fixed_halts _)
      fun _ => .bind .get fun c => .bind (.require _) fun _ => ?_
  · refine .bind (fixed_halts 4) fun _ => .bind (.ite ?_ ?_) fun _ => .bind .get fun _ =>
      .bind (.require _) fun _ => .pure _
    · exact .bind (fixed_halts 8) fun _ => .pure _
    · exact .bind (.require _) fun _ => .pure _
  · refine .bind (fixed_halts 1) fun _ => .bind (.ite (fixed_halts 1) (.pure _)) fun _ =>
      .bind (fixed_halts 1) fun _ => .bind (fixed_halts 1) fun _ => .bind (fixed_halts 1) fun _ =>
        .bind (fixed_halts 1) fun _ => .bind (.require _) fun _ => ?_
    exact .bind (.repeated (fixed_halts 1) _) fun _ => .pure _

theorem readDeclared_halts : Halts readDeclared := by
  refine .bind (.bind uleb_halts fun _ => .bind (.require _) fun _ => .repeated ?_ _) fun _ =>
    .bind uleb_halts fun _ => .pure _
  exact .bind uleb_halts fun _ => .bind uleb_halts fun _ => .pure _

theorem readEntry_ends (format : List (Nat × Nat)) (entry : FileEntry) :
    Ends (readEntry tables format entry) := by
  induction format generalizing entry with
  | nil => exact (Halts.pure _).on
  | cons value format ih => exact .next (readForm_ends _) (readForm_goesOn _) fun _ => ih _

theorem readEntries_ends : Ends (readEntries tables) := by
  rw [readEntries_eq]
  exact .next readDeclared_halts.on readDeclared_goesOn fun declared =>
    .repeated (readEntry_ends _ _) (readEntry_goesOn _ _).sound _

theorem listTurns_ends {α : Type} {m : Reader Cursor (Option α)} (takes : Takes m) (halts : Halts m)
    {c : Cursor} (sound : c.Sound) :
    (gather m (c.size - c.position + 1)).run c ≠ .error .running :=
  @gather_ends Cursor α (Cursor.In c.size) Cursor.position c.size m _ c
    ⟨sound, rfl⟩ Cursor.In.inside
    halts.on takes.goesOn.stays takes.ahead (Nat.lt_succ_self _)

theorem readFileTable_ends (version : Nat) : Ends (readFileTable version tables) := by
  refine .ite ?_ ?_
  · have entries : GoesOn (readEntries tables) := by
      rw [readEntries_eq]
      exact GoesOn.bind readDeclared_goesOn fun _ => GoesOn.repeated (readEntry_goesOn _ _) _
    exact Ends.next readEntries_ends entries fun _ => HaltsOn.map readEntries_ends _
  · intro c sound
    have path : Halts readFile := .bind string_halts fun _ => .ite (.pure _)
      (.bind uleb_halts fun _ => .bind uleb_halts fun _ => .bind uleb_halts fun _ => .pure _)
    have ends := listTurns_ends readDirectory_takes (.bind string_halts fun _ => .pure _) sound
    obtain ⟨-, -, ended⟩ := listTurns_length_le readDirectory_takes ⟨sound, rfl⟩
    rw [readLegacyTables, run_bind_eq (turns_run c), readDirectories_eq]
    cases first : (gather readDirectory (c.size - c.position + 1)).run c with
    | error stop =>
        rw [run_bind_error first]
        rintro ⟨⟩
        exact ends first
    | ok pair =>
        obtain ⟨directories, c₁⟩ := pair
        have sound₁ := (ended _ _ first).1.1
        rw [run_bind_eq first, run_bind_eq (turns_run c₁), readFiles_eq]
        have ends := listTurns_ends readFile_takes path sound₁
        cases second : (gather readFile (c₁.size - c₁.position + 1)).run c₁ with
        | error stop =>
            rw [run_bind_error second]
            rintro ⟨⟩
            exact ends second
        | ok pair =>
            rw [run_bind_eq second]
            rintro ⟨⟩

/-- The reader of a header comes to an end. -/
theorem readLineHeader_ends : Ends (readLineHeader tables) := by
  rw [readLineHeader_eq]
  exact .next readLineHead_halts.on readLineHead_takes.goesOn fun head =>
    HaltsOn.map (readFileTable_ends _) _

end Reading

/-- Every turn of the loops takes a byte, and there are no more of them or of the entries than the
section has bytes and one, exactly if every table that is got to is empty or has a value of each
entry written. -/
theorem bounded_iff (tables : Tables) {c : Cursor} (sound : c.Sound) :
    Bounded tables c ↔ ∀ declared ∈ declaredTables tables c, Substantial declared := by
  have progress : Each (fun c c' => c.position < c'.position) (tableTurns tables c) ↔
      ∀ declared ∈ declaredTables tables c, Substantial declared := by
    unfold tableTurns declaredTables
    cases run : (readLineHead tables).run c with
    | error stop => exact iff_of_true .nil (fun _ listed => by cases listed)
    | ok pair =>
        obtain ⟨⟨widths, header⟩, c'⟩ := pair
        exact bothTurns_progress (readLineHead_takes.goesOn.stays c _ c' run ⟨sound, rfl⟩)
  refine ⟨fun bounded => progress.mp bounded.progress, fun substantial => ?_⟩
  have each := progress.mpr substantial
  have few : (tableTurns tables c).length ≤ c.size := by
    unfold tableTurns at each ⊢
    cases run : (readLineHead tables).run c with
    | error stop => exact Nat.zero_le _
    | ok pair =>
        obtain ⟨⟨widths, header⟩, c'⟩ := pair
        rw [run] at each
        obtain ⟨sound', size, ahead⟩ := readLineHead_takes c _ c' run sound
        have := bothTurns_length_le ⟨sound', size⟩ each
        simp only at this ⊢
        omega
  refine ⟨each, few.trans (Nat.le_succ _), ?_⟩
  have entries : (tableTurns tables c).countP (·.entry) ≤ (tableTurns tables c).length :=
    List.countP_le_length
  have first : firstEntries tables c ≤ 1 := by
    unfold firstEntries
    split <;> decide
  rw [appended]
  omega

/-- The header of a program of version 5 without standard opcodes, up to its tables. -/
def headBytes (tables : List UInt8) : List UInt8 :=
  toBytes 4 (14 + tables.length) ++ (toBytes 2 5 ++ ([8, 0] ++ (toBytes 4 0 ++
    ([1, 1, 1, 0xFB, 14, 1] ++ tables))))

/-- A directory and a file, both with a path, the file with the index of the directory. -/
def fewTables : List UInt8 := [1, 1, 8, 1, 0x2F, 0, 2, 1, 8, 2, 0x0B, 1, 0x61, 0, 0]

def headCursor (tables : List UInt8) : Cursor := ⟨some (headBytes tables), 18 + tables.length, 0⟩

/-- An empty format, and as many directories as a `u64` can count. -/
def endlessTables : List UInt8 := 0 :: (List.replicate 9 0xFF ++ [1])

def noSections : Tables :=
  let empty : SectionView := ⟨none, 0⟩
  ⟨empty, empty, empty, empty, empty, empty, empty, [], 0, 0, 8, 4⟩

theorem headCursor_sound {tables : List UInt8} (small : tables.length < 2 ^ 32) :
    (headCursor tables).Sound where
  backed := .inr ⟨_, rfl, by
    simp only [headBytes, headCursor, List.length_append, length_toBytes, List.length_cons,
      List.length_nil]
    omega⟩
  small := by
    simp only [headCursor]
    omega
  inside := Nat.zero_le _

theorem bounded_iff_fewTables :
    (∀ declared ∈ declaredTables noSections (headCursor fewTables), Substantial declared) ∧
      Bounded noSections (headCursor fewTables) := by
  have substantial : ∀ declared ∈ declaredTables noSections (headCursor fewTables),
      Substantial declared := by decide +kernel
  exact ⟨substantial, (bounded_iff noSections (headCursor_sound (by decide))).mpr substantial⟩

/-- A header of 29 bytes whose first table alone has `2 ^ 64 - 1` turns. -/
theorem not_bounded_endlessTables : (headCursor endlessTables).Sound ∧
    2 ^ 64 - 1 ≤ (tableTurns noSections (headCursor endlessTables)).length ∧
    2 ^ 64 - 1 ≤ appended noSections (headCursor endlessTables) ∧
    ¬ Bounded noSections (headCursor endlessTables) := by
  have head : ∃ widths header, (readLineHead noSections).run (headCursor endlessTables) =
      .ok ((widths, header), (headCursor endlessTables).advance 18) ∧ header.version = 5 :=
    ⟨_, _, rfl, rfl⟩
  have declared : readDeclared.run ((headCursor endlessTables).advance 18) =
      .ok (([], 2 ^ 64 - 1), (headCursor endlessTables).advance 29) := by decide +kernel
  obtain ⟨widths, header, read, version⟩ := head
  have still := @readEntry_still widths [] (by simp) {}
  have counts :=
    counted_of_still (n := 2 ^ 64 - 1) (c := (headCursor endlessTables).advance 29) still
  have first : entryTurns widths ((headCursor endlessTables).advance 18) =
      counted (readEntry widths [] {}) (2 ^ 64 - 1) ((headCursor endlessTables).advance 29) := by
    rw [entryTurns, declared]
  rw [← first] at counts
  have all : ∃ others, tableTurns noSections (headCursor endlessTables) =
      entryTurns widths ((headCursor endlessTables).advance 18) ++ others := by
    rw [tableTurns, read]
    simp only [version, bothTurns]
    exact ⟨_, if_pos (by decide)⟩
  obtain ⟨others, all⟩ := all
  have turns : 2 ^ 64 - 1 ≤ (tableTurns noSections (headCursor endlessTables)).length := by
    rw [all, List.length_append, counts.1]
    exact Nat.le_add_right _ _
  have entries : 2 ^ 64 - 1 ≤ appended noSections (headCursor endlessTables) := by
    rw [appended, all, List.countP_append, counts.2, Nat.add_assoc]
    exact Nat.le_add_right _ _
  refine ⟨headCursor_sound (by decide), turns, entries, fun bounded => ?_⟩
  have few := turns.trans bounded.turns
  have size : (headCursor endlessTables).size = 29 := rfl
  omega

end Fpag.Debug
