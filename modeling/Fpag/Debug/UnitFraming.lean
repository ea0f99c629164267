import Fpag.Debug.LineEncoding
import Fpag.Debug.Module
import Fpag.Debug.Tracks

/-!
The units of `.debug_info`, each behind its length.

`Module::read_compilation_units` goes from one unit to the next by their lengths, so it comes to
every unit, whatever is in the others. `read_unit` however reads with a cursor that the section
bounds and not the unit: where a unit is shorter than the fields that it declares, the rest of
them is taken from its neighbour. `units_independent` says that the units are read as on their
own where their bytes hold what they declare.
-/

namespace Fpag.Debug

open Cursor Reader

/-! ## Framed units -/

/-- The bytes behind the length of a unit, and whether it is in the 64-bit format. -/
structure FramedUnit : Type where
  wide : Bool
  body : List UInt8
  small : body.length < if wide then 2 ^ 64 else reservedUnitLength

namespace FramedUnit

/-- The length in front of the unit. -/
def frame (unit : FramedUnit) : List UInt8 := frameBytes unit.wide unit.body.length

def encode (unit : FramedUnit) : List UInt8 := unit.frame ++ unit.body

/-- The tables with the width that the unit has for an offset. -/
def tables (unit : FramedUnit) (tables : Tables) : Tables :=
  { tables with offsetSize := if unit.wide then 8 else tables.offsetSize }

theorem frame_pos (unit : FramedUnit) : 0 < unit.frame.length := by
  unfold frame frameBytes
  split <;> simp [length_toBytes]

variable {unit : FramedUnit} {c : Cursor} {rest : List UInt8}

/-- `read_unit` at a framed unit reads its contents, and finds the unit behind it. -/
theorem readUnit_run {abbrevs : SectionView} {all : Tables} (ahead : c.Over (unit.encode ++ rest)) :
    (readUnit abbrevs all).run c =
      ((readUnitContents abbrevs (unit.tables all)).run (c.advance unit.frame.length)).map
        fun read => ((read.1, c.position + unit.encode.length), read.2) := by
  have small := ahead.small
  have inside := ahead.position_add
  rw [List.length_append] at inside
  have next : u64 ((c.advance unit.frame.length).position + unit.body.length) =
      c.position + unit.encode.length := by
    rw [Cursor.advance, Nat.add_assoc, ← List.length_append, ← encode, u64_eq (by omega)]
  rw [encode, List.append_assoc] at ahead
  rw [readUnit, run_bind_eq (readUnitLength_frame unit.small ahead all.offsetSize)]
  change ((readUnitContents abbrevs (unit.tables all)) >>= fun u => pure (u, u64
    ((c.advance unit.frame.length).position + unit.body.length))).run (c.advance unit.frame.length)
      = _
  rw [next]
  cases contents :
      (readUnitContents abbrevs (unit.tables all)).run (c.advance unit.frame.length) with
  | error stop => exact run_bind_error contents
  | ok pair => exact run_bind_eq contents

end FramedUnit

/-! ## Units that hold what they declare -/

/-- The code of the root entry. -/
def rootCode : Reader Cursor Nat := do
  let code ← uleb
  Reader.require (code ≠ 0)
  pure code

/-- The version of a unit. -/
def unitVersion : Reader Cursor Nat := do
  let version ← fixed 2
  Reader.require (2 ≤ version && version ≤ 5)
  pure version

/-- The bytes hold the values of the attributes, up to one that is refused in any case. -/
def EntryHolds (tables : Tables) : List AbbreviationAttribute → List UInt8 → Prop
  | [], _ => True
  | declared :: attributes, bytes =>
      Holds (readForm tables declared declared.form) bytes fun _ left =>
        EntryHolds tables attributes left

/-- The bytes hold the root entry, with the attributes that its abbreviation declares. -/
def RootHolds (abbrevs : SectionView) (tables : Tables) (abbrevOffset : Nat) (bytes : List UInt8) :
    Prop :=
  Holds rootCode bytes fun code left => ∀ declaration, Reader.attempt (do
      seek abbrevOffset
      readAbbreviation code) abbrevs.cursor = .ok (some declaration) →
    declaration.tag = dwTagCompileUnit → EntryHolds tables declaration.attributes left

/-- The bytes hold what follows the version of a unit. -/
def BodyHolds (abbrevs : SectionView) (tables : Tables) (version : Nat) (bytes : List UInt8) :
    Prop :=
  if 5 ≤ version then
    Holds (fixed 1) bytes fun unitType left =>
      Holds (fixed 1) left fun addressSize left =>
        unitType = dwUtCompile → Holds (fixed tables.offsetSize) left fun abbrevOffset left =>
          RootHolds abbrevs { tables with addressSize := addressSize } abbrevOffset left
  else
    Holds (fixed tables.offsetSize) bytes fun abbrevOffset left =>
      Holds (fixed 1) left fun addressSize left =>
        RootHolds abbrevs { tables with addressSize := addressSize } abbrevOffset left

/-- The bytes of the unit hold the fields of its header, the code of its root entry and the values
of the attributes that the abbreviation declares. -/
def FramedUnit.HoldsFields (abbrevs : SectionView) (tables : Tables) (unit : FramedUnit) : Prop :=
  Holds unitVersion unit.body fun version left =>
    BodyHolds abbrevs (unit.tables tables) version left

section Contents

variable {abbrevs : SectionView} {tables : Tables} {bytes rest : List UInt8}

theorem readFound_tracks {attributes : List AbbreviationAttribute}
    (holds : rest = [] ∨ EntryHolds tables attributes bytes) (found : List Found) :
    Tracks False 0 (readFound tables attributes found) (readFound tables attributes found) bytes
      rest := by
  induction attributes generalizing bytes found with
  | nil => exact .pure found
  | cons declared attributes ih =>
      exact .orElse (fun _ => readForm_tracks declared declared.form) holds
        fun value _ _ holds => ih holds (track found declared value)

theorem rootCode_settles : Settles 0 rootCode bytes :=
  (Settles.bind .uleb fun _ _ => .bind (.require _) fun _ _ => .pure _).weaken

theorem unitVersion_settles : Settles 0 unitVersion bytes :=
  (Settles.bind (.fixed 2) fun _ _ => .bind (.require _) fun _ _ => .pure _).weaken

theorem readRoot_tracks {abbrevOffset : Nat} (version : Nat)
    (holds : rest = [] ∨ RootHolds abbrevs tables abbrevOffset bytes) :
    Tracks False 0 (readRoot abbrevs tables version abbrevOffset)
      (readRoot abbrevs tables version abbrevOffset) bytes rest := by
  refine .orElse (fun _ => .ofSettles rootCode_settles) holds fun code used _ holds =>
    .ofExcept_bind ?_
  rintro (_ | declaration) declared
  · exact .pure _
  · refine .ite (fun _ => .pure _) fun tag => ?_
    rw [not_not] at tag
    exact .bind (readFound_tracks (holds.imp_right fun holds => holds declaration declared tag) [])
      fun found _ _ _ => .ofExcept _

theorem readUnitBody_tracks {version : Nat}
    (holds : rest = [] ∨ BodyHolds abbrevs tables version bytes) :
    Tracks False 0 (readUnitBody abbrevs tables version) (readUnitBody abbrevs tables version) bytes
      rest := by
  have number (n : Nat) {bytes : List UInt8} (more : List UInt8) :
      Tracks (more ≠ []) 0 (fixed n) (fixed n) bytes more :=
    .ofSettles (Settles.fixed n).weaken
  unfold readUnitBody
  unfold BodyHolds at holds
  by_cases five : 5 ≤ version
  · rw [if_pos five] at holds ⊢
    refine .orElse (number 1) holds fun unitType _ _ holds => ?_
    refine .orElse (number 1) holds fun addressSize _ _ holds => ?_
    refine .ite (fun _ => .pure _) fun compile => ?_
    rw [not_not] at compile
    exact .orElse (number _) (holds.imp_right fun holds => holds compile)
      fun abbrevOffset _ _ holds => readRoot_tracks version holds
  · rw [if_neg five] at holds ⊢
    refine .orElse (number _) holds fun abbrevOffset _ _ holds => ?_
    exact .orElse (number 1) holds fun addressSize _ _ holds => readRoot_tracks version holds

theorem readUnitContents_tracks
    (holds : rest = [] ∨ Holds unitVersion bytes fun version left =>
      BodyHolds abbrevs tables version left) :
    Tracks False 0 (readUnitContents abbrevs tables) (readUnitContents abbrevs tables) bytes rest :=
  .orElse (fun _ => .ofSettles unitVersion_settles) holds fun _ _ _ holds =>
    readUnitBody_tracks holds

end Contents

/-! ## No unit is refused -/

section Answers

variable {tables : Tables}

theorem scan_answered (n : Nat) (bytes : List UInt8) : Answered (scan n bytes) := by
  induction bytes generalizing n with
  | nil => cases n <;> rintro ⟨⟩
  | cons byte bytes ih =>
      cases n with
      | zero => rintro ⟨⟩
      | succ n =>
          refine .ite (.ok _) ?_
          have found := ih n
          cases scanned : scan n bytes with
          | error stop =>
              rw [scanned] at found
              rintro ⟨⟩
              exact found rfl
          | ok text => rintro ⟨⟩

theorem stringAt_answered (view : SectionView) (offset : Nat) :
    Answered (view.stringAt offset) := by
  refine .ite (.ok _) ?_
  unfold scanAt
  split
  · rintro ⟨⟩
  · exact scan_answered _ _

theorem indexedOffset_answered (table : SectionView) (base index entrySize : Nat) :
    Answered (indexedOffset table base index entrySize) :=
  .ite (.ok _) (.bind (.attempt _ _) fun _ => .ok _)

theorem indexedString_answered (index : Nat) : Answered (indexedString tables index) :=
  .ite (.ok _) (.bind (indexedOffset_answered _ _ _ _) fun _ =>
    .ite (stringAt_answered _ _) (.ok _))

theorem indexedAddress_answered (index : Nat) : Answered (indexedAddress tables index) :=
  .ite (.ok _) (.attempt _ _)

theorem resolveText_answered (found : Option Found) : Answered (resolveText tables found) := by
  cases found with
  | none => exact .ok _
  | some found => exact .ite (indexedString_answered _) (.ok _)

theorem resolveLow_answered (found : List Found) (unit : CompilationUnit) :
    Answered (resolveLow tables found unit) := by
  unfold resolveLow
  split
  · exact .ok _
  · exact .ite (.bind (indexedAddress_answered _) fun _ => .ok _) (.ok _)

theorem resolveHigh_answered (found : List Found) (unit : CompilationUnit) :
    Answered (resolveHigh tables found unit) := by
  unfold resolveHigh
  split
  · exact .ok _
  · exact .ite (.bind (indexedAddress_answered _) fun _ => .ok _) (.ok _)

theorem resolveRanges_answered (version : Nat) (found : List Found) (unit : CompilationUnit) :
    Answered (resolveRanges tables version found unit) := by
  unfold resolveRanges
  split
  · exact .ok _
  · exact .ite (.bind (indexedOffset_answered _ _ _ _) fun _ => .ok _) (.ok _)

theorem resolveLines_answered (version : Nat) (found : List Found) (unit : CompilationUnit) :
    Answered (resolveLines tables version found unit) := by
  unfold resolveLines
  split
  · exact .ok _
  · refine .ite (.ok _) (.bind (resolveText_answered _) fun name => ?_)
    exact .bind (resolveText_answered _) fun directory => .bind (.attempt _ _) fun decoded => .ok _

theorem resolveUnit_answered (version : Nat) (found : List Found) :
    Answered (resolveUnit tables version found) := by
  refine .bind (resolveLow_answered _ _) fun low =>
    .ite (.bind (resolveHigh_answered _ _) ?_) (.ok _)
  intro high
  exact .ite (.bind (resolveRanges_answered _ _ _) fun _ => resolveLines_answered _ _ _) (.ok _)

theorem readFound_answers (attributes : List AbbreviationAttribute) (found : List Found) :
    Reader.Answers (readFound tables attributes found) := by
  induction attributes generalizing found with
  | nil => exact .pure found
  | cons declared attributes ih => exact .orElse fun value => ih _

theorem readRoot_answers (abbrevs : SectionView) (version abbrevOffset : Nat) :
    Reader.Answers (readRoot abbrevs tables version abbrevOffset) := by
  refine .orElse fun code => .bind (.ofExcept (.attempt _ _)) ?_
  rintro (_ | declaration)
  · exact .pure _
  · exact .ite (.pure _) (.bind (readFound_answers _ _) fun found =>
      .ofExcept (resolveUnit_answered version found))

theorem readUnitContents_answers (abbrevs : SectionView) :
    Reader.Answers (readUnitContents abbrevs tables) := by
  refine .orElse fun version => .ite ?_ ?_
  · exact .orElse fun unitType => .orElse fun addressSize => .ite (.pure _)
      (.orElse fun abbrevOffset => readRoot_answers abbrevs version abbrevOffset)
  · exact .orElse fun abbrevOffset => .orElse fun addressSize =>
      readRoot_answers abbrevs version abbrevOffset

end Answers

/-! ## The walk -/

/-- The unit as `read_compilation_units` keeps it, if it does. -/
def keep (read : Option (CompilationUnit × Nat)) : List CompilationUnit :=
  (read.map Prod.fst).toList.filter (·.hasLineProgram)

theorem keep_some (unit : CompilationUnit) (next : Nat) :
    keep (some (unit, next)) = if unit.hasLineProgram then [unit] else [] := by
  unfold keep
  cases kept : unit.hasLineProgram <;> simp [kept]

/-- What is recorded of the units where `read_unit` is given these bytes for each of them. -/
def recordedOver (abbrevs : SectionView) (tables : Tables)
    (bytes : FramedUnit → List FramedUnit → List UInt8) :
    List FramedUnit → Except Stop (List CompilationUnit)
  | [] => .ok []
  | unit :: units => do
      let kept ← (Reader.attempt (readUnit abbrevs tables) (whole (bytes unit units))).map keep
      let others ← recordedOver abbrevs tables bytes units
      pure (kept ++ others)

/-- The bytes of `.debug_info` with these units. -/
def infoBytes (units : List FramedUnit) : List UInt8 := units.flatMap FramedUnit.encode

/-- Each unit is read with the ones that follow it. -/
def recordedBefore (abbrevs : SectionView) (tables : Tables) :
    List FramedUnit → Except Stop (List CompilationUnit) :=
  recordedOver abbrevs tables fun unit units => unit.encode ++ infoBytes units

/-- Each unit is read alone. -/
def recordedAlone (abbrevs : SectionView) (tables : Tables) :
    List FramedUnit → Except Stop (List CompilationUnit) :=
  recordedOver abbrevs tables fun unit _ => unit.encode

section Walk

variable {abbrevs : SectionView} {tables : Tables} {unit : FramedUnit} {c c' : Cursor}
  {more rest : List UInt8}

/-- Where the contents of the unit are read alike, so is the unit, and the next one is where it
ends. -/
theorem FramedUnit.readUnit_alike
    (tracks : Tracks False 0 (readUnitContents abbrevs (unit.tables tables))
      (readUnitContents abbrevs (unit.tables tables)) (unit.body ++ more) rest)
    (ahead : c.Over (unit.encode ++ more)) (over' : c'.Over (unit.encode ++ (more ++ rest))) :
    (∃ u c₁ c₂, (readUnit abbrevs tables).run c = .ok ((u, c.position + unit.encode.length), c₁) ∧
      (readUnit abbrevs tables).run c' = .ok ((u, c'.position + unit.encode.length), c₂)) ∨
    (∃ stop, stop ≠ .refused ∧ (readUnit abbrevs tables).run c = .error stop ∧
      (readUnit abbrevs tables).run c' = .error stop) := by
  have run : (readUnit abbrevs tables).run c = _ := readUnit_run ahead
  have run' : (readUnit abbrevs tables).run c' = _ := readUnit_run over'
  have body : (c.advance unit.frame.length).Over (unit.body ++ more) := by
    rw [encode, List.append_assoc] at ahead
    exact ahead.advance
  have body' : (c'.advance unit.frame.length).Over (unit.body ++ more ++ rest) := by
    rw [encode, List.append_assoc, ← List.append_assoc unit.body] at over'
    exact over'.advance
  rcases tracks _ _ body body' with
    ⟨u, used, -, -, read, read'⟩ | ⟨stop, read, read'⟩ | ⟨-, excused⟩
  · exact .inl ⟨u, _, _, by rw [run, read]; rfl, by rw [run', read']; rfl⟩
  · refine .inr ⟨stop, ?_, by rw [run, read]; rfl, by rw [run', read']; rfl⟩
    rintro rfl
    exact readUnitContents_answers abbrevs _ read
  · exact excused.elim

/-- What is kept of a unit that holds its fields does not depend on what follows it. -/
theorem FramedUnit.keep_alone (holds : rest = [] ∨ unit.HoldsFields abbrevs tables)
    (small : (unit.encode ++ rest).length < 2 ^ 64) :
    (Reader.attempt (readUnit abbrevs tables) (whole (unit.encode ++ rest))).map keep =
      (Reader.attempt (readUnit abbrevs tables) (whole unit.encode)).map keep := by
  have alone : (whole unit.encode).Over (unit.encode ++ []) := by
    rw [List.append_nil]
    rw [List.length_append] at small
    exact whole_over (by omega)
  have tracks : Tracks False 0 (readUnitContents abbrevs (unit.tables tables))
      (readUnitContents abbrevs (unit.tables tables)) (unit.body ++ []) rest := by
    rw [List.append_nil]
    exact readUnitContents_tracks holds
  have followed : (whole (unit.encode ++ rest)).Over (unit.encode ++ ([] ++ rest)) :=
    whole_over small
  rw [Reader.attempt, Reader.attempt]
  rcases readUnit_alike tracks alone followed with
    ⟨u, c₁, c₂, read, read'⟩ | ⟨stop, -, read, read'⟩
  · rw [read, read']
    rfl
  · rw [read, read']

/-- One turn of the walk, at a unit: it is kept as it is read with what follows it, and the walk
goes on behind it. -/
theorem readUnits_unit {info : SectionView} {offset fuel : Nat} {units : List CompilationUnit}
    (ahead : Cursor.Over ⟨info.data, info.size, offset⟩ (unit.encode ++ rest)) :
    readUnits info abbrevs tables (fuel + 1) offset units = (do
      let kept ← (Reader.attempt (readUnit abbrevs tables) (whole (unit.encode ++ rest))).map keep
      readUnits info abbrevs tables fuel (offset + unit.encode.length) (units ++ kept)) := by
  have small := ahead.small
  have inside := ahead.position_add
  have pos := unit.frame_pos
  have length : unit.encode.length = unit.frame.length + unit.body.length := List.length_append
  rw [List.length_append] at inside
  simp only at inside small
  have sought : (do
      seek offset
      readUnit abbrevs tables : Reader Cursor _).run info.cursor =
        (readUnit abbrevs tables).run ⟨info.data, info.size, offset⟩ :=
    run_bind_eq (seek_cursor (by omega))
  rw [readUnits, if_pos (by omega), Reader.attempt, Reader.attempt, sought]
  have wholly : (whole (unit.encode ++ rest)).Over (unit.encode ++ rest) :=
    whole_over (by rw [List.length_append]; omega)
  have over' : Cursor.Over ⟨info.data, info.size, offset⟩ (unit.encode ++ (rest ++ [])) := by
    rwa [List.append_nil]
  rcases FramedUnit.readUnit_alike (readUnitContents_tracks (.inl rfl)) wholly over' with
    ⟨u, c₁, c₂, read, read'⟩ | ⟨stop, answers, read, read'⟩
  · rw [read, read']
    change (if offset + unit.encode.length ≤ offset then _ else _) = _
    rw [if_neg (by omega)]
    change _ = readUnits info abbrevs tables fuel (offset + unit.encode.length)
      (units ++ keep (some (u, _)))
    rw [keep_some]
    cases u.hasLineProgram with
    | true => rfl
    | false => rw [if_neg Bool.false_ne_true, if_neg Bool.false_ne_true, List.append_nil]
  · rw [read, read']
    cases stop with
    | refused => exact (answers rfl).elim
    | fault => rfl
    | running => rfl

/-- The walk over a section with nothing but framed units comes to each of them once, in their
order, whatever is in those before it. -/
theorem readUnits_framed {info : SectionView} {units : List FramedUnit} {fuel offset : Nat}
    {before : List CompilationUnit}
    (ahead : Cursor.Over ⟨info.data, info.size, offset⟩ (infoBytes units))
    (turns : (infoBytes units).length < fuel) :
    readUnits info abbrevs tables fuel offset before =
      (recordedBefore abbrevs tables units).map (before ++ ·) := by
  induction units generalizing fuel offset before with
  | nil =>
      obtain ⟨fuel, rfl⟩ := Nat.exists_eq_succ_of_ne_zero (by omega : fuel ≠ 0)
      have inside : offset + 0 = info.size := ahead.position_add
      rw [readUnits, if_neg (by omega)]
      change _ = Except.ok (before ++ [])
      rw [List.append_nil]
  | cons unit units ih =>
      obtain ⟨fuel, rfl⟩ := Nat.exists_eq_succ_of_ne_zero (by omega : fuel ≠ 0)
      have pos := unit.frame_pos
      rw [infoBytes, List.flatMap_cons] at ahead turns
      rw [List.length_append, FramedUnit.encode, List.length_append] at turns
      have further (kept : List CompilationUnit) :
          readUnits info abbrevs tables fuel (offset + unit.encode.length) (before ++ kept) =
            (recordedBefore abbrevs tables units).map (before ++ kept ++ ·) :=
        ih ahead.advance (by rw [infoBytes]; omega)
      rw [readUnits_unit ahead, recordedBefore, recordedOver, ← recordedBefore, ← infoBytes]
      cases (Reader.attempt (readUnit abbrevs tables)
          (whole (unit.encode ++ infoBytes units))).map keep with
      | error stop => rfl
      | ok kept =>
          change readUnits info abbrevs tables fuel (offset + unit.encode.length)
            (before ++ kept) = _
          rw [further kept]
          cases recordedBefore abbrevs tables units with
          | error stop => rfl
          | ok others =>
              change Except.ok (before ++ kept ++ others) = Except.ok (before ++ (kept ++ others))
              rw [List.append_assoc]

/-- Units that hold their fields are recorded with what follows them as they are alone; nothing
follows the last one. -/
theorem recordedBefore_eq {units : List FramedUnit} (small : (infoBytes units).length < 2 ^ 64)
    (holds : ∀ unit ∈ units.dropLast, unit.HoldsFields abbrevs tables) :
    recordedBefore abbrevs tables units = recordedAlone abbrevs tables units := by
  induction units with
  | nil => rfl
  | cons unit units ih =>
      rw [infoBytes, List.flatMap_cons] at small
      have fits : infoBytes units = [] ∨ unit.HoldsFields abbrevs tables := by
        cases units with
        | nil => exact .inl rfl
        | cons next units =>
            exact .inr (holds unit (by rw [List.dropLast_cons_cons]; exact List.mem_cons_self))
      have others : ∀ other ∈ units.dropLast, other.HoldsFields abbrevs tables := by
        intro other member
        cases units with
        | nil => cases member
        | cons next units =>
            rw [List.dropLast_cons_cons] at holds
            exact holds other (List.mem_cons_of_mem _ member)
      have same := ih (by rw [List.length_append] at small; rw [infoBytes]; omega) others
      rw [recordedBefore, recordedAlone, recordedOver, recordedOver, ← recordedBefore,
        ← recordedAlone, same, FramedUnit.keep_alone fits small]

end Walk

/-! ## Without abbreviations -/

/-- The section that is not in the file. -/
def missing : SectionView := ⟨none, 0⟩

/-- The reader gives a unit without a line program. -/
def Blank (m : Reader Cursor CompilationUnit) (bytes : List UInt8) : Prop :=
  ∀ c, c.Over bytes → ∃ unit c', m.run c = .ok (unit, c') ∧ unit.hasLineProgram = false

section Blank

variable {tables : Tables} {bytes : List UInt8}

theorem Blank.pure {unit : CompilationUnit} (none : unit.hasLineProgram = false) :
    Blank (Pure.pure unit) bytes :=
  fun c _ => ⟨unit, c, rfl, none⟩

theorem Blank.orElse {α : Type} {m : Reader Cursor α} {f : α → Reader Cursor CompilationUnit}
    {default : CompilationUnit} (settles : Settles 0 m bytes)
    (none : default.hasLineProgram = false) (then_ : ∀ a back, Blank (f a) back) :
    Blank (m.orElse default f) bytes := by
  intro c ahead
  rw [run_orElse]
  rcases settles with ⟨front, back, a, -, rfl, reads⟩ | refused
  · rw [reads c back ahead]
    exact then_ a back _ ahead.advance
  · rw [refused c ahead]
    exact ⟨default, c, rfl, none⟩

/-- There is no abbreviation to be found. -/
theorem readAbbreviation_missing (abbrevOffset code : Nat) : Reader.attempt (do
    seek abbrevOffset
    readAbbreviation code) missing.cursor = .ok none := by
  have refused : (do
      seek abbrevOffset
      readAbbreviation code : Reader Cursor Abbreviation).run missing.cursor = .error .refused := by
    by_cases zero : abbrevOffset = 0
    · subst zero
      have sought : (seek 0).run missing.cursor = .ok ((), missing.cursor) :=
        seek_cursor (Nat.zero_le _)
      have counted : turns.run missing.cursor = .ok (1, missing.cursor) := rfl
      have empty : (fixed 1).run missing.cursor = .error .refused := by
        rw [fixed_run, if_pos (by decide)]
      rw [run_bind_eq sought, readAbbreviation, run_bind_eq counted]
      exact run_bind_error (run_bind_error empty)
    · refine run_bind_error ?_
      rw [seek_run, if_neg]
      change ¬ abbrevOffset ≤ 0
      omega
  rw [Reader.attempt, refused]

theorem readRoot_blank (version abbrevOffset : Nat) :
    Blank (readRoot missing tables version abbrevOffset) bytes := by
  refine .orElse rootCode_settles rfl fun code back => ?_
  rw [readAbbreviation_missing]
  exact .pure rfl

theorem readUnitContents_blank : Blank (readUnitContents missing tables) bytes := by
  have number (n : Nat) (bytes : List UInt8) : Settles 0 (fixed n) bytes := (Settles.fixed n).weaken
  refine .orElse unitVersion_settles rfl fun version back => ?_
  unfold readUnitBody
  split
  · refine .orElse (number 1 _) rfl fun unitType back => .orElse (number 1 _) rfl fun _ back => ?_
    split
    · exact .pure rfl
    · exact .orElse (number _ _) rfl fun _ _ => readRoot_blank _ _
  · exact .orElse (number _ _) rfl fun _ _ => .orElse (number 1 _) rfl fun _ _ => readRoot_blank _ _

/-- Without abbreviations nothing is recorded. -/
theorem recordedBefore_missing {units : List FramedUnit}
    (small : (infoBytes units).length < 2 ^ 64) :
    recordedBefore missing tables units = .ok [] := by
  induction units with
  | nil => rfl
  | cons unit units ih =>
      rw [infoBytes, List.flatMap_cons] at small
      have ahead : (whole (unit.encode ++ infoBytes units)).Over (unit.encode ++ infoBytes units) :=
        whole_over small
      have body : ((whole (unit.encode ++ infoBytes units)).advance unit.frame.length).Over
          (unit.body ++ infoBytes units) := by
        rw [FramedUnit.encode, List.append_assoc] at ahead
        rw [FramedUnit.encode, List.append_assoc]
        exact ahead.advance
      obtain ⟨u, c', contents, none⟩ := @readUnitContents_blank (unit.tables tables) _ _ body
      have read : (readUnit missing tables).run (whole (unit.encode ++ infoBytes units)) = _ :=
        FramedUnit.readUnit_run ahead
      rw [contents] at read
      rw [List.length_append] at small
      rw [recordedBefore, recordedOver, ← recordedBefore, ih (by rw [infoBytes]; omega),
        Reader.attempt, read]
      change Except.ok (keep (some (u, _)) ++ []) = _
      rw [keep_some, none]
      rfl

end Blank

/-! ## The section of a file -/

/-- The section of the file holds the units, and nothing else. -/
structure Framed (file : List UInt8) (s : Section) (units : List FramedUnit) : Prop where
  mapped : file.length < 2 ^ 64
  size : s.size = (infoBytes units).length
  bytes : (file.drop s.offset).take s.size = infoBytes units

theorem Framed.inside {file : List UInt8} {s : Section} {units : List FramedUnit}
    (framed : Framed file s units) (some : s.size ≠ 0) : Inside file s.offset s.size := by
  have length := congrArg List.length framed.bytes
  rw [List.length_take, List.length_drop, ← framed.size] at length
  exact ⟨some, by omega, by omega⟩

theorem Framed.small {file : List UInt8} {s : Section} {units : List FramedUnit}
    (framed : Framed file s units) : (infoBytes units).length < 2 ^ 64 := by
  have length := congrArg List.length framed.bytes
  rw [List.length_take, List.length_drop] at length
  have := framed.mapped
  omega

/-- `read_compilation_units` comes to every unit. -/
theorem readCompilationUnits_framed {file : List UInt8} {all : Sections} {units : List FramedUnit}
    (framed : Framed file all.info units)
    (abbreviated : all.abbrevs.size = 0 ∨ Inside file all.abbrevs.offset all.abbrevs.size) :
    readCompilationUnits file all =
      recordedBefore (sectionView file all.abbrevs) (detailTables file all) units := by
  unfold readCompilationUnits
  by_cases empty : all.info.size = 0
  · -- a section without units is not looked at
    have none : units = [] := by
      rw [framed.size, List.length_eq_zero_iff, infoBytes] at empty
      cases units with
      | nil => rfl
      | cons unit units =>
          have pos := unit.frame_pos
          have length := congrArg List.length empty
          rw [List.flatMap_cons, List.length_append, FramedUnit.encode, List.length_append]
            at length
          simp only [List.length_nil] at length
          omega
    have absent : (sectionView file all.info).present = false := by
      rw [sectionView, sectionData, if_neg fun inside => inside.1 empty]
      rfl
    simp only [absent, none, Bool.not_false, Bool.true_or, if_true]
    rfl
  · have present : sectionData file all.info = some (file.drop all.info.offset) :=
      if_pos (framed.inside empty)
    rcases abbreviated with none | inside
    · have absent : sectionView file all.abbrevs = missing := by
        rw [sectionView, sectionData, if_neg fun inside => inside.1 none, none]
        rfl
      have no : missing.present = false := rfl
      rw [absent, recordedBefore_missing framed.small]
      simp only [no, Bool.not_false, Bool.or_true, if_true]
    · have found : sectionData file all.abbrevs = some (file.drop all.abbrevs.offset) :=
        if_pos inside
      have ahead : Cursor.Over ⟨sectionData file all.info, all.info.size, 0⟩ (infoBytes units) := by
        refine ⟨[], (file.drop all.info.offset).drop all.info.size, ?_, rfl, ?_, ?_⟩
        · rw [present, ← framed.bytes, List.take_append_drop]
          rfl
        · exact framed.size.trans (Nat.zero_add _).symm
        · exact framed.size.trans_lt framed.small
      have walked : readUnits (sectionView file all.info) (sectionView file all.abbrevs)
          (detailTables file all) (all.info.size + 1) 0 [] = Except.map ([] ++ ·)
            (recordedBefore (sectionView file all.abbrevs) (detailTables file all) units) :=
        readUnits_framed ahead (Nat.lt_succ_of_le framed.size.ge)
      have both : (!(sectionView file all.info).present ||
          !(sectionView file all.abbrevs).present) = false := by
        rw [sectionView, sectionView, SectionView.present, SectionView.present, present, found]
        rfl
      simp only [both, Bool.false_eq_true, if_false]
      refine walked.trans ?_
      cases recordedBefore (sectionView file all.abbrevs) (detailTables file all) units <;> rfl

/-- `read_compilation_units` records of every unit what `read_unit` gives on its bytes alone. -/
def UnitsIndependent (file : List UInt8) (all : Sections) (units : List FramedUnit) : Prop :=
  readCompilationUnits file all =
    recordedAlone (sectionView file all.abbrevs) (detailTables file all) units

/-- Every unit is visited once, and what is recorded of the ones behind a unit does not depend on
it; the units are independent where each one that another one follows holds the fields that it
declares. -/
theorem units_independent {file : List UInt8} {all : Sections} {units : List FramedUnit}
    (framed : Framed file all.info units)
    (abbreviated : all.abbrevs.size = 0 ∨ Inside file all.abbrevs.offset all.abbrevs.size) :
    readCompilationUnits file all =
      recordedBefore (sectionView file all.abbrevs) (detailTables file all) units ∧
    ((∀ unit ∈ units.dropLast,
      unit.HoldsFields (sectionView file all.abbrevs) (detailTables file all)) →
      UnitsIndependent file all units) := by
  have walked := readCompilationUnits_framed framed abbreviated
  refine ⟨walked, fun holds => ?_⟩
  rw [UnitsIndependent, walked]
  exact recordedBefore_eq framed.small holds

/-! ## A short unit and its neighbour -/

/-- A unit whose abbreviation declares `DW_AT_stmt_list` and nothing else. -/
def statedUnit : FramedUnit := ⟨false, [4, 0] ++ toBytes 4 0 ++ [8, 1] ++ toBytes 4 0, by decide⟩

/-- The unit, of a length that leaves out the value of `DW_AT_stmt_list`. -/
def shortUnit : FramedUnit := ⟨false, [4, 0] ++ toBytes 4 0 ++ [8, 1], by decide⟩

/-- A file with the units, their abbreviation and some bytes of `.debug_line`. -/
def framedFile (units : List FramedUnit) : List UInt8 :=
  infoBytes units ++ [1, 0x11, 0, 0x10, 0x06, 0, 0, 0] ++ List.replicate 16 0

def framedSections (units : List FramedUnit) : Sections where
  info := ⟨0, (infoBytes units).length, 0⟩
  abbrevs := ⟨(infoBytes units).length, 8, 0⟩
  line := ⟨(infoBytes units).length + 8, 16, 0⟩

/-- Two units that hold what they declare are read as on their own. -/
theorem units_independent_stated :
    statedUnit.HoldsFields
      (sectionView (framedFile [statedUnit, statedUnit])
        (framedSections [statedUnit, statedUnit]).abbrevs)
      (detailTables (framedFile [statedUnit, statedUnit])
        (framedSections [statedUnit, statedUnit])) ∧
    UnitsIndependent (framedFile [statedUnit, statedUnit]) (framedSections [statedUnit, statedUnit])
      [statedUnit, statedUnit] := by
  have holds : statedUnit.HoldsFields
      (sectionView (framedFile [statedUnit, statedUnit])
        (framedSections [statedUnit, statedUnit]).abbrevs)
      (detailTables (framedFile [statedUnit, statedUnit])
        (framedSections [statedUnit, statedUnit])) := by
    refine .ofRun (a := 4) (c := ⟨some statedUnit.body, 12, 2⟩) (by decide +kernel) ?_
    rw [BodyHolds, if_neg (by decide)]
    refine .ofRun (a := 0) (c := ⟨some (statedUnit.body.drop 2), 10, 4⟩) (by decide +kernel) ?_
    refine .ofRun (a := 8) (c := ⟨some (statedUnit.body.drop 6), 6, 1⟩) (by decide +kernel) ?_
    refine .ofRun (a := 1) (c := ⟨some (statedUnit.body.drop 7), 5, 1⟩) (by decide +kernel) ?_
    intro declaration declared tag
    have found : Reader.attempt (do
        seek 0
        readAbbreviation 1) (sectionView (framedFile [statedUnit, statedUnit])
          (framedSections [statedUnit, statedUnit]).abbrevs).cursor =
        .ok (some ⟨0x11, [⟨0x10, 0x06, 0⟩]⟩) := by decide +kernel
    rw [found] at declared
    cases declared
    exact .ofRun (a := {}) (c := ⟨some (statedUnit.body.drop 8), 4, 4⟩) (by decide +kernel) trivial
  refine ⟨holds, (units_independent ⟨by decide +kernel, rfl, by decide +kernel⟩
    (.inr (by decide +kernel))).2 ?_⟩
  intro unit member
  obtain rfl : unit = statedUnit := List.mem_singleton.mp member
  exact holds

/-- A unit that ends in front of a value that it declares takes it from the length of the unit
behind it, and is recorded, which it is not alone. -/
theorem not_units_independent_short :
    Framed (framedFile [shortUnit, statedUnit]) (framedSections [shortUnit, statedUnit]).info
      [shortUnit, statedUnit] ∧
    Inside (framedFile [shortUnit, statedUnit])
      (framedSections [shortUnit, statedUnit]).abbrevs.offset
      (framedSections [shortUnit, statedUnit]).abbrevs.size ∧
    ¬ UnitsIndependent (framedFile [shortUnit, statedUnit])
      (framedSections [shortUnit, statedUnit]) [shortUnit, statedUnit] := by
  refine ⟨⟨by decide +kernel, rfl, by decide +kernel⟩, by decide +kernel, ?_⟩
  unfold UnitsIndependent
  decide +kernel

end Fpag.Debug
