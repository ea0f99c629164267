import Fpag.Lib.JsonLayout
import Fpag.Logging.FileSink

/-!
The file of a `JsonLinesSink`.

The sink sets a message between quotes as it is. So a line is a layout (`lineLayout`) with
one string that can hold anything, and it reads back as the entry exactly when that string
is plain: a quote or a backslash ends up in the grammar of the line, and a control character
has no place in a string at all, a line feed least of all, which makes two lines of one.
-/

namespace Fpag.Logging

open Fpag.Io

variable {π : Type}

/-- An entry with the time that it is logged with. -/
structure TimedEntry : Type where
  entry : LogEntry
  timestampNs : BitVec 64
  deriving DecidableEq, Repr

/-- The calls of `log` for entries, with what the system answers each time. -/
def logCalls (entries : List (TimedEntry × Calls)) : List (FileSinkCall × Calls) :=
  entries.map fun e => (.log e.1.entry e.1.timestampNs, e.2)

/-- The line of an entry, without its line feed. -/
def lineLayout (e : TimedEntry) : Json.Layout :=
  .object (.cons (text "ts") (.number (Json.decimal e.timestampNs.toNat) e.timestampNs.toNat 0)
    (.cons (text "level") (.string (logLevelToString e.entry.level))
      (.cons (text "msg") (.string e.entry.message) .nil)))

/-- The line is a JSON object with the members `ts`, `level` and `msg` and no others, and `msg` is
the message. -/
def JsonLine (line : List UInt8) (e : TimedEntry) : Prop :=
  ∃ members, Json.Reads line (.object members) ∧
    (members.map Prod.fst).Perm [text "ts", text "level", text "msg"] ∧
    Json.sole (text "msg") members = some (.string e.entry.message)

/-- The file is one line for each entry, in order. -/
def JsonFile (file : List UInt8) (entries : List TimedEntry) : Prop :=
  ∃ ls : List (List UInt8), file = ls.flatMap (fun line => line ++ [0x0A]) ∧
    (∀ line ∈ ls, (0x0A : UInt8) ∉ line) ∧ List.Forall₂ JsonLine ls entries

/-! ## Lines -/

theorem line_eq_text (e : TimedEntry) :
    FileSinkKind.jsonLines.line e.entry e.timestampNs = (lineLayout e).text ++ [0x0A] := by
  have open_ : text "\x7b\"ts\":" = [0x7B, 0x22] ++ text "ts" ++ [0x22, 0x3A] := by decide
  have level : text ",\"level\":\"" = [0x2C, 0x22] ++ text "level" ++ [0x22, 0x3A, 0x22] := by
    decide
  have msg : text "\",\"msg\":\"" = [0x22, 0x2C, 0x22] ++ text "msg" ++ [0x22, 0x3A, 0x22] := by
    decide
  have close : text "\"\x7d\n" = [0x22, 0x7D, 0x0A] := by decide
  simp only [FileSinkKind.line, open_, level, msg, close, Json.text_repr, lineLayout,
    Json.Layout.text,
    Json.Members.text, Json.comma, if_true, Bool.false_eq_true, if_false, List.append_assoc,
    List.cons_append, List.nil_append]

theorem plain_logLevelToString (level : UInt8) : Json.Plain (logLevelToString level) := by
  unfold logLevelToString
  iterate 6
    split
    · decide
  decide

theorem lineLayout_wf (e : TimedEntry) : (lineLayout e).Wf := by
  simp only [lineLayout, Json.Layout.Wf, Json.Members.Wf, Json.Members.keys, and_true, true_and]
  exact ⟨by decide, by decide, Json.writes_decimal _, by decide, by decide, by decide⟩

theorem lineLayout_allPlain {e : TimedEntry} :
    (lineLayout e).AllPlain ↔ Json.Plain e.entry.message := by
  simp only [lineLayout, Json.Layout.AllPlain, Json.Members.AllPlain, true_and, and_true,
    plain_logLevelToString]

/-- Plain strings have no line feed. -/
theorem lineFeed_not_mem_lineLayout {e : TimedEntry} (plain : Json.Plain e.entry.message) :
    (0x0A : UInt8) ∉ (lineLayout e).text := by
  have unfed : ∀ {bytes}, Json.Plain bytes → (0x0A : UInt8) ∉ bytes := fun plain there =>
    (plain _ there).2.2 (by decide)
  have digits : (0x0A : UInt8) ∉ Json.decimal e.timestampNs.toNat := fun there =>
    absurd ((Json.whole_decimal _).digit _ there) (by decide)
  have level := unfed (plain_logLevelToString e.entry.level)
  have message := unfed plain
  have names : (0x0A : UInt8) ∉ text "ts" ∧ (0x0A : UInt8) ∉ text "level" ∧
      (0x0A : UInt8) ∉ text "msg" := by decide
  simp only [lineLayout, Json.Layout.text, Json.Members.text, Json.comma, List.mem_append,
    List.mem_cons, names, digits, level, message, if_true, Bool.false_eq_true, if_false,
    List.not_mem_nil, or_false]
  decide

theorem utf8_lineLayout {e : TimedEntry} (utf8 : Json.Utf8 e.entry.message) :
    Json.Utf8 (lineLayout e).text := by
  have level : ∀ b ∈ logLevelToString e.entry.level, b < 0x80 := by
    unfold logLevelToString
    iterate 6
      split
      · decide +kernel
    decide +kernel
  have open_ : Json.Utf8 (text "\x7b\"ts\":") := Json.utf8_of_ascii (by decide +kernel)
  have toLevel : Json.Utf8 (text ",\"level\":\"") := Json.utf8_of_ascii (by decide +kernel)
  have toMsg : Json.Utf8 (text "\",\"msg\":\"") := Json.utf8_of_ascii (by decide +kernel)
  have front : Json.Utf8 (text "\x7b\"ts\":" ++ text (Nat.repr e.timestampNs.toNat) ++
      text ",\"level\":\"" ++ logLevelToString e.entry.level ++ text "\",\"msg\":\"") := by
    rw [Json.text_repr]
    exact (((open_.append (Json.utf8_decimal _)).append toLevel).append
      (Json.utf8_of_ascii level)).append toMsg
  have back : Json.Utf8 [0x22, 0x7D] := Json.utf8_of_ascii (by decide +kernel)
  have whole := (front.append utf8).append back
  have same := line_eq_text e
  have close : text "\"\x7d\n" = [0x22, 0x7D] ++ [0x0A] := by decide
  simp only [FileSinkKind.line, close] at same
  rw [← List.append_assoc] at same
  rw [← List.append_cancel_right same]
  exact whole

/-- A line reads back as its entry if and only if the message is plain. -/
theorem jsonLine_iff {e : TimedEntry} (utf8 : Json.Utf8 e.entry.message) :
    JsonLine (lineLayout e).text e ↔ Json.Plain e.entry.message := by
  have wf := lineLayout_wf e
  constructor
  · rintro ⟨members, ⟨-, read⟩, -, message⟩
    rw [← List.append_nil (lineLayout e).text] at read
    apply lineLayout_allPlain.mp
    refine Json.allPlain_of_parse wf read ?_
    simp only [lineLayout, Json.Layout.Agrees, Json.Members.Agrees, Json.Layout.AllPlain, true_or,
      true_and, and_true, plain_logLevelToString]
    exact ⟨members, rfl, Or.inr ⟨_, message, rfl⟩⟩
  · intro plain
    have read := Json.parse_text wf (by decide : Json.Spaces []) (lineLayout_allPlain.mpr plain)
    rw [List.append_nil] at read
    simp only [lineLayout, Json.Layout.meaning, Json.Members.meaning] at read
    refine ⟨_, ⟨utf8_lineLayout utf8, read⟩, .refl _, ?_⟩
    have ts : text "ts" ≠ text "msg" := by decide
    have level : text "level" ≠ text "msg" := by decide
    rw [Json.sole_tail ts, Json.sole_tail level]
    simp only [Json.sole, List.filter_cons_of_pos, List.filter_nil, decide_true]

/-! ## Files -/

theorem count_flatMap_lines (ls : List (List UInt8)) :
    (ls.flatMap fun line => line ++ [0x0A]).count 0x0A =
      ls.length + (ls.map fun line => line.count 0x0A).sum := by
  induction ls with
  | nil => rfl
  | cons line ls ih =>
      rw [List.flatMap_cons, List.count_append, List.count_append, ih, List.map_cons, List.sum_cons,
        List.length_cons, List.count_singleton_self]
      omega

theorem takeWhile_line {line rest : List UInt8} (solid : (0x0A : UInt8) ∉ line) :
    (line ++ 0x0A :: rest).takeWhile (fun b => decide (b ≠ 0x0A)) = line := by
  have inside : ∀ b ∈ line, decide (b ≠ 0x0A) = true := by
    rintro b there
    refine decide_eq_true ?_
    rintro rfl
    exact solid there
  rw [List.takeWhile_append_of_pos inside]
  exact List.append_nil _

/-- Lines without a line feed are known from their file. -/
theorem lines_inj {ls ls' : List (List UInt8)} (solid : ∀ line ∈ ls, (0x0A : UInt8) ∉ line)
    (solid' : ∀ line ∈ ls', (0x0A : UInt8) ∉ line)
    (same : (ls.flatMap fun line => line ++ [0x0A]) = ls'.flatMap fun line => line ++ [0x0A]) :
    ls = ls' := by
  induction ls generalizing ls' with
  | nil =>
      cases ls' with
      | nil => rfl
      | cons line ls' => simp at same
  | cons line ls ih =>
      cases ls' with
      | nil => simp at same
      | cons line' ls' =>
          simp only [List.flatMap_cons, List.append_assoc, List.singleton_append] at same
          have first : line = line' := by
            have cut := congrArg (List.takeWhile fun b => decide (b ≠ 0x0A)) same
            rwa [takeWhile_line (solid line List.mem_cons_self),
              takeWhile_line (solid' line' List.mem_cons_self)] at cut
          rw [first, List.append_cancel_left_eq] at same
          rw [first, ih (fun l there => solid l (List.mem_cons_of_mem _ there))
            (fun l there => solid' l (List.mem_cons_of_mem _ there)) (List.cons.inj same).2]

theorem lines_logCalls (entries : List (TimedEntry × Calls)) :
    lines .jsonLines (logCalls entries) =
      (entries.map fun e => (lineLayout e.1).text).flatMap fun line => line ++ [0x0A] := by
  induction entries with
  | nil => rfl
  | cons e entries ih =>
      rw [logCalls, List.map_cons, lines_log, line_eq_text, List.map_cons, List.flatMap_cons, ← ih]
      rfl

/-- There is no flush among calls of `log`. -/
theorem beforeFlush_logCalls (entries : List (TimedEntry × Calls)) :
    beforeFlush (logCalls entries) = logCalls entries := by
  induction entries with
  | nil => rfl
  | cons e entries ih =>
      rw [logCalls, List.map_cons, beforeFlush_log]
      congr 1

theorem flushedLast_logCalls (entries : List (TimedEntry × Calls)) :
    FlushedLast (logCalls entries) := by
  apply (@lines_beforeFlush .jsonLines _).mp
  rw [beforeFlush_logCalls]

/-- The lines of entries read back if and only if every message is plain. -/
theorem jsonFile_iff {entries : List (TimedEntry × Calls)}
    (utf8 : ∀ e ∈ entries, Json.Utf8 e.1.entry.message) :
    JsonFile (lines .jsonLines (logCalls entries)) (entries.map Prod.fst) ↔
      ∀ e ∈ entries, Json.Plain e.1.entry.message := by
  rw [lines_logCalls]
  constructor
  · rintro ⟨ls, same, solid, each⟩
    -- As many line feeds as entries: the messages have none.
    have fed : (entries.map fun e => ((lineLayout e.1).text).count 0x0A).sum = 0 := by
      have counted := congrArg (List.count 0x0A) same
      rw [count_flatMap_lines, count_flatMap_lines, each.length_eq, List.length_map,
        List.length_map, List.map_map] at counted
      have none_ : (ls.map fun line => line.count 0x0A).sum = 0 := by
        refine List.sum_eq_zero_iff_forall_eq_nat.mpr fun n there => ?_
        obtain ⟨line, inside, rfl⟩ := List.mem_map.mp there
        exact List.count_eq_zero.mpr (solid line inside)
      rw [none_] at counted
      exact Nat.add_left_cancel counted
    have texts : ls = entries.map fun e => (lineLayout e.1).text := by
      refine lines_inj solid (fun line there => ?_) same.symm
      obtain ⟨e, inside, rfl⟩ := List.mem_map.mp there
      exact List.count_eq_zero.mp
        (List.sum_eq_zero_iff_forall_eq_nat.mp fed _ (List.mem_map_of_mem inside))
    rw [texts, List.forall₂_map_left_iff, List.forall₂_map_right_iff, List.forall₂_same] at each
    exact fun e there => (jsonLine_iff (utf8 e there)).mp (each e there)
  · intro plain
    refine ⟨_, rfl, fun line there => ?_, ?_⟩
    · obtain ⟨e, inside, rfl⟩ := List.mem_map.mp there
      exact lineFeed_not_mem_lineLayout (plain e inside)
    · rw [List.forall₂_map_left_iff, List.forall₂_map_right_iff, List.forall₂_same]
      exact fun e there => (jsonLine_iff (utf8 e there)).mpr (plain e there)

variable [DecidableEq π] {path : π} {s s' : StreamWriter π 64} {os os' : Os π}
  {entries : List (TimedEntry × Calls)}

/-- For every sequence of entries whose messages are UTF-8 and whose lines fit, on an opened sink
that the system serves: the file is one JSON line for each entry, with the message as `msg`, if and
only if no message holds a quote, a backslash or a control character. -/
theorem jsonLines_iff {initialCapacity : BitVec 64} {calls last : Calls}
    (served : os.refused = false)
    (opened : s.open_ path initialCapacity os calls = (s', os', true))
    (short : Short .jsonLines (logCalls entries))
    (serves : liveFileSink .jsonLines (logCalls entries) last s' os' ≠ .error .refused)
    (utf8 : ∀ e ∈ entries, Json.Utf8 e.1.entry.message) :
    (∃ s'' os'', liveFileSink .jsonLines (logCalls entries) last s' os' = .ok (s'', os'') ∧
      JsonFile (os''.files path) (entries.map Prod.fst)) ↔
    ∀ e ∈ entries, Json.Plain e.1.entry.message := by
  rw [← jsonFile_iff utf8]
  rcases live_outcome served opened short serves with ⟨-, unordered⟩ | ⟨s₁, os₁, live, file⟩
  · exact absurd (flushedLast_logCalls entries) unordered
  rw [beforeFlush_logCalls] at file
  constructor
  · rintro ⟨s'', os'', live', holds⟩
    obtain ⟨rfl, rfl⟩ := Prod.mk.inj (Except.ok.inj (live.symm.trans live'))
    rwa [← file]
  · intro holds
    refine ⟨s₁, os₁, live, ?_⟩
    rwa [file]

/-- An entry whose message is plain. -/
def plainEntry : TimedEntry × Calls := (⟨⟨2, text "ready"⟩, 7⟩, .all)

theorem jsonLines_iff_plainEntry :
    ∃ s os, liveFileSink .jsonLines (logCalls [plainEntry]) .all oneByteWriter.1 oneByteWriter.2.1 =
        .ok (s, os) ∧ JsonFile (os.files ()) [plainEntry.1] := by
  have finishes : (match liveFileSink .jsonLines (logCalls [plainEntry]) .all oneByteWriter.1
      oneByteWriter.2.1 with
      | .error _ => false
      | .ok _ => true) = true := by decide +kernel
  refine (jsonLines_iff rfl oneByteWriter_opened ?_ ?_ ?_).mpr ?_
  · intro e there entry timestampNs log
    cases List.mem_singleton.mp there
    cases log
    decide +kernel
  · intro refused
    rw [refused] at finishes
    cases finishes
  · intro e there
    cases List.mem_singleton.mp there
    exact Json.utf8_of_ascii (by decide +kernel)
  · intro e there
    cases List.mem_singleton.mp there
    decide

/-- An entry whose message is a word in quotes. -/
def quotedEntry : TimedEntry × Calls := (⟨⟨2, text "\"ready\""⟩, 7⟩, .all)

/-- The line is `{"ts":7,"level":"info","msg":""ready""}`, which is no JSON text. -/
theorem not_jsonLines_quotedEntry :
    (∃ r, liveFileSink .jsonLines (logCalls [quotedEntry]) .all oneByteWriter.1 oneByteWriter.2.1 =
        .ok r) ∧
      ¬ ∃ s os, liveFileSink .jsonLines (logCalls [quotedEntry]) .all oneByteWriter.1
          oneByteWriter.2.1 = .ok (s, os) ∧ JsonFile (os.files ()) [quotedEntry.1] := by
  have written : (match liveFileSink .jsonLines (logCalls [quotedEntry]) .all oneByteWriter.1
      oneByteWriter.2.1 with
      | .error _ => []
      | .ok r => r.2.files ()) =
      text "\x7b\"ts\":7,\"level\":\"info\",\"msg\":\"\"ready\"\"\x7d" ++ [0x0A] := by
    decide +kernel
  constructor
  · split at written
    · exact absurd written (by simp)
    · next r live => exact ⟨r, live⟩
  · rintro ⟨s, os, live, ls, file, solid, each⟩
    simp only [live] at written
    obtain ⟨line, rfl⟩ := List.length_eq_one_iff.mp each.length_eq
    rw [List.flatMap_singleton, written, List.append_cancel_right_eq] at file
    obtain ⟨members, ⟨-, read⟩, -⟩ := (List.forall₂_cons.mp each).1
    have nothing : (Json.parse (text
        "\x7b\"ts\":7,\"level\":\"info\",\"msg\":\"\"ready\"\"\x7d")).isNone = true := by
      decide +kernel
    rw [file, read] at nothing
    cases nothing

end Fpag.Logging
