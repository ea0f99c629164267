import Fpag.Lib.JsonLayout
import Fpag.Io.StreamHoles
import Fpag.Debug.TimeTrace

/-!
The document that `TimeTraceFormatter::write_to_file` leaves.

Two things keep it from being the trace of its events. A name, a category or a file is set
between quotes as it is, so a quote, a backslash or a control character in it changes what
the document says. And a line that is longer than its buffer is cut there, while the size of
the whole line is committed: the bytes behind the cut are those that the file held before,
and zeros in a new file, which no JSON text holds. Otherwise the document is a layout
(`traceLayout`) that reads back as the events.
-/

namespace Fpag.Debug

open Fpag.Io
open Fpag.Str

variable {π ι : Type}

/-- What `{:.3f}` makes of a time: digits, a point and three digits. -/
def ShowsUs (showUs : BitVec 64 → List UInt8) : Prop :=
  ∀ ns, ∃ whole part, showUs ns = Json.decimal whole ++ 0x2E :: part ∧ whole < 2 ^ 64 ∧
    part.length = 3 ∧ ∀ b ∈ part, Json.isDigit b = true

/-- The value is the object of an event. -/
def TraceObject (interner : StringPool ι) (e : ProfileEvent) (v : Json.Value) : Prop :=
  ∃ members args, v = .object members ∧
    Json.sole (text "name") members = some (.string (e.shownName interner)) ∧
    Json.sole (text "cat") members = some (.string (e.shownCategory interner)) ∧
    Json.sole (text "pid") members = some (.number e.processId.toNat 0) ∧
    Json.sole (text "tid") members = some (.number e.threadId.toNat 0) ∧
    Json.sole (text "args") members = some (.object args) ∧
    Json.sole (text "file") args = some (.string e.location.file.bytes) ∧
    Json.sole (text "line") args = some (.number e.location.line.toNat 0)

/-- The file is one JSON object, whose array of events has the object of each event, in order. -/
def TraceFile (interner : StringPool ι) (file : List UInt8) (events : List ProfileEvent) : Prop :=
  ∃ members values, Json.Reads file (.object members) ∧
    Json.sole (text "traceEvents") members = some (.array values) ∧
    List.Forall₂ (TraceObject interner) events values

namespace ProfileEvent

variable (interner : StringPool ι) (e : ProfileEvent)

/-- The texts of an event are UTF-8. -/
def Utf8 : Prop :=
  Json.Utf8 (e.shownName interner) ∧ Json.Utf8 (e.shownCategory interner) ∧
    Json.Utf8 e.location.file.bytes

/-- The texts of an event have no quote, no backslash and no control character. -/
def Plain : Prop :=
  Json.Plain (e.shownName interner) ∧ Json.Plain (e.shownCategory interner) ∧
    Json.Plain e.location.file.bytes

/-- The length of all that is shown of an event. -/
def shownSize (showUs : BitVec 64 → List UInt8) : Nat :=
  (e.shownName interner).length + (e.shownCategory interner).length +
    e.location.file.bytes.length + (showUs e.startTimeNs).length + (showUs e.durationNs).length +
    (Nat.repr e.processId.toNat).length + (Nat.repr e.threadId.toNat).length +
    (Nat.repr e.location.line.toNat).length

end ProfileEvent

namespace TimeTraceFormatter

/-- No event is longer than a buffer; all but the last have a comma. -/
def Fits (showUs : BitVec 64 → List UInt8) (interner : StringPool ι) : List ProfileEvent → Prop
  | [] => True
  | e :: rest =>
      e.shownSize interner showUs + (if rest = [] then 86 else 87) ≤ maxSingleEventWriteSize ∧
        Fits showUs interner rest

/-! ## Lines -/

section Lines

variable {showUs : BitVec 64 → List UInt8} {interner : StringPool ι}

theorem length_line (e : ProfileEvent) (comma : List UInt8) :
    (line showUs interner e comma).length = e.shownSize interner showUs + 86 + comma.length := by
  have literals : (text "  \x7b\"name\":\"").length = 11 ∧ (text "\",\"cat\":\"").length = 9 ∧
      (text "\",\"ph\":\"X\",\"ts\":").length = 16 ∧ (text ",\"dur\":").length = 7 ∧
      (text ",\"pid\":").length = 7 ∧ (text ",\"tid\":").length = 7 ∧
      (text ",\"args\":\x7b\"file\":\"").length = 17 ∧ (text "\",\"line\":").length = 9 ∧
      (text "\x7d\x7d").length = 2 ∧ (text "\n").length = 1 := by decide
  have repr : ∀ n, (text (Nat.repr n)).length = (Nat.repr n).length := fun n => by
    rw [text, List.length_map, String.length_toList]
  -- `line` is unfolded by hand: its equation lemma takes long to make
  delta line
  simp only [ProfileEvent.shownSize, List.length_append, literals, repr]
  omega

theorem length_lineBefore (e : ProfileEvent) (rest : List ProfileEvent) :
    (lineBefore showUs interner e rest).length =
      e.shownSize interner showUs + (if rest = [] then 86 else 87) := by
  rw [lineBefore, length_line]
  split
  · rw [List.length_nil, Nat.add_zero]
  · rw [show (text ",").length = 1 by decide]

theorem fits_iff {events : List ProfileEvent} : Fits showUs interner events ↔
    ∀ line ∈ lines showUs interner events, line.length ≤ maxSingleEventWriteSize := by
  induction events with
  | nil => simp [Fits, lines]
  | cons e rest ih => rw [Fits, lines, List.forall_mem_cons, length_lineBefore, ih]

theorem length_repr_lt {n : Nat} (small : n < 2 ^ 64) : (Nat.repr n).length ≤ 20 := by
  rw [← String.length_toList, Nat.toList_repr, Nat.length_toDigits_le_iff (by decide) (by decide)]
  omega

theorem length_showUs_lt (shows : ShowsUs showUs) (ns : BitVec 64) :
    (showUs ns).length ≤ 24 := by
  obtain ⟨whole, part, same, small, three, -⟩ := shows ns
  have digits := length_repr_lt small
  have repr : (Json.decimal whole).length = (Nat.repr whole).length := by
    rw [← Json.text_repr, text, List.length_map, String.length_toList]
  rw [same, List.length_append, List.length_cons, three, repr]
  omega

theorem length_shownName_lt (id : StringPoolId) {placeholder : List UInt8}
    (short : placeholder.length < 2 ^ 32) :
    (shownName interner id placeholder).length < 2 ^ 32 := by
  unfold shownName
  split
  · exact short
  · rw [StringPool.get, length_readBytes]
    exact BitVec.isLt _

/-- A line can be committed as a whole. -/
theorem length_line_lt (shows : ShowsUs showUs) {events : List ProfileEvent} {line : List UInt8}
    (there : line ∈ lines showUs interner events) : line.length < 2 ^ 58 := by
  induction events with
  | nil => cases there
  | cons e rest ih =>
      rcases List.mem_cons.mp there with same | there
      · have start := length_showUs_lt shows e.startTimeNs
        have duration := length_showUs_lt shows e.durationNs
        have process := length_repr_lt (Nat.lt_trans e.processId.isLt (by decide))
        have thread := length_repr_lt e.threadId.isLt
        have row := length_repr_lt (Nat.lt_trans e.location.line.isLt (by decide))
        have file := e.location.file.size_lt
        have name : (e.shownName interner).length < 2 ^ 32 :=
          length_shownName_lt _ (by decide)
        have category : (e.shownCategory interner).length < 2 ^ 32 :=
          length_shownName_lt _ (by decide)
        rw [same, length_lineBefore, ProfileEvent.shownSize]
        split <;> omega
      · exact ih there

end Lines

/-! ## Layouts -/

section Layouts

variable (showUs : BitVec 64 → List UInt8) (interner : StringPool ι)

def timeLayout (token : List UInt8) : Json.Layout :=
  .number token (Json.natOf (token.filter Json.isDigit)) (-3)

def countLayout (n : Nat) : Json.Layout := .number (Json.decimal n) n 0

/-- The object of an event, as its line has it. -/
def eventLayout (e : ProfileEvent) : Json.Layout :=
  .object (.cons (text "name") (.string (e.shownName interner))
    (.cons (text "cat") (.string (e.shownCategory interner))
      (.cons (text "ph") (.string (text "X"))
        (.cons (text "ts") (timeLayout (showUs e.startTimeNs))
          (.cons (text "dur") (timeLayout (showUs e.durationNs))
            (.cons (text "pid") (countLayout e.processId.toNat)
              (.cons (text "tid") (countLayout e.threadId.toNat)
                (.cons (text "args") (.object
                  (.cons (text "file") (.string e.location.file.bytes)
                    (.cons (text "line") (countLayout e.location.line.toNat) .nil))) .nil))))))))

/-- The array of the events, each on a line of its own. -/
def eventItems : List ProfileEvent → Json.Items
  | [] => .nil [0x0A]
  | e :: rest => .cons [0x0A, 0x20, 0x20] (eventLayout showUs interner e) (eventItems rest)

def traceLayout (events : List ProfileEvent) : Json.Layout :=
  .object (.cons (text "traceEvents") (.array (eventItems showUs interner events)) .nil)

variable {showUs interner}

theorem line_eq_text (e : ProfileEvent) (comma : List UInt8) :
    line showUs interner e comma =
      [0x20, 0x20] ++ (eventLayout showUs interner e).text ++ comma ++ [0x0A] := by
  have name : text "  \x7b\"name\":\"" =
      [0x20, 0x20, 0x7B, 0x22] ++ text "name" ++ [0x22, 0x3A, 0x22] := by decide
  have cat : text "\",\"cat\":\"" = [0x22, 0x2C, 0x22] ++ text "cat" ++ [0x22, 0x3A, 0x22] := by
    decide
  have ts : text "\",\"ph\":\"X\",\"ts\":" = [0x22, 0x2C, 0x22] ++ text "ph" ++
      [0x22, 0x3A, 0x22] ++ text "X" ++ [0x22, 0x2C, 0x22] ++ text "ts" ++ [0x22, 0x3A] := by decide
  have dur : text ",\"dur\":" = [0x2C, 0x22] ++ text "dur" ++ [0x22, 0x3A] := by decide
  have pid : text ",\"pid\":" = [0x2C, 0x22] ++ text "pid" ++ [0x22, 0x3A] := by decide
  have tid : text ",\"tid\":" = [0x2C, 0x22] ++ text "tid" ++ [0x22, 0x3A] := by decide
  have file : text ",\"args\":\x7b\"file\":\"" = [0x2C, 0x22] ++ text "args" ++
      [0x22, 0x3A, 0x7B, 0x22] ++ text "file" ++ [0x22, 0x3A, 0x22] := by decide
  have row : text "\",\"line\":" = [0x22, 0x2C, 0x22] ++ text "line" ++ [0x22, 0x3A] := by decide
  have close : text "\x7d\x7d" = [0x7D, 0x7D] ∧ text "\n" = [0x0A] := by decide
  delta line
  simp only [name, cat, ts, dur, pid, tid, file, row, close, Json.text_repr, eventLayout,
    countLayout, timeLayout, Json.Layout.text, Json.Members.text, Json.comma, if_true,
    Bool.false_eq_true, if_false, List.append_assoc, List.cons_append, List.nil_append]

theorem eventItems_text (events : List ProfileEvent) (first : Bool) :
    (eventItems showUs interner events).text first =
      (if events = [] then [] else Json.comma first) ++
        0x0A :: ((lines showUs interner events).flatten ++ [0x5D]) := by
  induction events generalizing first with
  | nil => rfl
  | cons e rest ih =>
      have comma : text "," = [0x2C] := by decide
      rw [eventItems, Json.Items.text, ih, lines, lineBefore, line_eq_text, List.flatten_cons,
        if_neg (List.cons_ne_nil _ _), comma]
      by_cases last : rest = []
      · rw [if_pos last, if_pos last]
        simp only [List.append_assoc, List.cons_append, List.nil_append]
      · rw [if_neg last, if_neg last]
        simp only [Json.comma, Bool.false_eq_true, if_false, List.append_assoc, List.cons_append,
          List.nil_append]

/-- The document of lines that fit is a layout. -/
theorem document_eq_text (events : List ProfileEvent) :
    header ++ (lines showUs interner events).flatten ++ footer =
      (traceLayout showUs interner events).text ++ [0x0A] := by
  have header_ : header = [0x7B, 0x22] ++ text "traceEvents" ++ [0x22, 0x3A, 0x5B, 0x0A] := by
    decide
  have footer_ : footer = [0x5D, 0x7D, 0x0A] := by decide
  simp only [header_, footer_, traceLayout, Json.Layout.text, Json.Members.text, eventItems_text,
    Json.comma, if_true, ite_self, List.append_assoc, List.cons_append, List.nil_append]

theorem timeLayout_wf (shows : ShowsUs showUs) (ns : BitVec 64) : (timeLayout (showUs ns)).Wf := by
  obtain ⟨whole, part, same, -, three, digit⟩ := shows ns
  have digits : (showUs ns).filter Json.isDigit = Json.decimal whole ++ part := by
    rw [same, List.filter_append, List.filter_cons_of_neg (by decide),
      List.filter_eq_self.mpr (Json.whole_decimal whole).digit, List.filter_eq_self.mpr digit]
  have nonempty : part ≠ [] := by
    rintro rfl
    cases three
  have writes := (Json.whole_decimal whole).writes_point digit nonempty
  rw [timeLayout, Json.Layout.Wf, digits, same]
  rw [three] at writes
  exact writes

theorem countLayout_wf (n : Nat) : (countLayout n).Wf := by
  rw [countLayout, Json.Layout.Wf]
  exact Json.writes_decimal n

theorem eventLayout_wf (shows : ShowsUs showUs) (e : ProfileEvent) :
    (eventLayout showUs interner e).Wf := by
  simp only [eventLayout, Json.Layout.Wf, Json.Members.Wf, Json.Members.keys, timeLayout_wf shows,
    countLayout_wf, true_and, and_true]
  decide

theorem eventItems_wf (shows : ShowsUs showUs) (events : List ProfileEvent) :
    (eventItems showUs interner events).Wf := by
  induction events with
  | nil =>
      rw [eventItems, Json.Items.Wf]
      decide
  | cons e rest ih =>
      rw [eventItems, Json.Items.Wf]
      exact ⟨by decide, eventLayout_wf shows e, ih⟩

theorem traceLayout_wf (shows : ShowsUs showUs) (events : List ProfileEvent) :
    (traceLayout showUs interner events).Wf := by
  simp only [traceLayout, Json.Layout.Wf, Json.Members.Wf, Json.Members.keys,
    eventItems_wf shows events, and_true]
  decide

theorem eventLayout_allPlain {e : ProfileEvent} :
    (eventLayout showUs interner e).AllPlain ↔ e.Plain interner := by
  have phase : Json.Plain (text "X") := by decide
  simp only [eventLayout, Json.Layout.AllPlain, Json.Members.AllPlain, timeLayout, countLayout,
    phase, true_and, and_true]
  rfl

theorem eventItems_allPlain {events : List ProfileEvent} :
    (eventItems showUs interner events).AllPlain ↔ ∀ e ∈ events, e.Plain interner := by
  induction events with
  | nil => simp [eventItems, Json.Items.AllPlain]
  | cons e rest ih =>
      rw [eventItems, Json.Items.AllPlain, eventLayout_allPlain, ih, List.forall_mem_cons]

theorem traceLayout_allPlain {events : List ProfileEvent} :
    (traceLayout showUs interner events).AllPlain ↔ ∀ e ∈ events, e.Plain interner := by
  simp only [traceLayout, Json.Layout.AllPlain, Json.Members.AllPlain, eventItems_allPlain,
    and_true]

theorem utf8_repr (n : Nat) : Json.Utf8 (text (Nat.repr n)) := by
  rw [Json.text_repr]
  exact Json.utf8_decimal n

theorem utf8_showUs (shows : ShowsUs showUs) (ns : BitVec 64) : Json.Utf8 (showUs ns) := by
  obtain ⟨whole, part, same, -, -, digit⟩ := shows ns
  have point : Json.Utf8 [0x2E] := Json.utf8_of_ascii (by decide +kernel)
  rw [same]
  exact (Json.utf8_decimal whole).append (point.append (Json.utf8_of_digits digit))

theorem utf8_line (shows : ShowsUs showUs) {e : ProfileEvent} (utf8 : e.Utf8 interner)
    {comma : List UInt8} (ascii : ∀ b ∈ comma, b < 0x80) :
    Json.Utf8 (line showUs interner e comma) := by
  obtain ⟨name, category, file⟩ := utf8
  have open_ : Json.Utf8 (text "  \x7b\"name\":\"") := Json.utf8_of_ascii (by decide +kernel)
  have cat : Json.Utf8 (text "\",\"cat\":\"") := Json.utf8_of_ascii (by decide +kernel)
  have ts : Json.Utf8 (text "\",\"ph\":\"X\",\"ts\":") := Json.utf8_of_ascii (by decide +kernel)
  have dur : Json.Utf8 (text ",\"dur\":") := Json.utf8_of_ascii (by decide +kernel)
  have pid : Json.Utf8 (text ",\"pid\":") := Json.utf8_of_ascii (by decide +kernel)
  have tid : Json.Utf8 (text ",\"tid\":") := Json.utf8_of_ascii (by decide +kernel)
  have args : Json.Utf8 (text ",\"args\":\x7b\"file\":\"") := Json.utf8_of_ascii (by decide +kernel)
  have row : Json.Utf8 (text "\",\"line\":") := Json.utf8_of_ascii (by decide +kernel)
  have close : Json.Utf8 (text "\x7d\x7d") := Json.utf8_of_ascii (by decide +kernel)
  have feed : Json.Utf8 (text "\n") := Json.utf8_of_ascii (by decide +kernel)
  have toName := open_.append name
  have toCategory := (toName.append cat).append category
  have toStart := (toCategory.append ts).append (utf8_showUs shows e.startTimeNs)
  have toDuration := (toStart.append dur).append (utf8_showUs shows e.durationNs)
  have toProcess := (toDuration.append pid).append (utf8_repr e.processId.toNat)
  have toThread := (toProcess.append tid).append (utf8_repr e.threadId.toNat)
  have toFile := (toThread.append args).append file
  have toRow := (toFile.append row).append (utf8_repr e.location.line.toNat)
  exact ((toRow.append close).append (Json.utf8_of_ascii ascii)).append feed

theorem utf8_lines (shows : ShowsUs showUs) {events : List ProfileEvent}
    (utf8 : ∀ e ∈ events, e.Utf8 interner) :
    Json.Utf8 (lines showUs interner events).flatten := by
  induction events with
  | nil => exact ⟨[], rfl⟩
  | cons e rest ih =>
      rw [lines, List.flatten_cons]
      refine Json.Utf8.append ?_ (ih fun other there => utf8 other (List.mem_cons_of_mem _ there))
      rw [lineBefore]
      split
      · exact utf8_line shows (utf8 e List.mem_cons_self) (by decide +kernel)
      · exact utf8_line shows (utf8 e List.mem_cons_self) (by decide +kernel)

/-! ## Reading the document back -/

/-- The object that a layout of an event means is the object of the event. -/
theorem traceObject_meaning (e : ProfileEvent) :
    TraceObject interner e (eventLayout showUs interner e).meaning := by
  have names : [text "name", text "cat", text "ph", text "ts", text "dur", text "pid", text "tid",
      text "args"].Nodup := by decide
  have names' : [text "file", text "line"].Nodup := by decide
  simp only [eventLayout, Json.Layout.meaning, Json.Members.meaning, timeLayout, countLayout]
  refine ⟨_, [(text "file", .string e.location.file.bytes),
    (text "line", .number e.location.line.toNat 0)], rfl, Json.sole_of_mem names ?_,
    Json.sole_of_mem names ?_, Json.sole_of_mem names ?_, Json.sole_of_mem names ?_,
    Json.sole_of_mem names ?_, Json.sole_of_mem names' ?_, Json.sole_of_mem names' ?_⟩ <;>
  simp only [List.mem_cons, true_or, or_true]

/-- The object of an event has the strings of the event. -/
theorem TraceObject.agrees {e : ProfileEvent} {v : Json.Value} (object : TraceObject interner e v) :
    (eventLayout showUs interner e).Agrees v := by
  obtain ⟨members, args, rfl, name, category, -, -, args_, file, -⟩ := object
  have phase : Json.Plain (text "X") := by decide
  simp only [eventLayout, Json.Layout.Agrees, Json.Members.Agrees, Json.Layout.AllPlain,
    Json.Members.AllPlain, timeLayout, countLayout, phase, true_or, true_and, and_true]
  exact ⟨members, rfl, Or.inr ⟨_, name, rfl⟩, Or.inr ⟨_, category, rfl⟩,
    Or.inr ⟨_, args_, args, rfl, Or.inr ⟨_, file, rfl⟩⟩⟩

theorem eventItems_agrees {events : List ProfileEvent} {values : List Json.Value}
    (each : List.Forall₂ (TraceObject interner) events values) :
    (eventItems showUs interner events).Agrees values := by
  induction each with
  | nil =>
      rw [eventItems, Json.Items.Agrees]
  | cons object _ ih =>
      rw [eventItems, Json.Items.Agrees]
      exact ⟨_, _, rfl, TraceObject.agrees object, ih⟩

theorem traceObjects_meaning (events : List ProfileEvent) :
    List.Forall₂ (TraceObject interner) events (eventItems showUs interner events).meaning := by
  induction events with
  | nil =>
      rw [eventItems, Json.Items.meaning]
      exact .nil
  | cons e rest ih =>
      rw [eventItems, Json.Items.meaning]
      exact .cons (traceObject_meaning e) ih

/-- The document of lines that fit reads back as its events if and only if their texts are
plain. -/
theorem traceFile_iff (shows : ShowsUs showUs) {events : List ProfileEvent}
    (utf8 : ∀ e ∈ events, e.Utf8 interner) :
    TraceFile interner (header ++ (lines showUs interner events).flatten ++ footer) events ↔
      ∀ e ∈ events, e.Plain interner := by
  have wf := @traceLayout_wf ι showUs interner shows events
  rw [← @traceLayout_allPlain ι showUs interner events]
  constructor
  · rintro ⟨members, values, ⟨-, read⟩, array, each⟩
    rw [document_eq_text] at read
    refine Json.allPlain_of_parse wf read ?_
    simp only [traceLayout, Json.Layout.Agrees, Json.Members.Agrees, and_true]
    exact ⟨members, rfl, Or.inr ⟨_, array, values, rfl, eventItems_agrees each⟩⟩
  · intro plain
    have read := Json.parse_text wf (by decide : Json.Spaces [0x0A]) plain
    rw [← document_eq_text, traceLayout] at read
    simp only [Json.Layout.meaning, Json.Members.meaning] at read
    have front : Json.Utf8 header := Json.utf8_of_ascii (by decide +kernel)
    have back : Json.Utf8 footer := Json.utf8_of_ascii (by decide +kernel)
    refine ⟨_, _, ⟨(front.append (utf8_lines shows utf8)).append back, read⟩, ?_,
      @traceObjects_meaning ι showUs interner events⟩
    exact Json.sole_of_mem (List.nodup_singleton _) List.mem_cons_self

end Layouts

/-! ## The file -/

/-- What a line comes to in a file, at a position: behind a line that is longer than its buffer lies
what the file held there. -/
def laidLine (under : Nat → UInt8) (first : Nat) (line : List UInt8) : List UInt8 :=
  line.take maxSingleEventWriteSize ++
    readBytes under (first + (line.take maxSingleEventWriteSize).length)
      (line.length - (line.take maxSingleEventWriteSize).length)

/-- What lines come to in a file, from a position on. -/
def laid (under : Nat → UInt8) : (first : Nat) → List (List UInt8) → List UInt8
  | _, [] => []
  | first, line :: rest => laidLine under first line ++ laid under (first + line.length) rest

theorem length_laidLine (under : Nat → UInt8) (first : Nat) (line : List UInt8) :
    (laidLine under first line).length = line.length := by
  rw [laidLine, List.length_append, length_readBytes, List.length_take]
  omega

theorem laid_of_short {under : Nat → UInt8} {ls : List (List UInt8)}
    (short : ∀ line ∈ ls, line.length ≤ maxSingleEventWriteSize) (first : Nat) :
    laid under first ls = ls.flatten := by
  induction ls generalizing first with
  | nil => rfl
  | cons line rest ih =>
      rw [laid, laidLine, List.take_of_length_le (short line List.mem_cons_self), Nat.sub_self,
        readBytes, List.range_zero, List.map_nil, List.append_nil,
        ih fun l there => short l (List.mem_cons_of_mem _ there), List.flatten_cons]

/-- In a new file a line that was cut leaves zeros. -/
theorem zero_mem_laid {ls : List (List UInt8)} {line : List UInt8} (there : line ∈ ls)
    (long : maxSingleEventWriteSize < line.length) (first : Nat) :
    (0 : UInt8) ∈ laid (fun _ => 0) first ls := by
  induction ls generalizing first with
  | nil => cases there
  | cons head rest ih =>
      rw [laid, laidLine]
      rcases List.mem_cons.mp there with rfl | there
      · refine List.mem_append_left _ (List.mem_append_right _ (List.mem_map.mpr ⟨0, ?_, rfl⟩))
        rw [List.mem_range, List.length_take]
        omega
      · exact List.mem_append_right _ (ih there _)

variable [DecidableEq π] {path : π} {under : Nat → UInt8} {content : List UInt8}
  {s : StreamWriter π 64} {os : Os π}

/-- One turn of the loop. -/
theorem writeLine_covers (covers : Covers path under content s os) {line : List UInt8}
    (small : content.length < 2 ^ 63 + 2 ^ 58) (short : line.length < 2 ^ 58) (calls : Calls) :
    (∃ s' os', writeLine line calls s os = some (s', os', false) ∧ os'.refused = true) ∨
      ∃ s' os', writeLine line calls s os = some (s', os', true) ∧
        Covers path under (content ++ laidLine under content.length line) s' os' ∧
        content.length + line.length < 2 ^ 63 + 2 ^ 58 := by
  have kilo := maxSingleEventWriteSize_eq
  have length : (BitVec.ofNat 64 maxSingleEventWriteSize).toNat = 1024 := by
    rw [kilo]
    decide
  have cut : (line.take maxSingleEventWriteSize).length ≤ line.length ∧
      (line.take maxSingleEventWriteSize).length ≤ 1024 := by
    rw [List.length_take]
    omega
  rcases covers.reserveExtra (by omega : content.length +
      (BitVec.ofNat 64 maxSingleEventWriteSize).toNat < 2 ^ 64) calls with
    ⟨failed, refused⟩ | ⟨s', os', same, reserved, room⟩
  · left
    refine ⟨(s.reserveExtra (BitVec.ofNat 64 maxSingleEventWriteSize) os calls).1, _, ?_, refused⟩
    simp only [writeLine, StreamWriter.prepareWriteBuffer, if_pos failed]
  · right
    have bound := reserved.bound
    have head : s'.head = .mapped ⟨some (path, 0), s'.capacity⟩ s'.writeOffset := by
      rw [StreamWriter.head, reserved.mmap]
      rfl
    obtain ⟨os'', stored, next⟩ := reserved.store
      (by omega : content.length + (line.take maxSingleEventWriteSize).length ≤ s'.capacity.toNat)
      cut.1 (by omega)
    rw [head] at stored
    refine ⟨_, _, ?_, next, by omega⟩
    simp only [writeLine, StreamWriter.prepareWriteBuffer, same, Bool.true_eq_false, if_false, head,
      stored]

/-- The loop. -/
theorem writeLines_covers {ls : List (List UInt8)} (covers : Covers path under content s os)
    (small : content.length < 2 ^ 63 + 2 ^ 58) (short : ∀ line ∈ ls, line.length < 2 ^ 58)
    (calls : Nat → Calls) :
    (∃ s' os', writeLines ls calls s os = some (s', os', false) ∧ os'.refused = true) ∨
      ∃ s' os', writeLines ls calls s os = some (s', os', true) ∧
        Covers path under (content ++ laid under content.length ls) s' os' ∧
        (content ++ laid under content.length ls).length < 2 ^ 63 + 2 ^ 58 := by
  induction ls generalizing content s os calls with
  | nil =>
      right
      rw [laid, List.append_nil]
      exact ⟨s, os, rfl, covers, small⟩
  | cons line rest ih =>
      rcases writeLine_covers covers small (short line List.mem_cons_self) (calls 0) with
        ⟨s', os', stopped, refused⟩ | ⟨s', os', written, next, small'⟩
      · left
        exact ⟨s', os', by rw [writeLines, stopped], refused⟩
      · have length : (content ++ laidLine under content.length line).length =
            content.length + line.length := by
          rw [List.length_append, length_laidLine]
        rw [writeLines, written, laid, ← List.append_assoc, ← length]
        exact ih next (by omega) (fun l there => short l (List.mem_cons_of_mem _ there)) _

/-- What `write_to_file` comes to: the system refuses a call, or it returns true and the file holds
the header, the lines and the footer. -/
theorem writeToFile_outcome {showUs : BitVec 64 → List UInt8} {interner : StringPool ι}
    {events : List ProfileEvent} (shows : ShowsUs showUs) (served : os.refused = false)
    (some_ : BitVec.ofNat 64 (events.length * 200 + 512) ≠ 0) (answers : Answers) :
    (∃ os', writeToFile showUs interner path events answers os = some (os', false) ∧
      os'.refused = true) ∨
    ∃ os', writeToFile showUs interner path events answers os = some (os', true) ∧
      (os'.refused = true ∨ os'.files path = header ++
        laid (byteAt (resized (os.files path)
            (BitVec.ofNat 64 (events.length * 200 + 512)).toNat)) header.length
          (lines showUs interner events) ++ footer) := by
  have short : header.length = 17 ∧ footer.length = 3 := by decide
  rw [writeToFile]
  rcases @open_cases π _ path (StreamWriter.construct : StreamWriter π 64) os
      (BitVec.ofNat 64 (events.length * 200 + 512)) some_ answers.opening with
    ⟨s₁, os₁, opened, refused⟩ | ⟨s₁, os₁, opened⟩
  · left
    simp only [opened]
    exact ⟨_, rfl, finish_refused refused _⟩
  have begins := covers_of_open served opened
  simp only [opened]
  have room : ([] : List UInt8).length + header.length < 2 ^ 64 := by
    rw [List.length_nil]
    omega
  rcases begins.write room answers.header with
    ⟨s₂, os₂, stopped, refused⟩ | ⟨s₂, os₂, headed, covers, -⟩
  · left
    simp only [stopped]
    exact ⟨_, rfl, finish_refused refused _⟩
  rw [List.nil_append] at covers
  simp only [headed]
  have short' : ∀ line ∈ lines showUs interner events, line.length < 2 ^ 58 :=
    fun line there => length_line_lt shows there
  rcases writeLines_covers covers (by omega) short' answers.events with
    ⟨s₃, os₃, stopped, refused⟩ | ⟨s₃, os₃, looped, covers, small⟩
  · left
    simp only [stopped]
    exact ⟨_, rfl, finish_refused refused _⟩
  simp only [looped]
  have room' : (header ++ laid (byteAt (resized (os.files path)
      (BitVec.ofNat 64 (events.length * 200 + 512)).toNat)) header.length
      (lines showUs interner events)).length + footer.length < 2 ^ 64 := by omega
  rcases covers.write room' answers.footer with
    ⟨s₄, os₄, stopped, refused⟩ | ⟨s₄, os₄, footed, covers, -⟩
  · left
    simp only [stopped]
    exact ⟨_, rfl, finish_refused refused _⟩
  right
  simp only [footed]
  have closed : (s₄.finish os₄ answers.last).1.file.handle = none := by
    have valid : (⟨some path, .readWrite⟩ : FileHandle π).isValid = true := rfl
    simp only [StreamWriter.finish, covers.file, valid, Bool.true_eq_false, if_false]
    rfl
  rw [finish_of_closed closed]
  exact ⟨_, rfl, (covers.finish answers.last).imp_right fun h => h.2⟩

/-- What is asked of one call: it stays inside its mapping, and if the system serves it then it
returns true and leaves the trace of the events. -/
def Faithful (showUs : BitVec 64 → List UInt8) (interner : StringPool ι) (path : π)
    (events : List ProfileEvent) (answers : Answers) (os : Os π) : Prop :=
  ∃ os' ok, writeToFile showUs interner path events answers os = some (os', ok) ∧
    (os'.refused = false → ok = true ∧ TraceFile interner (os'.files path) events)

/-- For every list of events whose texts are UTF-8, and that the system can serve on an empty file:
every call is faithful, on every file and whatever the system answers, if and only if the texts of
the events are plain and no event is longer than a buffer. -/
theorem trace_iff {showUs : BitVec 64 → List UInt8} {interner : StringPool ι}
    {events : List ProfileEvent} (shows : ShowsUs showUs)
    (utf8 : ∀ e ∈ events, e.Utf8 interner) {os₀ os₁ : Os π} {answers₀ : Answers}
    (served : os₀.refused = false) (empty : os₀.files path = [])
    (ran : writeToFile showUs interner path events answers₀ os₀ = some (os₁, true))
    (serves : os₁.refused = false) :
    (∀ (answers : Answers) (os : Os π), os.refused = false →
      Faithful showUs interner path events answers os) ↔
    (∀ e ∈ events, e.Plain interner) ∧ Fits showUs interner events := by
  have some_ : BitVec.ofNat 64 (events.length * 200 + 512) ≠ 0 := by
    intro zero
    rw [writeToFile, zero] at ran
    generalize opened : (StreamWriter.construct : StreamWriter π 64).open_ path 0 os₀
      answers₀.opening = r at ran
    obtain ⟨s', os', ok⟩ := r
    cases ok with
    | false => cases ran
    | true => exact (open_eq opened).2.2.2 rfl
  rw [fits_iff, ← traceFile_iff shows utf8]
  constructor
  · intro faithful
    obtain ⟨os', ok, ran', holds⟩ := faithful answers₀ os₀ served
    obtain ⟨rfl, rfl⟩ := Prod.mk.inj (Option.some.inj (ran.symm.trans ran'))
    obtain ⟨-, trace⟩ := holds serves
    rcases @writeToFile_outcome π ι _ path os₀ showUs interner events shows served some_ answers₀
      with ⟨os', stopped, -⟩ | ⟨os', done, refused | file⟩
    · rw [ran] at stopped
      cases stopped
    · rw [ran] at done
      cases done
      rw [serves] at refused
      cases refused
    rw [ran] at done
    cases done
    rw [empty] at file
    have under : byteAt (resized []
        (BitVec.ofNat 64 (events.length * 200 + 512)).toNat) = fun _ => 0 := by
      funext p
      rw [byteAt_resized, byteAt_of_length_le (Nat.zero_le p), ite_self]
    rw [under] at file
    have short : ∀ line ∈ lines showUs interner events, line.length ≤ maxSingleEventWriteSize := by
      intro line there
      by_contra long
      obtain ⟨members, values, ⟨-, read⟩, -⟩ := trace
      apply Json.nonzero_of_parse read
      rw [file]
      exact List.mem_append_left _
        (List.mem_append_right _ (zero_mem_laid there (Nat.not_le.mp long) _))
    rw [laid_of_short short] at file
    rw [← file]
    exact ⟨trace, short⟩
  · rintro ⟨trace, short⟩ answers os served'
    rcases
      @writeToFile_outcome π ι _ path os showUs interner events shows served' some_ answers with
      ⟨os', stopped, refused⟩ | ⟨os', done, outcome⟩
    · refine ⟨os', false, stopped, fun unrefused => ?_⟩
      rw [refused] at unrefused
      cases unrefused
    · refine ⟨os', true, done, fun unrefused => ⟨rfl, ?_⟩⟩
      rcases outcome with refused | file
      · rw [refused] at unrefused
        cases unrefused
      · rw [file, laid_of_short short]
        exact trace

/-- A time with three decimals, exact below `2 ^ 53`. -/
def exactUs (ns : BitVec 64) : List UInt8 :=
  Json.decimal (ns.toNat / 1000) ++ 0x2E ::
    [ns.toNat % 1000 / 100, ns.toNat % 100 / 10, ns.toNat % 10].map fun d => UInt8.ofNat (0x30 + d)

theorem showsUs_exactUs : ShowsUs exactUs := by
  intro ns
  have digit : ∀ d, d < 10 → Json.isDigit (UInt8.ofNat (0x30 + d)) = true := by decide
  refine ⟨_, _, rfl, Nat.lt_of_le_of_lt (Nat.div_le_self ..) ns.isLt, rfl, fun b there => ?_⟩
  obtain ⟨d, inside, rfl⟩ := List.mem_map.mp there
  refine digit d ?_
  simp only [List.mem_cons, List.not_mem_nil, or_false] at inside
  omega

/-- The system answers every call. -/
def Answers.all : Answers := ⟨.all, .all, fun _ => .all, .all, .all⟩

/-- A pool that holds one name at the offset 8. -/
def onePool : StringPool Unit where
  arena := Mem.World.initial (Mem.ConcurrentArena.fresh 64) fun _ => ()
  memory := writeBytes (fun _ => 0) 4 (stored (text "main_pass"))
  totals := 0
  appenders := fun _ => .idle
  returned := []

/-- An event in a file, named by the pool and without a category. -/
def eventIn (file : CString) : ProfileEvent :=
  ⟨⟨8⟩, invalidStringPoolId, ⟨file, 10⟩, 1000000, 2500, 1234, 5678⟩

def slashFile : CString := ⟨text "src/main.cc", by decide, by decide⟩

def backslashFile : CString := ⟨text "src\\main.cc", by decide, by decide⟩

theorem served_eventIn (file : CString) (finishes : (match writeToFile exactUs onePool ()
    [eventIn file] .all ⟨fun _ => [], false⟩ with
    | some (os, true) => !os.refused
    | _ => false) = true) : ∃ os, writeToFile exactUs onePool () [eventIn file] .all
      ⟨fun _ => [], false⟩ = some (os, true) ∧ os.refused = false := by
  split at finishes
  · next os done => exact ⟨os, done, by simpa using finishes⟩
  · cases finishes

theorem utf8_slashFile : ∀ e ∈ [eventIn slashFile], e.Utf8 onePool := by
  intro e there
  cases List.mem_singleton.mp there
  exact ⟨Json.utf8_of_ascii (by decide +kernel), Json.utf8_of_ascii (by decide +kernel),
    Json.utf8_of_ascii (by decide +kernel)⟩

theorem trace_iff_slashFile : (eventIn slashFile).Utf8 onePool ∧
    ∀ (answers : Answers) (os : Os Unit), os.refused = false →
      Faithful exactUs onePool () [eventIn slashFile] answers os := by
  obtain ⟨os, ran, serves⟩ := served_eventIn slashFile (by decide +kernel)
  refine ⟨utf8_slashFile _ List.mem_cons_self, ?_⟩
  refine (trace_iff showsUs_exactUs utf8_slashFile rfl rfl ran serves).mpr ⟨?_, ?_⟩
  · intro e there
    cases List.mem_singleton.mp there
    exact ⟨by decide +kernel, by decide +kernel, by decide +kernel⟩
  · refine ⟨?_, trivial⟩
    rw [maxSingleEventWriteSize_eq]
    decide +kernel

/-- The file of the event is `src\main.cc`, and `\m` is no escape. -/
theorem not_trace_backslashFile :
    ∃ os, writeToFile exactUs onePool () [eventIn backslashFile] .all ⟨fun _ => [], false⟩ =
        some (os, true) ∧ os.refused = false ∧
      ¬ TraceFile onePool (os.files ()) [eventIn backslashFile] := by
  obtain ⟨os, ran, serves⟩ := served_eventIn backslashFile (by decide +kernel)
  refine ⟨os, ran, serves, ?_⟩
  rintro ⟨members, values, ⟨-, read⟩, -⟩
  have nothing : (match writeToFile exactUs onePool () [eventIn backslashFile] .all
      ⟨fun _ => [], false⟩ with
      | none => false
      | some (os, _) => (Json.parse (os.files ())).isNone) = true := by decide +kernel
  rw [ran] at nothing
  simp only [read] at nothing
  cases nothing

end TimeTraceFormatter

end Fpag.Debug
