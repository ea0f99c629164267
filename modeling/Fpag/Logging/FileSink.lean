import Fpag.Io.StreamContents
import Fpag.Logging.BackendWorker
import Fpag.Logging.LogLevel

/-!
`logging::FileSink` and `logging::JsonLinesSink`: what a file sink makes of the calls of
its worker.

The two sinks differ in the line that an entry becomes and in the room they ask the
writer for. Both hand `flush` to the writer's `finish`, which cuts the file and closes it:
behind the first flush the writer has neither file nor mapping (`Closed`), an entry is
dropped or stored through a pointer that belongs to no mapping, and nothing is written
any more. So the file holds the lines that were logged before the first flush
(`run_outcome`), which are all of them exactly when no entry follows a flush.
-/

namespace Fpag.Logging

open Fpag.Io

variable {π : Type}

inductive FileSinkKind : Type
  | file
  | jsonLines
  deriving DecidableEq, Repr

namespace FileSinkKind

/-- `MAX_LOG_LINE_SIZE` and `MAX_LOG_JSON_SIZE`. -/
def maxLineSize : FileSinkKind → Nat
  | .file => 2048
  | .jsonLines => 4096

/-- The line of an entry, as `fmt` lays it out. -/
def line (kind : FileSinkKind) (entry : LogEntry) (timestampNs : BitVec 64) : List UInt8 :=
  let timestamp := text (Nat.repr timestampNs.toNat)
  match kind with
  | .file =>
      text "[" ++ timestamp ++ text "][" ++ logLevelToStringWithPaddingUpper entry.level ++
        text "] " ++ entry.message ++ text "\n"
  | .jsonLines =>
      text "\x7b\"ts\":" ++ timestamp ++ text ",\"level\":\"" ++ logLevelToString entry.level ++
        text "\",\"msg\":\"" ++ entry.message ++ text "\"\x7d\n"

end FileSinkKind

/-- A call of a file sink, with the time of an entry. -/
inductive FileSinkCall : Type
  | log (entry : LogEntry) (timestampNs : BitVec 64)
  | flush
  deriving DecidableEq, Repr

variable [DecidableEq π]

/-- `FileSink::log` and `JsonLinesSink::log`: `format_to_n` fills the buffer with the front of the
line and returns the size of all of it. -/
def logLine (kind : FileSinkKind) (entry : LogEntry) (timestampNs : BitVec 64) (calls : Calls)
    (s : StreamWriter π 64) (os : Os π) : Except Failure (StreamWriter π 64 × Os π) :=
  match s.prepareWriteBuffer (BitVec.ofNat 64 kind.maxLineSize) os calls with
  | (s, os, .null) => proceed s os
  | (s, os, destination) =>
      let line := kind.line entry timestampNs
      match destination.store os (line.take kind.maxLineSize) with
      | none => .error .stray
      | some os => proceed (s.commitWrite (BitVec.ofNat 64 line.length)) os

/-- `FileSink::flush` and `JsonLinesSink::flush`. -/
def flushFile (calls : Calls) (s : StreamWriter π 64) (os : Os π) :
    Except Failure (StreamWriter π 64 × Os π) :=
  proceed (s.finish os calls).1 (s.finish os calls).2

/-- The calls of a sink, with what the system answers each time. -/
def runFileSink (kind : FileSinkKind) : List (FileSinkCall × Calls) → StreamWriter π 64 → Os π →
    Except Failure (StreamWriter π 64 × Os π)
  | [], s, os => .ok (s, os)
  | (.log entry timestampNs, calls) :: rest, s, os =>
      match logLine kind entry timestampNs calls s os with
      | .error failure => .error failure
      | .ok (s, os) => runFileSink kind rest s os
  | (.flush, calls) :: rest, s, os =>
      match flushFile calls s os with
      | .error failure => .error failure
      | .ok (s, os) => runFileSink kind rest s os

/-- The calls of a sink and its destruction: the sink flushes, and then its writer finishes. -/
def liveFileSink (kind : FileSinkKind) (es : List (FileSinkCall × Calls)) (last : Calls)
    (s : StreamWriter π 64) (os : Os π) : Except Failure (StreamWriter π 64 × Os π) :=
  match runFileSink kind es s os with
  | .error failure => .error failure
  | .ok (s, os) =>
      match flushFile last s os with
      | .error failure => .error failure
      | .ok (s, os) => flushFile last s os

/-- The lines that calls should come to. -/
def lines (kind : FileSinkKind) (es : List (FileSinkCall × Calls)) : List UInt8 :=
  es.flatMap fun e => match e.1 with
    | .log entry timestampNs => kind.line entry timestampNs
    | .flush => []

/-- Every line fits the room that the sink asks for. -/
def Short (kind : FileSinkKind) (es : List (FileSinkCall × Calls)) : Prop :=
  ∀ e ∈ es, ∀ entry timestampNs, e.1 = .log entry timestampNs →
    (kind.line entry timestampNs).length ≤ kind.maxLineSize

/-- No entry follows a flush. -/
def FlushedLast (es : List (FileSinkCall × Calls)) : Prop :=
  es.Pairwise fun first later => first.1 = .flush → later.1 = .flush

/-! ## Behind a flush -/

/-- The writer has neither a file nor a mapping. -/
structure Closed (s : StreamWriter π 64) : Prop where
  file : s.file.handle = none
  mmap : s.mmap.isMapped = false

variable {kind : FileSinkKind} {path : π} {content : List UInt8} {s : StreamWriter π 64} {os : Os π}
  {es : List (FileSinkCall × Calls)}

omit [DecidableEq π] in
theorem proceed_of_served (served : os.refused = false) : proceed s os = .ok (s, os) := by
  rw [proceed, if_neg (by rw [served]; decide)]

/-- An entry leads nowhere on a closed writer: it is dropped or stored astray. -/
theorem Closed.logLine (closed : Closed s) (served : os.refused = false) (entry : LogEntry)
    (timestampNs : BitVec 64) (calls : Calls) :
    logLine kind entry timestampNs calls s os = .error .stray ∨
      ∃ s', logLine kind entry timestampNs calls s os = .ok (s', os) ∧ Closed s' := by
  obtain ⟨file, mmap⟩ := closed
  by_cases fits : s.writeOffset + BitVec.ofNat 64 kind.maxLineSize ≤ s.capacity
  · by_cases zero : s.writeOffset = 0
    · right
      refine ⟨s, ?_, file, mmap⟩
      simp only [Logging.logLine, StreamWriter.prepareWriteBuffer, StreamWriter.reserveExtra,
        if_pos fits, StreamWriter.head, mmap, if_pos zero, Bool.true_eq_false, Bool.false_eq_true,
        if_false]
      exact proceed_of_served served
    · left
      simp only [Logging.logLine, StreamWriter.prepareWriteBuffer, StreamWriter.reserveExtra,
        if_pos fits, StreamWriter.head, mmap, if_neg zero, Bool.true_eq_false, Bool.false_eq_true,
        if_false]
      rfl
  · right
    refine ⟨{ s with mmap := s.mmap.close }, ?_, file, ?_⟩
    · simp only [Logging.logLine, StreamWriter.prepareWriteBuffer, StreamWriter.reserveExtra,
        if_neg fits, FileHandle.resize, file, if_true]
      exact proceed_of_served served
    · simp only [MemoryMappedFile.close, mmap, Bool.false_eq_true, if_false]

theorem Closed.flushFile (closed : Closed s) (served : os.refused = false) (calls : Calls) :
    flushFile calls s os = .ok (s, os) := by
  have shut : s.file.isValid = false := by
    rw [FileHandle.isValid, closed.file]
    rfl
  simp only [Logging.flushFile, StreamWriter.finish, if_pos shut]
  exact proceed_of_served served

/-- Nothing is written any more. -/
theorem Closed.run (closed : Closed s) (served : os.refused = false) :
    (runFileSink kind es s os = .error .stray ∧ ∃ e ∈ es, e.1 ≠ .flush) ∨
      ∃ s', runFileSink kind es s os = .ok (s', os) ∧ Closed s' := by
  induction es generalizing s with
  | nil => exact Or.inr ⟨s, rfl, closed⟩
  | cons e es ih =>
      obtain ⟨call, calls⟩ := e
      cases call with
      | log entry timestampNs =>
          have named : ∃ e ∈ (FileSinkCall.log entry timestampNs, calls) :: es, e.1 ≠ .flush :=
            ⟨_, List.mem_cons_self, by simp⟩
          rcases @Closed.logLine π _ kind s os closed served entry timestampNs calls with
            stray | ⟨s', logged, still⟩
          · left
            rw [runFileSink, stray]
            exact ⟨rfl, named⟩
          · rw [runFileSink, logged]
            exact (ih still).imp_left fun h => ⟨h.1, named⟩
      | flush =>
          rw [runFileSink, closed.flushFile served]
          refine (ih closed).imp_left fun h => ⟨h.1, ?_⟩
          obtain ⟨e, there, other⟩ := h.2
          exact ⟨e, List.mem_cons_of_mem _ there, other⟩

/-! ## In front of a flush -/

/-- An entry with a short line is a chunk of the stream. -/
theorem logLine_eq_put {entry : LogEntry} {timestampNs : BitVec 64} {calls : Calls}
    (short : (kind.line entry timestampNs).length ≤ kind.maxLineSize)
    (fits : (kind.line entry timestampNs).length ≤ (BitVec.ofNat 64 kind.maxLineSize).toNat) :
    logLine kind entry timestampNs calls s os =
      (Chunk.fill (BitVec.ofNat 64 kind.maxLineSize) (kind.line entry timestampNs)
        (kind.line entry timestampNs).length (Nat.le_refl _) fits).put calls s os := by
  have whole : (kind.line entry timestampNs).take kind.maxLineSize = kind.line entry timestampNs :=
    List.take_of_length_le short
  unfold logLine Chunk.put
  dsimp only
  generalize s.prepareWriteBuffer (BitVec.ofNat 64 kind.maxLineSize) os calls = prepared
  obtain ⟨s', os', destination⟩ := prepared
  cases destination with
  | null => rfl
  | wild address =>
      cases stored : Pointer.store os' (kind.line entry timestampNs) (.wild address) with
      | none => simp only [whole, stored]
      | some os => simp only [whole, stored]
  | mapped mmap behind =>
      cases stored : Pointer.store os' (kind.line entry timestampNs) (.mapped mmap behind) with
      | none => simp only [whole, stored]
      | some os => simp only [whole, stored]

theorem toNat_maxLineSize (kind : FileSinkKind) :
    (BitVec.ofNat 64 kind.maxLineSize).toNat = kind.maxLineSize := by
  cases kind <;> rfl

theorem maxLineSize_le (kind : FileSinkKind) : kind.maxLineSize ≤ 4096 := by
  cases kind <;> decide

theorem line_ne_nil (kind : FileSinkKind) (entry : LogEntry) (timestampNs : BitVec 64) :
    kind.line entry timestampNs ≠ [] := by
  cases kind <;> simp [FileSinkKind.line, text]

theorem logLine_streams (streams : Streams path content s os) {entry : LogEntry}
    {timestampNs : BitVec 64} (calls : Calls)
    (short : (kind.line entry timestampNs).length ≤ kind.maxLineSize) :
    logLine kind entry timestampNs calls s os = .error .refused ∨
      ∃ s' os', logLine kind entry timestampNs calls s os = .ok (s', os') ∧
        Streams path (content ++ kind.line entry timestampNs) s' os' := by
  have size := toNat_maxLineSize kind
  have small := maxLineSize_le kind
  have inside := streams.length_le
  have bound := streams.bound
  rw [logLine_eq_put short (by omega)]
  have put := streams.put (.fill (BitVec.ofNat 64 kind.maxLineSize) (kind.line entry timestampNs)
    (kind.line entry timestampNs).length (Nat.le_refl _) (by omega)) calls
    (by rw [Chunk.requested]; omega)
  rw [Chunk.bytes, List.take_length] at put
  exact put

theorem flushFile_streams (streams : Streams path content s os) (calls : Calls) :
    flushFile calls s os = .error .refused ∨
      ∃ s' os', flushFile calls s os = .ok (s', os') ∧ Closed s' ∧ os'.refused = false ∧
        os'.files path = content := by
  have valid : s.file.isValid = true := by
    rw [streams.file]
    rfl
  rcases streams.finish calls with refused | ⟨served, file, -⟩
  · exact Or.inl (proceed_of_refused refused)
  · refine Or.inr ⟨_, _, proceed_of_served served, ⟨?_, ?_⟩, served, file⟩
    · simp only [StreamWriter.finish, valid, Bool.true_eq_false, if_false]
      rfl
    · simp only [StreamWriter.finish, valid, Bool.true_eq_false, if_false]
      simp only [MemoryMappedFile.close, streams.mmap, MemoryMappedFile.isMapped]
      rfl

/-! ## Whole lives -/

/-- The calls in front of the first flush. -/
def beforeFlush (es : List (FileSinkCall × Calls)) : List (FileSinkCall × Calls) :=
  es.takeWhile fun e => e.1 ≠ .flush

theorem beforeFlush_log {entry : LogEntry} {timestampNs : BitVec 64} {calls : Calls} :
    beforeFlush ((.log entry timestampNs, calls) :: es) =
      (.log entry timestampNs, calls) :: beforeFlush es := by
  simp [beforeFlush]

theorem beforeFlush_flush {calls : Calls} : beforeFlush ((.flush, calls) :: es) = [] := by
  simp [beforeFlush]

theorem lines_log {entry : LogEntry} {timestampNs : BitVec 64} {calls : Calls} :
    lines kind ((.log entry timestampNs, calls) :: es) =
      kind.line entry timestampNs ++ lines kind es := List.flatMap_cons

theorem lines_flush {calls : Calls} : lines kind ((.flush, calls) :: es) = lines kind es :=
  List.flatMap_cons

/-- The lines in front of the first flush are all of them exactly when no entry follows it. -/
theorem lines_beforeFlush : lines kind (beforeFlush es) = lines kind es ↔ FlushedLast es := by
  induction es with
  | nil => exact ⟨fun _ => List.Pairwise.nil, fun _ => rfl⟩
  | cons e es ih =>
      obtain ⟨call, calls⟩ := e
      cases call with
      | log entry timestampNs =>
          rw [beforeFlush_log, lines_log, lines_log, List.append_cancel_left_eq, ih, FlushedLast,
            FlushedLast, List.pairwise_cons]
          exact ⟨fun rest => ⟨fun _ _ flush => (by cases flush), rest⟩, fun h => h.2⟩
      | flush =>
          rw [beforeFlush_flush, lines_flush, FlushedLast, List.pairwise_cons]
          have all : lines kind es = [] ↔ ∀ e ∈ es, e.1 = .flush := by
            rw [lines, List.flatMap_eq_nil_iff]
            refine forall_congr' fun e => imp_congr_right fun _ => ?_
            obtain ⟨call, calls⟩ := e
            cases call with
            | log entry timestampNs => simp [line_ne_nil]
            | flush => simp
          refine (eq_comm.trans all).trans ⟨fun every => ⟨fun e there _ => every e there, ?_⟩,
            fun h e there => h.1 e there rfl⟩
          exact List.pairwise_of_forall_mem_list fun _ _ later there _ => every later there

/-- What the calls of a sink come to: the system refuses a call, or the file holds the lines in
front of the first flush, or an entry behind it was stored astray. -/
theorem run_outcome (streams : Streams path content s os) (short : Short kind es) :
    runFileSink kind es s os = .error .refused ∨
      (runFileSink kind es s os = .error .stray ∧ ¬ FlushedLast es) ∨
      ∃ s' os', runFileSink kind es s os = .ok (s', os') ∧
        (Streams path (content ++ lines kind (beforeFlush es)) s' os' ∨
          (Closed s' ∧ os'.refused = false ∧
            os'.files path = content ++ lines kind (beforeFlush es))) := by
  induction es generalizing content s os with
  | nil =>
      right
      right
      refine ⟨s, os, rfl, Or.inl ?_⟩
      rw [beforeFlush, List.takeWhile_nil, lines, List.flatMap_nil, List.append_nil]
      exact streams
  | cons e es ih =>
      obtain ⟨call, calls⟩ := e
      cases call with
      | log entry timestampNs =>
          rcases logLine_streams streams calls (short _ List.mem_cons_self entry timestampNs rfl)
            with refused | ⟨s', os', logged, next⟩
          · left
            rw [runFileSink, refused]
          · rw [runFileSink, logged, beforeFlush_log, lines_log, ← List.append_assoc]
            refine (ih next fun e there => short e (List.mem_cons_of_mem _ there)).imp_right
              (Or.imp_left fun h => ⟨h.1, fun ordered => h.2 (List.pairwise_cons.mp ordered).2⟩)
      | flush =>
          rcases flushFile_streams streams calls with
            refused | ⟨s', os', flushed, closed, served, file⟩
          · left
            rw [runFileSink, refused]
          · right
            rw [runFileSink, flushed, beforeFlush_flush]
            rcases @Closed.run π _ kind s' os' es closed served with
              ⟨stray, e, there, other⟩ | ⟨s'', ran, still⟩
            · left
              refine ⟨stray, fun ordered => other ?_⟩
              exact (List.pairwise_cons.mp ordered).1 e there rfl
            · right
              refine ⟨s'', os', ran, Or.inr ⟨still, served, ?_⟩⟩
              rw [file, lines, List.flatMap_nil, List.append_nil]

/-- Destroying a sink leaves the file as the stream has it. -/
theorem liveFileSink_ok {s' : StreamWriter π 64} {os' : Os π} {last : Calls}
    (ran : runFileSink kind es s os = .ok (s', os'))
    (holds : Streams path content s' os' ∨
      (Closed s' ∧ os'.refused = false ∧ os'.files path = content)) :
    liveFileSink kind es last s os = .error .refused ∨
      ∃ s'' os'', liveFileSink kind es last s os = .ok (s'', os'') ∧ os''.files path = content := by
  simp only [liveFileSink, ran]
  rcases holds with streams | ⟨closed, served, file⟩
  · rcases flushFile_streams streams last with refused | ⟨s'', os'', flushed, closed, served, file⟩
    · left
      rw [refused]
    · right
      refine ⟨s'', os'', ?_, file⟩
      simp only [flushed]
      exact closed.flushFile served last
  · right
    refine ⟨s', os', ?_, file⟩
    simp only [closed.flushFile served last]

/-- What a life comes to that the system serves: the file holds the lines in front of the first
flush, or an entry behind it was stored astray. -/
theorem live_outcome {initialCapacity : BitVec 64} {s' : StreamWriter π 64} {os' : Os π}
    {calls last : Calls} (served : os.refused = false)
    (opened : s.open_ path initialCapacity os calls = (s', os', true)) (short : Short kind es)
    (serves : liveFileSink kind es last s' os' ≠ .error .refused) :
    (liveFileSink kind es last s' os' = .error .stray ∧ ¬ FlushedLast es) ∨
      ∃ s'' os'', liveFileSink kind es last s' os' = .ok (s'', os'') ∧
        os''.files path = lines kind (beforeFlush es) := by
  have begins := streams_of_open served opened
  rcases run_outcome begins short with refused | ⟨stray, unordered⟩ | ⟨s₁, os₁, ran, holds⟩
  · exact absurd (by simp only [liveFileSink, refused]) serves
  · left
    exact ⟨by simp only [liveFileSink, stray], unordered⟩
  · right
    rw [List.nil_append] at holds
    rcases @liveFileSink_ok π _ kind path _ s' os' es s₁ os₁ last ran holds with refused | live
    · exact absurd refused serves
    · exact live

/-- On an opened sink that the system serves, and with lines that fit, the file ends up with one
line for each entry, in order, if and only if no entry follows a flush. -/
theorem kept_iff {initialCapacity : BitVec 64} {s' : StreamWriter π 64} {os' : Os π}
    {calls last : Calls} (served : os.refused = false)
    (opened : s.open_ path initialCapacity os calls = (s', os', true)) (short : Short kind es)
    (serves : liveFileSink kind es last s' os' ≠ .error .refused) :
    (∃ s'' os'', liveFileSink kind es last s' os' = .ok (s'', os'') ∧
      os''.files path = lines kind es) ↔ FlushedLast es := by
  rcases live_outcome served opened short serves with ⟨stray, unordered⟩ | ⟨s₂, os₂, live, file⟩
  · refine ⟨?_, fun ordered => absurd ordered unordered⟩
    rintro ⟨s'', os'', live, -⟩
    rw [stray] at live
    cases live
  · rw [← @lines_beforeFlush kind es, ← file]
    constructor
    · rintro ⟨s'', os'', live', same⟩
      obtain ⟨rfl, rfl⟩ := Prod.mk.inj (Except.ok.inj (live.symm.trans live'))
      exact same
    · intro same
      exact ⟨s₂, os₂, live, same⟩

/-- A writer that is opened with one byte on an empty file. -/
def oneByteWriter : StreamWriter Unit 64 × Os Unit × Bool :=
  (StreamWriter.construct : StreamWriter Unit 64).open_ () 1 ⟨fun _ => [], false⟩ .all

theorem oneByteWriter_opened : (StreamWriter.construct : StreamWriter Unit 64).open_ () 1
    ⟨fun _ => [], false⟩ .all = (oneByteWriter.1, oneByteWriter.2.1, true) := by
  have ok : oneByteWriter.2.2 = true := by decide +kernel
  rw [← ok]
  rfl

def firstEntry : FileSinkCall × Calls := (.log ⟨2, text "a"⟩ 7, .all)

def secondEntry : FileSinkCall × Calls := (.log ⟨4, text "b"⟩ 8, .all)

def flushCall : FileSinkCall × Calls := (.flush, .all)

/-- Both entries in front of the flush: both lines are in the file. -/
theorem kept_iff_flushedLast :
    ∃ s os, liveFileSink .file [firstEntry, secondEntry, flushCall] .all oneByteWriter.1
        oneByteWriter.2.1 = .ok (s, os) ∧
      os.files () = text "[7][INFO ] a\n[8][ERROR] b\n" := by
  have finishes : (match liveFileSink .file [firstEntry, secondEntry, flushCall] .all
      oneByteWriter.1 oneByteWriter.2.1 with
      | .error _ => false
      | .ok _ => true) = true := by decide +kernel
  refine (kept_iff rfl oneByteWriter_opened ?_ ?_).mpr ?_
  · intro e there entry timestampNs log
    simp only [List.mem_cons, List.not_mem_nil, or_false] at there
    rcases there with rfl | rfl | rfl
    · cases log
      decide
    · cases log
      decide
    · cases log
  · intro refused
    rw [refused] at finishes
    cases finishes
  · simp [FlushedLast, firstEntry, secondEntry, flushCall]

/-- The second entry behind the flush, as the worker logs it: its line is lost. -/
theorem not_kept_secondEntry :
    oneByteWriter.2.2 = true ∧
      (∃ r, liveFileSink .file [firstEntry, flushCall, secondEntry] .all oneByteWriter.1
        oneByteWriter.2.1 = .ok r) ∧
      ¬ ∃ s os, liveFileSink .file [firstEntry, flushCall, secondEntry] .all oneByteWriter.1
          oneByteWriter.2.1 = .ok (s, os) ∧
        os.files () = lines .file [firstEntry, flushCall, secondEntry] := by
  have finishes : (match liveFileSink .file [firstEntry, flushCall, secondEntry] .all
      oneByteWriter.1 oneByteWriter.2.1 with
      | .error _ => false
      | .ok _ => true) = true := by decide +kernel
  refine ⟨by decide +kernel, ?_, ?_⟩
  · split at finishes
    · cases finishes
    · next r live => exact ⟨r, live⟩
  rintro ⟨s, os, live, file⟩
  have left : (match liveFileSink .file [firstEntry, flushCall, secondEntry] .all
      oneByteWriter.1 oneByteWriter.2.1 with
      | .error _ => []
      | .ok r => r.2.files ()) = text "[7][INFO ] a\n" := by decide +kernel
  rw [live] at left
  exact absurd (file.symm.trans left) (by decide)

end Fpag.Logging
