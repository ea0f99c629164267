import Fpag.Io.StreamWriter
import Fpag.Logging.LogLevel
import Fpag.Str.StringPool

/-!
`debug::TimeTraceFormatter`.

`write_to_file` lays the events out as one JSON document through a
`MemoryMappedStreamWriter`: a header, a line for each event and a footer. A line is formatted
into a buffer of `MAX_SINGLE_EVENT_WRITE_SIZE` bytes, of which `format_to_n` fills what fits,
and the size of the whole line is committed. The names are set between quotes as they are.

The text of a time in microseconds is what `fmt` makes of a `f64` with three decimals; it is
a parameter here (`showUs`).
-/

namespace Fpag.Debug

open Fpag.Io
open Fpag.Str

variable {π ι : Type}

/-- A string up to its zero byte. It lies in user memory, whose addresses have at most 57 bits. -/
structure CString : Type where
  bytes : List UInt8
  nonzero : (0 : UInt8) ∉ bytes
  size_lt : bytes.length < 2 ^ 57

/-- `debug::Location`, with what a trace shows of it. -/
structure Location : Type where
  file : CString
  line : BitVec 32

/-- `debug::ProfileEvent`. -/
structure ProfileEvent : Type where
  name : StringPoolId
  category : StringPoolId
  location : Location
  startTimeNs : BitVec 64
  durationNs : BitVec 64
  threadId : BitVec 64
  processId : BitVec 32

/-- `INVALID_STRING_POOL_ID`. -/
def invalidStringPoolId : StringPoolId := ⟨0xFFFFFFFF⟩

/-- What an event is called: a placeholder if nothing was interned for it. -/
def shownName (interner : StringPool ι) (id : StringPoolId) (placeholder : List UInt8) :
    List UInt8 :=
  if id = invalidStringPoolId then placeholder else interner.get id

namespace ProfileEvent

variable (interner : StringPool ι) (e : ProfileEvent)

def shownName : List UInt8 := Debug.shownName interner e.name (text "unnamed")

def shownCategory : List UInt8 := Debug.shownName interner e.category (text "default")

end ProfileEvent

/-! ## Writing a trace -/

namespace TimeTraceFormatter

/-- `HEADER`. -/
def header : List UInt8 := text "\x7b\"traceEvents\":[\n"

/-- `FOOTER`. -/
def footer : List UInt8 := text "]\x7d\n"

/-- `MAX_SINGLE_EVENT_WRITE_SIZE`; irreducible, or `rw` counts it down. -/
@[irreducible] def maxSingleEventWriteSize : Nat := 1024

theorem maxSingleEventWriteSize_eq : maxSingleEventWriteSize = 1024 := by
  rw [maxSingleEventWriteSize]

section Lines

variable (showUs : BitVec 64 → List UInt8) (interner : StringPool ι)

/-- The line of an event, as `fmt` lays it out. -/
def line (e : ProfileEvent) (comma : List UInt8) : List UInt8 :=
  text "  \x7b\"name\":\"" ++ e.shownName interner ++
    text "\",\"cat\":\"" ++ e.shownCategory interner ++
    text "\",\"ph\":\"X\",\"ts\":" ++ showUs e.startTimeNs ++
    text ",\"dur\":" ++ showUs e.durationNs ++
    text ",\"pid\":" ++ text (Nat.repr e.processId.toNat) ++
    text ",\"tid\":" ++ text (Nat.repr e.threadId.toNat) ++
    text ",\"args\":\x7b\"file\":\"" ++ e.location.file.bytes ++
    text "\",\"line\":" ++ text (Nat.repr e.location.line.toNat) ++
    text "\x7d\x7d" ++ comma ++ text "\n"

/-- The line of an event in front of the rest; there is a comma unless it is the last. -/
def lineBefore (e : ProfileEvent) (rest : List ProfileEvent) : List UInt8 :=
  line showUs interner e (if rest = [] then [] else text ",")

/-- The lines of all events. -/
def lines : List ProfileEvent → List (List UInt8)
  | [] => []
  | e :: rest => lineBefore showUs interner e rest :: lines rest

end Lines

variable [DecidableEq π]

/-- One turn of the loop: a line is put into the file, unless there is no buffer for it; `none` is a
store outside of a mapping. -/
def writeLine (line : List UInt8) (calls : Calls) (s : StreamWriter π 64) (os : Os π) :
    Option (StreamWriter π 64 × Os π × Bool) :=
  match s.prepareWriteBuffer (BitVec.ofNat 64 maxSingleEventWriteSize) os calls with
  | (s, os, .null) => some (s, os, false)
  | (s, os, destination) =>
      match destination.store os (line.take maxSingleEventWriteSize) with
      | none => none
      | some os => some (s.commitWrite (BitVec.ofNat 64 line.length), os, true)

/-- The loop, with what the system answers in each turn. -/
def writeLines : List (List UInt8) → (calls : Nat → Calls) → StreamWriter π 64 → Os π →
    Option (StreamWriter π 64 × Os π × Bool)
  | [], _, s, os => some (s, os, true)
  | line :: rest, calls, s, os =>
      match writeLine line (calls 0) s os with
      | none => none
      | some (s, os, false) => some (s, os, false)
      | some (s, os, true) => writeLines rest (fun turn => calls (turn + 1)) s os

/-- What the system answers while a trace is written. -/
structure Answers : Type where
  opening : Calls
  header : Calls
  events : Nat → Calls
  footer : Calls
  last : Calls

/-- `TimeTraceFormatter::write_to_file`: whether it returns true, and what is left; on every way
out the destructor of the writer finishes it. -/
def writeToFile (showUs : BitVec 64 → List UInt8) (interner : StringPool ι) (path : π)
    (events : List ProfileEvent) (answers : Answers) (os : Os π) : Option (Os π × Bool) :=
  let estimatedSize := BitVec.ofNat 64 (events.length * 200 + 512)
  match (StreamWriter.construct : StreamWriter π 64).open_ path estimatedSize os
    answers.opening with
  | (s, os, false) => some ((s.finish os answers.last).2, false)
  | (s, os, true) =>
      match s.write header os answers.header with
      | none => none
      | some (s, os, false) => some ((s.finish os answers.last).2, false)
      | some (s, os, true) =>
          match writeLines (lines showUs interner events) answers.events s os with
          | none => none
          | some (s, os, false) => some ((s.finish os answers.last).2, false)
          | some (s, os, true) =>
              match s.write footer os answers.footer with
              | none => none
              | some (s, os, false) => some ((s.finish os answers.last).2, false)
              | some (s, os, true) =>
                  let finished := s.finish os answers.last
                  some ((finished.1.finish finished.2 answers.last).2, true)

end TimeTraceFormatter

end Fpag.Debug
