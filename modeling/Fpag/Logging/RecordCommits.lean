import Fpag.Io.Commits
import Fpag.Logging.FileSink
import Fpag.Debug.TimeTrace

/-!
The commits of `FileSink::log`, `JsonLinesSink::log` and `TimeTraceFormatter::write_to_file`.

All three lay out a record in a buffer of a fixed size and commit the size of the record. Here each
of them is the client of a writer that `Fpag.Io.Commits` speaks of: a sink goes on whatever the
writer answers, `write_to_file` returns when it is turned down. A record that is larger than its
buffer is committed with bytes that nobody wrote.
-/

namespace Fpag.Logging

open Fpag.Io
open Fpag.Str
open Fpag.Debug

variable {π ι : Type}

/-! ## Sinks -/

/-- What a sink does with its writer. -/
def sinkUses (kind : FileSinkKind) (es : List (FileSinkCall × Calls)) : List (Use × Calls) :=
  es.map fun e => match e.1 with
    | .log entry timestampNs => (.format kind.maxLineSize (kind.line entry timestampNs), e.2)
    | .flush => (.finish, e.2)

/-- A client that has not used its writer yet. -/
def newClient (s : StreamWriter π 64) (os : Os π) : Client π := ⟨s, os, [], false⟩

theorem modest_sinkUses {kind : FileSinkKind} {es : List (FileSinkCall × Calls)} :
    ∀ e ∈ sinkUses kind es, e.1.Modest := by
  intro e member
  obtain ⟨⟨call, calls⟩, -, rfl⟩ := List.mem_map.mp member
  cases call with
  | log entry timestampNs => exact lt_of_le_of_lt (maxLineSize_le kind) (by decide)
  | flush => trivial

variable [DecidableEq π]

/-- A log call lays out its line and commits it. -/
theorem logLine_eq_format (kind : FileSinkKind) (entry : LogEntry) (timestampNs : BitVec 64)
    (calls : Calls) (s : StreamWriter π 64) (os : Os π) :
    logLine kind entry timestampNs calls s os =
      match Client.format kind.maxLineSize (kind.line entry timestampNs) calls s os with
      | none => .error .stray
      | some (s, os, _) => proceed s os := by
  unfold logLine Client.format
  generalize s.prepareWriteBuffer (BitVec.ofNat 64 kind.maxLineSize) os calls = prepared
  obtain ⟨s', os', destination⟩ := prepared
  cases destination with
  | null => rfl
  | wild address => rfl
  | mapped mmap behind =>
      dsimp only [formatToN]
      cases (Pointer.mapped mmap behind).store os'
        ((kind.line entry timestampNs).take kind.maxLineSize) with
      | none => rfl
      | some os => rfl

/-- A run of a sink that the system serves is the run of its client. -/
theorem runFileSink_client {kind : FileSinkKind} {es : List (FileSinkCall × Calls)}
    {s s' : StreamWriter π 64} {os os' : Os π} (commits : List Commit)
    (ran : runFileSink kind es s os = .ok (s', os')) :
    ∃ commits', Schedule.run (Client.step false) ⟨s, os, commits, false⟩ (sinkUses kind es) =
      some ⟨s', os', commits', false⟩ := by
  have served {s₁ : StreamWriter π 64} {os₁ : Os π} {r : StreamWriter π 64 × Os π}
      (h : proceed s₁ os₁ = .ok r) : r = (s₁, os₁) := by
    unfold proceed at h
    split at h
    · cases h
    · cases h
      rfl
  induction es generalizing s os commits with
  | nil =>
      cases ran
      exact ⟨commits, rfl⟩
  | cons e es ih =>
      obtain ⟨call, calls⟩ := e
      cases call with
      | log entry timestampNs =>
          rw [runFileSink, logLine_eq_format] at ran
          split at ran
          · cases ran
          · next r₁ r₂ logged =>
              split at logged
              · cases logged
              · next s₁ os₁ commit made =>
                  cases served logged
                  obtain ⟨commits', rest⟩ := ih (commits ++ commit.toList) ran
                  refine ⟨commits', Schedule.run_cons_eq_some.mpr ⟨_, ?_, rest⟩⟩
                  simp only [Client.step, Bool.false_eq_true, if_false, made, Option.map_some,
                    Bool.false_and]
      | flush =>
          rw [runFileSink] at ran
          split at ran
          · cases ran
          · next s₁ os₁ flushed =>
              cases served flushed
              obtain ⟨commits', rest⟩ := ih commits ran
              exact ⟨commits', Schedule.run_cons_eq_some.mpr ⟨_, rfl, rest⟩⟩

/-! ## Traces -/

/-- What the loop of `write_to_file` does with its writer. -/
def eventUses : List (List UInt8) → (calls : Nat → Calls) → List (Use × Calls)
  | [], _ => []
  | line :: rest, calls =>
      (.format TimeTraceFormatter.maxSingleEventWriteSize line, calls 0) ::
        eventUses rest fun turn => calls (turn + 1)

section Trace

variable (showUs : BitVec 64 → List UInt8) (interner : StringPool ι)

/-- What `write_to_file` does with its writer once it is open. -/
def traceUses (events : List ProfileEvent) (answers : TimeTraceFormatter.Answers) :
    List (Use × Calls) :=
  (.write TimeTraceFormatter.header, answers.header) ::
    (eventUses (TimeTraceFormatter.lines showUs interner events) answers.events ++
      [(.write TimeTraceFormatter.footer, answers.footer), (.finish, answers.last)])

end Trace

omit [DecidableEq π] in
theorem modest_eventUses {ls : List (List UInt8)} {calls : Nat → Calls} :
    ∀ e ∈ eventUses ls calls, e.1.Modest := by
  induction ls generalizing calls with
  | nil => exact fun e member => by cases member
  | cons line rest ih =>
      intro e member
      rcases List.mem_cons.mp member with rfl | member
      · rw [Use.Modest, TimeTraceFormatter.maxSingleEventWriteSize_eq]
        decide
      · exact ih e member

omit [DecidableEq π] in
theorem modest_traceUses {showUs : BitVec 64 → List UInt8} {interner : StringPool ι}
    {events : List ProfileEvent} {answers : TimeTraceFormatter.Answers} :
    ∀ e ∈ traceUses showUs interner events answers, e.1.Modest := by
  have short : Use.Modest (.write TimeTraceFormatter.header) ∧
      Use.Modest (.write TimeTraceFormatter.footer) := by
    constructor <;> · rw [Use.Modest]; decide
  intro e member
  rw [traceUses, List.mem_cons, List.mem_append, List.mem_cons, List.mem_singleton] at member
  rcases member with rfl | member | rfl | rfl
  · exact short.1
  · exact modest_eventUses e member
  · exact short.2
  · trivial

/-- A turn of the loop lays out its line and commits it. -/
theorem writeLine_eq_format (line : List UInt8) (calls : Calls) (s : StreamWriter π 64)
    (os : Os π) : TimeTraceFormatter.writeLine line calls s os =
      (Client.format TimeTraceFormatter.maxSingleEventWriteSize line calls s os).map fun r =>
        (r.1, r.2.1, r.2.2.isSome) := by
  unfold TimeTraceFormatter.writeLine Client.format
  generalize s.prepareWriteBuffer (BitVec.ofNat 64 TimeTraceFormatter.maxSingleEventWriteSize) os
    calls = prepared
  obtain ⟨s', os', destination⟩ := prepared
  cases destination with
  | null => rfl
  | wild address => rfl
  | mapped mmap behind =>
      dsimp only [formatToN]
      cases (Pointer.mapped mmap behind).store os'
        (line.take TimeTraceFormatter.maxSingleEventWriteSize) with
      | none => rfl
      | some os => rfl

/-- The loop runs its client through all of its uses, or up to the one that is turned down. -/
theorem writeLines_client {ls : List (List UInt8)} {calls : Nat → Calls} {s s' : StreamWriter π 64}
    {os os' : Os π} {ok : Bool} (commits : List Commit)
    (ran : TimeTraceFormatter.writeLines ls calls s os = some (s', os', ok)) :
    ∃ front back commits', eventUses ls calls = front ++ back ∧
      Schedule.run (Client.step true) ⟨s, os, commits, false⟩ front =
        some ⟨s', os', commits', !ok⟩ ∧ (ok = true → back = []) := by
  induction ls generalizing calls s os commits with
  | nil =>
      cases ran
      exact ⟨[], [], commits, rfl, rfl, fun _ => rfl⟩
  | cons line rest ih =>
      rw [TimeTraceFormatter.writeLines, writeLine_eq_format] at ran
      cases made : Client.format TimeTraceFormatter.maxSingleEventWriteSize line (calls 0) s os with
      | none =>
          rw [made] at ran
          cases ran
      | some r =>
          obtain ⟨s₁, os₁, commit⟩ := r
          rw [made] at ran
          have step : Client.step true (.format TimeTraceFormatter.maxSingleEventWriteSize line,
              calls 0) ⟨s, os, commits, false⟩ =
                some ⟨s₁, os₁, commits ++ commit.toList, commit.isNone⟩ := by
            simp only [Client.step, Bool.false_eq_true, if_false, made, Option.map_some,
              Bool.true_and]
          cases commit with
          | none =>
              cases ran
              exact
                ⟨[(.format TimeTraceFormatter.maxSingleEventWriteSize line, calls 0)], _, _, rfl,
                Schedule.run_cons_eq_some.mpr ⟨_, step, rfl⟩, by rintro ⟨⟩⟩
          | some commit =>
              obtain ⟨front, back, commits', cut, reached, last⟩ := ih (commits ++ [commit]) ran
              refine ⟨(.format TimeTraceFormatter.maxSingleEventWriteSize line, calls 0) :: front,
                back, commits', ?_, ?_, last⟩
              · rw [eventUses, cut]
                rfl
              · exact Schedule.run_cons_eq_some.mpr ⟨_, step, reached⟩

/-- A write from memory by a strict client. -/
theorem step_write {data : List UInt8} {s s' : StreamWriter π 64} {os os' : Os π} {ok : Bool}
    (calls : Calls) (commits : List Commit) (written : s.write data os calls = some (s', os', ok)) :
    Client.step true (.write data, calls) ⟨s, os, commits, false⟩ =
      some ⟨s', os', commits, !ok⟩ := by
  simp only [Client.step, Bool.false_eq_true, if_false, written, Option.map_some, Bool.true_and]

/-- Once its writer is open, `write_to_file` runs its client through all of its uses or up to the
one that is turned down, and the destructor finishes the writer. -/
theorem writeToFile_client {showUs : BitVec 64 → List UInt8} {interner : StringPool ι} {path : π}
    {events : List ProfileEvent} {answers : TimeTraceFormatter.Answers}
    {s : StreamWriter π 64} {os₀ os os' : Os π} {ok : Bool}
    (opened : (StreamWriter.construct : StreamWriter π 64).open_ path
      (BitVec.ofNat 64 (events.length * 200 + 512)) os₀ answers.opening = (s, os, true))
    (ran : TimeTraceFormatter.writeToFile showUs interner path events answers os₀ =
      some (os', ok)) :
    ∃ front c, front <+: traceUses showUs interner events answers ∧
      Schedule.run (Client.step true) (newClient s os) front = some c ∧ c.returned = !ok ∧
      (ok = true → front = traceUses showUs interner events answers) ∧
      os' = (c.writer.finish c.os answers.last).2 := by
  simp only [TimeTraceFormatter.writeToFile, opened] at ran
  split at ran
  · cases ran
  · next s₁ os₁ turned =>
      cases ran
      refine ⟨[(.write TimeTraceFormatter.header, answers.header)], ⟨s₁, os₁, [], true⟩, ⟨_, rfl⟩,
        ?_, rfl, by rintro ⟨⟩, rfl⟩
      exact Schedule.run_cons_eq_some.mpr ⟨_, step_write _ [] turned, rfl⟩
  next s₁ os₁ headed =>
  have first := step_write answers.header [] headed
  split at ran
  · cases ran
  · next s₂ os₂ turned =>
      cases ran
      obtain ⟨front, back, commits, cut, reached, -⟩ := writeLines_client [] turned
      refine ⟨(.write TimeTraceFormatter.header, answers.header) :: front,
        ⟨s₂, os₂, commits, true⟩, ⟨back ++
          [(.write TimeTraceFormatter.footer, answers.footer), (.finish, answers.last)], ?_⟩,
        Schedule.run_cons_eq_some.mpr ⟨_, first, reached⟩, rfl, by rintro ⟨⟩, rfl⟩
      rw [traceUses, cut, List.append_assoc]
      rfl
  next s₂ os₂ looped =>
  obtain ⟨front, back, commits, cut, reached, all⟩ := writeLines_client [] looped
  have uses := all rfl
  subst uses
  rw [List.append_nil] at cut
  split at ran
  · cases ran
  · next s₃ os₃ turned =>
      cases ran
      refine ⟨(.write TimeTraceFormatter.header, answers.header) ::
          (front ++ [(.write TimeTraceFormatter.footer, answers.footer)]), ⟨s₃, os₃, commits, true⟩,
        ⟨[(.finish, answers.last)], ?_⟩,
        Schedule.run_cons_eq_some.mpr ⟨_, first, Schedule.run_append_eq_some.mpr ⟨_, reached,
          Schedule.run_cons_eq_some.mpr ⟨_, step_write _ commits turned, rfl⟩⟩⟩, rfl,
        by rintro ⟨⟩, rfl⟩
      rw [traceUses, cut]
      simp
  next s₃ os₃ footed =>
  cases ran
  refine ⟨traceUses showUs interner events answers, ⟨(s₃.finish os₃ answers.last).1,
    (s₃.finish os₃ answers.last).2, commits, false⟩, List.prefix_refl _, ?_, rfl, fun _ => rfl, rfl⟩
  rw [traceUses, cut]
  exact Schedule.run_cons_eq_some.mpr ⟨_, first, Schedule.run_append_eq_some.mpr ⟨_, reached,
    Schedule.run_cons_eq_some.mpr ⟨_, step_write _ commits footed,
      Schedule.run_cons_eq_some.mpr ⟨_, rfl, rfl⟩⟩⟩⟩

/-! ## What is committed -/

/-- Every commit of the run is sound, and in every state on the way `bytes_written` is inside the
mapping. -/
def CommitsWithin (strict : Bool) (c : Client π) (uses : List (Use × Calls)) : Prop :=
  ∀ front m, front <+: uses → Schedule.run (Client.step strict) c front = some m → m.Within

/-- The run gives no text a buffer that is too small for it. -/
def AllFit (strict : Bool) (c : Client π) (uses : List (Use × Calls)) (c' : Client π) : Prop :=
  Schedule.run (Schedule.guarded (fun e c => Client.fits e c = true) (Client.step strict)) c uses =
    some c'

/-- In every run of a sink, and in every run of `write_to_file` up to any point of it: the commits
are within what was prepared, and `bytes_written` within the mapping, if and only if no record is
larger than a buffer that it is given. -/
theorem commits_within_iff :
    (∀ (kind : FileSinkKind) (es : List (FileSinkCall × Calls)) (s : StreamWriter π 64) (os : Os π)
      (c : Client π), New s →
      Schedule.run (Client.step false) (newClient s os) (sinkUses kind es) = some c →
      (CommitsWithin false (newClient s os) (sinkUses kind es) ↔
        AllFit false (newClient s os) (sinkUses kind es) c)) ∧
    ∀ (showUs : BitVec 64 → List UInt8) (interner : StringPool ι) (path : π)
      (events : List ProfileEvent) (answers : TimeTraceFormatter.Answers) (s : StreamWriter π 64)
      (os₀ os : Os π) (uses : List (Use × Calls)) (c : Client π),
      (StreamWriter.construct : StreamWriter π 64).open_ path
        (BitVec.ofNat 64 (events.length * 200 + 512)) os₀ answers.opening = (s, os, true) →
      uses <+: traceUses showUs interner events answers →
      Schedule.run (Client.step true) (newClient s os) uses = some c →
      (CommitsWithin true (newClient s os) uses ↔ AllFit true (newClient s os) uses c) := by
  have none_ : ∀ commit ∈ ([] : List Commit), commit.Sound := fun _ member => by cases member
  constructor
  · intro kind es s os c new ran
    exact Client.within_iff modest_sinkUses ⟨none_, new.roomy⟩ ran
  · intro showUs interner path events answers s os₀ os uses c opened inside ran
    have new : New s := by
      have made := New.open_ path (BitVec.ofNat 64 (events.length * 200 + 512)) os₀ answers.opening
      rw [opened] at made
      exact made
    exact Client.within_iff (fun e member => modest_traceUses e (inside.subset member))
      ⟨none_, new.roomy⟩ ran

/-- A sink whose writer is opened with one byte. -/
def oneByteSink : Client Unit := newClient oneByteWriter.1 oneByteWriter.2.1

theorem new_oneByteWriter : New oneByteWriter.1 := .open_ () 1 ⟨fun _ => [], false⟩ .all

/-- A short line fits. -/
theorem commits_within_iff_firstEntry :
    CommitsWithin false oneByteSink (sinkUses .file [firstEntry, secondEntry]) := by
  have fits : (Schedule.run (Schedule.guarded (fun e c => Client.fits e c = true)
      (Client.step false)) oneByteSink (sinkUses .file [firstEntry, secondEntry])).isSome
        = true := by
    decide +kernel
  obtain ⟨c, fits⟩ := Option.isSome_iff_exists.mp fits
  exact ((commits_within_iff (π := Unit) (ι := Unit)).1 .file _ _ _ c new_oneByteWriter
    (Schedule.run_of_guarded fits)).mpr fits

/-- A message that fills the buffer of its line on its own. -/
def longEntry : FileSinkCall × Calls := (.log ⟨2, List.replicate 2048 0x61⟩ 7, .all)

/-- Its line has 2060 bytes, and all of them are committed out of a buffer of 2048. -/
theorem not_commits_within_longEntry :
    (∃ c, Schedule.run (Client.step false) oneByteSink (sinkUses .file [longEntry]) = some c) ∧
      ¬ CommitsWithin false oneByteSink (sinkUses .file [longEntry]) := by
  have runs : (Schedule.run (Client.step false) oneByteSink
      (sinkUses .file [longEntry])).isSome = true := by decide +kernel
  obtain ⟨c, ran⟩ := Option.isSome_iff_exists.mp runs
  refine ⟨⟨c, ran⟩, fun within => ?_⟩
  have committed : ((Schedule.run (Client.step false) oneByteSink
      (sinkUses .file [longEntry])).map fun c => c.commits.map fun commit =>
        (commit.prepared, commit.committed)) = some [(2048, 2060)] := by decide +kernel
  rw [ran, Option.map_some, Option.some_inj] at committed
  obtain ⟨commit, member, sizes⟩ := List.mem_map.mp (committed ▸ List.mem_singleton_self _ :
    ((2048, 2060) : Nat × Nat) ∈ c.commits.map fun commit => (commit.prepared, commit.committed))
  have sound := ((within _ c (List.prefix_refl _) ran).commits commit member).within
  rw [(Prod.mk.inj sizes).1, (Prod.mk.inj sizes).2] at sound
  exact absurd sound (by decide)

end Fpag.Logging
