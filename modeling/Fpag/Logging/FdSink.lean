import Fpag.Logging.BackendWorker
import Fpag.Logging.LogLevel

/-!
`logging::FdSink`: what a sink on a file descriptor makes of the calls of its worker.

The sink is its members and, for the descriptor, the bytes that `io::write` was given so
far. A copy to a null buffer, or past the end of the buffer, has no result.

`sent` is what has left the sink or stands in its buffer to be flushed. A record is kept
when it grows by the record; a record that does not fit the rest of the buffer but would
fit the whole of it is not kept, because `log` flushes and then writes it nowhere, and a
record without prefix on an unbuffered sink is not kept when the capacity has room for it.
`written_iff` says that these are the only losses.
-/

namespace Fpag.Logging

/-- `FdSink`, with what the descriptor has received. -/
structure FdSink : Type where
  buffer : Option (List UInt8)
  capacity : Nat
  offset : Nat
  colorStyle : ColorStyle
  useBuffer : Bool
  written : List UInt8

/-- A copy of `bytes` to `buffer + offset`. -/
def copyTo (buffer : Option (List UInt8)) (offset : Nat) (bytes : List UInt8) :
    Option (List UInt8) :=
  match buffer with
  | none => none
  | some room =>
      if offset + bytes.length ≤ room.length then
        some (room.take offset ++ bytes ++ room.drop (offset + bytes.length))
      else none

namespace FdSink

/-- The constructor; `none` is a failed check. The buffer is null or has the capacity. -/
def construct (capacity : Nat) (buffer : Option (Object capacity)) (colorStyle : ColorStyle)
    (useBuffer : Bool) : Option FdSink :=
  if useBuffer && (buffer.isNone || capacity == 0) then none
  else some ⟨buffer.map Subtype.val, capacity, 0, colorStyle, useBuffer, []⟩

/-- `FdSink::available`. -/
def available (s : FdSink) : Nat := s.capacity - s.offset

/-- `io::write` to the descriptor. -/
def write (s : FdSink) (data : List UInt8) : FdSink := { s with written := s.written ++ data }

/-- `FdSink::directly_write`. -/
def directlyWrite (s : FdSink) (pre message : List UInt8) : FdSink :=
  ((s.write pre).write message).write [10]

/-- `FdSink::flush`. -/
def flush (s : FdSink) : FdSink :=
  if 0 < s.offset ∧ s.useBuffer = true then
    { s.write ((s.buffer.getD []).take s.offset) with offset := 0 }
  else s

/-- `FdSink::log`. -/
def log (s : FdSink) (entry : LogEntry) : Option FdSink :=
  let pre := logPrefix entry.level s.colorStyle
  if !s.useBuffer && !pre.isEmpty then some (s.directlyWrite pre entry.message)
  else
    let totalLen := pre.length + entry.message.length + 1
    if totalLen ≤ s.available then do
      let buffer ← copyTo s.buffer s.offset pre
      let buffer ← copyTo (some buffer) (s.offset + pre.length) entry.message
      let buffer ← copyTo (some buffer) (s.offset + totalLen - 1) [10]
      pure { s with buffer := some buffer, offset := s.offset + totalLen }
    else
      let s := s.flush
      -- The branch of a record that fits the emptied buffer has no body.
      if totalLen ≤ s.capacity then some s
      else some (s.directlyWrite pre entry.message)

def step (e : SinkEvent) (s : FdSink) : Option FdSink :=
  match e with
  | .log entry => s.log entry
  | .flush => some s.flush

/-! ## Records -/

/-- What a call of the sink should come to on the descriptor. -/
def record (colorStyle : ColorStyle) : SinkEvent → List UInt8
  | .log entry => logPrefix entry.level colorStyle ++ entry.message ++ [10]
  | .flush => []

/-- The record has a place: on a buffered sink in the rest of the buffer or past the whole of it,
on an unbuffered one by its prefix or past the capacity. -/
def Placed (e : SinkEvent) (s : FdSink) : Prop :=
  match e with
  | .flush => True
  | .log entry =>
      let totalLen := (record s.colorStyle (.log entry)).length
      s.capacity < totalLen ∨
        if s.useBuffer then totalLen ≤ s.available else logPrefix entry.level s.colorStyle ≠ []

instance (e : SinkEvent) (s : FdSink) : Decidable (Placed e s) :=
  match e with
  | .flush => .isTrue trivial
  | .log _ => inferInstanceAs (Decidable (_ ∨ _))

/-- What the sink still has to write. -/
def pending (s : FdSink) : List UInt8 :=
  if s.useBuffer then (s.buffer.getD []).take s.offset else []

/-- What has left the sink or is going to. -/
def sent (s : FdSink) : List UInt8 := s.written ++ s.pending

/-- What holds of a sink between two calls. -/
structure Ok (s : FdSink) : Prop where
  room : ∀ room, s.buffer = some room → room.length = s.capacity
  buffered : s.useBuffer = true → s.buffer.isSome
  inside : s.offset ≤ s.capacity

theorem ok_construct {capacity : Nat} {buffer : Option (Object capacity)}
    {colorStyle : ColorStyle} {useBuffer : Bool} {s : FdSink}
    (constructed : construct capacity buffer colorStyle useBuffer = some s) :
    s.Ok ∧ s.sent = [] ∧ s.colorStyle = colorStyle := by
  simp only [construct] at constructed
  split at constructed
  · cases constructed
  · next checks =>
      cases constructed
      refine ⟨⟨?_, ?_, Nat.zero_le _⟩, ?_, rfl⟩
      · intro room there
        obtain ⟨object, -, rfl⟩ := Option.map_eq_some_iff.mp there
        exact object.property
      · rintro rfl
        cases buffer with
        | none => simp at checks
        | some object => rfl
      · simp [sent, pending]

theorem flush_written (s : FdSink) : s.flush.written = s.sent := by
  by_cases some_ : 0 < s.offset ∧ s.useBuffer = true
  · simp only [flush, if_pos some_, write, sent, pending, if_pos some_.2]
  · simp only [flush, if_neg some_, sent, pending]
    split
    · next buffered =>
        have empty : s.offset = 0 := by
          by_contra pos
          exact some_ ⟨Nat.pos_of_ne_zero pos, buffered⟩
        rw [empty, List.take_zero, List.append_nil]
    · rw [List.append_nil]

theorem flush_pending (s : FdSink) : s.flush.pending = [] := by
  by_cases some_ : 0 < s.offset ∧ s.useBuffer = true
  · simp only [flush, if_pos some_, pending, write, List.take_zero, ite_self]
  · simp only [flush, if_neg some_, pending]
    split
    · next buffered =>
        have empty : s.offset = 0 := by
          by_contra pos
          exact some_ ⟨Nat.pos_of_ne_zero pos, buffered⟩
        rw [empty, List.take_zero]
    · rfl

theorem Ok.flush {s : FdSink} (ok : s.Ok) :
    s.flush.Ok ∧ s.flush.colorStyle = s.colorStyle ∧ s.flush.sent = s.sent := by
  refine ⟨?_, ?_, ?_⟩
  · simp only [FdSink.flush]
    split
    · exact ⟨ok.room, ok.buffered, Nat.zero_le _⟩
    · exact ok
  · simp only [FdSink.flush]
    split <;> rfl
  · rw [sent, flush_pending, List.append_nil, flush_written]

theorem Ok.directlyWrite {s : FdSink} (ok : s.Ok) (empty : s.pending = [])
    (pre message : List UInt8) :
    (s.directlyWrite pre message).Ok ∧
      (s.directlyWrite pre message).sent = s.sent ++ (pre ++ message ++ [10]) := by
  refine ⟨⟨ok.room, ok.buffered, ok.inside⟩, ?_⟩
  have still : (s.directlyWrite pre message).pending = s.pending := rfl
  rw [sent, sent, still, empty]
  simp [FdSink.directlyWrite, write]

theorem copyTo_of_le {room bytes : List UInt8} {offset : Nat}
    (fits : offset + bytes.length ≤ room.length) :
    ∃ room', copyTo (some room) offset bytes = some room' ∧ room'.length = room.length ∧
      room'.take (offset + bytes.length) = room.take offset ++ bytes := by
  refine ⟨_, if_pos fits, ?_, ?_⟩
  · simp only [List.length_append, List.length_take, List.length_drop]
    omega
  · apply List.take_left'
    rw [List.length_append, List.length_take]
    omega

/-- The three copies of a record into the rest of the buffer. -/
theorem copies_of_le {room pre message : List UInt8} {offset : Nat}
    (fits : offset + (pre.length + message.length + 1) ≤ room.length) :
    ∃ room', (do
        let buffer ← copyTo (some room) offset pre
        let buffer ← copyTo (some buffer) (offset + pre.length) message
        copyTo (some buffer) (offset + (pre.length + message.length + 1) - 1) [10]) = some room' ∧
      room'.length = room.length ∧
      room'.take (offset + (pre.length + message.length + 1)) =
        room.take offset ++ (pre ++ message ++ [10]) := by
  obtain ⟨first, copied, length, upto⟩ :=
    copyTo_of_le (by omega : offset + pre.length ≤ room.length)
  obtain ⟨second, copied', length', upto'⟩ :=
    copyTo_of_le (by omega : offset + pre.length + message.length ≤ first.length)
  have last : offset + (pre.length + message.length + 1) - 1 =
      offset + pre.length + message.length := by omega
  obtain ⟨third, copied'', length'', upto''⟩ := copyTo_of_le
    (by simp; omega : offset + pre.length + message.length + [(10 : UInt8)].length ≤ second.length)
  refine ⟨third, ?_, by omega, ?_⟩
  · simp only [copied, copied', last, Option.bind_eq_bind, Option.bind_some]
    exact copied''
  · have whole : offset + (pre.length + message.length + 1) =
        offset + pre.length + message.length + [(10 : UInt8)].length := by
      simp only [List.length_singleton]
      omega
    rw [whole, upto'', upto', upto]
    simp only [List.append_assoc]

theorem length_record (colorStyle : ColorStyle) (entry : LogEntry) :
    (record colorStyle (.log entry)).length =
      (logPrefix entry.level colorStyle).length + entry.message.length + 1 := by
  simp only [record, List.length_append, List.length_singleton]

/-- The record is written directly: the sink is unbuffered and the level has a prefix. -/
def Direct (s : FdSink) (entry : LogEntry) : Prop :=
  s.useBuffer = false ∧ logPrefix entry.level s.colorStyle ≠ []

theorem placed_of_direct {s : FdSink} {entry : LogEntry} (direct : s.Direct entry) :
    Placed (.log entry) s := by
  refine Or.inr ?_
  rw [if_neg (by rw [direct.1]; decide)]
  exact direct.2

theorem placed_iff {s : FdSink} {entry : LogEntry} (indirect : ¬ s.Direct entry) :
    Placed (.log entry) s ↔ s.capacity < (record s.colorStyle (.log entry)).length ∨
      (s.useBuffer = true ∧ (record s.colorStyle (.log entry)).length ≤ s.available) := by
  refine or_congr_right ?_
  split
  · next buffered => exact (and_iff_right buffered).symm
  · next unbuffered =>
      have off : s.useBuffer = false := (Bool.not_eq_true _).mp unbuffered
      refine ⟨fun named => absurd ⟨off, named⟩ indirect, fun placed => absurd placed.1 unbuffered⟩

theorem log_direct {s : FdSink} {entry : LogEntry} (direct : s.Direct entry) :
    s.log entry = some (s.directlyWrite (logPrefix entry.level s.colorStyle) entry.message) := by
  simp [FdSink.log, direct.1, direct.2]

theorem log_indirect {s : FdSink} {entry : LogEntry} (indirect : ¬ s.Direct entry) :
    s.log entry =
      if (record s.colorStyle (.log entry)).length ≤ s.available then
        (do
          let buffer ← copyTo s.buffer s.offset (logPrefix entry.level s.colorStyle)
          let buffer ← copyTo (some buffer)
            (s.offset + (logPrefix entry.level s.colorStyle).length) entry.message
          copyTo (some buffer) (s.offset + (record s.colorStyle (.log entry)).length - 1) [10]).map
            fun buffer => { s with
              buffer := some buffer
              offset := s.offset + (record s.colorStyle (.log entry)).length }
      else if (record s.colorStyle (.log entry)).length ≤ s.capacity then some s.flush
      else some (s.flush.directlyWrite (logPrefix entry.level s.colorStyle) entry.message) := by
  have test : ¬ (!s.useBuffer && !(logPrefix entry.level s.colorStyle).isEmpty) = true := by
    intro both
    simp only [Bool.and_eq_true, Bool.not_eq_true', List.isEmpty_eq_false_iff] at both
    exact indirect both
  have same : s.flush.capacity = s.capacity := by
    simp only [FdSink.flush]
    split <;> rfl
  simp only [FdSink.log, if_neg test, same, length_record]
  split
  · simp only [Option.bind_eq_bind, Option.pure_def, Function.comp_def, Option.map_eq_bind,
      Option.bind_assoc]
  · rfl

/-- A call of `log` keeps the record when the record has a place. -/
theorem Ok.log_placed {s : FdSink} (ok : s.Ok) {entry : LogEntry} (placed : Placed (.log entry) s) :
    ∃ s', s.log entry = some s' ∧ s'.Ok ∧ s'.colorStyle = s.colorStyle ∧
      s'.sent = s.sent ++ record s.colorStyle (.log entry) := by
  by_cases direct : s.Direct entry
  · obtain ⟨still, sent_⟩ := ok.directlyWrite (by simp [pending, direct.1])
      (logPrefix entry.level s.colorStyle) entry.message
    exact ⟨_, log_direct direct, still, rfl, sent_⟩
  have length := length_record s.colorStyle entry
  rw [log_indirect direct]
  rcases (placed_iff direct).mp placed with long | ⟨buffered, fits⟩
  · -- Longer than the whole buffer: what is pending goes first, then the record.
    have inside := ok.inside
    rw [if_neg (by rw [available]; omega), if_neg (by omega)]
    obtain ⟨flushed, style, sent_⟩ := ok.flush
    obtain ⟨still, more⟩ := flushed.directlyWrite s.flush_pending
      (logPrefix entry.level s.colorStyle) entry.message
    refine ⟨_, rfl, still, style, ?_⟩
    rw [more, sent_]
    rfl
  · obtain ⟨room, there⟩ := Option.isSome_iff_exists.mp (ok.buffered buffered)
    have size := ok.room room there
    have inside := ok.inside
    rw [available] at fits
    obtain ⟨room', copied, length', upto⟩ := copies_of_le
      (by omega : s.offset + ((logPrefix entry.level s.colorStyle).length + entry.message.length +
        1) ≤ room.length)
    rw [if_pos (by rw [available]; exact fits), there, length, copied]
    refine ⟨_, rfl, ⟨?_, fun _ => rfl, ?_⟩, rfl, ?_⟩
    · rintro _ ⟨⟩
      exact length'.trans size
    · change s.offset + _ ≤ s.capacity
      omega
    · have before : s.pending = room.take s.offset := by
        rw [pending, if_pos buffered, there]
        rfl
      have after : pending { s with
          buffer := some room'
          offset := s.offset + ((logPrefix entry.level s.colorStyle).length +
            entry.message.length + 1) } = room.take s.offset ++ record s.colorStyle
              (.log entry) := by
        rw [pending, if_pos buffered]
        exact upto
      rw [sent, after, sent, before, List.append_assoc]

/-- A call of `log` loses the record when the record has no place. -/
theorem Ok.log_unplaced {s s' : FdSink} (ok : s.Ok) {entry : LogEntry}
    (unplaced : ¬ Placed (.log entry) s) (h : s.log entry = some s') :
    s'.Ok ∧ s'.colorStyle = s.colorStyle ∧ s'.sent = s.sent := by
  have indirect : ¬ s.Direct entry := mt placed_of_direct unplaced
  have length := length_record s.colorStyle entry
  rw [placed_iff indirect, not_or, not_and] at unplaced
  obtain ⟨short, full⟩ := unplaced
  rw [log_indirect indirect] at h
  split at h
  · next fits =>
      -- The copy goes to the buffer of an unbuffered sink, which is never flushed.
      have unbuffered : s.useBuffer = false := by
        by_contra buffered
        exact full ((Bool.not_eq_false _).mp buffered) fits
      obtain ⟨room', copied, rfl⟩ := Option.map_eq_some_iff.mp h
      have inside := ok.inside
      rw [available] at fits
      cases there : s.buffer with
      | none =>
          rw [there] at copied
          cases copied
      | some room =>
          have size := ok.room room there
          obtain ⟨room'', copied', length', -⟩ := copies_of_le
            (by omega : s.offset + ((logPrefix entry.level s.colorStyle).length +
              entry.message.length + 1) ≤ room.length)
          rw [there, length, copied'] at copied
          obtain rfl := Option.some.inj copied
          refine ⟨⟨?_, fun _ => rfl, ?_⟩, rfl, ?_⟩
          · rintro _ ⟨⟩
            exact length'.trans size
          · change s.offset + _ ≤ s.capacity
            omega
          · simp [sent, pending, unbuffered]
  · rw [if_pos (Nat.not_lt.mp short)] at h
    cases h
    exact ok.flush

theorem Ok.step_placed {s : FdSink} (ok : s.Ok) {e : SinkEvent} (placed : Placed e s) :
    ∃ s', FdSink.step e s = some s' ∧ s'.Ok ∧ s'.colorStyle = s.colorStyle ∧
      s'.sent = s.sent ++ record s.colorStyle e := by
  cases e with
  | log entry => exact ok.log_placed placed
  | flush =>
      obtain ⟨still, style, sent_⟩ := ok.flush
      exact ⟨_, rfl, still, style, by rw [sent_, record, List.append_nil]⟩

/-! ## Whole runs -/

/-- In a run in which every record has a place, every record is kept, in order. -/
theorem Ok.run_placed {s s' : FdSink} {es : List SinkEvent} (ok : s.Ok)
    (h : Schedule.run (Schedule.guarded Placed FdSink.step) s es = some s') :
    s'.sent = s.sent ++ es.flatMap (record s.colorStyle) := by
  induction es generalizing s with
  | nil =>
      cases h
      rw [List.flatMap_nil, List.append_nil]
  | cons e es ih =>
      obtain ⟨m, first, rest⟩ := Schedule.run_cons_eq_some.mp h
      obtain ⟨placed, moved⟩ := Schedule.guarded_eq_some.mp first
      obtain ⟨m', moved', still, style, sent_⟩ := ok.step_placed placed
      obtain rfl := Option.some.inj (moved.symm.trans moved')
      rw [ih still rest, sent_, style, List.flatMap_cons, List.append_assoc]

/-- No run sends more than its records, and one in which a record has no place sends less. -/
theorem Ok.run_length {s s' : FdSink} {es : List SinkEvent} (ok : s.Ok)
    (h : Schedule.run FdSink.step s es = some s') :
    s'.sent.length ≤ s.sent.length + (es.flatMap (record s.colorStyle)).length ∧
      (Schedule.run (Schedule.guarded Placed FdSink.step) s es = none →
        s'.sent.length < s.sent.length + (es.flatMap (record s.colorStyle)).length) := by
  induction es generalizing s with
  | nil =>
      cases h
      refine ⟨Nat.le_add_right _ _, fun stuck => ?_⟩
      cases stuck
  | cons e es ih =>
      obtain ⟨m, moved, rest⟩ := Schedule.run_cons_eq_some.mp h
      rw [List.flatMap_cons, List.length_append]
      by_cases placed : Placed e s
      · obtain ⟨m', moved', still, style, sent_⟩ := ok.step_placed placed
        obtain rfl := Option.some.inj (moved.symm.trans moved')
        obtain ⟨most, less⟩ := ih still rest
        rw [sent_, style, List.length_append] at most less
        refine ⟨by omega, fun stuck => ?_⟩
        have later : Schedule.run (Schedule.guarded Placed FdSink.step) m es = none := by
          rw [Schedule.run, Schedule.guarded, if_pos placed, moved] at stuck
          exact stuck
        have := less later
        omega
      · cases e with
        | flush => exact absurd trivial placed
        | log entry =>
            obtain ⟨still, style, sent_⟩ := ok.log_unplaced placed moved
            obtain ⟨most, -⟩ := ih still rest
            have some_ := length_record s.colorStyle entry
            rw [sent_, style] at most
            exact ⟨by omega, fun _ => by omega⟩

/-- After any calls and a last flush the descriptor has received exactly the records, in call
order, if and only if every record had a place when it was logged. -/
theorem written_iff {capacity : Nat} {buffer : Option (Object capacity)} {colorStyle : ColorStyle}
    {useBuffer : Bool} {s : FdSink} (es : List SinkEvent)
    (constructed : construct capacity buffer colorStyle useBuffer = some s) :
    (∃ s', Schedule.run step s es = some s' ∧
      s'.flush.written = es.flatMap (record colorStyle)) ↔
        (Schedule.run (Schedule.guarded Placed step) s es).isSome = true := by
  obtain ⟨ok, empty, rfl⟩ := ok_construct constructed
  constructor
  · rintro ⟨s', reached, same⟩
    rw [flush_written] at same
    by_contra stuck
    have none_ := Option.not_isSome_iff_eq_none.mp stuck
    have less := (ok.run_length reached).2 none_
    rw [same, empty, List.length_nil, Nat.zero_add] at less
    exact Nat.lt_irrefl _ less
  · intro kept
    obtain ⟨s', kept⟩ := Option.isSome_iff_exists.mp kept
    refine ⟨s', Schedule.run_of_guarded kept, ?_⟩
    rw [flush_written, ok.run_placed kept, empty, List.nil_append]

/-- A buffered sink of sixteen bytes: the third record is longer than the buffer. -/
theorem written_iff_sixteen :
    ∃ s, construct 16 (some ⟨List.replicate 16 0, rfl⟩) .off true = some s ∧
      ∃ s', Schedule.run step s [.log ⟨2, text "ab"⟩, .flush, .log ⟨6, text "0123456789abcdef"⟩]
          = some s' ∧
        s'.flush.written = text " info: ab\n0123456789abcdef\n" := by
  refine ⟨_, rfl, ?_⟩
  have kept := (written_iff [.log ⟨2, text "ab"⟩, .flush, .log ⟨6, text "0123456789abcdef"⟩]
    (rfl : construct 16 (some ⟨List.replicate 16 0, rfl⟩) .off true = some _)).mpr
      (by decide +kernel)
  exact kept

/-- The second of two records does not fit the rest of the buffer: it is lost. -/
theorem not_written_sixteen :
    ∃ s, construct 16 (some ⟨List.replicate 16 0, rfl⟩) .off true = some s ∧
      ¬ ∃ s', Schedule.run step s [.log ⟨2, text "ab"⟩, .log ⟨2, text "cd"⟩, .flush] = some s' ∧
        s'.flush.written = [.log ⟨2, text "ab"⟩, .log ⟨2, text "cd"⟩, .flush].flatMap
          (record .off) := by
  refine ⟨_, rfl, ?_⟩
  rintro ⟨s', reached, same⟩
  have written : (Schedule.run step ⟨some (List.replicate 16 0), 16, 0, .off, true, []⟩
      [.log ⟨2, text "ab"⟩, .log ⟨2, text "cd"⟩, .flush]).map (fun s => s.flush.written)
      = some (text " info: ab\n") := by decide +kernel
  have first : (Schedule.run step ⟨some (List.replicate 16 0), 16, 0, .off, true, []⟩
      [.log ⟨2, text "ab"⟩, .log ⟨2, text "cd"⟩, .flush]) = some s' := reached
  rw [first, Option.map_some, same] at written
  exact absurd written (by decide)

end FdSink

end Fpag.Logging
