import Fpag.Logging.Formatting
import Fpag.Str.InternSafety

/-!
`logging::SyncLogger` and `logging::AsyncLogger`: what the two say of one log call.

The synchronous logger hands format string and arguments to `fmt` at once. The asynchronous
one encodes the arguments into a record, with the interned id or the view of its format
string; the worker decodes the record and formats it, by the storage of the caller at that
later time. A record without arguments and with a format string that is not compiled is not
formatted at all: its format string is copied.
-/

namespace Fpag.Logging

open Fpag.Str

variable {ι : Type} [DecidableEq ι]

/-! ## The calls -/

/-- The format string of a call: compiled, so that it is part of its type, or a runtime value. -/
inductive FormatString : Type
  | compiled (chars : List UInt8)
  | runtime (chars : List UInt8)
  deriving DecidableEq

def FormatString.chars : FormatString → List UInt8
  | .compiled chars => chars
  | .runtime chars => chars

/-- What comes of a log call: nothing at a level that is not logged, a format error, or a call
of the sink. -/
inductive Outcome : Type
  | filtered
  | failed
  | logged (level : UInt8) (message : List UInt8)
  deriving DecidableEq

/-- `should_log`, of both loggers. -/
def shouldLog (minLevel level : UInt8) : Bool := minLevel ≤ level

/-- `SyncLogger::log`, once the logger has a sink. -/
def syncLog (fmt : Fmt) (minLevel level : UInt8) (format : FormatString) (mem : Storage)
    (args : List Argument) : Outcome :=
  if shouldLog minLevel level = false then .filtered
  else
    match (args.mapM (Argument.given mem)).bind (fmt format.chars) with
    | none => .failed
    | some message => .logged level message

/-- A state that the interner can be in: one that its threads have reached. -/
structure Interner (ι : Type) [DecidableEq ι] : Type where
  table : InternTable ι
  reachable : ∃ shape thread pageSize pages capacity pool es,
    StringPool.construct thread pageSize pages capacity = some pool ∧
      Schedule.run (InternTable.step shape) (InternTable.initial pool) es = some table

/-- The format string that the slot of a record stands for; `views` is what a view refers to. -/
def formatView (interner : Interner ι) (views : Object (8 + 8) → List UInt8) :
    Format 8 → List UInt8
  | .compiled => []
  | .interned id => interner.table.pool.get ⟨id⟩
  | .view representation => views representation

/-- The slot that `write_header` writes for a format string. -/
inductive Names (interner : Interner ι) (views : Object (8 + 8) → List UInt8) :
    FormatString → Format 8 → Prop
  | compiled (chars : List UInt8) : Names interner views (.compiled chars) .compiled
  | interned (chars : List UInt8) (id : BitVec 32) :
      ⟨chars, ⟨id⟩⟩ ∈ interner.table.interned →
        Names interner views (.runtime chars) (.interned id)
  | view (chars : List UInt8) (representation : Object (8 + 8)) :
      views representation = chars → Names interner views (.runtime chars) (.view representation)

/-- `Deserializer::deserialize` behind the decoding of the arguments. -/
def formatDecoded (fmt : Fmt) (interner : Interner ι) (views : Object (8 + 8) → List UInt8)
    (format : FormatString) (charPtrs : List Bool) (mem : Storage) (decoded : Decoded 8) :
    Option (List UInt8) :=
  let given := (charPtrs.zip decoded.args).mapM fun arg => arg.2.given mem arg.1
  match format with
  | .compiled chars => given.bind (fmt chars)
  | .runtime _ =>
      let view := formatView interner views decoded.format
      -- The fast path copies the format string.
      if charPtrs = [] then some view else given.bind (fmt view)

/-- The bytes of a record, with what happened to be in those that were not written. -/
def recordOf (slots : List (Option UInt8)) (junk : Nat → UInt8) : List UInt8 :=
  slots.mapIdx fun i slot => slot.getD (junk i)

/-- What the worker makes of a record, by the storage `later`. -/
def workerMessage (fmt : Fmt) (interner : Interner ι) (views : Object (8 + 8) → List UInt8)
    (format : FormatString) (kind : FormatKind) (types : List ArgType) (charPtrs : List Bool)
    (later : Storage) (record : List UInt8) : Option (UInt8 × List UInt8) := do
  let header ← readHeader 8 record
  let decoded ← deserialize 8 kind types record header.payloadSize
  let message ← formatDecoded fmt interner views format charPtrs later decoded
  pure (header.level, message)

/-- `AsyncLogger::log` by the storage `mem`, and the worker by the storage `later`. -/
def asyncLog (fmt : Fmt) (interner : Interner ι) (views : Object (8 + 8) → List UInt8)
    (minLevel level : UInt8) (func : BitVec (8 * 8)) (format : FormatString) (encoding : Format 8)
    (junk : Nat → UInt8) (mem later : Storage) (args : List Argument) : Outcome :=
  if shouldLog minLevel level = false then .filtered
  else
    match (do
      let loaded ← args.mapM (Argument.encoded mem)
      let out ← serializeTo level func encoding loaded
      workerMessage fmt interner views format encoding.kind (loaded.map Arg.type)
        (args.map Argument.isCharPtr) later (recordOf out.slots junk)) with
    | none => .failed
    | some (level, message) => .logged level message

/-! ## Records -/

theorem fills_recordOf (slots : List (Option UInt8)) (junk : Nat → UInt8) :
    Fills slots (recordOf slots junk) := by
  refine ⟨by rw [recordOf, List.length_mapIdx], fun i byte there => ?_⟩
  rw [recordOf, List.getElem?_mapIdx, there]
  rfl

theorem get_of_interned {interner : Interner ι} {chars : List UInt8} {id : BitVec 32}
    (interned : ⟨chars, ⟨id⟩⟩ ∈ interner.table.interned) :
    interner.table.pool.get ⟨id⟩ = chars := by
  obtain ⟨shape, thread, pageSize, pages, capacity, pool, es, constructed, reached⟩ :=
    interner.reachable
  exact (InternTable.coherent_of_run constructed reached).get _ interned

section Agreement

variable {fmt : Fmt} {interner : Interner ι} {views : Object (8 + 8) → List UInt8}
  {minLevel level : UInt8} {func : BitVec (8 * 8)} {format : FormatString} {encoding : Format 8}
  {junk : Nat → UInt8} {mem later : Storage} {args : List Argument} {loaded : List Arg}

/-- A record crosses the queue as it was encoded. -/
theorem asyncLog_eq (logs : shouldLog minLevel level = true)
    (reads : args.mapM (Argument.encoded mem) = some loaded)
    (fits : payloadHeaderSize 8 encoding.kind + (argsBytes 8 loaded).length < 256 ^ 8) :
    asyncLog fmt interner views minLevel level func format encoding junk mem later args =
      match formatDecoded fmt interner views format (args.map Argument.isCharPtr) later
          ⟨encoding, loaded.map Arg.asDecoded, 0⟩ with
      | none => .failed
      | some message => .logged level message := by
  obtain ⟨header, decoded⟩ := deserialize_eq fits
    (fills_recordOf (headerSlots (totalPayloadSize encoding loaded) func level encoding ++
      (argsBytes 8 loaded).map some) junk)
  simp only [asyncLog, logs, Bool.true_eq_false, if_false, reads, Option.bind_eq_bind,
    Option.bind_some, serializeTo_eq fits, workerMessage, header, decoded]
  cases formatDecoded fmt interner views format (args.map Argument.isCharPtr) later
      ⟨encoding, loaded.map Arg.asDecoded, 0⟩ with
  | none => rfl
  | some message => rfl

/-! ## What `fmt` is given -/

/-- The decoded argument is formatted like the argument itself, a C string by its characters. -/
theorem given_decoded {arg : Argument} {encoded : Arg} {shown : FmtArg}
    (reads : arg.encoded mem = some encoded) (direct : arg.given mem = some shown) :
    ∃ shown', encoded.asDecoded.given mem arg.isCharPtr = some shown' ∧ (shown = shown' ∨
      ∃ address bytes, arg.decay = .constCharPtr address ∧ shown = .cstring address bytes ∧
        shown' = .string bytes) := by
  rw [Argument.encoded] at reads
  rw [Argument.given] at direct
  cases decayed : arg.decay with
  | string address size =>
      simp only [decayed] at reads direct
      obtain ⟨body, there, rfl⟩ := Option.map_eq_some_iff.mp reads
      rw [there] at direct
      cases direct
      exact ⟨_, rfl, Or.inl rfl⟩
  | stringView address size =>
      simp only [decayed] at reads direct
      obtain ⟨body, there, rfl⟩ := Option.map_eq_some_iff.mp reads
      rw [there] at direct
      cases direct
      exact ⟨_, rfl, Or.inl rfl⟩
  | constCharPtr address =>
      simp only [decayed] at reads direct
      obtain ⟨chars, there, rfl⟩ := Option.map_eq_some_iff.mp reads
      rw [there] at direct
      cases direct
      exact ⟨_, rfl, Or.inr ⟨address, chars.val, rfl, rfl, rfl⟩⟩
  | charPtr address =>
      simp only [decayed] at reads direct
      cases reads
      have back : BitVec.ofNat 64 (ofBytes (toBytes 8 address.toNat)) = address := by
        have small : address.toNat < 256 ^ 8 := address.isLt
        rw [ofBytes_toBytes, Nat.mod_eq_of_lt small, BitVec.ofNat_toNat, BitVec.setWidth_eq]
      have pointer : arg.isCharPtr = true := by
        rw [Argument.isCharPtr, decayed]
      refine ⟨shown, ?_, Or.inl rfl⟩
      rw [pointer]
      simp only [Arg.asDecoded, ArgType.asDecoded, DecodedArg.given, if_true, back]
      exact direct
  | constCharArray address =>
      simp only [decayed] at reads
      cases reads
  | charArray address =>
      simp only [decayed] at reads
      cases reads
  | value address size pos =>
      simp only [decayed] at reads direct
      obtain ⟨body, there, rfl⟩ := Option.map_eq_some_iff.mp reads
      rw [there] at direct
      cases direct
      have value : arg.isCharPtr = false := by
        rw [Argument.isCharPtr, decayed]
      rw [value]
      exact ⟨_, rfl, Or.inl rfl⟩
  | vector address count element pos =>
      simp only [decayed] at reads direct
      obtain ⟨objects, there, rfl⟩ := Option.map_eq_some_iff.mp reads
      rw [there] at direct
      cases direct
      exact ⟨_, rfl, Or.inl rfl⟩

/-- All of the decoded arguments, one by one. -/
theorem given_decodedArgs {shown : List FmtArg}
    (reads : args.mapM (Argument.encoded mem) = some loaded)
    (direct : args.mapM (Argument.given mem) = some shown) :
    ∃ shown' : List FmtArg, ((args.map Argument.isCharPtr).zip (loaded.map Arg.asDecoded)).mapM
        (fun arg => arg.2.given mem arg.1) = some shown' ∧ shown.length = shown'.length ∧
      ∀ (i : Nat) (one other : FmtArg), shown[i]? = some one → shown'[i]? = some other →
        one = other ∨
        ∃ address bytes, (args[i]?).map Argument.decay = some (.constCharPtr address) ∧
          one = .cstring address bytes ∧ other = .string bytes := by
  induction args generalizing loaded shown with
  | nil =>
      simp only [List.mapM_nil, Option.pure_def, Option.some.injEq] at reads direct
      subst reads direct
      exact ⟨[], rfl, rfl, fun i one other there => by cases there⟩
  | cons arg args ih =>
      simp only [List.mapM_cons, Option.bind_eq_bind, Option.pure_def, Option.bind_eq_some_iff,
        Option.some.injEq] at reads direct
      obtain ⟨first, readsFirst, rest, readsRest, rfl⟩ := reads
      obtain ⟨one, directOne, others, directOthers, rfl⟩ := direct
      obtain ⟨one', decodedOne, likewise⟩ := given_decoded readsFirst directOne
      obtain ⟨others', decodedOthers, length, rest_⟩ := ih readsRest directOthers
      refine ⟨one' :: others', ?_, by simp only [List.length_cons, length], ?_⟩
      · simp only [List.map_cons, List.zip_cons_cons, List.mapM_cons, decodedOne, decodedOthers,
          Option.bind_eq_bind, Option.bind_some, Option.pure_def]
      · intro i first' second hfirst hsecond
        cases i with
        | zero =>
            simp only [List.getElem?_cons_zero, Option.some.injEq] at hfirst hsecond
            subst hfirst hsecond
            rcases likewise with same | ⟨address, bytes, decayed, here, there⟩
            · exact Or.inl same
            · refine Or.inr ⟨address, bytes, ?_, here, there⟩
              rw [List.getElem?_cons_zero, Option.map_some, decayed]
        | succ i =>
            rw [List.getElem?_cons_succ] at hfirst hsecond ⊢
            exact rest_ i first' second hfirst hsecond

/-- No C string is presented as a pointer: the asynchronous logger hands `fmt` a string view in
its place, which has no such presentation. -/
def Supported (pointers : List UInt8 → List Nat) (format : FormatString) (args : List Argument) :
    Prop :=
  ∀ i ∈ pointers format.chars, ∀ address,
    (args[i]?).map Argument.decay ≠ some (.constCharPtr address)

/-- The format string that the worker finds is the one of the call. -/
theorem Names.formatView_eq {chars : List UInt8}
    (names : Names interner views (.runtime chars) encoding) :
    formatView interner views encoding = chars := by
  cases names with
  | interned _ id interned => exact get_of_interned interned
  | view _ representation refers => exact refers

/-- Formatting the decoded arguments is formatting the arguments. -/
theorem fmt_decodedArgs {pointers : List UInt8 → List Nat} {shown : List FmtArg}
    (documented : Documented fmt pointers) (supported : Supported pointers format args)
    (reads : args.mapM (Argument.encoded mem) = some loaded)
    (direct : args.mapM (Argument.given mem) = some shown) :
    (((args.map Argument.isCharPtr).zip (loaded.map Arg.asDecoded)).mapM
        fun arg : Bool × DecodedArg => arg.2.given mem arg.1).bind (fmt format.chars) =
      fmt format.chars shown := by
  obtain ⟨shown', decoded, length, likewise⟩ := given_decodedArgs reads direct
  rw [decoded, Option.bind_some]
  refine (documented.strings format.chars shown shown' length ?_).symm
  intro i one other here there
  rcases likewise i one other here there with same | ⟨address, bytes, decayed, first, second⟩
  · exact Or.inl same
  · exact Or.inr ⟨address, bytes, fun presented => supported i presented address decayed, first,
      second⟩

/-- Both loggers filter alike, and on a level that is logged they say the same exactly when the
format string is compiled, or there are arguments, or the format string has no braces. -/
theorem loggers_agree_iff {pointers : List UInt8 → List Nat} {shown : List FmtArg}
    (documented : Documented fmt pointers) (supported : Supported pointers format args)
    (names : Names interner views format encoding)
    (reads : args.mapM (Argument.encoded mem) = some loaded)
    (direct : args.mapM (Argument.given mem) = some shown)
    (fits : payloadHeaderSize 8 encoding.kind + (argsBytes 8 loaded).length < 256 ^ 8) :
    (shouldLog minLevel level = false →
      syncLog fmt minLevel level format mem args = .filtered ∧
        asyncLog fmt interner views minLevel level func format encoding junk mem mem args =
          .filtered) ∧
    (shouldLog minLevel level = true →
      (asyncLog fmt interner views minLevel level func format encoding junk mem mem args =
          syncLog fmt minLevel level format mem args ↔
        (∃ chars, format = .compiled chars) ∨ args ≠ [] ∨ Plain format.chars)) := by
  constructor
  · intro filtered
    exact ⟨by rw [syncLog, if_pos filtered], by rw [asyncLog, if_pos filtered]⟩
  intro logs
  have formatted := fmt_decodedArgs documented supported reads direct
  rw [asyncLog_eq logs reads fits, syncLog, direct, Option.bind_some]
  simp only [logs, Bool.true_eq_false, if_false]
  cases format with
  | compiled chars =>
      rw [FormatString.chars] at formatted
      simp only [formatDecoded, formatted, FormatString.chars, true_iff]
      exact Or.inl ⟨chars, rfl⟩
  | runtime chars =>
      simp only [formatDecoded, names.formatView_eq, List.map_eq_nil_iff]
      by_cases none_ : args = []
      · subst none_
        have empty : shown = [] := (Option.some.inj direct).symm
        rw [if_pos rfl, FormatString.chars, empty, documented.noArguments, ← unescape_eq_self_iff]
        cases unescape chars with
        | none => simp
        | some message => simp [eq_comm]
      · rw [if_neg none_]
        rw [FormatString.chars] at formatted
        simp only [formatted, FormatString.chars, true_iff]
        exact Or.inr (Or.inl none_)

end Agreement

/-- A table of two slots, on a pool of one page. -/
def smallShape : InternTable.Shape := ⟨fun _ => 1, 1, by decide⟩

/-- One thread interns a string. -/
def internOne (chars : StringView) : List (TableEvent Bool) :=
  ⟨false, .intern chars⟩ :: List.replicate (14 + chars.bytes.length) ⟨false, .go true⟩

theorem exists_interner {chars : StringView}
    (history : ((StringPool.construct false 4096 (fun _ => 255) 4096).bind fun pool =>
      (Schedule.run (InternTable.step smallShape) (InternTable.initial pool)
        (internOne chars)).map InternTable.interned) = some [⟨chars.bytes, ⟨8⟩⟩]) :
    ∃ interner : Interner Bool, ⟨chars.bytes, ⟨8⟩⟩ ∈ interner.table.interned := by
  obtain ⟨pool, constructed, history⟩ := Option.bind_eq_some_iff.mp history
  obtain ⟨table, reached, interned⟩ := Option.map_eq_some_iff.mp history
  refine ⟨⟨table, _, _, _, _, _, _, _, constructed, reached⟩, ?_⟩
  rw [interned]
  exact List.mem_singleton_self _

/-- A C string in a replacement field: both loggers say it. -/
theorem loggers_agree_iff_field : ∃ interner : Interner Bool,
    asyncLog fieldFmt interner (fun _ => []) 2 3 77 (.runtime [123, 125]) (.interned 8) (fun _ => 0)
        [104, 105, 0] [104, 105, 0] [.constCharPtr 0] = .logged 3 (text "hi") ∧
      syncLog fieldFmt 2 3 (.runtime [123, 125]) [104, 105, 0] [.constCharPtr 0] =
        .logged 3 (text "hi") := by
  obtain ⟨interner, interned⟩ := @exists_interner ⟨[123, 125], by decide⟩ (by decide +kernel)
  have sync : syncLog fieldFmt 2 3 (.runtime [123, 125]) [104, 105, 0] [.constCharPtr 0] =
      .logged 3 (text "hi") := by decide +kernel
  refine ⟨interner, ?_, sync⟩
  rw [← sync]
  exact ((loggers_agree_iff documented_fieldFmt (fun i presented => by cases presented)
    (.interned _ _ interned) rfl rfl (by decide)).2 (by decide)).mpr (Or.inr (Or.inl (by decide)))

/-- Doubled braces without arguments: the asynchronous logger copies them. -/
theorem loggers_differ_braces : ∃ interner : Interner Bool,
    Names interner (fun _ => []) (.runtime [123, 123, 125, 125]) (.interned 8) ∧
      asyncLog fieldFmt interner (fun _ => []) 2 3 77 (.runtime [123, 123, 125, 125]) (.interned 8)
          (fun _ => 0) [] [] [] ≠ syncLog fieldFmt 2 3 (.runtime [123, 123, 125, 125]) [] [] := by
  obtain ⟨interner, interned⟩ :=
    @exists_interner ⟨[123, 123, 125, 125], by decide⟩ (by decide +kernel)
  refine ⟨interner, .interned _ _ interned, ?_⟩
  have sync : syncLog fieldFmt 2 3 (.runtime [123, 123, 125, 125]) [] [] =
      .logged 3 [123, 125] := by decide +kernel
  have copied : formatDecoded fieldFmt interner (fun _ => []) (.runtime [123, 123, 125, 125])
      ([].map Argument.isCharPtr) [] ⟨.interned 8, [].map Arg.asDecoded, 0⟩ =
        some [123, 123, 125, 125] := by
    simp only [formatDecoded, formatView, List.map_nil, if_true]
    rw [get_of_interned interned]
  have reads : ([] : List Argument).mapM (Argument.encoded []) = some [] := rfl
  rw [sync, asyncLog_eq (by decide) reads (by decide), copied]
  decide

end Fpag.Logging
