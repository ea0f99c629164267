import Fpag.Logging.Loggers

/-!
What a message of the asynchronous logger depends on.

Two runs make the same call, on arguments with the same contents; what their callers do to
the storage behind the arguments afterwards is arbitrary. An argument of every textual kind
but one lands on a codec that copies the characters, so the message is the same in both.
The exception is `char*`, which a `char` array decays to: its codec copies the pointer, and
the worker reads what is there when it formats the record.
-/

namespace Fpag.Logging

variable {ι : Type} [DecidableEq ι]

/-! ## Agreement of two calls -/

/-- The contents of an argument: a `char*` is the string it points to. -/
def Argument.content (mem : Storage) (arg : Argument) : Option Arg :=
  match arg.decay with
  | .charPtr address => (mem.cStringAt address).map fun chars => ⟨.cString, chars⟩
  | _ => arg.encoded mem

/-- The two arguments have one type and, each in its storage, the same contents. -/
structure Agrees (mem mem' : Storage) (arg arg' : Argument) : Prop where
  type : arg.isCharPtr = arg'.isCharPtr
  content : arg.content mem = arg'.content mem'

/-- Whatever call agrees with this one on format string and contents, and whatever becomes of the
storage behind either, the worker says the same of both. -/
def IsSnapshot (ι : Type) [DecidableEq ι] (fmt : Fmt) (minLevel level : UInt8)
    (func : BitVec (8 * 8)) (mem : Storage) (args : List Argument) : Prop :=
  ∀ (mem' : Storage) (args' : List Argument), List.Forall₂ (Agrees mem mem') args args' →
    ∀ (format : FormatString) (interner interner' : Interner ι)
      (views : Object (8 + 8) → List UInt8) (encoding encoding' : Format 8)
      (junk junk' : Nat → UInt8) (later later' : Storage),
      encoding.kind ≠ .view → encoding'.kind ≠ .view →
      Names interner views format encoding → Names interner' views format encoding' →
      asyncLog fmt interner views minLevel level func format encoding junk mem later args =
        asyncLog fmt interner' views minLevel level func format encoding' junk' mem' later' args'

variable {fmt : Fmt} {minLevel level : UInt8} {func : BitVec (8 * 8)} {mem mem' : Storage}
  {args args' : List Argument} {loaded : List Arg}

theorem content_eq_encoded {arg : Argument} (copied : arg.isCharPtr = false) :
    arg.content mem = arg.encoded mem := by
  rw [Argument.isCharPtr] at copied
  rw [Argument.content]
  cases decayed : arg.decay <;> simp_all

/-- Calls that agree, and have no `char*`, are encoded alike. -/
theorem encoded_of_agrees (agree : List.Forall₂ (Agrees mem mem') args args')
    (copied : ∀ arg ∈ args, arg.isCharPtr = false) :
    args'.mapM (Argument.encoded mem') = args.mapM (Argument.encoded mem) ∧
      args'.map Argument.isCharPtr = args.map Argument.isCharPtr := by
  induction agree with
  | nil => exact ⟨rfl, rfl⟩
  | @cons arg arg' args args' first _ ih =>
      have here := copied arg List.mem_cons_self
      obtain ⟨encoded, types⟩ := ih fun arg there => copied arg (List.mem_cons_of_mem _ there)
      have same : arg'.encoded mem' = arg.encoded mem := by
        rw [← content_eq_encoded here, ← content_eq_encoded (first.type.symm.trans here),
          first.content]
      exact ⟨by simp only [List.mapM_cons, same, encoded],
        by simp only [List.map_cons, types, first.type]⟩

/-! ## What the worker reads -/

theorem given_of_copied {arg : DecodedArg} {later later' : Storage} :
    arg.given later false = arg.given later' false := by
  obtain ⟨type, value⟩ := arg
  cases type <;> rfl

/-- Without a `char*` the worker does not look at the storage. -/
theorem formatDecoded_of_copied {interner interner' : Interner ι}
    {views : Object (8 + 8) → List UInt8} {format : FormatString} {encoding encoding' : Format 8}
    {charPtrs : List Bool} {later later' : Storage} {decoded : List DecodedArg}
    (copied : ∀ pointer ∈ charPtrs, pointer = false)
    (names : Names interner views format encoding)
    (names' : Names interner' views format encoding') :
    formatDecoded fmt interner views format charPtrs later ⟨encoding, decoded, 0⟩ =
      formatDecoded fmt interner' views format charPtrs later' ⟨encoding', decoded, 0⟩ := by
  have given : (charPtrs.zip decoded).mapM (fun arg => arg.2.given later arg.1) =
      (charPtrs.zip decoded).mapM (fun arg => arg.2.given later' arg.1) := by
    refine mapM_congr fun arg there => ?_
    rw [copied arg.1 (List.of_mem_zip there).1]
    exact given_of_copied
  cases format with
  | compiled chars => simp only [formatDecoded, given]
  | runtime chars =>
      simp only [formatDecoded, given, names.formatView_eq, names'.formatView_eq]

/-- A storage in which every address begins a string. -/
def Readable (later : Storage) (chars : BitVec 64 → List UInt8) : Prop :=
  ∀ address, (later.cStringAt address).map Subtype.val = some (chars address)

/-- With such a storage, the field of a `char*` is the string at its address. -/
theorem asyncLog_field {pointers : List UInt8 → List Nat} {interner : Interner ι}
    {views : Object (8 + 8) → List UInt8} {junk : Nat → UInt8} {later : Storage}
    {chars : BitVec 64 → List UInt8} {i : Nat} {arg : Argument} {address : BitVec 64}
    (documented : Documented fmt pointers) (logs : shouldLog minLevel level = true)
    (reads : args.mapM (Argument.encoded mem) = some loaded)
    (fits : payloadHeaderSize 8 (.compiled : Format 8).kind + (argsBytes 8 loaded).length < 256 ^ 8)
    (readable : Readable later chars) (there : args[i]? = some arg)
    (decayed : arg.decay = .charPtr address) :
    asyncLog fmt interner views minLevel level func (.compiled (field i)) .compiled junk mem later
      args = .logged level (chars address) := by
  have some_ : ∀ a, ∃ string, later.cStringAt a = some string ∧ string.val = chars a := by
    intro a
    exact Option.map_eq_some_iff.mp (readable a)
  obtain ⟨shown, given⟩ := @exists_mapM _ _ (fun arg : Bool × DecodedArg => arg.2.given later arg.1)
    ((args.map Argument.isCharPtr).zip (loaded.map Arg.asDecoded)) (by
      rintro ⟨pointer, type, value⟩ -
      cases type with
      | trivial size pos =>
          cases pointer with
          | true =>
              obtain ⟨string, found, -⟩ := some_ (BitVec.ofNat 64 (ofBytes value.val))
              simp only [DecodedArg.given, if_true, found]
              rfl
          | false => rfl
      | string => rfl
      | stringView => rfl
      | cString => rfl
      | vector element pos => rfl)
  have pointer : arg.isCharPtr = true := by
    rw [Argument.isCharPtr, decayed]
  have encoded : arg.encoded mem = some ⟨.trivial 8 (by decide),
      ⟨toBytes 8 address.toNat, length_toBytes 8 address.toNat⟩⟩ := by
    rw [Argument.encoded, decayed]
  have back : BitVec.ofNat 64 (ofBytes (toBytes 8 address.toNat)) = address := by
    have small : address.toNat < 256 ^ 8 := address.isLt
    rw [ofBytes_toBytes, Nat.mod_eq_of_lt small, BitVec.ofNat_toNat, BitVec.setWidth_eq]
  have here : shown[i]? = some (.cstring address (chars address)) := by
    obtain ⟨string, found, same⟩ := some_ address
    have index : loaded[i]? = some ⟨.trivial 8 (by decide),
        ⟨toBytes 8 address.toNat, length_toBytes 8 address.toNat⟩⟩ := by
      rw [getElem?_mapM reads, there, Option.bind_some, encoded]
    have zipped : ((args.map Argument.isCharPtr).zip (loaded.map Arg.asDecoded))[i]? =
        some (true, ⟨.trivial 8 (by decide),
          ⟨toBytes 8 address.toNat, length_toBytes 8 address.toNat⟩⟩) := by
      refine List.getElem?_zip_eq_some.mpr ⟨?_, ?_⟩
      · rw [List.getElem?_map, there, Option.map_some, pointer]
      · rw [List.getElem?_map, index]
        rfl
    rw [getElem?_mapM given, zipped, Option.bind_some]
    simp only [DecodedArg.given, if_true, back, found, Option.map_some, same]
  rw [asyncLog_eq logs reads fits]
  simp only [formatDecoded, given, Option.bind_some,
    documented.positional shown i address (chars address) here]

theorem readable_zeros : Readable (List.replicate (2 ^ 64) 0) fun _ => [] := by
  intro address
  have inside := address.isLt
  have rest : (List.replicate (2 ^ 64) (0 : UInt8)).drop address.toNat =
      0 :: List.replicate (2 ^ 64 - address.toNat - 1) 0 := by
    rw [List.drop_replicate, ← List.replicate_succ]
    congr 1
    omega
  simp only [Storage.cStringAt, rest]
  simp

theorem readable_letters : Readable (List.replicate (2 ^ 64) 97 ++ [0])
    fun address => List.replicate (2 ^ 64 - address.toNat) 97 := by
  intro address
  have inside := address.isLt
  have rest : (List.replicate (2 ^ 64) (97 : UInt8) ++ [0]).drop address.toNat =
      List.replicate (2 ^ 64 - address.toNat) 97 ++ [0] := by
    rw [List.drop_append_of_le_length (by rw [List.length_replicate]; omega), List.drop_replicate]
  have upto : (List.replicate (2 ^ 64 - address.toNat) (97 : UInt8) ++ [0]).takeWhile
      (fun c => c ≠ 0) = List.replicate (2 ^ 64 - address.toNat) 97 := by
    rw [List.takeWhile_append_of_pos (fun c there => by
      rw [List.eq_of_mem_replicate there]
      decide)]
    simp
  simp only [Storage.cStringAt, rest, upto]
  rw [if_pos (by simp), Option.map_some]

/-- The calls with these arguments are snapshots, whatever their format string, if and only if no
argument is a `char*` or an array that decays to one. -/
theorem snapshot_iff {pointers : List UInt8 → List Nat} (interner : Interner ι)
    (documented : Documented fmt pointers) (logs : shouldLog minLevel level = true)
    (reads : args.mapM (Argument.encoded mem) = some loaded)
    (fits : ∀ kind, payloadHeaderSize 8 kind + (argsBytes 8 loaded).length < 256 ^ 8) :
    IsSnapshot ι fmt minLevel level func mem args ↔ ∀ arg ∈ args, arg.isCharPtr = false := by
  constructor
  · intro snapshot arg member
    by_contra pointer
    obtain ⟨address, decayed⟩ : ∃ address, arg.decay = .charPtr address := by
      rw [Bool.not_eq_false, Argument.isCharPtr] at pointer
      split at pointer
      · next address decayed => exact ⟨address, decayed⟩
      · cases pointer
    obtain ⟨i, there⟩ := List.getElem?_of_mem member
    have same := snapshot mem args (List.forall₂_same.mpr fun _ _ => ⟨rfl, rfl⟩)
      (.compiled (field i)) interner interner (fun _ => []) .compiled .compiled (fun _ => 0)
      (fun _ => 0) (List.replicate (2 ^ 64) 0) (List.replicate (2 ^ 64) 97 ++ [0]) (by decide)
      (by decide) (.compiled _) (.compiled _)
    rw [asyncLog_field documented logs reads (fits _) readable_zeros there decayed,
      asyncLog_field documented logs reads (fits _) readable_letters there decayed] at same
    have inside := address.isLt
    have lengths := congrArg List.length (Outcome.logged.inj same).2
    rw [List.length_nil, List.length_replicate] at lengths
    omega
  · intro copied mem' args' agree format interner' interner'' views encoding encoding' junk junk'
      later later' _ _ names names'
    obtain ⟨encoded, types⟩ := encoded_of_agrees agree copied
    rw [asyncLog_eq logs reads (fits _), asyncLog_eq logs (encoded.trans reads) (fits _), types,
      formatDecoded_of_copied ?_ names names']
    intro pointer there
    obtain ⟨arg, member, rfl⟩ := List.mem_map.mp there
    exact copied arg member

/-- A C string and an object of two bytes. -/
theorem snapshot_iff_copied : IsSnapshot Bool fieldFmt 2 3 77 [104, 105, 0, 7, 8]
    [.constCharPtr 0, .value 3 2 (by decide)] := by
  obtain ⟨interner, -⟩ := @exists_interner ⟨[123, 125], by decide⟩ (by decide +kernel)
  have reads : [Argument.constCharPtr 0, .value 3 2 (by decide)].mapM
      (Argument.encoded [104, 105, 0, 7, 8]) =
        some [⟨.cString, ⟨[104, 105], by decide⟩⟩, ⟨.trivial 2 (by decide), ⟨[7, 8], rfl⟩⟩] := rfl
  refine (snapshot_iff interner documented_fieldFmt (by decide) reads ?_).mpr (by decide)
  intro kind
  cases kind <;> decide

/-- An array that holds the string `a` during the call and `b` when the worker formats. -/
theorem not_snapshot_charArray : ¬ IsSnapshot Bool fieldFmt 2 3 77 [97, 0] [.charArray 0] := by
  obtain ⟨interner, -⟩ := @exists_interner ⟨[123, 125], by decide⟩ (by decide +kernel)
  have reads : [Argument.charArray 0].mapM (Argument.encoded [97, 0]) =
      some [⟨.trivial 8 (by decide), ⟨toBytes 8 0, length_toBytes 8 0⟩⟩] := rfl
  intro snapshot
  have same := snapshot [97, 0] [.charArray 0] (List.forall₂_same.mpr fun _ _ => ⟨rfl, rfl⟩)
    (.compiled (field 0)) interner interner (fun _ => []) .compiled .compiled (fun _ => 0)
    (fun _ => 0) [97, 0] [98, 0] (by decide) (by decide) (.compiled _) (.compiled _)
  have before : (([Argument.charArray 0].map Argument.isCharPtr).zip
      [Arg.asDecoded ⟨.trivial 8 (by decide), ⟨toBytes 8 0, length_toBytes 8 0⟩⟩]).mapM
        (fun arg : Bool × DecodedArg => arg.2.given [97, 0] arg.1) = some [.cstring 0 [97]] := by
    decide +kernel
  have after : (([Argument.charArray 0].map Argument.isCharPtr).zip
      [Arg.asDecoded ⟨.trivial 8 (by decide), ⟨toBytes 8 0, length_toBytes 8 0⟩⟩]).mapM
        (fun arg : Bool × DecodedArg => arg.2.given [98, 0] arg.1) = some [.cstring 0 [98]] := by
    decide +kernel
  have first : fieldFmt (field 0) [.cstring 0 [97]] = some [97] := by decide +kernel
  have second : fieldFmt (field 0) [.cstring 0 [98]] = some [98] := by decide +kernel
  rw [asyncLog_eq (by decide) reads (by decide), asyncLog_eq (by decide) reads (by decide)] at same
  simp only [formatDecoded, List.map_cons, List.map_nil] at same before after
  rw [before, after, Option.bind_some, Option.bind_some, first, second] at same
  exact absurd same (by decide)

end Fpag.Logging
