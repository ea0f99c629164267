import Fpag.Io.WriterSafety
import Fpag.Io.StreamContents

/-!
What the callers of `prepare_write_buffer` commit.

The callers that lay out text ask for a buffer of a fixed size, have `format_to_n` fill it, and
commit the size that it returns, which is the size of the whole text and not of what was written.
`Client` is such a caller with its writer and a record of its commits. What a client may rely on is
`Kept`: the write offset is inside the capacity, and the capacity inside the mapping where there is
one. It is kept by every use whose text fits its buffer (`Use.Fits`), and by no other use that gets
a buffer at all; `within_iff` says so of whole runs.
-/

namespace Fpag.Io

variable {π : Type}

/-! ## Clients -/

/-- `fmt::format_to_n`: the bytes that it writes, and the size that it returns. -/
def formatToN (limit : Nat) (output : List UInt8) : List UInt8 × BitVec 64 :=
  (output.take limit, BitVec.ofNat 64 output.length)

/-- A `commit_write`, with the `prepare_write_buffer` in front of it. -/
structure Commit : Type where
  /-- The length of the buffer. -/
  prepared : Nat
  /-- What the formatter wrote into it. -/
  formatted : List UInt8
  /-- The length that is committed. -/
  committed : Nat
  /-- As many bytes of the file as are committed, from the write head on. -/
  found : List UInt8
  deriving DecidableEq

/-- No more is committed than was prepared, and it is what the formatter wrote. -/
structure Commit.Sound (c : Commit) : Prop where
  within : c.committed ≤ c.prepared
  written : c.committed ≤ c.formatted.length
  found : c.found = c.formatted.take c.committed

instance (c : Commit) : Decidable c.Sound :=
  decidable_of_iff
    (c.committed ≤ c.prepared ∧ c.committed ≤ c.formatted.length ∧
      c.found = c.formatted.take c.committed)
    ⟨fun h => ⟨h.1, h.2.1, h.2.2⟩, fun h => ⟨h.within, h.written, h.found⟩⟩

def Pointer.isNull {w : Nat} : Pointer π w → Bool
  | .null => true
  | _ => false

/-- The bytes of the file behind an address. -/
def Pointer.bytes {w : Nat} (os : Os π) (n : Nat) : Pointer π w → List UInt8
  | .mapped ⟨some (path, first), _⟩ behind =>
      ((os.files path).drop (first.toNat + behind.toNat)).take n
  | _ => []

/-- A caller of a writer, and the commits that it has made. One that has `returned` does nothing any
more. -/
structure Client (π : Type) : Type where
  writer : StreamWriter π 64
  os : Os π
  commits : List Commit
  returned : Bool

/-- What a caller does with its writer: it lays out a text in a buffer, writes bytes from memory, or
finishes. -/
inductive Use : Type
  | format (limit : Nat) (output : List UInt8)
  | write (data : List UInt8)
  | finish
  deriving DecidableEq

/-- The bytes that a use asks the writer for are fewer than this. -/
def Use.Modest : Use → Prop
  | .format limit _ => limit < 2 ^ 62
  | .write data => data.length < 2 ^ 62
  | .finish => True

namespace Client

variable [DecidableEq π]

/-- A text is laid out in a buffer and committed; `none` is a store outside of a mapping. -/
def format (limit : Nat) (output : List UInt8) (calls : Calls) (s : StreamWriter π 64)
    (os : Os π) : Option (StreamWriter π 64 × Os π × Option Commit) :=
  match s.prepareWriteBuffer (BitVec.ofNat 64 limit) os calls with
  | (s, os, .null) => some (s, os, none)
  | (s, os, destination) =>
      let result := formatToN limit output
      match destination.store os result.1 with
      | none => none
      | some os => some (s.commitWrite result.2, os,
          some ⟨limit, result.1, result.2.toNat, destination.bytes os result.2.toNat⟩)

/-- One use. A strict caller returns when the writer turns it down. -/
def step (strict : Bool) (e : Use × Calls) (c : Client π) : Option (Client π) :=
  if c.returned then none
  else
    match e.1 with
    | .format limit output =>
        (format limit output e.2 c.writer c.os).map fun r =>
          ⟨r.1, r.2.1, c.commits ++ r.2.2.toList, strict && r.2.2.isNone⟩
    | .write data =>
        (c.writer.write data c.os e.2).map fun r => ⟨r.1, r.2.1, c.commits, strict && !r.2.2⟩
    | .finish => some ⟨(c.writer.finish c.os e.2).1, (c.writer.finish c.os e.2).2, c.commits, false⟩

/-- A text that the writer has a buffer for is not larger than the buffer. -/
def fits (e : Use × Calls) (c : Client π) : Bool :=
  match e.1 with
  | .format limit output =>
      (c.writer.prepareWriteBuffer (BitVec.ofNat 64 limit) c.os e.2).2.2.isNull ||
        decide ((formatToN limit output).2.toNat ≤ limit)
  | _ => true

/-- Every commit was sound, and the write offset is inside the mapping. -/
structure Within (c : Client π) : Prop where
  commits : ∀ commit ∈ c.commits, commit.Sound
  bytesWritten : c.writer.mmap.isMapped = true →
    c.writer.bytesWritten.toNat ≤ c.writer.mmap.size.toNat

end Client

/-! ## Room -/

/-- The write offset is inside the capacity, the capacity inside the mapping where there is one, and
the two do not come near the end of the address space. -/
structure Roomy (s : StreamWriter π 64) : Prop where
  backed : s.Backed
  inside : s.writeOffset.toNat ≤ s.capacity.toNat
  small : s.mmap.isMapped = true ∨ s.writeOffset ≠ 0 → s.capacity.toNat < 2 ^ 63

theorem FileHandle.resize_lt [DecidableEq π] {file : FileHandle π} {size : BitVec 64} {os : Os π}
    {calls : Calls} (granted : (file.resize size os calls).2 = true) : size.toNat < 2 ^ 63 := by
  unfold FileHandle.resize at granted
  split at granted
  · cases granted
  · split at granted
    · cases granted
    · split at granted
      · next allowed => exact allowed.2
      · cases granted

namespace Roomy

variable {s : StreamWriter π 64}

theorem offset_lt (roomy : Roomy s) : s.writeOffset.toNat < 2 ^ 63 := by
  by_cases zero : s.writeOffset = 0
  · rw [zero]
    decide
  · exact lt_of_le_of_lt roomy.inside (roomy.small (.inr zero))

/-- Committing what there is room for. -/
theorem commitWrite (roomy : Roomy s) {n : BitVec 64} (mapped : s.mmap.isMapped = true)
    (room : s.writeOffset.toNat + n.toNat ≤ s.capacity.toNat) : Roomy (s.commitWrite n) := by
  have small := roomy.small (.inl mapped)
  refine ⟨roomy.backed, ?_, fun _ => small⟩
  rw [StreamWriter.commitWrite, BitVec.toNat_add, Nat.mod_eq_of_lt (by omega)]
  exact room

variable [DecidableEq π]

/-- A capacity that the writer has grown to is one that the file was resized to. -/
theorem newCapacity_lt {length : BitVec 64} {os : Os π} {calls : Calls}
    (grows : ¬ s.writeOffset + length ≤ s.capacity)
    (grown : (s.reserveExtra length os calls).2.2 = true) :
    (s.newCapacity length).toNat < 2 ^ 63 := by
  simp only [StreamWriter.reserveExtra, if_neg grows] at grown
  split at grown
  · cases grown
  · next granted => exact FileHandle.resize_lt ((Bool.not_eq_false _).mp granted)

/-- Asking for room keeps the writer as it should be, and where it is granted it is there. -/
theorem reserveExtra (roomy : Roomy s) {length : BitVec 64} (modest : length.toNat < 2 ^ 62)
    (os : Os π) (calls : Calls) :
    Roomy (s.reserveExtra length os calls).1 ∧
      (s.reserveExtra length os calls).1.writeOffset = s.writeOffset ∧
      ((s.reserveExtra length os calls).2.2 = true →
        s.writeOffset.toNat + length.toNat ≤
          (s.reserveExtra length os calls).1.capacity.toNat) := by
  have below := roomy.offset_lt
  have needed := @StreamWriter.toNat_needed π 64 s length (by omega)
  have backed := roomy.backed.reserveExtra length os calls
  rcases s.reserveExtra_cases length os calls with ⟨fits, same⟩ |
    ⟨grows, mmap, os', same, mapped, size⟩ | ⟨grows, mmap, os', same, unmapped⟩
  · rw [same]
    rw [BitVec.le_def, needed] at fits
    exact ⟨roomy, rfl, fun _ => fits⟩
  · have room := s.le_newCapacity length
    have small := @newCapacity_lt π s _ length os calls grows (by rw [same])
    rw [needed] at room
    rw [same] at backed ⊢
    exact ⟨⟨backed, by dsimp only; omega, fun _ => small⟩, rfl, fun _ => room⟩
  · rw [same] at backed ⊢
    refine ⟨⟨backed, roomy.inside, fun some_ => roomy.small (.inr ?_)⟩, rfl, by rintro ⟨⟩⟩
    exact some_.resolve_left fun mapped => by
      rw [unmapped] at mapped
      cases mapped

theorem finish (roomy : Roomy s) (os : Os π) (calls : Calls) : Roomy (s.finish os calls).1 := by
  have backed := roomy.backed.finish os calls
  unfold StreamWriter.finish at backed ⊢
  split
  · exact roomy
  · refine ⟨StreamWriter.backed_of_unmapped s.mmap.isMapped_close, roomy.inside, fun some_ => ?_⟩
    refine roomy.small (.inr (some_.resolve_left fun mapped => ?_))
    rw [s.mmap.isMapped_close] at mapped
    cases mapped

end Roomy

/-! ## One use -/

/-- What is read back where it was stored. -/
theorem take_drop_overwritten {file data : List UInt8} {position n : Nat}
    (inside : position ≤ file.length) (few : n ≤ data.length) :
    ((overwritten file position data).drop position).take n = data.take n := by
  have front : (file.take position).length = position := by
    rw [List.length_take, Nat.min_eq_left inside]
  rw [overwritten, List.append_assoc, List.drop_left' front, List.take_append_of_le_length few]

namespace Client

variable [DecidableEq π] {s : StreamWriter π 64} {os : Os π}

/-- A store that succeeds leaves its bytes behind the address. -/
theorem bytes_of_store {pointer : Pointer π 64} {data : List UInt8} {os' : Os π}
    (stored : pointer.store os data = some os') {n : Nat} (few : n ≤ data.length) :
    pointer.bytes os' n = data.take n := by
  unfold Pointer.store at stored
  split at stored
  · dsimp only at stored
    split at stored
    · next room =>
        cases stored
        rw [Pointer.bytes, Os.files_put, take_drop_overwritten (by omega) few]
    · cases stored
  · cases stored

/-- Laying out a text: there is no buffer, or the store leaves the mapping, or the size of the text
is committed, which is sound where the text fits. -/
theorem format_cases (roomy : Roomy s) {limit : Nat} (modest : limit < 2 ^ 62)
    (output : List UInt8) (calls : Calls) :
    ((s.prepareWriteBuffer (BitVec.ofNat 64 limit) os calls).2.2.isNull = true ∧
      ∃ s' os', format limit output calls s os = some (s', os', none) ∧ Roomy s') ∨
    format limit output calls s os = none ∨
    ((s.prepareWriteBuffer (BitVec.ofNat 64 limit) os calls).2.2.isNull = false ∧
      ∃ s' os' commit, format limit output calls s os = some (s', os', some commit) ∧
        commit.prepared = limit ∧ commit.committed = (formatToN limit output).2.toNat ∧
        ((formatToN limit output).2.toNat ≤ limit → commit.Sound ∧ Roomy s')) := by
  have asked : (BitVec.ofNat 64 limit).toNat = limit := by
    rw [BitVec.toNat_ofNat, Nat.mod_eq_of_lt (by omega)]
  obtain ⟨kept, offset, room⟩ := roomy.reserveExtra (by rw [asked]; exact modest) os calls
  rw [asked] at room
  rw [format, StreamWriter.prepareWriteBuffer]
  generalize s.reserveExtra (BitVec.ofNat 64 limit) os calls = r at kept offset room ⊢
  obtain ⟨s', os', granted⟩ := r
  dsimp only at kept offset room ⊢
  cases granted with
  | false => exact .inl ⟨rfl, s', os', rfl, kept⟩
  | true =>
      have room := room rfl
      simp only [Bool.true_eq_false, if_false]
      cases mapped : s'.mmap.isMapped with
      | false =>
          -- Without a mapping the head is the write offset itself.
          by_cases zero : s'.writeOffset = 0
          · have head : s'.head = .null := by
              rw [StreamWriter.head, if_neg (by rw [mapped]; decide), if_pos zero]
            rw [head]
            exact .inl ⟨rfl, s', os', rfl, kept⟩
          · have head : s'.head = .wild s'.writeOffset := by
              rw [StreamWriter.head, if_neg (by rw [mapped]; decide), if_neg zero]
            rw [head]
            exact .inr (.inl rfl)
      | true =>
          have head : s'.head = .mapped s'.mmap s'.writeOffset := by
            rw [StreamWriter.head, if_pos mapped]
          rw [head]
          dsimp only
          cases stored : (Pointer.mapped s'.mmap s'.writeOffset).store os'
              (formatToN limit output).1 with
          | none => exact .inr (.inl rfl)
          | some os'' =>
              refine .inr (.inr ⟨rfl, _, _, _, rfl, rfl, rfl, fun fits => ?_⟩)
              have written : (formatToN limit output).2.toNat ≤
                  (formatToN limit output).1.length := by
                have most := Nat.mod_le output.length (2 ^ 64)
                simp only [formatToN, List.length_take, BitVec.toNat_ofNat] at fits ⊢
                omega
              have enough : s'.writeOffset.toNat + (formatToN limit output).2.toNat ≤
                  s'.capacity.toNat := by
                rw [offset]
                omega
              exact ⟨⟨fits, written, bytes_of_store stored written⟩, kept.commitWrite mapped enough⟩

/-- Writing from memory commits what it stores. -/
theorem write_roomy (roomy : Roomy s) {data : List UInt8} (modest : data.length < 2 ^ 62)
    {calls : Calls} {r : StreamWriter π 64 × Os π × Bool}
    (written : s.write data os calls = some r) : Roomy r.1 := by
  have asked : (BitVec.ofNat 64 data.length).toNat = data.length := by
    rw [BitVec.toNat_ofNat, Nat.mod_eq_of_lt (by omega)]
  obtain ⟨kept, offset, room⟩ := roomy.reserveExtra (by rw [asked]; exact modest) os calls
  rw [← offset] at room
  simp only [StreamWriter.write] at written
  split at written
  · cases written
    exact kept
  · next granted =>
      split at written
      · cases written
      · next stored =>
          cases written
          have mapped : (s.reserveExtra (BitVec.ofNat 64 data.length) os calls).1.mmap.isMapped =
              true := by
            by_contra unmapped
            unfold StreamWriter.head at stored
            rw [if_neg unmapped] at stored
            split at stored <;> cases stored
          exact kept.commitWrite mapped (room ((Bool.not_eq_false _).mp granted))

/-! ## Runs -/

/-- What every use keeps whose text fits. -/
structure Kept (c : Client π) : Prop where
  commits : ∀ commit ∈ c.commits, commit.Sound
  roomy : Roomy c.writer

variable {strict : Bool} {e : Use × Calls} {c c' : Client π}

omit [DecidableEq π] in
theorem Kept.within (kept : c.Kept) : c.Within :=
  ⟨kept.commits, fun mapped => kept.roomy.inside.trans (kept.roomy.backed mapped)⟩

/-- A use whose text fits. -/
theorem Kept.step (kept : c.Kept) (modest : e.1.Modest) (fits : fits e c = true)
    (h : Client.step strict e c = some c') : c'.Kept := by
  obtain ⟨use, calls⟩ := e
  unfold Client.step at h
  split at h
  · cases h
  cases use with
  | format limit output =>
      obtain ⟨r, made, rfl⟩ := Option.map_eq_some_iff.mp h
      rcases @format_cases π _ c.writer c.os kept.roomy limit modest output calls with
        ⟨-, s', os', same, roomy⟩ | astray | ⟨buffer, s', os', commit, same, -, -, sound⟩
      · cases same.symm.trans made
        exact ⟨by simpa using kept.commits, roomy⟩
      · cases astray.symm.trans made
      · cases same.symm.trans made
        simp only [Client.fits, buffer, Bool.false_or, decide_eq_true_eq] at fits
        obtain ⟨sound, roomy⟩ := sound fits
        refine ⟨fun old member => ?_, roomy⟩
        rcases List.mem_append.mp member with member | member
        · exact kept.commits old member
        · cases List.mem_singleton.mp member
          exact sound
  | write data =>
      obtain ⟨r, written, rfl⟩ := Option.map_eq_some_iff.mp h
      exact ⟨kept.commits, write_roomy kept.roomy modest written⟩
  | finish =>
      cases h
      exact ⟨kept.commits, kept.roomy.finish c.os calls⟩

/-- A use whose text is larger than the buffer that it gets. -/
theorem Kept.not_within_step (kept : c.Kept) (modest : e.1.Modest) (large : ¬ fits e c = true)
    (h : Client.step strict e c = some c') : ¬ c'.Within := by
  obtain ⟨use, calls⟩ := e
  unfold Client.step at h
  split at h
  · cases h
  cases use with
  | format limit output =>
      simp only [Client.fits, Bool.or_eq_true, decide_eq_true_eq, not_or, Bool.not_eq_true] at large
      obtain ⟨r, made, rfl⟩ := Option.map_eq_some_iff.mp h
      rcases @format_cases π _ c.writer c.os kept.roomy limit modest output calls with
        ⟨no_buffer, -⟩ | astray | ⟨-, s', os', commit, same, prepared, committed, -⟩
      · rw [large.1] at no_buffer
        cases no_buffer
      · cases astray.symm.trans made
      · cases same.symm.trans made
        intro within
        have sound := within.commits commit (List.mem_append_right _ List.mem_cons_self)
        have fits := sound.within
        rw [prepared, committed] at fits
        exact large.2 fits
  | write data => exact absurd rfl large
  | finish => exact absurd rfl large

/-- In a run from a writer that is as it should be, every commit is sound and the write offset stays
inside the mapping, if and only if every text fits that the writer has a buffer for. -/
theorem within_iff {es : List (Use × Calls)} (modest : ∀ e ∈ es, e.1.Modest) (kept : c.Kept)
    (h : Schedule.run (step strict) c es = some c') :
    (∀ front m, front <+: es → Schedule.run (step strict) c front = some m → m.Within) ↔
      Schedule.run (Schedule.guarded (fun e c => fits e c = true) (step strict)) c es =
        some c' := by
  induction es generalizing c with
  | nil =>
      cases h
      refine ⟨fun _ => rfl, fun _ front m inside reached => ?_⟩
      rw [List.prefix_nil.mp inside] at reached
      cases reached
      exact kept.within
  | cons e es ih =>
      obtain ⟨m, first, rest⟩ := Schedule.run_cons_eq_some.mp h
      have modest' : ∀ e ∈ es, e.1.Modest :=
        fun e member => modest e (List.mem_cons_of_mem _ member)
      by_cases fine : fits e c = true
      · have next := kept.step (modest e List.mem_cons_self) fine first
        have tail := ih modest' next rest
        constructor
        · intro within
          refine Schedule.run_cons_eq_some.mpr ⟨m, Schedule.guarded_eq_some.mpr ⟨fine, first⟩, ?_⟩
          refine tail.mp fun front r inside reached => ?_
          exact within (e :: front) r (List.cons_prefix_cons.mpr ⟨rfl, inside⟩)
            (Schedule.run_cons_eq_some.mpr ⟨m, first, reached⟩)
        · intro guarded front r inside reached
          obtain ⟨m', first', rest'⟩ := Schedule.run_cons_eq_some.mp guarded
          cases first.symm.trans (Schedule.guarded_eq_some.mp first').2
          cases front with
          | nil =>
              cases reached
              exact kept.within
          | cons e' front =>
              obtain ⟨rfl, inside'⟩ := List.cons_prefix_cons.mp inside
              obtain ⟨m', step', reached'⟩ := Schedule.run_cons_eq_some.mp reached
              cases first.symm.trans step'
              exact tail.mpr rest' front r inside' reached'
      · constructor
        · intro within
          have here := within [e] m (List.cons_prefix_cons.mpr ⟨rfl, List.nil_prefix⟩)
            (Schedule.run_cons_eq_some.mpr ⟨m, first, rfl⟩)
          exact absurd here (kept.not_within_step (modest e List.mem_cons_self) fine first)
        · intro guarded
          obtain ⟨m', first', -⟩ := Schedule.run_cons_eq_some.mp guarded
          exact absurd (Schedule.guarded_eq_some.mp first').1 fine

end Client

/-! ## New writers -/

variable [DecidableEq π]

/-- A writer that is constructed, or then opened, with success or without. -/
inductive New : StreamWriter π 64 → Prop
  | construct : New .construct
  | open_ (path : π) (initialCapacity : BitVec 64) (os : Os π) (calls : Calls) :
      New ((StreamWriter.construct : StreamWriter π 64).open_ path initialCapacity os calls).1

omit [DecidableEq π] in
theorem Roomy.of_idle {s : StreamWriter π 64} (unmapped : s.mmap.isMapped = false)
    (zero : s.writeOffset = 0) : Roomy s := by
  refine ⟨StreamWriter.backed_of_unmapped unmapped, ?_, ?_⟩
  · rw [zero]
    exact Nat.zero_le _
  · rintro (mapped | some_)
    · rw [unmapped] at mapped
      cases mapped
    · exact absurd zero some_

theorem New.roomy {s : StreamWriter π 64} (new : New s) : Roomy s := by
  cases new with
  | construct => exact .of_idle rfl rfl
  | open_ path initialCapacity os calls =>
      generalize opened : (StreamWriter.construct : StreamWriter π 64).open_ path initialCapacity os
        calls = r
      obtain ⟨s', os', ok⟩ := r
      cases ok with
      | true =>
          obtain ⟨rfl, -, bound, -⟩ := open_eq opened
          exact ⟨fun _ => Nat.le_refl _, Nat.zero_le _, fun _ => bound⟩
      | false =>
          -- It has not got as far as a mapping and an offset.
          unfold StreamWriter.open_ at opened
          dsimp only at opened
          split at opened
          · cases opened
            exact .of_idle rfl rfl
          split at opened
          · cases opened
            exact .of_idle rfl rfl
          split at opened
          · next failed =>
              cases opened
              refine .of_idle ?_ rfl
              refine ((MemoryMappedFile.map_cases ..).resolve_left fun made => ?_).2
              rw [failed] at made
              cases made.1
          · cases opened

end Fpag.Io
