import Fpag.Io.StreamWriter

/-!
What a `MemoryMappedStreamWriter` leaves in its file.

A session opens a writer, puts chunks, and finishes. A chunk is a `write`, or a buffer that
is prepared, filled and committed in part. A session ends early when the system refuses a
call, and it goes astray when a store leaves the mapping; `session_exact` says that it does
not go astray and that a session which the system serves to the end leaves exactly the
chunks in the file. The invariant `Streams` says what the file holds between two chunks:
the chunks so far in front, and room up to the capacity behind them.
-/

namespace Fpag.Io

variable {π : Type}

/-- How a session ends before its end. -/
inductive Failure : Type
  | refused
  | stray
  deriving DecidableEq, Repr

/-- One piece of a stream: written from memory, or filled into a buffer of `length` bytes of which
`committed` are kept. -/
inductive Chunk : Type
  | write (data : List UInt8) (small : data.length < 2 ^ 64)
  | fill (length : BitVec 64) (data : List UInt8) (committed : Nat)
      (within : committed ≤ data.length) (fits : data.length ≤ length.toNat)

namespace Chunk

/-- The bytes that the writer has to have room for. -/
def requested : Chunk → Nat
  | .write data _ => data.length
  | .fill length _ _ _ _ => length.toNat

/-- The bytes that the chunk adds to the stream. -/
def bytes : Chunk → List UInt8
  | .write data _ => data
  | .fill _ data committed _ _ => data.take committed

theorem length_bytes_le (chunk : Chunk) : chunk.bytes.length ≤ chunk.requested := by
  cases chunk with
  | write data small => exact Nat.le_refl _
  | fill length data committed within fits =>
      rw [bytes, requested, List.length_take]
      omega

end Chunk

/-- The session goes on unless the system has refused a call. -/
def proceed (s : StreamWriter π 64) (os : Os π) : Except Failure (StreamWriter π 64 × Os π) :=
  if os.refused then .error .refused else .ok (s, os)

variable [DecidableEq π]

/-- A caller puts one chunk. -/
def Chunk.put (chunk : Chunk) (calls : Calls) (s : StreamWriter π 64) (os : Os π) :
    Except Failure (StreamWriter π 64 × Os π) :=
  match chunk with
  | .write data _ =>
      match s.write data os calls with
      | none => .error .stray
      | some (s, os, _) => proceed s os
  | .fill length data committed _ _ =>
      match s.prepareWriteBuffer length os calls with
      | (s, os, .null) => proceed s os
      | (s, os, destination) =>
          match destination.store os data with
          | none => .error .stray
          | some os => proceed (s.commitWrite (BitVec.ofNat 64 committed)) os

/-- A caller puts chunk after chunk, with what the system answers each time. -/
def putAll : List (Chunk × Calls) → StreamWriter π 64 → Os π →
    Except Failure (StreamWriter π 64 × Os π)
  | [], s, os => .ok (s, os)
  | (chunk, calls) :: chunks, s, os =>
      match chunk.put calls s os with
      | .error failure => .error failure
      | .ok (s, os) => putAll chunks s os

/-- The chunks of a session and its end. -/
def session (chunks : List (Chunk × Calls)) (last : Calls) (s : StreamWriter π 64) (os : Os π) :
    Except Failure (StreamWriter π 64 × Os π) :=
  match putAll chunks s os with
  | .error failure => .error failure
  | .ok (s, os) => proceed (s.finish os last).1 (s.finish os last).2

/-- The stream that chunks make. -/
def stream (chunks : List (Chunk × Calls)) : List UInt8 := chunks.flatMap fun c => c.1.bytes

/-! ## Between two chunks -/

/-- The file at `path` begins with `content`, and the writer stands behind it in a mapping of the
whole file. -/
structure Streams (path : π) (content : List UInt8) (s : StreamWriter π 64) (os : Os π) : Prop where
  file : s.file = ⟨some path, .readWrite⟩
  mmap : s.mmap = ⟨some (path, 0), s.capacity⟩
  served : os.refused = false
  size : (os.files path).length = s.capacity.toNat
  bound : s.capacity.toNat < 2 ^ 63
  offset : s.writeOffset.toNat = content.length
  front : (os.files path).take content.length = content

omit [DecidableEq π] in
theorem Streams.length_le {path : π} {content : List UInt8} {s : StreamWriter π 64} {os : Os π}
    (streams : Streams path content s os) : content.length ≤ s.capacity.toNat := by
  rw [← streams.size]
  have := congrArg List.length streams.front
  rw [List.length_take] at this
  omega

theorem length_resized (file : List UInt8) (size : Nat) : (resized file size).length = size := by
  simp only [resized, List.length_append, List.length_take, List.length_replicate]
  omega

theorem take_resized {file : List UInt8} {size n : Nat} (inside : n ≤ file.length)
    (le : n ≤ size) : (resized file size).take n = file.take n := by
  rw [resized, List.take_append_of_le_length (by rw [List.length_take]; omega), List.take_take,
    Nat.min_eq_left le]

theorem length_overwritten {file data : List UInt8} {position : Nat}
    (inside : position + data.length ≤ file.length) :
    (overwritten file position data).length = file.length := by
  simp only [overwritten, List.length_append, List.length_take, List.length_drop]
  omega

theorem take_overwritten {file data : List UInt8} {position : Nat}
    (inside : position + data.length ≤ file.length) :
    (overwritten file position data).take (position + data.length) =
      file.take position ++ data := by
  apply List.take_left'
  rw [List.length_append, List.length_take]
  omega

theorem Os.files_put (os : Os π) (path : π) (contents : List UInt8) :
    (os.put path contents).files path = contents := by
  rw [Os.put]
  exact Function.update_self ..

/-- The outcome of a call that the system refused. -/
def Refused (os : Os π) (ok : Bool) : Prop := ok = false ∧ os.refused = true

omit [DecidableEq π] in
/-- Mapping a whole file that is not empty. -/
theorem map_whole {mmap : MemoryMappedFile π 64} {path : π} {access : FileAccess}
    {length : BitVec 64} {os : Os π} {calls : Calls}
    (size : (os.files path).length = length.toNat) (pos : length ≠ 0) :
    Refused (mmap.map ⟨some path, access⟩ 0 length os calls).2.1
        (mmap.map ⟨some path, access⟩ 0 length os calls).2.2 ∨
      mmap.map ⟨some path, access⟩ 0 length os calls = (⟨some (path, 0), length⟩, os, true) := by
  cases stats : calls.stats with
  | false =>
      left
      simp [MemoryMappedFile.map, FileHandle.getSize, stats, MemoryMappedFile.extent, Os.refuse,
        Refused]
  | true =>
      have above : ¬ length ≤ 0 := by
        intro le
        apply pos
        apply BitVec.eq_of_toNat_eq
        rw [BitVec.le_def] at le
        exact Nat.le_zero.mp le
      have whole : MemoryMappedFile.extent length 0 length = some length := by
        simp only [MemoryMappedFile.extent, if_neg pos, if_neg above]
        rw [if_neg (by rintro (below | below) <;> simp at below)]
      have found : BitVec.ofNat 64 (os.files path).length = length := by
        rw [size, BitVec.ofNat_toNat, BitVec.setWidth_eq]
      simp only [MemoryMappedFile.map, FileHandle.getSize, stats, if_true, found, whole]
      cases calls.maps with
      | true => exact Or.inr rfl
      | false => exact Or.inl ⟨rfl, rfl⟩

omit [DecidableEq π] in
theorem map_empty {mmap : MemoryMappedFile π 64} {path : π} {access : FileAccess} {os : Os π}
    {calls : Calls} (size : (os.files path).length = (0 : BitVec 64).toNat) :
    (mmap.map ⟨some path, access⟩ 0 0 os calls).2.2 = false := by
  have none_ : ((FileHandle.getSize ⟨some path, access⟩ os calls).1 : BitVec 64) = 0 := by
    simp only [FileHandle.getSize]
    split
    · rw [size, BitVec.ofNat_toNat, BitVec.setWidth_eq]
    · rfl
  simp only [MemoryMappedFile.map, none_, MemoryMappedFile.extent, if_true]

/-- A resize of an open file. -/
theorem resize_open {path : π} {size : BitVec 64} {os : Os π} {calls : Calls} :
    Refused (FileHandle.resize ⟨some path, .readWrite⟩ size os calls).1
        (FileHandle.resize ⟨some path, .readWrite⟩ size os calls).2 ∨
      (FileHandle.resize ⟨some path, .readWrite⟩ size os calls =
        (os.put path (resized (os.files path) size.toNat), true) ∧ size.toNat < 2 ^ 63) := by
  by_cases granted : calls.resizes = true ∧ size.toNat < 2 ^ 63
  · right
    refine ⟨?_, granted.2⟩
    simp only [FileHandle.resize, ne_eq, not_true_eq_false, if_false, if_pos granted]
  · left
    simp only [FileHandle.resize, ne_eq, not_true_eq_false, if_false, if_neg granted]
    exact ⟨rfl, rfl⟩

variable {path : π} {content : List UInt8} {s : StreamWriter π 64} {os : Os π}

/-- A file that was resized and mapped as a whole. -/
theorem Streams.grown (streams : Streams path content s os) {capacity : BitVec 64}
    (enough : content.length ≤ capacity.toNat) (bound : capacity.toNat < 2 ^ 63) :
    Streams path content { s with mmap := ⟨some (path, 0), capacity⟩, capacity := capacity }
      (os.put path (resized (os.files path) capacity.toNat)) := by
  have inside := streams.length_le
  have size := streams.size
  refine ⟨streams.file, rfl, streams.served, ?_, bound, streams.offset, ?_⟩
  · rw [Os.files_put, length_resized]
  · rw [Os.files_put, take_resized (by omega) enough]
    exact streams.front

/-- Reserving room on an open file: the system refuses a call, or the counters say that the room is
there, or the file has grown and is mapped anew. -/
theorem reserveExtra_grows (file : s.file = ⟨some path, .readWrite⟩) (length : BitVec 64)
    (calls : Calls) :
    Refused (s.reserveExtra length os calls).2.1 (s.reserveExtra length os calls).2.2 ∨
      (s.reserveExtra length os calls = (s, os, true) ∧
        (s.writeOffset + length).toNat ≤ s.capacity.toNat) ∨
      ∃ capacity : BitVec 64, s.reserveExtra length os calls =
          ({ s with mmap := ⟨some (path, 0), capacity⟩, capacity := capacity },
            os.put path (resized (os.files path) capacity.toNat), true) ∧
        s.capacity.toNat < (s.writeOffset + length).toNat ∧
        (s.writeOffset + length).toNat ≤ capacity.toNat ∧ capacity.toNat < 2 ^ 63 := by
  by_cases fits : s.writeOffset + length ≤ s.capacity
  · right
    left
    exact ⟨by rw [StreamWriter.reserveExtra, if_pos fits], BitVec.le_def.mp fits⟩
  have enough := s.le_newCapacity length
  have lacks : s.capacity.toNat < (s.writeOffset + length).toNat := Nat.not_le.mp fits
  have pos : s.newCapacity length ≠ 0 := by
    intro zero
    have none_ : (0 : BitVec 64).toNat = 0 := rfl
    rw [zero] at enough
    omega
  simp only [StreamWriter.reserveExtra, if_neg fits, file]
  rcases @resize_open π _ path (s.newCapacity length) os calls with ⟨failed, refused⟩ |
    ⟨resized_, bound⟩
  · left
    rw [if_pos failed]
    exact ⟨rfl, refused⟩
  simp only [resized_, Bool.true_eq_false, if_false]
  have size : ((os.put path (resized (os.files path) (s.newCapacity length).toNat)).files
      path).length = (s.newCapacity length).toNat := by
    rw [Os.files_put, length_resized]
  rcases @map_whole π s.mmap.close path .readWrite (s.newCapacity length) _ calls size pos with
    ⟨failed, refused⟩ | mapped
  · left
    rw [if_pos failed]
    exact ⟨rfl, refused⟩
  · right
    right
    simp only [mapped, Bool.true_eq_false, if_false]
    exact ⟨s.newCapacity length, by rw [← file], lacks, enough, bound⟩

/-- The same where the sum does not wrap. -/
theorem reserveExtra_cases (file : s.file = ⟨some path, .readWrite⟩) {length : BitVec 64}
    (calls : Calls) (small : s.writeOffset.toNat + length.toNat < 2 ^ 64) :
    Refused (s.reserveExtra length os calls).2.1 (s.reserveExtra length os calls).2.2 ∨
      (s.reserveExtra length os calls = (s, os, true) ∧
        s.writeOffset.toNat + length.toNat ≤ s.capacity.toNat) ∨
      ∃ capacity : BitVec 64, s.reserveExtra length os calls =
          ({ s with mmap := ⟨some (path, 0), capacity⟩, capacity := capacity },
            os.put path (resized (os.files path) capacity.toNat), true) ∧
        s.capacity.toNat < s.writeOffset.toNat + length.toNat ∧
        s.writeOffset.toNat + length.toNat ≤ capacity.toNat ∧ capacity.toNat < 2 ^ 63 := by
  have needed : (s.writeOffset + length).toNat = s.writeOffset.toNat + length.toNat := by
    rw [BitVec.toNat_add, Nat.mod_eq_of_lt small]
  rw [← needed]
  exact reserveExtra_grows file length calls

/-- Reserving room keeps the stream. -/
theorem Streams.reserveExtra (streams : Streams path content s os) {length : BitVec 64}
    (small : content.length + length.toNat < 2 ^ 64) (calls : Calls) :
    Refused (s.reserveExtra length os calls).2.1 (s.reserveExtra length os calls).2.2 ∨
      ∃ s' os', s.reserveExtra length os calls = (s', os', true) ∧ Streams path content s' os' ∧
        content.length + length.toNat ≤ s'.capacity.toNat := by
  have cases_ := @reserveExtra_cases π _ path s os streams.file length calls
    (by rw [streams.offset]; exact small)
  rw [streams.offset] at cases_
  rcases cases_ with refused | ⟨same, room⟩ | ⟨capacity, same, -, room, bound⟩
  · exact Or.inl refused
  · exact Or.inr ⟨s, os, same, streams, room⟩
  · exact Or.inr ⟨_, _, same, streams.grown (by omega) bound, room⟩

/-- A store at the head of the stream. -/
theorem Streams.store (streams : Streams path content s os) {data : List UInt8}
    (fits : content.length + data.length ≤ s.capacity.toNat) :
    ∃ os', s.head.store os data = some os' ∧ os'.refused = false ∧
      (os'.files path).length = s.capacity.toNat ∧
      (os'.files path).take (content.length + data.length) = content ++ data := by
  have size := streams.size
  have start : (0 : BitVec 64).toNat + content.length = content.length := Nat.zero_add _
  have head : s.head = .mapped ⟨some (path, 0), s.capacity⟩ s.writeOffset := by
    rw [StreamWriter.head, streams.mmap]
    rfl
  refine ⟨os.put path (overwritten (os.files path) content.length data), ?_, streams.served, ?_, ?_⟩
  · rw [head]
    simp only [Pointer.store, streams.offset, start]
    rw [if_pos ⟨fits, by omega⟩]
  · rw [Os.files_put, length_overwritten (by omega), size]
  · rw [Os.files_put, take_overwritten (by omega), streams.front]

omit [DecidableEq π] in
/-- Committing a part of what was stored. -/
theorem Streams.commit (streams : Streams path content s os) {os' : Os π} {data : List UInt8}
    {committed : Nat} (fits : content.length + data.length ≤ s.capacity.toNat)
    (within : committed ≤ data.length) (served : os'.refused = false)
    (size : (os'.files path).length = s.capacity.toNat)
    (stored : (os'.files path).take (content.length + data.length) = content ++ data) :
    Streams path (content ++ data.take committed)
      (s.commitWrite (BitVec.ofNat 64 committed)) os' := by
  have bound := s.capacity.isLt
  have length : (content ++ data.take committed).length = content.length + committed := by
    rw [List.length_append, List.length_take, Nat.min_eq_left within]
  refine ⟨streams.file, streams.mmap, served, size, streams.bound, ?_, ?_⟩
  · rw [StreamWriter.commitWrite, length, BitVec.toNat_add, BitVec.toNat_ofNat, streams.offset,
      Nat.mod_eq_of_lt (by omega : committed < 2 ^ 64), Nat.mod_eq_of_lt (by omega)]
  · rw [length]
    calc (os'.files path).take (content.length + committed)
        = ((os'.files path).take (content.length + data.length)).take
            (content.length + committed) := by rw [List.take_take, Nat.min_eq_left (by omega)]
      _ = content ++ data.take committed := by
          rw [stored, List.take_length_add_append]

omit [DecidableEq π] in
theorem proceed_of_refused (refused : os.refused = true) : proceed s os = .error .refused := by
  rw [proceed, if_pos refused]

omit [DecidableEq π] in
theorem Streams.proceed (streams : Streams path content s os) : Io.proceed s os = .ok (s, os) := by
  rw [Io.proceed, if_neg (by rw [streams.served]; decide)]

/-- Putting one chunk appends it, or the system refuses a call. -/
theorem Streams.put (streams : Streams path content s os) (chunk : Chunk) (calls : Calls)
    (small : content.length + chunk.requested < 2 ^ 64) :
    chunk.put calls s os = .error .refused ∨
      ∃ s' os', chunk.put calls s os = .ok (s', os') ∧
        Streams path (content ++ chunk.bytes) s' os' := by
  cases chunk with
  | write data short =>
      have length : (BitVec.ofNat 64 data.length).toNat = data.length := by
        rw [BitVec.toNat_ofNat, Nat.mod_eq_of_lt short]
      have small' : content.length + (BitVec.ofNat 64 data.length).toNat < 2 ^ 64 := by
        rw [length]
        exact small
      rcases streams.reserveExtra small' calls with ⟨failed, refused⟩ |
        ⟨s', os', same, reserved, room⟩
      · left
        simp only [Chunk.put, StreamWriter.write, if_pos failed]
        exact proceed_of_refused refused
      · right
        rw [length] at room
        obtain ⟨os'', stored, served, size, front⟩ := reserved.store room
        have next := reserved.commit room (Nat.le_refl data.length) served size front
        rw [List.take_length] at next
        refine ⟨_, _, ?_, next⟩
        simp only [Chunk.put, StreamWriter.write, same, Bool.true_eq_false, if_false, stored]
        exact next.proceed
  | fill length data committed within fits =>
      rcases streams.reserveExtra small calls with ⟨failed, refused⟩ |
        ⟨s', os', same, reserved, room⟩
      · left
        simp only [Chunk.put, StreamWriter.prepareWriteBuffer, if_pos failed]
        exact proceed_of_refused refused
      · right
        have room' : content.length + data.length ≤ s'.capacity.toNat := by omega
        obtain ⟨os'', stored, served, size, front⟩ := reserved.store room'
        have next := reserved.commit room' within served size front
        have head : s'.head = .mapped ⟨some (path, 0), s'.capacity⟩ s'.writeOffset := by
          rw [StreamWriter.head, reserved.mmap]
          rfl
        refine ⟨_, _, ?_, next⟩
        rw [head] at stored
        simp only [Chunk.put, StreamWriter.prepareWriteBuffer, same, Bool.true_eq_false, if_false,
          head, stored]
        exact next.proceed

/-- The bytes that the chunks of a session ask for. -/
def requestedBytes (chunks : List (Chunk × Calls)) : Nat :=
  (chunks.map fun c => c.1.requested).sum

theorem Streams.putAll {chunks : List (Chunk × Calls)} (streams : Streams path content s os)
    (small : content.length + requestedBytes chunks < 2 ^ 64) :
    putAll chunks s os = .error .refused ∨
      ∃ s' os', putAll chunks s os = .ok (s', os') ∧
        Streams path (content ++ stream chunks) s' os' := by
  induction chunks generalizing content s os with
  | nil =>
      right
      refine ⟨s, os, rfl, ?_⟩
      rw [stream, List.flatMap_nil, List.append_nil]
      exact streams
  | cons head chunks ih =>
      obtain ⟨chunk, calls⟩ := head
      simp only [requestedBytes, List.map_cons, List.sum_cons] at small
      have most := chunk.length_bytes_le
      rcases streams.put chunk calls (by omega) with refused | ⟨s', os', put, next⟩
      · left
        rw [Io.putAll, refused]
      · rw [Io.putAll, put]
        have rest := ih next (by rw [List.length_append, requestedBytes]; omega)
        rw [stream, List.flatMap_cons, ← List.append_assoc]
        exact rest

/-- Finishing cuts the file behind the stream. -/
theorem Streams.finish (streams : Streams path content s os) (calls : Calls) :
    (s.finish os calls).2.refused = true ∨
      ((s.finish os calls).2.refused = false ∧ (s.finish os calls).2.files path = content ∧
        (s.finish os calls).1.bytesWritten.toNat = content.length) := by
  have valid : (⟨some path, .readWrite⟩ : FileHandle π).isValid = true := rfl
  have inside := streams.length_le
  have size := streams.size
  simp only [StreamWriter.finish, streams.file, valid, Bool.true_eq_false, if_false]
  rcases @resize_open π _ path s.writeOffset os calls with ⟨-, refused⟩ | ⟨cut, -⟩
  · exact Or.inl refused
  · right
    rw [cut]
    refine ⟨streams.served, ?_, streams.offset⟩
    rw [Os.files_put, streams.offset, resized, streams.front, Nat.sub_eq_zero_of_le (by omega),
      List.replicate_zero, List.append_nil]

/-! ## Whole sessions -/

/-- What `open` does when it returns true: the file is resized and mapped as a whole. -/
theorem open_eq {initialCapacity : BitVec 64} {s' : StreamWriter π 64} {os' : Os π} {calls : Calls}
    (opened : s.open_ path initialCapacity os calls = (s', os', true)) :
    s' = ⟨⟨some path, .readWrite⟩, ⟨some (path, 0), initialCapacity⟩, initialCapacity, 0⟩ ∧
      os' = os.put path (resized (os.files path) initialCapacity.toNat) ∧
      initialCapacity.toNat < 2 ^ 63 ∧ initialCapacity ≠ 0 := by
  have opens : calls.opens = true := by
    by_contra shut
    simp [StreamWriter.open_, FileHandle.open_, shut] at opened
  simp only [StreamWriter.open_, FileHandle.open_, opens, if_true, Bool.true_eq_false, if_false]
    at opened
  rcases @resize_open π _ path initialCapacity os calls with ⟨failed, -⟩ | ⟨resized_, bound⟩
  · rw [if_pos failed] at opened
    cases opened
  simp only [resized_, Bool.true_eq_false, if_false] at opened
  have size : ((os.put path (resized (os.files path) initialCapacity.toNat)).files path).length =
      initialCapacity.toNat := by
    rw [Os.files_put, length_resized]
  by_cases zero : initialCapacity = 0
  · -- An empty file is not mapped.
    subst zero
    rw [if_pos (map_empty size)] at opened
    cases opened
  rcases @map_whole π s.mmap path .readWrite initialCapacity _ calls size zero with
    ⟨failed, -⟩ | mapped
  · rw [if_pos failed] at opened
    cases opened
  · simp only [mapped, Bool.true_eq_false, if_false] at opened
    cases opened
    exact ⟨rfl, rfl, bound, zero⟩

/-- A writer that `open` has returned true for. -/
theorem streams_of_open {initialCapacity : BitVec 64} {s' : StreamWriter π 64} {os' : Os π}
    {calls : Calls} (served : os.refused = false)
    (opened : s.open_ path initialCapacity os calls = (s', os', true)) :
    Streams path [] s' os' := by
  obtain ⟨rfl, rfl, bound, -⟩ := open_eq opened
  refine ⟨rfl, rfl, served, ?_, bound, rfl, rfl⟩
  rw [Os.files_put, length_resized]

/-- Every session that the system serves leaves in the file exactly the chunks, in order, and
`bytes_written` says how many bytes they are. -/
theorem session_exact {initialCapacity : BitVec 64} {s' : StreamWriter π 64} {os' : Os π}
    {calls last : Calls} {chunks : List (Chunk × Calls)} (served : os.refused = false)
    (opened : s.open_ path initialCapacity os calls = (s', os', true))
    (total : requestedBytes chunks < 2 ^ 63)
    (serves : session chunks last s' os' ≠ .error .refused) :
    ∃ s'' os'', session chunks last s' os' = .ok (s'', os'') ∧
      os''.files path = stream chunks ∧
        (os''.files path).length = s''.bytesWritten.toNat := by
  have begins := streams_of_open served opened
  rcases begins.putAll (by simp; omega : ([] : List UInt8).length + requestedBytes chunks < 2 ^ 64)
    with refused | ⟨s₁, os₁, all, streams⟩
  · exact absurd (by rw [session, refused]) serves
  rw [session, all] at serves ⊢
  rcases streams.finish last with refused | ⟨served', file, written⟩
  · exact absurd (proceed_of_refused refused) serves
  · refine ⟨_, _, if_neg (by rw [served']; decide), ?_, ?_⟩
    · rw [file, List.nil_append]
    · rw [file, written]

/-- Three bytes are written, and one of two is kept of a buffer of five. -/
def smallChunks : List (Chunk × Calls) :=
  [(.write [1, 2, 3] (by decide), .all), (.fill 5 [4, 5] 1 (by decide) (by decide), .all)]

/-- The writer is opened with one byte, on a file that is not empty. -/
theorem session_exact_smallChunks :
    let opened :=
      (StreamWriter.construct : StreamWriter Unit 64).open_ () 1 ⟨fun _ => [9, 9], false⟩ .all
    opened.2.2 = true ∧ ∃ s os, session smallChunks .all opened.1 opened.2.1 = .ok (s, os) ∧
      os.files () = [1, 2, 3, 4] ∧ s.bytesWritten = 4 := by
  intro opened
  have ok : opened.2.2 = true := by decide +kernel
  have opens : (StreamWriter.construct : StreamWriter Unit 64).open_ () 1
      ⟨fun _ => [9, 9], false⟩ .all = (opened.1, opened.2.1, true) := by rw [← ok]
  have finishes : (match session smallChunks .all opened.1 opened.2.1 with
      | .error _ => false
      | .ok _ => true) = true := by decide +kernel
  have serves : session smallChunks .all opened.1 opened.2.1 ≠ .error .refused := by
    intro refused
    rw [refused] at finishes
    cases finishes
  obtain ⟨s, os, done, file, written⟩ := session_exact rfl opens (by decide) serves
  refine ⟨ok, s, os, done, file, ?_⟩
  rw [file] at written
  exact BitVec.eq_of_toNat_eq written.symm

end Fpag.Io
