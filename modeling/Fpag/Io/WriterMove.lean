import Fpag.Io.StreamHoles
import Fpag.Io.WriterSafety

/-!
Move assignment of a `MemoryMappedStreamWriter`.

A file is larger than its stream while a writer has it open, and `finish` cuts it. The move
assignment of the writer is the defaulted one: the handle and the mapping that it replaces are
closed, and nobody cuts their file. `TwoWriters` are any two writers with files of their own, used
in any order; `moved_iff` says that the file of the one that is assigned to comes out right exactly
when its stream happens to fill it. The other file always does.
-/

namespace Fpag.Io

variable {π : Type} {w : Nat}

/-! ## Moves -/

/-- `FileHandle::operator=`: the handle, and the one that was moved from. -/
def FileHandle.moveAssign (file other : FileHandle π) : FileHandle π × FileHandle π :=
  let file := file.close
  ({ file with handle := other.handle, access := other.access }, { other with handle := none })

/-- `MemoryMappedFile::operator=`. -/
def MemoryMappedFile.moveAssign (mmap other : MemoryMappedFile π w) :
    MemoryMappedFile π w × MemoryMappedFile π w :=
  let mmap := mmap.close
  ({ mmap with data := other.data, size := other.size }, { other with data := none, size := 0 })

/-- The defaulted move assignment of `MemoryMappedStreamWriter`, member by member. -/
def StreamWriter.moveAssign (s other : StreamWriter π w) : StreamWriter π w × StreamWriter π w :=
  let file := s.file.moveAssign other.file
  let mmap := s.mmap.moveAssign other.mmap
  (⟨file.1, mmap.1, other.capacity, other.writeOffset⟩,
    ⟨file.2, mmap.2, other.capacity, other.writeOffset⟩)

theorem StreamWriter.moveAssign_eq (s other : StreamWriter π w) :
    s.moveAssign other = (other, other.movedFrom) := rfl

/-! ## Two writers -/

inductive Side : Type
  | a
  | b
  deriving DecidableEq, Repr

def Side.other : Side → Side
  | .a => .b
  | .b => .a

theorem Side.eq_or_eq_other (i j : Side) : j = i ∨ j = i.other := by
  cases i <;> cases j <;> simp [Side.other]

theorem Side.other_ne (i : Side) : i.other ≠ i := by
  cases i <;> simp [Side.other]

/-- Two writers over one system, with the bytes that went through each of them since it was
opened. -/
structure TwoWriters (π : Type) : Type where
  writer : Side → StreamWriter π 64
  written : Side → List UInt8
  os : Os π

/-- A call of a writer; the system answers every call that it makes. -/
inductive WriterCall (π : Type) : Type
  | open_ (path : π) (initialCapacity : BitVec 64)
  | put (chunk : Chunk)

namespace TwoWriters

def set (p : TwoWriters π) (i : Side) (s : StreamWriter π 64) (written : List UInt8) (os : Os π) :
    TwoWriters π :=
  ⟨Function.update p.writer i s, Function.update p.written i written, os⟩

def initial (os : Os π) : TwoWriters π := ⟨fun _ => .construct, fun _ => [], os⟩

variable [DecidableEq π]

/-- One call. It cannot happen if the system refuses, which it does with a size of `2 ^ 63` or
more, or if it stores outside of a mapping. -/
def step (e : Side × WriterCall π) (p : TwoWriters π) : Option (TwoWriters π) :=
  match e.2 with
  | .open_ path initialCapacity =>
      let r := (p.writer e.1).open_ path initialCapacity p.os .all
      if r.2.1.refused then none else some (p.set e.1 r.1 [] r.2.1)
  | .put chunk =>
      match chunk.put .all (p.writer e.1) p.os with
      | .error _ => none
      | .ok (s, os) => some (p.set e.1 s (p.written e.1 ++ chunk.bytes) os)

/-- No writer opens the file that the other one has open. -/
def apart (e : Side × WriterCall π) (p : TwoWriters π) : Bool :=
  match e.2 with
  | .open_ path _ => decide ((p.writer e.1.other).file.handle ≠ some path)
  | .put _ => true

/-- The two destructors, in either order. -/
def destroyBoth (first : Side) (a b : StreamWriter π 64) (os : Os π) : Os π :=
  match first with
  | .a => (b.finish (a.finish os .all).2 .all).2
  | .b => (a.finish (b.finish os .all).2 .all).2

/-- `a = std::move(b)`, more chunks through `a`, and the destruction of both. -/
def moveAndDestroy (p : TwoWriters π) (after : List Chunk) (first : Side) :
    Except Failure (Os π) :=
  let moved := (p.writer .a).moveAssign (p.writer .b)
  match putAll (after.map fun chunk => (chunk, .all)) moved.1 p.os with
  | .error failure => .error failure
  | .ok (a, os) => .ok (destroyBoth first a moved.2 os)

/-- What is left is the file of each writer with exactly its bytes. -/
def Finished (p : TwoWriters π) (after : List Chunk) (os : Os π) : Prop :=
  (∀ path, (p.writer .a).file.handle = some path → os.files path = p.written .a) ∧
    ∀ path, (p.writer .b).file.handle = some path →
      os.files path = p.written .b ++ after.flatMap Chunk.bytes

end TwoWriters

/-! ## One writer -/

/-- A writer without a file, which has no room either. -/
structure Idle (s : StreamWriter π 64) : Prop where
  file : s.file.handle = none
  mmap : s.mmap.isMapped = false
  capacity : s.capacity = 0

/-- The writer is idle or has the bytes in front of its file. -/
def Held (content : List UInt8) (s : StreamWriter π 64) (os : Os π) : Prop :=
  Idle s ∨ ∃ path, Streams path content s os

section OneWriter

variable {path : π} {content : List UInt8} {s s' : StreamWriter π 64} {os os' : Os π}

/-- A file that stays as it is keeps its stream. -/
theorem Streams.frame (streams : Streams path content s os) (served : os'.refused = false)
    (same : os'.files path = os.files path) : Streams path content s os' :=
  ⟨streams.file, streams.mmap, served, by rw [same]; exact streams.size, streams.bound,
    streams.offset, by rw [same]; exact streams.front⟩

theorem Held.frame (held : Held content s os) (served : os'.refused = false)
    (same : ∀ path, s.file.handle = some path → os'.files path = os.files path) :
    Held content s os' := by
  rcases held with idle | ⟨path, streams⟩
  · exact .inl idle
  · exact .inr ⟨path, streams.frame served (same path (by rw [streams.file]))⟩

variable [DecidableEq π]

theorem Os.files_put_of_ne (os : Os π) {q : π} (ne : q ≠ path) (contents : List UInt8) :
    (os.put path contents).files q = os.files q :=
  Function.update_of_ne ne _ _

/-- A resize changes the file of the handle only. -/
theorem FileHandle.files_resize {file : FileHandle π} {q : π} (other : file.handle ≠ some q)
    (size : BitVec 64) (calls : Calls) : (file.resize size os calls).1.files q = os.files q := by
  unfold FileHandle.resize
  split
  · rfl
  · next path open_ =>
      have ne : q ≠ path := by
        rintro rfl
        exact other open_
      split
      · rfl
      split
      · exact os.files_put_of_ne ne _
      · rfl

theorem StreamWriter.files_finish {q : π} (other : s.file.handle ≠ some q) (calls : Calls) :
    (s.finish os calls).2.files q = os.files q := by
  unfold StreamWriter.finish
  split
  · rfl
  · exact FileHandle.files_resize other _ _

omit [DecidableEq π] in
theorem Streams.head_eq (streams : Streams path content s os) :
    s.head = .mapped ⟨some (path, 0), s.capacity⟩ s.writeOffset := by
  rw [StreamWriter.head, streams.mmap]
  rfl

omit [DecidableEq π] in
theorem proceed_ok (ok : proceed s os = .ok (s', os')) :
    s' = s ∧ os' = os ∧ os.refused = false := by
  unfold proceed at ok
  split at ok
  · cases ok
  · next served =>
      cases ok
      exact ⟨rfl, rfl, (Bool.not_eq_true _).mp served⟩

/-- Reserving any room, also where the sum wraps. -/
theorem Streams.reserve (streams : Streams path content s os) (length : BitVec 64) (calls : Calls) :
    Refused (s.reserveExtra length os calls).2.1 (s.reserveExtra length os calls).2.2 ∨
      ∃ s' os', s.reserveExtra length os calls = (s', os', true) ∧ Streams path content s' os' ∧
        ∀ q, q ≠ path → os'.files q = os.files q := by
  have inside := streams.length_le
  rcases @reserveExtra_grows π _ path s os streams.file length calls with
    refused | ⟨same, -⟩ | ⟨capacity, same, lacks, enough, bound⟩
  · exact .inl refused
  · exact .inr ⟨s, os, same, streams, fun _ _ => rfl⟩
  · exact .inr ⟨_, _, same, streams.grown (by omega) bound, fun q ne => os.files_put_of_ne ne _⟩

/-- A store at the head that stays inside the mapping, and a commit of a part of it. -/
theorem Streams.stored (streams : Streams path content s os) {data : List UInt8} {committed : Nat}
    (within : committed ≤ data.length) (stored : s.head.store os data = some os') :
    Streams path (content ++ data.take committed)
        (s.commitWrite (BitVec.ofNat 64 committed)) os' ∧
      ∀ q, q ≠ path → os'.files q = os.files q := by
  have start : (0 : BitVec 64).toNat + s.writeOffset.toNat = s.writeOffset.toNat := Nat.zero_add _
  have inside : s.writeOffset.toNat + data.length ≤ s.capacity.toNat ∧
      os' = os.put path (overwritten (os.files path) s.writeOffset.toNat data) := by
    rw [streams.head_eq] at stored
    simp only [Pointer.store, start] at stored
    split at stored
    · next room =>
        cases stored
        exact ⟨room.1, rfl⟩
    · cases stored
  have fits : content.length + data.length ≤ s.capacity.toNat := by
    rw [← streams.offset]
    exact inside.1
  obtain ⟨os₁, stored₁, served, size, front⟩ := streams.store fits
  cases stored.symm.trans stored₁
  refine ⟨streams.commit fits within served size front, fun q ne => ?_⟩
  rw [inside.2]
  exact os.files_put_of_ne ne _

/-- What a chunk does that is put: it is appended, and no other file changes. -/
theorem Streams.of_put (streams : Streams path content s os) {chunk : Chunk} {calls : Calls}
    (put : chunk.put calls s os = .ok (s', os')) :
    Streams path (content ++ chunk.bytes) s' os' ∧ ∀ q, q ≠ path → os'.files q = os.files q := by
  cases chunk with
  | write data small =>
      rcases streams.reserve (BitVec.ofNat 64 data.length) calls with
        ⟨failed, refused⟩ | ⟨s₁, os₁, same, reserved, others⟩
      · simp only [Chunk.put, StreamWriter.write, if_pos failed, proceed_of_refused refused] at put
        cases put
      · simp only [Chunk.put, StreamWriter.write, same, Bool.true_eq_false, if_false] at put
        cases stored : s₁.head.store os₁ data with
        | none =>
            rw [stored] at put
            cases put
        | some os₂ =>
            rw [stored] at put
            obtain ⟨rfl, rfl, -⟩ := proceed_ok put
            obtain ⟨next, others'⟩ := reserved.stored (Nat.le_refl data.length) stored
            rw [List.take_length] at next
            exact ⟨next, fun q ne => (others' q ne).trans (others q ne)⟩
  | fill length data committed within fits =>
      rcases streams.reserve length calls with
        ⟨failed, refused⟩ | ⟨s₁, os₁, same, reserved, others⟩
      · simp only [Chunk.put, StreamWriter.prepareWriteBuffer, if_pos failed,
          proceed_of_refused refused] at put
        cases put
      · have head := reserved.head_eq
        simp only [Chunk.put, StreamWriter.prepareWriteBuffer, same, Bool.true_eq_false, if_false,
          head] at put
        cases stored : s₁.head.store os₁ data with
        | none =>
            rw [← head, stored] at put
            cases put
        | some os₂ =>
            rw [← head, stored] at put
            obtain ⟨rfl, rfl, -⟩ := proceed_ok put
            obtain ⟨next, others'⟩ := reserved.stored within stored
            exact ⟨next, fun q ne => (others' q ne).trans (others q ne)⟩

/-- An idle writer has no room, or reserves an empty one. -/
theorem Idle.reserve (idle : Idle s) (length : BitVec 64) (calls : Calls) :
    s.reserveExtra length os calls = (s, os, true) ∨
      ∃ s', s.reserveExtra length os calls = (s', os, false) ∧ Idle s' := by
  by_cases fits : s.writeOffset + length ≤ s.capacity
  · exact .inl (by rw [StreamWriter.reserveExtra, if_pos fits])
  · refine .inr ⟨{ s with mmap := s.mmap.close }, ?_, idle.file, ?_, idle.capacity⟩
    · simp only [StreamWriter.reserveExtra, if_neg fits, FileHandle.resize, idle.file, if_true]
    · exact s.mmap.isMapped_close

omit [DecidableEq π] in
theorem Idle.head (idle : Idle s) : s.head = .null ∨ ∃ address, s.head = .wild address := by
  unfold StreamWriter.head
  rw [if_neg (by rw [idle.mmap]; decide)]
  by_cases zero : s.writeOffset = 0
  · exact .inl (if_pos zero)
  · exact .inr ⟨_, if_neg zero⟩

/-- A chunk that an idle writer is given goes nowhere. -/
theorem Idle.of_put (idle : Idle s) {chunk : Chunk} {calls : Calls}
    (put : chunk.put calls s os = .ok (s', os')) : Idle s' ∧ os' = os ∧ os.refused = false := by
  cases chunk with
  | write data small =>
      rcases @Idle.reserve π s os _ idle (BitVec.ofNat 64 data.length) calls with
        same | ⟨s₁, same, still⟩
      · simp only [Chunk.put, StreamWriter.write, same, Bool.true_eq_false, if_false] at put
        rcases idle.head with head | ⟨address, head⟩
        · rw [head] at put
          cases put
        · rw [head] at put
          cases put
      · simp only [Chunk.put, StreamWriter.write, same, if_true] at put
        obtain ⟨rfl, rfl, served⟩ := proceed_ok put
        exact ⟨still, rfl, served⟩
  | fill length data committed within fits =>
      rcases @Idle.reserve π s os _ idle length calls with same | ⟨s₁, same, still⟩
      · simp only [Chunk.put, StreamWriter.prepareWriteBuffer, same, Bool.true_eq_false,
          if_false] at put
        rcases idle.head with head | ⟨address, head⟩
        · rw [head] at put
          obtain ⟨rfl, rfl, served⟩ := proceed_ok put
          exact ⟨idle, rfl, served⟩
        · rw [head] at put
          cases put
      · simp only [Chunk.put, StreamWriter.prepareWriteBuffer, same, if_true] at put
        obtain ⟨rfl, rfl, served⟩ := proceed_ok put
        exact ⟨still, rfl, served⟩

/-- What a chunk does that is put through any writer. -/
theorem Held.of_put (held : Held content s os) {chunk : Chunk} {calls : Calls}
    (put : chunk.put calls s os = .ok (s', os')) :
    Held (content ++ chunk.bytes) s' os' ∧ s'.file.handle = s.file.handle ∧
      os'.refused = false ∧ ∀ q, s.file.handle ≠ some q → os'.files q = os.files q := by
  rcases held with idle | ⟨path, streams⟩
  · obtain ⟨still, rfl, served⟩ := idle.of_put put
    exact ⟨.inl still, still.file.trans idle.file.symm, served, fun _ _ => rfl⟩
  · obtain ⟨next, others⟩ := streams.of_put put
    refine ⟨.inr ⟨path, next⟩, ?_, next.served, fun q other => others q ?_⟩
    · rw [next.file, streams.file]
    · rintro rfl
      exact other (by rw [streams.file])

theorem Held.of_putAll {chunks : List (Chunk × Calls)} (held : Held content s os)
    (served : os.refused = false) (put : putAll chunks s os = .ok (s', os')) :
    Held (content ++ stream chunks) s' os' ∧ s'.file.handle = s.file.handle ∧
      os'.refused = false ∧ ∀ q, s.file.handle ≠ some q → os'.files q = os.files q := by
  induction chunks generalizing content s os with
  | nil =>
      cases put
      rw [stream, List.flatMap_nil, List.append_nil]
      exact ⟨held, rfl, served, fun _ _ => rfl⟩
  | cons head chunks ih =>
      obtain ⟨chunk, calls⟩ := head
      rw [Io.putAll] at put
      split at put
      · cases put
      · next s₁ os₁ first =>
          obtain ⟨next, handle, served', others⟩ := held.of_put first
          obtain ⟨last, handle', served'', others'⟩ := ih next served' put
          rw [stream, List.flatMap_cons, ← List.append_assoc]
          refine ⟨last, handle'.trans handle, served'', fun q other => ?_⟩
          rw [← handle] at other
          rw [others' q other, others q (handle ▸ other)]

/-- Where a writer has a file open, finishing it leaves exactly its bytes. -/
theorem Held.finish (held : Held content s os) (served : os.refused = false) :
    (s.finish os .all).2.refused = false ∧
      ∀ path, s.file.handle = some path → (s.finish os .all).2.files path = content := by
  rcases held with idle | ⟨path, streams⟩
  · rw [finish_of_closed idle.file]
    refine ⟨served, fun path open_ => ?_⟩
    rw [idle.file] at open_
    cases open_
  · have valid : (⟨some path, .readWrite⟩ : FileHandle π).isValid = true := rfl
    have granted : Calls.all.resizes = true ∧ s.writeOffset.toNat < 2 ^ 63 :=
      ⟨rfl, lt_of_le_of_lt (streams.offset ▸ streams.length_le) streams.bound⟩
    have cut : (s.finish os .all).2.refused = false := by
      simp only [StreamWriter.finish, streams.file, valid, Bool.true_eq_false, if_false,
        FileHandle.resize, ne_eq, not_true_eq_false, if_pos granted]
      exact streams.served
    refine ⟨cut, fun q open_ => ?_⟩
    rw [streams.file] at open_
    cases open_
    rcases streams.finish Calls.all with refused | ⟨-, file, -⟩
    · rw [cut] at refused
      cases refused
    · exact file

/-- An open that asks for an empty file is turned down: nothing of it can be mapped. -/
theorem open_empty (s : StreamWriter π 64) (path : π) (os : Os π) : s.open_ path 0 os .all =
    (⟨⟨none, .readWrite⟩, s.mmap.close, 0, s.writeOffset⟩, os.put path (resized (os.files path) 0),
      false) := by
  have size : ((os.put path (resized (os.files path) 0)).files path).length = 0 := by
    rw [Os.files_put, length_resized]
  have granted : FileHandle.resize ⟨some path, .readWrite⟩ (0 : BitVec 64) os .all =
      (os.put path (resized (os.files path) 0), true) := rfl
  have mapped : s.mmap.map ⟨some path, .readWrite⟩ 0 0 (os.put path (resized (os.files path) 0))
      .all = (s.mmap.close, os.put path (resized (os.files path) 0), false) := by
    simp only [MemoryMappedFile.map, FileHandle.getSize, Calls.all, if_true, size,
      MemoryMappedFile.extent]
    rfl
  simp only [StreamWriter.open_, FileHandle.open_, Calls.all, if_true, Bool.true_eq_false, if_false]
  simp only [Calls.all] at granted mapped
  simp only [granted, mapped, Bool.true_eq_false, if_false, if_true]
  rfl

/-- What `open` does where the system does not refuse it: the writer has the file from its
beginning, or it asked for an empty one and is idle. -/
theorem held_of_open (served : os.refused = false) {path : π}
    {initialCapacity : BitVec 64}
    (serves : (s.open_ path initialCapacity os .all).2.1.refused = false) :
    Held [] (s.open_ path initialCapacity os .all).1 (s.open_ path initialCapacity os .all).2.1 ∧
      (∀ q, (s.open_ path initialCapacity os .all).1.file.handle = some q → q = path) ∧
      ∀ q, q ≠ path → (s.open_ path initialCapacity os .all).2.1.files q = os.files q := by
  by_cases zero : initialCapacity = 0
  · subst zero
    rw [open_empty]
    exact ⟨.inl ⟨rfl, s.mmap.isMapped_close, rfl⟩, by rintro q ⟨⟩,
      fun q ne => os.files_put_of_ne ne _⟩
  · rcases @open_cases π _ path s os initialCapacity zero .all with
      ⟨s', os', opened, refused⟩ | ⟨s', os', opened⟩
    · rw [opened] at serves
      cases serves.symm.trans refused
    · have streams := streams_of_open served opened
      obtain ⟨rfl, rfl, -, -⟩ := open_eq opened
      rw [opened]
      refine ⟨.inr ⟨path, streams⟩, ?_, fun q ne => os.files_put_of_ne ne _⟩
      rintro q ⟨⟩
      rfl

end OneWriter

/-! ## Runs of two writers -/

namespace TwoWriters

/-- Both writers have their bytes, in files of their own. -/
structure Inv (p : TwoWriters π) : Prop where
  served : p.os.refused = false
  held : ∀ i, Held (p.written i) (p.writer i) p.os
  separate : ∀ i path, (p.writer i).file.handle = some path →
    (p.writer i.other).file.handle ≠ some path

theorem inv_initial {os : Os π} (served : os.refused = false) : (initial os).Inv :=
  ⟨served, fun _ => .inl ⟨rfl, rfl, rfl⟩, by rintro i path ⟨⟩⟩

/-- A call of one writer that gives it a file of its own, and leaves the other's file alone. -/
theorem Inv.set {p : TwoWriters π} (inv : p.Inv) {i : Side} {s : StreamWriter π 64}
    {written : List UInt8} {os : Os π} (served : os.refused = false) (held : Held written s os)
    (own : ∀ path, s.file.handle = some path → (p.writer i.other).file.handle ≠ some path)
    (frame : ∀ path, (p.writer i.other).file.handle = some path →
      os.files path = p.os.files path) : (p.set i s written os).Inv := by
  have other : (p.set i s written os).writer i.other = p.writer i.other :=
    Function.update_of_ne i.other_ne _ _
  have self : (p.set i s written os).writer i = s := Function.update_self ..
  refine ⟨served, fun j => ?_, fun j path open_ => ?_⟩
  · rcases i.eq_or_eq_other j with rfl | rfl
    · simp only [TwoWriters.set, Function.update_self]
      exact held
    · simp only [TwoWriters.set, Function.update_of_ne i.other_ne]
      exact (inv.held i.other).frame served frame
  · rcases i.eq_or_eq_other j with rfl | rfl
    · rw [self] at open_
      rw [other]
      exact own path open_
    · have back : i.other.other = i := by cases i <;> rfl
      rw [other] at open_
      rw [back, self]
      exact fun same => own path same open_

variable [DecidableEq π] {p p' : TwoWriters π} {e : Side × WriterCall π}

/-- Every call keeps the two writers apart and in front of their files. -/
theorem Inv.step (inv : p.Inv) (legal : apart e p = true)
    (h : TwoWriters.step e p = some p') : p'.Inv := by
  obtain ⟨i, call⟩ := e
  cases call with
  | open_ path initialCapacity =>
      simp only [TwoWriters.step] at h
      split at h
      · cases h
      · next serves =>
          cases h
          have serves := (Bool.not_eq_true _).mp serves
          obtain ⟨held, own, others⟩ := held_of_open inv.served serves
          have free : (p.writer i.other).file.handle ≠ some path := of_decide_eq_true legal
          refine inv.set serves held (fun q open_ => ?_) fun q open_ => others q ?_
          · rw [own q open_]
            exact free
          · rintro rfl
            exact free open_
  | put chunk =>
      simp only [TwoWriters.step] at h
      split at h
      · cases h
      · next s os put =>
          cases h
          obtain ⟨held, handle, served, others⟩ := (inv.held i).of_put put
          refine inv.set served held (fun q open_ => ?_) fun q open_ => others q fun same => ?_
          · rw [handle] at open_
            exact inv.separate i q open_
          · exact inv.separate i q same open_

theorem Inv.reached {os : Os π} (served : os.refused = false) {es : List (Side × WriterCall π)}
    (reached : Schedule.run (Schedule.guarded (fun e p => apart e p = true) TwoWriters.step)
      (initial os) es = some p) : p.Inv := by
  refine Schedule.run_invariant (I := Inv) (fun h inv => ?_) reached (inv_initial served)
  obtain ⟨legal, moved⟩ := Schedule.guarded_eq_some.mp h
  exact inv.step legal moved

/-- The destructor of the writer that was moved from does nothing. -/
theorem destroyBoth_eq (first : Side) (a b : StreamWriter π 64) (os : Os π) :
    destroyBoth first a b.movedFrom os = (a.finish os .all).2 := by
  have idle (os : Os π) : b.movedFrom.finish os .all = (b.movedFrom, os) :=
    finish_of_closed rfl .all
  cases first with
  | a => rw [destroyBoth, idle]
  | b => rw [destroyBoth, idle]

/-- After the move assignment, more chunks and both destructors: both files have exactly their bytes
if and only if the writer that was assigned to had no file, or its file was full. -/
theorem moved_iff {os os' : Os π} (served : os.refused = false) {es : List (Side × WriterCall π)}
    (reached : Schedule.run (Schedule.guarded (fun e p => apart e p = true) TwoWriters.step)
      (initial os) es = some p) {after : List Chunk} {first : Side}
    (ended : p.moveAndDestroy after first = .ok os') :
    p.Finished after os' ↔
      (p.writer .a).file.handle = none ∨ (p.writer .a).bytesWritten = (p.writer .a).capacity := by
  have inv := Inv.reached served reached
  have bytes : stream (after.map fun chunk => (chunk, Calls.all)) = after.flatMap Chunk.bytes := by
    rw [stream, List.flatMap_map]
  simp only [moveAndDestroy, StreamWriter.moveAssign_eq, destroyBoth_eq] at ended
  split at ended
  · cases ended
  next a os₁ put =>
  cases ended
  obtain ⟨held, handle, served₁, others⟩ := (inv.held .b).of_putAll inv.served put
  rw [bytes] at held
  have written := (held.finish served₁).2
  rw [handle] at written
  have kept : ∀ path, (p.writer .a).file.handle = some path →
      (a.finish os₁ .all).2.files path = p.os.files path := by
    intro path open_
    have free := inv.separate .a path open_
    rw [StreamWriter.files_finish (by rw [handle]; exact free), others path free]
  rw [Finished, and_iff_left written]
  rcases inv.held .a with idle | ⟨path, streams⟩
  · rw [idle.file]
    exact ⟨fun _ => .inl rfl, fun _ path open_ => by cases open_⟩
  · have handleA : (p.writer .a).file.handle = some path := by rw [streams.file]
    rw [handleA]
    constructor
    · intro exact_
      have file := exact_ path rfl
      rw [kept path handleA] at file
      refine .inr (BitVec.eq_of_toNat_eq ?_)
      rw [StreamWriter.bytesWritten, streams.offset, ← streams.size, file]
    · rintro (none_ | full) q ⟨⟩
      · cases none_
      · have length : (p.written .a).length = (p.os.files path).length := by
          rw [streams.size, ← full, StreamWriter.bytesWritten, streams.offset]
        have front := streams.front
        rw [length, List.take_length] at front
        rw [kept path handleA, front]

theorem two_small : ([1, 2] : List UInt8).length < 2 ^ 64 := by decide

theorem one_small : ([3] : List UInt8).length < 2 ^ 64 := by decide

/-- Two bytes go to a file that is opened with `capacity`, and one to another file. -/
def twoFiles (capacity : BitVec 64) : List (Side × WriterCall Bool) :=
  [(.a, .open_ false capacity), (.a, .put (.write [1, 2] two_small)), (.b, .open_ true 4),
    (.b, .put (.write [3] one_small))]

/-- What is put through the first writer behind the move. -/
def fourth : List Chunk := [.write [4] (by decide)]

/-- The two writers behind that, and the files when they are gone. -/
def twoFilesLeft (capacity : BitVec 64) : Option (TwoWriters Bool × Os Bool) :=
  (Schedule.run (Schedule.guarded (fun e p => apart e p = true) TwoWriters.step)
    (initial ⟨fun _ => [], false⟩) (twoFiles capacity)).bind fun p =>
      (p.moveAndDestroy fourth .a).toOption.map fun os => (p, os)

theorem twoFilesLeft_run {capacity : BitVec 64} {p : TwoWriters Bool} {os : Os Bool}
    (left : twoFilesLeft capacity = some (p, os)) :
    Schedule.run (Schedule.guarded (fun e p => apart e p = true) TwoWriters.step)
      (initial ⟨fun _ => [], false⟩) (twoFiles capacity) = some p ∧
      p.moveAndDestroy fourth .a = .ok os := by
  obtain ⟨p', reached, rest⟩ := Option.bind_eq_some_iff.mp left
  obtain ⟨os', ended, same⟩ := Option.map_eq_some_iff.mp rest
  cases same
  refine ⟨reached, ?_⟩
  cases ended' : p.moveAndDestroy fourth .a with
  | error failure =>
      rw [ended'] at ended
      cases ended
  | ok os' =>
      rw [ended'] at ended
      cases ended
      rfl

/-- The first file has room for two bytes only, and both files come out right. -/
theorem moved_iff_full : ∃ p os, twoFilesLeft 2 = some (p, os) ∧ p.Finished fourth os := by
  have full : (twoFilesLeft 2).any (fun r =>
      (r.1.writer .a).bytesWritten == (r.1.writer .a).capacity) = true := by decide +kernel
  obtain ⟨⟨p, os⟩, left, same⟩ := (Option.any_eq_true ..).mp full
  obtain ⟨reached, ended⟩ := twoFilesLeft_run left
  exact ⟨p, os, left, (moved_iff rfl reached ended).mpr (.inr (beq_iff_eq.mp same))⟩

/-- The first file has room for four bytes, and two zeros stay behind the two that were written. -/
theorem not_moved_room : ∃ p os, twoFilesLeft 4 = some (p, os) ∧
    p.written .a = [1, 2] ∧ os.files false = [1, 2, 0, 0] ∧ ¬ p.Finished fourth os := by
  have left : (twoFilesLeft 4).any (fun r => (r.1.writer .a).file.handle == some false &&
      r.1.written .a == [1, 2] && r.2.files false == [1, 2, 0, 0]) = true := by decide +kernel
  obtain ⟨⟨p, os⟩, left, seen⟩ := (Option.any_eq_true ..).mp left
  simp only [Bool.and_eq_true, beq_iff_eq] at seen
  obtain ⟨⟨open_, written⟩, file⟩ := seen
  refine ⟨p, os, left, written, file, fun finished => ?_⟩
  have exact_ := finished.1 false open_
  rw [file, written] at exact_
  exact absurd exact_ (by decide)

end TwoWriters

end Fpag.Io
