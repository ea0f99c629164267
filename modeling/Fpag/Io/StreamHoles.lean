import Fpag.Lib.Bytes
import Fpag.Io.StreamContents

/-!
What a `MemoryMappedStreamWriter` leaves in its file when more is committed than was stored.

`commit_write` trusts its caller: a caller that commits more bytes than it stored moves the
head of the stream over bytes that nobody wrote, and possibly behind the end of the mapping.
Those bytes keep what the file held when the writer was opened, which is zero behind its old
end. `Covers` is the invariant: the stream so far is in front, with such holes filled from
the old file, and the old file is what lies behind.
-/

namespace Fpag.Io

variable {π : Type}

/-- The byte of a file at a position, and zero behind its end. -/
def byteAt (file : List UInt8) (position : Nat) : UInt8 := file.getD position 0

theorem byteAt_append (front back : List UInt8) (p : Nat) :
    byteAt (front ++ back) p =
      if p < front.length then byteAt front p else byteAt back (p - front.length) := by
  simp only [byteAt, List.getD_eq_getElem?_getD]
  by_cases inside : p < front.length
  · rw [List.getElem?_append_left inside, if_pos inside]
  · rw [List.getElem?_append_right (by omega), if_neg inside]

theorem byteAt_of_length_le {file : List UInt8} {p : Nat} (behind : file.length ≤ p) :
    byteAt file p = 0 := by
  rw [byteAt, List.getD_eq_getElem?_getD, List.getElem?_eq_none behind]
  rfl

theorem byteAt_replicate (n p : Nat) : byteAt (List.replicate n 0) p = 0 := by
  rw [byteAt, List.getD_eq_getElem?_getD, List.getElem?_replicate]
  split <;> rfl

theorem byteAt_take (file : List UInt8) (n p : Nat) :
    byteAt (file.take n) p = if p < n then byteAt file p else 0 := by
  simp only [byteAt, List.getD_eq_getElem?_getD, List.getElem?_take]
  split <;> rfl

theorem byteAt_drop (file : List UInt8) (n p : Nat) :
    byteAt (file.drop n) p = byteAt file (n + p) := by
  simp only [byteAt, List.getD_eq_getElem?_getD, List.getElem?_drop]

theorem byteAt_readBytes (memory : Nat → UInt8) (first n p : Nat) :
    byteAt (readBytes memory first n) p = if p < n then memory (first + p) else 0 := by
  simp only [byteAt, readBytes, List.getD_eq_getElem?_getD, List.getElem?_map]
  by_cases inside : p < n
  · rw [List.getElem?_range inside, if_pos inside]
    rfl
  · rw [List.getElem?_eq_none (by simpa using inside), if_neg inside]
    rfl

theorem byteAt_resized (file : List UInt8) (size p : Nat) :
    byteAt (resized file size) p = if p < size then byteAt file p else 0 := by
  rw [resized, byteAt_append, List.length_take, byteAt_take, byteAt_replicate]
  by_cases inside : p < size
  · rw [if_pos inside]
    by_cases held : p < min size file.length
    · rw [if_pos held]
    · rw [if_neg held, byteAt_of_length_le (by omega)]
  · rw [if_neg inside, ite_self]

theorem byteAt_overwritten {file data : List UInt8} {position : Nat}
    (inside : position + data.length ≤ file.length) (p : Nat) :
    byteAt (overwritten file position data) p =
      if p < position then byteAt file p
      else if p < position + data.length then byteAt data (p - position) else byteAt file p := by
  rw [overwritten, byteAt_append, byteAt_append, byteAt_take, byteAt_drop, List.length_append,
    List.length_take, Nat.min_eq_left (by omega)]
  by_cases front : p < position
  · rw [if_pos front, if_pos front, if_pos front, if_pos (by omega)]
  · rw [if_neg front, if_neg front]
    by_cases within : p < position + data.length
    · rw [if_pos within, if_pos within]
    · rw [if_neg within, if_neg within]
      congr 1
      omega

/-- Files of one length with the same bytes are the same. -/
theorem eq_of_byteAt {file file' : List UInt8} (length : file.length = file'.length)
    (same : ∀ p < file.length, byteAt file p = byteAt file' p) : file = file' := by
  refine List.ext_getElem length fun p inside inside' => ?_
  have here := same p inside
  rw [byteAt, byteAt, List.getD_eq_getElem?_getD, List.getD_eq_getElem?_getD,
    List.getElem?_eq_getElem inside, List.getElem?_eq_getElem inside'] at here
  exact here

/-! ## Between two chunks -/

/-- The file holds `content` in front and what lies `under` the stream behind it, and the writer
stands behind the content. -/
structure Covers (path : π) (under : Nat → UInt8) (content : List UInt8) (s : StreamWriter π 64)
    (os : Os π) : Prop where
  file : s.file = ⟨some path, .readWrite⟩
  mmap : s.mmap = ⟨some (path, 0), s.capacity⟩
  served : os.refused = false
  size : (os.files path).length = s.capacity.toNat
  bound : s.capacity.toNat < 2 ^ 63
  offset : s.writeOffset.toNat = content.length
  image : ∀ p, byteAt (os.files path) p =
    if p < content.length then byteAt content p else under p

variable [DecidableEq π] {path : π} {under : Nat → UInt8} {content : List UInt8}
  {s : StreamWriter π 64} {os : Os π}

/-- A file that has grown and was mapped as a whole. -/
theorem Covers.grown (covers : Covers path under content s os) {capacity : BitVec 64}
    (more : s.capacity.toNat ≤ capacity.toNat) (bound : capacity.toNat < 2 ^ 63) :
    Covers path under content { s with mmap := ⟨some (path, 0), capacity⟩, capacity := capacity }
      (os.put path (resized (os.files path) capacity.toNat)) := by
  refine ⟨covers.file, rfl, covers.served, ?_, bound, covers.offset, fun p => ?_⟩
  · rw [Os.files_put, length_resized]
  · rw [Os.files_put, byteAt_resized, ← covers.image p]
    by_cases inside : p < capacity.toNat
    · rw [if_pos inside]
    · rw [if_neg inside, byteAt_of_length_le (by rw [covers.size]; omega)]

theorem Covers.reserveExtra (covers : Covers path under content s os) {length : BitVec 64}
    (small : content.length + length.toNat < 2 ^ 64) (calls : Calls) :
    Refused (s.reserveExtra length os calls).2.1 (s.reserveExtra length os calls).2.2 ∨
      ∃ s' os', s.reserveExtra length os calls = (s', os', true) ∧
        Covers path under content s' os' ∧
        content.length + length.toNat ≤ s'.capacity.toNat := by
  have cases_ := @reserveExtra_cases π _ path s os covers.file length calls
    (by rw [covers.offset]; exact small)
  rw [covers.offset] at cases_
  rcases cases_ with refused | ⟨same, room⟩ | ⟨capacity, same, lacks, room, bound⟩
  · exact Or.inl refused
  · exact Or.inr ⟨s, os, same, covers, room⟩
  · exact Or.inr ⟨_, _, same, covers.grown (by omega) bound, room⟩

/-- Storing at the head of the stream and committing at least what was stored. -/
theorem Covers.store (covers : Covers path under content s os) {data : List UInt8}
    {committed : Nat} (fits : content.length + data.length ≤ s.capacity.toNat)
    (more : data.length ≤ committed) (small : content.length + committed < 2 ^ 64) :
    ∃ os', s.head.store os data = some os' ∧
      Covers path under (content ++ (data ++ readBytes under (content.length + data.length)
        (committed - data.length))) (s.commitWrite (BitVec.ofNat 64 committed)) os' := by
  have size := covers.size
  have start : (0 : BitVec 64).toNat + content.length = content.length := Nat.zero_add _
  have head : s.head = .mapped ⟨some (path, 0), s.capacity⟩ s.writeOffset := by
    rw [StreamWriter.head, covers.mmap]
    rfl
  have length : (content ++ (data ++ readBytes under (content.length + data.length)
      (committed - data.length))).length = content.length + committed := by
    rw [List.length_append, List.length_append, length_readBytes]
    omega
  refine ⟨os.put path (overwritten (os.files path) content.length data), ?_, covers.file,
    covers.mmap, covers.served, ?_, covers.bound, ?_, fun p => ?_⟩
  · rw [head]
    simp only [Pointer.store, covers.offset, start]
    rw [if_pos ⟨fits, by omega⟩]
  · rw [Os.files_put, length_overwritten (by omega)]
    exact size
  · rw [StreamWriter.commitWrite, length, BitVec.toNat_add, BitVec.toNat_ofNat, covers.offset,
      Nat.mod_eq_of_lt (by omega : committed < 2 ^ 64), Nat.mod_eq_of_lt small]
  · rw [Os.files_put, byteAt_overwritten (by omega), covers.image p, length, byteAt_append,
      byteAt_append, byteAt_readBytes]
    by_cases front : p < content.length
    · rw [if_pos front, if_pos front, if_pos (by omega), if_pos front]
    · rw [if_neg front, if_neg front, if_neg front]
      by_cases within : p < content.length + data.length
      · rw [if_pos within, if_pos (by omega), if_pos (by omega)]
      · rw [if_neg within, if_neg (by omega : ¬ p - content.length < data.length)]
        by_cases hole : p < content.length + committed
        · rw [if_pos hole, if_pos (by omega)]
          congr 1
          omega
        · rw [if_neg hole]

/-- Finishing cuts the file behind the stream. -/
theorem Covers.finish (covers : Covers path under content s os) (calls : Calls) :
    (s.finish os calls).2.refused = true ∨
      ((s.finish os calls).2.refused = false ∧ (s.finish os calls).2.files path = content) := by
  have valid : (⟨some path, .readWrite⟩ : FileHandle π).isValid = true := rfl
  simp only [StreamWriter.finish, covers.file, valid, Bool.true_eq_false, if_false]
  rcases @resize_open π _ path s.writeOffset os calls with ⟨-, refused⟩ | ⟨cut, -⟩
  · exact Or.inl refused
  · right
    rw [cut]
    refine ⟨covers.served, ?_⟩
    rw [Os.files_put, covers.offset]
    refine eq_of_byteAt (length_resized ..) fun p inside => ?_
    rw [length_resized] at inside
    rw [byteAt_resized, if_pos inside, covers.image p, if_pos inside]

/-- A writer that `open` has returned true for. -/
theorem covers_of_open {initialCapacity : BitVec 64} {s' : StreamWriter π 64} {os' : Os π}
    {calls : Calls} (served : os.refused = false)
    (opened : s.open_ path initialCapacity os calls = (s', os', true)) :
    Covers path (byteAt (resized (os.files path) initialCapacity.toNat)) [] s' os' := by
  obtain ⟨rfl, rfl, bound, -⟩ := open_eq opened
  refine ⟨rfl, rfl, served, ?_, bound, rfl, fun p => ?_⟩
  · rw [Os.files_put, length_resized]
  · rw [Os.files_put]
    rfl

/-- Writing from memory leaves no hole. -/
theorem Covers.write (covers : Covers path under content s os) {data : List UInt8}
    (small : content.length + data.length < 2 ^ 64) (calls : Calls) :
    (∃ s' os', s.write data os calls = some (s', os', false) ∧ os'.refused = true) ∨
      ∃ s' os', s.write data os calls = some (s', os', true) ∧
        Covers path under (content ++ data) s' os' ∧
        content.length + data.length ≤ s'.capacity.toNat := by
  have length : (BitVec.ofNat 64 data.length).toNat = data.length := by
    rw [BitVec.toNat_ofNat, Nat.mod_eq_of_lt (by omega)]
  have small' : content.length + (BitVec.ofNat 64 data.length).toNat < 2 ^ 64 := by
    rw [length]
    exact small
  rcases covers.reserveExtra small' calls with ⟨failed, refused⟩ | ⟨s', os', same, reserved, room⟩
  · left
    refine ⟨(s.reserveExtra (BitVec.ofNat 64 data.length) os calls).1, _, ?_, refused⟩
    simp only [StreamWriter.write, if_pos failed]
  · right
    rw [length] at room
    obtain ⟨os'', stored, next⟩ := reserved.store room (Nat.le_refl data.length) small
    rw [Nat.sub_self, readBytes, List.range_zero, List.map_nil, List.append_nil] at next
    refine ⟨_, _, ?_, next, room⟩
    simp only [StreamWriter.write, same, Bool.true_eq_false, if_false, stored]
    rfl

theorem finish_refused (refused : os.refused = true) (calls : Calls) :
    (s.finish os calls).2.refused = true := by
  have kept : ∀ (file : FileHandle π) (size : BitVec 64),
      (file.resize size os calls).1.refused = true := by
    intro file size
    unfold FileHandle.resize
    split
    · exact refused
    · split
      · exact refused
      split
      · exact refused
      · rfl
  unfold StreamWriter.finish
  split
  · exact refused
  · exact kept _ _

/-- A writer without a file has nothing to finish. -/
theorem finish_of_closed (closed : s.file.handle = none) (calls : Calls) :
    s.finish os calls = (s, os) := by
  have shut : s.file.isValid = false := by
    rw [FileHandle.isValid, closed]
    rfl
  rw [StreamWriter.finish, if_pos shut]

/-- `open` returns false on a file that is not left empty only if the system refuses a call. -/
theorem open_cases {initialCapacity : BitVec 64} (pos : initialCapacity ≠ 0) (calls : Calls) :
    (∃ s' os', s.open_ path initialCapacity os calls = (s', os', false) ∧ os'.refused = true) ∨
      ∃ s' os', s.open_ path initialCapacity os calls = (s', os', true) := by
  cases opens : calls.opens with
  | false =>
      left
      simp only [StreamWriter.open_, FileHandle.open_, opens, Bool.false_eq_true, if_false, if_true]
      exact ⟨_, _, rfl, rfl⟩
  | true =>
      simp only [StreamWriter.open_, FileHandle.open_, opens, if_true, Bool.true_eq_false, if_false]
      rcases @resize_open π _ path initialCapacity os calls with ⟨failed, refused⟩ | ⟨resized_, -⟩
      · left
        simp only [if_pos failed]
        exact ⟨_, _, rfl, refused⟩
      simp only [resized_, Bool.true_eq_false, if_false]
      have size : ((os.put path (resized (os.files path) initialCapacity.toNat)).files
          path).length = initialCapacity.toNat := by
        rw [Os.files_put, length_resized]
      rcases @map_whole π s.mmap path .readWrite initialCapacity _ calls size pos with
        ⟨failed, refused⟩ | mapped
      · left
        simp only [if_pos failed]
        exact ⟨_, _, rfl, refused⟩
      · right
        simp only [mapped, Bool.true_eq_false, if_false]
        exact ⟨_, _, rfl⟩

end Fpag.Io
