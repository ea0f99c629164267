import Fpag.Io.StreamWriter
import Fpag.Lib.Schedule

/-!
Where a `MemoryMappedStreamWriter` stores: any number of writers, under every sequence of
their operations and every way in which the system answers them.

`reserve_extra` decides by `capacity_` and `write_offset_` alone. The two say something
about the mapping only while there is one (`Backed`): a failed open, a failed growth,
`finish` and a move take the mapping away and leave `capacity_` behind, an open whose
resize fails replaces `capacity_` under a mapping that stays, and the sum of the two
counters wraps. `contained_iff` says that nothing else goes wrong.
-/

namespace Fpag.Io

variable {ι π : Type} {w : Nat}

/-! ## Mappings -/

namespace MemoryMappedFile

theorem isMapped_close (mmap : MemoryMappedFile π w) : mmap.close.isMapped = false := by
  rw [close]
  split
  · rfl
  · next unmapped => exact (Bool.not_eq_true _).mp unmapped

theorem extent_le {fileSize length size : BitVec w} (h : extent fileSize 0 length = some size) :
    length.toNat ≤ size.toNat := by
  simp only [extent] at h
  split at h
  · cases h
  split at h
  · cases h
  split at h
  · next zero =>
      have none_ : (0 : BitVec w).toNat = 0 := BitVec.toNat_zero
      rw [zero, none_]
      exact Nat.zero_le _
  split at h
  · cases h
  · cases h
    exact Nat.le_refl _

/-- What `map` gives: a mapping of at least the length asked for, or none. -/
theorem map_cases (mmap : MemoryMappedFile π w) (file : FileHandle π) (length : BitVec w)
    (os : Os π) (calls : Calls) :
    ((mmap.map file 0 length os calls).2.2 = true ∧
      (mmap.map file 0 length os calls).1.isMapped = true ∧
      length.toNat ≤ (mmap.map file 0 length os calls).1.size.toNat) ∨
    ((mmap.map file 0 length os calls).2.2 = false ∧
      (mmap.map file 0 length os calls).1.isMapped = false) := by
  simp only [map]
  split
  · exact Or.inr ⟨rfl, mmap.isMapped_close⟩
  split
  · exact Or.inr ⟨rfl, mmap.isMapped_close⟩
  · next extent_ =>
      split
      · exact Or.inl ⟨rfl, rfl, extent_le extent_⟩
      · exact Or.inr ⟨rfl, rfl⟩

end MemoryMappedFile

/-! ## One request -/

namespace StreamWriter

/-- The writer has a mapping with room for `length` bytes behind the write offset. -/
structure Holds (s : StreamWriter π w) (length : BitVec w) : Prop where
  mapped : s.mmap.isMapped = true
  inside : s.writeOffset.toNat + length.toNat ≤ s.mmap.size.toNat

/-- A mapping, where there is one, has the capacity. -/
def Backed (s : StreamWriter π w) : Prop :=
  s.mmap.isMapped = true → s.capacity.toNat ≤ s.mmap.size.toNat

/-- What a request needs: the counters do not wrap, and without a mapping they leave no room. -/
structure Sane (s : StreamWriter π w) (length : BitVec w) : Prop where
  small : s.writeOffset.toNat + length.toNat < 2 ^ w
  backed : s.mmap.isMapped = true ∨ s.capacity.toNat < s.writeOffset.toNat + length.toNat

variable [DecidableEq π] {s : StreamWriter π w}

/-- What `reserve_extra` does. -/
theorem reserveExtra_cases (s : StreamWriter π w) (length : BitVec w) (os : Os π)
    (calls : Calls) :
    (s.writeOffset + length ≤ s.capacity ∧ s.reserveExtra length os calls = (s, os, true)) ∨
    (¬ s.writeOffset + length ≤ s.capacity ∧ ∃ mmap os', s.reserveExtra length os calls =
      ({ s with mmap := mmap, capacity := s.newCapacity length }, os', true) ∧
        mmap.isMapped = true ∧ (s.newCapacity length).toNat ≤ mmap.size.toNat) ∨
    (¬ s.writeOffset + length ≤ s.capacity ∧ ∃ mmap os', s.reserveExtra length os calls =
      ({ s with mmap := mmap }, os', false) ∧ mmap.isMapped = false) := by
  by_cases fits : s.writeOffset + length ≤ s.capacity
  · exact Or.inl ⟨fits, by rw [reserveExtra, if_pos fits]⟩
  refine Or.inr ?_
  simp only [reserveExtra, if_neg fits]
  split
  · exact Or.inr ⟨fits, _, _, rfl, s.mmap.isMapped_close⟩
  · have made := s.mmap.close.map_cases s.file (s.newCapacity length)
      (s.file.resize (s.newCapacity length) os calls).1 calls
    split
    · next failed =>
        rcases made with ⟨succeeded, -⟩ | ⟨-, unmapped⟩
        · rw [failed] at succeeded
          cases succeeded
        · exact Or.inr ⟨fits, _, _, rfl, unmapped⟩
    · next succeeded =>
        rcases made with ⟨-, mapped, size⟩ | ⟨failed, -⟩
        · exact Or.inl ⟨fits, _, _, rfl, mapped, size⟩
        · exact absurd failed succeeded

omit [DecidableEq π] in
theorem toNat_needed {length : BitVec w} (small : s.writeOffset.toNat + length.toNat < 2 ^ w) :
    (s.writeOffset + length).toNat = s.writeOffset.toNat + length.toNat := by
  rw [BitVec.toNat_add, Nat.mod_eq_of_lt small]

/-- A request that proceeds has its room exactly when it is a sane one. -/
theorem Backed.holds_iff (backed : s.Backed) {length : BitVec w} {os : Os π} {calls : Calls}
    (proceeds : (s.reserveExtra length os calls).2.2 = true) :
    (s.reserveExtra length os calls).1.Holds length ↔ s.Sane length := by
  rcases s.reserveExtra_cases length os calls with ⟨fits, same⟩ |
    ⟨grows, mmap, os', same, mapped, size⟩ | ⟨-, mmap, os', same, -⟩
  · rw [same]
    constructor
    · intro holds
      exact ⟨Nat.lt_of_le_of_lt holds.inside s.mmap.size.isLt, Or.inl holds.mapped⟩
    · intro sane
      rw [BitVec.le_def, toNat_needed sane.small] at fits
      have mapped : s.mmap.isMapped = true := sane.backed.resolve_right (Nat.not_lt.mpr fits)
      exact ⟨mapped, Nat.le_trans fits (backed mapped)⟩
  · rw [same]
    constructor
    · intro holds
      have small := Nat.lt_of_le_of_lt holds.inside mmap.size.isLt
      rw [BitVec.le_def, toNat_needed small] at grows
      exact ⟨small, Or.inr (Nat.not_le.mp grows)⟩
    · intro sane
      have needed := s.le_newCapacity length
      rw [toNat_needed sane.small] at needed
      exact ⟨mapped, Nat.le_trans needed size⟩
  · rw [same] at proceeds
    cases proceeds

/-- What the two requests promise: past `reserve_extra` there is a mapping with the room, and
otherwise `write` returns false and `prepare_write_buffer` null. -/
structure Contained (s : StreamWriter π w) (length : BitVec w) (os : Os π) (calls : Calls) :
    Prop where
  holds : (s.reserveExtra length os calls).2.2 = true →
    (s.reserveExtra length os calls).1.Holds length
  write : (s.reserveExtra length os calls).2.2 = false → ∀ data : List UInt8,
    BitVec.ofNat w data.length = length → ∃ s' os', s.write data os calls = some (s', os', false)
  prepare : (s.reserveExtra length os calls).2.2 = false →
    (s.prepareWriteBuffer length os calls).2.2 = .null

theorem Backed.contained (backed : s.Backed) {length : BitVec w} (sane : s.Sane length)
    (os : Os π) (calls : Calls) : s.Contained length os calls := by
  refine ⟨fun proceeds => (backed.holds_iff proceeds).mpr sane, ?_, ?_⟩
  · rintro failed data rfl
    refine ⟨(s.reserveExtra (BitVec.ofNat w data.length) os calls).1,
      (s.reserveExtra (BitVec.ofNat w data.length) os calls).2.1, ?_⟩
    simp only [StreamWriter.write, failed, if_true]
  · intro failed
    simp only [prepareWriteBuffer, failed, if_true]

/-! ## The operations keep the mapping behind the capacity -/

/-- The answers that an open does not get: its resize fails on a writer that still has a mapping
below the new capacity. -/
def OpenSane (s : StreamWriter π w) (initialCapacity : BitVec w) (calls : Calls) : Prop :=
  s.mmap.isMapped = true → calls.opens = true →
    (calls.resizes = true ∧ initialCapacity.toNat < 2 ^ 63) ∨
      initialCapacity.toNat ≤ s.mmap.size.toNat

omit [DecidableEq π] in
instance (s : StreamWriter π w) (initialCapacity : BitVec w) (calls : Calls) :
    Decidable (s.OpenSane initialCapacity calls) :=
  inferInstanceAs (Decidable (s.mmap.isMapped = true → calls.opens = true → _ ∨ _))

omit [DecidableEq π] in
theorem backed_of_unmapped (unmapped : s.mmap.isMapped = false) : s.Backed := by
  intro mapped
  rw [unmapped] at mapped
  cases mapped

theorem Backed.open_ (backed : s.Backed) {path : π} {initialCapacity : BitVec w} {os : Os π}
    {calls : Calls} (sane : s.OpenSane initialCapacity calls) :
    (s.open_ path initialCapacity os calls).1.Backed := by
  cases opens : calls.opens with
  | false =>
      simp only [StreamWriter.open_, FileHandle.open_, opens, Bool.false_eq_true, if_false, if_true]
      exact backed
  | true =>
      simp only [StreamWriter.open_, FileHandle.open_, opens, if_true, Bool.true_eq_false, if_false]
      split
      · next failed =>
          -- The capacity is the new one, and the mapping the old one.
          intro mapped
          rcases sane mapped opens with ⟨resizes, small⟩ | covers
          · have done : (calls.resizes = true ∧ initialCapacity.toNat < 2 ^ 63) := ⟨resizes, small⟩
            simp only [FileHandle.resize, ne_eq, not_true_eq_false, if_false, if_pos done,
              Bool.true_eq_false] at failed
          · exact covers
      · have made := s.mmap.map_cases (⟨some path, .readWrite⟩ : FileHandle π) initialCapacity
          (FileHandle.resize (⟨some path, .readWrite⟩ : FileHandle π) initialCapacity os calls).1
          calls
        split
        · next failed =>
            rcases made with ⟨succeeded, -⟩ | ⟨-, unmapped⟩
            · rw [failed] at succeeded
              cases succeeded
            · exact backed_of_unmapped unmapped
        · next succeeded =>
            rcases made with ⟨-, -, size⟩ | ⟨failed, -⟩
            · exact fun _ => size
            · exact absurd failed succeeded

theorem Backed.reserveExtra (backed : s.Backed) (length : BitVec w) (os : Os π) (calls : Calls) :
    (s.reserveExtra length os calls).1.Backed := by
  rcases s.reserveExtra_cases length os calls with ⟨-, same⟩ | ⟨-, mmap, os', same, -, size⟩ |
    ⟨-, mmap, os', same, unmapped⟩
  · rw [same]
    exact backed
  · rw [same]
    exact fun _ => size
  · rw [same]
    exact backed_of_unmapped unmapped

theorem Backed.write (backed : s.Backed) {data : List UInt8} {os : Os π} {calls : Calls}
    {r : StreamWriter π w × Os π × Bool} (h : s.write data os calls = some r) : r.1.Backed := by
  have reserved := backed.reserveExtra (BitVec.ofNat w data.length) os calls
  simp only [StreamWriter.write] at h
  split at h
  · cases h
    exact reserved
  · split at h
    · cases h
    · cases h
      exact reserved

theorem Backed.prepareWriteBuffer (backed : s.Backed) (length : BitVec w) (os : Os π)
    (calls : Calls) : (s.prepareWriteBuffer length os calls).1.Backed := by
  have reserved := backed.reserveExtra length os calls
  simp only [StreamWriter.prepareWriteBuffer]
  split
  · exact reserved
  · exact reserved

theorem Backed.finish (backed : s.Backed) (os : Os π) (calls : Calls) :
    (s.finish os calls).1.Backed := by
  simp only [StreamWriter.finish]
  split
  · exact backed
  · exact backed_of_unmapped s.mmap.isMapped_close

end StreamWriter

/-! ## Any number of writers -/

/-- The writers that exist, over one system. -/
structure Writers (ι π : Type) (w : Nat) : Type where
  writers : ι → Option (StreamWriter π w)
  os : Os π

/-- What is done to a writer. A move takes from another one. -/
inductive WriterAction (ι π : Type) (w : Nat) : Type
  | construct
  | open_ (path : π) (initialCapacity : BitVec w) (calls : Calls)
  | reserveExtra (length : BitVec w) (calls : Calls)
  | write (data : { data : List UInt8 // data.length < 2 ^ w }) (calls : Calls)
  | prepareWriteBuffer (length : BitVec w) (calls : Calls)
  | commitWrite (length : BitVec w)
  | finish (calls : Calls)
  | moveConstruct (other : ι)
  | moveAssign (other : ι)
  | destroy (calls : Calls)

structure WriterEvent (ι π : Type) (w : Nat) : Type where
  writer : ι
  action : WriterAction ι π w

namespace Writers

variable [DecidableEq ι] [DecidableEq π]

def set (s : Writers ι π w) (i : ι) (writer : Option (StreamWriter π w)) (os : Os π) :
    Writers ι π w :=
  ⟨Function.update s.writers i writer, os⟩

/-- A move between two writers; the one that is assigned to gives up its file and mapping. -/
def move (s : Writers ι π w) (i other : ι) : Option (Writers ι π w) :=
  match s.writers other with
  | none => none
  | some source => some ((s.set i (some source) s.os).set other (some source.movedFrom) s.os)

def step (e : WriterEvent ι π w) (s : Writers ι π w) : Option (Writers ι π w) :=
  match e.action, s.writers e.writer with
  | .construct, none => some (s.set e.writer (some StreamWriter.construct) s.os)
  | .moveConstruct other, none => s.move e.writer other
  | .open_ path initialCapacity calls, some writer =>
      let r := writer.open_ path initialCapacity s.os calls
      some (s.set e.writer (some r.1) r.2.1)
  | .reserveExtra length calls, some writer =>
      let r := writer.reserveExtra length s.os calls
      some (s.set e.writer (some r.1) r.2.1)
  | .write data calls, some writer =>
      (writer.write data.val s.os calls).map fun r => s.set e.writer (some r.1) r.2.1
  | .prepareWriteBuffer length calls, some writer =>
      let r := writer.prepareWriteBuffer length s.os calls
      some (s.set e.writer (some r.1) r.2.1)
  | .commitWrite length, some writer =>
      some (s.set e.writer (some (writer.commitWrite length)) s.os)
  | .finish calls, some writer =>
      let r := writer.finish s.os calls
      some (s.set e.writer (some r.1) r.2)
  | .moveAssign other, some _ => if other = e.writer then some s else s.move e.writer other
  | .destroy calls, some writer => some (s.set e.writer none (writer.finish s.os calls).2)
  | _, _ => none

/-- No writer exists yet. -/
def initial (os : Os π) : Writers ι π w := ⟨fun _ => none, os⟩

/-- The event is not an open that fails where it leaves a mapping behind that is too small. -/
def opensSane (e : WriterEvent ι π w) (s : Writers ι π w) : Bool :=
  match e.action, s.writers e.writer with
  | .open_ _ initialCapacity calls, some writer => decide (writer.OpenSane initialCapacity calls)
  | _, _ => true

/-- The mapping of every writer is behind its capacity. -/
def Backed (s : Writers ι π w) : Prop := ∀ i writer, s.writers i = some writer → writer.Backed

omit [DecidableEq π] in
theorem Backed.set {s : Writers ι π w} (backed : s.Backed) {i : ι}
    {writer : Option (StreamWriter π w)} {os : Os π} (new : ∀ r, writer = some r → r.Backed) :
    (s.set i writer os).Backed := by
  intro j r there
  by_cases same : j = i
  · subst same
    simp only [Writers.set, Function.update_self] at there
    exact new r there
  · simp only [Writers.set, Function.update_of_ne same] at there
    exact backed j r there

omit [DecidableEq π] in
theorem Backed.move {s s' : Writers ι π w} (backed : s.Backed) {i other : ι}
    (h : s.move i other = some s') : s'.Backed := by
  simp only [Writers.move] at h
  split at h
  · cases h
  · next source there =>
      cases h
      have moved : source.movedFrom.Backed := StreamWriter.backed_of_unmapped rfl
      refine (backed.set ?_).set ?_
      · rintro _ ⟨⟩
        exact backed other source there
      · rintro _ ⟨⟩
        exact moved

/-- Every operation keeps the mappings behind the capacities, an open with the answers it should
get. -/
theorem Backed.step {s s' : Writers ι π w} (backed : s.Backed) {e : WriterEvent ι π w}
    (sane : opensSane e s = true) (h : Writers.step e s = some s') : s'.Backed := by
  obtain ⟨i, action⟩ := e
  have one : ∀ {writer : StreamWriter π w} {os : Os π}, writer.Backed →
      (s.set i (some writer) os).Backed := by
    intro writer os new
    refine backed.set ?_
    rintro _ ⟨⟩
    exact new
  cases there : s.writers i with
  | none =>
      cases action <;> simp only [Writers.step, there] at h
      case construct =>
        cases h
        exact one (StreamWriter.backed_of_unmapped rfl)
      case moveConstruct other => exact backed.move h
      all_goals cases h
  | some writer =>
      have old := backed i writer there
      cases action with
      | construct =>
          simp only [Writers.step, there] at h
          cases h
      | moveConstruct other =>
          simp only [Writers.step, there] at h
          cases h
      | open_ path initialCapacity calls =>
          simp only [Writers.step, there] at h
          cases h
          simp only [opensSane, there, decide_eq_true_eq] at sane
          exact one (old.open_ sane)
      | reserveExtra length calls =>
          simp only [Writers.step, there] at h
          cases h
          exact one (old.reserveExtra length s.os calls)
      | write data calls =>
          simp only [Writers.step, there] at h
          obtain ⟨r, written, rfl⟩ := Option.map_eq_some_iff.mp h
          exact one (old.write written)
      | prepareWriteBuffer length calls =>
          simp only [Writers.step, there] at h
          cases h
          exact one (old.prepareWriteBuffer length s.os calls)
      | commitWrite length =>
          simp only [Writers.step, there] at h
          cases h
          exact one old
      | finish calls =>
          simp only [Writers.step, there] at h
          cases h
          exact one (old.finish s.os calls)
      | moveAssign other =>
          simp only [Writers.step, there] at h
          split at h
          · cases h
            exact backed
          · exact backed.move h
      | destroy calls =>
          simp only [Writers.step, there] at h
          cases h
          exact backed.set (fun _ none_ => by cases none_)

/-- In every run whose opens are sane, every sane request of every writer stays inside a live
mapping or is turned down; one that proceeds without being sane does not. -/
theorem contained_iff {os : Os π} {es : List (WriterEvent ι π w)} {s : Writers ι π w} {i : ι}
    {writer : StreamWriter π w} {length : BitVec w} {calls : Calls}
    (reached : Schedule.run (Schedule.guarded (fun e s => opensSane e s = true) step)
      (initial os) es = some s)
    (there : s.writers i = some writer) :
    (writer.Sane length → writer.Contained length s.os calls) ∧
      ((writer.reserveExtra length s.os calls).2.2 = true →
        (writer.Contained length s.os calls ↔ writer.Sane length)) := by
  have backed : writer.Backed := by
    refine Schedule.run_invariant (I := Backed) (fun h inv => ?_) reached
      (fun _ _ none_ => by cases none_) i writer there
    obtain ⟨sane, moved⟩ := Schedule.guarded_eq_some.mp h
    exact inv.step sane moved
  refine ⟨fun sane => backed.contained sane s.os calls, fun proceeds => ⟨fun contained => ?_,
    fun sane => backed.contained sane s.os calls⟩⟩
  exact (backed.holds_iff proceeds).mp (contained.holds proceeds)

/-- A writer of four bytes to which two are written. -/
def opened : List (WriterEvent Unit Unit 64) :=
  [⟨(), .construct⟩, ⟨(), .open_ () 4 .all⟩, ⟨(), .write ⟨[1, 2], by decide⟩ .all⟩]

/-- It still has its mapping, and grows for three more. -/
theorem contained_iff_opened :
    ∃ s writer, Schedule.run (Schedule.guarded (fun e s => opensSane e s = true) step)
        (initial ⟨fun _ => [], false⟩) opened = some s ∧ s.writers () = some writer ∧
      writer.Sane 3 ∧ writer.Contained 3 s.os .all := by
  have history : ((Schedule.run (Schedule.guarded (fun e s => opensSane e s = true) step)
      (initial ⟨fun _ => [], false⟩) opened).bind fun s => s.writers ()).map
        (fun writer => (writer.writeOffset, writer.mmap.isMapped)) = some (2, true) := by
    decide +kernel
  obtain ⟨writer, history, seen⟩ := Option.map_eq_some_iff.mp history
  obtain ⟨s, reached, there⟩ := Option.bind_eq_some_iff.mp history
  obtain ⟨offset, mapped⟩ := Prod.mk.injEq .. ▸ seen
  have sane : writer.Sane 3 := ⟨by rw [offset]; decide, Or.inl mapped⟩
  exact ⟨s, writer, reached, there, sane, (contained_iff reached there).1 sane⟩

/-- Once it is finished, it has no mapping, and a request that its capacity has room for
proceeds. -/
theorem not_contained_finished :
    ∃ s writer, Schedule.run step (initial ⟨fun _ => [], false⟩) (opened ++ [⟨(), .finish .all⟩])
        = some s ∧ s.writers () = some writer ∧ ¬ writer.Contained 1 s.os .all := by
  have history : ((Schedule.run step (initial ⟨fun _ => [], false⟩)
      (opened ++ [⟨(), .finish .all⟩])).bind fun s => (s.writers ()).map fun writer =>
        ((writer.reserveExtra 1 s.os .all).2.2,
          (writer.reserveExtra 1 s.os .all).1.mmap.isMapped)) = some (true, false) := by
    decide +kernel
  obtain ⟨s, reached, history⟩ := Option.bind_eq_some_iff.mp history
  obtain ⟨writer, there, seen⟩ := Option.map_eq_some_iff.mp history
  obtain ⟨proceeds, unmapped⟩ := Prod.mk.injEq .. ▸ seen
  refine ⟨s, writer, reached, there, fun contained => ?_⟩
  have mapped := (contained.holds proceeds).mapped
  rw [unmapped] at mapped
  cases mapped

end Writers

end Fpag.Io
