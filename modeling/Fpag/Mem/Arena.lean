import Fpag.Mem.ArenaSafety

/-!
`mem::Arena`, and a `mem::ConcurrentArena` that one thread uses.

`Arena::alloc` rounds, compares, commits and moves its cursor in one go. It commits as much as
it needs, to the page, and returns the block whether or not the pages could be committed. What
`ConcurrentArena::alloc` does for a single thread is a run of the steps of that thread
(`finish`), and `alloc_served` says what such a run comes to.
-/

namespace Fpag.Mem

variable {w : Nat}

/-! ## The arena -/

/-- `Arena`, with its pages reserved. -/
structure Arena (w : Nat) : Type where
  capacity : BitVec w
  size : BitVec w := 0
  committedSize : BitVec w := 0
  deriving DecidableEq

/-- An arena, the blocks it has handed out and the bytes that have been committed. -/
structure ArenaWorld (w : Nat) : Type where
  arena : Arena w
  blocks : List (Block w) := []
  committedBytes : Nat → Bool := fun _ => false

namespace ArenaWorld

/-- The watermark that `Arena::commit_until` aims at: a whole page, clipped to the capacity. -/
def targetEnd (s : ArenaWorld w) (pageSize endOffset : BitVec w) : BitVec w :=
  let target := Base.roundUp endOffset pageSize
  if target > s.arena.capacity then s.arena.capacity else target

/-- `Arena::commit_until`; `ok` is what `commit_pages` answers. -/
def commitUntil (s : ArenaWorld w) (pageSize endOffset : BitVec w) (ok : Bool) : ArenaWorld w :=
  if endOffset ≤ s.arena.committedSize then s
  else if ok then
    { s with
      arena := { s.arena with committedSize := s.targetEnd pageSize endOffset }
      committedBytes := fun x => s.committedBytes x ||
        (decide (s.arena.committedSize.toNat ≤ x) &&
          decide (x < (s.targetEnd pageSize endOffset).toNat)) }
  else s

/-- `Arena::alloc`. -/
def alloc (s : ArenaWorld w) (pageSize size align : BitVec w) (ok : Bool) :
    Option (BitVec w) × ArenaWorld w :=
  let currentOffset := Base.roundUp s.arena.size align
  if size > s.arena.capacity - currentOffset then (none, s)
  else
    let nextOffset := currentOffset + size
    let s' := s.commitUntil pageSize nextOffset ok
    (some currentOffset,
      { s' with
        arena := { s'.arena with size := nextOffset }
        blocks := ⟨.shared, currentOffset, size, align⟩ :: s'.blocks })

end ArenaWorld

/-! ## One thread -/

namespace World

/-- The thread is at a `commit_pages` call. -/
def committing (s : World Unit w) : Bool :=
  match s.threads () with
  | .commitPages _ _ _ => true
  | _ => false

/-- The steps of the thread up to the end of its call, and whether a `commit_pages` call has
failed among them. -/
def finish : List Bool → World Unit w → Option (World Unit w × Bool)
  | [], s => if s.threads () = .idle then some (s, false) else none
  | ok :: answers, s =>
      match s.advance () ok with
      | none => none
      | some s' => (finish answers s').map fun result =>
          (result.1, (s.committing && !ok) || result.2)

/-- `ConcurrentArena::alloc` in a single thread. -/
def alloc (s : World Unit w) (size align : BitVec w) (answers : List Bool) :
    Option (World Unit w × Bool) :=
  (s.step ⟨(), .call (.alloc size align)⟩).bind (finish answers)

/-- A commit has gone as far as it can: the block is handed out with its pages writable, or a
`commit_pages` call has failed and nothing is handed out. -/
inductive Committed (s : World Unit w) (b : Block w) (s' : World Unit w) : Bool → Prop
  | failed (arena : s'.arena = s.arena) (blocks : s'.blocks = s.blocks) : Committed s b s' true
  | before (enough : b.upTo ≤ s.arena.committedSize) (arena : s'.arena = s.arena)
      (blocks : s'.blocks = b :: s.blocks) : Committed s b s' false
  | now (short : ¬ b.upTo ≤ s.arena.committedSize)
      (arena : s'.arena = { s.arena with committedSize := s.arena.chunkEnd b.upTo })
      (blocks : s'.blocks = b :: s.blocks)
      (bytes : ∀ x, s.arena.committedSize.toNat ≤ x → x < (s.arena.chunkEnd b.upTo).toNat →
        s'.committedBytes x = true) : Committed s b s' false

/-- The bytes that have been committed stay so. -/
def Grows (s s' : World Unit w) : Prop :=
  ∀ x, s.committedBytes x = true → s'.committedBytes x = true

/-- Where a thread can be while it commits the block `b` that it has taken in the state `s`. -/
def Committing (s : World Unit w) (b : Block w) (m : World Unit w) : Prop :=
  m.arena = s.arena ∧ m.blocks = s.blocks ∧ Grows s m ∧
    (m.threads () = .commitLoad b ∨
      ¬ b.upTo ≤ s.arena.committedSize ∧
        (m.threads () = .commitPages b s.arena.committedSize (s.arena.chunkEnd b.upTo) ∨
          m.threads () = .commitSwap b s.arena.committedSize (s.arena.chunkEnd b.upTo) ∧
            ∀ x, s.arena.committedSize.toNat ≤ x → x < (s.arena.chunkEnd b.upTo).toNat →
              m.committedBytes x = true))

section Single

variable {s m s' : World Unit w} {b : Block w} {answers : List Bool} {failed : Bool}

theorem setThread_threads (s : World Unit w) (state : Thread w) :
    (s.setThread () state).threads () = state := by
  simp only [setThread, Function.update_self]

/-- A call that is over has no further steps. -/
theorem finish_idle (idle : m.threads () = .idle) (h : finish answers m = some (s', failed)) :
    s' = m ∧ failed = false := by
  cases answers with
  | nil =>
      rw [finish, if_pos idle] at h
      cases h
      exact ⟨rfl, rfl⟩
  | cons ok answers =>
      have none : m.advance () ok = none := by rw [advance, idle]
      rw [finish, none] at h
      cases h

/-- The rule for a phase of a call: a step of the thread goes on in the phase, or leaves it for a
rest of the call that does what is wanted. -/
theorem finish_rule (phase : World Unit w → Prop) (goal : Bool → Prop)
    (busy : ∀ {m}, phase m → m.threads () ≠ .idle)
    (step : ∀ {m m' ok}, phase m → m.advance () ok = some m' →
      ((m.committing && !ok) = false ∧ phase m') ∨
        ∀ {rest later}, finish rest m' = some (s', later) → goal ((m.committing && !ok) || later))
    (at_ : phase m) (h : finish answers m = some (s', failed)) : goal failed := by
  induction answers generalizing m failed with
  | nil =>
      rw [finish, if_neg (busy at_)] at h
      cases h
  | cons ok rest ih =>
      rw [finish] at h
      cases next : m.advance () ok with
      | none =>
          rw [next] at h
          cases h
      | some m' =>
          rw [next] at h
          obtain ⟨⟨s'', later⟩, run, same⟩ := Option.map_eq_some_iff.mp h
          cases same
          rcases step at_ next with ⟨calm, stays⟩ | leaves
          · rw [calm, Bool.false_or]
            exact ih stays run
          · exact leaves run

/-- The loop of `commit_until`, whatever the environment answers. -/
theorem finish_committing (at_ : Committing s b m) (h : finish answers m = some (s', failed)) :
    Committed s b s' failed ∧ Grows s s' ∧ s'.threads () = .idle := by
  refine finish_rule (Committing s b)
    (fun failed => Committed s b s' failed ∧ Grows s s' ∧ s'.threads () = .idle)
    (fun {m} at_ idle => ?_) (fun {m m' ok} at_ next => ?_) at_ h
  · obtain ⟨-, -, -, load | ⟨-, pages | ⟨swap, -⟩⟩⟩ := at_
    · rw [load] at idle
      cases idle
    · rw [pages] at idle
      cases idle
    · rw [swap] at idle
      cases idle
  obtain ⟨arena, blocks, grows, load | ⟨short, pages | ⟨swap, bytes⟩⟩⟩ := at_
  · have calm : (m.committing && !ok) = false := by rw [committing, load, Bool.false_and]
    simp only [advance, load] at next
    rw [calm]
    by_cases enough : b.upTo ≤ s.arena.committedSize
    · rw [arena, if_pos enough] at next
      cases next
      refine .inr fun run => ?_
      obtain ⟨rfl, rfl⟩ := finish_idle (setThread_threads _ _) run
      refine ⟨.before enough rfl ?_, grows, setThread_threads _ _⟩
      simp only [setThread, blocks]
    · rw [arena, if_neg enough] at next
      cases next
      exact .inl ⟨rfl, arena, blocks, grows, .inr ⟨enough, .inl (setThread_threads _ _)⟩⟩
  · have calls : (m.committing && !ok) = !ok := by rw [committing, pages, Bool.true_and]
    simp only [advance, pages] at next
    rw [calls]
    cases ok with
    | false =>
        cases next
        refine .inr fun run => ?_
        obtain ⟨rfl, rfl⟩ := finish_idle (setThread_threads _ _) run
        exact ⟨.failed arena blocks, grows, setThread_threads _ _⟩
    | true =>
        cases next
        refine .inl ⟨rfl, arena, blocks, fun x committed => ?_,
          .inr ⟨short, .inr ⟨setThread_threads _ _, fun x low high => ?_⟩⟩⟩
        · simp only [setThread, grows x committed, Bool.true_or]
        · simp only [setThread, low, high, decide_true, Bool.and_self, Bool.or_true]
  · have calm : (m.committing && !ok) = false := by rw [committing, swap, Bool.false_and]
    simp only [advance, swap] at next
    rw [calm]
    cases ok with
    | false =>
        cases next
        exact .inl ⟨rfl, arena, blocks, grows, .inl (setThread_threads _ _)⟩
    | true =>
        simp only [arena, beq_self_eq_true, Bool.and_self, if_true] at next
        cases next
        refine .inr fun run => ?_
        obtain ⟨rfl, rfl⟩ := finish_idle (setThread_threads _ _) run
        refine ⟨.now short rfl ?_ bytes, grows, setThread_threads _ _⟩
        simp only [setThread, blocks]

/-- Where a thread can be before it has taken a block. -/
def Asking (s : World Unit w) (size align : BitVec w) (m : World Unit w) : Prop :=
  m.arena = s.arena ∧ m.blocks = s.blocks ∧ m.committedBytes = s.committedBytes ∧
    (m.threads () = .allocLoad size align ∨
      ∃ aligned newSize, s.arena.fit s.arena.size size align = some (aligned, newSize) ∧
        m.threads () = .allocSwap size align s.arena.size aligned newSize)

/-- What a call of `alloc` comes to in a single thread: nothing, if the block does not fit, or
the cursor moves and the block is committed. -/
inductive Served (s : World Unit w) (size align : BitVec w) (s' : World Unit w) : Bool → Prop
  | refused (full : s.arena.fit s.arena.size size align = none) (arena : s'.arena = s.arena)
      (blocks : s'.blocks = s.blocks) (bytes : s'.committedBytes = s.committedBytes) :
      Served s size align s' false
  | taken {aligned newSize : BitVec w} {failed : Bool} (moved : World Unit w)
      (fits : s.arena.fit s.arena.size size align = some (aligned, newSize))
      (arena : moved.arena = { s.arena with size := newSize }) (blocks : moved.blocks = s.blocks)
      (bytes : moved.committedBytes = s.committedBytes)
      (committed : Committed moved ⟨.shared, aligned, size, align⟩ s' failed)
      (grows : Grows moved s') : Served s size align s' failed

theorem finish_asking {size align : BitVec w} (at_ : Asking s size align m)
    (h : finish answers m = some (s', failed)) :
    Served s size align s' failed ∧ s'.threads () = .idle := by
  refine finish_rule (Asking s size align)
    (fun failed => Served s size align s' failed ∧ s'.threads () = .idle)
    (fun {m} at_ idle => ?_) (fun {m m' ok} at_ next => ?_) at_ h
  · obtain ⟨-, -, -, load | ⟨aligned, newSize, -, swap⟩⟩ := at_
    · rw [load] at idle
      cases idle
    · rw [swap] at idle
      cases idle
  obtain ⟨arena, blocks, bytes, load | ⟨aligned, newSize, fits, swap⟩⟩ := at_
  · have calm : (m.committing && !ok) = false := by rw [committing, load, Bool.false_and]
    simp only [advance, load, arena] at next
    rw [calm]
    cases fit : s.arena.fit s.arena.size size align with
    | none =>
        rw [fit] at next
        cases next
        refine .inr fun run => ?_
        obtain ⟨rfl, rfl⟩ := finish_idle (setThread_threads _ _) run
        exact ⟨.refused fit arena blocks bytes, setThread_threads _ _⟩
    | some place =>
        rw [fit] at next
        cases next
        exact .inl ⟨rfl, arena, blocks, bytes, .inr ⟨_, _, fit, setThread_threads _ _⟩⟩
  · have calm : (m.committing && !ok) = false := by rw [committing, swap, Bool.false_and]
    simp only [advance, swap, arena] at next
    rw [calm]
    cases ok with
    | false =>
        cases next
        exact .inl ⟨rfl, arena, blocks, bytes, .inl (setThread_threads _ _)⟩
    | true =>
        simp only [beq_self_eq_true, Bool.and_self, if_true] at next
        cases next
        -- The block is taken; what is left of the call commits it.
        refine .inr fun {rest later} run => ?_
        rw [Bool.false_or]
        obtain ⟨committed, grows, idle⟩ := finish_committing
          ⟨rfl, rfl, fun _ => id, .inl (setThread_threads _ _)⟩ run
        refine ⟨.taken _ fits ?_ ?_ ?_ committed grows, idle⟩
        · rfl
        · exact blocks
        · exact bytes

/-- A call from a thread at rest. -/
theorem alloc_served {size align : BitVec w} (h : s.alloc size align answers = some (s', failed)) :
    Served s size align s' failed ∧ s'.threads () = .idle := by
  obtain ⟨m, called, run⟩ := Option.bind_eq_some_iff.mp h
  rw [step] at called
  split at called
  · next c is =>
      cases is
      split at called
      · cases called
        refine finish_asking ?_ run
        exact ⟨rfl, rfl, rfl, .inl (setThread_threads _ _)⟩
      · cases called
  · next is => cases is

end Single

end World

end Fpag.Mem
