import Fpag.Mem.LanePartition

/-!
What an `alloc_from` that gets nothing leaves behind.

The call moves the cursor of its lane before it commits the pages. A lane that is full refuses
before that; pages that cannot be committed refuse after it, and the cursor stays where it is:
the bytes then count as handed out, and no block has them. `Account` says what a step does to
the lanes and the blocks, and `traceless_iff` that a run in which no commit for a lane fails,
but for no bytes, is one in which the run of every lane is the blocks it handed out.
-/

namespace Fpag.Mem

variable {ι : Type}

namespace World

/-- The run of every lane, from `lane_begin` for `lane_size` bytes, is what its blocks have
together. -/
def LanesTiled (s : World ι 64) : Prop :=
  ∀ (i : Nat) (l : Lane 64), s.arena.lanes[i]? = some l → ∀ x,
    l.laneBegin.toNat ≤ x ∧ x < l.laneBegin.toNat + (l.cursor - l.laneBegin).toNat ↔
      ∃ b, s.Took b ∧ b.source = .lane i ∧ b.start ≤ x ∧ x < b.stop

variable [DecidableEq ι]

/-- The thread calls `alloc_from` and goes on with the call, while the other threads do what they
do, until it has got nothing. -/
inductive Refused (t : ι) (lane : Nat) (size align : BitVec 64) (s : World ι 64) :
    List (Event ι 64) → World ι 64 → Prop
  | atOnce {s' : World ι 64} (call : step ⟨t, .call (.allocFrom lane size align)⟩ s = some s')
      (null : s.outcome s' t = .null) : Refused t lane size align s [] s'
  | later {m m' s' : World ι 64} {during : List (Event ι 64)} {ok : Bool}
      (call : step ⟨t, .call (.allocFrom lane size align)⟩ s = some m)
      (goes : ∀ e ∈ during, e.thread = t → ∃ ok, e.action = .go ok)
      (reached : Schedule.run step m during = some m') (last : step ⟨t, .go ok⟩ m' = some s')
      (null : m'.outcome s' t = .null) :
      Refused t lane size align s (during ++ [⟨t, .go ok⟩]) s'

/-- The lanes, the shared cursor and the blocks are as if the thread had not called: as the other
threads alone would have left them. -/
def NoTrace (t : ι) (during : List (Event ι 64)) (s s' : World ι 64) : Prop :=
  ∃ r, Schedule.run step s (during.filter fun e => decide (e.thread ≠ t)) = some r ∧
    (∀ lane, s'.arena.laneSize lane = r.arena.laneSize lane) ∧ s'.arena.size = r.arena.size ∧
      s'.blocks = r.blocks

/-- In the run from `start`, every `alloc_from` that gets nothing leaves no trace, and the runs of
the lanes are their blocks at any moment. -/
structure Traceless (start : World ι 64) (es : List (Event ι 64)) : Prop where
  refusals : ∀ before t lane size align during after s s',
    es = before ++ ⟨t, .call (.allocFrom lane size align)⟩ :: (during ++ after) →
    Schedule.run step start before = some s → Refused t lane size align s during s' →
      NoTrace t during s s'
  tiled : ∀ before after s, es = before ++ after → Schedule.run step start before = some s →
    s.LanesTiled

/-- The step is no failure to commit the pages of a lane's block, unless the block is empty. -/
def commits (e : Event ι 64) (s : World ι 64) : Bool :=
  match e.action, s.threads e.thread with
  | .go false, .commitPages b _ _ => b.source == .shared || b.size == 0
  | _, _ => true

/-! ## What a step does -/

variable {s s' r : World ι 64} {t : ι} {e : Event ι 64}

/-- What a step of a thread does to the lanes and to the block the thread holds: it takes one from
a lane or from the shared cursor, it hands out the one it holds or drops it, or it changes none
of this. -/
inductive Account (e : Event ι 64) (s s' : World ι 64) : Prop
  | takesLane (i : Nat) (l : Lane 64) (size align : BitVec 64)
      (call : e.action = .call (.allocFrom i size align)) (idle : s.threads e.thread = .idle)
      (at_ : s.arena.lanes[i]? = some l) (fits : size ≤ l.laneEnd - l.cursor)
      (arena : s'.arena =
        { s.arena with lanes := s.arena.lanes.set i { l with cursor := l.cursor + size } })
      (held : (s'.threads e.thread).held = some ⟨.lane i, l.cursor, size, align⟩)
      (blocks : s'.blocks = s.blocks)
  | takesShared (b : Block 64) (source : b.source = .shared)
      (was : (s.threads e.thread).held = none) (lanes : s'.arena.lanes = s.arena.lanes)
      (held : (s'.threads e.thread).held = some b) (blocks : s'.blocks = s.blocks)
  | hands (b : Block 64) (was : (s.threads e.thread).held = some b)
      (lanes : s'.arena.lanes = s.arena.lanes) (idle : s'.threads e.thread = .idle)
      (blocks : s'.blocks = b :: s.blocks)
  | drops (b : Block 64) (committed next : BitVec 64)
      (at_ : s.threads e.thread = .commitPages b committed next) (failed : e.action = .go false)
      (arena : s'.arena = s.arena) (idle : s'.threads e.thread = .idle)
      (blocks : s'.blocks = s.blocks)
  | keeps (arena : s'.arena = s.arena)
      (held : (s'.threads e.thread).held = (s.threads e.thread).held)
      (blocks : s'.blocks = s.blocks)

omit [DecidableEq ι] in
/-- The lanes after one of them was set. -/
theorem lane_set {lanes : List (Lane 64)} {i j : Nat} {l m moved : Lane 64}
    (at_ : lanes[i]? = some l) (here : (lanes.set i moved)[j]? = some m) :
    (j = i ∧ m = moved) ∨ (j ≠ i ∧ lanes[j]? = some m) := by
  have listed := (List.getElem?_eq_some_iff.mp at_).1
  by_cases same : i = j
  · subst same
    rw [List.getElem?_set_self listed] at here
    exact Or.inl ⟨rfl, (Option.some.inj here).symm⟩
  · rw [List.getElem?_set_ne same] at here
    exact Or.inr ⟨Ne.symm same, here⟩

theorem threads_self {state : Thread 64} : (s.setThread t state).threads t = state := by
  rw [threads_setThread, if_pos rfl]

theorem threads_other {u : ι} {state : Thread 64} (other : u ≠ t) :
    (s.setThread t state).threads u = s.threads u := by
  rw [threads_setThread, if_neg other]

theorem account_step (h : step e s = some s') :
    Account e s s' ∧ ∀ u, u ≠ e.thread → s'.threads u = s.threads u := by
  obtain ⟨t, action⟩ := e
  cases action with
  | call c =>
      simp only [step] at h
      split at h
      · next idle =>
          cases c with
          | alloc size align =>
              cases h
              exact ⟨.keeps rfl (by rw [threads_self, idle]; rfl) rfl, fun u => threads_other⟩
          | allocExact size align =>
              cases h
              exact ⟨.keeps rfl (by rw [threads_self, idle]; rfl) rfl, fun u => threads_other⟩
          | allocFrom lane size align =>
              simp only [start, World.allocFrom] at h
              split at h
              · cases h
              · next l at_ =>
                  split at h
                  · cases h
                    exact ⟨.keeps rfl rfl rfl, fun u _ => rfl⟩
                  · next fits =>
                      cases h
                      exact ⟨.takesLane lane l size align rfl idle at_ (BitVec.not_lt.mp fits) rfl
                        (by rw [threads_self]; rfl) rfl, fun u => threads_other⟩
      · cases h
  | go ok =>
      simp only [step] at h
      cases at_ : s.threads t with
      | idle =>
          simp only [advance, at_] at h
          cases h
      | allocLoad size align =>
          simp only [advance, at_] at h
          split at h
          · cases h
            exact ⟨.keeps rfl (by rw [threads_self, at_]; rfl) rfl, fun u => threads_other⟩
          · cases h
            exact ⟨.keeps rfl (by rw [threads_self, at_]; rfl) rfl, fun u => threads_other⟩
      | allocSwap size align oldSize aligned newSize =>
          simp only [advance, at_] at h
          split at h
          · cases h
            exact ⟨.takesShared _ rfl (by rw [at_]; rfl) rfl (by rw [threads_self]; rfl) rfl,
              fun u => threads_other⟩
          · cases h
            exact ⟨.keeps rfl (by rw [threads_self, at_]; rfl) rfl, fun u => threads_other⟩
      | exactAdd size align =>
          simp only [advance, at_] at h
          cases h
          exact ⟨.takesShared _ rfl (by rw [at_]; rfl) rfl (by rw [threads_self]; rfl) rfl,
            fun u => threads_other⟩
      | commitLoad b =>
          simp only [advance, at_] at h
          split at h
          · cases h
            exact ⟨.hands b (by rw [at_]; rfl) rfl threads_self rfl, fun u => threads_other⟩
          · cases h
            exact ⟨.keeps rfl (by rw [threads_self, at_]; rfl) rfl, fun u => threads_other⟩
      | commitPages b committed next =>
          simp only [advance, at_] at h
          split at h
          · cases h
            exact ⟨.keeps rfl (by rw [threads_self, at_]; rfl) rfl, fun u => threads_other⟩
          · next failed =>
              cases h
              have no : ok = false := by simpa using failed
              exact ⟨.drops b committed next at_ (by rw [no]) rfl threads_self rfl,
                fun u => threads_other⟩
      | commitSwap b committed next =>
          simp only [advance, at_] at h
          split at h
          · cases h
            exact ⟨.hands b (by rw [at_]; rfl) rfl threads_self rfl, fun u => threads_other⟩
          · cases h
            exact ⟨.keeps rfl (by rw [threads_self, at_]; rfl) rfl, fun u => threads_other⟩

/-! ## Blocks and cursors -/

/-- A block of a lane that was handed out or is held lies between the begin and the cursor of the
lane, and the block that a thread holds shares no byte with another one of its lane. -/
structure Ledger (s : World ι 64) : Prop where
  bounds : ∀ (i : Nat) (l : Lane 64), s.arena.lanes[i]? = some l →
    l.laneBegin.toNat ≤ l.cursor.toNat ∧ l.cursor.toNat ≤ l.laneEnd.toNat
  behind : ∀ b i, s.Took b → b.source = .lane i → ∃ l, s.arena.lanes[i]? = some l ∧
    l.laneBegin.toNat ≤ b.start ∧ b.stop ≤ l.cursor.toNat
  apart : ∀ t b c i, (s.threads t).held = some b →
    (c ∈ s.blocks ∨ ∃ u, u ≠ t ∧ (s.threads u).held = some c) → b.source = .lane i →
    c.source = .lane i → b.Apart c

/-- Every byte between the begin and the cursor of a lane is in a block that was handed out or is
held. -/
def Covered (s : World ι 64) : Prop :=
  ∀ (i : Nat) (l : Lane 64), s.arena.lanes[i]? = some l → ∀ x, l.laneBegin.toNat ≤ x →
    x < l.cursor.toNat → ∃ b, s.Took b ∧ b.source = .lane i ∧ b.start ≤ x ∧ x < b.stop

omit [DecidableEq ι] in
theorem Ledger.run_eq (ledger : s.Ledger) {i : Nat} {l : Lane 64}
    (at_ : s.arena.lanes[i]? = some l) :
    l.laneBegin.toNat + (l.cursor - l.laneBegin).toNat = l.cursor.toNat := by
  have order := (ledger.bounds i l at_).1
  rw [BitVec.toNat_sub_of_le (BitVec.le_def.mpr order)]
  omega

omit [DecidableEq ι] in
theorem Ledger.tiled_iff (ledger : s.Ledger) : s.LanesTiled ↔ s.Covered := by
  constructor
  · intro tiled i l at_ x low high
    refine (tiled i l at_ x).mp ⟨low, ?_⟩
    rw [ledger.run_eq at_]
    exact high
  · intro covered i l at_ x
    rw [ledger.run_eq at_]
    constructor
    · rintro ⟨low, high⟩
      exact covered i l at_ x low high
    · rintro ⟨b, took, source, low, high⟩
      obtain ⟨m, here, first, last⟩ := ledger.behind b i took source
      rw [at_] at here
      cases here
      exact ⟨first.trans low, high.trans_le last⟩

omit [DecidableEq ι] in
/-- The block that `alloc_from` takes ends at the new cursor, inside the lane. -/
theorem Ledger.toNat_moved (ledger : s.Ledger) {i : Nat} {l : Lane 64} {size : BitVec 64}
    (at_ : s.arena.lanes[i]? = some l) (fits : size ≤ l.laneEnd - l.cursor) :
    (l.cursor + size).toNat = l.cursor.toNat + size.toNat ∧
      l.cursor.toNat + size.toNat ≤ l.laneEnd.toNat := by
  have order := (ledger.bounds i l at_).2
  rw [BitVec.le_def, BitVec.toNat_sub_of_le (BitVec.le_def.mpr order)] at fits
  have word := l.laneEnd.isLt
  rw [BitVec.toNat_add, Nat.mod_eq_of_lt (by omega)]
  exact ⟨rfl, by omega⟩

/-- Where the threads' blocks are after a step: the mover's is the one it arrives with, the others
keep theirs. -/
theorem held_cases (others : ∀ u, u ≠ e.thread → s'.threads u = s.threads u) (u : ι)
    {b : Block 64} (held : (s'.threads u).held = some b) :
    (u = e.thread ∧ (s'.threads e.thread).held = some b) ∨
      (u ≠ e.thread ∧ (s.threads u).held = some b) := by
  by_cases mine : u = e.thread
  · exact Or.inl ⟨mine, mine ▸ held⟩
  · exact Or.inr ⟨mine, others u mine ▸ held⟩

omit [DecidableEq ι] in
/-- The ledger outlives a step that takes nothing from a lane: lane blocks that are held were held,
and a new block among those handed out is the one that a thread has let go. -/
theorem Ledger.stay (ledger : s.Ledger) (lanes : s'.arena.lanes = s.arena.lanes)
    (held : ∀ u c i, (s'.threads u).held = some c → c.source = .lane i →
      (s.threads u).held = some c)
    (blocks : ∀ c ∈ s'.blocks, c ∈ s.blocks ∨
      ((s.threads t).held = some c ∧ s'.threads t = .idle)) : s'.Ledger := by
  refine ⟨?_, ?_, fun u b c i mine other mineLane theirLane => ?_⟩
  · rw [lanes]
    exact ledger.bounds
  · rw [lanes]
    rintro b i (member | ⟨u, mine⟩) lane
    · obtain old | ⟨was, -⟩ := blocks b member
      · exact ledger.behind b i (Or.inl old) lane
      · exact ledger.behind b i (Or.inr ⟨t, was⟩) lane
    · exact ledger.behind b i (Or.inr ⟨u, held u b i mine lane⟩) lane
  · refine ledger.apart u b c i (held u b i mine mineLane) ?_ mineLane theirLane
    obtain member | ⟨v, ne, theirs⟩ := other
    · obtain old | ⟨was, idle⟩ := blocks c member
      · exact Or.inl old
      · refine Or.inr ⟨t, ?_, was⟩
        rintro rfl
        rw [idle] at mine
        cases mine
    · exact Or.inr ⟨v, ne, held v c i theirs theirLane⟩

/-- The ledger outlives the take of a block from a lane: the new block begins at the cursor, and
everything that was taken from the lane before ends there. -/
theorem Ledger.take (ledger : s.Ledger) {i : Nat} {l : Lane 64} {size align : BitVec 64}
    (at_ : s.arena.lanes[i]? = some l) (fits : size ≤ l.laneEnd - l.cursor)
    (arena : s'.arena =
      { s.arena with lanes := s.arena.lanes.set i { l with cursor := l.cursor + size } })
    (held : (s'.threads e.thread).held = some ⟨.lane i, l.cursor, size, align⟩)
    (blocks : s'.blocks = s.blocks)
    (others : ∀ u, u ≠ e.thread → s'.threads u = s.threads u) : s'.Ledger := by
  have spot := fun u b held => held_cases others u (b := b) held
  obtain ⟨moved, inside⟩ := ledger.toNat_moved at_ fits
  have order := ledger.bounds i l at_
  have listed := (List.getElem?_eq_some_iff.mp at_).1
  -- The new block, or one that was taken before.
  have took : ∀ b, s'.Took b → b = ⟨.lane i, l.cursor, size, align⟩ ∨ s.Took b := by
    rintro b (member | ⟨u, mine⟩)
    · rw [blocks] at member
      exact Or.inr (Or.inl member)
    · obtain ⟨-, mine⟩ | ⟨-, mine⟩ := spot u b mine
      · rw [held] at mine
        exact Or.inl (Option.some.inj mine).symm
      · exact Or.inr (Or.inr ⟨u, mine⟩)
  -- What was taken from the lane before lies behind the new block.
  have before : ∀ c, s.Took c → c.source = .lane i → c.stop ≤ l.cursor.toNat := by
    intro c taken source
    obtain ⟨m, here, -, last⟩ := ledger.behind c i taken source
    rw [at_] at here
    cases here
    exact last
  refine ⟨fun j m here => ?_, fun b j taken source => ?_,
    fun t b c j mine other mineLane theirLane => ?_⟩
  · rw [arena, List.getElem?_set] at here
    split at here
    · cases here
      simp only [moved]
      omega
    · exact ledger.bounds j m here
  · rw [arena]
    simp only [List.getElem?_set]
    obtain rfl | taken := took b taken
    · cases source
      refine ⟨{ l with cursor := l.cursor + size }, by simp [listed], order.1, ?_⟩
      simp only [moved, Block.stop]
      exact Nat.le_refl _
    · obtain ⟨m, here, first, last⟩ := ledger.behind b j taken source
      by_cases same : i = j
      · subst same
        rw [at_] at here
        cases here
        refine ⟨{ l with cursor := l.cursor + size }, by simp [listed], first, ?_⟩
        simp only [moved]
        omega
      · exact ⟨m, by rw [if_neg same]; exact here, first, last⟩
  · have old : c ∈ s'.blocks ∨ (∃ u, u ≠ t ∧ (s'.threads u).held = some c) → s.Took c ∨
        (t ≠ e.thread ∧ c = ⟨.lane i, l.cursor, size, align⟩) := by
      rintro (member | ⟨u, ne, theirs⟩)
      · rw [blocks] at member
        exact Or.inl (Or.inl member)
      · obtain ⟨same, theirs⟩ | ⟨-, theirs⟩ := spot u c theirs
        · rw [held] at theirs
          exact Or.inr ⟨fun mover => ne (same.trans mover.symm), (Option.some.inj theirs).symm⟩
        · exact Or.inl (Or.inr ⟨u, theirs⟩)
    obtain ⟨rfl, mine⟩ | ⟨ne, mine⟩ := spot t b mine
    · rw [held] at mine
      cases mine
      cases mineLane
      obtain taken | ⟨ne, -⟩ := old other
      · exact Or.inr (before c taken theirLane)
      · exact absurd rfl ne
    · obtain member | ⟨u, other_, theirs⟩ := other
      · rw [blocks] at member
        exact ledger.apart t b c j mine (Or.inl member) mineLane theirLane
      · obtain ⟨-, theirs⟩ | ⟨-, theirs⟩ := spot u c theirs
        · rw [held] at theirs
          cases theirs
          cases theirLane
          exact Or.inl (before b (Or.inr ⟨t, mine⟩) mineLane)
        · exact ledger.apart t b c j mine (Or.inr ⟨u, other_, theirs⟩) mineLane theirLane

theorem Ledger.step (ledger : s.Ledger) (h : World.step e s = some s') : s'.Ledger := by
  obtain ⟨account, others⟩ := account_step h
  have spot := fun u b held => held_cases others u (b := b) held
  cases account with
  | takesLane i l size align _ idle at_ fits arena held blocks =>
      exact ledger.take at_ fits arena held blocks others
  | takesShared b source was lanes held blocks =>
      refine ledger.stay (t := e.thread) lanes (fun u c i mine lane => ?_) (fun c member => ?_)
      · obtain ⟨-, mine⟩ | ⟨-, mine⟩ := spot u c mine
        · rw [held] at mine
          cases mine
          rw [source] at lane
          cases lane
        · exact mine
      · rw [blocks] at member
        exact Or.inl member
  | hands b was lanes idle blocks =>
      refine ledger.stay (t := e.thread) lanes (fun u c _ mine _ => ?_) (fun c member => ?_)
      · obtain ⟨-, mine⟩ | ⟨-, mine⟩ := spot u c mine
        · rw [idle] at mine
          cases mine
        · exact mine
      · rw [blocks] at member
        rcases List.mem_cons.mp member with rfl | old
        · exact Or.inr ⟨was, idle⟩
        · exact Or.inl old
  | drops b committed next at_ failed arena idle blocks =>
      refine ledger.stay (t := e.thread) (by rw [arena]) (fun u c _ mine _ => ?_)
        (fun c member => ?_)
      · obtain ⟨-, mine⟩ | ⟨-, mine⟩ := spot u c mine
        · rw [idle] at mine
          cases mine
        · exact mine
      · rw [blocks] at member
        exact Or.inl member
  | keeps arena held blocks =>
      refine ledger.stay (t := e.thread) (by rw [arena]) (fun u c _ mine _ => ?_)
        (fun c member => ?_)
      · obtain ⟨rfl, mine⟩ | ⟨-, mine⟩ := spot u c mine
        · rw [← held]
          exact mine
        · exact mine
      · rw [blocks] at member
        exact Or.inl member

/-- No byte of a lane's run is lost in a step that drops no bytes of a lane. -/
theorem Covered.step (covered : s.Covered) (ledger : s.Ledger) (fine : commits e s = true)
    (h : World.step e s = some s') : s'.Covered := by
  obtain ⟨account, others⟩ := account_step h
  -- A block that the mover does not let go of is still taken.
  have still : ∀ b, s.Took b → s.blocks ⊆ s'.blocks →
      ((s.threads e.thread).held = some b → s'.Took b) → s'.Took b := by
    rintro b (member | ⟨u, mine⟩) grows mover
    · exact Or.inl (grows member)
    · by_cases same : u = e.thread
      · exact mover (same ▸ mine)
      · exact Or.inr ⟨u, by rw [others u same]; exact mine⟩
  cases account with
  | takesLane i l size align _ idle at_ fits arena held blocks =>
      obtain ⟨moved, -⟩ := ledger.toNat_moved at_ fits
      have old : ∀ b, s.Took b → s'.Took b := fun b taken =>
        still b taken (blocks ▸ List.Subset.refl _) fun mine => by
          rw [idle] at mine
          cases mine
      intro j m here x low high
      rw [arena] at here
      obtain ⟨rfl, rfl⟩ | ⟨-, here⟩ := lane_set at_ here
      · by_cases new : l.cursor.toNat ≤ x
        · refine ⟨_, Or.inr ⟨e.thread, held⟩, rfl, new, ?_⟩
          simp only [Block.stop]
          rw [← moved]
          exact high
        · obtain ⟨b, taken, source, first, last⟩ := covered _ l at_ x low (by omega)
          exact ⟨b, old b taken, source, first, last⟩
      · obtain ⟨b, taken, source, first, last⟩ := covered j m here x low high
        exact ⟨b, old b taken, source, first, last⟩
  | takesShared b source was lanes held blocks =>
      intro j m here x low high
      rw [lanes] at here
      obtain ⟨c, taken, lane, first, last⟩ := covered j m here x low high
      refine ⟨c, still c taken (blocks ▸ List.Subset.refl _) (fun mine => ?_), lane, first, last⟩
      rw [was] at mine
      cases mine
  | hands b was lanes idle blocks =>
      intro j m here x low high
      rw [lanes] at here
      obtain ⟨c, taken, lane, first, last⟩ := covered j m here x low high
      refine ⟨c, still c taken ?_ (fun mine => ?_), lane, first, last⟩
      · rw [blocks]
        exact List.subset_cons_self _ _
      · rw [was] at mine
        cases mine
        refine Or.inl ?_
        rw [blocks]
        exact List.mem_cons_self
  | drops b committed next at_ failed arena idle blocks =>
      intro j m here x low high
      rw [arena] at here
      obtain ⟨c, taken, lane, first, last⟩ := covered j m here x low high
      refine ⟨c, still c taken (blocks ▸ List.Subset.refl _) (fun mine => ?_), lane, first, last⟩
      -- The block that is dropped is not `c`: it is empty, or none of a lane.
      rw [at_] at mine
      cases mine
      simp only [commits, failed, at_, Bool.or_eq_true, beq_iff_eq] at fine
      obtain shared | empty := fine
      · rw [shared] at lane
        cases lane
      · have none : b.size.toNat = 0 := by
          rw [empty]
          rfl
        simp only [Block.start, Block.stop, none] at first last
        omega
  | keeps arena held blocks =>
      intro j m here x low high
      rw [arena] at here
      obtain ⟨c, taken, lane, first, last⟩ := covered j m here x low high
      refine ⟨c, still c taken (blocks ▸ List.Subset.refl _) (fun mine => ?_), lane, first, last⟩
      exact Or.inr ⟨e.thread, by rw [held]; exact mine⟩

omit [DecidableEq ι] in
theorem not_commits {action : Action 64} (unfine : ¬ commits ⟨t, action⟩ s = true) :
    ∃ b committed next i, action = .go false ∧ s.threads t = .commitPages b committed next ∧
      b.source = .lane i ∧ b.size.toNat ≠ 0 := by
  cases action with
  | call c => exact absurd rfl unfine
  | go ok =>
      cases ok with
      | true => exact absurd rfl unfine
      | false =>
          cases at_ : s.threads t with
          | commitPages b committed next =>
              simp only [commits, at_, Bool.or_eq_true, beq_iff_eq, not_or] at unfine
              obtain ⟨lane, bytes⟩ := unfine
              refine ⟨b, committed, next, ?_⟩
              cases source : b.source with
              | shared => exact absurd source lane
              | lane i =>
                  refine ⟨i, rfl, rfl, rfl, fun none => bytes ?_⟩
                  exact BitVec.eq_of_toNat_eq (none.trans (BitVec.toNat_zero).symm)
          | _ => simp [commits, at_] at unfine

/-- Bytes of a lane that are dropped are in no block any more. -/
theorem Ledger.not_tiled (ledger : s.Ledger) (unfine : ¬ commits e s = true)
    (h : World.step e s = some s') : ¬ s'.LanesTiled := by
  intro tiled
  have covered := (ledger.step h).tiled_iff.mp tiled
  obtain ⟨t, action⟩ := e
  obtain ⟨b, committed, next, i, rfl, at_, lane, bytes⟩ := not_commits unfine
  have mine : (s.threads t).held = some b := by rw [at_]; rfl
  obtain ⟨l, here, first, last⟩ := ledger.behind b i (Or.inr ⟨t, mine⟩) lane
  simp only [World.step, advance, at_, Bool.false_eq_true, if_false] at h
  cases h
  have inside : b.start < b.stop := by
    simp only [Block.start, Block.stop]
    omega
  obtain ⟨c, taken, source, low, high⟩ := covered i l here b.start first (by omega)
  have other : c ∈ s.blocks ∨ ∃ u, u ≠ t ∧ (s.threads u).held = some c := by
    rcases taken with member | ⟨u, theirs⟩
    · exact Or.inl member
    · by_cases same : u = t
      · rw [same, threads_self] at theirs
        cases theirs
      · rw [threads_other same] at theirs
        exact Or.inr ⟨u, same, theirs⟩
  obtain before | after := ledger.apart t b c i mine other lane source
  · omega
  · omega

/-! ## Runs without the calls of a thread -/

/-- The two states differ only in where the thread is, and in the pages made writable. -/
structure Alike (t : ι) (s r : World ι 64) : Prop where
  arena : r.arena = s.arena
  blocks : r.blocks = s.blocks
  threads : ∀ u, u ≠ t → r.threads u = s.threads u

theorem Alike.setThread (alike : Alike t s r) {a : ConcurrentArena 64} {bs : List (Block 64)}
    {pages more : Nat → Bool} (u : ι) (state : Thread 64) :
    Alike t (World.setThread { s with arena := a, blocks := bs, committedBytes := pages } u state)
      (World.setThread { r with arena := a, blocks := bs, committedBytes := more } u state) := by
  refine ⟨rfl, rfl, fun v other => ?_⟩
  rw [threads_setThread, threads_setThread]
  split
  · rfl
  · exact alike.threads v other

/-- The other threads do the same in both. -/
theorem Alike.step (alike : Alike t s r) (other : e.thread ≠ t) (h : World.step e s = some s') :
    ∃ r', World.step e r = some r' ∧ Alike t s' r' := by
  obtain ⟨u, action⟩ := e
  have mine : r.threads u = s.threads u := alike.threads u other
  obtain ⟨a, threads, owner, blocks, bytes⟩ := r
  obtain ⟨rfl, rfl, same⟩ := id alike
  simp only at mine
  cases action with
  | call c =>
      simp only [World.step, mine] at h ⊢
      split at h
      · next idle =>
          rw [if_pos idle]
          cases c with
          | alloc size align =>
              cases h
              exact ⟨_, rfl, alike.setThread u _⟩
          | allocExact size align =>
              cases h
              exact ⟨_, rfl, alike.setThread u _⟩
          | allocFrom lane size align =>
              simp only [start, World.allocFrom] at h ⊢
              split at h
              · cases h
              · next l at_ =>
                  split at h
                  · next full =>
                      cases h
                      exact ⟨_, if_pos full, alike⟩
                  · next fits =>
                      cases h
                      exact ⟨_, if_neg fits, alike.setThread u _⟩
      · cases h
  | go ok =>
      simp only [World.step, advance, mine] at h ⊢
      cases at_ : s.threads u with
      | idle =>
          simp only [at_] at h
          cases h
      | allocLoad size align =>
          simp only [at_] at h ⊢
          split at h
          · cases h
            exact ⟨_, rfl, alike.setThread u _⟩
          · cases h
            exact ⟨_, rfl, alike.setThread u _⟩
      | exactAdd size align =>
          simp only [at_] at h ⊢
          cases h
          exact ⟨_, rfl, alike.setThread u _⟩
      | _ =>
          simp only [at_] at h ⊢
          split at h
          · next yes =>
              cases h
              exact ⟨_, if_pos yes, alike.setThread u _⟩
          · next no =>
              cases h
              exact ⟨_, if_neg no, alike.setThread u _⟩
/-- A thread at rest that makes no call stays at rest. -/
theorem idle_of_goes {m m' : World ι 64} {during : List (Event ι 64)} (idle : m.threads t = .idle)
    (goes : ∀ e ∈ during, e.thread = t → ∃ ok, e.action = .go ok)
    (reached : Schedule.run World.step m during = some m') : m'.threads t = .idle := by
  induction during generalizing m with
  | nil =>
      cases reached
      exact idle
  | cons e during ih =>
      obtain ⟨m₁, first, rest⟩ := Schedule.run_cons_eq_some.mp reached
      refine ih ?_ (fun f member => goes f (List.mem_cons_of_mem _ member)) rest
      by_cases mine : e.thread = t
      · obtain ⟨ok, go⟩ := goes e List.mem_cons_self mine
        simp only [World.step, go, advance, mine, idle] at first
        cases first
      · rw [(account_step first).2 t (Ne.symm mine)]
        exact idle

/-- A thread goes on with a block that it holds: it comes to rest, or it still holds the block, and
then its steps have left no more behind than pages made writable. -/
theorem goes_on {m m' : World ι 64} {during : List (Event ι 64)} {b : Block 64}
    (held : (m.threads t).held = some b)
    (goes : ∀ e ∈ during, e.thread = t → ∃ ok, e.action = .go ok)
    (reached : Schedule.run World.step m during = some m') :
    m'.threads t = .idle ∨ ((m'.threads t).held = some b ∧ ∀ r, Alike t m r →
      ∃ r', Schedule.run World.step r (during.filter fun e => decide (e.thread ≠ t)) = some r' ∧
        Alike t m' r') := by
  induction during generalizing m with
  | nil =>
      cases reached
      exact Or.inr ⟨held, fun r alike => ⟨r, rfl, alike⟩⟩
  | cons e during ih =>
      obtain ⟨m₁, first, rest⟩ := Schedule.run_cons_eq_some.mp reached
      have later := fun f member => goes f (List.mem_cons_of_mem e member)
      obtain ⟨account, others⟩ := account_step first
      by_cases mine : e.thread = t
      · obtain ⟨ok, go⟩ := goes e List.mem_cons_self mine
        rw [List.filter_cons_of_neg (by simpa using mine)]
        subst mine
        cases account with
        | takesLane i l size align call =>
            rw [go] at call
            cases call
        | takesShared c source was =>
            rw [held] at was
            cases was
        | hands c was lanes idle blocks => exact Or.inl (idle_of_goes idle later rest)
        | drops c committed next at_ failed arena idle blocks =>
            exact Or.inl (idle_of_goes idle later rest)
        | keeps arena keeps blocks =>
            refine (ih (keeps.trans held) later rest).imp_right fun ⟨holds, erase⟩ =>
              ⟨holds, fun r alike => erase r ⟨?_, ?_, fun u other => ?_⟩⟩
            · rw [arena, alike.arena]
            · rw [blocks, alike.blocks]
            · rw [others u other, alike.threads u other]
      · rw [List.filter_cons_of_pos (by simpa using mine)]
        have kept : (m₁.threads t).held = some b := by
          rw [others t (Ne.symm mine)]
          exact held
        refine (ih kept later rest).imp_right fun ⟨holds, erase⟩ => ⟨holds, fun r alike => ?_⟩
        obtain ⟨r₁, moved, alike⟩ := alike.step mine first
        obtain ⟨r', run, alike⟩ := erase r₁ alike
        exact ⟨r', Schedule.run_cons_eq_some.mpr ⟨r₁, moved, run⟩, alike⟩

/-! ## Calls that get nothing -/

theorem call_cases {m : World ι 64} {lane : Nat} {size align : BitVec 64}
    (call : World.step ⟨t, .call (.allocFrom lane size align)⟩ s = some m) :
    s.threads t = .idle ∧ (m = s ∨ ∃ l, s.arena.lanes[lane]? = some l ∧
      m = setThread { s with arena := { s.arena with
        lanes := s.arena.lanes.set lane { l with cursor := l.cursor + size } } } t
          (.commitLoad ⟨.lane lane, l.cursor, size, align⟩)) := by
  simp only [World.step, start, World.allocFrom] at call
  split at call
  · next idle =>
      refine ⟨idle, ?_⟩
      split at call
      · cases call
      · next l at_ =>
          split at call
          · cases call
            exact Or.inl rfl
          · cases call
            exact Or.inr ⟨l, at_, rfl⟩
  · cases call

omit [DecidableEq ι] in
theorem of_outcome_null (null : s.outcome s' t = .null) :
    s'.threads t = .idle ∧ ∀ b, s'.blocks ≠ b :: s.blocks := by
  simp only [outcome] at null
  split at null
  · next idle =>
      refine ⟨idle, fun b grown => ?_⟩
      simp [grown] at null
  · cases null

/-- A call that gets nothing leaves no trace, if its last step is no failure to commit bytes. -/
theorem Refused.noTrace {lane : Nat} {size align : BitVec 64} {during : List (Event ι 64)}
    (refused : Refused t lane size align s during s')
    (fine : ∀ before m' ok, during = before ++ [⟨t, .go ok⟩] →
      Schedule.run World.step s (⟨t, .call (.allocFrom lane size align)⟩ :: before) = some m' →
      commits ⟨t, .go ok⟩ m' = true) : NoTrace t during s s' := by
  cases refused with
  | atOnce call null =>
      obtain ⟨-, rfl | ⟨l, at_, rfl⟩⟩ := call_cases call
      · exact ⟨s', rfl, fun _ => rfl, rfl, rfl⟩
      · have idle := (of_outcome_null null).1
        rw [threads_self] at idle
        cases idle
  | @later m m' _ before ok call goes reached last null =>
      obtain ⟨idle, rest⟩ := call_cases call
      have busy : m'.threads t ≠ .idle := by
        intro idle
        simp only [World.step, advance, idle] at last
        cases last
      obtain rfl | ⟨l, at_, taken⟩ := rest
      · exact absurd (idle_of_goes idle goes reached) busy
      have held : (m.threads t).held = some ⟨.lane lane, l.cursor, size, align⟩ := by
        rw [taken, threads_self]
        rfl
      obtain rests | ⟨holds, erase⟩ := goes_on held goes reached
      · exact absurd rests busy
      have whole := Schedule.run_cons_eq_some.mpr ⟨m, call, reached⟩
      have legal := fine before m' ok rfl whole
      obtain ⟨stops, none⟩ := of_outcome_null null
      obtain ⟨account, others⟩ := account_step last
      cases account with
      | takesLane i k size align call =>
          cases call
      | takesShared b source was =>
          rw [holds] at was
          cases was
      | hands b was lanes idle blocks => exact absurd blocks (none b)
      | keeps arena keeps blocks =>
          rw [stops, holds] at keeps
          cases keeps
      | drops b committed next stood failed arena idle blocks =>
          cases failed
          rw [stood] at holds
          cases holds
          simp only [commits, stood, Bool.or_eq_true, beq_iff_eq, reduceCtorEq, false_or] at legal
          -- No bytes were taken, so the cursor of the lane has not moved.
          obtain ⟨listed, value⟩ := List.getElem?_eq_some_iff.mp at_
          have lanes : s.arena.lanes.set lane { l with cursor := l.cursor + size }
              = s.arena.lanes := by
            have still : l.cursor + size = l.cursor := by
              rw [legal]
              exact BitVec.add_zero l.cursor
            rw [still, ← value]
            exact List.set_getElem_self listed
          have alike : Alike t m s := by
            refine ⟨?_, ?_, fun u other => ?_⟩
            · rw [taken, lanes]
              rfl
            · rw [taken]
              rfl
            · rw [taken, threads_other other]
          obtain ⟨r, run, alike⟩ := erase s alike
          refine ⟨r, ?_, fun _ => ?_, ?_, ?_⟩
          · rw [List.filter_append, List.filter_cons_of_neg (by simp), List.filter_nil,
              List.append_nil]
            exact run
          · rw [arena, alike.arena]
          · rw [arena, alike.arena]
          · rw [blocks, alike.blocks]

/-! ## Whole runs -/

theorem le_clip (first last : BitVec 64) :
    first.toNat ≤ (if last > first then last else first).toNat := by
  split
  · next more => exact Nat.le_of_lt (BitVec.lt_def.mp more)
  · exact Nat.le_refl _

/-- A lane begins empty. -/
theorem lane_prepared {capacity : BitVec 64} {d : Division} {i : Nat} {l : Lane 64}
    (at_ : (ConcurrentArena.prepared capacity (some d)).lanes[i]? = some l) :
    l.cursor = l.laneBegin ∧ l.laneBegin.toNat ≤ l.laneEnd.toNat := by
  simp only [ConcurrentArena.prepared, ConcurrentArena.setLanes, List.getElem?_map,
    Option.map_eq_some_iff] at at_
  obtain ⟨j, -, rfl⟩ := at_
  exact ⟨rfl, le_clip _ _⟩

omit [DecidableEq ι] in
theorem ledger_initial (capacity : BitVec 64) (d : Division) (owner : Nat → ι) :
    (initial (ConcurrentArena.prepared capacity (some d)) owner).Ledger := by
  refine ⟨fun i l at_ => ?_, ?_, fun t b c i held => ?_⟩
  · obtain ⟨empty, order⟩ := lane_prepared at_
    rw [empty]
    exact ⟨Nat.le_refl _, order⟩
  · rintro b i (member | ⟨t, held⟩) -
    · cases member
    · cases held
  · cases held

omit [DecidableEq ι] in
theorem covered_initial (capacity : BitVec 64) (d : Division) (owner : Nat → ι) :
    (initial (ConcurrentArena.prepared capacity (some d)) owner).Covered := by
  intro i l at_ x low high
  rw [(lane_prepared at_).1] at high
  omega

/-- Refused calls leave no trace, and the runs of the lanes are their blocks, in exactly the runs in
which no commit of a lane's bytes fails. -/
theorem traceless_iff {capacity : BitVec 64} {d : Division} {owner : Nat → ι}
    {es : List (Event ι 64)}
    (reached : Schedule.run World.step (initial (ConcurrentArena.prepared capacity (some d)) owner)
      es = some s) :
    Traceless (initial (ConcurrentArena.prepared capacity (some d)) owner) es ↔
      Schedule.run (Schedule.guarded (fun e s => commits e s = true) World.step)
        (initial (ConcurrentArena.prepared capacity (some d)) owner) es = some s := by
  have begins := ledger_initial capacity d owner
  have filled := covered_initial capacity d owner
  generalize initial (ConcurrentArena.prepared capacity (some d)) owner = start at *
  constructor
  · intro traceless
    by_contra refused
    obtain ⟨before, e, after, m, m', rfl, first, moved, unfine⟩ :=
      Schedule.exists_illegal reached refused
    have ledger := Schedule.run_invariant (fun h ledger => Ledger.step ledger h) first begins
    refine ledger.not_tiled unfine moved (traceless.tiled (before ++ [e]) after m' (by simp) ?_)
    exact Schedule.run_append_eq_some.mpr ⟨m, first, Schedule.run_cons_eq_some.mpr ⟨m', moved, rfl⟩⟩
  · intro fine
    refine ⟨fun before t lane size align during after s₁ s₂ parts first refused => ?_,
      fun before after m parts first => ?_⟩
    · refine refused.noTrace fun inner m' ok ends goes => ?_
      have whole := Schedule.run_append_eq_some.mpr ⟨s₁, first, goes⟩
      have split_ : es = (before ++ ⟨t, .call (.allocFrom lane size align)⟩ :: inner) ++
          ⟨t, .go ok⟩ :: after := by
        rw [parts, ends]
        simp
      rw [split_] at fine
      have legal := Schedule.legal_of_guarded fine whole
      exact legal
    · rw [parts] at fine
      obtain ⟨r, guarded, -⟩ := Schedule.run_append_eq_some.mp fine
      have same : r = m := Option.some.inj ((Schedule.run_of_guarded guarded).symm.trans first)
      obtain ⟨ledger, covered⟩ := Schedule.run_invariant
        (I := fun s => s.Ledger ∧ s.Covered)
        (fun h kept => by
          obtain ⟨legal, moved⟩ := Schedule.guarded_eq_some.mp h
          exact ⟨kept.1.step moved, kept.2.step kept.1 legal moved⟩)
        guarded ⟨begins, filled⟩
      rw [← same]
      exact ledger.tiled_iff.mpr covered

/-- An arena of sixteen pages with two lanes. -/
def twoLanes : World Unit 64 :=
  initial (ConcurrentArena.prepared 65536 (some ⟨2, 16, 0⟩)) fun _ => ()

/-- An allocation, and one that its lane has no room for. -/
def fullLane : List (Event Unit 64) :=
  [⟨(), .call (.allocFrom 0 48 16)⟩, ⟨(), .go true⟩, ⟨(), .go true⟩, ⟨(), .go true⟩,
    ⟨(), .call (.allocFrom 0 65536 16)⟩]

theorem traceless_iff_fullLane : Traceless twoLanes fullLane := by
  have goes : ((Schedule.run (Schedule.guarded (fun e s => commits e s = true) World.step)
      twoLanes fullLane).isSome) = true := by decide +kernel
  obtain ⟨s, guarded⟩ := Option.isSome_iff_exists.mp goes
  exact (traceless_iff (Schedule.run_of_guarded guarded)).mpr guarded

/-- The pages cannot be committed: the call gets nothing, and the lane has grown by the bytes of no
block. -/
theorem not_traceless_unwritable : ∃ s : World Unit 64,
    Refused () 0 48 16 twoLanes [⟨(), .go true⟩, ⟨(), .go false⟩] s ∧
      twoLanes.arena.laneSize 0 = some 0 ∧ s.arena.laneSize 0 = some 48 ∧ s.blocks = [] ∧
      ¬ NoTrace () [⟨(), .go true⟩, ⟨(), .go false⟩] twoLanes s ∧ ¬ s.LanesTiled := by
  have history : ((World.step ⟨(), .call (.allocFrom 0 48 16)⟩ twoLanes).bind fun m =>
      (Schedule.run World.step m [⟨(), .go true⟩]).bind fun m' =>
        (World.step ⟨(), .go false⟩ m').map fun s =>
          (m'.outcome s (), s.arena.laneSize 0, s.blocks, s.threads (), s.arena.lanes[0]?)) =
      some (.null, some 48, [], .idle, some ⟨48, 0, 32768⟩) := by decide +kernel
  obtain ⟨m, call, history⟩ := Option.bind_eq_some_iff.mp history
  obtain ⟨m', reached, history⟩ := Option.bind_eq_some_iff.mp history
  obtain ⟨s, last, seen⟩ := Option.map_eq_some_iff.mp history
  simp only [Prod.mk.injEq] at seen
  obtain ⟨null, grown, none, idle, lane⟩ := seen
  have before : twoLanes.arena.laneSize 0 = some 0 := by decide +kernel
  have goes : ∀ e ∈ [(⟨(), .go true⟩ : Event Unit 64)],
      e.thread = () → ∃ ok, e.action = .go ok := by
    intro e member _
    rw [List.mem_singleton] at member
    exact ⟨true, by rw [member]⟩
  refine ⟨s, .later call goes reached last null, before, grown, none, ?_, fun tiled => ?_⟩
  · rintro ⟨r, run, sizes, -⟩
    cases run
    have same := sizes 0
    rw [grown, before] at same
    exact absurd same (by decide)
  · obtain ⟨b, member | ⟨t, held⟩, -⟩ := (tiled 0 _ lane 0).mp ⟨by decide, by decide⟩
    · rw [none] at member
      cases member
    · rw [idle] at held
      cases held

end World

end Fpag.Mem
