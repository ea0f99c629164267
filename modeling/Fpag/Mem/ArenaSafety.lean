import Fpag.Mem.ConcurrentArena

/-!
What holds of a `ConcurrentArena` under every interleaving of its threads.

Every block that a thread has taken, whether it was handed out already or is still
being committed, is `Placed`: it lies behind the cursor it came from, so what the
cursor hands out next cannot meet it, and the lanes and the pool are slices of their
own. The watermark only moves to a value whose pages were committed before. `Inv`
puts these together, one lemma for each kind of step preserves it, and `Inv.step` is
the case analysis over the thread's position.

`alloc` rounds and the cursor of a lane stands on whole units, so their blocks are at multiples
of their alignments. `alloc_exact` takes the offset it finds: `Inv.origin` follows every block
back to the step that took it.
-/

namespace Fpag.Mem

variable {ι : Type}

def Block.start (b : Block 64) : Nat := b.offset.toNat

def Block.stop (b : Block 64) : Nat := b.offset.toNat + b.size.toNat

/-- The two blocks share no byte. -/
def Block.Apart (b c : Block 64) : Prop := b.stop ≤ c.start ∨ c.stop ≤ b.start

theorem Block.Apart.symm {b c : Block 64} (h : b.Apart c) : c.Apart b := Or.symm h

/-- The block a thread has taken and not handed out yet. -/
def Thread.held : Thread 64 → Option (Block 64)
  | .commitLoad b => some b
  | .commitPages b _ _ => some b
  | .commitSwap b _ _ => some b
  | _ => none

/-- The thread is inside an `alloc` of this size and alignment. -/
def Thread.Serving (size align : BitVec 64) : Thread 64 → Prop
  | .allocLoad n a => n = size ∧ a = align
  | .allocSwap n a _ _ _ => n = size ∧ a = align
  | .commitLoad b => b.size = size ∧ b.align = align
  | .commitPages b _ _ => b.size = size ∧ b.align = align
  | .commitSwap b _ _ => b.size = size ∧ b.align = align
  | _ => False

/-- The block lies behind the cursor it was taken from. -/
def ConcurrentArena.Placed (a : ConcurrentArena 64) (b : Block 64) : Prop :=
  match b.source with
  | .shared => a.poolBegin.toNat ≤ b.start ∧ b.stop ≤ a.size.toNat
  | .lane i => ∃ l, a.lanes[i]? = some l ∧ l.laneBegin.toNat ≤ b.start ∧ b.stop ≤ l.cursor.toNat

/-- The lanes are consecutive slices below the pool, and their cursors stand on whole units. -/
structure ConcurrentArena.LanesOk (a : ConcurrentArena 64) : Prop where
  inside : ∀ (i : Nat) (l : Lane 64), a.lanes[i]? = some l →
    l.laneBegin.toNat ≤ l.cursor.toNat ∧ l.cursor.toNat ≤ l.laneEnd.toNat ∧
      l.laneEnd.toNat ≤ a.poolBegin.toNat ∧ a.laneUnit.toNat ∣ l.cursor.toNat
  ordered : ∀ (i j : Nat) (l m : Lane 64), i < j → a.lanes[i]? = some l → a.lanes[j]? = some m →
    l.laneEnd.toNat ≤ m.laneBegin.toNat

/-- What a thread knows where it stands. -/
def Thread.Ok (capacity : Nat) (committedBytes : Nat → Bool) : Thread 64 → Prop
  | .allocLoad _ align => ∃ k, align.toNat = 2 ^ k
  | .allocSwap size align oldSize aligned newSize =>
      (∃ k, align.toNat = 2 ^ k) ∧ aligned.toNat = alignUp oldSize.toNat align.toNat ∧
        aligned.toNat + size.toNat ≤ capacity ∧ newSize.toNat = aligned.toNat + size.toNat
  | .commitPages b committed next =>
      b.stop ≤ next.toNat ∧ next.toNat ≤ capacity ∧ committed.toNat ≤ next.toNat
  | .commitSwap b committed next =>
      b.stop ≤ next.toNat ∧ next.toNat ≤ capacity ∧ committed.toNat ≤ next.toNat ∧
        ∀ x, committed.toNat ≤ x → x < next.toNat → committedBytes x = true
  | _ => True

namespace World

/-- The invariant of every reachable state. -/
structure Inv (s : World ι 64) : Prop where
  capacity_le : s.arena.capacity.toNat ≤ 2 ^ 63
  pool_le : s.arena.poolBegin.toNat ≤ s.arena.size.toNat
  size_le : s.arena.size.toNat ≤ s.arena.capacity.toNat
  committed_le : s.arena.committedSize.toNat ≤ s.arena.capacity.toNat
  committed : ∀ x, x < s.arena.committedSize.toNat → s.committedBytes x = true
  lanes : s.arena.LanesOk
  placed : ∀ b ∈ s.blocks, s.arena.Placed b ∧ b.stop ≤ s.arena.committedSize.toNat
  apart : s.blocks.Pairwise Block.Apart
  threads : ∀ t, (s.threads t).Ok s.arena.capacity.toNat s.committedBytes
  held : ∀ t b, (s.threads t).held = some b →
    s.arena.Placed b ∧ ∀ c ∈ s.blocks, b.Apart c
  heldApart : ∀ t u b c, t ≠ u → (s.threads t).held = some b → (s.threads u).held = some c →
    b.Apart c

end World

/-! ## Places -/

namespace ConcurrentArena

variable {a a' : ConcurrentArena 64} {b c : Block 64}

theorem Placed.stop_le (lanes : a.LanesOk) (pool : a.poolBegin.toNat ≤ a.size.toNat)
    (placed : a.Placed b) : b.stop ≤ a.size.toNat := by
  unfold Placed at placed
  cases hs : b.source with
  | shared =>
      rw [hs] at placed
      exact placed.2
  | lane i =>
      rw [hs] at placed
      obtain ⟨l, hl, -, stop⟩ := placed
      obtain ⟨-, cursor, last, -⟩ := lanes.inside i l hl
      omega

/-- What lies at or above the shared cursor meets nothing that was taken. -/
theorem Placed.apart_of_size_le (lanes : a.LanesOk) (pool : a.poolBegin.toNat ≤ a.size.toNat)
    (above : a.size.toNat ≤ b.start) (placed : a.Placed c) : b.Apart c :=
  Or.inr ((placed.stop_le lanes pool).trans above)

/-- What lies between a lane's cursor and its end meets nothing that was taken. -/
theorem Placed.apart_of_lane (lanes : a.LanesOk) {i : Nat} {l : Lane 64}
    (hl : a.lanes[i]? = some l) (above : l.cursor.toNat ≤ b.start)
    (below : b.stop ≤ l.laneEnd.toNat) (placed : a.Placed c) : b.Apart c := by
  obtain ⟨first, -, last, -⟩ := lanes.inside i l hl
  unfold Placed at placed
  cases hs : c.source with
  | shared =>
      rw [hs] at placed
      exact Or.inl (by omega)
  | lane j =>
      rw [hs] at placed
      obtain ⟨m, hm, start, stop⟩ := placed
      obtain ⟨-, cursor, -, -⟩ := lanes.inside j m hm
      rcases Nat.lt_trichotomy i j with lt | rfl | gt
      · have := lanes.ordered i j l m lt hl hm
        exact Or.inl (by omega)
      · rw [hl] at hm
        cases hm
        exact Or.inr (by omega)
      · have := lanes.ordered j i m l gt hm hl
        exact Or.inr (by omega)

/-- Moving the shared cursor on keeps everything in its place. -/
theorem Placed.grow {size : BitVec 64} (le : a.size.toNat ≤ size.toNat) (placed : a.Placed b) :
    ConcurrentArena.Placed { a with size := size } b := by
  unfold Placed at placed ⊢
  cases hs : b.source with
  | shared =>
      rw [hs] at placed
      exact ⟨placed.1, placed.2.trans le⟩
  | lane i =>
      rw [hs] at placed
      exact placed

theorem LanesOk.grow (lanes : a.LanesOk) (size committedSize : BitVec 64) :
    ConcurrentArena.LanesOk { a with size := size, committedSize := committedSize } :=
  ⟨lanes.inside, lanes.ordered⟩

/-- What `commit_until` aims at covers what it was called for and stays inside the arena. -/
theorem chunkEnd_bounds (upTo : BitVec 64) (small : upTo.toNat + 2 ^ 18 ≤ 2 ^ 64)
    (fits : upTo.toNat ≤ a.capacity.toNat) :
    upTo.toNat ≤ (a.chunkEnd upTo).toNat ∧ (a.chunkEnd upTo).toNat ≤ a.capacity.toNat := by
  have chunk : (commitChunkBytes 64).toNat = 2 ^ 18 := by decide
  have rounded := Base.toNat_roundUp (x := upTo) chunk (by omega)
  have up : upTo.toNat ≤ alignUp upTo.toNat (commitChunkBytes 64).toNat :=
    le_alignUp (by rw [chunk]; decide)
  simp only [chunkEnd]
  split
  · exact ⟨fits, Nat.le_refl _⟩
  · next clipped => exact ⟨by omega, BitVec.le_def.mp (BitVec.not_lt.mp clipped)⟩

/-- Where a block that fits lies, if the rounding does not wrap. -/
theorem fit_bounds {size align aligned newSize : BitVec 64} (power : ∃ k, align.toNat = 2 ^ k)
    (rounds : a.size.toNat + (align.toNat - 1) < 2 ^ 64)
    (h : a.fit a.size size align = some (aligned, newSize)) :
    aligned.toNat = alignUp a.size.toNat align.toNat ∧
      newSize.toNat = aligned.toNat + size.toNat ∧ aligned + size = newSize ∧
      newSize.toNat ≤ a.capacity.toNat := by
  obtain ⟨k, hk⟩ := power
  have rounded := Base.toNat_roundUp hk rounds
  simp only [fit] at h
  split at h
  · cases h
  · next refused =>
      cases h
      simp only [Bool.or_eq_true, decide_eq_true_eq, not_or, gt_iff_lt, BitVec.not_lt,
        BitVec.le_def] at refused
      obtain ⟨inside, fits⟩ := refused
      rw [BitVec.toNat_sub_of_le (BitVec.le_def.mpr inside)] at fits
      have sum : (Base.roundUp a.size align + size).toNat =
          (Base.roundUp a.size align).toNat + size.toNat := by
        rw [BitVec.toNat_add, Nat.mod_eq_of_lt (by omega)]
      exact ⟨rounded, sum, rfl, by omega⟩

/-- Moving a lane's cursor on keeps everything in its place. -/
theorem Placed.moveLane {i : Nat} {l moved : Lane 64} (hl : a.lanes[i]? = some l)
    (first : moved.laneBegin = l.laneBegin) (le : l.cursor.toNat ≤ moved.cursor.toNat)
    (placed : a.Placed b) :
    ConcurrentArena.Placed { a with lanes := a.lanes.set i moved } b := by
  unfold Placed at placed ⊢
  cases hs : b.source with
  | shared =>
      rw [hs] at placed
      exact placed
  | lane j =>
      rw [hs] at placed
      obtain ⟨m, hm, start, stop⟩ := placed
      by_cases same : i = j
      · subst same
        rw [hl] at hm
        cases hm
        have inside := (List.getElem?_eq_some_iff.mp hl).1
        exact ⟨moved, by simp [inside], by rw [first]; exact start, stop.trans le⟩
      · exact ⟨m, by simp [List.getElem?_set_ne same, hm], start, stop⟩

/-- A lane whose cursor moves by whole units inside its slice is still a lane. -/
theorem LanesOk.moveLane (lanes : a.LanesOk) {i : Nat} {l moved : Lane 64}
    (hl : a.lanes[i]? = some l) (first : moved.laneBegin = l.laneBegin)
    (last : moved.laneEnd = l.laneEnd) (le : l.cursor.toNat ≤ moved.cursor.toNat)
    (fits : moved.cursor.toNat ≤ l.laneEnd.toNat) (whole : a.laneUnit.toNat ∣ moved.cursor.toNat) :
    ConcurrentArena.LanesOk { a with lanes := a.lanes.set i moved } := by
  have inside := (List.getElem?_eq_some_iff.mp hl).1
  -- Every lane of the new list is an old lane with, at most, another cursor.
  have old : ∀ (j : Nat) (m : Lane 64), (a.lanes.set i moved)[j]? = some m →
      ∃ m', a.lanes[j]? = some m' ∧ m.laneBegin = m'.laneBegin ∧ m.laneEnd = m'.laneEnd ∧
        (m = m' ∨ (j = i ∧ m = moved)) := by
    intro j m hm
    by_cases same : i = j
    · subst same
      simp [inside] at hm
      subst hm
      exact ⟨l, hl, first, last, Or.inr ⟨rfl, rfl⟩⟩
    · rw [List.getElem?_set_ne same] at hm
      exact ⟨m, hm, rfl, rfl, Or.inl rfl⟩
  refine ⟨fun j m hm => ?_, fun j k m n lt hm hn => ?_⟩
  · obtain ⟨m', hm', hfirst, hlast, rfl | ⟨rfl, rfl⟩⟩ := old j m hm
    · exact lanes.inside j m hm'
    · rw [hl] at hm'
      cases hm'
      obtain ⟨h₁, h₂, h₃, h₄⟩ := lanes.inside j l hl
      exact ⟨by rw [first]; omega, by rw [last]; exact fits, by rw [last]; exact h₃, whole⟩
  · obtain ⟨m', hm', -, hlast, -⟩ := old j m hm
    obtain ⟨n', hn', hfirst, -, -⟩ := old k n hn
    rw [hlast, hfirst]
    exact lanes.ordered j k m' n' lt hm' hn'

end ConcurrentArena

/-! ## Steps -/

/-- Committing more pages does not take away what a thread knows. -/
theorem Thread.Ok.mono {capacity : Nat} {bytes more : Nat → Bool} {state : Thread 64}
    (le : ∀ x, bytes x = true → more x = true) (ok : state.Ok capacity bytes) :
    state.Ok capacity more := by
  cases state with
  | commitSwap b committed next =>
      obtain ⟨stop, below, forward, pages⟩ := ok
      exact ⟨stop, below, forward, fun x low high => le x (pages x low high)⟩
  | _ => exact ok

namespace World

variable [DecidableEq ι] {s s' : World ι 64} {t : ι} {b : Block 64}

theorem threads_setThread (s : World ι 64) (t u : ι) (state : Thread 64) :
    (s.setThread t state).threads u = if u = t then state else s.threads u := by
  simp only [setThread, Function.update_apply]

/-- A thread that goes on with the block it holds, or lets go of it. -/
theorem Inv.settle (inv : s.Inv) {state : Thread 64}
    (ok : state.Ok s.arena.capacity.toNat s.committedBytes)
    (keeps : ∀ b, state.held = some b → (s.threads t).held = some b) :
    (s.setThread t state).Inv := by
  have old : ∀ u b, ((s.setThread t state).threads u).held = some b →
      (s.threads u).held = some b := by
    intro u b hu
    rw [threads_setThread] at hu
    split at hu
    · next same =>
        rw [same]
        exact keeps b hu
    · exact hu
  refine ⟨inv.capacity_le, inv.pool_le, inv.size_le, inv.committed_le, inv.committed, inv.lanes,
    inv.placed, inv.apart, fun u => ?_, fun u b hu => inv.held u b (old u b hu),
    fun u v b c ne hu hv => inv.heldApart u v b c ne (old u b hu) (old v c hv)⟩
  rw [threads_setThread]
  split
  · exact ok
  · exact inv.threads u

/-- A thread takes a block: one cursor of the arena moves over room that nothing else has. -/
theorem Inv.take (inv : s.Inv) {a : ConcurrentArena 64}
    (capacity : a.capacity = s.arena.capacity) (pool : a.poolBegin = s.arena.poolBegin)
    (watermark : a.committedSize = s.arena.committedSize)
    (forward : s.arena.size.toNat ≤ a.size.toNat) (fits : a.size.toNat ≤ a.capacity.toNat)
    (lanes : a.LanesOk) (keeps : ∀ c, s.arena.Placed c → a.Placed c) (placed : a.Placed b)
    (apart : ∀ c, s.arena.Placed c → b.Apart c) :
    (setThread { s with arena := a } t (.commitLoad b)).Inv := by
  have holder : ∀ u c,
      ((setThread { s with arena := a } t (.commitLoad b)).threads u).held = some c →
      (u = t ∧ c = b) ∨ (u ≠ t ∧ (s.threads u).held = some c) := by
    intro u c hu
    rw [threads_setThread] at hu
    split at hu
    · next same => exact Or.inl ⟨same, (Option.some.inj hu).symm⟩
    · next other => exact Or.inr ⟨other, hu⟩
  refine ⟨?_, ?_, fits, ?_, ?_, lanes, ?_, inv.apart, fun u => ?_, ?_, ?_⟩
  · change a.capacity.toNat ≤ 2 ^ 63
    rw [capacity]
    exact inv.capacity_le
  · change a.poolBegin.toNat ≤ a.size.toNat
    rw [pool]
    exact inv.pool_le.trans forward
  · change a.committedSize.toNat ≤ a.capacity.toNat
    rw [watermark, capacity]
    exact inv.committed_le
  · change ∀ x, x < a.committedSize.toNat → s.committedBytes x = true
    rw [watermark]
    exact inv.committed
  · intro c hc
    obtain ⟨was, below⟩ := inv.placed c hc
    refine ⟨keeps c was, ?_⟩
    change c.stop ≤ a.committedSize.toNat
    rw [watermark]
    exact below
  · rw [threads_setThread]
    split
    · trivial
    · change (s.threads u).Ok a.capacity.toNat s.committedBytes
      rw [capacity]
      exact inv.threads u
  · intro u c hu
    obtain ⟨-, rfl⟩ | ⟨-, hu⟩ := holder u c hu
    · exact ⟨placed, fun d hd => apart d (inv.placed d hd).1⟩
    · obtain ⟨was, others⟩ := inv.held u c hu
      exact ⟨keeps c was, others⟩
  · intro u v c d ne hu hv
    obtain ⟨rfl, rfl⟩ | ⟨-, mine⟩ := holder u c hu
    · obtain ⟨same, -⟩ | ⟨-, theirs⟩ := holder v d hv
      · exact absurd same.symm ne
      · exact apart d (inv.held v d theirs).1
    · obtain ⟨rfl, rfl⟩ | ⟨-, theirs⟩ := holder v d hv
      · exact (apart c (inv.held u c mine).1).symm
      · exact inv.heldApart u v c d ne mine theirs

/-- A thread hands out the block it holds, and may publish a watermark that covers it. -/
theorem Inv.handOut (inv : s.Inv) {watermark : BitVec 64} (held : (s.threads t).held = some b)
    (forward : s.arena.committedSize.toNat ≤ watermark.toNat)
    (below : watermark.toNat ≤ s.arena.capacity.toNat) (covers : b.stop ≤ watermark.toNat)
    (pages : ∀ x, x < watermark.toNat → s.committedBytes x = true) :
    (setThread { s with
      arena := { s.arena with committedSize := watermark }
      blocks := b :: s.blocks } t .idle).Inv := by
  have same : ∀ c, s.arena.Placed c →
      ConcurrentArena.Placed { s.arena with committedSize := watermark } c := fun c hc => hc
  obtain ⟨placed, others⟩ := inv.held t b held
  have holder : ∀ u c, ((setThread { s with
      arena := { s.arena with committedSize := watermark }
      blocks := b :: s.blocks } t .idle).threads u).held = some c →
      u ≠ t ∧ (s.threads u).held = some c := by
    intro u c hu
    rw [threads_setThread] at hu
    split at hu
    · cases hu
    · next other => exact ⟨other, hu⟩
  refine ⟨inv.capacity_le, inv.pool_le, inv.size_le, below, pages, inv.lanes.grow _ _, ?_, ?_,
    fun u => ?_, fun u c hu => ?_, fun u v c d ne hu hv => ?_⟩
  · intro c hc
    rcases List.mem_cons.mp hc with rfl | hc
    · exact ⟨same c placed, covers⟩
    · obtain ⟨was, reach⟩ := inv.placed c hc
      exact ⟨same c was, reach.trans forward⟩
  · exact List.Pairwise.cons others inv.apart
  · rw [threads_setThread]
    split
    · trivial
    · exact inv.threads u
  · obtain ⟨other, mine⟩ := holder u c hu
    obtain ⟨was, apart⟩ := inv.held u c mine
    refine ⟨same c was, fun d hd => ?_⟩
    rcases List.mem_cons.mp hd with rfl | hd
    · exact inv.heldApart u t c d other mine held
    · exact apart d hd
  · exact inv.heldApart u v c d ne (holder u c hu).2 (holder v d hv).2

omit [DecidableEq ι] in
/-- Pages became writable. -/
theorem Inv.pages (inv : s.Inv) (more : Nat → Bool)
    (le : ∀ x, s.committedBytes x = true → more x = true) :
    World.Inv { s with committedBytes := more } :=
  ⟨inv.capacity_le, inv.pool_le, inv.size_le, inv.committed_le,
    fun x hx => le x (inv.committed x hx), inv.lanes, inv.placed, inv.apart,
    fun u => (inv.threads u).mono le, inv.held, inv.heldApart⟩

/-! ## What callers promise -/

/-- What the callers of the arena keep to: an alignment of `alloc` is a power of two; a lane is
used by its owner, for whole units and an alignment that divides the unit; `alloc_exact` takes
only what fits. -/
def promised (e : Event ι 64) (s : World ι 64) : Bool :=
  match e.action with
  | .call (.alloc _ align) => Base.isPowerOfTwo align
  | .call (.allocFrom lane size align) =>
      decide (s.owner lane = e.thread) && size % s.arena.laneUnit == 0 && align != 0 &&
        s.arena.laneUnit % align == 0
  | .call (.allocExact _ _) => true
  | .go _ =>
      match s.threads e.thread with
      | .exactAdd size _ =>
          decide (s.arena.size.toNat + size.toNat ≤ s.arena.capacity.toNat)
      | _ => true

theorem dvd_of_umod_eq_zero {x y : BitVec 64} (h : (x % y == 0) = true) : y.toNat ∣ x.toNat := by
  have zero : x % y = 0 := by simpa using h
  have := congrArg BitVec.toNat zero
  rw [BitVec.toNat_umod] at this
  exact Nat.dvd_of_mod_eq_zero this

/-! ## One step -/

theorem Inv.allocFrom (inv : s.Inv) {lane : Nat} {size align : BitVec 64}
    (whole : s.arena.laneUnit.toNat ∣ size.toNat)
    (h : s.allocFrom t lane size align = some s') : s'.Inv := by
  simp only [World.allocFrom] at h
  split at h
  · cases h
  · next cursor hl =>
      obtain ⟨first, inside, last, unit⟩ := inv.lanes.inside lane cursor hl
      have room : (cursor.laneEnd - cursor.cursor).toNat
          = cursor.laneEnd.toNat - cursor.cursor.toNat := BitVec.toNat_sub_of_le inside
      split at h
      · cases h
        exact inv
      · next fits =>
          cases h
          have fits : size.toNat ≤ cursor.laneEnd.toNat - cursor.cursor.toNat := by
            have := BitVec.not_lt.mp fits
            rw [BitVec.le_def, room] at this
            exact this
          have bound := cursor.laneEnd.isLt
          have moved : (cursor.cursor + size).toNat = cursor.cursor.toNat + size.toNat := by
            rw [BitVec.toNat_add, Nat.mod_eq_of_lt (by omega)]
          have inList := (List.getElem?_eq_some_iff.mp hl).1
          refine inv.take rfl rfl rfl (Nat.le_refl _) inv.size_le ?_ ?_ ?_ ?_
          · refine inv.lanes.moveLane hl rfl rfl ?_ ?_ ?_
            · simp only [moved]
              omega
            · simp only [moved]
              omega
            · simp only [moved]
              exact Nat.dvd_add unit whole
          · intro c hc
            refine hc.moveLane hl rfl ?_
            simp only [moved]
            omega
          · refine ⟨_, List.getElem?_set_self inList, first, ?_⟩
            simp only [moved]
            exact Nat.le_refl _
          · intro c hc
            refine hc.apart_of_lane inv.lanes hl (Nat.le_refl _) ?_
            simp only [Block.stop]
            omega

/-- A take from the shared cursor: the block starts at or above it, and the cursor moves to
the end of the block. -/
theorem Inv.takeShared (inv : s.Inv) {newSize : BitVec 64} (shared : b.source = .shared)
    (above : s.arena.size.toNat ≤ b.start) (moved : newSize.toNat = b.stop)
    (fits : b.stop ≤ s.arena.capacity.toNat) :
    (setThread { s with arena := { s.arena with size := newSize } } t (.commitLoad b)).Inv := by
  have forward : s.arena.size.toNat ≤ newSize.toNat := by
    rw [moved]
    exact above.trans (Nat.le_add_right _ _)
  refine inv.take rfl rfl rfl forward ?_ (inv.lanes.grow _ _) (fun c hc => hc.grow forward) ?_
    (fun c hc => hc.apart_of_size_le inv.lanes inv.pool_le above)
  · change newSize.toNat ≤ s.arena.capacity.toNat
    rw [moved]
    exact fits
  · unfold ConcurrentArena.Placed
    rw [shared]
    exact ⟨inv.pool_le.trans above, Nat.le_of_eq moved.symm⟩

omit [DecidableEq ι] in
/-- What `alloc` computes from the offset it read. -/
theorem Inv.fit (inv : s.Inv) {size align aligned newSize : BitVec 64}
    (power : ∃ k, align.toNat = 2 ^ k)
    (h : s.arena.fit s.arena.size size align = some (aligned, newSize)) :
    Thread.Ok s.arena.capacity.toNat s.committedBytes
      (.allocSwap size align s.arena.size aligned newSize) := by
  obtain ⟨k, hk⟩ := power
  have small := inv.capacity_le
  have low := inv.size_le
  have alignLe : align.toNat ≤ 2 ^ 63 := by
    have := align.isLt
    rw [hk] at this ⊢
    exact Nat.pow_le_pow_right (by decide)
      (Nat.le_of_lt_succ ((Nat.pow_lt_pow_iff_right (by decide)).mp this))
  obtain ⟨rounded, sum, -, room⟩ := ConcurrentArena.fit_bounds ⟨k, hk⟩ (by omega) h
  exact ⟨⟨k, hk⟩, rounded, by omega, sum⟩

omit [DecidableEq ι] in
/-- The end that the code computes for a block it took did not wrap. -/
theorem Inv.toNat_upTo (inv : s.Inv) (placed : s.arena.Placed b) : b.upTo.toNat = b.stop := by
  have stop := (placed.stop_le inv.lanes inv.pool_le).trans inv.size_le
  have small := inv.capacity_le
  simp only [Block.upTo, Block.stop] at stop ⊢
  rw [BitVec.toNat_add, Nat.mod_eq_of_lt (by omega)]

omit [DecidableEq ι] in
theorem Inv.chunkEnd (inv : s.Inv) (placed : s.arena.Placed b)
    (beyond : ¬ b.upTo ≤ s.arena.committedSize) :
    Thread.Ok s.arena.capacity.toNat s.committedBytes
      (.commitPages b s.arena.committedSize (s.arena.chunkEnd b.upTo)) := by
  have stop := (placed.stop_le inv.lanes inv.pool_le).trans inv.size_le
  have reach := inv.toNat_upTo placed
  have past : s.arena.committedSize.toNat < b.upTo.toNat := BitVec.not_le.mp beyond
  have capacity := inv.capacity_le
  obtain ⟨covers, inside⟩ := ConcurrentArena.chunkEnd_bounds (a := s.arena) b.upTo
    (by omega) (by omega)
  exact ⟨by omega, inside, by omega⟩

theorem Inv.start (inv : s.Inv) {c : Call 64} (promise : promised ⟨t, .call c⟩ s = true)
    (h : s.start t c = some s') : s'.Inv := by
  cases c with
  | alloc size align =>
      cases h
      exact inv.settle (Base.isPowerOfTwo_iff.mp promise) (fun b hb => by cases hb)
  | allocFrom lane size align =>
      simp only [promised, Bool.and_eq_true] at promise
      obtain ⟨⟨⟨-, whole⟩, -⟩, -⟩ := promise
      exact inv.allocFrom (dvd_of_umod_eq_zero whole) h
  | allocExact size align =>
      cases h
      exact inv.settle trivial (fun b hb => by cases hb)

theorem Inv.advance (inv : s.Inv) {ok : Bool} (promise : promised ⟨t, .go ok⟩ s = true)
    (h : s.advance t ok = some s') : s'.Inv := by
  have known := inv.threads t
  have holds := inv.held t
  have same : ∀ b, (s.threads t).held = some b → ∀ state : Thread 64, state.held = some b →
      ∀ c, state.held = some c → (s.threads t).held = some c := by
    intro b hb state hstate c hc
    rw [hstate] at hc
    exact hb.trans hc
  have empty : ∀ state : Thread 64, state.held = none →
      ∀ c, state.held = some c → (s.threads t).held = some c := by
    intro state hstate c hc
    rw [hstate] at hc
    cases hc
  cases at_ : s.threads t with
  | idle =>
      simp only [World.advance, at_] at h
      cases h
  | allocLoad size align =>
      simp only [World.advance, at_] at h
      rw [at_] at known
      split at h
      · cases h
        exact inv.settle trivial (empty _ rfl)
      · next aligned newSize hfit =>
          cases h
          exact inv.settle (inv.fit known hfit) (empty _ rfl)
  | allocSwap size align oldSize aligned newSize =>
      simp only [World.advance, at_] at h
      rw [at_] at known
      obtain ⟨⟨k, power⟩, start, fits, stop⟩ := known
      split at h
      · next swapped =>
          cases h
          simp only [Bool.and_eq_true, beq_iff_eq] at swapped
          rw [← swapped.2] at start
          have pos : 0 < align.toNat := by
            rw [power]
            exact Nat.two_pow_pos k
          refine inv.takeShared rfl ?_ stop fits
          change s.arena.size.toNat ≤ aligned.toNat
          rw [start]
          exact le_alignUp pos
      · cases h
        exact inv.settle ⟨k, power⟩ (empty _ rfl)
  | exactAdd size align =>
      simp only [World.advance, at_] at h
      simp only [promised, at_, decide_eq_true_eq] at promise
      cases h
      have small := inv.capacity_le
      refine inv.takeShared rfl (Nat.le_refl _) ?_ promise
      change (s.arena.size + size).toNat = s.arena.size.toNat + size.toNat
      rw [BitVec.toNat_add, Nat.mod_eq_of_lt (by omega)]
  | commitLoad b =>
      simp only [World.advance, at_] at h
      have mine : (s.threads t).held = some b := by rw [at_]; rfl
      obtain ⟨placed, -⟩ := holds b mine
      split at h
      · next covered =>
          cases h
          rw [BitVec.le_def, inv.toNat_upTo placed] at covered
          exact inv.handOut mine (Nat.le_refl _) inv.committed_le covered inv.committed
      · next beyond =>
          cases h
          exact inv.settle (inv.chunkEnd placed beyond) (same b mine _ rfl)
  | commitPages b committed next =>
      simp only [World.advance, at_] at h
      rw [at_] at known
      have mine : (s.threads t).held = some b := by rw [at_]; rfl
      split at h
      · cases h
        have more := inv.pages (fun x =>
          s.committedBytes x || (decide (committed.toNat ≤ x) && decide (x < next.toNat)))
          (fun x hx => by simp [hx])
        obtain ⟨stop, below, forward⟩ := known
        refine more.settle ⟨stop, below, forward, fun x low high => ?_⟩ (same b mine _ rfl)
        simp [low, high]
      · cases h
        exact inv.settle trivial (empty _ rfl)
  | commitSwap b committed next =>
      simp only [World.advance, at_] at h
      rw [at_] at known
      have mine : (s.threads t).held = some b := by rw [at_]; rfl
      obtain ⟨stop, below, forward, pages⟩ := known
      split at h
      · next swapped =>
          cases h
          simp only [Bool.and_eq_true, beq_iff_eq] at swapped
          refine inv.handOut mine (by rw [swapped.2]; exact forward) below stop (fun x hx => ?_)
          by_cases low : x < s.arena.committedSize.toNat
          · exact inv.committed x low
          · exact pages x (by rw [← swapped.2]; omega) hx
      · cases h
        exact inv.settle trivial (same b mine _ rfl)

/-- Every step of every thread preserves the invariant. -/
theorem Inv.step (inv : s.Inv) {e : Event ι 64}
    (h : Schedule.guarded (fun e s => promised e s = true) World.step e s = some s') : s'.Inv := by
  obtain ⟨promise, h⟩ := Schedule.guarded_eq_some.mp h
  obtain ⟨t, action⟩ := e
  cases action with
  | call c =>
      simp only [World.step] at h
      split at h
      · exact inv.start promise h
      · cases h
  | go ok => exact inv.advance promise h

/-! ## Where a block comes from -/

/-- The block was taken: it was handed out, or a thread holds it. -/
def Took (s : World ι 64) (b : Block 64) : Prop :=
  b ∈ s.blocks ∨ ∃ t, (s.threads t).held = some b

/-- The step is the `fetch_add` of an `alloc_exact`, and takes the block. -/
structure TakesExactly (s : World ι 64) (e : Event ι 64) (b : Block 64) : Prop where
  goes : ∃ ok, e.action = .go ok
  adds : s.threads e.thread = .exactAdd b.size b.align
  offset : b.offset = s.arena.size

/-- What is taken when a thread has moved was taken before, or the thread has it now. -/
theorem took_setThread {r : World ι 64} {state : Thread 64}
    (took : (r.setThread t state).Took b) (same : r.threads = s.threads) :
    s.Took b ∨ b ∈ r.blocks ∨ state.held = some b := by
  rcases took with out | ⟨u, held⟩
  · exact Or.inr (Or.inl out)
  · rw [threads_setThread] at held
    split at held
    · exact Or.inr (Or.inr held)
    · rw [same] at held
      exact Or.inl (Or.inr ⟨u, held⟩)

/-- A thread that goes on with what it has takes nothing. -/
theorem took_of_keeps {r : World ι 64} {state : Thread 64}
    (took : (r.setThread t state).Took b) (same : r.threads = s.threads)
    (old : ∀ b ∈ r.blocks, s.Took b)
    (keeps : ∀ b, state.held = some b → (s.threads t).held = some b) : s.Took b := by
  rcases took_setThread took same with before | out | held
  · exact before
  · exact old b out
  · exact Or.inr ⟨t, keeps b held⟩

theorem Inv.origin_start (inv : s.Inv) {c : Call 64} (promise : promised ⟨t, .call c⟩ s = true)
    (h : s.start t c = some s') (took : s'.Took b) : s.Took b ∨ b.align.toNat ∣ b.start := by
  have idle : ∀ state : Thread 64, state.held = none →
      ∀ c, state.held = some c → (s.threads t).held = some c := by
    intro state none_ c held
    rw [none_] at held
    cases held
  cases c with
  | alloc size align =>
      cases h
      exact Or.inl (took_of_keeps took rfl (fun c out => Or.inl out) (idle _ rfl))
  | allocFrom lane size align =>
      simp only [promised, Bool.and_eq_true] at promise
      obtain ⟨-, divides⟩ := promise
      simp only [World.start, World.allocFrom] at h
      split at h
      · cases h
      · next cursor hl =>
          obtain ⟨-, -, -, unit⟩ := inv.lanes.inside lane cursor hl
          split at h <;> cases h
          · exact Or.inl took
          · rcases took_setThread took rfl with before | out | held
            · exact Or.inl before
            · exact Or.inl (Or.inl out)
            · cases held
              exact Or.inr ((dvd_of_umod_eq_zero divides).trans unit)
  | allocExact size align =>
      cases h
      exact Or.inl (took_of_keeps took rfl (fun c out => Or.inl out) (idle _ rfl))

theorem Inv.origin_advance (inv : s.Inv) {ok : Bool} (h : s.advance t ok = some s')
    (took : s'.Took b) :
    s.Took b ∨ b.align.toNat ∣ b.start ∨ s.TakesExactly ⟨t, .go ok⟩ b := by
  have known := inv.threads t
  have out : ∀ c ∈ s.blocks, s.Took c := fun c out => Or.inl out
  have empty : ∀ state : Thread 64, state.held = none →
      ∀ c, state.held = some c → (s.threads t).held = some c := by
    intro state none_ c held
    rw [none_] at held
    cases held
  have same : ∀ c, (s.threads t).held = some c → ∀ state : Thread 64, state.held = some c →
      ∀ d, state.held = some d → (s.threads t).held = some d := by
    intro c mine state held d other
    rw [held] at other
    exact mine.trans other
  cases at_ : s.threads t with
  | idle =>
      simp only [World.advance, at_] at h
      cases h
  | allocLoad size align =>
      simp only [World.advance, at_] at h
      split at h <;> cases h
      · exact Or.inl (took_of_keeps took rfl out (empty _ rfl))
      · exact Or.inl (took_of_keeps took rfl out (empty _ rfl))
  | allocSwap size align oldSize aligned newSize =>
      simp only [World.advance, at_] at h
      rw [at_] at known
      obtain ⟨-, start, -⟩ := known
      split at h <;> cases h
      · rcases took_setThread took rfl with before | handed | held
        · exact Or.inl before
        · exact Or.inl (Or.inl handed)
        · cases held
          refine Or.inr (Or.inl ?_)
          change align.toNat ∣ aligned.toNat
          rw [start]
          exact dvd_alignUp _ _
      · exact Or.inl (took_of_keeps took rfl out (empty _ rfl))
  | exactAdd size align =>
      simp only [World.advance, at_] at h
      cases h
      rcases took_setThread took rfl with before | handed | held
      · exact Or.inl before
      · exact Or.inl (Or.inl handed)
      · cases held
        exact Or.inr (Or.inr ⟨⟨ok, rfl⟩, at_, rfl⟩)
  | commitLoad c =>
      have mine : (s.threads t).held = some c := by rw [at_]; rfl
      simp only [World.advance, at_] at h
      split at h <;> cases h
      · refine Or.inl (took_of_keeps took rfl (fun d handed => ?_) (empty _ rfl))
        rcases List.mem_cons.mp handed with rfl | handed
        · exact Or.inr ⟨t, mine⟩
        · exact Or.inl handed
      · exact Or.inl (took_of_keeps took rfl out (same c mine _ rfl))
  | commitPages c committed next =>
      have mine : (s.threads t).held = some c := by rw [at_]; rfl
      simp only [World.advance, at_] at h
      split at h <;> cases h
      · exact Or.inl (took_of_keeps took rfl out (same c mine _ rfl))
      · exact Or.inl (took_of_keeps took rfl out (empty _ rfl))
  | commitSwap c committed next =>
      have mine : (s.threads t).held = some c := by rw [at_]; rfl
      simp only [World.advance, at_] at h
      split at h <;> cases h
      · refine Or.inl (took_of_keeps took rfl (fun d handed => ?_) (empty _ rfl))
        rcases List.mem_cons.mp handed with rfl | handed
        · exact Or.inr ⟨t, mine⟩
        · exact Or.inl handed
      · exact Or.inl (took_of_keeps took rfl out (same c mine _ rfl))

/-- A block that a step takes is at a multiple of its alignment, or the step is that of an
`alloc_exact`. -/
theorem Inv.origin (inv : s.Inv) {e : Event ι 64}
    (h : Schedule.guarded (fun e s => promised e s = true) World.step e s = some s')
    (took : s'.Took b) : s.Took b ∨ b.align.toNat ∣ b.start ∨ s.TakesExactly e b := by
  obtain ⟨promise, h⟩ := Schedule.guarded_eq_some.mp h
  obtain ⟨t, action⟩ := e
  cases action with
  | call c =>
      simp only [World.step] at h
      split at h
      · exact (inv.origin_start promise h took).imp_right Or.inl
      · cases h
  | go ok => exact inv.origin_advance h took

/-- A thread inside an `alloc` goes on with it, gets nothing, or gets a block of the size and
alignment it asked for; the other threads stand where they stood. -/
theorem advance_serving {ok : Bool} {size align : BitVec 64}
    (serving : (s.threads t).Serving size align) (h : s.advance t ok = some s') :
    (∀ u, u ≠ t → s'.threads u = s.threads u) ∧ s'.arena.capacity = s.arena.capacity ∧
      ((s'.blocks = s.blocks ∧ ((s'.threads t).Serving size align ∨ s'.threads t = .idle)) ∨
        ∃ b, s'.blocks = b :: s.blocks ∧ s'.threads t = .idle ∧ b.size = size ∧
          b.align = align) := by
  have frame : ∀ (r : World ι 64) (state : Thread 64), r.threads = s.threads →
      ∀ u, u ≠ t → (r.setThread t state).threads u = s.threads u := by
    intro r state same u other
    rw [threads_setThread, if_neg other, same]
  have here : ∀ (r : World ι 64) (state : Thread 64), (r.setThread t state).threads t = state := by
    intro r state
    rw [threads_setThread, if_pos rfl]
  cases at_ : s.threads t with
  | idle =>
      rw [at_] at serving
      exact serving.elim
  | allocLoad n a =>
      rw [at_] at serving
      simp only [World.advance, at_] at h
      split at h
      · cases h
        exact ⟨frame s _ rfl, rfl, Or.inl ⟨rfl, Or.inr (here _ _)⟩⟩
      · cases h
        exact ⟨frame s _ rfl, rfl, Or.inl ⟨rfl, Or.inl (by rw [here]; exact serving)⟩⟩
  | allocSwap n a oldSize aligned newSize =>
      rw [at_] at serving
      simp only [World.advance, at_] at h
      split at h
      · cases h
        exact ⟨frame _ _ rfl, rfl, Or.inl ⟨rfl, Or.inl (by rw [here]; exact serving)⟩⟩
      · cases h
        exact ⟨frame s _ rfl, rfl, Or.inl ⟨rfl, Or.inl (by rw [here]; exact serving)⟩⟩
  | exactAdd n a =>
      rw [at_] at serving
      exact serving.elim
  | commitLoad b =>
      rw [at_] at serving
      simp only [World.advance, at_] at h
      split at h
      · cases h
        exact ⟨frame _ _ rfl, rfl, Or.inr ⟨b, rfl, here _ _, serving⟩⟩
      · cases h
        exact ⟨frame s _ rfl, rfl, Or.inl ⟨rfl, Or.inl (by rw [here]; exact serving)⟩⟩
  | commitPages b committed next =>
      rw [at_] at serving
      simp only [World.advance, at_] at h
      split at h
      · cases h
        exact ⟨frame _ _ rfl, rfl, Or.inl ⟨rfl, Or.inl (by rw [here]; exact serving)⟩⟩
      · cases h
        exact ⟨frame s _ rfl, rfl, Or.inl ⟨rfl, Or.inr (here _ _)⟩⟩
  | commitSwap b committed next =>
      rw [at_] at serving
      simp only [World.advance, at_] at h
      split at h
      · cases h
        exact ⟨frame _ _ rfl, rfl, Or.inr ⟨b, rfl, here _ _, serving⟩⟩
      · cases h
        exact ⟨frame s _ rfl, rfl, Or.inl ⟨rfl, Or.inl (by rw [here]; exact serving)⟩⟩

/-- A thread inside an `alloc` has nothing left to promise. -/
theorem promised_of_serving {ok : Bool} {size align : BitVec 64}
    (serving : (s.threads t).Serving size align) : promised ⟨t, .go ok⟩ s = true := by
  cases at_ : s.threads t with
  | exactAdd n a =>
      rw [at_] at serving
      exact serving.elim
  | _ => simp [promised, at_]

/-- The case analysis of a caller on the outcome of its `alloc`. -/
theorem outcome_cases {size align : BitVec 64} (serving : (s.threads t).Serving size align)
    {ok : Bool} (h : s.advance t ok = some s') :
    (s.outcome s' t = .pending ∧ s'.blocks = s.blocks ∧ (s'.threads t).Serving size align) ∨
      s.outcome s' t = .null ∨
      ∃ b, s.outcome s' t = .block b ∧ s'.blocks = b :: s.blocks ∧ s'.threads t = .idle ∧
        b.size = size := by
  obtain ⟨-, -, ⟨blocks, serves | idle⟩ | ⟨b, blocks, idle, hsize, -⟩⟩ := advance_serving serving h
  · refine Or.inl ⟨?_, blocks, serves⟩
    have busy : s'.threads t ≠ .idle := by
      intro idle
      rw [idle] at serves
      exact serves
    simp only [outcome, if_neg busy]
  · refine Or.inr (Or.inl ?_)
    simp only [outcome, if_pos idle, blocks, if_pos]
  · refine Or.inr (Or.inr ⟨b, ?_, blocks, idle, hsize⟩)
    simp [outcome, idle, blocks]

end World

/-! ## The arena before its first allocation -/

/-- The arguments of `set_lanes`. -/
structure Division : Type where
  lanes : BitVec 64
  unit : BitVec 64
  poolBytes : BitVec 64

/-- There is a lane, it holds something, and cutting the room does not overflow. -/
structure Division.Fits (capacity : BitVec 64) (d : Division) : Prop where
  lanes_pos : 0 < d.lanes.toNat
  unit_pos : 0 < d.unit.toNat
  product : capacity.toNat * d.lanes.toNat < 2 ^ 64

namespace ConcurrentArena

/-- A reservation, divided or not. -/
def prepared (capacity : BitVec 64) : Option Division → ConcurrentArena 64
  | none => (fresh 64).reserve capacity
  | some d => ((fresh 64).reserve capacity).setLanes d.lanes d.unit d.poolBytes

section Cuts

variable {w : Nat}

theorem toNat_whole (x unit : BitVec w) :
    (x / unit * unit).toNat = x.toNat / unit.toNat * unit.toNat := by
  rw [BitVec.toNat_mul, BitVec.toNat_udiv, Nat.mod_eq_of_lt]
  exact (Nat.div_mul_le_self _ _).trans_lt x.isLt

theorem toNat_cut {laneRoom lanes unit : BitVec w} {i : Nat} (le : i ≤ lanes.toNat)
    (product : laneRoom.toNat * lanes.toNat < 2 ^ w) :
    (cut laneRoom lanes unit i).toNat
      = laneRoom.toNat * i / lanes.toNat / unit.toNat * unit.toNat := by
  have small : laneRoom.toNat * i < 2 ^ w := (Nat.mul_le_mul_left _ le).trans_lt product
  have index : (BitVec.ofNat w i).toNat = i := by
    rw [BitVec.toNat_ofNat, Nat.mod_eq_of_lt (le.trans_lt lanes.isLt)]
  rw [cut, toNat_whole, BitVec.toNat_udiv, BitVec.toNat_mul, index, Nat.mod_eq_of_lt small]

theorem cut_mono {laneRoom lanes unit : BitVec w} {i j : Nat} (lt : i ≤ j)
    (le : j ≤ lanes.toNat) (product : laneRoom.toNat * lanes.toNat < 2 ^ w) :
    (cut laneRoom lanes unit i).toNat ≤ (cut laneRoom lanes unit j).toNat := by
  rw [toNat_cut (lt.trans le) product, toNat_cut le product]
  exact Nat.mul_le_mul_right _ (Nat.div_le_div_right (Nat.div_le_div_right
    (Nat.mul_le_mul_left _ lt)))

theorem cut_le {laneRoom lanes unit : BitVec w} {i : Nat} (le : i ≤ lanes.toNat)
    (pos : 0 < lanes.toNat) (product : laneRoom.toNat * lanes.toNat < 2 ^ w) :
    (cut laneRoom lanes unit i).toNat ≤ laneRoom.toNat := by
  rw [toNat_cut le product]
  calc laneRoom.toNat * i / lanes.toNat / unit.toNat * unit.toNat
      ≤ laneRoom.toNat * i / lanes.toNat := Nat.div_mul_le_self _ _
    _ ≤ laneRoom.toNat * lanes.toNat / lanes.toNat :=
        Nat.div_le_div_right (Nat.mul_le_mul_left _ le)
    _ = laneRoom.toNat := Nat.mul_div_cancel _ pos

theorem toNat_clip {first last : BitVec w} (le : first.toNat ≤ last.toNat) :
    (if last > first then last else first).toNat = last.toNat := by
  split
  · rfl
  · next back => exact Nat.le_antisymm le (BitVec.not_lt.mp back)

end Cuts

/-- `set_lanes` cuts consecutive slices of whole units out of the room below the pool. -/
theorem lanesOk_setLanes {a : ConcurrentArena 64} {d : Division} (fits : d.Fits a.capacity) :
    (a.setLanes d.lanes d.unit d.poolBytes).LanesOk ∧
      (a.setLanes d.lanes d.unit d.poolBytes).poolBegin.toNat ≤ a.capacity.toNat := by
  obtain ⟨lanesPos, unitPos, product⟩ := fits
  generalize hroom : (a.setLanes d.lanes d.unit d.poolBytes).poolBegin = room
  have roomLe : room.toNat ≤ a.capacity.toNat := by
    have pool : ((if d.poolBytes > a.capacity then a.capacity else d.poolBytes) / d.unit
        * d.unit).toNat ≤ a.capacity.toNat := by
      rw [toNat_whole]
      refine (Nat.div_mul_le_self _ _).trans ?_
      split
      · exact Nat.le_refl _
      · next small => exact BitVec.not_lt.mp small
    rw [← hroom]
    simp only [setLanes]
    rw [toNat_whole]
    refine (Nat.div_mul_le_self _ _).trans ?_
    rw [BitVec.toNat_sub_of_le pool]
    exact Nat.sub_le _ _
  have product : room.toNat * d.lanes.toNat < 2 ^ 64 :=
    (Nat.mul_le_mul_right _ roomLe).trans_lt product
  have lane : ∀ (i : Nat) (l : Lane 64),
      (a.setLanes d.lanes d.unit d.poolBytes).lanes[i]? = some l →
      i + 1 ≤ d.lanes.toNat ∧ l.laneBegin = cut room d.lanes d.unit i ∧ l.cursor = l.laneBegin ∧
        l.laneEnd.toNat = (cut room d.lanes d.unit (i + 1)).toNat := by
    intro i l hl
    rw [← hroom]
    simp only [setLanes, List.getElem?_map, Option.map_eq_some_iff] at hl ⊢
    obtain ⟨j, hj, rfl⟩ := hl
    obtain ⟨inside, rfl⟩ := List.getElem?_eq_some_iff.mp hj
    rw [List.length_range] at inside
    rw [List.getElem_range]
    rw [← hroom] at product
    exact ⟨inside, rfl, rfl, toNat_clip (cut_mono (Nat.le_succ i) inside product)⟩
  refine ⟨⟨fun i l hl => ?_, fun i j l m lt hl hm => ?_⟩, roomLe⟩
  · obtain ⟨inside, first, cursor, last⟩ := lane i l hl
    rw [cursor, first, last, hroom]
    refine ⟨Nat.le_refl _, cut_mono (Nat.le_succ i) inside product,
      cut_le inside lanesPos product, ?_⟩
    rw [toNat_cut (Nat.le_of_succ_le inside) product]
    exact Nat.dvd_mul_left _ _
  · obtain ⟨-, -, -, last⟩ := lane i l hl
    obtain ⟨inside, first, -, -⟩ := lane j m hm
    rw [last, first]
    exact cut_mono lt (Nat.le_of_succ_le inside) product

end ConcurrentArena

namespace World

theorem inv_initial {capacity : BitVec 64} (small : capacity.toNat ≤ 2 ^ 63)
    {division : Option Division} (fits : ∀ d ∈ division, d.Fits capacity) (owner : Nat → ι) :
    (initial (ConcurrentArena.prepared capacity division) owner).Inv := by
  have rest : ∀ a : ConcurrentArena 64, a.capacity = capacity → a.size = a.poolBegin →
      a.committedSize = 0 → a.poolBegin.toNat ≤ capacity.toNat → a.LanesOk →
      (initial a owner).Inv := by
    intro a hcapacity hsize hcommitted hpool lanes
    refine ⟨?_, ?_, ?_, ?_, ?_, lanes, (fun b hb => by cases hb), List.Pairwise.nil,
      fun t => trivial, (fun t b hb => by cases hb), (fun t u b c ne hb => by cases hb)⟩
    · simpa only [initial, hcapacity] using small
    · simp only [initial, hsize, Nat.le_refl]
    · simpa only [initial, hcapacity, hsize] using hpool
    · simp [initial, hcommitted]
    · intro x hx
      simp [initial, hcommitted] at hx
  cases division with
  | none =>
      refine rest _ rfl rfl rfl (Nat.zero_le _) ⟨fun i l hl => ?_, fun i j l m lt hl => ?_⟩
      · simp [ConcurrentArena.prepared, ConcurrentArena.reserve, ConcurrentArena.fresh] at hl
      · simp [ConcurrentArena.prepared, ConcurrentArena.reserve, ConcurrentArena.fresh] at hl
  | some d =>
      obtain ⟨lanes, pool⟩ := ConcurrentArena.lanesOk_setLanes
        (a := (ConcurrentArena.fresh 64).reserve capacity) (fits d rfl)
      exact rest _ rfl rfl rfl pool lanes

/-! ## Whole runs -/

/-- What the arena promises at any moment about the blocks it has handed out, but for their
alignment: each lies inside the reservation, no two of them meet, and all of them lie below the
watermark, under which every byte was committed. -/
structure Sound (s : World ι 64) : Prop where
  inside : ∀ b ∈ s.blocks, b.stop ≤ s.arena.capacity.toNat
  apart : s.blocks.Pairwise Block.Apart
  covered : ∀ b ∈ s.blocks, b.stop ≤ s.arena.committedSize.toNat
  committed : ∀ x, x < s.arena.committedSize.toNat → s.committedBytes x = true

/-- The same, with every block at a multiple of its alignment. -/
structure Safe (s : World ι 64) : Prop extends s.Sound where
  aligned : ∀ b ∈ s.blocks, b.align.toNat ∣ b.start

theorem Inv.sound {s : World ι 64} (inv : s.Inv) : s.Sound :=
  ⟨fun b hb => (inv.placed b hb).2.trans inv.committed_le, inv.apart,
    fun b hb => (inv.placed b hb).2, inv.committed⟩

variable [DecidableEq ι] {s s' : World ι 64}

/-- The machine of the threads that keep their side of the bargain. -/
abbrev machine : Event ι 64 → World ι 64 → Option (World ι 64) :=
  Schedule.guarded (fun e s => promised e s = true) World.step

end World

end Fpag.Mem
