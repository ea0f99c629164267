import Fpag.Mem.Arena

/-!
`Arena` and `ConcurrentArena` side by side, for one thread.

Both are given the same requests, each with commit answers of its own. `Both.fine` is what a
request must be like for the two to agree and to be safe: the rounding of the cursor does not
wrap, `Arena` does not take an offset behind its capacity for one with room (its comparison is a
subtraction that wraps there), no commit fails that `Arena` needs for a block that is not empty
(it returns the block all the same), and the end of a block can be rounded to a commit chunk.
`both_agree` is about every sequence of such requests.
-/

namespace Fpag.Mem

open Schedule

/-! ## What is safe -/

/-- The blocks of an arena lie below its cursor, apart from each other and in committed pages. -/
structure Safe (capacity size committedSize : Nat) (blocks : List (Block 64))
    (committedBytes : Nat → Bool) : Prop where
  size_le : size ≤ capacity
  committed_le : committedSize ≤ capacity
  committed : ∀ x, x < committedSize → committedBytes x = true
  inside : ∀ b ∈ blocks, b.stop ≤ size
  filled : ∀ b ∈ blocks, ∀ x, b.start ≤ x → x < b.stop → committedBytes x = true
  apart : blocks.Pairwise Block.Apart

namespace Safe

variable {capacity size size' committedSize committedSize' : Nat} {blocks : List (Block 64)}
  {committedBytes committedBytes' : Nat → Bool} {b : Block 64}

theorem empty (capacity : Nat) (committedBytes : Nat → Bool) :
    Safe capacity 0 0 [] committedBytes where
  size_le := Nat.zero_le _
  committed_le := Nat.zero_le _
  committed := fun x low => absurd low (Nat.not_lt_zero x)
  inside := fun _ member => absurd member List.not_mem_nil
  filled := fun _ member => absurd member List.not_mem_nil
  apart := .nil

/-- The cursor moves on, and more is committed. -/
theorem grow (safe : Safe capacity size committedSize blocks committedBytes)
    (le : size ≤ size') (room : size' ≤ capacity) (committed_le : committedSize' ≤ capacity)
    (grows : ∀ x, committedBytes x = true → committedBytes' x = true)
    (committed : ∀ x, x < committedSize' → committedBytes' x = true) :
    Safe capacity size' committedSize' blocks committedBytes' where
  size_le := room
  committed_le := committed_le
  committed := committed
  inside := fun b member => (safe.inside b member).trans le
  filled := fun b member x low high => grows x (safe.filled b member x low high)
  apart := safe.apart

/-- A block above the cursor is handed out. -/
theorem push (safe : Safe capacity size committedSize blocks committedBytes)
    (above : size ≤ b.start) (room : b.stop ≤ capacity) (committed_le : committedSize' ≤ capacity)
    (grows : ∀ x, committedBytes x = true → committedBytes' x = true)
    (committed : ∀ x, x < committedSize' → committedBytes' x = true)
    (filled : ∀ x, b.start ≤ x → x < b.stop → committedBytes' x = true) :
    Safe capacity b.stop committedSize' (b :: blocks) committedBytes' := by
  have grown := safe.grow (above.trans (Nat.le_add_right _ _)) room committed_le grows committed
  refine ⟨grown.size_le, grown.committed_le, grown.committed, ?_, ?_, ?_⟩
  · exact List.forall_mem_cons.mpr ⟨Nat.le_refl _, grown.inside⟩
  · exact List.forall_mem_cons.mpr ⟨filled, grown.filled⟩
  · exact List.pairwise_cons.mpr
      ⟨fun c member => .inr ((safe.inside c member).trans above), safe.apart⟩

end Safe

/-! ## Requests -/

/-- A request, and what the environment answers the two arenas. -/
structure Request : Type where
  size : BitVec 64
  align : BitVec 64
  power : ∃ k, align.toNat = 2 ^ k
  ok : Bool
  answers : List Bool

/-- The arenas, what they have returned, and whether a commit has failed. -/
structure Both : Type where
  own : ArenaWorld 64
  shared : World Unit 64
  results : List (Option (BitVec 64) × Option (BitVec 64)) := []
  failed : Bool := false

/-- A request makes `Arena` call `commit_pages`. -/
def ArenaWorld.commits (s : ArenaWorld 64) (size align : BitVec 64) : Bool :=
  let currentOffset := Base.roundUp s.arena.size align
  decide (size ≤ s.arena.capacity - currentOffset) &&
    decide (s.arena.committedSize < currentOffset + size)

/-- What `ConcurrentArena::alloc` has returned. -/
def returned (s s' : World Unit 64) : Option (BitVec 64) :=
  match World.outcome s s' () with
  | .block b => some b.offset
  | _ => none

namespace Both

/-- Two arenas that have reserved their pages. -/
def initial (capacity : BitVec 64) : Both where
  own := { arena := { capacity := capacity } }
  shared := .initial ((ConcurrentArena.fresh 64).reserve capacity) fun _ => ()

def step (pageSize : BitVec 64) (r : Request) (s : Both) : Option Both :=
  (s.shared.alloc r.size r.align r.answers).map fun shared =>
    { own := (s.own.alloc pageSize r.size r.align r.ok).2
      shared := shared.1
      results := ((s.own.alloc pageSize r.size r.align r.ok).1, returned s.shared shared.1) ::
        s.results
      failed := s.failed || (s.own.commits r.size r.align && !r.ok) || shared.2 }

/-- The condition on a request in a state. -/
def fine (r : Request) (s : Both) : Bool :=
  let aligned := Base.roundUp s.own.arena.size r.align
  decide (s.own.arena.size.toNat + (r.align.toNat - 1) < 2 ^ 64) &&
    decide (s.shared.arena.size.toNat + (r.align.toNat - 1) < 2 ^ 64) &&
    (decide (aligned ≤ s.own.arena.capacity) || decide (s.own.arena.capacity - aligned < r.size)) &&
    (r.ok || r.size == 0 || !s.own.commits r.size r.align) &&
    match s.shared.arena.fit s.shared.arena.size r.size r.align with
    | none => true
    | some place => decide (place.2.toNat + 2 ^ 18 ≤ 2 ^ 64)

/-- The two are the same allocator, as long as no commit has failed, and both are safe. -/
structure Agree (s : Both) : Prop where
  results : s.failed = false → ∀ result ∈ s.results, result.1 = result.2
  own : Safe s.own.arena.capacity.toNat s.own.arena.size.toNat s.own.arena.committedSize.toNat
    s.own.blocks s.own.committedBytes
  shared : Safe s.shared.arena.capacity.toNat s.shared.arena.size.toNat
    s.shared.arena.committedSize.toNat s.shared.blocks s.shared.committedBytes

/-- What every request keeps. -/
structure Inv (capacity : BitVec 64) (s : Both) : Prop where
  agree : s.Agree
  ownCapacity : s.own.arena.capacity = capacity
  sharedCapacity : s.shared.arena.capacity = capacity
  sameSize : s.failed = false → s.own.arena.size = s.shared.arena.size

end Both

/-! ## Each arena by itself -/

section Own

variable {s : ArenaWorld 64} {pageSize size align : BitVec 64} {ok : Bool}

/-- The watermark of `Arena` reaches behind the block and stays within the capacity. -/
theorem targetEnd_bounds {k : Nat} (page : pageSize.toNat = 2 ^ k)
    (whole : pageSize.toNat ∣ s.arena.capacity.toNat) {endOffset : BitVec 64}
    (room : endOffset.toNat ≤ s.arena.capacity.toNat) :
    endOffset.toNat ≤ (s.targetEnd pageSize endOffset).toNat ∧
      (s.targetEnd pageSize endOffset).toNat ≤ s.arena.capacity.toNat := by
  have pos : 0 < pageSize.toNat := by
    rw [page]
    exact Nat.two_pow_pos k
  have small : k ≤ 64 := by
    by_contra large
    have := Nat.pow_lt_pow_right (Nat.one_lt_two) (Nat.not_le.mp large)
    have := pageSize.isLt
    omega
  -- The capacity is at most a page below the end of the words.
  have fits : s.arena.capacity.toNat + pageSize.toNat ≤ 2 ^ 64 := by
    obtain ⟨m, hm⟩ := whole
    obtain ⟨n, hn⟩ : pageSize.toNat ∣ 2 ^ 64 := by
      rw [page]
      exact Nat.pow_dvd_pow 2 small
    have lt := s.arena.capacity.isLt
    rw [hm, hn] at lt
    have less : m + 1 ≤ n := Nat.lt_of_mul_lt_mul_left lt
    calc s.arena.capacity.toNat + pageSize.toNat
        = pageSize.toNat * (m + 1) := by rw [hm, Nat.mul_succ]
      _ ≤ pageSize.toNat * n := Nat.mul_le_mul_left _ less
      _ = 2 ^ 64 := hn.symm
  have rounded : (Base.roundUp endOffset pageSize).toNat = alignUp endOffset.toNat pageSize.toNat :=
    Base.toNat_roundUp page (by omega)
  have ge := @le_alignUp endOffset.toNat pageSize.toNat pos
  rw [ArenaWorld.targetEnd]
  split
  · exact ⟨room, Nat.le_refl _⟩
  · next inside =>
      have le := BitVec.not_lt.mp inside
      rw [BitVec.le_def] at le
      rw [rounded] at le ⊢
      exact ⟨ge, le⟩

/-- What `commit_until` leaves: everything below the watermark is committed, and the watermark is
behind the block unless the commit has failed. -/
theorem commitUntil_safe {k : Nat} (page : pageSize.toNat = 2 ^ k)
    (whole : pageSize.toNat ∣ s.arena.capacity.toNat)
    (safe : Safe s.arena.capacity.toNat s.arena.size.toNat s.arena.committedSize.toNat s.blocks
      s.committedBytes)
    {endOffset : BitVec 64} (room : endOffset.toNat ≤ s.arena.capacity.toNat) :
    let s' := s.commitUntil pageSize endOffset ok
    s'.arena.capacity = s.arena.capacity ∧ s'.blocks = s.blocks ∧
      s'.arena.committedSize.toNat ≤ s.arena.capacity.toNat ∧
      (∀ x, s.committedBytes x = true → s'.committedBytes x = true) ∧
      (∀ x, x < s'.arena.committedSize.toNat → s'.committedBytes x = true) ∧
      (ok = true ∨ endOffset ≤ s.arena.committedSize →
        endOffset.toNat ≤ s'.arena.committedSize.toNat) := by
  obtain ⟨reaches, clipped⟩ := targetEnd_bounds page whole room
  rw [ArenaWorld.commitUntil]
  split
  · next enough => exact ⟨rfl, rfl, safe.committed_le, fun _ => id, safe.committed, fun _ => enough⟩
  · next short =>
      cases ok with
      | false =>
          refine ⟨rfl, rfl, safe.committed_le, fun _ => id, safe.committed, ?_⟩
          rintro (⟨⟨⟩⟩ | enough)
          exact absurd enough short
      | true =>
          refine ⟨rfl, rfl, clipped, fun x committed => ?_, fun x low => ?_, fun _ => reaches⟩
          · simp only [if_true, committed, Bool.true_or]
          · by_cases before : x < s.arena.committedSize.toNat
            · simp only [if_true, safe.committed x before, Bool.true_or]
            · have low' : x < (s.targetEnd pageSize endOffset).toNat := low
              simp only [if_true, Nat.not_lt.mp before, low', decide_true, Bool.and_self,
                Bool.or_true]

/-- `Arena::alloc` on a request that is fine. -/
theorem own_alloc {k : Nat} (page : pageSize.toNat = 2 ^ k)
    (whole : pageSize.toNat ∣ s.arena.capacity.toNat)
    (safe : Safe s.arena.capacity.toNat s.arena.size.toNat s.arena.committedSize.toNat s.blocks
      s.committedBytes)
    (power : ∃ k, align.toNat = 2 ^ k) (rounds : s.arena.size.toNat + (align.toNat - 1) < 2 ^ 64)
    (compares : Base.roundUp s.arena.size align ≤ s.arena.capacity ∨
      s.arena.capacity - Base.roundUp s.arena.size align < size)
    (commits : ok = true ∨ size = 0 ∨ s.commits size align = false) :
    let s' := (s.alloc pageSize size align ok).2
    s'.arena.capacity = s.arena.capacity ∧
      Safe s'.arena.capacity.toNat s'.arena.size.toNat s'.arena.committedSize.toNat s'.blocks
        s'.committedBytes := by
  obtain ⟨j, align_eq⟩ := power
  have pos : 0 < align.toNat := by
    rw [align_eq]
    exact Nat.two_pow_pos j
  rw [ArenaWorld.alloc]
  simp only []
  split
  · exact ⟨rfl, safe⟩
  next fits =>
  have le : Base.roundUp s.arena.size align ≤ s.arena.capacity :=
    compares.resolve_right fits
  have rounded : (Base.roundUp s.arena.size align).toNat =
      alignUp s.arena.size.toNat align.toNat := Base.toNat_roundUp align_eq rounds
  have above := @le_alignUp s.arena.size.toNat align.toNat pos
  have leNat : (Base.roundUp s.arena.size align).toNat ≤ s.arena.capacity.toNat := le
  have fitsNat : size.toNat ≤ s.arena.capacity.toNat - (Base.roundUp s.arena.size align).toNat := by
    have := BitVec.le_def.mp (BitVec.not_lt.mp fits)
    rwa [BitVec.toNat_sub_of_le le] at this
  have capacity := s.arena.capacity.isLt
  have next : (Base.roundUp s.arena.size align + size).toNat =
      (Base.roundUp s.arena.size align).toNat + size.toNat := by
    rw [BitVec.toNat_add, Nat.mod_eq_of_lt (by omega)]
  have room : (Base.roundUp s.arena.size align + size).toNat ≤ s.arena.capacity.toNat := by omega
  obtain ⟨capacity', blocks', committed_le, grows, committed, reaches⟩ :=
    @commitUntil_safe s pageSize ok k page whole safe _ room
  refine ⟨capacity', ?_⟩
  simp only [capacity', blocks', next]
  refine @Safe.push _ _ _ _ _ _ _ ⟨.shared, Base.roundUp s.arena.size align, size, align⟩ safe ?_ ?_
    committed_le grows committed fun x low high => committed x ?_
  · simp only [Block.start]
    omega
  · simp only [Block.stop]
    omega
  · simp only [Block.start, Block.stop] at low high
    have enough : ok = true ∨ Base.roundUp s.arena.size align + size ≤ s.arena.committedSize := by
      rcases commits with ok | zero | calm
      · exact .inl ok
      · have none : size.toNat = 0 := by
          rw [zero]
          rfl
        omega
      · right
        simp only [ArenaWorld.commits, Bool.and_eq_false_iff, decide_eq_false_iff_not] at calm
        rcases calm with refused | enough
        · exact absurd (BitVec.not_lt.mp fits) refused
        · exact BitVec.not_lt.mp enough
    have := reaches enough
    omega

end Own

section Shared

variable {s s' : World Unit 64} {size align : BitVec 64} {answers : List Bool} {failed : Bool}

/-- `ConcurrentArena::alloc` on a request that is fine. -/
theorem shared_alloc
    (safe : Safe s.arena.capacity.toNat s.arena.size.toNat s.arena.committedSize.toNat s.blocks
      s.committedBytes)
    (power : ∃ k, align.toNat = 2 ^ k) (rounds : s.arena.size.toNat + (align.toNat - 1) < 2 ^ 64)
    (chunk : ∀ place, s.arena.fit s.arena.size size align = some place →
      place.2.toNat + 2 ^ 18 ≤ 2 ^ 64)
    (served : World.Served s size align s' failed) :
    s'.arena.capacity = s.arena.capacity ∧
      Safe s'.arena.capacity.toNat s'.arena.size.toNat s'.arena.committedSize.toNat s'.blocks
        s'.committedBytes := by
  cases served with
  | refused full arena blocks bytes =>
      rw [arena, blocks, bytes]
      exact ⟨rfl, safe⟩
  | @taken aligned newSize _ moved fits arena blocks bytes committed grows =>
      obtain ⟨rounded, next, sum, room⟩ := ConcurrentArena.fit_bounds power rounds fits
      have above : s.arena.size.toNat ≤ aligned.toNat := by
        obtain ⟨k, align_eq⟩ := power
        rw [rounded]
        exact le_alignUp (by rw [align_eq]; exact Nat.two_pow_pos k)
      have small : newSize.toNat + 2 ^ 18 ≤ 2 ^ 64 := chunk _ fits
      have grows' : ∀ x, s.committedBytes x = true → s'.committedBytes x = true := by
        rw [← bytes]
        exact grows
      have stop : Block.stop ⟨.shared, aligned, size, align⟩ = newSize.toNat := next.symm
      cases committed with
      | failed arena' blocks' =>
          rw [arena', blocks', arena, blocks]
          exact ⟨rfl, safe.grow (by dsimp only; omega) room safe.committed_le grows'
            fun x low => grows' x (safe.committed x low)⟩
      | before enough arena' blocks' =>
          rw [arena', blocks', arena, blocks]
          have committed : ∀ x, x < s.arena.committedSize.toNat → s'.committedBytes x = true :=
            fun x low => grows' x (safe.committed x low)
          rw [arena] at enough
          have enoughNat : newSize.toNat ≤ s.arena.committedSize.toNat := by
            rw [Block.upTo, sum] at enough
            exact enough
          refine ⟨rfl, ?_⟩
          dsimp only
          rw [← stop]
          exact safe.push above (stop ▸ room) safe.committed_le grows' committed
            fun x low high => committed x (by omega)
      | now short arena' blocks' bytes' =>
          rw [arena', blocks', blocks]
          simp only [Block.upTo, sum, arena] at bytes' ⊢
          obtain ⟨reaches, clipped⟩ := @ConcurrentArena.chunkEnd_bounds
            { s.arena with size := newSize } newSize small room
          have committed : ∀ x, x < (ConcurrentArena.chunkEnd { s.arena with size := newSize }
              newSize).toNat → s'.committedBytes x = true := by
            intro x low
            by_cases before : x < s.arena.committedSize.toNat
            · exact grows' x (safe.committed x before)
            · exact bytes' x (Nat.not_lt.mp before) low
          refine ⟨trivial, ?_⟩
          rw [← stop]
          exact safe.push above (stop ▸ room) clipped grows' committed
            fun x low high => committed x (by omega)

theorem returned_none (idle : s'.threads () = .idle) (same : s'.blocks = s.blocks) :
    returned s s' = none := by
  rw [returned, World.outcome, if_pos idle, if_pos (by rw [same])]

theorem returned_some {b : Block 64} (idle : s'.threads () = .idle)
    (more : s'.blocks = b :: s.blocks) : returned s s' = some b.offset := by
  have longer : ¬ s'.blocks.length = s.blocks.length := by
    rw [more, List.length_cons]
    omega
  rw [returned, World.outcome, if_pos idle, if_neg longer, more]

end Shared

/-! ## Side by side -/

namespace Both

variable {capacity pageSize : BitVec 64} {r : Request} {s s' : Both}

/-- The parts of the condition. -/
theorem fine_iff : s.fine r = true ↔
    s.own.arena.size.toNat + (r.align.toNat - 1) < 2 ^ 64 ∧
    s.shared.arena.size.toNat + (r.align.toNat - 1) < 2 ^ 64 ∧
    (Base.roundUp s.own.arena.size r.align ≤ s.own.arena.capacity ∨
      s.own.arena.capacity - Base.roundUp s.own.arena.size r.align < r.size) ∧
    (r.ok = true ∨ r.size = 0 ∨ s.own.commits r.size r.align = false) ∧
    ∀ place, s.shared.arena.fit s.shared.arena.size r.size r.align = some place →
      place.2.toNat + 2 ^ 18 ≤ 2 ^ 64 := by
  have chunk : (match s.shared.arena.fit s.shared.arena.size r.size r.align with
      | none => true
      | some place => decide (place.2.toNat + 2 ^ 18 ≤ 2 ^ 64)) = true ↔
      ∀ place, s.shared.arena.fit s.shared.arena.size r.size r.align = some place →
        place.2.toNat + 2 ^ 18 ≤ 2 ^ 64 := by
    cases s.shared.arena.fit s.shared.arena.size r.size r.align with
    | none => simp
    | some place => simp only [decide_eq_true_eq, Option.some.injEq, forall_eq']
  simp only [fine, Bool.and_eq_true, Bool.or_eq_true, decide_eq_true_eq, beq_iff_eq,
    Bool.not_eq_true', chunk, and_assoc, or_assoc]

/-- While the cursors are the same, a request that is fine is answered in the same way, unless a
commit fails. -/
theorem same_result (fine : s.fine r = true) (capacities : s.own.arena.capacity = capacity)
    (capacities' : s.shared.arena.capacity = capacity)
    (sizes : s.own.arena.size = s.shared.arena.size) {shared : World Unit 64}
    (served : World.Served s.shared r.size r.align shared false)
    (idle : shared.threads () = .idle) :
    (s.own.alloc pageSize r.size r.align r.ok).1 = returned s.shared shared ∧
      (s.own.alloc pageSize r.size r.align r.ok).2.arena.size = shared.arena.size := by
  obtain ⟨-, -, compares, -, -⟩ := fine_iff.mp fine
  rw [ArenaWorld.alloc]
  simp only []
  cases served with
  | refused full arena blocks bytes =>
      have refuses : r.size > s.own.arena.capacity - Base.roundUp s.own.arena.size r.align := by
        simp only [ConcurrentArena.fit] at full
        split at full
        · next outside =>
            rw [← sizes, capacities', ← capacities] at outside
            simp only [Bool.or_eq_true, decide_eq_true_eq] at outside
            rcases outside with behind | large
            · exact compares.resolve_left (BitVec.not_le.mpr behind)
            · exact large
        · cases full
      rw [if_pos refuses, returned_none idle blocks, arena]
      exact ⟨rfl, sizes⟩
  | @taken aligned newSize _ moved fits arena blocks bytes committed grows =>
      simp only [ConcurrentArena.fit] at fits
      split at fits
      · cases fits
      next inside =>
      injection fits with place
      injection place with first last
      rw [← sizes, capacities', ← capacities] at inside
      rw [← sizes] at first last
      simp only [Bool.or_eq_true, decide_eq_true_eq, not_or] at inside
      rw [if_neg inside.2]
      cases committed with
      | before enough arena' blocks' =>
          rw [returned_some idle (by rw [blocks', blocks]), arena', arena]
          exact ⟨congrArg some first, last⟩
      | now short arena' blocks' bytes' =>
          rw [returned_some idle (by rw [blocks', blocks]), arena', arena]
          exact ⟨congrArg some first, last⟩

/-- One request. -/
theorem Inv.step {k : Nat} (page : pageSize.toNat = 2 ^ k)
    (whole : pageSize.toNat ∣ capacity.toNat) (inv : s.Inv capacity) (fine : s.fine r = true)
    (h : s.step pageSize r = some s') : s'.Inv capacity := by
  obtain ⟨rounds, rounds', compares, commits, chunk⟩ := fine_iff.mp fine
  obtain ⟨⟨shared, sharedFailed⟩, run, rfl⟩ := Option.map_eq_some_iff.mp h
  obtain ⟨served, idle⟩ := World.alloc_served run
  obtain ⟨ownCapacity, ownSafe⟩ := @own_alloc s.own pageSize r.size r.align r.ok k page
    (by rw [inv.ownCapacity]; exact whole) inv.agree.own r.power rounds compares commits
  obtain ⟨sharedCapacity, sharedSafe⟩ :=
    shared_alloc inv.agree.shared r.power rounds' chunk served
  have same (calm : (s.failed || (s.own.commits r.size r.align && !r.ok) || sharedFailed) = false) :
      s.failed = false ∧ sharedFailed = false := by
    rw [Bool.or_eq_false_iff, Bool.or_eq_false_iff] at calm
    exact ⟨calm.1.1, calm.2⟩
  refine ⟨⟨fun calm => ?_, ownSafe, sharedSafe⟩, ownCapacity.trans inv.ownCapacity,
    sharedCapacity.trans inv.sharedCapacity, fun calm => ?_⟩
  · obtain ⟨before, now⟩ := same calm
    cases now
    refine List.forall_mem_cons.mpr ⟨?_, inv.agree.results before⟩
    exact (same_result fine inv.ownCapacity inv.sharedCapacity (inv.sameSize before) served idle).1
  · obtain ⟨before, now⟩ := same calm
    cases now
    exact (same_result fine inv.ownCapacity inv.sharedCapacity (inv.sameSize before) served idle).2

theorem inv_initial (capacity : BitVec 64) : (initial capacity).Inv capacity where
  agree := ⟨fun _ _ member => absurd member List.not_mem_nil, .empty _ _, .empty _ _⟩
  ownCapacity := rfl
  sharedCapacity := rfl
  sameSize := fun _ => rfl

end Both

/-- For every page size, every capacity of whole pages and every sequence of requests that are
fine where they are made: as long as no commit has failed, the two arenas have refused the same
requests and have returned the same offsets; and whatever has failed, their blocks lie inside the
capacity, apart from each other and in committed pages. -/
theorem both_agree {capacity pageSize : BitVec 64} {k : Nat} (page : pageSize.toNat = 2 ^ k)
    (whole : pageSize.toNat ∣ capacity.toNat) {requests : List Request} {s : Both}
    (h : run (guarded (fun r s => Both.fine r s = true) (Both.step pageSize))
      (Both.initial capacity) requests = some s) : s.Agree := by
  have inv : s.Inv capacity := by
    refine run_invariant (fun {r s s'} step inv => ?_) h (Both.inv_initial capacity)
    obtain ⟨fine, stepped⟩ := guarded_eq_some.mp step
    exact Both.Inv.step page whole inv fine stepped
  exact inv.agree

/-- Two requests of a new arena, where every commit succeeds. -/
def twoRequests (size align : BitVec 64) (power : ∃ k, align.toNat = 2 ^ k) (steps : Nat) :
    List Request :=
  [⟨1, 1, ⟨0, rfl⟩, true, List.replicate 5 true⟩,
    ⟨size, align, power, true, List.replicate steps true⟩]

/-- Two blocks on two pages. -/
theorem both_agree_twoPages : ∃ s,
    run (guarded (fun r s => Both.fine r s = true) (Both.step 0x1000)) (Both.initial 0x2000)
      (twoRequests 0x10 0x1000 ⟨12, rfl⟩ 3) = some s ∧ s.Agree := by
  have runs : (run (guarded (fun r s => Both.fine r s = true) (Both.step 0x1000))
      (Both.initial 0x2000) (twoRequests 0x10 0x1000 ⟨12, rfl⟩ 3)).isSome = true := by
    decide +kernel
  obtain ⟨s, h⟩ := Option.isSome_iff_exists.mp runs
  exact ⟨s, h, both_agree (k := 12) rfl ⟨2, rfl⟩ h⟩

/-- A block of a byte at an alignment of two pages, in an arena of one: `Arena` returns an offset
behind its end. -/
theorem not_both_agree_wrapped : ∃ s,
    run (Both.step 0x1000) (Both.initial 0x1000) (twoRequests 1 0x2000 ⟨13, rfl⟩ 1) = some s ∧
      s.failed = false ∧ ¬ s.Agree := by
  have results : (run (Both.step 0x1000) (Both.initial 0x1000)
      (twoRequests 1 0x2000 ⟨13, rfl⟩ 1)).map (fun s => (s.failed, s.results)) =
      some (false, [(some 0x2000, none), (some 0, some 0)]) := by decide +kernel
  obtain ⟨s, h, same⟩ := Option.map_eq_some_iff.mp results
  obtain ⟨calm, results⟩ := Prod.mk.inj same
  refine ⟨s, h, calm, fun agree => ?_⟩
  have equal := agree.results calm (some 0x2000, none) (by rw [results]; exact List.mem_cons_self)
  cases equal

end Fpag.Mem
