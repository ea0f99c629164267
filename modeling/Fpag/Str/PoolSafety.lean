import Fpag.Str.StringPool

/-!
What a `StringPool` promises under every interleaving of its appends.

A `Slot` is a name in the pool with the offset its length begins at. The slots of the
names that were returned, of the empty name and of the threads that are still copying
are blocks of the arena, so they share no byte, and what a thread writes leaves every
settled slot as it was. The totals count what was returned; the slots lie disjoint
below the capacity, so neither half of the totals reaches the other.
-/

namespace Fpag.Str

open Fpag.Mem

variable {ι : Type}

/-- A name in the pool, and the offset its length begins at. -/
structure Slot : Type where
  first : Nat
  str : List UInt8

def Slot.range (x : Slot) : Nat × Nat := (x.first, x.first + (stored x.str).length)

/-- The memory holds the name and its length in the slot. -/
def Slot.Held (memory : Nat → UInt8) (x : Slot) : Prop :=
  readBytes memory x.first (stored x.str).length = stored x.str

def Slot.Apart (x y : Slot) : Prop := Disjointed x.range y.range

theorem Slot.Apart.symm {x y : Slot} (h : x.Apart y) : y.Apart x := Or.symm h

/-- The bytes a returned name occupies, with its length in front of them. -/
def Receipt.range (r : Receipt) : Nat × Nat :=
  (r.id.offset.toNat - lengthPrefixBytes, r.id.offset.toNat + r.str.length)

def Receipt.slot (r : Receipt) : Slot := ⟨r.id.offset.toNat - lengthPrefixBytes, r.str⟩

theorem length_stored (str : List UInt8) :
    (stored str).length = lengthPrefixBytes + str.length := by
  rw [stored, List.length_append, length_toBytes]

/-- A write outside a slot leaves it as it is. -/
theorem Slot.Held.update {memory : Nat → UInt8} {x : Slot} (held : x.Held memory) {at_ : Nat}
    {byte : UInt8} (outside : at_ < x.range.1 ∨ x.range.2 ≤ at_) :
    x.Held (Function.update memory at_ byte) :=
  (readBytes_update outside).trans held

namespace StringPool

/-- The appends of non-empty names that returned. -/
def names (s : StringPool ι) : List Receipt := s.returned.filter fun r => !r.str.isEmpty

/-- The slot of the empty name and the slots of the names that were returned. -/
def settled (s : StringPool ι) : List Slot := ⟨0, []⟩ :: s.names.map Receipt.slot

/-- The slot is a block that the arena handed out. -/
def Owns (s : StringPool ι) (x : Slot) : Prop :=
  ∃ b ∈ s.arena.blocks, b.start = x.range.1 ∧ b.stop = x.range.2

/-- The bytes of the names that were returned. -/
def bytes (s : StringPool ι) : Nat := (s.names.map fun r => r.str.length).sum

/-- A thread has a block and is copying a name into it. -/
def Writes (s : StringPool ι) (t : ι) (x : Slot) : Prop :=
  ∃ ptr done, s.appenders t = .writing x.str ptr done ∧ x.first = ptr.toNat

/-- The invariant of every reachable state. -/
structure Inv (s : StringPool ι) : Prop where
  arena : s.arena.Inv
  capacity_lt : s.arena.arena.capacity.toNat < 2 ^ 32
  idle : ∀ t, s.appenders t = .idle → s.arena.threads t = .idle
  allocating : ∀ t str, s.appenders t = .allocating str → str ≠ [] ∧ str.length < 2 ^ 63 ∧
    (s.arena.threads t).Serving (BitVec.ofNat 64 (lengthPrefixBytes + str.length)) 4
  writing : ∀ t str ptr done, s.appenders t = .writing str ptr done → str ≠ [] ∧
    s.arena.threads t = .idle ∧ s.Owns ⟨ptr.toNat, str⟩ ∧
      readBytes s.memory ptr.toNat done = (stored str).take done
  settled : ∀ x ∈ s.settled, s.Owns x ∧ x.Held s.memory
  apart : s.settled.Pairwise Slot.Apart
  writesApart : ∀ t x, s.Writes t x → ∀ y ∈ s.settled, x.Apart y
  writersApart : ∀ t u x y, t ≠ u → s.Writes t x → s.Writes u y → x.Apart y
  ids : ∀ r ∈ s.names, lengthPrefixBytes ≤ r.id.offset.toNat
  empties : ∀ r ∈ s.returned, r.str = [] → r.id = emptyStringId
  totals : s.totals = BitVec.ofNat 64 (s.bytes * 2 ^ 32 + s.names.length)

variable {s s' : StringPool ι} {t : ι}

theorem Inv.owns (inv : s.Inv) {x : Slot} (writes : s.Writes t x) : s.Owns x := by
  obtain ⟨ptr, done, at_, first⟩ := writes
  obtain ⟨-, -, owns, -⟩ := inv.writing t x.str ptr done at_
  rw [← first] at owns
  exact owns

theorem Owns.mono {x : Slot} (more : ∀ b ∈ s.arena.blocks, b ∈ s'.arena.blocks) (owns : s.Owns x) :
    s'.Owns x := by
  obtain ⟨b, hb, ends⟩ := owns
  exact ⟨b, more b hb, ends⟩

/-- What the arena handed out lies below the capacity. -/
theorem Inv.stop_le (inv : s.Inv) {x : Slot} (owns : s.Owns x) :
    x.range.2 ≤ s.arena.arena.capacity.toNat := by
  obtain ⟨b, hb, -, stop⟩ := owns
  rw [← stop]
  exact (inv.arena.placed b hb).2.trans inv.arena.committed_le

variable [DecidableEq ι]

/-- A thread is the one that moved, or stands where it stood. -/
theorem stands {u : ι} {state state' : Appender}
    (hu : (s.setAppender t state).appenders u = state') :
    (u = t ∧ state' = state) ∨ (u ≠ t ∧ s.appenders u = state') := by
  simp only [setAppender, Function.update_apply] at hu
  split at hu
  · next same => exact Or.inl ⟨same, hu.symm⟩
  · next other => exact Or.inr ⟨other, hu⟩

/-! ## One step -/

/-- What a thread may stand for after a step inside the arena. -/
def Arrives (s : StringPool ι) (a : World ι 64) (t : ι) : Appender → Prop
  | .idle => a.threads t = .idle
  | .allocating str => str ≠ [] ∧ str.length < 2 ^ 63 ∧
      (a.threads t).Serving (BitVec.ofNat 64 (lengthPrefixBytes + str.length)) 4
  | .writing str ptr done => str ≠ [] ∧ a.threads t = .idle ∧ done = 0 ∧
      ∃ b ∈ a.blocks, b.start = ptr.toNat ∧ b.stop = ptr.toNat + (stored str).length ∧
        ∀ c ∈ s.arena.blocks, b.Apart c

/-- A step of one thread inside the arena, which may leave the thread with a block that meets
nothing handed out before. -/
theorem Inv.moveArena (inv : s.Inv) {a : World ι 64} {state : Appender} (ok : a.Inv)
    (capacity : a.arena.capacity = s.arena.arena.capacity)
    (more : ∀ b ∈ s.arena.blocks, b ∈ a.blocks)
    (away : ∀ u, u ≠ t → a.threads u = s.arena.threads u) (arrives : s.Arrives a t state) :
    (setAppender { s with arena := a } t state).Inv := by
  have owns : ∀ x, s.Owns x → (setAppender { s with arena := a } t state).Owns x :=
    fun x hx => hx.mono more
  -- A slot that a thread writes was written before, or meets nothing handed out before.
  have writes : ∀ u x, (setAppender { s with arena := a } t state).Writes u x →
      (u ≠ t ∧ s.Writes u x) ∨ (u = t ∧ ∀ y, s.Owns y → x.Apart y) := by
    rintro u x ⟨ptr, done, at_, first⟩
    obtain ⟨same, rfl⟩ | ⟨other, at_⟩ := stands at_
    · obtain ⟨-, -, -, b, -, start, stop, fresh⟩ := arrives
      refine Or.inr ⟨same, ?_⟩
      rintro y ⟨c, hc, cstart, cstop⟩
      have := fresh c hc
      simp only [Block.Apart] at this
      simp only [Slot.Apart, Disjointed, ← cstart, ← cstop]
      simp only [Slot.range, first]
      omega
    · exact Or.inl ⟨other, ptr, done, at_, first⟩
  refine ⟨ok, ?_, fun u hu => ?_, fun u str hu => ?_, fun u str ptr done hu => ?_,
    fun x hx => ⟨owns x (inv.settled x hx).1, (inv.settled x hx).2⟩, inv.apart,
    fun u x hx y hy => ?_, fun u v x y ne hx hy => ?_, inv.ids, inv.empties, inv.totals⟩
  · change a.arena.capacity.toNat < 2 ^ 32
    rw [capacity]
    exact inv.capacity_lt
  · obtain ⟨rfl, rfl⟩ | ⟨other, hu⟩ := stands hu
    · exact arrives
    · exact (away u other).trans (inv.idle u hu)
  · obtain ⟨rfl, rfl⟩ | ⟨other, hu⟩ := stands hu
    · exact arrives
    · obtain ⟨name, short, serving⟩ := inv.allocating u str hu
      refine ⟨name, short, ?_⟩
      change (a.threads u).Serving _ _
      rw [away u other]
      exact serving
  · obtain ⟨rfl, rfl⟩ | ⟨other, hu⟩ := stands hu
    · obtain ⟨name, still, rfl, b, hb, start, stop, -⟩ := arrives
      exact ⟨name, still, ⟨b, hb, start, stop⟩, rfl⟩
    · obtain ⟨name, still, mine, copied⟩ := inv.writing u str ptr done hu
      exact ⟨name, (away u other).trans still, owns _ mine, copied⟩
  · obtain ⟨-, old⟩ | ⟨-, fresh⟩ := writes u x hx
    · exact inv.writesApart u x old y hy
    · exact fresh y (inv.settled y hy).1
  · obtain ⟨-, oldx⟩ | ⟨xt, freshx⟩ := writes u x hx
    · obtain ⟨-, oldy⟩ | ⟨-, freshy⟩ := writes v y hy
      · exact inv.writersApart u v x y ne oldx oldy
      · exact (freshy x (inv.owns oldx)).symm
    · obtain ⟨-, oldy⟩ | ⟨yt, -⟩ := writes v y hy
      · exact freshx y (inv.owns oldy)
      · exact absurd (xt.trans yt.symm) ne

omit [DecidableEq ι] in
/-- An append of the empty name. -/
theorem Inv.appendEmpty (inv : s.Inv) :
    StringPool.Inv { s with returned := ⟨[], emptyStringId⟩ :: s.returned } := by
  refine ⟨inv.arena, inv.capacity_lt, inv.idle, inv.allocating, inv.writing, inv.settled, inv.apart,
    inv.writesApart, inv.writersApart, inv.ids, fun r hr => ?_, inv.totals⟩
  rcases List.mem_cons.mp hr with rfl | hr
  · exact fun _ => rfl
  · exact inv.empties r hr

theorem Inv.start (inv : s.Inv) {str : List UInt8} (small : str.length < 2 ^ 63)
    (h : s.start t str = some s') : s'.Inv := by
  simp only [StringPool.start] at h
  split at h
  · next empty =>
      cases h
      subst empty
      exact inv.appendEmpty
  · next name =>
      cases h
      refine inv.moveArena ?_ rfl (fun b hb => hb) ?_ ⟨name, small, ?_⟩
      · exact inv.arena.settle ⟨2, rfl⟩ (fun b hb => by cases hb)
      · intro u other
        rw [World.threads_setThread, if_neg other]
      · rw [World.threads_setThread, if_pos rfl]
        exact ⟨rfl, rfl⟩

/-- One byte of a name is copied into the thread's own slot. -/
theorem Inv.write (inv : s.Inv) {str : List UInt8} {ptr : BitVec 64} {done : Nat} {byte : UInt8}
    (at_ : s.appenders t = .writing str ptr done) (hbyte : (stored str)[done]? = some byte) :
    (setAppender { s with memory := Function.update s.memory (ptr.toNat + done) byte } t
      (.writing str ptr (done + 1))).Inv := by
  obtain ⟨inside, rfl⟩ := List.getElem?_eq_some_iff.mp hbyte
  obtain ⟨name, still, mine, copied⟩ := inv.writing t str ptr done at_
  have writes : s.Writes t ⟨ptr.toNat, str⟩ := ⟨ptr, done, at_, rfl⟩
  -- The byte lies outside every slot that is apart from the thread's own.
  have outside : ∀ x : Slot, Slot.Apart ⟨ptr.toNat, str⟩ x →
      ptr.toNat + done < x.range.1 ∨ x.range.2 ≤ ptr.toNat + done := by
    intro x apart
    rcases apart with before | after
    · exact Or.inl (Nat.lt_of_lt_of_le (Nat.add_lt_add_left inside _) before)
    · exact Or.inr (Nat.le_trans after (Nat.le_add_right _ _))
  have old : ∀ u x, (setAppender { s with
      memory := Function.update s.memory (ptr.toNat + done) (stored str)[done] } t
      (.writing str ptr (done + 1))).Writes u x → s.Writes u x := by
    rintro u ⟨first, str'⟩ ⟨ptr', done', hu, first_eq⟩
    obtain ⟨rfl, same⟩ | ⟨-, hu⟩ := stands hu
    · cases same
      exact ⟨ptr, done, at_, first_eq⟩
    · exact ⟨ptr', done', hu, first_eq⟩
  refine ⟨inv.arena, inv.capacity_lt, fun u hu => ?_, fun u str' hu => ?_,
    fun u str' ptr' done' hu => ?_, fun x hx => ?_, inv.apart,
    fun u x hx => inv.writesApart u x (old u x hx),
    fun u v x y ne hx hy => inv.writersApart u v x y ne (old u x hx) (old v y hy),
    inv.ids, inv.empties, inv.totals⟩
  · obtain ⟨-, same⟩ | ⟨-, hu⟩ := stands hu
    · cases same
    · exact inv.idle u hu
  · obtain ⟨-, same⟩ | ⟨-, hu⟩ := stands hu
    · cases same
    · exact inv.allocating u str' hu
  · obtain ⟨rfl, same⟩ | ⟨other, hu⟩ := stands hu
    · cases same
      exact ⟨name, still, mine, readBytes_update_succ inside copied⟩
    · obtain ⟨name', still', mine', copied'⟩ := inv.writing u str' ptr' done' hu
      refine ⟨name', still', mine', ?_⟩
      have apart := inv.writersApart t u ⟨ptr.toNat, str⟩ ⟨ptr'.toNat, str'⟩ (Ne.symm other) writes
        ⟨ptr', done', hu, rfl⟩
      have short : done' ≤ (stored str').length := by
        have := congrArg List.length copied'
        rw [length_readBytes, List.length_take] at this
        omega
      refine (readBytes_update ?_).trans copied'
      rcases outside _ apart with before | after
      · exact Or.inl before
      · exact Or.inr (Nat.le_trans (Nat.add_le_add_left short _) after)
  · obtain ⟨owned, held⟩ := inv.settled x hx
    exact ⟨owned, held.update (outside x (inv.writesApart t _ writes x hx))⟩

theorem tally_eq {length : Nat} (small : length < 2 ^ 32) :
    tally length = BitVec.ofNat 64 (length * 2 ^ 32 + 1) := by
  apply BitVec.eq_of_toNat_eq
  have one : (1 : BitVec 64).toNat = 1 := rfl
  rw [tally, BitVec.toNat_or, BitVec.toNat_shiftLeft, BitVec.toNat_ofNat, BitVec.toNat_ofNat, one,
    bytesShift, Nat.mod_eq_of_lt (by omega : length < 2 ^ 64), Nat.shiftLeft_eq,
    Nat.mod_eq_of_lt (by omega : length * 2 ^ 32 < 2 ^ 64),
    Nat.mod_eq_of_lt (by omega : length * 2 ^ 32 + 1 < 2 ^ 64), ← Nat.shiftLeft_eq]
  exact (Nat.shiftLeft_add_eq_or_of_lt (by decide) length).symm

/-- What the append of a name at an offset returns. -/
def receipt (str : List UInt8) (ptr : BitVec 64) : Receipt :=
  ⟨str, ⟨(ptr + BitVec.ofNat 64 lengthPrefixBytes).setWidth 32⟩⟩

/-- The pool behind the last step of an append. -/
def finished (s : StringPool ι) (t : ι) (str : List UInt8) (ptr : BitVec 64) : StringPool ι :=
  setAppender { s with
    totals := s.totals + tally str.length
    returned := receipt str ptr :: s.returned } t .idle

section Finish

variable {str : List UInt8} {ptr : BitVec 64}

theorem toNat_receipt (below : ptr.toNat + lengthPrefixBytes < 2 ^ 32) :
    (receipt str ptr).id.offset.toNat = ptr.toNat + lengthPrefixBytes := by
  have four : (BitVec.ofNat 64 lengthPrefixBytes).toNat = lengthPrefixBytes := rfl
  have wide : ptr.toNat + lengthPrefixBytes < 2 ^ 64 := Nat.lt_trans below (by decide)
  rw [receipt, BitVec.toNat_setWidth, BitVec.toNat_add, four, Nat.mod_eq_of_lt wide,
    Nat.mod_eq_of_lt below]

theorem slot_receipt (below : ptr.toNat + lengthPrefixBytes < 2 ^ 32) :
    (receipt str ptr).slot = ⟨ptr.toNat, str⟩ := by
  rw [Receipt.slot, toNat_receipt below, Nat.add_sub_cancel]
  rfl

theorem names_finished (name : str ≠ []) :
    (s.finished t str ptr).names = receipt str ptr :: s.names := by
  simp [StringPool.names, finished, setAppender, receipt, name]

theorem settled_finished (name : str ≠ []) (below : ptr.toNat + lengthPrefixBytes < 2 ^ 32) :
    (s.finished t str ptr).settled =
      ⟨0, []⟩ :: ⟨ptr.toNat, str⟩ :: s.names.map Receipt.slot := by
  rw [StringPool.settled, names_finished name, List.map_cons, slot_receipt below]

theorem mem_settled_finished (name : str ≠ []) (below : ptr.toNat + lengthPrefixBytes < 2 ^ 32)
    {x : Slot} (hx : x ∈ (s.finished t str ptr).settled) :
    x = ⟨ptr.toNat, str⟩ ∨ x ∈ s.settled := by
  rw [settled_finished name below] at hx
  simp only [StringPool.settled, List.mem_cons] at hx ⊢
  tauto

theorem bytes_finished (name : str ≠ []) :
    (s.finished t str ptr).bytes = str.length + s.bytes := by
  rw [StringPool.bytes, names_finished name, List.map_cons, List.sum_cons]
  rfl

/-- Who is still writing was writing before, and is another thread. -/
theorem writes_finished {u : ι} {x : Slot} (writes : (s.finished t str ptr).Writes u x) :
    u ≠ t ∧ s.Writes u x := by
  obtain ⟨ptr', done', hu, first⟩ := writes
  obtain ⟨-, same⟩ | ⟨other, hu⟩ := stands hu
  · cases same
  · exact ⟨other, ptr', done', hu, first⟩

/-- An append adds itself to the totals and returns: the slot it wrote is settled. -/
theorem Inv.finish (inv : s.Inv) {done : Nat} (at_ : s.appenders t = .writing str ptr done)
    (last : (stored str)[done]? = none) : (s.finished t str ptr).Inv := by
  obtain ⟨name, still, mine, copied⟩ := inv.writing t str ptr done at_
  have writes : s.Writes t ⟨ptr.toNat, str⟩ := ⟨ptr, done, at_, rfl⟩
  have stop := inv.stop_le mine
  have capacity := inv.capacity_lt
  simp only [Slot.range, length_stored] at stop
  have below : ptr.toNat + lengthPrefixBytes < 2 ^ 32 := by omega
  have whole : Slot.Held s.memory ⟨ptr.toNat, str⟩ := by
    have reach := List.getElem?_eq_none_iff.mp last
    have short : done ≤ (stored str).length := by
      have := congrArg List.length copied
      rw [length_readBytes, List.length_take] at this
      omega
    have : done = (stored str).length := Nat.le_antisymm short reach
    rw [this, List.take_length] at copied
    exact copied
  refine ⟨inv.arena, inv.capacity_lt, fun u hu => ?_, fun u str' hu => ?_,
    fun u str' ptr' done' hu => ?_, fun x hx => ?_, ?_, fun u x hx y hy => ?_,
    fun u v x y ne hx hy =>
      inv.writersApart u v x y ne (writes_finished hx).2 (writes_finished hy).2, ?_, ?_, ?_⟩
  · obtain ⟨rfl, -⟩ | ⟨-, hu⟩ := stands hu
    · exact still
    · exact inv.idle u hu
  · obtain ⟨-, same⟩ | ⟨-, hu⟩ := stands hu
    · cases same
    · exact inv.allocating u str' hu
  · obtain ⟨-, same⟩ | ⟨-, hu⟩ := stands hu
    · cases same
    · exact inv.writing u str' ptr' done' hu
  · rcases mem_settled_finished name below hx with rfl | hx
    · exact ⟨mine, whole⟩
    · exact inv.settled x hx
  · rw [settled_finished name below]
    have apart := inv.apart
    rw [StringPool.settled, List.pairwise_cons] at apart
    refine List.pairwise_cons.mpr ⟨fun y hy => ?_, List.pairwise_cons.mpr ⟨fun y hy => ?_, apart.2⟩⟩
    · rcases List.mem_cons.mp hy with rfl | hy
      · exact (inv.writesApart t _ writes _ List.mem_cons_self).symm
      · exact apart.1 y hy
    · exact inv.writesApart t _ writes y (List.mem_cons_of_mem _ hy)
  · obtain ⟨other, hx⟩ := writes_finished hx
    rcases mem_settled_finished name below hy with rfl | hy
    · exact inv.writersApart u t x _ other hx writes
    · exact inv.writesApart u x hx y hy
  · intro r hr
    rw [names_finished name] at hr
    rcases List.mem_cons.mp hr with rfl | hr
    · rw [toNat_receipt below]
      omega
    · exact inv.ids r hr
  · intro r hr empty
    rcases List.mem_cons.mp hr with rfl | hr
    · exact absurd empty name
    · exact inv.empties r hr empty
  · rw [names_finished name, bytes_finished name, List.length_cons]
    change s.totals + tally str.length = _
    rw [inv.totals, tally_eq (by omega), ← BitVec.ofNat_add]
    exact congrArg (BitVec.ofNat 64) (by omega)

end Finish

theorem Inv.advance (inv : s.Inv) {ok : Bool} (h : s.advance t ok = some s') : s'.Inv := by
  simp only [StringPool.advance] at h
  split at h
  · cases h
  · next str at_ =>
      split at h
      · cases h
      · next arena moved =>
          obtain ⟨name, short, serving⟩ := inv.allocating t str at_
          obtain ⟨away, capacity, -⟩ := World.advance_serving serving moved
          have ok : arena.Inv := inv.arena.advance (World.promised_of_serving serving) moved
          obtain ⟨pending, blocks, serves⟩ | null | ⟨b, taken, blocks, idle, size⟩ :=
            World.outcome_cases serving moved
          · rw [pending] at h
            cases h
            have same : { s with arena := arena }
                = setAppender { s with arena := arena } t (.allocating str) := by
              rw [setAppender]
              congr 1
              exact (Function.update_eq_self_iff.mpr at_.symm).symm
            rw [same]
            exact inv.moveArena ok capacity (fun b hb => by rw [blocks]; exact hb) away
              ⟨name, short, serves⟩
          · rw [null] at h
            cases h
          · rw [taken] at h
            cases h
            have apart := ok.apart
            rw [blocks, List.pairwise_cons] at apart
            refine inv.moveArena ok capacity
              (fun c hc => by rw [blocks]; exact List.mem_cons_of_mem _ hc) away
              ⟨name, idle, rfl, b, by rw [blocks]; exact List.mem_cons_self, rfl, ?_, apart.1⟩
            rw [Block.stop, size, length_stored, BitVec.toNat_ofNat, Nat.mod_eq_of_lt]
            simp only [lengthPrefixBytes]
            omega
  · next str ptr done at_ =>
      split at h
      · next byte hbyte =>
          cases h
          exact inv.write at_ hbyte
      · next last =>
          cases h
          exact inv.finish at_ last

/-- Every step of every thread preserves the invariant. -/
theorem Inv.step (inv : s.Inv) {e : PoolEvent ι} (h : StringPool.step e s = some s') : s'.Inv := by
  obtain ⟨t, action⟩ := e
  cases action with
  | append str =>
      simp only [StringPool.step] at h
      split at h
      · exact inv.start str.size_lt h
      · cases h
  | go ok => exact inv.advance h

/-- What one thread's steps do to the others and to the history: nothing, or the append
returns. -/
structure Effect (s s' : StringPool ι) (t : ι) (str : List UInt8) : Prop where
  away : ∀ u, u ≠ t → s'.appenders u = s.appenders u
  mine : ((s'.appenders t).text = some str ∧ s'.returned = s.returned) ∨
    (s'.appenders t = .idle ∧ ∃ id, s'.returned = ⟨str, id⟩ :: s.returned)

theorem effect_setAppender {str : List UInt8} {state : Appender} {r : StringPool ι}
    (appenders : r.appenders = s.appenders)
    (mine : (state.text = some str ∧ r.returned = s.returned) ∨
      (state = .idle ∧ ∃ id, r.returned = ⟨str, id⟩ :: s.returned)) :
    Effect s (r.setAppender t state) t str := by
  refine ⟨fun u other => ?_, ?_⟩
  · simp only [setAppender, Function.update_of_ne other, appenders]
  · simpa only [setAppender, Function.update_self] using mine

theorem start_effect {str : List UInt8} (resting : s.appenders t = .idle)
    (h : s.start t str = some s') : Effect s s' t str := by
  simp only [StringPool.start] at h
  split at h
  · cases h
    exact ⟨fun u _ => rfl, Or.inr ⟨resting, emptyStringId, rfl⟩⟩
  · split at h
    · cases h
    · cases h
      exact effect_setAppender rfl (Or.inl ⟨rfl, rfl⟩)

theorem advance_effect {str : List UInt8} {ok : Bool}
    (busy : (s.appenders t).text = some str) (h : s.advance t ok = some s') :
    Effect s s' t str := by
  simp only [StringPool.advance] at h
  split at h
  · cases h
  · next str' at_ =>
      rw [at_] at busy
      cases busy
      split at h
      · cases h
      · split at h
        · cases h
          exact ⟨fun u _ => rfl, Or.inl ⟨by rw [at_]; rfl, rfl⟩⟩
        · cases h
        · cases h
          exact effect_setAppender rfl (Or.inl ⟨rfl, rfl⟩)
  · next str' ptr done at_ =>
      rw [at_] at busy
      cases busy
      split at h
      · cases h
        exact effect_setAppender rfl (Or.inl ⟨rfl, rfl⟩)
      · cases h
        exact effect_setAppender rfl (Or.inr ⟨rfl, _, rfl⟩)

/-! ## The pool before its first append -/

/-- The arena once the empty name has its slot. -/
def afterEmptyName (t : ι) (capacity : BitVec 64) : World ι 64 :=
  let watermark := ((ConcurrentArena.fresh 64).reserve capacity).chunkEnd 4
  { arena := { (ConcurrentArena.fresh 64).reserve capacity with
      size := 4
      committedSize := watermark }
    threads := fun _ => .idle
    owner := fun _ => t
    blocks := [⟨.shared, 0, 4, 4⟩]
    committedBytes := fun x => decide (x < watermark.toNat) }

theorem run_emptyName (t : ι) (capacity : BitVec 64) :
    Schedule.run World.step
        (World.initial ((ConcurrentArena.fresh 64).reserve capacity) fun _ => t)
        ([.call (.alloc (BitVec.ofNat 64 lengthPrefixBytes) 4), .go true, .go true, .go true,
          .go true, .go true].map fun action => ⟨t, action⟩)
      = if 4#64 ≤ capacity then some (afterEmptyName t capacity) else none := by
  have zero : Base.roundUp 0#64 4#64 = 0#64 := by decide
  by_cases fits : 4#64 ≤ capacity
  · have room : ¬ capacity < 4#64 := BitVec.not_lt.mpr fits
    simp [Schedule.run, World.step, World.initial, World.start, World.advance, World.setThread,
      ConcurrentArena.fit, ConcurrentArena.reserve, ConcurrentArena.fresh, zero, lengthPrefixBytes,
      afterEmptyName, Block.upTo, room]
    exact ⟨fits, rfl, rfl⟩
  · have full : capacity < 4#64 := BitVec.not_le.mp fits
    simp [Schedule.run, World.step, World.initial, World.start, World.advance, World.setThread,
      ConcurrentArena.fit, ConcurrentArena.reserve, ConcurrentArena.fresh, zero, lengthPrefixBytes,
      full]

omit [DecidableEq ι] in
theorem inv_afterEmptyName (t : ι) {capacity : BitVec 64} (fits : 4#64 ≤ capacity)
    (small : capacity.toNat ≤ 2 ^ 32 - 1) : (afterEmptyName t capacity).Inv := by
  have four : 4 ≤ capacity.toNat := fits
  have watermark := ConcurrentArena.chunkEnd_bounds
    (a := (ConcurrentArena.fresh 64).reserve capacity) 4 (by decide) four
  refine ⟨?_, Nat.zero_le _, four, watermark.2, fun x hx => ?_, ⟨fun i l hl => ?_,
    fun i j l m lt hl => ?_⟩, fun b hb => ?_, List.pairwise_singleton _ _, fun u => trivial,
    (fun u b hb => by cases hb), (fun u v b c ne hb => by cases hb)⟩
  · change capacity.toNat ≤ 2 ^ 63
    omega
  · exact decide_eq_true hx
  · simp [afterEmptyName, ConcurrentArena.reserve, ConcurrentArena.fresh] at hl
  · simp [afterEmptyName, ConcurrentArena.reserve, ConcurrentArena.fresh] at hl
  · cases List.mem_singleton.mp hb
    exact ⟨⟨Nat.zero_le _, Nat.le_refl _⟩, watermark.1⟩

theorem inv_construct {pageSize : Nat} {pages : Nat → UInt8} {capacity : BitVec 64}
    (h : construct t pageSize pages capacity = some s) : s.Inv := by
  simp only [construct, run_emptyName] at h
  split at h
  · next checks =>
      obtain ⟨-, small, -⟩ := checks
      by_cases fits : 4#64 ≤ capacity
      · simp only [if_pos fits, afterEmptyName] at h
        cases h
        have held : Slot.Held (writeBytes pages 0 (toBytes lengthPrefixBytes 0)) ⟨0, []⟩ :=
          readBytes_writeBytes
        refine ⟨inv_afterEmptyName t fits small, ?_, fun u _ => rfl, (fun u str hu => by cases hu),
          (fun u str ptr done hu => by cases hu), fun x hx => ?_, List.pairwise_singleton _ _,
          fun u x hx => ?_, fun u v x y ne hx => ?_, (fun r hr => by cases hr),
          (fun r hr => by cases hr), by simp [bytes, names]⟩
        · change capacity.toNat < 2 ^ 32
          omega
        · cases List.mem_singleton.mp hx
          exact ⟨⟨⟨.shared, 0, 4, 4⟩, List.mem_singleton_self _, rfl, rfl⟩, held⟩
        · obtain ⟨ptr, done, at_, -⟩ := hx
          cases at_
        · obtain ⟨ptr, done, at_, -⟩ := hx
          cases at_
      · simp only [if_neg fits] at h
        cases h
  · cases h

theorem idle_of_construct {pageSize : Nat} {pages : Nat → UInt8} {capacity : BitVec 64}
    (h : construct t pageSize pages capacity = some s) (u : ι) : s.appenders u = .idle := by
  simp only [construct] at h
  (repeat' split at h) <;> cases h
  rfl

/-! ## Whole runs -/

/-- What the pool promises at any moment about the appends that returned. -/
structure Intact (s : StringPool ι) : Prop where
  get : ∀ r ∈ s.returned, s.get r.id = r.str
  distinct : s.names.Pairwise fun r q => r.id ≠ q.id
  apart : s.names.Pairwise fun r q => Disjointed r.range q.range
  clear : ∀ r ∈ s.names, Disjointed (0, lengthPrefixBytes) r.range
  empty : ∀ r ∈ s.returned, r.str = [] → r.id = emptyStringId
  get_empty : s.get emptyStringId = []
  size : s.size.toNat = (s.returned.map fun r => r.str.length).sum
  stringCount : s.stringCount.toNat = s.names.length

omit [DecidableEq ι]

/-- What a held slot reads as. -/
theorem get_of_held {id : StringPoolId} {str : List UInt8} (small : str.length < 2 ^ 32)
    (prefixed : lengthPrefixBytes ≤ id.offset.toNat)
    (held : Slot.Held s.memory ⟨id.offset.toNat - lengthPrefixBytes, str⟩) : s.get id = str := by
  rw [Slot.Held, length_stored, readBytes_add, Nat.sub_add_cancel prefixed] at held
  obtain ⟨front, back⟩ := List.append_inj held (by rw [length_readBytes, length_toBytes])
  have length : s.lengthAt id.offset.toNat = BitVec.ofNat 32 str.length := by
    rw [lengthAt, front, ofBytes_toBytes]
    apply BitVec.eq_of_toNat_eq
    rw [BitVec.toNat_ofNat, BitVec.toNat_ofNat]
    exact Nat.mod_mod_of_dvd _ (by decide)
  rw [get, length, BitVec.toNat_ofNat, Nat.mod_eq_of_lt small]
  exact back

/-- The names and their lengths fit the capacity together with the slot of the empty name. -/
theorem Inv.room (inv : s.Inv) :
    s.bytes + lengthPrefixBytes * s.names.length + lengthPrefixBytes
      ≤ s.arena.arena.capacity.toNat := by
  have total := sum_length_le (n := s.arena.arena.capacity.toNat)
    (List.pairwise_map.mpr inv.apart)
    (fun a ha => by
      obtain ⟨x, hx, rfl⟩ := List.mem_map.mp ha
      exact inv.stop_le (inv.settled x hx).1)
  have lengths : ∀ rs : List Receipt,
      ((((rs.map Receipt.slot).map Slot.range).map fun a => a.2 - a.1)).sum
        = (rs.map fun r => r.str.length).sum + lengthPrefixBytes * rs.length := by
    intro rs
    induction rs with
    | nil => rfl
    | cons r rs ih =>
        simp only [List.map_cons, List.sum_cons, List.length_cons, ih]
        simp only [Receipt.slot, Slot.range, length_stored, lengthPrefixBytes]
        omega
  rw [StringPool.settled, List.map_cons, List.map_cons, List.sum_cons, lengths] at total
  have first : (Slot.range ⟨0, []⟩).2 - (Slot.range ⟨0, []⟩).1 = lengthPrefixBytes := rfl
  rw [first] at total
  rw [bytes]
  omega

theorem sum_names (s : StringPool ι) : (s.returned.map fun r => r.str.length).sum = s.bytes := by
  rw [bytes, names]
  generalize s.returned = rs
  induction rs with
  | nil => rfl
  | cons r rs ih =>
      by_cases empty : r.str = []
      · simp [empty, ih]
      · simp [empty, ih]

theorem Inv.intact (inv : s.Inv) : s.Intact := by
  have below := inv.capacity_lt
  have room := inv.room
  simp only [lengthPrefixBytes] at room
  have apart := inv.apart
  rw [StringPool.settled, List.pairwise_cons] at apart
  -- A returned name has its slot where its id says.
  have range : ∀ r ∈ s.names, r.slot.range = r.range := by
    intro r hr
    have := inv.ids r hr
    simp only [Receipt.slot, Slot.range, Receipt.range, length_stored, Prod.mk.injEq, true_and]
    omega
  have name : ∀ r ∈ s.names, r.slot ∈ s.settled :=
    fun r hr => List.mem_cons_of_mem _ (List.mem_map_of_mem hr)
  have pairs : s.names.Pairwise fun r q => Disjointed r.range q.range := by
    refine (List.pairwise_map.mp apart.2).imp_of_mem ?_
    intro r q hr hq disjoint
    rw [Slot.Apart, range r hr, range q hq] at disjoint
    exact disjoint
  have empty : s.get emptyStringId = [] :=
    get_of_held (by decide) (Nat.le_refl _) (inv.settled ⟨0, []⟩ List.mem_cons_self).2
  have word : s.totals.toNat = s.bytes * 2 ^ 32 + s.names.length := by
    rw [inv.totals, BitVec.toNat_ofNat, Nat.mod_eq_of_lt (by omega)]
  refine ⟨fun r hr => ?_, ?_, pairs, fun r hr => ?_, inv.empties, empty, ?_, ?_⟩
  · by_cases blank : r.str = []
    · rw [inv.empties r hr blank, blank]
      exact empty
    · have hr : r ∈ s.names := List.mem_filter.mpr ⟨hr, by simp [blank]⟩
      obtain ⟨owned, held⟩ := inv.settled r.slot (name r hr)
      have stop := inv.stop_le owned
      rw [range r hr] at stop
      simp only [Receipt.range] at stop
      exact get_of_held (by omega) (inv.ids r hr) held
  · refine pairs.imp_of_mem ?_
    intro r q hr hq disjoint same
    have ridge := inv.ids r hr
    simp only [Disjointed, Receipt.range, same, lengthPrefixBytes] at disjoint ridge
    omega
  · rw [← range r hr]
    exact apart.1 r.slot (List.mem_map_of_mem hr)
  · rw [sum_names, StringPool.size, BitVec.toNat_ushiftRight, bytesShift, word,
      Nat.shiftRight_eq_div_pow]
    omega
  · have mask : stringCountMask.toNat = 2 ^ 32 - 1 := rfl
    rw [StringPool.stringCount, BitVec.toNat_and, mask, Nat.and_two_pow_sub_one_eq_mod, word]
    omega

/-- What has returned stays in the history. -/
theorem returned_subset [DecidableEq ι] {e : PoolEvent ι} (h : StringPool.step e s = some s') :
    s.returned ⊆ s'.returned := by
  obtain ⟨t, action⟩ := e
  cases action with
  | append str =>
      simp only [StringPool.step, StringPool.start] at h
      (repeat' split at h) <;> cases h <;> simp [setAppender]
  | go ok =>
      simp only [StringPool.step, StringPool.advance] at h
      (repeat' split at h) <;> cases h <;> simp [setAppender]

/-- Under every schedule, what has returned reads back now and at every later moment. -/
theorem intact_of_run [DecidableEq ι] {pageSize : Nat} {pages : Nat → UInt8}
    {capacity : BitVec 64} {start : StringPool ι} {es fs : List (PoolEvent ι)}
    (constructed : construct t pageSize pages capacity = some start)
    (reached : Schedule.run StringPool.step start es = some s)
    (later : Schedule.run StringPool.step s fs = some s') :
    s.Intact ∧ ∀ r ∈ s.returned, s'.get r.id = r.str := by
  have inv : s.Inv :=
    Schedule.run_invariant (fun h inv => inv.step h) reached (inv_construct constructed)
  have inv' : s'.Inv := Schedule.run_invariant (fun h inv => inv.step h) later inv
  have kept : s.returned ⊆ s'.returned :=
    Schedule.run_relation (R := fun a b => a.returned ⊆ b.returned) (fun a => List.Subset.refl _)
      (fun left right => List.Subset.trans left right) returned_subset later
  exact ⟨inv.intact, fun r hr => inv'.intact.get r (kept hr)⟩

/-- Two threads append two names at once, step by step in turn, after one of them appended the
empty name. -/
def inTurn : List (PoolEvent Bool) :=
  ⟨false, .append ⟨[], by decide⟩⟩ :: ⟨false, .append ⟨[97, 98], by decide⟩⟩ ::
    ⟨true, .append ⟨[120], by decide⟩⟩ ::
    ((List.replicate 10 [⟨false, .go true⟩, ⟨true, .go true⟩]).flatten ++ [⟨true, .go true⟩])

theorem intact_of_run_inTurn :
    ∃ start s s' : StringPool Bool,
      construct false 4096 (fun _ => 255) 4096 = some start ∧
      Schedule.run StringPool.step start inTurn = some s ∧
      Schedule.run StringPool.step s [⟨true, .append ⟨[1], by decide⟩⟩] = some s' ∧
      s.returned = [⟨[120], ⟨16⟩⟩, ⟨[97, 98], ⟨8⟩⟩, ⟨[], ⟨4⟩⟩] ∧
      s.Intact ∧ ∀ r ∈ s.returned, s'.get r.id = r.str := by
  have history : ((construct false 4096 (fun _ => 255) 4096).bind fun start =>
      (Schedule.run StringPool.step start inTurn).bind fun s =>
        (Schedule.run StringPool.step s [⟨true, .append ⟨[1], by decide⟩⟩]).map fun _ =>
          s.returned) = some [⟨[120], ⟨16⟩⟩, ⟨[97, 98], ⟨8⟩⟩, ⟨[], ⟨4⟩⟩] := by decide +kernel
  obtain ⟨start, constructed, history⟩ := Option.bind_eq_some_iff.mp history
  obtain ⟨s, reached, history⟩ := Option.bind_eq_some_iff.mp history
  obtain ⟨s', later, returned⟩ := Option.map_eq_some_iff.mp history
  exact ⟨start, s, s', constructed, reached, later, returned,
    intact_of_run constructed reached later⟩

end StringPool

end Fpag.Str
