import Fpag.Container.SpscQueue
import Fpag.Lib.Window

/-!
The positions behind the counters of an `SpscQueue`, and the records in its ring.

The counters wrap, so the invariant is stated over absolute positions that do not:
`Tracks q head tail cache` says that the words of the queue are these positions
modulo `2 ^ w` and that at most one capacity of them is in use. `Holds` says that a
list of records stands in the ring from a position on, each at the first aligned
position after the one before it. Both sides recompute that layout on their own, the
producer from `tail_cache_` and the consumer from `head_cache_`.
-/

namespace Fpag.Container

variable {w : Nat}

/-- One record as the two sides of the queue agree on it. -/
structure Record (w : Nat) : Type where
  bytes : List UInt8
  align : BitVec w
  deriving DecidableEq

namespace Record

def size (r : Record w) : BitVec w := BitVec.ofNat w r.bytes.length

/-- The position the record starts at when the room before it ends at `a`. -/
def start (r : Record w) (a : Nat) : Nat := alignUp a r.align.toNat

/-- The position the record ends at when the room before it ends at `a`. -/
def stop (r : Record w) (a : Nat) : Nat := r.start a + r.bytes.length

end Record

/-- The position a sequence of records ends at. -/
def endOf : Nat → List (Record w) → Nat
  | a, [] => a
  | a, r :: rs => endOf (r.stop a) rs

/-- What `init` leaves of the capacity: a power of two with a bit to spare above it. -/
structure SpscQueue.Shaped (q : SpscQueue w) : Prop where
  pow : ∃ c, q.capacity.toNat = 2 ^ c
  half : 2 * q.capacity.toNat ≤ 2 ^ w

/-- An alignment the queue serves: a power of two that the capacity is a multiple of. -/
structure SpscQueue.Aligns (q : SpscQueue w) (align : BitVec w) : Prop where
  pow : ∃ k, align.toNat = 2 ^ k
  le : align.toNat ≤ q.capacity.toNat

/-- A record the queue can hold at all. -/
structure SpscQueue.Takes (q : SpscQueue w) (r : Record w) : Prop where
  align : q.Aligns r.align
  fits : r.bytes.length ≤ q.capacity.toNat

/-- The absolute positions behind the four counters. -/
structure SpscQueue.Tracks (q : SpscQueue w) (head tail cache : Nat) : Prop where
  head_eq : q.head = BitVec.ofNat w head
  headCache_eq : q.headCache = BitVec.ofNat w head
  tail_eq : q.tail = BitVec.ofNat w tail
  tailCache_eq : q.tailCache = BitVec.ofNat w cache
  head_le : head ≤ tail
  tail_le : tail ≤ cache
  room : cache ≤ head + q.capacity.toNat

/-- The records stand in the ring from position `a` on. -/
def SpscQueue.Holds (q : SpscQueue w) : Nat → List (Record w) → Prop
  | _, [] => True
  | a, r :: rs =>
      (∀ i, ∀ h : i < r.bytes.length, q.byteAt (r.start a + i) = r.bytes[i]) ∧
        SpscQueue.Holds q (r.stop a) rs

namespace SpscQueue

variable {q : SpscQueue w} {align : BitVec w} {head tail cache : Nat}

/-- A capacity that `init` accepts has the shape the ring arithmetic needs. -/
theorem shaped_of_init {q₀ : SpscQueue w} {pageSize : Nat} {ring : Nat → UInt8}
    {capacity : BitVec w} {mode : Mode} (wide : 32 ≤ w)
    (h : q₀.init pageSize ring capacity mode = some q) :
    q.Shaped ∧ pageSize ∣ q.capacity.toNat := by
  unfold init at h
  split at h
  · rename_i ok
    cases h
    simp only [Bool.and_eq_true, beq_iff_eq, decide_eq_true_eq, Base.isPowerOfTwo_iff] at ok
    obtain ⟨⟨pow, pages⟩, bounded⟩ := ok
    refine ⟨⟨pow, ?_⟩, Nat.dvd_of_mod_eq_zero pages⟩
    change 2 * capacity.toNat ≤ 2 ^ w
    unfold maxCapacity at bounded
    split at bounded
    · have : 2 ^ 64 ≤ 2 ^ w := Nat.pow_le_pow_right (by decide) (by assumption)
      have : 2 * 2 ^ 35 ≤ 2 ^ 64 := by decide
      omega
    · have : 2 ^ 32 ≤ 2 ^ w := Nat.pow_le_pow_right (by decide) wide
      have : 2 * 2 ^ 30 ≤ 2 ^ 32 := by decide
      omega
  · cases h

/-! ## The shape of the ring -/

theorem Shaped.pos (shaped : q.Shaped) : 0 < q.capacity.toNat := by
  obtain ⟨c, hc⟩ := shaped.pow
  rw [hc]
  exact Nat.two_pow_pos c

theorem Aligns.pos (aligns : q.Aligns align) : 0 < align.toNat := by
  obtain ⟨k, hk⟩ := aligns.pow
  rw [hk]
  exact Nat.two_pow_pos k

theorem Aligns.roundUp (aligns : q.Aligns align) (n : Nat) :
    Base.roundUp (BitVec.ofNat w n) align = BitVec.ofNat w (alignUp n align.toNat) := by
  obtain ⟨k, hk⟩ := aligns.pow
  exact Base.roundUp_ofNat hk n

theorem Takes.start_le (takes : q.Takes r) (a : Nat) : a ≤ Record.start r a :=
  le_alignUp takes.align.pos

theorem Takes.le_stop (takes : q.Takes r) (a : Nat) : a ≤ Record.stop r a :=
  (takes.start_le a).trans (Nat.le_add_right _ _)

theorem byteAt_mask (shaped : q.Shaped) (x k : Nat) :
    q.byteAt ((BitVec.ofNat w x &&& q.capacityMask).toNat + k) = q.byteAt (x + k) := by
  obtain ⟨c, hc⟩ := shaped.pow
  unfold byteAt capacityMask
  rw [toNat_ofNat_and_mask hc (toNat_mask shaped.pos), mod_add_mod_add]

theorem setByte_mask (shaped : q.Shaped) (x k : Nat) (b : UInt8) :
    q.setByte ((BitVec.ofNat w x &&& q.capacityMask).toNat + k) b = q.setByte (x + k) b := by
  obtain ⟨c, hc⟩ := shaped.pow
  unfold setByte capacityMask
  rw [toNat_ofNat_and_mask hc (toNat_mask shaped.pos), mod_add_mod_add]

theorem byteAt_setByte_self (q : SpscQueue w) (p : Nat) (b : UInt8) :
    (q.setByte p b).byteAt p = b := by
  simp [byteAt, setByte]

/-- A store inside one window of the ring leaves the other positions of it alone. -/
theorem byteAt_setByte_of_ne (low : Nat) {p i : Nat} (b : UInt8) (hp : low ≤ p)
    (hp' : p < low + q.capacity.toNat) (hi : low ≤ i) (hi' : i < low + q.capacity.toNat)
    (ne : i ≠ p) : (q.setByte p b).byteAt i = q.byteAt i := by
  unfold byteAt setByte
  exact Function.update_of_ne (mod_ne_of_window hi hi' hp hp' ne) _ _

/-! ## The counters -/

theorem toNat_ofNat_length (shaped : q.Shaped) {n : Nat} (fits : n ≤ q.capacity.toNat) :
    (BitVec.ofNat w n).toNat = n := by
  have := shaped.half
  have := shaped.pos
  rw [BitVec.toNat_ofNat, Nat.mod_eq_of_lt (by omega)]

theorem Tracks.sizeConsumer (tracks : q.Tracks head tail cache) (shaped : q.Shaped) :
    q.sizeConsumer.toNat = tail - head := by
  obtain ⟨-, headCache, htail, -, le₁, le₂, room⟩ := tracks
  have := shaped.half
  have := shaped.pos
  rw [SpscQueue.sizeConsumer, headCache, htail, toNat_ofNat_sub le₁ (by omega)]

theorem Tracks.size (tracks : q.Tracks head tail cache) (shaped : q.Shaped) :
    q.size.toNat = tail - head := by
  obtain ⟨hhead, -, htail, -, le₁, le₂, room⟩ := tracks
  have := shaped.half
  have := shaped.pos
  rw [SpscQueue.size, hhead, htail, toNat_ofNat_sub le₁ (by omega)]

theorem Tracks.sizeProducer (tracks : q.Tracks head tail cache) (shaped : q.Shaped) :
    q.sizeProducer.toNat = cache - head := by
  obtain ⟨hhead, -, -, htailCache, le₁, le₂, room⟩ := tracks
  have := shaped.half
  have := shaped.pos
  rw [SpscQueue.sizeProducer, hhead, htailCache, toNat_ofNat_sub (by omega) (by omega)]

theorem Tracks.availableProducer (tracks : q.Tracks head tail cache) (shaped : q.Shaped) :
    q.availableProducer.toNat = head + q.capacity.toNat - cache := by
  have used := tracks.sizeProducer shaped
  obtain ⟨-, -, -, -, le₁, le₂, room⟩ := tracks
  rw [SpscQueue.availableProducer, BitVec.toNat_sub_of_le, used]
  · omega
  · rw [BitVec.le_def, used]
    omega

theorem toNat_needed (shaped : q.Shaped) (aligns : q.Aligns align) {n : Nat}
    (fits : n + align.toNat ≤ 2 ^ w) (a : Nat) :
    (BitVec.ofNat w n + (Base.roundUp (BitVec.ofNat w a) align - BitVec.ofNat w a)).toNat =
      n + (alignUp a align.toNat - a) := by
  have half := shaped.half
  have pos := shaped.pos
  have le := le_alignUp (n := a) aligns.pos
  have near := alignUp_lt (n := a) aligns.pos
  have alignLe := aligns.le
  have padding : (Base.roundUp (BitVec.ofNat w a) align - BitVec.ofNat w a).toNat =
      alignUp a align.toNat - a := by
    rw [aligns.roundUp, toNat_ofNat_sub le (by omega)]
  have alignPos := aligns.pos
  rw [BitVec.toNat_add, BitVec.toNat_ofNat, Nat.mod_eq_of_lt (by omega : n < 2 ^ w), padding,
    Nat.mod_eq_of_lt (by omega)]

/-- What the queue can hold is a word together with its padding. -/
theorem Takes.sum_le {r : Record w} (takes : q.Takes r) (shaped : q.Shaped) :
    r.bytes.length + r.align.toNat ≤ 2 ^ w := by
  have := shaped.half
  have := takes.fits
  have := takes.align.le
  omega

/-- `reserve` goes on exactly when the record and its padding end inside the room the
consumer has given back. -/
theorem Tracks.fits_iff (tracks : q.Tracks head tail cache) (shaped : q.Shaped)
    {r : Record w} (aligns : q.Aligns r.align) (sum : r.bytes.length + r.align.toNat ≤ 2 ^ w) :
    ¬ q.availableProducer < q.neededProducer r.size r.align ↔
      r.stop cache ≤ head + q.capacity.toNat := by
  have room := tracks.room
  have le : cache ≤ r.start cache := le_alignUp aligns.pos
  rw [BitVec.lt_def, tracks.availableProducer shaped, neededProducer, tracks.tailCache_eq,
    Record.size, toNat_needed shaped aligns sum]
  unfold Record.stop Record.start at *
  omega

/-- `dequeue` finds enough exactly when the record and its padding are published. -/
theorem Tracks.ready_iff (tracks : q.Tracks head tail cache) (shaped : q.Shaped)
    {r : Record w} (takes : q.Takes r) :
    ¬ q.sizeConsumer < q.neededConsumer r.size r.align ↔ r.stop head ≤ tail := by
  have le := takes.start_le head
  have le₁ := tracks.head_le
  rw [BitVec.lt_def, tracks.sizeConsumer shaped, neededConsumer, tracks.headCache_eq,
    Record.size, toNat_needed shaped takes.align (takes.sum_le shaped)]
  unfold Record.stop Record.start at *
  omega

theorem Tracks.take (tracks : q.Tracks head tail cache) (aligns : q.Aligns align)
    (fits : alignUp cache align.toNat ≤ head + q.capacity.toNat) :
    (q.take align).1.Tracks head tail (alignUp cache align.toNat) := by
  obtain ⟨hhead, hheadCache, htail, htailCache, le₁, le₂, room⟩ := tracks
  refine ⟨hhead, hheadCache, htail, ?_, le₁, le₂.trans (le_alignUp aligns.pos), fits⟩
  simp only [SpscQueue.take, htailCache, aligns.roundUp]

theorem Tracks.take_out (tracks : q.Tracks head tail cache) (aligns : q.Aligns align) :
    (q.take align).2 = BitVec.ofNat w (alignUp cache align.toNat) &&& q.capacityMask := by
  simp only [SpscQueue.take, tracks.tailCache_eq, aligns.roundUp]

theorem Tracks.setByte (tracks : q.Tracks head tail cache) (i : Nat) (b : UInt8) :
    (q.setByte i b).Tracks head tail cache := by
  obtain ⟨hhead, hheadCache, htail, htailCache, le₁, le₂, room⟩ := tracks
  exact ⟨hhead, hheadCache, htail, htailCache, le₁, le₂, room⟩

theorem Tracks.commit (tracks : q.Tracks head tail cache) {n : Nat}
    (fits : cache + n ≤ head + q.capacity.toNat) :
    (q.commit (BitVec.ofNat w n)).Tracks head (cache + n) (cache + n) := by
  obtain ⟨hhead, hheadCache, htail, htailCache, le₁, le₂, room⟩ := tracks
  refine ⟨hhead, hheadCache, ?_, ?_, by omega, Nat.le_refl _, fits⟩ <;>
    simp only [SpscQueue.commit, htailCache, BitVec.ofNat_add]

theorem Tracks.discard (tracks : q.Tracks head tail cache) {r : Record w} (takes : q.Takes r)
    (published : r.stop head ≤ tail) :
    (q.discard r.size r.align).Tracks (r.stop head) tail cache := by
  obtain ⟨hhead, hheadCache, htail, htailCache, le₁, le₂, room⟩ := tracks
  have moved := takes.le_stop head
  refine ⟨?_, ?_, htail, htailCache, published, le₂, ?_⟩
  · simp only [SpscQueue.discard, hheadCache, takes.align.roundUp, Record.size, Record.stop,
      Record.start, BitVec.ofNat_add]
  · simp only [SpscQueue.discard, hheadCache, takes.align.roundUp, Record.size, Record.stop,
      Record.start, BitVec.ofNat_add]
  · rw [discard_capacity]
    omega

theorem Tracks.peek (tracks : q.Tracks head tail cache) (aligns : q.Aligns align) :
    q.peek align = BitVec.ofNat w (alignUp head align.toNat) &&& q.capacityMask := by
  simp only [SpscQueue.peek, tracks.headCache_eq, aligns.roundUp]

end SpscQueue

/-! ## Records in the ring -/

theorem endOf_append (a : Nat) (rs ss : List (Record w)) :
    endOf a (rs ++ ss) = endOf (endOf a rs) ss := by
  induction rs generalizing a with
  | nil => rfl
  | cons r rs ih => exact ih (r.stop a)

namespace SpscQueue

variable {q : SpscQueue w}

theorem le_endOf {rs : List (Record w)} (takes : ∀ r ∈ rs, q.Takes r) (a : Nat) :
    a ≤ endOf a rs := by
  induction rs generalizing a with
  | nil => exact Nat.le_refl a
  | cons r rs ih =>
      have first := (takes r (by simp)).le_stop a
      have rest := ih (fun s hs => takes s (by simp [hs])) (r.stop a)
      exact first.trans rest

theorem holds_append (q : SpscQueue w) (a : Nat) (rs ss : List (Record w)) :
    q.Holds a (rs ++ ss) ↔ q.Holds a rs ∧ q.Holds (endOf a rs) ss := by
  induction rs generalizing a with
  | nil => simp [Holds, endOf]
  | cons r rs ih => simp only [List.cons_append, Holds, ih, endOf, and_assoc]

/-- Only the bytes and the capacity matter for what the ring holds. -/
theorem Holds.congr {q₁ q₂ : SpscQueue w} {a : Nat} {rs : List (Record w)}
    (h : q₁.Holds a rs) (data : q₂.data = q₁.data) (capacity : q₂.capacity = q₁.capacity) :
    q₂.Holds a rs := by
  induction rs generalizing a with
  | nil => trivial
  | cons r rs ih =>
      refine ⟨fun i hi => ?_, ih h.2⟩
      rw [← h.1 i hi, byteAt, byteAt, data, capacity]

/-- A store behind the last record, inside the room the producer was given, leaves every
record as it is. -/
theorem Holds.setByte (low : Nat) {p : Nat} (b : UInt8) (before : p < low + q.capacity.toNat)
    {a : Nat} {rs : List (Record w)} (takes : ∀ r ∈ rs, q.Takes r) (above : low ≤ a)
    (behind : endOf a rs ≤ p) (h : q.Holds a rs) : (q.setByte p b).Holds a rs := by
  induction rs generalizing a with
  | nil => trivial
  | cons r rs ih =>
      have own := takes r (by simp)
      have rest : ∀ s ∈ rs, q.Takes s := fun s hs => takes s (by simp [hs])
      have start := own.start_le a
      have stop := own.le_stop a
      have last : r.stop a ≤ p := (le_endOf rest (r.stop a)).trans behind
      refine ⟨fun i hi => ?_, ih rest (by omega) behind h.2⟩
      have place : r.start a + i < r.stop a := Nat.add_lt_add_left hi _
      rw [byteAt_setByte_of_ne low b (by omega) before (by omega) (by omega) (by omega)]
      exact h.1 i hi

/-- The bytes copied from where `peek` points are the bytes of the first record. -/
theorem Holds.copyFrom {head tail cache : Nat} (tracks : q.Tracks head tail cache)
    (shaped : q.Shaped) {r : Record w} (takes : q.Takes r) {rs : List (Record w)}
    (h : q.Holds head (r :: rs)) :
    q.copyFrom (q.peek r.align).toNat r.bytes.length = r.bytes := by
  apply List.ext_getElem
  · simp [SpscQueue.copyFrom]
  · intro i hi hi'
    simp only [SpscQueue.copyFrom, List.getElem_map, List.getElem_range]
    rw [tracks.peek takes.align, byteAt_mask shaped]
    exact h.1 i hi'

/-- A shorter copy is the front of a longer one. -/
theorem copyFrom_take (q : SpscQueue w) (i : Nat) {m n : Nat} (le : m ≤ n) :
    (q.copyFrom i n).take m = q.copyFrom i m := by
  rw [copyFrom, copyFrom, ← List.map_take, List.take_range, Nat.min_eq_left le]

/-- Dequeue one record after the other, with the producer standing still. -/
def drain (q : SpscQueue w) : List (BitVec w × BitVec w) →
    Option (List (List UInt8) × SpscQueue w)
  | [] => some ([], q)
  | (size, align) :: shapes => do
      let (bytes, q₁) ← q.dequeue size align
      let (rest, q₂) ← q₁.drain shapes
      return (bytes :: rest, q₂)

/-- A consumer that drains the queue now gets exactly the records that stand in the ring,
and then the queue is empty. -/
theorem Holds.drain {head tail cache : Nat} (tracks : q.Tracks head tail cache)
    (shaped : q.Shaped) {rs : List (Record w)} (takes : ∀ r ∈ rs, q.Takes r)
    (h : q.Holds head rs) (ends : endOf head rs = tail) :
    ∃ q', q.drain (rs.map fun r => (r.size, r.align)) = some (rs.map Record.bytes, q') ∧
      q'.sizeConsumer = 0 := by
  induction rs generalizing q head with
  | nil =>
      refine ⟨q, rfl, BitVec.eq_of_toNat_eq ?_⟩
      have := tracks.sizeConsumer shaped
      simp only [endOf] at ends
      simp [this, ends]
  | cons r rs ih =>
      have own := takes r (by simp)
      have rest : ∀ s ∈ rs, q.Takes s := fun s hs => takes s (by simp [hs])
      have published : r.stop head ≤ tail := by
        rw [← ends]
        exact le_endOf rest (r.stop head)
      have ready := (tracks.ready_iff shaped own).mpr published
      have next := tracks.discard own published
      have kept : (q.discard r.size r.align).Holds (r.stop head) rs := Holds.congr h.2 rfl rfl
      obtain ⟨q', hq', hempty⟩ :=
        ih next ⟨shaped.pow, shaped.half⟩ (fun s hs => ⟨⟨(rest s hs).align.pow,
          (rest s hs).align.le⟩, (rest s hs).fits⟩)  kept ends
      refine ⟨q', ?_, hempty⟩
      have bytes := h.copyFrom tracks shaped own
      have one : q.dequeue r.size r.align = some (r.bytes, q.discard r.size r.align) := by
        have len : r.size.toNat = r.bytes.length := toNat_ofNat_length shaped own.fits
        simp only [SpscQueue.dequeue, ready, if_false, len, bytes]
      simp only [List.map_cons, SpscQueue.drain, one, Option.bind_eq_bind, Option.bind_some, hq']
      rfl

end SpscQueue

end Fpag.Container
