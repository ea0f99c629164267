import Fpag.Container.SpscLayout

/-!
The producer's side of an `SpscQueue`, step by step.

A producer reserves room, writes into it byte by byte and commits it. The bytes it
writes are the slots of its request; a slot that is `none` is a byte of the reserved
room that the caller leaves as it is. `enqueue` is the case where every slot is
written. `Settled` is the invariant of the queue together with the producer that is
in the middle of it, over the positions and records that neither side stores.
-/

namespace Fpag.Container

variable {w : Nat}

/-- What a caller passes to `reserve`, writes, and passes to `commit`. -/
structure Request (w : Nat) : Type where
  slots : List (Option UInt8)
  align : BitVec w
  deriving DecidableEq

def Request.size (r : Request w) : BitVec w := BitVec.ofNat w r.slots.length

/-- The request of an `enqueue` of `bytes`. -/
def Request.ofBytes (bytes : List UInt8) (align : BitVec w) : Request w :=
  ⟨bytes.map some, align⟩

/-- Where the producer is in `reserve` + write + `commit`. -/
inductive Producer (w : Nat) : Type
  | idle
  | waiting (r : Request w) (needed : BitVec w)
  | writing (r : Request w) (out : BitVec w) (done : Nat)
  deriving DecidableEq

/-- What one step of the producer came to. -/
inductive Progress : Type
  | dropped
  | stalled
  | accepted
  | wrote
  | committed
  deriving DecidableEq, Repr

/-- The first step of a request: `reserve` up to its load of `head_`. -/
def Producer.request (q : SpscQueue w) (r : Request w) : SpscQueue w × Producer w × Progress :=
  match q.reserve r.size r.align with
  | (q', .dropped) => (q', .idle, .dropped)
  | (q', .blocked needed) => (q', .waiting r needed, .stalled)
  | (q', .ok out) => (q', .writing r out 0, .accepted)

/-- The queue after the write of one slot. -/
def SpscQueue.writeSlot (q : SpscQueue w) (i : Nat) : Option UInt8 → SpscQueue w
  | some b => q.setByte i b
  | none => q

/-- Every later step of a request: one turn of `wait_for_space_producer`, one byte of the
write, or the `commit`. -/
def Producer.advance (q : SpscQueue w) : Producer w → Option (SpscQueue w × Producer w × Progress)
  | .idle => none
  | .waiting r needed =>
      if q.availableProducer < needed then some (q, .waiting r needed, .stalled)
      else
        let taken := q.take r.align
        some (taken.1, .writing r taken.2 0, .accepted)
  | .writing r out done =>
      match r.slots[done]? with
      | some slot => some (q.writeSlot (out.toNat + done) slot, .writing r out (done + 1), .wrote)
      | none => some (q.commit r.size, .idle, .committed)

/-- No step of the producer touches the consumer's side of the queue. -/
structure SpscQueue.SameConsumer (q q' : SpscQueue w) : Prop where
  headCache : q'.headCache = q.headCache
  capacity : q'.capacity = q.capacity

theorem Producer.request_frame (q : SpscQueue w) (r : Request w) :
    q.SameConsumer (Producer.request q r).1 := by
  unfold Producer.request
  rcases q.reserve_cases r.size r.align with ⟨-, -, result⟩ | ⟨-, -, result⟩ | ⟨-, result⟩ <;>
    rw [result] <;> exact ⟨rfl, rfl⟩

theorem Producer.advance_frame {q : SpscQueue w} {p : Producer w}
    {result : SpscQueue w × Producer w × Progress} (step : p.advance q = some result) :
    q.SameConsumer result.1 := by
  cases p with
  | idle => cases step
  | waiting r needed =>
      simp only [Producer.advance] at step
      split at step <;> cases step <;> exact ⟨rfl, rfl⟩
  | writing r out done =>
      simp only [Producer.advance] at step
      split at step
      · rename_i slot next
        cases step
        cases slot <;> exact ⟨rfl, rfl⟩
      · cases step
        exact ⟨rfl, rfl⟩

/-- Only the first step of a request drops it. -/
theorem Producer.advance_droppedCount {q : SpscQueue w} {p : Producer w}
    {result : SpscQueue w × Producer w × Progress} (step : p.advance q = some result) :
    result.1.droppedCount = q.droppedCount := by
  cases p with
  | idle => cases step
  | waiting r needed =>
      simp only [Producer.advance] at step
      split at step <;> cases step <;> rfl
  | writing r out done =>
      simp only [Producer.advance] at step
      split at step
      · rename_i slot next
        cases step
        cases slot <;> rfl
      · cases step
        rfl

theorem SpscQueue.SameConsumer.peek {q q' : SpscQueue w} (same : q.SameConsumer q')
    (align : BitVec w) : q'.peek align = q.peek align := by
  simp only [SpscQueue.peek, SpscQueue.capacityMask, same.headCache, same.capacity]

/-- The record is one way to fill the request's slots. -/
structure Record.Fills (rec : Record w) (r : Request w) : Prop where
  align : rec.align = r.align
  length : rec.bytes.length = r.slots.length
  written : ∀ (i : Nat) (b : UInt8), r.slots[i]? = some (some b) → rec.bytes[i]? = some b

/-- A request the queue can answer: its alignment is one of the queue's, and its size is a word
together with its padding. It need not fit the queue; then it is dropped, or waits for ever. -/
structure SpscQueue.Serves (q : SpscQueue w) (r : Request w) : Prop where
  align : q.Aligns r.align
  fits : r.slots.length + r.align.toNat ≤ 2 ^ w

/-- What is true of the producer between its steps, with `opened` the record it is writing. -/
def Producer.Ok (q : SpscQueue w) (head tail cache : Nat) :
    Producer w → Option (Record w) → Prop
  | .idle, opened => cache = tail ∧ opened = none
  | .waiting r needed, opened =>
      cache = tail ∧ opened = none ∧ q.Serves r ∧ needed = q.neededProducer r.size r.align
  | .writing r out done, opened =>
      ∃ rec, opened = some rec ∧ rec.Fills r ∧ q.Takes rec ∧ cache = rec.start tail ∧
        rec.stop tail ≤ head + q.capacity.toNat ∧
        out = BitVec.ofNat w cache &&& q.capacityMask ∧
        ∀ i, ∀ h : i < rec.bytes.length, i < done ∨ r.slots[i]? = some none →
          q.byteAt (cache + i) = rec.bytes[i]

/-- The queue and its producer, over the records that stand in the ring. -/
structure Settled (q : SpscQueue w) (p : Producer w) (head tail cache : Nat)
    (pending : List (Record w)) (opened : Option (Record w)) : Prop where
  shaped : q.Shaped
  tracks : q.Tracks head tail cache
  takes : ∀ r ∈ pending, q.Takes r
  holds : q.Holds head pending
  ends : endOf head pending = tail
  producer : p.Ok q head tail cache opened

theorem Record.Fills.size {rec : Record w} {r : Request w} (fills : rec.Fills r) :
    rec.size = r.size := by
  rw [Record.size, Request.size, fills.length]

/-- A request for which there is room fits the queue. -/
theorem SpscQueue.Serves.takes {q : SpscQueue w} {rec : Record w} {r : Request w}
    {head tail cache : Nat} (serves : q.Serves r) (fills : rec.Fills r)
    (tracks : q.Tracks head tail cache) (stop : rec.stop cache ≤ head + q.capacity.toNat) :
    q.Takes rec := by
  have aligns : q.Aligns rec.align := fills.align ▸ serves.align
  have le : cache ≤ rec.start cache := le_alignUp aligns.pos
  have := tracks.head_le
  have := tracks.tail_le
  refine ⟨aligns, ?_⟩
  unfold Record.stop at stop
  omega

/-- A record that fills the slots of an `enqueue` is the enqueued bytes. -/
theorem Record.Fills.bytes_eq {rec : Record w} {bytes : List UInt8} {align : BitVec w}
    (fills : rec.Fills (.ofBytes bytes align)) : rec.bytes = bytes := by
  have length : rec.bytes.length = bytes.length := by
    simpa [Request.ofBytes] using fills.length
  apply List.ext_getElem length
  intro i hi hi'
  have written := fills.written i bytes[i] (by simp [Request.ofBytes, hi'])
  exact List.getElem_eq_iff hi |>.mpr written

/-- Capacity and mapping survive a store, so what the queue takes does too. -/
theorem SpscQueue.Takes.congr {q₁ q₂ : SpscQueue w} {r : Record w} (h : q₁.Takes r)
    (capacity : q₂.capacity = q₁.capacity) : q₂.Takes r :=
  ⟨⟨h.align.pow, capacity ▸ h.align.le⟩, capacity ▸ h.fits⟩

theorem SpscQueue.Serves.congr {q₁ q₂ : SpscQueue w} {r : Request w} (h : q₁.Serves r)
    (capacity : q₂.capacity = q₁.capacity) : q₂.Serves r :=
  ⟨⟨h.align.pow, capacity ▸ h.align.le⟩, h.fits⟩

theorem SpscQueue.Shaped.congr {q₁ q₂ : SpscQueue w} (h : q₁.Shaped)
    (capacity : q₂.capacity = q₁.capacity) : q₂.Shaped :=
  ⟨capacity ▸ h.pow, capacity ▸ h.half⟩

namespace Settled

variable {q : SpscQueue w} {p : Producer w} {head tail cache : Nat}
  {pending : List (Record w)} {opened : Option (Record w)}

/-- The record that is about to be written: the written slots, and what the room holds
where a slot is left as it is. -/
def opening (q : SpscQueue w) (r : Request w) (place : Nat) : Record w where
  bytes := r.slots.mapIdx fun i slot => slot.getD (q.byteAt (place + i))
  align := r.align

theorem opening_fills (q : SpscQueue w) (r : Request w) (place : Nat) :
    (opening q r place).Fills r where
  align := rfl
  length := by simp [opening]
  written := by
    intro i b h
    simp [opening, h]

/-- The room is there, so `take` opens the record at the aligned tail. -/
theorem take {r : Request w} (settled : Settled q p head tail cache pending opened)
    (closed : cache = tail) (serves : q.Serves r)
    (room : ¬ q.availableProducer < q.neededProducer r.size r.align) :
    ∃ rec cache', rec.Fills r ∧
      Settled (q.take r.align).1 (.writing r (q.take r.align).2 0) head tail cache' pending
        (some rec) := by
  obtain ⟨shaped, tracks, takes, holds, ends, -⟩ := settled
  subst closed
  let rec' := opening q r (alignUp cache r.align.toNat)
  have fills : rec'.Fills r := opening_fills q r _
  have stop : rec'.stop cache ≤ head + q.capacity.toNat := by
    rw [← fills.size] at room
    exact (tracks.fits_iff shaped serves.align (by rw [fills.length]; exact serves.fits)).mp room
  have own : q.Takes rec' := serves.takes fills tracks stop
  have start : alignUp cache r.align.toNat ≤ head + q.capacity.toNat :=
    (Nat.le_add_right _ _).trans stop
  refine ⟨rec', alignUp cache r.align.toNat, fills, ⟨shaped.congr rfl,
    tracks.take serves.align start, fun s hs => (takes s hs).congr rfl, holds.congr rfl rfl, ends,
    rec', rfl, fills, own.congr rfl, rfl, stop, tracks.take_out serves.align, ?_⟩⟩
  intro i hi either
  have kept : r.slots[i]? = some none := by
    rcases either with none | kept
    · exact (Nat.not_lt_zero i none).elim
    · exact kept
  have inside : i < r.slots.length := fills.length ▸ hi
  have slot : r.slots[i] = none := List.getElem_eq_iff inside |>.mpr kept
  simp [rec', opening, slot, SpscQueue.take, SpscQueue.byteAt]

/-- The first step of a request keeps the queue settled: it drops, it stalls, or it opens
the record. -/
theorem request {r : Request w} (settled : Settled q .idle head tail cache pending opened)
    (serves : q.Serves r) :
    (Producer.request q r = ({ q with droppedCount := q.droppedCount + 1 }, .idle, .dropped) ∧
      Settled { q with droppedCount := q.droppedCount + 1 } .idle head tail cache pending none) ∨
    (Producer.request q r = ({ q with blockedCount := q.blockedCount + 1 },
        .waiting r (q.neededProducer r.size r.align), .stalled) ∧
      Settled { q with blockedCount := q.blockedCount + 1 }
        (.waiting r (q.neededProducer r.size r.align)) head tail cache pending none) ∨
    (∃ rec cache', Producer.request q r =
        ((q.take r.align).1, .writing r (q.take r.align).2 0, .accepted) ∧ rec.Fills r ∧
      Settled (q.take r.align).1 (.writing r (q.take r.align).2 0) head tail cache' pending
        (some rec)) := by
  have closed : cache = tail := settled.producer.1
  rcases q.reserve_cases r.size r.align with
    ⟨-, -, result⟩ | ⟨-, -, result⟩ | ⟨room, result⟩
  · left
    obtain ⟨shaped, tracks, takes, holds, ends, -⟩ := settled
    obtain ⟨h₁, h₂, h₃, h₄, h₅, h₆, h₇⟩ := tracks
    refine ⟨by simp only [Producer.request, result], shaped.congr rfl,
      ⟨h₁, h₂, h₃, h₄, h₅, h₆, h₇⟩, fun s hs => (takes s hs).congr rfl, holds.congr rfl rfl, ends,
      closed, rfl⟩
  · right; left
    obtain ⟨shaped, tracks, takes, holds, ends, -⟩ := settled
    obtain ⟨h₁, h₂, h₃, h₄, h₅, h₆, h₇⟩ := tracks
    refine ⟨by simp only [Producer.request, result], shaped.congr rfl,
      ⟨h₁, h₂, h₃, h₄, h₅, h₆, h₇⟩, fun s hs => (takes s hs).congr rfl, holds.congr rfl rfl, ends,
      closed, rfl, serves.congr rfl, rfl⟩
  · right; right
    obtain ⟨rec, cache', fills, next⟩ := settled.take closed serves room
    exact ⟨rec, cache', by simp only [Producer.request, result], fills, next⟩

/-- One slot written behind everything that is pending. -/
theorem write {r : Request w} {out : BitVec w} {done : Nat} {slot : Option UInt8}
    (settled : Settled q (.writing r out done) head tail cache pending opened)
    (next : r.slots[done]? = some slot) :
    Settled (q.writeSlot (out.toNat + done) slot) (.writing r out (done + 1)) head tail cache
      pending opened := by
  obtain ⟨shaped, tracks, takes, holds, ends, rec, hopen, fills, own, place, stop, rfl, bytes⟩ :=
    settled
  have room := tracks.room
  have inside : done < rec.bytes.length := by
    rw [fills.length]
    exact (List.getElem?_eq_some_iff.mp next).1
  have last : cache + done < head + q.capacity.toNat := by
    have : cache + rec.bytes.length ≤ head + q.capacity.toNat := by
      rw [place]
      exact stop
    omega
  have behind : tail ≤ cache := tracks.tail_le
  have above : head ≤ tail := tracks.head_le
  cases slot with
  | none =>
      refine ⟨shaped, tracks, takes, holds, ends, rec, hopen, fills, own, place, stop, rfl, ?_⟩
      intro i hi either
      apply bytes i hi
      rcases either with before | kept
      · rcases Nat.lt_succ_iff_lt_or_eq.mp before with earlier | rfl
        · exact Or.inl earlier
        · exact Or.inr next
      · exact Or.inr kept
  | some b =>
      have written : rec.bytes[done] = b :=
        List.getElem_eq_iff inside |>.mpr (fills.written done b next)
      rw [SpscQueue.writeSlot, SpscQueue.setByte_mask shaped]
      refine ⟨shaped.congr rfl, tracks.setByte _ _, fun s hs => (takes s hs).congr rfl,
        holds.setByte head b last takes (Nat.le_refl _) (by omega), ends, rec, hopen, fills,
        own.congr rfl, place, stop, rfl, ?_⟩
      intro i hi either
      by_cases here : i = done
      · subst here
        rw [SpscQueue.byteAt_setByte_self, written]
      · have inRoom : cache + i < head + q.capacity.toNat := by
          have : cache + rec.bytes.length ≤ head + q.capacity.toNat := by
            rw [place]
            exact stop
          omega
        rw [SpscQueue.byteAt_setByte_of_ne head b (by omega) last (by omega) inRoom (by omega)]
        apply bytes i hi
        rcases either with before | kept
        · exact Or.inl (by omega)
        · exact Or.inr kept

/-- `commit` publishes the record behind the others. -/
theorem commit {r : Request w} {out : BitVec w} {done : Nat}
    (settled : Settled q (.writing r out done) head tail cache pending opened)
    (ended : r.slots[done]? = none) :
    ∃ rec tail', opened = some rec ∧ rec.Fills r ∧
      Settled (q.commit r.size) .idle head tail' tail' (pending ++ [rec]) none := by
  obtain ⟨shaped, tracks, takes, holds, ends, rec, hopen, fills, own, place, stop, hout, bytes⟩ :=
    settled
  have enough : r.slots.length ≤ done := List.getElem?_eq_none_iff.mp ended
  have fits : cache + rec.bytes.length ≤ head + q.capacity.toNat := by
    rw [place]
    exact stop
  have size : r.size = BitVec.ofNat w rec.bytes.length := by rw [Request.size, fills.length]
  refine ⟨rec, cache + rec.bytes.length, hopen, fills, shaped.congr rfl, ?_, ?_, ?_, ?_, rfl, rfl⟩
  · rw [size]
    exact tracks.commit fits
  · intro s hs
    rcases List.mem_append.mp hs with old | new
    · exact (takes s old).congr rfl
    · rw [List.mem_singleton.mp new]
      exact own.congr rfl
  · refine (SpscQueue.holds_append _ _ _ _).mpr ⟨holds.congr rfl rfl, fun i hi => ?_, trivial⟩
    rw [ends, ← place]
    exact bytes i hi (Or.inl (by
      have := fills.length
      omega))
  · rw [endOf_append, ends]
    simp only [endOf, Record.stop, ← place]

/-- Every later step of a request keeps the queue settled: it stalls, it opens the record,
it writes a byte of it, or it publishes it. -/
theorem advance {result : SpscQueue w × Producer w × Progress}
    (settled : Settled q p head tail cache pending opened)
    (step : p.advance q = some result) :
    (∃ r needed, p = .waiting r needed ∧ opened = none ∧ result = (q, p, .stalled)) ∨
    (∃ r needed q' out rec cache', p = .waiting r needed ∧ opened = none ∧ rec.Fills r ∧
      result = (q', .writing r out 0, .accepted) ∧
      Settled q' (.writing r out 0) head tail cache' pending (some rec)) ∨
    (∃ q' r out done, p = .writing r out done ∧ result = (q', .writing r out (done + 1), .wrote) ∧
      Settled q' (.writing r out (done + 1)) head tail cache pending opened) ∨
    (∃ q' r out done rec tail', p = .writing r out done ∧ result = (q', .idle, .committed) ∧
      opened = some rec ∧ Settled q' .idle head tail' tail' (pending ++ [rec]) none) := by
  cases p with
  | idle => cases step
  | waiting r needed =>
      obtain ⟨closed, hopen, serves, hneeded⟩ := settled.producer
      simp only [Producer.advance] at step
      split at step
      · cases step
        exact Or.inl ⟨r, needed, rfl, hopen, rfl⟩
      · rename_i room
        cases step
        rw [hneeded] at room
        obtain ⟨rec, cache', fills, next⟩ := settled.take closed serves room
        exact Or.inr (Or.inl ⟨r, needed, _, _, rec, cache', rfl, hopen, fills, rfl, next⟩)
  | writing r out done =>
      simp only [Producer.advance] at step
      split at step
      · rename_i slot next
        cases step
        exact Or.inr (Or.inr (Or.inl ⟨_, r, out, done, rfl, rfl, settled.write next⟩))
      · rename_i ended
        cases step
        obtain ⟨rec, tail', hopen, fills, next⟩ := settled.commit ended
        exact Or.inr (Or.inr (Or.inr ⟨_, r, out, done, rec, tail', rfl, rfl, hopen, next⟩))

/-- `discard` gives the first record's room back. -/
theorem discard {r : Record w} {rest : List (Record w)}
    (settled : Settled q p head tail cache (r :: rest) opened) :
    Settled (q.discard r.size r.align) p (r.stop head) tail cache rest opened := by
  obtain ⟨shaped, tracks, takes, holds, ends, producer⟩ := settled
  have own : q.Takes r := takes r (by simp)
  have others : ∀ s ∈ rest, q.Takes s := fun s hs => takes s (by simp [hs])
  have published : r.stop head ≤ tail := by
    rw [← ends]
    exact SpscQueue.le_endOf others (r.stop head)
  have moved := own.le_stop head
  refine ⟨shaped.congr rfl, tracks.discard own published,
    fun s hs => (others s hs).congr rfl, holds.2.congr rfl rfl, ends, ?_⟩
  cases p with
  | idle => exact producer
  | waiting s needed =>
      obtain ⟨closed, hopen, serves, hneeded⟩ := producer
      exact ⟨closed, hopen, serves.congr rfl, hneeded⟩
  | writing s out done =>
      obtain ⟨rec, hopen, fills, takesRec, place, stop, hout, bytes⟩ := producer
      refine ⟨rec, hopen, fills, takesRec.congr rfl, place, ?_, hout, bytes⟩
      rw [SpscQueue.discard_capacity]
      omega

end Settled

end Fpag.Container
