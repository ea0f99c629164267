import Fpag.Container.SpscFifo

/-!
A producer in front of an empty queue.

`reserve` needs the room of the record and of the padding in front of it. On a drained queue
the whole capacity is there, so whether a record fits is decided by where the tail stands: the
caller has been told to keep the size within the capacity, and the padding comes on top of it.
Nothing but the tail matters here, neither what the consumer took nor whether its shapes were
those of the records, so the invariant is one of the producer alone.
-/

namespace Fpag.Container

variable {w : Nat} {q : SpscQueue w} {p : Producer w} {r : Request w}

/-- `n` more turns of `wait_for_space_producer`, with nobody else moving. -/
def waitAlone : Nat → SpscQueue w × Producer w × Progress → SpscQueue w × Producer w × Progress
  | n + 1, (q, p, .stalled) =>
      match p.advance q with
      | some next => waitAlone n next
      | none => (q, p, .stalled)
  | _, at_ => at_

/-- `reserve` comes to its end with the room it was asked for. -/
def Accepts (at_ : SpscQueue w × Producer w × Progress) : Prop :=
  ∃ n, (waitAlone n at_).2.2 = .accepted

/-- The room that a record of `size` bytes takes at the tail, with its padding. -/
def SpscQueue.roomAtTail (q : SpscQueue w) (size : Nat) (align : BitVec w) : Nat :=
  size + (Base.roundUp q.tail align - q.tail).toNat

/-- A producer that is not in the middle of a record has published all it wrote, and one that
waits does it for the room that its record takes at the tail. -/
def Producer.Rests (q : SpscQueue w) : Producer w → Prop
  | .idle => q.tailCache = q.tail
  | .waiting r needed => q.tailCache = q.tail ∧ needed = q.neededProducer r.size r.align
  | .writing .. => True

theorem Producer.Rests.request (rests : Producer.idle.Rests q) (r : Request w) :
    (Producer.request q r).2.1.Rests (Producer.request q r).1 := by
  unfold Producer.request
  rcases q.reserve_cases r.size r.align with ⟨-, -, result⟩ | ⟨-, -, result⟩ | ⟨-, result⟩
  · rw [result]
    exact rests
  · rw [result]
    exact ⟨rests, rfl⟩
  · rw [result]
    trivial

theorem Producer.Rests.advance {result : SpscQueue w × Producer w × Progress} (rests : p.Rests q)
    (step : p.advance q = some result) : result.2.1.Rests result.1 := by
  cases p with
  | idle => cases step
  | waiting r needed =>
      simp only [Producer.advance] at step
      split at step
      · cases step
        exact rests
      · cases step
        trivial
  | writing r out done =>
      simp only [Producer.advance] at step
      split at step
      · cases step
        trivial
      · cases step
        rfl

theorem Producer.Rests.discard (rests : p.Rests q) (size align : BitVec w) :
    p.Rests (q.discard size align) := by
  cases p with
  | idle => exact rests
  | waiting r needed => exact rests
  | writing r out done => trivial

/-! ## The drained queue -/

/-- On a drained queue the test of `reserve` compares the capacity with what the record takes at
the tail. -/
theorem fits_iff_of_drained (shaped : q.Shaped) (aligns : q.Aligns r.align)
    (small : r.slots.length ≤ q.capacity.toNat) (drained : q.size = 0)
    (closed : q.tailCache = q.tail) :
    ¬ q.availableProducer < q.neededProducer r.size r.align ↔
      q.roomAtTail r.slots.length r.align ≤ q.capacity.toNat := by
  have half := shaped.half
  have le := aligns.le
  have whole : q.availableProducer = q.capacity := by
    rw [SpscQueue.availableProducer, SpscQueue.sizeProducer, closed]
    change q.capacity - q.size = q.capacity
    rw [drained]
    simp
  have tail : BitVec.ofNat w q.tail.toNat = q.tail := by
    rw [BitVec.ofNat_toNat, BitVec.setWidth_eq]
  have needed := SpscQueue.toNat_needed shaped aligns (n := r.slots.length) (by omega) q.tail.toNat
  have padding := SpscQueue.toNat_needed shaped aligns (n := 0) (by omega) q.tail.toNat
  rw [tail] at needed padding
  rw [BitVec.lt_def, whole, SpscQueue.neededProducer, closed, Request.size, needed,
    SpscQueue.roomAtTail]
  simp only [BitVec.zero_add, Nat.zero_add] at padding
  rw [padding]
  omega

/-- A `reserve` that waits where there is no room goes on waiting. -/
theorem waitAlone_of_short {needed : BitVec w} (short : q.availableProducer < needed) (n : Nat) :
    waitAlone n (q, .waiting r needed, .stalled) = (q, .waiting r needed, .stalled) := by
  induction n with
  | zero => rfl
  | succ n ih =>
      rw [waitAlone, Producer.advance]
      simp only [short, if_true]
      exact ih

theorem waitAlone_of_settled {progress : Progress} (settled : progress ≠ .stalled) (n : Nat) :
    waitAlone n (q, p, progress) = (q, p, progress) := by
  cases n with
  | zero => cases progress <;> rfl
  | succ n =>
      cases progress with
      | stalled => exact (settled rfl).elim
      | _ => rfl

theorem accepts_waiting_iff {needed : BitVec w} :
    Accepts (q, .waiting r needed, .stalled) ↔ ¬ q.availableProducer < needed := by
  constructor
  · rintro ⟨n, accepted⟩ short
    rw [waitAlone_of_short short] at accepted
    cases accepted
  · intro room
    refine ⟨1, ?_⟩
    rw [waitAlone, Producer.advance]
    simp only [room, if_false]
    rfl

theorem accepts_request_iff :
    Accepts (Producer.request q r) ↔
      ¬ q.availableProducer < q.neededProducer r.size r.align := by
  unfold Producer.request
  rcases q.reserve_cases r.size r.align with
    ⟨short, -, result⟩ | ⟨short, -, result⟩ | ⟨room, result⟩
  · rw [result]
    refine ⟨?_, fun room => (room short).elim⟩
    rintro ⟨n, accepted⟩
    dsimp only at accepted
    rw [waitAlone_of_settled (by rintro ⟨⟩)] at accepted
    cases accepted
  · rw [result]
    exact accepts_waiting_iff
  · rw [result]
    exact ⟨fun _ => room, fun _ => ⟨0, rfl⟩⟩

/-- In block mode a request for which there is no room waits, however long nobody else moves. -/
theorem stalls_of_short (block : q.mode = .block)
    (short : q.availableProducer < q.neededProducer r.size r.align) (n : Nat) :
    (waitAlone n (Producer.request q r)).2.2 = .stalled := by
  have waits : Producer.request q r = ({ q with blockedCount := q.blockedCount + 1 },
      .waiting r (q.neededProducer r.size r.align), .stalled) := by
    simp only [Producer.request, SpscQueue.reserve, short, if_true, block]
  have stays :=
    waitAlone_of_short (q := { q with blockedCount := q.blockedCount + 1 }) (r := r) short n
  rw [waits]
  exact congrArg (fun at_ => at_.2.2) stays

/-! ## Every state -/

namespace Spsc

variable {s s' : Spsc w}

/-- What holds between the steps, whatever is sent and taken. -/
structure Steady (s : Spsc w) (capacity : BitVec w) : Prop where
  capacity_eq : s.queue.capacity = capacity
  rests : s.producer.Rests s.queue

theorem after_frame (s : Spsc w) (result : SpscQueue w × Producer w × Progress) :
    (s.after result).queue = result.1 ∧ (s.after result).producer = result.2.1 := by
  obtain ⟨q, p, progress⟩ := result
  cases progress <;> exact ⟨rfl, rfl⟩

theorem Steady.produce {capacity : BitVec w} (steady : s.Steady capacity)
    (step : s.produce = some s') : s'.Steady capacity := by
  have rests := steady.rests
  unfold Spsc.produce at step
  split at step
  · next idle =>
      rw [idle] at rests
      split at step
      · cases step
      · next r rest sends =>
          cases step
          obtain ⟨queue, producer⟩ := s.after_frame (Producer.request s.queue r.request)
          refine ⟨?_, ?_⟩
          · rw [queue, (Producer.request_frame s.queue r.request).capacity, steady.capacity_eq]
          · rw [queue, producer]
            exact rests.request r.request
  · obtain ⟨result, advanced, rfl⟩ := Option.map_eq_some_iff.mp step
    obtain ⟨queue, producer⟩ := s.after_frame result
    refine ⟨?_, ?_⟩
    · rw [queue, (Producer.advance_frame advanced).capacity, steady.capacity_eq]
    · rw [queue, producer]
      exact rests.advance advanced

theorem Steady.consume {capacity : BitVec w} (steady : s.Steady capacity)
    (step : s.consume = some s') : s'.Steady capacity := by
  unfold Spsc.consume at step
  split at step
  · split at step
    · cases step
    · split at step
      · split at step <;> cases step
        exact steady
      · cases step
        exact ⟨steady.capacity_eq, steady.rests⟩
  · split at step
    · cases step
      exact ⟨steady.capacity_eq, steady.rests⟩
    · cases step
      exact ⟨steady.capacity_eq, steady.rests.discard _ _⟩

theorem Steady.step {capacity : BitVec w} {side : Side} (step : Spsc.step side s = some s')
    (steady : s.Steady capacity) : s'.Steady capacity := by
  cases side with
  | producer => exact steady.produce step
  | consumer => exact steady.consume step

/-- Where `reserve` stands: it is called with the producer at rest, or it waits already. -/
inductive Asks (s : Spsc w) (r : Request w) : SpscQueue w × Producer w × Progress → Prop
  | calls (idle : s.producer = .idle) : Asks s r (Producer.request s.queue r)
  | waits {needed : BitVec w} (waiting : s.producer = .waiting r needed) :
      Asks s r (s.queue, .waiting r needed, .stalled)

/-- Once the consumer has taken everything, whatever was sent and taken before, `reserve` comes
to its end on its own exactly when the padding at the tail leaves the record enough of the
capacity. -/
theorem accepts_iff (wide : 32 ≤ w) {pageSize : Nat} {ring : Nat → UInt8} {capacity : BitVec w}
    {mode : Mode} {q : SpscQueue w}
    (init : (SpscQueue.fresh w).init pageSize ring capacity mode = some q)
    {sends : List (Record w)} {takes : List (Take w)} {schedule : List Side}
    (run : Schedule.run step (start q sends takes) schedule = some s)
    (drained : s.queue.size = 0) (permitted : Permitted capacity pageSize r.slots.length r.align)
    {at_ : SpscQueue w × Producer w × Progress} (asks : s.Asks r at_) :
    Accepts at_ ↔ s.queue.roomAtTail r.slots.length r.align ≤ s.queue.capacity.toNat := by
  obtain ⟨shaped, dvd⟩ := SpscQueue.shaped_of_init wide init
  have page : pageSize ≤ q.capacity.toNat := Nat.le_of_dvd shaped.pos dvd
  have fresh : q.tailCache = q.tail ∧ q.capacity = capacity := by
    unfold SpscQueue.init at init
    split at init <;> cases init
    exact ⟨rfl, rfl⟩
  obtain ⟨closed, rfl⟩ := fresh
  have steady : s.Steady q.capacity :=
    Schedule.run_invariant (fun step steady => Steady.step step steady) run ⟨rfl, closed⟩
  obtain ⟨small, pow, le⟩ := permitted
  have rests := steady.rests
  have here := shaped.congr steady.capacity_eq
  rw [← steady.capacity_eq] at page small
  have aligns : s.queue.Aligns r.align := ⟨Base.isPowerOfTwo_iff.mp pow, le.trans page⟩
  cases asks with
  | calls idle =>
      rw [idle] at rests
      rw [accepts_request_iff, fits_iff_of_drained here aligns small drained rests]
  | waits waiting =>
      rw [waiting] at rests
      rw [accepts_waiting_iff, rests.2,
        fits_iff_of_drained here aligns small drained rests.1]

/-- One byte has gone through the ring, so its tail is not aligned. -/
def oneByte (mode : Mode) : Spsc 64 :=
  start { onePage with mode := mode } [⟨[7], 1⟩] [⟨.dequeue, 1, 1⟩]

def oneByteSchedule : List Side :=
  [.producer, .producer, .producer, .consumer, .consumer, .consumer]

theorem oneByte_run (mode : Mode) :
    ∃ s, Schedule.run step (oneByte mode) oneByteSchedule = some s ∧ s.producer = .idle ∧
      s.queue.head = 1 ∧ s.queue.tail = 1 ∧ s.queue.tailCache = 1 ∧ s.queue.capacity = 4096 ∧
      s.queue.mode = mode := by
  have seen : (Schedule.run step (oneByte mode) oneByteSchedule).map
      (fun s => (s.producer, s.queue.head, s.queue.tail, s.queue.tailCache, s.queue.capacity,
        s.queue.mode)) = some (.idle, 1, 1, 1, 4096, mode) := by
    cases mode <;> decide
  obtain ⟨s, run, eq⟩ := Option.map_eq_some_iff.mp seen
  simp only [Prod.mk.injEq] at eq
  exact ⟨s, run, eq⟩

/-- A record for which there is room behind the padding. -/
theorem accepts_iff_oneByte :
    ∃ s, Schedule.run step (oneByte .block) oneByteSchedule = some s ∧
      Accepts (Producer.request s.queue ⟨List.replicate 4088 none, 8⟩) := by
  have init : (SpscQueue.fresh 64).init 4096 (fun _ => 0) 4096 .block =
      some { onePage with mode := .block } := rfl
  obtain ⟨s, run, idle, head, tail, -, capacity, -⟩ := oneByte_run .block
  have drained : s.queue.size = 0 := by
    rw [SpscQueue.size, tail, head]
    rfl
  refine ⟨s, run, (accepts_iff (by decide) init run drained ?_ (.calls idle)).mpr ?_⟩
  · simp only [Permitted, List.length_replicate]
    decide
  · rw [SpscQueue.roomAtTail, tail, capacity, List.length_replicate]
    decide

/-- A record as large as the ring: it is within what the caller may ask for, the ring is empty,
and the producer waits for ever. -/
theorem not_accepts_wholeRing :
    ∃ s, Schedule.run step (oneByte .block) oneByteSchedule = some s ∧ s.producer = .idle ∧
      s.queue.size = 0 ∧
      Permitted (4096 : BitVec 64) 4096 (List.replicate 4096 (none : Option UInt8)).length
        (8 : BitVec 64) ∧
      ∀ n, (waitAlone n (Producer.request s.queue ⟨List.replicate 4096 none, 8⟩)).2.2 =
        .stalled := by
  obtain ⟨s, run, idle, head, tail, tailCache, capacity, mode⟩ := oneByte_run .block
  refine ⟨s, run, idle, ?_, ?_, stalls_of_short mode ?_⟩
  · rw [SpscQueue.size, tail, head]
    rfl
  · simp only [Permitted, List.length_replicate]
    decide
  · rw [SpscQueue.availableProducer, SpscQueue.sizeProducer, SpscQueue.neededProducer, tailCache,
      head, capacity, Request.size, List.length_replicate]
    decide

end Spsc

end Fpag.Container
