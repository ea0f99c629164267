import Fpag.Container.EmptyQueue
import Fpag.Mem.PageRuns

/-!
An `SpscQueue` in the memory of its process.

The producer and the consumer step as in `Spsc`, but the bytes of the ring are bytes of the
address space: a byte is written and read at `data_` plus its index, whichever half of the double
mapping that is. Between their steps the rest of the process allocates, commits, stores to and
gives back pages of its own.

The queue so run is the queue of `SpscQueue`, whose bytes stand in a ring of their own
(`queue_of_pages`).
-/

namespace Fpag.Container

open Mem Paging

variable {page : Nat}

/-- The pages of a process, the ring of a queue among them, and the queue on it. The `data` of
the queue is not used: its bytes are in the pages. -/
structure Mapped (page : Nat) : Type where
  pages : Ledger page
  ring : PageRegion
  spsc : Spsc 64

/-- One side of the queue moves, or the rest of the process calls the allocator or stores. -/
inductive MappedEvent : Type
  | side (side : Side)
  | other (call : PageCall)

namespace MappedEvent

/-- The rest of the process leaves a region alone. -/
def spares (r : PageRegion) : PageCall → Bool
  | .allocate .. => true
  | .commit q .. => q ≠ r
  | .free q => q ≠ r
  | .store q .. => q ≠ r

/-- The side of the queue that moves. -/
def side? : MappedEvent → Option Side
  | .side which => some which
  | .other _ => none

end MappedEvent

namespace Mapped

/-- The pointer that index `i` of the double mapping is. -/
def ptr (m : Mapped page) (i : Nat) : Nat := m.ring.base + i

/-- A step of the producer: a byte is written to the pages, all else is the queue's own. -/
def produce (m : Mapped page) : Option (Mapped page) :=
  match m.spsc.producer with
  | .writing r out done =>
      match r.slots[done]? with
      | some (some b) =>
          (m.pages.space.store (m.ptr (out.toNat + done)) b).map fun space =>
            { m with
              pages := { m.pages with space := space }
              spsc := { m.spsc with producer := .writing r out (done + 1) } }
      | _ => m.spsc.produce.map fun spsc => { m with spsc := spsc }
  | _ => m.spsc.produce.map fun spsc => { m with spsc := spsc }

/-- A step of the consumer: a byte is read from the pages, all else is the queue's own. -/
def consume (m : Mapped page) : Option (Mapped page) :=
  match m.spsc.consumer with
  | .reading t src got =>
      if got.length < t.size.toNat then
        (m.pages.space.load (m.ptr (src.toNat + got.length))).map fun b =>
          { m with spsc := { m.spsc with consumer := .reading t src (got ++ [b]) } }
      else m.spsc.consume.map fun spsc => { m with spsc := spsc }
  | .idle => m.spsc.consume.map fun spsc => { m with spsc := spsc }

def step (e : MappedEvent) (m : Mapped page) : Option (Mapped page) :=
  match e with
  | .side .producer => m.produce
  | .side .consumer => m.consume
  | .other call =>
      if MappedEvent.spares m.ring call then
        (m.pages.step call).map fun pages => { m with pages := pages }
      else none

/-- `SpscQueue::init` in a process: the checks of the capacity, then the ring. `none` is a failed
check, and the last of them is that a ring could be allocated. -/
def init (l : Ledger page) (a : Replies) (capacity : BitVec 64) (mode : Mode)
    (sends : List (Record 64)) (takes : List (Take 64)) : Option (Mapped page) :=
  match (SpscQueue.fresh 64).init page (fun _ => 0) capacity mode with
  | none => none
  | some q =>
      match allocateAliasedPages a capacity l.space with
      | some (some base, space) =>
          let ring : PageRegion := ⟨.aliased, base, capacity⟩
          some ⟨⟨space, ring :: l.live⟩, ring, .start q sends takes⟩
      | _ => none

end Mapped

/-! ## Indices stay within the double mapping -/

namespace Spsc

/-- The ring index of whoever is at work is below the capacity, and so is what is left to be
copied from it on. -/
structure Reaches {w : Nat} (s : Spsc w) : Prop where
  pos : 0 < s.queue.capacity.toNat
  sends : ∀ r ∈ s.sends, r.bytes.length ≤ s.queue.capacity.toNat
  takes : ∀ t ∈ s.takes, t.size.toNat ≤ s.queue.capacity.toNat
  waiting : ∀ r needed, s.producer = .waiting r needed → r.slots.length ≤ s.queue.capacity.toNat
  writing : ∀ r out done, s.producer = .writing r out done →
    out.toNat < s.queue.capacity.toNat ∧ r.slots.length ≤ s.queue.capacity.toNat
  reading : ∀ t src got, s.consumer = .reading t src got →
    src.toNat < s.queue.capacity.toNat ∧ t.size.toNat ≤ s.queue.capacity.toNat

variable {w : Nat} {s s' : Spsc w}

theorem masked_lt {q : SpscQueue w} (pos : 0 < q.capacity.toNat) (x : BitVec w) :
    (x &&& q.capacityMask).toNat < q.capacity.toNat := by
  have mask : q.capacityMask.toNat = q.capacity.toNat - 1 := toNat_mask pos
  have le : (x &&& q.capacityMask).toNat ≤ q.capacityMask.toNat := by
    rw [BitVec.toNat_and]
    exact Nat.and_le_right
  omega

theorem Reaches.produce (reaches : s.Reaches) (h : s.produce = some s') : s'.Reaches := by
  unfold Spsc.produce at h
  split at h
  · rename_i idle
    split at h
    · cases h
    · rename_i r rest sends
      have fits : r.request.slots.length ≤ s.queue.capacity.toNat := by
        have := reaches.sends r (by rw [sends]; exact List.mem_cons_self)
        simpa [Record.request, Request.ofBytes] using this
      have others : ∀ r ∈ s.sends.tail, r.bytes.length ≤ s.queue.capacity.toNat :=
        fun r member => reaches.sends r (List.mem_of_mem_tail member)
      cases h
      unfold Producer.request
      rcases s.queue.reserve_cases r.request.size r.request.align with
        ⟨-, -, result⟩ | ⟨-, -, result⟩ | ⟨-, result⟩ <;> rw [result]
      · refine { reaches with sends := others, waiting := ?_, writing := ?_ }
        · intro r' needed eq
          cases eq
        · intro r' out done eq
          cases eq
      · refine { reaches with waiting := ?_, writing := ?_ }
        · intro r' needed eq
          cases eq
          exact fits
        · intro r' out done eq
          cases eq
      · refine { reaches with sends := others, waiting := ?_, writing := ?_ }
        · intro r' needed eq
          cases eq
        · intro r' out done eq
          cases eq
          exact ⟨masked_lt reaches.pos _, fits⟩
  · rename_i p busy
    obtain ⟨result, moved, rfl⟩ := Option.map_eq_some_iff.mp h
    cases producer : s.producer with
    | idle => exact absurd producer busy
    | waiting r needed =>
        have fits := reaches.waiting r needed producer
        rw [producer] at moved
        simp only [Producer.advance] at moved
        split at moved <;> cases moved
        · refine { reaches with waiting := ?_, writing := ?_ }
          · intro r' needed' eq
            cases eq
            exact fits
          · intro r' out done eq
            cases eq
        · refine { reaches with sends := ?_, waiting := ?_, writing := ?_ }
          · exact fun r member => reaches.sends r (List.mem_of_mem_tail member)
          · intro r' needed' eq
            cases eq
          · intro r' out done eq
            cases eq
            exact ⟨masked_lt reaches.pos _, fits⟩
    | writing r out done =>
        have within := reaches.writing r out done producer
        rw [producer] at moved
        simp only [Producer.advance] at moved
        split at moved
        · rename_i slot next
          cases moved
          cases slot <;>
          · refine { reaches with waiting := ?_, writing := ?_ }
            · intro r' needed eq
              cases eq
            · intro r' out' done' eq
              cases eq
              exact within
        · cases moved
          refine { reaches with waiting := ?_, writing := ?_ }
          · intro r' needed eq
            cases eq
          · intro r' out' done' eq
            cases eq

theorem Reaches.consume (reaches : s.Reaches) (h : s.consume = some s') : s'.Reaches := by
  unfold Spsc.consume at h
  split at h
  · rename_i idle
    split at h
    · cases h
    · rename_i t next
      split at h
      · split at h <;> cases h
        exact reaches
      · cases h
        refine { reaches with reading := ?_ }
        intro t' src got eq
        cases eq
        exact ⟨masked_lt reaches.pos _, reaches.takes t (List.mem_of_getElem? next)⟩
  · rename_i t src got reading
    split at h
    · cases h
      refine { reaches with reading := ?_ }
      intro t' src' got' eq
      cases eq
      exact reaches.reading t src got reading
    · cases h
      refine { reaches with reading := ?_ }
      intro t' src' got' eq
      cases eq

/-! ## Steps that leave the bytes alone -/

/-- The same queue with other bytes. -/
def withData (s : Spsc w) (d : Nat → UInt8) : Spsc w :=
  { s with queue := { s.queue with data := d } }

theorem reserve_withData (q : SpscQueue w) (d : Nat → UInt8) (size align : BitVec w) :
    { q with data := d }.reserve size align =
      ({ (q.reserve size align).1 with data := d }, (q.reserve size align).2) := by
  rcases q.reserve_cases size align with
    ⟨short, mode, result⟩ | ⟨short, mode, result⟩ | ⟨enough, result⟩ <;>
    rw [result] <;> unfold SpscQueue.reserve
  · refine (if_pos short).trans ?_
    simp only [mode]
  · refine (if_pos short).trans ?_
    simp only [mode]
    rfl
  · exact if_neg enough

theorem produce_withData (d : Nat → UInt8)
    (still : ∀ r out done b, s.producer = .writing r out done → r.slots[done]? ≠ some (some b)) :
    (s.withData d).produce = s.produce.map (·.withData d) := by
  obtain ⟨q, p, consumer, sends, takes, accepted, received⟩ := s
  cases p with
  | idle =>
      cases sends with
      | nil => rfl
      | cons r rest =>
          simp only [Spsc.produce, withData, Option.map_some, Producer.request, reserve_withData]
          rcases q.reserve_cases r.request.size r.request.align with
            ⟨-, -, result⟩ | ⟨-, -, result⟩ | ⟨-, result⟩ <;> rw [result] <;> rfl
  | waiting r needed =>
      simp only [Spsc.produce, withData, Producer.advance]
      by_cases short : q.availableProducer < needed
      · rw [if_pos short]
        exact (congrArg _ (if_pos short)).trans rfl
      · rw [if_neg short]
        exact (congrArg _ (if_neg short)).trans rfl
  | writing r out done =>
      simp only [Spsc.produce, withData, Producer.advance]
      cases next : r.slots[done]? with
      | none => rfl
      | some slot =>
          cases slot with
          | none => rfl
          | some b => exact absurd next (still r out done b rfl)

theorem consume_withData (d : Nat → UInt8)
    (still : ∀ t src got, s.consumer = .reading t src got → ¬ got.length < t.size.toNat) :
    (s.withData d).consume = s.consume.map (·.withData d) := by
  obtain ⟨q, p, consumer, sends, takes, accepted, received⟩ := s
  cases consumer with
  | idle =>
      simp only [Spsc.consume, withData]
      cases takes[received.length]? with
      | none => rfl
      | some t =>
          dsimp only
          by_cases short : q.sizeConsumer < q.neededConsumer t.size t.align
          · rw [if_pos short]
            refine (if_pos short).trans ?_
            cases t.kind <;> rfl
          · rw [if_neg short]
            exact if_neg short
  | reading t src got =>
      simp only [Spsc.consume, withData, if_neg (still t src got rfl)]
      rfl

/-- What a step can change of the queue, when it leaves the bytes alone. -/
theorem data_of_withData {f : Spsc w → Option (Spsc w)}
    (commutes : f (s.withData s.queue.data) = (f s).map (·.withData s.queue.data))
    (h : f s = some s') : s'.queue.data = s.queue.data := by
  have same : s.withData s.queue.data = s := rfl
  rw [same, h, Option.map_some, Option.some_inj] at commutes
  exact congrArg (·.queue.data) commutes

theorem step_capacity {side : Side} (h : step side s = some s') :
    s'.queue.capacity = s.queue.capacity := by
  cases side with
  | producer =>
      simp only [step, Spsc.produce] at h
      split at h
      · split at h <;> cases h
        rw [(after_frame ..).1]
        exact (Producer.request_frame ..).capacity
      · obtain ⟨result, moved, rfl⟩ := Option.map_eq_some_iff.mp h
        rw [(after_frame ..).1]
        exact (Producer.advance_frame moved).capacity
  | consumer =>
      simp only [step, Spsc.consume] at h
      split at h
      · split at h
        · cases h
        · split at h
          · split at h <;> cases h
            rfl
          · cases h
            rfl
      · split at h <;> cases h <;> rfl

end Spsc

/-! ## The queue on pages is the queue -/

namespace Mapped

/-- The ring is out, and what it holds is the bytes of the queue `s`; all else of the two queues
is the same. -/
structure Shows (start : Space page) (m : Mapped page) (s : Spsc 64) : Prop where
  sound : Sound start m.pages
  out : m.ring ∈ m.pages.live
  kind : m.ring.kind = .aliased
  capacity : s.queue.capacity = m.ring.size
  laid : ∃ object, Laid start m.pages.space m.ring object ⟨s.queue.data, fun _ => true⟩
  same : m.spsc = s.withData m.spsc.queue.data
  reaches : s.Reaches

variable {start : Space page} {m : Mapped page} {s s' : Spsc 64}

theorem Shows.span (shows : Shows start m s) : m.ring.span = 2 * s.queue.capacity.toNat := by
  rw [PageRegion.span, shows.kind, shows.capacity]
  rfl

theorem Shows.load (shows : Shows start m s) {i : Nat} (inside : i < 2 * s.queue.capacity.toNat) :
    m.pages.space.load (m.ptr i) = some (s.queue.byteAt i) := by
  obtain ⟨object, laid⟩ := shows.laid
  rw [ptr, laid.load (shows.span ▸ inside), SpscQueue.byteAt, shows.capacity]
  rfl

/-- A step that leaves the pages and the bytes of the queue alone. -/
theorem Shows.still (shows : Shows start m s) (reaches : s'.Reaches)
    (data : s'.queue.data = s.queue.data) (capacity : s'.queue.capacity = s.queue.capacity) :
    Shows start { m with spsc := s'.withData m.spsc.queue.data } s' where
  sound := shows.sound
  out := shows.out
  kind := shows.kind
  capacity := capacity.trans shows.capacity
  laid := data ▸ shows.laid
  same := rfl
  reaches := reaches

/-- A step in which the queue does not touch its bytes. -/
theorem Shows.of_still (shows : Shows start m s) (side : Side)
    (commutes : ∀ d, Spsc.step side (s.withData d) = (Spsc.step side s).map (·.withData d)) :
    Option.Rel (Shows start) ((Spsc.step side m.spsc).map fun spsc => { m with spsc := spsc })
      (Spsc.step side s) := by
  rw [shows.same, commutes]
  cases moved : Spsc.step side s with
  | none => exact .none
  | some s' =>
      have reaches : s'.Reaches := by
        cases side with
        | producer => exact shows.reaches.produce moved
        | consumer => exact shows.reaches.consume moved
      exact .some (shows.still reaches (Spsc.data_of_withData (commutes _) moved)
        (Spsc.step_capacity moved))

theorem Shows.produce (shows : Shows start m s) :
    Option.Rel (Shows start) m.produce s.produce := by
  have producer : m.spsc.producer = s.producer := by rw [shows.same]; rfl
  by_cases still : ∀ r out done b, s.producer = .writing r out done → r.slots[done]? ≠ some (some b)
  · have plain : m.produce = m.spsc.produce.map fun spsc => { m with spsc := spsc } := by
      unfold Mapped.produce
      rw [producer]
      split
      · rename_i r out done writing
        split
        · rename_i b next
          exact absurd next (still r out done b writing)
        · rfl
      · rfl
    rw [plain]
    exact shows.of_still .producer fun d => Spsc.produce_withData d still
  · push Not at still
    obtain ⟨r, out, done, b, writing, next⟩ := still
    obtain ⟨near, fits⟩ := shows.reaches.writing r out done writing
    have within : done < r.slots.length := (List.getElem?_eq_some_iff.mp next).1
    have moved : s.produce = some { s with
        queue := s.queue.setByte (out.toNat + done) b
        producer := .writing r out (done + 1) } := by
      simp only [Spsc.produce, writing, Producer.advance, next]
      rfl
    obtain ⟨object, laid⟩ := shows.laid
    have inside : out.toNat + done < m.ring.span := by
      rw [shows.span]
      omega
    obtain ⟨space, stored⟩ : ∃ space,
        m.pages.space.store (m.ring.base + (out.toNat + done)) b = some space :=
      ⟨_, (laid.backed.store inside b).trans (if_pos rfl)⟩
    have called : m.pages.step (.store m.ring (out.toNat + done) b) =
        some ⟨space, m.pages.live⟩ := by
      rw [Ledger.step, if_pos ⟨shows.out, inside⟩, stored]
      rfl
    simp only [Mapped.produce, producer, writing, next, ptr, stored, Option.map_some]
    rw [moved]
    refine .some ⟨shows.sound.step called, shows.out, shows.kind, shows.capacity, ⟨object, ?_⟩, ?_,
      shows.reaches.produce moved⟩
    · have after := laid.step shows.sound called shows.out (by intro freed; cases freed)
      rw [Image.after, if_pos rfl, ← shows.capacity] at after
      exact after
    · rw [shows.same]
      rfl

theorem Shows.consume (shows : Shows start m s) :
    Option.Rel (Shows start) m.consume s.consume := by
  have consumer : m.spsc.consumer = s.consumer := by rw [shows.same]; rfl
  by_cases still : ∀ t src got, s.consumer = .reading t src got → ¬ got.length < t.size.toNat
  · have plain : m.consume = m.spsc.consume.map fun spsc => { m with spsc := spsc } := by
      unfold Mapped.consume
      rw [consumer]
      split
      · rename_i t src got reading
        exact if_neg (still t src got reading)
      · rfl
    rw [plain]
    exact shows.of_still .consumer fun d => Spsc.consume_withData d still
  · push Not at still
    obtain ⟨t, src, got, reading, short⟩ := still
    obtain ⟨near, fits⟩ := shows.reaches.reading t src got reading
    have byte := shows.load (i := src.toNat + got.length) (by omega)
    have moved : s.consume = some { s with
        consumer := .reading t src (got ++ [s.queue.byteAt (src.toNat + got.length)]) } := by
      simp only [Spsc.consume, reading, if_pos short]
    have next := shows.still (shows.reaches.consume moved) rfl rfl
    have same : { m.spsc with
        consumer := .reading t src (got ++ [s.queue.byteAt (src.toNat + got.length)]) } =
        Spsc.withData { s with
          consumer := .reading t src (got ++ [s.queue.byteAt (src.toNat + got.length)]) }
          m.spsc.queue.data := by
      rw [shows.same]
      rfl
    simp only [Mapped.consume, consumer, reading, if_pos short, byte, Option.map_some]
    rw [moved, same]
    exact .some next

theorem Shows.side (shows : Shows start m s) (side : Side) :
    Option.Rel (Shows start) (m.step (.side side)) (Spsc.step side s) := by
  cases side with
  | producer => exact shows.produce
  | consumer => exact shows.consume

theorem Shows.other (shows : Shows start m s) {call : PageCall} {m' : Mapped page}
    (h : step (.other call) m = some m') : Shows start m' s := by
  simp only [step] at h
  split at h
  · rename_i spares
    obtain ⟨pages, called, rfl⟩ := Option.map_eq_some_iff.mp h
    have kept : call ≠ .free m.ring := by
      rintro rfl
      simp [MappedEvent.spares] at spares
    obtain ⟨object, laid⟩ := shows.laid
    have after := laid.step shows.sound called shows.out kept
    have same : Image.after m.ring ⟨s.queue.data, fun _ => true⟩ call =
        ⟨s.queue.data, fun _ => true⟩ := by
      cases call with
      | allocate | free => rfl
      | commit | store => exact if_neg (of_decide_eq_true spares)
    rw [same] at after
    exact { shows with
      sound := shows.sound.step called
      out := shows.sound.stays called shows.out kept
      laid := ⟨object, after⟩ }
  · cases h

/-- What `init` sets up is an empty queue on a ring of its own. -/
theorem shows_of_init {l : Ledger page} {a : Replies} {capacity : BitVec 64} {mode : Mode}
    {sends : List (Record 64)} {takes : List (Take 64)} (sound : Sound start l)
    (h : init l a capacity mode sends takes = some m)
    (sendsOk : ∀ r ∈ sends, r.bytes.length ≤ capacity.toNat)
    (takesOk : ∀ t ∈ takes, t.size.toNat ≤ capacity.toNat) : Shows start m m.spsc := by
  unfold init at h
  split at h
  · cases h
  · rename_i q checked
    obtain ⟨shaped, -⟩ := SpscQueue.shaped_of_init (by decide) checked
    have fields : q.data = (fun _ => 0) ∧ q.capacity = capacity := by
      unfold SpscQueue.init at checked
      split at checked <;> cases checked
      exact ⟨rfl, rfl⟩
    obtain ⟨data, size⟩ := fields
    split at h
    · rename_i base space allocated
      cases h
      have called : l.step (.allocate .aliased capacity a) =
          some ⟨space, ⟨.aliased, base, capacity⟩ :: l.live⟩ := by
        simp only [Ledger.step, Ledger.allocate, allocated, Option.map_some]
      refine ⟨sound.step called, List.mem_cons_self, rfl, size, ⟨l.space.made, ?_⟩, rfl, ?_⟩
      · have made : Ledger.allocate .aliased a capacity l.space = some (some base, space) :=
          allocated
        obtain ⟨aligned, huge, comes⟩ := allocate_cases made
        cases comes with
        | handed gains =>
            have laid := sound.handed gains aligned huge
            rw [Spsc.start, data]
            exact laid
      · have pos := shaped.pos
        rw [← size] at sendsOk takesOk
        refine ⟨pos, sendsOk, takesOk, ?_, ?_, ?_⟩
        · intro r needed eq
          cases eq
        · intro r out done eq
          cases eq
        · intro t src got eq
          cases eq
    · cases h

/-- A queue in the memory of a process, of which the rest goes on allocating, storing and giving
back pages of its own, is the queue: what its two sides do is a run of the queue model, the same
side can move in both, the bytes of the ring stand at both of their addresses, and nothing outside
the regions of the process is touched. -/
theorem queue_of_pages {calls : List PageCall} {l : Ledger page} {a : Replies}
    {capacity : BitVec 64} {mode : Mode} {sends : List (Record 64)} {takes : List (Take 64)}
    {begin m : Mapped page} {events : List MappedEvent}
    (reached : Schedule.run Ledger.step (.start start) calls = some l)
    (h : init l a capacity mode sends takes = some begin)
    (sendsOk : ∀ r ∈ sends, r.bytes.length ≤ capacity.toNat)
    (takesOk : ∀ t ∈ takes, t.size.toNat ≤ capacity.toNat)
    (run : Schedule.run step begin events = some m) :
    ∃ s, Schedule.run Spsc.step begin.spsc (events.filterMap MappedEvent.side?) = some s ∧
      m.spsc = s.withData m.spsc.queue.data ∧
      (∀ side, (m.step (.side side)).isSome = (Spsc.step side s).isSome) ∧
      (∀ i < 2 * s.queue.capacity.toNat,
        m.pages.space.load (m.ptr i) = some (s.queue.byteAt i)) ∧
      Sound start m.pages := by
  have shows := shows_of_init (sound_of_run reached) h sendsOk takesOk
  have moves : ∀ {e side} {m m' : Mapped page} {s}, MappedEvent.side? e = some side →
      step e m = some m' → Shows start m s →
        ∃ s', Spsc.step side s = some s' ∧ Shows start m' s' := by
    intro e side m m' s seen moved shows
    cases e with
    | other call => cases seen
    | side which =>
        cases seen
        have both := shows.side side
        rw [moved] at both
        generalize Spsc.step side s = after at both ⊢
        cases both with
        | some shows' => exact ⟨_, rfl, shows'⟩
  have stutters : ∀ {e} {m m' : Mapped page} {s}, MappedEvent.side? e = none →
      step e m = some m' → Shows start m s → Shows start m' s := by
    intro e m m' s unseen moved shows
    cases e with
    | other call => exact shows.other moved
    | side which => cases unseen
  obtain ⟨s, ran, shows⟩ := Schedule.run_simulates moves stutters run shows
  refine ⟨s, ran, shows.same, ?_, fun i inside => shows.load inside, shows.sound⟩
  intro side
  have both := shows.side side
  generalize m.step (.side side) = after, Spsc.step side s = after' at both ⊢
  cases both <;> rfl

/-- A queue of four bytes and a record of three, with pages allocated and stored to in between. -/
def fewEvents : List MappedEvent :=
  [.side .producer, .side .producer, .other (.allocate .pages 4 { reserved := some 16 }),
    .side .producer, .other (.store ⟨.pages, 16, 4⟩ 1 9), .side .producer, .side .producer,
    .side .consumer, .side .consumer, .other (.free ⟨.pages, 16, 4⟩), .side .consumer,
    .side .consumer, .side .consumer]

theorem queue_of_pages_fewEvents :
    ∃ begin m : Mapped 4,
      init (.start (.empty 4)) { memfd := some 3, truncated := true, reserved := some 8 } 4 .drop
        [⟨[1, 2, 3], 1⟩] [⟨.dequeue, 3, 1⟩] = some begin ∧
      Schedule.run step begin fewEvents = some m ∧ m.spsc.received = [[1, 2, 3]] ∧
      m.pages.space.load 13 = some 2 ∧
      ∃ s, Schedule.run Spsc.step begin.spsc (fewEvents.filterMap MappedEvent.side?) = some s ∧
        m.spsc = s.withData m.spsc.queue.data := by
  have ran : ∃ begin m : Mapped 4,
      init (.start (.empty 4)) { memfd := some 3, truncated := true, reserved := some 8 } 4 .drop
        [⟨[1, 2, 3], 1⟩] [⟨.dequeue, 3, 1⟩] = some begin ∧
      Schedule.run step begin fewEvents = some m ∧ m.spsc.received = [[1, 2, 3]] ∧
      m.pages.space.load 13 = some 2 := ⟨_, _, rfl, rfl, rfl, rfl⟩
  obtain ⟨begin, m, h, run, received, byte⟩ := ran
  have reached : Schedule.run Ledger.step (.start (.empty 4)) [] = some (.start (.empty 4)) := rfl
  obtain ⟨s, ran, same, -⟩ := queue_of_pages reached h (by decide) (by decide) run
  exact ⟨begin, m, h, run, received, byte, s, ran, same⟩

end Mapped

end Fpag.Container
