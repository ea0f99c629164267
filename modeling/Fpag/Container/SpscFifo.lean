import Fpag.Container.SpscProducer
import Fpag.Lib.Schedule

/-!
One producer and one consumer on an `SpscQueue`, interleaved step by step.

A step is one atomic load or store of a counter, or one byte of a copy, with the
private computation around it. The consumer works through a list of shapes of its
own and recomputes every padding from `head_cache_`; that its shapes are those of the
accepted records (`Agrees`) is the one thing the two sides share outside the queue.

A record of no bytes that needs no padding asks for no room, so a consumer can take
it before the producer has offered it. `Fifo.ahead` is the part of the invariant that
accounts for such takes.
-/

namespace Fpag.Container

variable {w : Nat}

/-- How the consumer takes a record: with `dequeue`, or with `peek` and `discard` after it
made sure that the record is there. -/
inductive Taking : Type
  | dequeue
  | peek
  deriving DecidableEq, Repr

/-- One take of the consumer. -/
structure Take (w : Nat) : Type where
  kind : Taking
  size : BitVec w
  align : BitVec w
  deriving DecidableEq

/-- Where the consumer is: between takes, or copying the bytes of one. -/
inductive Consumer (w : Nat) : Type
  | idle
  | reading (t : Take w) (src : BitVec w) (got : List UInt8)
  deriving DecidableEq

/-- The two sides, the queue between them, and what the calls have returned so far. -/
structure Spsc (w : Nat) : Type where
  queue : SpscQueue w
  producer : Producer w
  consumer : Consumer w
  sends : List (Record w)
  takes : List (Take w)
  accepted : List (Record w)
  received : List (List UInt8)

inductive Side : Type
  | producer
  | consumer
  deriving DecidableEq, Repr

def Record.request (r : Record w) : Request w := .ofBytes r.bytes r.align

namespace Spsc

/-- The system after a step of the producer; a request leaves the list when `reserve` has
answered it. -/
def after (s : Spsc w) (result : SpscQueue w × Producer w × Progress) : Spsc w :=
  match result with
  | (q, p, .dropped) => { s with queue := q, producer := p, sends := s.sends.tail }
  | (q, p, .accepted) =>
      { s with queue := q, producer := p, sends := s.sends.tail,
               accepted := s.accepted ++ s.sends.head?.toList }
  | (q, p, _) => { s with queue := q, producer := p }

def produce (s : Spsc w) : Option (Spsc w) :=
  match s.producer with
  | .idle =>
      match s.sends with
      | [] => none
      | r :: _ => some (s.after (Producer.request s.queue r.request))
  | p => (p.advance s.queue).map s.after

def consume (s : Spsc w) : Option (Spsc w) :=
  match s.consumer with
  | .idle =>
      match s.takes[s.received.length]? with
      | none => none
      | some t =>
          if s.queue.sizeConsumer < s.queue.neededConsumer t.size t.align then
            match t.kind with
            | .dequeue => some s
            | .peek => none
          else some { s with consumer := .reading t (s.queue.peek t.align) [] }
  | .reading t src got =>
      if got.length < t.size.toNat then
        let b := s.queue.byteAt (src.toNat + got.length)
        some { s with consumer := .reading t src (got ++ [b]) }
      else
        some { s with queue := s.queue.discard t.size t.align, consumer := .idle,
                      received := s.received ++ [got] }

def step : Side → Spsc w → Option (Spsc w)
  | .producer, s => s.produce
  | .consumer, s => s.consume

/-- Both sides at rest on a queue that `init` has just set up. -/
def start (q : SpscQueue w) (sends : List (Record w)) (takes : List (Take w)) : Spsc w where
  queue := q
  producer := .idle
  consumer := .idle
  sends := sends
  takes := takes
  accepted := []
  received := []

/-- The accepted records whose `commit` has happened. -/
def published (s : Spsc w) : List (Record w) :=
  match s.producer with
  | .writing .. => s.accepted.dropLast
  | _ => s.accepted

/-- The consumer's shapes are those of the accepted records, as far as both go. -/
def Agrees (takes : List (Take w)) (accepted : List (Record w)) : Prop :=
  ∀ p ∈ takes.zip accepted, p.1.size = p.2.size ∧ p.1.align = p.2.align

instance (takes : List (Take w)) (accepted : List (Record w)) :
    Decidable (Agrees takes accepted) :=
  inferInstanceAs (Decidable (∀ p ∈ takes.zip accepted, _))

theorem Agrees.at {takes : List (Take w)} {accepted : List (Record w)} (h : Agrees takes accepted)
    {i : Nat} {t : Take w} {r : Record w} (ht : takes[i]? = some t) (hr : accepted[i]? = some r) :
    t.size = r.size ∧ t.align = r.align :=
  h (t, r) (List.mem_of_getElem? (List.getElem?_zip_eq_some.mpr ⟨ht, hr⟩))

theorem Agrees.of_append {takes : List (Take w)} {rs ss : List (Record w)}
    (h : Agrees takes (rs ++ ss)) : Agrees takes rs := by
  intro p hp
  obtain ⟨i, hi⟩ := List.getElem?_of_mem hp
  obtain ⟨ht, hr⟩ := List.getElem?_zip_eq_some.mp hi
  apply h.at ht
  rw [List.getElem?_append_left (List.getElem?_eq_some_iff.mp hr).1]
  exact hr

/-- What holds between the steps, over the positions behind the counters, the published
records `recs` and the record the producer is writing. -/
structure Fifo (s : Spsc w) (head tail cache : Nat) (recs : List (Record w))
    (opened : Option (Record w)) : Prop where
  settled : Settled s.queue s.producer head tail cache (recs.drop s.received.length) opened
  accepted : s.accepted = recs ++ opened.toList
  waiting : ∀ r needed, s.producer = .waiting r needed →
    ∃ rec rest, s.sends = rec :: rest ∧ r = rec.request
  serves : ∀ r ∈ s.sends, s.queue.Serves r.request
  takes : ∀ t ∈ s.takes, s.queue.Aligns t.align ∧ t.size.toNat ≤ s.queue.capacity.toNat
  delivered : ∀ (i : Nat) (b : List UInt8) (r : Record w),
    s.received[i]? = some b → recs[i]? = some r → b = r.bytes
  ahead : ∀ i, recs.length ≤ i → i < s.received.length →
    ∃ t, s.takes[i]? = some t ∧ t.size = 0 ∧ t.align.toNat ∣ head ∧ s.received[i]? = some []
  reading : ∀ t src got, s.consumer = .reading t src got →
    s.takes[s.received.length]? = some t ∧ src = s.queue.peek t.align ∧
      (∀ r, recs[s.received.length]? = some r → got <+: r.bytes) ∧
      (recs.length ≤ s.received.length → t.size = 0 ∧ t.align.toNat ∣ head ∧ got = [])

theorem Record.Fills.eq {rec r : Record w} (fills : rec.Fills r.request) : rec = r := by
  obtain ⟨bytes, align⟩ := rec
  obtain ⟨bytes', align'⟩ := r
  have hb : bytes = bytes' := fills.bytes_eq
  have ha : align = align' := fills.align
  rw [hb, ha]

variable {s s' : Spsc w} {head tail cache tail' cache' : Nat} {recs : List (Record w)}
  {opened opened' : Option (Record w)}

/-! ## Steps of the producer -/

/-- A step of the producer that publishes nothing. -/
theorem Fifo.unpublished (fifo : Fifo s head tail cache recs opened)
    (same : s.queue.SameConsumer s'.queue) (consumer : s'.consumer = s.consumer)
    (takes : s'.takes = s.takes) (received : s'.received = s.received)
    (sends : ∀ r ∈ s'.sends, r ∈ s.sends)
    (waiting : ∀ r needed, s'.producer = .waiting r needed →
      ∃ rec rest, s'.sends = rec :: rest ∧ r = rec.request)
    (settled : Settled s'.queue s'.producer head tail' cache' (recs.drop s.received.length) opened')
    (accepted : s'.accepted = recs ++ opened'.toList) :
    Fifo s' head tail' cache' recs opened' where
  settled := received ▸ settled
  accepted := accepted
  waiting := waiting
  serves := fun r hr => (fifo.serves r (sends r hr)).congr same.capacity
  takes := by
    intro t ht
    obtain ⟨aligns, size⟩ := fifo.takes t (takes ▸ ht)
    exact ⟨⟨aligns.pow, same.capacity ▸ aligns.le⟩, same.capacity ▸ size⟩
  delivered := received ▸ fifo.delivered
  ahead := by
    rw [received, takes]
    exact fifo.ahead
  reading := by
    intro t src got h
    rw [received, takes, same.peek]
    exact fifo.reading t src got (consumer ▸ h)

/-- The `commit` of a record, whether or not the consumer was ahead of it. -/
theorem Fifo.publish {record : Record w} (fifo : Fifo s head tail cache recs (some record))
    (agrees : Agrees s.takes s.accepted) {q : SpscQueue w} (same : s.queue.SameConsumer q)
    (settled : Settled q .idle head tail' tail' (recs.drop s.received.length ++ [record]) none) :
    ∃ tail'', Fifo { s with queue := q, producer := .idle } head tail'' tail'' (recs ++ [record])
      none := by
  have accepted : s.accepted = recs ++ [record] := fifo.accepted
  have index : s.accepted[recs.length]? = some record := by simp [accepted]
  have takes : ∀ t ∈ s.takes, q.Aligns t.align ∧ t.size.toNat ≤ q.capacity.toNat := by
    intro t ht
    obtain ⟨aligns, size⟩ := fifo.takes t ht
    exact ⟨⟨aligns.pow, same.capacity ▸ aligns.le⟩, same.capacity ▸ size⟩
  have serves : ∀ r ∈ s.sends, q.Serves r.request :=
    fun r hr => (fifo.serves r hr).congr same.capacity
  -- A take of no bytes at this index fixes the record to be one of no bytes.
  have nothing : ∀ t, s.takes[recs.length]? = some t → t.size = 0 → record.bytes = [] := by
    intro t ht zero
    have size := (agrees.at ht index).1
    rw [zero] at size
    have own : record.bytes.length ≤ q.capacity.toNat :=
      (settled.takes record (by simp)).fits
    have length := SpscQueue.toNat_ofNat_length settled.shaped own
    rw [Record.size] at size
    rw [← size] at length
    exact List.length_eq_zero_iff.mp (by simpa using length.symm)
  have reading : ∀ t src got, s.consumer = .reading t src got →
      s.takes[s.received.length]? = some t ∧ src = q.peek t.align ∧
        (∀ r, (recs ++ [record])[s.received.length]? = some r → got <+: r.bytes) ∧
        ((recs ++ [record]).length ≤ s.received.length →
          t.size = 0 ∧ t.align.toNat ∣ head ∧ got = []) := by
    intro t src got h
    obtain ⟨ht, hsrc, hgot, hahead⟩ := fifo.reading t src got h
    refine ⟨ht, by rw [same.peek]; exact hsrc, ?_, fun le => hahead (by simp at le; omega)⟩
    intro r hr
    by_cases old : s.received.length < recs.length
    · rw [List.getElem?_append_left old] at hr
      exact hgot r hr
    · rw [(hahead (by omega)).2.2]
      exact List.nil_prefix
  by_cases behind : s.received.length ≤ recs.length
  · refine ⟨tail', ⟨?_, by simpa using accepted, by simp, serves, takes, ?_, ?_, reading⟩⟩
    · rw [← List.drop_append_of_le_length behind] at settled
      exact settled
    · intro i b r hb hr
      by_cases old : i < recs.length
      · rw [List.getElem?_append_left old] at hr
        exact fifo.delivered i b r hb hr
      · have : i < s.received.length := (List.getElem?_eq_some_iff.mp hb).1
        omega
    · intro i le lt
      simp at le
      have : i < s.received.length := lt
      omega
  · -- The consumer has taken this record before it was written: it has no bytes and no padding.
    obtain ⟨t, ht, zero, dvd, got⟩ := fifo.ahead recs.length (Nat.le_refl _) (by omega)
    have empty := nothing t ht zero
    have none : recs.drop s.received.length = [] := List.drop_eq_nil_of_le (by omega)
    have align : t.align = record.align := (agrees.at ht index).2
    rw [none, List.nil_append] at settled
    have own : q.Takes record := settled.takes record (by simp)
    have stop : record.stop head = head := by
      rw [Record.stop, empty, Record.start, alignUp_eq_self own.align.pos (align ▸ dvd)]
      rfl
    have ends : tail' = head := by
      rw [← settled.ends]
      exact stop
    refine ⟨tail', ⟨?_, by simpa using accepted, by simp, serves, takes, ?_, ?_, reading⟩⟩
    · have none : (recs ++ [record]).drop s.received.length = [] :=
        List.drop_eq_nil_of_le (by simp; omega)
      simp only [none]
      exact ⟨settled.shaped, settled.tracks, by simp, trivial, ends.symm, settled.producer⟩
    · intro i b r hb hr
      by_cases old : i < recs.length
      · rw [List.getElem?_append_left old] at hr
        exact fifo.delivered i b r hb hr
      · have last : i = recs.length := by
          have := (List.getElem?_eq_some_iff.mp hr).1
          simp at this
          omega
        subst last
        rw [List.getElem?_append_right (Nat.le_refl _)] at hr
        simp at hr
        rw [got] at hb
        cases hb
        rw [← hr, empty]
    · intro i le lt
      exact fifo.ahead i (by simp at le; omega) lt

/-- Every step of the producer keeps the invariant. -/
theorem Fifo.produce (fifo : Fifo s head tail cache recs opened)
    (agrees : Agrees s'.takes s'.accepted) (step : s.produce = some s') :
    ∃ tail' cache' recs' opened', Fifo s' head tail' cache' recs' opened' := by
  unfold Spsc.produce at step
  split at step
  · rename_i idle
    split at step
    · cases step
    · rename_i r rest sends
      cases step
      have settled := fifo.settled
      rw [idle] at settled
      have closed : opened = none := settled.producer.2
      have frame := Producer.request_frame s.queue r.request
      have accepted := fifo.accepted
      rw [closed] at accepted
      rcases settled.request (fifo.serves r (by simp [sends])) with
        ⟨result, next⟩ | ⟨result, next⟩ | ⟨record, cache', result, fills, next⟩
      · rw [result] at frame ⊢
        exact ⟨_, _, _, _, fifo.unpublished frame rfl rfl rfl
          (fun x hx => List.mem_of_mem_tail hx) (by rintro _ _ ⟨⟩) next accepted⟩
      · rw [result] at frame ⊢
        refine ⟨_, _, _, _, fifo.unpublished frame rfl rfl rfl (fun x hx => hx) ?_ next accepted⟩
        rintro _ _ ⟨⟩
        exact ⟨r, rest, sends, rfl⟩
      · rw [result] at frame ⊢
        refine ⟨_, _, _, _, fifo.unpublished frame rfl rfl rfl
          (fun x hx => List.mem_of_mem_tail hx) (by rintro _ _ ⟨⟩) next ?_⟩
        simp [after, sends, accepted, Record.Fills.eq fills]
  · obtain ⟨result, hstep, rfl⟩ := Option.map_eq_some_iff.mp step
    have frame := Producer.advance_frame hstep
    have accepted := fifo.accepted
    rcases fifo.settled.advance hstep with
      ⟨r, needed, waiting, closed, rfl⟩ |
      ⟨r, needed, q, out, record, cache', waiting, closed, fills, rfl, next⟩ |
      ⟨q, r, out, done, -, rfl, next⟩ | ⟨q, r, out, done, record, tail', -, rfl, rfl, next⟩
    · exact ⟨_, _, _, _, fifo.unpublished frame rfl rfl rfl (fun x hx => hx) fifo.waiting
        fifo.settled accepted⟩
    · rw [closed] at accepted
      obtain ⟨first, rest, sends, rfl⟩ := fifo.waiting r needed waiting
      refine ⟨_, _, _, _, fifo.unpublished frame rfl rfl rfl
        (fun x hx => List.mem_of_mem_tail hx) (by rintro _ _ ⟨⟩) next ?_⟩
      simp [after, sends, accepted, Record.Fills.eq fills]
    · exact ⟨_, _, _, _, fifo.unpublished frame rfl rfl rfl (fun x hx => hx) (by rintro _ _ ⟨⟩)
        next accepted⟩
    · obtain ⟨tail'', published⟩ := fifo.publish agrees frame next
      exact ⟨_, _, _, _, published⟩

/-! ## Steps of the consumer -/

/-- A take with nothing behind it in the ring finds room for itself only when it asks for
none. -/
theorem Fifo.free_of_ready (fifo : Fifo s head tail cache recs opened) {t : Take w}
    (ht : t ∈ s.takes) (beyond : recs.length ≤ s.received.length)
    (ready : ¬ s.queue.sizeConsumer < s.queue.neededConsumer t.size t.align) :
    t.size = 0 ∧ t.align.toNat ∣ head := by
  obtain ⟨aligns, fits⟩ := fifo.takes t ht
  have shaped := fifo.settled.shaped
  have tracks := fifo.settled.tracks
  have none : recs.drop s.received.length = [] := List.drop_eq_nil_of_le beyond
  have level : head = tail := by
    have ends := fifo.settled.ends
    rw [none] at ends
    exact ends
  have size : BitVec.ofNat w t.size.toNat = t.size := by simp
  have sum : t.size.toNat + t.align.toNat ≤ 2 ^ w := by
    have := shaped.half
    have := aligns.le
    omega
  rw [BitVec.lt_def, tracks.sizeConsumer shaped, SpscQueue.neededConsumer, tracks.headCache_eq,
    ← size, SpscQueue.toNat_needed shaped aligns sum] at ready
  have le := le_alignUp (n := head) aligns.pos
  have flat : alignUp head t.align.toNat = head := by omega
  refine ⟨BitVec.eq_of_toNat_eq ?_, ?_⟩
  · simp
    omega
  · rw [← flat]
    exact dvd_alignUp head t.align.toNat

/-- The take at the consumer's index has the shape of the record at that index. -/
theorem Fifo.shape (fifo : Fifo s head tail cache recs opened)
    (agrees : Agrees s.takes s.accepted) {i : Nat} {t : Take w} {r : Record w}
    (ht : s.takes[i]? = some t) (hr : recs[i]? = some r) :
    t.size = r.size ∧ t.align = r.align := by
  apply agrees.at ht
  rw [fifo.accepted, List.getElem?_append_left (List.getElem?_eq_some_iff.mp hr).1]
  exact hr

section Reading

variable {t : Take w} {src : BitVec w} {got : List UInt8}

/-- The byte that the consumer copies is the next one of the record at its index. -/
theorem Fifo.copyByte (fifo : Fifo s head tail cache recs opened)
    (agrees : Agrees s.takes s.accepted) (reading : s.consumer = .reading t src got)
    (more : got.length < t.size.toNat) :
    Fifo { s with consumer := .reading t src (got ++ [s.queue.byteAt (src.toNat + got.length)]) }
      head tail cache recs opened := by
  obtain ⟨ht, hsrc, hgot, beyond⟩ := fifo.reading t src got reading
  obtain ⟨aligns, -⟩ := fifo.takes t (List.mem_of_getElem? ht)
  have shaped := fifo.settled.shaped
  have tracks := fifo.settled.tracks
  refine ⟨fifo.settled, fifo.accepted, fifo.waiting, fifo.serves, fifo.takes, fifo.delivered,
    fifo.ahead, ?_⟩
  rintro t' src' got' ⟨⟩
  refine ⟨ht, hsrc, ?_, fun le => ?_⟩
  · intro r hr
    obtain ⟨size, align⟩ := fifo.shape agrees ht hr
    have pending : recs.drop s.received.length = r :: recs.drop (s.received.length + 1) :=
      List.drop_eq_getElem?_toList_append.trans (by simp [hr])
    have holds := fifo.settled.holds
    rw [pending] at holds
    have own := fifo.settled.takes r (by simp [pending])
    have inside : got.length < r.bytes.length := by
      rw [size, Record.size, SpscQueue.toNat_ofNat_length shaped own.fits] at more
      exact more
    obtain ⟨tail, htail⟩ := hgot r hr
    rw [hsrc, tracks.peek aligns, SpscQueue.byteAt_mask shaped, align]
    rw [show alignUp head r.align.toNat = r.start head from rfl, holds.1 got.length inside]
    refine ⟨tail.tail, ?_⟩
    cases tail with
    | nil =>
        rw [List.append_nil] at htail
        rw [htail] at inside
        exact (Nat.lt_irrefl _ inside).elim
    | cons b tail =>
        simp only [← htail]
        simp
  · obtain ⟨zero, -, -⟩ := beyond le
    rw [zero] at more
    simp at more

/-- The record at the consumer's index is in the ring: its room goes back. -/
theorem Fifo.take (fifo : Fifo s head tail cache recs opened)
    (agrees : Agrees s.takes s.accepted) (reading : s.consumer = .reading t src got)
    (enough : ¬ got.length < t.size.toNat) {r : Record w} (hr : recs[s.received.length]? = some r) :
    Fifo { s with queue := s.queue.discard t.size t.align, consumer := .idle,
                  received := s.received ++ [got] } (r.stop head) tail cache recs opened := by
  obtain ⟨ht, -, hgot, -⟩ := fifo.reading t src got reading
  have shaped := fifo.settled.shaped
  obtain ⟨size, align⟩ := fifo.shape agrees ht hr
  have behind : s.received.length < recs.length := (List.getElem?_eq_some_iff.mp hr).1
  have pending : recs.drop s.received.length = r :: recs.drop (s.received.length + 1) :=
    List.drop_eq_getElem?_toList_append.trans (by simp [hr])
  have settled := fifo.settled
  rw [pending] at settled
  have own := settled.takes r (by simp)
  have next := settled.discard
  have whole : got = r.bytes := by
    apply (hgot r hr).eq_of_length_le
    rw [size, Record.size, SpscQueue.toNat_ofNat_length shaped own.fits] at enough
    omega
  refine ⟨?_, fifo.accepted, fifo.waiting, fun x hx => (fifo.serves x hx).congr rfl, ?_, ?_, ?_,
    by rintro _ _ _ ⟨⟩⟩
  · rw [size, align]
    simpa using next
  · intro t' ht'
    obtain ⟨a, b⟩ := fifo.takes t' ht'
    exact ⟨⟨a.pow, a.le⟩, b⟩
  · intro i b r' hb hr'
    by_cases old : i < s.received.length
    · rw [List.getElem?_append_left old] at hb
      exact fifo.delivered i b r' hb hr'
    · have last : i = s.received.length := by
        have := (List.getElem?_eq_some_iff.mp hb).1
        simp at this
        omega
      subst last
      simp at hb
      rw [hr] at hr'
      cases hr'
      rw [← hb, whole]
  · intro i le lt
    simp at lt
    omega

/-- The take is ahead of the producer: it asks for nothing and moves nothing. -/
theorem Fifo.takeAhead (fifo : Fifo s head tail cache recs opened)
    (reading : s.consumer = .reading t src got) (ahead : recs.length ≤ s.received.length) :
    Fifo { s with queue := s.queue.discard t.size t.align, consumer := .idle,
                  received := s.received ++ [got] } head tail cache recs opened := by
  obtain ⟨ht, -, -, beyond⟩ := fifo.reading t src got reading
  obtain ⟨aligns, -⟩ := fifo.takes t (List.mem_of_getElem? ht)
  have tracks := fifo.settled.tracks
  obtain ⟨zero, dvd, nothing⟩ := beyond ahead
  have none : recs.drop s.received.length = [] := List.drop_eq_nil_of_le ahead
  have none' : recs.drop (s.received.length + 1) = [] := List.drop_eq_nil_of_le (by omega)
  have settled := fifo.settled
  have flat : s.queue.discard t.size t.align = s.queue := by
    simp only [SpscQueue.discard, tracks.headCache_eq, aligns.roundUp,
      alignUp_eq_self aligns.pos dvd, zero]
    have h₁ := tracks.head_eq
    have h₂ := tracks.headCache_eq
    cases hq : s.queue
    simp_all
  rw [flat]
  refine ⟨?_, fifo.accepted, fifo.waiting, fifo.serves, fifo.takes, ?_, ?_, by rintro _ _ _ ⟨⟩⟩
  · rw [none] at settled
    simp only [List.length_append, List.length_singleton, none']
    exact settled
  · intro i b r' hb hr'
    have := (List.getElem?_eq_some_iff.mp hr').1
    rw [List.getElem?_append_left (by omega)] at hb
    exact fifo.delivered i b r' hb hr'
  · intro i le lt
    by_cases old : i < s.received.length
    · obtain ⟨t', h₁, h₂, h₃, h₄⟩ := fifo.ahead i le old
      exact ⟨t', h₁, h₂, h₃, by simp only [List.getElem?_append_left old, h₄]⟩
    · have last : i = s.received.length := by
        simp at lt
        omega
      subst last
      exact ⟨t, ht, zero, dvd, by simp [nothing]⟩

end Reading

/-- Every step of the consumer keeps the invariant. -/
theorem Fifo.consume (fifo : Fifo s head tail cache recs opened)
    (agrees : Agrees s.takes s.accepted) (step : s.consume = some s') :
    ∃ head', Fifo s' head' tail cache recs opened := by
  unfold Spsc.consume at step
  split at step
  · split at step
    · cases step
    · rename_i t ht
      split at step
      · split at step <;> cases step
        exact ⟨head, fifo⟩
      · rename_i ready
        cases step
        refine ⟨head, fifo.settled, fifo.accepted, fifo.waiting, fifo.serves, fifo.takes,
          fifo.delivered, fifo.ahead, ?_⟩
        rintro t' src got ⟨⟩
        refine ⟨ht, rfl, fun r _ => List.nil_prefix, fun beyond => ?_⟩
        obtain ⟨zero, dvd⟩ := fifo.free_of_ready (List.mem_of_getElem? ht) beyond ready
        exact ⟨zero, dvd, rfl⟩
  · rename_i t src got reading
    split at step
    · rename_i more
      cases step
      exact ⟨head, fifo.copyByte agrees reading more⟩
    · rename_i enough
      cases step
      cases hr : recs[s.received.length]? with
      | some r => exact ⟨r.stop head, fifo.take agrees reading enough hr⟩
      | none => exact ⟨head, fifo.takeAhead reading (List.getElem?_eq_none_iff.mp hr)⟩

/-! ## Every interleaving -/

/-- A step only ever adds to the accepted records and leaves the consumer's list alone. -/
theorem step_grows {side : Side} (h : step side s = some s') :
    s'.takes = s.takes ∧ ∃ more, s'.accepted = s.accepted ++ more := by
  have grown : ∀ result, (s.after result).takes = s.takes ∧
      ∃ more, (s.after result).accepted = s.accepted ++ more := by
    rintro ⟨q, p, progress⟩
    cases progress <;> exact ⟨rfl, _, by first | rfl | exact (List.append_nil _).symm⟩
  cases side with
  | producer =>
      change s.produce = some s' at h
      unfold Spsc.produce at h
      split at h
      · split at h
        · cases h
        · cases h
          exact grown _
      · obtain ⟨result, -, rfl⟩ := Option.map_eq_some_iff.mp h
        exact grown result
  | consumer =>
      change s.consume = some s' at h
      unfold Spsc.consume at h
      split at h
      · split at h
        · cases h
        · split at h
          · split at h <;> cases h
            exact ⟨rfl, [], (List.append_nil _).symm⟩
          · cases h
            exact ⟨rfl, [], (List.append_nil _).symm⟩
      · split at h <;> cases h <;> exact ⟨rfl, [], (List.append_nil _).symm⟩

/-- The invariant of every reachable state, for a consumer whose shapes agree with what was
accepted. -/
def Inv (s : Spsc w) : Prop :=
  Agrees s.takes s.accepted → ∃ head tail cache recs opened, Fifo s head tail cache recs opened

theorem Inv.step {side : Side} (h : step side s = some s') (inv : Inv s) : Inv s' := by
  intro agrees
  obtain ⟨takes, more, accepted⟩ := step_grows h
  have earlier : Agrees s.takes s.accepted := by
    rw [takes, accepted] at agrees
    exact agrees.of_append
  obtain ⟨head, tail, cache, recs, opened, fifo⟩ := inv earlier
  cases side with
  | producer =>
      obtain ⟨tail', cache', recs', opened', next⟩ := fifo.produce agrees h
      exact ⟨_, _, _, _, _, next⟩
  | consumer =>
      obtain ⟨head', next⟩ := fifo.consume earlier h
      exact ⟨_, _, _, _, _, next⟩

theorem Fifo.published_eq (fifo : Fifo s head tail cache recs opened) : s.published = recs := by
  have producer := fifo.settled.producer
  have accepted := fifo.accepted
  unfold published
  cases hp : s.producer with
  | idle =>
      rw [hp] at producer
      simpa [producer.2] using accepted
  | waiting r needed =>
      rw [hp] at producer
      simpa [producer.2.1] using accepted
  | writing r out done =>
      rw [hp] at producer
      obtain ⟨record, hopen, -⟩ := producer
      simp [accepted, hopen]

/-- An exact FIFO: the counters never claim more than the capacity, the i-th take that came
back is the i-th accepted record, every published record that was not taken yet is still
there to be drained, and a `reserve` that drops changes its counter only. -/
structure Exact (s : Spsc w) : Prop where
  bounded : (s.queue.tail - s.queue.head).toNat ≤ s.queue.capacity.toNat
  delivered : ∀ (i : Nat) (b : List UInt8), s.received[i]? = some b →
    (∀ r, s.accepted[i]? = some r → b = r.bytes) ∧ (b ≠ [] → i < s.accepted.length)
  intact : ∃ q', s.queue.drain
      ((s.published.drop s.received.length).map fun r => (r.size, r.align)) =
        some ((s.published.drop s.received.length).map Record.bytes, q') ∧ q'.sizeConsumer = 0
  dropped : ∀ size align : BitVec w, (s.queue.reserve size align).2 = .dropped →
    (s.queue.reserve size align).1 = { s.queue with droppedCount := s.queue.droppedCount + 1 }

theorem Fifo.exact (fifo : Fifo s head tail cache recs opened)
    (agrees : Agrees s.takes s.accepted) : s.Exact where
  bounded := by
    have tracks := fifo.settled.tracks
    have size := tracks.size fifo.settled.shaped
    have room := tracks.room
    have le := tracks.tail_le
    change s.queue.size.toNat ≤ _
    omega
  delivered := by
    intro i b hb
    have inside := (List.getElem?_eq_some_iff.mp hb).1
    have length : recs.length ≤ s.accepted.length := by
      rw [fifo.accepted, List.length_append]
      exact Nat.le_add_right _ _
    by_cases old : i < recs.length
    · refine ⟨fun r hr => fifo.delivered i b r hb ?_, fun _ => by omega⟩
      rw [fifo.accepted, List.getElem?_append_left old] at hr
      exact hr
    · obtain ⟨t, ht, zero, -, nothing⟩ := fifo.ahead i (by omega) inside
      rw [hb] at nothing
      cases nothing
      refine ⟨fun r hr => ?_, fun h => (h rfl).elim⟩
      -- Only the record being written is accepted and not published.
      have size := (agrees.at ht hr).1
      have shaped := fifo.settled.shaped
      have own : s.queue.Takes r := by
        have producer := fifo.settled.producer
        rw [fifo.accepted, List.getElem?_append_right (by omega)] at hr
        cases hp : s.producer with
        | idle =>
            rw [hp] at producer
            rw [producer.2] at hr
            cases hr
        | waiting r' needed =>
            rw [hp] at producer
            rw [producer.2.1] at hr
            cases hr
        | writing r' out done =>
            rw [hp] at producer
            obtain ⟨record, hopen, -, takes, -⟩ := producer
            rw [hopen] at hr
            have := List.mem_of_getElem? hr
            simp at this
            exact this ▸ takes
      rw [zero, Record.size] at size
      have length := SpscQueue.toNat_ofNat_length shaped own.fits
      rw [← size] at length
      exact (List.length_eq_zero_iff.mp (by simpa using length.symm)).symm
  intact := by
    rw [fifo.published_eq]
    exact fifo.settled.holds.drain fifo.settled.tracks fifo.settled.shaped fifo.settled.takes
      fifo.settled.ends
  dropped := by
    intro size align h
    rcases s.queue.reserve_cases size align with
      ⟨-, -, result⟩ | ⟨-, -, result⟩ | ⟨-, result⟩ <;> rw [result] at h ⊢ <;> cases h

/-- A size and an alignment that a caller may ask of a queue: the size is within the capacity
and the alignment is a power of two within the page size. -/
abbrev Permitted (capacity : BitVec w) (pageSize length : Nat) (align : BitVec w) : Prop :=
  length ≤ capacity.toNat ∧ Base.isPowerOfTwo align = true ∧ align.toNat ≤ pageSize

/-- Whatever the two sides do in whatever order, the queue is an exact FIFO in every state
they reach. -/
theorem exact_of_run (wide : 32 ≤ w) {pageSize : Nat} {ring : Nat → UInt8}
    {capacity : BitVec w} {mode : Mode} {q : SpscQueue w}
    (init : (SpscQueue.fresh w).init pageSize ring capacity mode = some q)
    {sends : List (Record w)} {takes : List (Take w)}
    (sendsOk : ∀ r ∈ sends, Permitted capacity pageSize r.bytes.length r.align)
    (takesOk : ∀ t ∈ takes, Permitted capacity pageSize t.size.toNat t.align)
    {schedule : List Side} (run : Schedule.run step (start q sends takes) schedule = some s)
    (agrees : Agrees takes s.accepted) : s.Exact := by
  obtain ⟨shaped, dvd⟩ := SpscQueue.shaped_of_init wide init
  have fresh : q.head = 0 ∧ q.headCache = 0 ∧ q.tail = 0 ∧ q.tailCache = 0 ∧
      q.capacity = capacity := by
    unfold SpscQueue.init at init
    split at init <;> cases init
    exact ⟨rfl, rfl, rfl, rfl, rfl⟩
  obtain ⟨h₁, h₂, h₃, h₄, hcap⟩ := fresh
  have page : pageSize ≤ q.capacity.toNat := Nat.le_of_dvd shaped.pos dvd
  have aligns : ∀ {length align}, Permitted capacity pageSize length align → q.Aligns align :=
    fun ok => ⟨Base.isPowerOfTwo_iff.mp ok.2.1, ok.2.2.trans page⟩
  have begin : Inv (start q sends takes) := by
    intro _
    refine ⟨0, 0, 0, [], none, ?_⟩
    exact ⟨⟨shaped, ⟨h₁, h₂, h₃, h₄, Nat.le_refl 0, Nat.le_refl 0, Nat.zero_le _⟩, by simp,
      trivial, rfl, rfl, rfl⟩, rfl, by rintro _ _ ⟨⟩,
      fun r hr => ⟨aligns (sendsOk r hr), by
        have half := shaped.half
        have size := (sendsOk r hr).1
        have le := (aligns (sendsOk r hr)).le
        rw [← hcap] at size
        simp only [Record.request, Request.ofBytes, List.length_map]
        omega⟩,
      fun t ht => ⟨aligns (takesOk t ht), by
        simpa [start, hcap] using (takesOk t ht).1⟩,
      by rintro i b r ⟨⟩, by rintro i - lt; exact (Nat.not_lt_zero i lt).elim,
      by rintro _ _ _ ⟨⟩⟩
  have same : s.takes = takes := by
    refine Schedule.run_invariant (I := fun x => x.takes = takes) ?_ run rfl
    intro side x x' h hx
    rw [(step_grows h).1, hx]
  rw [← same] at agrees
  obtain ⟨head, tail, cache, recs, opened, fifo⟩ :=
    Schedule.run_invariant (fun h inv => Inv.step h inv) run begin agrees
  exact fifo.exact agrees

/-- A ring of one page, right after `init`. -/
def onePage : SpscQueue 64 :=
  { SpscQueue.fresh 64 with mapped := true, capacity := 4096 }

/-- Two records with padding between them, the second reserved while the first is read. -/
def twoRecords : Spsc 64 :=
  start onePage [⟨[1, 2, 3], 8⟩, ⟨[7], 8⟩] [⟨.dequeue, 3, 8⟩, ⟨.peek, 1, 8⟩]

def twoRecordsSchedule : List Side :=
  [.consumer, .producer, .producer, .producer, .producer, .producer, .consumer, .producer,
    .consumer, .consumer, .producer, .consumer, .consumer, .producer, .consumer, .consumer,
    .consumer]

theorem exact_of_run_twoRecords :
    ∃ s, Schedule.run step twoRecords twoRecordsSchedule = some s ∧
      s.received = [[1, 2, 3], [7]] ∧ s.queue.head = 9 ∧ s.Exact := by
  have init : (SpscQueue.fresh 64).init 4096 (fun _ => 0) 4096 .drop = some onePage := rfl
  have done : (Schedule.run step twoRecords twoRecordsSchedule).map
      (fun s => (s.received, s.queue.head, s.accepted)) =
        some ([[1, 2, 3], [7]], 9, [⟨[1, 2, 3], 8⟩, ⟨[7], 8⟩]) := by decide
  obtain ⟨s, run, eq⟩ := Option.map_eq_some_iff.mp done
  obtain ⟨received, head, accepted⟩ : s.received = _ ∧ s.queue.head = _ ∧ s.accepted = _ := by
    simpa using eq
  exact ⟨s, run, received, head,
    exact_of_run (by decide) init (by decide) (by decide) run (by rw [accepted]; decide)⟩

end Spsc

end Fpag.Container
