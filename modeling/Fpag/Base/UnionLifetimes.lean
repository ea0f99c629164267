import Fpag.Base.TaggedUnion

/-!
Lifetimes in a `TaggedUnion`.

The dispatchers of the union ask different type traits whether an alternative has an object: the
constructors ask `std::is_empty_v` and the destructor asks `std::is_trivially_destructible_v`. An
empty alternative with a destructor of its own is therefore destroyed without having been
constructed. An enumeration of tags that is too narrow for the list is the other way for the two
sides to disagree. `Agrees` says of an alternative that they do not, and `balanced_iff` that the
lifetimes of a program balance exactly when every alternative that it stores agrees.
-/

namespace Fpag.Base

open Lifetime

/-! ## Agreement -/

/-- An object of the alternative needs no destruction. -/
def Alternative.isLax (t : Alternative) : Bool := t.isVoid || t.isTriviallyDestructible

namespace TaggedUnion

/-- What a program stores in a new union by value. -/
def Op.stores : Op → Option Alternative
  | .default => some .void
  | .value t => some t
  | _ => none

section Agreement

variable (U : TaggedUnion)

/-- The object that the destructor of a union with the tag destroys. -/
def owed (tag : Nat) : Option Alternative := (U.ts[tag]?).filter fun t => !t.isLax

/-- The object with a destructor that the construction from a value leaves. -/
def held (t : Alternative) : Option Alternative := if t.isLax || t.isEmpty then none else some t

/-- What is destroyed under the tag of the alternative is what its construction leaves. -/
def Agrees (t : Alternative) : Prop := U.owed (U.tagOf t) = held t

instance : DecidablePred U.Agrees := fun t =>
  inferInstanceAs (Decidable (U.owed (U.tagOf t) = held t))

/-- The lifetimes of objects balance: each event was allowed when it came, and of an alternative
with a destructor as many objects were destroyed as were constructed. -/
def Balanced (s : State) : Prop :=
  Proper Alternative.isLax ∅ s.events ∧
    ∀ t, t.isLax = false → constructions t s.events = destructions t s.events

end Agreement

/-! ## Small facts -/

variable {U : TaggedUnion} {s s' : State} {op : Op} {ops : List Op} {u tag : Nat}
  {t : Alternative}

theorem owed_eq_some : U.owed tag = some t ↔ U.ts[tag]? = some t ∧ t.isLax = false := by
  rw [owed, Option.filter_eq_some_iff, Bool.not_eq_true']

theorem held_eq_some {t' : Alternative} :
    held t = some t' ↔ t = t' ∧ t.isLax = false ∧ t.isEmpty = false := by
  simp only [held, Bool.or_eq_true]
  grind

theorem not_isLax : t.isLax = false ↔ t.isVoid = false ∧ t.isTriviallyDestructible = false := by
  rw [Alternative.isLax, Bool.or_eq_false_iff]

theorem destroyCurrent_eq :
    U.destroyCurrent u tag = ((U.owed tag).map (Event.destroyed u)).toList := by
  rw [destroyCurrent, atCurrentTag, owed]
  cases U.ts[tag]? with
  | none => rfl
  | some t =>
      simp only [destroyAtIndex, Option.filter_some, Alternative.isLax, Bool.not_or]
      split <;> rfl

/-- The object that a copy or a move constructs from a union with the tag. -/
def given (U : TaggedUnion) (tag : Nat) : Option Alternative :=
  (U.ts[tag]?).filter fun t => !t.isVoid && !t.isEmpty

theorem given_eq_some :
    U.given tag = some t ↔ U.ts[tag]? = some t ∧ t.isVoid = false ∧ t.isEmpty = false := by
  rw [given, Option.filter_eq_some_iff, Bool.and_eq_true, Bool.not_eq_true', Bool.not_eq_true']

theorem copyConstructFrom_eq :
    U.copyConstructFrom u tag = ((U.given tag).map (Event.constructed u)).toList := by
  rw [copyConstructFrom, atCurrentTag, given]
  cases U.ts[tag]? with
  | none => rfl
  | some t =>
      simp only [copyAtIndex, Option.filter_some]
      split <;> rfl

/-- The object that a construction from a value constructs. -/
def built (t : Alternative) : Option Alternative := if t.isVoid || t.isEmpty then none else some t

theorem built_eq_some {t' : Alternative} :
    built t = some t' ↔ t = t' ∧ t.isVoid = false ∧ t.isEmpty = false := by
  simp only [built, Bool.or_eq_true]
  grind

/-- The objects that are alive. -/
def State.alive (s : State) : Finset (Nat × Alternative) := after ∅ s.events

theorem tag_construct {body : Nat → List (Event Nat Alternative)} :
    (s.construct tag body).tag = Function.update s.tag s.tags.length (some tag) := by
  funext v
  simp only [State.construct, State.tag, Function.update_apply]
  grind

theorem tag_change {tag : Option Nat} {events : List (Event Nat Alternative)}
    (there : u < s.tags.length) : (s.change u tag events).tag = Function.update s.tag u tag := by
  funext v
  simp only [State.change, State.tag, Function.update_apply]
  grind

theorem alive_construct {body : Nat → List (Event Nat Alternative)} :
    (s.construct tag body).alive = after s.alive (body s.tags.length) := after_append

theorem alive_change {tag : Option Nat} {events : List (Event Nat Alternative)} :
    (s.change u tag events).alive = after s.alive events := after_append

theorem tag_length : s.tag s.tags.length = none := by
  simp [State.tag]

theorem lt_of_tag (h : s.tag u = some tag) : u < s.tags.length := by
  by_contra out
  rw [State.tag, List.getElem?_eq_none (by omega)] at h
  cases h

/-- Everything an operation does: it constructs a union, or it ends what a union holds and perhaps
begins something else there, or it does nothing. -/
inductive Does (U : TaggedUnion) (s : State) (op : Op) : State → Prop
  | store (t : Alternative) (stores : op.stores = some t) : Does U s op
      (s.construct (U.tagOf t) fun u => ((built t).map (Event.constructed u)).toList)
  | construct (other tag : Nat) (there : s.tag other = some tag) (stores : op.stores = none) :
      Does U s op (s.construct tag fun u => U.copyConstructFrom u tag)
  | assign (u other tag tag' : Nat) (here : s.tag u = some tag) (there : s.tag other = some tag')
      (stores : op.stores = none) :
      Does U s op (s.change u (some tag') (U.destroyCurrent u tag ++ U.copyConstructFrom u tag'))
  | destroy (u tag : Nat) (here : s.tag u = some tag) (stores : op.stores = none) :
      Does U s op (s.change u none (U.destroyCurrent u tag))
  | nothing (stores : op.stores = none) : Does U s op s

theorem does_assign {other : Nat} (h : U.assign s u other U.copyConstructFrom = some s')
    (stores : op.stores = none) : Does U s op s' := by
  rw [assign] at h
  split at h
  · next tag tag' here there =>
      split at h
      · obtain rfl := Option.some.inj h
        exact .nothing stores
      · obtain rfl := Option.some.inj h
        exact .assign u other tag tag' here there stores
  · cases h

theorem does_of_step (h : U.step op s = some s') : Does U s op s' := by
  cases op with
  | default =>
      simp only [step, Option.ite_none_right_eq_some] at h
      obtain ⟨-, h⟩ := h
      obtain rfl := Option.some.inj h
      exact .store .void rfl
  | value t =>
      simp only [step, Option.ite_none_right_eq_some] at h
      obtain ⟨⟨object, -⟩, h⟩ := h
      obtain rfl := Option.some.inj h
      have body : (fun u => constructValue u t) = fun u =>
          ((built t).map (Event.constructed u)).toList := by
        funext u
        rw [constructValue, built, object]
        cases t.isEmpty <;> rfl
      rw [body]
      exact .store t rfl
  | copy other =>
      simp only [step, Option.ite_none_right_eq_some, Option.map_eq_some_iff] at h
      obtain ⟨-, tag, there, rfl⟩ := h
      exact .construct other tag there rfl
  | move other =>
      simp only [step, Option.ite_none_right_eq_some, Option.map_eq_some_iff] at h
      obtain ⟨-, tag, there, rfl⟩ := h
      exact .construct other tag there rfl
  | copyAssign u other =>
      simp only [step, Option.ite_none_right_eq_some] at h
      exact does_assign h.2 rfl
  | moveAssign u other =>
      simp only [step, Option.ite_none_right_eq_some] at h
      exact does_assign h.2 rfl
  | destroy u =>
      simp only [step, Option.map_eq_some_iff] at h
      obtain ⟨tag, here, rfl⟩ := h
      exact .destroy u tag here rfl

/-! ## Alternatives that agree -/

/-- The object that is in the storage of a union, if it needs a destruction. -/
def owner (U : TaggedUnion) (s : State) (u : Nat) : Option Alternative := (s.tag u).bind U.owed

/-- What is destroyed under a tag is what a copy under it constructs. -/
def Settled (U : TaggedUnion) (tag : Nat) : Prop := ∀ t, U.owed tag = some t → t.isEmpty = false

/-- What the alternatives that agree maintain. -/
structure Sound (U : TaggedUnion) (s : State) : Prop where
  proper : Proper Alternative.isLax ∅ s.events
  owned : Owned Alternative.isLax s.alive (U.owner s)
  settled : ∀ u tag, s.tag u = some tag → U.Settled tag

theorem Agrees.settled (agrees : U.Agrees t) : U.Settled (U.tagOf t) := by
  intro t' owed
  obtain ⟨rfl, -, object⟩ := held_eq_some.mp (agrees.symm.trans owed)
  exact object

/-- Under a tag, what the copy leaves that needs a destruction is what is destroyed. -/
theorem Settled.owed (settled : U.Settled tag) :
    U.owed tag = (U.given tag).filter fun t => !t.isLax := by
  refine Option.ext fun t => ?_
  rw [owed_eq_some, Option.filter_eq_some_iff, given_eq_some, Bool.not_eq_true']
  constructor
  · rintro ⟨at_, strict⟩
    exact ⟨⟨at_, (not_isLax.mp strict).1, settled t (owed_eq_some.mpr ⟨at_, strict⟩)⟩, strict⟩
  · rintro ⟨⟨at_, -, -⟩, strict⟩
    exact ⟨at_, strict⟩

theorem Agrees.owed (agrees : U.Agrees t) :
    U.owed (U.tagOf t) = (built t).filter fun t => !t.isLax := by
  refine Option.ext fun t' => ?_
  rw [agrees, held_eq_some, Option.filter_eq_some_iff, built_eq_some, Bool.not_eq_true']
  constructor
  · rintro ⟨rfl, strict, object⟩
    exact ⟨⟨rfl, (not_isLax.mp strict).1, object⟩, strict⟩
  · rintro ⟨⟨rfl, -, object⟩, strict⟩
    exact ⟨rfl, strict, object⟩

section Owned

variable {alive : Finset (Nat × Alternative)} {owner : Nat → Option Alternative}

/-- The construction of an object, or of none, where nothing is. -/
theorem owned_begin (owned : Owned Alternative.isLax alive owner) (free : owner u = none)
    (object : Option Alternative) :
    Proper Alternative.isLax alive (object.map (Event.constructed u)).toList ∧
      Owned Alternative.isLax (after alive (object.map (Event.constructed u)).toList)
        (Function.update owner u (object.filter fun t => !t.isLax)) := by
  cases object with
  | none =>
      refine ⟨Proper.nil, ?_⟩
      rwa [Option.filter_none, Function.update_eq_self_iff.mpr free.symm]
  | some t =>
      obtain ⟨proper, next⟩ := owned.constructed (k := t) free
      refine ⟨proper_singleton.mpr proper, ?_⟩
      refine next.congr fun v => congrFun (congrArg _ ?_) v
      rw [Option.filter_some]
      cases t.isLax <;> rfl

/-- `destroy_current` where the object of the tag is. -/
theorem owned_end (owned : Owned Alternative.isLax alive owner) (here : owner u = U.owed tag) :
    Proper Alternative.isLax alive (U.destroyCurrent u tag) ∧
      Owned Alternative.isLax (after alive (U.destroyCurrent u tag))
        (Function.update owner u none) := by
  rw [destroyCurrent_eq]
  cases found : U.owed tag with
  | none =>
      refine ⟨Proper.nil, ?_⟩
      rwa [Function.update_eq_self_iff.mpr (here.trans found).symm]
  | some t =>
      obtain ⟨proper, next⟩ := owned.destroyed (owed_eq_some.mp found).2 (here.trans found)
      exact ⟨proper_singleton.mpr proper, next⟩

end Owned

theorem owner_update {tag : Option Nat} (changed : s'.tag = Function.update s.tag u tag) :
    U.owner s' = Function.update (U.owner s) u (tag.bind U.owed) := by
  funext v
  simp only [owner, changed, Function.update_apply]
  split <;> rfl

theorem settled_update {tag : Option Nat} (sound : Sound U s)
    (changed : s'.tag = Function.update s.tag u tag)
    (settled : ∀ tag', tag = some tag' → U.Settled tag') :
    ∀ v tag', s'.tag v = some tag' → U.Settled tag' := by
  intro v tag' there
  rw [changed, Function.update_apply] at there
  split at there
  · exact settled tag' there
  · exact sound.settled v tag' there

/-- A new union whose tag stands for what its constructor leaves. -/
theorem Sound.construct (sound : Sound U s) (settled : U.Settled tag) {object : Option Alternative}
    (stands : U.owed tag = object.filter fun t => !t.isLax) :
    Sound U (s.construct tag fun u => (object.map (Event.constructed u)).toList) := by
  have free : U.owner s s.tags.length = none := by rw [owner, tag_length, Option.bind_none]
  obtain ⟨proper, owned⟩ := owned_begin sound.owned free object
  refine ⟨proper_append.mpr ⟨sound.proper, proper⟩, ?_, ?_⟩
  · rw [alive_construct, owner_update tag_construct, Option.bind_some, stands]
    exact owned
  · refine settled_update sound tag_construct ?_
    rintro _ ⟨⟩
    exact settled

theorem Sound.step (sound : Sound U s) (does : Does U s op s')
    (agrees : ∀ t, op.stores = some t → U.Agrees t) : Sound U s' := by
  cases does with
  | store t stores => exact sound.construct (agrees t stores).settled (agrees t stores).owed
  | construct other tag there stores =>
      have settled := sound.settled other tag there
      simp only [copyConstructFrom_eq]
      exact sound.construct settled settled.owed
  | assign u other tag tag' here there stores =>
      have settled := sound.settled other tag' there
      have current : U.owner s u = U.owed tag := by rw [owner, here, Option.bind_some]
      obtain ⟨ended, free⟩ := owned_end sound.owned current
      obtain ⟨begun, owned⟩ := owned_begin free (Function.update_self ..) (U.given tag')
      rw [← copyConstructFrom_eq] at begun owned
      refine ⟨proper_append.mpr ⟨sound.proper, proper_append.mpr ⟨ended, begun⟩⟩, ?_, ?_⟩
      · rw [alive_change, after_append, owner_update (tag_change (lt_of_tag here)),
          Option.bind_some, settled.owed]
        rwa [Function.update_idem] at owned
      · refine settled_update sound (tag_change (lt_of_tag here)) ?_
        rintro _ ⟨⟩
        exact settled
  | destroy u tag here stores =>
      have current : U.owner s u = U.owed tag := by rw [owner, here, Option.bind_some]
      obtain ⟨ended, free⟩ := owned_end sound.owned current
      refine ⟨proper_append.mpr ⟨sound.proper, ended⟩, ?_, ?_⟩
      · rw [alive_change, owner_update (tag_change (lt_of_tag here)), Option.bind_none]
        exact free
      · refine settled_update sound (tag_change (lt_of_tag here)) ?_
        rintro _ ⟨⟩
  | nothing stores => exact sound

theorem Sound.run (sound : Sound U s) (ran : Schedule.run U.step s ops = some s')
    (agrees : ∀ op ∈ ops, ∀ t, op.stores = some t → U.Agrees t) : Sound U s' := by
  induction ops generalizing s with
  | nil =>
      cases ran
      exact sound
  | cons op ops ih =>
      obtain ⟨m, step, rest⟩ := Schedule.run_cons_eq_some.mp ran
      have first := sound.step (does_of_step step) (agrees op List.mem_cons_self)
      exact ih first rest fun op member => agrees op (List.mem_cons_of_mem _ member)

theorem sound_initial : Sound U State.initial := by
  refine ⟨Proper.nil, ?_, ?_⟩
  · exact Owned.empty.congr fun u => rfl
  · intro u tag there
    cases there

/-! ## Alternatives that do not -/

/-- A union whose tag stands for an object that is not there, or whose storage has an object that
the tag does not stand for. -/
def Broken (U : TaggedUnion) (s : State) (u : Nat) : Prop :=
  (∃ t, U.owner s u = some t ∧ (u, t) ∉ s.alive) ∨
    ∃ t, t.isLax = false ∧ t.isEmpty = false ∧ (u, t) ∈ s.alive ∧ U.owner s u ≠ some t

/-- Whatever happens, happens in storage that a union has had. -/
def Placed (s : State) : Prop := ∀ e ∈ s.events, e.place < s.tags.length

theorem place_destroyCurrent : ∀ e ∈ U.destroyCurrent u tag, e.place = u := by
  intro e member
  rw [destroyCurrent_eq, Option.mem_toList, Option.map_eq_some_iff] at member
  obtain ⟨t, -, rfl⟩ := member
  rfl

theorem place_built {object : Option Alternative} :
    ∀ e ∈ (object.map (Event.constructed u)).toList, e.place = u := by
  intro e member
  rw [Option.mem_toList, Option.map_eq_some_iff] at member
  obtain ⟨t, -, rfl⟩ := member
  rfl

theorem place_copyConstructFrom : ∀ e ∈ U.copyConstructFrom u tag, e.place = u := by
  rw [copyConstructFrom_eq]
  exact place_built

theorem Placed.construct {body : Nat → List (Event Nat Alternative)} (placed : Placed s)
    (here : ∀ e ∈ body s.tags.length, e.place = s.tags.length) :
    Placed (s.construct tag body) := by
  intro e member
  simp only [State.construct, List.mem_append, List.length_append, List.length_singleton]
    at member ⊢
  obtain old | new := member
  · exact Nat.lt_succ_of_lt (placed e old)
  · rw [here e new]
    exact Nat.lt_succ_self _

theorem Placed.change {tag : Option Nat} {events : List (Event Nat Alternative)} (placed : Placed s)
    (there : u < s.tags.length) (here : ∀ e ∈ events, e.place = u) :
    Placed (s.change u tag events) := by
  intro e member
  simp only [State.change, List.mem_append, List.length_set] at member ⊢
  obtain old | new := member
  · exact placed e old
  · rwa [here e new]

theorem Placed.step (placed : Placed s) (does : Does U s op s') : Placed s' := by
  cases does with
  | store t stores => exact placed.construct place_built
  | construct other tag there stores => exact placed.construct place_copyConstructFrom
  | assign u other tag tag' here there stores =>
      refine placed.change (lt_of_tag here) fun e member => ?_
      obtain ended | begun := List.mem_append.mp member
      · exact place_destroyCurrent e ended
      · exact place_copyConstructFrom e begun
  | destroy u tag here stores => exact placed.change (lt_of_tag here) place_destroyCurrent
  | nothing stores => exact placed

/-- Nothing is in storage that no union has had. -/
theorem Placed.free (placed : Placed s) : (s.tags.length, t) ∉ s.alive := by
  rw [State.alive, mem_after_elsewhere fun e member => Nat.ne_of_lt (placed e member)]
  exact Finset.notMem_empty _

/-- A union that nothing happens to stays broken. -/
theorem Broken.elsewhere (broken : Broken U s u) (same : s'.tag u = s.tag u)
    (still : ∀ t, (u, t) ∈ s'.alive ↔ (u, t) ∈ s.alive) : Broken U s' u := by
  have owner_eq : U.owner s' u = U.owner s u := by rw [owner, owner, same]
  simpa only [Broken, owner_eq, still] using broken

/-- The object in a broken union outlasts its tag. -/
theorem Broken.outlasts (broken : Broken U s u) (here : s.tag u = some tag)
    (proper : Proper Alternative.isLax s.alive (U.destroyCurrent u tag)) :
    U.destroyCurrent u tag = [] ∧
      ∃ t, t.isLax = false ∧ t.isEmpty = false ∧ (u, t) ∈ s.alive := by
  have single : Single s.alive := Single.empty.after
  have current : U.owner s u = U.owed tag := by rw [owner, here, Option.bind_some]
  rw [destroyCurrent_eq] at proper ⊢
  rw [Broken, current] at broken
  cases found : U.owed tag with
  | none =>
      rw [found] at broken
      obtain ⟨t, owed, -⟩ | ⟨t, strict, object, alive, -⟩ := broken
      · cases owed
      · exact ⟨rfl, t, strict, object, alive⟩
  | some d =>
      rw [found] at broken proper
      have there : (u, d) ∈ s.alive := proper_singleton.mp proper
      obtain ⟨t, owed, absent⟩ | ⟨t, strict, object, alive, other⟩ := broken
      · cases owed
        exact absurd there absent
      · exact absurd (congrArg some (single there alive)) other

theorem Broken.change {v : Nat} {tag' : Option Nat} {events : List (Event Nat Alternative)}
    (broken : Broken U s u) (away : u ≠ v) (there : v < s.tags.length)
    (here : ∀ e ∈ events, e.place = v) : Broken U (s.change v tag' events) u := by
  refine broken.elsewhere ?_ fun t => ?_
  · rw [tag_change there, Function.update_of_ne away]
  · rw [alive_change, mem_after_elsewhere fun e member => ?_]
    rw [here e member]
    exact away.symm

theorem Broken.construct {body : Nat → List (Event Nat Alternative)} (broken : Broken U s u)
    (away : u ≠ s.tags.length) (here : ∀ e ∈ body s.tags.length, e.place = s.tags.length) :
    Broken U (s.construct tag body) u := by
  refine broken.elsewhere ?_ fun t => ?_
  · rw [tag_construct, Function.update_of_ne away]
  · rw [alive_construct, mem_after_elsewhere fun e member => ?_]
    rw [here e member]
    exact away.symm

/-- A union that is broken stays broken until an event comes that is not allowed. -/
theorem Broken.step (broken : Broken U s u) (known : u < s.tags.length) (does : Does U s op s')
    (proper : Proper Alternative.isLax ∅ s'.events) : Broken U s' u := by
  cases does with
  | store t stores => exact broken.construct (Nat.ne_of_lt known) place_built
  | construct other tag there stores =>
      exact broken.construct (Nat.ne_of_lt known) place_copyConstructFrom
  | assign v other tag tag' here there stores =>
      by_cases same : u = v
      · subst same
        obtain ⟨-, rest⟩ := proper_append.mp proper
        obtain ⟨ended, begun⟩ := proper_append.mp rest
        obtain ⟨nothing, t, strict, object, alive⟩ := broken.outlasts here ended
        rw [nothing] at begun
        -- an object would be constructed over the one that is there
        have none_given : U.given tag' = none := by
          cases found : U.given tag' with
          | none => rfl
          | some d =>
              rw [copyConstructFrom_eq, found] at begun
              have lax := proper_singleton.mp begun (u, t) alive rfl
              exact Bool.noConfusion (strict.symm.trans lax)
        refine .inr ⟨t, strict, object, ?_, ?_⟩
        · rw [alive_change, nothing, copyConstructFrom_eq, none_given]
          exact alive
        · rw [owner, tag_change known, Function.update_self, Option.bind_some]
          intro owed
          have given : U.given tag' = some t := given_eq_some.mpr
            ⟨(owed_eq_some.mp owed).1, (not_isLax.mp strict).1, object⟩
          exact Option.some_ne_none t (given.symm.trans none_given)
      · refine broken.change same (lt_of_tag here) fun e member => ?_
        obtain ended | begun := List.mem_append.mp member
        · exact place_destroyCurrent e ended
        · exact place_copyConstructFrom e begun
  | destroy v tag here stores =>
      by_cases same : u = v
      · subst same
        obtain ⟨-, ended⟩ := proper_append.mp proper
        obtain ⟨nothing, t, strict, object, alive⟩ := broken.outlasts here ended
        refine .inr ⟨t, strict, object, ?_, ?_⟩
        · rw [alive_change, nothing]
          exact alive
        · rw [owner, tag_change known, Function.update_self]
          exact (Option.some_ne_none t).symm
      · exact broken.change same (lt_of_tag here) place_destroyCurrent
  | nothing stores => exact broken

/-- What an alternative that does not agree leaves. -/
theorem broken_of_store (placed : Placed s) (stores : op.stores = some t)
    (disagrees : ¬ U.Agrees t) (does : Does U s op s') :
    Broken U s' s.tags.length ∧ s.tags.length < s'.tags.length := by
  cases does with
  | store t' stores' =>
      obtain rfl : t' = t := Option.some.inj (stores'.symm.trans stores)
      refine ⟨?_, ?_⟩
      · have stands : U.owner (s.construct (U.tagOf t') fun u =>
            ((built t').map (Event.constructed u)).toList) s.tags.length = U.owed (U.tagOf t') := by
          rw [owner, tag_construct, Function.update_self, Option.bind_some]
        have inside : ∀ d, (s.tags.length, d) ∈ (s.construct (U.tagOf t') fun u =>
            ((built t').map (Event.constructed u)).toList).alive ↔ built t' = some d := by
          intro d
          rw [alive_construct]
          cases built t' with
          | none => simp [placed.free]
          | some b => simp [Event.after, eq_comm]
        rw [Broken, stands]
        simp only [inside]
        cases owed : U.owed (U.tagOf t') with
        | some d =>
            refine .inl ⟨d, rfl, fun constructed => disagrees ?_⟩
            obtain ⟨rfl, -, object⟩ := built_eq_some.mp constructed
            exact owed.trans (held_eq_some.mpr ⟨rfl, (owed_eq_some.mp owed).2, object⟩).symm
        | none =>
            cases left : held t' with
            | none => exact absurd (owed.trans left.symm) disagrees
            | some d =>
                obtain ⟨rfl, strict, object⟩ := held_eq_some.mp left
                exact .inr ⟨t', strict, object,
                  built_eq_some.mpr ⟨rfl, (not_isLax.mp strict).1, object⟩,
                  (Option.some_ne_none t').symm⟩
      · simp [State.construct]
  | construct other tag there stores' => cases stores'.symm.trans stores
  | assign u other tag tag' here there stores' => cases stores'.symm.trans stores
  | destroy u tag here stores' => cases stores'.symm.trans stores
  | nothing stores' => cases stores'.symm.trans stores

theorem Does.grows (does : Does U s op s') :
    s.tags.length ≤ s'.tags.length ∧ ∃ es, s'.events = s.events ++ es := by
  cases does with
  | store t stores => exact ⟨by simp [State.construct], _, rfl⟩
  | construct other tag there stores => exact ⟨by simp [State.construct], _, rfl⟩
  | assign u other tag tag' here there stores => exact ⟨by simp [State.change], _, rfl⟩
  | destroy u tag here stores => exact ⟨by simp [State.change], _, rfl⟩
  | nothing stores => exact ⟨Nat.le_refl _, [], by simp⟩

/-- Along a run whose events are all allowed, what is broken stays so. -/
theorem Broken.run (broken : Broken U s u) (known : u < s.tags.length)
    (ran : Schedule.run U.step s ops = some s') (proper : Proper Alternative.isLax ∅ s'.events) :
    Broken U s' u := by
  have kept : u < s'.tags.length ∧
      (Proper Alternative.isLax ∅ s'.events → Broken U s' u) := by
    refine Schedule.run_invariant (I := fun s => u < s.tags.length ∧
      (Proper Alternative.isLax ∅ s.events → Broken U s u)) ?_ ran ⟨known, fun _ => broken⟩
    intro op s s' step ⟨known, broken⟩
    have does := does_of_step step
    obtain ⟨longer, es, events⟩ := does.grows
    refine ⟨Nat.lt_of_lt_of_le known longer, fun proper => ?_⟩
    have before : Proper Alternative.isLax ∅ s.events := by
      rw [events] at proper
      exact (proper_append.mp proper).1
    exact (broken before).step known does proper
  exact kept.2 proper

theorem placed_of_run (ran : U.run ops = some s) : Placed s := by
  refine Schedule.run_invariant (fun step placed => placed.step (does_of_step step)) ran ?_
  intro e member
  cases member

/-! ## Programs -/

theorem balanced_of_agrees (ran : U.run ops = some s) (ended : ∀ u, s.tag u = none)
    (agrees : ∀ op ∈ ops, ∀ t, op.stores = some t → U.Agrees t) : Balanced s := by
  have sound : Sound U s := sound_initial.run ran agrees
  refine ⟨sound.proper, fun t strict => ?_⟩
  have counts := balance strict sound.proper
  have before : living t (∅ : Finset (Nat × Alternative)) = 0 := rfl
  have after : living t s.alive = 0 := by
    refine living_eq_zero.mpr fun u alive => ?_
    have owned := (sound.owned u t strict).mp alive
    rw [owner, ended, Option.bind_none] at owned
    cases owned
  change _ = _ + living t s.alive at counts
  omega

theorem agrees_of_balanced (ran : U.run ops = some s) (ended : ∀ u, s.tag u = none)
    (balanced : Balanced s) : ∀ op ∈ ops, ∀ t, op.stores = some t → U.Agrees t := by
  intro op member t stores
  by_contra disagrees
  obtain ⟨before, rest, rfl⟩ := List.append_of_mem member
  obtain ⟨m, first, later⟩ := Schedule.run_append_eq_some.mp ran
  obtain ⟨m', step, last⟩ := Schedule.run_cons_eq_some.mp later
  have placed : Placed m := placed_of_run first
  obtain ⟨broken, known⟩ := broken_of_store placed stores disagrees (does_of_step step)
  obtain ⟨t', owed, -⟩ | ⟨t', strict, -, alive, -⟩ := broken.run known last balanced.1
  · rw [owner, ended, Option.bind_none] at owed
    cases owed
  · have counts := balance strict balanced.1
    have before : living t' (∅ : Finset (Nat × Alternative)) = 0 := rfl
    have after : living t' s.alive ≠ 0 := fun none => living_eq_zero.mp none _ alive
    have equal := balanced.2 t' strict
    change _ = _ + living t' s.alive at counts
    omega

/-- As long as every alternative that it stores agrees, a program only does to objects what is
allowed; and the lifetimes of a program that destroys its unions balance if and only if every
alternative that it stores agrees. -/
theorem balanced_iff (U : TaggedUnion) (ops : List Op) (s : State) (ran : U.run ops = some s) :
    ((∀ op ∈ ops, ∀ t, op.stores = some t → U.Agrees t) →
      Proper Alternative.isLax ∅ s.events) ∧
    ((∀ u, s.tag u = none) →
      (Balanced s ↔ ∀ op ∈ ops, ∀ t, op.stores = some t → U.Agrees t)) :=
  ⟨fun agrees => (sound_initial.run ran agrees).proper,
    fun ended => ⟨agrees_of_balanced ran ended, balanced_of_agrees ran ended⟩⟩

/-- An empty class with a destructor. -/
def guard : Alternative := .object 0 ⟨true, false, true, true⟩

def integer : Alternative := .object 1 ⟨false, true, true, true⟩

def tracker : Alternative := .object 2 ⟨false, false, true, true⟩

/-- A union that holds the guard destroys a guard that was not constructed. -/
theorem not_balanced_guard : ∃ s, (autoTaggedUnion [guard, integer]).run
    [.value guard, .destroy 0] = some s ∧ s.tags = [none] ∧ ¬ Balanced s :=
  ⟨⟨[none], [.destroyed 0 guard]⟩, by decide, rfl, fun balanced => absurd balanced.1 (by decide)⟩

/-- A tracker is copied, the original is replaced by an integer, and the copy by nothing. -/
def trackerOps : List Op :=
  [.value tracker, .copy 0, .value integer, .moveAssign 0 2, .default, .copyAssign 2 1,
    .copyAssign 1 3, .destroy 0, .destroy 1, .destroy 2, .destroy 3]

def trackerEnd : State :=
  ⟨[none, none, none, none],
    [.constructed 0 tracker, .constructed 1 tracker, .constructed 2 integer, .destroyed 0 tracker,
      .constructed 0 integer, .constructed 2 tracker, .destroyed 1 tracker,
      .destroyed 2 tracker]⟩

theorem balanced_iff_tracker :
    (autoTaggedUnion [.void, tracker, integer]).run trackerOps = some trackerEnd ∧
      Balanced trackerEnd := by
  have ran : (autoTaggedUnion [.void, tracker, integer]).run trackerOps = some trackerEnd := by
    decide
  refine ⟨ran, ((balanced_iff _ trackerOps trackerEnd ran).2 ?_).mpr ?_⟩
  · intro u
    match u with
    | 0 | 1 | 2 | 3 => rfl
    | _ + 4 => rfl
  · decide

/-! ## Tags that are wide enough -/

theorem typeIndex_spec {ts : List Alternative} (member : t ∈ ts) :
    ts[typeIndex t ts]? = some t := by
  have found : ∀ (init : Nat) (xs : List Alternative), t ∈ xs →
      xs[xs.zipIdx.foldl (fun result x => if t = x.1 then x.2 else result) init]? = some t := by
    intro init xs
    induction xs using List.reverseRecOn with
    | nil => simp
    | append_singleton xs x ih =>
        intro inside
        rw [List.zipIdx_append, List.foldl_append]
        simp only [List.zipIdx_cons, List.zipIdx_nil, List.foldl_cons, List.foldl_nil,
          Nat.zero_add]
        split
        · next same => simp [same]
        · next other =>
            have earlier : t ∈ xs := by simpa [other] using inside
            have at_ := ih earlier
            rw [List.getElem?_append_left (List.getElem?_eq_some_iff.mp at_).1]
            exact at_
  exact found ts.length ts member

/-- Under a tag that the enumeration can hold, an alternative agrees unless it is an empty class
with a destructor of its own. -/
theorem agrees_iff (member : t ∈ U.ts)
    (wide : U.tagEnum.store (typeIndex t U.ts) = typeIndex t U.ts) :
    U.Agrees t ↔ (t.isLax = true ∨ t.isEmpty = false) := by
  have owed : U.owed (U.tagOf t) = if t.isLax then none else some t := by
    rw [TaggedUnion.owed, tagOf, wide, typeIndex_spec member, Option.filter_some]
    cases t.isLax <;> rfl
  rw [Agrees, owed, held]
  cases t.isLax <;> cases t.isEmpty <;> simp

/-- The enumeration that `AutoTaggedUnion` generates holds every tag of its list. -/
theorem store_tagType {ts : List Alternative} (small : ts.length < 2 ^ 64) {index : Nat}
    (inside : index < ts.length) : (tagType ts.length).store index = index := by
  simp only [tagType]
  split
  · exact Nat.mod_eq_of_lt (by omega)
  split
  · exact Nat.mod_eq_of_lt (by omega)
  split
  · exact Nat.mod_eq_of_lt (by omega)
  · exact Nat.mod_eq_of_lt (by omega)

/-- In an `AutoTaggedUnion` the only alternatives that do not agree are empty classes with a
destructor of their own. -/
theorem autoTaggedUnion_agrees_iff {ts : List Alternative} (small : ts.length < 2 ^ 64)
    (member : t ∈ ts) :
    (autoTaggedUnion ts).Agrees t ↔ (t.isLax = true ∨ t.isEmpty = false) := by
  refine agrees_iff member (store_tagType small ?_)
  exact (List.getElem?_eq_some_iff.mp (typeIndex_spec member)).1

end TaggedUnion

end Fpag.Base
