import Fpag.Arg.Spellings

/-!
What `parse_partial` consumes and what it passes on.

`fates` goes along with the loop and notes of each argument whether it added something to the
matches and whether it was pushed to `unparsed`. A long option does one or the other, and so does a
word. A bundle of short options is worked off character by character: when it turns out that one is
not known, those in front of it have been recorded already, and the whole bundle is passed on
(`BreaksOff`). `splits_iff` says that nothing else is both consumed and passed on.
-/

namespace Fpag.Arg

/-! ## Fates -/

/-- What became of an argument. -/
structure Fate : Type where
  consumed : Bool
  passed : Bool
  deriving DecidableEq

/-- What a step of the parse did with its argument. -/
def Fate.between (s s' : ParseState) : Fate :=
  ⟨decide (s'.found ≠ s.found), decide (s'.unparsed ≠ s.unparsed)⟩

/-- The fates of the arguments behind the separator. -/
def keptFates : List Text → ParseState → List Fate
  | [], _ => []
  | arg :: args, s =>
      if arg = [] then ⟨false, false⟩ :: keptFates args s
      else .between s (s.keep true arg) :: keptFates args (s.keep true arg)

/-- The fates of the arguments of a partial parse; an argument that an option takes as its value is
consumed. -/
def fates : List Command → List Text → ParseState → List Fate
  | _, [], _ => []
  | scope, current :: rest, s =>
      if current = [] then ⟨false, false⟩ :: fates scope rest s
      else if current = text "--" then
        .between s (s.pushUnparsed current) :: keptFates rest (s.pushUnparsed current)
      else
        let t := turn true scope current rest s
        match t.outcome.stop, t.outcome.took, rest with
        | some _, _, _ => [.between s t.outcome.state]
        | none, true, _ :: rest =>
            .between s t.outcome.state :: ⟨true, false⟩ :: fates t.scope rest t.outcome.state
        | none, _, rest => .between s t.outcome.state :: fates t.scope rest t.outcome.state

/-- Every argument that is not empty is consumed or passed on and not both, and those that are
passed on are in `unparsed`, in their order. -/
structure Splits (args : List Text) (fates : List Fate) (before : List Text)
    (unparsed : Option (List Text)) : Prop where
  length : fates.length = args.length
  apart : ∀ p ∈ args.zip fates, p.1 ≠ [] → p.2.consumed = !p.2.passed
  unparsed : unparsed = some (before ++ ((args.zip fates).filter (·.2.passed)).map (·.1))

/-! ## Bundles -/

/-- Behind flags there is a character that no level knows. -/
def unknownAfter (scope : List Command) : Text → Bool
  | [] => false
  | c :: more =>
      match findShort scope c with
      | some (.arg arg) => arg.isFlag && unknownAfter scope more
      | some _ => false
      | none => true

/-- The argument is a bundle with a character that no level knows behind a flag that one knows. -/
def BreaksOff (scope : List Command) (current : Text) : Prop :=
  (text "--").isPrefixOf current = false ∧ (text "-").isPrefixOf current = true ∧
    unknownAfter scope (current.drop 1) = true ∧
      ∀ c, (current.drop 1).head? = some c → findShort scope c ≠ none

/-- No argument that the loop comes to as an option breaks off. -/
def Whole (scope : List Command) (args : List Text) (s : ParseState) : Prop :=
  ∀ front current back scope' s', args = front ++ current :: back →
    reach true scope front (current :: back) s = some (scope', s') → ¬ BreaksOff scope' current

section Bundles

variable {scope : List Command} {rest : List Text} {s : ParseState} {partialMode : Bool}

/-- An argument that supplies a value without an error adds it to the matches. -/
theorem supply_of_no_error {arg : Argument} {value : Text}
    (clean : (supply s arg value).parser.errors = []) : isValidChoice arg value = true ∧
      supply s arg value = { s with found := s.found.add arg.name value } := by
  rw [supply] at clean ⊢
  split
  · next valid => exact ⟨valid, rfl⟩
  · next invalid =>
      rw [if_neg invalid] at clean
      exact absurd clean (List.append_ne_nil_of_right_ne_nil _ (List.cons_ne_nil _ _))

theorem takeNext_of_no_error {arg : Argument} {option : Text}
    (clean : (takeNext s arg option rest).state.parser.errors = []) :
    (takeNext s arg option rest).state =
      { s with found := s.found.add arg.name (rest.headD []) } := by
  rw [takeNext] at clean ⊢
  cases head : rest.headD [] with
  | nil =>
      rw [head] at clean
      exact absurd clean (List.append_ne_nil_of_right_ne_nil _ (List.cons_ne_nil _ _))
  | cons c next =>
      rw [head] at clean
      exact (supply_of_no_error clean).2

/-- A state with more values. -/
def Richer (s s' : ParseState) : Prop := s.found.values.length < s'.found.values.length

theorem richer_add (name value : Text) : Richer s { s with found := s.found.add name value } := by
  simp [Richer, Matches.add]

theorem Richer.found_ne {s' : ParseState} (richer : Richer s s') : s'.found ≠ s.found := by
  intro same
  rw [Richer, same] at richer
  exact Nat.lt_irrefl _ richer

/-- What the characters of a bundle do, if there is no error. -/
structure Bundled (scope : List Command) (rawArg chars : Text) (s : ParseState) (o : Outcome) :
    Prop where
  unparsed : o.state.unparsed =
    if unknownAfter scope chars then s.unparsed.map (· ++ [rawArg]) else s.unparsed
  took : unknownAfter scope chars = true → o.took = false
  same : ∀ c, chars.head? = some c → findShort scope c = none → o.state.found = s.found
  richer : ∀ c, chars.head? = some c → findShort scope c ≠ none → Richer s o.state

/-- Nothing is taken back. -/
theorem Bundled.mono {rawArg chars : Text} {o : Outcome} (bundled : Bundled scope rawArg chars s o)
    (empty : chars = [] → o.state = s) :
    s.found.values.length ≤ o.state.found.values.length := by
  cases chars with
  | nil => rw [empty rfl]
  | cons c more =>
      by_cases known : findShort scope c = none
      · rw [bundled.same c rfl known]
      · exact (bundled.richer c rfl known).le

theorem errors_nil_of_grows {s' : ParseState} (grows : Grows s s')
    (clean : s'.parser.errors = []) : s.parser.errors = [] := by
  rw [Grows, clean] at grows
  exact List.subset_nil.mp grows

theorem shortLoop_bundled (rawArg chars : Text)
    (goesOn : (shortLoop true scope rawArg rest chars s).stop = none)
    (clean : (shortLoop true scope rawArg rest chars s).state.parser.errors = []) :
    Bundled scope rawArg chars s (shortLoop true scope rawArg rest chars s) := by
  induction chars generalizing s with
  | nil => exact ⟨rfl, by rintro ⟨⟩, by rintro c ⟨⟩, by rintro c ⟨⟩⟩
  | cons c more ih =>
      rw [shortLoop] at goesOn clean ⊢
      cases found : findShort scope c with
      | none =>
          refine ⟨?_, fun _ => rfl, fun _ _ _ => rfl, ?_⟩
          · rw [unknownAfter, found]
            rfl
          · rintro _ ⟨⟩ known
            exact absurd found known
      | some option =>
          rw [found] at goesOn clean
          have unlike : ∀ d, (c :: more).head? = some d → findShort scope d ≠ none := by
            rintro _ ⟨⟩
            rw [found]
            exact Option.some_ne_none _
          have knows {P : Prop} (d : UInt8) (head : (c :: more).head? = some d)
              (unknown : findShort scope d = none) : P := absurd unknown (unlike d head)
          cases option with
          | help level => cases goesOn
          | version => cases goesOn
          | arg arg =>
              dsimp only at goesOn clean ⊢
              by_cases flag : arg.isFlag = true
              · rw [if_pos flag] at goesOn clean ⊢
                have after : unknownAfter scope (c :: more) = unknownAfter scope more := by
                  rw [unknownAfter, found]
                  simp only [flag, Bool.true_and]
                by_cases valid : isValidChoice arg (text "1") = true
                · rw [if_pos valid] at goesOn clean ⊢
                  have kept : Grows (supply s arg (text "1")) (shortLoop true scope rawArg rest more
                      (supply s arg (text "1"))).state := grows_shortLoop rawArg more
                  obtain ⟨-, added⟩ := supply_of_no_error (errors_nil_of_grows kept clean)
                  rw [added] at goesOn clean ⊢
                  have bundled := ih goesOn clean
                  refine ⟨?_, ?_, fun d => knows d, fun _ _ _ => ?_⟩
                  · rw [bundled.unparsed, after]
                  · rw [after]
                    exact bundled.took
                  · refine lt_of_lt_of_le (richer_add arg.name (text "1")) (bundled.mono ?_)
                    rintro rfl
                    rfl
                · rw [if_neg valid] at clean
                  exact absurd (supply_of_no_error clean).1 valid
              · rw [if_neg flag] at goesOn clean ⊢
                have after : unknownAfter scope (c :: more) = false := by
                  rw [unknownAfter, found]
                  simp only [flag, Bool.false_and]
                by_cases last : more.isEmpty = true
                · rw [if_pos last] at clean ⊢
                  have taken := takeNext_of_no_error clean
                  refine ⟨?_, ?_, fun d => knows d, fun d head known => ?_⟩
                  · rw [taken, after]
                    rfl
                  · rw [after]
                    rintro ⟨⟩
                  · rw [taken]
                    exact richer_add _ _
                · rw [if_neg last] at clean ⊢
                  obtain ⟨-, added⟩ := supply_of_no_error clean
                  refine ⟨?_, ?_, fun d => knows d, fun d head known => ?_⟩
                  · rw [after]
                    dsimp only
                    rw [added]
                    rfl
                  · rw [after]
                    rintro ⟨⟩
                  · dsimp only
                    rw [added]
                    exact richer_add _ _

theorem unknownAfter_of_head {c : UInt8} {more : Text} (unknown : findShort scope c = none) :
    unknownAfter scope (c :: more) = true := by
  rw [unknownAfter, unknown]

end Bundles

/-! ## One turn -/

section Turn

variable {scope : List Command} {rest : List Text} {s : ParseState} {current : Text}

/-- A turn either consumes its argument or passes it on, and both exactly for a bundle that breaks
off. -/
inductive Turned (scope : List Command) (current : Text) (before : List Text) (s : ParseState)
    (o : Outcome) : Prop
  | consumed (unparsed : o.state.unparsed = some before) (added : o.state.found ≠ s.found)
      (whole : ¬ BreaksOff scope current)
  | passed (unparsed : o.state.unparsed = some (before ++ [current])) (left : o.took = false)
      (both : o.state.found ≠ s.found ↔ BreaksOff scope current)

theorem longOption_turned {before : List Text} (unparsed : s.unparsed = some before)
    (long : (text "--").isPrefixOf current = true)
    (goesOn : (longOption true scope current rest s).stop = none)
    (clean : (longOption true scope current rest s).state.parser.errors = []) :
    Turned scope current before s (longOption true scope current rest s) := by
  have whole : ¬ BreaksOff scope current := by
    rintro ⟨other, -⟩
    rw [long] at other
    cases other
  have added {arg : Argument} {value : Text} : Turned scope current before s
      { state := { s with found := s.found.add arg.name value } } :=
    .consumed unparsed (richer_add _ _).found_ne whole
  simp only [longOption] at goesOn clean ⊢
  split at clean
  · next found =>
      simp only [found] at goesOn
      split at clean
      · exact absurd clean (List.append_ne_nil_of_right_ne_nil _ (List.cons_ne_nil _ _))
      · rw [(supply_of_no_error clean).2]
        exact added
      · rw [(supply_of_no_error clean).2]
        exact added
      · have taken := takeNext_of_no_error clean
        refine .consumed ?_ ?_ whole
        · rw [taken]
          exact unparsed
        · rw [taken]
          exact (richer_add _ _).found_ne
  · next found =>
      simp only [found] at goesOn
      cases goesOn
  · next found =>
      simp only [found] at goesOn
      cases goesOn
  · refine .passed ?_ rfl ?_
    · simp only [unknown, if_true, ParseState.pushUnparsed, unparsed, Option.map_some]
    · exact iff_of_false (fun other => other rfl) whole

theorem shortOptions_turned {before : List Text} (unparsed : s.unparsed = some before)
    (long : (text "--").isPrefixOf current = false) (short : (text "-").isPrefixOf current = true)
    (size : 1 < current.length)
    (goesOn : (shortOptions true scope current rest s).stop = none)
    (clean : (shortOptions true scope current rest s).state.parser.errors = []) :
    Turned scope current before s (shortOptions true scope current rest s) := by
  have bundled : Bundled scope current (current.drop 1) s
      (shortOptions true scope current rest s) :=
    shortLoop_bundled current _ goesOn clean
  obtain ⟨c, more, chars⟩ := List.exists_cons_of_ne_nil
    (List.ne_nil_of_length_pos (by rw [List.length_drop]; omega : 0 < (current.drop 1).length))
  have head : (current.drop 1).head? = some c := by rw [chars]; rfl
  have known (breaks : BreaksOff scope current) : findShort scope c ≠ none := breaks.2.2.2 c head
  have written := bundled.unparsed
  rw [unparsed, Option.map_some] at written
  cases after : unknownAfter scope (current.drop 1) with
  | true =>
      rw [if_pos after] at written
      refine .passed written (bundled.took after) ⟨fun other => ⟨long, short, after, ?_⟩,
        fun breaks => (bundled.richer c head (known breaks)).found_ne⟩
      intro d head' unknown
      exact other (bundled.same d head' unknown)
  | false =>
      rw [if_neg (by rw [after]; decide)] at written
      have knows : findShort scope c ≠ none := by
        intro unknown
        rw [chars, unknownAfter_of_head unknown] at after
        cases after
      refine .consumed written (bundled.richer c head knows).found_ne fun breaks => ?_
      have after' := breaks.2.2.1
      rw [after] at after'
      cases after'

theorem turn_turned {before : List Text} (unparsed : s.unparsed = some before)
    (goesOn : (turn true scope current rest s).outcome.stop = none)
    (clean : (turn true scope current rest s).outcome.state.parser.errors = []) :
    Turned scope current before s (turn true scope current rest s).outcome := by
  rw [turn] at goesOn clean ⊢
  by_cases long : (text "--").isPrefixOf current = true
  · rw [if_pos long] at goesOn clean ⊢
    exact longOption_turned unparsed long goesOn clean
  rw [if_neg long] at goesOn clean ⊢
  by_cases short : ((text "-").isPrefixOf current && decide (1 < current.length)) = true
  · rw [if_pos short] at goesOn clean ⊢
    obtain ⟨dash, size⟩ := (Bool.and_eq_true _ _).mp short
    exact shortOptions_turned unparsed ((Bool.not_eq_true _).mp long) dash (of_decide_eq_true size)
      goesOn clean
  rw [if_neg short] at goesOn clean ⊢
  have whole : ¬ BreaksOff scope current := by
    rintro ⟨-, dash, after, -⟩
    rw [dash, Bool.true_and, decide_eq_true_eq] at short
    rw [List.drop_eq_nil_of_le (by omega)] at after
    cases after
  split
  · next sub _ =>
      refine .consumed unparsed (fun same => ?_) whole
      have path := congrArg Matches.commandPath same
      exact absurd path (by simp [Matches.selectSubcommand])
  · refine .passed ?_ rfl (iff_of_false (fun other => other rfl) whole)
    simp only [ParseState.keep, if_true, ParseState.pushUnparsed, unparsed, Option.map_some]

end Turn

/-! ## The loop -/

section Loop

variable {scope : List Command} {s : ParseState} {rest : List Text} {current : Text}

theorem whole_empty : Whole scope ([] :: rest) s ↔ Whole scope rest s := by
  constructor
  · intro whole front current back scope' s' cut reached
    refine whole ([] :: front) current back scope' s' (by rw [cut, List.cons_append]) ?_
    rw [reach, if_pos rfl]
    exact reached
  · intro whole front current back scope' s' cut reached
    cases front with
    | nil =>
        cases cut
        rintro ⟨-, dash, -⟩
        cases dash
    | cons first front =>
        cases cut
        rw [reach, if_pos rfl] at reached
        exact whole front current back scope' s' rfl reached

theorem whole_separator : Whole scope (text "--" :: rest) s := by
  intro front current back scope' s' cut reached
  cases front with
  | nil =>
      cases cut
      rintro ⟨other, -⟩
      cases other
  | cons first front =>
      cases cut
      rw [reach, if_neg (by decide), if_pos rfl] at reached
      cases reached

theorem whole_turn (some_ : current ≠ []) (other : current ≠ text "--")
    (goesOn : (turn true scope current rest s).outcome.stop = none) :
    Whole scope (current :: rest) s ↔ ¬ BreaksOff scope current ∧
      Whole (turn true scope current rest s).scope
        (behind (turn true scope current rest s).outcome rest)
        (turn true scope current rest s).outcome.state := by
  constructor
  · intro whole
    refine ⟨whole [] current rest scope s rfl rfl, ?_⟩
    intro front current' back scope' s' cut reached
    cases took : (turn true scope current rest s).outcome.took with
    | false =>
        rw [behind, took, if_neg (by decide)] at cut
        refine whole (current :: front) current' back scope' s' (by rw [cut, List.cons_append]) ?_
        rw [reach, if_neg some_, if_neg other, ← cut]
        simp only [goesOn, took]
        exact reached
    | true =>
        rw [behind, took, if_pos rfl] at cut
        cases rest with
        | nil =>
            cases front <;> cases cut
        | cons value rest =>
            rw [List.tail_cons] at cut
            refine whole (current :: value :: front) current' back scope' s'
              (by rw [cut, List.cons_append, List.cons_append]) ?_
            rw [reach, if_neg some_, if_neg other, List.cons_append, ← cut]
            simp only [goesOn, took]
            exact reached
  · rintro ⟨here, later⟩ front current' back scope' s' cut reached
    cases front with
    | nil =>
        cases cut
        cases reached
        exact here
    | cons first front =>
        rw [List.cons_append, List.cons.injEq] at cut
        obtain ⟨rfl, rfl⟩ := cut
        rw [reach, if_neg some_, if_neg other] at reached
        cases took : (turn true scope current (front ++ current' :: back) s).outcome.took with
        | false =>
            simp only [goesOn, took] at reached
            refine later front current' back scope' s' ?_ reached
            rw [behind, took, if_neg (by decide)]
        | true =>
            cases front with
            | nil =>
                simp only [goesOn, took] at reached
                cases reached
            | cons value front =>
                simp only [goesOn, took] at reached
                refine later front current' back scope' s' ?_ reached
                rw [behind, took, if_pos rfl]
                rfl

/-- The arguments that are passed on. -/
def passedOn (args : List Text) (fates : List Fate) : List Text :=
  ((args.zip fates).filter (·.2.passed)).map (·.1)

/-- No argument that is not empty is left out or has both fates. -/
def Apart (args : List Text) (fates : List Fate) : Prop :=
  ∀ p ∈ args.zip fates, p.1 ≠ [] → p.2.consumed = !p.2.passed

theorem apart_cons {arg : Text} {fate : Fate} {args : List Text} {fates : List Fate} :
    Apart (arg :: args) (fate :: fates) ↔
      (arg ≠ [] → fate.consumed = !fate.passed) ∧ Apart args fates := by
  simp only [Apart, List.zip_cons_cons, List.forall_mem_cons]

theorem passedOn_cons (arg : Text) (fate : Fate) (args : List Text) (fates : List Fate) :
    passedOn (arg :: args) (fate :: fates) =
      (if fate.passed then [arg] else []) ++ passedOn args fates := by
  rw [passedOn, List.zip_cons_cons, List.filter_cons]
  split <;> rfl

theorem between_same {before : List Text} {s' : ParseState} (unparsed : s.unparsed = some before)
    (same : s'.unparsed = some before) (added : s'.found ≠ s.found) :
    Fate.between s s' = ⟨true, false⟩ := by
  rw [Fate.between, decide_eq_true added, unparsed, same, decide_eq_false (fun other => other rfl)]

theorem between_pushed {before : List Text} {arg : Text} {s' : ParseState}
    (unparsed : s.unparsed = some before) (pushed : s'.unparsed = some (before ++ [arg])) :
    Fate.between s s' = ⟨decide (s'.found ≠ s.found), true⟩ := by
  have other : s'.unparsed ≠ s.unparsed := by
    rw [unparsed, pushed]
    simp
  rw [Fate.between, decide_eq_true other]

/-- Behind the separator every argument is passed on. -/
theorem keptFates_spec {before : List Text} (unparsed : s.unparsed = some before)
    (args : List Text) : (keptFates args s).length = args.length ∧
      passedOn args (keptFates args s) = args.filter (· ≠ []) ∧ Apart args (keptFates args s) := by
  induction args generalizing s before with
  | nil => exact ⟨rfl, rfl, by rintro p ⟨⟩⟩
  | cons arg args ih =>
      rw [keptFates]
      by_cases empty : arg = []
      · obtain ⟨length, passed, apart⟩ := ih unparsed
        rw [if_pos empty, apart_cons, passedOn_cons, passed]
        refine ⟨by rw [List.length_cons, List.length_cons, length], ?_, fun other => ?_, apart⟩
        · rw [List.filter_cons_of_neg (by simpa using empty)]
          rfl
        · exact absurd empty other
      · have pushed : (s.keep true arg).unparsed = some (before ++ [arg]) := by
          simp only [ParseState.keep, if_true, ParseState.pushUnparsed, unparsed, Option.map_some]
        obtain ⟨length, passed, apart⟩ := ih pushed
        have fate : Fate.between s (s.keep true arg) = ⟨false, true⟩ := by
          rw [between_pushed unparsed pushed, decide_eq_false (fun other => other rfl)]
        rw [if_neg empty, fate, apart_cons, passedOn_cons, passed]
        refine ⟨by rw [List.length_cons, List.length_cons, length], ?_, fun _ => rfl, apart⟩
        rw [List.filter_cons_of_pos (by simpa using empty)]
        rfl

/-- What a run to the end without an error has passed on, and when it splits its arguments. -/
theorem fates_spec {before : List Text} {args : List Text} (unparsed : s.unparsed = some before)
    (goesOn : (parseLoop true scope args s).stop = none)
    (clean : (parseLoop true scope args s).state.parser.errors = []) :
    (fates scope args s).length = args.length ∧
      (parseLoop true scope args s).state.unparsed =
        some (before ++ passedOn args (fates scope args s)) ∧
      (Apart args (fates scope args s) ↔ Whole scope args s) := by
  induction scope, args, s using parseLoop_induction generalizing before with
  | nil scope s =>
      refine ⟨rfl, ?_, fun _ front current back _ _ cut => ?_, by rintro - p ⟨⟩⟩
      · rw [parseLoop, unparsed, fates, passedOn, List.zip_nil_left]
        simp
      · simp at cut
  | empty scope rest s ih =>
      rw [parseLoop, if_pos rfl] at goesOn clean ⊢
      rw [fates, if_pos rfl, apart_cons, passedOn_cons, whole_empty]
      obtain ⟨length, passed, apart⟩ := ih unparsed goesOn clean
      refine ⟨by rw [List.length_cons, List.length_cons, length], passed, ?_⟩
      rw [← apart]
      exact ⟨fun both => both.2, fun later => ⟨fun other => absurd rfl other, later⟩⟩
  | separator scope rest s =>
      have some_ : text "--" ≠ [] := by decide
      have pushed : (s.pushUnparsed (text "--")).unparsed = some (before ++ [text "--"]) := by
        rw [ParseState.pushUnparsed, unparsed]
        rfl
      have fate : Fate.between s (s.pushUnparsed (text "--")) = ⟨false, true⟩ := by
        rw [between_pushed unparsed pushed, decide_eq_false (fun other => other rfl)]
      obtain ⟨length, passed, apart⟩ := keptFates_spec pushed rest
      rw [parseLoop, if_neg some_, if_pos rfl, if_pos rfl, keepAll_true, fates, if_neg some_,
        if_pos rfl, fate, apart_cons, passedOn_cons, passed, pushed]
      refine ⟨by rw [List.length_cons, List.length_cons, length], ?_, ?_⟩
      · rw [Option.map_some, List.append_assoc]
        rfl
      · exact iff_of_true ⟨fun _ => rfl, apart⟩ whole_separator
  | turn scope current rest s empty sep ih =>
      rw [parseLoop_turn empty sep] at goesOn clean ⊢
      cases stop : (turn true scope current rest s).outcome.stop with
      | some status =>
          simp only [stop] at goesOn
          cases goesOn
      | none =>
          simp only [stop] at goesOn clean ⊢
          have turned := turn_turned unparsed stop (errors_nil_of_grows grows_parseLoop clean)
          have shorter := length_behind_le (turn true scope current rest s).outcome rest
          rw [whole_turn empty sep stop]
          cases turned with
          | passed unparsed' left both =>
              have behind_eq : behind (turn true scope current rest s).outcome rest = rest := by
                rw [behind, left, if_neg (by decide)]
              rw [behind_eq] at shorter goesOn clean ⊢
              obtain ⟨length, passed, apart⟩ := ih _ _ _ shorter unparsed' goesOn clean
              rw [fates, if_neg empty, if_neg sep]
              simp only [stop, left, between_pushed unparsed unparsed']
              rw [apart_cons, passedOn_cons, passed, apart]
              refine ⟨by rw [List.length_cons, List.length_cons, length], ?_, ?_⟩
              · rw [if_pos rfl, List.append_assoc]
              · refine and_congr_left fun _ => ⟨fun split breaks => ?_, fun whole _ => ?_⟩
                · have consumed := split empty
                  rw [decide_eq_true (both.mpr breaks)] at consumed
                  cases consumed
                · exact decide_eq_false fun added => whole (both.mp added)
          | consumed unparsed' added whole =>
              have fate := between_same unparsed unparsed' added
              obtain ⟨length, passed, apart⟩ := ih _ _ _ shorter unparsed' goesOn clean
              rw [fates, if_neg empty, if_neg sep, passed, and_iff_right whole, ← apart]
              cases took : (turn true scope current rest s).outcome.took with
              | false =>
                  have behind_eq : behind (turn true scope current rest s).outcome rest = rest := by
                    rw [behind, took, if_neg (by decide)]
                  rw [behind_eq] at length
                  simp only [stop, took, fate, behind_eq]
                  rw [apart_cons, passedOn_cons]
                  exact ⟨by rw [List.length_cons, List.length_cons, length], rfl,
                    and_iff_right fun _ => rfl⟩
              | true =>
                  have behind_eq : behind (turn true scope current rest s).outcome rest =
                      rest.tail := by
                    rw [behind, took, if_pos rfl]
                  rw [behind_eq] at length
                  cases rest with
                  | nil =>
                      simp only [stop, took, fate, behind_eq, List.tail_nil]
                      rw [apart_cons, passedOn_cons]
                      exact ⟨rfl, rfl, and_iff_right fun _ => rfl⟩
                  | cons value rest =>
                      simp only [stop, took, fate, behind_eq, List.tail_cons] at length ⊢
                      rw [apart_cons, apart_cons, passedOn_cons, passedOn_cons]
                      refine ⟨?_, rfl, ?_⟩
                      · rw [List.length_cons, List.length_cons, List.length_cons,
                          List.length_cons, length]
                      · exact (and_iff_right fun _ => rfl).trans (and_iff_right fun _ => rfl)

end Loop

/-! ## The whole parse -/

section Stops

variable {partialMode : Bool} {scope : List Command} {rest : List Text} {s : ParseState}

theorem shortLoop_stop (rawArg chars : Text) :
    (shortLoop partialMode scope rawArg rest chars s).stop ≠ some .success := by
  induction chars generalizing s with
  | nil => exact Option.some_ne_none _ |>.symm
  | cons c more ih =>
      rw [shortLoop]
      split
      · split
        · split
          · exact ih
          · rintro ⟨⟩
        · split
          · rw [takeNext]
            split <;> rintro ⟨⟩
          · rintro ⟨⟩
      · rintro ⟨⟩
      · rintro ⟨⟩
      · rintro ⟨⟩

theorem turn_stop (current : Text) :
    (turn partialMode scope current rest s).outcome.stop ≠ some .success := by
  rw [turn]
  split
  · simp only [longOption]
    split
    · split
      · rintro ⟨⟩
      · rintro ⟨⟩
      · rintro ⟨⟩
      · rw [takeNext]
        split <;> rintro ⟨⟩
    · rintro ⟨⟩
    · rintro ⟨⟩
    · rintro ⟨⟩
  split
  · exact shortLoop_stop _ _
  split
  · rintro ⟨⟩
  · rintro ⟨⟩

/-- What ends the loop early is a request. -/
theorem parseLoop_stop {args : List Text} :
    (parseLoop partialMode scope args s).stop ≠ some .success := by
  induction scope, args, s using parseLoop_induction with
  | nil scope s => rintro ⟨⟩
  | empty scope rest s ih =>
      rw [parseLoop, if_pos rfl]
      exact ih
  | separator scope rest s =>
      rw [parseLoop, if_neg (by decide), if_pos rfl]
      rintro ⟨⟩
  | turn scope current rest s some_ other ih =>
      rw [parseLoop_turn some_ other]
      have ends : (turn partialMode scope current rest s).outcome.stop ≠ some .success :=
        turn_stop current
      cases stop : (turn partialMode scope current rest s).outcome.stop with
      | some status =>
          rw [stop] at ends
          simpa only [stop] using ends
      | none =>
          simp only [stop]
          exact ih _ _ _ (length_behind_le _ _)

/-- A parse that succeeds has gone to the end of its loop, and has no error. -/
theorem parseArgs_success {root : Command} {args : List Text} {found : Matches}
    {unparsed : Option (List Text)}
    (success : (parseArgs root partialMode args found unparsed).status = .success) :
    (parseLoop partialMode [root] args.tail ⟨{}, found, unparsed⟩).stop = none ∧
      (checkRequired (parseLoop partialMode [root] args.tail ⟨{}, found, unparsed⟩).scope
        (parseLoop partialMode [root] args.tail ⟨{}, found, unparsed⟩).state).parser.errors
          = [] := by
  rw [parseArgs] at success
  cases stop : (parseLoop partialMode [root] args.tail ⟨{}, found, unparsed⟩).stop with
  | some status =>
      simp only [stop] at success
      rw [success] at stop
      exact absurd stop parseLoop_stop
  | none =>
      simp only [stop] at success
      refine ⟨rfl, ?_⟩
      by_contra errors
      rw [if_neg (by simpa using errors)] at success
      cases success

/-- A call that succeeds has come to its arguments. -/
theorem parseInput_of_success {root : Command} {p : Parser} {input : Input} {found : Matches}
    {unparsed : Option (List Text)}
    (success : (parseInput root p partialMode input (some found) unparsed).status = .success) :
    parseInput root p partialMode input (some found) unparsed =
      parseArgs root partialMode input.args found unparsed := by
  cases input with
  | span args => rfl
  | argv argc argv =>
      rw [parseInput] at success ⊢
      by_cases none_ : argc ≤ 0
      · rw [if_pos none_] at success
        cases success
      · rw [if_neg none_]
        rfl

end Stops

theorem unparsed_checkRequired (scope : List Command) (s : ParseState) :
    (checkRequired scope s).unparsed = s.unparsed := by
  rw [checkRequired_eq]

/-- For every command tree and all arguments on which `parse_partial` succeeds: it splits the
arguments into those that it consumes and those that it passes on, if and only if no bundle breaks
off. -/
theorem splits_iff {root : Command} {p : Parser} {input : Input} {found : Matches}
    {before : List Text}
    (success : (parsePartial root p input (some found) (some before)).status = .success) :
    Splits input.args.tail (fates [root] input.args.tail ⟨{}, found, some before⟩) before
        (parsePartial root p input (some found) (some before)).unparsed ↔
      Whole [root] input.args.tail ⟨{}, found, some before⟩ := by
  rw [parsePartial] at success ⊢
  have parsed := parseInput_of_success success
  rw [parsed] at success ⊢
  obtain ⟨stop, clean⟩ := parseArgs_success success
  obtain ⟨length, passed, apart⟩ := fates_spec rfl stop
    (errors_nil_of_grows (grows_checkRequired _ _) clean)
  simp only [parseArgs, stop, unparsed_checkRequired]
  rw [← apart, passed]
  exact ⟨fun splits => splits.apart, fun apart' => ⟨length, apart', rfl⟩⟩

/-- A command with a flag `-a`. -/
def flagA : Command :=
  { name := text "tool", args := [{ shortName := some (char 'a'), isFlag := true }] }

/-- A flag that is known, one that is not, and a word: they are split, so no bundle broke off. -/
theorem splits_iff_apart :
    Whole [flagA] [text "-a", text "-x", text "word"] ⟨{}, {}, some []⟩ := by
  have success : (parsePartial flagA {} (.span [text "tool", text "-a", text "-x", text "word"])
      (some {}) (some [])).status = .success := by decide +kernel
  have seen : fates [flagA] [text "-a", text "-x", text "word"] ⟨{}, {}, some []⟩ =
      [⟨true, false⟩, ⟨false, true⟩, ⟨false, true⟩] := by decide +kernel
  refine (splits_iff success).mp ⟨by decide +kernel, ?_, by decide +kernel⟩
  change Apart [text "-a", text "-x", text "word"]
    (fates [flagA] [text "-a", text "-x", text "word"] ⟨{}, {}, some []⟩)
  rw [seen, apart_cons, apart_cons, apart_cons]
  exact ⟨fun _ => rfl, fun _ => rfl, fun _ => rfl, by rintro p ⟨⟩⟩

/-- In the bundle of both, the known flag is recorded, and the bundle is passed on. -/
theorem not_splits_bundle :
    (parsePartial flagA {} (.span [text "tool", text "-ax"]) (some {}) (some [])).status =
        .success ∧
      (parsePartial flagA {} (.span [text "tool", text "-ax"]) (some {}) (some [])).found =
        some { values := [([], text "1")] } ∧
      (parsePartial flagA {} (.span [text "tool", text "-ax"]) (some {}) (some [])).unparsed =
        some [text "-ax"] ∧
      ¬ Splits [text "-ax"] (fates [flagA] [text "-ax"] ⟨{}, {}, some []⟩) []
        (parsePartial flagA {} (.span [text "tool", text "-ax"]) (some {}) (some [])).unparsed := by
  refine ⟨by decide +kernel, by decide +kernel, by decide +kernel, fun splits => ?_⟩
  have fate : fates [flagA] [text "-ax"] ⟨{}, {}, some []⟩ = [⟨true, true⟩] := by decide +kernel
  have both := splits.apart (text "-ax", ⟨true, true⟩) (by rw [fate]; exact List.mem_cons_self)
    (by decide)
  cases both

end Fpag.Arg
