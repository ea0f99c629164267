import Fpag.Arg.ParserReuse

/-!
`parse` and `parse_partial` on the same arguments.

The two modes run the same loop and part only at positionals, at the separator and at options
that no level knows. `Follows` relates the states of the two runs in front of the separator:
what the full parse has as positionals is what the partial one has passed on. A full parse that
reports no unknown option keeps the relation in every turn (`turn_follows`), so it holds at the
end of the loop (`parseLoop_follows`) and of the whole parse (`parsePartial_agrees`).
-/

namespace Fpag.Arg

/-! ## The separator -/

/-- The number of positionals in front of the separator, where a full parse takes one. -/
def separator : List Command → List Text → ParseState → Option Nat
  | _, [], _ => none
  | scope, current :: rest, s =>
      if current = [] then separator scope rest s
      else if current = text "--" then some s.found.positionals.length
      else
        let t := turn false scope current rest s
        match t.outcome.stop, t.outcome.took, rest with
        | some _, _, _ => none
        | none, true, _ :: rest => separator t.scope rest t.outcome.state
        | none, _, rest => separator t.scope rest t.outcome.state

/-- The positionals with the separator in its place, if there is one. -/
def withSeparator (place : Option Nat) (positionals : List Text) : List Text :=
  match place with
  | none => positionals
  | some n => positionals.insertIdx n (text "--")

theorem insertIdx_length_append (front back : List Text) (arg : Text) :
    (front ++ back).insertIdx front.length arg = front ++ arg :: back := by
  induction front with
  | nil => rfl
  | cons first front ih =>
      rw [List.cons_append, List.length_cons, List.insertIdx_succ_cons, ih, List.cons_append]

/-! ## The relation -/

/-- The error is about an option that no level knows. -/
def ParseError.isUnknown (error : ParseError) : Bool :=
  error.code == .unknownLongOption || error.code == .unknownShortOption

/-- No error of the parser is about an unknown option. -/
def Known (p : Parser) : Prop := ∀ error ∈ p.errors, error.isUnknown = false

instance (p : Parser) : Decidable (Known p) :=
  inferInstanceAs (Decidable (∀ error ∈ p.errors, error.isUnknown = false))

/-- The states of a full parse and of a partial one that have seen the same arguments. -/
structure Follows (s t : ParseState) (kept : List Text) : Prop where
  parser : t.parser = s.parser
  values : t.found.values = s.found.values
  commandPath : t.found.commandPath = s.found.commandPath
  unparsed : t.unparsed = some kept

/-- What an option does in the two modes. -/
structure Outcome.Follows (o o' : Outcome) : Prop where
  state : Arg.Follows o.state o'.state o.state.found.positionals
  took : o'.took = o.took
  stop : o'.stop = o.stop

section Turn

variable {s t : ParseState} {kept : List Text} {scope : List Command} {rest : List Text}

theorem Follows.addError (follows : Follows s t kept) (code : ErrorCode) (context value : Text) :
    Follows (s.addError code context value) (t.addError code context value) kept := by
  refine ⟨?_, follows.values, follows.commandPath, follows.unparsed⟩
  simp only [ParseState.addError, follows.parser]

theorem positionals_supply (s : ParseState) (arg : Argument) (value : Text) :
    (supply s arg value).found.positionals = s.found.positionals := by
  rw [supply]
  split <;> rfl

theorem Follows.supply (follows : Follows s t kept) (arg : Argument) (value : Text) :
    Follows (supply s arg value) (supply t arg value) kept := by
  rw [Arg.supply, Arg.supply]
  split
  · refine ⟨follows.parser, ?_, follows.commandPath, follows.unparsed⟩
    simp only [Matches.add, follows.values]
  · exact follows.addError _ _ _

variable (follows : Follows s t s.found.positionals)

include follows

theorem supply_follows (arg : Argument) (value : Text) (took : Bool) :
    Outcome.Follows ⟨supply s arg value, took, none⟩ ⟨supply t arg value, took, none⟩ := by
  refine ⟨?_, rfl, rfl⟩
  rw [positionals_supply]
  exact follows.supply arg value

theorem takeNext_follows (arg : Argument) (option : Text) (rest : List Text) :
    (takeNext s arg option rest).Follows (takeNext t arg option rest) := by
  rw [takeNext, takeNext]
  split
  · exact ⟨follows.addError _ _ _, rfl, rfl⟩
  · exact supply_follows follows arg _ true

theorem requestHelp_follows (level : Command) :
    (requestHelp s level).Follows (requestHelp t level) := by
  refine ⟨⟨?_, follows.values, follows.commandPath, follows.unparsed⟩, rfl, rfl⟩
  simp only [requestHelp, ParseState.setHelp, follows.parser]

theorem requestVersion_follows : (requestVersion s).Follows (requestVersion t) :=
  ⟨follows, rfl, rfl⟩

omit follows in
/-- A full parse reports an option that it does not know. -/
theorem not_known_unknown {rawArg context : Text} {code : ErrorCode}
    (isUnknown : (ParseError.mk code context []).isUnknown = true) :
    ¬ Known (unknown false s rawArg code context).state.parser := by
  intro known
  have reported := known ⟨code, context, []⟩ (List.mem_append_right _ (List.mem_singleton_self _))
  rw [isUnknown] at reported
  cases reported

theorem longOption_follows (rawArg : Text)
    (known : Known (longOption false scope rawArg rest s).state.parser) :
    (longOption false scope rawArg rest s).Follows (longOption true scope rawArg rest t) := by
  simp only [longOption] at known ⊢
  split at known
  · split
    · exact ⟨follows.addError _ _ _, rfl, rfl⟩
    · exact supply_follows follows _ _ false
    · exact supply_follows follows _ _ false
    · exact takeNext_follows follows _ _ _
  · exact requestHelp_follows follows _
  · exact requestVersion_follows follows
  · exact absurd known (not_known_unknown rfl)

omit follows in
/-- The characters of a bundle, one after the other. -/
theorem shortLoop_follows (rawArg : Text) (chars : Text) {s t : ParseState}
    (follows : Follows s t s.found.positionals)
    (known : Known (shortLoop false scope rawArg rest chars s).state.parser) :
    (shortLoop false scope rawArg rest chars s).Follows
      (shortLoop true scope rawArg rest chars t) := by
  induction chars generalizing s t with
  | nil => exact ⟨follows, rfl, rfl⟩
  | cons c more ih =>
      simp only [shortLoop] at known ⊢
      split at known
      · next arg _ =>
          by_cases flag : arg.isFlag = true
          · by_cases valid : isValidChoice arg (text "1") = true
            · simp only [if_pos flag, if_pos valid] at known ⊢
              refine ih ?_ known
              rw [positionals_supply]
              exact follows.supply arg _
            · simp only [if_pos flag, if_neg valid]
              exact supply_follows follows arg _ false
          · by_cases last : more.isEmpty = true
            · simp only [if_neg flag, if_pos last]
              exact takeNext_follows follows arg _ _
            · simp only [if_neg flag, if_neg last]
              exact supply_follows follows arg _ false
      · exact requestHelp_follows follows _
      · exact requestVersion_follows follows
      · exact absurd known (not_known_unknown rfl)

/-- One turn of the loop. -/
theorem turn_follows (current : Text)
    (known : Known (turn false scope current rest s).outcome.state.parser) :
    (turn true scope current rest t).scope = (turn false scope current rest s).scope ∧
      (turn false scope current rest s).outcome.Follows
        (turn true scope current rest t).outcome := by
  simp only [turn] at known ⊢
  by_cases long : (text "--").isPrefixOf current = true
  · simp only [if_pos long] at known ⊢
    exact ⟨trivial, longOption_follows follows current known⟩
  by_cases short : ((text "-").isPrefixOf current && decide (1 < current.length)) = true
  · simp only [if_neg long, if_pos short] at known ⊢
    exact ⟨trivial, shortLoop_follows current _ follows known⟩
  simp only [if_neg long, if_neg short]
  split
  · next sub _ =>
      refine ⟨rfl, ⟨follows.parser, follows.values, ?_, follows.unparsed⟩, rfl, rfl⟩
      simp only [Matches.selectSubcommand, follows.commandPath]
  · refine ⟨rfl, ⟨follows.parser, follows.values, follows.commandPath, ?_⟩, rfl, rfl⟩
    simp only [ParseState.keep, ParseState.pushUnparsed, if_true, follows.unparsed]
    rfl

end Turn

/-! ## Errors stay -/

section Errors

variable {s : ParseState} {scope : List Command} {rest : List Text} {partialMode : Bool}

/-- The errors of a state are errors of a later one. -/
def Grows (s s' : ParseState) : Prop := s.parser.errors ⊆ s'.parser.errors

theorem Grows.known {s' : ParseState} (grows : Grows s s') (known : Known s'.parser) :
    Known s.parser := fun error member => known error (grows member)

theorem grows_addError (code : ErrorCode) (context value : Text) :
    Grows s (s.addError code context value) := List.subset_append_left _ _

theorem grows_supply (arg : Argument) (value : Text) : Grows s (supply s arg value) := by
  rw [supply]
  split
  · exact List.Subset.refl _
  · exact grows_addError _ _ _

theorem grows_takeNext (arg : Argument) (option : Text) :
    Grows s (takeNext s arg option rest).state := by
  rw [takeNext]
  split
  · exact grows_addError _ _ _
  · exact grows_supply _ _

theorem grows_unknown (rawArg : Text) (code : ErrorCode) (context : Text) :
    Grows s (unknown partialMode s rawArg code context).state := by
  cases partialMode with
  | true => exact List.Subset.refl _
  | false => exact grows_addError _ _ _

theorem grows_longOption (rawArg : Text) :
    Grows s (longOption partialMode scope rawArg rest s).state := by
  simp only [longOption]
  split
  · split
    · exact grows_addError _ _ _
    · exact grows_supply _ _
    · exact grows_supply _ _
    · exact grows_takeNext _ _
  · exact List.Subset.refl _
  · exact List.Subset.refl _
  · exact grows_unknown _ _ _

theorem grows_shortLoop (rawArg chars : Text) :
    Grows s (shortLoop partialMode scope rawArg rest chars s).state := by
  induction chars generalizing s with
  | nil => exact List.Subset.refl _
  | cons c more ih =>
      rw [shortLoop]
      split
      · split
        · split
          · exact List.Subset.trans (grows_supply _ _) ih
          · exact grows_supply _ _
        · split
          · exact grows_takeNext _ _
          · exact grows_supply _ _
      · exact List.Subset.refl _
      · exact List.Subset.refl _
      · exact grows_unknown _ _ _

theorem grows_keep (current : Text) : Grows s (s.keep partialMode current) := by
  cases partialMode <;> exact List.Subset.refl _

theorem grows_turn (current : Text) :
    Grows s (turn partialMode scope current rest s).outcome.state := by
  rw [turn]
  split
  · exact grows_longOption _
  split
  · exact grows_shortLoop _ _
  split
  · exact List.Subset.refl _
  · exact grows_keep _

theorem keepAll_false (args : List Text) (s : ParseState) :
    keepAll false args s =
      { s with found := { s.found with
          positionals := s.found.positionals ++ args.filter (· ≠ []) } } := by
  rw [keepAll]
  induction args.filter (· ≠ []) generalizing s with
  | nil => rw [List.append_nil]; rfl
  | cons arg args ih =>
      rw [List.foldl_cons, ih]
      simp only [ParseState.keep, Bool.false_eq_true, if_false, Matches.addPositional,
        List.append_assoc, List.singleton_append]

theorem keepAll_true (args : List Text) (s : ParseState) :
    keepAll true args s =
      { s with unparsed := s.unparsed.map (· ++ args.filter (· ≠ [])) } := by
  rw [keepAll]
  induction args.filter (· ≠ []) generalizing s with
  | nil => simp
  | cons arg args ih =>
      rw [List.foldl_cons, ih]
      simp only [ParseState.keep, ParseState.pushUnparsed, if_true, Option.map_map]
      congr 2
      funext kept
      simp

end Errors

/-! ## The loop -/

section Loop

variable {s t : ParseState} {scope : List Command} {args : List Text} {partialMode : Bool}

/-- What follows an argument and what it has taken. -/
def behind (o : Outcome) (rest : List Text) : List Text := if o.took then rest.tail else rest

/-- The loop at an argument that is neither empty nor the separator. -/
theorem parseLoop_turn {current : Text} {rest : List Text} (some : current ≠ [])
    (other : current ≠ text "--") :
    parseLoop partialMode scope (current :: rest) s =
      let t := turn partialMode scope current rest s
      match t.outcome.stop with
      | .some status => ⟨t.scope, t.outcome.state, .some status⟩
      | none => parseLoop partialMode t.scope (behind t.outcome rest) t.outcome.state := by
  rw [parseLoop, if_neg some, if_neg other]
  simp only [behind]
  cases (turn partialMode scope current rest s).outcome.stop with
  | some status => rfl
  | none =>
      cases (turn partialMode scope current rest s).outcome.took with
      | false => rfl
      | true => cases rest <;> rfl

theorem separator_turn {current : Text} {rest : List Text} (some : current ≠ [])
    (other : current ≠ text "--") :
    separator scope (current :: rest) s =
      let t := turn false scope current rest s
      match t.outcome.stop with
      | .some _ => none
      | none => separator t.scope (behind t.outcome rest) t.outcome.state := by
  rw [separator, if_neg some, if_neg other]
  simp only [behind]
  cases (turn false scope current rest s).outcome.stop with
  | some status => rfl
  | none =>
      cases (turn false scope current rest s).outcome.took with
      | false => rfl
      | true => cases rest <;> rfl

theorem length_behind_le (o : Outcome) (rest : List Text) :
    (behind o rest).length ≤ rest.length := by
  rw [behind]
  split
  · exact List.length_tail ▸ Nat.sub_le _ _
  · exact Nat.le_refl _

/-- The induction along the loop. A turn takes the argument behind its own or leaves it, so what
follows it is at most what stands behind its argument. -/
@[elab_as_elim]
theorem parseLoop_induction {motive : List Command → List Text → ParseState → Prop}
    (nil : ∀ scope s, motive scope [] s)
    (empty : ∀ scope rest s, motive scope rest s → motive scope ([] :: rest) s)
    (separator : ∀ scope rest s, motive scope (text "--" :: rest) s)
    (turn : ∀ scope current rest s, current ≠ [] → current ≠ text "--" →
      (∀ scope' later s', later.length ≤ rest.length → motive scope' later s') →
      motive scope (current :: rest) s)
    (scope : List Command) (args : List Text) (s : ParseState) : motive scope args s := by
  have all (n : Nat) : ∀ scope args s, args.length ≤ n → motive scope args s := by
    induction n with
    | zero =>
        intro scope args s few
        cases List.length_eq_zero_iff.mp (Nat.le_zero.mp few)
        exact nil scope s
    | succ n ih =>
        intro scope args s few
        cases args with
        | nil => exact nil scope s
        | cons current rest =>
            have fewer : rest.length ≤ n := Nat.le_of_succ_le_succ few
            by_cases none_ : current = []
            · rw [none_]
              exact empty scope rest s (ih scope rest s fewer)
            by_cases sep : current = text "--"
            · rw [sep]
              exact separator scope rest s
            exact turn scope current rest s none_ sep fun scope' later s' shorter =>
              ih scope' later s' (shorter.trans fewer)
  exact all args.length scope args s (Nat.le_refl _)

/-- The errors of a parse stay to its end. -/
theorem grows_parseLoop : Grows s (parseLoop partialMode scope args s).state := by
  induction scope, args, s using parseLoop_induction with
  | nil scope s => exact List.Subset.refl _
  | empty scope rest s ih =>
      rw [parseLoop, if_pos rfl]
      exact ih
  | separator scope rest s =>
      rw [parseLoop, if_neg (by decide), if_pos rfl]
      cases partialMode with
      | true =>
          rw [keepAll_true]
          exact List.Subset.refl _
      | false =>
          rw [keepAll_false]
          exact List.Subset.refl _
  | turn scope current rest s some_ other ih =>
      rw [parseLoop_turn some_ other]
      have step : Grows s (turn partialMode scope current rest s).outcome.state :=
        grows_turn current
      cases h : (turn partialMode scope current rest s).outcome.stop with
      | some status => simpa only [h] using step
      | none =>
          simp only [h]
          exact List.Subset.trans step (ih _ _ _ (length_behind_le _ _))

/-- Where the loop of a full parse ends without an error about an unknown option, the loop of a
partial parse ends in the same way, and has passed on what the full parse has as positionals and
the separator in its place. -/
theorem parseLoop_follows (follows : Follows s t s.found.positionals)
    (known : Known (parseLoop false scope args s).state.parser) :
    (parseLoop true scope args t).scope = (parseLoop false scope args s).scope ∧
      (parseLoop true scope args t).stop = (parseLoop false scope args s).stop ∧
      Follows (parseLoop false scope args s).state (parseLoop true scope args t).state
        (withSeparator (separator scope args s)
          (parseLoop false scope args s).state.found.positionals) := by
  induction scope, args, s using parseLoop_induction generalizing t with
  | nil scope s => exact ⟨rfl, rfl, follows⟩
  | empty scope rest s ih =>
      simp only [parseLoop, separator, if_true] at known ⊢
      exact ih follows known
  | separator scope rest s =>
      have some_ : text "--" ≠ [] := by decide
      simp only [parseLoop, separator, if_neg some_, if_true, keepAll_false, keepAll_true]
      refine ⟨trivial, trivial, follows.parser, follows.values, follows.commandPath, ?_⟩
      simp only [withSeparator, ParseState.pushUnparsed, Bool.false_eq_true, if_false,
        follows.unparsed, insertIdx_length_append, Option.map_some, List.append_assoc,
        List.singleton_append]
  | turn scope current rest s some_ other ih =>
      -- The errors that the turn reports are still there at the end.
      have soFar : Known (turn false scope current rest s).outcome.state.parser := by
        rw [parseLoop_turn some_ other] at known
        cases h : (turn false scope current rest s).outcome.stop with
        | some status => simpa only [h] using known
        | none =>
            simp only [h] at known
            exact grows_parseLoop.known known
      obtain ⟨scopes, states, took, stop⟩ := turn_follows follows current soFar
      rw [parseLoop_turn some_ other] at known ⊢
      rw [parseLoop_turn some_ other, separator_turn some_ other]
      simp only [stop, scopes]
      cases h : (turn false scope current rest s).outcome.stop with
      | some status => exact ⟨rfl, rfl, states⟩
      | none =>
          simp only [h] at known
          have same : behind (turn true scope current rest t).outcome rest =
              behind (turn false scope current rest s).outcome rest := by
            rw [behind, behind, took]
          simp only [same]
          exact ih _ _ _ (length_behind_le _ _) states known

end Loop

/-! ## The whole parse -/

section Parse

variable {s t : ParseState} {kept : List Text}

theorem has_follows (follows : Follows s t kept) (name : Text) :
    t.found.has name = s.found.has name := by
  rw [Matches.has, Matches.has, follows.values]

theorem checkRequired_follows (follows : Follows s t kept) (scope : List Command) :
    Follows (checkRequired scope s) (checkRequired scope t) kept := by
  simp only [checkRequired, has_follows follows]
  induction (scope.flatMap (·.args)).filter _ generalizing s t with
  | nil => exact follows
  | cons arg args ih => exact ih (follows.addError _ _ _)

/-- The required arguments of a scope under whose names the matches have no value. -/
def missing (scope : List Command) (found : Matches) : List Argument :=
  (scope.flatMap (·.args)).filter fun arg => arg.isRequired && !found.has arg.name

/-- The error about a required argument without a value. -/
def leftOut (arg : Argument) : ParseError := ⟨.missingRequiredArgument, requiredName arg, []⟩

/-- The check adds one error for each of them and changes nothing else. -/
theorem checkRequired_eq (scope : List Command) (s : ParseState) : checkRequired scope s =
    { s with parser := { s.parser with
        errors := s.parser.errors ++ (missing scope s.found).map leftOut } } := by
  rw [checkRequired, missing]
  induction (scope.flatMap (·.args)).filter _ generalizing s with
  | nil => rw [List.foldl_nil, List.map_nil, List.append_nil]
  | cons arg args ih =>
      rw [List.foldl_cons, ih, List.map_cons]
      simp only [ParseState.addError, Parser.addError, List.append_assoc, List.singleton_append,
        leftOut]

theorem found_checkRequired (scope : List Command) (s : ParseState) :
    (checkRequired scope s).found = s.found := by
  rw [checkRequired_eq]

theorem grows_checkRequired (scope : List Command) (s : ParseState) :
    Grows s (checkRequired scope s) := by
  rw [checkRequired_eq]
  exact List.subset_append_left _ _

/-- A partial parse gives what a full parse gives, and passes on its positionals with the
separator. -/
structure Agrees (place : Option Nat) (full part : Result) : Prop where
  status : part.status = full.status
  errors : part.parser.errors = full.parser.errors
  help : part.parser.helpCommand = full.parser.helpCommand
  found : ∃ found found', full.found = some found ∧ part.found = some found' ∧
    found'.values = found.values ∧ found'.commandPath = found.commandPath ∧
    part.unparsed = some (withSeparator place found.positionals)

theorem Follows.agrees {place : Option Nat} {status status' : ParseStatus}
    (follows : Follows s t (withSeparator place s.found.positionals)) (same : status' = status) :
    Agrees place ⟨status, s.parser, some s.found, s.unparsed⟩
      ⟨status', t.parser, some t.found, t.unparsed⟩ where
  status := same
  errors := by rw [follows.parser]
  help := by rw [follows.parser]
  found := ⟨_, _, rfl, rfl, follows.values, follows.commandPath, follows.unparsed⟩

theorem parseArgs_agrees (root : Command) (args : List Text)
    (known : Known (parseArgs root false args {} none).parser) :
    Agrees (separator [root] args.tail {}) (parseArgs root false args {} none)
      (parseArgs root true args {} (some [])) := by
  have begins : Follows {} ⟨{}, {}, some []⟩ (ParseState.mk {} {} none).found.positionals :=
    ⟨rfl, rfl, rfl, rfl⟩
  have soFar : Known (parseLoop false [root] args.tail {}).state.parser := by
    simp only [parseArgs] at known
    cases h : (parseLoop false [root] args.tail {}).stop with
    | some status => simpa only [h] using known
    | none =>
        simp only [h] at known
        exact (grows_checkRequired _ _).known known
  obtain ⟨scope, stop, follows⟩ := parseLoop_follows begins soFar
  simp only [parseArgs, stop, scope]
  cases h : (parseLoop false [root] args.tail {}).stop with
  | some status => exact follows.agrees rfl
  | none =>
      have checked := checkRequired_follows follows (parseLoop false [root] args.tail {}).scope
      rw [← found_checkRequired (parseLoop false [root] args.tail {}).scope] at checked
      refine checked.agrees ?_
      rw [checked.parser]

end Parse

/-- The arguments of a call. -/
def Input.args : Input → List Text
  | .argv argc pointers => getFromArgv argc pointers
  | .span args => args

/-- For every command tree and all arguments on which a full parse knows every option, the
partial parse agrees with it. Where the call comes to the arguments at all, the parsers that make
the two calls need not be in the same state. -/
theorem parsePartial_agrees (root : Command) (p p' : Parser) (input : Input)
    (same : input.counted = false → p' = p)
    (known : Known (parse root p input (some {})).parser) :
    Agrees (separator [root] input.args.tail {}) (parse root p input (some {}))
      (parsePartial root p' input (some {}) (some [])) := by
  cases input with
  | span args => exact parseArgs_agrees root args known
  | argv argc argv =>
      simp only [parse, parsePartial, parseInput, Input.args] at known ⊢
      by_cases pos : argc ≤ 0
      · have none : getFromArgv argc argv = [] := by
          rw [getFromArgv, Int.toNat_of_nonpos pos]
          rfl
        have equal : p' = p := same (by simpa [Input.counted] using pos)
        rw [none, if_pos pos, if_pos pos, equal]
        exact ⟨rfl, rfl, rfl, _, _, rfl, rfl, rfl, rfl, rfl⟩
      · simp only [if_neg pos] at known ⊢
        exact parseArgs_agrees root _ known

/-- A command with an option `--out`, and its arguments: the second separator is a positional. -/
theorem parsePartial_agrees_separator :
    let root : Command := ⟨text "tool", [], [{ longName := text "out" }], [], true⟩
    let input : Input := .span
      [text "tool", text "a", text "--out", text "--", text "--", text "b", text "--"]
    (parsePartial root {} input (some {}) (some [])).unparsed =
      some [text "a", text "--", text "b", text "--"] := by
  intro root input
  have agrees := parsePartial_agrees root {} {} input (fun _ => rfl) (by decide +kernel)
  obtain ⟨found, found', full, -, -, -, unparsed⟩ := agrees.found
  have is : (parse root {} input (some {})).found =
    some ⟨[(text "out", text "--")], [text "a", text "b", text "--"], []⟩ := by decide +kernel
  have place : separator [root] input.args.tail {} = some 1 := by decide +kernel
  rw [full] at is
  cases is
  rw [place] at unparsed
  exact unparsed

end Fpag.Arg
