import Fpag.Arg.PartialSplit

/-!
Required arguments and the tokens that resolve to them.

A token is resolved to an argument, and an argument has a place: a level of the scope and an index
among the arguments of that level (`Site`). What is recorded is the name of the argument only, and
the check of the required arguments asks for names. `resolved` goes along with the loop and notes
the places. A parse without errors records, for every place that it notes, the name of the argument
there, and nothing else (`parseLoop_records`). So a required argument that passes the check has
been given, or something else stands in for it (`StandIn`).
-/

namespace Fpag.Arg

/-! ## Places -/

/-- The place of an argument: the level, the root being the first one, and the index there. -/
structure Site : Type where
  level : Nat
  index : Nat
  deriving DecidableEq

namespace Site

/-- The argument at a place. -/
def arg (scope : List Command) (site : Site) : Option Argument :=
  (scope[site.level]?).bind fun command => command.args[site.index]?

/-- The name under which the argument at a place is recorded. -/
def nameIn (scope : List Command) (site : Site) : Option Text := (site.arg scope).map (·.name)

variable {scope : List Command} {site : Site}

theorem arg_append {found : Argument} (there : site.arg scope = some found) (more : List Command) :
    site.arg (scope ++ more) = some found := by
  obtain ⟨command, level, index⟩ := Option.bind_eq_some_iff.mp there
  have below : site.level < scope.length := (List.getElem?_eq_some_iff.mp level).1
  rw [arg, List.getElem?_append_left below, level]
  exact index

theorem nameIn_append {name : Text} (there : site.nameIn scope = some name)
    (more : List Command) : site.nameIn (scope ++ more) = some name := by
  obtain ⟨found, at_, rfl⟩ := Option.map_eq_some_iff.mp there
  rw [nameIn, arg_append at_]
  rfl

theorem arg_eq (scope : List Command) (site : Site) :
    site.arg scope = ((scope.map (·.args))[site.level]?).bind (·[site.index]?) := by
  rw [arg, List.getElem?_map, Option.bind_map]
  rfl

theorem mem_of_arg {found : Argument} (there : site.arg scope = some found) :
    found ∈ scope.flatMap (·.args) := by
  obtain ⟨command, level, index⟩ := Option.bind_eq_some_iff.mp there
  exact List.mem_flatMap.mpr ⟨command, List.mem_of_getElem? level, List.mem_of_getElem? index⟩

end Site

/-! ## Where a token is resolved to -/

/-- The search of `findOption`, with the place of what it finds. -/
def locateOption (own : Command → Option Nat) (isBuiltin : Bool) : List Command → Option Site
  | [] => none
  | level :: outer =>
      match own level with
      | some index => some ⟨outer.length, index⟩
      | none =>
          if level.builtinEnabled && isBuiltin then none else locateOption own isBuiltin outer

/-- The place of the argument that `long_option` resolves a token to. -/
def locateLong (scope : List Command) (content : Text) : Option Site :=
  locateOption (·.args.findIdx? fun arg => arg.longName == (splitEqual content).1)
    (content == text "help" || content == text "version") scope.reverse

/-- The place of the argument that `short_options` resolves a character to. -/
def locateShort (scope : List Command) (c : UInt8) : Option Site :=
  locateOption (·.args.findIdx? fun arg => arg.shortName == some c)
    (c == char 'h' || c == char 'v') scope.reverse

/-- A token that is resolved to an argument: the place of the argument, and the value that the
token gives to it. -/
structure Resolution : Type where
  site : Site
  value : Text
  deriving DecidableEq

/-- The value of an option with `own` behind it; one that needs a value and has none takes the next
argument. -/
def givenValue (arg : Argument) (own : Option Text) (rest : List Text) : Text :=
  if arg.isFlag then text "1" else own.getD (rest.headD [])

/-- What `long_option` resolves a token to. -/
def resolvedLong (scope : List Command) (content : Text) (rest : List Text) : List Resolution :=
  match findLong scope content, locateLong scope content with
  | some (.arg arg), some site => [⟨site, givenValue arg (splitEqual content).2 rest⟩]
  | _, _ => []

/-- What `short_options` resolves the characters of a bundle to, up to the first that takes a value
or is an error. -/
def resolvedShort (scope : List Command) (rest : List Text) : Text → List Resolution
  | [] => []
  | c :: more =>
      match findShort scope c, locateShort scope c with
      | some (.arg arg), some site =>
          ⟨site, givenValue arg (if more.isEmpty then none else some more) rest⟩ ::
            if arg.isFlag && isValidChoice arg (text "1") then resolvedShort scope rest more else []
      | _, _ => []

/-- What a token is resolved to. -/
def resolvedToken (scope : List Command) (current : Text) (rest : List Text) : List Resolution :=
  if (text "--").isPrefixOf current then resolvedLong scope (current.drop 2) rest
  else if (text "-").isPrefixOf current && decide (1 < current.length) then
    resolvedShort scope rest (current.drop 1)
  else []

/-- What the tokens of a full parse are resolved to, in their order. -/
def resolved : List Command → List Text → ParseState → List Resolution
  | _, [], _ => []
  | scope, current :: rest, s =>
      if current = [] then resolved scope rest s
      else if current = text "--" then []
      else
        let t := turn false scope current rest s
        let token := resolvedToken scope current rest
        match t.outcome.stop, t.outcome.took, rest with
        | some _, _, _ => token
        | none, true, _ :: rest => token ++ resolved t.scope rest t.outcome.state
        | none, _, rest => token ++ resolved t.scope rest t.outcome.state

section Search

variable {scope : List Command}

/-- The search finds the argument at the place that it stops at. -/
theorem findOption_located {p : Argument → Bool} {isHelp isVersion : Bool} {arg : Argument}
    {levels : List Command}
    (found : findOption (·.args.find? p) isHelp isVersion levels = some (.arg arg)) :
    ∃ site, locateOption (·.args.findIdx? p) (isHelp || isVersion) levels = some site ∧
      site.arg levels.reverse = some arg := by
  induction levels with
  | nil => cases found
  | cons level outer ih =>
      rw [findOption] at found
      rw [locateOption, List.reverse_cons]
      have own : level.args.find? p = (level.args.findIdx? p).bind (level.args[·]?) :=
        List.find?_eq_bind_findIdx?_getElem?
      cases index : level.args.findIdx? p with
      | some i =>
          rw [index, Option.bind_some] at own
          have within : i < level.args.length := (List.findIdx?_eq_some_iff_findIdx_eq.mp index).1
          rw [List.getElem?_eq_getElem within] at own
          rw [own] at found
          cases found
          refine ⟨⟨outer.length, i⟩, rfl, ?_⟩
          simp [Site.arg, within]
      | none =>
          rw [index, Option.bind_none] at own
          rw [own] at found
          cases enabled : level.builtinEnabled with
          | false =>
              simp only [enabled, Bool.false_and, Bool.false_eq_true, if_false] at found ⊢
              obtain ⟨site, located, at_⟩ := ih found
              exact ⟨site, located, Site.arg_append at_ _⟩
          | true =>
              cases isHelp with
              | true => simp [enabled] at found
              | false =>
                  cases isVersion with
                  | true => simp [enabled] at found
                  | false =>
                      simp only [Bool.and_false, Bool.or_false, Bool.false_eq_true,
                        if_false] at found ih ⊢
                      obtain ⟨site, located, at_⟩ := ih found
                      exact ⟨site, located, Site.arg_append at_ _⟩

theorem findLong_located {content : Text} {arg : Argument}
    (found : findLong scope content = some (.arg arg)) :
    ∃ site, locateLong scope content = some site ∧ site.arg scope = some arg := by
  have located := findOption_located found
  rwa [List.reverse_reverse] at located

theorem findShort_located {c : UInt8} {arg : Argument}
    (found : findShort scope c = some (.arg arg)) :
    ∃ site, locateShort scope c = some site ∧ site.arg scope = some arg := by
  have located := findOption_located found
  rwa [List.reverse_reverse] at located

end Search

/-! ## What is recorded -/

/-- A run from `s` to `s'` has recorded, in their order, the values that tokens give, under the
names of the arguments that they are resolved to. -/
def Records (scope : List Command) (tokens : List Resolution) (s s' : ParseState) : Prop :=
  s'.found.values.map (fun entry => (some entry.1, entry.2)) =
    s.found.values.map (fun entry => (some entry.1, entry.2)) ++
      tokens.map fun token => (token.site.nameIn scope, token.value)

namespace Records

variable {scope : List Command} {tokens tokens' : List Resolution} {s s' s'' : ParseState}

theorem refl (same : s'.found.values = s.found.values) : Records scope [] s s' := by
  rw [Records, same, List.map_nil, List.append_nil]

theorem trans (first : Records scope tokens s s') (second : Records scope tokens' s' s'') :
    Records scope (tokens ++ tokens') s s'' := by
  rw [Records] at first second ⊢
  rw [second, first, List.map_append, List.append_assoc]

/-- Every place is one of the scope. -/
theorem nameIn_of_mem (records : Records scope tokens s s') {token : Resolution}
    (there : token ∈ tokens) : ∃ name, token.site.nameIn scope = some name := by
  have named : (token.site.nameIn scope, token.value) ∈
      s'.found.values.map fun entry => (some entry.1, entry.2) := by
    rw [records]
    exact List.mem_append_right _ (List.mem_map_of_mem there)
  obtain ⟨entry, -, is⟩ := List.mem_map.mp named
  exact ⟨entry.1, (congrArg Prod.fst is).symm⟩

/-- The places keep their arguments when the parse descends. -/
theorem append (records : Records scope tokens s s') (more : List Command) :
    Records (scope ++ more) tokens s s' := by
  rw [Records, records]
  congr 1
  apply List.map_congr_left
  intro token there
  obtain ⟨name, named⟩ := records.nameIn_of_mem there
  rw [named, Site.nameIn_append named more]

/-- A value is added for one argument. -/
theorem single {arg : Argument} {site : Site} (at_ : site.arg scope = some arg) (value : Text) :
    Records scope [⟨site, value⟩] s { s with found := s.found.add arg.name value } := by
  rw [Records, List.map_cons, List.map_nil, Site.nameIn, at_]
  exact List.map_append

/-- A name is there at the end if it was there before, or if a token is resolved to an argument of
that name. -/
theorem has_iff (records : Records scope tokens s s') (name : Text) :
    s'.found.has name = true ↔
      s.found.has name = true ∨ ∃ token ∈ tokens, token.site.nameIn scope = some name := by
  have there (found : Matches) : found.has name = true ↔ some name ∈
      (found.values.map fun entry => (some entry.1, entry.2)).map Prod.fst := by
    simp [Matches.has]
  rw [there, there, records, List.map_append, List.mem_append, List.map_map, List.map_map]
  exact or_congr_right List.mem_map

end Records

section Turn

variable {scope : List Command} {rest : List Text} {s : ParseState}

theorem takeNext_records {arg : Argument} {option : Text} {site : Site}
    (at_ : site.arg scope = some arg)
    (clean : (takeNext s arg option rest).state.parser.errors = []) :
    Records scope [⟨site, rest.headD []⟩] s (takeNext s arg option rest).state := by
  rw [takeNext_of_no_error clean]
  exact .single at_ _

theorem supply_records {arg : Argument} {value : Text} {site : Site}
    (at_ : site.arg scope = some arg) (clean : (supply s arg value).parser.errors = []) :
    Records scope [⟨site, value⟩] s (supply s arg value) := by
  rw [(supply_of_no_error clean).2]
  exact .single at_ value

theorem longOption_records {current : Text}
    (goesOn : (longOption false scope current rest s).stop = none)
    (clean : (longOption false scope current rest s).state.parser.errors = []) :
    Records scope (resolvedLong scope (current.drop 2) rest) s
      (longOption false scope current rest s).state := by
  simp only [longOption] at goesOn clean ⊢
  split at clean
  · next arg found =>
      obtain ⟨site, located, at_⟩ := findLong_located found
      simp only [resolvedLong, found, located, givenValue]
      split at clean
      · exact absurd clean (List.append_ne_nil_of_right_ne_nil _ (List.cons_ne_nil _ _))
      · next flag _ =>
          rw [if_pos flag]
          exact supply_records at_ clean
      · next value flag own =>
          rw [if_neg (by rw [flag]; decide), own]
          exact supply_records at_ clean
      · next flag own =>
          rw [if_neg (by rw [flag]; decide), own]
          exact takeNext_records at_ clean
  · next found =>
      rw [found] at goesOn
      cases goesOn
  · next found =>
      rw [found] at goesOn
      cases goesOn
  · exact absurd clean (List.append_ne_nil_of_right_ne_nil _ (List.cons_ne_nil _ _))

/-- The characters of a bundle, one after the other. -/
theorem shortLoop_records (rawArg chars : Text)
    (goesOn : (shortLoop false scope rawArg rest chars s).stop = none)
    (clean : (shortLoop false scope rawArg rest chars s).state.parser.errors = []) :
    Records scope (resolvedShort scope rest chars) s
      (shortLoop false scope rawArg rest chars s).state := by
  induction chars generalizing s with
  | nil => exact .refl rfl
  | cons c more ih =>
      rw [shortLoop] at goesOn clean ⊢
      cases found : findShort scope c with
      | none =>
          rw [found] at clean
          exact absurd clean (List.append_ne_nil_of_right_ne_nil _ (List.cons_ne_nil _ _))
      | some option =>
          rw [found] at goesOn clean
          cases option with
          | help level => cases goesOn
          | version => cases goesOn
          | arg arg =>
              obtain ⟨site, located, at_⟩ := findShort_located found
              simp only [resolvedShort, found, located, givenValue]
              dsimp only at goesOn clean
              by_cases flag : arg.isFlag = true
              · rw [if_pos flag] at goesOn clean ⊢
                rw [if_pos flag]
                by_cases valid : isValidChoice arg (text "1") = true
                · rw [if_pos valid] at goesOn clean ⊢
                  rw [if_pos (by rw [flag, valid]; rfl)]
                  have kept : Grows (supply s arg (text "1")) (shortLoop false scope rawArg rest
                      more (supply s arg (text "1"))).state := grows_shortLoop rawArg more
                  exact (supply_records at_ (errors_nil_of_grows kept clean)).trans
                    (ih goesOn clean)
                · rw [if_neg valid] at clean
                  exact absurd (supply_of_no_error clean).1 valid
              · rw [if_neg flag] at goesOn clean ⊢
                have stays : (arg.isFlag && isValidChoice arg (text "1")) ≠ true := by
                  rw [Bool.eq_false_of_not_eq_true flag]
                  rintro ⟨⟩
                rw [if_neg flag, if_neg stays]
                by_cases last : more.isEmpty = true
                · rw [if_pos last] at clean ⊢
                  rw [if_pos last]
                  exact takeNext_records at_ clean
                · rw [if_neg last] at clean ⊢
                  rw [if_neg last]
                  exact supply_records at_ clean

/-- One turn of the loop: the scope is what it was, or has one more level. -/
theorem turn_records (current : Text)
    (goesOn : (turn false scope current rest s).outcome.stop = none)
    (clean : (turn false scope current rest s).outcome.state.parser.errors = []) :
    (∃ more, (turn false scope current rest s).scope = scope ++ more) ∧
      Records scope (resolvedToken scope current rest) s
        (turn false scope current rest s).outcome.state := by
  rw [turn, resolvedToken] at *
  by_cases long : (text "--").isPrefixOf current = true
  · simp only [if_pos long] at goesOn clean ⊢
    exact ⟨⟨[], (List.append_nil _).symm⟩, longOption_records goesOn clean⟩
  simp only [if_neg long] at goesOn clean ⊢
  by_cases short : ((text "-").isPrefixOf current && decide (1 < current.length)) = true
  · simp only [if_pos short] at goesOn clean ⊢
    exact ⟨⟨[], (List.append_nil _).symm⟩, shortLoop_records current _ goesOn clean⟩
  simp only [if_neg short]
  split
  · next sub _ => exact ⟨⟨[sub], rfl⟩, .refl rfl⟩
  · exact ⟨⟨[], (List.append_nil _).symm⟩, .refl rfl⟩

end Turn

/-! ## The loop -/

section Loop

variable {scope : List Command} {args : List Text} {s : ParseState}

theorem resolved_turn {current : Text} {rest : List Text} (some_ : current ≠ [])
    (other : current ≠ text "--")
    (goesOn : (turn false scope current rest s).outcome.stop = none) :
    resolved scope (current :: rest) s =
      resolvedToken scope current rest ++ resolved (turn false scope current rest s).scope
        (behind (turn false scope current rest s).outcome rest)
        (turn false scope current rest s).outcome.state := by
  rw [resolved, if_neg some_, if_neg other]
  simp only [behind, goesOn]
  cases (turn false scope current rest s).outcome.took with
  | false => rfl
  | true => cases rest <;> rfl

/-- A parse that ends without an error has recorded the names of the places that its tokens are
resolved to, and no others. -/
theorem parseLoop_records (goesOn : (parseLoop false scope args s).stop = none)
    (clean : (parseLoop false scope args s).state.parser.errors = []) :
    (∃ more, (parseLoop false scope args s).scope = scope ++ more) ∧
      Records (parseLoop false scope args s).scope (resolved scope args s) s
        (parseLoop false scope args s).state := by
  induction scope, args, s using parseLoop_induction with
  | nil scope s => exact ⟨⟨[], (List.append_nil _).symm⟩, .refl rfl⟩
  | empty scope rest s ih =>
      rw [parseLoop, if_pos rfl] at goesOn clean ⊢
      rw [resolved, if_pos rfl]
      exact ih goesOn clean
  | separator scope rest s =>
      have some_ : text "--" ≠ [] := by decide
      rw [parseLoop, if_neg some_, if_pos rfl, resolved, if_neg some_, if_pos rfl, keepAll_false]
      exact ⟨⟨[], (List.append_nil _).symm⟩, .refl rfl⟩
  | turn scope current rest s some_ other ih =>
      rw [parseLoop_turn some_ other] at goesOn clean ⊢
      cases stop : (turn false scope current rest s).outcome.stop with
      | some status =>
          simp only [stop] at goesOn
          cases goesOn
      | none =>
          simp only [stop] at goesOn clean ⊢
          obtain ⟨⟨sub, descends⟩, token⟩ := turn_records current stop
            (errors_nil_of_grows grows_parseLoop clean)
          obtain ⟨⟨more, path⟩, later⟩ := ih _ _ _ (length_behind_le _ _) goesOn clean
          rw [resolved_turn some_ other stop]
          rw [path, descends, List.append_assoc] at later ⊢
          exact ⟨⟨_, rfl⟩, (token.append _).trans later⟩

/-- A parse cannot descend from a command without subcommands. -/
theorem parseLoop_leaf {root : Command} (leaf : root.subcommands = []) :
    (parseLoop false [root] args s).scope = [root] := by
  generalize same : [root] = scope
  induction scope, args, s using parseLoop_induction with
  | nil scope s => rfl
  | empty scope rest s ih =>
      rw [parseLoop, if_pos rfl]
      exact ih same
  | separator scope rest s => rw [parseLoop, if_neg (by decide), if_pos rfl]
  | turn scope current rest s some_ other ih =>
      have stays : (turn false scope current rest s).scope = scope := by
        rw [turn]
        split
        · rfl
        split
        · rfl
        have none_ : scope.getLast?.bind (·.findSubcommand current) = none := by
          rw [← same]
          change root.subcommands.find? _ = none
          rw [leaf]
          rfl
        rw [none_]
      rw [parseLoop_turn some_ other]
      cases stop : (turn false scope current rest s).outcome.stop with
      | some status => simpa only [stop] using stays
      | none =>
          simp only [stop, stays]
          exact ih _ _ _ (length_behind_le _ _) same

end Loop

/-! ## Required arguments -/

/-- The commands that the arguments of a full parse select. -/
def selectedPath (root : Command) (input : Input) (found : Matches) : List Command :=
  (parseLoop false [root] input.args.tail ⟨{}, found, none⟩).scope

/-- What the arguments of a full parse are resolved to. -/
def resolvedTokens (root : Command) (input : Input) (found : Matches) : List Resolution :=
  resolved [root] input.args.tail ⟨{}, found, none⟩

/-- A token is resolved to the argument at the place. -/
def Given (tokens : List Resolution) (site : Site) : Prop := ∃ token ∈ tokens, token.site = site

/-- For each command of the path, a token is resolved to each of its required arguments. -/
def AllGiven (path : List Command) (tokens : List Resolution) : Prop :=
  ∀ (site : Site) (arg : Argument), site.arg path = some arg → arg.isRequired = true →
    Given tokens site

/-- Something else puts the name of an argument into the matches: they have had it before, or a
token is resolved to another argument of that name. -/
def StandIn (path : List Command) (tokens : List Resolution) (found : Matches) (site : Site)
    (name : Text) : Prop :=
  found.has name = true ∨ ∃ token ∈ tokens, token.site ≠ site ∧ token.site.nameIn path = some name

/-- The required arguments that something stands in for are given themselves. -/
def NoneCovered (path : List Command) (tokens : List Resolution) (found : Matches) : Prop :=
  ∀ (site : Site) (arg : Argument), site.arg path = some arg → arg.isRequired = true →
    StandIn path tokens found site arg.name → Given tokens site

section Required

variable {root : Command} {p : Parser} {input : Input} {found : Matches}

/-- What passes the check has the names of its required arguments. -/
theorem has_of_checkRequired {scope : List Command} {s : ParseState} {arg : Argument}
    (clean : (checkRequired scope s).parser.errors = [])
    (there : arg ∈ scope.flatMap (·.args)) (required : arg.isRequired = true) :
    s.found.has arg.name = true := by
  rw [checkRequired_eq] at clean
  have none_ := List.map_eq_nil_iff.mp (List.append_eq_nil_iff.mp clean).2
  have passes := List.filter_eq_nil_iff.mp none_ arg there
  simpa [required] using passes

/-- What a parse that succeeds has recorded. -/
theorem parse_records
    (success : (parse root p input (some found)).status = .success) :
    ∃ s : ParseState, (parse root p input (some found)).found = some s.found ∧
      Records (selectedPath root input found) (resolvedTokens root input found)
        ⟨{}, found, none⟩ s ∧
      ∀ arg ∈ (selectedPath root input found).flatMap (·.args), arg.isRequired = true →
        s.found.has arg.name = true := by
  rw [parse] at success ⊢
  have parsed := parseInput_of_success success
  rw [parsed] at success ⊢
  obtain ⟨stop, clean⟩ := parseArgs_success success
  have records := (parseLoop_records stop
    (errors_nil_of_grows (grows_checkRequired _ _) clean)).2
  refine ⟨_, ?_, records, fun arg there required => has_of_checkRequired clean there required⟩
  simp only [parseArgs, stop, found_checkRequired]

/-- For every command tree and all arguments on which `parse` succeeds: every required argument of
the selected path is given, if and only if those that something could stand in for are. -/
theorem required_given_iff (success : (parse root p input (some found)).status = .success) :
    AllGiven (selectedPath root input found) (resolvedTokens root input found) ↔
      NoneCovered (selectedPath root input found) (resolvedTokens root input found) found := by
  constructor
  · intro given site arg at_ required _
    exact given site arg at_ required
  · intro uncovered site arg at_ required
    obtain ⟨s, -, records, checked⟩ := parse_records success
    have there := checked arg (Site.mem_of_arg at_) required
    rcases (records.has_iff arg.name).mp there with before | ⟨token, member, named⟩
    · exact uncovered site arg at_ required (.inl before)
    · by_cases same : token.site = site
      · exact ⟨token, member, same⟩
      · exact uncovered site arg at_ required (.inr ⟨token, member, same, named⟩)

/-- Nothing stands in for required arguments whose names no other argument of the path has, when
the matches are new. -/
theorem noneCovered_of_alone {path : List Command} {tokens : List Resolution}
    (alone : ∀ (site other : Site) (arg : Argument), site.arg path = some arg →
      arg.isRequired = true → other.nameIn path = some arg.name → other = site) :
    NoneCovered path tokens {} := by
  intro site arg at_ required standIn
  rcases standIn with before | ⟨token, -, other, named⟩
  · cases before
  · exact absurd (alone site token.site arg at_ required named) other

end Required

/-- A command with a required option, and a subcommand with another one. -/
def outTool : Command where
  name := text "tool"
  args := [{ longName := text "out", isRequired := true }]
  subcommands := [{
    name := text "run"
    args := [{ longName := text "level", shortName := some (char 'l'), isRequired := true }] }]

/-- The options of both levels have been given. -/
theorem required_given_iff_levels :
    let input : Input := .span [text "tool", text "--out", text "a", text "run", text "-l1"]
    AllGiven (selectedPath outTool input {}) (resolvedTokens outTool input {}) := by
  intro input
  have success : (parse outTool {} input (some {})).status = .success := by decide +kernel
  have path : (selectedPath outTool input {}).map (·.args) =
      [[{ longName := text "out", isRequired := true }],
        [{ longName := text "level", shortName := some (char 'l'), isRequired := true }]] := by
    decide +kernel
  refine (required_given_iff success).mpr (noneCovered_of_alone ?_)
  rintro ⟨level, index⟩ ⟨level', index'⟩ arg at_ - named
  rw [Site.nameIn, Site.arg_eq, path] at named
  rw [Site.arg_eq, path] at at_
  rcases level with _ | _ | level <;> rcases index with _ | index <;> simp at at_ <;> subst at_ <;>
    rcases level' with _ | _ | level' <;> rcases index' with _ | index' <;>
      simp [Argument.name, text] at named ⊢

/-- Required options `-a` and `-b` without long names. -/
def shortTool : Command where
  name := text "tool"
  args := [{ shortName := some (char 'a'), isRequired := true },
    { shortName := some (char 'b'), isRequired := true }]

/-- With `-a` alone the parse succeeds: both options have the empty name. -/
theorem not_all_given_short :
    let input : Input := .span [text "tool", text "-a", text "1"]
    (parse shortTool {} input (some {})).status = .success ∧
      ¬ AllGiven (selectedPath shortTool input {}) (resolvedTokens shortTool input {}) := by
  intro input
  refine ⟨by decide +kernel, fun given => ?_⟩
  have tokens : resolvedTokens shortTool input {} = [⟨⟨0, 0⟩, text "1"⟩] := by decide +kernel
  have second := given ⟨0, 1⟩ { shortName := some (char 'b'), isRequired := true }
    (by decide +kernel) rfl
  obtain ⟨token, member, second⟩ := second
  rw [tokens, List.mem_singleton] at member
  subst member
  cases second

end Fpag.Arg
