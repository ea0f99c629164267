import Fpag.Arg.Spellings
import Fpag.Arg.RequiredGiven

/-!
A command line, and the arguments that stand for it.

`Item` is what a user may mean by an argument or two: a flag, an option with a value, a bundle of
short options, the name of a subcommand or a positional. `Item.render` writes it down, and
`Item.Says` is what it says in a scope: which argument of which level an option belongs to is
`KnownAs`, by the levels alone and not by the search of the parser. `Means` puts a line together,
along the subcommands that it selects. `parse_line` says that a parser reads of a line that is
written down what the line means, and complains of nothing but the required arguments under whose
names it records no value.
-/

namespace Fpag.Arg

/-! ## Lines -/

/-- How a short option with a value is written: `-cv`, or `-c` and `v`. -/
structure Valued : Type where
  letter : UInt8
  attached : Bool
  value : Text

/-- One thing that a user says with an argument or two. -/
inductive Item : Type
  /-- An empty argument. -/
  | blank
  /-- `--key` -/
  | flag (key : Text)
  /-- `--key=value`, or `--key` and `value` -/
  | option (key : Text) (joined : Bool) (value : Text)
  /-- `-abc`, where the last one may have a value -/
  | bundle (flags : Text) (last : Option Valued)
  | subcommand (name : Text)
  | positional (arg : Text)

/-- The letters of a bundle, with an attached value. -/
def Valued.letters (valued : Valued) : Text :=
  valued.letter :: if valued.attached then valued.value else []

/-- The arguments that an item is written as. -/
def Item.render : Item → List Text
  | .blank => [[]]
  | .flag key => [text "--" ++ key]
  | .option key true value => [text "--" ++ (key ++ char '=' :: value)]
  | .option key false value => [text "--" ++ key, value]
  | .bundle flags none => [char '-' :: flags]
  | .bundle flags (some last) =>
      (char '-' :: (flags ++ last.letters)) :: if last.attached then [] else [last.value]
  | .subcommand name => [name]
  | .positional arg => [arg]

/-- The arguments of a line, with those behind the separator, if there is one. -/
def render (line : List Item) (behind : Option (List Text)) : List Text :=
  line.flatMap Item.render ++
    match behind with
    | none => []
    | some args => text "--" :: args

/-! ## What a line says -/

/-- The innermost level of a scope that knows an option knows it as `arg`, and no level inside that
one has builtins that the option is one of. -/
inductive KnownAs (own : Command → Option Argument) (builtin : Prop) :
    List Command → Argument → Prop
  | here {outer : List Command} {level : Command} {arg : Argument} (its : own level = some arg) :
      KnownAs own builtin (outer ++ [level]) arg
  | outside {outer : List Command} {level : Command} {arg : Argument} (other : own level = none)
      (plain : level.builtinEnabled = true → ¬ builtin) (known : KnownAs own builtin outer arg) :
      KnownAs own builtin (outer ++ [level]) arg

/-- A long option of a scope. -/
def LongKnown (scope : List Command) (key : Text) : Argument → Prop :=
  KnownAs (·.findArgByLong key) (key = text "help" ∨ key = text "version") scope

/-- A long option of a scope that is written with its value, which no builtin is. -/
def JoinedKnown (scope : List Command) (key : Text) : Argument → Prop :=
  KnownAs (·.findArgByLong key) False scope

/-- A short option of a scope. -/
def ShortKnown (scope : List Command) (c : UInt8) : Argument → Prop :=
  KnownAs (·.findArgByShort c) (c = char 'h' ∨ c = char 'v') scope

/-- An argument has no choices, or this one. -/
def Argument.Admits (arg : Argument) (value : Text) : Prop := arg.choices = [] ∨ value ∈ arg.choices

/-- The letters of a bundle are flags of these names. -/
inductive FlagsSay (scope : List Command) : Text → List (Text × Text) → Prop
  | nil : FlagsSay scope [] []
  | cons {c : UInt8} {cs : Text} {arg : Argument} {values : List (Text × Text)}
      (known : ShortKnown scope c arg) (isFlag : arg.isFlag = true) (admits : arg.Admits (text "1"))
      (others : FlagsSay scope cs values) :
      FlagsSay scope (c :: cs) ((arg.name, text "1") :: values)

/-- What the option with a value at the end of a bundle adds. -/
inductive LastSays (scope : List Command) : Option Valued → List (Text × Text) → Prop
  | none : LastSays scope none []
  | some {last : Valued} {arg : Argument} (known : ShortKnown scope last.letter arg)
      (takes : arg.isFlag = false) (given : last.value ≠ []) (admits : arg.Admits last.value) :
      LastSays scope (some last) [(arg.name, last.value)]

/-- An argument that is no option. -/
def Plain (arg : Text) : Prop := arg ≠ [] ∧ (arg.head? ≠ some (char '-') ∨ arg = text "-")

/-- What an item adds to the matches in a scope, and the subcommand that it selects. -/
inductive Item.Says (scope : List Command) : Item → Matches → Option Command → Prop
  | blank : Says scope .blank {} none
  | flag {key : Text} {arg : Argument} (some : key ≠ []) (plain : char '=' ∉ key)
      (known : LongKnown scope key arg) (isFlag : arg.isFlag = true)
      (admits : arg.Admits (text "1")) :
      Says scope (.flag key) { values := [(arg.name, text "1")] } none
  | joined {key value : Text} {arg : Argument} (plain : char '=' ∉ key)
      (known : JoinedKnown scope key arg) (takes : arg.isFlag = false) (admits : arg.Admits value) :
      Says scope (.option key true value) { values := [(arg.name, value)] } none
  | apart {key value : Text} {arg : Argument} (some : key ≠ []) (plain : char '=' ∉ key)
      (known : LongKnown scope key arg) (takes : arg.isFlag = false) (given : value ≠ [])
      (admits : arg.Admits value) :
      Says scope (.option key false value) { values := [(arg.name, value)] } none
  | bundle {flags : Text} {last : Option Valued} {values values' : List (Text × Text)}
      (first : (flags ++ last.toList.map Valued.letter).head?.any (· ≠ char '-'))
      (all : FlagsSay scope flags values) (ends : LastSays scope last values') :
      Says scope (.bundle flags last) { values := values ++ values' } none
  | subcommand {name : Text} {command sub : Command} (plain : Plain name)
      (inner : scope.getLast? = some command) (found : command.findSubcommand name = some sub) :
      Says scope (.subcommand name) { commandPath := [sub.name] } sub
  | positional {arg : Text} {command : Command} (plain : Plain arg)
      (inner : scope.getLast? = some command) (other : command.findSubcommand arg = none) :
      Says scope (.positional arg) { positionals := [arg] } none

/-- What was found, and then more. -/
def Matches.append (found more : Matches) : Matches where
  values := found.values ++ more.values
  positionals := found.positionals ++ more.positionals
  commandPath := found.commandPath ++ more.commandPath

/-- A line adds what its items do, each in the scope that those in front of it select. -/
inductive Means : List Command → List Item → Matches → List Command → Prop
  | nil {scope : List Command} : Means scope [] {} scope
  | cons {scope scope' : List Command} {item : Item} {line : List Item} {found more : Matches}
      {sub : Option Command} (first : item.Says scope found sub)
      (rest : Means (scope ++ sub.toList) line more scope') :
      Means scope (item :: line) (found.append more) scope'

/-! ## The search -/

section Search

variable {own : Command → Option Argument} {scope : List Command} {arg : Argument}

/-- The search over the levels comes to the level that knows the option. -/
theorem findOption_of_known {builtin : Prop} {isHelp isVersion : Bool}
    (help : isHelp = true → builtin) (version : isVersion = true → builtin)
    (known : KnownAs own builtin scope arg) :
    findOption own isHelp isVersion scope.reverse = some (.arg arg) := by
  induction known with
  | here its => rw [List.reverse_concat, findOption, its]
  | @outside outer level arg other plain known ih =>
      have no {b : Bool} (is : b = true → builtin) : (level.builtinEnabled && b) = false := by
        rw [Bool.and_eq_false_imp]
        intro enabled
        exact (Bool.not_eq_true _).mp fun set => plain enabled (is set)
      rw [List.reverse_concat, findOption, other]
      simp only [no help, no version, Bool.false_eq_true, if_false]
      exact ih

theorem findShort_of_known {c : UInt8} (known : ShortKnown scope c arg) :
    findShort scope c = some (.arg arg) :=
  findOption_of_known (fun is => .inl (beq_iff_eq.mp is)) (fun is => .inr (beq_iff_eq.mp is)) known

theorem findLong_of_known {key : Text} (plain : char '=' ∉ key) (known : LongKnown scope key arg) :
    findLong scope key = some (.arg arg) := by
  rw [findLong, splitEqual_plain plain]
  exact findOption_of_known (fun is => .inl (beq_iff_eq.mp is)) (fun is => .inr (beq_iff_eq.mp is))
    known

theorem findLong_of_joined {key value : Text} (plain : char '=' ∉ key)
    (known : JoinedKnown scope key arg) :
    findLong scope (key ++ char '=' :: value) = some (.arg arg) := by
  have other (word : Text) (none_ : char '=' ∉ word) :
      (key ++ char '=' :: value == word) = true → False := by
    intro same
    rw [← beq_iff_eq.mp same] at none_
    exact none_ (List.mem_append_right _ List.mem_cons_self)
  rw [findLong, splitEqual_value plain]
  exact findOption_of_known (other _ (by decide)) (other _ (by decide)) known

theorem isValidChoice_of_admits {value : Text} (admits : arg.Admits value) :
    isValidChoice arg value = true := by
  rw [isValidChoice, Bool.or_eq_true, List.isEmpty_iff, List.any_eq_true]
  exact admits.imp_right fun member => ⟨value, member, beq_self_eq_true _⟩

end Search

/-! ## The loop -/

/-- The matches have more in them. -/
def ParseState.gain (s : ParseState) (more : Matches) : ParseState :=
  { s with found := s.found.append more }

section Loop

variable {scope : List Command} {arg : Argument} {s : ParseState} {rest : List Text}

theorem gain_nil (s : ParseState) : s.gain {} = s := by
  simp only [ParseState.gain, Matches.append, List.append_nil]

theorem gain_gain (s : ParseState) (found more : Matches) :
    (s.gain found).gain more = s.gain (found.append more) := by
  simp only [ParseState.gain, Matches.append, List.append_assoc]

theorem supply_of_admits {value : Text} (admits : arg.Admits value) :
    supply s arg value = s.gain { values := [(arg.name, value)] } := by
  rw [supply, if_pos (isValidChoice_of_admits admits), ParseState.gain, Matches.append, Matches.add,
    List.append_nil, List.append_nil]

theorem takeNext_cons {value option : Text} (given : value ≠ []) (admits : arg.Admits value) :
    takeNext s arg option (value :: rest) =
      { state := s.gain { values := [(arg.name, value)] }, took := true } := by
  obtain ⟨c, cs, rfl⟩ := List.exists_cons_of_ne_nil given
  rw [← supply_of_admits admits]
  rfl

/-- A long option that the search finds, by what stands behind its `=`. -/
theorem longOption_found {content key : Text} {value : Option Text}
    (found : findLong scope content = some (.arg arg)) (split : splitEqual content = (key, value)) :
    longOption false scope (text "--" ++ content) rest s =
      match arg.isFlag, value with
      | true, some _ => { state := s.addError .flagTakesNoValue (text "--" ++ key) }
      | true, none => { state := supply s arg (text "1") }
      | false, some value => { state := supply s arg value }
      | false, none => takeNext s arg (text "--" ++ key) rest := by
  have content_eq : (text "--" ++ content).drop 2 = content := rfl
  simp only [longOption, content_eq, found, split]
  cases arg.isFlag <;> cases value <;> rfl

/-- The flags of a bundle, in front of what is left of it. -/
theorem shortLoop_flags {flags more : Text} {values : List (Text × Text)} {rawArg : Text}
    (all : FlagsSay scope flags values) : shortLoop false scope rawArg rest (flags ++ more) s =
      shortLoop false scope rawArg rest more (s.gain { values := values }) := by
  induction all generalizing s with
  | nil => rw [List.nil_append, show ({ values := [] } : Matches) = {} from rfl, gain_nil]
  | cons known isFlag admits others ih =>
      rw [List.cons_append, shortLoop, findShort_of_known known]
      simp only [isFlag, if_true, isValidChoice_of_admits admits]
      rw [supply_of_admits admits, ih, gain_gain]
      rfl

/-- The end of a bundle, with what follows it. -/
theorem shortLoop_last (rest : List Text) (s : ParseState) (rawArg : Text) {last : Option Valued}
    {values : List (Text × Text)} (ends : LastSays scope last values) : ∃ took,
      shortLoop false scope rawArg ((last.toList.filter (!·.attached)).map Valued.value ++ rest)
          (last.toList.flatMap Valued.letters) s =
        { state := s.gain { values := values }, took := took } ∧
      behind { state := s, took := took }
        ((last.toList.filter (!·.attached)).map Valued.value ++ rest) = rest := by
  cases ends with
  | none =>
      refine ⟨false, ?_, rfl⟩
      rw [show ({ values := [] } : Matches) = {} from rfl, gain_nil]
      rfl
  | @some last arg known takes given admits =>
      obtain ⟨letter, attached, value⟩ := last
      cases attached with
      | true =>
          refine ⟨false, ?_, rfl⟩
          simp only [Option.toList_some, List.flatMap_cons, List.flatMap_nil, Valued.letters,
            if_true, List.append_nil]
          rw [shortLoop, findShort_of_known known]
          simp only [takes, Bool.false_eq_true, if_false]
          rw [if_neg (by simpa using given), supply_of_admits admits]
      | false =>
          refine ⟨true, ?_, rfl⟩
          change shortLoop false scope rawArg (value :: rest) [letter] s = _
          rw [shortLoop, findShort_of_known known]
          simp only [takes, Bool.false_eq_true, if_false, List.isEmpty_nil, if_true]
          exact takeNext_cons given admits

/-- The turn of an argument that is no option. -/
theorem turn_plain {current : Text} {command : Command} (plain : Plain current)
    (inner : scope.getLast? = some command) : turn false scope current rest s =
      match command.findSubcommand current with
      | some sub =>
          ⟨scope ++ [sub], { state := { s with found := s.found.selectSubcommand sub.name } }⟩
      | none => ⟨scope, { state := s.keep false current }⟩ := by
  have long : ¬ (text "--").isPrefixOf current = true := by
    intro starts
    obtain ⟨more, rfl⟩ := List.isPrefixOf_iff_prefix.mp starts
    rcases plain.2 with other | single
    · exact other rfl
    · cases single
  have short : ¬ ((text "-").isPrefixOf current && decide (1 < current.length)) = true := by
    rw [Bool.and_eq_true]
    rintro ⟨starts, longer⟩
    obtain ⟨more, rfl⟩ := List.isPrefixOf_iff_prefix.mp starts
    rcases plain.2 with other | single
    · exact other rfl
    · rw [single] at longer
      exact absurd longer (by decide)
  rw [turn, if_neg long, if_neg short, inner]
  rfl

theorem parseLoop_plain {current : Text} {command : Command} (plain : Plain current)
    (inner : scope.getLast? = some command) : parseLoop false scope (current :: rest) s =
      match command.findSubcommand current with
      | some sub => parseLoop false (scope ++ [sub]) rest (s.gain { commandPath := [sub.name] })
      | none => parseLoop false scope rest (s.gain { positionals := [current] }) := by
  have other : current ≠ text "--" := by
    rintro rfl
    rcases plain.2 with other | single
    · exact other rfl
    · cases single
  rw [parseLoop_turn plain.1 other, turn_plain plain inner]
  cases command.findSubcommand current with
  | some sub =>
      simp only [behind, ParseState.gain, Matches.append, Matches.selectSubcommand, List.append_nil,
        Bool.false_eq_true, if_false]
  | none =>
      simp only [behind, ParseState.gain, Matches.append, ParseState.keep, Matches.addPositional,
        List.append_nil, Bool.false_eq_true, if_false]

end Loop

/-! ## What the parser reads of a line -/

/-- The loop behind an item, whatever follows it. -/
theorem parseLoop_item {scope : List Command} {item : Item} {found : Matches}
    {sub : Option Command} (first : item.Says scope found sub) (rest : List Text) (s : ParseState) :
    parseLoop false scope (item.render ++ rest) s =
      parseLoop false (scope ++ sub.toList) rest (s.gain found) := by
  cases first with
  | blank =>
      rw [Item.render, List.singleton_append, parseLoop, if_pos rfl, gain_nil, Option.toList_none,
        List.append_nil]
  | flag some_ plain known isFlag admits =>
      rw [Item.render, List.singleton_append, parseLoop_long some_,
        longOption_found (findLong_of_known plain known) (splitEqual_plain plain), isFlag]
      simp only [goOn, behind, supply_of_admits admits, Option.toList_none, List.append_nil,
        Bool.false_eq_true, if_false]
  | joined plain known takes admits =>
      rw [Item.render, List.singleton_append, parseLoop_long (by simp),
        longOption_found (findLong_of_joined plain known) (splitEqual_value plain _), takes]
      simp only [goOn, behind, supply_of_admits admits, Option.toList_none, List.append_nil,
        Bool.false_eq_true, if_false]
  | apart some_ plain known takes given admits =>
      rw [Item.render, List.cons_append, List.singleton_append, parseLoop_long some_,
        longOption_found (findLong_of_known plain known) (splitEqual_plain plain), takes]
      simp only [goOn, behind, takeNext_cons given admits, Option.toList_none, List.append_nil,
        if_true, List.tail_cons]
  | @bundle flags last values values' letter all ends =>
      have written : Item.render (.bundle flags last) =
          (char '-' :: (flags ++ last.toList.flatMap Valued.letters)) ::
            (last.toList.filter (!·.attached)).map Valued.value := by
        cases last with
        | none => simp [Item.render]
        | some last => cases h : last.attached <;> simp [Item.render, h]
      obtain ⟨c, cs, same, other⟩ : ∃ c cs,
          flags ++ last.toList.flatMap Valued.letters = c :: cs ∧ c ≠ char '-' := by
        cases flags with
        | cons c flags => exact ⟨c, _, rfl, by simpa using letter⟩
        | nil =>
            cases last with
            | none => cases letter
            | some last => exact ⟨last.letter, _, rfl, by simpa using letter⟩
      obtain ⟨took, run, rest_⟩ :=
        shortLoop_last rest (s.gain { values := values }) (char '-' :: c :: cs) ends
      rw [written, List.cons_append, same, parseLoop_short other, ← same, shortLoop_flags all, same,
        run]
      simp only [goOn, gain_gain, Option.toList_none, List.append_nil]
      exact congrFun (congrArg _ rest_) _
  | subcommand plain inner found =>
      rw [Item.render, List.singleton_append, parseLoop_plain plain inner, found]
      rfl
  | positional plain inner other =>
      rw [Item.render, List.singleton_append, parseLoop_plain plain inner, other,
        Option.toList_none, List.append_nil]

/-- The loop behind a whole line. -/
theorem parseLoop_line {scope scope' : List Command} {line : List Item} {found : Matches}
    (means : Means scope line found scope') (rest : List Text) (s : ParseState) :
    parseLoop false scope (line.flatMap Item.render ++ rest) s =
      parseLoop false scope' rest (s.gain found) := by
  induction means generalizing s with
  | nil => rw [List.flatMap_nil, List.nil_append, gain_nil]
  | cons first line ih =>
      rw [List.flatMap_cons, List.append_assoc, parseLoop_item first, ih, gain_gain]

/-- What a line finds, with the positionals behind its separator. -/
def lineMatches (found : Matches) (behind : Option (List Text)) : Matches :=
  { found with positionals := found.positionals ++ (behind.getD []).filter (· ≠ []) }

/-- A parse of a program's name and arguments comes to its loop. -/
theorem parse_entered {root : Command} {p : Parser} {program : Text} {args : List Text}
    {input : Input} (given : input.args = program :: args) :
    parse root p input (some {}) = parseArgs root false (program :: args) {} none := by
  cases input with
  | span args =>
      cases given
      rfl
  | argv argc argv =>
      have pos : ¬ argc ≤ 0 := by
        intro none_
        rw [Input.args, getFromArgv, Int.toNat_of_nonpos none_] at given
        cases given
      rw [Input.args] at given
      simp only [parse, parseInput, if_neg pos, parseImpl, given]

/-- For every command tree and every line that means something in it, however its options are
written: a parser, whatever it was used for before, reads what the line means. It is a success if
a value is recorded under the name of every required argument, and otherwise there is one error for
each whose name has none. -/
theorem parse_line {root : Command} {scope : List Command} {line : List Item} {found : Matches}
    (means : Means [root] line found scope) (behind : Option (List Text)) (p : Parser)
    (program : Text) {input : Input} (given : input.args = program :: render line behind) :
    parse root p input (some {}) =
      let left := missing scope (lineMatches found behind)
      { status := if left = [] then .success else .error
        parser := { errors := left.map leftOut }
        found := some (lineMatches found behind)
        unparsed := none } := by
  have loop : parseLoop false [root] (render line behind) {} =
      ⟨scope, { found := lineMatches found behind }, none⟩ := by
    unfold render
    rw [parseLoop_line means]
    cases behind with
    | none => simp [parseLoop, ParseState.gain, Matches.append, lineMatches]
    | some args =>
        rw [parseLoop, if_neg (by decide), if_pos rfl, keepAll_false]
        simp [ParseState.gain, Matches.append, lineMatches]
  rw [parse_entered given, parseArgs, List.tail_cons, loop]
  simp only [checkRequired_eq, List.nil_append, List.isEmpty_iff, List.map_eq_nil_iff]

/-- The option `--level` or `-l`, which has to be given. -/
def requiredLevel : Argument := { levelOption with isRequired := true }

/-- A command with this option, two flags and a subcommand. -/
def lineTool : Command :=
  { name := text "tool"
    args := [requiredLevel, { shortName := some (char 'a'), isFlag := true },
      { longName := text "all", shortName := some (char 'b'), isFlag := true }]
    subcommands := [{ name := text "run" }] }

/-- An option of the outer level behind the name of the subcommand, a bundle whose last option takes
the next argument, and positionals on both sides of the separator. -/
theorem parse_line_lineTool :
    parse lineTool {} (.span [text "tool", text "run", text "--level=-4", [], text "-abl",
        text "--", text "x", text "--", text "--all", []]) (some {}) =
      { status := .success
        parser := {}
        found := some {
          values := [(text "level", text "-4"), ([], text "1"), (text "all", text "1"),
            (text "level", text "--")]
          positionals := [text "x", text "--all"]
          commandPath := [text "run"] }
        unparsed := none } := by
  have level : KnownAs (·.findArgByLong (text "level")) False
      ([lineTool] ++ [{ name := text "run" }])
      requiredLevel := .outside rfl (fun _ => id) (@KnownAs.here _ _ [] _ _ rfl)
  have short (c : UInt8) (arg : Argument) (letter : ¬ (c = char 'h' ∨ c = char 'v'))
      (its : lineTool.findArgByShort c = some arg) :
      ShortKnown ([lineTool] ++ [{ name := text "run" }]) c arg :=
    .outside rfl (fun _ => letter) (@KnownAs.here _ _ [] _ _ its)
  have means : Means [lineTool] [.subcommand (text "run"), .option (text "level") true (text "-4"),
      .blank, .bundle (text "ab") (some ⟨char 'l', false, text "--"⟩),
        .positional (text "x")] _ _ :=
    .cons (.subcommand ⟨by decide, .inl (by decide)⟩ rfl rfl) (.cons
      (.joined (by decide) level rfl (.inl rfl)) (.cons .blank (.cons
        (.bundle rfl
          (.cons (short _ _ (by decide) rfl) rfl (.inl rfl)
            (.cons (short _ _ (by decide) rfl) rfl (.inl rfl) .nil))
          (.some (short _ _ (by decide) rfl) rfl (by decide) (.inl rfl)))
        (.cons (.positional ⟨by decide, .inl (by decide)⟩ rfl rfl) .nil))))
  exact parse_line means (some [text "--all", []]) {} (text "tool") rfl

/-! ## Requests -/

/-- What the parser answers by itself. -/
inductive Builtin : Type
  | help
  | version

namespace Builtin

def word : Builtin → Text
  | help => text "help"
  | version => text "version"

def letter : Builtin → UInt8
  | help => char 'h'
  | version => char 'v'

def status : Builtin → ParseStatus
  | help => .helpRequested
  | version => .versionRequested

/-- The level that the parser keeps for its help message. -/
def level (asked : Command) : Builtin → Option Command
  | help => some asked
  | version => none

end Builtin

/-- The innermost level of a scope whose builtins are enabled; no level up to it has an argument of
its own for the option. -/
inductive Asked (own : Command → Option Argument) : List Command → Command → Prop
  | here {outer : List Command} {level : Command} (other : own level = none)
      (enabled : level.builtinEnabled = true) : Asked own (outer ++ [level]) level
  | outside {outer : List Command} {level asked : Command} (other : own level = none)
      (disabled : level.builtinEnabled = false) (asks : Asked own outer asked) :
      Asked own (outer ++ [level]) asked

/-- An argument that asks for a builtin in a scope: `--help`, or a bundle of flags and `h`. -/
inductive Asks (scope : List Command) (builtin : Builtin) : Text → List (Text × Text) → Command →
    Prop
  | long {asked : Command} (asks : Asked (·.findArgByLong builtin.word) scope asked) :
      Asks scope builtin (text "--" ++ builtin.word) [] asked
  | short {flags more : Text} {values : List (Text × Text)} {asked : Command}
      (first : flags.head? ≠ some (char '-')) (all : FlagsSay scope flags values)
      (asks : Asked (·.findArgByShort builtin.letter) scope asked) :
      Asks scope builtin (char '-' :: (flags ++ builtin.letter :: more)) values asked

theorem findOption_of_asked {own : Command → Option Argument} {scope : List Command}
    {asked : Command} {isHelp isVersion : Bool} (one : (isHelp || isVersion) = true)
    (asks : Asked own scope asked) : findOption own isHelp isVersion scope.reverse =
      some (if isHelp then .help asked else .version) := by
  induction asks with
  | here other enabled =>
      rw [List.reverse_concat, findOption, other]
      cases isHelp with
      | true => simp only [enabled, Bool.and_self, if_true]
      | false =>
          rw [Bool.false_or] at one
          simp [enabled, one]
  | outside other disabled asks ih =>
      rw [List.reverse_concat, findOption, other]
      simp only [disabled, Bool.false_and, Bool.false_eq_true, if_false]
      exact ih

/-- The outcome of a request. -/
def Builtin.request (s : ParseState) (asked : Command) : Builtin → Outcome
  | .help => requestHelp s asked
  | .version => requestVersion s

theorem parseLoop_asks {scope : List Command} {builtin : Builtin} {arg : Text}
    {values : List (Text × Text)} {asked : Command} (asks : Asks scope builtin arg values asked)
    (rest : List Text) (s : ParseState) : parseLoop false scope (arg :: rest) s =
      ⟨scope, (builtin.request (s.gain { values := values }) asked).state,
        some builtin.status⟩ := by
  cases asks with
  | long asks =>
      have found : findLong scope builtin.word =
          some (if builtin.word == text "help" then .help asked else .version) := by
        have plain : char '=' ∉ builtin.word := by cases builtin <;> decide
        rw [findLong, splitEqual_plain plain]
        exact findOption_of_asked (by cases builtin <;> rfl) asks
      rw [parseLoop_long (by cases builtin <;> decide), longOption]
      have content_eq : (text "--" ++ builtin.word).drop 2 = builtin.word := rfl
      rw [content_eq, found, show ({ values := [] } : Matches) = {} from rfl, gain_nil]
      cases builtin <;> rfl
  | @short flags more values asked first all asks =>
      have found : findShort scope builtin.letter =
          some (if builtin.letter == char 'h' then .help asked else .version) :=
        findOption_of_asked (by cases builtin <;> rfl) asks
      obtain ⟨c, cs, same, other⟩ : ∃ c cs,
          flags ++ builtin.letter :: more = c :: cs ∧ c ≠ char '-' := by
        cases flags with
        | cons c flags =>
            exact ⟨c, _, rfl, fun hyphen => first (congrArg some hyphen)⟩
        | nil => exact ⟨_, _, rfl, by cases builtin <;> decide⟩
      rw [same, parseLoop_short other, ← same, shortLoop_flags all, shortLoop, found]
      cases builtin <;> rfl

/-- A request that follows a line is answered, whatever stands behind it: the help is that of the
innermost level with builtins on the path that the line selects, and nothing is complained of. -/
theorem parse_asks {root asked : Command} {scope : List Command} {line : List Item}
    {found : Matches} {builtin : Builtin} {arg : Text} {values : List (Text × Text)}
    (means : Means [root] line found scope) (asks : Asks scope builtin arg values asked)
    (p : Parser) (program : Text) (rest : List Text) {input : Input}
    (given : input.args = program :: (render line none ++ arg :: rest)) :
    parse root p input (some {}) =
      { status := builtin.status
        parser := { helpCommand := builtin.level asked }
        found := some (found.append { values := values })
        unparsed := none } := by
  have loop : parseLoop false [root] (render line none ++ arg :: rest) {} =
      ⟨scope,
        (builtin.request (ParseState.gain {} (found.append { values := values })) asked).state,
        some builtin.status⟩ := by
    unfold render
    rw [List.append_nil, parseLoop_line means, parseLoop_asks asks, gain_gain]
  rw [parse_entered given, parseArgs, List.tail_cons, loop]
  cases builtin <;> rfl

/-- `-ah` behind a subcommand without builtins asks for the help of the command outside. -/
theorem parse_asks_outside :
    parse { lineTool with subcommands := [{ name := text "run", builtinEnabled := false }] } {}
        (.span [text "tool", text "run", text "-ah", text "--oops"]) (some {}) =
      { status := .helpRequested
        parser := { helpCommand := some { lineTool with
          subcommands := [{ name := text "run", builtinEnabled := false }] } }
        found := some { values := [([], text "1")], commandPath := [text "run"] }
        unparsed := none } := by
  have means : Means [{ lineTool with
      subcommands := [{ name := text "run", builtinEnabled := false }] }]
      [.subcommand (text "run")] _ _ :=
    .cons (.subcommand ⟨by decide, .inl (by decide)⟩ rfl rfl) .nil
  have asks : Asks ([{ lineTool with
      subcommands := [{ name := text "run", builtinEnabled := false }] }] ++
        [{ name := text "run", builtinEnabled := false }]) .help
      (char '-' :: ([char 'a'] ++ char 'h' :: [])) _ _ :=
    .short (by decide)
      (.cons (.outside rfl (fun off => nomatch off) (@KnownAs.here _ _ [] _ _ rfl)) rfl (.inl rfl)
        .nil)
      (.outside rfl rfl (@Asked.here _ [] _ rfl rfl))
  exact parse_asks means asks {} (text "tool") [text "--oops"] rfl

end Fpag.Arg
