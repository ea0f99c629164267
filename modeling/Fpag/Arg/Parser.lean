import Fpag.Arg.Command

/-!
`arg::Parser`.

A parse goes once over the arguments behind the first. `ParseState` has what the parse has
written so far: the parser's own errors and help level, and the outputs of the caller. An
option that takes its value from the next argument says so (`took`), and the loop steps over
that argument. The two modes share the loop; they part where something is a positional or is
not known.
-/

namespace Fpag.Arg

/-- `Parser::errors_` and `Parser::help_command_`. -/
structure Parser : Type where
  errors : List ParseError := []
  helpCommand : Option Command := none

/-- What a parse writes to; `unparsed` may be `nullptr`. -/
structure ParseState : Type where
  parser : Parser := {}
  found : Matches := {}
  unparsed : Option (List Text) := none

/-- `Parser::add_error`. -/
def Parser.addError (p : Parser) (code : ErrorCode) (context : Text := []) (value : Text := []) :
    Parser :=
  { p with errors := p.errors ++ [⟨code, context, value⟩] }

namespace ParseState

def addError (s : ParseState) (code : ErrorCode) (context : Text) (value : Text := []) :
    ParseState :=
  { s with parser := s.parser.addError code context value }

def setHelp (s : ParseState) (level : Command) : ParseState :=
  { s with parser := { s.parser with helpCommand := some level } }

/-- An argument goes to `unparsed`. -/
def pushUnparsed (s : ParseState) (arg : Text) : ParseState :=
  { s with unparsed := s.unparsed.map (· ++ [arg]) }

/-- An argument that is no option goes to where the mode collects them. -/
def keep (s : ParseState) (partialMode : Bool) (arg : Text) : ParseState :=
  if partialMode then s.pushUnparsed arg else { s with found := s.found.addPositional arg }

end ParseState

/-- What an option does: it may take the next argument, and it may end the parse. -/
structure Outcome : Type where
  state : ParseState
  took : Bool := false
  stop : Option ParseStatus := none

/-! ## Options -/

/-- `Parser::is_valid_choice`. -/
def isValidChoice (arg : Argument) (value : Text) : Bool :=
  arg.choices.isEmpty || arg.choices.any (· == value)

/-- The value of an argument is recorded, unless it is none of its choices. -/
def supply (s : ParseState) (arg : Argument) (value : Text) : ParseState :=
  if isValidChoice arg value then { s with found := s.found.add arg.name value }
  else s.addError .invalidChoice arg.name value

/-- What an option is found to be. -/
inductive Found : Type
  | arg (arg : Argument)
  | help (level : Command)
  | version

/-- The search over the levels, innermost first: the arguments of a level, then the builtins. -/
def findOption (own : Command → Option Argument) (isHelp isVersion : Bool) :
    List Command → Option Found
  | [] => none
  | level :: outer =>
      match own level with
      | some arg => some (.arg arg)
      | none =>
          if level.builtinEnabled && isHelp then some (.help level)
          else if level.builtinEnabled && isVersion then some .version
          else findOption own isHelp isVersion outer

/-- The text in front of the first `=`, and the one behind it. -/
def splitEqual (content : Text) : Text × Option Text :=
  match content.idxOf? (char '=') with
  | some pos => (content.take pos, some (content.drop (pos + 1)))
  | none => (content, none)

/-- The search of `Parser::long_option`. -/
def findLong (scope : List Command) (content : Text) : Option Found :=
  findOption (·.findArgByLong (splitEqual content).1) (content == text "help")
    (content == text "version") scope.reverse

/-- The search of `Parser::short_options`. -/
def findShort (scope : List Command) (c : UInt8) : Option Found :=
  findOption (·.findArgByShort c) (c == char 'h') (c == char 'v') scope.reverse

/-- An option that needs a value takes the next argument, if that is not empty. -/
def takeNext (s : ParseState) (arg : Argument) (option : Text) (rest : List Text) : Outcome :=
  match rest.headD [] with
  | [] => { state := s.addError .missingValueForOption option }
  | next => { state := supply s arg next, took := true }

/-- The request of a builtin. -/
def requestHelp (s : ParseState) (level : Command) : Outcome :=
  { state := s.setHelp level, stop := some .helpRequested }

def requestVersion (s : ParseState) : Outcome :=
  { state := s, stop := some .versionRequested }

/-- An option that no level knows. -/
def unknown (partialMode : Bool) (s : ParseState) (rawArg : Text) (code : ErrorCode)
    (context : Text) : Outcome :=
  { state := if partialMode then s.pushUnparsed rawArg else s.addError code context }

/-- `Parser::long_option`. -/
def longOption (partialMode : Bool) (scope : List Command) (rawArg : Text) (rest : List Text)
    (s : ParseState) : Outcome :=
  let content := rawArg.drop 2
  let key := (splitEqual content).1
  match findLong scope content with
  | some (.arg arg) =>
      match arg.isFlag, (splitEqual content).2 with
      | true, some _ => { state := s.addError .flagTakesNoValue (text "--" ++ key) }
      | true, none => { state := supply s arg (text "1") }
      | false, some value => { state := supply s arg value }
      | false, none => takeNext s arg (text "--" ++ key) rest
  | some (.help level) => requestHelp s level
  | some .version => requestVersion s
  | none => unknown partialMode s rawArg .unknownLongOption key

/-- The loop of `Parser::short_options` over the characters that are left. -/
def shortLoop (partialMode : Bool) (scope : List Command) (rawArg : Text) (rest : List Text) :
    Text → ParseState → Outcome
  | [], s => { state := s }
  | c :: more, s =>
      match findShort scope c with
      | some (.arg arg) =>
          if arg.isFlag then
            if isValidChoice arg (text "1") then
              shortLoop partialMode scope rawArg rest more (supply s arg (text "1"))
            else { state := supply s arg (text "1") }
          else if more.isEmpty then takeNext s arg [char '-', c] rest
          else { state := supply s arg more }
      | some (.help level) => requestHelp s level
      | some .version => requestVersion s
      | none => unknown partialMode s rawArg .unknownShortOption [c]

/-- `Parser::short_options`. -/
def shortOptions (partialMode : Bool) (scope : List Command) (rawArg : Text) (rest : List Text)
    (s : ParseState) : Outcome :=
  shortLoop partialMode scope rawArg rest (rawArg.drop 1) s

/-! ## The loop over the arguments -/

/-- What one turn of the loop of `Parser::parse_impl` leaves, for an argument in front of the
separator. -/
structure Turn : Type where
  scope : List Command
  outcome : Outcome

/-- One turn of the loop, for an argument that is neither empty nor the separator. -/
def turn (partialMode : Bool) (scope : List Command) (current : Text) (rest : List Text)
    (s : ParseState) : Turn :=
  if (text "--").isPrefixOf current then ⟨scope, longOption partialMode scope current rest s⟩
  else if (text "-").isPrefixOf current && decide (1 < current.length) then
    ⟨scope, shortOptions partialMode scope current rest s⟩
  else
    match scope.getLast?.bind (·.findSubcommand current) with
    | some sub =>
        ⟨scope ++ [sub], { state := { s with found := s.found.selectSubcommand sub.name } }⟩
    | none => ⟨scope, { state := s.keep partialMode current }⟩

/-- The arguments behind the separator. -/
def keepAll (partialMode : Bool) (args : List Text) (s : ParseState) : ParseState :=
  (args.filter (· ≠ [])).foldl (fun s arg => s.keep partialMode arg) s

/-- What the loop leaves: the scope at its end, unless it is ended before. -/
structure Parsed : Type where
  scope : List Command
  state : ParseState
  stop : Option ParseStatus := none

/-- The loop of `Parser::parse_impl`. -/
def parseLoop (partialMode : Bool) : List Command → List Text → ParseState → Parsed
  | scope, [], s => ⟨scope, s, none⟩
  | scope, current :: rest, s =>
      if current = [] then parseLoop partialMode scope rest s
      else if current = text "--" then
        ⟨scope, keepAll partialMode rest
          (if partialMode then s.pushUnparsed current else s), none⟩
      else
        let t := turn partialMode scope current rest s
        match t.outcome.stop, t.outcome.took, rest with
        | some status, _, _ => ⟨t.scope, t.outcome.state, some status⟩
        | none, true, _ :: rest => parseLoop partialMode t.scope rest t.outcome.state
        | none, _, rest => parseLoop partialMode t.scope rest t.outcome.state

/-- The option that an error about a missing argument names. -/
def requiredName (arg : Argument) : Text :=
  if arg.longName ≠ [] then text "--" ++ arg.longName
  else [char '-', arg.shortName.getD (char '?')]

/-- The validation of `Parser::parse_impl`. -/
def checkRequired (scope : List Command) (s : ParseState) : ParseState :=
  ((scope.flatMap (·.args)).filter fun arg => arg.isRequired && !s.found.has arg.name).foldl
    (fun s arg => s.addError .missingRequiredArgument (requiredName arg)) s

/-- What a call leaves. -/
structure Result : Type where
  status : ParseStatus
  parser : Parser
  found : Option Matches
  unparsed : Option (List Text)

/-- `Parser::parse_impl` behind its check of the pointer to the matches. -/
def parseArgs (root : Command) (partialMode : Bool) (args : List Text) (found : Matches)
    (unparsed : Option (List Text)) : Result :=
  let parsed := parseLoop partialMode [root] args.tail ⟨{}, found, unparsed⟩
  match parsed.stop with
  | some status =>
      ⟨status, parsed.state.parser, some parsed.state.found, parsed.state.unparsed⟩
  | none =>
      let s := checkRequired parsed.scope parsed.state
      ⟨if s.parser.errors.isEmpty then .success else .error, s.parser, some s.found, s.unparsed⟩

/-- `Parser::parse_impl`. -/
def parseImpl (root : Command) (p : Parser) (partialMode : Bool) (args : List Text)
    (found : Option Matches) (unparsed : Option (List Text)) : Result :=
  match found with
  | none => ⟨.error, p.addError .nullMatchesPointer, none, unparsed⟩
  | some found => parseArgs root partialMode args found unparsed

/-! ## The entry points -/

/-- The arguments of a call: the first `argc` pointers of an array, each of which may be
`nullptr`, or a span. -/
inductive Input : Type
  | argv (argc : Int) (argv : List (Option Text))
  | span (args : List Text)

/-- `get_from_argv`, for each index below `argc`. -/
def getFromArgv (argc : Int) (argv : List (Option Text)) : List Text :=
  (argv.take argc.toNat).map (·.getD [])

/-- Both overloads of `Parser::parse` and of `Parser::parse_partial`. -/
def parseInput (root : Command) (p : Parser) (partialMode : Bool) (input : Input)
    (found : Option Matches) (unparsed : Option (List Text)) : Result :=
  match input with
  | .argv argc argv =>
      if argc ≤ 0 then
        ⟨.error, p.addError .invalidArgCount (text (toString argc)), found, unparsed⟩
      else parseImpl root p partialMode (getFromArgv argc argv) found unparsed
  | .span args => parseImpl root p partialMode args found unparsed

/-- `Parser::parse`. -/
def parse (root : Command) (p : Parser) (input : Input) (found : Option Matches) : Result :=
  parseInput root p false input found none

/-- `Parser::parse_partial`. -/
def parsePartial (root : Command) (p : Parser) (input : Input) (found : Option Matches)
    (unparsed : Option (List Text)) : Result :=
  parseInput root p true input found unparsed

/-- `ParseResult`, with the command whose help is shown in the place of its text. -/
inductive ParseResult : Type
  | ok (found : Matches)
  | err (errors : List ParseError)
  | help (command : Command)
  | version (version : Text)

/-- `Parser::try_parse`, and the parser afterwards. -/
def tryParse (root : Command) (p : Parser) (input : Input) : ParseResult × Parser :=
  let result := parse root p input (some {})
  (match result.status with
    | .success => .ok (result.found.getD {})
    | .error => .err result.parser.errors
    | .helpRequested => .help (result.parser.helpCommand.getD root)
    | .versionRequested => .version root.version, result.parser)

end Fpag.Arg
