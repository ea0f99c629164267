import Mathlib.Tactic.Ring
import Mathlib.Data.List.Basic
import Fpag.Logging.LogLevel

/-!
`arg::Arg`, `arg::Command` and `arg::Matches`: the commands that a parser knows, and what it
has found and gives to its readers.

A `std::string_view` is the list of its characters. A pointer to an argument or to a command
is the argument or the command itself; `nullptr` is `none`.
-/

namespace Fpag.Arg

/-- The characters of a `std::string_view`. -/
abbrev Text : Type := List UInt8

/-- The character of a literal. -/
def char (c : Char) : UInt8 := UInt8.ofNat c.toNat

/-! ## Commands -/

/-- `Arg`, without its texts for help. The default is one of them, though it is meant as more. -/
structure Argument : Type where
  ownName : Option Text := none
  longName : Text := []
  choices : List Text := []
  shortName : Option UInt8 := none
  isRequired : Bool := false
  isFlag : Bool := false
  defaultValue : Text := []
  deriving DecidableEq

/-- `Arg::name`. -/
def Argument.name (arg : Argument) : Text := arg.ownName.getD arg.longName

/-- `Command`, without the text that only help shows. -/
structure Command : Type where
  name : Text
  version : Text := []
  args : List Argument := []
  subcommands : List Command := []
  builtinEnabled : Bool := true

namespace Command

/-- `Command::find_arg_by_short`. -/
def findArgByShort (command : Command) (c : UInt8) : Option Argument :=
  command.args.find? fun arg => arg.shortName == some c

/-- `Command::find_arg_by_long`. -/
def findArgByLong (command : Command) (longName : Text) : Option Argument :=
  command.args.find? fun arg => arg.longName == longName

/-- `Command::find_subcommand`. -/
def findSubcommand (command : Command) (subName : Text) : Option Command :=
  command.subcommands.find? fun sub => sub.name == subName

end Command

/-! ## Matches -/

/-- `Matches`. -/
structure Matches : Type where
  values : List (Text × Text) := []
  positionals : List Text := []
  commandPath : List Text := []
  deriving DecidableEq

namespace Matches

def add (found : Matches) (name value : Text) : Matches :=
  { found with values := found.values ++ [(name, value)] }

def addPositional (found : Matches) (value : Text) : Matches :=
  { found with positionals := found.positionals ++ [value] }

def has (found : Matches) (name : Text) : Bool := found.values.any fun entry => entry.1 == name

def selectSubcommand (found : Matches) (name : Text) : Matches :=
  { found with commandPath := found.commandPath ++ [name] }

end Matches

/-- `GetError`. -/
inductive GetError : Type
  | invalidArgument
  | outOfRange
  deriving DecidableEq

namespace Matches

/-- The value of the first entry with a name. -/
def first (found : Matches) (name : Text) : Option Text :=
  (found.values.find? fun entry => entry.1 == name).map (·.2)

/-- `Matches::get<T>`; `fromString` is `Converter<T>::from_string`. -/
def get {T : Type} (found : Matches) (fromString : Text → Except GetError T) (name : Text) :
    Except GetError T :=
  match found.first name with
  | some value => fromString value
  | none => .error .outOfRange

end Matches

/-! ## Errors -/

/-- `ErrorCode`, as far as a parser or a parse function of the macros reports it. -/
inductive ErrorCode : Type
  | invalidArgCount
  | nullMatchesPointer
  | unknownLongOption
  | unknownShortOption
  | missingValueForOption
  | flagTakesNoValue
  | missingRequiredArgument
  | invalidChoice
  | invalidValue
  deriving DecidableEq

/-- `ParseError`. -/
structure ParseError : Type where
  code : ErrorCode
  context : Text := []
  value : Text := []
  deriving DecidableEq

/-- `ParseStatus`. -/
inductive ParseStatus : Type
  | success
  | error
  | helpRequested
  | versionRequested
  deriving DecidableEq

end Fpag.Arg
