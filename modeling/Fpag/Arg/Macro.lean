import Mathlib.Logic.Function.Basic
import Fpag.Arg.Parser

/-!
The macros that bind arguments to the members of a struct.

A struct is a function of its members. `ARGS_OPT_FULL`, `ARGS_OPT` and `ARGS_FLAG` make binders; the
function that `ARGS_FN_DEFINE` defines parses with the arguments of the binders and lets each of
them extract its value, up to the first that cannot convert it.
-/

namespace Fpag.Arg

/-- `Class`: the names of its members, the converters of their types, how the members that are
`bool` take a truth value, and the values of `Class config{}`. -/
structure Class (Member : Type) (T : Member → Type) : Type where
  name : Member → Text
  name_injective : Function.Injective name
  fromString : (m : Member) → Text → Except GetError (T m)
  ofBool : (m : Member) → Option (Bool → T m)
  config : (m : Member) → T m

/-- `ArgBinder`. -/
structure ArgBinder (Member : Type) : Type where
  arg : Argument
  member : Member

/-- An argument of `ARGS_FN_DEFINE`: one of the macros with its own arguments, without the texts for
help. -/
inductive ArgsMacro (Member : Type) : Type
  | optFull (field : Member) (short : UInt8) (long default : Text) (required : Bool)
      (choices : List Text)
  | opt (field : Member) (short : UInt8) (long : Text) (required : Bool) (choices : List Text)
  | flag (field : Member) (short : UInt8) (long : Text)

section Binders

variable {Member : Type} {T : Member → Type}

/-- What a macro expands to. -/
def ArgsMacro.binder (c : Class Member T) : ArgsMacro Member → ArgBinder Member
  | optFull field short long default required choices =>
      { arg := { ownName := some (c.name field), longName := long, shortName := some short,
                 defaultValue := default, isRequired := required, choices }
        member := field }
  | opt field short long required choices =>
      { arg := { ownName := some (c.name field), longName := long, shortName := some short,
                 isRequired := required, choices }
        member := field }
  | flag field short long =>
      { arg := { ownName := some (c.name field), longName := long, shortName := some short,
                 isFlag := true }
        member := field }

/-- `Converter<std::string_view>::from_string`, and the one of `std::string`. -/
def convertText (v : Text) : Except GetError Text := .ok v

variable [DecidableEq Member]

/-- `ArgBinder::extract`. The argument has been moved to the builder by then, but its name and
whether it is a flag are copied and stay. -/
def ArgBinder.extract (c : Class Member T) (b : ArgBinder Member) (obj : (m : Member) → T m)
    (found : Matches) : Except ParseError ((m : Member) → T m) :=
  if b.arg.isFlag then
    match c.ofBool b.member with
    | some ofBool => .ok (Function.update obj b.member (ofBool (found.has b.arg.name)))
    | none => .ok obj
  else if !found.has b.arg.name then .ok obj
  else
    match found.get (c.fromString b.member) b.arg.name with
    | .ok value => .ok (Function.update obj b.member value)
    | .error _ =>
        .error ⟨.invalidValue, b.arg.name, (found.get convertText b.arg.name).toOption.getD []⟩

/-- The fold of `parse_macro_impl`. -/
def extractAll (c : Class Member T) (binders : List (ArgBinder Member)) (found : Matches) :
    Except ParseError ((m : Member) → T m) :=
  binders.foldlM (fun obj b => b.extract c obj found) c.config

/-- The command that `parse_macro_impl` builds. -/
def macroCommand (commandName version : Text) (binders : List (ArgBinder Member)) : Command :=
  { name := commandName, version, args := binders.map (·.arg) }

/-- `ParseResult<Class>`. -/
inductive ClassResult (Config : Type) : Type
  | ok (config : Config)
  | err (errors : List ParseError)
  | help (command : Command)
  | version (version : Text)

/-- `parse_macro_impl`. -/
def parseMacroImpl (c : Class Member T) (commandName version : Text)
    (binders : List (ArgBinder Member)) (argc : Int) (argv : List (Option Text)) :
    ClassResult ((m : Member) → T m) :=
  match (tryParse (macroCommand commandName version binders) {} (.argv argc argv)).1 with
  | .ok found =>
      match extractAll c binders found with
      | .ok config => .ok config
      | .error error => .err [error]
  | .err errors => .err errors
  | .help command => .help command
  | .version version => .version version

end Binders

end Fpag.Arg
