import Fpag.Arg.Parser

/-!
Several parses with one parser.

`parse_impl` clears the errors and the help level of the parser before it goes over the
arguments. The checks of the argument count and of the pointer to the matches are in front of
that: a call that fails there adds its error to what is left of earlier calls.
`forgets_iff` says when this shows.
-/

namespace Fpag.Arg

/-- A call of an entry point with its arguments and outputs. -/
inductive Call : Type
  | parse (input : Input) (found : Option Matches)
  | parsePartial (input : Input) (found : Option Matches) (unparsed : Option (List Text))
  | tryParse (input : Input)

/-- `ParseResult::status`. -/
def ParseResult.status : ParseResult → ParseStatus
  | .ok _ => .success
  | .err _ => .error
  | .help _ => .helpRequested
  | .version _ => .versionRequested

namespace Call

/-- The status of a call, and the parser with its errors and its help level afterwards. -/
def run (root : Command) (p : Parser) : Call → ParseStatus × Parser
  | .parse input found =>
      ((Arg.parse root p input found).status, (Arg.parse root p input found).parser)
  | .parsePartial input found unparsed =>
      ((Arg.parsePartial root p input found unparsed).status,
        (Arg.parsePartial root p input found unparsed).parser)
  | .tryParse input => ((Arg.tryParse root p input).1.status, (Arg.tryParse root p input).2)

def input : Call → Input
  | .parse input _ => input
  | .parsePartial input _ _ => input
  | .tryParse input => input

def partialMode : Call → Bool
  | .parsePartial _ _ _ => true
  | _ => false

def unparsed : Call → Option (List Text)
  | .parsePartial _ _ unparsed => unparsed
  | _ => none

/-- The pointer to the matches; `try_parse` has matches of its own. -/
def found : Call → Option Matches
  | .parse _ found => found
  | .parsePartial _ found _ => found
  | .tryParse _ => some {}

end Call

/-- The argument count is not refused. -/
def Input.counted : Input → Bool
  | .argv argc _ => decide (0 < argc)
  | .span _ => true

/-- The call passes both checks and comes to where the parser is cleared. -/
def Call.clears (call : Call) : Bool := call.input.counted && call.found.isSome

/-- The parser after the calls of a history, the first of them on a new parser. -/
def after (root : Command) (history : List Call) : Parser :=
  history.foldl (fun p call => (call.run root p).2) {}

section Forget

variable {root : Command} {p : Parser} {partialMode : Bool} {input : Input}
  {found : Option Matches} {unparsed : Option (List Text)} {call : Call}

/-- What a parse does behind both checks does not depend on the parser. -/
theorem parseInput_clears (counted : input.counted = true) (given : found.isSome = true)
    (q : Parser) :
    parseInput root p partialMode input found unparsed =
      parseInput root q partialMode input found unparsed := by
  obtain ⟨found, rfl⟩ := Option.isSome_iff_exists.mp given
  cases input with
  | argv argc argv =>
      have pos : ¬ argc ≤ 0 := by simpa [Input.counted] using counted
      simp only [parseInput, if_neg pos, parseImpl]
  | span args => rfl

/-- A parse that fails at one of the checks adds an error of its own to the parser. -/
theorem parseInput_fails (fails : (input.counted && found.isSome) = false) :
    ∃ error, ∀ p : Parser, parseInput root p partialMode input found unparsed =
      ⟨.error, { p with errors := p.errors ++ [error] }, found, unparsed⟩ := by
  cases input with
  | argv argc argv =>
      by_cases pos : argc ≤ 0
      · refine ⟨⟨.invalidArgCount, text (toString argc), []⟩, fun p => ?_⟩
        rw [parseInput, if_pos pos]
        rfl
      · have null : found = none := by
          simpa [Input.counted, Int.not_le.mp pos] using fails
        subst null
        refine ⟨⟨.nullMatchesPointer, [], []⟩, fun p => ?_⟩
        rw [parseInput, if_neg pos]
        rfl
  | span args =>
      have null : found = none := by simpa [Input.counted] using fails
      subst null
      exact ⟨⟨.nullMatchesPointer, [], []⟩, fun p => rfl⟩

/-- Every entry point is a parse; `try_parse` only packs up what it gives. -/
theorem run_eq (call : Call) :
    let result := parseInput root p call.partialMode call.input call.found call.unparsed
    call.run root p = (result.status, result.parser) := by
  cases call with
  | parse input found => rfl
  | parsePartial input found unparsed => rfl
  | tryParse input =>
      simp only [Call.run, tryParse]
      cases h : (parse root p input (some {})).status <;> exact Prod.ext h.symm rfl

theorem run_clears (clears : call.clears = true) (q : Parser) :
    call.run root p = call.run root q := by
  obtain ⟨counted, given⟩ := Bool.and_eq_true_iff.mp clears
  rw [run_eq, run_eq, parseInput_clears counted given q]

theorem run_fails (root : Command) (fails : call.clears = false) :
    ∃ error, ∀ p : Parser,
      call.run root p = (.error, { p with errors := p.errors ++ [error] }) := by
  obtain ⟨error, gives⟩ := @parseInput_fails root call.partialMode _ _ call.unparsed fails
  exact ⟨error, fun p => by rw [run_eq, gives]⟩

end Forget

/-- After any history the call gives the status, the errors and the help level that it gives on
a new parser. -/
def Forgets (root : Command) (history : List Call) (call : Call) : Prop :=
  call.run root (after root history) = call.run root {}

/-- A call does as on a new parser exactly if it passes the checks, or if the calls before it
have left no error and no help level. -/
theorem forgets_iff (root : Command) (history : List Call) (call : Call) :
    Forgets root history call ↔
      call.clears = true ∨
        ((after root history).errors = [] ∧ (after root history).helpCommand = none) := by
  constructor
  · intro forgets
    by_cases clears : call.clears = true
    · exact .inl clears
    · obtain ⟨error, fails⟩ := run_fails root (Bool.eq_false_iff.mpr clears)
      rw [Forgets, fails, fails] at forgets
      injection forgets with _ same
      injection same with errors help
      exact .inr ⟨List.append_cancel_right errors, help⟩
  · rintro (clears | ⟨errors, help⟩)
    · exact run_clears clears _
    · have new : after root history = {} := by
        cases h : after root history with
        | mk errors' help' =>
            rw [h] at errors help
            cases errors
            cases help
            rfl
      rw [Forgets, new]

/-- A call without arguments after another one: the error of the first is still there. -/
theorem not_forgets_twice :
    ¬ Forgets ⟨text "tool", [], [], [], true⟩ [.parse (.argv 0 []) (some {})]
      (.parse (.argv 0 []) (some {})) := by
  intro forgets
  have counts := congrArg (fun result : ParseStatus × Parser => result.2.errors.length) forgets
  exact absurd counts (by decide)

end Fpag.Arg
