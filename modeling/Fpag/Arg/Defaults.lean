import Mathlib.Data.List.Find
import Mathlib.Data.List.Nodup
import Fpag.Arg.RequiredGiven
import Fpag.Arg.Macro

/-!
Default values.

`ArgBuilder::default_value` keeps a default, and the help texts show it. Neither a parser nor
`Matches::get` nor a binder asks for it. Reading an argument that is not supplied gives what stands
in for it under its name, and otherwise the error of a name that is not there (`get_standIn`); the
member of a struct gets what the last binder writes that writes it at all, and otherwise keeps its
initializer (`extractAll_left`). A default takes effect where this happens to be its conversion.
-/

namespace Fpag.Arg

/-! ## Reading -/

/-- The argument at the place has a default, and no token is resolved to it. -/
structure Unsupplied (tokens : List Resolution) (site : Site) (arg : Argument) : Prop where
  takesValue : arg.isFlag = false
  hasDefault : arg.defaultValue ≠ []
  notGiven : ¬ Given tokens site

/-- The first value that something else has put into the matches under the name of an argument: a
value from before, or the one of a token that is resolved to another argument of that name. -/
def standIn (path : List Command) (tokens : List Resolution) (found : Matches) (site : Site)
    (name : Text) : Option Text :=
  (found.first name).or
    ((tokens.find? fun token =>
      token.site != site && token.site.nameIn path == some name).map (·.value))

/-- What a reader gets from a value, or from none. -/
def readBack {T : Type} (fromString : Text → Except GetError T) : Option Text → Except GetError T
  | some value => fromString value
  | none => .error .outOfRange

section Reading

variable {path : List Command} {tokens : List Resolution} {s s' : ParseState} {site : Site}

theorem Records.first_eq (records : Records path tokens s s') (name : Text) :
    s'.found.first name = (s.found.first name).or
      ((tokens.find? fun token => token.site.nameIn path == some name).map (·.value)) := by
  have first (found : Matches) : found.first name =
      ((found.values.map fun entry => (some entry.1, entry.2)).find?
        fun entry => entry.1 == some name).map (·.2) := by
    rw [Matches.first, List.find?_map, Option.map_map]
    rfl
  rw [first, first, records, List.find?_append, Option.map_or]
  congr 1
  rw [List.find?_map, Option.map_map]
  rfl

/-- Where no token is resolved to an argument, what is recorded under its name stands in for it. -/
theorem first_standIn (records : Records path tokens s s') (notGiven : ¬ Given tokens site)
    (name : Text) : s'.found.first name = standIn path tokens s.found site name := by
  rw [records.first_eq, standIn]
  congr 2
  apply List.find?_congr
  intro token member
  have other : token.site ≠ site := fun same => notGiven ⟨token, member, same⟩
  rw [bne_iff_ne.mpr other, Bool.true_and]

/-- For every parse that succeeds: what `Matches::get` gives for an argument that is not
supplied. -/
theorem get_standIn {root : Command} {p : Parser} {input : Input} {found result : Matches}
    {T : Type} (fromString : Text → Except GetError T) {arg : Argument}
    (success : (parse root p input (some found)).status = .success)
    (left : (parse root p input (some found)).found = some result)
    (unsupplied : Unsupplied (resolvedTokens root input found) site arg) :
    result.get fromString arg.name = readBack fromString
      (standIn (selectedPath root input found) (resolvedTokens root input found) found site
        arg.name) := by
  obtain ⟨s, is, records, -⟩ := parse_records success
  cases left.symm.trans is
  rw [Matches.get, first_standIn records unsupplied.notGiven]
  cases standIn _ _ _ _ _ <;> rfl

end Reading

/-! ## Members -/

section Members

variable {Member : Type} {T : Member → Type}

section Writes

variable [DecidableEq Member]

/-- What a macro writes to a member, when `value` is the first value under the name of the member:
nothing, or an error when the value cannot be converted. -/
def ArgsMacro.writes (c : Class Member T) (value : Option Text) (m : Member)
    (a : ArgsMacro Member) : Option (Except GetError (T m)) :=
  if (a.binder c).member ≠ m then none
  else if (a.binder c).arg.isFlag then (c.ofBool m).map fun ofBool => .ok (ofBool value.isSome)
  else value.map (c.fromString m)

/-- What the macros leave in a member: what the last one that writes it writes, and otherwise its
initializer. -/
def leftIn (c : Class Member T) (macros : List (ArgsMacro Member)) (value : Option Text)
    (m : Member) : Except GetError (T m) :=
  (macros.reverse.findSome? (·.writes c value m)).getD (.ok (c.config m))

end Writes

theorem name_binder (c : Class Member T) (a : ArgsMacro Member) :
    (a.binder c).arg.name = c.name (a.binder c).member := by
  cases a <;> rfl

/-- Where every member is bound once, nothing stands in for the option of a member. -/
theorem standIn_alone (c : Class Member T) {commandName version : Text}
    {macros : List (ArgsMacro Member)} (once : (macros.map fun a => (a.binder c).member).Nodup)
    {input : Input} {tokens : List Resolution} {i : Nat} {a : ArgsMacro Member}
    (at_ : macros[i]? = some a) :
    standIn (selectedPath (macroCommand commandName version (macros.map (·.binder c))) input {})
      tokens {} ⟨0, i⟩ (c.name (a.binder c).member) = none := by
  rw [selectedPath, parseLoop_leaf rfl, standIn]
  refine Option.or_eq_none_iff.mpr ⟨rfl, ?_⟩
  rw [Option.map_eq_none_iff, List.find?_eq_none]
  rintro ⟨⟨level, index⟩, value⟩ -
  rw [Bool.and_eq_true, bne_iff_ne, beq_iff_eq]
  rintro ⟨other, named⟩
  obtain ⟨arg, there, name⟩ := Option.map_eq_some_iff.mp named
  cases level with
  | succ level => cases there
  | zero =>
      have index_ : ((macros.map (·.binder c)).map (·.arg))[index]? = some arg := there
      rw [List.map_map, List.getElem?_map] at index_
      obtain ⟨b, at_b, rfl⟩ := Option.map_eq_some_iff.mp index_
      rw [Function.comp_apply, name_binder] at name
      have same : (macros.map fun a => (a.binder c).member)[index]? =
          (macros.map fun a => (a.binder c).member)[i]? := by
        rw [List.getElem?_map, List.getElem?_map, at_b, at_]
        exact congrArg some (c.name_injective name)
      have within : index < (macros.map fun a => (a.binder c).member).length := by
        rw [List.length_map]
        exact (List.getElem?_eq_some_iff.mp at_b).1
      exact other (congrArg (Site.mk 0) ((List.getElem?_inj within once).mp same))

theorem has_eq_first (found : Matches) (name : Text) :
    found.has name = (found.first name).isSome := by
  rw [Matches.has, Matches.first, Option.isSome_map, List.isSome_find?]

variable [DecidableEq Member]

/-- A binder writes its own member only. -/
theorem extract_other (c : Class Member T) {b : ArgBinder Member} {obj obj' : (m : Member) → T m}
    {found : Matches} (ran : b.extract c obj found = .ok obj') {m : Member}
    (other : b.member ≠ m) : obj' m = obj m := by
  rw [ArgBinder.extract] at ran
  split at ran
  · split at ran
    · cases ran
      exact Function.update_of_ne other.symm _ _
    · cases ran
      rfl
  split at ran
  · cases ran
    rfl
  · split at ran
    · cases ran
      exact Function.update_of_ne other.symm _ _
    · cases ran

/-- What one binder leaves in a member. -/
theorem extract_left (c : Class Member T) {a : ArgsMacro Member} {obj obj' : (m : Member) → T m}
    {found : Matches} (ran : (a.binder c).extract c obj found = .ok obj') (m : Member) :
    (a.writes c (found.first (c.name m)) m).getD (.ok (obj m)) = .ok (obj' m) := by
  rw [ArgsMacro.writes]
  by_cases bound : (a.binder c).member = m
  · subst bound
    rw [ArgBinder.extract, name_binder, has_eq_first] at ran
    rw [if_neg (fun other => other rfl)]
    by_cases flag : (a.binder c).arg.isFlag = true
    · rw [if_pos flag] at ran ⊢
      cases isBool : c.ofBool (a.binder c).member with
      | none =>
          rw [isBool] at ran
          cases ran
          rfl
      | some ofBool =>
          rw [isBool] at ran
          cases ran
          rw [Function.update_self]
          rfl
    · rw [if_neg flag] at ran ⊢
      rw [Matches.get] at ran
      cases value : found.first (c.name (a.binder c).member) with
      | none =>
          rw [value] at ran
          cases ran
          rfl
      | some given =>
          rw [value] at ran
          simp only [Option.isSome_some, Bool.not_true, Bool.false_eq_true, if_false] at ran
          rw [Option.map_some, Option.getD_some]
          cases converted : c.fromString (a.binder c).member given with
          | error error =>
              rw [converted] at ran
              cases ran
          | ok member =>
              rw [converted] at ran
              cases ran
              rw [Function.update_self]
  · rw [if_pos bound, extract_other c ran bound]
    rfl

theorem extractAll_left (c : Class Member T) {macros : List (ArgsMacro Member)} {found : Matches}
    {config : (m : Member) → T m}
    (ran : extractAll c (macros.map (·.binder c)) found = .ok config) (m : Member) :
    leftIn c macros (found.first (c.name m)) m = .ok (config m) := by
  rw [extractAll] at ran
  rw [leftIn]
  induction macros using List.reverseRecOn generalizing config with
  | nil =>
      cases ran
      rfl
  | append_singleton macros a ih =>
      rw [List.map_append, List.foldlM_append] at ran
      cases before : (macros.map (·.binder c)).foldlM (fun obj b => b.extract c obj found)
          c.config with
      | error error =>
          rw [before] at ran
          cases ran
      | ok obj =>
          rw [before] at ran
          have last : (a.binder c).extract c obj found = .ok config := (bind_pure _).symm.trans ran
          rw [List.reverse_append, List.reverse_singleton, List.singleton_append,
            List.findSome?_cons, ← extract_left c last m, ← ih before]
          cases a.writes c (found.first (c.name m)) m <;> rfl

/-- Where no flag has the member of an option, and no value is there for it, the initializer
stays. -/
theorem leftIn_initial (c : Class Member T) {macros : List (ArgsMacro Member)} {m : Member}
    (options : ∀ a ∈ macros, (a.binder c).member = m → (a.binder c).arg.isFlag = false) :
    leftIn c macros none m = .ok (c.config m) := by
  have silent : macros.reverse.findSome? (·.writes c none m) = none := by
    rw [List.findSome?_eq_none_iff]
    intro a member
    rw [ArgsMacro.writes]
    split
    · rfl
    · next bound =>
        rw [options a (List.mem_reverse.mp member) (not_not.mp bound)]
        rfl
  rw [leftIn, silent]
  rfl

/-- For every struct and all macros with which a parse function succeeds: what it leaves in the
member of an option that is not supplied. -/
theorem member_standIn (c : Class Member T) {commandName version : Text}
    {macros : List (ArgsMacro Member)} {argc : Int} {argv : List (Option Text)}
    {config : (m : Member) → T m} {site : Site} {arg : Argument}
    (ok : parseMacroImpl c commandName version (macros.map (·.binder c)) argc argv = .ok config)
    (unsupplied : Unsupplied (resolvedTokens (macroCommand commandName version
      (macros.map (·.binder c))) (.argv argc argv) {}) site arg) (m : Member) :
    leftIn c macros (standIn
      (selectedPath (macroCommand commandName version (macros.map (·.binder c)))
        (.argv argc argv) {})
      (resolvedTokens (macroCommand commandName version (macros.map (·.binder c)))
        (.argv argc argv) {}) {} site (c.name m)) m = .ok (config m) := by
  rw [parseMacroImpl, tryParse] at ok
  cases success : (parse (macroCommand commandName version (macros.map (·.binder c))) {}
      (.argv argc argv) (some {})).status with
  | success =>
      obtain ⟨s, left, records, -⟩ := parse_records success
      simp only [success, left, Option.getD_some] at ok
      cases extracted : extractAll c (macros.map (·.binder c)) s.found with
      | error error =>
          rw [extracted] at ok
          cases ok
      | ok config =>
          rw [extracted] at ok
          cases ok
          rw [← first_standIn records unsupplied.notGiven]
          exact extractAll_left c extracted m
  | error =>
      rw [success] at ok
      cases ok
  | helpRequested =>
      rw [success] at ok
      cases ok
  | versionRequested =>
      rw [success] at ok
      cases ok

/-- Where every member is bound once, the member of an option that is not supplied keeps its
initializer, whatever the default. -/
theorem member_initial (c : Class Member T) {commandName version : Text}
    {macros : List (ArgsMacro Member)} (once : (macros.map fun a => (a.binder c).member).Nodup)
    {argc : Int} {argv : List (Option Text)} {config : (m : Member) → T m} {i : Nat}
    {a : ArgsMacro Member}
    (ok : parseMacroImpl c commandName version (macros.map (·.binder c)) argc argv = .ok config)
    (at_ : macros[i]? = some a)
    (unsupplied : Unsupplied (resolvedTokens (macroCommand commandName version
      (macros.map (·.binder c))) (.argv argc argv) {}) ⟨0, i⟩ (a.binder c).arg) :
    config (a.binder c).member = c.config (a.binder c).member := by
  have left := member_standIn c ok unsupplied (a.binder c).member
  rw [standIn_alone c once at_, leftIn_initial] at left
  · exact (Except.ok.inj left).symm
  · intro b member same
    rw [List.inj_on_of_nodup_map once member (List.mem_of_getElem? at_) same]
    exact unsupplied.takesValue

end Members

/-! ## Defaults -/

/-- The parse is the one that a parse function of the macros makes, and the argument is the one of
the macro `a` among them. -/
structure MadeBy {Member : Type} {T : Member → Type} (c : Class Member T)
    (commandName version : Text) (macros : List (ArgsMacro Member)) (argc : Int)
    (argv : List (Option Text)) (a : ArgsMacro Member) (root : Command) (input : Input)
    (found : Matches) (site : Site) (arg : Argument) : Prop where
  root : root = macroCommand commandName version (macros.map (·.binder c))
  input : input = .argv argc argv
  found : found = {}
  site : site.level = 0 ∧ macros[site.index]? = some a
  arg : arg = (a.binder c).arg

/-- For every parse that succeeds and every argument with a default that is not supplied: reading
the argument gives the conversion of the default if and only if what stands in for it is read as
that, or, where nothing does, the conversion is the error of a name that is not there. Where the
parse is the one of a parse function of the macros that succeeds, the member has the conversion of
the default if and only if that is what the macros leave in it. -/
theorem default_takes_effect_iff (root : Command) (p : Parser) (input : Input)
    (found result : Matches) {site : Site} {arg : Argument}
    (success : (parse root p input (some found)).status = .success)
    (left : (parse root p input (some found)).found = some result)
    (_ : site.arg (selectedPath root input found) = some arg)
    (unsupplied : Unsupplied (resolvedTokens root input found) site arg) :
    let value := standIn (selectedPath root input found) (resolvedTokens root input found) found
      site arg.name
    (∀ (T : Type) (fromString : Text → Except GetError T),
      result.get fromString arg.name = fromString arg.defaultValue ↔
        readBack fromString value = fromString arg.defaultValue) ∧
    ∀ (Member : Type) (T : Member → Type) [DecidableEq Member] (c : Class Member T)
        (commandName version : Text) (macros : List (ArgsMacro Member)) (argc : Int)
        (argv : List (Option Text)) (a : ArgsMacro Member) (config : (m : Member) → T m),
      MadeBy c commandName version macros argc argv a root input found site arg →
      parseMacroImpl c commandName version (macros.map (·.binder c)) argc argv = .ok config →
      (.ok (config (a.binder c).member) = c.fromString (a.binder c).member arg.defaultValue ↔
        leftIn c macros value (a.binder c).member =
          c.fromString (a.binder c).member arg.defaultValue) := by
  intro value
  constructor
  · intro T fromString
    rw [get_standIn fromString success left unsupplied]
  · intro Member T _ c commandName version macros argc argv a config made ok
    obtain ⟨rfl, rfl, rfl, -, rfl⟩ := made
    rw [← member_standIn c ok unsupplied (a.binder c).member, ← name_binder]

/-- A struct with a string as its only member. -/
def outClass (initial : Text) : Class Unit fun _ => Text where
  name := fun _ => text "out"
  name_injective := fun _ _ _ => rfl
  fromString := fun _ => convertText
  ofBool := fun _ => none
  config := fun _ => initial

/-- `ARGS_OPT_FULL` with the default `a.out`. -/
def outOption : ArgsMacro Unit := .optFull () (char 'o') (text "out") (text "a.out") false []

/-- A call without the option. -/
theorem unsupplied_out (initial : Text) :
    Unsupplied (resolvedTokens (macroCommand (text "tool") []
      ([outOption].map (·.binder (outClass initial)))) (.argv 1 [some (text "tool")]) {}) ⟨0, 0⟩
      (outOption.binder (outClass initial)).arg where
  takesValue := rfl
  hasDefault := List.cons_ne_nil _ _
  notGiven := by
    rintro ⟨token, member, -⟩
    cases member

/-- With an initializer that is equal to the default, the member has it, but reading the argument
gives an error. -/
theorem default_takes_effect_iff_out :
    let c := outClass (text "a.out")
    let command := macroCommand (text "tool") [] ([outOption].map (·.binder c))
    ∃ result config,
      (parse command {} (.argv 1 [some (text "tool")]) (some {})).found = some result ∧
      result.get convertText (text "out") ≠ convertText (text "a.out") ∧
      parseMacroImpl c (text "tool") [] ([outOption].map (·.binder c)) 1 [some (text "tool")] =
        .ok config ∧ .ok (config ()) = convertText (text "a.out") := by
  intro c command
  obtain ⟨reads, holds⟩ := default_takes_effect_iff command {} (.argv 1 [some (text "tool")])
    {} {} rfl rfl rfl (unsupplied_out (text "a.out"))
  refine ⟨{}, _, rfl, (not_congr (reads Text convertText)).mpr (by rintro ⟨⟩), rfl, ?_⟩
  exact (holds Unit (fun _ => Text) c (text "tool") [] [outOption] 1 [some (text "tool")] outOption
    _ ⟨rfl, rfl, rfl, ⟨rfl, rfl⟩, rfl⟩ rfl).mpr rfl

/-- With another initializer the member has that: the default takes no effect. -/
theorem not_default_takes_effect :
    let command := macroCommand (text "tool") [] ([outOption].map (·.binder (outClass [])))
    let call : Input := .argv 1 [some (text "tool")]
    Unsupplied (resolvedTokens command call {}) ⟨0, 0⟩ (outOption.binder (outClass [])).arg ∧
      (parse command {} call (some {})).status = .success ∧
      (∃ result, (parse command {} call (some {})).found = some result ∧
        result.get convertText (text "out") = .error .outOfRange) ∧
      ∃ config, parseMacroImpl (outClass []) (text "tool") []
          ([outOption].map (·.binder (outClass []))) 1 [some (text "tool")] = .ok config ∧
        config () = [] ∧ convertText (text "a.out") = .ok (text "a.out") ∧ text "a.out" ≠ [] :=
  ⟨unsupplied_out [], rfl, ⟨_, rfl, rfl⟩, _, rfl, rfl, rfl, List.cons_ne_nil _ _⟩

end Fpag.Arg
