import Fpag.Arg.PartialParse

/-!
The spellings of an option.

An option may have its value behind `=` or in the next argument, and short options may be bundled.
Each spelling has its own branch of the parser. `Spelling` relates two ways to write the same
options, for a scope in which they are options; the loop comes to the same state behind both,
whatever follows (`parseLoop_spelling`). `reach` says which positions the loop comes to: those that
no option in front takes as its value, in front of the separator and of a request for help.
-/

namespace Fpag.Arg

/-! ## Positions -/

/-- The loop over the arguments in front of a position: the scope and the state that it comes to
the position with, unless it is ended before or the position is taken as a value. -/
def reach (partialMode : Bool) : List Command → (front tail : List Text) → ParseState →
    Option (List Command × ParseState)
  | scope, [], _, s => some (scope, s)
  | scope, current :: front, tail, s =>
      if current = [] then reach partialMode scope front tail s
      else if current = text "--" then none
      else
        let t := turn partialMode scope current (front ++ tail) s
        match t.outcome.stop, t.outcome.took, front with
        | some _, _, _ => none
        | none, true, [] => none
        | none, true, _ :: front => reach partialMode t.scope front tail t.outcome.state
        | none, false, front => reach partialMode t.scope front tail t.outcome.state

section Reach

variable {partialMode : Bool} {scope scope' : List Command} {s s' : ParseState}

/-- The loop goes on from a position that it comes to. -/
theorem parseLoop_reach {front tail : List Text}
    (reached : reach partialMode scope front tail s = some (scope', s')) :
    parseLoop partialMode scope (front ++ tail) s = parseLoop partialMode scope' tail s' := by
  induction scope, front, s using parseLoop_induction with
  | nil scope s =>
      cases reached
      rfl
  | empty scope front s ih =>
      rw [reach, if_pos rfl] at reached
      rw [List.cons_append, parseLoop, if_pos rfl]
      exact ih reached
  | separator scope front s =>
      rw [reach, if_neg (by decide), if_pos rfl] at reached
      cases reached
  | turn scope current front s some_ other ih =>
      rw [reach, if_neg some_, if_neg other] at reached
      rw [List.cons_append, parseLoop_turn some_ other]
      dsimp only at reached ⊢
      split at reached
      · cases reached
      · cases reached
      · next value front' stop took =>
          rw [stop, behind, took]
          exact ih _ _ _ (Nat.le_succ _) reached
      · next stop took =>
          rw [stop, behind, took]
          exact ih _ _ _ (Nat.le_refl _) reached

/-- An option that is followed by an argument and does not take it does not depend on it. -/
theorem longOption_of_not_took {rawArg : Text} {rest rest' : List Text}
    (some_ : rest.headD [] ≠ [])
    (left : (longOption partialMode scope rawArg rest s).took = false) :
    longOption partialMode scope rawArg rest' s = longOption partialMode scope rawArg rest s := by
  simp only [longOption] at left ⊢
  split
  · split
    · rfl
    · rfl
    · rfl
    · next found _ _ flag value =>
        simp only [found, flag, value, takeNext] at left
        cases left
  · rfl
  · rfl
  · rfl

theorem shortLoop_of_not_took {rawArg chars : Text} {rest rest' : List Text}
    (some_ : rest.headD [] ≠ [])
    (left : (shortLoop partialMode scope rawArg rest chars s).took = false) :
    shortLoop partialMode scope rawArg rest' chars s =
      shortLoop partialMode scope rawArg rest chars s := by
  induction chars generalizing s with
  | nil => rfl
  | cons c more ih =>
      rw [shortLoop] at left
      rw [shortLoop, shortLoop]
      cases found : findShort scope c with
      | none => rfl
      | some option =>
          rw [found] at left
          cases option with
          | help level => rfl
          | version => rfl
          | arg arg =>
              dsimp only at left ⊢
              by_cases flag : arg.isFlag = true
              · rw [if_pos flag] at left
                rw [if_pos flag, if_pos flag]
                by_cases valid : isValidChoice arg (text "1") = true
                · rw [if_pos valid] at left
                  rw [if_pos valid, if_pos valid]
                  exact ih left
                · rw [if_neg valid, if_neg valid]
              · rw [if_neg flag] at left
                rw [if_neg flag, if_neg flag]
                by_cases last : more.isEmpty = true
                · rw [if_pos last, takeNext] at left
                  split at left
                  · next none_ => exact absurd none_ some_
                  · cases left
                · rw [if_neg last, if_neg last]

/-- An argument that is followed by another one and does not take it does not depend on it. -/
theorem turn_of_not_took {current : Text} {rest rest' : List Text} (some_ : rest.headD [] ≠ [])
    (left : (turn partialMode scope current rest s).outcome.took = false) :
    turn partialMode scope current rest' s = turn partialMode scope current rest s := by
  simp only [turn] at left ⊢
  by_cases long : (text "--").isPrefixOf current = true
  · simp only [if_pos long] at left ⊢
    rw [longOption_of_not_took some_ left]
  by_cases short : ((text "-").isPrefixOf current && decide (1 < current.length)) = true
  · simp only [if_neg long, if_pos short] at left ⊢
    rw [shortOptions, shortOptions, shortLoop_of_not_took some_ left]
  · simp only [if_neg long, if_neg short]

/-- An argument looks at nothing behind the next one. -/
theorem turn_congr {current : Text} {rest rest' : List Text}
    (same : rest.headD [] = rest'.headD []) :
    turn partialMode scope current rest s = turn partialMode scope current rest' s := by
  have next (s : ParseState) (arg : Argument) (option : Text) :
      takeNext s arg option rest = takeNext s arg option rest' := by rw [takeNext, takeNext, same]
  have bundle (chars : Text) (s : ParseState) : shortLoop partialMode scope current rest chars s =
      shortLoop partialMode scope current rest' chars s := by
    induction chars generalizing s with
    | nil => rfl
    | cons c more ih =>
        rw [shortLoop, shortLoop]
        simp only [next, ih]
  simp only [turn, longOption, next, shortOptions, bundle]

/-- Whether the loop comes to a position does not depend on what stands there. -/
theorem reach_congr {front tail tail' : List Text} (some_ : tail.headD [] ≠ [])
    (reached : reach partialMode scope front tail s = some (scope', s')) :
    reach partialMode scope front tail' s = some (scope', s') := by
  induction scope, front, s using parseLoop_induction with
  | nil scope s => exact reached
  | empty scope front s ih =>
      rw [reach, if_pos rfl] at reached ⊢
      exact ih reached
  | separator scope front s =>
      rw [reach, if_neg (by decide), if_pos rfl] at reached
      cases reached
  | turn scope current front s nonempty other ih =>
      rw [reach, if_neg nonempty, if_neg other] at reached ⊢
      have same : turn partialMode scope current (front ++ tail') s =
          turn partialMode scope current (front ++ tail) s := by
        cases front with
        | cons value front => exact turn_congr rfl
        | nil =>
            -- The last argument in front would have taken the position.
            refine turn_of_not_took some_ ?_
            dsimp only at reached
            split at reached
            · cases reached
            · cases reached
            · next impossible => cases impossible
            · assumption
      rw [same]
      dsimp only at reached ⊢
      split at reached
      · cases reached
      · cases reached
      · exact ih _ _ _ (Nat.le_succ _) reached
      · exact ih _ _ _ (Nat.le_refl _) reached

end Reach

/-! ## Spellings -/

/-- The argument that a long name stands for in a scope: that of the innermost level that has it. -/
def namedIn (scope : List Command) (key : Text) : Option Argument :=
  scope.reverse.findSome? (·.findArgByLong key)

/-- Two ways to write the same options, in a scope. -/
inductive Spelling (scope : List Command) : List Text → List Text → Prop
  /-- `--k=v` and `--k`, `v`. -/
  | value (k v : Text) (arg : Argument) (some : k ≠ []) (plain : char '=' ∉ k)
      (help : k ≠ text "help") (version : k ≠ text "version") (named : namedIn scope k = .some arg)
      (takes : arg.isFlag = false) (given : v ≠ []) :
      Spelling scope [text "--" ++ (k ++ char '=' :: v)] [text "--" ++ k, v]
  /-- `-cv` and `-c`, `v`. -/
  | attached (c : UInt8) (v : Text) (arg : Argument) (letter : c ≠ char '-')
      (named : findShort scope c = .some (.arg arg)) (takes : arg.isFlag = false) (given : v ≠ []) :
      Spelling scope [char '-' :: c :: v] [[char '-', c], v]
  /-- `-abc` and `-a`, `-b`, `-c`. -/
  | bundle (cs : Text) (some : cs ≠ []) (flags : ∀ c ∈ cs, c ≠ char '-' ∧
      ∃ arg, findShort scope c = .some (.arg arg) ∧ arg.isFlag = true ∧ arg.choices = []) :
      Spelling scope [char '-' :: cs] (cs.map fun c => [char '-', c])

section Spellings

variable {partialMode : Bool} {scope : List Command}

theorem splitEqual_plain {k : Text} (plain : char '=' ∉ k) : splitEqual k = (k, none) := by
  rw [splitEqual, List.idxOf?_eq_none_iff.mpr plain]

theorem splitEqual_value {k : Text} (plain : char '=' ∉ k) (v : Text) :
    splitEqual (k ++ char '=' :: v) = (k, some v) := by
  have pos : (k ++ char '=' :: v).idxOf? (char '=') = some k.length := by
    induction k with
    | nil => rw [List.nil_append, List.idxOf?_cons, beq_self_eq_true, if_pos rfl, List.length_nil]
    | cons c k ih =>
        rw [List.mem_cons, not_or] at plain
        rw [List.cons_append, List.idxOf?_cons, if_neg (by simpa using Ne.symm plain.1), ih plain.2]
        rfl
  rw [splitEqual, pos]
  simp

/-- A search that no builtin ends. -/
theorem findOption_named {own : Command → Option Argument} {levels : List Command} :
    findOption own false false levels = (levels.findSome? own).map .arg := by
  induction levels with
  | nil => rfl
  | cons level outer ih =>
      rw [findOption, List.findSome?_cons]
      cases own level with
      | some arg => rfl
      | none => simpa using ih

/-- A long option with a value, behind `=` or in the next argument. -/
theorem longOption_value {content k : Text} {value : Option Text} {arg : Argument}
    (split : splitEqual content = (k, value)) (help : content ≠ text "help")
    (version : content ≠ text "version") (named : namedIn scope k = some arg)
    (takes : arg.isFlag = false) (rest : List Text) (s : ParseState) :
    longOption partialMode scope (text "--" ++ content) rest s =
      match value with
      | some v => { state := supply s arg v }
      | none => takeNext s arg (text "--" ++ k) rest := by
  have content_eq : (text "--" ++ content).drop 2 = content := rfl
  have found : findLong scope content = some (.arg arg) := by
    rw [findLong, beq_false_of_ne help, beq_false_of_ne version, findOption_named, split]
    exact congrArg (Option.map Found.arg) named
  simp only [longOption, content_eq, found, split, takes]
  cases value <;> rfl

/-- What the loop does behind an option. -/
def goOn (partialMode : Bool) (scope : List Command) (rest : List Text) (o : Outcome) : Parsed :=
  match o.stop with
  | some status => ⟨scope, o.state, some status⟩
  | none => parseLoop partialMode scope (behind o rest) o.state

/-- The turn of a long option that is not the separator. -/
theorem parseLoop_long {content : Text} (some_ : content ≠ []) (rest : List Text) (s : ParseState) :
    parseLoop partialMode scope ((text "--" ++ content) :: rest) s =
      goOn partialMode scope rest (longOption partialMode scope (text "--" ++ content) rest s) := by
  have long : (text "--").isPrefixOf (text "--" ++ content) = true :=
    List.isPrefixOf_iff_prefix.mpr (List.prefix_append _ _)
  have other : text "--" ++ content ≠ text "--" := fun same =>
    some_ (List.append_cancel_left (same.trans (List.append_nil _).symm))
  have turn_eq : turn partialMode scope (text "--" ++ content) rest s =
      ⟨scope, longOption partialMode scope (text "--" ++ content) rest s⟩ := by
    rw [turn, if_pos long]
  rw [parseLoop_turn (by rintro ⟨⟩) other, turn_eq]
  rfl

/-- The turn of a bundle. -/
theorem parseLoop_short {c : UInt8} {cs : Text} (letter : c ≠ char '-') (rest : List Text)
    (s : ParseState) :
    parseLoop partialMode scope ((char '-' :: c :: cs) :: rest) s =
      goOn partialMode scope rest
        (shortLoop partialMode scope (char '-' :: c :: cs) rest (c :: cs) s) := by
  have long : ¬ (text "--").isPrefixOf (char '-' :: c :: cs) = true := by
    intro starts
    have front := List.isPrefixOf_iff_prefix.mp starts
    exact letter (List.cons_prefix_cons.mp (List.cons_prefix_cons.mp front).2).1.symm
  have short : ((text "-").isPrefixOf (char '-' :: c :: cs) &&
      decide (1 < (char '-' :: c :: cs).length)) = true := by
    rw [Bool.and_eq_true]
    exact ⟨List.isPrefixOf_iff_prefix.mpr ⟨c :: cs, rfl⟩, by simp⟩
  have other : char '-' :: c :: cs ≠ text "--" := by
    rintro ⟨⟩
    exact letter rfl
  have turn_eq : turn partialMode scope (char '-' :: c :: cs) rest s =
      ⟨scope, shortLoop partialMode scope (char '-' :: c :: cs) rest (c :: cs) s⟩ := by
    rw [turn, if_neg long, if_pos short]
    rfl
  rw [parseLoop_turn (List.cons_ne_nil _ _) other, turn_eq]
  rfl

/-- A flag without choices in front of the rest of a bundle. -/
theorem shortLoop_flag {c : UInt8} {arg : Argument} (found : findShort scope c = some (.arg arg))
    (flag : arg.isFlag = true) (free : arg.choices = []) (rawArg more : Text) (rest : List Text)
    (s : ParseState) : shortLoop partialMode scope rawArg rest (c :: more) s =
      shortLoop partialMode scope rawArg rest more (supply s arg (text "1")) := by
  have valid : isValidChoice arg (text "1") = true := by
    rw [isValidChoice, free]
    rfl
  rw [shortLoop, found]
  simp only [if_pos flag, if_pos valid]

/-- The state behind a bundle of flags is the state behind the flags one by one. -/
theorem parseLoop_bundle (rawArg : Text) {cs : Text} (flags : ∀ c ∈ cs, c ≠ char '-' ∧
    ∃ arg, findShort scope c = some (.arg arg) ∧ arg.isFlag = true ∧ arg.choices = [])
    (rest : List Text) (s : ParseState) :
    goOn partialMode scope rest (shortLoop partialMode scope rawArg rest cs s) =
      parseLoop partialMode scope (cs.map (fun c => [char '-', c]) ++ rest) s := by
  induction cs generalizing s with
  | nil => rfl
  | cons c cs ih =>
      obtain ⟨letter, arg, found, flag, free⟩ := flags c List.mem_cons_self
      have rest_flags := fun d member => flags d (List.mem_cons_of_mem _ member)
      rw [shortLoop_flag found flag free, ih rest_flags, List.map_cons, List.cons_append,
        parseLoop_short letter, shortLoop_flag found flag free]
      rfl

/-- Behind both spellings the loop goes on in the same way, whatever follows. -/
theorem parseLoop_spelling {xs ys : List Text} (spelling : Spelling scope xs ys) (back : List Text)
    (s : ParseState) :
    parseLoop partialMode scope (xs ++ back) s = parseLoop partialMode scope (ys ++ back) s := by
  have next {v : Text} (given : v ≠ []) (arg : Argument) (option : Text) :
      takeNext s arg option (v :: back) = { state := supply s arg v, took := true } := by
    obtain ⟨c, v, rfl⟩ := List.exists_cons_of_ne_nil given
    rfl
  cases spelling with
  | value k v arg some_ plain help version named takes given =>
      have noHelp (word : Text) (other : char '=' ∉ word) : k ++ char '=' :: v ≠ word := by
        rintro rfl
        exact other (List.mem_append_right _ List.mem_cons_self)
      rw [List.singleton_append, List.cons_append, List.singleton_append,
        parseLoop_long (by simp), parseLoop_long some_,
        longOption_value (splitEqual_value plain v) (noHelp _ (by decide)) (noHelp _ (by decide))
          named takes,
        longOption_value (splitEqual_plain plain) help version named takes]
      dsimp only
      rw [next given]
      rfl
  | attached c v arg letter named takes given =>
      have attached (rawArg : Text) (rest : List Text) :
          shortLoop partialMode scope rawArg rest (c :: v) s = { state := supply s arg v } := by
        rw [shortLoop, named]
        simp only [takes, Bool.false_eq_true, if_false]
        rw [if_neg (by simpa using given)]
      have apart (rawArg : Text) (rest : List Text) :
          shortLoop partialMode scope rawArg rest [c] s = takeNext s arg [char '-', c] rest := by
        rw [shortLoop, named]
        simp only [takes, Bool.false_eq_true, if_false]
        rfl
      rw [List.singleton_append, List.cons_append, List.singleton_append, parseLoop_short letter,
        parseLoop_short letter, attached, apart, next given]
      rfl
  | bundle cs some_ flags =>
      obtain ⟨c, cs, rfl⟩ := List.exists_cons_of_ne_nil some_
      rw [List.singleton_append, parseLoop_short (flags c List.mem_cons_self).1,
        parseLoop_bundle _ flags]

/-- The first argument of a spelling is not empty. -/
theorem Spelling.head_ne {xs ys : List Text} (spelling : Spelling scope xs ys) (back : List Text) :
    (xs ++ back).headD [] ≠ [] := by
  cases spelling <;> exact List.cons_ne_nil _ _

end Spellings

/-- For every command tree, all arguments and every position that a parse comes to in front of the
separator: writing the options there in another spelling leaves the result of the parse as it is. -/
theorem parse_spelling {root : Command} {p : Parser} {found : Matches} {program : Text}
    {front xs ys back : List Text} {scope : List Command} {s : ParseState}
    (reached : reach false [root] front (xs ++ back) ⟨{}, found, none⟩ = some (scope, s))
    (spelling : Spelling scope xs ys) {input input' : Input}
    (given : input.args = program :: (front ++ (xs ++ back)))
    (given' : input'.args = program :: (front ++ (ys ++ back))) :
    parse root p input (some found) = parse root p input' (some found) := by
  have loop : parseLoop false [root] (front ++ (xs ++ back)) ⟨{}, found, none⟩ =
      parseLoop false [root] (front ++ (ys ++ back)) ⟨{}, found, none⟩ := by
    rw [parseLoop_reach reached, parseLoop_spelling spelling,
      parseLoop_reach (reach_congr (spelling.head_ne back) reached)]
  have counted {input : Input} {rest : List Text} (args : input.args = program :: rest) :
      parse root p input (some found) = parseArgs root false (program :: rest) found none := by
    cases input with
    | span args' =>
        cases args
        rfl
    | argv argc argv =>
        have pos : ¬ argc ≤ 0 := by
          intro none_
          rw [Input.args, getFromArgv, Int.toNat_of_nonpos none_] at args
          cases args
        rw [Input.args] at args
        simp only [parse, parseInput, if_neg pos, parseImpl, args]
  rw [counted given, counted given', parseArgs, parseArgs, List.tail_cons, List.tail_cons, loop]

/-- The option `--level` or `-l`. -/
def levelOption : Argument := { longName := text "level", shortName := some (char 'l') }

/-- A subcommand with this option and the flags `-a` and `-b`. -/
def levelled : Command :=
  { name := text "run"
    args := [levelOption, { shortName := some (char 'a'), isFlag := true },
      { shortName := some (char 'b'), isFlag := true }] }

/-- A command with this subcommand. -/
def levelledTool : Command := { name := text "tool", subcommands := [levelled] }

/-- What the parser has found at the position behind the name of the subcommand. -/
def inLevelled : ParseState := { found := { commandPath := [text "run"] } }

theorem reach_inLevelled {tail : List Text} :
    reach false [levelledTool] [text "run"] tail {} =
      some ([levelledTool, levelled], inLevelled) := by
  rw [reach, if_neg (by decide), if_neg (by decide)]
  have turn_eq : turn false [levelledTool] (text "run") ([] ++ tail) {} =
      ⟨[levelledTool, levelled], { state := inLevelled }⟩ := by
    rw [turn, if_neg (by decide), if_neg (by decide)]
    rfl
  rw [turn_eq]
  rfl

/-- All three spellings behind the name of the subcommand. -/
theorem parse_spelling_levelled :
    parse levelledTool {} (.span [text "tool", text "run", text "--level=3", text "x"]) (some {}) =
        parse levelledTool {} (.span [text "tool", text "run", text "--level", text "3", text "x"])
          (some {}) ∧
      parse levelledTool {} (.span [text "tool", text "run", text "-l3"]) (some {}) =
        parse levelledTool {} (.span [text "tool", text "run", text "-l", text "3"]) (some {}) ∧
      parse levelledTool {} (.span [text "tool", text "run", text "-ab"]) (some {}) =
        parse levelledTool {} (.span [text "tool", text "run", text "-a", text "-b"])
          (some {}) := by
  refine ⟨?_, ?_, ?_⟩
  · exact @parse_spelling levelledTool {} {} (text "tool") [text "run"] _ _ [text "x"] _ _
      reach_inLevelled (.value (text "level") (text "3") levelOption (by decide) (by decide)
        (by decide) (by decide) rfl rfl (by decide)) _ _ rfl rfl
  · exact @parse_spelling levelledTool {} {} (text "tool") [text "run"] _ _ [] _ _ reach_inLevelled
      (.attached (char 'l') (text "3") levelOption (by decide) rfl rfl (by decide)) _ _ rfl rfl
  · refine @parse_spelling levelledTool {} {} (text "tool") [text "run"] _ _ [] _ _
      reach_inLevelled (.bundle (text "ab") (by decide) ?_) _ _ rfl rfl
    intro c member
    have letter : c = char 'a' ∨ c = char 'b' := by simpa [text, char] using member
    rcases letter with rfl | rfl
    · exact ⟨by decide, _, rfl, rfl, rfl⟩
    · exact ⟨by decide, _, rfl, rfl, rfl⟩

end Fpag.Arg
