import Fpag.Arg.CommandLine
import Fpag.Lib.JsonLayout

/-!
`arg::Converter`, and what is read from `Matches` through it.

`std::from_chars` reads the digits at the front of a text; the converter of an integral type takes
its answer only where nothing is left behind them. `convertIntegral_iff` says which texts have a
value then, and `getAll_eq` what the loop of `Matches::get_all` comes to. `integers_of_line` puts
them behind the parser: the numbers that are written on a command line are read back, and one that
the type cannot hold is an error and never another number.
-/

namespace Fpag.Arg

open Json (isDigit natOf decimal Whole)

/-! ## Converters -/

/-- An integral type. -/
structure Integral : Type where
  bits : Nat
  signed : Bool

/-- The values of the type. -/
def Integral.Holds (N : Integral) (n : Int) : Prop :=
  if N.signed then -2 ^ (N.bits - 1) ≤ n ∧ n < 2 ^ (N.bits - 1) else 0 ≤ n ∧ n < 2 ^ N.bits

instance (N : Integral) (n : Int) : Decidable (N.Holds n) :=
  inferInstanceAs (Decidable (ite _ _ _))

/-- What `std::from_chars` answers, with the characters behind its pointer. -/
inductive FromChars : Type
  | value (n : Int) (rest : Text)
  | invalidArgument
  | resultOutOfRange (rest : Text)

/-- `std::from_chars` for an integral type in base ten: a minus sign is read only by signed types,
and neither blanks nor a plus sign are. -/
def fromChars (N : Integral) (v : Text) : FromChars :=
  let negative := N.signed && v.head? == some (char '-')
  let body := if negative then v.tail else v
  let digits := body.takeWhile isDigit
  let rest := body.dropWhile isDigit
  if digits = [] then .invalidArgument
  else
    let n : Int := if negative then -natOf digits else natOf digits
    if N.Holds n then .value n rest else .resultOutOfRange rest

/-- `Converter<N>::from_string` of an integral type. -/
def convertIntegral (N : Integral) (v : Text) : Except GetError Int :=
  match fromChars N v with
  | .value n [] => .ok n
  | _ => .error .invalidArgument

/-- A number as the digits of a text, behind a minus sign where the type has one. -/
inductive Written (N : Integral) : Text → Int → Prop
  | plain {digits : Text} (some : digits ≠ []) (digit : ∀ b ∈ digits, isDigit b = true) :
      Written N digits (natOf digits)
  | minus {digits : Text} (signed : N.signed = true) (some : digits ≠ [])
      (digit : ∀ b ∈ digits, isDigit b = true) : Written N (char '-' :: digits) (-natOf digits)

theorem isDigit_minus : isDigit (char '-') = false := by decide

theorem takeWhile_digits {digits : Text} (digit : ∀ b ∈ digits, isDigit b = true) :
    digits.takeWhile isDigit = digits ∧ digits.dropWhile isDigit = [] :=
  ⟨List.takeWhile_eq_self_iff.mpr digit, List.dropWhile_eq_nil_iff.mpr digit⟩

/-- The end of the converter, with the digits at hand. -/
theorem convertIntegral_digits {N : Integral} {v digits rest : Text} {negative : Bool}
    (sign : (N.signed && v.head? == some (char '-')) = negative)
    (taken : (if negative then v.tail else v).takeWhile isDigit = digits)
    (left : (if negative then v.tail else v).dropWhile isDigit = rest) {n : Int}
    (is : n = if negative then -(natOf digits : Int) else natOf digits) :
    convertIntegral N v =
      if digits ≠ [] ∧ rest = [] ∧ N.Holds n then .ok n else .error .invalidArgument := by
  simp only [convertIntegral, fromChars, sign, taken, left, ← is]
  by_cases none_ : digits = []
  · simp [none_]
  by_cases holds : N.Holds n
  · cases rest <;> simp [none_, holds]
  · simp [none_, holds]

/-- What is written is read, and refused where the type does not hold it. -/
theorem convertIntegral_written {N : Integral} {v : Text} {n : Int} (written : Written N v n) :
    convertIntegral N v = if N.Holds n then .ok n else .error .invalidArgument := by
  cases written with
  | plain some_ digit =>
      have front : (N.signed && v.head? == some (char '-')) = false := by
        rw [Bool.and_eq_false_imp]
        intro _
        obtain ⟨b, digits, rfl⟩ := List.exists_cons_of_ne_nil some_
        rw [List.head?_cons, beq_eq_false_iff_ne]
        intro minus
        have isOne := digit b List.mem_cons_self
        rw [Option.some.inj minus, isDigit_minus] at isOne
        cases isOne
      obtain ⟨taken, left⟩ := takeWhile_digits digit
      rw [convertIntegral_digits front taken left rfl]
      simp [some_]
  | @minus digits signed some_ digit =>
      have front : (N.signed && (char '-' :: digits).head? == some (char '-')) = true := by
        rw [signed, List.head?_cons, beq_self_eq_true, Bool.and_self]
      obtain ⟨taken, left⟩ := takeWhile_digits digit
      rw [convertIntegral_digits front taken left rfl]
      simp [some_]

/-- The texts that have a value: digits and nothing else, behind at most a minus sign, and a number
that the type holds. -/
theorem convertIntegral_iff {N : Integral} {v : Text} {n : Int} :
    convertIntegral N v = .ok n ↔ Written N v n ∧ N.Holds n := by
  constructor
  · intro converted
    generalize sign : (N.signed && v.head? == some (char '-')) = negative
    generalize taken : (if negative then v.tail else v).takeWhile isDigit = digits
    generalize left : (if negative then v.tail else v).dropWhile isDigit = rest
    obtain ⟨m, is⟩ : ∃ m : Int, m = if negative then -(natOf digits : Int) else natOf digits :=
      ⟨_, rfl⟩
    rw [convertIntegral_digits sign taken left is] at converted
    split at converted
    · next fits =>
        obtain ⟨some_, rfl, holds⟩ := fits
        cases converted
        refine ⟨?_, holds⟩
        -- Nothing is left behind the digits, so they are the whole text behind the sign.
        have digit := List.dropWhile_eq_nil_iff.mp left
        rw [List.takeWhile_eq_self_iff.mpr digit] at taken
        cases negative with
        | false =>
            cases taken
            rw [is]
            exact .plain some_ digit
        | true =>
            rw [Bool.and_eq_true, beq_iff_eq] at sign
            obtain ⟨more, rfl⟩ := List.head?_eq_some_iff.mp sign.2
            cases taken
            rw [is]
            exact .minus sign.1 some_ digit
    · cases converted
  · rintro ⟨written, holds⟩
    rw [convertIntegral_written written, if_pos holds]

/-! ## Reading all values -/

namespace Matches

/-- The loop of `Matches::get_all<T>`. -/
def getAllLoop {T : Type} (fromString : Text → Except GetError T) (name : Text) :
    List (Text × Text) → List T → Bool → Except GetError (List T)
  | [], results, found => if found then .ok results else .error .outOfRange
  | (n, v) :: rest, results, found =>
      if n = name then
        match fromString v with
        | .error e => .error e
        | .ok value => getAllLoop fromString name rest (results ++ [value]) true
      else getAllLoop fromString name rest results found

/-- `Matches::get_all<T>`; `fromString` is `Converter<T>::from_string`. -/
def getAll {T : Type} (found : Matches) (fromString : Text → Except GetError T) (name : Text) :
    Except GetError (List T) :=
  getAllLoop fromString name found.values [] false

/-- The values that were given under a name, in their order. -/
def given (found : Matches) (name : Text) : List Text :=
  (found.values.filter fun entry => entry.1 == name).map (·.2)

variable {T : Type} {fromString : Text → Except GetError T} {name : Text}

theorem getAllLoop_eq (values : List (Text × Text)) (results : List T) (seen : Bool) :
    getAllLoop fromString name values results seen =
      match (values.filter fun entry => entry.1 == name).map (·.2) with
      | [] => if seen then .ok results else .error .outOfRange
      | texts => (texts.mapM fromString).map (results ++ ·) := by
  induction values generalizing results seen with
  | nil => rfl
  | cons entry values ih =>
      obtain ⟨n, v⟩ := entry
      by_cases same : n = name
      · rw [List.filter_cons_of_pos (by simpa using same), List.map_cons, getAllLoop, if_pos same]
        dsimp only
        rw [List.mapM_cons]
        cases fromString v with
        | error e => rfl
        | ok value =>
            dsimp only
            rw [ih]
            cases (values.filter fun entry => entry.1 == name).map (·.2) with
            | nil => rfl
            | cons text texts =>
                dsimp only
                cases List.mapM fromString (text :: texts) with
                | error e => rfl
                | ok rest => exact congrArg Except.ok (List.append_assoc _ _ _)
      · rw [List.filter_cons_of_neg (by simpa using same), getAllLoop, if_neg same, ih]

/-- All values of a name are converted, in their order, and the first that cannot be is what is
reported. -/
theorem getAll_eq (found : Matches) : found.getAll fromString name =
    if found.given name = [] then .error .outOfRange else (found.given name).mapM fromString := by
  rw [getAll, getAllLoop_eq, given]
  cases (found.values.filter fun entry => entry.1 == name).map (·.2) with
  | nil => rfl
  | cons text texts =>
      dsimp only
      rw [if_neg (List.cons_ne_nil _ _)]
      cases List.mapM fromString (text :: texts) <;> rfl

theorem first_eq (found : Matches) : found.first name = (found.given name).head? := by
  rw [first, given, List.head?_map, List.head?_filter]

end Matches

/-! ## Numbers on a command line -/

/-- A number as a user writes it. -/
def signedDecimal : Int → Text
  | .ofNat n => decimal n
  | .negSucc n => char '-' :: decimal (n + 1)

/-- A number comes back exactly if the type holds it. -/
theorem convertIntegral_decimal (N : Integral) (n : Int) :
    convertIntegral N (signedDecimal n) = if N.Holds n then .ok n else .error .invalidArgument := by
  cases n with
  | ofNat n =>
      have whole := Json.whole_decimal n
      have written : Written N (decimal n) (natOf (decimal n)) :=
        .plain whole.nonempty whole.digit
      rw [Json.natOf_decimal] at written
      exact convertIntegral_written written
  | negSucc n =>
      have whole := Json.whole_decimal (n + 1)
      by_cases signed : N.signed = true
      · have written : Written N (char '-' :: decimal (n + 1)) (-natOf (decimal (n + 1))) :=
          .minus signed whole.nonempty whole.digit
        rw [Json.natOf_decimal] at written
        exact convertIntegral_written written
      · -- An unsigned type reads no digit in front of the minus sign.
        have unsigned := (Bool.not_eq_true _).mp signed
        have below : ¬ N.Holds (.negSucc n) := by
          rw [Integral.Holds, if_neg signed]
          exact fun fits => absurd fits.1 (by omega)
        have taken : (char '-' :: decimal (n + 1)).takeWhile isDigit = [] :=
          List.takeWhile_cons_of_neg (by decide)
        rw [signedDecimal, if_neg below, @convertIntegral_digits _ _ _ _ false
          (by rw [unsigned, Bool.false_and]) taken rfl _ rfl, if_neg fun fits => fits.1 rfl]

theorem mapM_decimal (N : Integral) (ns : List Int) :
    (ns.map signedDecimal).mapM (convertIntegral N) =
      if ∀ n ∈ ns, N.Holds n then .ok ns else .error .invalidArgument := by
  induction ns with
  | nil => rfl
  | cons n ns ih =>
      rw [List.map_cons, List.mapM_cons, convertIntegral_decimal, ih]
      by_cases holds : N.Holds n
      · by_cases all : ∀ n ∈ ns, N.Holds n
        · rw [if_pos holds, if_pos all, if_pos (List.forall_mem_cons.mpr ⟨holds, all⟩)]
          rfl
        · rw [if_pos holds, if_neg all, if_neg fun every => all (List.forall_mem_cons.mp every).2]
          rfl
      · rw [if_neg holds, if_neg fun every => holds (List.forall_mem_cons.mp every).1]
        rfl

/-- For every command tree and every line that leaves nothing out: the numbers that an option was
given on it are what is read for the option, all of them or the first one; a number that the type
does not hold is an error. -/
theorem integers_of_line {root : Command} {scope : List Command} {line : List Item}
    {found : Matches} (means : Means [root] line found scope) (behind : Option (List Text))
    (p : Parser) (program : Text) {input : Input}
    (given : input.args = program :: render line behind)
    (complete : missing scope (lineMatches found behind) = []) (N : Integral) (name : Text)
    (ns : List Int) (numbers : found.given name = ns.map signedDecimal) :
    ∃ result, (tryParse root p input).1 = .ok result ∧
      result.getAll (convertIntegral N) name =
        (if ns = [] then .error .outOfRange
          else if ∀ n ∈ ns, N.Holds n then .ok ns else .error .invalidArgument) ∧
      result.get (convertIntegral N) name =
        match ns with
        | [] => .error .outOfRange
        | n :: _ => if N.Holds n then .ok n else .error .invalidArgument := by
  have parsed := parse_line means behind p program given
  simp only [complete, if_true, List.map_nil] at parsed
  have same : (lineMatches found behind).given name = ns.map signedDecimal := numbers
  refine ⟨lineMatches found behind, ?_, ?_, ?_⟩
  · simp only [tryParse, parsed, Option.getD_some]
  · rw [Matches.getAll_eq, same, mapM_decimal]
    exact if_congr List.map_eq_nil_iff rfl rfl
  · rw [Matches.get, Matches.first_eq, same]
    cases ns with
    | nil => rfl
    | cons n ns => exact convertIntegral_decimal N n

/-- Two levels, of which one does not fit eight bits. -/
theorem integers_of_line_levels : ∃ result,
    (tryParse lineTool {} (.span [text "tool", text "--level=-7", text "-l", text "200"])).1 =
        .ok result ∧
      result.getAll (convertIntegral ⟨16, true⟩) (text "level") = .ok [-7, 200] ∧
      result.get (convertIntegral ⟨8, true⟩) (text "level") = .ok (-7) := by
  have level : KnownAs (·.findArgByLong (text "level")) False ([] ++ [lineTool]) requiredLevel :=
    .here rfl
  have short : ShortKnown ([] ++ [lineTool]) (char 'l') requiredLevel := .here rfl
  have means : Means [lineTool] [.option (text "level") true (text "-7"),
      .bundle [] (some ⟨char 'l', false, text "200"⟩)] _ _ :=
    .cons (.joined (by decide) level rfl (.inl rfl)) (.cons
      (.bundle rfl .nil (.some short rfl (by decide) (.inl rfl))) .nil)
  have given : (Input.span [text "tool", text "--level=-7", text "-l", text "200"]).args =
      text "tool" :: render [.option (text "level") true (text "-7"),
        .bundle [] (some ⟨char 'l', false, text "200"⟩)] none := rfl
  obtain ⟨result, parsed, all, -⟩ :=
    integers_of_line means none {} (text "tool") given rfl ⟨16, true⟩ (text "level") [-7, 200] rfl
  obtain ⟨result', parsed', -, first⟩ :=
    integers_of_line means none {} (text "tool") given rfl ⟨8, true⟩ (text "level") [-7, 200] rfl
  cases parsed.symm.trans parsed'
  exact ⟨result, parsed, all, first⟩

end Fpag.Arg
