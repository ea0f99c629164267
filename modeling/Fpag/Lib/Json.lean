import Mathlib.Tactic.Ring
import Mathlib.Data.List.Basic
import Mathlib.Data.List.TakeWhile

/-!
JSON texts.

`parse` reads a whole text as one value, byte by byte. A string is first cut at the quote
that closes it (`body`) and then decoded (`decode`); a number is kept as a mantissa and a
power of ten, so nothing is rounded; the members of an object are kept in their order, with
repeated names. An escape that stands for half of a surrogate pair is refused, since no
character is meant by it.

Bytes that stand for themselves between quotes are `Plain`, and no others read back as
themselves (`plain_of_string`). A text holds no zero byte (`nonzero_of_parse`).
-/

namespace Fpag.Json

/-- A value; a number is `mantissa * 10 ^ exponent`. -/
inductive Value : Type
  | null
  | bool (value : Bool)
  | number (mantissa exponent : Int)
  | string (bytes : List UInt8)
  | array (items : List Value)
  | object (members : List (List UInt8 × Value))

/-- A text in UTF-8. -/
def Utf8 (bytes : List UInt8) : Prop :=
  ∃ chars : List Char, bytes = chars.flatMap String.utf8EncodeChar

/-! ## Strings -/

def hexDigit (b : UInt8) : Option Nat :=
  if 0x30 ≤ b ∧ b ≤ 0x39 then some (b.toNat - 0x30)
  else if 0x41 ≤ b ∧ b ≤ 0x46 then some (b.toNat - 0x37)
  else if 0x61 ≤ b ∧ b ≤ 0x66 then some (b.toNat - 0x57)
  else none

/-- Four hexadecimal digits. -/
def hex4 : List UInt8 → Option (Nat × List UInt8)
  | a :: b :: c :: d :: rest =>
      match hexDigit a, hexDigit b, hexDigit c, hexDigit d with
      | some a, some b, some c, some d => some (((a * 16 + b) * 16 + c) * 16 + d, rest)
      | _, _, _, _ => none
  | _ => none

/-- What follows `\u`: a character, or two halves of a surrogate pair. -/
def unicode (bytes : List UInt8) : Option (List UInt8 × List UInt8) :=
  match hex4 bytes with
  | none => none
  | some (high, rest) =>
      if high < 0xD800 ∨ 0xE000 ≤ high then some (String.utf8EncodeChar (Char.ofNat high), rest)
      else if 0xDC00 ≤ high then none
      else
        match rest with
        | a :: b :: rest =>
            if a = 0x5C ∧ b = 0x75 then
              match hex4 rest with
              | none => none
              | some (low, rest) =>
                  if 0xDC00 ≤ low ∧ low < 0xE000 then
                    some (String.utf8EncodeChar
                      (Char.ofNat (0x10000 + (high - 0xD800) * 0x400 + (low - 0xDC00))), rest)
                  else none
            else none
        | _ => none

/-- What follows a backslash. -/
def escape : List UInt8 → Option (List UInt8 × List UInt8)
  | [] => none
  | b :: rest =>
      if b = 0x22 ∨ b = 0x5C ∨ b = 0x2F then some ([b], rest)
      else if b = 0x62 then some ([0x08], rest)
      else if b = 0x66 then some ([0x0C], rest)
      else if b = 0x6E then some ([0x0A], rest)
      else if b = 0x72 then some ([0x0D], rest)
      else if b = 0x74 then some ([0x09], rest)
      else if b = 0x75 then unicode rest
      else none

/-- The characters between two quotes. -/
def decode : Nat → List UInt8 → Option (List UInt8)
  | _, [] => some []
  | 0, _ :: _ => none
  | fuel + 1, b :: rest =>
      if b = 0x5C then
        match escape rest with
        | none => none
        | some (out, rest) => (decode fuel rest).map fun more => out ++ more
      else if b < 0x20 then none
      else (decode fuel rest).map fun more => b :: more

/-- What stands in front of the closing quote, and what stands behind it; `escaped` says that a
backslash stands right in front. -/
def body : (escaped : Bool) → List UInt8 → Option (List UInt8 × List UInt8)
  | _, [] => none
  | true, b :: rest => (body false rest).map fun found => (b :: found.1, found.2)
  | false, b :: rest =>
      if b = 0x22 then some ([], rest)
      else (body (b == 0x5C) rest).map fun found => (b :: found.1, found.2)

/-- A string, behind its opening quote. -/
def string (bytes : List UInt8) : Option (List UInt8 × List UInt8) :=
  match body false bytes with
  | none => none
  | some (raw, rest) => (decode raw.length raw).map fun out => (out, rest)

/-- Bytes that stand for themselves between quotes. -/
def Plain (bytes : List UInt8) : Prop := ∀ b ∈ bytes, b ≠ 0x22 ∧ b ≠ 0x5C ∧ ¬ b < 0x20

instance (bytes : List UInt8) : Decidable (Plain bytes) :=
  List.decidableBAll (fun b => b ≠ 0x22 ∧ b ≠ 0x5C ∧ ¬ b < 0x20) bytes

/-! ## Numbers -/

def isDigit (b : UInt8) : Bool := decide (0x30 ≤ b ∧ b ≤ 0x39)

/-- The number that digits write. -/
def natOf (digits : List UInt8) : Nat := digits.foldl (fun n d => 10 * n + (d.toNat - 0x30)) 0

/-- The digits behind a decimal point, if there is one. -/
def fraction : List UInt8 → Option (List UInt8 × List UInt8)
  | [] => some ([], [])
  | b :: rest =>
      if b = 0x2E then
        if rest.takeWhile isDigit = [] then none
        else some (rest.takeWhile isDigit, rest.dropWhile isDigit)
      else some ([], b :: rest)

/-- The digits of an exponent, behind its sign. -/
def magnitude (negative : Bool) (bytes : List UInt8) : Option (Int × List UInt8) :=
  if bytes.takeWhile isDigit = [] then none
  else
    let size : Int := natOf (bytes.takeWhile isDigit)
    some (if negative then -size else size, bytes.dropWhile isDigit)

/-- An exponent, if there is one. -/
def exponent : List UInt8 → Option (Int × List UInt8)
  | [] => some (0, [])
  | b :: rest =>
      if b = 0x65 ∨ b = 0x45 then
        match rest with
        | [] => none
        | c :: digits =>
            if c = 0x2D then magnitude true digits
            else if c = 0x2B then magnitude false digits
            else magnitude false (c :: digits)
      else some (0, b :: rest)

/-- A number behind its sign; it has no leading zeros. -/
def unsigned (negative : Bool) (bytes : List UInt8) : Option (Value × List UInt8) :=
  let whole := bytes.takeWhile isDigit
  if whole = [] ∨ (whole.head? = some 0x30 ∧ 1 < whole.length) then none
  else
    match fraction (bytes.dropWhile isDigit) with
    | none => none
    | some (part, rest) =>
        match exponent rest with
        | none => none
        | some (shift, rest) =>
            let mantissa : Int := natOf (whole ++ part)
            some (.number (if negative then -mantissa else mantissa) (shift - part.length), rest)

def number : List UInt8 → Option (Value × List UInt8)
  | [] => none
  | b :: rest => if b = 0x2D then unsigned true rest else unsigned false (b :: rest)

/-! ## Values -/

def isSpace (b : UInt8) : Bool := decide (b = 0x20 ∨ b = 0x09 ∨ b = 0x0A ∨ b = 0x0D)

def skip (bytes : List UInt8) : List UInt8 := bytes.dropWhile isSpace

/-- The byte `b` behind white space. -/
def expect (b : UInt8) (bytes : List UInt8) : Option (List UInt8) :=
  match skip bytes with
  | [] => none
  | c :: rest => if c = b then some rest else none

/-- `null`, `true`, `false` or a number. -/
def scalar (bytes : List UInt8) : Option (Value × List UInt8) :=
  if [0x6E, 0x75, 0x6C, 0x6C].isPrefixOf bytes then some (.null, bytes.drop 4)
  else if [0x74, 0x72, 0x75, 0x65].isPrefixOf bytes then some (.bool true, bytes.drop 4)
  else if [0x66, 0x61, 0x6C, 0x73, 0x65].isPrefixOf bytes then some (.bool false, bytes.drop 5)
  else number bytes

mutual

/-- A value; `fuel` bounds how deep and how long it can be. -/
def value : (fuel : Nat) → List UInt8 → Option (Value × List UInt8)
  | 0, _ => none
  | fuel + 1, bytes =>
      match expect 0x7B bytes with -- `{`
      | some rest =>
          match expect 0x7D rest with -- `}`
          | some rest => some (.object [], rest)
          | none => (members fuel rest).map fun found => (.object found.1, found.2)
      | none =>
          match expect 0x5B bytes with -- `[`
          | some rest =>
              match expect 0x5D rest with -- `]`
              | some rest => some (.array [], rest)
              | none => (items fuel rest).map fun found => (.array found.1, found.2)
          | none =>
              match expect 0x22 bytes with -- `"`
              | some rest => (string rest).map fun found => (.string found.1, found.2)
              | none => scalar (skip bytes)

/-- One or more members and the brace behind them. -/
def members : (fuel : Nat) → List UInt8 → Option (List (List UInt8 × Value) × List UInt8)
  | 0, _ => none
  | fuel + 1, bytes =>
      match (expect 0x22 bytes).bind string with
      | none => none
      | some (key, rest) =>
          match (expect 0x3A rest).bind (value fuel) with -- `:`
          | none => none
          | some (v, rest) =>
              match expect 0x2C rest with -- `,`
              | some rest => (members fuel rest).map fun found => ((key, v) :: found.1, found.2)
              | none => (expect 0x7D rest).map fun rest => ([(key, v)], rest)

/-- One or more items and the bracket behind them. -/
def items : (fuel : Nat) → List UInt8 → Option (List Value × List UInt8)
  | 0, _ => none
  | fuel + 1, bytes =>
      match value fuel bytes with
      | none => none
      | some (v, rest) =>
          match expect 0x2C rest with
          | some rest => (items fuel rest).map fun found => (v :: found.1, found.2)
          | none => (expect 0x5D rest).map fun rest => ([v], rest)

end

/-- A text that is one value. -/
def parse (bytes : List UInt8) : Option Value :=
  match value (bytes.length + 1) bytes with
  | none => none
  | some (v, rest) => if skip rest = [] then some v else none

/-- The bytes are a JSON text of the value. -/
def Reads (bytes : List UInt8) (v : Value) : Prop := Utf8 bytes ∧ parse bytes = some v

/-- The only member of that name. -/
def sole (key : List UInt8) (members : List (List UInt8 × Value)) : Option Value :=
  match members.filter fun m => m.1 = key with
  | [m] => some m.2
  | _ => none

/-! ## Reading strings -/

theorem hexDigit_ne_quote {b : UInt8} {n : Nat} (digit : hexDigit b = some n) : b ≠ 0x22 := by
  rintro rfl
  cases digit

theorem hex4_some {bytes rest : List UInt8} {n : Nat} (read : hex4 bytes = some (n, rest)) :
    ∃ a b c d, bytes = a :: b :: c :: d :: rest ∧ (hexDigit a).isSome ∧ (hexDigit b).isSome ∧
      (hexDigit c).isSome ∧ (hexDigit d).isSome := by
  unfold hex4 at read
  split at read
  · next a b c d rest' =>
      split at read
      · next ha hb hc hd =>
          cases read
          exact ⟨a, b, c, d, rfl, by rw [ha]; rfl, by rw [hb]; rfl, by rw [hc]; rfl,
            by rw [hd]; rfl⟩
      · cases read
  · cases read

/-- What an escape may do to a text: it does not grow, and no quote is lost. -/
structure Shrinks (bytes out rest : List UInt8) : Prop where
  length : out.length + rest.length ≤ bytes.length
  quotes : bytes.count 0x22 ≤ out.count 0x22 + rest.count 0x22

theorem hex4_quotes {bytes rest : List UInt8} {n : Nat} (read : hex4 bytes = some (n, rest)) :
    bytes.length = rest.length + 4 ∧ bytes.count 0x22 = rest.count 0x22 := by
  obtain ⟨a, b, c, d, rfl, ha, hb, hc, hd⟩ := hex4_some read
  have plain : ∀ {b : UInt8}, (hexDigit b).isSome → b ≠ 0x22 := fun digit =>
    hexDigit_ne_quote (Option.some_get digit).symm
  rw [List.count_cons_of_ne (plain ha), List.count_cons_of_ne (plain hb),
    List.count_cons_of_ne (plain hc), List.count_cons_of_ne (plain hd)]
  exact ⟨rfl, rfl⟩

theorem length_utf8EncodeChar_le (c : Char) : (String.utf8EncodeChar c).length ≤ 4 := by
  rw [String.length_utf8EncodeChar]
  exact Char.utf8Size_le_four c

theorem unicode_shrinks {bytes out rest : List UInt8} (read : unicode bytes = some (out, rest)) :
    Shrinks bytes out rest := by
  unfold unicode at read
  split at read
  · cases read
  next high behind first =>
  obtain ⟨length, quotes⟩ := hex4_quotes first
  split at read
  · cases read
    have := length_utf8EncodeChar_le (Char.ofNat high)
    exact ⟨by omega, by omega⟩
  split at read
  · cases read
  split at read
  · next a b more =>
      split at read
      · next pair =>
          split at read
          · cases read
          next low last second =>
          obtain ⟨length', quotes'⟩ := hex4_quotes second
          obtain ⟨rfl, rfl⟩ := pair
          split at read
          · obtain ⟨rfl, rfl⟩ := Prod.mk.inj (Option.some.inj read)
            have small := length_utf8EncodeChar_le
              (Char.ofNat (0x10000 + (high - 0xD800) * 0x400 + (low - 0xDC00)))
            generalize String.utf8EncodeChar _ = out at small ⊢
            rw [List.count_cons_of_ne (by decide), List.count_cons_of_ne (by decide)] at quotes
            rw [List.length_cons, List.length_cons] at length
            exact ⟨by omega, by omega⟩
          · cases read
      · cases read
  · cases read

theorem escape_shrinks {bytes out rest : List UInt8} (read : escape bytes = some (out, rest)) :
    Shrinks bytes out rest := by
  unfold escape at read
  split at read
  · cases read
  next b behind =>
  -- Every short escape is one byte for one byte, and only a quote stands for a quote.
  have short : ∀ c : UInt8, b = c ∨ b ≠ 0x22 → some ([c], behind) = some (out, rest) →
      Shrinks (b :: behind) out rest := by
    intro c quote same
    cases same
    refine ⟨by simp; omega, ?_⟩
    rcases quote with rfl | other
    · rw [List.count_cons, List.count_singleton]
      omega
    · rw [List.count_cons_of_ne other]
      omega
  split at read
  · exact short b (Or.inl rfl) read
  next other =>
  have unquoted : b ≠ 0x22 := fun quote => other (Or.inl quote)
  split at read
  · exact short _ (Or.inr unquoted) read
  split at read
  · exact short _ (Or.inr unquoted) read
  split at read
  · exact short _ (Or.inr unquoted) read
  split at read
  · exact short _ (Or.inr unquoted) read
  split at read
  · exact short _ (Or.inr unquoted) read
  split at read
  · have shrinks := unicode_shrinks read
    exact ⟨Nat.le_succ_of_le shrinks.length, by
      rw [List.count_cons_of_ne unquoted]
      exact shrinks.quotes⟩
  · cases read

/-- Decoding does not lose a quote and shortens every text that has an escape. -/
theorem decode_shrinks {fuel : Nat} {raw out : List UInt8} (read : decode fuel raw = some out) :
    out.length ≤ raw.length ∧ raw.count 0x22 ≤ out.count 0x22 ∧
      (out.length = raw.length → ∀ b ∈ raw, b ≠ 0x5C ∧ ¬ b < 0x20) := by
  induction fuel generalizing raw out with
  | zero =>
      cases raw with
      | nil =>
          cases read
          exact ⟨Nat.le_refl _, Nat.le_refl _, fun _ b there => nomatch there⟩
      | cons b rest => cases read
  | succ fuel ih =>
      cases raw with
      | nil =>
          cases read
          exact ⟨Nat.le_refl _, Nat.le_refl _, fun _ b there => nomatch there⟩
      | cons b rest =>
          rw [decode] at read
          split at read
          · next backslash =>
              split at read
              · cases read
              next front behind escaped =>
              obtain ⟨more, decoded, rfl⟩ := Option.map_eq_some_iff.mp read
              obtain ⟨length, quotes⟩ := escape_shrinks escaped
              obtain ⟨length', quotes', -⟩ := ih decoded
              subst backslash
              rw [List.count_cons_of_ne (by decide), List.count_append, List.length_append,
                List.length_cons]
              exact ⟨by omega, by omega, fun same => by omega⟩
          next noEscape =>
          split at read
          · cases read
          next noControl =>
          obtain ⟨more, decoded, rfl⟩ := Option.map_eq_some_iff.mp read
          obtain ⟨length, quotes, same⟩ := ih decoded
          rw [List.count_cons, List.count_cons, List.length_cons, List.length_cons]
          refine ⟨by omega, by omega, fun eq c there => ?_⟩
          rcases List.mem_cons.mp there with rfl | there
          · exact ⟨noEscape, noControl⟩
          · exact same (by omega) c there

theorem decode_plain {fuel : Nat} {bytes : List UInt8} (enough : bytes.length ≤ fuel)
    (plain : ∀ b ∈ bytes, b ≠ 0x5C ∧ ¬ b < 0x20) : decode fuel bytes = some bytes := by
  induction fuel generalizing bytes with
  | zero =>
      rw [List.length_eq_zero_iff.mp (Nat.le_zero.mp enough)]
      rfl
  | succ fuel ih =>
      cases bytes with
      | nil => rfl
      | cons b rest =>
          obtain ⟨noEscape, noControl⟩ := plain b List.mem_cons_self
          rw [decode, if_neg noEscape, if_neg noControl,
            ih (Nat.le_of_succ_le_succ enough) fun c there =>
              plain c (List.mem_cons_of_mem _ there)]
          rfl

theorem body_eq {escaped : Bool} {bytes raw rest : List UInt8}
    (found : body escaped bytes = some (raw, rest)) : bytes = raw ++ 0x22 :: rest := by
  induction bytes generalizing escaped raw with
  | nil => cases escaped <;> cases found
  | cons b bytes ih =>
      cases escaped with
      | true =>
          obtain ⟨⟨raw', rest'⟩, inner, same⟩ := Option.map_eq_some_iff.mp found
          cases same
          rw [ih inner]
          rfl
      | false =>
          rw [body] at found
          split at found
          · next quote =>
              cases found
              rw [quote]
              rfl
          · obtain ⟨⟨raw', rest'⟩, inner, same⟩ := Option.map_eq_some_iff.mp found
            cases same
            rw [ih inner]
            rfl

/-- Without a backslash in front there is no quote inside a string. -/
theorem body_noQuote {bytes raw rest : List UInt8} (found : body false bytes = some (raw, rest))
    (noEscape : ∀ b ∈ raw, b ≠ 0x5C) : ∀ b ∈ raw, b ≠ 0x22 := by
  induction bytes generalizing raw with
  | nil => cases found
  | cons b bytes ih =>
      rw [body] at found
      split at found
      · cases found
        exact fun c there => nomatch there
      · next other =>
          obtain ⟨⟨raw', rest'⟩, inner, same⟩ := Option.map_eq_some_iff.mp found
          cases same
          have unescaped : (b == 0x5C) = false := beq_false_of_ne (noEscape b List.mem_cons_self)
          rw [unescaped] at inner
          intro c there
          rcases List.mem_cons.mp there with rfl | there
          · exact other
          · exact ih inner (fun d inside => noEscape d (List.mem_cons_of_mem _ inside)) c there

theorem body_plain {bytes tail : List UInt8} (plain : ∀ b ∈ bytes, b ≠ 0x22 ∧ b ≠ 0x5C) :
    body false (bytes ++ 0x22 :: tail) = some (bytes, tail) := by
  induction bytes with
  | nil => rfl
  | cons b bytes ih =>
      obtain ⟨noQuote, noEscape⟩ := plain b List.mem_cons_self
      rw [List.cons_append, body, if_neg noQuote, beq_false_of_ne noEscape,
        ih fun c there => plain c (List.mem_cons_of_mem _ there)]
      rfl

/-- Plain bytes between quotes are a string of them. -/
theorem string_plain {bytes : List UInt8} (plain : Plain bytes) (tail : List UInt8) :
    string (bytes ++ 0x22 :: tail) = some (bytes, tail) := by
  rw [string, body_plain fun b there => ⟨(plain b there).1, (plain b there).2.1⟩]
  simp only [decode_plain (Nat.le_refl _) fun b there => (plain b there).2, Option.map_some]

/-- Bytes between quotes are a string of themselves only if they are plain: a text that ended
behind them would hold one quote more than what it stands for. -/
theorem plain_of_string {bytes tail rest : List UInt8}
    (read : string (bytes ++ 0x22 :: tail) = some (bytes, rest)) : Plain bytes := by
  rw [string] at read
  split at read
  · cases read
  next raw behind found =>
  obtain ⟨out, decoded, same⟩ := Option.map_eq_some_iff.mp read
  obtain ⟨rfl, rfl⟩ := Prod.mk.inj same
  obtain ⟨shorter, quotes, unchanged⟩ := decode_shrinks decoded
  have split := body_eq found
  by_cases longer : out.length < raw.length
  · -- The text goes on behind the quote that follows the bytes.
    have front : out ++ [0x22] <+: raw := by
      have inside : out ++ [0x22] <+: raw ++ 0x22 :: behind := by
        rw [← split]
        exact ⟨tail, by simp⟩
      exact List.prefix_of_prefix_length_le inside (List.prefix_append _ _) (by simp; omega)
    have more := front.sublist.count_le 0x22
    rw [List.count_append, List.count_singleton_self] at more
    omega
  · have length : out.length = raw.length := by omega
    obtain ⟨rfl, -⟩ := List.append_inj split length
    have unescaped := unchanged rfl
    have unquoted := body_noQuote found fun b there => (unescaped b there).1
    exact fun b there => ⟨unquoted b there, unescaped b there⟩

/-! ## No text holds a zero byte -/

/-- What stands in front of the rest holds no zero byte. -/
def Consumes (bytes rest : List UInt8) : Prop := ∃ used, bytes = used ++ rest ∧ (0 : UInt8) ∉ used

theorem Consumes.refl (bytes : List UInt8) : Consumes bytes bytes :=
  ⟨[], rfl, List.not_mem_nil⟩

theorem Consumes.trans {bytes middle rest : List UInt8} (first : Consumes bytes middle)
    (second : Consumes middle rest) : Consumes bytes rest := by
  obtain ⟨used, rfl, nonzero⟩ := first
  obtain ⟨more, rfl, nonzero'⟩ := second
  refine ⟨used ++ more, (List.append_assoc ..).symm, fun zero => ?_⟩
  exact (List.mem_append.mp zero).elim nonzero nonzero'

theorem Consumes.cons {b : UInt8} {bytes rest : List UInt8} (nonzero : b ≠ 0)
    (more : Consumes bytes rest) : Consumes (b :: bytes) rest := by
  obtain ⟨used, rfl, nonzero'⟩ := more
  refine ⟨b :: used, rfl, fun zero => ?_⟩
  exact (List.mem_cons.mp zero).elim (fun same => nonzero same.symm) nonzero'

theorem dropWhile_consumes {p : UInt8 → Bool} (zero : p 0 = false) (bytes : List UInt8) :
    Consumes bytes (bytes.dropWhile p) := by
  refine ⟨bytes.takeWhile p, (List.takeWhile_append_dropWhile ..).symm, fun there => ?_⟩
  rw [List.mem_takeWhile_imp there] at zero
  cases zero

theorem skip_consumes (bytes : List UInt8) : Consumes bytes (skip bytes) :=
  dropWhile_consumes rfl bytes

theorem expect_consumes {b : UInt8} {bytes rest : List UInt8} (nonzero : b ≠ 0)
    (found : expect b bytes = some rest) : Consumes bytes rest := by
  rw [expect] at found
  refine (skip_consumes bytes).trans ?_
  split at found
  · cases found
  next c behind split =>
  split at found
  · next same =>
      cases found
      rw [split, same]
      exact .cons nonzero (.refl _)
  · cases found

theorem hex4_consumes {bytes rest : List UInt8} {n : Nat} (read : hex4 bytes = some (n, rest)) :
    Consumes bytes rest := by
  obtain ⟨a, b, c, d, rfl, ha, hb, hc, hd⟩ := hex4_some read
  have nonzero : ∀ {b : UInt8}, (hexDigit b).isSome → b ≠ 0 := by
    rintro b digit rfl
    cases digit
  exact .cons (nonzero ha) (.cons (nonzero hb) (.cons (nonzero hc) (.cons (nonzero hd) (.refl _))))

theorem unicode_consumes {bytes out rest : List UInt8} (read : unicode bytes = some (out, rest)) :
    Consumes bytes rest := by
  unfold unicode at read
  split at read
  · cases read
  next high behind first =>
  refine (hex4_consumes first).trans ?_
  split at read
  · cases read
    exact .refl _
  split at read
  · cases read
  split at read
  · next a b more =>
      split at read
      · next pair =>
          split at read
          · cases read
          next low last second =>
          obtain ⟨rfl, rfl⟩ := pair
          refine .cons (by decide) (.cons (by decide) ((hex4_consumes second).trans ?_))
          split at read
          · obtain ⟨-, rfl⟩ := Prod.mk.inj (Option.some.inj read)
            exact .refl _
          · cases read
      · cases read
  · cases read

theorem escape_consumes {bytes out rest : List UInt8} (read : escape bytes = some (out, rest)) :
    Consumes bytes rest := by
  unfold escape at read
  split at read
  · cases read
  next b behind =>
  by_cases zero : b = 0
  · subst zero
    cases read
  refine .cons zero ?_
  have short : ∀ c : List UInt8, some (c, behind) = some (out, rest) → Consumes behind rest := by
    intro c same
    cases same
    exact .refl _
  split at read
  · exact short _ read
  split at read
  · exact short _ read
  split at read
  · exact short _ read
  split at read
  · exact short _ read
  split at read
  · exact short _ read
  split at read
  · exact short _ read
  split at read
  · exact unicode_consumes read
  · cases read

theorem decode_nonzero {fuel : Nat} {raw out : List UInt8} (read : decode fuel raw = some out) :
    (0 : UInt8) ∉ raw := by
  induction fuel generalizing raw out with
  | zero =>
      cases raw with
      | nil => exact List.not_mem_nil
      | cons b rest => cases read
  | succ fuel ih =>
      cases raw with
      | nil => exact List.not_mem_nil
      | cons b rest =>
          rw [decode] at read
          intro zero
          split at read
          · next backslash =>
              split at read
              · cases read
              next front behind escaped =>
              obtain ⟨more, decoded, -⟩ := Option.map_eq_some_iff.mp read
              obtain ⟨used, rfl, nonzero⟩ := escape_consumes escaped
              rcases List.mem_cons.mp zero with same | inside
              · rw [backslash] at same
                cases same
              · exact (List.mem_append.mp inside).elim nonzero (ih decoded)
          split at read
          · cases read
          next noControl =>
          obtain ⟨more, decoded, -⟩ := Option.map_eq_some_iff.mp read
          rcases List.mem_cons.mp zero with same | inside
          · rw [← same] at noControl
            exact noControl (by decide)
          · exact ih decoded inside

theorem string_consumes {bytes out rest : List UInt8} (read : string bytes = some (out, rest)) :
    Consumes bytes rest := by
  rw [string] at read
  split at read
  · cases read
  next raw behind found =>
  obtain ⟨out', decoded, same⟩ := Option.map_eq_some_iff.mp read
  obtain ⟨rfl, rfl⟩ := Prod.mk.inj same
  rw [body_eq found]
  refine ⟨raw ++ [0x22], by simp, fun zero => ?_⟩
  rcases List.mem_append.mp zero with inside | quote
  · exact decode_nonzero decoded inside
  · exact absurd quote (by decide)

theorem fraction_consumes {bytes part rest : List UInt8}
    (read : fraction bytes = some (part, rest)) : Consumes bytes rest := by
  unfold fraction at read
  split at read
  · cases read
    exact .refl _
  next b behind =>
  split at read
  · next point =>
      split at read
      · cases read
      · cases read
        exact .cons (by rw [point]; decide) (dropWhile_consumes rfl _)
  · cases read
    exact .refl _

theorem magnitude_consumes {negative : Bool} {bytes rest : List UInt8} {shift : Int}
    (read : magnitude negative bytes = some (shift, rest)) : Consumes bytes rest := by
  unfold magnitude at read
  split at read
  · cases read
  · obtain ⟨-, rfl⟩ := Prod.mk.inj (Option.some.inj read)
    exact dropWhile_consumes rfl _

theorem exponent_consumes {bytes rest : List UInt8} {shift : Int}
    (read : exponent bytes = some (shift, rest)) : Consumes bytes rest := by
  unfold exponent at read
  split at read
  · cases read
    exact .refl _
  next b behind =>
  split at read
  · next mark =>
      refine .cons (by rintro rfl; revert mark; decide) ?_
      split at read
      · cases read
      next c digits =>
      split at read
      · next minus => exact .cons (by rw [minus]; decide) (magnitude_consumes read)
      split at read
      · next plus => exact .cons (by rw [plus]; decide) (magnitude_consumes read)
      · exact magnitude_consumes read
  · cases read
    exact .refl _

theorem unsigned_consumes {negative : Bool} {bytes rest : List UInt8} {v : Value}
    (read : unsigned negative bytes = some (v, rest)) : Consumes bytes rest := by
  unfold unsigned at read
  refine (@dropWhile_consumes isDigit rfl bytes).trans ?_
  dsimp only at read
  split at read
  · cases read
  split at read
  · cases read
  next part behind first =>
  split at read
  · cases read
  next shift last second =>
  obtain ⟨-, rfl⟩ := Prod.mk.inj (Option.some.inj read)
  exact (fraction_consumes first).trans (exponent_consumes second)

theorem drop_consumes {word bytes : List UInt8} (front : word.isPrefixOf bytes = true)
    (nonzero : (0 : UInt8) ∉ word) : Consumes bytes (bytes.drop word.length) := by
  obtain ⟨rest, rfl⟩ := List.isPrefixOf_iff_prefix.mp front
  exact ⟨word, by rw [List.drop_left], nonzero⟩

theorem scalar_consumes {bytes rest : List UInt8} {v : Value}
    (read : scalar bytes = some (v, rest)) : Consumes bytes rest := by
  unfold scalar at read
  split at read
  · next front =>
      cases read
      exact drop_consumes front (by decide)
  split at read
  · next front =>
      cases read
      exact drop_consumes front (by decide)
  split at read
  · next front =>
      cases read
      exact drop_consumes front (by decide)
  unfold number at read
  split at read
  · cases read
  split at read
  · next minus => exact .cons (by rw [minus]; decide) (unsigned_consumes read)
  · exact unsigned_consumes read

/-- What a reader of values takes in holds no zero byte. -/
theorem consumes (fuel : Nat) :
    (∀ {bytes v rest}, value fuel bytes = some (v, rest) → Consumes bytes rest) ∧
    (∀ {bytes ms rest}, members fuel bytes = some (ms, rest) → Consumes bytes rest) ∧
    (∀ {bytes vs rest}, items fuel bytes = some (vs, rest) → Consumes bytes rest) := by
  induction fuel with
  | zero =>
      refine ⟨fun read => ?_, fun read => ?_, fun read => ?_⟩
      · simp only [value] at read
        cases read
      · simp only [members] at read
        cases read
      · simp only [items] at read
        cases read
  | succ fuel ih =>
      obtain ⟨values, memberss, itemss⟩ := ih
      refine ⟨fun {bytes v rest} read => ?_, fun {bytes ms rest} read => ?_,
        fun {bytes vs rest} read => ?_⟩
      · rw [value] at read
        split at read
        · next behind brace =>
            refine (expect_consumes (by decide) brace).trans ?_
            split at read
            · next last close =>
                cases read
                exact expect_consumes (by decide) close
            · obtain ⟨found, inner, same⟩ := Option.map_eq_some_iff.mp read
              cases same
              exact memberss inner
        split at read
        · next behind bracket =>
            refine (expect_consumes (by decide) bracket).trans ?_
            split at read
            · next last close =>
                cases read
                exact expect_consumes (by decide) close
            · obtain ⟨found, inner, same⟩ := Option.map_eq_some_iff.mp read
              cases same
              exact itemss inner
        split at read
        · next behind quote =>
            refine (expect_consumes (by decide) quote).trans ?_
            obtain ⟨found, inner, same⟩ := Option.map_eq_some_iff.mp read
            cases same
            exact string_consumes inner
        · exact (skip_consumes bytes).trans (scalar_consumes read)
      · rw [members] at read
        split at read
        · cases read
        next key behind named =>
        obtain ⟨opened, quote, inner⟩ := Option.bind_eq_some_iff.mp named
        refine (expect_consumes (by decide) quote).trans ((string_consumes inner).trans ?_)
        split at read
        · cases read
        next v last valued =>
        obtain ⟨opened', colon, inner'⟩ := Option.bind_eq_some_iff.mp valued
        refine (expect_consumes (by decide) colon).trans ((values inner').trans ?_)
        split at read
        · next more comma =>
            obtain ⟨found, rest', same⟩ := Option.map_eq_some_iff.mp read
            cases same
            exact (expect_consumes (by decide) comma).trans (memberss rest')
        · obtain ⟨more, close, same⟩ := Option.map_eq_some_iff.mp read
          cases same
          exact expect_consumes (by decide) close
      · rw [items] at read
        split at read
        · cases read
        next v last valued =>
        refine (values valued).trans ?_
        split at read
        · next more comma =>
            obtain ⟨found, rest', same⟩ := Option.map_eq_some_iff.mp read
            cases same
            exact (expect_consumes (by decide) comma).trans (itemss rest')
        · obtain ⟨more, close, same⟩ := Option.map_eq_some_iff.mp read
          cases same
          exact expect_consumes (by decide) close

theorem nonzero_of_parse {bytes : List UInt8} {v : Value} (read : parse bytes = some v) :
    (0 : UInt8) ∉ bytes := by
  rw [parse] at read
  split at read
  · cases read
  next v' rest valued =>
  split at read
  · next ends =>
      obtain ⟨used, same, nonzero⟩ := ((consumes _).1 valued).trans (skip_consumes rest)
      rw [ends, List.append_nil] at same
      rw [same]
      exact nonzero
  · cases read

end Fpag.Json
