import Fpag.Debug.Padding
import Fpag.Debug.UnitEncoding

/-!
`read_abbreviation` and the tables of `.debug_abbrev`.

A table is a list of declarations with codes of their own, behind which stands the code zero. The
search for a code passes over the declarations in front of it with the loop that reads the wanted
one, and with its limit: what has more attributes than the reader keeps ends the search wherever
it stands. `locates_iff` says for every table and code when the answer is the right one.
-/

namespace Fpag.Debug

open Cursor Reader

/-! ## Tables -/

/-- The bytes are encodings of the elements, one behind the other. -/
def InTurn {α : Type} (encoded : α → List UInt8 → Prop) : List α → List UInt8 → Prop
  | [], bytes => bytes = []
  | a :: l, bytes => ∃ front rest, encoded a front ∧ InTurn encoded l rest ∧ bytes = front ++ rest

/-- The bytes are an encoding of the value that the abbreviation itself gives, if its form says
that there is one. -/
def EncodedImplicit (declared : AbbreviationAttribute) (bytes : List UInt8) : Prop :=
  if declared.form = dwFormImplicitConst then SignedOperand bytes declared.implicit
  else declared.implicit = 0 ∧ bytes = []

/-- The bytes are an encoding of the attribute, which does not end the list. -/
def AbbreviationAttribute.Encoded (declared : AbbreviationAttribute) (bytes : List UInt8) : Prop :=
  ¬ (declared.attr = 0 ∧ declared.form = 0) ∧ ∃ a f v, Operand a declared.attr ∧
    Operand f declared.form ∧ EncodedImplicit declared v ∧ bytes = a ++ (f ++ v)

/-- The bytes are the two zeros that end the attributes. -/
def EncodedEnd (bytes : List UInt8) : Prop :=
  ∃ a f, Operand a 0 ∧ Operand f 0 ∧ bytes = a ++ f

namespace Declaration

/-- The bytes are an encoding of the declaration. -/
def Encoded (declaration : Declaration) (bytes : List UInt8) : Prop :=
  declaration.code ≠ 0 ∧ ∃ c t l e, Operand c declaration.code ∧
    Operand t declaration.abbreviation.tag ∧
    InTurn AbbreviationAttribute.Encoded declaration.abbreviation.attributes l ∧ EncodedEnd e ∧
    bytes = c ++ (t ++ ([declaration.hasChildren] ++ (l ++ e)))

/-- The reader has room for the attributes. -/
def Few (declaration : Declaration) : Prop :=
  declaration.abbreviation.attributes.length ≤ maxAttributesPerAbbreviation

instance (declaration : Declaration) : Decidable declaration.Few :=
  inferInstanceAs (Decidable (_ ≤ _))

end Declaration

/-- The bytes are a table of the declarations, with its end. -/
def EncodedTable (declarations : List Declaration) (bytes : List UInt8) : Prop :=
  ∃ front last, InTurn Declaration.Encoded declarations front ∧ Operand last 0 ∧
    bytes = front ++ last

/-! ## The search -/

/-- The right answer to the question for a code: what the table declares under it, as far as the
reader has room for that, and nothing where the table does not have the code. -/
def Locates (c : Cursor) (declarations : List Declaration) (code : Nat) : Prop :=
  (∀ declaration ∈ declarations, declaration.code = code → declaration.Few →
    ∃ c', (readAbbreviation code).run c = .ok (declaration.abbreviation, c')) ∧
  ((∀ declaration ∈ declarations, declaration.code ≠ code) →
    (readAbbreviation code).run c = .error .refused)

/-- In front of what has the code, if there is room for that, nothing has too many attributes. -/
def Unhindered (declarations : List Declaration) (code : Nat) : Prop :=
  ∀ earlier declaration later, declarations = earlier ++ declaration :: later →
    declaration.code = code → declaration.Few → ∀ other ∈ earlier, other.Few

/-- What the search comes to: it ends at the code, and at the first declaration that is too long. -/
def answer (code : Nat) : List Declaration → Option Abbreviation
  | [] => none
  | declaration :: declarations =>
      if ¬ declaration.Few then none
      else if declaration.code = code then some declaration.abbreviation
      else answer code declarations

section Search

variable {declarations : List Declaration} {attributes before : List AbbreviationAttribute}
  {bytes rest : List UInt8} {code fuel : Nat} {c : Cursor}

theorem InTurn.exists_encoded {α : Type} {encoded : α → List UInt8 → Prop} {l : List α}
    (inTurn : InTurn encoded l bytes) {a : α} (member : a ∈ l) : ∃ bytes', encoded a bytes' := by
  induction l generalizing bytes with
  | nil => cases member
  | cons first l ih =>
      obtain ⟨front, later, here, others, rfl⟩ := inTurn
      rcases List.mem_cons.mp member with rfl | behind
      · exact ⟨front, here⟩
      · exact ih others behind

theorem InTurn.length_le {α : Type} {encoded : α → List UInt8 → Prop} {l : List α}
    (pos : ∀ a bytes, encoded a bytes → 0 < bytes.length) (inTurn : InTurn encoded l bytes) :
    l.length ≤ bytes.length := by
  induction l generalizing bytes with
  | nil => exact Nat.zero_le _
  | cons a l ih =>
      obtain ⟨front, later, first, others, rfl⟩ := inTurn
      have := pos a front first
      have := ih others
      rw [List.length_append, List.length_cons]
      omega

theorem AbbreviationAttribute.Encoded.pos {declared : AbbreviationAttribute}
    (encoded : declared.Encoded bytes) : 0 < bytes.length := by
  obtain ⟨-, a, f, v, attr, -, -, rfl⟩ := encoded
  have := attr.is.pos
  rw [List.length_append]
  omega

theorem Declaration.Encoded.pos {declaration : Declaration} (encoded : declaration.Encoded bytes) :
    0 < bytes.length := by
  obtain ⟨-, c, t, l, e, code, -, -, -, rfl⟩ := encoded
  have := code.is.pos
  rw [List.length_append]
  omega

theorem EncodedImplicit.reads {declared : AbbreviationAttribute}
    (encoded : EncodedImplicit declared bytes) :
    Reads (readImplicit declared.form) bytes declared.implicit := by
  unfold EncodedImplicit at encoded
  unfold readImplicit
  split at encoded
  · next own =>
      rw [if_pos own]
      exact encoded.reads
  · next other =>
      obtain ⟨zero, rfl⟩ := encoded
      rw [if_neg other, zero]
      exact .pure 0

theorem readAttributes_end (encoded : EncodedEnd bytes) (pos : 0 < fuel) :
    Reads (readAttributes fuel before) bytes before := by
  obtain ⟨a, f, attr, form, rfl⟩ := encoded
  obtain ⟨fuel, rfl⟩ := Nat.exists_eq_succ_of_ne_zero pos.ne'
  refine attr.reads.bind (form.reads.bind_pure ?_)
  rw [if_pos ⟨rfl, rfl⟩]
  exact .pure _

/-- The attributes are read back as far as there is room for them. -/
theorem InTurn.reads {ending : List UInt8}
    (encoded : InTurn AbbreviationAttribute.Encoded attributes bytes) (last : EncodedEnd ending)
    (few : before.length + attributes.length ≤ maxAttributesPerAbbreviation)
    (turns : attributes.length < fuel) :
    Reads (readAttributes fuel before) (bytes ++ ending) (before ++ attributes) := by
  obtain ⟨fuel, rfl⟩ := Nat.exists_eq_succ_of_ne_zero (Nat.ne_zero_of_lt turns)
  induction attributes generalizing before bytes fuel with
  | nil =>
      obtain rfl : bytes = [] := encoded
      rw [List.append_nil]
      exact readAttributes_end last (Nat.succ_pos _)
  | cons declared attributes ih =>
      obtain ⟨_, later, ⟨named, a, f, v, attr, form, implicit, rfl⟩, others, rfl⟩ := encoded
      rw [List.length_cons] at few turns
      obtain ⟨fuel, rfl⟩ := Nat.exists_eq_succ_of_ne_zero (by omega : fuel ≠ 0)
      have room : (before ++ [declared]).length + attributes.length ≤
          maxAttributesPerAbbreviation := by
        rw [List.length_append, List.length_singleton]
        omega
      have later_ := ih others room fuel (by omega)
      rw [List.append_assoc, List.singleton_append] at later_
      simp only [List.append_assoc]
      refine attr.reads.bind (form.reads.bind ?_)
      rw [if_neg named]
      refine (Reads.require (decide_eq_true (by omega))).bind_nil ?_
      exact implicit.reads.bind later_

/-- More attributes than there is room for are refused. -/
theorem InTurn.refuses
    (encoded : InTurn AbbreviationAttribute.Encoded attributes bytes)
    (room : before.length ≤ maxAttributesPerAbbreviation)
    (many : maxAttributesPerAbbreviation < before.length + attributes.length)
    (turns : attributes.length < fuel) : Refuses (readAttributes fuel before) bytes := by
  obtain ⟨fuel, rfl⟩ := Nat.exists_eq_succ_of_ne_zero (Nat.ne_zero_of_lt turns)
  induction attributes generalizing before bytes fuel with
  | nil => exact absurd room (Nat.not_le.mpr many)
  | cons declared attributes ih =>
      obtain ⟨_, later, ⟨named, a, f, v, attr, form, implicit, rfl⟩, others, rfl⟩ := encoded
      rw [List.length_cons] at many turns
      obtain ⟨fuel, rfl⟩ := Nat.exists_eq_succ_of_ne_zero (by omega : fuel ≠ 0)
      simp only [List.append_assoc]
      refine attr.reads.bind_refuses (form.reads.bind_refuses ?_)
      rw [if_neg named]
      by_cases full : before.length = maxAttributesPerAbbreviation
      · exact Refuses.require (decide_eq_false (not_not.mpr full))
      · have longer : (before ++ [declared]).length = before.length + 1 := List.length_append
        have later_ : Refuses (readAttributes (fuel + 1) (before ++ [declared])) later :=
          ih others (by omega) (by omega) fuel (by omega)
        refine (Reads.require (decide_eq_true full)).bind_refuses_nil ?_
        exact implicit.reads.bind_refuses later_

/-- One turn of the search up to the question whether it is the last one. -/
def readDeclaration : Reader Cursor (Nat × Abbreviation) := do
  let entryCode ← uleb
  Reader.require (entryCode ≠ 0)
  let tag ← uleb
  let _hasChildren ← fixed 1
  let attributes ← readAttributes (← turns) []
  pure (entryCode, ⟨tag, attributes⟩)

theorem findAbbreviation_succ : findAbbreviation code (fuel + 1) = readDeclaration >>= fun entry =>
    if entry.1 = code then pure entry.2 else findAbbreviation code fuel := by
  simp only [findAbbreviation, readDeclaration, bind_assoc, pure_bind]

theorem Declaration.Encoded.reads {declaration : Declaration} (encoded : declaration.Encoded bytes)
    (few : declaration.Few) :
    Reads readDeclaration bytes (declaration.code, declaration.abbreviation) := by
  obtain ⟨named, k, t, l, e, own, tag, listed, ended, rfl⟩ := encoded
  have long := listed.length_le fun _ _ encoded => AbbreviationAttribute.Encoded.pos encoded
  refine own.reads.bind ((Reads.require (decide_eq_true named)).bind_nil ?_)
  refine tag.reads.bind ((Reads.byte _).bind (Reads.turns_bind fun turns enough => ?_))
  rw [List.length_append] at enough
  have room : ([] : List AbbreviationAttribute).length +
      declaration.abbreviation.attributes.length ≤ maxAttributesPerAbbreviation :=
    (Nat.zero_add _).trans_le few
  exact (listed.reads ended room (by omega)).bind_pure (.pure _)

/-- A declaration that is too long is refused, whichever is looked for. -/
theorem Declaration.Encoded.refuses {declaration : Declaration}
    (encoded : declaration.Encoded bytes)
    (many : ¬ declaration.Few) : Refuses readDeclaration bytes := by
  obtain ⟨named, k, t, l, e, own, tag, listed, -, rfl⟩ := encoded
  have long := listed.length_le fun _ _ encoded => AbbreviationAttribute.Encoded.pos encoded
  refine own.reads.bind_refuses ((Reads.require (decide_eq_true named)).bind_refuses_nil ?_)
  refine tag.reads.bind_refuses ((Reads.byte _).bind_refuses ?_)
  refine Refuses.turns_bind fun turns enough => ?_
  rw [List.length_append] at enough
  have full : maxAttributesPerAbbreviation < ([] : List AbbreviationAttribute).length +
      declaration.abbreviation.attributes.length :=
    (Nat.not_le.mp many).trans_eq (Nat.zero_add _).symm
  exact ((listed.refuses (Nat.zero_le _) full (by omega)).append e).bind

/-- The code zero ends the search. -/
theorem readDeclaration_end (zero : Operand bytes 0) : Refuses readDeclaration bytes := by
  intro c rest ahead
  rw [readDeclaration, zero.reads.run_bind ahead]
  exact run_require_refused (decide_eq_false (not_not.mpr rfl))

/-- The search through a table, from any of its declarations on. -/
theorem findAbbreviation_run {last : List UInt8}
    (encoded : InTurn Declaration.Encoded declarations bytes) (zero : Operand last 0)
    (turns : declarations.length < fuel) (ahead : c.Over (bytes ++ (last ++ rest))) :
    ∃ c', (findAbbreviation code fuel).run c =
      (answer code declarations).elim (.error .refused) fun a => .ok (a, c') := by
  obtain ⟨fuel, rfl⟩ := Nat.exists_eq_succ_of_ne_zero (Nat.ne_zero_of_lt turns)
  induction declarations generalizing bytes fuel c with
  | nil =>
      obtain rfl : bytes = [] := encoded
      refine ⟨c, ?_⟩
      rw [findAbbreviation_succ, run_bind_error (readDeclaration_end zero c rest ahead)]
      rfl
  | cons declaration declarations ih =>
      obtain ⟨front, later, first, others, rfl⟩ := encoded
      rw [List.length_cons] at turns
      obtain ⟨fuel, rfl⟩ := Nat.exists_eq_succ_of_ne_zero (by omega : fuel ≠ 0)
      rw [List.append_assoc] at ahead
      rw [findAbbreviation_succ, answer]
      by_cases few : declaration.Few
      · rw [if_neg (not_not.mpr few), (first.reads few).run_bind ahead]
        simp only
        split
        · exact ⟨_, rfl⟩
        · exact ih others ahead.advance fuel (by omega)
      · rw [if_pos few, run_bind_error (first.refuses few c _ ahead)]
        exact ⟨c, rfl⟩

theorem readAbbreviation_run (encoded : EncodedTable declarations bytes)
    (ahead : c.Over (bytes ++ rest)) :
    ∃ c', (readAbbreviation code).run c =
      (answer code declarations).elim (.error .refused) fun a => .ok (a, c') := by
  obtain ⟨front, last, listed, zero, rfl⟩ := encoded
  have long := listed.length_le fun _ _ encoded => Declaration.Encoded.pos encoded
  have sum := ahead.position_add
  rw [List.length_append, List.length_append] at sum
  rw [List.append_assoc] at ahead
  exact findAbbreviation_run listed zero (by omega) ahead

end Search

/-! ## What is found -/

section Answer

variable {declarations : List Declaration} {declaration : Declaration} {code : Nat}

/-- A code that the table does not have is not found. -/
theorem answer_absent (absent : ∀ declaration ∈ declarations, declaration.code ≠ code) :
    answer code declarations = none := by
  induction declarations with
  | nil => rfl
  | cons first declarations ih =>
      rw [answer, if_neg (absent first List.mem_cons_self),
        ih fun other member => absent other (List.mem_cons_of_mem _ member), ite_self]

/-- What the table has under the code is found if there is room for it and for everything in front
of it. -/
theorem answer_append {earlier later : List Declaration}
    (others : ∀ other ∈ earlier, other.code ≠ code) (own : declaration.code = code) :
    answer code (earlier ++ declaration :: later) =
      if (∀ other ∈ earlier, other.Few) ∧ declaration.Few then some declaration.abbreviation
      else none := by
  induction earlier with
  | nil =>
      rw [List.nil_append, answer, if_pos own]
      by_cases few : declaration.Few <;> simp [few]
  | cons first earlier ih =>
      rw [List.cons_append, answer, if_neg (others first List.mem_cons_self),
        ih fun other member => others other (List.mem_cons_of_mem _ member)]
      by_cases room : first.Few
      · simp only [List.forall_mem_cons, room, not_true_eq_false, if_false, true_and]
      · simp only [List.forall_mem_cons, room, not_false_eq_true, if_true, false_and, if_false]

end Answer

/-- `read_abbreviation` gives the right answer exactly if nothing too long stands in front of what
is looked for. -/
theorem locates_iff {declarations : List Declaration} {bytes rest : List UInt8} {c : Cursor}
    (encoded : EncodedTable declarations bytes)
    (distinct : (declarations.map Declaration.code).Nodup)
    (ahead : c.Over (bytes ++ rest)) (code : Nat) :
    Locates c declarations code ↔ Unhindered declarations code := by
  obtain ⟨c', run⟩ := @readAbbreviation_run declarations bytes rest code c encoded ahead
  have others {earlier later : List Declaration} {declaration : Declaration}
      (split : declarations = earlier ++ declaration :: later) (own : declaration.code = code) :
      ∀ other ∈ earlier, other.code ≠ code := by
    rintro other member rfl
    rw [split, List.map_append, List.map_cons, List.nodup_append] at distinct
    exact distinct.2.2 _ (List.mem_map_of_mem member) _ List.mem_cons_self own.symm
  constructor
  · rintro ⟨found, -⟩ earlier declaration later split own few
    obtain ⟨c'', right⟩ := found declaration (by simp [split]) own few
    rw [run, split, answer_append (others split own) own] at right
    by_contra hindered
    rw [if_neg fun both => hindered both.1] at right
    cases right
  · intro unhindered
    refine ⟨fun declaration member own few => ⟨c', ?_⟩, fun absent => ?_⟩
    · obtain ⟨earlier, later, split⟩ := List.append_of_mem member
      have free := unhindered earlier declaration later split own few
      rw [run, split, answer_append (others split own) own, if_pos ⟨free, few⟩]
      rfl
    · rw [run, answer_absent absent]
      rfl

/-- A declaration with one attribute more than the reader has room for. -/
def wideDeclaration : Declaration :=
  ⟨1, 0, ⟨0x34, List.replicate 25 ⟨dwAtName, dwFormString, 0⟩⟩⟩

/-- The root entry of a unit, with the language as a constant of the abbreviation. -/
def rootDeclaration : Declaration :=
  ⟨2, 1, ⟨dwTagCompileUnit, [⟨0x13, dwFormImplicitConst, -1⟩, ⟨dwAtName, dwFormString, 0⟩]⟩⟩

def wideBytes : List UInt8 := [1, 0x34, 0] ++ ((List.replicate 25 [0x03, 0x08]).flatten ++ [0, 0])

/-- The constant has a byte of padding. -/
def rootBytes : List UInt8 := [2, 0x11, 1, 0x13, 0x21, 0xFF, 0x7F, 0x03, 0x08, 0, 0]

theorem encodedEnd_zeros : EncodedEnd [0, 0] :=
  ⟨[0], [0], Operand.byte (by decide), Operand.byte (by decide), rfl⟩

/-- An attribute without a value of its own, in two bytes. -/
theorem encoded_pair {attr form : UInt8} (attr_lt : attr.toNat < 128) (form_lt : form.toNat < 128)
    (named : attr.toNat ≠ 0) (other : form.toNat ≠ dwFormImplicitConst) :
    AbbreviationAttribute.Encoded ⟨attr.toNat, form.toNat, 0⟩ [attr, form] :=
  ⟨fun both => named both.1, [attr], [form], [], .byte attr_lt, .byte form_lt,
    (if_neg other).mpr ⟨rfl, rfl⟩, rfl⟩

theorem encoded_name :
    AbbreviationAttribute.Encoded ⟨dwAtName, dwFormString, 0⟩ [0x03, 0x08] :=
  @encoded_pair 0x03 0x08 (by decide) (by decide) (by decide) (by decide)

theorem InTurn.replicate {α : Type} {encoded : α → List UInt8 → Prop} {a : α} {bytes : List UInt8}
    (one : encoded a bytes) (n : Nat) :
    InTurn encoded (List.replicate n a) (List.replicate n bytes).flatten := by
  induction n with
  | zero => rfl
  | succ n ih => exact ⟨bytes, _, one, ih, rfl⟩

theorem wideDeclaration_encoded : wideDeclaration.Encoded wideBytes :=
  ⟨by decide, [1], [0x34], _, [0, 0], Operand.byte (by decide), Operand.byte (by decide),
    .replicate encoded_name 25, encodedEnd_zeros, rfl⟩

theorem rootDeclaration_encoded : rootDeclaration.Encoded rootBytes := by
  have minusOne : SignedOperand [0xFF, 0x7F] (-1) :=
    ⟨.more (by decide : 128 ≤ (0xFF : UInt8).toNat)
      (.last (by decide : (0x7F : UInt8).toNat < 128)),
      by decide, by decide, by decide⟩
  have language : AbbreviationAttribute.Encoded ⟨0x13, dwFormImplicitConst, -1⟩
      [0x13, 0x21, 0xFF, 0x7F] :=
    ⟨by decide, [0x13], [0x21], _, Operand.byte (by decide), Operand.byte (by decide), minusOne,
      rfl⟩
  exact ⟨by decide, [2], [0x11], _, [0, 0], Operand.byte (by decide), Operand.byte (by decide),
    ⟨_, _, language, ⟨_, _, encoded_name, rfl, rfl⟩, rfl⟩, encodedEnd_zeros, rfl⟩

/-- With the declaration that is too long behind it the root entry is found. -/
theorem locates_iff_rootFirst : Unhindered [rootDeclaration, wideDeclaration] 2 ∧
    Locates ⟨some (rootBytes ++ (wideBytes ++ [0])), 67, 0⟩
      [rootDeclaration, wideDeclaration] 2 := by
  have unhindered : Unhindered [rootDeclaration, wideDeclaration] 2 := by
    intro earlier declaration later split own few other member
    cases earlier with
    | nil => cases member
    | cons first earlier =>
        obtain ⟨rfl, rest⟩ := List.cons.inj split
        have listed : declaration ∈ [wideDeclaration] := by
          rw [rest]
          simp
        rw [List.mem_singleton.mp listed] at few
        exact absurd few (by decide)
  have encoded : EncodedTable [rootDeclaration, wideDeclaration]
      (rootBytes ++ (wideBytes ++ [0])) :=
    ⟨_, [0], ⟨_, _, rootDeclaration_encoded, ⟨_, _, wideDeclaration_encoded, rfl, rfl⟩, rfl⟩,
      Operand.byte (by decide), rfl⟩
  have ahead : Cursor.Over ⟨some (rootBytes ++ (wideBytes ++ [0])), 67, 0⟩
      (rootBytes ++ (wideBytes ++ [0]) ++ []) :=
    ⟨[], [], by simp, rfl, by decide, by decide⟩
  exact ⟨unhindered, (locates_iff encoded (by decide) ahead 2).mpr unhindered⟩

/-- Behind a declaration that is too long the root entry is not found. -/
theorem not_locates_wideFirst :
    EncodedTable [wideDeclaration, rootDeclaration] (wideBytes ++ (rootBytes ++ [0])) ∧
      ([wideDeclaration, rootDeclaration].map Declaration.code).Nodup ∧
      ¬ Locates ⟨some (wideBytes ++ (rootBytes ++ [0])), 67, 0⟩
        [wideDeclaration, rootDeclaration] 2 := by
  have encoded : EncodedTable [wideDeclaration, rootDeclaration]
      (wideBytes ++ (rootBytes ++ [0])) :=
    ⟨_, [0], ⟨_, _, wideDeclaration_encoded, ⟨_, _, rootDeclaration_encoded, rfl, rfl⟩, rfl⟩,
      Operand.byte (by decide), rfl⟩
  refine ⟨encoded, by decide, ?_⟩
  rintro ⟨finds, -⟩
  obtain ⟨c', right⟩ := finds rootDeclaration (by simp) rfl (by decide)
  obtain ⟨c'', run⟩ := @readAbbreviation_run [wideDeclaration, rootDeclaration] _ [] 2
    ⟨some (wideBytes ++ (rootBytes ++ [0])), 67, 0⟩ encoded
    ⟨[], [], by simp, rfl, by decide, by decide⟩
  rw [run, show answer 2 [wideDeclaration, rootDeclaration] = none by decide] at right
  cases right

end Fpag.Debug
