import Fpag.Lib.Bytes
import Fpag.Lib.Json

/-!
Texts that were laid out as JSON without a thought of escapes.

A `Layout` is such a text: its strings are set between quotes as they are, its numbers are
texts that stand for a number, and an array may have white space in front of its items. It
reads back as what it stands for when every string in it is plain (`reads`), and it does not
otherwise: as soon as the reader gets those strings right that are not plain, there are none
(`allPlain_of_read`). So the reader may take such a text for a value of another shape, and
an object for one with other members, but not without being wrong about a string.
-/

namespace Fpag.Json

/-- What a number can be followed by. -/
def Stops (tail : List UInt8) : Prop :=
  ∀ b ∈ tail.head?, isDigit b = false ∧ b ≠ 0x2E ∧ b ≠ 0x65 ∧ b ≠ 0x45

/-- The text of a number that has no sign. -/
structure Writes (token : List UInt8) (mantissa exponent : Int) : Prop where
  digit : ∃ b rest, token = b :: rest ∧ isDigit b = true
  read : ∀ tail, Stops tail → number (token ++ tail) = some (.number mantissa exponent, tail)

/-- White space. -/
def Spaces (bytes : List UInt8) : Prop := ∀ b ∈ bytes, isSpace b = true

instance (bytes : List UInt8) : Decidable (Spaces bytes) :=
  List.decidableBAll (fun b => isSpace b = true) bytes

mutual

inductive Layout : Type
  | number (token : List UInt8) (mantissa exponent : Int)
  | string (bytes : List UInt8)
  | array (items : Items)
  | object (members : Members)

/-- The items of an array, each with the space in front of it, and the space behind them. -/
inductive Items : Type
  | nil (space : List UInt8)
  | cons (space : List UInt8) (item : Layout) (rest : Items)

inductive Members : Type
  | nil
  | cons (key : List UInt8) (item : Layout) (rest : Members)

end

/-- The comma in front of all but the first. -/
def comma (first : Bool) : List UInt8 := if first then [] else [0x2C]

/-! ## What a layout is and means -/

def Members.keys : Members → List (List UInt8)
  | .nil => []
  | .cons key _ rest => key :: rest.keys

mutual

def Layout.text : Layout → List UInt8
  | .number token _ _ => token
  | .string bytes => 0x22 :: (bytes ++ [0x22])
  | .array items => 0x5B :: items.text true
  | .object members => 0x7B :: members.text true

def Items.text : (first : Bool) → Items → List UInt8
  | _, .nil space => space ++ [0x5D]
  | first, .cons space item rest => comma first ++ (space ++ (item.text ++ rest.text false))

def Members.text : (first : Bool) → Members → List UInt8
  | _, .nil => [0x7D]
  | first, .cons key item rest =>
      comma first ++ 0x22 :: (key ++ 0x22 :: 0x3A :: (item.text ++ rest.text false))

end

mutual

def Layout.meaning : Layout → Value
  | .number _ mantissa exponent => .number mantissa exponent
  | .string bytes => .string bytes
  | .array items => .array items.meaning
  | .object members => .object members.meaning

def Items.meaning : Items → List Value
  | .nil _ => []
  | .cons _ item rest => item.meaning :: rest.meaning

def Members.meaning : Members → List (List UInt8 × Value)
  | .nil => []
  | .cons key item rest => (key, item.meaning) :: rest.meaning

end

mutual

/-- The numbers, the space and the names are what they should be, and no name comes twice. -/
def Layout.Wf : Layout → Prop
  | .number token mantissa exponent => Writes token mantissa exponent
  | .string _ => True
  | .array items => items.Wf
  | .object members => members.Wf

def Items.Wf : Items → Prop
  | .nil space => Spaces space
  | .cons space item rest => Spaces space ∧ item.Wf ∧ rest.Wf

def Members.Wf : Members → Prop
  | .nil => True
  | .cons key item rest => Plain key ∧ key ∉ rest.keys ∧ item.Wf ∧ rest.Wf

end

mutual

/-- Every string is plain. -/
def Layout.AllPlain : Layout → Prop
  | .number _ _ _ => True
  | .string bytes => Plain bytes
  | .array items => items.AllPlain
  | .object members => members.AllPlain

def Items.AllPlain : Items → Prop
  | .nil _ => True
  | .cons _ item rest => item.AllPlain ∧ rest.AllPlain

def Members.AllPlain : Members → Prop
  | .nil => True
  | .cons _ item rest => item.AllPlain ∧ rest.AllPlain

end

mutual

/-- The value has the strings of the layout where they are not plain. -/
def Layout.Agrees : Layout → Value → Prop
  | .number _ _ _, _ => True
  | .string bytes, v => v = .string bytes
  | .array items, v => ∃ vs, v = .array vs ∧ items.Agrees vs
  | .object members, v => ∃ ms, v = .object ms ∧ members.Agrees ms

def Items.Agrees : Items → List Value → Prop
  | .nil _, vs => vs = []
  | .cons _ item rest, vs => ∃ v more, vs = v :: more ∧ item.Agrees v ∧ rest.Agrees more

def Members.Agrees : Members → List (List UInt8 × Value) → Prop
  | .nil, _ => True
  | .cons key item rest, ms =>
      (item.AllPlain ∨ ∃ v, sole key ms = some v ∧ item.Agrees v) ∧ rest.Agrees ms

end

/-! ## Steps of the reader -/

theorem skip_spaces {space : List UInt8} (spaces : Spaces space) (bytes : List UInt8) :
    skip (space ++ bytes) = skip bytes := by
  rw [skip, skip, List.dropWhile_append_of_pos spaces]

theorem expect_spaces {space : List UInt8} (spaces : Spaces space) (b : UInt8)
    (bytes : List UInt8) : expect b (space ++ bytes) = expect b bytes := by
  rw [expect, expect, skip_spaces spaces]

theorem value_spaces {space : List UInt8} (spaces : Spaces space) (fuel : Nat)
    (bytes : List UInt8) : value fuel (space ++ bytes) = value fuel bytes := by
  cases fuel with
  | zero => simp only [value]
  | succ fuel => simp only [value, expect_spaces spaces, skip_spaces spaces]

theorem skip_cons {b : UInt8} {rest : List UInt8} (solid : isSpace b = false) :
    skip (b :: rest) = b :: rest := by
  rw [skip, List.dropWhile_cons, solid]
  rfl

theorem expect_cons {b : UInt8} (solid : isSpace b = false) (c : UInt8) (rest : List UInt8) :
    expect c (b :: rest) = if b = c then some rest else none := by
  simp only [expect, skip_cons solid]

theorem expect_self {b : UInt8} (solid : isSpace b = false) (rest : List UInt8) :
    expect b (b :: rest) = some rest := by
  rw [expect_cons solid, if_pos rfl]

theorem expect_other {b c : UInt8} (solid : isSpace b = false) (other : b ≠ c)
    (rest : List UInt8) : expect c (b :: rest) = none := by
  rw [expect_cons solid, if_neg other]

theorem not_isSpace_of_isDigit {b : UInt8} (digit : isDigit b = true) : isSpace b = false := by
  obtain ⟨low, high⟩ := of_decide_eq_true digit
  refine decide_eq_false fun space => ?_
  rcases space with rfl | rfl | rfl | rfl <;> exact absurd low (by decide)

theorem isDigit_ne {b c : UInt8} (digit : isDigit b = true) (other : isDigit c = false) :
    b ≠ c := by
  rintro rfl
  rw [digit] at other
  cases other

theorem scalar_digit {b : UInt8} {rest : List UInt8} (digit : isDigit b = true) :
    scalar (b :: rest) = number (b :: rest) := by
  have n := isDigit_ne digit (by decide : isDigit 0x6E = false)
  have t := isDigit_ne digit (by decide : isDigit 0x74 = false)
  have f := isDigit_ne digit (by decide : isDigit 0x66 = false)
  rw [scalar, if_neg (by simp [List.isPrefixOf, n.symm]),
    if_neg (by simp [List.isPrefixOf, t.symm]), if_neg (by simp [List.isPrefixOf, f.symm])]

/-- A text begins with a byte that is neither space nor a closing bracket. -/
theorem Layout.text_eq_cons {l : Layout} (wf : l.Wf) :
    ∃ b rest, l.text = b :: rest ∧ isSpace b = false ∧ b ≠ 0x5D := by
  cases l with
  | number token mantissa exponent =>
      rw [Layout.Wf] at wf
      obtain ⟨b, rest, same, digit⟩ := wf.digit
      exact ⟨b, rest, same, not_isSpace_of_isDigit digit, isDigit_ne digit (by decide)⟩
  | string bytes => exact ⟨_, _, by rw [Layout.text], by decide, by decide⟩
  | array items => exact ⟨_, _, by rw [Layout.text], by decide, by decide⟩
  | object members => exact ⟨_, _, by rw [Layout.text], by decide, by decide⟩

theorem stops_cons {b : UInt8} {rest : List UInt8}
    (other : isDigit b = false ∧ b ≠ 0x2E ∧ b ≠ 0x65 ∧ b ≠ 0x45) : Stops (b :: rest) := by
  intro c there
  cases there
  exact other

theorem stops_of_isSpace {b : UInt8} (space : isSpace b = true) :
    isDigit b = false ∧ b ≠ 0x2E ∧ b ≠ 0x65 ∧ b ≠ 0x45 := by
  rcases of_decide_eq_true space with rfl | rfl | rfl | rfl <;> decide

theorem Items.stops {its : Items} (wf : its.Wf) (tail : List UInt8) :
    Stops (its.text false ++ tail) := by
  cases its with
  | nil space =>
      rw [Items.Wf] at wf
      rw [Items.text, List.append_assoc]
      cases space with
      | nil => exact stops_cons (by decide)
      | cons b space => exact stops_cons (stops_of_isSpace (wf b List.mem_cons_self))
  | cons space item rest =>
      rw [Items.text]
      exact stops_cons (by decide)

theorem Members.stops (ms : Members) (tail : List UInt8) : Stops (ms.text false ++ tail) := by
  cases ms with
  | nil =>
      rw [Members.text]
      exact stops_cons (by decide)
  | cons key item rest =>
      rw [Members.text]
      exact stops_cons (by decide)

theorem value_quote (fuel : Nat) (rest : List UInt8) :
    value (fuel + 1) (0x22 :: rest) =
      (string rest).map fun found => (.string found.1, found.2) := by
  rw [value, expect_other (by decide) (by decide), expect_other (by decide) (by decide),
    expect_self (by decide)]

theorem value_digit {fuel : Nat} {b : UInt8} {rest : List UInt8} (digit : isDigit b = true) :
    value (fuel + 1) (b :: rest) = number (b :: rest) := by
  have solid := not_isSpace_of_isDigit digit
  rw [value, expect_other solid (isDigit_ne digit (by decide)),
    expect_other solid (isDigit_ne digit (by decide)),
    expect_other solid (isDigit_ne digit (by decide))]
  simp only [skip_cons solid, scalar_digit digit]

theorem value_brace (fuel : Nat) (rest : List UInt8) :
    value (fuel + 1) (0x7B :: 0x22 :: rest) =
      (members fuel (0x22 :: rest)).map fun found => (.object found.1, found.2) := by
  rw [value, expect_self (by decide)]
  simp only [expect_other (by decide : isSpace 0x22 = false) (by decide : (0x22 : UInt8) ≠ 0x7D)]

theorem value_bracket {fuel : Nat} {rest : List UInt8} (more : expect 0x5D rest = none) :
    value (fuel + 1) (0x5B :: rest) =
      (items fuel rest).map fun found => (.array found.1, found.2) := by
  rw [value, expect_other (by decide) (by decide), expect_self (by decide)]
  simp only [more]

theorem members_key {fuel : Nat} {key : List UInt8} (plain : Plain key) (rest : List UInt8) :
    members (fuel + 1) (0x22 :: (key ++ 0x22 :: 0x3A :: rest)) =
      match value fuel rest with
      | none => none
      | some (v, rest) =>
          match expect 0x2C rest with
          | some rest => (members fuel rest).map fun found => ((key, v) :: found.1, found.2)
          | none => (expect 0x7D rest).map fun rest => ([(key, v)], rest) := by
  rw [members, expect_self (by decide), Option.bind_some, string_plain plain]
  rfl

theorem Members.text_true {key : List UInt8} {item : Layout} {rest : Members} {tail : List UInt8} :
    (Members.cons key item rest).text true ++ tail =
      0x22 :: (key ++ 0x22 :: 0x3A :: (item.text ++ (rest.text false ++ tail))) := by
  simp [Members.text, comma]

theorem Items.text_true {space : List UInt8} {item : Layout} {rest : Items} {tail : List UInt8} :
    (Items.cons space item rest).text true ++ tail =
      space ++ (item.text ++ (rest.text false ++ tail)) := by
  simp [Items.text, comma]

theorem Items.text_more {space : List UInt8} {item : Layout} {rest : Items} :
    (Items.cons space item rest).text false = 0x2C :: (Items.cons space item rest).text true := by
  simp [Items.text, comma]

theorem Members.text_more {key : List UInt8} {item : Layout} {rest : Members} :
    (Members.cons key item rest).text false = 0x2C :: (Members.cons key item rest).text true := by
  simp [Members.text, comma]

theorem Items.text_pos (its : Items) : 0 < (its.text false).length := by
  cases its with
  | nil space => simp [Items.text]
  | cons space item rest => simp [Items.text_more]

theorem Items.expect_close {space : List UInt8} {item : Layout} {rest : Items}
    (wf : (Items.cons space item rest).Wf) (tail : List UInt8) :
    expect 0x5D ((Items.cons space item rest).text true ++ tail) = none := by
  rw [Items.Wf] at wf
  obtain ⟨b, behind, same, solid, other⟩ := Layout.text_eq_cons wf.2.1
  rw [Items.text_true, expect_spaces wf.1, same]
  exact expect_other solid other _

/-- With so much fuel a value of plain strings is read as what it stands for. -/
def ValuesRead (fuel : Nat) : Prop :=
  ∀ {l : Layout} {tail}, l.Wf → l.AllPlain → l.text.length ≤ fuel → Stops tail →
    value fuel (l.text ++ tail) = some (l.meaning, tail)

def MembersRead (fuel : Nat) : Prop :=
  ∀ {key item rest tail}, (Members.cons key item rest).Wf → (Members.cons key item rest).AllPlain →
    ((Members.cons key item rest).text true).length ≤ fuel →
    members fuel ((Members.cons key item rest).text true ++ tail) =
      some ((Members.cons key item rest).meaning, tail)

def ItemsRead (fuel : Nat) : Prop :=
  ∀ {space item rest tail}, (Items.cons space item rest).Wf →
    (Items.cons space item rest).AllPlain →
    ((Items.cons space item rest).text true).length ≤ fuel →
    items fuel ((Items.cons space item rest).text true ++ tail) =
      some ((Items.cons space item rest).meaning, tail)

section Reads

variable {fuel : Nat}

theorem MembersRead.toValues (memberss : MembersRead fuel) (itemss : ItemsRead fuel) :
    ValuesRead (fuel + 1) := by
  intro l tail wf plain enough stops
  cases l with
  | number token mantissa exponent =>
      rw [Layout.Wf] at wf
      obtain ⟨b, rest, rfl, digit⟩ := wf.digit
      rw [Layout.text, List.cons_append, value_digit digit]
      exact wf.read tail stops
  | string bytes =>
      rw [Layout.AllPlain] at plain
      rw [Layout.text, List.cons_append, List.append_assoc, List.singleton_append,
        value_quote, string_plain plain]
      rfl
  | array its =>
      rw [Layout.Wf] at wf
      rw [Layout.AllPlain] at plain
      rw [Layout.text, List.length_cons] at enough
      rw [Layout.text, List.cons_append, Layout.meaning]
      cases its with
      | nil space =>
          rw [Items.Wf] at wf
          rw [value, expect_other (by decide) (by decide), expect_self (by decide)]
          simp only [Items.text, List.append_assoc, expect_spaces wf, List.singleton_append,
            expect_self (by decide : isSpace 0x5D = false), Items.meaning]
      | cons space item rest =>
          rw [value_bracket (Items.expect_close wf tail),
            itemss wf plain (Nat.le_of_succ_le_succ enough)]
          rfl
  | object ms =>
      rw [Layout.Wf] at wf
      rw [Layout.AllPlain] at plain
      rw [Layout.text, List.length_cons] at enough
      rw [Layout.text, List.cons_append, Layout.meaning]
      cases ms with
      | nil =>
          rw [value, expect_self (by decide)]
          simp only [Members.text, List.singleton_append,
            expect_self (by decide : isSpace 0x7D = false), Members.meaning]
      | cons key item rest =>
          have inner := @memberss key item rest tail wf plain (Nat.le_of_succ_le_succ enough)
          rw [Members.text_true] at inner ⊢
          rw [value_brace, inner]
          rfl

theorem ValuesRead.toMembers (values : ValuesRead fuel) (memberss : MembersRead fuel) :
    MembersRead (fuel + 1) := by
  intro key item rest tail wf plain enough
  rw [Members.Wf] at wf
  obtain ⟨named, -, itemWf, restWf⟩ := wf
  rw [Members.AllPlain] at plain
  simp only [Members.text, comma, if_true, List.nil_append, List.length_cons,
    List.length_append] at enough
  rw [Members.text_true, members_key named,
    values itemWf plain.1 (by omega) (Members.stops rest tail)]
  cases rest with
  | nil =>
      simp only [Members.text, List.singleton_append,
        expect_other (by decide : isSpace 0x7D = false) (by decide : (0x7D : UInt8) ≠ 0x2C),
        expect_self (by decide : isSpace 0x7D = false), Option.map_some, Members.meaning]
  | cons key' item' rest' =>
      rw [Members.text_more, List.length_cons] at enough
      simp only [Members.text_more, List.cons_append,
        expect_self (by decide : isSpace 0x2C = false)]
      rw [memberss restWf plain.2 (by omega)]
      simp only [Option.map_some, Members.meaning]

theorem ValuesRead.toItems (values : ValuesRead fuel) (itemss : ItemsRead fuel) :
    ItemsRead (fuel + 1) := by
  intro space item rest tail wf plain enough
  rw [Items.Wf] at wf
  obtain ⟨spaces, itemWf, restWf⟩ := wf
  rw [Items.AllPlain] at plain
  simp only [Items.text, comma, if_true, List.nil_append, List.length_append] at enough
  rw [Items.text_true, items, value_spaces spaces]
  have some_ := Items.text_pos rest
  have front : item.text.length ≤ fuel := by omega
  rw [values itemWf plain.1 front (Items.stops restWf tail)]
  cases rest with
  | nil space' =>
      rw [Items.Wf] at restWf
      simp only [Items.text, List.append_assoc, expect_spaces restWf, List.singleton_append,
        expect_other (by decide : isSpace 0x5D = false) (by decide : (0x5D : UInt8) ≠ 0x2C),
        expect_self (by decide : isSpace 0x5D = false), Option.map_some, Items.meaning]
  | cons space' item' rest' =>
      rw [Items.text_more, List.length_cons] at enough
      simp only [Items.text_more, List.cons_append,
        expect_self (by decide : isSpace 0x2C = false)]
      rw [itemss restWf plain.2 (by omega)]
      simp only [Option.map_some, Items.meaning]

end Reads

/-- A layout of plain strings is read as what it stands for. -/
theorem reads (fuel : Nat) : ValuesRead fuel ∧ MembersRead fuel ∧ ItemsRead fuel := by
  induction fuel with
  | zero =>
      refine ⟨fun {l tail} wf _ enough _ => ?_, fun {key item rest tail} _ _ enough => ?_,
        fun {space item rest tail} wf _ enough => ?_⟩
      · obtain ⟨b, rest, same, -⟩ := Layout.text_eq_cons wf
        rw [same] at enough
        cases enough
      · simp [Members.text] at enough
      · rw [Items.Wf] at wf
        obtain ⟨b, rest', same, -⟩ := Layout.text_eq_cons wf.2.1
        simp [Items.text, same] at enough
  | succ fuel ih =>
      obtain ⟨values, memberss, itemss⟩ := ih
      exact ⟨memberss.toValues itemss, values.toMembers memberss, values.toItems itemss⟩

/-! ## Strings that are read right are plain -/

theorem sole_head {key : List UInt8} {v w : Value} {ms : List (List UInt8 × Value)}
    (only : sole key ((key, v) :: ms) = some w) : w = v := by
  rw [sole, List.filter_cons_of_pos (by simp)] at only
  split at only
  · next m single =>
      obtain ⟨rfl, -⟩ := List.cons.inj single
      exact (Option.some.inj only).symm
  · cases only

theorem sole_tail {key other : List UInt8} {v : Value} {ms : List (List UInt8 × Value)}
    (differs : other ≠ key) : sole key ((other, v) :: ms) = sole key ms := by
  rw [sole, sole, List.filter_cons_of_neg (by simpa using differs)]

/-- Among members whose names differ, each is the only one of its name. -/
theorem sole_of_mem {key : List UInt8} {v : Value} {ms : List (List UInt8 × Value)}
    (nodup : (ms.map Prod.fst).Nodup) (there : (key, v) ∈ ms) : sole key ms = some v := by
  induction ms with
  | nil => cases there
  | cons m ms ih =>
      rw [List.map_cons, List.nodup_cons] at nodup
      obtain ⟨absent, nodup⟩ := nodup
      rcases List.mem_cons.mp there with rfl | behind
      · have none_ : ms.filter (fun m => m.1 = key) = [] := by
          refine List.filter_eq_nil_iff.mpr fun other inside same => absent ?_
          exact List.mem_map.mpr ⟨other, inside, of_decide_eq_true same⟩
        rw [sole, List.filter_cons_of_pos (by simp), none_]
      · obtain ⟨other, w⟩ := m
        have differs : other ≠ key := by
          rintro rfl
          exact absent (List.mem_map.mpr ⟨_, behind, rfl⟩)
        rw [sole_tail differs]
        exact ih nodup behind

theorem Members.Agrees.tail {key : List UInt8} {v : Value} {ms : List (List UInt8 × Value)} :
    (rest : Members) → key ∉ rest.keys → rest.Agrees ((key, v) :: ms) → rest.Agrees ms
  | .nil, _, _ => by rw [Members.Agrees]; trivial
  | .cons other item rest, absent, agrees => by
      rw [Members.keys, List.mem_cons, not_or] at absent
      rw [Members.Agrees] at agrees ⊢
      rw [sole_tail absent.1] at agrees
      exact ⟨agrees.1, Members.Agrees.tail rest absent.2 agrees.2⟩

/-- With so much fuel, a value whose strings the reader gets right where they are not plain has none
that are not. -/
def ValuesTell (fuel : Nat) : Prop :=
  ∀ {l : Layout} {tail w r}, l.Wf → l.text.length ≤ fuel →
    value fuel (l.text ++ tail) = some (w, r) → l.Agrees w → l.AllPlain

def MembersTell (fuel : Nat) : Prop :=
  ∀ {key item rest tail ms r}, (Members.cons key item rest).Wf →
    ((Members.cons key item rest).text true).length ≤ fuel →
    members fuel ((Members.cons key item rest).text true ++ tail) = some (ms, r) →
    (Members.cons key item rest).Agrees ms → (Members.cons key item rest).AllPlain

def ItemsTell (fuel : Nat) : Prop :=
  ∀ {space item rest tail vs r}, (Items.cons space item rest).Wf →
    ((Items.cons space item rest).text true).length ≤ fuel →
    items fuel ((Items.cons space item rest).text true ++ tail) = some (vs, r) →
    (Items.cons space item rest).Agrees vs → (Items.cons space item rest).AllPlain

section Tells

variable {fuel : Nat}

theorem MembersTell.toValues (memberss : MembersTell fuel) (itemss : ItemsTell fuel) :
    ValuesTell (fuel + 1) := by
  intro l tail w r wf enough read agrees
  cases l with
  | number token mantissa exponent =>
      rw [Layout.AllPlain]
      trivial
  | string bytes =>
      rw [Layout.Agrees] at agrees
      rw [Layout.text, List.cons_append, List.append_assoc, List.singleton_append,
        value_quote] at read
      obtain ⟨⟨out, rest⟩, inner, same⟩ := Option.map_eq_some_iff.mp read
      obtain ⟨rfl, rfl⟩ := Prod.mk.inj same
      cases agrees
      rw [Layout.AllPlain]
      exact plain_of_string inner
  | array its =>
      rw [Layout.Agrees] at agrees
      obtain ⟨vs, rfl, agrees⟩ := agrees
      rw [Layout.Wf] at wf
      rw [Layout.text, List.length_cons] at enough
      rw [Layout.text, List.cons_append] at read
      rw [Layout.AllPlain]
      cases its with
      | nil space =>
          rw [Items.AllPlain]
          trivial
      | cons space item rest =>
          rw [value_bracket (Items.expect_close wf tail)] at read
          obtain ⟨found, inner, same⟩ := Option.map_eq_some_iff.mp read
          cases same
          exact itemss wf (Nat.le_of_succ_le_succ enough) inner agrees
  | object ms =>
      rw [Layout.Agrees] at agrees
      obtain ⟨found, rfl, agrees⟩ := agrees
      rw [Layout.Wf] at wf
      rw [Layout.text, List.length_cons] at enough
      rw [Layout.text, List.cons_append] at read
      rw [Layout.AllPlain]
      cases ms with
      | nil =>
          rw [Members.AllPlain]
          trivial
      | cons key item rest =>
          have inner := @memberss key item rest tail found r wf
            (Nat.le_of_succ_le_succ enough)
          rw [Members.text_true] at read inner
          rw [value_brace] at read
          obtain ⟨found', inside, same⟩ := Option.map_eq_some_iff.mp read
          cases same
          exact inner inside agrees

theorem ValuesTell.toMembers (values : ValuesTell fuel) (memberss : MembersTell fuel) :
    MembersTell (fuel + 1) := by
  intro key item rest tail ms r wf enough read agrees
  rw [Members.Wf] at wf
  obtain ⟨named, absent, itemWf, restWf⟩ := wf
  rw [Members.Agrees] at agrees
  simp only [Members.text, comma, if_true, List.nil_append, List.length_cons,
    List.length_append] at enough
  rw [Members.text_true, members_key named] at read
  rw [Members.AllPlain]
  split at read
  · cases read
  next v behind valued =>
  -- The first member is the one of the layout, so its name has to be right about it.
  have first : ∃ more, ms = (key, v) :: more := by
    split at read
    · obtain ⟨found, -, same⟩ := Option.map_eq_some_iff.mp read
      cases same
      exact ⟨_, rfl⟩
    · obtain ⟨found, -, same⟩ := Option.map_eq_some_iff.mp read
      cases same
      exact ⟨_, rfl⟩
  obtain ⟨more, rfl⟩ := first
  have itemPlain : item.AllPlain := by
    rcases agrees.1 with plain | ⟨w, only, agreesItem⟩
    · exact plain
    · rw [sole_head only] at agreesItem
      exact values itemWf (by omega) valued agreesItem
  refine ⟨itemPlain, ?_⟩
  rw [(Json.reads fuel).1 itemWf itemPlain (by omega) (Members.stops rest tail)] at valued
  cases valued
  cases rest with
  | nil =>
      rw [Members.AllPlain]
      trivial
  | cons key' item' rest' =>
      rw [Members.text_more, List.length_cons] at enough
      simp only [Members.text_more, List.cons_append,
        expect_self (by decide : isSpace 0x2C = false)] at read
      obtain ⟨found, inner, same⟩ := Option.map_eq_some_iff.mp read
      cases same
      exact memberss restWf (by omega) inner (Members.Agrees.tail _ absent agrees.2)

theorem ValuesTell.toItems (values : ValuesTell fuel) (itemss : ItemsTell fuel) :
    ItemsTell (fuel + 1) := by
  intro space item rest tail vs r wf enough read agrees
  rw [Items.Wf] at wf
  obtain ⟨spaces, itemWf, restWf⟩ := wf
  rw [Items.Agrees] at agrees
  obtain ⟨v, more, rfl, agreesItem, agreesRest⟩ := agrees
  simp only [Items.text, comma, if_true, List.nil_append, List.length_append] at enough
  rw [Items.text_true, items, value_spaces spaces] at read
  rw [Items.AllPlain]
  have some_ := Items.text_pos rest
  have front : item.text.length ≤ fuel := by omega
  split at read
  · cases read
  next v' behind valued =>
  have first : v' = v := by
    split at read
    · obtain ⟨found, -, same⟩ := Option.map_eq_some_iff.mp read
      cases same
      rfl
    · obtain ⟨found, -, same⟩ := Option.map_eq_some_iff.mp read
      cases same
      rfl
  subst first
  have itemPlain : item.AllPlain := values itemWf front valued agreesItem
  refine ⟨itemPlain, ?_⟩
  rw [(Json.reads fuel).1 itemWf itemPlain front (Items.stops restWf tail)] at valued
  cases valued
  cases rest with
  | nil space' =>
      rw [Items.AllPlain]
      trivial
  | cons space' item' rest' =>
      rw [Items.text_more, List.length_cons] at enough
      simp only [Items.text_more, List.cons_append,
        expect_self (by decide : isSpace 0x2C = false)] at read
      obtain ⟨found, inner, same⟩ := Option.map_eq_some_iff.mp read
      cases same
      exact itemss restWf (by omega) inner agreesRest

end Tells

/-- A layout whose strings the reader gets right where they are not plain has none that are not. -/
theorem allPlain_of_reads (fuel : Nat) :
    ValuesTell fuel ∧ MembersTell fuel ∧ ItemsTell fuel := by
  induction fuel with
  | zero =>
      refine ⟨fun {l tail w r} _ _ read _ => ?_, fun {key item rest tail ms r} _ _ read _ => ?_,
        fun {space item rest tail vs r} _ _ read _ => ?_⟩
      · simp only [value] at read
        cases read
      · simp only [members] at read
        cases read
      · simp only [items] at read
        cases read
  | succ fuel ih =>
      obtain ⟨values, memberss, itemss⟩ := ih
      exact ⟨memberss.toValues itemss, values.toMembers memberss, values.toItems itemss⟩

/-! ## Whole texts -/

/-- A whole text of plain strings, with space behind it. -/
theorem parse_text {l : Layout} {space : List UInt8} (wf : l.Wf) (spaces : Spaces space)
    (plain : l.AllPlain) : parse (l.text ++ space) = some l.meaning := by
  have stops : Stops space := by
    cases space with
    | nil => exact fun b there => nomatch there
    | cons b rest => exact stops_cons (stops_of_isSpace (spaces b List.mem_cons_self))
  have ends : skip space = [] := by
    have := skip_spaces spaces []
    rwa [List.append_nil] at this
  rw [parse, (reads _).1 wf plain (by simp; omega) stops]
  simp only [ends, if_true]

theorem allPlain_of_parse {l : Layout} {space : List UInt8} {v : Value} (wf : l.Wf)
    (read : parse (l.text ++ space) = some v) (agrees : l.Agrees v) : l.AllPlain := by
  rw [parse] at read
  split at read
  · cases read
  next w rest valued =>
  split at read
  · cases read
    exact (allPlain_of_reads _).1 wf (by simp; omega) valued agrees
  · cases read

/-! ## Texts of numbers -/

/-- Digits without a leading zero. -/
structure Whole (digits : List UInt8) : Prop where
  digit : ∀ b ∈ digits, isDigit b = true
  nonempty : digits ≠ []
  canonical : digits.head? = some 0x30 → digits.length = 1

theorem takeWhile_digits {digits tail : List UInt8} (digit : ∀ b ∈ digits, isDigit b = true)
    (stop : ∀ b ∈ tail.head?, isDigit b = false) :
    (digits ++ tail).takeWhile isDigit = digits ∧ (digits ++ tail).dropWhile isDigit = tail := by
  rw [List.takeWhile_append_of_pos digit, List.dropWhile_append_of_pos digit]
  cases tail with
  | nil => exact ⟨List.append_nil _, rfl⟩
  | cons b rest =>
      have stop' := stop b rfl
      rw [List.takeWhile_cons, List.dropWhile_cons, stop']
      exact ⟨List.append_nil _, rfl⟩

theorem fraction_none {tail : List UInt8} (stops : Stops tail) :
    fraction tail = some ([], tail) := by
  cases tail with
  | nil => rfl
  | cons b rest => rw [fraction, if_neg (stops b rfl).2.1]

theorem exponent_none {tail : List UInt8} (stops : Stops tail) :
    exponent tail = some (0, tail) := by
  cases tail with
  | nil => rfl
  | cons b rest =>
      obtain ⟨-, -, small, capital⟩ := stops b rfl
      unfold exponent
      exact if_neg (not_or.mpr ⟨small, capital⟩)

theorem fraction_digits {digits tail : List UInt8} (digit : ∀ b ∈ digits, isDigit b = true)
    (nonempty : digits ≠ []) (stops : Stops tail) :
    fraction (0x2E :: (digits ++ tail)) = some (digits, tail) := by
  obtain ⟨front, behind⟩ := takeWhile_digits digit fun b there => (stops b there).1
  rw [fraction, if_pos rfl, front, behind, if_neg nonempty]

/-- Digits, and what a number goes on with behind them. -/
theorem number_digits {digits rest part tail : List UInt8} (whole : Whole digits)
    (stop : ∀ b ∈ rest.head?, isDigit b = false) (more : fraction rest = some (part, tail))
    (stops : Stops tail) :
    number (digits ++ rest) = some (.number (natOf (digits ++ part)) (-part.length), tail) := by
  obtain ⟨front, behind⟩ := takeWhile_digits whole.digit stop
  have unsigned_ : unsigned false (digits ++ rest) =
      some (.number (natOf (digits ++ part)) (-part.length), tail) := by
    have canonical : ¬ (digits = [] ∨ digits.head? = some 0x30 ∧ 1 < digits.length) := by
      rintro (empty | ⟨zero, long⟩)
      · exact whole.nonempty empty
      · rw [whole.canonical zero] at long
        exact absurd long (by decide)
    simp only [unsigned, front, behind, if_neg canonical, more, exponent_none stops,
      Bool.false_eq_true, if_false, Int.zero_sub]
  obtain ⟨b, digits, rfl⟩ := List.exists_cons_of_ne_nil whole.nonempty
  have digit := whole.digit b List.mem_cons_self
  rw [List.cons_append, number, if_neg (isDigit_ne digit (by decide))]
  exact unsigned_

theorem Whole.exists_cons {digits : List UInt8} (whole : Whole digits) (rest : List UInt8) :
    ∃ b more, digits ++ rest = b :: more ∧ isDigit b = true := by
  obtain ⟨b, digits, rfl⟩ := List.exists_cons_of_ne_nil whole.nonempty
  exact ⟨b, _, rfl, whole.digit b List.mem_cons_self⟩

theorem Whole.writes {digits : List UInt8} (whole : Whole digits) :
    Writes digits (natOf digits) 0 where
  digit := by
    have found := whole.exists_cons []
    rwa [List.append_nil] at found
  read := fun tail stops => by
    have read := number_digits whole (fun b there => (stops b there).1) (fraction_none stops) stops
    rw [List.append_nil] at read
    exact read

/-- A number with digits behind a point. -/
theorem Whole.writes_point {digits part : List UInt8} (whole : Whole digits)
    (digit : ∀ b ∈ part, isDigit b = true) (nonempty : part ≠ []) :
    Writes (digits ++ 0x2E :: part) (natOf (digits ++ part)) (-part.length) where
  digit := whole.exists_cons _
  read := fun tail stops => by
    rw [List.append_assoc]
    refine number_digits whole (fun b there => ?_) (fraction_digits digit nonempty stops) stops
    cases there
    decide

/-- The digits of a number. -/
def decimal (n : Nat) : List UInt8 := (Nat.toDigits 10 n).map fun c => UInt8.ofNat c.toNat

theorem text_repr (n : Nat) : text (Nat.repr n) = decimal n := by
  rw [text, Nat.toList_repr, decimal]

theorem decimal_spec (n : Nat) :
    Whole (decimal n) ∧ natOf (decimal n) = n ∧ (0 < n → (decimal n).head? ≠ some 0x30) := by
  have single : ∀ k, k < 10 → decimal k = [UInt8.ofNat (0x30 + k)] := by decide
  have digits : ∀ k, k < 10 → isDigit (UInt8.ofNat (0x30 + k)) = true ∧
      (UInt8.ofNat (0x30 + k)).toNat - 0x30 = k ∧ (0 < k → UInt8.ofNat (0x30 + k) ≠ 0x30) := by
    decide
  induction n using Nat.base_induction 10 (by decide) with
  | single k small =>
      obtain ⟨digit, value_, nonzero⟩ := digits k small
      rw [single k small]
      refine ⟨⟨fun b there => ?_, List.cons_ne_nil _ _, fun _ => rfl⟩, ?_, fun pos zero => ?_⟩
      · rw [List.mem_singleton.mp there]
        exact digit
      · simp only [natOf, List.foldl_cons, List.foldl_nil, value_]
        omega
      · exact nonzero pos (Option.some.inj zero)
  | digit n k small pos ih =>
      obtain ⟨whole, value_, nonzero⟩ := ih
      obtain ⟨digit, value', -⟩ := digits k small
      have append : decimal (10 * n + k) = decimal n ++ [UInt8.ofNat (0x30 + k)] := by
        rw [← single k small, decimal, decimal, decimal, ← List.map_append,
          Nat.toDigits_append_toDigits (by decide) pos small]
      have front : (decimal n ++ [UInt8.ofNat (0x30 + k)]).head? = (decimal n).head? := by
        rw [List.head?_append_of_ne_nil _ whole.nonempty]
      rw [append, front]
      refine ⟨⟨fun b there => ?_, by simp, fun zero => ?_⟩, ?_, fun _ => nonzero pos⟩
      · rcases List.mem_append.mp there with inside | last
        · exact whole.digit b inside
        · rw [List.mem_singleton.mp last]
          exact digit
      · rw [front] at zero
        exact absurd zero (nonzero pos)
      · rw [natOf, List.foldl_append]
        change 10 * natOf (decimal n) + ((UInt8.ofNat (0x30 + k)).toNat - 0x30) = 10 * n + k
        rw [value_, value']

theorem whole_decimal (n : Nat) : Whole (decimal n) := (decimal_spec n).1

theorem natOf_decimal (n : Nat) : natOf (decimal n) = n := (decimal_spec n).2.1

theorem writes_decimal (n : Nat) : Writes (decimal n) n 0 := by
  have writes := (whole_decimal n).writes
  rwa [natOf_decimal] at writes

/-! ## Texts in UTF-8 -/

theorem Utf8.append {front back : List UInt8} (utf8 : Utf8 front) (utf8' : Utf8 back) :
    Utf8 (front ++ back) := by
  obtain ⟨chars, rfl⟩ := utf8
  obtain ⟨chars', rfl⟩ := utf8'
  exact ⟨chars ++ chars', (List.flatMap_append ..).symm⟩

theorem utf8_singleton {b : UInt8} (ascii : b < 0x80) : Utf8 [b] := by
  have small := UInt8.lt_iff_toNat_lt.mp ascii
  have all : ∀ n < 128, String.utf8EncodeChar (Char.ofNat n) = [UInt8.ofNat n] := by decide
  refine ⟨[Char.ofNat b.toNat], ?_⟩
  rw [List.flatMap_singleton, all b.toNat small, UInt8.ofNat_toNat]

theorem utf8_of_ascii {bytes : List UInt8} (ascii : ∀ b ∈ bytes, b < 0x80) : Utf8 bytes := by
  induction bytes with
  | nil => exact ⟨[], rfl⟩
  | cons b bytes ih =>
      exact (utf8_singleton (ascii b List.mem_cons_self)).append
        (ih fun c there => ascii c (List.mem_cons_of_mem _ there))

theorem utf8_of_digits {bytes : List UInt8} (digit : ∀ b ∈ bytes, isDigit b = true) : Utf8 bytes :=
  utf8_of_ascii fun b there =>
    UInt8.lt_of_le_of_lt (of_decide_eq_true (digit b there)).2 (by decide)

theorem utf8_decimal (n : Nat) : Utf8 (decimal n) := utf8_of_digits (whole_decimal n).digit

end Fpag.Json
