import Fpag.Debug.InBounds
import Fpag.Lib.UpperBound

/-!
`Module::function_at`: the function that contains an address.

`read_functions` leaves the symbols of the table in the order of their addresses, and
`function_at` looks at one of them, the last that starts at or before the address. It has the
greatest start of those, but where several start there which of them it is depends on the sort.
So a function that contains the address is found whenever all that start last do, and not
otherwise: a symbol nested in another one hides it behind its own end, and a short alias a
longer one.
-/

namespace Fpag.Debug

open Cursor Reader

def Function.Contains (f : Function) (linkAddress : Nat) : Prop :=
  f.address ≤ linkAddress ∧ linkAddress < f.address + f.size

/-- What `function_at` is to answer: the name of a function that contains the address, and
nothing where none does. -/
def Finds (functions : List Function) (linkAddress : Nat) : Prop :=
  (∃ f ∈ functions, f.Contains linkAddress ∧ functionAt functions linkAddress = some f.name) ∨
    (∀ f ∈ functions, ¬ f.Contains linkAddress) ∧ functionAt functions linkAddress = none

/-! ## The symbols of the table -/

section Symbols

variable {symbols strings : SectionView} {file : List UInt8} {all : Sections}

/-- A symbol that lies in its section is read. -/
theorem readSymbol_ok (sound : symbols.Sound) {position : Nat}
    (inside : position + elfSymbolSize ≤ symbols.size) :
    ∃ symbol, attempt (readSymbol position) symbols.cursor = .ok (some symbol) := by
  unfold elfSymbolSize at inside
  let at_ (n : Nat) : Cursor := ⟨symbols.data, symbols.size, position + n⟩
  have behind {n : Nat} (few : n ≤ 24) : (at_ n).Sound :=
    ⟨sound.backed, sound.small, by simp only [at_]; omega⟩
  have start : (seek position).run symbols.cursor = .ok ((), at_ 0) := seek_cursor (by omega)
  have skipped : (skip 3).run (at_ 5) = .ok ((), at_ 8) := by
    rw [skip_run, if_pos]
    · rfl
    · rw [subtract_eq (behind (by decide)).inside sound.small]
      simp only [at_]
      omega
  have field (n width : Nat) (pos : 0 < width) (few : width ≤ 8) (fits : n + width ≤ 24) :
      ∃ value, (fixed width).run (at_ n) = .ok (value, at_ (n + width)) := by
    have here : (at_ n).Sound := behind (by omega)
    obtain ⟨value, -, read⟩ := here.fixed_ok pos few (by simp only [at_]; omega)
    exact ⟨value, by rw [read]; simp only [at_, Cursor.advance, Nat.add_assoc]⟩
  obtain ⟨name, named⟩ := field 0 4 (by decide) (by decide) (by decide)
  obtain ⟨info, informed⟩ := field 4 1 (by decide) (by decide) (by decide)
  obtain ⟨value, valued⟩ := field 8 8 (by decide) (by decide) (by decide)
  obtain ⟨length, measured⟩ := field 16 8 (by decide) (by decide) (by decide)
  refine ⟨(name, info, value, length), ?_⟩
  rw [attempt, readSymbol, run_bind_eq start, run_bind_eq named, run_bind_eq informed,
    run_bind_eq skipped, run_bind_eq valued, run_bind_eq measured]
  rfl

theorem functionOf_ok (named : strings.Sound) (symbol : Nat × Nat × Nat × Nat) :
    ∃ function, functionOf strings symbol = .ok function := by
  obtain ⟨nameOffset, info, value, length⟩ := symbol
  obtain ⟨name, found⟩ := named.stringAt_ok nameOffset
  by_cases other : info &&& 0xF ≠ sttFunc ∨ value = 0 ∨ length = 0
  · exact ⟨none, by rw [functionOf, if_pos other]⟩
  · by_cases bound : info >>> 4 ≠ 0 ∧ info >>> 4 ≠ stbGlobal ∧ info >>> 4 ≠ stbWeak
    · exact ⟨none, by rw [functionOf, if_neg other, if_pos bound]⟩
    · rw [functionOf, if_neg other, if_neg bound, found]
      cases name with
      | none => exact ⟨none, rfl⟩
      | some name => exact ⟨_, rfl⟩

/-- The loop comes to the end of the table, and so to the sort. -/
theorem readSymbols_eq (sound : symbols.Sound) (named : strings.Sound) {entrySize count index : Nat}
    (wide : elfSymbolSize ≤ entrySize) (inside : (index + count) * entrySize ≤ symbols.size)
    (functions : List Function) : ∃ found, ∀ sort,
      readSymbols sort symbols strings entrySize count index functions = .ok (sort found) := by
  induction count generalizing index functions with
  | zero => exact ⟨functions, fun sort => rfl⟩
  | succ count ih =>
      have here : index * entrySize + entrySize ≤ symbols.size := by
        have le : (index + 1) * entrySize ≤ (index + (count + 1)) * entrySize :=
          Nat.mul_le_mul_right _ (by omega)
        rw [Nat.add_mul, Nat.one_mul] at le
        exact le.trans inside
      have small := sound.small
      have place : u64 (index * entrySize) = index * entrySize := u64_eq (by omega)
      obtain ⟨symbol, read⟩ := @readSymbol_ok _ sound (u64 (index * entrySize)) (by omega)
      obtain ⟨function, given⟩ := functionOf_ok named symbol
      obtain ⟨found, rest⟩ := @ih (index + 1) (by rw [Nat.add_right_comm]; exact inside)
        (functions ++ function.toList)
      refine ⟨found, fun sort => ?_⟩
      rw [readSymbols, read]
      change (functionOf strings symbol >>= fun function =>
        readSymbols sort symbols strings entrySize count (index + 1)
          (functions ++ function.toList)) = _
      rw [given]
      exact rest sort

/-- The functions are the symbols of the table, sorted. -/
theorem readFunctions_eq (small : file.length < 2 ^ 64) : ∃ found, ∀ sort, sort [] = [] →
    readFunctions sort file all = .ok (sort found) := by
  by_cases present : (sectionView file all.symtab).present = true ∧
      (sectionView file all.strtab).present = true
  · have symbols := sectionView_sound small (.inr (present_iff.mp present.1))
    have strings := sectionView_sound small (.inr (present_iff.mp present.2))
    simp only [readFunctions, present, Bool.not_true, Bool.or_self, Bool.false_eq_true, if_false]
    generalize (if all.symtab.entrySize ≠ 0 then all.symtab.entrySize else elfSymbolSize) =
      entrySize
    split
    · exact ⟨[], fun sort empty => by rw [empty]⟩
    · next wide =>
        obtain ⟨found, all⟩ := readSymbols_eq symbols strings (Nat.not_lt.mp wide)
          (by rw [Nat.zero_add]; exact Nat.div_mul_le_self _ _) []
        exact ⟨found, fun sort _ => all sort⟩
  · refine ⟨[], fun sort empty => ?_⟩
    have absent : (!(sectionView file all.symtab).present ||
        !(sectionView file all.strtab).present) = true := by
      rw [Bool.or_eq_true, Bool.not_eq_true', Bool.not_eq_true']
      by_contra both
      simp only [not_or, Bool.not_eq_false] at both
      exact present both
    simp only [readFunctions, absent, if_true, empty]

end Symbols

/-! ## The lookup -/

section Lookup

variable {functions symbols : List Function} {linkAddress : Nat}

/-- A function that starts at or before the address ends behind it exactly where it contains it. -/
theorem functionAt_of_last {f : Function} (short : f.address + f.size < 2 ^ 64)
    (below : f.address ≤ linkAddress)
    (last : (functions.takeWhile fun g => g.address ≤ linkAddress).getLast? = some f) :
    (f.Contains linkAddress → functionAt functions linkAddress = some f.name) ∧
      (¬ f.Contains linkAddress → functionAt functions linkAddress = none) := by
  rw [functionAt, last]
  dsimp only
  rw [u64_eq short]
  constructor
  · intro contains
    exact if_neg (Nat.not_le.mpr contains.2)
  · intro outside
    have behind : f.address + f.size ≤ linkAddress := by
      by_contra inside
      exact outside ⟨below, Nat.not_le.mp inside⟩
    exact if_pos behind

/-- The lookup in a sorted list is right where the function it looks at contains the address, or
none does. -/
theorem finds_of_sorted (ordered : functions.Pairwise fun f g => f.address ≤ g.address)
    (short : ∀ f ∈ functions, f.address + f.size < 2 ^ 64)
    (good : (∃ f ∈ functions, f.Contains linkAddress) →
      ∀ f, IsLast Function.address linkAddress functions f → f.Contains linkAddress) :
    Finds functions linkAddress := by
  cases found : (functions.takeWhile fun f => f.address ≤ linkAddress).getLast? with
  | none =>
      have above := (getLast_eq_none ordered).mp found
      refine .inr ⟨fun f member contains => ?_, ?_⟩
      · exact absurd contains.1 (Nat.not_le.mpr (above f member))
      · rw [functionAt, found]
  | some f =>
      have last : IsLast Function.address linkAddress functions f := isLast_of_getLast ordered found
      have answer := functionAt_of_last (short f last.mem) last.below found
      by_cases contains : f.Contains linkAddress
      · exact .inl ⟨f, last.mem, contains, answer.1 contains⟩
      · refine .inr ⟨fun g member inside => ?_, answer.2 contains⟩
        exact contains (good ⟨g, member, inside⟩ f last)

/-- The same of a list before it is sorted, whatever order the sort leaves equal addresses in. -/
theorem finds_sort {sort : List Function → List Function} (sorts : Sorts Function.address sort)
    (short : ∀ f ∈ functions, f.address + f.size < 2 ^ 64)
    (good : (∃ f ∈ functions, f.Contains linkAddress) →
      ∀ f, IsLast Function.address linkAddress functions f → f.Contains linkAddress) :
    Finds (sort functions) linkAddress := by
  have perm := sorts.perm functions
  apply finds_of_sorted (sorts.ordered functions)
  · intro f member
    exact short f (perm.mem_iff.mp member)
  · rintro ⟨g, member, inside⟩ f last
    exact good ⟨g, perm.mem_iff.mp member, inside⟩ f (last.congr perm)

/-- Whatever order the sort leaves functions of one address in, `function_at` is right exactly
where every function that starts last at or before the address contains it, or no function
does. -/
theorem functionAt_iff {file : List UInt8} {all : Sections} (small : file.length < 2 ^ 64)
    (read : readFunctions id file all = .ok symbols)
    (short : ∀ f ∈ symbols, f.address + f.size < 2 ^ 64) :
    (∀ sort, Sorts Function.address sort →
      ∃ functions, readFunctions sort file all = .ok functions ∧ Finds functions linkAddress) ↔
    ((∃ f ∈ symbols, f.Contains linkAddress) →
      ∀ f, IsLast Function.address linkAddress symbols f → f.Contains linkAddress) := by
  obtain ⟨found, reads⟩ := @readFunctions_eq file all small
  obtain rfl : found = symbols := Except.ok.inj ((reads id rfl).symm.trans read)
  constructor
  · rintro right ⟨g, member, inside⟩ f last
    obtain ⟨sort, sorts, here⟩ := exists_sort_last last
    obtain ⟨functions, sorted, finds⟩ := right sort sorts
    rw [reads sort (sorts.perm []).eq_nil] at sorted
    obtain rfl := Except.ok.inj sorted
    have answer := functionAt_of_last (short f last.mem) last.below here
    by_contra outside
    rcases finds with ⟨h, -, -, named⟩ | ⟨none, -⟩
    · rw [answer.2 outside] at named
      cases named
    · exact none g ((sorts.perm found).mem_iff.mpr member) inside
  · intro good sort sorts
    exact ⟨sort found, reads sort (sorts.perm []).eq_nil, finds_sort sorts short good⟩

end Lookup

/-! ## Two functions -/

/-- A symbol of a function, with the offset of its name. -/
def symbolBytes (nameOffset address size : Nat) : List UInt8 :=
  toBytes 4 nameOffset ++ ([0x12, 0, 1, 0] ++ (toBytes 8 address ++ toBytes 8 size))

/-- A file with the symbols of two functions, and the names of them behind. -/
def twoFunctions (address size : Nat) : List UInt8 :=
  symbolBytes 1 0x1000 0x100 ++ (symbolBytes 3 address size ++ [0, 97, 0, 98, 0])

def twoSections : Sections where
  symtab := { offset := 0, size := 48, entrySize := 24 }
  strtab := { offset := 48, size := 5 }

/-- The functions of the file, one of them called `a` and the other one `b`. -/
def twoSymbols (address size : Nat) : List Function :=
  [⟨0x1000, 0x100, [97]⟩, ⟨address, size, [98]⟩]

/-- Of two functions side by side the first one is found. -/
theorem functionAt_iff_apart :
    (∃ f ∈ twoSymbols 0x1100 0x10, f.Contains 0x1050) ∧
      ∀ sort, Sorts Function.address sort → ∃ functions,
        readFunctions sort (twoFunctions 0x1100 0x10) twoSections = .ok functions ∧
          Finds functions 0x1050 := by
  have read : readFunctions id (twoFunctions 0x1100 0x10) twoSections =
      .ok (twoSymbols 0x1100 0x10) := by decide +kernel
  refine ⟨⟨_, List.mem_cons_self, by decide, by decide⟩, ?_⟩
  refine (functionAt_iff (by decide) read (by decide)).mpr ?_
  rintro - f ⟨member, below, -⟩
  rcases List.mem_pair.mp member with rfl | rfl
  · exact ⟨by decide, by decide⟩
  · exact absurd below (by decide)

/-- The second function lies in the first one. Behind its end the first one is not found. -/
theorem not_finds_nested : ∃ symbols,
    readFunctions id (twoFunctions 0x1010 0x10) twoSections = .ok symbols ∧
    (∀ f ∈ symbols, f.size ≠ 0 ∧ f.address + f.size < 2 ^ 64) ∧
    (∃ f ∈ symbols, f.Contains 0x1050) ∧
    ∀ sort, Sorts Function.address sort → ∃ functions,
      readFunctions sort (twoFunctions 0x1010 0x10) twoSections = .ok functions ∧
        functionAt functions 0x1050 = none ∧ ¬ Finds functions 0x1050 := by
  have read : readFunctions id (twoFunctions 0x1010 0x10) twoSections =
      .ok (twoSymbols 0x1010 0x10) := by decide +kernel
  have short : ∀ f ∈ twoSymbols 0x1010 0x10, f.size ≠ 0 ∧ f.address + f.size < 2 ^ 64 := by decide
  refine ⟨twoSymbols 0x1010 0x10, read, short, ?_, ?_⟩
  · exact ⟨⟨0x1000, 0x100, [97]⟩, List.mem_cons_self, by decide, by decide⟩
  · intro sort sorts
    obtain ⟨found, reads⟩ :=
      @readFunctions_eq (twoFunctions 0x1010 0x10) twoSections (by decide)
    obtain rfl := Except.ok.inj ((reads id rfl).symm.trans read)
    have outer : (⟨0x1000, 0x100, [97]⟩ : Function) ∈ sort (twoSymbols 0x1010 0x10) :=
      (sorts.perm _).mem_iff.mpr List.mem_cons_self
    suffices nothing : functionAt (sort (twoSymbols 0x1010 0x10)) 0x1050 = none by
      refine ⟨_, reads sort (sorts.perm []).eq_nil, nothing, ?_⟩
      rintro (⟨f, -, -, named⟩ | ⟨none, -⟩)
      · rw [nothing] at named
        cases named
      · exact none _ outer ⟨by decide, by decide⟩
    cases last :
        ((sort (twoSymbols 0x1010 0x10)).takeWhile fun f => f.address ≤ 0x1050).getLast? with
    | none => rw [functionAt, last]
    | some f =>
        have isLast := (isLast_of_getLast (sorts.ordered _) last).congr (sorts.perm _)
        have inner := isLast.greatest ⟨0x1010, 0x10, [98]⟩
          (List.mem_cons_of_mem _ List.mem_cons_self) (by decide)
        have answer := functionAt_of_last (short f isLast.mem).2 isLast.below last
        rcases List.mem_pair.mp isLast.mem with rfl | rfl
        · exact absurd inner (by decide)
        · exact answer.2 fun contains => absurd contains.2 (by decide)

end Fpag.Debug
