import Fpag.Lib.Paging

/-!
`page_allocator.cc` on Linux with 64-bit words: the functions that hand out pages and take them
back.

A pointer is an address. `none` is a failed check; where a function returns a pointer, the
`none` inside is `nullptr`. What the system answers to the calls of a function is in `Replies`.
-/

namespace Fpag.Mem

open Paging Paging.Space

variable {page : Nat}

/-- What the system answers to the calls that an allocation makes. -/
structure Replies : Type where
  memfd : Option Nat := none
  truncated : Bool := false
  reserved : Option Nat := none
  huge : Option Nat := none
  commit : Answer := .done
  view1 : Answer := .done
  view2 : Answer := .done

/-- `is_page_aligned_size`. -/
def isPageAlignedSize (page : Nat) (size : BitVec 64) : Bool := size.toNat % page == 0

/-- `is_page_aligned_ptr`. -/
def isPageAlignedPtr (page ptr : Nat) : Bool := ptr % page == 0

/-- `huge_page_size`: 2 MiB. -/
def hugePageSize : Nat := 2 * 1024 * 1024

/-- `is_huge_page_aligned_size`. -/
def isHugePageAlignedSize (size : BitVec 64) : Bool := size.toNat % hugePageSize == 0

/-- `reserve_pages`. -/
def reservePages (a : Replies) (size : BitVec 64) (s : Space page) :
    Option (Option Nat × Space page) :=
  if isPageAlignedSize page size then some (s.mmapAnonymous a.reserved size.toNat false) else none

/-- `commit_pages`. -/
def commitPages (answer : Answer) (ptr : Nat) (size : BitVec 64) (s : Space page) :
    Option (Bool × Space page) :=
  if isPageAlignedPtr page ptr && isPageAlignedSize page size then
    some (s.mprotect answer ptr size.toNat)
  else none

/-- `free_pages`. -/
def freePages (ptr : Nat) (size : BitVec 64) (s : Space page) : Option (Space page) :=
  if isPageAlignedPtr page ptr && isPageAlignedSize page size then some (s.munmap ptr size.toNat)
  else none

/-- `allocate_pages`. -/
def allocatePages (a : Replies) (size : BitVec 64) (s : Space page) :
    Option (Option Nat × Space page) :=
  if isPageAlignedSize page size then
    match reservePages a size s with
    | none => none
    | some (none, s) => some (none, s)
    | some (some ptr, s) =>
        match commitPages a.commit ptr size s with
        | none => none
        | some (true, s) => some (some ptr, s)
        | some (false, s) => (freePages ptr size s).map fun s => (none, s)
  else none

/-- `allocate_huge_pages`. -/
def allocateHugePages (a : Replies) (size : BitVec 64) (s : Space page) :
    Option (Option Nat × Space page) :=
  if isHugePageAlignedSize size then
    match s.mmapAnonymous a.huge size.toNat true with
    | (some ptr, s) => some (some ptr, s)
    | (none, s) => allocatePages a size s
  else none

/-- `allocate_aliased_pages`. -/
def allocateAliasedPages (a : Replies) (size : BitVec 64) (s : Space page) :
    Option (Option Nat × Space page) :=
  if isPageAlignedSize page size then
    match s.memfdCreate a.memfd with
    | (none, s) => some (none, s)
    | (some fd, s) =>
        -- a size from 2 ^ 63 on is a negative `off_t`
        match s.ftruncate a.truncated fd size.toInt with
        | (false, s) => some (none, s.close fd)
        | (true, s) =>
            match s.mmapAnonymous a.reserved (size * 2).toNat false with
            | (none, s) => some (none, s.close fd)
            | (some base, s) =>
                match s.mmapFixed a.view1 base size.toNat fd with
                | (view1, s) =>
                    match s.mmapFixed a.view2 (base + size.toNat) size.toNat fd with
                    | (view2, s) =>
                        let s := s.close fd
                        if !view1 || !view2 then some (none, s.munmap base (size * 2).toNat)
                        else some (some base, s)
  else none

/-- `free_aliased_pages`. -/
def freeAliasedPages (ptr : Nat) (size : BitVec 64) (s : Space page) : Option (Space page) :=
  if isPageAlignedPtr page ptr && isPageAlignedSize page size then
    some (s.munmap ptr (size * 2).toNat)
  else none

/-! ## What the functions come to -/

/-- An allocation of `n` bytes as `span` addresses: it comes to nothing, or a range is gained. -/
inductive Allocated (s : Space page) (span n : Nat) (granted : Bool) :
    Option Nat → Space page → Prop
  | refused {s'} (same : s.Same s') : Allocated s span n granted none s'
  | handed {s' base} (gains : s.Gains s' base span n granted) :
      Allocated s span n granted (some base) s'

variable {a : Replies} {size : BitVec 64} {s s' : Space page} {ptr : Option Nat}

theorem reservePages_cases (h : reservePages a size s = some (ptr, s')) :
    isPageAlignedSize page size ∧ Allocated s size.toNat size.toNat false ptr s' := by
  unfold reservePages at h
  split at h
  · rename_i aligned
    refine ⟨aligned, ?_⟩
    rcases mmapAnonymous_cases a.reserved size.toNat false s with none_ | ⟨base, s₁, some_, gains⟩
    · rw [none_] at h
      cases h
      exact .refused (.refl s)
    · rw [some_] at h
      cases h
      exact .handed gains
  · cases h

/-- The pages that are handed out are committed, and those that cannot be are given back. -/
theorem allocatePages_cases (h : allocatePages a size s = some (ptr, s')) :
    isPageAlignedSize page size ∧ Allocated s size.toNat size.toNat true ptr s' := by
  unfold allocatePages at h
  split at h
  · rename_i aligned
    refine ⟨aligned, ?_⟩
    cases reserved : reservePages a size s with
    | none =>
        rw [reserved] at h
        cases h
    | some result =>
        obtain ⟨ptr₁, s₁⟩ := result
        rw [reserved] at h
        obtain ⟨-, comes⟩ := reservePages_cases reserved
        cases comes with
        | refused same =>
            cases h
            exact .refused same
        | @handed _ base gains =>
            have pointer : isPageAlignedPtr page base = true := by
              rw [isPageAlignedPtr, gains.aligned]
              rfl
            have whole : 0 + size.toNat ≤ size.toNat := Nat.le_of_eq (Nat.zero_add _)
            obtain ⟨s₂, protects, touches, backed⟩ := gains.backed.mprotect whole a.commit
            rw [Nat.add_zero] at protects touches
            simp only [commitPages, pointer, aligned, Bool.and_self, if_true] at h
            rw [protects] at h
            cases answer : a.commit with
            | done =>
                rw [answer] at h backed
                cases h
                refine .handed (gains.touch touches ⟨backed.pos, ?_, backed.length, backed.alone⟩)
                intro i small
                rw [backed.shows i small]
                simp [Answer.reaches, small]
            | refused torn =>
                rw [answer] at h
                simp only [freePages, pointer, aligned, Bool.and_self, if_true, Answer.isDone,
                  Option.map_some, Option.some_inj] at h
                cases h
                exact .refused (gains.munmap touches)
  · cases h

theorem allocateHugePages_cases (h : allocateHugePages a size s = some (ptr, s')) :
    isHugePageAlignedSize size ∧ Allocated s size.toNat size.toNat true ptr s' := by
  unfold allocateHugePages at h
  split at h
  · rename_i aligned
    refine ⟨aligned, ?_⟩
    rcases mmapAnonymous_cases a.huge size.toNat true s with none_ | ⟨base, s₁, some_, gains⟩
    · rw [none_] at h
      exact (allocatePages_cases h).2
    · rw [some_] at h
      cases h
      exact .handed gains
  · cases h

theorem toNat_twice (fits : 0 ≤ size.toInt) : (size * 2).toNat = 2 * size.toNat := by
  have small : size.toNat < 2 ^ 63 := by
    rw [BitVec.toInt_eq_toNat_cond] at fits
    split at fits
    · omega
    · have := size.isLt
      omega
  rw [BitVec.toNat_mul, Nat.mul_comm]
  exact Nat.mod_eq_of_lt (by simp; omega)

/-- The ring is mapped as a whole, or nothing is left of it: not the descriptor, and not the
half that could be mapped. -/
theorem allocateAliasedPages_cases (h : allocateAliasedPages a size s = some (ptr, s')) :
    isPageAlignedSize page size ∧ Allocated s (2 * size.toNat) size.toNat true ptr s' := by
  unfold allocateAliasedPages at h
  split at h
  · rename_i aligned
    refine ⟨aligned, ?_⟩
    rcases memfdCreate_cases a.memfd s with none_ | ⟨fd, s₁, some_, created⟩
    · rw [none_] at h
      cases h
      exact .refused (.refl s)
    · rw [some_] at h
      rcases created.ftruncate a.truncated size.toInt with none_ | ⟨s₂, some_, fits, opens⟩
      · simp only [none_] at h
        cases h
        exact .refused ⟨created.view, created.close rfl, created.keeps.congr rfl rfl rfl⟩
      · simp only [some_, toNat_twice fits] at h
        have natural : size.toInt.toNat = size.toNat := by
          rw [BitVec.toInt_eq_toNat_cond] at fits ⊢
          split at fits
          · omega
          · omega
        rw [natural] at opens
        rcases mmapAnonymous_cases a.reserved (2 * size.toNat) false s₂ with
          none_ | ⟨base, s₃, some_, gains⟩
        · rw [none_] at h
          cases h
          exact .refused ⟨opens.view, opens.close rfl, opens.keeps.congr rfl rfl rfl⟩
        · rw [some_] at h
          obtain ⟨s₄, s₅, result₁, result₂, touches, shows⟩ :=
            mmapFixed_twice (gains.files ▸ opens.file) a.view1 a.view2 base size.toNat
          simp only [result₁, result₂] at h
          cases both : a.view1.isDone && a.view2.isDone with
          | false =>
              have refused : (!a.view1.isDone || !a.view2.isDone) = true := by
                rw [← Bool.not_and, both, Bool.not_false]
              rw [if_pos refused] at h
              cases h
              exact .refused (opens.munmap gains touches)
          | true =>
              obtain ⟨done₁, done₂⟩ := Bool.and_eq_true_iff.mp both
              have pos : 0 < size.toNat := by
                have := gains.backed.pos
                omega
              simp only [done₁, done₂, Bool.not_true, Bool.or_self, Bool.false_eq_true,
                if_false] at h
              cases h
              exact .handed (opens.ring pos gains touches (shows done₁ done₂))
  · cases h

end Fpag.Mem
