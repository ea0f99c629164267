import Mathlib.Data.List.Pairwise
import Fpag.Mem.PageAllocator
import Fpag.Lib.Schedule

/-!
The pages of a process: any number of allocations, each used, committed and given back.

`Ledger` is the address space together with the regions that are out, and a `PageCall` is one
call of the allocator or one store of a byte. The system may refuse any call of the allocator at
any point of it, except to take back a whole mapping. Nothing but the regions that are out ever
differs from the start (`pages_of_run`), and each of them is the array, or the ring, that its
caller takes it for (`image_of_run`).
-/

namespace Fpag.Mem

open Paging Paging.Space

variable {page : Nat}

inductive PageKind : Type
  | reserved
  | pages
  | huge
  | aliased
  deriving DecidableEq, Repr

/-- The number of addresses for `size` bytes: a ring has two for each of its bytes. -/
def PageKind.span : PageKind → BitVec 64 → Nat
  | .aliased, size => 2 * size.toNat
  | _, size => size.toNat

/-- What an allocation hands out. -/
structure PageRegion : Type where
  kind : PageKind
  base : Nat
  size : BitVec 64
  deriving DecidableEq

namespace PageRegion

def span (r : PageRegion) : Nat := r.kind.span r.size

def Covers (r : PageRegion) (a : Nat) : Prop := r.base ≤ a ∧ a < r.base + r.span

instance (r : PageRegion) (a : Nat) : Decidable (r.Covers a) :=
  inferInstanceAs (Decidable (_ ∧ _))

def Apart (r q : PageRegion) : Prop := ∀ a, r.Covers a → ¬ q.Covers a

end PageRegion

/-- A call of the allocator, or a store of one byte into a region. -/
inductive PageCall : Type
  | allocate (kind : PageKind) (size : BitVec 64) (a : Replies)
  | commit (r : PageRegion) (low : Nat) (size : BitVec 64) (answer : Answer)
  | free (r : PageRegion)
  | store (r : PageRegion) (i : Nat) (b : UInt8)

/-- The address space and the regions that are out. -/
structure Ledger (page : Nat) : Type where
  space : Space page
  live : List PageRegion

namespace Ledger

def start (s : Space page) : Ledger page := ⟨s, []⟩

/-- The function that allocates a region. -/
def allocate : PageKind → Replies → BitVec 64 → Space page → Option (Option Nat × Space page)
  | .reserved => reservePages
  | .pages => allocatePages
  | .huge => allocateHugePages
  | .aliased => allocateAliasedPages

/-- The function that takes a region back. -/
def release : PageKind → Nat → BitVec 64 → Space page → Option (Space page)
  | .aliased => freeAliasedPages
  | _ => freePages

/-- One call. A region is given back once, only reserved regions are committed, and a store stays
within a region that is out; `none` is then a failed check or a fault. -/
def step (call : PageCall) (l : Ledger page) : Option (Ledger page) :=
  match call with
  | .allocate kind size a =>
      (allocate kind a size l.space).map fun
        | (none, s) => { l with space := s }
        | (some base, s) => ⟨s, ⟨kind, base, size⟩ :: l.live⟩
  | .commit r low size answer =>
      if r ∈ l.live ∧ r.kind = .reserved ∧ low + size.toNat ≤ r.size.toNat then
        (commitPages answer (r.base + low) size l.space).map fun (_, s) => { l with space := s }
      else none
  | .free r =>
      if r ∈ l.live then
        (release r.kind r.base r.size l.space).map fun s => ⟨s, l.live.erase r⟩
      else none
  | .store r i b =>
      if r ∈ l.live ∧ i < r.span then
        (l.space.store (r.base + i) b).map fun s => { l with space := s }
      else none

end Ledger

/-! ## What a caller takes its region for -/

/-- An array of bytes, some of which can be read and written. -/
structure Image : Type where
  bytes : Nat → UInt8
  granted : Nat → Bool

namespace Image

/-- All bytes are zero; reserved pages cannot be touched yet. -/
def initial (kind : PageKind) : Image := ⟨fun _ => 0, fun _ => kind ≠ .reserved⟩

/-- What the region `r` gives at index `i`. -/
def load (m : Image) (r : PageRegion) (i : Nat) : Option UInt8 :=
  if m.granted i then some (m.bytes (i % r.size.toNat)) else none

/-- What a call makes of the array in the region `r`. -/
def after (r : PageRegion) (m : Image) : PageCall → Image
  | .commit q low size answer =>
      if q = r then
        { m with granted := fun i => m.granted i ||
            (decide (low ≤ i ∧ i < low + size.toNat) && answer.reaches (r.base + i)) }
      else m
  | .store q i b =>
      if q = r then { m with bytes := Function.update m.bytes (i % r.size.toNat) b } else m
  | _ => m

end Image

/-! ## What holds of the regions that are out -/

/-- The region `r` is the array `m`, in an object of its own that was not there at the start. -/
structure Laid (start s : Space page) (r : PageRegion) (object : Nat) (m : Image) : Prop where
  nonnull : 0 < r.base
  pointer : isPageAlignedPtr page r.base = true
  size : r.kind ≠ .huge → isPageAlignedSize page r.size = true
  huge : r.kind = .huge → isHugePageAlignedSize r.size = true
  inside : r.base + r.span ≤ 2 ^ 64
  nonempty : 0 < r.span
  vacant : ∀ a, r.Covers a → start.view a = none
  new : start.made ≤ object
  backed : s.Backed r.base r.span r.size.toNat object m.granted
  bytes : s.bytes object = m.bytes
  granted : r.kind ≠ .reserved → ∀ i, m.granted i = true

/-- The regions that are out are apart, each of them is an array of its own, and all else is as
it was at the start. -/
structure Sound (start : Space page) (l : Ledger page) : Prop where
  files : l.space.files = start.files
  keeps : start.Keeps l.space
  outside : ∀ a, (∀ r ∈ l.live, ¬ r.Covers a) → l.space.view a = start.view a
  apart : l.live.Pairwise PageRegion.Apart
  laid : ∀ r ∈ l.live, ∃ object m, Laid start l.space r object m

namespace PageRegion.Apart

theorem symm {r q : PageRegion} (apart : r.Apart q) : q.Apart r :=
  fun a inq inr => apart a inr inq

instance : Std.Symm PageRegion.Apart := ⟨fun _ _ => symm⟩

theorem ne {r q : PageRegion} (apart : r.Apart q) (nonempty : 0 < r.span) : r ≠ q := by
  rintro rfl
  exact apart r.base ⟨Nat.le_refl _, by omega⟩ ⟨Nat.le_refl _, by omega⟩

end PageRegion.Apart

section Laid

variable {start s s' : Space page} {r q : PageRegion} {object object' : Nat} {m m' : Image}

theorem Laid.load (laid : Laid start s r object m) {i : Nat} (inside : i < r.span) :
    s.load (r.base + i) = m.load r i := by
  rw [laid.backed.load inside, laid.bytes]
  rfl

theorem Laid.object_lt (laid : Laid start s r object m) : object < s.made :=
  laid.backed.object_lt laid.nonempty

theorem Laid.object_ne (laid : Laid start s r object m) (laid' : Laid start s q object' m')
    (apart : r.Apart q) : object ≠ object' :=
  laid.backed.object_ne laid'.backed laid'.nonempty fun a low high => apart a ⟨low, high⟩

theorem Laid.mapped (laid : Laid start s r object m) {a : Nat} (inside : r.Covers a) :
    s.view a ≠ none := by
  obtain ⟨low, high⟩ := inside
  have shows := laid.backed.shows (a - r.base) (by omega)
  rw [Nat.add_sub_cancel' low] at shows
  rw [shows]
  exact Option.some_ne_none _

/-- A step that leaves the region and its object alone. -/
theorem Laid.frame (laid : Laid start s r object m)
    (same : ∀ a, r.Covers a → s'.view a = s.view a)
    (others : ∀ a cell, s'.view a = some cell → cell.object = object → s.view a = some cell)
    (length : s'.length object = s.length object) (bytes : s'.bytes object = s.bytes object) :
    Laid start s' r object m :=
  { laid with
    backed := laid.backed.frame (fun a low high => same a ⟨low, high⟩) others length
    bytes := bytes.trans laid.bytes }

/-- A step that changes only what another region shows. -/
theorem Laid.elsewhere (laid : Laid start s r object m) (touches : s.Touches s' q.base q.span)
    (apart : r.Apart q)
    (others : ∀ a cell, q.Covers a → s'.view a = some cell → cell.object ≠ object) :
    Laid start s' r object m := by
  apply laid.frame
  · intro a inside
    exact touches.outside a (apart a inside)
  · intro a cell shows its
    by_cases within : q.Covers a
    · exact absurd its (others a cell within shows)
    · exact (touches.outside a within).symm.trans shows
  · rw [touches.length]
  · rw [touches.bytes]

end Laid

/-! ## One call -/

theorem allocate_cases {kind : PageKind} {a : Replies} {size : BitVec 64} {s s' : Space page}
    {ptr : Option Nat} (h : Ledger.allocate kind a size s = some (ptr, s')) :
    (kind ≠ .huge → isPageAlignedSize page size = true) ∧
    (kind = .huge → isHugePageAlignedSize size = true) ∧
    Allocated s (kind.span size) size.toNat (kind ≠ .reserved) ptr s' := by
  cases kind with
  | reserved =>
      obtain ⟨aligned, comes⟩ := reservePages_cases h
      exact ⟨fun _ => aligned, nofun, comes⟩
  | pages =>
      obtain ⟨aligned, comes⟩ := allocatePages_cases h
      exact ⟨fun _ => aligned, nofun, comes⟩
  | huge =>
      obtain ⟨aligned, comes⟩ := allocateHugePages_cases h
      exact ⟨fun other => absurd rfl other, fun _ => aligned, comes⟩
  | aliased =>
      obtain ⟨aligned, comes⟩ := allocateAliasedPages_cases h
      exact ⟨fun _ => aligned, nofun, comes⟩

/-- What a region that has been taken back leaves of the address space. -/
theorem release_cases {kind : PageKind} {base : Nat} {size : BitVec 64} {s s' : Space page}
    (nonnull : 0 < base) (inside : base + kind.span size ≤ 2 ^ 64)
    (h : Ledger.release kind base size s = some s') :
    s' = s.munmap base (kind.span size) := by
  cases kind with
  | aliased =>
      simp only [Ledger.release, freeAliasedPages] at h
      split at h
      · cases h
        rw [BitVec.toNat_mul, PageKind.span, Nat.mul_comm, Nat.mod_eq_of_lt]
        · rfl
        · have : 2 * size.toNat < 2 ^ 64 := by
            rw [PageKind.span] at inside
            omega
          exact this
      · cases h
  | reserved | pages | huge =>
      simp only [Ledger.release, freePages] at h
      split at h <;> cases h
      rfl

variable {start : Space page} {l l' : Ledger page} {call : PageCall} {r : PageRegion}
  {object : Nat} {m : Image}

/-- What one call can do. -/
inductive Moves (l : Ledger page) : PageCall → Ledger page → Prop
  | refused {kind : PageKind} {size : BitVec 64} {a : Replies} {s' : Space page}
      (same : l.space.Same s') : Moves l (.allocate kind size a) ⟨s', l.live⟩
  | handed {kind : PageKind} {size : BitVec 64} {a : Replies} {s' : Space page} {base : Nat}
      (gains : l.space.Gains s' base (kind.span size) size.toNat (kind ≠ .reserved))
      (aligned : kind ≠ .huge → isPageAlignedSize page size = true)
      (huge : kind = .huge → isHugePageAlignedSize size = true) :
      Moves l (.allocate kind size a) ⟨s', ⟨kind, base, size⟩ :: l.live⟩
  | committed {r : PageRegion} {low : Nat} {size : BitVec 64} {answer : Answer}
      (member : r ∈ l.live) (reserved : r.kind = .reserved) (within : low + size.toNat ≤ r.span) :
      Moves l (.commit r low size answer)
        ⟨(l.space.mprotect answer (r.base + low) size.toNat).2, l.live⟩
  | freed {r : PageRegion} (member : r ∈ l.live) :
      Moves l (.free r) ⟨l.space.munmap r.base r.span, l.live.erase r⟩
  | stored {r : PageRegion} {i : Nat} {b : UInt8} {s' : Space page} (member : r ∈ l.live)
      (within : i < r.span) (stored : l.space.store (r.base + i) b = some s') :
      Moves l (.store r i b) ⟨s', l.live⟩

theorem Sound.step_cases (sound : Sound start l) (h : l.step call = some l') : Moves l call l' := by
  cases call with
  | allocate kind size a =>
      simp only [Ledger.step, Option.map_eq_some_iff] at h
      obtain ⟨⟨ptr, s'⟩, allocated, result⟩ := h
      obtain ⟨aligned, huge, comes⟩ := allocate_cases allocated
      cases comes with
      | refused same =>
          cases result
          exact .refused same
      | handed gains =>
          cases result
          exact .handed gains aligned huge
  | commit r low size answer =>
      simp only [Ledger.step] at h
      split at h
      · rename_i legal
        obtain ⟨member, reserved, within⟩ := legal
        obtain ⟨⟨ok, s'⟩, committed, result⟩ := Option.map_eq_some_iff.mp h
        cases result
        simp only [commitPages] at committed
        split at committed
        · obtain rfl := congrArg Prod.snd (Option.some_inj.mp committed)
          apply Moves.committed member reserved
          rwa [PageRegion.span, reserved]
        · cases committed
      · cases h
  | free r =>
      simp only [Ledger.step] at h
      split at h
      · rename_i member
        obtain ⟨object, m, laid⟩ := sound.laid r member
        obtain ⟨s', released, result⟩ := Option.map_eq_some_iff.mp h
        cases result
        rw [release_cases laid.nonnull laid.inside released]
        exact .freed member
      · cases h
  | store r i b =>
      simp only [Ledger.step] at h
      split at h
      · rename_i legal
        obtain ⟨s', stored, result⟩ := Option.map_eq_some_iff.mp h
        cases result
        exact .stored legal.1 legal.2 stored
      · cases h

theorem Sound.apart_of_mem (sound : Sound start l) {r q : PageRegion} (inr : r ∈ l.live)
    (inq : q ∈ l.live) (ne : r ≠ q) : r.Apart q :=
  sound.apart.forall inr inq ne

theorem Sound.nodup (sound : Sound start l) : l.live.Nodup := by
  apply sound.apart.imp_of_mem
  intro r q member _ apart
  obtain ⟨object, m, laid⟩ := sound.laid r member
  exact apart.ne laid.nonempty

/-- A region that is handed out was vacant, so it is apart from those that are out. -/
theorem Sound.apart_of_gains (sound : Sound start l) {r : PageRegion} {s' : Space page} {n : Nat}
    {granted : Bool} (gains : l.space.Gains s' r.base r.span n granted) :
    ∀ q ∈ l.live, r.Apart q := by
  intro q member a new old
  obtain ⟨object, m, laid⟩ := sound.laid q member
  exact laid.mapped old (gains.vacant a new.1 new.2)

/-- A call makes of the array what `Image.after` says, unless it takes the region back. -/
theorem Laid.step (sound : Sound start l) (h : l.step call = some l')
    (laid : Laid start l.space r object m) (member : r ∈ l.live) (kept : call ≠ .free r) :
    Laid start l'.space r object (m.after r call) := by
  have old := laid.object_lt
  cases sound.step_cases h with
  | refused same =>
      exact laid.frame (fun a _ => by rw [same.view]) (fun a cell shows _ => same.view ▸ shows)
        (same.keeps.length _ old) (same.keeps.bytes _ old)
  | @handed kind size _ s' base gains aligned huge =>
      have apart := sound.apart_of_gains (r := ⟨kind, base, size⟩) gains r member
      apply laid.frame
      · intro a inside
        exact gains.outside a (apart.symm a inside)
      · intro a cell shows its
        by_cases within : base ≤ a ∧ a < base + kind.span size
        · have new := gains.backed.shows (a - base) (by omega)
          rw [Nat.add_sub_cancel' within.1, shows, Option.some_inj] at new
          rw [new] at its
          exact absurd its (Nat.ne_of_gt old)
        · exact (gains.outside a within).symm.trans shows
      · exact gains.keeps.length _ old
      · exact gains.keeps.bytes _ old
  | @committed q low size answer member' reserved within =>
      by_cases same : q = r
      · subst same
        obtain ⟨_, protects, touches, backed⟩ := laid.backed.mprotect within answer
        rw [Image.after, if_pos rfl, protects]
        exact { laid with
          backed := backed
          bytes := touches.bytes ▸ laid.bytes
          granted := fun other => absurd reserved other }
      · obtain ⟨object', m', laid'⟩ := sound.laid q member'
        have apart := sound.apart_of_mem member member' (Ne.symm same)
        obtain ⟨_, protects, touches, backed⟩ := laid'.backed.mprotect within answer
        rw [Image.after, if_neg same, protects]
        apply laid.elsewhere (touches.within (Nat.le_add_right _ _) (by omega)) apart
        rintro a cell ⟨above, below⟩ shows its
        have other := backed.shows (a - q.base) (by omega)
        rw [Nat.add_sub_cancel' above, shows, Option.some_inj] at other
        rw [other] at its
        exact laid.object_ne laid' apart its.symm
  | @freed q member' =>
      have other : r ≠ q := fun same => kept (congrArg PageCall.free same.symm)
      apply laid.elsewhere (munmap_touches ..) (sound.apart_of_mem member member' other)
      rintro a cell ⟨low, high⟩ shows
      rw [munmap_view, if_pos ⟨low, high⟩] at shows
      cases shows
  | @stored q i b s' member' within stored =>
      by_cases same : q = r
      · subst same
        rw [laid.backed.store within] at stored
        split at stored
        · cases stored
          rw [Image.after, if_pos rfl]
          exact { laid with
            backed := laid.backed.poke ..
            bytes := (poke_bytes ..).trans (by rw [laid.bytes]) }
        · cases stored
      · obtain ⟨object', m', laid'⟩ := sound.laid q member'
        have ne := laid.object_ne laid' (sound.apart_of_mem member member' (Ne.symm same))
        rw [laid'.backed.store within] at stored
        split at stored
        · cases stored
          rw [Image.after, if_neg same]
          exact laid.frame (fun _ _ => rfl) (fun _ _ shows _ => shows) rfl
            (poke_bytes_of_ne _ _ _ ne)
        · cases stored

/-- A range that has just been gained is a region of zeros. -/
theorem Sound.handed (sound : Sound start l) {kind : PageKind} {base : Nat} {size : BitVec 64}
    {s' : Space page} (gains : l.space.Gains s' base (kind.span size) size.toNat (kind ≠ .reserved))
    (aligned : kind ≠ .huge → isPageAlignedSize page size = true)
    (huge : kind = .huge → isHugePageAlignedSize size = true) :
    Laid start s' ⟨kind, base, size⟩ l.space.made (.initial kind) := by
  have apart := sound.apart_of_gains (r := ⟨kind, base, size⟩) gains
  refine ⟨gains.nonnull, ?_, aligned, huge, gains.inside, ?_, ?_, sound.keeps.made, gains.backed,
    gains.zero, ?_⟩
  · rw [isPageAlignedPtr, gains.aligned]
    rfl
  · have := gains.backed.pos
    cases kind <;> simp only [PageRegion.span, PageKind.span] <;> omega
  · intro a new
    rw [← sound.outside a fun q member => apart q member a new]
    exact gains.vacant a new.1 new.2
  · intro other _
    exact decide_eq_true other

/-- A region stays out until it is given back. -/
theorem Sound.stays (sound : Sound start l) (h : l.step call = some l') (member : r ∈ l.live)
    (kept : call ≠ .free r) : r ∈ l'.live := by
  cases sound.step_cases h with
  | refused | committed | stored => exact member
  | handed => exact List.mem_cons_of_mem _ member
  | @freed q _ => exact (List.mem_erase_of_ne fun same => kept (congrArg _ same.symm)).mpr member

theorem Sound.step (sound : Sound start l) (h : l.step call = some l') : Sound start l' := by
  have others : ∀ r ∈ l.live, call ≠ .free r → ∃ object m, Laid start l'.space r object m := by
    intro r member kept
    obtain ⟨object, m, laid⟩ := sound.laid r member
    exact ⟨object, _, laid.step sound h member kept⟩
  cases sound.step_cases h with
  | refused same =>
      refine ⟨same.files.trans sound.files, sound.keeps.trans same.keeps, ?_, sound.apart,
        fun r member => others r member nofun⟩
      intro a uncovered
      rw [same.view]
      exact sound.outside a uncovered
  | @handed kind size _ s' base gains aligned huge =>
      refine ⟨gains.files.trans sound.files, sound.keeps.trans gains.keeps, ?_,
        List.pairwise_cons.mpr ⟨sound.apart_of_gains gains, sound.apart⟩,
        List.forall_mem_cons.mpr ⟨⟨_, _, sound.handed gains aligned huge⟩,
          fun r member => others r member nofun⟩⟩
      intro a uncovered
      obtain ⟨new, old⟩ := List.forall_mem_cons.mp uncovered
      exact (gains.outside a new).trans (sound.outside a old)
  | @committed r low size answer member reserved within =>
      obtain ⟨object, m, laid⟩ := sound.laid r member
      obtain ⟨_, protects, touches, -⟩ := laid.backed.mprotect within answer
      have wider : l.space.Touches _ r.base r.span := touches.within (by omega) (by omega)
      rw [protects] at others ⊢
      refine ⟨touches.files.trans sound.files, sound.keeps.trans touches.keeps, ?_, sound.apart,
        fun q member => others q member nofun⟩
      intro a uncovered
      exact (wider.outside a (uncovered r member)).trans (sound.outside a uncovered)
  | @freed r member =>
      obtain ⟨object, m, laid⟩ := sound.laid r member
      have left : ∀ q, q ∈ l.live.erase r ↔ q ≠ r ∧ q ∈ l.live := fun q =>
        sound.nodup.mem_erase_iff
      refine ⟨sound.files, sound.keeps.trans (munmap_touches ..).keeps, ?_,
        sound.apart.sublist List.erase_sublist, ?_⟩
      · intro a uncovered
        by_cases inside : r.Covers a
        · exact (if_pos inside).trans (laid.vacant a inside).symm
        · refine (if_neg inside).trans (sound.outside a fun q member' => ?_)
          by_cases same : q = r
          · exact same ▸ inside
          · exact uncovered q ((left q).mpr ⟨same, member'⟩)
      · intro q member'
        obtain ⟨other, before⟩ := (left q).mp member'
        exact others q before fun same => other (PageCall.free.inj same).symm
  | @stored r i b s' member within stored =>
      obtain ⟨object, m, laid⟩ := sound.laid r member
      rw [laid.backed.store within] at stored
      split at stored
      · cases stored
        exact ⟨sound.files, sound.keeps.poke laid.new b, sound.outside, sound.apart,
          fun q member => others q member nofun⟩
      · cases stored

/-! ## Runs -/

theorem sound_start (s : Space page) : Sound s (.start s) where
  files := rfl
  keeps := .refl s
  outside _ _ := rfl
  apart := .nil
  laid _ member := nomatch member

theorem sound_of_run {s : Space page} {calls : List PageCall}
    (h : Schedule.run Ledger.step (.start s) calls = some l) : Sound s l :=
  Schedule.run_invariant (fun moved sound => sound.step moved) h (sound_start s)

/-- A region that is out can be given back: no check of the function that takes it fails. -/
theorem Sound.free (sound : Sound start l) (divides : page ∣ hugePageSize) (member : r ∈ l.live) :
    ∃ l', l.step (.free r) = some l' := by
  obtain ⟨object, m, laid⟩ := sound.laid r member
  have size : isPageAlignedSize page r.size = true := by
    by_cases huge : r.kind = .huge
    · have whole := Nat.dvd_of_mod_eq_zero (beq_iff_eq.mp (laid.huge huge))
      exact beq_iff_eq.mpr (Nat.mod_eq_zero_of_dvd (divides.trans whole))
    · exact laid.size huge
  have both : (isPageAlignedPtr page r.base && isPageAlignedSize page r.size) = true := by
    rw [laid.pointer, size]
    rfl
  cases kind : r.kind <;>
    simp only [Ledger.step, if_pos member, Ledger.release, kind, freePages, freeAliasedPages,
      if_pos both, Option.map_some] <;>
    exact ⟨_, rfl⟩

/-- Whatever is allocated, committed, stored to and given back, in whatever order and wherever
the system refuses: the regions that are out lie apart from each other and from all that was
mapped before, everything else of the address space and every descriptor is as at the start, what
could be read then reads the same, and each region can be given back. -/
theorem pages_of_run {s : Space page} {calls : List PageCall} (divides : page ∣ hugePageSize)
    (h : Schedule.run Ledger.step (.start s) calls = some l) :
    l.live.Pairwise PageRegion.Apart ∧
      (∀ r ∈ l.live, ∀ a, r.Covers a → s.view a = none) ∧
      (∀ a, (∀ r ∈ l.live, ¬ r.Covers a) → l.space.view a = s.view a) ∧
      l.space.files = s.files ∧
      (∀ a, s.view a ≠ none → l.space.load a = s.load a) ∧
      ∀ r ∈ l.live, ∃ l', l.step (.free r) = some l' := by
  have sound := sound_of_run h
  have vacant : ∀ r ∈ l.live, ∀ a, r.Covers a → s.view a = none := by
    intro r member
    obtain ⟨object, m, laid⟩ := sound.laid r member
    exact laid.vacant
  refine ⟨sound.apart, vacant, sound.outside, sound.files, ?_, fun r => sound.free divides⟩
  intro a mapped
  apply sound.keeps.load
  exact sound.outside a fun r member inside => mapped (vacant r member a inside)

/-- A ring, a second one whose second half cannot be mapped, and plain pages at a place the system
may not give out. -/
def fewCalls : List PageCall :=
  [.allocate .aliased 4 { memfd := some 3, truncated := true, reserved := some 8 },
    .allocate .aliased 4 { memfd := some 3, truncated := true, reserved := some 32,
                           view2 := .refused fun a => a == 36 },
    .store ⟨.aliased, 8, 4⟩ 5 7,
    .allocate .pages 4 { reserved := some 12 }]

theorem pages_of_run_fewCalls :
    ∃ l, Schedule.run Ledger.step (.start (.empty 4)) fewCalls = some l ∧
      l.live = [⟨.aliased, 8, 4⟩] ∧ l.space.view 32 = none ∧ l.space.files = (Space.empty 4).files ∧
      ∃ l', l.step (.free ⟨.aliased, 8, 4⟩) = some l' := by
  have ran : ∃ l, Schedule.run Ledger.step (.start (.empty 4)) fewCalls = some l ∧
      l.live = [⟨.aliased, 8, 4⟩] := ⟨_, rfl, rfl⟩
  obtain ⟨l, h, live⟩ := ran
  obtain ⟨-, -, outside, files, -, free⟩ := pages_of_run (by decide) h
  rw [live] at outside free
  exact ⟨l, h, live, outside 32 (by decide), files, free _ List.mem_cons_self⟩

/-- A region that is out is the array that its caller takes it for: from the allocation on, until
it is given back, each index reads as the last byte stored there or, in a ring, one size before or
after it. -/
theorem image_of_run {s : Space page} {before during : List PageCall} {kind : PageKind}
    {size : BitVec 64} {a : Replies} {base : Nat} {l m l' : Ledger page}
    (reached : Schedule.run Ledger.step (.start s) before = some l)
    (handed : l.step (.allocate kind size a) = some m)
    (out : m.live = ⟨kind, base, size⟩ :: l.live)
    (rest : Schedule.run Ledger.step m during = some l')
    (kept : .free ⟨kind, base, size⟩ ∉ during) :
    ∀ i < kind.span size, l'.space.load (base + i) =
      (during.foldl (Image.after ⟨kind, base, size⟩) (.initial kind)).load
        ⟨kind, base, size⟩ i := by
  have sound := sound_of_run reached
  obtain ⟨object, fresh⟩ : ∃ object, Laid s m.space ⟨kind, base, size⟩ object (.initial kind) := by
    cases sound.step_cases handed with
    | refused same => exact absurd out (List.cons_ne_self _ _).symm
    | handed gains aligned huge =>
        obtain ⟨same, -⟩ := List.cons.inj out
        cases same
        exact ⟨_, sound.handed gains aligned huge⟩
  have follows : ∀ {call : PageCall} {image : Image} {l l' : Ledger page},
      call ≠ .free ⟨kind, base, size⟩ → l.step call = some l' →
      (Sound s l ∧ ⟨kind, base, size⟩ ∈ l.live ∧ Laid s l.space ⟨kind, base, size⟩ object image) →
      Sound s l' ∧ ⟨kind, base, size⟩ ∈ l'.live ∧
        Laid s l'.space ⟨kind, base, size⟩ object (image.after ⟨kind, base, size⟩ call) := by
    rintro call image l l' other moved ⟨sound, member, laid⟩
    exact ⟨sound.step moved, sound.stays moved member other, laid.step sound moved member other⟩
  have others : ∀ call ∈ during, call ≠ .free ⟨kind, base, size⟩ :=
    fun call member same => kept (same ▸ member)
  have begins : Sound s m ∧ ⟨kind, base, size⟩ ∈ m.live ∧
      Laid s m.space ⟨kind, base, size⟩ object (.initial kind) :=
    ⟨sound.step handed, out ▸ List.mem_cons_self, fresh⟩
  obtain ⟨-, -, laid⟩ := Schedule.run_foldl @follows rest others begins
  exact fun i inside => laid.load inside

theorem image_of_run_fewCalls :
    ∃ l, Schedule.run Ledger.step (.start (.empty 4)) fewCalls = some l ∧
      l.space.load 9 = some 7 ∧ l.space.load 13 = some 7 ∧ l.space.load 10 = some 0 := by
  have first : ∃ m, (Ledger.start (.empty 4)).step
      (.allocate .aliased 4 { memfd := some 3, truncated := true, reserved := some 8 }) = some m ∧
      m.live = [⟨.aliased, 8, 4⟩] := ⟨_, rfl, rfl⟩
  obtain ⟨m, handed, out⟩ := first
  have rest : ∃ l, Schedule.run Ledger.step m fewCalls.tail = some l := by
    obtain rfl := Option.some_inj.mp handed
    exact ⟨_, rfl⟩
  obtain ⟨l, rest⟩ := rest
  have begin : Schedule.run Ledger.step (.start (.empty 4)) [] = some (.start (.empty 4)) := rfl
  have reads := image_of_run begin handed out rest (by simp [fewCalls])
  exact ⟨l, Schedule.run_cons_eq_some.mpr ⟨m, handed, rest⟩, reads 1 (by decide),
    reads 5 (by decide), reads 2 (by decide)⟩

end Fpag.Mem
