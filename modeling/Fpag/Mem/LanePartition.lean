import Mathlib.Data.BitVec
import Fpag.Mem.ArenaSafety

/-!
How `ConcurrentArena::set_lanes` cuts the room below the pool, for words of any width.

The end of a lane and the begin of the next are the same product, divided twice, so the slices
meet and cover the room, as long as the product of the room and the number of lanes fits a
word. Beyond that the last end is a quotient of less than a word by the number of lanes, which
is short of the room (`partition_iff`).
-/

namespace Fpag.Mem.ConcurrentArena

variable {w : Nat} {a : ConcurrentArena w} {lanes unit poolBytes : BitVec w}

/-! ## Queries -/

/-- `ConcurrentArena::lane_begin`; nothing for a lane that the debug checks refuse. -/
def laneBegin (a : ConcurrentArena w) (lane : Nat) : Option (BitVec w) :=
  if a.lanes = [] then
    if lane = 0 then some 0 else none
  else a.lanes[lane]?.map Lane.laneBegin

/-- `ConcurrentArena::lane_end`. -/
def laneEnd (a : ConcurrentArena w) (lane : Nat) : Option (BitVec w) :=
  if a.lanes = [] then
    if lane = 0 then some a.size else none
  else a.lanes[lane]?.map Lane.laneEnd

/-- `ConcurrentArena::lane_size`. -/
def laneSize (a : ConcurrentArena w) (lane : Nat) : Option (BitVec w) :=
  if a.lanes = [] then
    if lane = 0 then some a.size else none
  else a.lanes[lane]?.map fun l => l.cursor - l.laneBegin

/-! ## Partitions -/

/-- The slices of the lanes are whole units and follow one another from the first byte to the
pool, and the pool has the room that was asked for. -/
structure Partition (a : ConcurrentArena w) (lanes unit poolBytes : Nat) : Prop where
  slices : ∀ i, i < lanes → ∃ first last, a.laneBegin i = some first ∧ a.laneEnd i = some last ∧
    first.toNat ≤ last.toNat ∧ unit ∣ first.toNat ∧ unit ∣ last.toNat
  starts : a.laneBegin 0 = some 0
  meets : ∀ i, i + 1 < lanes → a.laneEnd i = a.laneBegin (i + 1)
  stops : a.laneEnd (lanes - 1) = some a.poolBegin
  inside : a.poolBegin.toNat ≤ a.capacity.toNat
  pool : min poolBytes a.capacity.toNat / unit * unit ≤ a.capacity.toNat - a.poolBegin.toNat

/-- What whole units the pool leaves to the lanes. -/
def laneRoom (capacity unit poolBytes : Nat) : Nat :=
  (capacity - min poolBytes capacity / unit * unit) / unit * unit

theorem poolUnits_le (capacity unit poolBytes : Nat) :
    min poolBytes capacity / unit * unit ≤ capacity :=
  (Nat.div_mul_le_self _ _).trans (Nat.min_le_right _ _)

theorem toNat_poolBegin (a : ConcurrentArena w) (lanes unit poolBytes : BitVec w) :
    (a.setLanes lanes unit poolBytes).poolBegin.toNat
      = laneRoom a.capacity.toNat unit.toNat poolBytes.toNat := by
  have asked : (if poolBytes > a.capacity then a.capacity else poolBytes).toNat
      = min poolBytes.toNat a.capacity.toNat := by
    split
    · next more => exact (Nat.min_eq_right (Nat.le_of_lt (BitVec.lt_def.mp more))).symm
    · next less => exact (Nat.min_eq_left (BitVec.not_lt.mp less)).symm
  have pool := poolUnits_le a.capacity.toNat unit.toNat poolBytes.toNat
  simp only [setLanes, laneRoom]
  rw [toNat_whole, BitVec.toNat_sub_of_le, toNat_whole, asked]
  rw [BitVec.le_def, toNat_whole, asked]
  exact pool

theorem toNat_pos {x : BitVec w} (ne : x ≠ 0) : 0 < x.toNat := by
  rw [Nat.pos_iff_ne_zero]
  intro zero
  exact ne (BitVec.eq_of_toNat_eq (by simpa using zero))

theorem lanes_ne_nil (some_ : lanes ≠ 0) : (a.setLanes lanes unit poolBytes).lanes ≠ [] := by
  intro none
  have length := congrArg List.length none
  simp only [setLanes, List.length_map, List.length_range, List.length_nil] at length
  exact (toNat_pos some_).ne' length

section Boundaries

variable {room : BitVec w} {i : Nat}

/-- A lane begins at its boundary, and ends at the next one unless that lies before it. -/
theorem laneBegin_setLanes (room_eq : (a.setLanes lanes unit poolBytes).poolBegin = room)
    (some_ : lanes ≠ 0) (inside : i < lanes.toNat) :
    (a.setLanes lanes unit poolBytes).laneBegin i = some (cut room lanes unit i) := by
  rw [laneBegin, if_neg (lanes_ne_nil some_), ← room_eq]
  simp [setLanes, inside]

theorem laneEnd_setLanes (room_eq : (a.setLanes lanes unit poolBytes).poolBegin = room)
    (some_ : lanes ≠ 0) (inside : i < lanes.toNat) :
    (a.setLanes lanes unit poolBytes).laneEnd i =
      some (if cut room lanes unit (i + 1) > cut room lanes unit i then cut room lanes unit (i + 1)
        else cut room lanes unit i) := by
  rw [laneEnd, if_neg (lanes_ne_nil some_), ← room_eq]
  simp [setLanes, inside]

/-- A boundary is at most the quotient of a word by the number of lanes. -/
theorem cut_le_div (room lanes unit : BitVec w) (i : Nat) :
    (cut room lanes unit i).toNat ≤ (2 ^ w - 1) / lanes.toNat := by
  rw [cut, toNat_whole, BitVec.toNat_udiv]
  have word := (room * BitVec.ofNat w i).isLt
  exact (Nat.div_mul_le_self _ _).trans (Nat.div_le_div_right (by omega))

/-- The last boundary is the end of the room. -/
theorem cut_lanes (some_ : lanes ≠ 0) (whole : unit.toNat ∣ room.toNat)
    (product : room.toNat * lanes.toNat < 2 ^ w) : cut room lanes unit lanes.toNat = room := by
  apply BitVec.eq_of_toNat_eq
  rw [toNat_cut (Nat.le_refl _) product, Nat.mul_div_cancel _ (toNat_pos some_),
    Nat.div_mul_cancel whole]

end Boundaries

/-- `set_lanes` partitions the room exactly when the product of the room and the number of lanes
fits the word. -/
theorem partition_iff (some_ : lanes ≠ 0) :
    (a.setLanes lanes unit poolBytes).Partition lanes.toNat unit.toNat poolBytes.toNat ↔
      laneRoom a.capacity.toNat unit.toNat poolBytes.toNat * lanes.toNat < 2 ^ w := by
  have count := toNat_pos some_
  have room := toNat_poolBegin a lanes unit poolBytes
  obtain ⟨p, room_eq⟩ : ∃ p, (a.setLanes lanes unit poolBytes).poolBegin = p := ⟨_, rfl⟩
  have begins := fun i inside => laneBegin_setLanes (i := i) room_eq some_ inside
  have ends := fun i inside => laneEnd_setLanes (i := i) room_eq some_ inside
  have last : lanes.toNat - 1 + 1 = lanes.toNat := Nat.sub_add_cancel count
  rw [← room, room_eq]
  constructor
  · intro partition
    by_contra large
    have stops := partition.stops
    rw [ends _ (by omega), last, room_eq] at stops
    -- Both boundaries of the last lane are below the quotient, and the room is above it.
    have short : p.toNat ≤ (2 ^ w - 1) / lanes.toNat := by
      rw [← Option.some.inj stops]
      split
      · exact cut_le_div _ _ _ _
      · exact cut_le_div _ _ _ _
    have back := (Nat.le_div_iff_mul_le count).mp short
    have word := Nat.two_pow_pos w
    omega
  · intro product
    have mono : ∀ {i j}, i ≤ j → j ≤ lanes.toNat →
        (cut p lanes unit i).toNat ≤ (cut p lanes unit j).toNat :=
      fun le below => cut_mono le below product
    have clipped : ∀ i, i < lanes.toNat →
        (a.setLanes lanes unit poolBytes).laneEnd i = some (cut p lanes unit (i + 1)) := by
      intro i inside
      rw [ends i inside]
      exact congrArg some (BitVec.eq_of_toNat_eq (toNat_clip (mono (Nat.le_succ i) inside)))
    have unitDvd : ∀ i, unit.toNat ∣ (cut p lanes unit i).toNat := by
      intro i
      rw [cut, toNat_whole]
      exact Nat.dvd_mul_left _ _
    have whole : unit.toNat ∣ p.toNat := by
      rw [← room_eq, room, laneRoom]
      exact Nat.dvd_mul_left _ _
    have pool := poolUnits_le a.capacity.toNat unit.toNat poolBytes.toNat
    have roomLe : p.toNat ≤ a.capacity.toNat -
        min poolBytes.toNat a.capacity.toNat / unit.toNat * unit.toNat := by
      rw [← room_eq, room, laneRoom]
      exact Nat.div_mul_le_self _ _
    refine ⟨fun i inside => ?_, ?_, fun i inside => ?_, ?_, ?_, ?_⟩
    · exact ⟨_, _, begins i inside, clipped i inside, mono (Nat.le_succ i) inside, unitDvd i,
        unitDvd (i + 1)⟩
    · rw [begins 0 count]
      refine congrArg some (BitVec.eq_of_toNat_eq ?_)
      rw [toNat_cut (Nat.zero_le _) product]
      simp
    · rw [clipped i (by omega), begins (i + 1) inside]
    · rw [clipped _ (by omega), last, cut_lanes some_ whole product, room_eq]
    · rw [room_eq]
      exact roomLe.trans (Nat.sub_le _ _)
    · rw [room_eq]
      change min poolBytes.toNat a.capacity.toNat / unit.toNat * unit.toNat
        ≤ a.capacity.toNat - p.toNat
      omega

/-- Four lanes for words of eight bytes, on 64 bits. -/
theorem partition_iff_eightPages :
    (((fresh 64).reserve 32768).setLanes 4 8 0).Partition 4 8 0 :=
  (partition_iff (by decide)).mpr (by decide)

/-- On 32 bits, four lanes of a reservation of a gibibyte: the last boundary wraps to the first
byte, and the last lane is empty. -/
theorem not_partition_gibibyte :
    ¬ (((fresh 32).reserve (2 ^ 30)).setLanes 4 16 0).Partition 4 16 0 := by
  intro partition
  have stops := partition.stops
  revert stops
  decide

end Fpag.Mem.ConcurrentArena
