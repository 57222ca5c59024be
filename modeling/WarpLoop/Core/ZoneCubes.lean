import WarpLoop.Core.GhostRange
import WarpLoop.Core.HilbertCurve
import WarpLoop.Core.ZoneTiling

/-! What the ranges of the curve mean in space: a zone that owns an octree cell simulates the entities of
one cube, and zones that meet on the curve simulate cubes that meet in the grid. -/
namespace WarpLoop.Core
open SlotMap Lib.Runs Lib.Hilbert

def Pos3.along (p : Pos3) : Axis → Int64
  | .x => p.x
  | .y => p.y
  | .z => p.z

/-- The grid cell of a position. -/
def Pos3.grid (bits : Nat) (p : Pos3) : Axes := ⟨quantizeAxis bits p.x,quantizeAxis bits p.y,quantizeAxis bits p.z⟩

theorem quantizeAxis_toNat (v : Int64) : (quantizeAxis 21 v).toNat = v.toUInt64.toNat / 2^43 := by
  rw [quantizeAxis,UInt64.toNat_shiftRight,Nat.shiftRight_eq_div_pow]
  rfl

theorem grid_position (p : Pos3) (axis : Axis) : (p.grid zoneBits).position axis = (p.along axis).toUInt64.toNat / 2^43 := by
  cases axis <;> exact quantizeAxis_toNat _

/-- Where the interval of words `[c * 2^m, (c + 1) * 2^m)` begins among the signed numbers. -/
def lowest (m c : Nat) : Int := if m = 64 then -2^63 else if c * 2^m < 2^63 then c * 2^m else c * 2^m - 2^64

/-- The words of one interval are the two's complements of as many consecutive numbers. -/
theorem div_eq_iff_lowest (v : Int64) (m c : Nat) (fits : m ≤ 64) (small : c < 2^(64 - m)) :
    v.toUInt64.toNat / 2^m = c ↔ lowest m c ≤ v.toInt ∧ v.toInt < lowest m c + 2^m := by
  have word := toNat_toUInt64 v
  have upper := v.toInt_lt
  have lower := v.le_toInt
  have range := v.toUInt64.toNat_lt
  have interval : v.toUInt64.toNat / 2^m = c ↔ c * 2^m ≤ v.toUInt64.toNat ∧ v.toUInt64.toNat < c * 2^m + 2^m := by
    rw [Nat.div_eq_iff (Nat.two_pow_pos m),Nat.add_sub_assoc (Nat.two_pow_pos m)]
    have := Nat.two_pow_pos m
    omega
  rw [interval,lowest]
  have power : ((2^m : Nat) : Int) = 2^m := by simp
  have product : ((c * 2^m : Nat) : Int) = c * 2^m := by simp
  by_cases all : m = 64
  · subst all
    obtain rfl : c = 0 := by simpa using small
    simp
    omega
  · have halves : 2^(63 - m) * 2^m = 2^63 := by rw [← Nat.pow_add]; congr 1; omega
    rw [if_neg all]
    split
    case isTrue low =>
      have within : c < 2^(63 - m) := Nat.lt_of_mul_lt_mul_right (by rw [halves]; exact low)
      have ends : (c + 1) * 2^m ≤ 2^63 := by rw [← halves]; exact Nat.mul_le_mul_right _ within
      rw [Nat.add_mul,Nat.one_mul] at ends
      omega
    case isFalse high =>
      have whole : 2^(64 - m) * 2^m = 2^64 := by rw [← Nat.pow_add]; congr 1; omega
      have ends : (c + 1) * 2^m ≤ 2^64 := by rw [← whole]; exact Nat.mul_le_mul_right _ small
      rw [Nat.add_mul,Nat.one_mul] at ends
      omega

/-- A cube of the world, half-open along each axis; a cell of height `height` is `2^(43 + height)`
micrometres wide. -/
structure Cube where
  corner : Axis → Int
  height : Nat

def Cube.Contains (c : Cube) (pos : Pos3) : Prop :=
  ∀ axis, c.corner axis ≤ (pos.along axis).toInt ∧ (pos.along axis).toInt < c.corner axis + 2^(43 + c.height)

theorem ZoneRange.IsCell.height {r : ZoneRange} {e k : Nat} (cell : r.IsCell e k) : e ≤ 21 ∧ k < 8^(21 - e) := by
  have inside := cell.inside
  have low : e ≤ 21 := by
    by_contra high
    have : 8^22 ≤ 8^e := Nat.pow_le_pow_right (by omega) (by omega)
    omega
  refine ⟨low,?_⟩
  have whole : 8^(21 - e) * 8^e = 2^63 := by
    rw [← Nat.pow_add,Nat.sub_add_cancel low]
    rfl
  have ends : (k + 1) * 8^e ≤ 8^(21 - e) * 8^e := by
    rw [whole,Nat.add_mul,Nat.one_mul]
    exact inside
  exact Nat.le_of_mul_le_mul_right ends (Nat.pow_pos (by omega))

/-- The positions of one octree cell. -/
theorem ZoneRange.IsCell.cube {r : ZoneRange} {e k : Nat} (cell : r.IsCell e k) :
    ∃ cube : Cube, cube.height = e ∧ ∀ pos, r.contains (hilbert3D zoneBits pos) = true ↔ cube.Contains pos := by
  obtain ⟨low,bound⟩ := cell.height
  obtain ⟨outer,depth,found⟩ := exists_index (21 - e) k bound
  have small (axis : Axis) : coordinate axis outer < 2^(64 - (43 + e)) := by
    have := coordinate_lt axis outer
    rwa [depth,show 21 - e = 64 - (43 + e) by omega] at this
  refine ⟨⟨fun axis => lowest (43 + e) (coordinate axis outer),e⟩,rfl,fun pos => ?_⟩
  have index_div : (hilbert3D zoneBits pos).toNat / 8^e = index (cellAt (fun axis => (pos.grid zoneBits).position axis >>> e) (21 - e)) := by
    have split : zoneBits = 21 - e + e := (Nat.sub_add_cancel low).symm
    rw [← cellAt_take,← split,index_take,length_cellAt,show zoneBits - (21 - e) = e by rw [zoneBits]; omega]
    rw [hilbert3D,hilbertIndexOfGrid_toNat zoneBits (Nat.le_refl 21)]
    rfl
  have interval : r.contains (hilbert3D zoneBits pos) = true ↔ (hilbert3D zoneBits pos).toNat / 8^e = k := by
    rw [ZoneRange.contains_iff,ZoneRange.points,Set.mem_Ico,cell.start,cell.stop,Nat.div_eq_iff (Nat.pow_pos (by omega))]
    have : 0 < 8^e := Nat.pow_pos (by omega)
    omega
  have level (axis : Axis) : coordinate axis (cellAt (fun axis => (pos.grid zoneBits).position axis >>> e) (21 - e)) =
      (pos.along axis).toUInt64.toNat / 2^(43 + e) := by
    have range := (pos.along axis).toUInt64.toNat_lt
    rw [coordinate_cellAt,grid_position,Nat.shiftRight_eq_div_pow,Nat.div_div_eq_div_mul,← Nat.pow_add]
    apply Nat.mod_eq_of_lt
    rw [Nat.div_lt_iff_lt_mul (Nat.two_pow_pos _),← Nat.pow_add,show 21 - e + (43 + e) = 64 by omega]
    exact range
  rw [interval,index_div,← found]
  constructor
  · intro equal axis
    rw [← div_eq_iff_lowest _ _ _ (by omega) (small axis),← level axis,index_inj (by simp [depth]) equal]
  · intro inside
    congr 1
    apply coordinate_inj (by simp [depth])
    intro axis
    rw [level axis]
    exact (div_eq_iff_lowest _ _ _ (by omega) (small axis)).mpr (inside axis)

/-- Where one octree cell ends and another begins, a grid cell of the one and a grid cell of the other
share a face. -/
theorem ZoneRange.IsCell.face {r r' : ZoneRange} {e k e' k' : Nat} (cell : r.IsCell e k) (cell' : r'.IsCell e' k')
    (meet : r.stop = r'.start) : ∃ a b : Axes, a.Inside zoneBits ∧ b.Inside zoneBits ∧
      r.contains (hilbertIndexOfGrid zoneBits a.x a.y a.z) = true ∧ r'.contains (hilbertIndexOfGrid zoneBits b.x b.y b.z) = true ∧
      a.ShareFace b := by
  have first := cell.nonempty
  have second := cell'.nonempty
  have start : r.start.toNat < r.stop.toNat := by
    simp only [ZoneRange.points,Set.mem_Ico] at first
    omega
  have bound : r'.start.toNat < 8^zoneBits := by
    have inside := cell'.inside
    have positive : 0 < 8^e' := Nat.pow_pos (by omega)
    have whole : 8^zoneBits = 2^63 := rfl
    rw [cell'.start,whole]
    omega
  obtain ⟨last,depth,exit⟩ := exists_index zoneBits (r'.start.toNat - 1) (by omega)
  obtain ⟨next,depth',entry⟩ := exists_index zoneBits r'.start.toNat bound
  obtain ⟨a,inside,rfl⟩ := Axes.exists_cell (Nat.le_refl 21) last depth
  obtain ⟨b,inside',rfl⟩ := Axes.exists_cell (Nat.le_refl 21) next depth'
  obtain ⟨axis,touch⟩ := index_touch (depth.trans depth'.symm) (by rw [exit,entry,← meet]; omega)
  refine ⟨a,b,inside,inside',?_,?_,Axes.shareFace_of_touch inside inside' touch⟩
  · rw [ZoneRange.contains_iff,hilbertIndexOfGrid_toNat zoneBits (Nat.le_refl 21)]
    change index (a.cell 21) ∈ r.points
    have : index (a.cell 21) = r'.start.toNat - 1 := exit
    rw [this,← meet,ZoneRange.points,Set.mem_Ico]
    omega
  · rw [ZoneRange.contains_iff,hilbertIndexOfGrid_toNat zoneBits (Nat.le_refl 21)]
    change index (b.cell 21) ∈ r'.points
    have : index (b.cell 21) = r'.start.toNat := entry
    rw [this,cell'.start]
    exact second

/-! Whole runs. -/

namespace ZoneWorld

theorem maybeSplitZone_covers {w : ZoneWorld} {whole : Set Nat} (cover : w.Cover whole) (zoneId : Id) :
    ∃ left, (w.maybeSplitZone zoneId).Cover left := by
  by_cases due : w.SplitDue zoneId
  · rcases maybeSplitZone_cover cover due with ⟨_,kept⟩ | ⟨_,lost,_,left⟩
    · exact ⟨whole,kept⟩
    · exact ⟨lost,left⟩
  · rw [maybeSplitZone_idle due]
    exact ⟨whole,cover⟩

end ZoneWorld

theorem Ffi.rebalanceAfterMove_covers {w : ZoneWorld} {whole : Set Nat} (cover : w.Cover whole) (pos : Pos3) :
    ∃ left, (rebalanceAfterMove w pos).Cover left := by
  unfold rebalanceAfterMove
  split
  · exact ⟨whole,cover⟩
  · exact ZoneWorld.maybeSplitZone_covers cover _

/-- Every live zone owns an octree cell, whether or not the splits so far have fitted. -/
def State.Cellular (s : State) : Prop := ∃ whole, s.zoneWorld.Cover whole

theorem State.Cellular.call {s : State} (cellular : s.Cellular) (call : Call) : (s.call call).Cellular := by
  obtain ⟨whole,cover⟩ := cellular
  cases call with
  | entityMove connId x y z =>
    exact Ffi.rebalanceAfterMove_covers (cover.sameShape (ZoneWorld.moveEntityToIndexV_bits _ _ _ _ _ _ _ _)
      (ZoneWorld.moveEntityToIndexV_shape cover.wf _ _ _ _ _ _ _)) _
  | entityMoveV connId x y z vx vy vz rttTicks =>
    exact Ffi.rebalanceAfterMove_covers (cover.sameShape (ZoneWorld.moveEntityToIndexV_bits _ _ _ _ _ _ _ _)
      (ZoneWorld.moveEntityToIndexV_shape cover.wf _ _ _ _ _ _ _)) _
  | entityRemove connId =>
    have removed : (s.zoneWorld.removeEntity connId).Cover whole :=
      ZoneWorld.Cover.sameShape cover rfl (ZoneWorld.removeEntity_shape cover.wf connId)
    refine ⟨whole,?_⟩
    simp only [State.call,Ffi.entityRemove]
    split
    · exact removed
    · exact ZoneWorld.maybeMergeSiblings_cover removed _

theorem cellular_run (capacity : UInt32) (room : 1 ≤ capacity) (calls : List Call) :
    (run State.call (fanoutCoreInitialize capacity) calls).Cellular :=
  invariant_run State.call State.Cellular (fun _ call cellular => cellular.call call) _ calls
    ⟨_,fanoutCoreInitialize_covered capacity room⟩

/-- After any moves and removals, whatever splits and merges they caused: each live zone is the authority
over exactly one cube of the world, and two zones of which one ends on the curve where the other begins
have a face in common. -/
theorem zones_are_cubes (capacity : UInt32) (room : 1 ≤ capacity) (calls : List Call) :
    let zones := (run State.call (fanoutCoreInitialize capacity) calls).zoneWorld.zones
    (∀ id zone, zones.find id = some zone → ∃ cube : Cube, cube.height ≤ 21 ∧
      ∀ pos, zone.range.contains (hilbert3D zoneBits pos) = true ↔ cube.Contains pos) ∧
    ∀ id zone id' zone', zones.find id = some zone → zones.find id' = some zone' → zone.range.stop = zone'.range.start →
      ∃ a b : Axes, a.Inside zoneBits ∧ b.Inside zoneBits ∧
        zone.range.contains (hilbertIndexOfGrid zoneBits a.x a.y a.z) = true ∧
        zone'.range.contains (hilbertIndexOfGrid zoneBits b.x b.y b.z) = true ∧ a.ShareFace b := by
  obtain ⟨whole,cover⟩ := cellular_run capacity room calls
  constructor
  · intro id zone live
    obtain ⟨e,k,cell⟩ := cover.octree id zone live
    obtain ⟨cube,rfl,exact_cube⟩ := cell.cube
    exact ⟨cube,cell.height.1,exact_cube⟩
  · intro id zone id' zone' live live' meet
    obtain ⟨e,k,cell⟩ := cover.octree id zone live
    obtain ⟨e',k',cell'⟩ := cover.octree id' zone' live'
    exact cell.face cell' meet

theorem zones_are_cubes_sixtyFour :
    let zones := (run State.call (fanoutCoreInitialize 64) crowdedCalls).zoneWorld.zones
    (∀ id zone, zones.find id = some zone → ∃ cube : Cube, cube.height ≤ 21 ∧
      ∀ pos, zone.range.contains (hilbert3D zoneBits pos) = true ↔ cube.Contains pos) ∧
    ∀ id zone id' zone', zones.find id = some zone → zones.find id' = some zone' → zone.range.stop = zone'.range.start →
      ∃ a b : Axes, a.Inside zoneBits ∧ b.Inside zoneBits ∧
        zone.range.contains (hilbertIndexOfGrid zoneBits a.x a.y a.z) = true ∧
        zone'.range.contains (hilbertIndexOfGrid zoneBits b.x b.y b.z) = true ∧ a.ShareFace b :=
  zones_are_cubes 64 (by decide) crowdedCalls

end WarpLoop.Core
