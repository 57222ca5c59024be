import WarpLoop.Core.WorldSpecs
import WarpLoop.Core.Octree
import WarpLoop.Lib.Tiling

/-! The live zones tile the curve. A split keeps the tiling exactly when its
eight children fit in the free slots; a merge, a move and a removal always do.
Over whole runs the tiling therefore holds in every state reached exactly when
no due split runs short of slots. -/
namespace WarpLoop.Core
open SlotMap Lib Lib.Runs

def Consecutive (a : Nat) : List ZoneRange → Nat → Prop
  | [],b => a = b
  | c::rest,b => c.start.toNat = a ∧ a < c.stop.toNat ∧ Consecutive c.stop.toNat rest b

theorem Consecutive.le {a b : Nat} {ranges : List ZoneRange} (chain : Consecutive a ranges b) : a ≤ b := by
  induction ranges generalizing a with
  | nil => exact Nat.le_of_eq chain
  | cons c rest ih => exact Nat.le_trans (Nat.le_of_lt chain.2.1) (ih chain.2.2)

theorem Consecutive.mem_iff {a b : Nat} {ranges : List ZoneRange} (chain : Consecutive a ranges b) (n : Nat) :
    n ∈ Set.Ico a b ↔ ∃ c ∈ ranges, n ∈ c.points := by
  induction ranges generalizing a with
  | nil =>
    obtain rfl : a = b := chain
    simp
  | cons c rest ih =>
    obtain ⟨start,first,later⟩ := chain
    have split : n ∈ Set.Ico a b ↔ n ∈ c.points ∨ n ∈ Set.Ico c.stop.toNat b := by
      have := later.le
      simp only [ZoneRange.points,Set.mem_Ico]
      omega
    rw [split,ih later]
    simp

private theorem consecutive_cells (e : Nat) (ranges : List ZoneRange) (j : Nat)
    (cells : ∀ i (c : ZoneRange), ranges[i]? = some c → c.IsCell e (j + i)) :
    Consecutive (j * 8^e) ranges ((j + ranges.length) * 8^e) := by
  induction ranges generalizing j with
  | nil => simp [Consecutive]
  | cons c rest ih =>
    have head := cells 0 c (by simp)
    have next := ih (j + 1) (fun i d got => by
      have shifted := cells (i + 1) d (by simpa using got)
      rwa [show j + (i + 1) = j + 1 + i by omega] at shifted)
    have pos : 0 < 8^e := Nat.pow_pos (by omega)
    have stop : c.stop.toNat = (j + 1) * 8^e := by rw [head.stop]; ring
    refine ⟨head.start,?_,?_⟩
    · rw [stop]
      have : j * 8^e < (j + 1) * 8^e := Nat.mul_lt_mul_of_pos_right (by omega) pos
      exact this
    · rw [stop,List.length_cons,show j + (rest.length + 1) = j + 1 + rest.length by omega]
      exact next

theorem octreeChildren_consecutive {r : ZoneRange} {e k : Nat} (cell : r.IsCell e k) (children : List ZoneRange)
    (found : octreeChildren zoneBits r = some children) :
    children.length = 8 ∧ Consecutive r.start.toNat children r.stop.toNat ∧
      ∀ c ∈ children, ∃ e k, c.IsCell e k := by
  obtain ⟨e',rfl,length,cells⟩ := octreeChildren_cell cell children found
  have chain := consecutive_cells e' children (8 * k) (fun i c got => (cells i c got).2)
  have start : 8 * k * 8^e' = r.start.toNat := by rw [cell.start,Nat.pow_succ]; ring
  have stop : (8 * k + 8) * 8^e' = r.stop.toNat := by rw [cell.stop,Nat.pow_succ]; ring
  rw [length,start,stop] at chain
  refine ⟨length,chain,?_⟩
  intro c member
  obtain ⟨i,bound,equal⟩ := List.mem_iff_getElem.mp member
  exact ⟨e',8 * k + i,(cells i c (by rw [← equal]; exact List.getElem?_eq_getElem bound)).2⟩

namespace ZoneWorld

def cells (zones : SlotMap Zone) (id : Id) : Option (Set Nat) := (zones.find id).map (fun zone => zone.range.points)

/-- Every live zone owns an octree cell, and together they tile `whole`. -/
structure Cover (w : ZoneWorld) (whole : Set Nat) : Prop where
  bits : w.bits = zoneBits
  wf : Wf w.zones
  octree : ∀ id zone, w.zones.find id = some zone → ∃ e k, zone.range.IsCell e k
  tiles : Tiles (cells w.zones) whole

theorem Cover.sameShape {w w' : ZoneWorld} {whole : Set Nat} (cover : w.Cover whole)
    (bits : w'.bits = w.bits) (shape : SameShape w.zones w'.zones) : w'.Cover whole where
  bits := bits.trans cover.bits
  wf := shape.wf
  octree := by
    intro id zone live
    have same := shape.ranges id
    rw [live] at same
    obtain ⟨old,found,range⟩ := Option.map_eq_some_iff.mp same.symm
    rw [← range]
    exact cover.octree id old found
  tiles := by
    apply cover.tiles.congr
    intro id
    have same := congrArg (Option.map ZoneRange.points) (shape.ranges id)
    simpa [cells,Option.map_map,Function.comp_def] using same

theorem Cover.alloc {w w' : ZoneWorld} {whole : Set Nat} {range : ZoneRange} {id : Id} (cover : w.Cover whole)
    (cell : ∃ e k, range.IsCell e k) (apart : Disjoint range.points whole)
    (ok : w.allocZone range = some (w',id)) : w'.Cover (whole ∪ range.points) := by
  obtain ⟨wf,bits,fresh,finds,_⟩ := allocZone_some cover.wf ok
  refine ⟨bits.trans cover.bits,wf,?_,?_⟩
  · intro j zone live
    rw [finds] at live
    split at live
    · obtain rfl := Option.some.inj live
      exact cell
    · exact cover.octree j zone live
  · apply cover.tiles.insert id range.points
    · simp [cells,fresh]
    · simp [cells,finds]
    · intro j ne
      simp [cells,finds,ne]
    · exact apart

theorem Cover.freeAll {w : ZoneWorld} {whole taken : Set Nat} (cover : w.Cover whole) (ids : List Id)
    (exact_points : ∀ n, n ∈ taken ↔ ∃ id ∈ ids, ∃ zone, w.zones.find id = some zone ∧ n ∈ zone.range.points) :
    (ids.foldl freeZone w).Cover (whole \ taken) where
  bits := by rw [freeAll_bits,cover.bits]
  wf := freeAll_wf cover.wf ids
  octree := by
    intro id zone live
    rw [freeAll_find] at live
    split at live
    · cases live
    · exact cover.octree id zone live
  tiles := by
    apply cover.tiles.remove {id | id ∈ ids} taken
    · intro id member
      simp [cells,freeAll_find,show id ∈ ids from member]
    · intro id absent
      simp [cells,freeAll_find,show id ∉ ids from absent]
    · intro n
      rw [exact_points n]
      simp [cells]

/-- Allocating consecutive cells one by one: either all of them fit, or the
world that is left covers only the cells before the first that did not. -/
theorem allocChildren_cover (ranges : List ZoneRange) (w : ZoneWorld) (whole : Set Nat) (ids : List Id) (a b : Nat)
    (cover : w.Cover whole) (cellular : ∀ c ∈ ranges, ∃ e k, c.IsCell e k) (chain : Consecutive a ranges b)
    (apart : Disjoint (Set.Ico a b) whole) :
    (∃ w' ids', allocChildren w ids ranges = .ok (w',ids') ∧ ranges.length ≤ w.zones.freeList.length ∧
      w'.Cover (whole ∪ Set.Ico a b)) ∨
    (∃ w' stop, allocChildren w ids ranges = .error w' ∧ w.zones.freeList.length < ranges.length ∧
      a ≤ stop ∧ stop < b ∧ w'.Cover (whole ∪ Set.Ico a stop)) := by
  induction ranges generalizing w whole ids a with
  | nil =>
    obtain rfl : a = b := chain
    exact Or.inl ⟨w,ids,rfl,by simp,by simpa using cover⟩
  | cons c rest ih =>
    obtain ⟨start,first,later⟩ := chain
    have points : c.points = Set.Ico a c.stop.toNat := by rw [ZoneRange.points,start]
    cases alloc : w.allocZone c with
    | none =>
      have full := (allocZone_eq_none cover.wf).mp alloc
      refine Or.inr ⟨w,a,by simp only [allocChildren,alloc],by simp [full],Nat.le_refl a,?_,by simpa using cover⟩
      exact Nat.lt_of_lt_of_le first later.le
    | some result =>
      obtain ⟨w',id⟩ := result
      have slots := (allocZone_some cover.wf alloc).2.2.2.2
      have headApart : Disjoint c.points whole := by
        apply apart.mono_left
        rw [points]
        exact Set.Ico_subset_Ico_right later.le
      have next := cover.alloc (cellular c (by simp)) headApart alloc
      have restApart : Disjoint (Set.Ico c.stop.toNat b) (whole ∪ c.points) := by
        rw [Set.disjoint_union_right,points]
        refine ⟨apart.mono_left (Set.Ico_subset_Ico_left first.le),?_⟩
        rw [Set.disjoint_left]
        intro n above below
        exact absurd (Set.mem_Ico.mp below).2 (Nat.not_lt.mpr (Set.mem_Ico.mp above).1)
      have joined (stop : Nat) (order : c.stop.toNat ≤ stop) :
          whole ∪ c.points ∪ Set.Ico c.stop.toNat stop = whole ∪ Set.Ico a stop := by
        rw [Set.union_assoc,points,Set.Ico_union_Ico_eq_Ico first.le order]
      have unfolded : allocChildren w ids (c::rest) = allocChildren w' (ids ++ [id]) rest := by
        simp only [allocChildren,alloc]
      rcases ih w' (whole ∪ c.points) (ids ++ [id]) c.stop.toNat next
          (fun d member => cellular d (by simp [member])) later restApart with
        ⟨v,ids',ok,fits,covered⟩ | ⟨v,stop,failed,short,low,high,covered⟩
      · refine Or.inl ⟨v,ids',by rw [unfolded,ok],by simp; omega,?_⟩
        rwa [joined b later.le] at covered
      · refine Or.inr ⟨v,stop,by rw [unfolded,failed],by simp; omega,by omega,high,?_⟩
        rwa [joined stop low] at covered

/-- A due split with seven free slots, plus the parent's own, keeps the cover;
with fewer it loses part of the parent's range. -/
theorem maybeSplitZone_cover {w : ZoneWorld} {whole : Set Nat} (cover : w.Cover whole) {zoneId : Id}
    (due : w.SplitDue zoneId) :
    (7 ≤ w.zones.freeList.length ∧ (w.maybeSplitZone zoneId).Cover whole) ∨
    (w.zones.freeList.length < 7 ∧ ∃ lost, lost ≠ whole ∧ (w.maybeSplitZone zoneId).Cover lost) := by
  obtain ⟨zone,children,found,octants,cheaper⟩ := due
  obtain ⟨e,k,cell⟩ := cover.octree zoneId zone found
  obtain ⟨length,chain,cellular⟩ := octreeChildren_consecutive cell children (cover.bits ▸ octants)
  have inWhole : zone.range.points ⊆ whole := cover.tiles.subset (i := zoneId) (by simp [cells,found])
  have freed : (w.freeZone zoneId).Cover (whole \ zone.range.points) :=
    cover.freeAll [zoneId] (by simp [found])
  have slots : (w.freeZone zoneId).zones.freeList.length = w.zones.freeList.length + 1 :=
    free_length_live w.zones zoneId zone found
  have restored : whole \ zone.range.points ∪ Set.Ico zone.range.start.toNat zone.range.stop.toNat = whole :=
    Set.sdiff_union_of_subset inWhole
  rcases allocChildren_cover children (w.freeZone zoneId) _ [] _ _ freed cellular chain
      Set.disjoint_sdiff_right with ⟨w',ids,ok,fits,covered⟩ | ⟨w',stop,failed,short,low,high,covered⟩
  · left
    refine ⟨by omega,?_⟩
    rw [restored] at covered
    apply covered.sameShape
    · simp only [maybeSplitZone,found,octants,cheaper,ok,Bool.not_true,Bool.false_eq_true,if_false]
    · simp only [maybeSplitZone,found,octants,cheaper,ok,Bool.not_true,Bool.false_eq_true,if_false]
      exact redistribute_shape children ids zone.entities (.refl covered.wf)
  · right
    have value : w.maybeSplitZone zoneId = w' := by
      simp only [maybeSplitZone,found,octants,cheaper,failed,Bool.not_true,Bool.false_eq_true,if_false]
    refine ⟨by omega,_,?_,by rw [value]; exact covered⟩
    -- The index `stop` lies in the parent's range and in none of the cells allocated.
    intro equal
    have inside : stop ∈ zone.range.points := ⟨low,high⟩
    have member := inWhole inside
    rw [← equal] at member
    rcases member with ⟨_,outside⟩ | below
    · exact outside inside
    · exact absurd below.2 (Nat.lt_irrefl stop)

/-- A merge always keeps the cover: it frees the children of one cell and puts
the cell itself in one of their slots. -/
theorem maybeMergeSiblings_cover {w : ZoneWorld} {whole : Set Nat} (cover : w.Cover whole) (zoneId : Id) :
    (w.maybeMergeSiblings zoneId).Cover whole := by
  rcases maybeMergeSiblings_cases cover.wf zoneId with
    unchanged | ⟨zone,parent,children,s,found,up,down,scan,outcome⟩
  · rw [unchanged]; exact cover
  obtain ⟨e,k,cell⟩ := cover.octree zoneId zone found
  have parentCell := parentRange_cell cell (cover.bits ▸ up)
  obtain ⟨length,chain,_⟩ := octreeChildren_consecutive parentCell children (cover.bits ▸ down)
  obtain ⟨ids,idsEq,everyChild,everyId,_⟩ := collectSiblings_some w children _ s scan
  simp only [List.nil_append] at idsEq
  subst idsEq
  have points (n : Nat) : n ∈ parent.points ↔
      ∃ id ∈ s.ids, ∃ zone, w.zones.find id = some zone ∧ n ∈ zone.range.points := by
    rw [ZoneRange.points,chain.mem_iff]
    constructor
    · rintro ⟨c,member,inside⟩
      obtain ⟨id,present,zone,live,range⟩ := everyChild c member
      exact ⟨id,present,zone,live,by rwa [range]⟩
    · rintro ⟨id,present,zone,live,inside⟩
      obtain ⟨zone',live',member⟩ := everyId id present
      obtain rfl := Option.some.inj (live.symm.trans live')
      exact ⟨zone.range,member,inside⟩
  have inWhole : parent.points ⊆ whole := by
    intro n member
    obtain ⟨id,_,zone,live,inside⟩ := (points n).mp member
    exact cover.tiles.subset (show cells w.zones id = some zone.range.points by simp [cells,live]) inside
  have freed := cover.freeAll s.ids points
  rcases outcome with ⟨failed,_⟩ | ⟨w',pid,alloc,result⟩
  · -- Freeing eight live siblings leaves a slot, so the allocation cannot fail.
    exfalso
    have none_left := (allocZone_eq_none freed.wf).mp failed
    obtain ⟨n,member⟩ : ∃ n, n ∈ parent.points := ⟨_,parentCell.nonempty⟩
    obtain ⟨id,present,zone,live,_⟩ := (points n).mp member
    have slot := freeAll_slot w s.ids id zone present live
    simp [none_left] at slot
  · have placed := freed.alloc ⟨_,_,parentCell⟩ Set.disjoint_sdiff_right alloc
    rw [Set.sdiff_union_of_subset inWhole] at placed
    rw [result]
    refine Cover.sameShape placed ?_ ?_
    · rfl
    apply (SameShape.refl placed.wf).update
    intro old live
    have here := (allocZone_some freed.wf alloc).2.2.2.1 pid
    rw [if_pos rfl] at here
    rw [Zone.foldl_sub_range,← Option.some.inj (here.symm.trans live)]

/-! Authority over positions. -/

theorem authorityForIndex_some {w : ZoneWorld} (wf : Wf w.zones) (idx : UInt64) (id : Id)
    (found : w.authorityForIndex idx = some id) :
    ∃ zone, w.zones.find id = some zone ∧ zone.range.contains idx = true := by
  unfold authorityForIndex at found
  split at found
  · cases found
  · rename_i i position
    obtain ⟨entry,here,rfl⟩ := Option.map_eq_some_iff.mp found
    obtain ⟨bound,covers,_⟩ := List.findIdx?_eq_some_iff_getElem.mp position
    have member : entry ∈ w.liveZones := List.mem_of_getElem? here
    refine ⟨entry.2,(mem_liveEntries wf entry.1 entry.2).mp member,?_⟩
    have same := (List.getElem?_eq_some_iff.mp here).2
    simpa [same] using covers

theorem authorityForIndex_isSome {w : ZoneWorld} (idx : UInt64) (entry : Id × Zone)
    (member : entry ∈ w.liveZones) (covers : entry.2.range.contains idx = true) :
    (w.authorityForIndex idx).isSome = true := by
  unfold authorityForIndex
  split
  · rename_i nowhere
    rw [Core.authorityForIndex,List.findIdx?_eq_none_iff] at nowhere
    have := nowhere entry.2 (List.mem_map.mpr ⟨entry,member,rfl⟩)
    simp [covers] at this
  · rename_i i position
    obtain ⟨bound,_⟩ := List.findIdx?_eq_some_iff_getElem.mp position
    rw [List.length_map] at bound
    simp [bound]

/-- The live zones are pairwise disjoint, cover exactly the curve indices below
`2^63`, and give every position an authority. -/
structure Tiled (w : ZoneWorld) : Prop where
  disjoint : w.liveZones.Pairwise (fun a b => Disjoint a.2.range.points b.2.range.points)
  union : ∀ n, (∃ entry ∈ w.liveZones, n ∈ entry.2.range.points) ↔ n < 2^63
  authority : ∀ pos, (w.authorityFor pos).isSome = true

theorem Cover.live_points {w : ZoneWorld} {whole : Set Nat} (cover : w.Cover whole) (n : Nat) :
    (∃ entry ∈ w.liveZones, n ∈ entry.2.range.points) ↔ n ∈ whole := by
  rw [cover.tiles.cover]
  constructor
  · rintro ⟨⟨id,zone⟩,member,inside⟩
    have live := (mem_liveEntries cover.wf id zone).mp member
    exact ⟨id,zone.range.points,by simp [cells,live],inside⟩
  · rintro ⟨id,A,here,inside⟩
    obtain ⟨zone,live,rfl⟩ := Option.map_eq_some_iff.mp here
    exact ⟨(id,zone),(mem_liveEntries cover.wf id zone).mpr live,inside⟩

theorem Cover.tiled {w : ZoneWorld} (cover : w.Cover (Set.Iio (2^63))) : w.Tiled where
  disjoint := by
    have keys : w.liveZones.Pairwise (fun a b => a.1 ≠ b.1) :=
      List.pairwise_map.mp (liveEntries_keys_nodup cover.wf)
    apply keys.imp_of_mem
    rintro ⟨i,a⟩ ⟨j,b⟩ first second apart
    have hi := (mem_liveEntries cover.wf i a).mp first
    have hj := (mem_liveEntries cover.wf j b).mp second
    exact cover.tiles.disjoint i j _ _ (by simp [cells,hi]) (by simp [cells,hj]) apart
  union := cover.live_points
  authority := by
    intro pos
    have inside : (hilbert3D w.bits pos).toNat < 2^63 := by rw [cover.bits]; exact hilbert3D_lt pos
    obtain ⟨entry,member,covers⟩ := (cover.live_points _).mpr inside
    exact authorityForIndex_isSome _ entry member ((ZoneRange.contains_iff _ _).mpr covers)

theorem Cover.not_tiled {w : ZoneWorld} {lost : Set Nat} (cover : w.Cover lost) (short : lost ≠ Set.Iio (2^63)) :
    ¬ w.Tiled := by
  intro tiled
  apply short
  ext n
  rw [← cover.live_points n,tiled.union n]
  rfl

end ZoneWorld

/-! Whole runs of the C interface. -/

inductive Call where
  | entityMove (connId : UInt64) (x y z : Int64)
  | entityMoveV (connId : UInt64) (x y z : Int64) (vx vy vz rttTicks : UInt64)
  | entityRemove (connId : UInt64)

def State.call (s : State) : Call → State
  | .entityMove connId x y z => Ffi.entityMove s connId x y z
  | .entityMoveV connId x y z vx vy vz rttTicks => Ffi.entityMoveV s connId x y z vx vy vz rttTicks
  | .entityRemove connId => Ffi.entityRemove s connId

/-- A split that is due once the entity has been filed finds seven free slots;
the eighth is the split zone's own. Filing an entity never changes the free list. -/
def SplitFits (s : State) (moved : ZoneWorld) (pos : Pos3) : Prop :=
  ∀ zoneId, moved.authorityFor pos = some zoneId → moved.SplitDue zoneId → 7 ≤ s.zoneWorld.zones.freeList.length

def Call.Fits (s : State) : Call → Prop
  | .entityMove connId x y z => SplitFits s (s.zoneWorld.moveEntity connId ⟨x,y,z⟩) ⟨x,y,z⟩
  | .entityMoveV connId x y z vx vy vz rttTicks =>
    SplitFits s (s.zoneWorld.moveEntityV connId ⟨x,y,z⟩ vx vy vz rttTicks) ⟨x,y,z⟩
  | .entityRemove _ => True

abbrev State.Covered (s : State) : Prop := s.zoneWorld.Cover (Set.Iio (2^63))

private theorem rebalance_exact {s : State} (covered : s.Covered) (moved : ZoneWorld) (pos : Pos3)
    (bits : moved.bits = s.zoneWorld.bits) (shape : ZoneWorld.SameShape s.zoneWorld.zones moved.zones) :
    (SplitFits s moved pos → (Ffi.rebalanceAfterMove moved pos).Cover (Set.Iio (2^63))) ∧
    (¬ SplitFits s moved pos → ¬ (Ffi.rebalanceAfterMove moved pos).Tiled) := by
  have cover : moved.Cover (Set.Iio (2^63)) := ZoneWorld.Cover.sameShape covered bits shape
  unfold Ffi.rebalanceAfterMove
  split
  · rename_i nowhere
    refine ⟨fun _ => cover,fun short => absurd ?_ short⟩
    intro zoneId found
    rw [nowhere] at found
    cases found
  · rename_i zoneId found
    by_cases due : moved.SplitDue zoneId
    · rcases ZoneWorld.maybeSplitZone_cover cover due with ⟨room,kept⟩ | ⟨short,lost,differs,left⟩
      · rw [shape.free] at room
        refine ⟨fun _ => kept,fun short => absurd ?_ short⟩
        intro _ _ _
        exact room
      · rw [shape.free] at short
        refine ⟨fun fits => ?_,fun _ => left.not_tiled differs⟩
        have := fits zoneId found due
        omega
    · rw [ZoneWorld.maybeSplitZone_idle due]
      refine ⟨fun _ => cover,fun short => absurd ?_ short⟩
      intro other same otherDue
      obtain rfl := Option.some.inj (found.symm.trans same)
      exact absurd otherDue due

theorem call_exact (s : State) (call : Call) (covered : s.Covered) :
    (call.Fits s → (s.call call).Covered) ∧ (¬ call.Fits s → ¬ (s.call call).zoneWorld.Tiled) := by
  cases call with
  | entityMove connId x y z =>
    simp only [State.call,Ffi.entityMove,Call.Fits]
    apply rebalance_exact covered
    · exact ZoneWorld.moveEntityToIndexV_bits _ _ _ _ _ _ _ _
    · exact ZoneWorld.moveEntityToIndexV_shape covered.wf _ _ _ _ _ _ _
  | entityMoveV connId x y z vx vy vz rttTicks =>
    simp only [State.call,Ffi.entityMoveV,Call.Fits]
    apply rebalance_exact covered
    · exact ZoneWorld.moveEntityToIndexV_bits _ _ _ _ _ _ _ _
    · exact ZoneWorld.moveEntityToIndexV_shape covered.wf _ _ _ _ _ _ _
  | entityRemove connId =>
    refine ⟨fun _ => ?_,fun unfit => absurd trivial unfit⟩
    have removed : (s.zoneWorld.removeEntity connId).Cover (Set.Iio (2^63)) :=
      ZoneWorld.Cover.sameShape covered rfl (ZoneWorld.removeEntity_shape covered.wf connId)
    simp only [State.Covered,State.call,Ffi.entityRemove]
    split
    · exact removed
    · exact ZoneWorld.maybeMergeSiblings_cover removed _

theorem fanoutCoreInitialize_covered (capacity : UInt32) (room : 1 ≤ capacity) :
    (fanoutCoreInitialize capacity).Covered := by
  have positive : 0 < capacity.toNat := by
    simpa [UInt32.le_iff_toNat_le,Nat.lt_iff_add_one_le] using room
  have wf : Wf (SlotMap.empty capacity.toNat : SlotMap Zone) := empty_wf _ (Nat.le_of_lt capacity.toNat_lt)
  have start : (ZoneWorld.empty capacity.toNat zoneBits).Cover ∅ := by
    refine ⟨rfl,wf,?_,?_,?_⟩
    · intro id zone live
      simp [ZoneWorld.empty] at live
    · intro i j A B here
      simp [ZoneWorld.cells,ZoneWorld.empty] at here
    · simp [ZoneWorld.cells,ZoneWorld.empty]
  have root : (⟨0,(1 : UInt64) <<< 63⟩ : ZoneRange).IsCell 21 0 := ⟨by decide,by decide,by decide⟩
  cases alloc : (ZoneWorld.empty capacity.toNat zoneBits).allocZone ⟨0,(1 : UInt64) <<< 63⟩ with
  | none =>
    have none_left := (ZoneWorld.allocZone_eq_none wf).mp alloc
    simp [ZoneWorld.empty,SlotMap.empty] at none_left
    omega
  | some result =>
    obtain ⟨world,id⟩ := result
    have placed := start.alloc ⟨21,0,root⟩ (by simp) alloc
    have points : (∅ : Set Nat) ∪ (⟨0,(1 : UInt64) <<< 63⟩ : ZoneRange).points = Set.Iio (2^63) := by
      ext n
      simp [ZoneRange.points]
    rw [points] at placed
    simpa [State.Covered,fanoutCoreInitialize,Ffi.zoneAlloc,Ffi.init,State.initial,alloc] using placed

/-- From the server's start at any capacity, the live zones tile the curve in
every state of a run exactly when every due split of the run fits its slots. -/
theorem zones_tiled_iff_splits_fit (capacity : UInt32) (room : 1 ≤ capacity) (calls : List Call) :
    Always State.call (fun s => s.zoneWorld.Tiled) (fanoutCoreInitialize capacity) calls ↔
      Along State.call (fun s call => call.Fits s) (fanoutCoreInitialize capacity) calls := by
  apply always_iff_along State.call (fun s => s.zoneWorld.Tiled) State.Covered
  · intro s call covered
    obtain ⟨keeps,breaks⟩ := call_exact s call covered
    constructor
    · intro tiled
      by_contra unfit
      exact breaks unfit tiled
    · intro fits
      exact (keeps fits).tiled
  · exact fun s call covered fits => (call_exact s call covered).1 fits
  · exact fun s covered => covered.tiled
  · exact fanoutCoreInitialize_covered capacity room

/-- Four entities in four octants; the last one makes a split due. -/
def crowdedCalls : List Call :=
  [.entityMove 1 0 0 0,.entityMove 2 (-1) 0 0,.entityMove 3 0 (-1) 0,.entityMove 4 0 0 (-1)]

/-- The server's own capacity: the split fits, and a removal merges its zones again. -/
theorem zones_tiled_iff_splits_fit_sixtyFour :
    Always State.call (fun s => s.zoneWorld.Tiled) (fanoutCoreInitialize 64) (crowdedCalls ++ [.entityRemove 2]) := by
  rw [zones_tiled_iff_splits_fit 64 (by decide)]
  exact ⟨fun _ _ _ => by decide +kernel,fun _ _ _ => by decide +kernel,fun _ _ _ => by decide +kernel,
    fun _ _ _ => by decide +kernel,trivial,trivial⟩

/-- With one slot the split loses seven eighths. -/
theorem crowded_zones_not_tiled :
    ¬ (run State.call (fanoutCoreInitialize 1) crowdedCalls).zoneWorld.Tiled := by
  intro tiled
  have lost : (run State.call (fanoutCoreInitialize 1) crowdedCalls).zoneWorld.authorityFor ⟨-1,0,0⟩ = none := by
    decide +kernel
  have found := tiled.authority ⟨-1,0,0⟩
  rw [lost] at found
  cases found

end WarpLoop.Core
