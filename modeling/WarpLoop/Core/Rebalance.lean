import WarpLoop.Core.Occupancy

/-! Splits and merges are one comparison seen from two sides (Fanoutcore/ZoneDispatch.lean): neither undoes
the other. A merge scan over the children of a cell gathers what the cell's zone listed, so both ask the same question. -/
namespace WarpLoop.Core
open SlotMap Lib.Runs

namespace ZoneWorld

section World
variable {w : ZoneWorld} {whole : Set Nat} (cover : w.Cover whole)

include cover in
/-- On a tiled curve an index has one zone. -/
theorem Cover.alone {id id' : Id} {zone zone' : Zone} {idx : UInt64} (found : w.zones.find id = some zone)
    (found' : w.zones.find id' = some zone') (inside : zone.range.contains idx = true) (inside' : zone'.range.contains idx = true) :
    id = id' := by
  by_contra apart
  have disjoint := cover.tiles.disjoint id id' zone.range.points zone'.range.points (by simp [cells,found]) (by simp [cells,found']) apart
  rw [ZoneRange.contains_iff] at inside inside'
  exact Set.disjoint_left.mp disjoint inside inside'

include cover in
/-- A zone lists the records whose index it owns. -/
theorem Cover.mem_entities (occupied : Occupied w.zones) {id : Id} {zone : Zone} (found : w.zones.find id = some zone)
    (e : EntityRecord) : e ∈ zone.entities ↔ Recorded w.zones e ∧ zone.range.contains e.idx = true := by
  constructor
  · exact fun member => ⟨⟨id,zone,found,member⟩,(occupied.tidy id zone found).inside e member⟩
  · rintro ⟨⟨id',zone',found',member⟩,inside⟩
    obtain rfl := cover.alone found' found ((occupied.tidy id' zone' found').inside e member) inside
    obtain rfl := Option.some.inj (found.symm.trans found')
    exact member

/-- A merge scan gathers the records whose index the parent owns. -/
theorem MergeDue.mem_entities (occupied : Occupied w.zones) {whole : Set Nat} (cover : w.Cover whole) {zoneId : Id} {zone : Zone}
    {parent : ZoneRange} {children : List ZoneRange} {s : Siblings} (due : w.MergeDue zoneId zone parent children s)
    (e : EntityRecord) : e ∈ s.entities ↔ Recorded w.zones e ∧ parent.contains e.idx = true := by
  obtain ⟨tidy,_,_⟩ := due.gathered occupied
  obtain ⟨siblings,live,ranges,_,entities,_⟩ := collectSiblings_exact due.scan
  rw [List.nil_append] at entities
  constructor
  · intro member
    refine ⟨?_,tidy.inside e member⟩
    rw [entities] at member
    obtain ⟨p,sibling,listed⟩ := List.mem_flatMap.mp member
    exact ⟨p.1,p.2,(live p sibling).1,listed⟩
  · rintro ⟨recorded,inside⟩
    obtain ⟨i,c,here,covers⟩ := octreeChildren_covers due.down inside
    rw [← ranges,List.getElem?_map] at here
    obtain ⟨p,place,rfl⟩ := Option.map_eq_some_iff.mp here
    have sibling := List.mem_of_getElem? place
    rw [entities]
    exact List.mem_flatMap.mpr ⟨p,sibling,(cover.mem_entities occupied (live p sibling).1 e).mpr ⟨recorded,covers⟩⟩

end World

theorem MergeDue.population {w : ZoneWorld} {zoneId : Id} {zone : Zone} {parent : ZoneRange} {children : List ZoneRange} {s : Siblings}
    (due : w.MergeDue zoneId zone parent children s) : s.population = s.entities.length := by
  obtain ⟨_,_,_,_,entities,population⟩ := collectSiblings_exact due.scan
  rw [population,entities,List.nil_append,Nat.zero_add]

/-- The same records give the same answer. -/
theorem splitIsCheaper_perm {first second : List EntityRecord} (same : first.Perm second) (children : List ZoneRange) :
    splitIsCheaper first.length (children.map fun c => (first.filter fun entity => c.contains entity.idx).length) =
      splitIsCheaper second.length (children.map fun c => (second.filter fun entity => c.contains entity.idx).length) := by
  rw [same.length_eq]
  congr 1
  apply List.map_congr_left
  intro c _
  exact (same.filter _).length_eq

theorem Zone.Tidy.nodup {zone : Zone} (tidy : zone.Tidy) : zone.entities.Nodup := tidy.once.of_map _

/-- Allocating the children adds no zones but theirs. -/
theorem allocChildren_new {w w' : ZoneWorld} (wf : Wf w.zones) {ids ids' : List Id} {ranges : List ZoneRange}
    (ok : w.allocChildren ids ranges = .ok (w',ids')) {id : Id} {z : Zone} (live : w'.zones.find id = some z)
    (new : w.zones.find id = none) : z.range ∈ ranges := by
  induction ranges generalizing w ids with
  | nil =>
    obtain ⟨rfl,_⟩ := Prod.mk.inj (Except.ok.inj ok)
    rw [new] at live
    cases live
  | cons c rest ih =>
    cases alloc : w.allocZone c with
    | none => simp [allocChildren,alloc] at ok
    | some result =>
      obtain ⟨w₁,cid⟩ := result
      simp only [allocChildren,alloc] at ok
      obtain ⟨wf₁,_,_,finds,_⟩ := allocZone_some wf alloc
      by_cases here : id = cid
      · have kept := (allocChildren_ok wf₁ _ _ _ ok).2.2.1 id ⟨c,[]⟩ (by rw [finds,if_pos here])
        obtain rfl := Option.some.inj (live.symm.trans kept)
        exact List.mem_cons_self
      · exact List.mem_cons_of_mem _ (ih wf₁ ok (by rw [finds,if_neg here,new]))

/-- The zones that a split adds are the children of the split zone. -/
theorem split_new {w : ZoneWorld} (wf : Wf w.zones) {zoneId : Id} {zone : Zone} {children : List ZoneRange}
    (found : w.zones.find zoneId = some zone) (octants : octreeChildren w.bits zone.range = some children)
    (due : w.SplitDue zoneId) (slots : 7 ≤ w.zones.freeList.length) {id : Id} {z : Zone}
    (live : (w.maybeSplitZone zoneId).zones.find id = some z) (new : w.zones.find id = none) : z.range ∈ children := by
  obtain ⟨zone',children',found',octants',cheaper⟩ := due
  obtain rfl := Option.some.inj (found.symm.trans found')
  obtain rfl := Option.some.inj (octants.symm.trans octants')
  obtain ⟨w',childIds,alloc⟩ := split_allocates wf found octants slots
  simp only [maybeSplitZone,found,octants,cheaper,alloc,Bool.not_true,Bool.false_eq_true,if_false] at live
  have wf' := (allocChildren_ok (free_wf wf zoneId) _ _ _ alloc).1
  have range := (redistribute_shape children childIds zone.entities (.refl wf')).ranges id
  rw [live,Option.map_some] at range
  obtain ⟨z',live',same⟩ := Option.map_eq_some_iff.mp range.symm
  rw [← same]
  apply allocChildren_new (free_wf wf zoneId) alloc live'
  change (w.zones.free zoneId).find id = none
  rw [free_find,new,ite_self]

/-- No child of a zone that has just been split is due to be merged. -/
theorem split_stays {w : ZoneWorld} {whole : Set Nat} (cover : w.Cover whole) (occupied : Occupied w.zones) {zoneId : Id} {zone : Zone}
    {children : List ZoneRange} (found : w.zones.find zoneId = some zone) (octants : octreeChildren w.bits zone.range = some children)
    (due : w.SplitDue zoneId) (slots : 7 ≤ w.zones.freeList.length) {id : Id} {z : Zone}
    (live : (w.maybeSplitZone zoneId).zones.find id = some z) (child : z.range ∈ children) :
    (w.maybeSplitZone zoneId).maybeMergeSiblings id = w.maybeSplitZone zoneId := by
  have after : (w.maybeSplitZone zoneId).Cover whole := by
    rcases maybeSplitZone_cover cover due with ⟨_,kept⟩ | ⟨short,_⟩
    · exact kept
    · omega
  have recorded := split_recorded occupied (fun _ : w.SplitDue zoneId => slots)
  apply maybeMergeSiblings_idle
  intro z' parent children' s merge
  obtain rfl := Option.some.inj (live.symm.trans merge.found)
  obtain ⟨e,k,cell⟩ := cover.octree zoneId zone found
  rw [cover.bits] at octants
  obtain ⟨e',rfl,_,cells⟩ := octreeChildren_cell cell children octants
  obtain ⟨i,here⟩ := List.mem_iff_getElem?.mp child
  obtain ⟨small,childCell⟩ := cells i z.range here
  have parentCell := parentRange_cell childCell (after.bits ▸ merge.up)
  have same : parent = zone.range := by
    have up : (8 * k + i) / 8 = k := by omega
    rw [up] at parentCell
    have start : parent.start = zone.range.start := UInt64.toNat_inj.mp (parentCell.start.trans cell.start.symm)
    have stop : parent.stop = zone.range.stop := UInt64.toNat_inj.mp (parentCell.stop.trans cell.stop.symm)
    cases parent
    cases hr : zone.range
    simp_all
  subst same
  obtain rfl : children = children' := Option.some.inj (octants.symm.trans (after.bits ▸ merge.down))
  obtain ⟨tidy,_,_⟩ := merge.gathered (occupied.split zoneId)
  have perm : s.entities.Perm zone.entities := by
    rw [List.perm_ext_iff_of_nodup (Zone.Tidy.nodup tidy) (Zone.Tidy.nodup (occupied.tidy zoneId zone found))]
    intro entity
    rw [merge.mem_entities (occupied.split zoneId) after,recorded,cover.mem_entities occupied found]
  have dear := merge.dear
  rw [merge.population,splitIsCheaper_perm perm] at dear
  obtain ⟨zone',children',found',octants',cheaper⟩ := due
  obtain rfl := Option.some.inj (found.symm.trans found')
  obtain rfl : children = children' := Option.some.inj (octants.symm.trans (cover.bits ▸ octants'))
  rw [childPopulationsFor,dear] at cheaper
  cases cheaper

/-- The zone that a merge has just made is not due to be split. -/
theorem merge_stays {w : ZoneWorld} (occupied : Occupied w.zones) {zoneId id : Id} {z : Zone}
    (live : (w.maybeMergeSiblings zoneId).zones.find id = some z) (fresh : w.zones.find id ≠ some z) :
    (w.maybeMergeSiblings zoneId).maybeSplitZone id = w.maybeMergeSiblings zoneId := by
  by_cases due : ∃ zone parent children s, w.MergeDue zoneId zone parent children s
  case neg =>
    rw [maybeMergeSiblings_idle (fun zone parent children s branch => due ⟨zone,parent,children,s,branch⟩)] at live
    exact absurd live fresh
  obtain ⟨zone,parent,children,s,due⟩ := due
  obtain ⟨tidy,slot,_⟩ := due.gathered occupied
  have freed := occupied.freeAll s.ids
  rcases maybeMergeSiblings_due occupied.wf due with ⟨refused,_⟩ | ⟨w',pid,alloc,result⟩
  · rw [(allocZone_eq_none freed.wf).mp refused] at slot
    cases slot
  obtain ⟨_,bits,_,finds,_⟩ := allocZone_some freed.wf alloc
  have filled : s.entities.foldl Zone.sub ⟨parent,[]⟩ = ⟨parent,s.entities⟩ :=
    Zone.foldl_sub_eq (by simpa using tidy.once) (by simpa using tidy.room)
  rw [filled] at result
  rw [result] at live ⊢
  have placed : w'.zones.find pid = some ⟨parent,[]⟩ := by rw [finds,if_pos rfl]
  have here : id = pid := by
    by_contra elsewhere
    rw [update_find,if_neg elsewhere,finds,if_neg elsewhere,freeAll_find] at live
    split at live
    · cases live
    · exact fresh live
  subst here
  rw [update_find,if_pos rfl,placed] at live
  obtain rfl : (⟨parent,s.entities⟩ : Zone) = z := Option.some.inj live
  apply maybeSplitZone_idle
  rintro ⟨zone',children',found',octants',cheaper⟩
  rw [update_find,if_pos rfl,placed] at found'
  obtain rfl : (⟨parent,s.entities⟩ : Zone) = zone' := Option.some.inj found'
  have octants : octreeChildren w.bits parent = some children' := by rwa [bits,freeAll_bits] at octants'
  obtain rfl : children = children' := Option.some.inj (due.down.symm.trans octants)
  have dear := due.dear
  rw [due.population] at dear
  rw [childPopulationsFor,dear] at cheaper
  cases cheaper

end ZoneWorld

/-- The rebalancing the other way from a call's own: merges after a move, splits after a removal. -/
def Call.undo (w : ZoneWorld) (id : Id) : Call → ZoneWorld
  | .entityMove .. => w.maybeMergeSiblings id
  | .entityMoveV .. => w.maybeMergeSiblings id
  | .entityRemove _ => w.maybeSplitZone id

theorem Ffi.rebalanceAfterMove_stays {s : State} (settled : s.Settled) {moved : ZoneWorld} (bits : moved.bits = s.zoneWorld.bits)
    (occupied : ZoneWorld.Occupied moved.zones) (shape : ZoneWorld.SameShape s.zoneWorld.zones moved.zones) {pos : Pos3}
    (fits : SplitFits s moved pos) {id : Id} {z : Zone} (live : (rebalanceAfterMove moved pos).zones.find id = some z)
    (new : s.zoneWorld.zones.find id = none) :
    (rebalanceAfterMove moved pos).maybeMergeSiblings id = rebalanceAfterMove moved pos := by
  have cover := ZoneWorld.Cover.sameShape settled.covered bits shape
  have absent : moved.zones.find id = none := by
    have range := shape.ranges id
    rw [new] at range
    exact Option.map_eq_none_iff.mp range
  unfold rebalanceAfterMove at live ⊢
  split at live
  · rw [absent] at live
    cases live
  rename_i zoneId authority
  by_cases due : moved.SplitDue zoneId
  case neg =>
    rw [ZoneWorld.maybeSplitZone_idle due,absent] at live
    cases live
  have slots : 7 ≤ moved.zones.freeList.length := by
    rw [shape.free]
    exact fits zoneId authority due
  have cut := due
  obtain ⟨zone,children,found,octants,_⟩ := cut
  exact ZoneWorld.split_stays cover occupied found octants due slots live
    (ZoneWorld.split_new occupied.wf found octants due slots live absent)

/-- From the server's start, as long as the splits fit: no merge is due of a zone that a move has split off,
and no split of a zone that a removal has merged. -/
theorem rebalancing_settles (capacity : UInt32) (room : 1 ≤ capacity) (calls : List Call) (call : Call)
    (fits : Along State.call (fun s call => call.Fits s) (fanoutCoreInitialize capacity) (calls ++ [call])) (id : Id) (z : Zone)
    (live : (run State.call (fanoutCoreInitialize capacity) (calls ++ [call])).zoneWorld.zones.find id = some z)
    (new : (run State.call (fanoutCoreInitialize capacity) calls).zoneWorld.zones.find id = none) :
    call.undo (run State.call (fanoutCoreInitialize capacity) (calls ++ [call])).zoneWorld id =
      (run State.call (fanoutCoreInitialize capacity) (calls ++ [call])).zoneWorld := by
  obtain ⟨before,⟨last,_⟩⟩ := (along_append State.call _ _ calls [call]).mp fits
  have settled := settled_run room before
  rw [run_append] at live ⊢
  generalize run State.call (fanoutCoreInitialize capacity) calls = s at last settled live new ⊢
  change (s.call call).zoneWorld.zones.find id = some z at live
  change call.undo (s.call call).zoneWorld id = (s.call call).zoneWorld
  have occupied := settled.occupied
  cases call with
  | entityMove connId x y z =>
    exact Ffi.rebalanceAfterMove_stays settled (ZoneWorld.moveEntityToIndexV_bits _ _ _ _ _ _ _ _)
      (occupied.move connId (hilbert3D s.zoneWorld.bits ⟨x,y,z⟩) 0 0 0 0 Pos3.origin)
      (ZoneWorld.moveEntityToIndexV_shape occupied.wf _ _ _ _ _ _ _) last live new
  | entityMoveV connId x y z vx vy vz rttTicks =>
    exact Ffi.rebalanceAfterMove_stays settled (ZoneWorld.moveEntityToIndexV_bits _ _ _ _ _ _ _ _)
      (occupied.move connId (hilbert3D s.zoneWorld.bits ⟨x,y,z⟩) vx vy vz rttTicks ⟨x,y,z⟩)
      (ZoneWorld.moveEntityToIndexV_shape occupied.wf _ _ _ _ _ _ _) last live new
  | entityRemove connId =>
    have absent : (s.zoneWorld.removeEntity connId).zones.find id = none := by
      have range := (ZoneWorld.removeEntity_shape occupied.wf connId).ranges id
      rw [new] at range
      exact Option.map_eq_none_iff.mp range
    simp only [State.call,Ffi.entityRemove,Call.undo] at live ⊢
    split at live
    · rw [absent] at live
      cases live
    · exact ZoneWorld.merge_stays (occupied.remove connId) live (by rw [absent]; simp)

/-- Entities in three octants of the world. -/
def threeCorners : List Call := [.entityMove 1 0 0 0,.entityMove 2 (-1) 0 0,.entityMove 3 0 (-1) 0]

/-- The fourth corner splits the world; the second of the new zones stays. -/
theorem rebalancing_settles_corners :
    (run State.call (fanoutCoreInitialize 64) (threeCorners ++ [.entityMove 4 0 0 (-1)])).zoneWorld.maybeMergeSiblings ⟨1,1⟩ =
      (run State.call (fanoutCoreInitialize 64) (threeCorners ++ [.entityMove 4 0 0 (-1)])).zoneWorld := by
  have live : ((run State.call (fanoutCoreInitialize 64) (threeCorners ++ [.entityMove 4 0 0 (-1)])).zoneWorld.zones.find
      ⟨1,1⟩).isSome = true := by decide +kernel
  obtain ⟨z,found⟩ := Option.isSome_iff_exists.mp live
  have fits : Along State.call (fun s call => call.Fits s) (fanoutCoreInitialize 64) (threeCorners ++ [.entityMove 4 0 0 (-1)]) :=
    ⟨fun _ _ _ => by decide +kernel,fun _ _ _ => by decide +kernel,fun _ _ _ => by decide +kernel,
      fun _ _ _ => by decide +kernel,trivial⟩
  exact rebalancing_settles 64 (by decide) threeCorners (.entityMove 4 0 0 (-1)) fits ⟨1,1⟩ z found (by decide +kernel)

end WarpLoop.Core
