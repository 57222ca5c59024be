import WarpLoop.Core.Ffi
import WarpLoop.Core.SlotMapRefinement
import Mathlib.Data.UInt

/-! One specification per operation of the zone world, in terms of which zones
are found under which ids. Callers reason from these and never unfold the loops. -/
namespace WarpLoop.Core
open SlotMap

@[simp] theorem Zone.unsub_range (z : Zone) (connId : UInt64) : (z.unsub connId).range = z.range := rfl

@[simp] theorem Zone.sub_range (z : Zone) (entity : EntityRecord) : (z.sub entity).range = z.range := by
  unfold Zone.sub
  split
  · rfl
  · split <;> rfl

theorem Zone.foldl_sub_range (z : Zone) (entities : List EntityRecord) :
    (entities.foldl Zone.sub z).range = z.range := by
  induction entities generalizing z with
  | nil => rfl
  | cons entity rest ih => rw [List.foldl_cons,ih,Zone.sub_range]

theorem Zone.mem_sub (z : Zone) (entity added : EntityRecord) (member : entity ∈ (z.sub added).entities) :
    entity ∈ z.entities ∨ entity = added := by
  unfold Zone.sub at member
  split at member
  · exact Or.inl member
  · split at member
    · exact Or.inl member
    · simpa using member

theorem Zone.mem_foldl_sub (z : Zone) (added : List EntityRecord) (entity : EntityRecord)
    (member : entity ∈ (added.foldl Zone.sub z).entities) : entity ∈ z.entities ∨ entity ∈ added := by
  induction added generalizing z with
  | nil => exact Or.inl member
  | cons first rest ih =>
    rcases ih (z.sub first) member with old | later
    · rcases z.mem_sub entity first old with kept | rfl
      · exact Or.inl kept
      · exact Or.inr (by simp)
    · exact Or.inr (List.mem_cons_of_mem _ later)

theorem Zone.holds_iff (z : Zone) (connId : UInt64) :
    z.holds connId = true ↔ ∃ entity ∈ z.entities, entity.connId = connId := by
  simp [Zone.holds]

theorem Zone.unsub_eq_self (z : Zone) (connId : UInt64) (absent : z.holds connId = false) :
    z.unsub connId = z := by
  obtain ⟨range,entities⟩ := z
  simp only [Zone.unsub,Zone.mk.injEq,true_and,List.filter_eq_self]
  intro entity member
  simp only [Zone.holds,List.any_eq_false] at absent
  simpa using absent entity member

theorem octreeChildren_length {bits : Nat} {range : ZoneRange} {children : List ZoneRange}
    (octants : octreeChildren bits range = some children) : children.length = 8 := by
  unfold octreeChildren at octants
  split at octants
  · cases octants
  · split at octants
    · cases octants
    · simp only [Option.some.injEq] at octants
      subst children
      simp

namespace ZoneWorld

/-- Two zone tables with the same ids, ranges and free slots. -/
structure SameShape (before after : SlotMap Zone) : Prop where
  wf : Wf after
  free : after.freeList = before.freeList
  ranges : ∀ id, (after.find id).map Zone.range = (before.find id).map Zone.range

theorem SameShape.refl {zones : SlotMap Zone} (wf : Wf zones) : SameShape zones zones := ⟨wf,rfl,fun _ => rfl⟩

theorem SameShape.update {before after : SlotMap Zone} (same : SameShape before after) (id : Id) (zone : Zone)
    (range : ∀ old, after.find id = some old → old.range = zone.range) :
    SameShape before (after.update id zone) where
  wf := update_wf same.wf id zone
  free := by rw [update_freeList,same.free]
  ranges := by
    intro j
    rw [← same.ranges j,update_find]
    by_cases here : j = id
    · subst j
      cases live : after.find id with
      | none => simp
      | some old => simp [range old live]
    · simp [here]

private theorem dropFrom_eq (connId : UInt64) :
    dropFrom connId = updateIf (fun entry => entry.2.holds connId) (fun entry => entry.2.unsub connId) := rfl

private theorem dropFromOthers_eq (connId : UInt64) (zoneId : Id) :
    dropFromOthers connId zoneId = updateIf (fun entry => decide (entry.1 ≠ zoneId) && entry.2.holds connId)
      (fun entry => entry.2.unsub connId) := by
  funext zones entry
  simp [dropFromOthers,updateIf]

theorem removeEntity_find {w : ZoneWorld} (wf : Wf w.zones) (connId : UInt64) (id : Id) :
    (w.removeEntity connId).zones.find id = (w.zones.find id).map (fun zone => zone.unsub connId) := by
  have all := updateAll_find wf (fun entry : Id × Zone => entry.2.holds connId)
    (fun entry => entry.2.unsub connId) id
  simp only [removeEntity,liveZones,dropFrom_eq]
  rw [all]
  congr 1
  funext zone
  split
  · rfl
  · rename_i absent
    rw [zone.unsub_eq_self connId (by simpa using absent)]

theorem removeEntity_shape {w : ZoneWorld} (wf : Wf w.zones) (connId : UInt64) :
    SameShape w.zones (w.removeEntity connId).zones where
  wf := foldl_updateIf_wf _ _ _ wf
  free := foldl_updateIf_freeList _ _ _ _
  ranges := by
    intro id
    rw [removeEntity_find wf]
    cases w.zones.find id <;> simp

private theorem dropOthers_find {w : ZoneWorld} (wf : Wf w.zones) (connId : UInt64) (zoneId id : Id) :
    (w.liveZones.foldl (dropFromOthers connId zoneId) w.zones).find id =
      if id = zoneId then w.zones.find id else (w.zones.find id).map (fun zone => zone.unsub connId) := by
  have all := updateAll_find wf (fun entry : Id × Zone => decide (entry.1 ≠ zoneId) && entry.2.holds connId)
    (fun entry => entry.2.unsub connId) id
  simp only [liveZones,dropFromOthers_eq]
  rw [all]
  by_cases here : id = zoneId
  · simp [here]
  · rw [if_neg here]
    congr 1
    funext zone
    by_cases listed : zone.holds connId
    · simp [here,listed]
    · simp [listed,zone.unsub_eq_self connId (by simpa using listed)]

/-- A move is refused when the authority zone is full and does not list the entity yet. -/
theorem moveEntityToIndexV_refused {w : ZoneWorld} {connId idx : UInt64} {zoneId : Id} {zone : Zone}
    (authority : w.authorityForIndex idx = some zoneId) (found : w.zones.find zoneId = some zone)
    (absent : zone.holds connId = false) (full : authorityCapacity ≤ zone.entities.length)
    (vx vy vz rttTicks : UInt64) (pos : Pos3) : w.moveEntityToIndexV connId idx vx vy vz rttTicks pos = w := by
  simp [moveEntityToIndexV,authority,found,absent,full]

/-- A move that is not refused drops the entity from the other zones and files it in its authority zone. -/
theorem moveEntityToIndexV_filed {w : ZoneWorld} (wf : Wf w.zones) {connId idx : UInt64} {zoneId : Id} {zone : Zone}
    (authority : w.authorityForIndex idx = some zoneId) (found : w.zones.find zoneId = some zone)
    (room : zone.holds connId = true ∨ zone.entities.length < authorityCapacity)
    (vx vy vz rttTicks : UInt64) (pos : Pos3) :
    let moved := w.moveEntityToIndexV connId idx vx vy vz rttTicks pos
    moved.bits = w.bits ∧ SameShape w.zones moved.zones ∧
      ∀ id, moved.zones.find id = if id = zoneId then some (zone.sub
          {connId := connId, idx := idx, pos := pos, vx := vx, vy := vy, vz := vz, rttTicks := rttTicks})
        else (w.zones.find id).map (fun zone => zone.unsub connId) := by
  intro moved
  have accepted : (!zone.holds connId && zone.entities.length ≥ authorityCapacity) = false := by
    rcases room with held | below
    · simp [held]
    · simp [below]
  have others := dropOthers_find wf connId zoneId
  have shape : SameShape w.zones (w.liveZones.foldl (dropFromOthers connId zoneId) w.zones) := by
    refine ⟨?_,?_,?_⟩
    · rw [dropFromOthers_eq]; exact foldl_updateIf_wf _ _ _ wf
    · rw [dropFromOthers_eq]; exact foldl_updateIf_freeList _ _ _ _
    · intro id
      rw [others]
      split
      · rfl
      · cases w.zones.find id <;> simp
  generalize dropped : w.liveZones.foldl (dropFromOthers connId zoneId) w.zones = zones at others shape
  have here : zones.find zoneId = some zone := by rw [others,if_pos rfl,found]
  let entity : EntityRecord :=
    {connId := connId, idx := idx, pos := pos, vx := vx, vy := vy, vz := vz, rttTicks := rttTicks}
  have value : moved = {w with zones := zones.update zoneId (zone.sub entity)} := by
    simp only [moved,moveEntityToIndexV,authority,found,accepted,dropped,if_false,here,Bool.false_eq_true,entity]
  refine ⟨by rw [value],?_,?_⟩
  · rw [value]
    apply shape.update
    intro old live
    rw [here] at live
    rw [Zone.sub_range,Option.some.inj live]
  · intro id
    rw [value]
    simp only [update_find,here,Option.map_some,others]
    by_cases same : id = zoneId <;> simp [same,entity]

/-- What a move can do: drop the entity from everywhere, leave the world as it
is, or drop it from the other zones and file it in its authority zone. -/
theorem moveEntityToIndexV_cases {w : ZoneWorld} (wf : Wf w.zones)
    (connId idx vx vy vz rttTicks : UInt64) (pos : Pos3) :
    let moved := w.moveEntityToIndexV connId idx vx vy vz rttTicks pos
    moved = w.removeEntity connId ∧ w.authorityForIndex idx = none ∨ moved = w ∨
      ∃ zoneId zone entity, w.authorityForIndex idx = some zoneId ∧ w.zones.find zoneId = some zone ∧
        entity.connId = connId ∧ moved.bits = w.bits ∧ SameShape w.zones moved.zones ∧
        ∀ id, moved.zones.find id = if id = zoneId then some (zone.sub entity)
          else (w.zones.find id).map (fun zone => zone.unsub connId) := by
  intro moved
  cases authority : w.authorityForIndex idx with
  | none =>
    left
    exact ⟨by simp only [moved,moveEntityToIndexV,authority]; rfl,rfl⟩
  | some zoneId =>
    right
    cases found : w.zones.find zoneId with
    | none =>
      left
      simp only [moved,moveEntityToIndexV,authority,found]
    | some zone =>
      by_cases room : zone.holds connId = true ∨ zone.entities.length < authorityCapacity
      · right
        exact ⟨zoneId,zone,_,rfl,found,rfl,moveEntityToIndexV_filed wf authority found room vx vy vz rttTicks pos⟩
      · left
        rw [not_or,Bool.not_eq_true,Nat.not_lt] at room
        exact moveEntityToIndexV_refused authority found room.1 room.2 vx vy vz rttTicks pos

theorem moveEntityToIndexV_bits (w : ZoneWorld) (connId idx vx vy vz rttTicks : UInt64) (pos : Pos3) :
    (w.moveEntityToIndexV connId idx vx vy vz rttTicks pos).bits = w.bits := by
  unfold moveEntityToIndexV
  split
  · rfl
  · split
    · rfl
    · split
      · rfl
      · dsimp only
        split <;> rfl

theorem moveEntityToIndexV_shape {w : ZoneWorld} (wf : Wf w.zones)
    (connId idx vx vy vz rttTicks : UInt64) (pos : Pos3) :
    SameShape w.zones (w.moveEntityToIndexV connId idx vx vy vz rttTicks pos).zones := by
  rcases moveEntityToIndexV_cases wf connId idx vx vy vz rttTicks pos with
    ⟨dropped,_⟩ | unchanged | ⟨_,_,_,_,_,_,_,shape,_⟩
  · rw [dropped]; exact removeEntity_shape wf connId
  · rw [unchanged]; exact .refl wf
  · exact shape

/-! Splitting and merging. -/

/-- The branch of `maybeSplitZone` that goes ahead with a split. -/
def SplitDue (w : ZoneWorld) (zoneId : Id) : Prop :=
  ∃ zone children, w.zones.find zoneId = some zone ∧ octreeChildren w.bits zone.range = some children ∧
    splitIsCheaper zone.entities.length (childPopulationsFor zone children) = true

theorem maybeSplitZone_idle {w : ZoneWorld} {zoneId : Id} (idle : ¬ w.SplitDue zoneId) :
    w.maybeSplitZone zoneId = w := by
  unfold maybeSplitZone
  split
  · rfl
  · rename_i zone found
    split
    · rfl
    · rename_i children cells
      split
      · rfl
      · rename_i cheaper
        exact absurd ⟨zone,children,found,cells,by simpa using cheaper⟩ idle

theorem fileInto_shape (children : List ZoneRange) (childIds : List Id) (entity : EntityRecord)
    {before zones : SlotMap Zone} (same : SameShape before zones) (i : Nat) :
    SameShape before (fileInto children childIds entity zones i) := by
  unfold fileInto
  split
  · exact same
  · split
    · split
      · exact same
      · split
        · exact same
        · rename_i target found
          apply same.update
          intro old live
          rw [found] at live
          rw [Zone.sub_range,Option.some.inj live]
    · exact same

theorem redistribute_shape (children : List ZoneRange) (childIds : List Id) (entities : List EntityRecord)
    {before zones : SlotMap Zone} (same : SameShape before zones) :
    SameShape before (entities.foldl (redistribute children childIds) zones) := by
  apply Lib.Runs.invariant_run (redistribute children childIds) (SameShape before) _ zones entities same
  intro zones entity same
  exact Lib.Runs.invariant_run (fileInto children childIds entity) (SameShape before)
    (fun _ i same => fileInto_shape children childIds entity same i) zones _ same

/-- A successful sibling scan found, for each child range in order, the live
zone with exactly that range, and gathered nothing but their entities. -/
theorem collectSiblings_some (w : ZoneWorld) (children : List ZoneRange) (s result : Siblings)
    (ok : w.collectSiblings s children = some result) :
    ∃ ids, result.ids = s.ids ++ ids ∧
      (∀ c ∈ children, ∃ id ∈ ids, ∃ zone, w.zones.find id = some zone ∧ zone.range = c) ∧
      (∀ id ∈ ids, ∃ zone, w.zones.find id = some zone ∧ zone.range ∈ children) ∧
      ∀ entity ∈ result.entities, entity ∈ s.entities ∨
        ∃ id ∈ ids, ∃ zone, w.zones.find id = some zone ∧ entity ∈ zone.entities := by
  induction children generalizing s with
  | nil =>
    simp only [collectSiblings,Option.some.injEq] at ok
    subst result
    exact ⟨[],by simp,by simp,by simp,fun entity member => Or.inl member⟩
  | cons c rest ih =>
    unfold collectSiblings at ok
    split at ok
    · cases ok
    rename_i sid _
    split at ok
    · cases ok
    rename_i szone found
    split at ok
    · cases ok
    rename_i sameRange
    obtain ⟨ids,idsEq,everyChild,everyId,gathered⟩ := ih _ ok
    have range : szone.range = c := by
      simp only [ne_eq,not_or,not_not] at sameRange
      cases hr : szone.range
      cases c
      simp_all
    refine ⟨sid::ids,by simp [idsEq],?_,?_,?_⟩
    · intro d member
      rcases List.mem_cons.mp member with rfl | later
      · exact ⟨sid,by simp,szone,found,range⟩
      · obtain ⟨id,present,here⟩ := everyChild d later
        exact ⟨id,by simp [present],here⟩
    · intro id member
      rcases List.mem_cons.mp member with rfl | later
      · exact ⟨szone,found,by simp [range]⟩
      · obtain ⟨zone,live,inside⟩ := everyId id later
        exact ⟨zone,live,by simp [inside]⟩
    intro entity member
    rcases gathered entity member with before | ⟨id,later,zone,live,inside⟩
    · rcases List.mem_append.mp before with old | here
      · exact Or.inl old
      · exact Or.inr ⟨sid,by simp,szone,found,here⟩
    · exact Or.inr ⟨id,by simp [later],zone,live,inside⟩

theorem freeAll_find (w : ZoneWorld) (ids : List Id) (j : Id) :
    (ids.foldl freeZone w).zones.find j = if j ∈ ids then none else w.zones.find j := by
  induction ids generalizing w with
  | nil => simp
  | cons id rest ih =>
    rw [List.foldl_cons,ih]
    simp only [freeZone,free_find,List.mem_cons]
    by_cases here : j = id <;> by_cases later : j ∈ rest <;> simp [here,later]

/-- Freeing a list that holds a live id leaves at least one free slot. -/
theorem freeAll_slot (w : ZoneWorld) (ids : List Id) (id : Id) (zone : Zone) (member : id ∈ ids)
    (live : w.zones.find id = some zone) : 0 < (ids.foldl freeZone w).zones.freeList.length := by
  have grows (v : ZoneWorld) (rest : List Id) :
      v.zones.freeList.length ≤ (rest.foldl freeZone v).zones.freeList.length :=
    Lib.Runs.invariant_run freeZone (fun u => v.zones.freeList.length ≤ u.zones.freeList.length)
      (fun u id le => Nat.le_trans le (free_length_le u.zones id)) v rest (Nat.le_refl _)
  induction ids generalizing w with
  | nil => simp at member
  | cons first rest ih =>
    rw [List.foldl_cons]
    by_cases here : id = first
    · subst first
      have slot : (w.freeZone id).zones.freeList.length = w.zones.freeList.length + 1 :=
        free_length_live w.zones id zone live
      exact Nat.lt_of_lt_of_le (by omega) (grows (w.freeZone id) rest)
    · apply ih (w.freeZone first)
      · simpa [here] using member
      · simpa [freeZone,free_find,here] using live

theorem freeAll_wf {w : ZoneWorld} (wf : Wf w.zones) (ids : List Id) : Wf (ids.foldl freeZone w).zones :=
  Lib.Runs.invariant_run freeZone (fun w => Wf w.zones) (fun _ id wf => free_wf wf id) w ids wf

@[simp] theorem freeAll_bits (w : ZoneWorld) (ids : List Id) : (ids.foldl freeZone w).bits = w.bits :=
  Lib.Runs.invariant_run freeZone (fun v => v.bits = w.bits) (fun _ _ same => same) w ids rfl

theorem allocZone_some {w w' : ZoneWorld} {range : ZoneRange} {id : Id} (wf : Wf w.zones)
    (ok : w.allocZone range = some (w',id)) :
    Wf w'.zones ∧ w'.bits = w.bits ∧ w.zones.find id = none ∧
      (∀ j, w'.zones.find j = if j = id then some ⟨range,[]⟩ else w.zones.find j) ∧
      w.zones.freeList.length = w'.zones.freeList.length + 1 := by
  unfold allocZone at ok
  split at ok
  · cases ok
  · rename_i zones newId alloc
    simp only [Option.some.injEq,Prod.mk.injEq] at ok
    obtain ⟨rfl,rfl⟩ := ok
    obtain ⟨wf',fresh,finds,slots⟩ := alloc_some wf alloc
    exact ⟨wf',rfl,fresh,finds,slots⟩

theorem allocZone_eq_none {w : ZoneWorld} {range : ZoneRange} (wf : Wf w.zones) :
    w.allocZone range = none ↔ w.zones.freeList = [] := by
  rw [← alloc_eq_none wf (v := ⟨range,[]⟩)]
  unfold allocZone
  split <;> simp_all

/-- The branch of `maybeMergeSiblings` that goes ahead with a merge, with the parent and the siblings it found. -/
structure MergeDue (w : ZoneWorld) (zoneId : Id) (zone : Zone) (parent : ZoneRange) (children : List ZoneRange)
    (s : Siblings) : Prop where
  found : w.zones.find zoneId = some zone
  up : parentRange w.bits zone.range = some parent
  down : octreeChildren w.bits parent = some children
  scan : w.collectSiblings ⟨[],[],0⟩ children = some s
  dear : splitIsCheaper s.population
    (children.map fun c => (s.entities.filter fun entity => c.contains entity.idx).length) = false
  room : s.population ≤ authorityCapacity

theorem maybeMergeSiblings_idle {w : ZoneWorld} {zoneId : Id}
    (idle : ∀ zone parent children s, ¬ w.MergeDue zoneId zone parent children s) : w.maybeMergeSiblings zoneId = w := by
  cases found : w.zones.find zoneId with
  | none => simp only [maybeMergeSiblings,found]
  | some zone =>
  cases up : parentRange w.bits zone.range with
  | none => simp only [maybeMergeSiblings,found,up]
  | some parent =>
  cases down : octreeChildren w.bits parent with
  | none => simp only [maybeMergeSiblings,found,up,down]
  | some children =>
  cases scan : w.collectSiblings ⟨[],[],0⟩ children with
  | none => simp only [maybeMergeSiblings,found,up,down,scan]
  | some s =>
  by_cases cheaper : splitIsCheaper s.population
      (children.map fun c => (s.entities.filter fun entity => c.contains entity.idx).length)
  · simp only [maybeMergeSiblings,found,up,down,scan,cheaper,if_true]
  by_cases crowded : s.population > authorityCapacity
  · simp only [maybeMergeSiblings,found,up,down,scan,cheaper,crowded,if_true,if_false,Bool.false_eq_true]
  exact absurd ⟨found,up,down,scan,by simpa using cheaper,Nat.not_lt.mp crowded⟩ (idle zone parent children s)

/-- A merge that is due frees the siblings and puts their parent, with their entities, in a fresh slot. -/
theorem maybeMergeSiblings_due {w : ZoneWorld} (wf : Wf w.zones) {zoneId : Id} {zone : Zone} {parent : ZoneRange}
    {children : List ZoneRange} {s : Siblings} (due : w.MergeDue zoneId zone parent children s) :
    (s.ids.foldl freeZone w).allocZone parent = none ∧ w.maybeMergeSiblings zoneId = s.ids.foldl freeZone w ∨
      ∃ w' pid, (s.ids.foldl freeZone w).allocZone parent = some (w',pid) ∧
        w.maybeMergeSiblings zoneId =
          {w' with zones := w'.zones.update pid (s.entities.foldl Zone.sub ⟨parent,[]⟩)} := by
  obtain ⟨found,up,down,scan,dear,room⟩ := due
  have fits : ¬ s.population > authorityCapacity := Nat.not_lt.mpr room
  cases alloc : (s.ids.foldl freeZone w).allocZone parent with
  | none =>
    left
    simp only [maybeMergeSiblings,found,up,down,scan,dear,fits,alloc,if_false,Bool.false_eq_true,true_and]
  | some result =>
    right
    obtain ⟨w',pid⟩ := result
    have here : w'.zones.find pid = some ⟨parent,[]⟩ := by
      rw [(allocZone_some (freeAll_wf wf s.ids) alloc).2.2.2.1 pid,if_pos rfl]
    refine ⟨w',pid,rfl,?_⟩
    simp only [maybeMergeSiblings,found,up,down,scan,dear,fits,alloc,here,if_false,Bool.false_eq_true]

/-- What a merge can do: nothing, or free the siblings found by the scan and put
their parent, with their entities, in a fresh slot. -/
theorem maybeMergeSiblings_cases {w : ZoneWorld} (wf : Wf w.zones) (zoneId : Id) :
    w.maybeMergeSiblings zoneId = w ∨
    ∃ zone parent children s, w.zones.find zoneId = some zone ∧
      parentRange w.bits zone.range = some parent ∧ octreeChildren w.bits parent = some children ∧
      w.collectSiblings ⟨[],[],0⟩ children = some s ∧
      ((s.ids.foldl freeZone w).allocZone parent = none ∧ w.maybeMergeSiblings zoneId = s.ids.foldl freeZone w ∨
        ∃ w' pid, (s.ids.foldl freeZone w).allocZone parent = some (w',pid) ∧
          w.maybeMergeSiblings zoneId =
            {w' with zones := w'.zones.update pid (s.entities.foldl Zone.sub ⟨parent,[]⟩)}) := by
  by_cases due : ∃ zone parent children s, w.MergeDue zoneId zone parent children s
  · obtain ⟨zone,parent,children,s,due⟩ := due
    exact Or.inr ⟨zone,parent,children,s,due.found,due.up,due.down,due.scan,maybeMergeSiblings_due wf due⟩
  · left
    apply maybeMergeSiblings_idle
    intro zone parent children s branch
    exact due ⟨zone,parent,children,s,branch⟩

/-! A split that runs out of slots. -/

/-- Allocating children fails exactly when there are more of them than free slots. -/
theorem allocChildren_isError {w : ZoneWorld} (wf : Wf w.zones) (ids : List Id) (ranges : List ZoneRange) :
    (∃ w', allocChildren w ids ranges = .error w') ↔ w.zones.freeList.length < ranges.length := by
  induction ranges generalizing w ids with
  | nil => simp [allocChildren]
  | cons c rest ih =>
    cases alloc : w.allocZone c with
    | none =>
      have full := (allocZone_eq_none wf).mp alloc
      simp [allocChildren,alloc,full]
    | some result =>
      obtain ⟨next,id⟩ := result
      obtain ⟨wf',_,_,_,slots⟩ := allocZone_some wf alloc
      have tail := ih wf' (ids ++ [id])
      simp only [allocChildren,alloc]
      rw [tail,List.length_cons]
      omega

theorem allocChildren_keeps {w w' : ZoneWorld} (wf : Wf w.zones) (ids : List Id) (ranges : List ZoneRange)
    (failed : allocChildren w ids ranges = .error w') :
    Wf w'.zones ∧ ∀ id zone, w.zones.find id = some zone → w'.zones.find id = some zone := by
  induction ranges generalizing w ids with
  | nil => cases failed
  | cons c rest ih =>
    unfold allocChildren at failed
    split at failed
    · cases failed
      exact ⟨wf,fun _ _ live => live⟩
    · rename_i next fresh alloc
      obtain ⟨wf',_,dead,finds,_⟩ := allocZone_some wf alloc
      obtain ⟨wfEnd,kept⟩ := ih wf' _ failed
      refine ⟨wfEnd,fun id zone live => kept id zone ?_⟩
      have apart : id ≠ fresh := by
        intro same
        rw [same,dead] at live
        cases live
      rw [finds,if_neg apart,live]

theorem maybeSplitZone_short {w : ZoneWorld} (wf : Wf w.zones) {zoneId : Id} (due : w.SplitDue zoneId)
    (short : (w.freeZone zoneId).zones.freeList.length < 8) :
    Wf (w.maybeSplitZone zoneId).zones ∧ (w.maybeSplitZone zoneId).zones.find zoneId = none := by
  obtain ⟨zone,children,found,octants,cheaper⟩ := due
  have length := octreeChildren_length octants
  have freed : Wf (w.freeZone zoneId).zones := free_wf wf zoneId
  obtain ⟨w',failed⟩ := (allocChildren_isError freed [] children).mpr (length.symm ▸ short)
  have value : w.maybeSplitZone zoneId = w' := by
    simp only [maybeSplitZone,found,octants,cheaper,failed,Bool.not_true,Bool.false_eq_true,if_false]
  obtain ⟨c,rest,rfl⟩ := List.exists_cons_of_length_pos (l := children) (by omega)
  -- The first child is issued from the slot the parent has just left.
  let heir : Id := ⟨zoneId.index,zoneId.generation + 1⟩
  obtain ⟨zones,first⟩ := alloc_free w.zones zoneId zone ⟨c,[]⟩ found
  have placed : (w.freeZone zoneId).allocZone c = some ({w with zones := zones},heir) := by
    simp only [allocZone,freeZone,first,heir]
  obtain ⟨wf',_,_,finds,_⟩ := allocZone_some freed placed
  simp only [allocChildren,placed] at failed
  obtain ⟨wfEnd,kept⟩ := allocChildren_keeps wf' _ _ failed
  have heirLive : w'.zones.find heir = some ⟨c,[]⟩ := kept heir _ (by rw [finds,if_pos rfl])
  rw [value]
  refine ⟨wfEnd,?_⟩
  cases parent : w'.zones.find zoneId with
  | none => rfl
  | some revived =>
    have same := live_index_inj heirLive parent rfl
    have generations : zoneId.generation + 1 = zoneId.generation := congrArg Id.generation same
    simp at generations

/-- A split that cannot place its eight children leaves the world, and its live zones, as they
were exactly when no split was due in the first place. -/
theorem split_untouched_iff (w : ZoneWorld) (wf : Wf w.zones) (zoneId : Id) :
    let short := (w.freeZone zoneId).zones.freeList.length < 8
    ((short → w.maybeSplitZone zoneId = w) ↔ (short → ¬ w.SplitDue zoneId)) ∧
      ((short → (w.maybeSplitZone zoneId).liveZones = w.liveZones) ↔ (short → ¬ w.SplitDue zoneId)) := by
  intro short
  have idle (notDue : short → ¬ w.SplitDue zoneId) (few : short) : w.maybeSplitZone zoneId = w :=
    maybeSplitZone_idle (notDue few)
  have lost (same : short → (w.maybeSplitZone zoneId).liveZones = w.liveZones) (few : short) :
      ¬ w.SplitDue zoneId := by
    intro due
    obtain ⟨zone,_,found,_⟩ := id due
    have before : (zoneId,zone) ∈ w.liveZones := (mem_liveEntries wf zoneId zone).mpr found
    rw [← same few] at before
    obtain ⟨wf',dead⟩ := maybeSplitZone_short wf due few
    have after := (mem_liveEntries wf' zoneId zone).mp before
    rw [dead] at after
    cases after
  refine ⟨⟨fun same => lost fun few => by rw [same few],idle⟩,⟨lost,fun notDue few => by rw [idle notDue few]⟩⟩

/-- One slot, holding the whole curve and one entity in each of its first four octants. -/
def crowdedWorld : ZoneWorld where
  zones := {
    slots := [(1,some ⟨⟨0,2^63⟩,[
      {connId := 1, idx := 0},{connId := 2, idx := 2^60},
      {connId := 3, idx := 2 * 2^60},{connId := 4, idx := 3 * 2^60}]⟩)],
    freeList := []}
  bits := zoneBits

/-- One slot, holding the whole curve and two entities in one octant. -/
def calmWorld : ZoneWorld where
  zones := {slots := [(1,some ⟨⟨0,2^63⟩,[{connId := 1, idx := 0},{connId := 2, idx := 7}]⟩)], freeList := []}
  bits := zoneBits

theorem oneSlot_wf (zone : Zone) : Wf {slots := [(1,some zone)], freeList := []} := by
  refine ⟨by simp,by simp,fun index => ?_⟩
  simp only [List.not_mem_nil,false_iff]
  rintro ⟨g,slot⟩
  have first : index.toNat = 0 := by simpa using inside_of_get slot
  simp [first] at slot

instance (w : ZoneWorld) (zoneId : Id) : Decidable (w.SplitDue zoneId) :=
  decidable_of_iff (∃ zone ∈ w.zones.find zoneId, ∃ children ∈ octreeChildren w.bits zone.range,
      splitIsCheaper zone.entities.length (childPopulationsFor zone children) = true)
    ⟨fun ⟨zone,found,children,octants,cheaper⟩ => ⟨zone,children,found,octants,cheaper⟩,
      fun ⟨zone,children,found,octants,cheaper⟩ => ⟨zone,found,children,octants,cheaper⟩⟩

/-- A full world in which the split of the live zone does not pay. -/
theorem split_untouched_iff_calm :
    (calmWorld.freeZone ⟨0,1⟩).zones.freeList.length < 8 ∧ (calmWorld.zones.find ⟨0,1⟩).isSome ∧
      calmWorld.maybeSplitZone ⟨0,1⟩ = calmWorld := by
  have exact_ := (split_untouched_iff calmWorld (oneSlot_wf _) ⟨0,1⟩).1
  exact ⟨by decide,by decide,exact_.mpr (fun _ => by decide +kernel) (by decide)⟩

theorem short_split_loses_zone :
    Wf crowdedWorld.zones ∧ (crowdedWorld.freeZone ⟨0,1⟩).zones.freeList.length < 8 ∧
      (crowdedWorld.maybeSplitZone ⟨0,1⟩).liveZones = [(⟨0,2⟩,⟨⟨0,2^60⟩,[]⟩)] ∧
      crowdedWorld.maybeSplitZone ⟨0,1⟩ ≠ crowdedWorld := by
  refine ⟨oneSlot_wf _,by decide,by decide +kernel,?_⟩
  intro same
  have lost : (crowdedWorld.maybeSplitZone ⟨0,1⟩).zones.find ⟨0,1⟩ = none := by decide +kernel
  rw [same] at lost
  cases lost

end ZoneWorld

end WarpLoop.Core
