import WarpLoop.Core.WorldSpecs

/-! Who may be listed in the zones and rooms of the core. A move lists nobody but
the moved entity, splits and merges only pass entities on, and a removal unlists the
entity for good. -/
namespace WarpLoop.Core
open SlotMap Lib.Runs

namespace ZoneWorld

structure Within (M : UInt64 → Prop) (zones : SlotMap Zone) : Prop where
  wf : Wf zones
  members : ∀ id zone, zones.find id = some zone → ∀ entity ∈ zone.entities, M entity.connId

variable {M : UInt64 → Prop}

theorem Within.mono {N : UInt64 → Prop} {zones : SlotMap Zone} (within : Within M zones) (le : ∀ c, M c → N c) :
    Within N zones :=
  ⟨within.wf,fun id zone found entity member => le _ (within.members id zone found entity member)⟩

theorem Within.update {zones : SlotMap Zone} (within : Within M zones) (id : Id) (zone : Zone)
    (members : ∀ entity ∈ zone.entities, M entity.connId) : Within M (zones.update id zone) where
  wf := update_wf within.wf id zone
  members := by
    intro j z found
    rw [update_find] at found
    split at found
    · obtain ⟨_,_,rfl⟩ := Option.map_eq_some_iff.mp found
      exact members
    · exact within.members j z found

theorem Within.free {zones : SlotMap Zone} (within : Within M zones) (id : Id) : Within M (zones.free id) where
  wf := free_wf within.wf id
  members := by
    intro j z found
    rw [free_find] at found
    split at found
    · cases found
    · exact within.members j z found

theorem Within.freeAll {w : ZoneWorld} (within : Within M w.zones) (ids : List Id) :
    Within M (ids.foldl freeZone w).zones :=
  invariant_run freeZone (fun w => Within M w.zones) (fun _ id within => within.free id) w ids within

theorem Within.alloc {w w' : ZoneWorld} {range : ZoneRange} {id : Id} (within : Within M w.zones)
    (ok : w.allocZone range = some (w',id)) : Within M w'.zones := by
  obtain ⟨wf,_,_,finds,_⟩ := allocZone_some within.wf ok
  refine ⟨wf,fun j z found => ?_⟩
  rw [finds] at found
  split at found
  · obtain rfl := Option.some.inj found
    simp
  · exact within.members j z found

theorem Within.remove {w : ZoneWorld} (within : Within M w.zones) (connId : UInt64) :
    Within (fun c => M c ∧ c ≠ connId) (w.removeEntity connId).zones where
  wf := (removeEntity_shape within.wf connId).wf
  members := by
    intro id zone found entity member
    rw [removeEntity_find within.wf] at found
    obtain ⟨old,live,rfl⟩ := Option.map_eq_some_iff.mp found
    obtain ⟨listed,other⟩ := List.mem_filter.mp member
    exact ⟨within.members id old live entity listed,by simpa using other⟩

theorem Within.move {w : ZoneWorld} (within : Within M w.zones) (connId idx vx vy vz rttTicks : UInt64) (pos : Pos3)
    (allowed : M connId) : Within M (w.moveEntityToIndexV connId idx vx vy vz rttTicks pos).zones := by
  rcases moveEntityToIndexV_cases within.wf connId idx vx vy vz rttTicks pos with
    ⟨dropped,_⟩ | unchanged | ⟨zoneId,zone,entity,_,found,own,_,shape,finds⟩
  · rw [dropped]
    exact (within.remove connId).mono fun _ both => both.1
  · rw [unchanged]
    exact within
  · refine ⟨shape.wf,fun id z live e member => ?_⟩
    rw [finds] at live
    split at live
    · obtain rfl := Option.some.inj live
      rcases zone.mem_sub e entity member with old | rfl
      · exact within.members zoneId zone found e old
      · rwa [own]
    · obtain ⟨old,there,rfl⟩ := Option.map_eq_some_iff.mp live
      exact within.members id old there e (List.mem_filter.mp member).1

theorem Within.allocChildren {w : ZoneWorld} (within : Within M w.zones) (ids : List Id) (ranges : List ZoneRange) :
    match w.allocChildren ids ranges with
    | .ok (w',_) => Within M w'.zones
    | .error w' => Within M w'.zones := by
  induction ranges generalizing w ids with
  | nil => exact within
  | cons c rest ih =>
    cases alloc : w.allocZone c with
    | none => simpa [ZoneWorld.allocChildren,alloc] using within
    | some result =>
      simp only [ZoneWorld.allocChildren,alloc]
      exact ih (within.alloc alloc) _

theorem Within.fileInto {zones : SlotMap Zone} (within : Within M zones) (children : List ZoneRange)
    (childIds : List Id) (entity : EntityRecord) (allowed : M entity.connId) (i : Nat) :
    Within M (fileInto children childIds entity zones i) := by
  unfold ZoneWorld.fileInto
  split
  · exact within
  · split
    · split
      · exact within
      · split
        · exact within
        · rename_i cid _ _ target found
          apply within.update
          intro e member
          rcases target.mem_sub e entity member with old | rfl
          · exact within.members cid target found e old
          · exact allowed
    · exact within

theorem Within.redistribute {zones : SlotMap Zone} (within : Within M zones) (children : List ZoneRange)
    (childIds : List Id) (entities : List EntityRecord) (allowed : ∀ entity ∈ entities, M entity.connId) :
    Within M (entities.foldl (ZoneWorld.redistribute children childIds) zones) := by
  induction entities generalizing zones with
  | nil => exact within
  | cons entity rest ih =>
    refine ih ?_ (fun e member => allowed e (by simp [member]))
    exact invariant_run (ZoneWorld.fileInto children childIds entity) (Within M)
      (fun _ i inv => inv.fileInto children childIds entity (allowed entity (by simp)) i) zones _ within

theorem Within.split {w : ZoneWorld} (within : Within M w.zones) (zoneId : Id) :
    Within M (w.maybeSplitZone zoneId).zones := by
  unfold maybeSplitZone
  split
  · exact within
  · rename_i zone found
    split
    · exact within
    · rename_i children _
      split
      · exact within
      · have allocated := Within.allocChildren (w := w.freeZone zoneId) (within.free zoneId) [] children
        split
        · rename_i w' failed
          rw [failed] at allocated
          exact allocated
        · rename_i w' childIds ok
          rw [ok] at allocated
          exact Within.redistribute allocated children childIds zone.entities (within.members zoneId zone found)

theorem Within.merge {w : ZoneWorld} (within : Within M w.zones) (zoneId : Id) :
    Within M (w.maybeMergeSiblings zoneId).zones := by
  rcases maybeMergeSiblings_cases within.wf zoneId with
    unchanged | ⟨zone,parent,children,s,_,_,_,scan,outcome⟩
  · rw [unchanged]
    exact within
  rcases outcome with ⟨_,freed⟩ | ⟨w',pid,alloc,result⟩
  · rw [freed]
    exact within.freeAll s.ids
  · rw [result]
    apply ((within.freeAll s.ids).alloc alloc).update
    intro entity member
    obtain ⟨ids,_,_,_,gathered⟩ := collectSiblings_some w children _ s scan
    rcases Zone.mem_foldl_sub _ _ entity member with none | collected
    · simp at none
    · rcases gathered entity collected with none | ⟨id,_,sibling,live,listed⟩
      · simp at none
      · exact within.members id sibling live entity listed

end ZoneWorld

namespace Ffi

variable {M : UInt64 → Prop}

theorem entityMoveV_rooms (s : State) (connId : UInt64) (x y z : Int64) (vx vy vz rttTicks : UInt64) :
    (entityMoveV s connId x y z vx vy vz rttTicks).rooms = s.rooms := rfl

theorem entityMoveV_within {s : State} (within : ZoneWorld.Within M s.zoneWorld.zones) (connId : UInt64)
    (x y z : Int64) (vx vy vz rttTicks : UInt64) (allowed : M connId) :
    ZoneWorld.Within M (entityMoveV s connId x y z vx vy vz rttTicks).zoneWorld.zones := by
  have moved := within.move connId (hilbert3D s.zoneWorld.bits ⟨x,y,z⟩) vx vy vz rttTicks ⟨x,y,z⟩ allowed
  unfold entityMoveV rebalanceAfterMove
  dsimp only
  split
  · exact moved
  · exact moved.split _

@[simp] theorem entityRemove_rooms (s : State) (connId : UInt64) : (entityRemove s connId).rooms = s.rooms := rfl

theorem entityRemove_within {s : State} (within : ZoneWorld.Within M s.zoneWorld.zones) (connId : UInt64) :
    ZoneWorld.Within (fun c => M c ∧ c ≠ connId) (entityRemove s connId).zoneWorld.zones := by
  have removed := within.remove connId
  unfold entityRemove
  dsimp only
  split
  · exact removed
  · exact removed.merge _

end Ffi

/-! Rooms. -/

theorem Id.pack_toNat (id : Id) : id.pack.toNat = id.index.toNat * 2^32 + id.generation.toNat := by
  have high := id.index.toNat_lt
  have low := id.generation.toNat_lt
  have shifted : (id.index.toUInt64 <<< 32).toNat = 2^32 * id.index.toNat := by
    rw [UInt64.toNat_shiftLeft,Nat.shiftLeft_eq]
    simp
    omega
  rw [Id.pack,UInt64.toNat_or,shifted,UInt32.toNat_toUInt64,← Nat.two_pow_add_eq_or_of_lt low]
  omega

theorem Id.unpack_pack (id : Id) : Id.unpack id.pack = id := by
  have value := id.pack_toNat
  have high := id.index.toNat_lt
  have low := id.generation.toNat_lt
  have index : ((id.pack >>> 32).toUInt32) = id.index := by
    apply UInt32.toNat.inj
    rw [UInt64.toNat_toUInt32,UInt64.toNat_shiftRight,value]
    simp [Nat.shiftRight_eq_div_pow]
    omega
  have generation : ((id.pack &&& 0xFFFFFFFF).toUInt32) = id.generation := by
    apply UInt32.toNat.inj
    rw [UInt64.toNat_toUInt32,UInt64.toNat_and,value]
    have mask : (0xFFFFFFFF : UInt64).toNat = 2^32 - 1 := rfl
    rw [mask,Nat.and_two_pow_sub_one_eq_mod]
    omega
  rw [Id.unpack,index,generation]

namespace Room

theorem mem_sub (r : Room) (connId c : UInt64) :
    c ∈ (r.sub connId).subscribers ↔ c ∈ r.subscribers ∨ c = connId := by
  unfold sub
  split
  · rename_i present
    have member : connId ∈ r.subscribers := by simpa using present
    constructor
    · exact Or.inl
    · rintro (old | rfl)
      · exact old
      · exact member
  · simp

theorem mem_unsub (r : Room) (connId c : UInt64) :
    c ∈ (r.unsub connId).subscribers ↔ c ∈ r.subscribers ∧ c ≠ connId := by
  simp [unsub]

theorem nodup_sub {r : Room} (nodup : r.subscribers.Nodup) (connId : UInt64) : (r.sub connId).subscribers.Nodup := by
  unfold sub
  split
  · exact nodup
  · rename_i absent
    have apart : connId ∉ r.subscribers := by simpa using absent
    exact List.nodup_append.mpr ⟨nodup,by simp,by
      intro a member b single equal
      obtain rfl := List.mem_singleton.mp single
      exact apart (equal ▸ member)⟩

theorem nodup_unsub {r : Room} (nodup : r.subscribers.Nodup) (connId : UInt64) :
    (r.unsub connId).subscribers.Nodup := nodup.filter _

end Room

namespace Ffi

/-- The rooms after a change to the one room found under an id, if any. -/
private def changeRoom (rooms : SlotMap Room) (id : Id) (change : Room → Room) : SlotMap Room :=
  match rooms.find id with
  | none => rooms
  | some room => rooms.update id (change room)

private theorem changeRoom_find (rooms : SlotMap Room) (id j : Id) (change : Room → Room) :
    (changeRoom rooms id change).find j = if j = id then (rooms.find j).map change else rooms.find j := by
  unfold changeRoom
  cases found : rooms.find id with
  | none =>
    by_cases here : j = id
    · rw [if_pos here,here,found]; rfl
    · rw [if_neg here]
  | some room =>
    rw [update_find]
    by_cases here : j = id
    · simp [here,found]
    · simp [here]

private theorem changeRoom_wf {rooms : SlotMap Room} (wf : Wf rooms) (id : Id) (change : Room → Room) :
    Wf (changeRoom rooms id change) := by
  unfold changeRoom
  split
  · exact wf
  · exact update_wf wf _ _

@[simp] theorem sub_zoneWorld (s : State) (roomId connId : UInt64) :
    (sub s roomId connId).zoneWorld = s.zoneWorld := by
  unfold sub
  dsimp only
  split <;> rfl

@[simp] theorem unsub_zoneWorld (s : State) (roomId connId : UInt64) :
    (unsub s roomId connId).zoneWorld = s.zoneWorld := by
  unfold unsub
  dsimp only
  split <;> rfl

private theorem sub_rooms (s : State) (roomId connId : UInt64) :
    (sub s roomId connId).rooms = changeRoom s.rooms (Id.unpack roomId) (fun room => room.sub connId) := by
  unfold sub changeRoom
  dsimp only
  split <;> simp_all

private theorem unsub_rooms (s : State) (roomId connId : UInt64) :
    (unsub s roomId connId).rooms = changeRoom s.rooms (Id.unpack roomId) (fun room => room.unsub connId) := by
  unfold unsub changeRoom
  dsimp only
  split <;> simp_all

theorem sub_find (s : State) (roomId connId : UInt64) (id : Id) :
    (sub s roomId connId).rooms.find id =
      if id = Id.unpack roomId then (s.rooms.find id).map (fun room => room.sub connId) else s.rooms.find id := by
  rw [sub_rooms,changeRoom_find]

theorem unsub_find (s : State) (roomId connId : UInt64) (id : Id) :
    (unsub s roomId connId).rooms.find id =
      if id = Id.unpack roomId then (s.rooms.find id).map (fun room => room.unsub connId) else s.rooms.find id := by
  rw [unsub_rooms,changeRoom_find]

theorem sub_wf {s : State} (wf : Wf s.rooms) (roomId connId : UInt64) : Wf (sub s roomId connId).rooms := by
  rw [sub_rooms]
  exact changeRoom_wf wf _ _

theorem unsub_wf {s : State} (wf : Wf s.rooms) (roomId connId : UInt64) : Wf (unsub s roomId connId).rooms := by
  rw [unsub_rooms]
  exact changeRoom_wf wf _ _

end Ffi

end WarpLoop.Core
