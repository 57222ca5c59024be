import Mathlib.Logic.Relation
import WarpLoop.Core.Rooms

/-! The handles that the C interface gives out. Whatever is called, the rooms and the zones
are slot maps of the capacity given at the start, changed only by the operations of the slot
map; from this alone follows what an allocation returns. -/
namespace WarpLoop.Core
open SlotMap Lib.Runs

namespace SlotMap

variable {α : Type}

/-- The second map comes from the first by calls of `alloc`, `free` and `update`. -/
def Edited : SlotMap α → SlotMap α → Prop :=
  Relation.ReflTransGen fun before after => ∃ op : Op α, (before.apply op).1 = after

theorem Edited.refl (m : SlotMap α) : Edited m m := Relation.ReflTransGen.refl

theorem Edited.step {start m : SlotMap α} (edited : Edited start m) (op : Op α) : Edited start (m.apply op).1 :=
  edited.tail ⟨op,rfl⟩

theorem Edited.alloc {start m m' : SlotMap α} {v : α} {id : Id} (edited : Edited start m)
    (ok : m.alloc v = some (m',id)) : Edited start m' := by
  have next := edited.step (.alloc v)
  simpa only [apply,ok] using next

theorem Edited.free {start m : SlotMap α} (edited : Edited start m) (id : Id) : Edited start (m.free id) :=
  edited.step (.free id)

theorem Edited.update {start m : SlotMap α} (edited : Edited start m) (id : Id) (v : α) :
    Edited start (m.update id v) :=
  edited.step (.update id v)

theorem apply_wf {m : SlotMap α} (wf : Wf m) (op : Op α) : Wf (m.apply op).1 := by
  cases op with
  | alloc v =>
    simp only [apply]
    cases ok : m.alloc v with
    | none => exact wf
    | some result => exact (alloc_some wf ok).1
  | free id => exact free_wf wf id
  | update id v => exact update_wf wf id v

theorem Edited.wf {before after : SlotMap α} (edited : Edited before after) (wf : Wf before) : Wf after := by
  induction edited with
  | refl => exact wf
  | tail _ step ih =>
    obtain ⟨op,rfl⟩ := step
    exact apply_wf ih op

theorem Edited.length {before after : SlotMap α} (edited : Edited before after) :
    after.slots.length = before.slots.length := by
  induction edited with
  | refl => rfl
  | tail _ step ih =>
    obtain ⟨op,rfl⟩ := step
    rw [apply_slots_length,ih]

/-- Every index below the capacity holds a value. -/
def AllLive (capacity : Nat) (m : SlotMap α) : Prop :=
  ∀ index : UInt32, index.toNat < capacity → ∃ generation v, m.find ⟨index,generation⟩ = some v

theorem alloc_eq_none_iff_allLive {m : SlotMap α} {v : α} (wf : Wf m) :
    m.alloc v = none ↔ m.AllLive m.slots.length := by
  rw [alloc_eq_none wf,List.eq_nil_iff_forall_not_mem]
  constructor
  · intro full index inside
    have slot := List.getElem?_eq_getElem inside
    cases here : m.slots[index.toNat] with
    | mk generation held =>
      rw [here] at slot
      cases held with
      | none => exact absurd ((wf.free_iff index).mpr ⟨generation,slot⟩) (full index)
      | some v => exact ⟨generation,v,(find_eq_some m _ v).mpr slot⟩
  · intro live index member
    obtain ⟨g,slot⟩ := (wf.free_iff index).mp member
    obtain ⟨generation,v,found⟩ := live index (inside_of_get slot)
    have held := (find_eq_some m _ v).mp found
    rw [slot] at held
    cases held

end SlotMap

namespace ZoneWorld

variable {start : SlotMap Zone}

theorem removeEntity_edited {w : ZoneWorld} (edited : Edited start w.zones) (connId : UInt64) :
    Edited start (w.removeEntity connId).zones := by
  apply invariant_run (dropFrom connId) (Edited start)
  · intro zones entry before
    unfold dropFrom
    split
    · exact before.update _ _
    · exact before
  · exact edited

theorem dropFromOthers_edited {w : ZoneWorld} (edited : Edited start w.zones) (connId : UInt64) (zoneId : Id) :
    Edited start (w.liveZones.foldl (dropFromOthers connId zoneId) w.zones) := by
  apply invariant_run (dropFromOthers connId zoneId) (Edited start)
  · intro zones entry before
    unfold dropFromOthers
    split
    · exact before.update _ _
    · exact before
  · exact edited

theorem moveEntityToIndexV_edited {w : ZoneWorld} (edited : Edited start w.zones)
    (connId idx vx vy vz rttTicks : UInt64) (pos : Pos3) :
    Edited start (w.moveEntityToIndexV connId idx vx vy vz rttTicks pos).zones := by
  unfold moveEntityToIndexV
  split
  · exact removeEntity_edited edited connId
  · rename_i zoneId _
    split
    · exact edited
    · split
      · exact edited
      · dsimp only
        split
        · exact edited
        · exact (dropFromOthers_edited edited connId zoneId).update _ _

theorem allocZone_edited {w w' : ZoneWorld} (edited : Edited start w.zones) {range : ZoneRange} {id : Id}
    (ok : w.allocZone range = some (w',id)) : Edited start w'.zones := by
  unfold allocZone at ok
  split at ok
  · cases ok
  · rename_i zones id alloc
    cases ok
    exact edited.alloc alloc

theorem allocChildren_edited {w : ZoneWorld} (edited : Edited start w.zones) (ids : List Id)
    (ranges : List ZoneRange) :
    match w.allocChildren ids ranges with
    | .ok (w',_) => Edited start w'.zones
    | .error w' => Edited start w'.zones := by
  induction ranges generalizing w ids with
  | nil => exact edited
  | cons c rest ih =>
    cases alloc : w.allocZone c with
    | none => simpa [allocChildren,alloc] using edited
    | some result =>
      simp only [allocChildren,alloc]
      exact ih (allocZone_edited edited alloc) _

theorem fileInto_edited {zones : SlotMap Zone} (edited : Edited start zones) (children : List ZoneRange)
    (childIds : List Id) (entity : EntityRecord) (i : Nat) :
    Edited start (fileInto children childIds entity zones i) := by
  unfold fileInto
  split
  · exact edited
  · split
    · split
      · exact edited
      · split
        · exact edited
        · exact edited.update _ _
    · exact edited

theorem redistribute_edited {zones : SlotMap Zone} (edited : Edited start zones) (children : List ZoneRange)
    (childIds : List Id) (entity : EntityRecord) : Edited start (redistribute children childIds zones entity) :=
  invariant_run (fileInto children childIds entity) (Edited start)
    (fun _ i before => fileInto_edited before children childIds entity i) zones _ edited

theorem maybeSplitZone_edited {w : ZoneWorld} (edited : Edited start w.zones) (zoneId : Id) :
    Edited start (w.maybeSplitZone zoneId).zones := by
  unfold maybeSplitZone
  split
  · exact edited
  · split
    · exact edited
    · rename_i children _
      split
      · exact edited
      · have freed : Edited start (w.freeZone zoneId).zones := edited.free zoneId
        have allocated := allocChildren_edited freed [] children
        split
        · rename_i failed
          rw [failed] at allocated
          exact allocated
        · rename_i childIds ok
          rw [ok] at allocated
          exact invariant_run (redistribute children childIds) (Edited start)
            (fun _ entity before => redistribute_edited before children childIds entity) _ _ allocated

theorem maybeMergeSiblings_edited {w : ZoneWorld} (wf : Wf start) (edited : Edited start w.zones) (zoneId : Id) :
    Edited start (w.maybeMergeSiblings zoneId).zones := by
  have freeAll (ids : List Id) : Edited start (ids.foldl freeZone w).zones :=
    invariant_run freeZone (fun w => Edited start w.zones) (fun _ id before => before.free id) w ids edited
  rcases maybeMergeSiblings_cases (edited.wf wf) zoneId with
    same | ⟨_,_,_,s,_,_,_,_,⟨_,freed⟩ | ⟨w',pid,alloc,merged⟩⟩
  · rw [same]
    exact edited
  · rw [freed]
    exact freeAll s.ids
  · rw [merged]
    exact (allocZone_edited (freeAll s.ids) alloc).update _ _

end ZoneWorld

/-- Every exported call that may change the core. -/
inductive FfiCall
  | allocRoom
  | freeRoom (roomId : UInt64)
  | sub (roomId connId : UInt64)
  | unsub (roomId connId : UInt64)
  | zoneAlloc (startIdx stopIdx : UInt64)
  | zoneFree (zoneId : UInt64)
  | entityMove (connId : UInt64) (x y z : Int64)
  | entityMoveV (connId : UInt64) (x y z : Int64) (vx vy vz rttTicks : UInt64)
  | entityRemove (connId : UInt64)

def State.apply (s : State) : FfiCall → State
  | .allocRoom => (Ffi.allocRoom s).1
  | .freeRoom roomId => Ffi.freeRoom s roomId
  | .sub roomId connId => Ffi.sub s roomId connId
  | .unsub roomId connId => Ffi.unsub s roomId connId
  | .zoneAlloc startIdx stopIdx => (Ffi.zoneAlloc s startIdx stopIdx).1
  | .zoneFree zoneId => Ffi.zoneFree s zoneId
  | .entityMove connId x y z => Ffi.entityMove s connId x y z
  | .entityMoveV connId x y z vx vy vz rttTicks => Ffi.entityMoveV s connId x y z vx vy vz rttTicks
  | .entityRemove connId => Ffi.entityRemove s connId

/-- Both maps are edited versions of those of the start. -/
structure State.EditedFrom (start s : State) : Prop where
  rooms : Edited start.rooms s.rooms
  zones : Edited start.zoneWorld.zones s.zoneWorld.zones

namespace Ffi

variable {start : SlotMap Zone}

theorem rebalanceAfterMove_edited {w : ZoneWorld} (edited : Edited start w.zones) (pos : Pos3) :
    Edited start (rebalanceAfterMove w pos).zones := by
  unfold rebalanceAfterMove
  split
  · exact edited
  · exact ZoneWorld.maybeSplitZone_edited edited _

theorem entityRemove_edited {s : State} (wf : Wf start) (edited : Edited start s.zoneWorld.zones) (connId : UInt64) :
    Edited start (entityRemove s connId).zoneWorld.zones := by
  have removed := ZoneWorld.removeEntity_edited edited connId
  unfold entityRemove
  dsimp only
  split
  · exact removed
  · exact ZoneWorld.maybeMergeSiblings_edited wf removed _

end Ffi

theorem State.EditedFrom.apply {start s : State} (wf : Wf start.zoneWorld.zones) (edited : start.EditedFrom s)
    (call : FfiCall) : start.EditedFrom (s.apply call) := by
  obtain ⟨rooms,zones⟩ := edited
  cases call with
  | allocRoom =>
    simp only [State.apply,Ffi.allocRoom]
    split
    · exact ⟨rooms,zones⟩
    · rename_i ok
      exact ⟨rooms.alloc ok,zones⟩
  | freeRoom roomId => exact ⟨rooms.free _,zones⟩
  | sub roomId connId =>
    simp only [State.apply,Ffi.sub]
    split
    · exact ⟨rooms,zones⟩
    · exact ⟨rooms.update _ _,zones⟩
  | unsub roomId connId =>
    simp only [State.apply,Ffi.unsub]
    split
    · exact ⟨rooms,zones⟩
    · exact ⟨rooms.update _ _,zones⟩
  | zoneAlloc startIdx stopIdx =>
    simp only [State.apply,Ffi.zoneAlloc]
    split
    · exact ⟨rooms,zones⟩
    · rename_i ok
      exact ⟨rooms,ZoneWorld.allocZone_edited zones ok⟩
  | zoneFree zoneId => exact ⟨rooms,zones.free _⟩
  | entityMove connId x y z =>
    refine ⟨rooms,?_⟩
    apply Ffi.rebalanceAfterMove_edited
    exact ZoneWorld.moveEntityToIndexV_edited zones _ _ _ _ _ _ _
  | entityMoveV connId x y z vx vy vz rttTicks =>
    refine ⟨rooms,?_⟩
    apply Ffi.rebalanceAfterMove_edited
    exact ZoneWorld.moveEntityToIndexV_edited zones _ _ _ _ _ _ _
  | entityRemove connId => exact ⟨rooms,Ffi.entityRemove_edited wf zones connId⟩

/-- What a caller may rely on when an allocation of `v` turned `before` into `after` and
returned `handle`. -/
structure AllocFaithful {α : Type} (capacity : UInt32) (before after : SlotMap α) (v : α) (handle : UInt64) : Prop where
  sentinel_iff : handle = SENTINEL ↔ before.AllLive capacity.toNat
  distinct : handle ≠ SENTINEL → ∀ id held, before.find id = some held → id.pack ≠ handle
  finds : handle ≠ SENTINEL → after.find (Id.unpack handle) = some v
  others : ∀ id, id ≠ Id.unpack handle → after.find id = before.find id

/-- The two allocations that the interface exports, from the state. -/
structure State.AllocsFaithful (capacity : UInt32) (s : State) : Prop where
  room : AllocFaithful capacity s.rooms (Ffi.allocRoom s).1.rooms Room.empty (Ffi.allocRoom s).2
  zone : ∀ startIdx stopIdx, AllocFaithful capacity s.zoneWorld.zones
    (Ffi.zoneAlloc s startIdx stopIdx).1.zoneWorld.zones ⟨⟨startIdx,stopIdx⟩,[]⟩ (Ffi.zoneAlloc s startIdx stopIdx).2

theorem AllocFaithful.refused {α : Type} {capacity : UInt32} {m : SlotMap α} {v : α} (wf : Wf m)
    (size : m.slots.length = capacity.toNat) (refused : m.alloc v = none) :
    AllocFaithful capacity m m v SENTINEL where
  sentinel_iff := by
    rw [← size,← alloc_eq_none_iff_allLive wf]
    exact iff_of_true rfl refused
  distinct := fun real => absurd rfl real
  finds := fun real => absurd rfl real
  others := fun _ _ => rfl

theorem AllocFaithful.issued {α : Type} {capacity : UInt32} {m m' : SlotMap α} {v : α} {id : Id} (wf : Wf m)
    (size : m.slots.length = capacity.toNat) (ok : m.alloc v = some (m',id)) :
    AllocFaithful capacity m m' v id.pack := by
  obtain ⟨_,fresh,finds,_⟩ := alloc_some wf ok
  have found : m'.find id = some v := by rw [finds,if_pos rfl]
  have small : m'.slots.length < 2^32 := by
    rw [alloc_slots_length ok,size]
    exact capacity.toNat_lt
  have real : id.pack ≠ SENTINEL := RoomSession.pack_ne_sentinel small found
  refine ⟨?_,?_,?_,?_⟩
  · have room : ¬ m.AllLive capacity.toNat := by
      rw [← size,← alloc_eq_none_iff_allLive (v := v) wf,ok]
      simp
    exact iff_of_false real room
  · intro _ other held live same
    have equal : other = id := by rw [← Id.unpack_pack other,same,Id.unpack_pack]
    rw [equal,fresh] at live
    cases live
  · intro _
    rw [Id.unpack_pack,found]
  · intro other apart
    rw [Id.unpack_pack] at apart
    rw [finds,if_neg apart]

section AnyRun
variable (capacity : UInt32) (calls : List FfiCall)

theorem emptyMap_wf {α : Type} : Wf (SlotMap.empty capacity.toNat : SlotMap α) :=
  empty_wf _ (Nat.le_of_lt capacity.toNat_lt)

theorem edited_of_calls : (Ffi.init capacity).EditedFrom (run State.apply (Ffi.init capacity) calls) :=
  invariant_run State.apply (Ffi.init capacity).EditedFrom
    (fun _ call before => before.apply (emptyMap_wf capacity) call) _ calls ⟨Edited.refl _,Edited.refl _⟩

/-- Of a map that began empty with the capacity. -/
theorem sized_of_edited {α : Type} {m : SlotMap α} (edited : Edited (SlotMap.empty capacity.toNat) m) :
    Wf m ∧ m.slots.length = capacity.toNat := by
  refine ⟨edited.wf (emptyMap_wf capacity),?_⟩
  rw [edited.length]
  simp [SlotMap.empty]

/-- After any calls: an allocation of a room or a zone is refused exactly when the map is
full, and otherwise returns a new handle that unpacks to the new entry; packing and
unpacking are inverse. -/
theorem handles_faithful :
    (run State.apply (Ffi.init capacity) calls).AllocsFaithful capacity ∧
      (∀ v, (Id.unpack v).pack = v) ∧ ∀ id : Id, Id.unpack id.pack = id := by
  obtain ⟨rooms,zones⟩ := edited_of_calls capacity calls
  obtain ⟨roomsWf,roomsSize⟩ := sized_of_edited capacity rooms
  obtain ⟨zonesWf,zonesSize⟩ := sized_of_edited capacity zones
  generalize run State.apply (Ffi.init capacity) calls = s at roomsWf roomsSize zonesWf zonesSize ⊢
  refine ⟨⟨?_,?_⟩,Id.pack_unpack,Id.unpack_pack⟩
  · unfold Ffi.allocRoom
    split
    · rename_i refused
      exact AllocFaithful.refused roomsWf roomsSize refused
    · rename_i ok
      exact AllocFaithful.issued roomsWf roomsSize ok
  · intro startIdx stopIdx
    unfold Ffi.zoneAlloc ZoneWorld.allocZone
    cases alloc : s.zoneWorld.zones.alloc ⟨⟨startIdx,stopIdx⟩,[]⟩ with
    | none => exact AllocFaithful.refused zonesWf zonesSize alloc
    | some result => exact AllocFaithful.issued zonesWf zonesSize alloc

end AnyRun

end WarpLoop.Core
