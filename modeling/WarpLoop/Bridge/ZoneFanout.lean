import WarpLoop.Bridge.SketchFraming
import WarpLoop.Core.Targets

/-! What a publish into the zones reaches. The server drives its core through the core's interface alone, so what
holds of the zones after any calls holds in the server at any time; the delivery table says which stream each
target is written to. -/
namespace WarpLoop.Bridge
open WarpLoop.Core Sketch Lib.Runs SlotMap

namespace Server

/-! The core of the server. -/

/-- The second core is what some calls of the interface make of the first. -/
def Driven (before after : Core.State) : Prop := ∃ calls, after = run State.apply before calls

theorem Driven.refl (core : Core.State) : Driven core core := ⟨[],rfl⟩

theorem Driven.call (core : Core.State) (call : FfiCall) : Driven core (core.apply call) := ⟨[call],rfl⟩

theorem Driven.trans {first second third : Core.State} (before : Driven first second) (after : Driven second third) :
    Driven first third := by
  obtain ⟨calls,rfl⟩ := before
  obtain ⟨later,rfl⟩ := after
  exact ⟨calls ++ later,(run_append State.apply first calls later).symm⟩

theorem driven_initial (roomCapacity : UInt32) : Driven (Ffi.init roomCapacity) (initial roomCapacity).core :=
  Driven.call (Ffi.init roomCapacity) (.zoneAlloc 0 ((1 : UInt64) <<< 63))

theorem driven_getOrCreateRoom (s : Server) (topic : Bytes) : Driven s.core (s.getOrCreateRoom topic).1.core := by
  unfold getOrCreateRoom
  cases s.topicToRoom.lookup topic with
  | some roomId => exact Driven.refl s.core
  | none =>
    have allocated := Driven.call s.core .allocRoom
    dsimp only
    split <;> exact allocated

theorem driven_handle (s : Server) (cnx : Cnx) (streamId rttMicros : UInt64) (call : Call) :
    Driven s.core (handle cnx streamId rttMicros s call).1.core := by
  cases call with
  | sub topic =>
    have found := s.driven_getOrCreateRoom topic
    simp only [handle,handleSub]
    split
    · exact found
    · exact found.trans (Driven.call _ (.sub (s.getOrCreateRoom topic).2 (connIdOf cnx)))
  | sketchSub topic =>
    have found := s.driven_getOrCreateRoom topic
    simp only [handle,handleSketchSub]
    split
    · exact found
    · rw [replay_eq]
      exact found.trans (Driven.call _ (.sub (s.getOrCreateRoom topic).2 (connIdOf cnx)))
  | sketchFrame roomId frame =>
    simp only [handle,handleSketchFrame_eq]
    exact Driven.refl s.core
  | pub topic payload =>
    have found := s.driven_getOrCreateRoom topic
    simp only [handle,handlePub]
    split
    · exact found
    · rw [relay_eq]
      exact found
  | zoneSub => exact Driven.refl s.core
  | zonePub m payload =>
    simp only [handle,handleZonePub,relay_eq]
    exact Driven.call s.core (.entityMoveV (connIdOf cnx) m.x m.y m.z (absMagnitude m.vx) (absMagnitude m.vy)
      (absMagnitude m.vz) (rttToTicks rttMicros))

theorem driven_pumpOnce (s : Server) (cnx : Cnx) (streamId rttMicros : UInt64) :
    Driven s.core (s.pumpOnce cnx streamId rttMicros).core := by
  obtain ⟨streams,idle | ⟨call,_,taken⟩⟩ := s.pumpOnce_next cnx streamId rttMicros
  · rw [idle.2]
    exact Driven.refl s.core
  · rw [taken]
    exact s.driven_handle cnx streamId rttMicros call

theorem driven_finish (s : Server) (cnx : Cnx) (streamId : UInt64) : Driven s.core (s.finish cnx streamId).core := by
  cases here : s.streams.lookup (cnx,streamId) with
  | none =>
    simp only [finish,here]
    exact Driven.refl s.core
  | some st =>
    rw [finish_eq here]
    change Driven s.core (s.coreWithout cnx st)
    unfold coreWithout
    split
    · exact Driven.call s.core (.entityRemove (connIdOf cnx))
    · split
      · cases s.topicToRoom.lookup st.topic with
        | none => exact Driven.refl s.core
        | some roomId => exact Driven.call s.core (.unsub roomId (connIdOf cnx))
      · exact Driven.refl s.core

theorem driven_micro (s : Server) (step : Micro) : Driven s.core (s.micro step).core := by
  cases step with
  | arrive cnx streamId bytes => exact Driven.refl s.core
  | round cnx streamId rttMicros => exact s.driven_pumpOnce cnx streamId rttMicros
  | finish cnx streamId => exact s.driven_finish cnx streamId
  | hangUp cnx order =>
    rw [micro,hangUp_eq_finish]
    generalize order.arrange (s.streamIds cnx) = ids
    induction ids generalizing s with
    | nil => exact Driven.refl s.core
    | cons streamId rest ih => exact (s.driven_finish cnx streamId).trans (ih (s.finish cnx streamId))

/-- The zones of the server are zones that calls of the interface can make. -/
theorem occupied_micros (roomCapacity : UInt32) (steps : List Micro) :
    ZoneWorld.Occupied (run micro (initial roomCapacity) steps).core.zoneWorld.zones := by
  have driven : Driven (Ffi.init roomCapacity) (run micro (initial roomCapacity) steps).core :=
    invariant_run micro (fun s => Driven (Ffi.init roomCapacity) s.core) (fun s step before => before.trans (s.driven_micro step))
      _ steps (driven_initial roomCapacity)
  obtain ⟨calls,made⟩ := driven
  rw [made]
  exact occupied_of_calls roomCapacity calls

/-! Every write. -/

theorem Sound.deliveries_open {s : Server} (sound : s.Sound) (pieces : List Bytes) (targets : List UInt64) (w : Write)
    (written : w ∈ targets.flatMap (deliveries s.delivery pieces)) : ∃ st, s.Open w.cnx w.streamId st := by
  obtain ⟨target,_,here⟩ := List.mem_flatMap.mp written
  unfold deliveries at here
  split at here
  · cases here
  · rename_i cnx streamId entry
    obtain ⟨_,_,rfl⟩ := List.mem_map.mp here
    exact (sound.delivery target cnx streamId entry).2

theorem getOrCreateRoom_keeps (s : Server) (topic : Bytes) :
    (s.getOrCreateRoom topic).1.delivery = s.delivery ∧ (s.getOrCreateRoom topic).1.writes = s.writes := by
  unfold getOrCreateRoom
  cases s.topicToRoom.lookup topic with
  | some roomId => exact ⟨rfl,rfl⟩
  | none =>
    dsimp only
    split <;> exact ⟨rfl,rfl⟩

/-- The writes of a step, each to a stream that is open before it. -/
def WritesOpen (s after : Server) : Prop :=
  ∃ new, after.writes = s.writes ++ new ∧ ∀ w ∈ new, ∃ st, s.Open w.cnx w.streamId st

theorem WritesOpen.none {s after : Server} (same : after.writes = s.writes) : WritesOpen s after :=
  ⟨[],by rw [same,List.append_nil],by simp⟩

theorem Sound.handle_writesOpen {s : Server} (sound : s.Sound) {cnx : Cnx} {streamId : UInt64} {st : StreamState}
    (opened : s.Open cnx streamId st) (rttMicros : UInt64) (call : Call) :
    WritesOpen s (Server.handle cnx streamId rttMicros s call).1 := by
  cases call with
  | sub topic =>
    have kept := (s.getOrCreateRoom_keeps topic).2
    simp only [Server.handle,handleSub]
    split
    · exact WritesOpen.none kept
    · exact WritesOpen.none kept
  | sketchSub topic =>
    have kept := (s.getOrCreateRoom_keeps topic).2
    simp only [Server.handle,handleSketchSub]
    split
    · exact WritesOpen.none kept
    · rw [replay_eq]
      refine ⟨_,congrArg (· ++ _) kept,?_⟩
      intro w written
      obtain ⟨packet,_,piece⟩ := List.mem_flatMap.mp written
      obtain ⟨_,_,rfl⟩ := List.mem_map.mp piece
      exact ⟨st,opened⟩
  | sketchFrame roomId frame =>
    simp only [Server.handle,handleSketchFrame_eq]
    refine ⟨_,rfl,?_⟩
    intro w written
    split at written
    · exact sound.deliveries_open _ _ w written
    · cases written
  | pub topic payload =>
    obtain ⟨delivery,kept⟩ := s.getOrCreateRoom_keeps topic
    simp only [Server.handle,handlePub]
    split
    · exact WritesOpen.none kept
    · rw [relay_eq,delivery]
      exact ⟨_,congrArg (· ++ _) kept,sound.deliveries_open _ _⟩
  | zoneSub => exact WritesOpen.none rfl
  | zonePub m payload =>
    simp only [Server.handle,handleZonePub,relay_eq]
    exact ⟨_,rfl,sound.deliveries_open _ _⟩

theorem finish_writes (s : Server) (cnx : Cnx) (streamId : UInt64) : (s.finish cnx streamId).writes = s.writes := by
  cases here : s.streams.lookup (cnx,streamId) with
  | none => simp only [finish,here]
  | some st => rw [finish_eq here]

theorem Sound.micro_writesOpen {s : Server} (sound : s.Sound) (step : Micro) : WritesOpen s (s.micro step) := by
  cases step with
  | arrive cnx streamId bytes => exact WritesOpen.none rfl
  | round cnx streamId rttMicros =>
    change WritesOpen s (s.pumpOnce cnx streamId rttMicros)
    rcases s.pumpOnce_cases cnx streamId rttMicros with idle | ⟨st,call,after,opened,_,taken⟩
    · rw [idle]
      exact WritesOpen.none rfl
    · rw [taken]
      cases call with
      | none => exact WritesOpen.none rfl
      | some call => exact sound.handle_writesOpen opened rttMicros call
  | finish cnx streamId => exact WritesOpen.none (s.finish_writes cnx streamId)
  | hangUp cnx order =>
    rw [Server.micro,hangUp_eq_finish]
    generalize order.arrange (s.streamIds cnx) = ids
    apply WritesOpen.none
    exact invariant_run (fun s streamId => s.finish cnx streamId) (fun after => after.writes = s.writes)
      (fun after streamId same => (after.finish_writes cnx streamId).trans same) s ids rfl

/-- Whatever rounds, arrivals and closings came before: what the server writes in the next one goes to streams that are
open at that time, and it takes no write back. -/
theorem writes_go_to_open_streams (roomCapacity : UInt32) (steps : List Micro) (step : Micro) :
    ∃ new, (run micro (initial roomCapacity) (steps ++ [step])).writes = (run micro (initial roomCapacity) steps).writes ++ new ∧
      ∀ w ∈ new, ∃ st, (run micro (initial roomCapacity) steps).Open w.cnx w.streamId st := by
  rw [run_append]
  have sound : (run micro (initial roomCapacity) steps).Sound :=
    invariant_run micro Sound (fun _ step sound => sound.micro step) _ _ (Sound.initial roomCapacity)
  exact sound.micro_writesOpen step

/-! One publish. -/

theorem deliveries_one (delivery : AList (fun _ : UInt64 => Cnx × UInt64)) (payload : Bytes) (targets : List UInt64) :
    targets.flatMap (deliveries delivery [payload]) =
      targets.filterMap (fun target => (delivery.lookup target).map (fun entry => ⟨entry.1,entry.2,payload⟩)) := by
  rw [List.filterMap_eq_flatMap_toList]
  congr 1
  funext target
  unfold deliveries
  cases delivery.lookup target <;> rfl

/-- Different targets are different connections. -/
theorem Sound.one_write {s : Server} (sound : s.Sound) {targets : List UInt64} (nodup : targets.Nodup) (payload : Bytes) :
    ((targets.flatMap (deliveries s.delivery [payload])).map Write.cnx).Nodup := by
  rw [deliveries_one,List.map_filterMap]
  apply nodup.filterMap
  intro target other cnx here there
  simp only [Option.map_map,Option.mem_def,Option.map_eq_some_iff] at here there
  obtain ⟨entry,found,rfl⟩ := here
  obtain ⟨entry',found',same⟩ := there
  have own := (sound.delivery target entry.1 entry.2 found).1
  have own' := (sound.delivery other entry'.1 entry'.2 found').1
  rw [← own,← own']
  exact congrArg connIdOf same.symm

/-- What one zone publish writes. -/
structure ZonePublished (s after : Server) (cnx : Cnx) (m : Motion) (payload : Bytes) (new : List Write) : Prop where
  writes : after.writes = s.writes ++ new
  bounded : new.length ≤ authorityCapacity + interestCapacity
  once : (new.map Write.cnx).Nodup
  others : ∀ w ∈ new, w.bytes = payload ∧ w.cnx ≠ cnx ∧ (∃ st, s.Open w.cnx w.streamId st) ∧
    ∃ entity, ZoneWorld.Recorded after.core.zoneWorld.zones entity ∧ entity.connId = connIdOf w.cnx
  mates : ∀ id zone, after.core.zoneWorld.authorityFor ⟨m.x,m.y,m.z⟩ = some id → after.core.zoneWorld.zones.find id = some zone →
    ∀ entity ∈ zone.entities, ∀ other target, other ≠ cnx → s.delivery.lookup entity.connId = some (other,target) →
      ⟨other,target,payload⟩ ∈ new

theorem withStreams_core (s : Server) (streams : AList (fun _ : Cnx × UInt64 => StreamState)) :
    (s.withStreams streams).core = s.core := rfl

theorem ZonePublished.withStreams {s after : Server} {cnx : Cnx} {m : Motion} {payload : Bytes} {new : List Write}
    {streams : AList (fun _ : Cnx × UInt64 => StreamState)} (published : ZonePublished s after cnx m payload new) :
    ZonePublished s (after.withStreams streams) cnx m payload new :=
  ⟨published.writes,published.bounded,published.once,published.others,published.mates⟩

theorem Sound.zonePublished {s : Server} (sound : s.Sound) (cnx : Cnx) (rttMicros : UInt64) (m : Motion) (payload : Bytes)
    (occupied : ZoneWorld.Occupied (s.handleZonePub cnx rttMicros m payload).core.zoneWorld.zones) :
    ∃ new, ZonePublished s (s.handleZonePub cnx rttMicros m payload) cnx m payload new := by
  have published : s.handleZonePub cnx rttMicros m payload =
      {s with
        core := Ffi.entityMoveV s.core (connIdOf cnx) m.x m.y m.z (absMagnitude m.vx) (absMagnitude m.vy) (absMagnitude m.vz)
          (rttToTicks rttMicros)
        writes := s.writes ++ (s.targets cnx rttMicros (.zonePub m payload)).flatMap (deliveries s.delivery [payload])} := by
    rw [handleZonePub,relay_eq]
    rfl
  rw [published] at occupied ⊢
  have audience := occupied.audience (connIdOf cnx) (hilbert3D (Ffi.entityMoveV s.core (connIdOf cnx) m.x m.y m.z
    (absMagnitude m.vx) (absMagnitude m.vy) (absMagnitude m.vz) (rttToTicks rttMicros)).zoneWorld.bits ⟨m.x,m.y,m.z⟩)
  change ZoneWorld.Audience _ _ _ (s.targets cnx rttMicros (.zonePub m payload)) at audience
  generalize s.targets cnx rttMicros (.zonePub m payload) = targets at audience
  refine ⟨targets.flatMap (deliveries s.delivery [payload]),rfl,?_,sound.one_write audience.nodup payload,?_,?_⟩
  · rw [deliveries_one]
    exact Nat.le_trans (List.length_filterMap_le _ _) audience.bounded
  · intro w written
    rw [deliveries_one] at written
    obtain ⟨target,aimed,entry⟩ := List.mem_filterMap.mp written
    obtain ⟨⟨other,stream⟩,found,rfl⟩ := Option.map_eq_some_iff.mp entry
    obtain ⟨own,st,opened⟩ := sound.delivery target other stream found
    refine ⟨rfl,?_,⟨st,opened⟩,own ▸ audience.listed target aimed⟩
    rintro rfl
    exact audience.others (own ▸ aimed)
  · intro id zone authority found entity member other target apart entry
    obtain ⟨own,_⟩ := sound.delivery entity.connId other target entry
    rw [deliveries_one]
    refine List.mem_filterMap.mpr ⟨entity.connId,audience.mates id zone authority found entity member ?_,by rw [entry]; rfl⟩
    intro same
    exact apart (connIdOf_inj (own.trans same))

/-- At any time, whatever rounds, arrivals and closings came before in any order: a zone publish writes its payload
to open streams of others in the zones, at most once to each connection and at most 656 times, and everyone else
in the authority zone that has a delivery stream gets it. -/
theorem zone_publish_reaches (roomCapacity : UInt32) (steps : List Micro) (cnx : Cnx) (streamId rttMicros : UInt64) (m : Motion)
    (payload : Bytes) (next : (run micro (initial roomCapacity) steps).nextCall cnx streamId = some (.zonePub m payload)) :
    ∃ new, ZonePublished (run micro (initial roomCapacity) steps)
      (run micro (initial roomCapacity) (steps ++ [.round cnx streamId rttMicros])) cnx m payload new := by
  have sound : (run micro (initial roomCapacity) steps).Sound :=
    invariant_run micro Sound (fun _ step sound => sound.micro step) _ _ (Sound.initial roomCapacity)
  have occupied := occupied_micros roomCapacity (steps ++ [.round cnx streamId rttMicros])
  rw [run_append] at occupied ⊢
  generalize run micro (initial roomCapacity) steps = s at next sound occupied ⊢
  change ∃ new, ZonePublished s (s.pumpOnce cnx streamId rttMicros) cnx m payload new
  have occupied : ZoneWorld.Occupied (s.pumpOnce cnx streamId rttMicros).core.zoneWorld.zones := occupied
  obtain ⟨streams,idle | ⟨call,calls,taken⟩⟩ := s.pumpOnce_next cnx streamId rttMicros
  · rw [next] at idle
    cases idle.1
  obtain rfl : .zonePub m payload = call := Option.some.inj (next.symm.trans calls)
  have handled : (handle cnx streamId rttMicros s (.zonePub m payload)).1 = s.handleZonePub cnx rttMicros m payload := by
    simp only [handle]
  rw [taken,handled] at occupied ⊢
  rw [withStreams_core] at occupied
  exact (sound.zonePublished cnx rttMicros m payload occupied).imp (fun new => ZonePublished.withStreams)

/-- `ZPB 0 0 0 0 0 0` and a packet. -/
def zpb : Bytes := [90,80,66,32,48,32,48,32,48,32,48,32,48,32,48,10] ++ List.replicate 100 0

/-- The second connection has published, and the packet of the first is the next to be taken. -/
def twoPublishers : List Micro :=
  [.arrive ⟨2⟩ 0 zpb,.round ⟨2⟩ 0 0,.round ⟨2⟩ 0 0,.arrive ⟨1⟩ 4 zpb,.round ⟨1⟩ 4 0]

example : (run micro (initial 64) (twoPublishers ++ [.round ⟨1⟩ 4 0])).writes = [⟨⟨2⟩,0,List.replicate 100 0⟩] := by
  decide +kernel

theorem zone_publish_reaches_two :
    ∃ new, ZonePublished (run micro (initial 64) twoPublishers) (run micro (initial 64) (twoPublishers ++ [.round ⟨1⟩ 4 0])) ⟨1⟩
      Motion.zero (List.replicate 100 0) new :=
  zone_publish_reaches 64 twoPublishers ⟨1⟩ 4 0 Motion.zero (List.replicate 100 0) (by decide +kernel)

end Server

end WarpLoop.Bridge
