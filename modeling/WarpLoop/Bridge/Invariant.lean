import WarpLoop.Bridge.Steps
import WarpLoop.Core.Membership

/-! The invariant of the server's tables, kept by every small step: the topic
table names live rooms and different rooms for different topics, an entity is in a
zone only while its connection has a stream that published zones, and deliveries go
to open streams. -/
namespace WarpLoop.Bridge
open WarpLoop.Core Sketch Lib.Runs SlotMap

namespace Server

def Open (s : Server) (cnx : Cnx) (streamId : UInt64) (st : StreamState) : Prop :=
  s.streams.lookup (cnx,streamId) = some st

/-- The connections with an open stream that has published zones. -/
def PublishesZones (s : Server) (connId : UInt64) : Prop :=
  ∃ streamId st, s.Open ⟨connId⟩ streamId st ∧ st.isZonePub = true

structure Sound (s : Server) : Prop where
  rooms : Wf s.core.rooms
  nodup : ∀ id room, s.core.rooms.find id = some room → room.subscribers.Nodup
  topics : ∀ topic roomId, s.topicToRoom.lookup topic = some roomId →
    roomId ≠ SENTINEL ∧ ∃ room, s.core.rooms.find (Id.unpack roomId) = some room
  apart : ∀ topic topic' roomId roomId', s.topicToRoom.lookup topic = some roomId →
    s.topicToRoom.lookup topic' = some roomId' → Id.unpack roomId = Id.unpack roomId' → topic = topic'
  zones : ZoneWorld.Within s.PublishesZones s.core.zoneWorld.zones
  delivery : ∀ connId cnx streamId, s.delivery.lookup connId = some (cnx,streamId) →
    connIdOf cnx = connId ∧ ∃ st, s.Open cnx streamId st

theorem open_putStream (s : Server) (cnx other : Cnx) (streamId otherId : UInt64) (st st' : StreamState) :
    (s.putStream cnx streamId st).Open other otherId st' ↔
      if (other,otherId) = (cnx,streamId) then st' = st else s.Open other otherId st' := by
  unfold Open putStream
  by_cases here : (other,otherId) = (cnx,streamId)
  · rw [if_pos here,here,AList.lookup_insert]
    simp [eq_comm]
  · rw [if_neg here,AList.lookup_insert_ne here]

theorem initial_rooms (roomCapacity : UInt32) :
    (Server.initial roomCapacity).core.rooms = SlotMap.empty roomCapacity.toNat := by
  simp only [Server.initial,fanoutCoreInitialize,Ffi.zoneAlloc]
  split <;> rfl

theorem Sound.initial (roomCapacity : UInt32) : (Server.initial roomCapacity).Sound := by
  have bound : roomCapacity.toNat ≤ 2^32 := Nat.le_of_lt roomCapacity.toNat_lt
  have start : ZoneWorld.Within (Server.initial roomCapacity).PublishesZones (Ffi.init roomCapacity).zoneWorld.zones :=
    ⟨empty_wf _ bound,fun id zone found => by simp [Ffi.init,State.initial,ZoneWorld.empty] at found⟩
  have zones : ZoneWorld.Within (Server.initial roomCapacity).PublishesZones
      (Server.initial roomCapacity).core.zoneWorld.zones := by
    have allocated := fun w id => @ZoneWorld.Within.alloc _ (Ffi.init roomCapacity).zoneWorld w ⟨0,(1 : UInt64) <<< 63⟩ id start
    simp only [Server.initial,fanoutCoreInitialize,Ffi.zoneAlloc] at allocated start ⊢
    split
    · exact start
    · rename_i w id ok
      exact allocated w id ok
  refine ⟨by rw [initial_rooms]; exact empty_wf _ bound,?_,?_,?_,zones,?_⟩
  · intro id room found
    rw [initial_rooms,empty_find] at found
    cases found
  · intro topic roomId found
    simp [Server.initial] at found
  · intro topic topic' roomId roomId' found
    simp [Server.initial] at found
  · intro connId cnx streamId found
    simp [Server.initial] at found

theorem Sound.putStream {s : Server} (sound : s.Sound) (cnx : Cnx) (streamId : UInt64) (st : StreamState)
    (keeps : ∀ old, s.Open cnx streamId old → old.isZonePub = true → st.isZonePub = true) :
    (s.putStream cnx streamId st).Sound where
  rooms := sound.rooms
  nodup := sound.nodup
  topics := sound.topics
  apart := sound.apart
  zones := by
    apply sound.zones.mono
    rintro connId ⟨otherId,old,here,zone⟩
    by_cases same : ((⟨connId⟩ : Cnx),otherId) = (cnx,streamId)
    · obtain ⟨rfl,rfl⟩ := Prod.mk.inj same
      exact ⟨otherId,st,by simp [open_putStream],keeps old here zone⟩
    · exact ⟨otherId,old,by simpa [open_putStream,same] using here,zone⟩
  delivery := by
    intro connId other otherId found
    obtain ⟨own,old,here⟩ := sound.delivery connId other otherId found
    refine ⟨own,?_⟩
    by_cases same : (other,otherId) = (cnx,streamId)
    · exact ⟨st,by simp [open_putStream,same]⟩
    · exact ⟨old,by simpa [open_putStream,same] using here⟩

/-- Finding or creating the room of a topic: other topics keep their rooms, and
nobody is subscribed by it. -/
structure Found (s s' : Server) (topic : Bytes) (roomId : UInt64) : Prop where
  sound : s'.Sound
  streams : s'.streams = s.streams
  delivery : s'.delivery = s.delivery
  sketch : s'.sketch = s.sketch
  writes : s'.writes = s.writes
  kept : ∀ t r, s.topicToRoom.lookup t = some r → s'.topicToRoom.lookup t = some r
  here : roomId ≠ SENTINEL → s'.topicToRoom.lookup topic = some roomId
  live : ∀ id room, s.core.rooms.find id = some room → s'.core.rooms.find id = some room
  subscribers : ∀ id room, s'.core.rooms.find id = some room →
    s.core.rooms.find id = some room ∨ room.subscribers = []

theorem Sound.alloc_room {s : Server} (sound : s.Sound) {rooms : SlotMap Room} {id : Id}
    (alloc : s.core.rooms.alloc Room.empty = some (rooms,id)) :
    Wf rooms ∧ rooms.find id = some Room.empty ∧
      (∀ j room, s.core.rooms.find j = some room → j ≠ id ∧ rooms.find j = some room) ∧
      (∀ j room, rooms.find j = some room → s.core.rooms.find j = some room ∨ room.subscribers = []) ∧
      ∀ j room, rooms.find j = some room → room.subscribers.Nodup := by
  obtain ⟨wf,fresh,finds,_⟩ := alloc_some sound.rooms alloc
  have either (j : Id) (room : Room) (found : rooms.find j = some room) :
      s.core.rooms.find j = some room ∨ room.subscribers = [] := by
    rw [finds] at found
    split at found
    · cases found
      exact Or.inr rfl
    · exact Or.inl found
  refine ⟨wf,by rw [finds,if_pos rfl],fun j room live => ?_,either,fun j room found => ?_⟩
  · have older : j ≠ id := by
      intro same
      rw [same,fresh] at live
      cases live
    exact ⟨older,by rw [finds,if_neg older,live]⟩
  · rcases either j room found with old | nobody
    · exact sound.nodup j room old
    · rw [nobody]
      exact List.nodup_nil

theorem Sound.getOrCreateRoom {s : Server} (sound : s.Sound) (topic : Bytes) :
    Found s (s.getOrCreateRoom topic).1 topic (s.getOrCreateRoom topic).2 := by
  rcases getOrCreateRoom_cases s topic with
    ⟨roomId,found,result⟩ | ⟨absent,⟨_,result⟩ | ⟨rooms,id,alloc,⟨issued,result⟩ | ⟨_,result⟩⟩⟩
  · rw [result]
    exact ⟨sound,rfl,rfl,rfl,rfl,fun _ _ found => found,fun _ => found,fun _ _ live => live,
      fun _ _ live => Or.inl live⟩
  · rw [result]
    exact ⟨sound,rfl,rfl,rfl,rfl,fun _ _ found => found,fun not => absurd rfl not,fun _ _ live => live,
      fun _ _ live => Or.inl live⟩
  · obtain ⟨wf,fresh,kept,either,nodup⟩ := sound.alloc_room alloc
    have rest (t : Bytes) (r : UInt64) (there : s.topicToRoom.lookup t = some r) :
        (s.topicToRoom.insert topic id.pack).lookup t = some r := by
      have other : t ≠ topic := fun same => by rw [same,absent] at there; cases there
      rw [AList.lookup_insert_ne other,there]
    rw [result]
    refine ⟨⟨wf,nodup,?_,?_,sound.zones,sound.delivery⟩,rfl,rfl,rfl,rfl,rest,fun _ => AList.lookup_insert _,
      fun j room live => (kept j room live).2,either⟩
    · intro t r there
      by_cases same : t = topic
      · subst t
        rw [AList.lookup_insert] at there
        obtain rfl := Option.some.inj there
        exact ⟨issued,Room.empty,by rw [Id.unpack_pack]; exact fresh⟩
      · rw [AList.lookup_insert_ne same] at there
        obtain ⟨real,room,live⟩ := sound.topics t r there
        exact ⟨real,room,(kept _ room live).2⟩
    · intro t t' r r' there there' sameRoom
      by_cases same : t = topic <;> by_cases same' : t' = topic
      · rw [same,same']
      · subst t
        rw [AList.lookup_insert] at there
        rw [AList.lookup_insert_ne same'] at there'
        obtain rfl := Option.some.inj there
        obtain ⟨_,room,live⟩ := sound.topics t' r' there'
        exact absurd (sameRoom.symm.trans (Id.unpack_pack id)) (kept _ room live).1
      · subst t'
        rw [AList.lookup_insert] at there'
        rw [AList.lookup_insert_ne same] at there
        obtain rfl := Option.some.inj there'
        obtain ⟨_,room,live⟩ := sound.topics t r there
        exact absurd (sameRoom.trans (Id.unpack_pack id)) (kept _ room live).1
      · rw [AList.lookup_insert_ne same] at there
        rw [AList.lookup_insert_ne same'] at there'
        exact sound.apart t t' r r' there there' sameRoom
  · -- a room whose packed id is the sentinel is in no table
    obtain ⟨wf,_,kept,either,nodup⟩ := sound.alloc_room alloc
    rw [result]
    refine ⟨⟨wf,nodup,?_,sound.apart,sound.zones,sound.delivery⟩,rfl,rfl,rfl,rfl,fun _ _ there => there,
      fun not => absurd rfl not,fun j room live => (kept j room live).2,either⟩
    intro t r there
    obtain ⟨real,room,live⟩ := sound.topics t r there
    exact ⟨real,room,(kept _ room live).2⟩

theorem Sound.of_tables {s s' : Server} (sound : s.Sound) (core : s'.core = s.core)
    (topics : s'.topicToRoom = s.topicToRoom) (delivery : s'.delivery = s.delivery)
    (streams : s'.streams = s.streams) : s'.Sound := by
  obtain ⟨core',sketch',topics',delivery',streams',writes'⟩ := s'
  obtain ⟨rfl,rfl,rfl,rfl⟩ : core' = s.core ∧ topics' = s.topicToRoom ∧ delivery' = s.delivery ∧ streams' = s.streams :=
    ⟨core,topics,delivery,streams⟩
  exact ⟨sound.rooms,sound.nodup,sound.topics,sound.apart,sound.zones,sound.delivery⟩

/-- A core with the same rooms, and zones that hold only publishers. -/
theorem Sound.of_zones {s : Server} (sound : s.Sound) {core : Core.State} (rooms : core.rooms = s.core.rooms)
    (zones : ZoneWorld.Within s.PublishesZones core.zoneWorld.zones) : {s with core := core}.Sound where
  rooms := rooms ▸ sound.rooms
  nodup := rooms ▸ sound.nodup
  topics := rooms ▸ sound.topics
  apart := sound.apart
  zones := zones
  delivery := sound.delivery

theorem Sound.handleZoneSub {s : Server} (sound : s.Sound) {cnx : Cnx} {streamId : UInt64} {st : StreamState}
    (here : s.Open cnx streamId st) : (s.handleZoneSub cnx streamId).Sound where
  rooms := sound.rooms
  nodup := sound.nodup
  topics := sound.topics
  apart := sound.apart
  zones := sound.zones
  delivery := by
    intro connId other otherId found
    by_cases own : connId = connIdOf cnx
    · rw [own,Server.handleZoneSub,AList.lookup_insert] at found
      cases found
      exact ⟨own.symm,st,here⟩
    · rw [Server.handleZoneSub,AList.lookup_insert_ne own] at found
      exact sound.delivery connId other otherId found

theorem subscribe_find (s : Server) (cnx : Cnx) (streamId roomId : UInt64) (id : Id) :
    (s.subscribe cnx streamId roomId).core.rooms.find id =
      if id = Id.unpack roomId then (s.core.rooms.find id).map (fun room => room.sub (connIdOf cnx))
      else s.core.rooms.find id :=
  Ffi.sub_find s.core roomId (connIdOf cnx) id

theorem Sound.subscribe {s : Server} (sound : s.Sound) {cnx : Cnx} {streamId : UInt64} {st : StreamState}
    (here : s.Open cnx streamId st) (roomId : UInt64) : (s.subscribe cnx streamId roomId).Sound where
  rooms := Ffi.sub_wf sound.rooms roomId (connIdOf cnx)
  nodup := by
    intro id room found
    rw [subscribe_find] at found
    split at found
    · obtain ⟨old,live,rfl⟩ := Option.map_eq_some_iff.mp found
      exact Room.nodup_sub (sound.nodup id old live) _
    · exact sound.nodup id room found
  topics := by
    intro topic other found
    obtain ⟨real,room,live⟩ := sound.topics topic other found
    refine ⟨real,?_⟩
    rw [subscribe_find]
    split
    · exact ⟨_,by rw [live]; rfl⟩
    · exact ⟨room,live⟩
  apart := sound.apart
  zones := by
    have same : (s.subscribe cnx streamId roomId).core.zoneWorld = s.core.zoneWorld :=
      Ffi.sub_zoneWorld s.core roomId (connIdOf cnx)
    rw [same]
    exact sound.zones
  delivery := (sound.handleZoneSub here).delivery

theorem Sound.handle {s : Server} (sound : s.Sound) {cnx : Cnx} {streamId : UInt64} {st after : StreamState}
    (here : s.Open cnx streamId st) (rttMicros : UInt64) {call : Call} (taking : Taking st (some call) after) :
    (Server.handle cnx streamId rttMicros s call).1.Sound := by
  have still {topic : Bytes} : (s.getOrCreateRoom topic).1.Open cnx streamId st := by
    rw [Open,(sound.getOrCreateRoom topic).streams]
    exact here
  cases call with
  | sub topic =>
    have found := sound.getOrCreateRoom topic
    simp only [Server.handle,handleSub]
    split
    · exact found.sound
    · exact found.sound.subscribe still _
  | sketchSub topic =>
    have found := sound.getOrCreateRoom topic
    simp only [Server.handle,handleSketchSub]
    split
    · exact found.sound
    · rw [replay_eq]
      exact (found.sound.subscribe still _).of_tables rfl rfl rfl rfl
  | sketchFrame roomId frame =>
    simp only [Server.handle,handleSketchFrame_eq]
    exact sound.of_tables rfl rfl rfl rfl
  | pub topic payload =>
    have found := sound.getOrCreateRoom topic
    simp only [Server.handle,handlePub]
    split
    · exact found.sound
    · rw [relay_eq]
      exact found.sound.of_tables rfl rfl rfl rfl
  | zoneSub => exact sound.handleZoneSub here
  | zonePub motion payload =>
    have zone : st.isZonePub = true := by
      cases taking
      assumption
    have moved := Ffi.entityMoveV_within sound.zones (connIdOf cnx) motion.x motion.y motion.z (absMagnitude motion.vx)
      (absMagnitude motion.vy) (absMagnitude motion.vz) (rttToTicks rttMicros) ⟨streamId,st,here,zone⟩
    simp only [Server.handle,handleZonePub,relay_eq]
    exact (sound.of_zones (Ffi.entityMoveV_rooms _ _ _ _ _ _ _ _ _) moved).of_tables rfl rfl rfl rfl

end Server

theorem Taking.isZonePub_stays {st after : StreamState} {call : Option Call} (taking : Taking st call after)
    (zone : st.isZonePub = true) : after.isZonePub = true := by
  cases taking <;> first | exact zone | rfl

namespace Server

def took (s : Server) (cnx : Cnx) (streamId rttMicros : UInt64) (call : Option Call) (after : StreamState) : Server :=
  match call with
  | none => s.putStream cnx streamId after
  | some call =>
    (handle cnx streamId rttMicros s call).1.putStream cnx streamId
      (after.assign (handle cnx streamId rttMicros s call).2)

theorem pumpOnce_cases (s : Server) (cnx : Cnx) (streamId rttMicros : UInt64) :
    s.pumpOnce cnx streamId rttMicros = s ∨
      ∃ st call after, s.Open cnx streamId st ∧ Taking st call after ∧
        s.pumpOnce cnx streamId rttMicros = s.took cnx streamId rttMicros call after := by
  unfold pumpOnce
  cases here : s.streams.lookup (cnx,streamId) with
  | none => exact Or.inl rfl
  | some st =>
    cases round : pumpRound st with
    | wait => exact Or.inl (by simp [round])
    | stop after => exact Or.inr ⟨st,none,after,here,pumpRound_taking (by simp [round]),by simp [round,took]⟩
    | more call after =>
      refine Or.inr ⟨st,call,after,here,pumpRound_taking (by simp [round]),?_⟩
      cases call with
      | none => simp [round,took]
      | some call => simp [round,took]

theorem assign_isZonePub (st : StreamState) (roomId : Option UInt64) : (st.assign roomId).isZonePub = st.isZonePub := by
  cases roomId <;> rfl

theorem Sound.took {s : Server} (sound : s.Sound) {cnx : Cnx} {streamId : UInt64} {st after : StreamState}
    {call : Option Call} (here : s.Open cnx streamId st) (taking : Taking st call after) (rttMicros : UInt64) :
    (s.took cnx streamId rttMicros call after).Sound := by
  have keeps {final : StreamState} (same : final.isZonePub = after.isZonePub) (old : StreamState)
      (there : s.Open cnx streamId old) (zone : old.isZonePub = true) : final.isZonePub = true := by
    obtain rfl := Option.some.inj (here.symm.trans there)
    rw [same]
    exact taking.isZonePub_stays zone
  cases call with
  | none => exact sound.putStream cnx streamId after (keeps rfl)
  | some call =>
    apply (sound.handle here rttMicros taking).putStream
    intro old there
    rw [Open,handle_streams] at there
    exact keeps (assign_isZonePub _ _) old there

/-! Closing streams. -/

def deliveryWithout (s : Server) (cnx : Cnx) (streamId : UInt64) : AList (fun _ : UInt64 => Cnx × UInt64) :=
  if s.delivery.lookup (connIdOf cnx) = some (cnx,streamId) then s.delivery.erase (connIdOf cnx) else s.delivery

def coreWithout (s : Server) (cnx : Cnx) (st : StreamState) : Core.State :=
  if st.isZonePub then Ffi.entityRemove s.core (connIdOf cnx)
  else if st.headerParsed && !st.isPub then
    match s.topicToRoom.lookup st.topic with
    | some roomId => Ffi.unsub s.core roomId (connIdOf cnx)
    | none => s.core
  else s.core

theorem cleanupStream_eq (s : Server) (cnx : Cnx) (streamId : UInt64) (st : StreamState) :
    s.cleanupStream cnx streamId st =
      {s with delivery := s.deliveryWithout cnx streamId, core := s.coreWithout cnx st} := by
  have first : s.forgetDelivery cnx streamId = {s with delivery := s.deliveryWithout cnx streamId} := by
    unfold forgetDelivery deliveryWithout
    cases s.delivery.lookup (connIdOf cnx) with
    | none => simp
    | some entry =>
      by_cases own : entry = (cnx,streamId)
      · simp [own]
      · simp [own]
  simp only [cleanupStream,first,coreWithout]
  split
  · rfl
  · split
    · cases s.topicToRoom.lookup st.topic <;> rfl
    · rfl

theorem finish_eq {s : Server} {cnx : Cnx} {streamId : UInt64} {st : StreamState} (here : s.Open cnx streamId st) :
    s.finish cnx streamId =
      {s with
        delivery := s.deliveryWithout cnx streamId
        core := s.coreWithout cnx st
        streams := s.streams.erase (cnx,streamId)} := by
  have found : s.streams.lookup (cnx,streamId) = some st := here
  simp only [finish,found,cleanupStream_eq,eraseStream]

theorem lookup_deliveryWithout (s : Server) (cnx : Cnx) (streamId connId : UInt64) (entry : Cnx × UInt64) :
    (s.deliveryWithout cnx streamId).lookup connId = some entry ↔
      s.delivery.lookup connId = some entry ∧ ¬ (connId = connIdOf cnx ∧ entry = (cnx,streamId)) := by
  unfold deliveryWithout
  by_cases own : s.delivery.lookup (connIdOf cnx) = some (cnx,streamId)
  · rw [if_pos own]
    by_cases same : connId = connIdOf cnx
    · subst connId
      rw [AList.lookup_erase,own]
      simp [eq_comm]
    · rw [AList.lookup_erase_ne same]
      simp [same]
  · rw [if_neg own]
    constructor
    · intro found
      refine ⟨found,?_⟩
      rintro ⟨rfl,rfl⟩
      exact own found
    · exact And.left

theorem coreWithout_wf {s : Server} (sound : s.Sound) (cnx : Cnx) (st : StreamState) :
    Wf (s.coreWithout cnx st).rooms := by
  unfold coreWithout
  split
  · exact sound.rooms
  · split
    · split
      · exact Ffi.unsub_wf sound.rooms _ _
      · exact sound.rooms
    · exact sound.rooms

theorem coreWithout_find (s : Server) (cnx : Cnx) (st : StreamState) (id : Id) :
    (s.coreWithout cnx st).rooms.find id =
      if st.isZonePub = false ∧ st.headerParsed = true ∧ st.isPub = false ∧
          (s.topicToRoom.lookup st.topic).map Id.unpack = some id then
        (s.core.rooms.find id).map (fun room => room.unsub (connIdOf cnx))
      else s.core.rooms.find id := by
  unfold coreWithout
  cases zone : st.isZonePub with
  | true => simp
  | false =>
    cases parsed : st.headerParsed with
    | false => simp
    | true =>
      cases isPub : st.isPub with
      | true => simp
      | false =>
        cases found : s.topicToRoom.lookup st.topic with
        | none => simp
        | some roomId =>
          simp only [Bool.false_eq_true,if_false,Bool.not_false,Bool.and_self,if_true,Ffi.unsub_find,Option.map_some,
            Option.some.injEq,true_and]
          by_cases same : id = Id.unpack roomId
          · simp [same]
          · simp [same,Ne.symm same]

theorem Sound.finish {s : Server} (sound : s.Sound) (cnx : Cnx) (streamId : UInt64) :
    (s.finish cnx streamId).Sound := by
  cases found : s.streams.lookup (cnx,streamId) with
  | none => simpa [Server.finish,found] using sound
  | some st =>
    have here : s.Open cnx streamId st := found
    have remains {other : Cnx} {otherId : UInt64} {st' : StreamState} (there : s.Open other otherId st')
        (apart : (other,otherId) ≠ (cnx,streamId)) :
        (s.streams.erase (cnx,streamId)).lookup (other,otherId) = some st' := by
      rw [AList.lookup_erase_ne apart]
      exact there
    rw [finish_eq here]
    refine ⟨coreWithout_wf sound cnx st,?_,?_,sound.apart,?_,?_⟩
    · intro id room live
      rw [coreWithout_find] at live
      split at live
      · obtain ⟨old,was,rfl⟩ := Option.map_eq_some_iff.mp live
        exact Room.nodup_unsub (sound.nodup id old was) _
      · exact sound.nodup id room live
    · intro topic roomId there
      obtain ⟨real,room,live⟩ := sound.topics topic roomId there
      refine ⟨real,?_⟩
      rw [coreWithout_find]
      split
      · exact ⟨_,by rw [live]; rfl⟩
      · exact ⟨room,live⟩
    · cases zone : st.isZonePub with
      | true =>
        have core : s.coreWithout cnx st = Ffi.entityRemove s.core (connIdOf cnx) := by simp [coreWithout,zone]
        rw [core]
        apply (Ffi.entityRemove_within sound.zones (connIdOf cnx)).mono
        rintro connId ⟨⟨otherId,st',there,flag⟩,other⟩
        refine ⟨otherId,st',remains there ?_,flag⟩
        intro same
        obtain ⟨rfl,_⟩ := Prod.mk.inj same
        exact other rfl
      | false =>
        have core : (s.coreWithout cnx st).zoneWorld = s.core.zoneWorld := by
          simp only [coreWithout,zone,Bool.false_eq_true,if_false]
          split
          · split
            · exact Ffi.unsub_zoneWorld _ _ _
            · rfl
          · rfl
        rw [core]
        apply sound.zones.mono
        rintro connId ⟨otherId,st',there,flag⟩
        refine ⟨otherId,st',remains there ?_,flag⟩
        intro same
        obtain ⟨rfl,rfl⟩ := Prod.mk.inj same
        obtain rfl := Option.some.inj (here.symm.trans there)
        rw [zone] at flag
        cases flag
    · intro connId other otherId there
      obtain ⟨was,apart⟩ := (lookup_deliveryWithout s cnx streamId connId (other,otherId)).mp there
      obtain ⟨own,st',opened⟩ := sound.delivery connId other otherId was
      refine ⟨own,st',remains opened ?_⟩
      intro same
      exact apart ⟨by rw [← own,(Prod.mk.inj same).1],same⟩

theorem mem_streamIds (s : Server) (cnx : Cnx) (streamId : UInt64) :
    streamId ∈ s.streamIds cnx ↔ ∃ st, s.Open cnx streamId st := by
  have keys : (cnx,streamId) ∈ s.streams.keys ↔ ∃ st, s.Open cnx streamId st := by
    rw [← AList.mem_keys,← AList.lookup_isSome,Option.isSome_iff_exists]
    rfl
  rw [← keys]
  simp only [streamIds,List.mem_map,List.mem_filter,decide_eq_true_eq]
  constructor
  · rintro ⟨⟨other,otherId⟩,⟨member,rfl⟩,rfl⟩
    exact member
  · intro member
    exact ⟨(cnx,streamId),⟨member,rfl⟩,rfl⟩

theorem streamIds_nodup (s : Server) (cnx : Cnx) : (s.streamIds cnx).Nodup := by
  apply List.Nodup.map_on _ (s.streams.keys_nodup.filter _)
  rintro ⟨a,i⟩ first ⟨b,j⟩ second same
  obtain ⟨_,hi⟩ := List.mem_filter.mp first
  obtain ⟨_,hj⟩ := List.mem_filter.mp second
  simp only [decide_eq_true_eq] at hi hj
  rw [hi,hj]
  exact congrArg (Prod.mk cnx) same

private theorem cleanupIfOpen_erase (s : Server) (cnx : Cnx) (streamId other : UInt64) (apart : other ≠ streamId) :
    cleanupIfOpen cnx (s.eraseStream cnx streamId) other = (cleanupIfOpen cnx s other).eraseStream cnx streamId := by
  have lookup : (s.eraseStream cnx streamId).streams.lookup (cnx,other) = s.streams.lookup (cnx,other) :=
    AList.lookup_erase_ne (by simp [apart])
  simp only [cleanupIfOpen,lookup]
  cases s.streams.lookup (cnx,other) with
  | none => rfl
  | some st => simp only [cleanupStream_eq]; rfl

private theorem foldl_cleanup_erase (s : Server) (cnx : Cnx) (streamId : UInt64) (ids : List UInt64)
    (absent : streamId ∉ ids) :
    ids.foldl (cleanupIfOpen cnx) (s.eraseStream cnx streamId) =
      (ids.foldl (cleanupIfOpen cnx) s).eraseStream cnx streamId := by
  induction ids generalizing s with
  | nil => rfl
  | cons other rest ih =>
    simp only [List.mem_cons,not_or] at absent
    rw [List.foldl_cons,List.foldl_cons,cleanupIfOpen_erase s cnx streamId other (Ne.symm absent.1),ih _ absent.2]

private theorem finish_eq_cleanup (s : Server) (cnx : Cnx) (streamId : UInt64) :
    s.finish cnx streamId = (cleanupIfOpen cnx s streamId).eraseStream cnx streamId := by
  simp only [finish,cleanupIfOpen]
  cases found : s.streams.lookup (cnx,streamId) with
  | none =>
    have absent : (cnx,streamId) ∉ s.streams := AList.lookup_eq_none.mp found
    have same : s.streams.erase (cnx,streamId) = s.streams := by
      apply AList.ext
      exact List.kerase_of_notMem_keys absent
    simp [eraseStream,same]
  | some st => rfl

private theorem foldl_finish (s : Server) (cnx : Cnx) (ids : List UInt64) (nodup : ids.Nodup) :
    ids.foldl (fun s streamId => s.finish cnx streamId) s =
      ids.foldl (fun s streamId => s.eraseStream cnx streamId) (ids.foldl (cleanupIfOpen cnx) s) := by
  induction ids generalizing s with
  | nil => rfl
  | cons streamId rest ih =>
    obtain ⟨absent,later⟩ := List.nodup_cons.mp nodup
    rw [List.foldl_cons,ih _ later,List.foldl_cons,List.foldl_cons,finish_eq_cleanup,
      foldl_cleanup_erase _ cnx streamId rest absent]

/-- Closing a connection closes its streams one after another. -/
theorem hangUp_eq_finish (s : Server) (cnx : Cnx) (order : Order) :
    fanoutStreamCallback s (.close cnx order) =
      (order.arrange (s.streamIds cnx)).foldl (fun s streamId => s.finish cnx streamId) s := by
  rw [foldl_finish]
  · rfl
  · exact (order.perm _).nodup_iff.mpr (s.streamIds_nodup cnx)

theorem finish_streams (s : Server) (cnx : Cnx) (streamId : UInt64) :
    (s.finish cnx streamId).streams = s.streams.erase (cnx,streamId) := by
  rw [finish_eq_cleanup]
  simp only [eraseStream,cleanupIfOpen]
  cases s.streams.lookup (cnx,streamId) with
  | none => rfl
  | some st => simp only [cleanupStream_eq]

theorem hangUp_closes (s : Server) (cnx : Cnx) (order : Order) (streamId : UInt64) (st : StreamState) :
    ¬ (fanoutStreamCallback s (.close cnx order)).Open cnx streamId st := by
  have all (ids : List UInt64) (t : Server) :
      (ids.foldl (fun s streamId => s.finish cnx streamId) t).Open cnx streamId st →
        streamId ∉ ids ∧ t.Open cnx streamId st := by
    induction ids generalizing t with
    | nil => exact fun still => ⟨by simp,still⟩
    | cons first rest ih =>
      intro still
      obtain ⟨absent,before⟩ := ih _ still
      rw [Open,finish_streams] at before
      by_cases same : streamId = first
      · subst first
        rw [AList.lookup_erase] at before
        cases before
      · rw [AList.lookup_erase_ne (by simp [same])] at before
        exact ⟨by simp [same,absent],before⟩
  rw [hangUp_eq_finish]
  intro still
  obtain ⟨absent,before⟩ := all _ s still
  exact absent ((order.perm _).mem_iff.mpr ((s.mem_streamIds cnx streamId).mpr ⟨st,before⟩))

theorem Sound.micro {s : Server} (sound : s.Sound) (step : Micro) : (s.micro step).Sound := by
  cases step with
  | arrive cnx streamId bytes =>
    apply sound.putStream
    intro old there
    have same : s.stream cnx streamId = old := by
      rw [Open] at there
      simp [stream,there]
    rw [same]
    exact id
  | round cnx streamId rttMicros =>
    rcases s.pumpOnce_cases cnx streamId rttMicros with idle | ⟨st,call,after,here,taking,result⟩
    · rw [Server.micro,idle]
      exact sound
    · rw [Server.micro,result]
      exact sound.took here taking rttMicros
  | finish cnx streamId => exact sound.finish cnx streamId
  | hangUp cnx order =>
    rw [Server.micro,hangUp_eq_finish]
    exact invariant_run (fun s streamId => s.finish cnx streamId) Sound
      (fun _ streamId sound => sound.finish cnx streamId) s _ sound

end Server

end WarpLoop.Bridge
