import WarpLoop.Bridge.Lifecycle

/-! Who receives a published packet. A subscription is kept per connection and
room, the delivery stream per connection alone, and closing any stream of the
connection may take either away. As long as that does not happen to a connection with
another subscribed stream, every subscriber is written to exactly once. -/
namespace WarpLoop.Bridge
open WarpLoop.Core Sketch Lib.Runs SlotMap

/-- The server with the record of the open streams on which a `SUB` header was
accepted, and for which topic. -/
structure Tracked where
  server : Server
  accepted : List (Cnx × UInt64 × Bytes)

namespace Server

def acceptsNext (s : Server) (cnx : Cnx) (streamId : UInt64) : Option Bytes :=
  match s.streams.lookup (cnx,streamId) with
  | none => none
  | some st =>
    match pumpRound st with
    | .more (some (.sub topic)) _ => if (s.getOrCreateRoom topic).2 = SENTINEL then none else some topic
    | _ => none

end Server

namespace Tracked

def initial (roomCapacity : UInt32) : Tracked := ⟨Server.initial roomCapacity,[]⟩

def micro (t : Tracked) (step : Micro) : Tracked where
  server := t.server.micro step
  accepted := match step with
    | .arrive _ _ _ => t.accepted
    | .round cnx streamId _ => ((t.server.acceptsNext cnx streamId).map (cnx,streamId,·)).toList ++ t.accepted
    | .finish cnx streamId => t.accepted.filter (fun entry => ¬ (entry.1 = cnx ∧ entry.2.1 = streamId))
    | .hangUp cnx _ => t.accepted.filter (fun entry => entry.1 ≠ cnx)

/-- A packet published by any other connection to a topic accepted on an open
stream is written exactly once to its connection, on a stream that is open. -/
def PubReaches (t : Tracked) : Prop :=
  ∀ cnx streamId topic, (cnx,streamId,topic) ∈ t.accepted → (∃ st, t.server.Open cnx streamId st) ∧
    ∀ publisher payload, publisher ≠ cnx →
      ∃ new target st, (t.server.handlePub publisher topic payload).writes = t.server.writes ++ new ∧
        new.filter (fun w => w.cnx = cnx) = [⟨cnx,target,payload⟩] ∧ t.server.Open cnx target st

/-- A stream is closed on its own only if no other stream of its connection still
needs what the closing takes away: the delivery entry, or the room of its topic. -/
def ClosingSpares (t : Tracked) : Micro → Prop
  | .finish cnx streamId => ∀ st other topic, t.server.Open cnx streamId st → (cnx,other,topic) ∈ t.accepted →
      other ≠ streamId → t.server.delivery.lookup (connIdOf cnx) ≠ some (cnx,streamId) ∧
        ¬ (st.Backs ∧ st.topic = topic)
  | _ => True

end Tracked

namespace Server

/-- The tables through which a connection gets what is published to a topic. -/
def Served (s : Server) (cnx : Cnx) (topic : Bytes) : Prop :=
  ∃ roomId target, s.topicToRoom.lookup topic = some roomId ∧ s.Member (Id.unpack roomId) (connIdOf cnx) ∧
    s.delivery.lookup (connIdOf cnx) = some (cnx,target)

theorem Sound.writes_to {s : Server} (sound : s.Sound) (targets : List UInt64) (nodup : targets.Nodup)
    (pieces : List Bytes) (cnx : Cnx) :
    (targets.flatMap (deliveries s.delivery pieces)).filter (fun w => w.cnx = cnx) =
      if connIdOf cnx ∈ targets then deliveries s.delivery pieces (connIdOf cnx) else [] := by
  have one (target : UInt64) : (deliveries s.delivery pieces target).filter (fun w => w.cnx = cnx) =
      if connIdOf cnx = target then deliveries s.delivery pieces target else [] := by
    unfold deliveries
    cases entry : s.delivery.lookup target with
    | none => simp
    | some there =>
      obtain ⟨own,_⟩ := sound.delivery target there.1 there.2 entry
      by_cases same : connIdOf cnx = target
      · obtain rfl : there.1 = cnx := connIdOf_inj (own.trans same.symm)
        simp [same]
      · have elsewhere : there.1 ≠ cnx := fun equal => same (by rw [← own,equal])
        simp [same,elsewhere]
  induction targets with
  | nil => simp
  | cons target rest ih =>
    obtain ⟨absent,later⟩ := List.nodup_cons.mp nodup
    rw [List.flatMap_cons,List.filter_append,one,ih later]
    by_cases same : connIdOf cnx = target
    · subst target
      simp [absent]
    · simp [same]

/-- In a sound server a served connection gets each packet of another one once. -/
theorem Served.pub {s : Server} (sound : s.Sound) {cnx : Cnx} {topic : Bytes} (served : s.Served cnx topic)
    {publisher : Cnx} (payload : Bytes) (other : publisher ≠ cnx) :
    ∃ new target st, (s.handlePub publisher topic payload).writes = s.writes ++ new ∧
      new.filter (fun w => w.cnx = cnx) = [⟨cnx,target,payload⟩] ∧ s.Open cnx target st := by
  obtain ⟨roomId,target,found,⟨room,live,member⟩,delivered⟩ := served
  obtain ⟨real,_⟩ := sound.topics topic roomId found
  obtain ⟨_,st,opened⟩ := sound.delivery _ _ _ delivered
  have lookup : s.getOrCreateRoom topic = (s,roomId) := by simp [getOrCreateRoom,found]
  have targets : Ffi.pubTargets s.core roomId (connIdOf publisher) =
      room.subscribers.filter (· != connIdOf publisher) := by
    simp [Ffi.pubTargets,live,Room.targets]
  refine ⟨(room.subscribers.filter (· != connIdOf publisher)).flatMap (deliveries s.delivery [payload]),target,st,
    ?_,?_,opened⟩
  · simp only [handlePub,lookup,if_neg real,relay_eq,targets]
  · have apart : connIdOf cnx ≠ connIdOf publisher := fun same => other (connIdOf_inj same.symm)
    have aimed : connIdOf cnx ∈ room.subscribers.filter (· != connIdOf publisher) := by
      simpa [List.mem_filter,apart] using member
    rw [sound.writes_to _ ((sound.nodup _ room live).filter _),if_pos aimed,deliveries,delivered]
    rfl

/-- The tables only gain: topics keep their rooms, rooms their members, and a
connection with a delivery stream keeps having one. -/
structure Keeps (s s' : Server) : Prop where
  topics : ∀ t r, s.topicToRoom.lookup t = some r → s'.topicToRoom.lookup t = some r
  members : ∀ id connId, s.Member id connId → s'.Member id connId
  delivery : ∀ (cnx : Cnx) target, s.delivery.lookup (connIdOf cnx) = some (cnx,target) →
    ∃ target', s'.delivery.lookup (connIdOf cnx) = some (cnx,target')

theorem Keeps.served {s s' : Server} (keeps : Keeps s s') {cnx : Cnx} {topic : Bytes} (served : s.Served cnx topic) :
    s'.Served cnx topic := by
  obtain ⟨roomId,target,found,member,delivered⟩ := served
  obtain ⟨target',still⟩ := keeps.delivery cnx target delivered
  exact ⟨roomId,target',keeps.topics _ _ found,keeps.members _ _ member,still⟩

theorem Keeps.trans {s s' s'' : Server} (first : Keeps s s') (second : Keeps s' s'') : Keeps s s'' where
  topics := fun t r found => second.topics t r (first.topics t r found)
  members := fun id connId member => second.members id connId (first.members id connId member)
  delivery := by
    intro cnx target delivered
    obtain ⟨target',still⟩ := first.delivery cnx target delivered
    exact second.delivery cnx target' still

theorem Keeps.of_tables {s s' : Server} (rooms : s'.core.rooms = s.core.rooms) (topics : s'.topicToRoom = s.topicToRoom)
    (delivery : s'.delivery = s.delivery) : Keeps s s' where
  topics := fun _ _ found => by rwa [topics]
  members := fun id connId member => by rwa [Member,rooms]
  delivery := fun _ target delivered => ⟨target,by rwa [delivery]⟩

theorem Found.keeps {s s' : Server} {topic : Bytes} {roomId : UInt64} (found : Found s s' topic roomId) :
    Keeps s s' where
  topics := found.kept
  members := fun id _ ⟨room,live,member⟩ => ⟨room,found.live id room live,member⟩
  delivery := fun _ target delivered => ⟨target,by rwa [found.delivery]⟩

theorem keeps_handleZoneSub (s : Server) (cnx : Cnx) (streamId : UInt64) : Keeps s (s.handleZoneSub cnx streamId) where
  topics := fun _ _ found => found
  members := fun _ _ member => member
  delivery := by
    intro other target delivered
    by_cases same : other = cnx
    · subst other
      exact ⟨streamId,AList.lookup_insert _⟩
    · have apart : connIdOf other ≠ connIdOf cnx := fun equal => same (connIdOf_inj equal)
      exact ⟨target,by rw [handleZoneSub,AList.lookup_insert_ne apart,delivered]⟩

theorem keeps_subscribe (s : Server) (cnx : Cnx) (streamId roomId : UInt64) :
    Keeps s (s.subscribe cnx streamId roomId) where
  topics := fun _ _ found => found
  members := by
    rintro id connId ⟨room,live,member⟩
    rw [Member,subscribe_find]
    split
    · exact ⟨room.sub (connIdOf cnx),by rw [live]; rfl,(room.mem_sub _ _).mpr (Or.inl member)⟩
    · exact ⟨room,live,member⟩
  delivery := (s.keeps_handleZoneSub cnx streamId).delivery

theorem Sound.keeps_handle {s : Server} (sound : s.Sound) (cnx : Cnx) (streamId rttMicros : UInt64) (call : Call) :
    Keeps s (Server.handle cnx streamId rttMicros s call).1 := by
  cases call with
  | sub topic =>
    have found := sound.getOrCreateRoom topic
    simp only [Server.handle,handleSub]
    split
    · exact found.keeps
    · exact found.keeps.trans (keeps_subscribe _ cnx streamId _)
  | sketchSub topic =>
    have found := sound.getOrCreateRoom topic
    simp only [Server.handle,handleSketchSub]
    split
    · exact found.keeps
    · rw [replay_eq]
      exact (found.keeps.trans (keeps_subscribe _ cnx streamId _)).trans (.of_tables rfl rfl rfl)
  | sketchFrame roomId frame =>
    simp only [Server.handle,handleSketchFrame_eq]
    exact .of_tables rfl rfl rfl
  | pub topic payload =>
    have found := sound.getOrCreateRoom topic
    simp only [Server.handle,handlePub]
    split
    · exact found.keeps
    · rw [relay_eq]
      exact found.keeps.trans (.of_tables rfl rfl rfl)
  | zoneSub => exact s.keeps_handleZoneSub cnx streamId
  | zonePub motion payload =>
    simp only [Server.handle,handleZonePub,relay_eq]
    exact .of_tables rfl rfl rfl

theorem Sound.keeps_pumpOnce {s : Server} (sound : s.Sound) (cnx : Cnx) (streamId rttMicros : UInt64) :
    Keeps s (s.pumpOnce cnx streamId rttMicros) := by
  rcases s.pumpOnce_cases cnx streamId rttMicros with idle | ⟨st,call,after,_,_,result⟩
  · rw [idle]
    exact .of_tables rfl rfl rfl
  · rw [result]
    cases call with
    | none => exact .of_tables rfl rfl rfl
    | some call => exact (sound.keeps_handle cnx streamId rttMicros call).trans (.of_tables rfl rfl rfl)

theorem pumpOnce_open {s : Server} {cnx other : Cnx} {streamId otherId rttMicros : UInt64} {st : StreamState}
    (there : s.Open other otherId st) : ∃ st', (s.pumpOnce cnx streamId rttMicros).Open other otherId st' := by
  have put (s' : Server) (streams : s'.streams = s.streams) (after : StreamState) :
      ∃ st', (s'.putStream cnx streamId after).Open other otherId st' := by
    by_cases same : (other,otherId) = (cnx,streamId)
    · exact ⟨after,by simp [open_putStream,same]⟩
    · exact ⟨st,by rw [open_putStream,if_neg same,Open,streams]; exact there⟩
  rcases s.pumpOnce_cases cnx streamId rttMicros with idle | ⟨_,call,after,_,_,result⟩
  · exact ⟨st,by rwa [idle]⟩
  · rw [result]
    cases call with
    | none => exact put s rfl after
    | some call => exact put _ (handle_streams s cnx streamId rttMicros call) _

theorem Sound.served_accepted {s : Server} (sound : s.Sound) {cnx : Cnx} {streamId : UInt64} (rttMicros : UInt64)
    {topic : Bytes} (accepts : s.acceptsNext cnx streamId = some topic) :
    (∃ st, s.Open cnx streamId st) ∧ (s.pumpOnce cnx streamId rttMicros).Served cnx topic := by
  unfold acceptsNext at accepts
  split at accepts
  · cases accepts
  rename_i st here
  split at accepts
  · rename_i topic' after round
    split at accepts
    · cases accepts
    rename_i sentinel
    obtain rfl := Option.some.inj accepts
    have found := sound.getOrCreateRoom topic'
    obtain ⟨_,room,live⟩ := found.sound.topics topic' _ (found.here sentinel)
    refine ⟨⟨st,here⟩,?_⟩
    have result : s.pumpOnce cnx streamId rttMicros =
        ((s.getOrCreateRoom topic').1.subscribe cnx streamId (s.getOrCreateRoom topic').2).putStream
          cnx streamId after := by
      simp [pumpOnce,here,round,Server.handle,handleSub,sentinel,StreamState.assign]
    rw [result]
    refine ⟨(s.getOrCreateRoom topic').2,streamId,found.here sentinel,?_,AList.lookup_insert _⟩
    refine ⟨room.sub (connIdOf cnx),?_,(room.mem_sub _ _).mpr (Or.inr rfl)⟩
    change ((s.getOrCreateRoom topic').1.subscribe cnx streamId (s.getOrCreateRoom topic').2).core.rooms.find _ = _
    rw [subscribe_find,if_pos rfl,live]
    rfl
  · cases accepts

/-- Closing a stream takes nothing from other connections, and from its own only
the delivery entry that points to it and the room of its topic. -/
theorem Served.finish {s : Server} (sound : s.Sound) {other : Cnx} {topic : Bytes} (served : s.Served other topic)
    (cnx : Cnx) (streamId : UInt64)
    (spares : other = cnx → ∀ st, s.Open cnx streamId st →
      s.delivery.lookup (connIdOf cnx) ≠ some (cnx,streamId) ∧ ¬ (st.Backs ∧ st.topic = topic)) :
    (s.finish cnx streamId).Served other topic := by
  cases opened : s.streams.lookup (cnx,streamId) with
  | none => simpa [Server.finish,opened] using served
  | some st =>
    have here : s.Open cnx streamId st := opened
    obtain ⟨roomId,target,found,⟨room,live,member⟩,delivered⟩ := served
    rw [finish_eq here]
    refine ⟨roomId,target,found,?_,?_⟩
    · change ∃ room, (s.coreWithout cnx st).rooms.find _ = some room ∧ _
      rw [coreWithout_find]
      split
      · rename_i unsubscribes
        obtain ⟨notZone,parsed,notPub,sameRoom⟩ := unsubscribes
        obtain ⟨roomId',found',unpacked⟩ := Option.map_eq_some_iff.mp sameRoom
        have topics := sound.apart _ _ _ _ found' found unpacked
        have apart : connIdOf other ≠ connIdOf cnx := by
          intro same
          exact (spares (connIdOf_inj same) st here).2 ⟨⟨parsed,notPub,notZone⟩,topics⟩
        exact ⟨_,by rw [live]; rfl,(room.mem_unsub _ _).mpr ⟨member,apart⟩⟩
      · exact ⟨room,live,member⟩
    · refine (lookup_deliveryWithout s cnx streamId _ _).mpr ⟨delivered,?_⟩
      rintro ⟨_,same⟩
      obtain ⟨rfl,rfl⟩ := Prod.mk.inj same
      exact (spares rfl st here).1 delivered

theorem finish_open {s : Server} {cnx other : Cnx} {streamId otherId : UInt64} {st : StreamState}
    (there : s.Open other otherId st) (apart : (other,otherId) ≠ (cnx,streamId)) :
    (s.finish cnx streamId).Open other otherId st := by
  rw [Open,finish_streams,AList.lookup_erase_ne apart]
  exact there

end Server

namespace Tracked

/-- The invariant: the server is sound, and every stream with an accepted `SUB` is
open and its connection served. -/
structure Tracks (t : Tracked) : Prop where
  sound : t.server.Sound
  open_ : ∀ cnx streamId topic, (cnx,streamId,topic) ∈ t.accepted → ∃ st, t.server.Open cnx streamId st
  served : ∀ cnx streamId topic, (cnx,streamId,topic) ∈ t.accepted → t.server.Served cnx topic

theorem Tracks.finish {t : Tracked} (tracks : t.Tracks) {cnx : Cnx} {streamId : UInt64}
    (spares : t.ClosingSpares (.finish cnx streamId)) : (t.micro (.finish cnx streamId)).Tracks where
  sound := tracks.sound.micro (.finish cnx streamId)
  open_ := by
    intro other otherId topic member
    obtain ⟨was,apart⟩ := List.mem_filter.mp member
    obtain ⟨st,there⟩ := tracks.open_ other otherId topic was
    exact ⟨st,Server.finish_open there (by simpa [← not_and_or] using apart)⟩
  served := by
    intro other otherId topic member
    obtain ⟨was,apart⟩ := List.mem_filter.mp member
    refine (tracks.served other otherId topic was).finish tracks.sound cnx streamId ?_
    rintro rfl st here
    exact spares st otherId topic here was (by simpa using apart)

theorem Tracks.hangUp {t : Tracked} (tracks : t.Tracks) (cnx : Cnx) (order : Order) :
    (t.micro (.hangUp cnx order)).Tracks := by
  have others (ids : List UInt64) (s : Server) (sound : s.Sound) (other : Cnx) (apart : other ≠ cnx)
      (otherId : UInt64) (st : StreamState) (topic : Bytes) (there : s.Open other otherId st)
      (served : s.Served other topic) :
      (ids.foldl (fun s streamId => s.finish cnx streamId) s).Open other otherId st ∧
        (ids.foldl (fun s streamId => s.finish cnx streamId) s).Served other topic := by
    induction ids generalizing s with
    | nil => exact ⟨there,served⟩
    | cons streamId rest ih =>
      exact ih _ (sound.finish cnx streamId) (Server.finish_open there (by simp [apart]))
        (served.finish sound cnx streamId (fun same => absurd same apart))
  have spared (other : Cnx) (otherId : UInt64) (topic : Bytes)
      (member : (other,otherId,topic) ∈ (t.micro (.hangUp cnx order)).accepted) :
      (∃ st, (t.micro (.hangUp cnx order)).server.Open other otherId st) ∧
        (t.micro (.hangUp cnx order)).server.Served other topic := by
    obtain ⟨was,apart⟩ := List.mem_filter.mp member
    obtain ⟨st,there⟩ := tracks.open_ other otherId topic was
    have both := others (order.arrange (t.server.streamIds cnx)) t.server tracks.sound other (by simpa using apart)
      otherId st topic there (tracks.served other otherId topic was)
    simp only [micro,Server.micro,Server.hangUp_eq_finish]
    exact ⟨⟨st,both.1⟩,both.2⟩
  exact ⟨tracks.sound.micro (.hangUp cnx order),fun other otherId topic member => (spared other otherId topic member).1,
    fun other otherId topic member => (spared other otherId topic member).2⟩

theorem mem_accepted_round {t : Tracked} {cnx other : Cnx} {streamId otherId rttMicros : UInt64} {topic : Bytes}
    (member : (other,otherId,topic) ∈ (t.micro (.round cnx streamId rttMicros)).accepted) :
    (other = cnx ∧ otherId = streamId ∧ t.server.acceptsNext cnx streamId = some topic) ∨
      (other,otherId,topic) ∈ t.accepted := by
  rcases List.mem_append.mp member with new | old
  · rw [Option.mem_toList,Option.map_eq_some_iff] at new
    obtain ⟨accepted,accepts,same⟩ := new
    cases same
    exact Or.inl ⟨rfl,rfl,accepts⟩
  · exact Or.inr old

theorem Tracks.micro {t : Tracked} (tracks : t.Tracks) (step : Micro) (spares : t.ClosingSpares step) :
    (t.micro step).Tracks := by
  cases step with
  | arrive cnx streamId bytes =>
    refine ⟨tracks.sound.micro (.arrive cnx streamId bytes),?_,?_⟩
    · intro other otherId topic member
      obtain ⟨st,there⟩ := tracks.open_ other otherId topic member
      by_cases same : (other,otherId) = (cnx,streamId)
      · refine ⟨(t.server.stream cnx streamId).withBuf ((t.server.stream cnx streamId).buf ++ bytes),?_⟩
        simp only [Tracked.micro,Server.micro,Server.open_putStream,same,if_true]
      · exact ⟨st,by simpa only [Tracked.micro,Server.micro,Server.open_putStream,same,if_false] using there⟩
    · intro other otherId topic member
      exact (Server.Keeps.of_tables rfl rfl rfl).served (tracks.served other otherId topic member)
  | round cnx streamId rttMicros =>
    have keeps := tracks.sound.keeps_pumpOnce cnx streamId rttMicros
    refine ⟨tracks.sound.micro (.round cnx streamId rttMicros),?_,?_⟩
    · intro other otherId topic member
      rcases mem_accepted_round member with ⟨rfl,rfl,accepts⟩ | old
      · obtain ⟨⟨st,there⟩,_⟩ := tracks.sound.served_accepted rttMicros accepts
        exact Server.pumpOnce_open there
      · obtain ⟨st,there⟩ := tracks.open_ other otherId topic old
        exact Server.pumpOnce_open there
    · intro other otherId topic member
      rcases mem_accepted_round member with ⟨rfl,rfl,accepts⟩ | old
      · exact (tracks.sound.served_accepted rttMicros accepts).2
      · exact keeps.served (tracks.served other otherId topic old)
  | finish cnx streamId => exact tracks.finish spares
  | hangUp cnx order => exact tracks.hangUp cnx order

theorem Tracks.pubReaches {t : Tracked} (tracks : t.Tracks) : t.PubReaches := by
  intro cnx streamId topic member
  exact ⟨tracks.open_ cnx streamId topic member,fun publisher payload other =>
    (tracks.served cnx streamId topic member).pub tracks.sound payload other⟩

theorem Tracks.initial (roomCapacity : UInt32) : (Tracked.initial roomCapacity).Tracks :=
  ⟨Server.Sound.initial roomCapacity,fun _ _ _ member => absurd member List.not_mem_nil,
    fun _ _ _ member => absurd member List.not_mem_nil⟩

/-- In every run whose closings spare the other streams of their connection, every
state on the way delivers a published packet exactly once to every subscriber. -/
theorem pub_reaches_every_subscriber (roomCapacity : UInt32) (events : List Event)
    (spares : Along micro ClosingSpares (initial roomCapacity) ((initial roomCapacity).server.steps events)) :
    Always micro PubReaches (initial roomCapacity) ((initial roomCapacity).server.steps events) := by
  have tracked := always_of_along micro Tracks ClosingSpares (fun t step tracks spares => tracks.micro step spares)
    _ _ (Tracks.initial roomCapacity) spares
  exact always_mono micro (fun _ tracks => tracks.pubReaches) tracked

instance (st : StreamState) : Decidable st.Backs := inferInstanceAs (Decidable (_ ∧ _))

instance decidableClosingSpares (t : Tracked) : (step : Micro) → Decidable (t.ClosingSpares step)
  | .finish cnx streamId =>
    decidable_of_iff (∀ st ∈ t.server.streams.lookup (cnx,streamId), ∀ entry ∈ t.accepted, entry.1 = cnx → entry.2.1 ≠ streamId →
      t.server.delivery.lookup (connIdOf cnx) ≠ some (cnx,streamId) ∧ ¬ (st.Backs ∧ st.topic = entry.2.2))
      ⟨fun all st other topic there member apart => all st there (cnx,other,topic) member rfl apart,
        fun all st there entry member own apart => all st entry.2.1 entry.2.2 there (own ▸ member) apart⟩
  | .arrive _ _ _ => inferInstanceAs (Decidable True)
  | .round _ _ _ => inferInstanceAs (Decidable True)
  | .hangUp _ _ => inferInstanceAs (Decidable True)

/-- `SUB b`. -/
def subB : Bytes := [83,85,66,32,98,10]

/-- Two subscribers of `a`. The first one has subscribed to `b` before, on another stream, which is reset. -/
def firstStreamReset : List Event :=
  [.streamData ⟨1⟩ 4 subB 0,.streamData ⟨1⟩ 0 Server.subA 0,.streamData ⟨3⟩ 0 Server.subA 0,.streamReset ⟨1⟩ 4]

theorem pub_reaches_every_subscriber_two :
    (run micro (initial 64) ((initial 64).server.steps firstStreamReset)).accepted = [(⟨3⟩,0,[97]),(⟨1⟩,0,[97])] ∧
      Always micro PubReaches (initial 64) ((initial 64).server.steps firstStreamReset) :=
  ⟨by decide +kernel,pub_reaches_every_subscriber 64 firstStreamReset (by decide +kernel)⟩

/-- `SUB a` on one stream, `SUB b` on another, and the second one reset. -/
def secondStreamReset : List Event :=
  [.streamData ⟨1⟩ 0 Server.subA 0,.streamData ⟨1⟩ 4 subB 0,.streamReset ⟨1⟩ 4]

/-- The reset takes the delivery entry of the connection with it: the stream with
the accepted `SUB a` is still open, and a packet published to `a` goes nowhere. -/
theorem reset_silences_other_stream :
    ¬ Always micro PubReaches (initial 64) ((initial 64).server.steps secondStreamReset) := by
  intro reaches
  have last := always_run _ _ _ _ reaches
  have member : ((⟨1⟩ : Cnx),(0 : UInt64),([97] : Bytes)) ∈
      (run micro (initial 64) ((initial 64).server.steps secondStreamReset)).accepted := by
    decide +kernel
  obtain ⟨_,published⟩ := last ⟨1⟩ 0 [97] member
  obtain ⟨new,target,st,writes,once,_⟩ := published ⟨2⟩ [] (by decide)
  have silent : ((run micro (initial 64) ((initial 64).server.steps secondStreamReset)).server.handlePub
      ⟨2⟩ [97] []).writes = [] := by
    decide +kernel
  rw [silent] at writes
  obtain rfl : new = [] := (List.append_eq_nil_iff.mp writes.symm).2
  simp at once

end Tracked

end WarpLoop.Bridge
