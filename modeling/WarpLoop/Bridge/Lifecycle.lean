import WarpLoop.Bridge.Invariant

/-! What is left of a closed connection. A stream's closing undoes the
subscription of its last header, as far as the stream's flags still show it. The
flags of earlier headers hide a subscription made under them, and such a subscription
outlives its connection. -/
namespace WarpLoop.Bridge
open WarpLoop.Core Sketch Lib.Runs SlotMap

/-- Closing a stream in this state unsubscribes its connection from the topic. -/
def StreamState.Backs (st : StreamState) : Prop :=
  st.headerParsed = true ∧ st.isPub = false ∧ st.isZonePub = false

theorem Taking.backs {st after : StreamState} {call : Option Call} (taking : Taking st call after)
    (backs : st.Backs) : after.Backs ∧ after.topic = st.topic := by
  obtain ⟨parsed,notPub,notZone⟩ := backs
  have header {line rest topic : Bytes} {verb : Verb} (at_line : HeaderLine st line rest verb topic) : False :=
    Bool.false_ne_true (at_line.fresh.symm.trans parsed)
  cases taking with
  | bare fresh => exact absurd (fresh.symm.trans parsed) Bool.false_ne_true
  | frame => exact ⟨⟨parsed,notPub,notZone⟩,rfl⟩
  | packet _ _ isPub => exact absurd (notPub.symm.trans isPub) Bool.false_ne_true
  | zonePacket _ _ _ zone => exact absurd (notZone.symm.trans zone) Bool.false_ne_true
  | sub at_line => exact (header at_line).elim
  | pub at_line => exact (header at_line).elim
  | skb at_line => exact (header at_line).elim
  | zpb at_line => exact (header at_line).elim
  | badZpb at_line => exact (header at_line).elim
  | unknown at_line => exact (header at_line).elim

namespace Server

def Member (s : Server) (id : Id) (connId : UInt64) : Prop :=
  ∃ room, s.core.rooms.find id = some room ∧ connId ∈ room.subscribers

/-- Every subscription of a connection has an open stream whose closing undoes it. -/
def Backed (s : Server) : Prop :=
  ∀ id connId, s.Member id connId → ∃ streamId st, s.Open ⟨connId⟩ streamId st ∧ st.Backs ∧
    (s.topicToRoom.lookup st.topic).map Id.unpack = some id

/-- The headers that subscribe a connection while a flag of the stream hides it
from the closing: `SUB` after `ZPB`, and `SKB` after `PUB` or `ZPB`. -/
def LeakFree (s : Server) : Micro → Prop
  | .round cnx streamId _ => ∀ st line rest topic, s.Open cnx streamId st →
      (s.getOrCreateRoom topic).2 ≠ SENTINEL →
      (HeaderLine st line rest .sub topic → st.isZonePub = false) ∧
        (HeaderLine st line rest .skb topic → st.isPub = false ∧ st.isZonePub = false)
  | _ => True

theorem Backed.put {s s' : Server} (backed : s.Backed) {cnx : Cnx} {streamId : UInt64} {st after : StreamState}
    (here : s.Open cnx streamId st) (keeps : st.Backs → after.Backs ∧ after.topic = st.topic)
    (streams : s'.streams = s.streams)
    (kept : ∀ t r, s.topicToRoom.lookup t = some r → s'.topicToRoom.lookup t = some r)
    (members : ∀ id connId, s'.Member id connId → s.Member id connId ∨
      connId = connIdOf cnx ∧ after.Backs ∧ (s'.topicToRoom.lookup after.topic).map Id.unpack = some id) :
    (s'.putStream cnx streamId after).Backed := by
  intro id connId member
  have own : (s'.putStream cnx streamId after).Open cnx streamId after := by simp [open_putStream]
  rcases members id connId member with old | ⟨rfl,backs,room⟩
  · obtain ⟨otherId,st',there,backs,room⟩ := backed id connId old
    obtain ⟨roomId,found,unpacked⟩ := Option.map_eq_some_iff.mp room
    by_cases same : ((⟨connId⟩ : Cnx),otherId) = (cnx,streamId)
    · obtain ⟨rfl,rfl⟩ := Prod.mk.inj same
      obtain rfl := Option.some.inj (here.symm.trans there)
      obtain ⟨still,topic⟩ := keeps backs
      refine ⟨otherId,after,own,still,?_⟩
      change (s'.topicToRoom.lookup after.topic).map Id.unpack = some id
      rw [topic,kept _ _ found,← unpacked]
      rfl
    · refine ⟨otherId,st',?_,backs,?_⟩
      · rw [open_putStream,if_neg same,Open,streams]
        exact there
      · change (s'.topicToRoom.lookup st'.topic).map Id.unpack = some id
        rw [kept _ _ found,← unpacked]
        rfl
  · exact ⟨streamId,after,own,backs,room⟩

theorem Found.member {s s' : Server} {topic : Bytes} {roomId : UInt64} (found : Found s s' topic roomId) {id : Id}
    {connId : UInt64} (member : s'.Member id connId) : s.Member id connId := by
  obtain ⟨room,live,subscribed⟩ := member
  rcases found.subscribers id room live with old | none
  · exact ⟨room,old,subscribed⟩
  · rw [none] at subscribed
    cases subscribed

theorem member_subscribe {s : Server} {cnx : Cnx} {streamId roomId connId : UInt64} {id : Id}
    (member : (s.subscribe cnx streamId roomId).Member id connId) :
    s.Member id connId ∨ connId = connIdOf cnx ∧ id = Id.unpack roomId := by
  obtain ⟨room,live,subscribed⟩ := member
  rw [subscribe_find] at live
  split at live
  · rename_i same
    obtain ⟨old,was,rfl⟩ := Option.map_eq_some_iff.mp live
    rcases (old.mem_sub _ _).mp subscribed with before | new
    · exact Or.inl ⟨old,was,before⟩
    · exact Or.inr ⟨new,same⟩
  · exact Or.inl ⟨room,live,subscribed⟩

theorem Backed.took {s : Server} (sound : s.Sound) (backed : s.Backed) {cnx : Cnx} {streamId rttMicros : UInt64}
    {st after : StreamState} {call : Option Call} (here : s.Open cnx streamId st) (taking : Taking st call after)
    (fits : s.LeakFree (.round cnx streamId rttMicros)) :
    (s.took cnx streamId rttMicros call after).Backed := by
  have keeps := taking.backs
  cases call with
  | none => exact backed.put here keeps rfl (fun _ _ found => found) (fun _ _ member => Or.inl member)
  | some call =>
    cases call with
    | sub topic =>
      have found := sound.getOrCreateRoom topic
      cases taking with
      | sub at_line =>
        by_cases sentinel : (s.getOrCreateRoom topic).2 = SENTINEL
        · simp only [Server.took,Server.handle,handleSub,if_pos sentinel]
          exact backed.put here keeps found.streams found.kept (fun _ _ member => Or.inl (found.member member))
        · have notZone := (fits st _ _ topic here sentinel).1 at_line
          simp only [Server.took,Server.handle,handleSub,if_neg sentinel]
          refine backed.put here keeps found.streams found.kept (fun id connId member => ?_)
          rcases member_subscribe member with old | ⟨own,rfl⟩
          · exact Or.inl (found.member old)
          · refine Or.inr ⟨own,⟨rfl,rfl,notZone⟩,?_⟩
            exact congrArg (Option.map Id.unpack) (found.here sentinel)
    | sketchSub topic =>
      have found := sound.getOrCreateRoom topic
      cases taking with
      | skb at_line =>
        by_cases sentinel : (s.getOrCreateRoom topic).2 = SENTINEL
        · simp only [Server.took,Server.handle,handleSketchSub,if_pos sentinel]
          exact backed.put here keeps found.streams found.kept (fun _ _ member => Or.inl (found.member member))
        · obtain ⟨notPub,notZone⟩ := (fits st _ _ topic here sentinel).2 at_line
          simp only [Server.took,Server.handle,handleSketchSub,if_neg sentinel,replay_eq]
          refine backed.put here keeps found.streams found.kept (fun id connId member => ?_)
          rcases @member_subscribe (s.getOrCreateRoom topic).1 cnx streamId _ _ _ member with
            old | ⟨own,rfl⟩
          · exact Or.inl (found.member old)
          · refine Or.inr ⟨own,⟨rfl,notPub,notZone⟩,?_⟩
            exact congrArg (Option.map Id.unpack) (found.here sentinel)
    | sketchFrame roomId frame =>
      simp only [Server.took,Server.handle,handleSketchFrame_eq]
      exact backed.put here keeps rfl (fun _ _ found => found) (fun _ _ member => Or.inl member)
    | pub topic payload =>
      have found := sound.getOrCreateRoom topic
      simp only [Server.took,Server.handle,handlePub]
      split
      · exact backed.put here keeps found.streams found.kept (fun _ _ member => Or.inl (found.member member))
      · rw [relay_eq]
        exact backed.put here keeps found.streams found.kept (fun _ _ member => Or.inl (found.member member))
    | zoneSub => exact backed.put here keeps rfl (fun _ _ found => found) (fun _ _ member => Or.inl member)
    | zonePub motion payload =>
      simp only [Server.took,Server.handle,handleZonePub,relay_eq]
      exact backed.put here keeps rfl (fun _ _ found => found) (fun _ _ member => Or.inl member)

theorem Backed.finish {s : Server} (backed : s.Backed) (cnx : Cnx) (streamId : UInt64) :
    (s.finish cnx streamId).Backed := by
  cases found : s.streams.lookup (cnx,streamId) with
  | none => simpa [Server.finish,found] using backed
  | some st =>
    have here : s.Open cnx streamId st := found
    rw [finish_eq here]
    rintro id connId ⟨room,live,subscribed⟩
    change (s.coreWithout cnx st).rooms.find id = some room at live
    -- a member of the room that the closing unsubscribes from is another connection
    have before : s.Member id connId ∧
        (st.Backs → (s.topicToRoom.lookup st.topic).map Id.unpack = some id → connId ≠ connIdOf cnx) := by
      rw [coreWithout_find] at live
      split at live
      · obtain ⟨old,was,rfl⟩ := Option.map_eq_some_iff.mp live
        obtain ⟨member,other⟩ := (old.mem_unsub _ _).mp subscribed
        exact ⟨⟨old,was,member⟩,fun _ _ => other⟩
      · rename_i untouched
        refine ⟨⟨room,live,subscribed⟩,fun backs same => ?_⟩
        exact absurd ⟨backs.2.2,backs.1,backs.2.1,same⟩ untouched
    obtain ⟨member,other⟩ := before
    obtain ⟨otherId,st',there,backs,unpacked⟩ := backed id connId member
    refine ⟨otherId,st',?_,backs,unpacked⟩
    have apart : ((⟨connId⟩ : Cnx),otherId) ≠ (cnx,streamId) := by
      intro same
      obtain ⟨rfl,rfl⟩ := Prod.mk.inj same
      obtain rfl := Option.some.inj (here.symm.trans there)
      exact other backs unpacked rfl
    change (s.streams.erase (cnx,streamId)).lookup (⟨connId⟩,otherId) = some st'
    rw [AList.lookup_erase_ne apart]
    exact there

theorem Backed.micro {s : Server} (sound : s.Sound) (backed : s.Backed) (step : Micro) (fits : s.LeakFree step) :
    (s.micro step).Backed := by
  cases step with
  | arrive cnx streamId bytes =>
    intro id connId member
    obtain ⟨otherId,st',there,backs,unpacked⟩ := backed id connId member
    by_cases same : ((⟨connId⟩ : Cnx),otherId) = (cnx,streamId)
    · obtain ⟨rfl,rfl⟩ := Prod.mk.inj same
      have found : s.streams.lookup (⟨connId⟩,otherId) = some st' := there
      refine ⟨otherId,st'.withBuf (st'.buf ++ bytes),?_,backs,unpacked⟩
      simp [Server.micro,open_putStream,stream,found]
    · exact ⟨otherId,st',by simpa [Server.micro,open_putStream,same] using there,backs,unpacked⟩
  | round cnx streamId rttMicros =>
    rcases s.pumpOnce_cases cnx streamId rttMicros with idle | ⟨st,call,after,here,taking,result⟩
    · rw [Server.micro,idle]
      exact backed
    · rw [Server.micro,result]
      exact backed.took sound here taking fits
  | finish cnx streamId => exact backed.finish cnx streamId
  | hangUp cnx order =>
    rw [Server.micro,hangUp_eq_finish]
    exact invariant_run (fun s streamId => s.finish cnx streamId) Backed
      (fun _ streamId backed => backed.finish cnx streamId) s _ backed

structure NoTrace (s : Server) (connId : UInt64) : Prop where
  rooms : ∀ id room, s.core.rooms.find id = some room → connId ∉ room.subscribers
  zones : ∀ id zone, s.core.zoneWorld.zones.find id = some zone → zone.holds connId = false
  delivery : ∀ key cnx streamId, s.delivery.lookup key = some (cnx,streamId) → key ≠ connId ∧ connIdOf cnx ≠ connId

theorem NoTrace.of_closed {s : Server} (sound : s.Sound) (backed : s.Backed) {cnx : Cnx}
    (closed : ∀ streamId st, ¬ s.Open cnx streamId st) : s.NoTrace (connIdOf cnx) where
  rooms := by
    intro id room live member
    obtain ⟨streamId,st,here,_⟩ := backed id (connIdOf cnx) ⟨room,live,member⟩
    exact closed streamId st here
  zones := by
    intro id zone live
    by_contra listed
    obtain ⟨entity,member,own⟩ := (zone.holds_iff _).mp (by simpa using listed)
    obtain ⟨streamId,st,here,_⟩ := sound.zones.members id zone live entity member
    rw [own] at here
    exact closed streamId st here
  delivery := by
    intro key other streamId found
    obtain ⟨own,st,here⟩ := sound.delivery key other streamId found
    have apart : connIdOf other ≠ connIdOf cnx := by
      intro same
      obtain rfl := connIdOf_inj same
      exact closed streamId st here
    exact ⟨by rwa [← own],apart⟩

def steps (s : Server) (events : List Event) : List Micro := expandAll fanoutStreamCallback micros s events

theorem run_steps (s : Server) (events : List Event) :
    run micro s (s.steps events) = run fanoutStreamCallback s events :=
  run_expandAll fanoutStreamCallback micro micros run_micros s events

theorem sound_run (roomCapacity : UInt32) (events : List Event) :
    (run fanoutStreamCallback (Server.initial roomCapacity) events).Sound := by
  rw [← run_steps]
  exact invariant_run micro Sound (fun _ step sound => sound.micro step) _ _ (Sound.initial roomCapacity)

/-- After any callbacks, every delivery entry is its connection's own and names an open
stream, and the close callback of a connection leaves no entry that mentions it. -/
theorem deliveries_never_dangle (roomCapacity : UInt32) (events : List Event) :
    let s := run fanoutStreamCallback (Server.initial roomCapacity) events
    (∀ connId cnx streamId, s.delivery.lookup connId = some (cnx,streamId) →
      connId = connIdOf cnx ∧ ∃ st, s.streams.lookup (cnx,streamId) = some st) ∧
      ∀ cnx order connId other streamId,
        (fanoutStreamCallback s (.close cnx order)).delivery.lookup connId = some (other,streamId) →
        connId ≠ connIdOf cnx ∧ other ≠ cnx := by
  intro s
  have sound : s.Sound := sound_run roomCapacity events
  refine ⟨fun connId cnx streamId found => ?_,fun cnx order connId other streamId found => ?_⟩
  · obtain ⟨own,st,here⟩ := sound.delivery connId cnx streamId found
    exact ⟨own.symm,st,here⟩
  · obtain ⟨own,st,here⟩ := (sound.micro (.hangUp cnx order)).delivery connId other streamId found
    have apart : other ≠ cnx := by
      rintro rfl
      exact hangUp_closes s other order streamId st here
    exact ⟨fun same => apart (connIdOf_inj (own.trans same)),apart⟩

/-- Right after the close callback of a connection nothing mentions it any more,
in every run in which no header subscribes a connection behind its stream's flags. -/
theorem close_leaves_no_trace (roomCapacity : UInt32) (events : List Event) (cnx : Cnx) (order : Order)
    (fits : Along micro LeakFree (Server.initial roomCapacity) ((Server.initial roomCapacity).steps events)) :
    (fanoutStreamCallback (run fanoutStreamCallback (Server.initial roomCapacity) events)
      (.close cnx order)).NoTrace (connIdOf cnx) := by
  have start : (Server.initial roomCapacity).Sound ∧ (Server.initial roomCapacity).Backed := by
    refine ⟨Sound.initial roomCapacity,?_⟩
    rintro id connId ⟨room,live,_⟩
    rw [initial_rooms,empty_find] at live
    cases live
  have kept := always_of_along micro (fun s => s.Sound ∧ s.Backed) LeakFree
    (fun s step inv fits => ⟨inv.1.micro step,inv.2.micro inv.1 step fits⟩) _ _ start fits
  have reached := always_run _ _ _ _ kept
  rw [run_steps] at reached
  obtain ⟨sound,backed⟩ := reached
  exact .of_closed (sound.micro (.hangUp cnx order)) (backed.micro sound (.hangUp cnx order) trivial)
    (hangUp_closes _ cnx order)

/-- `SUB a`. -/
def subA : Bytes := [83,85,66,32,97,10]

def sameOrder : Order := ⟨id,fun _ => .refl _⟩

theorem close_leaves_no_trace_subscriber :
    Along micro LeakFree (Server.initial 64) ((Server.initial 64).steps [.streamData ⟨1⟩ 0 subA 0]) ∧
      (run fanoutStreamCallback (Server.initial 64) [.streamData ⟨1⟩ 0 subA 0]).core.rooms.find ⟨0,1⟩ = some ⟨[1]⟩ ∧
      (fanoutStreamCallback (run fanoutStreamCallback (Server.initial 64) [.streamData ⟨1⟩ 0 subA 0])
        (.close ⟨1⟩ sameOrder)).NoTrace 1 := by
  have rounds : ((Server.initial 64).streamData ⟨1⟩ 0 subA 0).2.length = 1 := by decide +kernel
  have fits : Along micro LeakFree (Server.initial 64)
      ((Server.initial 64).steps [.streamData ⟨1⟩ 0 subA 0]) := by
    simp only [steps,expandAll,micros,rounds,List.append_nil]
    refine ⟨trivial,?_,trivial⟩
    intro st line rest topic here _
    have opened : some ({buf := subA} : StreamState) = some st := here
    obtain rfl := Option.some.inj opened
    exact ⟨fun _ => rfl,fun _ => ⟨rfl,rfl⟩⟩
  exact ⟨fits,by decide +kernel,close_leaves_no_trace 64 _ ⟨1⟩ sameOrder fits⟩

/-- `ZPB 0 0 0 0 0 0`, a packet and `SUB a` on one stream: the closing removes the
zone entity and leaves the subscription, which the next connection with the same
pointer inherits. -/
theorem subscription_outlives_connection :
    ¬ (fanoutStreamCallback (run fanoutStreamCallback (Server.initial 64)
      [.streamData ⟨1⟩ 0 ([90,80,66,32,48,32,48,32,48,32,48,32,48,32,48,10] ++ List.replicate 100 0 ++ subA) 0])
        (.close ⟨1⟩ sameOrder)).NoTrace 1 := by
  intro clean
  have room := clean.rooms ⟨0,1⟩ ⟨[1]⟩ (by decide +kernel)
  simp at room

end Server

end WarpLoop.Bridge
