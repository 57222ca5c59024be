import WarpLoop.Bridge.Fanout
import WarpLoop.Sketch.HistorySpecs

/-! The sketch relay: connections that each hold one `SKB` stream on one topic.
A joining stream is sent the history of the room, and every accepted frame goes to
the other members, so that the frames written to a member and those accepted from it
make up the history. -/
namespace WarpLoop.Bridge
open WarpLoop.Core Sketch Lib.Runs SlotMap

/-- A stream that has joined: how much had been written before, and the frames
accepted from it since. -/
structure Session where
  cnx : Cnx
  streamId : UInt64
  mark : Nat
  mine : List Bytes
deriving DecidableEq, Repr

def Session.On (x : Session) (cnx : Cnx) (streamId : UInt64) : Prop := x.cnx = cnx ∧ x.streamId = streamId

instance (x : Session) (cnx : Cnx) (streamId : UInt64) : Decidable (x.On cnx streamId) :=
  inferInstanceAs (Decidable (_ ∧ _))

def Session.written (x : Session) (s : Server) : List Write :=
  (s.writes.drop x.mark).filter (fun w => w.cnx = x.cnx ∧ w.streamId = x.streamId)

def framed (cnx : Cnx) (streamId : UInt64) (frame : Bytes) : List Write :=
  [lenPrefix frame.length,frame].map (Write.mk cnx streamId)

namespace Server

def joinsNext (s : Server) (cnx : Cnx) (streamId : UInt64) : Bool :=
  match s.streams.lookup (cnx,streamId) with
  | none => false
  | some st =>
    match pumpRound st with
    | .more (some (.sketchSub topic)) _ => (s.getOrCreateRoom topic).2 ≠ SENTINEL
    | _ => false

def frameNext (s : Server) (cnx : Cnx) (streamId : UInt64) : Option Bytes :=
  match s.streams.lookup (cnx,streamId) with
  | none => none
  | some st =>
    match pumpRound st with
    | .more (some (.sketchFrame roomId frame)) _ =>
      if (sketchCoreApplyPacket s.sketch roomId frame).2 then some frame else none
    | _ => none

end Server

structure Sketching where
  server : Server
  sessions : List Session

namespace Sketching

def initial (roomCapacity : UInt32) : Sketching := ⟨Server.initial roomCapacity,[]⟩

def micro (t : Sketching) (step : Micro) : Sketching where
  server := t.server.micro step
  sessions := match step with
    | .arrive _ _ _ => t.sessions
    | .round cnx streamId _ =>
      if t.server.joinsNext cnx streamId then ⟨cnx,streamId,t.server.writes.length,[]⟩::t.sessions
      else
        match t.server.frameNext cnx streamId with
        | none => t.sessions
        | some frame =>
          t.sessions.map (fun x => if x.On cnx streamId then {x with mine := x.mine ++ [frame]} else x)
    | .finish cnx streamId => t.sessions.filter (fun x => ¬ x.On cnx streamId)
    | .hangUp cnx _ => t.sessions.filter (fun x => x.cnx ≠ cnx)

/-- The history of the topic's room is, as a multiset, the frames written to the
stream of each session together with the frames accepted from it. -/
def Converges (topic : Bytes) (t : Sketching) : Prop :=
  ∀ x ∈ t.sessions, ∃ roomId sent, t.server.topicToRoom.lookup topic = some roomId ∧
    x.written t.server = sent.flatMap (framed x.cnx x.streamId) ∧
    (t.server.sketch.history roomId).Perm (sent ++ x.mine)

/-- Each connection opens a single stream, its header is `SKB` with the topic, and
the room of the topic can be had. -/
def OneTopic (topic : Bytes) (t : Sketching) : Micro → Prop
  | .arrive cnx streamId _ => ∀ other st, t.server.Open cnx other st → other = streamId
  | .round cnx streamId _ => ∀ st line rest, t.server.Open cnx streamId st → st.headerParsed = false →
      cut newline st.buf = some (line,rest) →
      HeaderLine st line rest .skb topic ∧ (t.server.getOrCreateRoom topic).2 ≠ SENTINEL
  | _ => True

/-- A stream joins while the history can still be counted in 32 bits. -/
def HistoryCounted (topic : Bytes) (t : Sketching) : Micro → Prop
  | .round cnx streamId _ => t.server.joinsNext cnx streamId = true →
      (t.server.sketch.history (t.server.getOrCreateRoom topic).2).length < 2^32
  | _ => True

/-- The invariant of the relay. Sessions are the streams whose header is parsed,
a connection has one stream, and every session is a member of the room with its own
stream as the delivery stream. -/
structure Relays (topic : Bytes) (t : Sketching) : Prop where
  sound : t.server.Sound
  single : ∀ cnx i j st st', t.server.Open cnx i st → t.server.Open cnx j st' → i = j
  flags : ∀ cnx streamId st, t.server.Open cnx streamId st →
    st.isPub = false ∧ st.isZonePub = false ∧ st.isSketch = st.headerParsed
  joined : ∀ cnx streamId st, t.server.Open cnx streamId st → st.headerParsed = true →
    t.server.topicToRoom.lookup topic = some st.roomId ∧ ∃ x ∈ t.sessions, x.On cnx streamId
  parsed : ∀ x ∈ t.sessions, ∃ st, t.server.Open x.cnx x.streamId st ∧ st.headerParsed = true
  marked : ∀ x ∈ t.sessions, x.mark ≤ t.server.writes.length
  member : ∀ x ∈ t.sessions, ∀ roomId, t.server.topicToRoom.lookup topic = some roomId →
    t.server.Member (Id.unpack roomId) (connIdOf x.cnx)
  delivery : ∀ x ∈ t.sessions, t.server.delivery.lookup (connIdOf x.cnx) = some (x.cnx,x.streamId)
  converges : Converges topic t

variable {topic : Bytes}

theorem Relays.apart {t : Sketching} (relays : Relays topic t) {x : Session} (member : x ∈ t.sessions) {cnx : Cnx}
    {streamId : UInt64} {st : StreamState} (here : t.server.Open cnx streamId st) (other : ¬ x.On cnx streamId) :
    x.cnx ≠ cnx := by
  intro same
  obtain ⟨st',there,_⟩ := relays.parsed x member
  rw [same] at there
  exact other ⟨same,relays.single cnx _ _ _ _ there here⟩

theorem Relays.unparsed_apart {t : Sketching} (relays : Relays topic t) {x : Session} (member : x ∈ t.sessions)
    {cnx : Cnx} {streamId : UInt64} {st : StreamState} (here : t.server.Open cnx streamId st)
    (fresh : st.headerParsed = false) : x.cnx ≠ cnx := by
  apply relays.apart member here
  rintro ⟨rfl,rfl⟩
  obtain ⟨old,there,parsed⟩ := relays.parsed x member
  obtain rfl := Option.some.inj (here.symm.trans there)
  exact Bool.false_ne_true (fresh.symm.trans parsed)

theorem written_append {s s' : Server} {x : Session} {new : List Write} (marked : x.mark ≤ s.writes.length)
    (writes : s'.writes = s.writes ++ new) :
    x.written s' = x.written s ++ (new.filter (fun w => w.cnx = x.cnx)).filter (fun w => w.streamId = x.streamId) := by
  unfold Session.written
  rw [writes,List.drop_append_of_le_length marked,List.filter_append,List.filter_filter]
  congr 1
  apply List.filter_congr
  intro w _
  simp [and_comm]

theorem replay_share (x : Session) (cnx : Cnx) (streamId : UInt64) (packets : List Bytes) :
    ((Server.replay cnx streamId packets).filter (fun w => w.cnx = x.cnx)).filter (fun w => w.streamId = x.streamId) =
      if x.On cnx streamId then packets.flatMap (framed x.cnx x.streamId) else [] := by
  have own (w : Write) (inside : w ∈ Server.replay cnx streamId packets) : w.cnx = cnx ∧ w.streamId = streamId := by
    obtain ⟨packet,_,piece⟩ := List.mem_flatMap.mp inside
    obtain ⟨_,_,rfl⟩ := List.mem_map.mp piece
    exact ⟨rfl,rfl⟩
  rw [List.filter_filter]
  split
  · rename_i on
    obtain ⟨rfl,rfl⟩ := on
    rw [List.filter_eq_self.mpr]
    · rfl
    · intro w inside
      simpa using (own w inside).symm
  · rename_i off
    rw [List.filter_eq_nil_iff]
    intro w inside
    obtain ⟨rfl,rfl⟩ := own w inside
    simp only [Bool.and_eq_true,decide_eq_true_eq,not_and]
    exact fun sameId sameCnx => off ⟨sameCnx.symm,sameId.symm⟩

private theorem open_put {s s' : Server} (streams : s'.streams = s.streams) {cnx other : Cnx}
    {streamId i : UInt64} {after st' : StreamState} (there : (s'.putStream cnx streamId after).Open other i st') :
    (other = cnx ∧ i = streamId ∧ st' = after) ∨ ((other,i) ≠ (cnx,streamId) ∧ s.Open other i st') := by
  rw [Server.open_putStream] at there
  split at there
  · rename_i same
    exact Or.inl ⟨(Prod.mk.inj same).1,(Prod.mk.inj same).2,there⟩
  · rename_i same
    rw [Server.Open,streams] at there
    exact Or.inr ⟨same,there⟩

theorem Relays.arrive {t : Sketching} (relays : Relays topic t) {cnx : Cnx} {streamId : UInt64} {bytes : Bytes}
    (only : t.OneTopic topic (.arrive cnx streamId bytes)) : Relays topic (t.micro (.arrive cnx streamId bytes)) := by
  let st := t.server.stream cnx streamId
  have opened {other : Cnx} {i : UInt64} {st' : StreamState}
      (there : (t.micro (.arrive cnx streamId bytes)).server.Open other i st') :
      (other = cnx ∧ i = streamId ∧ st' = st.withBuf (st.buf ++ bytes)) ∨
        (other,i) ≠ (cnx,streamId) ∧ t.server.Open other i st' := open_put rfl there
  have before : (∃ old, t.server.Open cnx streamId old ∧ st = old) ∨ st = {} := by
    cases found : t.server.streams.lookup (cnx,streamId) with
    | none => exact Or.inr (by simp [st,Server.stream,found])
    | some old => exact Or.inl ⟨old,found,by simp [st,Server.stream,found]⟩
  refine ⟨relays.sound.micro (.arrive cnx streamId bytes),?_,?_,?_,?_,relays.marked,relays.member,relays.delivery,
    relays.converges⟩
  · intro other i j st' st'' first second
    rcases opened first with ⟨rfl,rfl,_⟩ | ⟨_,was⟩
    · rcases opened second with ⟨_,rfl,_⟩ | ⟨_,was'⟩
      · rfl
      · exact (only j st'' was').symm
    · rcases opened second with ⟨rfl,rfl,_⟩ | ⟨_,was'⟩
      · exact only i st' was
      · exact relays.single other i j st' st'' was was'
  · intro other i st' there
    rcases opened there with ⟨_,_,rfl⟩ | ⟨_,was⟩
    · rcases before with ⟨old,was,same⟩ | fresh
      · rw [same]
        exact relays.flags cnx streamId old was
      · rw [fresh]
        exact ⟨rfl,rfl,rfl⟩
    · exact relays.flags other i st' was
  · intro other i st' there parsed
    rcases opened there with ⟨rfl,rfl,rfl⟩ | ⟨_,was⟩
    · rcases before with ⟨old,was,same⟩ | fresh
      · rw [same] at parsed ⊢
        exact relays.joined _ _ old was parsed
      · rw [fresh] at parsed
        cases parsed
    · exact relays.joined other i st' was parsed
  · intro x member
    obtain ⟨old,was,parsed⟩ := relays.parsed x member
    by_cases same : (x.cnx,x.streamId) = (cnx,streamId)
    · obtain ⟨rfl,rfl⟩ := Prod.mk.inj same
      have kept : t.server.stream x.cnx x.streamId = old := by
        have found : t.server.streams.lookup (x.cnx,x.streamId) = some old := was
        simp [Server.stream,found]
      refine ⟨old.withBuf (old.buf ++ bytes),?_,parsed⟩
      simp [micro,Server.micro,Server.open_putStream,kept]
    · exact ⟨old,by simpa [micro,Server.micro,Server.open_putStream,same] using was,parsed⟩

private theorem single_put {t : Sketching} (relays : Relays topic t) {s' : Server}
    (streams : s'.streams = t.server.streams) {cnx : Cnx} {streamId : UInt64} {st after : StreamState}
    (here : t.server.Open cnx streamId st) (other : Cnx) (i j : UInt64) (st' st'' : StreamState)
    (first : (s'.putStream cnx streamId after).Open other i st')
    (second : (s'.putStream cnx streamId after).Open other j st'') : i = j := by
  have was {k : UInt64} {st' : StreamState} (there : (s'.putStream cnx streamId after).Open other k st') :
      ∃ old, t.server.Open other k old := by
    rcases open_put streams there with ⟨rfl,rfl,_⟩ | ⟨_,old⟩
    · exact ⟨st,here⟩
    · exact ⟨st',old⟩
  obtain ⟨_,one⟩ := was first
  obtain ⟨_,two⟩ := was second
  exact relays.single other i j _ _ one two

def afterJoin (s : Server) (cnx : Cnx) (streamId : UInt64) (topic : Bytes) (packets : List Bytes) : Server :=
  {(s.getOrCreateRoom topic).1.subscribe cnx streamId (s.getOrCreateRoom topic).2 with
    sketch := s.sketch
    writes := s.writes ++ Server.replay cnx streamId packets}

theorem join_server {s : Server} (sound : s.Sound) {cnx : Cnx} {streamId : UInt64} (rttMicros : UInt64)
    {st : StreamState} {line rest topic : Bytes} (here : s.Open cnx streamId st)
    (at_line : HeaderLine st line rest .skb topic) (real : (s.getOrCreateRoom topic).2 ≠ SENTINEL)
    {packets : List Bytes} (replayed : sketchCoreHistory s.sketch (s.getOrCreateRoom topic).2 = packets) :
    s.pumpOnce cnx streamId rttMicros = (afterJoin s cnx streamId topic packets).putStream cnx streamId
      {st with
        buf := rest, topic := topic, headerParsed := true, isSketch := true
        roomId := (s.getOrCreateRoom topic).2} := by
  have found := sound.getOrCreateRoom topic
  have opened : s.streams.lookup (cnx,streamId) = some st := here
  have sketch (roomId : UInt64) : ((s.getOrCreateRoom topic).1.subscribe cnx streamId roomId).sketch = s.sketch :=
    found.sketch
  have writes (roomId : UInt64) : ((s.getOrCreateRoom topic).1.subscribe cnx streamId roomId).writes = s.writes :=
    found.writes
  simp only [Server.pumpOnce,opened,pumpRound_skb at_line,Server.handle,Server.handleSketchSub,if_neg real,
    Server.replay_eq,sketch,writes,replayed]
  rfl

theorem afterJoin_member {s : Server} (sound : s.Sound) (cnx : Cnx) (streamId : UInt64) {topic : Bytes}
    (packets : List Bytes) (real : (s.getOrCreateRoom topic).2 ≠ SENTINEL) :
    (afterJoin s cnx streamId topic packets).Member (Id.unpack (s.getOrCreateRoom topic).2) (connIdOf cnx) := by
  have found := sound.getOrCreateRoom topic
  obtain ⟨_,room,live⟩ := found.sound.topics topic _ (found.here real)
  refine ⟨room.sub (connIdOf cnx),?_,(room.mem_sub _ _).mpr (Or.inr rfl)⟩
  change ((s.getOrCreateRoom topic).1.subscribe cnx streamId _).core.rooms.find _ = _
  rw [Server.subscribe_find,if_pos rfl,live]
  rfl

theorem afterJoin_delivery {s : Server} (sound : s.Sound) {cnx other : Cnx} (apart : other ≠ cnx) (streamId : UInt64)
    (topic : Bytes) (packets : List Bytes) :
    (afterJoin s cnx streamId topic packets).delivery.lookup (connIdOf other) = s.delivery.lookup (connIdOf other) := by
  have differs : connIdOf other ≠ connIdOf cnx := fun same => apart (connIdOf_inj same)
  change ((s.getOrCreateRoom topic).1.delivery.insert (connIdOf cnx) (cnx,streamId)).lookup _ = _
  rw [AList.lookup_insert_ne differs,(sound.getOrCreateRoom topic).delivery]

/-- The replay goes to the stream that joins and to no other. -/
theorem afterJoin_written {s : Server} {x : Session} (marked : x.mark ≤ s.writes.length) (cnx : Cnx)
    (streamId : UInt64) (topic : Bytes) (packets : List Bytes) :
    x.written (afterJoin s cnx streamId topic packets) =
      x.written s ++ if x.On cnx streamId then packets.flatMap (framed x.cnx x.streamId) else [] := by
  rw [@written_append s (afterJoin s cnx streamId topic packets) x (Server.replay cnx streamId packets) marked rfl,
    replay_share]

theorem joinsNext_skb {s : Server} {cnx : Cnx} {streamId : UInt64} {st : StreamState} {line rest topic : Bytes}
    (here : s.Open cnx streamId st) (at_line : HeaderLine st line rest .skb topic)
    (real : (s.getOrCreateRoom topic).2 ≠ SENTINEL) : s.joinsNext cnx streamId = true := by
  have opened : s.streams.lookup (cnx,streamId) = some st := here
  simp [Server.joinsNext,opened,pumpRound_skb at_line,real]

/-- A round that joins a stream: it is replayed the whole history, and nothing is
written to the others. -/
theorem Relays.join {t : Sketching} (relays : Relays topic t) {cnx : Cnx} {streamId : UInt64} (rttMicros : UInt64)
    {st : StreamState} {line rest : Bytes} (here : t.server.Open cnx streamId st)
    (at_line : HeaderLine st line rest .skb topic) (real : (t.server.getOrCreateRoom topic).2 ≠ SENTINEL)
    (counted : t.HistoryCounted topic (.round cnx streamId rttMicros)) :
    Relays topic (t.micro (.round cnx streamId rttMicros)) := by
  have found := relays.sound.getOrCreateRoom topic
  have joins := joinsNext_skb here at_line real
  have whole : sketchCoreHistory t.server.sketch (t.server.getOrCreateRoom topic).2 =
      t.server.sketch.history (t.server.getOrCreateRoom topic).2 := by
    rw [sketchCoreHistory_eq,Nat.mod_eq_of_lt (counted joins),List.take_length]
  have sessions : (t.micro (.round cnx streamId rttMicros)).sessions =
      ⟨cnx,streamId,t.server.writes.length,[]⟩::t.sessions := by
    simp only [micro,joins,if_true]
  have server : (t.micro (.round cnx streamId rttMicros)).server = _ :=
    join_server relays.sound rttMicros here at_line real whole
  have sound := relays.sound.micro (.round cnx streamId rttMicros)
  change (t.micro (.round cnx streamId rttMicros)).server.Sound at sound
  generalize t.micro (.round cnx streamId rttMicros) = t' at sessions server sound
  obtain ⟨s',sessions'⟩ := t'
  dsimp only at sessions server sound
  subst sessions' s'
  let packets := t.server.sketch.history (t.server.getOrCreateRoom topic).2
  let after := afterJoin t.server cnx streamId topic packets
  have streams : after.streams = t.server.streams := found.streams
  have room : after.topicToRoom.lookup topic = some (t.server.getOrCreateRoom topic).2 := found.here real
  have keeps : Server.Keeps t.server after :=
    found.keeps.trans ((Server.keeps_subscribe _ cnx streamId _).trans (.of_tables rfl rfl rfl))
  have others (x : Session) (member : x ∈ t.sessions) : x.cnx ≠ cnx := relays.unparsed_apart member here at_line.fresh
  have marks (x : Session) (member : x ∈ ⟨cnx,streamId,t.server.writes.length,[]⟩::t.sessions) :
      x.mark ≤ t.server.writes.length := by
    rcases List.mem_cons.mp member with rfl | old
    · exact Nat.le_refl _
    · exact relays.marked x old
  have sameRoom (roomId : UInt64) (was : t.server.topicToRoom.lookup topic = some roomId) :
      (t.server.getOrCreateRoom topic).2 = roomId :=
    Option.some.inj (room.symm.trans (found.kept topic roomId was))
  obtain ⟨notPub,notZone,_⟩ := relays.flags cnx streamId st here
  refine ⟨sound,single_put relays streams here,?_,?_,?_,?_,?_,?_,?_⟩
  · intro other i st' there
    rcases open_put streams there with ⟨_,_,rfl⟩ | ⟨_,was⟩
    · exact ⟨notPub,notZone,rfl⟩
    · exact relays.flags other i st' was
  · intro other i st' there parsed
    rcases open_put streams there with ⟨rfl,rfl,rfl⟩ | ⟨_,was⟩
    · exact ⟨room,_,List.mem_cons_self,rfl,rfl⟩
    · obtain ⟨roomWas,x,member,on⟩ := relays.joined other i st' was parsed
      exact ⟨found.kept _ _ roomWas,x,List.mem_cons_of_mem _ member,on⟩
  · intro x member
    rcases List.mem_cons.mp member with rfl | old
    · exact ⟨_,AList.lookup_insert _,rfl⟩
    · obtain ⟨st',there,parsed⟩ := relays.parsed x old
      refine ⟨st',?_,parsed⟩
      rw [Server.open_putStream,if_neg (by simp [others x old]),Server.Open,streams]
      exact there
  · intro x member
    exact Nat.le_trans (marks x member) (by simp [Server.putStream,afterJoin])
  · intro x member roomId there
    obtain rfl := Option.some.inj (room.symm.trans there)
    rcases List.mem_cons.mp member with rfl | old
    · exact afterJoin_member relays.sound cnx streamId packets real
    · obtain ⟨_,_,was,_,_⟩ := relays.converges x old
      rw [sameRoom _ was]
      exact keeps.members _ _ (relays.member x old _ was)
  · intro x member
    rcases List.mem_cons.mp member with rfl | old
    · exact AList.lookup_insert _
    · have same := afterJoin_delivery relays.sound (others x old) streamId topic packets
      exact same.trans (relays.delivery x old)
  · intro x member
    have grows := afterJoin_written (marks x member) cnx streamId topic packets
    rcases List.mem_cons.mp member with rfl | old
    · refine ⟨_,packets,room,?_,by simp; rfl⟩
      rw [if_pos ⟨rfl,rfl⟩] at grows
      exact grows.trans (by simp [Session.written])
    · obtain ⟨roomId,sent,was,written,perm⟩ := relays.converges x old
      refine ⟨roomId,sent,found.kept _ _ was,?_,perm⟩
      rw [if_neg (fun on => others x old on.1),List.append_nil] at grows
      exact grows.trans written

/-- What the relay of an accepted frame writes to a session: the frame once, and
nothing to the session that sent it. -/
theorem Relays.relayed {t : Sketching} (relays : Relays topic t) {cnx : Cnx} {streamId : UInt64} {st : StreamState}
    (here : t.server.Open cnx streamId st) (parsed : st.headerParsed = true) {x : Session} (member : x ∈ t.sessions)
    (frame : Bytes) :
    (((Ffi.pubTargets t.server.core st.roomId (connIdOf cnx)).flatMap
      (Server.deliveries t.server.delivery [lenPrefix frame.length,frame])).filter (fun w => w.cnx = x.cnx)).filter
        (fun w => w.streamId = x.streamId) = if x.On cnx streamId then [] else framed x.cnx x.streamId frame := by
  obtain ⟨found,_⟩ := relays.joined cnx streamId st here parsed
  obtain ⟨room,live,subscribed⟩ := relays.member x member _ found
  have targets : Ffi.pubTargets t.server.core st.roomId (connIdOf cnx) =
      room.subscribers.filter (· != connIdOf cnx) := by
    simp [Ffi.pubTargets,live,Room.targets]
  rw [targets,relays.sound.writes_to _ ((relays.sound.nodup _ room live).filter _)]
  by_cases on : x.On cnx streamId
  · have own : connIdOf x.cnx ∉ room.subscribers.filter (· != connIdOf cnx) := by
      simp [List.mem_filter,on.1]
    rw [if_neg own,if_pos on]
    rfl
  · have apart : connIdOf x.cnx ≠ connIdOf cnx := fun same => relays.apart member here on (connIdOf_inj same)
    have aimed : connIdOf x.cnx ∈ room.subscribers.filter (· != connIdOf cnx) := by
      simpa [List.mem_filter,apart] using subscribed
    rw [if_pos aimed,if_neg on,Server.deliveries,relays.delivery x member]
    simp [framed]

/-- A session's frames and the history grow by the frame together: it is written to the
session, or it is the session's own. -/
theorem Relays.carried {t : Sketching} (relays : Relays topic t) {cnx : Cnx} {streamId : UInt64} {st : StreamState}
    (here : t.server.Open cnx streamId st) (parsed : st.headerParsed = true) {x : Session} (member : x ∈ t.sessions)
    (frame : Bytes) (accepted : Bool) {new : List Write}
    (relay : new = if accepted then (Ffi.pubTargets t.server.core st.roomId (connIdOf cnx)).flatMap
      (Server.deliveries t.server.delivery [lenPrefix frame.length,frame]) else []) :
    ∃ sent, x.written t.server ++ (new.filter (fun w => w.cnx = x.cnx)).filter (fun w => w.streamId = x.streamId) =
        sent.flatMap (framed x.cnx x.streamId) ∧
      (if accepted then t.server.sketch.history st.roomId ++ [frame] else t.server.sketch.history st.roomId).Perm
        (sent ++ if x.On cnx streamId ∧ accepted = true then x.mine ++ [frame] else x.mine) := by
  obtain ⟨room,_⟩ := relays.joined cnx streamId st here parsed
  obtain ⟨roomId,sent,found,written,perm⟩ := relays.converges x member
  obtain rfl := Option.some.inj (room.symm.trans found)
  subst relay
  cases accepted with
  | false =>
    refine ⟨sent,?_,by simpa using perm⟩
    simp [written]
  | true =>
    have relayed := relays.relayed here parsed member frame
    by_cases on : x.On cnx streamId
    · refine ⟨sent,?_,?_⟩
      · simp [written,relayed,on]
      · simpa [on,← List.append_assoc] using perm.append_right [frame]
    · refine ⟨sent ++ [frame],?_,?_⟩
      · simp [written,relayed,on]
      · simp only [if_true,on,false_and,if_false]
        have moved : ((sent ++ x.mine) ++ [frame]).Perm ((sent ++ [frame]) ++ x.mine) := by
          rw [List.append_assoc,List.append_assoc]
          exact List.Perm.append_left sent List.perm_append_comm
        exact (perm.append_right [frame]).trans moved

/-- A session after a frame of the stream: its own if it was accepted from there. -/
def credited (cnx : Cnx) (streamId : UInt64) (frame : Bytes) (accepted : Bool) (x : Session) : Session :=
  {x with mine := if x.On cnx streamId ∧ accepted = true then x.mine ++ [frame] else x.mine}

/-- The server after a frame, before the stream itself is put back. -/
def afterFrame (s : Server) (cnx : Cnx) (roomId : UInt64) (frame : Bytes) : Server :=
  {s with
    sketch := (sketchCoreApplyPacket s.sketch roomId frame).1
    writes := s.writes ++ if (sketchCoreApplyPacket s.sketch roomId frame).2 then
      (Ffi.pubTargets s.core roomId (connIdOf cnx)).flatMap (Server.deliveries s.delivery [lenPrefix frame.length,frame])
      else []}

section Frame
variable {t : Sketching} {cnx : Cnx} {streamId : UInt64} {st : StreamState} {packet rest : Bytes}

theorem frame_server (rttMicros : UInt64) (here : t.server.Open cnx streamId st)
    (round : pumpRound st = .more (some (.sketchFrame st.roomId packet)) (st.withBuf rest)) :
    (t.micro (.round cnx streamId rttMicros)).server =
      (afterFrame t.server cnx st.roomId packet).putStream cnx streamId (st.withBuf rest) := by
  have opened : t.server.streams.lookup (cnx,streamId) = some st := here
  simp only [micro,Server.micro,Server.pumpOnce,opened,round,Server.handle,Server.handleSketchFrame_eq]
  rfl

theorem frame_sessions (rttMicros : UInt64) (here : t.server.Open cnx streamId st)
    (round : pumpRound st = .more (some (.sketchFrame st.roomId packet)) (st.withBuf rest)) :
    (t.micro (.round cnx streamId rttMicros)).sessions =
      t.sessions.map (credited cnx streamId packet (sketchCoreApplyPacket t.server.sketch st.roomId packet).2) := by
  have opened : t.server.streams.lookup (cnx,streamId) = some st := here
  have notJoin : t.server.joinsNext cnx streamId = false := by simp [Server.joinsNext,opened,round]
  simp only [micro,notJoin,Bool.false_eq_true,if_false,Server.frameNext,opened,round]
  cases (sketchCoreApplyPacket t.server.sketch st.roomId packet).2 with
  | false =>
    conv_lhs => rw [← List.map_id t.sessions]
    apply List.map_congr_left
    intro x _
    simp [credited]
  | true =>
    apply List.map_congr_left
    intro x _
    unfold credited
    split <;> simp [*]

theorem Relays.frame (relays : Relays topic t) (rttMicros : UInt64) (here : t.server.Open cnx streamId st)
    (parsed : st.headerParsed = true)
    (round : pumpRound st = .more (some (.sketchFrame st.roomId packet)) (st.withBuf rest)) :
    Relays topic (t.micro (.round cnx streamId rttMicros)) := by
  obtain ⟨room,_⟩ := relays.joined cnx streamId st here parsed
  obtain ⟨_,_,histories⟩ := sketchCoreApplyPacket_spec t.server.sketch st.roomId packet
  have history := histories st.roomId
  have sessions := frame_sessions rttMicros here round
  have server := frame_server rttMicros here round
  have sound := relays.sound.micro (.round cnx streamId rttMicros)
  change (t.micro (.round cnx streamId rttMicros)).server.Sound at sound
  generalize t.micro (.round cnx streamId rttMicros) = t' at sessions server sound
  obtain ⟨s',sessions'⟩ := t'
  dsimp only at sessions server sound
  subst sessions' s'
  have streams : (afterFrame t.server cnx st.roomId packet).streams = t.server.streams := rfl
  refine ⟨sound,single_put relays streams here,?_,?_,?_,?_,?_,?_,?_⟩
  · intro other i st' there
    rcases open_put streams there with ⟨_,_,rfl⟩ | ⟨_,old⟩
    · exact relays.flags cnx streamId st here
    · exact relays.flags other i st' old
  · intro other i st' there header
    have before : ∃ old, t.server.Open other i old ∧ old.headerParsed = true ∧ old.roomId = st'.roomId := by
      rcases open_put streams there with ⟨rfl,rfl,rfl⟩ | ⟨_,old⟩
      · exact ⟨st,here,parsed,rfl⟩
      · exact ⟨st',old,header,rfl⟩
    obtain ⟨old,opened,headerOld,sameRoom⟩ := before
    obtain ⟨found,x,member,on⟩ := relays.joined other i old opened headerOld
    exact ⟨by rw [← sameRoom]; exact found,_,List.mem_map_of_mem member,on⟩
  · intro _ inside
    obtain ⟨x,member,rfl⟩ := List.mem_map.mp inside
    have still : ∃ st', ((afterFrame t.server cnx st.roomId packet).putStream cnx streamId (st.withBuf rest)).Open
        x.cnx x.streamId st' ∧ st'.headerParsed = true := by
      obtain ⟨st',there,header⟩ := relays.parsed x member
      by_cases same : (x.cnx,x.streamId) = (cnx,streamId)
      · refine ⟨st.withBuf rest,?_,parsed⟩
        rw [Server.open_putStream,if_pos same]
      · refine ⟨st',?_,header⟩
        rw [Server.open_putStream,if_neg same]
        exact there
    exact still
  · intro _ inside
    obtain ⟨x,member,rfl⟩ := List.mem_map.mp inside
    exact Nat.le_trans (relays.marked x member) (by simp [Server.putStream,afterFrame])
  · intro _ inside
    obtain ⟨x,member,rfl⟩ := List.mem_map.mp inside
    exact relays.member x member
  · intro _ inside
    obtain ⟨x,member,rfl⟩ := List.mem_map.mp inside
    exact relays.delivery x member
  · intro _ inside
    obtain ⟨x,member,rfl⟩ := List.mem_map.mp inside
    obtain ⟨sent,written,perm⟩ := relays.carried here parsed member packet
      (sketchCoreApplyPacket t.server.sketch st.roomId packet).2 rfl
    refine ⟨st.roomId,sent,room,?_,?_⟩
    · rw [← @written_append t.server ((afterFrame t.server cnx st.roomId packet).putStream cnx streamId (st.withBuf rest))
        x _ (relays.marked x member) rfl] at written
      exact written
    · simp only [true_and] at history
      exact history ▸ perm

end Frame

/-! Closings. -/

/-- What closing streams of one connection leaves to the others. -/
structure Closes (s s' : Server) (cnx : Cnx) : Prop where
  sketch : s'.sketch = s.sketch
  writes : s'.writes = s.writes
  topics : s'.topicToRoom = s.topicToRoom
  opened : ∀ other i st, s'.Open other i st → s.Open other i st
  kept : ∀ other i st, other ≠ cnx → s.Open other i st → s'.Open other i st
  members : ∀ id (other : Cnx), other ≠ cnx → s.Member id (connIdOf other) → s'.Member id (connIdOf other)
  delivery : ∀ other : Cnx, other ≠ cnx → s'.delivery.lookup (connIdOf other) = s.delivery.lookup (connIdOf other)

theorem Closes.refl (s : Server) (cnx : Cnx) : Closes s s cnx :=
  ⟨rfl,rfl,rfl,fun _ _ _ there => there,fun _ _ _ _ there => there,fun _ _ _ member => member,fun _ _ => rfl⟩

theorem Closes.finish {s s' : Server} {cnx : Cnx} (closes : Closes s s' cnx) (streamId : UInt64) :
    Closes s (s'.finish cnx streamId) cnx := by
  cases found : s'.streams.lookup (cnx,streamId) with
  | none => simpa [Server.finish,found] using closes
  | some st =>
    have eq := Server.finish_eq (s := s') (show s'.Open cnx streamId st from found)
    refine ⟨by rw [eq]; exact closes.sketch,by rw [eq]; exact closes.writes,by rw [eq]; exact closes.topics,?_,?_,?_,?_⟩
    · intro other i st' there
      rw [Server.Open,Server.finish_streams] at there
      by_cases same : (other,i) = (cnx,streamId)
      · rw [same,AList.lookup_erase] at there
        cases there
      · rw [AList.lookup_erase_ne same] at there
        exact closes.opened other i st' there
    · intro other i st' apart there
      exact Server.finish_open (closes.kept other i st' apart there) (by simp [apart])
    · intro id other apart member
      obtain ⟨room,live,subscribed⟩ := closes.members id other apart member
      rw [eq]
      change ∃ room, (s'.coreWithout cnx st).rooms.find id = some room ∧ _
      rw [Server.coreWithout_find]
      split
      · exact ⟨_,by rw [live]; rfl,
          (room.mem_unsub _ _).mpr ⟨subscribed,fun same => apart (connIdOf_inj same)⟩⟩
      · exact ⟨room,live,subscribed⟩
    · intro other apart
      rw [eq,← closes.delivery other apart]
      have ids : connIdOf other ≠ connIdOf cnx := fun same => apart (connIdOf_inj same)
      change (s'.deliveryWithout cnx streamId).lookup _ = _
      unfold Server.deliveryWithout
      split
      · exact AList.lookup_erase_ne ids
      · rfl

theorem Closes.hangUp (s : Server) (cnx : Cnx) (order : Order) : Closes s (s.micro (.hangUp cnx order)) cnx := by
  simp only [Server.micro,Server.hangUp_eq_finish]
  exact invariant_run (fun s streamId => s.finish cnx streamId) (fun s' => Closes s s' cnx)
    (fun _ streamId closes => closes.finish streamId) s _ (Closes.refl _ cnx)

theorem Relays.close {t t' : Sketching} (relays : Relays topic t) {cnx : Cnx} (sound : t'.server.Sound)
    (closes : Closes t.server t'.server cnx)
    (kept : ∀ x ∈ t'.sessions, x ∈ t.sessions ∧ x.cnx ≠ cnx)
    (left : ∀ other i st, t'.server.Open other i st → ∀ x ∈ t.sessions, x.On other i → x ∈ t'.sessions) :
    Relays topic t' where
  sound := sound
  single := fun other i j st st' first second =>
    relays.single other i j st st' (closes.opened _ _ _ first) (closes.opened _ _ _ second)
  flags := fun other i st there => relays.flags other i st (closes.opened _ _ _ there)
  joined := by
    intro other i st there parsed
    obtain ⟨room,x,member,on⟩ := relays.joined other i st (closes.opened _ _ _ there) parsed
    exact ⟨by rw [closes.topics]; exact room,x,left other i st there x member on,on⟩
  parsed := by
    intro x member
    obtain ⟨old,apart⟩ := kept x member
    obtain ⟨st,there,parsed⟩ := relays.parsed x old
    exact ⟨st,closes.kept _ _ _ apart there,parsed⟩
  marked := fun x member => by
    rw [closes.writes]
    exact relays.marked x (kept x member).1
  member := by
    intro x member roomId room
    obtain ⟨old,apart⟩ := kept x member
    rw [closes.topics] at room
    exact closes.members _ _ apart (relays.member x old roomId room)
  delivery := by
    intro x member
    obtain ⟨old,apart⟩ := kept x member
    rw [closes.delivery _ apart]
    exact relays.delivery x old
  converges := by
    intro x member
    obtain ⟨roomId,sent,room,written,perm⟩ := relays.converges x (kept x member).1
    refine ⟨roomId,sent,by rw [closes.topics]; exact room,?_,by rw [closes.sketch]; exact perm⟩
    rw [← written,Session.written,Session.written,closes.writes]

theorem Relays.finish {t : Sketching} (relays : Relays topic t) (cnx : Cnx) (streamId : UInt64) :
    Relays topic (t.micro (.finish cnx streamId)) := by
  cases found : t.server.streams.lookup (cnx,streamId) with
  | none =>
    -- nothing is open under these ids, so no session is either
    have same : t.micro (.finish cnx streamId) = t := by
      have server : t.server.finish cnx streamId = t.server := by simp [Server.finish,found]
      have sessions : t.sessions.filter (fun x => ¬ x.On cnx streamId) = t.sessions := by
        rw [List.filter_eq_self]
        intro x member
        obtain ⟨st,there,_⟩ := relays.parsed x member
        have off : ¬ x.On cnx streamId := by
          rintro ⟨rfl,rfl⟩
          rw [Server.Open,found] at there
          cases there
        simpa using off
      simp only [micro,Server.micro,server,sessions]
    rw [same]
    exact relays
  | some st =>
    have here : t.server.Open cnx streamId st := found
    refine relays.close (relays.sound.micro (.finish cnx streamId)) ((Closes.refl _ cnx).finish streamId) ?_ ?_
    · intro x member
      obtain ⟨old,off⟩ := List.mem_filter.mp member
      exact ⟨old,relays.apart old here (by simpa using off)⟩
    · intro other i st' there x member on
      refine List.mem_filter.mpr ⟨member,?_⟩
      have off : ¬ x.On cnx streamId := by
        intro same
        obtain rfl : other = cnx := on.1.symm.trans same.1
        obtain rfl : i = streamId := on.2.symm.trans same.2
        change (t.server.finish other i).streams.lookup (other,i) = some st' at there
        rw [Server.finish_streams,AList.lookup_erase] at there
        cases there
      simpa using off

theorem Relays.hangUp {t : Sketching} (relays : Relays topic t) (cnx : Cnx) (order : Order) :
    Relays topic (t.micro (.hangUp cnx order)) := by
  refine relays.close (relays.sound.micro (.hangUp cnx order)) (Closes.hangUp t.server cnx order) ?_ ?_
  · intro x member
    obtain ⟨old,apart⟩ := List.mem_filter.mp member
    exact ⟨old,by simpa using apart⟩
  · intro other i st there x member on
    refine List.mem_filter.mpr ⟨member,?_⟩
    have apart : x.cnx ≠ cnx := by
      rintro rfl
      rw [← on.1] at there
      exact Server.hangUp_closes t.server x.cnx order i st there
    simpa using apart

theorem Relays.micro {t : Sketching} (relays : Relays topic t) (step : Micro) (only : t.OneTopic topic step)
    (counted : t.HistoryCounted topic step) : Relays topic (t.micro step) := by
  cases step with
  | arrive cnx streamId bytes => exact relays.arrive only
  | round cnx streamId rttMicros =>
    -- a round that consumes nothing changes nothing
    have idle (server : t.server.pumpOnce cnx streamId rttMicros = t.server)
        (noJoin : t.server.joinsNext cnx streamId = false) (noFrame : t.server.frameNext cnx streamId = none) :
        Relays topic (t.micro (.round cnx streamId rttMicros)) := by
      have same : t.micro (.round cnx streamId rttMicros) = t := by
        simp only [Sketching.micro,Server.micro,server,noJoin,noFrame,Bool.false_eq_true,if_false]
      rw [same]
      exact relays
    cases found : t.server.streams.lookup (cnx,streamId) with
    | none =>
      exact idle (by simp [Server.pumpOnce,found]) (by simp [Server.joinsNext,found]) (by simp [Server.frameNext,found])
    | some st =>
      have here : t.server.Open cnx streamId st := found
      have waiting (waits : pumpRound st = .wait) : Relays topic (t.micro (.round cnx streamId rttMicros)) :=
        idle (by simp [Server.pumpOnce,found,waits]) (by simp [Server.joinsNext,found,waits])
          (by simp [Server.frameNext,found,waits])
      cases parsed : st.headerParsed with
      | false =>
        cases line : cut newline st.buf with
        | none => exact waiting (pumpRound_open parsed line)
        | some pair =>
          obtain ⟨at_line,real⟩ := only st pair.1 pair.2 here parsed line
          exact relays.join rttMicros here at_line real counted
      | true =>
        have sketch : st.isSketch = true := (relays.flags cnx streamId st here).2.2.trans parsed
        rcases pumpRound_sketch parsed sketch with waits | ⟨frame,rest,goes⟩
        · exact waiting waits
        · exact relays.frame rttMicros here parsed goes
  | finish cnx streamId => exact relays.finish cnx streamId
  | hangUp cnx order => exact relays.hangUp cnx order

theorem Relays.initial (topic : Bytes) (roomCapacity : UInt32) : Relays topic (Sketching.initial roomCapacity) := by
  have nothing (cnx : Cnx) (i : UInt64) (st : StreamState) : ¬ (Sketching.initial roomCapacity).server.Open cnx i st := by
    intro there
    simp [Sketching.initial,Server.Open,Server.initial] at there
  have nobody (x : Session) : x ∉ (Sketching.initial roomCapacity).sessions := List.not_mem_nil
  exact {
    sound := Server.Sound.initial roomCapacity
    single := fun cnx i j st _ there _ => absurd there (nothing cnx i st)
    flags := fun cnx i st there => absurd there (nothing cnx i st)
    joined := fun cnx i st there _ => absurd there (nothing cnx i st)
    parsed := fun x member => absurd member (nobody x)
    marked := fun x member => absurd member (nobody x)
    member := fun x member => absurd member (nobody x)
    delivery := fun x member => absurd member (nobody x)
    converges := fun x member => absurd member (nobody x)}

end Sketching

end WarpLoop.Bridge
