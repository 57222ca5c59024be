import WarpLoop.Bridge.SketchDelivery

/-! What a stream that joined a room with `SKB` carries. Publishes of every verb go
to the one delivery stream of a connection, and the topic of an `SKB` may be
published to with `PUB`; as long as neither puts anything but the room's own frames
on such a stream, its bytes are the framed packets of the room's history. -/
namespace WarpLoop.Bridge
open WarpLoop.Core Sketch Lib.Runs SlotMap

/-- An open stream: how much had been written when it was opened, and the topic of
the `SKB` header that was accepted on it. -/
structure Life where
  cnx : Cnx
  streamId : UInt64
  mark : Nat
  topic : Option Bytes
deriving DecidableEq, Repr

namespace Life

def session (x : Life) : Session := ⟨x.cnx,x.streamId,x.mark,[]⟩

def written (x : Life) (s : Server) : List Write := x.session.written s

def bytes (x : Life) (s : Server) : Bytes := (x.written s).flatMap Write.bytes

def share (x : Life) (new : List Write) : List Write :=
  (new.filter (fun w => w.cnx = x.cnx)).filter (fun w => w.streamId = x.streamId)

theorem written_grow {x : Life} {s s' : Server} {new : List Write} (marked : x.mark ≤ s.writes.length)
    (writes : s'.writes = s.writes ++ new) : x.written s' = x.written s ++ x.share new :=
  @Sketching.written_append s s' x.session new marked writes

theorem share_replay (x : Life) (cnx : Cnx) (streamId : UInt64) (packets : List Bytes) :
    x.share (Server.replay cnx streamId packets) =
      if x.session.On cnx streamId then packets.flatMap (framed x.cnx x.streamId) else [] :=
  Sketching.replay_share x.session cnx streamId packets

theorem share_spared {x : Life} {delivery : AList (fun _ : UInt64 => Cnx × UInt64)} {targets : List UInt64}
    (spared : ∀ target ∈ targets, delivery.lookup target ≠ some (x.cnx,x.streamId)) (pieces : List Bytes) :
    x.share (targets.flatMap (Server.deliveries delivery pieces)) = [] := by
  rw [share,List.filter_filter,List.filter_eq_nil_iff]
  intro w inside
  obtain ⟨target,aimed,piece⟩ := List.mem_flatMap.mp inside
  unfold Server.deliveries at piece
  split at piece
  · cases piece
  · rename_i cnx streamId entry
    obtain ⟨_,_,rfl⟩ := List.mem_map.mp piece
    simp only [Bool.and_eq_true,decide_eq_true_eq,not_and]
    rintro rfl rfl
    exact spared target aimed entry

theorem share_frame {s : Server} (sound : s.Sound) (x : Life) {targets : List UInt64} (nodup : targets.Nodup)
    (frame : Bytes) :
    x.share (targets.flatMap (Server.deliveries s.delivery [lenPrefix frame.length,frame])) = [] ∨
      x.share (targets.flatMap (Server.deliveries s.delivery [lenPrefix frame.length,frame])) =
        framed x.cnx x.streamId frame ∧
          ∃ target ∈ targets, s.delivery.lookup target = some (x.cnx,x.streamId) := by
  unfold share
  rw [sound.writes_to targets nodup]
  split
  · rename_i aimed
    unfold Server.deliveries
    cases entry : s.delivery.lookup (connIdOf x.cnx) with
    | none => exact Or.inl rfl
    | some there =>
      obtain ⟨cnx,streamId⟩ := there
      obtain ⟨own,_⟩ := sound.delivery _ _ _ entry
      obtain rfl := connIdOf_inj own
      by_cases same : streamId = x.streamId
      · subst streamId
        exact Or.inr ⟨by simp [framed],_,aimed,entry⟩
      · exact Or.inl (by simp [same])
  · exact Or.inl rfl

end Life

namespace Server

def nextCall (s : Server) (cnx : Cnx) (streamId : UInt64) : Option Call :=
  match s.streams.lookup (cnx,streamId) with
  | none => none
  | some st =>
    match pumpRound st with
    | .more call _ => call
    | _ => none

def sketchNext (s : Server) (cnx : Cnx) (streamId : UInt64) : Option Bytes :=
  match s.nextCall cnx streamId with
  | some (.sketchSub topic) => if (s.getOrCreateRoom topic).2 = SENTINEL then none else some topic
  | _ => none

def targets (s : Server) (cnx : Cnx) (rttMicros : UInt64) : Call → List UInt64
  | .pub topic _ =>
    if (s.getOrCreateRoom topic).2 = SENTINEL then []
    else Ffi.pubTargets (s.getOrCreateRoom topic).1.core (s.getOrCreateRoom topic).2 (connIdOf cnx)
  | .zonePub m _ =>
    Ffi.zoneTargets (Ffi.entityMoveV s.core (connIdOf cnx) m.x m.y m.z (absMagnitude m.vx) (absMagnitude m.vy)
      (absMagnitude m.vz) (rttToTicks rttMicros)) (connIdOf cnx) m.x m.y m.z
  | .sketchFrame roomId frame =>
    if (sketchCoreApplyPacket s.sketch roomId frame).2 then Ffi.pubTargets s.core roomId (connIdOf cnx) else []
  | _ => []

theorem Sound.nodup_targets {s : Server} (sound : s.Sound) (roomId connId : UInt64) :
    (Ffi.pubTargets s.core roomId connId).Nodup := by
  unfold Ffi.pubTargets
  split
  · exact List.nodup_nil
  · rename_i room live
    exact (sound.nodup _ room live).filter _

theorem pumpOnce_next (s : Server) (cnx : Cnx) (streamId rttMicros : UInt64) : ∃ streams,
    s.nextCall cnx streamId = none ∧ s.pumpOnce cnx streamId rttMicros = s.withStreams streams ∨
      ∃ call, s.nextCall cnx streamId = some call ∧
        s.pumpOnce cnx streamId rttMicros = (handle cnx streamId rttMicros s call).1.withStreams streams := by
  unfold nextCall pumpOnce
  cases s.streams.lookup (cnx,streamId) with
  | none => exact ⟨s.streams,Or.inl ⟨rfl,rfl⟩⟩
  | some st =>
    dsimp only
    cases pumpRound st with
    | wait => exact ⟨s.streams,Or.inl ⟨rfl,rfl⟩⟩
    | stop after => exact ⟨_,Or.inl ⟨rfl,rfl⟩⟩
    | more call after =>
      cases call with
      | none => exact ⟨_,Or.inl ⟨rfl,rfl⟩⟩
      | some call => exact ⟨_,Or.inr ⟨call,rfl,rfl⟩⟩

theorem nextCall_frame {s : Server} {cnx : Cnx} {streamId roomId : UInt64} {frame : Bytes}
    (next : s.nextCall cnx streamId = some (.sketchFrame roomId frame)) : frame.length ≤ kMaxSketchFrame := by
  unfold nextCall at next
  split at next
  · cases next
  rename_i st _
  split at next
  · rename_i call after round
    subst call
    have taking := @pumpRound_taking st after _ (by rw [round]; exact Or.inr rfl)
    cases taking with
    | frame parsed sketch =>
      rw [pumpRound_frame parsed sketch] at round
      unfold takeFrame at round
      split at round
      · dsimp only at round
        split at round
        · cases round
        · rename_i small
          split at round
          · cases round
          · simp only [Round.more.injEq,Option.some.injEq,Call.sketchFrame.injEq] at round
            rw [← round.1.2,List.length_take]
            omega
      · cases round
  · cases next

end Server

def Call.sketchRoom : Call → Option UInt64
  | .sketchFrame roomId _ => some roomId
  | _ => none

structure Watched where
  server : Server
  lives : List Life

namespace Watched

def initial (roomCapacity : UInt32) : Watched := ⟨Server.initial roomCapacity,[]⟩

def micro (t : Watched) (step : Micro) : Watched where
  server := t.server.micro step
  lives := match step with
    | .arrive cnx streamId _ =>
      if t.server.streams.lookup (cnx,streamId) = none then ⟨cnx,streamId,t.server.writes.length,none⟩::t.lives
      else t.lives
    | .round cnx streamId _ =>
      match t.server.sketchNext cnx streamId with
      | none => t.lives
      | some topic => t.lives.map (fun x => if x.session.On cnx streamId then {x with topic := some topic} else x)
    | .finish cnx streamId => t.lives.filter (fun x => ¬ x.session.On cnx streamId)
    | .hangUp cnx _ => t.lives.filter (fun x => x.cnx ≠ cnx)

/-- The bytes of every stream that joined a room are packets of the room's history,
each behind its length in four little-endian bytes. -/
def SketchFramed (t : Watched) : Prop :=
  ∀ x ∈ t.lives, ∀ topic, x.topic = some topic →
    ∃ (roomId : UInt64) (packets : List Bytes), t.server.topicToRoom.lookup topic = some roomId ∧
      x.bytes t.server = packets.flatMap (fun packet => lenPrefix packet.length ++ packet) ∧
      ∀ packet ∈ packets, packet ∈ t.server.sketch.history roomId ∧
        (readU32LE (lenPrefix packet.length) 0).toNat = packet.length

/-- A call relays to a stream that joined a room only frames of that room, and a
stream joins a room before anything is written to it. -/
def Fits (t : Watched) (cnx : Cnx) (streamId rttMicros : UInt64) (call : Call) : Prop :=
  (∀ x ∈ t.lives, x.topic.isSome → ∀ target ∈ t.server.targets cnx rttMicros call,
    t.server.delivery.lookup target = some (x.cnx,x.streamId) →
      call.sketchRoom.isSome ∧ call.sketchRoom = x.topic.bind t.server.topicToRoom.lookup) ∧
    (t.server.sketchNext cnx streamId ≠ none → ∀ x ∈ t.lives, x.session.On cnx streamId → x.written t.server = [])

instance (t : Watched) (cnx : Cnx) (streamId rttMicros : UInt64) (call : Call) :
    Decidable (t.Fits cnx streamId rttMicros call) :=
  -- through the list of targets, not through all 64-bit ids
  have (x : Life) : Decidable (∀ target ∈ t.server.targets cnx rttMicros call,
      t.server.delivery.lookup target = some (x.cnx,x.streamId) →
        call.sketchRoom.isSome ∧ call.sketchRoom = x.topic.bind t.server.topicToRoom.lookup) :=
    List.decidableBAll _ _
  inferInstanceAs (Decidable (_ ∧ _))

def OnlyFrames (t : Watched) : Micro → Prop
  | .round cnx streamId rttMicros => ∀ call ∈ t.server.nextCall cnx streamId, t.Fits cnx streamId rttMicros call
  | _ => True

instance (t : Watched) : (step : Micro) → Decidable (t.OnlyFrames step)
  | .round cnx streamId rttMicros =>
    inferInstanceAs (Decidable (∀ call ∈ t.server.nextCall cnx streamId, t.Fits cnx streamId rttMicros call))
  | .arrive _ _ _ => inferInstanceAs (Decidable True)
  | .finish _ _ => inferInstanceAs (Decidable True)
  | .hangUp _ _ => inferInstanceAs (Decidable True)

/-- A payload that is no sketch frame spares the streams that joined a room. -/
theorem Fits.spares {t : Watched} {cnx : Cnx} {streamId rttMicros : UInt64} {call : Call}
    (fits : t.Fits cnx streamId rttMicros call) (plain : call.sketchRoom = none) (x : Life) (member : x ∈ t.lives)
    (joined : x.topic.isSome) (target : UInt64) (aimed : target ∈ t.server.targets cnx rttMicros call) :
    t.server.delivery.lookup target ≠ some (x.cnx,x.streamId) := by
  intro delivered
  have frame := (fits.1 x member joined target aimed delivered).1
  rw [plain] at frame
  cases frame

/-- The invariant behind it, on the writes themselves. -/
structure Frames (t : Watched) : Prop where
  sound : t.server.Sound
  marked : ∀ x ∈ t.lives, x.mark ≤ t.server.writes.length
  capped : ∀ roomId, ∀ packet ∈ t.server.sketch.history roomId, packet.length ≤ kMaxSketchFrame
  carries : ∀ x ∈ t.lives, ∀ topic, x.topic = some topic →
    ∃ (roomId : UInt64) (packets : List Bytes), t.server.topicToRoom.lookup topic = some roomId ∧
      x.written t.server = packets.flatMap (framed x.cnx x.streamId) ∧
      ∀ packet ∈ packets, packet ∈ t.server.sketch.history roomId

theorem Frames.sketchFramed {t : Watched} (frames : Frames t) : t.SketchFramed := by
  intro x member topic joined
  obtain ⟨roomId,packets,room,written,accepted⟩ := frames.carries x member topic joined
  refine ⟨roomId,packets,room,?_,fun packet sent => ⟨accepted packet sent,?_⟩⟩
  · rw [Life.bytes,written,List.flatMap_assoc]
    congr 1
    funext packet
    simp [framed]
  · have small := frames.capped roomId packet (accepted packet sent)
    have value := readU32LE_lenPrefix packet.length []
    rw [List.append_nil] at value
    rw [value,UInt32.toNat_ofNat']
    simp only [kMaxSketchFrame] at small
    omega

/-- A step that leaves the streams as they are: what it writes to a stream that
joined a room must be frames of the room. -/
theorem Frames.grow {t t' : Watched} (frames : Frames t) {new : List Write} (sound : t'.server.Sound)
    (lives : t'.lives = t.lives) (writes : t'.server.writes = t.server.writes ++ new)
    (topics : ∀ topic roomId, t.server.topicToRoom.lookup topic = some roomId →
      t'.server.topicToRoom.lookup topic = some roomId)
    (capped : ∀ roomId, ∀ packet ∈ t'.server.sketch.history roomId, packet.length ≤ kMaxSketchFrame)
    (history : ∀ roomId, ∀ packet ∈ t.server.sketch.history roomId, packet ∈ t'.server.sketch.history roomId)
    (sent : ∀ x ∈ t.lives, ∀ topic roomId, x.topic = some topic → t.server.topicToRoom.lookup topic = some roomId →
      ∃ packets : List Bytes, x.share new = packets.flatMap (framed x.cnx x.streamId) ∧
        ∀ packet ∈ packets, packet ∈ t'.server.sketch.history roomId) : Frames t' where
  sound := sound
  marked := by
    intro x member
    rw [writes,List.length_append]
    exact Nat.le_add_right_of_le (frames.marked x (lives ▸ member))
  capped := capped
  carries := by
    intro x member topic joined
    rw [lives] at member
    obtain ⟨roomId,before,room,written,accepted⟩ := frames.carries x member topic joined
    obtain ⟨packets,share,fresh⟩ := sent x member topic roomId joined room
    refine ⟨roomId,before ++ packets,topics topic roomId room,?_,?_⟩
    · rw [Life.written_grow (frames.marked x member) writes,written,share,List.flatMap_append]
    · intro packet inside
      rcases List.mem_append.mp inside with old | new
      · exact history roomId packet (accepted packet old)
      · exact fresh packet new

/-- A call that only relays: nothing of it reaches a stream that joined a room. -/
theorem Frames.relay {t t' : Watched} (frames : Frames t) {targets : List UInt64} {pieces : List Bytes}
    (sound : t'.server.Sound) (lives : t'.lives = t.lives)
    (writes : t'.server.writes = t.server.writes ++ targets.flatMap (Server.deliveries t.server.delivery pieces))
    (topics : ∀ topic roomId, t.server.topicToRoom.lookup topic = some roomId →
      t'.server.topicToRoom.lookup topic = some roomId)
    (sketch : t'.server.sketch = t.server.sketch)
    (spared : ∀ x ∈ t.lives, x.topic.isSome → ∀ target ∈ targets,
      t.server.delivery.lookup target ≠ some (x.cnx,x.streamId)) : Frames t' := by
  refine frames.grow sound lives writes topics (by rw [sketch]; exact frames.capped)
    (fun roomId packet old => by rwa [sketch]) ?_
  intro x member topic roomId joined _
  exact ⟨[],Life.share_spared (spared x member (by rw [joined]; rfl)) pieces,by simp⟩

theorem Frames.quiet {t t' : Watched} (frames : Frames t) (sound : t'.server.Sound) (lives : t'.lives = t.lives)
    (writes : t'.server.writes = t.server.writes)
    (topics : ∀ topic roomId, t.server.topicToRoom.lookup topic = some roomId →
      t'.server.topicToRoom.lookup topic = some roomId)
    (sketch : t'.server.sketch = t.server.sketch) : Frames t' :=
  @Frames.relay t t' frames [] [] sound lives (writes.trans (List.append_nil _).symm) topics sketch (by simp)

theorem Frames.frame {t t' : Watched} (frames : Frames t) {cnx : Cnx} {streamId rttMicros roomId : UInt64}
    {frame : Bytes} (next : t.server.nextCall cnx streamId = some (.sketchFrame roomId frame))
    (fits : t.Fits cnx streamId rttMicros (.sketchFrame roomId frame)) (sound : t'.server.Sound)
    (lives : t'.lives = t.lives) {streams : AList (fun _ : Cnx × UInt64 => StreamState)}
    (server : t'.server = (t.server.handleSketchFrame cnx roomId frame).withStreams streams) : Frames t' := by
  obtain ⟨_,_,histories⟩ := sketchCoreApplyPacket_spec t.server.sketch roomId frame
  rw [Server.handleSketchFrame_eq] at server
  have sketch : t'.server.sketch = (sketchCoreApplyPacket t.server.sketch roomId frame).1 := by rw [server]; rfl
  have grown (other : UInt64) (packet : Bytes) : packet ∈ t'.server.sketch.history other ↔
      packet ∈ t.server.sketch.history other ∨
        packet = frame ∧ other = roomId ∧ (sketchCoreApplyPacket t.server.sketch roomId frame).2 = true := by
    rw [sketch,histories]
    split
    · rename_i here
      simp [here]
    · rename_i elsewhere
      simp [elsewhere]
  have writes : t'.server.writes = t.server.writes ++ (t.server.targets cnx rttMicros (.sketchFrame roomId frame)).flatMap
      (Server.deliveries t.server.delivery [lenPrefix frame.length,frame]) := by
    rw [server,Server.targets]
    split <;> simp_all [Server.withStreams]
  refine frames.grow sound lives writes (fun _ _ found => by rw [server]; exact found) ?_
    (fun other packet old => (grown other packet).mpr (Or.inl old)) ?_
  · intro other packet inside
    rcases (grown other packet).mp inside with old | ⟨rfl,_⟩
    · exact frames.capped other packet old
    · exact Server.nextCall_frame next
  · intro x member topic other joined room
    have nodup : (t.server.targets cnx rttMicros (.sketchFrame roomId frame)).Nodup := by
      simp only [Server.targets]
      split
      · exact frames.sound.nodup_targets roomId (connIdOf cnx)
      · exact List.nodup_nil
    rcases Life.share_frame frames.sound x nodup frame with nothing | ⟨once,target,aimed,delivered⟩
    · exact ⟨[],nothing,by simp⟩
    · -- the frame reaches the stream, so the stream joined the frame's room
      obtain ⟨_,sameRoom⟩ := fits.1 x member (by rw [joined]; rfl) target aimed delivered
      have accepted : (sketchCoreApplyPacket t.server.sketch roomId frame).2 = true := by
        simp only [Server.targets] at aimed
        split at aimed
        · assumption
        · cases aimed
      have here : other = roomId := by
        rw [joined] at sameRoom
        exact Option.some.inj (room.symm.trans sameRoom.symm)
      refine ⟨[frame],by simpa using once,?_⟩
      intro packet inside
      exact (grown other packet).mpr (Or.inr ⟨by simpa using inside,here,accepted⟩)

theorem Frames.join {t t' : Watched} (frames : Frames t) {cnx : Cnx} {streamId : UInt64} {topic : Bytes}
    (real : (t.server.getOrCreateRoom topic).2 ≠ SENTINEL)
    (silent : ∀ x ∈ t.lives, x.session.On cnx streamId → x.written t.server = []) (sound : t'.server.Sound)
    (lives : t'.lives =
      t.lives.map (fun x => if x.session.On cnx streamId then {x with topic := some topic} else x))
    {streams : AList (fun _ : Cnx × UInt64 => StreamState)}
    (server : t'.server = (t.server.handleSketchSub cnx streamId topic).1.withStreams streams) : Frames t' := by
  have found := frames.sound.getOrCreateRoom topic
  simp only [Server.handleSketchSub,if_neg real,Server.replay_eq] at server
  let packets := sketchCoreHistory t.server.sketch (t.server.getOrCreateRoom topic).2
  have sketch : t'.server.sketch = t.server.sketch := by rw [server]; exact found.sketch
  have writes : t'.server.writes = t.server.writes ++ Server.replay cnx streamId packets := by
    rw [server]
    simp only [Server.withStreams,Server.subscribe,found.writes,found.sketch]
    rfl
  have topics (other : Bytes) (roomId : UInt64) (known : t.server.topicToRoom.lookup other = some roomId) :
      t'.server.topicToRoom.lookup other = some roomId := by
    rw [server]
    exact found.kept other roomId known
  have was {x : Life} (member : x ∈ t'.lives) : ∃ old ∈ t.lives, x.session = old.session ∧
      x.topic = if old.session.On cnx streamId then some topic else old.topic := by
    rw [lives] at member
    obtain ⟨old,inside,rfl⟩ := List.mem_map.mp member
    refine ⟨old,inside,?_⟩
    split <;> exact ⟨rfl,rfl⟩
  have marked (x : Life) (member : x ∈ t'.lives) : x.mark ≤ t.server.writes.length := by
    obtain ⟨old,inside,same,_⟩ := was member
    rw [show x.mark = old.mark from congrArg Session.mark same]
    exact frames.marked old inside
  refine ⟨sound,?_,by rw [sketch]; exact frames.capped,?_⟩
  · intro x member
    rw [writes,List.length_append]
    exact Nat.le_add_right_of_le (marked x member)
  · intro x member other joined
    obtain ⟨old,inside,same,ontoTopic⟩ := was member
    have before : x.written t.server = old.written t.server := by rw [Life.written,same]; rfl
    rw [Life.written_grow (marked x member) writes,before,Life.share_replay,same]
    split
    · rename_i on
      rw [if_pos on,joined] at ontoTopic
      obtain rfl := Option.some.inj ontoTopic
      refine ⟨_,packets,by rw [server]; exact found.here real,by rw [silent old inside on]; rfl,?_⟩
      intro packet replayed
      rw [sketch]
      have taken : packets = _ := sketchCoreHistory_eq _ _
      rw [taken] at replayed
      exact List.mem_of_mem_take replayed
    · rename_i off
      rw [if_neg off,joined] at ontoTopic
      obtain ⟨roomId,sent,room,written,accepted⟩ := frames.carries old inside other ontoTopic.symm
      refine ⟨roomId,sent,topics _ _ room,?_,by rw [sketch]; exact accepted⟩
      rw [written,List.append_nil]
      rw [show x.cnx = old.cnx from congrArg Session.cnx same,
        show x.streamId = old.streamId from congrArg Session.streamId same]

theorem Frames.round {t : Watched} (frames : Frames t) {cnx : Cnx} {streamId rttMicros : UInt64}
    (only : t.OnlyFrames (.round cnx streamId rttMicros)) : Frames (t.micro (.round cnx streamId rttMicros)) := by
  have sound := frames.sound.micro (.round cnx streamId rttMicros)
  have unjoined (other : t.server.sketchNext cnx streamId = none) :
      (t.micro (.round cnx streamId rttMicros)).lives = t.lives := by simp only [micro,other]
  obtain ⟨streams,⟨idle,server⟩ | ⟨call,next,server⟩⟩ := t.server.pumpOnce_next cnx streamId rttMicros
  all_goals
    change (t.micro (.round cnx streamId rttMicros)).server = _ at server
    change (t.micro (.round cnx streamId rttMicros)).server.Sound at sound
  · refine frames.quiet sound (unjoined (by simp only [Server.sketchNext,idle])) (by rw [server]; rfl) ?_
      (by rw [server]; rfl)
    exact fun _ _ known => by rw [server]; exact known
  · have fits := only call next
    cases call with
    | sub topic =>
      have found := frames.sound.getOrCreateRoom topic
      simp only [Server.handle,Server.handleSub] at server
      refine frames.quiet sound (unjoined (by simp only [Server.sketchNext,next])) ?_ ?_ ?_
      · rw [server]
        split <;> exact found.writes
      · intro other roomId known
        rw [server]
        split <;> exact found.kept other roomId known
      · rw [server]
        split <;> exact found.sketch
    | sketchSub topic =>
      have found := frames.sound.getOrCreateRoom topic
      by_cases refused : (t.server.getOrCreateRoom topic).2 = SENTINEL
      · simp only [Server.handle,Server.handleSketchSub,if_pos refused] at server
        refine frames.quiet sound (unjoined (by simp only [Server.sketchNext,next,if_pos refused]))
          (by rw [server]; exact found.writes) ?_ (by rw [server]; exact found.sketch)
        intro other roomId known
        rw [server]
        exact found.kept other roomId known
      · have accepts : t.server.sketchNext cnx streamId = some topic := by
          simp only [Server.sketchNext,next,if_neg refused]
        exact frames.join refused (fits.2 (by simp [accepts])) sound (by simp only [micro,accepts]) server
    | sketchFrame roomId frame =>
      exact frames.frame next fits sound (unjoined (by simp only [Server.sketchNext,next])) server
    | pub topic payload =>
      have found := frames.sound.getOrCreateRoom topic
      simp only [Server.handle,Server.handlePub,Server.relay_eq,found.delivery,found.writes] at server
      refine @Frames.relay t _ frames _ [payload] sound (unjoined (by simp only [Server.sketchNext,next])) ?_ ?_ ?_
        (fits.spares rfl)
      · rw [server,Server.targets]
        split
        · exact found.writes.trans (List.append_nil _).symm
        · rfl
      · intro other roomId known
        rw [server]
        split <;> exact found.kept other roomId known
      · rw [server]
        split <;> exact found.sketch
    | zoneSub =>
      refine frames.quiet sound (unjoined (by simp only [Server.sketchNext,next])) (by rw [server]; rfl) ?_
        (by rw [server]; rfl)
      exact fun _ _ known => by rw [server]; exact known
    | zonePub motion payload =>
      simp only [Server.handle,Server.handleZonePub,Server.relay_eq] at server
      refine @Frames.relay t _ frames _ [payload] sound (unjoined (by simp only [Server.sketchNext,next]))
        (by rw [server]; rfl) ?_ (by rw [server]; rfl) (fits.spares rfl)
      exact fun _ _ known => by rw [server]; exact known

theorem Frames.close {t t' : Watched} (frames : Frames t) {cnx : Cnx} (sound : t'.server.Sound)
    (closes : Sketching.Closes t.server t'.server cnx) (fewer : ∀ x ∈ t'.lives, x ∈ t.lives) : Frames t' where
  sound := sound
  marked := fun x member => by rw [closes.writes]; exact frames.marked x (fewer x member)
  capped := by rw [closes.sketch]; exact frames.capped
  carries := by
    intro x member topic joined
    obtain ⟨roomId,packets,room,written,accepted⟩ := frames.carries x (fewer x member) topic joined
    refine ⟨roomId,packets,by rw [closes.topics]; exact room,?_,by rw [closes.sketch]; exact accepted⟩
    rw [← written,Life.written,Session.written,closes.writes]
    rfl

theorem Frames.micro {t : Watched} (frames : Frames t) (step : Micro) (only : t.OnlyFrames step) :
    Frames (t.micro step) := by
  have sound := frames.sound.micro step
  cases step with
  | arrive cnx streamId bytes =>
    have opened (x : Life) (member : x ∈ (t.micro (.arrive cnx streamId bytes)).lives) :
        x ∈ t.lives ∨ x.mark = t.server.writes.length ∧ x.topic = none := by
      simp only [Watched.micro] at member
      split at member
      · rcases List.mem_cons.mp member with rfl | old
        · exact Or.inr ⟨rfl,rfl⟩
        · exact Or.inl old
      · exact Or.inl member
    refine ⟨sound,?_,frames.capped,?_⟩
    · intro x member
      rcases opened x member with old | ⟨mark,_⟩
      · exact frames.marked x old
      · exact Nat.le_of_eq mark
    · intro x member topic joined
      rcases opened x member with old | ⟨_,none⟩
      · exact frames.carries x old topic joined
      · rw [none] at joined
        cases joined
  | round cnx streamId rttMicros => exact frames.round only
  | finish cnx streamId =>
    refine frames.close sound ((Sketching.Closes.refl _ cnx).finish streamId) ?_
    exact fun x member => (List.mem_filter.mp member).1
  | hangUp cnx order =>
    refine frames.close sound (Sketching.Closes.hangUp t.server cnx order) ?_
    exact fun x member => (List.mem_filter.mp member).1

theorem Frames.initial (roomCapacity : UInt32) : Frames (Watched.initial roomCapacity) where
  sound := Server.Sound.initial roomCapacity
  marked := fun _ member => absurd member List.not_mem_nil
  capped := fun _ _ member => absurd member List.not_mem_nil
  carries := fun _ member => absurd member List.not_mem_nil

/-- In every run whose rounds relay only a room's own frames to the streams that
joined it, and let streams join before anything is written to them, those streams
carry nothing but framed packets of their room's history. -/
theorem sketch_streams_framed (roomCapacity : UInt32) (events : List Event)
    (only : Along micro OnlyFrames (initial roomCapacity) ((initial roomCapacity).server.steps events)) :
    Always micro SketchFramed (initial roomCapacity) ((initial roomCapacity).server.steps events) :=
  always_mono micro (fun _ frames => frames.sketchFramed)
    (always_of_along micro Frames OnlyFrames (fun _ step frames only => frames.micro step only) _ _
      (Frames.initial roomCapacity) only)

/-- Two connections join, and a stroke of the first is relayed to the second. -/
theorem sketch_streams_framed_two :
    Along micro OnlyFrames (initial 64) ((initial 64).server.steps [joinA ⟨1⟩,joinA ⟨2⟩,draw 0]) ∧
      ((run micro (initial 64) ((initial 64).server.steps [joinA ⟨1⟩,joinA ⟨2⟩,draw 0])).server.writes).length = 2 ∧
      Always micro SketchFramed (initial 64) ((initial 64).server.steps [joinA ⟨1⟩,joinA ⟨2⟩,draw 0]) := by
  have only : Along micro OnlyFrames (initial 64)
      ((initial 64).server.steps [joinA ⟨1⟩,joinA ⟨2⟩,draw 0]) := by decide +kernel
  exact ⟨only,by decide +kernel,sketch_streams_framed 64 _ only⟩

/-- One connection joins the topic with `SKB a`, another one publishes a packet to it with `PUB a`. -/
def publishedOver : List Event :=
  [joinA ⟨1⟩,.streamData ⟨2⟩ 0 ([80,85,66,32,97,10] ++ List.replicate 100 1) 0]

theorem publish_breaks_framing :
    ¬ Always micro SketchFramed (initial 64) ((initial 64).server.steps publishedOver) := by
  intro always
  have framed := always_run _ _ _ _ always
  let t := run micro (initial 64) ((initial 64).server.steps publishedOver)
  have lives : t.lives = [⟨⟨2⟩,0,0,none⟩,⟨⟨1⟩,0,0,some [97]⟩] := by decide +kernel
  have bytes : (⟨⟨1⟩,0,0,some [97]⟩ : Life).bytes t.server = List.replicate 100 1 := by decide +kernel
  have empty : t.server.sketch = FfiState.initial := by decide +kernel
  have member : ⟨⟨1⟩,0,0,some [97]⟩ ∈ t.lives := by rw [lives]; simp
  obtain ⟨roomId,packets,_,carried,accepted⟩ := framed _ member [97] rfl
  obtain rfl : packets = [] := by
    cases packets with
    | nil => rfl
    | cons packet later =>
      have inside := (accepted packet (by simp)).1
      rw [empty] at inside
      cases inside
  rw [bytes] at carried
  cases carried

end Watched

end WarpLoop.Bridge
