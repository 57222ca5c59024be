import WarpLoop.Sketch.Convergence
import WarpLoop.Bridge.SketchFrames
import WarpLoop.Bridge.SketchFraming

/-! Convergence from end to end (examples/test_sketch_convergence.py): a client replays what it
sent, whether the server took it into the log or not, and what it received, and the graph that it
prints is the one of the server's room. -/
namespace WarpLoop.Bridge
open WarpLoop.Core Sketch Lib.Runs SlotMap

/-! A client. -/

/-- The client's parser of the bytes it received, which leaves what is not a whole frame. -/
def receivedFrom (buf : Bytes) (off : Nat) : List Bytes :=
  if off + 4 ≤ buf.length then
    let length := (readU32LE buf off).toNat
    if off + 4 + length > buf.length then []
    else (buf.drop (off + 4)).take length :: receivedFrom buf (off + 4 + length)
  else []
termination_by buf.length - off

def receivedFrames (buf : Bytes) : List Bytes := receivedFrom buf 0

/-- The packets go through a file and the replay tool, which prints the graph. -/
def dumpGraph (packets : List Bytes) : Except DumpError String :=
  (graphDump (packets.flatMap frameBytes)).map RoomHistory.graphJson

theorem received_of_dump {bytes : Bytes} {before frames : List Bytes} {off : Nat}
    (read : dumpLoop (fun acc packet => acc ++ [packet]) bytes before off = .ok frames) :
    frames = before ++ receivedFrom bytes off := by
  induction before, off using dumpLoop.induct (fun (acc : List Bytes) packet => acc ++ [packet]) bytes with
  | case1 before off room len short =>
    rw [dumpLoop,if_pos room,if_pos short] at read
    contradiction
  | case2 before off room len whole ih =>
    rw [dumpLoop,if_pos room,if_neg whole] at read
    rw [receivedFrom,if_pos room,if_neg whole,ih read,List.append_assoc]
    rfl
  | case3 before off short garbage =>
    rw [dumpLoop,if_neg short,if_pos garbage] at read
    contradiction
  | case4 before off short atEnd =>
    rw [dumpLoop,if_neg short,if_neg atEnd] at read
    rw [receivedFrom,if_neg short,List.append_nil]
    exact (Except.ok.inj read).symm

theorem receivedFrames_frames {packets : List Bytes} (small : ∀ packet ∈ packets, Admitted packet) :
    receivedFrames (packets.flatMap frameBytes) = packets := by
  have read := dumpLoop_frames (fun acc packet => acc ++ [packet]) ([] : List Bytes) [] packets small
  have frames := received_of_dump read
  have collected (l : List Bytes) : ∀ acc : List Bytes, l.foldl (fun acc packet => acc ++ [packet]) acc = acc ++ l := by
    induction l with
    | nil => simp
    | cons packet l ih => simp [ih]
  rw [collected,List.nil_append,List.nil_append] at frames
  exact frames.symm

theorem dumpGraph_eq {packets : List Bytes} (small : ∀ packet ∈ packets, Admitted packet) :
    dumpGraph packets = .ok (RoomHistory.replay packets).graphJson := by
  have read := dumpLoop_frames (fun h packet => (h.apply packet).1) RoomHistory.empty [] packets small
  rw [List.nil_append,List.length_nil] at read
  rw [dumpGraph,graphDump,read]
  rfl

/-! The logs of the server. -/

/-- Every log of the server holds valid packets of admitted length, one of each key. -/
structure Clean (s : FfiState) : Prop where
  logged : ∀ roomId, RoomHistory.Logged (s.room roomId).packets (s.room roomId)
  valid : ∀ roomId, ∀ packet ∈ (s.room roomId).packets, (StrokePacket.decode packet).isSome
  capped : ∀ roomId, ∀ packet ∈ (s.room roomId).packets, Admitted packet

theorem clean_initial : Clean FfiState.initial where
  logged _ := RoomHistory.logged_replay []
  valid _ _ member := absurd member List.not_mem_nil
  capped _ _ member := absurd member List.not_mem_nil

theorem Clean.apply {s : FfiState} (clean : Clean s) {frame : Bytes} (small : Admitted frame) (roomId : UInt64) :
    Clean (sketchCoreApplyPacket s roomId frame).1 := by
  have packets : ∀ packet ∈ ((s.room roomId).apply frame).1.packets,
      packet ∈ (s.room roomId).packets ∨ packet = frame ∧ (StrokePacket.decode frame).isSome := by
    intro packet member
    rw [RoomHistory.apply_packets] at member
    split at member
    case isTrue accepted =>
      rcases List.mem_append.mp member with old | new
      · exact Or.inl old
      · refine Or.inr ⟨List.mem_singleton.mp new,?_⟩
        cases found : StrokePacket.decode frame with
        | none => simp [RoomHistory.apply,found] at accepted
        | some p => rfl
    case isFalse => exact Or.inl member
  refine ⟨fun other => ?_,fun other => ?_,fun other => ?_⟩ <;> rw [sketchCoreApplyPacket_room] <;> split
  · exact (RoomHistory.logged_apply (clean.logged roomId) frame).self
  · exact clean.logged other
  · intro packet member
    rcases packets packet member with old | ⟨rfl,valid⟩
    · exact clean.valid roomId packet old
    · exact valid
  · exact clean.valid other
  · intro packet member
    rcases packets packet member with old | ⟨rfl,_⟩
    · exact clean.capped roomId packet old
    · exact small
  · exact clean.capped other

/-- A step of the server leaves the logs as they are, or applies one frame that its parser let through. -/
theorem sketch_micro {s : Server} (sound : s.Sound) (step : Micro) :
    (s.micro step).sketch = s.sketch ∨
      ∃ roomId frame, Admitted frame ∧ (s.micro step).sketch = (sketchCoreApplyPacket s.sketch roomId frame).1 := by
  cases step with
  | arrive cnx streamId bytes => exact Or.inl rfl
  | finish cnx streamId => exact Or.inl ((Sketching.Closes.refl s cnx).finish streamId).sketch
  | hangUp cnx order => exact Or.inl (Sketching.Closes.hangUp s cnx order).sketch
  | round cnx streamId rttMicros =>
    obtain ⟨streams,⟨_,server⟩ | ⟨call,next,server⟩⟩ := s.pumpOnce_next cnx streamId rttMicros
    · exact Or.inl (by rw [Server.micro,server]; rfl)
    rw [Server.micro,server]
    cases call with
    | sub topic =>
      left
      simp only [Server.handle,Server.handleSub]
      split <;> exact (sound.getOrCreateRoom topic).sketch
    | sketchSub topic =>
      left
      simp only [Server.handle,Server.handleSketchSub,Server.replay_eq]
      split <;> exact (sound.getOrCreateRoom topic).sketch
    | sketchFrame roomId frame =>
      refine Or.inr ⟨roomId,frame,Server.nextCall_frame next,?_⟩
      simp only [Server.handle,Server.handleSketchFrame_eq]
      rfl
    | pub topic payload =>
      left
      simp only [Server.handle,Server.handlePub,Server.relay_eq]
      split <;> exact (sound.getOrCreateRoom topic).sketch
    | zoneSub => exact Or.inl rfl
    | zonePub motion payload =>
      left
      simp only [Server.handle,Server.handleZonePub,Server.relay_eq]
      rfl

theorem Clean.micro {s : Server} (clean : Clean s.sketch) (sound : s.Sound) (step : Micro) : Clean (s.micro step).sketch := by
  rcases sketch_micro sound step with same | ⟨roomId,frame,small,applied⟩
  · rwa [same]
  · rw [applied]
    exact clean.apply small roomId

/-! The clients. -/

namespace Server

/-- The frame that the next round of the stream takes, valid or not. -/
def frameTaken (s : Server) (cnx : Cnx) (streamId : UInt64) : Option Bytes :=
  match s.nextCall cnx streamId with
  | some (.sketchFrame _ frame) => some frame
  | _ => none

end Server

/-- The relay with all the frames that its clients have sent on the streams still open, as far as they have been taken. -/
structure Drawing where
  sketching : Sketching
  frames : List (Cnx × UInt64 × Bytes)

namespace Drawing

def initial (roomCapacity : UInt32) : Drawing := ⟨Sketching.initial roomCapacity,[]⟩

def micro (t : Drawing) (step : Micro) : Drawing where
  sketching := t.sketching.micro step
  frames := match step with
    | .arrive _ _ _ => t.frames
    | .round cnx streamId _ => t.frames ++ ((t.sketching.server.frameTaken cnx streamId).map (cnx,streamId,·)).toList
    | .finish cnx streamId => t.frames.filter (fun f => ¬ (f.1 = cnx ∧ f.2.1 = streamId))
    | .hangUp cnx _ => t.frames.filter (fun f => f.1 ≠ cnx)

/-- What the client of a session has sent. -/
def sentBy (t : Drawing) (x : Session) : List Bytes := (t.frames.filter (fun f => x.On f.1 f.2.1)).map (fun f => f.2.2)

/-- Every client that joined the topic prints, from the packets that it sent and the bytes that were
written to its stream, the graph of the server's room. -/
def SameGraph (topic : Bytes) (t : Drawing) : Prop :=
  ∀ x ∈ t.sketching.sessions, ∃ roomId, t.sketching.server.topicToRoom.lookup topic = some roomId ∧
    dumpGraph (t.sentBy x ++ receivedFrames ((x.written t.sketching.server).flatMap Write.bytes)) =
      .ok (sketchGraphJson t.sketching.server.sketch roomId)

end Drawing

namespace Sketching

/-- A valid packet that is refused is a repetition: the log holds it already, and not another one under its key. -/
def RefusalsRepeat (t : Sketching) : Micro → Prop
  | .round cnx streamId _ =>
    match t.server.nextCall cnx streamId with
    | some (.sketchFrame roomId frame) => (StrokePacket.decode frame).isSome →
        (sketchCoreApplyPacket t.server.sketch roomId frame).2 = false → frame ∈ t.server.sketch.history roomId
    | _ => True
  | _ => True

instance decidableRefusals (t : Sketching) : (step : Micro) → Decidable (t.RefusalsRepeat step)
  | .round cnx streamId _ => by
    unfold RefusalsRepeat
    dsimp only
    split <;> infer_instance
  | .arrive _ _ _ => inferInstanceAs (Decidable True)
  | .finish _ _ => inferInstanceAs (Decidable True)
  | .hangUp _ _ => inferInstanceAs (Decidable True)

/-- A frame comes from a stream that has joined. -/
theorem Relays.frame_room {topic : Bytes} {t : Sketching} (relays : Relays topic t) {cnx : Cnx} {streamId roomId : UInt64}
    {frame : Bytes} (next : t.server.nextCall cnx streamId = some (.sketchFrame roomId frame)) :
    t.server.topicToRoom.lookup topic = some roomId := by
  unfold Server.nextCall at next
  split at next
  · cases next
  rename_i st here
  split at next
  · rename_i call after round
    subst call
    have taking := @pumpRound_taking st after _ (by rw [round]; exact Or.inr rfl)
    cases taking with
    | frame parsed sketch => exact (relays.joined cnx streamId st here parsed).1
  · cases next

theorem sketchGraphJson_room (s : FfiState) (roomId : UInt64) : sketchGraphJson s roomId = (s.room roomId).graphJson := by
  unfold sketchGraphJson FfiState.room
  cases s.rooms.lookup roomId <;> rfl

/-- A log never loses a packet. -/
theorem history_micro {s : Server} (sound : s.Sound) (step : Micro) {roomId : UInt64} {packet : Bytes}
    (held : packet ∈ s.sketch.history roomId) : packet ∈ (s.micro step).sketch.history roomId := by
  rcases sketch_micro sound step with same | ⟨other,frame,_,applied⟩
  · rwa [same]
  · rw [applied,(sketchCoreApplyPacket_spec s.sketch other frame).2.2]
    split
    · exact List.mem_append_left _ held
    · exact held

end Sketching

namespace Drawing
open Sketching

/-- The valid frames of the clients are in the log, and what was accepted from a session is among them. -/
structure Sends (topic : Bytes) (t : Drawing) : Prop where
  logged : ∀ f ∈ t.frames, ∃ roomId, t.sketching.server.topicToRoom.lookup topic = some roomId ∧ Admitted f.2.2 ∧
    ((StrokePacket.decode f.2.2).isSome → f.2.2 ∈ t.sketching.server.sketch.history roomId)
  mine : ∀ x ∈ t.sketching.sessions, ∀ packet ∈ x.mine, (x.cnx,x.streamId,packet) ∈ t.frames

theorem frameNext_taken {s : Server} {cnx : Cnx} {streamId : UInt64} {frame : Bytes}
    (accepted : s.frameNext cnx streamId = some frame) : s.frameTaken cnx streamId = some frame := by
  unfold Server.frameNext at accepted
  unfold Server.frameTaken Server.nextCall
  cases found : s.streams.lookup (cnx,streamId) with
  | none => rw [found] at accepted; cases accepted
  | some st =>
    rw [found] at accepted
    dsimp only at accepted ⊢
    split at accepted
    · rename_i roomId packet after round
      rw [round]
      split at accepted
      · exact accepted
      · cases accepted
    · cases accepted

theorem topics_micro {topic : Bytes} {t : Sketching} (relays : Relays topic t) (step : Micro) {roomId : UInt64}
    (known : t.server.topicToRoom.lookup topic = some roomId) : (t.server.micro step).topicToRoom.lookup topic = some roomId := by
  cases step with
  | arrive cnx streamId bytes => exact known
  | round cnx streamId rttMicros => exact (relays.sound.keeps_pumpOnce cnx streamId rttMicros).topics _ _ known
  | finish cnx streamId =>
    change (t.server.finish cnx streamId).topicToRoom.lookup topic = _
    rw [((Closes.refl t.server cnx).finish streamId).topics]
    exact known
  | hangUp cnx order =>
    rw [(Closes.hangUp t.server cnx order).topics]
    exact known

theorem Sends.micro {topic : Bytes} {t : Drawing} (sends : Sends topic t) (relays : Relays topic t.sketching) (step : Micro)
    (known : t.sketching.RefusalsRepeat step) : Sends topic (t.micro step) := by
  obtain ⟨logged,mine⟩ := sends
  have sound := relays.sound
  have kept : ∀ f ∈ t.frames, ∃ roomId, (t.sketching.server.micro step).topicToRoom.lookup topic = some roomId ∧ Admitted f.2.2 ∧
      ((StrokePacket.decode f.2.2).isSome → f.2.2 ∈ (t.sketching.server.micro step).sketch.history roomId) := by
    intro f member
    obtain ⟨roomId,room,small,held⟩ := logged f member
    exact ⟨roomId,topics_micro relays step room,small,fun valid => history_micro sound step (held valid)⟩
  cases step with
  | arrive cnx streamId bytes => exact ⟨kept,mine⟩
  | finish cnx streamId =>
    refine ⟨fun f member => kept f (List.mem_filter.mp member).1,fun x member packet own => ?_⟩
    obtain ⟨old,off⟩ := List.mem_filter.mp member
    exact List.mem_filter.mpr ⟨mine x old packet own,off⟩
  | hangUp cnx order =>
    refine ⟨fun f member => kept f (List.mem_filter.mp member).1,fun x member packet own => ?_⟩
    obtain ⟨old,apart⟩ := List.mem_filter.mp member
    exact List.mem_filter.mpr ⟨mine x old packet own,apart⟩
  | round cnx streamId rttMicros =>
    constructor
    · intro f member
      rcases List.mem_append.mp member with old | new
      · exact kept f old
      rw [Option.mem_toList,Option.map_eq_some_iff] at new
      obtain ⟨frame,taken,rfl⟩ := new
      unfold Server.frameTaken at taken
      split at taken
      case h_2 => cases taken
      rename_i roomId frame' next
      obtain rfl := Option.some.inj taken
      refine ⟨roomId,topics_micro relays _ (relays.frame_room next),Server.nextCall_frame next,fun valid => ?_⟩
      simp only [RefusalsRepeat,next] at known
      have applied : (t.sketching.server.micro (.round cnx streamId rttMicros)).sketch =
          (sketchCoreApplyPacket t.sketching.server.sketch roomId frame').1 := by
        obtain ⟨streams,⟨idle,_⟩ | ⟨call,calls,server⟩⟩ := t.sketching.server.pumpOnce_next cnx streamId rttMicros
        · rw [next] at idle
          cases idle
        obtain rfl := Option.some.inj (next.symm.trans calls)
        rw [Server.micro,server]
        simp only [Server.handle,Server.handleSketchFrame_eq]
        rfl
      change frame' ∈ (t.sketching.server.micro (.round cnx streamId rttMicros)).sketch.history roomId
      rw [applied,(sketchCoreApplyPacket_spec t.sketching.server.sketch roomId frame').2.2]
      cases accepted : (sketchCoreApplyPacket t.sketching.server.sketch roomId frame').2 with
      | true => simp
      | false => simpa using known valid accepted
    · intro x member packet own
      change x ∈ (t.sketching.micro (.round cnx streamId rttMicros)).sessions at member
      simp only [Sketching.micro] at member
      split at member
      · rcases List.mem_cons.mp member with rfl | old
        · cases own
        · exact List.mem_append_left _ (mine x old packet own)
      split at member
      · exact List.mem_append_left _ (mine x member packet own)
      rename_i frame accepted
      obtain ⟨y,old,rfl⟩ := List.mem_map.mp member
      split at own
      case isFalse off =>
        rw [if_neg off]
        exact List.mem_append_left _ (mine y old packet own)
      case isTrue on =>
        obtain ⟨rfl,rfl⟩ := on
        rw [if_pos ⟨rfl,rfl⟩]
        rcases List.mem_append.mp own with before | last
        · exact List.mem_append_left _ (mine y old packet before)
        · rw [List.mem_singleton.mp last]
          refine List.mem_append_right _ ?_
          rw [frameNext_taken accepted]
          exact List.mem_singleton_self _

theorem Sends.sameGraph {topic : Bytes} {t : Drawing} (sends : Sends topic t) (relays : Relays topic t.sketching)
    (clean : Clean t.sketching.server.sketch) : t.SameGraph topic := by
  intro x member
  obtain ⟨roomId,sent,room,written,perm⟩ := relays.converges x member
  rw [← FfiState.room_packets] at perm
  have fromClient : ∀ packet ∈ t.sentBy x, Admitted packet ∧
      ((StrokePacket.decode packet).isSome → packet ∈ (t.sketching.server.sketch.room roomId).packets) := by
    intro packet own
    obtain ⟨f,taken,rfl⟩ := List.mem_map.mp own
    obtain ⟨roomId',room',small,held⟩ := sends.logged f (List.mem_filter.mp taken).1
    obtain rfl := Option.some.inj (room.symm.trans room')
    rw [FfiState.room_packets]
    exact ⟨small,held⟩
  have small : ∀ packet ∈ sent ++ x.mine, Admitted packet := fun packet inside =>
    clean.capped roomId packet (perm.mem_iff.mpr inside)
  have bytes : (x.written t.sketching.server).flatMap Write.bytes = sent.flatMap frameBytes := by
    rw [written,List.flatMap_assoc]
    congr 1
    funext packet
    simp [framed,frameBytes,lenPrefix_eq]
  have log : ∀ packet, (StrokePacket.decode packet).isSome →
      (packet ∈ (t.sketching.server.sketch.room roomId).packets ↔ packet ∈ t.sentBy x ++ sent) := by
    intro packet valid
    rw [List.mem_append]
    constructor
    · intro held
      rcases List.mem_append.mp (perm.mem_iff.mp held) with received | own
      · exact Or.inr received
      · exact Or.inl (List.mem_map.mpr ⟨_,List.mem_filter.mpr ⟨sends.mine x member packet own,by simp [Session.On]⟩,rfl⟩)
    · rintro (own | received)
      · exact (fromClient packet own).2 valid
      · exact perm.mem_iff.mpr (List.mem_append_left _ received)
  have readable : ∀ packet ∈ t.sentBy x ++ sent, Admitted packet := by
    intro packet inside
    rcases List.mem_append.mp inside with own | received
    · exact (fromClient packet own).1
    · exact small packet (List.mem_append_left _ received)
  refine ⟨roomId,room,?_⟩
  rw [bytes,receivedFrames_frames (fun packet inside => small packet (List.mem_append_left _ inside)),dumpGraph_eq readable,
    sketchGraphJson_room]
  have strokes := RoomHistory.strokes_eq_of_logged (clean.logged roomId) (RoomHistory.logged_replay (t.sentBy x ++ sent))
    (clean.logged roomId).consistent log
  rw [RoomHistory.graphJson,RoomHistory.graphJson,strokes]

/-- In every interleaving of joins, frames and closings on one topic, all clients that joined it
print the graph of the server's room, as long as every join finds a history that can be
counted in 32 bits and no key is used again for another packet. -/
theorem clients_print_room_graph (topic : Bytes) (roomCapacity : UInt32) (events : List Event)
    (only : Along Sketching.micro (OneTopic topic) (Sketching.initial roomCapacity)
      ((Server.initial roomCapacity).steps events))
    (counted : Along Sketching.micro (HistoryCounted topic) (Sketching.initial roomCapacity)
      ((Server.initial roomCapacity).steps events))
    (known : Along Sketching.micro RefusalsRepeat (Sketching.initial roomCapacity) ((Server.initial roomCapacity).steps events)) :
    Always micro (SameGraph topic) (initial roomCapacity) ((Server.initial roomCapacity).steps events) := by
  have along := @along_carried _ _ Drawing Sketching.micro micro _ Drawing.sketching (fun _ _ => rfl) (initial roomCapacity) _
    (along_and only (along_and counted known))
  have kept := always_of_along micro (fun t => Relays topic t.sketching ∧ Clean t.sketching.server.sketch ∧ Sends topic t) _
    (fun t step holds conditions => ⟨holds.1.micro step conditions.1 conditions.2.1,holds.2.1.micro holds.1.sound step,
      holds.2.2.micro holds.1 step conditions.2.2⟩) _ _
    ⟨Relays.initial topic roomCapacity,clean_initial,⟨fun _ member => absurd member List.not_mem_nil,
      fun _ member => absurd member List.not_mem_nil⟩⟩ along
  exact always_mono micro (fun _ holds => holds.2.2.sameGraph holds.1 holds.2.1) kept

/-- Two clients draw, one of them a stroke twice and the other one bytes that are no packet; a third joins late. -/
def drawings : List Event :=
  [joinA ⟨1⟩,joinA ⟨2⟩,draw 0,draw 0,.streamData ⟨2⟩ 0 (lenPrefix 18 ++ stroke 2) 0,.streamData ⟨2⟩ 0 (lenPrefix 1 ++ [0]) 0,joinA ⟨3⟩]

theorem clients_print_room_graph_three :
    (run micro (initial 64) ((Server.initial 64).steps drawings)).frames.map (fun f => (f.1,f.2.2)) =
        [(⟨1⟩,stroke 0),(⟨1⟩,stroke 0),(⟨2⟩,stroke 2),(⟨2⟩,[0])] ∧
      Always micro (SameGraph [97]) (initial 64) ((Server.initial 64).steps drawings) :=
  ⟨by decide +kernel,clients_print_room_graph [97] 64 drawings (by decide +kernel) (by decide +kernel) (by decide +kernel)⟩

end Drawing

end WarpLoop.Bridge
