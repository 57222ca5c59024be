import WarpLoop.Bridge.SketchRelay

/-! What a joined connection has seen of its room's log, over whole runs, and where
the 32-bit count of the log runs out. -/
namespace WarpLoop.Bridge
open WarpLoop.Core Sketch Lib.Runs SlotMap

/-! A first `SKB a` on a connection. -/

/-- `SKB a`. -/
def skbA : Bytes := [83,75,66,32,97,10]

def joinA (cnx : Cnx) : Event := .streamData cnx 0 skbA 0

/-- A stroke packet without samples whose peer id is `i`. -/
def stroke (i : Nat) : Bytes := [67,83,80,49] ++ lenPrefix i ++ List.replicate 10 0

/-- The first connection draws it. -/
def draw (i : Nat) : Event := .streamData ⟨1⟩ 0 (lenPrefix 18 ++ stroke i) 0

theorem stream_closed {s : Server} {cnx : Cnx} (closed : ∀ i st, ¬ s.Open cnx i st) (streamId : UInt64) :
    s.stream cnx streamId = {} := by
  cases found : s.streams.lookup (cnx,streamId) with
  | none => simp [Server.stream,found]
  | some st => exact absurd found (closed streamId st)

theorem micros_joinA (s : Server) (cnx : Cnx) (closed : ∀ i st, ¬ s.Open cnx i st) :
    s.micros (joinA cnx) = [.arrive cnx 0 skbA,.round cnx 0 0] := by
  have fresh := stream_closed closed 0
  have visits : (s.streamData cnx 0 skbA 0).2.length = 1 := by
    simp only [Server.streamData,fresh,receive]
    change (pumpStream _ 6 _ ({buf := skbA} : StreamState)).2.2.length = 1
    have round : pumpRound {buf := skbA} = .more (some (.sketchSub [97]))
        {topic := [97], headerParsed := true, isSketch := true} := rfl
    rw [pumpStream,round]
    dsimp only
    cases (Server.handle cnx 0 0 s (.sketchSub [97])).2 <;> rfl
  simp only [joinA,Server.micros,visits]
  rfl

namespace Sketching

theorem skbA_line : HeaderLine {buf := skbA} [83,75,66,32,97] [] .skb [97] :=
  ⟨rfl,rfl,[83,75,66],rfl,rfl⟩

theorem arrive_skbA {t : Sketching} {cnx : Cnx} (closed : ∀ i st, ¬ t.server.Open cnx i st) :
    (t.micro (.arrive cnx 0 skbA)).server = t.server.putStream cnx 0 {buf := skbA} := by
  simp only [micro,Server.micro,stream_closed closed]
  rfl

theorem oneTopic_joinA {t : Sketching} {cnx : Cnx} (closed : ∀ i st, ¬ t.server.Open cnx i st)
    (real : (t.server.getOrCreateRoom [97]).2 ≠ SENTINEL) :
    Along micro (OneTopic [97]) t (t.server.micros (joinA cnx)) := by
  rw [micros_joinA t.server cnx closed]
  refine ⟨fun i st there => absurd there (closed i st),?_,trivial⟩
  intro st line rest there fresh split
  rw [arrive_skbA closed,Server.open_putStream,if_pos rfl] at there
  subst st
  obtain ⟨rfl,rfl⟩ := Prod.mk.inj (Option.some.inj (skbA_line.found.symm.trans split))
  refine ⟨skbA_line,?_⟩
  rw [arrive_skbA closed]
  have room := Server.getOrCreateRoom_withStreams t.server (t.server.streams.insert (cnx,0) {buf := skbA}) [97]
  change ((t.server.withStreams _).getOrCreateRoom [97]).2 ≠ SENTINEL
  rw [room]
  exact real

/-- In every interleaving of joins, frames and closings on one topic, the history
is at every step what each session was sent together with what it contributed, as
long as every join finds a history that can be counted in 32 bits. -/
theorem relay_delivers_log (topic : Bytes) (roomCapacity : UInt32) (events : List Event)
    (only : Along micro (OneTopic topic) (initial roomCapacity) ((initial roomCapacity).server.steps events))
    (counted : Along micro (HistoryCounted topic) (initial roomCapacity)
      ((initial roomCapacity).server.steps events)) :
    Always micro (Converges topic) (initial roomCapacity) ((initial roomCapacity).server.steps events) := by
  have kept := always_of_along micro (Relays topic) (fun t step => t.OneTopic topic step ∧ t.HistoryCounted topic step)
    (fun t step relays both => relays.micro step both.1 both.2) _ _ (Relays.initial topic roomCapacity)
    (along_and only counted)
  exact always_mono micro (fun _ relays => relays.converges) kept

instance decidableOneTopic (topic : Bytes) (t : Sketching) : (step : Micro) → Decidable (t.OneTopic topic step)
  | .arrive cnx streamId _ =>
    decidable_of_iff (∀ key ∈ t.server.streams.keys, key.1 = cnx → key.2 = streamId)
      ⟨fun all other st there => all (cnx,other) (AList.mem_keys.mp (AList.lookup_isSome.mp (Option.isSome_of_mem there))) rfl,
        fun all key member own => by
          obtain ⟨st,there⟩ := Option.isSome_iff_exists.mp (AList.lookup_isSome.mpr (AList.mem_keys.mpr member))
          exact all key.2 st (own ▸ there)⟩
  | .round cnx streamId _ =>
    have line (st : StreamState) (pair : Bytes × Bytes) : Decidable (HeaderLine st pair.1 pair.2 .skb topic) :=
      decidable_of_iff (st.headerParsed = false ∧ cut newline st.buf = some (pair.1,pair.2) ∧
          ∃ fields ∈ cut space pair.1, fields.2 = topic ∧ Verb.ofBytes fields.1 = .skb)
        ⟨fun ⟨fresh,found,fields,split,same,verb⟩ => ⟨fresh,found,fields.1,same ▸ split,verb⟩,
          fun at_line => ⟨at_line.fresh,at_line.found,by
            obtain ⟨word,split,verb⟩ := at_line.fields
            exact ⟨(word,topic),split,rfl,verb⟩⟩⟩
    decidable_of_iff (∀ st ∈ t.server.streams.lookup (cnx,streamId), st.headerParsed = false → ∀ pair ∈ cut newline st.buf,
        HeaderLine st pair.1 pair.2 .skb topic ∧ (t.server.getOrCreateRoom topic).2 ≠ SENTINEL)
      ⟨fun all st line rest there fresh split => all st there fresh (line,rest) split,
        fun all st there fresh pair split => all st pair.1 pair.2 there fresh split⟩
  | .finish _ _ => inferInstanceAs (Decidable True)
  | .hangUp _ _ => inferInstanceAs (Decidable True)

instance decidableCounted (topic : Bytes) (t : Sketching) : (step : Micro) → Decidable (t.HistoryCounted topic step)
  | .round cnx streamId _ => inferInstanceAs (Decidable (t.server.joinsNext cnx streamId = true →
      (t.server.sketch.history (t.server.getOrCreateRoom topic).2).length < 2^32))
  | .arrive _ _ _ => inferInstanceAs (Decidable True)
  | .finish _ _ => inferInstanceAs (Decidable True)
  | .hangUp _ _ => inferInstanceAs (Decidable True)

/-- Two connections join, the first draws two strokes and the second one; a third joins late, and the first leaves. -/
def relayed : List Event :=
  [joinA ⟨1⟩,joinA ⟨2⟩,draw 0,draw 1,.streamData ⟨2⟩ 0 (lenPrefix 18 ++ stroke 2) 0,joinA ⟨3⟩,.streamReset ⟨1⟩ 0]

theorem relay_delivers_log_late :
    (run micro (initial 64) ((initial 64).server.steps relayed)).sessions.map (fun x => (x.cnx,x.mine)) =
        [(⟨3⟩,[]),(⟨2⟩,[stroke 2])] ∧
      Always micro (Converges [97]) (initial 64) ((initial 64).server.steps relayed) :=
  ⟨by decide +kernel,relay_delivers_log [97] 64 relayed (by decide +kernel) (by decide +kernel)⟩

end Sketching

/-! A log that is long enough for its count to wrap. -/

theorem readU32LE_stroke (i : Nat) : readU32LE (stroke i) 4 = UInt32.ofNat i :=
  readU32LE_lenPrefix i (List.replicate 10 0)

theorem decode_stroke (i : Nat) :
    StrokePacket.decode (stroke i) = some ⟨UInt32.ofNat i,0,0,false,[]⟩ := by
  have length : (stroke i).length = 18 := rfl
  have magic : readU32LE (stroke i) 0 = CSP1_MAGIC := by
    change readU32LE [67,83,80,49] 0 = CSP1_MAGIC
    decide
  have count : readU16LE (stroke i) 14 = 0 := by
    change readU16LE (List.replicate 10 0) 6 = 0
    decide
  have last : (stroke i).getD 16 0 = 0 ∧ (stroke i).getD 17 0 = 0 := ⟨rfl,rfl⟩
  have ids : readU32LE (stroke i) 8 = 0 ∧ readU16LE (stroke i) 12 = 0 := by
    change readU32LE (List.replicate 10 0) 0 = 0 ∧ readU16LE (List.replicate 10 0) 4 = 0
    decide
  unfold StrokePacket.decode
  rw [length,magic,count,last.1,last.2,ids.1,ids.2,readU32LE_stroke]
  rfl

def strokes (roomId : UInt64) : Nat → FfiState
  | 0 => FfiState.initial
  | n+1 => (sketchCoreApplyPacket (strokes roomId n) roomId (stroke n)).1

theorem strokes_room (roomId : UInt64) (n : Nat) (small : n ≤ 2^32) :
    (strokes roomId n).room roomId =
      ⟨(List.range n).map stroke,(List.range n).map (fun i => (UInt32.ofNat i,0,0))⟩ := by
  induction n with
  | zero => rfl
  | succ n ih =>
    have fresh : (UInt32.ofNat n,(0 : UInt32),(0 : UInt16)) ∉
        (List.range n).map (fun i => (UInt32.ofNat i,(0 : UInt32),(0 : UInt16))) := by
      intro seen
      obtain ⟨i,below,same⟩ := List.mem_map.mp seen
      have below := List.mem_range.mp below
      have ids := congrArg UInt32.toNat (Prod.mk.inj same).1
      simp only [UInt32.toNat_ofNat'] at ids
      omega
    rw [strokes,(sketchCoreApplyPacket_spec _ _ _).2.1,ih (by omega),RoomHistory.apply,decode_stroke]
    simp only [RoomHistory.key,List.contains_iff_mem,fresh,if_false,List.range_succ,List.map_append,List.map_cons,List.map_nil]

theorem strokes_accepted (roomId : UInt64) (n : Nat) (small : n < 2^32) :
    (sketchCoreApplyPacket (strokes roomId n) roomId (stroke n)).2 = true := by
  have length := congrArg (fun h : RoomHistory => h.packets.length) (strokes_room roomId (n+1) small)
  have before := strokes_room roomId n (by omega)
  rw [strokes,(sketchCoreApplyPacket_spec _ _ _).2.1,RoomHistory.apply_packets,before] at length
  rw [(sketchCoreApplyPacket_spec _ _ _).1,before]
  by_contra rejected
  simp [rejected] at length

def alone : Server := fanoutStreamCallback (Server.initial 64) (joinA ⟨1⟩)

def aloneStream : StreamState where
  headerParsed := true
  isSketch := true
  topic := [97]
  roomId := (alone.topicToRoom.lookup [97]).getD 0

def drawn (n : Nat) : Server := {alone with sketch := strokes aloneStream.roomId n}

theorem room_drawn (n : Nat) : (drawn n).topicToRoom.lookup [97] = some aloneStream.roomId := by
  have room : alone.topicToRoom.lookup [97] = some aloneStream.roomId := by decide +kernel
  exact room

theorem drawn_history (n : Nat) (small : n ≤ 2^32) :
    (drawn n).sketch.history aloneStream.roomId = (List.range n).map stroke := by
  rw [← FfiState.room_packets]
  exact congrArg RoomHistory.packets (strokes_room aloneStream.roomId n small)

theorem real_alone : aloneStream.roomId ≠ SENTINEL := by decide +kernel

theorem sound_drawn (n : Nat) : (drawn n).Sound := by
  have sound : alone.Sound := by
    rw [alone,← Server.run_micros]
    exact invariant_run Server.micro Server.Sound (fun _ step sound => sound.micro step) _ _ (Server.Sound.initial 64)
  exact sound.of_tables rfl rfl rfl rfl

theorem drawn_zero : drawn 0 = alone := by
  have nothing : alone.sketch = FfiState.initial := by decide +kernel
  simp only [drawn,strokes,← nothing]

theorem alone_streams : alone.streams = (∅ : AList (fun _ : Cnx × UInt64 => StreamState)).insert (⟨1⟩,0) aloneStream :=
  AList.ext (by decide +kernel)

theorem open_drawn {n : Nat} {cnx : Cnx} {streamId : UInt64} {st : StreamState} (there : (drawn n).Open cnx streamId st) :
    cnx = ⟨1⟩ ∧ streamId = 0 ∧ st = aloneStream := by
  change alone.streams.lookup (cnx,streamId) = some st at there
  by_cases own : (cnx,streamId) = (⟨1⟩,0)
  · rw [alone_streams,own,AList.lookup_insert] at there
    exact ⟨(Prod.mk.inj own).1,(Prod.mk.inj own).2,(Option.some.inj there).symm⟩
  · rw [alone_streams,AList.lookup_insert_ne own] at there
    cases there

theorem stream_drawn (n : Nat) : (drawn n).stream ⟨1⟩ 0 = aloneStream := by
  simp only [Server.stream,drawn,alone_streams,AList.lookup_insert,Option.getD_some]

theorem streamData_drawn (n : Nat) (small : n < 2^32) : ∃ visit,
    (drawn n).streamData ⟨1⟩ 0 (lenPrefix 18 ++ stroke n) 0 = (drawn (n+1),[visit]) := by
  have nobody : Ffi.pubTargets alone.core aloneStream.roomId 1 = [] := by decide +kernel
  let st : StreamState := {aloneStream with buf := lenPrefix 18 ++ stroke n}
  have length : st.buf.length = 22 := rfl
  have round : pumpRound st = .more (some (.sketchFrame aloneStream.roomId (stroke n))) aloneStream := rfl
  have handled : Server.handle ⟨1⟩ 0 0 (drawn n) (.sketchFrame aloneStream.roomId (stroke n)) = (drawn (n+1),none) := by
    simp only [Server.handle,Server.handleSketchFrame_eq]
    have accepted : (sketchCoreApplyPacket (drawn n).sketch aloneStream.roomId (stroke n)).2 = true :=
      strokes_accepted aloneStream.roomId n small
    have targets : Ffi.pubTargets (drawn n).core aloneStream.roomId (connIdOf ⟨1⟩) = [] := nobody
    simp only [accepted,if_true,targets,List.flatMap_nil,List.append_nil]
    rfl
  have pumped : receive (Server.handle ⟨1⟩ 0 0) (drawn n) aloneStream (lenPrefix 18 ++ stroke n) =
      (drawn (n+1),aloneStream,[⟨st,some (.sketchFrame aloneStream.roomId (stroke n))⟩]) := by
    change pumpStream _ st.buf.length _ st = _
    rw [length,pumpStream,round]
    dsimp only
    rw [handled]
    rfl
  have streams : (drawn (n+1)).streams.insert (⟨1⟩,0) aloneStream = (drawn (n+1)).streams := by
    change alone.streams.insert _ _ = alone.streams
    rw [alone_streams,AList.insert_insert]
  refine ⟨⟨st,some (.sketchFrame aloneStream.roomId (stroke n))⟩,?_⟩
  simp only [Server.streamData,stream_drawn,pumped,Server.putStream,streams]

namespace Sketching

def after (t : Sketching) (event : Event) : Sketching := run micro t (t.server.micros event)

theorem run_server (t : Sketching) (steps : List Micro) : (run micro t steps).server = run Server.micro t.server steps := by
  induction steps generalizing t with
  | nil => rfl
  | cons step later ih => rw [run_cons,run_cons,ih]; rfl

theorem after_server (t : Sketching) (event : Event) : (t.after event).server = fanoutStreamCallback t.server event := by
  rw [after,run_server,Server.run_micros]

theorem run_after (t : Sketching) (event : Event) (later : List Event) :
    run micro t (t.server.steps (event::later)) = run micro (t.after event) ((t.after event).server.steps later) := by
  rw [after_server]
  exact run_append micro t _ _

theorem along_after {C : Sketching → Micro → Prop} {t : Sketching} {event : Event} {later : List Event}
    (now : Along micro C t (t.server.micros event))
    (then_ : Along micro C (t.after event) ((t.after event).server.steps later)) :
    Along micro C t (t.server.steps (event::later)) := by
  rw [after_server] at then_
  exact (along_append micro C t _ _).mpr ⟨now,then_⟩

/-- A stream that joins while the count of the log has wrapped to zero is replayed
nothing of it. -/
theorem join_loses_log {t : Sketching} {cnx : Cnx} (sound : t.server.Sound) (closed : ∀ i st, ¬ t.server.Open cnx i st)
    {roomId : UInt64} (known : t.server.topicToRoom.lookup [97] = some roomId) (real : roomId ≠ SENTINEL)
    (wrapped : (t.server.sketch.history roomId).length % 2^32 = 0) (kept : t.server.sketch.history roomId ≠ []) :
    ¬ Converges [97] (t.after (joinA cnx)) := by
  intro converges
  let ready := t.micro (.arrive cnx 0 skbA)
  have server : ready.server = t.server.putStream cnx 0 {buf := skbA} := arrive_skbA closed
  have here : ready.server.Open cnx 0 {buf := skbA} := by
    rw [server,Server.open_putStream,if_pos rfl]
  have found : ready.server.getOrCreateRoom [97] = (ready.server,roomId) := by
    rw [Server.getOrCreateRoom,server]
    simp only [Server.putStream,known]
  have granted : (ready.server.getOrCreateRoom [97]).2 ≠ SENTINEL := by
    rw [found]
    exact real
  have joins : ready.server.joinsNext cnx 0 = true := joinsNext_skb here skbA_line granted
  have nothing : sketchCoreHistory ready.server.sketch (ready.server.getOrCreateRoom [97]).2 = [] := by
    rw [found,server,sketchCoreHistory_eq]
    simp only [Server.putStream,wrapped,List.take_zero]
  have next : t.after (joinA cnx) = ready.micro (.round cnx 0 0) := by
    rw [after,micros_joinA t.server cnx closed]
    rfl
  have soundReady : ready.server.Sound := sound.micro (.arrive cnx 0 skbA)
  have pumped := (congrArg Sketching.server next).trans (join_server soundReady 0 here skbA_line granted nothing)
  have member : ⟨cnx,0,ready.server.writes.length,[]⟩ ∈ (t.after (joinA cnx)).sessions := by
    rw [next]
    simp only [micro,joins,if_true,List.mem_cons,true_or]
  obtain ⟨other,sent,room,written,perm⟩ := converges _ member
  rw [pumped] at room written perm
  simp only [afterJoin,found,Server.putStream,Server.subscribe,Session.written,Server.replay,List.flatMap_nil,
    List.append_nil,List.drop_length,List.filter_nil] at room written perm
  obtain rfl : sent = [] := by
    cases sent with
    | nil => rfl
    | cons frame later => simp [framed] at written
  rw [server] at room perm
  obtain rfl := Option.some.inj (known.symm.trans room)
  exact kept (List.perm_nil.mp perm)

theorem draws (n k : Nat) (small : n + k ≤ 2^32) (t : Sketching) (server : t.server = drawn n) (later : List Event) :
    ∃ t', t'.server = drawn (n+k) ∧
      run micro t (t.server.steps ((List.range' n k).map draw ++ later)) = run micro t' (t'.server.steps later) ∧
      (Along micro (OneTopic [97]) t' (t'.server.steps later) →
        Along micro (OneTopic [97]) t (t.server.steps ((List.range' n k).map draw ++ later))) := by
  induction k generalizing n t with
  | zero => exact ⟨t,server,rfl,id⟩
  | succ k ih =>
    obtain ⟨visit,data⟩ := streamData_drawn n (by omega)
    have moved : (t.after (draw n)).server = drawn (n+1) := by
      rw [after_server,server]
      exact congrArg Prod.fst data
    have micros : t.server.micros (draw n) = [.arrive ⟨1⟩ 0 (lenPrefix 18 ++ stroke n),.round ⟨1⟩ 0 0] := by
      rw [server,draw,Server.micros,data]
      rfl
    have now : Along micro (OneTopic [97]) t (t.server.micros (draw n)) := by
      rw [micros]
      refine ⟨?_,?_,trivial⟩
      · intro other st there
        rw [server] at there
        exact (open_drawn there).2.1
      · intro st line rest there fresh _
        change (t.server.putStream ⟨1⟩ 0 _).Open _ _ _ at there
        rw [Server.open_putStream,if_pos rfl] at there
        rw [there,server,stream_drawn] at fresh
        cases fresh
    obtain ⟨t',reached,ran,along⟩ := ih (n+1) (by omega) (t.after (draw n)) moved
    refine ⟨t',by rw [reached,Nat.add_assoc,Nat.add_comm 1],?_,?_⟩
    · rw [← ran]
      exact run_after t (draw n) _
    · intro then_
      exact along_after now (along then_)

/-- One connection joins, draws `n` strokes, and another one joins. -/
def lateJoin (n : Nat) : List Event := joinA ⟨1⟩::((List.range' 0 n).map draw ++ [joinA ⟨2⟩])

theorem lateJoin_reaches (n : Nat) (small : n ≤ 2^32) : ∃ t : Sketching, t.server = drawn n ∧
    Along micro (OneTopic [97]) (initial 64) ((initial 64).server.steps (lateJoin n)) ∧
      run micro (initial 64) ((initial 64).server.steps (lateJoin n)) = t.after (joinA ⟨2⟩) := by
  have nothing (i : UInt64) (st : StreamState) : ¬ (initial 64).server.Open ⟨1⟩ i st := by
    intro there
    cases there
  have first : ((initial 64).after (joinA ⟨1⟩)).server = drawn 0 := by
    rw [after_server,drawn_zero]
    rfl
  obtain ⟨t,server,ran,along⟩ := draws 0 n (by omega) _ first [joinA ⟨2⟩]
  rw [Nat.zero_add] at server
  refine ⟨t,server,?_,?_⟩
  · refine along_after (oneTopic_joinA nothing (by decide +kernel)) (along (along_after (oneTopic_joinA ?_ ?_) trivial))
    · intro i st there
      rw [server] at there
      exact absurd (open_drawn there).1 (by decide)
    · rw [Server.getOrCreateRoom,server,room_drawn]
      exact real_alone
  · rw [lateJoin,run_after,ran,run_after]
    rfl

/-- After `2^32` strokes the count of the log is zero again, and the second
connection is sent none of them. -/
theorem late_joiner_misses_log :
    Along micro (OneTopic [97]) (initial 64) ((initial 64).server.steps (lateJoin (2^32))) ∧
      ¬ Always micro (Converges [97]) (initial 64) ((initial 64).server.steps (lateJoin (2^32))) := by
  obtain ⟨t,server,along,reached⟩ := lateJoin_reaches (2^32) (Nat.le_refl _)
  refine ⟨along,fun converges => ?_⟩
  have last := always_run _ _ _ _ converges
  rw [reached] at last
  have closed (i : UInt64) (st : StreamState) : ¬ t.server.Open ⟨2⟩ i st := by
    intro there
    rw [server] at there
    exact absurd (open_drawn there).1 (by decide)
  have length : (t.server.sketch.history aloneStream.roomId).length = 2^32 := by
    rw [server,drawn_history _ (Nat.le_refl _),List.length_map,List.length_range]
  refine join_loses_log ?_ closed (by rw [server]; exact room_drawn _) real_alone ?_ ?_ last
  · rw [server]
    exact sound_drawn _
  · rw [length,Nat.mod_self]
  · intro empty
    rw [empty] at length
    cases length

end Sketching

end WarpLoop.Bridge
