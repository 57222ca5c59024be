import WarpLoop.Lib.Runs
import WarpLoop.Bridge.Chunking
import WarpLoop.Bridge.ZpbFields

/-! The load client and the server's stream loop (examples/fanout_load_client.actor.cpp). A player
writes all its ticks at once, a ZPB header and a payload each; the loop finds the same packets in
whatever pieces they arrive. -/
namespace WarpLoop.Bridge
open Sketch (Bytes)
open Lib.Runs Lib.Incremental

inductive PlayerState
  | connecting
  | publishing
  | done
  | failed
deriving DecidableEq, Repr

structure PlayerCtx where
  playerId : Int32 := 0
  ticksRemaining : Int32 := 0
  state : PlayerState := .connecting
  streamId : UInt64 := 0
deriving DecidableEq, Repr

/-- The bytes count up from the seed, round the range of a byte. The seed of a player number past two million
overflows, which is undefined in the source; here it wraps. -/
def makePayload (playerId tick : Int32) : Bytes :=
  let seed := UInt8.ofInt ((playerId * 1000 + tick).toInt.tmod 256)
  (List.range kEntityPacketSize).map fun i => UInt8.ofNat ((seed.toNat + i) % 256)

/-- `"ZPB " + playerId + " " + tick + " 0 0 0 0\n"` -/
def zpbHeader (playerId tick : Int32) : Bytes :=
  [90,80,66,32] ++ printInt playerId.toInt64 ++ [32] ++ printInt tick.toInt64 ++ [32,48,32,48,32,48,32,48,10]

/-- The loop of `sendAllTicks` counts `ticksRemaining` down to zero; each tick adds two pieces to the stream. -/
def sendTicks (playerId : Int32) : Nat → List Bytes
  | 0 => []
  | n+1 =>
    let tick := Int32.ofNat (n + 1)
    zpbHeader playerId tick::makePayload playerId tick::sendTicks playerId n

def sendAllTicks (player : PlayerCtx) : PlayerCtx × List Bytes :=
  ({player with ticksRemaining := if 0 < player.ticksRemaining then 0 else player.ticksRemaining, state := .done},
    sendTicks player.playerId player.ticksRemaining.toNatClampNeg)

inductive ClientEvent
  | almostReady
  | ready
  | streamData (bytes : Bytes)
  | streamFin (bytes : Bytes)
  | close
  | applicationClose
  | other
deriving DecidableEq, Repr

def loadClientStreamCallback (player : PlayerCtx) : ClientEvent → PlayerCtx × List Bytes
  | .almostReady | .ready =>
    if player.state = .connecting then sendAllTicks {player with streamId := 0} else (player,[])
  | .streamData _ | .streamFin _ => (player,[])
  | .close | .applicationClose => (if player.state = .done then player else {player with state := .failed},[])
  | .other => (player,[])

/-- A player and what it has written to its stream so far. -/
structure LoadClient where
  player : PlayerCtx
  sent : Bytes := []

def LoadClient.step (client : LoadClient) (event : ClientEvent) : LoadClient :=
  let (player,writes) := loadClientStreamCallback client.player event
  ⟨player,client.sent ++ writes.flatten⟩

/-! A ZPB packet of any client: a header with printed numbers and a payload behind it. -/

def zpbPacket (packet : Motion × Bytes) : Bytes := [90,80,66,space] ++ printZpb packet.1 ++ newline::packet.2

/-- What the server makes of a packet. -/
def zpbCalls (packet : Motion × Bytes) : List Call := [.zoneSub,.zonePub packet.1 packet.2]

/-- Between two packets of a stream that carries nothing but ZPB. -/
structure StreamState.Publishing (st : StreamState) : Prop where
  header : st.headerParsed = false
  plain : st.isSketch = false
  zoned : st.isPub = false

theorem Numeral.no_newline {v : Int64} {s : Bytes} (numeral : Numeral v s) : newline ∉ s := by
  have digits {ds : Bytes} (all : ∀ d ∈ ds, isDigit d = true) : newline ∉ ds := by
    intro member
    have digit : isDigit newline = true := all _ member
    cases digit
  cases numeral with
  | plain _ all _ => exact digits all
  | negative _ all _ =>
    rw [List.mem_cons,not_or]
    exact ⟨by decide,digits all⟩

theorem printZpb_no_newline (m : Motion) : newline ∉ printZpb m := by
  have one (v : Int64) : newline ∉ printInt v := (printInt_numeral v).no_newline
  have apart : ¬ newline = space := by decide
  simp [printZpb,Motion.values,List.intercalate,one,apart]

section Packets
variable {cnx : Cnx} {streamId rtt : UInt64}

/-- The header turns the loop to its payload, and the payload turns it back to the next header. -/
theorem next_zpb {st : StreamState} (between : st.Publishing) (s : Server) (packet : Motion × Bytes)
    (sized : packet.2.length = kEntityPacketSize) (later : Bytes) :
    ∃ st₁ s₁ st₂ s₂, (scanner (Server.handle cnx streamId rtt)).next (st.withBuf [],s) (zpbPacket packet ++ later) =
        some ⟨false,(StreamState.withBuf st₁ [],s₁),some .zoneSub,packet.2 ++ later⟩ ∧
      (scanner (Server.handle cnx streamId rtt)).next (st₁.withBuf [],s₁) (packet.2 ++ later) =
        some ⟨false,(StreamState.withBuf st₂ [],s₂),some (.zonePub packet.1 packet.2),later⟩ ∧ st₂.Publishing := by
  have found : cut newline (zpbPacket packet ++ later) = some ([90,80,66,space] ++ printZpb packet.1,packet.2 ++ later) := by
    rw [cut_eq_some]
    refine ⟨by simp [zpbPacket],?_⟩
    rw [List.mem_append,not_or]
    exact ⟨by decide,printZpb_no_newline packet.1⟩
  have word : cut space ([90,80,66,space] ++ printZpb packet.1) = some ([90,80,66],printZpb packet.1) := by
    rw [cut_eq_some]
    exact ⟨rfl,by decide⟩
  have parsed : parseZpbFields (printZpb packet.1) st.motion = (true,packet.1) := parseZpbFields_iff.mpr (printZpb_line _)
  let st₁ : StreamState := {st with
    buf := packet.2 ++ later, topic := printZpb packet.1, headerParsed := true
    motion := packet.1, isZonePub := true}
  have header : pumpRound (st.withBuf (zpbPacket packet ++ later)) = .more (some .zoneSub) st₁ := by
    rw [pumpRound_header (by exact between.header) found]
    simp only [parseHeader,word,StreamState.withBuf,parsed]
    rfl
  have payload : pumpRound st₁ = .more (some (.zonePub packet.1 packet.2)) {st₁ with buf := later, headerParsed := false} := by
    rw [@pumpRound_zonePub st₁ rfl between.plain between.zoned rfl,takePacket,if_neg (by simp [st₁,sized])]
    simp only [st₁,List.take_left' sized,List.drop_left' sized]
  let s₁ := (Server.handle cnx streamId rtt s .zoneSub).1
  let s₂ := (Server.handle cnx streamId rtt s₁ (.zonePub packet.1 packet.2)).1
  refine ⟨st₁,s₁,{st₁ with buf := later, headerParsed := false},s₂,?_,?_,⟨rfl,between.plain,between.zoned⟩⟩
  · change (pumpRound (st.withBuf _)).taken _ s = _
    rw [header]
    rfl
  · change (pumpRound st₁).taken _ _ = _
    rw [payload]
    rfl

/-- A run of whole packets is read packet by packet, with no early return and nothing left over. -/
theorem drain_zpb {st : StreamState} (between : st.Publishing) (s : Server) (packets : List (Motion × Bytes))
    (sized : ∀ packet ∈ packets, packet.2.length = kEntityPacketSize) :
    (scanner (Server.handle cnx streamId rtt)).Quiet (st.withBuf [],s) (packets.flatMap zpbPacket) ∧
      ∃ state, (scanner (Server.handle cnx streamId rtt)).drain (packets.flatMap zpbPacket).length (st.withBuf [],s)
        (packets.flatMap zpbPacket) = (state,[],packets.flatMap zpbCalls) := by
  induction packets generalizing st s with
  | nil => exact ⟨.wait (Scanner.next_nil _),_,rfl⟩
  | cons packet packets ih =>
    obtain ⟨st₁,s₁,st₂,s₂,header,payload,again⟩ := @next_zpb cnx streamId rtt st between s packet
      (sized packet List.mem_cons_self) (packets.flatMap zpbPacket)
    obtain ⟨quiet,state,drained⟩ := ih again s₂ fun packet member => sized packet (List.mem_cons_of_mem _ member)
    rw [List.flatMap_cons]
    refine ⟨.more header rfl (.more payload rfl quiet),state,?_⟩
    rw [Scanner.drain_eq,header]
    simp only [Bool.false_eq_true,if_false]
    rw [Scanner.drain_eq,payload]
    simp only [Bool.false_eq_true,if_false]
    rw [drained]
    rfl

end Packets

/-- Whole ZPB packets on a fresh stream, in whatever pieces they arrive. -/
theorem Server.deliver_zpb (cnx : Cnx) (streamId : UInt64) (s : Server) (fresh : s.streams.lookup (cnx,streamId) = none)
    (packets : List (Motion × Bytes)) (sized : ∀ packet ∈ packets, packet.2.length = kEntityPacketSize)
    (chunks : List (Bytes × UInt64)) (carried : (chunks.map Prod.fst).flatten = packets.flatMap zpbPacket) :
    ((deliverAll cnx streamId s chunks).1.stream cnx streamId).buf = [] ∧
      (deliverAll cnx streamId s chunks).2 = packets.flatMap zpbCalls := by
  have empty : s.stream cnx streamId = {} := by simp [stream,fresh]
  obtain ⟨_,buf,calls⟩ := deliverAll_eq_feedAll cnx streamId s s ⟨rfl,rfl⟩ chunks
  obtain ⟨quiet,state,drained⟩ := @drain_zpb cnx streamId 0 {} ⟨rfl,rfl,rfl⟩ s packets sized
  rw [← carried] at quiet drained
  have fed := Scanner.feedAll_eq_drain _ [] (chunks.map Prod.fst) (Scanner.next_nil _) quiet
  rw [List.nil_append,drained] at fed
  rw [empty] at buf calls
  exact ⟨buf.trans (congrArg (fun fed => fed.2.1) fed),calls.trans (congrArg (fun fed => fed.2.2) fed)⟩

/-! The packets of a player. -/

def ticksDown : Nat → List Int32
  | 0 => []
  | n+1 => Int32.ofNat (n + 1)::ticksDown n

/-- The packets that a player owes: one for each tick, the last tick first. -/
def PlayerCtx.packets (player : PlayerCtx) : List (Motion × Bytes) :=
  (ticksDown player.ticksRemaining.toNatClampNeg).map fun tick =>
    (⟨player.playerId.toInt64,tick.toInt64,0,0,0,0⟩,makePayload player.playerId tick)

theorem zpbHeader_eq (playerId tick : Int32) (payload : Bytes) :
    zpbHeader playerId tick ++ payload = zpbPacket (⟨playerId.toInt64,tick.toInt64,0,0,0,0⟩,payload) := by
  have zero : printInt 0 = [48] := by decide
  simp [zpbHeader,zpbPacket,printZpb,Motion.values,List.intercalate,zero,space,newline]

theorem makePayload_length (playerId tick : Int32) : (makePayload playerId tick).length = kEntityPacketSize := by
  simp [makePayload]

theorem PlayerCtx.packets_sized (player : PlayerCtx) : ∀ packet ∈ player.packets, packet.2.length = kEntityPacketSize := by
  intro packet member
  obtain ⟨tick,_,rfl⟩ := List.mem_map.mp member
  exact makePayload_length _ _

theorem sendAllTicks_packets (player : PlayerCtx) : (sendAllTicks player).2.flatten = player.packets.flatMap zpbPacket := by
  unfold sendAllTicks PlayerCtx.packets
  dsimp only
  induction player.ticksRemaining.toNatClampNeg with
  | zero => rfl
  | succ n ih =>
    simp only [sendTicks,ticksDown,List.flatten_cons,List.map_cons,List.flatMap_cons]
    rw [ih,← List.append_assoc,zpbHeader_eq]

/-- A player has sent its packets once it is done, and nothing until then. -/
def LoadClient.Sound (start : PlayerCtx) (client : LoadClient) : Prop :=
  client.player.state = .done ∧ client.sent = start.packets.flatMap zpbPacket ∨
    (client.player = start ∨ client.player.state = .failed) ∧ client.sent = []

theorem LoadClient.Sound.step {start : PlayerCtx} (new : start.state = .connecting) {client : LoadClient}
    (sound : client.Sound start) (event : ClientEvent) : (client.step event).Sound start := by
  obtain ⟨player,sent⟩ := client
  have sends : (sendAllTicks {start with streamId := 0}).2.flatten = start.packets.flatMap zpbPacket :=
    sendAllTicks_packets {start with streamId := 0}
  obtain ⟨done,all⟩ | ⟨waits,rfl⟩ := sound
  · left
    dsimp only at done all
    cases event <;> simp [LoadClient.step,loadClientStreamCallback,done,all]
  · obtain rfl | failed := waits
    · change player.state = .connecting at new
      cases event with
      | almostReady | ready =>
        left
        simp only [LoadClient.step,loadClientStreamCallback,if_pos new,List.nil_append]
        exact ⟨rfl,sends⟩
      | streamData | streamFin | other => exact .inr ⟨.inl rfl,rfl⟩
      | close | applicationClose =>
        right
        simp [LoadClient.step,loadClientStreamCallback,new]
    · right
      dsimp only at failed
      cases event <;> simp [LoadClient.step,loadClientStreamCallback,failed]

theorem LoadClient.Sound.run {start : PlayerCtx} (new : start.state = .connecting) {client : LoadClient}
    (sound : client.Sound start) (events : List ClientEvent) : (run LoadClient.step client events).Sound start := by
  induction events generalizing client with
  | nil => exact sound
  | cons event events ih => exact ih (sound.step new event)

/-- Whatever happens on the player's connection, and whatever the pieces its bytes arrive in: once the player is done
the server has handled a publish for each of its ticks, in order and with nothing left over, and until then none. -/
theorem load_client_heard (start : PlayerCtx) (new : start.state = .connecting) (events : List ClientEvent)
    (s : Server) (cnx : Cnx) (streamId : UInt64) (fresh : s.streams.lookup (cnx,streamId) = none)
    (chunks : List (Bytes × UInt64))
    (carried : (chunks.map Prod.fst).flatten = (run LoadClient.step ⟨start,[]⟩ events).sent) :
    ((Server.deliverAll cnx streamId s chunks).1.stream cnx streamId).buf = [] ∧
      (Server.deliverAll cnx streamId s chunks).2 =
        if (run LoadClient.step ⟨start,[]⟩ events).player.state = .done then start.packets.flatMap zpbCalls else [] := by
  have sound : (run LoadClient.step ⟨start,[]⟩ events).Sound start := LoadClient.Sound.run new (.inr ⟨.inl rfl,rfl⟩) events
  obtain ⟨done,all⟩ | ⟨waits,none⟩ := sound
  · rw [if_pos done]
    exact Server.deliver_zpb cnx streamId s fresh _ start.packets_sized chunks (carried.trans all)
  · have unfinished : (run LoadClient.step ⟨start,[]⟩ events).player.state ≠ .done := by
      obtain same | failed := waits
      · simp [same,new]
      · simp [failed]
    rw [if_neg unfinished]
    exact Server.deliver_zpb cnx streamId s fresh [] (by simp) chunks (carried.trans none)

/-- Two ticks of player 7, cut inside the first header. -/
theorem load_client_heard_two :
    let start : PlayerCtx := {playerId := 7, ticksRemaining := 2}
    let bytes := (run LoadClient.step ⟨start,[]⟩ [.ready,.close]).sent
    (Server.deliverAll ⟨1⟩ 0 (Server.initial 64) [(bytes.take 5,1),(bytes.drop 5,2)]).2 =
      [.zoneSub,.zonePub ⟨7,2,0,0,0,0⟩ (makePayload 7 2),.zoneSub,.zonePub ⟨7,1,0,0,0,0⟩ (makePayload 7 1)] :=
  (load_client_heard {playerId := 7, ticksRemaining := 2} rfl [.ready,.close] (Server.initial 64) ⟨1⟩ 0 (by decide +kernel)
    [(_,1),(_,2)] (by simp)).2.trans rfl

end WarpLoop.Bridge
