import WarpLoop.Lib.Framing
import WarpLoop.Bridge.Headers
import WarpLoop.Bridge.ServerSpecs

/-! The framing of sketch packets: a length in four bytes, little-endian, and then the
packet. The stream parser of the server reads it piece by piece, its handlers write it, and
the replay tool (sketch-core/GraphDump.lean) reads a whole file of it. -/
namespace WarpLoop.Bridge
open WarpLoop.Core Sketch Lib.Framing Lib.Replay

/-! The format. -/

def u32LE (n : Nat) : Bytes :=
  [UInt8.ofNat (n % 256),UInt8.ofNat (n / 256 % 256),UInt8.ofNat (n / 256^2 % 256),UInt8.ofNat (n / 256^3 % 256)]

def frameBytes (packet : Bytes) : Bytes := u32LE packet.length ++ packet

def skbHeader (topic : Bytes) : Bytes := [83,75,66,space] ++ topic ++ [newline]

abbrev Admitted (packet : Bytes) : Prop := packet.length ≤ kMaxSketchFrame

theorem u32LE_length (n : Nat) : (u32LE n).length = 4 := rfl

theorem frameBytes_length (packet : Bytes) : (frameBytes packet).length = 4 + packet.length := by
  rw [frameBytes,List.length_append,u32LE_length]

/-- The prefix that the handlers write. -/
theorem lenPrefix_eq (n : Nat) : lenPrefix n = u32LE n := by
  have byte (m : Nat) : UInt8.ofNat m = UInt8.ofNat (m % 256) := by
    apply UInt8.toNat.inj
    simp
  change _ = [UInt8.ofNat (n % 256),UInt8.ofNat (n / 2^8 % 256),UInt8.ofNat (n / 2^16 % 256),UInt8.ofNat (n / 2^24 % 256)]
  rw [← byte n,← byte (n / 2^8),← byte (n / 2^16),← byte (n / 2^24)]
  simp only [lenPrefix,Nat.shiftRight_eq_div_pow]

theorem kMaxSketchFrame_lt : kMaxSketchFrame < 2^32 := by decide

theorem u32LE_inj {n m : Nat} (small : n < 2^32) (small' : m < 2^32) (same : u32LE n = u32LE m) : n = m := by
  have read := congrArg (fun bytes => readU32LE (bytes ++ []) 0) same
  simp only [← lenPrefix_eq,readU32LE_lenPrefix] at read
  have values := congrArg UInt32.toNat read
  rwa [UInt32.toNat_ofNat_of_lt' small,UInt32.toNat_ofNat_of_lt' small'] at values

/-- The length is read before the packet, so no frame begins with another. -/
theorem frameBytes_prefixFree : PrefixFree frameBytes Admitted := by
  intro x y small small' beginning
  have bound := kMaxSketchFrame_lt
  have lengths : u32LE x.length = u32LE y.length := by
    obtain ⟨rest,split⟩ := beginning
    have first := congrArg (List.take 4) split
    rwa [frameBytes,frameBytes,List.append_assoc,List.take_left' (u32LE_length _),
      List.take_left' (u32LE_length _)] at first
  have equal : x.length = y.length := u32LE_inj (by omega) (by omega) lengths
  have whole : frameBytes x = frameBytes y := beginning.eq_of_length (by
    rw [frameBytes_length,frameBytes_length,equal])
  rw [frameBytes,frameBytes,lengths] at whole
  exact List.append_cancel_left whole

theorem part_nil : Part frameBytes Admitted [] :=
  ⟨[],by simp [Admitted],List.nil_prefix,by simp [frameBytes,u32LE]⟩

/-! One round of the stream parser. -/

/-- The length that `pumpStream` puts together. -/
theorem frameLen_eq {n : Nat} (small : n < 2^32) :
    (UInt8.ofNat (n % 256)).toNat ||| ((UInt8.ofNat (n / 256 % 256)).toNat <<< 8) |||
      ((UInt8.ofNat (n / 256^2 % 256)).toNat <<< 16) ||| ((UInt8.ofNat (n / 256^3 % 256)).toNat <<< 24) = n := by
  simp only [UInt8.toNat_ofNat',Nat.mod_mod]
  rw [Lib.LittleEndian.or_shiftLeft _ (k := 8) (by omega),Lib.LittleEndian.or_shiftLeft _ (k := 16) (by omega),
    Lib.LittleEndian.or_shiftLeft _ (k := 24) (by omega)]
  omega

theorem takeFrame_frame {st : StreamState} {packet rest : Bytes} (small : Admitted packet)
    (buf : st.buf = frameBytes packet ++ rest) :
    takeFrame st = .more (some (.sketchFrame st.roomId packet)) (st.withBuf rest) := by
  have bound := kMaxSketchFrame_lt
  have len := @frameLen_eq packet.length (by omega)
  unfold takeFrame
  rw [buf]
  simp only [frameBytes,u32LE,List.cons_append,List.nil_append,len]
  rw [if_neg (Nat.not_lt.mpr small),if_neg (by simp)]
  simp [StreamState.withBuf]

/-- A frame that is incomplete or too large is left in the buffer. -/
theorem takeFrame_wait {st : StreamState} {packet : Bytes} (small : packet.length < 2^32)
    (beginning : st.buf <+: frameBytes packet) (stays : st.buf ≠ frameBytes packet ∨ kMaxSketchFrame < packet.length) :
    takeFrame st = .wait := by
  unfold takeFrame
  split
  · rename_i b0 b1 b2 b3 body buf
    rw [buf] at beginning stays
    simp only [frameBytes,u32LE,List.cons_append,List.nil_append,List.cons_prefix_cons] at beginning
    obtain ⟨rfl,rfl,rfl,rfl,inside⟩ := beginning
    simp only [frameLen_eq small]
    by_cases large : packet.length > kMaxSketchFrame
    · rw [if_pos large]
    · have short : body.length < packet.length := by
        rcases stays with proper | large'
        · apply Nat.lt_of_le_of_ne inside.length_le
          intro same
          exact proper (by rw [inside.eq_of_length same]; rfl)
        · exact absurd large' large
      rw [if_neg large,if_pos short]
  · rfl

/-! One callback. -/

/-- What one callback makes of the stream, and the handlers it calls. -/
def callback (cnx : Cnx) (streamId : UInt64) (st : StreamState) (d : Delivery) : StreamState × List Call :=
  let pumped := receive (Server.handle cnx streamId d.rttMicros) d.server st d.bytes
  (pumped.2.1,pumped.2.2.filterMap Visit.call)

section Callback
variable {cnx : Cnx} {streamId : UInt64} {st : StreamState}

theorem pumpStream_wait (rttMicros : UInt64) (fuel : Nat) (s : Server) (waits : pumpRound st = .wait) :
    pumpStream (Server.handle cnx streamId rttMicros) fuel s st = (s,st,[]) := by
  cases fuel with
  | zero => rfl
  | succ fuel => simp [pumpStream,waits]

theorem callback_wait (d : Delivery) (waits : pumpRound {st with buf := st.buf ++ d.bytes} = .wait) :
    callback cnx streamId st d = (st.withBuf (st.buf ++ d.bytes),[]) := by
  simp only [callback,receive,pumpStream_wait d.rttMicros _ d.server waits]
  rfl

/-- In sketch mode the whole frames are handled and the part behind them is kept. -/
theorem pumpStream_frames (rttMicros : UInt64) (fuel : Nat) (s : Server) (parsed : st.headerParsed = true)
    (sketch : st.isSketch = true) (packets : List Bytes) (small : ∀ packet ∈ packets, Admitted packet) {part : Bytes}
    (isPart : Part frameBytes Admitted part) (buf : st.buf = packets.flatMap frameBytes ++ part)
    (enough : st.buf.length ≤ fuel) :
    let pumped := pumpStream (Server.handle cnx streamId rttMicros) fuel s st
    pumped.2.1 = st.withBuf part ∧ pumped.2.2.filterMap Visit.call = packets.map (.sketchFrame st.roomId) := by
  induction packets generalizing fuel s st with
  | nil =>
    obtain ⟨packet,admitted,beginning,proper⟩ := isPart
    have bound := kMaxSketchFrame_lt
    obtain rfl : st.buf = part := by simpa using buf
    have waits : pumpRound st = .wait := by
      rw [pumpRound_frame parsed sketch]
      exact takeFrame_wait (by omega) beginning (Or.inl proper)
    rw [pumpStream_wait rttMicros fuel s waits]
    exact ⟨rfl,rfl⟩
  | cons packet packets ih =>
    rw [List.flatMap_cons,List.append_assoc] at buf
    have round : pumpRound st = .more (some (.sketchFrame st.roomId packet))
        (st.withBuf (packets.flatMap frameBytes ++ part)) := by
      rw [pumpRound_frame parsed sketch]
      exact takeFrame_frame (small packet (by simp)) buf
    rw [buf,List.length_append,frameBytes_length] at enough
    obtain ⟨fuel,rfl⟩ : ∃ n, fuel = n + 1 := ⟨fuel - 1,by omega⟩
    have later := @ih (st.withBuf (packets.flatMap frameBytes ++ part)) fuel
      (s.handleSketchFrame cnx st.roomId packet) parsed sketch
      (fun other member => small other (List.mem_cons_of_mem packet member)) rfl
      (by simp only [StreamState.withBuf]; omega)
    simp only [pumpStream,round]
    refine ⟨later.1,?_⟩
    rw [List.filterMap_cons,List.map_cons]
    exact congrArg _ later.2

theorem callback_frames (parsed : st.headerParsed = true) (sketch : st.isSketch = true) (d : Delivery)
    (packets : List Bytes) (small : ∀ packet ∈ packets, Admitted packet) {rest part : Bytes}
    (isPart : Part frameBytes Admitted part) (stream : rest ++ d.bytes = packets.flatMap frameBytes ++ part) :
    callback cnx streamId (st.withBuf rest) d = (st.withBuf part,packets.map (.sketchFrame st.roomId)) := by
  obtain ⟨state,calls⟩ := @pumpStream_frames cnx streamId {st with buf := rest ++ d.bytes} d.rttMicros
    (rest ++ d.bytes).length d.server parsed sketch packets small part isPart stream (Nat.le_refl _)
  exact Prod.ext state calls

/-- Any callbacks in sketch mode. -/
theorem callbacks_frames (parsed : st.headerParsed = true) (sketch : st.isSketch = true) (deliveries : List Delivery)
    (packets : List Bytes) (small : ∀ packet ∈ packets, Admitted packet) {rest part : Bytes}
    (restPart : Part frameBytes Admitted rest) (isPart : Part frameBytes Admitted part)
    (stream : rest ++ deliveries.flatMap Delivery.bytes = packets.flatMap frameBytes ++ part) :
    replay (callback cnx streamId) (st.withBuf rest) deliveries =
      (st.withBuf part,packets.map (.sketchFrame st.roomId)) := by
  have fed := replay_items frameBytes_prefixFree (callback cnx streamId) Delivery.bytes (Call.sketchFrame st.roomId)
    (fun s kept => s = st.withBuf kept)
    (fun s d kept done behind holds ok behindPart split => by
      subst holds
      rw [callback_frames parsed sketch d done ok behindPart split]
      exact ⟨rfl,rfl⟩)
    (st.withBuf rest) deliveries packets small rfl restPart isPart stream
  exact Prod.ext fed.1 fed.2

theorem newline_of_cut {line rest : Bytes} {buf : Bytes} (found : cut newline buf = some (line,rest))
    {later whole body : Bytes} (absent : newline ∉ whole) (stream : buf ++ later = whole ++ newline::body) :
    line = whole ∧ rest ++ later = body := by
  obtain ⟨rfl,clean⟩ := (cut_eq_some _ _ _ _).mp found
  have mine : cut newline (line ++ newline::rest ++ later) = some (line,rest ++ later) :=
    (cut_eq_some _ _ _ _).mpr ⟨by simp,clean⟩
  have theirs : cut newline (whole ++ newline::body) = some (whole,body) := (cut_eq_some _ _ _ _).mpr ⟨rfl,absent⟩
  rw [stream,theirs] at mine
  obtain ⟨same,rest⟩ := Prod.mk.inj (Option.some.inj mine)
  exact ⟨same.symm,rest.symm⟩

theorem skbHeader_line {topic rest : Bytes} (fresh : st.headerParsed = false) (clean : newline ∉ topic)
    (buf : st.buf = skbHeader topic ++ rest) : HeaderLine st ([83,75,66,space] ++ topic) rest .skb topic where
  fresh := fresh
  found := by
    rw [cut_eq_some,buf,skbHeader]
    refine ⟨by simp,?_⟩
    simp only [List.mem_append,not_or]
    exact ⟨by decide,clean⟩
  fields := ⟨[83,75,66],(cut_eq_some _ _ _ _).mpr ⟨rfl,by decide⟩,rfl⟩

/-- The callback in which the header line is completed. -/
theorem callback_header {topic : Bytes} (fresh : st.headerParsed = false) (clean : newline ∉ topic) (d : Delivery)
    (packets : List Bytes) (small : ∀ packet ∈ packets, Admitted packet) {part : Bytes}
    (isPart : Part frameBytes Admitted part)
    (stream : st.buf ++ d.bytes = skbHeader topic ++ (packets.flatMap frameBytes ++ part)) :
    ∃ st' : StreamState, st'.headerParsed = true ∧ st'.isSketch = true ∧
      callback cnx streamId st d = (st'.withBuf part,.sketchSub topic::packets.map (.sketchFrame st'.roomId)) := by
  have round := pumpRound_skb (@skbHeader_line {st with buf := st.buf ++ d.bytes} _ _ fresh clean stream)
  generalize handled : Server.handle cnx streamId d.rttMicros d.server (.sketchSub topic) = result at *
  let next : StreamState := StreamState.assign {st with
    buf := packets.flatMap frameBytes ++ part, topic := topic, headerParsed := true, isSketch := true} result.2
  have assigned : next.headerParsed = true ∧ next.isSketch = true ∧ next.buf = packets.flatMap frameBytes ++ part := by
    rcases result with ⟨_,_ | _⟩ <;> exact ⟨rfl,rfl,rfl⟩
  obtain ⟨parsed,sketch,buf⟩ := assigned
  have length : (st.buf ++ d.bytes).length = (3 + topic.length + 1) + next.buf.length + 1 := by
    rw [stream,buf]
    simp [skbHeader]
    omega
  obtain ⟨state,calls⟩ := @pumpStream_frames cnx streamId next d.rttMicros ((3 + topic.length + 1) + next.buf.length)
    result.1 parsed sketch packets small part isPart buf (by omega)
  refine ⟨next,parsed,sketch,?_⟩
  unfold callback receive
  rw [length]
  simp only [pumpStream,round,handled]
  refine Prod.ext state ?_
  exact congrArg (List.cons (Call.sketchSub topic)) calls

/-- From a fresh header on: the topic is joined, the frames follow and the part behind them
is kept, wherever the callbacks cut the stream. -/
theorem callbacks_header {topic : Bytes} (fresh : st.headerParsed = false) (nothing : newline ∉ st.buf)
    (clean : newline ∉ topic) (deliveries : List Delivery)
    (packets : List Bytes) (small : ∀ packet ∈ packets, Admitted packet) {part : Bytes}
    (isPart : Part frameBytes Admitted part)
    (stream : st.buf ++ deliveries.flatMap Delivery.bytes = skbHeader topic ++ (packets.flatMap frameBytes ++ part)) :
    ∃ st' : StreamState, replay (callback cnx streamId) st deliveries =
      (st'.withBuf part,.sketchSub topic::packets.map (.sketchFrame st'.roomId)) := by
  induction deliveries generalizing st with
  | nil =>
    -- the header line would have to be in the buffer
    refine absurd ?_ nothing
    rw [List.flatMap_nil,List.append_nil] at stream
    rw [stream]
    simp [skbHeader]
  | cons d deliveries ih =>
    rw [List.flatMap_cons,← List.append_assoc] at stream
    rw [replay_cons]
    cases found : cut newline (st.buf ++ d.bytes) with
    | none =>
      rw [callback_wait d (pumpRound_open fresh found)]
      exact ih fresh ((cut_eq_none _ _).mp found) stream
    | some pair =>
      obtain ⟨line,arrived⟩ := pair
      have absent : newline ∉ [83,75,66,space] ++ topic := by
        simp only [List.mem_append,not_or]
        exact ⟨by decide,clean⟩
      have lined : st.buf ++ d.bytes ++ deliveries.flatMap Delivery.bytes =
          [83,75,66,space] ++ topic ++ newline::(packets.flatMap frameBytes ++ part) := by
        rw [stream,skbHeader]
        simp
      obtain ⟨rfl,body⟩ := newline_of_cut found absent lined
      obtain ⟨done,left,rest,rfl,rfl,restPart,later⟩ := split_prefix packets small isPart body
      have okDone : ∀ packet ∈ done, Admitted packet := fun packet member => small packet (List.mem_append_left _ member)
      have okLeft : ∀ packet ∈ left, Admitted packet := fun packet member => small packet (List.mem_append_right _ member)
      have first : st.buf ++ d.bytes = skbHeader topic ++ (done.flatMap frameBytes ++ rest) := by
        rw [((cut_eq_some _ _ _ _).mp found).1,skbHeader]
        simp
      obtain ⟨st',parsed,sketch,joined⟩ := @callback_header cnx streamId st topic fresh clean d done okDone rest restPart first
      refine ⟨st',?_⟩
      rw [joined]
      dsimp only
      rw [callbacks_frames parsed sketch deliveries left okLeft restPart isPart later]
      simp

/-- A frame above the cap never leaves the buffer. -/
theorem callbacks_blocked (parsed : st.headerParsed = true) (sketch : st.isSketch = true) (deliveries : List Delivery)
    {packet : Bytes} (small : packet.length < 2^32) (large : kMaxSketchFrame < packet.length)
    (stream : st.buf ++ deliveries.flatMap Delivery.bytes <+: frameBytes packet) :
    replay (callback cnx streamId) st deliveries =
      (st.withBuf (st.buf ++ deliveries.flatMap Delivery.bytes),[]) := by
  induction deliveries generalizing st with
  | nil => simp [replay,replayLoop,StreamState.withBuf]
  | cons d deliveries ih =>
    rw [List.flatMap_cons,← List.append_assoc] at stream ⊢
    have waits : pumpRound {st with buf := st.buf ++ d.bytes} = .wait := by
      rw [@pumpRound_frame {st with buf := st.buf ++ d.bytes} parsed sketch]
      exact takeFrame_wait small ((List.prefix_append _ _).trans stream) (Or.inr large)
    rw [replay_cons,callback_wait d waits]
    have later := @ih (st.withBuf (st.buf ++ d.bytes)) parsed sketch stream
    dsimp only
    rw [later]
    rfl

end Callback

/-! The writers. -/

/-- The two writes that put a frame on a stream. -/
def frameWrites (packet : Bytes) (on : Cnx × UInt64) : List Write :=
  [⟨on.1,on.2,u32LE packet.length⟩,⟨on.1,on.2,packet⟩]

/-- The streams that a frame is relayed to. -/
def recipients (s : Server) (cnx : Cnx) (roomId : UInt64) (packet : Bytes) : List (Cnx × UInt64) :=
  if (sketchCoreApplyPacket s.sketch roomId packet).2 then
    (Ffi.pubTargets s.core roomId (connIdOf cnx)).filterMap fun target => s.delivery.lookup target
  else []

theorem frameWrites_bytes (packet : Bytes) (on : Cnx × UInt64) :
    (frameWrites packet on).flatMap Write.bytes = frameBytes packet := by
  simp [frameWrites,frameBytes]

theorem handleSketchFrame_writes (s : Server) (cnx : Cnx) (roomId : UInt64) (packet : Bytes) :
    (s.handleSketchFrame cnx roomId packet).writes =
      s.writes ++ (recipients s cnx roomId packet).flatMap (frameWrites packet) := by
  rw [Server.handleSketchFrame_eq]
  dsimp only
  unfold recipients
  congr 1
  split
  · induction Ffi.pubTargets s.core roomId (connIdOf cnx) with
    | nil => rfl
    | cons target later ih =>
      rw [List.flatMap_cons,ih,List.filterMap_cons]
      unfold Server.deliveries
      cases s.delivery.lookup target with
      | none => rfl
      | some on => simp [frameWrites,lenPrefix_eq]
  · rfl

theorem handleSketchSub_writes (s : Server) (cnx : Cnx) (streamId : UInt64) (topic : Bytes) :
    (s.handleSketchSub cnx streamId topic).1.writes = s.writes ++
      match (s.handleSketchSub cnx streamId topic).2 with
      | none => []
      | some roomId => (sketchCoreHistory s.sketch roomId).flatMap fun packet => frameWrites packet (cnx,streamId) := by
  have found : (s.getOrCreateRoom topic).1.writes = s.writes ∧ (s.getOrCreateRoom topic).1.sketch = s.sketch := by
    unfold Server.getOrCreateRoom
    split
    · exact ⟨rfl,rfl⟩
    · dsimp only
      split <;> exact ⟨rfl,rfl⟩
  unfold Server.handleSketchSub
  dsimp only
  split
  · rw [found.1,List.append_nil]
  · rw [Server.replay_eq]
    simp [Server.subscribe,found,Server.replay,frameWrites,lenPrefix_eq]

/-! The whole-file reader of the replay tool. -/

inductive DumpError
  | truncatedFrame (off : Nat)
  | trailingGarbage (off : Nat)
deriving DecidableEq, Repr

/-- The loop of GraphDump's `main` from an offset on, with what it does to its history. -/
def dumpLoop {σ : Type} (apply : σ → Bytes → σ) (bytes : Bytes) (h : σ) (off : Nat) : Except DumpError σ :=
  if off + 4 ≤ bytes.length then
    let len := (readU32LE bytes off).toNat
    if off + 4 + len > bytes.length then .error (.truncatedFrame off)
    else dumpLoop apply bytes (apply h ((bytes.drop (off + 4)).take len)) (off + 4 + len)
  else if off ≠ bytes.length then .error (.trailingGarbage off)
  else .ok h
termination_by bytes.length - off

/-- The history whose graph is printed. -/
def graphDump (bytes : Bytes) : Except DumpError RoomHistory :=
  dumpLoop (fun h packet => (h.apply packet).1) bytes RoomHistory.empty 0

theorem readU32LE_append (before rest : Bytes) : readU32LE (before ++ rest) before.length = readU32LE rest 0 := by
  have skip (i : Nat) : (before ++ rest).getD (before.length + i) 0 = rest.getD i 0 := by
    rw [List.getD_eq_getElem?_getD,List.getD_eq_getElem?_getD,List.getElem?_append_right (Nat.le_add_right _ _),
      Nat.add_sub_cancel_left]
  have first := skip 0
  rw [Nat.add_zero] at first
  simp only [readU32LE,skip,first,Nat.zero_add]

/-- The loop takes the frames one by one; the induction is on those that are left. -/
theorem dumpLoop_frames {σ : Type} (apply : σ → Bytes → σ) (h : σ) (before : Bytes) (packets : List Bytes)
    (small : ∀ packet ∈ packets, Admitted packet) :
    dumpLoop apply (before ++ packets.flatMap frameBytes) h before.length = .ok (packets.foldl apply h) := by
  induction packets generalizing h before with
  | nil =>
    rw [dumpLoop,List.flatMap_nil,List.append_nil,if_neg (by omega),if_neg (by simp)]
    rfl
  | cons packet packets ih =>
    have bound := kMaxSketchFrame_lt
    have admitted : packet.length ≤ kMaxSketchFrame := small packet (by simp)
    have len : (readU32LE (before ++ (packet::packets).flatMap frameBytes) before.length).toNat = packet.length := by
      rw [readU32LE_append,List.flatMap_cons,frameBytes,List.append_assoc,← lenPrefix_eq,readU32LE_lenPrefix]
      exact UInt32.toNat_ofNat_of_lt' (Nat.lt_of_le_of_lt admitted bound)
    have size : (before ++ (packet::packets).flatMap frameBytes).length =
        before.length + 4 + packet.length + (packets.flatMap frameBytes).length := by
      rw [List.length_append,List.flatMap_cons,List.length_append,frameBytes_length]
      omega
    have body : ((before ++ (packet::packets).flatMap frameBytes).drop (before.length + 4)).take packet.length =
        packet := by
      rw [← List.drop_drop,List.drop_left,List.flatMap_cons,frameBytes,List.append_assoc,
        List.drop_left' (u32LE_length _),List.take_left]
    have later := ih (apply h packet) (before ++ frameBytes packet)
      (fun other member => small other (List.mem_cons_of_mem packet member))
    rw [List.length_append,frameBytes_length,List.append_assoc,← List.flatMap_cons,← Nat.add_assoc] at later
    rw [dumpLoop,if_pos (by omega)]
    dsimp only
    rw [len,if_neg (by omega),body,later,List.foldl_cons]

/-- The framing of sketch packets, read and written. For any packets of admitted length
behind an accepted header, any proper beginning of one more frame and any callbacks: the
stream parser hands over exactly the packets and keeps the beginning; both handlers write
this framing; and the replay tool applies exactly the packets. -/
theorem sketch_framing_round_trip (cnx : Cnx) (streamId : UInt64) (st : StreamState)
    (fresh : st.headerParsed = false) (empty : st.buf = []) (topic : Bytes) (clean : newline ∉ topic)
    (packets : List Bytes) (small : ∀ packet ∈ packets, packet.length ≤ kMaxSketchFrame) (next part : Bytes)
    (smallNext : next.length ≤ kMaxSketchFrame) (beginning : part <+: frameBytes next) (proper : part ≠ frameBytes next)
    (deliveries : List Delivery)
    (stream : deliveries.flatMap Delivery.bytes = skbHeader topic ++ packets.flatMap frameBytes ++ part) :
    let fed := replay (callback cnx streamId) st deliveries
    fed.2 = .sketchSub topic::packets.map (.sketchFrame fed.1.roomId) ∧ fed.1.buf = part ∧
      (∀ (s : Server) (cnx : Cnx) (roomId : UInt64) (packet : Bytes), (s.handleSketchFrame cnx roomId packet).writes =
        s.writes ++ (recipients s cnx roomId packet).flatMap (frameWrites packet)) ∧
      (∀ (s : Server) (cnx : Cnx) (streamId : UInt64) (topic : Bytes),
        (s.handleSketchSub cnx streamId topic).1.writes = s.writes ++
          match (s.handleSketchSub cnx streamId topic).2 with
          | none => []
          | some roomId =>
            (sketchCoreHistory s.sketch roomId).flatMap fun packet => frameWrites packet (cnx,streamId)) ∧
      (∀ packet on, (frameWrites packet on).flatMap Write.bytes = frameBytes packet) ∧
      (∀ (σ : Type) (apply : σ → Bytes → σ) (h : σ),
        dumpLoop apply (packets.flatMap frameBytes) h 0 = .ok (packets.foldl apply h)) ∧
      graphDump (packets.flatMap frameBytes) =
        .ok (packets.foldl (fun h packet => (h.apply packet).1) RoomHistory.empty) := by
  intro fed
  obtain ⟨st',result⟩ := @callbacks_header cnx streamId st topic fresh (by simp [empty]) clean deliveries packets small
    part ⟨next,smallNext,beginning,proper⟩ (by rw [empty,List.nil_append,stream,List.append_assoc])
  have same : fed = _ := result
  rw [same]
  refine ⟨rfl,rfl,handleSketchFrame_writes,handleSketchSub_writes,frameWrites_bytes,?_,?_⟩
  · intro σ apply h
    exact dumpLoop_frames apply h [] packets small
  · exact dumpLoop_frames _ RoomHistory.empty [] packets small

/-- Two packets, cut in the middle of the header, of a length and of a packet. -/
theorem sketch_framing_round_trip_cut :
    let deliver (bytes : Bytes) : Delivery := ⟨Server.initial 64,0,bytes⟩
    let fed := replay (callback ⟨1⟩ 0) {}
      [deliver [83,75],deliver [66,32,97,10,2,0],deliver [0,0,7,8,1],deliver [0,0,0,9,4,0]]
    fed.2 = [.sketchSub [97],.sketchFrame fed.1.roomId [7,8],.sketchFrame fed.1.roomId [9]] ∧ fed.1.buf = [4,0] := by
  intro deliver fed
  have small : ∀ packet ∈ [[7,8],[(9 : UInt8)]], packet.length ≤ kMaxSketchFrame := by
    simp only [List.forall_mem_cons]
    exact ⟨by decide,by decide,fun _ none => nomatch none⟩
  have round_trip := sketch_framing_round_trip ⟨1⟩ 0 {} rfl rfl [97] (by decide) [[7,8],[9]] small [0,0,0,0] [4,0]
    (by decide) (by decide) (by decide)
    [deliver [83,75],deliver [66,32,97,10,2,0],deliver [0,0,7,8,1],deliver [0,0,0,9,4,0]] (by rfl)
  exact ⟨round_trip.1,round_trip.2.1⟩

/-! The cap and the codec. -/

theorem decode_length {packet : Bytes} {stroke : StrokePacket} (valid : StrokePacket.decode packet = some stroke) :
    packet.length = 18 + (readU16LE packet 14).toNat * 16 := by
  by_contra other
  have differs : packet.length ≠ CSP1_HEADER_BYTES + (readU16LE packet 14).toNat * CSP1_SAMPLE_BYTES := other
  unfold StrokePacket.decode at valid
  dsimp only at valid
  split at valid
  · cases valid
  · split at valid
    · cases valid
    · cases valid

/-- A valid packet on a stream in sketch mode is handed over, and the stream is back where it
was, exactly when it does not hold the largest count of samples. -/
theorem valid_packet_handled_iff (cnx : Cnx) (streamId : UInt64) (st : StreamState) (parsed : st.headerParsed = true)
    (sketch : st.isSketch = true) (empty : st.buf = []) (packet : Bytes) (stroke : StrokePacket)
    (valid : StrokePacket.decode packet = some stroke) (deliveries : List Delivery)
    (stream : deliveries.flatMap Delivery.bytes = frameBytes packet) :
    replay (callback cnx streamId) st deliveries = (st,[.sketchFrame st.roomId packet]) ↔
      readU16LE packet 14 ≠ 65535 := by
  have length := decode_length valid
  have count := (readU16LE packet 14).toNat_lt
  have cap : kMaxSketchFrame = 1048576 := rfl
  have full : readU16LE packet 14 = 65535 ↔ (readU16LE packet 14).toNat = 65535 :=
    UInt16.toNat_inj.symm
  constructor
  · intro handled largest
    have large : kMaxSketchFrame < packet.length := by
      have largest' := full.mp largest
      omega
    have blocked := @callbacks_blocked cnx streamId st parsed sketch deliveries packet (by omega) large
      (by simp only [empty,List.nil_append,stream,List.prefix_refl])
    rw [handled] at blocked
    cases congrArg Prod.snd blocked
  · intro below
    have admitted : Admitted packet := by
      have below' := mt full.mpr below
      change packet.length ≤ kMaxSketchFrame
      omega
    have own : st.withBuf [] = st := by
      rw [← empty]
      rfl
    have fed := @callbacks_frames cnx streamId st parsed sketch deliveries [packet]
      (fun other member => List.mem_singleton.mp member ▸ admitted) [] [] part_nil part_nil
      (by simp [stream])
    rwa [own] at fed

def sketching : StreamState := {headerParsed := true, isSketch := true, roomId := 1}

/-- A packet with two samples, cut inside its length and inside its first sample. -/
theorem valid_packet_handled_cut :
    let packet : Bytes := [67,83,80,49,7,0,0,0,1,0,0,0,0,0,2,0,1,0] ++ List.replicate 32 1
    let bytes := frameBytes packet
    let sample : Sample := ⟨0x01010101,0x01010101,0x01010101,0x01010101⟩
    StrokePacket.decode packet = some ⟨7,1,0,true,[sample,sample]⟩ ∧
      replay (callback ⟨1⟩ 0) sketching [⟨Server.initial 64,0,bytes.take 3⟩,⟨Server.initial 64,9,(bytes.drop 3).take 22⟩,
        ⟨Server.initial 64,0,bytes.drop 25⟩] = (sketching,[.sketchFrame 1 packet]) := by
  intro packet bytes sample
  have valid : StrokePacket.decode packet = some ⟨7,1,0,true,[sample,sample]⟩ := by decide
  exact ⟨valid,(valid_packet_handled_iff ⟨1⟩ 0 sketching rfl rfl rfl packet _ valid _ rfl).mpr (by decide)⟩

/-- A packet with as many samples as its count can say. -/
def fullStroke : Bytes := [67,83,80,49] ++ List.replicate 10 0 ++ [255,255] ++ List.replicate (2 + 65535 * 16) 0

theorem fullStroke_length : fullStroke.length = 1048578 := by
  rw [fullStroke,List.length_append,List.length_append,List.length_append,List.length_replicate,List.length_replicate]
  rfl

theorem fullStroke_decodes : (StrokePacket.decode fullStroke).isSome = true := by
  have magic : readU32LE fullStroke 0 = CSP1_MAGIC := by rfl
  have count : (readU16LE fullStroke 14).toNat = 65535 := by rfl
  have flags : fullStroke.getD 16 0 = 0 ∧ fullStroke.getD 17 0 = 0 := ⟨rfl,rfl⟩
  unfold StrokePacket.decode
  dsimp only
  rw [fullStroke_length,if_neg (by decide),if_neg (not_not.mpr magic),count,if_neg (by decide),flags.1,flags.2,
    if_neg (by decide),if_neg (by decide)]
  exact Option.isSome_some

/-- One callback with a frame above the cap; the packet stays a variable, so that nothing
has to be evaluated when it is a large one. -/
theorem large_packet_unhandled (s : Server) (packet : Bytes) (small : packet.length < 2^32)
    (large : kMaxSketchFrame < packet.length) :
    (replay (callback ⟨1⟩ 0) sketching [⟨s,0,frameBytes packet⟩]).2 = [] := by
  have blocked := @callbacks_blocked ⟨1⟩ 0 sketching rfl rfl [⟨s,0,frameBytes packet⟩] packet small large
    (by simp [sketching])
  rw [blocked]

theorem full_stroke_blocks_stream :
    (StrokePacket.decode fullStroke).isSome = true ∧
      (replay (callback ⟨1⟩ 0) sketching [⟨Server.initial 64,0,frameBytes fullStroke⟩]).2 = [] := by
  refine ⟨fullStroke_decodes,large_packet_unhandled (Server.initial 64) fullStroke ?_ ?_⟩
  · rw [fullStroke_length]
    decide
  · rw [fullStroke_length]
    decide

end WarpLoop.Bridge
