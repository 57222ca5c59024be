import WarpLoop.Bridge.Headers
import WarpLoop.Bridge.ServerSpecs
import WarpLoop.Lib.Incremental

/-! How much the cut of a stream's bytes into callbacks matters. The loop of the
stream parser is an incremental scanner; it halts where the source returns early
with part of the buffer consumed, and there the next callback goes on with the rest
of the buffer. -/
namespace WarpLoop.Bridge
open Sketch (Bytes)
open Lib.Incremental

/-- The early returns of the loop that leave bytes behind which the next callback
would go on with: a line without a space in front of another complete line, or a
header that is rejected while the flag of an earlier one makes the loop take what
follows for a payload. -/
def StreamState.LeavesWork (st : StreamState) : Prop :=
  st.headerParsed = false ∧ ∃ line rest, cut newline st.buf = some (line,rest) ∧
    match cut space line with
    | none => newline ∈ rest
    | some (word,fields) =>
      (Verb.ofBytes word = .unknown ∨ Verb.ofBytes word = .zpb ∧ (parseZpbFields fields st.motion).1 = false) ∧
        (st.isPub = true ∨ st.isZonePub = true) ∧ kEntityPacketSize ≤ rest.length

/-- No round of the loop on these bytes returns with work left. -/
def NoWorkLeft : Nat → StreamState → Prop
  | 0,_ => True
  | fuel+1,st => ¬ st.LeavesWork ∧
    match pumpRound st with
    | .more _ after => NoWorkLeft fuel after
    | _ => True

namespace Server

def deliverAll (cnx : Cnx) (streamId : UInt64) : Server → List (Bytes × UInt64) → Server × List Call
  | s,[] => (s,[])
  | s,(bytes,rttMicros)::later =>
    let first := s.streamData cnx streamId bytes rttMicros
    let rest := deliverAll cnx streamId first.1 later
    (rest.1,first.2.filterMap Visit.call ++ rest.2)

def SameRooms (s s' : Server) : Prop := s.core.rooms = s'.core.rooms ∧ s.topicToRoom = s'.topicToRoom

theorem SameRooms.getOrCreateRoom {s s' : Server} (same : SameRooms s s') (topic : Bytes) :
    SameRooms (s.getOrCreateRoom topic).1 (s'.getOrCreateRoom topic).1 ∧
      (s.getOrCreateRoom topic).2 = (s'.getOrCreateRoom topic).2 := by
  obtain ⟨rooms,topics⟩ := same
  unfold Server.getOrCreateRoom Core.Ffi.allocRoom
  rw [rooms,topics]
  cases s'.topicToRoom.lookup topic with
  | some roomId => exact ⟨⟨rooms,topics⟩,rfl⟩
  | none =>
    cases s'.core.rooms.alloc Core.Room.empty with
    | none => simp [SameRooms,rooms]
    | some pair =>
      by_cases sentinel : pair.2.pack = Core.SENTINEL
      · simp [sentinel,SameRooms]
      · simp [sentinel,SameRooms]

theorem SameRooms.sub {s s' : Server} (same : SameRooms s s') (roomId connId : UInt64) :
    (Core.Ffi.sub s.core roomId connId).rooms = (Core.Ffi.sub s'.core roomId connId).rooms := by
  simp only [Core.Ffi.sub,same.1]
  cases s'.core.rooms.find (Core.Id.unpack roomId) with
  | none => exact same.1
  | some room => rfl

theorem SameRooms.handle {s s' : Server} (same : SameRooms s s') (cnx : Cnx) (streamId rtt rtt' : UInt64)
    (call : Call) :
    SameRooms (Server.handle cnx streamId rtt s call).1 (Server.handle cnx streamId rtt' s' call).1 ∧
      (Server.handle cnx streamId rtt s call).2 = (Server.handle cnx streamId rtt' s' call).2 := by
  cases call with
  | sub topic =>
    obtain ⟨found,id⟩ := same.getOrCreateRoom topic
    simp only [Server.handle,handleSub,id]
    split
    · exact ⟨found,trivial⟩
    · exact ⟨⟨found.sub _ _,found.2⟩,trivial⟩
  | sketchSub topic =>
    obtain ⟨found,id⟩ := same.getOrCreateRoom topic
    simp only [Server.handle,handleSketchSub,id]
    split
    · exact ⟨found,rfl⟩
    · rw [replay_eq,replay_eq]
      exact ⟨⟨found.sub _ _,found.2⟩,rfl⟩
  | sketchFrame roomId frame =>
    simp only [Server.handle,handleSketchFrame_eq]
    exact ⟨same,trivial⟩
  | pub topic payload =>
    obtain ⟨found,id⟩ := same.getOrCreateRoom topic
    simp only [Server.handle,handlePub,id]
    split
    · exact ⟨found,trivial⟩
    · rw [relay_eq,relay_eq]
      exact ⟨found,trivial⟩
  | zoneSub => exact ⟨same,rfl⟩
  | zonePub motion payload =>
    simp only [Server.handle,handleZonePub,relay_eq]
    exact ⟨same,trivial⟩

end Server

/-- Handlers that agree on what they give back run the loop through the same
rounds. -/
theorem pumpStream_congr {ω : Type} {handle handle' : ω → Call → ω × Option UInt64} (R : ω → ω → Prop)
    (agree : ∀ w w' call, R w w' → R (handle w call).1 (handle' w' call).1 ∧ (handle w call).2 = (handle' w' call).2)
    (fuel : Nat) (w w' : ω) (st : StreamState) (related : R w w') :
    R (pumpStream handle fuel w st).1 (pumpStream handle' fuel w' st).1 ∧
      (pumpStream handle fuel w st).2 = (pumpStream handle' fuel w' st).2 := by
  induction fuel generalizing w w' st with
  | zero => exact ⟨related,rfl⟩
  | succ fuel ih =>
    cases round : pumpRound st with
    | wait => simp [pumpStream,round,related]
    | stop after => simp [pumpStream,round,related]
    | more call after =>
      cases call with
      | none =>
        obtain ⟨on,same⟩ := ih w w' after related
        simp only [pumpStream,round,same]
        exact ⟨on,trivial⟩
      | some call =>
        obtain ⟨next,given⟩ := agree w w' call related
        obtain ⟨on,same⟩ := ih _ _ (after.assign (handle' w' call).2) next
        simp only [pumpStream,round,given,same]
        exact ⟨on,trivial⟩

/-- What the scanner makes of a round: an early return halts it. -/
def Round.taken (handle : Server → Call → Server × Option UInt64) (s : Server) :
    Round → Option (Taken (StreamState × Server) UInt8 Call)
  | .wait => none
  | .stop st => some ⟨true,(st.withBuf [],s),none,st.buf⟩
  | .more none st => some ⟨false,(st.withBuf [],s),none,st.buf⟩
  | .more (some call) st =>
    some ⟨false,((st.assign (handle s call).2).withBuf [],(handle s call).1),some call,st.buf⟩

private theorem taken_withBuf (handle : Server → Call → Server × Option UInt64) (s : Server) (r : Round)
    (rest : Bytes) :
    (r.withBuf rest).taken handle s = (r.taken handle s).map (fun t => {t with rest := rest}) := by
  cases r with
  | wait => rfl
  | stop st => rfl
  | more call st =>
    cases call with
    | none => rfl
    | some call =>
      simp only [Round.withBuf,Round.taken,Option.map_some,Option.some.injEq,Taken.mk.injEq,Prod.mk.injEq,true_and,
        and_true]
      refine ⟨?_,rfl⟩
      cases (handle s call).2 <;> rfl

private theorem taken_state (handle : Server → Call → Server × Option UInt64) (s : Server) (r : Round)
    (t : Taken (StreamState × Server) UInt8 Call) (taken : r.taken handle s = some t) :
    ∃ st', r.state? = some st' ∧ st'.buf = t.rest := by
  cases r with
  | wait => cases taken
  | stop st => cases taken; exact ⟨st,rfl,rfl⟩
  | more call st => cases call <;> cases taken <;> exact ⟨st,rfl,rfl⟩

/-- The stream parser as a scanner; its state carries an empty buffer. -/
def scanner (handle : Server → Call → Server × Option UInt64) : Scanner (StreamState × Server) UInt8 Call where
  next := fun state b => (pumpRound (state.1.withBuf b)).taken handle state.2
  reads := by
    intro state b t taken
    obtain ⟨st',after,rest⟩ := taken_state handle state.2 _ t taken
    obtain ⟨p,read,split,again⟩ := pumpRound_reads after
    refine ⟨p,read,by rw [← rest]; exact split,fun r => ?_⟩
    have same : pumpRound (state.1.withBuf (p ++ r)) = _ := again r
    rw [same,taken_withBuf,taken]
    rfl

@[simp] theorem StreamState.withBuf_buf (st : StreamState) : st.withBuf st.buf = st := rfl

@[simp] theorem StreamState.withBuf_withBuf (st : StreamState) (b c : Bytes) :
    (st.withBuf b).withBuf c = st.withBuf c := rfl

@[simp] theorem StreamState.assign_buf (st : StreamState) (roomId : Option UInt64) : (st.assign roomId).buf = st.buf := by
  cases roomId <;> rfl

theorem pumpStream_eq_drain (handle : Server → Call → Server × Option UInt64) (fuel : Nat) (s : Server)
    (st : StreamState) :
    let drained := (scanner handle).drain fuel (st.withBuf [],s) st.buf
    (pumpStream handle fuel s st).1 = drained.1.2 ∧
      (pumpStream handle fuel s st).2.1.withBuf [] = drained.1.1 ∧
      (pumpStream handle fuel s st).2.1.buf = drained.2.1 ∧
      (pumpStream handle fuel s st).2.2.filterMap Visit.call = drained.2.2 := by
  induction fuel generalizing s st with
  | zero => exact ⟨rfl,rfl,rfl,rfl⟩
  | succ fuel ih =>
    have next : (scanner handle).next (st.withBuf [],s) st.buf = (pumpRound st).taken handle s := rfl
    cases round : pumpRound st with
    | wait => simp [pumpStream,Scanner.drain,next,round,Round.taken]
    | stop after => simp [pumpStream,Scanner.drain,next,round,Round.taken]
    | more call after =>
      cases call with
      | none =>
        obtain ⟨world,state,buf,calls⟩ := ih s after
        simp [pumpStream,Scanner.drain,next,round,Round.taken,world,state,buf,calls]
      | some call =>
        obtain ⟨world,state,buf,calls⟩ := ih (handle s call).1 (after.assign (handle s call).2)
        rw [StreamState.assign_buf] at world state buf calls
        simp [pumpStream,Scanner.drain,next,round,Round.taken,world,state,buf,calls]

namespace Server

theorem stream_putStream (s : Server) (cnx : Cnx) (streamId : UInt64) (st : StreamState) :
    (s.putStream cnx streamId st).stream cnx streamId = st := by
  simp [stream,putStream]

/-- Consecutive callbacks of a stream feed its bytes to the scanner, whatever the
round-trip times measured on the way. -/
theorem deliverAll_eq_feedAll (cnx : Cnx) (streamId : UInt64) (s s' : Server) (same : SameRooms s s')
    (chunks : List (Bytes × UInt64)) :
    let fed := (scanner (Server.handle cnx streamId 0)).feedAll ((s.stream cnx streamId).withBuf [],s')
      (s.stream cnx streamId).buf (chunks.map Prod.fst)
    ((deliverAll cnx streamId s chunks).1.stream cnx streamId).withBuf [] = fed.1.1 ∧
      ((deliverAll cnx streamId s chunks).1.stream cnx streamId).buf = fed.2.1 ∧
      (deliverAll cnx streamId s chunks).2 = fed.2.2 := by
  induction chunks generalizing s s' with
  | nil => exact ⟨rfl,rfl,rfl⟩
  | cons chunk later ih =>
    obtain ⟨bytes,rtt⟩ := chunk
    let st := (s.stream cnx streamId).withBuf ((s.stream cnx streamId).buf ++ bytes)
    obtain ⟨rooms,result⟩ := pumpStream_congr SameRooms
      (fun w w' call related => related.handle cnx streamId rtt 0 call) st.buf.length s s' st same
    obtain ⟨world,state,buf,calls⟩ := pumpStream_eq_drain (Server.handle cnx streamId 0) st.buf.length s' st
    let first := s.streamData cnx streamId bytes rtt
    have stored : first.1.stream cnx streamId =
        (pumpStream (Server.handle cnx streamId 0) st.buf.length s' st).2.1 := by
      rw [← result]
      exact stream_putStream _ _ _ _
    have visits : first.2 = (pumpStream (Server.handle cnx streamId 0) st.buf.length s' st).2.2 := by
      rw [← result]
      rfl
    rw [world] at rooms
    have rest := ih first.1 _ ⟨rooms.1,rooms.2⟩
    rw [stored,state,buf] at rest
    obtain ⟨restState,restBuf,restCalls⟩ := rest
    refine ⟨restState,restBuf,?_⟩
    rw [deliverAll]
    change first.2.filterMap Visit.call ++ _ = _
    rw [visits,calls,restCalls]
    rfl

end Server

/-- An early return leaves work exactly when the loop would go on from the state
that it leaves. -/
theorem leavesWork_iff_of_stop {st after : StreamState} (stays : st.SketchStays) (stop : pumpRound st = .stop after) :
    st.LeavesWork ↔ pumpRound after ≠ .wait := by
  have plain (fresh : st.headerParsed = false) : st.isSketch = false := by
    cases sketch : st.isSketch with
    | false => rfl
    | true => rw [stays sketch] at fresh; cases fresh
  have taking : Taking st none after := pumpRound_taking (by simp [stop])
  have rejected {line rest fields word : Bytes} (fresh : st.headerParsed = false)
      (found : cut newline st.buf = some (line,rest)) (header : cut space line = some (word,fields))
      (bad : Verb.ofBytes word = .unknown ∨ Verb.ofBytes word = .zpb ∧ (parseZpbFields fields st.motion).1 = false) :
      st.LeavesWork ↔ (st.isPub = true ∨ st.isZonePub = true) ∧ kEntityPacketSize ≤ rest.length := by
    simp only [StreamState.LeavesWork,fresh,found,Option.some.injEq,Prod.mk.injEq,true_and]
    constructor
    · rintro ⟨_,_,⟨rfl,rfl⟩,work⟩
      simp only [header] at work
      exact work.2
    · intro work
      refine ⟨line,rest,⟨rfl,rfl⟩,?_⟩
      simp only [header]
      exact ⟨bad,work⟩
  cases taking with
  | bare fresh found nospace =>
    rename_i line rest
    have lineLeft : st.LeavesWork ↔ newline ∈ rest := by
      simp only [StreamState.LeavesWork,fresh,found,Option.some.injEq,Prod.mk.injEq,true_and]
      constructor
      · rintro ⟨_,_,⟨rfl,rfl⟩,work⟩
        simpa only [nospace] using work
      · intro work
        exact ⟨line,rest,⟨rfl,rfl⟩,by simpa only [nospace] using work⟩
    rw [lineLeft]
    have freshStill : (st.withBuf rest).headerParsed = false := fresh
    cases next : cut newline rest with
    | none =>
      have waits : pumpRound (st.withBuf rest) = .wait := pumpRound_open freshStill next
      simp [waits,(cut_eq_none newline rest).mp next]
    | some pair =>
      have member : newline ∈ rest := by
        by_contra absent
        rw [(cut_eq_none newline rest).mpr absent] at next
        cases next
      have goes : pumpRound (st.withBuf rest) = parseHeader (st.withBuf rest) pair.1 pair.2 :=
        pumpRound_header freshStill next
      simp [goes,member,parseHeader_ne_wait]
  | pub at_line =>
    obtain ⟨word,fields,known⟩ := at_line.fields
    rw [pumpRound_header at_line.fresh at_line.found] at stop
    simp [parseHeader,fields,known] at stop
  | badZpb at_line bad =>
    obtain ⟨word,fields,known⟩ := at_line.fields
    rw [rejected at_line.fresh at_line.found fields (Or.inr ⟨known,bad⟩)]
    apply Iff.symm
    apply packet_due
    · rfl
    · exact plain at_line.fresh
  | unknown at_line =>
    obtain ⟨word,fields,known⟩ := at_line.fields
    rw [rejected at_line.fresh at_line.found fields (Or.inl known)]
    apply Iff.symm
    apply packet_due
    · rfl
    · exact plain at_line.fresh

/-- Only an early return leaves work. -/
theorem leavesWork_stop {st : StreamState} (work : st.LeavesWork) : ∃ after, pumpRound st = .stop after := by
  obtain ⟨fresh,line,rest,found,left⟩ := work
  rw [pumpRound_header fresh found]
  unfold parseHeader
  cases header : cut space line with
  | none => exact ⟨_,rfl⟩
  | some pair =>
    simp only [header] at left
    obtain ⟨unknown | ⟨zpb,bad⟩,_⟩ := left
    · simp [unknown]
    · rcases parsed : parseZpbFields pair.2 st.motion with ⟨_ | _,motion⟩
      · simp [zpb,parsed]
      · simp [parsed] at bad

theorem handle_room {cnx : Cnx} {streamId rtt roomId : UInt64} {s : Server} {call : Call}
    (assigned : (Server.handle cnx streamId rtt s call).2 = some roomId) : ∃ topic, call = .sketchSub topic := by
  cases call with
  | sketchSub topic => exact ⟨topic,rfl⟩
  | _ => cases assigned

section Quiet

variable (cnx : Cnx) (streamId rtt : UInt64)

theorem quiet_sketch {st : StreamState} (parsed : st.headerParsed = true) (sketch : st.isSketch = true)
    (s : Server) (b : Bytes) : (scanner (Server.handle cnx streamId rtt)).Quiet (st.withBuf [],s) b := by
  induction length : b.length using Nat.strongRecOn generalizing s b with
  | ind n ih =>
    subst n
    rcases @pumpRound_sketch (st.withBuf b) parsed sketch with waits | ⟨frame,rest,goes⟩
    · exact .wait (by simp [scanner,waits,Round.taken])
    · have taken : (scanner (Server.handle cnx streamId rtt)).next (st.withBuf [],s) b = some
          ⟨false,(st.withBuf [],(Server.handle cnx streamId rtt s (.sketchFrame st.roomId frame)).1),
            some (.sketchFrame st.roomId frame),rest⟩ := by
        simp only [scanner,StreamState.withBuf_withBuf,goes]
        rfl
      exact .more taken rfl (ih _ (Scanner.rest_length_lt taken) _ _ rfl)

theorem noWorkLeft_sketch {st : StreamState} (parsed : st.headerParsed = true) (sketch : st.isSketch = true)
    (fuel : Nat) : NoWorkLeft fuel st := by
  induction fuel generalizing st with
  | zero => trivial
  | succ fuel ih =>
    refine ⟨fun work => Bool.false_ne_true (work.1.symm.trans parsed),?_⟩
    rcases pumpRound_sketch parsed sketch with waits | ⟨frame,rest,goes⟩
    · simp [waits]
    · simp only [goes]
      exact ih parsed sketch

/-- The scanner is quiet on the bytes of a stream exactly when its loop never
returns with work left. -/
theorem quiet_iff_noWorkLeft {st : StreamState} (stays : st.SketchStays) (s : Server) (fuel : Nat)
    (enough : st.buf.length ≤ fuel) :
    (scanner (Server.handle cnx streamId rtt)).Quiet (st.withBuf [],s) st.buf ↔ NoWorkLeft fuel st := by
  induction fuel generalizing st s with
  | zero =>
    have empty : st.buf = [] := List.length_eq_zero_iff.mp (by omega)
    rw [empty]
    exact iff_of_true (.wait (Scanner.next_nil _)) trivial
  | succ fuel ih =>
    have next : (scanner (Server.handle cnx streamId rtt)).next (st.withBuf [],s) st.buf =
        (pumpRound st).taken (Server.handle cnx streamId rtt) s := rfl
    cases round : pumpRound st with
    | wait =>
      rw [round] at next
      exact iff_of_true (.wait next) ⟨fun work => by simpa [round] using leavesWork_stop work,by simp [round]⟩
    | stop after =>
      rw [round] at next
      have idle : (scanner (Server.handle cnx streamId rtt)).next (after.withBuf [],s) after.buf = none ↔
          pumpRound after = .wait := by
        change (pumpRound after).taken (Server.handle cnx streamId rtt) s = none ↔ _
        rcases pumpRound after with _ | _ | ⟨_ | _,_⟩ <;> simp [Round.taken]
      simp only [NoWorkLeft,round,leavesWork_iff_of_stop stays round,and_true,not_not,← idle]
      exact Scanner.quiet_halt_iff next rfl
    | more call after =>
      have idle : ¬ st.LeavesWork := fun work => by simpa [round] using leavesWork_stop work
      have shorter : after.buf.length ≤ fuel := by
        obtain ⟨p,read,split,_⟩ := @pumpRound_reads st after (by simp [round,Round.state?])
        have := List.length_pos_iff.mpr read
        rw [split,List.length_append] at enough
        omega
      have taking : Taking st call after := pumpRound_taking (by simp [round])
      have staysAfter : after.SketchStays := taking.sketchStays stays
      simp only [NoWorkLeft,round,idle,not_false_eq_true,true_and]
      rw [round] at next
      cases call with
      | none =>
        rw [Scanner.quiet_more_iff next rfl]
        exact ih staysAfter s shorter
      | some call =>
        rw [Scanner.quiet_more_iff next rfl]
        cases assigned : (Server.handle cnx streamId rtt s call).2 with
        | none => exact ih staysAfter _ shorter
        | some roomId =>
          -- a room is assigned by a sketch header only, and after it there are no more early returns
          obtain ⟨topic,rfl⟩ := handle_room assigned
          have sketch : after.headerParsed = true ∧ after.isSketch = true := by
            cases taking
            exact ⟨rfl,rfl⟩
          exact iff_of_true
            (@quiet_sketch cnx streamId rtt (after.assign (some roomId)) sketch.1 sketch.2 _ _)
            (noWorkLeft_sketch sketch.1 sketch.2 fuel)

end Quiet

/-- Any two cuts of the bytes into non-empty callbacks make the same calls and end
in the same stream state. -/
def ChunkingIndependent (s : Server) (cnx : Cnx) (streamId : UInt64) (bytes : Bytes) : Prop :=
  ∀ chunks others : List (Bytes × UInt64), [] ∉ chunks.map Prod.fst → [] ∉ others.map Prod.fst →
    (chunks.map Prod.fst).flatten = bytes → (others.map Prod.fst).flatten = bytes →
    (Server.deliverAll cnx streamId s chunks).2 = (Server.deliverAll cnx streamId s others).2 ∧
      (Server.deliverAll cnx streamId s chunks).1.stream cnx streamId =
        (Server.deliverAll cnx streamId s others).1.stream cnx streamId

/-- On a fresh stream the cut into callbacks cannot be observed exactly when the
loop over the whole input never returns early with work left. -/
theorem chunkingIndependent_iff_noWorkLeft (s : Server) (cnx : Cnx) (streamId : UInt64) (bytes : Bytes)
    (fresh : s.streams.lookup (cnx,streamId) = none) :
    ChunkingIndependent s cnx streamId bytes ↔ NoWorkLeft bytes.length {buf := bytes} := by
  let scan := scanner (Server.handle cnx streamId 0)
  have empty : s.stream cnx streamId = {} := by simp [Server.stream,fresh]
  have fed (chunks : List (Bytes × UInt64)) :
      ((Server.deliverAll cnx streamId s chunks).1.stream cnx streamId).withBuf [] =
          (scan.feedAll ({},s) [] (chunks.map Prod.fst)).1.1 ∧
        ((Server.deliverAll cnx streamId s chunks).1.stream cnx streamId).buf =
          (scan.feedAll ({},s) [] (chunks.map Prod.fst)).2.1 ∧
        (Server.deliverAll cnx streamId s chunks).2 = (scan.feedAll ({},s) [] (chunks.map Prod.fst)).2.2 := by
    have all := Server.deliverAll_eq_feedAll cnx streamId s s ⟨rfl,rfl⟩ chunks
    rwa [empty] at all
  have quiet : scan.Quiet ({},s) bytes ↔ NoWorkLeft bytes.length {buf := bytes} :=
    @quiet_iff_noWorkLeft cnx streamId 0 {buf := bytes} (fun sketch => by cases sketch) s _ (Nat.le_refl _)
  rw [← quiet]
  constructor
  · intro independent
    apply Scanner.quiet_of_feedAll_congr
    intro chunks others nonempty nonemptyToo joined joinedToo
    -- round-trip times do not matter, so any will do
    have timed (cut : List Bytes) : (cut.map fun chunk => (chunk,(0 : UInt64))).map Prod.fst = cut := by
      simp [Function.comp_def]
    have same := (independent (chunks.map fun chunk => (chunk,0)) (others.map fun chunk => (chunk,0))
      (by rwa [timed]) (by rwa [timed]) (by rwa [timed]) (by rwa [timed])).2
    have buffers := congrArg StreamState.buf same
    rw [(fed _).2.1,(fed _).2.1,timed,timed] at buffers
    exact buffers
  · intro quiet chunks others _ _ joined joinedToo
    have same := Scanner.feedAll_congr quiet joined joinedToo
    obtain ⟨state,buf,calls⟩ := fed chunks
    obtain ⟨stateToo,bufToo,callsToo⟩ := fed others
    rw [same] at state buf calls
    refine ⟨calls.trans callsToo.symm,?_⟩
    have modes := state.trans stateToo.symm
    have buffers := buf.trans bufToo.symm
    rw [← StreamState.withBuf_buf (Server.stream _ _ _),← StreamState.withBuf_withBuf _ [],modes,buffers]
    rfl

theorem chunkingIndependent_iff_noWorkLeft_sub :
    (Server.initial 64).streams.lookup (⟨1⟩,0) = none ∧
      (ChunkingIndependent (Server.initial 64) ⟨1⟩ 0 [83,85,66,32,97,10] ↔
        NoWorkLeft 6 {buf := [83,85,66,32,97,10]}) :=
  ⟨by decide +kernel,chunkingIndependent_iff_noWorkLeft _ _ _ _ (by decide +kernel)⟩

/-- The line `X` has no space. With `SUB a` behind it in the same callback the
subscription stays in the buffer; in a callback of its own it is handled. -/
theorem subscription_behind_bare_line_depends_on_chunking :
    ¬ ChunkingIndependent (Server.initial 64) ⟨1⟩ 0 [88,10,83,85,66,32,97,10] := by
  intro independent
  have calls := (independent [([88,10,83,85,66,32,97,10],0)] [([88,10],0),([83,85,66,32,97,10],0)]
    (by decide) (by decide) (by decide) (by decide)).1
  revert calls
  decide +kernel

end WarpLoop.Bridge
