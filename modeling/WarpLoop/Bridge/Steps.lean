import WarpLoop.Bridge.ServerSpecs

/-! The callbacks of the server as runs of small steps: bytes that arrive, single
rounds of a stream's loop, and closings. Invariants of the server are proved of the
small steps. -/
namespace WarpLoop.Bridge
open WarpLoop.Core Sketch Lib.Runs

inductive Micro
  | arrive (cnx : Cnx) (streamId : UInt64) (bytes : Bytes)
  | round (cnx : Cnx) (streamId rttMicros : UInt64)
  | finish (cnx : Cnx) (streamId : UInt64)
  | hangUp (cnx : Cnx) (order : Order)

namespace Server

def pumpOnce (s : Server) (cnx : Cnx) (streamId rttMicros : UInt64) : Server :=
  match s.streams.lookup (cnx,streamId) with
  | none => s
  | some st =>
    match pumpRound st with
    | .wait => s
    | .stop st => s.putStream cnx streamId st
    | .more none st => s.putStream cnx streamId st
    | .more (some call) st =>
      let handled := handle cnx streamId rttMicros s call
      handled.1.putStream cnx streamId (st.assign handled.2)

def finish (s : Server) (cnx : Cnx) (streamId : UInt64) : Server :=
  match s.streams.lookup (cnx,streamId) with
  | none => s
  | some st => (s.cleanupStream cnx streamId st).eraseStream cnx streamId

def micro (s : Server) : Micro → Server
  | .arrive cnx streamId bytes =>
    let st := s.stream cnx streamId
    s.putStream cnx streamId (st.withBuf (st.buf ++ bytes))
  | .round cnx streamId rttMicros => s.pumpOnce cnx streamId rttMicros
  | .finish cnx streamId => s.finish cnx streamId
  | .hangUp cnx order => fanoutStreamCallback s (.close cnx order)

def micros (s : Server) : Event → List Micro
  | .streamData cnx streamId bytes rttMicros =>
    .arrive cnx streamId bytes::List.replicate (s.streamData cnx streamId bytes rttMicros).2.length
      (.round cnx streamId rttMicros)
  | .streamFin cnx streamId bytes rttMicros =>
    .arrive cnx streamId bytes::(List.replicate (s.streamData cnx streamId bytes rttMicros).2.length
      (.round cnx streamId rttMicros) ++ [.finish cnx streamId])
  | .streamReset cnx streamId => [.finish cnx streamId]
  | .close cnx order => [.hangUp cnx order]
  | .other => []

def withStreams (s : Server) (streams : AList (fun _ : Cnx × UInt64 => StreamState)) : Server :=
  {s with streams := streams}

theorem getOrCreateRoom_withStreams (s : Server) (streams : AList (fun _ : Cnx × UInt64 => StreamState))
    (topic : Bytes) :
    (s.withStreams streams).getOrCreateRoom topic =
      ((s.getOrCreateRoom topic).1.withStreams streams,(s.getOrCreateRoom topic).2) := by
  have table : (s.withStreams streams).topicToRoom = s.topicToRoom := rfl
  have core : (s.withStreams streams).core = s.core := rfl
  unfold getOrCreateRoom
  rw [table,core]
  cases s.topicToRoom.lookup topic with
  | some roomId => rfl
  | none =>
    dsimp only
    split <;> rfl

theorem handle_withStreams (s : Server) (streams : AList (fun _ : Cnx × UInt64 => StreamState))
    (cnx : Cnx) (streamId rttMicros : UInt64) (call : Call) :
    handle cnx streamId rttMicros (s.withStreams streams) call =
      ((handle cnx streamId rttMicros s call).1.withStreams streams,(handle cnx streamId rttMicros s call).2) := by
  cases call with
  | sub topic =>
    simp only [handle,handleSub,getOrCreateRoom_withStreams]
    split <;> rfl
  | sketchSub topic =>
    simp only [handle,handleSketchSub,getOrCreateRoom_withStreams]
    split
    · rfl
    · rw [replay_eq,replay_eq]; rfl
  | sketchFrame roomId frame =>
    simp only [handle,handleSketchFrame_eq]
    rfl
  | pub topic payload =>
    simp only [handle,handlePub,getOrCreateRoom_withStreams]
    split
    · rfl
    · rw [relay_eq,relay_eq]; rfl
  | zoneSub => rfl
  | zonePub motion payload =>
    simp only [handle,handleZonePub,relay_eq]
    rfl

theorem handle_streams (s : Server) (cnx : Cnx) (streamId rttMicros : UInt64) (call : Call) :
    (handle cnx streamId rttMicros s call).1.streams = s.streams := by
  have same := handle_withStreams s s.streams cnx streamId rttMicros call
  exact congrArg (fun result => result.1.streams) same

theorem putStream_putStream (s : Server) (cnx : Cnx) (streamId : UInt64) (st st' : StreamState) :
    (s.putStream cnx streamId st).putStream cnx streamId st' = s.putStream cnx streamId st' := by
  simp [putStream,AList.insert_insert]

theorem run_rounds (s : Server) (cnx : Cnx) (streamId rttMicros : UInt64) (fuel : Nat) (st : StreamState) :
    let pumped := pumpStream (handle cnx streamId rttMicros) fuel s st
    run micro (s.putStream cnx streamId st) (List.replicate pumped.2.2.length (.round cnx streamId rttMicros)) =
      pumped.1.putStream cnx streamId pumped.2.1 := by
  induction fuel generalizing s st with
  | zero => rfl
  | succ fuel ih =>
    have here : (s.putStream cnx streamId st).streams.lookup (cnx,streamId) = some st := by simp [putStream]
    cases round : pumpRound st with
    | wait => simp [pumpStream,round,run]
    | stop after =>
      simp only [pumpStream,round,List.length_singleton,List.replicate_one,run,List.foldl_cons,List.foldl_nil,micro,
        pumpOnce,here,putStream_putStream]
    | more call after =>
      cases call with
      | none =>
        simp only [pumpStream,round,List.length_cons,List.replicate_succ,run_cons]
        rw [← ih s after]
        simp only [micro,pumpOnce,here,round,putStream_putStream]
      | some call =>
        simp only [pumpStream,round,List.length_cons,List.replicate_succ,run_cons]
        rw [← ih]
        have same := handle_withStreams s (s.putStream cnx streamId st).streams cnx streamId rttMicros call
        change handle cnx streamId rttMicros (s.putStream cnx streamId st) call = _ at same
        simp only [micro,pumpOnce,here,round,same]
        congr 1
        simp [putStream,withStreams,handle_streams,AList.insert_insert]

theorem run_streamData (s : Server) (cnx : Cnx) (streamId : UInt64) (bytes : Bytes) (rttMicros : UInt64) :
    run micro s (.arrive cnx streamId bytes::List.replicate (s.streamData cnx streamId bytes rttMicros).2.length
      (.round cnx streamId rttMicros)) = (s.streamData cnx streamId bytes rttMicros).1 :=
  run_rounds s cnx streamId rttMicros _ _

/-- A callback is the run of its small steps. -/
theorem run_micros (s : Server) (event : Event) : run micro s (s.micros event) = fanoutStreamCallback s event := by
  cases event with
  | streamData cnx streamId bytes rttMicros => exact run_streamData s cnx streamId bytes rttMicros
  | streamFin cnx streamId bytes rttMicros =>
    rw [micros,← List.cons_append,run_append,run_streamData]
    have here : (s.streamData cnx streamId bytes rttMicros).1.streams.lookup (cnx,streamId) =
        some ((s.streamData cnx streamId bytes rttMicros).1.stream cnx streamId) := by
      simp [streamData,putStream,stream]
    simp only [run,List.foldl_cons,List.foldl_nil,micro,finish,here,fanoutStreamCallback]
  | streamReset cnx streamId => rfl
  | close cnx order => rfl
  | other => rfl

end Server

end WarpLoop.Bridge
