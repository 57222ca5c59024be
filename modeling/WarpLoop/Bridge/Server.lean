import Mathlib.Data.List.AList
import WarpLoop.Bridge.Stream
import WarpLoop.Core.Ffi
import WarpLoop.Sketch.History
import WarpLoop.Lib.Runs

/-! The fanout server (examples/picoquic_fanout_server.actor.cpp): its tables, the
handlers and the stream callback. The two Lean cores behind it, global in the
process, are part of the server's state, and so is the log of the writes handed to
the transport. The nested stream table of the source is keyed by the pair of
connection and stream here. -/
namespace WarpLoop.Bridge
open WarpLoop.Core Sketch Lib.Runs

/-- A connection handle: a pointer, whose value is the connection id. -/
structure Cnx where
  ptr : UInt64
deriving DecidableEq, Repr

def connIdOf (cnx : Cnx) : UInt64 := cnx.ptr

theorem connIdOf_inj {cnx other : Cnx} (same : connIdOf cnx = connIdOf other) : cnx = other := by
  cases cnx
  cases other
  exact congrArg Cnx.mk same

/-- One call of `picoquic_add_to_stream`. -/
structure Write where
  cnx : Cnx
  streamId : UInt64
  bytes : Bytes
deriving DecidableEq, Repr

structure Server where
  core : Core.State
  sketch : Sketch.FfiState
  topicToRoom : AList (fun _ : Bytes => UInt64)
  delivery : AList (fun _ : UInt64 => Cnx × UInt64)
  streams : AList (fun _ : Cnx × UInt64 => StreamState)
  writes : List Write

def absMagnitude (v : Int64) : UInt64 := if v < 0 then (-v).toUInt64 else v.toUInt64

def kSimTickMicros : UInt64 := 50000

def rttToTicks (rttMicros : UInt64) : UInt64 := (rttMicros + kSimTickMicros - 1) / kSimTickMicros

/-- The length of a frame as four little-endian bytes. -/
def lenPrefix (n : Nat) : Bytes :=
  [UInt8.ofNat n,UInt8.ofNat (n >>> 8),UInt8.ofNat (n >>> 16),UInt8.ofNat (n >>> 24)]

namespace Server

def initial (roomCapacity : UInt32) : Server where
  core := fanoutCoreInitialize roomCapacity
  sketch := Sketch.FfiState.initial
  topicToRoom := ∅
  delivery := ∅
  streams := ∅
  writes := []

def write (s : Server) (cnx : Cnx) (streamId : UInt64) (bytes : Bytes) : Server :=
  {s with writes := s.writes ++ [⟨cnx,streamId,bytes⟩]}

def writeAll (s : Server) (cnx : Cnx) (streamId : UInt64) (pieces : List Bytes) : Server :=
  pieces.foldl (fun s bytes => s.write cnx streamId bytes) s

/-- Writes to the delivery stream of one target, or skips a target that has none. -/
def deliver (pieces : List Bytes) (s : Server) (targetConnId : UInt64) : Server :=
  match s.delivery.lookup targetConnId with
  | none => s
  | some (cnx,streamId) => s.writeAll cnx streamId pieces

def relay (s : Server) (targets : List UInt64) (pieces : List Bytes) : Server := targets.foldl (deliver pieces) s

def getOrCreateRoom (s : Server) (topic : Bytes) : Server × UInt64 :=
  match s.topicToRoom.lookup topic with
  | some roomId => (s,roomId)
  | none =>
    let (core,roomId) := Ffi.allocRoom s.core
    let s := {s with core := core}
    if roomId ≠ SENTINEL then ({s with topicToRoom := s.topicToRoom.insert topic roomId},roomId) else (s,roomId)

/-- The part that `handleSub` and `handleSketchSub` share once a room is found. -/
def subscribe (s : Server) (cnx : Cnx) (streamId roomId : UInt64) : Server :=
  let s := {s with delivery := s.delivery.insert (connIdOf cnx) (cnx,streamId)}
  {s with core := Ffi.sub s.core roomId (connIdOf cnx)}

def handleSub (s : Server) (cnx : Cnx) (streamId : UInt64) (topic : Bytes) : Server :=
  let (s,roomId) := s.getOrCreateRoom topic
  if roomId = SENTINEL then s else s.subscribe cnx streamId roomId

/-- Also gives the room to store in the stream, when there is one. -/
def handleSketchSub (s : Server) (cnx : Cnx) (streamId : UInt64) (topic : Bytes) : Server × Option UInt64 :=
  let (s,roomId) := s.getOrCreateRoom topic
  if roomId = SENTINEL then (s,none)
  else
    let s := s.subscribe cnx streamId roomId
    ((sketchCoreHistory s.sketch roomId).foldl
      (fun s packet => s.writeAll cnx streamId [lenPrefix packet.length,packet]) s,some roomId)

def handleSketchFrame (s : Server) (cnx : Cnx) (roomId : UInt64) (frame : Bytes) : Server :=
  let (sketch,accepted) := sketchCoreApplyPacket s.sketch roomId frame
  let s := {s with sketch := sketch}
  if !accepted then s
  else s.relay (Ffi.pubTargets s.core roomId (connIdOf cnx)) [lenPrefix frame.length,frame]

def handlePub (s : Server) (cnx : Cnx) (topic payload : Bytes) : Server :=
  let (s,roomId) := s.getOrCreateRoom topic
  if roomId = SENTINEL then s
  else s.relay (Ffi.pubTargets s.core roomId (connIdOf cnx)) [payload]

def handleZoneSub (s : Server) (cnx : Cnx) (streamId : UInt64) : Server :=
  {s with delivery := s.delivery.insert (connIdOf cnx) (cnx,streamId)}

def handleZonePub (s : Server) (cnx : Cnx) (rttMicros : UInt64) (m : Motion) (payload : Bytes) : Server :=
  let core := Ffi.entityMoveV s.core (connIdOf cnx) m.x m.y m.z
    (absMagnitude m.vx) (absMagnitude m.vy) (absMagnitude m.vz) (rttToTicks rttMicros)
  let s := {s with core := core}
  s.relay (Ffi.zoneTargets s.core (connIdOf cnx) m.x m.y m.z) [payload]

/-- Dispatches the call of one round of a stream's loop. -/
def handle (cnx : Cnx) (streamId rttMicros : UInt64) (s : Server) : Call → Server × Option UInt64
  | .sub topic => (s.handleSub cnx streamId topic,none)
  | .sketchSub topic => s.handleSketchSub cnx streamId topic
  | .sketchFrame roomId frame => (s.handleSketchFrame cnx roomId frame,none)
  | .pub topic payload => (s.handlePub cnx topic payload,none)
  | .zoneSub => (s.handleZoneSub cnx streamId,none)
  | .zonePub motion payload => (s.handleZonePub cnx rttMicros motion payload,none)

/-- The first half of `cleanupStream`. -/
def forgetDelivery (s : Server) (cnx : Cnx) (streamId : UInt64) : Server :=
  match s.delivery.lookup (connIdOf cnx) with
  | some entry => if entry = (cnx,streamId) then {s with delivery := s.delivery.erase (connIdOf cnx)} else s
  | none => s

def cleanupStream (s : Server) (cnx : Cnx) (streamId : UInt64) (st : StreamState) : Server :=
  let connId := connIdOf cnx
  let s := s.forgetDelivery cnx streamId
  if st.isZonePub then {s with core := Ffi.entityRemove s.core connId}
  else if st.headerParsed && !st.isPub then
    match s.topicToRoom.lookup st.topic with
    | some roomId => {s with core := Ffi.unsub s.core roomId connId}
    | none => s
  else s

/-- `streams[cnx][streamId]`, which makes a fresh stream when there is none. -/
def stream (s : Server) (cnx : Cnx) (streamId : UInt64) : StreamState :=
  (s.streams.lookup (cnx,streamId)).getD {}

def putStream (s : Server) (cnx : Cnx) (streamId : UInt64) (st : StreamState) : Server :=
  {s with streams := s.streams.insert (cnx,streamId) st}

def eraseStream (s : Server) (cnx : Cnx) (streamId : UInt64) : Server :=
  {s with streams := s.streams.erase (cnx,streamId)}

def streamIds (s : Server) (cnx : Cnx) : List UInt64 :=
  (s.streams.keys.filter (fun key => key.1 = cnx)).map Prod.snd

/-- The data part of a callback, with the rounds that the pump made. -/
def streamData (s : Server) (cnx : Cnx) (streamId : UInt64) (bytes : Bytes) (rttMicros : UInt64) :
    Server × List Visit :=
  let pumped := receive (handle cnx streamId rttMicros) s (s.stream cnx streamId) bytes
  (pumped.1.putStream cnx streamId pumped.2.1,pumped.2.2)

def cleanupIfOpen (cnx : Cnx) (s : Server) (streamId : UInt64) : Server :=
  match s.streams.lookup (cnx,streamId) with
  | none => s
  | some st => s.cleanupStream cnx streamId st

end Server

/-- An iteration order of a hash table's keys. -/
structure Order where
  arrange : List UInt64 → List UInt64
  perm : ∀ keys, (arrange keys).Perm keys

/-- The callback events, each with what the transport supplies: the bytes, the
measured round-trip time, and for a closing the order of the table's iteration. -/
inductive Event
  | streamData (cnx : Cnx) (streamId : UInt64) (bytes : Bytes) (rttMicros : UInt64)
  | streamFin (cnx : Cnx) (streamId : UInt64) (bytes : Bytes) (rttMicros : UInt64)
  | streamReset (cnx : Cnx) (streamId : UInt64)
  | close (cnx : Cnx) (order : Order)
  | other

def fanoutStreamCallback (s : Server) : Event → Server
  | .streamData cnx streamId bytes rttMicros => (s.streamData cnx streamId bytes rttMicros).1
  | .streamFin cnx streamId bytes rttMicros =>
    let s := (s.streamData cnx streamId bytes rttMicros).1
    (s.cleanupStream cnx streamId (s.stream cnx streamId)).eraseStream cnx streamId
  | .streamReset cnx streamId =>
    match s.streams.lookup (cnx,streamId) with
    | none => s
    | some st => (s.cleanupStream cnx streamId st).eraseStream cnx streamId
  | .close cnx order =>
    let streamIds := order.arrange (s.streamIds cnx)
    let s := streamIds.foldl (Server.cleanupIfOpen cnx) s
    streamIds.foldl (fun s streamId => s.eraseStream cnx streamId) s
  | .other => s

end WarpLoop.Bridge
