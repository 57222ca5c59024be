import WarpLoop.Sketch.Codec

/-! Per-room packet history and its C interface (SketchCore/History.lean,
SketchCore/Ffi.lean and the helpers of examples/sketch_core_ffi.cpp): an
append-only, deduplicated log of packets for each room handle. -/
namespace WarpLoop.Sketch

abbrev Key := UInt32 × UInt32 × UInt16

structure RoomHistory where
  packets : List Bytes
  seen : List Key
deriving DecidableEq, Repr

namespace RoomHistory

def empty : RoomHistory := ⟨[],[]⟩

def key (p : StrokePacket) : Key := (p.peerId,p.strokeId,p.seq)

/-- The new history and whether the packet was accepted. -/
def apply (h : RoomHistory) (bytes : Bytes) : RoomHistory × Bool :=
  match StrokePacket.decode bytes with
  | none => (h,false)
  | some p =>
    if h.seen.contains (key p) then (h,false)
    else (⟨h.packets ++ [bytes],h.seen ++ [key p]⟩,true)

end RoomHistory

/-- The rooms in order of first use. -/
structure FfiState where
  rooms : List (UInt64 × RoomHistory)
deriving DecidableEq, Repr

def FfiState.initial : FfiState := ⟨[]⟩

/-- `withRoom`'s search: the first entry of the room is replaced, and a room
that has none is pushed at the end with an empty history. -/
def withRoomIn (roomId : UInt64) (f : RoomHistory → RoomHistory × Bool) :
    List (UInt64 × RoomHistory) → List (UInt64 × RoomHistory) × Bool
  | [] =>
    let (h,a) := f RoomHistory.empty
    ([(roomId,h)],a)
  | (rid,h)::rest =>
    if rid = roomId then
      let (h,a) := f h
      ((rid,h)::rest,a)
    else
      let (rest,a) := withRoomIn roomId f rest
      ((rid,h)::rest,a)

def sketchCoreApplyPacket (s : FfiState) (roomId : UInt64) (bytes : Bytes) : FfiState × Bool :=
  let (rooms,accepted) := withRoomIn roomId (fun h => h.apply bytes) s.rooms
  (⟨rooms⟩,accepted)

def historyCount (s : FfiState) (roomId : UInt64) : UInt32 :=
  match s.rooms.lookup roomId with
  | some h => h.packets.length.toUInt32
  | none => 0

/-- The scan continues past a matching room whose history is too short. -/
def historyPacket (s : FfiState) (roomId : UInt64) (i : UInt32) : Bytes :=
  match s.rooms.find? (fun entry => entry.1 == roomId && i.toNat < entry.2.packets.length) with
  | some entry => entry.2.packets.getD i.toNat []
  | none => []

def sketchCoreHistory (s : FfiState) (roomId : UInt64) : List Bytes :=
  (List.range (historyCount s roomId).toNat).map fun i => historyPacket s roomId i.toUInt32

end WarpLoop.Sketch
