import WarpLoop.Sketch.HistorySpecs
import WarpLoop.Sketch.Graph

/-! The strokes of a room's log and its graph (SketchCore/History.lean), and what they depend
on: the packets that were accepted, not the order in which they came. -/
namespace WarpLoop.Sketch
open Lib.Insertion

def Sample.pos (s : Sample) : Vec3 := ⟨(Float32.ofBits s.x).toFloat,(Float32.ofBits s.y).toFloat,(Float32.ofBits s.z).toFloat⟩

namespace RoomHistory

abbrev GroupKey := UInt32 × UInt32

def groupKey (p : StrokePacket) : GroupKey := (p.peerId,p.strokeId)

/-- A packet is pushed to the group of its stroke, or opens that group. -/
def addToGroup (grouped : List GroupKey × List (List StrokePacket)) (p : StrokePacket) : List GroupKey × List (List StrokePacket) :=
  let (order,groups) := grouped
  let gk := groupKey p
  let (groups,found) := (List.range order.length).foldl (fun (groups,found) i =>
    if order[i]! == gk then (groups.set i (groups[i]! ++ [p]),true) else (groups,found)) (groups,false)
  if !found then (order ++ [gk],groups ++ [[p]]) else (order,groups)

def addPacket (grouped : List GroupKey × List (List StrokePacket)) (bytes : Bytes) : List GroupKey × List (List StrokePacket) :=
  match StrokePacket.decode bytes with
  | none => grouped
  | some p => addToGroup grouped p

def keyBefore (a b : GroupKey) : Bool := a.1 < b.1 || (a.1 == b.1 && a.2 < b.2)

/-- The samples of a group one packet after the other, by their sequence numbers. -/
def assemble (key : GroupKey) (group : List StrokePacket) : Stroke :=
  let sorted := sortLoop (fun p q => p.seq < q.seq) group
  let (samples,closed) := sorted.foldl (fun (samples,closed) p => (samples ++ p.samples.map Sample.pos,closed || p.closed)) ([],false)
  ⟨key.1,key.2,closed,samples⟩

def strokes (h : RoomHistory) : List Stroke :=
  let (order,groups) := h.packets.foldl addPacket ([],[])
  let sortedIdx := sortLoop (fun i j => keyBefore order[i]! order[j]!) (List.range order.length)
  sortedIdx.map (fun i => assemble order[i]! groups[i]!)

def graphJson (h : RoomHistory) : String :=
  let ss := strokes h
  Graph.toJson ss (Graph.build ss)

/-- A log that is applied to an empty history, as the late joiner and the replay tool do it. -/
def replay (log : List Bytes) : RoomHistory := log.foldl (fun h bytes => (h.apply bytes).1) empty

end RoomHistory

def sketchGraphJson (s : FfiState) (roomId : UInt64) : String :=
  match s.rooms.lookup roomId with
  | some h => h.graphJson
  | none => RoomHistory.empty.graphJson

end WarpLoop.Sketch
