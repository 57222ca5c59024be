import WarpLoop.Lib.Insertion
import WarpLoop.Sketch.Fit

/-! The sketch graph (SketchCore/Graph.lean): strokes are fitted and tessellated, cut at
their ends and where they meet another stroke, and the cuts become the nodes of a graph
whose segments are the spans between them. -/
namespace WarpLoop.Sketch
open Lib.Insertion

def SAMPLES_PER_SEGMENT : Nat := 16
def NODE_EPS : Float := 1.0e-3

structure Stroke where
  peerId : UInt32
  strokeId : UInt32
  closed : Bool
  samples : List Vec3
deriving Inhabited

structure GraphNode where
  pos : Vec3
deriving Inhabited

structure GraphSegment where
  strokeIdx : Nat
  nodeA : Nat
  nodeB : Nat
deriving DecidableEq, Inhabited

structure SketchGraph where
  nodes : List GraphNode
  segments : List GraphSegment
  polylines : List (List Vec3)

namespace Graph

def FIT_ERROR : Float := 0.02
def RDP_ERROR : Fit.Tolerance := ⟨0.01,by decide⟩

def tessellate (segs : List CubicBezier) : List Vec3 :=
  if segs.length = 0 then []
  else
    segs.foldl (fun out b =>
      (List.range' 1 SAMPLES_PER_SEGMENT).foldl (fun out i => out ++ [b.eval (i.toFloat / SAMPLES_PER_SEGMENT.toFloat)]) out)
      [segs[0]!.p0]

/-- The first node that is near enough, or a new one. -/
def internNode (nodes : List GraphNode) (p : Vec3) : List GraphNode × Nat :=
  match nodes.findIdx? (fun node => Vec3.distance node.pos p < NODE_EPS) with
  | some i => (nodes,i)
  | none => (nodes ++ [⟨p⟩],nodes.length)

def clamp (s : Float) : Float := if s < 0.0 then 0.0 else if s > 1.0 then 1.0 else s

/-- Where two segments come closest, and how close. -/
def segmentClosest (a0 a1 b0 b1 : Vec3) : Float × Float × Float :=
  let d1 := a1 - a0
  let d2 := b1 - b0
  let r := a0 - b0
  let a := Vec3.dot d1 d1
  let e := Vec3.dot d2 d2
  let f := Vec3.dot d2 r
  let (s,t) :=
    if a > 0.0 || e > 0.0 then
      let b := Vec3.dot d1 d2
      let c := Vec3.dot d1 r
      let denom := a * e - b * b
      let s := clamp (if denom != 0.0 then (b * f - c * e) / denom else 0.0)
      if e > 0.0 then
        let t := (b * s + f) / e
        if t < 0.0 then (if a > 0.0 then clamp (-c / a) else s,0.0)
        else if t > 1.0 then (if a > 0.0 then clamp ((b - c) / a) else s,1.0)
        else (s,t)
      else (s,0.0)
    else (0.0,0.0)
  let pa := a0 + s * d1
  let pb := b0 + t * d2
  (s,t,Vec3.distance pa pb)

/-- One parameter for each segment that another stroke comes near to, where it comes nearest. -/
def crossingParams (poly other : List Vec3) : List Float :=
  if poly.length < 2 || other.length < 2 then []
  else
    (List.range (poly.length - 1)).foldl (fun out i =>
      let best := (List.range (other.length - 1)).foldl (fun (best : Option (Float × Float)) j =>
        let (s,_,d) := segmentClosest poly[i]! poly[i+1]! other[j]! other[j+1]!
        if d < NODE_EPS then
          match best with
          | some (p,bd) => if d < bd then some (i.toFloat + s,d) else some (p,bd)
          | none => some (i.toFloat + s,d)
        else best) none
      match best with
      | some (p,_) => out ++ [p]
      | none => out) []

def polyAt (poly : List Vec3) (t : Float) : Vec3 :=
  let n := poly.length
  if n = 0 then Vec3.zero
  else if n = 1 then poly[0]!
  else
    let t := if t < 0.0 then 0.0 else if t > (n - 1).toFloat then (n - 1).toFloat else t
    let i := t.floor.toUInt64.toNat
    let i := if i ≥ n - 1 then n - 2 else i
    let u := t - i.toFloat
    poly[i]! + u * (poly[i+1]! - poly[i]!)

def keepParam (dedup : List Float) (p : Float) : List Float :=
  if dedup.length == 0 || p - dedup[dedup.length-1]! > 0.5 then dedup ++ [p] else dedup

/-- Parameters in order, without those that are half a step or less after the last one kept. -/
def canonicalParams (ps : List Float) : List Float := (sortLoop (fun p q => p < q) ps).foldl keepParam []

def polyline (s : Stroke) : List Vec3 :=
  let poly := tessellate (Fit.fitCurve s.samples FIT_ERROR RDP_ERROR)
  if s.closed && poly.length > 1 then poly ++ [poly[0]!] else poly

def splitParams (polys : List (List Vec3)) (i : Nat) : List Float :=
  let poly := polys[i]!
  canonicalParams ((List.range polys.length).foldl (fun rawParams j =>
    if j ≠ i then rawParams ++ crossingParams poly polys[j]! else rawParams) [0.0,(poly.length - 1).toFloat])

structure Building where
  nodes : List GraphNode
  segments : List GraphSegment
  prevNode : Option (Nat × Float)

/-- A cut is interned, and a span that is long enough in the parameter becomes a segment. -/
def cut (i : Nat) (poly : List Vec3) (b : Building) (t : Float) : Building :=
  let (nodes,id) := internNode b.nodes (polyAt poly t)
  let segments :=
    match b.prevNode with
    | some (prev,prevT) => if t - prevT > 0.5 then b.segments ++ [⟨i,prev,id⟩] else b.segments
    | none => b.segments
  ⟨nodes,segments,some (id,t)⟩

def addStroke (polys : List (List Vec3)) (built : List GraphNode × List GraphSegment) (i : Nat) : List GraphNode × List GraphSegment :=
  let poly := polys[i]!
  if poly.length < 2 then built
  else
    let b := (splitParams polys i).foldl (cut i poly) ⟨built.1,built.2,none⟩
    (b.nodes,b.segments)

def build (strokes : List Stroke) : SketchGraph :=
  let polys := strokes.map polyline
  let (nodes,segments) := (List.range polys.length).foldl (addStroke polys) ([],[])
  ⟨nodes,segments,polys⟩

/-- The bounded walk up the parents. -/
def walk (parent : List Nat) (n start : Nat) : Nat :=
  (List.range n).foldl (fun r _ => if parent[r]! ≠ r then parent[r]! else r) start

/-- A segment joins the trees of its two ends. -/
def joinRoots (n : Nat) (parent : List Nat) (s : GraphSegment) : List Nat :=
  let ra := walk parent n s.nodeA
  let rb := walk parent n s.nodeB
  if ra ≠ rb then parent.set rb ra else parent

def componentCount (g : SketchGraph) : Nat :=
  let n := g.nodes.length
  if n = 0 then 0
  else
    let parent := g.segments.foldl (joinRoots n) (List.range n)
    (List.range n).foldl (fun count i => if parent[i]! == i then count + 1 else count) 0

def cycleCount (g : SketchGraph) : Nat :=
  let e := g.segments.length
  let v := g.nodes.length
  let c := componentCount g
  if e + c ≥ v then e + c - v else 0

def toMicro (x : Float) : Int :=
  let scaled := x * 1.0e6
  let r := if scaled ≥ 0.0 then (scaled + 0.5).floor else (scaled - 0.5).ceil
  if r ≥ 0.0 then Int.ofNat r.toUInt64.toNat else -Int.ofNat (-r).toUInt64.toNat

def nodeJson (i : Nat) (p : Vec3) : String :=
  "\x7b\"id\":" ++ toString i ++ ",\"pos_micro\":[" ++ toString (toMicro p.x) ++ "," ++ toString (toMicro p.y) ++ "," ++
    toString (toMicro p.z) ++ "]\x7d"

def segmentJson (i : Nat) (s : GraphSegment) (peerId strokeId : UInt32) : String :=
  "\x7b\"id\":" ++ toString i ++ ",\"peer_id\":" ++ toString peerId ++ ",\"stroke_id\":" ++ toString strokeId ++ ",\"nodes\":[" ++
    toString s.nodeA ++ "," ++ toString s.nodeB ++ "]\x7d"

def toJson (strokes : List Stroke) (g : SketchGraph) : String :=
  let out := "\x7b\"nodes\":["
  let out := (List.range g.nodes.length).foldl (fun out i =>
    (if i > 0 then out ++ "," else out) ++ nodeJson i g.nodes[i]!.pos) out
  let out := out ++ "],\"segments\":["
  let out := (List.range g.segments.length).foldl (fun out i =>
    let s := g.segments[i]!
    let strokeId := strokes[s.strokeIdx]!.strokeId
    let peerId := strokes[s.strokeIdx]!.peerId
    (if i > 0 then out ++ "," else out) ++ segmentJson i s peerId strokeId) out
  out ++ "],\"cycles\":" ++ toString (cycleCount g) ++ "\x7d"

end Graph

end WarpLoop.Sketch
