import WarpLoop.Lib.Floats

/-! Points, the simplification of a polyline and the recursive cubic fit
(SketchCore/Vec3.lean and SketchCore/Fit.lean), on the language's own doubles. An
array is a list and its loops are folds; a tolerance below zero, on which the
simplification would not return, is no tolerance. -/
namespace WarpLoop.Sketch

structure Vec3 where
  x : Float
  y : Float
  z : Float
deriving Inhabited

namespace Vec3

def zero : Vec3 := ⟨0.0,0.0,0.0⟩

instance instBEq : BEq Vec3 := ⟨fun a b => a.x == b.x && a.y == b.y && a.z == b.z⟩

instance instAdd : Add Vec3 := ⟨fun a b => ⟨a.x + b.x,a.y + b.y,a.z + b.z⟩⟩

instance instSub : Sub Vec3 := ⟨fun a b => ⟨a.x - b.x,a.y - b.y,a.z - b.z⟩⟩

instance instNeg : Neg Vec3 := ⟨fun a => ⟨-a.x,-a.y,-a.z⟩⟩

def smul (s : Float) (v : Vec3) : Vec3 := ⟨s * v.x,s * v.y,s * v.z⟩

instance instHMul : HMul Float Vec3 Vec3 := ⟨smul⟩

def dot (a b : Vec3) : Float := a.x * b.x + a.y * b.y + a.z * b.z

def lengthSq (v : Vec3) : Float := dot v v

def length (v : Vec3) : Float := (lengthSq v).sqrt

def distance (a b : Vec3) : Float := length (a - b)

def normalized (v : Vec3) : Vec3 :=
  let l := length v
  if l > 0.0 then (1.0 / l : Float) * v else zero

/-- From the line through two points, or from the first where they are one. -/
def distToLine (p a b : Vec3) : Float :=
  let ab := b - a
  let l2 := lengthSq ab
  if l2 > 0.0 then
    let t := dot (p - a) ab / l2
    distance p (a + t * ab)
  else distance p a

end Vec3

structure CubicBezier where
  p0 : Vec3
  p1 : Vec3
  p2 : Vec3
  p3 : Vec3
deriving Inhabited

namespace CubicBezier

def eval (b : CubicBezier) (t : Float) : Vec3 :=
  let mt := 1.0 - t
  let b0 := mt * mt * mt
  let b1 := 3.0 * mt * mt * t
  let b2 := 3.0 * mt * t * t
  let b3 := t * t * t
  b0 * b.p0 + b1 * b.p1 + b2 * b.p2 + b3 * b.p3

def deriv1 (b : CubicBezier) (t : Float) : Vec3 :=
  let mt := 1.0 - t
  (3.0 * mt * mt) * (b.p1 - b.p0) + (6.0 * mt * t) * (b.p2 - b.p1) + (3.0 * t * t) * (b.p3 - b.p2)

def deriv2 (b : CubicBezier) (t : Float) : Vec3 :=
  (6.0 * (1.0 - t)) * (b.p2 - (2.0 : Float) * b.p1 + b.p0) + (6.0 * t) * (b.p3 - (2.0 : Float) * b.p2 + b.p1)

end CubicBezier

namespace Fit
open Lib.Floats

def removeDuplicates (pts : List Vec3) : List Vec3 :=
  if pts.length < 2 then pts
  else
    (pts.tail.foldl
      (fun (out,prev) cur => if !(cur == prev) then (out ++ [cur],cur) else (out,prev)) ([pts[0]!],pts[0]!)).1

structure Tolerance where
  value : Float
  nonneg : ¬ value < 0.0

/-- The greatest distance of a point between two others from their line, and where it is first reached. -/
def farthest (pts : List Vec3) (lo hi : Nat) : Float × Nat :=
  greatest (fun i => Vec3.distToLine pts[i]! pts[lo]! pts[hi]!) (List.range' (lo + 1) (hi - (lo + 1))) (0.0,lo)

theorem farthest_inside {pts : List Vec3} {eps : Tolerance} {lo hi : Nat} (beyond : (farthest pts lo hi).1 > eps.value) :
    lo < (farthest pts lo hi).2 ∧ (farthest pts lo hi).2 < hi := by
  unfold farthest at beyond ⊢
  rcases greatest_cases (fun i => Vec3.distToLine pts[i]! pts[lo]! pts[hi]!) (List.range' (lo + 1) (hi - (lo + 1))) (0.0,lo) with
    start | ⟨i,inside,reached⟩
  · rw [start] at beyond
    exact absurd beyond eps.nonneg
  · rw [reached]
    obtain ⟨lower,upper⟩ := List.mem_range'_1.mp inside
    exact ⟨lower,by omega⟩

def rdpSpan (pts : List Vec3) (eps : Tolerance) (lo hi : Nat) : List Nat :=
  if hi ≤ lo + 1 then []
  else if _beyond : (farthest pts lo hi).1 > eps.value then
    rdpSpan pts eps lo (farthest pts lo hi).2 ++ [(farthest pts lo hi).2] ++ rdpSpan pts eps (farthest pts lo hi).2 hi
  else []
termination_by hi - lo
decreasing_by
  all_goals
    have inside := farthest_inside _beyond
    omega

def rdpReduce (pts : List Vec3) (eps : Tolerance) : List Nat :=
  if pts.length = 0 then []
  else if pts.length = 1 then [0]
  else if pts.length < 3 then [0,1]
  else [0] ++ rdpSpan pts eps 0 (pts.length - 1) ++ [pts.length - 1]

def chordLengthParameterize (pts : List Vec3) : List Float :=
  let n := pts.length
  let u := (List.range' 1 (n - 1)).foldl (fun u i => u ++ [u[i-1]! + Vec3.distance pts[i]! pts[i-1]!]) [0.0]
  let total := u[n-1]!
  if total > 0.0 then
    let inv := 1.0 / total
    u.map (· * inv)
  else u

/-- The sums of the normal equations. -/
structure Sums where
  c00 : Float
  c01 : Float
  c11 : Float
  x0 : Float
  x1 : Float

def Sums.ofPoints (pts : List Vec3) (u : List Float) (tanA tanB : Vec3) : Sums :=
  let v0 := pts[0]!
  let v3 := pts[pts.length-1]!
  (List.range pts.length).foldl (fun (s : Sums) i =>
    let t := u[i]!
    let mt := 1.0 - t
    let b0 := mt * mt * mt
    let b1 := 3.0 * mt * mt * t
    let b2 := 3.0 * mt * t * t
    let b3 := t * t * t
    let a0 := b1 * tanA
    let a1 := b2 * tanB
    let tmp := pts[i]! - ((b0 + b1) * v0 + (b2 + b3) * v3)
    ⟨s.c00 + Vec3.dot a0 a0,s.c01 + Vec3.dot a0 a1,s.c11 + Vec3.dot a1 a1,s.x0 + Vec3.dot a0 tmp,s.x1 + Vec3.dot a1 tmp⟩)
    ⟨0.0,0.0,0.0,0.0,0.0⟩

/-- The lengths of the two handles. -/
def Sums.alphas (s : Sums) : Float × Float :=
  let detC := s.c00 * s.c11 - s.c01 * s.c01
  if detC != 0.0 then ((s.x0 * s.c11 - s.x1 * s.c01) / detC,(s.c00 * s.x1 - s.c01 * s.x0) / detC) else (0.0,0.0)

def generateBezier (pts : List Vec3) (u : List Float) (tanA tanB : Vec3) : CubicBezier :=
  let n := pts.length
  if n < 2 then
    let p := if n = 1 then pts[0]! else Vec3.zero
    ⟨p,p,p,p⟩
  else
    let v0 := pts[0]!
    let v3 := pts[n-1]!
    let (alphaL,alphaR) := (Sums.ofPoints pts u tanA tanB).alphas
    let segLen := Vec3.distance v0 v3
    let epsilon := 1.0e-6 * segLen
    if alphaL < epsilon || alphaR < epsilon then
      let d := segLen / 3.0
      ⟨v0,v0 + d * tanA,v3 + d * tanB,v3⟩
    else ⟨v0,v0 + alphaL * tanA,v3 + alphaR * tanB,v3⟩

def computeMaxError (pts : List Vec3) (b : CubicBezier) (u : List Float) : Float × Nat :=
  greatest (fun i => Vec3.distance (b.eval u[i]!) pts[i]!) (List.range pts.length) (0.0,pts.length / 2)

def reparameterize (b : CubicBezier) (pts : List Vec3) (u : List Float) : List Float :=
  (List.range pts.length).map fun i =>
    let t := u[i]!
    let d := b.eval t - pts[i]!
    let d1 := b.deriv1 t
    let d2 := b.deriv2 t
    let num := Vec3.dot d d1
    let den := Vec3.dot d1 d1 + Vec3.dot d d2
    if den == 0.0 then t else t - num / den

/-- The Newton loop, which ends at a curve that is good enough or after its last round. -/
def refine (pts : List Vec3) (tanA tanB : Vec3) (err : Float) : Nat → CubicBezier → List Float → CubicBezier ⊕ (CubicBezier × List Float)
  | 0, b, u => .inr (b,u)
  | rounds+1, b, u =>
    let u2 := reparameterize b pts u
    let b2 := generateBezier pts u2 tanA tanB
    if (computeMaxError pts b2 u2).1 < err then .inl b2
    else refine pts tanA tanB err rounds b2 u2

def maxIter : Nat := 20

/-- One curve for the whole run of points, or where it is worst. -/
def fitOnce (pts : List Vec3) (tanA tanB : Vec3) (err : Float) : CubicBezier ⊕ Nat :=
  let u := chordLengthParameterize pts
  let b := generateBezier pts u tanA tanB
  let maxErr := (computeMaxError pts b u).1
  if maxErr < err then .inl b
  else
    match if maxErr < err * 10.0 then refine pts tanA tanB err maxIter b u else .inr (b,u) with
    | .inl b => .inl b
    | .inr (b,u) => .inr (computeMaxError pts b u).2

/-- The worst point is moved off the two ends. -/
def inner (n split : Nat) : Nat := if split = 0 then 1 else if split ≥ n - 1 then n - 2 else split

theorem inner_inside {n : Nat} (split : Nat) (long : 4 ≤ n) : 0 < inner n split ∧ inner n split + 1 < n := by
  unfold inner
  split_ifs <;> omega

/-- The mean of the directions into the point from its two neighbours. -/
def splitTangent (pts : List Vec3) (split : Nat) : Vec3 :=
  let tLeftLocal := Vec3.normalized (pts[split-1]! - pts[split]!)
  let tRightLocal := Vec3.normalized (pts[split]! - pts[split+1]!)
  Vec3.normalized ((0.5 : Float) * (tLeftLocal + tRightLocal))

def fitRecursive (pts : List Vec3) (tanA tanB : Vec3) (err : Float) : List CubicBezier :=
  let n := pts.length
  if n < 2 then []
  else if n = 2 then [⟨pts[0]!,pts[0]!,pts[1]!,pts[1]!⟩]
  else if n = 3 then [⟨pts[0]!,pts[1]!,pts[1]!,pts[2]!⟩]
  else
    (fitOnce pts tanA tanB err).elim (fun b => [b]) (fun worst =>
      let split := inner n worst
      let tSplit := splitTangent pts split
      let left := pts.take (split + 1)
      let right := pts.drop split
      fitRecursive left tanA tSplit err ++ fitRecursive right (-tSplit) tanB err)
termination_by pts.length
decreasing_by
  · rw [List.length_take]
    have inside := inner_inside worst (show 4 ≤ pts.length by omega)
    omega
  · rw [List.length_drop]
    have inside := inner_inside worst (show 4 ≤ pts.length by omega)
    omega

def fitCurve (pts : List Vec3) (err : Float) (rdpErr : Tolerance) : List CubicBezier :=
  let dedup := removeDuplicates pts
  if dedup.length < 2 then []
  else if dedup.length = 2 then [⟨dedup[0]!,dedup[0]!,dedup[1]!,dedup[1]!⟩]
  else
    let keep := rdpReduce dedup rdpErr
    let kept := keep.map (fun i => dedup[i]!)
    if kept.length < 2 then []
    else if kept.length = 2 then [⟨kept[0]!,kept[0]!,kept[1]!,kept[1]!⟩]
    else
      let tanA := Vec3.normalized (kept[1]! - kept[0]!)
      let tanB := Vec3.normalized (kept[kept.length-2]! - kept[kept.length-1]!)
      fitRecursive kept tanA tanB err

end Fit

end WarpLoop.Sketch
