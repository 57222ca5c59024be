import WarpLoop.Core.SlotMap

/-! Hilbert-curve zone authority (Fanoutcore/Zone.lean): positions, the curve
index of a position, authority ranges, and the entities a zone simulates. The
source's `while` loops halve a 64-bit word, so 64 rounds of structural recursion
run each of them to its end. -/
namespace WarpLoop.Core

structure Pos3 where
  x : Int64
  y : Int64
  z : Int64
deriving DecidableEq, Repr

def Pos3.origin : Pos3 := ⟨0,0,0⟩

def quantizeAxis (bits : Nat) (v : Int64) : UInt64 :=
  v.toUInt64 >>> (64 - bits).toUInt64

/-- The three axes while `hilbertIndexOfGrid` transforms them. -/
structure Axes where
  x : UInt64
  y : UInt64
  z : UInt64
deriving DecidableEq, Repr

/-- One round of the inverse-undo pass at bit `q`. -/
def Axes.undo (a : Axes) (q : UInt64) : Axes :=
  let p := q - 1
  let x := if a.x &&& q ≠ 0 then a.x ^^^ p else a.x
  let (x,y) :=
    if a.y &&& q ≠ 0 then (x ^^^ p,a.y)
    else
      let t := (x ^^^ a.y) &&& p
      (x ^^^ t,a.y ^^^ t)
  let (x,z) :=
    if a.z &&& q ≠ 0 then (x ^^^ p,a.z)
    else
      let t := (x ^^^ a.z) &&& p
      (x ^^^ t,a.z ^^^ t)
  ⟨x,y,z⟩

def Axes.undoLoop : Nat → UInt64 → Axes → Axes
  | 0,_,a => a
  | fuel+1,q,a => if q > 1 then undoLoop fuel (q >>> 1) (a.undo q) else a

def grayExcess (z : UInt64) : Nat → UInt64 → UInt64 → UInt64
  | 0,_,t => t
  | fuel+1,q,t =>
    if q > 1 then grayExcess z fuel (q >>> 1) (if z &&& q ≠ 0 then t ^^^ (q - 1) else t) else t

/-- Interleaves the low `k` bits of the axes below the index `d` built so far. -/
def Axes.interleave (a : Axes) : Nat → UInt64 → UInt64
  | 0,d => d
  | k+1,d =>
    let kk := k.toUInt64
    let d := (d <<< 1) ||| ((a.x >>> kk) &&& 1)
    let d := (d <<< 1) ||| ((a.y >>> kk) &&& 1)
    let d := (d <<< 1) ||| ((a.z >>> kk) &&& 1)
    a.interleave k d

def hilbertIndexOfGrid (bits : Nat) (px py pz : UInt64) : UInt64 :=
  let m : UInt64 := (1 <<< (bits - 1)).toUInt64
  let a := Axes.undoLoop 64 m ⟨px,py,pz⟩
  let y := a.y ^^^ a.x
  let z := a.z ^^^ y
  let t := grayExcess z 64 m 0
  Axes.interleave ⟨a.x ^^^ t,y ^^^ t,z ^^^ t⟩ bits 0

def hilbert3D (bits : Nat) (p : Pos3) : UInt64 :=
  hilbertIndexOfGrid bits (quantizeAxis bits p.x) (quantizeAxis bits p.y) (quantizeAxis bits p.z)

def ghostExpansion (v aHalf k : UInt64) : UInt64 := v * k + aHalf * k * k

def defaultLookaheadTicks : UInt64 := 6

def hysteresisTicksFor (lookaheadTicks : UInt64) : UInt64 := max 1 (lookaheadTicks / 2)

def axisDist (a b : Int64) : UInt64 :=
  if a ≥ b then (a - b).toUInt64 else (b - a).toUInt64

def withinGhostRange (pubPos : Pos3) (pubVx pubVy pubVz pubK : UInt64)
    (targetPos : Pos3) (targetVx targetVy targetVz targetK : UInt64) : Bool :=
  let pubExX := ghostExpansion pubVx 0 pubK
  let pubExY := ghostExpansion pubVy 0 pubK
  let pubExZ := ghostExpansion pubVz 0 pubK
  let targetExX := ghostExpansion targetVx 0 targetK
  let targetExY := ghostExpansion targetVy 0 targetK
  let targetExZ := ghostExpansion targetVz 0 targetK
  axisDist pubPos.x targetPos.x ≤ pubExX + targetExX &&
  axisDist pubPos.y targetPos.y ≤ pubExY + targetExY &&
  axisDist pubPos.z targetPos.z ≤ pubExZ + targetExZ

/-- The half-open interval `[start, stop)` of curve indices a zone owns. -/
structure ZoneRange where
  start : UInt64
  stop : UInt64
deriving DecidableEq, Repr

def ZoneRange.contains (r : ZoneRange) (idx : UInt64) : Bool := r.start ≤ idx && idx < r.stop

structure EntityRecord where
  connId : UInt64
  idx : UInt64
  pos : Pos3 := Pos3.origin
  vx : UInt64 := 0
  vy : UInt64 := 0
  vz : UInt64 := 0
  rttTicks : UInt64 := 0
  pendingZone : Option Id := none
  migrationStreak : UInt64 := 0
deriving DecidableEq, Repr

def EntityRecord.lookaheadTicks (entity : EntityRecord) : UInt64 :=
  if entity.rttTicks = 0 then defaultLookaheadTicks else entity.rttTicks

structure Zone where
  range : ZoneRange
  entities : List EntityRecord
deriving DecidableEq, Repr

def authorityCapacity : Nat := 256

def interestCapacity : Nat := 400

def Zone.holds (z : Zone) (connId : UInt64) : Bool := z.entities.any (fun entity => entity.connId == connId)

def Zone.sub (z : Zone) (entity : EntityRecord) : Zone :=
  if z.holds entity.connId then z
  else if z.entities.length ≥ authorityCapacity then z
  else {z with entities := z.entities ++ [entity]}

def Zone.unsub (z : Zone) (connId : UInt64) : Zone :=
  {z with entities := z.entities.filter (fun entity => entity.connId != connId)}

def authorityForIndex (zones : List Zone) (idx : UInt64) : Option Nat :=
  zones.findIdx? (fun zone => zone.range.contains idx)

/-- The nearest zones before and after a zone along the curve, as found so far. -/
structure Neighbours where
  before : Option Nat
  beforeStop : UInt64
  after : Option Nat
  afterStart : UInt64

def Neighbours.visit (target : Zone) (zoneIdx : Nat) (n : Neighbours) (entry : Zone × Nat) : Neighbours :=
  let (z,i) := entry
  if i = zoneIdx then n
  else
    let n := if z.range.stop ≤ target.range.start && z.range.stop > n.beforeStop
      then {n with before := some i, beforeStop := z.range.stop} else n
    if z.range.start ≥ target.range.stop && z.range.start < n.afterStart
      then {n with after := some i, afterStart := z.range.start} else n

def adjacentZones (zones : List Zone) (zoneIdx : Nat) : List Nat :=
  match zones[zoneIdx]? with
  | none => []
  | some target =>
    let n := zones.zipIdx.foldl (Neighbours.visit target zoneIdx) ⟨none,0,none,0xFFFFFFFFFFFFFFFF⟩
    n.before.toList ++ n.after.toList

end WarpLoop.Core
