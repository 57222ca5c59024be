import WarpLoop.Core.Zone

/-! Octree cells of the curve and the cost rule for splitting them
(Fanoutcore/Partition.lean). -/
namespace WarpLoop.Core

def octreeMaxDepth (bits : Nat) : Nat := bits

/-- Divides out twos: the odd part reached and how many twos were removed. -/
def halvings : Nat → UInt64 → Nat → UInt64 × Nat
  | 0,rem,levels => (rem,levels)
  | fuel+1,rem,levels =>
    if rem > 1 && rem % 2 == 0 then halvings fuel (rem / 2) (levels + 1) else (rem,levels)

def zoneRangeDepth (bits : Nat) (r : ZoneRange) : Option Nat :=
  let len := r.stop - r.start
  if len = 0 then none
  else
    let (rem,levelsFromLeaf) := halvings 64 len 0
    if rem ≠ 1 ∨ levelsFromLeaf % 3 ≠ 0 then none
    else
      let octreeLevelsFromLeaf := levelsFromLeaf / 3
      if octreeLevelsFromLeaf > bits then none
      else
        let d := bits - octreeLevelsFromLeaf
        if r.start % len ≠ 0 then none else some d

def octreeChildren (bits : Nat) (r : ZoneRange) : Option (List ZoneRange) :=
  match zoneRangeDepth bits r with
  | none => none
  | some d =>
    if d ≥ octreeMaxDepth bits then none
    else
      let childLen := (r.stop - r.start) / 8
      some ((List.range 8).map fun i =>
        ⟨r.start + i.toUInt64 * childLen,r.start + (i.toUInt64 + 1) * childLen⟩)

def leafCost (population : Nat) : Nat := population * population

def zoneOverhead : Nat := 1

def splitIsCheaper (population : Nat) (childPopulations : List Nat) : Bool :=
  let splitCost := (childPopulations.map fun c => leafCost c + zoneOverhead).foldl (· + ·) 0
  splitCost < leafCost population

def parentRange (bits : Nat) (r : ZoneRange) : Option ZoneRange :=
  match zoneRangeDepth bits r with
  | none => none
  | some d =>
    if d = 0 then none
    else
      let len := r.stop - r.start
      let parentLen := len * 8
      let parentStart := r.start - (r.start % parentLen)
      some ⟨parentStart,parentStart + parentLen⟩

end WarpLoop.Core
