import WarpLoop.Core.Partition

/-! The dynamic zone world (Fanoutcore/ZoneDispatch.lean): entity migration,
fanout targets, and the cost-driven split and merge of zones. An early `return w`
out of a loop is the `error` of the helper that models the loop. -/
namespace WarpLoop.Core

structure ZoneWorld where
  zones : SlotMap Zone
  bits : Nat
deriving Repr

namespace ZoneWorld

def empty (capacity bits : Nat) : ZoneWorld := ⟨SlotMap.empty capacity,bits⟩

def liveZones (w : ZoneWorld) : List (Id × Zone) := w.zones.liveEntries

def allocZone (w : ZoneWorld) (range : ZoneRange) : Option (ZoneWorld × Id) :=
  match w.zones.alloc ⟨range,[]⟩ with
  | none => none
  | some (zones,id) => some ({w with zones := zones},id)

def freeZone (w : ZoneWorld) (id : Id) : ZoneWorld := {w with zones := w.zones.free id}

def authorityForIndex (w : ZoneWorld) (idx : UInt64) : Option Id :=
  match Core.authorityForIndex (w.liveZones.map Prod.snd) idx with
  | none => none
  | some i => w.liveZones[i]?.map Prod.fst

def authorityFor (w : ZoneWorld) (pos : Pos3) : Option Id := w.authorityForIndex (hilbert3D w.bits pos)

/-- The publisher's own record in its authority zone, or the defaults used
when it has none. -/
structure Publisher where
  pos : Pos3
  vx : UInt64
  vy : UInt64
  vz : UInt64
  k : UInt64

def publisherIn (zone : Zone) (connId : UInt64) : Publisher :=
  match zone.entities.find? (fun entity => entity.connId == connId) with
  | some entity => ⟨entity.pos,entity.vx,entity.vy,entity.vz,entity.lookaheadTicks⟩
  | none => ⟨Pos3.origin,0,0,0,defaultLookaheadTicks⟩

/-- Adds one candidate of an adjacent zone; the count is of interest targets. -/
def addInterest (publisherConnId : UInt64) (p : Publisher) (acc : List UInt64 × Nat) (entity : EntityRecord) :
    List UInt64 × Nat :=
  if acc.2 < interestCapacity then
    if entity.connId != publisherConnId && withinGhostRange p.pos p.vx p.vy p.vz p.k
        entity.pos entity.vx entity.vy entity.vz entity.lookaheadTicks then
      (acc.1 ++ [entity.connId],acc.2 + 1)
    else acc
  else acc

def addAdjacent (plain : List Zone) (publisherConnId : UInt64) (p : Publisher)
    (acc : List UInt64 × Nat) (j : Nat) : List UInt64 × Nat :=
  if acc.2 < interestCapacity then
    match plain[j]? with
    | some zone => zone.entities.foldl (addInterest publisherConnId p) acc
    | none => acc
  else acc

def targetsForIndex (w : ZoneWorld) (publisherConnId idx : UInt64) : List UInt64 :=
  let plain := w.liveZones.map Prod.snd
  match Core.authorityForIndex plain idx with
  | none => []
  | some authIdx =>
    match plain[authIdx]? with
    | none => []
    | some authZone =>
      let p := publisherIn authZone publisherConnId
      let authority := (authZone.entities.map EntityRecord.connId).filter (· != publisherConnId)
      ((adjacentZones plain authIdx).foldl (addAdjacent plain publisherConnId p) (authority,0)).1

def targetsFor (w : ZoneWorld) (publisherConnId : UInt64) (pos : Pos3) : List UInt64 :=
  w.targetsForIndex publisherConnId (hilbert3D w.bits pos)

/-- One round of the loops that drop an entity from the zones listing it. -/
def dropFrom (connId : UInt64) (zones : SlotMap Zone) (entry : Id × Zone) : SlotMap Zone :=
  if entry.2.holds connId then zones.update entry.1 (entry.2.unsub connId) else zones

def dropFromOthers (connId : UInt64) (zoneId : Id) (zones : SlotMap Zone) (entry : Id × Zone) : SlotMap Zone :=
  if entry.1 ≠ zoneId ∧ entry.2.holds connId then zones.update entry.1 (entry.2.unsub connId) else zones

def moveEntityToIndexV (w : ZoneWorld) (connId idx vx vy vz rttTicks : UInt64) (pos : Pos3) : ZoneWorld :=
  match w.authorityForIndex idx with
  | none => {w with zones := w.liveZones.foldl (dropFrom connId) w.zones}
  | some zoneId =>
    match w.zones.find zoneId with
    | none => w
    | some zone =>
      if !zone.holds connId && zone.entities.length ≥ authorityCapacity then w
      else
        let zones := w.liveZones.foldl (dropFromOthers connId zoneId) w.zones
        match zones.find zoneId with
        | none => w
        | some zone =>
          {w with zones := zones.update zoneId (zone.sub {
            connId := connId, idx := idx, pos := pos, vx := vx, vy := vy, vz := vz, rttTicks := rttTicks})}

def moveEntityToIndex (w : ZoneWorld) (connId idx : UInt64) : ZoneWorld :=
  w.moveEntityToIndexV connId idx 0 0 0 0 Pos3.origin

def moveEntityV (w : ZoneWorld) (connId : UInt64) (pos : Pos3) (vx vy vz rttTicks : UInt64) : ZoneWorld :=
  w.moveEntityToIndexV connId (hilbert3D w.bits pos) vx vy vz rttTicks pos

def moveEntity (w : ZoneWorld) (connId : UInt64) (pos : Pos3) : ZoneWorld :=
  w.moveEntityToIndex connId (hilbert3D w.bits pos)

def removeEntity (w : ZoneWorld) (connId : UInt64) : ZoneWorld :=
  {w with zones := w.liveZones.foldl (dropFrom connId) w.zones}

def childPopulationsFor (zone : Zone) (children : List ZoneRange) : List Nat :=
  children.map fun c => (zone.entities.filter fun entity => c.contains entity.idx).length

/-- Allocates the children one by one; out of slots, the world as it then is. -/
def allocChildren (w : ZoneWorld) (childIds : List Id) : List ZoneRange → Except ZoneWorld (ZoneWorld × List Id)
  | [] => .ok (w,childIds)
  | c::rest =>
    match w.allocZone c with
    | none => .error w
    | some (w,cid) => allocChildren w (childIds ++ [cid]) rest

/-- Files one entity into the `i`-th child if that child's range covers it. -/
def fileInto (children : List ZoneRange) (childIds : List Id) (entity : EntityRecord)
    (zones : SlotMap Zone) (i : Nat) : SlotMap Zone :=
  match children[i]? with
  | none => zones
  | some c =>
    if c.contains entity.idx then
      match childIds[i]? with
      | none => zones
      | some cid =>
        match zones.find cid with
        | none => zones
        | some target => zones.update cid (target.sub entity)
    else zones

def redistribute (children : List ZoneRange) (childIds : List Id) (zones : SlotMap Zone)
    (entity : EntityRecord) : SlotMap Zone :=
  (List.range children.length).foldl (fileInto children childIds entity) zones

def maybeSplitZone (w : ZoneWorld) (zoneId : Id) : ZoneWorld :=
  match w.zones.find zoneId with
  | none => w
  | some zone =>
    match octreeChildren w.bits zone.range with
    | none => w
    | some children =>
      if !splitIsCheaper zone.entities.length (childPopulationsFor zone children) then w
      else
        match allocChildren (w.freeZone zoneId) [] children with
        | .error w => w
        | .ok (w,childIds) =>
          {w with zones := zone.entities.foldl (redistribute children childIds) w.zones}

/-- What the sibling scan of a merge has gathered. -/
structure Siblings where
  ids : List Id
  entities : List EntityRecord
  population : Nat

/-- Scans the children of a parent cell; `none` when one of them is not a plain
leaf zone, on which the merge gives up. -/
def collectSiblings (w : ZoneWorld) (s : Siblings) : List ZoneRange → Option Siblings
  | [] => some s
  | c::rest =>
    match w.authorityForIndex c.start with
    | none => none
    | some sid =>
      match w.zones.find sid with
      | none => none
      | some szone =>
        if szone.range.start ≠ c.start ∨ szone.range.stop ≠ c.stop then none
        else collectSiblings w
          ⟨s.ids ++ [sid],s.entities ++ szone.entities,s.population + szone.entities.length⟩ rest

def maybeMergeSiblings (w : ZoneWorld) (zoneId : Id) : ZoneWorld :=
  match w.zones.find zoneId with
  | none => w
  | some zone =>
    match parentRange w.bits zone.range with
    | none => w
    | some parent =>
      match octreeChildren w.bits parent with
      | none => w
      | some children =>
        match w.collectSiblings ⟨[],[],0⟩ children with
        | none => w
        | some s =>
          let childPops := children.map fun c => (s.entities.filter fun entity => c.contains entity.idx).length
          if splitIsCheaper s.population childPops then w
          else if s.population > authorityCapacity then w
          else
            let w := s.ids.foldl freeZone w
            match w.allocZone parent with
            | none => w
            | some (w,pid) =>
              match w.zones.find pid with
              | none => w
              | some pzone => {w with zones := w.zones.update pid (s.entities.foldl Zone.sub pzone)}

end ZoneWorld

end WarpLoop.Core
