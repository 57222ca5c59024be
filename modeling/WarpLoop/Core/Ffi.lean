import WarpLoop.Core.ZoneDispatch

/-! The fanout core behind its C interface (Fanoutcore/FanoutCore.lean and
Fanoutcore/Ffi.lean). The process-global reference of the source is the `State`
that each exported function takes and gives back. -/
namespace WarpLoop.Core

structure Room where
  subscribers : List UInt64
deriving DecidableEq, Repr

namespace Room

def empty : Room := ⟨[]⟩

def sub (r : Room) (connId : UInt64) : Room :=
  if r.subscribers.contains connId then r else ⟨r.subscribers ++ [connId]⟩

def unsub (r : Room) (connId : UInt64) : Room := ⟨r.subscribers.filter (· != connId)⟩

def targets (r : Room) (publisherConnId : UInt64) : List UInt64 := r.subscribers.filter (· != publisherConnId)

end Room

def zoneBits : Nat := 21

structure State where
  rooms : SlotMap Room
  zoneWorld : ZoneWorld
deriving Repr

def State.initial (capacity : Nat) : State := ⟨SlotMap.empty capacity,ZoneWorld.empty capacity zoneBits⟩

def Id.pack (id : Id) : UInt64 := (id.index.toUInt64 <<< 32) ||| id.generation.toUInt64

def Id.unpack (v : UInt64) : Id := ⟨(v >>> 32).toUInt32,(v &&& 0xFFFFFFFF).toUInt32⟩

def SENTINEL : UInt64 := 0xFFFFFFFFFFFFFFFF

namespace Ffi

def init (capacity : UInt32) : State := State.initial capacity.toNat

def allocRoom (s : State) : State × UInt64 :=
  match s.rooms.alloc Room.empty with
  | none => (s,SENTINEL)
  | some (rooms,id) => ({s with rooms := rooms},id.pack)

def freeRoom (s : State) (roomId : UInt64) : State := {s with rooms := s.rooms.free (Id.unpack roomId)}

def sub (s : State) (roomId connId : UInt64) : State :=
  let id := Id.unpack roomId
  match s.rooms.find id with
  | none => s
  | some room => {s with rooms := s.rooms.update id (room.sub connId)}

def unsub (s : State) (roomId connId : UInt64) : State :=
  let id := Id.unpack roomId
  match s.rooms.find id with
  | none => s
  | some room => {s with rooms := s.rooms.update id (room.unsub connId)}

def pubTargets (s : State) (roomId publisherConnId : UInt64) : List UInt64 :=
  match s.rooms.find (Id.unpack roomId) with
  | none => []
  | some room => room.targets publisherConnId

def zoneAlloc (s : State) (startIdx stopIdx : UInt64) : State × UInt64 :=
  match s.zoneWorld.allocZone ⟨startIdx,stopIdx⟩ with
  | none => (s,SENTINEL)
  | some (world,id) => ({s with zoneWorld := world},id.pack)

def zoneFree (s : State) (zoneId : UInt64) : State :=
  {s with zoneWorld := s.zoneWorld.freeZone (Id.unpack zoneId)}

def rebalanceAfterMove (w : ZoneWorld) (pos : Pos3) : ZoneWorld :=
  match w.authorityFor pos with
  | none => w
  | some zoneId => w.maybeSplitZone zoneId

def entityMove (s : State) (connId : UInt64) (x y z : Int64) : State :=
  let pos : Pos3 := ⟨x,y,z⟩
  {s with zoneWorld := rebalanceAfterMove (s.zoneWorld.moveEntity connId pos) pos}

def entityMoveV (s : State) (connId : UInt64) (x y z : Int64) (vx vy vz rttTicks : UInt64) : State :=
  let pos : Pos3 := ⟨x,y,z⟩
  {s with zoneWorld := rebalanceAfterMove (s.zoneWorld.moveEntityV connId pos vx vy vz rttTicks) pos}

def entityRemove (s : State) (connId : UInt64) : State :=
  let leavingZoneId := (s.zoneWorld.liveZones.find? (fun entry => entry.2.holds connId)).map Prod.fst
  let removed := s.zoneWorld.removeEntity connId
  {s with zoneWorld := match leavingZoneId with
    | none => removed
    | some zid => removed.maybeMergeSiblings zid}

def zoneTargets (s : State) (publisherConnId : UInt64) (x y z : Int64) : List UInt64 :=
  s.zoneWorld.targetsFor publisherConnId ⟨x,y,z⟩

end Ffi

/-- The server's start: an empty core and one zone over the whole curve range. -/
def fanoutCoreInitialize (roomCapacity : UInt32) : State :=
  (Ffi.zoneAlloc (Ffi.init roomCapacity) 0 ((1 : UInt64) <<< 63)).1

end WarpLoop.Core
