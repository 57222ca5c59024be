import Mathlib.Data.List.Basic

/-! The generational slot map behind rooms and zones (Fanoutcore/SlotMap.lean).
Arrays are lists here; the free list, an array used as a stack, is kept with its
back element first, so that `freeList.back?` is the head. -/
namespace WarpLoop.Core

structure Id where
  index : UInt32
  generation : UInt32
deriving DecidableEq, Repr

structure SlotMap (α : Type) where
  /-- The generation of every index and the value stored there, if any. -/
  slots : List (UInt32 × Option α)
  freeList : List UInt32
deriving Repr

namespace SlotMap

variable {α : Type}

def empty (capacity : Nat) : SlotMap α where
  slots := List.replicate capacity (0,none)
  freeList := (List.range capacity).map UInt32.ofNat

def find (m : SlotMap α) (id : Id) : Option α :=
  match m.slots[id.index.toNat]? with
  | some (g,v) => if g = id.generation then v else none
  | none => none

def liveEntries (m : SlotMap α) : List (Id × α) :=
  (List.range m.slots.length).filterMap fun idx =>
    match m.slots[idx]? with
    | some (g,some val) => some (⟨UInt32.ofNat idx,g⟩,val)
    | _ => none

def alloc (m : SlotMap α) (v : α) : Option (SlotMap α × Id) :=
  match m.freeList with
  | [] => none
  | idx::freeList =>
    match m.slots[idx.toNat]? with
    | none => none
    | some (prevGen,_) =>
      let gen := prevGen + 1
      some ({slots := m.slots.set idx.toNat (gen,some v), freeList := freeList},⟨idx,gen⟩)

def free (m : SlotMap α) (id : Id) : SlotMap α :=
  match m.slots[id.index.toNat]? with
  | none => m
  | some (g,v) =>
    if g = id.generation ∧ v.isSome then
      {slots := m.slots.set id.index.toNat (g,none), freeList := id.index::m.freeList}
    else m

def update (m : SlotMap α) (id : Id) (v : α) : SlotMap α :=
  match m.slots[id.index.toNat]? with
  | none => m
  | some (g,cur) =>
    if g = id.generation ∧ cur.isSome then {m with slots := m.slots.set id.index.toNat (g,some v)}
    else m

end SlotMap

end WarpLoop.Core
