import Mathlib.Algebra.Group.Nat.Defs
import WarpLoop.Sketch.History

/-! What the sketch core's C interface does to the history of a room. -/
namespace WarpLoop.Sketch

def FfiState.history (s : FfiState) (roomId : UInt64) : List Bytes :=
  match s.rooms.lookup roomId with
  | some h => h.packets
  | none => []

/-- The room's entry, or the empty history that it starts with. -/
def FfiState.room (s : FfiState) (roomId : UInt64) : RoomHistory := (s.rooms.lookup roomId).getD RoomHistory.empty

theorem FfiState.room_packets (s : FfiState) (roomId : UInt64) : (s.room roomId).packets = s.history roomId := by
  unfold room history
  cases s.rooms.lookup roomId <;> rfl

theorem RoomHistory.apply_packets (h : RoomHistory) (bytes : Bytes) :
    (h.apply bytes).1.packets = if (h.apply bytes).2 then h.packets ++ [bytes] else h.packets := by
  unfold apply
  split
  · rfl
  · split <;> rfl

private theorem withRoomIn_spec (roomId : UInt64) (f : RoomHistory → RoomHistory × Bool)
    (rooms : List (UInt64 × RoomHistory)) :
    (withRoomIn roomId f rooms).2 = (f ((rooms.lookup roomId).getD RoomHistory.empty)).2 ∧
      ∀ other, (withRoomIn roomId f rooms).1.lookup other =
        if other = roomId then some (f ((rooms.lookup roomId).getD RoomHistory.empty)).1 else rooms.lookup other := by
  induction rooms with
  | nil =>
    refine ⟨rfl,fun other => ?_⟩
    by_cases same : other = roomId
    · simp [withRoomIn,same]
    · have apart : (other == roomId) = false := by simpa using same
      simp [withRoomIn,List.lookup_cons,apart,same]
  | cons entry rest ih =>
    obtain ⟨rid,h⟩ := entry
    by_cases here : rid = roomId
    · subst rid
      refine ⟨by simp [withRoomIn],fun other => ?_⟩
      by_cases same : other = roomId
      · simp [withRoomIn,same]
      · have apart : (other == roomId) = false := by simpa using same
        simp [withRoomIn,List.lookup_cons,apart,same]
    · have skip : (roomId == rid) = false := by simpa using Ne.symm here
      refine ⟨by simp [withRoomIn,here,List.lookup_cons,skip,ih.1],fun other => ?_⟩
      simp only [withRoomIn,here,if_false,List.lookup_cons,skip]
      by_cases same : other = rid
      · have apart : other ≠ roomId := fun equal => here (same.symm.trans equal)
        simp [same,here]
      · have away : (other == rid) = false := by simpa using same
        simp only [away]
        exact ih.2 other

/-- Whether a packet is accepted depends on its room alone, an accepted packet is
appended to its room's history, and no other history changes. -/
theorem sketchCoreApplyPacket_spec (s : FfiState) (roomId : UInt64) (bytes : Bytes) :
    (sketchCoreApplyPacket s roomId bytes).2 = ((s.room roomId).apply bytes).2 ∧
      (sketchCoreApplyPacket s roomId bytes).1.room roomId = ((s.room roomId).apply bytes).1 ∧
      ∀ other, (sketchCoreApplyPacket s roomId bytes).1.history other =
        if other = roomId ∧ (sketchCoreApplyPacket s roomId bytes).2 then s.history other ++ [bytes]
        else s.history other := by
  obtain ⟨verdict,lookups⟩ := withRoomIn_spec roomId (fun h => h.apply bytes) s.rooms
  refine ⟨verdict,?_,fun other => ?_⟩
  · simp only [sketchCoreApplyPacket,FfiState.room,lookups,if_true]
    rfl
  · by_cases same : other = roomId
    · subst other
      have packets := (s.room roomId).apply_packets bytes
      simp only [sketchCoreApplyPacket,FfiState.history,lookups,if_true,true_and,verdict]
      change ((s.room roomId).apply bytes).1.packets = if ((s.room roomId).apply bytes).2 then _ else _
      rw [packets,FfiState.room_packets]
      rfl
    · simp only [sketchCoreApplyPacket,FfiState.history,lookups,same,if_false,false_and]

/-- The packet goes into the log of its own room. -/
theorem sketchCoreApplyPacket_room (s : FfiState) (roomId : UInt64) (bytes : Bytes) (other : UInt64) :
    (sketchCoreApplyPacket s roomId bytes).1.room other =
      if other = roomId then ((s.room roomId).apply bytes).1 else s.room other := by
  obtain ⟨_,lookups⟩ := withRoomIn_spec roomId (fun h => h.apply bytes) s.rooms
  simp only [sketchCoreApplyPacket,FfiState.room,lookups]
  split <;> rfl

private theorem historyPacket_eq (s : FfiState) (roomId : UInt64) (i : Nat) (small : i < 2^32)
    (inside : i < (s.history roomId).length) :
    historyPacket s roomId i.toUInt32 = (s.history roomId).getD i [] := by
  have index : i.toUInt32.toNat = i := by
    simp only [Nat.toUInt32_eq,UInt32.toNat_ofNat']
    exact Nat.mod_eq_of_lt small
  unfold historyPacket
  unfold FfiState.history at inside ⊢
  rw [index]
  revert inside
  induction s.rooms with
  | nil => intro inside; simp at inside
  | cons entry rest ih =>
    intro inside
    obtain ⟨rid,h⟩ := entry
    by_cases here : rid = roomId
    · subst rid
      simp only [List.lookup_cons,BEq.rfl] at inside ⊢
      rw [List.find?_cons_of_pos (by simp [inside])]
    · have skip : (roomId == rid) = false := by simpa using Ne.symm here
      simp only [List.lookup_cons,skip] at inside ⊢
      rw [List.find?_cons_of_neg (by simp [here])]
      exact ih inside

/-- The count of a history is a 32-bit number, and the replay stops there. -/
theorem sketchCoreHistory_eq (s : FfiState) (roomId : UInt64) :
    sketchCoreHistory s roomId = (s.history roomId).take ((s.history roomId).length % 2^32) := by
  have count : (historyCount s roomId).toNat = (s.history roomId).length % 2^32 := by
    unfold historyCount FfiState.history
    cases s.rooms.lookup roomId with
    | none => rfl
    | some h => simp
  unfold sketchCoreHistory
  rw [count]
  apply List.ext_getElem
  · simp [Nat.mod_le]
  · intro i first second
    have below : i < (s.history roomId).length % 2^32 := by simpa using first
    have small : i < 2^32 := Nat.lt_trans below (Nat.mod_lt _ (by decide))
    have inside : i < (s.history roomId).length := Nat.lt_of_lt_of_le below (Nat.mod_le _ _)
    simp [historyPacket_eq s roomId i small inside,inside]

end WarpLoop.Sketch
