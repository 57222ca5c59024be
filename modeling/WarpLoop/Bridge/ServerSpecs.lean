import WarpLoop.Bridge.Server
import WarpLoop.Lib.LittleEndian

/-! One specification per handler of the fanout server. The writes of a relay are
given as a list, and every other table is shown as it is left. -/
namespace WarpLoop.Bridge
open WarpLoop.Core Sketch Lib.LittleEndian

theorem readU32LE_lenPrefix (n : Nat) (rest : Bytes) : readU32LE (lenPrefix n ++ rest) 0 = UInt32.ofNat n := by
  have bytes : readU32LE (lenPrefix n ++ rest) 0 = (UInt8.ofNat n).toUInt32 |||
    ((UInt8.ofNat (n >>> 8)).toUInt32 <<< 8) ||| ((UInt8.ofNat (n >>> 16)).toUInt32 <<< 16) |||
      ((UInt8.ofNat (n >>> 24)).toUInt32 <<< 24) := rfl
  rw [bytes]
  apply UInt32.toNat_inj.mp
  simp only [UInt32.toNat_or,UInt32.toNat_shiftLeft,UInt8.toNat_toUInt32,UInt8.toNat_ofNat',UInt32.toNat_ofNat']
  have small (k : Nat) (m : Nat) (le : k ≤ 24): (m % 2^8) <<< k % 2^32 = (m % 2^8) <<< k := by
    rw [Nat.shiftLeft_eq]
    apply Nat.mod_eq_of_lt
    calc m % 2^8 * 2^k < 2^8 * 2^k := Nat.mul_lt_mul_of_pos_right (Nat.mod_lt _ (by decide)) (Nat.two_pow_pos k)
      _ ≤ 2^8 * 2^24 := Nat.mul_le_mul_left _ (Nat.pow_le_pow_right (by decide) le)
      _ = 2^32 := by decide
  have e8 : (8 : UInt32).toNat % 32 = 8 := rfl
  have e16 : (16 : UInt32).toNat % 32 = 16 := rfl
  have e24 : (24 : UInt32).toNat % 32 = 24 := rfl
  rw [e8,e16,e24,small 8 _ (by decide),small 16 _ (by decide),small 24 _ (by decide)]
  rw [or_shiftLeft _ (k := 8) (by omega),or_shiftLeft _ (k := 16) (by omega),or_shiftLeft _ (k := 24) (by omega)]
  simp only [Nat.shiftRight_eq_div_pow]
  omega

namespace Server

theorem writeAll_eq (s : Server) (cnx : Cnx) (streamId : UInt64) (pieces : List Bytes) :
    s.writeAll cnx streamId pieces = {s with writes := s.writes ++ pieces.map (Write.mk cnx streamId)} := by
  induction pieces generalizing s with
  | nil => simp [writeAll]
  | cons bytes later ih =>
    have step : s.writeAll cnx streamId (bytes::later) = (s.write cnx streamId bytes).writeAll cnx streamId later := rfl
    rw [step,ih]
    simp [write]

def deliveries (delivery : AList (fun _ : UInt64 => Cnx × UInt64)) (pieces : List Bytes) (target : UInt64) :
    List Write :=
  match delivery.lookup target with
  | none => []
  | some (cnx,streamId) => pieces.map (Write.mk cnx streamId)

theorem deliver_eq (s : Server) (pieces : List Bytes) (target : UInt64) :
    s.deliver pieces target = {s with writes := s.writes ++ deliveries s.delivery pieces target} := by
  unfold deliver deliveries
  cases s.delivery.lookup target with
  | none => simp
  | some entry => exact writeAll_eq s entry.1 entry.2 pieces

theorem relay_eq (s : Server) (targets : List UInt64) (pieces : List Bytes) :
    s.relay targets pieces = {s with writes := s.writes ++ targets.flatMap (deliveries s.delivery pieces)} := by
  induction targets generalizing s with
  | nil => simp [relay]
  | cons target later ih =>
    have step : s.relay (target::later) pieces = (s.deliver pieces target).relay later pieces := rfl
    rw [step,ih,deliver_eq]
    simp

def replay (cnx : Cnx) (streamId : UInt64) (packets : List Bytes) : List Write :=
  packets.flatMap (fun packet => [lenPrefix packet.length,packet].map (Write.mk cnx streamId))

theorem replay_eq (s : Server) (cnx : Cnx) (streamId : UInt64) (packets : List Bytes) :
    packets.foldl (fun s packet => s.writeAll cnx streamId [lenPrefix packet.length,packet]) s =
      {s with writes := s.writes ++ replay cnx streamId packets} := by
  induction packets generalizing s with
  | nil => simp [replay]
  | cons packet later ih =>
    rw [List.foldl_cons,ih,writeAll_eq]
    simp [replay]

theorem handleSketchFrame_eq (s : Server) (cnx : Cnx) (roomId : UInt64) (frame : Bytes) :
    s.handleSketchFrame cnx roomId frame =
      {s with
        sketch := (sketchCoreApplyPacket s.sketch roomId frame).1
        writes := s.writes ++ if (sketchCoreApplyPacket s.sketch roomId frame).2 then
          (Ffi.pubTargets s.core roomId (connIdOf cnx)).flatMap
            (deliveries s.delivery [lenPrefix frame.length,frame]) else []} := by
  simp only [handleSketchFrame]
  cases accepted : (sketchCoreApplyPacket s.sketch roomId frame).2 with
  | false => simp
  | true => simp [relay_eq]

/-- What looking up a topic can do: find its room, find no free slot, or file a
fresh empty room under it. The last case is a room whose packed id happens to be the
sentinel; it is allocated and then forgotten. -/
theorem getOrCreateRoom_cases (s : Server) (topic : Bytes) :
    (∃ roomId, s.topicToRoom.lookup topic = some roomId ∧ s.getOrCreateRoom topic = (s,roomId)) ∨
    s.topicToRoom.lookup topic = none ∧
      (s.core.rooms.alloc Room.empty = none ∧ s.getOrCreateRoom topic = (s,SENTINEL) ∨
      ∃ rooms id, s.core.rooms.alloc Room.empty = some (rooms,id) ∧
        (id.pack ≠ SENTINEL ∧ s.getOrCreateRoom topic =
          ({s with core := {s.core with rooms := rooms}, topicToRoom := s.topicToRoom.insert topic id.pack},id.pack) ∨
        id.pack = SENTINEL ∧
          s.getOrCreateRoom topic = ({s with core := {s.core with rooms := rooms}},SENTINEL))) := by
  unfold getOrCreateRoom Ffi.allocRoom
  cases found : s.topicToRoom.lookup topic with
  | some roomId => exact Or.inl ⟨roomId,rfl,rfl⟩
  | none =>
    refine Or.inr ⟨rfl,?_⟩
    cases alloc : s.core.rooms.alloc Room.empty with
    | none => exact Or.inl ⟨rfl,by simp⟩
    | some pair =>
      obtain ⟨rooms,id⟩ := pair
      refine Or.inr ⟨rooms,id,rfl,?_⟩
      by_cases sentinel : id.pack = SENTINEL
      · exact Or.inr ⟨sentinel,by simp [sentinel]⟩
      · exact Or.inl ⟨sentinel,by simp [sentinel]⟩

end Server

end WarpLoop.Bridge
