import WarpLoop.Core.Membership

/-! The room interface as a whole: what `fanout_pub_targets` answers after any sequence
of room calls, said with the calls that were made and the handles they returned. -/
namespace WarpLoop.Core
open Lib.Runs SlotMap

inductive RoomOp
  | alloc
  | free (roomId : UInt64)
  | sub (roomId connId : UInt64)
  | unsub (roomId connId : UInt64)
deriving DecidableEq, Repr

def RoomOp.handle : RoomOp → Option UInt64
  | .alloc => none
  | .free roomId => some roomId
  | .sub roomId _ => some roomId
  | .unsub roomId _ => some roomId

/-- What is seen of a call from outside. -/
inductive RoomEvent
  | issued (roomId : UInt64)
  | freed (roomId : UInt64)
  | subbed (roomId connId : UInt64)
  | unsubbed (roomId connId : UInt64)
deriving DecidableEq, Repr

/-- The core with the calls so far, the latest first. -/
structure RoomSession where
  core : State
  log : List RoomEvent

namespace RoomSession

def start (capacity : UInt32) : RoomSession := ⟨Ffi.init capacity,[]⟩

def call (t : RoomSession) : RoomOp → RoomSession
  | .alloc =>
    let (core,roomId) := Ffi.allocRoom t.core
    ⟨core,if roomId = SENTINEL then t.log else .issued roomId::t.log⟩
  | .free roomId => ⟨Ffi.freeRoom t.core roomId,.freed roomId::t.log⟩
  | .sub roomId connId => ⟨Ffi.sub t.core roomId connId,.subbed roomId connId::t.log⟩
  | .unsub roomId connId => ⟨Ffi.unsub t.core roomId connId,.unsubbed roomId connId::t.log⟩

end RoomSession

/-- The handle was returned, and not freed since. -/
def HandleLive (log : List RoomEvent) (roomId : UInt64) : Prop :=
  log.find? (fun e => e = .issued roomId || e = .freed roomId) = some (.issued roomId)

/-- Since the handle was last returned, the latest call for the connection is a `sub`. -/
def Subscribed (log : List RoomEvent) (roomId connId : UInt64) : Prop :=
  log.find? (fun e => e = .issued roomId || e = .subbed roomId connId || e = .unsubbed roomId connId) =
    some (.subbed roomId connId)

section Log
variable (log : List RoomEvent) (roomId other connId otherConn : UInt64)

theorem live_issued : HandleLive (.issued other::log) roomId ↔ other = roomId ∨ HandleLive log roomId := by
  unfold HandleLive
  by_cases same : other = roomId <;> simp [same]

theorem live_freed : HandleLive (.freed other::log) roomId ↔ other ≠ roomId ∧ HandleLive log roomId := by
  unfold HandleLive
  by_cases same : other = roomId <;> simp [same]

theorem live_subbed : HandleLive (.subbed other connId::log) roomId ↔ HandleLive log roomId := by
  simp [HandleLive]

theorem live_unsubbed : HandleLive (.unsubbed other connId::log) roomId ↔ HandleLive log roomId := by
  simp [HandleLive]

theorem subscribed_issued :
    Subscribed (.issued other::log) roomId connId ↔ other ≠ roomId ∧ Subscribed log roomId connId := by
  unfold Subscribed
  by_cases same : other = roomId <;> simp [same]

theorem subscribed_freed : Subscribed (.freed other::log) roomId connId ↔ Subscribed log roomId connId := by
  simp [Subscribed]

theorem subscribed_subbed :
    Subscribed (.subbed other otherConn::log) roomId connId ↔
      (other = roomId ∧ otherConn = connId) ∨ Subscribed log roomId connId := by
  unfold Subscribed
  by_cases same : other = roomId <;> by_cases own : otherConn = connId <;> simp [same,own]

theorem subscribed_unsubbed :
    Subscribed (.unsubbed other otherConn::log) roomId connId ↔
      ¬ (other = roomId ∧ otherConn = connId) ∧ Subscribed log roomId connId := by
  unfold Subscribed
  by_cases same : other = roomId <;> by_cases own : otherConn = connId <;> simp [same,own]

end Log

theorem Id.pack_unpack (roomId : UInt64) : (Id.unpack roomId).pack = roomId := by
  apply UInt64.toNat.inj
  have whole := roomId.toNat_lt
  have index : ((roomId >>> 32).toUInt32).toNat = roomId.toNat / 2^32 := by
    rw [UInt64.toNat_toUInt32,UInt64.toNat_shiftRight,Nat.shiftRight_eq_div_pow]
    have shift : (32 : UInt64).toNat % 64 = 32 := rfl
    rw [shift,Nat.mod_eq_of_lt]
    omega
  have generation : ((roomId &&& 0xFFFFFFFF).toUInt32).toNat = roomId.toNat % 2^32 := by
    rw [UInt64.toNat_toUInt32,UInt64.toNat_and]
    have mask : (0xFFFFFFFF : UInt64).toNat = 2^32 - 1 := rfl
    rw [mask,Nat.and_two_pow_sub_one_eq_mod,Nat.mod_mod]
  rw [Id.pack_toNat,Id.unpack,index,generation]
  omega

theorem Id.unpack_inj {roomId other : UInt64} : Id.unpack roomId = Id.unpack other ↔ roomId = other := by
  constructor
  · intro same
    rw [← Id.pack_unpack roomId,same,Id.pack_unpack]
  · exact congrArg Id.unpack

namespace RoomSession

/-- The rooms of the core are those that the calls say. -/
structure Exact (t : RoomSession) : Prop where
  wf : Wf t.core.rooms
  small : t.core.rooms.slots.length < 2^32
  live : ∀ roomId, HandleLive t.log roomId ↔ ∃ room, t.core.rooms.find (Id.unpack roomId) = some room
  nodup : ∀ roomId room, t.core.rooms.find (Id.unpack roomId) = some room → room.subscribers.Nodup
  members : ∀ roomId room, t.core.rooms.find (Id.unpack roomId) = some room →
    ∀ connId, connId ∈ room.subscribers ↔ Subscribed t.log roomId connId

theorem Exact.start (capacity : UInt32) : (start capacity).Exact where
  wf := empty_wf _ (Nat.le_of_lt capacity.toNat_lt)
  small := by
    have bound := capacity.toNat_lt
    simpa [RoomSession.start,Ffi.init,State.initial,SlotMap.empty] using bound
  live := fun roomId => by simp [RoomSession.start,HandleLive,Ffi.init,State.initial]
  nodup := fun roomId room found => by simp [RoomSession.start,Ffi.init,State.initial] at found
  members := fun roomId room found => by simp [RoomSession.start,Ffi.init,State.initial] at found

theorem pack_ne_sentinel {α : Type} {m : SlotMap α} (small : m.slots.length < 2^32) {id : Id} {v : α}
    (found : m.find id = some v) : id.pack ≠ SENTINEL := by
  intro same
  have last : id = Id.unpack SENTINEL := by rw [← same,Id.unpack_pack]
  have inside := inside_of_get ((find_eq_some m id v).mp found)
  rw [last] at inside
  have index : (Id.unpack SENTINEL).index.toNat = 2^32 - 1 := rfl
  omega

theorem Exact.alloc {t : RoomSession} (exact_ : t.Exact) : (t.call .alloc).Exact := by
  unfold call
  unfold Ffi.allocRoom
  cases ok : t.core.rooms.alloc Room.empty with
  | none => exact exact_
  | some result =>
    obtain ⟨rooms,id⟩ := result
    obtain ⟨wf,fresh,finds,_⟩ := alloc_some exact_.wf ok
    have small : rooms.slots.length < 2^32 := by
      rw [alloc_slots_length ok]
      exact exact_.small
    have own (roomId : UInt64) : Id.unpack roomId = id ↔ id.pack = roomId := by
      rw [← Id.unpack_pack id,Id.unpack_inj,Id.unpack_pack]
      exact eq_comm
    have real : id.pack ≠ SENTINEL := pack_ne_sentinel small (show rooms.find id = some Room.empty by rw [finds,if_pos rfl])
    dsimp only
    rw [if_neg real]
    refine ⟨wf,small,fun roomId => ?_,fun roomId room found => ?_,fun roomId room found connId => ?_⟩
    · rw [live_issued,exact_.live roomId,finds]
      by_cases here : Id.unpack roomId = id
      · simp [(own roomId).mp here,here]
      · simp [mt (own roomId).mpr here,here]
    · rw [finds] at found
      split at found
      · cases found
        exact List.nodup_nil
      · exact exact_.nodup roomId room found
    · rw [finds] at found
      rw [subscribed_issued]
      split at found
      · rename_i here
        cases found
        simp [Room.empty,(own roomId).mp here]
      · rename_i elsewhere
        rw [exact_.members roomId room found connId]
        simp [mt (own roomId).mpr elsewhere]

theorem Exact.free {t : RoomSession} (exact_ : t.Exact) (other : UInt64) : (t.call (.free other)).Exact := by
  have finds (roomId : UInt64) : (t.core.rooms.free (Id.unpack other)).find (Id.unpack roomId) =
      if roomId = other then none else t.core.rooms.find (Id.unpack roomId) := by
    rw [free_find]
    simp only [Id.unpack_inj]
  refine ⟨free_wf exact_.wf _,?_,fun roomId => ?_,fun roomId room found => ?_,fun roomId room found connId => ?_⟩
  · simpa [call,Ffi.freeRoom] using exact_.small
  · simp only [call,Ffi.freeRoom,live_freed,exact_.live roomId,finds]
    by_cases same : roomId = other
    · simp [same]
    · simp [same,Ne.symm same]
  · simp only [call,Ffi.freeRoom,finds] at found
    split at found
    · cases found
    · exact exact_.nodup roomId room found
  · simp only [call,Ffi.freeRoom,finds] at found
    simp only [call,subscribed_freed]
    split at found
    · cases found
    · exact exact_.members roomId room found connId

theorem sub_length (s : State) (roomId connId : UInt64) :
    (Ffi.sub s roomId connId).rooms.slots.length = s.rooms.slots.length := by
  unfold Ffi.sub
  dsimp only
  split <;> simp

theorem unsub_length (s : State) (roomId connId : UInt64) :
    (Ffi.unsub s roomId connId).rooms.slots.length = s.rooms.slots.length := by
  unfold Ffi.unsub
  dsimp only
  split <;> simp

/-- A call that changes at most one room keeps the rooms exact, when the log speaks of
the same change. -/
theorem Exact.change {t t' : RoomSession} (exact_ : t.Exact) (other : UInt64) (change : Room → Room)
    (wf : Wf t'.core.rooms) (size : t'.core.rooms.slots.length = t.core.rooms.slots.length)
    (finds : ∀ id, t'.core.rooms.find id =
      if id = Id.unpack other then (t.core.rooms.find id).map change else t.core.rooms.find id)
    (live : ∀ roomId, HandleLive t'.log roomId ↔ HandleLive t.log roomId)
    (nodup : ∀ room, room.subscribers.Nodup → (change room).subscribers.Nodup)
    (members : ∀ room connId, (connId ∈ room.subscribers ↔ Subscribed t.log other connId) →
      (connId ∈ (change room).subscribers ↔ Subscribed t'.log other connId))
    (elsewhere : ∀ roomId connId, roomId ≠ other →
      (Subscribed t'.log roomId connId ↔ Subscribed t.log roomId connId)) : t'.Exact := by
  refine ⟨wf,size ▸ exact_.small,fun roomId => ?_,fun roomId room found => ?_,fun roomId room found connId => ?_⟩
  · rw [live,exact_.live roomId,finds]
    split <;> simp
  · rw [finds] at found
    split at found
    · obtain ⟨old,was,rfl⟩ := Option.map_eq_some_iff.mp found
      exact nodup old (exact_.nodup roomId old was)
    · exact exact_.nodup roomId room found
  · rw [finds] at found
    split at found
    · rename_i same
      obtain ⟨old,was,rfl⟩ := Option.map_eq_some_iff.mp found
      obtain rfl := Id.unpack_inj.mp same
      exact members old connId (exact_.members roomId old was connId)
    · rename_i apart
      rw [elsewhere roomId connId (fun same => apart (congrArg Id.unpack same))]
      exact exact_.members roomId room found connId

theorem Exact.sub {t : RoomSession} (exact_ : t.Exact) (other subscriber : UInt64) :
    (t.call (.sub other subscriber)).Exact := by
  apply exact_.change other (fun room => room.sub subscriber)
  · exact Ffi.sub_wf exact_.wf other subscriber
  · exact sub_length t.core other subscriber
  · exact Ffi.sub_find t.core other subscriber
  · exact fun roomId => live_subbed t.log roomId other subscriber
  · exact fun room distinct => Room.nodup_sub distinct subscriber
  · intro room connId member
    rw [Room.mem_sub,member,call,subscribed_subbed,or_comm]
    simp [eq_comm]
  · intro roomId connId apart
    rw [call,subscribed_subbed]
    simp [Ne.symm apart]

theorem Exact.unsub {t : RoomSession} (exact_ : t.Exact) (other subscriber : UInt64) :
    (t.call (.unsub other subscriber)).Exact := by
  apply exact_.change other (fun room => room.unsub subscriber)
  · exact Ffi.unsub_wf exact_.wf other subscriber
  · exact unsub_length t.core other subscriber
  · exact Ffi.unsub_find t.core other subscriber
  · exact fun roomId => live_unsubbed t.log roomId other subscriber
  · exact fun room distinct => Room.nodup_unsub distinct subscriber
  · intro room connId member
    rw [Room.mem_unsub,member,call,subscribed_unsubbed,and_comm]
    simp [eq_comm]
  · intro roomId connId apart
    rw [call,subscribed_unsubbed]
    simp [Ne.symm apart]

theorem Exact.call {t : RoomSession} (exact_ : t.Exact) (op : RoomOp) : (t.call op).Exact := by
  cases op with
  | alloc => exact exact_.alloc
  | free roomId => exact exact_.free roomId
  | sub roomId connId => exact exact_.sub roomId connId
  | unsub roomId connId => exact exact_.unsub roomId connId

theorem Exact.nodup_targets {t : RoomSession} (exact_ : t.Exact) (roomId publisher : UInt64) :
    (Ffi.pubTargets t.core roomId publisher).Nodup := by
  unfold Ffi.pubTargets
  cases found : t.core.rooms.find (Id.unpack roomId) with
  | none => exact List.nodup_nil
  | some room => exact (exact_.nodup roomId room found).filter _

theorem Exact.mem_targets {t : RoomSession} (exact_ : t.Exact) (roomId publisher connId : UInt64) :
    connId ∈ Ffi.pubTargets t.core roomId publisher ↔
      connId ≠ publisher ∧ HandleLive t.log roomId ∧ Subscribed t.log roomId connId := by
  unfold Ffi.pubTargets
  rw [exact_.live roomId]
  cases found : t.core.rooms.find (Id.unpack roomId) with
  | none => simp
  | some room =>
    have member := exact_.members roomId room found connId
    simp [Room.targets,member,and_comm]

theorem Exact.targets_dead {t : RoomSession} (exact_ : t.Exact) {roomId : UInt64} (dead : ¬ HandleLive t.log roomId)
    (publisher : UInt64) : Ffi.pubTargets t.core roomId publisher = [] := by
  refine List.eq_nil_iff_forall_not_mem.mpr (fun connId member => dead ?_)
  exact ((exact_.mem_targets roomId publisher connId).mp member).2.1

/-- A call on another handle leaves a live handle as it is. -/
theorem Exact.targets_other {t : RoomSession} (exact_ : t.Exact) {roomId : UInt64} (live : HandleLive t.log roomId)
    (publisher : UInt64) {op : RoomOp} (other : op.handle ≠ some roomId) :
    Ffi.pubTargets (t.call op).core roomId publisher = Ffi.pubTargets t.core roomId publisher := by
  suffices same : (t.call op).core.rooms.find (Id.unpack roomId) = t.core.rooms.find (Id.unpack roomId) by
    unfold Ffi.pubTargets
    rw [same]
  obtain ⟨room,found⟩ := (exact_.live roomId).mp live
  have apart {otherId : UInt64} (differs : some otherId ≠ some roomId) : Id.unpack roomId ≠ Id.unpack otherId :=
    fun same => differs (congrArg some (Id.unpack_inj.mp same).symm)
  cases op with
  | alloc =>
    simp only [RoomSession.call,Ffi.allocRoom]
    cases ok : t.core.rooms.alloc Room.empty with
    | none => rfl
    | some result =>
      obtain ⟨_,fresh,finds,_⟩ := alloc_some exact_.wf ok
      have older : Id.unpack roomId ≠ result.2 := by
        intro same
        rw [same,fresh] at found
        cases found
      dsimp only
      rw [finds,if_neg older]
  | free otherId =>
    simp only [RoomSession.call,Ffi.freeRoom]
    rw [free_find,if_neg (apart other)]
  | sub otherId connId =>
    simp only [RoomSession.call]
    rw [Ffi.sub_find,if_neg (apart other)]
  | unsub otherId connId =>
    simp only [RoomSession.call]
    rw [Ffi.unsub_find,if_neg (apart other)]

/-- After any calls with any handles: the targets of a publish are, without duplicates,
the other connections whose latest call on the handle is a `sub`, none if the handle is
not live, and a call on another handle does not change them. -/
theorem pubTargets_of_calls (capacity : UInt32) (ops : List RoomOp) (roomId publisher : UInt64) :
    let t := run call (start capacity) ops
    (Ffi.pubTargets t.core roomId publisher).Nodup ∧
      (∀ connId, connId ∈ Ffi.pubTargets t.core roomId publisher ↔
        connId ≠ publisher ∧ HandleLive t.log roomId ∧ Subscribed t.log roomId connId) ∧
      (¬ HandleLive t.log roomId → Ffi.pubTargets t.core roomId publisher = []) ∧
      (HandleLive t.log roomId → ∀ op : RoomOp, op.handle ≠ some roomId →
        Ffi.pubTargets (t.call op).core roomId publisher = Ffi.pubTargets t.core roomId publisher) := by
  intro t
  have exact_ : t.Exact := invariant_run call Exact (fun _ op before => before.call op) _ ops (Exact.start capacity)
  refine ⟨exact_.nodup_targets roomId publisher,exact_.mem_targets roomId publisher,?_,?_⟩
  · exact fun dead => exact_.targets_dead dead publisher
  · exact fun live op other => exact_.targets_other live publisher other

end RoomSession

end WarpLoop.Core
