import WarpLoop.Core.Occupancy
import WarpLoop.Lib.Debounce

/-! Moves with hysteresis (Fanoutcore/ZoneDispatch.lean, `moveEntityToIndexHysteresisV`). An entity passes from one
zone to another only when its crossing has lasted; how long it has lasted is written in its record. -/
namespace WarpLoop.Core
open SlotMap Lib.Runs Lib.Debounce

namespace ZoneWorld

/-- The last live zone that lists the connection. -/
def currentZone (w : ZoneWorld) (connId : UInt64) : Option Id :=
  w.liveZones.foldl (fun current entry => if entry.2.holds connId then some entry.1 else current) none

def moveEntityToIndexHysteresisV (w : ZoneWorld) (connId idx vx vy vz rttTicks : UInt64) (pos : Pos3) : ZoneWorld :=
  let fresh : EntityRecord := {connId := connId, idx := idx, pos := pos, vx := vx, vy := vy, vz := vz, rttTicks := rttTicks}
  match w.authorityForIndex idx with
  | none =>
    match w.currentZone connId with
    | none => w
    | some zid =>
      match w.zones.find zid with
      | none => w
      | some zone => {w with zones := w.zones.update zid (zone.unsub connId)}
  | some targetZoneId =>
    match w.currentZone connId with
    | none =>
      match w.zones.find targetZoneId with
      | none => w
      | some zone => {w with zones := w.zones.update targetZoneId (zone.sub fresh)}
    | some curZoneId =>
      match w.zones.find curZoneId with
      | none => w
      | some curZone =>
        let oldRec := (curZone.entities.find? (fun entity => entity.connId == connId)).getD fresh
        if curZoneId = targetZoneId then
          {w with zones := w.zones.update curZoneId ((curZone.unsub connId).sub fresh)}
        else
          let streak := if oldRec.pendingZone = some targetZoneId then oldRec.migrationStreak + 1 else 1
          let held := {fresh with pendingZone := some targetZoneId, migrationStreak := streak}
          let threshold := hysteresisTicksFor fresh.lookaheadTicks
          if streak ≥ threshold then
            match w.zones.find targetZoneId with
            | none => w
            | some targetZone =>
              if targetZone.entities.length ≥ authorityCapacity then
                {w with zones := w.zones.update curZoneId ((curZone.unsub connId).sub held)}
              else
                {w with zones := (w.zones.update curZoneId (curZone.unsub connId)).update targetZoneId (targetZone.sub fresh)}
          else {w with zones := w.zones.update curZoneId ((curZone.unsub connId).sub held)}

private theorem update_live {α : Type} {m : SlotMap α} {id : Id} {old : α} (live : m.find id = some old) (v : α) :
    m.update id v = {m with slots := m.slots.set id.index.toNat (id.generation,some v)} := by
  unfold SlotMap.update
  rw [(find_eq_some m id old).mp live]
  simp

private theorem update_update {α : Type} {m : SlotMap α} {id : Id} {old : α} (live : m.find id = some old) (v v' : α) :
    (m.update id v).update id v' = m.update id v' := by
  have here : (m.update id v).find id = some v := by rw [update_find,if_pos rfl,live]; rfl
  rw [update_live here,update_live live,update_live live,List.set_set]

private theorem update_same {α : Type} {m : SlotMap α} {id : Id} {old : α} (live : m.find id = some old) : m.update id old = m := by
  obtain ⟨inside,slot⟩ := List.getElem?_eq_some_iff.mp ((find_eq_some m id old).mp live)
  rw [update_live live,← slot,List.set_getElem_self]

/-- An update that keeps what `f` sees of the value keeps what `f` sees of the listing. -/
private theorem liveEntries_update {α β : Type} {m : SlotMap α} {id : Id} {old v : α} (live : m.find id = some old)
    (f : α → β) (same : f v = f old) :
    (m.update id v).liveEntries.map (fun entry => (entry.1,f entry.2)) = m.liveEntries.map (fun entry => (entry.1,f entry.2)) := by
  have slot := (find_eq_some m id old).mp live
  simp only [liveEntries,List.map_filterMap,update_slots_length]
  apply List.filterMap_congr
  intro k _
  rw [update_live live]
  by_cases here : id.index.toNat = k
  · subst here
    have inside := (List.getElem?_eq_some_iff.mp slot).1
    rw [List.getElem?_set_self inside,slot]
    simp [same]
  · simp [here]

/-! Where the connections are listed. -/

/-- The record is in that zone. -/
def Listed (zones : SlotMap Zone) (id : Id) (entity : EntityRecord) : Prop :=
  ∃ zone, zones.find id = some zone ∧ entity ∈ zone.entities

/-- No connection is listed twice, and no zone lists more than it has room for. The index of a record need not be
the zone's: a held record keeps its old zone while its index is already another's. -/
structure Housed (zones : SlotMap Zone) : Prop where
  wf : Wf zones
  once : ∀ id zone, zones.find id = some zone → (zone.entities.map EntityRecord.connId).Nodup
  room : ∀ id zone, zones.find id = some zone → zone.entities.length ≤ authorityCapacity
  one : ∀ id zone id' zone' connId, zones.find id = some zone → zones.find id' = some zone' →
    zone.holds connId = true → zone'.holds connId = true → id = id'

theorem Occupied.housed {zones : SlotMap Zone} (occupied : Occupied zones) : Housed zones where
  wf := occupied.wf
  once id zone live := (occupied.tidy id zone live).once
  room id zone live := (occupied.tidy id zone live).room
  one := occupied.one

/-- `after` is `before` with the record of one connection moved to `place`, or dropped. -/
structure Refiled (before after : SlotMap Zone) (connId : UInt64) (place : Option (Id × EntityRecord)) : Prop where
  housed : Housed after
  shape : after.liveEntries.map (fun entry => (entry.1,entry.2.range)) = before.liveEntries.map (fun entry => (entry.1,entry.2.range))
  listed : ∀ id entity, Listed after id entity ↔ Listed before id entity ∧ entity.connId ≠ connId ∨ place = some (id,entity)

section Filing
variable {zones : SlotMap Zone} {connId : UInt64}

theorem Housed.listed_unique (housed : Housed zones) {a b : Id} {e e' : EntityRecord} (here : Listed zones a e)
    (there : Listed zones b e') (same : e.connId = e'.connId) : a = b ∧ e = e' := by
  obtain ⟨z,found,member⟩ := here
  obtain ⟨z',found',member'⟩ := there
  obtain rfl := housed.one a z b z' e.connId found found' (holds_of_mem member) (same ▸ holds_of_mem member')
  obtain rfl := Option.some.inj (found.symm.trans found')
  exact ⟨rfl,List.inj_on_of_nodup_map (housed.once a z found) member member' same⟩

theorem Refiled.refl (housed : Housed zones) (absent : ∀ id e, Listed zones id e → e.connId ≠ connId) :
    Refiled zones zones connId none where
  housed := housed
  shape := rfl
  listed id e := by
    constructor
    · exact fun listed => Or.inl ⟨listed,absent id e listed⟩
    · rintro (⟨listed,_⟩ | impossible)
      · exact listed
      · cases impossible

theorem Refiled.trans {between after : SlotMap Zone} {place : Option (Id × EntityRecord)}
    (first : Refiled zones between connId none) (second : Refiled between after connId place) :
    Refiled zones after connId place where
  housed := second.housed
  shape := second.shape.trans first.shape
  listed id e := by
    rw [second.listed,first.listed]
    simp only [reduceCtorEq,or_false,and_assoc,and_self]

/-- Taking the connection off the zone that may list it. -/
theorem Refiled.unsub (housed : Housed zones) {cur : Id} {zone : Zone} (found : zones.find cur = some zone)
    (only : ∀ id e, Listed zones id e → e.connId = connId → id = cur) :
    Refiled zones (zones.update cur (zone.unsub connId)) connId none where
  housed := by
    refine ⟨update_wf housed.wf _ _,?_,?_,?_⟩
    · intro id z live
      rw [update_find] at live
      split at live
      · obtain ⟨_,_,rfl⟩ := Option.map_eq_some_iff.mp live
        exact (housed.once cur zone found).sublist (List.filter_sublist.map _)
      · exact housed.once id z live
    · intro id z live
      rw [update_find] at live
      split at live
      · obtain ⟨_,_,rfl⟩ := Option.map_eq_some_iff.mp live
        exact Nat.le_trans List.filter_sublist.length_le (housed.room cur zone found)
      · exact housed.room id z live
    · have back (id : Id) (z : Zone) (other : UInt64) (live : (zones.update cur (zone.unsub connId)).find id = some z)
          (listed : z.holds other = true) : ∃ old, zones.find id = some old ∧ old.holds other = true := by
        rw [update_find] at live
        split at live
        · rename_i here
          subst here
          obtain ⟨_,_,rfl⟩ := Option.map_eq_some_iff.mp live
          obtain ⟨e,member,same⟩ := (Zone.holds_iff _ _).mp listed
          exact ⟨zone,found,(zone.holds_iff _).mpr ⟨e,List.mem_of_mem_filter member,same⟩⟩
        · exact ⟨z,live,listed⟩
      intro id z id' z' other live live' listed listed'
      obtain ⟨old,there,held⟩ := back id z other live listed
      obtain ⟨old',there',held'⟩ := back id' z' other live' listed'
      exact housed.one id old id' old' other there there' held held'
  shape := liveEntries_update found Zone.range rfl
  listed id e := by
    simp only [reduceCtorEq,or_false]
    constructor
    · rintro ⟨z,live,member⟩
      rw [update_find] at live
      split at live
      · rename_i here
        subst here
        obtain ⟨_,_,rfl⟩ := Option.map_eq_some_iff.mp live
        obtain ⟨member,other⟩ := List.mem_filter.mp member
        exact ⟨⟨zone,found,member⟩,by simpa using other⟩
      · rename_i elsewhere
        exact ⟨⟨z,live,member⟩,fun same => elsewhere (only id e ⟨z,live,member⟩ same)⟩
    · rintro ⟨⟨z,live,member⟩,other⟩
      by_cases here : id = cur
      · subst here
        obtain rfl := Option.some.inj (live.symm.trans found)
        refine ⟨z.unsub connId,by rw [update_find,if_pos rfl,live]; rfl,List.mem_filter.mpr ⟨member,by simpa using other⟩⟩
      · exact ⟨z,by rw [update_find,if_neg here,live],member⟩

/-- Filing a record of a connection that is listed nowhere. -/
theorem Refiled.sub (housed : Housed zones) {target : Id} {zone : Zone} (found : zones.find target = some zone)
    {entity : EntityRecord} (named : entity.connId = connId) (absent : ∀ id e, Listed zones id e → e.connId ≠ connId)
    (room : zone.entities.length < authorityCapacity) :
    Refiled zones (zones.update target (zone.sub entity)) connId (some (target,entity)) := by
  have free : zone.holds entity.connId = false := by
    rw [Bool.eq_false_iff]
    intro listed
    obtain ⟨e,member,same⟩ := (zone.holds_iff _).mp listed
    exact absent target e ⟨zone,found,member⟩ (same.trans named)
  rw [Zone.sub_of_absent free room]
  have listing (id : Id) (e : EntityRecord) : Listed (zones.update target {zone with entities := zone.entities ++ [entity]}) id e ↔
      Listed zones id e ∨ id = target ∧ e = entity := by
    constructor
    · rintro ⟨z,live,member⟩
      rw [update_find] at live
      split at live
      · rename_i here
        subst here
        obtain ⟨_,_,rfl⟩ := Option.map_eq_some_iff.mp live
        rcases List.mem_append.mp member with old | new
        · exact Or.inl ⟨zone,found,old⟩
        · exact Or.inr ⟨rfl,List.mem_singleton.mp new⟩
      · exact Or.inl ⟨z,live,member⟩
    · have here : (zones.update target {zone with entities := zone.entities ++ [entity]}).find target =
          some {zone with entities := zone.entities ++ [entity]} := by rw [update_find,if_pos rfl,found]; rfl
      rintro (⟨z,live,member⟩ | ⟨rfl,rfl⟩)
      · by_cases same : id = target
        · subst same
          obtain rfl := Option.some.inj (live.symm.trans found)
          exact ⟨_,here,List.mem_append_left _ member⟩
        · exact ⟨z,by rw [update_find,if_neg same,live],member⟩
      · exact ⟨_,here,List.mem_append_right _ (List.mem_singleton_self _)⟩
  refine ⟨⟨update_wf housed.wf _ _,?_,?_,?_⟩,liveEntries_update found Zone.range rfl,?_⟩
  · intro id z live
    rw [update_find] at live
    split at live
    · obtain ⟨_,_,rfl⟩ := Option.map_eq_some_iff.mp live
      rw [List.map_append,List.nodup_append]
      refine ⟨housed.once target zone found,by simp,?_⟩
      intro other held new fresh same
      obtain ⟨e,member,rfl⟩ := List.mem_map.mp held
      obtain rfl : new = entity.connId := by simpa using fresh
      exact absent target e ⟨zone,found,member⟩ (same.trans named)
    · exact housed.once id z live
  · intro id z live
    rw [update_find] at live
    split at live
    · obtain ⟨_,_,rfl⟩ := Option.map_eq_some_iff.mp live
      rw [List.length_append,List.length_singleton]
      omega
    · exact housed.room id z live
  · intro id z id' z' other live live' held held'
    obtain ⟨e,member,rfl⟩ := (z.holds_iff _).mp held
    obtain ⟨e',member',same⟩ := (z'.holds_iff _).mp held'
    rcases (listing id e).mp ⟨z,live,member⟩ with old | ⟨rfl,rfl⟩
    · rcases (listing id' e').mp ⟨z',live',member'⟩ with old' | ⟨rfl,rfl⟩
      · exact (housed.listed_unique old old' same.symm).1
      · exact absurd (same.symm.trans named) (absent id e old)
    · rcases (listing id' e').mp ⟨z',live',member'⟩ with old' | ⟨rfl,rfl⟩
      · exact absurd (same.trans named) (absent id' e' old')
      · rfl
  · intro id e
    rw [listing]
    simp only [Option.some.injEq,Prod.mk.injEq]
    constructor
    · rintro (old | ⟨rfl,rfl⟩)
      · exact Or.inl ⟨old,absent id e old⟩
      · exact Or.inr ⟨rfl,rfl⟩
    · rintro (⟨old,_⟩ | ⟨rfl,rfl⟩)
      · exact Or.inl old
      · exact Or.inr ⟨rfl,rfl⟩

end Filing

/-! One move. -/

/-- The arguments of one move. -/
structure Move where
  connId : UInt64
  idx : UInt64
  vx : UInt64
  vy : UInt64
  vz : UInt64
  rttTicks : UInt64
  pos : Pos3

def Move.record (m : Move) : EntityRecord :=
  {connId := m.connId, idx := m.idx, pos := m.pos, vx := m.vx, vy := m.vy, vz := m.vz, rttTicks := m.rttTicks}

def follow (w : ZoneWorld) (m : Move) : ZoneWorld :=
  w.moveEntityToIndexHysteresisV m.connId m.idx m.vx m.vy m.vz m.rttTicks m.pos

/-- The record a move leaves behind when it holds the connection back from the zone `target`. -/
def Move.held (m : Move) (target : Id) (streak : UInt64) : EntityRecord :=
  {m.record with pendingZone := some target, migrationStreak := streak}

/-- The streak of a record after one more move towards `target`. -/
def streakTowards (target : Id) (old : EntityRecord) : UInt64 :=
  if old.pendingZone = some target then old.migrationStreak + 1 else 1

theorem currentZone_cases (w : ZoneWorld) (connId : UInt64) :
    w.currentZone connId = none ∧ (∀ entry ∈ w.liveZones, entry.2.holds connId = false) ∨
    ∃ entry ∈ w.liveZones, entry.2.holds connId = true ∧ w.currentZone connId = some entry.1 := by
  unfold currentZone
  rw [← List.reverse_reverse w.liveZones,List.foldl_reverse]
  generalize w.liveZones.reverse = entries
  induction entries with
  | nil => exact Or.inl ⟨rfl,by simp⟩
  | cons entry rest ih =>
    rw [List.foldr_cons]
    by_cases held : entry.2.holds connId = true
    · exact Or.inr ⟨entry,by simp,held,by rw [if_pos held]⟩
    rw [if_neg held]
    rcases ih with ⟨none,absent⟩ | ⟨other,member,holds,found⟩
    · refine Or.inl ⟨none,?_⟩
      intro other member
      rw [List.mem_reverse,List.mem_cons] at member
      rcases member with rfl | later
      · rwa [Bool.not_eq_true] at held
      · exact absent other (List.mem_reverse.mpr later)
    · refine Or.inr ⟨other,?_,holds,found⟩
      rw [List.mem_reverse] at member ⊢
      exact List.mem_cons_of_mem _ member

section Step
variable {w : ZoneWorld} {m : Move}

theorem currentZone_listed (housed : Housed w.zones) {id : Id} {e : EntityRecord} (listed : Listed w.zones id e) :
    w.currentZone e.connId = some id := by
  obtain ⟨zone,found,member⟩ := listed
  have live := (mem_liveEntries housed.wf id zone).mpr found
  rcases w.currentZone_cases e.connId with ⟨_,absent⟩ | ⟨entry,other,held,current⟩
  · have held := absent (id,zone) live
    rw [holds_of_mem member] at held
    cases held
  · have found' := (mem_liveEntries housed.wf entry.1 entry.2).mp other
    rw [current,housed.one entry.1 entry.2 id zone e.connId found' found held (holds_of_mem member)]

theorem currentZone_absent (housed : Housed w.zones) {connId : UInt64}
    (absent : ∀ id e, Listed w.zones id e → e.connId ≠ connId) : w.currentZone connId = none := by
  rcases w.currentZone_cases connId with ⟨none,_⟩ | ⟨entry,live,held,_⟩
  · exact none
  · obtain ⟨e,member,same⟩ := (Zone.holds_iff _ _).mp held
    exact absurd same (absent entry.1 e ⟨entry.2,(mem_liveEntries housed.wf entry.1 entry.2).mp live,member⟩)

/-- The record of a listed connection is the one its zone gives. -/
theorem record_found (housed : Housed w.zones) {id : Id} {zone : Zone} {e : EntityRecord}
    (found : w.zones.find id = some zone) (member : e ∈ zone.entities) :
    zone.entities.find? (fun entity => entity.connId == e.connId) = some e := by
  cases first : zone.entities.find? (fun entity => entity.connId == e.connId) with
  | none =>
    have := List.find?_eq_none.mp first e member
    simp at this
  | some e' =>
    have same : e'.connId = e.connId := by simpa using List.find?_some first
    rw [(housed.listed_unique ⟨zone,found,List.mem_of_find?_eq_some first⟩ ⟨zone,found,member⟩ same).2]

/-- Putting another record of the connection in place of its old one. -/
theorem Refiled.replace (housed : Housed w.zones) {id : Id} {zone : Zone} {e entity : EntityRecord}
    (found : w.zones.find id = some zone) (member : e ∈ zone.entities) (named : entity.connId = e.connId) :
    Refiled w.zones (w.zones.update id ((zone.unsub e.connId).sub entity)) e.connId (some (id,entity)) := by
  have taken := Refiled.unsub housed found (fun other e' listed (same : e'.connId = e.connId) =>
    (housed.listed_unique listed ⟨zone,found,member⟩ same).1)
  have here : (w.zones.update id (zone.unsub e.connId)).find id = some (zone.unsub e.connId) := by
    rw [update_find,if_pos rfl,found]
    rfl
  have absent (other : Id) (e' : EntityRecord) (listed : Listed (w.zones.update id (zone.unsub e.connId)) other e') :
      e'.connId ≠ e.connId := by
    rcases (taken.listed other e').mp listed with ⟨_,apart⟩ | impossible
    · exact apart
    · cases impossible
  have shorter : (zone.unsub e.connId).entities.length < zone.entities.length :=
    List.length_filter_lt_length_iff_exists.mpr ⟨e,member,by simp⟩
  have filed := Refiled.sub taken.housed here named absent (Nat.lt_of_lt_of_le shorter (housed.room id zone found))
  rw [update_update found] at filed
  exact taken.trans filed

/-- The connection leaves one zone for another that has room for it. -/
theorem Refiled.transfer (housed : Housed w.zones) {id target : Id} {zone zone' : Zone} {e entity : EntityRecord}
    (found : w.zones.find id = some zone) (member : e ∈ zone.entities) (named : entity.connId = e.connId)
    (away : target ≠ id) (found' : w.zones.find target = some zone') (room : zone'.entities.length < authorityCapacity) :
    Refiled w.zones ((w.zones.update id (zone.unsub e.connId)).update target (zone'.sub entity)) e.connId
      (some (target,entity)) := by
  have taken := Refiled.unsub housed found (fun other e' listed (same : e'.connId = e.connId) =>
    (housed.listed_unique listed ⟨zone,found,member⟩ same).1)
  have there : (w.zones.update id (zone.unsub e.connId)).find target = some zone' := by rw [update_find,if_neg away,found']
  have absent (other : Id) (e' : EntityRecord) (listed : Listed (w.zones.update id (zone.unsub e.connId)) other e') :
      e'.connId ≠ e.connId := by
    rcases (taken.listed other e').mp listed with ⟨_,apart⟩ | impossible
    · exact apart
    · cases impossible
  exact taken.trans (Refiled.sub taken.housed there named absent room)

/-- A zone keeps its indices when only its records change. -/
theorem authorityForIndex_of_shape {w w' : ZoneWorld}
    (shape : w'.zones.liveEntries.map (fun entry => (entry.1,entry.2.range)) = w.zones.liveEntries.map (fun entry => (entry.1,entry.2.range)))
    (idx : UInt64) : w'.authorityForIndex idx = w.authorityForIndex idx := by
  have listing (w : ZoneWorld) : w.authorityForIndex idx =
      ((w.zones.liveEntries.map (fun entry => (entry.1,entry.2.range))).findIdx? (fun entry => entry.2.contains idx)).bind
        (fun i => (w.zones.liveEntries.map (fun entry => (entry.1,entry.2.range)))[i]?.map Prod.fst) := by
    simp only [authorityForIndex,Core.authorityForIndex,liveZones,List.findIdx?_map,List.getElem?_map,Option.map_map]
    rw [show ((fun entry : Id × ZoneRange => entry.2.contains idx) ∘ fun entry : Id × Zone => (entry.1,entry.2.range)) =
      (fun zone => zone.range.contains idx) ∘ Prod.snd from rfl]
    split <;> rename_i found <;> rw [found] <;> rfl
  rw [listing,listing,shape]

/-- The zone has room for one more record. -/
def roomIn (w : ZoneWorld) (id : Id) : Bool :=
  match w.zones.find id with
  | none => false
  | some zone => decide (zone.entities.length < authorityCapacity)

variable (housed : Housed w.zones)
include housed

theorem follow_unowned (unowned : w.authorityForIndex m.idx = none) :
    Refiled w.zones (w.follow m).zones m.connId none := by
  simp only [follow,moveEntityToIndexHysteresisV,unowned]
  by_cases absent : ∀ id e, Listed w.zones id e → e.connId ≠ m.connId
  · rw [currentZone_absent housed absent]
    exact Refiled.refl housed absent
  · push Not at absent
    obtain ⟨id,e,⟨zone,found,member⟩,same⟩ := absent
    rw [← same,currentZone_listed housed ⟨zone,found,member⟩]
    simp only [found]
    exact Refiled.unsub housed found (fun other e' listed named => (housed.listed_unique listed ⟨zone,found,member⟩ named).1)

theorem follow_first {target : Id} (owner : w.authorityForIndex m.idx = some target)
    (absent : ∀ id e, Listed w.zones id e → e.connId ≠ m.connId) :
    Refiled w.zones (w.follow m).zones m.connId (if w.roomIn target then some (target,m.record) else none) := by
  obtain ⟨zone,found,_⟩ := authorityForIndex_some housed.wf m.idx target owner
  simp only [follow,moveEntityToIndexHysteresisV,owner,currentZone_absent housed absent,found,roomIn]
  by_cases room : zone.entities.length < authorityCapacity
  · rw [decide_eq_true room,if_pos rfl]
    exact Refiled.sub housed found rfl absent room
  · have full : zone.sub m.record = zone := by
      unfold Zone.sub
      split
      · rfl
      · rw [if_pos (Nat.not_lt.mp room)]
    rw [decide_eq_false room,if_neg Bool.false_ne_true]
    simp only [Move.record] at full
    rw [full,update_same found]
    exact Refiled.refl housed absent

theorem follow_home {id : Id} {e : EntityRecord} (listed : Listed w.zones id e) (named : e.connId = m.connId)
    (owner : w.authorityForIndex m.idx = some id) : Refiled w.zones (w.follow m).zones m.connId (some (id,m.record)) := by
  obtain ⟨zone,found,member⟩ := listed
  have moved : (w.follow m).zones = w.zones.update id ((zone.unsub m.connId).sub m.record) := by
    have current := currentZone_listed housed ⟨zone,found,member⟩
    rw [named] at current
    simp only [follow,moveEntityToIndexHysteresisV,owner,current,found,if_true]
    rfl
  rw [moved,← named]
  exact Refiled.replace housed found member named.symm

/-- A crossing passes when its streak is long enough for the round trip that came with the move and the zone
has room; otherwise the old zone keeps the record, and the streak is written in it. -/
theorem follow_away {id target : Id} {e : EntityRecord} (listed : Listed w.zones id e) (named : e.connId = m.connId)
    (owner : w.authorityForIndex m.idx = some target) (away : target ≠ id) :
    Refiled w.zones (w.follow m).zones m.connId
      (if hysteresisTicksFor m.record.lookaheadTicks ≤ streakTowards target e ∧ w.roomIn target then some (target,m.record)
        else some (id,m.held target (streakTowards target e))) := by
  obtain ⟨zone,found,member⟩ := listed
  obtain ⟨zone',found',_⟩ := authorityForIndex_some housed.wf m.idx target owner
  have current := currentZone_listed housed ⟨zone,found,member⟩
  have record := record_found housed found member
  rw [named] at current record
  have moved : (w.follow m).zones =
      if hysteresisTicksFor m.record.lookaheadTicks ≤ streakTowards target e then
        if zone'.entities.length ≥ authorityCapacity then
          w.zones.update id ((zone.unsub m.connId).sub (m.held target (streakTowards target e)))
        else (w.zones.update id (zone.unsub m.connId)).update target (zone'.sub m.record)
      else w.zones.update id ((zone.unsub m.connId).sub (m.held target (streakTowards target e))) := by
    have streak : (if e.pendingZone = some target then e.migrationStreak + 1 else 1) = streakTowards target e := rfl
    simp only [follow,moveEntityToIndexHysteresisV,owner,current,found,record,if_neg (Ne.symm away),Option.getD_some,found',streak]
    rw [apply_ite ZoneWorld.zones,apply_ite ZoneWorld.zones]
    rfl
  have hold := Refiled.replace housed found member
    (show (m.held target (streakTowards target e)).connId = e.connId from named.symm)
  have pass := Refiled.transfer housed found member (show m.record.connId = e.connId from named.symm) away found'
  rw [named] at hold pass
  rw [moved]
  by_cases long : hysteresisTicksFor m.record.lookaheadTicks ≤ streakTowards target e
  · by_cases full : zone'.entities.length ≥ authorityCapacity
    · simp only [long,full,roomIn,found',Nat.not_lt.mpr full,if_true]
      simpa using hold
    · simp only [long,full,roomIn,found',Nat.not_le.mp full,if_true,if_false]
      simpa using pass (Nat.not_le.mp full)
  · simp only [long,if_false,false_and]
    exact hold

end Step

/-! Whole runs. -/

/-- The zone that lists the connection. -/
def Holds (zones : SlotMap Zone) (id : Id) (connId : UInt64) : Prop := ∃ e, Listed zones id e ∧ e.connId = connId

/-- The owners of the indices that one connection moved to, in order. -/
def aims (w : ZoneWorld) (connId : UInt64) (moves : List Move) : List (Option Id) :=
  (moves.filter (fun m => m.connId = connId)).map (fun m => w.authorityForIndex m.idx)

theorem aims_concat (w : ZoneWorld) (connId : UInt64) (moves : List Move) (m : Move) :
    w.aims connId (moves ++ [m]) =
      if m.connId = connId then w.aims connId moves ++ [w.authorityForIndex m.idx] else w.aims connId moves := by
  by_cases same : m.connId = connId <;> simp [aims,same]

/-- A record and its zone hold a debounced register, in words of 64 bits. -/
structure Tracks (id : Id) (e : EntityRecord) (r : Register (Option Id)) : Prop where
  value : r.value = some id
  pending : r.pending = e.pendingZone.map some
  streak : e.migrationStreak = UInt64.ofNat r.streak

theorem Tracks.streakTowards {id : Id} {e : EntityRecord} {r : Register (Option Id)} (tracks : Tracks id e r) (target : Id) :
    ZoneWorld.streakTowards target e = UInt64.ofNat (r.count (some target)) := by
  rw [ZoneWorld.streakTowards,Register.count,tracks.pending,tracks.streak]
  cases e.pendingZone with
  | none => simp
  | some pending => by_cases same : pending = target <;> simp [same,UInt64.ofNat_add]

/-- The world after some moves: each record of the connection counts its moves. -/
structure Counted (start : ZoneWorld) (connId : UInt64) (moves : List Move) (w : ZoneWorld) : Prop where
  housed : Housed w.zones
  shape : w.zones.liveEntries.map (fun entry => (entry.1,entry.2.range)) =
    start.zones.liveEntries.map (fun entry => (entry.1,entry.2.range))
  counts : ∀ id e, Listed w.zones id e → e.connId = connId → ∃ r, Tracks id e r ∧ r.Counts (start.aims connId moves)

theorem tracks_fresh (id : Id) (m : Move) : Tracks id m.record ⟨some id,none,0⟩ := ⟨rfl,rfl,rfl⟩

theorem Refiled.of_listed {zones after : SlotMap Zone} {connId : UInt64} {place : Option (Id × EntityRecord)}
    (refiled : Refiled zones after connId place) {id : Id} {e : EntityRecord} (listed : Listed after id e)
    (named : e.connId = connId) : place = some (id,e) := by
  rcases (refiled.listed id e).mp listed with ⟨_,apart⟩ | here
  · exact absurd named apart
  · exact here

/-- Every move refiles the record of its connection, and only that. -/
theorem follow_refiled {w : ZoneWorld} (housed : Housed w.zones) (m : Move) :
    ∃ place, Refiled w.zones (w.follow m).zones m.connId place ∧ ∀ id e, place = some (id,e) → e.connId = m.connId := by
  cases owner : w.authorityForIndex m.idx with
  | none => exact ⟨none,follow_unowned housed owner,by simp⟩
  | some target =>
    by_cases absent : ∀ id e, Listed w.zones id e → e.connId ≠ m.connId
    · refine ⟨_,follow_first housed owner absent,?_⟩
      intro id e placed
      split at placed
      · rw [← (Prod.mk.inj (Option.some.inj placed)).2]
        rfl
      · cases placed
    push Not at absent
    obtain ⟨id,e,listed,named⟩ := absent
    by_cases away : target = id
    · subst away
      refine ⟨_,follow_home housed listed named owner,?_⟩
      intro id e placed
      rw [← (Prod.mk.inj (Option.some.inj placed)).2]
      rfl
    · refine ⟨_,follow_away housed listed named owner away,?_⟩
      intro id e placed
      split at placed <;> rw [← (Prod.mk.inj (Option.some.inj placed)).2] <;> rfl

theorem Counted.follow {start w : ZoneWorld} {connId : UInt64} {moves : List Move} (counted : Counted start connId moves w)
    (m : Move) : Counted start connId (moves ++ [m]) (w.follow m) := by
  obtain ⟨place,refiled,placedName⟩ := follow_refiled counted.housed m
  refine ⟨refiled.housed,refiled.shape.trans counted.shape,?_⟩
  intro id e listed named
  rw [aims_concat]
  by_cases same : m.connId = connId
  case neg =>
    rw [if_neg same]
    rcases (refiled.listed id e).mp listed with ⟨before,_⟩ | placed
    · exact counted.counts id e before named
    · exact absurd ((placedName id e placed).symm.trans named) same
  subst same
  rw [if_pos rfl]
  have owner := authorityForIndex_of_shape counted.shape m.idx
  cases aim : start.authorityForIndex m.idx with
  | none =>
    rw [aim] at owner
    cases (follow_unowned counted.housed owner).of_listed listed named
  | some target =>
    rw [aim] at owner
    by_cases absent : ∀ id e, Listed w.zones id e → e.connId ≠ m.connId
    · have placed := (follow_first counted.housed owner absent).of_listed listed named
      split at placed
      · obtain ⟨rfl,rfl⟩ := Prod.mk.inj (Option.some.inj placed)
        exact ⟨_,tracks_fresh target m,Register.counts_fresh _ _⟩
      · cases placed
    push Not at absent
    obtain ⟨old,e',before,named'⟩ := absent
    by_cases away : target = old
    · subst away
      obtain ⟨rfl,rfl⟩ := Prod.mk.inj (Option.some.inj ((follow_home counted.housed before named' owner).of_listed listed named))
      exact ⟨_,tracks_fresh target m,Register.counts_fresh _ _⟩
    obtain ⟨r,tracks,counts⟩ := counted.counts old e' before named'
    have placed := (follow_away counted.housed before named' owner away).of_listed listed named
    split at placed
    · obtain ⟨rfl,rfl⟩ := Prod.mk.inj (Option.some.inj placed)
      exact ⟨_,tracks_fresh target m,Register.counts_fresh _ _⟩
    · obtain ⟨rfl,rfl⟩ := Prod.mk.inj (Option.some.inj placed)
      -- Held: the record now says what a reading that was not enough leaves in the register.
      have aside : some target ≠ r.value := by
        rw [tracks.value]
        simpa using away
      have held := counts.read (some target) (fun _ => False)
      rw [Register.read,if_neg aside,if_neg not_false,tracks.value] at held
      exact ⟨⟨some old,some (some target),r.count (some target)⟩,⟨rfl,rfl,tracks.streakTowards target⟩,held⟩

theorem counted_run {w : ZoneWorld} (housed : Housed w.zones) (calm : ∀ id e, Listed w.zones id e → e.pendingZone = none)
    (connId : UInt64) (moves : List Move) : Counted w connId moves (run follow w moves) := by
  induction moves using List.reverseRecOn with
  | nil =>
    refine ⟨housed,rfl,?_⟩
    intro id e listed _
    refine ⟨⟨some id,none,e.migrationStreak.toNat⟩,⟨rfl,?_,UInt64.ofNat_toNat.symm⟩,?_⟩
    · rw [calm id e listed]
      rfl
    · intro x _
      rfl
  | append_singleton moves m ih =>
    rw [run_append]
    exact ih.follow m

/-- Where the connection is after one more move, an owned one to another zone. -/
theorem holds_after {w : ZoneWorld} (housed : Housed w.zones)
    (calm : ∀ id e, Listed w.zones id e → e.pendingZone = none) (moves : List Move) (m : Move) {a b : Id}
    (held : Holds (run follow w moves).zones a m.connId) (owner : w.authorityForIndex m.idx = some b) (away : b ≠ a) (id : Id) :
    Holds (run follow w (moves ++ [m])).zones id m.connId ↔
      id = if hysteresisTicksFor m.record.lookaheadTicks ≤ UInt64.ofNat (trailing (some b) (w.aims m.connId moves) + 1) ∧
        (run follow w moves).roomIn b = true then b else a := by
  have counted := counted_run housed calm m.connId moves
  obtain ⟨e,listed,named⟩ := held
  obtain ⟨r,tracks,counts⟩ := counted.counts a e listed named
  have refiled := follow_away counted.housed listed named ((authorityForIndex_of_shape counted.shape m.idx).trans owner) away
  have aside : some b ≠ r.value := by
    rw [tracks.value]
    simpa using away
  rw [tracks.streakTowards,counts (some b) aside] at refiled
  rw [show run follow w (moves ++ [m]) = (run follow w moves).follow m from run_append follow w moves [m]]
  split at refiled
  all_goals
    rename_i decision
    simp only [decision]
    constructor
    · rintro ⟨e',listed',named'⟩
      exact (Prod.mk.inj (Option.some.inj (refiled.of_listed listed' named'))).1.symm
    · rintro rfl
      exact ⟨_,(refiled.listed _ _).mpr (Or.inr rfl),rfl⟩

/-- A crossing passes exactly when the latest moves of the connection all aimed at the zone, as many as its round
trip asks for, and the zone has room. Otherwise the connection stays where it was. -/
theorem crossing_passes_iff {w : ZoneWorld} (housed : Housed w.zones)
    (calm : ∀ id e, Listed w.zones id e → e.pendingZone = none) (moves : List Move) (m : Move) {a b : Id}
    (held : Holds (run follow w moves).zones a m.connId) (owner : w.authorityForIndex m.idx = some b) (away : b ≠ a) :
    let passes := hysteresisTicksFor m.record.lookaheadTicks ≤ UInt64.ofNat (trailing (some b) (w.aims m.connId moves) + 1) ∧
      (run follow w moves).roomIn b = true
    let after := run follow w (moves ++ [m])
    (Holds after.zones b m.connId ↔ passes) ∧ (Holds after.zones a m.connId ↔ ¬ passes) := by
  intro passes after
  have holds (id : Id) : Holds after.zones id m.connId ↔ id = if passes then b else a :=
    holds_after housed calm moves m held owner away id
  rw [holds,holds]
  by_cases long : passes
  · rw [if_pos long]
    exact ⟨⟨fun _ => long,fun _ => rfl⟩,⟨fun same => absurd same.symm away,fun short => absurd long short⟩⟩
  · rw [if_neg long]
    exact ⟨⟨fun same => absurd same away,fun pass => absurd pass long⟩,⟨fun _ => long,fun _ => rfl⟩⟩

/-- A connection whose moves are all to owned indices keeps its place in the world. -/
theorem follow_holds {w : ZoneWorld} (housed : Housed w.zones) (m : Move) {connId : UInt64} {id : Id}
    (held : Holds w.zones id connId) (owned : m.connId = connId → (w.authorityForIndex m.idx).isSome) :
    ∃ id', Holds (w.follow m).zones id' connId := by
  obtain ⟨e,listed,rfl⟩ := held
  by_cases same : m.connId = e.connId
  case neg =>
    obtain ⟨_,refiled,_⟩ := follow_refiled housed m
    exact ⟨id,e,(refiled.listed id e).mpr (Or.inl ⟨listed,Ne.symm same⟩),rfl⟩
  rw [← same]
  obtain ⟨target,owner⟩ := Option.isSome_iff_exists.mp (owned same)
  by_cases away : target = id
  · subst away
    have refiled := follow_home housed listed same.symm owner
    exact ⟨target,m.record,(refiled.listed _ _).mpr (Or.inr rfl),rfl⟩
  · have refiled := follow_away housed listed same.symm owner away
    split at refiled
    all_goals exact ⟨_,_,(refiled.listed _ _).mpr (Or.inr rfl),rfl⟩

/-- No run of moves changes the zones, lists a connection twice or fills a zone beyond its capacity, and one whose
moves are all to owned indices is never lost. -/
theorem moves_keep_listed {w : ZoneWorld} (housed : Housed w.zones) (moves : List Move) :
    let after := run follow w moves
    Housed after.zones ∧ (∀ idx, after.authorityForIndex idx = w.authorityForIndex idx) ∧
      ∀ connId id, Holds w.zones id connId → (∀ m ∈ moves, m.connId = connId → (w.authorityForIndex m.idx).isSome) →
        ∃! id', Holds after.zones id' connId := by
  suffices kept : Housed (run follow w moves).zones ∧ (∀ idx, (run follow w moves).authorityForIndex idx = w.authorityForIndex idx) ∧
      ∀ connId id, Holds w.zones id connId → (∀ m ∈ moves, m.connId = connId → (w.authorityForIndex m.idx).isSome) →
        ∃ id', Holds (run follow w moves).zones id' connId by
    obtain ⟨housedAfter,owners,listed⟩ := kept
    refine ⟨housedAfter,owners,?_⟩
    intro connId id held owned
    obtain ⟨id',held'⟩ := listed connId id held owned
    refine ⟨id',held',?_⟩
    rintro other ⟨e,there,named⟩
    obtain ⟨e',here,named'⟩ := held'
    exact (housedAfter.listed_unique there here (named.trans named'.symm)).1
  induction moves generalizing w with
  | nil => exact ⟨housed,fun _ => rfl,fun connId id held _ => ⟨id,held⟩⟩
  | cons m rest ih =>
    obtain ⟨_,refiled,_⟩ := follow_refiled housed m
    obtain ⟨housedAfter,owners,listed⟩ := ih refiled.housed
    have owner := authorityForIndex_of_shape refiled.shape
    refine ⟨housedAfter,fun idx => (owners idx).trans (owner idx),?_⟩
    intro connId id held owned
    obtain ⟨id',held'⟩ := follow_holds housed m held (owned m List.mem_cons_self)
    apply listed connId id' held'
    intro other member named
    rw [owner]
    exact owned other (List.mem_cons_of_mem _ member) named

/-- Two zones of eight indices, and a connection in the first. -/
def twoZones : ZoneWorld where
  zones := {slots := [(1,some ⟨⟨0,8⟩,[{connId := 7, idx := 2}]⟩),(1,some ⟨⟨8,16⟩,[]⟩)], freeList := []}
  bits := 2

/-- The connection moves, with a round trip of four ticks. -/
def twoZonesMove (idx : UInt64) : Move := ⟨7,idx,0,0,0,4,Pos3.origin⟩

/-- The second of two moves into the other zone passes; a move at home between them starts the count anew. -/
example : (run follow twoZones [twoZonesMove 9,twoZonesMove 10]).currentZone 7 = some ⟨1,1⟩ ∧
    (run follow twoZones [twoZonesMove 9,twoZonesMove 3,twoZonesMove 9]).currentZone 7 = some ⟨0,1⟩ := by decide

private theorem twoZones_wf : Wf twoZones.zones := by
  refine ⟨by decide,List.nodup_nil,?_⟩
  intro i
  simp only [twoZones,List.not_mem_nil,false_iff]
  rintro ⟨g,slot⟩
  have few := inside_of_get slot
  have index : i.toNat = 0 ∨ i.toNat = 1 := by
    rw [List.length_cons,List.length_singleton] at few
    omega
  rcases index with here | here <;> simp [here] at slot

private theorem twoZones_find {id : Id} {zone : Zone} (live : twoZones.zones.find id = some zone) :
    (id,zone) = (⟨0,1⟩,⟨⟨0,8⟩,[{connId := 7, idx := 2}]⟩) ∨ (id,zone) = (⟨1,1⟩,⟨⟨8,16⟩,[]⟩) := by
  have listed := (mem_liveEntries twoZones_wf id zone).mpr live
  rw [show twoZones.zones.liveEntries = [(⟨0,1⟩,⟨⟨0,8⟩,[{connId := 7, idx := 2}]⟩),(⟨1,1⟩,⟨⟨8,16⟩,[]⟩)] by decide] at listed
  simpa using listed

theorem twoZones_housed : Housed twoZones.zones where
  wf := twoZones_wf
  once id zone live := by
    rcases twoZones_find live with same | same <;> obtain ⟨rfl,rfl⟩ := Prod.mk.inj same <;> decide
  room id zone live := by
    rcases twoZones_find live with same | same <;> obtain ⟨rfl,rfl⟩ := Prod.mk.inj same <;> decide
  one id zone id' zone' connId live live' held held' := by
    rcases twoZones_find live with same | same <;> rcases twoZones_find live' with same' | same' <;>
      obtain ⟨rfl,rfl⟩ := Prod.mk.inj same <;> obtain ⟨rfl,rfl⟩ := Prod.mk.inj same'
    · rfl
    · cases held'
    · cases held
    · rfl

theorem twoZones_calm (id : Id) (e : EntityRecord) (listed : Listed twoZones.zones id e) : e.pendingZone = none := by
  obtain ⟨zone,live,member⟩ := listed
  rcases twoZones_find live with same | same <;> obtain ⟨rfl,rfl⟩ := Prod.mk.inj same
  · rw [List.mem_singleton.mp member]
  · cases member

theorem crossing_passes_iff_two :
    let passes := hysteresisTicksFor (twoZonesMove 10).record.lookaheadTicks ≤
        UInt64.ofNat (trailing (some ⟨1,1⟩) (twoZones.aims 7 [twoZonesMove 9]) + 1) ∧
      (run follow twoZones [twoZonesMove 9]).roomIn ⟨1,1⟩ = true
    let after := run follow twoZones ([twoZonesMove 9] ++ [twoZonesMove 10])
    (Holds after.zones ⟨1,1⟩ 7 ↔ passes) ∧ (Holds after.zones ⟨0,1⟩ 7 ↔ ¬ passes) :=
  crossing_passes_iff twoZones_housed twoZones_calm [twoZonesMove 9] (twoZonesMove 10)
    ⟨(twoZonesMove 9).held ⟨1,1⟩ 1,⟨⟨⟨0,8⟩,[(twoZonesMove 9).held ⟨1,1⟩ 1]⟩,by decide,by decide⟩,rfl⟩ (by decide) (by decide)

theorem moves_keep_listed_two :
    let after := run follow twoZones [twoZonesMove 9,twoZonesMove 10]
    Housed after.zones ∧ (∀ idx, after.authorityForIndex idx = twoZones.authorityForIndex idx) ∧
      ∀ connId id, Holds twoZones.zones id connId →
        (∀ m ∈ [twoZonesMove 9,twoZonesMove 10], m.connId = connId → (twoZones.authorityForIndex m.idx).isSome) →
        ∃! id', Holds after.zones id' connId :=
  moves_keep_listed twoZones_housed [twoZonesMove 9,twoZonesMove 10]

end ZoneWorld

end WarpLoop.Core
