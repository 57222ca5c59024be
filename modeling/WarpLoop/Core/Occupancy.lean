import WarpLoop.Core.Handles
import WarpLoop.Core.ZoneTiling
import Mathlib.Tactic.Ring

/-! Where the records of the connections are. Whatever is called, each connection has at most one record,
in one zone, whose range owns the record's index, and no zone lists more than it has room for. -/
namespace WarpLoop.Core
open SlotMap Lib.Runs

/-! The children of any range, octree cell of the server's curve or not. -/

private theorem halvings_one {fuel : Nat} {rem : UInt64} {levels n : Nat} (all : halvings fuel rem levels = (1,n)) :
    levels ≤ n ∧ rem.toNat = 2^(n - levels) := by
  induction fuel generalizing rem levels with
  | zero =>
    obtain ⟨rfl,rfl⟩ := Prod.mk.inj all
    simp
  | succ fuel ih =>
    rw [halvings] at all
    split at all
    · rename_i even
      obtain ⟨le,half⟩ := ih all
      have even : rem.toNat % 2 = 0 := by
        simp only [Bool.and_eq_true,decide_eq_true_eq,beq_iff_eq] at even
        simpa using congrArg UInt64.toNat even.2
      have halved : (rem / 2).toNat = rem.toNat / 2 := by simp
      rw [halved] at half
      refine ⟨by omega,?_⟩
      rw [show n - levels = n - (levels + 1) + 1 by omega,Nat.pow_succ,← half]
      omega
    · obtain ⟨rfl,rfl⟩ := Prod.mk.inj all
      simp

/-- A range with a depth is as long as a power of eight and begins at a multiple of its length. -/
private theorem zoneRangeDepth_some {bits d : Nat} {r : ZoneRange} (depth : zoneRangeDepth bits r = some d) :
    ∃ e, e ≤ bits ∧ d = bits - e ∧ (r.stop - r.start).toNat = 8^e ∧ r.start.toNat % 8^e = 0 := by
  unfold zoneRangeDepth at depth
  dsimp only at depth
  split at depth
  · cases depth
  split at depth
  · cases depth
  rename_i power
  split at depth
  · cases depth
  rename_i shallow
  split at depth
  · cases depth
  rename_i aligned
  generalize twos : halvings 64 (r.stop - r.start) 0 = result at power shallow depth
  obtain ⟨rem,levels⟩ := result
  rw [not_or,not_not,not_not] at power
  obtain ⟨rfl,thirds⟩ := power
  obtain ⟨_,length⟩ := halvings_one twos
  have length : (r.stop - r.start).toNat = 8^(levels / 3) := by
    rw [length,show levels - 0 = 3 * (levels / 3) by omega,Nat.pow_mul]
  refine ⟨levels / 3,Nat.not_lt.mp shallow,(Option.some.inj depth).symm,length,?_⟩
  have rest := congrArg UInt64.toNat (not_not.mp aligned)
  rwa [UInt64.toNat_mod,length,UInt64.toNat_zero] at rest

/-- Each child takes its own eighth of the range; only the last may end where the words do. -/
theorem octreeChildren_eighths {bits : Nat} {r : ZoneRange} {children : List ZoneRange}
    (found : octreeChildren bits r = some children) : ∃ eighth, 0 < eighth ∧ children.length = 8 ∧
      (r.stop - r.start).toNat = 8 * eighth ∧ r.start.toNat + 8 * eighth ≤ 2^64 ∧
      ∀ i c, children[i]? = some c → i < 8 ∧ c.start.toNat = r.start.toNat + i * eighth ∧
        c.stop.toNat = (r.start.toNat + (i + 1) * eighth) % 2^64 := by
  have count := octreeChildren_length found
  unfold octreeChildren at found
  split at found
  · cases found
  rename_i d depth
  obtain ⟨e,deep,rfl,length,aligned⟩ := zoneRangeDepth_some depth
  split at found
  · cases found
  rename_i shallow
  rw [octreeMaxDepth] at shallow
  obtain ⟨e,rfl⟩ : ∃ e', e = e' + 1 := ⟨e - 1,by omega⟩
  obtain rfl := Option.some.inj found
  have positive : 0 < 8^e := Nat.pow_pos (by omega)
  have fits : 8^(e + 1) < 2^64 := length ▸ (r.stop - r.start).toNat_lt
  have height : e + 1 ≤ 21 := by
    by_contra high
    have : 8^22 ≤ 8^(e + 1) := Nat.pow_le_pow_right (by omega) (by omega)
    omega
  have ends : r.start.toNat + 8^(e + 1) ≤ 2^64 := by
    have whole : 8^(e + 1) * 8^(21 - (e + 1)) = 8^21 := by rw [← Nat.pow_add]; congr 1; omega
    have multiple := Nat.div_add_mod r.start.toNat (8^(e + 1))
    have below : r.start.toNat / 8^(e + 1) < 2 * 8^(21 - (e + 1)) := by
      rw [Nat.div_lt_iff_lt_mul (Nat.pow_pos (by omega)),Nat.mul_assoc,Nat.mul_comm (8^(21 - (e + 1))),whole]
      exact r.start.toNat_lt
    calc r.start.toNat + 8^(e + 1) = 8^(e + 1) * (r.start.toNat / 8^(e + 1) + 1) := by rw [Nat.mul_add]; omega
      _ ≤ 8^(e + 1) * (2 * 8^(21 - (e + 1))) := Nat.mul_le_mul_left _ below
      _ = 2^64 := by rw [Nat.mul_left_comm,whole]; rfl
  have eight : (8^(e + 1) : Nat) = 8 * 8^e := by rw [Nat.pow_succ,Nat.mul_comm]
  have eighth : ((r.stop - r.start) / 8).toNat = 8^e := by
    rw [UInt64.toNat_div,length,eight]
    exact Nat.mul_div_cancel_left _ (by omega)
  refine ⟨8^e,positive,count,by rw [length,eight],by omega,?_⟩
  intro i c here
  obtain ⟨inside,rfl⟩ : i < 8 ∧ (⟨r.start + i.toUInt64 * ((r.stop - r.start) / 8),
      r.start + (i.toUInt64 + 1) * ((r.stop - r.start) / 8)⟩ : ZoneRange) = c := by
    obtain ⟨inside,equal⟩ := List.getElem?_eq_some_iff.mp here
    rw [List.length_map,List.length_range] at inside
    exact ⟨inside,by simpa using equal⟩
  have word : i.toUInt64.toNat = i := by
    rw [Nat.toUInt64,UInt64.toNat_ofNat']
    exact Nat.mod_eq_of_lt (by omega)
  have next : (i.toUInt64 + 1).toNat = i + 1 := by
    rw [UInt64.toNat_add,word]
    exact Nat.mod_eq_of_lt (by simp; omega)
  have part (j : Nat) (le : j ≤ 8) : j * 8^e ≤ 8 * 8^e := Nat.mul_le_mul_right _ le
  refine ⟨inside,?_,?_⟩
  · have low := part (i + 1) (by omega)
    rw [Nat.add_mul,Nat.one_mul] at low
    have small : i * 8^e < 2^64 := by omega
    rw [UInt64.toNat_add,UInt64.toNat_mul,word,eighth,Nat.mod_eq_of_lt small]
    exact Nat.mod_eq_of_lt (by omega)
  · rw [UInt64.toNat_add,UInt64.toNat_mul,next,eighth,Nat.add_mod_mod]

private theorem contains_toNat {r : ZoneRange} {idx : UInt64} :
    r.contains idx = true ↔ r.start.toNat ≤ idx.toNat ∧ idx.toNat < r.stop.toNat := by
  simp [ZoneRange.contains,UInt64.le_iff_toNat_le,UInt64.lt_iff_toNat_lt]

section Children
variable {bits : Nat} {r : ZoneRange} {children : List ZoneRange}

/-- No index lies in two children. -/
theorem octreeChildren_apart (found : octreeChildren bits r = some children) {i j : Nat} {c d : ZoneRange}
    {idx : UInt64} (here : children[i]? = some c) (there : children[j]? = some d) (inside : c.contains idx = true) (inside' : d.contains idx = true) : i = j := by
  obtain ⟨eighth,positive,_,_,ends,child⟩ := octreeChildren_eighths found
  obtain ⟨small,start,stop⟩ := child i c here
  obtain ⟨small',start',stop'⟩ := child j d there
  rw [contains_toNat,start,stop] at inside
  rw [contains_toNat,start',stop'] at inside'
  have below := Nat.lt_of_lt_of_le inside.2 (Nat.mod_le _ _)
  have below' := Nat.lt_of_lt_of_le inside'.2 (Nat.mod_le _ _)
  have first : i * eighth < (j + 1) * eighth := by omega
  have second : j * eighth < (i + 1) * eighth := by omega
  have := Nat.lt_of_mul_lt_mul_right first
  have := Nat.lt_of_mul_lt_mul_right second
  omega

theorem octreeChildren_nodup (found : octreeChildren bits r = some children) : children.Nodup := by
  obtain ⟨eighth,positive,_,_,_,child⟩ := octreeChildren_eighths found
  rw [List.nodup_iff_getElem?_ne_getElem?]
  intro i j below bound same
  have there := List.getElem?_eq_getElem bound
  obtain ⟨_,start,_⟩ := child i _ (same.trans there)
  obtain ⟨_,start',_⟩ := child j _ there
  have : i * eighth < j * eighth := Nat.mul_lt_mul_of_pos_right below positive
  omega

private theorem stop_toNat {n : Nat} (length : (r.stop - r.start).toNat = n) : r.stop.toNat = (r.start.toNat + n) % 2^64 := by
  have back : r.stop = r.start + (r.stop - r.start) := by rw [UInt64.add_comm,UInt64.sub_add_cancel]
  rw [back,UInt64.toNat_add,length]

/-- Every index of the range lies in a child. -/
theorem octreeChildren_covers (found : octreeChildren bits r = some children) {idx : UInt64} (inside : r.contains idx = true) :
    ∃ (i : Nat) (c : ZoneRange), children[i]? = some c ∧ c.contains idx = true := by
  obtain ⟨eighth,positive,count,length,ends,child⟩ := octreeChildren_eighths found
  rw [contains_toNat,stop_toNat length] at inside
  have whole : r.start.toNat + 8 * eighth < 2^64 := by
    rcases Nat.lt_or_eq_of_le ends with below | full
    · exact below
    · rw [full] at inside
      omega
  rw [Nat.mod_eq_of_lt whole] at inside
  have low := Nat.div_mul_le_self (idx.toNat - r.start.toNat) eighth
  have high := @Nat.lt_div_mul_add (idx.toNat - r.start.toNat) eighth positive
  have small : (idx.toNat - r.start.toNat) / eighth < 8 := by
    rw [Nat.div_lt_iff_lt_mul positive]
    omega
  generalize (idx.toNat - r.start.toNat) / eighth = i at low high small
  have listed : i < children.length := by omega
  have here : children[i]? = some children[i] := List.getElem?_eq_getElem listed
  obtain ⟨_,start,stop⟩ := child i _ here
  refine ⟨i,_,here,?_⟩
  have part : (i + 1) * eighth ≤ 8 * eighth := Nat.mul_le_mul_right _ small
  rw [contains_toNat,start,stop,Nat.mod_eq_of_lt (by omega),Nat.add_mul,Nat.one_mul]
  omega

/-- What lies in a child lies in the range, unless the range ends where the words do. -/
theorem octreeChildren_inside (found : octreeChildren bits r = some children) {i : Nat} {c last : ZoneRange}
    {idx : UInt64} (here : children[i]? = some c) (inside : c.contains idx = true) (end_ : children[7]? = some last) (proper : last.contains last.start = true) :
    r.contains idx = true := by
  obtain ⟨eighth,positive,_,length,ends,child⟩ := octreeChildren_eighths found
  obtain ⟨small,start,stop⟩ := child i c here
  obtain ⟨_,_,final⟩ := child 7 last end_
  rw [contains_toNat,final] at proper
  rw [contains_toNat,start,stop] at inside
  have whole : r.start.toNat + 8 * eighth < 2^64 := by
    rcases Nat.lt_or_eq_of_le ends with below | full
    · exact below
    · rw [show 7 + 1 = 8 by rfl,full] at proper
      omega
  have part : (i + 1) * eighth ≤ 8 * eighth := Nat.mul_le_mul_right _ small
  rw [Nat.mod_eq_of_lt (by omega)] at inside
  rw [contains_toNat,stop_toNat length,Nat.mod_eq_of_lt whole]
  omega

end Children

/-! One zone. -/

/-- The zone lists each connection once, only indices of its range, and no more than its capacity. -/
structure Zone.Tidy (zone : Zone) : Prop where
  once : (zone.entities.map EntityRecord.connId).Nodup
  inside : ∀ entity ∈ zone.entities, zone.range.contains entity.idx = true
  room : zone.entities.length ≤ authorityCapacity

namespace Zone

theorem tidy_empty (range : ZoneRange) : Tidy ⟨range,[]⟩ := ⟨List.nodup_nil,by simp,Nat.zero_le _⟩

theorem Tidy.sublist {zone : Zone} {entities : List EntityRecord} (tidy : zone.Tidy) (sub : entities.Sublist zone.entities) :
    Tidy ⟨zone.range,entities⟩ where
  once := tidy.once.sublist (sub.map _)
  inside entity member := tidy.inside entity (sub.subset member)
  room := Nat.le_trans sub.length_le tidy.room

theorem Tidy.unsub {zone : Zone} (tidy : zone.Tidy) (connId : UInt64) : (zone.unsub connId).Tidy :=
  tidy.sublist List.filter_sublist

theorem Tidy.sub {zone : Zone} (tidy : zone.Tidy) {entity : EntityRecord} (inside : zone.range.contains entity.idx = true) :
    (zone.sub entity).Tidy := by
  unfold Zone.sub
  split
  · exact tidy
  rename_i absent
  split
  · exact tidy
  rename_i below
  refine ⟨?_,?_,?_⟩
  · rw [List.map_append,List.nodup_append]
    refine ⟨tidy.once,by simp,?_⟩
    intro connId listed other new same
    obtain rfl : other = entity.connId := by simpa using new
    obtain ⟨old,member,rfl⟩ := List.mem_map.mp listed
    exact absent ((zone.holds_iff _).mpr ⟨old,member,same⟩)
  · intro other member
    rcases List.mem_append.mp member with old | new
    · exact tidy.inside other old
    · rwa [List.mem_singleton.mp new]
  · rw [List.length_append,List.length_singleton]
    omega

end Zone

theorem Zone.sub_of_absent {zone : Zone} {entity : EntityRecord} (absent : zone.holds entity.connId = false)
    (room : zone.entities.length < authorityCapacity) : zone.sub entity = {zone with entities := zone.entities ++ [entity]} := by
  simp [Zone.sub,absent,Nat.not_le.mpr room]

theorem Zone.foldl_sub_eq {zone : Zone} {entities : List EntityRecord}
    (once : ((zone.entities ++ entities).map EntityRecord.connId).Nodup)
    (room : (zone.entities ++ entities).length ≤ authorityCapacity) :
    entities.foldl Zone.sub zone = {zone with entities := zone.entities ++ entities} := by
  induction entities generalizing zone with
  | nil => simp
  | cons entity rest ih =>
    have absent : zone.holds entity.connId = false := by
      rw [Bool.eq_false_iff]
      intro listed
      obtain ⟨old,member,same⟩ := (zone.holds_iff _).mp listed
      rw [List.map_append,List.nodup_append] at once
      exact once.2.2 old.connId (List.mem_map_of_mem member) entity.connId (by simp) same
    have below : zone.entities.length < authorityCapacity := by
      rw [List.length_append,List.length_cons] at room
      omega
    rw [List.foldl_cons,Zone.sub_of_absent absent below,ih (by simpa using once) (by simpa using room)]
    simp

/-! The world. -/

namespace ZoneWorld

/-- Every live zone is tidy, and no connection is listed in two of them. -/
structure Occupied (zones : SlotMap Zone) : Prop where
  wf : Wf zones
  tidy : ∀ id zone, zones.find id = some zone → zone.Tidy
  one : ∀ id zone id' zone' connId, zones.find id = some zone → zones.find id' = some zone' →
    zone.holds connId = true → zone'.holds connId = true → id = id'

theorem holds_of_mem {zone : Zone} {entity : EntityRecord} (member : entity ∈ zone.entities) :
    zone.holds entity.connId = true := (zone.holds_iff _).mpr ⟨entity,member,rfl⟩

/-- Zones may be freed and entities dropped. -/
theorem Occupied.shrink {before after : SlotMap Zone} (occupied : Occupied before) (wf : Wf after)
    (sub : ∀ id zone, after.find id = some zone → ∃ old, before.find id = some old ∧ zone.range = old.range ∧
      zone.entities.Sublist old.entities) : Occupied after where
  wf := wf
  tidy := by
    intro id zone live
    obtain ⟨old,found,range,entities⟩ := sub id zone live
    have tidy := (occupied.tidy id old found).sublist entities
    rwa [← range] at tidy
  one := by
    intro id zone id' zone' connId live live' listed listed'
    obtain ⟨old,found,_,entities⟩ := sub id zone live
    obtain ⟨old',found',_,entities'⟩ := sub id' zone' live'
    obtain ⟨entity,member,rfl⟩ := (zone.holds_iff connId).mp listed
    obtain ⟨entity',member',same⟩ := (zone'.holds_iff _).mp listed'
    exact occupied.one id old id' old' _ found found' (holds_of_mem (entities.subset member))
      (same ▸ holds_of_mem (entities'.subset member'))

theorem Occupied.free {zones : SlotMap Zone} (occupied : Occupied zones) (id : Id) : Occupied (zones.free id) := by
  apply occupied.shrink (free_wf occupied.wf id)
  intro j zone live
  rw [free_find] at live
  split at live
  · cases live
  · exact ⟨zone,live,rfl,List.Sublist.refl _⟩

theorem Occupied.freeAll {w : ZoneWorld} (occupied : Occupied w.zones) (ids : List Id) :
    Occupied (ids.foldl freeZone w).zones :=
  invariant_run freeZone (fun w => Occupied w.zones) (fun _ id before => before.free id) w ids occupied

theorem Occupied.remove {w : ZoneWorld} (occupied : Occupied w.zones) (connId : UInt64) :
    Occupied (w.removeEntity connId).zones := by
  apply occupied.shrink (removeEntity_shape occupied.wf connId).wf
  intro id zone live
  rw [removeEntity_find occupied.wf] at live
  obtain ⟨old,found,rfl⟩ := Option.map_eq_some_iff.mp live
  exact ⟨old,found,rfl,List.filter_sublist⟩

/-- One zone may be given new entities where no other zone lists them. -/
theorem Occupied.replace {before after : SlotMap Zone} (occupied : Occupied before) (wf : Wf after) (id : Id) {zone : Zone}
    (tidy : zone.Tidy) (finds : ∀ j z, after.find j = some z → if j = id then z = zone else
      ∃ old, before.find j = some old ∧ z.range = old.range ∧ z.entities.Sublist old.entities)
    (apart : ∀ j z, j ≠ id → after.find j = some z → ∀ entity ∈ zone.entities, z.holds entity.connId = false) :
    Occupied after where
  wf := wf
  tidy := by
    intro j z live
    have source := finds j z live
    split at source
    · rwa [source]
    · obtain ⟨old,found,range,entities⟩ := source
      have tidy := (occupied.tidy j old found).sublist entities
      rwa [← range] at tidy
  one := by
    intro i a j b connId liveA liveB listedA listedB
    have sourceA := finds i a liveA
    have sourceB := finds j b liveB
    split at sourceA <;> split at sourceB
    · rename_i hi hj
      rw [hi,hj]
    · rename_i here elsewhere
      rw [sourceA] at listedA
      obtain ⟨entity,member,rfl⟩ := (zone.holds_iff connId).mp listedA
      rw [apart j b elsewhere liveB entity member] at listedB
      cases listedB
    · rename_i elsewhere here
      rw [sourceB] at listedB
      obtain ⟨entity,member,rfl⟩ := (zone.holds_iff connId).mp listedB
      rw [apart i a elsewhere liveA entity member] at listedA
      cases listedA
    · obtain ⟨old,found,_,entities⟩ := sourceA
      obtain ⟨old',found',_,entities'⟩ := sourceB
      obtain ⟨entity,member,rfl⟩ := (a.holds_iff connId).mp listedA
      obtain ⟨entity',member',same⟩ := (b.holds_iff _).mp listedB
      exact occupied.one i old j old' _ found found' (holds_of_mem (entities.subset member))
        (same ▸ holds_of_mem (entities'.subset member'))

theorem Occupied.update {zones : SlotMap Zone} (occupied : Occupied zones) (id : Id) {zone : Zone} (tidy : zone.Tidy)
    (apart : ∀ j z, j ≠ id → zones.find j = some z → ∀ entity ∈ zone.entities, z.holds entity.connId = false) :
    Occupied (zones.update id zone) := by
  apply occupied.replace (update_wf occupied.wf id zone) id tidy
  · intro j z live
    rw [update_find] at live
    split at live
    · rename_i here
      rw [if_pos here]
      obtain ⟨_,_,rfl⟩ := Option.map_eq_some_iff.mp live
      rfl
    · rename_i elsewhere
      rw [if_neg elsewhere]
      exact ⟨z,live,rfl,List.Sublist.refl _⟩
  · intro j z elsewhere live
    rw [update_find,if_neg elsewhere] at live
    exact apart j z elsewhere live

/-- A record may be filed in a zone that owns its index when no other zone lists its connection. -/
theorem Occupied.file {zones : SlotMap Zone} (occupied : Occupied zones) {id : Id} {zone : Zone} {entity : EntityRecord}
    (found : zones.find id = some zone) (inside : zone.range.contains entity.idx = true)
    (apart : ∀ j z, zones.find j = some z → z.holds entity.connId = true → j = id) :
    Occupied (zones.update id (zone.sub entity)) := by
  apply occupied.update id ((occupied.tidy id zone found).sub inside)
  intro j z elsewhere live other member
  rw [Bool.eq_false_iff]
  intro listed
  rcases zone.mem_sub other entity member with old | rfl
  · exact elsewhere (occupied.one j z id zone _ live found listed (holds_of_mem old))
  · exact elsewhere (apart j z live listed)

theorem Occupied.move {w : ZoneWorld} (occupied : Occupied w.zones) (connId idx vx vy vz rttTicks : UInt64) (pos : Pos3) :
    Occupied (w.moveEntityToIndexV connId idx vx vy vz rttTicks pos).zones := by
  cases authority : w.authorityForIndex idx with
  | none =>
    have dropped : w.moveEntityToIndexV connId idx vx vy vz rttTicks pos = w.removeEntity connId := by
      simp only [moveEntityToIndexV,authority]
      rfl
    rw [dropped]
    exact occupied.remove connId
  | some zoneId =>
  obtain ⟨zone,found,covers⟩ := authorityForIndex_some occupied.wf idx zoneId authority
  by_cases room : zone.holds connId = true ∨ zone.entities.length < authorityCapacity
  case neg =>
    rw [not_or,Bool.not_eq_true,Nat.not_lt] at room
    rw [moveEntityToIndexV_refused authority found room.1 room.2]
    exact occupied
  obtain ⟨_,shape,finds⟩ := moveEntityToIndexV_filed occupied.wf authority found room vx vy vz rttTicks pos
  let filed : EntityRecord := {connId := connId, idx := idx, pos := pos, vx := vx, vy := vy, vz := vz, rttTicks := rttTicks}
  have tidy : (zone.sub filed).Tidy := (occupied.tidy zoneId zone found).sub covers
  refine occupied.replace shape.wf zoneId tidy ?_ ?_
  · intro j z live
    rw [finds] at live
    split at live
    · rename_i here
      rw [if_pos here]
      exact (Option.some.inj live).symm
    · rename_i elsewhere
      rw [if_neg elsewhere]
      obtain ⟨old,there,rfl⟩ := Option.map_eq_some_iff.mp live
      exact ⟨old,there,rfl,List.filter_sublist⟩
  · intro j z elsewhere live entity member
    rw [finds,if_neg elsewhere] at live
    obtain ⟨old,there,rfl⟩ := Option.map_eq_some_iff.mp live
    rw [Bool.eq_false_iff]
    intro listed
    obtain ⟨left,kept,same⟩ := (Zone.holds_iff _ _).mp listed
    obtain ⟨stays,other⟩ := List.mem_filter.mp kept
    rw [bne_iff_ne,same] at other
    rcases zone.mem_sub entity _ member with listedHere | rfl
    · exact elsewhere (occupied.one j old zoneId zone _ there found (same ▸ holds_of_mem stays) (holds_of_mem listedHere))
    · exact other rfl

theorem Occupied.alloc {w w' : ZoneWorld} {range : ZoneRange} {id : Id} (occupied : Occupied w.zones)
    (ok : w.allocZone range = some (w',id)) : Occupied w'.zones := by
  obtain ⟨wf,_,_,finds,_⟩ := allocZone_some occupied.wf ok
  have empty {j : Id} {z : Zone} (live : w'.zones.find j = some z) : z = ⟨range,[]⟩ ∨ w.zones.find j = some z := by
    rw [finds] at live
    split at live
    · exact Or.inl (Option.some.inj live).symm
    · exact Or.inr live
  refine ⟨wf,?_,?_⟩
  · intro j z live
    rcases empty live with rfl | old
    · exact Zone.tidy_empty range
    · exact occupied.tidy j z old
  · intro i a j b connId liveA liveB listedA listedB
    rcases empty liveA with rfl | oldA
    · cases listedA
    rcases empty liveB with rfl | oldB
    · cases listedB
    exact occupied.one i a j b connId oldA oldB listedA listedB

theorem Occupied.allocChildren {w : ZoneWorld} (occupied : Occupied w.zones) (ids : List Id) (ranges : List ZoneRange) :
    match w.allocChildren ids ranges with
    | .ok (w',_) => Occupied w'.zones
    | .error w' => Occupied w'.zones := by
  induction ranges generalizing w ids with
  | nil => exact occupied
  | cons c rest ih =>
    cases alloc : w.allocZone c with
    | none => simpa [ZoneWorld.allocChildren,alloc] using occupied
    | some result =>
      simp only [ZoneWorld.allocChildren,alloc]
      exact ih (occupied.alloc alloc) _

/-! Splitting. -/

/-- The record is in some live zone. -/
def Recorded (zones : SlotMap Zone) (entity : EntityRecord) : Prop :=
  ∃ id zone, zones.find id = some zone ∧ entity ∈ zone.entities

theorem recorded_update {zones : SlotMap Zone} {id : Id} {old zone : Zone} (found : zones.find id = some old)
    {added : List EntityRecord} (grown : zone.entities = old.entities ++ added) (entity : EntityRecord) :
    Recorded (zones.update id zone) entity ↔ Recorded zones entity ∨ entity ∈ added := by
  constructor
  · rintro ⟨j,z,live,member⟩
    rw [update_find] at live
    split at live
    · obtain ⟨_,_,rfl⟩ := Option.map_eq_some_iff.mp live
      rw [grown] at member
      rcases List.mem_append.mp member with here | new
      · exact Or.inl ⟨id,old,found,here⟩
      · exact Or.inr new
    · exact Or.inl ⟨j,z,live,member⟩
  · have here : (zones.update id zone).find id = some zone := by rw [update_find,if_pos rfl,found]; rfl
    rintro (⟨j,z,live,member⟩ | new)
    · by_cases same : j = id
      · subst same
        obtain rfl := Option.some.inj (live.symm.trans found)
        exact ⟨j,zone,here,by rw [grown]; exact List.mem_append_left _ member⟩
      · exact ⟨j,z,by rw [update_find,if_neg same,live],member⟩
    · exact ⟨id,zone,here,by rw [grown]; exact List.mem_append_right _ new⟩

/-- What allocating all the children gives: one empty zone for each of them, and the old zones as they were. -/
theorem allocChildren_ok {w w' : ZoneWorld} (wf : Wf w.zones) (ids ids' : List Id) (ranges : List ZoneRange)
    (ok : w.allocChildren ids ranges = .ok (w',ids')) : Wf w'.zones ∧ w'.bits = w.bits ∧
      (∀ j z, w.zones.find j = some z → w'.zones.find j = some z) ∧
      (∀ j z, w'.zones.find j = some z → w.zones.find j = some z ∨ z.entities = []) ∧
      ∃ fresh, ids' = ids ++ fresh ∧ ∀ (i : Nat) (c : ZoneRange), ranges[i]? = some c → ∃ cid, fresh[i]? = some cid ∧
        w'.zones.find cid = some ⟨c,[]⟩ := by
  induction ranges generalizing w ids with
  | nil =>
    obtain ⟨rfl,rfl⟩ := Prod.mk.inj (Except.ok.inj ok)
    exact ⟨wf,rfl,fun _ _ live => live,fun _ _ live => Or.inl live,[],by simp,by simp⟩
  | cons c rest ih =>
    cases alloc : w.allocZone c with
    | none => simp [ZoneWorld.allocChildren,alloc] at ok
    | some result =>
      obtain ⟨next,id⟩ := result
      obtain ⟨wf',bits,dead,finds,_⟩ := allocZone_some wf alloc
      simp only [ZoneWorld.allocChildren,alloc] at ok
      obtain ⟨wfEnd,bitsEnd,kept,empty,fresh,rfl,placed⟩ := ih wf' _ ok
      have here : next.zones.find id = some ⟨c,[]⟩ := by rw [finds,if_pos rfl]
      refine ⟨wfEnd,bitsEnd.trans bits,?_,?_,id::fresh,by simp,?_⟩
      · intro j z live
        have apart : j ≠ id := by
          rintro rfl
          rw [dead] at live
          cases live
        exact kept j z (by rw [finds,if_neg apart,live])
      · intro j z live
        rcases empty j z live with old | none
        · rw [finds] at old
          split at old
          · exact Or.inr (by rw [← Option.some.inj old])
          · exact Or.inl old
        · exact Or.inr none
      · intro i d there
        cases i with
        | zero =>
          obtain rfl : c = d := by simpa using there
          exact ⟨id,rfl,kept id _ here⟩
        | succ i => exact placed i d (by simpa using there)

/-- A world in the middle of a split: the records still to be filed are listed nowhere, and the child that
takes each of them has room. -/
structure Filing (children : List ZoneRange) (childIds : List Id) (zones : SlotMap Zone) (rest : List EntityRecord) : Prop where
  occupied : Occupied zones
  nodup : (rest.map EntityRecord.connId).Nodup
  absent : ∀ entity ∈ rest, ∀ j z, zones.find j = some z → z.holds entity.connId = false
  covered : ∀ entity ∈ rest, ∃ (i : Nat) (c : ZoneRange), children[i]? = some c ∧ c.contains entity.idx = true
  placed : ∀ (i : Nat) (c : ZoneRange), children[i]? = some c → ∃ cid z, childIds[i]? = some cid ∧ zones.find cid = some z ∧
    z.range = c ∧ z.entities.length + rest.length ≤ authorityCapacity

/-- A record goes to the one child that covers its index. -/
theorem redistribute_eq {children : List ZoneRange} {childIds : List Id} {zones : SlotMap Zone} {entity : EntityRecord}
    {i : Nat} {c : ZoneRange} {cid : Id} {target : Zone}
    (alone : ∀ (j : Nat) (d : ZoneRange), children[j]? = some d → d.contains entity.idx = true → j = i)
    (here : children[i]? = some c) (covers : c.contains entity.idx = true) (filed : childIds[i]? = some cid)
    (found : zones.find cid = some target) :
    redistribute children childIds zones entity = zones.update cid (target.sub entity) := by
  have idle (zones : SlotMap Zone) (j : Nat) (other : j ≠ i) : fileInto children childIds entity zones j = zones := by
    unfold fileInto
    split
    · rfl
    · rename_i d there
      rw [if_neg (fun inside => other (alone j d there inside))]
  have idleAll (zones : SlotMap Zone) (l : List Nat) (others : i ∉ l) :
      l.foldl (fileInto children childIds entity) zones = zones := by
    induction l with
    | nil => rfl
    | cons j l ih =>
      rw [List.mem_cons,not_or] at others
      rw [List.foldl_cons,idle zones j (Ne.symm others.1),ih others.2]
  have inside : i ∈ List.range children.length := List.mem_range.mpr (List.getElem?_eq_some_iff.mp here).1
  obtain ⟨before,after,split⟩ := List.append_of_mem inside
  have distinct : (before ++ i::after).Nodup := split ▸ List.nodup_range
  rw [List.nodup_append] at distinct
  rw [redistribute,split,List.foldl_append,idleAll zones before (fun member => distinct.2.2 i member i List.mem_cons_self rfl),
    List.foldl_cons,idleAll _ after (List.nodup_cons.mp distinct.2.1).1]
  simp only [fileInto,here,covers,filed,found,if_true]

theorem Filing.step {bits : Nat} {r : ZoneRange} {children : List ZoneRange} {childIds : List Id} {zones : SlotMap Zone}
    {entity : EntityRecord} {rest : List EntityRecord} (octants : octreeChildren bits r = some children)
    (filing : Filing children childIds zones (entity::rest)) :
    Filing children childIds (redistribute children childIds zones entity) rest ∧
      ∀ e, Recorded (redistribute children childIds zones entity) e ↔ Recorded zones e ∨ e = entity := by
  obtain ⟨i,c,here,covers⟩ := filing.covered entity List.mem_cons_self
  obtain ⟨cid,target,filed,found,range,room⟩ := filing.placed i c here
  have absent := filing.absent entity List.mem_cons_self
  have below : target.entities.length < authorityCapacity := by
    rw [List.length_cons] at room
    omega
  have grown := Zone.sub_of_absent (absent cid target found) below
  have alone (j : Nat) (d : ZoneRange) (there : children[j]? = some d) (inside : d.contains entity.idx = true) : j = i :=
    octreeChildren_apart octants there here inside covers
  obtain ⟨fresh,nodup⟩ := List.nodup_cons.mp filing.nodup
  rw [redistribute_eq alone here covers filed found]
  constructor
  · refine ⟨?_,nodup,?_,fun e member => filing.covered e (List.mem_cons_of_mem _ member),?_⟩
    · apply filing.occupied.file found (by rw [range]; exact covers)
      intro j z live listed
      rw [absent j z live] at listed
      cases listed
    · intro e member j z live
      have before := filing.absent e (List.mem_cons_of_mem _ member)
      rw [update_find] at live
      split at live
      · obtain ⟨_,_,rfl⟩ := Option.map_eq_some_iff.mp live
        rw [Bool.eq_false_iff]
        intro listed
        obtain ⟨other,inside,same⟩ := (Zone.holds_iff _ _).mp listed
        rcases target.mem_sub other entity inside with old | rfl
        · have held := holds_of_mem old
          rw [same,before cid target found] at held
          cases held
        · exact fresh (List.mem_map.mpr ⟨e,member,same.symm⟩)
      · exact before j z live
    · intro j d there
      obtain ⟨cid',z,filed',found',range',room'⟩ := filing.placed j d there
      rw [List.length_cons] at room'
      by_cases same : cid' = cid
      · subst same
        obtain rfl := Option.some.inj (found'.symm.trans found)
        refine ⟨cid',_,filed',by rw [update_find,if_pos rfl,found]; rfl,by rw [Zone.sub_range,range'],?_⟩
        rw [grown,List.length_append,List.length_singleton]
        omega
      · exact ⟨cid',z,filed',by rw [update_find,if_neg same,found'],range',by omega⟩
  · intro e
    rw [recorded_update found (by rw [grown])]
    simp

theorem Filing.run {bits : Nat} {r : ZoneRange} {children : List ZoneRange} {childIds : List Id} {zones : SlotMap Zone}
    {entities : List EntityRecord} (octants : octreeChildren bits r = some children)
    (filing : Filing children childIds zones entities) :
    Occupied (entities.foldl (redistribute children childIds) zones) ∧
      ∀ e, Recorded (entities.foldl (redistribute children childIds) zones) e ↔ Recorded zones e ∨ e ∈ entities := by
  induction entities generalizing zones with
  | nil => exact ⟨filing.occupied,by simp⟩
  | cons entity rest ih =>
    obtain ⟨next,one⟩ := filing.step octants
    obtain ⟨occupied,all⟩ := ih next
    refine ⟨occupied,fun e => ?_⟩
    rw [List.foldl_cons,all,one,List.mem_cons,or_assoc]

theorem recorded_free {zones : SlotMap Zone} {id : Id} {zone : Zone} (found : zones.find id = some zone) (e : EntityRecord) :
    Recorded zones e ↔ Recorded (zones.free id) e ∨ e ∈ zone.entities := by
  constructor
  · rintro ⟨j,z,live,member⟩
    by_cases same : j = id
    · subst same
      obtain rfl := Option.some.inj (live.symm.trans found)
      exact Or.inr member
    · exact Or.inl ⟨j,z,by rw [free_find,if_neg same,live],member⟩
  · rintro (⟨j,z,live,member⟩ | member)
    · rw [free_find] at live
      split at live
      · cases live
      · exact ⟨j,z,live,member⟩
    · exact ⟨id,zone,found,member⟩

/-- Freeing the zone and allocating its children leaves exactly its records to be filed. -/
theorem Filing.start {w w' : ZoneWorld} (occupied : Occupied w.zones) {zoneId : Id} {zone : Zone} {children : List ZoneRange}
    {childIds : List Id} (found : w.zones.find zoneId = some zone) (octants : octreeChildren w.bits zone.range = some children)
    (ok : (w.freeZone zoneId).allocChildren [] children = .ok (w',childIds)) :
    Filing children childIds w'.zones zone.entities ∧ ∀ e, Recorded w'.zones e ∨ e ∈ zone.entities ↔ Recorded w.zones e := by
  have freed : Occupied (w.freeZone zoneId).zones := occupied.free zoneId
  have tidy := occupied.tidy zoneId zone found
  have allocated := freed.allocChildren [] children
  rw [ok] at allocated
  obtain ⟨_,_,kept,empty,fresh,rfl,placed⟩ := allocChildren_ok freed.wf [] childIds children ok
  constructor
  · refine ⟨allocated,tidy.once,?_,fun e member => octreeChildren_covers octants (tidy.inside e member),?_⟩
    · intro e member j z live
      rw [Bool.eq_false_iff]
      intro listed
      rcases empty j z live with old | none
      · simp only [freeZone,free_find] at old
        split at old
        · cases old
        · rename_i elsewhere
          exact elsewhere (occupied.one j z zoneId zone _ old found listed (holds_of_mem member))
      · obtain ⟨other,inside,_⟩ := (z.holds_iff _).mp listed
        rw [none] at inside
        cases inside
    · intro i c here
      obtain ⟨cid,filed,live⟩ := placed i c here
      exact ⟨cid,⟨c,[]⟩,by simpa using filed,live,rfl,by simpa using tidy.room⟩
  · intro e
    rw [recorded_free found]
    apply or_congr_left
    constructor
    · rintro ⟨j,z,live,member⟩
      rcases empty j z live with old | none
      · exact ⟨j,z,old,member⟩
      · rw [none] at member
        cases member
    · rintro ⟨j,z,live,member⟩
      exact ⟨j,z,kept j z live,member⟩

theorem Occupied.split {w : ZoneWorld} (occupied : Occupied w.zones) (zoneId : Id) : Occupied (w.maybeSplitZone zoneId).zones := by
  by_cases due : w.SplitDue zoneId
  case neg => rwa [maybeSplitZone_idle due]
  obtain ⟨zone,children,found,octants,cheaper⟩ := due
  have freed : Occupied (w.freeZone zoneId).zones := occupied.free zoneId
  have allocated := freed.allocChildren [] children
  simp only [maybeSplitZone,found,octants,cheaper,Bool.not_true,Bool.false_eq_true,if_false]
  cases alloc : (w.freeZone zoneId).allocChildren [] children with
  | error w' =>
    rw [alloc] at allocated
    exact allocated
  | ok result =>
    obtain ⟨w',childIds⟩ := result
    exact ((Filing.start occupied found octants alloc).1.run octants).1

/-- With seven free slots and the one of the split zone itself every child finds a slot. -/
theorem split_allocates {w : ZoneWorld} (wf : Wf w.zones) {zoneId : Id} {zone : Zone} {children : List ZoneRange}
    (found : w.zones.find zoneId = some zone) (octants : octreeChildren w.bits zone.range = some children)
    (slots : 7 ≤ w.zones.freeList.length) :
    ∃ w' childIds, (w.freeZone zoneId).allocChildren [] children = .ok (w',childIds) := by
  cases alloc : (w.freeZone zoneId).allocChildren [] children with
  | ok result => exact ⟨result.1,result.2,rfl⟩
  | error w' =>
    have short := (allocChildren_isError (free_wf wf zoneId) [] children).mp ⟨w',alloc⟩
    have freed := free_length_live w.zones zoneId zone found
    rw [octreeChildren_length octants] at short
    simp only [freeZone] at short
    omega

/-- A split whose children all find a slot keeps every record. -/
theorem split_recorded {w : ZoneWorld} (occupied : Occupied w.zones) {zoneId : Id}
    (fits : w.SplitDue zoneId → 7 ≤ w.zones.freeList.length) (e : EntityRecord) :
    Recorded (w.maybeSplitZone zoneId).zones e ↔ Recorded w.zones e := by
  by_cases due : w.SplitDue zoneId
  case neg => rw [maybeSplitZone_idle due]
  have slots := fits due
  obtain ⟨zone,children,found,octants,cheaper⟩ := due
  obtain ⟨w',childIds,alloc⟩ := split_allocates occupied.wf found octants slots
  simp only [maybeSplitZone,found,octants,cheaper,alloc,Bool.not_true,Bool.false_eq_true,if_false]
  obtain ⟨filing,same⟩ := Filing.start occupied found octants alloc
  exact ((filing.run octants).2 e).trans (same e)

/-! Merging. -/

/-- A successful scan pairs the children, in order, with their live zones, and gathers what these list. -/
theorem collectSiblings_exact {w : ZoneWorld} {children : List ZoneRange} {s result : Siblings}
    (ok : w.collectSiblings s children = some result) : ∃ siblings : List (Id × Zone),
      (∀ p ∈ siblings, w.zones.find p.1 = some p.2 ∧ w.authorityForIndex p.2.range.start = some p.1) ∧
      siblings.map (fun p => p.2.range) = children ∧ result.ids = s.ids ++ siblings.map Prod.fst ∧
      result.entities = s.entities ++ siblings.flatMap (fun p => p.2.entities) ∧
      result.population = s.population + (siblings.flatMap (fun p => p.2.entities)).length := by
  induction children generalizing s with
  | nil =>
    simp only [collectSiblings,Option.some.injEq] at ok
    subst result
    exact ⟨[],by simp,rfl,by simp,by simp,by simp⟩
  | cons c rest ih =>
    unfold collectSiblings at ok
    split at ok
    · cases ok
    rename_i sid authority
    split at ok
    · cases ok
    rename_i szone found
    split at ok
    · cases ok
    rename_i sameRange
    obtain ⟨siblings,live,ranges,ids,entities,population⟩ := ih ok
    have range : szone.range = c := by
      simp only [ne_eq,not_or,not_not] at sameRange
      cases hr : szone.range
      cases c
      simp_all
    refine ⟨(sid,szone)::siblings,?_,?_,?_,?_,?_⟩
    · intro p member
      rcases List.mem_cons.mp member with rfl | later
      · exact ⟨found,by rw [range]; exact authority⟩
      · exact live p later
    · rw [List.map_cons,ranges,range]
    · rw [ids,List.map_cons,List.append_assoc]
      rfl
    · rw [entities,List.flatMap_cons,List.append_assoc]
    · rw [population,List.flatMap_cons,List.length_append]
      simp only [Nat.add_assoc]

section Merge
variable {w : ZoneWorld} {zoneId : Id} {zone : Zone} {parent : ZoneRange} {children : List ZoneRange} {s : Siblings}

/-- What the merge gathers: the records of the siblings, all different, which fit into the parent. -/
theorem MergeDue.gathered (occupied : Occupied w.zones) (due : w.MergeDue zoneId zone parent children s) :
    Zone.Tidy ⟨parent,s.entities⟩ ∧ 0 < (s.ids.foldl freeZone w).zones.freeList.length ∧
      ∀ e, e ∈ s.entities ↔ ∃ id ∈ s.ids, ∃ z, w.zones.find id = some z ∧ e ∈ z.entities := by
  obtain ⟨siblings,live,ranges,ids,entities,population⟩ := collectSiblings_exact due.scan
  simp only [List.nil_append,Nat.zero_add] at ids entities population
  have count := octreeChildren_length due.down
  have apart : siblings.Pairwise (fun p q => p.2.range ≠ q.2.range) := by
    rw [← List.pairwise_map,ranges]
    exact octreeChildren_nodup due.down
  have ranged (p : Id × Zone) (member : p ∈ siblings) : ∃ i : Nat, children[i]? = some p.2.range := by
    rw [← List.mem_iff_getElem?,← ranges]
    exact List.mem_map_of_mem member
  have proper (p : Id × Zone) (member : p ∈ siblings) : p.2.range.contains p.2.range.start = true := by
    obtain ⟨found,authority⟩ := live p member
    obtain ⟨z,found',covers⟩ := authorityForIndex_some occupied.wf _ _ authority
    obtain rfl := Option.some.inj (found.symm.trans found')
    exact covers
  obtain ⟨last,end_⟩ : ∃ last : Id × Zone, siblings[7]? = some last := by
    have length : siblings.length = 8 := by rw [← count,← ranges,List.length_map]
    exact ⟨_,List.getElem?_eq_getElem (by omega)⟩
  have lastMember := List.mem_of_getElem? end_
  refine ⟨⟨?_,?_,?_⟩,?_,?_⟩
  · rw [entities,List.map_flatMap,List.nodup_flatMap]
    refine ⟨fun p member => (occupied.tidy p.1 p.2 (live p member).1).once,apart.imp_of_mem ?_⟩
    intro p q first second differ connId listed listed'
    obtain ⟨e,member,rfl⟩ := List.mem_map.mp listed
    obtain ⟨e',member',same⟩ := List.mem_map.mp listed'
    have foundP := (live p first).1
    have foundQ := (live q second).1
    have one := occupied.one _ _ _ _ e.connId foundP foundQ (holds_of_mem member) (same ▸ holds_of_mem member')
    rw [one,foundQ] at foundP
    exact differ (congrArg Zone.range (Option.some.inj foundP)).symm
  · intro e member
    rw [entities] at member
    obtain ⟨p,sibling,listed⟩ := List.mem_flatMap.mp member
    obtain ⟨i,here⟩ := ranged p sibling
    have final : children[7]? = some last.2.range := by rw [← ranges,List.getElem?_map,end_]; rfl
    exact octreeChildren_inside due.down here ((occupied.tidy p.1 p.2 (live p sibling).1).inside e listed) final
      (proper last lastMember)
  · rw [entities,← population]
    exact due.room
  · apply freeAll_slot w s.ids last.1 last.2 _ (live last lastMember).1
    rw [ids]
    exact List.mem_map_of_mem lastMember
  · intro e
    rw [entities,ids,List.mem_flatMap]
    constructor
    · rintro ⟨p,sibling,listed⟩
      exact ⟨p.1,List.mem_map_of_mem sibling,p.2,(live p sibling).1,listed⟩
    · rintro ⟨id,member,z,found,listed⟩
      obtain ⟨p,sibling,rfl⟩ := List.mem_map.mp member
      obtain rfl := Option.some.inj (found.symm.trans (live p sibling).1)
      exact ⟨p,sibling,listed⟩

/-- A due merge keeps the invariant and every record. -/
theorem MergeDue.merged (occupied : Occupied w.zones) (due : w.MergeDue zoneId zone parent children s) :
    Occupied (w.maybeMergeSiblings zoneId).zones ∧
      ∀ e, Recorded (w.maybeMergeSiblings zoneId).zones e ↔ Recorded w.zones e := by
  obtain ⟨tidy,slot,gathered⟩ := due.gathered occupied
  have freed := occupied.freeAll s.ids
  rcases maybeMergeSiblings_due occupied.wf due with ⟨refused,_⟩ | ⟨w',pid,alloc,result⟩
  · rw [(allocZone_eq_none freed.wf).mp refused] at slot
    cases slot
  obtain ⟨_,_,dead,finds,_⟩ := allocZone_some freed.wf alloc
  have filled : s.entities.foldl Zone.sub ⟨parent,[]⟩ = ⟨parent,s.entities⟩ :=
    Zone.foldl_sub_eq (by simpa using tidy.once) (by simpa using tidy.room)
  rw [filled] at result
  rw [result]
  have survives {j : Id} {z : Zone} (elsewhere : j ≠ pid) (live : w'.zones.find j = some z) : j ∉ s.ids ∧ w.zones.find j = some z := by
    rw [finds,if_neg elsewhere,freeAll_find] at live
    split at live
    · cases live
    · rename_i kept
      exact ⟨kept,live⟩
  constructor
  · apply (freed.alloc alloc).update pid tidy
    intro j z elsewhere live e member
    obtain ⟨kept,old⟩ := survives elsewhere live
    obtain ⟨id,sibling,other,found,listed⟩ := (gathered e).mp member
    rw [Bool.eq_false_iff]
    intro held
    rw [occupied.one j z id other _ old found held (holds_of_mem listed)] at kept
    exact kept sibling
  · intro e
    have placed : w'.zones.find pid = some ⟨parent,[]⟩ := by rw [finds,if_pos rfl]
    rw [recorded_update placed (List.nil_append _).symm]
    constructor
    · rintro (⟨j,z,live,member⟩ | member)
      · by_cases here : j = pid
        · rw [finds,if_pos here] at live
          rw [← Option.some.inj live] at member
          cases member
        · exact ⟨j,z,(survives here live).2,member⟩
      · obtain ⟨id,_,z,found,listed⟩ := (gathered e).mp member
        exact ⟨id,z,found,listed⟩
    · rintro ⟨j,z,live,member⟩
      by_cases sibling : j ∈ s.ids
      · exact Or.inr ((gathered e).mpr ⟨j,sibling,z,live,member⟩)
      · left
        have there : (s.ids.foldl freeZone w).zones.find j = some z := by rw [freeAll_find,if_neg sibling,live]
        have elsewhere : j ≠ pid := by
          rintro rfl
          rw [dead] at there
          cases there
        exact ⟨j,z,by rw [finds,if_neg elsewhere,there],member⟩

end Merge

theorem merge_recorded {w : ZoneWorld} (occupied : Occupied w.zones) (zoneId : Id) :
    Occupied (w.maybeMergeSiblings zoneId).zones ∧
      ∀ e, Recorded (w.maybeMergeSiblings zoneId).zones e ↔ Recorded w.zones e := by
  by_cases due : ∃ zone parent children s, w.MergeDue zoneId zone parent children s
  · obtain ⟨zone,parent,children,s,due⟩ := due
    exact due.merged occupied
  · rw [maybeMergeSiblings_idle (fun zone parent children s branch => due ⟨zone,parent,children,s,branch⟩)]
    exact ⟨occupied,fun _ => Iff.rfl⟩

/-! Moves and removals. -/

theorem remove_recorded {w : ZoneWorld} (wf : Wf w.zones) (connId : UInt64) (e : EntityRecord) :
    Recorded (w.removeEntity connId).zones e ↔ Recorded w.zones e ∧ e.connId ≠ connId := by
  constructor
  · rintro ⟨id,zone,live,member⟩
    rw [removeEntity_find wf] at live
    obtain ⟨old,found,rfl⟩ := Option.map_eq_some_iff.mp live
    obtain ⟨listed,other⟩ := List.mem_filter.mp member
    exact ⟨⟨id,old,found,listed⟩,by simpa using other⟩
  · rintro ⟨⟨id,zone,found,member⟩,other⟩
    refine ⟨id,zone.unsub connId,by rw [removeEntity_find wf,found]; rfl,?_⟩
    exact List.mem_filter.mpr ⟨member,by simpa using other⟩

/-- The move lists its entity in a zone that did not list it before. -/
def Enters (w : ZoneWorld) (connId idx : UInt64) : Prop :=
  ∃ id zone, w.authorityForIndex idx = some id ∧ w.zones.find id = some zone ∧ zone.holds connId = false ∧
    zone.entities.length < authorityCapacity

/-- A move into a new zone replaces the record of the moved entity, and any other move that finds an authority
changes no record, not even that of an entity which stays in its zone. -/
theorem move_recorded {w : ZoneWorld} (occupied : Occupied w.zones) {connId idx : UInt64}
    (owned : (w.authorityForIndex idx).isSome = true) (vx vy vz rttTicks : UInt64) (pos : Pos3) (e : EntityRecord) :
    Recorded (w.moveEntityToIndexV connId idx vx vy vz rttTicks pos).zones e ↔
      Recorded w.zones e ∧ (w.Enters connId idx → e.connId ≠ connId) ∨ w.Enters connId idx ∧
        e = {connId := connId, idx := idx, pos := pos, vx := vx, vy := vy, vz := vz, rttTicks := rttTicks} := by
  obtain ⟨zoneId,authority⟩ := Option.isSome_iff_exists.mp owned
  obtain ⟨zone,found,covers⟩ := authorityForIndex_some occupied.wf idx zoneId authority
  have enters_iff : w.Enters connId idx ↔ zone.holds connId = false ∧ zone.entities.length < authorityCapacity := by
    constructor
    · rintro ⟨id,z,authority',found',new⟩
      obtain rfl := Option.some.inj (authority.symm.trans authority')
      obtain rfl := Option.some.inj (found.symm.trans found')
      exact new
    · exact fun new => ⟨zoneId,zone,authority,found,new⟩
  rw [enters_iff]
  by_cases room : zone.holds connId = true ∨ zone.entities.length < authorityCapacity
  case neg =>
    rw [not_or,Bool.not_eq_true,Nat.not_lt] at room
    rw [moveEntityToIndexV_refused authority found room.1 room.2]
    have stays : ¬ zone.entities.length < authorityCapacity := Nat.not_lt.mpr room.2
    simp [stays]
  obtain ⟨_,_,finds⟩ := moveEntityToIndexV_filed occupied.wf authority found room vx vy vz rttTicks pos
  -- The other zones hold the entity only if its authority zone does not.
  have others (j : Id) (z : Zone) (elsewhere : j ≠ zoneId) (live : w.zones.find j = some z)
      (held : zone.holds connId = true) : z.unsub connId = z := by
    apply z.unsub_eq_self
    rw [Bool.eq_false_iff]
    exact fun listed => elsewhere (occupied.one j z zoneId zone connId live found listed held)
  cases held : zone.holds connId with
  | true =>
    have same : ∀ j, (w.moveEntityToIndexV connId idx vx vy vz rttTicks pos).zones.find j = w.zones.find j := by
      intro j
      rw [finds]
      split
      · rename_i here
        rw [here,found,Zone.sub]
        simp [held]
      · rename_i elsewhere
        cases live : w.zones.find j with
        | none => rfl
        | some z => rw [Option.map_some,others j z elsewhere live held]
    simp [Recorded,same]
  | false =>
    have below : zone.entities.length < authorityCapacity := by simpa [held] using room
    rw [Zone.sub_of_absent held below] at finds
    have absent (old : EntityRecord) (member : old ∈ zone.entities) : old.connId ≠ connId := by
      rintro rfl
      rw [holds_of_mem member] at held
      cases held
    simp only [below,and_self,true_and,forall_const]
    constructor
    · rintro ⟨j,z,live,member⟩
      rw [finds] at live
      split at live
      · rw [← Option.some.inj live] at member
        rcases List.mem_append.mp member with old | new
        · exact Or.inl ⟨⟨zoneId,zone,found,old⟩,absent e old⟩
        · exact Or.inr (List.mem_singleton.mp new)
      · obtain ⟨old,there,rfl⟩ := Option.map_eq_some_iff.mp live
        obtain ⟨listed,other⟩ := List.mem_filter.mp member
        exact Or.inl ⟨⟨j,old,there,listed⟩,by simpa using other⟩
    · rintro (⟨⟨j,z,live,member⟩,other⟩ | rfl)
      · by_cases here : j = zoneId
        · subst here
          obtain rfl := Option.some.inj (live.symm.trans found)
          exact ⟨j,_,by rw [finds,if_pos rfl],List.mem_append_left _ member⟩
        · exact ⟨j,z.unsub connId,by rw [finds,if_neg here,live]; rfl,List.mem_filter.mpr ⟨member,by simpa using other⟩⟩
      · exact ⟨zoneId,_,by rw [finds,if_pos rfl],List.mem_append_right _ List.mem_cons_self⟩

end ZoneWorld

/-! Whole runs. -/

namespace Ffi

theorem rebalanceAfterMove_occupied {w : ZoneWorld} (occupied : ZoneWorld.Occupied w.zones) (pos : Pos3) :
    ZoneWorld.Occupied (rebalanceAfterMove w pos).zones := by
  unfold rebalanceAfterMove
  split
  · exact occupied
  · exact occupied.split _

theorem entityRemove_occupied {s : State} (occupied : ZoneWorld.Occupied s.zoneWorld.zones) (connId : UInt64) :
    ZoneWorld.Occupied (entityRemove s connId).zoneWorld.zones := by
  unfold entityRemove
  dsimp only
  split
  · exact occupied.remove connId
  · exact (ZoneWorld.merge_recorded (occupied.remove connId) _).1

end Ffi

theorem State.apply_occupied {s : State} (occupied : ZoneWorld.Occupied s.zoneWorld.zones) (call : FfiCall) :
    ZoneWorld.Occupied (s.apply call).zoneWorld.zones := by
  cases call with
  | allocRoom =>
    simp only [State.apply,Ffi.allocRoom]
    split <;> exact occupied
  | freeRoom roomId => exact occupied
  | sub roomId connId => rwa [State.apply,Ffi.sub_zoneWorld]
  | unsub roomId connId => rwa [State.apply,Ffi.unsub_zoneWorld]
  | zoneAlloc startIdx stopIdx =>
    simp only [State.apply,Ffi.zoneAlloc]
    split
    · exact occupied
    · rename_i ok
      exact occupied.alloc ok
  | zoneFree zoneId => exact occupied.free _
  | entityMove connId x y z => exact Ffi.rebalanceAfterMove_occupied (occupied.move _ _ _ _ _ _ _) _
  | entityMoveV connId x y z vx vy vz rttTicks => exact Ffi.rebalanceAfterMove_occupied (occupied.move _ _ _ _ _ _ _) _
  | entityRemove connId => exact Ffi.entityRemove_occupied occupied connId

theorem occupied_of_calls (capacity : UInt32) (calls : List FfiCall) :
    ZoneWorld.Occupied (run State.apply (Ffi.init capacity) calls).zoneWorld.zones := by
  apply invariant_run State.apply (fun s => ZoneWorld.Occupied s.zoneWorld.zones) (fun _ call before => State.apply_occupied before call)
  exact ⟨emptyMap_wf capacity,fun id zone live => by simp [Ffi.init,State.initial,ZoneWorld.empty] at live,
    fun id zone id' zone' connId live => by simp [Ffi.init,State.initial,ZoneWorld.empty] at live⟩

/-- After any calls of the interface with any arguments: every zone lists each connection once, lists only records
whose index it owns, and at most 256 of them, and no connection is listed in two zones. -/
theorem connections_in_one_zone (capacity : UInt32) (calls : List FfiCall) :
    let zones := (run State.apply (Ffi.init capacity) calls).zoneWorld.zones
    (∀ id zone, zones.find id = some zone → (zone.entities.map EntityRecord.connId).Nodup ∧
      (∀ entity ∈ zone.entities, zone.range.contains entity.idx = true) ∧ zone.entities.length ≤ authorityCapacity) ∧
    ∀ id zone id' zone' connId, zones.find id = some zone → zones.find id' = some zone' →
      zone.holds connId = true → zone'.holds connId = true → id = id' := by
  have occupied := occupied_of_calls capacity calls
  exact ⟨fun id zone live => ⟨(occupied.tidy id zone live).once,(occupied.tidy id zone live).inside,(occupied.tidy id zone live).room⟩,
    occupied.one⟩

/-! Runs of moves and removals from the server's start, as long as the splits fit. -/

def Call.ffi : Call → FfiCall
  | .entityMove connId x y z => .entityMove connId x y z
  | .entityMoveV connId x y z vx vy vz rttTicks => .entityMoveV connId x y z vx vy vz rttTicks
  | .entityRemove connId => .entityRemove connId

theorem State.call_eq_apply (s : State) (call : Call) : s.call call = s.apply call.ffi := by
  cases call <;> rfl

def State.records (s : State) : Set EntityRecord := {e | ZoneWorld.Recorded s.zoneWorld.zones e}

/-- The records once `entity` has been moved: it replaces the old record of its connection where that enters a
zone. -/
def State.filed (s : State) (entity : EntityRecord) : Set EntityRecord :=
  {e | e ∈ s.records ∧ (s.zoneWorld.Enters entity.connId entity.idx → e.connId ≠ entity.connId) ∨
    s.zoneWorld.Enters entity.connId entity.idx ∧ e = entity}

/-- What a call does to the records, whichever splits and merges it causes. -/
def Call.effect (s : State) : Call → Set EntityRecord
  | .entityMove connId x y z => s.filed {connId := connId, idx := hilbert3D zoneBits ⟨x,y,z⟩}
  | .entityMoveV connId x y z vx vy vz rttTicks =>
    s.filed {connId := connId, idx := hilbert3D zoneBits ⟨x,y,z⟩, pos := ⟨x,y,z⟩, vx := vx, vy := vy, vz := vz, rttTicks := rttTicks}
  | .entityRemove connId => {e | e ∈ s.records ∧ e.connId ≠ connId}

/-- The state in a run whose splits have fitted so far. -/
structure State.Settled (s : State) : Prop where
  covered : s.Covered
  occupied : ZoneWorld.Occupied s.zoneWorld.zones

theorem Ffi.rebalanceAfterMove_recorded {s : State} {moved : ZoneWorld} (occupied : ZoneWorld.Occupied moved.zones)
    (shape : ZoneWorld.SameShape s.zoneWorld.zones moved.zones) {pos : Pos3} (fits : SplitFits s moved pos) (e : EntityRecord) :
    ZoneWorld.Recorded (rebalanceAfterMove moved pos).zones e ↔ ZoneWorld.Recorded moved.zones e := by
  unfold rebalanceAfterMove
  split
  · rfl
  · rename_i zoneId authority
    apply ZoneWorld.split_recorded occupied
    intro due
    rw [shape.free]
    exact fits zoneId authority due

theorem State.Settled.call_records {s : State} (settled : s.Settled) {call : Call} (fits : call.Fits s) :
    (s.call call).records = call.effect s := by
  obtain ⟨covered,occupied⟩ := settled
  have owned (pos : Pos3) : (s.zoneWorld.authorityForIndex (hilbert3D zoneBits pos)).isSome = true := by
    have authority := covered.tiled.authority pos
    rwa [ZoneWorld.authorityFor,covered.bits] at authority
  ext e
  cases call with
  | entityMove connId x y z =>
    have shape := ZoneWorld.moveEntityToIndexV_shape occupied.wf connId (hilbert3D s.zoneWorld.bits ⟨x,y,z⟩) 0 0 0 0 Pos3.origin
    have moved := occupied.move connId (hilbert3D s.zoneWorld.bits ⟨x,y,z⟩) 0 0 0 0 Pos3.origin
    refine (Ffi.rebalanceAfterMove_recorded moved shape fits e).trans ?_
    rw [covered.bits]
    exact ZoneWorld.move_recorded occupied (owned _) 0 0 0 0 Pos3.origin e
  | entityMoveV connId x y z vx vy vz rttTicks =>
    have shape := ZoneWorld.moveEntityToIndexV_shape occupied.wf connId (hilbert3D s.zoneWorld.bits ⟨x,y,z⟩) vx vy vz rttTicks ⟨x,y,z⟩
    have moved := occupied.move connId (hilbert3D s.zoneWorld.bits ⟨x,y,z⟩) vx vy vz rttTicks ⟨x,y,z⟩
    refine (Ffi.rebalanceAfterMove_recorded moved shape fits e).trans ?_
    rw [covered.bits]
    exact ZoneWorld.move_recorded occupied (owned _) vx vy vz rttTicks ⟨x,y,z⟩ e
  | entityRemove connId =>
    have removed := ZoneWorld.remove_recorded occupied.wf connId e
    simp only [State.records,State.call,Ffi.entityRemove,Set.mem_ofPred_eq,Call.effect]
    split
    · exact removed
    · exact ((ZoneWorld.merge_recorded (occupied.remove connId) _).2 e).trans removed

theorem State.Settled.call {s : State} (settled : s.Settled) {call : Call} (fits : call.Fits s) : (s.call call).Settled :=
  ⟨(call_exact s call settled.covered).1 fits,State.call_eq_apply s call ▸ State.apply_occupied settled.occupied call.ffi⟩

theorem settled_run {capacity : UInt32} (room : 1 ≤ capacity) {calls : List Call}
    (fits : Along State.call (fun s call => call.Fits s) (fanoutCoreInitialize capacity) calls) :
    (run State.call (fanoutCoreInitialize capacity) calls).Settled := by
  have start : (fanoutCoreInitialize capacity).Settled :=
    ⟨fanoutCoreInitialize_covered capacity room,occupied_of_calls capacity [.zoneAlloc 0 ((1 : UInt64) <<< 63)]⟩
  exact always_run State.call State.Settled _ _
    (always_of_along State.call State.Settled _ (fun _ _ settled fits => settled.call fits) _ _ start fits)

/-- From the server's start, as long as the splits fit, a call changes the records only as its own arguments say:
splits and merges lose, add and alter none. -/
theorem records_of_run (capacity : UInt32) (room : 1 ≤ capacity) (calls : List Call) (call : Call)
    (fits : Along State.call (fun s call => call.Fits s) (fanoutCoreInitialize capacity) (calls ++ [call])) :
    (run State.call (fanoutCoreInitialize capacity) (calls ++ [call])).records =
      call.effect (run State.call (fanoutCoreInitialize capacity) calls) := by
  obtain ⟨before,last⟩ := (along_append State.call _ _ calls [call]).mp fits
  rw [run_append]
  exact (settled_run room before).call_records last.1

/-- The removal merges the zones of a split. -/
theorem records_of_run_sixtyFour :
    (run State.call (fanoutCoreInitialize 64) (crowdedCalls ++ [.entityRemove 2])).records =
      Call.effect (run State.call (fanoutCoreInitialize 64) crowdedCalls) (.entityRemove 2) :=
  records_of_run 64 (by decide) _ _ ⟨fun _ _ _ => by decide +kernel,fun _ _ _ => by decide +kernel,
    fun _ _ _ => by decide +kernel,fun _ _ _ => by decide +kernel,trivial,trivial⟩

def State.Lists (s : State) (connId : UInt64) : Prop := ∃ entity ∈ s.records, entity.connId = connId

theorem State.Settled.lists_call {s : State} (settled : s.Settled) {call : Call} (fits : call.Fits s) {connId : UInt64}
    (listed : s.Lists connId) (other : call ≠ .entityRemove connId) : (s.call call).Lists connId := by
  obtain ⟨e,member,rfl⟩ := listed
  have filed (entity : EntityRecord) : ∃ e' ∈ s.filed entity, e'.connId = e.connId := by
    by_cases replaced : s.zoneWorld.Enters entity.connId entity.idx ∧ e.connId = entity.connId
    · exact ⟨entity,Or.inr ⟨replaced.1,rfl⟩,replaced.2.symm⟩
    · exact ⟨e,Or.inl ⟨member,fun enters same => replaced ⟨enters,same⟩⟩,rfl⟩
  unfold State.Lists
  rw [settled.call_records fits]
  cases call with
  | entityMove connId x y z => exact filed _
  | entityMoveV connId x y z vx vy vz rttTicks => exact filed _
  | entityRemove connId =>
    refine ⟨e,⟨member,?_⟩,rfl⟩
    rintro rfl
    exact other rfl

/-- No entity is lost: as long as the splits fit, a connection once listed stays listed until it is removed. -/
theorem listed_until_removed (capacity : UInt32) (room : 1 ≤ capacity) (calls later : List Call) (connId : UInt64)
    (fits : Along State.call (fun s call => call.Fits s) (fanoutCoreInitialize capacity) (calls ++ later))
    (listed : (run State.call (fanoutCoreInitialize capacity) calls).Lists connId) (kept : .entityRemove connId ∉ later) :
    (run State.call (fanoutCoreInitialize capacity) (calls ++ later)).Lists connId := by
  obtain ⟨before,after⟩ := (along_append State.call _ _ calls later).mp fits
  rw [run_append]
  have settled := settled_run room before
  generalize run State.call (fanoutCoreInitialize capacity) calls = s at listed after settled
  clear fits before
  induction later generalizing s with
  | nil => exact listed
  | cons call rest ih =>
    rw [List.mem_cons,not_or] at kept
    exact ih kept.2 (s.call call) (settled.lists_call after.1 listed (Ne.symm kept.1)) after.2 (settled.call after.1)

/-- Through a split and a merge. -/
theorem listed_until_removed_sixtyFour :
    (run State.call (fanoutCoreInitialize 64) ([.entityMove 1 0 0 0] ++ (crowdedCalls.drop 1 ++ [.entityRemove 2]))).Lists 1 := by
  refine listed_until_removed 64 (by decide) _ _ 1 ?_ ?_ (by simp [crowdedCalls])
  · exact ⟨fun _ _ _ => by decide +kernel,fun _ _ _ => by decide +kernel,fun _ _ _ => by decide +kernel,
      fun _ _ _ => by decide +kernel,trivial,trivial⟩
  · exact ⟨{connId := 1, idx := 0},⟨⟨0,1⟩,⟨⟨0,(1 : UInt64) <<< 63⟩,[{connId := 1, idx := 0}]⟩,by decide +kernel,by simp⟩,rfl⟩

end WarpLoop.Core
