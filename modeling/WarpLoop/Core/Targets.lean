import WarpLoop.Core.Occupancy
import Mathlib.Data.Set.Card

/-! Who hears a publisher. The zones scanned for interest are those next to the authority zone on the curve; since a
connection is listed in one zone only, nobody is named twice. -/
namespace WarpLoop.Core
open SlotMap Lib.Runs

/-! The zones next to a zone. -/

/-- `best` is the place of a qualifying entry with key `top`, and no qualifying entry has a key beyond it. -/
structure Scanned (qualifies : Zone × Nat → Prop) (key : Zone → UInt64) (beyond : UInt64 → UInt64 → Prop) (worst : UInt64)
    (entries : List (Zone × Nat)) (best : Option Nat) (top : UInt64) : Prop where
  found : ∀ i, best = some i → ∃ z, (z,i) ∈ entries ∧ qualifies (z,i) ∧ key z = top
  unfound : best = none → top = worst
  extreme : ∀ entry ∈ entries, qualifies entry → ¬ beyond (key entry.1) top

section Scan
variable {qualifies : Zone × Nat → Prop} {key : Zone → UInt64} {beyond : UInt64 → UInt64 → Prop} {worst : UInt64}
variable {entries : List (Zone × Nat)} {best : Option Nat} {top : UInt64}

theorem Scanned.skip (scanned : Scanned qualifies key beyond worst entries best top) (entry : Zone × Nat)
    (worse : qualifies entry → ¬ beyond (key entry.1) top) : Scanned qualifies key beyond worst (entries ++ [entry]) best top where
  found := by
    intro i chosen
    obtain ⟨z,member,rest⟩ := scanned.found i chosen
    exact ⟨z,List.mem_append_left _ member,rest⟩
  unfound := scanned.unfound
  extreme := by
    intro other member qualified
    rcases List.mem_append.mp member with old | new
    · exact scanned.extreme other old qualified
    · obtain rfl := List.mem_singleton.mp new
      exact worse qualified

theorem Scanned.take (scanned : Scanned qualifies key beyond worst entries best top) (entry : Zone × Nat)
    (qualified : qualifies entry) (better : ∀ v, beyond v (key entry.1) → beyond v top)
    (irrefl : ¬ beyond (key entry.1) (key entry.1)) :
    Scanned qualifies key beyond worst (entries ++ [entry]) (some entry.2) (key entry.1) where
  found := by
    rintro _ ⟨⟩
    exact ⟨entry.1,by simp,qualified,rfl⟩
  unfound := by simp
  extreme := by
    intro other member qualifiedOther
    rcases List.mem_append.mp member with old | new
    · exact fun past => scanned.extreme other old qualifiedOther (better _ past)
    · obtain rfl := List.mem_singleton.mp new
      exact irrefl

end Scan

/-- Zones other than the target that end before it, and those that begin after it. -/
def Precedes (target : Zone) (zoneIdx : Nat) (entry : Zone × Nat) : Prop :=
  entry.2 ≠ zoneIdx ∧ entry.1.range.stop ≤ target.range.start

def Follows (target : Zone) (zoneIdx : Nat) (entry : Zone × Nat) : Prop :=
  entry.2 ≠ zoneIdx ∧ target.range.stop ≤ entry.1.range.start

/-- What the scan for neighbours knows once it has visited `entries`. -/
structure Neighbours.Nearest (target : Zone) (zoneIdx : Nat) (entries : List (Zone × Nat)) (n : Neighbours) : Prop where
  before : Scanned (Precedes target zoneIdx) (fun z => z.range.stop) (· > ·) 0 entries n.before n.beforeStop
  after : Scanned (Follows target zoneIdx) (fun z => z.range.start) (· < ·) 0xFFFFFFFFFFFFFFFF entries n.after n.afterStart

theorem Neighbours.Nearest.visit {target : Zone} {zoneIdx : Nat} {entries : List (Zone × Nat)} {n : Neighbours}
    (nearest : n.Nearest target zoneIdx entries) (entry : Zone × Nat) :
    (n.visit target zoneIdx entry).Nearest target zoneIdx (entries ++ [entry]) := by
  obtain ⟨z,i⟩ := entry
  by_cases self : i = zoneIdx
  · rw [Neighbours.visit,if_pos self]
    exact ⟨nearest.before.skip _ (fun qualified => absurd self qualified.1),
      nearest.after.skip _ (fun qualified => absurd self qualified.1)⟩
  have takeBefore (better : (decide (z.range.stop ≤ target.range.start) && decide (z.range.stop > n.beforeStop)) = true) :
      Scanned (Precedes target zoneIdx) (fun z => z.range.stop) (· > ·) 0 (entries ++ [(z,i)]) (some i) z.range.stop := by
    simp only [Bool.and_eq_true,decide_eq_true_eq] at better
    exact nearest.before.take (z,i) ⟨self,better.1⟩ (fun v past => UInt64.lt_trans better.2 past) (UInt64.lt_irrefl _)
  have skipBefore (worse : ¬ (decide (z.range.stop ≤ target.range.start) && decide (z.range.stop > n.beforeStop)) = true) :
      Scanned (Precedes target zoneIdx) (fun z => z.range.stop) (· > ·) 0 (entries ++ [(z,i)]) n.before n.beforeStop :=
    nearest.before.skip (z,i) (fun qualified past => worse (by simp [qualified.2,past]))
  have takeAfter (better : (decide (z.range.start ≥ target.range.stop) && decide (z.range.start < n.afterStart)) = true) :
      Scanned (Follows target zoneIdx) (fun z => z.range.start) (· < ·) 0xFFFFFFFFFFFFFFFF (entries ++ [(z,i)]) (some i) z.range.start := by
    simp only [Bool.and_eq_true,decide_eq_true_eq] at better
    exact nearest.after.take (z,i) ⟨self,better.1⟩ (fun v past => UInt64.lt_trans past better.2) (UInt64.lt_irrefl _)
  have skipAfter (worse : ¬ (decide (z.range.start ≥ target.range.stop) && decide (z.range.start < n.afterStart)) = true) :
      Scanned (Follows target zoneIdx) (fun z => z.range.start) (· < ·) 0xFFFFFFFFFFFFFFFF (entries ++ [(z,i)]) n.after n.afterStart :=
    nearest.after.skip (z,i) (fun qualified past => worse (by simp [qualified.2,past]))
  rw [Neighbours.visit,if_neg self]
  dsimp only
  by_cases closer : (decide (z.range.stop ≤ target.range.start) && decide (z.range.stop > n.beforeStop)) = true <;>
    by_cases sooner : (decide (z.range.start ≥ target.range.stop) && decide (z.range.start < n.afterStart)) = true
  · simp only [closer,sooner,if_true]
    exact ⟨takeBefore closer,takeAfter sooner⟩
  · simp only [closer,sooner,Bool.false_eq_true,if_true,if_false]
    exact ⟨takeBefore closer,skipAfter sooner⟩
  · simp only [closer,sooner,Bool.false_eq_true,if_true,if_false]
    exact ⟨skipBefore closer,takeAfter sooner⟩
  · simp only [closer,sooner,Bool.false_eq_true,if_false]
    exact ⟨skipBefore closer,skipAfter sooner⟩

theorem foldl_visit {target : Zone} {zoneIdx : Nat} (rest : List (Zone × Nat)) {seen : List (Zone × Nat)} {n : Neighbours}
    (nearest : n.Nearest target zoneIdx seen) :
    (rest.foldl (Neighbours.visit target zoneIdx) n).Nearest target zoneIdx (seen ++ rest) := by
  induction rest generalizing seen n with
  | nil => rwa [List.append_nil]
  | cons entry rest ih =>
    have next := ih (nearest.visit entry)
    rwa [List.append_assoc] at next

/-- Where the neighbours of a zone are found. -/
theorem adjacentZones_eq {zones : List Zone} {zoneIdx : Nat} {target : Zone} (here : zones[zoneIdx]? = some target) :
    ∃ n : Neighbours, n.Nearest target zoneIdx zones.zipIdx ∧ adjacentZones zones zoneIdx = n.before.toList ++ n.after.toList := by
  have start : Neighbours.Nearest target zoneIdx [] ⟨none,0,none,0xFFFFFFFFFFFFFFFF⟩ :=
    ⟨⟨by simp,by simp,by simp⟩,⟨by simp,by simp,by simp⟩⟩
  refine ⟨zones.zipIdx.foldl (Neighbours.visit target zoneIdx) ⟨none,0,none,0xFFFFFFFFFFFFFFFF⟩,?_,?_⟩
  · exact foldl_visit zones.zipIdx start
  · simp only [adjacentZones,here]

/-! The loops over the neighbours, which count what they add. -/

namespace ZoneWorld

/-- The test that makes an entity of a neighbouring zone a target. -/
def Publisher.sees (p : Publisher) (publisherConnId : UInt64) (entity : EntityRecord) : Bool :=
  entity.connId != publisherConnId &&
    withinGhostRange p.pos p.vx p.vy p.vz p.k entity.pos entity.vx entity.vy entity.vz entity.lookaheadTicks

theorem foldl_addInterest (publisherConnId : UInt64) (p : Publisher) (entities : List EntityRecord) (targets : List UInt64)
    (count : Nat) : entities.foldl (addInterest publisherConnId p) (targets,count) =
      let new := ((entities.filter (p.sees publisherConnId)).map EntityRecord.connId).take (interestCapacity - count)
      (targets ++ new,count + new.length) := by
  induction entities generalizing targets count with
  | nil => simp
  | cons entity rest ih =>
    rw [List.foldl_cons]
    by_cases room : count < interestCapacity
    · by_cases seen : p.sees publisherConnId entity = true
      · have added : addInterest publisherConnId p (targets,count) entity = (targets ++ [entity.connId],count + 1) := by
          unfold addInterest
          rw [if_pos room]
          exact if_pos seen
        obtain ⟨left,rest_room⟩ : ∃ left, interestCapacity - count = left + 1 := ⟨interestCapacity - count - 1,by omega⟩
        rw [added,ih,List.filter_cons_of_pos seen,List.map_cons,rest_room,List.take_succ_cons,
          show interestCapacity - (count + 1) = left by omega]
        simp only [List.append_assoc,List.singleton_append,List.length_cons,Prod.mk.injEq,true_and]
        omega
      · have kept : addInterest publisherConnId p (targets,count) entity = (targets,count) := by
          unfold addInterest
          rw [if_pos room]
          exact if_neg seen
        rw [kept,ih,List.filter_cons_of_neg seen]
    · have full : interestCapacity - count = 0 := by omega
      have kept : addInterest publisherConnId p (targets,count) entity = (targets,count) := by
        unfold addInterest
        rw [if_neg room]
      rw [kept,ih,full]
      simp

def entitiesAt (plain : List Zone) (j : Nat) : List EntityRecord := (plain[j]?.map Zone.entities).getD []

theorem mem_entitiesAt {plain : List Zone} {j : Nat} {e : EntityRecord} :
    e ∈ entitiesAt plain j ↔ ∃ z, plain[j]? = some z ∧ e ∈ z.entities := by
  unfold entitiesAt
  cases plain[j]? <;> simp

/-- The entities of the neighbours that the publisher sees, in the order of the scan. -/
def candidates (plain : List Zone) (publisherConnId : UInt64) (p : Publisher) (js : List Nat) : List EntityRecord :=
  (js.flatMap (entitiesAt plain)).filter (p.sees publisherConnId)

theorem foldl_addAdjacent (plain : List Zone) (publisherConnId : UInt64) (p : Publisher) (js : List Nat) (targets : List UInt64)
    (count : Nat) : js.foldl (addAdjacent plain publisherConnId p) (targets,count) =
      let new := ((candidates plain publisherConnId p js).map EntityRecord.connId).take (interestCapacity - count)
      (targets ++ new,count + new.length) := by
  induction js generalizing targets count with
  | nil => simp [candidates]
  | cons j rest ih =>
    have one : addAdjacent plain publisherConnId p (targets,count) j =
        (entitiesAt plain j).foldl (addInterest publisherConnId p) (targets,count) := by
      unfold addAdjacent entitiesAt
      split
      · cases plain[j]? <;> rfl
      · rename_i full
        rw [foldl_addInterest,Nat.sub_eq_zero_of_le (Nat.not_lt.mp full)]
        simp
    rw [List.foldl_cons,one,foldl_addInterest,ih]
    simp only [candidates,List.flatMap_cons,List.filter_append,List.map_append,List.take_append,List.append_assoc,
      List.length_append,List.length_take,Prod.mk.injEq,List.append_cancel_left_eq]
    constructor
    · congr 1
      omega
    · omega

/-- The publish loops without their counters. -/
theorem targetsForIndex_eq {w : ZoneWorld} {idx : UInt64} {i : Nat} {zone : Zone}
    (authority : Core.authorityForIndex (w.liveZones.map Prod.snd) idx = some i)
    (here : (w.liveZones.map Prod.snd)[i]? = some zone) (publisherConnId : UInt64) :
    w.targetsForIndex publisherConnId idx = (zone.entities.map EntityRecord.connId).filter (· != publisherConnId) ++
      ((candidates (w.liveZones.map Prod.snd) publisherConnId (publisherIn zone publisherConnId)
        (adjacentZones (w.liveZones.map Prod.snd) i)).map EntityRecord.connId).take interestCapacity := by
  simp only [targetsForIndex,authority,here,foldl_addAdjacent,Nat.sub_zero]

section Occupied
variable {w : ZoneWorld} (occupied : Occupied w.zones)
include occupied

theorem live_at {j : Nat} {z : Zone} (here : (w.liveZones.map Prod.snd)[j]? = some z) :
    ∃ id, w.liveZones[j]? = some (id,z) ∧ w.zones.find id = some z := by
  rw [List.getElem?_map] at here
  obtain ⟨⟨id,z'⟩,entry,rfl⟩ := Option.map_eq_some_iff.mp here
  exact ⟨id,entry,(mem_liveEntries occupied.wf id z').mp (List.mem_of_getElem? entry)⟩

theorem place_of_id {j k : Nat} {id : Id} {z z' : Zone} (entry : w.liveZones[j]? = some (id,z))
    (entry' : w.liveZones[k]? = some (id,z')) : j = k := by
  have key {j : Nat} {z : Zone} (entry : w.liveZones[j]? = some (id,z)) : (w.zones.liveEntries.map Prod.fst)[j]? = some id := by
    rw [List.getElem?_map]
    exact congrArg (Option.map Prod.fst) entry
  obtain ⟨bound,_⟩ := List.getElem?_eq_some_iff.mp (key entry)
  exact (List.getElem?_inj bound (liveEntries_keys_nodup occupied.wf)).mp ((key entry).trans (key entry').symm)

/-- A connection is found at one place only. -/
theorem place_unique {j k : Nat} {z z' : Zone} {connId : UInt64} (here : (w.liveZones.map Prod.snd)[j]? = some z)
    (there : (w.liveZones.map Prod.snd)[k]? = some z') (listed : z.holds connId = true) (listed' : z'.holds connId = true) :
    j = k := by
  obtain ⟨id,entry,found⟩ := live_at occupied here
  obtain ⟨id',entry',found'⟩ := live_at occupied there
  obtain rfl := occupied.one id z id' z' connId found found' listed listed'
  exact place_of_id occupied entry entry'

variable {i : Nat} {zone : Zone} {idx : UInt64} (here : (w.liveZones.map Prod.snd)[i]? = some zone)
  (owns : zone.range.contains idx = true)
include here

/-- The neighbours list nobody whom the zone lists. -/
theorem adjacent_apart {j : Nat} (adjacent : j ∈ adjacentZones (w.liveZones.map Prod.snd) i) {e e' : EntityRecord}
    (mate : e ∈ zone.entities) (listed : e' ∈ entitiesAt (w.liveZones.map Prod.snd) j) : e.connId ≠ e'.connId := by
  intro same
  obtain ⟨n,nearest,js⟩ := adjacentZones_eq here
  obtain ⟨z,there,member⟩ := mem_entitiesAt.mp listed
  have self := place_unique occupied there here (holds_of_mem member) (same ▸ holds_of_mem mate)
  rw [js,List.mem_append,Option.mem_toList,Option.mem_toList] at adjacent
  rcases adjacent with before | after
  · obtain ⟨_,_,qualified,_⟩ := nearest.before.found j before
    exact qualified.1 self
  · obtain ⟨_,_,qualified,_⟩ := nearest.after.found j after
    exact qualified.1 self

include owns
theorem adjacent_nodup : (((adjacentZones (w.liveZones.map Prod.snd) i).flatMap (entitiesAt (w.liveZones.map Prod.snd))).map
    EntityRecord.connId).Nodup := by
  obtain ⟨n,nearest,js⟩ := adjacentZones_eq here
  have each (j : Nat) : ((entitiesAt (w.liveZones.map Prod.snd) j).map EntityRecord.connId).Nodup := by
    unfold entitiesAt
    cases there : (w.liveZones.map Prod.snd)[j]? with
    | none => simp
    | some z =>
      obtain ⟨id,_,found⟩ := live_at occupied there
      exact (occupied.tidy id z found).once
  rw [js]
  cases before : n.before with
  | none =>
    cases after : n.after with
    | none => simp
    | some a => simpa using each a
  | some b =>
    cases after : n.after with
    | none => simpa using each b
    | some a =>
      simp only [Option.toList_some,List.cons_append,List.nil_append,List.flatMap_cons,List.flatMap_nil,List.append_nil,
        List.map_append,List.nodup_append]
      refine ⟨each b,each a,?_⟩
      intro connId listed other listed' same
      obtain ⟨e,first,rfl⟩ := List.mem_map.mp listed
      obtain ⟨e',second,rfl⟩ := List.mem_map.mp listed'
      obtain ⟨z,there,member⟩ := mem_entitiesAt.mp first
      obtain ⟨z',there',member'⟩ := mem_entitiesAt.mp second
      -- The same zone could only be found on both sides if its range ran backwards, and then it would be empty.
      obtain rfl := place_unique occupied there there' (holds_of_mem member) (same ▸ holds_of_mem member')
      obtain ⟨x,entry,ends,_⟩ := nearest.before.found _ before
      obtain ⟨y,entry',begins,_⟩ := nearest.after.found _ after
      obtain rfl := Option.some.inj ((List.mem_zipIdx_iff_getElem?.mp entry).symm.trans there)
      obtain rfl := Option.some.inj ((List.mem_zipIdx_iff_getElem?.mp entry').symm.trans there)
      obtain ⟨id,_,found⟩ := live_at occupied there
      have inside := (occupied.tidy id _ found).inside e member
      have stop := ends.2
      have start := begins.2
      simp only [ZoneRange.contains,Bool.and_eq_true,decide_eq_true_eq,UInt64.le_iff_toNat_le,UInt64.lt_iff_toNat_lt] at inside owns stop start
      omega

omit occupied here owns in
theorem authorityForIndex_place {idx : UInt64} {id : Id} (authority : w.authorityForIndex idx = some id) :
    ∃ i zone, Core.authorityForIndex (w.liveZones.map Prod.snd) idx = some i ∧ w.liveZones[i]? = some (id,zone) ∧
      zone.range.contains idx = true := by
  unfold authorityForIndex at authority
  split at authority
  · cases authority
  · rename_i i place
    obtain ⟨⟨id',zone⟩,entry,rfl⟩ := Option.map_eq_some_iff.mp authority
    obtain ⟨bound,covers,_⟩ := List.findIdx?_eq_some_iff_getElem.mp place
    have same := (List.getElem?_eq_some_iff.mp entry).2
    exact ⟨i,zone,place,entry,by simpa [same] using covers⟩

end Occupied

/-- Whom a publish at an index reaches. -/
structure Audience (w : ZoneWorld) (publisherConnId idx : UInt64) (targets : List UInt64) : Prop where
  nodup : targets.Nodup
  others : publisherConnId ∉ targets
  nobody : w.authorityForIndex idx = none → targets = []
  mates : ∀ id zone, w.authorityForIndex idx = some id → w.zones.find id = some zone →
    ∀ entity ∈ zone.entities, entity.connId ≠ publisherConnId → entity.connId ∈ targets
  listed : ∀ connId ∈ targets, ∃ entity, Recorded w.zones entity ∧ entity.connId = connId
  bounded : targets.length ≤ authorityCapacity + interestCapacity

theorem targetsForIndex_nobody {w : ZoneWorld} {idx : UInt64} (nowhere : w.authorityForIndex idx = none) (publisherConnId : UInt64) :
    w.targetsForIndex publisherConnId idx = [] := by
  unfold authorityForIndex at nowhere
  unfold targetsForIndex
  dsimp only
  split at nowhere
  · rfl
  · rename_i i place
    rw [Option.map_eq_none_iff] at nowhere
    simp [nowhere]

theorem mem_candidates {plain : List Zone} {publisherConnId : UInt64} {p : Publisher} {js : List Nat} {e : EntityRecord} :
    e ∈ candidates plain publisherConnId p js ↔
      (∃ j ∈ js, ∃ z, plain[j]? = some z ∧ e ∈ z.entities) ∧ p.sees publisherConnId e = true := by
  simp only [candidates,List.mem_filter,List.mem_flatMap,mem_entitiesAt]

theorem ne_of_sees {p : Publisher} {publisherConnId : UInt64} {e : EntityRecord} (seen : p.sees publisherConnId e = true) :
    e.connId ≠ publisherConnId := by
  rw [Publisher.sees,Bool.and_eq_true,bne_iff_ne] at seen
  exact seen.1

theorem Occupied.audience {w : ZoneWorld} (occupied : Occupied w.zones) (publisherConnId idx : UInt64) :
    w.Audience publisherConnId idx (w.targetsForIndex publisherConnId idx) := by
  cases authority : w.authorityForIndex idx with
  | none =>
    rw [targetsForIndex_nobody authority]
    exact ⟨List.nodup_nil,List.not_mem_nil,fun _ => rfl,by simp [authority],by simp,Nat.zero_le _⟩
  | some id =>
    obtain ⟨i,zone,place,entry,owns⟩ := authorityForIndex_place authority
    have here : (w.liveZones.map Prod.snd)[i]? = some zone := by rw [List.getElem?_map,entry]; rfl
    have found := (mem_liveEntries occupied.wf id zone).mp (List.mem_of_getElem? entry)
    have tidy := occupied.tidy id zone found
    rw [targetsForIndex_eq place here]
    refine ⟨?_,?_,by simp [authority],?_,?_,?_⟩
    · rw [List.nodup_append]
      refine ⟨tidy.once.filter _,?_,?_⟩
      · have distinct := adjacent_nodup occupied here owns
        exact (distinct.sublist (List.filter_sublist.map _)).sublist (List.take_sublist _ _)
      · intro connId mate other listed same
        obtain ⟨e,member,rfl⟩ := List.mem_map.mp (List.mem_filter.mp mate).1
        obtain ⟨e',candidate,rfl⟩ := List.mem_map.mp (List.mem_of_mem_take listed)
        obtain ⟨⟨j,adjacent,z,there,member'⟩,_⟩ := mem_candidates.mp candidate
        exact adjacent_apart occupied here adjacent member (mem_entitiesAt.mpr ⟨z,there,member'⟩) same
    · rw [List.mem_append]
      rintro (mate | listed)
      · simpa using (List.mem_filter.mp mate).2
      · obtain ⟨e,candidate,same⟩ := List.mem_map.mp (List.mem_of_mem_take listed)
        exact ne_of_sees (mem_candidates.mp candidate).2 same
    · intro id' zone' authority' found' entity member other
      obtain rfl := Option.some.inj (authority.symm.trans authority')
      obtain rfl := Option.some.inj (found.symm.trans found')
      exact List.mem_append_left _ (List.mem_filter.mpr ⟨List.mem_map_of_mem member,by simpa using other⟩)
    · intro connId target
      rcases List.mem_append.mp target with mate | listed
      · obtain ⟨e,member,same⟩ := List.mem_map.mp (List.mem_filter.mp mate).1
        exact ⟨e,⟨id,zone,found,member⟩,same⟩
      · obtain ⟨e,candidate,same⟩ := List.mem_map.mp (List.mem_of_mem_take listed)
        obtain ⟨⟨j,_,z,there,member⟩,_⟩ := mem_candidates.mp candidate
        obtain ⟨id',_,found'⟩ := live_at occupied there
        exact ⟨e,⟨id',z,found',member⟩,same⟩
    · rw [List.length_append]
      apply Nat.add_le_add
      · exact Nat.le_trans (List.length_filter_le _ _) (by rw [List.length_map]; exact tidy.room)
      · exact List.length_take_le _ _

end ZoneWorld

/-- After any calls of the interface with any arguments, the targets of a publish at any position name nobody twice
and never the publisher, they include everyone else in the authority zone, and there are at most 656 of them. -/
theorem zoneTargets_audience (capacity : UInt32) (calls : List FfiCall) (publisherConnId : UInt64) (x y z : Int64) :
    let s := run State.apply (Ffi.init capacity) calls
    s.zoneWorld.Audience publisherConnId (hilbert3D s.zoneWorld.bits ⟨x,y,z⟩) (Ffi.zoneTargets s publisherConnId x y z) :=
  (occupied_of_calls capacity calls).audience publisherConnId _

/-! On a tiled curve the neighbours are the zones that meet the authority zone. -/

namespace ZoneWorld

section Tiled
variable {w : ZoneWorld} (cover : w.Cover (Set.Iio (2^63))) (occupied : Occupied w.zones)

include cover in
theorem exists_place {n : Nat} (inside : n < 2^63) :
    ∃ (k : Nat) (z : Zone), (w.liveZones.map Prod.snd)[k]? = some z ∧ n ∈ z.range.points := by
  obtain ⟨⟨id,z⟩,member,point⟩ := (cover.live_points n).mpr inside
  obtain ⟨k,bound,entry⟩ := List.mem_iff_getElem.mp member
  refine ⟨k,z,?_,point⟩
  rw [List.getElem?_map,List.getElem?_eq_getElem bound,entry]
  rfl

include cover occupied

/-- An index lies in the zone at one place only. -/
theorem place_of_point {j k : Nat} {z z' : Zone} (here : (w.liveZones.map Prod.snd)[j]? = some z)
    (there : (w.liveZones.map Prod.snd)[k]? = some z') {n : Nat} (inside : n ∈ z.range.points) (inside' : n ∈ z'.range.points) :
    j = k := by
  obtain ⟨id,entry,found⟩ := live_at occupied here
  obtain ⟨id',entry',found'⟩ := live_at occupied there
  by_cases same : id = id'
  · subst same
    exact place_of_id occupied entry entry'
  · have points : cells w.zones id = some z.range.points := by simp [cells,found]
    have points' : cells w.zones id' = some z'.range.points := by simp [cells,found']
    exact absurd inside' (Set.disjoint_left.mp (cover.tiles.disjoint id id' _ _ points points' same) inside)

theorem range_at {j : Nat} {z : Zone} (here : (w.liveZones.map Prod.snd)[j]? = some z) :
    z.range.start.toNat < z.range.stop.toNat ∧ z.range.stop.toNat ≤ 2^63 := by
  obtain ⟨id,_,found⟩ := live_at occupied here
  obtain ⟨e,k,cell⟩ := cover.octree id z found
  have point := cell.nonempty
  simp only [ZoneRange.points,Set.mem_Ico] at point
  exact ⟨by omega,by rw [cell.stop]; exact cell.inside⟩

/-- Two zones on a tiled curve are the same, or one ends before the other begins. -/
theorem apart_at {j k : Nat} {z z' : Zone} (here : (w.liveZones.map Prod.snd)[j]? = some z)
    (there : (w.liveZones.map Prod.snd)[k]? = some z') (other : j ≠ k) :
    z.range.stop.toNat ≤ z'.range.start.toNat ∨ z'.range.stop.toNat ≤ z.range.start.toNat := by
  obtain ⟨proper,_⟩ := range_at cover occupied here
  obtain ⟨proper',_⟩ := range_at cover occupied there
  by_contra overlap
  rw [not_or,Nat.not_le,Nat.not_le] at overlap
  apply other
  apply place_of_point cover occupied here there (n := max z.range.start.toNat z'.range.start.toNat)
  · simp only [ZoneRange.points,Set.mem_Ico]
    omega
  · simp only [ZoneRange.points,Set.mem_Ico]
    omega

variable {i : Nat} {zone : Zone} (here : (w.liveZones.map Prod.snd)[i]? = some zone)
include here

theorem before_iff {n : Neighbours} (nearest : n.Nearest zone i (w.liveZones.map Prod.snd).zipIdx) (j : Nat) : n.before = some j ↔
    ∃ z, (w.liveZones.map Prod.snd)[j]? = some z ∧ z.range.stop = zone.range.start := by
  obtain ⟨proper,small⟩ := range_at cover occupied here
  constructor
  · intro before
    obtain ⟨z,entry,⟨other,ends⟩,top⟩ := nearest.before.found j before
    have there : (w.liveZones.map Prod.snd)[j]? = some z := List.mem_zipIdx_iff_getElem?.mp entry
    obtain ⟨properZ,_⟩ := range_at cover occupied there
    refine ⟨z,there,?_⟩
    dsimp only at ends top
    rw [UInt64.le_iff_toNat_le] at ends
    -- The zone that owns the index just before this one is as close as any.
    obtain ⟨k,z',found,owns⟩ := exists_place cover (show zone.range.start.toNat - 1 < 2^63 by omega)
    simp only [ZoneRange.points,Set.mem_Ico] at owns
    have elsewhere : k ≠ i := by
      rintro rfl
      obtain rfl := Option.some.inj (found.symm.trans here)
      omega
    have apart := apart_at cover occupied found here elsewhere
    have closest := nearest.before.extreme (z',k) (List.mem_zipIdx_iff_getElem?.mpr found)
      ⟨elsewhere,by dsimp only; rw [UInt64.le_iff_toNat_le]; omega⟩
    dsimp only at closest
    rw [← top,gt_iff_lt,UInt64.lt_iff_toNat_lt,Nat.not_lt] at closest
    apply UInt64.toNat_inj.mp
    omega
  · rintro ⟨z,there,meets⟩
    obtain ⟨properZ,_⟩ := range_at cover occupied there
    have meets' := congrArg UInt64.toNat meets
    have elsewhere : j ≠ i := by
      rintro rfl
      obtain rfl := Option.some.inj (there.symm.trans here)
      omega
    have closest := nearest.before.extreme (z,j) (List.mem_zipIdx_iff_getElem?.mpr there)
      ⟨elsewhere,by dsimp only; rw [meets]; exact UInt64.le_refl _⟩
    dsimp only at closest
    rw [gt_iff_lt,UInt64.lt_iff_toNat_lt,Nat.not_lt] at closest
    cases before : n.before with
    | none =>
      rw [nearest.before.unfound before,UInt64.toNat_zero] at closest
      omega
    | some b =>
      obtain ⟨z',entry,⟨_,ends⟩,top⟩ := nearest.before.found b before
      have found : (w.liveZones.map Prod.snd)[b]? = some z' := List.mem_zipIdx_iff_getElem?.mp entry
      obtain ⟨properZ',_⟩ := range_at cover occupied found
      dsimp only at ends top
      rw [UInt64.le_iff_toNat_le] at ends
      rw [← top] at closest
      congr 1
      apply place_of_point cover occupied found there (n := zone.range.start.toNat - 1) <;>
        simp only [ZoneRange.points,Set.mem_Ico] <;> omega

theorem after_iff {n : Neighbours} (nearest : n.Nearest zone i (w.liveZones.map Prod.snd).zipIdx) (j : Nat) : n.after = some j ↔
    ∃ z, (w.liveZones.map Prod.snd)[j]? = some z ∧ z.range.start = zone.range.stop := by
  obtain ⟨proper,small⟩ := range_at cover occupied here
  constructor
  · intro after
    obtain ⟨z,entry,⟨other,begins⟩,top⟩ := nearest.after.found j after
    have there : (w.liveZones.map Prod.snd)[j]? = some z := List.mem_zipIdx_iff_getElem?.mp entry
    obtain ⟨properZ,smallZ⟩ := range_at cover occupied there
    refine ⟨z,there,?_⟩
    dsimp only at begins top
    rw [UInt64.le_iff_toNat_le] at begins
    obtain ⟨k,z',found,owns⟩ := exists_place cover (show zone.range.stop.toNat < 2^63 by omega)
    simp only [ZoneRange.points,Set.mem_Ico] at owns
    have elsewhere : k ≠ i := by
      rintro rfl
      obtain rfl := Option.some.inj (found.symm.trans here)
      omega
    have apart := apart_at cover occupied found here elsewhere
    have closest := nearest.after.extreme (z',k) (List.mem_zipIdx_iff_getElem?.mpr found)
      ⟨elsewhere,by dsimp only; rw [UInt64.le_iff_toNat_le]; omega⟩
    dsimp only at closest
    rw [← top,UInt64.lt_iff_toNat_lt,Nat.not_lt] at closest
    apply UInt64.toNat_inj.mp
    omega
  · rintro ⟨z,there,meets⟩
    obtain ⟨properZ,smallZ⟩ := range_at cover occupied there
    have meets' := congrArg UInt64.toNat meets
    have elsewhere : j ≠ i := by
      rintro rfl
      obtain rfl := Option.some.inj (there.symm.trans here)
      omega
    have closest := nearest.after.extreme (z,j) (List.mem_zipIdx_iff_getElem?.mpr there)
      ⟨elsewhere,by dsimp only; rw [meets]; exact UInt64.le_refl _⟩
    dsimp only at closest
    rw [UInt64.lt_iff_toNat_lt,Nat.not_lt] at closest
    cases after : n.after with
    | none =>
      have last : n.afterStart.toNat = 2^64 - 1 := congrArg UInt64.toNat (nearest.after.unfound after)
      omega
    | some a =>
      obtain ⟨z',entry,⟨_,begins⟩,top⟩ := nearest.after.found a after
      have found : (w.liveZones.map Prod.snd)[a]? = some z' := List.mem_zipIdx_iff_getElem?.mp entry
      obtain ⟨properZ',_⟩ := range_at cover occupied found
      dsimp only at begins top
      rw [UInt64.le_iff_toNat_le] at begins
      rw [← top] at closest
      congr 1
      apply place_of_point cover occupied found there (n := zone.range.stop.toNat) <;>
        simp only [ZoneRange.points,Set.mem_Ico] <;> omega

theorem adjacent_iff (j : Nat) : j ∈ adjacentZones (w.liveZones.map Prod.snd) i ↔
    ∃ z, (w.liveZones.map Prod.snd)[j]? = some z ∧ (z.range.stop = zone.range.start ∨ z.range.start = zone.range.stop) := by
  obtain ⟨n,nearest,js⟩ := adjacentZones_eq here
  rw [js,List.mem_append,Option.mem_toList,Option.mem_toList,
    before_iff cover occupied here nearest,after_iff cover occupied here nearest]
  constructor
  · rintro (⟨z,there,meets⟩ | ⟨z,there,meets⟩)
    · exact ⟨z,there,Or.inl meets⟩
    · exact ⟨z,there,Or.inr meets⟩
  · rintro ⟨z,there,meets | meets⟩
    · exact Or.inl ⟨z,there,meets⟩
    · exact Or.inr ⟨z,there,meets⟩

end Tiled

theorem ncard_mem {α : Type} [DecidableEq α] {l : List α} (nodup : l.Nodup) : {a | a ∈ l}.ncard = l.length := by
  rw [← List.coe_toFinset,Set.ncard_coe_finset,List.toFinset_card_of_nodup nodup]

/-- The connection has an entity in a zone that meets `zone` on the curve, and the publisher sees it. -/
def Interested (w : ZoneWorld) (zone : Zone) (publisherConnId connId : UInt64) : Prop :=
  ∃ id z, w.zones.find id = some z ∧ (z.range.stop = zone.range.start ∨ z.range.start = zone.range.stop) ∧
    ∃ entity ∈ z.entities, entity.connId = connId ∧
      (publisherIn zone publisherConnId).sees publisherConnId entity = true

/-- The targets are the others in the zone and, of those who are interested, all or as many as there is room for. -/
theorem targets_exact {w : ZoneWorld} (cover : w.Cover (Set.Iio (2^63))) (occupied : Occupied w.zones) {idx : UInt64}
    {id : Id} {zone : Zone} (authority : w.authorityForIndex idx = some id) (found : w.zones.find id = some zone)
    (publisherConnId : UInt64) : ∃ heard : Set UInt64, heard ⊆ {c | w.Interested zone publisherConnId c} ∧
      heard.ncard = min interestCapacity {c | w.Interested zone publisherConnId c}.ncard ∧
      ∀ c, c ∈ w.targetsForIndex publisherConnId idx ↔ c ≠ publisherConnId ∧ zone.holds c = true ∨ c ∈ heard := by
  obtain ⟨i,zone',place,entry,owns⟩ := authorityForIndex_place authority
  have found' := (mem_liveEntries occupied.wf id zone').mp (List.mem_of_getElem? entry)
  obtain rfl := Option.some.inj (found'.symm.trans found)
  have here : (w.liveZones.map Prod.snd)[i]? = some zone' := by rw [List.getElem?_map,entry]; rfl
  rw [targetsForIndex_eq place here]
  generalize listed : (candidates (w.liveZones.map Prod.snd) publisherConnId (publisherIn zone' publisherConnId)
    (adjacentZones (w.liveZones.map Prod.snd) i)).map EntityRecord.connId = l
  have nodup : l.Nodup := by
    rw [← listed]
    exact (adjacent_nodup occupied here owns).sublist (List.filter_sublist.map _)
  have interested : {c | w.Interested zone' publisherConnId c} = {c | c ∈ l} := by
    ext c
    rw [← listed]
    simp only [Set.mem_ofPred_eq,List.mem_map,mem_candidates]
    constructor
    · rintro ⟨id',z,live,meets,e,member,rfl,seen⟩
      obtain ⟨j,there⟩ := List.mem_iff_getElem?.mp ((mem_liveEntries occupied.wf id' z).mpr live)
      have there : (w.liveZones.map Prod.snd)[j]? = some z := by
        rw [List.getElem?_map]
        exact congrArg (Option.map Prod.snd) there
      exact ⟨e,⟨⟨j,(adjacent_iff cover occupied here j).mpr ⟨z,there,meets⟩,z,there,member⟩,seen⟩,rfl⟩
    · rintro ⟨e,⟨⟨j,adjacent,z,there,member⟩,seen⟩,rfl⟩
      obtain ⟨z',there',meets⟩ := (adjacent_iff cover occupied here j).mp adjacent
      obtain rfl := Option.some.inj (there'.symm.trans there)
      obtain ⟨id',_,live⟩ := live_at occupied there'
      exact ⟨id',z',live,meets,e,member,rfl,seen⟩
  refine ⟨{c | c ∈ l.take interestCapacity},?_,?_,?_⟩
  · rw [interested]
    exact fun c member => List.mem_of_mem_take member
  · rw [interested,ncard_mem nodup,ncard_mem (nodup.sublist (List.take_sublist _ _)),List.length_take]
  · intro c
    rw [List.mem_append,List.mem_filter,bne_iff_ne,and_comm,Zone.holds_iff]
    simp only [List.mem_map,Set.mem_ofPred_eq]

end ZoneWorld

/-- From the server's start, as long as the splits fit, a position has an authority zone, and a publish there reaches
exactly the others in that zone and those whom the publisher sees in the zones that meet it on the curve; if these
are more than 400, then 400 of them. -/
theorem zoneTargets_exact (capacity : UInt32) (room : 1 ≤ capacity) (calls : List Call)
    (fits : Along State.call (fun s call => call.Fits s) (fanoutCoreInitialize capacity) calls) (publisherConnId : UInt64)
    (x y z : Int64) :
    let s := run State.call (fanoutCoreInitialize capacity) calls
    ∃ id zone, s.zoneWorld.authorityFor ⟨x,y,z⟩ = some id ∧ s.zoneWorld.zones.find id = some zone ∧
      ∃ heard : Set UInt64, heard ⊆ {c | s.zoneWorld.Interested zone publisherConnId c} ∧
        heard.ncard = min interestCapacity {c | s.zoneWorld.Interested zone publisherConnId c}.ncard ∧
        ∀ c, c ∈ Ffi.zoneTargets s publisherConnId x y z ↔ c ≠ publisherConnId ∧ zone.holds c = true ∨ c ∈ heard := by
  intro s
  obtain ⟨covered,occupied⟩ : s.Settled := settled_run room fits
  obtain ⟨id,authority⟩ := Option.isSome_iff_exists.mp (covered.tiled.authority ⟨x,y,z⟩)
  obtain ⟨zone,found,_⟩ := ZoneWorld.authorityForIndex_some occupied.wf _ id authority
  exact ⟨id,zone,authority,found,ZoneWorld.targets_exact covered occupied authority found publisherConnId⟩

/-- After a split, with four zones of one entity each. -/
theorem zoneTargets_exact_four :
    let s := run State.call (fanoutCoreInitialize 64) crowdedCalls
    ∃ id zone, s.zoneWorld.authorityFor ⟨0,0,0⟩ = some id ∧ s.zoneWorld.zones.find id = some zone ∧
      ∃ heard : Set UInt64, heard ⊆ {c | s.zoneWorld.Interested zone 1 c} ∧
        heard.ncard = min interestCapacity {c | s.zoneWorld.Interested zone 1 c}.ncard ∧
        ∀ c, c ∈ Ffi.zoneTargets s 1 0 0 0 ↔ c ≠ 1 ∧ zone.holds c = true ∨ c ∈ heard :=
  zoneTargets_exact 64 (by decide) crowdedCalls ⟨fun _ _ _ => by decide +kernel,fun _ _ _ => by decide +kernel,
    fun _ _ _ => by decide +kernel,fun _ _ _ => by decide +kernel,trivial⟩ 1 0 0 0

end WarpLoop.Core
