import WarpLoop.Core.SlotMap
import WarpLoop.Lib.Runs
import Mathlib.Algebra.Group.Nat.Defs
import Mathlib.Data.List.Nodup
import Mathlib.Data.List.Perm.Basic
import Mathlib.Data.List.Perm.Subperm

/-! The slot map refines a finite map of live ids. The representation invariant
ties the free list to the unoccupied indices; under it every operation acts on
`find` as the corresponding operation on an association list does, whatever ids
the caller hands in. -/
namespace WarpLoop.Core.SlotMap
open Lib.Runs

variable {α : Type}

/-- The free list holds every unoccupied index exactly once. -/
structure Wf (m : SlotMap α) : Prop where
  bound : m.slots.length ≤ 2^32
  nodup : m.freeList.Nodup
  free_iff : ∀ i : UInt32, i ∈ m.freeList ↔ ∃ g, m.slots[i.toNat]? = some (g,none)

theorem find_eq_some (m : SlotMap α) (id : Id) (v : α) :
    m.find id = some v ↔ m.slots[id.index.toNat]? = some (id.generation,some v) := by
  unfold find
  split
  · rename_i g stored found
    rw [found]
    by_cases same : g = id.generation
    · simp [same]
    · simp [same]
  · rename_i absent
    simp [absent]

theorem find_eq_none (m : SlotMap α) (id : Id) :
    m.find id = none ↔ ∀ v, m.slots[id.index.toNat]? ≠ some (id.generation,some v) := by
  rw [Option.eq_none_iff_forall_ne_some]
  exact forall_congr' fun v => not_congr (find_eq_some m id v)

/-- Two live ids of one slot are the same id. -/
theorem live_index_inj {m : SlotMap α} {i j : Id} {u v : α} (first : m.find i = some u)
    (second : m.find j = some v) (same : i.index = j.index) : i = j := by
  have here := (find_eq_some m i u).mp first
  have there := (find_eq_some m j v).mp second
  rw [same,there] at here
  cases i
  cases j
  simp_all

private theorem toNat_inj_iff (i j : UInt32) : i.toNat = j.toNat ↔ i = j :=
  ⟨UInt32.toNat.inj,congrArg _⟩

private theorem slots_set_get (slots : List (UInt32 × Option α)) (i j : UInt32)
    (entry : UInt32 × Option α) (inside : i.toNat < slots.length) :
    (slots.set i.toNat entry)[j.toNat]? = if j = i then some entry else slots[j.toNat]? := by
  rw [List.getElem?_set]
  by_cases same : j = i
  · subst j; simp [inside]
  · have apart : i.toNat ≠ j.toNat := fun equal => same ((toNat_inj_iff _ _).mp equal).symm
    simp [same,apart]

theorem inside_of_get {slots : List (UInt32 × Option α)} {i : Nat} {entry : UInt32 × Option α}
    (found : slots[i]? = some entry) : i < slots.length :=
  (List.getElem?_eq_some_iff.mp found).1

theorem empty_wf (capacity : Nat) (bound : capacity ≤ 2^32) : Wf (empty capacity : SlotMap α) where
  bound := by simpa [empty] using bound
  nodup := by
    apply List.Nodup.map_on _ List.nodup_range
    intro i hi j hj equal
    have small (k : Nat) (hk : k ∈ List.range capacity) : k % 2^32 = k :=
      Nat.mod_eq_of_lt (by have := List.mem_range.mp hk; omega)
    have lowered := congrArg UInt32.toNat equal
    simp only [UInt32.toNat_ofNat'] at lowered
    rwa [small i hi,small j hj] at lowered
  free_iff := by
    intro i
    simp only [empty,List.mem_map,List.mem_range,List.getElem?_replicate]
    constructor
    · rintro ⟨k,inside,rfl⟩
      refine ⟨0,?_⟩
      have small : (UInt32.ofNat k).toNat = k := by
        rw [UInt32.toNat_ofNat',Nat.mod_eq_of_lt (by omega)]
      rw [small,if_pos inside]
    · rintro ⟨g,found⟩
      split at found
      · rename_i inside
        exact ⟨i.toNat,inside,by simp⟩
      · cases found

@[simp] theorem empty_find (capacity : Nat) (id : Id) : (empty capacity : SlotMap α).find id = none := by
  rw [find_eq_none]
  intro v found
  simp [empty,List.getElem?_replicate] at found

/-! What each operation does, in terms of `find`. -/

theorem alloc_slots_length {m m' : SlotMap α} {v : α} {id : Id} (ok : m.alloc v = some (m',id)) :
    m'.slots.length = m.slots.length := by
  unfold alloc at ok
  split at ok
  · cases ok
  · split at ok
    · cases ok
    · simp only [Option.some.injEq,Prod.mk.injEq] at ok
      simp [← ok.1]

theorem alloc_some {m m' : SlotMap α} {v : α} {id : Id} (wf : Wf m)
    (ok : m.alloc v = some (m',id)) :
    Wf m' ∧ m.find id = none ∧ (∀ j, m'.find j = if j = id then some v else m.find j) ∧
      m.freeList.length = m'.freeList.length + 1 := by
  unfold alloc at ok
  split at ok
  · cases ok
  rename_i idx freeList stack
  obtain ⟨g,slot⟩ := (wf.free_iff idx).mp (by simp [stack])
  rw [slot] at ok
  simp only [Option.some.injEq,Prod.mk.injEq] at ok
  obtain ⟨rfl,rfl⟩ := ok
  have inside := inside_of_get slot
  have split_nodup := List.nodup_cons.mp (stack ▸ wf.nodup)
  refine ⟨⟨by simpa using wf.bound,split_nodup.2,?_⟩,?_,?_,by simp [stack]⟩
  · intro i
    simp only [slots_set_get m.slots idx i _ inside]
    by_cases same : i = idx
    · subst i; simp [split_nodup.1]
    · have member := wf.free_iff i
      rw [stack] at member
      simpa [same] using member
  · rw [find_eq_none]
    intro w found
    simp [slot] at found
  · intro j
    ext w
    rw [find_eq_some]
    simp only [slots_set_get m.slots idx j.index _ inside]
    by_cases sameIndex : j.index = idx
    · by_cases same : j = ⟨idx,g+1⟩
      · simp [same]
      · have generations : g + 1 ≠ j.generation := by
          intro equal
          exact same (by cases j; simp_all)
        have dead : m.find j = none := by
          rw [find_eq_none]
          intro u found
          rw [sameIndex,slot] at found
          cases found
        simp [sameIndex,same,generations,dead]
    · have same : j ≠ ⟨idx,g+1⟩ := fun equal => sameIndex (by rw [equal])
      simp [sameIndex,same,find_eq_some]

theorem alloc_eq_none {m : SlotMap α} {v : α} (wf : Wf m) : m.alloc v = none ↔ m.freeList = [] := by
  unfold alloc
  split
  · rename_i stack
    simp [stack]
  · rename_i idx freeList stack
    obtain ⟨g,slot⟩ := (wf.free_iff idx).mp (by simp [stack])
    rw [slot]
    simp [stack]

private theorem free_eq (m : SlotMap α) (id : Id) (v : α) (live : m.find id = some v) :
    m.free id = {slots := m.slots.set id.index.toNat (id.generation,none), freeList := id.index::m.freeList} := by
  unfold free
  rw [(find_eq_some m id v).mp live]
  simp

theorem free_dead (m : SlotMap α) (id : Id) (dead : m.find id = none) : m.free id = m := by
  unfold free
  split
  · rfl
  · rename_i g stored slot
    split
    · rename_i holds
      obtain ⟨rfl,occupied⟩ := holds
      obtain ⟨v,rfl⟩ := Option.isSome_iff_exists.mp occupied
      exact absurd slot ((find_eq_none m id).mp dead v)
    · rfl

theorem free_find (m : SlotMap α) (id j : Id) :
    (m.free id).find j = if j = id then none else m.find j := by
  cases live : m.find id with
  | none =>
    rw [free_dead m id live]
    split
    · rename_i same; rw [same,live]
    · rfl
  | some v =>
    have slot := (find_eq_some m id v).mp live
    rw [free_eq m id v live]
    ext w
    rw [find_eq_some]
    simp only [slots_set_get m.slots id.index j.index _ (inside_of_get slot)]
    by_cases sameIndex : j.index = id.index
    · by_cases same : j = id
      · simp [same]
      · have dead : m.find j = none := by
          rw [find_eq_none]
          intro u found
          rw [sameIndex,slot] at found
          simp only [Option.some.injEq,Prod.mk.injEq] at found
          exact same (by cases j; cases id; simp_all)
        simp [sameIndex,same,dead]
    · have same : j ≠ id := fun equal => sameIndex (by rw [equal])
      simp [sameIndex,same,find_eq_some]

theorem free_wf {m : SlotMap α} (wf : Wf m) (id : Id) : Wf (m.free id) := by
  cases live : m.find id with
  | none => rwa [free_dead m id live]
  | some v =>
    have slot := (find_eq_some m id v).mp live
    have inside := inside_of_get slot
    rw [free_eq m id v live]
    refine ⟨by simpa using wf.bound,?_,?_⟩
    · refine List.nodup_cons.mpr ⟨?_,wf.nodup⟩
      intro member
      obtain ⟨g,empty⟩ := (wf.free_iff _).mp member
      rw [slot] at empty
      cases empty
    · intro i
      simp only [slots_set_get m.slots id.index i _ inside,List.mem_cons]
      by_cases same : i = id.index
      · simp [same]
      · simpa [same] using wf.free_iff i

theorem free_length_live (m : SlotMap α) (id : Id) (v : α) (live : m.find id = some v) :
    (m.free id).freeList.length = m.freeList.length + 1 := by
  rw [free_eq m id v live]
  simp

theorem free_length_le (m : SlotMap α) (id : Id) : m.freeList.length ≤ (m.free id).freeList.length := by
  cases live : m.find id with
  | none => exact Nat.le_of_eq (by rw [free_dead m id live])
  | some v => rw [free_length_live m id v live]; omega

/-- The slot just freed is the next one handed out, under the next generation. -/
theorem alloc_free (m : SlotMap α) (id : Id) (old v : α) (live : m.find id = some old) :
    ∃ m', (m.free id).alloc v = some (m',⟨id.index,id.generation + 1⟩) := by
  have slot := (find_eq_some m id old).mp live
  have inside := inside_of_get slot
  unfold free
  rw [slot]
  simp only [Option.isSome_some,and_self,if_true]
  unfold alloc
  simp [inside]

@[simp] theorem free_slots_length (m : SlotMap α) (id : Id) : (m.free id).slots.length = m.slots.length := by
  unfold free
  split
  · rfl
  · split <;> simp

private theorem update_eq (m : SlotMap α) (id : Id) (old v : α) (live : m.find id = some old) :
    m.update id v = {m with slots := m.slots.set id.index.toNat (id.generation,some v)} := by
  unfold update
  rw [(find_eq_some m id old).mp live]
  simp

theorem update_dead (m : SlotMap α) (id : Id) (v : α) (dead : m.find id = none) : m.update id v = m := by
  unfold update
  split
  · rfl
  · rename_i g stored slot
    split
    · rename_i holds
      obtain ⟨rfl,occupied⟩ := holds
      obtain ⟨w,rfl⟩ := Option.isSome_iff_exists.mp occupied
      exact absurd slot ((find_eq_none m id).mp dead w)
    · rfl

theorem update_find (m : SlotMap α) (id j : Id) (v : α) :
    (m.update id v).find j = if j = id then (m.find id).map (fun _ => v) else m.find j := by
  cases live : m.find id with
  | none =>
    rw [update_dead m id v live]
    split
    · rename_i same; rw [same,live]; rfl
    · rfl
  | some old =>
    have slot := (find_eq_some m id old).mp live
    rw [update_eq m id old v live]
    ext w
    rw [find_eq_some]
    simp only [slots_set_get m.slots id.index j.index _ (inside_of_get slot)]
    by_cases sameIndex : j.index = id.index
    · by_cases same : j = id
      · simp [same]
      · have generations : id.generation ≠ j.generation := by
          intro equal
          exact same (by cases j; cases id; simp_all)
        have dead : m.find j = none := by
          rw [find_eq_none]
          intro u found
          rw [sameIndex,slot] at found
          simp only [Option.some.injEq,Prod.mk.injEq] at found
          exact generations found.1
        simp [sameIndex,same,generations,dead]
    · have same : j ≠ id := fun equal => sameIndex (by rw [equal])
      simp [sameIndex,same,find_eq_some]

@[simp] theorem update_freeList (m : SlotMap α) (id : Id) (v : α) : (m.update id v).freeList = m.freeList := by
  unfold update
  split
  · rfl
  · split <;> rfl

@[simp] theorem update_slots_length (m : SlotMap α) (id : Id) (v : α) :
    (m.update id v).slots.length = m.slots.length := by
  unfold update
  split
  · rfl
  · split <;> simp

theorem update_wf {m : SlotMap α} (wf : Wf m) (id : Id) (v : α) : Wf (m.update id v) := by
  cases live : m.find id with
  | none => rwa [update_dead m id v live]
  | some old =>
    have slot := (find_eq_some m id old).mp live
    rw [update_eq m id old v live]
    refine ⟨by simpa using wf.bound,wf.nodup,?_⟩
    intro i
    simp only [slots_set_get m.slots id.index i _ (inside_of_get slot)]
    rw [wf.free_iff i]
    by_cases same : i = id.index
    · subst i; simp [slot]
    · simp [same]

/-! The listing of live entries. -/

theorem mem_liveEntries {m : SlotMap α} (wf : Wf m) (id : Id) (v : α) :
    (id,v) ∈ m.liveEntries ↔ m.find id = some v := by
  have small (k : Nat) (inside : k < m.slots.length) : (UInt32.ofNat k).toNat = k := by
    rw [UInt32.toNat_ofNat',Nat.mod_eq_of_lt (Nat.lt_of_lt_of_le inside wf.bound)]
  rw [find_eq_some]
  simp only [liveEntries,List.mem_filterMap,List.mem_range]
  constructor
  · rintro ⟨k,inside,entry⟩
    split at entry
    · rename_i g val slot
      simp only [Option.some.injEq,Prod.mk.injEq] at entry
      obtain ⟨rfl,rfl⟩ := entry
      rw [small k inside]
      exact slot
    · cases entry
  · intro slot
    refine ⟨id.index.toNat,inside_of_get slot,?_⟩
    simp [slot]

theorem index_of_listed {m : SlotMap α} (wf : Wf m) {k : Nat} {id : Id}
    (listed : id ∈ Option.map Prod.fst (match m.slots[k]? with
      | some (g,some val) => some ((⟨UInt32.ofNat k,g⟩ : Id),val)
      | _ => none)) : id.index = UInt32.ofNat k ∧ k < 2^32 := by
  split at listed
  · rename_i g val slot
    simp only [Option.map_some,Option.mem_def,Option.some.injEq] at listed
    subst listed
    exact ⟨rfl,Nat.lt_of_lt_of_le (inside_of_get slot) wf.bound⟩
  · simp at listed

theorem liveEntries_keys_nodup {m : SlotMap α} (wf : Wf m) : (m.liveEntries.map Prod.fst).Nodup := by
  rw [liveEntries,List.map_filterMap]
  apply List.Nodup.filterMap _ List.nodup_range
  intro i j id hi hj
  obtain ⟨first,iSmall⟩ := index_of_listed wf hi
  obtain ⟨second,jSmall⟩ := index_of_listed wf hj
  have lowered := congrArg UInt32.toNat (first.symm.trans second)
  simp only [UInt32.toNat_ofNat'] at lowered
  rwa [Nat.mod_eq_of_lt iSmall,Nat.mod_eq_of_lt jSmall] at lowered

/-! Loops over the live entries that update some of them. -/

/-- One round of such a loop: the entries chosen by `p` get the value `g`. -/
def updateIf (p : Id × α → Bool) (g : Id × α → α) (m : SlotMap α) (entry : Id × α) : SlotMap α :=
  if p entry then m.update entry.1 (g entry) else m

private theorem updateIf_find (p : Id × α → Bool) (g : Id × α → α) (m : SlotMap α) (entry : Id × α) (j : Id)
    (live : m.find entry.1 = some entry.2) :
    (updateIf p g m entry).find j =
      if j = entry.1 then some (if p entry then g entry else entry.2) else m.find j := by
  unfold updateIf
  by_cases chosen : p entry
  · simp [chosen,update_find,live]
  · by_cases same : j = entry.1
    · simp [chosen,same,live]
    · simp [chosen,same]

private theorem foldl_updateIf_find (p : Id × α → Bool) (g : Id × α → α) (entries : List (Id × α)) (m : SlotMap α)
    (keys : (entries.map Prod.fst).Nodup) (live : ∀ entry ∈ entries, m.find entry.1 = some entry.2) (j : Id) :
    (entries.foldl (updateIf p g) m).find j =
      if j ∈ entries.map Prod.fst then (m.find j).map (fun v => if p (j,v) then g (j,v) else v)
      else m.find j := by
  induction entries generalizing m with
  | nil => simp
  | cons entry rest ih =>
    obtain ⟨id,v⟩ := entry
    obtain ⟨absent,restKeys⟩ := List.nodup_cons.mp keys
    have here : m.find id = some v := live (id,v) (by simp)
    have restLive : ∀ entry ∈ rest, (updateIf p g m (id,v)).find entry.1 = some entry.2 := by
      intro entry member
      have apart : entry.1 ≠ id := by
        intro equal
        exact absent (List.mem_map.mpr ⟨entry,member,equal⟩)
      rw [updateIf_find p g m (id,v) entry.1 here,if_neg apart]
      exact live entry (List.mem_cons_of_mem _ member)
    rw [List.foldl_cons,ih _ restKeys restLive,updateIf_find p g m (id,v) j here]
    by_cases same : j = id
    · subst j
      have outside : id ∉ rest.map Prod.fst := absent
      simp [outside,here]
    · simp only [same,if_false,List.map_cons,List.mem_cons,false_or]

theorem updateAll_find {m : SlotMap α} (wf : Wf m) (p : Id × α → Bool) (g : Id × α → α) (j : Id) :
    (m.liveEntries.foldl (updateIf p g) m).find j =
      (m.find j).map (fun v => if p (j,v) then g (j,v) else v) := by
  rw [foldl_updateIf_find p g m.liveEntries m (liveEntries_keys_nodup wf)
    (fun entry member => (mem_liveEntries wf entry.1 entry.2).mp member)]
  split
  · rfl
  · rename_i absent
    cases live : m.find j with
    | none => rfl
    | some v =>
      exact absurd (List.mem_map.mpr ⟨(j,v),(mem_liveEntries wf j v).mpr live,rfl⟩) absent

theorem foldl_updateIf_wf (p : Id × α → Bool) (g : Id × α → α) (entries : List (Id × α)) {m : SlotMap α}
    (wf : Wf m) : Wf (entries.foldl (updateIf p g) m) := by
  apply invariant_run (updateIf p g) Wf _ m entries wf
  intro n entry inv
  unfold updateIf
  split
  · exact update_wf inv entry.1 (g entry)
  · exact inv

theorem foldl_updateIf_freeList (p : Id × α → Bool) (g : Id × α → α) (entries : List (Id × α)) (m : SlotMap α) :
    (entries.foldl (updateIf p g) m).freeList = m.freeList := by
  apply invariant_run (updateIf p g) (fun n => n.freeList = m.freeList) _ m entries rfl
  intro n entry same
  unfold updateIf
  split
  · rw [update_freeList,same]
  · exact same

/-! The abstract map: an association list of the live entries. -/

inductive Op (α : Type) where
  | alloc (v : α)
  | free (id : Id)
  | update (id : Id) (v : α)

abbrev Live (α : Type) := List (Id × α)

/-- The obvious operations on an association list. Allocation records the id
that was handed out, if one was. -/
def Live.apply (l : Live α) (issued : Option Id) : Op α → Live α
  | .alloc v => match issued with
    | some id => (id,v)::l
    | none => l
  | .free id => l.filter (fun entry => entry.1 ≠ id)
  | .update id v => l.map (fun entry => if entry.1 = id then (id,v) else entry)

/-- One call: the new map and, for an allocation, the id that was returned. -/
def apply (m : SlotMap α) : Op α → SlotMap α × Option Id
  | .alloc v => match m.alloc v with
    | some (m',id) => (m',some id)
    | none => (m,none)
  | .free id => (m.free id,none)
  | .update id v => (m.update id v,none)

theorem apply_slots_length (m : SlotMap α) (op : Op α) : (m.apply op).1.slots.length = m.slots.length := by
  cases op with
  | alloc v =>
    simp only [apply]
    cases ok : m.alloc v with
    | none => rfl
    | some result => exact alloc_slots_length ok
  | free id => exact free_slots_length m id
  | update id v => exact update_slots_length m id v

/-- The map and the association list side by side under one call. -/
def both (state : SlotMap α × Live α) (op : Op α) : SlotMap α × Live α :=
  ((state.1.apply op).1,state.2.apply (state.1.apply op).2 op)

structure Refines (m : SlotMap α) (l : Live α) : Prop where
  wf : Wf m
  keys : (l.map Prod.fst).Nodup
  find_iff : ∀ id v, m.find id = some v ↔ (id,v) ∈ l

private theorem Refines.alloc {m m' : SlotMap α} {l : Live α} {v : α} {id : Id} (related : Refines m l)
    (ok : m.alloc v = some (m',id)) : Refines m' ((id,v)::l) := by
  obtain ⟨wf,fresh,finds,_⟩ := alloc_some related.wf ok
  have absent : id ∉ l.map Prod.fst := by
    intro member
    obtain ⟨⟨_,w⟩,inside,rfl⟩ := List.mem_map.mp member
    rw [(related.find_iff _ w).mpr inside] at fresh
    cases fresh
  refine ⟨wf,List.nodup_cons.mpr ⟨absent,related.keys⟩,?_⟩
  intro j w
  rw [finds j,List.mem_cons,Prod.mk.injEq]
  by_cases same : j = id
  · subst j
    have other : (id,w) ∉ l := fun inside => absent (List.mem_map.mpr ⟨_,inside,rfl⟩)
    simp [other,eq_comm]
  · simp [same,related.find_iff]

private theorem Refines.free {m : SlotMap α} {l : Live α} (related : Refines m l) (id : Id) :
    Refines (m.free id) (l.filter (fun entry => entry.1 ≠ id)) := by
  refine ⟨free_wf related.wf id,related.keys.sublist (List.filter_sublist.map _),?_⟩
  intro j w
  rw [free_find,List.mem_filter]
  by_cases same : j = id <;> simp [same,related.find_iff]

private theorem Refines.update {m : SlotMap α} {l : Live α} (related : Refines m l) (id : Id) (v : α) :
    Refines (m.update id v) (l.map (fun entry => if entry.1 = id then (id,v) else entry)) := by
  have sameKeys : (l.map (fun entry => if entry.1 = id then (id,v) else entry)).map Prod.fst = l.map Prod.fst := by
    rw [List.map_map]
    apply List.map_congr_left
    intro entry _
    by_cases same : entry.1 = id <;> simp [same]
  refine ⟨update_wf related.wf id v,sameKeys ▸ related.keys,?_⟩
  intro j w
  rw [update_find,List.mem_map]
  by_cases same : j = id
  · subst j
    simp only [if_true,Option.map_eq_some_iff]
    constructor
    · rintro ⟨old,live,rfl⟩
      exact ⟨(id,old),(related.find_iff id old).mp live,by simp⟩
    · rintro ⟨⟨k,old⟩,inside,equal⟩
      by_cases key : k = id
      · subst k
        simp only [if_true,Prod.mk.injEq,true_and] at equal
        exact ⟨old,(related.find_iff id old).mpr inside,equal⟩
      · rw [if_neg key,Prod.mk.injEq] at equal
        exact absurd equal.1 key
  · rw [if_neg same,related.find_iff]
    constructor
    · intro inside
      exact ⟨(j,w),inside,by simp [same]⟩
    · rintro ⟨⟨k,old⟩,inside,equal⟩
      by_cases key : k = id
      · simp only [key,if_true,Prod.mk.injEq] at equal
        exact absurd equal.1.symm same
      · simp only [key,if_false] at equal
        rwa [equal] at inside

theorem both_refines (state : SlotMap α × Live α) (op : Op α) (related : Refines state.1 state.2) :
    Refines (both state op).1 (both state op).2 := by
  obtain ⟨m,l⟩ := state
  cases op with
  | alloc v =>
    simp only [both,apply,Live.apply]
    cases ok : m.alloc v with
    | none => exact related
    | some result => exact related.alloc ok
  | free id => exact related.free id
  | update id v => exact related.update id v

theorem run_refines (capacity : Nat) (bound : capacity ≤ 2^32) (ops : List (Op α)) :
    Refines (run both (empty capacity,[]) ops).1 (run both (empty capacity,[]) ops).2 :=
  invariant_run both (fun state => Refines state.1 state.2) both_refines _ ops
    ⟨empty_wf capacity bound,List.nodup_nil,by simp⟩

private theorem lookup_eq (l : Live α) (keys : (l.map Prod.fst).Nodup) (id : Id) (v : α) :
    l.lookup id = some v ↔ (id,v) ∈ l := by
  induction l with
  | nil => simp
  | cons entry rest ih =>
    obtain ⟨k,w⟩ := entry
    obtain ⟨absent,restKeys⟩ := List.nodup_cons.mp keys
    by_cases same : id = k
    · subst k
      have other : (id,v) ∉ rest := fun inside => absent (List.mem_map.mpr ⟨_,inside,rfl⟩)
      simp [other,eq_comm]
    · have differ : (id == k) = false := by simpa using same
      simp [List.lookup_cons,differ,same,ih restKeys]

def Unoccupied (m : SlotMap α) (index : UInt32) : Prop := ∃ g, m.slots[index.toNat]? = some (g,none)

/-- Every sequence of calls with arbitrary ids keeps the map equal to the
association list of its live entries, with an exact, duplicate-free free list. -/
theorem run_refines_live (capacity : Nat) (bound : capacity ≤ 2^32) (ops : List (Op α)) :
    let m := (run both (empty capacity,[]) ops).1
    let l := (run both (empty capacity,[]) ops).2
    m.slots.length = capacity ∧ m.freeList.Nodup ∧ (∀ index, index ∈ m.freeList ↔ m.Unoccupied index) ∧
      (∀ v, m.alloc v = none ↔ ∀ index : UInt32, index.toNat < capacity → ¬ m.Unoccupied index) ∧
      (∀ id, m.find id = l.lookup id) ∧ m.liveEntries.Perm l ∧ (l.map Prod.fst).Nodup := by
  intro m l
  have related : Refines m l := run_refines capacity bound ops
  have length : m.slots.length = capacity := by
    apply invariant_run both (fun state : SlotMap α × Live α => state.1.slots.length = capacity)
    · intro state op same
      exact (apply_slots_length state.1 op).trans same
    · simp [empty]
  refine ⟨length,related.wf.nodup,related.wf.free_iff,?_,?_,?_,related.keys⟩
  · intro v
    rw [alloc_eq_none related.wf]
    constructor
    · intro none_left index _ unoccupied
      have member := (related.wf.free_iff index).mpr unoccupied
      simp [none_left] at member
    · intro occupied
      rw [List.eq_nil_iff_forall_not_mem]
      intro index member
      obtain ⟨g,slot⟩ := (related.wf.free_iff index).mp member
      exact occupied index (length ▸ inside_of_get slot) ⟨g,slot⟩
  · intro id
    ext v
    rw [related.find_iff,lookup_eq l related.keys]
  · have entriesNodup : m.liveEntries.Nodup := (liveEntries_keys_nodup related.wf).of_map _
    apply (List.perm_ext_iff_of_nodup entriesNodup (related.keys.of_map _)).mpr
    rintro ⟨id,v⟩
    rw [mem_liveEntries related.wf,related.find_iff]

/-- A full map of capacity two, a stale free and a stale update. -/
theorem run_refines_live_two :
    let ops : List (Op Nat) := [.alloc 7,.alloc 8,.free ⟨0,1⟩,.free ⟨0,1⟩,.alloc 9,.update ⟨0,1⟩ 5,.alloc 6]
    (2 : Nat) ≤ 2^32 ∧ (run both (empty 2,[]) ops).2 = [(⟨0,2⟩,9),(⟨1,1⟩,8)] ∧
      (run both (empty 2,[]) ops).1.liveEntries.Perm (run both (empty 2,[]) ops).2 :=
  ⟨by decide,by decide,(run_refines_live 2 (by decide) _).2.2.2.2.2.1⟩

end WarpLoop.Core.SlotMap
