import Mathlib.Data.List.Basic
import Mathlib.Data.List.Nodup

/-! Association lists with distinct keys: changing the value under one key, and dropping
the entries whose value fails a test. Nothing here refers to particular entries. -/
namespace WarpLoop.Lib.Assoc

variable {κ β : Type*}

def keys (items : List (κ × β)) : List κ := items.map Prod.fst

theorem nodup_keys_filter {items : List (κ × β)} (distinct : (keys items).Nodup) (keep : κ × β → Bool) :
    (keys (items.filter keep)).Nodup :=
  distinct.sublist (List.filter_sublist.map Prod.fst)

variable [DecidableEq κ]

/-- The value under a key changed wherever the key stands. -/
def adjust (key : κ) (change : β → β) (items : List (κ × β)) : List (κ × β) :=
  items.map (fun entry => if entry.1 = key then (entry.1,change entry.2) else entry)

theorem keys_adjust (key : κ) (change : β → β) (items : List (κ × β)) : keys (adjust key change items) = keys items := by
  simp only [keys,adjust,List.map_map]
  apply List.map_congr_left
  intro entry _
  simp only [Function.comp_apply]
  split_ifs <;> rfl

theorem lookup_adjust (key : κ) (change : β → β) (items : List (κ × β)) (asked : κ) :
    (adjust key change items).lookup asked =
      if asked = key then (items.lookup asked).map change else items.lookup asked := by
  induction items with
  | nil => simp [adjust]
  | cons entry items ih =>
    obtain ⟨owner,value⟩ := entry
    simp only [adjust,List.map_cons] at ih ⊢
    rcases eq_or_ne asked owner with rfl | other
    · rcases eq_or_ne asked key with rfl | different
      · simp
      · simp [different]
    · have apart : (asked == owner) = false := beq_eq_false_iff_ne.mpr other
      split_ifs at ih ⊢ with own same same <;> simp [List.lookup_cons,apart,ih]

theorem lookup_eq_none {items : List (κ × β)} {key : κ} (absent : key ∉ keys items) : items.lookup key = none := by
  rw [List.lookup_eq_none_iff]
  intro entry member
  rw [bne_iff_ne]
  intro same
  exact absent (List.mem_map.mpr ⟨entry,member,same.symm⟩)

theorem mem_of_lookup {items : List (κ × β)} {key : κ} {value : β} (found : items.lookup key = some value) :
    (key,value) ∈ items := by
  obtain ⟨front,back,split,_⟩ := List.lookup_eq_some_iff.mp found
  simp [split]

theorem lookup_of_mem {items : List (κ × β)} (distinct : (keys items).Nodup) {entry : κ × β} (member : entry ∈ items) :
    items.lookup entry.1 = some entry.2 := by
  induction items with
  | nil => cases member
  | cons first items ih =>
    obtain ⟨fresh,rest⟩ := List.nodup_cons.mp distinct
    rcases List.mem_cons.mp member with rfl | behind
    · rw [List.lookup_cons,beq_self_eq_true]
    · have apart : (entry.1 == first.1) = false := by
        rw [beq_eq_false_iff_ne]
        intro same
        exact fresh (List.mem_map.mpr ⟨entry,behind,same⟩)
      rw [List.lookup_cons,apart]
      exact ih rest behind

/-- Distinct keys are needed: a dropped entry must not uncover a later one. -/
theorem lookup_filter_values {items : List (κ × β)} (distinct : (keys items).Nodup) (keep : β → Bool) (asked : κ) :
    (items.filter (fun entry => keep entry.2)).lookup asked = (items.lookup asked).filter keep := by
  induction items with
  | nil => rfl
  | cons entry items ih =>
    obtain ⟨owner,value⟩ := entry
    obtain ⟨fresh,rest⟩ := List.nodup_cons.mp distinct
    specialize ih rest
    rcases eq_or_ne asked owner with rfl | other
    · have gone := lookup_eq_none fresh
      rw [gone] at ih
      cases kept : keep value with
      | true => simp [kept,Option.filter]
      | false =>
        simp only [List.filter_cons,kept,Bool.false_eq_true,if_false,List.lookup_cons_self]
        rw [ih]
        simp [kept,Option.filter]
    · have apart : (asked == owner) = false := beq_eq_false_iff_ne.mpr other
      cases kept : keep value <;> simp [kept,List.lookup_cons,apart,ih]

end WarpLoop.Lib.Assoc
