import Mathlib.Data.List.Sort
import Mathlib.Data.List.Induction

/-! Insertion sort as a loop with a flag: every element is put before the first one that it
comes before, and what has the same key keeps its order. -/
namespace WarpLoop.Lib.Insertion
variable {α : Type*}

/-- The element goes in once, before the first that it comes before, or at the end. -/
def insertLoop (before : α → α → Bool) (p : α) (sorted : List α) : List α :=
  let (out,inserted) := sorted.foldl (fun (out,inserted) q =>
    if !inserted && before p q then (out ++ [p] ++ [q],true) else (out ++ [q],inserted)) ([],false)
  if !inserted then out ++ [p] else out

def sortLoop (before : α → α → Bool) (l : List α) : List α := l.foldl (fun sorted p => insertLoop before p sorted) []

variable {before : α → α → Bool}

theorem insert_rest (p : α) (rest out : List α) :
    rest.foldl (fun (out,inserted) q =>
      if !inserted && before p q then (out ++ [p] ++ [q],true) else (out ++ [q],inserted)) (out,true) = (out ++ rest,true) := by
  induction rest generalizing out with
  | nil => simp
  | cons q rest ih =>
    rw [List.foldl_cons]
    simp only [Bool.not_true,Bool.false_and,Bool.false_eq_true,if_false]
    rw [ih,List.append_assoc]
    rfl

theorem insertLoop_from (p : α) (sorted out : List α) :
    (let (out,inserted) := sorted.foldl (fun (out,inserted) q =>
      if !inserted && before p q then (out ++ [p] ++ [q],true) else (out ++ [q],inserted)) (out,false)
    if !inserted then out ++ [p] else out) = out ++ sorted.orderedInsert (fun a b => before a b) p := by
  induction sorted generalizing out with
  | nil => rfl
  | cons q rest ih =>
    rw [List.foldl_cons,List.orderedInsert]
    by_cases first : before p q = true
    · simp only [first,Bool.not_false,Bool.true_and,if_true,insert_rest]
      simp
    · rw [Bool.not_eq_true] at first
      simp only [first,Bool.not_false,Bool.true_and,Bool.false_eq_true,if_false,ih]
      simp

theorem insertLoop_eq (p : α) (sorted : List α) : insertLoop before p sorted = sorted.orderedInsert (fun a b => before a b) p :=
  insertLoop_from p sorted []

theorem sortLoop_concat (l : List α) (p : α) :
    sortLoop before (l ++ [p]) = (sortLoop before l).orderedInsert (fun a b => before a b) p := by
  rw [sortLoop,List.foldl_append,List.foldl_cons,List.foldl_nil,insertLoop_eq]
  rfl

theorem sortLoop_perm (l : List α) : (sortLoop before l).Perm l := by
  induction l using List.reverseRecOn with
  | nil => exact List.Perm.refl _
  | append_singleton l p ih =>
    rw [sortLoop_concat]
    exact (List.perm_orderedInsert _ p _).trans ((ih.cons p).trans (List.perm_append_singleton p l).symm)

theorem map_orderedInsert {β : Type*} {before' : β → β → Bool} {f : α → β} (same : ∀ a b, before a b = before' (f a) (f b))
    (p : α) (l : List α) :
    (l.orderedInsert (fun a b => before a b) p).map f = (l.map f).orderedInsert (fun a b => before' a b) (f p) := by
  induction l with
  | nil => rfl
  | cons q rest ih =>
    rw [List.orderedInsert,List.map_cons,List.orderedInsert,← same p q]
    split
    · rfl
    · rw [List.map_cons,ih]

/-- Sorting by what a function gives is sorting what it gives. -/
theorem map_sortLoop {β : Type*} {before' : β → β → Bool} {f : α → β} (same : ∀ a b, before a b = before' (f a) (f b)) (l : List α) :
    (sortLoop before l).map f = sortLoop before' (l.map f) := by
  induction l using List.reverseRecOn with
  | nil => rfl
  | append_singleton l p ih =>
    rw [sortLoop_concat,map_orderedInsert same,ih,List.map_append,List.map_singleton,sortLoop_concat]

section Keys
variable {κ : Type*} [LinearOrder κ] {key : α → κ} (byKey : ∀ a b, before a b = true ↔ key a < key b)
include byKey

theorem insert_sorted (p : α) {sorted : List α} (order : sorted.Pairwise (fun a b => key a ≤ key b)) :
    (sorted.orderedInsert (fun a b => before a b) p).Pairwise (fun a b => key a ≤ key b) := by
  induction sorted with
  | nil => exact List.pairwise_singleton _ p
  | cons q rest ih =>
    obtain ⟨below,rest_order⟩ := List.pairwise_cons.mp order
    rw [List.orderedInsert]
    split
    case isTrue first =>
      have less := (byKey p q).mp first
      refine List.pairwise_cons.mpr ⟨?_,order⟩
      intro b member
      rcases List.mem_cons.mp member with rfl | later
      · exact less.le
      · exact less.le.trans (below b later)
    case isFalse notFirst =>
      refine List.pairwise_cons.mpr ⟨?_,ih rest_order⟩
      intro b member
      rcases List.mem_cons.mp ((List.perm_orderedInsert _ p rest).mem_iff.mp member) with rfl | later
      · exact not_lt.mp (fun less => notFirst ((byKey _ _).mpr less))
      · exact below b later

theorem sortLoop_sorted (l : List α) : (sortLoop before l).Pairwise (fun a b => key a ≤ key b) := by
  induction l using List.reverseRecOn with
  | nil => exact List.Pairwise.nil
  | append_singleton l p ih =>
    rw [sortLoop_concat]
    exact insert_sorted byKey p ih

/-- Elements that all have different keys come out in one order, however they went in. -/
theorem sortLoop_eq_of_perm {first second : List α} (distinct : (first.map key).Nodup) (same : first.Perm second) :
    sortLoop before first = sortLoop before second := by
  have perm : (sortLoop before first).Perm (sortLoop before second) :=
    (sortLoop_perm first).trans (same.trans (sortLoop_perm second).symm)
  refine perm.eq_of_pairwise ?_ (sortLoop_sorted byKey first) (sortLoop_sorted byKey second)
  intro a b memberA memberB le ge
  exact List.inj_on_of_nodup_map distinct ((sortLoop_perm first).mem_iff.mp memberA)
    (same.mem_iff.mpr ((sortLoop_perm second).mem_iff.mp memberB)) (le_antisymm le ge)

end Keys

end WarpLoop.Lib.Insertion
