import WarpLoop.Taskweft.Rebac

/-! The audit list of a relation against the check of a single subject. Both follow
direct edges and memberships, but only the check counts a delegation of control, so a
delegate who has no other way in is missing from the list. -/
namespace WarpLoop.Taskweft
open Lib.Reach

variable {ν : Type} [DecidableEq ν]

theorem mem_eraseDupsLoop (lst seen : List ν) (x : ν) : x ∈ eraseDupsLoop lst seen ↔ x ∈ lst ∧ x ∉ seen := by
  induction lst generalizing seen with
  | nil => simp [eraseDupsLoop]
  | cons first rest ih =>
    unfold eraseDupsLoop
    split
    · rename_i old
      rw [ih,List.mem_cons]
      constructor
      · rintro ⟨later,new⟩
        exact ⟨Or.inr later,new⟩
      · rintro ⟨rfl | later,new⟩
        · exact absurd old new
        · exact ⟨later,new⟩
    · rename_i fresh
      rw [List.mem_cons,ih,List.mem_cons,List.mem_cons,not_or]
      by_cases here : x = first
      · simp [here,fresh]
      · simp [here]

theorem nodup_eraseDupsLoop (lst seen : List ν) : (eraseDupsLoop lst seen).Nodup := by
  induction lst generalizing seen with
  | nil => exact List.nodup_nil
  | cons first rest ih =>
    unfold eraseDupsLoop
    split
    · exact ih seen
    · refine List.nodup_cons.mpr ⟨?_,ih (first::seen)⟩
      rw [mem_eraseDupsLoop]
      simp

section Audit
variable (graph : List (Relationship ν)) (rel : RelationType) (obj u : ν) (fuel : Nat)

theorem mem_expand : u ∈ expand graph rel obj fuel ↔
    ⟨u,rel,obj⟩ ∈ graph ∨ ∃ t, Member graph u t ∧ hasCapability graph t rel obj fuel = true := by
  unfold expand eraseDups
  dsimp only
  rw [mem_eraseDupsLoop,List.mem_append,List.mem_filterMap,List.mem_filterMap]
  have direct : (∃ r ∈ graph, (if r.relation = rel ∧ r.object = obj then some r.subject else none) = some u) ↔
      ⟨u,rel,obj⟩ ∈ graph := by
    constructor
    · rintro ⟨r,member,listed⟩
      split at listed
      · rename_i same
        obtain rfl := Option.some.inj listed
        obtain ⟨rfl,rfl⟩ := same
        exact member
      · cases listed
    · intro member
      exact ⟨_,member,if_pos ⟨rfl,rfl⟩⟩
  have inherited : (∃ r ∈ graph, (if r.relation = .isMemberOf ∧ hasCapability graph r.object rel obj fuel = true then
      some r.subject else none) = some u) ↔ ∃ t, Member graph u t ∧ hasCapability graph t rel obj fuel = true := by
    constructor
    · rintro ⟨⟨s,relation,t⟩,member,listed⟩
      split at listed
      · rename_i same
        obtain rfl := Option.some.inj listed
        obtain ⟨rfl,granted⟩ := same
        exact ⟨t,member,granted⟩
      · cases listed
    · rintro ⟨t,member,granted⟩
      exact ⟨_,member,if_pos ⟨rfl,granted⟩⟩
  rw [direct,inherited]
  simp

/-- Control of the object is delegated to the subject. -/
def Delegate : Prop := rel = .controls ∧ ⟨obj,.delegatedTo,u⟩ ∈ graph

/-- The subject has the edge itself or is a member of a group that is granted the relation
within the fuel. -/
def OtherWayIn : Prop :=
  ⟨u,rel,obj⟩ ∈ graph ∨ ∃ k t s, k < fuel ∧ Member graph u t ∧ ReachIn (Member graph) k t s ∧ Grants graph rel obj s

theorem mem_expand_iff : u ∈ expand graph rel obj fuel ↔ OtherWayIn graph rel obj u fuel := by
  rw [mem_expand]
  apply or_congr Iff.rfl
  cases fuel with
  | zero => simp [hasCapability]
  | succ n =>
    simp only [hasCapability_succ]
    constructor
    · rintro ⟨t,member,s,reach,grants⟩
      exact ⟨n,t,s,Nat.lt_succ_self n,member,reach,grants⟩
    · rintro ⟨k,t,s,below,member,reach,grants⟩
      exact ⟨t,member,s,reach.mono (fun _ _ step => step) (Nat.le_of_lt_succ below),grants⟩

theorem hasCapability_iff_expand : hasCapability graph u rel obj (fuel + 1) = true ↔
    Delegate graph rel obj u ∨ u ∈ expand graph rel obj fuel := by
  rw [hasCapability_step,mem_expand]
  unfold Grants Delegate
  tauto

/-- The list has no duplicates and agrees with the check on a subject exactly when that
subject is not a delegate of control without another way in. -/
theorem expand_exact_iff :
    ((u ∈ expand graph rel obj fuel ↔ hasCapability graph u rel obj (fuel + 1) = true) ∧
      (expand graph rel obj fuel).Nodup) ↔
      (Delegate graph rel obj u → OtherWayIn graph rel obj u fuel) := by
  have nodup : (expand graph rel obj fuel).Nodup := nodup_eraseDupsLoop _ []
  rw [hasCapability_iff_expand,mem_expand_iff]
  constructor
  · rintro ⟨same,_⟩ delegate
    exact same.mpr (Or.inl delegate)
  · intro other
    exact ⟨⟨Or.inr,fun either => either.elim other id⟩,nodup⟩

end Audit

/-- Nothing but the delegation gives control here. -/
def delegations : List (Relationship String) := [⟨"door",.delegatedTo,"bob"⟩]

theorem delegate_not_listed :
    "bob" ∉ expand delegations .controls "door" 3 ∧ hasCapability delegations "bob" .controls "door" 4 = true := by
  decide

end WarpLoop.Taskweft
