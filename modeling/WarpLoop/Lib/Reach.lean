import Mathlib.Logic.Relation
import Mathlib.Data.Fintype.Card
import Mathlib.Data.Set.Finite.List

/-! Reachability along a relation within a bounded number of steps. A relation whose
sources are among finitely many points reaches whatever it reaches in at most that
many steps. -/
namespace WarpLoop.Lib.Reach

variable {α : Type*}

/-- `b` is reached from `a` in at most `n` steps of `R`. -/
def ReachIn (R : α → α → Prop) : Nat → α → α → Prop
  | 0,a,b => a = b
  | n+1,a,b => a = b ∨ ∃ c, R a c ∧ ReachIn R n c b

theorem ReachIn.refl (R : α → α → Prop) (n : Nat) (a : α) : ReachIn R n a a := by
  cases n with
  | zero => rfl
  | succ n => exact Or.inl rfl

theorem ReachIn.mono {R S : α → α → Prop} (implies : ∀ a b, R a b → S a b) {n m : Nat} (le : n ≤ m) {a b : α}
    (reach : ReachIn R n a b) : ReachIn S m a b := by
  induction n generalizing a m with
  | zero =>
    obtain rfl : a = b := reach
    exact ReachIn.refl S m a
  | succ n ih =>
    obtain ⟨k,rfl⟩ : ∃ k, m = k + 1 := ⟨m - 1,by omega⟩
    rcases reach with rfl | ⟨c,step,rest⟩
    · exact ReachIn.refl S (k + 1) a
    · exact Or.inr ⟨c,implies a c step,ih (by omega) rest⟩

theorem ReachIn.reflTransGen {R : α → α → Prop} {n : Nat} {a b : α} (reach : ReachIn R n a b) :
    Relation.ReflTransGen R a b := by
  induction n generalizing a with
  | zero =>
    obtain rfl : a = b := reach
    exact .refl
  | succ n ih =>
    rcases reach with rfl | ⟨c,step,rest⟩
    · exact .refl
    · exact .head step (ih rest)

theorem last_visit {R : α → α → Prop} (a : α) {x b : α} (reach : Relation.ReflTransGen R x b) :
    Relation.ReflTransGen (fun c d => R c d ∧ c ≠ a) x b ∨
      ∃ c, R a c ∧ Relation.ReflTransGen (fun c d => R c d ∧ c ≠ a) c b := by
  induction reach using Relation.ReflTransGen.head_induction_on with
  | refl => exact Or.inl .refl
  | @head x y step rest ih =>
    rcases ih with direct | later
    · by_cases here : x = a
      · subst x
        exact Or.inr ⟨y,step,direct⟩
      · exact Or.inl (.head ⟨step,here⟩ direct)
    · exact Or.inr later

/-- As many steps are enough as the relation has sources. -/
theorem reachIn_card [DecidableEq α] {R : α → α → Prop} (sources : Finset α) (only : ∀ a b, R a b → a ∈ sources)
    {a b : α} (reach : Relation.ReflTransGen R a b) : ReachIn R sources.card a b := by
  induction sources using Finset.strongInduction generalizing R a with
  | H sources ih =>
    rcases last_visit a reach with away | ⟨c,step,rest⟩
    · -- no step leaves from `a`, so the path is empty
      rcases away.cases_head with rfl | ⟨c,⟨_,apart⟩,_⟩
      · exact ReachIn.refl R _ a
      · exact absurd rfl apart
    · have here := only a c step
      have fewer : (sources.erase a).card + 1 = sources.card := Finset.card_erase_add_one here
      rw [← fewer]
      refine Or.inr ⟨c,step,?_⟩
      have shorter : ReachIn (fun d e => R d e ∧ d ≠ a) (sources.erase a).card c b := by
        apply ih (sources.erase a) (Finset.erase_ssubset here) _ rest
        intro d e both
        exact Finset.mem_erase.mpr ⟨both.2,only d e both.1⟩
      exact shorter.mono (fun _ _ both => both.1) (Nat.le_refl _)

/-- A relation with finitely many sources and no cycle can be descended along. -/
theorem acc_of_acyclic {R : α → α → Prop} (sources : List α) (only : ∀ a b, R a b → a ∈ sources)
    (acyclic : ∀ a, ¬ Relation.TransGen R a a) (a : α) : Acc (fun below above => R above below) a := by
  let Below (x y : {a // a ∈ sources}) : Prop := Relation.TransGen R y.1 x.1
  have : IsTrans _ Below := ⟨fun x y z first second => Relation.TransGen.trans second first⟩
  have : Std.Irrefl Below := ⟨fun x cycle => acyclic x.1 cycle⟩
  have : Finite {a // a ∈ sources} := (List.finite_toSet sources).to_subtype
  have descends : WellFounded Below := Finite.wellFounded_of_trans_of_irrefl Below
  have inside (x : {a // a ∈ sources}) : Acc (fun below above => R above below) x.1 := by
    induction x using descends.induction with
    | _ x ih =>
      refine ⟨_,fun c step => ?_⟩
      by_cases source : c ∈ sources
      · exact ih ⟨c,source⟩ (.single step)
      · exact ⟨_,fun d next => absurd (only c d next) source⟩
  by_cases source : a ∈ sources
  · exact inside ⟨a,source⟩
  · exact ⟨_,fun c step => absurd (only a c step) source⟩

end WarpLoop.Lib.Reach
