import Mathlib.Algebra.Order.Group.Defs
import Mathlib.Algebra.Order.Monoid.Unbundled.MinMax
import Mathlib.Order.Bounds.Basic
import Mathlib.Data.List.Perm.Basic

/-! Walks in a weighted complete digraph, given by the points between their ends, and
the relaxation of distances through one more point. Distances relaxed through a set
of points are weights of walks through it, and bound every walk that visits each of
its points at most once between its ends. -/
namespace WarpLoop.Lib.Walks

variable {α M : Type*}

theorem repeated_split {points : List α} (repeated : ¬ points.Nodup) :
    ∃ front a between back, points = front ++ a::(between ++ a::back) := by
  induction points with
  | nil => exact absurd List.nodup_nil repeated
  | cons first rest ih =>
    by_cases again : first ∈ rest
    · obtain ⟨between,back,rfl⟩ := List.append_of_mem again
      exact ⟨[],first,between,back,rfl⟩
    · obtain ⟨front,a,between,back,rfl⟩ := ih (fun distinct => repeated (List.nodup_cons.mpr ⟨again,distinct⟩))
      exact ⟨first::front,a,between,back,rfl⟩

section Weights
variable [AddCommGroup M] (g : α → α → M)

def weight : α → List α → α → M
  | i,[],j => g i j
  | i,k::points,j => g i k + weight k points j

theorem weight_append (i k j : α) (front back : List α) :
    weight g i (front ++ k::back) j = weight g i front k + weight g k back j := by
  induction front generalizing i with
  | nil => rfl
  | cons m front ih => rw [List.cons_append,weight,weight,ih,add_assoc]

theorem weight_rotate (i m : α) (front back : List α) :
    weight g m (back ++ i::front) m = weight g i (front ++ m::back) i := by
  rw [weight_append,weight_append,add_comm]

/-- A walk that passes a point twice is a shorter walk and a closed one. -/
theorem weight_shortcut (i a j : α) (front between back : List α) :
    weight g i (front ++ a::(between ++ a::back)) j = weight g i (front ++ a::back) j + weight g a between a := by
  rw [weight_append,weight_append,weight_append,add_assoc,add_comm (weight g a back j)]

/-- Every distance is the weight of a walk through the points. -/
def Attained (through : α → Prop) (d : α → α → M) : Prop :=
  ∀ i j, ∃ points : List α, (∀ m ∈ points, through m) ∧ d i j = weight g i points j

theorem attained_start : Attained g (fun _ => False) g := fun _ _ => ⟨[],by simp,rfl⟩

end Weights

section Distances
variable [AddCommGroup M] [LinearOrder M] (g : α → α → M)

def relax (k : α) (d : α → α → M) : α → α → M := fun i j => min (d i j) (d i k + d k j)

/-- No walk through distinct ones of the points is shorter than the distance. -/
def Bounds (through : α → Prop) (d : α → α → M) : Prop :=
  ∀ i j (points : List α), points.Nodup → (∀ m ∈ points, through m) → d i j ≤ weight g i points j

theorem bounds_start : Bounds g (fun _ => False) g := by
  intro i j points _ none
  cases points with
  | nil => exact le_rfl
  | cons m points => exact (none m (by simp)).elim

variable {g}

theorem Attained.relax {through : α → Prop} {d : α → α → M} (attained : Attained g through d) (k : α) :
    Attained g (fun m => m = k ∨ through m) (relax k d) := by
  intro i j
  obtain ⟨direct,inside,eq⟩ := attained i j
  obtain ⟨first,insideFirst,eqFirst⟩ := attained i k
  obtain ⟨second,insideSecond,eqSecond⟩ := attained k j
  rcases min_choice (d i j) (d i k + d k j) with chosen | chosen
  · exact ⟨direct,fun m member => Or.inr (inside m member),chosen.trans eq⟩
  · refine ⟨first ++ k::second,?_,?_⟩
    · intro m member
      rcases List.mem_append.mp member with early | late
      · exact Or.inr (insideFirst m early)
      · rcases List.mem_cons.mp late with rfl | behind
        · exact Or.inl rfl
        · exact Or.inr (insideSecond m behind)
    · rw [weight_append,← eqFirst,← eqSecond]
      exact chosen

end Distances

section Order
variable [AddCommGroup M] [LinearOrder M] [IsOrderedAddMonoid M]

/-- A walk can be cut down to distinct points, at no greater weight unless some closed
walk over its points is negative. -/
theorem exists_distinct (g : α → α → M) (i j : α) (points : List α)
    (nonneg : ∀ a between, a ∈ points → (∀ m ∈ between, m ∈ points) → 0 ≤ weight g a between a) :
    ∃ short : List α, short.Nodup ∧ (∀ m ∈ short, m ∈ points) ∧ weight g i short j ≤ weight g i points j := by
  generalize size : points.length = n
  induction n using Nat.strong_induction_on generalizing points with
  | _ n ih =>
    by_cases distinct : points.Nodup
    · exact ⟨points,distinct,fun _ member => member,le_rfl⟩
    · obtain ⟨front,a,between,back,rfl⟩ := repeated_split distinct
      have inside (m : α) (member : m ∈ front ++ a::back) : m ∈ front ++ a::(between ++ a::back) := by
        simp only [List.mem_append,List.mem_cons] at member ⊢
        tauto
      have closed : 0 ≤ weight g a between a := nonneg a between (by simp) (fun m member => by simp [member])
      obtain ⟨short,nodup,sub,le⟩ := ih (front ++ a::back).length (by simp at size ⊢; omega) (front ++ a::back)
        (fun b points member all => nonneg b points (inside b member) (fun m other => inside m (all m other))) rfl
      refine ⟨short,nodup,fun m member => inside m (sub m member),le.trans ?_⟩
      rw [weight_shortcut]
      exact le_add_of_nonneg_right closed

theorem exists_simple (g : α → α → M) (i : α) (points : List α) (negative : weight g i points i < 0) :
    ∃ a cycle, (a::cycle).Nodup ∧ (∀ m ∈ a::cycle, m ∈ i::points) ∧ weight g a cycle a < 0 := by
  generalize size : points.length = n
  induction n using Nat.strong_induction_on generalizing i points with
  | _ n ih =>
    by_cases distinct : (i::points).Nodup
    · exact ⟨i,points,distinct,fun _ member => member,negative⟩
    · obtain ⟨b,walk,shorter,visited,less⟩ : ∃ b walk, walk.length < n ∧ (∀ m ∈ b::walk, m ∈ i::points) ∧
          weight g b walk b < 0 := by
        by_cases again : i ∈ points
        · -- the walk comes back to its start on the way
          obtain ⟨front,back,rfl⟩ := List.append_of_mem again
          rw [weight_append] at negative
          simp only [List.length_append,List.length_cons] at size
          rcases lt_or_lt_of_add_lt_add (negative.trans_eq (add_zero 0).symm) with first | second
          · exact ⟨i,front,by omega,fun m member => by simp only [List.mem_cons,List.mem_append] at member ⊢; tauto,first⟩
          · exact ⟨i,back,by omega,fun m member => by simp only [List.mem_cons,List.mem_append] at member ⊢; tauto,second⟩
        · obtain ⟨front,a,between,back,rfl⟩ :=
            repeated_split (fun nodup => distinct (List.nodup_cons.mpr ⟨again,nodup⟩))
          rw [weight_shortcut] at negative
          simp only [List.length_append,List.length_cons] at size
          rcases lt_or_lt_of_add_lt_add (negative.trans_eq (add_zero 0).symm) with outer | inner
          · refine ⟨i,front ++ a::back,by simp; omega,fun m member => ?_,outer⟩
            simp only [List.mem_cons,List.mem_append] at member ⊢
            tauto
          · refine ⟨a,between,by omega,fun m member => ?_,inner⟩
            simp only [List.mem_cons,List.mem_append] at member ⊢
            tauto
      obtain ⟨a,cycle,nodup,sub,below⟩ := ih walk.length shorter b walk less rfl
      exact ⟨a,cycle,nodup,fun m member => visited m (sub m member),below⟩

variable {g : α → α → M}

theorem Bounds.relax {through : α → Prop} {d : α → α → M} (bounds : Bounds g through d) (k : α) :
    Bounds g (fun m => m = k ∨ through m) (relax k d) := by
  intro i j points distinct inside
  by_cases passes : k ∈ points
  · -- the walk passes `k` once, and both parts of it go through the other points
    obtain ⟨front,back,rfl⟩ := List.append_of_mem passes
    obtain ⟨nodupFront,nodupBack,apart⟩ := List.nodup_append.mp distinct
    obtain ⟨notBehind,nodupBack⟩ := List.nodup_cons.mp nodupBack
    have first : d i k ≤ weight g i front k := by
      apply bounds i k front nodupFront
      intro m member
      rcases inside m (by simp [member]) with rfl | other
      · exact absurd rfl (apart m member m (by simp))
      · exact other
    have second : d k j ≤ weight g k back j := by
      apply bounds k j back nodupBack
      intro m member
      rcases inside m (by simp [member]) with rfl | other
      · exact absurd member notBehind
      · exact other
    rw [weight_append]
    exact (min_le_right _ _).trans (add_le_add first second)
  · apply (min_le_left _ _).trans
    apply bounds i j points distinct
    intro m member
    rcases inside m member with rfl | other
    · exact absurd member passes
    · exact other

/-- Relaxing through the points of a list, one after another. -/
theorem relax_all {through : α → Prop} {d : α → α → M} (ks : List α) (attained : Attained g through d)
    (bounds : Bounds g through d) :
    Attained g (fun m => m ∈ ks ∨ through m) (ks.foldl (fun d k => relax k d) d) ∧
      Bounds g (fun m => m ∈ ks ∨ through m) (ks.foldl (fun d k => relax k d) d) := by
  induction ks generalizing through d with
  | nil => simpa using ⟨attained,bounds⟩
  | cons k ks ih =>
    have points : (fun m => m ∈ k::ks ∨ through m) = (fun m => m ∈ ks ∨ m = k ∨ through m) := by
      funext m
      simp only [List.mem_cons,eq_iff_iff]
      tauto
    rw [points,List.foldl_cons]
    exact ih (attained.relax k) (bounds.relax k)

end Order

end WarpLoop.Lib.Walks
