import Mathlib.Order.Interval.Set.Basic
import Mathlib.Algebra.Order.Ring.Int
import WarpLoop.Lib.Walks
import WarpLoop.Scheme.Numbers

/-! Shortest distances between numbered nodes
(flow-toolchain/riscv-guests/shrubbery/taskweft-floydwarshall.shrub). The distances are a function
of two nodes, as in the source, and its numbers are those of the interpreter: a sum that leaves
the 64 bits is a real, and rounded. Beside it stands the recurrence over all integers, which the
code follows as long as no sum does. -/
namespace WarpLoop.Taskweft
open Lib.Walks Scheme

def rangeLoop (i n : Nat) (acc : List Nat) : List Nat :=
  if i ≥ n then acc.reverse else rangeLoop (i + 1) n (i::acc)
termination_by n - i

def range (n : Nat) : List Nat := rangeLoop 0 n []

structure FwResult where
  dist : Nat → Nat → Number
  hasNegativeCycle : Bool
  negativeCycleNodes : List (Nat × Nat)

def fwStep (k : Nat) (d : Nat → Nat → Number) : Nat → Nat → Number :=
  fun i j => (d i j).min ((d i k).add (d k j))

def fwRunFold : List Nat → (Nat → Nat → Number) → Nat → Nat → Number
  | [],d => d
  | k::ks,d => fwRunFold ks (fwStep k d)

def fwRun (n : Nat) (g : Nat → Nat → Number) : FwResult :=
  let ks := range n
  let d := fwRunFold ks g
  {dist := d
   hasNegativeCycle := ks.any (fun i => (d i i).less 0)
   negativeCycleNodes := ks.filterMap (fun i => if (d i i).less 0 then some (i,i) else none)}

theorem rangeLoop_eq (i n : Nat) (acc : List Nat) : rangeLoop i n acc = acc.reverse ++ List.range' i (n - i) := by
  generalize steps : n - i = k
  induction k generalizing i acc with
  | zero =>
    rw [rangeLoop,if_pos (by omega)]
    simp
  | succ k ih =>
    rw [rangeLoop,if_neg (by omega),ih (i + 1) (i::acc) (by omega),List.range'_succ]
    simp

theorem range_eq (n : Nat) : range n = List.range n := by
  rw [range,rangeLoop_eq,List.range_eq_range']
  simp

theorem mem_range (n m : Nat) : m ∈ range n ↔ m < n := by
  rw [range_eq]
  exact List.mem_range

/-! The recurrence over all integers. -/

/-- The distances through the nodes below `k`. -/
def distances (g : Nat → Nat → Int) : Nat → Nat → Nat → Int
  | 0 => g
  | k+1 => relax k (distances g k)

theorem distances_eq (g : Nat → Nat → Int) (k : Nat) :
    distances g k = (range k).foldl (fun d k => relax k d) g := by
  rw [range_eq]
  induction k with
  | zero => rfl
  | succ k ih => rw [distances,ih,List.range_succ,List.foldl_concat]

def Inside (n : Nat) (points : List Nat) : Prop := ∀ m ∈ points, m < n

/-- A closed walk from `i` over the points, of negative weight, inside the graph. -/
def NegativeWalk (n : Nat) (g : Nat → Nat → Int) (i : Nat) (points : List Nat) : Prop :=
  Inside n (i::points) ∧ weight g i points i < 0

section Recurrence
variable (n : Nat) (g : Nat → Nat → Int)

theorem distances_attained (i j : Nat) : ∃ points, Inside n points ∧ distances g n i j = weight g i points j := by
  obtain ⟨points,inside,eq⟩ := (relax_all (range n) (attained_start g) (bounds_start g)).1 i j
  refine ⟨points,fun m member => ?_,?_⟩
  · simpa [mem_range] using inside m member
  · rw [distances_eq]
    exact eq

theorem distances_bounds (i j : Nat) {points : List Nat} (distinct : points.Nodup) (inside : Inside n points) :
    distances g n i j ≤ weight g i points j := by
  have bounds := (relax_all (range n) (attained_start g) (bounds_start g)).2 i j points distinct
    (fun m member => Or.inl ((mem_range n m).mpr (inside m member)))
  rw [distances_eq]
  exact bounds

theorem negativeWalk_of_distance {i : Nat} (below : i < n) (negative : distances g n i i < 0) :
    ∃ points, NegativeWalk n g i points := by
  obtain ⟨points,inside,eq⟩ := distances_attained n g i i
  refine ⟨points,fun m member => ?_,eq ▸ negative⟩
  rcases List.mem_cons.mp member with rfl | other
  · exact below
  · exact inside m other

/-- Every node of a negative cycle without repetitions has a negative distance to itself. -/
theorem distance_of_cycle {i : Nat} {points : List Nat} (distinct : (i::points).Nodup)
    (negative : NegativeWalk n g i points) (m : Nat) (member : m ∈ i::points) : distances g n m m < 0 := by
  obtain ⟨inside,below⟩ := negative
  -- the cycle from `m` on
  obtain ⟨rotated,nodup,within,same⟩ : ∃ rotated : List Nat, rotated.Nodup ∧ Inside n rotated ∧
      weight g m rotated m = weight g i points i := by
    rcases List.mem_cons.mp member with rfl | later
    · exact ⟨points,(List.nodup_cons.mp distinct).2,fun k other => inside k (by simp [other]),rfl⟩
    · obtain ⟨front,back,rfl⟩ := List.append_of_mem later
      have moved : (m::(back ++ i::front)).Perm (i::(front ++ m::back)) := by
        have swapped : ((m::back) ++ (i::front)).Perm ((i::front) ++ (m::back)) := List.perm_append_comm
        exact swapped
      refine ⟨back ++ i::front,(List.nodup_cons.mp (moved.nodup_iff.mpr distinct)).2,?_,weight_rotate g i m front back⟩
      intro k other
      exact inside k (moved.mem_iff.mp (by simp only [List.mem_cons]; exact Or.inr other))
  exact lt_of_le_of_lt (distances_bounds n g m m nodup within) (same ▸ below)

theorem exists_negative_iff : (∃ i, i < n ∧ distances g n i i < 0) ↔ ∃ i points, NegativeWalk n g i points := by
  constructor
  · rintro ⟨i,below,negative⟩
    exact ⟨i,negativeWalk_of_distance n g below negative⟩
  · rintro ⟨i,points,inside,negative⟩
    obtain ⟨a,cycle,distinct,visited,below⟩ := exists_simple g i points negative
    have within (m : Nat) (member : m ∈ a::cycle) : m < n := inside m (visited m member)
    exact ⟨a,within a (by simp),distance_of_cycle n g distinct ⟨within,below⟩ a (by simp)⟩

/-- Without a negative closed walk the distances are the least weights of walks. -/
theorem distances_least (none : ¬ ∃ i points, NegativeWalk n g i points) (i j : Nat) :
    IsLeast {w | ∃ points, Inside n points ∧ w = weight g i points j} (distances g n i j) := by
  obtain ⟨points,inside,eq⟩ := distances_attained n g i j
  refine ⟨⟨points,inside,eq⟩,?_⟩
  rintro w ⟨walk,within,rfl⟩
  obtain ⟨short,distinct,sub,le⟩ := exists_distinct g i j walk (fun a between member all => by
    by_contra negative
    refine none ⟨a,between,fun m other => ?_,not_le.mp negative⟩
    rcases List.mem_cons.mp other with rfl | inner
    · exact within m member
    · exact within m (all m inner))
  exact (distances_bounds n g i j distinct (fun m member => within m (sub m member))).trans le

end Recurrence

/-! What the code computes. -/

theorem fwRunFold_append (ks ls : List Nat) (d : Nat → Nat → Number) :
    fwRunFold (ks ++ ls) d = fwRunFold ls (fwRunFold ks d) := by
  induction ks generalizing d with
  | nil => rfl
  | cons k ks ih => exact ih (fwStep k d)

section Weights
variable (n : Nat) (w : Nat → Nat → Int64)

/-- The weights as the integers they stand for. -/
def weights : Nat → Nat → Int := fun i j => (w i j).toInt

/-- No sum of the recurrence leaves the 64 bits. -/
def NoOverflow : Prop :=
  ∀ k i j, k < n → i < n → j < n → Fits (distances (weights w) k i k + distances (weights w) k k j)

instance : Decidable (NoOverflow n w) :=
  decidable_of_iff (∀ k < n, ∀ i < n, ∀ j < n, Fits (distances (weights w) k i k + distances (weights w) k k j))
    ⟨fun all k i j below left right => all k below i left j right,
      fun all k below i left j right => all k i j below left right⟩

def fwRunOf : FwResult := fwRun n (fun i j => .integer (w i j))

variable {n w}

/-- One relaxation adds and compares integers as long as the sums fit. -/
theorem fwRunFold_is (fits : NoOverflow n w) {k : Nat} (le : k ≤ n) {i j : Nat} (left : i < n) (right : j < n) :
    (fwRunFold (range k) (fun i j => .integer (w i j)) i j).Is (distances (weights w) k i j) := by
  rw [range_eq]
  induction k generalizing i j with
  | zero => exact Number.integer_is (w i j)
  | succ k ih =>
    have below : k < n := le
    have before {i j : Nat} (left : i < n) (right : j < n) := ih (Nat.le_of_lt below) left right
    rw [List.range_succ,fwRunFold_append]
    exact (before left right).min ((before left below).add (before below right) (fits k i j below left right))

theorem mem_negativeCycleNodes (fits : NoOverflow n w) (a b : Nat) :
    (a,b) ∈ (fwRunOf n w).negativeCycleNodes ↔ a < n ∧ a = b ∧ distances (weights w) n a a < 0 := by
  have sign {i : Nat} (below : i < n) := (fwRunFold_is fits (Nat.le_refl n) below below).less
    (Number.fixnum_is (by decide : Fits 0))
  simp only [fwRunOf,fwRun,List.mem_filterMap,mem_range]
  constructor
  · rintro ⟨i,below,listed⟩
    split at listed
    · rename_i negative
      obtain ⟨rfl,rfl⟩ := Prod.mk.inj (Option.some.inj listed)
      exact ⟨below,rfl,of_decide_eq_true ((sign below).symm.trans negative)⟩
    · cases listed
  · rintro ⟨below,rfl,negative⟩
    refine ⟨a,below,if_pos ((sign below).trans (decide_eq_true negative))⟩

theorem hasNegativeCycle_iff : (fwRunOf n w).hasNegativeCycle = true ↔ ∃ i, (i,i) ∈ (fwRunOf n w).negativeCycleNodes := by
  simp only [fwRunOf,fwRun,List.any_eq_true,List.mem_filterMap]
  constructor
  · rintro ⟨i,member,negative⟩
    exact ⟨i,i,member,if_pos negative⟩
  · rintro ⟨i,j,member,listed⟩
    split at listed
    · rename_i negative
      exact ⟨j,member,negative⟩
    · cases listed

variable (n w)

/-- Negative closed walks are found and located, and without them the distances are
integers, the least weights of walks. -/
structure FwCorrect : Prop where
  found : (fwRunOf n w).hasNegativeCycle = true ↔ ∃ i points, NegativeWalk n (weights w) i points
  located : ∀ a b, (a,b) ∈ (fwRunOf n w).negativeCycleNodes → a = b ∧ ∃ points, NegativeWalk n (weights w) a points
  listed : ∀ i points, (i::points).Nodup → NegativeWalk n (weights w) i points →
    ∀ m ∈ i::points, (m,m) ∈ (fwRunOf n w).negativeCycleNodes
  least : (¬ ∃ i points, NegativeWalk n (weights w) i points) → ∀ i j, i < n → j < n →
    ∃ d, ((fwRunOf n w).dist i j).Is d ∧ IsLeast {v | ∃ points, Inside n points ∧ v = weight (weights w) i points j} d

end Weights

/-- Three nodes: a cycle of weight -1 through the first two and back, and the third apart. -/
def smallGraph : Nat → Nat → Int64
  | 0,1 => 4
  | 1,0 => -5
  | _,_ => 7

/-- The cycle 0, 1, 2 has weight -11, but the way from 0 over 1 to 2 has none of 64 bits. -/
def steepGraph : Nat → Nat → Int64
  | 0,1 => -9223372036854775798
  | 1,2 => -20
  | _,_ => 9223372036854775807

end WarpLoop.Taskweft
