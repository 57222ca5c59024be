import WarpLoop.Lib.Reach
import WarpLoop.Taskweft.Capabilities

/-! The access checks against their meaning without fuel. A check follows membership
edges for as many steps as it has fuel; the subjects of the graph's edges bound how
many can be needed, cycles or not. Fuel that runs out denies, which a `difference`
turns into a grant when it happens in its right operand. -/
namespace WarpLoop.Taskweft
open Lib.Reach Relation

variable {ν : Type} [DecidableEq ν]

def Member (graph : List (Relationship ν)) (s t : ν) : Prop := ⟨s,.isMemberOf,t⟩ ∈ graph

/-- The edge itself, or for control the delegation the other way round. -/
def Grants (graph : List (Relationship ν)) (rel : RelationType) (obj s : ν) : Prop :=
  ⟨s,rel,obj⟩ ∈ graph ∨ rel = .controls ∧ ⟨obj,.delegatedTo,s⟩ ∈ graph

/-- The meaning of an expression as a set of subjects. -/
def RelationExpr.Holds (graph : List (Relationship ν)) (obj : ν) : RelationExpr → ν → Prop
  | .base rel,s => ∃ s', ReflTransGen (Member graph) s s' ∧ Grants graph rel obj s'
  | .union a b,s => a.Holds graph obj s ∨ b.Holds graph obj s
  | .intersection a b,s => a.Holds graph obj s ∧ b.Holds graph obj s
  | .difference a b,s => a.Holds graph obj s ∧ ¬ b.Holds graph obj s
  | .tupleToUserset pivotRel inner,s => ∃ t, ⟨s,pivotRel,t⟩ ∈ graph ∧ inner.Holds graph obj t

def RelationExpr.depth : RelationExpr → Nat
  | .base _ => 1
  | .union a b => max a.depth b.depth + 1
  | .intersection a b => max a.depth b.depth + 1
  | .difference a b => max a.depth b.depth + 1
  | .tupleToUserset _ inner => inner.depth + 1

theorem any_edge (graph : List (Relationship ν)) (subj : ν) (rel : RelationType) (passes : ν → Bool) :
    graph.any (fun r => r.subject = subj && r.relation = rel && passes r.object) = true ↔
      ∃ t, ⟨subj,rel,t⟩ ∈ graph ∧ passes t = true := by
  simp only [List.any_eq_true,Bool.and_eq_true,decide_eq_true_eq]
  constructor
  · rintro ⟨⟨s,relation,t⟩,member,⟨rfl,rfl⟩,pass⟩
    exact ⟨t,member,pass⟩
  · rintro ⟨t,member,pass⟩
    exact ⟨_,member,⟨rfl,rfl⟩,pass⟩

theorem hasCapability_step (graph : List (Relationship ν)) (subj : ν) (rel : RelationType) (obj : ν) (n : Nat) :
    hasCapability graph subj rel obj (n + 1) = true ↔
      Grants graph rel obj subj ∨ ∃ t, Member graph subj t ∧ hasCapability graph t rel obj n = true := by
  have direct : graph.any (fun r => r = ⟨subj,rel,obj⟩) = true ↔ ⟨subj,rel,obj⟩ ∈ graph := by simp
  have inherited := any_edge graph subj .isMemberOf (fun t => hasCapability graph t rel obj n)
  have delegated : graph.any (fun r => r.object = subj && r.relation = .delegatedTo && r.subject = obj &&
      rel = .controls) = true ↔ rel = .controls ∧ ⟨obj,.delegatedTo,subj⟩ ∈ graph := by
    simp only [List.any_eq_true,Bool.and_eq_true,decide_eq_true_eq]
    constructor
    · rintro ⟨⟨_,_,_⟩,member,⟨⟨rfl,rfl⟩,rfl⟩,control⟩
      exact ⟨control,member⟩
    · rintro ⟨control,member⟩
      exact ⟨_,member,⟨⟨rfl,rfl⟩,rfl⟩,control⟩
  rw [hasCapability,Bool.or_eq_true,Bool.or_eq_true,direct,delegated,inherited,or_right_comm]
  rfl

theorem hasCapability_succ (graph : List (Relationship ν)) (subj : ν) (rel : RelationType) (obj : ν) (n : Nat) :
    hasCapability graph subj rel obj (n + 1) = true ↔
      ∃ s, ReachIn (Member graph) n subj s ∧ Grants graph rel obj s := by
  induction n generalizing subj with
  | zero =>
    rw [hasCapability_step]
    simp [hasCapability,ReachIn]
  | succ n ih =>
    rw [hasCapability_step]
    constructor
    · rintro (own | ⟨t,member,granted⟩)
      · exact ⟨subj,ReachIn.refl _ _ _,own⟩
      · obtain ⟨s,reach,grants⟩ := (ih t).mp granted
        exact ⟨s,Or.inr ⟨t,member,reach⟩,grants⟩
    · rintro ⟨s,rfl | ⟨t,member,reach⟩,grants⟩
      · exact Or.inl grants
      · exact Or.inr ⟨t,member,(ih t).mpr ⟨s,reach,grants⟩⟩

theorem hasCapability_mono (graph : List (Relationship ν)) (subj : ν) (rel : RelationType) (obj : ν) {n m : Nat}
    (le : n ≤ m) (granted : hasCapability graph subj rel obj n = true) :
    hasCapability graph subj rel obj m = true := by
  cases n with
  | zero => cases granted
  | succ n =>
    obtain ⟨k,rfl⟩ : ∃ k, m = k + 1 := ⟨m - 1,by omega⟩
    obtain ⟨s,reach,grants⟩ := (hasCapability_succ graph subj rel obj n).mp granted
    exact (hasCapability_succ graph subj rel obj k).mpr ⟨s,reach.mono (fun _ _ step => step) (by omega),grants⟩

/-- Fuel beyond the number of edges follows every membership chain to its end. -/
theorem hasCapability_exact (graph : List (Relationship ν)) (subj : ν) (rel : RelationType) (obj : ν) {fuel : Nat}
    (enough : graph.length + 1 ≤ fuel) :
    hasCapability graph subj rel obj fuel = true ↔
      ∃ s, ReflTransGen (Member graph) subj s ∧ Grants graph rel obj s := by
  obtain ⟨n,rfl⟩ : ∃ n, fuel = n + 1 := ⟨fuel - 1,by omega⟩
  rw [hasCapability_succ]
  constructor
  · rintro ⟨s,reach,grants⟩
    exact ⟨s,reach.reflTransGen,grants⟩
  · rintro ⟨s,reach,grants⟩
    let sources : Finset ν := (graph.map Relationship.subject).toFinset
    have few : sources.card ≤ n := by
      have card : sources.card ≤ _ := List.toFinset_card_le (graph.map Relationship.subject)
      rw [List.length_map] at card
      omega
    have only (a b : ν) (step : Member graph a b) : a ∈ sources :=
      List.mem_toFinset.mpr (List.mem_map.mpr ⟨_,step,rfl⟩)
    exact ⟨s,(reachIn_card sources only reach).mono (fun _ _ step => step) few,grants⟩

/-- A check with fuel for the expression and the graph decides the meaning of the expression. -/
theorem checkRelationExpr_exact (graph : List (Relationship ν)) (expr : RelationExpr) (subj obj : ν) (fuel : Nat)
    (enough : expr.depth + graph.length + 1 ≤ fuel) :
    checkRelationExpr graph subj expr obj fuel = true ↔ expr.Holds graph obj subj := by
  induction expr generalizing subj fuel with
  | base rel =>
    simp only [RelationExpr.depth] at enough
    obtain ⟨n,rfl⟩ : ∃ n, fuel = n + 1 := ⟨fuel - 1,by omega⟩
    exact hasCapability_exact graph subj rel obj (by omega)
  | union a b left right =>
    simp only [RelationExpr.depth] at enough
    obtain ⟨n,rfl⟩ : ∃ n, fuel = n + 1 := ⟨fuel - 1,by omega⟩
    rw [checkRelationExpr,Bool.or_eq_true,left subj n (by omega),right subj n (by omega)]
    rfl
  | intersection a b left right =>
    simp only [RelationExpr.depth] at enough
    obtain ⟨n,rfl⟩ : ∃ n, fuel = n + 1 := ⟨fuel - 1,by omega⟩
    rw [checkRelationExpr,Bool.and_eq_true,left subj n (by omega),right subj n (by omega)]
    rfl
  | difference a b left right =>
    simp only [RelationExpr.depth] at enough
    obtain ⟨n,rfl⟩ : ∃ n, fuel = n + 1 := ⟨fuel - 1,by omega⟩
    rw [checkRelationExpr,Bool.and_eq_true,left subj n (by omega),Bool.not_eq_true',← Bool.not_eq_true,
      right subj n (by omega)]
    rfl
  | tupleToUserset pivotRel inner ih =>
    simp only [RelationExpr.depth] at enough
    obtain ⟨n,rfl⟩ : ∃ n, fuel = n + 1 := ⟨fuel - 1,by omega⟩
    have pivots := any_edge graph subj pivotRel (fun t => checkRelationExpr graph t inner obj n)
    rw [checkRelationExpr,pivots]
    simp only [ih _ n (by omega)]
    rfl

/-- Members of one another: the administrators may delete, and nobody owns. -/
def roles : List (Relationship String) :=
  [⟨"alice",.isMemberOf,"staff"⟩,⟨"staff",.isMemberOf,"admins"⟩,⟨"admins",.isMemberOf,"alice"⟩,
    ⟨"admins",.hasCapability,"delete"⟩]

theorem checkRelationExpr_exact_roles :
    (RelationExpr.difference (.base .hasCapability) (.base .owns)).Holds roles "delete" "alice" :=
  (checkRelationExpr_exact roles _ "alice" "delete" 7 (by decide)).mp (by decide +kernel)

/-! Fuel that may run out. -/

/-- How an answer is read when fuel is short: as it is `now`, as a grant that is
`settled` for all further fuel, or as one that is `possible` with some of it. -/
inductive Reading
  | now
  | settled
  | possible
deriving DecidableEq, Repr

/-- How the right operand of a `difference` must not be granted for the whole to be. -/
def Reading.refuted : Reading → Reading
  | .now => .settled
  | .settled => .possible
  | .possible => .settled

/-- The membership steps a base relation is looked for along: as many as there is
fuel for, and any number where more fuel may come. -/
def Reading.Reaches (graph : List (Relationship ν)) : Reading → Nat → ν → ν → Prop
  | .possible,_,s,t => ReflTransGen (Member graph) s t
  | _,0,_,_ => False
  | _,n+1,s,t => ReachIn (Member graph) n s t

/-- What the memberships of the graph tell about an answer with `n` units of fuel. -/
def RelationExpr.Granted (graph : List (Relationship ν)) (obj : ν) : RelationExpr → Reading → Nat → ν → Prop
  | .base rel,reading,n,s => ∃ t, reading.Reaches graph (n - 1) s t ∧ Grants graph rel obj t
  | .union a b,reading,n,s => a.Granted graph obj reading (n - 1) s ∨ b.Granted graph obj reading (n - 1) s
  | .intersection a b,reading,n,s => a.Granted graph obj reading (n - 1) s ∧ b.Granted graph obj reading (n - 1) s
  | .difference a b,reading,n,s =>
    a.Granted graph obj reading (n - 1) s ∧ ¬ b.Granted graph obj reading.refuted (n - 1) s
  | .tupleToUserset pivotRel inner,reading,n,s =>
    ∃ t, ⟨s,pivotRel,t⟩ ∈ graph ∧ inner.Granted graph obj reading (n - 1) t

/-- A grant with this fuel, if there is one, is settled. -/
def RelationExpr.Steady (graph : List (Relationship ν)) (obj : ν) (expr : RelationExpr) (fuel : Nat) (subj : ν) : Prop :=
  expr.Granted graph obj .now fuel subj → expr.Granted graph obj .settled fuel subj

theorem hasCapability_iff (graph : List (Relationship ν)) (subj : ν) (rel : RelationType) (obj : ν) {reading : Reading}
    (short : reading ≠ .possible) (n : Nat) :
    hasCapability graph subj rel obj n = true ↔ ∃ t, reading.Reaches graph n subj t ∧ Grants graph rel obj t := by
  cases n with
  | zero => cases reading <;> simp_all [hasCapability,Reading.Reaches]
  | succ n =>
    rw [hasCapability_succ]
    cases reading with
    | possible => exact absurd rfl short
    | now => rfl
    | settled => rfl

theorem hasCapability_possible {graph : List (Relationship ν)} {subj : ν} {rel : RelationType} {obj : ν} {n : Nat}
    (granted : hasCapability graph subj rel obj n = true) :
    ∃ t, ReflTransGen (Member graph) subj t ∧ Grants graph rel obj t := by
  cases n with
  | zero => cases granted
  | succ n =>
    obtain ⟨t,reach,grants⟩ := (hasCapability_succ graph subj rel obj n).mp granted
    exact ⟨t,reach.reflTransGen,grants⟩

/-- A check that grants has fuel, and what it does with it. -/
theorem checkRelationExpr_grants (graph : List (Relationship ν)) (expr : RelationExpr) (subj obj : ν) (fuel : Nat) :
    checkRelationExpr graph subj expr obj fuel = true ↔ 0 < fuel ∧
      match expr with
      | .base rel => hasCapability graph subj rel obj (fuel - 1) = true
      | .union a b =>
        checkRelationExpr graph subj a obj (fuel - 1) = true ∨ checkRelationExpr graph subj b obj (fuel - 1) = true
      | .intersection a b =>
        checkRelationExpr graph subj a obj (fuel - 1) = true ∧ checkRelationExpr graph subj b obj (fuel - 1) = true
      | .difference a b =>
        checkRelationExpr graph subj a obj (fuel - 1) = true ∧ ¬ checkRelationExpr graph subj b obj (fuel - 1) = true
      | .tupleToUserset pivotRel inner =>
        ∃ t, ⟨subj,pivotRel,t⟩ ∈ graph ∧ checkRelationExpr graph t inner obj (fuel - 1) = true := by
  cases fuel with
  | zero => simp [checkRelationExpr]
  | succ n =>
    cases expr with
    | tupleToUserset pivotRel inner =>
      have pivots := any_edge graph subj pivotRel (fun t => checkRelationExpr graph t inner obj n)
      simpa [checkRelationExpr] using pivots
    | _ => simp [checkRelationExpr]

theorem checkRelationExpr_needs_fuel {graph : List (Relationship ν)} {expr : RelationExpr} {subj obj : ν} {fuel : Nat}
    (granted : checkRelationExpr graph subj expr obj fuel = true) : 0 < fuel :=
  ((checkRelationExpr_grants graph expr subj obj fuel).mp granted).1

/-- A settled grant is given by every check with at least this fuel, and what any of
these checks gives was possible. -/
theorem checkRelationExpr_bounds (graph : List (Relationship ν)) (expr : RelationExpr) (obj : ν) {n m : Nat}
    (le : n ≤ m) (subj : ν) :
    (expr.Granted graph obj .settled n subj → checkRelationExpr graph subj expr obj m = true) ∧
      (checkRelationExpr graph subj expr obj m = true → expr.Granted graph obj .possible n subj) := by
  have less : n - 1 ≤ m - 1 := Nat.sub_le_sub_right le 1
  induction expr generalizing n m subj with
  | base rel =>
    rw [checkRelationExpr_grants]
    constructor
    · intro settled
      have now := (hasCapability_iff graph subj rel obj (by decide : Reading.settled ≠ .possible) (n - 1)).mpr settled
      have fuel : 0 < n - 1 := by
        by_contra none
        rw [Nat.eq_zero_of_not_pos none] at now
        cases now
      exact ⟨by omega,hasCapability_mono graph subj rel obj less now⟩
    · rintro ⟨-,granted⟩
      exact hasCapability_possible granted
  | union a b left right =>
    have left := left less subj (Nat.sub_le_sub_right less 1)
    have right := right less subj (Nat.sub_le_sub_right less 1)
    rw [checkRelationExpr_grants]
    constructor
    · intro settled
      have granted := settled.imp left.1 right.1
      have fuel : 0 < m - 1 := granted.elim checkRelationExpr_needs_fuel checkRelationExpr_needs_fuel
      exact ⟨by omega,granted⟩
    · rintro ⟨-,granted⟩
      exact granted.imp left.2 right.2
  | intersection a b left right =>
    have left := left less subj (Nat.sub_le_sub_right less 1)
    have right := right less subj (Nat.sub_le_sub_right less 1)
    rw [checkRelationExpr_grants]
    constructor
    · intro settled
      have granted := settled.imp left.1 right.1
      have fuel : 0 < m - 1 := checkRelationExpr_needs_fuel granted.1
      exact ⟨by omega,granted⟩
    · rintro ⟨-,granted⟩
      exact granted.imp left.2 right.2
  | difference a b left right =>
    have left := left less subj (Nat.sub_le_sub_right less 1)
    have right := right less subj (Nat.sub_le_sub_right less 1)
    rw [checkRelationExpr_grants]
    constructor
    · rintro ⟨settled,never⟩
      have fuel : 0 < m - 1 := checkRelationExpr_needs_fuel (left.1 settled)
      exact ⟨by omega,left.1 settled,fun granted => never (right.2 granted)⟩
    · rintro ⟨-,granted,denied⟩
      exact ⟨left.2 granted,fun settled => denied (right.1 settled)⟩
  | tupleToUserset pivotRel inner ih =>
    have each := fun t => ih less t (Nat.sub_le_sub_right less 1)
    rw [checkRelationExpr_grants]
    constructor
    · rintro ⟨t,edge,settled⟩
      have granted := (each t).1 settled
      have fuel : 0 < m - 1 := checkRelationExpr_needs_fuel granted
      exact ⟨by omega,t,edge,granted⟩
    · rintro ⟨-,t,edge,granted⟩
      exact ⟨t,edge,(each t).2 granted⟩

/-- What a check grants is granted now. -/
theorem checkRelationExpr_now (graph : List (Relationship ν)) (expr : RelationExpr) (obj : ν) {n : Nat} {subj : ν}
    (granted : checkRelationExpr graph subj expr obj n = true) : expr.Granted graph obj .now n subj := by
  induction expr generalizing n subj with
  | base rel =>
    have granted := ((checkRelationExpr_grants graph _ subj obj n).mp granted).2
    exact (hasCapability_iff graph subj rel obj (by decide : Reading.now ≠ .possible) (n - 1)).mp granted
  | union a b left right =>
    exact ((checkRelationExpr_grants graph _ subj obj n).mp granted).2.imp left right
  | intersection a b left right =>
    exact ((checkRelationExpr_grants graph _ subj obj n).mp granted).2.imp left right
  | difference a b left _ =>
    obtain ⟨-,held,denied⟩ := (checkRelationExpr_grants graph _ subj obj n).mp granted
    exact ⟨left held,fun settled => denied ((checkRelationExpr_bounds graph b obj (Nat.le_refl _) subj).1 settled)⟩
  | tupleToUserset pivotRel inner ih =>
    obtain ⟨-,t,edge,held⟩ := (checkRelationExpr_grants graph _ subj obj n).mp granted
    exact ⟨t,edge,ih held⟩

theorem checkRelationExpr_steady (graph : List (Relationship ν)) (expr : RelationExpr) (subj obj : ν) {n m : Nat}
    (steady : expr.Steady graph obj n subj) (le : n ≤ m) (granted : checkRelationExpr graph subj expr obj n = true) :
    checkRelationExpr graph subj expr obj m = true :=
  (checkRelationExpr_bounds graph expr obj le subj).1 (steady (checkRelationExpr_now graph expr obj granted))

/-- An expression without `difference`. -/
def RelationExpr.Positive : RelationExpr → Prop
  | .base _ => True
  | .union a b => a.Positive ∧ b.Positive
  | .intersection a b => a.Positive ∧ b.Positive
  | .difference _ _ => False
  | .tupleToUserset _ inner => inner.Positive

omit [DecidableEq ν] in
theorem RelationExpr.Positive.settled {expr : RelationExpr} (positive : expr.Positive) (graph : List (Relationship ν))
    (obj : ν) {n : Nat} {s : ν} (now : expr.Granted graph obj .now n s) : expr.Granted graph obj .settled n s := by
  induction expr generalizing n s with
  | base rel =>
    obtain ⟨t,reach,grants⟩ := now
    refine ⟨t,?_,grants⟩
    cases fuel : n - 1 <;> rw [fuel] at reach <;> exact reach
  | union a b left right => exact now.imp (left positive.1) (right positive.2)
  | intersection a b left right => exact now.imp (left positive.1) (right positive.2)
  | difference a b => exact positive.elim
  | tupleToUserset pivotRel inner ih =>
    obtain ⟨t,edge,now⟩ := now
    exact ⟨t,edge,ih positive now⟩

omit [DecidableEq ν] in
theorem RelationExpr.Positive.holds {expr : RelationExpr} (positive : expr.Positive) (graph : List (Relationship ν))
    (obj : ν) {n : Nat} {s : ν} (possible : expr.Granted graph obj .possible n s) : expr.Holds graph obj s := by
  induction expr generalizing n s with
  | base rel => exact possible
  | union a b left right => exact possible.imp (left positive.1) (right positive.2)
  | intersection a b left right => exact possible.imp (left positive.1) (right positive.2)
  | difference a b => exact positive.elim
  | tupleToUserset pivotRel inner ih =>
    obtain ⟨t,edge,possible⟩ := possible
    exact ⟨t,edge,ih positive possible⟩

omit [DecidableEq ν] in
/-- Without `difference` every grant is settled. -/
theorem RelationExpr.Positive.steady {expr : RelationExpr} (positive : expr.Positive) (graph : List (Relationship ν))
    (obj : ν) (fuel : Nat) (subj : ν) : expr.Steady graph obj fuel subj := positive.settled graph obj

/-- For a `difference` of expressions without another one the condition is exact. -/
theorem difference_steady_iff (graph : List (Relationship ν)) {a b : RelationExpr} (left : a.Positive)
    (right : b.Positive) (subj obj : ν) (n : Nat) :
    (RelationExpr.difference a b).Steady graph obj n subj ↔
      (checkRelationExpr graph subj (.difference a b) obj n = true →
        ∀ m, n ≤ m → checkRelationExpr graph subj (.difference a b) obj m = true) := by
  constructor
  · intro steady granted m le
    exact checkRelationExpr_steady graph _ subj obj steady le granted
  · rintro stays ⟨held,open_⟩
    have now := (checkRelationExpr_bounds graph a obj (Nat.le_refl _) subj).1 (left.settled graph obj held)
    have some_fuel := checkRelationExpr_needs_fuel now
    have denied : ¬ checkRelationExpr graph subj b obj (n - 1) = true :=
      fun granted => open_ (right.settled graph obj (checkRelationExpr_now graph b obj granted))
    have granted := (checkRelationExpr_grants graph (.difference a b) subj obj n).mpr ⟨by omega,now,denied⟩
    refine ⟨left.settled graph obj held,fun possible => ?_⟩
    -- with fuel for the whole graph the right operand is granted, and the difference is denied
    have later := stays granted (n + (b.depth + graph.length + 2)) (Nat.le_add_right _ _)
    obtain ⟨-,-,denied⟩ := (checkRelationExpr_grants graph (.difference a b) subj obj _).mp later
    exact denied ((checkRelationExpr_exact graph b subj obj _ (by omega)).mpr (right.holds graph obj possible))

theorem hasCapabilityString_mono (state : CapabilityState ν) (subj : ν) (action : String) (obj : ν) {n m : Nat}
    (le : n ≤ m) (granted : hasCapabilityString state subj action obj n = true) :
    hasCapabilityString state subj action obj m = true := by
  have mono := fun rel => hasCapability_mono state.graph subj rel obj le
  unfold hasCapabilityString at granted ⊢
  repeat' split at granted
  all_goals simp_all

/-- Access granted with some fuel is granted with any more fuel, as long as the fuel
settles what the right operands of `difference` in the action's definition deny. -/
theorem hasCapabilityRebac_steady (state : RebacState ν) (subj : ν) (action : String) (obj : ν) (fuel more : Nat)
    (le : fuel ≤ more)
    (steady : ∀ expr, state.definitions.lookup action = some expr → expr.Steady state.graph obj fuel subj)
    (granted : hasCapabilityRebac state subj action obj fuel = true) :
    hasCapabilityRebac state subj action obj more = true := by
  unfold hasCapabilityRebac at granted ⊢
  cases found : state.definitions.lookup action with
  | none =>
    rw [found] at granted
    exact hasCapabilityString_mono _ subj action obj le granted
  | some expr =>
    rw [found] at granted
    exact checkRelationExpr_steady state.graph expr subj obj (steady expr found) le granted

theorem multiSatisfied_steady (graph : List (Relationship ν)) (gs : List (UniGoal ν)) {fuel more : Nat} (le : fuel ≤ more)
    (steady : ∀ g ∈ gs, g.expr.Steady graph g.obj fuel g.subj) (met : multiSatisfied graph fuel gs = true) :
    multiSatisfied graph more gs = true := by
  simp only [multiSatisfied,List.all_eq_true,uniSatisfied] at met ⊢
  intro g member
  exact checkRelationExpr_steady graph g.expr g.subj g.obj (steady g member) le (met g member)

/-- Owners enter unless they are partners of the house, which the owner `alice` is
through a membership. -/
def houseRules : RebacState String where
  graph := [⟨"alice",.owns,"house"⟩,⟨"alice",.isMemberOf,"tenants"⟩,⟨"tenants",.partnerOf,"house"⟩,
    ⟨"bob",.owns,"house"⟩]
  currentTime := 0
  definitions := [("enter",.difference (.base .owns) (.base .partnerOf)),
    ("use",.union (.base .owns) (.base .partnerOf))]

/-- `bob` is nobody's member, so fuel 3 settles that he enters. -/
theorem hasCapabilityRebac_steady_enter :
    hasCapabilityRebac houseRules "bob" "enter" "house" 3 = true ∧
      hasCapabilityRebac houseRules "bob" "enter" "house" 100 = true := by
  have granted : hasCapabilityRebac houseRules "bob" "enter" "house" 3 = true := by decide +kernel
  refine ⟨granted,hasCapabilityRebac_steady houseRules "bob" "enter" "house" 3 100 (by decide) ?_ granted⟩
  intro expr found
  obtain rfl : expr = .difference (.base .owns) (.base .partnerOf) := by
    have defined : houseRules.definitions.lookup "enter" = some (.difference (.base .owns) (.base .partnerOf)) := by
      decide +kernel
    exact Option.some.inj (found.symm.trans defined)
  have alone (t : String) : ¬ Member houseRules.graph "bob" t := by simp [Member,houseRules]
  rintro ⟨owns,-⟩
  refine ⟨owns,?_⟩
  rintro ⟨t,reach,partner⟩
  rcases reach.cases_head with rfl | ⟨group,member,-⟩
  · simp [Grants,houseRules] at partner
  · exact alone group member

/-- With fuel 3 the membership is not followed, and `alice` is let in. -/
theorem short_fuel_grants :
    hasCapabilityRebac houseRules "alice" "enter" "house" 3 = true ∧
      hasCapabilityRebac houseRules "alice" "enter" "house" 4 = false := by
  decide +kernel

end WarpLoop.Taskweft
