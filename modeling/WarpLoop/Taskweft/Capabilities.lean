import Mathlib.Data.List.Basic

/-! The relationship-based access checks of the planner's guest programs
(flow-toolchain/riscv-guests/shrubbery/taskweft-capabilities.shrub and taskweft-rebacgoal.shrub).
Symbols are a type `ν` of nodes; the fuel of the source counts down to `0`. -/
namespace WarpLoop.Taskweft

inductive RelationType
  | owns
  | controls
  | delegatedTo
  | hasCapability
  | isMemberOf
  | supervisorOf
  | partnerOf
  | isA
deriving DecidableEq, Repr

structure Relationship (ν : Type) where
  subject : ν
  relation : RelationType
  object : ν
deriving DecidableEq, Repr

inductive RelationExpr
  | base (rel : RelationType)
  | union (a b : RelationExpr)
  | intersection (a b : RelationExpr)
  | difference (a b : RelationExpr)
  | tupleToUserset (pivotRel : RelationType) (inner : RelationExpr)
deriving DecidableEq, Repr

variable {ν : Type} [DecidableEq ν]

def hasCapability (graph : List (Relationship ν)) (subj : ν) (rel : RelationType) (obj : ν) : Nat → Bool
  | 0 => false
  | n+1 =>
    graph.any (fun r => r = ⟨subj,rel,obj⟩) ||
      graph.any (fun r => r.subject = subj && r.relation = .isMemberOf && hasCapability graph r.object rel obj n) ||
      graph.any (fun r => r.object = subj && r.relation = .delegatedTo && r.subject = obj && rel = .controls)

structure CapabilityState (ν : Type) where
  graph : List (Relationship ν)
  currentTime : Int

def hasCapabilityString (state : CapabilityState ν) (subj : ν) (action : String) (obj : ν) (fuel : Nat) : Bool :=
  if action = "own" then hasCapability state.graph subj .owns obj fuel
  else if action = "control" then hasCapability state.graph subj .controls obj fuel
  else if action = "delegate" then hasCapability state.graph subj .delegatedTo obj fuel
  else if action = "capability" then hasCapability state.graph subj .hasCapability obj fuel
  else if action = "member" then hasCapability state.graph subj .isMemberOf obj fuel
  else if action = "supervisor" then hasCapability state.graph subj .supervisorOf obj fuel
  else if action = "partner" then hasCapability state.graph subj .partnerOf obj fuel
  else if action = "be" then hasCapability state.graph subj .isA obj fuel
  else false

structure RebacState (ν : Type) where
  graph : List (Relationship ν)
  currentTime : Int
  definitions : List (String × RelationExpr)

def checkRelationExpr (graph : List (Relationship ν)) (subj : ν) (expr : RelationExpr) (obj : ν) : Nat → Bool
  | 0 => false
  | n+1 =>
    match expr with
    | .base rel => hasCapability graph subj rel obj n
    | .union a b => checkRelationExpr graph subj a obj n || checkRelationExpr graph subj b obj n
    | .intersection a b => checkRelationExpr graph subj a obj n && checkRelationExpr graph subj b obj n
    | .difference a b => checkRelationExpr graph subj a obj n && !checkRelationExpr graph subj b obj n
    | .tupleToUserset pivotRel inner =>
      graph.any (fun r => r.subject = subj && r.relation = pivotRel && checkRelationExpr graph r.object inner obj n)

def eraseDupsLoop : List ν → List ν → List ν
  | [],_ => []
  | first::rest,seen =>
    if first ∈ seen then eraseDupsLoop rest seen else first::eraseDupsLoop rest (first::seen)

def eraseDups (lst : List ν) : List ν := eraseDupsLoop lst []

def expand (graph : List (Relationship ν)) (rel : RelationType) (obj : ν) (fuel : Nat) : List ν :=
  let direct := graph.filterMap (fun r => if r.relation = rel ∧ r.object = obj then some r.subject else none)
  let inherited := graph.filterMap (fun r =>
    if r.relation = .isMemberOf ∧ hasCapability graph r.object rel obj fuel then some r.subject else none)
  eraseDups (direct ++ inherited)

def hasCapabilityRebac (state : RebacState ν) (subj : ν) (action : String) (obj : ν) (fuel : Nat) : Bool :=
  match state.definitions.lookup action with
  | some expr => checkRelationExpr state.graph subj expr obj fuel
  | none => hasCapabilityString ⟨state.graph,state.currentTime⟩ subj action obj fuel

structure UniGoal (ν : Type) where
  subj : ν
  expr : RelationExpr
  obj : ν

def uniSatisfied (graph : List (Relationship ν)) (fuel : Nat) (g : UniGoal ν) : Bool :=
  checkRelationExpr graph g.subj g.expr g.obj fuel

def multiSatisfied (graph : List (Relationship ν)) (fuel : Nat) (gs : List (UniGoal ν)) : Bool :=
  gs.all (uniSatisfied graph fuel)

end WarpLoop.Taskweft
