import WarpLoop.Lib.Reach

/-! The forward-decomposition planner (flow-toolchain/riscv-guests/shrubbery/taskweft-lite.shrub).
The mutual recursion of the source has no bound of its own; here it runs on fuel, and
a search that runs out of it has no result. A result of `none` is the source's `#f`. -/
namespace WarpLoop.Taskweft

/-- A task is a list whose head is its name. -/
structure Task (η : Type) where
  name : η
  args : List η
deriving DecidableEq, Repr

/-- One way to carry out a method: a label and the subtasks. -/
structure Alternative (η : Type) where
  label : η
  subtasks : List (Task η)
deriving DecidableEq, Repr

variable {η κ ω : Type} [DecidableEq η] [DecidableEq κ]

def alistSet (key : κ) (val : ω) : List (κ × ω) → List (κ × ω)
  | [] => [(key,val)]
  | entry::al => if entry.1 = key then (key,val)::al else entry::alistSet key val al

def applyEffects (state : List (κ × ω)) : List (κ × ω) → List (κ × ω)
  | [] => state
  | effect::effects => applyEffects (alistSet effect.1 effect.2 state) effects

structure Domain (η κ ω : Type) where
  actions : List (η × List (κ × ω))
  methods : List (η × List (Alternative η))

/-- No state when there is no such action. -/
def runAction (domain : Domain η κ ω) (state : List (κ × ω)) (name : η) : Option (List (κ × ω)) :=
  (domain.actions.lookup name).map (applyEffects state)

mutual

def findPlan (domain : Domain η κ ω) : Nat → List (κ × ω) → List (Task η) → Option (Option (List (κ × ω) × List η))
  | 0,_,_ => none
  | _+1,state,[] => some (some (state,[]))
  | fuel+1,state,task::rest =>
    match runAction domain state task.name with
    | some newState =>
      match findPlan domain fuel newState rest with
      | none => none
      | some (some (final,plan)) => some (some (final,task.name::plan))
      | some none => some none
    | none =>
      match domain.methods.lookup task.name with
      | some alts => tryAlternatives domain fuel state rest alts
      | none => some none

def tryAlternatives (domain : Domain η κ ω) : Nat → List (κ × ω) → List (Task η) → List (Alternative η) →
    Option (Option (List (κ × ω) × List η))
  | 0,_,_,_ => none
  | _+1,_,_,[] => some none
  | fuel+1,state,todo,alt::alts =>
    match findPlan domain fuel state (alt.subtasks ++ todo) with
    | none => none
    | some (some result) => some (some result)
    | some none => tryAlternatives domain fuel state todo alts

end

/-! What a search is to find. -/

/-- A task list is carried out by a plan, with the alternative taken at each method in
the order in which the methods come up. -/
inductive Decomposes (domain : Domain η κ ω) : List Nat → List (Task η) → List η → Prop
  | done : Decomposes domain [] [] []
  | action {choices task rest plan} (effects : List (κ × ω)) : domain.actions.lookup task.name = some effects →
      Decomposes domain choices rest plan → Decomposes domain choices (task::rest) (task.name::plan)
  | method {choices task rest plan} (alts : List (Alternative η)) (i : Nat) (alt : Alternative η) :
      domain.actions.lookup task.name = none → domain.methods.lookup task.name = some alts → alts[i]? = some alt →
      Decomposes domain choices (alt.subtasks ++ rest) plan → Decomposes domain (i::choices) (task::rest) plan

/-- The order in which choices are tried: the first one that differs decides. -/
def NoLater (choices others : List Nat) : Prop := choices = others ∨ List.Lex (· < ·) choices others

def Domain.execute (domain : Domain η κ ω) (state : List (κ × ω)) (plan : List η) : List (κ × ω) :=
  plan.foldl (fun state name => applyEffects state ((domain.actions.lookup name).getD [])) state

/-- What a plan writes, in the order in which it is written. -/
def Domain.writes (domain : Domain η κ ω) (plan : List η) : List (κ × ω) :=
  plan.flatMap (fun name => (domain.actions.lookup name).getD [])

/-- A key holds what was written to it last, and what it held before if nothing was. -/
def Holds (state writes final : List (κ × ω)) : Prop :=
  ∀ key, final.lookup key = (writes.reverse.lookup key).or (state.lookup key)

/-- A method refers to the tasks of its alternatives. -/
def Domain.Refers (domain : Domain η κ ω) (method sub : η) : Prop :=
  ∃ alts, domain.methods.lookup method = some alts ∧ ∃ alt ∈ alts, ∃ task ∈ alt.subtasks, task.name = sub

/-- The result of a search: the plan of the first decomposition, in the order of the
choices made, or the failure that there is none. -/
def Searched (domain : Domain η κ ω) (state : List (κ × ω)) (todo : List (Task η)) :
    Option (List (κ × ω) × List η) → Prop
  | some (final,plan) => final = domain.execute state plan ∧ ∃ choices, Decomposes domain choices todo plan ∧
      ∀ others other, Decomposes domain others todo other → NoLater choices others
  | none => ∀ choices plan, ¬ Decomposes domain choices todo plan

/-- The same for the alternatives of one method, tried before the rest of the tasks. -/
def SearchedAlts (domain : Domain η κ ω) (state : List (κ × ω)) (todo : List (Task η)) (alts : List (Alternative η)) :
    Option (List (κ × ω) × List η) → Prop
  | some (final,plan) => final = domain.execute state plan ∧ ∃ i alt choices, alts[i]? = some alt ∧
      Decomposes domain choices (alt.subtasks ++ todo) plan ∧
      ∀ (j : Nat) (other : Alternative η) others plan', alts[j]? = some other →
        Decomposes domain others (other.subtasks ++ todo) plan' → NoLater (i::choices) (j::others)
  | none => ∀ alt ∈ alts, ∀ choices plan, ¬ Decomposes domain choices (alt.subtasks ++ todo) plan

end WarpLoop.Taskweft
