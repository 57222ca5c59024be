import WarpLoop.Taskweft.FindPlan

/-! The planner finds the first decomposition there is. Its results are right at any
fuel that produces one; fuel that is enough exists when no method refers to itself
through others, by descent along the references. -/
namespace WarpLoop.Taskweft
open Lib.Reach

theorem NoLater.nil (others : List Nat) : NoLater [] others := by
  cases others with
  | nil => exact Or.inl rfl
  | cons j later => exact Or.inr .nil

theorem NoLater.cons {choices others : List Nat} (i : Nat) (order : NoLater choices others) :
    NoLater (i::choices) (i::others) := by
  rcases order with rfl | before
  · exact Or.inl rfl
  · exact Or.inr (.cons before)

theorem NoLater.succ {choices others : List Nat} {i j : Nat} (order : NoLater (i::choices) (j::others)) :
    NoLater ((i + 1)::choices) ((j + 1)::others) := by
  rcases order with same | before
  · obtain ⟨rfl,rfl⟩ := List.cons.inj same
    exact Or.inl rfl
  · cases before with
    | cons later => exact Or.inr (.cons later)
    | rel less => exact Or.inr (.rel (Nat.succ_lt_succ less))

variable {η κ ω : Type} [DecidableEq η] {domain : Domain η κ ω}

/-! How the first task can be decomposed. -/

theorem decomposes_action {choices : List Nat} {task : Task η} {rest : List (Task η)} {plan : List η}
    {effects : List (κ × ω)} (known : domain.actions.lookup task.name = some effects) :
    Decomposes domain choices (task::rest) plan ↔
      ∃ later, plan = task.name::later ∧ Decomposes domain choices rest later := by
  constructor
  · intro decomposes
    cases decomposes with
    | action _ _ after => exact ⟨_,rfl,after⟩
    | method _ _ _ unknown => rw [known] at unknown; cases unknown
  · rintro ⟨later,rfl,after⟩
    exact .action effects known after

theorem decomposes_method {choices : List Nat} {task : Task η} {rest : List (Task η)} {plan : List η}
    {alts : List (Alternative η)} (unknown : domain.actions.lookup task.name = none)
    (known : domain.methods.lookup task.name = some alts) :
    Decomposes domain choices (task::rest) plan ↔
      ∃ (i : Nat) (alt : Alternative η) (later : List Nat), choices = i::later ∧ alts[i]? = some alt ∧
        Decomposes domain later (alt.subtasks ++ rest) plan := by
  constructor
  · intro decomposes
    cases decomposes with
    | action _ listed => rw [unknown] at listed; cases listed
    | method alts' i alt _ listed at_i after =>
      obtain rfl := Option.some.inj (known.symm.trans listed)
      exact ⟨i,alt,_,rfl,at_i,after⟩
  · rintro ⟨i,alt,later,rfl,at_i,after⟩
    exact .method alts i alt unknown known at_i after

theorem not_decomposes_unknown {choices : List Nat} {task : Task η} {rest : List (Task η)} {plan : List η}
    (unknown : domain.actions.lookup task.name = none) (nowhere : domain.methods.lookup task.name = none) :
    ¬ Decomposes domain choices (task::rest) plan := by
  intro decomposes
  cases decomposes with
  | action _ listed => rw [unknown] at listed; cases listed
  | method _ _ _ _ listed => rw [nowhere] at listed; cases listed

variable [DecidableEq κ]

theorem runAction_eq_some {state newState : List (κ × ω)} {name : η} :
    runAction domain state name = some newState ↔
      ∃ effects, domain.actions.lookup name = some effects ∧ newState = applyEffects state effects := by
  simp [runAction,eq_comm]

theorem runAction_eq_none {state : List (κ × ω)} {name : η} :
    runAction domain state name = none ↔ domain.actions.lookup name = none := by
  simp [runAction]

theorem execute_cons {state newState : List (κ × ω)} {name : η} (ran : runAction domain state name = some newState)
    (plan : List η) : domain.execute state (name::plan) = domain.execute newState plan := by
  obtain ⟨effects,known,rfl⟩ := runAction_eq_some.mp ran
  simp [Domain.execute,known]

/-! What the effects of a plan do to a state. -/

theorem lookup_alistSet (key k : κ) (val : ω) (al : List (κ × ω)) :
    (alistSet k val al).lookup key = if key = k then some val else al.lookup key := by
  induction al with
  | nil => by_cases same : key = k <;> simp [alistSet,same]
  | cons entry al ih =>
    obtain ⟨first,held⟩ := entry
    unfold alistSet
    by_cases here : first = k
    · subst here
      by_cases same : key = first
      · simp [same]
      · simp [List.lookup_cons,beq_eq_false_iff_ne.mpr same,same]
    · by_cases same : key = first
      · simp [same,here]
      · simp [List.lookup_cons,beq_eq_false_iff_ne.mpr same,here,ih]

theorem applyEffects_holds (state effects : List (κ × ω)) : Holds state effects (applyEffects state effects) := by
  induction effects generalizing state with
  | nil => exact fun key => rfl
  | cons effect effects ih =>
    intro key
    rw [applyEffects,ih,lookup_alistSet,List.reverse_cons,List.lookup_append,Option.or_assoc]
    obtain ⟨written,val⟩ := effect
    by_cases same : key = written
    · simp [same]
    · simp [List.lookup_cons,beq_eq_false_iff_ne.mpr same,same]

theorem applyEffects_append (state first second : List (κ × ω)) :
    applyEffects state (first ++ second) = applyEffects (applyEffects state first) second := by
  induction first generalizing state with
  | nil => rfl
  | cons effect first ih => exact ih _

theorem execute_eq (state : List (κ × ω)) (plan : List η) :
    domain.execute state plan = applyEffects state (domain.writes plan) := by
  induction plan generalizing state with
  | nil => rfl
  | cons name plan ih =>
    have rest := ih (applyEffects state ((domain.actions.lookup name).getD []))
    rw [Domain.writes,List.flatMap_cons,applyEffects_append]
    exact rest

/-- Executing a plan leaves every key with what its actions wrote there last. -/
theorem execute_holds (state : List (κ × ω)) (plan : List η) :
    Holds state (domain.writes plan) (domain.execute state plan) := by
  rw [execute_eq]
  exact applyEffects_holds state _

/-! The results of a search. -/

theorem Searched.action {state newState : List (κ × ω)} {task : Task η} {rest : List (Task η)}
    (ran : runAction domain state task.name = some newState) {result : Option (List (κ × ω) × List η)}
    (searched : Searched domain newState rest result) :
    Searched domain state (task::rest) (result.map (fun sub => (sub.1,task.name::sub.2))) := by
  obtain ⟨effects,known,_⟩ := runAction_eq_some.mp ran
  cases result with
  | none =>
    intro choices plan decomposes
    obtain ⟨later,_,after⟩ := (decomposes_action known).mp decomposes
    exact searched choices later after
  | some sub =>
    obtain ⟨executed,choices,found,first⟩ := searched
    refine ⟨executed.trans (execute_cons ran sub.2).symm,choices,(decomposes_action known).mpr ⟨_,rfl,found⟩,?_⟩
    intro others other decomposes
    obtain ⟨later,_,after⟩ := (decomposes_action known).mp decomposes
    exact first others later after

theorem Searched.method {state : List (κ × ω)} {task : Task η} {rest : List (Task η)} {alts : List (Alternative η)}
    (unknown : domain.actions.lookup task.name = none) (known : domain.methods.lookup task.name = some alts)
    {result : Option (List (κ × ω) × List η)} (searched : SearchedAlts domain state rest alts result) :
    Searched domain state (task::rest) result := by
  cases result with
  | none =>
    intro choices plan decomposes
    obtain ⟨i,alt,later,_,at_i,after⟩ := (decomposes_method unknown known).mp decomposes
    exact searched alt (List.mem_of_getElem? at_i) later plan after
  | some sub =>
    obtain ⟨executed,i,alt,choices,at_i,found,first⟩ := searched
    refine ⟨executed,i::choices,(decomposes_method unknown known).mpr ⟨i,alt,choices,rfl,at_i,found⟩,?_⟩
    intro others other decomposes
    obtain ⟨j,alt',later,rfl,at_j,after⟩ := (decomposes_method unknown known).mp decomposes
    exact first j alt' later other at_j after

theorem SearchedAlts.here {state final : List (κ × ω)} {plan : List η} {todo : List (Task η)} {alt : Alternative η}
    {alts : List (Alternative η)} (searched : Searched domain state (alt.subtasks ++ todo) (some (final,plan))) :
    SearchedAlts domain state todo (alt::alts) (some (final,plan)) := by
  obtain ⟨executed,choices,found,first⟩ := searched
  refine ⟨executed,0,alt,choices,rfl,found,?_⟩
  intro j other others plan' at_j decomposes
  cases j with
  | zero =>
    obtain rfl : alt = other := Option.some.inj at_j
    exact (first others plan' decomposes).cons 0
  | succ j => exact Or.inr (.rel (Nat.succ_pos j))

theorem SearchedAlts.later {state : List (κ × ω)} {todo : List (Task η)} {alt : Alternative η}
    {alts : List (Alternative η)} {result : Option (List (κ × ω) × List η)}
    (failed : Searched domain state (alt.subtasks ++ todo) none) (searched : SearchedAlts domain state todo alts result) :
    SearchedAlts domain state todo (alt::alts) result := by
  cases result with
  | none =>
    intro other member choices plan decomposes
    rcases List.mem_cons.mp member with rfl | behind
    · exact failed choices plan decomposes
    · exact searched other behind choices plan decomposes
  | some sub =>
    obtain ⟨executed,i,chosen,choices,at_i,found,first⟩ := searched
    refine ⟨executed,i + 1,chosen,choices,at_i,found,?_⟩
    intro j other others plan' at_j decomposes
    cases j with
    | zero =>
      obtain rfl : alt = other := Option.some.inj at_j
      exact absurd decomposes (failed others plan')
    | succ j => exact (first j other others plan' at_j decomposes).succ

theorem searched_of_findPlan (fuel : Nat) :
    (∀ (state : List (κ × ω)) (todo : List (Task η)) result, findPlan domain fuel state todo = some result →
      Searched domain state todo result) ∧
    (∀ (state : List (κ × ω)) (todo : List (Task η)) (alts : List (Alternative η)) result,
      tryAlternatives domain fuel state todo alts = some result → SearchedAlts domain state todo alts result) := by
  induction fuel with
  | zero =>
    refine ⟨fun state todo result ran => ?_,fun state todo alts result ran => ?_⟩
    · cases ran
    · cases ran
  | succ fuel ih =>
    obtain ⟨plans,alternatives⟩ := ih
    refine ⟨fun state todo result ran => ?_,fun state todo alts result ran => ?_⟩
    · cases todo with
      | nil =>
        obtain rfl := Option.some.inj ran
        refine ⟨rfl,[],.done,fun others _ _ => NoLater.nil others⟩
      | cons task rest =>
        rw [findPlan] at ran
        cases acted : runAction domain state task.name with
        | some newState =>
          rw [acted] at ran
          dsimp only at ran
          cases sub : findPlan domain fuel newState rest with
          | none => rw [sub] at ran; cases ran
          | some inner =>
            have right := (plans newState rest inner sub).action acted
            rw [sub] at ran
            cases inner with
            | none => obtain rfl := Option.some.inj ran; exact right
            | some pair => obtain rfl := Option.some.inj ran; exact right
        | none =>
          have unknown := runAction_eq_none.mp acted
          rw [acted] at ran
          dsimp only at ran
          cases known : domain.methods.lookup task.name with
          | some alts =>
            rw [known] at ran
            exact Searched.method unknown known (alternatives state rest alts result ran)
          | none =>
            rw [known] at ran
            obtain rfl := Option.some.inj ran
            exact fun _ _ => not_decomposes_unknown unknown known
    · cases alts with
      | nil =>
        obtain rfl := Option.some.inj ran
        exact fun _ member => absurd member List.not_mem_nil
      | cons alt alts =>
        rw [tryAlternatives] at ran
        cases sub : findPlan domain fuel state (alt.subtasks ++ todo) with
        | none => rw [sub] at ran; cases ran
        | some inner =>
          have right := plans state (alt.subtasks ++ todo) inner sub
          rw [sub] at ran
          cases inner with
          | some pair =>
            obtain rfl := Option.some.inj ran
            exact SearchedAlts.here right
          | none => exact (alternatives state todo alts result ran).later right

/-! Enough fuel. -/

/-- More fuel does not change a result. -/
theorem findPlan_succ (fuel : Nat) :
    (∀ (state : List (κ × ω)) (todo : List (Task η)) result, findPlan domain fuel state todo = some result →
      findPlan domain (fuel + 1) state todo = some result) ∧
    (∀ (state : List (κ × ω)) (todo : List (Task η)) (alts : List (Alternative η)) result,
      tryAlternatives domain fuel state todo alts = some result →
      tryAlternatives domain (fuel + 1) state todo alts = some result) := by
  induction fuel with
  | zero =>
    refine ⟨fun state todo result ran => ?_,fun state todo alts result ran => ?_⟩
    · cases ran
    · cases ran
  | succ fuel ih =>
    obtain ⟨plans,alternatives⟩ := ih
    refine ⟨fun state todo result ran => ?_,fun state todo alts result ran => ?_⟩
    · cases todo with
      | nil => exact ran
      | cons task rest =>
        rw [findPlan] at ran ⊢
        cases acted : runAction domain state task.name with
        | some newState =>
          rw [acted] at ran
          dsimp only at ran ⊢
          cases sub : findPlan domain fuel newState rest with
          | none => rw [sub] at ran; cases ran
          | some inner =>
            rw [sub] at ran
            rw [plans newState rest inner sub]
            exact ran
        | none =>
          rw [acted] at ran
          dsimp only at ran ⊢
          cases known : domain.methods.lookup task.name with
          | some alts =>
            rw [known] at ran
            exact alternatives state rest alts result ran
          | none =>
            rw [known] at ran
            exact ran
    · cases alts with
      | nil => exact ran
      | cons alt alts =>
        rw [tryAlternatives] at ran ⊢
        cases sub : findPlan domain fuel state (alt.subtasks ++ todo) with
        | none => rw [sub] at ran; cases ran
        | some inner =>
          rw [sub] at ran
          rw [plans state (alt.subtasks ++ todo) inner sub]
          cases inner with
          | some pair => exact ran
          | none => exact alternatives state todo alts result ran

theorem findPlan_mono {fuel more : Nat} (le : fuel ≤ more) {state : List (κ × ω)} {todo : List (Task η)}
    {result : Option (List (κ × ω) × List η)} (ran : findPlan domain fuel state todo = some result) :
    findPlan domain more state todo = some result := by
  induction le with
  | refl => exact ran
  | step _ ih => exact (findPlan_succ _).1 state todo result ih

theorem tryAlternatives_mono {fuel more : Nat} (le : fuel ≤ more) {state : List (κ × ω)} {todo : List (Task η)}
    {alts : List (Alternative η)} {result : Option (List (κ × ω) × List η)}
    (ran : tryAlternatives domain fuel state todo alts = some result) :
    tryAlternatives domain more state todo alts = some result := by
  induction le with
  | refl => exact ran
  | step _ ih => exact (findPlan_succ _).2 state todo alts result ih

/-- Every search for this task list ends, whatever the state. -/
def Ends (domain : Domain η κ ω) (todo : List (Task η)) : Prop :=
  ∀ state : List (κ × ω), ∃ fuel result, findPlan domain fuel state todo = some result

theorem ends_alternatives {todo : List (Task η)} (alts : List (Alternative η))
    (each : ∀ alt ∈ alts, Ends domain (alt.subtasks ++ todo)) (state : List (κ × ω)) :
    ∃ fuel result, tryAlternatives domain fuel state todo alts = some result := by
  induction alts with
  | nil => exact ⟨1,none,rfl⟩
  | cons alt alts ih =>
    obtain ⟨first,result,ran⟩ := each alt (by simp) state
    obtain ⟨second,later,ranLater⟩ := ih (fun other member => each other (by simp [member]))
    have here := findPlan_mono (Nat.le_max_left first second) ran
    cases result with
    | some pair =>
      refine ⟨max first second + 1,some pair,?_⟩
      rw [tryAlternatives,here]
    | none =>
      refine ⟨max first second + 1,later,?_⟩
      rw [tryAlternatives,here]
      exact tryAlternatives_mono (Nat.le_max_right first second) ranLater

/-- A task can be put in front of any list whose search ends: by descent along the
references of its methods. -/
theorem ends_cons (task : Task η) (descends : Acc (fun sub method => domain.Refers method sub) task.name)
    {rest : List (Task η)} (ends : Ends domain rest) : Ends domain (task::rest) := by
  generalize named : task.name = name at descends
  induction descends generalizing task rest with
  | intro name _ ih =>
    subst named
    intro state
    cases acted : runAction domain state task.name with
    | some newState =>
      obtain ⟨fuel,result,ran⟩ := ends newState
      cases result with
      | none => exact ⟨fuel + 1,none,by rw [findPlan,acted]; simp only [ran]⟩
      | some pair => exact ⟨fuel + 1,some (pair.1,task.name::pair.2),by rw [findPlan,acted]; simp only [ran]⟩
    | none =>
      cases known : domain.methods.lookup task.name with
      | none => exact ⟨1,none,by rw [findPlan,acted]; simp only [known]⟩
      | some alts =>
        have each (alt : Alternative η) (member : alt ∈ alts) : Ends domain (alt.subtasks ++ rest) := by
          have refers (sub : Task η) (inside : sub ∈ alt.subtasks) : domain.Refers task.name sub.name :=
            ⟨alts,known,alt,member,sub,inside,rfl⟩
          generalize alt.subtasks = subtasks at refers
          induction subtasks with
          | nil => exact ends
          | cons sub later ihLater =>
            apply ih sub.name (refers sub (by simp)) sub _ rfl
            exact ihLater (fun other inside => refers other (by simp [inside]))
        obtain ⟨fuel,result,ran⟩ := ends_alternatives alts each state
        exact ⟨fuel + 1,result,by rw [findPlan,acted]; simp only [known,ran]⟩

/-- Over a method table without cycles the planner returns on every state and task
list, with the first decomposition and the effects of its plan, or with the failure
that there is no decomposition. -/
theorem findPlan_total (domain : Domain η κ ω) (acyclic : ∀ method, ¬ Relation.TransGen domain.Refers method method)
    (state : List (κ × ω)) (todo : List (Task η)) :
    ∃ fuel result, (∀ more, fuel ≤ more → findPlan domain more state todo = some result) ∧
      (∀ final plan, result = some (final,plan) →
        final = domain.execute state plan ∧ Holds state (domain.writes plan) final ∧
          ∃ choices, Decomposes domain choices todo plan ∧
            ∀ others other, Decomposes domain others todo other → NoLater choices others) ∧
      (result = none ↔ ¬ ∃ choices plan, Decomposes domain choices todo plan) := by
  have descends (name : η) : Acc (fun sub method => domain.Refers method sub) name := by
    apply acc_of_acyclic (domain.methods.map Prod.fst) _ acyclic
    rintro method sub ⟨alts,known,_⟩
    obtain ⟨before,behind,split,_⟩ := List.lookup_eq_some_iff.mp known
    rw [split]
    simp
  have ends : Ends domain todo := by
    induction todo with
    | nil => exact fun state => ⟨1,some (state,[]),rfl⟩
    | cons task rest ih => exact ends_cons task (descends task.name) ih
  obtain ⟨fuel,result,ran⟩ := ends state
  have right := (searched_of_findPlan fuel).1 state todo result ran
  refine ⟨fuel,result,fun more le => findPlan_mono le ran,?_,?_⟩
  · rintro final plan rfl
    obtain ⟨rfl,first⟩ := right
    exact ⟨rfl,execute_holds state plan,first⟩
  · cases result with
    | none => simpa [Searched] using right
    | some pair =>
      obtain ⟨_,choices,found,_⟩ := right
      simpa using ⟨choices,pair.2,found⟩

/-- The bootstrap domain, with an alternative in front that leads nowhere. -/
def bootstrapDomain : Domain String String String where
  actions := [("vendor",[("/milestone/stack","vendored"),("/vendor/s7","staged")]),
    ("bridge",[("/milestone/stack","bridged")])]
  methods := [("bootstrap",[⟨"stalled",[⟨"vendor",[]⟩,⟨"missing",[]⟩]⟩,⟨"next",[⟨"vendor",[]⟩,⟨"link",[]⟩]⟩]),
    ("link",[⟨"only",[⟨"bridge",[]⟩]⟩])]

theorem bootstrapDomain_acyclic (method : String) : ¬ Relation.TransGen bootstrapDomain.Refers method method := by
  let rank (name : String) : Nat := if name = "bootstrap" then 2 else if name = "link" then 1 else 0
  have falls (above below : String) (refers : bootstrapDomain.Refers above below) : rank below < rank above := by
    obtain ⟨alts,known,alt,member,task,inside,rfl⟩ := refers
    simp only [bootstrapDomain,List.lookup_cons] at known
    split at known
    · rename_i here
      obtain rfl : above = "bootstrap" := by simpa using here
      obtain rfl := Option.some.inj known
      simp only [List.mem_cons,List.not_mem_nil,or_false] at member
      rcases member with rfl | rfl <;> simp only [List.mem_cons,List.not_mem_nil,or_false] at inside <;>
        rcases inside with rfl | rfl <;> decide
    · split at known
      · rename_i here
        obtain rfl : above = "link" := by simpa using here
        obtain rfl := Option.some.inj known
        obtain rfl := List.mem_singleton.mp member
        obtain rfl := List.mem_singleton.mp inside
        decide
      · cases known
  have falling (above below : String) (path : Relation.TransGen bootstrapDomain.Refers above below) :
      rank below < rank above := by
    induction path with
    | single step => exact falls _ _ step
    | tail _ step ih => exact Nat.lt_trans (falls _ _ step) ih
  intro cycle
  exact Nat.lt_irrefl _ (falling method method cycle)

/-- The stack is written twice, the staged interpreter once and the host not at all. -/
theorem findPlan_total_bootstrap :
    findPlan bootstrapDomain 9 [("/milestone/stack","ready"),("/host","linux")] [⟨"bootstrap",[]⟩] =
        some (some ([("/milestone/stack","bridged"),("/host","linux"),("/vendor/s7","staged")],["vendor","bridge"])) ∧
      Holds [("/milestone/stack","ready"),("/host","linux")]
        [("/milestone/stack","vendored"),("/vendor/s7","staged"),("/milestone/stack","bridged")]
        [("/milestone/stack","bridged"),("/host","linux"),("/vendor/s7","staged")] ∧
      ∃ choices, Decomposes bootstrapDomain choices [⟨"bootstrap",[]⟩] ["vendor","bridge"] ∧
        ∀ others other, Decomposes bootstrapDomain others [⟨"bootstrap",[]⟩] other → NoLater choices others := by
  have ran : findPlan bootstrapDomain 9 [("/milestone/stack","ready"),("/host","linux")] [⟨"bootstrap",[]⟩] =
      some (some ([("/milestone/stack","bridged"),("/host","linux"),("/vendor/s7","staged")],["vendor","bridge"])) := by
    decide +kernel
  obtain ⟨fuel,result,enough,found,_⟩ := findPlan_total bootstrapDomain bootstrapDomain_acyclic
    [("/milestone/stack","ready"),("/host","linux")] [⟨"bootstrap",[]⟩]
  have same := findPlan_mono (Nat.le_max_left 9 fuel) ran
  rw [enough _ (Nat.le_max_right 9 fuel)] at same
  have right := found _ _ (Option.some.inj same)
  have writes : bootstrapDomain.writes ["vendor","bridge"] =
      [("/milestone/stack","vendored"),("/vendor/s7","staged"),("/milestone/stack","bridged")] := by decide +kernel
  rw [writes] at right
  exact ⟨ran,right.2⟩

end WarpLoop.Taskweft
