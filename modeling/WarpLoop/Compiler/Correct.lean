import WarpLoop.Compiler.Calls

/-! The compiled assembly returns the value of the declaration. What emission keeps
is proved first; the simulation then follows the statement, with the registers of the
variables in scope holding their values. -/
namespace WarpLoop.Compiler
open Lib.Outcome

/-- A register that no temporary handed out from the `k`-th on clobbers. -/
def Reg.Below (k : Nat) : Reg → Prop
  | .a _ => True
  | .t i => i.val < k

/-- No label stands twice, and those to come have larger numbers. -/
def Emit.Labelled (s : Emit) : Prop := (labels s.asm).Nodup ∧ ∀ l ∈ labels s.asm, l.num < s.labelNum

/-- What emission keeps: lines are appended, registers and label numbers only go up,
and the variables in scope stay where they are. -/
structure Grows (scope : Scope) (s s' : Emit) : Prop where
  asm : s.asm <+: s'.asm
  temps : s.nextTemp ≤ s'.nextTemp
  nums : s.labelNum ≤ s'.labelNum
  kept : ∀ fv, scope fv ≠ none → s'.regOf.lookup fv = s.regOf.lookup fv
  fresh : ∀ l ∈ labels s'.asm, l ∈ labels s.asm ∨ s.labelNum ≤ l.num
  labelled : s.Labelled → s'.Labelled

theorem Grows.trans {scope : Scope} {s s' s'' : Emit} (first : Grows scope s s') (second : Grows scope s' s'') :
    Grows scope s s'' where
  asm := first.asm.trans second.asm
  temps := Nat.le_trans first.temps second.temps
  nums := Nat.le_trans first.nums second.nums
  kept := fun fv known => (second.kept fv known).trans (first.kept fv known)
  fresh := by
    intro l member
    rcases second.fresh l member with old | new
    · exact first.fresh l old
    · exact Or.inr (Nat.le_trans first.nums new)
  labelled := fun labelled => second.labelled (first.labelled labelled)

theorem Grows.weaken {scope : Scope} {s s' : Emit} {fv : FVarId} {ty : Ty} (grows : Grows (scope.bind fv ty) s s') :
    Grows scope s s' :=
  {grows with
    kept := by
      intro other known
      refine grows.kept other ?_
      unfold Scope.bind
      split
      · exact Option.some_ne_none ty
      · exact known}

theorem labels_append (first second : List Line) : labels (first ++ second) = labels first ++ labels second :=
  List.filterMap_append

theorem labels_emitLabel (s : Emit) (l : Label) : labels (s.emitLine (.label l)).asm = labels s.asm ++ [l] :=
  labels_append _ _

theorem Grows.lines (scope : Scope) (s : Emit) (new : List Line) (none : labels new = []) :
    Grows scope s {s with asm := s.asm ++ new} := by
  have same : labels (s.asm ++ new) = labels s.asm := by rw [labels_append,none,List.append_nil]
  refine ⟨List.prefix_append _ _,Nat.le_refl _,Nat.le_refl _,fun _ _ => rfl,?_,?_⟩
  · intro l member
    rw [same] at member
    exact Or.inl member
  · intro labelled
    unfold Emit.Labelled
    rw [same]
    exact labelled

theorem Grows.bindReg {scope : Scope} (s : Emit) {fv : FVarId} (new : scope fv = none) (reg : Reg) :
    Grows scope s (s.bindReg fv reg) := by
  refine ⟨List.prefix_rfl,Nat.le_refl _,Nat.le_refl _,?_,fun _ member => Or.inl member,id⟩
  intro other known
  refine AList.lookup_insert_ne ?_
  rintro rfl
  exact known new

theorem freshTemp_spec {s s' : Emit} {reg : Reg} (done : s.freshTemp = .ok (reg,s')) :
    s' = {s with nextTemp := s.nextTemp + 1} ∧ ¬ reg.Below s.nextTemp ∧ reg.Below (s.nextTemp + 1) := by
  unfold Emit.freshTemp at done
  split at done
  · cases done
  · rename_i other found
    obtain ⟨rfl,rfl⟩ := Prod.mk.inj (pure_eq_ok.mp done)
    have pool : tempPool = (List.finRange 7).map Reg.t := by decide
    rw [pool,List.getElem?_map] at found
    obtain ⟨i,place,rfl⟩ := Option.map_eq_some_iff.mp found
    obtain ⟨small,rfl⟩ := List.getElem?_eq_some_iff.mp place
    exact ⟨rfl,by simp [Reg.Below],by simp [Reg.Below]⟩

theorem Grows.freshTemp (scope : Scope) {s s' : Emit} {reg : Reg} (done : s.freshTemp = .ok (reg,s')) :
    Grows scope s s' := by
  obtain ⟨rfl,_⟩ := freshTemp_spec done
  exact ⟨List.prefix_rfl,Nat.le_succ _,Nat.le_refl _,fun _ _ => rfl,fun _ member => Or.inl member,id⟩

theorem Grows.call (scope : Scope) (s : Emit) (p : Prim) (rd a b : Reg) :
    Grows scope s {s with asm := s.asm ++ callLines p rd a b s.labelNum, labelNum := s.labelNum + p.labelCount} := by
  cases p with
  | max =>
    have new : labels (s.asm ++ callLines .max rd a b s.labelNum) =
        labels s.asm ++ [⟨.maxGreater,s.labelNum⟩,⟨.maxDone,s.labelNum+1⟩] := by
      rw [labels_append]
      rfl
    refine ⟨List.prefix_append _ _,Nat.le_refl _,Nat.le_add_right _ _,fun _ _ => rfl,?_,?_⟩
    · intro l member
      rw [new,List.mem_append] at member
      rcases member with old | fresh
      · exact Or.inl old
      · right
        simp only [List.mem_cons,List.not_mem_nil,or_false] at fresh
        rcases fresh with rfl | rfl
        · exact Nat.le_refl _
        · exact Nat.le_succ _
    · rintro ⟨distinct,below⟩
      refine ⟨?_,?_⟩
      · rw [new,List.nodup_append]
        refine ⟨distinct,by simp,?_⟩
        rintro l old l' fresh rfl
        have less := below l old
        simp only [List.mem_cons,List.not_mem_nil,or_false] at fresh
        rcases fresh with rfl | rfl
        · exact Nat.lt_irrefl _ less
        · exact Nat.lt_irrefl _ (Nat.lt_of_succ_lt less)
      · intro l member
        rw [new,List.mem_append] at member
        simp only [Prim.labelCount]
        rcases member with old | fresh
        · exact Nat.lt_of_lt_of_le (below l old) (Nat.le_add_right _ _)
        · simp only [List.mem_cons,List.not_mem_nil,or_false] at fresh
          rcases fresh with rfl | rfl <;> simp
  | _ => exact Grows.lines scope s _ rfl

/-- The label that ends a branch was numbered before the branch was written. -/
theorem Grows.endLabel {scope : Scope} {s before after : Emit} (numbered : before.labelNum = s.labelNum + 1)
    (lines : labels before.asm = labels s.asm) (branch : Grows scope before after) (labelled : s.Labelled) (tag : Tag) :
    (after.emitLine (.label ⟨tag,s.labelNum⟩)).Labelled := by
  have old : before.Labelled := by
    unfold Emit.Labelled
    rw [lines,numbered]
    exact ⟨labelled.1,fun l member => Nat.lt_succ_of_lt (labelled.2 l member)⟩
  have now := branch.labelled old
  have new := labels_emitLabel after ⟨tag,s.labelNum⟩
  refine ⟨?_,?_⟩
  · rw [new,List.nodup_append]
    refine ⟨now.1,by simp,?_⟩
    rintro l member l' own rfl
    obtain rfl := List.mem_singleton.mp own
    rcases branch.fresh _ member with earlier | later
    · rw [lines] at earlier
      exact Nat.lt_irrefl _ (labelled.2 _ earlier)
    · rw [numbered] at later
      exact Nat.lt_irrefl _ later
  · intro l member
    rw [new,List.mem_append] at member
    rcases member with earlier | own
    · exact now.2 l earlier
    · obtain rfl := List.mem_singleton.mp own
      have more := branch.nums
      rw [numbered] at more
      exact more

theorem regOfFVar_eq_ok {s : Emit} {fv : FVarId} {r : Reg} : s.regOfFVar fv = .ok r ↔ s.regOf.lookup fv = some r := by
  unfold Emit.regOfFVar
  cases s.regOf.lookup fv with
  | none => simp [throw_eq_ok]
  | some other => simp [pure_eq_ok]

theorem argRegs_pair {s : Emit} {a b : FVarId} {regs : List Reg} (done : s.argRegs [a,b] = .ok regs) :
    ∃ ra rb, s.regOf.lookup a = some ra ∧ s.regOf.lookup b = some rb ∧ regs = [ra,rb] := by
  unfold Emit.argRegs at done
  split at done
  · cases done
  · cases done
  · rename_i ra later first second
    obtain rfl := pure_eq_ok.mp done
    unfold Emit.argRegs at second
    split at second
    · cases second
    · cases second
    · rename_i rb none right last
      obtain rfl := pure_eq_ok.mp second
      obtain rfl := pure_eq_ok.mp last
      exact ⟨ra,rb,regOfFVar_eq_ok.mp first,regOfFVar_eq_ok.mp right,rfl⟩

def retLines (reg : Reg) : List Line := if reg ≠ .a 0 then [.mv (.a 0) reg,.ret] else [.ret]

theorem emitStmt_ret {fv : FVarId} {s s' : Emit} (done : emitStmt (.ret fv) s = .ok s') :
    ∃ reg, s.regOf.lookup fv = some reg ∧ s' = {s with asm := s.asm ++ retLines reg} := by
  simp only [emitStmt,bind_eq_ok,pure_eq_ok,regOfFVar_eq_ok] at done
  obtain ⟨reg,found,rfl⟩ := done
  refine ⟨reg,found,?_⟩
  unfold retLines
  split <;> simp [Emit.emitLine]

theorem emitStmt_lit {fv : FVarId} {v : LitValue} {rest : RStmt} {s s' : Emit}
    (done : emitStmt (.letBind fv (.lit v) rest) s = .ok s') :
    ∃ reg next, s.freshTemp = .ok (reg,next) ∧
      emitStmt rest ((next.emitLine (.li reg v.toNat)).bindReg fv reg) = .ok s' := by
  simp only [emitStmt,bind_eq_ok] at done
  obtain ⟨⟨reg,next⟩,fresh,done⟩ := done
  exact ⟨reg,next,fresh,done⟩

theorem emitStmt_call {fv a b : FVarId} {p : Prim} {rest : RStmt} {s s' : Emit}
    (done : emitStmt (.letBind fv (.call (.prim p) [a,b]) rest) s = .ok s') :
    ∃ ra rb reg next, s.regOf.lookup a = some ra ∧ s.regOf.lookup b = some rb ∧ s.freshTemp = .ok (reg,next) ∧
      emitStmt rest (Emit.bindReg {next with
        asm := next.asm ++ callLines p reg ra rb next.labelNum
        labelNum := next.labelNum + p.labelCount} fv reg) = .ok s' := by
  simp only [emitStmt,bind_eq_ok] at done
  obtain ⟨regs,operands,⟨reg,next⟩,fresh,called,emitted,done⟩ := done
  obtain ⟨ra,rb,left,right,rfl⟩ := argRegs_pair operands
  rw [emitCall_prim] at emitted
  obtain rfl := Except.ok.inj emitted
  exact ⟨ra,rb,reg,next,left,right,fresh,done⟩

theorem emitStmt_boolCase {scrutinee : FVarId} {whenFalse whenTrue : RStmt} {s s' : Emit}
    (done : emitStmt (.boolCase scrutinee whenFalse whenTrue) s = .ok s') :
    ∃ sreg middle, s.regOf.lookup scrutinee = some sreg ∧
      emitStmt whenTrue {s with
        asm := s.asm ++ [.beqz sreg ⟨.false_,s.labelNum⟩], labelNum := s.labelNum + 1} = .ok middle ∧
      emitStmt whenFalse (middle.emitLine (.label ⟨.false_,s.labelNum⟩)) = .ok s' := by
  simp only [emitStmt,bind_eq_ok,regOfFVar_eq_ok] at done
  obtain ⟨sreg,found,middle,first,second⟩ := done
  exact ⟨sreg,middle,found,first,second⟩

theorem labels_retLines (reg : Reg) : labels (retLines reg) = [] := by
  unfold retLines
  split <;> rfl

theorem emitStmt_grows {ret : Ty} (stmt : RStmt) {scope : Scope} (typed : stmt.Typed ret scope) {s s' : Emit}
    (done : emitStmt stmt s = .ok s') : Grows scope s s' := by
  induction stmt generalizing scope s s' with
  | ret fv =>
    obtain ⟨reg,_,rfl⟩ := emitStmt_ret done
    exact .lines scope s _ (labels_retLines reg)
  | letBind fv value rest ih =>
    obtain ⟨ty,inferred,new,typed⟩ := typed
    cases value with
    | lit v =>
      obtain ⟨reg,next,fresh,done⟩ := emitStmt_lit done
      exact (Grows.freshTemp scope fresh).trans ((Grows.lines scope next _ rfl).trans
        ((Grows.bindReg _ new reg).trans (ih typed done).weaken))
    | var srcFv =>
      simp only [emitStmt,bind_eq_ok] at done
      obtain ⟨srcReg,_,done⟩ := done
      exact (Grows.bindReg s new srcReg).trans (ih typed done).weaken
    | call fn args =>
      obtain ⟨p,a,b,rfl,rfl,_⟩ := RExpr.infer_call inferred
      obtain ⟨ra,rb,reg,next,_,_,fresh,done⟩ := emitStmt_call done
      exact (Grows.freshTemp scope fresh).trans ((Grows.call scope next p reg ra rb).trans
        ((Grows.bindReg _ new reg).trans (ih typed done).weaken))
  | boolCase scrutinee whenFalse whenTrue ihFalse ihTrue =>
    obtain ⟨_,typedFalse,typedTrue⟩ := typed
    obtain ⟨sreg,middle,_,first,second⟩ := emitStmt_boolCase done
    have branch := ihTrue typedTrue first
    have rest := ihFalse typedFalse second
    have lines : labels (s.asm ++ [Line.beqz sreg ⟨.false_,s.labelNum⟩]) = labels s.asm := by
      rw [labels_append]
      exact List.append_nil _
    refine ⟨?_,?_,?_,?_,?_,?_⟩
    · exact (List.prefix_append _ _).trans (branch.asm.trans ((List.prefix_append _ _).trans rest.asm))
    · exact Nat.le_trans branch.temps rest.temps
    · exact Nat.le_trans (Nat.le_succ _) (Nat.le_trans branch.nums rest.nums)
    · intro fv known
      exact (rest.kept fv known).trans (branch.kept fv known)
    · intro l member
      rcases rest.fresh l member with earlier | later
      · rw [labels_emitLabel] at earlier
        rcases List.mem_append.mp earlier with inside | own
        · rcases branch.fresh l inside with old | new
          · rw [lines] at old
            exact Or.inl old
          · exact Or.inr (Nat.le_of_succ_le new)
        · obtain rfl := List.mem_singleton.mp own
          exact Or.inr (Nat.le_refl _)
      · exact Or.inr (Nat.le_trans (Nat.le_trans (Nat.le_succ _) branch.nums) later)
    · intro labelled
      exact rest.labelled (Grows.endLabel rfl lines branch labelled .false_)

/-! The simulation. -/

/-- The variables of the environment sit in registers that hold their values. -/
def Emit.Agrees (s : Emit) (env : Env) (regs : Regs) : Prop :=
  ∀ fv v, env fv = some v → ∃ r, s.regOf.lookup fv = some r ∧ r.Below s.nextTemp ∧ regs r = v.word

theorem Reg.Below.mono {k k' : Nat} {r : Reg} (below : r.Below k) (le : k ≤ k') : r.Below k' := by
  cases r with
  | a i => trivial
  | t i => exact Nat.lt_of_lt_of_le below le

theorem Emit.Agrees.assign {s next s' : Emit} {env : Env} {regs : Regs} {reg : Reg} {fv : FVarId} (v : Value)
    (agrees : s.Agrees env regs) (fresh : s.freshTemp = .ok (reg,next)) (bound : s'.regOf = next.regOf.insert fv reg)
    (temps : s'.nextTemp = next.nextTemp) : s'.Agrees (env.bind fv v) (regs.set reg v.word) := by
  obtain ⟨rfl,free,below⟩ := freshTemp_spec fresh
  intro other value found
  rw [bound,temps]
  unfold Env.bind at found
  split at found
  · rename_i same
    subst other
    obtain rfl := Option.some.inj found
    exact ⟨reg,AList.lookup_insert _,below,set_self regs reg _⟩
  · rename_i apart
    obtain ⟨r,place,old,holds⟩ := agrees other value found
    have kept : r ≠ reg := by
      rintro rfl
      exact free old
    exact ⟨r,by rw [AList.lookup_insert_ne apart]; exact place,old.mono (Nat.le_succ _),by rw [set_other kept]; exact holds⟩

/-- A copy shares the register of its source. -/
theorem Emit.Agrees.copy {s : Emit} {env : Env} {regs : Regs} {fv srcFv : FVarId} {v : Value} {reg : Reg}
    (agrees : s.Agrees env regs) (source : env srcFv = some v) (place : s.regOf.lookup srcFv = some reg) :
    (s.bindReg fv reg).Agrees (env.bind fv v) regs := by
  intro other value found
  unfold Env.bind at found
  split at found
  · rename_i same
    subst other
    obtain rfl := Option.some.inj found
    obtain ⟨r,at_,below,holds⟩ := agrees srcFv v source
    obtain rfl := Option.some.inj (place.symm.trans at_)
    exact ⟨reg,AList.lookup_insert _,below,holds⟩
  · rename_i apart
    obtain ⟨r,at_,below,holds⟩ := agrees other value found
    exact ⟨r,by rw [← at_]; exact AList.lookup_insert_ne apart,below,holds⟩

theorem Emit.Agrees.later {scope : Scope} {s s' : Emit} {env : Env} {regs : Regs} (agrees : s.Agrees env regs)
    (fits : env.Fits scope) (grows : Grows scope s s') : s'.Agrees env regs := by
  intro fv v found
  obtain ⟨r,place,below,holds⟩ := agrees fv v found
  have known : scope fv ≠ none := by
    rw [← fits fv,found]
    exact Option.some_ne_none _
  exact ⟨r,by rw [grows.kept fv known]; exact place,below.mono grows.temps,holds⟩

theorem li_returns {program before after : List Line} (regs : Regs) (reg : Reg) (n : UInt64) (w : Word)
    (split : program = before ++ .li reg n.toNat::after)
    (later : Returns program ⟨before.length + 1,regs.set reg n.toBitVec⟩ w) : Returns program ⟨before.length,regs⟩ w := by
  have small : n.toNat < 2^64 := n.toNat_lt
  have word : BitVec.ofNat 64 n.toNat = n.toBitVec := BitVec.eq_of_toNat_eq (by simp)
  refine .step ?_ later
  simp only [step,step_at split,if_pos small,Machine.set,word]

theorem ret_returns {program before after : List Line} (regs : Regs) (reg : Reg)
    (split : program = before ++ (retLines reg ++ after)) : Returns program ⟨before.length,regs⟩ (regs reg) := by
  have done (start : List Line) (rest : List Line) (regs : Regs) (at_ : program = start ++ .ret::rest) :
      Returns program ⟨start.length,regs⟩ (regs (.a 0)) := by
    refine ⟨1,?_⟩
    simp only [exec,step,step_at at_]
  unfold retLines at split
  by_cases first : reg = .a 0
  · rw [if_neg (not_not.mpr first)] at split
    rw [first]
    exact done before after regs split
  · rw [if_pos first] at split
    refine mv_returns regs _ split ?_
    have last := done (before ++ [.mv (.a 0) reg]) after (regs.set (.a 0) (regs reg)) (by rw [split]; simp)
    rw [set_self] at last
    simpa using last

theorem Grows.split {scope : Scope} {s s' : Emit} (grows : Grows scope s s') {program after lines more : List Line}
    (whole : program = s'.asm ++ after) (written : s.asm = lines ++ more) :
    ∃ behind, program = lines ++ (more ++ behind) := by
  obtain ⟨later,same⟩ := grows.asm
  exact ⟨later ++ after,by rw [whole,← same,written]; simp⟩

/-- From the first line of a statement, with its variables in their registers, the
program returns the value of the statement. -/
theorem emitStmt_returns {ret : Ty} (stmt : RStmt) {scope : Scope} (typed : stmt.Typed ret scope) {s s' : Emit}
    (done : emitStmt stmt s = .ok s') {program after : List Line} (split : program = s'.asm ++ after)
    (distinct : (labels program).Nodup) {env : Env} (fits : env.Fits scope) {regs : Regs} (agrees : s.Agrees env regs)
    {v : Value} (value : stmt.eval machineDiv env = some v) : Returns program ⟨s.asm.length,regs⟩ v.word := by
  induction stmt generalizing scope s s' env regs after with
  | ret fv =>
    obtain ⟨reg,place,rfl⟩ := emitStmt_ret done
    obtain ⟨r,at_,_,holds⟩ := agrees fv v value
    obtain rfl := Option.some.inj (place.symm.trans at_)
    rw [← holds]
    exact ret_returns regs reg (by rw [split,List.append_assoc])
  | letBind fv rexpr rest ih =>
    obtain ⟨ty,inferred,new,typed⟩ := typed
    have total : Division.Total machineDiv := fun _ _ => rfl
    obtain ⟨x,evaluated,rfl⟩ := RExpr.eval_typed total fits inferred
    simp only [RStmt.eval,evaluated] at value
    have inner := fits.bind fv x
    cases rexpr with
    | lit lit =>
      obtain ⟨reg,next,fresh,done⟩ := emitStmt_lit done
      have later := ih typed done split inner (agrees.assign x fresh rfl rfl) value
      have rest := emitStmt_grows rest typed done
      obtain ⟨rfl,_⟩ := freshTemp_spec fresh
      obtain ⟨behind,place⟩ := rest.split split rfl
      cases lit with
      | uint64 n =>
        obtain rfl := Option.some.inj evaluated
        refine li_returns regs reg n _ place ?_
        simpa [Emit.bindReg,Emit.emitLine,Value.word] using later
      | _ => cases inferred
    | var srcFv =>
      simp only [emitStmt,bind_eq_ok,regOfFVar_eq_ok] at done
      obtain ⟨srcReg,place,done⟩ := done
      exact ih typed done split inner (agrees.copy evaluated place) value
    | call fn args =>
      obtain ⟨p,a,b,rfl,rfl,first,second,_⟩ := RExpr.infer_call inferred
      obtain ⟨ra,rb,reg,next,atA,atB,fresh,done⟩ := emitStmt_call done
      have later := ih typed done split inner (agrees.assign x fresh rfl rfl) value
      have rest := emitStmt_grows rest typed done
      obtain ⟨rfl,_⟩ := freshTemp_spec fresh
      obtain ⟨behind,place⟩ := rest.split split rfl
      obtain ⟨m,left⟩ := fits.u64 first
      obtain ⟨n,right⟩ := fits.u64 second
      simp only [RExpr.eval,left,right,Prim.call] at evaluated
      obtain ⟨r,atA',_,holdsA⟩ := agrees a _ left
      obtain ⟨r',atB',_,holdsB⟩ := agrees b _ right
      obtain rfl := Option.some.inj (atA.symm.trans atA')
      obtain rfl := Option.some.inj (atB.symm.trans atB')
      refine call_returns regs _ p place distinct holdsA holdsB evaluated ?_
      simpa [Emit.bindReg] using later
  | boolCase scrutinee whenFalse whenTrue ihFalse ihTrue =>
    obtain ⟨known,typedFalse,typedTrue⟩ := typed
    obtain ⟨sreg,middle,place,first,second⟩ := emitStmt_boolCase done
    have branch := emitStmt_grows whenTrue typedTrue first
    have rest := emitStmt_grows whenFalse typedFalse second
    obtain ⟨behind,here⟩ := rest.split split rfl
    obtain ⟨behind',start⟩ := branch.split here rfl
    obtain ⟨b,found⟩ := fits.bool known
    obtain ⟨r,at_,_,holds⟩ := agrees scrutinee _ found
    obtain rfl := Option.some.inj (place.symm.trans at_)
    simp only [RStmt.eval,found] at value
    have test : step program ⟨s.asm.length,regs⟩ =
        if b then .next ⟨s.asm.length + 1,regs⟩ else Machine.jump ⟨s.asm.length,regs⟩ program ⟨.false_,s.labelNum⟩ := by
      simp only [step,step_at start,holds,Value.word]
      cases b <;> simp
    cases b with
    | true =>
      refine .step test ?_
      simpa using ihTrue typedTrue first here fits agrees value
    | false =>
      refine jump_returns _ here distinct _ test ?_
      have ready : Emit.Agrees {s with
          asm := s.asm ++ [.beqz sreg ⟨.false_,s.labelNum⟩], labelNum := s.labelNum + 1} env regs := agrees
      have moved := ready.later fits branch
      simpa [Emit.emitLine] using ihFalse typedFalse second split fits moved value

/-! Declarations. -/

/-- The arguments are in `a0` to `a7`. -/
def Loaded (args : List Value) (regs : Regs) : Prop := ∀ (i : Fin 8) v, args[i.val]? = some v → regs (.a i) = v.word

theorem paramPool_spec {i : Nat} {reg : Reg} (found : paramPool[i]? = some reg) : ∃ k : Fin 8, k.val = i ∧ reg = .a k := by
  have pool : paramPool = (List.finRange 8).map Reg.a := by decide
  rw [pool,List.getElem?_map] at found
  obtain ⟨k,place,rfl⟩ := Option.map_eq_some_iff.mp found
  obtain ⟨small,rfl⟩ := List.getElem?_eq_some_iff.mp place
  exact ⟨_,by simp,rfl⟩

/-- The loop over the parameters only binds them, each to the register of its
argument. -/
theorem bindParams_spec (params : List Param) (distinct : (params.map Param.fvarId).Nodup) (args : List Value)
    (regs : Regs) {i : Nat} (loaded : ∀ (k : Fin 8) j v, k.val = i + j → args[j]? = some v → regs (.a k) = v.word)
    {s s' : Emit} (done : bindParams (params.map Param.fvarId) i s = .ok s') :
    s'.asm = s.asm ∧ s'.labelNum = s.labelNum ∧
      (∀ fv, fv ∉ params.map Param.fvarId → s'.regOf.lookup fv = s.regOf.lookup fv) ∧
      s'.Agrees (Env.ofArgs params args) regs := by
  induction params generalizing args i s with
  | nil =>
    obtain rfl := pure_eq_ok.mp done
    refine ⟨rfl,rfl,fun _ _ => rfl,?_⟩
    intro fv v found
    cases found
  | cons p rest ih =>
    obtain ⟨absent,distinct⟩ := List.nodup_cons.mp distinct
    simp only [List.map_cons,bindParams] at done
    split at done
    · cases done
    · rename_i reg place
      obtain ⟨k,rfl,rfl⟩ := paramPool_spec place
      cases args with
      | nil =>
        obtain ⟨asm,nums,kept,_⟩ := ih distinct [] (by simp) done
        refine ⟨asm,nums,?_,?_⟩
        · intro fv outside
          simp only [List.map_cons,List.mem_cons,not_or] at outside
          rw [kept fv outside.2]
          exact AList.lookup_insert_ne outside.1
        · intro fv v found
          cases found
      | cons arg args =>
        obtain ⟨asm,nums,kept,agrees⟩ := ih distinct args
          (fun k' j v place found => loaded k' (j+1) v (by omega) found) done
        refine ⟨asm,nums,?_,?_⟩
        · intro fv outside
          simp only [List.map_cons,List.mem_cons,not_or] at outside
          rw [kept fv outside.2]
          exact AList.lookup_insert_ne outside.1
        · intro fv v found
          simp only [Env.ofArgs,Env.bind] at found
          split at found
          · rename_i same
            subst fv
            obtain rfl := Option.some.inj found
            refine ⟨.a k,?_,trivial,loaded k 0 arg rfl rfl⟩
            rw [kept _ absent]
            exact AList.lookup_insert _
          · exact agrees fv v found

theorem ofArgs_fits (params : List Param) (args : List Value) (types : args.map Value.type = params.map Param.type) :
    (Env.ofArgs params args).Fits (Scope.ofParams params) := by
  induction params generalizing args with
  | nil => exact fun _ => rfl
  | cons p rest ih =>
    cases args with
    | nil => cases types
    | cons arg args =>
      obtain ⟨same,types⟩ := List.cons.inj types
      have later := (ih args types).bind p.fvarId arg
      rw [same] at later
      exact later

theorem Value.word_inj {v v' : Value} (type : v.type = v'.type) (same : v.word = v'.word) : v = v' := by
  cases v with
  | u64 n =>
    cases v' with
    | u64 n' => exact congrArg Value.u64 (UInt64.toBitVec_inj.mp same)
    | bool b => cases type
  | bool b =>
    cases v' with
    | u64 n => cases type
    | bool b' =>
      cases b <;> cases b' <;> first | rfl | exact absurd same (by decide)

theorem lowerDecl_spec {d : Decl} {r : RDecl} (lowered : lowerDecl d = .ok r) (typed : d.WellTyped) :
    r.params = d.params.map Param.fvarId ∧ r.body.Typed d.type (Scope.ofParams d.params) ∧
      ∀ div args, d.eval div args = r.body.eval div (Env.ofArgs d.params args) := by
  unfold lowerDecl at lowered
  split at lowered
  · cases lowered
  · rename_i code body
    simp only [bind_eq_ok,pure_eq_ok] at lowered
    obtain ⟨stmt,lowered,rfl⟩ := lowered
    have typedCode := typed.body code body
    refine ⟨rfl,lowerCode_typed _ code _ stmt lowered typedCode,fun div args => ?_⟩
    unfold Decl.eval
    rw [body]
    exact (lowerCode_eval div _ code _ stmt lowered typedCode _).symm

/-- The assembly of a declaration returns the value that the declaration has when
divisions by zero give all ones. -/
theorem emitDecl_returns {d : Decl} {r : RDecl} {program : List Line} (lowered : lowerDecl d = .ok r)
    (emitted : emitDecl r = .ok program) (typed : d.WellTyped) {args : List Value}
    (types : args.map Value.type = d.params.map Param.type) {regs : Regs} (loaded : Loaded args regs) {v : Value}
    (value : d.eval machineDiv args = some v) : Returns program ⟨0,regs⟩ v.word := by
  obtain ⟨params,body,eval⟩ := lowerDecl_spec lowered typed
  simp only [emitDecl,bind_eq_ok,pure_eq_ok] at emitted
  obtain ⟨s,bound,s',done,rfl⟩ := emitted
  rw [params] at bound
  obtain ⟨asm,nums,_,agrees⟩ := bindParams_spec d.params typed.distinct args regs
    (fun k j v place found => loaded k v (by rw [place,Nat.zero_add]; exact found)) bound
  rw [eval] at value
  have nothing : (s.emitLine (.header (asmName r.name))).asm = [.header (asmName r.name)] := by
    rw [Emit.emitLine,asm]
    rfl
  have labelled : (s.emitLine (.header (asmName r.name))).Labelled := by
    have none : labels [Line.header (asmName r.name)] = [] := rfl
    unfold Emit.Labelled
    rw [nothing,none]
    exact ⟨List.nodup_nil,by simp⟩
  have grows := emitStmt_grows r.body body done
  have later := emitStmt_returns r.body body done (List.append_nil _).symm (grows.labelled labelled).1
    (ofArgs_fits d.params args types) agrees value
  obtain ⟨behind,split⟩ := grows.split (List.append_nil _).symm (show _ = [] ++ _ from nothing)
  rw [nothing] at later
  refine .step ?_ later
  have entry : s'.asm[0]? = some (.header (asmName r.name)) := by
    rw [split]
    rfl
  simp only [step,entry]
  rfl

/-- A typed declaration that both passes accept has a value, and its assembly
returns this value exactly when it does not depend on whether a division by zero
gives zero or all ones; in particular when no such division is made. -/
theorem compiled_returns_value_iff (d : Decl) (r : RDecl) (program : List Line) (lowered : lowerDecl d = .ok r)
    (emitted : emitDecl r = .ok program) (typed : d.WellTyped) (args : List Value)
    (types : args.map Value.type = d.params.map Param.type) (regs : Regs) (loaded : Loaded args regs) :
    ∃ v, d.eval leanDiv args = some v ∧
      (Returns program ⟨0,regs⟩ v.word ↔ d.eval leanDiv args = d.eval machineDiv args) ∧
      ((d.eval strictDiv args).isSome → d.eval leanDiv args = d.eval machineDiv args) := by
  obtain ⟨_,body,eval⟩ := lowerDecl_spec lowered typed
  have fits := ofArgs_fits d.params args types
  have leanTotal : Division.Total leanDiv := fun _ _ => rfl
  have machineTotal : Division.Total machineDiv := fun _ _ => rfl
  obtain ⟨v,value,type⟩ := RStmt.eval_typed leanTotal r.body fits body
  obtain ⟨v',value',type'⟩ := RStmt.eval_typed machineTotal r.body fits body
  rw [← eval] at value value'
  have returns := emitDecl_returns lowered emitted typed types loaded value'
  refine ⟨v,value,?_,?_⟩
  · rw [value,value']
    constructor
    · intro same
      rw [Value.word_inj (type.trans type'.symm) (same.unique returns)]
    · intro same
      rw [Option.some.inj same]
      exact returns
  · intro defined
    obtain ⟨x,strict⟩ := Option.isSome_iff_exists.mp defined
    rw [eval] at strict
    have extendLean : ∀ a b c, strictDiv a b = some c → leanDiv a b = some c := by
      intro a b c quotient
      unfold strictDiv at quotient
      split at quotient
      · cases quotient
      · exact quotient
    have extendMachine : ∀ a b c, strictDiv a b = some c → machineDiv a b = some c := by
      intro a b c quotient
      unfold strictDiv at quotient
      split at quotient
      · cases quotient
      · rename_i nonzero
        simp only [machineDiv,if_neg nonzero]
        exact quotient
    rw [eval,eval,r.body.eval_mono extendLean strict,r.body.eval_mono extendMachine strict]

def hysteresisTicksFor : Decl where
  name := .other "Fanoutcore.hysteresisTicksFor"
  params := [⟨⟨"lookaheadTicks"⟩,.uint64⟩]
  type := .uint64
  value := .code (.let_ ⟨⟨"x1"⟩,.lit (.uint64 1)⟩
    (.let_ ⟨⟨"x2"⟩,.const (.prim .shiftRight) [.fvar ⟨"lookaheadTicks"⟩,.fvar ⟨"x1"⟩]⟩
    (.let_ ⟨⟨"x3"⟩,.const (.prim .decLe) [.fvar ⟨"x1"⟩,.fvar ⟨"x2"⟩]⟩
    (.cases .bool ⟨"x3"⟩ (.alt .boolFalse [] (.return_ ⟨"x1"⟩) (.alt .boolTrue [] (.return_ ⟨"x2"⟩) .nil))))))

def hysteresisTicksForIr : RDecl where
  name := .other "Fanoutcore.hysteresisTicksFor"
  params := [⟨"lookaheadTicks"⟩]
  body := .letBind ⟨"x1"⟩ (.lit (.uint64 1)) (.letBind ⟨"x2"⟩ (.call (.prim .shiftRight) [⟨"lookaheadTicks"⟩,⟨"x1"⟩])
    (.letBind ⟨"x3"⟩ (.call (.prim .decLe) [⟨"x1"⟩,⟨"x2"⟩]) (.boolCase ⟨"x3"⟩ (.ret ⟨"x1"⟩) (.ret ⟨"x2"⟩))))

def hysteresisTicksForAsm : List Line :=
  [.header (asmName hysteresisTicksForIr.name),.li (.t 0) 1,.op .srl (.t 1) (.a 0) (.t 0),.op .sltu (.t 2) (.t 1) (.t 0),
    .xori (.t 2) (.t 2) 1,.beqz (.t 2) ⟨.false_,0⟩,.mv (.a 0) (.t 1),.ret,.label ⟨.false_,0⟩,.mv (.a 0) (.t 0),.ret]

theorem compiled_returns_value_iff_hysteresis :
    lowerDecl hysteresisTicksFor = .ok hysteresisTicksForIr ∧ emitDecl hysteresisTicksForIr = .ok hysteresisTicksForAsm ∧
      Returns hysteresisTicksForAsm ⟨0,fun _ => 6⟩ 3 := by
  have typed : hysteresisTicksFor.WellTyped := by
    refine ⟨by decide,?_⟩
    intro code body
    obtain rfl := DeclValue.code.inj body
    exact ⟨.uint64,rfl,rfl,.uint64,rfl,rfl,.bool,rfl,rfl,rfl,by decide,rfl,rfl,trivial⟩
  have loaded : Loaded [.u64 6] (fun _ => 6) := by
    intro i v found
    obtain ⟨_,rfl⟩ := List.getElem?_eq_some_iff.mp found
    simp [Value.word]
  obtain ⟨v,value,returns,_⟩ := compiled_returns_value_iff hysteresisTicksFor _ _ rfl
    (show emitDecl hysteresisTicksForIr = .ok hysteresisTicksForAsm from rfl) typed [.u64 6] rfl _ loaded
  have three : hysteresisTicksFor.eval leanDiv [.u64 6] = some (.u64 3) := by decide
  obtain rfl := Option.some.inj (value.symm.trans three)
  exact ⟨rfl,rfl,returns.mpr (by decide)⟩

/-- `a / b`. -/
def quotient : Decl where
  name := .other "quotient"
  params := [⟨⟨"a"⟩,.uint64⟩,⟨⟨"b"⟩,.uint64⟩]
  type := .uint64
  value := .code (.let_ ⟨⟨"q"⟩,.const (.prim .div) [.fvar ⟨"a"⟩,.fvar ⟨"b"⟩]⟩ (.return_ ⟨"q"⟩))

/-- The assembly of `1 / 0` returns all ones, where Lean's quotient is zero. -/
theorem zero_divisor_returns_all_ones : ∃ r program, lowerDecl quotient = .ok r ∧ emitDecl r = .ok program ∧
    quotient.WellTyped ∧ Loaded [.u64 1,.u64 0] (fun r => if r = .a 0 then 1 else 0) ∧
    quotient.eval leanDiv [.u64 1,.u64 0] = some (.u64 0) ∧
    ¬ Returns program ⟨0,fun r => if r = .a 0 then 1 else 0⟩ (Value.u64 0).word := by
  refine ⟨_,[.header (asmName quotient.name),.op .divu (.t 0) (.a 0) (.a 1),.mv (.a 0) (.t 0),.ret],rfl,rfl,
    ⟨by decide,?_⟩,?_,by decide,?_⟩
  · intro code body
    obtain rfl := DeclValue.code.inj body
    exact ⟨.uint64,rfl,rfl,rfl⟩
  · intro i v found
    match i,found with
    | 0,found => rw [← Option.some.inj found]; rfl
    | 1,found => rw [← Option.some.inj found]; rfl
  · intro zero
    have ones : Returns [.header (asmName quotient.name),.op .divu (.t 0) (.a 0) (.a 1),.mv (.a 0) (.t 0),.ret]
        ⟨0,fun r => if r = .a 0 then 1 else 0⟩ (BitVec.allOnes 64) := ⟨4,rfl⟩
    exact absurd (zero.unique ones) (by decide)

end WarpLoop.Compiler
