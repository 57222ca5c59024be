import WarpLoop.Compiler.Lcnf
import WarpLoop.Lib.Outcome

/-! The restricted IR and the translation into it, which rejects what it does not
know (fanout-core/IrCodegenScratch.lean), and that it keeps types and values. -/
namespace WarpLoop.Compiler
open Lib.Outcome

inductive RExpr
  | lit (v : LitValue)
  | var (fv : FVarId)
  | call (fn : Name) (args : List FVarId)
deriving DecidableEq, Repr

inductive RStmt
  | letBind (fv : FVarId) (value : RExpr) (rest : RStmt)
  | boolCase (scrutinee : FVarId) (whenFalse whenTrue : RStmt)
  | ret (fv : FVarId)
deriving DecidableEq, Repr

structure RDecl where
  name : Name
  params : List FVarId
  body : RStmt
deriving DecidableEq, Repr

def callWhitelist : List Name :=
  [Prim.shiftRight,.shiftLeft,.add,.sub,.mul,.div,.mod,.decLe,.decLt,.decEq,.max].map Name.prim

def argToFVar : Arg → Except String FVarId
  | .fvar fv => pure fv
  | .erased => throw "erased argument reached the restricted IR"
  | .type => throw "type argument reached the restricted IR"

def lowerValue : LetValue → Except String RExpr
  | .lit v => pure (.lit v)
  | .fvar fv args =>
    if args.isEmpty then pure (.var fv)
    else throw s!"unsupported call target: {fv.name}"
  | .const declName args =>
    if callWhitelist.contains declName then do
      let args ← args.mapM argToFVar
      pure (.call declName args)
    else throw s!"unsupported call target: {declName}"
  | .proj _ _ _ => throw "unsupported: structure projection"
  | .erased => throw "unsupported: erased let-value"

mutual
def lowerCode : Code → Except String RStmt
  | .return_ fv => pure (.ret fv)
  | .let_ decl k => do
    let rexpr ← lowerValue decl.value
    let rest ← lowerCode k
    pure (.letBind decl.fvarId rexpr rest)
  | .cases typeName discr alts =>
    if typeName ≠ .bool then throw s!"unsupported: cases on non-Bool inductive {typeName}"
    else do
      match ← lowerAlts alts none none with
      | (some f,some t) => pure (.boolCase discr f t)
      | _ => throw "unsupported: Bool case missing a branch"
  | .fun_ _ _ _ => throw "unsupported: local function/closure"
  | .jp _ _ _ => throw "unsupported: join point"
  | .jmp _ _ => throw "unsupported: join point"
  | .unreach => throw "unsupported: unreachable/incomplete match"
/-- The loop over the alternatives, with the two branches found so far. -/
def lowerAlts : Alts → Option RStmt → Option RStmt → Except String (Option RStmt × Option RStmt)
  | .nil,whenFalse,whenTrue => pure (whenFalse,whenTrue)
  | .alt ctorName params code rest,whenFalse,whenTrue =>
    if !params.isEmpty then throw s!"unsupported: alt for {ctorName} binds constructor fields"
    else do
      let branch ← lowerCode code
      if ctorName = .boolFalse then lowerAlts rest (some branch) whenTrue
      else if ctorName = .boolTrue then lowerAlts rest whenFalse (some branch)
      else throw s!"unsupported: unexpected constructor {ctorName}"
  | .ctorAlt _ _,_,_ => throw "unsupported: impure ctorAlt"
  | .default code rest,whenFalse,whenTrue => do
    let branch ← lowerCode code
    lowerAlts rest (whenFalse.or (some branch)) (whenTrue.or (some branch))
end

def lowerDecl (decl : Decl) : Except String RDecl :=
  match decl.value with
  | .extern_ => throw "unsupported: extern declaration"
  | .code code => do
    let body ← lowerCode code
    pure ⟨decl.name,decl.params.map Param.fvarId,body⟩

/-! Typing and evaluation of the restricted IR. -/

def RExpr.infer (scope : Scope) : RExpr → Option Ty
  | .lit (.uint64 _) => some .uint64
  | .var fv => scope fv
  | .call (.prim p) [a,b] => if scope a = some .uint64 ∧ scope b = some .uint64 then some p.type else none
  | _ => none

def RStmt.Typed (ret : Ty) : Scope → RStmt → Prop
  | scope,.letBind fv value rest => ∃ ty, value.infer scope = some ty ∧ scope fv = none ∧ rest.Typed ret (scope.bind fv ty)
  | scope,.boolCase scrutinee whenFalse whenTrue =>
    scope scrutinee = some .bool ∧ whenFalse.Typed ret scope ∧ whenTrue.Typed ret scope
  | scope,.ret fv => scope fv = some ret

def RExpr.eval (div : Division) (env : Env) : RExpr → Option Value
  | .lit (.uint64 n) => some (.u64 n)
  | .var fv => env fv
  | .call (.prim p) [a,b] => p.call div (env a) (env b)
  | _ => none

def RStmt.eval (div : Division) : Env → RStmt → Option Value
  | env,.letBind fv value rest =>
    match value.eval div env with
    | some v => rest.eval div (env.bind fv v)
    | none => none
  | env,.boolCase scrutinee whenFalse whenTrue =>
    match env scrutinee with
    | some (.bool b) => if b then whenTrue.eval div env else whenFalse.eval div env
    | _ => none
  | env,.ret fv => env fv

private theorem mapM_argToFVar {args : List Arg} {fvs : List FVarId} (done : args.mapM argToFVar = .ok fvs) :
    args = fvs.map Arg.fvar := by
  induction args generalizing fvs with
  | nil =>
    rw [List.mapM_nil,pure_eq_ok] at done
    subst fvs
    rfl
  | cons arg rest ih =>
    simp only [List.mapM_cons,bind_eq_ok,pure_eq_ok] at done
    obtain ⟨fv,first,later,done,rfl⟩ := done
    rw [List.map_cons,← ih done]
    cases arg with
    | fvar other => rw [pure_eq_ok.mp first]
    | erased => cases first
    | type => cases first

theorem lowerValue_spec {value : LetValue} {rexpr : RExpr} (done : lowerValue value = .ok rexpr) (div : Division)
    (env : Env) (scope : Scope) : rexpr.eval div env = value.eval div env ∧ rexpr.infer scope = value.infer scope := by
  cases value with
  | lit v =>
    obtain rfl := pure_eq_ok.mp done
    cases v <;> exact ⟨rfl,rfl⟩
  | erased => cases done
  | proj typeName idx struct => cases done
  | fvar fv args =>
    simp only [lowerValue] at done
    split at done
    · rename_i none
      obtain rfl := pure_eq_ok.mp done
      obtain rfl := List.isEmpty_iff.mp none
      exact ⟨rfl,rfl⟩
    · cases done
  | const declName args =>
    simp only [lowerValue] at done
    split at done
    · simp only [bind_eq_ok,pure_eq_ok] at done
      obtain ⟨fvs,mapped,rfl⟩ := done
      obtain rfl := mapM_argToFVar mapped
      cases declName with
      | prim p =>
        match fvs with
        | [] => exact ⟨rfl,rfl⟩
        | [_] => exact ⟨rfl,rfl⟩
        | [_,_] => exact ⟨rfl,rfl⟩
        | _::_::_::_ => exact ⟨rfl,rfl⟩
      | _ => exact ⟨rfl,rfl⟩
    · cases done

def side (b : Bool) (branches : Option RStmt × Option RStmt) : Option RStmt := if b then branches.2 else branches.1

/-- How the branch for `b` comes out of the loop: it is the alternative of its
constructor; without one it is what was there before, or else the default. -/
def Chosen (div : Division) (env : Env) (alts : Alts) (before after : Option RStmt × Option RStmt) (b : Bool) : Prop :=
  match alts.evalCtor div env (ctorOf b) with
  | some v => ∃ stmt, side b after = some stmt ∧ stmt.eval div env = v
  | none => (∀ stmt, side b before = some stmt → side b after = some stmt) ∧
      (side b before = none → ∀ stmt, side b after = some stmt → stmt.eval div env = alts.evalDefault div env)

theorem evalCtor_eq_none (div : Division) (env : Env) (ctor : Name) (alts : Alts) (absent : ctor ∉ alts.ctors) :
    alts.evalCtor div env ctor = none := by
  match alts with
  | .nil => rfl
  | .alt ctorName params code rest =>
    simp only [Alts.ctors,List.mem_cons,not_or] at absent
    rw [Alts.evalCtor,if_neg (Ne.symm absent.1)]
    exact evalCtor_eq_none div env ctor rest absent.2
  | .ctorAlt code rest =>
    rw [Alts.evalCtor]
    exact evalCtor_eq_none div env ctor rest absent
  | .default code rest =>
    rw [Alts.evalCtor]
    exact evalCtor_eq_none div env ctor rest absent

private theorem Chosen.alt {div : Division} {env : Env} {own : Bool} {params : List FVarId} {code : Code} {rest : Alts}
    {branch : RStmt} {before here after : Option RStmt × Option RStmt} (absent : ctorOf own ∉ rest.ctors)
    (same : branch.eval div env = code.eval div env) (found : side own here = some branch)
    (other : ∀ b, b ≠ own → side b here = side b before) (later : ∀ b, Chosen div env rest here after b) (b : Bool) :
    Chosen div env (.alt (ctorOf own) params code rest) before after b := by
  have later := later b
  unfold Chosen at later ⊢
  by_cases mine : b = own
  · subst b
    rw [evalCtor_eq_none div env _ rest absent] at later
    rw [Alts.evalCtor,if_pos rfl]
    exact ⟨branch,later.1 branch found,same⟩
  · have apart : ctorOf own ≠ ctorOf b := by
      cases b <;> cases own <;> simp_all [ctorOf]
    rw [Alts.evalCtor,if_neg apart]
    rw [other b mine] at later
    exact later

mutual
theorem lowerCode_eval (div : Division) (ret : Ty) : ∀ (code : Code) (scope : Scope) (stmt : RStmt),
    lowerCode code = .ok stmt → code.Typed ret scope → ∀ env, stmt.eval div env = code.eval div env
  | .return_ fv,_,stmt,done,_,env => by
    rw [lowerCode,pure_eq_ok] at done
    subst stmt
    rfl
  | .let_ decl k,scope,stmt,done,typed,env => by
    simp only [lowerCode,bind_eq_ok,pure_eq_ok] at done
    obtain ⟨rexpr,value,rest,lowered,rfl⟩ := done
    obtain ⟨ty,_,_,typed⟩ := typed
    rw [RStmt.eval,Code.eval,(lowerValue_spec value div env scope).1]
    cases decl.value.eval div env with
    | none => rfl
    | some v => exact lowerCode_eval div ret k _ rest lowered typed _
  | .cases typeName discr alts,scope,stmt,done,typed,env => by
    simp only [lowerCode,if_throw_eq_ok,bind_eq_ok] at done
    obtain ⟨_,⟨whenFalse,whenTrue⟩,lowered,done⟩ := done
    obtain ⟨_,distinct,typed⟩ := typed
    cases whenFalse with
    | none => cases done
    | some f =>
      cases whenTrue with
      | none => cases done
      | some t =>
        obtain rfl := pure_eq_ok.mp done
        rw [RStmt.eval,Code.eval]
        cases env discr with
        | none => rfl
        | some v =>
          cases v with
          | u64 n => rfl
          | bool b =>
            have chosen := lowerAlts_eval div ret alts scope none none _ lowered distinct typed env b
            unfold Chosen at chosen
            have branch : side b (some f,some t) = some (if b then t else f) := by cases b <;> rfl
            rw [branch] at chosen
            have same : (if b then t.eval div env else f.eval div env) = (if b then t else f).eval div env := by
              cases b <;> rfl
            dsimp only
            rw [same]
            cases picked : alts.evalCtor div env (ctorOf b) with
            | none =>
              rw [picked] at chosen
              exact chosen.2 (by cases b <;> rfl) _ rfl
            | some v =>
              rw [picked] at chosen
              obtain ⟨stmt,found,value⟩ := chosen
              rw [Option.some.inj found]
              exact value
  | .fun_ _ _ _,_,_,done,_,_ => by simp only [lowerCode,throw_eq_ok] at done
  | .jp _ _ _,_,_,done,_,_ => by simp only [lowerCode,throw_eq_ok] at done
  | .jmp _ _,_,_,done,_,_ => by simp only [lowerCode,throw_eq_ok] at done
  | .unreach,_,_,done,_,_ => by simp only [lowerCode,throw_eq_ok] at done
theorem lowerAlts_eval (div : Division) (ret : Ty) : ∀ (alts : Alts) (scope : Scope) (f t : Option RStmt)
    (after : Option RStmt × Option RStmt), lowerAlts alts f t = .ok after → alts.ctors.Nodup → alts.Typed ret scope →
    ∀ env b, Chosen div env alts (f,t) after b
  | .nil,_,f,t,after,done,_,_,env,b => by
    rw [lowerAlts,pure_eq_ok] at done
    subst after
    refine ⟨fun _ same => same,fun absent stmt found => ?_⟩
    rw [absent] at found
    cases found
  | .alt ctorName params code rest,scope,f,t,after,done,distinct,typed,env,b => by
    simp only [lowerAlts,if_throw_eq_ok,bind_eq_ok] at done
    obtain ⟨_,branch,lowered,done⟩ := done
    have same := lowerCode_eval div ret code scope branch lowered typed.1 env
    obtain ⟨absent,others⟩ := List.nodup_cons.mp distinct
    split at done
    · rename_i own
      subst ctorName
      exact Chosen.alt (show ctorOf false ∉ rest.ctors from absent) same rfl (by simp [side])
        (lowerAlts_eval div ret rest scope _ _ after done others typed.2 env) b
    · split at done
      · rename_i own
        subst ctorName
        exact Chosen.alt (show ctorOf true ∉ rest.ctors from absent) same rfl (by simp [side])
          (lowerAlts_eval div ret rest scope _ _ after done others typed.2 env) b
      · cases done
  | .ctorAlt _ _,_,_,_,_,done,_,_,_,_ => by simp only [lowerAlts,throw_eq_ok] at done
  | .default code rest,scope,f,t,after,done,distinct,typed,env,b => by
    simp only [lowerAlts,bind_eq_ok] at done
    obtain ⟨branch,lowered,done⟩ := done
    have same := lowerCode_eval div ret code scope branch lowered typed.1 env
    have later := lowerAlts_eval div ret rest scope _ _ after done distinct typed.2 env b
    unfold Chosen at later ⊢
    rw [Alts.evalCtor]
    cases picked : rest.evalCtor div env (ctorOf b) with
    | some v =>
      rw [picked] at later
      exact later
    | none =>
      rw [picked] at later
      -- the branch is fixed by now: what was there before, or else this default
      have here : side b (f.or (some branch),t.or (some branch)) = (side b (f,t)).or (some branch) := by
        cases b <;> rfl
      rw [here] at later
      rw [Alts.evalDefault]
      refine ⟨fun stmt found => later.1 stmt (by rw [found]; rfl),fun absent stmt found => ?_⟩
      have fixed := later.1 branch (by rw [absent]; rfl)
      rw [← same]
      exact congrArg (RStmt.eval div env) (Option.some.inj (found.symm.trans fixed))
end

mutual
theorem lowerCode_typed (ret : Ty) : ∀ (code : Code) (scope : Scope) (stmt : RStmt),
    lowerCode code = .ok stmt → code.Typed ret scope → stmt.Typed ret scope
  | .return_ fv,_,stmt,done,typed => by
    rw [lowerCode,pure_eq_ok] at done
    subst stmt
    exact typed
  | .let_ decl k,scope,stmt,done,typed => by
    simp only [lowerCode,bind_eq_ok,pure_eq_ok] at done
    obtain ⟨rexpr,value,rest,lowered,rfl⟩ := done
    obtain ⟨ty,inferred,fresh,typed⟩ := typed
    refine ⟨ty,?_,fresh,lowerCode_typed ret k _ rest lowered typed⟩
    rw [(lowerValue_spec value leanDiv (fun _ => none) scope).2]
    exact inferred
  | .cases typeName discr alts,scope,stmt,done,typed => by
    simp only [lowerCode,if_throw_eq_ok,bind_eq_ok] at done
    obtain ⟨_,⟨whenFalse,whenTrue⟩,lowered,done⟩ := done
    obtain ⟨scrutinee,_,typed⟩ := typed
    have both := lowerAlts_typed ret alts scope none none _ lowered typed (by simp [side])
    cases whenFalse with
    | none => cases done
    | some f =>
      cases whenTrue with
      | none => cases done
      | some t =>
        obtain rfl := pure_eq_ok.mp done
        exact ⟨scrutinee,both false f rfl,both true t rfl⟩
  | .fun_ _ _ _,_,_,done,_ => by simp only [lowerCode,throw_eq_ok] at done
  | .jp _ _ _,_,_,done,_ => by simp only [lowerCode,throw_eq_ok] at done
  | .jmp _ _,_,_,done,_ => by simp only [lowerCode,throw_eq_ok] at done
  | .unreach,_,_,done,_ => by simp only [lowerCode,throw_eq_ok] at done
theorem lowerAlts_typed (ret : Ty) : ∀ (alts : Alts) (scope : Scope) (f t : Option RStmt)
    (after : Option RStmt × Option RStmt), lowerAlts alts f t = .ok after → alts.Typed ret scope →
    (∀ b stmt, side b (f,t) = some stmt → stmt.Typed ret scope) →
    ∀ b stmt, side b after = some stmt → stmt.Typed ret scope
  | .nil,_,f,t,after,done,_,before => by
    rw [lowerAlts,pure_eq_ok] at done
    subst after
    exact before
  | .alt ctorName params code rest,scope,f,t,after,done,typed,before => by
    simp only [lowerAlts,if_throw_eq_ok,bind_eq_ok] at done
    obtain ⟨_,branch,lowered,done⟩ := done
    have here := lowerCode_typed ret code scope branch lowered typed.1
    split at done
    · refine lowerAlts_typed ret rest scope _ _ after done typed.2 ?_
      rintro (_ | _) stmt found
      · exact Option.some.inj found ▸ here
      · exact before true stmt found
    · split at done
      · refine lowerAlts_typed ret rest scope _ _ after done typed.2 ?_
        rintro (_ | _) stmt found
        · exact before false stmt found
        · exact Option.some.inj found ▸ here
      · cases done
  | .ctorAlt _ _,_,_,_,_,done,_,_ => by simp only [lowerAlts,throw_eq_ok] at done
  | .default code rest,scope,f,t,after,done,typed,before => by
    simp only [lowerAlts,bind_eq_ok] at done
    obtain ⟨branch,lowered,done⟩ := done
    have here := lowerCode_typed ret code scope branch lowered typed.1
    refine lowerAlts_typed ret rest scope _ _ after done typed.2 ?_
    intro b stmt found
    have either : side b (f,t) = some stmt ∨ stmt = branch := by
      cases b
      · cases f <;> simp_all [side]
      · cases t <;> simp_all [side]
    rcases either with old | rfl
    · exact before b stmt old
    · exact here
end

/-! Typed code has a value of its type. -/

/-- The environment gives every variable of the scope, and no other, a value of its
type. -/
def Env.Fits (env : Env) (scope : Scope) : Prop := ∀ fv, (env fv).map Value.type = scope fv

def Division.Total (div : Division) : Prop := ∀ a b, (div a b).isSome

theorem Env.Fits.value {env : Env} {scope : Scope} (fits : env.Fits scope) {fv : FVarId} {ty : Ty}
    (known : scope fv = some ty) : ∃ v, env fv = some v ∧ v.type = ty :=
  Option.map_eq_some_iff.mp ((fits fv).trans known)

theorem Env.Fits.bind {env : Env} {scope : Scope} (fits : env.Fits scope) (fv : FVarId) (v : Value) :
    (env.bind fv v).Fits (scope.bind fv v.type) := by
  intro other
  unfold Env.bind Scope.bind
  by_cases same : other = fv
  · simp [same]
  · simp [same,fits other]

theorem Prim.eval_typed {div : Division} (total : div.Total) (p : Prim) (a b : UInt64) :
    ∃ v, p.eval div a b = some v ∧ v.type = p.type := by
  cases p with
  | div =>
    obtain ⟨c,quotient⟩ := Option.isSome_iff_exists.mp (total a b)
    exact ⟨.u64 c,by simp [Prim.eval,quotient],rfl⟩
  | _ => exact ⟨_,rfl,rfl⟩

theorem Env.Fits.u64 {env : Env} {scope : Scope} (fits : env.Fits scope) {fv : FVarId}
    (known : scope fv = some .uint64) : ∃ n, env fv = some (.u64 n) := by
  obtain ⟨v,found,type⟩ := fits.value known
  cases v with
  | u64 n => exact ⟨n,found⟩
  | bool b => cases type

theorem Env.Fits.bool {env : Env} {scope : Scope} (fits : env.Fits scope) {fv : FVarId}
    (known : scope fv = some .bool) : ∃ b, env fv = some (.bool b) := by
  obtain ⟨v,found,type⟩ := fits.value known
  cases v with
  | u64 n => cases type
  | bool b => exact ⟨b,found⟩

theorem RExpr.infer_call {scope : Scope} {fn : Name} {args : List FVarId} {ty : Ty}
    (inferred : (RExpr.call fn args).infer scope = some ty) :
    ∃ p a b, fn = .prim p ∧ args = [a,b] ∧ scope a = some .uint64 ∧ scope b = some .uint64 ∧ ty = p.type := by
  unfold RExpr.infer at inferred
  split at inferred
  · rename_i same
    cases same
  · rename_i same
    cases same
  · rename_i p a b same
    obtain ⟨rfl,rfl⟩ := RExpr.call.inj same
    split at inferred
    · rename_i operands
      exact ⟨p,a,b,rfl,rfl,operands.1,operands.2,(Option.some.inj inferred).symm⟩
    · cases inferred
  · cases inferred

theorem RExpr.eval_typed {div : Division} (total : div.Total) {env : Env} {scope : Scope} (fits : env.Fits scope)
    {value : RExpr} {ty : Ty} (inferred : value.infer scope = some ty) :
    ∃ v, value.eval div env = some v ∧ v.type = ty := by
  cases value with
  | lit v =>
    cases v with
    | uint64 n => exact ⟨.u64 n,rfl,Option.some.inj inferred⟩
    | _ => cases inferred
  | var fv => exact fits.value inferred
  | call fn args =>
    obtain ⟨p,a,b,rfl,rfl,first,second,rfl⟩ := RExpr.infer_call inferred
    obtain ⟨x,left⟩ := fits.u64 first
    obtain ⟨y,right⟩ := fits.u64 second
    obtain ⟨v,value,type⟩ := p.eval_typed total x y
    exact ⟨v,by simp only [RExpr.eval,left,right,Prim.call,value],type⟩

theorem RStmt.eval_typed {div : Division} (total : div.Total) {ret : Ty} (stmt : RStmt) {env : Env} {scope : Scope}
    (fits : env.Fits scope) (typed : stmt.Typed ret scope) : ∃ v, stmt.eval div env = some v ∧ v.type = ret := by
  induction stmt generalizing env scope with
  | letBind fv value rest ih =>
    obtain ⟨ty,inferred,_,typed⟩ := typed
    obtain ⟨v,evaluated,rfl⟩ := RExpr.eval_typed total fits inferred
    simp only [RStmt.eval,evaluated]
    exact ih (fits.bind fv v) typed
  | boolCase scrutinee whenFalse whenTrue ihFalse ihTrue =>
    obtain ⟨known,typedFalse,typedTrue⟩ := typed
    obtain ⟨b,found⟩ := fits.bool known
    simp only [RStmt.eval,found]
    cases b with
    | false => exact ihFalse fits typedFalse
    | true => exact ihTrue fits typedTrue
  | ret fv => exact fits.value typed

/-- A division that is defined less often gives the same values where it is. -/
theorem Prim.call_mono {div div' : Division} (extend : ∀ a b c, div a b = some c → div' a b = some c) (p : Prim)
    (first second : Option Value) {v : Value} (value : p.call div first second = some v) :
    p.call div' first second = some v := by
  unfold Prim.call at value ⊢
  split at value
  · rename_i a b
    cases p with
    | div =>
      obtain ⟨c,quotient,rfl⟩ := Option.map_eq_some_iff.mp value
      simp only [Prim.eval,extend a b c quotient,Option.map_some]
    | _ => exact value
  · cases value

theorem RExpr.eval_mono {div div' : Division} (extend : ∀ a b c, div a b = some c → div' a b = some c) (rexpr : RExpr)
    {env : Env} {v : Value} (value : rexpr.eval div env = some v) : rexpr.eval div' env = some v := by
  unfold RExpr.eval at value ⊢
  split at value
  · exact value
  · exact value
  · rename_i p a b
    exact p.call_mono extend (env a) (env b) value
  · cases value

theorem RStmt.eval_mono {div div' : Division} (extend : ∀ a b c, div a b = some c → div' a b = some c) (stmt : RStmt)
    {env : Env} {v : Value} (value : stmt.eval div env = some v) : stmt.eval div' env = some v := by
  induction stmt generalizing env with
  | ret fv => exact value
  | letBind fv rexpr rest ih =>
    simp only [RStmt.eval] at value ⊢
    cases evaluated : rexpr.eval div env with
    | none =>
      rw [evaluated] at value
      cases value
    | some x =>
      rw [evaluated] at value
      rw [rexpr.eval_mono extend evaluated]
      exact ih value
  | boolCase scrutinee whenFalse whenTrue ihFalse ihTrue =>
    simp only [RStmt.eval] at value ⊢
    split at value
    · rename_i b _
      cases b with
      | false => exact ihFalse value
      | true => exact ihTrue value
    · cases value

end WarpLoop.Compiler
