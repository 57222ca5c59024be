import Mathlib.Data.List.Basic

/-! The pure-phase LCNF code that the content compiler reads: the constructors that
`lowerCode` matches on (fanout-core/IrCodegenScratch.lean), a typing of the scalar
fragment, and its evaluation. The division is a parameter of the evaluation, so that
Lean's own can be compared with others. -/
namespace WarpLoop.Compiler

inductive Prim
  | shiftRight
  | shiftLeft
  | add
  | sub
  | mul
  | div
  | mod
  | decLe
  | decLt
  | decEq
  | max
deriving DecidableEq, Repr

/-- The names that the compiler tells apart, and all others. -/
inductive Name
  | prim (p : Prim)
  | bool
  | boolFalse
  | boolTrue
  | other (text : String)
deriving DecidableEq, Repr

def Prim.text : Prim → String
  | .shiftRight => "UInt64.shiftRight"
  | .shiftLeft => "UInt64.shiftLeft"
  | .add => "UInt64.add"
  | .sub => "UInt64.sub"
  | .mul => "UInt64.mul"
  | .div => "UInt64.div"
  | .mod => "UInt64.mod"
  | .decLe => "UInt64.decLe"
  | .decLt => "UInt64.decLt"
  | .decEq => "UInt64.decEq"
  | .max => "Max.max"

def Name.toString : Name → String
  | .prim p => p.text
  | .bool => "Bool"
  | .boolFalse => "Bool.false"
  | .boolTrue => "Bool.true"
  | .other text => text

instance : ToString Name := ⟨Name.toString⟩

structure FVarId where
  name : String
deriving DecidableEq, Repr

inductive LitValue
  | nat (n : Nat)
  | uint64 (n : UInt64)
  | uint32 (n : UInt32)
  | uint16 (n : UInt16)
  | uint8 (n : UInt8)
  | usize (n : UInt64)
  | str (s : String)
deriving DecidableEq, Repr

inductive Arg
  | fvar (fv : FVarId)
  | erased
  | type
deriving DecidableEq, Repr

inductive LetValue
  | lit (v : LitValue)
  | erased
  | proj (typeName : Name) (idx : Nat) (struct : FVarId)
  | const (declName : Name) (args : List Arg)
  | fvar (fv : FVarId) (args : List Arg)
deriving DecidableEq, Repr

structure LetDecl where
  fvarId : FVarId
  value : LetValue
deriving DecidableEq, Repr

mutual
inductive Code
  | let_ (decl : LetDecl) (k : Code)
  | fun_ (fvarId : FVarId) (value k : Code)
  | jp (fvarId : FVarId) (value k : Code)
  | jmp (fvarId : FVarId) (args : List Arg)
  | cases (typeName : Name) (discr : FVarId) (alts : Alts)
  | return_ (fvarId : FVarId)
  | unreach
inductive Alts
  | nil
  | alt (ctorName : Name) (params : List FVarId) (code : Code) (rest : Alts)
  | ctorAlt (code : Code) (rest : Alts)
  | default (code : Code) (rest : Alts)
end

inductive Ty
  | uint64
  | bool
deriving DecidableEq, Repr

structure Param where
  fvarId : FVarId
  type : Ty
deriving DecidableEq, Repr

inductive DeclValue
  | code (code : Code)
  | extern_

structure Decl where
  name : Name
  params : List Param
  type : Ty
  value : DeclValue

/-! Typing. -/

abbrev Scope := FVarId → Option Ty

def Scope.bind (scope : Scope) (fv : FVarId) (ty : Ty) : Scope := fun other => if other = fv then some ty else scope other

def Prim.type : Prim → Ty
  | .decLe => .bool
  | .decLt => .bool
  | .decEq => .bool
  | _ => .uint64

def LetValue.infer (scope : Scope) : LetValue → Option Ty
  | .lit (.uint64 _) => some .uint64
  | .fvar fv [] => scope fv
  | .const (.prim p) [.fvar a,.fvar b] =>
    if scope a = some .uint64 ∧ scope b = some .uint64 then some p.type else none
  | _ => none

def Alts.ctors : Alts → List Name
  | .nil => []
  | .alt ctorName _ _ rest => ctorName::rest.ctors
  | .ctorAlt _ rest => rest.ctors
  | .default _ rest => rest.ctors

mutual
/-- Code of type `ret` in which every binding is new, every use is in scope and
every `cases` has at most one alternative for each constructor. -/
def Code.Typed (ret : Ty) : Scope → Code → Prop
  | scope,.let_ decl k => ∃ ty, decl.value.infer scope = some ty ∧ scope decl.fvarId = none ∧
      k.Typed ret (scope.bind decl.fvarId ty)
  | scope,.cases _ discr alts => scope discr = some .bool ∧ alts.ctors.Nodup ∧ alts.Typed ret scope
  | scope,.return_ fv => scope fv = some ret
  | _,_ => False
def Alts.Typed (ret : Ty) : Scope → Alts → Prop
  | _,.nil => True
  | scope,.alt _ _ code rest => code.Typed ret scope ∧ rest.Typed ret scope
  | scope,.ctorAlt code rest => code.Typed ret scope ∧ rest.Typed ret scope
  | scope,.default code rest => code.Typed ret scope ∧ rest.Typed ret scope
end

/-! Evaluation. -/

inductive Value
  | u64 (n : UInt64)
  | bool (b : Bool)
deriving DecidableEq, Repr

def Value.type : Value → Ty
  | .u64 _ => .uint64
  | .bool _ => .bool

abbrev Env := FVarId → Option Value

def Env.bind (env : Env) (fv : FVarId) (v : Value) : Env := fun other => if other = fv then some v else env other

abbrev Division := UInt64 → UInt64 → Option UInt64

/-- Lean's division, which gives zero for a zero divisor. -/
def leanDiv : Division := fun a b => some (a / b)

/-- Division that has no value for a zero divisor. -/
def strictDiv : Division := fun a b => if b = 0 then none else some (a / b)

def Prim.eval (div : Division) : Prim → UInt64 → UInt64 → Option Value
  | .shiftRight,a,b => some (.u64 (a >>> b))
  | .shiftLeft,a,b => some (.u64 (a <<< b))
  | .add,a,b => some (.u64 (a + b))
  | .sub,a,b => some (.u64 (a - b))
  | .mul,a,b => some (.u64 (a * b))
  | .div,a,b => (div a b).map .u64
  | .mod,a,b => some (.u64 (a % b))
  | .decLe,a,b => some (.bool (decide (a ≤ b)))
  | .decLt,a,b => some (.bool (decide (a < b)))
  | .decEq,a,b => some (.bool (decide (a = b)))
  | .max,a,b => some (.u64 (Max.max a b))

def Prim.call (div : Division) (p : Prim) : Option Value → Option Value → Option Value
  | some (.u64 a),some (.u64 b) => p.eval div a b
  | _,_ => none

def LetValue.eval (div : Division) (env : Env) : LetValue → Option Value
  | .lit (.uint64 n) => some (.u64 n)
  | .fvar fv [] => env fv
  | .const (.prim p) [.fvar a,.fvar b] => p.call div (env a) (env b)
  | _ => none

def ctorOf : Bool → Name
  | false => .boolFalse
  | true => .boolTrue

mutual
def Code.eval (div : Division) : Env → Code → Option Value
  | env,.let_ decl k =>
    match decl.value.eval div env with
    | some v => k.eval div (env.bind decl.fvarId v)
    | none => none
  | env,.cases _ discr alts =>
    match env discr with
    | some (.bool b) => (alts.evalCtor div env (ctorOf b)).getD (alts.evalDefault div env)
    | _ => none
  | env,.return_ fv => env fv
  | _,_ => none
def Alts.evalCtor (div : Division) : Env → Name → Alts → Option (Option Value)
  | _,_,.nil => none
  | env,ctor,.alt ctorName _ code rest =>
    if ctorName = ctor then some (code.eval div env) else rest.evalCtor div env ctor
  | env,ctor,.ctorAlt _ rest => rest.evalCtor div env ctor
  | env,ctor,.default _ rest => rest.evalCtor div env ctor
def Alts.evalDefault (div : Division) : Env → Alts → Option Value
  | _,.nil => none
  | env,.alt _ _ _ rest => rest.evalDefault div env
  | env,.ctorAlt _ rest => rest.evalDefault div env
  | env,.default code _ => code.eval div env
end

def Scope.ofParams : List Param → Scope
  | [] => fun _ => none
  | p::rest => (Scope.ofParams rest).bind p.fvarId p.type

def Env.ofArgs : List Param → List Value → Env
  | p::rest,v::args => (Env.ofArgs rest args).bind p.fvarId v
  | _,_ => fun _ => none

structure Decl.WellTyped (d : Decl) : Prop where
  distinct : (d.params.map Param.fvarId).Nodup
  body : ∀ code, d.value = .code code → code.Typed d.type (Scope.ofParams d.params)

def Decl.eval (div : Division) (d : Decl) (args : List Value) : Option Value :=
  match d.value with
  | .code code => code.eval div (Env.ofArgs d.params args)
  | .extern_ => none

end WarpLoop.Compiler
