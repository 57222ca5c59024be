import Mathlib.Algebra.GroupWithZero.Nat
import Mathlib.Data.List.AList
import WarpLoop.Compiler.Lower

/-! The RISC-V back end (fanout-core/IrCodegenScratch.lean): registers are handed
out in order and never reused, and the body is written as assembly lines. A line is
kept as what it says; `Line.text` is how it is written. -/
namespace WarpLoop.Compiler
open Lib.Outcome

-- a literal register index asks for these
@[instance] theorem neZero_temps : NeZero 7 := ⟨by decide⟩
@[instance] theorem neZero_args : NeZero 8 := ⟨by decide⟩

inductive Reg
  | a (i : Fin 8)
  | t (i : Fin 7)
deriving DecidableEq, Repr

inductive Tag
  | maxGreater
  | maxDone
  | false_
deriving DecidableEq, Repr

structure Label where
  tag : Tag
  num : Nat
deriving DecidableEq, Repr

/-- The operations with three registers. -/
inductive Op
  | srl
  | sll
  | add
  | sub
  | mul
  | divu
  | remu
  | sltu
deriving DecidableEq, Repr

inductive Line
  | header (asmName : String)
  | label (l : Label)
  | op (o : Op) (rd a b : Reg)
  | xori (rd a : Reg) (imm : BitVec 12)
  | seqz (rd a : Reg)
  | mv (rd a : Reg)
  | li (rd : Reg) (n : Nat)
  | bltu (a b : Reg) (l : Label)
  | beqz (a : Reg) (l : Label)
  | j (l : Label)
  | ret
deriving DecidableEq, Repr

def Reg.text : Reg → String
  | .a i => s!"a{i.val}"
  | .t i => s!"t{i.val}"

instance : ToString Reg := ⟨Reg.text⟩

def Tag.text : Tag → String
  | .maxGreater => "max_greater"
  | .maxDone => "max_done"
  | .false_ => "false"

def Label.text (l : Label) : String := s!".L{l.tag.text}{l.num}"

instance : ToString Label := ⟨Label.text⟩

def Op.text : Op → String
  | .srl => "srl"
  | .sll => "sll"
  | .add => "add"
  | .sub => "sub"
  | .mul => "mul"
  | .divu => "divu"
  | .remu => "remu"
  | .sltu => "sltu"

def Line.text : Line → String
  | .header asmName => s!".globl {asmName}\n{asmName}:"
  | .label l => s!"{l}:"
  | .op o rd a b => s!"  {o.text} {rd}, {a}, {b}"
  | .xori rd a imm => s!"  xori {rd}, {a}, {imm.toInt}"
  | .seqz rd a => s!"  seqz {rd}, {a}"
  | .mv rd a => s!"  mv {rd}, {a}"
  | .li rd n => s!"  li {rd}, {n}"
  | .bltu a b l => s!"  bltu {a}, {b}, {l}"
  | .beqz a l => s!"  beqz {a}, {l}"
  | .j l => s!"  j {l}"
  | .ret => "  ret"

def asmText (lines : List Line) : String := "\n".intercalate (lines.map Line.text) ++ "\n"

structure Emit where
  regOf : AList (fun _ : FVarId => Reg) := ∅
  nextTemp : Nat := 0
  asm : List Line := []
  labelNum : Nat := 0

def tempPool : List Reg := [.t 0,.t 1,.t 2,.t 3,.t 4,.t 5,.t 6]

def paramPool : List Reg := [.a 0,.a 1,.a 2,.a 3,.a 4,.a 5,.a 6,.a 7]

namespace Emit

def freshTemp (s : Emit) : Except String (Reg × Emit) :=
  match tempPool[s.nextTemp]? with
  | none => throw s!"out of temporary registers (>{tempPool.length} live values in one function - not supported by this checkpoint's allocator)"
  | some reg => pure (reg,{s with nextTemp := s.nextTemp + 1})

def bindReg (s : Emit) (fv : FVarId) (reg : Reg) : Emit := {s with regOf := s.regOf.insert fv reg}

def regOfFVar (s : Emit) (fv : FVarId) : Except String Reg :=
  match s.regOf.lookup fv with
  | some r => pure r
  | none => throw s!"unbound register for {fv.name}"

def emitLine (s : Emit) (line : Line) : Emit := {s with asm := s.asm ++ [line]}

def freshLabel (s : Emit) (tag : Tag) : Label × Emit := (⟨tag,s.labelNum⟩,{s with labelNum := s.labelNum + 1})

/-- The registers of the arguments. When several are unbound, the error is about
the last one. -/
def argRegs (s : Emit) : List FVarId → Except String (List Reg)
  | [] => pure []
  | fv::rest =>
    match s.regOfFVar fv,s.argRegs rest with
    | _,.error e => throw e
    | .error e,.ok _ => throw e
    | .ok r,.ok regs => pure (r::regs)

end Emit

/-- `rd := call fn [args]` for a whitelisted primitive. -/
def emitCall (rd : Reg) (fn : Name) (argRegs : List Reg) (s : Emit) : Except String Emit :=
  match fn,argRegs[0]?,argRegs[1]? with
  | .prim .shiftRight,some a,some b => pure (s.emitLine (.op .srl rd a b))
  | .prim .shiftLeft,some a,some b => pure (s.emitLine (.op .sll rd a b))
  | .prim .add,some a,some b => pure (s.emitLine (.op .add rd a b))
  | .prim .sub,some a,some b => pure (s.emitLine (.op .sub rd a b))
  | .prim .mul,some a,some b => pure (s.emitLine (.op .mul rd a b))
  | .prim .div,some a,some b => pure (s.emitLine (.op .divu rd a b))
  | .prim .mod,some a,some b => pure (s.emitLine (.op .remu rd a b))
  | .prim .decLt,some a,some b => pure (s.emitLine (.op .sltu rd a b))
  | .prim .decLe,some a,some b => pure ((s.emitLine (.op .sltu rd b a)).emitLine (.xori rd rd 1))
  | .prim .decEq,some a,some b => pure ((s.emitLine (.op .sub rd a b)).emitLine (.seqz rd rd))
  | .prim .max,some a,some b =>
    let (lGreater,s) := s.freshLabel .maxGreater
    let (lDone,s) := s.freshLabel .maxDone
    pure ((((((s.emitLine (.bltu a b lGreater)).emitLine (.mv rd a)).emitLine (.j lDone)).emitLine
      (.label lGreater)).emitLine (.mv rd b)).emitLine (.label lDone))
  | _,_,_ => throw s!"codegen: unsupported call shape for {fn} (arity/argument mismatch)"

def LitValue.toNat : LitValue → Nat
  | .nat n => n
  | .uint64 n => n.toNat
  | .uint32 n => n.toNat
  | .uint16 n => n.toNat
  | .uint8 n => n.toNat
  | .usize n => n.toNat
  | .str _ => 0

def emitStmt : RStmt → Emit → Except String Emit
  | .ret fv,s => do
    let reg ← s.regOfFVar fv
    let s := if reg ≠ .a 0 then s.emitLine (.mv (.a 0) reg) else s
    pure (s.emitLine .ret)
  | .letBind fv (.lit v) rest,s => do
    let (reg,s) ← s.freshTemp
    emitStmt rest ((s.emitLine (.li reg v.toNat)).bindReg fv reg)
  | .letBind fv (.var srcFv) rest,s => do
    let srcReg ← s.regOfFVar srcFv
    emitStmt rest (s.bindReg fv srcReg)
  | .letBind fv (.call fn args) rest,s => do
    let argRegs ← s.argRegs args
    let (reg,s) ← s.freshTemp
    let s ← emitCall reg fn argRegs s
    emitStmt rest (s.bindReg fv reg)
  | .boolCase scrutinee whenFalse whenTrue,s => do
    let sreg ← s.regOfFVar scrutinee
    let (lFalse,s) := s.freshLabel .false_
    let s ← emitStmt whenTrue (s.emitLine (.beqz sreg lFalse))
    emitStmt whenFalse (s.emitLine (.label lFalse))

/-- The loop over the parameters, from the `i`-th on. -/
def bindParams : List FVarId → Nat → Emit → Except String Emit
  | [],_,s => pure s
  | fv::rest,i,s =>
    match paramPool[i]? with
    | none => throw s!"more than {paramPool.length} parameters - not supported"
    | some reg => bindParams rest (i+1) (s.bindReg fv reg)

def asmName (name : Name) : String := String.ofList (name.toString.toList.map (fun c => if c = '.' then '_' else c))

def emitDecl (decl : RDecl) : Except String (List Line) := do
  let s ← bindParams decl.params 0 {}
  let s ← emitStmt decl.body (s.emitLine (.header (asmName decl.name)))
  pure s.asm

end WarpLoop.Compiler
