import WarpLoop.Compiler.Emit

/-! The RV64IM machine that the assembly runs on: 64-bit registers, a program
counter that counts lines, and the instructions that the back end writes. A label is
no instruction and is stepped over. -/
namespace WarpLoop.Compiler

abbrev Word := BitVec 64

abbrev Regs := Reg → Word

def Regs.set (regs : Regs) (rd : Reg) (w : Word) : Regs := fun r => if r = rd then w else regs r

structure Machine where
  pc : Nat
  regs : Regs

/-- A shift takes the low six bits of its amount; a division by zero gives all ones
and its remainder the dividend. -/
def Op.eval : Op → Word → Word → Word
  | .srl,a,b => a >>> (b.toNat % 64)
  | .sll,a,b => a <<< (b.toNat % 64)
  | .add,a,b => a + b
  | .sub,a,b => a - b
  | .mul,a,b => a * b
  | .divu,a,b => if b = 0 then BitVec.allOnes 64 else a.udiv b
  | .remu,a,b => if b = 0 then a else a.umod b
  | .sltu,a,b => if a.ult b then 1 else 0

def target (program : List Line) (l : Label) : Option Nat := program.idxOf? (.label l)

inductive Step
  | next (m : Machine)
  | done (a0 : Word)
  | fault

def Machine.jump (m : Machine) (program : List Line) (l : Label) : Step :=
  match target program l with
  | some pc => .next ⟨pc,m.regs⟩
  | none => .fault

def Machine.set (m : Machine) (rd : Reg) (w : Word) : Step := .next ⟨m.pc + 1,m.regs.set rd w⟩

def step (program : List Line) (m : Machine) : Step :=
  match program[m.pc]? with
  | none => .fault
  | some line =>
    match line with
    | .header _ => .next ⟨m.pc + 1,m.regs⟩
    | .label _ => .next ⟨m.pc + 1,m.regs⟩
    | .op o rd a b => m.set rd (o.eval (m.regs a) (m.regs b))
    | .xori rd a imm => m.set rd (m.regs a ^^^ imm.signExtend 64)
    | .seqz rd a => m.set rd (if m.regs a = 0 then 1 else 0)
    | .mv rd a => m.set rd (m.regs a)
    -- the assembler takes no larger immediate
    | .li rd n => if n < 2^64 then m.set rd (BitVec.ofNat 64 n) else .fault
    | .bltu a b l => if (m.regs a).ult (m.regs b) then m.jump program l else .next ⟨m.pc + 1,m.regs⟩
    | .beqz a l => if m.regs a = 0 then m.jump program l else .next ⟨m.pc + 1,m.regs⟩
    | .j l => m.jump program l
    | .ret => .done (m.regs (.a 0))

def exec (program : List Line) : Nat → Machine → Option Word
  | 0,_ => none
  | fuel+1,m =>
    match step program m with
    | .next m' => exec program fuel m'
    | .done a0 => some a0
    | .fault => none

/-- The program returns `a0` from `m`. -/
def Returns (program : List Line) (m : Machine) (a0 : Word) : Prop := ∃ fuel, exec program fuel m = some a0

theorem exec_mono {program : List Line} {fuel : Nat} {m : Machine} {a0 : Word} (done : exec program fuel m = some a0)
    (more : Nat) : exec program (fuel + more) m = some a0 := by
  induction fuel generalizing m with
  | zero => cases done
  | succ fuel ih =>
    rw [Nat.succ_add]
    unfold exec at done ⊢
    cases next : step program m with
    | next m' =>
      rw [next] at done
      exact ih done
    | done word =>
      rw [next] at done
      exact done
    | fault =>
      rw [next] at done
      cases done

theorem Returns.unique {program : List Line} {m : Machine} {a0 a0' : Word} (first : Returns program m a0)
    (second : Returns program m a0') : a0 = a0' := by
  obtain ⟨fuel,done⟩ := first
  obtain ⟨fuel',done'⟩ := second
  have one := exec_mono done fuel'
  have two := exec_mono done' fuel
  rw [Nat.add_comm] at two
  exact Option.some.inj (one.symm.trans two)

theorem Returns.step {program : List Line} {m m' : Machine} {a0 : Word} (next : step program m = .next m')
    (later : Returns program m' a0) : Returns program m a0 := by
  obtain ⟨fuel,done⟩ := later
  refine ⟨fuel+1,?_⟩
  rw [exec,next]
  exact done

theorem step_at {program before after : List Line} {line : Line} (split : program = before ++ line::after) :
    program[before.length]? = some line := by
  rw [split]
  simp

/-! Where labels stand. -/

def Line.label? : Line → Option Label
  | .label l => some l
  | _ => none

def labels (program : List Line) : List Label := program.filterMap Line.label?

theorem target_eq {before after : List Line} {l : Label} (distinct : (labels (before ++ .label l::after)).Nodup) :
    target (before ++ .label l::after) l = some before.length := by
  have absent : Line.label l ∉ before := by
    intro inside
    have first : l ∈ labels before := List.mem_filterMap.mpr ⟨.label l,inside,rfl⟩
    rw [labels,List.filterMap_append,List.nodup_append] at distinct
    exact distinct.2.2 l first l (by simp [Line.label?]) rfl
  unfold target
  rw [List.idxOf?_eq_some_iff]
  refine ⟨by simp,by simp,?_⟩
  intro j below same
  rw [List.getElem_append_left below] at same
  rw [← same] at absent
  exact absent (List.getElem_mem below)

end WarpLoop.Compiler
