import WarpLoop.Compiler.Riscv

/-! The lines that a primitive call becomes, and that they leave its value in the
result register. -/
namespace WarpLoop.Compiler
open Lib.Outcome

def machineDiv : Division := fun a b => some (if b = 0 then UInt64.ofBitVec (BitVec.allOnes 64) else a / b)

def Value.word : Value → Word
  | .u64 n => n.toBitVec
  | .bool b => if b then 1 else 0

def callLines (p : Prim) (rd a b : Reg) (num : Nat) : List Line :=
  match p with
  | .shiftRight => [.op .srl rd a b]
  | .shiftLeft => [.op .sll rd a b]
  | .add => [.op .add rd a b]
  | .sub => [.op .sub rd a b]
  | .mul => [.op .mul rd a b]
  | .div => [.op .divu rd a b]
  | .mod => [.op .remu rd a b]
  | .decLt => [.op .sltu rd a b]
  | .decLe => [.op .sltu rd b a,.xori rd rd 1]
  | .decEq => [.op .sub rd a b,.seqz rd rd]
  | .max => [.bltu a b ⟨.maxGreater,num⟩,.mv rd a,.j ⟨.maxDone,num+1⟩,.label ⟨.maxGreater,num⟩,.mv rd b,
      .label ⟨.maxDone,num+1⟩]

def Prim.labelCount : Prim → Nat
  | .max => 2
  | _ => 0

theorem emitCall_prim (rd : Reg) (p : Prim) (a b : Reg) (s : Emit) :
    emitCall rd (.prim p) [a,b] s =
      .ok {s with asm := s.asm ++ callLines p rd a b s.labelNum, labelNum := s.labelNum + p.labelCount} := by
  cases p with
  | decLe => simp [emitCall,Emit.emitLine,callLines,Prim.labelCount]; rfl
  | decEq => simp [emitCall,Emit.emitLine,callLines,Prim.labelCount]; rfl
  | max => simp [emitCall,Emit.emitLine,Emit.freshLabel,callLines,Prim.labelCount]; rfl
  | _ => rfl

theorem set_set (regs : Regs) (rd : Reg) (w w' : Word) : (regs.set rd w).set rd w' = regs.set rd w' := by
  funext r
  unfold Regs.set
  split <;> rfl

theorem set_self (regs : Regs) (rd : Reg) (w : Word) : regs.set rd w rd = w := if_pos rfl

theorem set_other {regs : Regs} {rd r : Reg} (apart : r ≠ rd) (w : Word) : regs.set rd w r = regs r := if_neg apart

section Values
variable (x y : UInt64)

theorem srl_word : Op.eval .srl x.toBitVec y.toBitVec = (x >>> y).toBitVec := by
  simp [Op.eval,UInt64.toBitVec_shiftRight]

theorem sll_word : Op.eval .sll x.toBitVec y.toBitVec = (x <<< y).toBitVec := by
  simp [Op.eval,UInt64.toBitVec_shiftLeft]

theorem divu_word : Op.eval .divu x.toBitVec y.toBitVec =
    (if y = 0 then UInt64.ofBitVec (BitVec.allOnes 64) else x / y).toBitVec := by
  by_cases zero : y = 0
  · simp [Op.eval,zero]
  · have nonzero : y.toBitVec ≠ 0 := fun same => zero (UInt64.toBitVec_inj.mp same)
    rw [if_neg zero]
    simp only [Op.eval,if_neg nonzero]
    rfl

theorem remu_word : Op.eval .remu x.toBitVec y.toBitVec = (x % y).toBitVec := by
  by_cases zero : y.toBitVec = 0
  · simp [Op.eval,zero]
  · simp only [Op.eval,if_neg zero]
    rfl

theorem sltu_word : Op.eval .sltu x.toBitVec y.toBitVec = (Value.bool (decide (x < y))).word := by
  have less : x.toBitVec.ult y.toBitVec = decide (x < y) := rfl
  simp only [Op.eval,less,Value.word]

theorem decLe_word : Op.eval .sltu y.toBitVec x.toBitVec ^^^ (1 : BitVec 12).signExtend 64 =
    (Value.bool (decide (x ≤ y))).word := by
  rw [sltu_word]
  have flipped : decide (x ≤ y) = !decide (y < x) := by
    rw [← decide_not]
    exact decide_eq_decide.mpr UInt64.not_lt.symm
  rw [flipped]
  cases decide (y < x) <;> decide

theorem decEq_word : (if Op.eval .sub x.toBitVec y.toBitVec = 0 then 1 else 0 : Word) =
    (Value.bool (decide (x = y))).word := by
  have zero : (x.toBitVec - y.toBitVec = 0#64) ↔ x = y := by
    refine ⟨fun same => ?_,fun same => by rw [same,BitVec.sub_self]⟩
    have back := BitVec.sub_add_cancel x.toBitVec y.toBitVec
    rw [same,BitVec.zero_add] at back
    exact UInt64.toBitVec_inj.mp back.symm
  change (if x.toBitVec - y.toBitVec = 0#64 then 1 else 0 : Word) = _
  simp only [zero,Value.word,decide_eq_true_eq]

end Values

section Calls
variable {program before after : List Line} (regs : Regs) {rd a b : Reg} {x y : UInt64} (w : Word)

private theorem op_returns {o : Op} (split : program = before ++ .op o rd a b::after) (left : regs a = x.toBitVec)
    (right : regs b = y.toBitVec)
    (later : Returns program ⟨before.length + 1,regs.set rd (o.eval x.toBitVec y.toBitVec)⟩ w) :
    Returns program ⟨before.length,regs⟩ w := by
  refine .step ?_ later
  simp only [step,step_at split,Machine.set,left,right]

private theorem xori_returns {imm : BitVec 12} (split : program = before ++ .xori rd a imm::after)
    (later : Returns program ⟨before.length + 1,regs.set rd (regs a ^^^ imm.signExtend 64)⟩ w) :
    Returns program ⟨before.length,regs⟩ w := by
  refine .step ?_ later
  simp only [step,step_at split,Machine.set]

private theorem seqz_returns (split : program = before ++ .seqz rd a::after)
    (later : Returns program ⟨before.length + 1,regs.set rd (if regs a = 0 then 1 else 0)⟩ w) :
    Returns program ⟨before.length,regs⟩ w := by
  refine .step ?_ later
  simp only [step,step_at split,Machine.set]

theorem mv_returns (split : program = before ++ .mv rd a::after)
    (later : Returns program ⟨before.length + 1,regs.set rd (regs a)⟩ w) : Returns program ⟨before.length,regs⟩ w := by
  refine .step ?_ later
  simp only [step,step_at split,Machine.set]

theorem label_returns {l : Label} (split : program = before ++ .label l::after)
    (later : Returns program ⟨before.length + 1,regs⟩ w) : Returns program ⟨before.length,regs⟩ w := by
  refine .step ?_ later
  simp only [step,step_at split]

/-- A jump lands behind its label. -/
theorem jump_returns {l : Label} (split : program = before ++ .label l::after) (distinct : (labels program).Nodup)
    (m : Machine) (jumps : step program m = m.jump program l) (later : Returns program ⟨before.length + 1,m.regs⟩ w) :
    Returns program m w := by
  have line : target program l = some before.length := by
    rw [split] at distinct ⊢
    exact target_eq distinct
  refine .step ?_ (label_returns _ w split later)
  rw [jumps,Machine.jump,line]

private theorem max_returns {num : Nat} (split : program = before ++ (callLines .max rd a b num ++ after))
    (distinct : (labels program).Nodup) (left : regs a = x.toBitVec) (right : regs b = y.toBitVec)
    (later : Returns program ⟨before.length + 6,regs.set rd (Max.max x y).toBitVec⟩ w) :
    Returns program ⟨before.length,regs⟩ w := by
  have less : (regs a).ult (regs b) = decide (x < y) := by
    rw [left,right]
    rfl
  have branch : step program ⟨before.length,regs⟩ = if x < y then Machine.jump ⟨before.length,regs⟩ program ⟨.maxGreater,num⟩
      else .next ⟨before.length + 1,regs⟩ := by
    simp only [step,step_at split,less,decide_eq_true_eq]
  have first : program = (before ++ [.bltu a b ⟨.maxGreater,num⟩]) ++ .mv rd a::.j ⟨.maxDone,num+1⟩::
      .label ⟨.maxGreater,num⟩::.mv rd b::.label ⟨.maxDone,num+1⟩::after := by
    rw [split]
    simp [callLines]
  have jumps : program = (before ++ [.bltu a b ⟨.maxGreater,num⟩,.mv rd a]) ++ .j ⟨.maxDone,num+1⟩::
      .label ⟨.maxGreater,num⟩::.mv rd b::.label ⟨.maxDone,num+1⟩::after := by
    rw [split]
    simp [callLines]
  have greaterAt : program = (before ++ [.bltu a b ⟨.maxGreater,num⟩,.mv rd a,.j ⟨.maxDone,num+1⟩]) ++
      .label ⟨.maxGreater,num⟩::.mv rd b::.label ⟨.maxDone,num+1⟩::after := by
    rw [split]
    simp [callLines]
  have second : program = (before ++ [.bltu a b ⟨.maxGreater,num⟩,.mv rd a,.j ⟨.maxDone,num+1⟩,
      .label ⟨.maxGreater,num⟩]) ++ .mv rd b::.label ⟨.maxDone,num+1⟩::after := by
    rw [split]
    simp [callLines]
  have doneAt : program = (before ++ [.bltu a b ⟨.maxGreater,num⟩,.mv rd a,.j ⟨.maxDone,num+1⟩,
      .label ⟨.maxGreater,num⟩,.mv rd b]) ++ .label ⟨.maxDone,num+1⟩::after := by
    rw [split]
    simp [callLines]
  by_cases greater : x < y
  · have most : Max.max x y = y := if_pos (UInt64.le_of_lt greater)
    rw [most,← right] at later
    refine jump_returns w greaterAt distinct _ (by rw [branch,if_pos greater]) ?_
    have moved := mv_returns regs w second
    have landed := label_returns (regs.set rd (regs b)) w doneAt
    simp only [List.length_append,List.length_cons,List.length_nil] at moved landed ⊢
    exact moved (landed later)
  · have most : Max.max x y = x := by
      change (if x ≤ y then y else x) = x
      split
      · rename_i below
        exact UInt64.le_antisymm (UInt64.not_lt.mp greater) below
      · rfl
    rw [most,← left] at later
    refine .step (by rw [branch,if_neg greater]) ?_
    have moved := mv_returns regs w first
    have jumped := jump_returns w doneAt distinct ⟨before.length + 2,regs.set rd (regs a)⟩ (by
      have line := step_at jumps
      simp only [List.length_append,List.length_cons,List.length_nil] at line
      simp only [step,line])
    simp only [List.length_append,List.length_cons,List.length_nil] at moved jumped
    exact moved (jumped later)

theorem call_returns (p : Prim) {num : Nat} {v : Value} (split : program = before ++ (callLines p rd a b num ++ after))
    (distinct : (labels program).Nodup) (left : regs a = x.toBitVec) (right : regs b = y.toBitVec)
    (value : p.eval machineDiv x y = some v)
    (later : Returns program ⟨before.length + (callLines p rd a b num).length,regs.set rd v.word⟩ w) :
    Returns program ⟨before.length,regs⟩ w := by
  cases p with
  | max =>
    obtain rfl := Option.some.inj value
    exact max_returns regs w split distinct left right later
  | decLe =>
    obtain rfl := Option.some.inj value
    refine op_returns regs w split right left ?_
    have second : program = (before ++ [.op .sltu rd b a]) ++ .xori rd rd 1::after := by
      rw [split]
      simp [callLines]
    have next := xori_returns (regs.set rd (Op.eval .sltu y.toBitVec x.toBitVec)) w second
    rw [set_set,set_self,decLe_word] at next
    simpa using next (by simpa [callLines] using later)
  | decEq =>
    obtain rfl := Option.some.inj value
    refine op_returns regs w split left right ?_
    have second : program = (before ++ [.op .sub rd a b]) ++ .seqz rd rd::after := by
      rw [split]
      simp [callLines]
    have next := seqz_returns (regs.set rd (Op.eval .sub x.toBitVec y.toBitVec)) w second
    rw [set_set,set_self,decEq_word] at next
    simpa using next (by simpa [callLines] using later)
  | shiftRight =>
    obtain rfl := Option.some.inj value
    exact op_returns regs w split left right (by rw [srl_word]; exact later)
  | shiftLeft =>
    obtain rfl := Option.some.inj value
    exact op_returns regs w split left right (by rw [sll_word]; exact later)
  | div =>
    obtain rfl := Option.some.inj value
    exact op_returns regs w split left right (by rw [divu_word]; exact later)
  | mod =>
    obtain rfl := Option.some.inj value
    exact op_returns regs w split left right (by rw [remu_word]; exact later)
  | decLt =>
    obtain rfl := Option.some.inj value
    exact op_returns regs w split left right (by rw [sltu_word]; exact later)
  | _ =>
    obtain rfl := Option.some.inj value
    exact op_returns regs w split left right later

end Calls

end WarpLoop.Compiler
