import Mathlib.Logic.Function.Iterate
import WarpLoop.Taskweft.QcFuzz

/-! The escalation ladder of the witness search (flow-toolchain/riscv-guests/shrubbery/
taskweft-witnessdag.shrub). A level settles the search by its readback or by a sampled
witness; a level that does neither hands on to the next one with a fresh seed. -/
namespace WarpLoop.Taskweft

structure Level where
  idx : Int
  walkSteps : Int
  finBound : Int
  numInst : Int
deriving DecidableEq, Repr

structure Readback where
  value : List Int
  found : Bool
  witnessIdx : Int
  budgetHit : Bool
deriving DecidableEq, Repr

inductive Outcome
  | found (witnessIdx : Int)
  | provablyNone
  | budgetHit
deriving DecidableEq, Repr

/-- The result, the level it comes from, and the labelled outcome. -/
structure Report where
  result : Bool
  idx : Int
  label : String × Int
  outcome : Outcome
deriving DecidableEq, Repr

def Report.at (idx : Int) (result : Bool) (outcome : Outcome) : Report :=
  ⟨result,idx,("htn-planner-witness",idx),outcome⟩

def defaultLadder : List Level := [⟨0,256,256,200⟩,⟨1,2000,1024,800⟩,⟨2,16000,4096,2000⟩]

/-- There is no report for an empty ladder, of which the source takes the first level. -/
def certifyWitnessLoop (candidateIsWitness : Level → Int → Bool) (readback : Int → Readback) :
    List Level → Int → Option Report
  | [],_ => none
  | lvl::levels,seed =>
    let rb := readback lvl.walkSteps
    let cert := qcCertify (candidateIsWitness lvl) lvl.finBound lvl.numInst seed
    if rb.found then some (.at lvl.idx true (.found rb.witnessIdx))
    else if cert then some (.at lvl.idx false .provablyNone)
    else if levels.isEmpty then some (.at lvl.idx true .budgetHit)
    else certifyWitnessLoop candidateIsWitness readback levels (qcNextSeed seed)

def certifyWitness (candidateIsWitness : Level → Int → Bool) (readback : Int → Readback) (levels : List Level)
    (seed : Int) : Option Report :=
  certifyWitnessLoop candidateIsWitness readback levels seed

def defaultCandidateIsWitness (_ : Level) (_ : Int) : Bool := false

def defaultReadback (_ : Int) : Readback := ⟨[],false,0,false⟩

def runWitnessOracle (seed : Int) : Option Report :=
  certifyWitness defaultCandidateIsWitness defaultReadback defaultLadder seed

section Ladder
variable (candidateIsWitness : Level → Int → Bool) (readback : Int → Readback)

def Level.Found (lvl : Level) : Prop := (readback lvl.walkSteps).found = true

def Level.Certified (lvl : Level) (seed : Int) : Prop :=
  qcCertify (candidateIsWitness lvl) lvl.finBound lvl.numInst seed = true

/-- The ladder is settled at its `k`-th level, or ends there unsettled: no level before it
settles anything with the seed that it is given. -/
structure StopsAt (levels : List Level) (seed : Int) (k : Nat) (lvl : Level) (report : Report) : Prop where
  level : levels[k]? = some lvl
  first : ∀ j other, j < k → levels[j]? = some other →
    ¬ other.Found readback ∧ ¬ other.Certified candidateIsWitness (qcNextSeed^[j] seed)
  reports : lvl.Found readback ∧ report = .at lvl.idx true (.found (readback lvl.walkSteps).witnessIdx) ∨
    ¬ lvl.Found readback ∧ lvl.Certified candidateIsWitness (qcNextSeed^[k] seed) ∧
      report = .at lvl.idx false .provablyNone ∨
    ¬ lvl.Found readback ∧ ¬ lvl.Certified candidateIsWitness (qcNextSeed^[k] seed) ∧ k + 1 = levels.length ∧
      report = .at lvl.idx true .budgetHit

variable {candidateIsWitness readback}

theorem StopsAt.here {lvl : Level} {levels : List Level} {seed : Int} {report : Report}
    (reports : lvl.Found readback ∧ report = .at lvl.idx true (.found (readback lvl.walkSteps).witnessIdx) ∨
      ¬ lvl.Found readback ∧ lvl.Certified candidateIsWitness seed ∧ report = .at lvl.idx false .provablyNone ∨
      ¬ lvl.Found readback ∧ ¬ lvl.Certified candidateIsWitness seed ∧ 0 + 1 = (lvl::levels).length ∧
        report = .at lvl.idx true .budgetHit) :
    StopsAt candidateIsWitness readback (lvl::levels) seed 0 lvl report :=
  ⟨rfl,fun _ _ below => absurd below (Nat.not_lt_zero _),reports⟩

theorem StopsAt.next {lvl other : Level} {levels : List Level} {seed : Int} {k : Nat} {report : Report}
    (unfound : ¬ lvl.Found readback) (uncertified : ¬ lvl.Certified candidateIsWitness seed)
    (stops : StopsAt candidateIsWitness readback levels (qcNextSeed seed) k other report) :
    StopsAt candidateIsWitness readback (lvl::levels) seed (k + 1) other report where
  level := stops.level
  first := by
    intro j earlier below at_j
    cases j with
    | zero =>
      obtain rfl : lvl = earlier := Option.some.inj at_j
      exact ⟨unfound,uncertified⟩
    | succ j => exact stops.first j earlier (Nat.lt_of_succ_lt_succ below) at_j
  reports := by
    rcases stops.reports with found | certified | ⟨none,never,last,same⟩
    · exact Or.inl found
    · exact Or.inr (Or.inl certified)
    · exact Or.inr (Or.inr ⟨none,never,congrArg Nat.succ last,same⟩)

/-- The loop goes down the ladder; the induction is on the levels that are left. -/
theorem certifyWitnessLoop_stops (levels : List Level) (some_level : levels ≠ []) (seed : Int) :
    ∃ k lvl report, certifyWitnessLoop candidateIsWitness readback levels seed = some report ∧
      StopsAt candidateIsWitness readback levels seed k lvl report := by
  induction levels generalizing seed with
  | nil => exact absurd rfl some_level
  | cons lvl levels ih =>
    unfold certifyWitnessLoop
    dsimp only
    by_cases found : lvl.Found readback
    · exact ⟨0,lvl,_,if_pos found,.here (Or.inl ⟨found,rfl⟩)⟩
    have unfound : ¬ (readback lvl.walkSteps).found = true := found
    rw [if_neg unfound]
    by_cases certified : lvl.Certified candidateIsWitness seed
    · exact ⟨0,lvl,_,if_pos certified,.here (Or.inr (Or.inl ⟨found,certified,rfl⟩))⟩
    have uncertified : ¬ qcCertify (candidateIsWitness lvl) lvl.finBound lvl.numInst seed = true := certified
    rw [if_neg uncertified]
    cases levels with
    | nil => exact ⟨0,lvl,_,rfl,.here (Or.inr (Or.inr ⟨found,certified,rfl,rfl⟩))⟩
    | cons next levels =>
      obtain ⟨k,other,report,reported,stops⟩ := ih (by simp) (qcNextSeed seed)
      exact ⟨k + 1,other,report,reported,stops.next found certified⟩

/-- A report of `provablyNone` rests on a witness below the bound of its level. -/
theorem StopsAt.witness {levels : List Level} {seed : Int} {k : Nat} {lvl : Level} {report : Report}
    (stops : StopsAt candidateIsWitness readback levels seed k lvl report) (bound : 1 ≤ lvl.finBound)
    (none : report.outcome = .provablyNone) :
    ∃ w, 0 ≤ w ∧ w < min 100 lvl.finBound ∧ candidateIsWitness lvl w = true := by
  rcases stops.reports with ⟨_,rfl⟩ | ⟨_,certified,_⟩ | ⟨_,_,_,rfl⟩
  · cases none
  · exact qcCertify_witness bound certified
  · cases none

end Ladder

end WarpLoop.Taskweft
