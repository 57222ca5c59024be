import Mathlib.Data.Int.Order.Basic
import Mathlib.Data.Int.Basic

/-! The sampler behind the witness search (flow-toolchain/riscv-guests/shrubbery/
qc-fuzz.shrub): two congruential generators combined, the reduction of their draws to a
range, and trials whose range grows with their number. `quotient` rounds towards zero and
`modulo` takes the sign of its divisor. The seeds stay below 2^31 and the trials draw from
fewer than a hundred values, so what is computed for them has 64 bits and is written here
over the integers; draws from any range, with the interpreter's numbers, come with the
generator. -/
namespace WarpLoop.Taskweft

abbrev StdGen := Int × Int

def qcMkStdGen (seed : Int) : StdGen :=
  let q := seed.tdiv 2147483562
  let s1 := seed.fmod 2147483562
  let s2 := q.fmod 2147483398
  (s1 + 1,s2 + 1)

def qcStdNext (gen : StdGen) : Int × StdGen :=
  let (s1,s2) := gen
  let k1 := s1.tdiv 53668
  let s1a := 40014 * (s1 - k1 * 53668) - k1 * 12211
  let s1pp := if s1a < 0 then s1a + 2147483563 else s1a
  let k2 := s2.tdiv 52774
  let s2a := 40692 * (s2 - k2 * 52774) - k2 * 3791
  let s2pp := if s2a < 0 then s2a + 2147483399 else s2a
  let z := s1pp - s2pp
  let zprime := if z < 1 then z + 2147483562 else z.fmod 2147483562
  (zprime,(s1pp,s2pp))

/-- Every round but the last leaves less than the quotient. -/
theorem exactRemaining_lt {remaining : Int} (more : remaining ≠ 0) :
    (max 0 (remaining.tdiv 2147483562 - 1)).natAbs < remaining.natAbs := by
  rcases Int.lt_or_gt_of_ne more with below | above
  · have flipped : (-remaining).tdiv 2147483562 = -(remaining.tdiv 2147483562) :=
      Int.neg_tdiv remaining _
    have quotient : (-remaining).tdiv 2147483562 = -remaining / 2147483562 := Int.tdiv_eq_ediv_of_nonneg (by omega)
    omega
  · have quotient : remaining.tdiv 2147483562 = remaining / 2147483562 := Int.tdiv_eq_ediv_of_nonneg (by omega)
    omega

/-- `qc-rand-nat-loop` while nothing overflows. -/
def exactRandNatLoop (remaining v : Int) (gen : StdGen) : Int × StdGen :=
  if _done : remaining = 0 then (v,gen)
  else
    let step := qcStdNext gen
    let v2 := v * 2147483562 + (step.1 - 1)
    exactRandNatLoop (max 0 (remaining.tdiv 2147483562 - 1)) v2 step.2
termination_by remaining.natAbs
decreasing_by exact exactRemaining_lt _done

/-- `qc-rand-nat` while nothing overflows. -/
def exactRandNat (gen : StdGen) (lo hi : Int) : Int × StdGen :=
  let lo2 := min lo hi
  let hi2 := max lo hi
  let k := hi2 - lo2 + 1
  let result := exactRandNatLoop (k * 1000) 0 gen
  (lo2 + result.1.fmod k,result.2)

def qcDefaultMaxSize : Int := 100

def qcRunTrials (candidateIsWitness : Int → Bool) (finBound numInst maxSize i : Int) (gen : StdGen) : Option Int :=
  if i ≥ numInst then none
  else
    let size := (i * maxSize).tdiv numInst
    let hi := min size (finBound - 1)
    let sample := exactRandNat gen 0 hi
    if candidateIsWitness sample.1 then some sample.1
    else qcRunTrials candidateIsWitness finBound numInst maxSize (i + 1) sample.2
termination_by (numInst - i).toNat

def qcNextSeed (seed : Int) : Int := (qcStdNext (qcMkStdGen seed)).1

/-- Any sample that is a witness counts, `0` as well. -/
def qcCertify (candidateIsWitness : Int → Bool) (finBound numInst seed : Int) : Bool :=
  (qcRunTrials candidateIsWitness finBound numInst qcDefaultMaxSize 0 (qcMkStdGen seed)).isSome

/-! What is sampled. -/

/-- The samples of the trials from the `i`-th on, if none of them is a witness. -/
def qcSamples (finBound numInst maxSize i : Int) (gen : StdGen) : List Int :=
  if i ≥ numInst then []
  else
    let sample := exactRandNat gen 0 (min ((i * maxSize).tdiv numInst) (finBound - 1))
    sample.1::qcSamples finBound numInst maxSize (i + 1) sample.2
termination_by (numInst - i).toNat

/-- The trials look for the first witness among the samples. -/
theorem qcRunTrials_eq_find? (candidateIsWitness : Int → Bool) (finBound numInst maxSize i : Int) (gen : StdGen) :
    qcRunTrials candidateIsWitness finBound numInst maxSize i gen =
      (qcSamples finBound numInst maxSize i gen).find? candidateIsWitness := by
  fun_induction qcSamples finBound numInst maxSize i gen with
  | case1 i gen done =>
    rw [qcRunTrials,if_pos done]
    rfl
  | case2 i gen more sample ih =>
    rw [qcRunTrials,if_neg more,List.find?_cons]
    dsimp only
    cases witness : candidateIsWitness sample.1 with
    | true => simp only [if_true,sample]
    | false => simpa only [witness,Bool.false_eq_true,if_false] using ih

theorem exactRandNat_range (gen : StdGen) (lo hi : Int) :
    min lo hi ≤ (exactRandNat gen lo hi).1 ∧ (exactRandNat gen lo hi).1 ≤ max lo hi := by
  have wide : 0 < max lo hi - min lo hi + 1 := by omega
  unfold exactRandNat
  dsimp only
  generalize (exactRandNatLoop ((max lo hi - min lo hi + 1) * 1000) 0 gen).1 = v
  have lower := Int.fmod_nonneg_of_pos v wide
  have upper := Int.fmod_lt_of_pos v wide
  omega

theorem exactRandNat_bound (gen : StdGen) {hi : Int} (nonneg : 0 ≤ hi) :
    0 ≤ (exactRandNat gen 0 hi).1 ∧ (exactRandNat gen 0 hi).1 ≤ hi := by
  have range := exactRandNat_range gen 0 hi
  rwa [min_eq_left nonneg,max_eq_right nonneg] at range

/-- The range of the `i`-th trial. -/
theorem trialRange_bound {finBound numInst i : Int} (bound : 1 ≤ finBound) (nonneg : 0 ≤ i) (more : ¬ i ≥ numInst) :
    0 ≤ min ((i * qcDefaultMaxSize).tdiv numInst) (finBound - 1) ∧
      min ((i * qcDefaultMaxSize).tdiv numInst) (finBound - 1) < min 100 finBound := by
  have size : (i * qcDefaultMaxSize).tdiv numInst = i * 100 / numInst := Int.tdiv_eq_ediv_of_nonneg (by
    unfold qcDefaultMaxSize
    omega)
  have lower : 0 ≤ i * 100 / numInst := Int.ediv_nonneg (by omega) (by omega)
  have upper : i * 100 / numInst < 100 := Int.ediv_lt_of_lt_mul (by omega) (by
    rw [Int.mul_comm]
    exact Int.mul_lt_mul_of_pos_left (Int.not_le.mp more) (by decide))
  rw [size]
  omega

theorem qcSamples_bound {finBound numInst : Int} (bound : 1 ≤ finBound) (i : Int) (nonneg : 0 ≤ i) (gen : StdGen) :
    ∀ w ∈ qcSamples finBound numInst qcDefaultMaxSize i gen, 0 ≤ w ∧ w < min 100 finBound := by
  generalize size : qcDefaultMaxSize = maxSize
  fun_induction qcSamples finBound numInst maxSize i gen with
  | case1 => exact fun _ none => nomatch none
  | case2 i gen more sample ih =>
    subst size
    rw [List.forall_mem_cons]
    refine ⟨?_,ih (by omega)⟩
    obtain ⟨lower,upper⟩ := trialRange_bound bound nonneg more
    obtain ⟨least,most⟩ := exactRandNat_bound gen lower
    exact ⟨least,lt_of_le_of_lt most upper⟩

theorem qcCertify_witness {candidateIsWitness : Int → Bool} {finBound numInst seed : Int} (bound : 1 ≤ finBound)
    (certified : qcCertify candidateIsWitness finBound numInst seed = true) :
    ∃ w, 0 ≤ w ∧ w < min 100 finBound ∧ candidateIsWitness w = true := by
  unfold qcCertify at certified
  rw [qcRunTrials_eq_find?] at certified
  obtain ⟨w,found⟩ := Option.isSome_iff_exists.mp certified
  obtain ⟨lower,upper⟩ := qcSamples_bound bound 0 (Int.le_refl 0) (qcMkStdGen seed) w (List.mem_of_find?_eq_some found)
  exact ⟨w,lower,upper,List.find?_some found⟩

end WarpLoop.Taskweft
