import Mathlib.Logic.Function.Iterate
import WarpLoop.Lib.Schrage
import WarpLoop.Scheme.Numbers
import WarpLoop.Taskweft.QcFuzz

/-! The generator behind the sampler: two multiplicative congruential generators, whose
products are computed without a large intermediate value, and the loop that draws from them
until it has drawn enough. The bounds of a draw are any integers of the interpreter, so the
loop and the reduction to the range compute with its numbers. -/
namespace WarpLoop.Taskweft
open Lib.Schrage Scheme

/-- The seeds that the generator passes through. -/
structure Seeded (gen : StdGen) : Prop where
  s1 : 1 ≤ gen.1 ∧ gen.1 ≤ 2147483562
  s2 : 1 ≤ gen.2 ∧ gen.2 ≤ 2147483398

/-- One step of both generators, and its output. -/
structure Steps (gen : StdGen) (z : Int) (next : StdGen) : Prop where
  s1 : next.1 = 40014 * gen.1 % 2147483563
  s2 : next.2 = 40692 * gen.2 % 2147483399
  output : 1 ≤ z ∧ z ≤ 2147483562

def qcStates (seed : Int) (n : Nat) : StdGen := (fun gen => (qcStdNext gen).2)^[n] (qcMkStdGen seed)

theorem qcMkStdGen_seeded (seed : Int) : Seeded (qcMkStdGen seed) := by
  have lower (v m : Int) (positive : 0 < m) := Int.fmod_nonneg_of_pos v positive
  have upper (v m : Int) (positive : 0 < m) := Int.fmod_lt_of_pos v positive
  unfold qcMkStdGen
  constructor
  · have below := lower seed 2147483562 (by decide)
    have above := upper seed 2147483562 (by decide)
    dsimp only
    omega
  · have below := lower (seed.tdiv 2147483562) 2147483398 (by decide)
    have above := upper (seed.tdiv 2147483562) 2147483398 (by decide)
    dsimp only
    omega

/-- What is drawn from the new seeds. -/
theorem qcStdNext_output {gen : StdGen} (seeded : Seeded (qcStdNext gen).2) :
    1 ≤ (qcStdNext gen).1 ∧ (qcStdNext gen).1 ≤ 2147483562 := by
  obtain ⟨first,second⟩ := seeded
  have combined : (qcStdNext gen).1 = if (qcStdNext gen).2.1 - (qcStdNext gen).2.2 < 1
      then (qcStdNext gen).2.1 - (qcStdNext gen).2.2 + 2147483562
      else ((qcStdNext gen).2.1 - (qcStdNext gen).2.2).fmod 2147483562 := rfl
  rw [combined]
  split
  · omega
  · rw [Int.fmod_eq_emod_of_nonneg _ (by decide)]
    omega

theorem qcStdNext_steps {gen : StdGen} (seeded : Seeded gen) :
    Seeded (qcStdNext gen).2 ∧ Steps gen (qcStdNext gen).1 (qcStdNext gen).2 := by
  obtain ⟨⟨lower,upper⟩,lower',upper'⟩ := seeded
  have first : (qcStdNext gen).2.1 = 40014 * gen.1 % 2147483563 :=
    @product_eq 40014 53668 12211 gen.1 (by decide) (by decide) (by decide) (by omega) (by omega)
  have second : (qcStdNext gen).2.2 = 40692 * gen.2 % 2147483399 :=
    @product_eq 40692 52774 3791 gen.2 (by decide) (by decide) (by decide) (by omega) (by omega)
  have next : Seeded (qcStdNext gen).2 := by
    constructor
    · rw [first]
      have nonzero := @mul_emod_pos 40014 2147483563 gen.1 (by decide) lower (by omega)
      omega
    · rw [second]
      have nonzero := @mul_emod_pos 40692 2147483399 gen.2 (by decide) lower' (by omega)
      omega
  exact ⟨next,first,second,qcStdNext_output next⟩

theorem qcStates_seeded (seed : Int) (n : Nat) : Seeded (qcStates seed n) := by
  induction n with
  | zero => exact qcMkStdGen_seeded seed
  | succ n ih =>
    rw [qcStates,Function.iterate_succ_apply']
    exact (qcStdNext_steps ih).1

/-! Drawing from a range. -/

/-- What is left to draw after one draw; no value when the interpreter raises an error. -/
def nextRemaining (remaining : Number) : Option Number :=
  (remaining.quotient 2147483562).map fun q => Number.max 0 (q.sub 1)

/-- A bound on what is left; a real is left before the first draw only. -/
def remainingBound : Number → Nat
  | .integer v => v.toInt.natAbs
  | .real _ => 2^63 + 1

theorem remainingBound_is {x : Number} {n : Int} (here : x.Is n) : remainingBound x = n.natAbs := by
  obtain ⟨v,rfl,rfl⟩ := here
  rfl

theorem max_pred_is (q : Int64) : (Number.max 0 ((Number.integer q).sub 1)).Is (max 0 (q.toInt - 1)) := by
  by_cases least : q = Int64.minValue
  · subst least
    have same : Number.max 0 ((Number.integer Int64.minValue).sub 1) = 0 := by decide +kernel
    rw [same]
    exact Number.zero_is
  · apply Number.zero_is.max
    apply (Number.integer_is q).sub Number.one_is
    have lower := q.le_toInt
    have upper := q.toInt_lt
    have inside : q.toInt ≠ -2^63 := fun same => least (Int64.toInt_inj.mp same)
    unfold Fits
    omega

theorem nextRemaining_is {remaining : Number} {n : Int} (here : remaining.Is n) :
    ∃ next, nextRemaining remaining = some next ∧ next.Is (max 0 (n.tdiv 2147483562 - 1)) := by
  have divided := here.quotient (d := 2147483562) (by decide) (by decide)
  obtain ⟨q,quotient,v,rfl,same⟩ := divided
  refine ⟨_,by rw [nextRemaining,quotient,Option.map_some],?_⟩
  have next := max_pred_is v
  rwa [same] at next

theorem nextRemaining_lt {remaining next : Number} (more : ¬ remaining.equal 0 = true)
    (rest : nextRemaining remaining = some next) : remainingBound next < remainingBound remaining := by
  cases remaining with
  | integer v =>
    have here := Number.integer_is v
    obtain ⟨other,same,is⟩ := nextRemaining_is here
    obtain rfl := Option.some.inj (rest.symm.trans same)
    rw [remainingBound_is is,remainingBound_is here]
    rw [here.equal Number.zero_is,decide_eq_true_eq] at more
    exact exactRemaining_lt more
  | real x =>
    obtain ⟨q,quotient,rfl⟩ := Option.map_eq_some_iff.mp rest
    have cut : ∃ t : Int64, q = .integer t := by
      simp only [Number.quotient,Number.truncate] at quotient
      split_ifs at quotient
      exact ⟨_,(Option.some.inj quotient).symm⟩
    obtain ⟨t,rfl⟩ := cut
    have upper := t.toInt_lt
    rw [remainingBound_is (max_pred_is t),remainingBound]
    omega

def qcRandNatLoop (remaining v : Number) (gen : StdGen) : Option (Number × StdGen) :=
  if _done : remaining.equal 0 then some (v,gen)
  else
    match _rest : nextRemaining remaining with
    | none => none
    | some next =>
      let step := qcStdNext gen
      let v2 := (v.mul 2147483562).add (.fixnum (step.1 - 1))
      qcRandNatLoop next v2 step.2
termination_by remainingBound remaining
decreasing_by exact nextRemaining_lt _done _rest

def qcRandNat (gen : StdGen) (lo hi : Number) : Option (Number × StdGen) :=
  let lo2 := lo.min hi
  let hi2 := lo.max hi
  let k := (hi2.sub lo2).addOne
  (qcRandNatLoop (k.mul 1000) 0 gen).map fun result => (lo2.add (result.1.modulo k),result.2)

/-- The draws of the loop, one after the other, up to its result or an error. -/
inductive Draws : Number → Number → StdGen → Option (Number × StdGen) → Prop
  | done {remaining v gen} : remaining.equal 0 = true → Draws remaining v gen (some (v,gen))
  | fails {remaining v gen} : ¬ remaining.equal 0 = true → nextRemaining remaining = none → Draws remaining v gen none
  | more {remaining next v gen result} : ¬ remaining.equal 0 = true → nextRemaining remaining = some next →
      Draws next ((v.mul 2147483562).add (.fixnum ((qcStdNext gen).1 - 1))) (qcStdNext gen).2 result →
      Draws remaining v gen result

theorem qcRandNatLoop_draws (remaining v : Number) (gen : StdGen) :
    Draws remaining v gen (qcRandNatLoop remaining v gen) := by
  fun_induction qcRandNatLoop remaining v gen with
  | case1 remaining v gen done => exact .done done
  | case2 remaining v gen more error => exact .fails more error
  | case3 remaining v gen more next rest step v2 ih => exact .more more rest ih

/-- What is drawn, put together over the integers, never leaves the 64 bits. -/
inductive DrawsFit : Int → Int → StdGen → Prop
  | done {v gen} : DrawsFit 0 v gen
  | more {remaining v gen} : remaining ≠ 0 → Fits (v * 2147483562 + ((qcStdNext gen).1 - 1)) →
      DrawsFit (max 0 (remaining.tdiv 2147483562 - 1)) (v * 2147483562 + ((qcStdNext gen).1 - 1)) (qcStdNext gen).2 →
      DrawsFit remaining v gen

/-- The number of values in the range, a thousand times, and what is drawn for it have 64
bits. -/
structure RangeFits (gen : StdGen) (lo hi : Int) : Prop where
  scaled : Fits ((max lo hi - min lo hi + 1) * 1000)
  drawn : DrawsFit ((max lo hi - min lo hi + 1) * 1000) 0 gen

/-- As long as nothing overflows the loop computes over the integers. -/
theorem qcRandNatLoop_is {remaining v : Int} {gen : StdGen} (fits : DrawsFit remaining v gen) (seeded : Seeded gen)
    (nonneg : 0 ≤ v) {r w : Number} (left : r.Is remaining) (drawn : w.Is v) :
    ∃ u, qcRandNatLoop r w gen = some (u,(exactRandNatLoop remaining v gen).2) ∧
      u.Is (exactRandNatLoop remaining v gen).1 := by
  induction fits generalizing r w with
  | done =>
    rw [qcRandNatLoop,dif_pos (by rw [left.equal Number.zero_is]; rfl),exactRandNatLoop,dif_pos rfl]
    exact ⟨w,rfl,drawn⟩
  | @more remaining v gen more fits _ ih =>
    have goes : ¬ r.equal 0 = true := by rwa [left.equal Number.zero_is,decide_eq_true_eq]
    obtain ⟨next,rest,following⟩ := nextRemaining_is left
    obtain ⟨seeded',steps⟩ := qcStdNext_steps seeded
    have output := steps.output
    have base : (2147483562 : Number).Is 2147483562 := ⟨2147483562,rfl,rfl⟩
    have scaled : Fits (v * 2147483562) := by
      unfold Fits at fits ⊢
      omega
    have digit : (Number.fixnum ((qcStdNext gen).1 - 1)).Is ((qcStdNext gen).1 - 1) := by
      apply Number.fixnum_is
      unfold Fits
      omega
    have combined := (drawn.mul base scaled).add digit fits
    rw [qcRandNatLoop,dif_neg goes,exactRandNatLoop,dif_neg more]
    split
    · rename_i error
      cases rest.symm.trans error
    · rename_i other same
      obtain rfl := Option.some.inj (rest.symm.trans same)
      exact ih seeded' (by omega) following combined

theorem qcRandNat_is {gen : StdGen} (seeded : Seeded gen) {x y : Number} {lo hi : Int} (left : x.Is lo) (right : y.Is hi)
    (fits : RangeFits gen lo hi) :
    ∃ z, qcRandNat gen x y = some (z,(exactRandNat gen lo hi).2) ∧ z.Is (exactRandNat gen lo hi).1 := by
  have scaled := fits.scaled
  have between := exactRandNat_range gen lo hi
  have lower := left.min right
  have upper := left.max right
  have difference : Fits (max lo hi - min lo hi) := by
    unfold Fits at scaled ⊢
    omega
  have count : Fits (max lo hi - min lo hi + 1) := by
    unfold Fits at scaled ⊢
    omega
  have size := (upper.sub lower difference).addOne count
  have thousand : (1000 : Number).Is 1000 := ⟨1000,rfl,rfl⟩
  obtain ⟨u,drawn,is⟩ := qcRandNatLoop_is fits.drawn seeded (Int.le_refl 0) (size.mul thousand scaled)
    Number.zero_is
  refine ⟨_,by rw [qcRandNat,drawn]; rfl,?_⟩
  apply lower.add (is.modulo size (by omega))
  -- the sum lies between the two bounds
  have first := left.fits
  have second := right.fits
  unfold exactRandNat at between
  unfold Fits at first second ⊢
  dsimp only at between
  omega

/-- Two draws at most, which put together stay below the square of their number of values. -/
theorem drawsFit_of_small {gen : StdGen} (seeded : Seeded gen) {remaining : Int} (nonneg : 0 ≤ remaining)
    (small : remaining < (2 * 2147483562 + 1) * 2147483562) : DrawsFit remaining 0 gen := by
  obtain ⟨seeded',first⟩ := qcStdNext_steps seeded
  obtain ⟨_,second⟩ := qcStdNext_steps seeded'
  have one := first.output
  have two := second.output
  have divided (r : Int) (here : 0 ≤ r) : r.tdiv 2147483562 = r / 2147483562 := Int.tdiv_eq_ediv_of_nonneg here
  by_cases none : remaining = 0
  · rw [none]
    exact .done
  apply DrawsFit.more none
  · unfold Fits
    omega
  · rw [divided remaining nonneg]
    by_cases none' : max 0 (remaining / 2147483562 - 1) = 0
    · rw [none']
      exact .done
    apply DrawsFit.more none'
    · unfold Fits
      omega
    · rw [divided _ (le_max_left 0 _)]
      have last : max 0 (max 0 (remaining / 2147483562 - 1) / 2147483562 - 1) = 0 := by omega
      rw [last]
      exact .done

theorem rangeFits_of_small {gen : StdGen} (seeded : Seeded gen) {lo hi : Int}
    (small : (max lo hi - min lo hi + 1) * 1000 < (2 * 2147483562 + 1) * 2147483562) : RangeFits gen lo hi := by
  refine ⟨?_,drawsFit_of_small seeded (by omega) small⟩
  unfold Fits
  omega

/-- The draws of the trials are those over the integers. -/
theorem qcRandNat_trial {gen : StdGen} (seeded : Seeded gen) {hi : Int} (nonneg : 0 ≤ hi) (below : hi < 100) :
    ∃ z, qcRandNat gen 0 (.fixnum hi) = some (z,(exactRandNat gen 0 hi).2) ∧ z.Is (exactRandNat gen 0 hi).1 := by
  have right : (Number.fixnum hi).Is hi := by
    apply Number.fixnum_is
    unfold Fits
    omega
  exact qcRandNat_is seeded Number.zero_is right (rangeFits_of_small seeded (by omega))

/-- What is drawn is an integer between the bounds, in either order. -/
def DrawnBetween (gen : StdGen) (lo hi : Int64) : Prop :=
  ∃ z next r, qcRandNat gen (.integer lo) (.integer hi) = some (z,next) ∧ z.Is r ∧
    min lo.toInt hi.toInt ≤ r ∧ r ≤ max lo.toInt hi.toInt

/-- From every seed, after any number of steps: the seeds are in their ranges, the next ones
are the products modulo the two moduli and the output is in its range. The loop ends whatever is
left to draw, and what is drawn lies between the bounds when nothing overflows. -/
theorem stdGen_exact (seed : Int) (n : Nat) (lo hi : Int64) :
    Seeded (qcStates seed n) ∧
      Steps (qcStates seed n) (qcStdNext (qcStates seed n)).1 (qcStates seed (n + 1)) ∧
      (∀ remaining v gen, Draws remaining v gen (qcRandNatLoop remaining v gen)) ∧
      (RangeFits (qcStates seed n) lo.toInt hi.toInt → DrawnBetween (qcStates seed n) lo hi) := by
  have seeded := qcStates_seeded seed n
  have next : qcStates seed (n + 1) = (qcStdNext (qcStates seed n)).2 := Function.iterate_succ_apply' _ _ _
  rw [next]
  refine ⟨seeded,(qcStdNext_steps seeded).2,qcRandNatLoop_draws,fun fits => ?_⟩
  obtain ⟨z,drawn,is⟩ := qcRandNat_is seeded (Number.integer_is lo) (Number.integer_is hi) fits
  exact ⟨z,_,_,drawn,is,exactRandNat_range _ _ _⟩

/-- A range that takes two draws. -/
theorem stdGen_exact_wide : DrawnBetween (qcStates (-7) 3) 5000000000 (-5000000000) := by
  apply (stdGen_exact (-7) 3 5000000000 (-5000000000)).2.2.2
  exact rangeFits_of_small (qcStates_seeded (-7) 3) (by decide)

/-- The number of values in the range wraps around, and what is drawn is far below them. -/
theorem whole_range_draws_below :
    qcRandNat (qcMkStdGen 0) 0 9223372036854775807 = some (.integer (-9223372034707292925),(40014,40692)) ∧
      ¬ DrawnBetween (qcMkStdGen 0) 0 9223372036854775807 := by
  have reached : qcRandNat (qcMkStdGen 0) 0 9223372036854775807 =
      some (.integer (-9223372034707292925),(40014,40692)) := by decide +kernel
  refine ⟨reached,?_⟩
  rintro ⟨z,next,r,drawn,is,least,_⟩
  obtain rfl := congrArg Prod.fst (Option.some.inj (reached.symm.trans drawn))
  obtain rfl := is.unique (Number.integer_is _)
  exact absurd least (by decide)

end WarpLoop.Taskweft
