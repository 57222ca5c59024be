import Mathlib.Algebra.Order.Group.Unbundled.Int
import Mathlib.Data.Int.GCD
import Mathlib.Tactic.Ring

/-! Schrage's way of computing a product modulo `a * q + r` from the quotient and the
remainder by `q`, so that no intermediate value is larger than the modulus. -/
namespace WarpLoop.Lib.Schrage

/-- The product before its correction, in the form in which it is computed. -/
def uncorrected (a q r s : Int) : Int := a * (s - s.tdiv q * q) - s.tdiv q * r

def product (a q r s : Int) : Int :=
  if uncorrected a q r s < 0 then uncorrected a q r s + (a * q + r) else uncorrected a q r s

section Product
variable {a q r s : Int} (positive : 0 < a) (nonneg : 0 ≤ r) (small : r < q) (lower : 0 ≤ s) (upper : s < a * q + r)
include lower

theorem uncorrected_eq : uncorrected a q r s = a * s - s / q * (a * q + r) := by
  rw [uncorrected,Int.tdiv_eq_ediv_of_nonneg lower]
  ring

include positive nonneg small upper

theorem uncorrected_bounds : -(a * q + r) < uncorrected a q r s ∧ uncorrected a q r s < a * q + r := by
  have wide : 0 < q := Int.lt_of_le_of_lt nonneg small
  have quotient : s.tdiv q = s / q := Int.tdiv_eq_ediv_of_nonneg lower
  have remainder : s - s / q * q = s % q := by
    have split := Int.emod_add_mul_ediv s q
    rw [Int.mul_comm q] at split
    omega
  have few : s / q ≤ a := by
    apply Int.le_of_lt_add_one
    apply Int.ediv_lt_of_lt_mul wide
    calc s < a * q + r := upper
      _ < a * q + q := Int.add_lt_add_left small _
      _ = (a + 1) * q := by ring
  have first : a * (s % q) < a * q := Int.mul_lt_mul_of_pos_left (Int.emod_lt_of_pos s wide) positive
  have first_nonneg : 0 ≤ a * (s % q) := Int.mul_nonneg (Int.le_of_lt positive) (Int.emod_nonneg s (Int.ne_of_gt wide))
  have second : s / q * r ≤ a * r := Int.mul_le_mul_of_nonneg_right few nonneg
  have second_nonneg : 0 ≤ s / q * r := Int.mul_nonneg (Int.ediv_nonneg lower (Int.le_of_lt wide)) nonneg
  have third : a * r < a * q := Int.mul_lt_mul_of_pos_left small positive
  rw [uncorrected,quotient,remainder]
  omega

theorem product_eq : product a q r s = a * s % (a * q + r) := by
  obtain ⟨below,above⟩ := uncorrected_bounds positive nonneg small lower upper
  have residue : uncorrected a q r s % (a * q + r) = a * s % (a * q + r) := by
    rw [uncorrected_eq lower,Int.sub_eq_add_neg,← Int.neg_mul]
    exact Int.add_mul_emod_self_right _ _ _
  unfold product
  split
  · rw [← residue,← Int.add_emod_right,Int.emod_eq_of_lt (by omega) (by omega)]
  · rw [← residue,Int.emod_eq_of_lt (by omega) above]

end Product

/-- A multiplier without common divisor with the modulus keeps residues away from zero. -/
theorem mul_emod_pos {a m s : Int} (coprime : Int.gcd m a = 1) (lower : 1 ≤ s) (upper : s < m) : 1 ≤ a * s % m := by
  have nonneg := Int.emod_nonneg (a * s) (show m ≠ 0 by omega)
  have nonzero : a * s % m ≠ 0 := by
    intro zero
    have divides := Int.dvd_of_dvd_mul_right_of_gcd_one (Int.dvd_of_emod_eq_zero zero) coprime
    have large := Int.le_of_dvd (by omega) divides
    omega
  omega

end WarpLoop.Lib.Schrage
