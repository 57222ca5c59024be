import Mathlib.Algebra.Order.Ring.Int

/-! The numbers of the staged interpreter (flow-toolchain/thirdparty/s7/s7.c, built with
WITH_GMP 0): integers of 64 bits and doubles. A sum, difference or product of integers that
leaves the 64 bits is computed again in doubles and is a real from then on. Ratios and complex
numbers do not come up without `/` and are left out. -/
namespace WarpLoop.Scheme

inductive Number
  | integer (v : Int64)
  | real (x : Float)
deriving DecidableEq

/-- The integers that an integer of the interpreter can be. -/
def Fits (n : Int) : Prop := -2^63 ≤ n ∧ n < 2^63

instance (n : Int) : Decidable (Fits n) := inferInstanceAs (Decidable (_ ∧ _))

namespace Number

/-- The number that a literal is read as, if it fits. -/
def fixnum (n : Int) : Number := .integer (Int64.ofInt n)

instance (n : Nat) : OfNat Number n := ⟨fixnum n⟩

/-- The number is an integer of the interpreter with this value. -/
def Is (x : Number) (n : Int) : Prop := ∃ v : Int64, x = .integer v ∧ v.toInt = n

def double (v : Int64) : Float := .ofModel (.ofInt64 v)

def toDouble : Number → Float
  | .integer v => double v
  | .real x => x

/-- The overflow checks: the exact result if it fits, and otherwise the one in doubles. -/
def checked (exact : Int) (rounded : Float) : Number := if Fits exact then fixnum exact else .real rounded

def add : Number → Number → Number
  | .integer a,.integer b => checked (a.toInt + b.toInt) (double a + double b)
  | x,y => .real (x.toDouble + y.toDouble)

def sub : Number → Number → Number
  | .integer a,.integer b => checked (a.toInt - b.toInt) (double a - double b)
  | x,y => .real (x.toDouble - y.toDouble)

def mul : Number → Number → Number
  | .integer a,.integer b => checked (a.toInt * b.toInt) (double a * double b)
  | x,y => .real (x.toDouble * y.toDouble)

/-- `(+ x 1)`, which the interpreter computes without an overflow check. -/
def addOne : Number → Number
  | .integer v => .integer (v + 1)
  | .real x => .real (x + 1)

def less : Number → Number → Bool
  | .integer a,.integer b => a < b
  | x,y => x.toDouble < y.toDouble

def equal : Number → Number → Bool
  | .integer a,.integer b => a = b
  | x,y => x.toDouble == y.toDouble

def isNaN : Number → Bool
  | .integer _ => false
  | .real x => x.isNaN

/-- `(min x y)`, the second argument only if it is less. -/
def min (x y : Number) : Number :=
  if x.isNaN then x else if y.isNaN then y else if y.less x then y else x

def max (x y : Number) : Number :=
  if x.isNaN then x else if y.isNaN then y else if x.less y then y else x

/-- `s7_truncate`. The cast of 2^63 itself, which passes the check, is clamped here. -/
def truncate (x : Float) : Option Number :=
  if double Int64.maxValue < x ∨ x < double Int64.minValue then none else some (.integer x.toModel.toInt64)

/-- `(quotient x y)` for an integer `y`; no value when the interpreter raises an error. -/
def quotient (x : Number) (y : Int64) : Option Number :=
  if y = 0 then none
  else
    match x with
    | .integer v => if y = -1 ∧ v = Int64.minValue then none else some (.integer (v / y))
    | .real x => if x.isInf || x.isNaN then none else truncate (x / double y)

/-- The cast of the `floor` of a double to an integer, clamped where C leaves it open. -/
def floor (x : Float) : Int64 :=
  let t := x.toModel.toInt64
  if x < double t then t - 1 else t

/-- `a - b * (s7_int)floor(a / b)`. -/
def moduloReal (a b : Float) : Float := a - b * double (floor (a / b))

def modulo : Number → Number → Number
  | .integer a,.integer b =>
    if b = 0 then .integer a
    else if b = 1 ∨ b = -1 then 0
    else
      let z := a % b
      if b < 0 ∧ 0 < z ∨ 0 < b ∧ z < 0 then .integer (z + b) else .integer z
  | .real a,.integer b =>
    if a.isNaN then .real a
    else if a.isInf then .real (0 / 0)
    else if b = 0 then .real a
    else .real (moduloReal a (double b))
  | x,.real b =>
    if x.isNaN then x
    else if x.toDouble.isInf then .real (0 / 0)
    else if b == 0 then x
    else if b.isNaN then .real b
    else if b.isInf then .real (0 / 0)
    else .real (moduloReal x.toDouble b)

end Number

/-- An integer that `n` can be added to. -/
def Number.Adds (x : Number) (n : Int) : Prop :=
  match x with
  | .integer v => Fits (v.toInt + n)
  | .real _ => False

instance (x : Number) (n : Int) : Decidable (x.Adds n) :=
  match x with
  | .integer v => inferInstanceAs (Decidable (Fits (v.toInt + n)))
  | .real _ => inferInstanceAs (Decidable False)

/-! As long as everything fits, the interpreter computes with integers. -/

open Number

theorem toInt_fits (v : Int64) : Fits v.toInt := ⟨v.le_toInt,v.toInt_lt⟩

theorem toInt_ofInt {n : Int} (fits : Fits n) : (Int64.ofInt n).toInt = n := Int64.toInt_ofInt_of_le fits.1 fits.2

namespace Number

theorem fixnum_is {n : Int} (fits : Fits n) : (fixnum n).Is n := ⟨_,rfl,toInt_ofInt fits⟩

theorem integer_is (v : Int64) : (integer v).Is v.toInt := ⟨v,rfl,rfl⟩

theorem zero_is : (0 : Number).Is 0 := ⟨0,rfl,rfl⟩

theorem one_is : (1 : Number).Is 1 := ⟨1,rfl,rfl⟩

theorem Is.fits {x : Number} {n : Int} (same : x.Is n) : Fits n := by
  obtain ⟨v,_,rfl⟩ := same
  exact toInt_fits v

theorem Is.adds {x : Number} {n d : Int} (same : x.Is n) (adds : x.Adds d) : Fits (n + d) := by
  obtain ⟨v,rfl,rfl⟩ := same
  exact adds

theorem not_real_is (x : Float) (n : Int) : ¬ (Number.real x).Is n := by
  rintro ⟨_,same,_⟩
  cases same

theorem Is.unique {x : Number} {n m : Int} (first : x.Is n) (second : x.Is m) : n = m := by
  obtain ⟨v,rfl,rfl⟩ := first
  obtain ⟨w,same,rfl⟩ := second
  cases same
  rfl

theorem checked_is {n : Int} (fits : Fits n) (rounded : Float) : (checked n rounded).Is n := by
  rw [checked,if_pos fits]
  exact fixnum_is fits

theorem checked_real {n : Int} (overflow : ¬ Fits n) (rounded : Float) : checked n rounded = .real rounded := if_neg overflow

section Exact
variable {x y : Number} {n m : Int}

theorem Is.add (left : x.Is n) (right : y.Is m) (fits : Fits (n + m)) : (x.add y).Is (n + m) := by
  obtain ⟨a,rfl,rfl⟩ := left
  obtain ⟨b,rfl,rfl⟩ := right
  exact checked_is fits _

theorem Is.sub (left : x.Is n) (right : y.Is m) (fits : Fits (n - m)) : (x.sub y).Is (n - m) := by
  obtain ⟨a,rfl,rfl⟩ := left
  obtain ⟨b,rfl,rfl⟩ := right
  exact checked_is fits _

theorem Is.mul (left : x.Is n) (right : y.Is m) (fits : Fits (n * m)) : (x.mul y).Is (n * m) := by
  obtain ⟨a,rfl,rfl⟩ := left
  obtain ⟨b,rfl,rfl⟩ := right
  exact checked_is fits _

theorem Is.addOne (here : x.Is n) (fits : Fits (n + 1)) : x.addOne.Is (n + 1) := by
  obtain ⟨v,rfl,rfl⟩ := here
  refine ⟨v + 1,rfl,?_⟩
  have one : (1 : Int64).toInt = 1 := rfl
  rw [Int64.toInt_add,one]
  exact Int.bmod_eq_of_le (by have := fits.1; omega) (by have := fits.2; omega)

theorem Is.less (left : x.Is n) (right : y.Is m) : x.less y = decide (n < m) := by
  obtain ⟨a,rfl,rfl⟩ := left
  obtain ⟨b,rfl,rfl⟩ := right
  exact decide_eq_decide.mpr Int64.lt_iff_toInt_lt

theorem Is.equal (left : x.Is n) (right : y.Is m) : x.equal y = decide (n = m) := by
  obtain ⟨a,rfl,rfl⟩ := left
  obtain ⟨b,rfl,rfl⟩ := right
  exact decide_eq_decide.mpr Int64.toInt_inj.symm

theorem Is.isNaN (here : x.Is n) : x.isNaN = false := by
  obtain ⟨v,rfl,_⟩ := here
  rfl

theorem Is.min (left : x.Is n) (right : y.Is m) : (x.min y).Is (Min.min n m) := by
  rw [Number.min,left.isNaN,right.isNaN,right.less left]
  by_cases below : m < n
  · simpa [below,Int.min_eq_right (Int.le_of_lt below)] using right
  · simpa [below,Int.min_eq_left (Int.not_lt.mp below)] using left

theorem Is.max (left : x.Is n) (right : y.Is m) : (x.max y).Is (Max.max n m) := by
  rw [Number.max,left.isNaN,right.isNaN,left.less right]
  by_cases below : n < m
  · simpa [below,Int.max_eq_right (Int.le_of_lt below)] using right
  · simpa [below,Int.max_eq_left (Int.not_lt.mp below)] using left

theorem Is.quotient (here : x.Is n) {d : Int64} (nonzero : d ≠ 0) (other : d ≠ -1) :
    ∃ q, x.quotient d = some q ∧ q.Is (n.tdiv d.toInt) := by
  obtain ⟨v,rfl,rfl⟩ := here
  refine ⟨.integer (v / d),by simp [Number.quotient,nonzero,other],v / d,rfl,?_⟩
  exact Int64.toInt_div_of_ne_right v d other

/-- For a positive divisor the remainder has its sign, and no step leaves the range. -/
theorem Is.modulo (left : x.Is n) (right : y.Is m) (positive : 0 < m) : (x.modulo y).Is (n.fmod m) := by
  obtain ⟨a,rfl,rfl⟩ := left
  obtain ⟨b,rfl,rfl⟩ := right
  rw [Int.fmod_eq_emod_of_nonneg _ (Int.le_of_lt positive)]
  have nonzero : b ≠ 0 := by
    rintro rfl
    exact absurd positive (by decide)
  by_cases unit : b = 1 ∨ b = -1
  · obtain rfl : b = 1 := unit.resolve_right (by rintro rfl; exact absurd positive (by decide))
    rw [Number.modulo,if_neg nonzero,if_pos unit]
    exact ⟨0,rfl,(Int.emod_one _).symm⟩
  · have zero : (0 : Int64).toInt = 0 := rfl
    have above : 0 < b := Int64.lt_iff_toInt_lt.mpr positive
    have notBelow : ¬ b < 0 := by
      rw [Int64.lt_iff_toInt_lt,zero]
      omega
    have remainder : (a % b).toInt = a.toInt.tmod b.toInt := Int64.toInt_mod a b
    have bounds := b.toInt_lt
    rw [Number.modulo,if_neg nonzero,if_neg unit]
    simp only [notBelow,false_and,above,true_and,false_or,Int64.lt_iff_toInt_lt,zero,remainder]
    have lower := Int.emod_nonneg a.toInt (Int.ne_of_gt positive)
    have upper := Int.emod_lt_of_pos a.toInt positive
    have shifted : a.toInt.tmod b.toInt = a.toInt % b.toInt ∨ a.toInt.tmod b.toInt = a.toInt % b.toInt - b.toInt := by
      rw [Int.tmod_eq_emod]
      split
      · exact Or.inl (Int.sub_zero _)
      · exact Or.inr (by omega)
    split
    · refine ⟨_,rfl,?_⟩
      rw [Int64.toInt_add,remainder]
      rcases shifted with same | less
      · omega
      · rw [less,Int.sub_add_cancel]
        exact Int.bmod_eq_of_le (by omega) (by omega)
    · refine ⟨_,rfl,?_⟩
      rw [remainder]
      omega

end Exact

/-- What becomes of a natural number: the integer if it fits, and otherwise some real. -/
def Stands (x : Number) (n : Nat) : Prop := if n < 2^63 then x.Is n else ∃ r, x = .real r

theorem natCast_fits {n : Nat} : Fits n ↔ n < 2^63 := by
  unfold Fits
  omega

section Natural
variable {x y : Number} {n m : Nat}

theorem Stands.is_iff (stands : x.Stands n) : x.Is n ↔ n < 2^63 := by
  refine ⟨fun same => natCast_fits.mp same.fits,fun small => ?_⟩
  rwa [Stands,if_pos small] at stands

theorem Stands.cases (stands : x.Stands n) : x.Is n ∨ 2^63 ≤ n ∧ ∃ r, x = .real r := by
  unfold Stands at stands
  split at stands
  · exact Or.inl stands
  · exact Or.inr ⟨by omega,stands⟩

theorem Is.stands (same : x.Is n) : x.Stands n := by rwa [Stands,if_pos (natCast_fits.mp same.fits)]

theorem stands_real (large : 2^63 ≤ n) (r : Float) : (Number.real r).Stands n := by
  rw [Stands,if_neg (by omega)]
  exact ⟨r,rfl⟩

theorem checked_stands (n : Nat) (rounded : Float) : (checked n rounded).Stands n := by
  by_cases small : n < 2^63
  · exact (checked_is (natCast_fits.mpr small) rounded).stands
  · rw [checked_real (by rwa [natCast_fits])]
    exact stands_real (by omega) rounded

theorem Stands.add (left : x.Stands n) (right : y.Stands m) : (x.add y).Stands (n + m) := by
  rcases left.cases with ⟨a,rfl,here⟩ | ⟨large,r,rfl⟩
  · rcases right.cases with ⟨b,rfl,there⟩ | ⟨large,r,rfl⟩
    · rw [Number.add,here,there]
      exact checked_stands (n + m) _
    · exact stands_real (by omega) _
  · exact stands_real (by omega) _

theorem Stands.mul (left : x.Stands n) (right : y.Is m) (positive : 0 < m) : (x.mul y).Stands (n * m) := by
  obtain ⟨b,rfl,there⟩ := right
  rcases left.cases with ⟨a,rfl,here⟩ | ⟨large,r,rfl⟩
  · rw [Number.mul,here,there]
    exact checked_stands (n * m) _
  · exact stands_real (large.trans (Nat.le_mul_of_pos_right n positive)) _

end Natural

end Number

end WarpLoop.Scheme
