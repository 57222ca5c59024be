import Mathlib

/-! Floating-point numbers in the logical model of the language: which bit patterns a number
keeps when it is read and written again, the order of the numbers that are not NaN, and
the search for the first greatest of some numbers. -/
namespace WarpLoop.Lib.Floats
open Float.Model UnpackedFloat

/-! Bit patterns. -/

/-- The patterns of binary32 that stand for a NaN. -/
abbrev IsNaNWord (word : UInt32) : Prop := 0x7f800000 < word &&& 0x7fffffff

theorem isNaNWord_iff (word : UInt32) : IsNaNWord word ↔ @isNaNBits Format.binary32 word.toBitVec = true := by
  have exponent : (@unpackExponent Format.binary32 word.toBitVec).toNat = word.toNat / 2 ^ 23 % 2 ^ 8 := by
    simp [unpackExponent,BitVec.extractLsb_toNat,Nat.shiftRight_eq_div_pow]
  have mantissa : (@unpackMantissa Format.binary32 word.toBitVec).toNat = word.toNat % 2 ^ 23 := by
    simp [unpackMantissa,BitVec.extractLsb_toNat]
  have magnitude : (word &&& 0x7fffffff).toNat = word.toNat % 2 ^ 31 := by
    rw [UInt32.toNat_and]
    exact Nat.and_two_pow_sub_one_eq_mod _ 31
  rw [isNaNBits,decide_eq_true_iff,IsNaNWord,UInt32.lt_iff_toNat_lt,magnitude,Ne,← BitVec.toNat_inj,← BitVec.toNat_inj,exponent,
    mantissa]
  have size := word.toNat_lt
  change 0x7f800000 < _ ↔ _ = 255 ∧ ¬ _ = 0
  omega

/-- Reading a word as a number and writing it again changes the patterns of a NaN alone. -/
theorem toBits_ofBits (word : UInt32) : (Float32.ofBits word).toBits = if IsNaNWord word then 0x7fc00000 else word := by
  change UInt32.ofBitVec (UnpackedFloat.pack Format.binary32 (UnpackedFloat.unpack Format.binary32 word.toBitVec)) = _
  rw [@pack_unpack Format.binary32 word.toBitVec (by decide)]
  simp only [isNaNWord_iff]
  split <;> rfl

/-- The other way around nothing changes: a number has one pattern. -/
theorem ofBits_toBits (x : Float32) : Float32.ofBits x.toBits = x := by
  obtain ⟨word,valid⟩ := x
  have back := toBits_ofBits word
  have same : (Float32.ofBits word).toBits = word := by
    rw [back]
    split
    case isTrue nan =>
      rw [isNaNWord_iff,isNaNBits,decide_eq_true_iff] at nan
      exact (UInt32.toBitVec_inj.mp (valid.eq_packedNaN nan.1 nan.2)).symm
    case isFalse => rfl
  have equal : (Float32.ofBits word).toModel = ⟨word,valid⟩ := by
    generalize (Float32.ofBits word) = y at same
    obtain ⟨⟨other,_⟩⟩ := y
    subst same
    rfl
  exact congrArg Float32.ofModel equal

/-! The order. -/

section Order

/-- Where a number stands: its class, and within a class of finite numbers its exponent and its mantissa. -/
def place : UnpackedFloat → Int ×ₗ Int ×ₗ Int
  | .notANumber => toLex (0,toLex (0,0))
  | .infinity .negative => toLex (-2,toLex (0,0))
  | .infinity .positive => toLex (2,toLex (0,0))
  | .zero _ => toLex (0,toLex (0,0))
  | .finite .negative m e _ => toLex (-1,toLex (-e,-m))
  | .finite .positive m e _ => toLex (1,toLex (e,m))

theorem sign_compare (s t : Sign) : compare s t = .lt ↔ s = .negative ∧ t = .positive := by
  cases s <;> cases t <;> simp [compare]

theorem lt_iff (a b : UnpackedFloat) :
    a.lt b = true ↔ a.isNaN = false ∧ b.isNaN = false ∧ place a < place b := by
  rcases a with (_ | _) | _ | _ | ⟨_ | _,_,_,_⟩ <;> rcases b with (_ | _) | _ | _ | ⟨_ | _,_,_,_⟩ <;>
    simp [UnpackedFloat.lt,UnpackedFloat.compare,UnpackedFloat.isNaN,place,Prod.Lex.toLex_lt_toLex,Ordering.then_eq_gt,Ordering.then_eq_lt,
      compare_lt_iff_lt,compare_gt_iff_gt,sign_compare]

theorem float_lt_iff (x y : Float) : x < y ↔
    x.toModel.unpack.isNaN = false ∧ y.toModel.unpack.isNaN = false ∧ place x.toModel.unpack < place y.toModel.unpack := by
  change (decide (x.toModel < y.toModel)) = true ↔ _
  rw [decide_eq_true_iff]
  exact lt_iff _ _

variable {x y z : Float}

theorem lt_trans (first : x < y) (second : y < z) : x < z := by
  rw [float_lt_iff] at first second ⊢
  exact ⟨first.1,second.2.1,first.2.2.trans second.2.2⟩

/-- A number that is no NaN is on one side of a gap or the other. -/
theorem lt_or_lt (gap : x < z) (number : y.isNaN = false) : x < y ∨ y < z := by
  rw [float_lt_iff,float_lt_iff]
  obtain ⟨left,right,below⟩ := (float_lt_iff x z).mp gap
  have middle : y.toModel.unpack.isNaN = false := number
  rcases lt_or_ge (place x.toModel.unpack) (place y.toModel.unpack) with before | after
  · exact Or.inl ⟨left,middle,before⟩
  · exact Or.inr ⟨middle,right,after.trans_lt below⟩

theorem isNaN_of_lt (below : x < y) : x.isNaN = false ∧ y.isNaN = false :=
  ⟨((float_lt_iff x y).mp below).1,((float_lt_iff x y).mp below).2.1⟩

end Order

/-! A loop that keeps the greatest number so far and where it was first reached. -/

section Greatest
variable {ι : Type*} {f : ι → Float} {places : List ι} {start : Float × ι}

def greatest (f : ι → Float) (places : List ι) (start : Float × ι) : Float × ι :=
  places.foldl (fun best i => if f i > best.1 then (f i,i) else best) start

theorem greatest_cases (f : ι → Float) (places : List ι) (start : Float × ι) :
    greatest f places start = start ∨ ∃ i ∈ places, greatest f places start = (f i,i) := by
  induction places generalizing start with
  | nil => exact Or.inl rfl
  | cons i rest ih =>
    rw [greatest,List.foldl_cons,← greatest]
    split
    case isTrue =>
      rcases ih (f i,i) with same | ⟨j,later,reached⟩
      · exact Or.inr ⟨i,List.mem_cons_self,same⟩
      · exact Or.inr ⟨j,List.mem_cons_of_mem i later,reached⟩
    case isFalse =>
      rcases ih start with same | ⟨j,later,reached⟩
      · exact Or.inl same
      · exact Or.inr ⟨j,List.mem_cons_of_mem i later,reached⟩

/-- What is below the start or one of the numbers is below the greatest, as long as the start is
no NaN: a number that is one is never taken. -/
theorem lt_greatest {bound : Float} (number : start.1.isNaN = false)
    (below : bound < start.1 ∨ ∃ i ∈ places, bound < f i) : bound < (greatest f places start).1 := by
  induction places generalizing start with
  | nil => simpa [greatest] using below
  | cons i rest ih =>
    rw [greatest,List.foldl_cons,← greatest]
    split
    case isTrue above =>
      refine ih (isNaN_of_lt above).2 ?_
      rcases below with first | ⟨j,member,first⟩
      · exact Or.inl (lt_trans first above)
      · rcases List.mem_cons.mp member with rfl | later
        · exact Or.inl first
        · exact Or.inr ⟨j,later,first⟩
    case isFalse stays =>
      refine ih number ?_
      rcases below with first | ⟨j,member,first⟩
      · exact Or.inl first
      · rcases List.mem_cons.mp member with rfl | later
        · exact (lt_or_lt first number).imp id (fun above => absurd above stays)
        · exact Or.inr ⟨j,later,first⟩

end Greatest

end WarpLoop.Lib.Floats
