import Mathlib

/-! The bitwise operations of exact integers seen through a word of fixed width, shifts of such
a word combined with the word itself, and how often a residue occurs. -/
namespace WarpLoop.Lib.Words

theorem ofInt_xor (w : Nat) (x y : Int) : BitVec.ofInt w (Int.xor x y) = BitVec.ofInt w x ^^^ BitVec.ofInt w y := by
  cases x with
  | ofNat m =>
    cases y with
    | ofNat n =>
      change BitVec.ofInt w ((m ^^^ n : Nat) : Int) = BitVec.ofInt w (m : Int) ^^^ BitVec.ofInt w (n : Int)
      rw [BitVec.ofInt_natCast,BitVec.ofInt_natCast,BitVec.ofInt_natCast,BitVec.ofNat_xor]
    | negSucc n =>
      change BitVec.ofInt w (Int.negSucc (m ^^^ n)) = BitVec.ofInt w (m : Int) ^^^ BitVec.ofInt w (Int.negSucc n)
      simp only [BitVec.ofInt_natCast,BitVec.ofInt_negSucc_eq_not_ofNat,BitVec.ofNat_xor,BitVec.not_xor_right]
  | negSucc m =>
    cases y with
    | ofNat n =>
      change BitVec.ofInt w (Int.negSucc (m ^^^ n)) = BitVec.ofInt w (Int.negSucc m) ^^^ BitVec.ofInt w (n : Int)
      simp only [BitVec.ofInt_natCast,BitVec.ofInt_negSucc_eq_not_ofNat,BitVec.ofNat_xor,BitVec.not_xor_left]
    | negSucc n =>
      change BitVec.ofInt w ((m ^^^ n : Nat) : Int) = BitVec.ofInt w (Int.negSucc m) ^^^ BitVec.ofInt w (Int.negSucc n)
      simp only [BitVec.ofInt_natCast,BitVec.ofInt_negSucc_eq_not_ofNat,BitVec.ofNat_xor]
      rw [← BitVec.not_xor_left,← BitVec.not_xor_right,BitVec.not_not]

theorem ofInt_shiftLeft (w : Nat) (x : Int) (n : Nat) : BitVec.ofInt w (x <<< (n : Int)) = BitVec.ofInt w x <<< n := by
  rw [Int.shiftLeft_eq_mul_pow,BitVec.ofInt_mul,BitVec.ofInt_natCast,BitVec.shiftLeft_eq_mul_twoPow]
  congr 1
  apply BitVec.eq_of_toNat_eq
  rw [BitVec.toNat_ofNat,BitVec.toNat_twoPow]

theorem land_mask (w : Nat) (x : Int) : Int.land x ((2 ^ w - 1 : Nat) : Int) = (BitVec.ofInt w x).toNat := by
  cases x with
  | ofNat m =>
    change ((m &&& (2 ^ w - 1) : Nat) : Int) = (BitVec.ofInt w (m : Int)).toNat
    rw [BitVec.ofInt_natCast,BitVec.toNat_ofNat,Nat.and_two_pow_sub_one_eq_mod]
  | negSucc m =>
    change ((Nat.ldiff (2 ^ w - 1) m : Nat) : Int) = (BitVec.ofInt w (Int.negSucc m)).toNat
    rw [BitVec.ofInt_negSucc_eq_not_ofNat]
    congr 1
    apply Nat.eq_of_testBit_eq
    intro i
    rw [Nat.testBit_ldiff,Nat.testBit_two_pow_sub_one,← BitVec.getLsbD,BitVec.getLsbD_not,BitVec.getLsbD_ofNat]
    by_cases inside : i < w <;> simp [inside]

theorem shiftLeft_neg_natCast (m n : Nat) : (m : Int) <<< (-(n : Int)) = ((m >>> n : Nat) : Int) := by
  rw [Int.shiftLeft_neg,Int.shiftRight_natCast]

/-! Xor shifts. A shift that is repeated often enough leaves nothing of the word. -/

section XorShift
variable {w : Nat}

theorem shiftLeft_iterate (k n : Nat) (x : BitVec w) : (fun word : BitVec w => word <<< k)^[n] x = x <<< (k * n) := by
  induction n with
  | zero => simp
  | succ n ih => rw [Function.iterate_succ_apply',ih,Nat.mul_succ,BitVec.shiftLeft_add]

theorem ushiftRight_iterate (k n : Nat) (x : BitVec w) : (fun word : BitVec w => word >>> k)^[n] x = x >>> (k * n) := by
  induction n with
  | zero => simp
  | succ n ih => rw [Function.iterate_succ_apply',ih,Nat.mul_succ,BitVec.shiftRight_add]

theorem xor_injective {f : BitVec w → BitVec w} (distrib : ∀ x y, f (x ^^^ y) = f x ^^^ f y) (n : Nat)
    (vanishes : ∀ x, f^[n] x = 0#w) : Function.Injective (fun x => x ^^^ f x) := by
  intro x y same
  have fixed : f (x ^^^ y) = x ^^^ y := by
    have cancel : x ^^^ f x ^^^ (y ^^^ f y) = 0#w := by
      rw [show x ^^^ f x = y ^^^ f y from same,BitVec.xor_self]
    have arranged : x ^^^ y ^^^ (f x ^^^ f y) = 0#w := by
      rw [← cancel]
      ac_rfl
    rw [distrib]
    exact (BitVec.xor_eq_zero_iff.mp arranged).symm
  have zero : x ^^^ y = 0#w := by
    rw [← vanishes (x ^^^ y)]
    exact (Function.iterate_fixed fixed n).symm
  exact BitVec.xor_eq_zero_iff.mp zero

theorem xor_shiftLeft_injective {k : Nat} (positive : 0 < k) : Function.Injective (fun x : BitVec w => x ^^^ x <<< k) := by
  apply xor_injective (fun x y => BitVec.shiftLeft_xor_distrib x y k) w
  intro x
  rw [shiftLeft_iterate]
  exact BitVec.shiftLeft_eq_zero (Nat.le_mul_of_pos_left w positive)

theorem xor_ushiftRight_injective {k : Nat} (positive : 0 < k) : Function.Injective (fun x : BitVec w => x ^^^ x >>> k) := by
  apply xor_injective (fun x y => BitVec.ushiftRight_xor_distrib x y k) w
  intro x
  rw [ushiftRight_iterate]
  exact BitVec.ushiftRight_eq_zero (Nat.le_mul_of_pos_left w positive)

end XorShift

/-- What holds of some residues holds of as many numbers in every period. -/
theorem card_filter_emod (p : Int → Prop) [DecidablePred p] {m : Int} (positive : 0 < m) (q : Nat) :
    ((Finset.Ico 0 (m * q)).filter (fun y => p (y % m))).card = q * ((Finset.Ico 0 m).filter p).card := by
  induction q with
  | zero => simp
  | succ q ih =>
    have last : (Finset.Ico (m * q) (m * q + m)).filter (fun y => p (y % m)) =
        ((Finset.Ico 0 m).filter p).map (addLeftEmbedding (m * q)) := by
      ext y
      simp only [Finset.mem_filter,Finset.mem_Ico,Finset.mem_map,addLeftEmbedding_apply]
      constructor
      · rintro ⟨⟨lower,upper⟩,holds⟩
        refine ⟨y - m * q,⟨⟨by omega,by omega⟩,?_⟩,by omega⟩
        have residue : y % m = y - m * q := by
          rw [← Int.sub_mul_emod_self_left y m q,Int.emod_eq_of_lt (by omega) (by omega)]
        rwa [← residue]
      · rintro ⟨r,⟨⟨lower,upper⟩,holds⟩,rfl⟩
        refine ⟨⟨by omega,by omega⟩,?_⟩
        rwa [Int.add_comm,Int.add_mul_emod_self_left,Int.emod_eq_of_lt lower upper]
    have nonneg : 0 ≤ m * q := Int.mul_nonneg (Int.le_of_lt positive) (Int.natCast_nonneg q)
    have split : m * ((q + 1 : Nat) : Int) = m * q + m := by rw [Int.natCast_add,Int.natCast_one,Int.mul_add,Int.mul_one]
    rw [split,← Finset.Ico_union_Ico_eq_Ico nonneg (by omega),Finset.filter_union,
      Finset.card_union_of_disjoint (Finset.disjoint_filter_filter (Finset.Ico_disjoint_Ico_consecutive _ _ _)),ih,last,
      Finset.card_map,Nat.succ_mul]

end WarpLoop.Lib.Words
