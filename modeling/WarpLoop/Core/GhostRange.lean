import WarpLoop.Core.Zone
import Mathlib.Algebra.Group.Nat.Defs
import Mathlib.Algebra.Group.Int.Defs
import Mathlib.Data.Int.Order.Basic

/-! The ghost range against exact integers. Distances are exact, but the expansions
of two entities are multiplied and added in 64 bits; where the exact sum is larger, its
remainder may fall short of a distance that the sum covers. -/
namespace WarpLoop.Core

/-- An entity as `withinGhostRange` sees it. -/
structure Mover where
  pos : Pos3
  vx : UInt64
  vy : UInt64
  vz : UInt64
  k : UInt64
deriving DecidableEq, Repr

namespace Mover

def sees (pub target : Mover) : Bool :=
  withinGhostRange pub.pos pub.vx pub.vy pub.vz pub.k target.pos target.vx target.vy target.vz target.k

/-- For each axis the exact distance and the exact sum of the two expansions. -/
def axes (pub target : Mover) : List (Nat × Nat) :=
  [((pub.pos.x.toInt - target.pos.x.toInt).natAbs,pub.vx.toNat * pub.k.toNat + target.vx.toNat * target.k.toNat),
    ((pub.pos.y.toInt - target.pos.y.toInt).natAbs,pub.vy.toNat * pub.k.toNat + target.vy.toNat * target.k.toNat),
    ((pub.pos.z.toInt - target.pos.z.toInt).natAbs,pub.vz.toNat * pub.k.toNat + target.vz.toNat * target.k.toNat)]

def InRange (pub target : Mover) : Prop := ∀ axis ∈ axes pub target, axis.1 ≤ axis.2

/-- On some axis the exact sum of the expansions does not fit 64 bits, and what the
wrap-around leaves of it does not reach the distance. -/
def WrapsShort (pub target : Mover) : Prop := ∃ axis ∈ axes pub target, 2^64 ≤ axis.2 ∧ axis.2 % 2^64 < axis.1

instance (pub target : Mover) : Decidable (InRange pub target) := List.decidableBAll _ _

instance (pub target : Mover) : Decidable (WrapsShort pub target) := List.decidableBEx _ _

end Mover

/-- The 64-bit word of a signed number is its residue. -/
theorem toNat_toUInt64 (v : Int64) : (v.toUInt64.toNat : Int) = v.toInt % 18446744073709551616 := by
  have bound : (v.toUInt64.toNat : Int) < 18446744073709551616 := Int.ofNat_lt.mpr v.toUInt64.toNat_lt
  have signed : v.toInt = (v.toUInt64.toNat : Int).bmod 18446744073709551616 := BitVec.toInt_eq_toNat_bmod v.toBitVec
  have residue : (v.toUInt64.toNat : Int).bmod 18446744073709551616 % 18446744073709551616 =
      (v.toUInt64.toNat : Int) % 18446744073709551616 := Int.bmod_emod
  rw [signed,residue,Int.emod_eq_of_lt (Int.natCast_nonneg _) bound]

theorem axisDist_toNat (a b : Int64) : (axisDist a b).toNat = (a.toInt - b.toInt).natAbs := by
  have difference (u v : Int64) (le : v ≤ u) : ((u - v).toUInt64.toNat : Int) = u.toInt - v.toInt := by
    have order : v.toInt ≤ u.toInt := Int64.le_iff_toInt_le.mp le
    have upper : u.toInt < 9223372036854775808 := u.toInt_lt
    have lower : -9223372036854775808 ≤ v.toInt := v.le_toInt
    have residue : (u.toInt - v.toInt).bmod 18446744073709551616 % 18446744073709551616 =
        (u.toInt - v.toInt) % 18446744073709551616 := Int.bmod_emod
    have wrapped : (u - v).toInt = (u.toInt - v.toInt).bmod 18446744073709551616 := Int64.toInt_sub u v
    rw [toNat_toUInt64,wrapped,residue]
    exact Int.emod_eq_of_lt (by omega) (by omega)
  unfold axisDist
  split
  · rename_i le
    have exact_ := difference a b le
    omega
  · rename_i less
    have exact_ := difference b a (Int64.le_of_lt (Int64.not_le.mp less))
    omega

/-- The distance is that of the integers, although the subtraction may wrap, and so it is a
metric. -/
theorem axisDist_exact :
    (∀ a b, (axisDist a b).toNat = (a.toInt - b.toInt).natAbs) ∧ (∀ a b, axisDist a b = axisDist b a) ∧
      (∀ a b, axisDist a b = 0 ↔ a = b) ∧
      ∀ a b c, (axisDist a c).toNat ≤ (axisDist a b).toNat + (axisDist b c).toNat := by
  refine ⟨axisDist_toNat,?_,?_,?_⟩
  · intro a b
    apply UInt64.toNat.inj
    rw [axisDist_toNat,axisDist_toNat]
    omega
  · intro a b
    rw [← UInt64.toNat_inj,axisDist_toNat,← Int64.toInt_inj]
    simp only [UInt64.toNat_zero]
    omega
  · intro a b c
    rw [axisDist_toNat,axisDist_toNat,axisDist_toNat]
    omega

theorem ghostExpansion_toNat (v k : UInt64) : (ghostExpansion v 0 k).toNat = v.toNat * k.toNat % 2^64 := by
  simp [ghostExpansion]

namespace Mover

theorem sees_iff_wrapped (pub target : Mover) :
    pub.sees target = true ↔ ∀ axis ∈ axes pub target, axis.1 ≤ axis.2 % 2^64 := by
  have axis (a b : Int64) (v k w l : UInt64) :
      axisDist a b ≤ ghostExpansion v 0 k + ghostExpansion w 0 l ↔
        (a.toInt - b.toInt).natAbs ≤ (v.toNat * k.toNat + w.toNat * l.toNat) % 2^64 := by
    rw [UInt64.le_iff_toNat_le,axisDist_toNat,UInt64.toNat_add,ghostExpansion_toNat,ghostExpansion_toNat,
      ← Nat.add_mod]
  simp only [sees,withinGhostRange,Bool.and_eq_true,decide_eq_true_eq,axis]
  simp [axes,and_assoc]

theorem sees_iff (pub target : Mover) : pub.sees target = true ↔ InRange pub target ∧ ¬ WrapsShort pub target := by
  rw [sees_iff_wrapped]
  constructor
  · intro covered
    refine ⟨fun axis member => Nat.le_trans (covered axis member) (Nat.mod_le _ _),?_⟩
    rintro ⟨axis,member,_,short⟩
    exact absurd (covered axis member) (Nat.not_le.mpr short)
  · rintro ⟨range,whole⟩ axis member
    by_cases fits : axis.2 < 2^64
    · rw [Nat.mod_eq_of_lt fits]
      exact range axis member
    · exact Nat.not_lt.mp fun short => whole ⟨axis,member,Nat.not_lt.mp fits,short⟩

/-- The same entity with a velocity or its lookahead raised, or several of them. -/
structure Raised (lower upper : Mover) : Prop where
  pos : lower.pos = upper.pos
  vx : lower.vx ≤ upper.vx
  vy : lower.vy ≤ upper.vy
  vz : lower.vz ≤ upper.vz
  k : lower.k ≤ upper.k

theorem InRange.raised {pub target pub' target' : Mover} (range : InRange pub target) (faster : Raised pub pub')
    (faster' : Raised target target') : InRange pub' target' := by
  have grows {v v' k k' w w' l l' : UInt64} (hv : v ≤ v') (hk : k ≤ k') (hw : w ≤ w') (hl : l ≤ l') :
      v.toNat * k.toNat + w.toNat * l.toNat ≤ v'.toNat * k'.toNat + w'.toNat * l'.toNat :=
    Nat.add_le_add (Nat.mul_le_mul (UInt64.le_iff_toNat_le.mp hv) (UInt64.le_iff_toNat_le.mp hk))
      (Nat.mul_le_mul (UInt64.le_iff_toNat_le.mp hw) (UInt64.le_iff_toNat_le.mp hl))
  simp only [InRange,axes,List.forall_mem_cons,← faster.pos,← faster'.pos] at range ⊢
  obtain ⟨x,y,z,last⟩ := range
  refine ⟨Nat.le_trans x ?_,Nat.le_trans y ?_,Nat.le_trans z ?_,last⟩
  · exact grows faster.vx faster.k faster'.vx faster'.k
  · exact grows faster.vy faster.k faster'.vy faster'.k
  · exact grows faster.vz faster.k faster'.vz faster'.k

/-- The check is exact unless it is in range and falls short of it by a wrap-around;
and exactly then does raising a velocity or a lookahead lose a target. -/
theorem ghost_range_exact_iff (pub target : Mover) :
    ((pub.sees target = true ↔ InRange pub target) ↔ ¬ (InRange pub target ∧ WrapsShort pub target)) ∧
      ∀ pub' target', Raised pub pub' → Raised target target' → pub.sees target = true →
        (pub'.sees target' = true ↔ ¬ (InRange pub' target' ∧ WrapsShort pub' target')) := by
  refine ⟨?_,?_⟩
  · rw [sees_iff]
    constructor
    · rintro same ⟨range,short⟩
      exact (same.mpr range).2 short
    · intro met
      exact ⟨And.left,fun range => ⟨range,fun short => met ⟨range,short⟩⟩⟩
  · intro pub' target' faster faster' seen
    have range := ((sees_iff pub target).mp seen).1.raised faster faster'
    rw [sees_iff]
    simp [range]

/-- A publisher at distance 1 with the lookahead 2 loses the target when its velocity
is raised from 1 to `2^63`. -/
theorem fast_mover_unseen :
    let target : Mover := ⟨⟨0,0,0⟩,0,0,0,0⟩
    let slow : Mover := ⟨⟨1,0,0⟩,1,0,0,2⟩
    let fast : Mover := ⟨⟨1,0,0⟩,0x8000000000000000,0,0,2⟩
    Raised slow fast ∧ slow.sees target = true ∧ fast.sees target = false ∧ InRange fast target := by
  refine ⟨⟨rfl,?_,?_,?_,?_⟩,?_,?_,?_⟩ <;> decide

end Mover

end WarpLoop.Core
