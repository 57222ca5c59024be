import WarpLoop.Core.Partition
import WarpLoop.Core.Ffi
import Mathlib.Tactic.Ring
import Mathlib.Tactic.Linarith
import Mathlib.Order.Interval.Set.Basic

/-! Octree cells as intervals of natural numbers: the cell `k` at height `e` is
`[k * 8^e, (k + 1) * 8^e)`. On such ranges the 64-bit arithmetic of the partition
rules is exact, the eight children are consecutive, and a cell lies in its parent. -/
namespace WarpLoop.Core

def ZoneRange.points (r : ZoneRange) : Set Nat := Set.Ico r.start.toNat r.stop.toNat

/-- `r` is the `k`-th octree cell of height `e` in a curve of `zoneBits` levels. -/
structure ZoneRange.IsCell (r : ZoneRange) (e k : Nat) : Prop where
  start : r.start.toNat = k * 8^e
  stop : r.stop.toNat = k * 8^e + 8^e
  inside : k * 8^e + 8^e ≤ 2^63

theorem ZoneRange.contains_iff (r : ZoneRange) (idx : UInt64) : r.contains idx = true ↔ idx.toNat ∈ r.points := by
  simp [ZoneRange.contains,ZoneRange.points,UInt64.le_iff_toNat_le,UInt64.lt_iff_toNat_lt]

theorem ZoneRange.IsCell.nonempty {r : ZoneRange} {e k : Nat} (cell : r.IsCell e k) : k * 8^e ∈ r.points := by
  have pos : 0 < 8^e := Nat.pow_pos (by omega)
  simp only [points,Set.mem_Ico,cell.start,cell.stop]
  omega

private theorem IsCell.len {r : ZoneRange} {e k : Nat} (cell : r.IsCell e k) :
    (r.stop - r.start).toNat = 8^e := by
  have ordered : r.start ≤ r.stop := by
    rw [UInt64.le_iff_toNat_le,cell.start,cell.stop]
    exact Nat.le_add_right _ _
  rw [UInt64.toNat_sub_of_le _ _ ordered,cell.start,cell.stop]
  exact Nat.add_sub_cancel_left _ _

private theorem height_le {e k : Nat} (inside : k * 8^e + 8^e ≤ 2^63) : e ≤ 21 := by
  by_contra high
  have : 8^22 ≤ 8^e := Nat.pow_le_pow_right (by omega) (by omega)
  omega

private theorem halvings_pow (fuel : Nat) (len : UInt64) (n levels : Nat) (enough : n ≤ fuel)
    (power : len.toNat = 2^n) : halvings fuel len levels = (1,levels + n) := by
  induction fuel generalizing len n levels with
  | zero =>
    obtain rfl : n = 0 := by omega
    have one : len = 1 := UInt64.toNat.inj (by simpa using power)
    simp [halvings,one]
  | succ fuel ih =>
    cases n with
    | zero =>
      have one : len = 1 := UInt64.toNat.inj (by simpa using power)
      simp [halvings,one]
    | succ n =>
      have pos : 0 < 2^n := Nat.two_pow_pos n
      have above : len > 1 := by
        rw [gt_iff_lt,UInt64.lt_iff_toNat_lt,power,Nat.pow_succ]
        simp
        omega
      have even : len % 2 = 0 := by
        apply UInt64.toNat.inj
        simp [power,Nat.pow_succ]
      have half : (len / 2).toNat = 2^n := by
        simp [power,Nat.pow_succ]
      simp only [halvings,above,even,decide_true,beq_self_eq_true,Bool.and_self,if_true]
      rw [ih (len / 2) n (levels + 1) (by omega) half]
      simp only [Prod.mk.injEq,true_and]
      omega

theorem zoneRangeDepth_cell {r : ZoneRange} {e k : Nat} (cell : r.IsCell e k) :
    zoneRangeDepth zoneBits r = some (zoneBits - e) := by
  have pos : 0 < 8^e := Nat.pow_pos (by omega)
  have small := height_le cell.inside
  have len := IsCell.len cell
  have nonzero : r.stop - r.start ≠ 0 := by
    intro zero
    rw [zero,UInt64.toNat_zero] at len
    omega
  have power : (r.stop - r.start).toNat = 2^(3*e) := by rw [len,Nat.pow_mul]
  have aligned : r.start % (r.stop - r.start) = 0 := by
    apply UInt64.toNat.inj
    rw [UInt64.toNat_mod,len,cell.start]
    simp
  unfold zoneRangeDepth
  simp only [nonzero,if_false,halvings_pow 64 _ (3*e) 0 (by omega) power]
  have multiple : (0 + 3*e) % 3 = 0 := by omega
  have inRange : ¬ e > zoneBits := by simp only [zoneBits]; omega
  simp [aligned,inRange]

theorem octreeChildren_cell {r : ZoneRange} {e k : Nat} (cell : r.IsCell e k) (children : List ZoneRange)
    (found : octreeChildren zoneBits r = some children) :
    ∃ e', e = e' + 1 ∧ children.length = 8 ∧
      ∀ i c, children[i]? = some c → i < 8 ∧ c.IsCell e' (8 * k + i) := by
  unfold octreeChildren at found
  rw [zoneRangeDepth_cell cell] at found
  by_cases leaf : zoneBits - e ≥ octreeMaxDepth zoneBits
  · simp [leaf] at found
  obtain ⟨e',rfl⟩ : ∃ e', e = e' + 1 := ⟨e - 1,by simp only [octreeMaxDepth] at leaf; omega⟩
  simp only [leaf,if_false] at found
  refine ⟨e',rfl,?_⟩
  simp only [Option.some.injEq] at found
  subst children
  refine ⟨by simp,?_⟩
  intro i c got
  have bound : i < 8 := by
    have := (List.getElem?_eq_some_iff.mp got).1
    simpa using this
  refine ⟨bound,?_⟩
  simp only [List.getElem?_map,List.getElem?_range bound,Option.map_some,Option.some.injEq] at got
  subst c
  have inside := cell.inside
  have start := cell.start
  rw [Nat.pow_succ] at inside start
  have childLen : ((r.stop - r.start) / 8).toNat = 8^e' := by
    rw [UInt64.toNat_div,IsCell.len cell,Nat.pow_succ]
    simp
  have asNat : i.toUInt64.toNat = i := by
    simp only [Nat.toUInt64_eq,UInt64.toNat_ofNat']
    omega
  have asNat1 : (i.toUInt64 + 1).toNat = i + 1 := by
    rw [UInt64.toNat_add,asNat]
    simp
    omega
  suffices scaled : ∀ L, 8^e' = L → (r.start + i.toUInt64 * ((r.stop - r.start) / 8)).toNat = (8 * k + i) * L ∧
      (r.start + (i.toUInt64 + 1) * ((r.stop - r.start) / 8)).toNat = (8 * k + i) * L + L ∧
      (8 * k + i) * L + L ≤ 2^63 by
    obtain ⟨first,last,within⟩ := scaled _ rfl
    exact ⟨first,last,within⟩
  intro L power
  rw [power] at inside start childLen
  have step : i * L ≤ 7 * L := Nat.mul_le_mul_right L (by omega)
  have offset : (i + 1) * L = i * L + L := by ring
  have base : (8 * k + i) * L = k * (L * 8) + i * L := by ring
  refine ⟨?_,?_,by omega⟩
  · rw [UInt64.toNat_add,UInt64.toNat_mul,asNat,childLen,start,base]
    rw [Nat.mod_eq_of_lt (by omega : i * L < 2^64),Nat.mod_eq_of_lt (by omega)]
  · rw [UInt64.toNat_add,UInt64.toNat_mul,asNat1,childLen,start,base,offset]
    rw [Nat.mod_eq_of_lt (by omega : i * L + L < 2^64),Nat.mod_eq_of_lt (by omega)]
    omega

theorem parentRange_cell {r parent : ZoneRange} {e k : Nat} (cell : r.IsCell e k)
    (found : parentRange zoneBits r = some parent) : parent.IsCell (e + 1) (k / 8) := by
  unfold parentRange at found
  rw [zoneRangeDepth_cell cell] at found
  simp only at found
  split at found
  · cases found
  rename_i below
  simp only [Option.some.injEq] at found
  subst parent
  have bound := cell.inside
  have height : e ≤ 20 := by
    have := height_le bound
    simp only [zoneBits] at below
    omega
  have start := cell.start
  have power : 8^(e+1) = 8 * 8^e := by rw [Nat.pow_succ]; ring
  have top : 8^e * 8^(21 - e) = 2^63 := by
    rw [← Nat.pow_add,show e + (21 - e) = 21 by omega]
    norm_num
  have exponent : 8^(21 - e) = 8 * 8^(20 - e) := by
    rw [show 21 - e = (20 - e) + 1 by omega,Nat.pow_succ]
    ring
  have len := IsCell.len cell
  have pos : 0 < 8^e := Nat.pow_pos (by omega)
  have small : 8 * 8^e ≤ 2^63 := by
    rw [← power]
    calc 8^(e+1) ≤ 8^21 := Nat.pow_le_pow_right (by omega) (by omega)
      _ = 2^63 := by norm_num
  have parentLen : ((r.stop - r.start) * 8).toNat = 8 * 8^e := by
    rw [UInt64.toNat_mul,len]
    simp only [UInt64.reduceToNat]
    rw [Nat.mod_eq_of_lt (by omega)]
    ring
  have remainder : (r.start % ((r.stop - r.start) * 8)).toNat = (k % 8) * 8^e := by
    rw [UInt64.toNat_mod,parentLen,start,Nat.mul_mod_mul_right]
  have whole : k * 8^e = (k / 8) * (8 * 8^e) + (k % 8) * 8^e := by
    conv_lhs => rw [← Nat.div_add_mod k 8]
    ring
  have parentStart : (r.start - r.start % ((r.stop - r.start) * 8)).toNat = (k / 8) * (8 * 8^e) := by
    have ordered : r.start % ((r.stop - r.start) * 8) ≤ r.start := by
      rw [UInt64.le_iff_toNat_le,remainder,start]
      omega
    rw [UInt64.toNat_sub_of_le _ _ ordered,remainder,start]
    omega
  -- The parent ends inside the curve because 2^63 is a multiple of its length.
  have rounded : (k / 8) * (8 * 8^e) + 8 * 8^e ≤ 2^63 := by
    have slots : k / 8 + 1 ≤ 8^(20 - e) := by
      have below : k < 8^(21 - e) := by
        by_contra above
        have : 8^e * 8^(21 - e) ≤ 8^e * k := Nat.mul_le_mul_left _ (by omega)
        nlinarith
      omega
    calc (k / 8) * (8 * 8^e) + 8 * 8^e = (k / 8 + 1) * (8 * 8^e) := by ring
      _ ≤ 8^(20 - e) * (8 * 8^e) := Nat.mul_le_mul_right _ slots
      _ = 8^e * (8 * 8^(20 - e)) := by ring
      _ = 2^63 := by rw [← exponent,top]
  refine ⟨?_,?_,?_⟩
  · rw [parentStart,power]
  · rw [UInt64.toNat_add,parentStart,parentLen,power,Nat.mod_eq_of_lt (by omega)]
  · rw [power]
    exact rounded

/-! Curve indices of positions. -/

private theorem pushBit_lt (d v : UInt64) (m : Nat) (small : d.toNat < 2^m) :
    ((d <<< 1) ||| (v &&& 1)).toNat < 2^(m+1) := by
  rw [UInt64.toNat_or]
  apply Nat.or_lt_two_pow
  · rw [UInt64.toNat_shiftLeft]
    apply Nat.lt_of_le_of_lt (Nat.mod_le _ _)
    simp only [UInt64.reduceToNat,Nat.reduceMod,Nat.shiftLeft_eq,Nat.pow_succ]
    omega
  · rw [UInt64.toNat_and]
    apply Nat.lt_of_le_of_lt Nat.and_le_right
    simp [Nat.pow_succ]
    have := Nat.two_pow_pos m
    omega

theorem Axes.interleave_lt (a : Axes) (k : Nat) (d : UInt64) (j : Nat) (small : d.toNat < 2^(3*j)) :
    (a.interleave k d).toNat < 2^(3*(j+k)) := by
  induction k generalizing d j with
  | zero => exact small
  | succ k ih =>
    rw [show j + (k + 1) = j + 1 + k by omega]
    apply ih
    exact pushBit_lt _ _ _ (pushBit_lt _ _ _ (pushBit_lt _ _ _ small))

/-- Every position has a curve index inside the bootstrap zone's range. -/
theorem hilbert3D_lt (pos : Pos3) : (hilbert3D zoneBits pos).toNat < 2^63 :=
  Axes.interleave_lt _ 21 0 0 (by decide)

end WarpLoop.Core
