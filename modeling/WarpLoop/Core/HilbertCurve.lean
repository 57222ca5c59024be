import WarpLoop.Core.Zone
import WarpLoop.Lib.Hilbert
import Mathlib.Data.Nat.Bitwise
import Mathlib.Data.UInt
import Mathlib.Tactic.Ring

/-! The index that `hilbertIndexOfGrid` finds by passes over three words is the index of a cell on the
Hilbert curve: each pass handles the octants of the cell from the outermost on. -/
namespace WarpLoop.Core
open Lib.Hilbert

theorem testBit_xor (v w : UInt64) (i : Nat) : (v ^^^ w).toNat.testBit i = (v.toNat.testBit i ^^ w.toNat.testBit i) := by
  rw [UInt64.toNat_xor,Nat.testBit_xor]

theorem testBit_and (v w : UInt64) (i : Nat) : (v &&& w).toNat.testBit i = (v.toNat.testBit i && w.toNat.testBit i) := by
  rw [UInt64.toNat_and,Nat.testBit_and]

theorem testBit_mask {q : UInt64} {k : Nat} (power : q.toNat = 2^k) (i : Nat) : (q - 1).toNat.testBit i = decide (i < k) := by
  have positive : 1 ≤ q := by
    rw [UInt64.le_iff_toNat_le,power]
    exact Nat.two_pow_pos k
  rw [UInt64.toNat_sub_of_le _ _ positive,power]
  exact Nat.testBit_two_pow_sub_one k i

theorem and_power_ne_zero {q : UInt64} {k : Nat} (power : q.toNat = 2^k) (w : UInt64) :
    w &&& q ≠ 0 ↔ w.toNat.testBit k = true := by
  rw [Ne,← UInt64.toNat_inj,UInt64.toNat_and,power,Nat.and_two_pow]
  cases w.toNat.testBit k <;> simp

theorem power_half {q : UInt64} {k : Nat} (power : q.toNat = 2^(k + 1)) : (q >>> 1).toNat = 2^k := by
  rw [UInt64.toNat_shiftRight,power]
  simp [Nat.shiftRight_eq_div_pow,Nat.pow_succ]

theorem one_lt_power {q : UInt64} {k : Nat} (power : q.toNat = 2^k) : q > 1 ↔ 0 < k := by
  rw [gt_iff_lt,UInt64.lt_iff_toNat_lt,power,UInt64.toNat_one,Nat.one_lt_two_pow_iff]
  exact Nat.pos_iff_ne_zero.symm

namespace Axes

def position (a : Axes) : Axis → Nat
  | .x => a.x.toNat
  | .y => a.y.toNat
  | .z => a.z.toNat

/-- The octant that bit `i` of the axes selects. -/
def octant (a : Axes) (i : Nat) : Octant := ⟨a.x.toNat.testBit i,a.y.toNat.testBit i,a.z.toNat.testBit i⟩

def cell (a : Axes) (n : Nat) : List Octant := cellAt a.position n

theorem cell_succ (a : Axes) (n : Nat) : a.cell (n + 1) = a.octant n::a.cell n := rfl

theorem cell_eq_map {a b : Axes} {f : Octant → Octant} {n : Nat} (octants : ∀ i, i < n → b.octant i = f (a.octant i)) :
    b.cell n = (a.cell n).map f := by
  induction n with
  | zero => rfl
  | succ n ih =>
    rw [cell_succ,cell_succ,List.map_cons,octants n (Nat.lt_succ_self n),ih (fun i below => octants i (Nat.lt_succ_of_lt below))]

theorem undo_octant {q : UInt64} {k : Nat} (power : q.toNat = 2^k) (a : Axes) (i : Nat) :
    (a.undo q).octant i = if i < k then turn (a.octant k) (a.octant i) else a.octant i := by
  have mask := testBit_mask power i
  have swapped : ∀ v w : Bool, (w ^^ (v ^^ w)) = v := by decide
  rcases Bool.eq_false_or_eq_true (a.x.toNat.testBit k) with x | x <;>
    rcases Bool.eq_false_or_eq_true (a.y.toNat.testBit k) with y | y <;>
      rcases Bool.eq_false_or_eq_true (a.z.toNat.testBit k) with z | z <;> by_cases below : i < k <;>
        simp [undo,and_power_ne_zero power,turn,octant,mask,below,x,y,z,mirrorX,swapXY,swapXZ,swapped]

theorem undoLoop_octant (fuel k : Nat) {q : UInt64} (power : q.toNat = 2^k) (a : Axes) (i : Nat) (above : k ≤ i) :
    (undoLoop fuel q a).octant i = a.octant i := by
  induction fuel generalizing k q a with
  | zero => rfl
  | succ fuel ih =>
    rw [undoLoop]
    split
    case isTrue more =>
      obtain ⟨k,rfl⟩ := Nat.exists_eq_add_one.mpr ((one_lt_power power).mp more)
      rw [ih k (power_half power) _ (by omega),undo_octant power,if_neg (by omega)]
    case isFalse => rfl

/-- What the first pass makes of a cell: every octant turns the octants inside it. -/
def unturn : Octant ≃ Octant → List Octant → List Octant
  | _,[] => []
  | f,o::rest => f o::unturn (f.trans (turn (f o))) rest

theorem unturn_map (f g : Octant ≃ Octant) (cell : List Octant) : unturn f (cell.map g) = unturn (g.trans f) cell := by
  induction cell generalizing f with
  | nil => rfl
  | cons o rest ih => simp [unturn,ih,Equiv.trans_assoc]

theorem undoLoop_cell (fuel k : Nat) (enough : k ≤ fuel) {q : UInt64} (power : q.toNat = 2^k) (a : Axes) :
    (undoLoop fuel q a).cell (k + 1) = unturn (Equiv.refl Octant) (a.cell (k + 1)) := by
  induction k generalizing fuel q a with
  | zero =>
    rw [cell_succ,undoLoop_octant fuel 0 power a 0 (Nat.le_refl 0)]
    rfl
  | succ k ih => 
    cases fuel with
    | zero => omega
    | succ fuel =>
      have more : q > 1 := (one_lt_power power).mpr (Nat.succ_pos k)
      have inner : (a.undo q).cell (k + 1) = (a.cell (k + 1)).map (turn (a.octant (k + 1))) :=
        cell_eq_map (fun i below => by rw [undo_octant power,if_pos below])
      rw [cell_succ _ (k + 1),undoLoop_octant (fuel + 1) (k + 1) power a (k + 1) (Nat.le_refl _),cell_succ a (k + 1),unturn,
        undoLoop,if_pos more,ih fuel (by omega) (power_half power),inner,unturn_map]
      rfl

/-- What the second and third pass make of a cell: the octants become digits. -/
def digits : Bool → List Octant → List Octant
  | _,[] => []
  | back,u::rest => gray back u::digits (back ^^ u.odd) rest

theorem digits_unturn (f : Octant ≃ Octant) (back : Bool) (cell : List Octant) :
    digits back (unturn f cell) = curve f back cell := by
  induction cell generalizing f back with
  | nil => rfl
  | cons o rest ih => rw [unturn,digits,ih,curve]

end Axes

theorem excess_testBit {q : UInt64} {k : Nat} (power : q.toNat = 2^k) (z t : UInt64) (i : Nat) :
    (if z &&& q ≠ 0 then t ^^^ (q - 1) else t).toNat.testBit i =
      (t.toNat.testBit i ^^ (z.toNat.testBit k && decide (i < k))) := by
  simp only [and_power_ne_zero power]
  split
  case isTrue set => rw [testBit_xor,testBit_mask power,set,Bool.true_and]
  case isFalse clear => rw [Bool.eq_false_iff.mpr clear,Bool.false_and,Bool.xor_false]

theorem grayExcess_testBit (z : UInt64) (fuel k : Nat) {q : UInt64} (power : q.toNat = 2^k) (t : UInt64) (i : Nat) (above : k ≤ i) :
    (grayExcess z fuel q t).toNat.testBit i = t.toNat.testBit i := by
  induction fuel generalizing k q t with
  | zero => rfl
  | succ fuel ih =>
    rw [grayExcess]
    split
    case isTrue more =>
      obtain ⟨k,rfl⟩ := Nat.exists_eq_add_one.mpr ((one_lt_power power).mp more)
      rw [ih k (power_half power) _ (by omega),excess_testBit power,decide_eq_false (by omega),Bool.and_false,Bool.xor_false]
    case isFalse => rfl

/-- The Gray code of the axes, corrected by the excess `t`. -/
def Axes.recode (a : Axes) (t : UInt64) : Axes := ⟨a.x ^^^ t,(a.y ^^^ a.x) ^^^ t,(a.z ^^^ (a.y ^^^ a.x)) ^^^ t⟩

theorem recode_octant (a : Axes) (t : UInt64) (i : Nat) : (a.recode t).octant i = gray (t.toNat.testBit i) (a.octant i) := by
  simp only [Axes.recode,Axes.octant,testBit_xor,gray,Equiv.coe_fn_mk,Octant.mk.injEq,true_and]
  cases a.x.toNat.testBit i <;> cases a.y.toNat.testBit i <;> cases a.z.toNat.testBit i <;> cases t.toNat.testBit i <;> decide

theorem recode_cell (a : Axes) (fuel k : Nat) (enough : k ≤ fuel) {q : UInt64} (power : q.toNat = 2^k) (t : UInt64) (back : Bool)
    (constant : ∀ i, i ≤ k → t.toNat.testBit i = back) :
    (a.recode (grayExcess (a.z ^^^ (a.y ^^^ a.x)) fuel q t)).cell (k + 1) = Axes.digits back (a.cell (k + 1)) := by
  induction k generalizing fuel q t back with
  | zero =>
    rw [Axes.cell_succ,recode_octant,grayExcess_testBit _ fuel 0 power t 0 (Nat.le_refl 0),constant 0 (Nat.le_refl 0)]
    rfl
  | succ k ih =>
    cases fuel with
    | zero => omega
    | succ fuel =>
      have more : q > 1 := (one_lt_power power).mpr (Nat.succ_pos k)
      have odd : (a.z ^^^ (a.y ^^^ a.x)).toNat.testBit (k + 1) = (a.octant (k + 1)).odd := by
        rw [testBit_xor,testBit_xor,Bool.xor_comm,Bool.xor_comm (a.y.toNat.testBit (k + 1))]
        rfl
      rw [Axes.cell_succ _ (k + 1),recode_octant,grayExcess_testBit _ (fuel + 1) (k + 1) power t (k + 1) (Nat.le_refl _),
        constant (k + 1) (Nat.le_refl _),Axes.cell_succ a (k + 1),Axes.digits,grayExcess,if_pos more,
        ih fuel (by omega) (power_half power) _ (back ^^ (a.octant (k + 1)).odd)]
      intro i below
      rw [excess_testBit power,constant i (by omega),odd,decide_eq_true (by omega),Bool.and_true]

/-! The last pass writes the digits into a word. -/

theorem push_toNat (d w : UInt64) (k : Nat) (room : d.toNat < 2^63) (inside : k < 64) :
    ((d <<< 1) ||| ((w >>> k.toUInt64) &&& 1)).toNat = 2 * d.toNat + (w.toNat.testBit k).toNat := by
  have shift : k.toUInt64.toNat = k := by
    rw [Nat.toUInt64,UInt64.toNat_ofNat']
    exact Nat.mod_eq_of_lt (by omega)
  have high : (d <<< 1).toNat = d.toNat <<< 1 := by
    rw [UInt64.toNat_shiftLeft]
    apply Nat.mod_eq_of_lt
    simp [Nat.shiftLeft_eq]
    omega
  have low : ((w >>> k.toUInt64) &&& 1).toNat = (w.toNat.testBit k).toNat := by
    rw [UInt64.toNat_and,UInt64.toNat_shiftRight,shift,Nat.mod_eq_of_lt inside,Nat.toNat_testBit,Nat.shiftRight_eq_div_pow]
    exact Nat.and_one_is_mod _
  rw [UInt64.toNat_or,high,low,← Nat.shiftLeft_add_eq_or_of_lt (Bool.toNat_lt _),Nat.shiftLeft_eq,Nat.pow_one,Nat.mul_comm]

theorem interleave_toNat (a : Axes) (k : Nat) (inside : k ≤ 21) (d : UInt64) (room : d.toNat < 8^(21 - k)) :
    (a.interleave k d).toNat = d.toNat * 8^k + value 8 ((a.cell k).map Octant.number) := by
  induction k generalizing d with
  | zero => simp [Axes.interleave,Axes.cell,cellAt]
  | succ k ih =>
    have small : 8^(21 - (k + 1)) ≤ 8^20 := Nat.pow_le_pow_right (by omega) (by omega)
    have grows : 8^(21 - k) = 8 * 8^(21 - (k + 1)) := by
      rw [show 21 - k = 21 - (k + 1) + 1 by omega,Nat.pow_succ,Nat.mul_comm]
    have bound := (a.octant k).number_lt
    have digit : (a.octant k).number = 4 * (a.x.toNat.testBit k).toNat + 2 * (a.y.toNat.testBit k).toNat +
        (a.z.toNat.testBit k).toNat := rfl
    have first := push_toNat d a.x k (by omega) (by omega)
    have second := push_toNat _ a.y k (by rw [first]; omega) (by omega)
    have third := push_toNat _ a.z k (by rw [second,first]; omega) (by omega)
    rw [second,first] at third
    rw [Axes.interleave,ih (by omega) _ (by rw [third,grows]; omega),third,Axes.cell_succ,List.map_cons,value_cons,
      List.length_map,Axes.cell,length_cellAt,Nat.pow_succ,← Nat.add_assoc,digit]
    ring

/-- The index of the grid cell, as a number. -/
theorem hilbertIndexOfGrid_toNat (bits : Nat) (inside : bits ≤ 21) (px py pz : UInt64) :
    (hilbertIndexOfGrid bits px py pz).toNat = index (Axes.cell ⟨px,py,pz⟩ bits) := by
  rw [hilbertIndexOfGrid,interleave_toNat _ bits inside 0 (by simp),UInt64.toNat_zero,Nat.zero_mul,Nat.zero_add,index]
  cases bits with
  | zero => rfl
  | succ k =>
    have power : ((1 <<< (k + 1 - 1)).toUInt64).toNat = 2^k := by
      rw [Nat.add_sub_cancel,Nat.toUInt64,UInt64.toNat_ofNat',Nat.one_shiftLeft]
      exact Nat.mod_eq_of_lt (Nat.pow_lt_pow_right (by omega) (by omega))
    have unturned := Axes.undoLoop_cell 64 k (by omega) power ⟨px,py,pz⟩
    have recoded := recode_cell (Axes.undoLoop 64 (1 <<< (k + 1 - 1)).toUInt64 ⟨px,py,pz⟩) 64 k (by omega) power 0 false
      (fun i _ => by simp)
    rw [unturned,Axes.digits_unturn] at recoded
    rw [← recoded]
    rfl

/-! The curve over a grid of `2^bits` cells along each axis. -/

def Axes.Inside (bits : Nat) (a : Axes) : Prop := ∀ axis, a.position axis < 2^bits

theorem Axes.coordinate_cell {bits : Nat} {a : Axes} (inside : a.Inside bits) (axis : Axis) :
    coordinate axis (a.cell bits) = a.position axis := by
  rw [Axes.cell,coordinate_cellAt,Nat.mod_eq_of_lt (inside axis)]

theorem Axes.ext_position {a b : Axes} (level : ∀ axis, a.position axis = b.position axis) : a = b := by
  obtain ⟨x,y,z⟩ := a
  obtain ⟨x',y',z'⟩ := b
  rw [Axes.mk.injEq]
  exact ⟨UInt64.toNat_inj.mp (level .x),UInt64.toNat_inj.mp (level .y),UInt64.toNat_inj.mp (level .z)⟩

theorem hilbertIndexOfGrid_lt (bits : Nat) (fits : bits ≤ 21) (px py pz : UInt64) :
    (hilbertIndexOfGrid bits px py pz).toNat < 8^bits := by
  have bound := index_lt (Axes.cell ⟨px,py,pz⟩ bits)
  rwa [← hilbertIndexOfGrid_toNat bits fits,Axes.cell,length_cellAt] at bound

/-- The axes that lead to a cell. -/
theorem Axes.exists_cell {bits : Nat} (fits : bits ≤ 21) (cell : List Octant) (depth : cell.length = bits) :
    ∃ a : Axes, a.Inside bits ∧ a.cell bits = cell := by
  have bound (axis : Axis) : coordinate axis cell < 2^bits := by
    rw [← depth]
    exact coordinate_lt axis cell
  have word (axis : Axis) : (UInt64.ofNat (coordinate axis cell)).toNat = coordinate axis cell := by
    rw [UInt64.toNat_ofNat']
    exact Nat.mod_eq_of_lt (Nat.lt_trans (bound axis) (Nat.pow_lt_pow_right (by omega) (by omega)))
  let a : Axes := ⟨UInt64.ofNat (coordinate .x cell),UInt64.ofNat (coordinate .y cell),UInt64.ofNat (coordinate .z cell)⟩
  have position (axis : Axis) : a.position axis = coordinate axis cell := by
    cases axis <;> exact word _
  have inside : a.Inside bits := fun axis => by rw [position]; exact bound axis
  refine ⟨a,inside,coordinate_inj (by rw [Axes.cell,length_cellAt,depth]) (fun axis => ?_)⟩
  rw [Axes.coordinate_cell inside,position]

/-- Each cell of the grid has its own index, and every index below `8^bits` is that of a cell. -/
theorem hilbertIndexOfGrid_bijOn {bits : Nat} (fits : bits ≤ 21) :
    Set.BijOn (fun a : Axes => hilbertIndexOfGrid bits a.x a.y a.z) {a | a.Inside bits} {idx | idx.toNat < 8^bits} := by
  refine ⟨fun a _ => hilbertIndexOfGrid_lt bits fits a.x a.y a.z,?_,?_⟩
  · intro a inside b inside' equal
    have cells : a.cell bits = b.cell bits := by
      apply index_inj (by simp [Axes.cell])
      have numbers := congrArg UInt64.toNat equal
      rwa [hilbertIndexOfGrid_toNat bits fits,hilbertIndexOfGrid_toNat bits fits] at numbers
    apply Axes.ext_position
    intro axis
    rw [← Axes.coordinate_cell inside,cells,Axes.coordinate_cell inside']
  · intro idx bound
    obtain ⟨cell,depth,found⟩ := exists_index bits idx.toNat bound
    obtain ⟨a,inside,rfl⟩ := Axes.exists_cell fits cell depth
    refine ⟨a,inside,UInt64.toNat_inj.mp ?_⟩
    rw [hilbertIndexOfGrid_toNat bits fits,found]

theorem hilbertIndexOfGrid_bijOn_world :
    Set.BijOn (fun a : Axes => hilbertIndexOfGrid 21 a.x a.y a.z) {a | a.Inside 21} {idx | idx.toNat < 8^21} :=
  hilbertIndexOfGrid_bijOn (Nat.le_refl 21)

/-- Three bits of the index are one level of the octree: without the last `3 * s` of them the index is
that of the enclosing cell. -/
theorem hilbertIndexOfGrid_enclosing (n s : Nat) (fits : n + s ≤ 21) (px py pz : UInt64) :
    hilbertIndexOfGrid n (px >>> s.toUInt64) (py >>> s.toUInt64) (pz >>> s.toUInt64) =
      hilbertIndexOfGrid (n + s) px py pz >>> (3 * s).toUInt64 := by
  have shift (w : UInt64) (k : Nat) (small : k < 64) : (w >>> k.toUInt64).toNat = w.toNat >>> k := by
    rw [UInt64.toNat_shiftRight,Nat.toUInt64,UInt64.toNat_ofNat',Nat.mod_eq_of_lt (by omega : k < 2^64),Nat.mod_eq_of_lt small]
  have outer : Axes.cell ⟨px >>> s.toUInt64,py >>> s.toUInt64,pz >>> s.toUInt64⟩ n =
      (Axes.cell ⟨px,py,pz⟩ (n + s)).take n := by
    rw [Axes.cell,Axes.cell,cellAt_take]
    congr 1
    funext axis
    cases axis <;> exact shift _ s (by omega)
  apply UInt64.toNat_inj.mp
  rw [shift _ _ (by omega),hilbertIndexOfGrid_toNat n (by omega),hilbertIndexOfGrid_toNat (n + s) fits,outer,index_take,
    Axes.cell,length_cellAt,Nat.add_sub_cancel_left,Nat.shiftRight_eq_div_pow,Nat.pow_mul]

theorem hilbertIndexOfGrid_enclosing_one :
    hilbertIndexOfGrid 1 (5 >>> (2 : Nat).toUInt64) (3 >>> (2 : Nat).toUInt64) (6 >>> (2 : Nat).toUInt64) =
      hilbertIndexOfGrid (1 + 2) 5 3 6 >>> (3 * 2 : Nat).toUInt64 :=
  hilbertIndexOfGrid_enclosing 1 2 (by decide) 5 3 6

/-- The cells lie side by side along one axis. -/
def Axes.ShareFace (a b : Axes) : Prop :=
  ∃ axis, (a.position axis + 1 = b.position axis ∨ b.position axis + 1 = a.position axis) ∧
    ∀ other, other ≠ axis → a.position other = b.position other

theorem Axes.shareFace_of_touch {bits : Nat} {a b : Axes} (inside : a.Inside bits) (inside' : b.Inside bits) {axis : Axis}
    (touch : Touch axis (a.cell bits) (b.cell bits)) : a.ShareFace b := by
  have apart := touch.coordinates
  simp only [Axes.coordinate_cell inside,Axes.coordinate_cell inside'] at apart
  exact ⟨axis,apart⟩

/-- Cells that follow one another on the curve share a face. -/
theorem hilbertIndexOfGrid_continuous {bits : Nat} (fits : bits ≤ 21) {a b : Axes} (inside : a.Inside bits)
    (inside' : b.Inside bits)
    (next : (hilbertIndexOfGrid bits a.x a.y a.z).toNat + 1 = (hilbertIndexOfGrid bits b.x b.y b.z).toNat) : a.ShareFace b := by
  rw [hilbertIndexOfGrid_toNat bits fits,hilbertIndexOfGrid_toNat bits fits] at next
  obtain ⟨axis,touch⟩ := index_touch (by simp [Axes.cell]) next
  exact Axes.shareFace_of_touch inside inside' touch

theorem hilbertIndexOfGrid_continuous_first : Axes.ShareFace ⟨0,0,0⟩ ⟨0,0,1⟩ :=
  hilbertIndexOfGrid_continuous (by decide : 1 ≤ 21) (by rintro (_ | _ | _) <;> decide) (by rintro (_ | _ | _) <;> decide)
    (by decide +kernel)

end WarpLoop.Core
