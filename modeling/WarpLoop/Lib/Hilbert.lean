import Mathlib.Data.Fintype.Sigma
import Mathlib.Data.Nat.Digits.Defs
import Mathlib.Logic.Equiv.Basic
import Mathlib.Tactic.DeriveFintype

/-! The three-dimensional Hilbert curve over octrees. A cell of depth `n` is the list of the `n` octants that
lead to it, outermost first. The curve reads such a list in a finite state, the rotation of the octants
still to come and the direction in which they are passed, and writes the cell's index octal digit by digit. -/
namespace WarpLoop.Lib.Hilbert

/-! Numbers written in digits, the most significant first. -/

def value (base : Nat) (digits : List Nat) : Nat := Nat.ofDigits base digits.reverse

section Value
variable {base : Nat}

@[simp] theorem value_nil : value base [] = 0 := by simp [value]

theorem value_append (first second : List Nat) :
    value base (first ++ second) = value base first * base^second.length + value base second := by
  rw [value,List.reverse_append,Nat.ofDigits_append,List.length_reverse,Nat.mul_comm,Nat.add_comm]
  rfl

theorem value_cons (digit : Nat) (digits : List Nat) :
    value base (digit::digits) = digit * base^digits.length + value base digits := by
  rw [← List.singleton_append,value_append,value,List.reverse_singleton,Nat.ofDigits_singleton]

theorem value_lt (large : 1 < base) {digits : List Nat} (small : ∀ digit ∈ digits, digit < base) :
    value base digits < base^digits.length := by
  rw [value,← List.length_reverse]
  exact Nat.ofDigits_lt_base_pow_length large (fun digit member => small digit (List.mem_reverse.mp member))

theorem value_take (large : 1 < base) {digits : List Nat} (small : ∀ digit ∈ digits, digit < base) (n : Nat) :
    value base (digits.take n) = value base digits / base^(digits.length - n) := by
  have below := value_lt large (fun digit (member : digit ∈ digits.drop n) => small digit (List.mem_of_mem_drop member))
  have whole : value base digits = value base (digits.take n) * base^(digits.drop n).length + value base (digits.drop n) := by
    rw [← value_append,List.take_append_drop]
  rw [List.length_drop] at below whole
  rw [whole,Nat.mul_comm,Nat.mul_add_div (Nat.pow_pos (by omega)),Nat.div_eq_of_lt below,Nat.add_zero]

theorem value_inj (large : 1 < base) {digits digits' : List Nat} (length : digits.length = digits'.length)
    (small : ∀ digit ∈ digits, digit < base) (small' : ∀ digit ∈ digits', digit < base)
    (equal : value base digits = value base digits') : digits = digits' := by
  apply List.reverse_injective
  apply Nat.ofDigits_inj_of_len_eq large (by simpa using length)
    (fun digit member => small digit (List.mem_reverse.mp member))
    (fun digit member => small' digit (List.mem_reverse.mp member)) equal

theorem value_zeros (n : Nat) : value base (List.replicate n 0) = 0 := by
  induction n with
  | zero => simp
  | succ n ih => rw [List.replicate_succ,value_cons,ih,Nat.zero_mul]

theorem value_lasts (positive : 0 < base) (n : Nat) : value base (List.replicate n (base - 1)) + 1 = base^n := by
  induction n with
  | zero => simp
  | succ n ih =>
    rw [List.replicate_succ,value_cons,List.length_replicate,Nat.add_assoc,ih,Nat.pow_succ,Nat.mul_comm _ base]
    calc (base - 1) * base^n + base^n = (base - 1 + 1) * base^n := by rw [Nat.add_mul,Nat.one_mul]
      _ = base * base^n := by rw [Nat.sub_add_cancel positive]

/-- Two numbers of one length follow one another where their first digits agree and the rests follow, or
where the first digits follow, the one rest is all last digits and the other all zeros. -/
theorem value_succ (large : 1 < base) {digit digit' : Nat} {digits digits' : List Nat}
    (length : digits.length = digits'.length) (small : ∀ d ∈ digits, d < base) (small' : ∀ d ∈ digits', d < base)
    (next : value base (digit::digits) + 1 = value base (digit'::digits')) :
    digit = digit' ∧ value base digits + 1 = value base digits' ∨
    digit + 1 = digit' ∧ digits = List.replicate digits.length (base - 1) ∧
      digits' = List.replicate digits.length 0 := by
  have bound := value_lt large small
  have bound' := value_lt large small'
  rw [value_cons,value_cons,← length] at next
  rw [← length] at bound'
  have lasts := value_lasts (Nat.lt_of_succ_lt large) digits.length
  rcases Nat.lt_trichotomy digit digit' with below | rfl | above
  · right
    have step : (digit + 1) * base^digits.length ≤ digit' * base^digits.length := Nat.mul_le_mul_right _ below
    rw [Nat.add_mul,Nat.one_mul] at step
    have full : value base digits + 1 = base^digits.length := by omega
    have none : value base digits' = 0 := by omega
    have same : digit' * base^digits.length = (digit + 1) * base^digits.length := by
      rw [Nat.add_mul,Nat.one_mul]
      omega
    refine ⟨(Nat.mul_right_cancel (by omega) same).symm,?_,?_⟩
    · apply value_inj large (by simp) small (fun d member => by rw [List.eq_of_mem_replicate member]; omega)
      omega
    · apply value_inj large (by simp [length]) small' (fun d member => by rw [List.eq_of_mem_replicate member]; omega)
      rw [none,value_zeros]
  · left
    exact ⟨rfl,by omega⟩
  · have step : (digit' + 1) * base^digits.length ≤ digit * base^digits.length := Nat.mul_le_mul_right _ above
    rw [Nat.add_mul,Nat.one_mul] at step
    omega

end Value

/-! Octants and the symmetries of the cube. -/

inductive Axis where
  | x | y | z
deriving DecidableEq, Repr

instance Axis.fintype : Fintype Axis := ⟨{.x,.y,.z},by rintro ⟨⟩ <;> decide⟩

@[ext] structure Octant where
  x : Bool
  y : Bool
  z : Bool
deriving DecidableEq, Fintype, Repr

namespace Octant

def bit (o : Octant) : Axis → Bool
  | .x => o.x
  | .y => o.y
  | .z => o.z

def flip (o : Octant) : Axis → Octant
  | .x => {o with x := !o.x}
  | .y => {o with y := !o.y}
  | .z => {o with z := !o.z}

def number (o : Octant) : Nat := 4 * o.x.toNat + 2 * o.y.toNat + o.z.toNat

def odd (o : Octant) : Bool := o.x ^^ o.y ^^ o.z

theorem number_lt (o : Octant) : o.number < 8 := by
  revert o
  decide

@[simp] theorem bit_flip_self (o : Octant) (a : Axis) : (o.flip a).bit a = !o.bit a := by
  cases a <;> rfl

theorem bit_flip_of_ne (o : Octant) {a b : Axis} (ne : b ≠ a) : (o.flip a).bit b = o.bit b := by
  cases a <;> cases b <;> first | rfl | exact absurd rfl ne

theorem number_inj {o p : Octant} (equal : o.number = p.number) : o = p := by
  revert o p
  decide

theorem exists_number (n : Nat) (small : n < 8) : ∃ o : Octant, o.number = n := by
  revert n
  decide

end Octant

def mirrorX : Octant ≃ Octant where
  toFun o := {o with x := !o.x}
  invFun o := {o with x := !o.x}
  left_inv := by decide
  right_inv := by decide

def swapXY : Octant ≃ Octant where
  toFun o := ⟨o.y,o.x,o.z⟩
  invFun o := ⟨o.y,o.x,o.z⟩
  left_inv _ := rfl
  right_inv _ := rfl

def swapXZ : Octant ≃ Octant where
  toFun o := ⟨o.z,o.y,o.x⟩
  invFun o := ⟨o.z,o.y,o.x⟩
  left_inv _ := rfl
  right_inv _ := rfl

/-- A symmetry of the cube: it sends each axis to an axis and keeps apart what differs along it. -/
def Rigid (f : Octant ≃ Octant) : Prop :=
  ∃ axes : Equiv.Perm Axis, ∀ a, (∀ o, f (o.flip a) = (f o).flip (axes a)) ∧
    ∀ o p, ((f o).bit (axes a) = (f p).bit (axes a) ↔ o.bit a = p.bit a)

theorem rigid_refl : Rigid (Equiv.refl Octant) := ⟨Equiv.refl Axis,fun _ => ⟨fun _ => rfl,fun _ _ => Iff.rfl⟩⟩

theorem rigid_mirrorX : Rigid mirrorX := ⟨Equiv.refl Axis,by decide⟩

theorem rigid_swapXY : Rigid swapXY := ⟨Equiv.swap Axis.x Axis.y,by decide⟩

theorem rigid_swapXZ : Rigid swapXZ := ⟨Equiv.swap Axis.x Axis.z,by decide⟩

theorem Rigid.trans {f g : Octant ≃ Octant} (first : Rigid f) (second : Rigid g) : Rigid (f.trans g) := by
  obtain ⟨axes,keeps⟩ := first
  obtain ⟨axes',keeps'⟩ := second
  refine ⟨axes.trans axes',fun a => ⟨fun o => ?_,fun o p => ?_⟩⟩
  · simp only [Equiv.trans_apply]
    rw [(keeps a).1,(keeps' (axes a)).1]
  · simp only [Equiv.trans_apply]
    rw [(keeps' (axes a)).2,(keeps a).2]

theorem Rigid.symm {f : Octant ≃ Octant} (rigid : Rigid f) : Rigid f.symm := by
  obtain ⟨axes,keeps⟩ := rigid
  refine ⟨axes.symm,fun a => ⟨fun o => ?_,fun o p => ?_⟩⟩
  · apply f.injective
    rw [(keeps (axes.symm a)).1]
    simp
  · have back := (keeps (axes.symm a)).2 (f.symm o) (f.symm p)
    simp only [Equiv.apply_symm_apply] at back
    exact back.symm

/-! The curve. -/

/-- The rotation of the octants inside octant `u`. -/
def turn (u : Octant) : Octant ≃ Octant :=
  ((if u.x then mirrorX else Equiv.refl Octant).trans (if u.y then mirrorX else swapXY)).trans
    (if u.z then mirrorX else swapXZ)

theorem rigid_turn (u : Octant) : Rigid (turn u) := by
  refine Rigid.trans (Rigid.trans ?_ ?_) ?_
  · split
    · exact rigid_mirrorX
    · exact rigid_refl
  · split
    · exact rigid_mirrorX
    · exact rigid_swapXY
  · split
    · exact rigid_mirrorX
    · exact rigid_swapXZ

/-- The octal digit of an octant, which counts down where the curve runs back. -/
def gray (back : Bool) : Octant ≃ Octant where
  toFun u := ⟨u.x ^^ back,u.x ^^ u.y ^^ back,u.x ^^ u.y ^^ u.z ^^ back⟩
  invFun d := ⟨d.x ^^ back,d.x ^^ d.y,d.y ^^ d.z⟩
  left_inv := by revert back; decide
  right_inv := by revert back; decide

def curve : Octant ≃ Octant → Bool → List Octant → List Octant
  | _,_,[] => []
  | f,back,o::rest => gray back (f o)::curve (f.trans (turn (f o))) (back ^^ (f o).odd) rest

/-- The cell whose digits are given. -/
def uncurve : Octant ≃ Octant → Bool → List Octant → List Octant
  | _,_,[] => []
  | f,back,d::rest =>
    let u := (gray back).symm d
    f.symm u::uncurve (f.trans (turn u)) (back ^^ u.odd) rest

def index (cell : List Octant) : Nat := value 8 ((curve (Equiv.refl Octant) false cell).map Octant.number)

@[simp] theorem length_curve (f : Octant ≃ Octant) (back : Bool) (cell : List Octant) :
    (curve f back cell).length = cell.length := by
  induction cell generalizing f back with
  | nil => rfl
  | cons o rest ih => simp [curve,ih]

@[simp] theorem length_uncurve (f : Octant ≃ Octant) (back : Bool) (digits : List Octant) :
    (uncurve f back digits).length = digits.length := by
  induction digits generalizing f back with
  | nil => rfl
  | cons d rest ih => simp [uncurve,ih]

theorem uncurve_curve (f : Octant ≃ Octant) (back : Bool) (cell : List Octant) : uncurve f back (curve f back cell) = cell := by
  induction cell generalizing f back with
  | nil => rfl
  | cons o rest ih => simp [curve,uncurve,ih]

theorem curve_uncurve (f : Octant ≃ Octant) (back : Bool) (digits : List Octant) :
    curve f back (uncurve f back digits) = digits := by
  induction digits generalizing f back with
  | nil => rfl
  | cons d rest ih => simp [curve,uncurve,ih]

/-- The digits of an enclosing cell come first. -/
theorem curve_take (f : Octant ≃ Octant) (back : Bool) (cell : List Octant) (n : Nat) :
    curve f back (cell.take n) = (curve f back cell).take n := by
  induction cell generalizing f back n with
  | nil => simp [curve]
  | cons o rest ih =>
    cases n with
    | zero => rfl
    | succ n => simp [curve,ih]

private theorem digits_lt (digits : List Octant) : ∀ d ∈ digits.map Octant.number, d < 8 := by
  intro d member
  obtain ⟨o,_,rfl⟩ := List.mem_map.mp member
  exact o.number_lt

theorem index_lt (cell : List Octant) : index cell < 8^cell.length := by
  have bound := value_lt (by omega) (digits_lt (curve (Equiv.refl Octant) false cell))
  simpa [index] using bound

/-! Neighbours. -/

/-- The cells share a face across the axis: after the octants they have in common one of the cells
lies at the far side of its octant and the other at the near side of the next. -/
def Touch (a : Axis) : List Octant → List Octant → Prop
  | o::c,p::d => o = p ∧ Touch a c d ∨ p = o.flip a ∧ d = c.map (fun u => u.flip a) ∧ ∀ u ∈ c, u.bit a ≠ o.bit a
  | _,_ => False

def coordinate (a : Axis) (cell : List Octant) : Nat := value 2 (cell.map (fun o => (o.bit a).toNat))

theorem Touch.map {f : Octant ≃ Octant} {a : Axis} (rigid : Rigid f) {c d : List Octant} (touch : Touch a c d) :
    ∃ b, Touch b (c.map f) (d.map f) := by
  obtain ⟨axes,keeps⟩ := rigid
  refine ⟨axes a,?_⟩
  induction c generalizing d with
  | nil => cases touch
  | cons o c ih =>
    cases d with
    | nil => cases touch
    | cons p d =>
      rcases touch with ⟨rfl,inner⟩ | ⟨rfl,rfl,across⟩
      · exact Or.inl ⟨rfl,ih inner⟩
      · refine Or.inr ⟨(keeps a).1 o,?_,?_⟩
        · simp [(keeps a).1,Function.comp_def]
        · intro u member
          obtain ⟨v,inside,rfl⟩ := List.mem_map.mp member
          rw [Ne,(keeps a).2]
          exact across v inside

theorem coordinate_cons (a : Axis) (o : Octant) (cell : List Octant) :
    coordinate a (o::cell) = (o.bit a).toNat * 2^cell.length + coordinate a cell := by
  simp [coordinate,value_cons]

private theorem bits_lt (a : Axis) (cell : List Octant) : ∀ digit ∈ cell.map (fun o => (o.bit a).toNat), digit < 2 := by
  intro digit member
  obtain ⟨o,_,rfl⟩ := List.mem_map.mp member
  exact Bool.toNat_lt (o.bit a)

theorem coordinate_lt (a : Axis) (cell : List Octant) : coordinate a cell < 2^cell.length := by
  have bound := value_lt (by omega) (bits_lt a cell)
  simpa [coordinate] using bound

theorem coordinate_inj {c d : List Octant} (length : c.length = d.length) (level : ∀ a, coordinate a c = coordinate a d) :
    c = d := by
  have bits : ∀ a, c.map (fun o => o.bit a) = d.map (fun o => o.bit a) := by
    intro a
    have digits := value_inj (by omega) (by simp [length]) (bits_lt a c) (bits_lt a d) (level a)
    have injective : Function.Injective Bool.toNat := by decide
    apply List.map_injective_iff.mpr injective
    simpa [Function.comp_def] using digits
  apply List.ext_getElem length
  intro i left right
  have same : ∀ a, (c.get ⟨i,left⟩).bit a = (d.get ⟨i,right⟩).bit a := by
    intro a
    simpa [left,right] using congrArg (fun bits => bits[i]?) (bits a)
  exact Octant.ext (same .x) (same .y) (same .z)

/-- The cell of depth `n` at a position, found by the last `n` bits of each coordinate. -/
def cellAt (position : Axis → Nat) : Nat → List Octant
  | 0 => []
  | n+1 => ⟨(position .x).testBit n,(position .y).testBit n,(position .z).testBit n⟩::cellAt position n

@[simp] theorem length_cellAt (position : Axis → Nat) (n : Nat) : (cellAt position n).length = n := by
  induction n with
  | zero => rfl
  | succ n ih => rw [cellAt,List.length_cons,ih]

theorem coordinate_cellAt (position : Axis → Nat) (n : Nat) (a : Axis) :
    coordinate a (cellAt position n) = position a % 2^n := by
  induction n with
  | zero => simp [cellAt,coordinate,Nat.mod_one]
  | succ n ih =>
    rw [cellAt,coordinate_cons,ih,length_cellAt,Nat.mod_pow_succ,← Nat.toNat_testBit,Nat.add_comm,Nat.mul_comm]
    cases a <;> rfl

theorem cellAt_take (position : Axis → Nat) (n s : Nat) :
    (cellAt position (n + s)).take n = cellAt (fun a => position a >>> s) n := by
  induction n with
  | zero => rfl
  | succ n ih => 
    rw [Nat.add_right_comm,cellAt,List.take_succ_cons,ih,cellAt]
    simp [Nat.testBit_shiftRight,Nat.add_comm]

theorem coordinate_of_all (a : Axis) (bit : Bool) (cell : List Octant) (all : ∀ u ∈ cell, u.bit a = bit) :
    coordinate a cell + bit.toNat = bit.toNat * 2^cell.length := by
  have digits : cell.map (fun u => (u.bit a).toNat) = List.replicate cell.length bit.toNat :=
    List.map_eq_replicate_iff.mpr (fun u member => by rw [all u member])
  cases bit with
  | false => simp [coordinate,digits,value_zeros]
  | true => simpa [coordinate,digits] using value_lasts Nat.two_pos cell.length

theorem Touch.length_eq {a : Axis} {c d : List Octant} (touch : Touch a c d) : c.length = d.length := by
  induction c generalizing d with
  | nil => cases touch
  | cons o c ih =>
    cases d with
    | nil => cases touch
    | cons p d =>
      rcases touch with ⟨_,inner⟩ | ⟨_,rfl,_⟩
      · simp [ih inner]
      · simp

/-- Touching cells are one apart along the axis and level along the other two. -/
theorem Touch.coordinates {a : Axis} {c d : List Octant} (touch : Touch a c d) :
    (coordinate a c + 1 = coordinate a d ∨ coordinate a d + 1 = coordinate a c) ∧
      ∀ b, b ≠ a → coordinate b c = coordinate b d := by
  induction c generalizing d with
  | nil => cases touch
  | cons o c ih =>
    cases d with
    | nil => cases touch
    | cons p d =>
      rcases touch with ⟨rfl,inner⟩ | ⟨rfl,rfl,across⟩
      · obtain ⟨apart,level⟩ := ih inner
        simp only [coordinate_cons,inner.length_eq]
        exact ⟨by omega,fun b ne => by rw [level b ne]⟩
      · constructor
        · have near := coordinate_of_all a (!o.bit a) c (fun u member => Bool.eq_not.mpr (across u member))
          have far := coordinate_of_all a (o.bit a) (c.map (fun u => u.flip a)) (by
            intro u member
            obtain ⟨v,inside,rfl⟩ := List.mem_map.mp member
            simpa using Bool.eq_not.mpr (across v inside))
          simp only [coordinate_cons,Octant.bit_flip_self,List.length_map] at near far ⊢
          cases side : o.bit a <;> simp [side] at near far ⊢ <;> omega
        · intro b ne
          simp [Octant.bit_flip_of_ne _ ne,coordinate,Function.comp_def]

/-! Two cells that follow one another on the curve touch. -/

/-- The octant of `u` in which the curve leaves `u`, or in which it enters. -/
def corner (back last : Bool) (u : Octant) : Octant := (turn u).symm ⟨last ^^ (back ^^ u.odd),false,false⟩

private theorem gray_corner (back last : Bool) : (gray back).symm ⟨last,last,last⟩ = ⟨last ^^ back,false,false⟩ := by
  revert back last
  decide

private theorem corner_corner (back last : Bool) : corner back last ⟨last ^^ back,false,false⟩ = ⟨last ^^ back,false,false⟩ := by
  revert back last
  decide

theorem curve_corner (f : Octant ≃ Octant) (back last : Bool) (cell : List Octant)
    (ends : curve f back cell = List.replicate cell.length ⟨last,last,last⟩) :
    cell = List.replicate cell.length (f.symm ⟨last ^^ back,false,false⟩) := by
  induction cell generalizing f back with
  | nil => rfl
  | cons o rest ih =>
    rw [List.length_cons,List.replicate_succ,curve] at ends
    obtain ⟨head,tail⟩ := List.cons.inj ends
    have first : f o = ⟨last ^^ back,false,false⟩ := by rw [← gray_corner,Equiv.eq_symm_apply,head]
    have inner : (f.trans (turn (f o))).symm ⟨last ^^ (back ^^ (f o).odd),false,false⟩ = o := by
      rw [Equiv.symm_trans_apply,Equiv.symm_apply_eq,← corner,first,corner_corner]
    have later := ih _ _ tail
    rw [inner] at later
    rw [List.length_cons,List.replicate_succ,← first,Equiv.symm_apply_apply,← later]

/-- Where the curve passes from octant `u` to octant `v`, it leaves the one and enters the other across
the face that the two have in common. -/
theorem gray_next (back : Bool) (u v : Octant) (next : (gray back u).number + 1 = (gray back v).number) :
    ∃ a, v = u.flip a ∧ corner back false v = (corner back true u).flip a ∧ (corner back true u).bit a ≠ u.bit a := by
  revert back u v
  decide

private theorem eq_replicate_of_numbers {digits : List Octant} {n : Nat} (o : Octant)
    (numbers : digits.map Octant.number = List.replicate n o.number) : digits = List.replicate n o := by
  apply (List.map_injective_iff.mpr fun _ _ => Octant.number_inj)
  rw [numbers,List.map_replicate]

theorem curve_touch (f : Octant ≃ Octant) (back : Bool) (rigid : Rigid f) (c d : List Octant) (length : c.length = d.length)
    (next : value 8 ((curve f back c).map Octant.number) + 1 = value 8 ((curve f back d).map Octant.number)) :
    ∃ a, Touch a c d := by
  induction c generalizing f back d with
  | nil =>
    obtain rfl : d = [] := List.eq_nil_of_length_eq_zero length.symm
    simp [curve] at next
  | cons o c ih =>
    cases d with
    | nil => cases length
    | cons p d =>
      have same : c.length = d.length := Nat.succ.inj length
      simp only [curve,List.map_cons] at next
      rcases value_succ (by omega) (by simp [same]) (digits_lt _) (digits_lt _) next with ⟨digit,inner⟩ | ⟨digit,last,first⟩
      · -- one octant holds both cells
        obtain rfl : o = p := f.injective ((gray back).injective (Octant.number_inj digit))
        obtain ⟨a,touch⟩ := ih _ _ (rigid.trans (rigid_turn (f o))) d same inner
        exact ⟨a,Or.inl ⟨rfl,touch⟩⟩
      · -- the last cell of one octant and the first of the next
        simp only [List.length_map,length_curve] at last first
        have exit := curve_corner _ _ true c (eq_replicate_of_numbers ⟨true,true,true⟩ last)
        have entry := curve_corner _ _ false d (eq_replicate_of_numbers ⟨false,false,false⟩ (by rw [← same]; exact first))
        rw [Equiv.symm_trans_apply,← corner] at exit entry
        obtain ⟨a,across,mirrored,beyond⟩ := gray_next back (f o) (f p) digit
        have image : Touch a (f o::List.replicate c.length (corner back true (f o)))
            (f p::List.replicate c.length (corner back false (f p))) := by
          refine Or.inr ⟨across,by rw [List.map_replicate,mirrored],?_⟩
          intro u member
          rw [List.eq_of_mem_replicate member]
          exact beyond
        obtain ⟨b,touch⟩ := image.map rigid.symm
        refine ⟨b,?_⟩
        rw [exit,entry,← same]
        simpa using touch

/-- The curve is continuous. -/
theorem index_touch {c d : List Octant} (length : c.length = d.length) (next : index c + 1 = index d) : ∃ a, Touch a c d :=
  curve_touch _ _ rigid_refl c d length next

theorem index_inj {c d : List Octant} (length : c.length = d.length) (equal : index c = index d) : c = d := by
  have digits := value_inj (by omega) (by simp [length]) (digits_lt _) (digits_lt _) equal
  have written := List.map_injective_iff.mpr (fun _ _ => Octant.number_inj) digits
  rw [← uncurve_curve (Equiv.refl Octant) false c,written,uncurve_curve]

/-- Dropping the last digits leaves the index of the enclosing cell. -/
theorem index_take (cell : List Octant) (n : Nat) : index (cell.take n) = index cell / 8^(cell.length - n) := by
  have dropped := value_take (by omega) (digits_lt (curve (Equiv.refl Octant) false cell)) n
  rw [List.length_map,length_curve] at dropped
  rw [index,curve_take,List.map_take,dropped,index]

private theorem exists_digits (n m : Nat) (bound : m < 8^n) :
    ∃ digits : List Octant, digits.length = n ∧ value 8 (digits.map Octant.number) = m := by
  induction n generalizing m with
  | zero => exact ⟨[],rfl,by simpa using (Nat.lt_one_iff.mp bound).symm⟩
  | succ n ih =>
    have positive : 0 < 8^n := Nat.pow_pos (by omega)
    obtain ⟨rest,length,low⟩ := ih (m % 8^n) (Nat.mod_lt m positive)
    obtain ⟨o,high⟩ := Octant.exists_number (m / 8^n) (by rw [Nat.div_lt_iff_lt_mul positive,Nat.mul_comm]; exact bound)
    refine ⟨o::rest,by rw [List.length_cons,length],?_⟩
    rw [List.map_cons,value_cons,List.length_map,length,low,high,Nat.mul_comm,Nat.div_add_mod]

/-- Every index below `8^n` is that of a cell of depth `n`. -/
theorem exists_index (n m : Nat) (bound : m < 8^n) : ∃ cell : List Octant, cell.length = n ∧ index cell = m := by
  obtain ⟨digits,length,written⟩ := exists_digits n m bound
  exact ⟨uncurve (Equiv.refl Octant) false digits,by simp [length],by rw [index,curve_uncurve,written]⟩

end WarpLoop.Lib.Hilbert
