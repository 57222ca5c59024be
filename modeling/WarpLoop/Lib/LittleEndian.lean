import Mathlib.Data.List.Basic
import Mathlib.Algebra.Group.Nat.Defs

/-! Numbers written byte by byte, the lowest first, and words put together from such bytes
with shifts and ors. -/
namespace WarpLoop.Lib.LittleEndian

def bytes : Nat → Nat → List UInt8
  | 0, _ => []
  | width+1, n => UInt8.ofNat (n % 256) :: bytes width (n / 256)

def value : List UInt8 → Nat
  | [] => 0
  | byte :: rest => byte.toNat + 256 * value rest

@[simp] theorem bytes_length (width n : Nat) : (bytes width n).length = width := by
  induction width generalizing n with
  | zero => rfl
  | succ width ih => rw [bytes,List.length_cons,ih]

theorem value_lt (bs : List UInt8) : value bs < 256 ^ bs.length := by
  induction bs with
  | nil => exact Nat.one_pos
  | cons byte rest ih =>
    have small := byte.toNat_lt
    rw [value,List.length_cons,Nat.pow_succ]
    omega

theorem value_bytes (width n : Nat) : value (bytes width n) = n % 256 ^ width := by
  induction width generalizing n with
  | zero => rw [bytes,value,Nat.pow_zero,Nat.mod_one]
  | succ width ih =>
    have low : (UInt8.ofNat (n % 256)).toNat = n % 256 := UInt8.toNat_ofNat_of_lt' (Nat.mod_lt n (by decide))
    rw [bytes,value,ih,low,Nat.pow_succ,Nat.mul_comm (256 ^ width),Nat.mod_mul]

theorem bytes_inj {width n m : Nat} (small : n < 256 ^ width) (small' : m < 256 ^ width) (same : bytes width n = bytes width m) :
    n = m := by
  have values := congrArg value same
  rwa [value_bytes,value_bytes,Nat.mod_eq_of_lt small,Nat.mod_eq_of_lt small'] at values

theorem bytes_value (bs : List UInt8) : bytes bs.length (value bs) = bs := by
  induction bs with
  | nil => rfl
  | cons byte rest ih =>
    have small : byte.toNat < 256 := byte.toNat_lt
    rw [List.length_cons,bytes,value,Nat.add_mul_mod_self_left,Nat.mod_eq_of_lt small,UInt8.ofNat_toNat,
      Nat.add_mul_div_left _ _ (by decide),Nat.div_eq_of_lt small,Nat.zero_add,ih]

/-- A higher part over a lower one. -/
theorem or_shiftLeft {low : Nat} (high : Nat) {k : Nat} (below : low < 2 ^ k) : low ||| high <<< k = low + 2 ^ k * high := by
  rw [Nat.or_comm,Nat.shiftLeft_eq,Nat.mul_comm high,← Nat.two_pow_add_eq_or_of_lt below,Nat.add_comm]

theorem word16 (a b : UInt8) : (a.toUInt16 ||| b.toUInt16 <<< 8).toNat = value [a,b] := by
  have first := a.toNat_lt
  have second := b.toNat_lt
  simp only [UInt16.toNat_or,UInt16.toNat_shiftLeft,UInt8.toNat_toUInt16,value]
  change a.toNat ||| b.toNat <<< 8 % 2 ^ 16 = _
  rw [Nat.mod_eq_of_lt (by rw [Nat.shiftLeft_eq]; omega),or_shiftLeft _ first]
  omega

theorem word32 (a b c d : UInt8) :
    (a.toUInt32 ||| b.toUInt32 <<< 8 ||| c.toUInt32 <<< 16 ||| d.toUInt32 <<< 24).toNat = value [a,b,c,d] := by
  have first := a.toNat_lt
  have second := b.toNat_lt
  have third := c.toNat_lt
  have fourth := d.toNat_lt
  simp only [UInt32.toNat_or,UInt32.toNat_shiftLeft,UInt8.toNat_toUInt32,value]
  change a.toNat ||| b.toNat <<< 8 % 2 ^ 32 ||| c.toNat <<< 16 % 2 ^ 32 ||| d.toNat <<< 24 % 2 ^ 32 = _
  have two : a.toNat ||| b.toNat <<< 8 = a.toNat + 2 ^ 8 * b.toNat := or_shiftLeft _ first
  have three : a.toNat + 2 ^ 8 * b.toNat ||| c.toNat <<< 16 = a.toNat + 2 ^ 8 * b.toNat + 2 ^ 16 * c.toNat :=
    or_shiftLeft _ (by omega)
  have four : a.toNat + 2 ^ 8 * b.toNat + 2 ^ 16 * c.toNat ||| d.toNat <<< 24 =
      a.toNat + 2 ^ 8 * b.toNat + 2 ^ 16 * c.toNat + 2 ^ 24 * d.toNat := or_shiftLeft _ (by omega)
  rw [Nat.mod_eq_of_lt (by rw [Nat.shiftLeft_eq]; omega),Nat.mod_eq_of_lt (by rw [Nat.shiftLeft_eq]; omega),
    Nat.mod_eq_of_lt (by rw [Nat.shiftLeft_eq]; omega),two,three,four]
  omega

theorem ofNat_congr {n m : Nat} (same : n % 256 = m % 256) : UInt8.ofNat n = UInt8.ofNat m := by
  apply UInt8.toNat.inj
  rw [UInt8.toNat_ofNat',UInt8.toNat_ofNat']
  exact same

theorem bytes16 (v : UInt16) : [v.toUInt8,(v >>> 8).toUInt8] = bytes 2 v.toNat := by
  have high : (v >>> 8).toNat = v.toNat / 256 := by
    rw [UInt16.toNat_shiftRight]
    exact Nat.shiftRight_eq_div_pow _ 8
  change [UInt8.ofNat v.toNat,UInt8.ofNat (v >>> 8).toNat] = [UInt8.ofNat (v.toNat % 256),UInt8.ofNat (v.toNat / 256 % 256)]
  rw [high,ofNat_congr (Nat.mod_mod v.toNat 256),ofNat_congr (Nat.mod_mod (v.toNat / 256) 256)]

theorem bytes32 (v : UInt32) : [v.toUInt8,(v >>> 8).toUInt8,(v >>> 16).toUInt8,(v >>> 24).toUInt8] = bytes 4 v.toNat := by
  have shifted {k : UInt32} {n : Nat} (amount : k.toNat % 32 = n) : (v >>> k).toNat = v.toNat / 2 ^ n := by
    rw [UInt32.toNat_shiftRight,amount,Nat.shiftRight_eq_div_pow]
  change [UInt8.ofNat v.toNat,UInt8.ofNat (v >>> 8).toNat,UInt8.ofNat (v >>> 16).toNat,UInt8.ofNat (v >>> 24).toNat] =
    [UInt8.ofNat (v.toNat % 256),UInt8.ofNat (v.toNat / 256 % 256),UInt8.ofNat (v.toNat / 256 / 256 % 256),
      UInt8.ofNat (v.toNat / 256 / 256 / 256 % 256)]
  rw [shifted (n := 8) rfl,shifted (n := 16) rfl,shifted (n := 24) rfl]
  simp only [ofNat_congr (Nat.mod_mod _ 256),Nat.div_div_eq_div_mul]
  rfl

end WarpLoop.Lib.LittleEndian
