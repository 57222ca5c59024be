import Mathlib.Data.Nat.Bitwise

/-! Bytes that are written one after the other into a buffer of fixed size, and integers whose
low bits share a byte with a tag and go on, seven bits a byte, where they do not fit there. -/
namespace WarpLoop.Lib.Wire

/-! A buffer that is filled from the front: a piece that does not fit ends the writing. -/

section Put
variable {α : Type*}

def put (room : Nat) (piece written : List α) : Option (List α) :=
  if written.length + piece.length ≤ room then some (written ++ piece) else none

variable {room : Nat} {written : List α}

theorem put_eq_some {piece out : List α} (done : put room piece written = some out) :
    out = written ++ piece ∧ out.length ≤ room := by
  unfold put at done
  split at done
  case isTrue fits =>
    obtain rfl := Option.some.inj done
    exact ⟨rfl,by rwa [List.length_append]⟩
  case isFalse => contradiction

theorem put_append (first second : List α) : put room second (written ++ first) = put room (first ++ second) written := by
  rw [put,put,List.length_append,List.length_append,List.append_assoc,Nat.add_assoc]

/-- Two pieces after each other are one piece. -/
theorem put_bind (first second : List α) : (put room first written).bind (put room second) = put room (first ++ second) written := by
  by_cases fits : written.length + first.length ≤ room
  · rw [put,if_pos fits,Option.bind_some,put_append]
  · rw [put,if_neg fits,Option.bind_none,put,List.length_append,if_neg (by omega)]

theorem put_nil (fits : written.length ≤ room) : put room [] written = some written := by
  rw [put,if_pos (by rwa [List.length_nil]),List.append_nil]

end Put

/-! Integers with a prefix. -/

/-- Seven bits a byte, the lowest first, with a mark on every byte but the last. -/
def continued (n : Nat) : List UInt8 :=
  if n < 0x80 then [UInt8.ofNat n] else (0x80 ||| UInt8.ofNat (n &&& 0x7F)) :: continued (n >>> 7)
termination_by n
decreasing_by
  rw [Nat.shiftRight_eq_div_pow]
  omega

def prefixed (tag mask : UInt8) (n : Nat) : List UInt8 :=
  if n < mask.toNat then [tag ||| UInt8.ofNat n] else (tag ||| mask) :: continued (n - mask.toNat)

def readContinued : List UInt8 → Option (Nat × List UInt8)
  | [] => none
  | byte :: rest =>
    if byte < 0x80 then some (byte.toNat,rest)
    else (readContinued rest).map (fun read => (read.1 * 0x80 + (byte &&& 0x7F).toNat,read.2))

def readPrefixed (mask : UInt8) : List UInt8 → Option (Nat × List UInt8)
  | [] => none
  | byte :: rest =>
    if byte &&& mask = mask then (readContinued rest).map (fun read => (read.1 + mask.toNat,read.2))
    else some ((byte &&& mask).toNat,rest)

/-- The mask covers the low bits, which the tag leaves free. -/
structure Prefix (tag mask : UInt8) : Prop where
  free : tag &&& mask = 0
  low : ∀ n ≤ mask.toNat, UInt8.ofNat n &&& mask = UInt8.ofNat n

theorem continued_ne_nil (n : Nat) : continued n ≠ [] := by
  rw [continued]
  split <;> exact List.cons_ne_nil _ _

theorem marked {n : Nat} (small : n < 0x80) :
    ¬ 0x80 ||| UInt8.ofNat n < 0x80 ∧ ((0x80 ||| UInt8.ofNat n) &&& 0x7F).toNat = n := by
  have all : ∀ n < 0x80, ¬ 0x80 ||| UInt8.ofNat n < 0x80 ∧ ((0x80 ||| UInt8.ofNat n) &&& 0x7F).toNat = n := by
    decide +kernel
  exact all n small

theorem readContinued_append (n : Nat) (rest : List UInt8) : readContinued (continued n ++ rest) = some (n,rest) := by
  induction n using Nat.strong_induction_on with
  | _ n ih =>
    rw [continued]
    split
    case isTrue small =>
      have value : (UInt8.ofNat n).toNat = n := UInt8.toNat_ofNat_of_lt' (Nat.lt_trans small (by decide))
      have last : UInt8.ofNat n < 0x80 := by
        rw [UInt8.lt_iff_toNat_lt,value]
        exact small
      rw [List.singleton_append,readContinued,if_pos last,value]
    case isFalse large =>
      have low : n &&& 0x7F = n % 0x80 := Nat.and_two_pow_sub_one_eq_mod n 7
      have high : n >>> 7 = n / 0x80 := Nat.shiftRight_eq_div_pow n 7
      obtain ⟨more,bits⟩ := marked (show n &&& 0x7F < 0x80 by omega)
      rw [List.cons_append,readContinued,if_neg more,ih (n >>> 7) (by omega),Option.map_some,bits,low,high,Nat.div_add_mod']

/-- The first byte carries the tag over its own bits. -/
theorem prefixed_head (tag mask : UInt8) (n : Nat) :
    ∃ low ≤ mask.toNat, ∃ rest, prefixed tag mask n = (tag ||| UInt8.ofNat low) :: rest := by
  unfold prefixed
  split
  case isTrue small => exact ⟨n,Nat.le_of_lt small,[],rfl⟩
  case isFalse => exact ⟨mask.toNat,Nat.le_refl _,continued (n - mask.toNat),by rw [UInt8.ofNat_toNat]⟩

section Prefixed
variable {tag mask : UInt8} (shape : Prefix tag mask)
include shape

theorem masked {n : Nat} (small : n ≤ mask.toNat) : (tag ||| UInt8.ofNat n) &&& mask = UInt8.ofNat n := by
  have distributes : (tag ||| UInt8.ofNat n) &&& mask = tag &&& mask ||| UInt8.ofNat n &&& mask :=
    UInt8.eq_of_toBitVec_eq BitVec.and_or_distrib_right
  rw [distributes,shape.free,UInt8.zero_or,shape.low n small]

/-- An integer with a prefix is read back whatever follows it. -/
theorem readPrefixed_append (n : Nat) (rest : List UInt8) : readPrefixed mask (prefixed tag mask n ++ rest) = some (n,rest) := by
  unfold prefixed
  split
  case isTrue small =>
    have value : (UInt8.ofNat n).toNat = n := UInt8.toNat_ofNat_of_lt' (Nat.lt_trans small mask.toNat_lt)
    have short : UInt8.ofNat n ≠ mask := by
      intro same
      rw [← same,value] at small
      exact Nat.lt_irrefl n small
    rw [List.singleton_append,readPrefixed,masked shape (Nat.le_of_lt small),if_neg short,value]
  case isFalse large =>
    have full := masked shape (Nat.le_refl mask.toNat)
    rw [UInt8.ofNat_toNat] at full
    rw [List.cons_append,readPrefixed,full,if_pos rfl,readContinued_append,Option.map_some]
    dsimp only
    rw [Nat.sub_add_cancel (Nat.not_lt.mp large)]

end Prefixed

end WarpLoop.Lib.Wire
