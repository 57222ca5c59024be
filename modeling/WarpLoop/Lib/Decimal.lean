import Mathlib.Data.Nat.Digits.Defs

/-! Decimal numerals as lists of digit values, the most significant first: their value,
the fold that readers compute it with, and the numeral that a printer writes. Leading
zeros are allowed in what is read and never written. -/
namespace WarpLoop.Lib.Decimal

def value (digits : List Nat) : Nat := Nat.ofDigits 10 digits.reverse

@[simp] theorem value_nil : value [] = 0 := rfl

theorem value_cons (d : Nat) (digits : List Nat) : value (d::digits) = d * 10^digits.length + value digits := by
  simp [value,Nat.ofDigits_append]
  ring

theorem foldl_eq (digits : List Nat) (start : Nat) :
    digits.foldl (fun n d => n * 10 + d) start = start * 10^digits.length + value digits := by
  induction digits generalizing start with
  | nil => simp
  | cons d digits ih =>
    rw [List.foldl_cons,ih,value_cons,List.length_cons]
    ring

theorem foldl_zero (digits : List Nat) : digits.foldl (fun n d => n * 10 + d) 0 = value digits := by
  rw [foldl_eq]
  simp

theorem value_lt {digits : List Nat} (small : ∀ d ∈ digits, d < 10) : value digits < 10^digits.length := by
  have bound := Nat.ofDigits_lt_base_pow_length (by decide : 1 < 10) (fun d member => small d (List.mem_reverse.mp member))
  simpa [value] using bound

theorem value_eq_zero {digits : List Nat} : value digits = 0 ↔ ∀ d ∈ digits, d = 0 := by
  induction digits with
  | nil => simp
  | cons d digits ih => simp [value_cons,ih]

/-- Digits that are written as symbols and read back. -/
theorem value_written {ι : Type*} {write : Nat → ι} {read : ι → Nat} (inverse : ∀ d, d < 10 → read (write d) = d)
    {digits : List Nat} (small : ∀ d ∈ digits, d < 10) : value ((digits.map write).map read) = value digits := by
  have same : (digits.map write).map read = digits.map id := by
    rw [List.map_map]
    apply List.map_congr_left
    exact fun d member => inverse d (small d member)
  rw [same,List.map_id]

/-- The numeral of a number without leading zeros. -/
def numeral (n : Nat) : List Nat := if n = 0 then [0] else (Nat.digits 10 n).reverse

theorem value_numeral (n : Nat) : value (numeral n) = n := by
  unfold numeral value
  split
  · rename_i zero
    simp [zero]
  · simp [Nat.ofDigits_digits]

theorem numeral_ne_nil (n : Nat) : numeral n ≠ [] := by
  unfold numeral
  split
  · simp
  · rename_i positive
    simpa [Nat.digits_eq_nil_iff_eq_zero] using positive

theorem lt_of_mem_numeral {n d : Nat} (member : d ∈ numeral n) : d < 10 := by
  unfold numeral at member
  split at member
  · simp at member
    omega
  · exact Nat.digits_lt_base (by decide) (List.mem_reverse.mp member)

end WarpLoop.Lib.Decimal
