import Mathlib.Data.List.Basic

/-! A debounced register. It keeps its value and takes over another one only when that one has been read often
enough without a break; it stores nothing but the value it is asked to take over and how often that was read. -/
namespace WarpLoop.Lib.Debounce

variable {α : Type*} [DecidableEq α]

/-- How many of the latest readings are `x`, up to the last one that is not. -/
def trailing (x : α) (readings : List α) : Nat := (readings.reverse.takeWhile (fun y => y = x)).length

theorem trailing_concat (x y : α) (readings : List α) :
    trailing x (readings ++ [y]) = if y = x then trailing x readings + 1 else 0 := by
  by_cases same : y = x <;> simp [trailing,same]

structure Register (α : Type*) where
  value : α
  pending : Option α
  streak : Nat

namespace Register

/-- How often `x`, read once more, has then been read. -/
def count (r : Register α) (x : α) : Nat := if r.pending = some x then r.streak + 1 else 1

/-- One reading; `enough` says how many of them it takes at this moment. -/
def read (r : Register α) (x : α) (enough : Nat → Prop) [DecidablePred enough] : Register α :=
  if x = r.value then ⟨x,none,0⟩ else if enough (r.count x) then ⟨x,none,0⟩ else ⟨r.value,some x,r.count x⟩

/-- The register counts as if it remembered all readings. -/
def Counts (r : Register α) (readings : List α) : Prop := ∀ x, x ≠ r.value → r.count x = trailing x readings + 1

theorem counts_fresh (x : α) (readings : List α) : (⟨x,none,0⟩ : Register α).Counts (readings ++ [x]) := by
  intro y apart
  rw [trailing_concat,if_neg (Ne.symm apart)]
  rfl

variable {r : Register α} {readings : List α}

theorem Counts.read (counts : r.Counts readings) (x : α) (enough : Nat → Prop) [DecidablePred enough] :
    (r.read x enough).Counts (readings ++ [x]) := by
  unfold Register.read
  split
  · exact counts_fresh x readings
  rename_i away
  split
  · exact counts_fresh x readings
  intro y apart
  rw [trailing_concat]
  by_cases same : x = y
  · subst same
    rw [if_pos rfl,← counts x away]
    simp [count]
  · rw [if_neg same]
    simp [count,same]

end Register

end WarpLoop.Lib.Debounce
