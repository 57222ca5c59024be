import WarpLoop.Lib.Words

/-! The loot table and its generator (flow-toolchain/riscv-guests/content/loot.scm), in exact
integers, beside the same definitions of flow-toolchain/riscv-guests/shrubbery/loot.shrub. -/
namespace WarpLoop.Content.Loot
open Lib.Words

def logand (x y : Int) : Int := Int.land x y

def logxor (x y : Int) : Int := Int.xor x y

def ash (x n : Int) : Int := x <<< n

def u32 (x : Int) : Int := logand x 0xFFFFFFFF

def xorshift32Next32 (s : Int) : Int :=
  let s1 := u32 (logxor s (u32 (ash s 13)))
  let s2 := u32 (logxor s1 (ash s1 (-17)))
  let s3 := u32 (logxor s2 (u32 (ash s2 5)))
  s3

def rngRange (seed bound : Int) : Int := if bound = 0 then 0 else (xorshift32Next32 seed).fmod bound

section Table
variable {α : Type} [Zero α]

def totalWeight (table : List (α × Int)) : Int := loop table 0
where
  loop : List (α × Int) → Int → Int
    | [],acc => acc
    | entry :: t,acc => loop t (acc + entry.2)

def pick : List (α × Int) → Int → Int → α
  | [],_,_ => 0
  | entry :: rest,r,acc =>
    let item := entry.1
    let w := entry.2
    let newAcc := acc + w
    if r < newAcc then item else pick rest r newAcc

def lootRoll (seed : Int) (table : List (α × Int)) : α :=
  let tot := totalWeight table
  if tot = 0 then 0 else pick table (rngRange seed tot) 0

end Table

namespace Shrub

def u32 (x : Int) : Int := logand x 0xFFFFFFFF

def xorshift32Next32 (s0 : Int) : Int :=
  let s1 := u32 (logxor s0 (u32 (ash s0 13)))
  let s2 := u32 (logxor s1 (ash s1 (-17)))
  let s3 := u32 (logxor s2 (u32 (ash s2 5)))
  s3

def rngRange (seed bound : Int) : Int := if bound = 0 then 0 else (xorshift32Next32 seed).fmod bound

variable {α : Type} [Zero α]

def totalWeightLoop (t : List (α × Int)) (acc : Int) : Int :=
  match t with
  | [] => acc
  | entry :: t => totalWeightLoop t (acc + entry.2)

def totalWeight (table : List (α × Int)) : Int := totalWeightLoop table 0

def pick (table : List (α × Int)) (r acc : Int) : α :=
  match table with
  | [] => 0
  | entry :: rest =>
    let item := entry.1
    let w := entry.2
    let newAcc := acc + w
    if r < newAcc then item else pick rest r newAcc

def lootRoll (seed : Int) (table : List (α × Int)) : α :=
  let tot := totalWeight table
  if tot = 0 then 0 else pick table (rngRange seed tot) 0

omit [Zero α] in
theorem totalWeightLoop_eq (table : List (α × Int)) (acc : Int) : totalWeightLoop table acc = totalWeight.loop table acc := by
  induction table generalizing acc with
  | nil => rfl
  | cons entry rest ih => exact ih (acc + entry.2)

theorem pick_eq (table : List (α × Int)) (r acc : Int) : pick table r acc = Loot.pick table r acc := by
  induction table generalizing acc with
  | nil => rfl
  | cons entry rest ih =>
    unfold pick Loot.pick
    dsimp only
    rw [ih]

theorem lootRoll_eq (seed : Int) (table : List (α × Int)) : lootRoll seed table = Loot.lootRoll seed table := by
  have same : totalWeight table = Loot.totalWeight table := totalWeightLoop_eq table 0
  unfold lootRoll Loot.lootRoll
  rw [same]
  dsimp only
  rw [pick_eq]
  rfl

end Shrub

/-! The generator on 32-bit words. -/

def xorshift (x : BitVec 32) : BitVec 32 :=
  let x1 := x ^^^ x <<< 13
  let x2 := x1 ^^^ x1 >>> 17
  x2 ^^^ x2 <<< 5

theorem u32_eq (x : Int) : u32 x = (BitVec.ofInt 32 x).toNat := land_mask 32 x

theorem ofInt_toNat (x : BitVec 32) : BitVec.ofInt 32 (x.toNat : Int) = x := by
  rw [BitVec.ofInt_natCast,BitVec.ofNat_toNat,BitVec.setWidth_eq]

theorem u32_xor_left (x : Int) (n : Nat) : u32 (logxor x (u32 (ash x n))) =
    (BitVec.ofInt 32 x ^^^ BitVec.ofInt 32 x <<< n).toNat := by
  rw [u32_eq,logxor,ofInt_xor,u32_eq,ofInt_toNat,ash,ofInt_shiftLeft]

theorem u32_xor_right (x : BitVec 32) (n : Nat) : u32 (logxor x.toNat (ash x.toNat (-(n : Int)))) = (x ^^^ x >>> n).toNat := by
  have shifted : ((x.toNat >>> n : Nat) : Int) = (x >>> n).toNat := by rw [BitVec.toNat_ushiftRight]
  rw [u32_eq,logxor,ofInt_xor,ofInt_toNat,ash,shiftLeft_neg_natCast,shifted,ofInt_toNat]

/-- Every integer is a seed, and only its residue counts. -/
theorem xorshift32Next32_eq (seed : Int) : xorshift32Next32 seed = (xorshift (BitVec.ofInt 32 seed)).toNat := by
  have first := u32_xor_left seed 13
  have second := u32_xor_right (BitVec.ofInt 32 seed ^^^ BitVec.ofInt 32 seed <<< 13) 17
  unfold xorshift32Next32 xorshift
  dsimp only
  rw [show (13 : Int) = (13 : Nat) from rfl,first,show (-17 : Int) = -(17 : Nat) from rfl,second,
    show (5 : Int) = (5 : Nat) from rfl,u32_xor_left,ofInt_toNat]

theorem xorshift_injective : Function.Injective xorshift := by
  intro x y same
  have third := xor_shiftLeft_injective (show 0 < 5 by decide) same
  have second := xor_ushiftRight_injective (show 0 < 17 by decide) third
  exact xor_shiftLeft_injective (show 0 < 13 by decide) second

theorem toNat_ofInt {seed : Int} (lower : 0 ≤ seed) (upper : seed < 2 ^ 32) : ((BitVec.ofInt 32 seed).toNat : Int) = seed := by
  rw [BitVec.toNat_ofInt]
  omega

theorem xorshift32Next32_bijOn : Set.BijOn xorshift32Next32 (Set.Ico 0 (2 ^ 32)) (Set.Ico 0 (2 ^ 32)) := by
  refine ⟨?_,?_,?_⟩
  · intro seed _
    have bound := (xorshift (BitVec.ofInt 32 seed)).isLt
    rw [xorshift32Next32_eq,Set.mem_Ico]
    omega
  · rintro seed ⟨lower,upper⟩ other ⟨lower',upper'⟩ same
    rw [xorshift32Next32_eq,xorshift32Next32_eq,Int.natCast_inj] at same
    have words := xorshift_injective (BitVec.eq_of_toNat_eq same)
    rw [← toNat_ofInt lower upper,← toNat_ofInt lower' upper',words]
  · rintro y ⟨lower,upper⟩
    have finite : Finite (BitVec 32) := Finite.of_equiv _ BitVec.equivFin.toEquiv.symm
    obtain ⟨x,image⟩ := (Finite.surjective_of_injective xorshift_injective) (BitVec.ofInt 32 y)
    have bound := x.isLt
    refine ⟨x.toNat,⟨by omega,by omega⟩,?_⟩
    rw [xorshift32Next32_eq,ofInt_toNat,image,toNat_ofInt lower upper]

/-! The walk over a table whose items are the positions of its entries, so that equal items
stay distinct. -/

section Walk
variable {α : Type}

def numberedFrom (n : Nat) : List (α × Int) → List (Nat × Int)
  | [] => []
  | entry :: rest => (n,entry.2) :: numberedFrom (n + 1) rest

/-- Entry `k` is numbered `k + 1`, since the walk returns zero off the end. -/
def numbered (table : List (α × Int)) : List (Nat × Int) := numberedFrom 1 table

/-- The weight of the first `k` entries. -/
def before (table : List (α × Int)) (k : Nat) : Int := ((table.take k).map Prod.snd).sum

theorem before_nil (k : Nat) : before ([] : List (α × Int)) k = 0 := by
  rw [before,List.take_nil,List.map_nil,List.sum_nil]

theorem before_zero (table : List (α × Int)) : before table 0 = 0 := rfl

theorem before_succ (entry : α × Int) (rest : List (α × Int)) (k : Nat) :
    before (entry :: rest) (k + 1) = entry.2 + before rest k := rfl

theorem before_nonneg {table : List (α × Int)} (natural : ∀ entry ∈ table, 0 ≤ entry.2) (k : Nat) : 0 ≤ before table k := by
  apply List.sum_nonneg
  intro w member
  obtain ⟨entry,listed,rfl⟩ := List.mem_map.mp member
  exact natural entry (List.mem_of_mem_take listed)

theorem before_step (table : List (α × Int)) (k : Nat) (inside : k < table.length) :
    before table (k + 1) = before table k + table[k].2 := by
  unfold before
  rw [List.take_add_one,List.getElem?_eq_getElem inside,List.map_append,List.sum_append]
  simp

theorem before_le {table : List (α × Int)} (natural : ∀ entry ∈ table, 0 ≤ entry.2) (k : Nat) :
    before table k ≤ before table table.length := by
  unfold before
  rw [List.take_length]
  apply ((List.take_sublist k table).map Prod.snd).sum_le_sum
  intro w member
  obtain ⟨entry,listed,rfl⟩ := List.mem_map.mp member
  exact natural entry listed

theorem loop_eq (table : List (α × Int)) (acc : Int) : totalWeight.loop table acc = acc + before table table.length := by
  induction table generalizing acc with
  | nil => simp [totalWeight.loop,before]
  | cons entry rest ih =>
    rw [totalWeight.loop,ih,List.length_cons,before_succ]
    omega

theorem totalWeight_eq (table : List (α × Int)) : totalWeight table = before table table.length := by
  rw [totalWeight,loop_eq,Int.zero_add]

theorem before_numbered (table : List (α × Int)) (n k : Nat) : before (numberedFrom n table) k = before table k := by
  induction table generalizing n k with
  | nil => rw [numberedFrom,before_nil,before_nil]
  | cons entry rest ih =>
    cases k with
    | zero => rfl
    | succ k => rw [numberedFrom,before_succ,before_succ,ih]

theorem length_numbered (table : List (α × Int)) (n : Nat) : (numberedFrom n table).length = table.length := by
  induction table generalizing n with
  | nil => rfl
  | cons entry rest ih => rw [numberedFrom,List.length_cons,List.length_cons,ih]

theorem totalWeight_numbered (table : List (α × Int)) : totalWeight (numbered table) = totalWeight table := by
  rw [totalWeight_eq,totalWeight_eq,numbered,length_numbered,before_numbered]

/-- Off the end the walk returns zero, and otherwise the number of an entry. -/
theorem pick_numbered_range (table : List (α × Int)) (n : Nat) (r acc : Int) :
    pick (numberedFrom n table) r acc = 0 ∨ n ≤ pick (numberedFrom n table) r acc := by
  induction table generalizing n acc with
  | nil => exact .inl rfl
  | cons entry rest ih =>
    rw [numberedFrom,pick]
    dsimp only
    split
    · exact .inr (Nat.le_refl n)
    · rcases ih (n + 1) (acc + entry.2) with zero | later
      · exact .inl zero
      · exact .inr (Nat.le_of_succ_le later)

/-- Entry `k` is picked on the interval between the weight before it and the weight up to it. -/
theorem pick_numbered_iff {table : List (α × Int)} (natural : ∀ entry ∈ table, 0 ≤ entry.2) {n : Nat} (positive : 0 < n)
    {r acc : Int} (reached : acc ≤ r) {k : Nat} (inside : k < table.length) :
    pick (numberedFrom n table) r acc = n + k ↔ acc + before table k ≤ r ∧ r < acc + before table (k + 1) := by
  induction table generalizing n acc k with
  | nil => exact absurd inside (Nat.not_lt_zero k)
  | cons entry rest ih =>
    have natural' : ∀ other ∈ rest, 0 ≤ other.2 := fun other member => natural other (List.mem_cons_of_mem entry member)
    rw [numberedFrom,pick]
    dsimp only
    split
    case isTrue here =>
      cases k with
      | zero =>
        rw [before_succ,before_zero,before_zero]
        omega
      | succ k =>
        have nonneg := before_nonneg natural' k
        rw [before_succ]
        omega
    case isFalse past =>
      cases k with
      | zero =>
        have range := pick_numbered_range rest (n + 1) r (acc + entry.2)
        rw [before_succ,before_zero,before_zero]
        omega
      | succ k =>
        have later := ih natural' (Nat.succ_pos n) (show acc + entry.2 ≤ r by omega) (Nat.lt_of_succ_lt_succ inside)
        rw [before_succ,before_succ,show n + (k + 1) = n + 1 + k by omega,later]
        omega

/-- The walk over the table itself returns the item of the entry that it picks. -/
theorem pick_eq_getElem [Zero α] {table : List (α × Int)} {n : Nat} {r acc : Int} {k : Nat} (positive : 0 < n)
    (inside : k < table.length) (picked : pick (numberedFrom n table) r acc = n + k) : pick table r acc = table[k].1 := by
  induction table generalizing n acc k with
  | nil => exact absurd inside (Nat.not_lt_zero k)
  | cons entry rest ih =>
    rw [numberedFrom,pick] at picked
    rw [pick]
    dsimp only at picked ⊢
    split at picked
    case isTrue here =>
      have first : k = 0 := by omega
      subst first
      rw [if_pos here]
      rfl
    case isFalse past =>
      rw [if_neg past]
      cases k with
      | zero =>
        have range := pick_numbered_range rest (n + 1) r (acc + entry.2)
        omega
      | succ k => exact ih (Nat.succ_pos n) (Nat.lt_of_succ_lt_succ inside) (picked.trans (by omega))

/-- The intervals cover everything below the whole weight. -/
theorem covered (table : List (α × Int)) {r acc : Int} (reached : acc ≤ r) (below : r < acc + before table table.length) :
    ∃ k < table.length, acc + before table k ≤ r ∧ r < acc + before table (k + 1) := by
  induction table generalizing acc with
  | nil =>
    rw [before_nil] at below
    omega
  | cons entry rest ih =>
    rw [List.length_cons,before_succ] at below
    by_cases here : r < acc + entry.2
    · refine ⟨0,Nat.succ_pos _,?_⟩
      rw [before_succ,before_zero,before_zero]
      omega
    · obtain ⟨k,inside,lower,upper⟩ := ih (show acc + entry.2 ≤ r by omega) (by omega)
      refine ⟨k + 1,Nat.succ_lt_succ inside,?_,?_⟩
      · rw [before_succ]
        omega
      · rw [before_succ]
        omega

end Walk

/-! The odds of a table. -/

/-- A positive weight gave the entry with this number and item. -/
def Entry {α : Type} (table : List (α × Int)) (number : Nat) (item : α) : Prop :=
  ∃ k, ∃ inside : k < table.length, number = k + 1 ∧ item = table[k].1 ∧ 0 < table[k].2

structure Odds {α : Type} [Zero α] (table : List (α × Int)) : Prop where
  picks : ∀ r, 0 ≤ r → r < totalWeight table → Entry table (pick (numbered table) r 0) (pick table r 0)
  rolls : ∀ seed, Entry table (lootRoll seed (numbered table)) (lootRoll seed table)
  residues : ∀ k (_ : k < table.length),
    ((Finset.Ico 0 (totalWeight table)).filter (fun r => pick (numbered table) r 0 = k + 1)).card = table[k].2
  seeds : totalWeight table ∣ 2 ^ 32 → ∀ k (_ : k < table.length),
    ((Finset.Ico 0 (2 ^ 32)).filter (fun seed => lootRoll seed (numbered table) = k + 1)).card =
      table[k].2 * 2 ^ 32 / totalWeight table

section Odds
variable {α : Type} [Zero α] {table : List (α × Int)} (natural : ∀ entry ∈ table, 0 ≤ entry.2)
include natural

theorem pick_entry {r : Int} (lower : 0 ≤ r) (upper : r < totalWeight table) :
    Entry table (pick (numbered table) r 0) (pick table r 0) := by
  rw [totalWeight_eq] at upper
  obtain ⟨k,inside,above,below⟩ := covered table lower (by omega)
  have picked : pick (numbered table) r 0 = 1 + k :=
    (pick_numbered_iff natural Nat.one_pos lower inside).mpr ⟨above,below⟩
  have step := before_step table k inside
  exact ⟨k,inside,picked.trans (Nat.add_comm 1 k),pick_eq_getElem Nat.one_pos inside picked,by omega⟩

omit [Zero α] in
theorem card_residues {k : Nat} (inside : k < table.length) :
    ((Finset.Ico 0 (totalWeight table)).filter (fun r => pick (numbered table) r 0 = k + 1)).card = table[k].2 := by
  have step := before_step table k inside
  have lower := before_nonneg natural k
  have weight := natural table[k] (List.getElem_mem inside)
  have upper : before table (k + 1) ≤ totalWeight table := by
    rw [totalWeight_eq]
    exact before_le natural (k + 1)
  have interval : (Finset.Ico 0 (totalWeight table)).filter (fun r => pick (numbered table) r 0 = k + 1) =
      Finset.Ico (before table k) (before table (k + 1)) := by
    ext r
    rw [Finset.mem_filter,Finset.mem_Ico,Finset.mem_Ico]
    constructor
    · rintro ⟨⟨nonneg,_⟩,picked⟩
      have bounds := (pick_numbered_iff natural Nat.one_pos nonneg inside).mp (picked.trans (Nat.add_comm k 1))
      omega
    · rintro ⟨above,below⟩
      have picked := (pick_numbered_iff natural Nat.one_pos (show 0 ≤ r by omega) inside).mpr ⟨by omega,by omega⟩
      exact ⟨⟨by omega,by omega⟩,picked.trans (Nat.add_comm 1 k)⟩
  rw [interval,Int.card_Ico]
  omega

end Odds

section Roll
variable {α : Type} [Zero α] {table : List (α × Int)} (positive : 0 < totalWeight table)
include positive

theorem lootRoll_eq_pick (seed : Int) :
    lootRoll seed table = pick table (xorshift32Next32 seed % totalWeight table) 0 := by
  rw [lootRoll,rngRange,if_neg (by omega),if_neg (by omega),Int.fmod_eq_emod_of_nonneg _ (by omega)]

omit [Zero α] in
/-- Over all seeds, what the residues select counts once for every period. -/
theorem card_seeds (divides : totalWeight table ∣ 2 ^ 32) (p : Int → Prop) [DecidablePred p] :
    (((Finset.Ico 0 (2 ^ 32)).filter (fun seed => p (xorshift32Next32 seed % totalWeight table))).card : Int) =
      2 ^ 32 / totalWeight table * ((Finset.Ico 0 (totalWeight table)).filter p).card := by
  obtain ⟨periods,whole⟩ := divides
  have nonneg : 0 ≤ periods := by
    by_contra negative
    have below := Int.mul_neg_of_pos_of_neg positive (Int.not_le.mp negative)
    omega
  lift periods to Nat using nonneg
  have permuted : ((Finset.Ico 0 (2 ^ 32)).filter (fun seed => p (xorshift32Next32 seed % totalWeight table))).card =
      ((Finset.Ico 0 (2 ^ 32)).filter (fun y => p (y % totalWeight table))).card := by
    obtain ⟨into,injective,onto⟩ := xorshift32Next32_bijOn
    apply Finset.card_bij (fun seed _ => xorshift32Next32 seed)
    · intro seed member
      obtain ⟨range,holds⟩ := Finset.mem_filter.mp member
      exact Finset.mem_filter.mpr ⟨Finset.mem_Ico.mpr (into (Finset.mem_Ico.mp range)),holds⟩
    · intro seed member other member' same
      have range := Finset.mem_Ico.mp (Finset.mem_filter.mp member).1
      have range' := Finset.mem_Ico.mp (Finset.mem_filter.mp member').1
      exact injective range range' same
    · intro y member
      obtain ⟨range,holds⟩ := Finset.mem_filter.mp member
      obtain ⟨seed,bounds,rfl⟩ := onto (Finset.mem_Ico.mp range)
      exact ⟨seed,Finset.mem_filter.mpr ⟨Finset.mem_Ico.mpr bounds,holds⟩,rfl⟩
  rw [permuted,whole,card_filter_emod p positive,Int.mul_ediv_cancel_left _ (by omega),Int.natCast_mul]

end Roll

/-- The generator is the 32-bit one on every integer and a permutation of the 32-bit numbers.
In a table of natural weights, every roll returns an entry of positive weight, every entry
is picked by as many residues as it weighs and, if the whole weight divides `2 ^ 32`, rolled by
as many seeds as its share. Both programs return the same item. -/
theorem loot_odds_exact {α : Type} [Zero α] :
    (∀ seed, xorshift32Next32 seed = (xorshift (BitVec.ofInt 32 seed)).toNat) ∧
      Set.BijOn xorshift32Next32 (Set.Ico 0 (2 ^ 32)) (Set.Ico 0 (2 ^ 32)) ∧
      (∀ table : List (α × Int), (∀ entry ∈ table, 0 ≤ entry.2) → 0 < totalWeight table → Odds table) ∧
      ∀ seed (table : List (α × Int)), Shrub.lootRoll seed table = lootRoll seed table := by
  refine ⟨xorshift32Next32_eq,xorshift32Next32_bijOn,?_,Shrub.lootRoll_eq⟩
  intro table natural positive
  have numbered_positive : 0 < totalWeight (numbered table) := by rwa [totalWeight_numbered]
  constructor
  · exact fun r => pick_entry natural
  · intro seed
    rw [lootRoll_eq_pick numbered_positive,lootRoll_eq_pick positive,totalWeight_numbered]
    exact pick_entry natural (Int.emod_nonneg _ (by omega)) (Int.emod_lt_of_pos _ positive)
  · exact fun k => card_residues natural
  · intro divides k inside
    simp only [lootRoll_eq_pick numbered_positive,totalWeight_numbered]
    rw [card_seeds positive divides (fun r => pick (numbered table) r 0 = k + 1),card_residues natural inside,
      Int.mul_ediv_assoc _ divides,Int.mul_comm]

theorem loot_odds_exact_coin : Odds [((1 : Int),(3 : Int)),(2,0),(1,1)] :=
  loot_odds_exact.2.2.1 _ (by decide) (by decide)

end WarpLoop.Content.Loot
