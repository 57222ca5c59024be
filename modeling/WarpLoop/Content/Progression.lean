import Mathlib.Algebra.Order.Ring.Int
import Mathlib.Algebra.BigOperators.Group.List.Basic
import WarpLoop.Lib.Assoc
import WarpLoop.Lib.Replay
import WarpLoop.Scheme.Numbers

/-! The inventory, affinity gate and credit reducer of a profile
(flow-toolchain/riscv-guests/content/progression.scm), over the numbers of the interpreter:
credits that leave the 64 bits are rounded, and no integer any more. -/
namespace WarpLoop.Content.Progression
open Lib.Replay Lib.Assoc Lib.Runs Scheme

def filter {α : Type} (pred : α → Bool) : List α → List α
  | [] => []
  | first::rest => if pred first then first::filter pred rest else filter pred rest

structure Profile where
  credits : Number
  affinity : Number
  items : List (Int64 × Number)
  arts : List Int64
  deriving DecidableEq

def initialProfile : Profile := ⟨200,15,[],[]⟩

def artCost (a : Int64) : Int := if a = 1 then 100 else if a = 2 then 250 else 500

def artAffinityReq (a : Int64) : Int := if a = 1 then 10 else if a = 2 then 25 else 40

def countOf (p : Profile) (item : Int64) : Number :=
  match p.items.lookup item with
  | some n => n
  | none => 0

def addItem (p : Profile) (item : Int64) (d : Number) : Profile :=
  if (p.items.lookup item).isSome then
    {p with items := p.items.map (fun e => if e.1 = item then (e.1,e.2.add d) else e)}
  else {p with items := p.items ++ [(item,d)]}

def removeItem (p : Profile) (item : Int64) : Profile :=
  let left := p.items.map (fun e => if e.1 = item then (e.1,e.2.sub 1) else e)
  {p with items := filter (fun e => Number.less 0 e.2) left}

/-- Anything that is none of the four known events is `other`. -/
inductive Event where
  | grant (item : Int64)
  | sell (item price : Int64)
  | buyArt (art : Int64)
  | train
  | other
  deriving DecidableEq,Repr

inductive Output where
  | granted (item : Int64)
  | refusedNoItem (item : Int64)
  | sold (item price : Int64)
  | refusedDup (art : Int64)
  | refusedGate (art : Int64)
  | refusedPoor (art : Int64)
  | learned (art : Int64)
  | trained (a : Number)
  deriving DecidableEq

def progressionStep (p : Profile) (event : Event) : Profile × List Output :=
  match event with
  | .grant item => (addItem p item 1,[.granted item])
  | .sell item price =>
    if (countOf p item).equal 0 then (p,[.refusedNoItem item])
    else (removeItem {p with credits := p.credits.add (.integer price)} item,[.sold item price])
  | .buyArt art =>
    if art ∈ p.arts then (p,[.refusedDup art])
    else if p.affinity.less (.fixnum (artAffinityReq art)) then (p,[.refusedGate art])
    else if p.credits.less (.fixnum (artCost art)) then (p,[.refusedPoor art])
    else ({p with credits := p.credits.sub (.fixnum (artCost art)),arts := p.arts ++ [art]},[.learned art])
  | .train =>
    let a := p.affinity.addOne
    ({p with affinity := a},[.trained a])
  | .other => (p,[])

def progressionReplay (events : List Event) : Profile × List Output := replay progressionStep initialProfile events

/-- The sum that the event forms in this state has 64 bits. -/
def Within (p : Profile) : Event → Prop
  | .grant item => (countOf p item).Adds 1
  | .sell item price => (countOf p item).equal 0 = false → p.credits.Adds price.toInt
  | .train => p.affinity.Adds 1
  | _ => True

instance (p : Profile) (event : Event) : Decidable (Within p event) := by
  cases event <;> unfold Within <;> infer_instance

/-- The replays in which no sum leaves the 64 bits. -/
def StaysWithin (events : List Event) : Prop := Along (fun p event => (progressionStep p event).1) Within initialProfile events

instance (events : List Event) : Decidable (StaysWithin events) :=
  inferInstanceAs (Decidable (Along (fun p event => (progressionStep p event).1) Within initialProfile events))

/-! The inventory: every item once, with a positive count. -/

structure Stocked (items : List (Int64 × Number)) : Prop where
  distinct : (keys items).Nodup
  positive : ∀ entry ∈ items, ∃ n, entry.2.Is n ∧ 0 < n

theorem filter_eq {α : Type} (pred : α → Bool) (entries : List α) : filter pred entries = entries.filter pred := by
  induction entries with
  | nil => rfl
  | cons first rest ih =>
    rw [filter,ih,List.filter_cons]

theorem countOf_eq (p : Profile) (item : Int64) : countOf p item = (p.items.lookup item).getD 0 := by
  unfold countOf
  cases p.items.lookup item <;> rfl

theorem addItem_frame (p : Profile) (item : Int64) (d : Number) :
    (addItem p item d).credits = p.credits ∧ (addItem p item d).affinity = p.affinity ∧
      (addItem p item d).arts = p.arts := by
  unfold addItem
  split_ifs <;> exact ⟨rfl,rfl,rfl⟩

theorem countOf_of_mem {p : Profile} (stocked : Stocked p.items) {entry : Int64 × Number} (member : entry ∈ p.items) :
    countOf p entry.1 = entry.2 := by
  rw [countOf_eq,lookup_of_mem stocked.distinct member]
  rfl

theorem addItem_stocked {p : Profile} (stocked : Stocked p.items) {item : Int64} (room : (countOf p item).Adds 1) :
    Stocked (addItem p item 1).items := by
  unfold addItem
  split_ifs with known
  · change Stocked (adjust item (·.add 1) p.items)
    constructor
    · rw [keys_adjust]
      exact stocked.distinct
    · intro entry member
      obtain ⟨old,held,rfl⟩ := List.mem_map.mp member
      obtain ⟨n,counted,some_left⟩ := stocked.positive old held
      split_ifs with own
      · rw [← own,countOf_of_mem stocked held] at room
        exact ⟨n + 1,counted.add Number.one_is (counted.adds room),by omega⟩
      · exact ⟨n,counted,some_left⟩
  · have absent : item ∉ keys p.items := by
      intro listed
      obtain ⟨entry,member,same⟩ := List.mem_map.mp listed
      exact known (List.lookup_isSome_iff.mpr ⟨entry,member,by simp [same]⟩)
    constructor
    · simpa [keys] using List.Nodup.concat absent stocked.distinct
    · intro entry member
      rcases List.mem_append.mp member with held | fresh
      · exact stocked.positive entry held
      · rw [List.mem_singleton.mp fresh]
        exact ⟨1,Number.one_is,by decide⟩

theorem countOf_addItem {p : Profile} {item asked : Int64} {n : Int} (room : (countOf p item).Adds 1)
    (counted : (countOf p asked).Is n) :
    (countOf (addItem p item 1) asked).Is (n + if asked = item then 1 else 0) := by
  rw [countOf_eq] at counted ⊢
  unfold addItem
  split_ifs with known own own
  · subst own
    change (((adjust asked (·.add 1) p.items).lookup asked).getD 0).Is (n + 1)
    rw [countOf_eq] at room
    rw [lookup_adjust,if_pos rfl]
    obtain ⟨count,found⟩ := Option.isSome_iff_exists.mp known
    rw [found] at counted room ⊢
    exact counted.add Number.one_is (counted.adds room)
  · change (((adjust item (·.add 1) p.items).lookup asked).getD 0).Is (n + 0)
    rwa [lookup_adjust,if_neg own,Int.add_zero]
  · subst own
    have missing : p.items.lookup asked = none := Option.not_isSome_iff_eq_none.mp known
    rw [missing] at counted
    obtain rfl : n = 0 := counted.unique Number.zero_is
    simpa [List.lookup_append,missing] using Number.one_is
  · have apart : (asked == item) = false := beq_eq_false_iff_ne.mpr own
    simpa [List.lookup_append,List.lookup_cons,apart] using counted

theorem removeItem_items (p : Profile) (item : Int64) :
    (removeItem p item).items = (adjust item (·.sub 1) p.items).filter (fun entry => Number.less 0 entry.2) :=
  filter_eq _ _

/-- One less than a positive count is an integer. -/
theorem sub_one_is {x : Number} {n : Int} (counted : x.Is n) (some_left : 0 < n) : (x.sub 1).Is (n - 1) := by
  have fits := counted.fits
  exact counted.sub Number.one_is ⟨by unfold Fits at fits; omega,by unfold Fits at fits; omega⟩

theorem removeItem_stocked {p : Profile} (stocked : Stocked p.items) (item : Int64) :
    Stocked (removeItem p item).items := by
  rw [removeItem_items]
  constructor
  · apply nodup_keys_filter
    rw [keys_adjust]
    exact stocked.distinct
  · intro entry member
    obtain ⟨adjusted,kept⟩ := List.mem_filter.mp member
    obtain ⟨n,counted⟩ : ∃ n, entry.2.Is n := by
      obtain ⟨old,held,rfl⟩ := List.mem_map.mp adjusted
      obtain ⟨n,counted,some_left⟩ := stocked.positive old held
      split_ifs
      · exact ⟨_,sub_one_is counted some_left⟩
      · exact ⟨n,counted⟩
    rw [Number.zero_is.less counted] at kept
    exact ⟨n,counted,of_decide_eq_true kept⟩

theorem countOf_removeItem {p : Profile} (stocked : Stocked p.items) {item asked : Int64} {n : Int}
    (held : (countOf p item).equal 0 = false) (counted : (countOf p asked).Is n) :
    (countOf (removeItem p item) asked).Is (n - if asked = item then 1 else 0) := by
  have distinct : (keys (adjust item (·.sub 1) p.items)).Nodup := by
    rw [keys_adjust]
    exact stocked.distinct
  rw [countOf_eq] at counted
  rw [countOf_eq,removeItem_items,lookup_filter_values distinct (fun count => Number.less 0 count),lookup_adjust]
  cases found : p.items.lookup asked with
  | none =>
    rw [found] at counted
    obtain rfl : n = 0 := counted.unique Number.zero_is
    split_ifs with own
    · subst own
      rw [countOf_eq,found] at held
      exact absurd held (by decide)
    · simpa using Number.zero_is
  | some count =>
    rw [found] at counted
    obtain ⟨m,same,some_left⟩ := stocked.positive (asked,count) (mem_of_lookup found)
    obtain rfl : n = m := counted.unique same
    split_ifs
    · have left := sub_one_is same some_left
      rcases eq_or_lt_of_le (show 1 ≤ n by omega) with last | more
      · subst last
        have gone : Number.less 0 (count.sub 1) = false := by rw [Number.zero_is.less left]; rfl
        simpa [Option.filter,gone] using Number.zero_is
      · have kept : Number.less 0 (count.sub 1) = true := by
          rw [Number.zero_is.less left]
          exact decide_eq_true (by omega)
        simpa [Option.filter,kept] using left
    · have kept : Number.less 0 count = true := by
        rw [Number.zero_is.less same]
        exact decide_eq_true some_left
      simpa [Option.filter,kept] using same

/-! The ledger: what the outputs so far say the profile must hold. -/

def soldPrice : Output → Int
  | .sold _ price => price.toInt
  | _ => 0

def learnedArt : Output → Option Int64
  | .learned art => some art
  | _ => none

def isTrained : Output → Bool
  | .trained _ => true
  | _ => false

def isGranted (item : Int64) : Output → Bool
  | .granted other => other == item
  | _ => false

def isSold (item : Int64) : Output → Bool
  | .sold other _ => other == item
  | _ => false

def learnedArts (outputs : List Output) : List Int64 := outputs.filterMap learnedArt

structure Ledger (p : Profile) (outputs : List Output) : Prop where
  credits : p.credits.Is (200 + (outputs.map soldPrice).sum - ((learnedArts outputs).map artCost).sum)
  affinity : p.affinity.Is (15 + outputs.countP isTrained)
  arts : p.arts = learnedArts outputs
  artsDistinct : p.arts.Nodup
  counts : ∀ item, (countOf p item).Is (outputs.countP (isGranted item) - outputs.countP (isSold item))
  stocked : Stocked p.items

/-- One more output is booked when the profile changes by just what the output says. -/
theorem Ledger.book {p p' : Profile} {outputs : List Output} (ledger : Ledger p outputs) (output : Output)
    (credits : ∀ n, p.credits.Is n → p'.credits.Is (n + soldPrice output - ((learnedArt output).toList.map artCost).sum))
    (affinity : ∀ n, p.affinity.Is n → p'.affinity.Is (n + (isTrained output).toNat))
    (arts : p'.arts = p.arts ++ (learnedArt output).toList) (artsDistinct : p'.arts.Nodup)
    (counts : ∀ item n, (countOf p item).Is n →
      (countOf p' item).Is (n + (isGranted item output).toNat - (isSold item output).toNat))
    (stocked : Stocked p'.items) : Ledger p' (outputs ++ [output]) := by
  have learned : learnedArts (outputs ++ [output]) = learnedArts outputs ++ (learnedArt output).toList := by
    simp only [learnedArts,List.filterMap_append,List.filterMap_cons,List.filterMap_nil]
    cases learnedArt output <;> rfl
  have counted : ∀ test : Output → Bool,
      ((outputs ++ [output]).countP test : Int) = outputs.countP test + (test output).toNat := by
    intro test
    rw [List.countP_append,List.countP_singleton,Nat.cast_add]
    cases test output <;> rfl
  refine ⟨?_,?_,?_,artsDistinct,?_,stocked⟩
  · convert credits _ ledger.credits using 1
    rw [learned]
    simp only [List.map_append,List.sum_append,List.map_cons,List.map_nil,List.sum_cons,List.sum_nil]
    omega
  · convert affinity _ ledger.affinity using 1
    rw [counted]
    omega
  · rw [arts,ledger.arts,learned]
  · intro item
    convert counts item _ (ledger.counts item) using 1
    rw [counted,counted]
    omega

theorem Ledger.refused {p : Profile} {outputs : List Output} (ledger : Ledger p outputs) (output : Output)
    (noPrice : soldPrice output = 0) (noArt : learnedArt output = none) (noTraining : isTrained output = false)
    (noItem : ∀ item, isGranted item output = false ∧ isSold item output = false) : Ledger p (outputs ++ [output]) := by
  apply ledger.book output
  · intro n here
    simpa [noPrice,noArt] using here
  · intro n here
    simpa [noTraining] using here
  · simp [noArt]
  · exact ledger.artsDistinct
  · intro item n here
    simpa [noItem item] using here
  · exact ledger.stocked

/-- What is paid is there, so that the rest is an integer. -/
theorem paid_is {x : Number} {n cost : Int} (held : x.Is n) (price : 0 ≤ cost) (small : cost < 2^63)
    (enough : x.less (.fixnum cost) = false) : (x.sub (.fixnum cost)).Is (n - cost) ∧ cost ≤ n := by
  have paid := Number.fixnum_is (⟨by omega,small⟩ : Fits cost)
  rw [held.less paid,decide_eq_false_iff_not] at enough
  have fits := held.fits
  exact ⟨held.sub paid ⟨by unfold Fits at fits; omega,by unfold Fits at fits; omega⟩,by omega⟩

theorem artCost_small (art : Int64) : 0 ≤ artCost art ∧ artCost art < 2^63 := by
  unfold artCost
  split_ifs <;> decide

/-- An art that is learned is paid for. -/
theorem learned_is {p : Profile} {art : Int64} {n : Int} (held : p.credits.Is n)
    (enough : p.credits.less (.fixnum (artCost art)) = false) :
    (p.credits.sub (.fixnum (artCost art))).Is (n - artCost art) ∧ artCost art ≤ n :=
  paid_is held (artCost_small art).1 (artCost_small art).2 enough

theorem progressionStep_ledger {p : Profile} {outputs : List Output} (ledger : Ledger p outputs) {event : Event}
    (within : Within p event) : Ledger (progressionStep p event).1 (outputs ++ (progressionStep p event).2) := by
  cases event with
  | grant item =>
    obtain ⟨sameCredits,sameAffinity,sameArts⟩ := addItem_frame p item 1
    apply ledger.book (.granted item)
    · intro n here
      simpa [progressionStep,soldPrice,learnedArt,sameCredits] using here
    · intro n here
      simpa [progressionStep,isTrained,sameAffinity] using here
    · simpa [progressionStep,learnedArt] using sameArts
    · exact sameArts ▸ ledger.artsDistinct
    · intro asked n here
      have added := countOf_addItem within here
      rcases eq_or_ne asked item with rfl | other
      · simpa [progressionStep,isGranted,isSold] using added
      · have apart : (item == asked) = false := beq_eq_false_iff_ne.mpr other.symm
        simpa [progressionStep,isGranted,isSold,other,apart] using added
    · exact addItem_stocked ledger.stocked within
  | sell item price =>
    simp only [progressionStep]
    split_ifs with missing
    · exact ledger.refused _ rfl rfl rfl (fun _ => ⟨rfl,rfl⟩)
    · have held : (countOf p item).equal 0 = false := by simpa using missing
      apply ledger.book (.sold item price)
      · intro n here
        simpa [removeItem,soldPrice,learnedArt] using here.add (Number.integer_is price) (here.adds (within held))
      · intro n here
        simpa [removeItem,isTrained] using here
      · simp [removeItem,learnedArt]
      · exact ledger.artsDistinct
      · intro asked n here
        have taken := @countOf_removeItem {p with credits := p.credits.add (.integer price)} ledger.stocked item asked n
          held here
        rcases eq_or_ne asked item with rfl | other
        · simpa [isGranted,isSold] using taken
        · have apart : (item == asked) = false := beq_eq_false_iff_ne.mpr other.symm
          simpa [isGranted,isSold,other,apart] using taken
      · exact removeItem_stocked ledger.stocked item
  | buyArt art =>
    simp only [progressionStep]
    split_ifs with known gate poor
    · exact ledger.refused _ rfl rfl rfl (fun _ => ⟨rfl,rfl⟩)
    · exact ledger.refused _ rfl rfl rfl (fun _ => ⟨rfl,rfl⟩)
    · exact ledger.refused _ rfl rfl rfl (fun _ => ⟨rfl,rfl⟩)
    · apply ledger.book (.learned art)
      · intro n here
        simpa [soldPrice,learnedArt] using (learned_is here (by simpa using poor)).1
      · intro n here
        simpa [isTrained] using here
      · simp [learnedArt]
      · simpa using List.Nodup.concat known ledger.artsDistinct
      · intro asked n here
        simpa [isGranted,isSold,countOf] using here
      · exact ledger.stocked
  | train =>
    apply ledger.book (.trained p.affinity.addOne)
    · intro n here
      simpa [progressionStep,soldPrice,learnedArt] using here
    · intro n here
      simpa [progressionStep,isTrained] using here.addOne (here.adds within)
    · simp [progressionStep,learnedArt]
    · exact ledger.artsDistinct
    · intro asked n here
      simpa [progressionStep,isGranted,isSold,countOf] using here
    · exact ledger.stocked
  | other =>
    simp only [progressionStep,List.append_nil]
    exact ledger

theorem initialProfile_ledger : Ledger initialProfile [] where
  credits := Number.fixnum_is (by decide : Fits 200)
  affinity := Number.fixnum_is (by decide : Fits 15)
  arts := rfl
  artsDistinct := List.nodup_nil
  counts := fun _ => Number.zero_is
  stocked := ⟨List.nodup_nil,by simp [initialProfile]⟩

theorem progressionReplay_ledger (events : List Event) (within : StaysWithin events) :
    Ledger (progressionReplay events).1 (progressionReplay events).2 := by
  apply replay_invariant_along progressionStep Within (fun _ p outputs => Ledger p outputs) initialProfile _ _ events within
  · exact initialProfile_ledger
  · intro _ p outputs event ledger here
    exact progressionStep_ledger ledger here

-- The golden vector of the guest's own test.
example : (progressionReplay [.grant 1,.grant 1,.sell 1 50,.train,.buyArt 1]).1 = ⟨150,16,[(1,1)],[1]⟩ := by
  decide +kernel

def PricesNonneg (events : List Event) : Prop := ∀ item price, Event.sell item price ∈ events → 0 ≤ price.toInt

def Solvent (p : Profile) : Prop := ∃ n, p.credits.Is n ∧ 0 ≤ n

theorem progressionStep_solvent {p : Profile} (solvent : Solvent p) {event : Event} (within : Within p event)
    (fair : ∀ item price, event = .sell item price → 0 ≤ price.toInt) : Solvent (progressionStep p event).1 := by
  obtain ⟨n,held,nonneg⟩ := solvent
  cases event with
  | grant item =>
    refine ⟨n,?_,nonneg⟩
    rw [progressionStep,(addItem_frame p item 1).1]
    exact held
  | sell item price =>
    have paid := fair item price rfl
    simp only [progressionStep]
    split_ifs with missing
    · exact ⟨n,held,nonneg⟩
    · have some_left : (countOf p item).equal 0 = false := by simpa using missing
      exact ⟨_,held.add (Number.integer_is price) (held.adds (within some_left)),by omega⟩
  | buyArt art =>
    simp only [progressionStep]
    split_ifs with known gate poor
    · exact ⟨n,held,nonneg⟩
    · exact ⟨n,held,nonneg⟩
    · exact ⟨n,held,nonneg⟩
    · obtain ⟨left,enough⟩ := learned_is held (by simpa using poor)
      exact ⟨_,left,by omega⟩
  | train => exact ⟨n,held,nonneg⟩
  | other => exact ⟨n,held,nonneg⟩

theorem progressionReplay_solvent (events : List Event) (within : StaysWithin events) (fair : PricesNonneg events) :
    Solvent (progressionReplay events).1 := by
  have kept := replay_invariant_along progressionStep Within (fun events p _ => PricesNonneg events → Solvent p)
    initialProfile ?first ?keeps events within fair
  case first => exact fun _ => ⟨200,Number.fixnum_is (by decide),by decide⟩
  case keeps =>
    intro events p _ event before here fair
    refine progressionStep_solvent (before ?_) here ?_
    · intro item price sells
      exact fair item price (List.mem_append_left _ sells)
    · intro item price sells
      exact fair item price (List.mem_append_right _ (by simp [sells]))
  exact kept

/-- What a replay must leave: the outputs account for the profile, and with prices that are
not negative no credits below zero are ever reached. -/
structure Laws (events : List Event) : Prop where
  ledger : Ledger (progressionReplay events).1 (progressionReplay events).2
  solvent : PricesNonneg events → ∀ before after, events = before ++ after → Solvent (progressionReplay before).1

theorem progressionReplay_laws (events : List Event) (within : StaysWithin events) : Laws events := by
  refine ⟨progressionReplay_ledger events within,?_⟩
  rintro fair before after rfl
  apply progressionReplay_solvent before ((along_append _ _ _ before after).mp within).1
  intro item price sells
  exact fair item price (List.mem_append_left after sells)

/-- A sale up to the greatest integer, a purchase from it, refusals and a trained affinity. -/
def tradedEvents : List Event :=
  [.grant 7,.grant 7,.buyArt 3,.sell 7 9223372036854775607,.sell 8 1,.train,.buyArt 1,.buyArt 1,.sell 7 100]

theorem progressionReplay_laws_traded : StaysWithin tradedEvents ∧ Laws tradedEvents :=
  ⟨by decide +kernel,progressionReplay_laws tradedEvents (by decide +kernel)⟩

/-- The price is an integer and the credits behind it are none. -/
theorem sale_past_the_integers : ¬ Laws [.grant 1,.sell 1 9223372036854775807] := by
  intro laws
  have rounded : (progressionReplay [.grant 1,.sell 1 9223372036854775807]).1.credits = .real (.ofModel (.ofInt (2^63))) := by
    decide +kernel
  have credits := laws.ledger.credits
  rw [rounded] at credits
  exact Number.not_real_is _ _ credits

end WarpLoop.Content.Progression
