import Mathlib.Data.Fintype.Card
import Mathlib.Logic.Relation
import Mathlib.SetTheory.Cardinal.Finite

/-! Connected components of a graph that is given edge by edge, and the forest of parents that
keeps track of them: two trees become one where an edge joins their roots. -/
namespace WarpLoop.Lib.Components
variable {α : Type*}

/-! The components. -/

def Edge (edges : List (α × α)) (a b : α) : Prop := (a,b) ∈ edges

abbrev Joined (edges : List (α × α)) : α → α → Prop := Relation.EqvGen (Edge edges)

/-- How many components the edges leave. -/
noncomputable def components (edges : List (α × α)) : Nat := Nat.card (Quot (Edge edges))

theorem joined_nil {a b : α} : Joined [] a b ↔ a = b := by
  constructor
  · intro joined
    induction joined with
    | rel a b edge => exact absurd edge List.not_mem_nil
    | refl a => rfl
    | symm a b _ ih => exact ih.symm
    | trans a b c _ _ first second => exact first.trans second
  · rintro rfl
    exact Relation.EqvGen.refl a

theorem joined_mono {first second : List (α × α)} (sub : ∀ edge ∈ first, edge ∈ second) {a b : α} (joined : Joined first a b) :
    Joined second a b :=
  Relation.EqvGen.mono (fun a b edge => sub (a,b) edge) _ _ joined

/-- A new edge joins what hangs on its one end with what hangs on the other. -/
theorem joined_concat {edges : List (α × α)} {a b x y : α} : Joined (edges ++ [(a,b)]) x y ↔
    Joined edges x y ∨ Joined edges x a ∧ Joined edges b y ∨ Joined edges x b ∧ Joined edges a y := by
  constructor
  · intro joined
    induction joined with
    | rel x y edge =>
      rcases List.mem_append.mp edge with old | new
      · exact Or.inl (Relation.EqvGen.rel x y old)
      · obtain ⟨rfl,rfl⟩ := Prod.mk.inj (List.mem_singleton.mp new)
        exact Or.inr (Or.inl ⟨Relation.EqvGen.refl x,Relation.EqvGen.refl y⟩)
    | refl x => exact Or.inl (Relation.EqvGen.refl x)
    | symm x y _ ih =>
      rcases ih with old | ⟨left,right⟩ | ⟨left,right⟩
      · exact Or.inl old.symm
      · exact Or.inr (Or.inr ⟨right.symm,left.symm⟩)
      · exact Or.inr (Or.inl ⟨right.symm,left.symm⟩)
    | trans x y z _ _ first second =>
      rcases first with old | ⟨left,right⟩ | ⟨left,right⟩ <;> rcases second with old' | ⟨left',right'⟩ | ⟨left',right'⟩
      · exact Or.inl (old.trans _ _ _ old')
      · exact Or.inr (Or.inl ⟨old.trans _ _ _ left',right'⟩)
      · exact Or.inr (Or.inr ⟨old.trans _ _ _ left',right'⟩)
      · exact Or.inr (Or.inl ⟨left,right.trans _ _ _ old'⟩)
      · exact Or.inr (Or.inl ⟨left,right'⟩)
      · exact Or.inl (left.trans _ _ _ right')
      · exact Or.inr (Or.inr ⟨left,right.trans _ _ _ old'⟩)
      · exact Or.inl (left.trans _ _ _ right')
      · exact Or.inr (Or.inr ⟨left,right'⟩)
  · have old : ∀ edge ∈ edges, edge ∈ edges ++ [(a,b)] := fun edge member => List.mem_append_left _ member
    have new : Joined (edges ++ [(a,b)]) a b := Relation.EqvGen.rel a b (List.mem_append_right _ List.mem_cons_self)
    rintro (joined | ⟨left,right⟩ | ⟨left,right⟩)
    · exact joined_mono old joined
    · exact ((joined_mono old left).trans _ _ _ new).trans _ _ _ (joined_mono old right)
    · exact ((joined_mono old left).trans _ _ _ new.symm).trans _ _ _ (joined_mono old right)

/-! Forests. -/

/-- The root above an element. -/
inductive Reaches (parent : α → α) : α → α → Prop
  | root {r : α} : parent r = r → Reaches parent r r
  | step {i r : α} : parent i ≠ i → Reaches parent (parent i) r → Reaches parent i r

section Reaches
variable {parent : α → α} {i j r s : α}

theorem Reaches.isRoot (reaches : Reaches parent i r) : parent r = r := by
  induction reaches with
  | root fixed => exact fixed
  | step _ _ ih => exact ih

theorem Reaches.unique (first : Reaches parent i r) (second : Reaches parent i s) : r = s := by
  induction first with
  | root fixed =>
    cases second with
    | root => rfl
    | step moves => exact absurd fixed moves
  | step moves _ ih =>
    cases second with
    | root fixed => exact absurd fixed moves
    | step _ later => exact ih later

theorem Reaches.exists_iterate (reaches : Reaches parent i r) : ∃ k, parent^[k] i = r := by
  induction reaches with
  | root => exact ⟨0,rfl⟩
  | step _ _ ih =>
    obtain ⟨k,reached⟩ := ih
    exact ⟨k + 1,reached⟩

/-- As many steps as there are elements lead to the root: before it none comes twice. -/
theorem Reaches.iterate_card [Fintype α] (reaches : Reaches parent i r) : parent^[Fintype.card α] i = r := by
  classical
  have reached := Nat.find_spec reaches.exists_iterate
  have least := fun k => Nat.find_min (m := k) reaches.exists_iterate
  generalize Nat.find reaches.exists_iterate = k at reached least
  have distinct : ∀ a < k + 1, ∀ b < k + 1, parent^[a] i = parent^[b] i → a = b := by
    have forward : ∀ a b, a < b → b < k + 1 → parent^[a] i ≠ parent^[b] i := by
      intro a b before below same
      apply least (k - b + a) (by omega)
      rw [Function.iterate_add_apply,same,← Function.iterate_add_apply,show k - b + b = k by omega]
      exact reached
    intro a ha b hb same
    rcases Nat.lt_trichotomy a b with before | equal | after
    · exact absurd same (forward a b before hb)
    · exact equal
    · exact absurd same.symm (forward b a after ha)
  have injective : Function.Injective (fun a : Fin (k + 1) => parent^[a.val] i) :=
    fun a b same => Fin.ext (distinct a a.isLt b b.isLt same)
  have size := Fintype.card_le_of_injective _ injective
  rw [Fintype.card_fin] at size
  rw [show Fintype.card α = (Fintype.card α - k) + k by omega,Function.iterate_add_apply,reached]
  exact Function.iterate_fixed reaches.isRoot _

variable [DecidableEq α]

/-- Under a root that is hung below another one, everything reaches the other one. -/
theorem Reaches.link (rooted : parent r = r) (rooted' : parent s = s) (apart : r ≠ s) {t : α} (reaches : Reaches parent i t) :
    Reaches (Function.update parent s r) i (if t = s then r else t) := by
  have top : Reaches (Function.update parent s r) r r := Reaches.root (by rw [Function.update_of_ne apart,rooted])
  induction reaches with
  | @root t fixed =>
    split
    case isTrue same =>
      rw [same]
      exact Reaches.step (by rwa [Function.update_self]) (by rwa [Function.update_self])
    case isFalse other => exact Reaches.root (by rw [Function.update_of_ne other,fixed])
  | @step i t moves _ ih =>
    have other : i ≠ s := fun same => moves (same ▸ rooted')
    refine Reaches.step (by rwa [Function.update_of_ne other]) ?_
    rwa [Function.update_of_ne other]

end Reaches

/-- The trees of the forest are the components of the edges. -/
structure Represents (parent : α → α) (edges : List (α × α)) : Prop where
  reaches : ∀ i, ∃ r, Reaches parent i r
  joined : ∀ i j r s, Reaches parent i r → Reaches parent j s → (r = s ↔ Joined edges i j)

theorem represents_id : Represents (id : α → α) [] where
  reaches i := ⟨i,Reaches.root rfl⟩
  joined i j r s first second := by
    rw [← first.unique (Reaches.root rfl),← second.unique (Reaches.root rfl),joined_nil]

section Represents
variable {parent : α → α} {edges : List (α × α)} {a b ra rb : α}

theorem Represents.same (forest : Represents parent edges) (left : Reaches parent a ra) (right : Reaches parent b ra) :
    Represents parent (edges ++ [(a,b)]) where
  reaches := forest.reaches
  joined i j r s first second := by
    have already : Joined edges a b := (forest.joined a b ra ra left right).mp rfl
    rw [forest.joined i j r s first second,joined_concat]
    constructor
    · exact Or.inl
    · rintro (old | ⟨before,after⟩ | ⟨before,after⟩)
      · exact old
      · exact (before.trans _ _ _ already).trans _ _ _ after
      · exact (before.trans _ _ _ already.symm).trans _ _ _ after

theorem Represents.link [DecidableEq α] (forest : Represents parent edges) (left : Reaches parent a ra) (right : Reaches parent b rb)
    (apart : ra ≠ rb) : Represents (Function.update parent rb ra) (edges ++ [(a,b)]) where
  reaches i := by
    obtain ⟨r,reaches⟩ := forest.reaches i
    exact ⟨_,reaches.link left.isRoot right.isRoot apart⟩
  joined i j r s first second := by
    obtain ⟨r',reaches⟩ := forest.reaches i
    obtain ⟨s',reaches'⟩ := forest.reaches j
    obtain rfl := first.unique (reaches.link left.isRoot right.isRoot apart)
    obtain rfl := second.unique (reaches'.link left.isRoot right.isRoot apart)
    rw [joined_concat,← forest.joined i j r' s' reaches reaches',← forest.joined i a r' ra reaches left,
      ← forest.joined b j rb s' right reaches',← forest.joined i b r' rb reaches right,← forest.joined a j ra s' left reaches']
    by_cases underI : r' = rb <;> by_cases underJ : s' = rb
    · simp [underI,underJ]
    · simp [underI,underJ,apart.symm,Ne.symm underJ]
    · simp [underI,underJ,eq_comm]
    · simp [underI,underJ,Ne.symm underJ]

/-- There are as many roots as components. -/
theorem Represents.card_roots [Fintype α] [DecidableEq α] (forest : Represents parent edges) :
    Fintype.card {i : α // parent i = i} = components edges := by
  have bijective : Function.Bijective (fun i : {i : α // parent i = i} => Quot.mk (Edge edges) i.val) := by
    constructor
    · intro i j same
      apply Subtype.ext
      exact (forest.joined i j i j (Reaches.root i.property) (Reaches.root j.property)).mpr (Quot.eqvGen_exact same)
    · intro q
      obtain ⟨i,rfl⟩ := Quot.exists_rep q
      obtain ⟨r,reaches⟩ := forest.reaches i
      refine ⟨⟨r,reaches.isRoot⟩,?_⟩
      exact Quot.eqvGen_sound ((forest.joined r i r r (Reaches.root reaches.isRoot) reaches).mp rfl)
  rw [components,← Nat.card_eq_fintype_card]
  exact Nat.card_eq_of_bijective _ bijective

theorem Represents.exists (edges : List (α × α)) : ∃ parent : α → α, Represents parent edges := by
  classical
  induction edges using List.reverseRecOn with
  | nil => exact ⟨id,represents_id⟩
  | append_singleton edges edge ih =>
    obtain ⟨a,b⟩ := edge
    obtain ⟨parent,forest⟩ := ih
    obtain ⟨ra,left⟩ := forest.reaches a
    obtain ⟨rb,right⟩ := forest.reaches b
    by_cases same : ra = rb
    · subst same
      exact ⟨parent,forest.same left right⟩
    · exact ⟨_,forest.link left right same⟩

theorem card_roots_link [Fintype α] [DecidableEq α] (rooted : parent rb = rb) (apart : ra ≠ rb) :
    Fintype.card {i : α // Function.update parent rb ra i = i} + 1 = Fintype.card {i : α // parent i = i} := by
  have roots : Finset.univ.filter (fun i => Function.update parent rb ra i = i) =
      (Finset.univ.filter (fun i => parent i = i)).erase rb := by
    ext i
    rw [Finset.mem_erase,Finset.mem_filter_univ,Finset.mem_filter_univ]
    by_cases here : i = rb
    · simp [here,apart]
    · simp [here]
  rw [Fintype.card_subtype,Fintype.card_subtype,roots,Finset.card_erase_add_one (by simp [rooted])]

/-- An edge either closes a loop or leaves one component less. -/
theorem components_concat [Fintype α] (edges : List (α × α)) (a b : α) :
    Joined edges a b ∧ components (edges ++ [(a,b)]) = components edges ∨
      ¬ Joined edges a b ∧ components (edges ++ [(a,b)]) + 1 = components edges := by
  classical
  obtain ⟨parent,forest⟩ := Represents.exists edges
  obtain ⟨ra,left⟩ := forest.reaches a
  obtain ⟨rb,right⟩ := forest.reaches b
  have joined := forest.joined a b ra rb left right
  by_cases same : ra = rb
  · subst same
    exact Or.inl ⟨joined.mp rfl,by rw [← (forest.same left right).card_roots,forest.card_roots]⟩
  · refine Or.inr ⟨fun already => same (joined.mpr already),?_⟩
    rw [← (forest.link left right same).card_roots,← forest.card_roots]
    exact card_roots_link right.isRoot same

end Represents

/-! Loops. -/

open Classical in
/-- How many edges run between ends that the edges before them join already. -/
noncomputable def closing (edges : List (α × α)) : Nat :=
  ((Finset.range edges.length).filter (fun k => ∃ a b, edges[k]? = some (a,b) ∧ Joined (edges.take k) a b)).card

open Classical in
theorem closing_concat (edges : List (α × α)) (a b : α) :
    closing (edges ++ [(a,b)]) = closing edges + if Joined edges a b then 1 else 0 := by
  have earlier : ∀ k ∈ Finset.range edges.length, (∃ x y, (edges ++ [(a,b)])[k]? = some (x,y) ∧ Joined ((edges ++ [(a,b)]).take k) x y) ↔
      ∃ x y, edges[k]? = some (x,y) ∧ Joined (edges.take k) x y := by
    intro k below
    rw [Finset.mem_range] at below
    rw [List.getElem?_append_left below,List.take_append_of_le_length below.le]
  have last : (∃ x y, (edges ++ [(a,b)])[edges.length]? = some (x,y) ∧ Joined ((edges ++ [(a,b)]).take edges.length) x y) ↔
      Joined edges a b := by
    rw [List.getElem?_concat_length,List.take_left]
    constructor
    · rintro ⟨x,y,same,joined⟩
      obtain ⟨rfl,rfl⟩ := Prod.mk.inj (Option.some.inj same)
      exact joined
    · exact fun joined => ⟨a,b,rfl,joined⟩
  rw [closing,closing,List.length_append,List.length_singleton,Finset.range_add_one,Finset.filter_insert,
    Finset.filter_congr earlier]
  simp only [last]
  split
  case isTrue => rw [Finset.card_insert_of_notMem (by simp)]
  case isFalse => rfl

/-- The edges that close a loop are what is left of all edges after a spanning forest. -/
theorem closing_add_card [Fintype α] (edges : List (α × α)) : closing edges + Fintype.card α = edges.length + components edges := by
  induction edges using List.reverseRecOn with
  | nil =>
    classical
    have roots := (represents_id (α := α)).card_roots
    rw [← roots]
    simp [closing]
  | append_singleton edges edge ih =>
    obtain ⟨a,b⟩ := edge
    rw [closing_concat,List.length_append,List.length_singleton]
    rcases components_concat edges a b with ⟨already,count⟩ | ⟨fresh,count⟩
    · rw [if_pos already]
      omega
    · rw [if_neg fresh]
      omega

end WarpLoop.Lib.Components
