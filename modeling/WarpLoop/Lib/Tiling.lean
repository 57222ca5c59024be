import Mathlib.Data.Set.Lattice
import Mathlib.Order.CompletePartialOrder
import Mathlib.Order.Interval.Set.Basic

/-! Tilings of a set by named cells. A partial family of sets tiles a whole when
its members are pairwise disjoint and cover exactly the whole; taking members out
and putting fresh ones in changes the whole by just those members. -/
namespace WarpLoop.Lib

variable {ι α : Type*}

structure Tiles (cell : ι → Option (Set α)) (whole : Set α) : Prop where
  disjoint : ∀ i j A B, cell i = some A → cell j = some B → i ≠ j → Disjoint A B
  cover : ∀ x, x ∈ whole ↔ ∃ i A, cell i = some A ∧ x ∈ A

namespace Tiles

variable {cell cell' : ι → Option (Set α)} {whole : Set α}

theorem congr (tiles : Tiles cell whole) (same : ∀ i, cell' i = cell i) : Tiles cell' whole := by
  rwa [show cell' = cell from funext same]

theorem subset (tiles : Tiles cell whole) {i : ι} {A : Set α} (here : cell i = some A) : A ⊆ whole :=
  fun x inside => (tiles.cover x).mpr ⟨i,A,here,inside⟩

theorem remove (tiles : Tiles cell whole) (gone : Set ι) (taken : Set α)
    (drop : ∀ i, i ∈ gone → cell' i = none) (keep : ∀ i, i ∉ gone → cell' i = cell i)
    (exact_points : ∀ x, x ∈ taken ↔ ∃ i ∈ gone, ∃ A, cell i = some A ∧ x ∈ A) :
    Tiles cell' (whole \ taken) where
  disjoint := by
    intro i j A B hi hj apart
    have stays (k : ι) (C : Set α) (here : cell' k = some C) : cell k = some C := by
      by_cases member : k ∈ gone
      · rw [drop k member] at here; cases here
      · rwa [keep k member] at here
    exact tiles.disjoint i j A B (stays i A hi) (stays j B hj) apart
  cover := by
    intro x
    constructor
    · rintro ⟨inWhole,notTaken⟩
      obtain ⟨i,A,here,inside⟩ := (tiles.cover x).mp inWhole
      have stays : i ∉ gone := fun member => notTaken ((exact_points x).mpr ⟨i,member,A,here,inside⟩)
      exact ⟨i,A,by rw [keep i stays]; exact here,inside⟩
    · rintro ⟨i,A,here,inside⟩
      have stays : i ∉ gone := by
        intro member
        rw [drop i member] at here
        cases here
      rw [keep i stays] at here
      refine ⟨(tiles.cover x).mpr ⟨i,A,here,inside⟩,?_⟩
      intro inTaken
      obtain ⟨j,member,B,other,also⟩ := (exact_points x).mp inTaken
      have apart : i ≠ j := fun equal => stays (equal ▸ member)
      exact Set.disjoint_left.mp (tiles.disjoint i j A B here other apart) inside also

theorem insert (tiles : Tiles cell whole) (i : ι) (A : Set α) (fresh : cell i = none)
    (here : cell' i = some A) (keep : ∀ j, j ≠ i → cell' j = cell j) (apart : Disjoint A whole) :
    Tiles cell' (whole ∪ A) where
  disjoint := by
    have outside (j : ι) (B : Set α) (ne : j ≠ i) (hj : cell' j = some B) : Disjoint A B := by
      rw [keep j ne] at hj
      exact apart.mono_right (tiles.subset hj)
    intro j k B C hj hk ne
    by_cases left : j = i
    · subst j
      obtain rfl : A = B := Option.some.inj (here.symm.trans hj)
      exact outside k C ne.symm hk
    · by_cases right : k = i
      · subst k
        obtain rfl : A = C := Option.some.inj (here.symm.trans hk)
        exact (outside j B left hj).symm
      · rw [keep j left] at hj
        rw [keep k right] at hk
        exact tiles.disjoint j k B C hj hk ne
  cover := by
    intro x
    constructor
    · rintro (inWhole | inside)
      · obtain ⟨j,B,hj,inside⟩ := (tiles.cover x).mp inWhole
        have ne : j ≠ i := by
          intro equal
          rw [equal,fresh] at hj
          cases hj
        exact ⟨j,B,by rw [keep j ne]; exact hj,inside⟩
      · exact ⟨i,A,here,inside⟩
    · rintro ⟨j,B,hj,inside⟩
      by_cases same : j = i
      · subst j
        obtain rfl : A = B := Option.some.inj (here.symm.trans hj)
        exact Or.inr inside
      · rw [keep j same] at hj
        exact Or.inl (tiles.subset hj inside)

end Tiles

end WarpLoop.Lib
