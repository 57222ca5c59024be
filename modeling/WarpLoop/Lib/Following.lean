import WarpLoop.Lib.Outcome

/-! A computation that follows another one where a condition holds: it fails when the
other fails, and with the condition it gives the same result. Without the condition
its results, if it has any, are told apart by a relation. -/
namespace WarpLoop.Lib.Following
open Lib.Outcome

universe u v

variable {ε ε' : Type u} {α β γ : Type v}

structure Follows (P : Prop) (D : α → α → Prop) (x : Except ε α) (y : Except ε' α) : Prop where
  rejects : ∀ e, x = .error e → ∃ e', y = .error e'
  agrees : ∀ a, x = .ok a → P → y = .ok a
  differs : ∀ a b, x = .ok a → ¬ P → y = .ok b → D a b

variable {P Q : Prop} {D : α → α → Prop} {E : β → β → Prop} {F : γ → γ → Prop}

theorem Follows.pure (a : α) : Follows True D (.ok a : Except ε α) (.ok a : Except ε' α) where
  rejects := fun _ failed => by cases failed
  agrees := fun _ same _ => by rw [Except.ok.inj same]
  differs := fun _ _ _ absurd_ => absurd trivial absurd_

theorem Follows.throw (P : Prop) (D : α → α → Prop) (e : ε) (e' : ε') :
    Follows P D (.error e : Except ε α) (.error e' : Except ε' α) where
  rejects := fun _ _ => ⟨e',rfl⟩
  agrees := fun _ same => by cases same
  differs := fun _ _ same => by cases same

theorem Follows.of_iff {x : Except ε α} {y : Except ε' α} (follows : Follows P D x y) (same : P ↔ Q) :
    Follows Q D x y := by
  rwa [← propext same]

theorem Follows.map2 {x : Except ε α} {y : Except ε' α} {x' : Except ε β} {y' : Except ε' β}
    (first : Follows P D x y) (second : Follows Q E x' y') (h : α → β → γ)
    (left : ∀ a b c d, D a b → F (h a c) (h b d)) (right : ∀ a c d, E c d → F (h a c) (h a d)) :
    Follows (P ∧ Q) F (x >>= fun a => x' >>= fun c => Pure.pure (h a c))
      (y >>= fun a => y' >>= fun c => Pure.pure (h a c)) := by
  refine ⟨?_,?_,?_⟩
  · intro e failed
    cases x with
    | error e =>
      obtain ⟨e',rfl⟩ := first.rejects e rfl
      exact ⟨e',rfl⟩
    | ok a =>
      cases x' with
      | error e =>
        obtain ⟨e',rfl⟩ := second.rejects e rfl
        cases y with
        | error e => exact ⟨e,rfl⟩
        | ok b => exact ⟨e',rfl⟩
      | ok c => cases failed
  · intro result done both
    simp only [bind_eq_ok,pure_eq_ok] at done
    obtain ⟨a,ranX,c,ranX',rfl⟩ := done
    simp only [bind_eq_ok,pure_eq_ok]
    exact ⟨a,first.agrees a ranX both.1,c,second.agrees c ranX' both.2,rfl⟩
  · intro result result' done fails done'
    simp only [bind_eq_ok,pure_eq_ok] at done done'
    obtain ⟨a,ranX,c,ranX',rfl⟩ := done
    obtain ⟨b,ranY,d,ranY',rfl⟩ := done'
    by_cases holds : P
    · obtain rfl := Except.ok.inj ((first.agrees a ranX holds).symm.trans ranY)
      exact right a c d (second.differs c d ranX' (fun other => fails ⟨holds,other⟩) ranY')
    · exact left a b c d (first.differs a b ranX holds ranY)

theorem Follows.map {x : Except ε α} {y : Except ε' α} (follows : Follows P D x y) (h : α → γ)
    (tells : ∀ a b, D a b → F (h a) (h b)) :
    Follows P F (x >>= fun a => Pure.pure (h a)) (y >>= fun a => Pure.pure (h a)) := by
  refine ⟨?_,?_,?_⟩
  · intro e failed
    cases x with
    | error e =>
      obtain ⟨e',rfl⟩ := follows.rejects e rfl
      exact ⟨e',rfl⟩
    | ok a => cases failed
  · intro result done holds
    simp only [bind_eq_ok,pure_eq_ok] at done ⊢
    obtain ⟨a,ran,rfl⟩ := done
    exact ⟨a,follows.agrees a ran holds,rfl⟩
  · intro result result' done fails done'
    simp only [bind_eq_ok,pure_eq_ok] at done done'
    obtain ⟨a,ran,rfl⟩ := done
    obtain ⟨b,ran',rfl⟩ := done'
    exact tells a b (follows.differs a b ran fails ran')

/-! Lists that differ. -/

def Differ (x y : List α) : Prop := ∃ (i : Nat) (a b : α), x[i]? = some a ∧ y[i]? = some b ∧ a ≠ b

theorem Differ.ne {x y : List α} (differ : Differ x y) : x ≠ y := by
  rintro rfl
  obtain ⟨i,a,b,first,second,apart⟩ := differ
  exact apart (Option.some.inj (first.symm.trans second))

theorem Differ.append_right {x y : List α} (differ : Differ x y) (s t : List α) : Differ (x ++ s) (y ++ t) := by
  obtain ⟨i,a,b,first,second,apart⟩ := differ
  have inX := (List.getElem?_eq_some_iff.mp first).1
  have inY := (List.getElem?_eq_some_iff.mp second).1
  exact ⟨i,a,b,by rw [List.getElem?_append_left inX,first],by rw [List.getElem?_append_left inY,second],apart⟩

theorem Differ.append_left {x y : List α} (differ : Differ x y) (p : List α) : Differ (p ++ x) (p ++ y) := by
  obtain ⟨i,a,b,first,second,apart⟩ := differ
  refine ⟨p.length + i,a,b,?_,?_,apart⟩
  · rw [List.getElem?_append_right (Nat.le_add_right _ _),Nat.add_sub_cancel_left,first]
  · rw [List.getElem?_append_right (Nat.le_add_right _ _),Nat.add_sub_cancel_left,second]

theorem Differ.cons {x y : List α} (differ : Differ x y) (c : α) : Differ (c::x) (c::y) := differ.append_left [c]

/-- Two lists whose first different elements are told apart. -/
inductive FirstDiffer (D : α → α → Prop) : List α → List α → Prop
  | here {a b : α} (xs ys : List α) : D a b → FirstDiffer D (a::xs) (b::ys)
  | later (a : α) {xs ys : List α} : FirstDiffer D xs ys → FirstDiffer D (a::xs) (a::ys)

theorem Follows.mapM {f : β → Except ε α} {g : β → Except ε' α} {holds : β → Prop} (items : List β)
    (each : ∀ b ∈ items, Follows (holds b) D (f b) (g b)) :
    Follows (∀ b ∈ items, holds b) (FirstDiffer D) (items.mapM f) (items.mapM g) := by
  induction items with
  | nil =>
    refine (Follows.pure []).of_iff ?_
    simp
  | cons item rest ih =>
    have later := ih (fun b inside => each b (List.mem_cons_of_mem _ inside))
    rw [List.mapM_cons,List.mapM_cons]
    refine Follows.of_iff (Follows.map2 (each item List.mem_cons_self) later List.cons ?_ ?_) ?_
    · intro a b c d told
      exact .here c d told
    · intro a c d told
      exact .later a told
    · exact List.forall_mem_cons.symm

end WarpLoop.Lib.Following
