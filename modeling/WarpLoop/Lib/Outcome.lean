import Mathlib.Data.List.Basic

/-! Inversion of computations that may fail with an error. -/
namespace WarpLoop.Lib.Outcome

universe u v

variable {ε : Type u} {α β : Type v}

theorem bind_eq_ok {x : Except ε α} {f : α → Except ε β} {result : β} :
    (x >>= f) = .ok result ↔ ∃ a, x = .ok a ∧ f a = .ok result := by
  cases x with
  | error e => simp [bind,Except.bind]
  | ok a => simp [bind,Except.bind]

theorem pure_eq_ok {a b : α} : (pure a : Except ε α) = .ok b ↔ a = b := by simp [pure,Except.pure]

theorem throw_eq_ok {e : ε} {a : α} : (throw e : Except ε α) = .ok a ↔ False :=
  ⟨fun same => (nomatch same),False.elim⟩

theorem if_throw_eq_ok {condition : Prop} [Decidable condition] {e : ε} {next : Except ε α} {a : α} :
    (if condition then throw e else next) = .ok a ↔ ¬ condition ∧ next = .ok a := by
  by_cases rejected : condition
  · simp [rejected,throw_eq_ok]
  · simp [rejected]

theorem mapM_eq_ok {f : α → Except ε β} {g : α → β} {items : List α} (each : ∀ item ∈ items, f item = .ok (g item)) :
    items.mapM f = .ok (items.map g) := by
  induction items with
  | nil => rfl
  | cons item rest ih =>
    rw [List.mapM_cons,each item List.mem_cons_self,ih (fun other inside => each other (List.mem_cons_of_mem _ inside))]
    rfl

/-! Whether a computation succeeds. -/

theorem isOk_ok (a : α) : (.ok a : Except ε α).isOk = true := rfl

theorem isOk_error (e : ε) : (.error e : Except ε α).isOk = false := rfl

theorem isOk_pure (a : α) : (pure a : Except ε α).isOk = true := rfl

theorem isOk_throw (e : ε) : (throw e : Except ε α).isOk = false := rfl

theorem isOk_map {x : Except ε α} (h : α → β) : (x >>= fun a => pure (h a)).isOk = x.isOk := by
  cases x <;> rfl

theorem isOk_map2 {γ : Type v} {x : Except ε α} {y : Except ε β} (h : α → β → γ) :
    (x >>= fun a => y >>= fun b => pure (h a b)).isOk = (x.isOk && y.isOk) := by
  cases x <;> cases y <;> rfl

theorem isOk_mapM {f : α → Except ε β} (items : List α) :
    (items.mapM f).isOk = true ↔ ∀ item ∈ items, (f item).isOk = true := by
  induction items with
  | nil => simp [isOk_pure]
  | cons item rest ih => rw [List.mapM_cons,isOk_map2,Bool.and_eq_true,ih,List.forall_mem_cons]

/-! Which error a computation fails with. -/

theorem pure_eq_error {a : α} {e : ε} : (pure a : Except ε α) = .error e ↔ False :=
  ⟨fun same => (nomatch same),False.elim⟩

theorem throw_eq_error {e e' : ε} : (throw e : Except ε α) = .error e' ↔ e = e' := Except.error.injEq e e' ▸ Iff.rfl

theorem map_eq_error {x : Except ε α} (h : α → β) {e : ε} : (x >>= fun a => pure (h a)) = .error e ↔ x = .error e := by
  cases x with
  | error e' => simp [bind,Except.bind]
  | ok a => simp [bind,Except.bind,pure,Except.pure]

/-- The second computation runs only after the first one. -/
theorem map2_eq_error {γ : Type v} {x : Except ε α} {y : Except ε β} (h : α → β → γ) {e : ε} :
    (x >>= fun a => y >>= fun b => pure (h a b)) = .error e ↔ x = .error e ∨ x.isOk = true ∧ y = .error e := by
  cases x with
  | error e' => simp [bind,Except.bind,isOk_error]
  | ok a =>
    have next : ((.ok a : Except ε α) >>= fun a => y >>= fun b => pure (h a b)) = (y >>= fun b => pure (h a b)) := rfl
    rw [next,map_eq_error]
    simp [isOk_ok]

theorem mapM_eq_error {f : α → Except ε β} {items : List α} {e : ε} (failed : items.mapM f = .error e) :
    ∃ item ∈ items, f item = .error e := by
  induction items with
  | nil => exact absurd failed (by simp [pure_eq_error])
  | cons item rest ih =>
    rw [List.mapM_cons,map2_eq_error] at failed
    rcases failed with first | ⟨_,later⟩
    · exact ⟨item,List.mem_cons_self,first⟩
    · obtain ⟨other,inside,fails⟩ := ih later
      exact ⟨other,List.mem_cons_of_mem _ inside,fails⟩

end WarpLoop.Lib.Outcome
