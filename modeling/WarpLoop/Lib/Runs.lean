import Mathlib.Data.List.Basic

/-! Runs of a deterministic machine: folds of a step function over a list of
events, properties of every state on the way, and side conditions on every step
taken. Nothing here refers to a particular machine. -/
namespace WarpLoop.Lib.Runs

variable {σ ε : Type*}

def run (step : σ → ε → σ) (s : σ) (events : List ε) : σ := events.foldl step s

/-- `I` holds of `s` and of every state that the events reach one after another. -/
def Always (step : σ → ε → σ) (I : σ → Prop) : σ → List ε → Prop
  | s,[] => I s
  | s,event::rest => I s ∧ Always step I (step s event) rest

/-- Every event meets the side condition `C` in the state it is taken from. -/
def Along (step : σ → ε → σ) (C : σ → ε → Prop) : σ → List ε → Prop
  | _,[] => True
  | s,event::rest => C s event ∧ Along step C (step s event) rest

instance decidableAlong (step : σ → ε → σ) (C : σ → ε → Prop) [∀ s event, Decidable (C s event)] :
    (s : σ) → (events : List ε) → Decidable (Along step C s events)
  | _,[] => inferInstanceAs (Decidable True)
  | s,event::rest =>
    have := decidableAlong step C (step s event) rest
    inferInstanceAs (Decidable (_ ∧ _))

theorem run_cons (step : σ → ε → σ) (s : σ) (event : ε) (rest : List ε) :
    run step s (event::rest) = run step (step s event) rest := rfl

theorem run_append (step : σ → ε → σ) (s : σ) (first second : List ε) :
    run step s (first ++ second) = run step (run step s first) second :=
  List.foldl_append

theorem always_of_along (step : σ → ε → σ) (I : σ → Prop) (C : σ → ε → Prop)
    (keeps : ∀ s event, I s → C s event → I (step s event))
    (s : σ) (events : List ε) (start : I s) (conditions : Along step C s events) :
    Always step I s events := by
  induction events generalizing s with
  | nil => exact start
  | cons event rest ih =>
    exact ⟨start,ih (step s event) (keeps s event start conditions.1) conditions.2⟩

/-- When a step keeps the invariant exactly under its side condition, the runs
that keep it everywhere are exactly those whose steps all meet the condition. -/
theorem always_iff_along (step : σ → ε → σ) (I J : σ → Prop) (C : σ → ε → Prop)
    (exact_step : ∀ s event, J s → (I (step s event) ↔ C s event))
    (keeps : ∀ s event, J s → C s event → J (step s event))
    (sound : ∀ s, J s → I s) (s : σ) (events : List ε) (start : J s) :
    Always step I s events ↔ Along step C s events := by
  induction events generalizing s with
  | nil => exact ⟨fun _ => trivial,fun _ => sound s start⟩
  | cons event rest ih =>
    constructor
    · rintro ⟨_,later⟩
      have next : I (step s event) := by
        cases rest with
        | nil => exact later
        | cons _ _ => exact later.1
      have condition := (exact_step s event start).mp next
      exact ⟨condition,(ih _ (keeps s event start condition)).mp later⟩
    · rintro ⟨condition,later⟩
      exact ⟨sound s start,(ih _ (keeps s event start condition)).mpr later⟩

theorem always_run (step : σ → ε → σ) (I : σ → Prop) (s : σ) (events : List ε)
    (always : Always step I s events) : I (run step s events) := by
  induction events generalizing s with
  | nil => exact always
  | cons event rest ih => exact ih (step s event) always.2

theorem always_mono (step : σ → ε → σ) {I J : σ → Prop} (weaker : ∀ s, I s → J s) {s : σ} {events : List ε}
    (always : Always step I s events) : Always step J s events := by
  induction events generalizing s with
  | nil => exact weaker s always
  | cons event rest ih => exact ⟨weaker s always.1,ih always.2⟩

/-- A machine that carries another one along takes the same steps under the same conditions. -/
theorem along_carried {τ : Type*} {step : σ → ε → σ} {carry : τ → ε → τ} {C : σ → ε → Prop} (inner : τ → σ)
    (same : ∀ t event, inner (carry t event) = step (inner t) event) {t : τ} {events : List ε}
    (conditions : Along step C (inner t) events) : Along carry (fun t event => C (inner t) event) t events := by
  induction events generalizing t with
  | nil => trivial
  | cons event rest ih =>
    refine ⟨conditions.1,ih ?_⟩
    rw [same]
    exact conditions.2

theorem along_append (step : σ → ε → σ) (C : σ → ε → Prop) (s : σ) (first second : List ε) :
    Along step C s (first ++ second) ↔ Along step C s first ∧ Along step C (run step s first) second := by
  induction first generalizing s with
  | nil => simp [Along,run]
  | cons event rest ih =>
    simp only [List.cons_append,Along,ih,and_assoc]
    rfl

theorem along_and {step : σ → ε → σ} {C D : σ → ε → Prop} {s : σ} {events : List ε} (first : Along step C s events)
    (second : Along step D s events) : Along step (fun s event => C s event ∧ D s event) s events := by
  induction events generalizing s with
  | nil => trivial
  | cons event rest ih => exact ⟨⟨first.1,second.1⟩,ih first.2 second.2⟩

theorem invariant_run (step : σ → ε → σ) (I : σ → Prop)
    (keeps : ∀ s event, I s → I (step s event)) (s : σ) (events : List ε) (start : I s) :
    I (run step s events) := by
  induction events generalizing s with
  | nil => exact start
  | cons event rest ih => exact ih (step s event) (keeps s event start)

/-! Events that stand for several smaller steps. -/

variable {μ : Type*}

def expandAll (big : σ → ε → σ) (expand : σ → ε → List μ) : σ → List ε → List μ
  | _,[] => []
  | s,event::rest => expand s event ++ expandAll big expand (big s event) rest

theorem run_expandAll (big : σ → ε → σ) (small : σ → μ → σ) (expand : σ → ε → List μ)
    (refines : ∀ s event, run small s (expand s event) = big s event) (s : σ) (events : List ε) :
    run small s (expandAll big expand s events) = run big s events := by
  induction events generalizing s with
  | nil => rfl
  | cons event rest ih =>
    rw [expandAll,run_append,refines,ih,run_cons]

end WarpLoop.Lib.Runs
