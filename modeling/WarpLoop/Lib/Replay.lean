import Mathlib.Data.List.Induction
import WarpLoop.Lib.Runs

/-! Replays of a reducer: events are taken one after another, each step leaves a new
state and emits outputs, and the outputs of all steps are kept in order. Nothing here
refers to a particular reducer. -/
namespace WarpLoop.Lib.Replay

variable {σ ε ο : Type*} (step : σ → ε → σ × List ο)

def replayLoop : List ε → σ × List ο → σ × List ο
  | [],acc => acc
  | event::events,acc =>
    let r := step acc.1 event
    replayLoop events (r.1,acc.2 ++ r.2)

def replay (start : σ) (events : List ε) : σ × List ο := replayLoop step events (start,[])

theorem replayLoop_append (first second : List ε) (acc : σ × List ο) :
    replayLoop step (first ++ second) acc = replayLoop step second (replayLoop step first acc) := by
  induction first generalizing acc with
  | nil => rfl
  | cons event first ih => exact ih _

theorem replayLoop_outputs (events : List ε) (s : σ) (before : List ο) :
    replayLoop step events (s,before) = ((replay step s events).1,before ++ (replay step s events).2) := by
  unfold replay
  induction events generalizing s before with
  | nil => simp [replayLoop]
  | cons event events ih =>
    simp only [replayLoop,List.nil_append]
    rw [ih,ih (step s event).1 (step s event).2,List.append_assoc]

theorem replay_append (start : σ) (first second : List ε) :
    replay step start (first ++ second) =
      ((replay step (replay step start first).1 second).1,
        (replay step start first).2 ++ (replay step (replay step start first).1 second).2) := by
  rw [replay,replayLoop_append]
  exact replayLoop_outputs step second _ _

theorem replay_cons (start : σ) (event : ε) (events : List ε) :
    replay step start (event::events) =
      ((replay step (step start event).1 events).1,
        (step start event).2 ++ (replay step (step start event).1 events).2) :=
  replay_append step start [event] events

theorem replay_snoc (start : σ) (events : List ε) (event : ε) :
    replay step start (events ++ [event]) =
      ((step (replay step start events).1 event).1,
        (replay step start events).2 ++ (step (replay step start events).1 event).2) := by
  rw [replay_append]
  rfl

/-- The states alone are those of a run. -/
theorem replay_state (start : σ) (events : List ε) :
    (replay step start events).1 = Runs.run (fun s event => (step s event).1) start events := by
  induction events generalizing start with
  | nil => rfl
  | cons event events ih =>
    rw [replay_cons]
    exact ih _

/-- The invariant rule: what every step keeps of the events taken, the state reached
and the outputs emitted holds after every replay. -/
theorem replay_invariant (I : List ε → σ → List ο → Prop) (start : σ) (first : I [] start [])
    (keeps : ∀ events s outputs event, I events s outputs →
      I (events ++ [event]) (step s event).1 (outputs ++ (step s event).2)) (events : List ε) :
    I events (replay step start events).1 (replay step start events).2 := by
  induction events using List.reverseRecOn with
  | nil => exact first
  | append_singleton events event ih =>
    rw [replay_snoc]
    exact keeps events _ _ event ih

/-- The same for what a step keeps under a side condition, in the replays whose steps
all meet it. -/
theorem replay_invariant_along (C : σ → ε → Prop) (I : List ε → σ → List ο → Prop) (start : σ) (first : I [] start [])
    (keeps : ∀ events s outputs event, I events s outputs → C s event →
      I (events ++ [event]) (step s event).1 (outputs ++ (step s event).2)) (events : List ε)
    (conditions : Runs.Along (fun s event => (step s event).1) C start events) :
    I events (replay step start events).1 (replay step start events).2 := by
  induction events using List.reverseRecOn with
  | nil => exact first
  | append_singleton events event ih =>
    obtain ⟨before,here,-⟩ := (Runs.along_append _ C start events [event]).mp conditions
    rw [← replay_state] at here
    rw [replay_snoc]
    exact keeps events _ _ event (ih before) here

end WarpLoop.Lib.Replay
