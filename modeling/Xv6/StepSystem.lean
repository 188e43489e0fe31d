import Xv6.CheckedC

/-! Systems that take one checked step after another. A run may be restricted to
steps that satisfy a condition on the state before the step; an invariant that
every such step keeps holds in every state of every such run. -/
namespace Xv6.StepSystem
open CheckedC

structure System (σ : Type u) (ε : Type v) where
  Init : σ → Prop
  Enabled : σ → ε → Prop
  perform : σ → ε → Checked σ

namespace System

/-- The states reached from an initial one by enabled steps that satisfy `ok`. -/
inductive Run (m : System σ ε) (ok : σ → ε → Prop) : σ → Prop where
  | start (init : m.Init s) : Run m ok s
  | step (run : Run m ok s) (enabled : m.Enabled s e) (allowed : ok s e)
      (ran : m.perform s e = .ok after) : Run m ok after

theorem Run.invariant {m : System σ ε} {Inv : σ → Prop} (run : m.Run ok s)
    (start : ∀ s, m.Init s → Inv s)
    (step : ∀ s e after, Inv s → m.Enabled s e → ok s e → m.perform s e = .ok after →
      Inv after) : Inv s := by
  induction run with
  | start init => exact start _ init
  | step _ enabled allowed ran inv => exact step _ _ _ inv enabled allowed ran

theorem Run.mono {m : System σ ε} (run : m.Run ok s) (weaker : ∀ s e, ok s e → ok' s e) :
    m.Run ok' s := by
  induction run with
  | start init => exact Run.start init
  | step _ enabled allowed ran earlier => exact earlier.step enabled (weaker _ _ allowed) ran

/-! ## Records of a run -/

/-- The system with a record kept beside it: `note` reads every step, and no step
reads the record. -/
def watch (m : System σ ε) (begins : σ → γ) (note : σ → ε → σ → γ → γ) : System (σ × γ) ε where
  Init s := m.Init s.1 ∧ s.2 = begins s.1
  Enabled s e := m.Enabled s.1 e
  perform s e := do
    let after ← m.perform s.1 e
    return (after, note s.1 e after s.2)

theorem watch_perform {m : System σ ε} {begins : σ → γ} {note : σ → ε → σ → γ → γ}
    (ran : (m.watch begins note).perform s e = .ok after) :
    m.perform s.1 e = .ok after.1 ∧ after.2 = note s.1 e after.1 s.2 := by
  obtain ⟨next, stepped, ends⟩ := bind_eq_ok.mp ran
  cases ends
  exact ⟨stepped, rfl⟩

theorem Run.unwatched {m : System σ ε} {begins : σ → γ} {note : σ → ε → σ → γ → γ}
    (run : (m.watch begins note).Run ok s) (weaker : ∀ s e, ok s e → ok' s.1 e) :
    m.Run ok' s.1 := by
  induction run with
  | start init => exact Run.start init.1
  | step _ enabled allowed ran earlier =>
    exact earlier.step enabled (weaker _ _ allowed) (watch_perform ran).1

section
variable (m : System σ ε) (ok : σ → ε → Prop)
  [∀ s e, Decidable (m.Enabled s e)] [∀ s e, Decidable (ok s e)]

/-- Perform a list of events, each of which must be enabled and allowed. -/
def performAll (s : σ) : List ε → Option σ
  | [] => some s
  | e :: es =>
    if m.Enabled s e ∧ ok s e then
      match m.perform s e with
      | .ok after => performAll after es
      | .error _ => none
    else none

variable {m ok}

theorem run_performAll (run : m.Run ok s) (ran : m.performAll ok s es = some after) :
    m.Run ok after := by
  induction es generalizing s with
  | nil =>
    cases ran
    exact run
  | cons e es ih =>
    simp only [performAll] at ran
    split at ran
    · rename_i permitted
      split at ran
      · rename_i next stepped
        exact ih (run.step permitted.1 permitted.2 stepped) ran
      · cases ran
    · cases ran

theorem exists_run (ok : σ → ε → Prop) [∀ s e, Decidable (ok s e)] (init : m.Init s)
    (es : List ε) (P : σ → Prop) [DecidablePred P]
    (ends : (m.performAll ok s es).any (P ·) = true) : ∃ after, m.Run ok after ∧ P after := by
  obtain ⟨after, ran, here⟩ := (Option.any_eq_true _ _).mp ends
  exact ⟨after, run_performAll (Run.start init) ran, of_decide_eq_true here⟩

end
end System
end Xv6.StepSystem
