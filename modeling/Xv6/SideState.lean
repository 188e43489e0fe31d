import Xv6.CheckedC

/-! Runs that keep a state beside what they compute. The state stays when the run faults.
A program with such a state erases to the program without it. -/
namespace Xv6.SideState
open CheckedC

abbrev Keeping (σ α : Type) := ExceptT Fault (StateM σ) α

def plainly (run : Checked α) : Keeping σ α := ExceptT.mk (pure run)

def change (f : σ → σ) : Keeping σ Unit := modify f

/-- Without the state the program is `run`. -/
def Erases (program : Keeping σ α) (run : Checked α) : Prop := ∀ s, (program s).1 = run

section
variable {σ α β : Type} {s s' : σ}

theorem bind_run (first : Keeping σ α) (next : α → Keeping σ β) (s : σ) :
    (first >>= next) s = match first s with
      | (.ok value, s') => next value s'
      | (.error fault, s') => (.error fault, s') := by
  cases ran : first s with
  | mk result s' =>
    simp only [bind, ExceptT.bind, ExceptT.mk, StateT.bind, ran]
    cases result <;> rfl

theorem bind_returns {first : Keeping σ α} {next : α → Keeping σ β} :
    (first >>= next) s = (.ok result, s') ↔
      ∃ value s₁, first s = (.ok value, s₁) ∧ next value s₁ = (.ok result, s') := by
  rw [bind_run]
  constructor
  · intro ran
    split at ran
    · rename_i value s₁ begun
      exact ⟨value, s₁, begun, ran⟩
    · cases ran
  · rintro ⟨value, s₁, begun, ran⟩
    rw [begun]
    exact ran

theorem plainly_returns {run : Checked α} :
    (plainly run : Keeping σ α) s = (.ok value, s') ↔ run = .ok value ∧ s' = s := by
  constructor
  · rintro ⟨⟩
    exact ⟨rfl, rfl⟩
  · rintro ⟨rfl, rfl⟩
    rfl

theorem change_bind (f : σ → σ) (next : Keeping σ α) (s : σ) :
    (change f >>= fun _ => next) s = next (f s) := rfl

theorem Erases.returns {program : Keeping σ α} {run : Checked α} (erases : Erases program run)
    (ran : program s = (.ok value, s')) : run = .ok value := by
  rw [← erases s, ran]

theorem Erases.bind {first : Keeping σ α} {next : α → Keeping σ β} {run : Checked α}
    {rest : α → Checked β} (erases : Erases first run)
    (others : ∀ value, Erases (next value) (rest value)) :
    Erases (first >>= next) (run >>= rest) := by
  intro s
  have same := erases s
  rw [bind_run]
  cases ran : first s with
  | mk result s' =>
    rw [ran] at same
    subst same
    cases result with
    | ok value => exact others value s'
    | error fault => rfl

theorem erases_change {next : Keeping σ α} {run : Checked α} (erases : Erases next run)
    (f : σ → σ) : Erases (change f >>= fun _ => next) run := fun s => erases (f s)

theorem erases_plainly (run : Checked α) : Erases (plainly run : Keeping σ α) run := fun _ => rfl

theorem erases_return (value : α) : Erases (return value : Keeping σ α) (.ok value) :=
  fun _ => rfl

theorem Erases.then_change {program : Keeping σ α} {run : Checked α} (erases : Erases program run)
    (f : α → σ → σ) :
    Erases (program >>= fun value => change (f value) >>= fun _ => return value) run := by
  have whole := erases.bind fun value => erases_change (erases_return value) (f value)
  rwa [show (run >>= fun value => .ok value) = run from bind_pure run] at whole

end

end Xv6.SideState
