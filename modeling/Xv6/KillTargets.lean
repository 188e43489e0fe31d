import Xv6.ProcLife

/-! Whom `kill` hits. It compares the pid field of every slot, whatever the state
of the slot, and nothing clears `killed` when a slot is taken. As long as no slot
that is free or still being filled in has the wanted pid, `kill` reaches a living
process, and every process starts its life unkilled. A free slot that was never
used or has been reaped holds pid 0, one that a failed `fork` gave back keeps the
pid it had. -/
namespace Xv6.KillTargets
open CheckedC ProcTable SlotEffects ProcLife StepSystem Function
open Dispatch (Event Machine)

/-- If `kill` returns 0, some slot in use has this pid, and `killed` is set in it
and changed in no other. -/
def HitsLiving (t : PTable) (pid : Int) : Prop :=
  ∀ after, kill t pid = .ok (0, after) → ∃ p, (t.proc p).state ≠ .unused ∧ (t.proc p).pid = pid ∧
    (after.proc p).killed = true ∧ ∀ r, r ≠ p → (after.proc r).killed = (t.proc r).killed

/-- The step of `fork` that makes the child RUNNABLE finds it unkilled. -/
def StartsUnkilled (s : Kernel n) : Event n → Prop
  | .forkEnter c np => ∀ after, perform s (.forkEnter c np) = .ok after →
      (after.proc np).killed = false
  | _ => True

/-- No slot that is free or being filled in has the pid `kill` is called with. -/
def Addressed (s : Kernel n) : Event n → Prop
  | .kill pid => ∀ p, (s.proc p).pid = pid → (s.proc p).state ≠ .unused ∧ (s.proc p).state ≠ .embryo
  | _ => True

instance : Decidable (Addressed s e) := by
  apply e.casesOn (motive := fun e => Decidable (Addressed s e)) <;> intros <;> unfold Addressed <;>
    infer_instance

/-- A slot whose life has not begun is not killed. -/
def Unhurt (proc : Proc) : Prop :=
  proc.state = .unused ∨ proc.state = .embryo → proc.killed = false

theorem unhurt_of_begun (begun : proc.state ≠ .unused ∧ proc.state ≠ .embryo) : Unhurt proc := by
  intro early
  rcases early with unused | embryo
  · exact absurd unused begun.1
  · exact absurd embryo begun.2

theorem start_unhurt (init : (system n).Init s) (p : ProcId) : Unhurt (s.proc p) := by
  obtain ⟨⟨t, left, machine⟩, _⟩ := init
  intro _
  simp only [Kernel.proc, machine, Dispatch.boot, (userinit_slots left).1]
  by_cases here : p = 0
  · subst here
    rfl
  · rw [update_of_ne here]

theorem step_unhurt {s : Kernel n} (unhurt : ∀ p, Unhurt (s.proc p)) (enabled : Enabled s e)
    (aimed : Addressed s e) (ran : perform s e = .ok after) (p : ProcId) :
    Unhurt (after.proc p) := by
  have turn := slot_turn False nofun (perform_eq_ok ran).1 p
  have before := unhurt p
  simp only [Kernel.proc] at before ⊢
  generalize after.machine.table.proc p = slot at turn
  cases turn with
  | kept | tidied | passed | prioritized | requeued | copied => exact before
  | dispatched | yielded | slept | waits | exited | passedWoken | woken | entered =>
    exact unhurt_of_begun ⟨by simp [dispatched, asleep], by simp [dispatched, asleep]⟩
  | reaped zombie scan cleared =>
    intro _
    rcases cleared with rfl | rfl <;> rfl
  | struck target =>
    have living := aimed p target
    refine unhurt_of_begun ?_
    unfold struck
    split
    · simp
    · exact living
  | allocated unused => exact fun _ => before (.inl unused)
  | abandoned => exact fun _ => before (.inr enabled.1.2)
  | ticked =>
    unfold Unhurt
    rw [tick_state, tick_killed]
    exact before
  | promoted =>
    unfold Unhurt
    rw [promote_state, promote_killed]
    exact before

theorem run_unhurt (run : (system n).Run Addressed s) : ∀ p, Unhurt (s.proc p) := by
  apply run.invariant
  · intro s init
    exact start_unhurt init
  · intro s e after unhurt enabled aimed ran
    exact step_unhurt unhurt enabled aimed ran

theorem hits_of_addressed {s : Kernel n} (aimed : Addressed s (.kill pid)) :
    HitsLiving s.table pid := by
  intro after ran
  rcases kill_slots ran with ⟨failed, _⟩ | ⟨p, _, target, slots, _⟩
  · cases failed
  · refine ⟨p, (aimed p target).1, target, by simp [slots, struck], fun r other => ?_⟩
    rw [slots, update_of_ne other]

/-- In every run whose calls of `kill` are so addressed, `kill` returns 0 only for
a slot in use and sets `killed` in it alone, and every process starts its life
with `killed` clear. -/
theorem kill_reaches_living (run : (system n).Run Addressed s) (enabled : Enabled s e)
    (aimed : Addressed s e) :
    (∀ pid, e = .kill pid → HitsLiving s.table pid) ∧ StartsUnkilled s e := by
  constructor
  · rintro pid rfl
    exact hits_of_addressed aimed
  · cases e with
    | forkEnter c np =>
      intro after ran
      have embryo : (s.proc np).killed = false := run_unhurt run np (.inr enabled.1.2.2)
      have turn := slot_turn False nofun (perform_eq_ok ran).1 np
      simp only [Kernel.proc] at embryo ⊢
      generalize after.machine.table.proc np = slot at turn
      cases turn with
      | kept => exact embryo
      | waits scan => cases scan
      | reaped zombie scan => cases scan
      | entered => exact embryo
    | _ => trivial

/-- On one CPU init kills itself, and forks a child. -/
theorem kill_reaches_living_init :
    (∃ s : Kernel 1, (system 1).Run Addressed s ∧ HitsLiving s.table 1) ∧
    ∃ s : Kernel 1, (system 1).Run Addressed s ∧ StartsUnkilled s (.forkEnter 0 1) := by
  constructor
  · obtain ⟨s, run, enabled, aimed⟩ := System.exists_run Addressed (start_init 1) [.scheduler 0, .enter 0]
      (fun s => Enabled s (.kill 1) ∧ Addressed s (.kill 1)) (by decide +kernel)
    exact ⟨s, run, (kill_reaches_living run enabled aimed).1 1 rfl⟩
  · obtain ⟨s, run, here⟩ := System.exists_run Addressed (start_init 1)
      [.scheduler 0, .enter 0, .kill 1, .allocproc 0 5, .forkCopy 0 1]
      (fun s => Enabled s (.forkEnter 0 1)) (by decide +kernel)
    exact ⟨s, run, (kill_reaches_living run here trivial).2⟩

/-- `kill(0)` hits the first slot that was never used and returns 0, and the next
child is born killed. -/
theorem kill_zero_hits_free_slot :
    (∃ s : Kernel 1, (system 1).Run (fun _ _ => True) s ∧ Enabled s (.kill 0) ∧
      ¬ HitsLiving s.table 0) ∧
    ∃ s : Kernel 1, (system 1).Run (fun _ _ => True) s ∧ Enabled s (.forkEnter 0 1) ∧
      ¬ StartsUnkilled s (.forkEnter 0 1) := by
  constructor
  · obtain ⟨s, run, enabled, free, ⟨_, after⟩, ran, rfl⟩ := System.exists_run (fun _ _ => True)
      (start_init 1) []
      (fun s => Enabled s (.kill 0) ∧ (∀ p, (s.proc p).pid = 0 → (s.proc p).state = .unused) ∧
        ∃ r, kill s.table 0 = .ok r ∧ r.1 = 0) (by decide +kernel)
    refine ⟨s, run, enabled, fun hits => ?_⟩
    obtain ⟨p, live, pid, _⟩ := hits after ran
    exact live (free p pid)
  · obtain ⟨s, run, enabled, after, ran, born⟩ := System.exists_run (fun _ _ => True) (start_init 1)
      [.kill 0, .scheduler 0, .enter 0, .allocproc 0 5, .forkCopy 0 1]
      (fun s => Enabled s (.forkEnter 0 1) ∧ ∃ after, perform s (.forkEnter 0 1) = .ok after ∧
        (after.proc 1).killed = true) (by decide +kernel)
    refine ⟨s, run, enabled, fun unkilled => ?_⟩
    rw [unkilled after ran] at born
    cases born

end Xv6.KillTargets
