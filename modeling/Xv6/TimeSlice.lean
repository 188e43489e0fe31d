import Xv6.SlotEffects

/-! Preemption of round-robin processes. CPU 0 advances the clock of every RUNNING
process in its timer interrupt; at the end of its own timer interrupt each CPU
compares the clock of its process with INTERV. The comparison is for equality, so
a CPU that handles no interrupt during one of the ticks misses the end of the
slice, and the process goes on for as long as it likes. -/
namespace Xv6.TimeSlice
open CheckedC ProcTable SlotEffects StepSystem Function
open Dispatch (Event Machine)

/-- How far CPU 0 is in its timer interrupt: not in it, behind `updateClock`, or
behind `upgradePriority_Aging`. -/
inductive Phase where
  | idle
  | clocked
  | aged
  deriving DecidableEq

structure Traps (n : Nat) where
  machine : Machine (n + 1)
  phase : Phase
  /-- `trap` is about to call `yield` -/
  yields : Fin (n + 1) → Bool

inductive Step (n : Nat) where
  | kernel (e : Event (n + 1))
  /-- the end of `trap` after a timer interrupt -/
  | timer (c : Fin (n + 1))
  deriving DecidableEq

def cpuOf : Event n → Option (Fin n)
  | .scheduler c | .enter c | .leave c | .yield c | .sleep c _ | .exit c | .wait c | .wait2 c
  | .changePrio c _ | .changePrioTail c _ | .allocproc c _ | .forkCopy c _ | .forkEnter c _
  | .forkAbandon c _ => some c
  | .wakeup _ | .kill _ | .updateClock | .upgradePriorityAging => none

/-- `trap` lets a killed process exit instead of calling `yield`. -/
def Leaves (e : Event n) (c : Fin n) : Prop := e = .yield c ∨ e = .exit c

instance : Decidable (Leaves e c) := inferInstanceAs (Decidable (_ ∨ _))

/-- When CPU 0 is in its timer interrupt for the two passes over the table. -/
def InPhase (phase : Phase) : Event n → Prop
  | .updateClock => phase = .idle
  | .upgradePriorityAging => phase = .clocked
  | _ => True

instance : Decidable (InPhase phase e) := by
  apply e.casesOn (motive := fun e => Decidable (InPhase phase e)) <;> intros <;> unfold InPhase <;>
    infer_instance

def Enabled (s : Traps n) : Step n → Prop
  | .kernel e => Dispatch.Enabled s.machine e ∧ InPhase s.phase e ∧
      ∀ c, cpuOf e = some c → (c = 0 → s.phase = .idle) ∧ (s.yields c = true → Leaves e c)
  | .timer c => s.machine.lock ≠ .entered c ∧ s.machine.lock ≠ .leaving c ∧ s.yields c = false ∧
      (c = 0 → s.phase = .aged)

instance : Decidable (Enabled s e) := by
  unfold Enabled
  split <;> infer_instance

/-- The test of `trap`. -/
def sliceOver (s : Traps n) (c : Fin (n + 1)) : Bool :=
  match s.machine.cpu c with
  | none => false
  | some p =>
    let proc := s.machine.table.proc p
    decide (proc.state = .running ∧ proc.clock = INTERV ∧ proc.priority = 1)

def phaseAfter (phase : Phase) : Event n → Phase
  | .updateClock => .clocked
  | .upgradePriorityAging => .aged
  | _ => phase

def yieldsAfter (yields : Fin n → Bool) : Event n → Fin n → Bool
  | .yield c | .exit c => update yields c false
  | _ => yields

def perform (s : Traps n) : Step n → Checked (Traps n)
  | .kernel e => do
    return ⟨← Dispatch.perform s.machine e, phaseAfter s.phase e, yieldsAfter s.yields e⟩
  | .timer c =>
    .ok { s with
      phase := if c = 0 then .idle else s.phase
      yields := update s.yields c (sliceOver s c) }

def system (n : Nat) : System (Traps n) (Step n) where
  Init s := (Dispatch.system (n + 1)).Init s.machine ∧ s.phase = .idle ∧ ∀ c, s.yields c = false
  Enabled := Enabled
  perform := perform

/-- For each CPU, the passes of `updateClock` since it last handled a timer
interrupt or chose a process. -/
abbrev Passes (n : Nat) := Fin (n + 1) → Nat

def count (_ : Traps n) (e : Step n) (_ : Traps n) (passes : Passes n) : Passes n :=
  match e with
  | .kernel .updateClock => fun c => passes c + 1
  | .kernel (.scheduler c) => update passes c 0
  | .timer c => update passes c 0
  | .kernel _ => passes

def counted (n : Nat) : System (Traps n × Passes n) (Step n) :=
  (system n).watch (fun _ _ => 0) count

instance : Decidable ((counted n).Enabled s e) := inferInstanceAs (Decidable (Enabled s.1 e))

/-- A CPU other than CPU 0 that runs a process handles a timer interrupt before the
second tick, and no process gives itself the round-robin priority with its slice used
up. -/
def Timely (s : Traps n × Passes n) : Step n → Prop
  | .timer c => c ≠ 0 → s.1.machine.cpu c ≠ none → s.2 c ≤ 1
  | .kernel (.changePrio c wanted) => wanted = 2 → ∀ p, s.1.machine.cpu c = some p →
      (s.1.machine.table.proc p).priority = 1 ∨ (s.1.machine.table.proc p).clock < INTERV
  | .kernel _ => True

instance : Decidable (Timely s e) := by
  unfold Timely
  split <;> infer_instance

/-- After the interrupt the process of CPU `c`, if it has the round-robin priority,
is made to yield if its slice is over, and else goes on with a clock below INTERV. -/
def Preempts (s : Traps n) (c : Fin (n + 1)) : Prop :=
  ∀ p, s.machine.cpu c = some p → (s.machine.table.proc p).state = .running →
    (s.machine.table.proc p).priority = 1 →
    (INTERV ≤ (s.machine.table.proc p).clock → s.yields c = true) ∧
    (s.yields c = false → (s.machine.table.proc p).clock < INTERV)

/-! ## The invariant -/

/-- A process in its slice, `k` ticks after the last look at its clock. -/
def Within (k : Nat) (proc : Proc) : Prop :=
  proc.state = .running → proc.priority = 1 → proc.clock < INTERV + k

structure Inv (s : Traps n × Passes n) : Prop where
  slice : ∀ c p, s.1.machine.cpu c = some p → s.1.yields c = false →
    Within (s.2 c) (s.1.machine.table.proc p)
  zero : s.2 0 ≤ if s.1.phase = .idle then 0 else 1

theorem within_of_state (stopped : proc.state ≠ .running) : Within k proc :=
  fun running => absurd running stopped

theorem Within.mono (within : Within k proc) (more : k ≤ m) : Within m proc := by
  intro running first
  have bound := within running first
  omega

theorem Within.turn {s : Machine n} (within : Within k (s.table.proc p))
    (turn : Turn False s p e slot) (other : e ≠ .updateClock)
    (slow : ∀ c wanted, e = .changePrio c wanted → s.cpu c = some p → wanted = 2 →
      (s.table.proc p).priority = 1 ∨ (s.table.proc p).clock < INTERV) : Within k slot := by
  cases turn with
  | kept | tidied | passed | requeued | copied => exact within
  | dispatched =>
    intro _ _
    simp only [dispatched, INTERV]
    omega
  | yielded | slept | waits | exited | passedWoken | woken | entered | abandoned | allocated =>
    exact within_of_state (by simp [asleep, embryoSlot])
  | reaped zombie scan cleared =>
    rcases cleared with rfl | rfl <;> exact within_of_state (by simp [waitClear, wait2Clear])
  | struck target =>
    unfold struck
    intro running first
    split at running
    · cases running
    · exact within running first
  | prioritized here =>
    intro running first
    rcases slow _ _ rfl here (by simp only at first; omega) with already | early
    · exact within running already
    · simp only
      omega
  | ticked => exact absurd rfl other
  | promoted =>
    intro running first
    rw [promote_state] at running
    have same : promote (s.table.proc p) = s.table.proc p := by
      unfold promote
      split
      · rw [if_neg (by simp [running])]
      · rfl
    rw [same] at first ⊢
    exact within running first

theorem Within.tick (within : Within k proc) : Within (k + 1) (tick proc) := by
  intro running first
  rw [tick_state] at running
  rw [tick_priority] at first
  have bound := within running first
  unfold ProcTable.tick
  simp only [running]
  omega

theorem leaves_stopped {s : Machine n} (leaves : Leaves e c) (here : s.cpu c = some p)
    (ran : Dispatch.perform s e = .ok after) : (after.table.proc p).state ≠ .running := by
  have own : deref (s.cpu c) = .ok p := by rw [here]; rfl
  rcases leaves with rfl | rfl
  · simp only [Dispatch.perform, own, bind_ok] at ran
    obtain ⟨t, yields, ends⟩ := bind_eq_ok.mp ran
    cases ends
    simp [(makeReady_slots yields).1]
  · simp only [Dispatch.perform, own, bind_ok] at ran
    obtain ⟨t, exits, ends⟩ := bind_eq_ok.mp ran
    cases ends
    simp [(exit_slots exits).2.2]

theorem count_kernel (passes : Passes n) (e : Event (n + 1)) (other : e ≠ .updateClock) (c) :
    count s (.kernel e) after passes c = passes c ∨
      e = .scheduler c ∧ count s (.kernel e) after passes c = 0 := by
  cases e with
  | scheduler c' =>
    by_cases same : c = c'
    · subst same
      exact .inr ⟨rfl, by simp [count]⟩
    · exact .inl (by simp [count, same])
  | updateClock => exact absurd rfl other
  | _ => exact .inl rfl

theorem yieldsAfter_false {yields : Fin n → Bool} (quiet : yieldsAfter yields e c = false) :
    yields c = false ∨ Leaves e c := by
  by_cases leaves : Leaves e c
  · exact .inr leaves
  · refine .inl ?_
    cases e with
    | yield c' =>
      have other : c ≠ c' := by
        rintro rfl
        exact leaves (.inl rfl)
      simpa [yieldsAfter, other] using quiet
    | exit c' =>
      have other : c ≠ c' := by
        rintro rfl
        exact leaves (.inr rfl)
      simpa [yieldsAfter, other] using quiet
    | _ => exact quiet

theorem slice_kernel {s after : Traps n × Passes n} (inv : Inv s)
    (timely : Timely s (.kernel e)) (idle : ∀ c, e = .scheduler c → s.1.machine.cpu c = none)
    (stepped : Dispatch.perform s.1.machine e = .ok after.1.machine)
    (yields : after.1.yields = yieldsAfter s.1.yields e)
    (passes : after.2 = count s.1 (.kernel e) after.1 s.2) (here : after.1.machine.cpu c = some p)
    (quiet : after.1.yields c = false) : Within (after.2 c) (after.1.machine.table.proc p) := by
  rcases cpu_turn stepped here with before | ⟨rfl, chosen⟩
  · rw [yields] at quiet
    rcases yieldsAfter_false quiet with still | leaves
    · have within := inv.slice c p before still
      have turn := slot_turn False nofun stepped p
      by_cases ticks : e = .updateClock
      · subst ticks
        simp only [Dispatch.perform, pure_eq_ok, Except.ok.injEq] at stepped
        rw [passes, ← stepped]
        exact within.tick
      · have slot := within.turn turn ticks fun c' wanted same there low => by
          subst same
          exact timely low p there
        rw [passes]
        rcases count_kernel s.2 e ticks c with same | ⟨rfl, _⟩
        · rw [same]
          exact slot
        · rw [idle c rfl] at before
          cases before
    · exact within_of_state (leaves_stopped leaves before stepped)
  · rw [chosen]
    intro _ _
    simp only [dispatched, INTERV]
    omega

theorem zero_kernel {s : Traps n × Passes n} (inv : Inv s) (enabled : Enabled s.1 (.kernel e)) :
    count s.1 (.kernel e) after s.2 0 ≤ if phaseAfter s.1.phase e = .idle then 0 else 1 := by
  have before := inv.zero
  by_cases ticks : e = .updateClock
  · subst ticks
    have idle : s.1.phase = .idle := enabled.2.1
    simp only [idle, if_true] at before
    simp only [count, phaseAfter, reduceCtorEq, if_false]
    omega
  · have phase : phaseAfter s.1.phase e = .idle → s.1.phase = .idle := by
      intro idle
      cases e with
      | updateClock => exact absurd rfl ticks
      | upgradePriorityAging => cases idle
      | _ => exact idle
    rcases count_kernel s.2 e ticks 0 with same | ⟨_, zero⟩
    · rw [same]
      by_cases idle : s.1.phase = .idle
      · rw [if_pos idle] at before
        omega
      · rw [if_neg idle] at before
        rw [if_neg fun after => idle (phase after)]
        exact before
    · rw [zero]
      exact Nat.zero_le _

theorem Within.looked {s : Traps n} (within : Within 1 (s.machine.table.proc p))
    (here : s.machine.cpu c = some p) (goes : sliceOver s c = false) :
    Within 0 (s.machine.table.proc p) := by
  intro running first
  have bound := within running first
  have apart : (s.machine.table.proc p).clock ≠ INTERV := by
    intro ended
    simp [sliceOver, here, running, ended, first] at goes
  omega

theorem Inv.seen {s : Traps n × Passes n} (inv : Inv s) (timely : Timely s (.timer c))
    (runs : s.1.machine.cpu c = some p) : s.2 c ≤ 1 := by
  by_cases zero : c = 0
  · have bound := inv.zero
    rw [zero]
    split at bound
    · omega
    · exact bound
  · exact timely zero (by simp [runs])

theorem timer_inv {s : Traps n × Passes n} (inv : Inv s) (enabled : Enabled s.1 (.timer c))
    (timely : Timely s (.timer c)) (stepped : perform s.1 (.timer c) = .ok after) :
    Inv (after, update s.2 c 0) := by
  cases stepped
  constructor
  · intro c' p here quiet
    by_cases same : c' = c
    · subst same
      simp only [update_self] at quiet ⊢
      have within := (inv.slice c' p here enabled.2.2.1).mono (inv.seen timely here)
      exact within.looked here quiet
    · simp only [update_of_ne same] at quiet ⊢
      exact inv.slice c' p here quiet
  · by_cases same : c = 0
    · subst same
      simp
    · simp only [if_neg same, update_of_ne (Ne.symm same)]
      exact inv.zero

theorem step_inv {s : Traps n × Passes n} (inv : Inv s) (enabled : (counted n).Enabled s e)
    (timely : Timely s e) (ran : (counted n).perform s e = .ok after) : Inv after := by
  obtain ⟨stepped, passes⟩ := System.watch_perform ran
  cases e with
  | kernel e =>
    obtain ⟨machine, moved, ends⟩ := bind_eq_ok.mp stepped
    have whole : after.1 = ⟨machine, phaseAfter s.1.phase e, yieldsAfter s.1.yields e⟩ :=
      (Except.ok.inj ends).symm
    have machines : after.1.machine = machine := by rw [whole]
    constructor
    · intro c p here quiet
      refine slice_kernel inv timely ?_ (machines ▸ moved) (by rw [whole]) passes here quiet
      rintro c' rfl
      exact enabled.1.2
    · rw [passes, whole]
      exact zero_kernel inv enabled
  | timer c =>
    have kept := timer_inv inv enabled timely stepped
    rwa [show after = (after.1, update s.2 c 0) from Prod.ext rfl passes]

theorem run_inv (run : (counted n).Run Timely s) : Inv s := by
  apply run.invariant
  · rintro s ⟨⟨⟨t, _, machine⟩, idle, _⟩, passes⟩
    refine ⟨fun c p here => ?_, ?_⟩
    · rw [machine] at here
      cases here
    · rw [passes]
      exact Nat.zero_le _
  · intro s e after inv enabled timely ran
    exact step_inv inv enabled timely ran

/-- In every run, on any number of CPUs, in which every CPU other than CPU 0 that runs
a process handles a timer interrupt before the second tick, a timer interrupt preempts
the round-robin process of its CPU as soon as its slice is over. -/
theorem slice_preempted (run : (counted n).Run Timely s) (enabled : Enabled s.1 (.timer c))
    (timely : Timely s (.timer c)) (ran : perform s.1 (.timer c) = .ok after) :
    Preempts after c := by
  have inv := run_inv run
  have kept := timer_inv inv enabled timely ran
  intro p here running first
  have goes : after.yields c = false → (after.machine.table.proc p).clock < INTERV := by
    intro quiet
    have bound := kept.slice c p here quiet running first
    simpa using bound
  refine ⟨fun ended => ?_, goes⟩
  by_contra quiet
  rw [Bool.not_eq_true] at quiet
  have below := goes quiet
  omega

def start (n : Nat) : Traps n × Passes n :=
  (⟨Dispatch.boot (n + 1) Dispatch.initTable, .idle, fun _ => false⟩, fun _ => 0)

theorem start_init (n : Nat) : (counted n).Init (start n) :=
  ⟨⟨⟨_, Dispatch.userinit_eq, rfl⟩, rfl, fun _ => rfl⟩, rfl⟩

def clockTick : List (Step n) :=
  [.kernel .updateClock, .kernel .upgradePriorityAging, .timer 0]

/-- CPU 1 runs init and handles a timer interrupt after each of nine ticks; after
the tenth its interrupt ends the slice. -/
theorem slice_preempted_tenth : ∃ (s : Traps 1 × Passes 1) (after : Traps 1),
    (counted 1).Run Timely s ∧ perform s.1 (.timer 1) = .ok after ∧ Preempts after 1 ∧
      (s.1.machine.table.proc 0).clock = INTERV := by
  obtain ⟨s, run, enabled, timely, clock⟩ := System.exists_run Timely (start_init 1)
    ([.kernel (.scheduler 1), .kernel (.enter 1)] ++
      (List.replicate 9 (clockTick ++ [.timer 1])).flatten ++ clockTick)
    (fun s => Enabled s.1 (.timer 1) ∧ Timely s (.timer 1) ∧
      (s.1.machine.table.proc 0).clock = INTERV) (by decide +kernel)
  exact ⟨s, _, run, rfl, slice_preempted run enabled timely rfl, clock⟩

def waits (ticks : Nat) : List (Step 1) :=
  [.kernel (.scheduler 1), .kernel (.enter 1)] ++ (List.replicate ticks clockTick).flatten

/-- CPU 1 takes no timer interrupt during eleven ticks. Its next one finds the
clock of init at 11 and lets init go on. -/
theorem slice_missed : ∃ (s : Traps 1 × Passes 1) (after : Traps 1),
    (counted 1).Run (fun _ _ => True) s ∧ Enabled s.1 (.timer 1) ∧
      perform s.1 (.timer 1) = .ok after ∧ ¬ Preempts after 1 := by
  obtain ⟨s, run, enabled, there, running, first, clock⟩ := System.exists_run (fun _ _ => True) (start_init 1) (waits 11)
    (fun s => Enabled s.1 (.timer 1) ∧ s.1.machine.cpu 1 = some 0 ∧
      (s.1.machine.table.proc 0).state = .running ∧ (s.1.machine.table.proc 0).priority = 1 ∧
      (s.1.machine.table.proc 0).clock = 11) (by decide +kernel)
  refine ⟨s, _, run, enabled, rfl, fun preempts => ?_⟩
  have told := (preempts 0 there running first).1 (by rw [clock]; decide)
  simp [sliceOver, there, running, clock, INTERV] at told

end Xv6.TimeSlice
