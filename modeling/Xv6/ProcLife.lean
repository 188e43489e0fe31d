import Xv6.SlotEffects

/-! The process table as `fork`, `exit` and `wait` use it. To the machine of the
critical sections this adds where each process is inside `fork`, so that a slot
`allocproc` has taken is filled in, entered or given back by the process that
took it, and by nobody else. -/
namespace Xv6.ProcLife
open CheckedC ProcTable ReadyQueues Dispatch SlotEffects StepSystem

/-- Where a process is in `fork`: not in it, behind `allocproc`, or behind the
copying of its own state into the new slot. -/
inductive Stage where
  | outside
  | allocated (np : ProcId)
  | copied (np : ProcId)
  deriving DecidableEq

structure Kernel (n : Nat) where
  machine : Machine n
  stage : ProcId → Stage

abbrev Kernel.table (s : Kernel n) : PTable := s.machine.table

abbrev Kernel.proc (s : Kernel n) (p : ProcId) : Proc := s.machine.table.proc p

def At (s : Kernel n) (c : Fin n) (stage : Stage) : Prop :=
  (s.machine.cpu c).map s.stage = some stage

instance : Decidable (At s c stage) := inferInstanceAs (Decidable (_ = _))

def Enabled (s : Kernel n) (e : Event n) : Prop :=
  Dispatch.Enabled s.machine e ∧
    match e with
    | .exit c | .wait c | .wait2 c | .changePrio c _ | .changePrioTail c _ | .allocproc c _ =>
      At s c .outside
    | .forkCopy c np | .forkAbandon c np => At s c (.allocated np)
    | .forkEnter c np => At s c (.copied np)
    -- only `wait` and `wait2` sleep on a slot of the table
    | .sleep _ chan => ∀ p, chan ≠ .proc p
    | _ => True

instance : Decidable (Enabled s e) := by
  apply e.casesOn (motive := fun e => Decidable (Enabled s e)) <;> intros <;> unfold Enabled <;>
    infer_instance

def Kernel.move (s : Kernel n) (c : Fin n) (stage : Stage) : ProcId → Stage :=
  match s.machine.cpu c with
  | some p => Function.update s.stage p stage
  | none => s.stage

def stages (s : Kernel n) : Event n → ProcId → Stage
  | .allocproc c ticks =>
    match (ProcTable.allocproc ticks s.table).1 with
    | some np => s.move c (.allocated np)
    | none => s.stage
  | .forkCopy c np => s.move c (.copied np)
  | .forkEnter c _ | .forkAbandon c _ => s.move c .outside
  | _ => s.stage

def perform (s : Kernel n) (e : Event n) : Checked (Kernel n) := do
  return ⟨← Dispatch.perform s.machine e, stages s e⟩

def system (n : Nat) : System (Kernel n) (Event n) where
  Init s := (Dispatch.system n).Init s.machine ∧ ∀ p, s.stage p = .outside
  Enabled := Enabled
  perform := perform

instance : Decidable ((system n).Enabled s e) := inferInstanceAs (Decidable (Enabled s e))

def start (n : Nat) : Kernel n := ⟨boot n initTable, fun _ => .outside⟩

theorem start_init (n : Nat) : (system n).Init (start n) := ⟨⟨_, userinit_eq, rfl⟩, fun _ => rfl⟩

theorem perform_eq_ok {s : Kernel n} (ran : perform s e = .ok after) :
    Dispatch.perform s.machine e = .ok after.machine ∧ after.stage = stages s e := by
  obtain ⟨machine, stepped, ends⟩ := bind_eq_ok.mp ran
  cases ends
  exact ⟨stepped, rfl⟩

theorem run_machine {ok : Kernel n → Event n → Prop} (run : (system n).Run ok s)
    (weaker : ∀ s e, ok s e → ok' s.machine e) : (Dispatch.system n).Run ok' s.machine := by
  induction run with
  | start init => exact System.Run.start init.1
  | step _ enabled allowed ran earlier =>
    exact earlier.step enabled.1 (weaker _ _ allowed) (perform_eq_ok ran).1

/-! ## Without change_prio -/

/-- The step is not one of `change_prio`. -/
def KeepsPriority : Event n → Prop
  | .changePrio _ _ => False
  | _ => True

instance : Decidable (KeepsPriority e) := by
  apply e.casesOn (motive := fun e => Decidable (KeepsPriority e)) <;> intros <;> unfold KeepsPriority <;>
    infer_instance

/-- The states of a process that is in the care of the scheduler. -/
def Alive (state : ProcState) : Prop :=
  state = .sleeping ∨ state = .runnable ∨ state = .running

def Raised (s : Machine n) : Prop :=
  ∀ p, Alive (s.table.proc p).state → 1 ≤ (s.table.proc p).priority

theorem Raised.no_lottery {s : Machine n} (inv : Inv s) (raised : Raised s) (e : Event n) :
    NoLottery s e := by
  cases e with
  | scheduler c =>
    intro drawn
    have counts := branch_counts s.table
    rw [drawn] at counts
    obtain ⟨queues, lists⟩ := inv.lists
    have length := (lists.held 0).counted
    cases members : queues 0 with
    | nil =>
      rw [members] at length
      simp only [List.length_nil] at length
      omega
    | cons p rest =>
      have ready := (lists.members 0 p).mp (by simp [members])
      have high := raised p (.inr (.inl ready.1))
      have low : (s.table.proc p).priority = 0 := ready.2
      omega
  | _ => trivial

theorem Raised.step {s : Machine n} (raised : Raised s) (inv : Inv s)
    (enabled : Dispatch.Enabled s e) (calm : KeepsPriority e)
    (ran : Dispatch.perform s e = .ok after) : Raised after := by
  intro p
  have turn := slot_turn True (fun _ => ⟨inv, enabled, raised.no_lottery inv e⟩) ran p
  have before := raised p
  generalize after.table.proc p = slot at turn
  cases turn with
  | kept => exact before
  | dispatched ready => exact fun _ => before (by simp [Alive, ready trivial])
  | tidied here running => exact before
  | yielded here running => exact fun _ => before (by simp [Alive, running trivial])
  | slept here running => exact fun _ => before (by simp [Alive, running trivial])
  | waits scan running => exact fun _ => before (by simp [Alive, running trivial])
  | reaped zombie scan cleared => rcases cleared with rfl | rfl <;> simp [Alive, waitClear, wait2Clear]
  | exited here running => simp [Alive]
  | passed => exact before
  | passedWoken sleeping => exact fun _ => before (by simp [Alive, sleeping])
  | woken sleeping => exact fun _ => before (by simp [Alive, sleeping])
  | struck target =>
    intro alive
    refine before ?_
    simp only [struck] at alive
    split at alive
    · rename_i asleep
      simp [Alive, asleep]
    · exact alive
  | prioritized here running => exact calm.elim
  | requeued running ready => exact before
  | allocated unused => simp [Alive, embryoSlot]
  | copied here embryo => exact before
  | entered embryo => exact fun _ => by simp [ PRIO]
  | abandoned embryo => simp [Alive]
  | ticked =>
    rw [tick_state, tick_priority]
    exact before
  | promoted =>
    intro alive
    rw [promote_state] at alive
    have least := before alive
    unfold promote
    split
    · split
      · simp only
        omega
      · exact least
    · exact least

theorem run_raised (run : (Dispatch.system n).Run (fun _ e => KeepsPriority e) s) :
    (Dispatch.system n).Run NoLottery s ∧ Raised s := by
  induction run with
  | start init =>
    refine ⟨System.Run.start init, ?_⟩
    obtain ⟨t, left, rfl⟩ := init
    intro p alive
    simp only [boot, (userinit_slots left).1] at alive ⊢
    by_cases here : p = 0
    · subst here
      simp [initSlot, PRIO]
    · simp [here, Alive] at alive
  | step _ enabled calm ran earlier =>
    obtain ⟨run, raised⟩ := earlier
    have inv := run_inv run
    exact ⟨run.step enabled (raised.no_lottery inv _) ran, raised.step inv enabled calm ran⟩

/-- While nobody calls `change_prio`, every process is above the queue of the lottery and no
pass draws one. -/
theorem lottery_needs_change_prio {s : Machine (n + 1)}
    (run : (Dispatch.system (n + 1)).Run (fun _ e => KeepsPriority e) s) :
    Raised s ∧ branch s.table ≠ .lottery := by
  obtain ⟨undrawn, raised⟩ := run_raised run
  exact ⟨raised, raised.no_lottery (run_inv undrawn) (.scheduler 0)⟩

/-- init forks and sleeps, and its child waits until aging raises it. -/
theorem no_lottery_after_aging : ∃ s : Machine 1,
    (Dispatch.system 1).Run (fun _ e => KeepsPriority e) s ∧ (s.table.proc 0).state = .sleeping ∧
      (s.table.proc 1).priority = 2 ∧ branch s.table ≠ .lottery := by
  obtain ⟨s, run, sleeps, raised⟩ := System.exists_run (fun _ e => KeepsPriority e) (boot_init 1)
    ([.scheduler 0, .enter 0, .allocproc 0 3, .forkCopy 0 1, .forkEnter 0 1, .sleep 0 (.addr 7),
      .leave 0] ++ List.replicate 150 .updateClock ++ [.upgradePriorityAging])
    (fun s => (s.table.proc 0).state = .sleeping ∧ (s.table.proc 1).priority = 2)
    (by decide +kernel)
  exact ⟨s, run, sleeps, raised, (lottery_needs_change_prio run).2⟩

/-! ## The state diagram -/

def Follows : ProcState → ProcState → Prop
  | .unused, .embryo | .embryo, .unused | .embryo, .runnable | .runnable, .running
  | .running, .runnable | .running, .sleeping | .running, .zombie | .sleeping, .runnable
  | .zombie, .unused => True
  | before, after => before = after

/-- Every step of every run takes each process along the diagram, and only a step of its own
takes it off a CPU. -/
theorem step_follows_diagram {s : Machine n} (run : (Dispatch.system n).Run NoLottery s)
    (enabled : Dispatch.Enabled s e) (undrawn : NoLottery s e)
    (ran : Dispatch.perform s e = .ok after) (p : ProcId) :
    Follows (s.table.proc p).state (after.table.proc p).state ∧
      ((s.table.proc p).state = .running → (after.table.proc p).state ≠ .running →
        ∃ c, actor e = some c ∧ s.cpu c = some p) := by
  have turn := slot_turn True (fun _ => ⟨run_inv run, enabled, undrawn⟩) ran p
  generalize after.table.proc p = slot at turn ⊢
  cases turn with
  | reaped zombie _ cleared =>
    rcases cleared with rfl | rfl <;> simp [Follows, zombie, waitClear, wait2Clear]
  | waits scan running => cases scan <;> simp_all [Follows, actor, asleep]
  | struck =>
    simp only [struck]
    cases (s.table.proc p).state <;> simp [Follows]
  | _ => simp_all [Follows, actor, dispatched, asleep, embryoSlot]

/-- A child exits while init sleeps in `wait`: one step takes the child from RUNNING to
ZOMBIE and init from SLEEPING to RUNNABLE. -/
theorem step_follows_diagram_exit : ∃ s after : Machine 2,
    (Dispatch.system 2).Run NoLottery s ∧ Dispatch.perform s (.exit 1) = .ok after ∧
      ((s.table.proc 1).state = .running ∧ (after.table.proc 1).state = .zombie) ∧
      ((s.table.proc 0).state = .sleeping ∧ (after.table.proc 0).state = .runnable) ∧
      (∀ p, Follows (s.table.proc p).state (after.table.proc p).state) ∧
      ∃ c, actor (.exit (1 : Fin 2)) = some c ∧ s.cpu c = some 1 := by
  obtain ⟨s, run, enabled, running, sleeping, after, ran, zombie, woken⟩ :=
    System.exists_run NoLottery (boot_init 2) childRuns
      (fun s => Dispatch.Enabled s (.exit 1) ∧ (s.table.proc 1).state = .running ∧
        (s.table.proc 0).state = .sleeping ∧ ∃ after, Dispatch.perform s (.exit 1) = .ok after ∧
          (after.table.proc 1).state = .zombie ∧ (after.table.proc 0).state = .runnable)
      (by decide +kernel)
  have follows := step_follows_diagram run enabled trivial ran
  exact ⟨s, after, run, ran, ⟨running, zombie⟩, ⟨sleeping, woken⟩, fun p => (follows p).1,
    (follows 1).2 running (by rw [zombie]; decide)⟩

end Xv6.ProcLife
