import Xv6.ExitWait

/-! The counters `wait2` reports. Beside the kernel an account is kept for every
slot: opened by the step of `fork` that makes the process RUNNABLE, closed by its
`exit`, and charged with every pass of `updateClock` in between. Whatever happened
to the slot before, what `wait2` stores is what the account says. -/
namespace Xv6.TickAccounts
open CheckedC ProcTable SlotEffects ProcLife ExitWait StepSystem Function
open Dispatch (Event Machine NoLottery)

structure Account where
  pid : Int := 0
  /-- the process has been made RUNNABLE and has not exited -/
  living : Bool := false
  /-- all passes, and those that found it RUNNABLE, RUNNING and SLEEPING -/
  total : Int := 0
  ready : Int := 0
  run : Int := 0
  sleep : Int := 0
  deriving DecidableEq

/-- One pass that finds the process in this state. -/
def Account.charge (a : Account) (state : ProcState) : Account :=
  { a with
    total := a.total + 1
    ready := a.ready + if state = .runnable then 1 else 0
    run := a.run + if state = .running then 1 else 0
    sleep := a.sleep + if state = .sleeping then 1 else 0 }

abbrev Accounts := ProcId → Account

def keep (s : Kernel n) (e : Event n) (_ : Kernel n) (books : Accounts) : Accounts := fun p =>
  match e with
  | .forkEnter _ np => if p = np then { pid := (s.proc np).pid, living := true } else books p
  | .exit c => if s.machine.cpu c = some p then { books p with living := false } else books p
  | .updateClock => if (books p).living then (books p).charge (s.proc p).state else books p
  | _ => books p

def opening (s : Kernel n) : Accounts := fun p =>
  if s.table.initproc = some p then { pid := (s.proc p).pid, living := true } else {}

def audited (n : Nat) : System (Kernel n × Accounts) (Event n) := (system n).watch opening keep

instance : Decidable ((audited n).Enabled s e) := inferInstanceAs (Decidable (Enabled s.1 e))

/-- What `wait2` stores and returns, if the step is a scan of it that reaps a child. -/
def report (s : Machine n) : Event n → Option (ProcId × WaitResult Wait2Report)
  | .wait2 c => (s.cpu c).map fun p => (p, (wait2 s.table p).1)
  | .enter c =>
    (s.cpu c).bind fun p =>
      if s.resume p = .waiting2 then some (p, (wait2 (sleepResume s.table p) p).1) else none
  | _ => none

/-- What `wait2` tells about a child is what the child's account says. -/
def Exact (s : Kernel n) (books : Accounts) (e : Event n) : Prop :=
  ∀ p told, report s.machine e = some (p, .reaped told) →
    ∃ r, (s.proc r).parent = some p ∧ (s.proc r).state = .zombie ∧ (books r).living = false ∧
      told.pid = (books r).pid ∧ told.retime = (books r).ready ∧ told.rutime = (books r).run ∧
      told.stime = (books r).sleep ∧ told.retime + told.rutime + told.stime = (books r).total

/-! ## The books agree with the slots -/

structure Agrees (proc : Proc) (a : Account) : Prop where
  living : a.living = true ↔ Alive proc.state
  blank : proc.state = .embryo → proc.retime = 0 ∧ proc.rutime = 0 ∧ proc.stime = 0
  counts : Born proc.state → proc.pid = a.pid ∧ proc.retime = a.ready ∧ proc.rutime = a.run ∧
    proc.stime = a.sleep
  sum : a.total = a.ready + a.run + a.sleep

theorem Agrees.congr (agrees : Agrees proc a) (pid : slot.pid = proc.pid)
    (retime : slot.retime = proc.retime) (rutime : slot.rutime = proc.rutime)
    (stime : slot.stime = proc.stime)
    (state : slot.state = proc.state ∨ Alive slot.state ∧ Alive proc.state) : Agrees slot a := by
  have alive : Alive slot.state ↔ Alive proc.state := by
    rcases state with same | both
    · rw [same]
    · exact ⟨fun _ => both.2, fun _ => both.1⟩
  refine ⟨agrees.living.trans alive.symm, fun embryo => ?_, fun born => ?_, agrees.sum⟩
  · rw [retime, rutime, stime]
    refine agrees.blank ?_
    rcases state with same | both
    · rw [← same, embryo]
    · simp [embryo, Alive] at both
  · rw [pid, retime, rutime, stime]
    refine agrees.counts ?_
    rcases state with same | both
    · rwa [← same]
    · exact .inl both.2

theorem agrees_early (closed : a.living = false) (sum : a.total = a.ready + a.run + a.sleep)
    (early : slot.state = .unused ∨
      slot.state = .embryo ∧ slot.retime = 0 ∧ slot.rutime = 0 ∧ slot.stime = 0) :
    Agrees slot a := by
  rcases early with unused | ⟨embryo, zeros⟩
  · exact ⟨by simp [closed, unused, Alive], by simp [unused], by simp [unused, ExitWait.Born, Alive], sum⟩
  · exact ⟨by simp [closed, embryo, Alive], fun _ => zeros, by simp [embryo, ExitWait.Born, Alive], sum⟩

theorem Agrees.closed (agrees : Agrees proc a) (dead : ¬ Alive proc.state) : a.living = false := by
  cases flag : a.living with
  | false => rfl
  | true => exact absurd (agrees.living.mp flag) dead

/-- The steps that open, close and charge accounts. -/
def Books : Event n → Prop
  | .forkEnter _ _ | .exit _ | .updateClock => True
  | _ => False

theorem Agrees.turn {s : Machine n} (agrees : Agrees (s.table.proc p) a)
    (turn : Turn True s p e slot) (quiet : ¬ Books e) : Agrees slot a := by
  cases turn with
  | kept => exact agrees
  | tidied | prioritized | requeued | copied => exact agrees.congr rfl rfl rfl rfl (.inl rfl)
  | dispatched ready =>
    exact agrees.congr rfl rfl rfl rfl (.inr (by simp [Alive, dispatched, ready]))
  | yielded here running | slept here running | waits scan running =>
    exact agrees.congr rfl rfl rfl rfl (.inr (by simp [Alive, asleep, running]))
  | woken sleeping => exact agrees.congr rfl rfl rfl rfl (.inr (by simp [Alive, sleeping]))
  | struck target =>
    refine agrees.congr rfl rfl rfl rfl ?_
    unfold struck
    split
    · rename_i sleeping
      exact .inr (by simp [Alive, sleeping])
    · exact .inl rfl
  | reaped zombie scan cleared =>
    refine agrees_early (agrees.closed (by simp [zombie, Alive])) agrees.sum (.inl ?_)
    rcases cleared with rfl | rfl <;> rfl
  | allocated unused =>
    exact agrees_early (agrees.closed (by simp [unused, Alive])) agrees.sum
      (.inr ⟨rfl, rfl, rfl, rfl⟩)
  | abandoned embryo =>
    exact agrees_early (agrees.closed (by simp [embryo, Alive])) agrees.sum (.inl rfl)
  | promoted =>
    refine agrees.congr (promote_pid _) ?_ ?_ ?_ (.inl (promote_state _))
    all_goals
      unfold promote
      split
      · split <;> rfl
      · rfl
  | exited | passed | passedWoken | entered | ticked => exact absurd trivial quiet

theorem Agrees.tick (agrees : Agrees proc a) :
    Agrees (tick proc) (if a.living then a.charge proc.state else a) := by
  by_cases living : a.living = true
  · have alive := agrees.living.mp living
    obtain ⟨pid, retime, rutime, stime⟩ := agrees.counts (.inl alive)
    have sum := agrees.sum
    rw [if_pos living]
    refine ⟨?_, ?_, fun _ => ?_, ?_⟩
    · rw [tick_state]
      exact agrees.living
    · rw [tick_state]
      intro embryo
      simp [embryo, Alive] at alive
    · rcases alive with sleeping | ready | running
      · simp [ProcTable.tick, Account.charge, sleeping, pid, retime, rutime, stime]
      · simp [ProcTable.tick, Account.charge, ready, pid, retime, rutime, stime]
      · simp [ProcTable.tick, Account.charge, running, pid, retime, rutime, stime]
    · rcases alive with sleeping | ready | running
      · simp [Account.charge, sleeping, sum]
        omega
      · simp [Account.charge, ready, sum]
        omega
      · simp [Account.charge, running, sum]
        omega
  · rw [if_neg living]
    have dead : ¬ Alive proc.state := fun alive => living (agrees.living.mpr alive)
    have same : ProcTable.tick proc = proc := by
      unfold ProcTable.tick
      split
      · rename_i sleeping
        exact absurd (.inl sleeping) dead
      · rename_i ready
        exact absurd (.inr (.inl ready)) dead
      · rename_i running
        exact absurd (.inr (.inr running)) dead
      · rfl
    rw [same]
    exact agrees

theorem Agrees.enter (agrees : Agrees proc a) (embryo : proc.state = .embryo) (priority : Int) :
    Agrees { proc with priority := priority, state := .runnable }
      { pid := proc.pid, living := true } := by
  obtain ⟨retime, rutime, stime⟩ := agrees.blank embryo
  exact ⟨by simp [Alive], nofun, fun _ => ⟨rfl, retime, rutime, stime⟩, rfl⟩

theorem Agrees.exit (agrees : Agrees proc a) (alive : Alive proc.state) (zombie : slot.state = .zombie)
    (pid : slot.pid = proc.pid) (retime : slot.retime = proc.retime)
    (rutime : slot.rutime = proc.rutime) (stime : slot.stime = proc.stime) :
    Agrees slot { a with living := false } := by
  refine ⟨by simp [zombie, Alive], by simp [zombie], fun _ => ?_, agrees.sum⟩
  rw [pid, retime, rutime, stime]
  exact agrees.counts (.inl alive)

theorem step_agrees {s : Kernel n} {books : Accounts} (agrees : ∀ p, Agrees (s.proc p) (books p))
    (inv : Dispatch.Inv s.machine) (enabled : Enabled s e) (drawn : NoLottery s.machine e)
    (ran : perform s e = .ok after) (p : ProcId) : Agrees (after.proc p) (keep s e after books p) := by
  obtain ⟨stepped, _⟩ := perform_eq_ok ran
  have turn := slot_turn True (fun _ => ⟨inv, enabled.1, drawn⟩) stepped p
  have before := agrees p
  cases e with
  | exit c =>
    obtain ⟨q, here, _⟩ := stage_of_at enabled.2
    by_cases same : q = p
    · subst same
      have running := actor_running inv enabled.1 rfl here
      simp only [Dispatch.perform, here, deref, bind_ok] at stepped
      obtain ⟨t, exits, ends⟩ := bind_eq_ok.mp stepped
      have slot := congrFun (exit_slots exits).2.2 q
      rw [update_self] at slot
      have whole : after.proc q = { bereaved s.table q q with state := .zombie } := by
        rw [← slot, Kernel.proc, ← Except.ok.inj ends]
      simp only [keep, here, if_true]
      rw [whole]
      have awake : bereaved s.table q q = adopt q s.table.initproc (s.proc q) := by
        refine (bereaved_cases s.table q q).resolve_right fun asleep => ?_
        rw [running] at asleep
        cases asleep.1
      refine before.exit (by simp [Alive, Kernel.proc, running]) rfl ?_ ?_ ?_ ?_
      all_goals
        simp only [awake, adopt]
        split <;> rfl
    · have other : s.machine.cpu c ≠ some p := by
        rw [here]
        exact fun equal => same (Option.some.inj equal)
      simp only [keep, if_neg other]
      simp only [Kernel.proc]
      generalize after.machine.table.proc p = slot at turn
      cases turn with
      | kept => exact before
      | exited there => exact absurd there other
      | passed => exact before.congr rfl rfl rfl rfl (.inl rfl)
      | passedWoken sleeping =>
        exact before.congr rfl rfl rfl rfl (.inr (by simp [Alive, Kernel.proc, sleeping]))
      | waits scan => cases scan
      | reaped zombie scan => cases scan
  | forkEnter c np =>
    obtain ⟨t, enters, ends⟩ := bind_eq_ok.mp stepped
    have cells : after.proc p = update s.table.proc np
        { s.table.proc np with priority := PRIO, state := .runnable } p := by
      rw [← (enterReady_slots enters).1, Kernel.proc, ← Except.ok.inj ends]
    by_cases same : p = np
    · subst same
      rw [cells, update_self]
      simp only [keep, if_true]
      exact before.enter enabled.1.2.2 PRIO
    · rw [cells, update_of_ne same]
      simp only [keep, if_neg same]
      exact before
  | updateClock =>
    have cells : after.proc p = ProcTable.tick (s.proc p) := by
      rw [Kernel.proc, ← Except.ok.inj stepped]
      rfl
    rw [cells]
    exact before.tick
  | _ => exact before.turn turn id

/-! ## What wait2 reports -/

theorem start_agrees {s : Kernel n} (init : (system n).Init s) (p : ProcId) :
    Agrees (s.proc p) (opening s p) := by
  obtain ⟨⟨t, left, machine⟩, _⟩ := init
  obtain ⟨cells, root, _⟩ := userinit_slots left
  have table : s.table.initproc = some 0 := by simp only [Kernel.table, machine, Dispatch.boot, root]
  by_cases here : p = 0
  · subst here
    have first : s.proc 0 = initSlot := by
      simp only [Kernel.proc, machine, Dispatch.boot, cells, update_self]
    simp only [opening, table, if_true, first]
    exact ⟨by simp [initSlot, Alive], by simp [initSlot], fun _ => ⟨rfl, rfl, rfl, rfl⟩, rfl⟩
  · have blank : s.proc p = {} := by
      simp only [Kernel.proc, machine, Dispatch.boot, cells, update_of_ne here]
    have other : s.table.initproc ≠ some p := by
      rw [table]
      exact fun same => here (Option.some.inj same).symm
    simp only [opening, if_neg other, blank]
    exact agrees_early rfl rfl (.inl rfl)

theorem run_agrees (run : (audited n).Run (fun s e => NoLottery s.1.machine e) s) :
    ∀ p, Agrees (s.1.proc p) (s.2 p) := by
  induction run with
  | start init =>
    intro p
    rw [init.2]
    exact start_agrees init.1 p
  | step run enabled drawn ran earlier =>
    obtain ⟨stepped, record⟩ := System.watch_perform ran
    have plain : (system n).Run (fun s e => NoLottery s.machine e) _ :=
      run.unwatched fun _ _ drawn => drawn
    have inv := Dispatch.run_inv (run_machine plain fun _ _ drawn => drawn)
    rw [record]
    exact step_agrees earlier inv enabled drawn stepped

def Shows (told : Wait2Report) (p : ProcId) (proc : Proc) : Prop :=
  proc.parent = some p ∧ proc.state = .zombie ∧ told.pid = proc.pid ∧
    told.retime = proc.retime ∧ told.rutime = proc.rutime ∧ told.stime = proc.stime

theorem wait2_shows (found : (wait2 t p).1 = .reaped told) : ∃ r, Shows told p (t.proc r) := by
  rcases ReadyQueues.waitPass_outcome wait2Clear
    (fun proc => (⟨proc.pid, proc.retime, proc.rutime, proc.stime⟩ : Wait2Report)) t p with
    ⟨r, child, zombie, ends⟩ | ⟨_, ends⟩ | ⟨_, ends⟩
  · rw [wait2, ends] at found
    cases found
    exact ⟨r, child, zombie, rfl, rfl, rfl, rfl⟩
  · rw [wait2, ends] at found
    cases found
  · rw [wait2, ends] at found
    cases found

theorem report_shows {s : Machine n} (found : report s e = some (p, .reaped told)) :
    ∃ r, Shows told p (s.table.proc r) := by
  cases e with
  | wait2 c =>
    obtain ⟨q, here, value⟩ := Option.map_eq_some_iff.mp found
    cases (Prod.mk.inj value).1
    exact wait2_shows (Prod.mk.inj value).2
  | enter c =>
    obtain ⟨q, here, value⟩ := Option.bind_eq_some_iff.mp found
    split at value
    · have ends := Prod.mk.inj (Option.some.inj value)
      cases ends.1
      obtain ⟨r, shows⟩ := wait2_shows ends.2
      refine ⟨r, ?_⟩
      rcases untouched_tidied s p r with same | ⟨_, chan, same⟩ <;> rwa [same] at shows
    · cases value
  | _ => cases found

/-- In every run of `fork`, the scheduler, `yield`, `sleep`, `wakeup`, `kill`, `exit`,
`wait`, `wait2`, `change_prio` and clock ticks, on any number of CPUs, without passes by the
lottery branch. -/
theorem wait2_reports_account (run : (audited n).Run (fun s e => NoLottery s.1.machine e) s)
    (e : Event n) : Exact s.1 s.2 e := by
  intro p told found
  obtain ⟨r, child, zombie, pid, retime, rutime, stime⟩ := report_shows found
  have agrees := run_agrees run r
  have closed := agrees.closed (by simp [Kernel.proc, zombie, Alive])
  obtain ⟨pid', ready, running, sleep⟩ := agrees.counts (.inr zombie)
  have sum := agrees.sum
  refine ⟨r, child, zombie, closed, pid.trans pid', retime.trans ready, rutime.trans running,
    stime.trans sleep, ?_⟩
  rw [retime, rutime, stime, ready, running, sleep, sum]

/-- A child of init waits, runs, sleeps and waits again before it exits; init is told
2 ticks ready, 1 running and 3 asleep. -/
theorem wait2_reports_account_child : ∃ s : Kernel 2 × Accounts,
    (audited 2).Run (fun s e => NoLottery s.1.machine e) s ∧
    report s.1.machine (.wait2 0) = some (0, .reaped ⟨2, 2, 1, 3⟩) ∧ Exact s.1 s.2 (.wait2 0) := by
  obtain ⟨s, run, here⟩ := System.exists_run (fun s e => NoLottery s.1.machine e)
    (s := (start 2, opening (start 2))) (m := audited 2) ⟨start_init 2, rfl⟩
    [.scheduler 0, .enter 0, .allocproc 0 3, .updateClock, .forkCopy 0 1, .forkEnter 0 1,
      .updateClock, .scheduler 1, .enter 1, .updateClock, .changePrio 1 4, .sleep 1 (.addr 1), .leave 1,
      .updateClock, .updateClock, .updateClock, .wakeup (.addr 1), .updateClock, .scheduler 1,
      .enter 1, .exit 1, .leave 1, .updateClock]
    (fun s => report s.1.machine (.wait2 0) = some (0, .reaped ⟨2, 2, 1, 3⟩))
    (by decide +kernel)
  exact ⟨s, run, here, wait2_reports_account run (.wait2 0)⟩

end Xv6.TickAccounts
