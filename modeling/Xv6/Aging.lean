import Xv6.TimeSlice

/-! Aging of the processes that delay in the ready queues. Beside the kernel the
passes of `updateClock` are counted for every slot. As long as no scheduler pass
takes the lottery branch, `readyTimeAging` is that count, no process waits longer
than the limit of its queue, and one that waits for the sum of the three limits
has reached the top queue. -/
namespace Xv6.Aging
open CheckedC ProcTable ReadyQueues SlotEffects StepSystem
open Dispatch (Event Machine NoLottery)
open TimeSlice (Phase Step Traps)

/-- How long a process has waited: in ticks since it last became RUNNABLE, and
since it last became RUNNABLE or was promoted. -/
structure Delay where
  ticks : Int := 0
  sinceRise : Int := 0
  deriving DecidableEq

def delayAfter (e : Step n) (before after : Proc) (delay : Delay) : Delay :=
  if before.state = .runnable ∧ after.state = .runnable then
    match e with
    | .kernel .updateClock => ⟨delay.ticks + 1, delay.sinceRise + 1⟩
    | .kernel .upgradePriorityAging =>
      if after.priority = before.priority then delay else { delay with sinceRise := 0 }
    | _ => delay
  else {}

def count (s : Traps n) (e : Step n) (after : Traps n) (waits : ProcId → Delay) : ProcId → Delay :=
  fun p => delayAfter e (s.machine.table.proc p) (after.machine.table.proc p) (waits p)

/-- The kernel with its timer interrupts and the time every process has waited. -/
def timed (n : Nat) : System (Traps n × (ProcId → Delay)) (Step n) :=
  (TimeSlice.system n).watch (fun _ _ => {}) count

instance : Decidable ((timed n).Enabled s e) := inferInstanceAs (Decidable (TimeSlice.Enabled s.1 e))

/-- The step is not a scheduler pass by the lottery branch. -/
def Undrawn (s : Traps n × (ProcId → Delay)) : Step n → Prop
  | .kernel e => NoLottery s.1.machine e
  | .timer _ => True

/-- `readyTimeAging` is 0 while the process runs or sleeps, and while it is ready the
ticks since it became so or was promoted. -/
def Counts (proc : Proc) (delay : Delay) : Prop :=
  (proc.state = .running ∨ proc.state = .sleeping → proc.readyTimeAging = 0) ∧
    (proc.state = .runnable → proc.readyTimeAging = delay.sinceRise)

/-- A process that is ready has waited less than the limit of its queue. -/
def Bounded (proc : Proc) : Prop :=
  proc.state = .runnable →
    (proc.priority = 0 → proc.readyTimeAging < oneToTwo) ∧
    (proc.priority = 1 → proc.readyTimeAging < twoToThree) ∧
    (proc.priority = 2 → proc.readyTimeAging < threeToFour)

/-- A process that stays ready for the sum of the limits is in the top queue. -/
def ReachesTop (proc : Proc) (delay : Delay) : Prop :=
  proc.state = .runnable → oneToTwo + twoToThree + threeToFour ≤ delay.ticks → proc.priority = 3

/-- The priority of a process that stays ready is raised by one, by the aging pass
after its wait has reached the limit, or is not changed. -/
def RisesByOne (e : Step n) (before after : Proc) : Prop :=
  before.state = .runnable → after.state = .runnable → after.priority = before.priority ∨
    e = .kernel .upgradePriorityAging ∧ after.priority = before.priority + 1 ∧
      ∃ limit, agingLimit before.priority = some limit ∧ limit ≤ before.readyTimeAging

/-! ## The invariant of a slot -/

/-- The most ticks a process can have spent in the queues below its own. -/
def spent (priority : Int) : Int :=
  if priority ≤ 0 then 0
  else if priority = 1 then oneToTwo
  else if priority = 2 then oneToTwo + twoToThree
  else oneToTwo + twoToThree + threeToFour

theorem spent_nonneg (priority : Int) : 0 ≤ spent priority := by
  unfold spent oneToTwo twoToThree threeToFour
  split_ifs <;> omega

/-- What holds of a slot; `slack` is 1 between the two halves of a tick. -/
structure Waits (slack : Int) (proc : Proc) (delay : Delay) : Prop where
  zero : proc.state ≠ .runnable → proc.readyTimeAging = 0
  counted : proc.state = .runnable → proc.readyTimeAging = delay.sinceRise
  within : proc.state = .runnable → ∀ limit, agingLimit proc.priority = some limit →
    proc.readyTimeAging < limit + slack
  total : proc.state = .runnable → delay.ticks ≤ spent proc.priority + proc.readyTimeAging

theorem agingLimit_pos (found : agingLimit priority = some limit) : 0 < limit := by
  unfold agingLimit at found
  split at found
  · cases found
    decide
  · cases found
    decide
  · cases found
    decide
  · cases found

theorem waits_stopped (stopped : proc.state ≠ .runnable) (zero : proc.readyTimeAging = 0) :
    Waits slack proc delay :=
  ⟨fun _ => zero, fun ready => absurd ready stopped, fun ready => absurd ready stopped,
    fun ready => absurd ready stopped⟩

theorem waits_begins (nonneg : 0 ≤ slack) (zero : proc.readyTimeAging = 0) :
    Waits slack proc {} := by
  refine ⟨fun _ => zero, fun _ => zero, fun _ limit found => ?_, fun _ => ?_⟩
  · have positive := agingLimit_pos found
    omega
  · have positive := spent_nonneg proc.priority
    simp only
    omega

theorem Waits.congr (waits : Waits slack proc delay) (state : slot.state = proc.state)
    (priority : slot.priority = proc.priority)
    (aging : slot.readyTimeAging = proc.readyTimeAging) : Waits slack slot delay := by
  refine ⟨?_, ?_, ?_, ?_⟩
  · rw [state, aging]
    exact waits.zero
  · rw [state, aging]
    exact waits.counted
  · rw [state, priority, aging]
    exact waits.within
  · rw [state, priority, aging]
    exact waits.total

theorem delayAfter_starts {before after : Proc} (was : before.state ≠ .runnable) :
    delayAfter e before after delay = {} := by
  unfold delayAfter
  rw [if_neg fun both => was both.1]

def Ticks : Event n → Prop
  | .updateClock | .upgradePriorityAging => True
  | _ => False

theorem delayAfter_stays {before after : Proc} (ready : before.state = .runnable)
    (still : after.state = .runnable) (quiet : ¬ Ticks e) :
    delayAfter (.kernel e) before after delay = delay := by
  unfold delayAfter
  rw [if_pos ⟨ready, still⟩]
  cases e with
  | updateClock => exact absurd trivial quiet
  | upgradePriorityAging => exact absurd trivial quiet
  | _ => rfl

theorem Waits.same (waits : Waits slack proc delay) (nonneg : 0 ≤ slack) (quiet : ¬ Ticks e)
    (state : slot.state = proc.state) (priority : slot.priority = proc.priority)
    (aging : slot.readyTimeAging = proc.readyTimeAging) :
    Waits slack slot (delayAfter (.kernel e) proc slot delay) := by
  by_cases ready : proc.state = .runnable
  · rw [delayAfter_stays ready (state.trans ready) quiet]
    exact waits.congr state priority aging
  · rw [delayAfter_starts ready]
    exact waits_begins nonneg (aging.trans (waits.zero ready))

theorem Waits.begins (waits : Waits slack proc delay) (nonneg : 0 ≤ slack)
    (was : proc.state ≠ .runnable) (aging : slot.readyTimeAging = proc.readyTimeAging) :
    Waits slack slot (delayAfter e proc slot delay) := by
  rw [delayAfter_starts was]
  exact waits_begins nonneg (aging.trans (waits.zero was))

theorem Waits.turn {s : Machine (n + 1)} (waits : Waits slack (s.table.proc p) delay)
    (nonneg : 0 ≤ slack) (turn : Turn True s p e slot) (quiet : ¬ Ticks e) :
    Waits slack slot (delayAfter (.kernel e) (s.table.proc p) slot delay) := by
  cases turn with
  | kept | tidied | passed | copied => exact waits.same nonneg quiet rfl rfl rfl
  | dispatched => exact waits_stopped (by simp [dispatched]) rfl
  | yielded here running => exact waits.begins nonneg (by simp [running]) rfl
  | slept here running | waits scan running =>
    exact waits_stopped (by simp [asleep]) (waits.zero (by simp [running]))
  | reaped zombie scan cleared =>
    have zero := waits.zero (by simp [zombie])
    rcases cleared with rfl | rfl <;> exact waits_stopped (by simp [waitClear, wait2Clear]) zero
  | exited here running => exact waits_stopped (by simp) (waits.zero (by simp [running]))
  | passedWoken sleeping | woken sleeping => exact waits.begins nonneg (by simp [sleeping]) rfl
  | struck target =>
    by_cases sleeping : (s.table.proc p).state = .sleeping
    · exact waits.begins nonneg (by simp [sleeping]) rfl
    · exact waits.same nonneg quiet (by simp [struck, sleeping]) rfl rfl
  | prioritized here running => exact waits.begins nonneg (by simp [running]) rfl
  | requeued running ready =>
    rw [running trivial] at ready
    cases ready
  | allocated => exact waits_stopped (by simp [embryoSlot]) rfl
  | entered embryo => exact waits.begins nonneg (by simp [embryo]) rfl
  | abandoned embryo => exact waits_stopped (by simp) (waits.zero (by simp [embryo]))
  | ticked | promoted => exact absurd trivial quiet

theorem Waits.tick (waits : Waits 0 proc delay) :
    Waits 1 (tick proc) (delayAfter (.kernel (n := n) .updateClock) proc (tick proc) delay) := by
  by_cases ready : proc.state = .runnable
  · have counted := waits.counted ready
    have total := waits.total ready
    rw [delayAfter, if_pos ⟨ready, by rw [tick_state, ready]⟩]
    have aging : (ProcTable.tick proc).readyTimeAging = proc.readyTimeAging + 1 := by
      simp [ProcTable.tick, ready]
    refine ⟨?_, fun _ => ?_, fun _ limit found => ?_, fun _ => ?_⟩
    · simp [ready]
    · simp only
      omega
    · rw [tick_priority] at found
      have bound := waits.within ready limit found
      omega
    · rw [tick_priority]
      simp only
      omega
  · rw [delayAfter_starts ready]
    refine waits_begins (by omega) ?_
    have zero := waits.zero ready
    unfold ProcTable.tick
    split <;> simp_all

theorem spent_succ (found : agingLimit priority = some limit) :
    spent (priority + 1) = spent priority + limit := by
  unfold agingLimit at found
  split at found
  · cases found
    decide
  · cases found
    decide
  · cases found
    decide
  · cases found

theorem Waits.promote (waits : Waits 1 proc delay) :
    Waits 0 (promote proc)
      (delayAfter (.kernel (n := n) .upgradePriorityAging) proc (promote proc) delay) := by
  by_cases ready : proc.state = .runnable
  · rw [delayAfter, if_pos ⟨ready, by rw [promote_state, ready]⟩]
    have total := waits.total ready
    by_cases due : ∃ limit, agingLimit proc.priority = some limit ∧ limit ≤ proc.readyTimeAging
    · obtain ⟨limit, found, reached⟩ := due
      have bound := waits.within ready limit found
      have raised : SlotEffects.promote proc =
          { proc with priority := proc.priority + 1, readyTimeAging := 0 } := by
        simp only [SlotEffects.promote, found, if_pos (And.intro ready reached)]
      have above := spent_succ found
      rw [raised]
      simp only [show proc.priority + 1 ≠ proc.priority by omega, if_false]
      refine ⟨fun _ => rfl, fun _ => rfl, fun _ next found => ?_, fun _ => ?_⟩
      · have positive := agingLimit_pos found
        simpa using positive
      · simp only
        omega
    · have same : SlotEffects.promote proc = proc := by
        unfold SlotEffects.promote
        split
        · rename_i limit found
          rw [if_neg fun both => due ⟨limit, found, both.2⟩]
        · rfl
      rw [same]
      simp only [if_true]
      refine ⟨waits.zero, waits.counted, fun _ limit found => ?_, waits.total⟩
      by_contra late
      exact due ⟨limit, found, by omega⟩
  · rw [delayAfter_starts ready]
    refine waits_begins (by omega) ?_
    have zero := waits.zero ready
    unfold SlotEffects.promote
    split
    · split
      · rfl
      · exact zero
    · exact zero

/-! ## Runs -/

/-- One between the two halves of a tick. -/
def slack (phase : Phase) : Int := if phase = .clocked then 1 else 0

theorem slack_nonneg (phase : Phase) : 0 ≤ slack phase := by
  unfold slack
  split <;> omega

def AllWait (s : Traps n × (ProcId → Delay)) : Prop :=
  ∀ p, Waits (slack s.1.phase) (s.1.machine.table.proc p) (s.2 p)

theorem step_waits {s : Traps n × (ProcId → Delay)} (waits : AllWait s)
    (inv : Dispatch.Inv s.1.machine) (enabled : (timed n).Enabled s e) (drawn : Undrawn s e)
    (ran : (timed n).perform s e = .ok after) : AllWait after := by
  obtain ⟨stepped, record⟩ := System.watch_perform ran
  intro p
  have before := waits p
  rw [record]
  cases e with
  | timer c =>
    have whole := (Except.ok.inj stepped).symm
    have phase : slack after.1.phase = slack s.1.phase := by
      rw [whole]
      by_cases zero : c = 0
      · simp [slack, zero, enabled.2.2.2 zero]
      · simp [slack, zero]
    have machine : after.1.machine = s.1.machine := by rw [whole]
    rw [phase, count, machine]
    by_cases ready : (s.1.machine.table.proc p).state = .runnable
    · unfold delayAfter
      rwa [if_pos ⟨ready, ready⟩]
    · rw [delayAfter_starts ready]
      exact waits_begins (slack_nonneg _) (before.zero ready)
  | kernel e =>
    obtain ⟨machine, moved, ends⟩ := bind_eq_ok.mp stepped
    have whole : after.1 = ⟨machine, TimeSlice.phaseAfter s.1.phase e, _⟩ :=
      (Except.ok.inj ends).symm
    have turn := slot_turn True (fun _ => ⟨inv, enabled.1, drawn⟩) moved p
    rw [whole, count]
    cases e with
    | updateClock =>
      have idle : s.1.phase = .idle := enabled.2.1
      rw [idle] at before
      rw [← Except.ok.inj moved]
      exact before.tick
    | upgradePriorityAging =>
      have clocked : s.1.phase = .clocked := enabled.2.1
      obtain ⟨t, aged, ends⟩ := bind_eq_ok.mp moved
      rw [clocked] at before
      rw [← Except.ok.inj ends]
      simp only [(upgradePriorityAging_slots aged).1 p]
      exact before.promote
    | _ => exact before.turn (slack_nonneg _) turn id

theorem run_machine (run : (timed n).Run Undrawn s) :
    (Dispatch.system (n + 1)).Run NoLottery s.1.machine := by
  induction run with
  | start init => exact System.Run.start init.1.1
  | @step s e after _ enabled drawn ran earlier =>
    have stepped := (System.watch_perform ran).1
    cases e with
    | timer c =>
      have machine : after.1.machine = s.1.machine := by rw [← Except.ok.inj stepped]
      rwa [machine]
    | kernel e =>
      obtain ⟨machine, moved, ends⟩ := bind_eq_ok.mp stepped
      rw [← Except.ok.inj ends]
      exact earlier.step enabled.1 drawn moved

theorem run_waits (run : (timed n).Run Undrawn s) : AllWait s := by
  induction run with
  | start init =>
    intro p
    obtain ⟨⟨⟨t, left, machine⟩, _⟩, record⟩ := init
    rw [record, machine]
    simp only [Dispatch.boot, (userinit_slots left).1]
    refine waits_begins (slack_nonneg _) ?_
    by_cases here : p = 0
    · subst here
      rfl
    · rw [Function.update_of_ne here]
  | step run enabled drawn ran earlier =>
    exact step_waits earlier (Dispatch.run_inv (run_machine run)) enabled drawn ran

theorem Waits.counts (waits : Waits k proc delay) : Counts proc delay := by
  refine ⟨fun stopped => waits.zero fun ready => ?_, waits.counted⟩
  rw [ready] at stopped
  rcases stopped with impossible | impossible <;> cases impossible

theorem Waits.bounded (waits : Waits 0 proc delay) : Bounded proc := by
  intro ready
  have within := waits.within ready
  refine ⟨fun low => ?_, fun low => ?_, fun low => ?_⟩
  · simpa using within oneToTwo (by rw [low]; rfl)
  · simpa using within twoToThree (by rw [low]; rfl)
  · simpa using within threeToFour (by rw [low]; rfl)

theorem Waits.reaches (waits : Waits 0 proc delay)
    (ranged : proc.state = .runnable → 0 ≤ proc.priority ∧ proc.priority ≤ 3) :
    ReachesTop proc delay := by
  intro ready long
  have total := waits.total ready
  obtain ⟨zero, one, two⟩ := waits.bounded ready
  obtain ⟨least, most⟩ := ranged ready
  by_contra below
  have low : proc.priority = 0 ∨ proc.priority = 1 ∨ proc.priority = 2 := by omega
  unfold oneToTwo twoToThree threeToFour at *
  rcases low with here | here | here
  · simp [spent, here] at total
    omega
  · simp [spent, here, oneToTwo] at total
    omega
  · simp [spent, here, oneToTwo, twoToThree] at total
    omega

theorem promote_rises (proc : Proc) (same : (promote proc).priority ≠ proc.priority) :
    (promote proc).priority = proc.priority + 1 ∧
      ∃ limit, agingLimit proc.priority = some limit ∧ limit ≤ proc.readyTimeAging := by
  unfold promote at same ⊢
  split at same
  · rename_i limit found
    split at same
    · rename_i due
      rw [if_pos due]
      exact ⟨rfl, limit, found, due.2⟩
    · exact absurd rfl same
  · exact absurd rfl same

theorem rises_turn {s : Machine (n + 1)} (turn : Turn True s p e slot) :
    RisesByOne (.kernel e) (s.table.proc p) slot := by
  intro ready still
  cases turn with
  | kept | tidied | yielded | slept | waits | exited | passed | passedWoken | woken
  | requeued | copied | abandoned | dispatched | struck => exact .inl rfl
  | reaped zombie scan cleared =>
    rw [zombie] at ready
    cases ready
  | prioritized here running =>
    rw [running trivial] at ready
    cases ready
  | allocated unused => cases still
  | entered embryo =>
    rw [embryo trivial] at ready
    cases ready
  | ticked => exact .inl (tick_priority _)
  | promoted =>
    by_cases same : (promote (s.table.proc p)).priority = (s.table.proc p).priority
    · exact .inl same
    · exact .inr ⟨rfl, promote_rises _ same⟩

/-- In every run on any number of CPUs, with `change_prio` and everything else, whose
scheduler passes do not take the lottery branch. -/
theorem aging_bounds_wait (run : (timed n).Run Undrawn s) :
    (∀ p, Counts (s.1.machine.table.proc p) (s.2 p)) ∧
    (s.1.phase ≠ .clocked → ∀ p, Bounded (s.1.machine.table.proc p) ∧
      ReachesTop (s.1.machine.table.proc p) (s.2 p)) ∧
    ∀ e after, TimeSlice.Enabled s.1 e → Undrawn s e → TimeSlice.perform s.1 e = .ok after →
      ∀ p, RisesByOne e (s.1.machine.table.proc p) (after.machine.table.proc p) := by
  have waits := run_waits run
  have inv := Dispatch.run_inv (run_machine run)
  refine ⟨fun p => (waits p).counts, fun outside p => ?_, fun e after enabled drawn ran p => ?_⟩
  · have here := waits p
    simp only [slack, if_neg outside] at here
    obtain ⟨queues, lists⟩ := inv.lists
    exact ⟨here.bounded, here.reaches fun ready => lists.ranged p (by simp [Live, ready])⟩
  · cases e with
    | timer c =>
      rw [← Except.ok.inj ran]
      exact fun _ _ => .inl rfl
    | kernel e =>
      obtain ⟨machine, moved, ends⟩ := bind_eq_ok.mp ran
      rw [← Except.ok.inj ends]
      exact rises_turn (slot_turn True (fun _ => ⟨inv, enabled.1, drawn⟩) moved p)

instance : Decidable (Undrawn s e) := by
  apply e.casesOn (motive := fun e => Decidable (Undrawn s e)) <;> intros <;> unfold Undrawn <;>
    infer_instance

def start (n : Nat) : Traps n × (ProcId → Delay) := ((TimeSlice.start n).1, fun _ => {})

theorem start_init (n : Nat) : (timed n).Init (start n) := ⟨(TimeSlice.start_init n).1, rfl⟩

/-- init asks for the lowest priority while its child runs, waits for two ticks, and
the counter says so. -/
theorem aging_bounds_wait_two : ∃ s : Traps 1 × (ProcId → Delay), (timed 1).Run Undrawn s ∧
    (s.1.machine.table.proc 0).state = .runnable ∧ (s.1.machine.table.proc 0).readyTimeAging = 2 ∧
    Counts (s.1.machine.table.proc 0) (s.2 0) ∧ Bounded (s.1.machine.table.proc 0) := by
  obtain ⟨s, run, ready, waited, outside⟩ := System.exists_run Undrawn (m := timed 1) (start_init 1)
    ([.kernel (.scheduler 0), .kernel (.enter 0), .kernel (.allocproc 0 3), .kernel (.forkCopy 0 1),
      .kernel (.forkEnter 0 1), .kernel (.changePrio 0 1), .kernel (.yield 0), .kernel (.leave 0)] ++
      TimeSlice.clockTick ++ TimeSlice.clockTick)
    (fun s => (s.1.machine.table.proc 0).state = .runnable ∧
      (s.1.machine.table.proc 0).readyTimeAging = 2 ∧ s.1.phase ≠ .clocked)
    (by decide +kernel)
  obtain ⟨counts, bounds, _⟩ := aging_bounds_wait run
  exact ⟨s, run, ready, waited, counts 0, (bounds outside 0).1⟩

/-- The lottery leaves init in its queue, and CPU 1 draws it too. CPU 0 lets it
yield; when it has waited for a tick, CPU 1, where it runs still, puts it to sleep
with the tick on its counter. -/
theorem lottery_keeps_waiting_time : ∃ s : Traps 1 × (ProcId → Delay),
    (timed 1).Run (fun _ _ => True) s ∧ (s.1.machine.table.proc 0).state = .sleeping ∧
      (s.1.machine.table.proc 0).readyTimeAging = 1 ∧
      ¬ Counts (s.1.machine.table.proc 0) (s.2 0) := by
  obtain ⟨s, run, asleep, waited⟩ := System.exists_run (fun _ _ => True) (m := timed 1) (start_init 1)
    ([.kernel (.scheduler 0), .kernel (.enter 0), .kernel (.changePrio 0 1), .kernel (.yield 0),
      .kernel (.leave 0), .kernel (.scheduler 0), .kernel (.enter 0), .kernel (.scheduler 1),
      .kernel (.enter 1), .kernel (.yield 0), .kernel (.leave 0)] ++ TimeSlice.clockTick ++
      [.kernel (.sleep 1 (.addr 1))])
    (fun s => (s.1.machine.table.proc 0).state = .sleeping ∧
      (s.1.machine.table.proc 0).readyTimeAging = 1)
    (by decide +kernel)
  refine ⟨s, run, asleep, waited, fun counts => ?_⟩
  have zero := counts.1 (.inr asleep)
  rw [waited] at zero
  cases zero

end Xv6.Aging
