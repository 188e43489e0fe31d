import Xv6.Dispatch

/-! The choice of the shortest job in queue 2. `shortestBurst` starts its search at the
estimate 10000, so it finds the earliest minimum exactly when some estimate of the queue
is below that; otherwise it answers position 0. Estimates are averages of bursts, and a
process of this queue is never preempted, so a long burst takes an estimate past 10000. -/
namespace Xv6.ShortestJob
open CheckedC ArrayQueue ProcTable ReadyQueues Dispatch StepSystem

/-! ## The search -/

/-- What the search knows after the first `i` positions: nothing was below the starting
value, or `best` is the earliest of the smallest estimates. -/
def Searched (estimate : ProcId → Int) (items : List ProcId) (i : Nat) (best : Int × Int) : Prop :=
  (best = (10000, 0) ∧ ∀ j p, j < i → items[j]? = some p → 10000 ≤ estimate p) ∨
  ∃ (position : Nat) (p : ProcId), best = (estimate p, (position : Int)) ∧ items[position]? = some p ∧
    estimate p < 10000 ∧ (∀ j r, j < i → items[j]? = some r → estimate p ≤ estimate r) ∧
    ∀ j r, j < position → items[j]? = some r → estimate p < estimate r

theorem Searched.extend (searched : Searched estimate items i best) (here : items[i]? = some p) :
    Searched estimate items (i + 1)
      (if estimate p < best.1 then (estimate p, (i : Int)) else best) := by
  have split : ∀ j, j < i + 1 → j < i ∨ j = i := fun j inside => by omega
  rcases searched with ⟨rfl, high⟩ | ⟨position, r, rfl, there, low, least, first⟩
  · by_cases below : estimate p < 10000
    · rw [if_pos below]
      refine .inr ⟨i, p, rfl, here, below, fun j s inside at_j => ?_, fun j s inside at_j => ?_⟩
      · rcases split j inside with earlier | rfl
        · exact (below.trans_le (high j s earlier at_j)).le
        · rw [Option.some.inj (here.symm.trans at_j)]
      · exact below.trans_le (high j s inside at_j)
    · rw [if_neg below]
      refine .inl ⟨rfl, fun j s inside at_j => ?_⟩
      rcases split j inside with earlier | rfl
      · exact high j s earlier at_j
      · rw [← Option.some.inj (here.symm.trans at_j)]
        exact not_lt.mp below
  · by_cases below : estimate p < estimate r
    · rw [if_pos below]
      refine .inr ⟨i, p, rfl, here, below.trans low, fun j s inside at_j => ?_,
        fun j s inside at_j => below.trans_le (least j s inside at_j)⟩
      rcases split j inside with earlier | rfl
      · exact (below.trans_le (least j s earlier at_j)).le
      · rw [Option.some.inj (here.symm.trans at_j)]
    · rw [if_neg below]
      refine .inr ⟨position, r, rfl, there, low, fun j s inside at_j => ?_, first⟩
      rcases split j inside with earlier | rfl
      · exact least j s earlier at_j
      · rw [← Option.some.inj (here.symm.trans at_j)]
        exact not_lt.mp below

theorem shortestBurst_searched (held : Holds (t.queueReady 2) (t.countQueue 2) items) :
    ∃ best, shortestBurst t = .ok best.2 ∧
      Searched (fun p => (t.proc p).estimatedburst) items items.length best := by
  have counted := held.counted
  obtain ⟨best, ran, searched⟩ := forLoop_invariant
    (fun i best => Searched (fun p => (t.proc p).estimatedburst) items i.toNat best)
    0 (t.countQueue 2) (fun i (best : Int × Int) => do
      let p ← deref (← load (t.queueReady 2) i)
      return if (t.proc p).estimatedburst < best.1 then ((t.proc p).estimatedburst, i) else best)
    (10000, 0) (by omega) (.inl ⟨rfl, fun j p inside => absurd inside (by simp)⟩)
    (fun i best low high searched => by
      obtain ⟨i, rfl⟩ := Int.eq_ofNat_of_zero_le low
      have bound : i < items.length := by omega
      rw [held.load bound]
      exact ⟨_, rfl, searched.extend (List.getElem?_eq_getElem bound)⟩)
  refine ⟨best, ?_, by rwa [counted, Int.toNat_natCast] at searched⟩
  rw [shortestBurst, ran]
  rfl

/-- The process at this position of queue 2 is the earliest with the smallest estimate. -/
structure Shortest (t : PTable) (items : List ProcId) (position : Nat) (p : ProcId) : Prop where
  least : ∀ r, ReadyFor (t.proc r) 2 → (t.proc p).estimatedburst ≤ (t.proc r).estimatedburst
  earliest : ∀ i r, i < position → items[i]? = some r →
    (t.proc p).estimatedburst < (t.proc r).estimatedburst

/-- `shortestBurst` answers a position of queue 2. It is that of the earliest process with
the smallest estimate exactly if some estimate of the queue is below 10000 or none is smaller
than that of the first process. -/
theorem shortest_iff (wf : WellFormed t) (waiting : ∃ p, ReadyFor (t.proc p) 2) :
    ∃ items position p, Holds (t.queueReady 2) (t.countQueue 2) items ∧
      shortestBurst t = .ok ((position : Nat) : Int) ∧ (position : Int) < t.countQueue 2 ∧
      items[position]? = some p ∧
      (Shortest t items position p ↔
        (∃ r, ReadyFor (t.proc r) 2 ∧ (t.proc r).estimatedburst < 10000) ∨
        ∃ first, items[0]? = some first ∧ ∀ r, ReadyFor (t.proc r) 2 →
          (t.proc first).estimatedburst ≤ (t.proc r).estimatedburst) := by
  obtain ⟨queues, lists⟩ := lists_of_well_formed wf
  have position_of : ∀ r, ReadyFor (t.proc r) 2 →
      ∃ i, i < (queues 2).length ∧ (queues 2)[i]? = some r := by
    intro r ready
    obtain ⟨i, at_i⟩ := List.mem_iff_getElem?.mp ((lists.members 2 r).mpr ready)
    exact ⟨i, (List.getElem?_eq_some_iff.mp at_i).1, at_i⟩
  obtain ⟨best, ran, searched⟩ := shortestBurst_searched (lists.held 2)
  rcases searched with ⟨rfl, high⟩ | ⟨position, p, rfl, here, low, least, first⟩
  · -- nothing is below the starting value, and the answer is the first position
    obtain ⟨r, ready⟩ := waiting
    obtain ⟨i, inside, -⟩ := position_of r ready
    have some : 0 < (queues 2).length := by omega
    have head := List.getElem?_eq_getElem some
    refine ⟨queues 2, 0, _, lists.held 2, ran, by rw [(lists.held 2).counted]; exact_mod_cast some,
      head, fun shortest => .inr ⟨_, head, shortest.least⟩, ?_⟩
    rintro (⟨r, ready, below⟩ | ⟨first, there, least⟩)
    · obtain ⟨i, inside, at_i⟩ := position_of r ready
      exact absurd (high i r inside at_i) (not_le.mpr below)
    · obtain rfl : (queues 2)[0] = first := Option.some.inj (head.symm.trans there)
      exact ⟨least, fun i r before => absurd before (Nat.not_lt_zero i)⟩
  · have inside := (List.getElem?_eq_some_iff.mp here).1
    refine ⟨queues 2, position, p, lists.held 2, ran, ?_, here, fun _ => .inl ⟨p, ?_, low⟩,
      fun _ => ⟨fun r ready => ?_, first⟩⟩
    · rw [(lists.held 2).counted]
      exact_mod_cast inside
    · exact (lists.members 2 p).mp (List.mem_of_getElem? here)
    · obtain ⟨i, inside, at_i⟩ := position_of r ready
      exact least i r inside at_i

/-- init after `change_prio(3)`, alone in queue 2 with its first estimate. -/
theorem shortest_iff_init : ∃ s : Machine 1, (system 1).Run NoLottery s ∧
    ReadyFor (s.table.proc 0) 2 ∧ (s.table.proc 0).estimatedburst = 2 ∧
    ∃ items position p, Holds (s.table.queueReady 2) (s.table.countQueue 2) items ∧
      shortestBurst s.table = .ok ((position : Nat) : Int) ∧
      (position : Int) < s.table.countQueue 2 ∧ items[position]? = some p ∧
      Shortest s.table items position p := by
  obtain ⟨t, left, _⟩ := userinit_spec
  obtain ⟨s, run, ready, estimate⟩ := System.exists_run (m := system 1) (s := boot 1 initTable) NoLottery
    ⟨t, left, by rw [initTable, left]⟩ [.scheduler 0, .enter 0, .changePrio 0 3, .yield 0]
    (fun s => ReadyFor (s.table.proc 0) 2 ∧ (s.table.proc 0).estimatedburst = 2)
    (by decide +kernel)
  obtain ⟨queues, lists⟩ := (run_inv run).lists
  obtain ⟨items, position, p, held, ran, inside, here, exactly⟩ :=
    shortest_iff (well_formed_of_lists lists) ⟨0, ready⟩
  exact ⟨s, run, ready, estimate, items, position, p, held, ran, inside, here,
    exactly.mpr (.inl ⟨0, ready, by rw [estimate]; decide⟩)⟩

/-! ## Long bursts -/

def ticks (k : Nat) (proc : Proc) : Proc :=
  match proc.state with
  | .sleeping => { proc with stime := proc.stime + (k + 1), clock := 0 }
  | .runnable =>
    { proc with
      retime := proc.retime + (k + 1), readyTimeAging := proc.readyTimeAging + (k + 1), clock := 0 }
  | .running =>
    { proc with
      bstime := proc.bstime + (k + 1), rutime := proc.rutime + (k + 1), clock := proc.clock + (k + 1) }
  | _ => proc

theorem ticks_zero (proc : Proc) : ticks 0 proc = tick proc := by
  cases state : proc.state <;> simp [ticks, tick, state]

theorem tick_ticks (k : Nat) (proc : Proc) : tick (ticks k proc) = ticks (k + 1) proc := by
  cases state : proc.state <;> simp [ticks, tick, state, Int.add_assoc]

/-- The machine after `k + 1` clock ticks and nothing else. -/
def elapse (k : Nat) (s : Machine n) : Machine n :=
  { s with table := { s.table with proc := fun p => ticks k (s.table.proc p) } }

theorem run_elapse (run : (system n).Run NoLottery s) (free : s.lock = .free) (k : Nat) :
    (system n).Run NoLottery (elapse k s) := by
  induction k with
  | zero =>
    have once := run.step (show (system n).Enabled s .updateClock from free) trivial rfl
    simpa only [elapse, ticks_zero, ProcTable.updateClock] using once
  | succ k ih =>
    have once := ih.step (show (system n).Enabled (elapse k s) .updateClock from free) trivial rfl
    simpa only [elapse, ProcTable.updateClock, tick_ticks] using once

/-- A process of priority 2 goes through `sleep` to a first burst. -/
private def joins (chan : Nat) : List (Event 1) :=
  [.changePrio 0 3, .yield 0, .leave 0, .scheduler 0, .enter 0, .changePrioTail 0 3,
    .sleep 0 (.addr chan), .leave 0]

/-- init and its child both move to queue 2 and fall asleep, and init wakes up. -/
private def opening : List (Event 1) :=
  [.scheduler 0, .enter 0, .allocproc 0 0, .forkCopy 0 1, .forkEnter 0 1] ++ joins 1 ++
    [.scheduler 0, .enter 0] ++ joins 2 ++ [.wakeup (.addr 1), .scheduler 0, .enter 0]

/-- init falls asleep and its child wakes up. -/
private def exchange : List (Event 1) :=
  [.sleep 0 (.addr 1), .leave 0, .wakeup (.addr 2), .scheduler 0, .enter 0]

/-- The child falls asleep, and first init wakes up, then the child. -/
private def closing : List (Event 1) :=
  [.sleep 0 (.addr 2), .leave 0, .wakeup (.addr 1), .wakeup (.addr 2)]

/-- A burst of `k + 1` ticks, and what follows it. -/
private def burst (k : Nat) (es : List (Event 1)) (s : Machine 1) : Option (Machine 1) :=
  if s.lock = .free then (system 1).performAll NoLottery (elapse k s) es else none

private theorem run_burst (run : (system 1).Run NoLottery s) (ran : burst k es s = some after) :
    (system 1).Run NoLottery after := by
  unfold burst at ran
  split at ran
  · rename_i free
    exact System.run_performAll (run_elapse run free k) ran
  · cases ran

/-- One CPU: init runs for 40001 ticks while its child sleeps, then the child runs for
20003 ticks while init sleeps, then both are woken. -/
private def longBursts : Option (Machine 1) :=
  (((system 1).performAll NoLottery (boot 1 initTable) opening).bind
    (burst 40000 exchange)).bind (burst 20002 closing)

private theorem run_longBursts (ends : longBursts = some s) : (system 1).Run NoLottery s := by
  obtain ⟨t, left, _⟩ := userinit_spec
  have start : (system 1).Init (boot 1 initTable) := ⟨t, left, by rw [initTable, left]⟩
  simp only [longBursts, Option.bind_eq_some_iff] at ends
  obtain ⟨s₂, ⟨s₁, first, second⟩, third⟩ := ends
  exact run_burst (run_burst (System.run_performAll (System.Run.start start) first) second) third

/-- init stands before its child in queue 2, the estimates of both are past the starting
value, and position 0 is the answer. -/
private def firstOfTwo (s : Machine 1) : Bool :=
  s.table.countQueue 2 = 2 ∧ s.table.queueReady 2 0 = some 0 ∧ s.table.queueReady 2 1 = some 1 ∧
    (s.table.proc 0).estimatedburst = 20001 ∧ (s.table.proc 1).estimatedburst = 10002 ∧
    shortestBurst s.table = .ok 0

/-- A run after which `shortestBurst` answers the position of init, whose estimate is
20001, although its child in the same queue has the estimate 10002. -/
theorem longer_job_chosen : ∃ s : Machine 1, (system 1).Run NoLottery s ∧ WellFormed s.table ∧
    s.table.countQueue 2 = 2 ∧ s.table.queueReady 2 0 = some 0 ∧
    s.table.queueReady 2 1 = some 1 ∧ shortestBurst s.table = .ok 0 ∧
    (s.table.proc 1).estimatedburst < (s.table.proc 0).estimatedburst := by
  have found : longBursts.any firstOfTwo = true := by decide +kernel
  obtain ⟨s, ends, here⟩ := (Option.any_eq_true _ _).mp found
  simp only [firstOfTwo, decide_eq_true_eq] at here
  obtain ⟨two, first, second, estimate, estimate', answer⟩ := here
  have run := run_longBursts ends
  obtain ⟨queues, lists⟩ := (run_inv run).lists
  refine ⟨s, run, well_formed_of_lists lists, two, first, second, answer, ?_⟩
  rw [estimate, estimate']
  decide

end Xv6.ShortestJob
