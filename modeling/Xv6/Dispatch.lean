import Mathlib.Logic.ExistsUnique
import Xv6.ReadyQueues
import Xv6.StepSystem

/-! Dispatch exclusivity on any number of CPUs. The machine interleaves the
`ptable.lock` critical sections of all CPUs; a context switch keeps the lock and
hands it to the thread switched to. As long as no pass of `scheduler` takes the
lottery branch, a process is RUNNING exactly when one CPU runs it. The lottery
lowers the counter of the wrong queue, and the stale entry it leaves behind is
dispatched a second time. -/
namespace Xv6.Dispatch
open CheckedC ProcTable ReadyQueues StepSystem Function

/-- Where a kernel thread continues when a scheduler switches to it. -/
inductive Resume where
  /-- `yield`, or `forkret` for a new process: release the lock. -/
  | release
  /-- `sleep` on a lock other than `ptable.lock`. -/
  | slept
  | waiting
  | waiting2
  deriving DecidableEq

/-- `ptable.lock` across context switches: free, held by the thread CPU `c` has
just switched to, or held while CPU `c` goes back to its scheduler. -/
inductive Lock (n : Nat) where
  | free
  | entered (c : Fin n)
  | leaving (c : Fin n)
  deriving DecidableEq

structure Machine (n : Nat) where
  table : PTable
  /-- `c->proc`. -/
  cpu : Fin n → Option ProcId
  lock : Lock n
  resume : ProcId → Resume

/-- One critical section, or one access of the process table outside the lock:
the priority write and the tail of `change_prio`, and the writes `fork` makes to
the slot it has allocated. -/
inductive Event (n : Nat) where
  | scheduler (c : Fin n)
  | enter (c : Fin n)
  | leave (c : Fin n)
  | yield (c : Fin n)
  | sleep (c : Fin n) (chan : Chan)
  | exit (c : Fin n)
  | wait (c : Fin n)
  | wait2 (c : Fin n)
  | changePrio (c : Fin n) (wanted : Int)
  | changePrioTail (c : Fin n) (wanted : Int)
  | allocproc (c : Fin n) (ticks : Int)
  | forkCopy (c : Fin n) (np : ProcId)
  | forkEnter (c : Fin n) (np : ProcId)
  | forkAbandon (c : Fin n) (np : ProcId)
  | wakeup (chan : Chan)
  | kill (pid : Int)
  | updateClock
  | upgradePriorityAging
  deriving DecidableEq

/-- CPU `c` executes the code of its process, outside `ptable.lock`. -/
def Runs (s : Machine n) (c : Fin n) : Prop :=
  (s.cpu c).isSome ∧ s.lock ≠ .entered c ∧ s.lock ≠ .leaving c

instance : Decidable (Runs s c) := inferInstanceAs (Decidable (_ ∧ _ ∧ _))

def Enabled (s : Machine n) : Event n → Prop
  | .scheduler c => s.lock = .free ∧ s.cpu c = none
  | .enter c => s.lock = .entered c
  | .leave c => s.lock = .leaving c
  | .yield c | .sleep c _ | .wait c | .wait2 c | .allocproc c _ =>
    s.lock = .free ∧ (s.cpu c).isSome
  | .exit c => s.lock = .free ∧ (s.cpu c).isSome ∧ s.cpu c ≠ s.table.initproc
  | .changePrio c wanted => Runs s c ∧ prioAccepted wanted
  | .changePrioTail c _ => Runs s c
  | .forkEnter c np => s.lock = .free ∧ (s.cpu c).isSome ∧ (s.table.proc np).state = .embryo
  | .forkCopy c np | .forkAbandon c np => Runs s c ∧ (s.table.proc np).state = .embryo
  | .wakeup _ | .kill _ | .updateClock | .upgradePriorityAging => s.lock = .free

instance : Decidable (Enabled s e) := by
  unfold Enabled
  split <;> infer_instance

/-- A pass over the children either ends the call, releasing the lock, or puts
the caller to sleep and goes back to the scheduler of its CPU. -/
def waitEnd (s : Machine n) (c : Fin n) (p : ProcId) (again : Resume) :
    WaitResult α × PTable → Machine n
  | (.asleep, t) =>
    { s with table := t, resume := update s.resume p again, lock := .leaving c }
  | (_, t) => { s with table := t, lock := .free }

def perform (s : Machine n) : Event n → Checked (Machine n)
  | .scheduler c => do
    match ← ProcTable.scheduler s.table with
    | (none, t) => return { s with table := t }
    | (some p, t) =>
      return { s with table := t, cpu := update s.cpu c (some p), lock := .entered c }
  | .enter c => do
    let p ← deref (s.cpu c)
    match s.resume p with
    | .release => return { s with lock := .free }
    | .slept => return { s with table := sleepResume s.table p, lock := .free }
    | .waiting => return waitEnd s c p .waiting (ProcTable.wait (sleepResume s.table p) p)
    | .waiting2 => return waitEnd s c p .waiting2 (ProcTable.wait2 (sleepResume s.table p) p)
  | .leave c => return { s with cpu := update s.cpu c none, lock := .free }
  | .yield c => do
    let p ← deref (s.cpu c)
    let t ← ProcTable.yield s.table p
    return { s with
      table := t, resume := update s.resume p .release, lock := .leaving c }
  | .sleep c chan => do
    let p ← deref (s.cpu c)
    return { s with
      table := ProcTable.sleep s.table p chan
      resume := update s.resume p .slept, lock := .leaving c }
  | .exit c => do
    let p ← deref (s.cpu c)
    let t ← ProcTable.exit s.table p
    return { s with table := t, lock := .leaving c }
  | .wait c => do
    let p ← deref (s.cpu c)
    return waitEnd s c p .waiting (ProcTable.wait s.table p)
  | .wait2 c => do
    let p ← deref (s.cpu c)
    return waitEnd s c p .waiting2 (ProcTable.wait2 s.table p)
  | .changePrio c wanted => do
    let p ← deref (s.cpu c)
    return { s with table := changePrioSet s.table p wanted }
  | .changePrioTail c wanted => do
    let p ← deref (s.cpu c)
    let (_, t) ← ProcTable.changePrioTail s.table p wanted
    return { s with table := t }
  | .allocproc _ ticks => return { s with table := (ProcTable.allocproc ticks s.table).2 }
  | .forkCopy c np => do
    let p ← deref (s.cpu c)
    return { s with table := ProcTable.forkCopy s.table p np }
  | .forkEnter _ np => do
    let t ← ProcTable.forkEnter s.table np
    return { s with table := t, resume := update s.resume np .release }
  | .forkAbandon _ np => return { s with table := ProcTable.forkAbandon s.table np }
  | .wakeup chan => do return { s with table := ← wakeup1 s.table chan }
  | .kill pid => do
    let (_, t) ← ProcTable.kill s.table pid
    return { s with table := t }
  | .updateClock => return { s with table := ProcTable.updateClock s.table }
  | .upgradePriorityAging => do
    return { s with table := ← ProcTable.upgradePriorityAging s.table }

/-- The table `userinit` leaves behind: init is the first slot, ready in the
default queue. -/
def userinit : Checked PTable := do
  let (p, t) := ProcTable.allocproc 0 {}
  let p ← deref p
  userinitEnter { t with initproc := some p } p

def boot (n : Nat) (t : PTable) : Machine n :=
  { table := t, cpu := fun _ => none, lock := .free, resume := fun _ => .release }

/-- The machine with `n` CPUs, from the table `userinit` leaves. -/
def system (n : Nat) : System (Machine n) (Event n) where
  Init s := ∃ t, userinit = .ok t ∧ s = boot n t
  Enabled := Enabled
  perform := perform

instance : Decidable ((system n).Enabled s e) := inferInstanceAs (Decidable (Enabled s e))

/-- Whenever the lock is free, RUNNING means running on exactly one CPU. -/
def Exclusive (s : Machine n) : Prop :=
  s.lock = .free → ∀ p, (s.table.proc p).state = .running ↔ ∃! c, s.cpu c = some p

/-- The process a scheduler pass chooses is RUNNABLE when it is chosen. -/
def ChoosesRunnable (s : Machine n) : Event n → Prop
  | .scheduler _ => ∀ p t, ProcTable.scheduler s.table = .ok (some p, t) →
      (s.table.proc p).state = .runnable
  | _ => True

/-- The step is not a scheduler pass by the lottery branch. -/
def NoLottery (s : Machine n) : Event n → Prop
  | .scheduler _ => branch s.table ≠ .lottery
  | _ => True

instance : Decidable (NoLottery s e) := by
  unfold NoLottery
  split <;> infer_instance

/-! ## The invariant -/

structure Inv (s : Machine n) : Prop where
  lists : ∃ queues, Lists s.table queues
  pids : ∀ p r, (s.table.proc p).state ≠ .unused → (s.table.proc r).state ≠ .unused →
    (s.table.proc p).pid = (s.table.proc r).pid → p = r
  fresh : ∀ p, (s.table.proc p).state ≠ .unused → (s.table.proc p).pid < s.table.nextpid
  ranged : ∀ p, 0 ≤ (s.table.proc p).priority ∧ (s.table.proc p).priority ≤ 3
  unique : ∀ c c' p, s.cpu c = some p → s.cpu c' = some p → c = c'
  running : ∀ p, (s.table.proc p).state = .running ↔
    ∃ c, s.cpu c = some p ∧ s.lock ≠ .leaving c
  occupied : ∀ c, s.lock = .entered c → (s.cpu c).isSome

theorem Inv.exclusive (inv : Inv s) : Exclusive s := by
  intro free p
  rw [inv.running]
  constructor
  · rintro ⟨c, here, _⟩
    exact ⟨c, here, fun c' there => inv.unique c' c p there here⟩
  · rintro ⟨c, here, _⟩
    exact ⟨c, here, by rw [free]; simp⟩

/-- What a section may do to the table while no process starts running:
processes in `gone` stop, slots keep their identity or are freed. -/
structure Safe (t after : PTable) (gone : ProcId → Prop) : Prop where
  lists : ∃ queues, Lists after queues
  nextpid : after.nextpid = t.nextpid
  running : ∀ p, (after.proc p).state = .running ↔ (t.proc p).state = .running ∧ ¬ gone p
  identity : ∀ p, (after.proc p).state ≠ .unused →
    (t.proc p).state ≠ .unused ∧ (after.proc p).pid = (t.proc p).pid
  ranged : (∀ p, 0 ≤ (t.proc p).priority ∧ (t.proc p).priority ≤ 3) →
    ∀ p, 0 ≤ (after.proc p).priority ∧ (after.proc p).priority ≤ 3

theorem Safe.pids (safe : Safe t after gone)
    (pids : ∀ p r, (t.proc p).state ≠ .unused → (t.proc r).state ≠ .unused →
      (t.proc p).pid = (t.proc r).pid → p = r) :
    ∀ p r, (after.proc p).state ≠ .unused → (after.proc r).state ≠ .unused →
      (after.proc p).pid = (after.proc r).pid → p = r := by
  intro p r live live' same
  obtain ⟨old, pid⟩ := safe.identity p live
  obtain ⟨old', pid'⟩ := safe.identity r live'
  exact pids p r old old' (by rw [← pid, ← pid', same])

theorem Safe.fresh (safe : Safe t after gone)
    (fresh : ∀ p, (t.proc p).state ≠ .unused → (t.proc p).pid < t.nextpid) :
    ∀ p, (after.proc p).state ≠ .unused → (after.proc p).pid < after.nextpid := by
  intro p live
  obtain ⟨old, pid⟩ := safe.identity p live
  rw [pid, safe.nextpid]
  exact fresh p old

theorem Inv.of_safe {s after : Machine n} (inv : Inv s) (safe : Safe s.table after.table gone)
    (unique : ∀ c c' p, after.cpu c = some p → after.cpu c' = some p → c = c')
    (running : ∀ p, ((∃ c, s.cpu c = some p ∧ s.lock ≠ .leaving c) ∧ ¬ gone p) ↔
      ∃ c, after.cpu c = some p ∧ after.lock ≠ .leaving c)
    (occupied : ∀ c, after.lock = .entered c → (after.cpu c).isSome) : Inv after := by
  refine ⟨safe.lists, safe.pids inv.pids, safe.fresh inv.fresh, safe.ranged inv.ranged, unique,
    fun p => ?_, occupied⟩
  rw [safe.running, inv.running, running]

theorem Inv.quiet {s : Machine n} (inv : Inv s) (safe : Safe s.table t (fun _ => False))
    (leaving : ∀ c, lock = .leaving c ↔ s.lock = .leaving c)
    (entered : ∀ c, lock = .entered c → s.lock = .entered c) :
    Inv { s with table := t, lock := lock, resume := resume } := by
  refine inv.of_safe safe inv.unique ?_ ?_
  · intro p
    simp only [not_false_eq_true, and_true, ne_eq, leaving]
  · intro c held
    exact inv.occupied c (entered c held)

theorem Inv.leaves {s : Machine n} (inv : Inv s) (safe : Safe s.table t (fun r => r = p))
    (here : s.cpu c = some p) (stays : ∀ c, s.lock ≠ .leaving c) :
    Inv { s with table := t, lock := .leaving c, resume := resume } := by
  refine inv.of_safe safe inv.unique ?_ ?_
  · intro r
    constructor
    · rintro ⟨⟨c', there, _⟩, other⟩
      refine ⟨c', there, fun same => other ?_⟩
      cases same
      rw [here] at there
      exact (Option.some.inj there).symm
    · rintro ⟨c', there, apart⟩
      refine ⟨⟨c', there, stays c'⟩, fun same => apart ?_⟩
      subst same
      rw [inv.unique c' c r there here]
  · intro c' held
    cases held

/-! ## Each section is safe -/

theorem safe_of_stirred (lists : Lists after queues) (stirred : Stirred t after) :
    Safe t after (fun _ => False) := by
  have same : ∀ p, (t.proc p).state ≠ .sleeping → (after.proc p).state = (t.proc p).state :=
    fun p => stirred.awake
  refine ⟨⟨queues, lists⟩, stirred.globals.nextpid, fun p => ?_, fun p live => ⟨?_, stirred.pid p⟩,
    fun ranged p => by rw [stirred.priority p]; exact ranged p⟩
  · rcases stirred.state p with kept | ⟨asleep, woken⟩
    · simp [kept]
    · simp [asleep, woken]
  · intro unused
    exact live ((same p (by rw [unused]; simp)).trans unused)

theorem Safe.refl (lists : Lists t queues) : Safe t t (fun _ => False) :=
  safe_of_stirred lists (Stirred.refl t)

theorem Safe.then (first : Safe t middle (fun _ => False)) (second : Safe middle after gone) :
    Safe t after gone := by
  refine ⟨second.lists, second.nextpid.trans first.nextpid, fun p => ?_, fun p live => ?_,
    fun ranged => second.ranged (first.ranged ranged)⟩
  · rw [second.running, first.running]
    simp
  · obtain ⟨old, pid⟩ := second.identity p live
    obtain ⟨older, pid'⟩ := first.identity p old
    exact ⟨older, pid.trans pid'⟩

theorem safe_update {slot : Proc} (lists : Lists after queues)
    (slots : after.proc = update t.proc p slot) (nextpid : after.nextpid = t.nextpid)
    (running : slot.state = .running ↔ (t.proc p).state = .running ∧ ¬ gone p)
    (others : ∀ r, gone r → r = p)
    (identity : slot.state ≠ .unused → (t.proc p).state ≠ .unused ∧ slot.pid = (t.proc p).pid)
    (ranged : 0 ≤ (t.proc p).priority ∧ (t.proc p).priority ≤ 3 →
      0 ≤ slot.priority ∧ slot.priority ≤ 3) : Safe t after gone := by
  refine ⟨⟨queues, lists⟩, nextpid, fun r => ?_, fun r live => ?_, fun old r => ?_⟩
  all_goals rw [slots] at *
  all_goals by_cases here : r = p
  · subst here
    simpa using running
  · have stays : ¬ gone r := fun leaves => here (others r leaves)
    simp [here, stays]
  · subst here
    simpa using identity (by simpa using live)
  · rw [update_of_ne here] at live ⊢
    exact ⟨live, rfl⟩
  · subst here
    simpa using ranged (old r)
  · rw [update_of_ne here]
    exact old r

theorem safe_updateClock (lists : Lists t queues) :
    Safe t (updateClock t) (fun _ => False) := by
  have fields : ∀ proc : Proc, (tick proc).state = proc.state ∧ (tick proc).pid = proc.pid ∧
      (tick proc).priority = proc.priority := by
    intro proc
    unfold tick
    split <;> simp_all
  refine safe_of_stirred (updateClock_keeps lists) ⟨⟨rfl, rfl⟩, fun p => (fields _).2.1,
    fun p => (fields _).2.2, fun p => .inl (fields _).1⟩

theorem safe_of_identity (lists : Lists after queues) (same : SameIdentity t after) :
    Safe t after (fun _ => False) := by
  refine ⟨⟨queues, lists⟩, same.globals.nextpid, fun p => by simp [same.state p],
    fun p live => ⟨by rwa [same.state p] at live, same.pid p⟩, fun ranged p => ?_⟩
  by_cases ready : (t.proc p).state = .runnable
  · exact lists.ranged p (by rw [Live, same.state, ready]; simp)
  · rw [same.priority p ready]
    exact ranged p

theorem safe_reaped {t : PTable} {clear : Proc → Proc} (lists : Lists (t.setProc p clear) queues)
    (zombie : (t.proc p).state = .zombie) (frees : (clear (t.proc p)).state = .unused)
    (priority : (clear (t.proc p)).priority = (t.proc p).priority) :
    Safe t (t.setProc p clear) (fun _ => False) :=
  safe_update lists rfl rfl (by simp [frees, zombie]) (fun _ absurd => absurd.elim)
    (fun live => absurd frees live) (by rw [priority]; exact id)

theorem safe_sleep (lists : Lists t queues) (running : (t.proc p).state = .running) (chan : Chan) :
    Safe t (sleep t p chan) (fun r => r = p) :=
  safe_update (sleep_keeps lists running chan) rfl rfl (by simp) (fun _ same => same)
    (fun _ => ⟨by rw [running]; simp, rfl⟩) id

/-! ## Each step keeps the invariant -/

theorem Inv.on_cpu (inv : Inv s) (here : s.cpu c = some p) (stays : s.lock ≠ .leaving c) :
    (s.table.proc p).state = .running :=
  (inv.running p).mpr ⟨c, here, stays⟩

theorem inv_waitEnd {s : Machine n} {report : Proc → α} (inv : Inv s) (here : s.cpu c = some p)
    (stays : ∀ c, s.lock ≠ .leaving c) (first : Safe s.table t (fun _ => False))
    (running : (t.proc p).state = .running) (frees : ∀ proc, (clear proc).state = .unused)
    (priority : ∀ proc, (clear proc).priority = proc.priority) :
    Inv (waitEnd s c p again (waitPass clear report t p)) := by
  obtain ⟨queues, lists⟩ := first.lists
  have kept : Lists (waitPass clear report t p).2 queues := waitPass_keeps lists running frees
  have free : ∀ c' : Fin n, (Lock.free : Lock n) = .leaving c' ↔ s.lock = .leaving c' :=
    fun c' => ⟨fun held => (by cases held), fun held => absurd held (stays c')⟩
  rcases waitPass_outcome clear report t p with ⟨r, _, zombie, ends⟩ | ⟨_, ends⟩ | ⟨_, ends⟩
  · rw [ends] at kept ⊢
    exact inv.quiet (first.then (safe_reaped kept zombie (frees _) (priority _))) free
      (fun c' held => by cases held)
  · rw [ends]
    exact inv.quiet first free (fun c' held => by cases held)
  · rw [ends]
    exact inv.leaves (first.then (safe_sleep lists running _)) here stays

theorem Inv.dispatched {s : Machine n} (inv : Inv s) (free : s.lock = .free)
    (idle : s.cpu c = none) (lists : Lists t queues) (globals : SameGlobals s.table t)
    (ready : (s.table.proc p).state = .runnable)
    (slots : t.proc = update s.table.proc p
      { s.table.proc p with clock := 0, readyTimeAging := 0, state := .running }) :
    Inv { s with table := t, cpu := update s.cpu c (some p), lock := .entered c } := by
  have absent : ∀ c', s.cpu c' ≠ some p := by
    intro c' there
    have running := inv.on_cpu there (by rw [free]; simp)
    rw [ready] at running
    cases running
  have same : ∀ r, (t.proc r).pid = (s.table.proc r).pid ∧
      (t.proc r).priority = (s.table.proc r).priority ∧
      ((t.proc r).state ≠ .unused → (s.table.proc r).state ≠ .unused) := by
    intro r
    rw [slots]
    by_cases moved : r = p
    · subst moved
      simp [ready]
    · simp [moved]
  have placed : ∀ c' r, update s.cpu c (some p) c' = some r →
      (c' = c ∧ r = p) ∨ s.cpu c' = some r := by
    intro c' r there
    by_cases here : c' = c
    · rw [here, update_self] at there
      exact .inl ⟨here, (Option.some.inj there).symm⟩
    · rw [update_of_ne here] at there
      exact .inr there
  refine ⟨⟨queues, lists⟩, fun r r' live live' pids => ?_, fun r live => ?_, fun r => ?_,
    fun c₁ c₂ r here there => ?_, fun r => ?_, fun c' held => ?_⟩
  · rw [(same r).1, (same r').1] at pids
    exact inv.pids r r' ((same r).2.2 live) ((same r').2.2 live') pids
  · rw [(same r).1, globals.nextpid]
    exact inv.fresh r ((same r).2.2 live)
  · rw [(same r).2.1]
    exact inv.ranged r
  · rcases placed c₁ r here with ⟨first, rfl⟩ | first
    · rcases placed c₂ r there with ⟨second, _⟩ | second
      · rw [first, second]
      · exact absurd second (absent c₂)
    · rcases placed c₂ r there with ⟨_, rfl⟩ | second
      · exact absurd first (absent c₁)
      · exact inv.unique c₁ c₂ r first second
  · by_cases moved : r = p
    · subst moved
      simp only [slots, update_self, true_iff]
      exact ⟨c, by simp, by simp⟩
    · have before := inv.running r
      simp only [slots, update_of_ne moved, before, free, ne_eq, reduceCtorEq,
        not_false_eq_true, and_true]
      constructor
      · rintro ⟨c', there⟩
        have other : c' ≠ c := fun eq => by rw [eq, idle] at there; cases there
        exact ⟨c', by rwa [update_of_ne other]⟩
      · rintro ⟨c', there⟩
        rcases placed c' r there with ⟨_, same⟩ | before
        · exact absurd same moved
        · exact ⟨c', before⟩
  · cases held
    simp

theorem Inv.left {s : Machine n} (inv : Inv s) (held : s.lock = .leaving c) :
    Inv { s with cpu := update s.cpu c none, lock := .free } := by
  have old : ∀ c' r, update s.cpu c none c' = some r → c' ≠ c ∧ s.cpu c' = some r := by
    intro c' r there
    by_cases here : c' = c
    · rw [here, update_self] at there
      cases there
    · exact ⟨here, by rwa [update_of_ne here] at there⟩
  refine ⟨inv.lists, inv.pids, inv.fresh, inv.ranged,
    fun c₁ c₂ r here there => inv.unique c₁ c₂ r (old c₁ r here).2 (old c₂ r there).2,
    fun r => ?_, fun c' entered => by cases entered⟩
  rw [inv.running r, held]
  constructor
  · rintro ⟨c', there, apart⟩
    have other : c' ≠ c := fun same => apart (by rw [same])
    exact ⟨c', by simpa [other] using there, by simp⟩
  · rintro ⟨c', there, _⟩
    obtain ⟨other, before⟩ := old c' r there
    exact ⟨c', before, fun same => other (Lock.leaving.inj same).symm⟩

theorem Inv.allocated {s : Machine n} (inv : Inv s) (ticks : Int) :
    Inv { s with table := (allocproc ticks s.table).2 } := by
  unfold allocproc
  split
  · exact inv
  · rename_i p found
    have unused := List.find?_some found
    simp only [decide_eq_true_eq] at unused
    obtain ⟨queues, lists⟩ := inv.lists
    have kept := lists.setProc (p := p) (f := embryoSlot s.table.nextpid ticks)
      (by rw [unused]; simp) (by simp [embryoSlot]) (fun _ => inv.ranged p)
    have others : ∀ r, r ≠ p →
        (s.table.setProc p (embryoSlot s.table.nextpid ticks)).proc r = s.table.proc r :=
      fun r other => by simp [PTable.setProc, other]
    have slot : (s.table.setProc p (embryoSlot s.table.nextpid ticks)).proc p =
        embryoSlot s.table.nextpid ticks (s.table.proc p) := by
      simp [PTable.setProc]
    -- every other live slot has a pid below the one handed out
    have older : ∀ r, r ≠ p → (s.table.proc r).state ≠ .unused →
        (s.table.proc r).pid < s.table.nextpid := fun r _ => inv.fresh r
    refine ⟨⟨queues, ⟨kept.held, kept.distinct, kept.members, kept.ranged⟩⟩,
      fun r r' live live' pids => ?_, fun r live => ?_, fun r => ?_, inv.unique, fun r => ?_,
      inv.occupied⟩
    · by_cases first : r = p <;> by_cases second : r' = p
      · rw [first, second]
      · subst first
        simp only [slot, others r' second] at pids live'
        have below := older r' second live'
        simp only [embryoSlot] at pids
        omega
      · subst second
        simp only [slot, others r first] at pids live
        have below := older r first live
        simp only [embryoSlot] at pids
        omega
      · simp only [others r first, others r' second] at pids live live'
        exact inv.pids r r' live live' pids
    · by_cases first : r = p
      · subst first
        simp only [slot, embryoSlot]
        omega
      · simp only [others r first] at live ⊢
        have below := older r first live
        omega
    · by_cases first : r = p
      · subst first
        simp only [slot, embryoSlot]
        exact inv.ranged r
      · simp only [others r first]
        exact inv.ranged r
    · by_cases first : r = p
      · subst first
        have before := inv.running r
        simp only [unused, reduceCtorEq, false_iff] at before
        simp only [slot, embryoSlot, reduceCtorEq, false_iff]
        exact before
      · simp only [others r first]
        exact inv.running r

theorem Inv.readied {s : Machine n} (inv : Inv s) (embryo : (s.table.proc p).state = .embryo)
    (resume : ProcId → Resume) :
    ∃ t, enterReady s.table p = .ok t ∧ Inv { s with table := t, resume := resume } := by
  obtain ⟨queues, lists⟩ := inv.lists
  obtain ⟨after, ran, kept, globals, slots⟩ := enterReady_spec lists embryo
  refine ⟨after, ran, inv.quiet ?_ (fun _ => Iff.rfl) fun _ => id⟩
  exact safe_update kept slots globals.nextpid (by simp [embryo]) (fun _ gone => gone.elim)
    (fun _ => ⟨by rw [embryo]; simp, rfl⟩) (fun _ => by simp [ PRIO])

/-- The step ends without a fault in a machine that satisfies the invariant. -/
def Keeps (s : Machine n) (e : Event n) : Prop := ∃ after, perform s e = .ok after ∧ Inv after

theorem not_leaving {s : Machine n} (free : s.lock = .free) (c : Fin n) : s.lock ≠ .leaving c := by
  rw [free]
  nofun

section
variable {s : Machine n} (inv : Inv s)
include inv

theorem Inv.current (busy : (s.cpu c).isSome) (stays : s.lock ≠ .leaving c) :
    ∃ p, s.cpu c = some p ∧ (s.table.proc p).state = .running := by
  obtain ⟨p, here⟩ := Option.isSome_iff_exists.mp busy
  exact ⟨p, here, inv.on_cpu here stays⟩

theorem Inv.tabled (safe : Safe s.table t fun _ => False) : Inv { s with table := t } :=
  inv.quiet safe (fun _ => Iff.rfl) fun _ => id

theorem keeps_scheduler (enabled : Enabled s (.scheduler c)) (drawn : branch s.table ≠ .lottery) :
    Keeps s (.scheduler c) := by
  obtain ⟨free, idle⟩ := enabled
  obtain ⟨queues, lists⟩ := inv.lists
  obtain ⟨chosen, after, queues', ran, kept, globals, chose⟩ := scheduler_spec lists drawn
  cases chosen with
  | none =>
    subst chose
    exact ⟨s, by simp [perform, ran], inv⟩
  | some p =>
    exact ⟨_, by simp only [perform, ran, bind_ok]; rfl,
      inv.dispatched free idle kept globals chose.1 chose.2⟩

theorem keeps_enter (held : s.lock = .entered c) : Keeps s (.enter c) := by
  obtain ⟨queues, lists⟩ := inv.lists
  have stays : ∀ c', s.lock ≠ .leaving c' := fun c' => by rw [held]; simp
  obtain ⟨p, here, running⟩ := inv.current (inv.occupied c held) (stays c)
  have free : ∀ c', (Lock.free : Lock n) = .leaving c' ↔ s.lock = .leaving c' :=
    fun c' => ⟨fun leaving => (by cases leaving), fun leaving => absurd leaving (stays c')⟩
  have none_entered : ∀ c', (Lock.free : Lock n) = .entered c' → s.lock = .entered c' :=
    fun c' entered => by cases entered
  have tidied : Safe s.table (sleepResume s.table p) (fun _ => False) :=
    safe_of_stirred (lists.setFields rfl rfl) (Stirred.setFields rfl rfl rfl)
  have still : ((sleepResume s.table p).proc p).state = .running := by
    simpa [sleepResume, PTable.setProc] using running
  cases resumed : s.resume p with
  | release =>
    exact ⟨_, by simp only [perform, here, deref, bind_ok, resumed]; rfl,
      inv.quiet (Safe.refl lists) free none_entered⟩
  | slept =>
    exact ⟨_, by simp only [perform, here, deref, bind_ok, resumed]; rfl,
      inv.quiet tidied free none_entered⟩
  | waiting =>
    refine ⟨_, by simp only [perform, here, deref, bind_ok, resumed]; rfl, ?_⟩
    exact inv_waitEnd inv here stays tidied still (fun _ => rfl) (fun _ => rfl)
  | waiting2 =>
    refine ⟨_, by simp only [perform, here, deref, bind_ok, resumed]; rfl, ?_⟩
    exact inv_waitEnd inv here stays tidied still (fun _ => rfl) (fun _ => rfl)

theorem keeps_yield (enabled : Enabled s (.yield c)) : Keeps s (.yield c) := by
  obtain ⟨free, busy⟩ := enabled
  obtain ⟨queues, lists⟩ := inv.lists
  obtain ⟨p, here, running⟩ := inv.current busy (not_leaving free c)
  obtain ⟨after, queues', ran, kept, globals, slots⟩ := yield_spec lists running
  exact ⟨_, by simp only [perform, here, deref, bind_ok, ran]; rfl,
    inv.leaves (safe_update kept slots globals.nextpid (by simp) (fun _ same => same)
      (fun _ => ⟨by rw [running]; simp, rfl⟩) id) here (not_leaving free)⟩

theorem keeps_sleep (enabled : Enabled s (.sleep c chan)) : Keeps s (.sleep c chan) := by
  obtain ⟨free, busy⟩ := enabled
  obtain ⟨queues, lists⟩ := inv.lists
  obtain ⟨p, here, running⟩ := inv.current busy (not_leaving free c)
  exact ⟨_, by simp only [perform, here, deref, bind_ok]; rfl,
    inv.leaves (safe_sleep lists running chan) here (not_leaving free)⟩

theorem keeps_exit (enabled : Enabled s (.exit c)) : Keeps s (.exit c) := by
  obtain ⟨free, busy, ordinary⟩ := enabled
  obtain ⟨queues, lists⟩ := inv.lists
  obtain ⟨p, here, running⟩ := inv.current busy (not_leaving free c)
  obtain ⟨middle, queues', ran, listed, kept, stirred⟩ := exit_spec lists running
    (by rw [← here]; exact fun same => ordinary same.symm)
  have still : (middle.proc p).state = .running := by
    rw [stirred.awake (by rw [running]; simp), running]
  exact ⟨_, by simp only [perform, here, deref, bind_ok, ran]; rfl,
    inv.leaves ((safe_of_stirred listed stirred).then
      (safe_update kept rfl rfl (by simp) (fun _ same => same)
        (fun _ => ⟨by rw [still]; simp, rfl⟩) id)) here (not_leaving free)⟩

theorem keeps_wait (enabled : Enabled s (.wait c)) : Keeps s (.wait c) ∧ Keeps s (.wait2 c) := by
  obtain ⟨free, busy⟩ := enabled
  obtain ⟨queues, lists⟩ := inv.lists
  obtain ⟨p, here, running⟩ := inv.current busy (not_leaving free c)
  refine ⟨⟨_, by simp only [perform, here, deref, bind_ok]; rfl, ?_⟩,
    _, by simp only [perform, here, deref, bind_ok]; rfl, ?_⟩
  all_goals
    exact inv_waitEnd inv here (not_leaving free) (Safe.refl lists) running (fun _ => rfl)
      (fun _ => rfl)

theorem keeps_changePrio (enabled : Enabled s (.changePrio c wanted)) :
    Keeps s (.changePrio c wanted) := by
  obtain ⟨⟨busy, _, stays⟩, accepted⟩ := enabled
  obtain ⟨queues, lists⟩ := inv.lists
  obtain ⟨p, here, running⟩ := inv.current busy stays
  have range : 0 ≤ wanted - 1 ∧ wanted - 1 ≤ 3 := by
    unfold prioAccepted at accepted
    omega
  exact ⟨_, by simp only [perform, here, deref, bind_ok]; rfl,
    inv.tabled (safe_update (changePrioSet_keeps lists running accepted) rfl rfl
      (by simp) (fun _ gone => gone.elim) (fun _ => ⟨by rw [running]; simp, rfl⟩) fun _ => range)⟩

theorem keeps_forkCopy (enabled : Enabled s (.forkCopy c np)) : Keeps s (.forkCopy c np) := by
  obtain ⟨⟨busy, _, stays⟩, embryo⟩ := enabled
  obtain ⟨queues, lists⟩ := inv.lists
  obtain ⟨p, here, running⟩ := inv.current busy stays
  have copied : Lists (forkCopy s.table p np) queues := lists.setFields rfl rfl
  exact ⟨_, by simp only [perform, here, deref, bind_ok]; rfl,
    inv.tabled (safe_of_stirred copied (Stirred.setFields rfl rfl rfl))⟩

theorem keeps_forkAbandon (embryo : (s.table.proc np).state = .embryo) :
    Keeps s (.forkAbandon c np) := by
  obtain ⟨queues, lists⟩ := inv.lists
  have kept : Lists (forkAbandon s.table np) queues :=
    lists.setProc (f := fun proc => { proc with state := .unused }) (by rw [embryo]; simp)
      (by simp) (fun live => absurd rfl live)
  exact ⟨_, rfl, inv.tabled (safe_update kept rfl rfl (by simp [embryo]) (fun _ gone => gone.elim)
    (fun live => absurd rfl live) id)⟩

theorem step_inv (enabled : Enabled s e) (allowed : NoLottery s e) : Keeps s e := by
  obtain ⟨queues, lists⟩ := inv.lists
  cases e with
  | scheduler c => exact keeps_scheduler inv enabled allowed
  | enter c => exact keeps_enter inv enabled
  | leave c => exact ⟨_, rfl, inv.left enabled⟩
  | yield c => exact keeps_yield inv enabled
  | sleep c chan => exact keeps_sleep inv enabled
  | exit c => exact keeps_exit inv enabled
  | wait c => exact (keeps_wait inv enabled).1
  | wait2 c => exact (keeps_wait inv enabled).2
  | changePrio c wanted => exact keeps_changePrio inv enabled
  | changePrioTail c wanted =>
    obtain ⟨busy, _, stays⟩ := enabled
    obtain ⟨p, here, running⟩ := inv.current busy stays
    exact ⟨s, by simp [perform, here, deref, changePrioTail_skips running], inv⟩
  | allocproc c ticks => exact ⟨_, rfl, inv.allocated ticks⟩
  | forkCopy c np => exact keeps_forkCopy inv enabled
  | forkEnter c np =>
    obtain ⟨after, ran, kept⟩ := inv.readied enabled.2.2 (update s.resume np .release)
    exact ⟨_, by simp only [perform, forkEnter, ran, bind_ok]; rfl, kept⟩
  | forkAbandon c np => exact keeps_forkAbandon inv enabled.2
  | wakeup chan =>
    obtain ⟨after, queues', ran, kept, woken⟩ := wakeup1_spec lists chan
    exact ⟨_, by simp only [perform, ran, bind_ok]; rfl,
      inv.tabled (safe_of_stirred kept woken.stirred)⟩
  | kill pid =>
    obtain ⟨result, after, queues', ran, kept, stirred⟩ := kill_spec lists pid
    exact ⟨_, by simp only [perform, ran, bind_ok]; rfl,
      inv.tabled (safe_of_stirred kept stirred)⟩
  | updateClock => exact ⟨_, rfl, inv.tabled (safe_updateClock lists)⟩
  | upgradePriorityAging =>
    have distinct : DistinctPids s.table := fun p r live live' => inv.pids p r live live'
    obtain ⟨after, queues', ran, kept, same⟩ := upgradePriorityAging_spec lists distinct
    exact ⟨_, by simp only [perform, ran, bind_ok]; rfl, inv.tabled (safe_of_identity kept same)⟩

end

private theorem pinit_inv : Inv (boot n {}) := by
  refine ⟨⟨_, lists_pinit⟩, fun p r live => absurd rfl live, fun p live => absurd rfl live,
    fun p => by simp [boot], fun c c' p here => ?_, fun p => ?_, fun c held => ?_⟩
  · cases here
  · constructor
    · intro running
      cases running
    · rintro ⟨c, here, _⟩
      cases here
  · cases held

theorem userinit_spec : ∃ t, userinit = .ok t ∧ ∀ n, Inv (boot n t) := by
  have found : (allocproc 0 {}).1 = some 0 := by decide +kernel
  have embryo : ((allocproc 0 {}).2.proc 0).state = .embryo := by decide +kernel
  have start : ∀ n, Inv (boot n { (allocproc 0 {}).2 with initproc := some 0 }) := by
    intro n
    have inv : Inv (boot n (allocproc 0 {}).2) := pinit_inv.allocated 0
    obtain ⟨queues, lists⟩ := inv.lists
    exact inv.quiet (t := { (allocproc 0 {}).2 with initproc := some 0 })
      ⟨⟨queues, ⟨lists.held, lists.distinct, lists.members, lists.ranged⟩⟩, rfl,
        fun p => by simp [boot], fun p live => ⟨live, rfl⟩, fun ranged => ranged⟩
      (fun _ => Iff.rfl) (fun _ => id)
  obtain ⟨t, ran, _⟩ := (start 0).readied embryo fun _ => .release
  refine ⟨t, ?_, fun n => ?_⟩
  · simpa [userinit, found, deref, userinitEnter, boot] using ran
  · obtain ⟨t', ran', kept⟩ := (start n).readied embryo fun _ => .release
    rw [show t = t' from Except.ok.inj (ran.symm.trans ran')]
    exact kept

theorem run_inv (run : (system n).Run NoLottery s) : Inv s := by
  apply run.invariant
  · rintro s ⟨t, left, rfl⟩
    obtain ⟨t', left', inv⟩ := userinit_spec
    rw [left] at left'
    cases left'
    exact inv n
  · intro s e after inv enabled allowed ran
    obtain ⟨after', ran', kept⟩ := step_inv inv enabled allowed
    have same : after = after' := Except.ok.inj (ran.symm.trans ran')
    rw [same]
    exact kept

/-- In every run on any number of CPUs whose scheduler passes all avoid the
lottery branch, RUNNING is the same as running on exactly one CPU whenever the
lock is free, every such pass chooses a RUNNABLE process, and no step faults. -/
theorem dispatch_exclusive_without_lottery (run : (system n).Run NoLottery s) :
    Exclusive s ∧ ∀ e, Enabled s e → NoLottery s e →
      ChoosesRunnable s e ∧ ∃ after, perform s e = .ok after := by
  have inv := run_inv run
  refine ⟨inv.exclusive, fun e enabled allowed => ⟨?_, ?_⟩⟩
  · cases e with
    | scheduler c =>
      intro p t ran
      obtain ⟨queues, lists⟩ := inv.lists
      obtain ⟨chosen, after, queues', ran', _, _, chose⟩ := scheduler_spec lists allowed
      rw [ran] at ran'
      cases ran'
      exact chose.1
    | _ => trivial
  · obtain ⟨after, ran, _⟩ := step_inv inv enabled allowed
    exact ⟨after, ran⟩

def initTable : PTable :=
  match userinit with
  | .ok t => t
  | .error _ => {}

theorem userinit_eq : userinit = .ok initTable := by
  obtain ⟨t, left, _⟩ := userinit_spec
  rw [initTable, left]

theorem boot_init (n : Nat) : (system n).Init (boot n initTable) := ⟨_, userinit_eq, rfl⟩

/-- init forks and waits for its child, which sleeps, is woken and runs again on CPU 1. -/
def childRuns : List (Event 2) :=
  [.scheduler 0, .enter 0, .allocproc 0 3, .forkCopy 0 1, .forkEnter 0 1, .scheduler 1, .enter 1,
    .sleep 1 (.addr 7), .leave 1, .wait 0, .leave 0, .wakeup (.addr 7), .scheduler 1, .enter 1]

theorem dispatch_exclusive_without_lottery_child : ∃ s : Machine 2,
    (system 2).Run NoLottery s ∧ s.cpu 1 = some 1 ∧ (s.table.proc 0).state = .sleeping ∧
      Exclusive s ∧ ∃ after, perform s (.yield 1) = .ok after := by
  obtain ⟨s, run, runs, sleeps, enabled⟩ := System.exists_run NoLottery (boot_init 2) childRuns
    (fun s => s.cpu 1 = some 1 ∧ (s.table.proc 0).state = .sleeping ∧
      Enabled s (.yield 1)) (by decide +kernel)
  obtain ⟨exclusive, steps⟩ := dispatch_exclusive_without_lottery run
  exact ⟨s, run, runs, sleeps, exclusive, (steps _ enabled trivial).2⟩

/-! ## The lottery branch -/

/-- init runs on CPU 0, asks for priority 1 and yields into the lottery queue,
where CPU 0 draws it. -/
private def initDrawn : List (Event 2) :=
  [.scheduler 0, .enter 0, .changePrio 0 1, .yield 0, .leave 0, .scheduler 0, .enter 0]

/-- The lottery leaves its winner counted in queue 0. CPU 1 draws the process
CPU 0 is running, and both run it when the lock is free again. -/
theorem lottery_dispatches_running_process :
    (∃ s : Machine 2, (system 2).Run (fun _ _ => True) s ∧ Enabled s (.scheduler 1) ∧
      ¬ ChoosesRunnable s (.scheduler 1)) ∧
    ∃ s : Machine 2, (system 2).Run (fun _ _ => True) s ∧ ¬ Exclusive s := by
  constructor
  · obtain ⟨s, run, enabled, running, ⟨_, t⟩, ran, rfl⟩ :=
      System.exists_run (fun _ _ => True) (boot_init 2) initDrawn
        (fun s => Enabled s (.scheduler 1) ∧ (s.table.proc 0).state = .running ∧
          ∃ r, ProcTable.scheduler s.table = .ok r ∧ r.1 = some 0) (by decide +kernel)
    refine ⟨s, run, enabled, fun chooses => ?_⟩
    rw [chooses 0 t ran] at running
    cases running
  · obtain ⟨s, run, free, running, first, second⟩ := System.exists_run (fun _ _ => True) (boot_init 2)
      (initDrawn ++ [.scheduler 1, .enter 1])
      (fun s => s.lock = .free ∧ (s.table.proc 0).state = .running ∧
        s.cpu 0 = some 0 ∧ s.cpu 1 = some 0) (by decide +kernel)
    refine ⟨s, run, fun exclusive => ?_⟩
    obtain ⟨c, _, only⟩ := (exclusive free 0).mp running
    have same : (0 : Fin 2) = 1 := (only 0 first).trans (only 1 second).symm
    cases same

end Xv6.Dispatch
