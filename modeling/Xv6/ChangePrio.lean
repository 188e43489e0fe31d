import Xv6.SlotEffects

/-! `change_prio` from its check to its return, among everything that the other processes,
the clock and aging do in between. A call writes the priority of its process without the
lock and yields; a timer interrupt may yield before and after that. Beside each call the
record keeps whether the process has been in the ready queue of its new priority, and how
often aging has promoted it. -/
namespace Xv6.ChangePrio
open CheckedC ProcTable ReadyQueues ArrayQueue StepSystem Dispatch SlotEffects Function

/-- A call of `change_prio` whose argument was accepted. -/
structure Call where
  wanted : Int
  /-- `yield` has been called. -/
  yielded : Bool
  placed : Bool
  promotions : Nat
  deriving DecidableEq

structure State (n : Nat) where
  machine : Machine n
  call : ProcId → Option Call
  /-- The call that has just returned, with its value. -/
  returned : Option (ProcId × Int)

inductive Step (n : Nat) where
  /-- A step that is not one of `change_prio`, timer interrupts included. -/
  | other (e : Event n)
  | start (c : Fin n) (wanted : Int)
  | yields (c : Fin n)
  | finish (c : Fin n)
  deriving DecidableEq

/-! ## What the record sees -/

/-- The process stands in the ready queue of this priority. -/
def Queued (t : PTable) (p : ProcId) (priority : Int) : Prop :=
  ∃ (q : Fin NUMFILAS) (i : Fin NPROC),
    (q : Int) = priority ∧ (i : Int) < t.countQueue q ∧ t.queueReady q i = some p

instance : Decidable (Queued t p priority) := inferInstanceAs (Decidable (∃ _, ∃ _, _))

/-- `upgradePriority_Aging` promotes the process. -/
def Due (proc : Proc) : Prop :=
  proc.state = .runnable ∧
    (agingLimit proc.priority).any (fun limit => decide (limit ≤ proc.readyTimeAging)) = true

instance : Decidable (Due proc) := inferInstanceAs (Decidable (_ ∧ _))

def Call.note (e : Event n) (before after : PTable) (p : ProcId) (call : Call) : Call :=
  { call with
    placed := call.placed || decide (Queued after p (call.wanted - 1))
    promotions := call.promotions +
      if e = .upgradePriorityAging ∧ Due (before.proc p) then 1 else 0 }

def State.noted (s : State n) (e : Event n) (m : Machine n) (p : ProcId) : Option Call :=
  (s.call p).map (Call.note e s.machine.table m.table p)

/-! ## The calls -/

def NotCalling (s : State n) (c : Fin n) : Prop :=
  ∀ p, s.machine.cpu c = some p → s.call p = none

instance : Decidable (NotCalling s c) := inferInstanceAs (Decidable (∀ _, _))

def Calling (s : State n) (c : Fin n) (yielded : Bool) : Prop :=
  ∃ p, s.machine.cpu c = some p ∧ (s.call p).map Call.yielded = some yielded

instance : Decidable (Calling s c yielded) := inferInstanceAs (Decidable (∃ _, _))

/-- A process in a call of `change_prio` does not execute other code of its own. -/
def Outside (s : State n) : Event n → Prop
  | .changePrio _ _ | .changePrioTail _ _ => False
  | .sleep c _ | .exit c | .wait c | .wait2 c | .allocproc c _ | .forkCopy c _ | .forkEnter c _
  | .forkAbandon c _ => NotCalling s c
  | .scheduler _ | .enter _ | .leave _ | .yield _ | .wakeup _ | .kill _ | .updateClock
  | .upgradePriorityAging => True

instance : Decidable (Outside s e) := by
  apply e.casesOn (motive := fun e => Decidable (Outside s e)) <;> intros <;> unfold Outside <;>
    infer_instance

def Enabled (s : State n) : Step n → Prop
  | .other e => Dispatch.Enabled s.machine e ∧ Outside s e
  | .start c _ => Runs s.machine c ∧ NotCalling s c
  | .yields c => s.machine.lock = .free ∧ Calling s c false
  | .finish c => Runs s.machine c ∧ Calling s c true

instance : Decidable (Enabled s step) :=
  match step with
  | .other _ | .start _ _ | .yields _ | .finish _ => inferInstanceAs (Decidable (_ ∧ _))

def perform (s : State n) : Step n → Checked (State n)
  | .other e => do
    let m ← Dispatch.perform s.machine e
    return ⟨m, s.noted e m, none⟩
  | .start c wanted => do
    let p ← deref (s.machine.cpu c)
    if prioAccepted wanted then
      let m ← Dispatch.perform s.machine (.changePrio c wanted)
      return ⟨m, update (s.noted (.changePrio c wanted) m) p
        (some ⟨wanted, false, false, 0⟩), none⟩
    else return { s with returned := some (p, -1) }
  | .yields c => do
    let p ← deref (s.machine.cpu c)
    let m ← Dispatch.perform s.machine (.yield c)
    return ⟨m, update (s.noted (.yield c) m) p
      ((s.noted (.yield c) m p).map fun call => { call with yielded := true }), none⟩
  | .finish c => do
    let p ← deref (s.machine.cpu c)
    let call ← deref (s.call p)
    let (value, t) ← changePrioTail s.machine.table p call.wanted
    return ⟨{ s.machine with table := t }, update s.call p none, some (p, value)⟩

def calls (n : Nat) : System (State n) (Step n) where
  Init s := (Dispatch.system n).Init s.machine ∧ (∀ p, s.call p = none) ∧ s.returned = none
  Enabled := Enabled
  perform := perform

instance : Decidable ((calls n).Enabled s step) := inferInstanceAs (Decidable (Enabled s step))

/-- The step is not a scheduler pass by the lottery branch. -/
def NoLottery (s : State n) : Step n → Prop
  | .other e => Dispatch.NoLottery s.machine e
  | .start _ _ | .yields _ | .finish _ => True

instance : Decidable (NoLottery s step) := by
  unfold NoLottery
  split <;> infer_instance

/-! ## Runs of the machine -/

theorem perform_machine {s : State n} (enabled : Enabled s step) (allowed : NoLottery s step)
    (ran : perform s step = .ok after) :
    after.machine = s.machine ∨ ∃ e, Dispatch.Enabled s.machine e ∧
      Dispatch.NoLottery s.machine e ∧ Dispatch.perform s.machine e = .ok after.machine := by
  cases step with
  | other e =>
    obtain ⟨m, moved, ran⟩ := bind_eq_ok.mp ran
    cases ran
    exact .inr ⟨e, enabled.1, allowed, moved⟩
  | start c wanted =>
    obtain ⟨p, here, ran⟩ := bind_eq_ok.mp ran
    split at ran
    · rename_i accepted
      obtain ⟨m, moved, ran⟩ := bind_eq_ok.mp ran
      cases ran
      exact .inr ⟨.changePrio c wanted, ⟨enabled.1, accepted⟩, trivial, moved⟩
    · cases ran
      exact .inl rfl
  | yields c =>
    obtain ⟨p, here, ran⟩ := bind_eq_ok.mp ran
    obtain ⟨m, moved, ran⟩ := bind_eq_ok.mp ran
    cases ran
    have running : (s.machine.cpu c).isSome := by rw [deref_eq_ok here]; rfl
    exact .inr ⟨.yield c, ⟨enabled.1, running⟩, trivial, moved⟩
  | finish c =>
    obtain ⟨p, here, ran⟩ := bind_eq_ok.mp ran
    obtain ⟨call, mine, ran⟩ := bind_eq_ok.mp ran
    obtain ⟨⟨value, t⟩, tail, ran⟩ := bind_eq_ok.mp ran
    cases ran
    refine .inr ⟨.changePrioTail c call.wanted, enabled.1, trivial, ?_⟩
    simp only [Dispatch.perform, here, bind_ok, tail]
    rfl

theorem run_machine (run : (calls n).Run NoLottery s) :
    (Dispatch.system n).Run Dispatch.NoLottery s.machine := by
  induction run with
  | start init => exact System.Run.start init.1
  | step run enabled allowed ran earlier =>
    rcases perform_machine enabled allowed ran with same | ⟨e, possible, drawn, moved⟩
    · rw [same]
      exact earlier
    · exact earlier.step possible drawn moved

/-! ## What a step does to a process -/

theorem queued_of_runnable {m : Machine n} (inv : Inv m)
    (ready : (m.table.proc p).state = .runnable) : Queued m.table p (m.table.proc p).priority := by
  obtain ⟨queues, lists⟩ := inv.lists
  obtain ⟨q, same⟩ := queue_of_priority (inv.ranged p)
  have member : p ∈ queues q := (lists.members q p).mpr ⟨ready, same⟩
  obtain ⟨k, known, here⟩ := List.getElem_of_mem member
  have held := lists.held q
  have counted : (k : Int) < m.table.countQueue q := by
    rw [held.counted]
    exact_mod_cast known
  refine ⟨q, ⟨k, known.trans_le held.fits⟩, same.symm, counted, ?_⟩
  rw [held.filled ⟨k, known.trans_le held.fits⟩ known, List.getElem?_eq_getElem known, here]

theorem runnable_of_queued {m : Machine n} (inv : Inv m) (queued : Queued m.table p priority) :
    (m.table.proc p).state = .runnable := by
  obtain ⟨queues, lists⟩ := inv.lists
  obtain ⟨q, i, -, counted, here⟩ := queued
  have held := lists.held q
  have known : (i : Nat) < (queues q).length := by
    rw [held.counted] at counted
    exact_mod_cast counted
  rw [held.filled i known] at here
  exact ((lists.members q p).mp (List.mem_of_getElem? here)).1

theorem promote_priority (proc : Proc) :
    (promote proc).priority = proc.priority + if Due proc then 1 else 0 := by
  cases limit : agingLimit proc.priority with
  | none => simp [promote, Due, limit]
  | some bound =>
    by_cases due : proc.state = .runnable ∧ bound ≤ proc.readyTimeAging
    · simp [promote, Due, limit, due]
    · have early : ¬Due proc := fun both => due ⟨both.1, by simpa [limit] using both.2⟩
      simp [promote, limit, due, early]

/-- The step takes the process through a yield or back from one, if it is its own. -/
def Through (m : Machine n) (e : Event n) (p : ProcId) : Prop :=
  ∀ c, actor e = some c → m.cpu c = some p →
    e = .yield c ∨ e = .enter c ∧ m.resume p = .release

theorem Through.not_parks {m : Machine n} (through : Through m e p) : ¬ Parks m e p := by
  rintro (⟨c, chan, rfl, here⟩ | here | here | ⟨here, waiting⟩)
  · exact absurd (through c rfl here) (by simp)
  · exact absurd (through _ rfl here) (by simp)
  · exact absurd (through _ rfl here) (by simp)
  · rcases through _ rfl here with yields | ⟨-, released⟩
    · cases yields
    · simp [released] at waiting

theorem yield_leaves {m : Machine n} (ran : Dispatch.perform m (.yield c) = .ok after)
    (here : m.cpu c = some p) :
    (after.table.proc p).state = .runnable ∧ after.resume p = .release := by
  obtain ⟨q, found, ran⟩ := bind_eq_ok.mp ran
  obtain ⟨t, yields, ran⟩ := bind_eq_ok.mp ran
  cases ran
  have same : q = p := Option.some.inj ((deref_eq_ok found).symm.trans here)
  subst same
  rw [(makeReady_slots yields).1, update_self]
  exact ⟨rfl, update_self ..⟩

/-- What a step does to the state and the priority of a process in a call. -/
structure Effect (m after : Machine n) (e : Event n) (p : ProcId) : Prop where
  priority : (after.table.proc p).priority = (m.table.proc p).priority +
    if e = .upgradePriorityAging ∧ Due (m.table.proc p) then 1 else 0
  state : (after.table.proc p).state = (m.table.proc p).state ∨
    (after.table.proc p).state = .running ∨
    (after.table.proc p).state = .runnable ∧ after.resume p = .release

theorem effect_of_turn {m : Machine n} (inv : Inv m) (enabled : Dispatch.Enabled m e)
    (allowed : Dispatch.NoLottery m e) (ran : Dispatch.perform m e = .ok after)
    (active : (m.table.proc p).state = .running ∨ (m.table.proc p).state = .runnable)
    (through : Through m e p) : Effect m after e p := by
  have turn := slot_turn True (fun _ => ⟨inv, enabled, allowed⟩) ran p
  -- states that a process in a call does not have
  have never {state : ProcState} (other : (m.table.proc p).state = state)
      (neither : state ≠ .running ∧ state ≠ .runnable) : False := by
    rw [other] at active
    exact active.elim neither.1 neither.2
  suffices effect : (after.table.proc p).priority = (m.table.proc p).priority +
      (if e = .upgradePriorityAging ∧ Due (m.table.proc p) then 1 else 0) ∧
      ((after.table.proc p).state = (m.table.proc p).state ∨
        (after.table.proc p).state = .running ∨ (after.table.proc p).state = .runnable ∧
          ∃ c, e = .yield c ∧ m.cpu c = some p) by
    refine ⟨effect.1, effect.2.imp id (Or.imp id fun ready => ⟨ready.1, ?_⟩)⟩
    obtain ⟨c, rfl, here⟩ := ready.2
    exact (yield_leaves ran here).2
  by_cases aging : e = .upgradePriorityAging
  · subst aging
    obtain ⟨t, ages, ran⟩ := bind_eq_ok.mp ran
    cases ran
    rw [(upgradePriorityAging_slots ages).1 p, promote_priority]
    exact ⟨by simp, .inl (by simp)⟩
  generalize after.table.proc p = slot at turn ⊢
  cases turn with
  | kept => exact ⟨by simp [aging], .inl rfl⟩
  | dispatched ready => exact ⟨by simp [dispatched], .inr (.inl rfl)⟩
  | tidied here running => exact ⟨by simp, .inl rfl⟩
  | @yielded c here running => exact ⟨by simp, .inr (.inr ⟨rfl, c, rfl, here⟩)⟩
  | slept here running => exact (through.not_parks (.inl ⟨_, _, rfl, here⟩)).elim
  | waits scan running => exact (through.not_parks (.inr scan)).elim
  | reaped zombie scan cleared => exact (never zombie (by simp)).elim
  | exited here running => exact absurd (through _ rfl here) (by simp)
  | passed => exact ⟨by simp, .inl rfl⟩
  | passedWoken sleeping => exact (never sleeping (by simp)).elim
  | woken sleeping => exact (never sleeping (by simp)).elim
  | struck target =>
    have awake : (m.table.proc p).state ≠ .sleeping := fun asleep => never asleep (by simp)
    exact ⟨by simp [struck], .inl (if_neg awake)⟩
  | prioritized here running => exact absurd (through _ rfl here) (by simp)
  | requeued running ready =>
    have busy := running trivial
    rw [ready] at busy
    cases busy
  | allocated unused => exact (never unused (by simp)).elim
  | copied here embryo => exact (never (embryo trivial) (by simp)).elim
  | entered embryo => exact (never (embryo trivial) (by simp)).elim
  | abandoned embryo => exact (never (embryo trivial) (by simp)).elim
  | ticked => exact ⟨by simp, .inl (by simp)⟩
  | promoted => exact absurd rfl aging

/-! ## Calls in progress -/

/-- What holds of a process in a call. -/
structure Tracked (m : Machine n) (p : ProcId) (call : Call) : Prop where
  accepted : prioAccepted call.wanted
  priority : (m.table.proc p).priority = call.wanted - 1 + call.promotions
  active : (m.table.proc p).state = .running ∨ (m.table.proc p).state = .runnable
  resumes : call.placed = true → m.resume p = .release
  fresh : call.placed = false → call.promotions = 0 ∧ call.yielded = false ∧
    (m.table.proc p).state = .running ∧ ∀ c, m.cpu c = some p → m.lock ≠ .entered c

theorem Tracked.through (tracked : Tracked m p call) (enabled : Dispatch.Enabled m e)
    (own : ∀ c, actor e = some c → m.cpu c = some p → e = .yield c ∨ e = .enter c) :
    Through m e p := by
  intro c acts here
  refine (own c acts here).imp id fun enters => ⟨enters, ?_⟩
  subst enters
  cases placed : call.placed with
  | true => exact tracked.resumes placed
  | false => exact absurd enabled ((tracked.fresh placed).2.2.2 c here)

theorem not_entered {m : Machine n} (inv : Inv m) (enabled : Dispatch.Enabled m e)
    (allowed : Dispatch.NoLottery m e) (ran : Dispatch.perform m e = .ok after)
    (running : (m.table.proc p).state = .running)
    (apart : ∀ c, m.cpu c = some p → m.lock ≠ .entered c) (here : after.cpu c = some p) :
    after.lock ≠ .entered c := by
  intro entered
  rcases (perform_stepped False nofun ran).lock _ entered with before | rfl
  · rcases cpu_turn ran here with there | ⟨rfl, -⟩
    · exact apart c there before
    · rw [enabled.1] at before
      cases before
  · obtain ⟨⟨chosen, t⟩, took, ran⟩ := bind_eq_ok.mp ran
    cases chosen with
    | none =>
      cases ran
      rw [enabled.2] at here
      cases here
    | some r =>
      cases ran
      have same : r = p := by simpa using here
      subst same
      have ready := chosen_runnable inv allowed took
      rw [running] at ready
      cases ready

theorem Tracked.step {m : Machine n} (tracked : Tracked m p call) (inv : Inv m)
    (enabled : Dispatch.Enabled m e) (allowed : Dispatch.NoLottery m e)
    (ran : Dispatch.perform m e = .ok after)
    (own : ∀ c, actor e = some c → m.cpu c = some p → e = .yield c ∨ e = .enter c) :
    Tracked after p (call.note e m.table after.table p) := by
  have through := tracked.through enabled own
  have effect := effect_of_turn inv enabled allowed ran tracked.active through
  have inv' : Inv after := by
    obtain ⟨after', ran', kept⟩ := step_inv inv enabled allowed
    rwa [Except.ok.inj (ran.symm.trans ran')]
  refine ⟨tracked.accepted, ?_, ?_, fun placed => ?_, fun unplaced => ?_⟩
  · rw [effect.priority, tracked.priority, Call.note]
    push_cast
    split <;> omega
  · rcases effect.state with same | running | ⟨ready, -⟩
    · rw [same]
      exact tracked.active
    · exact .inl running
    · exact .inr ready
  · cases before : call.placed with
    | true =>
      rcases (perform_stepped False nofun ran).resume p with same | released | parks
      · rw [same]
        exact tracked.resumes before
      · exact released
      · exact absurd parks through.not_parks
    | false =>
      have queued : Queued after.table p (call.wanted - 1) := by
        simpa [Call.note, before] using placed
      have ready := runnable_of_queued inv' queued
      rcases effect.state with same | running | ⟨-, released⟩
      · rw [ready, (tracked.fresh before).2.2.1] at same
        cases same
      · rw [ready] at running
        cases running
      · exact released
  · obtain ⟨before, absent⟩ : call.placed = false ∧ ¬Queued after.table p (call.wanted - 1) := by
      simpa [Call.note] using unplaced
    obtain ⟨none, early, running, apart⟩ := tracked.fresh before
    have idle : ¬(e = .upgradePriorityAging ∧ Due (m.table.proc p)) := by
      rintro ⟨-, ready, -⟩
      rw [running] at ready
      cases ready
    refine ⟨?_, early, ?_, fun c here => not_entered inv enabled allowed ran running apart here⟩
    · rw [Call.note, if_neg idle]
      exact none
    · rcases effect.state with same | still | ⟨ready, -⟩
      · rw [same]
        exact running
      · exact still
      · have queued := queued_of_runnable inv' ready
        rw [effect.priority, if_neg idle, tracked.priority, none] at queued
        exact absurd (by simpa using queued) absent

theorem tracked_start {m : Machine n} (inv : Inv m) (runs : Runs m c) (here : m.cpu c = some p)
    (accepted : prioAccepted wanted) (ran : Dispatch.perform m (.changePrio c wanted) = .ok after) :
    Tracked after p ⟨wanted, false, false, 0⟩ := by
  have running := inv.on_cpu here runs.2.2
  simp only [Dispatch.perform, here, deref, bind_ok] at ran
  cases ran
  have state : ((changePrioSet m.table p wanted).proc p).state = .running := by
    simpa [changePrioSet, PTable.setProc] using running
  refine ⟨accepted, by simp [changePrioSet, PTable.setProc], .inl state, by simp,
    fun _ => ⟨rfl, rfl, state, fun c' there => ?_⟩⟩
  rw [inv.unique c' c p there here]
  exact runs.2.1

theorem Tracked.yielded (tracked : Tracked m p call)
    (ready : (m.table.proc p).state = .runnable) : Tracked m p { call with yielded := true } := by
  refine ⟨tracked.accepted, tracked.priority, tracked.active, tracked.resumes, fun unplaced => ?_⟩
  have running := (tracked.fresh unplaced).2.2.1
  rw [ready] at running
  cases running

def AllTracked (s : State n) : Prop := ∀ p call, s.call p = some call → Tracked s.machine p call

theorem AllTracked.noted {s : State n} (all : AllTracked s) (inv : Inv s.machine)
    (enabled : Dispatch.Enabled s.machine e) (allowed : Dispatch.NoLottery s.machine e)
    (ran : Dispatch.perform s.machine e = .ok m)
    (own : ∀ c, actor e = some c → s.machine.cpu c = some p → s.call p ≠ none →
      e = .yield c ∨ e = .enter c)
    (found : s.noted e m p = some call) : Tracked m p call := by
  obtain ⟨before, mine, rfl⟩ := Option.map_eq_some_iff.mp found
  refine (all p before mine).step inv enabled allowed ran fun c acts here => ?_
  exact own c acts here (by rw [mine]; simp)

theorem step_tracked {s : State n} (all : AllTracked s) (inv : Inv s.machine)
    (enabled : Enabled s step) (allowed : NoLottery s step) (ran : perform s step = .ok after) :
    AllTracked after := by
  cases step with
  | other e =>
    obtain ⟨m, moved, ran⟩ := bind_eq_ok.mp ran
    cases ran
    intro p call found
    refine all.noted inv enabled.1 allowed moved (fun c acts here calling => ?_) found
    have outside := enabled.2
    cases e with
    | enter c' | yield c' =>
      cases acts
      simp
    | changePrio c' wanted | changePrioTail c' wanted => exact outside.elim
    | sleep c' chan | exit c' | wait c' | wait2 c' =>
      cases acts
      exact absurd (outside p here) calling
    | _ => cases acts
  | start c wanted =>
    obtain ⟨p, here, ran⟩ := bind_eq_ok.mp ran
    have here := deref_eq_ok here
    split at ran
    · rename_i accepted
      obtain ⟨m, moved, ran⟩ := bind_eq_ok.mp ran
      cases ran
      intro r call found
      dsimp only at found ⊢
      by_cases mine : r = p
      · subst mine
        rw [update_self] at found
        cases found
        exact tracked_start inv enabled.1 here accepted moved
      · rw [update_of_ne mine] at found
        have possible : Dispatch.Enabled s.machine (.changePrio c wanted) := ⟨enabled.1, accepted⟩
        refine all.noted inv possible trivial moved (fun c' acts there _ => ?_) found
        cases acts
        exact absurd (Option.some.inj (there.symm.trans here)) mine
    · cases ran
      exact all
  | yields c =>
    obtain ⟨p, here, ran⟩ := bind_eq_ok.mp ran
    obtain ⟨m, moved, ran⟩ := bind_eq_ok.mp ran
    cases ran
    have here := deref_eq_ok here
    have possible : Dispatch.Enabled s.machine (.yield c) := ⟨enabled.1, by rw [here]; rfl⟩
    have kept (r : ProcId) (call : Call) (found : s.noted (.yield c) m r = some call) :
        Tracked m r call :=
      all.noted inv possible trivial moved (fun c' acts _ _ => by cases acts; simp) found
    intro r call found
    dsimp only at found ⊢
    by_cases mine : r = p
    · subst mine
      rw [update_self] at found
      obtain ⟨before, noted, rfl⟩ := Option.map_eq_some_iff.mp found
      exact (kept r before noted).yielded (yield_leaves moved here).1
    · rw [update_of_ne mine] at found
      exact kept r call found
  | finish c =>
    obtain ⟨p, here, ran⟩ := bind_eq_ok.mp ran
    obtain ⟨mine, calling, ran⟩ := bind_eq_ok.mp ran
    obtain ⟨⟨value, t⟩, tail, ran⟩ := bind_eq_ok.mp ran
    have running := inv.on_cpu (deref_eq_ok here) enabled.1.2.2
    rw [changePrioTail_skips running] at tail
    cases tail
    cases ran
    intro r call found
    dsimp only at found ⊢
    by_cases ended : r = p
    · rw [ended, update_self] at found
      cases found
    · rw [update_of_ne ended] at found
      exact all r call found

theorem run_tracked (run : (calls n).Run NoLottery s) : AllTracked s := by
  induction run with
  | start init =>
    intro p call found
    rw [init.2.1 p] at found
    cases found
  | step run enabled allowed ran all =>
    exact step_tracked all (run_inv (run_machine run)) enabled allowed ran

/-! ## change_prio -/

/-- The steps of a call that CPU `c` takes. -/
def Step.IsCallOn (c : Fin n) : Step n → Prop
  | .other _ => False
  | .start c' _ | .yields c' | .finish c' => c' = c

theorem call_priority {s : State n} (inv : Inv s.machine) (mine : step.IsCallOn c)
    (here : s.machine.cpu c = some p) (enabled : Enabled s step)
    (ran : perform s step = .ok after) (other : r ≠ p) :
    (after.machine.table.proc r).priority = (s.machine.table.proc r).priority := by
  cases step with
  | other e => exact mine.elim
  | start c' wanted =>
    cases mine
    simp only [perform, Dispatch.perform, here, deref, bind_ok] at ran
    split at ran
    · cases ran
      simp [changePrioSet, PTable.setProc, other]
    · cases ran
      rfl
  | yields c' =>
    cases mine
    obtain ⟨q, found, ran⟩ := bind_eq_ok.mp ran
    obtain ⟨m, moved, ran⟩ := bind_eq_ok.mp ran
    obtain ⟨q', found', moved⟩ := bind_eq_ok.mp moved
    obtain ⟨t, yields, moved⟩ := bind_eq_ok.mp moved
    cases moved
    cases ran
    have same : q' = p := Option.some.inj ((deref_eq_ok found').symm.trans here)
    subst same
    rw [(makeReady_slots yields).1, update_of_ne other]
  | finish c' =>
    cases mine
    have running := inv.on_cpu here enabled.1.2.2
    obtain ⟨q, found, ran⟩ := bind_eq_ok.mp ran
    obtain ⟨call, calling, ran⟩ := bind_eq_ok.mp ran
    have same : q = p := Option.some.inj ((deref_eq_ok found).symm.trans here)
    subst same
    rw [changePrioTail_skips running, bind_ok] at ran
    cases ran
    rfl

theorem yields_queued {s : State n} (inv : Inv s.machine) (tracked : Tracked s.machine p call)
    (enabled : Enabled s (.yields c)) (here : s.machine.cpu c = some p) :
    ∃ after, perform s (.yields c) = .ok after ∧
      Queued after.machine.table p (call.wanted - 1 + call.promotions) := by
  have possible : Dispatch.Enabled s.machine (.yield c) := ⟨enabled.1, by rw [here]; rfl⟩
  obtain ⟨m, ran, inv'⟩ := step_inv inv possible trivial
  have effect := effect_of_turn inv possible trivial ran tracked.active
    (tracked.through possible fun c' acts _ => by cases acts; simp)
  have queued := queued_of_runnable inv' (yield_leaves ran here).1
  rw [effect.priority, tracked.priority, if_neg (by simp), Int.add_zero] at queued
  obtain ⟨call', moved⟩ : ∃ call', perform s (.yields c) = .ok ⟨m, call', none⟩ := by
    simp only [perform, here, deref, bind_ok, ran]
    exact ⟨_, rfl⟩
  exact ⟨_, moved, queued⟩

/-- A call with an argument outside 1..4 returns -1 and leaves the table alone. Any other call
yields into the ready queue of its priority, and returns 0 once its process is RUNNING again,
has been in the queue of the wanted priority, and has that priority plus one for every
promotion by aging; `auxTrocarFilaPriority` is not executed. No step of a call changes the
priority of another process. -/
theorem change_prio_end_to_end (run : (calls n).Run NoLottery s) :
    (∀ c p wanted, Enabled s (.start c wanted) → s.machine.cpu c = some p →
      ¬prioAccepted wanted →
      perform s (.start c wanted) = .ok { s with returned := some (p, -1) }) ∧
    (∀ c p call, Enabled s (.yields c) → s.machine.cpu c = some p → s.call p = some call →
      ∃ after, perform s (.yields c) = .ok after ∧
        Queued after.machine.table p (call.wanted - 1 + call.promotions)) ∧
    (∀ c p call, Enabled s (.finish c) → s.machine.cpu c = some p → s.call p = some call →
      prioAccepted call.wanted ∧ call.placed = true ∧
      (s.machine.table.proc p).state = .running ∧
      (s.machine.table.proc p).priority = call.wanted - 1 + call.promotions ∧
      perform s (.finish c) = .ok ⟨s.machine, update s.call p none, some (p, 0)⟩) ∧
    (∀ c p step after, step.IsCallOn c → s.machine.cpu c = some p → Enabled s step →
      perform s step = .ok after → ∀ r, r ≠ p →
        (after.machine.table.proc r).priority = (s.machine.table.proc r).priority) := by
  have inv := run_inv (run_machine run)
  have all := run_tracked run
  refine ⟨fun c p wanted enabled here refused => ?_, fun c p call enabled here calling => ?_,
    fun c p call enabled here calling => ?_,
    fun c p step after mine here enabled ran r other =>
      call_priority inv mine here enabled ran other⟩
  · simp only [perform, here, deref, bind_ok, if_neg refused]
    rfl
  · exact yields_queued inv (all p call calling) enabled here
  · have tracked := all p call calling
    have running := inv.on_cpu here enabled.1.2.2
    refine ⟨tracked.accepted, ?_, running, tracked.priority, ?_⟩
    · obtain ⟨q, there, ended⟩ := enabled.2
      have same : q = p := Option.some.inj (there.symm.trans here)
      rw [same, calling] at ended
      by_contra unplaced
      have early := (tracked.fresh (by simpa using unplaced)).2.1
      rw [Option.map_some, early] at ended
      cases ended
    · simp only [perform, here, calling, deref, bind_ok, changePrioTail_skips running]
      rfl

/-- init asks for priority 3 and runs again. -/
def askedOnce : List (Step 1) :=
  [.other (.scheduler 0), .other (.enter 0), .start 0 3, .yields 0, .other (.leave 0),
    .other (.scheduler 0), .other (.enter 0)]

theorem calls_init : (calls 1).Init ⟨boot 1 initTable, fun _ => none, none⟩ :=
  ⟨⟨_, userinit_eq, rfl⟩, fun _ => rfl, rfl⟩

theorem change_prio_end_to_end_init : ∃ s : State 1, (calls 1).Run NoLottery s ∧
    (s.machine.table.proc 0).priority = 2 ∧
    perform s (.finish 0) = .ok ⟨s.machine, update s.call 0 none, some (0, 0)⟩ := by
  obtain ⟨s, run, enabled, here, calling⟩ := System.exists_run NoLottery calls_init askedOnce
    (fun s => Enabled s (.finish 0) ∧ s.machine.cpu 0 = some 0 ∧
      s.call 0 = some ⟨3, true, true, 0⟩) (by decide +kernel)
  obtain ⟨-, -, ends, -⟩ := change_prio_end_to_end run
  obtain ⟨-, -, -, priority, ran⟩ := ends 0 0 _ enabled here calling
  exact ⟨s, run, priority, ran⟩

/-- init asks for priority 1, is drawn by the lottery, which lowers the counter of queue 2,
and asks for priority 3. -/
def askedTwice : List (Step 1) :=
  [.other (.scheduler 0), .other (.enter 0), .start 0 1, .yields 0, .other (.leave 0),
    .other (.scheduler 0), .other (.enter 0), .finish 0, .start 0 3]

theorem change_prio_misses_queue : ∃ s : State 1, (calls 1).Run (fun _ _ => True) s ∧
    Enabled s (.yields 0) ∧ s.call 0 = some ⟨3, false, false, 0⟩ ∧
    s.machine.table.countQueue 2 = -1 ∧ perform s (.yields 0) = .error (.index (-1)) :=
  System.exists_run (fun _ _ => True) calls_init askedTwice
    (fun s => Enabled s (.yields 0) ∧ s.call 0 = some ⟨3, false, false, 0⟩ ∧
      s.machine.table.countQueue 2 = -1 ∧ perform s (.yields 0) = .error (.index (-1)))
    (by decide +kernel)

end Xv6.ChangePrio
