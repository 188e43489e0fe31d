import Xv6.SlotEffects

/-! `sleep` and `wakeup`. Waiters hold a spinlock, test a condition and call `sleep`
in a loop; wakers change the condition under the same lock and call `wakeup` before
they release it. The lock is `ptable.lock` itself or another one; every acquire,
release and access between them is a step of its own, on any number of CPUs. What the
steps do to a thread is what the functions of the process table do to its slot. The
lottery branch of `scheduler` looks at no state, and may run a process that sleeps. -/
namespace Xv6.SleepWakeup
open CheckedC ProcTable StepSystem Function

inductive Lock where
  | lk
  | ptable
  deriving DecidableEq

/-- The lock the waiters pass to `sleep`, the channel, and the condition. -/
structure Design (σ : Type) where
  guard : Lock
  chan : Chan
  ready : σ → Bool

inductive Role where
  | waiter
  | waker
  deriving DecidableEq

/-- The next thing a process does. -/
inductive Pc where
  | outside
  | acquire (role : Role)
  /-- a waiter looks at the condition -/
  | test
  /-- `sleep`: `acquire(&ptable.lock)` and `release(lk)`, unless they are one lock -/
  | sleepAcquire
  | sleepRelease
  /-- `sleep`: the process becomes SLEEPING, and then calls `sched` -/
  | sleepMark
  | sleepSched
  /-- switched out by `sched` -/
  | asleep
  /-- `sleep`, behind `sched`: the channel is cleared, `release(&ptable.lock)` and
  `acquire(lk)` -/
  | sleepTidy
  | sleepDrop
  | sleepReacquire
  /-- a waiter that has found the condition true uses it and releases the lock -/
  | leave
  /-- a waker changes the condition -/
  | change
  /-- `wakeup`: `acquire(&ptable.lock)`, `wakeup1`, `release(&ptable.lock)` -/
  | wakeAcquire
  | wakeup
  | wakeDrop
  | wakeRelease
  deriving DecidableEq

structure Thread where
  pc : Pc := .outside
  state : ProcState := .runnable
  chan : Chan := .null
  killed : Bool := false

structure State (T C σ : Type) where
  value : σ
  lock : Lock → Option T := fun _ => none
  cpu : C → Option T := fun _ => none
  thread : T → Thread := fun _ => {}

inductive Event (T C σ : Type) where
  /-- the process of this CPU begins as a waiter or a waker -/
  | begin (c : C) (role : Role)
  /-- it takes its next step; a step that stores to the condition stores `v` -/
  | step (c : C) (v : σ)
  | kill (c : C) (target : T)
  /-- the scheduler of this CPU picks a RUNNABLE process -/
  | dispatch (c : C) (t : T)
  /-- it draws a process that no CPU runs, whatever its state -/
  | lottery (c : C) (t : T)
  | yield (c : C)

variable {T C σ : Type}

section
variable [DecidableEq T] [DecidableEq C]

def State.set (s : State T C σ) (t : T) (f : Thread → Thread) : State T C σ :=
  { s with thread := update s.thread t (f (s.thread t)) }

def State.goto (s : State T C σ) (t : T) (pc : Pc) : State T C σ :=
  s.set t fun th => { th with pc := pc }

def acquire (s : State T C σ) (t : T) (l : Lock) : Checked (State T C σ) :=
  match s.lock l with
  | none => .ok { s with lock := update s.lock l (some t) }
  | some u => if u = t then .error (.panic "acquire") else .error .blocked

def release (s : State T C σ) (t : T) (l : Lock) : Checked (State T C σ) :=
  if s.lock l = some t then .ok { s with lock := update s.lock l none }
  else .error (.panic "release")

/-- `wakeup1` for one process. -/
def wake (chan : Chan) (th : Thread) : Thread :=
  if th.state = .sleeping ∧ th.chan = chan then { th with state := .runnable } else th

/-- The checks of `sched`, the switch to the scheduler of this CPU, and the release
of `ptable.lock` there. -/
def sched (s : State T C σ) (c : C) (t : T) : Checked (State T C σ) :=
  if s.lock .ptable ≠ some t then .error (.panic "sched ptable.lock")
  else if s.lock .lk = some t then .error (.panic "sched locks")
  else if (s.thread t).state = .running then .error (.panic "sched running")
  else .ok { s with
    cpu := update s.cpu c none
    lock := update s.lock .ptable none }

/-- The next step of process `t`, which is on CPU `c`. -/
def advance (d : Design σ) (s : State T C σ) (c : C) (t : T) (v : σ) : Checked (State T C σ) :=
  match (s.thread t).pc with
  | .outside | .asleep => .ok s
  | .acquire .waiter => do return (← acquire s t d.guard).goto t .test
  | .acquire .waker => do return (← acquire s t d.guard).goto t .change
  | .test =>
    if d.ready s.value then .ok (s.goto t .leave)
    else if d.guard = .ptable then .ok (s.goto t .sleepMark)
    else .ok (s.goto t .sleepAcquire)
  | .sleepAcquire => do return (← acquire s t .ptable).goto t .sleepRelease
  | .sleepRelease => do return (← release s t d.guard).goto t .sleepMark
  | .sleepMark =>
    .ok (s.set t fun th => { th with pc := .sleepSched, chan := d.chan, state := .sleeping })
  | .sleepSched => do return (← sched s c t).goto t .asleep
  | .sleepTidy =>
    .ok (s.set t fun th =>
      { th with chan := .null, pc := if d.guard = .ptable then .test else .sleepDrop })
  | .sleepDrop => do return (← release s t .ptable).goto t .sleepReacquire
  | .sleepReacquire => do return (← acquire s t d.guard).goto t .test
  | .leave => do
    let s ← release { s with value := v } t d.guard
    return s.goto t .outside
  | .change =>
    .ok (State.goto { s with value := v } t (if d.guard = .ptable then .wakeup else .wakeAcquire))
  | .wakeAcquire => do return (← acquire s t .ptable).goto t .wakeup
  | .wakeup =>
    .ok (State.goto { s with thread := fun u => wake d.chan (s.thread u) } t
      (if d.guard = .ptable then .wakeRelease else .wakeDrop))
  | .wakeDrop => do return (← release s t .ptable).goto t .wakeRelease
  | .wakeRelease => do return (← release s t d.guard).goto t .outside

/-- The lock a process spins on. -/
def wants (d : Design σ) : Pc → Option Lock
  | .acquire _ | .sleepReacquire => some d.guard
  | .sleepAcquire | .wakeAcquire => some .ptable
  | _ => none

def On (s : State T C σ) (c : C) (P : T → Prop) : Prop := ∃ t, s.cpu c = some t ∧ P t

instance [DecidablePred P] : Decidable (On s c P) :=
  inferInstanceAs (Decidable (∃ t ∈ s.cpu c, P t))

def Enabled (d : Design σ) (s : State T C σ) : Event T C σ → Prop
  | .begin c _ => On s c fun t => (s.thread t).pc = .outside
  | .step c _ => On s c fun t => (s.thread t).pc ≠ .outside ∧
      ∀ l ∈ wants d (s.thread t).pc, s.lock l = none ∨ s.lock l = some t
  | .kill c _ => On s c (fun t => (s.thread t).pc = .outside) ∧ s.lock .ptable = none
  | .dispatch c t => s.cpu c = none ∧ (s.thread t).state = .runnable ∧ s.lock .ptable = none
  | .lottery c t => s.cpu c = none ∧ (s.thread t).state ≠ .running ∧ s.lock .ptable = none
  | .yield c => On s c (fun t => s.lock .lk ≠ some t) ∧ s.lock .ptable = none

/-- A process that comes back from `sched` holds `ptable.lock`; `yield` releases it at
once, `sleep` goes on with it. -/
def dispatch (s : State T C σ) (c : C) (t : T) : State T C σ :=
  let s := { s with cpu := update s.cpu c (some t) }
  if (s.thread t).pc = .asleep then
    State.set { s with lock := update s.lock .ptable (some t) } t fun th =>
      { th with state := .running, pc := .sleepTidy }
  else s.set t fun th => { th with state := .running }

def perform (d : Design σ) (s : State T C σ) : Event T C σ → Checked (State T C σ)
  | .begin c role => do
    let t ← deref (s.cpu c)
    return s.goto t (.acquire role)
  | .step c v => do
    let t ← deref (s.cpu c)
    advance d s c t v
  | .kill _ target =>
    .ok (s.set target fun th =>
      { th with
        killed := true
        state := if th.state = .sleeping then .runnable else th.state })
  | .dispatch c t | .lottery c t => .ok (dispatch s c t)
  | .yield c => do
    let t ← deref (s.cpu c)
    return State.set { s with cpu := update s.cpu c none } t fun th =>
      { th with state := .runnable }

end

def system (T C : Type) [DecidableEq T] [DecidableEq C] (d : Design σ) :
    System (State T C σ) (Event T C σ) where
  Init s := ∃ value, s = { value := value }
  Enabled := Enabled d
  perform := perform d

/-- The step is not a scheduler pass by the lottery branch. -/
def NoLottery : Event T C σ → Prop
  | .lottery _ _ => False
  | _ => True

instance : DecidablePred (NoLottery : Event T C σ → Prop) := fun e => by
  cases e <;> unfold NoLottery <;> infer_instance

/-! ## Locks and states -/

/-- The locks a process holds at each point. -/
def Holds (guard : Lock) (l : Lock) : Pc → Prop
  | .outside | .acquire _ | .asleep | .sleepReacquire => False
  | .test | .sleepAcquire | .leave | .change | .wakeAcquire | .wakeRelease => l = guard
  | .sleepRelease | .wakeup | .wakeDrop => l = guard ∨ l = .ptable
  | .sleepMark | .sleepSched | .sleepTidy | .sleepDrop => l = .ptable

/-- The points only a process with a lock other than `ptable.lock` gets to. -/
def Detour : Pc → Prop
  | .sleepAcquire | .sleepRelease | .sleepDrop | .sleepReacquire | .wakeAcquire | .wakeDrop => True
  | _ => False

structure Settled (d : Design σ) (th : Thread) : Prop where
  asleep : th.state = .sleeping → th.chan = d.chan ∧ (th.pc = .sleepSched ∨ th.pc = .asleep)
  sched : th.pc = .sleepSched → th.state = .sleeping
  switched : th.pc = .asleep → th.state = .sleeping ∨ th.state = .runnable
  detour : Detour th.pc → d.guard ≠ .ptable

def Active (th : Thread) : Prop := th.pc ≠ .asleep ∧ (th.state = .running ∨ th.pc = .sleepSched)

structure Inv (d : Design σ) (s : State T C σ) : Prop where
  held : ∀ l t, s.lock l = some t ↔ Holds d.guard l (s.thread t).pc
  active : ∀ c t, s.cpu c = some t → Active (s.thread t)
  single : ∀ c c' t, s.cpu c = some t → s.cpu c' = some t → c = c'
  settled : ∀ t, Settled d (s.thread t)

section
variable {d : Design σ} {s after : State T C σ}

theorem Settled.awake (running : th.state = .running) (up : th.pc ≠ .sleepSched ∧ th.pc ≠ .asleep)
    (detour : Detour th.pc → d.guard ≠ .ptable) : Settled d th := by
  refine ⟨fun asleep => ?_, fun at_ => absurd at_ up.1, fun at_ => absurd at_ up.2, detour⟩
  rw [running] at asleep
  cases asleep

theorem Inv.stays (inv : Inv d s) (here : s.cpu c = some t) (pc : (s.thread t).pc ≠ .sleepSched) :
    (s.thread t).state = .running := by
  obtain ⟨_, running | at_⟩ := inv.active c t here
  · exact running
  · exact absurd at_ pc

theorem Inv.off (inv : Inv d s) (ready : (s.thread t).state = .runnable) (c : C) :
    s.cpu c ≠ some t := by
  intro here
  obtain ⟨_, running | sched⟩ := inv.active c t here
  · rw [ready] at running
    cases running
  · rw [(inv.settled t).sched sched] at ready
    cases ready

theorem Inv.sole (inv : Inv d s) (mine : Holds d.guard l (s.thread t).pc)
    (theirs : Holds d.guard l (s.thread u).pc) : u = t := by
  have first := (inv.held l t).mpr mine
  have second := (inv.held l u).mpr theirs
  rw [first] at second
  exact (Option.some.inj second).symm

theorem Settled.roused (settled : Settled d th) (out : th.pc ≠ .sleepSched) (killed : Bool) :
    Settled d { th with killed := killed, state := .runnable } :=
  ⟨nofun, fun sched => absurd sched out, fun _ => .inr rfl, settled.detour⟩

theorem Inv.wakes (inv : Inv d s) (at_ : (s.thread t).pc = .wakeup) :
    Inv d { s with thread := fun u => wake d.chan (s.thread u) } := by
  have out : ∀ u, (s.thread u).pc ≠ .sleepSched := by
    intro u sched
    have same : u = t := inv.sole (l := .ptable) (by rw [at_]; exact .inr rfl) (by rw [sched]; rfl)
    rw [same, at_] at sched
    cases sched
  have pc : ∀ u, (wake d.chan (s.thread u)).pc = (s.thread u).pc := by
    intro u
    unfold wake
    split <;> rfl
  refine ⟨fun l u => ?_, fun c u here => ?_, inv.single, fun u => ?_⟩
  · simp only [pc]
    exact inv.held l u
  · obtain ⟨up, running | sched⟩ := inv.active c u here
    · have same : wake d.chan (s.thread u) = s.thread u := by simp [wake, running]
      simp only [same]
      exact ⟨up, .inl running⟩
    · exact absurd sched (out u)
  · have settled := inv.settled u
    by_cases woken : (s.thread u).state = .sleeping ∧ (s.thread u).chan = d.chan
    · simp only [wake, if_pos woken]
      exact settled.roused (out u) _
    · simp only [wake, if_neg woken]
      exact settled

/-! ## The next step of a process -/

/-- The point behind each point. -/
def following (guard : Lock) (ready : Bool) : Pc → Pc
  | .outside => .outside
  | .acquire .waiter => .test
  | .acquire .waker => .change
  | .test => if ready then .leave else if guard = .ptable then .sleepMark else .sleepAcquire
  | .sleepAcquire => .sleepRelease
  | .sleepRelease => .sleepMark
  | .sleepMark => .sleepSched
  | .sleepSched => .asleep
  | .asleep => .asleep
  | .sleepTidy => if guard = .ptable then .test else .sleepDrop
  | .sleepDrop => .sleepReacquire
  | .sleepReacquire => .test
  | .leave => .outside
  | .change => if guard = .ptable then .wakeup else .wakeAcquire
  | .wakeAcquire => .wakeup
  | .wakeup => if guard = .ptable then .wakeRelease else .wakeDrop
  | .wakeDrop => .wakeRelease
  | .wakeRelease => .outside

/-- The lock a process gives up. -/
def drops (d : Design σ) : Pc → Option Lock
  | .sleepRelease | .leave | .wakeRelease => some d.guard
  | .sleepSched | .sleepDrop | .wakeDrop => some .ptable
  | _ => none

theorem holds_following (detour : Detour pc → d.guard ≠ .ptable) (ready : Bool) (l : Lock) :
    Holds d.guard l (following d.guard ready pc) ↔
      wants d pc = some l ∨ Holds d.guard l pc ∧ drops d pc ≠ some l := by
  cases d with
  | mk guard chan test =>
  cases pc with
  | acquire role => cases role <;> simp [Holds, following, wants, drops, eq_comm]
  | test => cases ready <;> cases guard <;> simp [Holds, following, wants, drops]
  | sleepRelease | wakeDrop =>
    have other := detour trivial
    cases guard with
    | ptable => exact absurd rfl other
    | lk => cases l <;> simp [Holds, following, wants, drops]
  | _ => cases guard <;> cases l <;> simp [Holds, following, wants, drops]

theorem following_detour {guard : Lock} (detour : Detour pc → guard ≠ .ptable) (ready : Bool)
    (next : Detour (following guard ready pc)) : guard ≠ .ptable := by
  cases pc with
  | acquire role => cases role <;> cases next
  | test | sleepTidy | change | wakeup =>
    rintro rfl
    cases ready <;> exact next
  | sleepAcquire | sleepDrop | wakeAcquire => exact detour trivial
  | _ => cases next

theorem following_up (up : pc ≠ .asleep ∧ pc ≠ .sleepMark ∧ pc ≠ .sleepSched) (guard : Lock)
    (ready : Bool) :
    following guard ready pc ≠ .sleepSched ∧ following guard ready pc ≠ .asleep := by
  cases pc with
  | acquire role => cases role <;> exact ⟨nofun, nofun⟩
  | sleepMark => exact absurd rfl up.2.1
  | sleepSched => exact absurd rfl up.2.2
  | asleep => exact absurd rfl up.1
  | test | sleepTidy | change | wakeup => cases guard <;> cases ready <;> exact ⟨nofun, nofun⟩
  | _ => exact ⟨nofun, nofun⟩

/-- What a step of its own does to a process and to the others. -/
structure Follows (d : Design σ) (s after : State T C σ) (t : T) : Prop where
  others : ∀ u, u ≠ t → after.thread u = s.thread u
  pc : (after.thread t).pc = following d.guard (d.ready s.value) (s.thread t).pc
  state : (s.thread t).pc = .sleepSched → (after.thread t).state = (s.thread t).state

structure Turn [DecidableEq C] (d : Design σ) (s : State T C σ) (c : C) (t : T)
    (after : State T C σ) : Prop extends Follows d s after t where
  lock : ∀ l, after.lock l = if wants d (s.thread t).pc = some l then some t
    else if drops d (s.thread t).pc = some l then none else s.lock l
  cpu : after.cpu = if (s.thread t).pc = .sleepSched then update s.cpu c none else s.cpu
  mark : if (s.thread t).pc = .sleepMark then
      (after.thread t).state = .sleeping ∧ (after.thread t).chan = d.chan
    else (after.thread t).state = (s.thread t).state
  chan : (s.thread t).pc = .sleepSched → (after.thread t).chan = (s.thread t).chan

theorem Inv.change (inv : Inv d s) (t : T) (others : ∀ u, u ≠ t → after.thread u = s.thread u)
    (locks : ∀ l u, u ≠ t → (after.lock l = some u ↔ s.lock l = some u))
    (own : ∀ l, after.lock l = some t ↔ Holds d.guard l (after.thread t).pc)
    (cpus : ∀ c u, u ≠ t → after.cpu c = some u → s.cpu c = some u)
    (active : ∀ c, after.cpu c = some t → Active (after.thread t))
    (single : ∀ c c', after.cpu c = some t → after.cpu c' = some t → c = c')
    (settled : Settled d (after.thread t)) : Inv d after := by
  refine ⟨fun l u => ?_, fun c u here => ?_, fun c c' u first second => ?_, fun u => ?_⟩
  · by_cases same : u = t
    · rw [same]
      exact own l
    · rw [others u same, locks l u same]
      exact inv.held l u
  · by_cases same : u = t
    · rw [same] at here ⊢
      exact active c here
    · rw [others u same]
      exact inv.active c u (cpus c u same here)
  · by_cases same : u = t
    · rw [same] at first second
      exact single c c' first second
    · exact inv.single c c' u (cpus c u same first) (cpus c' u same second)
  · by_cases same : u = t
    · rw [same]
      exact settled
    · rw [others u same]
      exact inv.settled u

theorem Inv.not_sched (inv : Inv d s) (free : s.lock .ptable = none) (t : T) :
    (s.thread t).pc ≠ .sleepSched := by
  intro sched
  have mine : s.lock .ptable = some t := (inv.held _ _).mpr (by rw [sched]; rfl)
  rw [free] at mine
  cases mine

theorem drops_holds (dropped : drops d p = some l) : Holds d.guard l p := by
  cases p with
  | sleepRelease | wakeDrop => cases dropped; simp [Holds]
  | leave | wakeRelease | sleepSched | sleepDrop => cases dropped; rfl
  | _ => cases dropped

theorem wants_spins (detour : Detour p → d.guard ≠ .ptable) (wanted : wants d p = some l) :
    ¬Holds d.guard l p ∧ drops d p = none ∧ p ≠ .sleepMark ∧ p ≠ .sleepSched := by
  cases p with
  | acquire role | sleepReacquire => exact ⟨id, rfl, nofun, nofun⟩
  | sleepAcquire | wakeAcquire =>
    cases wanted
    exact ⟨fun same => detour trivial same.symm, rfl, nofun, nofun⟩
  | _ => cases wanted

section
variable [DecidableEq C]

theorem Inv.vacates (inv : Inv d s) (here : s.cpu c = some t) (c' : C) :
    update s.cpu c none c' ≠ some t := by
  intro there
  by_cases same : c' = c
  · simp [same] at there
  · rw [update_of_ne same] at there
    exact same (inv.single c' c t there here)

theorem vacates_other (there : update s.cpu c none c' = some u) : s.cpu c' = some u := by
  by_cases same : c' = c
  · simp [same] at there
  · rwa [update_of_ne same] at there

theorem Turn.inv (turn : Turn d s c t after) (inv : Inv d s) (here : s.cpu c = some t)
    (free : ∀ l ∈ wants d (s.thread t).pc, s.lock l = none ∨ s.lock l = some t) : Inv d after := by
  have settled := inv.settled t
  have detour := settled.detour
  have up := (inv.active c t here).1
  refine inv.change t turn.others (fun l u other => ?_) (fun l => ?_) (fun c' u _ there => ?_)
    (fun c' there => ?_) (fun c' c'' first second => ?_) ?_
  · rw [turn.lock l]
    split
    · rename_i wanted
      rcases free l wanted with open_ | mine
      · simp [open_, Ne.symm other]
      · simp [mine]
    · split
      · rename_i dropped
        rw [(inv.held l t).mpr (drops_holds dropped)]
        simp [Ne.symm other]
      · exact Iff.rfl
  · rw [turn.lock l, turn.pc, holds_following detour]
    by_cases wanted : wants d (s.thread t).pc = some l
    · simp [wanted]
    · by_cases dropped : drops d (s.thread t).pc = some l
      · simp [wanted, dropped]
      · simpa [wanted, dropped] using inv.held l t
  · rw [turn.cpu] at there
    split at there
    · exact vacates_other there
    · exact there
  · rw [turn.cpu] at there
    split at there
    · exact absurd there (inv.vacates here c')
    · rename_i awake
      have mark := turn.mark
      split at mark
      · rename_i marks
        exact ⟨by rw [turn.pc, marks]; nofun, .inr (by rw [turn.pc, marks]; rfl)⟩
      · rename_i unmarked
        rw [Active, turn.pc, mark]
        exact ⟨(following_up ⟨up, unmarked, awake⟩ _ _).2, .inl (inv.stays here awake)⟩
  · rw [turn.cpu] at first second
    split at first
    · exact absurd first (inv.vacates here c')
    · rename_i awake
      rw [if_neg awake] at second
      exact inv.single c' c'' t first second
  · have mark := turn.mark
    split at mark
    · rename_i marks
      have next : (after.thread t).pc = .sleepSched := by rw [turn.pc, marks]; rfl
      exact ⟨fun _ => ⟨mark.2, .inl next⟩, fun _ => mark.1, by rw [next]; nofun,
        by rw [next]; exact False.elim⟩
    · rename_i unmarked
      by_cases sched : (s.thread t).pc = .sleepSched
      · have sleeping := settled.sched sched
        have next : (after.thread t).pc = .asleep := by rw [turn.pc, sched]; rfl
        exact ⟨fun _ => ⟨(turn.chan sched).trans (settled.asleep sleeping).1, .inr next⟩,
          by rw [next]; nofun, fun _ => .inl (mark.trans sleeping), by rw [next]; exact False.elim⟩
      · refine Settled.awake (mark.trans (inv.stays here sched)) ?_ ?_ <;> rw [turn.pc]
        · exact following_up ⟨up, unmarked, sched⟩ _ _
        · exact following_detour detour _

end

variable [DecidableEq T]

theorem kill_inv (inv : Inv d s) (free : s.lock .ptable = none) (target : T) :
    Inv d (s.set target fun th =>
      { th with
        killed := true
        state := if th.state = .sleeping then .runnable else th.state }) := by
  have out := inv.not_sched free target
  have settled := inv.settled target
  refine inv.change target (fun u other => update_of_ne other _ _) (fun _ _ _ => Iff.rfl)
    (fun l => ?_) (fun _ _ _ => id) (fun c here => ?_) (fun c c' => inv.single c c' target) ?_ <;>
    simp only [State.set, update_self]
  · exact inv.held l target
  · obtain ⟨up, running | sched⟩ := inv.active c target here
    · exact ⟨up, .inl (by simp [running])⟩
    · exact absurd sched out
  · by_cases sleeping : (s.thread target).state = .sleeping
    · simp only [if_pos sleeping]
      exact settled.roused out true
    · simp only [if_neg sleeping]
      exact ⟨settled.asleep, settled.sched, settled.switched, settled.detour⟩

variable [DecidableEq C]

theorem yield_inv (inv : Inv d s) (here : s.cpu c = some t) (free : s.lock .ptable = none) :
    Inv d (State.set { s with cpu := update s.cpu c none } t fun th =>
      { th with state := .runnable }) := by
  refine inv.change t (fun u other => update_of_ne other _ _) (fun _ _ _ => Iff.rfl) (fun l => ?_)
    (fun c' u _ => vacates_other) (fun c' there => absurd there (inv.vacates here c'))
    (fun c' _ there => absurd there (inv.vacates here c')) ?_ <;>
    simp only [State.set, update_self]
  · exact inv.held l t
  · exact (inv.settled t).roused (inv.not_sched free t) _

theorem dispatch_inv (inv : Inv d s) (ready : (s.thread t).state = .runnable)
    (free : s.lock .ptable = none) (c : C) : Inv d (dispatch s c t) := by
  have onto (c' : C) (u : T) (there : update s.cpu c (some t) c' = some u) :
      c' = c ∧ u = t ∨ s.cpu c' = some u := by
    by_cases same : c' = c
    · rw [same, update_self] at there
      exact .inl ⟨same, (Option.some.inj there).symm⟩
    · rw [update_of_ne same] at there
      exact .inr there
  have only (c' : C) (there : update s.cpu c (some t) c' = some t) : c' = c :=
    ((onto c' t there).resolve_right (inv.off ready c')).1
  have cpus (c' : C) (u : T) (other : u ≠ t) (there : update s.cpu c (some t) c' = some u) :
      s.cpu c' = some u := (onto c' u there).resolve_left fun mine => other mine.2
  have single (c' c'' : C) (first : update s.cpu c (some t) c' = some t)
      (second : update s.cpu c (some t) c'' = some t) : c' = c'' :=
    (only c' first).trans (only c'' second).symm
  unfold dispatch
  dsimp only
  split
  · rename_i at_
    refine inv.change t (fun u other => update_of_ne other _ _) (fun l u other => ?_) (fun l => ?_)
      cpus (fun c' there => ?_) single ?_ <;> simp only [State.set, update_self]
    · cases l with
      | lk => simp
      | ptable => simp [free, Ne.symm other]
    · cases l with
      | lk => simpa [Holds, at_] using inv.held .lk t
      | ptable => simp [Holds]
    · exact ⟨nofun, .inl rfl⟩
    · exact Settled.awake rfl ⟨nofun, nofun⟩ nofun
  · rename_i up
    refine inv.change t (fun u other => update_of_ne other _ _) (fun _ _ _ => Iff.rfl) (fun l => ?_)
      cpus (fun c' there => ?_) single ?_ <;> simp only [State.set, update_self]
    · exact inv.held l t
    · exact ⟨up, .inl rfl⟩
    · exact Settled.awake rfl ⟨inv.not_sched free t, up⟩ (inv.settled t).detour

theorem turn_goto {s' : State T C σ} (at_ : (s.thread t).pc = p)
    (next : following d.guard (d.ready s.value) p = pc) (unmarked : p ≠ .sleepMark)
    (thread : s'.thread = s.thread)
    (lock : ∀ l, s'.lock l = if wants d p = some l then some t
      else if drops d p = some l then none else s.lock l)
    (cpu : s'.cpu = if p = .sleepSched then update s.cpu c none else s.cpu) :
    Turn d s c t (s'.goto t pc) := by
  subst at_
  refine ⟨⟨fun u other => ?_, ?_, fun _ => ?_⟩, lock, cpu, ?_, fun _ => ?_⟩ <;>
    simp only [State.goto, State.set, thread]
  · exact update_of_ne other _ _
  · rw [update_self, next]
  · rw [update_self]
  · rw [if_neg unmarked, update_self]
  · rw [update_self]

theorem turn_acquire (inv : Inv d s) (at_ : (s.thread t).pc = p) (wanted : wants d p = some l)
    (next : following d.guard (d.ready s.value) p = pc)
    (free : ∀ l ∈ wants d (s.thread t).pc, s.lock l = none ∨ s.lock l = some t) :
    ∃ after, (do return (← acquire s t l).goto t pc) = Except.ok after ∧ Turn d s c t after := by
  obtain ⟨spins, keeps, unmarked, awake⟩ :=
    wants_spins (by rw [← at_]; exact (inv.settled t).detour) wanted
  have open_ : s.lock l = none := (free l (by rwa [at_])).resolve_right fun mine =>
    spins (by rw [← at_]; exact (inv.held l t).mp mine)
  refine ⟨State.goto { s with lock := update s.lock l (some t) } t pc,
    by rw [acquire, open_]; rfl, turn_goto at_ next unmarked rfl (fun m => ?_) (if_neg awake).symm⟩
  by_cases same : m = l
  · simp [same, wanted]
  · simp [same, wanted, keeps, Ne.symm same]

theorem turn_release (inv : Inv d s) (at_ : (s.thread t).pc = p) (dropped : drops d p = some l)
    (next : following d.guard (d.ready s.value) p = pc) (up : wants d p = none ∧ p ≠ .sleepSched)
    (value : σ) :
    ∃ after, (do return (← release { s with value := value } t l).goto t pc) = Except.ok after ∧
      Turn d s c t after := by
  have mine := (inv.held l t).mpr (by rw [at_]; exact drops_holds dropped)
  refine ⟨State.goto { s with value := value, lock := update s.lock l none } t pc,
    by rw [release, if_pos mine]; rfl,
    turn_goto at_ next (by rintro rfl; cases dropped) rfl (fun m => ?_) (if_neg up.2).symm⟩
  by_cases same : m = l
  · simp [same, up.1, dropped]
  · simp [same, up.1, dropped, Ne.symm same]

theorem turn_set {th : Thread} (at_ : (s.thread t).pc = p)
    (thread : after.thread = update s.thread t th) (rest : after.lock = s.lock ∧ after.cpu = s.cpu)
    (kept : wants d p = none ∧ drops d p = none)
    (next : following d.guard (d.ready s.value) p = th.pc)
    (mark : if p = .sleepMark then th.state = .sleeping ∧ th.chan = d.chan
      else th.state = (s.thread t).state) : Turn d s c t after := by
  subst at_
  have awake : (s.thread t).pc ≠ .sleepSched := by
    intro sched
    rw [sched] at kept
    cases kept.2
  refine ⟨⟨fun u other => ?_, ?_, fun sched => absurd sched awake⟩, fun l => ?_, ?_, ?_,
    fun sched => absurd sched awake⟩
  · rw [thread, update_of_ne other]
  · rw [thread, update_self, next]
  · simp [kept, rest]
  · rw [if_neg awake, rest.2]
  · rwa [thread, update_self]

theorem advance_turns (inv : Inv d s) (here : s.cpu c = some t)
    (free : ∀ l ∈ wants d (s.thread t).pc, s.lock l = none ∨ s.lock l = some t)
    (quiet : (s.thread t).pc ≠ .wakeup) (v : σ) :
    ∃ after, advance d s c t v = .ok after ∧ Turn d s c t after := by
  unfold advance
  cases at_ : (s.thread t).pc with
  | outside =>
    refine ⟨s, rfl, ⟨fun _ _ => rfl, by rw [at_]; rfl, fun _ => rfl⟩, ?_, ?_, ?_, fun _ => rfl⟩ <;>
      simp [at_, wants, drops]
  | asleep => exact absurd at_ (inv.active c t here).1
  | wakeup => exact absurd at_ quiet
  | acquire role =>
    cases role with
    | waiter => exact turn_acquire inv at_ rfl rfl free
    | waker => exact turn_acquire inv at_ rfl rfl free
  | sleepAcquire | sleepReacquire | wakeAcquire => exact turn_acquire inv at_ rfl rfl free
  | sleepRelease | sleepDrop | wakeDrop | wakeRelease =>
    exact turn_release inv at_ rfl rfl ⟨rfl, nofun⟩ s.value
  | leave => exact turn_release inv at_ rfl rfl ⟨rfl, nofun⟩ v
  | test =>
    dsimp only
    split
    · rename_i ready
      exact ⟨_, rfl, turn_set at_ rfl ⟨rfl, rfl⟩ ⟨rfl, rfl⟩ (by simp [following, ready]) rfl⟩
    · rename_i unready
      split
      · rename_i table
        exact ⟨_, rfl,
          turn_set at_ rfl ⟨rfl, rfl⟩ ⟨rfl, rfl⟩ (by simp [following, unready, table]) rfl⟩
      · rename_i other
        exact ⟨_, rfl,
          turn_set at_ rfl ⟨rfl, rfl⟩ ⟨rfl, rfl⟩ (by simp [following, unready, other]) rfl⟩
  | sleepMark => exact ⟨_, rfl, turn_set at_ rfl ⟨rfl, rfl⟩ ⟨rfl, rfl⟩ rfl ⟨rfl, rfl⟩⟩
  | sleepTidy | change => exact ⟨_, rfl, turn_set at_ rfl ⟨rfl, rfl⟩ ⟨rfl, rfl⟩ rfl rfl⟩
  | sleepSched =>
    have mine : s.lock .ptable = some t := (inv.held .ptable t).mpr (by rw [at_]; rfl)
    have only : s.lock .lk ≠ some t := by
      intro other
      have holds := (inv.held .lk t).mp other
      rw [at_] at holds
      cases holds
    have switched : sched s c t = .ok { s with
        cpu := update s.cpu c none
        lock := update s.lock .ptable none } := by
      rw [sched, if_neg (fun lost => lost mine), if_neg only,
        if_neg (by rw [(inv.settled t).sched at_]; nofun)]
    dsimp only
    rw [switched]
    refine ⟨_, rfl, turn_goto at_ rfl nofun rfl (fun l => ?_) rfl⟩
    cases l <;> simp [wants, drops]

theorem advance_inv (inv : Inv d s) (here : s.cpu c = some t)
    (free : ∀ l ∈ wants d (s.thread t).pc, s.lock l = none ∨ s.lock l = some t) (v : σ) :
    ∃ after, advance d s c t v = .ok after ∧ Inv d after := by
  by_cases at_ : (s.thread t).pc = .wakeup
  · have same : (wake d.chan (s.thread t)).pc = .wakeup := by
      simp [wake, inv.stays here (by rw [at_]; nofun), at_]
    unfold advance
    rw [at_]
    refine ⟨_, rfl, Turn.inv (turn_set (p := .wakeup) same rfl ⟨rfl, rfl⟩ ⟨rfl, rfl⟩ rfl rfl)
      (inv.wakes at_) here ?_⟩
    rw [same]
    nofun
  · obtain ⟨after, ran, turn⟩ := advance_turns inv here free at_ v
    exact ⟨after, ran, turn.inv inv here free⟩

theorem step_inv (inv : Inv d s) (enabled : Enabled d s e) (allowed : NoLottery e) :
    ∃ after, perform d s e = .ok after ∧ Inv d after := by
  cases e with
  | begin c role =>
    obtain ⟨t, here, at_⟩ := enabled
    have running := inv.stays here (by simp [at_])
    simp only [perform, here, deref, bind_ok]
    refine ⟨_, rfl, inv.change t (fun u other => update_of_ne other _ _) (fun _ _ _ => Iff.rfl)
      (fun l => ?_) (fun _ _ _ => id) (fun _ _ => ?_) (fun c c' => inv.single c c' t) ?_⟩ <;>
      simp only [State.goto, State.set, update_self]
    · simpa [at_, Holds] using inv.held l t
    · exact ⟨by simp, .inl running⟩
    · exact Settled.awake running (by simp) False.elim
  | step c v =>
    obtain ⟨t, here, _, free⟩ := enabled
    obtain ⟨after, ran, kept⟩ := advance_inv inv here free v
    exact ⟨after, by simp only [perform, here, deref, bind_ok]; exact ran, kept⟩
  | kill c target => exact ⟨_, rfl, kill_inv inv enabled.2 target⟩
  | dispatch c t => exact ⟨_, rfl, dispatch_inv inv enabled.2.1 enabled.2.2 c⟩
  | lottery c t => exact allowed.elim
  | yield c =>
    obtain ⟨⟨t, here, _⟩, free⟩ := enabled
    exact ⟨_, by simp only [perform, here, deref, bind_ok]; rfl, yield_inv inv here free⟩

end

/-! ## No lost wakeup -/

/-- For each process: it has found the condition false, and since then no waker has
called `wakeup` and `kill` has not woken it; a waker has taken the lock since it last
looked at the condition. -/
structure Record (T : Type) where
  waits : T → Bool := fun _ => false
  passed : T → Bool := fun _ => false

section
variable [DecidableEq T] [DecidableEq C]

def note (d : Design σ) (s : State T C σ) (e : Event T C σ) (_ : State T C σ) (r : Record T) :
    Record T :=
  match e with
  | .step c _ =>
    match s.cpu c with
    | none => r
    | some t =>
      match (s.thread t).pc with
      | .test =>
        if d.ready s.value then r
        else ⟨update r.waits t true, update r.passed t false⟩
      | .acquire .waker => { r with passed := fun _ => true }
      | .wakeup => { r with waits := fun _ => false }
      | _ => r
  | .kill _ target =>
    if (s.thread target).state = .sleeping then
      { r with waits := update r.waits target false }
    else r
  | _ => r

end

/-- The processes with what has happened since they looked at the condition. -/
def recorded (T C : Type) [DecidableEq T] [DecidableEq C] (d : Design σ) :
    System (State T C σ × Record T) (Event T C σ) :=
  (system T C d).watch (fun _ => {}) (note d)

def Wakes (s : State T C σ) (c : C) (t : T) : Prop :=
  s.cpu c = some t ∧ (s.thread t).pc = .wakeup

/-- The process is on its way into `sleep`, or asleep. -/
def Dormant (th : Thread) : Prop :=
  match th.pc with
  | .sleepAcquire | .sleepRelease | .sleepMark | .sleepSched => True
  | .asleep => th.state = .sleeping
  | _ => False

/-- A waker has the lock and has still to call `wakeup1`. -/
def Announces : Pc → Prop
  | .change | .wakeAcquire | .wakeup => True
  | _ => False

theorem dormant_congr (pc : th'.pc = th.pc) (up : th.pc ≠ .asleep) : Dormant th' ↔ Dormant th := by
  unfold Dormant
  rw [pc]
  cases at_ : th.pc with
  | asleep => exact absurd at_ up
  | _ => exact Iff.rfl

theorem Settled.dormant {d : Design σ} (settled : Settled d th) (sleeping : th.state = .sleeping) :
    Dormant th := by
  obtain ⟨_, sched | switched⟩ := settled.asleep sleeping
  · simp [Dormant, sched]
  · simp [Dormant, switched, sleeping]

structure Heard (d : Design σ) (s : State T C σ) (r : Record T) : Prop where
  waits : ∀ u, r.waits u = true → Dormant (s.thread u)
  passed : ∀ u, Dormant (s.thread u) → r.passed u = true →
    ∃ w, s.lock d.guard = some w ∧ Announces (s.thread w).pc

section
variable {d : Design σ} {s after : State T C σ}

theorem Inv.found (inv : Inv d s) (at_ : (s.thread t).pc = .wakeup)
    (dormant : Dormant (s.thread u)) :
    (s.thread u).pc = .asleep ∧ (s.thread u).state = .sleeping ∧ (s.thread u).chan = d.chan := by
  have guarded : ∀ l, l = d.guard ∨ l = .ptable → Holds d.guard l (s.thread t).pc := by
    intro l either
    rw [at_]
    exact either
  have apart : ∀ l, l = d.guard ∨ l = .ptable → Holds d.guard l (s.thread u).pc →
      (s.thread u).pc = .wakeup := by
    intro l either theirs
    rw [inv.sole (guarded l either) theirs, at_]
  unfold Dormant at dormant
  cases pc : (s.thread u).pc with
  | asleep =>
    rw [pc] at dormant
    exact ⟨rfl, dormant, ((inv.settled u).asleep dormant).1⟩
  | sleepAcquire | sleepRelease =>
    have same := apart d.guard (.inl rfl) (by rw [pc]; simp [Holds])
    rw [pc] at same
    cases same
  | sleepMark | sleepSched =>
    have same := apart .ptable (.inr rfl) (by rw [pc]; simp [Holds])
    rw [pc] at same
    cases same
  | _ =>
    rw [pc] at dormant
    exact dormant.elim

theorem Heard.calm (heard : Heard d s r) (kept : Inv d after)
    (dormant : ∀ u, Dormant (after.thread u) ↔ Dormant (s.thread u))
    (announces : ∀ w, Announces (s.thread w).pc → Announces (after.thread w).pc) :
    Heard d after r := by
  refine ⟨fun u waits => (dormant u).mpr (heard.waits u waits), fun u sleeps passed => ?_⟩
  obtain ⟨w, _, announced⟩ := heard.passed u ((dormant u).mp sleeps) passed
  have still := announces w announced
  refine ⟨w, (kept.held d.guard w).mpr ?_, still⟩
  cases pc : (after.thread w).pc with
  | change | wakeAcquire => rfl
  | wakeup => exact .inl rfl
  | _ =>
    rw [pc] at still
    exact still.elim

variable [DecidableEq T]

theorem Heard.one (heard : Heard d s r) (t : T) (kept : Inv d after)
    (others : ∀ u, u ≠ t → after.thread u = s.thread u)
    (dormant : Dormant (after.thread t) ↔ Dormant (s.thread t))
    (announces : Announces (s.thread t).pc → Announces (after.thread t).pc) :
    Heard d after r := by
  refine heard.calm kept (fun u => ?_) fun w announced => ?_
  · by_cases same : u = t
    · rw [same]
      exact dormant
    · rw [others u same]
  · by_cases same : w = t
    · rw [same] at announced ⊢
      exact announces announced
    · rwa [others w same]

theorem Heard.follows (heard : Heard d s r) (inv : Inv d s) (kept : Inv d after)
    (follows : Follows d s after t) (up : (s.thread t).pc ≠ .asleep)
    (quiet : (s.thread t).pc ≠ .wakeup ∧ ((s.thread t).pc = .test → d.ready s.value = true)) :
    Heard d after r := by
  have next := follows.pc
  refine heard.one t kept follows.others ?_ ?_
  · unfold Dormant
    rw [next]
    cases at_ : (s.thread t).pc with
    | acquire role => cases role <;> simp [following]
    | test => simp [following, quiet.2 at_]
    | sleepSched =>
      simp [following, follows.state at_, (inv.settled t).sched at_]
    | asleep => exact absurd at_ up
    | sleepTidy | change | wakeup =>
      simp only [following]
      split_ifs <;> simp
    | _ => simp [following]
  · rw [next]
    cases at_ : (s.thread t).pc with
    | change =>
      simp only [following]
      split_ifs <;> exact id
    | wakeAcquire => exact id
    | wakeup => exact absurd at_ quiet.1
    | _ => exact False.elim

theorem Heard.tests (heard : Heard d s r) (inv : Inv d s) (follows : Follows d s after t)
    (at_ : (s.thread t).pc = .test) (unready : d.ready s.value = false) :
    Heard d after ⟨update r.waits t true, update r.passed t false⟩ := by
  have next := follows.pc
  simp only [at_, following, unready] at next
  -- nobody announces a change while the waiter has the lock
  have silent : ∀ w, s.lock d.guard = some w → ¬ Announces (s.thread w).pc := by
    intro w held
    rw [inv.sole (by rw [at_]; rfl) ((inv.held d.guard w).mp held), at_]
    exact id
  refine ⟨fun u waits => ?_, fun u sleeps passed => ?_⟩
  · by_cases same : u = t
    · subst same
      unfold Dormant
      rw [next]
      by_cases table : d.guard = .ptable <;> simp [table]
    · simp only [update_of_ne same] at waits
      rw [follows.others u same]
      exact heard.waits u waits
  · by_cases same : u = t
    · subst same
      simp at passed
    · simp only [update_of_ne same] at passed
      rw [follows.others u same] at sleeps
      obtain ⟨w, held, announced⟩ := heard.passed u sleeps passed
      exact absurd announced (silent w held)

variable [DecidableEq C]

theorem wakeup_rouses (inv : Inv d s) (at_ : (s.thread t).pc = .wakeup)
    (ran : advance d s c t v = .ok after) (u : T) : ¬ Dormant (after.thread u) := by
  simp only [advance, at_, Except.ok.injEq] at ran
  rw [← ran]
  by_cases same : u = t
  · subst same
    simp only [Dormant, State.goto, State.set, update_self]
    split_ifs <;> exact id
  · simp only [State.goto, State.set, update_of_ne same]
    intro dormant
    by_cases woken : (s.thread u).state = .sleeping ∧ (s.thread u).chan = d.chan
    · have before := (inv.settled u).dormant woken.1
      simp [Dormant, wake, woken, (inv.found at_ before).1] at dormant
    · simp only [wake, if_neg woken] at dormant
      exact woken (inv.found at_ dormant).2

theorem Heard.advance (heard : Heard d s r) (inv : Inv d s) (kept : Inv d after)
    (here : s.cpu c = some t)
    (free : ∀ l ∈ wants d (s.thread t).pc, s.lock l = none ∨ s.lock l = some t)
    (ran : advance d s c t v = .ok after) : Heard d after (note d s (.step c v) after r) := by
  have up := (inv.active c t here).1
  have follows (quiet : (s.thread t).pc ≠ .wakeup) : Follows d s after t := by
    obtain ⟨after', ran', turn⟩ := advance_turns inv here free quiet v
    cases ran.symm.trans ran'
    exact turn.toFollows
  unfold note
  simp only [here]
  cases at_ : (s.thread t).pc with
  | test =>
    have follows := follows (by rw [at_]; nofun)
    dsimp only
    by_cases ready : d.ready s.value = true
    · rw [if_pos ready]
      exact heard.follows inv kept follows up ⟨by rw [at_]; nofun, fun _ => ready⟩
    · rw [if_neg ready]
      exact heard.tests inv follows at_ (Bool.not_eq_true _ ▸ ready)
  | wakeup =>
    have awake := wakeup_rouses inv at_ ran
    exact ⟨nofun, fun u dormant => absurd dormant (awake u)⟩
  | acquire role =>
    have follows := follows (by rw [at_]; nofun)
    have same := heard.follows inv kept follows up ⟨by rw [at_]; nofun, by rw [at_]; nofun⟩
    cases role with
    | waiter => exact same
    | waker =>
      have next : (after.thread t).pc = .change := by rw [follows.pc, at_]; rfl
      refine ⟨same.waits, fun u _ _ => ⟨t, (kept.held d.guard t).mpr (by rw [next]; rfl), ?_⟩⟩
      rw [next]
      trivial
  | _ =>
    exact heard.follows inv kept (follows (by rw [at_]; nofun)) up
      ⟨by rw [at_]; nofun, by rw [at_]; nofun⟩

theorem Heard.kill (heard : Heard d s r) (inv : Inv d s) (kept : Inv d after)
    (free : s.lock .ptable = none) (ran : perform d s (.kill c target) = .ok after) :
    Heard d after (note d s (.kill c target) after r) := by
  have whole := (Except.ok.inj ran).symm
  have others : ∀ u, u ≠ target → after.thread u = s.thread u := fun u other => by
    simp [whole, State.set, other]
  have pc : (after.thread target).pc = (s.thread target).pc := by
    simp [whole, State.set]
  unfold note
  dsimp only
  by_cases sleeping : (s.thread target).state = .sleeping
  · rw [if_pos sleeping]
    have switched : (s.thread target).pc = .asleep :=
      ((inv.settled target).asleep sleeping).2.resolve_left (inv.not_sched free target)
    have woken : ¬ Dormant (after.thread target) := by
      have state : (after.thread target).state = .runnable := by
        simp [whole, State.set, sleeping]
      simp [Dormant, pc, switched, state]
    refine ⟨fun u waits => ?_, fun u dormant passed => ?_⟩
    · by_cases same : u = target
      · subst same
        simp at waits
      · simp only [update_of_ne same] at waits
        rw [others u same]
        exact heard.waits u waits
    · have other : u ≠ target := by
        rintro rfl
        exact woken dormant
      rw [others u other] at dormant
      obtain ⟨w, held, announced⟩ := heard.passed u dormant passed
      have lock : after.lock = s.lock := by
        rw [whole]
        rfl
      refine ⟨w, by rw [lock]; exact held, ?_⟩
      by_cases same : w = target
      · rw [same, pc, ← same]
        exact announced
      · rwa [others w same]
  · rw [if_neg sleeping]
    have state : (after.thread target).state = (s.thread target).state := by
      simp [whole, State.set, sleeping]
    exact heard.one target kept others (by simp only [Dormant, pc, state]) (by rw [pc]; exact id)

theorem Heard.dispatch (heard : Heard d s r) (kept : Inv d (dispatch s c t))
    (ready : (s.thread t).state = .runnable) : Heard d (dispatch s c t) r := by
  have others : ∀ u, u ≠ t → (SleepWakeup.dispatch s c t).thread u = s.thread u := by
    intro u other
    unfold SleepWakeup.dispatch
    dsimp only
    split <;> simp [State.set, other]
  by_cases switched : (s.thread t).pc = .asleep
  · have pc : ((SleepWakeup.dispatch s c t).thread t).pc = .sleepTidy := by
      simp [SleepWakeup.dispatch, switched, State.set]
    refine heard.one t kept others ?_ ?_
    · simp [Dormant, pc, switched, ready]
    · rw [switched]
      exact False.elim
  · have pc : ((SleepWakeup.dispatch s c t).thread t).pc = (s.thread t).pc := by
      simp [SleepWakeup.dispatch, switched, State.set]
    exact heard.one t kept others (dormant_congr pc switched) (by rw [pc]; exact id)

theorem step_heard (heard : Heard d s r) (inv : Inv d s) (kept : Inv d after)
    (enabled : Enabled d s e) (allowed : NoLottery e) (ran : perform d s e = .ok after) :
    Heard d after (note d s e after r) := by
  cases e with
  | begin c role =>
    obtain ⟨t, here, at_⟩ := enabled
    simp only [perform, here, deref, bind_ok, pure_eq_ok, Except.ok.injEq] at ran
    have pc : (after.thread t).pc = .acquire role := by simp [← ran, State.goto, State.set]
    refine heard.one t kept (fun u other => ?_) ?_ ?_
    · simp [← ran, State.goto, State.set, other]
    · simp [Dormant, pc, at_]
    · rw [at_]
      exact False.elim
  | step c v =>
    obtain ⟨t, here, _, free⟩ := enabled
    simp only [perform, here, deref, bind_ok] at ran
    exact heard.advance inv kept here free ran
  | kill c target => exact heard.kill inv kept enabled.2 ran
  | dispatch c t =>
    cases ran
    exact heard.dispatch kept enabled.2.1
  | lottery c t => exact allowed.elim
  | yield c =>
    obtain ⟨⟨t, here, _⟩, _⟩ := enabled
    simp only [perform, here, deref, bind_ok, pure_eq_ok, Except.ok.injEq] at ran
    have pc : (after.thread t).pc = (s.thread t).pc := by simp [← ran, State.set]
    refine heard.one t kept (fun u other => ?_) (dormant_congr pc (inv.active c t here).1)
      (by rw [pc]; exact id)
    simp [← ran, State.set, other]

end

theorem start_inv (d : Design σ) (value : σ) : Inv d ({ value := value } : State T C σ) := by
  refine ⟨fun l t => ?_, nofun, nofun, fun t => ⟨nofun, nofun, nofun, nofun⟩⟩
  simp [Holds]

theorem run_inv [DecidableEq T] [DecidableEq C] {d : Design σ} {s : State T C σ × Record T}
    (run : (recorded T C d).Run (fun _ e => NoLottery e) s) : Inv d s.1 ∧ Heard d s.1 s.2 := by
  apply run.invariant
  · rintro s ⟨⟨value, begins⟩, nothing⟩
    rw [begins, nothing]
    exact ⟨start_inv d value, nofun, nofun⟩
  · rintro s e after ⟨inv, heard⟩ enabled allowed ran
    obtain ⟨stepped, noted⟩ := System.watch_perform ran
    obtain ⟨after', stepped', kept⟩ := step_inv inv enabled allowed
    have same : after' = after.1 := Except.ok.inj (stepped'.symm.trans stepped)
    rw [same] at kept
    rw [noted]
    exact ⟨kept, step_heard heard inv kept enabled allowed stepped⟩

/-- In every interleaving without a lottery draw, on any number of CPUs, for a lock of its
own and for `ptable.lock`: the first `wakeup` after a waiter has found the condition false finds
it SLEEPING on the channel and makes it RUNNABLE, unless `kill` has woken it; while
the locks are free no waiter sleeps that looked at the condition before a waker took
the lock; and no step panics. -/
theorem no_lost_wakeup {T C σ : Type} [DecidableEq T] [DecidableEq C] {d : Design σ}
    {s : State T C σ × Record T} (run : (recorded T C d).Run (fun _ e => NoLottery e) s) :
    (∀ c t, Wakes s.1 c t → s.1.lock d.guard = some t ∧ ∀ u, s.2.waits u = true →
      (s.1.thread u).state = .sleeping ∧ (s.1.thread u).chan = d.chan ∧
        ∀ v after, perform d s.1 (.step c v) = .ok after → (after.thread u).state = .runnable) ∧
    (s.1.lock d.guard = none → s.1.lock .ptable = none → ∀ u, (s.1.thread u).state = .sleeping →
      (s.1.thread u).chan = d.chan → s.2.passed u = false) ∧
    ∀ e, Enabled d s.1 e → ∃ after, perform d s.1 e = .ok after := by
  obtain ⟨inv, heard⟩ := run_inv run
  refine ⟨fun c t wakes => ?_, fun free _ u sleeping _ => ?_, fun e enabled => ?_⟩
  · obtain ⟨here, at_⟩ := wakes
    refine ⟨(inv.held d.guard t).mpr (by rw [at_]; exact .inl rfl), fun u waits => ?_⟩
    obtain ⟨switched, sleeping, chan⟩ := inv.found at_ (heard.waits u waits)
    refine ⟨sleeping, chan, fun v after ran => ?_⟩
    have other : u ≠ t := by
      rintro rfl
      rw [at_] at switched
      cases switched
    simp only [perform, here, deref, bind_ok, advance, at_, Except.ok.injEq] at ran
    simp [← ran, State.goto, State.set, other, wake, sleeping, chan]
  · cases passed : s.2.passed u with
    | false => rfl
    | true =>
      obtain ⟨w, held, _⟩ := heard.passed u ((inv.settled u).dormant sleeping) passed
      rw [free] at held
      cases held
  · by_cases allowed : NoLottery e
    · obtain ⟨after, ran, _⟩ := step_inv inv enabled allowed
      exact ⟨after, ran⟩
    · cases e with
      | lottery c t => exact ⟨_, rfl⟩
      | _ => exact absurd trivial allowed

instance [DecidableEq T] [DecidableEq C] {d : Design σ} {s : State T C σ × Record T} :
    Decidable ((recorded T C d).Enabled s e) := by
  change Decidable (Enabled d s.1 e)
  unfold Enabled
  split <;> infer_instance

/-- Two threads, with a lock of their own and a condition that is false. -/
def apart : State (Fin 2) (Fin 2) Bool × Record (Fin 2) := ({ value := false }, {})

theorem apart_init : (recorded (Fin 2) (Fin 2) ⟨.lk, .addr 1, id⟩).Init apart := ⟨⟨false, rfl⟩, rfl⟩

/-- The waiter on CPU 0 finds the condition false and goes to sleep; the waker on CPU 1 gets
as far as `wakeup1`. Between these the events `between` happen. -/
def sleepsAndWakes (between : List (Event (Fin 2) (Fin 2) Bool)) :
    List (Event (Fin 2) (Fin 2) Bool) :=
  [.dispatch 0 0, .dispatch 1 1, .begin 0 .waiter, .begin 1 .waker, .step 0 false, .step 0 false,
    .step 0 false, .step 0 false, .step 1 false, .step 0 false, .step 1 true, .step 0 false] ++
    between ++ [.step 1 false]

theorem no_lost_wakeup_one : ∃ (d : Design Bool) (s : State (Fin 2) (Fin 2) Bool × Record (Fin 2)),
    (recorded (Fin 2) (Fin 2) d).Run (fun _ e => NoLottery e) s ∧ Wakes s.1 1 1 ∧
      s.2.waits 0 = true ∧ (s.1.thread 0).state = .sleeping ∧ (s.1.thread 0).chan = d.chan := by
  obtain ⟨s, run, runs, at_, waits⟩ := System.exists_run (fun _ e => NoLottery e) apart_init
    (sleepsAndWakes [])
    (fun s => s.1.cpu 1 = some 1 ∧ (s.1.thread 1).pc = .wakeup ∧ s.2.waits 0 = true)
    (by decide +kernel)
  have found := ((no_lost_wakeup run).1 1 1 ⟨runs, at_⟩).2 0 waits
  exact ⟨_, s, run, ⟨runs, at_⟩, waits, found.1, found.2.1⟩

/-! ## The process table -/

/-- The slots of the process table are the threads. -/
def Agrees (t : PTable) (s : State ProcId C σ) : Prop :=
  ∀ p, (s.thread p).state = (t.proc p).state ∧ (s.thread p).chan = (t.proc p).chan ∧
    (s.thread p).killed = (t.proc p).killed

section
variable {t t' : PTable} {s : State ProcId C σ}

theorem Agrees.set (agrees : Agrees t s) (slots : t'.proc = update t.proc p slot)
    (same : (f (s.thread p)).state = slot.state ∧ (f (s.thread p)).chan = slot.chan ∧
      (f (s.thread p)).killed = slot.killed) : Agrees t' (s.set p f) := by
  intro q
  by_cases here : q = p
  · subst here
    simpa [State.set, slots] using same
  · simpa [State.set, slots, here] using agrees q

theorem Agrees.scheduler [DecidableEq C] (agrees : Agrees t s)
    (ran : ProcTable.scheduler t = .ok (some p, t')) (c : C) : Agrees t' (dispatch s c p) := by
  have slots := (SlotEffects.scheduler_slots ran).2
  obtain ⟨-, chan, killed⟩ := agrees p
  have same : ∀ locks pc, Agrees t' (State.set
      { s with cpu := update s.cpu c (some p), lock := locks } p fun th =>
        { th with state := .running, pc := pc }) := fun locks pc =>
    Agrees.set (s := { s with cpu := update s.cpu c (some p), lock := locks }) agrees slots
      ⟨rfl, chan, killed⟩
  unfold dispatch
  dsimp only
  split
  · exact same _ .sleepTidy
  · exact same s.lock (s.thread p).pc

theorem Agrees.picks [DecidableEq C] {m : Dispatch.Machine n} {d : Design σ}
    (agrees : Agrees m.table s) (inv : Dispatch.Inv m) (drawn : branch m.table ≠ .lottery)
    (ran : ProcTable.scheduler m.table = .ok (some p, t')) (idle : s.cpu c = none)
    (free : s.lock .ptable = none) : Enabled d s (.dispatch c p) :=
  ⟨idle, (agrees p).1.trans (SlotEffects.chosen_runnable inv drawn ran), free⟩

theorem Agrees.sleep (agrees : Agrees t s) (p : ProcId) (chan : Chan) (pc : Pc) :
    Agrees (ProcTable.sleep t p chan) (s.set p fun th =>
      { th with pc := pc, chan := chan, state := .sleeping }) :=
  agrees.set rfl ⟨rfl, rfl, (agrees p).2.2⟩

theorem Agrees.sleepResume (agrees : Agrees t s) (p : ProcId) (pc : Pc) :
    Agrees (ProcTable.sleepResume t p) (s.set p fun th => { th with chan := .null, pc := pc }) :=
  agrees.set rfl ⟨(agrees p).1, rfl, (agrees p).2.2⟩

theorem Agrees.wakeup1 (agrees : Agrees t s) (ran : ProcTable.wakeup1 t chan = .ok t') :
    Agrees t' { s with thread := fun u => wake chan (s.thread u) } := by
  intro p
  obtain ⟨state, same, killed⟩ := agrees p
  rw [(SlotEffects.wakeup1_slots ran).1 p]
  dsimp only [wake, SlotEffects.wake]
  rw [state, same]
  split
  · exact ⟨rfl, rfl, killed⟩
  · exact ⟨state, same, killed⟩

theorem Agrees.kill (agrees : Agrees t s) (ran : ProcTable.kill t pid = .ok (0, t')) :
    ∃ p, (t.proc p).pid = pid ∧ Agrees t' (s.set p fun th =>
      { th with killed := true, state := if th.state = .sleeping then .runnable else th.state }) := by
  obtain ⟨fails, -⟩ | ⟨p, -, named, slots, -⟩ := SlotEffects.kill_slots ran
  · cases fails
  · obtain ⟨state, chan, -⟩ := agrees p
    exact ⟨p, named, agrees.set slots ⟨by simp only [SlotEffects.struck, state], chan, rfl⟩⟩

theorem Agrees.yield (agrees : Agrees t s) (ran : ProcTable.yield t p = .ok t') :
    Agrees t' (s.set p fun th => { th with state := .runnable }) :=
  agrees.set (SlotEffects.makeReady_slots ran).1 ⟨rfl, (agrees p).2⟩

end

/-- A waiter of priority 0 that the lottery has drawn is still counted in queue 0 when it
sleeps. The next draw runs it, and the first `wakeup` finds it RUNNING. -/
theorem lottery_runs_sleeper :
    (∃ (d : Design Bool) (s : State (Fin 2) (Fin 2) Bool × Record (Fin 2)),
      (recorded (Fin 2) (Fin 2) d).Run (fun _ _ => True) s ∧ Wakes s.1 1 1 ∧ s.2.waits 0 = true ∧
        (s.1.thread 0).state = .running) ∧
    ∃ m : Dispatch.Machine 2, (Dispatch.system 2).Run (fun _ _ => True) m ∧
      Dispatch.Enabled m (.scheduler 1) ∧ (m.table.proc 0).state = .sleeping ∧
      ∃ t, ProcTable.scheduler m.table = .ok (some 0, t) ∧ (t.proc 0).state = .running := by
  constructor
  · obtain ⟨s, run, runs, at_, waits, running⟩ := System.exists_run (fun _ _ => True) apart_init
      (sleepsAndWakes [.lottery 0 0, .step 0 false, .step 0 false])
      (fun s => s.1.cpu 1 = some 1 ∧ (s.1.thread 1).pc = .wakeup ∧ s.2.waits 0 = true ∧
        (s.1.thread 0).state = .running) (by decide +kernel)
    exact ⟨_, s, run, ⟨runs, at_⟩, waits, running⟩
  · obtain ⟨m, run, enabled, sleeping, ⟨_, t⟩, ran, rfl⟩ :=
      System.exists_run (fun _ _ => True) (Dispatch.boot_init 2)
      [.scheduler 0, .enter 0, .changePrio 0 1, .yield 0, .leave 0, .scheduler 0, .enter 0,
        .sleep 0 (.addr 1), .leave 0]
      (fun m => Dispatch.Enabled m (.scheduler 1) ∧ (m.table.proc 0).state = .sleeping ∧
        ∃ r, ProcTable.scheduler m.table = .ok r ∧ r.1 = some 0) (by decide +kernel)
    refine ⟨m, run, enabled, sleeping, t, ran, ?_⟩
    rw [(SlotEffects.scheduler_slots ran).2, update_self]
    rfl

end Xv6.SleepWakeup
