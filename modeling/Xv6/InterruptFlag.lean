import Mathlib.Data.Fintype.Sum
import Mathlib.Tactic.DeriveFintype
import Xv6.Param
import Xv6.StepSystem
import Xv6.Tally

/-! The interrupt flag under nested spinlocks. `pushcli` and `popcli` count on the
CPU, and the flag to go back to is kept on the CPU too, although it belongs to the
kernel thread: `sched` carries it over a context switch by hand, a new thread takes
over what the scheduler left, and the scheduler turns interrupts on itself at the
head of its loop. The machine has any number of CPUs, locks and threads; acquiring
and releasing are two steps each, so other CPUs run while one spins. -/
namespace Xv6.InterruptFlag
open CheckedC StepSystem Tally
open Function (update update_of_ne update_self)

/-- `ptable.lock` and any other spinlocks. -/
inductive Lk (X : Type) where
  | ptable
  | other (lock : X)
  deriving DecidableEq, Fintype

structure Spinlock (n : Nat) where
  locked : Bool := false
  cpu : Option (Fin n) := none
  deriving DecidableEq

/-- Where the code of a CPU stands inside `acquire` or `release`: `pushcli` is done
and the lock is not yet taken, or the lock is free and `popcli` is not yet done. -/
inductive Phase (X : Type) where
  | between
  | spinning (lk : Lk X)
  | unlocked
  deriving DecidableEq

/-- Where the scheduler of a CPU stands, or will stand when a thread switches back
to it: before `sti`, before `acquire`, before the choice, before `release`. -/
inductive Loop where
  | head
  | enabled
  | choosing
  | closing
  deriving DecidableEq

/-- What a CPU has: the two fields of `struct cpu`, the flag FL_IF of its eflags,
whether its code is inside an interrupt handler, and the thread it runs, which is
none for the scheduler. -/
structure Core (X T : Type) where
  ncli : Int := 0
  intena : Bool := false
  flag : Bool := false
  handling : Bool := false
  phase : Phase X := .between
  loop : Loop := .head
  runs : Option T := none

/-- A thread that is on no CPU starts in `forkret` or continues in `sched`, whose
local variable is `intena`. -/
inductive Context where
  | start
  | switched (intena handling : Bool)
  deriving DecidableEq

structure Machine (n : Nat) (X T : Type) where
  core : Fin n → Core X T
  lock : Lk X → Spinlock n
  context : T → Context

inductive Event (n : Nat) (X T : Type) where
  | sti (c : Fin n)
  | acquire (c : Fin n) (lk : Lk X)
  | take (c : Fin n)
  | release (c : Fin n) (lk : Lk X)
  | popcli (c : Fin n)
  | dispatch (c : Fin n) (t : T)
  | sched (c : Fin n)
  | interrupt (c : Fin n)
  | iret (c : Fin n)

variable {n : Nat} {X T : Type}

def Spinlock.HeldBy (lk : Spinlock n) (c : Fin n) : Prop := lk.locked = true ∧ lk.cpu = some c

instance {lk : Spinlock n} : Decidable (lk.HeldBy c) := inferInstanceAs (Decidable (_ ∧ _))

def pushcli (core : Core X T) : Core X T :=
  { core with
    flag := false
    intena := if core.ncli = 0 then core.flag else core.intena
    ncli := core.ncli + 1 }

def popcli (core : Core X T) : Checked (Core X T) := do
  if core.flag then throw (.panic "popcli - interruptible")
  if core.ncli - 1 < 0 then throw (.panic "popcli")
  return { core with ncli := core.ncli - 1, flag := core.ncli - 1 = 0 && core.intena }

def holding (core : Core X T) (c : Fin n) (lk : Spinlock n) : Checked (Bool × Core X T) := do
  let core ← popcli (pushcli core)
  return (lk.HeldBy c, core)

def acquire (core : Core X T) (c : Fin n) (name : Lk X) (lk : Spinlock n) :
    Checked (Core X T) := do
  let (own, core) ← holding (pushcli core) c lk
  if own then throw (.panic "acquire")
  return { core with phase := .spinning name }

def release (core : Core X T) (c : Fin n) (lk : Spinlock n) : Checked (Core X T) := do
  let (own, core) ← holding core c lk
  if !own then throw (.panic "release")
  return { core with phase := .unlocked }

/-- `sched` up to `swtch`, with the value of its local variable. It begins with
`myproc`, and `mycpu` has a check of its own. -/
def sched (core : Core X T) (c : Fin n) (lk : Spinlock n) : Checked (Bool × Core X T) := do
  let core ← popcli (pushcli core)
  let (own, core) ← holding core c lk
  if !own then throw (.panic "sched ptable.lock")
  if core.flag then throw (.panic "mycpu called with interrupts enabled\n")
  if core.ncli ≠ 1 then throw (.panic "sched locks")
  if core.flag then throw (.panic "sched interruptible")
  return (core.intena, core)

/-- `swtch` to a thread, up to the end of its `sched` or to the start of `forkret`. -/
def resume (core : Core X T) (t : T) : Context → Core X T
  | .start => { core with runs := some t, loop := .closing }
  | .switched intena handling =>
    { core with intena := intena, handling := handling, runs := some t, loop := .closing }

/-! ## The functions on one CPU -/

section
variable {core : Core X T} (masked : core.flag = false) (nested : 0 < core.ncli)
include masked nested

theorem popcli_ok : popcli core = .ok { core with
      ncli := core.ncli - 1, flag := core.ncli - 1 = 0 && core.intena } := by
  have low : ¬ core.ncli - 1 < 0 := by omega
  simp [popcli, masked, low]

theorem popcli_pushcli : popcli (pushcli core) = .ok core := by
  have some : core.ncli ≠ 0 := by omega
  rw [popcli_ok rfl (by simp only [pushcli]; omega)]
  simp only [pushcli, some, if_false]
  cases core
  simp_all

theorem holding_nested
    (c : Fin n) (lk : Spinlock n) : holding core c lk = .ok (decide (lk.HeldBy c), core) := by
  rw [holding, popcli_pushcli masked nested]
  rfl

end

theorem acquire_eq {core : Core X T} (nonneg : 0 ≤ core.ncli) (c : Fin n) (name : Lk X)
    (lk : Spinlock n) : acquire core c name lk =
      if lk.HeldBy c then .error (.panic "acquire")
      else .ok { pushcli core with phase := .spinning name } := by
  rw [acquire, holding_nested rfl (by simp only [pushcli]; omega)]
  by_cases own : lk.HeldBy c
  · simp [own]
    rfl
  · simp [own]

theorem release_eq {core : Core X T} (masked : core.flag = false) (nested : 0 < core.ncli)
    {lk : Spinlock n} (own : lk.HeldBy c) :
    release core c lk = .ok { core with phase := .unlocked } := by
  rw [release, holding_nested masked nested]
  simp [own]

theorem sched_eq {core : Core X T} (masked : core.flag = false) (one : core.ncli = 1)
    {lk : Spinlock n} (own : lk.HeldBy c) : sched core c lk = .ok (core.intena, core) := by
  have nested : 0 < core.ncli := by omega
  rw [sched, popcli_pushcli masked nested, bind_ok, holding_nested masked nested]
  simp [own, one, masked]

/-! ## The invariant of one CPU -/

/-- The scheduler's own code moves on in its loop, and no other code does. -/
def Core.goto (core : Core X T) (place : Loop) : Core X T :=
  if core.runs = none ∧ core.handling = false then { core with loop := place } else core

/-- Steps of nesting that are not locks held. -/
def Phase.pending : Phase X → Int
  | .between => 0
  | .spinning _ => 1
  | .unlocked => 1

/-- The scheduler's own code at each place of its loop. It has no lock at the head,
turns interrupts on before it acquires, and has `ptable.lock` alone from then on; the
flag it will go back to is on until a thread has switched back. -/
def Core.AtLoop (core : Core X T) (held : Int) (owns : Prop) : Prop :=
  match core.loop with
  | .head => held = 0 ∧ core.phase = .between
  | .enabled => held = 0 ∧ (core.phase = .between ∧ core.flag = true ∨
      core.phase = .spinning .ptable ∧ core.intena = true)
  | .choosing => core.intena = true ∧ (core.phase = .between ∧ held = 1 ∧ owns ∨
      core.phase = .unlocked ∧ held = 0)
  | .closing => core.phase = .between ∧ held = 1 ∧ owns ∨ core.phase = .unlocked ∧ held = 0

/-- What holds of one CPU: `held` is the number of its locks, `owns` that it has
`ptable.lock`, `before` the record of the thread it runs. -/
structure Core.Ok (core : Core X T) (held : Int) (owns : Prop) (before : Bool) : Prop where
  depth : core.ncli = held + core.phase.pending
  masked : 0 < core.ncli → core.flag = false
  handled : core.handling = true → core.flag = false ∧ (0 < core.ncli → core.intena = false)
  saved : core.runs ≠ none ∨ core.handling = true → 0 < core.ncli → core.intena = before
  loop : core.runs ≠ none → core.loop = .closing
  quiet : core.runs = none → core.handling = true → core.loop = .head ∨ core.loop = .enabled
  own : core.runs = none → core.handling = false → core.AtLoop held owns

section
variable {core : Core X T} {locks : Int} {owns : Prop} {before : Bool}

section
variable (ok : core.Ok locks owns before)
include ok

theorem Core.Ok.sti (mine : core.runs = none)
    (outside : core.handling = false) (head : core.loop = .head) :
    { core with flag := true, loop := .enabled }.Ok locks owns before := by
  obtain ⟨none, idle⟩ : locks = 0 ∧ core.phase = .between := by
    have here := ok.own mine outside
    simpa only [Core.AtLoop, head] using here
  have depth : core.ncli = 0 := by rw [ok.depth, none, idle]; rfl
  refine ⟨ok.depth, fun nested => ?_, fun inside => ?_, ?_, fun other => absurd mine other,
    fun _ _ => .inr rfl, fun _ _ => ⟨none, .inl ⟨idle, rfl⟩⟩⟩
  · exact absurd depth (ne_of_gt nested)
  · rw [outside] at inside
    cases inside
  · intro _ nested
    exact absurd depth (ne_of_gt nested)

theorem Core.Ok.acquire (counted : 0 ≤ locks) (idle : core.phase = .between)
    (place : core.runs = none → core.handling = true ∨ core.loop = .enabled ∧ name = .ptable) :
    { pushcli core with phase := .spinning name }.Ok locks owns
      (if locks = 0 then core.flag else before) := by
  have depth : core.ncli = locks := by rw [ok.depth, idle, Phase.pending, add_zero]
  refine ⟨by simp only [pushcli, depth]; rfl, fun _ => rfl, fun inside => ⟨rfl, fun _ => ?_⟩,
    fun whose nested => ?_, ok.loop, ok.quiet, fun mine outside => ?_⟩
  · obtain ⟨off, noted⟩ := ok.handled inside
    simp only [pushcli]
    split
    · exact off
    · exact noted (by omega)
  · by_cases first : locks = 0
    · simp [pushcli, depth, first]
    · simp only [pushcli, depth, first, if_false]
      exact ok.saved whose (by omega)
  · rcases place mine with inside | ⟨enabled, rfl⟩
    · exact absurd (inside.symm.trans outside) (by simp)
    · have here := ok.own mine outside
      simp only [Core.AtLoop, enabled, idle] at here
      have on : core.flag = true := by
        rcases here.2 with here | here
        · exact here.2
        · cases here.1
      simp [Core.AtLoop, pushcli, enabled, depth, here.1, on]

theorem Core.Ok.take (spins : core.phase = .spinning name) (taken : name = .ptable → owns') :
    (({ core with phase := .between } : Core X T).goto .choosing).Ok (locks + 1) owns' before := by
  have depth : core.ncli = locks + 1 := by rw [ok.depth, spins, Phase.pending]
  unfold Core.goto
  split
  · rename_i mine
    obtain ⟨mine, outside⟩ := mine
    have here := ok.own mine outside
    unfold Core.AtLoop at here
    have enabled : locks = 0 ∧ name = .ptable ∧ core.intena = true := by
      cases place : core.loop <;> simp_all
    refine ⟨by simp [depth, Phase.pending], ok.masked, ok.handled, ok.saved,
      fun other => absurd mine other, fun _ inside => ?_, fun _ _ => ?_⟩
    · exact absurd (inside.symm.trans outside) (by simp)
    · exact ⟨enabled.2.2, .inl ⟨rfl, by omega, taken enabled.2.1⟩⟩
  · rename_i other
    refine ⟨by simp [depth, Phase.pending], ok.masked, ok.handled, ok.saved, ok.loop, ok.quiet,
      fun mine outside => absurd ⟨mine, outside⟩ other⟩

theorem Core.Ok.release (idle : core.phase = .between)
    (place : core.runs = none → core.handling = true ∨
      (core.loop = .choosing ∨ core.loop = .closing)) :
    ({ core with phase := .unlocked } : Core X T).Ok (locks - 1) owns' before := by
  have depth : core.ncli = locks := by rw [ok.depth, idle, Phase.pending, add_zero]
  refine ⟨by simp [depth, Phase.pending], ok.masked, ok.handled, ok.saved, ok.loop, ok.quiet,
    fun mine outside => ?_⟩
  have here := ok.own mine outside
  rcases place mine with inside | choosing | closing
  · exact absurd (inside.symm.trans outside) (by simp)
  · simp only [Core.AtLoop, choosing, idle, reduceCtorEq, false_and, or_false] at here ⊢
    exact ⟨here.1, .inr ⟨trivial, by omega⟩⟩
  · simp only [Core.AtLoop, closing, idle, reduceCtorEq, false_and, or_false] at here ⊢
    exact .inr ⟨trivial, by omega⟩

theorem Core.Ok.popcli (counted : 0 ≤ locks) (unlocked : core.phase = .unlocked) :
    (({ core with
      ncli := core.ncli - 1, flag := core.ncli - 1 = 0 && core.intena, phase := .between } :
      Core X T).goto .head).Ok locks owns before := by
  have depth : core.ncli = locks + 1 := by rw [ok.depth, unlocked, Phase.pending]
  unfold Core.goto
  split
  · rename_i mine
    obtain ⟨mine, outside⟩ := mine
    have here := ok.own mine outside
    unfold Core.AtLoop at here
    have none : locks = 0 := by
      cases place : core.loop <;> simp_all
    refine ⟨by simp [depth, Phase.pending], fun nested => ?_, fun inside => ?_, fun _ nested => ?_,
      fun other => absurd mine other, fun _ inside => ?_, fun _ _ => ⟨none, rfl⟩⟩
    · simp only at nested
      omega
    · exact absurd (inside.symm.trans outside) (by simp)
    · simp only at nested
      omega
    · exact absurd (inside.symm.trans outside) (by simp)
  · rename_i other
    refine ⟨by simp [depth, Phase.pending], fun nested => ?_, fun inside => ?_,
      fun whose nested => ok.saved whose ?_, ok.loop, ok.quiet,
      fun mine outside => absurd ⟨mine, outside⟩ other⟩
    · simp only at nested
      simp [show core.ncli - 1 ≠ 0 by omega]
    · have off := (ok.handled inside).2 (by omega)
      exact ⟨by simp [off], fun _ => off⟩
    · omega

theorem Core.Ok.interrupt (on : core.flag = true) :
    { core with flag := false, handling := true }.Ok locks owns before := by
  have none : ¬ 0 < core.ncli := fun nested => by simp [ok.masked nested] at on
  have outside : core.handling = false := by
    by_contra inside
    simp [(ok.handled (by simpa using inside)).1] at on
  refine ⟨ok.depth, fun _ => rfl, fun _ => ⟨rfl, fun nested => absurd nested none⟩,
    fun _ nested => absurd nested none, ok.loop, fun mine _ => ?_, nofun⟩
  have here := ok.own mine outside
  have depth := ok.depth
  unfold Core.AtLoop at here
  cases place : core.loop with
  | head => exact .inl rfl
  | enabled => exact .inr rfl
  | choosing =>
    rw [place] at here
    rcases here.2 with ⟨idle, one, _⟩ | ⟨idle, zero⟩ <;>
      (simp only [idle, Phase.pending] at depth; omega)
  | closing =>
    rw [place] at here
    rcases here with ⟨idle, one, _⟩ | ⟨idle, zero⟩ <;>
      (simp only [idle, Phase.pending] at depth; omega)

theorem Core.Ok.iret (inside : core.handling = true)
    (idle : core.phase = .between) (none : locks = 0) :
    { core with flag := true, handling := false }.Ok locks owns before := by
  have depth : core.ncli = 0 := by rw [ok.depth, idle, none]; rfl
  refine ⟨ok.depth, fun nested => ?_, nofun, fun _ nested => ?_, ok.loop, nofun,
    fun mine _ => ?_⟩
  · exact absurd depth (ne_of_gt nested)
  · exact absurd depth (ne_of_gt nested)
  · rcases ok.quiet mine inside with head | enabled
    · simp [Core.AtLoop, head, none, idle]
    · simp [Core.AtLoop, enabled, none, idle]

theorem Core.Ok.resume {after : Bool} (mine : core.runs = none)
    (outside : core.handling = false) (idle : core.phase = .between)
    (choosing : core.loop = .choosing)
    (left : match context with
      | .start => after = true
      | .switched intena handling => intena = after ∧ (handling = true → intena = false)) :
    (resume core t context).Ok locks owns after := by
  have here := ok.own mine outside
  simp only [Core.AtLoop, choosing, idle, reduceCtorEq, false_and, or_false] at here
  obtain ⟨on, -, one, own⟩ := here
  have nested : 0 < core.ncli := by
    rw [ok.depth, idle, one, Phase.pending]
    decide
  cases context with
  | start =>
    exact ⟨ok.depth, ok.masked, ok.handled, fun _ _ => on.trans left.symm, fun _ => rfl,
      nofun, nofun⟩
  | switched intena handling =>
    exact ⟨ok.depth, ok.masked, fun inside => ⟨ok.masked nested, fun _ => left.2 inside⟩,
      fun _ _ => left.1, fun _ => rfl, nofun, nofun⟩

theorem Core.Ok.sched (other : core.runs ≠ none)
    (idle : core.phase = .between) (one : locks = 1) (own : owns) :
    ({ core with runs := none, handling := false } : Core X T).Ok locks owns after := by
  refine ⟨ok.depth, ok.masked, nofun, fun whose => ?_, fun other => absurd rfl other, nofun,
    fun _ _ => ?_⟩
  · exact absurd whose (by simp)
  · simp [Core.AtLoop, ok.loop other, idle, one, own]

end

end

/-! ## The machine -/

def Machine.setCore (s : Machine n X T) (c : Fin n) (core : Core X T) : Machine n X T :=
  { s with core := update s.core c core }

/-- A kernel thread: that of a process, or the scheduler of a CPU. -/
inductive Thread (n : Nat) (T : Type) where
  | process (t : T)
  | scheduler (c : Fin n)
  deriving DecidableEq

def Machine.current (s : Machine n X T) (c : Fin n) : Thread n T :=
  match (s.core c).runs with
  | some t => .process t
  | none => .scheduler c

/-- What the code does where. A thread, and an interrupt handler, acquires any lock
and releases any lock it has; the scheduler's own code keeps to its loop. A thread
calls `sched` with `ptable.lock` and no other. An interrupt comes whenever the flag
is on, and its handler returns with no lock. -/
def Enabled (s : Machine n X T) : Event n X T → Prop
  | .sti c => (s.core c).runs = none ∧ (s.core c).handling = false ∧
      (s.core c).phase = .between ∧ (s.core c).loop = .head
  | .acquire c name => (s.core c).phase = .between ∧ ((s.core c).runs = none →
      (s.core c).handling = true ∨ (s.core c).loop = .enabled ∧ name = .ptable)
  | .take c =>
    match (s.core c).phase with
    | .spinning name => (s.lock name).locked = false
    | _ => False
  | .release c name => (s.core c).phase = .between ∧ (s.lock name).HeldBy c ∧
      ((s.core c).runs = none → (s.core c).handling = true ∨
        ((s.core c).loop = .choosing ∨ (s.core c).loop = .closing) ∧ name = .ptable)
  | .popcli c => (s.core c).phase = .unlocked
  | .dispatch c t => (s.core c).runs = none ∧ (s.core c).handling = false ∧
      (s.core c).phase = .between ∧ (s.core c).loop = .choosing ∧
      ∀ other, (s.core other).runs ≠ some t
  | .sched c => (s.core c).runs ≠ none ∧ (s.core c).phase = .between ∧
      (s.lock .ptable).HeldBy c ∧ ∀ x, ¬ (s.lock (.other x)).HeldBy c
  | .interrupt c => (s.core c).flag = true
  | .iret c => (s.core c).handling = true ∧ (s.core c).phase = .between ∧
      ∀ name, ¬ (s.lock name).HeldBy c

/-- Every CPU is about to enter `scheduler`, interrupts off. -/
def boot (n : Nat) (X T : Type) : Machine n X T where
  core _ := {}
  lock _ := {}
  context _ := .start

section
variable [DecidableEq X]

def Machine.setLock (s : Machine n X T) (name : Lk X) (lk : Spinlock n) : Machine n X T :=
  { s with lock := update s.lock name lk }

variable [DecidableEq T]

def perform (s : Machine n X T) : Event n X T → Checked (Machine n X T)
  | .sti c => return s.setCore c { s.core c with flag := true, loop := .enabled }
  | .acquire c name => do
    let core ← acquire (s.core c) c name (s.lock name)
    return s.setCore c core
  | .take c =>
    match (s.core c).phase with
    | .spinning name =>
      return (s.setLock name ⟨true, some c⟩).setCore c
        ({ s.core c with phase := .between }.goto .choosing)
    | _ => .error .blocked
  | .release c name => do
    let core ← release (s.core c) c (s.lock name)
    return (s.setLock name ⟨false, none⟩).setCore c core
  | .popcli c => do
    let core ← popcli (s.core c)
    return s.setCore c ({ core with phase := .between }.goto .head)
  | .dispatch c t => return s.setCore c (resume (s.core c) t (s.context t))
  | .sched c => do
    let t ← deref (s.core c).runs
    let (intena, core) ← sched (s.core c) c (s.lock .ptable)
    return { s.setCore c { core with runs := none, handling := false } with
      context := update s.context t (.switched intena core.handling) }
  | .interrupt c => return s.setCore c { s.core c with flag := false, handling := true }
  | .iret c => return s.setCore c { s.core c with flag := true, handling := false }

def system (n : Nat) (X T : Type) [DecidableEq X] [DecidableEq T] :
    System (Machine n X T) (Event n X T) where
  Init s := s = boot n X T
  Enabled := Enabled
  perform := perform

end

/-! ## Locks held, and the flag before the first -/

variable [Fintype X]

def held (s : Machine n X T) (c : Fin n) : Int :=
  tally (fun lk : Spinlock n => if lk.HeldBy c then 1 else 0) s.lock

section
variable [DecidableEq T]

/-- The record of the flag each thread had before it acquired a first lock. A new
thread finds `ptable.lock` taken; its record starts with interrupts on. -/
def note (s : Machine n X T) (e : Event n X T) (_ : Machine n X T) (before : Thread n T → Bool) :
    Thread n T → Bool :=
  match e with
  | .acquire c _ =>
    if held s c = 0 then update before (s.current c) (s.core c).flag else before
  | _ => before

end

def watched (n : Nat) (X T : Type) [DecidableEq X] [DecidableEq T] [Fintype X] :
    System (Machine n X T × (Thread n T → Bool)) (Event n X T) :=
  (system n X T).watch (fun _ _ => true) note

/-! ## The invariant -/

structure Inv (s : Machine n X T) (before : Thread n T → Bool) : Prop where
  core : ∀ c, (s.core c).Ok (held s c) ((s.lock .ptable).HeldBy c) (before (s.current c))
  single : ∀ t c d, (s.core c).runs = some t → (s.core d).runs = some t → c = d
  away : ∀ t, (∀ c, (s.core c).runs ≠ some t) →
    match s.context t with
    | .start => before (.process t) = true
    | .switched intena handling =>
      intena = before (.process t) ∧ (handling = true → intena = false)

theorem held_nonneg (s : Machine n X T) (c : Fin n) : 0 ≤ held s c :=
  tally_nonneg fun name => by split <;> omega

theorem one_le_held {s : Machine n X T} (own : (s.lock name).HeldBy c) : 1 ≤ held s c := by
  have most : (fun lk : Spinlock n => if lk.HeldBy c then (1 : Int) else 0) (s.lock name) ≤
      held s c := le_tally (fun name => by split <;> omega) name
  simpa only [if_pos own] using most

section
variable [DecidableEq X]

theorem held_setLock (s : Machine n X T) (name : Lk X) (lk : Spinlock n) (d : Fin n) :
    held (s.setLock name lk) d = held s d - (if (s.lock name).HeldBy d then 1 else 0) +
      (if lk.HeldBy d then 1 else 0) :=
  tally_update _ s.lock name lk

theorem held_eq_one {s : Machine n X T} (own : (s.lock .ptable).HeldBy c)
    (alone : ∀ x, ¬ (s.lock (.other x)).HeldBy c) : held s c = 1 := by
  have none : held (s.setLock .ptable {}) c = 0 := by
    refine tally_eq_zero fun name => if_neg ?_
    cases name with
    | ptable => exact fun ⟨locked, _⟩ => by simp [Machine.setLock] at locked
    | other x => simpa [Machine.setLock] using alone x
  rw [held_setLock, if_pos own, if_neg (by simp [Spinlock.HeldBy])] at none
  omega

theorem held_elsewhere {s : Machine n X T} {lk : Spinlock n} (old : ¬ (s.lock name).HeldBy d)
    (new : ¬ lk.HeldBy d) : held (s.setLock name lk) d = held s d ∧
      (((s.setLock name lk).lock .ptable).HeldBy d ↔ (s.lock .ptable).HeldBy d) := by
  refine ⟨?_, ?_⟩
  · rw [held_setLock, if_neg old, if_neg new]
    omega
  · by_cases same : Lk.ptable = name
    · subst same
      simpa only [Machine.setLock, update_self] using iff_of_false new old
    · simp only [Machine.setLock, update_of_ne same]

theorem held_take {s : Machine n X T} (free : (s.lock name).locked = false) (c : Fin n) :
    held (s.setLock name ⟨true, some c⟩) c = held s c + 1 ∧
    ∀ d, d ≠ c → held (s.setLock name ⟨true, some c⟩) d = held s d ∧
      (((s.setLock name ⟨true, some c⟩).lock .ptable).HeldBy d ↔ (s.lock .ptable).HeldBy d) := by
  have nobody (d : Fin n) : ¬ (s.lock name).HeldBy d := fun own => by simp [own.1] at free
  refine ⟨?_, fun d apart => held_elsewhere (nobody d) fun own => apart (by simpa using own.2.symm)⟩
  rw [held_setLock, if_neg (nobody c), if_pos ⟨rfl, rfl⟩]
  omega

theorem held_release {s : Machine n X T} (own : (s.lock name).HeldBy c) :
    held (s.setLock name ⟨false, none⟩) c = held s c - 1 ∧
    ∀ d, d ≠ c → held (s.setLock name ⟨false, none⟩) d = held s d ∧
      (((s.setLock name ⟨false, none⟩).lock .ptable).HeldBy d ↔ (s.lock .ptable).HeldBy d) := by
  have free (d : Fin n) : ¬ (⟨false, none⟩ : Spinlock n).HeldBy d := fun own => nomatch own.1
  refine ⟨?_, fun d apart => held_elsewhere (fun mine => ?_) (free d)⟩
  · rw [held_setLock, if_pos own, if_neg (free c)]
    omega
  · exact apart (Option.some.inj (own.2.symm.trans mine.2)).symm

end

/-! ## One step of the machine -/

theorem Inv.current_ne {s : Machine n X T} {before : Thread n T → Bool} (inv : Inv s before)
    (apart : d ≠ c) : s.current d ≠ s.current c := by
  intro same
  unfold Machine.current at same
  split at same
  · rename_i t first
    split at same
    · rename_i t' second
      cases same
      exact apart (inv.single t d c first second)
    · cases same
  · split at same
    · cases same
    · cases same
      exact apart rfl

theorem Inv.replace {s after : Machine n X T} {before before' : Thread n T → Bool}
    {core : Core X T} (inv : Inv s before) (c : Fin n)
    (cores : after.core = update s.core c core)
    (locks : ∀ d, d ≠ c → held after d = held s d ∧
      ((after.lock .ptable).HeldBy d ↔ (s.lock .ptable).HeldBy d))
    (records : ∀ d, d ≠ c → before' (s.current d) = before (s.current d))
    (here : core.Ok (held after c) ((after.lock .ptable).HeldBy c) (before' (after.current c)))
    (single : ∀ t d, d ≠ c → core.runs = some t → (s.core d).runs ≠ some t)
    (away : ∀ t, core.runs ≠ some t → (∀ d, d ≠ c → (s.core d).runs ≠ some t) →
      match after.context t with
      | .start => before' (.process t) = true
      | .switched intena handling =>
        intena = before' (.process t) ∧ (handling = true → intena = false)) :
    Inv after before' := by
  have mine : after.core c = core := by rw [cores, update_self]
  have same (d : Fin n) (apart : d ≠ c) : after.core d = s.core d := by
    rw [cores, update_of_ne apart]
  refine ⟨fun d => ?_, fun t d d' first second => ?_, fun t gone => away t ?_ fun d apart => ?_⟩
  · by_cases apart : d = c
    · subst apart
      rw [mine]
      exact here
    · have current : after.current d = s.current d := by
        rw [Machine.current, Machine.current, same d apart]
      rw [current, same d apart, (locks d apart).1, propext (locks d apart).2, records d apart]
      exact inv.core d
  · by_cases one : d = c
    · rw [one, mine] at first
      by_cases two : d' = c
      · rw [one, two]
      · rw [same d' two] at second
        exact absurd second (single t d' two first)
    · rw [same d one] at first
      by_cases two : d' = c
      · rw [two, mine] at second
        exact absurd first (single t d one second)
      · rw [same d' two] at second
        exact inv.single t d d' first second
  · rw [← mine]
    exact gone c
  · rw [← same d apart]
    exact gone d

theorem Inv.keep {s after : Machine n X T} {before before' : Thread n T → Bool}
    {core : Core X T} (inv : Inv s before) (c : Fin n)
    (cores : after.core = update s.core c core) (runs : core.runs = (s.core c).runs)
    (contexts : after.context = s.context)
    (locks : ∀ d, d ≠ c → held after d = held s d ∧
      ((after.lock .ptable).HeldBy d ↔ (s.lock .ptable).HeldBy d))
    (records : ∀ thread, thread ≠ s.current c → before' thread = before thread)
    (here : core.Ok (held after c) ((after.lock .ptable).HeldBy c) (before' (s.current c))) :
    Inv after before' := by
  have current : after.current c = s.current c := by
    rw [Machine.current, Machine.current, cores, update_self, runs]
  refine inv.replace c cores locks (fun d apart => records _ (inv.current_ne apart))
    (by rwa [current]) (fun t d apart mine there => ?_) fun t other gone => ?_
  · exact apart (inv.single t d c there (runs ▸ mine))
  · have kept : before' (.process t) = before (.process t) := by
      refine records _ fun mine => ?_
      unfold Machine.current at mine
      split at mine
      · rename_i found
        cases mine
        exact other (runs.trans found)
      · cases mine
    rw [contexts, kept]
    refine inv.away t fun d => ?_
    by_cases apart : d = c
    · rw [apart, ← runs]
      exact other
    · exact gone d apart

theorem Inv.move {s : Machine n X T} {before : Thread n T → Bool} {core : Core X T}
    (inv : Inv s before) (runs : core.runs = (s.core c).runs)
    (here : core.Ok (held s c) ((s.lock .ptable).HeldBy c) (before (s.current c))) :
    Inv (s.setCore c core) before :=
  inv.keep c rfl runs rfl (fun _ _ => ⟨rfl, Iff.rfl⟩) (fun _ _ => rfl) here

theorem Inv.dispatch {s : Machine n X T} {before : Thread n T → Bool} (inv : Inv s before)
    (enabled : Enabled s (.dispatch c t)) :
    Inv (s.setCore c (resume (s.core c) t (s.context t))) before := by
  obtain ⟨mine, outside, idle, choosing, nowhere⟩ := enabled
  have runs : (resume (s.core c) t (s.context t)).runs = some t := by
    unfold resume
    split <;> rfl
  refine inv.replace c rfl (fun _ _ => ⟨rfl, Iff.rfl⟩) (fun _ _ => rfl) ?_
    (fun t' d _ here => ?_) fun t' _ gone => ?_
  · rw [Machine.current, show (s.setCore c _).core c = _ from update_self _ _ _, runs]
    exact (inv.core c).resume mine outside idle choosing (inv.away t nowhere)
  · rw [runs] at here
    cases here
    exact nowhere d
  · refine inv.away t' fun d running => ?_
    by_cases apart : d = c
    · rw [apart, mine] at running
      cases running
    · exact gone d apart running

theorem inv_boot : Inv (boot n X T) fun _ => true := by
  have none (c : Fin n) : held (boot n X T) c = 0 :=
    tally_eq_zero fun name => if_neg fun own => nomatch own.1
  refine ⟨fun c => ?_, nofun, fun t _ => rfl⟩
  rw [none]
  exact ⟨rfl, nofun, nofun, nofun, fun other => absurd rfl other, nofun, fun _ _ => ⟨rfl, rfl⟩⟩

section
variable [DecidableEq T]

theorem Inv.sched {s : Machine n X T} {before : Thread n T → Bool} (inv : Inv s before)
    (runs : (s.core c).runs = some t) (idle : (s.core c).phase = .between) (one : held s c = 1)
    (own : (s.lock .ptable).HeldBy c) :
    Inv { s.setCore c { s.core c with runs := none, handling := false } with
      context := update s.context t
        (.switched (s.core c).intena (s.core c).handling) } before := by
  have ok := inv.core c
  have other : (s.core c).runs ≠ none := by rw [runs]; nofun
  have depth : (s.core c).ncli = 1 := by rw [ok.depth, idle, one]; rfl
  have current : s.current c = .process t := by rw [Machine.current, runs]
  refine inv.replace c rfl (fun _ _ => ⟨rfl, Iff.rfl⟩) (fun _ _ => rfl)
    (ok.sched other idle one own) (by simp) fun t' _ gone => ?_
  by_cases mine : t' = t
  · subst mine
    simp only [update_self, ← current]
    exact ⟨ok.saved (.inl other) (by omega), fun inside => (ok.handled inside).2 (by omega)⟩
  · simp only [update_of_ne mine]
    refine inv.away t' fun d running => ?_
    by_cases apart : d = c
    · rw [apart, runs] at running
      cases running
      exact mine rfl
    · exact gone d apart running

theorem note_acquire (s after : Machine n X T) (before : Thread n T → Bool) (c : Fin n)
    (name : Lk X) :
    note s (.acquire c name) after before (s.current c) =
        (if held s c = 0 then (s.core c).flag else before (s.current c)) ∧
      ∀ thread, thread ≠ s.current c →
        note s (.acquire c name) after before thread = before thread := by
  unfold note
  by_cases first : held s c = 0
  · simp only [first, if_true]
    exact ⟨update_self _ _ _, fun thread other => update_of_ne other _ _⟩
  · simp only [first, if_false, implies_true, and_self]

end

variable [DecidableEq X] [DecidableEq T]

theorem step_inv {s : Machine n X T} {before : Thread n T → Bool} (inv : Inv s before)
    (enabled : Enabled s e) :
    (∃ after, perform s e = .ok after ∧ Inv after (note s e after before)) ∨
    ∃ c name, e = .acquire c name ∧ (s.lock name).HeldBy c ∧
      perform s e = .error (.panic "acquire") := by
  cases e with
  | sti c =>
    obtain ⟨mine, outside, idle, head⟩ := enabled
    exact .inl ⟨_, rfl, inv.move rfl ((inv.core c).sti mine outside head)⟩
  | acquire c name =>
    have ok := inv.core c
    have counted := held_nonneg s c
    have depth : (s.core c).ncli = held s c := by
      rw [ok.depth, enabled.1, Phase.pending, add_zero]
    have nonneg : 0 ≤ (s.core c).ncli := by omega
    have ran := acquire_eq nonneg c name (s.lock name)
    by_cases own : (s.lock name).HeldBy c
    · refine .inr ⟨c, name, rfl, own, ?_⟩
      rw [perform, ran, if_pos own]
      rfl
    · rw [if_neg own] at ran
      refine .inl ⟨s.setCore c { pushcli (s.core c) with phase := .spinning name }, ?_, ?_⟩
      · rw [perform, ran]
        rfl
      · obtain ⟨mine, others⟩ := note_acquire s
          (s.setCore c { pushcli (s.core c) with phase := .spinning name }) before c name
        refine inv.keep c rfl rfl rfl (fun _ _ => ⟨rfl, Iff.rfl⟩) others ?_
        rw [mine]
        exact ok.acquire counted enabled.1 enabled.2
  | take c =>
    have spinning : ∃ name, (s.core c).phase = .spinning name ∧ (s.lock name).locked = false := by
      cases phase : (s.core c).phase with
      | spinning name => exact ⟨name, rfl, by simpa only [Enabled, phase] using enabled⟩
      | between => simp only [Enabled, phase] at enabled
      | unlocked => simp only [Enabled, phase] at enabled
    obtain ⟨name, spins, free⟩ := spinning
    obtain ⟨mine, others⟩ := held_take free c
    refine .inl ⟨(s.setLock name ⟨true, some c⟩).setCore c
        (({ s.core c with phase := .between } : Core X T).goto .choosing), ?_,
      inv.keep c rfl ?_ rfl others (fun _ _ => rfl) ?_⟩
    · simp only [perform, spins]
      rfl
    · unfold Core.goto
      split <;> rfl
    · rw [show held ((s.setLock name ⟨true, some c⟩).setCore c
        (({ s.core c with phase := .between } : Core X T).goto .choosing)) c =
        held s c + 1 from mine]
      refine (inv.core c).take spins ?_
      rintro rfl
      simp [Machine.setCore, Machine.setLock, Spinlock.HeldBy]
  | release c name =>
    obtain ⟨idle, own, place⟩ := enabled
    have ok := inv.core c
    have some := one_le_held own
    have nested : 0 < (s.core c).ncli := by
      rw [ok.depth, idle, Phase.pending]
      omega
    obtain ⟨mine, others⟩ := held_release own
    refine .inl ⟨(s.setLock name ⟨false, none⟩).setCore c { s.core c with phase := .unlocked },
      ?_, inv.keep c rfl rfl rfl others (fun _ _ => rfl) ?_⟩
    · rw [perform, release_eq (ok.masked nested) nested own]
      rfl
    · rw [show held ((s.setLock name ⟨false, none⟩).setCore c
        { s.core c with phase := .unlocked }) c = held s c - 1 from mine]
      exact ok.release idle fun none => (place none).imp id And.left
  | popcli c =>
    have ok := inv.core c
    have unlocked : (s.core c).phase = .unlocked := enabled
    have counted := held_nonneg s c
    have nested : 0 < (s.core c).ncli := by
      rw [ok.depth, unlocked, Phase.pending]
      omega
    refine .inl ⟨s.setCore c (({ s.core c with
        ncli := (s.core c).ncli - 1, flag := (s.core c).ncli - 1 = 0 && (s.core c).intena,
        phase := .between } : Core X T).goto .head), ?_,
      inv.move ?_ (ok.popcli counted unlocked)⟩
    · rw [perform, popcli_ok (ok.masked nested) nested]
      rfl
    · unfold Core.goto
      split <;> rfl
  | dispatch c t => exact .inl ⟨_, rfl, inv.dispatch enabled⟩
  | sched c =>
    obtain ⟨other, idle, own, alone⟩ := enabled
    obtain ⟨t, runs⟩ := Option.ne_none_iff_exists'.mp other
    have ok := inv.core c
    have one := held_eq_one own alone
    have depth : (s.core c).ncli = 1 := by rw [ok.depth, idle, one]; rfl
    refine .inl ⟨_, ?_, inv.sched runs idle one own⟩
    rw [perform, runs, sched_eq (ok.masked (by omega)) depth own]
    rfl
  | interrupt c =>
    exact .inl ⟨_, rfl, inv.move rfl ((inv.core c).interrupt enabled)⟩
  | iret c =>
    obtain ⟨inside, idle, nothing⟩ := enabled
    have none : held s c = 0 := tally_eq_zero fun name => if_neg (nothing name)
    exact .inl ⟨_, rfl, inv.move rfl ((inv.core c).iret inside idle none)⟩

/-! ## Every run -/

theorem run_inv (run : (watched n X T).Run (fun _ _ => True) s) : Inv s.1 s.2 := by
  induction run with
  | start init =>
    obtain ⟨booted, fresh⟩ := init
    rw [show _ = boot n X T from booted, fresh]
    exact inv_boot
  | step _ enabled _ ran inv =>
    obtain ⟨stepped, noted⟩ := System.watch_perform ran
    rcases step_inv inv enabled with ⟨after, done, kept⟩ | ⟨_, _, _, _, failed⟩
    · cases stepped.symm.trans done
      rw [noted]
      exact kept
    · cases stepped.symm.trans failed

theorem popcli_restores {s after : Machine n X T} {before : Thread n T → Bool}
    (inv : Inv s before) (enabled : Enabled s (.popcli c))
    (ran : perform s (.popcli c) = .ok after) (last : held after c = 0)
    (whose : (s.core c).runs ≠ none ∨ (s.core c).handling = true) :
    (after.core c).flag = before (s.current c) := by
  have ok := inv.core c
  have unlocked : (s.core c).phase = .unlocked := enabled
  have counted := held_nonneg s c
  have depth : (s.core c).ncli = held s c + 1 := by rw [ok.depth, unlocked, Phase.pending]
  have nested : 0 < (s.core c).ncli := by omega
  rw [perform, popcli_ok (ok.masked nested) nested] at ran
  cases ran
  have none : held s c = 0 := last
  have flag (core : Core X T) (place : Loop) : (core.goto place).flag = core.flag := by
    unfold Core.goto
    split <;> rfl
  simp only [Machine.setCore, update_self, flag]
  rw [ok.saved whose nested, depth, none]
  simp

/-- Along every run: on a CPU that is not inside `acquire` or `release`, `ncli` is
the number of spinlocks it holds; interrupts are off while it is positive; the only
panic is that of acquiring a lock one has; a process that has released its last lock
has the flag it had before its first, on whichever CPU. The scheduler of a CPU always
acquires with interrupts on. -/
theorem interrupt_discipline (run : (watched n X T).Run (fun _ _ => True) s) :
    (∀ c, (s.1.core c).phase = .between → (s.1.core c).ncli = held s.1 c) ∧
    (∀ c, 0 < (s.1.core c).ncli → (s.1.core c).flag = false) ∧
    (∀ e, Enabled s.1 e → (∃ after, perform s.1 e = .ok after) ∨
      ∃ c name, e = .acquire c name ∧ (s.1.lock name).HeldBy c ∧
        perform s.1 e = .error (.panic "acquire")) ∧
    (∀ c t after, (s.1.core c).runs = some t → Enabled s.1 (.popcli c) →
      perform s.1 (.popcli c) = .ok after → held after c = 0 →
      (after.core c).flag = s.2 (.process t)) ∧
    (∀ c name, (s.1.core c).runs = none → (s.1.core c).handling = false →
      Enabled s.1 (.acquire c name) → (s.1.core c).flag = true) := by
  have inv := run_inv run
  refine ⟨fun c idle => ?_, fun c => (inv.core c).masked, fun e enabled => ?_,
    fun c t after runs enabled ran last => ?_, fun c name mine outside enabled => ?_⟩
  · rw [(inv.core c).depth, idle, Phase.pending, add_zero]
  · exact (step_inv inv enabled).imp (fun ⟨after, ran, _⟩ => ⟨after, ran⟩) id
  · have current : s.1.current c = .process t := by rw [Machine.current, runs]
    rw [popcli_restores inv enabled ran last (.inl (by rw [runs]; nofun)), current]
  · obtain ⟨idle, place⟩ := enabled
    have enabled : (s.1.core c).loop = .enabled := by
      rcases place mine with inside | here
      · rw [outside] at inside
        cases inside
      · exact here.1
    have here := (inv.core c).own mine outside
    simp only [Core.AtLoop, enabled, idle, reduceCtorEq, false_and, or_false, true_and] at here
    exact here.2

instance (s : Machine n X T) (e : Event n X T) : Decidable (Enabled s e) := by
  unfold Enabled
  split <;> first | infer_instance | (split <;> infer_instance)

instance (s : Machine n X T × (Thread n T → Bool)) (e : Event n X T) :
    Decidable ((watched n X T).Enabled s e) := inferInstanceAs (Decidable (Enabled s.1 e))

/-- A new thread is dispatched and releases the lock in `forkret`. -/
def forkretEvents : List (Event 1 Empty Unit) :=
  [.sti 0, .acquire 0 .ptable, .take 0, .dispatch 0 (), .release 0 .ptable]

theorem interrupt_discipline_forkret :
    ∃ s after, (watched 1 Empty Unit).Run (fun _ _ => True) s ∧ (s.1.core 0).runs = some () ∧
      perform s.1 (.popcli 0) = .ok after ∧ (after.core 0).flag = s.2 (.process ()) := by
  obtain ⟨s, run, runs, enabled, after, ran, none⟩ := System.exists_run (m := watched 1 Empty Unit)
    (s := (boot 1 Empty Unit, fun _ => true)) (fun _ _ => True) ⟨rfl, rfl⟩ forkretEvents
    (fun s => (s.1.core 0).runs = some () ∧ Enabled s.1 (.popcli 0) ∧
      ∃ after, perform s.1 (.popcli 0) = .ok after ∧ held after 0 = 0)
    (by decide +kernel)
  exact ⟨s, after, run, runs, ran,
    (interrupt_discipline run).2.2.2.1 0 () after runs enabled ran none⟩

/-- The new thread is interrupted and yields from the handler back to the scheduler,
which releases the lock. -/
def yieldFromHandler : List (Event 1 Empty Unit) :=
  forkretEvents ++ [.popcli 0, .interrupt 0, .acquire 0 .ptable, .take 0, .sched 0,
    .release 0 .ptable]

/-- The scheduler acquired `ptable.lock` with interrupts on and is left with
interrupts off: `intena` is that of the thread which switched back to it. -/
theorem scheduler_flag_not_restored :
    ∃ s after, (watched 1 Empty Unit).Run (fun _ _ => True) s ∧ (s.1.core 0).runs = none ∧
      (s.1.core 0).handling = false ∧ s.2 (.scheduler 0) = true ∧ Enabled s.1 (.popcli 0) ∧
      perform s.1 (.popcli 0) = .ok after ∧ held after 0 = 0 ∧ (after.core 0).flag = false := by
  obtain ⟨s, run, mine, outside, on, enabled, after, left⟩ :=
    System.exists_run (m := watched 1 Empty Unit) (s := (boot 1 Empty Unit, fun _ => true))
      (fun _ _ => True) ⟨rfl, rfl⟩ yieldFromHandler
      (fun s => (s.1.core 0).runs = none ∧ (s.1.core 0).handling = false ∧
        s.2 (.scheduler 0) = true ∧ Enabled s.1 (.popcli 0) ∧
        ∃ after, perform s.1 (.popcli 0) = .ok after ∧ held after 0 = 0 ∧
          (after.core 0).flag = false)
      (by decide +kernel)
  exact ⟨s, after, run, mine, outside, on, enabled, left⟩

end Xv6.InterruptFlag
