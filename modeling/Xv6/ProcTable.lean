import Mathlib.Data.List.FinRange
import Xv6.Param
import Xv6.CheckedC
import Xv6.ArrayQueue

/-! The process table of `proc.c`: the slots, the four ready queues with their
counters, and the functions that run inside one `ptable.lock` critical section.
Each function is a checked state transformer. A queue subscript outside
`0..NPROC-1`, or a priority outside `0..NUMFILAS-1` used as one, is a fault, as
is following a null slot. -/
namespace Xv6.ProcTable
open CheckedC ArrayQueue Function

def PRIO : Int := 1
def INTERV : Int := 10
def oneToTwo : Int := 200
def twoToThree : Int := 150
def threeToFour : Int := 100

/-- A `struct proc *` into `ptable.proc`. -/
abbrev ProcId := Fin NPROC

inductive ProcState where
  | unused | embryo | sleeping | runnable | running | zombie
  deriving DecidableEq, Repr

/-- A sleep channel: null, the address of a table slot (`wait` sleeps on the
caller itself), or any other kernel address. -/
inductive Chan where
  | null
  | proc (p : ProcId)
  | addr (a : Nat)
  deriving DecidableEq, Repr

structure Proc where
  state : ProcState := .unused
  pid : Int := 0
  parent : Option ProcId := none
  chan : Chan := .null
  killed : Bool := false
  ctime : Int := 0
  stime : Int := 0
  retime : Int := 0
  rutime : Int := 0
  bstime : Int := 0
  clock : Int := 0
  priority : Int := 0
  tickets : Int := 0
  estimatedburst : Int := 0
  previousburst : Int := 0
  readyTimeAging : Int := 0
  deriving DecidableEq, Repr

/-- `ptable` with the file-level variables of `proc.c`; `next` is the static
variable of `Random`. -/
structure PTable where
  proc : ProcId → Proc := fun _ => {}
  queueReady : Fin NUMFILAS → Fin NPROC → Option ProcId := fun _ _ => none
  countQueue : Fin NUMFILAS → Int := fun _ => 0
  initproc : Option ProcId := none
  nextpid : Int := 1
  next : Int := 3251

def PTable.setProc (t : PTable) (p : ProcId) (f : Proc → Proc) : PTable :=
  { t with proc := update t.proc p (f (t.proc p)) }

def PTable.setState (t : PTable) (p : ProcId) (state : ProcState) : PTable :=
  t.setProc p fun proc => { proc with state := state }

/-- `p = ptable.proc; p < &ptable.proc[NPROC]; p++`. -/
def slots : List ProcId := List.finRange NPROC

/-! ## The two queue idioms -/

/-- `ptable.queue_ready[q][ptable.count_queue[q]] = p; ptable.count_queue[q]++`. -/
def enqueue (t : PTable) (queue : Int) (p : ProcId) : Checked PTable := do
  let q ← index NUMFILAS queue
  let row ← store (t.queueReady q) (t.countQueue q) (some p)
  return { t with
    queueReady := update t.queueReady q row
    countQueue := update t.countQueue q (t.countQueue q + 1) }

/-- `for(i = position; i < count_queue[q] - 1; i++)` moving the queue down. -/
def andarFila (t : PTable) (q : Fin NUMFILAS) (position : Int) : Checked PTable := do
  let row ← shiftLeft (t.queueReady q) position (t.countQueue q)
  return { t with queueReady := update t.queueReady q row }

/-- `ptable.count_queue[q]--`. -/
def decrementCount (t : PTable) (q : Fin NUMFILAS) : PTable :=
  { t with countQueue := update t.countQueue q (t.countQueue q - 1) }

/-- Append `p` to the queue of its own priority and make it RUNNABLE, the way
`yield`, `wakeup1` and `kill` do. -/
def makeReady (t : PTable) (p : ProcId) : Checked PTable := do
  let t ← enqueue t (t.proc p).priority p
  return t.setState p .runnable

/-! ## Creation -/

/-- The fields `allocproc` sets in the slot it found. -/
def embryoSlot (pid ticks : Int) (proc : Proc) : Proc :=
  { proc with
    state := .embryo
    pid := pid
    ctime := ticks
    stime := 0
    retime := 0
    rutime := 0
    tickets := 10
    estimatedburst := 2
    previousburst := 0
    bstime := 0
    readyTimeAging := 0 }

/-- The first critical section of `allocproc`; `ticks` is the clock it reads.
No free slot is the null result. -/
def allocproc (ticks : Int) (t : PTable) : Option ProcId × PTable :=
  match slots.find? fun p => (t.proc p).state = .unused with
  | none => (none, t)
  | some p =>
    (some p, { t.setProc p (embryoSlot t.nextpid ticks) with nextpid := t.nextpid + 1 })

/-- The closing critical section of `fork` and of `userinit`: the new process
gets the default priority and enters that queue. -/
def enterReady (t : PTable) (p : ProcId) : Checked PTable := do
  let t := t.setProc p fun proc => { proc with priority := PRIO }
  let t ← enqueue t PRIO p
  return t.setState p .runnable

/-- `fork` up to its last critical section: `np->parent = curproc`. -/
def forkCopy (t : PTable) (curproc np : ProcId) : PTable :=
  t.setProc np fun proc => { proc with parent := some curproc }

def forkEnter (t : PTable) (np : ProcId) : Checked PTable := enterReady t np

/-- `kalloc` or `copyuvm` failed: the slot is given back outside the lock. -/
def forkAbandon (t : PTable) (np : ProcId) : PTable := t.setState np .unused

def userinitEnter (t : PTable) (p : ProcId) : Checked PTable := enterReady t p

/-! ## Giving up the processor -/

/-- `yield` up to the call of `sched`. -/
def yield (t : PTable) (p : ProcId) : Checked PTable := makeReady t p

/-- `0.5 * a + 0.5 * b` is exact in double precision; the conversion back to
`int` truncates. -/
def updateBurst (proc : Proc) : Proc :=
  { proc with estimatedburst := (proc.estimatedburst + proc.previousburst).tdiv 2 }

/-- `sleep` between taking `ptable.lock` and the call of `sched`. -/
def sleep (t : PTable) (p : ProcId) (chan : Chan) : PTable :=
  t.setProc p fun proc =>
    { updateBurst { proc with previousburst := proc.bstime } with
      chan := chan
      state := .sleeping
      bstime := 0 }

def sleepResume (t : PTable) (p : ProcId) : PTable :=
  t.setProc p fun proc => { proc with chan := .null }

/-! ## Waking up -/

/-- One turn of the loop of `wakeup1`. -/
def wakeOne (chan : Chan) (t : PTable) (p : ProcId) : Checked PTable :=
  if (t.proc p).state = .sleeping ∧ (t.proc p).chan = chan then makeReady t p else .ok t

def wakeup1 (t : PTable) (chan : Chan) : Checked PTable := slots.foldlM (wakeOne chan) t

/-- `kill`: the first slot with this pid, whatever its state. -/
def kill (t : PTable) (pid : Int) : Checked (Int × PTable) :=
  match slots.find? fun p => (t.proc p).pid = pid with
  | none => .ok (-1, t)
  | some p => do
    let t := t.setProc p fun proc => { proc with killed := true }
    if (t.proc p).state = .sleeping then
      let t ← makeReady t p
      return (0, t)
    else return (0, t)

/-! ## Exit and wait -/

/-- The channel a `struct proc *` names. -/
def chanOf : Option ProcId → Chan
  | none => .null
  | some p => .proc p

/-- One turn of the loop of `exit` that passes abandoned children to init. -/
def passToInit (curproc : ProcId) (t : PTable) (p : ProcId) : Checked PTable :=
  if (t.proc p).parent = some curproc then do
    let t := t.setProc p fun proc => { proc with parent := t.initproc }
    if (t.proc p).state = .zombie then wakeup1 t (chanOf t.initproc) else .ok t
  else .ok t

/-- The critical section of `exit` up to the call of `sched`. -/
def exit (t : PTable) (curproc : ProcId) : Checked PTable := do
  if t.initproc = some curproc then throw (.panic "init exiting")
  let t ← wakeup1 t (chanOf (t.proc curproc).parent)
  let t ← slots.foldlM (passToInit curproc) t
  return t.setState curproc .zombie

/-- How one pass of the loop of `wait` or `wait2` ends: a child was reaped, the
call fails, or the caller is now SLEEPING on itself and enters `sched`. -/
inductive WaitResult (α : Type) where
  | reaped (value : α)
  | failed
  | asleep
  deriving DecidableEq, Repr

/-- The slot fields `wait` clears. -/
def waitClear (proc : Proc) : Proc :=
  { proc with pid := 0, parent := none, killed := false, ctime := 0, state := .unused }

/-- `wait2` clears the three counters too. -/
def wait2Clear (proc : Proc) : Proc :=
  { proc with
    state := .unused, pid := 0, parent := none, killed := false, ctime := 0
    retime := 0, rutime := 0, stime := 0 }

/-- The scan shared by `wait` and `wait2`. The first ZOMBIE child is cleared by
`clear` and reported through `report`. -/
def waitPass (clear : Proc → Proc) (report : Proc → α) (t : PTable) (curproc : ProcId) :
    WaitResult α × PTable :=
  match slots.find? fun p => (t.proc p).parent = some curproc ∧ (t.proc p).state = .zombie with
  | some p => (.reaped (report (t.proc p)), t.setProc p clear)
  | none =>
    let havekids := slots.any fun p => (t.proc p).parent = some curproc
    if !havekids || (t.proc curproc).killed then (.failed, t)
    else (.asleep, sleep t curproc (.proc curproc))

def wait (t : PTable) (curproc : ProcId) : WaitResult Int × PTable :=
  waitPass waitClear (fun proc => proc.pid) t curproc

/-- What `wait2` returns and stores through its three pointers. -/
structure Wait2Report where
  pid : Int
  retime : Int
  rutime : Int
  stime : Int
  deriving DecidableEq, Repr

def wait2 (t : PTable) (curproc : ProcId) : WaitResult Wait2Report × PTable :=
  waitPass wait2Clear
    (fun proc => ⟨proc.pid, proc.retime, proc.rutime, proc.stime⟩) t curproc

/-! ## The clock tick -/

/-- The three branches of the loop body of `updateClock`. -/
def tick (proc : Proc) : Proc :=
  match proc.state with
  | .sleeping => { proc with stime := proc.stime + 1, clock := 0 }
  | .runnable =>
    { proc with
      retime := proc.retime + 1, readyTimeAging := proc.readyTimeAging + 1, clock := 0 }
  | .running =>
    { proc with
      bstime := proc.bstime + 1, rutime := proc.rutime + 1, clock := proc.clock + 1 }
  | _ => proc

def updateClock (t : PTable) : PTable := { t with proc := fun p => tick (t.proc p) }

/-! ## Aging -/

/-- The search of `auxTrocarFilaPriority`: the last position of the old queue
whose process has the pid of `p`, and 0 when there is none. -/
def achaPosicao (t : PTable) (antiga : Fin NUMFILAS) (p : ProcId) : Checked Int :=
  forLoop 0 (t.countQueue antiga) (fun i posicao => do
    let r ← deref (← load (t.queueReady antiga) i)
    return if (t.proc p).pid = (t.proc r).pid then i else posicao) 0

def auxTrocarFilaPriority (t : PTable) (p : ProcId) (prioridadeNova : Int) : Checked PTable := do
  let antiga ← index NUMFILAS (prioridadeNova - 1)
  let posicao ← achaPosicao t antiga p
  let t ← andarFila t antiga posicao
  let t := decrementCount t antiga
  let t ← enqueue t prioridadeNova p
  return t.setProc p fun proc => { proc with readyTimeAging := 0 }

/-- The three thresholds of `upgradePriority_Aging`, by present priority. -/
def agingLimit : Int → Option Int
  | 0 => some oneToTwo
  | 1 => some twoToThree
  | 2 => some threeToFour
  | _ => none

def promoteOne (t : PTable) (p : ProcId) : Checked PTable :=
  match agingLimit (t.proc p).priority with
  | some limit =>
    if (t.proc p).state = .runnable ∧ limit ≤ (t.proc p).readyTimeAging then
      let nova := (t.proc p).priority + 1
      auxTrocarFilaPriority (t.setProc p fun proc => { proc with priority := nova }) p nova
    else .ok t
  | none => .ok t

def upgradePriorityAging (t : PTable) : Checked PTable := slots.foldlM promoteOne t

/-! ## change_prio -/

/-- The write `myproc()->priority = priority-1`, made without the lock. -/
def changePrioSet (t : PTable) (p : ProcId) (priority : Int) : PTable :=
  t.setProc p fun proc => { proc with priority := priority - 1 }

/-- The range check that guards `change_prio`. -/
def prioAccepted (priority : Int) : Prop := 1 ≤ priority ∧ priority ≤ 4

instance : DecidablePred prioAccepted := fun _ => inferInstanceAs (Decidable (_ ∧ _))

/-- `change_prio` up to `sched` inside its `yield`; a refused argument returns
`-1` at once. -/
def changePrio (t : PTable) (p : ProcId) (priority : Int) : Checked (Option Int × PTable) :=
  if prioAccepted priority then do
    let t ← yield (changePrioSet t p priority) p
    return (none, t)
  else .ok (some (-1), t)

/-- The rest of `change_prio`, after `yield` has returned. -/
def changePrioTail (t : PTable) (p : ProcId) (priority : Int) : Checked (Int × PTable) :=
  if (t.proc p).state = .runnable then do
    let t ← auxTrocarFilaPriority t p (priority - 1)
    return (0, t)
  else .ok (0, t)

/-! ## scheduler -/

/-- The loop of `shortestBurst`, on the pair of `shortest` and its position. -/
def shortestBurst (t : PTable) : Checked Int := do
  let best ← forLoop 0 (t.countQueue 2) (fun i (best : Int × Int) => do
    let p ← deref (← load (t.queueReady 2) i)
    return if (t.proc p).estimatedburst < best.1 then ((t.proc p).estimatedburst, i) else best)
    (10000, 0)
  return best.2

/-- `Random`: middle-square on the static variable. -/
def random (next : Int) : Int := ((next * next).tdiv 100).tmod 10000

/-- `RandomInRange`, with the generator's new state. -/
def randomInRange (next min max : Int) : Checked (Int × Int) := do
  let r ← remainder (random next) (max + 1 - min)
  return (r + min, random next)

def loteriaTotal (t : PTable) : Checked Int :=
  forLoop 0 (t.countQueue 0) (fun i total => do
    let p ← deref (← load (t.queueReady 0) i)
    return if (t.proc p).state = .runnable then total + (t.proc p).tickets else total) 0

/-- The search loop of the lottery from position `aux` with `left` turns to go:
the position it stops at and the last process it looked at. -/
def lotterySearch (t : PTable) (golden : Int) :
    Nat → Int → Int → Option ProcId → Checked (Int × Option ProcId)
  | 0, aux, _, last => .ok (aux, last)
  | left + 1, aux, count, _ => do
    let p ← deref (← load (t.queueReady 0) aux)
    if count + (t.proc p).tickets < golden then
      lotterySearch t golden left (aux + 1) (count + (t.proc p).tickets) (some p)
    else return (aux, some p)

/-- The four branches of `scheduler`, and the pass that finds nothing. -/
inductive Branch where
  | fcfs | sjf | rr | lottery | idle
  deriving DecidableEq, Repr

def branch (t : PTable) : Branch :=
  if 0 < t.countQueue 3 then .fcfs
  else if 0 < t.countQueue 2 then .sjf
  else if 0 < t.countQueue 1 then .rr
  else if 0 < t.countQueue 0 then .lottery
  else .idle

/-- What every branch does with its choice `p` at `position` of queue `q`:
reset the two clocks, close the gap, lower a counter, make `p` RUNNING. The
counter is a parameter because the branches do not all lower the one of the
queue they took `p` from. -/
def dispatch (t : PTable) (q lowered : Fin NUMFILAS) (position : Int) (p : ProcId) :
    Checked PTable := do
  let t := t.setProc p fun proc => { proc with clock := 0, readyTimeAging := 0 }
  let t ← andarFila t q position
  let t := decrementCount t lowered
  return t.setState p .running

def dispatchFcfs (t : PTable) : Checked (ProcId × PTable) := do
  let p ← deref (← load (t.queueReady 3) 0)
  let t ← dispatch t 3 3 0 p
  return (p, t)

def dispatchSjf (t : PTable) : Checked (ProcId × PTable) := do
  let menorBurstPosicao ← shortestBurst t
  let p ← deref (← load (t.queueReady 2) menorBurstPosicao)
  let t ← dispatch t 2 2 menorBurstPosicao p
  return (p, t)

def dispatchRr (t : PTable) : Checked (ProcId × PTable) := do
  let p ← deref (← load (t.queueReady 1) 0)
  let t ← dispatch t 1 1 0 p
  return (p, t)

/-- The lottery takes its winner from queue 0 and lowers the counter of
queue 2. -/
def dispatchLottery (t : PTable) : Checked (ProcId × PTable) := do
  let total ← loteriaTotal t
  let (golden, next) ← randomInRange t.next 0 total
  let t := { t with next := next }
  let (aux, last) ← lotterySearch t golden (t.countQueue 0).toNat 0 0 none
  let p ← deref last
  let t ← dispatch t 0 2 aux p
  return (p, t)

/-- One pass of `scheduler` up to `swtch`, with the process it chose. -/
def scheduler (t : PTable) : Checked (Option ProcId × PTable) :=
  match branch t with
  | .fcfs => do let (p, t) ← dispatchFcfs t; return (some p, t)
  | .sjf => do let (p, t) ← dispatchSjf t; return (some p, t)
  | .rr => do let (p, t) ← dispatchRr t; return (some p, t)
  | .lottery => do let (p, t) ← dispatchLottery t; return (some p, t)
  | .idle => .ok (none, t)

end Xv6.ProcTable
