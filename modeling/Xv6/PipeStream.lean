import Xv6.Param
import Xv6.RingBuffer
import Xv6.StepSystem

/-! One pipe and the processes that read, write and close it. A call runs from where
it acquires the pipe's lock to where it returns or has to wait; there it looks, in a step of
its own, whether it may, and goes to sleep. `kill` does not take the lock and can strike at
any time, also before a process looks, and when it has decided to sleep and has not done so
yet. -/
namespace Xv6.PipeStream
open CheckedC RingBuffer StepSystem

abbrev Byte := BitVec 8

abbrev PIPESIZE : Nat := 512

structure Pipe where
  ring : Ring Byte PIPESIZE 32
  readopen : Bool
  writeopen : Bool

/-- What `pipealloc` makes of a fresh page. -/
def pipealloc (page : Fin PIPESIZE → Byte) : Pipe := ⟨⟨page, 0, 0⟩, true, true⟩

/-! ## The loops -/

/-- The loop of `pipewrite`, as far as a full buffer. The bytes it has not stored are those
left over. -/
def writeLoop (ring : Ring Byte PIPESIZE 32) : List Byte → Ring Byte PIPESIZE 32 × List Byte
  | [] => (ring, [])
  | b :: rest => if ring.isFull then (ring, b :: rest) else writeLoop (ring.push b) rest

/-- The second loop of `piperead`, with the bytes it copies. -/
def copyLoop (ring : Ring Byte PIPESIZE 32) : Nat → Ring Byte PIPESIZE 32 × List Byte
  | 0 => (ring, [])
  | n + 1 =>
    if ring.isEmpty then (ring, [])
    else
      let (after, bytes) := copyLoop ring.pop n
      (after, ring.front :: bytes)

/-! ## The processes -/

/-- The call a process is in: of `pipewrite` the number of bytes and those it has
still to store, of `piperead` the number of bytes it asks for. -/
inductive Call where
  | outside
  | write (n : Nat) (rest : List Byte)
  | read (n : Nat)
  deriving DecidableEq

structure Proc where
  call : Call := .outside
  asleep : Bool := false
  killed : Bool := false
  /-- what its last call returned -/
  result : Int := 0
  deriving DecidableEq

/-- What a process that holds the lock does next: it looks whether it may wait, or it goes
to sleep. -/
inductive Stage where
  | test
  | sleep
  deriving DecidableEq

structure State (P : Type) where
  pipe : Pipe
  proc : P → Proc
  lock : Option (P × Stage) := none

inductive Event (P : Type) where
  | write (p : P) (addr : List Byte)
  | read (p : P) (n : Nat)
  /-- a process that was woken goes on -/
  | resume (p : P)
  | test (p : P)
  | sleep (p : P)
  | close (writable : Bool)
  | kill (p : P)
  deriving DecidableEq

/-- `wakeup(&p->nread)`: the processes asleep in `piperead`. -/
def wakeReaders (proc : P → Proc) : P → Proc := fun p =>
  match (proc p).call with
  | .read _ => { proc p with asleep := false }
  | _ => proc p

/-- `wakeup(&p->nwrite)`: the processes asleep in `pipewrite`. -/
def wakeWriters (proc : P → Proc) : P → Proc := fun p =>
  match (proc p).call with
  | .write _ _ => { proc p with asleep := false }
  | _ => proc p

section
variable [DecidableEq P]

def State.set (s : State P) (p : P) (f : Proc → Proc) : State P :=
  { s with proc := Function.update s.proc p (f (s.proc p)) }

/-- `pipewrite`, from where it acquires the lock or comes back from `sleep`. -/
def pipewrite (s : State P) (p : P) (n : Nat) (rest : List Byte) : State P :=
  let (ring, left) := writeLoop s.pipe.ring rest
  let s := { s with pipe := { s.pipe with ring := ring } }
  if left = [] then
    State.set { s with proc := wakeReaders s.proc } p
      fun proc => { proc with call := .outside, result := n }
  else State.set { s with lock := some (p, .test) } p fun proc => { proc with call := .write n left }

/-- `pipewrite` at a full buffer. -/
def pipewriteFull (s : State P) (p : P) : State P :=
  if !s.pipe.readopen || (s.proc p).killed then
    State.set { s with lock := none } p fun proc => { proc with call := .outside, result := -1 }
  else { s with proc := wakeReaders s.proc, lock := some (p, .sleep) }

/-- `piperead`, from where it acquires the lock or comes back from `sleep`. -/
def piperead (s : State P) (p : P) (n : Nat) : State P :=
  if s.pipe.ring.isEmpty && s.pipe.writeopen then
    State.set { s with lock := some (p, .test) } p fun proc => { proc with call := .read n }
  else
    let (ring, bytes) := copyLoop s.pipe.ring n
    State.set { s with pipe := { s.pipe with ring := ring }, proc := wakeWriters s.proc } p
      fun proc => { proc with call := .outside, result := bytes.length }

/-- `piperead` at an empty buffer. -/
def pipereadEmpty (s : State P) (p : P) : State P :=
  if (s.proc p).killed then
    State.set { s with lock := none } p fun proc => { proc with call := .outside, result := -1 }
  else { s with lock := some (p, .sleep) }

def runCall (s : State P) (p : P) : Call → State P
  | .outside => s
  | .write n rest => pipewrite s p n rest
  | .read n => piperead s p n

def runTest (s : State P) (p : P) : State P :=
  match (s.proc p).call with
  | .outside => s
  | .write _ _ => pipewriteFull s p
  | .read _ => pipereadEmpty s p

def pipeclose (s : State P) (writable : Bool) : State P :=
  if writable then
    { s with pipe := { s.pipe with writeopen := false }, proc := wakeReaders s.proc }
  else
    { s with pipe := { s.pipe with readopen := false }, proc := wakeWriters s.proc }

def turn (s : State P) : Event P → Option (P × Call)
  | .write p addr => some (p, .write addr.length addr)
  | .read p n => some (p, .read n)
  | .resume p => some (p, (s.proc p).call)
  | .test _ | .sleep _ | .close _ | .kill _ => none

/-- `pipeclose` frees the page with the second end. -/
def Allocated (s : State P) : Prop := s.pipe.readopen = true ∨ s.pipe.writeopen = true

instance : Decidable (Allocated (P := P) s) := inferInstanceAs (Decidable (_ ∨ _))

def Enabled (s : State P) : Event P → Prop
  | .write p _ | .read p _ => s.lock = none ∧ Allocated s ∧ (s.proc p).call = .outside
  | .resume p => s.lock = none ∧ Allocated s ∧ (s.proc p).call ≠ .outside ∧ (s.proc p).asleep = false
  | .test p => s.lock = some (p, .test)
  | .sleep p => s.lock = some (p, .sleep)
  | .close _ => s.lock = none ∧ Allocated s
  | .kill _ => True

instance : Decidable (Enabled (P := P) s e) := by
  unfold Enabled
  split <;> infer_instance

def perform (s : State P) (e : Event P) : State P :=
  match e with
  | .write p addr => runCall s p (.write addr.length addr)
  | .read p n => runCall s p (.read n)
  | .resume p => runCall s p (s.proc p).call
  | .test p => runTest s p
  | .sleep p => State.set { s with lock := none } p fun proc => { proc with asleep := true }
  | .close writable => pipeclose s writable
  | .kill p => s.set p fun proc => { proc with killed := true, asleep := false }

end

def start (P : Type) (page : Fin PIPESIZE → Byte) : State P := ⟨pipealloc page, fun _ => {}, none⟩

def system (P : Type) [DecidableEq P] : System (State P) (Event P) where
  Init s := ∃ page, s = start P page
  Enabled := Enabled
  perform s e := .ok (perform s e)

/-! ## The stream -/

/-- The bytes stored so far, and those returned. -/
structure Transcript where
  stored : List Byte := []
  returned : List Byte := []
  deriving DecidableEq

section
variable [DecidableEq P]

def record (s : State P) (e : Event P) (_ : State P) (t : Transcript) : Transcript :=
  match turn s e with
  | some (_, .write _ rest) =>
    let (_, left) := writeLoop s.pipe.ring rest
    { t with stored := t.stored ++ rest.take (rest.length - left.length) }
  | some (_, .read n) => { t with returned := t.returned ++ (copyLoop s.pipe.ring n).2 }
  | _ => t

end

def recorded (P : Type) [DecidableEq P] : System (State P × Transcript) (Event P) :=
  (system P).watch (fun _ => {}) record

section
variable [DecidableEq P]

instance : Decidable ((recorded P).Enabled s e) := inferInstanceAs (Decidable (Enabled s.1 e))

end

theorem fits : PIPESIZE < 2 ^ 32 := by decide

theorem divides : PIPESIZE ∣ 2 ^ 32 := ⟨2 ^ 23, by decide⟩

theorem writeLoop_stores (bounded : ring.distance ≤ PIPESIZE)
    (ran : writeLoop ring rest = (after, left)) :
    after.distance ≤ PIPESIZE ∧ ∃ done, rest = done ++ left ∧
      after.contents = ring.contents ++ done := by
  induction rest generalizing ring with
  | nil =>
    cases ran
    exact ⟨bounded, [], rfl, by simp⟩
  | cons b rest ih =>
    rw [writeLoop] at ran
    split at ran
    · cases ran
      exact ⟨bounded, [], rfl, by simp⟩
    · rename_i space
      have room : ring.distance < PIPESIZE := by
        rw [Ring.isFull_iff fits] at space
        omega
      have next := Ring.push_distance fits room b
      obtain ⟨bound, done, split_, contents⟩ := ih (by omega) ran
      refine ⟨bound, b :: done, by rw [split_]; rfl, ?_⟩
      rw [contents, Ring.push_contents fits divides room]
      simp

theorem copyLoop_takes (bounded : ring.distance ≤ PIPESIZE)
    (ran : copyLoop ring n = (after, bytes)) :
    after.distance ≤ PIPESIZE ∧ ring.contents = bytes ++ after.contents := by
  induction n generalizing ring after bytes with
  | zero =>
    cases ran
    exact ⟨bounded, rfl⟩
  | succ n ih =>
    rw [copyLoop] at ran
    split at ran
    · cases ran
      exact ⟨bounded, rfl⟩
    · rename_i some
      have nonempty : ring.distance ≠ 0 := fun zero => some (Ring.isEmpty_iff.mpr zero)
      have next := Ring.pop_distance nonempty
      generalize rest : copyLoop ring.pop n = copied at ran
      cases ran
      obtain ⟨bound, contents⟩ := ih (by omega) rest
      refine ⟨bound, ?_⟩
      rw [Ring.contents_pop nonempty, contents]
      rfl

/-- What was stored is what was returned and then what is in the buffer. -/
def Fifo (pipe : Pipe) (t : Transcript) : Prop :=
  pipe.ring.distance ≤ PIPESIZE ∧ t.stored = t.returned ++ pipe.ring.contents

section
variable [DecidableEq P] {s : State P}

theorem Fifo.write (fifo : Fifo s.pipe t) (p : P) (n : Nat) (rest : List Byte) :
    Fifo (pipewrite s p n rest).pipe { t with
      stored := t.stored ++ rest.take (rest.length - (writeLoop s.pipe.ring rest).2.length) } := by
  obtain ⟨bounded, stream⟩ := fifo
  have after : (pipewrite s p n rest).pipe.ring = (writeLoop s.pipe.ring rest).1 := by
    unfold pipewrite
    dsimp only
    split <;> rfl
  rw [Fifo, after]
  generalize loop : writeLoop s.pipe.ring rest = turned
  obtain ⟨ring, left⟩ := turned
  obtain ⟨bound, done, parts, contents⟩ := writeLoop_stores bounded loop
  have stored : rest.take (rest.length - left.length) = done := by
    rw [parts, List.length_append, Nat.add_sub_cancel, List.take_left]
  refine ⟨bound, ?_⟩
  simp only [stored, contents, stream, List.append_assoc]

theorem Fifo.read (fifo : Fifo s.pipe t) (p : P) (n : Nat) :
    Fifo (piperead s p n).pipe { t with returned := t.returned ++ (copyLoop s.pipe.ring n).2 } := by
  obtain ⟨bounded, stream⟩ := fifo
  unfold piperead
  split
  · -- nothing is copied
    rename_i waits
    have none : (copyLoop s.pipe.ring n).2 = [] := by
      cases n with
      | zero => rfl
      | succ n => rw [copyLoop, if_pos (Bool.and_eq_true_iff.mp waits).1]
    rw [none, List.append_nil]
    exact ⟨bounded, stream⟩
  · generalize loop : copyLoop s.pipe.ring n = copied
    obtain ⟨bound, contents⟩ := copyLoop_takes bounded loop
    refine ⟨bound, ?_⟩
    simp only [State.set, stream, contents, List.append_assoc]

theorem Fifo.call (fifo : Fifo s.pipe t) (p : P) (call : Call) (takes : turn s e = some (p, call)) :
    Fifo (runCall s p call).pipe (record s e after t) := by
  unfold record
  rw [takes]
  cases call with
  | outside => exact fifo
  | write n rest => exact fifo.write p n rest
  | read n => exact fifo.read p n

theorem runTest_pipe (s : State P) (p : P) : (runTest s p).pipe = s.pipe := by
  unfold runTest pipewriteFull pipereadEmpty
  split
  · rfl
  · split <;> rfl
  · split <;> rfl

theorem step_fifo (fifo : Fifo s.pipe t) (e : Event P) :
    Fifo (perform s e).pipe (record s e (perform s e) t) := by
  cases e with
  | write p addr => exact fifo.call p _ rfl
  | read p n => exact fifo.call p _ rfl
  | resume p => exact fifo.call p _ rfl
  | test p =>
    simp only [perform, runTest_pipe]
    exact fifo
  | sleep p => exact fifo
  | close writable =>
    simp only [perform, pipeclose]
    split <;> exact fifo
  | kill p => exact fifo

end

/-- In every run, by any number of processes, the counters are at most PIPESIZE
apart and the bytes come out in the order in which they went in. -/
theorem pipe_fifo {P : Type} [DecidableEq P] {s : State P × Transcript}
    (run : (recorded P).Run (fun _ _ => True) s) :
    s.1.pipe.ring.distance ≤ PIPESIZE ∧ s.2.stored = s.2.returned ++ s.1.pipe.ring.contents := by
  have fifo : Fifo s.1.pipe s.2 := by
    apply run.invariant
    · rintro s ⟨⟨page, begins⟩, nothing⟩
      rw [begins, nothing]
      have zero : (start P page).pipe.ring.distance = 0 := by simp [start, pipealloc, Ring.distance]
      exact ⟨by rw [zero]; exact Nat.zero_le _, by simp [Ring.contents, zero]⟩
    · intro s e after fifo _ _ ran
      obtain ⟨stepped, noted⟩ := System.watch_perform ran
      rw [noted, ← Except.ok.inj stepped]
      exact step_fifo fifo e
  exact fifo

/-- Two writers and a reader: five bytes go in, three come out. -/
theorem pipe_fifo_three : ∃ s : State (Fin 3) × Transcript,
    (recorded (Fin 3)).Run (fun _ _ => True) s ∧ s.2.returned = [1, 2, 7] ∧
      s.1.pipe.ring.contents = [8, 9] ∧
      s.2.stored = s.2.returned ++ s.1.pipe.ring.contents := by
  obtain ⟨s, run, returned, contents⟩ := System.exists_run (fun _ _ => True) (m := recorded (Fin 3))
    (s := (start (Fin 3) fun _ => 0, {})) ⟨⟨_, rfl⟩, rfl⟩
    [.read 2 3, .test 2, .sleep 2, .write 0 [1, 2], .write 1 [7, 8, 9], .resume 2]
    (fun s => s.2.returned = [1, 2, 7] ∧ s.1.pipe.ring.contents = [8, 9])
    (by decide +kernel)
  exact ⟨s, run, returned, contents, (pipe_fifo run).2⟩

end Xv6.PipeStream
