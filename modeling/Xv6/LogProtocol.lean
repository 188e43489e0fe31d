import Xv6.RedoLog
import Xv6.StepSystem
import Xv6.Tally

/-! The group commit protocol of `log.c`. Any number of threads run operations of
the form `begin_op; log_write*; end_op`. Each `log.lock` critical section is one
step; the checks that open `log_write` and the two halves of `commit` run outside
the lock and are steps of their own. -/
namespace Xv6.LogProtocol
open CheckedC RedoLog StepSystem Tally Function

/-- `nlog` of `mkfs.c`, which ends up in `sb.nlog` and so in `log.size`. -/
def nlog : Int := LOGSIZE

/-- Where a thread stands in its operation. -/
inductive Phase where
  | idle
  /-- In `begin_op`, asleep on `&log`. -/
  | asleep
  /-- In `begin_op`, woken, about to test again. -/
  | woken
  | inOp
  /-- In `log_write(b)`, past the two checks. -/
  | checked (b : BlockNo)
  /-- In `end_op` with `do_commit` set, about to call `commit`. -/
  | ending
  /-- In `commit`, copying the listed blocks. -/
  | copying (blocks : List BlockNo)
  /-- `commit` is over. -/
  | cleared
  deriving DecidableEq

/-- The operation counts in `log.outstanding`. -/
def Phase.inside : Phase → Bool
  | inOp | checked _ => true
  | _ => false

def Phase.commits : Phase → Bool
  | ending | copying _ | cleared => true
  | _ => false

/-- A thread, with two fields only the proofs read: the number of its present
operation and the distinct blocks that operation has logged. -/
structure Thread where
  phase : Phase := .idle
  op : Nat := 0
  mine : List BlockNo := []
  deriving DecidableEq

/-- A block that an operation logged, with the number of commits made before. -/
structure Entry (π : Type) where
  thread : π
  op : Nat
  block : BlockNo
  epoch : Nat
  deriving DecidableEq

/-- `struct log` and the threads. `blocks` is `lh.block[0..lh.n)`. The last two
fields are the history: the commits made and what each operation logged. -/
structure State (π : Type) where
  outstanding : Int := 0
  committing : Bool := false
  blocks : List BlockNo := []
  thread : π → Thread := fun _ => {}
  committed : List (List BlockNo) := []
  logged : List (Entry π) := []

inductive Event (π : Type) where
  | beginOp (p : π)
  /-- `kill` wakes a sleeping thread. -/
  | kill (p : π)
  | logWrite (p : π) (b : BlockNo)
  | logAppend (p : π)
  | endOp (p : π)
  | commitCopy (p : π)
  | commitClear (p : π)
  | endCommit (p : π)
  deriving DecidableEq

variable {π : Type} [DecidableEq π]

/-- The loop of `log_write` with log absorption. -/
def record (blocks : List BlockNo) (b : BlockNo) : List BlockNo :=
  if b ∈ blocks then blocks else blocks ++ [b]

def State.setPhase (s : State π) (p : π) (phase : Phase) : State π :=
  { s with thread := update s.thread p { s.thread p with phase := phase } }

def State.wakeup (s : State π) : State π :=
  { s with thread := fun p =>
      if (s.thread p).phase = .asleep then { s.thread p with phase := .woken } else s.thread p }

def Enabled (s : State π) : Event π → Prop
  | .beginOp p => (s.thread p).phase = .idle ∨ (s.thread p).phase = .woken
  | .kill p => (s.thread p).phase = .asleep
  | .logWrite p _ | .endOp p => (s.thread p).phase = .inOp
  | .logAppend p => ∃ b, (s.thread p).phase = .checked b
  | .commitCopy p => (s.thread p).phase = .ending
  | .commitClear p => ∃ blocks, (s.thread p).phase = .copying blocks
  | .endCommit p => (s.thread p).phase = .cleared

instance (s : State π) : Decidable (Enabled s e) :=
  match e with
  | .beginOp _ => inferInstanceAs (Decidable (_ ∨ _))
  | .kill _ | .logWrite _ _ | .endOp _ | .commitCopy _ | .endCommit _ =>
    inferInstanceAs (Decidable (_ = _))
  | .logAppend p => match h : (s.thread p).phase with
    | .checked b => .isTrue ⟨b, h⟩
    | .idle | .asleep | .woken | .inOp | .ending | .copying _ | .cleared =>
      .isFalse fun ⟨_, found⟩ => by rw [h] at found; cases found
  | .commitClear p => match h : (s.thread p).phase with
    | .copying blocks => .isTrue ⟨blocks, h⟩
    | .idle | .asleep | .woken | .inOp | .ending | .checked _ | .cleared =>
      .isFalse fun ⟨_, found⟩ => by rw [h] at found; cases found

/-- The test of `begin_op`, once no commit is in progress. -/
def Admits (s : State π) : Prop :=
  (s.blocks.length : Int) + (s.outstanding + 1) * MAXOPBLOCKS ≤ LOGSIZE

instance (s : State π) : Decidable (Admits s) := inferInstanceAs (Decidable (_ ≤ _))

/-- One turn of the loop of `begin_op`. -/
def beginOp (s : State π) (p : π) : State π :=
  if s.committing then s.setPhase p .asleep
  else if ¬ Admits s then s.setPhase p .asleep
  else
    { s with
      outstanding := s.outstanding + 1
      thread := update s.thread p
        { phase := .inOp, op := (s.thread p).op + 1, mine := [] } }

/-- The checks of `log_write`, made without the lock. -/
def logWrite (s : State π) (p : π) (b : BlockNo) : Checked (State π) :=
  if (LOGSIZE : Int) ≤ s.blocks.length ∨ nlog - 1 ≤ s.blocks.length then
    .error (.panic "too big a transaction")
  else if s.outstanding < 1 then .error (.panic "log_write outside of trans")
  else .ok (s.setPhase p (.checked b))

/-- The critical section of `log_write`. -/
def logAppend (s : State π) (p : π) (b : BlockNo) : State π :=
  { s with
    blocks := record s.blocks b
    thread := update s.thread p
      { s.thread p with phase := .inOp, mine := record (s.thread p).mine b }
    logged := ⟨p, (s.thread p).op, b, s.committed.length⟩ :: s.logged }

/-- The first critical section of `end_op`. -/
def endOp (s : State π) (p : π) : Checked (State π) :=
  let s := { s with outstanding := s.outstanding - 1 }
  if s.committing then .error (.panic "log.committing")
  else if s.outstanding = 0 then .ok { s.setPhase p .ending with committing := true }
  else .ok (s.wakeup.setPhase p .idle)

/-- `commit` up to `install_trans`; with an empty header it does nothing. -/
def commitCopy (s : State π) (p : π) : State π :=
  if 0 < s.blocks.length then s.setPhase p (.copying s.blocks) else s.setPhase p .cleared

/-- `log.lh.n = 0` and the erasing header write. -/
def commitClear (s : State π) (p : π) (blocks : List BlockNo) : State π :=
  { s.setPhase p .cleared with blocks := [], committed := s.committed ++ [blocks] }

/-- The second critical section of `end_op`. -/
def endCommit (s : State π) (p : π) : State π :=
  { s.wakeup.setPhase p .idle with committing := false }

def perform (s : State π) : Event π → Checked (State π)
  | .beginOp p => .ok (beginOp s p)
  | .kill p => .ok (s.setPhase p .woken)
  | .logWrite p b => logWrite s p b
  | .logAppend p =>
    match (s.thread p).phase with
    | .checked b => .ok (logAppend s p b)
    | _ => .ok s
  | .endOp p => endOp s p
  | .commitCopy p => .ok (commitCopy s p)
  | .commitClear p =>
    match (s.thread p).phase with
    | .copying blocks => .ok (commitClear s p blocks)
    | _ => .ok s
  | .endCommit p => .ok (endCommit s p)

def system (π : Type) [DecidableEq π] : System (State π) (Event π) where
  Init s := s = {}
  Enabled := Enabled
  perform := perform

instance : Decidable ((system π).Enabled s e) := inferInstanceAs (Decidable (Enabled s e))

end Xv6.LogProtocol
