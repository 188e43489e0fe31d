import Xv6.Param
import Xv6.LinkedRing
import Xv6.StepSystem

/-! The buffer cache of `bio.c` and what the log does to it. A process takes a buffer
in three steps, under `bcache.lock`, under the buffer's sleep-lock and through the
disk, and gives it back in two; between them it may change the data, and it calls
`log_write` or `bwrite` before it lets go of what it has changed. -/
namespace Xv6.BufferCache
open CheckedC LinkedRing StepSystem Function

abbrev BufId := Fin NBUF

/-- A `struct buf *` of the list; `none` is `&bcache.head`. -/
abbrev Node := Option BufId

structure Buf (P D : Type) where
  valid : Bool := false
  dirty : Bool := false
  dev : Nat := 0
  blockno : Nat := 0
  refcnt : Int := 0
  /-- the process that has the sleep-lock -/
  owner : Option P := none
  data : D

structure Log where
  size : Int
  outstanding : Int := 0
  /-- `log.lh.block`, as far as `log.lh.n` -/
  lh : List Nat := []

/-- Where a process is: in none of the functions; in `bread`, before `acquiresleep`,
at the test of B_VALID, or in `iderw`; in `iderw` for `bwrite`; in `brelse`, behind
`releasesleep`. -/
inductive Act where
  | ready
  | locks (dev blockno : Nat) (b : BufId)
  | checks (dev blockno : Nat) (b : BufId)
  | reads (dev blockno : Nat) (b : BufId)
  | writes (b : BufId)
  | drops (b : BufId)
  deriving DecidableEq

structure State (P D : Type) where
  buf : BufId → Buf P D
  links : Links Node
  disk : Nat → Nat → D
  havedisk1 : Bool
  log : Log
  act : P → Act
  /-- the data was changed since the last `log_write` or `bwrite` -/
  unsaved : BufId → Bool

/-- `binit`: every buffer is put in front of the list. -/
def binit : Links Node :=
  (List.finRange NBUF).foldl (fun k b => k.linkFront none (some b))
    ⟨fun _ => none, fun _ => none⟩

section
variable {P D : Type} [DecidableEq P]

/-! ## bio.c -/

def onBuf (found : BufId → Bool) : Node → Bool
  | some b => found b
  | none => false

/-- The two loops of `bget`: the buffer it takes, and whether it is a recycled one. -/
def bget (s : State P D) (dev blockno : Nat) : Checked (BufId × Bool) :=
  match search s.links.next
      (onBuf fun b => (s.buf b).dev == dev && (s.buf b).blockno == blockno)
      none (NBUF + 1) (s.links.next none) with
  | some (some b) => .ok (b, false)
  | _ =>
    match search s.links.prev (onBuf fun b => (s.buf b).refcnt == 0 && !(s.buf b).dirty)
        none (NBUF + 1) (s.links.prev none) with
    | some (some b) => .ok (b, true)
    | _ => .error (.panic "bget: no buffers")

def State.setBuf (s : State P D) (b : BufId) (f : Buf P D → Buf P D) : State P D :=
  { s with buf := update s.buf b (f (s.buf b)) }

def State.goto (s : State P D) (p : P) (act : Act) : State P D :=
  { s with act := update s.act p act }

@[simp] theorem State.goto_buf (s : State P D) (p : P) (act : Act) : (s.goto p act).buf = s.buf :=
  rfl

/-- `bread` as far as `bget` releases `bcache.lock`. -/
def breadBegin (s : State P D) (p : P) (dev blockno : Nat) : Checked (State P D) := do
  let (b, recycled) ← bget s dev blockno
  let s := s.setBuf b fun buf =>
    if recycled then
      { buf with dev := dev, blockno := blockno, valid := false, dirty := false, refcnt := 1 }
    else { buf with refcnt := buf.refcnt + 1 }
  return s.goto p (.locks dev blockno b)

/-- The checks of `iderw`. -/
def iderw (s : State P D) (p : P) (b : BufId) : Checked Unit :=
  if (s.buf b).owner ≠ some p then .error (.panic "iderw: buf not locked")
  else if (s.buf b).valid && !(s.buf b).dirty then .error (.panic "iderw: nothing to do")
  else if (s.buf b).dev ≠ 0 ∧ s.havedisk1 = false then
    .error (.panic "iderw: ide disk 1 not present")
  else .ok ()

/-- The transfer `ideintr` completes. -/
def ideintr (s : State P D) (b : BufId) : State P D :=
  let buf := s.buf b
  let blocks := update (s.disk buf.dev) buf.blockno buf.data
  let s := if buf.dirty then { s with disk := update s.disk buf.dev blocks }
    else s.setBuf b fun buf => { buf with data := s.disk buf.dev buf.blockno }
  s.setBuf b fun buf => { buf with valid := true, dirty := false }

def bwrite (s : State P D) (p : P) (b : BufId) : Checked (State P D) :=
  if (s.buf b).owner ≠ some p then .error (.panic "bwrite")
  else do
    let s := s.setBuf b fun buf => { buf with dirty := true }
    iderw s p b
    return State.goto { s with unsaved := update s.unsaved b false } p (.writes b)

def brelse (s : State P D) (p : P) (b : BufId) : Checked (State P D) :=
  if (s.buf b).owner ≠ some p then .error (.panic "brelse")
  else return (s.setBuf b fun buf => { buf with owner := none }).goto p (.drops b)

/-- The critical section of `brelse`. -/
def brelseEnd (s : State P D) (b : BufId) : State P D :=
  let s := s.setBuf b fun buf => { buf with refcnt := buf.refcnt - 1 }
  if (s.buf b).refcnt = 0 then
    { s with links := (s.links.unlink (some b)).linkFront none (some b) }
  else s

/-! ## log.c -/

/-- The loop of `log_write`: a block that is listed is not listed again. -/
def absorb (lh : List Nat) (blockno : Nat) : List Nat :=
  if blockno ∈ lh then lh else lh ++ [blockno]

def logWrite (s : State P D) (b : BufId) : Checked (State P D) :=
  if LOGSIZE ≤ s.log.lh.length ∨ s.log.size - 1 ≤ s.log.lh.length then
    .error (.panic "too big a transaction")
  else if s.log.outstanding < 1 then .error (.panic "log_write outside of trans")
  else
    .ok (State.setBuf { s with
      log := { s.log with lh := absorb s.log.lh (s.buf b).blockno }
      unsaved := update s.unsaved b false } b fun buf => { buf with dirty := true })

/-! ## Steps -/

inductive Event (P D : Type) where
  | bread (p : P) (dev blockno : Nat)
  /-- `acquiresleep` at the end of `bget` -/
  | lock (p : P)
  /-- `bread` looks at B_VALID -/
  | check (p : P)
  /-- the disk is done with the request of `p` -/
  | io (p : P)
  | modify (p : P) (b : BufId) (data : D)
  | logWrite (p : P) (b : BufId)
  | bwrite (p : P) (b : BufId)
  | brelse (p : P) (b : BufId)
  /-- `brelse` behind `releasesleep` -/
  | drop (p : P)
  | beginOp
  | endOp
  /-- `log.lh.n = 0` -/
  | clear

/-- The process has this buffer from a `bread` that has returned. -/
def Uses (s : State P D) (p : P) (b : BufId) : Prop :=
  s.act p = .ready ∧ (s.buf b).owner = some p

instance (s : State P D) : Decidable (Uses s p b) := inferInstanceAs (Decidable (_ ∧ _))

def Enabled (s : State P D) : Event P D → Prop
  | .bread p _ _ => s.act p = .ready
  | .lock p => match s.act p with
    | .locks _ _ b => (s.buf b).owner = none
    | _ => False
  | .check p => match s.act p with
    | .checks _ _ _ => True
    | _ => False
  | .io p => match s.act p with
    | .reads _ _ _ | .writes _ => True
    | _ => False
  | .modify p b _ | .bwrite p b => Uses s p b
  -- the log is that of ROOTDEV
  | .logWrite p b => Uses s p b ∧ (s.buf b).dev = ROOTDEV
  | .brelse p b => Uses s p b ∧ s.unsaved b = false
  | .drop p => match s.act p with
    | .drops _ => True
    | _ => False
  | .beginOp | .endOp | .clear => True

instance (s : State P D) (e : Event P D) : Decidable (Enabled s e) := by
  cases e <;> (unfold Enabled; dsimp only) <;> first | infer_instance | (split <;> infer_instance)

def perform (s : State P D) : Event P D → Checked (State P D)
  | .bread p dev blockno => breadBegin s p dev blockno
  | .lock p => match s.act p with
    | .locks dev blockno b =>
      .ok ((s.setBuf b fun buf => { buf with owner := some p }).goto p (.checks dev blockno b))
    | _ => .ok s
  | .check p => match s.act p with
    | .checks dev blockno b =>
      if (s.buf b).valid then .ok (s.goto p .ready)
      else do
        iderw s p b
        return s.goto p (.reads dev blockno b)
    | _ => .ok s
  | .io p => match s.act p with
    | .reads _ _ b | .writes b => .ok ((ideintr s b).goto p .ready)
    | _ => .ok s
  | .modify _ b data =>
    .ok (State.setBuf { s with unsaved := update s.unsaved b true } b
      fun buf => { buf with data := data })
  | .logWrite _ b => logWrite s b
  | .bwrite p b => bwrite s p b
  | .brelse p b => brelse s p b
  | .drop p => match s.act p with
    | .drops b => .ok ((brelseEnd s b).goto p .ready)
    | _ => .ok s
  | .beginOp => .ok { s with log := { s.log with outstanding := s.log.outstanding + 1 } }
  | .endOp => .ok { s with log := { s.log with outstanding := s.log.outstanding - 1 } }
  | .clear => .ok { s with log := { s.log with lh := [] } }

/-- The step with which a `bread` returns: its arguments and the buffer. -/
def breadReturns (s : State P D) : Event P D → Option (Nat × Nat × BufId)
  | .check p => match s.act p with
    | .checks dev blockno b => if (s.buf b).valid then some (dev, blockno, b) else none
    | _ => none
  | .io p => match s.act p with
    | .reads dev blockno b => some (dev, blockno, b)
    | _ => none
  | _ => none

end

/-- The kernel after `binit`, with the data the buffers happen to hold. -/
def start (P : Type) (size : Int) (havedisk1 : Bool) (disk : Nat → Nat → D) (junk : BufId → D) :
    State P D where
  buf b := { data := junk b }
  links := binit
  disk := disk
  havedisk1 := havedisk1
  log := { size := size }
  act _ := .ready
  unsaved _ := false

def system (P D : Type) [DecidableEq P] : System (State P D) (Event P D) where
  Init s := ∃ size havedisk1 disk junk, s = start P size havedisk1 disk junk
  Enabled := Enabled
  perform := perform

/-! ## The map -/

/-- The contents of the blocks of ROOTDEV as their users see them, and the listed
blocks that `bwrite` has written since they were last passed to `log_write`. -/
structure Ghost (D : Type) where
  store : Nat → D
  written : Nat → Bool

def note [DecidableEq P] (s : State P D) (e : Event P D) (_ : State P D) (g : Ghost D) : Ghost D :=
  match e with
  | .modify _ b data =>
    if (s.buf b).dev = ROOTDEV then
      { g with store := update g.store (s.buf b).blockno data }
    else g
  | .logWrite _ b => { g with written := update g.written (s.buf b).blockno false }
  | .io p => match s.act p with
    | .writes b =>
      if (s.buf b).dev = ROOTDEV then
        { g with written := update g.written (s.buf b).blockno true }
      else g
    | _ => g
  | _ => g

def mapped (P D : Type) [DecidableEq P] : System (State P D × Ghost D) (Event P D) :=
  (system P D).watch (fun s => ⟨s.disk ROOTDEV, fun _ => false⟩) note

instance [DecidableEq P] (s : State P D × Ghost D) (e : Event P D) :
    Decidable ((mapped P D).Enabled s e) :=
  inferInstanceAs (Decidable (Enabled s.1 e))

end Xv6.BufferCache
