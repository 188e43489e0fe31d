import Xv6.Param
import Xv6.DiskProgram

/-! The redo log of `log.c`: the header block, the functions that copy blocks
between the cache, the log and their home locations, `commit` and
`recover_from_log`. A block is the 128 words that `struct logheader` lays over
its 512 bytes. A buffer that is not B_DIRTY agrees with the disk, so the cache is
represented by its B_DIRTY buffers alone. -/
namespace Xv6.RedoLog
open CheckedC DiskProgram DiskProgram.Prog Function

/-- A `uint blockno`; the header stores the same 32 bits in an `int`. -/
abbrev BlockNo := BitVec 32

instance : LawfulBEq BlockNo := inferInstance

abbrev Block := Fin 128 → BitVec 32

structure LogHeader where
  n : Int := 0
  block : Fin LOGSIZE → BlockNo := fun _ => 0

/-- `struct log` as far as `commit` and `recover_from_log` use it, with the
contents of the B_DIRTY buffers. -/
structure Log where
  start : BlockNo
  size : Int
  lh : LogHeader := {}
  dirty : BlockNo → Option Block := fun _ => none

abbrev LogM := Prog Log BlockNo Block

/-- The word of `lh->block[i]` in the header block; word 0 is `lh->n`. -/
def headerWord (i : Fin LOGSIZE) : Fin 128 := ⟨i + 1, Nat.lt_of_lt_of_le (Nat.succ_lt_succ i.isLt) (by decide)⟩

def headerCount (buf : Block) : Int := (buf 0).toInt

/-- `log.start + tail + 1`. -/
def logBlock (log : Log) (tail : Int) : BlockNo := log.start + BitVec.ofInt 32 tail + 1

/-! ## The buffer cache -/

def bread (b : BlockNo) : LogM Block := do
  let log ← getMem
  match log.dirty b with
  | some data => return data
  | none => readBlock b

/-- `bwrite`: the disk write clears B_DIRTY. -/
def bwrite (b : BlockNo) (data : Block) : LogM Unit := do
  writeBlock b data
  let log ← getMem
  setMem { log with dirty := update log.dirty b none }

/-! ## log.c -/

def installTrans : LogM Unit := do
  let log ← getMem
  Prog.forLoop 0 log.lh.n fun tail => do
    let lbuf ← bread (logBlock log tail)
    let dst ← check (load log.lh.block tail)
    let _ ← bread dst
    bwrite dst lbuf

/-- The loop of `read_head`. -/
def copyFromHeader (buf : Block) (n : Int) (block : Fin LOGSIZE → BlockNo) :
    Checked (Fin LOGSIZE → BlockNo) :=
  CheckedC.forLoop 0 n (fun i block => do
    let slot ← index LOGSIZE i
    return update block slot (buf (headerWord slot))) block

def readHead : LogM Unit := do
  let log ← getMem
  let buf ← bread log.start
  let block ← check (copyFromHeader buf (headerCount buf) log.lh.block)
  setMem { log with lh := { n := headerCount buf, block := block } }

/-- `hb->n = log.lh.n` and the loop of `write_head`; the words above stay as
they were on the disk. -/
def copyToHeader (lh : LogHeader) (buf : Block) : Checked Block :=
  CheckedC.forLoop 0 lh.n (fun i buf => do
    let slot ← index LOGSIZE i
    return update buf (headerWord slot) (lh.block slot))
    (update buf 0 (BitVec.ofInt 32 lh.n))

def writeHead : LogM Unit := do
  let log ← getMem
  let buf ← bread log.start
  let buf ← check (copyToHeader log.lh buf)
  bwrite log.start buf

def clearCount : LogM Unit := do
  let log ← getMem
  setMem { log with lh := { log.lh with n := 0 } }

def recoverFromLog : LogM Unit := do
  readHead
  installTrans
  clearCount
  writeHead

def writeLog : LogM Unit := do
  let log ← getMem
  Prog.forLoop 0 log.lh.n fun tail => do
    let _ ← bread (logBlock log tail)
    let src ← check (load log.lh.block tail)
    let data ← bread src
    bwrite (logBlock log tail) data

def commit : LogM Unit := do
  let log ← getMem
  if 0 < log.lh.n then do
    writeLog
    writeHead
    installTrans
    clearCount
    writeHead

end Xv6.RedoLog
