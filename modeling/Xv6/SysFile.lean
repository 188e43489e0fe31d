import Xv6.FileSystem

/-! The file table, pipes, and the system calls of sysfile.c, exec.c and proc.c
that touch descriptors, working directories, inodes or directories.

What a call finds outside of this state is an argument of it: a path is `none`
if the user's pointer is bad, `page` is the page `kalloc` returns, and so on, so
that every outcome is covered. `begin_op` and `end_op` are left out. -/
namespace Xv6.SysFile
open CheckedC LockProgram FileSystem

/-! ## File table -/

def filealloc : Op (Option FileId) :=
  .act .quiet fun s =>
    match (List.finRange NFILE).find? fun f => decide ((s.file f).ref = 0) with
    | some f => .ok (some f, s.setFile f { s.file f with ref := 1 })
    | none => .ok (none, s)

def filedup (f : FileId) : Op Unit :=
  .act .quiet fun s =>
    if (s.file f).ref < 1 then .error (.panic "filedup")
    else .ok ((), s.setFile f { s.file f with ref := (s.file f).ref + 1 })

/-- The part of `fileclose` under the lock: a copy of the file if it was the last
reference. -/
def closeRef (f : FileId) : Op (Option File) :=
  .act .quiet fun s =>
    if (s.file f).ref < 1 then .error (.panic "fileclose")
    else if 0 < (s.file f).ref - 1 then
      .ok (none, s.setFile f { s.file f with ref := (s.file f).ref - 1 })
    else .ok (some (s.file f), s.setFile f { s.file f with ref := 0, kind := .none })

def closeEnd (p : Pipe) (writable : Bool) : Pipe :=
  if writable then { p with writeopen := false } else { p with readopen := false }

/-- A pipe closed at both ends is freed. -/
def leftOpen (p : Pipe) : Option Pipe := if p.readopen || p.writeopen then some p else none

def pipeclose (q : PipeId) (writable : Bool) : Op Unit :=
  .act .quiet fun s =>
    match s.pipe q with
    | none => .error .null
    | some p => .ok ((), s.setPipe q (leftOpen (closeEnd p writable)))

def fileclose (f : FileId) : Op Unit := do
  let last ← closeRef f
  match last with
  | none => return ()
  | some ff =>
    match ff.kind with
    | .pipe q => pipeclose q ff.writable
    | .inode i => iput i
    | .none => return ()

def fileread (f : FileId) : Op Int := do
  let ff ← look fun s => s.file f
  if ff.readable = false then return -1
  else
    match ff.kind with
    | .pipe _ => return 0
    | .inode i => do
      ilock i
      readi i
      iunlock i
      return 0
    | .none => do
      panicIf (fun _ => true) "fileread"
      return -1

/-- The chunks of one `filewrite`, each in its own transaction. -/
def writeChunks (i : Inum) : List (List Dirent) → Op Int
  | [] => return 0
  | content :: rest => do
    ilock i
    let wrote ← writei i content
    iunlock i
    if wrote then writeChunks i rest else return -1

def filewrite (f : FileId) (chunks : List (List Dirent)) : Op Int := do
  let ff ← look fun s => s.file f
  if ff.writable = false then return -1
  else
    match ff.kind with
    | .pipe _ => return 0
    | .inode i => writeChunks i chunks
    | .none => do
      panicIf (fun _ => true) "filewrite"
      return -1

def filestat (f : FileId) : Op Int := do
  let ff ← look fun s => s.file f
  match ff.kind with
  | .inode i => do
    ilock i
    iunlock i
    return 0
  | _ => return -1

/-- Both files of a new pipe, unless there is no page left. -/
def pipeInit (rf wf : FileId) (page : Option PipeId) : Op Bool :=
  .act .quiet fun s =>
    match page with
    | none => .ok (false, s)
    | some q =>
      if (s.pipe q).isSome then .ok (false, s)
      else
        let s := s.setPipe q (some ⟨true, true⟩)
        let s := s.setFile rf { s.file rf with kind := .pipe q, readable := true, writable := false }
        let s := s.setFile wf { s.file wf with kind := .pipe q, readable := false, writable := true }
        .ok (true, s)

def pipealloc (page : Option PipeId) : Op (Option (FileId × FileId)) := do
  let f0 ← filealloc
  match f0 with
  | none => return none
  | some rf => do
    let f1 ← filealloc
    match f1 with
    | none => do
      fileclose rf
      return none
    | some wf => do
      let allocated ← pipeInit rf wf page
      if allocated then return some (rf, wf)
      else do
        fileclose rf
        fileclose wf
        return none

/-! ## Descriptors -/

def argfd (p : ProcId) (fd : Int) : Op (Option (Fin NOFILE × FileId)) :=
  look fun s =>
    match index NOFILE fd with
    | .ok fd => ((s.proc p).ofile fd).map fun f => (fd, f)
    | .error _ => none

def fdalloc (p : ProcId) (f : FileId) : Op (Option (Fin NOFILE)) :=
  .act .quiet fun s =>
    match (List.finRange NOFILE).find? fun fd => decide ((s.proc p).ofile fd = none) with
    | some fd => .ok (some fd, s.setSlot p fd (some f))
    | none => .ok (none, s)

def clearSlot (p : ProcId) (fd : Fin NOFILE) : Op Unit := change fun s => s.setSlot p fd none

def sysDup (p : ProcId) (fd : Int) : Op Int := do
  let arg ← argfd p fd
  match arg with
  | none => return -1
  | some (_, f) => do
    let slot ← fdalloc p f
    match slot with
    | none => return -1
    | some new => do
      filedup f
      return new.val

def sysRead (p : ProcId) (fd : Int) : Op Int := do
  let arg ← argfd p fd
  match arg with
  | none => return -1
  | some (_, f) => fileread f

def sysWrite (p : ProcId) (fd : Int) (chunks : List (List Dirent)) : Op Int := do
  let arg ← argfd p fd
  match arg with
  | none => return -1
  | some (_, f) => filewrite f chunks

def sysFstat (p : ProcId) (fd : Int) : Op Int := do
  let arg ← argfd p fd
  match arg with
  | none => return -1
  | some (_, f) => filestat f

def sysClose (p : ProcId) (fd : Int) : Op Int := do
  let arg ← argfd p fd
  match arg with
  | none => return -1
  | some (slot, f) => do
    clearSlot p slot
    fileclose f
    return 0

def sysPipe (p : ProcId) (page : Option PipeId) : Op Int := do
  let pair ← pipealloc page
  match pair with
  | none => return -1
  | some (rf, wf) => do
    let fd0 ← fdalloc p rf
    match fd0 with
    | none => do
      fileclose rf
      fileclose wf
      return -1
    | some slot => do
      let fd1 ← fdalloc p wf
      match fd1 with
      | none => do
        clearSlot p slot
        fileclose rf
        fileclose wf
        return -1
      | some _ => return 0

/-! ## Names -/

def addNlink (i : Inum) (n : Int) : Op Unit :=
  change fun s => { s with disk := s.disk.setNlink i (s.disk.nlink i + n) }

/-- The end of `sys_link` when the new name could not be entered. -/
def undoLink (ip : Inum) : Op Int := do
  ilock ip
  addNlink ip (-1)
  iunlockput ip
  return -1

def sysLink (p : ProcId) (old new : Path) : Op Int := do
  let found ← namei p old
  match found with
  | none => return -1
  | some ip => do
    ilock ip
    let type ← look fun s => s.disk.type ip
    if type = .dir then do
      iunlockput ip
      return -1
    else do
      addNlink ip 1
      iunlock ip
      let parent ← nameiparent p new
      match parent with
      | none => undoLink ip
      | some (dp, name) => do
        ilock dp
        let linked ← dirlink dp name ip
        if linked < 0 then do
          iunlockput dp
          undoLink ip
        else do
          iunlockput dp
          iput ip
          return 0

def isdirempty (entries : List Dirent) : Bool := (entries.drop 2).all fun e => decide (e.inum = 0)

/-- `sys_unlink` with the directory and the inode locked. -/
def unlinkLocked (dp ip : Inum) (off : Nat) : Op Int := do
  panicIf (fun s => decide (s.disk.nlink ip < 1)) "unlink: nlink < 1"
  let type ← look fun s => s.disk.type ip
  let empty ← look fun s => isdirempty (s.disk.entries ip)
  if type = .dir ∧ empty = false then do
    iunlockput ip
    iunlockput dp
    return -1
  else do
    change fun s => { s with disk := s.disk.setEntries dp ((s.disk.entries dp).set off ⟨0, []⟩) }
    (if type = .dir then addNlink dp (-1) else return ())
    iunlockput dp
    addNlink ip (-1)
    iunlockput ip
    return 0

def sysUnlink (p : ProcId) (path : Path) : Op Int := do
  let parent ← nameiparent p path
  match parent with
  | none => return -1
  | some (dp, name) => do
    ilock dp
    if name = dot ∨ name = dotdot then do
      iunlockput dp
      return -1
    else do
      let found ← dirlookup dp name
      match found with
      | none => do
        iunlockput dp
        return -1
      | some (off, ip) => do
        ilock ip
        unlinkLocked dp ip off

/-- The new inode of `create`, entered into the locked directory `dp`. -/
def createNew (dp : Inum) (name : Name) (type : FileType) (major minor : Int) : Op Inum := do
  let ip ← ialloc type
  ilock ip
  change fun s => { s with disk := (s.disk.setDevice ip major minor).setNlink ip 1 }
  (if type = .dir then do
    addNlink dp 1
    let here ← dirlink ip dot ip
    panicIf (fun _ => decide (here < 0)) "create dots"
    let up ← dirlink ip dotdot dp
    panicIf (fun _ => decide (up < 0)) "create dots"
  else return ())
  let linked ← dirlink dp name ip
  panicIf (fun _ => decide (linked < 0)) "create: dirlink"
  iunlockput dp
  return ip

/-- Returns the inode locked. -/
def create (p : ProcId) (path : Path) (type : FileType) (major minor : Int) :
    Op (Option Inum) := do
  let parent ← nameiparent p path
  match parent with
  | none => return none
  | some (dp, name) => do
    ilock dp
    let found ← dirlookup dp name
    match found with
    | some (_, ip) => do
      iunlockput dp
      ilock ip
      let old ← look fun s => s.disk.type ip
      if type = .file ∧ old = .file then return some ip
      else do
        iunlockput ip
        return none
    | none => do
      let ip ← createNew dp name type major minor
      return some ip

/-- The first half of `sys_open`: the inode, locked. -/
def openInode (p : ProcId) (path : Path) (omode : BitVec 32) : Op (Option Inum) :=
  if omode &&& 0x200#32 ≠ 0 then create p path .file 0 0
  else do
    let found ← namei p path
    match found with
    | none => return none
    | some ip => do
      ilock ip
      let type ← look fun s => s.disk.type ip
      if type = .dir ∧ omode ≠ 0 then do
        iunlockput ip
        return none
      else return some ip

/-- `(omode & O_WRONLY) || (omode & O_RDWR)` -/
def writes (omode : BitVec 32) : Bool :=
  decide (omode &&& 1#32 ≠ 0) || decide (omode &&& 2#32 ≠ 0)

/-- `f->type = FD_INODE` and the fields after it. -/
def openFile (f : FileId) (ip : Inum) (omode : BitVec 32) : Op Unit :=
  .act (.opened ip (writes omode)) fun s => .ok ((), s.setFile f { s.file f with
    kind := .inode ip
    readable := decide (omode &&& 1#32 = 0)
    writable := writes omode })

def sysOpen (p : ProcId) (path : Path) (omode : BitVec 32) : Op Int := do
  let found ← openInode p path omode
  match found with
  | none => return -1
  | some ip => do
    let file ← filealloc
    match file with
    | none => do
      iunlockput ip
      return -1
    | some f => do
      let slot ← fdalloc p f
      match slot with
      | none => do
        fileclose f
        iunlockput ip
        return -1
      | some fd => do
        iunlock ip
        openFile f ip omode
        return fd.val

/-- `sys_mkdir` and `sys_mknod` -/
def sysMake (p : ProcId) (path : Path) (type : FileType) (major minor : Int) : Op Int := do
  let made ← create p path type major minor
  match made with
  | none => return -1
  | some ip => do
    iunlockput ip
    return 0

def sysMkdir (p : ProcId) (path : Path) : Op Int := sysMake p path .dir 0 0

def sysMknod (p : ProcId) (path : Path) (major minor : BitVec 32) : Op Int :=
  sysMake p path .dev (major.setWidth 16).toInt (minor.setWidth 16).toInt

/-- `iput(curproc->cwd)` -/
def iputCwd (p : ProcId) : Op Unit := do
  let cwd ← .act .quiet fun s =>
    match (s.proc p).cwd with
    | none => .error .null
    | some i => .ok (i, s)
  iput cwd

def sysChdir (p : ProcId) (path : Path) : Op Int := do
  let found ← namei p path
  match found with
  | none => return -1
  | some ip => do
    ilock ip
    let type ← look fun s => s.disk.type ip
    if type ≠ .dir then do
      iunlockput ip
      return -1
    else do
      iunlock ip
      iputCwd p
      change fun s => s.setCwd p (some ip)
      return 0

/-- The reads of the ELF and program headers and of the segments. -/
def readImage (ip : Inum) : Nat → Op Unit
  | 0 => return ()
  | reads + 1 => do
    readi ip
    readImage ip reads

/-- `exec` up to its last `iunlockput`, after which it touches memory only. -/
def exec (p : ProcId) (path : Path) (reads : Nat) (loads : Bool) : Op Int := do
  let found ← namei p path
  match found with
  | none => return -1
  | some ip => do
    ilock ip
    readImage ip reads
    iunlockput ip
    return (if loads then 0 else -1)

/-! ## Processes -/

def allocproc : Op (Option ProcId) :=
  .act .quiet fun s =>
    match (List.finRange NPROC).find? fun p => decide ((s.proc p).life = .unused) with
    | some np => .ok (some np, s.setLife np .embryo)
    | none => .ok (none, s)

/-- One turn of the loop of `fork` over the descriptors. -/
def forkSlot (p np : ProcId) (fd : Fin NOFILE) : Op Unit :=
  .act .quiet fun s =>
    match (s.proc p).ofile fd with
    | none => .ok ((), s)
    | some f =>
      if (s.file f).ref < 1 then .error (.panic "filedup")
      else
        .ok ((), (s.setFile f { s.file f with ref := (s.file f).ref + 1 }).setSlot np fd (some f))

def forkSlots (p np : ProcId) : List (Fin NOFILE) → Op Unit
  | [] => return ()
  | fd :: rest => do
    forkSlot p np fd
    forkSlots p np rest

def forkCwd (p np : ProcId) : Op Unit :=
  .act .quiet fun s =>
    match (s.proc p).cwd with
    | none => .error .null
    | some i => .ok ((), (s.addRef i 1).setCwd np (some i))

/-- The slot of the child stands for its pid. -/
def sysFork (p : ProcId) (memory : Bool) : Op Int := do
  let child ← allocproc
  match child with
  | none => return -1
  | some np =>
    if memory = false then do
      change fun s => s.setLife np .unused
      return -1
    else do
      change fun s => s.setProc np { s.proc np with parent := some p }
      forkSlots p np (List.finRange NOFILE)
      forkCwd p np
      change fun s => s.setLife np .alive
      return np.val

def closeAll (p : ProcId) : List (Fin NOFILE) → Op Unit
  | [] => return ()
  | fd :: rest => do
    let slot ← look fun s => (s.proc p).ofile fd
    (match slot with
      | none => return ()
      | some f => do
        fileclose f
        clearSlot p fd)
    closeAll p rest

def initproc : ProcId := 0

/-- The children are passed to init and the slot becomes a zombie. -/
def Fs.bury (s : Fs) (p : ProcId) : Fs :=
  let orphans : ProcId → Proc := fun q =>
    if (s.proc q).parent = some p then { s.proc q with parent := some initproc } else s.proc q
  ({ s with proc := orphans }).setLife p .zombie

def sysExit (p : ProcId) : Op Int := do
  panicIf (fun _ => decide (p = initproc)) "init exiting"
  closeAll p (List.finRange NOFILE)
  iputCwd p
  change fun s => s.setCwd p none
  change fun s => Fs.bury s p
  return 0

/-- A parent without a zombie child sleeps. -/
def sysWait (p : ProcId) (killed : Bool) : Op Int :=
  .act .quiet fun s =>
    let kids := (List.finRange NPROC).filter fun q => decide ((s.proc q).parent = some p)
    match kids.find? fun q => decide ((s.proc q).life = .zombie) with
    | some q => .ok (q.val, s.setProc q { s.proc q with life := .unused, parent := none })
    | none => if kids.isEmpty ∨ killed then .ok (-1, s) else .error .blocked

/-! ## The kernel -/

inductive Call where
  | fork (memory : Bool)
  | exit
  | wait (killed : Bool)
  | open (path : Option Path) (omode : BitVec 32)
  | dup (fd : Int)
  | read (fd : Int)
  | write (fd : Int) (chunks : List (List Dirent))
  | close (fd : Int)
  | fstat (fd : Int)
  | pipe (page : Option PipeId)
  | link (old new : Option Path)
  | unlink (path : Option Path)
  | mkdir (path : Option Path)
  | mknod (path : Option Path) (major minor : BitVec 32)
  | chdir (path : Option Path)
  | exec (path : Option Path) (reads : Nat) (loads : Bool)
  deriving DecidableEq

/-- A bad pointer for a path makes the call fail at once. -/
def withPath (path : Option Path) (call : Path → Op Int) : Op Int :=
  match path with
  | none => return -1
  | some path => call path

def program (p : ProcId) : Call → Op Int
  | .fork memory => sysFork p memory
  | .exit => sysExit p
  | .wait killed => sysWait p killed
  | .open path omode => withPath path fun path => sysOpen p path omode
  | .dup fd => sysDup p fd
  | .read fd => sysRead p fd
  | .write fd chunks => sysWrite p fd chunks
  | .close fd => sysClose p fd
  | .fstat fd => sysFstat p fd
  | .pipe page => sysPipe p page
  | .link old new => withPath old fun old => withPath new fun new => sysLink p old new
  | .unlink path => withPath path fun path => sysUnlink p path
  | .mkdir path => withPath path fun path => sysMkdir p path
  | .mknod path major minor => withPath path fun path => sysMknod p path major minor
  | .chdir path => withPath path fun path => sysChdir p path
  | .exec path reads loads => withPath path fun path => exec p path reads loads

def Ordinary (name : Name) : Prop := name ≠ dot ∧ name ≠ dotdot

instance (name : Name) : Decidable (Ordinary name) :=
  inferInstanceAs (Decidable (_ ∧ _))

/-- The entries of mkfs for the files from inode `inum` on. -/
def mkfsEntries : List Name → Nat → List Dirent
  | [], _ => []
  | name :: rest, inum => ⟨Fin.ofNat NINODES inum, name⟩ :: mkfsEntries rest (inum + 1)

/-- The image mkfs builds from the files with these names: the root directory
with its two dots, one entry a file, and free slots up to the end of a block. -/
def mkfs (files : List Name) : Disk where
  dinode i :=
    if i = rootIno then ⟨.dir, 0, 0, 1⟩
    else if 2 ≤ i.val ∧ i.val < 2 + files.length then ⟨.file, 0, 0, 1⟩
    else ⟨.free, 0, 0, 0⟩
  entries i :=
    if i = rootIno then
      ⟨rootIno, dot⟩ :: ⟨rootIno, dotdot⟩ :: mkfsEntries files 2 ++
        List.replicate (((2 + files.length) / 32 + 1) * 32 - (2 + files.length)) ⟨0, []⟩
    else []
  birth _ := 0
  clock := 1

/-- The first process, with the root as its working directory. -/
def boot (files : List Name) : Fs where
  disk := mkfs files
  ref i := if i = rootIno then 1 else 0
  valid _ := false
  file _ := ⟨0, .none, false, false⟩
  pipe _ := none
  proc p := ⟨if p = initproc then .alive else .unused, none, fun _ => none,
    if p = initproc then some rootIno else none⟩

/-- The kernel on any image mkfs builds. -/
def kernel : Kernel ProcId Inum Note Fs Call where
  Init s := ∃ files : List Name, (∀ name ∈ files, Ordinary name) ∧
    2 + files.length ≤ NINODES ∧ s = boot files
  Callable s p := (s.proc p).life = .alive
  program := program

instance (s : Fs) (p : ProcId) : Decidable (kernel.Callable s p) :=
  inferInstanceAs (Decidable ((s.proc p).life = .alive))

end Xv6.SysFile
