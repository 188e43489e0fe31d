import Xv6.Param
import Xv6.LockProgram

/-! The inode, directory and path layers of fs.c, as programs over the shared
tables of the kernel.

A step is what runs under one spin lock or on fields that the held sleep-lock
protects. The in-memory copy of an inode is written through, so one record
stands for both copies; `ref` and `valid` exist in memory only. The cache is
keyed by inode number, as there is one device. File data, the block allocator
and the log are not part of this state; a directory is its list of entries.
`birth` and `clock` record the order in which inode numbers were allocated;
no code reads them. -/
namespace Xv6.FileSystem
open CheckedC LockProgram Function

/-- MAXFILE * BSIZE / sizeof(struct dirent) -/
abbrev DIRSLOTS : Nat := 4480

abbrev Inum := Fin NINODES
abbrev FileId := Fin NFILE
abbrev ProcId := Fin NPROC
abbrev PipeId := Nat

abbrev rootIno : Inum := OfNat.ofNat ROOTINO

inductive FileType where
  | free
  | dir
  | file
  | dev
  deriving DecidableEq, Repr

abbrev Name := List Char
abbrev Path := List Char

def dot : Name := ['.']
def dotdot : Name := ['.', '.']

structure Dirent where
  inum : Inum
  name : Name
  deriving DecidableEq

structure Dinode where
  type : FileType
  major : Int
  minor : Int
  nlink : Int
  deriving DecidableEq

structure Disk where
  dinode : Inum → Dinode
  entries : Inum → List Dirent
  birth : Inum → Nat
  clock : Nat

abbrev Disk.type (d : Disk) (i : Inum) : FileType := (d.dinode i).type
abbrev Disk.nlink (d : Disk) (i : Inum) : Int := (d.dinode i).nlink

inductive FileKind where
  | none
  | pipe (q : PipeId)
  | inode (i : Inum)
  deriving DecidableEq

structure File where
  ref : Int
  kind : FileKind
  readable : Bool
  writable : Bool
  deriving DecidableEq

structure Pipe where
  readopen : Bool
  writeopen : Bool
  deriving DecidableEq

/-- The states of a process slot; `alive` stands for RUNNABLE, RUNNING and SLEEPING. -/
inductive Life where
  | unused
  | embryo
  | alive
  | zombie
  deriving DecidableEq

structure Proc where
  life : Life
  parent : Option ProcId
  ofile : Fin NOFILE → Option FileId
  cwd : Option Inum

structure Fs where
  disk : Disk
  ref : Inum → Int
  valid : Inum → Bool
  file : FileId → File
  pipe : PipeId → Option Pipe
  proc : ProcId → Proc

/-- What a step is, where it matters which step it is. -/
inductive Note where
  | quiet
  | ilock (i : Inum)
  | iput (i : Inum)
  | free (i : Inum)
  | enter (dp : Inum) (name : Name) (inum : Inum)
  | opened (i : Inum) (writable : Bool)
  /-- `ialloc` takes its reference -/
  | claim (i : Inum) (type : FileType)
  deriving DecidableEq

abbrev FsWorld := World ProcId Inum Fs
abbrev Op := Prog Inum Note Fs

def look (f : Fs → α) : Op α := .act .quiet fun s => .ok (f s, s)

def change (f : Fs → Fs) : Op Unit := .act .quiet fun s => .ok ((), f s)

def panicIf (bad : Fs → Bool) (message : String) : Op Unit :=
  .act .quiet fun s => if bad s then .error (.panic message) else .ok ((), s)

/-! ## Changes of the tables -/

def Disk.setNlink (d : Disk) (i : Inum) (n : Int) : Disk :=
  { d with dinode := update d.dinode i { d.dinode i with nlink := n } }

def Disk.setDevice (d : Disk) (i : Inum) (major minor : Int) : Disk :=
  { d with dinode := update d.dinode i { d.dinode i with major := major, minor := minor } }

def Disk.setEntries (d : Disk) (i : Inum) (entries : List Dirent) : Disk :=
  { d with entries := update d.entries i entries }

/-- A free dinode is cleared and given a type. -/
def Disk.alloc (d : Disk) (i : Inum) (type : FileType) : Disk where
  dinode := update d.dinode i ⟨type, 0, 0, 0⟩
  entries := update d.entries i []
  birth := update d.birth i d.clock
  clock := d.clock + 1

/-- The content is truncated and the type set to 0. -/
def Disk.release (d : Disk) (i : Inum) : Disk :=
  { d with
    dinode := update d.dinode i { d.dinode i with type := .free }
    entries := update d.entries i [] }

/-- The number of entries of the inode cache that are in use. -/
def Fs.cached (s : Fs) : Nat :=
  ((List.finRange NINODES).filter fun i => decide (0 < s.ref i)).length

def Fs.addRef (s : Fs) (i : Inum) (n : Int) : Fs :=
  { s with ref := update s.ref i (s.ref i + n) }

def Fs.setValid (s : Fs) (i : Inum) (valid : Bool) : Fs :=
  { s with valid := update s.valid i valid }

def Fs.setFile (s : Fs) (f : FileId) (file : File) : Fs :=
  { s with file := update s.file f file }

def Fs.setPipe (s : Fs) (q : PipeId) (pipe : Option Pipe) : Fs :=
  { s with pipe := update s.pipe q pipe }

def Fs.setProc (s : Fs) (p : ProcId) (proc : Proc) : Fs :=
  { s with proc := update s.proc p proc }

def Fs.setSlot (s : Fs) (p : ProcId) (fd : Fin NOFILE) (f : Option FileId) : Fs :=
  s.setProc p { s.proc p with ofile := update (s.proc p).ofile fd f }

def Fs.setCwd (s : Fs) (p : ProcId) (i : Option Inum) : Fs :=
  s.setProc p { s.proc p with cwd := i }

def Fs.setLife (s : Fs) (p : ProcId) (life : Life) : Fs :=
  s.setProc p { s.proc p with life := life }

/-! ## Inodes -/

/-- An inode that is not referenced takes a cache entry, not yet read from disk. -/
def igetAs (note : Note) (i : Inum) : Op Unit :=
  .act note fun s =>
    if 0 < s.ref i then .ok ((), s.addRef i 1)
    else if s.cached < NINODE then
      .ok ((), ({ s with ref := update s.ref i 1 }).setValid i false)
    else .error (.panic "iget: no inodes")

def iget (i : Inum) : Op Unit := igetAs .quiet i

def idup (i : Inum) : Op Unit := change fun s => s.addRef i 1

def ilock (i : Inum) : Op Unit := do
  panicIf (fun s => decide (s.ref i < 1)) "ilock"
  .lock (.ilock i) i
  .act .quiet fun s =>
    if s.valid i then .ok ((), s)
    else if s.disk.type i = .free then .error (.panic "ilock: no type")
    else .ok ((), s.setValid i true)

def iunlock (i : Inum) : Op Unit := do
  panicIf (fun s => decide (s.ref i < 1)) "iunlock"
  .unlock i

/-- The part of `iput` for an inode without links: truncate and free it if there
is no other reference. -/
def freeLast (i : Inum) : Op Unit := do
  let r ← look fun s => s.ref i
  if r = 1 then
    .act (.free i) fun s => .ok ((), ({ s with disk := s.disk.release i }).setValid i false)
  else return ()

def iput (i : Inum) : Op Unit := do
  .lock (.iput i) i
  let gone ← look fun s => s.valid i && decide (s.disk.nlink i = 0)
  (if gone then freeLast i else return ())
  .unlock i
  change fun s => s.addRef i (-1)

def iunlockput (i : Inum) : Op Unit := do
  iunlock i
  iput i

/-- The first free dinode from 1 on. -/
def Disk.freeInum (d : Disk) : Option Inum :=
  (List.finRange NINODES).find? fun i => decide (i ≠ 0) && decide (d.type i = .free)

def ialloc (type : FileType) : Op Inum := do
  let i ← .act .quiet fun s =>
    match s.disk.freeInum with
    | some i => .ok (i, { s with disk := s.disk.alloc i type })
    | none => .error (.panic "ialloc: no inodes")
  igetAs (.claim i type) i
  return i

/-- Reading or writing the console gives up the inode's lock for the time being. -/
def console (i : Inum) : Op Unit := do
  iunlock i
  ilock i

/-- `readi` as far as locks go: only a device with a driver does more than read. -/
def readi (i : Inum) : Op Unit := do
  let ip ← look fun s => s.disk.dinode i
  (if ip.type = .dev ∧ ip.major = CONSOLE then console i else return ())

/-- `writei` on behalf of a user, with what the content would be as a directory.
Returns whether it did not fail. -/
def writei (i : Inum) (content : List Dirent) : Op Bool := do
  let ip ← look fun s => s.disk.dinode i
  match ip.type with
  | .dev => if ip.major = CONSOLE then do console i; return true else return false
  | .dir => do
    change fun s => { s with disk := s.disk.setEntries i content }
    return true
  | _ => return true

/-! ## Directories -/

/-- The slot and the inode of the first live entry with this name. -/
def lookup (name : Name) : List Dirent → Option (Nat × Inum)
  | [] => none
  | e :: es =>
    if e.inum ≠ 0 ∧ e.name = name then some (0, e.inum)
    else (lookup name es).map fun found => (found.1 + 1, found.2)

def dirlookup (dp : Inum) (name : Name) : Op (Option (Nat × Inum)) := do
  let found ← .act .quiet fun s =>
    if s.disk.type dp = .dir then .ok (lookup name (s.disk.entries dp), s)
    else .error (.panic "dirlookup not DIR")
  match found with
  | none => return none
  | some (off, inum) => do
    iget inum
    return some (off, inum)

/-- Write an entry into the first empty slot, or behind the last one. -/
def place (e : Dirent) : List Dirent → List Dirent
  | [] => [e]
  | d :: ds => if d.inum = 0 then e :: ds else d :: place e ds

def dirlink (dp : Inum) (name : Name) (inum : Inum) : Op Int := do
  let found ← dirlookup dp name
  match found with
  | some (_, ip) => do
    iput ip
    return -1
  | none => do
    .act (.enter dp name inum) fun s =>
      let entries := place ⟨inum, name⟩ (s.disk.entries dp)
      if entries.length ≤ DIRSLOTS then
        .ok ((), { s with disk := s.disk.setEntries dp entries })
      else .error (.panic "dirlink")
    return 0

/-! ## Paths -/

/-- The first element of a path, cut to DIRSIZ bytes, and the path behind it
without its leading slashes. -/
def skipelem (path : Path) : Option (Name × Path) :=
  let path := path.dropWhile (· = '/')
  if path = [] then none
  else
    some ((path.takeWhile (· ≠ '/')).take DIRSIZ,
      (path.dropWhile (· ≠ '/')).dropWhile (· = '/'))

/-- The elements `skipelem` yields one after another. -/
def elements : Nat → Path → List Name
  | 0, _ => []
  | fuel + 1, path =>
    match skipelem path with
    | none => []
    | some (name, rest) => name :: elements fuel rest

/-- The loop of `namex`. -/
def walk (nameiparent : Bool) : Inum → List Name → Op (Option (Inum × Name))
  | ip, [] =>
    if nameiparent then do
      iput ip
      return none
    else return some (ip, [])
  | ip, name :: rest => do
    ilock ip
    let type ← look fun s => s.disk.type ip
    if type ≠ .dir then do
      iunlockput ip
      return none
    else if nameiparent ∧ rest = [] then do
      iunlock ip
      return some (ip, name)
    else do
      let found ← dirlookup ip name
      match found with
      | none => do
        iunlockput ip
        return none
      | some (_, next) => do
        iunlockput ip
        walk nameiparent next rest

/-- `idup(myproc()->cwd)` -/
def idupCwd (p : ProcId) : Op Inum :=
  .act .quiet fun s =>
    match (s.proc p).cwd with
    | none => .error .null
    | some i => .ok (i, s.addRef i 1)

def namex (p : ProcId) (path : Path) (nameiparent : Bool) : Op (Option (Inum × Name)) := do
  let ip ← (if path.head? = some '/' then do iget rootIno; return rootIno else idupCwd p)
  walk nameiparent ip (elements path.length path)

def namei (p : ProcId) (path : Path) : Op (Option Inum) := do
  let found ← namex p path false
  return found.map (·.1)

def nameiparent (p : ProcId) (path : Path) : Op (Option (Inum × Name)) := namex p path true

end Xv6.FileSystem
