import Xv6.Param
import Xv6.AddressSpaces
import Xv6.StepSystem

/-! The system calls that take pages and give them back, each from its beginning to
its end: `fork`, `exec`, `sbrk`, `exit`, `wait` and `wait2`, and those that open and
close files, for the sake of the pipe buffers. -/
namespace Xv6.ProcMemory
open CheckedC BlockPool PageTables StepSystem Function

abbrev Pid := Fin NPROC
abbrev FileId := Fin NFILE

/-- `runnable` stands for RUNNABLE, RUNNING and SLEEPING. -/
inductive ProcState where
  | unused
  | embryo
  | runnable
  | zombie
  deriving DecidableEq

structure Proc where
  state : ProcState := .unused
  kstack : Option Page := none
  pgdir : Option Page := none
  sz : Nat := 0
  parent : Option Pid := none
  killed : Bool := false
  ofile : Fin NOFILE → Option FileId := fun _ => none

inductive FileType where
  | none
  | pipe
  | inode
  deriving DecidableEq

structure File where
  type : FileType := .none
  ref : Int := 0
  writable : Bool := false
  pipe : Page := 0

structure Pipe where
  readopen : Bool := false
  writeopen : Bool := false

structure State where
  memory : Memory
  proc : Pid → Proc
  file : FileId → File
  /-- the two flags in the page of a pipe -/
  pipe : Page → Pipe
  kpgdir : Page
  /-- the scheduler stacks of the other processors -/
  cpuStacks : List Page
  initproc : Pid

def State.setProc (s : State) (p : Pid) (pr : Proc) : State :=
  { s with proc := update s.proc p pr }

def State.setFile (s : State) (f : FileId) (file : File) : State :=
  { s with file := update s.file f file }

/-! ## file.c and pipe.c -/

def filealloc (s : State) : Option FileId × State :=
  match (List.finRange NFILE).find? fun f => (s.file f).ref == 0 with
  | some f => (some f, s.setFile f { s.file f with ref := 1 })
  | none => (none, s)

def filedup (s : State) (f : FileId) : Checked State :=
  if (s.file f).ref < 1 then .error (.panic "filedup")
  else .ok (s.setFile f { s.file f with ref := (s.file f).ref + 1 })

def pipeclose (s : State) (p : Page) (writable : Bool) : Checked State :=
  let pipe := if writable then { s.pipe p with writeopen := false }
    else { s.pipe p with readopen := false }
  let s := { s with pipe := update s.pipe p pipe }
  if pipe.readopen = false ∧ pipe.writeopen = false then do
    let m ← kfree s.memory p
    return { s with memory := m }
  else return s

def fileclose (s : State) (f : FileId) : Checked State :=
  let ff := s.file f
  if ff.ref < 1 then .error (.panic "fileclose")
  else if 0 < ff.ref - 1 then .ok (s.setFile f { ff with ref := ff.ref - 1 })
  else
    let s := s.setFile f { ff with ref := 0, type := .none }
    if ff.type = .pipe then pipeclose s ff.pipe ff.writable else .ok s

def pipealloc (s : State) : Checked (Option (FileId × FileId) × State) :=
  match filealloc s with
  | (none, s) => .ok (none, s)
  | (some f0, s) => match filealloc s with
    | (none, s) => do
      let s ← fileclose s f0
      return (none, s)
    | (some f1, s) => match kalloc s.memory with
      | (none, m) => do
        let s ← fileclose { s with memory := m } f0
        let s ← fileclose s f1
        return (none, s)
      | (some p, m) =>
        let s := { s with memory := m, pipe := update s.pipe p ⟨true, true⟩ }
        let s := s.setFile f0 { s.file f0 with type := .pipe, writable := false, pipe := p }
        .ok (some (f0, f1), s.setFile f1 { s.file f1 with type := .pipe, writable := true, pipe := p })

/-! ## sysfile.c -/

def fdalloc (s : State) (p : Pid) (f : FileId) : Option (Fin NOFILE) × State :=
  match (List.finRange NOFILE).find? fun fd => ((s.proc p).ofile fd).isNone with
  | some fd =>
    (some fd, s.setProc p { s.proc p with ofile := update (s.proc p).ofile fd (some f) })
  | none => (none, s)

def clearFd (s : State) (p : Pid) (fd : Fin NOFILE) : State :=
  s.setProc p { s.proc p with ofile := update (s.proc p).ofile fd none }

def argfd (s : State) (p : Pid) (fd : Nat) : Option (Fin NOFILE × FileId) :=
  if inside : fd < NOFILE then ((s.proc p).ofile ⟨fd, inside⟩).map fun f => (⟨fd, inside⟩, f)
  else none

def sys_pipe (s : State) (p : Pid) : Checked (Bool × State) := do
  match ← pipealloc s with
  | (none, s) => return (false, s)
  | (some (rf, wf), s) => match fdalloc s p rf with
    | (none, s) => do
      let s ← fileclose s rf
      let s ← fileclose s wf
      return (false, s)
    | (some fd0, s) => match fdalloc s p wf with
      | (none, s) => do
        let s ← fileclose (clearFd s p fd0) rf
        let s ← fileclose s wf
        return (false, s)
      | (some _, s) => return (true, s)

def sys_close (s : State) (p : Pid) (fd : Nat) : Checked (Bool × State) :=
  match argfd s p fd with
  | none => .ok (false, s)
  | some (fd, f) => do
    let s ← fileclose (clearFd s p fd) f
    return (true, s)

def sys_dup (s : State) (p : Pid) (fd : Nat) : Checked (Bool × State) :=
  match argfd s p fd with
  | none => .ok (false, s)
  | some (_, f) => match fdalloc s p f with
    | (none, s) => .ok (false, s)
    | (some _, s) => do
      let s ← filedup s f
      return (true, s)

/-- What `sys_open` does to the tables once it has its inode. -/
def sys_open (s : State) (p : Pid) (writable : Bool) : Checked (Bool × State) :=
  match filealloc s with
  | (none, s) => .ok (false, s)
  | (some f, s) => match fdalloc s p f with
    | (none, s) => do
      let s ← fileclose s f
      return (false, s)
    | (some _, s) => .ok (true, s.setFile f { s.file f with type := .inode, writable := writable })

/-! ## proc.c -/

def allocproc (s : State) : Option Pid × State :=
  match (List.finRange NPROC).find? fun p => (s.proc p).state == .unused with
  | none => (none, s)
  | some p => match kalloc s.memory with
    | (none, m) => (none, { s with memory := m }.setProc p { s.proc p with kstack := none })
    | (some kstack, m) =>
      (some p, { s with memory := m }.setProc p
        { s.proc p with state := .embryo, kstack := some kstack })

def dupFiles (p np : Pid) : State → List (Fin NOFILE) → Checked State
  | s, [] => .ok s
  | s, fd :: rest => match (s.proc p).ofile fd with
    | none => dupFiles p np s rest
    | some f => do
      let s ← filedup s f
      dupFiles p np (s.setProc np { s.proc np with
        ofile := update (s.proc np).ofile fd (some f) }) rest

def fork (kmap : List Kmap) (s : State) (p : Pid) : Checked (Bool × State) :=
  match allocproc s with
  | (none, s) => .ok (false, s)
  | (some np, s) => do
    let pgdir ← deref (s.proc p).pgdir
    match ← copyuvm kmap s.memory pgdir (s.proc p).sz with
    | (none, m) => do
      let kstack ← deref (s.proc np).kstack
      let m ← kfree m kstack
      return (false, { s with memory := m }.setProc np
        { s.proc np with pgdir := none, kstack := none, state := .unused })
    | (some d, m) => do
      let s := { s with memory := m }.setProc np
        { s.proc np with pgdir := some d, sz := (s.proc p).sz, parent := some p }
      let s ← dupFiles p np s (List.finRange NOFILE)
      return (true, s.setProc np { s.proc np with state := .runnable })

def growproc (s : State) (p : Pid) (n : Int) : Checked (Bool × State) := do
  let pgdir ← deref (s.proc p).pgdir
  let sz := (s.proc p).sz
  let newsz := ((sz + n) % 0x100000000).toNat
  if 0 < n then
    let (sz, m) ← allocuvm s.memory pgdir sz newsz
    if sz = 0 then return (false, { s with memory := m })
    else return (true, { s with memory := m }.setProc p { s.proc p with sz := sz })
  else if n < 0 then
    let (sz, m) ← deallocuvm s.memory pgdir sz newsz
    if sz = 0 then return (false, { s with memory := m })
    else return (true, { s with memory := m }.setProc p { s.proc p with sz := sz })
  else return (true, s)

/-- The loop of `exit` over the open files. -/
def closeFiles (p : Pid) : State → List (Fin NOFILE) → Checked State
  | s, [] => .ok s
  | s, fd :: rest => match (s.proc p).ofile fd with
    | none => closeFiles p s rest
    | some f => do
      let s ← fileclose s f
      closeFiles p (clearFd s p fd) rest

def adopt (p initproc : Pid) (pr : Proc) : Proc :=
  if pr.parent = some p then { pr with parent := some initproc } else pr

def exit (s : State) (p : Pid) : Checked (Bool × State) :=
  if p = s.initproc then .error (.panic "init exiting")
  else do
    let s ← closeFiles p s (List.finRange NOFILE)
    let s := { s with proc := fun q => adopt p s.initproc (s.proc q) }
    return (true, s.setProc p { s.proc p with state := .zombie })

/-- `wait`, and `wait2` as far as it does the same. -/
def wait (s : State) (p : Pid) : Checked (Bool × State) :=
  match (List.finRange NPROC).find? fun q =>
      (s.proc q).parent == some p && (s.proc q).state == .zombie with
  | some q => do
    let kstack ← deref (s.proc q).kstack
    let m ← kfree s.memory kstack
    let pgdir ← deref (s.proc q).pgdir
    let m ← freevm m pgdir
    return (true, { s with memory := m }.setProc q
      { s.proc q with kstack := none, parent := none, killed := false, state := .unused })
  | none =>
    if (∀ q, (s.proc q).parent ≠ some p) ∨ (s.proc p).killed = true then .ok (false, s)
    else .error .blocked

/-! ## exec.c -/

structure Proghdr where
  /-- the type is ELF_PROG_LOAD -/
  load : Bool
  vaddr : Nat
  memsz : Nat
  filesz : Nat
  /-- the addresses for which `readi` delivers -/
  reads : Nat → Bool

/-- What `exec` finds in the file. -/
structure Image where
  found : Bool
  header : Bool
  /-- the program headers; `none` for one that cannot be read -/
  phdrs : List (Option Proghdr)
  /-- the arguments are copied to the stack without failure; the bytes are in `CopyOut` -/
  args : Bool

/-- The loop of `exec` over the program headers: the size, or `none` for `bad`. -/
def loadSegments (pgdir : Page) : Memory → Nat → List (Option Proghdr) → Checked (Option Nat × Memory)
  | m, sz, [] => .ok (some sz, m)
  | m, _, none :: _ => .ok (none, m)
  | m, sz, some ph :: rest =>
    if ph.load = false then loadSegments pgdir m sz rest
    else if ph.memsz < ph.filesz then .ok (none, m)
    else if uint (ph.vaddr + ph.memsz) < ph.vaddr then .ok (none, m)
    else do
      let (sz, m) ← allocuvm m pgdir sz (uint (ph.vaddr + ph.memsz))
      if sz = 0 then return (none, m)
      else if ph.vaddr % PGSIZE ≠ 0 then return (none, m)
      else
        let loaded ← loaduvm m pgdir ph.reads (pagesTo ph.vaddr (ph.vaddr + ph.filesz))
        if loaded then loadSegments pgdir m sz rest else return (none, m)

/-- The two pages above the program, and the arguments. -/
def setupStack (pgdir : Page) (m : Memory) (sz : Nat) (args : Bool) :
    Checked (Option Nat × Memory) := do
  let sz := PGROUNDUP sz
  let (sz, m) ← allocuvm m pgdir sz (uint (sz + 2 * PGSIZE))
  if sz = 0 then return (none, m)
  else
    let m ← clearpteu m pgdir (sz - 2 * PGSIZE)
    if args then return (some sz, m) else return (none, m)

/-- `exec` as far as it commits: the new directory and its size. -/
def execImage (kmap : List Kmap) (m : Memory) (image : Image) :
    Checked (Option (Page × Nat) × Memory) := do
  match ← setupkvm kmap m with
  | (none, m) => return (none, m)
  | (some pgdir, m) =>
    match ← loadSegments pgdir m 0 image.phdrs with
    | (none, m) => do
      let m ← freevm m pgdir
      return (none, m)
    | (some sz, m) =>
      match ← setupStack pgdir m sz image.args with
      | (none, m) => do
        let m ← freevm m pgdir
        return (none, m)
      | (some sz, m) => return (some (pgdir, sz), m)

def exec (kmap : List Kmap) (s : State) (p : Pid) (image : Image) : Checked (Bool × State) :=
  if image.found = false ∨ image.header = false then .ok (false, s)
  else do
    match ← execImage kmap s.memory image with
    | (none, m) => return (false, { s with memory := m })
    | (some (pgdir, sz), m) => do
      let oldpgdir ← deref (s.proc p).pgdir
      let m ← freevm m oldpgdir
      return (true, { s with memory := m }.setProc p
        { s.proc p with pgdir := some pgdir, sz := sz })

/-! ## Boot -/

def userinit (kmap : List Kmap) (s : State) : Checked State :=
  match allocproc s with
  | (none, _) => .error .null
  | (some p, s) => do
    match ← setupkvm kmap s.memory with
    | (none, _) => .error (.panic "userinit: out of memory?")
    | (some pgdir, m) => do
      let m ← inituvm m pgdir
      return { s with memory := m, initproc := p }.setProc p
        { s.proc p with pgdir := some pgdir, sz := PGSIZE, state := .runnable }

/-- A stack for each of the other processors. -/
def startothers : Memory → Nat → Checked (List Page × Memory)
  | m, 0 => .ok ([], m)
  | m, cpus + 1 => match kalloc m with
    | (none, _) => .error .null
    | (some stack, m) => do
      let (cpuStacks, m) ← startothers m cpus
      return (stack :: cpuStacks, m)

/-- What a machine is: the linker's and the loader's choices, the memory that
`kinit1` and `kinit2` are given, and the number of other processors. -/
structure Machine where
  kmap : List Kmap
  ram : Page → Words
  kernelEnd : Nat
  middle : Nat
  top : Nat
  cpus : Nat

/-- The pages handed to the allocator. -/
def Machine.handed (mach : Machine) : List Page :=
  rangePages mach.kernelEnd mach.middle ++ rangePages mach.middle mach.top

def unpopulated (m : Memory) (kpgdir : Page) (cpuStacks : List Page) : State where
  memory := m
  proc _ := {}
  file _ := {}
  pipe _ := {}
  kpgdir := kpgdir
  cpuStacks := cpuStacks
  initproc := 0

def Machine.boot (mach : Machine) : Checked State := do
  let m ← freerange { freelist := [], contents := mach.ram, kernelEnd := mach.kernelEnd }
    mach.kernelEnd mach.middle
  match ← setupkvm mach.kmap m with
  | (none, _) => .error .null
  | (some kpgdir, m) => do
    let (cpuStacks, m) ← startothers m mach.cpus
    let m ← freerange m mach.middle mach.top
    userinit mach.kmap (unpopulated m kpgdir cpuStacks)

/-! ## Calls -/

inductive Call where
  | fork
  | exec (image : Image)
  | sbrk (n : Int)
  | exit
  | wait
  | wait2
  | pipe
  | close (fd : Nat)
  | dup (fd : Nat)
  | openFile (writable : Bool)

/-- The state after a call, and whether it has succeeded. -/
def call (kmap : List Kmap) (s : State) (p : Pid) : Call → Checked (Bool × State)
  | .fork => fork kmap s p
  | .exec image => exec kmap s p image
  | .sbrk n => growproc s p n
  | .exit => exit s p
  | .wait | .wait2 => wait s p
  | .pipe => sys_pipe s p
  | .close fd => sys_close s p fd
  | .dup fd => sys_dup s p fd
  | .openFile writable => sys_open s p writable

def State.refusing (s : State) (refuses : List Bool) : State :=
  { s with memory := { s.memory with refuses := refuses } }

inductive Event where
  | call (p : Pid) (call : Call) (refuses : List Bool)
  | kill (p : Pid)

def Enabled (s : State) : Event → Prop
  | .call p _ _ => (s.proc p).state = .runnable
  | .kill _ => True

instance (s : State) (e : Event) : Decidable (Enabled s e) := by
  cases e <;> (unfold Enabled; infer_instance)

def perform (kmap : List Kmap) (s : State) : Event → Checked State
  | .call p c refuses => do
    let (_, s) ← call kmap (s.refusing refuses) p c
    return s
  | .kill p => .ok (s.setProc p { s.proc p with killed := true })

def system (mach : Machine) : System State Event where
  Init s := mach.boot = .ok s
  Enabled := Enabled
  perform := perform mach.kmap

instance (mach : Machine) (s : State) (e : Event) : Decidable ((system mach).Enabled s e) :=
  inferInstanceAs (Decidable (Enabled s e))

end Xv6.ProcMemory
