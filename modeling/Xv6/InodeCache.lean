import Xv6.StepSystem
import Xv6.BlockOwnership

/-! The inode cache of `fs.c` over the disks. Each call is one step, except `iput`,
which gives up `icache.lock` between its look at `ref` and the freeing, and between the
freeing and the drop of its reference: these are steps of their own, and other calls
run in between. The system calls change an inode directly only in `nlink`, and `create`
also in the device numbers, always under the lock and with `iupdate` next. -/
namespace Xv6.InodeCache
open CheckedC StepSystem DiskBlocks BlockOwnership Function

abbrev SlotId := Fin NINODE

/-- Who has the sleep-lock of an entry: nobody, a caller of `ilock`, or a call of
`iput` that is about to free the inode, has stored it as free, or is about to give the
lock up. -/
inductive Hold where
  | unlocked
  | locked
  | freeing
  | freed
  | parting
  deriving DecidableEq

/-- `leaving` counts the calls of `iput` that have given up the lock and not yet
dropped their reference; `copy` has the fields of the dinode. -/
structure Slot where
  dev : Nat := 0
  inum : Nat := 0
  ref : Nat := 0
  valid : Bool := false
  hold : Hold := .unlocked
  leaving : Nat := 0
  copy : Dinode := {}

structure Cache where
  slot : SlotId → Slot
  disk : Nat → Disk

def Cache.setSlot (s : Cache) (k : SlotId) (slot : Slot) : Cache :=
  { s with slot := update s.slot k slot }

def Cache.set (s : Cache) (k : SlotId) (slot : Slot) (d : Disk) : Cache where
  slot := update s.slot k slot
  disk := update s.disk slot.dev d

/-! ## The calls -/

def iget (s : Cache) (dev inum : Nat) : Checked (SlotId × Cache) :=
  match (List.finRange NINODE).find? fun k =>
      decide (0 < (s.slot k).ref ∧ (s.slot k).dev = dev ∧ (s.slot k).inum = inum) with
  | some k => .ok (k, s.setSlot k { s.slot k with ref := (s.slot k).ref + 1 })
  | none =>
    match (List.finRange NINODE).find? fun k => decide ((s.slot k).ref = 0) with
    | none => .error (.panic "iget: no inodes")
    | some k =>
      .ok (k, s.setSlot k { s.slot k with dev := dev, inum := inum, ref := 1, valid := false })

def ialloc (sb : Superblock) (s : Cache) (dev : Nat) (type : Int) : Checked (SlotId × Cache) :=
  match (List.range' 1 (sb.ninodes - 1)).find? fun inum =>
      decide (((s.disk dev).dinode inum).type = 0) with
  | none => .error (.panic "ialloc: no inodes")
  | some inum =>
    let d := (s.disk dev).setDinode inum { type := type }
    iget { s with disk := update s.disk dev d } dev inum

def idup (s : Cache) (k : SlotId) : Cache :=
  s.setSlot k { s.slot k with ref := (s.slot k).ref + 1 }

def ilock (s : Cache) (k : SlotId) : Checked Cache :=
  if (s.slot k).ref < 1 then .error (.panic "ilock")
  else if (s.slot k).valid then .ok (s.setSlot k { s.slot k with hold := .locked })
  else
    let dip := (s.disk (s.slot k).dev).dinode (s.slot k).inum
    if dip.type = 0 then .error (.panic "ilock: no type")
    else .ok (s.setSlot k { s.slot k with hold := .locked, copy := dip, valid := true })

def iunlock (s : Cache) (k : SlotId) : Checked Cache :=
  if (s.slot k).hold ≠ .locked ∨ (s.slot k).ref < 1 then .error (.panic "iunlock")
  else .ok (s.setSlot k { s.slot k with hold := .unlocked })

/-- `iput` up to the test of `r`. -/
def iputLock (s : Cache) (k : SlotId) : Cache :=
  let frees := (s.slot k).valid ∧ (s.slot k).copy.nlink = 0 ∧ (s.slot k).ref = 1
  s.setSlot k { s.slot k with hold := if frees then .freeing else .parting }

/-- `itrunc(ip); ip->type = 0; iupdate(ip);`. -/
def iputFree (sb : Superblock) (s : Cache) (k : SlotId) : Checked Cache := do
  let (d, ip) ← itrunc sb (s.disk (s.slot k).dev) (s.slot k).inum (s.slot k).copy
  let ip := { ip with type := 0 }
  return s.set k { s.slot k with hold := .freed, copy := ip } (iupdate d (s.slot k).inum ip)

/-- `ip->valid = 0;`. -/
def iputInvalidate (s : Cache) (k : SlotId) : Cache :=
  s.setSlot k { s.slot k with hold := .parting, valid := false }

def iputUnlock (s : Cache) (k : SlotId) : Cache :=
  s.setSlot k { s.slot k with hold := .unlocked, leaving := (s.slot k).leaving + 1 }

/-- `ip->ref--;`. -/
def iputDrop (s : Cache) (k : SlotId) : Cache :=
  s.setSlot k { s.slot k with ref := (s.slot k).ref - 1, leaving := (s.slot k).leaving - 1 }

def readEntry (sb : Superblock) (s : Cache) (k : SlotId) (off n : Nat) : Checked Cache := do
  let (_, d, ip) ← readi sb (s.disk (s.slot k).dev) (s.slot k).copy off n
  return s.set k { s.slot k with copy := ip } d

def writeEntry (sb : Superblock) (s : Cache) (k : SlotId) (off : Nat) (src : List UInt8) :
    Checked Cache := do
  let (_, d, ip) ← writei sb (s.disk (s.slot k).dev) (s.slot k).inum (s.slot k).copy off src
  return s.set k { s.slot k with copy := ip } d

/-- The changes of `create`, `sys_link` and `sys_unlink`, with the `iupdate` behind. -/
def changeEntry (s : Cache) (k : SlotId) (major minor nlink : Int) : Cache :=
  let ip := { (s.slot k).copy with major := major, minor := minor, nlink := nlink }
  s.set k { s.slot k with copy := ip }
    (iupdate (s.disk (s.slot k).dev) (s.slot k).inum ip)

/-! ## Runs -/

inductive Event where
  | iget (dev inum : Nat)
  | ialloc (dev : Nat) (type : Int)
  | idup (k : SlotId)
  | ilock (k : SlotId)
  | iunlock (k : SlotId)
  | iputLock (k : SlotId)
  | iputFree (k : SlotId)
  | iputInvalidate (k : SlotId)
  | iputUnlock (k : SlotId)
  | iputDrop (k : SlotId)
  | readi (k : SlotId) (off n : Nat)
  | writei (k : SlotId) (off : Nat) (src : List UInt8)
  | change (k : SlotId) (major minor nlink : Int)

/-- The caller has a reference of its own, and the lock is free. -/
def Slot.Lockable (slot : Slot) : Prop := slot.hold = .unlocked ∧ slot.leaving < slot.ref

instance {slot : Slot} : Decidable slot.Lockable := inferInstanceAs (Decidable (_ ∧ _))

/-- A caller has the reference or the lock its call asks for, inode numbers are those
of the table, and offsets and lengths are of type `uint`. -/
def Enabled (sb : Superblock) (s : Cache) : Event → Prop
  | .iget _ inum => inum < sb.ninodes
  | .ialloc _ _ => True
  | .idup k => 0 < (s.slot k).ref
  | .ilock k => (s.slot k).Lockable
  | .iunlock k => (s.slot k).hold = .locked
  | .iputLock k => (s.slot k).Lockable
  | .iputFree k => (s.slot k).hold = .freeing
  | .iputInvalidate k => (s.slot k).hold = .freed
  | .iputUnlock k => (s.slot k).hold = .parting
  | .iputDrop k => 0 < (s.slot k).leaving
  | .readi k off n => (s.slot k).hold = .locked ∧ off < 2 ^ 32 ∧ n < 2 ^ 32
  | .writei k off src => (s.slot k).hold = .locked ∧ off < 2 ^ 32 ∧ src.length < 2 ^ 32
  | .change k _ _ _ => (s.slot k).hold = .locked

instance {sb : Superblock} {s : Cache} (e : Event) : Decidable (Enabled sb s e) := by
  unfold Enabled
  split <;> infer_instance

def perform (sb : Superblock) (s : Cache) : Event → Checked Cache
  | .iget dev inum => do return (← iget s dev inum).2
  | .ialloc dev type => do return (← ialloc sb s dev type).2
  | .idup k => .ok (idup s k)
  | .ilock k => ilock s k
  | .iunlock k => iunlock s k
  | .iputLock k => .ok (iputLock s k)
  | .iputFree k => iputFree sb s k
  | .iputInvalidate k => .ok (iputInvalidate s k)
  | .iputUnlock k => .ok (iputUnlock s k)
  | .iputDrop k => .ok (iputDrop s k)
  | .readi k off n => readEntry sb s k off n
  | .writei k off src => writeEntry sb s k off src
  | .change k major minor nlink => .ok (changeEntry s k major minor nlink)

/-- Every block below the size of a file is there. -/
def Filled (sb : Superblock) (d : Disk) : Prop :=
  ∀ inum < sb.ninodes, (d.dinode inum).type ≠ 0 → ∀ bn, bn * BSIZE < (d.dinode inum).size →
    addrOf d.block (d.dinode inum) bn ≠ 0

/-- The cache after `iinit`, over disks with an image of the given kind. -/
def system (sb : Superblock) (Image : Disk → Prop) : System Cache Event where
  Init s := (∀ k, s.slot k = {}) ∧ ∀ dev, Image (s.disk dev)
  Enabled := Enabled sb
  perform := perform sb

/-! ## A small file system -/

def blankCache : Cache where
  slot _ := {}
  disk _ := blankDisk

theorem blankCache_init (image : Image blankDisk) :
    (system smallSuperblock Image).Init blankCache := ⟨fun _ => rfl, fun _ => image⟩

theorem filled_blankDisk : Filled smallSuperblock blankDisk := fun _ _ typed => absurd rfl typed

end Xv6.InodeCache
