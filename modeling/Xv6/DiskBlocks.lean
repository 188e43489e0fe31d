import Mathlib.Data.Fintype.Basic
import Mathlib.Data.List.FinRange
import Xv6.Param
import Xv6.CheckedC
import Xv6.ByteStore

/-! Blocks and inode contents of `fs.c`: the allocator on the bitmap, the block map with
its indirect block, truncation, reading and writing. The disk is kept by what the
blocks are for: the bytes of the bitmap, the table of dinodes, and the blocks that
numbers in inodes name. Using a number outside the data area as one of the latter is a
fault. -/
namespace Xv6.DiskBlocks
open CheckedC ByteStore Function

abbrev NDIRECT : Nat := 12
abbrev NINDIRECT : Nat := BSIZE / 4
abbrev MAXFILE : Nat := NDIRECT + NINDIRECT
abbrev BPB : Nat := BSIZE * 8
def T_DIR : Int := 1
def T_FILE : Int := 2
def T_DEV : Int := 3

structure Superblock where
  size : Nat
  nblocks : Nat
  ninodes : Nat
  nlog : Nat
  logstart : Nat
  inodestart : Nat
  bmapstart : Nat
  deriving DecidableEq

def Superblock.start (sb : Superblock) : Nat := sb.bmapstart + sb.size / BPB + 1

def Superblock.Area (sb : Superblock) (b : Nat) : Prop := sb.start ≤ b ∧ b < sb.size

instance {sb : Superblock} : Decidable (sb.Area b) := inferInstanceAs (Decidable (_ ∧ _))

/-- The fields that `struct dinode` and `struct inode` have in common. -/
structure Dinode where
  type : Int := 0
  major : Int := 0
  minor : Int := 0
  nlink : Int := 0
  size : Nat := 0
  addrs : Fin (NDIRECT + 1) → Nat := fun _ => 0
  deriving DecidableEq

def indirect : Fin (NDIRECT + 1) := Fin.last NDIRECT

structure Disk where
  bitmap : Nat → BitVec 8
  dinode : Nat → Dinode
  block : Nat → Bytes

def Disk.setDinode (d : Disk) (inum : Nat) (dip : Dinode) : Disk :=
  { d with dinode := update d.dinode inum dip }

def Dinode.setAddr (ip : Dinode) (k : Fin (NDIRECT + 1)) (addr : Nat) : Dinode :=
  { ip with addrs := update ip.addrs k addr }

def bread (sb : Superblock) (d : Disk) (b : Nat) : Checked Bytes :=
  if sb.Area b then .ok (d.block b) else .error (.index b)

/-- A change of the buffer of block `b`, logged. -/
def logWrite (sb : Superblock) (d : Disk) (b : Nat) (data : Bytes) : Checked Disk :=
  if sb.Area b then .ok { d with block := update d.block b data } else .error (.index b)

/-! ## Blocks -/

/-- `m = 1 << (bi % 8)`. -/
def mask (b : Nat) : BitVec 8 := 1#8 <<< (b % 8)

/-- Byte `bi/8` of block `BBLOCK(b, sb)` is byte `b/8` of the bitmap. -/
def Disk.bit (d : Disk) (b : Nat) : Bool := d.bitmap (b / 8) &&& mask b ≠ 0#8

def Disk.setBit (d : Disk) (b : Nat) : Disk :=
  { d with bitmap := update d.bitmap (b / 8) (d.bitmap (b / 8) ||| mask b) }

def Disk.clearBit (d : Disk) (b : Nat) : Disk :=
  { d with bitmap := update d.bitmap (b / 8) (d.bitmap (b / 8) &&& ~~~ mask b) }

def bzero (sb : Superblock) (d : Disk) (b : Nat) : Checked Disk := logWrite sb d b fun _ => 0

/-- The two loops of `balloc` look at the blocks below `sb.size` in order. -/
def balloc (sb : Superblock) (d : Disk) : Checked (Nat × Disk) :=
  match (List.range sb.size).find? fun b => !d.bit b with
  | none => .error (.panic "balloc: out of blocks")
  | some b => do
    let d ← bzero sb (d.setBit b) b
    return (b, d)

def bfree (d : Disk) (b : Nat) : Checked Disk :=
  if d.bit b then .ok (d.clearBit b) else .error (.panic "freeing free block")

/-! ## The block map -/

/-- `a[j]` of an indirect block. -/
def entry (a : Bytes) (j : Nat) : Nat := load a (4 * j) 4

def setEntry (a : Bytes) (j addr : Nat) : Bytes := store a (4 * j) 4 addr

/-- `if((addr = ip->addrs[k]) == 0) ip->addrs[k] = addr = balloc(ip->dev)`. -/
def bmapSlot (sb : Superblock) (d : Disk) (ip : Dinode) (k : Fin (NDIRECT + 1)) :
    Checked (Nat × Disk × Dinode) :=
  if ip.addrs k = 0 then do
    let (addr, d) ← balloc sb d
    return (addr, d, ip.setAddr k addr)
  else return (ip.addrs k, d, ip)

/-- The part of `bmap` behind the direct blocks, with the indirect block at `addr`. -/
def bmapEntry (sb : Superblock) (d : Disk) (addr j : Nat) : Checked (Nat × Disk) := do
  let a ← bread sb d addr
  if entry a j = 0 then do
    let (new, d) ← balloc sb d
    let d ← logWrite sb d addr (setEntry a j new)
    return (new, d)
  else return (entry a j, d)

def bmap (sb : Superblock) (d : Disk) (ip : Dinode) (bn : Nat) : Checked (Nat × Disk × Dinode) :=
  if direct : bn < NDIRECT then bmapSlot sb d ip ⟨bn, Nat.lt_succ_of_lt direct⟩
  else if bn - NDIRECT < NINDIRECT then do
    let (addr, d, ip) ← bmapSlot sb d ip indirect
    let (addr, d) ← bmapEntry sb d addr (bn - NDIRECT)
    return (addr, d, ip)
  else .error (.panic "bmap: out of range")

/-! ## Truncation -/

def iupdate (d : Disk) (inum : Nat) (ip : Dinode) : Disk := d.setDinode inum ip

/-- `if(ip->addrs[k]){ bfree(ip->dev, ip->addrs[k]); ip->addrs[k] = 0; }`. -/
def freeSlot (s : Disk × Dinode) (k : Fin (NDIRECT + 1)) : Checked (Disk × Dinode) :=
  if s.2.addrs k ≠ 0 then do
    let d ← bfree s.1 (s.2.addrs k)
    return (d, s.2.setAddr k 0)
  else .ok s

def freeEntry (a : Bytes) (d : Disk) (j : Nat) : Checked Disk :=
  if entry a j ≠ 0 then bfree d (entry a j) else .ok d

def freeEntries (sb : Superblock) (d : Disk) (ip : Dinode) : Checked Disk :=
  if ip.addrs indirect ≠ 0 then do
    let a ← bread sb d (ip.addrs indirect)
    (List.range NINDIRECT).foldlM (freeEntry a) d
  else .ok d

def itrunc (sb : Superblock) (d : Disk) (inum : Nat) (ip : Dinode) : Checked (Disk × Dinode) := do
  let (d, ip) ← ((List.finRange NDIRECT).map Fin.castSucc).foldlM freeSlot (d, ip)
  let d ← freeEntries sb d ip
  let (d, ip) ← freeSlot (d, ip) indirect
  let ip := { ip with size := 0 }
  return (iupdate d inum ip, ip)

/-! ## Reading and writing -/

/-- The loop of `readi` from `off` on, with `n` bytes to go; every turn reads at least
one byte, so `n` turns suffice. -/
def readLoop (sb : Superblock) : Nat → Disk → Dinode → Nat → Nat → List UInt8 →
    Checked (List UInt8 × Disk × Dinode)
  | _, d, ip, _, 0, dst => .ok (dst, d, ip)
  | 0, _, _, _, _ + 1, _ => .error .blocked
  | turns + 1, d, ip, off, n + 1, dst => do
    let (addr, d, ip) ← bmap sb d ip (off / BSIZE)
    let data ← bread sb d addr
    let m := min (n + 1) (BSIZE - off % BSIZE)
    readLoop sb turns d ip (off + m) (n + 1 - m) (dst ++ slice data (off % BSIZE) m)

/-- `readi`; the null result is -1. What a device gives is not modelled. -/
def readi (sb : Superblock) (d : Disk) (ip : Dinode) (off n : Nat) :
    Checked (Option (List UInt8) × Disk × Dinode) :=
  if ip.type = T_DEV then .ok (none, d, ip)
  else if ip.size < off ∨ (off + n) % 2 ^ 32 < off then .ok (none, d, ip)
  else do
    let n := if ip.size < (off + n) % 2 ^ 32 then ip.size - off else n
    let (dst, d, ip) ← readLoop sb n d ip off n []
    return (some dst, d, ip)

/-- The loop of `writei` from `off` on, with the bytes of `src` to go. -/
def writeLoop (sb : Superblock) : Nat → Disk → Dinode → Nat → List UInt8 →
    Checked (Nat × Disk × Dinode)
  | _, d, ip, off, [] => .ok (off, d, ip)
  | 0, _, _, _, _ :: _ => .error .blocked
  | turns + 1, d, ip, off, byte :: src => do
    let (addr, d, ip) ← bmap sb d ip (off / BSIZE)
    let data ← bread sb d addr
    let m := min (byte :: src).length (BSIZE - off % BSIZE)
    let d ← logWrite sb d addr (put data (off % BSIZE) ((byte :: src).take m))
    writeLoop sb turns d ip (off + m) ((byte :: src).drop m)

/-- `writei`, with the number it returns. -/
def writei (sb : Superblock) (d : Disk) (inum : Nat) (ip : Dinode) (off : Nat)
    (src : List UInt8) : Checked (Int × Disk × Dinode) :=
  if ip.type = T_DEV then .ok (if ip.major = CONSOLE then src.length else -1, d, ip)
  else if ip.size < off ∨ (off + src.length) % 2 ^ 32 < off then .ok (-1, d, ip)
  else if MAXFILE * BSIZE < (off + src.length) % 2 ^ 32 then .ok (-1, d, ip)
  else do
    let (off, d, ip) ← writeLoop sb src.length d ip off src
    if 0 < src.length ∧ ip.size < off then
      let ip := { ip with size := off }
      return (src.length, iupdate d inum ip, ip)
    else return (src.length, d, ip)

end Xv6.DiskBlocks
