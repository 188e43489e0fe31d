import Xv6.DiskBlocks

/-! `mkfs.c`, which writes a file system image on a little-endian host, and the image as
the kernel reads it. A file is given by its argument on the command line and by what the
calls of `read` return for it. A failed assertion and `exit(1)` are faults. -/
namespace Xv6.Mkfs
open CheckedC hiding store
open ByteStore DiskBlocks

abbrev nbitmap : Nat := FSSIZE / (BSIZE * 8) + 1
abbrev ninodeblocks : Nat := NINODES / IPB + 1
abbrev nlog : Nat := LOGSIZE
abbrev nmeta : Nat := 2 + nlog + ninodeblocks + nbitmap

def sb : Superblock where
  size := FSSIZE
  nblocks := FSSIZE - nmeta
  ninodes := NINODES
  nlog := nlog
  logstart := 2
  inodestart := 2 + nlog
  bmapstart := 2 + nlog + ninodeblocks

/-! ## Structures in memory -/

def loadShort (m : Bytes) (a : Nat) : Int :=
  if load m a 2 < 2 ^ 15 then load m a 2 else load m a 2 - 2 ^ 16

def storeShort (m : Bytes) (a : Nat) (v : Int) : Bytes := store m a 2 (v % 2 ^ 16).toNat

def loadDinode (m : Bytes) (k : Nat) : Dinode where
  type := loadShort m (64 * k)
  major := loadShort m (64 * k + 2)
  minor := loadShort m (64 * k + 4)
  nlink := loadShort m (64 * k + 6)
  size := load m (64 * k + 8) 4
  addrs j := load m (64 * k + 12 + 4 * j) 4

def storeAddrs (m : Bytes) (a : Nat) (addrs : Fin (NDIRECT + 1) → Nat) : Bytes :=
  (List.finRange (NDIRECT + 1)).foldl (fun m (j : Fin (NDIRECT + 1)) =>
    store m (a + 4 * j) 4 (addrs j)) m

def storeDinode (m : Bytes) (k : Nat) (ip : Dinode) : Bytes :=
  let m := storeShort m (64 * k) ip.type
  let m := storeShort m (64 * k + 2) ip.major
  let m := storeShort m (64 * k + 4) ip.minor
  let m := storeShort m (64 * k + 6) ip.nlink
  let m := store m (64 * k + 8) 4 ip.size
  storeAddrs m (64 * k + 12) ip.addrs

def superblockBytes (sb : Superblock) : List UInt8 :=
  digits sb.size 4 ++ digits sb.nblocks 4 ++ digits sb.ninodes 4 ++ digits sb.nlog 4 ++
    digits sb.logstart 4 ++ digits sb.inodestart 4 ++ digits sb.bmapstart 4

/-- `strncpy(de.name, t, DIRSIZ)` for a string `t` given without its end. -/
def strncpy (t : List UInt8) : List UInt8 := t.take DIRSIZ ++ List.replicate (DIRSIZ - t.length) 0

def direntBytes (inum : Nat) (name : List UInt8) : List UInt8 := digits inum 2 ++ strncpy name

/-! ## Sectors and inodes -/

def rsect (img : Bytes) (sec : Nat) : Checked Bytes :=
  if sec < FSSIZE then .ok (window img (sec * BSIZE) BSIZE) else .error (.panic "read")

def wsect (img : Bytes) (sec : Nat) (buf : Bytes) : Bytes := blit img (sec * BSIZE) buf BSIZE

/-- `IBLOCK(i, sb)`. -/
def iblock (inum : Nat) : Nat := inum / IPB + sb.inodestart

def winode (img : Bytes) (inum : Nat) (ip : Dinode) : Checked Bytes := do
  let buf ← rsect img (iblock inum)
  return wsect img (iblock inum) (storeDinode buf (inum % IPB) ip)

def rinode (img : Bytes) (inum : Nat) : Checked Dinode := do
  let buf ← rsect img (iblock inum)
  return loadDinode buf (inum % IPB)

structure Build where
  img : Bytes
  freeinode : Nat
  freeblock : Nat

def ialloc (s : Build) (type : Int) : Checked (Nat × Build) := do
  let img ← winode s.img s.freeinode { type := type, nlink := 1 }
  return (s.freeinode, { s with img := img, freeinode := s.freeinode + 1 })

/-- `buf[i/8] = buf[i/8] | (0x1 << (i%8))` for the blocks below `used`. -/
def bitmapBytes (used : Nat) : Bytes :=
  (List.range used).foldl
    (fun buf i => Function.update buf (i / 8) (buf (i / 8) ||| 1 <<< UInt8.ofNat (i % 8)))
    fun _ => 0

def balloc (img : Bytes) (used : Nat) : Checked Bytes :=
  if used < BSIZE * 8 then .ok (wsect img sb.bmapstart (bitmapBytes used))
  else .error (.panic "used < BSIZE*8")

/-! ## Appending -/

/-- `if(xint(din.addrs[k]) == 0) din.addrs[k] = xint(freeblock++);`. -/
def takeSlot (s : Build) (din : Dinode) (k : Fin (NDIRECT + 1)) : Build × Dinode :=
  if din.addrs k = 0 then ({ s with freeblock := s.freeblock + 1 }, din.setAddr k s.freeblock)
  else (s, din)

def appendBlock (s : Build) (din : Dinode) (fbn : Nat) : Checked (Nat × Build × Dinode) :=
  if direct : fbn < NDIRECT then
    let (s, din) := takeSlot s din ⟨fbn, Nat.lt_succ_of_lt direct⟩
    .ok (din.addrs ⟨fbn, Nat.lt_succ_of_lt direct⟩, s, din)
  else do
    let (s, din) := takeSlot s din indirect
    let a ← rsect s.img (din.addrs indirect)
    if entry a (fbn - NDIRECT) = 0 then
      let a := setEntry a (fbn - NDIRECT) s.freeblock
      let img := wsect s.img (din.addrs indirect) a
      return (entry a (fbn - NDIRECT), { s with img := img, freeblock := s.freeblock + 1 }, din)
    else return (entry a (fbn - NDIRECT), s, din)

/-- The loop of `iappend`; every turn appends at least one byte. -/
def appendLoop : Nat → Build → Dinode → Nat → List UInt8 → Checked (Nat × Build × Dinode)
  | _, s, din, off, [] => .ok (off, s, din)
  | 0, _, _, _, _ :: _ => .error .blocked
  | rounds + 1, s, din, off, byte :: p =>
    if off / BSIZE < MAXFILE then do
      let (x, s, din) ← appendBlock s din (off / BSIZE)
      let n1 := min (byte :: p).length ((off / BSIZE + 1) * BSIZE - off)
      let buf ← rsect s.img x
      let img := wsect s.img x (put buf (off - off / BSIZE * BSIZE) ((byte :: p).take n1))
      appendLoop rounds { s with img := img } din (off + n1) ((byte :: p).drop n1)
    else .error (.panic "fbn < MAXFILE")

def iappend (s : Build) (inum : Nat) (p : List UInt8) : Checked Build := do
  let din ← rinode s.img inum
  let (off, s, din) ← appendLoop p.length s din din.size p
  let img ← winode s.img inum { din with size := off }
  return { s with img := img }

/-! ## The program -/

/-- An input file: its argument, and the bytes that each call of `read` returns. -/
structure Input where
  arg : List UInt8
  chunks : List (List UInt8)
  deriving DecidableEq

/-- The name without a leading underscore. -/
def Input.name (f : Input) : List UInt8 :=
  match f.arg with
  | 95 :: name => name
  | arg => arg

def Input.bytes (f : Input) : List UInt8 := f.chunks.flatten

/-- One turn of the loop over the arguments. -/
def addFile (s : Build) (f : Input) : Checked Build :=
  if 47 ∈ f.arg then .error (.panic "index(argv[i], '/') == 0")
  else do
    let (inum, s) ← ialloc s T_FILE
    let s ← iappend s ROOTINO (direntBytes inum f.name)
    f.chunks.foldlM (fun s chunk => iappend s inum chunk) s

/-- The image before the root directory is made. -/
def emptyImage : Bytes := wsect (fun _ => 0) 1 (put (fun _ => 0) 0 (superblockBytes sb))

def main (files : List Input) : Checked Bytes := do
  let (rootino, s) ← ialloc ⟨emptyImage, 1, nmeta⟩ T_DIR
  if rootino = ROOTINO then
    let s ← iappend s rootino (direntBytes rootino [46])
    let s ← iappend s rootino (direntBytes rootino [46, 46])
    let s ← files.foldlM addFile s
    let din ← rinode s.img rootino
    let img ← winode s.img rootino { din with size := (din.size / BSIZE + 1) * BSIZE }
    balloc img s.freeblock
  else .error (.panic "rootino == ROOTINO")

/-! ## The image in the kernel -/

def readsb (img : Bytes) : Superblock :=
  let data := window img (1 * BSIZE) BSIZE
  { size := load data 0 4, nblocks := load data 4 4, ninodes := load data 8 4,
    nlog := load data 12 4, logstart := load data 16 4, inodestart := load data 20 4,
    bmapstart := load data 24 4 }

/-- What the blocks of the image are for the kernel: byte `b/8` of the bitmap is in block
`BBLOCK(b, sb)`, dinode `i` in block `IBLOCK(i, sb)`. -/
def mount (img : Bytes) : Disk where
  bitmap k := (img ((k / BSIZE + sb.bmapstart) * BSIZE + k % BSIZE)).toBitVec
  dinode inum :=
    if inum < sb.ninodes then loadDinode (window img (iblock inum * BSIZE) BSIZE) (inum % IPB)
    else {}
  block b := if sb.Area b then window img (b * BSIZE) BSIZE else fun _ => 0

end Xv6.Mkfs
