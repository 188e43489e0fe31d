import Mathlib.Algebra.GroupWithZero.Nat

/-! The sizes of `param.h` and `fs.h`, and the number of inodes `mkfs.c` makes. None of the
tables is empty, so a literal names a slot of each. -/
namespace Xv6

abbrev NPROC : Nat := 64
abbrev NOFILE : Nat := 16
abbrev NFILE : Nat := 100
abbrev NINODE : Nat := 50
abbrev ROOTDEV : Nat := 1
abbrev MAXARG : Nat := 32
abbrev MAXOPBLOCKS : Nat := 10
abbrev LOGSIZE : Nat := 30
abbrev NBUF : Nat := 30
abbrev FSSIZE : Nat := 1000
abbrev NUMFILAS : Nat := 4
abbrev ROOTINO : Nat := 1
abbrev BSIZE : Nat := 512
abbrev DIRSIZ : Nat := 14
abbrev NINODES : Nat := 200

/-- Inodes in a block; a `struct dinode` has 64 bytes. -/
abbrev IPB : Nat := BSIZE / 64

/-- The one major device number with a write function. -/
abbrev CONSOLE : Int := 1

namespace Param

instance numfilas : NeZero 4 := ⟨by decide⟩
instance nbuf : NeZero 30 := ⟨by decide⟩
instance nproc : NeZero 64 := ⟨by decide⟩
instance inputBuf : NeZero 128 := ⟨by decide⟩
instance ninodes : NeZero 200 := ⟨by decide⟩
instance pipesize : NeZero 512 := ⟨by decide⟩

instance uniprocessor : NeZero 1 := ⟨by decide⟩
instance twoCpus : NeZero 2 := ⟨by decide⟩

end Param

end Xv6
