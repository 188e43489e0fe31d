import Xv6.FileBytes
import Xv6.MkfsFormat

/-! Directories on the disk. A directory is a file of entries of 16 bytes. `dirlink` puts an
entry in the first place whose inode number is zero, or at the end, and `sys_unlink` writes
zeros over an entry. The reference counts of the inodes that are found are not part of this. -/
namespace Xv6.DirectoryBytes
open CheckedC hiding store
open ByteStore DiskBlocks BlockOwnership FileContents FileBytes MkfsImage MkfsRun MkfsFormat
open Mkfs (strncpy direntBytes)

/-! ## The code -/

/-- The search of `dirlink` for an empty dirent from `off` on. -/
def emptyLoop (sb : Superblock) : Nat → Disk → Dinode → Nat → Checked (Nat × Disk × Dinode)
  | 0, d, dp, off => if off < dp.size then .error .blocked else .ok (off, d, dp)
  | rounds + 1, d, dp, off =>
    if off < dp.size then do
      match ← readi sb d dp off 16 with
      | (none, _, _) => .error (.panic "dirlink read")
      | (some de, d, dp) =>
        if de.length ≠ 16 then .error (.panic "dirlink read")
        else if direntInum de = 0 then .ok (off, d, dp)
        else emptyLoop sb rounds d dp ((off + 16) % 2 ^ 32)
    else .ok (off, d, dp)

def dirlink (sb : Superblock) (i : Nat) (d : Disk) (dp : Dinode) (name : List UInt8)
    (inum : Nat) : Checked (Int × Disk × Dinode) := do
  match ← dirlookup sb d dp name with
  | (some _, d, dp) => return (-1, d, dp)
  | (none, d, dp) =>
    let (off, d, dp) ← emptyLoop sb dp.size d dp 0
    let (n, d, dp) ← writei sb d i dp off (direntBytes inum name)
    if n = 16 then return (0, d, dp) else .error (.panic "dirlink")

/-- What `sys_unlink` does to the directory. `busy` stands for
`ip->type == T_DIR && !isdirempty(ip)`. -/
def unlinkEntry (sb : Superblock) (i : Nat) (d : Disk) (dp : Dinode) (name : List UInt8)
    (busy : Bool) : Checked (Int × Disk × Dinode) :=
  if namecmp name [46] = 0 ∨ namecmp name [46, 46] = 0 then .ok (-1, d, dp)
  else do
    match ← dirlookup sb d dp name with
    | (none, d, dp) => return (-1, d, dp)
    | (some (_, off), d, dp) =>
      if busy then return (-1, d, dp)
      else
        let (n, d, dp) ← writei sb d i dp off (List.replicate 16 0)
        if n = 16 then return (0, d, dp) else .error (.panic "unlink: writei")

/-! ## Entries -/

/-- The place of the first live entry with the name, or the number of entries. -/
def nameIdx (es : List (Nat × List UInt8)) (name : List UInt8) : Nat :=
  es.findIdx fun e => Named name e

def freeIdx (es : List (Nat × List UInt8)) : Nat := es.findIdx fun e => e.1 = 0

def put (es : List (Nat × List UInt8)) (k : Nat) (e : Nat × List UInt8) : List (Nat × List UInt8) :=
  es.take k ++ e :: es.drop (k + 1)

/-- A directory with these entries. -/
structure Holds (sb : Superblock) (table : Nat → Dinode) (i : Nat) (d : Disk) (dp : Dinode)
    (es : List (Nat × List UInt8)) : Prop extends Whole sb table i d dp where
  directory : dp.type = T_DIR
  bytes : fileBytes d.block dp = direntsBytes es
  fits : ∀ e ∈ es, e.1 < 2 ^ 16
  texts : ∀ e ∈ es, 0 ∉ e.2

variable {sb : Superblock} {table : Nat → Dinode} {d : Disk} {dp : Dinode}
  {es : List (Nat × List UInt8)} {e : Nat × List UInt8} {name : List UInt8}

theorem direntsBytes_append (es es' : List (Nat × List UInt8)) :
    direntsBytes (es ++ es') = direntsBytes es ++ direntsBytes es' := List.flatMap_append

theorem take_direntsBytes (inside : k ≤ es.length) :
    (direntsBytes es).take (16 * k) = direntsBytes (es.take k) := by
  have length : (direntsBytes (es.take k)).length = 16 * k := by
    rw [length_direntsBytes, List.length_take, Nat.min_eq_left inside]
  conv_lhs => rw [← List.take_append_drop k es, direntsBytes_append]
  exact List.take_left' length

theorem drop_direntsBytes (es : List (Nat × List UInt8)) (k : Nat) :
    (direntsBytes es).drop (16 * k) = direntsBytes (es.drop k) := by
  rcases Nat.le_total k es.length with inside | behind
  · have length : (direntsBytes (es.take k)).length = 16 * k := by
      rw [length_direntsBytes, List.length_take, Nat.min_eq_left inside]
    conv_lhs => rw [← List.take_append_drop k es, direntsBytes_append]
    exact List.drop_left' length
  · rw [List.drop_eq_nil_of_le behind, List.drop_eq_nil_of_le]
    · rfl
    · rw [length_direntsBytes]
      omega

theorem direntsBytes_put (inside : k ≤ es.length) :
    direntsBytes (put es k e) = (direntsBytes es).take (16 * k) ++ direntBytes e.1 e.2 ++
      (direntsBytes es).drop (16 * k + 16) := by
  rw [take_direntsBytes inside, ← Nat.mul_succ, drop_direntsBytes, put, direntsBytes_append,
    List.append_assoc]
  rfl

theorem digits_mod (v n : Nat) : digits (v % 256 ^ n) n = digits v n := by
  induction n generalizing v with
  | zero => rfl
  | succ n ih =>
    have high : v % 256 ^ (n + 1) / 256 = v / 256 % 256 ^ n := by
      rw [Nat.pow_succ, Nat.mod_mul_left_div_self]
    rw [digits, digits, high, ih]
    congr 1
    exact UInt8.toNat_inj.mp (by simp)

theorem mem_put (member : x ∈ put es k e) : x = e ∨ x ∈ es := by
  rcases List.mem_append.mp member with before | here
  · exact .inr (List.mem_of_mem_take before)
  · rcases List.mem_cons.mp here with rfl | after
    · exact .inl rfl
    · exact .inr (List.mem_of_mem_drop after)

theorem nameIdx_le (es : List (Nat × List UInt8)) (name : List UInt8) :
    nameIdx es name ≤ es.length := List.findIdx_le_length

theorem freeIdx_le (es : List (Nat × List UInt8)) : freeIdx es ≤ es.length :=
  List.findIdx_le_length

/-! ## What a directory holds -/

theorem Whole.room (whole : Whole sb table i d dp) (inside : off + n ≤ dp.size) :
    Room sb d dp off n := by
  have none : lacking d.block dp off n = ∅ := by
    refine Finset.filter_eq_empty_iff.mpr ?_
    rintro (k | j) - ⟨uses, empty⟩
    · by_cases last : k = indirect
      · subst last
        rw [Uses, if_pos rfl] at uses
        have held := whole.allocated NDIRECT (by omega)
        rw [number, if_neg whole.typed.1] at empty
        exact held (if_pos (.inr empty))
      · rw [Uses, if_neg last] at uses
        have direct : k.val < NDIRECT :=
          Nat.lt_of_le_of_ne (Nat.le_of_lt_succ k.isLt) fun same => last (Fin.ext same)
        have held := whole.allocated k (Nat.lt_of_lt_of_le uses.2.2 inside)
        rw [addrOf_direct whole.typed.1 direct] at held
        rw [number, if_neg whole.typed.1] at empty
        exact held empty
    · have held := whole.allocated (NDIRECT + j) (Nat.lt_of_lt_of_le uses.2.2 inside)
      have back : NDIRECT + j.val - NDIRECT = j.val := Nat.add_sub_cancel_left _ _
      rw [addrOf_entry (by rw [back]; exact j.isLt) (by omega)] at held
      simp only [back] at held
      exact held empty
  rw [Room, none]
  exact Nat.zero_le _

namespace Holds

variable (holds : Holds sb table i d dp es)
include holds

theorem size : dp.size = 16 * es.length := by
  rw [← length_fileBytes d.block dp, holds.bytes, length_direntsBytes]

theorem small : dp.size < 2 ^ 31 := Nat.lt_of_le_of_lt holds.bound (by decide)

theorem read (known : k < es.length) :
    readi sb d dp (16 * k) 16 = .ok (some (direntBytes es[k].1 es[k].2), d, dp) := by
  have size := holds.size
  have small := holds.small
  rw [readi_whole holds.toWhole (by omega) (by omega), holds.bytes, direntsBytes_part known]

theorem lookup (text : 0 ∉ name) : dirlookup sb d dp name =
    .ok (es[nameIdx es name]?.map fun e => (e.1, 16 * nameIdx es name), d, dp) := by
  have size := holds.size
  have small := holds.small
  rw [dirlookup, if_pos holds.directory]
  refine lookupLoop_entries (i := 0) (fun _ known => holds.read known) (by omega) (by omega)
    holds.fits holds.texts text (nameIdx_le es name) (fun e earlier named => ?_) ?_
    (Nat.zero_le _) (Nat.le_add_left _ _)
  · have other := List.not_of_lt_findIdx earlier
    simp only [decide_eq_false_iff_not] at other
    exact other named
  · by_cases known : nameIdx es name < es.length
    · have found := List.findIdx_getElem (w := known)
      exact .inr ⟨known, of_decide_eq_true found⟩
    · exact .inl (by omega)

theorem search (start : j ≤ freeIdx es) (enough : dp.size ≤ j + rounds) :
    emptyLoop sb rounds d dp (16 * j) = .ok (16 * freeIdx es, d, dp) := by
  have size := holds.size
  have small := holds.small
  have bound := freeIdx_le es
  induction rounds generalizing j with
  | zero =>
    rw [emptyLoop, if_neg (by omega)]
    congr 2
    omega
  | succ rounds ih =>
    rw [emptyLoop]
    by_cases more : 16 * j < dp.size
    · have known : j < es.length := by omega
      have number := direntInum_direntBytes es[j].2 (holds.fits _ (List.getElem_mem known))
      rw [if_pos more, holds.read known, bind_ok]
      dsimp only
      rw [if_neg (by simp), number]
      by_cases free : es[j].1 = 0
      · have last : freeIdx es ≤ j := by
          by_contra later
          have used := List.not_of_lt_findIdx (Nat.not_le.mp later)
          exact absurd (decide_eq_true free) (by simpa using used)
        rw [if_pos free, Nat.le_antisymm start last]
      · have later : j < freeIdx es := by
          refine Nat.lt_of_le_of_ne start fun same => free ?_
          subst same
          exact of_decide_eq_true (List.findIdx_getElem (w := known))
        rw [if_neg free, Nat.mod_eq_of_lt (by omega), ← Nat.mul_succ]
        exact ih later (by omega)
    · rw [if_neg more]
      congr 2
      omega

theorem replaced (inside : k ≤ es.length) (fit : e.1 < 2 ^ 16) (text : 0 ∉ e.2)
    (replaced : Replaced sb table i d dp (16 * k) (direntBytes e.1 e.2) d' dp') :
    Holds sb table i d' dp' (put es k e) where
  toWhole := replaced.whole
  directory := replaced.type.trans holds.directory
  bytes := by
    rw [replaced.bytes, holds.bytes, direntsBytes_put inside, length_direntBytes]
  fits x member := by
    rcases mem_put member with rfl | old
    · exact fit
    · exact holds.fits x old
  texts x member := by
    rcases mem_put member with rfl | old
    · exact text
    · exact holds.texts x old

/-! ## dirlink -/

theorem dirlink_present (text : 0 ∉ name) (present : nameIdx es name < es.length) (inum : Nat) :
    dirlink sb i d dp name inum = .ok (-1, d, dp) := by
  rw [dirlink, holds.lookup text, List.getElem?_eq_getElem present]
  rfl

theorem dirlink_absent (text : 0 ∉ name) (absent : nameIdx es name = es.length) (inum : Nat) :
    dirlink sb i d dp name inum = (do
      let (n, d, dp) ← writei sb d i dp (16 * freeIdx es) (direntBytes inum name)
      if n = 16 then return (0, d, dp) else .error (.panic "dirlink")) := by
  rw [dirlink, holds.lookup text, absent, List.getElem?_eq_none (Nat.le_refl _), Option.map_none,
    bind_ok]
  dsimp only
  rw [show 0 = 16 * 0 from rfl, holds.search (Nat.zero_le _) (Nat.le_add_left _ _), bind_ok]

theorem accepts (full : 16 * freeIdx es + 16 ≤ MAXFILE * BSIZE) (inum : Nat) :
    Accepts dp (16 * freeIdx es) (direntBytes inum name).length := by
  rw [length_direntBytes]
  refine ⟨?_, full⟩
  rw [holds.size]
  exact Nat.mul_le_mul_left 16 (freeIdx_le es)

theorem dirlink_enters (wide : sb.size ≤ 2 ^ 32) (text : 0 ∉ name)
    (absent : nameIdx es name = es.length) (full : 16 * freeIdx es + 16 ≤ MAXFILE * BSIZE)
    (inum : Nat) :
    Ends (dirlink sb i d dp name inum) fun r => r.1 = 0 ∧
      Holds sb table i r.2.1 r.2.2 (put es (freeIdx es) (inum % 2 ^ 16, name)) := by
  have same : direntBytes (inum % 2 ^ 16) name = direntBytes inum name := by
    rw [direntBytes, direntBytes, ← digits_mod inum]
    rfl
  rw [holds.dirlink_absent text absent]
  refine (writei_replaces wide holds.toWhole (holds.accepts full inum)).bind fun r wrote => ?_
  obtain ⟨n, d', dp'⟩ := r
  obtain ⟨count, wrote⟩ := wrote
  rw [length_direntBytes] at count
  dsimp only
  rw [if_pos (show n = 16 from count)]
  exact ⟨rfl, holds.replaced (freeIdx_le es) (Nat.mod_lt _ (by decide)) text (same ▸ wrote)⟩

theorem dirlink_returns (wide : sb.size ≤ 2 ^ 32) (text : 0 ∉ name)
    (absent : nameIdx es name = es.length) (full : 16 * freeIdx es + 16 ≤ MAXFILE * BSIZE)
    (room : Room sb d dp (16 * freeIdx es) 16) (inum : Nat) :
    ∃ d' dp', dirlink sb i d dp name inum = .ok (0, d', dp') := by
  have accepts : Accepts dp (16 * freeIdx es) (direntBytes inum name).length :=
    holds.accepts full inum
  obtain ⟨d', dp', ran, -⟩ := writei_returns wide holds.toWhole accepts (Nat.le_refl _)
    (by rw [length_direntBytes]) room
  rw [length_direntBytes] at ran
  refine ⟨d', dp', ?_⟩
  rw [holds.dirlink_absent text absent, ran]
  rfl

theorem dirlink_full (text : 0 ∉ name) (absent : nameIdx es name = es.length)
    (full : MAXFILE * BSIZE < 16 * freeIdx es + 16) (inum : Nat) :
    dirlink sb i d dp name inum = .error (.panic "dirlink") := by
  have bound := freeIdx_le es
  have size := holds.size
  have small := holds.small
  rw [holds.dirlink_absent text absent, writei_refuses (fun accepts => ?_) holds.typed.2 (by omega)
    (by rw [length_direntBytes]; decide)]
  · rfl
  · rw [Accepts, length_direntBytes] at accepts
    omega

/-! ## unlink -/

theorem unlink_refused (text : 0 ∉ name)
    (refused : (namecmp name [46] = 0 ∨ namecmp name [46, 46] = 0) ∨
      nameIdx es name = es.length ∨ busy = true) :
    unlinkEntry sb i d dp name busy = .ok (-1, d, dp) := by
  rw [unlinkEntry]
  split
  · rfl
  · rename_i ordinary
    rw [holds.lookup text, bind_ok]
    rcases refused.resolve_left ordinary with absent | held
    · rw [absent, List.getElem?_eq_none (Nat.le_refl _)]
      rfl
    · cases es[nameIdx es name]? with
      | none => rfl
      | some e =>
        rw [held]
        rfl

theorem unlink_clears (wide : sb.size ≤ 2 ^ 32) (text : 0 ∉ name)
    (ordinary : ¬(namecmp name [46] = 0 ∨ namecmp name [46, 46] = 0))
    (present : nameIdx es name < es.length) :
    ∃ d' dp', unlinkEntry sb i d dp name false = .ok (0, d', dp') ∧
      Holds sb table i d' dp' (put es (nameIdx es name) (0, [])) := by
  have zeros : direntBytes 0 [] = List.replicate 16 0 := by decide
  have size := holds.size
  have bound := holds.bound
  have inside : 16 * nameIdx es name + 16 ≤ dp.size := by omega
  have accepts : Accepts dp (16 * nameIdx es name) (List.replicate 16 (0 : UInt8)).length := by
    rw [Accepts, List.length_replicate]
    omega
  obtain ⟨d', dp', ran, wrote, -⟩ := writei_returns wide holds.toWhole accepts (Nat.le_refl _)
    (by rw [List.length_replicate]) (Whole.room holds.toWhole inside)
  refine ⟨d', dp', ?_, holds.replaced (Nat.le_of_lt present) (by decide) (by simp) (zeros ▸ wrote)⟩
  rw [unlinkEntry, if_neg ordinary, holds.lookup text, List.getElem?_eq_getElem present,
    Option.map_some, bind_ok]
  dsimp only
  rw [if_neg (by decide), ran, bind_ok]
  rfl

end Holds

end Xv6.DirectoryBytes
