import Xv6.PathNames
import Xv6.DirectoryMap

/-! What `namei` and `nameiparent` find, on a tree that does not change while they run. An
inode on the way that is in no cache entry takes one, so the call panics if the cache is
full; otherwise it returns, and the references it took are given back, except the one to the
inode it returns. -/
namespace Xv6.PathResolution
open CheckedC LockProgram FileSystem Function
open DirectoryBytes (Holds nameIdx)

/-! ## Walks -/

/-- The walk by `dirlookup` from left to right. -/
def resolve (d : Disk) : Inum → List Name → Option Inum
  | i, [] => some i
  | i, name :: rest =>
    if d.type i = .dir then
      match lookup name (d.entries i) with
      | none => none
      | some (_, next) => resolve d next rest
    else none

/-- The walk over all names but the last, which has to end in a directory. -/
def resolveParent (d : Disk) (i : Inum) (names : List Name) : Option (Inum × Name) :=
  match names.getLast? with
  | none => none
  | some name =>
    match resolve d i names.dropLast with
    | none => none
    | some dp => if d.type dp = .dir then some (dp, name) else none

/-- The entries of a directory on the disk, as they are looked up. -/
def decode (es : List (Nat × List UInt8)) : List Dirent :=
  es.map fun e => ⟨Fin.ofNat NINODES e.1, PathNames.letters (e.2.take DIRSIZ)⟩

theorem letters_inj : PathNames.letters x = PathNames.letters y ↔ x = y := by
  refine List.map_inj_right fun a b same => ?_
  exact UInt8.toNat_inj.mp (congrArg Char.toNat same)

theorem lookup_decode (fits : ∀ e ∈ es, e.1 < NINODES) (x : List UInt8) :
    lookup (PathNames.letters (x.take DIRSIZ)) (decode es) =
      es[nameIdx es x]?.map fun e => (nameIdx es x, Fin.ofNat NINODES e.1) := by
  induction es with
  | nil => rfl
  | cons e es ih =>
    have small := fits e List.mem_cons_self
    have live : Fin.ofNat NINODES e.1 ≠ 0 ↔ e.1 ≠ 0 := by
      rw [Ne, Fin.ext_iff, Fin.val_ofNat, Nat.mod_eq_of_lt small]
      rfl
    rw [decode, List.map_cons, lookup, nameIdx, List.findIdx_cons]
    by_cases named : MkfsFormat.Named x e
    · rw [if_pos ⟨live.mpr named.1, letters_inj.mpr named.2⟩]
      simp [named]
    · rw [if_neg fun both => named ⟨live.mp both.1, letters_inj.mp both.2⟩]
      simp only [named, decide_false, cond_false, List.getElem?_cons_succ]
      rw [← decode, ih fun e member => fits e (List.mem_cons_of_mem _ member)]
      simp only [Option.map_map, Function.comp_def, nameIdx]

theorem lookupLoop_congr (same : ∀ q, MkfsFormat.namecmp x q = 0 ↔ MkfsFormat.namecmp y q = 0) :
    MkfsFormat.lookupLoop sb x rounds d dp off = MkfsFormat.lookupLoop sb y rounds d dp off := by
  induction rounds generalizing d dp off with
  | zero => rfl
  | succ rounds ih => simp only [MkfsFormat.lookupLoop, same, ih]

/-- `dirlookup` of the name in a buffer, on the disk and in the entries. -/
theorem dirlookup_decode (holds : Holds sb table a d dp es) (fits : ∀ e ∈ es, e.1 < NINODES)
    (buffer : List UInt8) : MkfsFormat.dirlookup sb d dp buffer =
      .ok ((lookup (PathNames.letters (PathNames.nameIn buffer)) (decode es)).map
        fun found => (found.2.val, 16 * found.1), d, dp) := by
  have text : 0 ∉ PathNames.nameIn buffer := fun member => by
    simpa using List.mem_takeWhile_imp member
  have short : (PathNames.nameIn buffer).take DIRSIZ = PathNames.nameIn buffer := by
    refine List.take_of_length_le ((List.takeWhile_prefix _).length_le.trans ?_)
    rw [List.length_take]
    exact Nat.min_le_left _ _
  have same (q : List UInt8) : MkfsFormat.namecmp buffer q = 0 ↔
      MkfsFormat.namecmp (PathNames.nameIn buffer) q = 0 := by
    have again : (PathNames.nameIn buffer).takeWhile (· ≠ 0) = PathNames.nameIn buffer := by
      simpa using PathNames.takeWhile_text text [] rfl
    rw [MkfsFormat.namecmp, MkfsFormat.namecmp, PathNames.strncmp_takeWhile,
      PathNames.strncmp_takeWhile, short, again]
    rfl
  have found := holds.lookup text
  rw [MkfsFormat.dirlookup, if_pos holds.directory] at found ⊢
  rw [lookupLoop_congr same, found]
  conv_rhs => rw [← short, lookup_decode fits]
  cases entry : es[nameIdx es (PathNames.nameIn buffer)]? with
  | none => rfl
  | some e =>
    have small := fits e (List.mem_of_getElem? entry)
    simp only [Option.map_some, Fin.val_ofNat, Nat.mod_eq_of_lt small]

/-- "a" and "b" are entered and "a" is unlinked; a buffer may have anything behind its name. -/
theorem dirlookup_decode_second : ∃ sb d dp,
    MkfsFormat.dirlookup sb d dp [98, 0, 55] = .ok (some (6, 16), d, dp) ∧
    MkfsFormat.dirlookup sb d dp [97] = .ok (none, d, dp) := by
  have text : 0 ∉ ([97] : List UInt8) := by decide
  have ran : ∃ r, DirectoryBytes.dirlink BlockOwnership.smallSuperblock 1 BlockOwnership.blankDisk
      { type := DiskBlocks.T_DIR, nlink := 1 } [97] 5 = .ok r ∧
      ∃ r', DirectoryBytes.dirlink BlockOwnership.smallSuperblock 1 r.2.1 r.2.2 [98] 6 = .ok r' ∧
        r'.1 = 0 := by decide +kernel
  obtain ⟨_, first, _, second, -⟩ := ran
  have one := (DirectoryMap.holds_empty.dirlink_enters (by decide) text rfl (by decide) 5).of_ok first
  have two := (one.2.dirlink_enters (by decide) (by decide) (by decide) (by decide) 6).of_ok second
  obtain ⟨d, dp, -, three⟩ := two.2.unlink_clears (by decide) text (by decide) (by decide)
  exact ⟨_, d, dp, dirlookup_decode three (by decide) [98, 0, 55],
    dirlookup_decode three (by decide) [97]⟩

/-! ## Single operations -/

section
variable {t : ProcId} {locks : Inum → Option ProcId} {s : Fs}

section
variable (free : locks i = none)
include free

end

def holding (s : Fs) (valid : Inum → Bool) (i : Inum) : Fs :=
  { s with ref := update s.ref i (s.ref i + 1), valid := valid }

theorem holding_ref (s : Fs) (valid : Inum → Bool) (i j : Inum) :
    (holding s valid i).ref j = s.ref j + if j = i then 1 else 0 := by
  by_cases here : j = i
  · subst here
    simp [holding]
  · simp [holding, here]

end

/-! ## Whole walks -/

/-- The call panics because there is no free entry in the cache, or ends like this. -/
def Outcome (s : Fs) (run : Checked (α × FsWorld)) (post : α → FsWorld → Prop) : Prop :=
  (∃ value w, run = .ok (value, w) ∧ post value w) ∨
    run = .error (.panic "iget: no inodes") ∧ NINODE ≤ s.cached + 1

/-- Locking the inode does not panic, and giving back a reference does not free it. -/
structure Calm (s : Fs) (i : Inum) : Prop where
  typed : s.disk.type i ≠ .free
  count : 0 ≤ s.ref i
  kept : s.disk.nlink i = 0 → 0 < s.ref i

theorem Calm.held (calm : Calm s i) (valid : Inum → Bool) : 1 ≤ (holding s valid i).ref i := by
  have count := calm.count
  rw [holding_ref, if_pos rfl]
  omega

theorem Calm.other (calm : Calm s i) (none : (holding s valid i).disk.nlink i = 0) :
    (holding s valid i).ref i ≠ 1 := by
  have kept := calm.kept none
  rw [holding_ref, if_pos rfl]
  omega

/-- What a call leaves: only the reference to the inode it returns is new. -/
def left (s : Fs) (valid : Inum → Bool) : Option Inum → Fs
  | none => { s with valid := valid }
  | some i => holding s valid i

def answer (d : Disk) (parent : Bool) (i : Inum) (names : List Name) : Option (Inum × Name) :=
  if parent then resolveParent d i names else (resolve d i names).map fun j => (j, [])

section
variable {w : FsWorld} {p : ProcId} {path : List UInt8}

theorem Outcome.map {run : Checked (α × FsWorld)} (outcome : Outcome s run post)
    (f : α → β) (onward : ∀ value w, post value w → post' (f value) w) :
    Outcome s (run >>= fun r => .ok (f r.1, r.2)) post' := by
  rcases outcome with ⟨value, w, ran, here⟩ | ⟨full, most⟩
  · rw [ran]
    exact .inl ⟨f value, w, rfl, onward value w here⟩
  · rw [full]
    exact .inr ⟨rfl, most⟩

instance (s : Fs) (i : Inum) : Decidable (Calm s i) :=
  decidable_of_iff (s.disk.type i ≠ .free ∧ 0 ≤ s.ref i ∧ (s.disk.nlink i = 0 → 0 < s.ref i))
    ⟨fun ⟨typed, count, kept⟩ => ⟨typed, count, kept⟩,
      fun ⟨typed, count, kept⟩ => ⟨typed, count, kept⟩⟩

end
end Xv6.PathResolution
