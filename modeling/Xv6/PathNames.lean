import Mathlib.Data.List.TakeWhile
import Xv6.FileSystem
import Xv6.MkfsFormat

/-! `skipelem` and `namex` on the bytes of a path. A pointer into a string is given by the
bytes from there on, without the end of the string, which is read as zero. `name` is the
buffer of `DIRSIZ` bytes, in which a name of that length has no end. -/
namespace Xv6.PathNames
open LockProgram FileSystem

/-! ## The code -/

/-- `while(*path == '/') path++;`. -/
def skipSlashes : List UInt8 → List UInt8
  | [] => []
  | b :: path => if b = 47 then skipSlashes path else b :: path

/-- `while(*path != '/' && *path != 0) path++;`. -/
def skipLetters : List UInt8 → List UInt8
  | [] => []
  | b :: path => if b ≠ 47 ∧ b ≠ 0 then skipLetters path else b :: path

/-- The returned pointer, if any, and the buffer. -/
def skipelem (path name : List UInt8) : Option (List UInt8) × List UInt8 :=
  let path := skipSlashes path
  if path.headD 0 = 0 then (none, name)
  else
    let s := path
    let path := skipLetters path
    let len := s.length - path.length
    let name :=
      if DIRSIZ ≤ len then s.take DIRSIZ ++ name.drop DIRSIZ
      else s.take len ++ 0 :: name.drop (len + 1)
    (some (skipSlashes path), name)

/-- The name in a buffer, as `namecmp` reads it. -/
def nameIn (buffer : List UInt8) : List UInt8 := (buffer.take DIRSIZ).takeWhile (· ≠ 0)

/-- The bytes as they stand in the entries of a directory. -/
def letters (bytes : List UInt8) : List Char := bytes.map Char.ofUInt8

/-- The loop of `namex`. Every turn takes at least one byte of the path. -/
def namexLoop (nameiparent : Bool) :
    Nat → Inum → List UInt8 → List UInt8 → Op (Option (Inum × Name))
  | 0, _, _, _ => .act .quiet fun _ => .error .blocked
  | rounds + 1, ip, path, name =>
    match skipelem path name with
    | (none, _) =>
      if nameiparent then do
        iput ip
        return none
      else return some (ip, [])
    | (some path, name) => do
      ilock ip
      let type ← look fun s => s.disk.type ip
      if type ≠ .dir then do
        iunlockput ip
        return none
      else if nameiparent ∧ path.headD 0 = 0 then do
        iunlock ip
        return some (ip, letters (nameIn name))
      else do
        let found ← dirlookup ip (letters (nameIn name))
        match found with
        | none => do
          iunlockput ip
          return none
        | some (_, next) => do
          iunlockput ip
          namexLoop nameiparent rounds next path name

def namex (p : ProcId) (path : List UInt8) (nameiparent : Bool) (name : List UInt8) :
    Op (Option (Inum × Name)) := do
  let ip ← (if path.headD 0 = 47 then do iget rootIno; return rootIno else idupCwd p)
  namexLoop nameiparent (path.length + 1) ip path name

def namei (p : ProcId) (path name : List UInt8) : Op (Option Inum) := do
  let found ← namex p path false name
  return found.map (·.1)

def nameiparent (p : ProcId) (path name : List UInt8) : Op (Option (Inum × Name)) :=
  namex p path true name

/-! ## Comparing names -/

theorem strncmp_takeWhile (p q : List UInt8) (n : Nat) :
    MkfsFormat.strncmp p q n = 0 ↔
      (p.take n).takeWhile (· ≠ 0) = (q.take n).takeWhile (· ≠ 0) := by
  induction n generalizing p q with
  | zero => simp [MkfsFormat.strncmp]
  | succ n ih =>
    have apart {a b : UInt8} (other : a ≠ b) : (a.toNat : Int) - b.toNat ≠ 0 := by
      have : a.toNat ≠ b.toNat := fun same => other (UInt8.toNat_inj.mp same)
      omega
    rw [MkfsFormat.strncmp]
    by_cases ended : p.headD 0 = 0
    · have empty : (p.take (n + 1)).takeWhile (· ≠ 0) = [] := by
        cases p with
        | nil => rfl
        | cons a p => simp_all
      rw [if_neg fun both => both.1 ended, ended, empty]
      cases q with
      | nil => simp
      | cons b q =>
        by_cases zero : b = 0
        · simp [zero]
        · simpa [zero] using fun same => zero (UInt8.toNat_inj.mp same)
    · obtain ⟨a, p, rfl⟩ : ∃ a p', p = a :: p' := by
        cases p with
        | nil => exact absurd rfl ended
        | cons a p => exact ⟨a, p, rfl⟩
      replace ended : a ≠ 0 := ended
      cases q with
      | nil =>
        have other := apart ended
        simp [ended] at other ⊢
        exact other
      | cons b q =>
        by_cases same : a = b
        · subst same
          simpa [ended] using ih p q
        · have other := apart same
          by_cases zero : b = 0
          · simp [ended, zero] at other ⊢
            exact other
          · simp [ended, zero, same, other]

/-! ## Components -/

theorem takeWhile_text (text : 0 ∉ part) (more : List UInt8) (stop : more.headD 0 = 0) :
    (part ++ more).takeWhile (· ≠ 0) = part := by
  have all : ∀ b ∈ part, decide (b ≠ 0) = true :=
    fun b member => decide_eq_true fun zero => text (zero ▸ member)
  rw [List.takeWhile_append_of_pos all]
  cases more with
  | nil => simp
  | cons b more => simp [show b = 0 from stop]

end Xv6.PathNames
