import Xv6.DirectoryBytes
import Xv6.LinkCounts

/-! A directory as a finite map from names to inode numbers. Names count with their first
`DIRSIZ` bytes. -/
namespace Xv6.DirectoryMap
open CheckedC hiding store
open DiskBlocks BlockOwnership FileContents FileBytes MkfsFormat DirectoryBytes
open Mkfs (strncpy direntBytes)

variable {sb : Superblock} {table : Nat → Dinode} {d : Disk} {dp : Dinode}
  {es : List (Nat × List UInt8)} {e : Nat × List UInt8} {name x : List UInt8}

/-! ## Entries -/

def Distinct (es : List (Nat × List UInt8)) : Prop :=
  es.Pairwise fun e e' => e.1 ≠ 0 → ¬Named e.2 e'

def entry (es : List (Nat × List UInt8)) (x : List UInt8) : Option Nat :=
  (es.find? fun e => Named x e).map Prod.fst

theorem named_congr (same : x.take DIRSIZ = name.take DIRSIZ) : Named x e ↔ Named name e := by
  rw [Named, Named, same]

theorem entry_congr (same : x.take DIRSIZ = name.take DIRSIZ) : entry es x = entry es name := by
  simp only [entry, named_congr same]

theorem entry_eq_none : entry es x = none ↔ ∀ e ∈ es, ¬Named x e := by
  simp [entry]

theorem nameIdx_eq_length : nameIdx es x = es.length ↔ entry es x = none := by
  rw [nameIdx, List.findIdx_eq_length, entry_eq_none]
  simp

theorem entry_eq_getElem (es : List (Nat × List UInt8)) (x : List UInt8) :
    entry es x = es[nameIdx es x]?.map Prod.fst := by
  rw [entry, List.find?_eq_getElem?_findIdx, nameIdx]

theorem entry_append (es es' : List (Nat × List UInt8)) (x : List UInt8) :
    entry (es ++ es') x = (entry es x).or (entry es' x) := by
  rw [entry, List.find?_append, Option.map_or]
  rfl

theorem entry_cons : entry (e :: es) x = if Named x e then some e.1 else entry es x := by
  by_cases named : Named x e <;> simp [entry, named]

theorem entry_skip (spare : ∀ known : k < es.length, ¬Named x es[k]) :
    entry es x = (entry (es.take k) x).or (entry (es.drop (k + 1)) x) := by
  by_cases known : k < es.length
  · conv_lhs => rw [← List.take_append_drop k es, List.drop_eq_getElem_cons known]
    rw [entry_append, entry_cons, if_neg (spare known)]
  · rw [List.take_of_length_le (by omega), List.drop_eq_nil_of_le (by omega)]
    exact (Option.or_none).symm

theorem entry_put : entry (put es k e) x =
    (entry (es.take k) x).or (if Named x e then some e.1 else entry (es.drop (k + 1)) x) := by
  rw [put, entry_append, entry_cons]

theorem entry_put_of_ne (spare : ∀ known : k < es.length, ¬Named x es[k]) (other : ¬Named x e) :
    entry (put es k e) x = entry es x := by
  rw [entry_put, if_neg other, ← entry_skip spare]

theorem Distinct.put (distinct : Distinct es) (new : e.1 ≠ 0 → ∀ x ∈ es, ¬Named e.2 x) :
    Distinct (put es k e) := by
  have rest : (es.take k ++ es.drop (k + 1)).Pairwise fun e e' => e.1 ≠ 0 → ¬Named e.2 e' := by
    rw [← List.eraseIdx_eq_take_drop_succ]
    exact distinct.sublist (List.eraseIdx_sublist es k)
  obtain ⟨before, after, across⟩ := List.pairwise_append.mp rest
  refine List.pairwise_append.mpr ⟨before, List.pairwise_cons.mpr ⟨fun a member live => ?_, after⟩,
    fun a member b later live => ?_⟩
  · exact new live a (List.mem_of_mem_drop member)
  · rcases List.mem_cons.mp later with rfl | later
    · exact fun named => new named.1 a (List.mem_of_mem_take member) ⟨live, named.2.symm⟩
    · exact across a member b later live

theorem entry_link (absent : entry es name = none) (live : n ≠ 0) :
    entry (put es (freeIdx es) (n, name)) x =
      if name.take DIRSIZ = x.take DIRSIZ then some n else entry es x := by
  split
  · rename_i same
    have before : entry (es.take (freeIdx es)) x = none := by
      rw [entry_congr same.symm]
      exact entry_eq_none.mpr fun e member =>
        entry_eq_none.mp absent e (List.mem_of_mem_take member)
    rw [entry_put, before, if_pos ⟨live, same⟩]
    rfl
  · rename_i other
    refine entry_put_of_ne (fun known named => named.1 ?_) fun named => other named.2
    exact of_decide_eq_true (List.findIdx_getElem (w := known))

theorem entry_unlink (distinct : Distinct es) (present : nameIdx es name < es.length) :
    entry (put es (nameIdx es name) (0, [])) x =
      if name.take DIRSIZ = x.take DIRSIZ then none else entry es x := by
  have here : Named name es[nameIdx es name] :=
    of_decide_eq_true (List.findIdx_getElem (w := present))
  have dead : ¬Named x (0, []) := fun named => named.1 rfl
  split
  · rename_i same
    have before : entry (es.take (nameIdx es name)) x = none := by
      refine entry_eq_none.mpr fun e member named => ?_
      obtain ⟨j, earlier, rfl⟩ := List.mem_take_iff_getElem.mp member
      have first := List.not_of_lt_findIdx (Nat.lt_of_lt_of_le earlier (Nat.min_le_left _ _))
      exact of_decide_eq_false first ((named_congr same).mpr named)
    have after : entry (es.drop (nameIdx es name + 1)) x = none := by
      refine entry_eq_none.mpr fun e member named => ?_
      obtain ⟨j, later, rfl⟩ := List.mem_drop_iff_getElem.mp member
      have apart := List.pairwise_iff_getElem.mp distinct _ (nameIdx es name + 1 + j) present
        (by omega) (by omega)
      exact apart here.1 ⟨named.1, named.2.trans (same.symm.trans here.2.symm)⟩
    rw [entry_put, before, if_neg dead, after]
    rfl
  · rename_i other
    exact entry_put_of_ne (fun _ named => other (here.2.symm.trans named.2)) dead

/-! ## Histories -/

inductive Change where
  | link (name : List UInt8) (inum : Nat)
  | unlink (name : List UInt8) (busy : Bool)

namespace Change

def perform (sb : Superblock) (i : Nat) (d : Disk) (dp : Dinode) :
    Change → Checked (Int × Disk × Dinode)
  | .link name inum => dirlink sb i d dp name inum
  | .unlink name busy => unlinkEntry sb i d dp name busy

/-- Names are strings, and an inode number is not zero as it is stored. -/
def Proper : Change → Prop
  | .link name inum => 0 ∉ name ∧ inum % 2 ^ 16 ≠ 0
  | .unlink name _ => 0 ∉ name

end Change

/-- A directory built from an empty one by these changes, the last one first, with what
they returned. -/
inductive Built (sb : Superblock) (table : Nat → Dinode) (i : Nat) :
    List (Change × Int) → Disk → Dinode → Prop where
  | empty {d : Disk} {dp : Dinode} : Holds sb table i d dp [] → Built sb table i [] d dp
  | change {d : Disk} {dp : Dinode} : Built sb table i history d dp → c.Proper →
      c.perform sb i d dp = .ok (r, d', dp') → Built sb table i ((c, r) :: history) d' dp'

/-- The inode number of the last successful `dirlink` of the name, unless it has been
unlinked since. -/
def recorded (x : List UInt8) : List (Change × Int) → Option Nat
  | [] => none
  | (c, r) :: history =>
    match c with
    | .link name inum =>
      if r = 0 ∧ name.take DIRSIZ = x.take DIRSIZ then some (inum % 2 ^ 16)
      else recorded x history
    | .unlink name _ =>
      if r = 0 ∧ name.take DIRSIZ = x.take DIRSIZ then none else recorded x history

/-- The entries of a directory agree with its history. -/
structure Agrees (sb : Superblock) (table : Nat → Dinode) (i : Nat)
    (history : List (Change × Int)) (d : Disk) (dp : Dinode) (es : List (Nat × List UInt8)) :
    Prop where
  holds : Holds sb table i d dp es
  distinct : Distinct es
  entries : ∀ x, entry es x = recorded x history

theorem Agrees.link (agrees : Agrees sb table i history d dp es) (wide : sb.size ≤ 2 ^ 32)
    (text : 0 ∉ name) (live : inum % 2 ^ 16 ≠ 0)
    (ran : dirlink sb i d dp name inum = .ok (r, d', dp')) :
    ∃ es', Agrees sb table i ((.link name inum, r) :: history) d' dp' es' := by
  obtain ⟨holds, distinct, entries⟩ := agrees
  rcases Nat.lt_or_eq_of_le (nameIdx_le es name) with present | absent
  · rw [holds.dirlink_present text present] at ran
    cases ran
    exact ⟨es, holds, distinct, fun x => by simp [entries, recorded]⟩
  · have full : 16 * freeIdx es + 16 ≤ MAXFILE * BSIZE := by
      by_contra full
      rw [holds.dirlink_full text absent (Nat.not_le.mp full)] at ran
      cases ran
    obtain ⟨success, entered⟩ := (holds.dirlink_enters wide text absent full inum).of_ok ran
    subst success
    have none := nameIdx_eq_length.mp absent
    refine ⟨_, entered, distinct.put fun _ => entry_eq_none.mp none, fun x => ?_⟩
    rw [entry_link none live, recorded, entries]
    simp only [true_and]

theorem Agrees.unlink (agrees : Agrees sb table i history d dp es) (wide : sb.size ≤ 2 ^ 32)
    (text : 0 ∉ name) (ran : unlinkEntry sb i d dp name busy = .ok (r, d', dp')) :
    ∃ es', Agrees sb table i ((.unlink name busy, r) :: history) d' dp' es' := by
  obtain ⟨holds, distinct, entries⟩ := agrees
  by_cases refused : (namecmp name [46] = 0 ∨ namecmp name [46, 46] = 0) ∨
      nameIdx es name = es.length ∨ busy = true
  · rw [holds.unlink_refused text refused] at ran
    cases ran
    exact ⟨es, holds, distinct, fun x => by simp [entries, recorded]⟩
  · obtain ⟨ordinary, known⟩ := not_or.mp refused
    obtain ⟨present, idle⟩ := not_or.mp known
    have inside := Nat.lt_of_le_of_ne (nameIdx_le es name) present
    obtain ⟨d₁, dp₁, cleared, entered⟩ := holds.unlink_clears wide text ordinary inside
    rw [Bool.not_eq_true] at idle
    rw [idle, cleared] at ran
    cases ran
    refine ⟨_, entered, distinct.put fun live => absurd rfl live, fun x => ?_⟩
    rw [entry_unlink distinct inside, recorded, entries]
    simp only [true_and]

theorem built_agrees (wide : sb.size ≤ 2 ^ 32) (built : Built sb table i history d dp) :
    ∃ es, Agrees sb table i history d dp es := by
  induction built with
  | empty holds => exact ⟨[], holds, List.Pairwise.nil, fun _ => rfl⟩
  | @change _ c _ _ _ _ _ built proper ran ih =>
    obtain ⟨es, agrees⟩ := ih
    cases c with
    | link name inum => exact agrees.link wide proper.1 proper.2 ran
    | unlink name busy => exact agrees.unlink wide proper ran

/-! ## The map -/

theorem strncmp_padded (p q : List UInt8) (n : Nat) :
    strncmp (p.take n ++ List.replicate (n - p.length) 0) q n = strncmp p q n := by
  induction n generalizing p q with
  | zero => rfl
  | succ n ih =>
    cases p with
    | nil => simp [strncmp, List.replicate_succ]
    | cons a p =>
      rw [List.take_succ_cons, List.length_cons, Nat.succ_sub_succ, List.cons_append, strncmp,
        strncmp]
      simp only [List.headD_cons, List.tail_cons, ih]
      rfl

theorem namecmp_strncpy (text : 0 ∉ name) (text' : 0 ∉ x) :
    namecmp (strncpy name) (strncpy x) = 0 ↔ name.take DIRSIZ = x.take DIRSIZ := by
  rw [namecmp, strncpy, strncmp_padded]
  exact strncmp_eq_zero text text'

structure IsMap (sb : Superblock) (table : Nat → Dinode) (i : Nat)
    (history : List (Change × Int)) (d : Disk) (dp : Dinode) (es : List (Nat × List UInt8)) :
    Prop where
  holds : Holds sb table i d dp es
  apart : ∀ j k (first : j < es.length) (second : k < es.length), j ≠ k → es[j].1 ≠ 0 →
    es[k].1 ≠ 0 → namecmp (strncpy es[j].2) (strncpy es[k].2) ≠ 0
  lookup : ∀ x, 0 ∉ x → ∃ off, dirlookup sb d dp x =
    .ok ((recorded x history).map fun inum => (inum, off), d, dp)
  present : ∀ name inum, 0 ∉ name → recorded name history ≠ none →
    dirlink sb i d dp name inum = .ok (-1, d, dp)
  absent : ∀ name inum, 0 ∉ name → recorded name history = none →
    16 * freeIdx es + 16 ≤ MAXFILE * BSIZE →
    Ends (dirlink sb i d dp name inum) (fun r => r.1 = 0 ∧
      Holds sb table i r.2.1 r.2.2 (put es (freeIdx es) (inum % 2 ^ 16, name))) ∧
    (Room sb d dp (16 * freeIdx es) 16 →
      ∃ d' dp', dirlink sb i d dp name inum = .ok (0, d', dp'))
  unlink : ∀ name, 0 ∉ name → namecmp name [46] ≠ 0 → namecmp name [46, 46] ≠ 0 →
    recorded name history ≠ none →
    ∃ d' dp', unlinkEntry sb i d dp name false = .ok (0, d', dp') ∧
      Holds sb table i d' dp' (put es (nameIdx es name) (0, []))

theorem Distinct.apart (distinct : Distinct es) (texts : ∀ e ∈ es, 0 ∉ e.2)
    (first : j < es.length) (second : k < es.length) (other : j ≠ k) (live : es[j].1 ≠ 0)
    (live' : es[k].1 ≠ 0) : namecmp (strncpy es[j].2) (strncpy es[k].2) ≠ 0 := by
  rw [Ne, namecmp_strncpy (texts _ (List.getElem_mem first)) (texts _ (List.getElem_mem second))]
  intro same
  have ordered := List.pairwise_iff_getElem.mp distinct
  rcases Nat.lt_or_gt_of_ne other with before | after
  · exact ordered j k first second before live ⟨live', same.symm⟩
  · exact ordered k j second first after live' ⟨live, same⟩

theorem Agrees.isMap (agrees : Agrees sb table i history d dp es) (wide : sb.size ≤ 2 ^ 32) :
    IsMap sb table i history d dp es := by
  obtain ⟨holds, distinct, entries⟩ := agrees
  have known (name : List UInt8) (some : recorded name history ≠ none) :
      nameIdx es name < es.length := by
    refine Nat.lt_of_le_of_ne (nameIdx_le es name) fun absent => some ?_
    rw [← entries, nameIdx_eq_length.mp absent]
  refine ⟨holds, fun j k first second => distinct.apart holds.texts first second, fun x text => ?_,
    fun name inum text some => holds.dirlink_present text (known name some) inum,
    fun name inum text none full => ?_, fun name text dot dotdot some => ?_⟩
  · refine ⟨16 * nameIdx es x, ?_⟩
    rw [holds.lookup text, ← entries, entry_eq_getElem, Option.map_map]
    rfl
  · have absent := nameIdx_eq_length.mpr ((entries name).trans none)
    exact ⟨holds.dirlink_enters wide text absent full inum,
      fun room => holds.dirlink_returns wide text absent full room inum⟩
  · exact holds.unlink_clears wide text (not_or.mpr ⟨dot, dotdot⟩) (known name some)

section
open StepSystem LockProgram SysFile
open FileSystem (ProcId)
open Ownership (Claims run_claimed)

/-- A directory that is built from an empty one is the map that its history describes.
Between calls that run one after another no `struct file` that can be written refers to a
directory, and a write changes no directory. Calls that are interleaved do not open a directory
for writing either, as long as `ialloc` takes each reference before anybody else has locked
or changed the inode. -/
theorem directory_is_map (wide : sb.size ≤ 2 ^ 32) (built : Built sb table i history d dp)
    (run : kernel.serial.Run ok w) :
    (∃ es, IsMap sb table i history d dp es) ∧
    (∀ f a, (w.shared.file f).kind = .inode a → (w.shared.file f).writable = true →
      w.shared.disk.type a ≠ .dir) ∧
    (∀ p fd chunks after, kernel.serial.perform w (p, .write fd chunks) = .ok after →
      ∀ a, w.shared.disk.type a = .dir →
        after.shared.disk.type a = .dir ∧ after.shared.disk.entries a = w.shared.disk.entries a) ∧
    ∀ c, kernel.system.Run (Meets Claims) c → ∀ f a, (c.world.shared.file f).kind = .inode a →
      (c.world.shared.file f).writable = true → c.world.shared.disk.type a ≠ .dir := by
  obtain ⟨es, agrees⟩ := built_agrees wide built
  obtain ⟨files, writes⟩ := LinkCounts.serial_write run
  refine ⟨⟨es, agrees.isMap wide⟩, files, fun p fd chunks after ran a directory => ?_,
    fun c run => run_claimed run⟩
  rw [writes p fd chunks after ran]
  exact ⟨directory, rfl⟩

theorem holds_empty :
    Holds smallSuperblock (fun _ => {}) 1 blankDisk { type := T_DIR, nlink := 1 } [] := by
  refine ⟨⟨.inl rfl, owned_blankDisk fun ⟨j, x⟩ => ?_, fun bn below =>
    absurd below (Nat.not_lt_zero _)⟩, rfl, rfl, nofun, nofun⟩
  by_cases here : j = 1
  · subst here
    exact number_empty (fun _ => rfl) x
  · rw [numbers, Function.update_of_ne here]
    exact number_free rfl x

/-- "a" and "b" are entered, "a" is unlinked and "c" takes its place. -/
def reuse : List (Change × Int) :=
  [(.link [99] 7, 0), (.unlink [97] false, 0), (.link [98] 6, 0), (.link [97] 5, 0)]

theorem reuse_built : ∃ d dp, Built smallSuperblock (fun _ => {}) 1 reuse d dp := by
  have ran : ∃ r₁, dirlink smallSuperblock 1 blankDisk { type := T_DIR, nlink := 1 } [97] 5 = .ok r₁ ∧
      r₁.1 = 0 ∧ ∃ r₂, dirlink smallSuperblock 1 r₁.2.1 r₁.2.2 [98] 6 = .ok r₂ ∧ r₂.1 = 0 ∧
      ∃ r₃, unlinkEntry smallSuperblock 1 r₂.2.1 r₂.2.2 [97] false = .ok r₃ ∧ r₃.1 = 0 ∧
      ∃ r₄, dirlink smallSuperblock 1 r₃.2.1 r₃.2.2 [99] 7 = .ok r₄ ∧ r₄.1 = 0 := by decide +kernel
  obtain ⟨⟨_, _, _⟩, first, rfl, ⟨_, _, _⟩, second, rfl, ⟨_, _, _⟩, third, rfl, ⟨_, d, dp⟩, fourth,
    rfl⟩ := ran
  have one := (Built.empty holds_empty).change (c := .link [97] 5) ⟨by decide, by decide⟩ first
  have two := one.change (c := .link [98] 6) ⟨by decide, by decide⟩ second
  have three := two.change (c := .unlink [97] false) (by simp [Change.Proper]) third
  exact ⟨d, dp, three.change (c := .link [99] 7) ⟨by decide, by decide⟩ fourth⟩

instance (w : FileSystem.FsWorld) (t : ProcId) (note : FileSystem.Note) :
    Decidable (Claims w t note) := by
  unfold Claims
  split <;> infer_instance

/-- A process opens a new file for writing while another one makes a directory. -/
def openAndMkdir : List (Event ProcId Call) :=
  .call 0 (.fork true) :: List.replicate 21 (.step 0) ++
    .call 0 (.open (some ['f']) 0x202) :: .call 1 (.mkdir (some ['d'])) ::
    (List.replicate 55 [.step 0, .step 1]).flatten

theorem boot_system : kernel.system.Init (quiet ⟨fun _ => none, boot []⟩) :=
  ⟨⟨[], nofun, by decide, rfl⟩, fun _ => rfl, fun _ => rfl⟩

theorem directory_is_map_reused : ∃ d dp, (∃ off,
    dirlookup smallSuperblock d dp [99] = .ok (some (7, off), d, dp)) ∧
    dirlookup smallSuperblock d dp [97] = .ok (none, d, dp) ∧
    (∃ w, kernel.serial.Run (fun _ _ => True) w ∧ (w.shared.file 0).kind = .inode 3 ∧
      (w.shared.file 0).writable = true ∧ w.shared.disk.type 3 ≠ .dir) ∧
    ∃ c, kernel.system.Run (Meets Claims) c ∧ (c.world.shared.file 0).kind = .inode 2 ∧
      (c.world.shared.file 0).writable = true ∧ c.world.shared.disk.type 2 ≠ .dir := by
  obtain ⟨d, dp, built⟩ := reuse_built
  obtain ⟨w, alone, kind, writable⟩ := System.exists_run (m := kernel.serial) (fun _ _ => True)
    LinkCounts.boot_init [(0, .mkdir (some ['d'])), (0, .open (some ['f']) 0x202)]
    (fun w => (w.shared.file 0).kind = .inode 3 ∧ (w.shared.file 0).writable = true)
    (by decide +kernel)
  obtain ⟨c, run, kind', writable'⟩ := System.exists_run (m := kernel.system) (Meets Claims)
    boot_system openAndMkdir
    (fun c => (c.world.shared.file 0).kind = .inode 2 ∧ (c.world.shared.file 0).writable = true)
    (by decide +kernel)
  obtain ⟨⟨es, map⟩, files, -, claimed⟩ := directory_is_map (by decide) built alone
  obtain ⟨off, found⟩ := map.lookup [99] (by decide)
  obtain ⟨_, absent⟩ := map.lookup [97] (by decide)
  exact ⟨d, dp, ⟨off, found⟩, absent, ⟨w, alone, kind, writable, files 0 3 kind writable⟩,
    c, run, kind', writable', claimed c run 0 2 kind' writable'⟩

/-- A process stays in "p/d" while "p/d" and "p" are removed. When `open` has taken the inode
of "p" for a new file and not yet counted its reference, the process looks up "..", which
frees the inode again, and makes it a directory. -/
def takenTwice : List (Event ProcId Call) :=
  .call 0 (.fork true) :: List.replicate 21 (.step 0) ++
    .call 1 (.mkdir (some ['p'])) :: List.replicate 40 (.step 1) ++
    .call 1 (.mkdir (some ['p', '/', 'd'])) :: List.replicate 52 (.step 1) ++
    .call 1 (.chdir (some ['p', '/', 'd'])) :: List.replicate 38 (.step 1) ++
    .call 0 (.unlink (some ['p', '/', 'd'])) :: List.replicate 47 (.step 0) ++
    .call 0 (.unlink (some ['p'])) :: List.replicate 36 (.step 0) ++
    .call 0 (.open (some ['f']) 0x202) :: List.replicate 12 (.step 0) ++
    .call 1 (.chdir (some ['.', '.'])) :: List.replicate 27 (.step 1) ++
    .call 1 (.mkdir (some ['z'])) :: List.replicate 40 (.step 1) ++ List.replicate 20 (.step 0)

def writesIt : List (Event ProcId Call) :=
  .call 0 (.write 0 [[]]) :: List.replicate 10 (.step 0)

theorem directory_written : ∃ c after, kernel.system.Run (fun _ _ => True) c ∧
    kernel.system.performAll (fun _ _ => True) c writesIt = some after ∧
    (c.world.shared.file 0).kind = .inode 2 ∧ (c.world.shared.file 0).writable = true ∧
    c.world.shared.disk.type 2 = .dir ∧
    after.world.shared.disk.entries 2 ≠ c.world.shared.disk.entries 2 := by
  obtain ⟨c, run, kind, writable, directory, after, ran, changed⟩ :=
    System.exists_run (m := kernel.system) (fun _ _ => True) boot_system takenTwice
      (fun c => (c.world.shared.file 0).kind = .inode 2 ∧
        (c.world.shared.file 0).writable = true ∧ c.world.shared.disk.type 2 = .dir ∧
        ∃ after ∈ kernel.system.performAll (fun _ _ => True) c writesIt,
          after.world.shared.disk.entries 2 ≠ c.world.shared.disk.entries 2) (by decide +kernel)
  exact ⟨c, after, run, ran, kind, writable, directory, changed⟩

end
end Xv6.DirectoryMap
