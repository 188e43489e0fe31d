import Xv6.LinkRuns

/-! Link counts and dangling entries over whole runs of calls, one after another.
As long as no name is entered into a directory without a name, the link count of
an inode is the number of entries that refer to it, which the blocks of the disk
keep below 2^15; as long as no directory is freed that another one's ".." names,
every entry refers to an inode. A process in a removed directory can break both. -/
namespace Xv6.LinkCounts
open CheckedC StepSystem LockProgram FileSystem SysFile Ownership Tally LinkLaw LinkCalls

/-! ## After mkfs -/

theorem nameCount_mkfsEntries (ordinary : ∀ name ∈ files, Ordinary name)
    (fits : inum + files.length ≤ NINODES) (positive : 0 < inum) (i : Inum) :
    nameCount i (mkfsEntries files inum) =
      if inum ≤ i.val ∧ i.val < inum + files.length then 1 else 0 := by
  induction files generalizing inum with
  | nil =>
    rw [if_neg (by simp)]
    rfl
  | cons name rest ih =>
    simp only [List.length_cons] at fits ⊢
    have small : (Fin.ofNat NINODES inum).val = inum := Nat.mod_eq_of_lt (by omega)
    have live : Fin.ofNat NINODES inum ≠ 0 := by
      intro zero
      rw [zero] at small
      simp at small
      omega
    simp only [mkfsEntries, nameCount_cons]
    rw [ih (fun name member => ordinary name (List.mem_cons_of_mem _ member)) (by omega) (by omega),
      nameOne_ordinary live (ordinary name List.mem_cons_self)]
    have same : i = Fin.ofNat NINODES inum ↔ i.val = inum := by
      rw [Fin.ext_iff, small]
    simp only [same]
    split_ifs <;> omega

theorem nameCount_root (ordinary : ∀ name ∈ files, Ordinary name)
    (fits : 2 + files.length ≤ NINODES) (i : Inum) :
    nameCount i ((mkfs files).entries rootIno) =
      if 2 ≤ i.val ∧ i.val < 2 + files.length then 1 else 0 := by
  rw [← nameCount_mkfsEntries ordinary fits (by decide) i]
  have dots : ∀ j name, ¬ Ordinary name → nameOne i ⟨j, name⟩ = 0 :=
    fun j name dots => nameOne_dots i ⟨j, name⟩ dots
  have padding : ∀ n, nameCount i (List.replicate n ⟨0, []⟩) = 0 := by
    intro n
    induction n with
    | zero => rfl
    | succ n ih => rw [List.replicate_succ, nameCount_cons, nameOne_dead, ih]; rfl
  have append : ∀ es fs, nameCount i (es ++ fs) = nameCount i es + nameCount i fs := by
    simp [nameCount]
  simp only [mkfs, if_true, List.cons_append, nameCount_cons, append, padding]
  rw [dots rootIno dot fun ordinary => ordinary.1 rfl,
    dots rootIno dotdot fun ordinary => ordinary.2 rfl]
  omega

theorem mkfs_entries (other : a ≠ rootIno) : (mkfs files).entries a = [] := if_neg other

section
variable {files : List Name} (ordinary : ∀ name ∈ files, Ordinary name) (fits : 2 + files.length ≤ NINODES)
include ordinary fits

theorem mkfs_names (i : Inum) :
    names (mkfs files) i = if 2 ≤ i.val ∧ i.val < 2 + files.length then 1 else 0 := by
  rw [← nameCount_root ordinary fits i]
  unfold names tally
  refine Finset.sum_eq_single rootIno (fun a _ other => ?_) fun outside => ?_
  · rw [mkfs_entries other]
    rfl
  · exact absurd (Finset.mem_univ _) outside

theorem mkfs_named
    (named : 0 < names (mkfs files) i) : i ≠ rootIno ∧ (mkfs files).type i = .file := by
  rw [mkfs_names ordinary fits] at named
  split at named
  · rename_i inside
    have other : i ≠ rootIno := by
      rintro rfl
      exact absurd inside.1 (by decide)
    simp [mkfs, Disk.type, other, inside]
  · cases named

theorem mkfs_subdirs (i : Inum) : subdirs (mkfs files) i = 0 := by
  refine Finset.sum_eq_zero fun a _ => ?_
  split
  · rename_i directory
    refine elsewhere ?_ i
    have nonneg := names_nonneg (mkfs files) a
    have none : ¬ 0 < names (mkfs files) a :=
      fun named => (mkfs_named ordinary fits named).1 (mkfs_dir directory)
    omega
  · rfl

theorem mkfs_law : Law exact tight none 0 (mkfs files) := by
  have nameless : names (mkfs files) rootIno = 0 := by
    rw [mkfs_names ordinary fits, if_neg]
    exact fun inside => absurd inside.1 (by decide)
  refine ⟨⟨rfl, nofun⟩, ⟨mkfs_type files, nofun, rfl, nameless⟩, ?_, ?_, nofun, ?_, ?_, ?_, ?_, ?_, ?_⟩
  · intro a _ directory
    cases mkfs_dir directory
    refine ⟨rootIno, _, rfl, by decide, ?_, fun _ => by rw [mkfs_type]; simp⟩
    intro x member live
    rcases List.mem_append.mp member with entry | padding
    · exact ordinary x.name (mem_mkfsEntries entry fits).2.2
    · rw [(List.mem_replicate.mp padding).2] at live
      exact absurd rfl live
  · intro a _ kind
    refine mkfs_entries ?_
    rintro rfl
    exact kind (mkfs_type files)
  · intro i named
    rw [(mkfs_named ordinary fits named).2]
    simp
  · intro i directory
    rw [mkfs_dir directory, nameless]
    decide
  · intro a i named directory
    have most := nameCount_le_names (mkfs files) i a
    rw [mkfs_dir directory] at named most
    omega
  · intro i used _
    have equal : names (mkfs files) i + subdirs (mkfs files) i + ownParent i + 0 =
        (mkfs files).nlink i := by
      rw [mkfs_subdirs ordinary fits, mkfs_names ordinary fits]
      by_cases root : i = rootIno
      · subst root
        rfl
      · by_cases inside : 2 ≤ i.val ∧ i.val < 2 + files.length
        · simp [mkfs, Disk.nlink, root, inside, ownParent]
        · simp [mkfs, Disk.type, root, inside] at used
    exact ⟨le_of_eq equal, fun _ => equal⟩
  · intro _ a directory _ other
    exact absurd (mkfs_dir directory) other
  · intro i positive
    exact absurd positive (lt_irrefl _)

end

/-! ## Runs -/

def Meets (cond : Disk → Note → Prop) (w : FsWorld) (e : ProcId × Call) : Prop :=
  (program e.1 e.2).Along (fun w _ note => cond w.shared.disk note) e.1 w

theorem mid_of_owned (good : Good exact tight w.shared) (inv : Inv ⟨False, False⟩ w g)
    (idle : ∀ t, Idle (g t)) (p : ProcId) :
    Mid exact tight p 0 (some (w.shared.proc p).cwd) 0 none w.shared := by
  have home : (w.shared.proc p).cwd = (g p).cwd := (inv.mirror p).2.1
  refine ⟨good.law, fun _ => le_refl _, ⟨fun i => ?_, ?_, fun _ i member => ?_, nofun,
    fun f i kind => ⟨(inv.nodes.opened f i kind).1, good.files f i kind⟩, inv.nodes.valid⟩⟩
  · have mine : refsTo i (g p) = ((g p).cwd.toList : Multiset Inum).count i := by
      rw [refsTo, (idle p).refs]
    have most : refsTo i (g p) ≤ tally (refsTo i) g :=
      le_tally (fun t => refsTo_nonneg i (g t)) p
    have count := inv.nodes.count i
    rw [home]
    simp only [Option.join_some, add_zero]
    omega
  · rintro _ ⟨⟩
    rfl
  · rcases member with cwd | member
    · have known := (idle p).typed i (home.symm.trans cwd)
      obtain ⟨type, used⟩ := inv.nodes.typed p i .dir known
      rw [type]
      exact used
    · exact absurd member (Multiset.notMem_zero i)

theorem run_good (run : kernel.serial.Run ok w)
    (met : ∀ w e, ok w e → (program e.1 e.2).Along (Met exact tight) e.1 w) :
    Good exact tight w.shared := by
  induction run with
  | start init =>
    obtain ⟨⟨files, ordinary, fits, boots⟩, _⟩ := init
    rw [boots]
    exact ⟨mkfs_law ordinary fits, nofun⟩
  | @step w e after run callable allowed ran good =>
    obtain ⟨g, inv, safe⟩ := run_owned (run_serial run)
    obtain ⟨⟨value, ended⟩, exec, final⟩ := bind_eq_ok.mp ran
    cases final
    have ends := program_ends (mid_of_owned good inv safe e.1) e.2
    exact (Prog.wp_sound ends (met w e allowed) (fun bad => nomatch bad.2)
      (not_bad (by decide))).1 value ended exec

/-! ## Writes -/

theorem serial_write (run : kernel.serial.Run ok w) :
    (∀ f i, (w.shared.file f).kind = .inode i → (w.shared.file f).writable = true →
      w.shared.disk.type i ≠ .dir) ∧
    ∀ p fd chunks after, kernel.serial.perform w (p, .write fd chunks) = .ok after →
      after.shared.disk = w.shared.disk := by
  have met : ∀ (w : FsWorld) (e : ProcId × Call),
      (program e.1 e.2).Along (Met False False) e.1 w :=
    fun w e => Prog.along_of_forall (fun _ _ => ⟨nofun, nofun⟩) _ w
  have good : Good False False w.shared := run_good run fun w e _ => met w e
  refine ⟨good.files, fun p fd chunks after ran => ?_⟩
  obtain ⟨g, inv, idle⟩ := run_owned (run_serial run)
  obtain ⟨⟨value, ended⟩, exec, final⟩ := bind_eq_ok.mp ran
  cases final
  have mid := mid_of_owned good inv idle p
  have ends : Ends False False p (sysWrite p fd chunks)
      (fun _ w' => w'.shared.disk = w.shared.disk) w := by
    refine seq_ends (argfd_ends fun arg => ?_)
    cases arg with
    | none => exact (rfl : w.shared.disk = w.shared.disk)
    | some found => exact filewrite_ends mid found.2 chunks fun _ _ same _ => same
  exact (Prog.wp_sound ends (met w (p, .write fd chunks)) (fun bad => nomatch bad.2)
    (not_bad (by decide))).1 value ended exec

/-! ## Link counts -/

def Refers (i : Inum) (e : Dirent) : Prop := e.inum = i ∧ i ≠ 0 ∧ e.name ≠ dot

instance (i : Inum) (e : Dirent) : Decidable (Refers i e) := inferInstanceAs (Decidable (_ ∧ _))

/-- The entries that refer to an inode, in the directories that have links. -/
def linkCount (d : Disk) (i : Inum) : Nat :=
  ∑ a, if d.type a = .dir ∧ 0 < d.nlink a then (d.entries a).countP fun e => Refers i e else 0

section
variable {tight : Prop} {d : Disk}

/-- The ".." that leads back to an inode. -/
def upOne (i : Inum) (es : List Dirent) : Int := if up es = some i then 1 else 0

theorem count_refers (live : ∀ e ∈ es, e.inum ≠ 0 → Ordinary e.name) :
    ((es.countP fun e => Refers i e : Nat) : Int) = nameCount i es := by
  induction es with
  | nil => rfl
  | cons e es ih =>
    have same : Refers i e ↔ Names i e := by
      constructor
      · rintro ⟨named, nonzero, _⟩
        exact ⟨named, nonzero, live e List.mem_cons_self (by rw [named]; exact nonzero)⟩
      · rintro ⟨named, nonzero, ordinary⟩
        exact ⟨named, nonzero, ordinary.1⟩
    have rest := ih fun e member => live e (List.mem_cons_of_mem _ member)
    rw [List.countP_cons, nameCount_cons, ← rest, nameOne]
    by_cases named : Names i e
    · simp [same.mpr named, named]
      omega
    · simp [mt same.mp named, named]

section
variable (law : Law True tight none 0 d)
include law

theorem count_directory (directory : d.type a = .dir) (nonzero : i ≠ 0) :
    (((d.entries a).countP fun e => Refers i e : Nat) : Int) =
      nameCount i (d.entries a) + upOne i (d.entries a) := by
  obtain ⟨parent, rest, shape, _, ordinary, _⟩ := law.shape a nofun directory
  have first : ¬ Refers i ⟨a, dot⟩ := fun refers => refers.2.2 rfl
  have second : Refers i ⟨parent, dotdot⟩ ↔ parent = i := by
    constructor
    · exact fun refers => refers.1
    · exact fun same => ⟨same, nonzero, by simp [dot, dotdot]⟩
  rw [shape, List.countP_cons, List.countP_cons, nameCount_cons, nameCount_cons,
    nameOne_dots i ⟨a, dot⟩ fun ordinary => ordinary.1 rfl,
    nameOne_dots i ⟨parent, dotdot⟩ fun ordinary => ordinary.2 rfl, ← count_refers ordinary]
  simp only [decide_eq_true_eq, first, second, upOne, up, Option.some.injEq, if_false]
  push_cast
  omega

theorem bare_of_unlinked (unlinked : ¬ (d.type a = .dir ∧ 0 < d.nlink a))
    (i : Inum) : nameCount i (d.entries a) = 0 := by
  by_cases directory : d.type a = .dir
  · have count := (law.count a (by simp [directory]) nofun).1
    have named := names_nonneg d a
    have below := subdirs_nonneg d a
    have own := ownParent_nonneg a
    have none : ¬ 0 < d.nlink a := fun linked => unlinked ⟨directory, linked⟩
    simp only [Pi.zero_apply] at count
    have other : a ≠ rootIno := by
      rintro rfl
      have one : ownParent rootIno = 1 := rfl
      omega
    exact law.empty trivial a directory nofun other (by omega) i
  · rw [law.plain a nofun directory]
    rfl

theorem named_of_linked (directory : d.type a = .dir)
    (linked : 0 < d.nlink a) (other : a ≠ rootIno) : 0 < names d a := by
  by_contra unnamed
  have nonneg := names_nonneg d a
  have none : names d a = 0 := by omega
  have bare := law.empty trivial a directory nofun other none
  have childless : subdirs d a = 0 := by
    refine Finset.sum_eq_zero fun b _ => ?_
    rw [bare b]
    simp
  have own : ownParent a = 0 := if_neg other
  have count := (law.count a (by simp [directory]) nofun).2 trivial
  simp only [Pi.zero_apply] at count
  omega

theorem up_counted (a i : Inum) :
    (if d.type a = .dir ∧ 0 < d.nlink a then upOne i (d.entries a) else 0) =
      (if d.type a = .dir then nameCount a (d.entries i) else 0) +
        if a = rootIno then ownParent i else 0 := by
  by_cases root : a = rootIno
  · subst root
    obtain ⟨directory, _, parent, nameless⟩ := law.root
    have count := (law.count rootIno (by simp [directory]) nofun).1
    have below := subdirs_nonneg d rootIno
    have one : ownParent rootIno = 1 := rfl
    simp only [Pi.zero_apply] at count
    rw [if_pos ⟨directory, by omega⟩, if_pos directory, if_pos rfl, elsewhere nameless i, upOne,
      parent, ownParent]
    simp [eq_comm]
  · rw [if_neg root, add_zero]
    by_cases directory : d.type a = .dir
    · rw [if_pos directory]
      have least := nameCount_nonneg a (d.entries i)
      have most := nameCount_le_names d a i
      have single := law.single a directory
      by_cases linked : 0 < d.nlink a
      · rw [if_pos ⟨directory, linked⟩, upOne]
        obtain ⟨b, e, member, named⟩ := names_pos.mp (named_of_linked law directory linked root)
        have parent := law.above b a (nameCount_pos.mpr ⟨e, member, named⟩) directory
        rw [parent]
        by_cases here : b = i
        · subst here
          have one := nameCount_pos.mpr ⟨e, member, named⟩
          rw [if_pos rfl]
          omega
        · rw [if_neg fun same => here (Option.some.inj same)]
          by_contra some
          have positive : 0 < nameCount a (d.entries i) := by omega
          rw [law.above i a positive directory] at parent
          exact here (Option.some.inj parent).symm
      · have count := (law.count a (by simp [directory]) nofun).1
        have below := subdirs_nonneg d a
        have own := ownParent_nonneg a
        simp only [Pi.zero_apply] at count
        omega
    · rw [if_neg directory, if_neg fun both => directory both.1]

theorem linkCount_eq (nonzero : i ≠ 0) :
    (linkCount d i : Int) = names d i + subdirs d i + ownParent i := by
  have split : ∀ a, ((if d.type a = .dir ∧ 0 < d.nlink a then
      (d.entries a).countP (fun e => Refers i e) else 0 : Nat) : Int) =
      nameCount i (d.entries a) +
        ((if d.type a = .dir then nameCount a (d.entries i) else 0) +
          if a = rootIno then ownParent i else 0) := by
    intro a
    rw [← up_counted law a i]
    by_cases linked : d.type a = .dir ∧ 0 < d.nlink a
    · rw [if_pos linked, if_pos linked, count_directory law linked.1 nonzero]
    · rw [if_neg linked, if_neg linked, bare_of_unlinked law linked]
      rfl
  unfold linkCount
  push_cast
  rw [Finset.sum_congr rfl fun a _ => by exact_mod_cast split a, Finset.sum_add_distrib,
    Finset.sum_add_distrib, Finset.sum_ite_eq']
  simp only [Finset.mem_univ, if_true, names, subdirs, tally]
  omega

end

end

/-- In every run that enters names only into directories with a name, an inode's
link count is the number of entries that refer to it. -/
theorem link_counts (run : kernel.serial.Run (Meets EntersNamed) w)
    (used : w.shared.disk.type i ≠ .free) :
    w.shared.disk.nlink i = linkCount w.shared.disk i := by
  have good : Good True False w.shared :=
    run_good run fun w e met => met.mono fun w note named => ⟨fun _ => named, nofun⟩
  have count := (good.law.count i used nofun).2 trivial
  rw [linkCount_eq good.law (good.law.dir_ne_zero used)]
  simp only [Pi.zero_apply] at count
  omega

instance (d : Disk) (note : Note) : Decidable (EntersNamed d note) := by
  unfold EntersNamed
  split <;> infer_instance

instance (cond : Disk → Note → Prop) [∀ d note, Decidable (cond d note)] (w : FsWorld)
    (e : ProcId × Call) : Decidable (Meets cond w e) :=
  inferInstanceAs (Decidable (Prog.Along _ _ _ _))

theorem boot_init : kernel.serial.Init ⟨fun _ => none, boot []⟩ :=
  ⟨⟨[], nofun, by decide, rfl⟩, fun _ => rfl⟩

/-- A file with two names, and a directory that is removed while a process is in it. -/
def removedButHeld : List (ProcId × Call) :=
  [(0, .mkdir (some ['d'])), (0, .open (some ['d', '/', 'x']) 0x200),
    (0, .link (some ['d', '/', 'x']) (some ['y'])), (0, .mkdir (some ['d', '/', 'e'])),
    (0, .chdir (some ['d', '/', 'e'])), (0, .unlink (some ['.', '.', '/', 'e']))]

theorem link_counts_held : ∃ w : FsWorld, w.shared.disk.nlink 3 = 2 ∧
    w.shared.disk.type 4 = .dir ∧ w.shared.disk.nlink 4 = 0 ∧
    w.shared.disk.nlink 3 = linkCount w.shared.disk 3 ∧
    w.shared.disk.nlink 4 = linkCount w.shared.disk 4 := by
  obtain ⟨w, run, file, two, directory, none⟩ := System.exists_run (m := kernel.serial)
    (Meets EntersNamed) boot_init removedButHeld (fun w => w.shared.disk.type 3 = .file ∧
      w.shared.disk.nlink 3 = 2 ∧ w.shared.disk.type 4 = .dir ∧ w.shared.disk.nlink 4 = 0)
    (by decide +kernel)
  exact ⟨w, two, directory, none, link_counts run (by simp [file]),
    link_counts run (by simp [directory])⟩

/-- A process removes the directory it is in and creates a file there. -/
def createInRemoved : List (ProcId × Call) :=
  [(0, .mkdir (some ['d'])), (0, .chdir (some ['d'])), (0, .unlink (some ['.', '.', '/', 'd'])),
    (0, .open (some ['x']) 0x200)]

theorem create_in_removed_directory : ∃ w, kernel.serial.Run (fun _ _ => True) w ∧
    w.shared.disk.type 3 = .file ∧ w.shared.disk.nlink 3 = 1 ∧ linkCount w.shared.disk 3 = 0 :=
  System.exists_run (m := kernel.serial) (fun _ _ => True) boot_init createInRemoved
    (fun w => w.shared.disk.type 3 = .file ∧ w.shared.disk.nlink 3 = 1 ∧
      linkCount w.shared.disk 3 = 0) (by decide +kernel)

/-! ## Dangling entries -/

/-- Names lost with a removed directory leave link counts behind. A name is entered
only if the counts, which have been increased for it, still fit a `short`. -/
def CountsFit (d : Disk) : Note → Prop
  | .enter dp _ i => d.nlink dp < 2 ^ 15 ∧ d.nlink i < 2 ^ 15
  | _ => True

def Sound (d : Disk) (note : Note) : Prop := FreesNoParent d note ∧ CountsFit d note

/-- In every run that frees no directory another one's ".." names, every entry of
every directory, and of every working directory, names an inode, and no call that
goes on like that locks a free inode. -/
theorem no_dangling_entry (run : kernel.serial.Run (Meets Sound) w) :
    (∀ a, w.shared.disk.type a = .dir → ∀ e ∈ w.shared.disk.entries a, e.inum ≠ 0 →
      w.shared.disk.type e.inum ≠ .free) ∧
    (∀ p i, (w.shared.proc p).cwd = some i → w.shared.disk.type i = .dir) ∧
    ∀ p call, kernel.Callable w.shared p → Meets Sound w (p, call) →
      (program p call).exec p w ≠ .error (.panic "ilock: no type") := by
  have met : ∀ (w : FsWorld) (e : ProcId × Call), Meets Sound w e →
      (program e.1 e.2).Along (Met False True) e.1 w :=
    fun w e met => met.mono fun w note sound => ⟨nofun, fun _ => sound.1⟩
  have good : Good False True w.shared := run_good run met
  obtain ⟨g, inv, idle⟩ := run_owned (run_serial run)
  refine ⟨fun a directory e member live => entry_typed good.law trivial directory member live,
    fun p i cwd => ?_, fun p call _ allowed panics => ?_⟩
  · have known := Idle.typed (idle p) i ((inv.mirror p).2.1.symm.trans cwd)
    exact (inv.nodes.typed p i .dir known).1
  · have ends := program_ends (mid_of_owned good inv idle p) call
    exact (Prog.wp_sound ends (met w (p, call) allowed) (fun bad => nomatch bad.2)
      (not_bad (by decide))).2 _ panics ⟨trivial, rfl⟩

instance (d : Disk) (note : Note) : Decidable (FreesNoParent d note) := by
  unfold FreesNoParent
  split <;> infer_instance

instance (d : Disk) (note : Note) : Decidable (CountsFit d note) := by
  unfold CountsFit
  split <;> infer_instance

instance (d : Disk) (note : Note) : Decidable (Sound d note) :=
  inferInstanceAs (Decidable (_ ∧ _))

/-- A directory is removed while a process is in it; the process leaves, and only
then the parent is removed. -/
def leftInOrder : List (ProcId × Call) :=
  [(0, .mkdir (some ['a'])), (0, .mkdir (some ['a', '/', 'b'])),
    (0, .chdir (some ['a', '/', 'b'])), (0, .unlink (some ['.', '.', '/', 'b'])),
    (0, .chdir (some ['.', '.'])), (0, .chdir (some ['/'])), (0, .unlink (some ['a']))]

theorem no_dangling_entry_left : ∃ w : FsWorld, w.shared.disk.type 2 = .free ∧
    w.shared.disk.type 3 = .free ∧ ∀ a, w.shared.disk.type a = .dir →
      ∀ e ∈ w.shared.disk.entries a, e.inum ≠ 0 → w.shared.disk.type e.inum ≠ .free := by
  obtain ⟨w, run, first, second⟩ := System.exists_run (m := kernel.serial) (Meets Sound) boot_init
    leftInOrder (fun w => w.shared.disk.type 2 = .free ∧ w.shared.disk.type 3 = .free)
    (by decide +kernel)
  exact ⟨w, first, second, (no_dangling_entry run).1⟩

/-- A process removes the directory it is in and then that directory's parent. -/
def removeParent : List (ProcId × Call) :=
  [(0, .mkdir (some ['a'])), (0, .mkdir (some ['a', '/', 'b'])),
    (0, .chdir (some ['a', '/', 'b'])), (0, .unlink (some ['.', '.', '/', 'b'])),
    (0, .unlink (some ['/', 'a']))]

theorem removed_parent_panics : ∃ w, kernel.serial.Run (fun _ _ => True) w ∧
    (w.shared.proc 0).cwd = some 3 ∧ w.shared.disk.type 3 = .dir ∧
    (∃ e ∈ w.shared.disk.entries 3, e.name = dotdot ∧ e.inum = 2) ∧
    w.shared.disk.type 2 = .free ∧
    (program 0 (.open (some ['.', '.']) 0)).exec 0 w = .error (.panic "ilock: no type") :=
  System.exists_run (m := kernel.serial) (fun _ _ => True) boot_init removeParent
    (fun w => (w.shared.proc 0).cwd = some 3 ∧ w.shared.disk.type 3 = .dir ∧
      (∃ e ∈ w.shared.disk.entries 3, e.name = dotdot ∧ e.inum = 2) ∧
      w.shared.disk.type 2 = .free ∧
      (program 0 (.open (some ['.', '.']) 0)).exec 0 w = .error (.panic "ilock: no type"))
    (by decide +kernel)

end Xv6.LinkCounts
