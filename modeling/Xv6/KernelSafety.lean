import Xv6.NameSafety

/-! Every system call keeps the invariant: it starts from what an idle process
owns and ends with what an idle process owns, whatever the other processes do in
between. The invariant holds after boot, so it holds in every interleaving. -/
namespace Xv6.Ownership
open CheckedC LockProgram FileSystem SysFile Tally Function

section
variable {t : ProcId} {l l' : Local}

/-! ## The working directory -/

theorem iputCwd_loose (loose : Loose l l') (alive : l.life = .alive)
    (backed : ∀ i, l.cwd = some i → i ∈ l.refs.bag) :
    Safe (discipline mode) t (iputCwd t) l' fun _ m =>
      ∃ i, l.cwd = some i ∧ Loose (l.unref i) m := by
  apply safe_bind
  refine safe_step (loose.alive alive) ?_
  intro w g inv here i s ran
  have same : (w.shared.proc t).cwd = l.cwd := by
    obtain ⟨_, _, rfl⟩ := loose
    rw [(inv.mirror t).2.1, here]
    rfl
  rw [same] at ran
  cases cwd : l.cwd with
  | none =>
    rw [cwd] at ran
    cases ran
  | some j =>
    rw [cwd] at ran
    cases ran
    refine ⟨l', ?_, Steady.refl, ?_⟩
    · rw [← here, update_eq_self]
      exact inv
    · exact safe_mono (iput_loose loose alive (backed i cwd)) fun _ _ loose => ⟨i, rfl, loose⟩

theorem Idle.cwd_mem (idle : Idle l) (cwd : l.cwd = some i) : i ∈ l.refs.bag := by
  rw [idle.refs, cwd]
  exact Multiset.mem_singleton_self i

theorem Idle.moved {cwd : Option Inum} (idle : Idle l) (loose : Loose (l.setRefs r) l')
    (bag : r.bag = (cwd.toList : Multiset Inum))
    (typed : ∀ i, cwd = some i → r.typed i = some .dir) : Idle (l'.setOwn l'.ofile cwd) := by
  obtain ⟨_, _, rfl⟩ := loose
  exact ⟨idle.child, idle.share, idle.blank, idle.ends, bag, typed, idle.held⟩

theorem sysChdir_safe (path : Path) (alive : l.life = .alive) (idle : Idle l) :
    Safe (discipline mode) t (sysChdir t path) l fun _ l' => Idle l' := by
  have quiet := idle.held
  refine safe_then (namei_safe path alive quiet) ?_
  rintro (_ | ip) m found
  · exact idle.loose_self found
  · refine safe_then (ilock_quiet (l := l.ref ip) found alive quiet) ?_
    rintro _ m ⟨type, some, loose⟩
    apply safe_bind
    refine safe_type loose alive fun agree => ?_
    split
    · exact safe_then (iunlockput_locked ⟨type, some, loose⟩ alive quiet)
        fun _ _ loose => idle.loose_self loose
    · rename_i directory
      rw [not_not] at directory
      subst directory
      refine safe_then (iunlock_learn loose alive (quiet ip)) fun _ m loose => ?_
      refine safe_then (iputCwd_loose loose alive fun i cwd => ?_) ?_
      · change i ∈ ((l.refs.add ip).learn ip .dir).bag
        rw [Refs.learn_bag]
        exact Multiset.mem_cons_of_mem (idle.cwd_mem cwd)
      · rintro _ m ⟨i, cwd, loose⟩
        -- the old directory is given up and the new one known to be a directory
        have bag : ((l.refs.add ip).learn ip .dir).bag.erase i = {ip} := by
          rw [Refs.learn_bag]
          change (ip ::ₘ l.refs.bag).erase i = {ip}
          rw [idle.refs, show l.cwd = Option.some i from cwd]
          change (ip ::ₘ i ::ₘ 0).erase i = ip ::ₘ 0
          rw [Multiset.cons_swap, Multiset.erase_cons_head]
        have known : ((l.refs.add ip).learn ip .dir).typed ip = Option.some .dir := by
          obtain ⟨x, typed⟩ := Refs.learn_typed (r := l.refs.add ip) .dir
            (Multiset.mem_cons_self ip _)
          rcases Refs.typed_of_learn typed with before | ⟨_, rfl⟩
          · exact agree x before ▸ typed
          · exact typed
        refine safe_then (setCwd_safe (loose.alive alive)) ?_
        rintro _ _ rfl
        refine idle.moved (r := ((l.refs.add ip).learn ip .dir).drop i) loose bag ?_
        rintro j ⟨⟩
        refine Refs.drop_keeps known ?_
        rw [bag]
        exact Multiset.mem_singleton_self ip

/-! ## Programs -/

theorem readImage_locked (reads : Nat) (locked : Locked l i l') (alive : l.life = .alive)
    (quiet : ∀ j, l.held j = none) :
    Safe (discipline mode) t (readImage i reads) l' fun _ m => Locked l i m := by
  induction reads generalizing l' with
  | zero => exact locked
  | succ reads ih =>
    exact safe_then (readi_locked locked alive quiet) fun _ _ locked => ih locked

theorem exec_safe (path : Path) (reads : Nat) (loads : Bool) (alive : l.life = .alive)
    (idle : Idle l) : Safe (discipline mode) t (exec t path reads loads) l fun _ l' => Idle l' := by
  have quiet := idle.held
  refine safe_then (namei_safe path alive quiet) ?_
  rintro (_ | ip) m found
  · exact idle.loose_self found
  · refine safe_then (ilock_quiet (l := l.ref ip) found alive quiet) fun _ _ locked => ?_
    refine safe_then (readImage_locked reads locked alive quiet) fun _ _ locked => ?_
    exact safe_then (iunlockput_locked locked alive quiet) fun _ _ loose => idle.loose_self loose

/-! ## Processes -/

theorem forkSlots_safe (alive : l.life = .alive) (idle : Idle l) (left : Nat)
    (count : n + left = NOFILE) :
    Safe (discipline mode) t (forkSlots t c ((List.finRange NOFILE).drop n))
      (l.setChild (some (c, n))) fun _ l' => l' = l.setChild (some (c, NOFILE)) := by
  induction left generalizing n with
  | zero =>
    have full : n = NOFILE := count
    subst full
    rfl
  | succ left ih =>
    have inside : n < (List.finRange NOFILE).length := by
      rw [List.length_finRange]
      omega
    rw [List.drop_eq_getElem_cons inside]
    apply safe_bind
    have slot : (List.finRange NOFILE)[n].val = n := by simp
    refine safe_mono (forkSlot_safe alive ?_ idle.blank fun f full => idle.mem_share full) ?_
    · rw [slot]
      rfl
    · rintro _ _ rfl
      rw [slot]
      exact ih (n := n + 1) (by omega)

theorem sysFork_safe (memory : Bool) (alive : l.life = .alive) (idle : Idle l) :
    Safe (discipline mode) t (sysFork t memory) l fun _ l' => Idle l' := by
  have childless : l.setChild none = l := by
    rw [← idle.child]
    rfl
  refine safe_then (allocproc_safe alive) ?_
  rintro (_ | c) m allocated
  · rw [show m = _ from allocated]
    exact idle
  · obtain ⟨_, rfl⟩ := allocated
    dsimp only
    split
    · refine safe_then (dropChild_safe alive rfl) ?_
      rintro _ _ rfl
      change Idle (l.setChild none)
      rw [childless]
      exact idle
    · refine safe_then (setParent_safe alive) ?_
      rintro _ _ rfl
      refine safe_then (forkSlots_safe (n := 0) alive idle NOFILE rfl) ?_
      rintro _ _ rfl
      refine safe_then (forkCwd_safe alive rfl idle.typed) ?_
      rintro _ _ rfl
      refine safe_then (readyChild_safe alive rfl) ?_
      rintro _ _ rfl
      change Idle (l.setChild none)
      rw [childless]
      exact idle

theorem closeAll_safe (fds : List (Fin NOFILE)) (alive : l.life = .alive) (idle : Idle l) :
    Safe (discipline mode) t (closeAll t fds) l fun _ l' => l'.life = .alive ∧ Idle l' ∧
      ∀ fd, fd ∈ fds ∨ l.ofile fd = none → l'.ofile fd = none := by
  induction fds generalizing l with
  | nil =>
    refine ⟨alive, idle, fun fd either => ?_⟩
    rcases either with member | empty
    · cases member
    · exact empty
  | cons fd rest ih =>
    apply safe_bind
    refine safe_look alive fun w g inv here => ?_
    have slot : (w.shared.proc t).ofile fd = l.ofile fd := by rw [(inv.mirror t).1, here]
    rw [slot]
    apply safe_bind
    cases full : l.ofile fd with
    | none =>
      change Safe (discipline mode) t (closeAll t rest) l _
      refine safe_mono (ih alive idle) ?_
      rintro _ m ⟨living, owned, closed⟩
      refine ⟨living, owned, fun fd' either => closed fd' ?_⟩
      rcases either with member | empty
      · rcases List.mem_cons.mp member with rfl | later
        · exact .inr full
        · exact .inl later
      · exact .inr empty
    | some f =>
      refine safe_then (fileclose_safe alive (idle.mem_share full)) fun _ m loose => ?_
      refine safe_mono (clearSlot_safe (loose.alive alive)) ?_
      rintro _ _ rfl
      obtain ⟨o, a, rfl⟩ := loose
      have owned := idle.closed full ⟨o, a, rfl⟩
      refine safe_mono (ih alive owned) ?_
      rintro _ m ⟨living, owned, closed⟩
      refine ⟨living, owned, fun fd' either => closed fd' ?_⟩
      by_cases here : fd' = fd
      · subst here
        exact .inr (update_self fd' _ _)
      · rcases either with member | empty
        · exact .inl ((List.mem_cons.mp member).resolve_left here)
        · exact .inr ((update_of_ne here _ _).trans empty)

theorem sysExit_safe (alive : l.life = .alive) (idle : Idle l) :
    Safe (discipline mode) t (sysExit t) l fun _ l' => Idle l' := by
  apply safe_bind
  apply safe_panicIf alive
  refine safe_then (closeAll_safe (List.finRange NOFILE) alive idle) ?_
  rintro _ l ⟨alive, idle, closed⟩
  have slots : ∀ fd, l.ofile fd = none := fun fd => closed fd (.inl (List.mem_finRange fd))
  refine safe_then (iputCwd_loose (Loose.refl l) alive fun i cwd => idle.cwd_mem cwd) ?_
  rintro _ m ⟨i, cwd, loose⟩
  refine safe_then (setCwd_safe (loose.alive alive)) ?_
  rintro _ _ rfl
  have nothing : Idle (m.setOwn m.ofile none) := by
    refine idle.moved loose ?_ ?_
    · change l.refs.bag.erase i = 0
      rw [idle.refs, cwd]
      exact Multiset.erase_singleton i
    · intro j absent
      cases absent
  have empty : ∀ fd, m.ofile fd = none := by
    obtain ⟨_, _, rfl⟩ := loose
    exact slots
  refine safe_then (bury_safe (loose.alive alive) nothing empty rfl) ?_
  rintro _ _ rfl
  exact ⟨nothing.child, nothing.share, nothing.blank, nothing.ends, nothing.refs, nothing.typed,
    nothing.held⟩

/-! ## The kernel -/

theorem withPath_safe {call : Path → Op Int} (idle : Idle l)
    (safe : ∀ path, Safe (discipline mode) t (call path) l fun _ l' => Idle l') :
    Safe (discipline mode) t (withPath path call) l fun _ l' => Idle l' := by
  cases path with
  | none => exact idle
  | some path => exact safe path

theorem program_safe (call : Call) (alive : l.life = .alive) (idle : Idle l) :
    Safe (discipline mode) t (program t call) l fun _ l' => Idle l' := by
  cases call with
  | fork memory => exact sysFork_safe memory alive idle
  | exit => exact sysExit_safe alive idle
  | wait killed => exact safe_mono (sysWait_safe alive idle.child) fun _ _ same => same ▸ idle
  | «open» path omode => exact withPath_safe idle fun path => sysOpen_safe path alive idle
  | dup fd => exact sysDup_safe alive idle
  | read fd => exact sysRead_safe alive idle
  | write fd chunks => exact sysWrite_safe alive idle
  | close fd => exact sysClose_safe alive idle
  | fstat fd => exact sysFstat_safe alive idle
  | pipe page => exact sysPipe_safe alive idle
  | link old new =>
    exact withPath_safe idle fun old => withPath_safe idle fun new => sysLink_safe old new alive idle
  | unlink path => exact withPath_safe idle fun path => sysUnlink_safe path alive idle
  | mkdir path => exact withPath_safe idle fun path => sysMake_safe path alive idle
  | mknod path major minor => exact withPath_safe idle fun path => sysMake_safe path alive idle
  | chdir path => exact withPath_safe idle fun path => sysChdir_safe path alive idle
  | exec path reads loads =>
    exact withPath_safe idle fun path => exec_safe path reads loads alive idle

end

/-! ## Boot -/

def vacant : Local where
  ofile _ := none
  cwd := none
  life := .unused
  child := none
  share := 0
  blank := []
  ends := 0
  refs := ⟨0, fun _ => none, fun _ known => absurd rfl known⟩
  held _ := none
  older := none
  sole := none
  writing := none

/-- What the first process owns: its working directory. -/
def first : Local :=
  ((vacant.ref rootIno).setRefs ((vacant.refs.add rootIno).know rootIno .dir)).setLife .alive
    |>.setOwn (fun _ => none) (some rootIno)

def booted : ProcId → Local := update (fun _ => vacant) initproc first

theorem vacant_idle : Idle vacant :=
  ⟨rfl, by decide +kernel, rfl, rfl, rfl, fun _ none => (by cases none), fun _ => rfl⟩

theorem first_idle : Idle first := by
  refine ⟨rfl, by decide +kernel, rfl, rfl, rfl, ?_, fun _ => rfl⟩
  rintro _ ⟨⟩
  rfl

theorem booted_cases (P : Local → Prop) (one : P first) (others : P vacant) (p : ProcId) :
    P (booted p) := by
  by_cases here : p = initproc
  · subst here
    exact one
  · rw [booted, update_of_ne here]
    exact others

theorem booted_none (f : Local → Option α) (one : f first = none) (others : f vacant = none)
    (found : f (booted p) = some a) : False := by
  rw [booted_cases (f · = none) one others] at found
  cases found

theorem mkfs_type (files : List Name) : (mkfs files).type rootIno = .dir := by
  simp [mkfs, Disk.type]

theorem mkfs_dir (directory : (mkfs files).type i = .dir) : i = rootIno := by
  simp only [mkfs, Disk.type] at directory
  by_contra other
  rw [if_neg other] at directory
  split at directory <;> cases directory

theorem mem_mkfsEntries (member : e ∈ mkfsEntries files inum) (fits : inum + files.length ≤ NINODES) :
    inum ≤ e.inum.val ∧ e.inum.val < inum + files.length ∧ e.name ∈ files := by
  induction files generalizing inum with
  | nil => cases member
  | cons name rest ih =>
    simp only [List.length_cons] at fits
    rcases List.mem_cons.mp member with rfl | later
    · have small : inum % NINODES = inum := Nat.mod_eq_of_lt (by omega)
      simp only [Fin.ofNat, small, List.length_cons]
      exact ⟨le_refl _, by omega, List.mem_cons_self⟩
    · have place := ih later (by omega)
      simp only [List.length_cons]
      exact ⟨by omega, by omega, List.mem_cons_of_mem _ place.2.2⟩

theorem mkfs_tree (fits : 2 + files.length ≤ NINODES) : Tree mode (mkfs files) := by
  refine ⟨fun i => Nat.zero_lt_one, fun _ a directory e member live ordinary kind => ?_⟩
  have root := mkfs_dir directory
  have target := mkfs_dir kind
  subst root
  exfalso
  simp only [mkfs, if_true, List.mem_cons, List.mem_append, List.mem_replicate] at member
  rcases member with (rfl | rfl | entry) | ⟨_, rfl⟩
  · exact ordinary.1 rfl
  · exact ordinary.2 rfl
  · have place := mem_mkfsEntries entry fits
    rw [target] at place
    have two : 2 ≤ 1 := place.1
    omega
  · exact live rfl

theorem booted_forks : Forks booted where
  idle u _ := booted_cases Idle first_idle vacant_idle u
  vacant u := by
    refine booted_cases (fun l => l.life = .unused ∨ l.life = .zombie →
      (∀ fd, l.ofile fd = none) ∧ l.cwd = none) ?_ ?_ u
    · intro gone
      rcases gone with unused | zombie
      · cases unused
      · cases zombie
    · exact fun _ => ⟨fun _ => rfl, rfl⟩
  child u c n building := (booted_none (·.child) rfl rfl building).elim
  apart t u c m n building _ := (booted_none (·.child) rfl rfl building).elim

theorem booted_files (files : List Name) : Files (boot files).file booted where
  count f := by
    refine (tally_eq_zero fun u => ?_).symm
    exact booted_cases (fun l => shares f l = 0) rfl rfl u
  empty f _ := rfl
  blank u f member := by
    have empty : (booted u).blank = [] := booted_cases (·.blank = []) rfl rfl u
    rw [empty] at member
    cases member
  writing u f i known := (booted_none (·.writing) rfl rfl known).elim

theorem booted_pipes (files : List Name) : Pipes (boot files).file (boot files).pipe booted where
  count q b := by
    have ends : tally (ownedEnd q b) booted = 0 :=
      tally_eq_zero (booted_cases (fun l => ownedEnd q b l = 0) rfl rfl)
    have opened : tally (pipeEnd q b) (boot files).file = 0 := tally_eq_zero fun _ => rfl
    rw [ends, opened]
    rfl
  used q p found := by cases found

theorem booted_nodes (files : List Name) : Nodes mode (boot files) booted where
  count i := by
    have opened : tally (onInode i) (boot files).file = 0 := tally_eq_zero fun _ => rfl
    have others : tally (refsTo i) (fun _ : ProcId => vacant) = 0 := tally_eq_zero fun _ => rfl
    have none : refsTo i vacant = 0 := rfl
    have one : refsTo i first = if i = rootIno then 1 else 0 := by
      change ((rootIno ::ₘ (0 : Multiset Inum)).count i : Int) = _
      rw [Multiset.count_cons]
      split <;> rfl
    rw [opened, booted, tally_update, others, none, one]
    simp only [boot]
    split <;> rfl
  typed u i type := by
    refine booted_cases (fun l => l.refs.typed i = some type →
      (boot files).disk.type i = type ∧ type ≠ .free) ?_ (fun known => by cases known) u
    intro known
    change update (fun _ => none) rootIno (some FileType.dir) i = some type at known
    by_cases here : i = rootIno
    · subst here
      cases known
      exact ⟨mkfs_type files, by simp⟩
    · rw [update_of_ne here] at known
      cases known
  opened f i kind := by cases kind
  valid i set := by cases set

theorem booted_locks (files : List Name) :
    Locks mode ⟨fun _ => none, boot files⟩ booted where
  held i u := by
    have free : (booted u).held i = none := booted_cases (·.held i = none) rfl rfl u
    simp [free]
  seen u i type found := (booted_none (·.held i) rfl rfl found).elim
  older u a c ordered := (booted_none (·.older) rfl rfl ordered).elim
  sole u i alone := (booted_none (·.sole) rfl rfl alone).elim

theorem booted_mirror (files : List Name) (u : ProcId) : Mirror ((boot files).proc u) (booted u) := by
  by_cases here : u = initproc
  · subst here
    exact ⟨rfl, rfl, rfl⟩
  · rw [booted, update_of_ne here]
    simp only [boot, here, if_false]
    exact ⟨rfl, rfl, rfl⟩

theorem boot_inv (fits : 2 + files.length ≤ NINODES) :
    Inv mode ⟨fun _ => none, boot files⟩ booted :=
  ⟨booted_mirror files, booted_forks, booted_files files, booted_pipes files, booted_nodes files,
    booted_locks files, mkfs_tree fits⟩

theorem kernel_follows (mode : Mode) : kernel.Follows (discipline mode) where
  init := by
    rintro _ ⟨files, _, fits, rfl⟩
    exact ⟨booted, boot_inv fits, booted_cases Idle first_idle vacant_idle⟩
  calls := by
    intro w g t call inv idle callable
    have alive : (g t).life = .alive := (inv.mirror t).2.2.symm.trans callable
    exact program_safe call alive idle

theorem run_owned (run : kernel.system.Run ok c) : ∃ g, Disciplined (discipline ⟨False, False⟩) c g := by
  refine run_disciplined (kernel_follows ⟨False, False⟩) (run.mono fun c e _ => ?_)
  cases e with
  | call t call => trivial
  | step t => exact fun _ _ => ⟨False.elim, False.elim⟩

theorem run_claimed (run : kernel.system.Run (Meets Claims) c) :
    ∀ f i, (c.world.shared.file f).kind = .inode i → (c.world.shared.file f).writable = true →
      c.world.shared.disk.type i ≠ .dir := by
  obtain ⟨g, inv, -⟩ := run_disciplined (kernel_follows ⟨False, True⟩) (run.mono fun c e met => by
    cases e with
    | call t call => trivial
    | step t => exact fun note next => ⟨False.elim, fun _ => met note next⟩)
  exact fun f i kind => (inv.nodes.opened f i kind).2 (.inr trivial)

end Xv6.Ownership
