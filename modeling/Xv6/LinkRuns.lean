import Xv6.LinkCalls

/-! The calls on descriptors and processes, and with them every call, keep the law
of link counts when they run alone. -/
namespace Xv6.LinkCalls
open CheckedC StepSystem LockProgram FileSystem SysFile Ownership Tally LinkLaw Function

section
variable {exact tight : Prop} {p : ProcId} {pend : Inum → Int} {c : Option (Option Inum)}
  {ours : Multiset Inum} {plain : Option Inum} {s : Fs} {w : FsWorld}
  {Post : Unit → FsWorld → Prop}

/-! ## Files -/

theorem Held.setFile (held : Held tight p c ours plain s) (other : ∀ i, file.kind ≠ .inode i) :
    Held tight p c ours plain (s.setFile f file) where
  counted i := by
    have before := held.counted i
    have old := onInode_nonneg i (s.file f)
    have new : onInode i file = 0 := if_neg (other i)
    change tally (onInode i) (update s.file f file) + _ ≤ s.ref i
    rw [tally_update, new]
    omega
  home := held.home
  typed := held.typed
  plain := held.plain
  opened g i kind := by
    by_cases here : g = f
    · subst here
      simp only [Fs.setFile, update_self] at kind
      exact absurd kind (other i)
    · simp only [Fs.setFile, update_of_ne here] at kind ⊢
      exact held.opened g i kind
  valid := held.valid

theorem Held.closed (held : Held tight p c ours plain s) (kind : (s.file f).kind = .inode i)
    (other : ∀ i, file.kind ≠ .inode i) :
    Held tight p c (i ::ₘ ours) plain (s.setFile f file) := by
  have left := held.setFile (f := f) other
  refine ⟨fun j => ?_, left.home, ?_, left.plain, left.opened, left.valid⟩
  · have before := held.counted j
    have new : onInode j file = 0 := if_neg (other j)
    change tally (onInode j) (update s.file f file) + _ ≤ s.ref j
    rw [tally_update, new]
    rw [Multiset.count_add] at before ⊢
    rw [Multiset.count_cons]
    by_cases here : j = i
    · subst here
      have old : onInode j (s.file f) = 1 := if_pos kind
      push_cast at before ⊢
      omega
    · have old : onInode j (s.file f) = 0 := by
        refine if_neg fun same => here ?_
        rw [kind] at same
        exact (FileKind.inode.inj same).symm
      rw [if_neg here]
      omega
  · intro tightly j member
    rcases member with cwd | member
    · exact held.typed tightly j (.inl cwd)
    · rcases Multiset.mem_cons.mp member with rfl | old
      · exact (held.opened f j kind).1
      · exact held.typed tightly j (.inr old)

theorem Held.files {file : FileId → File} (held : Held tight p c ours plain s)
    (same : ∀ f, (file f).kind = (s.file f).kind ∧ (file f).writable = (s.file f).writable) :
    Held tight p c ours plain { s with file := file } where
  counted i := by
    have count : tally (onInode i) file = tally (onInode i) s.file :=
      tally_congr fun f => by simp only [onInode, (same f).1]
    rw [count]
    exact held.counted i
  home := held.home
  typed := held.typed
  plain := held.plain
  opened f i kind := by
    rw [(same f).1] at kind
    rw [(same f).2]
    exact held.opened f i kind
  valid := held.valid

theorem setRef_same (file : FileId → File) (f : FileId) (n : Int) (g : FileId) :
    (update file f { file f with ref := n } g).kind = (file g).kind ∧
      (update file f { file f with ref := n } g).writable = (file g).writable := by
  by_cases here : g = f
  · subst here
    simp
  · simp [here]

section
variable (mid : Mid exact tight p pend c ours plain s)
include mid

theorem Mid.setRef (f : FileId) (n : Int) :
    Mid exact tight p pend c ours plain (s.setFile f { s.file f with ref := n }) :=
  ⟨mid.law, mid.ahead, mid.held.files (setRef_same s.file f n)⟩

theorem Mid.procs {proc : ProcId → Proc} (same : (proc p).cwd = (s.proc p).cwd) :
    Mid exact tight p pend c ours plain { s with proc := proc } :=
  ⟨mid.law, mid.ahead, ⟨mid.held.counted, fun cwd known => same.trans (mid.held.home cwd known),
    mid.held.typed, mid.held.plain, mid.held.opened, mid.held.valid⟩⟩

theorem Mid.setSlot (fd : Fin NOFILE)
    (f : Option FileId) : Mid exact tight p pend c ours plain (s.setSlot p fd f) :=
  mid.procs (by simp)

theorem Mid.setPipe (q : PipeId)
    (pipe : Option Pipe) : Mid exact tight p pend c ours plain (s.setPipe q pipe) :=
  ⟨mid.law, mid.ahead, ⟨mid.held.counted, mid.held.home, mid.held.typed, mid.held.plain,
    mid.held.opened, mid.held.valid⟩⟩

end

section
variable (mid : Mid exact tight p pend c ours plain w.shared)
include mid

theorem filealloc_ends {Post : Option FileId → FsWorld → Prop} (full : Post none w)
    (post : ∀ f s, s.disk = w.shared.disk → Mid exact tight p pend c ours plain s →
      Post (some f) { w with shared := s }) : Ends exact tight p filealloc Post w := by
  refine act_ends fun _ => ?_
  split
  · exact post _ _ rfl (mid.setRef _ 1)
  · exact full

theorem fdalloc_ends {Post : Option (Fin NOFILE) → FsWorld → Prop} (full : Post none w)
    (post : ∀ fd s, s.disk = w.shared.disk → Mid exact tight p pend c ours plain s →
      Post (some fd) { w with shared := s }) : Ends exact tight p (fdalloc p f) Post w := by
  refine act_ends fun _ => ?_
  split
  · exact post _ _ rfl (mid.setSlot _ _)
  · exact full

theorem closeRef_ends {Post : Option File → FsWorld → Prop}
    (shared : ∀ s, Mid exact tight p pend c ours plain s → Post none { w with shared := s })
    (last : ∀ file s, (∀ i, file.kind = .inode i → Mid exact tight p pend c (i ::ₘ ours) plain s) →
      Mid exact tight p pend c ours plain s → Post (some file) { w with shared := s }) :
    Ends exact tight p (closeRef f) Post w := by
  refine act_ends fun _ => ?_
  split
  · exact not_bad (by decide)
  · split
    · exact shared _ (mid.setRef f _)
    · refine last _ _ (fun i kind => ?_) ?_
      · exact ⟨mid.law, mid.ahead, mid.held.closed kind nofun⟩
      · exact ⟨mid.law, mid.ahead, mid.held.setFile nofun⟩

theorem pipeclose_ends (post : ∀ w', Mid exact tight p pend c ours plain w'.shared → Post () w') :
    Ends exact tight p (pipeclose q writable) Post w := by
  refine act_ends fun _ => ?_
  split
  · exact fun bad => nomatch bad.2
  · exact post _ (mid.setPipe q _)

theorem fileclose_ends (post : ∀ w', Mid exact tight p pend c ours plain w'.shared → Post () w') :
    Ends exact tight p (fileclose f) Post w := by
  refine seq_ends (closeRef_ends mid (fun s mid => post _ mid) fun file s opens mid => ?_)
  cases kind : file.kind with
  | none =>
    simp only [kind]
    exact post _ mid
  | pipe q =>
    simp only [kind]
    exact pipeclose_ends mid post
  | inode i =>
    simp only [kind]
    exact iput_ends (opens i kind) post

end

/-! ## Calls on descriptors -/

theorem openInode_ends {Post : Option Inum → FsWorld → Prop} (path : Path) (omode : BitVec 32)
    (mid : Mid exact tight p 0 (some cwd) 0 none w.shared)
    (failed : ∀ w', Mid exact tight p 0 (some cwd) 0 none w'.shared → Post none w')
    (found : ∀ w' ip plain, Mid exact tight p 0 (some cwd) (ip ::ₘ 0) plain w'.shared →
      (writes omode = true → w'.shared.disk.type ip ≠ .dir) → Post (some ip) w') :
    Ends exact tight p (openInode p path omode) Post w := by
  unfold openInode
  split
  · exact create_ends path (by decide) mid failed fun w ip plain mid file =>
      found w ip plain mid fun _ => file rfl
  · refine seq_ends (namei_ends path mid failed fun w ip mid => ?_)
    refine seq_ends (ilock_ours mid fun _ _ valid mid => ?_)
    refine seq_ends (look_ends ?_)
    split
    · exact seq_ends (iunlockput_ends mid failed)
    · rename_i allowed
      refine found _ ip none mid fun writing directory => ?_
      have readonly : omode = 0 := by
        by_contra other
        exact allowed ⟨directory, other⟩
      rw [readonly] at writing
      exact absurd writing (by decide)

theorem openFile_ends (mid : Mid exact tight p 0 c ours plain w.shared)
    (file : writes omode = true → w.shared.disk.type ip ≠ .dir) :
    EndsGood exact tight p (openFile f ip omode) w := by
  refine act_ends fun _ => ?_
  refine ⟨mid.law, fun g i kind writable => ?_⟩
  by_cases here : g = f
  · subst here
    simp only [Fs.setFile, update_self, FileKind.inode.injEq] at kind writable ⊢
    rw [← kind]
    exact file writable
  · simp only [Fs.setFile, update_of_ne here] at kind writable ⊢
    exact (mid.held.opened g i kind).2 writable

theorem sysOpen_ends (mid : Mid exact tight p 0 (some cwd) 0 none w.shared) (path : Path)
    (omode : BitVec 32) :
    EndsGood exact tight p (sysOpen p path omode) w := by
  refine seq_ends (openInode_ends path omode mid (fun _ mid => mid.good) ?_)
  intro w ip plain mid file
  refine seq_ends (filealloc_ends mid ?_ fun f s same mid => ?_)
  · exact seq_ends (iunlockput_ends mid fun _ mid => mid.good)
  · refine seq_ends (fdalloc_ends mid ?_ fun fd s' same' mid => ?_)
    · exact seq_ends (fileclose_ends mid fun _ mid =>
        seq_ends (iunlockput_ends mid fun _ mid => mid.good))
    · rw [← same, ← same'] at file
      refine seq_ends (iunlock_ends ?_)
      exact seq_ends (openFile_ends mid file)

theorem Good.same {s' : Fs} (good : Good exact tight s) (disk : s'.disk = s.disk)
    (files : ∀ f, (s'.file f).kind = (s.file f).kind ∧
      (s'.file f).writable = (s.file f).writable) : Good exact tight s' := by
  refine ⟨disk ▸ good.law, fun f i kind writable => ?_⟩
  rw [(files f).1] at kind
  rw [(files f).2] at writable
  rw [disk]
  exact good.files f i kind writable

theorem filedup_ends (good : Good exact tight w.shared)
    (post : ∀ w', Good exact tight w'.shared → Post () w') :
    Ends exact tight p (filedup f) Post w := by
  refine act_ends fun _ => ?_
  split
  · exact not_bad (by decide)
  · exact post _ (good.same rfl (setRef_same w.shared.file f _))

theorem argfd_ends {Post : Option (Fin NOFILE × FileId) → FsWorld → Prop}
    (post : ∀ arg, Post arg w) : Ends exact tight p (argfd p fd) Post w :=
  look_ends (post _)

section
variable (mid : Mid exact tight p 0 c ours plain w.shared)
include mid

theorem sysDup_ends (fd : Int) : EndsGood exact tight p (sysDup p fd) w := by
  refine seq_ends (argfd_ends fun arg => ?_)
  cases arg with
  | none => exact mid.good
  | some found =>
    refine seq_ends (fdalloc_ends mid mid.good fun new s _ mid => ?_)
    exact seq_ends (filedup_ends mid.good fun _ good => good)

theorem fileread_ends (f : FileId) : EndsGood exact tight p (fileread f) w := by
  refine seq_ends (look_ends ?_)
  split
  · exact mid.good
  · split
    · exact mid.good
    · rename_i i kind
      have used := (mid.held.opened f i kind).1
      refine seq_ends (ilock_ends mid.held (fun _ => used) fun _ _ valid held => ?_)
      refine seq_ends (readi_ends held (fun _ => used) fun locks valid held => ?_)
      exact seq_ends (iunlock_ends (mid.withHeld held).good)
    · exact seq_ends (panicIf_ends (by decide) nofun)

theorem filestat_ends (f : FileId) : EndsGood exact tight p (filestat f) w := by
  refine seq_ends (look_ends ?_)
  split
  · rename_i i kind
    have used := (mid.held.opened f i kind).1
    refine seq_ends (ilock_ends mid.held (fun _ => used) fun _ _ valid held => ?_)
    exact seq_ends (iunlock_ends (mid.withHeld held).good)
  · exact mid.good

theorem writeChunks_ends {Post : Int → FsWorld → Prop}
    (used : w.shared.disk.type i ≠ .free ∧ w.shared.disk.type i ≠ .dir)
    (chunks : List (List Dirent)) (post : ∀ value w', w'.shared.disk = w.shared.disk →
      Mid exact tight p 0 c ours plain w'.shared → Post value w') :
    Ends exact tight p (writeChunks i chunks) Post w := by
  induction chunks generalizing w with
  | nil => exact post _ _ rfl mid
  | cons content rest ih =>
    refine seq_ends (ilock_ends mid.held (fun _ => used.1) fun _ _ valid held => ?_)
    refine seq_ends (writei_ends held used fun wrote locks valid held => ?_)
    refine seq_ends (iunlock_ends ?_)
    split
    · exact ih (mid.withHeld held) used post
    · exact post _ _ rfl (mid.withHeld held)

theorem filewrite_ends {Post : Int → FsWorld → Prop} (f : FileId) (chunks : List (List Dirent))
    (post : ∀ value w', w'.shared.disk = w.shared.disk →
      Mid exact tight p 0 c ours plain w'.shared → Post value w') :
    Ends exact tight p (filewrite f chunks) Post w := by
  refine seq_ends (look_ends ?_)
  split
  · exact post _ _ rfl mid
  · rename_i writable
    split
    · exact post _ _ rfl mid
    · rename_i i kind
      have opened := mid.held.opened f i kind
      exact writeChunks_ends mid ⟨opened.1, opened.2 (by simpa using writable)⟩ chunks post
    · exact seq_ends (panicIf_ends (by decide) nofun)

theorem sysClose_ends (fd : Int) : EndsGood exact tight p (sysClose p fd) w := by
  refine seq_ends (argfd_ends fun arg => ?_)
  cases arg with
  | none => exact mid.good
  | some found =>
    refine seq_ends (change_ends ?_)
    exact seq_ends (fileclose_ends (mid.setSlot found.1 none) fun _ mid => mid.good)

end

theorem pipeInit_ends {Post : Bool → FsWorld → Prop}
    (mid : Mid exact tight p pend c ours plain w.shared)
    (post : ∀ made s, Mid exact tight p pend c ours plain s → Post made { w with shared := s }) :
    Ends exact tight p (pipeInit rf wf page) Post w := by
  refine act_ends fun _ => ?_
  split
  · exact post _ _ mid
  · rename_i q
    split
    · exact post _ _ mid
    · have made := (mid.setPipe q (some ⟨true, true⟩)).held
      exact post _ _ ⟨mid.law, mid.ahead, (made.setFile (by simp)).setFile (by simp)⟩

theorem pipealloc_ends {Post : Option (FileId × FileId) → FsWorld → Prop}
    (mid : Mid exact tight p pend c ours plain w.shared)
    (post : ∀ pair w', Mid exact tight p pend c ours plain w'.shared → Post pair w') :
    Ends exact tight p (pipealloc page) Post w := by
  refine seq_ends (filealloc_ends mid (post _ _ mid) fun rf s _ mid => ?_)
  refine seq_ends (filealloc_ends mid ?_ fun wf s _ mid => ?_)
  · exact seq_ends (fileclose_ends mid fun _ mid => post _ _ mid)
  · refine seq_ends (pipeInit_ends mid fun made s mid => ?_)
    split
    · exact post _ _ mid
    · exact seq_ends (fileclose_ends mid fun _ mid =>
        seq_ends (fileclose_ends mid fun _ mid => post _ _ mid))

theorem sysPipe_ends (mid : Mid exact tight p 0 c ours plain w.shared) (page : Option PipeId) :
    EndsGood exact tight p (sysPipe p page) w := by
  refine seq_ends (pipealloc_ends mid fun pair w mid => ?_)
  cases pair with
  | none => exact mid.good
  | some pair =>
    refine seq_ends (fdalloc_ends mid ?_ fun slot s _ mid => ?_)
    · exact seq_ends (fileclose_ends mid fun _ mid =>
        seq_ends (fileclose_ends mid fun _ mid => mid.good))
    · refine seq_ends (fdalloc_ends mid ?_ fun _ s _ mid => mid.good)
      refine seq_ends (change_ends ?_)
      exact seq_ends (fileclose_ends (mid.setSlot slot none) fun _ mid =>
        seq_ends (fileclose_ends mid fun _ mid => mid.good))

/-! ## Calls on processes -/

theorem iputCwd_ends (mid : Mid exact tight p 0 (some cwd) ours plain w.shared)
    (post : ∀ w', Mid exact tight p 0 none ours plain w'.shared → Post () w') :
    Ends exact tight p (iputCwd p) Post w := by
  have here := mid.held.home cwd rfl
  refine seq_ends (act_ends fun _ => ?_)
  rw [here]
  cases cwd with
  | none => exact fun bad => nomatch bad.2
  | some i =>
    have held : Held tight p none (i ::ₘ ours) plain w.shared := by
      refine ⟨fun k => ?_, nofun, fun tightly k member => ?_, mid.held.plain, mid.held.opened,
        mid.held.valid⟩
      · have count := mid.held.counted k
        simpa [Multiset.singleton_add] using count
      · rcases member with none | member
        · cases none
        · rcases Multiset.mem_cons.mp member with rfl | old
          · exact mid.held.typed tightly _ (.inl rfl)
          · exact mid.held.typed tightly _ (.inr old)
    exact iput_ends ⟨mid.law, mid.ahead, held⟩ post

theorem sysChdir_ends (mid : Mid exact tight p 0 (some cwd) 0 none w.shared) (path : Path) :
    EndsGood exact tight p (sysChdir p path) w := by
  refine seq_ends (namei_ends path mid (fun _ mid => mid.good) fun w ip mid => ?_)
  refine seq_ends (ilock_ours mid fun _ _ valid mid => ?_)
  refine seq_ends (look_ends ?_)
  split
  · exact seq_ends (iunlockput_ends mid fun _ mid => mid.good)
  · refine seq_ends (iunlock_ends ?_)
    refine seq_ends (iputCwd_ends mid fun w mid => ?_)
    exact seq_ends (change_ends (mid.good.same rfl fun _ => ⟨rfl, rfl⟩))

theorem readImage_ends (mid : Mid exact tight p pend c (ip ::ₘ ours) plain w.shared) (reads : Nat)
    (post : ∀ w', Mid exact tight p pend c (ip ::ₘ ours) plain w'.shared → Post () w') :
    Ends exact tight p (readImage ip reads) Post w := by
  induction reads generalizing w with
  | zero => exact post w mid
  | succ reads ih =>
    have typed := fun tightly => mid.held.typed tightly ip (.inr (Multiset.mem_cons_self ip ours))
    exact seq_ends (readi_ends mid.held typed fun locks valid held =>
      ih (mid.withHeld held))

theorem exec_ends (mid : Mid exact tight p 0 (some cwd) 0 none w.shared) (path : Path) (reads : Nat)
    (loads : Bool) :
    EndsGood exact tight p (exec p path reads loads) w := by
  refine seq_ends (namei_ends path mid (fun _ mid => mid.good) fun w ip mid => ?_)
  refine seq_ends (ilock_ours mid fun _ _ valid mid => ?_)
  refine seq_ends (readImage_ends mid reads fun w mid => ?_)
  exact seq_ends (iunlockput_ends mid fun _ mid => mid.good)

theorem forkSlots_ends (good : Good exact tight w.shared)
    (slots : List (Fin NOFILE)) (post : ∀ w', Good exact tight w'.shared → Post () w') :
    Ends exact tight p (forkSlots p np slots) Post w := by
  induction slots generalizing w with
  | nil => exact post w good
  | cons fd rest ih =>
    refine seq_ends (act_ends fun _ => ?_)
    split
    · exact ih good
    · rename_i f _
      split
      · exact not_bad (by decide)
      · exact ih (good.same rfl (setRef_same w.shared.file f _))

theorem allocproc_ends {Post : Option ProcId → FsWorld → Prop} (full : Post none w)
    (post : ∀ np, Post (some np) { w with shared := w.shared.setLife np .embryo }) :
    Ends exact tight p allocproc Post w := by
  refine act_ends fun _ => ?_
  split
  · exact post _
  · exact full

theorem sysFork_ends (good : Good exact tight w.shared) (memory : Bool) :
    EndsGood exact tight p (sysFork p memory) w := by
  have kept : ∀ {s s' : Fs}, Good exact tight s → s'.disk = s.disk → s'.file = s.file →
      Good exact tight s' :=
    fun good disk file => good.same disk fun f => by rw [file]; exact ⟨rfl, rfl⟩
  refine seq_ends (allocproc_ends good fun np => ?_)
  dsimp only
  split
  · exact seq_ends (change_ends (kept good rfl rfl))
  · refine seq_ends (change_ends ?_)
    refine seq_ends (forkSlots_ends (by exact kept good rfl rfl) _ fun w good => ?_)
    refine seq_ends (act_ends fun _ => ?_)
    split
    · exact fun bad => nomatch bad.2
    · exact seq_ends (change_ends (kept good rfl rfl))

theorem closeAll_ends
    (mid : Mid exact tight p pend c ours plain w.shared) (slots : List (Fin NOFILE))
    (post : ∀ w', Mid exact tight p pend c ours plain w'.shared → Post () w') :
    Ends exact tight p (closeAll p slots) Post w := by
  induction slots generalizing w with
  | nil => exact post w mid
  | cons fd rest ih =>
    refine seq_ends (look_ends ?_)
    refine seq_ends ?_
    split
    · exact ih mid
    · refine seq_ends (fileclose_ends mid fun w mid => ?_)
      exact change_ends (ih (mid.setSlot fd none))

theorem sysExit_ends (mid : Mid exact tight p 0 (some cwd) 0 none w.shared) :
    EndsGood exact tight p (sysExit p) w := by
  refine seq_ends (panicIf_ends (by decide) fun _ => ?_)
  refine seq_ends (closeAll_ends mid _ fun w mid => ?_)
  refine seq_ends (iputCwd_ends mid fun w mid => ?_)
  refine seq_ends (change_ends ?_)
  exact seq_ends (change_ends (mid.good.same rfl fun _ => ⟨rfl, rfl⟩))

theorem sysWait_ends (good : Good exact tight w.shared) (killed : Bool) :
    EndsGood exact tight p (sysWait p killed) w := by
  refine act_ends fun _ => ?_
  dsimp only
  split
  · exact good.same rfl fun _ => ⟨rfl, rfl⟩
  · split
    · exact good
    · exact fun bad => nomatch bad.2

/-! ## Every call -/

theorem withPath_ends {call : Path → Op Int} (good : Good exact tight w.shared) (path : Option Path)
    (ends : ∀ path, EndsGood exact tight p (call path) w) :
    EndsGood exact tight p (withPath path call) w := by
  cases path with
  | none => exact good
  | some path => exact ends path

theorem onFile_ends {op : FileId → Op Int} (good : Good exact tight w.shared)
    (ends : ∀ f, EndsGood exact tight p (op f) w) (arg : Option (Fin NOFILE × FileId)) :
    EndsGood exact tight p (match arg with | none => return -1 | some (_, f) => op f) w := by
  cases arg with
  | none => exact good
  | some found => exact ends found.2

theorem program_ends (mid : Mid exact tight p 0 (some cwd) 0 none w.shared) (call : Call) :
    EndsGood exact tight p (program p call) w := by
  have good := mid.good
  cases call with
  | fork memory => exact sysFork_ends good memory
  | exit => exact sysExit_ends mid
  | wait killed => exact sysWait_ends good killed
  | «open» path omode => exact withPath_ends good path fun path => sysOpen_ends mid path omode
  | dup fd => exact sysDup_ends mid fd
  | read fd => exact seq_ends (argfd_ends (onFile_ends good (fileread_ends mid)))
  | write fd chunks =>
    exact seq_ends (argfd_ends (onFile_ends good fun f =>
      filewrite_ends mid f chunks fun _ _ _ mid => mid.good))
  | close fd => exact sysClose_ends mid fd
  | fstat fd => exact seq_ends (argfd_ends (onFile_ends good (filestat_ends mid)))
  | pipe page => exact sysPipe_ends mid page
  | link old new =>
    exact withPath_ends good old fun old => withPath_ends good new fun new =>
      sysLink_ends mid old new
  | unlink path => exact withPath_ends good path fun path => sysUnlink_ends mid path
  | mkdir path => exact withPath_ends good path fun path => sysMake_ends mid path (by decide)
  | mknod path major minor =>
    exact withPath_ends good path fun path => sysMake_ends mid path (by decide)
  | chdir path => exact withPath_ends good path fun path => sysChdir_ends mid path
  | exec path reads loads =>
    exact withPath_ends good path fun path => exec_ends mid path reads loads

end
end Xv6.LinkCalls
