import Xv6.ProcSteps

/-! Paths, files and descriptors: what the functions of fs.c and file.c do to the
ghost state of the process that calls them, and that the calls on descriptors
end with what an idle process owns. -/
namespace Xv6.Ownership
open CheckedC LockProgram FileSystem SysFile Tally Function

/-! ## What is learned of an inode -/

namespace Refs

def learn (r : Refs) (i : Inum) (type : FileType) : Refs :=
  if r.typed i = none then r.know i type else r

theorem learn_bag (r : Refs) (i : Inum) (type : FileType) : (r.learn i type).bag = r.bag := by
  unfold learn
  split <;> rfl

theorem typed_of_learn {r : Refs} (known : (r.learn i type).typed j = some x) :
    r.typed j = some x ∨ (j = i ∧ x = type) := by
  unfold learn at known
  split at known
  · simp only [know] at known
    split at known
    · by_cases here : j = i
      · subst here
        rw [update_self] at known
        exact .inr ⟨rfl, (Option.some.inj known).symm⟩
      · rw [update_of_ne here] at known
        exact .inl known
    · exact .inl known
  · exact .inl known

theorem learn_keeps {r : Refs} (known : r.typed j = some x) :
    (r.learn i type).typed j = some x := by
  unfold learn
  split
  · rename_i unknown
    simp only [know]
    split
    · rw [update_of_ne]
      · exact known
      · rintro rfl
        rw [unknown] at known
        cases known
    · exact known
  · exact known

theorem learn_typed {r : Refs} (type : FileType) (member : i ∈ r.bag) :
    ∃ x, (r.learn i type).typed i = some x := by
  unfold learn
  split
  · exact ⟨type, by simp [know, member]⟩
  · rename_i known
    exact Option.ne_none_iff_exists'.mp known

theorem drop_keeps {r : Refs} (known : r.typed j = some x) (member : j ∈ r.bag.erase i) :
    (r.drop i).typed j = some x := by
  simp only [drop]
  split
  · exact known
  · rename_i gone
    rw [update_of_ne]
    · exact known
    · rintro rfl
      exact gone member

end Refs

/-- The same ownership, with this much remembered of the order of the locks. -/
def Keeps (l : Local) (o : Option (Inum × Inum)) (l' : Local) : Prop :=
  ∃ a, l' = l.grip l.refs l.held o a

/-- The same ownership, whatever is remembered of the locks. -/
def Loose (l l' : Local) : Prop := ∃ o, Keeps l o l'

def Locked (l : Local) (i : Inum) (l' : Local) : Prop :=
  ∃ type, type ≠ .free ∧ Loose (l.hold i (some type)) l'

section
variable {t : ProcId} {l l' : Local}

theorem Loose.refl (l : Local) : Loose l l := ⟨_, _, rfl⟩

theorem Loose.trans (first : Loose l m) (second : Loose m n) : Loose l n := by
  obtain ⟨_, _, rfl⟩ := first
  obtain ⟨_, _, rfl⟩ := second
  exact ⟨_, _, rfl⟩

theorem Idle.loose (idle : Idle l) (loose : Loose (l.setRefs r) l') (bag : r.bag = l.refs.bag)
    (typed : ∀ i, l.cwd = some i → r.typed i = some .dir) : Idle l' := by
  obtain ⟨_, _, rfl⟩ := loose
  exact ⟨idle.child, idle.share, idle.blank, idle.ends, bag.trans idle.refs, typed, idle.held⟩

theorem Idle.loose_self (idle : Idle l) (loose : Loose l l') : Idle l' :=
  idle.loose loose rfl idle.typed

theorem Idle.congr (idle : Idle l) (same : l'.toBase = l.toBase) : Idle l' := by
  cases l'
  cases same
  exact ⟨idle.child, idle.share, idle.blank, idle.ends, idle.refs, idle.typed, idle.held⟩

theorem Idle.mem_share (idle : Idle l) (full : l.ofile fd = some f) : f ∈ l.share := by
  rw [idle.share]
  exact mem_slots full

/-! ## Locking one inode -/

theorem hold_back (quiet : l.held i = none) :
    update (update l.held i (some x)) i none = l.held := by
  rw [update_idem, ← quiet, update_eq_self]

theorem ilock_quiet (loose : Loose l l') (alive : l.life = .alive)
    (quiet : ∀ j, l.held j = none) : Safe (discipline mode) t (ilock i) l' fun _ m => Locked l i m := by
  obtain ⟨_, _, rfl⟩ := loose
  refine safe_mono (ilock_safe alive fun j held => absurd (quiet j) held) ?_
  rintro _ _ ⟨_, type, some, rfl⟩
  exact ⟨type, some, _, _, rfl⟩

theorem Locked.alive (locked : Locked l i l') (alive : l.life = .alive) : l'.life = .alive := by
  obtain ⟨_, _, _, _, rfl⟩ := locked
  exact alive

theorem iunlock_locked (locked : Locked l i l') (alive : l.life = .alive)
    (quiet : ∀ j, l.held j = none) :
    Safe (discipline mode) t (iunlock i) l' fun _ m => Loose l m := by
  obtain ⟨type, _, o, a, rfl⟩ := locked
  refine safe_mono (iunlock_safe alive) ?_
  rintro _ _ rfl
  refine ⟨none, none, ?_⟩
  simp only [Local.unhold, Local.hold, Local.grip, hold_back (quiet i)]

theorem ref_unref (l : Local) (i : Inum) : (l.ref i).unref i = l := by
  simp only [Local.ref, Local.unref, Local.setRefs, Refs.add_drop]

theorem ref_ref_unref (l : Local) (i j : Inum) : ((l.ref i).ref j).unref i = l.ref j := by
  simp only [Local.ref, Local.unref, Local.setRefs, Refs.add_add_drop]

theorem iunlock_learn (loose : Loose (l.hold i (some type)) l') (alive : l.life = .alive)
    (quiet : l.held i = none) :
    Safe (discipline mode) t (iunlock i) l' fun _ m =>
      Loose (l.setRefs (l.refs.learn i type)) m := by
  obtain ⟨_, _, rfl⟩ := loose
  refine safe_mono (iunlock_keep_safe (r := l.refs.learn i type) alive
    (Refs.learn_bag _ _ _) ?_) ?_
  · intro j x known
    rcases Refs.typed_of_learn known with before | ⟨rfl, rfl⟩
    · exact .inl before
    · exact .inr ⟨rfl, update_self j _ _⟩
  · rintro _ _ rfl
    refine ⟨none, none, ?_⟩
    simp only [Local.hold, Local.grip, Local.setRefs, hold_back quiet]

theorem iunlockput_held (loose : Loose (l.hold i x) l') (alive : l.life = .alive)
    (quiet : l.held i = none) (member : i ∈ l.refs.bag) :
    Safe (discipline mode) t (iunlockput i) l' fun _ m => Loose (l.unref i) m := by
  obtain ⟨_, _, rfl⟩ := loose
  refine safe_mono (iunlockput_safe alive member) ?_
  rintro _ _ rfl
  refine ⟨none, none, ?_⟩
  simp only [Local.unref, Local.setRefs, Local.hold, Local.grip, hold_back quiet]

theorem iunlockput_locked (locked : Locked (l.ref i) i l') (alive : l.life = .alive)
    (quiet : ∀ j, l.held j = none) :
    Safe (discipline mode) t (iunlockput i) l' fun _ m => Loose l m := by
  obtain ⟨_, _, loose⟩ := locked
  have dropped : Safe (discipline mode) t (iunlockput i) l' fun _ m =>
      Loose ((l.ref i).unref i) m :=
    iunlockput_held loose alive (quiet i) (Multiset.mem_cons_self i _)
  rwa [ref_unref] at dropped

theorem iput_loose (loose : Loose l l') (alive : l.life = .alive) (member : i ∈ l.refs.bag) :
    Safe (discipline mode) t (iput i) l' fun _ m => Loose (l.unref i) m := by
  obtain ⟨_, _, rfl⟩ := loose
  refine safe_mono (iput_safe alive member) ?_
  rintro _ _ rfl
  exact ⟨none, none, rfl⟩

theorem console_locked (locked : Locked l i l') (alive : l.life = .alive)
    (quiet : ∀ j, l.held j = none) :
    Safe (discipline mode) t (console i) l' fun _ m => Locked l i m := by
  refine safe_then (iunlock_locked locked alive quiet) ?_
  exact fun _ _ loose => ilock_quiet loose alive quiet

theorem readi_locked (locked : Locked l i l') (alive : l.life = .alive)
    (quiet : ∀ j, l.held j = none) :
    Safe (discipline mode) t (readi i) l' fun _ m => Locked l i m := by
  apply safe_bind
  refine safe_look (locked.alive alive) fun _ _ _ _ => ?_
  split
  · exact console_locked locked alive quiet
  · exact locked

/-! ## Paths -/

/-- What `namex` and its kin give: a reference to what was found. -/
def Found (l : Local) (result : Option Inum) (l' : Local) : Prop :=
  match result with
  | none => Loose l l'
  | some i => Loose (l.ref i) l'

theorem walk_safe (parent : Bool) (names : List Name) (alive : l.life = .alive)
    (quiet : ∀ j, l.held j = none) :
    Safe (discipline mode) t (walk parent ip names) (l.ref ip) fun result l' =>
      Found l (result.map (·.1)) l' := by
  induction names generalizing ip l with
  | nil =>
    unfold walk
    split
    · refine safe_then (iput_safe alive (Multiset.mem_cons_self ip _)) ?_
      rintro _ _ rfl
      refine ⟨none, none, ?_⟩
      simp only [Local.ref, Local.setRefs, Local.grip, Refs.add_drop]
    · exact Loose.refl _
  | cons name rest ih =>
    refine safe_then (ilock_quiet (Loose.refl (l.ref ip)) alive quiet) fun _ _ locked => ?_
    apply safe_bind
    refine safe_look (locked.alive alive) fun _ _ _ _ => ?_
    split
    · exact safe_then (iunlockput_locked locked alive quiet) fun _ _ loose => loose
    · split
      · exact safe_then (iunlock_locked (l := l.ref ip) locked alive quiet) fun _ _ loose => loose
      · obtain ⟨type, some, o, a, rfl⟩ := locked
        refine safe_then (dirlookup_safe alive (update_self ip _ _)) ?_
        rintro (_ | ⟨_, next⟩) _ ⟨_, looked⟩
        · subst looked
          exact safe_then (iunlockput_locked ⟨type, some, _, _, rfl⟩ alive quiet)
            fun _ _ loose => loose
        · subst looked
          -- the reference to the directory goes, the one to what was found stays
          refine safe_then (iunlockput_held (l := (l.ref ip).ref next) ⟨_, _, rfl⟩ alive
            (quiet ip) (Multiset.mem_cons_of_mem (Multiset.mem_cons_self ip _))) ?_
          intro _ m loose
          rw [ref_ref_unref] at loose
          obtain ⟨o, a, rfl⟩ := loose
          refine safe_mono (ih (l := l.grip l.refs l.held o a) alive quiet) ?_
          rintro (_ | ⟨i, _⟩) m ⟨_, _, rfl⟩ <;> exact ⟨_, _, rfl⟩

theorem Found.trans (loose : Loose l m) (found : Found m result n) : Found l result n := by
  obtain ⟨_, _, rfl⟩ := loose
  cases result with
  | none => exact Loose.trans ⟨_, _, rfl⟩ found
  | some i => exact Loose.trans ⟨_, _, rfl⟩ found

theorem namex_safe (path : Path) (parent : Bool) (alive : l.life = .alive)
    (quiet : ∀ j, l.held j = none) :
    Safe (discipline mode) t (namex t path parent) l fun result l' =>
      Found l (result.map (·.1)) l' := by
  apply safe_bind
  split
  · refine safe_then (iget_safe alive) ?_
    rintro _ _ rfl
    exact walk_safe parent _ alive quiet
  · refine safe_mono (idupCwd_safe alive) ?_
    rintro ip _ ⟨_, rfl⟩
    exact walk_safe parent _ alive quiet

theorem namei_safe (path : Path) (alive : l.life = .alive) (quiet : ∀ j, l.held j = none) :
    Safe (discipline mode) t (namei t path) l fun result l' => Found l result l' := by
  exact safe_then (namex_safe path false alive quiet) fun _ _ found => found

theorem nameiparent_safe (path : Path) (loose : Loose l l') (alive : l.life = .alive)
    (quiet : ∀ j, l.held j = none) :
    Safe (discipline mode) t (nameiparent t path) l' fun result m =>
      Found l (result.map (·.1)) m := by
  have weaken : ∀ result m, Found l' result m → Found l result m := fun _ _ => Found.trans loose
  obtain ⟨_, _, rfl⟩ := loose
  exact safe_mono (namex_safe path true alive quiet) fun _ m found => weaken _ m found

/-! ## Files -/

theorem fileclose_safe (alive : l.life = .alive) (member : f ∈ l.share) :
    Safe (discipline mode) t (fileclose f) l fun _ l' =>
      Loose (l.keep (l.share.erase f) (l.blank.filter (· ≠ f)) l.ends l.refs none) l' := by
  refine safe_then (closeRef_safe alive member) ?_
  rintro (_ | file) m closed
  · obtain ⟨typed, rfl⟩ := closed
    have same : l.blank.filter (· ≠ f) = l.blank := by
      rw [List.filter_eq_self]
      intro f' blank
      simp only [decide_eq_true_eq]
      rintro rfl
      exact typed blank
    rw [same]
    exact Loose.refl _
  · obtain ⟨_, rfl⟩ := closed
    cases kind : file.kind with
    | none =>
      have none : l.inherit f file = l.keep (l.share.erase f) (l.blank.filter (· ≠ f))
          l.ends l.refs none := by
        simp only [Local.inherit, kind]
      simp only [kind]
      rw [none]
      exact Loose.refl _
    | pipe q =>
      have pipe : l.inherit f file = l.keep (l.share.erase f) (l.blank.filter (· ≠ f))
          ((q, file.writable) ::ₘ l.ends) l.refs none := by
        simp only [Local.inherit, kind]
      simp only [kind]
      rw [pipe]
      refine safe_mono (pipeclose_safe alive (Multiset.mem_cons_self _ _)) ?_
      rintro _ _ rfl
      refine ⟨l.older, l.sole, ?_⟩
      simp only [Local.keep, Local.grip, Multiset.erase_cons_head]
    | inode i =>
      have inode : l.inherit f file = (l.keep (l.share.erase f) (l.blank.filter (· ≠ f))
          l.ends l.refs none).ref i := by
        simp only [Local.inherit, kind]
        rfl
      simp only [kind]
      rw [inode]
      refine safe_mono (iput_safe alive (Multiset.mem_cons_self i _)) ?_
      rintro _ _ rfl
      refine ⟨none, none, ?_⟩
      simp only [Local.ref, Local.setRefs, Local.keep, Local.grip, Refs.add_drop]

theorem Idle.closed (idle : Idle l) (full : l.ofile fd = some f)
    (loose : Loose ((l.keep (l.share.erase f) (l.blank.filter (· ≠ f)) l.ends l.refs none).setOwn
      (update l.ofile fd none) l.cwd) l') : Idle l' := by
  obtain ⟨_, _, rfl⟩ := loose
  refine ⟨idle.child, ?_, ?_, idle.ends, idle.refs, idle.typed, idle.held⟩
  · change l.share.erase f = slots (update l.ofile fd none)
    rw [slots_clear full, idle.share]
  · rw [idle.blank]
    rfl

theorem fileread_safe (alive : l.life = .alive) (quiet : ∀ j, l.held j = none) :
    Safe (discipline mode) t (fileread f) l fun _ l' => Loose l l' := by
  apply safe_bind
  refine safe_look alive fun w _ _ _ => ?_
  split
  · exact Loose.refl l
  · split
    · exact Loose.refl l
    · refine safe_then (ilock_quiet (Loose.refl l) alive quiet) fun _ _ locked => ?_
      refine safe_then (readi_locked locked alive quiet) fun _ _ locked => ?_
      exact safe_then (iunlock_locked locked alive quiet) fun _ _ loose => loose
    · apply safe_bind
      exact safe_panicIf alive (Loose.refl l)

theorem filestat_safe (alive : l.life = .alive) (quiet : ∀ j, l.held j = none) :
    Safe (discipline mode) t (filestat f) l fun _ l' => Loose l l' := by
  apply safe_bind
  refine safe_look alive fun w _ _ _ => ?_
  split
  · refine safe_then (ilock_quiet (Loose.refl l) alive quiet) fun _ _ locked => ?_
    exact safe_then (iunlock_locked locked alive quiet) fun _ _ loose => loose
  · exact Loose.refl l

theorem watch_inv (inv : Inv mode w g) (alive : (g t).life = .alive) (member : f ∈ (g t).share)
    (kind : (w.shared.file f).kind = .inode i) (writable : (w.shared.file f).writable = true) :
    Inv mode w (update g t
      ((g t).keep (g t).share (g t).blank (g t).ends (g t).refs (some (f, i)))) := by
  refine inv.withShares alive (fun _ => ⟨rfl, rfl⟩) (inv.files.shift ?_ inv.files.empty
    (inv.files.blank t) ?_ ?_ fun u f i _ known => (inv.files.writing u f i known).2)
  · intro f
    exact (sub_add_cancel _ _).symm
  · rintro _ _ ⟨⟩
    exact ⟨member, kind, writable⟩
  · intro u f _ blank
    have before := inv.files.blank u f blank
    exact ⟨before.1, before.2.1⟩

theorem writei_locked (locked : Locked l i l') (alive : l.life = .alive)
    (quiet : ∀ j, l.held j = none) (writing : l.writing = some (f, i)) :
    Safe (discipline mode) t (writei i content) l' fun _ m => Locked l i m := by
  obtain ⟨type, some, o, a, rfl⟩ := locked
  apply safe_bind
  refine safe_look alive fun w g inv here => ?_
  have seen : w.shared.disk.type i = type := by
    refine (inv.locks.seen t i type ?_).1
    rw [here]
    exact update_self i _ _
  split
  · split
    · exact safe_then (console_locked ⟨type, some, _, _, rfl⟩ alive quiet) fun _ _ locked => locked
    · exact ⟨type, some, _, _, rfl⟩
  · rename_i directory
    have same : type = .dir := seen.symm.trans directory
    subst same
    refine safe_then (safe_rewrite alive (fun _ => ⟨fun _ => rfl, rfl⟩) ?_) ?_
    · intro w' g' inv' here'
      refine inv'.tree.setEntries fun strictly => ?_
      -- a file that is open for writing is no directory
      obtain ⟨_, kind, writable⟩ := inv'.files.writing t f i (by rw [here']; exact writing)
      have locked : (g' t).held i = Option.some (Option.some .dir) := by
        rw [here']
        exact update_self i _ _
      exact absurd (inv'.locks.seen t i .dir locked).1
        ((inv'.nodes.opened f i kind).2 (.inl strictly) writable)
    · rintro _ _ rfl
      exact ⟨.dir, some, _, _, rfl⟩
  · exact ⟨type, some, _, _, rfl⟩

theorem writeChunks_safe (chunks : List (List Dirent)) (alive : l.life = .alive)
    (quiet : ∀ j, l.held j = none) (writing : l.writing = some (f, i)) :
    Safe (discipline mode) t (writeChunks i chunks) l fun _ l' => Loose l l' := by
  induction chunks generalizing l with
  | nil => exact Loose.refl l
  | cons content rest ih =>
    refine safe_then (ilock_quiet (Loose.refl l) alive quiet) fun _ _ locked => ?_
    refine safe_then (writei_locked locked alive quiet writing) fun wrote _ locked => ?_
    refine safe_then (iunlock_locked locked alive quiet) ?_
    rintro _ _ ⟨_, _, rfl⟩
    split
    · refine safe_mono (ih alive quiet writing) ?_
      rintro _ _ ⟨_, _, rfl⟩
      exact ⟨_, _, rfl⟩
    · exact ⟨_, _, rfl⟩

theorem filewrite_safe (chunks : List (List Dirent)) (alive : l.life = .alive)
    (quiet : ∀ j, l.held j = none) (member : f ∈ l.share) :
    Safe (discipline mode) t (filewrite f chunks) l fun _ l' => l'.toBase = l.toBase := by
  apply safe_bind
  refine safe_step alive ?_
  rintro w g inv here ff s ⟨⟩
  have stay : Inv mode w (update g t l) := by
    rw [← here, update_eq_self]
    exact inv
  cases writable : (w.shared.file f).writable with
  | false =>
    refine ⟨l, stay, Steady.refl, ?_⟩
    rfl
  | true =>
    cases kind : (w.shared.file f).kind with
    | pipe q =>
      refine ⟨l, stay, Steady.refl, ?_⟩
      rfl
    | none =>
      refine ⟨l, stay, Steady.refl, ?_⟩
      apply safe_bind
      exact safe_panicIf alive rfl
    | inode i =>
      subst here
      refine ⟨_, watch_inv inv alive member kind writable, Steady.refl, ?_⟩
      refine safe_mono (writeChunks_safe chunks alive quiet rfl) ?_
      rintro _ _ ⟨_, _, rfl⟩
      rfl

theorem closeFresh_safe (alive : l.life = .alive) (share : l.share = f ::ₘ m)
    (blank : l.blank = [f]) :
    Safe (discipline mode) t (fileclose f) l fun _ l' =>
      Loose (l.keep m [] l.ends l.refs none) l' := by
  have member : f ∈ l.share := by
    rw [share]
    exact Multiset.mem_cons_self f m
  have left : l.share.erase f = m := by rw [share, Multiset.erase_cons_head]
  have empty : l.blank.filter (· ≠ f) = [] := by simp [blank]
  refine safe_mono (fileclose_safe alive member) fun _ _ loose => ?_
  rwa [left, empty] at loose

theorem closePair_safe (alive : l.life = .alive) (share : l.share = wf ::ₘ rf ::ₘ m)
    (apart : wf ≠ rf) (blank : ∀ f ∈ l.blank, f = rf ∨ f = wf) :
    Safe (discipline mode) t (do fileclose rf; fileclose wf; return value) l fun result l' =>
      result = value ∧ Loose (l.keep m [] l.ends l.refs none) l' := by
  have first : rf ∈ l.share := by
    rw [share]
    exact Multiset.mem_cons_of_mem (Multiset.mem_cons_self rf m)
  have left : l.share.erase rf = wf ::ₘ m := by
    rw [share, Multiset.erase_cons_tail _ apart, Multiset.erase_cons_head]
  have empty : (l.blank.filter (· ≠ rf)).filter (· ≠ wf) = [] := by
    simp only [List.filter_filter, List.filter_eq_nil_iff]
    intro f member
    rcases blank f member with rfl | rfl <;> simp
  refine safe_then (fileclose_safe alive first) ?_
  rintro _ _ ⟨_, _, rfl⟩
  rw [left]
  refine safe_then (fileclose_safe alive (Multiset.mem_cons_self wf m)) ?_
  rintro _ l' loose
  refine ⟨rfl, ?_⟩
  simp only [Local.grip, Local.keep, Multiset.erase_cons_head, empty] at loose
  exact loose

theorem pipealloc_safe (alive : l.life = .alive) (blank : l.blank = []) :
    Safe (discipline mode) t (pipealloc page) l fun result l' =>
      match result with
      | none => l'.toBase = l.toBase
      | some (rf, wf) => wf ≠ rf ∧ l' = l.keep (wf ::ₘ rf ::ₘ l.share) [] l.ends l.refs none := by
  have same : (l.keep l.share [] l.ends l.refs none).toBase = l.toBase := by
    rw [← blank]
    rfl
  refine safe_then (filealloc_safe alive) ?_
  rintro (_ | rf) m first
  · rw [show m = l from first]
    rfl
  · obtain ⟨_, rfl⟩ := first
    rw [blank]
    refine safe_then (filealloc_safe alive) ?_
    rintro (_ | wf) m second
    · rw [show m = _ from second]
      refine safe_then (closeFresh_safe alive rfl rfl) ?_
      rintro _ _ ⟨_, _, rfl⟩
      exact same
    · obtain ⟨fresh, rfl⟩ := second
      have apart : wf ≠ rf := fun same => fresh (by rw [same]; exact List.mem_singleton_self rf)
      refine safe_then (pipeInit_safe alive rfl apart) ?_
      rintro allocated _ (⟨rfl, rfl⟩ | ⟨rfl, rfl⟩)
      · refine safe_mono (closePair_safe alive rfl apart ?_) ?_
        · intro f member
          have pair : f ∈ [wf, rf] := member
          simpa [or_comm] using pair
        · rintro _ _ ⟨rfl, _, _, rfl⟩
          exact same
      · exact ⟨apart, rfl⟩

/-! ## Calls on descriptors -/

section
variable (alive : l.life = .alive) (idle : Idle l)
include alive idle

theorem sysDup_safe : Safe (discipline mode) t (sysDup t fd) l fun _ l' => Idle l' := by
  refine safe_then (argfd_safe alive) ?_
  rintro (_ | ⟨slot, f⟩) m ⟨same, full⟩
  · exact same ▸ idle
  · have member := idle.mem_share (full slot f rfl)
    rw [same]
    refine safe_then (fdalloc_safe alive) ?_
    rintro (_ | new) m allocated
    · rw [show m = _ from allocated]
      exact idle
    · obtain ⟨empty, rfl⟩ := allocated
      refine safe_then (filedup_safe alive member ?_) ?_
      · change f ∉ l.blank
        simp [idle.blank]
      · rintro _ _ rfl
        refine ⟨idle.child, ?_, idle.blank, idle.ends, idle.refs, idle.typed, idle.held⟩
        change f ::ₘ l.share = slots (update l.ofile new (some f))
        rw [slots_fill empty, idle.share]

theorem sysRead_safe : Safe (discipline mode) t (sysRead t fd) l fun _ l' => Idle l' := by
  refine safe_then (argfd_safe alive) ?_
  rintro (_ | ⟨slot, f⟩) _ ⟨rfl, _⟩
  · exact idle
  · exact safe_mono (fileread_safe alive idle.held) fun _ _ loose => idle.loose_self loose

theorem sysWrite_safe :
    Safe (discipline mode) t (sysWrite t fd chunks) l fun _ l' => Idle l' := by
  refine safe_then (argfd_safe alive) ?_
  rintro (_ | ⟨slot, f⟩) _ ⟨rfl, full⟩
  · exact idle
  · exact safe_mono (filewrite_safe chunks alive idle.held (idle.mem_share (full slot f rfl)))
      fun _ _ same => idle.congr same

theorem sysFstat_safe : Safe (discipline mode) t (sysFstat t fd) l fun _ l' => Idle l' := by
  refine safe_then (argfd_safe alive) ?_
  rintro (_ | ⟨slot, f⟩) _ ⟨rfl, _⟩
  · exact idle
  · exact safe_mono (filestat_safe alive idle.held) fun _ _ loose => idle.loose_self loose

theorem sysClose_safe : Safe (discipline mode) t (sysClose t fd) l fun _ l' => Idle l' := by
  refine safe_then (argfd_safe alive) ?_
  rintro (_ | ⟨slot, f⟩) _ ⟨rfl, full⟩
  · exact idle
  · have here := full slot f rfl
    have member := idle.mem_share here
    refine safe_then (clearSlot_safe alive) ?_
    rintro _ _ rfl
    exact safe_then (fileclose_safe alive member) fun _ _ loose => idle.closed here loose

theorem sysPipe_safe : Safe (discipline mode) t (sysPipe t page) l fun _ l' => Idle l' := by
  have same : (l.keep l.share [] l.ends l.refs none).toBase = l.toBase := by
    rw [← idle.blank]
    rfl
  refine safe_then (pipealloc_safe alive idle.blank) ?_
  rintro (_ | ⟨rf, wf⟩) m allocated
  · exact idle.congr allocated
  · obtain ⟨apart, rfl⟩ := allocated
    refine safe_then (fdalloc_safe alive) ?_
    rintro (_ | first) m slot
    · rw [show m = _ from slot]
      refine safe_mono (closePair_safe alive rfl apart fun f member => by cases member) ?_
      rintro _ _ ⟨rfl, _, _, rfl⟩
      exact idle.congr same
    · obtain ⟨free, rfl⟩ := slot
      refine safe_then (fdalloc_safe alive) ?_
      rintro (_ | second) m slot
      · rw [show m = _ from slot]
        refine safe_then (clearSlot_safe alive) ?_
        rintro _ _ rfl
        refine safe_mono (closePair_safe alive rfl apart fun f member => by cases member) ?_
        rintro _ _ ⟨rfl, _, _, rfl⟩
        have back : update (update l.ofile first (some rf)) first none =
            l.ofile := by
          rw [update_idem, ← show l.ofile first = none from free, update_eq_self]
        refine idle.congr (Base.ext back rfl rfl rfl rfl ?_ rfl rfl rfl)
        exact idle.blank.symm
      · obtain ⟨empty, rfl⟩ := slot
        refine ⟨idle.child, ?_, rfl, idle.ends, idle.refs, idle.typed, idle.held⟩
        have one : slots (update l.ofile first (some rf)) = rf ::ₘ slots l.ofile :=
          slots_fill free rf
        have two := slots_fill empty wf
        exact ((two.trans (congrArg (wf ::ₘ ·) one)).trans (by rw [idle.share]; rfl)).symm

end

end
end Xv6.Ownership
