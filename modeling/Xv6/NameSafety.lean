import Xv6.FileSafety

/-! The calls that enter and remove names, and `sys_open`, end with what an idle
process owns. They lock a directory and then an inode found in it or made for it,
which is never an older directory. -/
namespace Xv6.Ownership
open CheckedC LockProgram FileSystem SysFile Tally Function

section
variable {t : ProcId} {l l' : Local}

/-! ## Calls on names -/

theorem Adds.add (r : Refs) (i : Inum) : Adds r i (r.add i) := ⟨rfl, fun _ _ known => known⟩

theorem Adds.mem (adds : Adds r i r') : i ∈ r'.bag := by
  rw [adds.bag]
  exact Multiset.mem_cons_self i _

theorem Adds.learn (adds : Adds r i r') (type : FileType) : Adds r i (r'.learn i type) :=
  ⟨(Refs.learn_bag _ _ _).trans adds.bag, fun j x known => Refs.learn_keeps (adds.keeps j x known)⟩

theorem Idle.dropped (idle : Idle l) (adds : Adds l.refs i r)
    (loose : Loose (l.setRefs (r.drop i)) l') : Idle l' := by
  have bag : r.bag.erase i = l.refs.bag := by
    rw [adds.bag]
    exact Multiset.erase_cons_head i _
  refine idle.loose loose bag fun j cwd => ?_
  have known := idle.typed j cwd
  refine Refs.drop_keeps (adds.keeps j _ known) ?_
  rw [bag]
  exact l.refs.backed j (by simp [known])

theorem Adds.drop_first (adds : Adds (r.add j) i r') : Adds r i (r'.drop j) := by
  have bag : r'.bag.erase j = i ::ₘ r.bag := by
    rw [adds.bag]
    change (i ::ₘ j ::ₘ r.bag).erase j = _
    rw [Multiset.cons_swap, Multiset.erase_cons_head]
  refine ⟨bag, fun k x known => Refs.drop_keeps (adds.keeps k x known) ?_⟩
  rw [bag]
  exact Multiset.mem_cons_of_mem (r.backed k (by simp [known]))

theorem dirlink_locked (locked : Locked l dp l') (alive : l.life = .alive)
    (typed : l.refs.typed ip = some type) (plain : type ≠ .dir) :
    Safe (discipline mode) t (dirlink dp name ip) l' fun _ m => Locked l dp m := by
  obtain ⟨kind, some, _, _, rfl⟩ := locked
  refine safe_mono (dirlink_safe alive (update_self dp _ _)
    fun _ => .inr ⟨type, plain, .inl typed⟩) ?_
  rintro _ _ ⟨rfl, ⟨_, rfl⟩ | ⟨_, rfl⟩⟩ <;> exact ⟨.dir, some, _, _, rfl⟩

theorem addNlink_loose (loose : Loose l l') (alive : l.life = .alive) :
    Safe (discipline mode) t (addNlink j n) l' fun _ m => Loose l m := by
  obtain ⟨_, _, rfl⟩ := loose
  refine safe_mono (addNlink_safe alive) ?_
  rintro _ _ rfl
  exact ⟨_, _, rfl⟩

theorem undoLink_safe (loose : Loose l l') (alive : l.life = .alive)
    (quiet : ∀ j, l.held j = none) (member : ip ∈ l.refs.bag) :
    Safe (discipline mode) t (undoLink ip) l' fun _ m => Loose (l.unref ip) m := by
  refine safe_then (ilock_quiet loose alive quiet) ?_
  rintro _ _ ⟨_, _, loose⟩
  refine safe_then (addNlink_loose loose alive) fun _ _ loose => ?_
  exact safe_then (iunlockput_held loose alive (quiet ip) member) fun _ _ loose => loose

theorem safe_type (loose : Loose (l.hold i (some type)) l') (alive : l.life = .alive)
    (post : (∀ x, l.refs.typed i = some x → x = type) → Post type l') :
    Safe (discipline mode) t (look fun s => s.disk.type i) l' Post := by
  obtain ⟨_, _, rfl⟩ := loose
  refine safe_look alive fun w g inv here => ?_
  have seen : w.shared.disk.type i = type := by
    refine (inv.locks.seen t i type ?_).1
    rw [here]
    exact update_self i _ _
  rw [seen]
  refine post fun x known => ?_
  rw [← seen]
  refine (inv.nodes.typed t i x ?_).1.symm
  rw [here]
  exact known

theorem sysLink_safe (old new : Path) (alive : l.life = .alive) (idle : Idle l) :
    Safe (discipline mode) t (sysLink t old new) l fun _ l' => Idle l' := by
  have quiet := idle.held
  refine safe_then (namei_safe old alive quiet) ?_
  rintro (_ | ip) m found
  · exact idle.loose_self found
  · refine safe_then (ilock_quiet (l := l.ref ip) found alive quiet) ?_
    rintro _ m ⟨type, some, loose⟩
    have locked : Locked (l.ref ip) ip m := ⟨type, some, loose⟩
    apply safe_bind
    refine safe_type loose alive fun agree => ?_
    split
    · exact safe_then (iunlockput_locked locked alive quiet)
        fun _ _ loose => idle.loose_self loose
    · rename_i plain
      refine safe_then (addNlink_loose loose alive) fun _ _ loose => ?_
      refine safe_then (iunlock_learn loose alive (quiet ip)) ?_
      intro _ m loose
      generalize learned : l.setRefs ((l.refs.add ip).learn ip type) = base
      change Loose (l.setRefs ((l.refs.add ip).learn ip type)) m at loose
      rw [learned] at loose
      have held : ∀ j, base.held j = none := by
        rw [← learned]
        exact quiet
      have living : base.life = .alive := by
        rw [← learned]
        exact alive
      have member : ip ∈ base.refs.bag := by
        rw [← learned]
        exact (Refs.learn_bag _ _ _).symm ▸ Multiset.mem_cons_self ip _
      have typed : base.refs.typed ip = Option.some type := by
        rw [← learned]
        obtain ⟨x, known⟩ := Refs.learn_typed (r := l.refs.add ip) type
          (Multiset.mem_cons_self ip _)
        rcases Refs.typed_of_learn known with before | ⟨_, rfl⟩
        · exact agree x before ▸ known
        · exact known
      have done : ∀ m, Loose (base.unref ip) m → Idle m := by
        rw [← learned]
        exact fun m loose => idle.dropped ((Adds.add _ _).learn _) loose
      refine safe_then (nameiparent_safe new loose living held) ?_
      rintro (_ | ⟨dp, name⟩) m found
      · exact safe_mono (undoLink_safe found living held member) fun _ m loose => done m loose
      · refine safe_then (ilock_quiet (l := base.ref dp) found living held) fun _ _ locked => ?_
        refine safe_then (dirlink_locked locked living typed plain) fun _ _ locked => ?_
        split
        · refine safe_then (iunlockput_locked locked living held) fun _ _ loose => ?_
          exact safe_mono (undoLink_safe loose living held member) fun _ m loose => done m loose
        · refine safe_then (iunlockput_locked locked living held) fun _ _ loose => ?_
          exact safe_then (iput_loose loose living member) fun _ m loose => done m loose

/-! ## Two locks -/

theorem Loose.alive (loose : Loose l l') (alive : l.life = .alive) : l'.life = .alive := by
  obtain ⟨_, _, rfl⟩ := loose
  exact alive

theorem dirlookup_loose (loose : Loose (l.hold dp (some type)) l') (alive : l.life = .alive) :
    Safe (discipline mode) t (dirlookup dp name) l' fun result m => type = .dir ∧
      match result with
      | none => Loose (l.hold dp (some type)) m
      | some (_, i) => Loose ((l.ref i).hold dp (some type)) m ∧
          (Ordinary name → Keeps ((l.ref i).hold dp (some type)) (some (dp, i)) m) := by
  obtain ⟨_, _, rfl⟩ := loose
  refine safe_mono (dirlookup_safe alive (update_self dp _ _)) ?_
  rintro (_ | ⟨_, i⟩) m ⟨rfl, looked⟩
  · rw [show m = _ from looked]
    exact ⟨rfl, _, _, rfl⟩
  · rw [show m = _ from looked]
    refine ⟨rfl, ⟨_, _, rfl⟩, fun ordinary => ?_⟩
    rw [found, if_pos ordinary]
    exact ⟨_, rfl⟩

theorem ilock_second (keeps : Keeps (l.hold dp x) (some (dp, i)) l') (alive : l.life = .alive)
    (quiet : ∀ j, l.held j = none) :
    Safe (discipline mode) t (ilock i) l' fun _ m => i ≠ dp ∧
      ∃ type, Keeps ((l.hold dp x).hold i (some type)) (some (dp, i)) m := by
  obtain ⟨_, rfl⟩ := keeps
  refine safe_mono (ilock_safe alive fun j held => ?_) ?_
  · by_cases here : j = dp
    · rw [here]
      rfl
    · exact absurd ((update_of_ne here _ _).trans (quiet j)) held
  · rintro _ _ ⟨free, type, some, rfl⟩
    refine ⟨?_, type, _, rfl⟩
    rintro rfl
    have held : (l.hold i x).held i = Option.some x := update_self i _ _
    exact absurd (held.symm.trans free) (by simp)

theorem hold_comm (l : Local) (apart : i ≠ dp) (x y : Option FileType) :
    Loose ((l.hold i y).hold dp x) ((l.hold dp x).hold i y) := by
  refine ⟨l.older, none, ?_⟩
  simp only [Local.hold, Local.grip, update_comm apart]

theorem iunlockput_first (loose : Loose (((l.setRefs r).hold dp x).hold i y) l')
    (member : dp ∈ r.bag) (apart : i ≠ dp) (alive : l.life = .alive)
    (quiet : ∀ j, l.held j = none) :
    Safe (discipline mode) t (iunlockput dp) l' fun _ m =>
      Loose ((l.setRefs (r.drop dp)).hold i y) m := by
  have swapped := (hold_comm (l.setRefs r) apart x y).trans loose
  have free : ((l.setRefs r).hold i y).held dp = none :=
    (update_of_ne apart.symm _ _).trans (quiet dp)
  exact safe_mono (iunlockput_held swapped alive free member) fun _ _ dropped => dropped

theorem iunlockput_second (loose : Loose ((((l.ref dp).ref i).hold dp x).hold i y) l')
    (apart : i ≠ dp) (alive : l.life = .alive) (quiet : ∀ j, l.held j = none) :
    Safe (discipline mode) t (iunlockput i) l' fun _ m => Loose ((l.ref dp).hold dp x) m := by
  have free : (((l.ref dp).ref i).hold dp x).held i = none :=
    (update_of_ne apart _ _).trans (quiet i)
  refine safe_mono (iunlockput_held loose alive free (Multiset.mem_cons_self i _)) ?_
  intro _ m dropped
  have same : (((l.ref dp).ref i).hold dp x).unref i = (l.ref dp).hold dp x := by
    simp only [Local.hold, Local.grip, Local.ref, Local.unref, Local.setRefs, Refs.add_drop]
  rwa [same] at dropped

theorem clearEntry_loose (loose : Loose l l') (alive : l.life = .alive) :
    Safe (discipline mode) t (change fun s =>
      { s with disk := s.disk.setEntries dp ((s.disk.entries dp).set off ⟨0, []⟩) }) l'
      fun _ m => Loose l m := by
  obtain ⟨_, _, rfl⟩ := loose
  refine safe_mono (safe_rewrite alive (fun _ => ⟨fun _ => rfl, rfl⟩) fun w g inv _ => ?_) ?_
  · refine inv.tree.setEntries fun _ e member => ?_
    rcases List.mem_or_eq_of_mem_set member with old | rfl
    · exact .inl old
    · exact .inr fun live => absurd rfl live
  · rintro _ _ rfl
    exact ⟨_, _, rfl⟩

theorem unlinkLocked_safe (loose : Loose ((((l.ref dp).ref ip).hold dp x).hold ip (some type)) l')
    (apart : ip ≠ dp) (alive : l.life = .alive) (quiet : ∀ j, l.held j = none) :
    Safe (discipline mode) t (unlinkLocked dp ip off) l' fun _ m => Loose l m := by
  have last : ∀ {i y m}, Loose ((l.ref i).hold i y) m → ∀ value : Int,
      Safe (discipline mode) t (do iunlockput i; return value) m fun _ m => Loose l m := by
    intro i y m loose value
    refine safe_then (iunlockput_held loose alive (quiet i) (Multiset.mem_cons_self i _)) ?_
    intro _ m dropped
    rwa [ref_unref] at dropped
  apply safe_bind
  apply safe_panicIf (loose.alive alive)
  apply safe_bind
  refine safe_look (loose.alive alive) fun _ _ _ _ => ?_
  apply safe_bind
  refine safe_look (loose.alive alive) fun _ _ _ _ => ?_
  split
  · exact safe_then (iunlockput_second loose apart alive quiet) fun _ _ loose => last loose (-1)
  · refine safe_then (clearEntry_loose loose alive) fun _ _ loose => ?_
    apply safe_bind
    have rest : ∀ m, Loose ((((l.ref dp).ref ip).hold dp x).hold ip (some type)) m →
        Safe (discipline mode) t (do iunlockput dp; addNlink ip (-1); iunlockput ip; return 0) m
          fun (_ : Int) m => Loose l m := by
      intro m loose
      refine safe_then (iunlockput_first loose
        (Multiset.mem_cons_of_mem (Multiset.mem_cons_self dp _)) apart alive quiet) fun _ _ loose => ?_
      change Loose ((l.setRefs (((l.refs.add dp).add ip).drop dp)).hold ip (some type)) _ at loose
      rw [Refs.add_add_drop] at loose
      exact safe_then (addNlink_loose loose alive) fun _ _ loose => last loose 0
    split
    · exact safe_mono (addNlink_loose loose alive) fun _ m loose => rest m loose
    · exact rest _ loose

theorem sysUnlink_safe (path : Path) (alive : l.life = .alive) (idle : Idle l) :
    Safe (discipline mode) t (sysUnlink t path) l fun _ l' => Idle l' := by
  have quiet := idle.held
  refine safe_then (nameiparent_safe path (Loose.refl l) alive quiet) ?_
  rintro (_ | ⟨dp, name⟩) m found
  · exact idle.loose_self found
  · refine safe_then (ilock_quiet (l := l.ref dp) found alive quiet) ?_
    rintro _ m ⟨type, some, loose⟩
    split
    · exact safe_then (iunlockput_locked ⟨type, some, loose⟩ alive quiet)
        fun _ _ loose => idle.loose_self loose
    · rename_i plain
      have ordinary : Ordinary name := not_or.mp plain
      refine safe_then (dirlookup_loose loose alive) ?_
      rintro (_ | ⟨off, ip⟩) m ⟨_, looked⟩
      · exact safe_then (iunlockput_locked ⟨type, some, looked⟩ alive quiet)
          fun _ _ loose => idle.loose_self loose
      · refine safe_then (ilock_second (looked.2 ordinary) alive quiet) ?_
        rintro _ m ⟨apart, kind, keeps⟩
        exact safe_mono (unlinkLocked_safe ⟨_, keeps⟩ apart alive quiet)
          fun _ _ loose => idle.loose_self loose

/-! ## Creating -/

theorem addNlink_keeps (keeps : Keeps l o l') (alive : l.life = .alive) :
    Safe (discipline mode) t (addNlink j n) l' fun _ m => Keeps l o m := by
  obtain ⟨_, rfl⟩ := keeps
  refine safe_mono (addNlink_safe alive) ?_
  rintro _ _ rfl
  exact ⟨_, rfl⟩

/-- An entry was made and the order of the locks is still known, or it was not. -/
def Entered (l : Local) (o : Option (Inum × Inum)) (linked : Int) (m : Local) : Prop :=
  (linked = 0 ∧ Keeps l o m) ∨ (linked = -1 ∧ m.life = .alive)

theorem dirlink_keeps (keeps : Keeps l o l') (alive : l.life = .alive)
    (held : l.held dp = some (some type)) (fits : Ordinary name → o = some (dp, i)) :
    Safe (discipline mode) t (dirlink dp name i) l' fun linked m => Entered l o linked m := by
  obtain ⟨_, rfl⟩ := keeps
  refine safe_mono (dirlink_safe alive held fun ordinary => .inl (fits ordinary)) ?_
  rintro linked _ ⟨_, ⟨rfl, rfl⟩ | ⟨rfl, rfl⟩⟩
  · exact .inl ⟨rfl, _, rfl⟩
  · exact .inr ⟨rfl, alive⟩

theorem panicIf_entered (entered : Entered l o linked m) (alive : l.life = .alive)
    (post : Keeps l o m → Post () m) :
    Safe (discipline mode) t (panicIf (fun _ => decide (linked < 0)) message) m Post := by
  rcases entered with ⟨rfl, keeps⟩ | ⟨rfl, living⟩
  · exact safe_panicIf (Loose.alive ⟨_, keeps⟩ alive) (post keeps)
  · refine safe_step living ?_
    intro w g _ _ value s ran
    cases ran

theorem ialloc_loose (loose : Loose (l.hold dp (some .dir)) l') (alive : l.life = .alive) :
    Safe (discipline mode) t (ialloc type) l' fun i m => ∃ r, Claimed mode l.refs i type r ∧
      Keeps ((l.setRefs r).hold dp (some .dir)) (some (dp, i)) m := by
  obtain ⟨_, _, rfl⟩ := loose
  refine safe_mono (ialloc_safe alive (update_self dp _ _)) ?_
  rintro i _ ⟨r, claimed, rfl⟩
  exact ⟨r, claimed, _, rfl⟩

/-- What `create` returns: an inode of the type that was asked for, if `ialloc` claims its
inodes in time, locked. -/
def Made (mode : Mode) (l : Local) (type : FileType) (ip : Inum) (m : Local) : Prop :=
  ∃ r kind, Adds l.refs ip r ∧ Loose ((l.setRefs r).hold ip (some kind)) m ∧
    (mode.claimed → type ≠ .free → ∀ x, (r.learn ip kind).typed ip = some x → x = type)

theorem setDevice_keeps (keeps : Keeps l o l') (alive : l.life = .alive) :
    Safe (discipline mode) t (change fun s =>
      { s with disk := (s.disk.setDevice i major minor).setNlink i n }) l' fun _ m =>
      Keeps l o m := by
  obtain ⟨_, rfl⟩ := keeps
  have types : ∀ (s : Fs) j, ((s.disk.setDevice i major minor).setNlink i n).type j =
      s.disk.type j := fun s j => (setNlink_type i j n).trans (setDevice_type i j major minor)
  refine safe_mono (safe_rewrite alive (fun s => ⟨types s, rfl⟩)
    fun w _ inv _ => inv.tree.congr (types w.shared) rfl rfl rfl) ?_
  rintro _ _ rfl
  exact ⟨_, rfl⟩

theorem createNew_safe (loose : Loose ((l.ref dp).hold dp (some .dir)) l')
    (alive : l.life = .alive) (quiet : ∀ j, l.held j = none) :
    Safe (discipline mode) t (createNew dp name type major minor) l' fun ip m =>
      Made mode l type ip m := by
  refine safe_then (ialloc_loose loose alive) ?_
  rintro ip _ ⟨r, claimed, keeps⟩
  refine safe_then (ilock_second keeps alive quiet) ?_
  rintro _ _ ⟨apart, kind, keeps⟩
  have parent : (((l.setRefs r).hold dp (some .dir)).hold ip (some kind)).held dp =
      some (some .dir) := (update_of_ne apart.symm _ _).trans (update_self dp _ _)
  have child : (((l.setRefs r).hold dp (some .dir)).hold ip (some kind)).held ip =
      some (some kind) := update_self ip _ _
  have member : dp ∈ r.bag := by
    rw [claimed.bag]
    exact Multiset.mem_cons_of_mem (Multiset.mem_cons_self dp _)
  refine safe_then (setDevice_keeps keeps alive) fun _ _ keeps => ?_
  have last : ∀ m, Keeps (((l.setRefs r).hold dp (some .dir)).hold ip (some kind))
      (some (dp, ip)) m → Safe (discipline mode) t (do
        let linked ← dirlink dp name ip
        panicIf (fun _ => decide (linked < 0)) "create: dirlink"
        iunlockput dp
        return ip) m fun ip m => Made mode l type ip m := by
    intro m keeps
    refine safe_then (dirlink_keeps keeps alive parent fun _ => rfl) fun _ _ entered => ?_
    apply safe_bind
    refine panicIf_entered entered alive fun keeps => ?_
    refine safe_then (iunlockput_first ⟨_, keeps⟩ member apart alive quiet) fun _ _ loose => ?_
    refine ⟨_, kind, claimed.toAdds.drop_first, loose, fun claims some x learned => ?_⟩
    have known : (r.drop dp).typed ip = Option.some type :=
      Refs.drop_keeps (claimed.known claims some) claimed.toAdds.drop_first.mem
    exact Option.some.inj (learned.symm.trans (Refs.learn_keeps known))
  apply safe_bind
  split
  · refine safe_then (addNlink_keeps keeps alive) fun _ _ keeps => ?_
    refine safe_then (dirlink_keeps keeps alive child fun ordinary => absurd rfl ordinary.1)
      fun _ _ entered => ?_
    apply safe_bind
    refine panicIf_entered entered alive fun keeps => ?_
    refine safe_then (dirlink_keeps keeps alive child fun ordinary => absurd rfl ordinary.2)
      fun _ _ entered => ?_
    exact panicIf_entered entered alive fun keeps => last _ keeps
  · exact last _ keeps

theorem create_safe (path : Path) (alive : l.life = .alive) (quiet : ∀ j, l.held j = none) :
    Safe (discipline mode) t (create t path type major minor) l fun result m =>
      match result with
      | none => Loose l m
      | some ip => Made mode l type ip m := by
  refine safe_then (nameiparent_safe path (Loose.refl l) alive quiet) ?_
  rintro (_ | ⟨dp, name⟩) m found
  · exact found
  · refine safe_then (ilock_quiet (l := l.ref dp) found alive quiet) ?_
    rintro _ m ⟨kind, some, loose⟩
    refine safe_then (dirlookup_loose loose alive) ?_
    rintro (_ | ⟨off, ip⟩) m ⟨rfl, looked⟩
    · exact safe_then (createNew_safe looked alive quiet) fun _ _ made => made
    · refine safe_then (iunlockput_held looked.1 alive (quiet dp)
        (Multiset.mem_cons_of_mem (Multiset.mem_cons_self dp _))) fun _ m dropped => ?_
      rw [ref_ref_unref] at dropped
      refine safe_then (ilock_quiet dropped alive quiet) ?_
      rintro _ m ⟨kind, some, loose⟩
      apply safe_bind
      refine safe_type loose alive fun agree => ?_
      split
      · rename_i file
        refine ⟨_, kind, Adds.add _ _, loose, fun _ _ x learned => ?_⟩
        rw [file.1, ← file.2]
        exact (Refs.typed_of_learn learned).elim (agree x) And.right
      · exact safe_then (iunlockput_locked ⟨kind, some, loose⟩ alive quiet) fun _ _ loose => loose

theorem sysMake_safe (path : Path) (alive : l.life = .alive) (idle : Idle l) :
    Safe (discipline mode) t (sysMake t path type major minor) l fun _ l' => Idle l' := by
  refine safe_then (create_safe path alive idle.held) ?_
  rintro (_ | ip) m made
  · exact idle.loose_self made
  · obtain ⟨r, kind, adds, loose, -⟩ := made
    exact safe_then (iunlockput_held loose alive (idle.held ip) adds.mem)
      fun _ _ dropped => idle.dropped adds dropped

/-! ## Opening -/

theorem openInode_safe (path : Path) (alive : l.life = .alive) (quiet : ∀ j, l.held j = none) :
    Safe (discipline mode) t (openInode t path omode) l fun result m =>
      match result with
      | none => Loose l m
      | some ip => ∃ r kind, Adds l.refs ip r ∧ Loose ((l.setRefs r).hold ip (some kind)) m ∧
          (mode.claimed → writes omode = true →
            ∀ x, (r.learn ip kind).typed ip = some x → x ≠ .dir) := by
  unfold openInode
  split
  · refine safe_mono (create_safe path alive quiet) ?_
    rintro (_ | ip) m made
    · exact made
    · obtain ⟨r, kind, adds, loose, file⟩ := made
      exact ⟨r, kind, adds, loose, fun claims _ x learned => by
        simp [file claims (by decide) x learned]⟩
  · refine safe_then (namei_safe path alive quiet) ?_
    rintro (_ | ip) m found
    · exact found
    · refine safe_then (ilock_quiet (l := l.ref ip) found alive quiet) ?_
      rintro _ m ⟨kind, some, loose⟩
      apply safe_bind
      refine safe_type loose alive fun agree => ?_
      split
      · exact safe_then (iunlockput_locked ⟨kind, some, loose⟩ alive quiet) fun _ _ loose => loose
      · rename_i allowed
        refine ⟨_, kind, Adds.add _ _, loose, fun _ writable x learned => ?_⟩
        rw [(Refs.typed_of_learn learned).elim (agree x) And.right]
        rintro rfl
        refine allowed ⟨rfl, ?_⟩
        rintro rfl
        cases writable

section
variable (loose : Loose l l') (alive : l.life = .alive)
include loose alive

theorem filealloc_loose (blank : l.blank = []) :
    Safe (discipline mode) t filealloc l' fun result m =>
      match result with
      | none => Loose l m
      | some f => Loose (l.keep (f ::ₘ l.share) [f] l.ends l.refs none) m := by
  obtain ⟨o, a, rfl⟩ := loose
  refine safe_mono (filealloc_safe alive) ?_
  rintro (_ | f) m allocated
  · rw [show m = _ from allocated]
    exact ⟨_, _, rfl⟩
  · obtain ⟨_, rfl⟩ := allocated
    refine ⟨o, a, ?_⟩
    simp only [Local.keep, Local.grip, blank]

theorem fdalloc_loose : Safe (discipline mode) t (fdalloc t f) l' fun result m =>
      match result with
      | none => Loose l m
      | some fd => l.ofile fd = none ∧
          Loose (l.setOwn (update l.ofile fd (some f)) l.cwd) m := by
  obtain ⟨_, _, rfl⟩ := loose
  refine safe_mono (fdalloc_safe alive) ?_
  rintro (_ | fd) m allocated
  · rw [show m = _ from allocated]
    exact ⟨_, _, rfl⟩
  · obtain ⟨empty, rfl⟩ := allocated
    exact ⟨empty, _, _, rfl⟩

theorem openFile_loose (blank : l.blank = [f]) (typed : l.refs.typed ip = some type)
    (plain : mode.claimed → writes omode = true → type ≠ .dir) :
    Safe (discipline mode) t (openFile f ip omode) l' fun _ m =>
      Loose (l.keep l.share [] l.ends (l.refs.drop ip) none) m := by
  obtain ⟨o, a, rfl⟩ := loose
  refine safe_mono (openFile_safe alive ?_ typed plain) ?_
  · change f ∈ l.blank
    rw [blank]
    exact List.mem_singleton_self f
  · rintro _ _ rfl
    have empty : l.blank.filter (· ≠ f) = [] := by simp [blank]
    refine ⟨o, a, ?_⟩
    simp only [Local.keep, Local.grip, empty]

theorem closeFresh_loose (share : l.share = f ::ₘ m) (blank : l.blank = [f]) :
    Safe (discipline mode) t (fileclose f) l' fun _ n =>
      Loose (l.keep m [] l.ends l.refs none) n := by
  obtain ⟨_, _, rfl⟩ := loose
  refine safe_mono (closeFresh_safe alive share blank) ?_
  rintro _ _ ⟨_, _, rfl⟩
  exact ⟨_, _, rfl⟩

end

theorem sysOpen_safe (path : Path) (alive : l.life = .alive) (idle : Idle l) :
    Safe (discipline mode) t (sysOpen t path omode) l fun _ l' => Idle l' := by
  have quiet := idle.held
  have closed : Idle (l.keep l.share [] l.ends l.refs none) :=
    ⟨idle.child, idle.share, rfl, idle.ends, idle.refs, idle.typed, idle.held⟩
  refine safe_then (openInode_safe path alive quiet) ?_
  rintro (_ | ip) m found
  · exact idle.loose_self found
  · obtain ⟨r, kind, adds, loose, plain⟩ := found
    refine safe_then (filealloc_loose loose alive idle.blank) ?_
    rintro (_ | f) m allocated
    · exact safe_then (iunlockput_held (l := l.setRefs r) allocated alive (quiet ip) adds.mem)
        fun _ _ dropped => idle.dropped adds dropped
    · refine safe_then (fdalloc_loose allocated alive) ?_
      rintro (_ | fd) m slot
      · refine safe_then (closeFresh_loose slot alive rfl rfl) fun _ m loose => ?_
        exact safe_then (iunlockput_held (l := l.keep l.share [] l.ends r none) loose alive
          (quiet ip) adds.mem) fun _ _ dropped => closed.dropped adds dropped
      · obtain ⟨empty, loose⟩ := slot
        refine safe_then (iunlock_learn (l := (l.keep (f ::ₘ l.share) [f] l.ends r none).setOwn
          (update l.ofile fd (some f)) l.cwd) loose alive (quiet ip)) fun _ m loose => ?_
        obtain ⟨type, typed⟩ := Refs.learn_typed kind adds.mem
        refine safe_then (openFile_loose loose alive rfl typed
          fun claims writable => plain claims writable type typed) fun _ m loose => ?_
        have opened : Idle ((l.keep (f ::ₘ l.share) [] l.ends l.refs none).setOwn
            (update l.ofile fd (some f)) l.cwd) := by
          refine ⟨idle.child, ?_, rfl, idle.ends, idle.refs, idle.typed, idle.held⟩
          rw [show _ = f ::ₘ l.share from rfl, idle.share]
          exact (slots_fill empty f).symm
        exact opened.dropped (adds.learn kind) loose

end
end Xv6.Ownership
