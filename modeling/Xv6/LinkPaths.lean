import Xv6.KernelSafety
import Xv6.LinkLaw

/-! The law of link counts through whole calls. A call that runs alone keeps the
law of the disk, in the middle of its work with the links it still owes, together
with what its references protect: an inode it holds is not freed under it, and
no open file that can be written is a directory. -/
namespace Xv6.LinkCalls
open CheckedC LockProgram FileSystem SysFile Ownership Tally LinkLaw Function

/-! ## Conditions on the steps -/

/-- A name is entered only into the root or a directory that has a name itself. -/
def EntersNamed (d : Disk) : Note → Prop
  | .enter dp name _ => Ordinary name → dp = rootIno ∨ ∃ a, ∃ e ∈ d.entries a, Names dp e
  | _ => True

/-- An inode is freed only if no other directory's ".." names it. -/
def FreesNoParent (d : Disk) : Note → Prop
  | .free i => ∀ a, a ≠ i → d.type a = .dir → ∀ e ∈ d.entries a, e.name = dotdot → e.inum ≠ i
  | _ => True

def Met (exact tight : Prop) (w : FsWorld) (_ : ProcId) (note : Note) : Prop :=
  (exact → EntersNamed w.shared.disk note) ∧ (tight → FreesNoParent w.shared.disk note)

/-- If no ".." dangles, no inode is locked that is free. -/
def Bad (tight : Prop) (fault : Fault) : Prop := tight ∧ fault = .panic "ilock: no type"

/-- Process `p` runs the operation alone and ends in `Post`. -/
abbrev Ends (exact tight : Prop) (p : ProcId) (op : Op α) (Post : α → FsWorld → Prop)
    (w : FsWorld) : Prop :=
  op.wp (Met exact tight) (Bad tight) p Post w

/-! ## In the middle of a call -/

/-- What the references of process `p` protect: its working directory, if it is
still known to be `c`, and the inodes it is using. `plain` is an inode it knows to
be no directory. -/
structure Held (tight : Prop) (p : ProcId) (c : Option (Option Inum)) (ours : Multiset Inum)
    (plain : Option Inum) (s : Fs) : Prop where
  counted : ∀ i, tally (onInode i) s.file + (((c.join.toList : Multiset Inum) + ours).count i : Int) ≤
    s.ref i
  home : ∀ cwd, c = some cwd → (s.proc p).cwd = cwd
  typed : tight → ∀ i, c.join = some i ∨ i ∈ ours → s.disk.type i ≠ .free
  plain : ∀ i, plain = some i → s.disk.type i ≠ .dir
  opened : ∀ f i, (s.file f).kind = .inode i →
    s.disk.type i ≠ .free ∧ ((s.file f).writable = true → s.disk.type i ≠ .dir)
  valid : ∀ i, s.valid i = true → s.disk.type i ≠ .free

structure Mid (exact tight : Prop) (p : ProcId) (pend : Inum → Int) (c : Option (Option Inum))
    (ours : Multiset Inum) (plain : Option Inum) (s : Fs) : Prop where
  law : Law exact tight none pend s.disk
  ahead : ∀ i, 0 ≤ pend i
  held : Held tight p c ours plain s

section
variable {exact tight : Prop} {p : ProcId} {pend : Inum → Int} {c : Option (Option Inum)}
  {ours : Multiset Inum} {plain : Option Inum} {s : Fs} {w : FsWorld}

theorem opens_nonneg (file : FileId → File) (i : Inum) : 0 ≤ tally (onInode i) file :=
  tally_nonneg fun f => onInode_nonneg i (file f)

section
variable (held : Held tight p c ours plain s)
include held

theorem Held.ref_nonneg (i : Inum) : 0 ≤ s.ref i := by
  have count := held.counted i
  have opens := opens_nonneg s.file i
  omega

theorem Held.grow {d : Disk} (types : ∀ i, s.disk.type i ≠ .free → d.type i = s.disk.type i)
    (still : ∀ i, plain = some i → d.type i ≠ .dir) :
    Held tight p c ours plain { s with disk := d } where
  counted := held.counted
  home := held.home
  typed tightly i member := by
    have used := held.typed tightly i member
    rw [types i used]
    exact used
  plain := still
  opened f i kind := by
    have before := held.opened f i kind
    rw [types i before.1]
    exact before
  valid i read := by
    have used := held.valid i read
    rw [types i used]
    exact used

theorem Held.sameTypes {d : Disk}
    (types : ∀ i, d.type i = s.disk.type i) : Held tight p c ours plain { s with disk := d } :=
  held.grow (fun i _ => types i) fun i known => by
    rw [types i]
    exact held.plain i known

theorem Held.more {ref : Inum → Int} {valid : Inum → Bool}
    (typed : tight → s.disk.type i ≠ .free) (one : ref i = s.ref i + 1)
    (others : ∀ j, j ≠ i → ref j = s.ref j) (read : ∀ j, valid j = true → s.valid j = true) :
    Held tight p c (i ::ₘ ours) plain { s with ref := ref, valid := valid } where
  counted j := by
    have before := held.counted j
    rw [Multiset.count_add] at before ⊢
    rw [Multiset.count_cons]
    change _ ≤ ref j
    by_cases here : j = i
    · subst here
      push_cast
      omega
    · rw [others j here, if_neg here]
      push_cast
      omega
  home := held.home
  typed tightly j member := by
    rcases member with cwd | member
    · exact held.typed tightly j (.inl cwd)
    · rcases Multiset.mem_cons.mp member with rfl | old
      · exact typed tightly
      · exact held.typed tightly j (.inr old)
  plain := held.plain
  opened := held.opened
  valid j read' := held.valid j (read j read')

theorem Held.read (used : s.disk.type i ≠ .free) :
    Held tight p c ours plain (s.setValid i true) := by
  refine ⟨held.counted, held.home, held.typed, held.plain, held.opened, fun j read => ?_⟩
  by_cases here : j = i
  · rw [here]
    exact used
  · refine held.valid j ?_
    simpa [Fs.setValid, here] using read

end

theorem Mid.withHeld {ref : Inum → Int} {valid : Inum → Bool} {ours' : Multiset Inum}
    (mid : Mid exact tight p pend c ours plain s)
    (held : Held tight p c ours' plain { s with ref := ref, valid := valid }) :
    Mid exact tight p pend c ours' plain { s with ref := ref, valid := valid } :=
  ⟨mid.law, mid.ahead, held⟩

theorem Held.less (held : Held tight p c (i ::ₘ ours) plain s) :
    Held tight p c ours plain (s.addRef i (-1)) where
  counted j := by
    have before := held.counted j
    rw [Multiset.count_add] at before ⊢
    rw [Multiset.count_cons] at before
    change _ ≤ update s.ref i (s.ref i + -1) j
    by_cases here : j = i
    · subst here
      rw [update_self]
      rw [if_pos rfl] at before
      change tally (onInode j) s.file + _ ≤ _
      omega
    · rw [update_of_ne here]
      rw [if_neg here] at before
      exact before
  home := held.home
  typed tightly j member :=
    held.typed tightly j (member.imp id Multiset.mem_cons_of_mem)
  plain := held.plain
  opened := held.opened
  valid := held.valid

theorem Held.sole (held : Held tight p c (i ::ₘ ours) plain s) (last : s.ref i = 1) :
    c.join ≠ some i ∧ i ∉ ours ∧ ∀ f, (s.file f).kind ≠ .inode i := by
  have count := held.counted i
  have opens := opens_nonneg s.file i
  rw [Multiset.count_add, Multiset.count_cons_self, last] at count
  refine ⟨?_, ?_, ?_⟩
  · intro cwd
    rw [cwd] at count
    simp at count
    omega
  · intro member
    have one := Multiset.one_le_count_iff_mem.mpr member
    omega
  · intro f kind
    have weight : onInode i (s.file f) = 1 := if_pos kind
    have most : onInode i (s.file f) ≤ tally (onInode i) s.file :=
      le_tally (fun f => onInode_nonneg i (s.file f)) f
    omega

theorem Held.freed (held : Held tight p c (i ::ₘ ours) plain s) (last : s.ref i = 1) :
    Held tight p c ours plain (({ s with disk := s.disk.release i }.setValid i false).addRef i (-1)) := by
  obtain ⟨elsewhere, gone, closed⟩ := held.sole last
  have less := held.less
  refine ⟨less.counted, less.home, ?_, ?_, ?_, ?_⟩
  · intro tightly j member
    have other : j ≠ i := by
      rintro rfl
      rcases member with cwd | member
      · exact elsewhere cwd
      · exact gone member
    change (s.disk.release i).type j ≠ .free
    rw [release_type other]
    exact less.typed tightly j member
  · intro j known directory
    exact held.plain j known (of_release_dir directory).2
  · intro f j kind
    have other : j ≠ i := by
      rintro rfl
      exact closed f kind
    change (s.disk.release i).type j ≠ .free ∧ (_ → (s.disk.release i).type j ≠ .dir)
    rw [release_type other]
    exact held.opened f j kind
  · intro j read
    have other : j ≠ i := by
      rintro rfl
      simp [Fs.addRef, Fs.setValid] at read
    change (s.disk.release i).type j ≠ .free
    rw [release_type other]
    refine held.valid j ?_
    simpa [Fs.addRef, Fs.setValid, other] using read

theorem not_up (law : Law exact tight none pend d) (directory : d.type a = .dir)
    (unnamed : ∀ e ∈ d.entries a, e.name = dotdot → e.inum ≠ i) : up (d.entries a) ≠ some i := by
  obtain ⟨parent, rest, shape, _⟩ := law.shape a nofun directory
  rw [shape]
  rintro ⟨⟩
  exact unnamed ⟨parent, dotdot⟩ (by simp [shape]) rfl rfl

theorem Mid.freed (mid : Mid exact tight p pend c (i ::ₘ ours) plain s) (last : s.ref i = 1)
    (gone : s.disk.nlink i = 0) (met : tight → FreesNoParent s.disk (.free i)) :
    Mid exact tight p pend c ours plain
      (({ s with disk := s.disk.release i }.setValid i false).addRef i (-1)) :=
  ⟨mid.law.release mid.ahead gone fun tightly a other directory =>
    not_up mid.law directory (met tightly a other directory), mid.ahead, mid.held.freed last⟩

theorem Mid.less (mid : Mid exact tight p pend c (i ::ₘ ours) plain s) :
    Mid exact tight p pend c ours plain (s.addRef i (-1)) :=
  ⟨mid.law, mid.ahead, mid.held.less⟩

/-! ## Inodes -/

variable {Post : Unit → FsWorld → Prop}

theorem look_ends {f : Fs → α} {Post : α → FsWorld → Prop} (post : Post (f w.shared) w) :
    Ends exact tight p (look f) Post w := fun _ => post

theorem change_ends {f : Fs → Fs} (post : Post () { w with shared := f w.shared }) :
    Ends exact tight p (change f) Post w := fun _ => post

theorem not_bad (other : message ≠ "ilock: no type") : ¬ Bad tight (.panic message) :=
  fun bad => other (by simpa using bad.2)

theorem act_ends {run : Fs → Checked (α × Fs)} {Post : α → FsWorld → Prop}
    (outcome : Met exact tight w p note → Outcome (fun r => Post r.1 { w with shared := r.2 })
      (¬ Bad tight ·) (run w.shared)) :
    Ends exact tight p (.act note run) Post w := by
  intro met
  have ends := outcome met
  cases ran : run w.shared with
  | ok result =>
    rw [ran] at ends
    exact ends
  | error fault =>
    rw [ran] at ends
    exact ends

theorem seq_ends {op : Op α} {next : α → Op β} {Post : β → FsWorld → Prop}
    (first : Ends exact tight p op (fun value => Ends exact tight p (next value) Post) w) :
    Ends exact tight p (op >>= next) Post w := Prog.wp_bind.mpr first

theorem panicIf_ends (other : message ≠ "ilock: no type")
    (post : bad w.shared = false → Post () w) :
    Ends exact tight p (panicIf bad message) Post w := by
  refine act_ends fun _ => ?_
  split
  · exact not_bad other
  · rename_i fine
    exact post (by simpa using fine)

theorem iget_ends (held : Held tight p c ours plain w.shared)
    (typed : tight → w.shared.disk.type i ≠ .free)
    (post : ∀ ref valid, Held tight p c (i ::ₘ ours) plain
      { w.shared with ref := ref, valid := valid } →
      Post () { w with shared := { w.shared with ref := ref, valid := valid } }) :
    Ends exact tight p (iget i) Post w := by
  refine act_ends fun _ => ?_
  split
  · exact post _ _ (held.more typed (by simp) (fun j other => by simp [other]) fun _ => id)
  · split
    · have unused : w.shared.ref i = 0 := by
        have nonneg := held.ref_nonneg i
        omega
      refine post _ _ (held.more typed (by simp [unused]) (fun j other => by simp [other]) ?_)
      intro j read
      by_cases here : j = i
      · simp [here] at read
      · simpa [here] using read
    · exact not_bad (by decide)

theorem ilock_ends (held : Held tight p c ours plain w.shared)
    (typed : tight → w.shared.disk.type i ≠ .free)
    (post : w.locks i = none → w.shared.disk.type i ≠ .free → ∀ valid,
      Held tight p c ours plain { w.shared with valid := valid } →
      Post () { w.take p i with shared := { w.shared with valid := valid } }) :
    Ends exact tight p (ilock i) Post w := by
  refine seq_ends (panicIf_ends (by decide) fun _ => ?_)
  refine seq_ends (Prog.wp_lock.mpr fun _ free => act_ends fun _ => ?_)
  split
  · rename_i read
    exact post free (held.valid i read) w.shared.valid held
  · split
    · rename_i blank
      exact fun bad => typed bad.1 blank
    · rename_i used
      exact post free used _ (held.read used)

theorem ilock_ours (mid : Mid exact tight p pend c (i ::ₘ ours) plain w.shared)
    (post : w.locks i = none → w.shared.disk.type i ≠ .free → ∀ valid,
      Mid exact tight p pend c (i ::ₘ ours) plain { w.shared with valid := valid } →
      Post () { w.take p i with shared := { w.shared with valid := valid } }) :
    Ends exact tight p (ilock i) Post w := by
  refine ilock_ends mid.held (fun tightly => ?_) fun free used valid held =>
    post free used valid (mid.withHeld held)
  exact mid.held.typed tightly i (.inr (Multiset.mem_cons_self i ours))

theorem iunlock_ends (post : Post () (w.drop i)) : Ends exact tight p (iunlock i) Post w := by
  refine seq_ends (panicIf_ends (by decide) fun _ => ?_)
  exact fun _ => post

theorem iput_ends (mid : Mid exact tight p pend c (i ::ₘ ours) plain w.shared)
    (post : ∀ w', Mid exact tight p pend c ours plain w'.shared → Post () w') :
    Ends exact tight p (iput i) Post w := by
  refine seq_ends (Prog.wp_lock.mpr fun _ _ => ?_)
  refine seq_ends (look_ends ?_)
  have taken : (w.take p i).shared = w.shared := rfl
  have kept : Ends exact tight p (do Prog.unlock i; change fun s => s.addRef i (-1)) Post
      (w.take p i) :=
    seq_ends (Prog.wp_unlock.mpr fun _ => change_ends (post _ mid.less))
  refine seq_ends ?_
  split
  · rename_i gone
    simp only [Bool.and_eq_true, decide_eq_true_eq] at gone
    refine seq_ends (look_ends ?_)
    split
    · rename_i last
      intro met
      exact seq_ends (Prog.wp_unlock.mpr fun _ =>
        change_ends (post _ (mid.freed last gone.2 met.2)))
    · exact kept
  · exact kept

theorem iunlockput_ends (mid : Mid exact tight p pend c (i ::ₘ ours) plain w.shared)
    (post : ∀ w', Mid exact tight p pend c ours plain w'.shared → Post () w') :
    Ends exact tight p (iunlockput i) Post w :=
  seq_ends (iunlock_ends (iput_ends mid post))

theorem console_ends (held : Held tight p c ours plain w.shared)
    (typed : tight → w.shared.disk.type i ≠ .free)
    (post : ∀ locks valid, Held tight p c ours plain { w.shared with valid := valid } →
      Post () ⟨locks, { w.shared with valid := valid }⟩) :
    Ends exact tight p (console i) Post w :=
  seq_ends (iunlock_ends (ilock_ends held typed fun _ _ valid held => post _ valid held))

theorem readi_ends (held : Held tight p c ours plain w.shared)
    (typed : tight → w.shared.disk.type i ≠ .free)
    (post : ∀ locks valid, Held tight p c ours plain { w.shared with valid := valid } →
      Post () ⟨locks, { w.shared with valid := valid }⟩) :
    Ends exact tight p (readi i) Post w := by
  refine seq_ends (look_ends ?_)
  split
  · exact console_ends held typed post
  · exact post w.locks w.shared.valid held

theorem writei_ends {Post : Bool → FsWorld → Prop} (held : Held tight p c ours plain w.shared)
    (used : w.shared.disk.type i ≠ .free ∧ w.shared.disk.type i ≠ .dir)
    (post : ∀ wrote locks valid, Held tight p c ours plain { w.shared with valid := valid } →
      Post wrote ⟨locks, { w.shared with valid := valid }⟩) :
    Ends exact tight p (writei i content) Post w := by
  refine seq_ends (look_ends ?_)
  split
  · split
    · exact seq_ends (console_ends held (fun _ => used.1) fun locks valid held =>
        post true locks valid held)
    · exact post false w.locks w.shared.valid held
  · rename_i directory
    exact absurd directory used.2
  · exact post true w.locks w.shared.valid held

/-! ## Directories -/

theorem entry_typed (law : Law exact tight none pend d) (tightly : tight)
    (directory : d.type a = .dir) (member : e ∈ d.entries a) (live : e.inum ≠ 0) :
    d.type e.inum ≠ .free := by
  obtain ⟨parent, rest, shape, _, ordinary, kept⟩ := law.shape a nofun directory
  have where_ := member
  rw [shape] at where_
  rcases List.mem_cons.mp where_ with rfl | later
  · simp [directory]
  · rcases List.mem_cons.mp later with rfl | later
    · exact kept tightly
    · have named : Names e.inum e := ⟨rfl, live, ordinary e later live⟩
      exact (law.live e.inum (names_pos.mpr ⟨a, e, member, named⟩)).1

theorem found_typed (law : Law exact tight none pend d) (tightly : tight)
    (directory : d.type a = .dir) (found : lookup name (d.entries a) = some (off, i)) :
    d.type i ≠ .free := by
  obtain ⟨live, entry⟩ := lookup_some found
  exact entry_typed law tightly directory (List.mem_of_getElem? entry) live

theorem lookup_none (missing : lookup name es = none) (member : e ∈ es) (live : e.inum ≠ 0) :
    e.name ≠ name := by
  induction es with
  | nil => cases member
  | cons first rest ih =>
    simp only [lookup] at missing
    split at missing
    · cases missing
    · rename_i other
      rcases List.mem_cons.mp member with rfl | later
      · exact fun same => other ⟨live, same⟩
      · exact ih (Option.map_eq_none_iff.mp missing) later

theorem ordinary_of_missing (law : Law exact tight none pend d) (directory : d.type a = .dir)
    (missing : lookup name (d.entries a) = none) : Ordinary name := by
  obtain ⟨parent, rest, shape, live, _⟩ := law.shape a nofun directory
  have self := law.dir_ne_zero (i := a) (by simp [directory])
  have dots : ∀ e ∈ d.entries a, e.inum ≠ 0 → e.name ≠ name := fun e => lookup_none missing
  rw [shape] at dots
  exact ⟨(dots ⟨a, dot⟩ (by simp) self).symm, (dots ⟨parent, dotdot⟩ (by simp) live).symm⟩

theorem dirlookup_ends {Post : Option (Nat × Inum) → FsWorld → Prop}
    (mid : Mid exact tight p pend c ours plain w.shared)
    (missing : w.shared.disk.type dp = .dir → lookup name (w.shared.disk.entries dp) = none →
      Post none w)
    (found : ∀ off i ref valid, w.shared.disk.type dp = .dir →
      lookup name (w.shared.disk.entries dp) = some (off, i) →
      Mid exact tight p pend c (i ::ₘ ours) plain { w.shared with ref := ref, valid := valid } →
      Post (some (off, i)) { w with shared := { w.shared with ref := ref, valid := valid } }) :
    Ends exact tight p (dirlookup dp name) Post w := by
  refine seq_ends (act_ends fun _ => ?_)
  split
  · rename_i directory
    cases looked : lookup name (w.shared.disk.entries dp) with
    | none => exact missing directory looked
    | some entry =>
      refine seq_ends (iget_ends mid.held (fun tightly =>
        found_typed mid.law tightly directory looked) fun ref valid held => ?_)
      exact found entry.1 entry.2 ref valid directory looked (mid.withHeld held)
  · exact not_bad (by decide)

theorem dirlink_new {Post : Int → FsWorld → Prop}
    (missing : lookup name (w.shared.disk.entries dp) = none)
    (entered : w.shared.disk.type dp = .dir →
      (exact → EntersNamed w.shared.disk (.enter dp name inum)) →
      Post 0 { w with shared := { w.shared with
        disk := w.shared.disk.setEntries dp (place ⟨inum, name⟩ (w.shared.disk.entries dp)) } }) :
    Ends exact tight p (dirlink dp name inum) Post w := by
  refine seq_ends (seq_ends (act_ends fun _ => ?_))
  split
  · rename_i directory
    rw [missing]
    refine seq_ends (act_ends fun met => ?_)
    dsimp only
    split
    · exact entered directory met.1
    · exact not_bad (by decide)
  · exact not_bad (by decide)

theorem dirlink_ends {Post : Int → FsWorld → Prop}
    (mid : Mid exact tight p pend c ours plain w.shared)
    (refused : ∀ w', Mid exact tight p pend c ours plain w'.shared → Post (-1) w')
    (entered : w.shared.disk.type dp = .dir → Ordinary name →
      (exact → EntersNamed w.shared.disk (.enter dp name inum)) →
      Post 0 { w with shared := { w.shared with
        disk := w.shared.disk.setEntries dp (place ⟨inum, name⟩ (w.shared.disk.entries dp)) } }) :
    Ends exact tight p (dirlink dp name inum) Post w := by
  by_cases present : lookup name (w.shared.disk.entries dp) = none
  · exact dirlink_new present fun directory met =>
      entered directory (ordinary_of_missing mid.law directory present) met
  · refine seq_ends (dirlookup_ends mid (fun _ missing => absurd missing present) ?_)
    intro off i ref valid _ _ mid
    exact seq_ends (iput_ends mid fun w' mid => refused w' mid)

/-! ## Paths -/

theorem walk_ends {Post : Option (Inum × Name) → FsWorld → Prop} (parent : Bool) (names : List Name)
    (mid : Mid exact tight p pend c (ip ::ₘ ours) plain w.shared)
    (failed : ∀ w', Mid exact tight p pend c ours plain w'.shared → Post none w')
    (found : ∀ w' i name, Mid exact tight p pend c (i ::ₘ ours) plain w'.shared →
      Post (some (i, name)) w') :
    Ends exact tight p (walk parent ip names) Post w := by
  induction names generalizing ip w with
  | nil =>
    unfold walk
    split
    · exact seq_ends (iput_ends mid failed)
    · exact found w ip [] mid
  | cons name rest ih =>
    refine seq_ends (ilock_ours mid fun _ _ valid mid => ?_)
    refine seq_ends (look_ends ?_)
    split
    · exact seq_ends (iunlockput_ends mid failed)
    · split
      · exact seq_ends (iunlock_ends (found _ ip name mid))
      · refine seq_ends (dirlookup_ends mid ?_ ?_)
        · exact fun _ _ => seq_ends (iunlockput_ends mid failed)
        · intro off next ref valid _ _ mid
          rw [Multiset.cons_swap] at mid
          exact seq_ends (iunlockput_ends mid fun w' mid => ih mid)

theorem idupCwd_ends {Post : Inum → FsWorld → Prop}
    (mid : Mid exact tight p pend (some cwd) ours plain w.shared)
    (post : ∀ w' i, Mid exact tight p pend (some cwd) (i ::ₘ ours) plain w'.shared → Post i w') :
    Ends exact tight p (idupCwd p) Post w := by
  have here := mid.held.home cwd rfl
  refine act_ends fun _ => ?_
  rw [here]
  cases cwd with
  | none => exact fun bad => nomatch bad.2
  | some i =>
    refine post _ i (mid.withHeld (mid.held.more (fun tightly => ?_) (by simp)
      (fun j other => by simp [other]) fun _ => id))
    exact mid.held.typed tightly i (.inl rfl)

theorem namex_ends {Post : Option (Inum × Name) → FsWorld → Prop} (path : Path) (parent : Bool)
    (mid : Mid exact tight p pend (some cwd) ours plain w.shared)
    (failed : ∀ w', Mid exact tight p pend (some cwd) ours plain w'.shared → Post none w')
    (found : ∀ w' i name, Mid exact tight p pend (some cwd) (i ::ₘ ours) plain w'.shared →
      Post (some (i, name)) w') :
    Ends exact tight p (namex p path parent) Post w := by
  refine seq_ends ?_
  split
  · refine seq_ends (iget_ends mid.held (fun _ => ?_) fun ref valid held => ?_)
    · rw [mid.law.root.1]
      simp
    · exact walk_ends parent _ (mid.withHeld held) failed found
  · exact idupCwd_ends mid fun w' i mid => walk_ends parent _ mid failed found

theorem namei_ends {Post : Option Inum → FsWorld → Prop} (path : Path)
    (mid : Mid exact tight p pend (some cwd) ours plain w.shared)
    (failed : ∀ w', Mid exact tight p pend (some cwd) ours plain w'.shared → Post none w')
    (found : ∀ w' i, Mid exact tight p pend (some cwd) (i ::ₘ ours) plain w'.shared →
      Post (some i) w') :
    Ends exact tight p (namei p path) Post w :=
  seq_ends (namex_ends path false mid failed fun w' i _ mid => found w' i mid)

end
end Xv6.LinkCalls
