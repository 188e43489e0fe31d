import Xv6.LinkPaths

/-! Every call that runs alone keeps the law of link counts, and no open file that
can be written becomes a directory. The links a call owes in between are settled
when it ends, whether it succeeds or fails. -/
namespace Xv6.LinkCalls
open CheckedC LockProgram FileSystem SysFile Ownership Tally LinkLaw Function

structure Good (exact tight : Prop) (s : Fs) : Prop where
  law : Law exact tight none 0 s.disk
  files : ∀ f i, (s.file f).kind = .inode i → (s.file f).writable = true → s.disk.type i ≠ .dir

/-- Process `p` runs the operation alone and all is well when it ends. -/
abbrev EndsGood (exact tight : Prop) (p : ProcId) (op : Op α) (w : FsWorld) : Prop :=
  Ends exact tight p op (fun _ w' => Good exact tight w'.shared) w

/-- One link of the inode is ahead of its entries. -/
def owed (i : Inum) : Inum → Int := update 0 i 1

section
variable {exact tight : Prop} {p : ProcId} {pend : Inum → Int} {c : Option (Option Inum)}
  {ours : Multiset Inum} {plain : Option Inum} {s : Fs} {w : FsWorld} {d : Disk}

theorem Mid.good (mid : Mid exact tight p 0 c ours plain s) : Good exact tight s :=
  ⟨mid.law, fun f i kind => (mid.held.opened f i kind).2⟩

theorem Mid.addNlink (mid : Mid exact tight p pend c ours plain s)
    (used : 0 < pend i + n → s.disk.type i ≠ .free) (ahead : 0 ≤ pend i + n) :
    Mid exact tight p (update pend i (pend i + n)) c ours plain
      { s with disk := s.disk.setNlink i (s.disk.nlink i + n) } where
  law := mid.law.addNlink fun positive => ⟨used positive, nofun⟩
  ahead j := by
    by_cases here : j = i
    · rw [here, update_self]
      exact ahead
    · rw [update_of_ne here]
      exact mid.ahead j
  held := mid.held.sameTypes fun j => setNlink_type i j _

theorem Mid.owe (mid : Mid exact tight p 0 c ours plain s) (used : s.disk.type i ≠ .free) :
    Mid exact tight p (owed i) c ours plain
      { s with disk := s.disk.setNlink i (s.disk.nlink i + 1) } :=
  mid.addNlink (n := 1) (fun _ => used) (by simp)

theorem Mid.settle (mid : Mid exact tight p (owed i) c ours plain s) :
    Mid exact tight p 0 c ours plain
      { s with disk := s.disk.setNlink i (s.disk.nlink i + -1) } := by
  have one : owed i i = 1 := update_self i 1 0
  have paid := mid.addNlink (i := i) (n := -1) (by simp [one]) (by simp [one])
  have none : update (owed i) i (owed i i + -1) = 0 := by
    rw [one, owed, update_idem]
    exact update_eq_self i 0
  rwa [none] at paid

/-! ## link -/

theorem Mid.known (mid : Mid exact tight p pend c ours plain s) (other : s.disk.type i ≠ .dir) :
    Mid exact tight p pend c ours (some i) s :=
  ⟨mid.law, mid.ahead, ⟨mid.held.counted, mid.held.home, mid.held.typed,
    fun _ known => Option.some.inj known ▸ other, mid.held.opened, mid.held.valid⟩⟩

theorem undoLink_ends {Post : Int → FsWorld → Prop}
    (mid : Mid exact tight p (owed ip) c (ip ::ₘ ours) plain w.shared)
    (post : ∀ w', Mid exact tight p 0 c ours plain w'.shared → Post (-1) w') :
    Ends exact tight p (undoLink ip) Post w := by
  refine seq_ends (ilock_ours mid fun _ _ valid mid => ?_)
  refine seq_ends (change_ends ?_)
  exact seq_ends (iunlockput_ends mid.settle post)

theorem Mid.linked (mid : Mid exact tight p (owed ip) c ours (some ip) s)
    (directory : s.disk.type dp = .dir) (ordinary : Ordinary name)
    (met : exact → EntersNamed s.disk (.enter dp name ip)) :
    Mid exact tight p 0 c ours (some ip)
      { s with disk := s.disk.setEntries dp (place ⟨ip, name⟩ (s.disk.entries dp)) } := by
  have file : s.disk.type ip ≠ .dir := mid.held.plain ip rfl
  have used : s.disk.type ip ≠ .free :=
    (mid.law.held ip (by rw [owed, update_self]; decide)).1
  have apart : ip ≠ dp := by
    rintro rfl
    exact file directory
  refine ⟨?_, fun _ => le_refl _, mid.held.sameTypes fun _ => rfl⟩
  refine mid.law.enter (rewritten_place mid.law directory nofun ordinary used) directory nofun used
    apart (.inl rfl) (fun kind => absurd kind file) (fun exactly => ?_) (fun j _ => ?_) nofun
  · exact (met exactly ordinary).imp id names_pos.mpr
  · by_cases here : j = ip <;> simp [owed, here, file]

theorem sysLink_ends (mid : Mid exact tight p 0 (some cwd) 0 none w.shared) (old new : Path) :
    EndsGood exact tight p (sysLink p old new) w := by
  refine seq_ends (namei_ends old mid (fun _ mid => mid.good) fun w ip mid => ?_)
  refine seq_ends (ilock_ours mid fun _ used valid mid => ?_)
  refine seq_ends (look_ends ?_)
  split
  · exact seq_ends (iunlockput_ends mid fun _ mid => mid.good)
  · refine seq_ends (change_ends ?_)
    have mid := (mid.owe used).known (i := ip) (by rwa [setNlink_type])
    refine seq_ends (iunlock_ends ?_)
    refine seq_ends (namex_ends new true mid
      (fun w mid => undoLink_ends mid fun _ mid => mid.good) fun w dp name mid => ?_)
    refine seq_ends (ilock_ours mid fun _ _ valid mid => ?_)
    refine seq_ends (dirlink_ends mid (fun w mid => ?_) ?_)
    · exact seq_ends (iunlockput_ends mid fun _ mid =>
        undoLink_ends mid fun _ mid => mid.good)
    · intro directory ordinary met
      have mid := mid.linked directory ordinary met
      exact seq_ends (iunlockput_ends mid fun _ mid =>
        seq_ends (iput_ends mid fun _ mid => mid.good))

/-! ## unlink -/

theorem vacant_of_empty (law : Law exact tight none pend d) (directory : d.type i = .dir)
    (empty : isdirempty (d.entries i) = true) (j : Inum) : nameCount j (d.entries i) = 0 := by
  obtain ⟨parent, rest, shape, _⟩ := law.shape i nofun directory
  have dead : ∀ e ∈ rest, e.inum = 0 := by
    simpa [isdirempty, shape] using empty
  have nonneg := nameCount_nonneg j (d.entries i)
  have none : ¬ 0 < nameCount j (d.entries i) := by
    rw [nameCount_pos]
    rintro ⟨e, member, named, live, ordinary⟩
    rw [shape] at member
    rcases List.mem_cons.mp member with rfl | later
    · exact ordinary.1 rfl
    · rcases List.mem_cons.mp later with rfl | later
      · exact ordinary.2 rfl
      · exact live (named.symm.trans (dead e later))
  omega

theorem Mid.cleared (mid : Mid exact tight p 0 c ours plain s)
    (directory : s.disk.type dp = .dir) (apart : ip ≠ dp) (ordinary : Ordinary name)
    (found : lookup name (s.disk.entries dp) = some (off, ip))
    (empty : s.disk.type ip = .dir → isdirempty (s.disk.entries ip) = true) :
    Mid exact tight p (if s.disk.type ip = .dir then update (owed ip) dp 1 else owed ip)
      c ours plain
      { s with disk := s.disk.setEntries dp ((s.disk.entries dp).set off ⟨0, []⟩) } := by
  obtain ⟨live, entry⟩ := lookup_some found
  have present : 0 < nameCount ip (s.disk.entries dp) :=
    nameCount_pos.mpr ⟨⟨ip, name⟩, List.mem_of_getElem? entry, rfl, live, ordinary⟩
  refine ⟨?_, fun j => ?_, mid.held.sameTypes fun _ => rfl⟩
  · refine mid.law.clear (rewritten_set entry live ordinary) directory apart present
      (fun kind => vacant_of_empty mid.law kind (empty kind)) fun j => ?_
    by_cases kind : s.disk.type ip = .dir
    · by_cases parent : j = dp
      · subst parent
        simp [kind, Ne.symm apart]
      · by_cases child : j = ip
        · simp [kind, child, apart, owed]
        · simp [kind, parent, child, owed]
    · by_cases child : j = ip <;> simp [kind, child, owed]
  · have one : 0 ≤ owed ip j := by
      unfold owed
      by_cases child : j = ip <;> simp [child]
    split
    · by_cases parent : j = dp
      · simp [parent]
      · simpa [parent] using one
    · exact one

theorem Mid.orphaned (mid : Mid exact tight p (update (owed ip) dp 1) c ours plain s)
    (apart : ip ≠ dp) :
    Mid exact tight p (owed ip) c ours plain
      { s with disk := s.disk.setNlink dp (s.disk.nlink dp + -1) } := by
  have paid := mid.addNlink (i := dp) (n := -1) (by simp) (by simp)
  have none : owed ip dp = 0 := update_of_ne apart.symm 1 0
  have back : update (update (owed ip) dp 1) dp
      (update (owed ip) dp 1 dp + -1) = owed ip := by
    rw [update_self, update_idem, show (1 : Int) + -1 = owed ip dp from none.symm,
      update_eq_self]
  rwa [back] at paid

theorem unlinkLocked_ends (mid : Mid exact tight p 0 c (ip ::ₘ dp ::ₘ ours) plain w.shared)
    (directory : w.shared.disk.type dp = .dir) (apart : ip ≠ dp) (ordinary : Ordinary name)
    (found : lookup name (w.shared.disk.entries dp) = some (off, ip)) :
    EndsGood exact tight p (unlinkLocked dp ip off) w := by
  refine seq_ends (panicIf_ends (by decide) fun _ => ?_)
  refine seq_ends (look_ends ?_)
  refine seq_ends (look_ends ?_)
  split
  · exact seq_ends (iunlockput_ends mid fun _ mid =>
      seq_ends (iunlockput_ends mid fun _ mid => mid.good))
  · rename_i removable
    have empty : w.shared.disk.type ip = .dir → isdirempty (w.shared.disk.entries ip) = true := by
      intro kind
      by_contra full
      exact removable ⟨kind, by simpa using full⟩
    have cleared := mid.cleared directory apart ordinary found empty
    refine seq_ends (change_ends ?_)
    -- with the parent's link settled, one link of the inode is left
    have rest : ∀ s, Mid exact tight p (owed ip) c (ip ::ₘ dp ::ₘ ours) plain s →
        EndsGood exact tight p (do iunlockput dp; addNlink ip (-1); iunlockput ip; return 0 : Op Int) ⟨w.locks, s⟩ := by
      intro s mid
      rw [Multiset.cons_swap] at mid
      refine seq_ends (iunlockput_ends mid fun w mid => ?_)
      refine seq_ends (change_ends ?_)
      exact seq_ends (iunlockput_ends mid.settle fun _ mid => mid.good)
    refine seq_ends ?_
    split
    · rename_i kind
      rw [if_pos kind] at cleared
      exact change_ends (rest _ (cleared.orphaned apart))
    · rename_i kind
      rw [if_neg kind] at cleared
      exact rest _ cleared

theorem sysUnlink_ends (mid : Mid exact tight p 0 (some cwd) 0 none w.shared) (path : Path) :
    EndsGood exact tight p (sysUnlink p path) w := by
  refine seq_ends (namex_ends path true mid (fun _ mid => mid.good) fun w dp name mid => ?_)
  refine seq_ends (ilock_ours mid fun _ _ valid mid => ?_)
  split
  · exact seq_ends (iunlockput_ends mid fun _ mid => mid.good)
  · rename_i ordinary
    rw [not_or] at ordinary
    refine seq_ends (dirlookup_ends mid ?_ ?_)
    · exact fun _ _ => seq_ends (iunlockput_ends mid fun _ mid => mid.good)
    · intro off ip ref valid directory found mid
      refine seq_ends (ilock_ours mid fun free _ valid mid => ?_)
      -- the directory is locked already
      have apart : ip ≠ dp := by
        rintro rfl
        simp [World.take] at free
      exact unlinkLocked_ends mid directory apart ordinary found

/-! ## create -/

/-- The disk while `create` builds inode `ip`, which has the entries `es` so far.
All others are as they were. -/
structure Hatching (exact tight : Prop) (pend : Inum → Int) (ip : Inum) (type : FileType)
    (es : List Dirent) (before d : Disk) : Prop where
  law : Law exact tight (some ip) pend d
  kind : d.type ip = type
  nlink : d.nlink ip = 1
  entries : d.entries ip = es
  others : ∀ a, a ≠ ip → d.entries a = before.entries a ∧ d.type a = before.type a

theorem hatching_alloc (law : Law exact tight none pend d) (free : d.type ip = .free)
    (nonzero : ip ≠ 0) (kind : type ≠ .free) (major minor : Int) :
    Hatching exact tight pend ip type [] d
      (((d.alloc ip type).setDevice ip major minor).setNlink ip 1) := by
  have entries : (d.alloc ip type).entries ip = [] := by simp [Disk.alloc]
  have others : ∀ a, a ≠ ip →
      (((d.alloc ip type).setDevice ip major minor).setNlink ip 1).dinode a =
        (d.alloc ip type).dinode a := by
    intro a other
    simp [Disk.setNlink, Disk.setDevice, other]
  refine ⟨?_, ?_, ?_, entries, ?_⟩
  · refine (law.alloc free nonzero type kind).hatch (fun a other => ⟨others a other, rfl⟩) ?_ ?_
    · rw [setNlink_type, setDevice_type]
    · intro x member
      rw [show (((d.alloc ip type).setDevice ip major minor).setNlink ip 1).entries ip = [] from
        entries] at member
      cases member
  · rw [setNlink_type, setDevice_type, alloc_type_self]
  · rw [setNlink_nlink, if_pos rfl]
  · intro a other
    refine ⟨by simp [Disk.setNlink, Disk.setDevice, Disk.alloc, other], ?_⟩
    rw [setNlink_type, setDevice_type, alloc_type type other]

theorem Hatching.addNlink (hatching : Hatching exact tight 0 ip type es before d) (apart : ip ≠ dp)
    (used : d.type dp ≠ .free) : Hatching exact tight (owed dp) ip type es before
      (d.setNlink dp (d.nlink dp + 1)) where
  law := hatching.law.addNlink (i := dp) (n := 1) fun _ =>
    ⟨used, fun same => apart (Option.some.inj same)⟩
  kind := by
    rw [setNlink_type]
    exact hatching.kind
  nlink := by
    rw [setNlink_nlink, if_neg apart]
    exact hatching.nlink
  entries := hatching.entries
  others a other := by
    rw [setNlink_type]
    exact hatching.others a other

theorem Hatching.dot (hatching : Hatching exact tight pend ip type es before d)
    (dots : ¬ Ordinary e.name) : Hatching exact tight pend ip type (place e es) before
    (d.setEntries ip (place e (d.entries ip))) where
  law := by
    refine hatching.law.hatch (fun j other => ⟨rfl, by simp [Disk.setEntries, other]⟩) rfl ?_
    intro x member
    rcases mem_place (by simpa [Disk.setEntries] using member) with rfl | old
    · exact dots
    · exact hatching.law.embryo ip rfl x old
  kind := hatching.kind
  nlink := hatching.nlink
  entries := by simp [Disk.setEntries, hatching.entries]
  others a other := by
    have same := hatching.others a other
    exact ⟨by simpa [Disk.setEntries, other] using same.1, same.2⟩

/-- What `create` writes into the new inode. -/
def firstEntries (dp ip : Inum) (type : FileType) : List Dirent :=
  if type = .dir then [⟨ip, dot⟩, ⟨dp, dotdot⟩] else []

/-- What the link counts are ahead by before the name is entered. -/
def firstOwed (dp : Inum) (type : FileType) : Inum → Int := if type = .dir then owed dp else 0

theorem Hatching.enter
    (hatching : Hatching exact tight (firstOwed dp type) ip type (firstEntries dp ip type) before d)
    (directory : d.type dp = .dir) (apart : ip ≠ dp) (kind : type ≠ .free)
    (ordinary : Ordinary name) (met : exact → EntersNamed d (.enter dp name ip)) :
    Law exact tight none 0 (d.setEntries dp (place ⟨ip, name⟩ (d.entries dp))) := by
  have home : some ip ≠ some dp := fun same => apart (Option.some.inj same)
  have used : d.type ip ≠ .free := by
    rw [hatching.kind]
    exact kind
  have born : Newborn d dp ip := by
    constructor
    · intro dir
      rw [hatching.kind] at dir
      rw [hatching.entries, firstEntries, if_pos dir]
    · intro other
      rw [hatching.kind] at other
      rw [hatching.entries, firstEntries, if_neg other]
  refine hatching.law.enter (rewritten_place hatching.law directory home ordinary used) directory
    home used apart (.inr ⟨rfl, born⟩) (fun dir => ⟨hatching.law.embryo_fresh.1, ?_⟩)
    (fun exactly => (met exactly ordinary).imp id names_pos.mpr) (fun j other => ?_) fun _ => ?_
  · rw [born.directory dir]
    rfl
  · have different : j ≠ ip := fun same => other (by rw [same])
    rw [hatching.kind, firstOwed]
    by_cases dir : type = .dir
    · by_cases here : j = dp
      · simp [dir, here, owed, apart.symm]
      · simp [dir, here, owed, different]
    · simp [dir, different]
  · rw [hatching.nlink]
    rfl

theorem ialloc_ends {Post : Inum → FsWorld → Prop} (held : Held tight p c ours none w.shared)
    (kind : type ≠ .free)
    (post : ∀ ip ref valid, w.shared.disk.type ip = .free → ip ≠ 0 →
      Held tight p c (ip ::ₘ ours) none
        { w.shared with disk := w.shared.disk.alloc ip type, ref := ref, valid := valid } →
      Post ip { w with shared :=
        { w.shared with disk := w.shared.disk.alloc ip type, ref := ref, valid := valid } }) :
    Ends exact tight p (ialloc type) Post w := by
  refine seq_ends (act_ends fun _ => ?_)
  cases found : w.shared.disk.freeInum with
  | none => exact not_bad (by decide)
  | some ip =>
    obtain ⟨nonzero, free⟩ := freeInum_free found
    have grown : Held tight p c ours none
        { w.shared with disk := w.shared.disk.alloc ip type } := by
      refine held.grow (fun j used => alloc_type type ?_) nofun
      rintro rfl
      exact used free
    refine seq_ends (iget_ends grown (fun _ => ?_) fun ref valid held =>
      post ip ref valid free nonzero held)
    rw [alloc_type_self]
    exact kind

theorem dot_ends {Post : Int → FsWorld → Prop}
    (hatching : Hatching exact tight pend ip type es before w.shared.disk)
    (held : Held tight p c ours plain w.shared) (dots : ¬ Ordinary name)
    (missing : lookup name es = none)
    (post : ∀ s, Hatching exact tight pend ip type (place ⟨inum, name⟩ es) before s.disk →
      Held tight p c ours plain s → Post 0 ⟨w.locks, s⟩) :
    Ends exact tight p (dirlink ip name inum) Post w := by
  refine dirlink_new ?_ fun _ _ => post _ (hatching.dot dots) (held.sameTypes fun _ => rfl)
  rw [hatching.entries]
  exact missing

theorem dots_ends {Post : Unit → FsWorld → Prop}
    (hatching : Hatching exact tight 0 ip type [] before w.shared.disk)
    (held : Held tight p c ours plain w.shared) (apart : ip ≠ dp)
    (used : w.shared.disk.type dp ≠ .free)
    (post : ∀ s, Hatching exact tight (firstOwed dp type) ip type (firstEntries dp ip type) before
      s.disk → Held tight p c ours plain s → Post () ⟨w.locks, s⟩) :
    Ends exact tight p (if type = .dir then do
        addNlink dp 1
        let here ← dirlink ip dot ip
        panicIf (fun _ => decide (here < 0)) "create dots"
        let up ← dirlink ip dotdot dp
        panicIf (fun _ => decide (up < 0)) "create dots"
      else return ()) Post w := by
  split
  · rename_i directory
    have live : ip ≠ 0 := hatching.law.embryo_fresh.2.1
    have entries : place ⟨dp, dotdot⟩ (place ⟨ip, dot⟩ []) = firstEntries dp ip type := by
      simp [place, live, firstEntries, directory]
    refine seq_ends (change_ends ?_)
    refine seq_ends (dot_ends (hatching.addNlink apart used)
      (held.sameTypes fun j => setNlink_type dp j _) (fun ordinary => ordinary.1 rfl) rfl
      fun s hatching held => ?_)
    refine seq_ends (panicIf_ends (by decide) fun _ => ?_)
    refine seq_ends (dot_ends hatching held (fun ordinary => ordinary.2 rfl)
      (by simp [place, lookup, dot, dotdot]) fun s hatching held => ?_)
    rw [entries] at hatching
    refine panicIf_ends (by decide) fun _ => post s ?_ held
    rw [firstOwed, if_pos directory]
    exact hatching
  · rename_i other
    refine post w.shared ?_ held
    rw [firstOwed, if_neg other, firstEntries, if_neg other]
    exact hatching

/-- What is known of the type of a new inode. -/
def newPlain (type : FileType) (ip : Inum) : Option Inum := if type = .dir then none else some ip

theorem Held.born (held : Held tight p c (ip ::ₘ dp ::ₘ ours) none s)
    (kind : s.disk.type ip = type) :
    Held tight p c (dp ::ₘ ip ::ₘ ours) (newPlain type ip) s := by
  rw [Multiset.cons_swap] at held
  refine ⟨held.counted, held.home, held.typed, fun j known => ?_, held.opened, held.valid⟩
  unfold newPlain at known
  split at known
  · cases known
  · rename_i other
    cases known
    rw [kind]
    exact other

theorem createNew_ends {Post : Inum → FsWorld → Prop}
    (mid : Mid exact tight p 0 c (dp ::ₘ ours) none w.shared)
    (directory : w.shared.disk.type dp = .dir) (kind : type ≠ .free)
    (missing : lookup name (w.shared.disk.entries dp) = none)
    (post : ∀ w' ip, Mid exact tight p 0 c (ip ::ₘ ours) (newPlain type ip) w'.shared →
      Post ip w') :
    Ends exact tight p (createNew dp name type major minor) Post w := by
  have ordinary := ordinary_of_missing mid.law directory missing
  refine seq_ends (ialloc_ends mid.held kind fun ip ref valid free nonzero held => ?_)
  have apart : ip ≠ dp := by
    rintro rfl
    rw [directory] at free
    cases free
  refine seq_ends (ilock_ends held (fun _ => ?_) fun _ _ valid held => ?_)
  · rw [alloc_type_self]
    exact kind
  have hatching := hatching_alloc mid.law free nonzero kind major minor
  have home : ∀ {d es pend}, Hatching exact tight pend ip type es w.shared.disk d →
      d.type dp = .dir := fun hatching => (hatching.others dp apart.symm).2.trans directory
  refine seq_ends (change_ends ?_)
  refine seq_ends (dots_ends hatching
    (held.sameTypes fun j => (setNlink_type ip j 1).trans (setDevice_type ip j major minor))
    apart ?_ fun s hatching held => ?_)
  · rw [home hatching]
    simp
  refine seq_ends (dirlink_new ?_ fun _ met => ?_)
  · rw [(hatching.others dp apart.symm).1]
    exact missing
  have law := hatching.enter (home hatching) apart kind ordinary met
  refine seq_ends (panicIf_ends (by decide) fun _ => ?_)
  refine seq_ends (iunlockput_ends
    ⟨law, fun _ => le_refl _, (held.born hatching.kind).sameTypes fun _ => rfl⟩ fun w mid => ?_)
  exact post w ip mid

theorem create_ends {Post : Option Inum → FsWorld → Prop} (path : Path) (kind : type ≠ .free)
    (mid : Mid exact tight p 0 (some cwd) 0 none w.shared)
    (failed : ∀ w', Mid exact tight p 0 (some cwd) 0 none w'.shared → Post none w')
    (made : ∀ w' ip plain, Mid exact tight p 0 (some cwd) (ip ::ₘ 0) plain w'.shared →
      (type = .file → w'.shared.disk.type ip ≠ .dir) → Post (some ip) w') :
    Ends exact tight p (create p path type major minor) Post w := by
  refine seq_ends (namex_ends path true mid failed fun w dp name mid => ?_)
  refine seq_ends (ilock_ours mid fun _ _ valid mid => ?_)
  refine seq_ends (dirlookup_ends mid (fun directory missing => ?_) ?_)
  · refine seq_ends (createNew_ends mid directory kind missing fun w ip mid => ?_)
    refine made w ip _ mid fun file => mid.held.plain ip ?_
    rw [newPlain, file]
    rfl
  · intro off ip ref valid _ _ mid
    rw [Multiset.cons_swap] at mid
    refine seq_ends (iunlockput_ends mid fun w mid => ?_)
    refine seq_ends (ilock_ours mid fun _ _ valid mid => ?_)
    refine seq_ends (look_ends ?_)
    split
    · rename_i both
      refine made _ ip none mid fun _ => ?_
      rw [both.2]
      simp
    · exact seq_ends (iunlockput_ends mid failed)

theorem sysMake_ends (mid : Mid exact tight p 0 (some cwd) 0 none w.shared) (path : Path)
    (kind : type ≠ .free) :
    EndsGood exact tight p (sysMake p path type major minor) w :=
  seq_ends (create_ends path kind mid (fun _ mid => mid.good) fun _ _ _ mid _ =>
    seq_ends (iunlockput_ends mid fun _ mid => mid.good))

end
end Xv6.LinkCalls
