import Xv6.Ownership

/-! The steps of fs.c keep the invariant: what each function does to the ghost
state of the process that runs it. -/
namespace Xv6.Ownership
open CheckedC LockProgram FileSystem SysFile Tally Function

section
variable {g g' : ProcId → Local} {w : FsWorld} {t : ProcId} {l l' : Local}

/-! ## References to inodes -/

theorem refsTo_nonneg (i : Inum) (l : Local) : 0 ≤ refsTo i l := Int.natCast_nonneg _

theorem onInode_nonneg (i : Inum) (f : File) : 0 ≤ onInode i f := by
  unfold onInode
  split <;> decide

theorem Nodes.ref_nonneg {s : Fs} (nodes : Nodes mode s g) (i : Inum) : 0 ≤ s.ref i := by
  have owned : 0 ≤ tally (refsTo i) g := tally_nonneg fun u => refsTo_nonneg i (g u)
  have opened : 0 ≤ tally (onInode i) s.file := tally_nonneg fun f => onInode_nonneg i (s.file f)
  have count := nodes.count i
  omega

theorem Nodes.shift {s s' : Fs} (nodes : Nodes mode s g)
    (ref : ∀ j, s'.ref j = s.ref j - refsTo j (g t) + refsTo j l')
    (typed : ∀ j type, l'.refs.typed j = some type →
      (g t).refs.typed j = some type ∨ (s.disk.type j = type ∧ type ≠ .free))
    (file : s'.file = s.file) (disk : s'.disk = s.disk)
    (valid : ∀ j, s'.valid j = true → s.valid j = true) :
    Nodes mode s' (update g t l') where
  count j := by
    rw [tally_update, file, ref j, nodes.count j]
    ring
  typed u j type known := by
    rw [disk]
    by_cases here : u = t
    · subst here
      rw [update_self] at known
      rcases typed j type known with before | now
      · exact nodes.typed u j type before
      · exact now
    · rw [update_of_ne here] at known
      exact nodes.typed u j type known
  opened f j kind := by
    rw [file] at kind ⊢
    rw [disk]
    exact nodes.opened f j kind
  valid j set := by
    rw [disk]
    exact nodes.valid j (valid j set)

theorem Inv.withRefs {ref : Inum → Int} {valid : Inum → Bool} (inv : Inv mode w g)
    (alive : (g t).life = .alive)
    (counts : ∀ j, ref j = w.shared.ref j - refsTo j (g t) + refsTo j ((g t).setRefs r))
    (typed : ∀ j type, r.typed j = some type → (g t).refs.typed j = some type)
    (valids : ∀ j, valid j = true → w.shared.valid j = true) :
    Inv mode { w with shared := { w.shared with ref := ref, valid := valid } }
      (update g t ((g t).setRefs r)) where
  mirror := mirror_update inv.mirror ⟨rfl, rfl, rfl⟩
  forks := inv.forks.set alive alive rfl
  files := inv.files.set ⟨rfl, rfl, rfl⟩
  pipes := inv.pipes.congr (ends_update rfl)
  nodes := inv.nodes.shift counts (fun j type known => .inl (typed j type known)) rfl rfl valids
  locks := by
    refine inv.locks.keep (fun _ => rfl) rfl (fun _ _ => .inl) ⟨rfl, rfl, rfl⟩ fun i unknown => ?_
    by_contra known
    obtain ⟨type, found⟩ := Option.ne_none_iff_exists'.mp known
    rw [typed i type found] at unknown
    cases unknown
  tree := inv.tree

theorem refsTo_ref (l : Local) (i j : Inum) :
    refsTo j (l.ref i) = refsTo j l + if j = i then 1 else 0 := by
  simp only [refsTo, Local.ref, Local.setRefs, Refs.add, Multiset.count_cons]
  split <;> simp

theorem count_erase [DecidableEq α] {m : Multiset α} (member : a ∈ m) (b : α) :
    ((m.erase a).count b : Int) = m.count b - if b = a then 1 else 0 := by
  by_cases here : b = a
  · subst here
    have positive := Multiset.count_pos.mpr member
    rw [Multiset.count_erase_self, if_pos rfl]
    omega
  · rw [Multiset.count_erase_of_ne here, if_neg here]
    omega

theorem refsTo_unref (member : i ∈ l.refs.bag) (j : Inum) :
    refsTo j (l.unref i) = refsTo j l - if j = i then 1 else 0 :=
  count_erase member j

theorem ref_addRef (s : Fs) (i j : Inum) (n : Int) :
    (s.addRef i n).ref j = s.ref j + if j = i then n else 0 := by
  simp only [Fs.addRef, update_apply]
  split
  · rename_i here
    rw [here]
  · rw [add_zero]

theorem idup_inv (inv : Inv mode w g) (alive : (g t).life = .alive) :
    Inv mode { w with shared := w.shared.addRef i 1 }
      (update g t ((g t).ref i)) := by
  refine inv.withRefs alive (fun j => ?_) (fun _ _ known => known) fun _ set => set
  change (w.shared.addRef i 1).ref j = _ - _ + refsTo j ((g t).ref i)
  rw [ref_addRef, refsTo_ref]
  ring

theorem igetAs_safe (alive : l.life = .alive)
    (post : ∀ w g s, (discipline mode).Cond w t note → s.disk = w.shared.disk →
      Inv mode { w with shared := s } (update g t (l.ref i)) →
      ∃ l', Inv mode { w with shared := s } (update g t l') ∧ Post () l') :
    Safe (discipline mode) t (igetAs note i) l Post := by
  refine safe_careful alive ?_
  intro w g inv here met value s ran
  subst here
  have got : s.disk = w.shared.disk ∧ Inv mode { w with shared := s } (update g t ((g t).ref i)) := by
    by_cases cached : 0 < w.shared.ref i
    · rw [if_pos cached] at ran
      cases ran
      exact ⟨rfl, idup_inv inv alive⟩
    · rw [if_neg cached] at ran
      split at ran
      · cases ran
        have fresh : w.shared.ref i = 0 := by
          have nonneg := inv.nodes.ref_nonneg i
          omega
        refine ⟨rfl, inv.withRefs alive (fun j => ?_) (fun _ _ known => known) ?_⟩
        · change update w.shared.ref i 1 j = _ - _ + refsTo j ((g t).ref i)
          rw [refsTo_ref, update_apply]
          split
          · rename_i here
            rw [here, fresh]
            ring
          · ring
        · intro j set
          simp only [update_apply] at set
          split at set
          · cases set
          · exact set
      · cases ran
  obtain ⟨l', kept, done⟩ := post w g s met got.1 got.2
  refine ⟨l', kept, ?_, done⟩
  rw [got.1]
  exact Steady.refl

theorem iget_safe (alive : l.life = .alive) :
    Safe (discipline mode) t (iget i) l fun _ l' => l' = l.ref i :=
  igetAs_safe alive fun _ _ _ _ _ inv => ⟨_, inv, rfl⟩

theorem idupCwd_safe (alive : l.life = .alive) :
    Safe (discipline mode) t (idupCwd t) l fun i l' =>
      l.cwd = some i ∧ l' = l.ref i := by
  refine safe_step alive ?_
  intro w g inv here value s ran
  subst here
  rw [show (w.shared.proc t).cwd = (g t).cwd from (inv.mirror t).2.1] at ran
  cases cwd : (g t).cwd with
  | none =>
    rw [cwd] at ran
    cases ran
  | some i =>
    rw [cwd] at ran
    cases ran
    exact ⟨(g t).ref value, idup_inv inv alive, Steady.refl, rfl, rfl⟩

/-! ## Locks -/

theorem Locks.unique (locks : Locks mode w g) (first : (g t).held i ≠ none)
    (second : (g u).held i ≠ none) : t = u := by
  have here := (locks.held i t).mpr first
  rw [(locks.held i u).mpr second] at here
  exact (Option.some.inj here).symm

theorem Inv.withLocks {locks : Inum → Option ProcId} (inv : Inv mode w g)
    (alive : (g t).life = .alive) (bag : r.bag = (g t).refs.bag)
    (typed : ∀ j type, r.typed j = some type →
      (g t).refs.typed j = some type ∨ (w.shared.disk.type j = type ∧ type ≠ .free))
    (kept : Locks mode ⟨locks, w.shared⟩ (update g t ((g t).grip r h o a))) :
    Inv mode ⟨locks, w.shared⟩ (update g t ((g t).grip r h o a)) where
  mirror := mirror_update inv.mirror ⟨rfl, rfl, rfl⟩
  forks := inv.forks.set alive alive rfl
  files := inv.files.set ⟨rfl, rfl, rfl⟩
  pipes := inv.pipes.congr (ends_update rfl)
  nodes := by
    refine inv.nodes.shift (fun j => ?_) typed rfl rfl fun _ set => set
    simp only [refsTo, Local.grip, bag]
    ring
  locks := kept
  tree := inv.tree

/-- What a step owes for the locks of the process that takes it. -/
structure Owed (mode : Mode) (w : FsWorld) (g : ProcId → Local) (t : ProcId)
    (locks : Inum → Option ProcId) (s : Fs) (l' : Local) : Prop where
  held : ∀ j, locks j = some t ↔ l'.held j ≠ none
  others : ∀ j u, u ≠ t → (locks j = some u ↔ w.locks j = some u)
  seen : ∀ j type, l'.held j = some (some type) → s.disk.type j = type ∧ type ≠ .free
  older : ∀ a c, l'.older = some (a, c) → l'.held a = some (some .dir) ∧
    (mode.ordered → s.disk.type c = .dir → s.disk.birth a < s.disk.birth c)
  sole : ∀ i, l'.sole = some i → l'.held i = some none ∧ l'.refs.typed i = none ∧
    (∀ u, u ≠ t → (g u).refs.typed i = none) ∧ ∀ f, (s.file f).kind ≠ .inode i

theorem Locks.set {locks : Inum → Option ProcId} {s : Fs} (before : Locks mode w g)
    (owed : Owed mode w g t locks s l')
    (seenBy : ∀ u j type, u ≠ t → (g u).held j = some (some type) → s.disk.type j = type)
    (olderBy : ∀ u a c, u ≠ t → (g u).older = some (a, c) →
      mode.ordered → s.disk.type c = .dir → s.disk.birth a < s.disk.birth c)
    (soleBy : ∀ u i, u ≠ t → (g u).sole = some i →
      l'.refs.typed i = none ∧ ∀ f, (s.file f).kind ≠ .inode i) :
    Locks mode ⟨locks, s⟩ (update g t l') := by
  constructor
  · intro j u
    by_cases here : u = t
    · subst here
      rw [update_self]
      exact owed.held j
    · rw [update_of_ne here, owed.others j u here]
      exact before.held j u
  · intro u j type found
    by_cases here : u = t
    · subst here
      rw [update_self] at found
      exact owed.seen j type found
    · rw [update_of_ne here] at found
      exact ⟨seenBy u j type here found, (before.seen u j type found).2⟩
  · intro u a c ordered
    by_cases here : u = t
    · subst here
      rw [update_self] at ordered ⊢
      exact owed.older a c ordered
    · rw [update_of_ne here] at ordered ⊢
      exact ⟨(before.older u a c ordered).1, olderBy u a c here ordered⟩
  · intro u i alone
    by_cases here : u = t
    · subst here
      rw [update_self] at alone ⊢
      obtain ⟨mine, unknown, elsewhere, unopened⟩ := owed.sole i alone
      refine ⟨mine, fun v => ?_, unopened⟩
      by_cases other : v = u
      · subst other
        rwa [update_self]
      · rw [update_of_ne other]
        exact elsewhere v other
    · rw [update_of_ne here] at alone ⊢
      obtain ⟨mine, unknown, _⟩ := before.sole u i alone
      obtain ⟨forgotten, unopened⟩ := soleBy u i here alone
      refine ⟨mine, fun v => ?_, unopened⟩
      by_cases other : v = t
      · subst other
        rwa [update_self]
      · rw [update_of_ne other]
        exact unknown v

theorem Locks.regrip {locks : Inum → Option ProcId} (before : Locks mode w g)
    (owed : Owed mode w g t locks w.shared l')
    (soleBy : ∀ u i, u ≠ t → (g u).sole = some i → l'.refs.typed i = none) :
    Locks mode ⟨locks, w.shared⟩ (update g t l') :=
  before.set owed (fun u j type _ found => (before.seen u j type found).1)
    (fun u a c _ ordered => (before.older u a c ordered).2)
    (fun u i here alone => ⟨soleBy u i here alone, (before.sole u i alone).2.2⟩)

section
variable (inv : Inv mode w g) (alive : (g t).life = .alive)
include inv alive

theorem hold_inv {locks : Inum → Option ProcId}
    (unseen : ∀ type, (g t).held i ≠ some (some type)) (mine : locks i = some t)
    (same : ∀ j, j ≠ i → locks j = w.locks j) (free : ∀ u, w.locks i = some u → u = t)
    (typed : ∀ type, x = some type → w.shared.disk.type i = type ∧ type ≠ .free) :
    Inv mode ⟨locks, w.shared⟩ (update g t ((g t).hold i x)) := by
  refine inv.withLocks alive rfl (fun _ _ known => .inl known)
    (inv.locks.regrip ⟨fun j => ?_, fun j u other => ?_, fun j type found => ?_,
      fun a c ordered => ?_, nofun⟩ fun u j _ alone => (inv.locks.sole u j alone).2.1 t)
  · by_cases lock : j = i
    · simp [lock, mine, Local.grip]
    · simpa [lock, same j lock, Local.grip] using inv.locks.held j t
  · by_cases lock : j = i
    · rw [lock, mine]
      exact ⟨fun here => absurd (Option.some.inj here).symm other,
        fun owned => absurd (free u owned) other⟩
    · rw [same j lock]
  · by_cases lock : j = i
    · subst lock
      simp only [Local.grip, update_self, Option.some.injEq] at found
      exact typed type found
    · simp only [Local.grip, update_of_ne lock] at found
      exact inv.locks.seen t j type found
  · have before := inv.locks.older t a c ordered
    have lock : a ≠ i := by
      rintro rfl
      exact unseen _ before.1
    simp only [Local.grip, update_of_ne lock]
    exact before

theorem take_inv (free : w.locks i = none) :
    (g t).held i = none ∧ Inv mode (w.take t i) (update g t ((g t).hold i none)) := by
  have unheld : (g t).held i = none := by
    by_contra held
    rw [(inv.locks.held i t).mpr held] at free
    cases free
  exact ⟨unheld, hold_inv inv alive (by simp [unheld]) (update_self _ _ _)
    (fun j lock => update_of_ne lock _ _) (by simp [free]) (by simp)⟩

theorem see_inv (held : (g t).held i = some none) (typed : w.shared.disk.type i ≠ .free) :
    Inv mode w (update g t ((g t).hold i (some (w.shared.disk.type i)))) := by
  have mine := (inv.locks.held i t).mpr (by simp [held])
  refine hold_inv inv alive (by simp [held]) mine (fun _ _ => rfl) (by simp [mine]) ?_
  rintro _ ⟨⟩
  exact ⟨rfl, typed⟩

theorem drop_inv (bag : r.bag = (g t).refs.bag)
    (typed : ∀ j type, r.typed j = some type → (g t).refs.typed j = some type ∨
      (j = i ∧ (g t).held i = some (some type))) (owned : w.locks i = some t) :
    Inv mode (w.drop i) (update g t (((g t).unhold i).setRefs r)) := by
  have held := (inv.locks.held i t).mp owned
  refine inv.withLocks alive bag ?_ (inv.locks.regrip ⟨?_, ?_, ?_, ?_, ?_⟩ ?_)
  · intro j type known
    rcases typed j type known with before | ⟨rfl, found⟩
    · exact .inl before
    · exact .inr (inv.locks.seen t j type found)
  · intro j
    by_cases lock : j = i
    · simp [lock, Local.grip, Local.unhold]
    · simpa [lock, Local.grip, Local.unhold] using inv.locks.held j t
  · intro j u other
    by_cases lock : j = i
    · simp [lock, owned, Ne.symm other]
    · simp [lock]
  · intro j type found
    by_cases lock : j = i
    · simp [lock, Local.grip, Local.unhold] at found
    · simp only [Local.grip, Local.unhold, update_of_ne lock] at found
      exact inv.locks.seen t j type found
  · intro a c ordered
    cases ordered
  · intro j alone
    cases alone
  · intro u j other alone
    obtain ⟨mine, unknown, _⟩ := inv.locks.sole u j alone
    have lock : j ≠ i := by
      rintro rfl
      exact other (inv.locks.unique (by simp [mine]) held)
    have forgotten := unknown t
    by_contra known
    obtain ⟨type, found⟩ := Option.ne_none_iff_exists'.mp known
    rcases typed j type found with before | ⟨here, _⟩
    · rw [forgotten] at before
      cases before
    · exact lock here

end

theorem safe_lock (alive : l.life = .alive)
    (order : note = .iput i ∨ ∀ j, l.held j ≠ none → l.older = some (j, i))
    (post : l.held i = none → Post () (l.hold i none)) :
    Safe (discipline mode) t (.lock note i) l Post := by
  refine ⟨fun dead => dead alive, fun w g inv here => ?_, fun w g inv here free => ?_⟩
  · intro met busy j owned strictly
    rcases order with rfl | above
    · obtain ⟨directory, e, entry, rfl, live, ordinary⟩ := met.1 strictly busy j owned
      exact ⟨directory, inv.tree.order strictly j directory e entry live ordinary⟩
    · have held := (inv.locks.held j t).mp owned
      rw [here] at held
      obtain ⟨directory, younger⟩ := inv.locks.older t j i (by rw [here]; exact above j held)
      exact ⟨(inv.locks.seen t j .dir directory).1, younger strictly⟩
  · subst here
    obtain ⟨unheld, kept⟩ := take_inv inv alive free
    exact ⟨_, kept, post unheld⟩

theorem safe_unlock (alive : l.life = .alive) (bag : r.bag = l.refs.bag)
    (typed : ∀ j type, r.typed j = some type → l.refs.typed j = some type ∨
      (j = i ∧ l.held i = some (some type)))
    (post : Post () (l.grip r (update l.held i none) none none)) :
    Safe (discipline mode) t (.unlock i) l Post := by
  refine ⟨fun dead => dead alive, fun w g inv here owned => ?_⟩
  subst here
  exact ⟨_, drop_inv inv alive bag typed owned, post⟩

theorem ilock_safe (alive : l.life = .alive)
    (order : ∀ j, l.held j ≠ none → l.older = some (j, i)) :
    Safe (discipline mode) t (ilock i) l fun _ l' => l.held i = none ∧ ∃ type, type ≠ .free ∧
      l' = l.hold i (some type) := by
  apply safe_bind
  apply safe_panicIf alive
  apply safe_bind
  apply safe_lock alive (.inr order)
  intro unheld
  refine safe_step alive ?_
  intro w g inv here value s ran
  have held : (g t).held i = some none := by
    rw [here]
    simp [Local.hold, Local.grip]
  have again : (g t).hold i (some (w.shared.disk.type i)) =
      l.hold i (some (w.shared.disk.type i)) := by
    rw [here, Local.hold_hold]
  split at ran
  · rename_i valid
    cases ran
    have typed := inv.nodes.valid i valid
    refine ⟨_, see_inv inv (by rw [here]; exact alive) held typed, Steady.refl, unheld, _, typed,
      again⟩
  · split at ran
    · cases ran
    · rename_i typed
      cases ran
      refine ⟨_, ?_, Steady.refl, unheld, _, typed, again⟩
      have kept := see_inv inv (by rw [here]; exact alive) held typed
      exact ⟨kept.mirror, kept.forks, kept.files, kept.pipes,
        kept.nodes.congr (fun _ => rfl) rfl rfl (fun _ => rfl) (by
          intro j set
          by_cases here : j = i
          · subst here
            exact .inr typed
          · simp only [Fs.setValid, update_of_ne here] at set
            exact .inl set),
        kept.locks.congr (fun _ => rfl) rfl (fun _ _ => .inl) (fun _ => ⟨rfl, rfl, rfl⟩)
          fun _ _ unknown => unknown, kept.tree⟩

theorem iunlock_keep_safe (alive : l.life = .alive) (bag : r.bag = l.refs.bag)
    (typed : ∀ j type, r.typed j = some type → l.refs.typed j = some type ∨
      (j = i ∧ l.held i = some (some type))) :
    Safe (discipline mode) t (iunlock i) l fun _ l' =>
      l' = l.grip r (update l.held i none) none none := by
  apply safe_bind
  apply safe_panicIf alive
  exact safe_unlock alive bag typed rfl

theorem iunlock_safe (alive : l.life = .alive) :
    Safe (discipline mode) t (iunlock i) l fun _ l' => l' = l.unhold i :=
  iunlock_keep_safe alive rfl fun _ _ known => .inl known

/-! ## Dropping a reference -/

theorem unref_inv (inv : Inv mode w g) (alive : (g t).life = .alive) (member : i ∈ (g t).refs.bag) :
    Inv mode { w with shared := w.shared.addRef i (-1) } (update g t ((g t).unref i)) := by
  refine inv.withRefs alive (fun j => ?_) (fun _ _ => Refs.typed_of_drop) fun _ set => set
  change (w.shared.addRef i (-1)).ref j = _ - _ + refsTo j ((g t).unref i)
  rw [ref_addRef, refsTo_unref member]
  split <;> ring

theorem last_inv (inv : Inv mode w g) (alive : (g t).life = .alive) (held : (g t).held i = some none)
    (member : i ∈ (g t).refs.bag) (one : w.shared.ref i = 1) :
    i ∉ (g t).refs.bag.erase i ∧
      Inv mode w (update g t
        ((g t).grip ((g t).refs.forget i) (g t).held (g t).older (some i))) := by
  have count := inv.nodes.count i
  have mine : 1 ≤ refsTo i (g t) := by
    have positive := Multiset.count_pos.mpr member
    simp only [refsTo]
    omega
  have most : refsTo i (g t) ≤ tally (refsTo i) g := le_tally (fun u => refsTo_nonneg i (g u)) t
  have files : 0 ≤ tally (onInode i) w.shared.file :=
    tally_nonneg fun f => onInode_nonneg i (w.shared.file f)
  have unopened : ∀ f, (w.shared.file f).kind ≠ .inode i := by
    intro f kind
    have one : onInode i (w.shared.file f) ≤ tally (onInode i) w.shared.file :=
      le_tally (fun f => onInode_nonneg i (w.shared.file f)) f
    rw [onInode, if_pos kind] at one
    omega
  have unknown : ∀ u, u ≠ t → (g u).refs.typed i = none := by
    intro u other
    by_contra known
    have positive := Multiset.count_pos.mpr ((g u).refs.backed i known)
    have both : refsTo i (g t) + refsTo i (g u) ≤ tally (refsTo i) g :=
      add_le_tally (fun u => refsTo_nonneg i (g u)) other
    simp only [refsTo] at both mine
    omega
  constructor
  · rw [← Multiset.count_pos, Multiset.count_erase_self]
    simp only [refsTo] at most
    omega
  · refine inv.withLocks alive rfl ?_ (inv.locks.regrip ⟨(inv.locks.held · t), fun _ _ _ => Iff.rfl,
      inv.locks.seen t, inv.locks.older t, ?_⟩ ?_)
    · intro j type known
      left
      by_cases here : j = i
      · simp [here, Refs.forget] at known
      · simpa [Refs.forget, here] using known
    · rintro j ⟨⟩
      exact ⟨held, by simp [Local.grip, Refs.forget], unknown, unopened⟩
    · intro u j _ alone
      by_cases here : j = i
      · simp [here, Local.grip, Refs.forget]
      · simpa [Local.grip, Refs.forget, here] using (inv.locks.sole u j alone).2.1 t

/-! ## Changes of the disk -/

/-- Some process or file relies on the type of the inode. -/
def Guarded (w : FsWorld) (g : ProcId → Local) (i : Inum) : Prop :=
  (∃ u, (g u).refs.typed i ≠ none) ∨ (∃ f, (w.shared.file f).kind = .inode i) ∨
    ∃ u type, (g u).held i = some (some type)

theorem Guarded.typed (inv : Inv mode w g) (guarded : Guarded w g i) :
    w.shared.disk.type i ≠ .free := by
  rcases guarded with ⟨u, known⟩ | ⟨f, kind⟩ | ⟨u, type, found⟩
  · obtain ⟨type, found⟩ := Option.ne_none_iff_exists'.mp known
    have typed := inv.nodes.typed u i type found
    exact fun free => typed.2 (typed.1.symm.trans free)
  · exact (inv.nodes.opened f i kind).1
  · have typed := inv.locks.seen u i type found
    exact fun free => typed.2 (typed.1.symm.trans free)

theorem Inv.withDisk {d : Disk} {valid : Inum → Bool} (inv : Inv mode w g)
    (alive : (g t).life = .alive)
    (types : ∀ j, Guarded w g j → d.type j = w.shared.disk.type j)
    (validated : ∀ j, valid j = true → d.type j ≠ .free)
    (order : ∀ u a c, (g u).older = some (a, c) → mode.ordered → d.type c = .dir →
      d.birth a < d.birth c)
    (older : ∀ a c, o = some (a, c) → (g t).held a = some (some .dir) ∧
      (mode.ordered → d.type c = .dir → d.birth a < d.birth c)) (tree : Tree mode d) :
    Inv mode { w with shared := { w.shared with disk := d, valid := valid } }
      (update g t ((g t).grip (g t).refs (g t).held o none)) := by
  have refs : ∀ u, (update g t ((g t).grip (g t).refs (g t).held o none) u).refs =
      (g u).refs := refs_update rfl
  refine ⟨mirror_update inv.mirror ⟨rfl, rfl, rfl⟩, inv.forks.set alive alive rfl,
    inv.files.set ⟨rfl, rfl, rfl⟩,
    inv.pipes.congr (ends_update rfl),
    ⟨?_, ?_, ?_, validated⟩,
    inv.locks.set ⟨(inv.locks.held · t), fun _ _ _ => Iff.rfl, ?_, older, ?_⟩ ?_ ?_ ?_, tree⟩
  · intro j
    have same : tally (refsTo j) (update g t
        ((g t).grip (g t).refs (g t).held o none)) = tally (refsTo j) g :=
      tally_congr fun u => by simp only [refsTo, refs u]
    rw [same]
    exact inv.nodes.count j
  · intro u j type known
    rw [refs u] at known
    have before := inv.nodes.typed u j type known
    exact ⟨(types j (.inl ⟨u, by simp [known]⟩)).trans before.1, before.2⟩
  · intro f j kind
    have before := inv.nodes.opened f j kind
    have same : d.type j = w.shared.disk.type j := types j (.inr (.inl ⟨f, kind⟩))
    rw [same]
    exact before
  · intro j type found
    have before := inv.locks.seen t j type found
    exact ⟨(types j (.inr (.inr ⟨t, type, found⟩))).trans before.1, before.2⟩
  · intro j alone
    cases alone
  · intro u j type _ found
    exact (types j (.inr (.inr ⟨u, type, found⟩))).trans (inv.locks.seen u j type found).1
  · exact fun u a c _ ordered => order u a c ordered
  · intro u j _ alone
    exact ⟨(inv.locks.sole u j alone).2.1 t, (inv.locks.sole u j alone).2.2⟩

section
variable {d : Disk}

theorem release_type_self : (d.release i).type i = .free := by
  simp [Disk.release, Disk.type]

theorem release_type (other : j ≠ i) : (d.release i).type j = d.type j := by
  simp [Disk.release, Disk.type, other]

theorem of_release_dir (directory : (d.release i).type j = .dir) : j ≠ i ∧ d.type j = .dir := by
  have other : j ≠ i := by
    rintro rfl
    rw [release_type_self] at directory
    cases directory
  exact ⟨other, (release_type other).symm.trans directory⟩

theorem Tree.release (tree : Tree mode d) : Tree mode (d.release i) := by
  refine ⟨tree.young, fun strictly a directory e member live ordinary kind => ?_⟩
  obtain ⟨other, before⟩ := of_release_dir directory
  simp only [Disk.release, update_of_ne other] at member
  exact tree.order strictly a before e member live ordinary (of_release_dir kind).2

end

theorem release_inv (inv : Inv mode w g) (alive : (g t).life = .alive) (sole : (g t).sole = some i) :
    Inv mode { w with shared := ({ w.shared with disk := w.shared.disk.release i }).setValid i false }
      (update g t ((g t).grip (g t).refs (g t).held (g t).older none)) ∧
    Steady w t (w.shared.disk.release i) := by
  obtain ⟨held, unknown, unopened⟩ := inv.locks.sole t i sole
  have mine : w.locks i = some t := (inv.locks.held i t).mpr (by simp [held])
  refine ⟨inv.withDisk alive ?_ ?_ ?_ ?_ inv.tree.release, ?_⟩
  · intro j guarded
    apply release_type
    rintro rfl
    rcases guarded with ⟨u, known⟩ | ⟨f, kind⟩ | ⟨u, type, found⟩
    · exact known (unknown u)
    · exact unopened f kind
    · have owned := (inv.locks.held j u).mpr (by simp [found])
      rw [mine] at owned
      cases owned
      rw [held] at found
      cases found
  · intro j set
    by_cases here : j = i
    · simp [here] at set
    · rw [update_of_ne here] at set
      rw [release_type here]
      exact inv.nodes.valid j set
  · intro u a c ordered strictly directory
    exact (inv.locks.older u a c ordered).2 strictly (of_release_dir directory).2
  · intro a c ordered
    have before := inv.locks.older t a c ordered
    exact ⟨before.1, fun strictly directory => before.2 strictly (of_release_dir directory).2⟩
  · intro j u owned other directory
    have apart : j ≠ i := by
      rintro rfl
      rw [mine] at owned
      cases owned
      exact other rfl
    exact ⟨(release_type apart).trans directory, rfl,
      fun c kind => .inl ⟨(of_release_dir kind).2, rfl⟩⟩

theorem freeLast_safe (alive : l.life = .alive) (held : l.held i = some none)
    (member : i ∈ l.refs.bag) (calm : l.sole = none) :
    Safe (discipline mode) t (freeLast i) l fun _ l' =>
      l' = l ∨ (i ∉ l.refs.bag.erase i ∧ l' = l.setRefs (l.refs.forget i)) := by
  apply safe_bind
  -- the count that is read decides whether the process is the only one to know
  refine safe_step alive ?_
  rintro w g inv here value s ⟨⟩
  subst here
  by_cases one : w.shared.ref i = 1
  · obtain ⟨last, kept⟩ := last_inv inv alive held member one
    refine ⟨_, kept, Steady.refl, ?_⟩
    rw [if_pos one]
    refine safe_step alive ?_
    rintro w' g' inv' here value s ⟨⟩
    have sole : (g' t).sole = some i := by
      rw [here]
      rfl
    obtain ⟨freed, steady⟩ := release_inv inv' (by rw [here]; exact alive) sole
    refine ⟨_, freed, steady, .inr ⟨last, ?_⟩⟩
    rw [here, Local.setRefs]
    simp only [Local.grip, ← calm]
  · refine ⟨g t, inv.same rfl, Steady.refl, ?_⟩
    rw [if_neg one]
    exact .inl rfl

theorem iput_safe (alive : l.life = .alive) (member : i ∈ l.refs.bag) :
    Safe (discipline mode) t (iput i) l fun _ l' => l' = l.grip (l.refs.drop i) l.held none none := by
  apply safe_bind
  apply safe_lock alive (.inl rfl)
  intro unheld
  have back : update (l.hold i none).held i none = l.held := by
    simp only [Local.hold, Local.grip, update_idem]
    rw [← unheld, update_eq_self]
  apply safe_bind
  refine safe_look alive fun w g inv here => ?_
  -- whether the inode was freed or not, the reference is still there
  have rest : ∀ m : Local, m = l.hold i none ∨ (i ∉ l.refs.bag.erase i ∧
      m = (l.hold i none).setRefs (l.refs.forget i)) →
      Safe (discipline mode) t (do Prog.unlock i; change fun s => s.addRef i (-1)) m
        fun _ l' => l' = l.grip (l.refs.drop i) l.held none none := by
    intro m either
    have living : m.life = .alive := by
      rcases either with rfl | ⟨_, rfl⟩ <;> exact alive
    have bag : i ∈ m.refs.bag := by
      rcases either with rfl | ⟨_, rfl⟩ <;> exact member
    apply safe_bind
    refine safe_unlock living rfl (fun _ _ known => .inl known) ?_
    refine safe_step living ?_
    rintro w g inv here value s ⟨⟩
    refine ⟨_, unref_inv inv (by rw [here]; exact living) (by rw [here]; exact bag), Steady.refl, ?_⟩
    rw [here]
    rcases either with rfl | ⟨last, rfl⟩
    · simp only [Local.unref, Local.setRefs, Local.grip, back]
      rfl
    · have forgot : (l.refs.forget i).drop i = l.refs.drop i := Refs.forget_drop last
      simp only [Local.unref, Local.setRefs, Local.grip, forgot]
      rw [show update _ i none = l.held from back]
      rfl
  apply safe_bind
  split
  · refine safe_mono (freeLast_safe alive ?_ member rfl) fun _ m either => rest m either
    simp [Local.hold, Local.grip]
  · exact rest _ (.inl rfl)

theorem iunlockput_safe (alive : l.life = .alive) (member : i ∈ l.refs.bag) :
    Safe (discipline mode) t (iunlockput i) l fun _ l' =>
      l' = l.grip (l.refs.drop i) (update l.held i none) none none := by
  refine safe_then (iunlock_safe alive) ?_
  rintro _ _ rfl
  refine safe_mono (iput_safe alive member) ?_
  rintro _ _ rfl
  rfl

/-! ## Writing inodes and directories -/

theorem safe_rewrite {f : Fs → Disk} (alive : l.life = .alive)
    (same : ∀ s, (∀ j, (f s).type j = s.disk.type j) ∧ (f s).birth = s.disk.birth)
    (tree : ∀ w g, Inv mode w g → g t = l → Tree mode (f w.shared)) :
    Safe (discipline mode) t (change fun s => { s with disk := f s }) l fun _ l' =>
      l' = l.grip l.refs l.held l.older none := by
  refine safe_step alive ?_
  rintro w g inv here value s ⟨⟩
  obtain ⟨types, birth⟩ := same w.shared
  have kept := tree w g inv here
  subst here
  refine ⟨_, inv.withDisk alive (fun j _ => types j) ?_ ?_ ?_ kept, ?_, rfl⟩
  · intro j set
    rw [types j]
    exact inv.nodes.valid j set
  · intro u a c ordered
    rw [types c, birth]
    exact (inv.locks.older u a c ordered).2
  · intro a c ordered
    rw [types c, birth]
    exact inv.locks.older t a c ordered
  · intro j u _ _ directory
    refine ⟨(types j).trans directory, by rw [birth], fun c typed => ?_⟩
    rw [types c] at typed
    exact .inl ⟨typed, by rw [birth]⟩

section
variable {d : Disk}

theorem setNlink_type (i j : Inum) (n : Int) : (d.setNlink i n).type j = d.type j := by
  by_cases here : j = i <;> simp [here, Disk.setNlink, Disk.type]

theorem setDevice_type (i j : Inum) (major minor : Int) :
    (d.setDevice i major minor).type j = d.type j := by
  by_cases here : j = i <;> simp [here, Disk.setDevice, Disk.type]

theorem Tree.congr {d' : Disk} (tree : Tree mode d) (types : ∀ j, d'.type j = d.type j)
    (entries : d'.entries = d.entries) (birth : d'.birth = d.birth) (clock : d'.clock = d.clock) :
    Tree mode d' := by
  refine ⟨fun i => ?_, fun strictly a directory e member live ordinary kind => ?_⟩
  · rw [birth, clock]
    exact tree.young i
  · rw [types] at directory kind
    rw [entries] at member
    rw [birth]
    exact tree.order strictly a directory e member live ordinary kind

theorem Tree.setEntries (tree : Tree mode d) (fits : mode.ordered → ∀ e ∈ es, e ∈ d.entries i ∨
    (e.inum ≠ 0 → Ordinary e.name → d.type e.inum = .dir → d.birth i < d.birth e.inum)) :
    Tree mode (d.setEntries i es) := by
  refine ⟨tree.young, fun strictly a directory e member live ordinary kind => ?_⟩
  by_cases here : a = i
  · subst here
    simp only [Disk.setEntries, update_self] at member
    rcases fits strictly e member with old | new
    · exact tree.order strictly a directory e old live ordinary kind
    · exact new live ordinary kind
  · simp only [Disk.setEntries, update_of_ne here] at member
    exact tree.order strictly a directory e member live ordinary kind

theorem alloc_type_self (type : FileType) : (d.alloc i type).type i = type := by
  simp [Disk.alloc, Disk.type]

theorem alloc_type (type : FileType) (other : j ≠ i) : (d.alloc i type).type j = d.type j := by
  simp [Disk.alloc, Disk.type, other]

theorem alloc_birth_self (type : FileType) : (d.alloc i type).birth i = d.clock := by
  simp [Disk.alloc]

theorem alloc_birth (type : FileType) (other : j ≠ i) :
    (d.alloc i type).birth j = d.birth j := by
  simp [Disk.alloc, other]

theorem Tree.alloc_younger (tree : Tree mode d) {type : FileType} (other : a ≠ i)
    (before : d.type c = .dir → d.birth a < d.birth c)
    (directory : (d.alloc i type).type c = .dir) :
    (d.alloc i type).birth a < (d.alloc i type).birth c := by
  rw [alloc_birth type other]
  by_cases here : c = i
  · subst here
    rw [alloc_birth_self]
    exact tree.young a
  · rw [alloc_type type here] at directory
    rw [alloc_birth type here]
    exact before directory

theorem Tree.alloc (tree : Tree mode d) {type : FileType} : Tree mode (d.alloc i type) := by
  refine ⟨fun j => ?_, fun strictly a directory e member live ordinary kind => ?_⟩
  · have young := tree.young j
    by_cases here : j = i
    · subst here
      rw [alloc_birth_self]
      exact Nat.lt_succ_self _
    · rw [alloc_birth type here]
      exact Nat.lt_succ_of_lt young
  · by_cases here : a = i
    · subst here
      simp [Disk.alloc] at member
    · simp only [Disk.alloc, update_of_ne here] at member
      rw [alloc_type type here] at directory
      exact tree.alloc_younger here (tree.order strictly a directory e member live ordinary) kind

theorem freeInum_free (found : d.freeInum = some i) : i ≠ 0 ∧ d.type i = .free := by
  have holds := List.find?_some found
  simpa using holds

theorem mem_place {e new : Dirent} (member : e ∈ place new es) : e = new ∨ e ∈ es := by
  induction es with
  | nil => simpa [place] using member
  | cons first rest ih =>
    simp only [place] at member
    split at member
    · rcases List.mem_cons.mp member with here | later
      · exact .inl here
      · exact .inr (List.mem_cons_of_mem _ later)
    · rcases List.mem_cons.mp member with here | later
      · exact .inr (here ▸ List.mem_cons_self)
      · exact (ih later).imp id (List.mem_cons_of_mem _)

theorem lookup_some (found : lookup name es = some (off, i)) :
    i ≠ 0 ∧ es[off]? = some ⟨i, name⟩ := by
  induction es generalizing off with
  | nil => cases found
  | cons first rest ih =>
    simp only [lookup] at found
    split at found
    · rename_i matched
      cases found
      exact ⟨matched.1, by simp [← matched.2]⟩
    · obtain ⟨⟨k, j⟩, later, same⟩ := Option.map_eq_some_iff.mp found
      cases same
      simpa using ih later

end

theorem addNlink_safe (alive : l.life = .alive) :
    Safe (discipline mode) t (addNlink i n) l fun _ l' => l' = l.grip l.refs l.held l.older none :=
  safe_rewrite alive (fun _ => ⟨fun j => setNlink_type i j _, rfl⟩)
    fun _ _ inv _ => inv.tree.congr (fun j => setNlink_type i j _) rfl rfl rfl

structure Adds (r : Refs) (i : Inum) (r' : Refs) : Prop where
  bag : r'.bag = i ::ₘ r.bag
  keeps : ∀ j x, r.typed j = some x → r'.typed j = some x

/-- The reference of `ialloc`. If it is taken in time, the type of the inode is known. -/
structure Claimed (mode : Mode) (r : Refs) (i : Inum) (type : FileType) (r' : Refs) : Prop
    extends Adds r i r' where
  known : mode.claimed → type ≠ .free → r'.typed i = some type

theorem know_inv (inv : Inv mode w g) (alive : (g t).life = .alive) (unlocked : w.locks i = none)
    (typed : w.shared.disk.type i = type) (some : type ≠ .free) :
    Inv mode w (update g t ((g t).setRefs ((g t).refs.know i type))) := by
  have learned : ∀ j x, ((g t).refs.know i type).typed j = Option.some x →
      (g t).refs.typed j = Option.some x ∨ j = i ∧ x = type := by
    intro j x known
    by_cases here : j = i
    · subst here
      simp only [Refs.know] at known
      split at known
      · rw [update_self] at known
        exact .inr ⟨rfl, (Option.some.inj known).symm⟩
      · exact .inl known
    · simp only [Refs.know] at known
      split at known
      · rw [update_of_ne here] at known
        exact .inl known
      · exact .inl known
  have others : ∀ u j, (g u).sole = Option.some j → ((g t).refs.know i type).typed j = none := by
    intro u j alone
    obtain ⟨held, unknown, -⟩ := inv.locks.sole u j alone
    by_contra known
    obtain ⟨x, found⟩ := Option.ne_none_iff_exists'.mp known
    rcases learned j x found with before | ⟨rfl, -⟩
    · rw [unknown t] at before
      cases before
    · rw [(inv.locks.held j u).mpr (by simp [held])] at unlocked
      cases unlocked
  refine inv.withLocks alive rfl ?_ (inv.locks.regrip ⟨fun j => inv.locks.held j t,
    fun _ _ _ => Iff.rfl, inv.locks.seen t, inv.locks.older t, fun j alone => ?_⟩
    fun u j _ alone => others u j alone)
  · intro j x known
    rcases learned j x known with before | ⟨rfl, rfl⟩
    · exact .inl before
    · exact .inr ⟨typed, some⟩
  · obtain ⟨held, unknown, unopened⟩ := inv.locks.sole t j alone
    exact ⟨held, others t j alone, fun u _ => unknown u, unopened⟩

theorem claimed_know (unknown : r.typed i = none) :
    Claimed mode r i type ((r.add i).know i type) where
  bag := rfl
  keeps j x known := by
    have other : j ≠ i := by
      rintro rfl
      rw [unknown] at known
      cases known
    simpa [Refs.know, Refs.add, other] using known
  known _ _ := by simp [Refs.know, Refs.add]

theorem ialloc_safe (alive : l.life = .alive) (directory : l.held dp = some (some .dir)) :
    Safe (discipline mode) t (ialloc type) l fun i l' => ∃ r, Claimed mode l.refs i type r ∧
      l' = l.grip r l.held (some (dp, i)) none := by
  apply safe_bind
  refine safe_step alive ?_
  intro w g inv here i s ran
  subst here
  cases found : w.shared.disk.freeInum with
  | none =>
    rw [found] at ran
    cases ran
  | some j =>
    rw [found] at ran
    cases ran
    have free := (freeInum_free found).2
    have guard : ∀ j, w.shared.disk.type j ≠ .free → j ≠ i := by
      rintro j some rfl
      exact some free
    have seen := inv.locks.seen t dp .dir directory
    have apart : dp ≠ i := guard dp (by simp [seen.1])
    refine ⟨(g t).grip (g t).refs (g t).held (some (dp, i)) none,
      inv.withDisk alive ?_ ?_ ?_ ?_ inv.tree.alloc, ?_, ?_⟩
    · intro j guarded
      exact alloc_type type (guard j (guarded.typed inv))
    · intro j set
      have before := inv.nodes.valid j set
      rw [alloc_type type (guard j before)]
      exact before
    · intro u a c ordered strictly kind
      have before := inv.locks.older u a c ordered
      have known := inv.locks.seen u a .dir before.1
      exact inv.tree.alloc_younger (guard a (by simp [known.1])) (before.2 strictly) kind
    · rintro a c ⟨⟩
      refine ⟨directory, fun _ _ => ?_⟩
      rw [alloc_birth type apart, alloc_birth_self]
      exact inv.tree.young dp
    · intro j u _ _ kind
      have other : j ≠ i := guard j (by simp [kind])
      refine ⟨(alloc_type type other).trans kind, alloc_birth type other, fun c now => ?_⟩
      by_cases new : c = i
      · subst new
        right
        rw [alloc_birth type other, alloc_birth_self]
        exact inv.tree.young j
      · rw [alloc_type type new] at now
        exact .inl ⟨now, alloc_birth type new⟩
    · have unknown : (g t).refs.typed i = none := by
        by_contra known
        obtain ⟨x, found⟩ := Option.ne_none_iff_exists'.mp known
        have typed := inv.nodes.typed t i x found
        exact typed.2 (typed.1.symm.trans free)
      refine safe_bind (igetAs_safe alive fun w' g' s met disk kept => ?_)
      by_cases claims : mode.claimed ∧ type ≠ .free
      · obtain ⟨typed, unlocked⟩ := met.2 claims.1
        rw [← disk] at typed
        have known := know_inv (t := t) kept (by rw [update_self]; exact alive) unlocked typed claims.2
        rw [update_self, update_idem] at known
        exact ⟨_, known, _, claimed_know unknown, rfl⟩
      · exact ⟨_, kept, (g t).refs.add i, ⟨⟨rfl, fun _ _ known => known⟩,
          fun claimed some => absurd ⟨claimed, some⟩ claims⟩, rfl⟩

/-- What is remembered after a name was found in a locked directory. -/
def found (name : Name) (dp i : Inum) : Option (Inum × Inum) :=
  if Ordinary name then some (dp, i) else none

theorem dirlookup_safe (alive : l.life = .alive) (held : l.held dp = some (some type)) :
    Safe (discipline mode) t (dirlookup dp name) l fun result l' => type = .dir ∧
      match result with
      | none => l' = l
      | some (_, i) => l' = l.grip (l.refs.add i) l.held (found name dp i) none := by
  apply safe_bind
  refine safe_step alive ?_
  intro w g inv here result s ran
  subst here
  split at ran
  · rename_i directory
    cases ran
    have same := (inv.locks.seen t dp type held).1
    rw [directory] at same
    subst same
    cases looked : lookup name (w.shared.disk.entries dp) with
    | none => exact ⟨g t, inv.same rfl, Steady.refl, rfl, rfl⟩
    | some hit =>
      obtain ⟨off, i⟩ := hit
      obtain ⟨live, entry⟩ := lookup_some looked
      have order := fun strictly =>
        inv.tree.order strictly dp directory ⟨i, name⟩ (List.mem_of_getElem? entry) live
      refine ⟨(g t).grip (g t).refs (g t).held (found name dp i) none,
        inv.withLocks alive rfl (fun _ _ known => .inl known) (inv.locks.regrip
          ⟨(inv.locks.held · t), fun _ _ _ => Iff.rfl, inv.locks.seen t, ?_, ?_⟩ ?_),
        Steady.refl, ?_⟩
      · intro a c ordered
        simp only [Local.grip, found] at ordered
        split at ordered
        · rename_i ordinary
          cases ordered
          exact ⟨held, fun strictly => order strictly ordinary⟩
        · cases ordered
      · intro j alone
        cases alone
      · intro u j _ alone
        exact (inv.locks.sole u j alone).2.1 t
      · refine safe_then (iget_safe alive) ?_
        rintro _ _ rfl
        exact ⟨rfl, rfl⟩
  · cases ran

/-- The inode may be entered under this name: it is no directory, or a younger one. -/
def Fits (l : Local) (dp : Inum) (name : Name) (i : Inum) : Prop :=
  Ordinary name → l.older = some (dp, i) ∨
    ∃ type, type ≠ .dir ∧ (l.refs.typed i = some type ∨ l.held i = some (some type))

theorem dirlink_safe (alive : l.life = .alive) (held : l.held dp = some (some type))
    (fits : Fits l dp name i) :
    Safe (discipline mode) t (dirlink dp name i) l fun result l' => type = .dir ∧
      ((result = 0 ∧ l' = l.grip l.refs l.held l.older none) ∨
        (result = -1 ∧ l' = l.grip l.refs l.held none none)) := by
  refine safe_then (dirlookup_safe alive held) ?_
  rintro (_ | ⟨off, j⟩) l' ⟨rfl, looked⟩
  · subst looked
    apply safe_bind
    refine safe_step alive ?_
    intro w g inv here value s ran
    subst here
    dsimp only at ran
    split at ran
    · cases ran
      refine ⟨(g t).grip (g t).refs (g t).held (g t).older none,
        inv.withDisk alive (fun _ _ => rfl) inv.nodes.valid
          (fun u a c ordered => (inv.locks.older u a c ordered).2) (inv.locks.older t)
          (inv.tree.setEntries ?_), Steady.refl, rfl, .inl ⟨rfl, rfl⟩⟩
      intro strictly e member
      rcases mem_place member with rfl | old
      · right
        intro _ ordinary directory
        rcases fits ordinary with ordered | ⟨type, other, known | known⟩
        · exact (inv.locks.older t dp i ordered).2 strictly directory
        · rw [(inv.nodes.typed t i type known).1] at directory
          exact absurd directory other
        · rw [(inv.locks.seen t i type known).1] at directory
          exact absurd directory other
      · exact .inl old
    · cases ran
  · subst looked
    refine safe_then (iput_safe alive (Multiset.mem_cons_self _ _)) ?_
    rintro _ _ rfl
    refine ⟨rfl, .inr ⟨rfl, ?_⟩⟩
    simp only [Local.grip, Refs.add_drop]

end
end Xv6.Ownership
