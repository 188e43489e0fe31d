import Xv6.InodeSteps

/-! The steps of file.c and pipe.c on the file table, the pipes and the
descriptors keep the invariant. -/
namespace Xv6.Ownership
open CheckedC LockProgram FileSystem SysFile Tally Function

namespace Local

/-- What a process owns in the file table. -/
def keep (l : Local) (share : Multiset FileId) (blank : List FileId)
    (ends : Multiset (PipeId × Bool)) (r : Refs) (writing : Option (FileId × Inum)) : Local :=
  { l with share := share, blank := blank, ends := ends, refs := r, writing := writing }

end Local

section
variable {g g' : ProcId → Local} {w : FsWorld} {t : ProcId} {l l' : Local}
  {file file' : FileId → File}

/-! ## References to files -/

theorem shares_nonneg (f : FileId) (l : Local) : 0 ≤ shares f l := Int.natCast_nonneg _

theorem one_le_shares (member : f ∈ l.share) : 1 ≤ shares f l := by
  have positive := Multiset.count_pos.mpr member
  simp only [shares]
  omega

theorem Files.two_le (files : Files file g) (first : f ∈ (g t).share) (second : f ∈ (g u).share)
    (other : u ≠ t) : 2 ≤ (file f).ref := by
  have both : shares f (g t) + shares f (g u) ≤ tally (shares f) g :=
    add_le_tally (fun v => shares_nonneg f (g v)) other
  rw [files.count f]
  have mine := one_le_shares first
  have theirs := one_le_shares second
  omega

theorem Files.blank_sole (files : Files file g) (blank : f ∈ (g u).blank)
    (member : f ∈ (g t).share) : u = t := by
  by_contra other
  obtain ⟨_, one, theirs⟩ := files.blank u f blank
  have two := files.two_le member theirs other
  omega

theorem Files.shift (files : Files file g)
    (ref : ∀ f, (file' f).ref = (file f).ref - shares f (g t) + shares f l')
    (empty : ∀ f, (file' f).ref = 0 → (file' f).kind = .none)
    (blank : ∀ f, f ∈ l'.blank → (file' f).kind = .none ∧ (file' f).ref = 1 ∧ f ∈ l'.share)
    (writing : ∀ f i, l'.writing = some (f, i) →
      f ∈ l'.share ∧ (file' f).kind = .inode i ∧ (file' f).writable = true)
    (blankBy : ∀ u f, u ≠ t → f ∈ (g u).blank → (file' f).kind = .none ∧ (file' f).ref = 1)
    (writingBy : ∀ u f i, u ≠ t → (g u).writing = some (f, i) →
      (file' f).kind = .inode i ∧ (file' f).writable = true) :
    Files file' (update g t l') := by
  constructor
  · intro f
    rw [tally_update, ref f, files.count f]
  · exact empty
  · intro u f member
    by_cases here : u = t
    · subst here
      rw [update_self] at member ⊢
      exact blank f member
    · rw [update_of_ne here] at member ⊢
      have now := blankBy u f here member
      exact ⟨now.1, now.2, (files.blank u f member).2.2⟩
  · intro u f i known
    by_cases here : u = t
    · subst here
      rw [update_self] at known ⊢
      exact writing f i known
    · rw [update_of_ne here] at known ⊢
      have now := writingBy u f i here known
      exact ⟨(files.writing u f i known).1, now.1, now.2⟩

theorem shares_cons (f f' : FileId) :
    shares f' (l.keep (f ::ₘ l.share) b e r o) = shares f' l + if f' = f then 1 else 0 := by
  simp only [shares, Local.keep, Multiset.count_cons]
  split <;> simp

theorem shares_erase (member : f ∈ l.share) (f' : FileId) :
    shares f' (l.keep (l.share.erase f) b e r o) = shares f' l - if f' = f then 1 else 0 :=
  count_erase member f'

theorem Inv.withFiles {pipe : PipeId → Option Pipe} (inv : Inv mode w g)
    (alive : (g t).life = .alive)
    (files : Files file (update g t ((g t).keep m b e r o)))
    (pipes : Pipes file pipe (update g t ((g t).keep m b e r o)))
    (nodes : Nodes mode { w.shared with file := file, pipe := pipe }
      (update g t ((g t).keep m b e r o)))
    (known : ∀ i, (g t).refs.typed i = none → r.typed i = none)
    (kinds : ∀ f i, (file f).kind = .inode i →
      (w.shared.file f).kind = .inode i ∨ ∃ u, (g u).refs.typed i ≠ none) :
    Inv mode { w with shared := { w.shared with file := file, pipe := pipe } }
      (update g t ((g t).keep m b e r o)) where
  mirror := mirror_update inv.mirror ⟨rfl, rfl, rfl⟩
  forks := inv.forks.set alive alive rfl
  files := files
  pipes := pipes
  nodes := nodes
  locks := inv.locks.keep (fun _ => rfl) rfl kinds ⟨rfl, rfl, rfl⟩ known
  tree := inv.tree

theorem Pipes.recount {pipe : PipeId → Option Pipe} (pipes : Pipes file pipe g)
    (same : ∀ f, (file' f).kind = (file f).kind ∧ (file' f).writable = (file f).writable)
    (ends : ∀ u, (g' u).ends = (g u).ends) : Pipes file' pipe g' := by
  refine Pipes.congr (g := g) ⟨fun q b => ?_, pipes.used⟩ ends
  have files : tally (pipeEnd q b) file' = tally (pipeEnd q b) file :=
    tally_congr fun f => by simp only [pipeEnd, (same f).1, (same f).2]
  rw [files]
  exact pipes.count q b

theorem Nodes.recount {s s' : Fs} (nodes : Nodes mode s g)
    (same : ∀ f, (s'.file f).kind = (s.file f).kind ∧ (s'.file f).writable = (s.file f).writable)
    (refs : ∀ u, (g' u).refs = (g u).refs) (ref : s'.ref = s.ref) (disk : s'.disk = s.disk)
    (valid : s'.valid = s.valid) : Nodes mode s' g' := by
  constructor
  · intro i
    have owned : tally (refsTo i) g' = tally (refsTo i) g :=
      tally_congr fun u => by simp only [refsTo, refs u]
    have opened : tally (onInode i) s'.file = tally (onInode i) s.file :=
      tally_congr fun f => by simp only [onInode, (same f).1]
    rw [owned, opened, ref]
    exact nodes.count i
  · intro u i type known
    rw [refs u] at known
    rw [disk]
    exact nodes.typed u i type known
  · intro f i kind
    rw [(same f).1] at kind
    rw [(same f).2, disk]
    exact nodes.opened f i kind
  · intro i set
    rw [valid] at set
    rw [disk]
    exact nodes.valid i set

theorem Inv.withShares (inv : Inv mode w g) (alive : (g t).life = .alive)
    (same : ∀ f, (file f).kind = (w.shared.file f).kind ∧
      (file f).writable = (w.shared.file f).writable)
    (files : Files file (update g t ((g t).keep m b (g t).ends (g t).refs o))) :
    Inv mode { w with shared := { w.shared with file := file } }
      (update g t ((g t).keep m b (g t).ends (g t).refs o)) := by
  refine inv.withFiles alive files
    (inv.pipes.recount same (ends_update rfl))
    (inv.nodes.recount same (refs_update rfl) rfl rfl rfl) (fun _ unknown => unknown) ?_
  intro f i kind
  rw [(same f).1] at kind
  exact .inl kind

theorem Files.write (files : Files file g) (cell : File)
    (ref : cell.ref = (file f).ref - shares f (g t) + shares f l')
    (others : ∀ f', f' ≠ f → shares f' l' = shares f' (g t))
    (empty : cell.ref = 0 → cell.kind = .none)
    (blank : ∀ f', f' ∈ l'.blank → (f' ≠ f ∧ f' ∈ (g t).blank ∧ f' ∈ l'.share) ∨
      (f' = f ∧ cell.kind = .none ∧ cell.ref = 1 ∧ f ∈ l'.share))
    (writing : l'.writing = none)
    (blankBy : ∀ u, u ≠ t → f ∉ (g u).blank)
    (writingBy : ∀ u i, u ≠ t → (g u).writing = some (f, i) →
      cell.kind = .inode i ∧ cell.writable = true) :
    Files (update file f cell) (update g t l') := by
  refine files.shift ?_ ?_ ?_ ?_ ?_ ?_
  · intro f'
    by_cases here : f' = f
    · subst here
      rw [update_self]
      exact ref
    · rw [update_of_ne here, others f' here]
      ring
  · intro f' zero
    by_cases here : f' = f
    · subst here
      rw [update_self] at zero ⊢
      exact empty zero
    · rw [update_of_ne here] at zero ⊢
      exact files.empty f' zero
  · intro f' member
    rcases blank f' member with ⟨here, old, shared⟩ | ⟨rfl, kind, one, shared⟩
    · rw [update_of_ne here]
      have before := files.blank t f' old
      exact ⟨before.1, before.2.1, shared⟩
    · rw [update_self]
      exact ⟨kind, one, shared⟩
  · intro f' i known
    rw [writing] at known
    cases known
  · intro u f' other member
    have here : f' ≠ f := by
      rintro rfl
      exact blankBy u other member
    rw [update_of_ne here]
    have before := files.blank u f' member
    exact ⟨before.1, before.2.1⟩
  · intro u f' i other known
    by_cases here : f' = f
    · subst here
      rw [update_self]
      exact writingBy u i other known
    · rw [update_of_ne here]
      exact (files.writing u f' i known).2

theorem update_kinds {cell : File} (kind : cell.kind = (file f).kind)
    (writable : cell.writable = (file f).writable) : ∀ f', (update file f cell f').kind =
      (file f').kind ∧ (update file f cell f').writable = (file f').writable := by
  intro f'
  by_cases here : f' = f
  · subst here
    simp [kind, writable]
  · simp [here]

theorem filealloc_safe (alive : l.life = .alive) :
    Safe (discipline mode) t filealloc l fun result l' =>
      match result with
      | none => l' = l
      | some f => f ∉ l.blank ∧
          l' = l.keep (f ::ₘ l.share) (f :: l.blank) l.ends l.refs none := by
  refine safe_step alive ?_
  intro w g inv here result s ran
  subst here
  cases looked : (List.finRange NFILE).find? fun f => decide ((w.shared.file f).ref = 0) with
  | none =>
    rw [looked] at ran
    cases ran
    exact ⟨g t, inv.same rfl, Steady.refl, rfl⟩
  | some f =>
    rw [looked] at ran
    cases ran
    have unused : (w.shared.file f).ref = 0 := by simpa using List.find?_some looked
    have kind := inv.files.empty f unused
    have blanked : ∀ u, f ∉ (g u).blank := by
      intro u member
      have one := (inv.files.blank u f member).2.1
      omega
    refine ⟨_, inv.withShares alive (update_kinds rfl rfl)
      (inv.files.write _ ?_ ?_ ?_ ?_ rfl (fun u _ => blanked u) ?_), Steady.refl, blanked t, rfl⟩
    · rw [shares_cons, unused, if_pos rfl]
      ring
    · intro f' other
      rw [shares_cons, if_neg other]
      ring
    · intro zero
      cases zero
    · intro f' member
      rcases List.mem_cons.mp member with rfl | old
      · exact .inr ⟨rfl, kind, rfl, Multiset.mem_cons_self _ _⟩
      · refine .inl ⟨?_, old, Multiset.mem_cons_of_mem (inv.files.blank t f' old).2.2⟩
        rintro rfl
        exact blanked t old
    · intro u i _ known
      have typed := (inv.files.writing u f i known).2.1
      rw [kind] at typed
      cases typed

theorem filedup_safe (alive : l.life = .alive) (member : f ∈ l.share) (typed : f ∉ l.blank) :
    Safe (discipline mode) t (filedup f) l fun _ l' =>
      l' = l.keep (f ::ₘ l.share) l.blank l.ends l.refs none := by
  refine safe_step alive ?_
  intro w g inv here _ s ran
  subst here
  split at ran
  · cases ran
  · cases ran
    refine ⟨_, inv.withShares alive (update_kinds rfl rfl)
      (inv.files.write _ ?_ ?_ ?_ ?_ rfl ?_ ?_), Steady.refl, rfl⟩
    · rw [shares_cons, if_pos rfl]
      ring
    · intro f' other
      rw [shares_cons, if_neg other]
      ring
    · intro zero
      simp only at zero
      omega
    · intro f' old
      refine .inl ⟨?_, old, Multiset.mem_cons_of_mem (inv.files.blank t f' old).2.2⟩
      rintro rfl
      exact typed old
    · intro u other blank
      exact other (inv.files.blank_sole blank member)
    · intro u i _ known
      exact (inv.files.writing u f i known).2

/-- What comes with the last reference to a file: its reference to an inode or its
end of a pipe. -/
def Local.inherit (l : Local) (f : FileId) (file : File) : Local :=
  l.keep (l.share.erase f) (l.blank.filter (· ≠ f))
    (match file.kind with
      | .pipe q => (q, file.writable) ::ₘ l.ends
      | _ => l.ends)
    (match file.kind with
      | .inode i => l.refs.add i
      | _ => l.refs) none

theorem ownedEnd_inherit (q : PipeId) (b : Bool) (f : FileId) (file : File) :
    ownedEnd q b (l.inherit f file) = ownedEnd q b l + pipeEnd q b file := by
  simp only [ownedEnd, Local.inherit, Local.keep, pipeEnd]
  cases kind : file.kind with
  | pipe q' =>
    rw [Multiset.count_cons]
    by_cases here : q' = q ∧ file.writable = b
    · obtain ⟨rfl, rfl⟩ := here
      simp
    · rw [if_neg, if_neg]
      · simp
      · simpa using here
      · intro same
        cases same
        exact here ⟨rfl, rfl⟩
  | inode i => simp
  | none => simp

theorem refsTo_inherit (i : Inum) (f : FileId) (file : File) :
    refsTo i (l.inherit f file) = refsTo i l + onInode i file := by
  simp only [refsTo, Local.inherit, Local.keep, onInode]
  cases kind : file.kind with
  | pipe q => simp
  | inode j =>
    simp only [Refs.add, Multiset.count_cons, FileKind.inode.injEq]
    by_cases here : i = j
    · simp [here]
    · simp [here, Ne.symm here]
  | none => simp

theorem typed_inherit (i : Inum) (f : FileId) (file : File) :
    (l.inherit f file).refs.typed i = l.refs.typed i := by
  simp only [Local.inherit, Local.keep]
  cases file.kind <;> rfl

theorem closeRef_safe (alive : l.life = .alive) (member : f ∈ l.share) :
    Safe (discipline mode) t (closeRef f) l fun result l' =>
      match result with
      | none => f ∉ l.blank ∧ l' = l.keep (l.share.erase f) l.blank l.ends l.refs none
      | some file => (f ∈ l.blank → file.kind = .none) ∧ l' = l.inherit f file := by
  refine safe_step alive ?_
  intro w g inv here result s ran
  subst here
  split at ran
  · cases ran
  · split at ran
    · -- another reference is left
      cases ran
      have blanked : ∀ u, f ∉ (g u).blank := by
        intro u blank
        have one := (inv.files.blank u f blank).2.1
        omega
      refine ⟨_, inv.withShares alive (update_kinds rfl rfl)
        (inv.files.write _ ?_ ?_ ?_ ?_ rfl (fun u _ => blanked u) ?_), Steady.refl,
        blanked t, rfl⟩
      · rw [shares_erase member, if_pos rfl]
        ring
      · intro f' other
        rw [shares_erase member, if_neg other]
        ring
      · intro zero
        simp only at zero
        omega
      · intro f' old
        have here : f' ≠ f := by
          rintro rfl
          exact blanked t old
        exact .inl ⟨here, old,
          (Multiset.mem_erase_of_ne here).mpr (inv.files.blank t f' old).2.2⟩
      · intro u i _ known
        exact (inv.files.writing u f i known).2
    · -- the file goes back to the table
      cases ran
      have alone : ∀ u, u ≠ t → f ∉ (g u).share := by
        intro u other theirs
        have two := inv.files.two_le member theirs other
        omega
      have cleared : ∀ f' i, (update w.shared.file f
          { w.shared.file f with ref := 0, kind := .none } f').kind = .inode i →
          f' ≠ f ∧ (w.shared.file f').kind = .inode i := by
        intro f' i kind
        by_cases here : f' = f
        · subst here
          simp at kind
        · rw [update_of_ne here] at kind
          exact ⟨here, kind⟩
      refine ⟨_, inv.withFiles alive (inv.files.write _ ?_ ?_ (fun _ => rfl) ?_ rfl ?_ ?_)
        ⟨?_, inv.pipes.used⟩ ⟨?_, ?_, ?_, inv.nodes.valid⟩ ?_ ?_, Steady.refl, ?_, rfl⟩
      · rw [shares_erase member, if_pos rfl]
        simp only
        omega
      · intro f' other
        rw [shares_erase member, if_neg other]
        ring
      · intro f' kept
        obtain ⟨old, here⟩ := List.mem_filter.mp kept
        simp only [ne_eq, decide_not, Bool.not_eq_true', decide_eq_false_iff_not] at here
        exact .inl ⟨here, old,
          (Multiset.mem_erase_of_ne here).mpr (inv.files.blank t f' old).2.2⟩
      · intro u other blank
        exact alone u other (inv.files.blank u f blank).2.2
      · intro u i other known
        exact absurd (inv.files.writing u f i known).1 (alone u other)
      · intro q b
        have inherits := ownedEnd_inherit (l := g t) q b f (w.shared.file f)
        have closed : pipeEnd q b { w.shared.file f with ref := 0, kind := .none } = 0 := by
          simp [pipeEnd]
        have before := inv.pipes.count q b
        unfold Local.inherit at inherits
        rw [tally_update, tally_update, inherits, closed]
        omega
      · intro i
        have inherits := refsTo_inherit (l := g t) i f (w.shared.file f)
        have closed : onInode i { w.shared.file f with ref := 0, kind := .none } = 0 := by
          simp [onInode]
        have before := inv.nodes.count i
        unfold Local.inherit at inherits
        change w.shared.ref i = _
        rw [tally_update, tally_update, inherits, closed]
        omega
      · intro u i type known
        apply inv.nodes.typed u i type
        rw [← known]
        exact (forall_update (P := fun l m => l.refs.typed i = m.refs.typed i) (fun _ => rfl)
          (typed_inherit i f _) u).symm
      · intro f' i kind
        obtain ⟨here, before⟩ := cleared f' i kind
        refine ⟨(inv.nodes.opened f' i before).1, fun strictly writable => ?_⟩
        simp only [update_of_ne here] at writable
        exact (inv.nodes.opened f' i before).2 strictly writable
      · intro i unknown
        exact (typed_inherit i f _).trans unknown
      · intro f' i kind
        exact .inl (cleared f' i kind).2
      · exact fun blank => (inv.files.blank t f blank).1

/-! ## Pipes -/

theorem ownedEnd_nonneg (q : PipeId) (b : Bool) (l : Local) : 0 ≤ ownedEnd q b l :=
  Int.natCast_nonneg _

theorem pipeEnd_nonneg (q : PipeId) (b : Bool) (f : File) : 0 ≤ pipeEnd q b f := by
  unfold pipeEnd
  split <;> decide

theorem Pipes.owned {pipe : PipeId → Option Pipe} (pipes : Pipes file pipe g)
    (member : (q, b) ∈ (g t).ends) : ∃ p, pipe q = some p ∧
      tally (ownedEnd q b) g = 1 ∧ tally (pipeEnd q b) file = 0 := by
  have count := pipes.count q b
  have mine : 1 ≤ ownedEnd q b (g t) := by
    have positive := Multiset.count_pos.mpr member
    simp only [ownedEnd]
    omega
  have most : ownedEnd q b (g t) ≤ tally (ownedEnd q b) g :=
    le_tally (fun u => ownedEnd_nonneg q b (g u)) t
  have files : 0 ≤ tally (pipeEnd q b) file := tally_nonneg fun f => pipeEnd_nonneg q b (file f)
  cases found : pipe q with
  | none =>
    rw [found] at count
    simp only [isOpen] at count
    omega
  | some p =>
    rw [found] at count
    simp only [isOpen] at count
    split at count
    · exact ⟨p, rfl, by omega, by omega⟩
    · omega

theorem isOpen_close (p : Pipe) (b b' : Bool) :
    isOpen (leftOpen (closeEnd p b)) b' = if b' = b then 0 else isOpen (some p) b' := by
  obtain ⟨readopen, writeopen⟩ := p
  cases b <;> cases b' <;> cases readopen <;> cases writeopen <;> rfl

theorem pipeclose_safe (alive : l.life = .alive) (member : (q, b) ∈ l.ends) :
    Safe (discipline mode) t (pipeclose q b) l fun _ l' =>
      l' = l.keep l.share l.blank (l.ends.erase (q, b)) l.refs l.writing := by
  refine safe_step alive ?_
  intro w g inv here _ s ran
  subst here
  obtain ⟨p, found, owned, files⟩ := inv.pipes.owned member
  rw [found] at ran
  cases ran
  have ends : ∀ q' b', ownedEnd q' b' ((g t).keep (g t).share (g t).blank
      ((g t).ends.erase (q, b)) (g t).refs (g t).writing) =
        ownedEnd q' b' (g t) - if (q', b') = (q, b) then 1 else 0 := by
    intro q' b'
    simp only [ownedEnd, Local.keep]
    split
    · rename_i same
      rw [same, Multiset.count_erase_self]
      have positive := Multiset.count_pos.mpr member
      omega
    · rename_i other
      rw [Multiset.count_erase_of_ne other]
      omega
  refine ⟨(g t).keep (g t).share (g t).blank ((g t).ends.erase (q, b)) (g t).refs (g t).writing,
    inv.withFiles alive (inv.files.set ⟨rfl, rfl, rfl⟩) ⟨?_, ?_⟩
    (inv.nodes.congr (refs_update rfl)
      rfl rfl (fun _ => rfl) fun _ set => .inl set)
    (fun _ unknown => unknown) (fun _ _ kind => .inl kind), Steady.refl, rfl⟩
  · intro q' b'
    have before := inv.pipes.count q' b'
    rw [tally_update, ends q' b']
    by_cases here : q' = q
    · subst here
      rw [update_self, isOpen_close]
      by_cases same : b' = b
      · subst same
        rw [if_pos rfl, if_pos rfl]
        omega
      · rw [found] at before
        rw [if_neg same, if_neg (by simp [same])]
        omega
    · rw [update_of_ne here, if_neg (by simp [here])]
      omega
  · intro q' p' now
    by_cases here : q' = q
    · subst here
      simp only [update_self, leftOpen] at now
      split at now
      · rename_i left
        cases now
        simpa using left
      · cases now
    · rw [update_of_ne here] at now
      exact inv.pipes.used q' p' now

theorem Files.settle (files : Files file g) (cell : File) (blank : f ∈ (g t).blank)
    (ref : cell.ref = (file f).ref) :
    Files (update file f cell) (update g t ((g t).keep (g t).share
      ((g t).blank.filter (· ≠ f)) e r none)) := by
  obtain ⟨kind, one, member⟩ := files.blank t f blank
  refine files.write cell ?_ (fun _ _ => rfl) ?_ ?_ rfl ?_ ?_
  · simp only [shares, Local.keep, ref]
    ring
  · omega
  · intro f' kept
    obtain ⟨old, here⟩ := List.mem_filter.mp kept
    simp only [ne_eq, decide_not, Bool.not_eq_true', decide_eq_false_iff_not] at here
    exact .inl ⟨here, old, (files.blank t f' old).2.2⟩
  · intro u other theirs
    exact other (files.blank_sole theirs member)
  · intro u i _ known
    have typed := (files.writing u f i known).2.1
    rw [kind] at typed
    cases typed

theorem pipeInit_safe (alive : l.life = .alive) (blank : l.blank = [wf, rf]) (apart : wf ≠ rf) :
    Safe (discipline mode) t (pipeInit rf wf page) l fun allocated l' =>
      (allocated = false ∧ l' = l) ∨
        (allocated = true ∧ l' = l.keep l.share [] l.ends l.refs none) := by
  refine safe_step alive ?_
  intro w g inv here allocated s ran
  subst here
  have failed : (false, w.shared) = (allocated, s) → ∃ l',
      Inv mode { w with shared := s } (update g t l') ∧ Steady w t s.disk ∧
        ((allocated = false ∧ l' = g t) ∨
          (allocated = true ∧ l' = (g t).keep (g t).share [] (g t).ends (g t).refs none)) := by
    rintro ⟨⟩
    exact ⟨g t, inv.same rfl, Steady.refl, .inl ⟨rfl, rfl⟩⟩
  cases page with
  | none => exact failed (Except.ok.inj ran)
  | some q =>
    simp only at ran
    split at ran
    · exact failed (Except.ok.inj ran)
    · rename_i unused
      have free : w.shared.pipe q = none := by simpa using unused
      cases ran
      have readKind := (inv.files.blank t rf (by simp [blank])).1
      have writeKind := (inv.files.blank t wf (by simp [blank])).1
      have plain : ∀ f i, (update (update w.shared.file rf
          { w.shared.file rf with kind := .pipe q, readable := true, writable := false }) wf
          { w.shared.file wf with kind := .pipe q, readable := false, writable := true } f).kind =
            .inode i → f ≠ rf ∧ f ≠ wf := by
        intro f i kind
        constructor
        · rintro rfl
          simp [update_of_ne (Ne.symm apart)] at kind
        · rintro rfl
          simp at kind
      have same : update w.shared.file rf
          { w.shared.file rf with kind := .pipe q, readable := true, writable := false } wf =
            w.shared.file wf := update_of_ne apart _ _
      refine ⟨(g t).keep (g t).share [] (g t).ends (g t).refs none, ?_, Steady.refl,
        .inr ⟨rfl, rfl⟩⟩
      simp only [Fs.setFile, Fs.setPipe, same]
      refine inv.withFiles alive ?_ ⟨?_, ?_⟩ ⟨?_, ?_, ?_, inv.nodes.valid⟩
        (fun _ unknown => unknown) ?_
      · have first := inv.files.settle (e := (g t).ends) (r := (g t).refs)
          { w.shared.file rf with kind := .pipe q, readable := true, writable := false }
          (show rf ∈ (g t).blank by simp [blank]) rfl
        have second := first.settle (t := t) (e := (g t).ends) (r := (g t).refs)
          { w.shared.file wf with kind := .pipe q, readable := false, writable := true }
          (show wf ∈ _ by simp [Local.keep, blank, apart]) (by rw [same])
        simpa [Local.keep, blank] using second
      · intro q' b
        have before := inv.pipes.count q' b
        rw [tally_update, tally_update, tally_update, same]
        simp only [pipeEnd, ownedEnd, Local.keep, readKind, writeKind, reduceCtorEq, false_and,
          if_false, FileKind.pipe.injEq] at before ⊢
        by_cases here : q' = q
        · subst here
          rw [free] at before
          simp only [isOpen] at before
          cases b <;> simp [isOpen, endOpen] <;> omega
        · rw [update_of_ne here]
          simp only [Ne.symm here, false_and, if_false]
          omega
      · intro q' p now
        by_cases here : q' = q
        · subst here
          rw [update_self] at now
          cases now
          exact .inl rfl
        · rw [update_of_ne here] at now
          exact inv.pipes.used q' p now
      · intro i
        have before := inv.nodes.count i
        rw [tally_update, tally_update, tally_update, same]
        simp only [onInode, refsTo, Local.keep, readKind, writeKind, reduceCtorEq,
          if_false] at before ⊢
        omega
      · intro u i type known
        rw [refs_update (by rfl)] at known
        exact inv.nodes.typed u i type known
      · intro f i kind
        obtain ⟨notRead, notWrite⟩ := plain f i kind
        simp only [update_of_ne notRead, update_of_ne notWrite] at kind ⊢
        exact inv.nodes.opened f i kind
      · intro f i kind
        obtain ⟨notRead, notWrite⟩ := plain f i kind
        rw [update_of_ne notWrite, update_of_ne notRead] at kind
        exact .inl kind

theorem openFile_safe (alive : l.life = .alive) (blank : f ∈ l.blank)
    (typed : l.refs.typed ip = some type)
    (plain : mode.claimed → writes omode = true → type ≠ .dir) :
    Safe (discipline mode) t (openFile f ip omode) l fun _ l' =>
      l' = l.keep l.share (l.blank.filter (· ≠ f)) l.ends (l.refs.drop ip) none := by
  refine safe_careful alive ?_
  rintro w g inv here met _ s ⟨⟩
  subst here
  have kind := (inv.files.blank t f blank).1
  have member := (g t).refs.backed ip (by simp [typed])
  have known := inv.nodes.typed t ip type typed
  refine ⟨_, inv.withFiles alive (inv.files.settle _ blank rfl) ⟨?_, inv.pipes.used⟩
    ⟨?_, ?_, ?_, inv.nodes.valid⟩ (fun _ unknown => Refs.drop_unknown unknown) ?_, Steady.refl, rfl⟩
  · intro q b
    have before := inv.pipes.count q b
    rw [tally_update, tally_update, pipeEnd, pipeEnd, if_neg (by simp [kind]), if_neg (by simp)]
    simp only [ownedEnd, Local.keep] at before ⊢
    omega
  · intro i
    have before := inv.nodes.count i
    have fewer := refsTo_unref member i
    simp only [refsTo, Local.unref, Local.setRefs] at fewer
    rw [tally_update, tally_update, onInode, onInode, if_neg (by simp [kind])]
    simp only [refsTo, Local.keep, FileKind.inode.injEq] at before ⊢
    by_cases here : i = ip
    · subst here
      omega
    · simp only [here, Ne.symm here, if_false] at fewer ⊢
      omega
  · intro u i type' now
    by_cases here : u = t
    · subst here
      rw [update_self] at now
      exact inv.nodes.typed u i type' (Refs.typed_of_drop now)
    · rw [update_of_ne here] at now
      exact inv.nodes.typed u i type' now
  · intro f' i now
    by_cases here : f' = f
    · subst here
      simp only [update_self, FileKind.inode.injEq] at now ⊢
      subst now
      refine ⟨fun free => known.2 (known.1.symm.trans free), fun assumed writable => ?_⟩
      rcases assumed with strictly | claims
      · exact met.1 strictly writable
      · rw [known.1]
        exact plain claims writable
    · simp only [update_of_ne here] at now ⊢
      exact inv.nodes.opened f' i now
  · intro f' i now
    by_cases here : f' = f
    · subst here
      simp only [update_self, FileKind.inode.injEq] at now
      subst now
      exact .inr ⟨t, by simp [typed]⟩
    · rw [update_of_ne here] at now
      exact .inl now

/-! ## Descriptors and the working directory -/

namespace Local

def setOwn (l : Local) (ofile : Fin NOFILE → Option FileId) (cwd : Option Inum) : Local :=
  { l with ofile := ofile, cwd := cwd }

end Local

theorem filterMap_absent (ofile : Fin NOFILE → Option FileId) {fds : List (Fin NOFILE)}
    (absent : fd ∉ fds) (f : Option FileId) :
    fds.filterMap (update ofile fd f) = fds.filterMap ofile := by
  apply List.filterMap_congr
  intro other member
  rw [update_of_ne]
  rintro rfl
  exact absent member

theorem filterMap_fill {ofile : Fin NOFILE → Option FileId} (empty : ofile fd = none)
    (fds : List (Fin NOFILE)) (distinct : fds.Nodup) (member : fd ∈ fds) (f : FileId) :
    ((fds.filterMap (update ofile fd (some f)) : List FileId) : Multiset FileId) =
      f ::ₘ (fds.filterMap ofile : List FileId) := by
  induction fds with
  | nil => cases member
  | cons first rest ih =>
    obtain ⟨absent, distinct⟩ := List.nodup_cons.mp distinct
    by_cases here : first = fd
    · subst here
      rw [List.filterMap_cons_some (update_self _ _ _), List.filterMap_cons_none empty,
        filterMap_absent ofile absent]
      rfl
    · have later := ih distinct ((List.mem_cons.mp member).resolve_left (Ne.symm here))
      have same : update ofile fd (some f) first = ofile first :=
        update_of_ne here _ _
      cases slot : ofile first with
      | none =>
        rw [List.filterMap_cons_none (same.trans slot), List.filterMap_cons_none slot]
        exact later
      | some other =>
        rw [List.filterMap_cons_some (same.trans slot), List.filterMap_cons_some slot,
          ← Multiset.cons_coe, later, ← Multiset.cons_coe, Multiset.cons_swap]

theorem slots_fill {ofile : Fin NOFILE → Option FileId} (empty : ofile fd = none) (f : FileId) :
    slots (update ofile fd (some f)) = f ::ₘ slots ofile :=
  filterMap_fill empty _ (List.nodup_finRange _) (List.mem_finRange fd) f

theorem slots_clear {ofile : Fin NOFILE → Option FileId} (full : ofile fd = some f) :
    slots (update ofile fd none) = (slots ofile).erase f := by
  have back := slots_fill (update_self fd none ofile) f
  rw [update_idem, ← full, update_eq_self] at back
  rw [back, Multiset.erase_cons_head]

theorem mem_slots {ofile : Fin NOFILE → Option FileId} (full : ofile fd = some f) :
    f ∈ slots ofile :=
  Multiset.mem_coe.mpr (List.mem_filterMap.mpr ⟨fd, List.mem_finRange fd, full⟩)

theorem Inv.withOwn (inv : Inv mode w g) (alive : (g t).life = .alive) :
    Inv mode { w with shared := w.shared.setProc t { w.shared.proc t with ofile := o, cwd := c } }
      (update g t ((g t).setOwn o c)) where
  mirror u := by
    by_cases here : u = t
    · subst here
      simp only [Fs.setProc, update_self]
      exact ⟨rfl, rfl, (inv.mirror u).2.2⟩
    · simp only [Fs.setProc, update_of_ne here]
      exact inv.mirror u
  forks := inv.forks.set alive alive rfl
  files := inv.files.set ⟨rfl, rfl, rfl⟩
  pipes := inv.pipes.congr (ends_update rfl)
  nodes := inv.nodes.congr (refs_update rfl)
    rfl rfl (fun _ => rfl) fun _ set => .inl set
  locks := inv.locks.keep (fun _ => rfl) rfl (fun _ _ => .inl) ⟨rfl, rfl, rfl⟩ fun _ => id
  tree := inv.tree

theorem fdalloc_safe (alive : l.life = .alive) :
    Safe (discipline mode) t (fdalloc t f) l fun result l' =>
      match result with
      | none => l' = l
      | some fd => l.ofile fd = none ∧
          l' = l.setOwn (update l.ofile fd (some f)) l.cwd := by
  refine safe_step alive ?_
  intro w g inv here result s ran
  subst here
  obtain ⟨slots, cwd, _⟩ := inv.mirror t
  cases looked : (List.finRange NOFILE).find? fun fd =>
      decide ((w.shared.proc t).ofile fd = none) with
  | none =>
    rw [looked] at ran
    cases ran
    exact ⟨g t, inv.same rfl, Steady.refl, rfl⟩
  | some fd =>
    rw [looked] at ran
    cases ran
    have empty : (w.shared.proc t).ofile fd = none := by simpa using List.find?_some looked
    rw [slots] at empty
    refine ⟨(g t).setOwn (update (g t).ofile fd (some f)) (g t).cwd, ?_, Steady.refl,
      empty, rfl⟩
    rw [← slots, ← cwd]
    exact inv.withOwn alive

theorem clearSlot_safe (alive : l.life = .alive) :
    Safe (discipline mode) t (clearSlot t fd) l fun _ l' =>
      l' = l.setOwn (update l.ofile fd none) l.cwd := by
  refine safe_step alive ?_
  rintro w g inv here _ s ⟨⟩
  subst here
  obtain ⟨slots, cwd, _⟩ := inv.mirror t
  refine ⟨_, ?_, Steady.refl, rfl⟩
  rw [← slots, ← cwd]
  exact inv.withOwn alive

theorem setCwd_safe (alive : l.life = .alive) :
    Safe (discipline mode) t (change fun s => s.setCwd t i) l fun _ l' => l' = l.setOwn l.ofile i := by
  refine safe_step alive ?_
  rintro w g inv here _ s ⟨⟩
  subst here
  obtain ⟨slots, _, _⟩ := inv.mirror t
  refine ⟨_, ?_, Steady.refl, rfl⟩
  rw [← slots]
  exact inv.withOwn alive

theorem argfd_safe (alive : l.life = .alive) :
    Safe (discipline mode) t (argfd t fd) l fun result l' => l' = l ∧
      ∀ slot f, result = some (slot, f) → l.ofile slot = some f := by
  refine safe_look alive fun w g inv here => ⟨rfl, fun slot f found => ?_⟩
  subst here
  rw [(inv.mirror t).1] at found
  split at found
  · obtain ⟨_, member, same⟩ := Option.map_eq_some_iff.mp found
    cases same
    exact member
  · cases found

end
end Xv6.Ownership
