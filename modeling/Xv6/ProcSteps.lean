import Xv6.FileSteps

/-! The steps of `fork`, `exit` and `wait` on the process table keep the
invariant. A process under construction cannot run, so its parent may write its
ghost state. -/
namespace Xv6.Ownership
open CheckedC LockProgram FileSystem SysFile Tally Function

section
variable {g g' : ProcId → Local} {w : FsWorld} {t c : ProcId} {l l' : Local}

theorem safe_shared {run : Fs → Checked (α × Fs)} (alive : l.life = .alive)
    (step : ∀ w g, Inv mode w g → g t = l → ∀ value s, run w.shared = .ok (value, s) →
      ∃ g', Inv mode { w with shared := s } g' ∧
        (∀ u, u ≠ t → g' u = g u ∨ ((g u).life ≠ .alive ∧ Idle (g' u))) ∧
        s.disk = w.shared.disk ∧ Post value (g' t)) :
    Safe (discipline mode) t (.act note run) l Post := by
  refine ⟨fun dead => dead alive, fun w g inv here _ value s ran => ?_⟩
  obtain ⟨g', kept, others, disk, post⟩ := step w g inv here value s ran
  refine ⟨g', kept, others, Steady.below ?_, post⟩
  rw [disk]
  exact Steady.refl

/-- Equal but for descriptors, working directory, life and child. -/
def SameOwned (l m : Local) : Prop :=
  l.share = m.share ∧ l.blank = m.blank ∧ l.writing = m.writing ∧ l.ends = m.ends ∧
    l.refs = m.refs ∧ l.held = m.held ∧ l.older = m.older ∧ l.sole = m.sole

theorem SameOwned.refl (l : Local) : SameOwned l l := ⟨rfl, rfl, rfl, rfl, rfl, rfl, rfl, rfl⟩

theorem inv_of_same {s : Fs} (same : ∀ u, SameOwned (g' u) (g u))
    (mirror : ∀ u, Mirror (s.proc u) (g' u)) (forks : Forks g') (files : Files s.file g)
    (pipes : Pipes s.file s.pipe g) (nodes : Nodes mode s g)
    (locks : Locks mode { w with shared := s } g) (tree : Tree mode s.disk) :
    Inv mode { w with shared := s } g' where
  mirror := mirror
  forks := forks
  files := files.congr fun u => ⟨(same u).1, (same u).2.1, (same u).2.2.1⟩
  pipes := pipes.congr fun u => (same u).2.2.2.1
  nodes := nodes.congr (fun u => (same u).2.2.2.2.1) rfl rfl (fun _ => rfl) fun _ set => .inl set
  locks := locks.congr (fun _ => rfl) rfl (fun _ _ => .inl) (fun u => (same u).2.2.2.2.2)
    fun u i unknown => by rwa [(same u).2.2.2.2.1]
  tree := tree

theorem Inv.withProcs (inv : Inv mode w g) (same : ∀ u, SameOwned (g' u) (g u))
    (mirror : ∀ u, Mirror (proc u) (g' u)) (forks : Forks g') :
    Inv mode { w with shared := { w.shared with proc := proc } } g' :=
  inv_of_same same mirror forks inv.files inv.pipes
    ⟨inv.nodes.count, inv.nodes.typed, inv.nodes.opened, inv.nodes.valid⟩
    ⟨inv.locks.held, inv.locks.seen, inv.locks.older, inv.locks.sole⟩ inv.tree

namespace Local

def setLife (l : Local) (life : Life) : Local := { l with life := life }

def setChild (l : Local) (child : Option (ProcId × Nat)) : Local := { l with child := child }

end Local

/-- One process changes its child, and the ghost state of another, which cannot run,
is replaced. -/
def build (g : ProcId → Local) (t c : ProcId) (child : Option (ProcId × Nat)) (m : Local) :
    ProcId → Local :=
  update (update g t ((g t).setChild child)) c m

section
variable {child : Option (ProcId × Nat)} {m : Local}

theorem build_self (other : c ≠ t) : build g t c child m t = (g t).setChild child := by
  simp [build, Ne.symm other]

theorem build_other (first : u ≠ t) (second : u ≠ c) : build g t c child m u = g u := by
  simp [build, first, second]

theorem forall_build {P : ProcId → Local → Prop} (made : P c m)
    (own : P t ((g t).setChild child)) (rest : ∀ u, u ≠ t → u ≠ c → P u (g u)) (u : ProcId) :
    P u (build g t c child m u) := by
  by_cases here : u = c
  · subst here
    rw [build, update_self]
    exact made
  · by_cases self : u = t
    · subst self
      rw [build, update_of_ne here, update_self]
      exact own
    · rw [build_other self here]
      exact rest u self here

theorem build_same (other : c ≠ t) (made : SameOwned m (g' c))
    (rest : ∀ u, u ≠ c → g' u = g u) : ∀ u, SameOwned (build g t c child m u) (g' u) := by
  refine forall_build (P := fun u l => SameOwned l (g' u)) made ?_ fun u _ apart => ?_
  · rw [rest t other.symm]
    exact SameOwned.refl (g t)
  · rw [rest u apart]
    exact SameOwned.refl (g u)

theorem build_mirror {proc : ProcId → Proc} (mirror : ∀ u, Mirror (w.shared.proc u) (g u))
    (other : c ≠ t) (procs : ∀ u, u ≠ c → proc u = w.shared.proc u) (made : Mirror (proc c) m) :
    ∀ u, Mirror (proc u) (build g t c child m u) := by
  refine forall_build (P := fun u l => Mirror (proc u) l) made ?_ fun u _ apart => ?_
  · rw [procs t other.symm]
    exact mirror t
  · rw [procs u apart]
    exact mirror u

theorem build_forks (forks : Forks g) (alive : (g t).life = .alive) (idle : Idle m)
    (vacant : m.life = .unused ∨ m.life = .zombie → (∀ fd, m.ofile fd = none) ∧ m.cwd = none)
    (mine : ∀ c' n, child = some (c', n) → c' = c ∧ m.life = .embryo ∧
      (∀ fd : Fin NOFILE, n ≤ fd.val → m.ofile fd = none) ∧ (n ≤ NOFILE → m.cwd = none))
    (others : ∀ u n, u ≠ t → (g u).child ≠ some (c, n)) : Forks (build g t c child m) := by
  have parent : ∀ c' n u, (build g t c child m u).child = some (c', n) →
      u = t ∧ child = some (c', n) ∨ u ≠ t ∧ (g u).child = some (c', n) ∧ c' ≠ c := by
    intro c' n
    refine forall_build (P := fun u l => l.child = some (c', n) → u = t ∧ child = some (c', n) ∨
      u ≠ t ∧ (g u).child = some (c', n) ∧ c' ≠ c) ?_ (fun building => .inl ⟨rfl, building⟩)
      fun u self _ building => .inr ⟨self, building, ?_⟩
    · intro building
      rw [idle.child] at building
      cases building
    · rintro rfl
      exact others u n self building
  constructor
  · exact forall_build (P := fun _ l => l.life ≠ .alive → Idle l) (fun _ => idle)
      (fun down => absurd alive down) fun u _ _ => forks.idle u
  · refine forall_build (P := fun _ l => l.life = .unused ∨ l.life = .zombie →
      (∀ fd, l.ofile fd = none) ∧ l.cwd = none) vacant (fun down => ?_) fun u _ _ => forks.vacant u
    simp [Local.setChild, alive] at down
  · intro u c' n building
    rcases parent c' n u building with ⟨rfl, here⟩ | ⟨_, before, apart⟩
    · obtain ⟨rfl, embryo, slots, cwd⟩ := mine c' n here
      rw [build, update_self]
      exact ⟨embryo, slots, cwd⟩
    · have fresh := forks.child u c' n before
      have notSelf : c' ≠ t := by
        rintro rfl
        rw [alive] at fresh
        cases fresh.1
      rw [build_other notSelf apart]
      exact fresh
  · intro u v c' j k first second
    rcases parent c' j u first with ⟨rfl, here⟩ | ⟨_, first, apart⟩
    · rcases parent c' k v second with ⟨rfl, _⟩ | ⟨_, _, apart⟩
      · rfl
      · exact absurd (mine c' j here).1 apart
    · rcases parent c' k v second with ⟨rfl, here⟩ | ⟨_, second, _⟩
      · exact absurd (mine c' k here).1 apart
      · exact forks.apart u v c' j k first second

theorem build_others (idle : Idle m) (dead : (g c).life ≠ .alive) :
    ∀ u, u ≠ t → build g t c child m u = g u ∨
      ((g u).life ≠ .alive ∧ Idle (build g t c child m u)) :=
  forall_build (P := fun u l => u ≠ t → l = g u ∨ ((g u).life ≠ .alive ∧ Idle l))
    (fun _ => .inr ⟨dead, idle⟩) (fun other => absurd rfl other) fun _ _ _ _ => .inl rfl

end

theorem Forks.still (forks : Forks g) (alive : (g t).life = .alive) (dead : (g c).life ≠ .alive) :
    c ≠ t ∧ Idle (g c) := by
  refine ⟨?_, forks.idle c dead⟩
  rintro rfl
  exact dead alive

theorem Forks.building (forks : Forks g) (alive : (g t).life = .alive)
    (building : (g t).child = some (c, n)) : (g c).life ≠ .alive ∧ c ≠ t ∧ Idle (g c) ∧
      ∀ u m, u ≠ t → (g u).child ≠ some (c, m) := by
  have dead : (g c).life ≠ .alive := by simp [(forks.child t c n building).1]
  exact ⟨dead, (forks.still alive dead).1, (forks.still alive dead).2,
    fun u m apart theirs => apart (forks.apart u t c m n theirs building)⟩

theorem Idle.setLife (idle : Idle l) : Idle (l.setLife life) :=
  ⟨idle.child, idle.share, idle.blank, idle.ends, idle.refs, idle.typed, idle.held⟩

/-- One process changes its life, another its child. -/
def relive (g : ProcId → Local) (t c : ProcId) (child : Option (ProcId × Nat)) (life : Life) :
    ProcId → Local :=
  update (update g t ((g t).setChild child)) c ((g c).setLife life)

theorem Inv.relives (inv : Inv mode w g) (other : c ≠ t) (forks : Forks (relive g t c child life)) :
    Inv mode { w with shared := w.shared.setLife c life } (relive g t c child life) := by
  refine inv.withProcs (build_same other (SameOwned.refl (g c)) fun _ _ => rfl)
    (build_mirror inv.mirror other (fun u apart => update_of_ne apart _ _) ?_) forks
  rw [update_self]
  exact ⟨(inv.mirror c).1, (inv.mirror c).2.1, rfl⟩

theorem allocproc_safe (alive : l.life = .alive) :
    Safe (discipline mode) t allocproc l fun result l' =>
      match result with
      | none => l' = l
      | some c => c ≠ t ∧ l' = l.setChild (some (c, 0)) := by
  refine safe_shared alive ?_
  intro w g inv here result s ran
  subst here
  cases looked : (List.finRange NPROC).find? fun p =>
      decide ((w.shared.proc p).life = .unused) with
  | none =>
    rw [looked] at ran
    cases ran
    exact ⟨g, inv, fun _ _ => .inl rfl, rfl, rfl⟩
  | some c =>
    rw [looked] at ran
    cases ran
    have unused : (g c).life = .unused := by
      rw [← (inv.mirror c).2.2]
      simpa using List.find?_some looked
    have dead : (g c).life ≠ .alive := by simp [unused]
    obtain ⟨other, idle⟩ := inv.forks.still alive dead
    have empty := inv.forks.vacant c (.inl unused)
    refine ⟨relive g t c (some (c, 0)) .embryo, inv.relives other
      (build_forks inv.forks alive idle.setLife (fun _ => empty) ?_ ?_),
      build_others idle.setLife dead, rfl, other, build_self other⟩
    · rintro c' n ⟨⟩
      exact ⟨rfl, rfl, fun fd _ => empty.1 fd, fun _ => empty.2⟩
    · intro u n _ building
      have embryo := (inv.forks.child u c n building).1
      rw [unused] at embryo
      cases embryo

theorem dropChild_safe (alive : l.life = .alive) (building : l.child = some (c, 0)) :
    Safe (discipline mode) t (change fun s => s.setLife c .unused) l fun _ l' => l' = l.setChild none := by
  refine safe_shared alive ?_
  rintro w g inv here _ s ⟨⟩
  subst here
  obtain ⟨embryo, slots, cwd⟩ := inv.forks.child t c 0 building
  obtain ⟨dead, other, idle, apart⟩ := inv.forks.building alive building
  exact ⟨relive g t c none .unused, inv.relives other (build_forks inv.forks alive idle.setLife
      (fun _ => ⟨fun fd => slots fd (Nat.zero_le _), cwd (Nat.zero_le _)⟩) nofun apart),
    build_others idle.setLife dead, rfl, build_self other⟩

theorem readyChild_safe (alive : l.life = .alive) (building : l.child = some (c, n)) :
    Safe (discipline mode) t (change fun s => s.setLife c .alive) l fun _ l' => l' = l.setChild none := by
  refine safe_shared alive ?_
  rintro w g inv here _ s ⟨⟩
  subst here
  obtain ⟨dead, other, idle, apart⟩ := inv.forks.building alive building
  exact ⟨relive g t c none .alive, inv.relives other (build_forks inv.forks alive idle.setLife
      (by simp [Local.setLife]) nofun apart),
    build_others idle.setLife dead, rfl, build_self other⟩

theorem setParent_safe (alive : l.life = .alive) :
    Safe (discipline mode) t (change fun s => s.setProc c { s.proc c with parent := parent }) l
      fun _ l' => l' = l := by
  refine safe_shared alive ?_
  rintro w g inv here _ s ⟨⟩
  refine ⟨g, inv.withProcs (fun u => SameOwned.refl (g u)) ?_ inv.forks, fun _ _ => .inl rfl,
    rfl, here⟩
  intro u
  by_cases this : u = c
  · subst this
    simp only [update_self]
    exact inv.mirror u
  · simp only [update_of_ne this]
    exact inv.mirror u

theorem sysWait_safe (alive : l.life = .alive) (childless : l.child = none) :
    Safe (discipline mode) t (sysWait t killed) l fun _ l' => l' = l := by
  refine safe_shared alive ?_
  intro w g inv here value s ran
  subst here
  simp only at ran
  split at ran
  · rename_i c looked
    cases ran
    have zombie : (g c).life = .zombie := by
      rw [← (inv.mirror c).2.2]
      simpa using List.find?_some looked
    have dead : (g c).life ≠ .alive := by simp [zombie]
    obtain ⟨other, idle⟩ := inv.forks.still alive dead
    refine ⟨relive g t c none .unused, inv.withProcs
      (build_same other (SameOwned.refl (g c)) fun _ _ => rfl)
      (build_mirror inv.mirror other (fun u apart => update_of_ne apart _ _) ?_)
      (build_forks inv.forks alive idle.setLife (fun _ => inv.forks.vacant c (.inr zombie)) nofun ?_),
      build_others idle.setLife dead, rfl, ?_⟩
    · rw [update_self]
      exact ⟨(inv.mirror c).1, (inv.mirror c).2.1, rfl⟩
    · intro u n _ building
      have embryo := (inv.forks.child u c n building).1
      rw [zombie] at embryo
      cases embryo
    · refine (build_self other).trans ?_
      rw [← childless]
      rfl
  · split at ran
    · cases ran
      exact ⟨g, inv, fun _ _ => .inl rfl, rfl, rfl⟩
    · cases ran

/-- A process fills in the slots of the child it is building. -/
def hand (g : ProcId → Local) (t c : ProcId) (n : Nat) (child : Local) : ProcId → Local :=
  update (update g t ((g t).setChild (some (c, n)))) c child

theorem Inv.handed {s : Fs} (inv : Inv mode w g) (alive : (g t).life = .alive)
    (building : (g t).child = some (c, n)) (idle : Idle m) (embryo : m.life = .embryo)
    (slots : ∀ fd : Fin NOFILE, n' ≤ fd.val → m.ofile fd = none)
    (cwd : n' ≤ NOFILE → m.cwd = none) (mine : Mirror (s.proc c) m)
    (procs : ∀ u, u ≠ c → s.proc u = w.shared.proc u)
    (files : Files s.file (update g c m))
    (pipes : Pipes s.file s.pipe (update g c m))
    (nodes : Nodes mode s (update g c m))
    (locks : Locks mode { w with shared := s } (update g c m)) (tree : Tree mode s.disk) :
    Inv mode { w with shared := s } (hand g t c n' m) := by
  obtain ⟨dead, other, _, apart⟩ := inv.forks.building alive building
  refine inv_of_same (build_same other (by rw [update_self]; exact SameOwned.refl m) fun u apart =>
    update_of_ne apart _ _) (build_mirror inv.mirror other procs mine)
    (build_forks inv.forks alive idle (by simp [embryo]) ?_ apart) files pipes nodes locks tree
  rintro c' k ⟨⟩
  exact ⟨rfl, embryo, slots, cwd⟩

theorem forkSlot_safe (alive : l.life = .alive) (building : l.child = some (c, fd.val))
    (blank : l.blank = []) (owned : ∀ f, l.ofile fd = some f → f ∈ l.share) :
    Safe (discipline mode) t (forkSlot t c fd) l fun _ l' =>
      l' = l.setChild (some (c, fd.val + 1)) := by
  refine safe_shared alive ?_
  intro w g inv here _ s ran
  subst here
  obtain ⟨embryo, empty, noCwd⟩ := inv.forks.child t c fd.val building
  obtain ⟨dead, other, idle, _⟩ := inv.forks.building alive building
  have later : ∀ fd' : Fin NOFILE, fd.val + 1 ≤ fd'.val → fd' ≠ fd := by
    omega
  rw [(inv.mirror t).1] at ran
  cases slot : (g t).ofile fd with
  | none =>
    rw [slot] at ran
    cases ran
    have same : update g c (g c) = g := update_eq_self _ _
    refine ⟨hand g t c (fd.val + 1) (g c), inv.handed alive building idle embryo
      (fun fd' above => empty fd' (by omega)) (fun _ => noCwd (by omega)) (inv.mirror c)
      (fun _ _ => rfl) ?_ ?_ ?_ ?_ inv.tree, build_others idle dead, rfl, build_self other⟩
    · rw [same]
      exact inv.files
    · rw [same]
      exact inv.pipes
    · rw [same]
      exact inv.nodes
    · rw [same]
      exact inv.locks
  | some f =>
    rw [slot] at ran
    simp only at ran
    split at ran
    · cases ran
    · cases ran
      have member := owned f slot
      have vacant := empty fd (le_refl _)
      let m : Local := ((g c).keep (f ::ₘ (g c).share) (g c).blank (g c).ends (g c).refs none).setOwn
        (update (g c).ofile fd (some f)) (g c).cwd
      have filled : Idle m := ⟨idle.child,
        by
          change f ::ₘ (g c).share = slots (update (g c).ofile fd (some f))
          rw [slots_fill vacant, idle.share],
        idle.blank, idle.ends, idle.refs, idle.typed, idle.held⟩
      have kinds : ∀ f', (update w.shared.file f
          { w.shared.file f with ref := (w.shared.file f).ref + 1 } f').kind =
            (w.shared.file f').kind ∧ (update w.shared.file f
          { w.shared.file f with ref := (w.shared.file f).ref + 1 } f').writable =
            (w.shared.file f').writable := update_kinds rfl rfl
      have refs : ∀ u, (update g c m u).refs = (g u).refs := refs_update rfl
      refine ⟨hand g t c (fd.val + 1) m, inv.handed alive building filled embryo ?_
        (fun _ => noCwd (by omega)) ?_ ?_ (inv.files.write _ ?_ ?_ ?_ ?_ rfl ?_ ?_)
        (inv.pipes.recount kinds (ends_update rfl))
        (inv.nodes.recount kinds refs rfl rfl rfl)
        (inv.locks.keep (fun _ => rfl) rfl ?_ ⟨rfl, rfl, rfl⟩ fun _ => id) inv.tree,
        build_others filled dead, rfl, build_self other⟩
      · intro fd' above
        change update (g c).ofile fd (some f) fd' = none
        rw [update_of_ne (later fd' above)]
        exact empty fd' (by omega)
      · simp only [Fs.setSlot, Fs.setProc, update_self]
        refine ⟨?_, (inv.mirror c).2.1, (inv.mirror c).2.2⟩
        rw [show (w.shared.setFile f _).proc c = w.shared.proc c from rfl, (inv.mirror c).1]
        rfl
      · intro u apart
        simp [Fs.setSlot, Fs.setProc, Fs.setFile, apart]
      · change _ = _ - _ + shares f ((g c).keep (f ::ₘ (g c).share) (g c).blank (g c).ends
          (g c).refs none)
        rw [shares_cons, if_pos rfl]
        ring
      · intro f' apart
        change shares f' ((g c).keep (f ::ₘ (g c).share) (g c).blank (g c).ends
          (g c).refs none) = _
        rw [shares_cons, if_neg apart]
        ring
      · intro zero
        simp only at zero
        omega
      · intro f' blanked
        rw [show m.blank = [] from idle.blank] at blanked
        cases blanked
      · intro u apart blanked
        have self := inv.files.blank_sole blanked member
        subst self
        rw [blank] at blanked
        cases blanked
      · intro u i _ known
        exact (inv.files.writing u f i known).2
      · intro f' i kind
        exact .inl ((kinds f').1.symm.trans kind)

theorem forkCwd_safe (alive : l.life = .alive) (building : l.child = some (c, NOFILE))
    (typed : ∀ i, l.cwd = some i → l.refs.typed i = some .dir) :
    Safe (discipline mode) t (forkCwd t c) l fun _ l' => l' = l.setChild (some (c, NOFILE + 1)) := by
  refine safe_shared alive ?_
  intro w g inv here _ s ran
  subst here
  obtain ⟨embryo, _, noCwd⟩ := inv.forks.child t c NOFILE building
  obtain ⟨dead, other, idle, _⟩ := inv.forks.building alive building
  rw [(inv.mirror t).2.1] at ran
  cases cwd : (g t).cwd with
  | none =>
    rw [cwd] at ran
    cases ran
  | some i =>
    rw [cwd] at ran
    cases ran
    have known := typed i cwd
    have directory := inv.nodes.typed t i .dir known
    have bag : (g c).refs.bag = 0 := by
      rw [idle.refs, noCwd (le_refl _)]
      rfl
    let m : Local := ((g c).setRefs (((g c).refs.add i).know i .dir)).setOwn (g c).ofile (some i)
    have learned : m.refs.typed = update (g c).refs.typed i (some .dir) :=
      if_pos (Multiset.mem_cons_self i _)
    have filled : Idle m := ⟨idle.child, idle.share, idle.blank, idle.ends,
      by
        change i ::ₘ (g c).refs.bag = _
        rw [bag]
        rfl,
      by
        rintro j ⟨⟩
        rw [learned, update_self],
      idle.held⟩
    refine ⟨hand g t c (NOFILE + 1) m, inv.handed alive building filled embryo ?_ ?_ ?_ ?_
      (inv.files.set ⟨rfl, rfl, rfl⟩)
      (inv.pipes.congr (ends_update rfl))
      (inv.nodes.shift ?_ ?_ rfl rfl fun _ set => set)
      (inv.locks.set ⟨(inv.locks.held · c), fun _ _ _ => Iff.rfl, inv.locks.seen c,
        inv.locks.older c, ?_⟩ (fun u j type _ found => (inv.locks.seen u j type found).1)
        (fun u a b _ ordered => (inv.locks.older u a b ordered).2) ?_)
      inv.tree, build_others filled dead, rfl, build_self other⟩
    · intro fd above
      omega
    · omega
    · simp only [Fs.setCwd, Fs.setProc, update_self]
      exact ⟨(inv.mirror c).1, rfl, (inv.mirror c).2.2⟩
    · intro u apart
      simp [Fs.setCwd, Fs.setProc, Fs.addRef, apart]
    · intro j
      change (w.shared.addRef i 1).ref j = _ - _ + refsTo j ((g c).ref i)
      rw [ref_addRef, refsTo_ref]
      ring
    · intro j type now
      rw [learned] at now
      by_cases here : j = i
      · subst here
        rw [update_self] at now
        cases now
        exact .inr directory
      · rw [update_of_ne here] at now
        exact .inl now
    · intro j alone
      obtain ⟨held, _⟩ := inv.locks.sole c j alone
      rw [idle.held j] at held
      cases held
    · intro u j _ alone
      obtain ⟨_, unknown, unopened⟩ := inv.locks.sole u j alone
      refine ⟨?_, unopened⟩
      have apart : j ≠ i := by
        rintro rfl
        rw [unknown t] at known
        cases known
      rw [learned, update_of_ne apart]
      exact unknown c

theorem bury_safe (alive : l.life = .alive) (idle : Idle l) (slots : ∀ fd, l.ofile fd = none)
    (cwd : l.cwd = none) :
    Safe (discipline mode) t (change fun s => Fs.bury s t) l fun _ l' => l' = l.setLife .zombie := by
  refine safe_shared alive ?_
  rintro w g inv here _ s ⟨⟩
  subst here
  have children : ∀ u, (update g t ((g t).setLife .zombie) u).child = (g u).child :=
    forall_update (P := fun l m => l.child = m.child) (fun _ => rfl) rfl
  have rest : ∀ u, u ≠ t → update g t ((g t).setLife .zombie) u = g u :=
    fun u other => update_of_ne other _ _
  refine ⟨update g t ((g t).setLife .zombie), inv.withProcs (forall_update SameOwned.refl
    (SameOwned.refl (g t))) ?_ ⟨?_, ?_, ?_, ?_⟩, fun u other => .inl (rest u other), rfl,
    update_self _ _ _⟩
  · intro u
    obtain ⟨ofile, dir, life⟩ := inv.mirror u
    by_cases here : u = t
    · subst here
      simp only [update_self]
      split <;> exact ⟨ofile, dir, rfl⟩
    · simp only [update_of_ne here]
      split <;> exact ⟨ofile, dir, life⟩
  · intro u down
    by_cases here : u = t
    · subst here
      rw [update_self]
      exact idle.setLife
    · rw [rest u here] at down ⊢
      exact inv.forks.idle u down
  · intro u down
    by_cases here : u = t
    · subst here
      rw [update_self]
      exact ⟨slots, cwd⟩
    · rw [rest u here] at down ⊢
      exact inv.forks.vacant u down
  · intro u c n building
    rw [children u] at building
    have fresh := inv.forks.child u c n building
    have other : c ≠ t := by
      rintro rfl
      rw [alive] at fresh
      cases fresh.1
    rw [rest c other]
    exact fresh
  · intro u v c m n first second
    rw [children] at first second
    exact inv.forks.apart u v c m n first second

end
end Xv6.Ownership
