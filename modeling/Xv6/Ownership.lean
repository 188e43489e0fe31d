import Mathlib.Data.Multiset.AddSub
import Mathlib.Data.Multiset.Filter
import Mathlib.Data.Finset.Union
import Xv6.Tally
import Xv6.SysFile

/-! Who owns which reference. Every process has ghost state: the references,
locks and pipe ends it holds at the moment, and what it knows of the inodes they
protect. The counts of the kernel's tables are the sums of what is owned. Under
a condition on the steps, moreover, a directory is older than every directory an
entry of it other than the dots names. Each step of the model keeps this. -/
namespace Xv6.Ownership
open CheckedC LockProgram FileSystem SysFile Tally Function

/-! ## What a process owns -/

/-- References to inodes, with the types of those it has looked at. -/
@[ext] structure Refs where
  bag : Multiset Inum
  typed : Inum → Option FileType
  backed : ∀ i, typed i ≠ none → i ∈ bag

namespace Refs

def add (r : Refs) (i : Inum) : Refs where
  bag := i ::ₘ r.bag
  typed := r.typed
  backed j known := Multiset.mem_cons_of_mem (r.backed j known)

/-- With the last reference goes what was known. -/
def drop (r : Refs) (i : Inum) : Refs where
  bag := r.bag.erase i
  typed := if i ∈ r.bag.erase i then r.typed else update r.typed i none
  backed j known := by
    by_cases here : j = i
    · subst here
      by_cases more : j ∈ r.bag.erase j
      · exact more
      · simp [more] at known
    · rw [Multiset.mem_erase_of_ne here]
      apply r.backed
      split at known
      · exact known
      · rwa [update_of_ne here] at known

def know (r : Refs) (i : Inum) (type : FileType) : Refs where
  bag := r.bag
  typed := if i ∈ r.bag then update r.typed i (some type) else r.typed
  backed j known := by
    by_cases here : j = i
    · subst here
      by_cases member : j ∈ r.bag
      · exact member
      · simp only [member, if_false] at known
        exact r.backed j known
    · apply r.backed
      split at known
      · rwa [update_of_ne here] at known
      · exact known

def forget (r : Refs) (i : Inum) : Refs where
  bag := r.bag
  typed := update r.typed i none
  backed j known := by
    by_cases here : j = i
    · subst here
      simp at known
    · rw [update_of_ne here] at known
      exact r.backed j known

theorem add_drop (r : Refs) (i : Inum) : (r.add i).drop i = r := by
  ext j
  · simp [add, drop]
  · simp only [add, drop, Multiset.erase_cons_head]
    split
    · rfl
    · rename_i gone
      have unknown : r.typed i = none := by
        by_contra known
        exact gone (r.backed i known)
      rw [← unknown, update_eq_self]

theorem add_comm (r : Refs) (i j : Inum) : (r.add i).add j = (r.add j).add i := by
  ext k
  · simp only [add, Multiset.cons_swap]
  · rfl

theorem add_add_drop (r : Refs) (i j : Inum) : ((r.add i).add j).drop i = r.add j := by
  rw [add_comm, add_drop]

theorem typed_of_drop {r : Refs} (known : (r.drop i).typed j = some type) :
    r.typed j = some type := by
  simp only [drop] at known
  split at known
  · exact known
  · by_cases here : j = i
    · simp [here] at known
    · rwa [update_of_ne here] at known

theorem drop_unknown {r : Refs} (unknown : r.typed j = none) : (r.drop i).typed j = none := by
  by_contra known
  obtain ⟨type, found⟩ := Option.ne_none_iff_exists'.mp known
  rw [typed_of_drop found] at unknown
  cases unknown

theorem forget_drop {r : Refs} (last : i ∉ r.bag.erase i) : (r.forget i).drop i = r.drop i := by
  ext j
  · rfl
  · simp [forget, drop, last]

end Refs

@[ext] structure Base where
  ofile : Fin NOFILE → Option FileId
  cwd : Option Inum
  life : Life
  /-- the process `fork` is building, and how many of its slots are filled -/
  child : Option (ProcId × Nat)
  share : Multiset FileId
  /-- files taken from the table and not yet given a type -/
  blank : List FileId
  /-- pipe ends whose file has been closed -/
  ends : Multiset (PipeId × Bool)
  refs : Refs
  /-- the locks, with the type of the inode once it has been read -/
  held : Inum → Option (Option FileType)

structure Local extends Base where
  /-- a locked directory and an inode that is not an older directory -/
  older : Option (Inum × Inum)
  /-- a locked inode nobody else can be using -/
  sole : Option Inum
  /-- a file being written -/
  writing : Option (FileId × Inum)

namespace Local

def setRefs (l : Local) (r : Refs) : Local := { l with refs := r }

def ref (l : Local) (i : Inum) : Local := l.setRefs (l.refs.add i)

def unref (l : Local) (i : Inum) : Local := l.setRefs (l.refs.drop i)

def grip (l : Local) (r : Refs) (held : Inum → Option (Option FileType))
    (older : Option (Inum × Inum)) (sole : Option Inum) : Local :=
  { l with refs := r, held := held, older := older, sole := sole }

def hold (l : Local) (i : Inum) (type : Option FileType) : Local :=
  l.grip l.refs (update l.held i (some type)) l.older none

def unhold (l : Local) (i : Inum) : Local :=
  l.grip l.refs (update l.held i none) none none

theorem hold_hold (l : Local) (i : Inum) (first second : Option FileType) :
    (l.hold i first).hold i second = l.hold i second := by
  simp [hold, grip]

end Local

/-- The files in a table of descriptors. -/
def slots (ofile : Fin NOFILE → Option FileId) : Multiset FileId :=
  ((List.finRange NOFILE).filterMap ofile : List FileId)

/-- A process outside of any call owns what its descriptors and its working
directory refer to. -/
structure Idle (l : Local) : Prop where
  child : l.child = none
  share : l.share = slots l.ofile
  blank : l.blank = []
  ends : l.ends = 0
  refs : l.refs.bag = (l.cwd.toList : Multiset Inum)
  typed : ∀ i, l.cwd = some i → l.refs.typed i = some .dir
  held : ∀ i, l.held i = none

/-! ## The invariant -/

/-- What is assumed of the steps: that the locks are `ordered`, and that the inodes which
`ialloc` returns are `claimed` in time. -/
structure Mode where
  ordered : Prop
  claimed : Prop

def Mirror (p : Proc) (l : Local) : Prop := p.ofile = l.ofile ∧ p.cwd = l.cwd ∧ p.life = l.life

structure Forks (g : ProcId → Local) : Prop where
  idle : ∀ u, (g u).life ≠ .alive → Idle (g u)
  vacant : ∀ u, (g u).life = .unused ∨ (g u).life = .zombie →
    (∀ fd, (g u).ofile fd = none) ∧ (g u).cwd = none
  child : ∀ t c n, (g t).child = some (c, n) →
    (g c).life = .embryo ∧ (∀ fd : Fin NOFILE, n ≤ fd.val → (g c).ofile fd = none) ∧
      (n ≤ NOFILE → (g c).cwd = none)
  apart : ∀ t u c m n, (g t).child = some (c, m) → (g u).child = some (c, n) → t = u

/-- How many references to a file a process owns. -/
def shares (f : FileId) (l : Local) : Int := l.share.count f

structure Files (file : FileId → File) (g : ProcId → Local) : Prop where
  count : ∀ f, (file f).ref = tally (shares f) g
  empty : ∀ f, (file f).ref = 0 → (file f).kind = .none
  blank : ∀ t f, f ∈ (g t).blank →
    (file f).kind = .none ∧ (file f).ref = 1 ∧ f ∈ (g t).share
  writing : ∀ t f i, (g t).writing = some (f, i) →
    f ∈ (g t).share ∧ (file f).kind = .inode i ∧ (file f).writable = true

def pipeEnd (q : PipeId) (writable : Bool) (f : File) : Int :=
  if f.kind = .pipe q ∧ f.writable = writable then 1 else 0

def ownedEnd (q : PipeId) (writable : Bool) (l : Local) : Int := l.ends.count (q, writable)

/-- `writeopen` or `readopen` -/
def endOpen (p : Pipe) (writable : Bool) : Bool := if writable then p.writeopen else p.readopen

def isOpen (p : Option Pipe) (writable : Bool) : Int :=
  match p with
  | none => 0
  | some p => if endOpen p writable then 1 else 0

structure Pipes (file : FileId → File) (pipe : PipeId → Option Pipe) (g : ProcId → Local) : Prop where
  count : ∀ q b, tally (pipeEnd q b) file + tally (ownedEnd q b) g = isOpen (pipe q) b
  used : ∀ q p, pipe q = some p → p.readopen = true ∨ p.writeopen = true

def onInode (i : Inum) (f : File) : Int := if f.kind = .inode i then 1 else 0

def refsTo (i : Inum) (l : Local) : Int := l.refs.bag.count i

structure Nodes (mode : Mode) (s : Fs) (g : ProcId → Local) : Prop where
  count : ∀ i, s.ref i = tally (refsTo i) g + tally (onInode i) s.file
  typed : ∀ t i type, (g t).refs.typed i = some type → s.disk.type i = type ∧ type ≠ .free
  opened : ∀ f i, (s.file f).kind = .inode i →
    s.disk.type i ≠ .free ∧ (mode.ordered ∨ mode.claimed → (s.file f).writable = true → s.disk.type i ≠ .dir)
  valid : ∀ i, s.valid i = true → s.disk.type i ≠ .free

structure Locks (mode : Mode) (w : FsWorld) (g : ProcId → Local) : Prop where
  held : ∀ i t, w.locks i = some t ↔ (g t).held i ≠ none
  seen : ∀ t i type, (g t).held i = some (some type) →
    w.shared.disk.type i = type ∧ type ≠ .free
  older : ∀ t a c, (g t).older = some (a, c) → (g t).held a = some (some .dir) ∧
    (mode.ordered → w.shared.disk.type c = .dir → w.shared.disk.birth a < w.shared.disk.birth c)
  sole : ∀ t i, (g t).sole = some i → (g t).held i = some none ∧
    (∀ u, (g u).refs.typed i = none) ∧ ∀ f, (w.shared.file f).kind ≠ .inode i

/-- Entries other than the dots lead to younger directories. -/
structure Tree (mode : Mode) (d : Disk) : Prop where
  young : ∀ i, d.birth i < d.clock
  order : mode.ordered → ∀ a, d.type a = .dir → ∀ e ∈ d.entries a, e.inum ≠ 0 → Ordinary e.name →
    d.type e.inum = .dir → d.birth a < d.birth e.inum

structure Inv (mode : Mode) (w : FsWorld) (g : ProcId → Local) : Prop where
  mirror : ∀ t, Mirror (w.shared.proc t) (g t)
  forks : Forks g
  files : Files w.shared.file g
  pipes : Pipes w.shared.file w.shared.pipe g
  nodes : Nodes mode w.shared g
  locks : Locks mode w g
  tree : Tree mode w.shared.disk

/-- A directory, and an inode that is not an older directory. -/
def Below (s : Fs) (a c : Inum) : Prop :=
  s.disk.type a = .dir ∧ (s.disk.type c = .dir → s.disk.birth a < s.disk.birth c)

/-- `iput` waits for a lock only while all that its process holds are directories
with an ordinary entry for the inode, and no directory is opened for writing. -/
def Careful (w : FsWorld) (t : ProcId) : Note → Prop
  | .iput i => w.locks i ≠ none → ∀ j, w.locks j = some t → w.shared.disk.type j = .dir ∧
      ∃ e ∈ w.shared.disk.entries j, e.inum = i ∧ i ≠ 0 ∧ Ordinary e.name
  | .opened i writable => writable = true → w.shared.disk.type i ≠ .dir
  | _ => True

/-- When `ialloc` takes its reference, the inode is still what it made of it, and nobody has
locked it. -/
def Claims (w : FsWorld) (_ : ProcId) : Note → Prop
  | .claim i type => w.shared.disk.type i = type ∧ w.locks i = none
  | _ => True

def discipline (mode : Mode) : Discipline ProcId Inum Note Fs Local where
  Inv := Inv mode
  Idle := Idle
  Dead l := l.life ≠ .alive
  Below s a c := mode.ordered → Below s a c
  Cond w t note := (mode.ordered → Careful w t note) ∧ (mode.claimed → Claims w t note)

/-! ## Frames -/

section
variable {g g' : ProcId → Local} {w : FsWorld} {t : ProcId} {l l' : Local}

theorem forall_update {P : Local → Local → Prop} (refl : ∀ l, P l l) (here : P l' (g t)) :
    ∀ u, P (update g t l' u) (g u) := by
  intro u
  by_cases same : u = t
  · subst same
    rwa [update_self]
  · rw [update_of_ne same]
    exact refl _

theorem refs_update (same : l'.refs = (g t).refs) : ∀ u, (update g t l' u).refs = (g u).refs :=
  forall_update (P := fun l m => l.refs = m.refs) (fun _ => rfl) same

theorem Files.congr (files : Files file g) (same : ∀ u, (g' u).share = (g u).share ∧
    (g' u).blank = (g u).blank ∧ (g' u).writing = (g u).writing) : Files file g' where
  count f := by
    rw [files.count f]
    exact (tally_congr fun u => by simp only [shares, (same u).1]).symm
  empty := files.empty
  blank u f member := by
    rw [(same u).2.1] at member
    rw [(same u).1]
    exact files.blank u f member
  writing u f i known := by
    rw [(same u).2.2] at known
    rw [(same u).1]
    exact files.writing u f i known

theorem Files.set (files : Files file g) (same : l'.share = (g t).share ∧
    l'.blank = (g t).blank ∧ l'.writing = (g t).writing) : Files file (update g t l') :=
  files.congr (forall_update
    (P := fun l m => l.share = m.share ∧ l.blank = m.blank ∧ l.writing = m.writing)
    (fun _ => ⟨rfl, rfl, rfl⟩) same)

theorem ends_update (same : l'.ends = (g t).ends) : ∀ u, (update g t l' u).ends = (g u).ends :=
  forall_update (P := fun l m => l.ends = m.ends) (fun _ => rfl) same

theorem Pipes.congr (pipes : Pipes file pipe g) (same : ∀ u, (g' u).ends = (g u).ends) :
    Pipes file pipe g' where
  count q b := by
    have ends : tally (ownedEnd q b) g' = tally (ownedEnd q b) g :=
      tally_congr fun u => by simp only [ownedEnd, same u]
    rw [ends]
    exact pipes.count q b
  used := pipes.used

theorem Nodes.congr {s s' : Fs} (nodes : Nodes mode s g) (refs : ∀ u, (g' u).refs = (g u).refs)
    (ref : s'.ref = s.ref) (file : s'.file = s.file)
    (types : ∀ i, s'.disk.type i = s.disk.type i)
    (valid : ∀ i, s'.valid i = true → s.valid i = true ∨ s.disk.type i ≠ .free) : Nodes mode s' g' where
  count i := by
    have owned : tally (refsTo i) g' = tally (refsTo i) g :=
      tally_congr fun u => by simp only [refsTo, refs u]
    rw [owned, ref, file]
    exact nodes.count i
  typed u i type known := by
    rw [refs u] at known
    rw [types i]
    exact nodes.typed u i type known
  opened f i kind := by
    rw [file] at kind ⊢
    rw [types i]
    exact nodes.opened f i kind
  valid i set := by
    rw [types i]
    rcases valid i set with before | typed
    · exact nodes.valid i before
    · exact typed

section
variable {s : Fs} (locks : Locks mode w g) (types : ∀ i, s.disk.type i = w.shared.disk.type i)
  (birth : s.disk.birth = w.shared.disk.birth)
  (kinds : ∀ f i, (s.file f).kind = .inode i →
    (w.shared.file f).kind = .inode i ∨ ∃ u, (g u).refs.typed i ≠ none)
include locks types birth kinds

theorem Locks.congr (same : ∀ u, (g' u).held = (g u).held ∧
      (g' u).older = (g u).older ∧ (g' u).sole = (g u).sole)
    (known : ∀ u i, (g u).refs.typed i = none → (g' u).refs.typed i = none) :
    Locks mode { w with shared := s } g' where
  held i u := by
    rw [(same u).1]
    exact locks.held i u
  seen u i type found := by
    rw [(same u).1] at found
    rw [types i]
    exact locks.seen u i type found
  older u a c ordered := by
    rw [(same u).2.1] at ordered
    rw [(same u).1, types c, birth]
    exact locks.older u a c ordered
  sole u i alone := by
    rw [(same u).2.2] at alone
    obtain ⟨held, unknown, unopened⟩ := locks.sole u i alone
    rw [(same u).1]
    refine ⟨held, fun v => known v i (unknown v), fun f kind => ?_⟩
    rcases kinds f i kind with before | ⟨v, typed⟩
    · exact unopened f before
    · exact typed (unknown v)

theorem Locks.keep (same : l'.held = (g t).held ∧
      l'.older = (g t).older ∧ l'.sole = (g t).sole)
    (known : ∀ i, (g t).refs.typed i = none → l'.refs.typed i = none) :
    Locks mode { w with shared := s } (update g t l') :=
  locks.congr types birth kinds (forall_update
      (P := fun l m => l.held = m.held ∧ l.older = m.older ∧ l.sole = m.sole)
      (fun _ => ⟨rfl, rfl, rfl⟩) same)
    (forall_update (P := fun l m => ∀ i, m.refs.typed i = none → l.refs.typed i = none)
      (fun _ _ => id) known)

end

theorem Forks.set (forks : Forks g) (before : (g t).life = .alive) (alive : l'.life = .alive)
    (child : l'.child = (g t).child) : Forks (update g t l') := by
  have childSame : ∀ u, (update g t l' u).child = (g u).child :=
    forall_update (P := fun l m => l.child = m.child) (fun _ => rfl) child
  -- the process being built is not the one that steps
  have other : ∀ u, (g u).life ≠ .alive → update g t l' u = g u := by
    intro u dead
    rw [update_of_ne]
    rintro rfl
    exact dead before
  have dead : ∀ u, (update g t l' u).life ≠ .alive → (g u).life ≠ .alive := by
    intro u down
    by_cases here : u = t
    · subst here
      rw [update_self] at down
      exact absurd alive down
    · rwa [update_of_ne here] at down
  constructor
  · intro u down
    rw [other u (dead u down)]
    exact forks.idle u (dead u down)
  · intro u down
    have gone : (g u).life ≠ .alive := dead u (by rcases down with h | h <;> simp [h])
    rw [other u gone] at down ⊢
    exact forks.vacant u down
  · intro u c n building
    rw [childSame u] at building
    have fresh := forks.child u c n building
    rw [other c (by simp [fresh.1])]
    exact fresh
  · intro u v c m n first second
    rw [childSame] at first second
    exact forks.apart u v c m n first second

/-! ## Steps of one process -/

/-- The step leaves alone the order that another process may wait by. -/
def Steady (w : FsWorld) (t : ProcId) (d : Disk) : Prop :=
  ∀ j u, w.locks j = some u → u ≠ t → w.shared.disk.type j = .dir →
    d.type j = .dir ∧ d.birth j = w.shared.disk.birth j ∧
    ∀ i, d.type i = .dir → (w.shared.disk.type i = .dir ∧ d.birth i = w.shared.disk.birth i) ∨
      d.birth j < d.birth i

theorem Steady.below {mode : Mode} {s : Fs} (steady : Steady w t s.disk) : ∀ j u, w.locks j = some u → u ≠ t →
    ∀ i, (mode.ordered → Below w.shared j i) → mode.ordered → Below s j i := by
  intro j u held other i before strictly
  obtain ⟨directory, order⟩ := before strictly
  obtain ⟨still, born, rest⟩ := steady j u held other directory
  refine ⟨still, fun typed => ?_⟩
  rcases rest i typed with ⟨before, same⟩ | younger
  · rw [born, same]
    exact order before
  · exact younger

theorem Steady.refl : Steady w t w.shared.disk :=
  fun _ _ _ _ directory => ⟨directory, rfl, fun _ typed => .inl ⟨typed, rfl⟩⟩

theorem safe_careful {run : Fs → Checked (α × Fs)} (alive : l.life = .alive)
    (step : ∀ w g, Inv mode w g → g t = l → (discipline mode).Cond w t note →
      ∀ value s, run w.shared = .ok (value, s) →
      ∃ l', Inv mode { w with shared := s } (update g t l') ∧ Steady w t s.disk ∧
        Post value l') :
    Safe (discipline mode) t (.act note run) l Post := by
  refine ⟨fun dead => dead alive, fun w g inv here met value s ran => ?_⟩
  obtain ⟨l', kept, steady, post⟩ := step w g inv here met value s ran
  refine ⟨update g t l', kept, ?_, steady.below, ?_⟩
  · intro u other
    exact .inl (update_of_ne other _ _)
  · rw [update_self]
    exact post

theorem safe_step {run : Fs → Checked (α × Fs)} (alive : l.life = .alive)
    (step : ∀ w g, Inv mode w g → g t = l → ∀ value s, run w.shared = .ok (value, s) →
      ∃ l', Inv mode { w with shared := s } (update g t l') ∧ Steady w t s.disk ∧
        Post value l') :
    Safe (discipline mode) t (.act note run) l Post :=
  safe_careful alive fun w g inv here _ => step w g inv here

theorem Inv.same (inv : Inv mode w g) (here : g t = l) : Inv mode w (update g t l) := by
  rw [← here, update_eq_self]
  exact inv

theorem safe_look {f : Fs → α} (alive : l.life = .alive)
    (post : ∀ w g, Inv mode w g → g t = l → Post (f w.shared) l) :
    Safe (discipline mode) t (look f) l Post := by
  refine safe_step alive ?_
  rintro w g inv here value s ⟨⟩
  exact ⟨l, inv.same here, Steady.refl, post w g inv here⟩

theorem safe_panicIf (alive : l.life = .alive) (post : Post () l) :
    Safe (discipline mode) t (panicIf bad message) l Post := by
  refine safe_step alive ?_
  intro w g inv here value s ran
  split at ran
  · cases ran
  · cases ran
    exact ⟨l, inv.same here, Steady.refl, post⟩

theorem mirror_update {proc : ProcId → Proc} (mirror : ∀ u, Mirror (proc u) (g u))
    (own : l'.ofile = (g t).ofile ∧ l'.cwd = (g t).cwd ∧ l'.life = (g t).life) :
    ∀ u, Mirror (proc u) (update g t l' u) := by
  intro u
  have same : (update g t l' u).ofile = (g u).ofile ∧
      (update g t l' u).cwd = (g u).cwd ∧ (update g t l' u).life = (g u).life :=
    forall_update (P := fun l m => l.ofile = m.ofile ∧ l.cwd = m.cwd ∧ l.life = m.life)
      (fun _ => ⟨rfl, rfl, rfl⟩) own u
  unfold Mirror
  rw [same.1, same.2.1, same.2.2]
  exact mirror u

end
end Xv6.Ownership
