import Mathlib.Data.Fintype.BigOperators
import Xv6.KernelSafety

/-! The reference counts balance: whenever no call is in progress, the counts of
the file table and of the inode cache are the numbers of descriptors, files and
working directories that refer to an entry, and a pipe is allocated as long as
one of its files is in use. -/
namespace Xv6.RefCounts
open CheckedC StepSystem LockProgram FileSystem SysFile Ownership Tally

/-- The descriptor slots, over all processes, that hold a file. -/
def slotCount (s : Fs) (f : FileId) : Nat :=
  (Finset.univ.filter fun slot : ProcId × Fin NOFILE => (s.proc slot.1).ofile slot.2 = some f).card

/-- The FD_INODE files on an inode that are in use. -/
def openCount (s : Fs) (i : Inum) : Nat :=
  (Finset.univ.filter fun f => (s.file f).kind = .inode i ∧ 0 < (s.file f).ref).card

/-- The processes that work in a directory. -/
def cwdCount (s : Fs) (i : Inum) : Nat :=
  (Finset.univ.filter fun p => (s.proc p).cwd = some i).card

/-- A file in use is the read or the write end of a pipe. -/
def IsEnd (s : Fs) (q : PipeId) (writable : Bool) (f : FileId) : Prop :=
  (s.file f).kind = .pipe q ∧ (s.file f).writable = writable ∧ 0 < (s.file f).ref

structure Balanced (s : Fs) : Prop where
  files : ∀ f, (s.file f).ref = slotCount s f
  inodes : ∀ i, s.ref i = openCount s i + cwdCount s i
  allocated : ∀ q, s.pipe q ≠ none ↔ ∃ writable f, IsEnd s q writable f
  ends : ∀ q p, s.pipe q = some p → (p.readopen = true ↔ ∃ f, IsEnd s q false f) ∧
    (p.writeopen = true ↔ ∃ f, IsEnd s q true f)
  unique : ∀ q writable f f', IsEnd s q writable f → IsEnd s q writable f' → f = f'

section
variable {s : Fs} {g : ProcId → Local}

theorem tally_indicator [Fintype ι] {P : α → Prop} [DecidablePred P] (cells : ι → α) :
    tally (fun a => if P a then 1 else 0) cells =
      ((Finset.univ.filter fun i => P (cells i)).card : Int) := by
  unfold tally
  rw [Finset.sum_boole]

theorem count_slots (ofile : Fin NOFILE → Option FileId) (f : FileId) :
    (slots ofile).count f = (Finset.univ.filter fun fd => ofile fd = some f).card := by
  have same : ∀ fd, (ofile fd == some f) = decide (ofile fd = some f) := fun fd => beq_eq_decide _ _
  rw [slots, Multiset.coe_count, List.count_filterMap, List.countP_eq_length_filter, Fin.univ_def]
  simp only [same]
  rfl

theorem slotCount_eq (s : Fs) (f : FileId) :
    (slotCount s f : Int) = tally (fun p : Proc => ((slots p.ofile).count f : Int)) s.proc := by
  unfold slotCount tally
  rw [Finset.card_filter, Fintype.sum_prod_type]
  push_cast
  refine Finset.sum_congr rfl fun p _ => ?_
  rw [count_slots, Finset.card_filter]
  push_cast
  rfl

theorem file_balance (mirror : ∀ t, Mirror (s.proc t) (g t)) (files : Files s.file g)
    (idle : ∀ t, Idle (g t)) (f : FileId) : (s.file f).ref = slotCount s f := by
  rw [slotCount_eq, files.count f]
  refine Finset.sum_congr rfl fun t _ => ?_
  simp only [shares, (idle t).share, (mirror t).1]

theorem in_use (files : Files s.file g) (typed : (s.file f).kind ≠ .none) : 0 < (s.file f).ref := by
  have nonneg : 0 ≤ (s.file f).ref := by
    rw [files.count f]
    exact tally_nonneg fun u => shares_nonneg f (g u)
  have used : (s.file f).ref ≠ 0 := fun zero => typed (files.empty f zero)
  omega

theorem inode_balance (mirror : ∀ t, Mirror (s.proc t) (g t)) (files : Files s.file g)
    (nodes : Nodes mode s g) (idle : ∀ t, Idle (g t)) (i : Inum) :
    s.ref i = openCount s i + cwdCount s i := by
  have opened : tally (onInode i) s.file = openCount s i := by
    have count := tally_indicator (P := fun f : File => f.kind = .inode i) s.file
    refine count.trans ?_
    have same : ∀ f, (s.file f).kind = .inode i ↔
        (s.file f).kind = .inode i ∧ 0 < (s.file f).ref :=
      fun f => ⟨fun kind => ⟨kind, in_use files (by simp [kind])⟩, And.left⟩
    simp only [openCount, ← same]
  have working : tally (refsTo i) g = cwdCount s i := by
    have count := tally_indicator (P := fun p : Proc => p.cwd = some i) s.proc
    refine Eq.trans (Finset.sum_congr rfl fun t _ => ?_) count
    simp only [refsTo, (idle t).refs, (mirror t).2.1]
    cases (g t).cwd with
    | none => rfl
    | some j =>
      by_cases here : j = i
      · simp [here]
      · simp [here, Ne.symm here]
  rw [nodes.count i, opened, working]
  omega

theorem end_count (pipes : Pipes s.file s.pipe g) (idle : ∀ t, Idle (g t)) (q : PipeId)
    (writable : Bool) : tally (pipeEnd q writable) s.file = isOpen (s.pipe q) writable := by
  have count := pipes.count q writable
  have none : tally (ownedEnd q writable) g = 0 := by
    refine tally_eq_zero fun t => ?_
    rw [ownedEnd, (idle t).ends]
    rfl
  omega

theorem pipeEnd_nonneg (q : PipeId) (writable : Bool) (f : File) : 0 ≤ pipeEnd q writable f := by
  unfold pipeEnd
  split <;> decide

theorem isEnd_iff (files : Files s.file g) :
    IsEnd s q writable f ↔ pipeEnd q writable (s.file f) = 1 := by
  unfold IsEnd pipeEnd
  constructor
  · rintro ⟨kind, same, _⟩
    rw [if_pos ⟨kind, same⟩]
  · intro one
    split at one
    · rename_i both
      exact ⟨both.1, both.2, in_use files (by simp [both.1])⟩
    · cases one

theorem open_iff (files : Files s.file g) (pipes : Pipes s.file s.pipe g) (idle : ∀ t, Idle (g t))
    (q : PipeId) (writable : Bool) :
    isOpen (s.pipe q) writable = 1 ↔ ∃ f, IsEnd s q writable f := by
  rw [← end_count pipes idle q writable]
  constructor
  · intro one
    by_contra absent
    have zero : tally (pipeEnd q writable) s.file = 0 := by
      refine tally_eq_zero fun f => ?_
      have other : ¬ pipeEnd q writable (s.file f) = 1 :=
        fun one => absent ⟨f, (isEnd_iff files).mpr one⟩
      unfold pipeEnd at other ⊢
      split at other
      · exact absurd rfl other
      · rename_i no
        rw [if_neg no]
    omega
  · rintro ⟨f, found⟩
    have one := (isEnd_iff files).mp found
    have least : pipeEnd q writable (s.file f) ≤ tally (pipeEnd q writable) s.file :=
      le_tally (fun f => pipeEnd_nonneg q writable (s.file f)) f
    have most : isOpen (s.pipe q) writable ≤ 1 := by
      unfold isOpen
      split
      · decide
      · split <;> decide
    rw [end_count pipes idle q writable] at least ⊢
    omega

theorem isOpen_some (p : Pipe) (writable : Bool) :
    isOpen (some p) writable = 1 ↔ endOpen p writable = true := by
  simp [isOpen]

theorem pipe_balance (files : Files s.file g) (pipes : Pipes s.file s.pipe g)
    (idle : ∀ t, Idle (g t)) (q : PipeId) :
    s.pipe q ≠ none ↔ ∃ writable f, IsEnd s q writable f := by
  constructor
  · intro allocated
    obtain ⟨p, found⟩ := Option.ne_none_iff_exists'.mp allocated
    rcases pipes.used q p found with read | write
    · exact ⟨false, (open_iff files pipes idle q false).mp
        (by rw [found, isOpen_some]; exact read)⟩
    · exact ⟨true, (open_iff files pipes idle q true).mp
        (by rw [found, isOpen_some]; exact write)⟩
  · rintro ⟨writable, used⟩ free
    have one := (open_iff files pipes idle q writable).mpr used
    rw [free] at one
    cases one

theorem unique_end (files : Files s.file g) (pipes : Pipes s.file s.pipe g)
    (idle : ∀ t, Idle (g t)) (first : IsEnd s q writable f) (second : IsEnd s q writable f') :
    f = f' := by
  by_contra apart
  have both : pipeEnd q writable (s.file f) + pipeEnd q writable (s.file f') ≤
      tally (pipeEnd q writable) s.file :=
    add_le_tally (fun f => pipeEnd_nonneg q writable (s.file f)) (Ne.symm apart)
  have one := (open_iff files pipes idle q writable).mpr ⟨f, first⟩
  rw [(isEnd_iff files).mp first, (isEnd_iff files).mp second, end_count pipes idle] at both
  omega

theorem balanced_of_inv (inv : Inv mode w g) (idle : ∀ t, Idle (g t)) : Balanced w.shared where
  files := file_balance inv.mirror inv.files idle
  inodes := inode_balance inv.mirror inv.files inv.nodes idle
  allocated := pipe_balance inv.files inv.pipes idle
  ends q p found := by
    have reading := open_iff inv.files inv.pipes idle q false
    have writing := open_iff inv.files inv.pipes idle q true
    rw [found, isOpen_some] at reading writing
    exact ⟨reading, writing⟩
  unique _ _ _ _ := unique_end inv.files inv.pipes idle

end

/-- Whatever calls were made and however they were interleaved, all counts balance
when none is in progress. -/
theorem counts_balance (run : kernel.system.Run (fun _ _ => True) c)
    (idle : ∀ t, c.status t = .idle) : Balanced c.world.shared := by
  obtain ⟨g, inv, safe⟩ := run_owned run
  refine balanced_of_inv inv fun t => ?_
  have owned := safe t
  rw [idle t] at owned
  exact owned

/-- A process opens a file twice, makes a pipe and forks; the child closes one end. -/
def sharing : List (ProcId × Call) :=
  [(0, .open (some ['a']) 2), (0, .dup 0), (0, .pipe (some 7)), (0, .fork true), (1, .close 2),
    (0, .close 2), (0, .chdir (some ['a'])), (1, .unlink (some ['a']))]

theorem counts_balance_sharing : ∃ w : FsWorld, (w.shared.file 0).ref = 4 ∧
    w.shared.ref 2 = 1 ∧ w.shared.pipe 7 = some ⟨false, true⟩ ∧ Balanced w.shared := by
  obtain ⟨w, run, four, one, pipe⟩ := System.exists_run (m := kernel.serial) (fun _ _ => True)
    (s := ⟨fun _ => none, boot [['a']]⟩)
    ⟨⟨[['a']], by decide, by decide, rfl⟩, fun _ => rfl⟩ sharing
    (fun w => (w.shared.file 0).ref = 4 ∧ w.shared.ref 2 = 1 ∧
      w.shared.pipe 7 = some ⟨false, true⟩) (by decide +kernel)
  exact ⟨w, four, one, pipe, counts_balance (run_serial run) fun _ => rfl⟩

end Xv6.RefCounts
