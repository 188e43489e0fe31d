import Xv6.KernelSafety

/-! Deadlock on the locks of inodes. Calls lock a directory before what they find
in it, so their locks follow the tree, except where `iput` takes a lock: `link` to
the name "." makes `dirlink` call `iput` on the directory it holds. As long as no
`iput` meets a lock against the order, no processes wait for each other. -/
namespace Xv6.InodeLocks
open CheckedC StepSystem LockProgram FileSystem SysFile Ownership

instance (w : FsWorld) (t : ProcId) (note : Note) : Decidable (Careful w t note) := by
  unfold Careful
  split <;> infer_instance

theorem below_irrefl (s : Fs) (i : Inum) : ¬ Below s i i :=
  fun below => lt_irrefl _ (below.2 below.1)

theorem below_rises {s : Fs} (first : Below s j i) (second : Below s i k) :
    s.disk.birth j < s.disk.birth i :=
  first.2 second.1

theorem run_careful (run : kernel.system.Run (Meets Careful) c) :
    (∃ g, Disciplined (discipline ⟨True, False⟩) c g) ∧ Ordered (discipline ⟨True, False⟩) c := by
  refine run_ordered (kernel_follows ⟨True, False⟩) (run.mono fun c e met => ?_)
  cases e with
  | call t call => trivial
  | step t => exact fun note next => ⟨fun _ => met note next, False.elim⟩

theorem not_own_lock (owned : Disciplined (discipline ⟨True, False⟩) c g)
    (next : c.status t = .running (.acquire note i rest)) (met : Careful c.world t note) :
    c.world.locks i ≠ some t := by
  intro mine
  have safe := owned.2 t
  rw [next] at safe
  have below := safe.2.1 c.world g owned.1 rfl ⟨fun _ => met, False.elim⟩ (by simp [mine]) i mine
  exact below_irrefl c.world.shared i (below trivial)

/-- In every interleaving in which each `iput` finds its lock free, or holds only
directories with an ordinary entry for the inode, nobody waits in a circle and
nobody asks for a lock of its own. -/
theorem no_deadlock (run : kernel.system.Run (Meets Careful) c) :
    (∀ t, ¬ Relation.TransGen (Waits c) t t) ∧
    ∀ t note i rest, c.status t = .running (.acquire note i rest) → Careful c.world t note →
      c.world.locks i ≠ some t := by
  obtain ⟨⟨g, owned⟩, order⟩ := run_careful run
  refine ⟨fun t => order.no_cycle c.world.shared.disk.birth ?_, fun t note i rest next met => ?_⟩
  · intro j i k first second
    exact below_rises (first trivial) (second trivial)
  · exact not_own_lock owned next met

def sleepsOn (c : Config ProcId Inum Note Fs) (t u : ProcId) : Bool :=
  match c.status t with
  | .waiting i _ => decide (c.world.locks i = some u)
  | _ => false

theorem waits_of_sleepsOn (sleeps : sleepsOn c t u = true) : Waits c t u := by
  unfold sleepsOn at sleeps
  split at sleeps
  · rename_i i next asleep
    exact ⟨i, next, asleep, of_decide_eq_true sleeps⟩
  · cases sleeps

/-- The kernel before its first call, on an image with one file. -/
def start : Config ProcId Inum Note Fs := quiet ⟨fun _ => none, boot [['a']]⟩

theorem start_init : kernel.system.Init start :=
  ⟨⟨[['a']], by decide, by decide, rfl⟩, fun _ => rfl, fun _ => rfl⟩

/-- A process looks up a name while another one holds the root directory. -/
def contention : List (Event ProcId Call) :=
  .call 0 (.fork true) :: List.replicate 21 (.step 0) ++
    .call 0 (.open (some ['a']) 0) :: List.replicate 4 (.step 0) ++
    .call 1 (.open (some ['a']) 0) :: List.replicate 3 (.step 1)

theorem no_deadlock_contention : ∃ c, kernel.system.Run (Meets Careful) c ∧ Waits c 1 0 ∧
    ∀ t, ¬ Relation.TransGen (Waits c) t t := by
  obtain ⟨c, run, sleeps⟩ := System.exists_run (m := kernel.system) (Meets Careful) start_init
    contention (fun c => sleepsOn c 1 0) (by decide +kernel)
  exact ⟨c, run, waits_of_sleepsOn sleeps, (no_deadlock run).1⟩

/-- `link("a", ".")`: the directory is locked, and `dirlink` finds "." in it. -/
def linkDot : List (Event ProcId Call) :=
  .call 0 (.link (some ['a']) (some ['.'])) :: List.replicate 33 (.step 0)

theorem link_dot_waits_for_itself :
    ∃ c, kernel.system.Run (fun _ _ => True) c ∧ Waits c 0 0 := by
  obtain ⟨c, run, sleeps⟩ := System.exists_run (m := kernel.system) (fun _ _ => True) start_init
    linkDot (fun c => sleepsOn c 0 0) (by decide +kernel)
  exact ⟨c, run, waits_of_sleepsOn sleeps⟩

end Xv6.InodeLocks
