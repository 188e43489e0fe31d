import Xv6.PipeBuffers

/-! Every page that was handed to the allocator is free or has one role. What the
processes, the pipes and the boot code hold is one sum; a system call moves pages
between its caller's part of that sum and the free list. -/
namespace Xv6.PageConservation
open Function
open CheckedC BlockPool PageTables PageOwnership AddressSpaces ProcMemory PipeBuffers StepSystem

def held (m : Memory) : Option Page → Multiset Page
  | none => 0
  | some d => pages m d

def share (m : Memory) (pr : Proc) : Multiset Page :=
  if pr.state = .unused then 0 else named pr.kstack + held m pr.pgdir

/-- The pages taken at boot for good. -/
def fixed (s : State) : Multiset Page := pages s.memory s.kpgdir + (s.cpuStacks : Multiset Page)

def owned (s : State) : Multiset Page :=
  ∑ p, share s.memory (s.proc p) + buffers s + fixed s

def HasSpace (m : Memory) (pr : Proc) : Prop :=
  pr.state ≠ .unused → ∃ d, pr.pgdir = some d ∧ Space m d pr.sz

structure Inv (s : State) : Prop where
  apart : Apart s.memory.toPool (owned s)
  spaces : ∀ p, HasSpace s.memory (s.proc p)
  pipes : Pipes s

/-- A step on which no page is lost. -/
structure Kept (s after : State) : Prop where
  moves : Moves s.memory.toPool (owned s) after.memory.toPool (owned after)
  inv : Inv after

section
variable {s after : State} {m m' : Memory}

theorem Kept.trans (first : Kept s s') (second : Kept s' after) : Kept s after :=
  ⟨first.moves.trans second.moves, second.inv⟩

theorem Space.congr (space : Space m d sz)
    (same : ∀ q ∈ pages m d, m'.contents q = m.contents q) : Space m' d sz :=
  ⟨space.limit, fun i j small small' present => space.below i j small small'
    (by rwa [pte_congr same (by omega)] at present)⟩

theorem Space.mono (space : Space m d sz) (le : sz ≤ sz') (limit : sz' ≤ KERNBASE) : Space m d sz' :=
  ⟨limit, fun i j small small' present =>
    Nat.lt_of_lt_of_le (space.below i j small small' present) le⟩

theorem share_used (used : pr.state ≠ .unused) : share m pr = named pr.kstack + held m pr.pgdir :=
  if_neg used

theorem share_unused (unused : pr.state = .unused) : share m pr = 0 := if_pos unused

theorem share_space (used : pr.state ≠ .unused) (here : pr.pgdir = some d) :
    share m pr = pages m d + named pr.kstack := by
  rw [share_used used, here, add_comm]
  rfl

theorem held_le_share (used : pr.state ≠ .unused) (here : pr.pgdir = some d) (member : q ∈ pages m d) :
    q ∈ share m pr := by
  rw [share_used used, here]
  exact Multiset.mem_add.mpr (.inr member)

theorem share_congr (same : ∀ q ∈ share m pr, m'.contents q = m.contents q)
    (space : SameSpace pr' pr) : share m' pr' = share m pr := by
  by_cases unused : pr.state = .unused
  · rw [share_unused unused, share_unused (space.1.mpr unused)]
  · have used' : pr'.state ≠ .unused := fun unused' => unused (space.1.mp unused')
    rw [share_used unused, share_used used', space.2.1, space.2.2.1]
    congr 1
    cases here : pr.pgdir with
    | none => rfl
    | some d => exact pages_congr fun q member => same q (held_le_share unused here member)

theorem HasSpace.congr (space : HasSpace m pr) (same : ∀ q ∈ share m pr, m'.contents q = m.contents q)
    (alike : SameSpace pr' pr) : HasSpace m' pr' := by
  intro used'
  have used : pr.state ≠ .unused := fun unused => used' (alike.1.mpr unused)
  obtain ⟨d, here, space⟩ := space used
  rw [alike.2.2.1, alike.2.2.2]
  exact ⟨d, here, Space.congr space fun q member => same q (held_le_share used here member)⟩

theorem Inv.step (inv : Inv s)
    (moves : Moves s.memory.toPool (share s.memory (s.proc p) + buffers s)
      after.memory.toPool (share after.memory (after.proc p) + buffers after))
    (others : ∀ q, q ≠ p → SameSpace (after.proc q) (s.proc q)) (kpgdir : after.kpgdir = s.kpgdir)
    (cpuStacks : after.cpuStacks = s.cpuStacks) (space : HasSpace after.memory (after.proc p))
    (pipes : Pipes after) : Kept s after := by
  let rest := ∑ q ∈ Finset.univ.erase p, share s.memory (s.proc q) + fixed s
  have parts : owned s = share s.memory (s.proc p) + buffers s + rest := by
    unfold owned
    rw [← Finset.add_sum_erase Finset.univ (fun q => share s.memory (s.proc q)) (Finset.mem_univ p)]
    simp only [rest]
    abel
  have apart := inv.apart
  rw [parts] at apart
  have kept : ∀ q ∈ rest, after.memory.contents q = s.memory.contents q :=
    fun q member => moves.kept apart member
  have keptShare : ∀ q, q ≠ p → ∀ x ∈ share s.memory (s.proc q),
      after.memory.contents x = s.memory.contents x := by
    intro q other x member
    refine kept x (Multiset.mem_add.mpr (.inl ?_))
    exact Multiset.mem_sum.mpr ⟨q, Finset.mem_erase.mpr ⟨other, Finset.mem_univ q⟩, member⟩
  have same : owned after = share after.memory (after.proc p) + buffers after + rest := by
    have shares : ∑ q ∈ Finset.univ.erase p, share after.memory (after.proc q) =
        ∑ q ∈ Finset.univ.erase p, share s.memory (s.proc q) := by
      refine Finset.sum_congr rfl fun q member => ?_
      have other := Finset.ne_of_mem_erase member
      exact share_congr (keptShare q other) (others q other)
    have fixed_ : fixed after = fixed s := by
      unfold fixed
      rw [kpgdir, cpuStacks, pages_congr fun q member => kept q (Multiset.mem_add.mpr
        (.inr (Multiset.mem_add.mpr (.inl member))))]
    unfold owned
    rw [← Finset.add_sum_erase Finset.univ (fun q => share after.memory (after.proc q))
      (Finset.mem_univ p), shares, fixed_]
    simp only [rest]
    abel
  have framed := moves.frame rest
  rw [← parts, ← same] at framed
  refine ⟨framed, framed.apart inv.apart, fun q => ?_, pipes⟩
  by_cases here : q = p
  · subst here
    exact space
  · exact HasSpace.congr (inv.spaces q) (keptShare q here) (others q here)

theorem share_le_owned (s : State) (p : Pid) :
    ∃ rest, owned s = buffers s + (share s.memory (s.proc p) + rest) := by
  refine ⟨∑ q ∈ Finset.univ.erase p, share s.memory (s.proc q) + fixed s, ?_⟩
  unfold owned
  rw [← Finset.add_sum_erase Finset.univ (fun q => share s.memory (s.proc q)) (Finset.mem_univ p)]
  abel

theorem Inv.filed (inv : Inv s) (filed : Filed s after) : Kept s after := by
  obtain ⟨rest, parts⟩ := share_le_owned s 0
  have apart := inv.apart
  rw [parts] at apart
  have kept : ∀ q ∈ share s.memory (s.proc 0), after.memory.contents q = s.memory.contents q :=
    fun q member => filed.moves.kept apart (Multiset.mem_add.mpr (.inl member))
  refine inv.step (p := 0) ?_ (fun q _ => filed.procs q) filed.kpgdir filed.cpuStacks
    (HasSpace.congr (inv.spaces 0) kept (filed.procs 0)) filed.pipes
  rw [share_congr kept (filed.procs 0), add_comm, add_comm _ (buffers after)]
  exact filed.moves.frame _

theorem Inv.free (inv : Inv s) : Apart s.memory.toPool 0 := by
  have apart := inv.apart
  rw [← zero_add (owned s)] at apart
  exact apart.less

theorem Inv.still (inv : Inv s) (moves : Moves s.memory.toPool 0 m'.toPool 0) :
    Kept s { s with memory := m' } := by
  have pipes := inv.pipes
  refine inv.filed ⟨?_, fun _ => SameSpace.refl _, rfl, rfl, ?_⟩
  · have framed := moves.frame (buffers s)
    rwa [zero_add] at framed
  · exact ⟨pipes.idle, pipes.own, pipes.unique, pipes.other⟩

theorem Inv.process (inv : Inv s) (procs : after.proc = update s.proc p pr)
    (files : after.file = s.file) (flags : after.pipe = s.pipe) (kpgdir : after.kpgdir = s.kpgdir)
    (cpuStacks : after.cpuStacks = s.cpuStacks)
    (moves : Moves s.memory.toPool (share s.memory (s.proc p)) after.memory.toPool
      (share after.memory pr))
    (space : HasSpace after.memory pr) : Kept s after := by
  have here : after.proc p = pr := by rw [procs, update_self]
  have filed := (SameEnds.of_eq files).pipes.buffers
  refine inv.step (p := p) ?_ (fun q other => ?_) kpgdir cpuStacks (by rw [here]; exact space) ?_
  · rw [here, filed]
    exact moves.frame (buffers s)
  · rw [procs, update_of_ne other]
    exact SameSpace.refl _
  · have pipes := inv.pipes
    cases s
    cases after
    cases files
    cases flags
    exact ⟨pipes.idle, pipes.own, pipes.unique, pipes.other⟩

theorem Inv.caller (inv : Inv s) (runs : (s.proc p).state = .runnable)
    (here : deref (s.proc p).pgdir = .ok d) :
    (s.proc p).state ≠ .unused ∧ (s.proc p).pgdir = some d ∧ Space s.memory d (s.proc p).sz := by
  have used : (s.proc p).state ≠ .unused := by
    rw [runs]
    nofun
  obtain ⟨d', some_, space⟩ := inv.spaces p used
  rw [some_] at here
  cases here
  exact ⟨used, some_, space⟩

theorem Inv.apart_share (inv : Inv s) (p : Pid) : Apart s.memory.toPool (share s.memory (s.proc p)) := by
  obtain ⟨rest, parts⟩ := share_le_owned s p
  have apart := inv.apart
  rw [parts, add_left_comm] at apart
  exact apart.less

/-! ## fork -/

theorem allocproc_none (inv : Inv s) (ran : allocproc s = (none, after)) :
    Kept s after ∧ after.memory.toPool = s.memory.toPool := by
  unfold allocproc at ran
  split at ran
  · cases ran
    exact ⟨⟨Moves.refl _ _, inv⟩, rfl⟩
  · rename_i p found
    have unused : (s.proc p).state = .unused := by simpa using List.find?_some found
    split at ran
    · rename_i m none
      cases ran
      have same := kalloc_none none
      refine ⟨inv.process (p := p) rfl rfl rfl rfl rfl ?_ fun used => absurd unused used, same⟩
      rw [share_unused unused, share_unused (by exact unused)]
      simp only [State.setProc, same]
      exact Moves.refl _ _
    · cases ran

theorem allocproc_some (ran : allocproc s = (some np, s')) : (s.proc np).state = .unused ∧
    ∃ k m, kalloc s.memory = (some k, m) ∧ s' = { s with memory := m }.setProc np
      { s.proc np with state := .embryo, kstack := some k } := by
  unfold allocproc at ran
  split at ran
  · cases ran
  · rename_i p found
    have unused : (s.proc p).state = .unused := by simpa using List.find?_some found
    split at ran
    · cases ran
    · rename_i k m some
      cases ran
      exact ⟨unused, k, m, some, rfl⟩

theorem dupFiles_filed (pipes : Pipes s) (ran : dupFiles p np s fds = .ok after) : Filed s after := by
  induction fds generalizing s with
  | nil =>
    cases ran
    exact Filed.refl pipes
  | cons fd rest ih =>
    unfold dupFiles at ran
    split at ran
    · exact ih pipes ran
    · rename_i f _
      obtain ⟨s₁, dup, ran⟩ := bind_eq_ok.mp ran
      have filed := filedup_filed pipes dup
      have filed₁ : Filed s₁ (s₁.setProc np { s₁.proc np with
          ofile := update (s₁.proc np).ofile fd (some f) }) :=
        Filed.setProc filed.pipes ⟨Iff.rfl, rfl, rfl, rfl⟩
      exact (filed.trans filed₁).trans (ih filed₁.pipes ran)

theorem balance_free {m m' : Pool Page Words} (moves : Moves m 0 m' 0) :
    (m'.freelist : Multiset Page) = m.freelist := by
  simpa using moves.balance

theorem fork_child {child : Proc} {mid : State} (inv : Inv s)
    (dup : dupFiles p np mid fds = .ok s') (unused : (s.proc np).state = .unused)
    (procs : mid.proc = update s.proc np child) (files : mid.file = s.file)
    (flags : mid.pipe = s.pipe) (kpgdir : mid.kpgdir = s.kpgdir)
    (cpuStacks : mid.cpuStacks = s.cpuStacks)
    (embryo : child.state = .embryo) (directory : child.pgdir = some d)
    (moves : Moves s.memory.toPool 0 mid.memory.toPool (named child.kstack + pages mid.memory d))
    (space : Space mid.memory d child.sz) :
    Kept s (s'.setProc np { s'.proc np with state := .runnable }) := by
  have used : child.state ≠ .unused := by
    rw [embryo]
    nofun
  have kept : Kept s mid := by
    refine inv.process (p := np) procs files flags kpgdir cpuStacks ?_ fun _ => ⟨d, directory, space⟩
    rw [share_unused unused, share_used used, directory]
    exact moves
  have filed := dupFiles_filed kept.inv.pipes dup
  refine (kept.trans (kept.inv.filed filed)).trans ((kept.inv.filed filed).inv.filed
    (Filed.setProc filed.pipes ⟨⟨nofun, fun unused' => ?_⟩, rfl, rfl, rfl⟩))
  have still := (filed.procs np).1.mp unused'
  rw [procs, update_self] at still
  exact absurd still used

theorem fork_kept (kernel : ∀ k ∈ ks, InKernel k) (inv : Inv s) (runs : (s.proc p).state = .runnable)
    (ran : fork ks s p = .ok (done, after)) :
    Kept s after ∧ (done = false →
      (after.memory.freelist : Multiset Page) = s.memory.freelist) := by
  unfold fork at ran
  split at ran
  · rename_i s₁ none
    cases ran
    obtain ⟨kept, same⟩ := allocproc_none inv none
    exact ⟨kept, fun _ => by rw [same]⟩
  · rename_i np s₁ some
    obtain ⟨unused, k, m, taken, rfl⟩ := allocproc_some some
    have other : p ≠ np := by
      rintro rfl
      rw [runs] at unused
      cases unused
    obtain ⟨d, here, ran⟩ := bind_eq_ok.mp ran
    obtain ⟨⟨copied, m₁⟩, copy, ran⟩ := bind_eq_ok.mp ran
    simp only [State.setProc, update_of_ne other, update_self,
      update_idem] at here copy ran
    obtain ⟨_, _, space⟩ := inv.caller runs here
    have first := (kalloc_some taken).1
    have spec := copyuvm_moves (first.apart inv.free).zero kernel space.limit copy
    cases copied with
    | none =>
      obtain ⟨k', stack, ran⟩ := bind_eq_ok.mp ran
      obtain ⟨m₂, freed, ends⟩ := bind_eq_ok.mp ran
      cases stack
      cases ends
      have second := spec.frame {k}
      have whole := (first.trans second).trans (kfree_moves freed).1
      refine ⟨inv.process (p := np) rfl rfl rfl rfl rfl ?_
        fun used => absurd rfl used, fun _ => balance_free whole⟩
      rw [share_unused unused, share_unused rfl]
      exact whole
    | some d' =>
      obtain ⟨made, fits⟩ := spec
      obtain ⟨s₂, dup, ends⟩ := bind_eq_ok.mp ran
      cases ends
      have second := made.frame {k}
      rw [zero_add, add_comm] at second
      exact ⟨fork_child inv dup unused rfl rfl rfl rfl rfl rfl rfl (first.trans second) fits, by simp⟩

/-! ## sbrk -/

theorem Inv.directory (inv : Inv s) (used : (s.proc p).state ≠ .unused)
    (here : (s.proc p).pgdir = some d) : Apart s.memory.toPool (pages s.memory d) := by
  have apart := inv.apart_share p
  rw [share_space used here] at apart
  exact apart.less

theorem Inv.resize (inv : Inv s) (used : (s.proc p).state ≠ .unused)
    (here : (s.proc p).pgdir = some d)
    (moves : Moves s.memory.toPool (pages s.memory d) m'.toPool (pages m' d)) (space : Space m' d sz) :
    Kept s ({ s with memory := m' }.setProc p { s.proc p with sz := sz }) := by
  have behind : share m' { s.proc p with sz := sz } = pages m' d + named (s.proc p).kstack :=
    share_space used here
  refine inv.process (p := p) rfl rfl rfl rfl rfl ?_ fun _ => ⟨d, here, space⟩
  rw [share_space used here]
  simp only [State.setProc]
  rw [behind]
  exact moves.frame _

theorem setProc_self (s : State) (p : Pid) : s.setProc p (s.proc p) = s := by
  rw [State.setProc, update_eq_self]

theorem Inv.sameSize (inv : Inv s) (used : (s.proc p).state ≠ .unused)
    (here : (s.proc p).pgdir = some d)
    (moves : Moves s.memory.toPool (pages s.memory d) m'.toPool (pages m' d))
    (space : Space m' d (s.proc p).sz) : Kept s { s with memory := m' } := by
  have kept := inv.resize used here moves space
  have same : { s with memory := m' }.setProc p { s.proc p with sz := (s.proc p).sz } =
    { s with memory := m' } := setProc_self { s with memory := m' } p
  rwa [same] at kept

/-- What a failed call leaves of the free list. -/
def Restores (s : State) (p : Pid) (c : Call) (after : State) : Prop :=
  match c with
  | .sbrk n => 0 < n → ∃ d kept, (s.proc p).pgdir = some d ∧ kept ≤ tables after.memory d ∧
      (after.memory.freelist : Multiset Page) + kept = s.memory.freelist
  | _ => (after.memory.freelist : Multiset Page) = s.memory.freelist

theorem growproc_kept (inv : Inv s) (runs : (s.proc p).state = .runnable)
    (ran : growproc s p n = .ok (done, after)) :
    Kept s after ∧ (done = false → Restores s p (.sbrk n) after) := by
  obtain ⟨d, here, ran⟩ := bind_eq_ok.mp ran
  obtain ⟨used, directory, space⟩ := inv.caller runs here
  have apart := inv.directory used directory
  split at ran
  · obtain ⟨⟨sz, m⟩, grown, ran⟩ := bind_eq_ok.mp ran
    obtain ⟨moves, longer, outcome⟩ := allocuvm_moves apart space grown
    dsimp only at ran
    split at ran
    · rename_i failed
      cases ran
      rw [if_pos failed] at outcome
      refine ⟨inv.sameSize used directory moves ⟨space.limit, fun i j small small' present => ?_⟩,
        fun _ _ => ?_⟩
      · rw [outcome i j small small'] at present
        exact space.below i j small small' present
      · obtain ⟨kept, le, sum⟩ := free_add_tables moves longer outcome
        exact ⟨d, kept, directory, le, sum⟩
    · rename_i grew
      cases ran
      rw [if_neg grew] at outcome
      exact ⟨inv.resize used directory moves outcome, nofun⟩
  · rename_i notPositive
    split at ran
    · obtain ⟨⟨sz, m⟩, shrunk, ran⟩ := bind_eq_ok.mp ran
      obtain ⟨moves, fits, le⟩ := deallocuvm_space apart space shrunk
      dsimp only at ran
      split at ran
      · cases ran
        refine ⟨?_, fun _ positive => absurd positive notPositive⟩
        exact inv.sameSize used directory moves (Space.mono fits le space.limit)
      · cases ran
        exact ⟨inv.resize used directory moves fits, nofun⟩
    · cases ran
      exact ⟨⟨Moves.refl _ _, inv⟩, nofun⟩

/-! ## exit and wait -/

theorem closeFiles_filed (pipes : Pipes s) (ran : closeFiles p s fds = .ok after) : Filed s after := by
  induction fds generalizing s with
  | nil =>
    cases ran
    exact Filed.refl pipes
  | cons fd rest ih =>
    unfold closeFiles at ran
    split at ran
    · exact ih pipes ran
    · obtain ⟨s₁, closing, ran⟩ := bind_eq_ok.mp ran
      have filed := fileclose_filed pipes closing
      have filed₁ := clearFd_filed filed.pipes p fd
      exact (filed.trans filed₁).trans (ih filed₁.pipes ran)

theorem adopt_sameSpace (p initproc : Pid) (pr : Proc) : SameSpace (adopt p initproc pr) pr := by
  unfold adopt
  split <;> exact ⟨Iff.rfl, rfl, rfl, rfl⟩

theorem exit_kept (inv : Inv s) (runs : (s.proc p).state = .runnable)
    (ran : exit s p = .ok (done, after)) : Kept s after ∧ done = true := by
  unfold exit at ran
  split at ran
  · cases ran
  · obtain ⟨s₁, closing, ends⟩ := bind_eq_ok.mp ran
    cases ends
    have filed := closeFiles_filed inv.pipes closing
    have adopted : Filed s₁ { s₁ with proc := fun q => adopt p s₁.initproc (s₁.proc q) } :=
      Filed.table filed.pipes rfl filed.pipes.idle rfl rfl
        (fun q => adopt_sameSpace p s₁.initproc (s₁.proc q)) rfl rfl
    refine ⟨inv.filed ((filed.trans adopted).trans (Filed.setProc adopted.pipes
      ⟨⟨nofun, fun unused => ?_⟩, rfl, rfl, rfl⟩)), rfl⟩
    have was := (filed.procs p).1.mp ((adopted.procs p).1.mp unused)
    rw [runs] at was
    cases was

theorem wait_kept (inv : Inv s) (ran : wait s p = .ok (done, after)) :
    Kept s after ∧ (done = false →
      (after.memory.freelist : Multiset Page) = s.memory.freelist) := by
  unfold wait at ran
  split at ran
  · rename_i q found
    obtain ⟨k, stack, ran⟩ := bind_eq_ok.mp ran
    obtain ⟨m₁, freed, ran⟩ := bind_eq_ok.mp ran
    obtain ⟨d, directory, ran⟩ := bind_eq_ok.mp ran
    obtain ⟨m₂, unmapped, ends⟩ := bind_eq_ok.mp ran
    cases ends
    have zombie : (s.proc q).state = .zombie := by
      have both := List.find?_some found
      simp only [Bool.and_eq_true, beq_iff_eq] at both
      exact both.2
    have used : (s.proc q).state ≠ .unused := by
      rw [zombie]
      nofun
    have kstack : (s.proc q).kstack = some k := by
      cases here : (s.proc q).kstack <;> rw [here] at stack <;> cases stack
      rfl
    have pgdir : (s.proc q).pgdir = some d := by
      cases here : (s.proc q).pgdir <;> rw [here] at directory <;> cases directory
      rfl
    have before : share s.memory (s.proc q) = pages s.memory d + {k} := by
      rw [share_space used pgdir, kstack]
      rfl
    have apart := inv.apart_share q
    rw [before] at apart
    obtain ⟨first, _, _⟩ := kfree_other apart freed
    have second := freevm_moves (first.apart apart) unmapped
    refine ⟨inv.process (p := q) rfl rfl rfl rfl rfl ?_ fun used => absurd rfl used, nofun⟩
    rw [before, share_unused rfl]
    exact first.trans second
  · split at ran
    · cases ran
      exact ⟨⟨Moves.refl _ _, inv⟩, fun _ => rfl⟩
    · cases ran

/-! ## exec -/

theorem loadSegments_moves (apart : Apart m.toPool (pages m d)) (space : Space m d sz)
    (ran : loadSegments d m sz phs = .ok (r, m')) :
    Moves m.toPool (pages m d) m'.toPool (pages m' d) ∧ ∀ sz', r = some sz' → Space m' d sz' := by
  induction phs generalizing m sz with
  | nil =>
    cases ran
    refine ⟨Moves.refl _ _, ?_⟩
    rintro _ ⟨⟩
    exact space
  | cons header rest ih =>
    cases header with
    | none =>
      cases ran
      exact ⟨Moves.refl _ _, nofun⟩
    | some ph =>
      unfold loadSegments at ran
      split at ran
      · exact ih apart space ran
      · split at ran
        · cases ran
          exact ⟨Moves.refl _ _, nofun⟩
        · split at ran
          · cases ran
            exact ⟨Moves.refl _ _, nofun⟩
          · obtain ⟨⟨grown, m₁⟩, alloc, ran⟩ := bind_eq_ok.mp ran
            obtain ⟨moves, _, outcome⟩ := allocuvm_moves apart space alloc
            dsimp only at ran
            split at ran
            · cases ran
              exact ⟨moves, nofun⟩
            · rename_i some_
              rw [if_neg some_] at outcome
              split at ran
              · cases ran
                exact ⟨moves, nofun⟩
              · obtain ⟨loaded, _, ran⟩ := bind_eq_ok.mp ran
                split at ran
                · obtain ⟨onward, fits⟩ := ih (moves.apart apart) outcome ran
                  exact ⟨moves.trans onward, fits⟩
                · cases ran
                  exact ⟨moves, nofun⟩

theorem setupStack_moves (apart : Apart m.toPool (pages m d)) (space : Space m d sz)
    (ran : setupStack d m sz args = .ok (r, m')) :
    Moves m.toPool (pages m d) m'.toPool (pages m' d) ∧ ∀ sz', r = some sz' → Space m' d sz' := by
  have rounded : Space m d (PGROUNDUP sz) := by
    refine Space.mono space (le_pgroundup space.limit) ?_
    have limit := space.limit
    simp only [PGROUNDUP, uint, PGSIZE, KERNBASE] at *
    omega
  obtain ⟨⟨grown, m₁⟩, alloc, ran⟩ := bind_eq_ok.mp ran
  obtain ⟨moves, _, outcome⟩ := allocuvm_moves apart rounded alloc
  dsimp only at ran
  split at ran
  · cases ran
    exact ⟨moves, by simp⟩
  · rename_i some_
    rw [if_neg some_] at outcome
    obtain ⟨m₂, guard, ran⟩ := bind_eq_ok.mp ran
    have limit := outcome.limit
    have user : grown - 2 * PGSIZE < KERNBASE := by
      simp only [PGSIZE, KERNBASE] at *
      omega
    obtain ⟨clearing, fits⟩ := clearpteu_moves (moves.apart apart) outcome user guard
    split at ran
    · cases ran
      refine ⟨moves.trans clearing, ?_⟩
      rintro _ ⟨⟩
      exact fits
    · cases ran
      exact ⟨moves.trans clearing, by simp⟩

theorem execImage_moves (apart : Apart m.toPool 0) (kernel : ∀ k ∈ ks, InKernel k)
    (ran : execImage ks m image = .ok (r, m')) :
    match r with
    | some (d, sz) => Moves m.toPool 0 m'.toPool (pages m' d) ∧ Space m' d sz
    | none => Moves m.toPool 0 m'.toPool 0 := by
  obtain ⟨⟨made, m₁⟩, setup, ran⟩ := bind_eq_ok.mp ran
  have spec := setupkvm_moves apart kernel setup
  cases made with
  | none =>
    cases ran
    exact spec
  | some d =>
    obtain ⟨made, empty⟩ := spec
    obtain ⟨⟨loaded, m₂⟩, load, ran⟩ := bind_eq_ok.mp ran
    obtain ⟨loading, fits⟩ := loadSegments_moves (made.apart apart) empty load
    have whole := made.trans loading
    cases loaded with
    | none =>
      obtain ⟨m₃, freed, ends⟩ := bind_eq_ok.mp ran
      cases ends
      exact whole.trans (freevm_moves (whole.apart apart) freed)
    | some sz =>
      obtain ⟨⟨stacked, m₃⟩, stack, ran⟩ := bind_eq_ok.mp ran
      obtain ⟨stacking, fits'⟩ := setupStack_moves (whole.apart apart) (fits sz rfl) stack
      have whole' := whole.trans stacking
      cases stacked with
      | none =>
        obtain ⟨m₄, freed, ends⟩ := bind_eq_ok.mp ran
        cases ends
        exact whole'.trans (freevm_moves (whole'.apart apart) freed)
      | some sz' =>
        cases ran
        exact ⟨whole', fits' sz' rfl⟩

theorem exec_kept (kernel : ∀ k ∈ ks, InKernel k) (inv : Inv s) (runs : (s.proc p).state = .runnable)
    (ran : exec ks s p image = .ok (done, after)) :
    Kept s after ∧ (done = false →
      (after.memory.freelist : Multiset Page) = s.memory.freelist) := by
  unfold exec at ran
  split at ran
  · cases ran
    exact ⟨⟨Moves.refl _ _, inv⟩, fun _ => rfl⟩
  · obtain ⟨⟨made, m⟩, build, ran⟩ := bind_eq_ok.mp ran
    have spec := execImage_moves inv.free kernel build
    cases made with
    | none =>
      cases ran
      exact ⟨inv.still spec, fun _ => balance_free spec⟩
    | some new =>
      obtain ⟨d, sz⟩ := new
      obtain ⟨made, fits⟩ := spec
      obtain ⟨old, here, ran⟩ := bind_eq_ok.mp ran
      obtain ⟨m', freed, ends⟩ := bind_eq_ok.mp ran
      cases ends
      obtain ⟨used, directory, _⟩ := inv.caller runs here
      have apart := inv.directory used directory
      -- the old directory is not touched while the new one is made
      have apart₀ : Apart s.memory.toPool (0 + pages s.memory old) := by rwa [zero_add]
      have kept : pages m old = pages s.memory old :=
        pages_congr fun q member => made.kept apart₀ member
      have first := made.frame (pages s.memory old)
      have apart₁ := first.apart apart₀
      rw [← kept, add_comm] at apart₁
      have second := freevm_moves apart₁.less freed
      have kept' : ∀ q ∈ pages m d, m'.contents q = m.contents q :=
        fun q member => second.kept apart₁ member
      have third := second.frame (pages m d)
      rw [zero_add, add_comm, kept] at third
      rw [zero_add] at first
      have behind : share m' { s.proc p with pgdir := some d, sz := sz } =
          pages m' d + named (s.proc p).kstack := share_space used rfl
      refine ⟨inv.process (p := p) rfl rfl rfl rfl rfl ?_ fun _ => ⟨d, rfl, Space.congr fits kept'⟩,
        nofun⟩
      rw [share_space used directory]
      simp only [State.setProc]
      rw [behind, pages_congr kept']
      exact (first.trans third).frame _

/-! ## Calls -/

theorem free_of_filed (filed : Filed s after) (same : SamePipes s after) :
    (after.memory.freelist : Multiset Page) = s.memory.freelist := by
  have balance := filed.moves.balance
  rw [same.buffers] at balance
  exact add_right_cancel balance

theorem call_kept (kernel : ∀ k ∈ ks, InKernel k) (inv : Inv s) (runs : (s.proc p).state = .runnable)
    (ran : call ks s p c = .ok (done, after)) :
    Kept s after ∧ (done = false → Restores s p c after) := by
  have filed : Filed s after ∧ (done = false → SamePipes s after) →
      Kept s after ∧ (done = false → (after.memory.freelist : Multiset Page) = s.memory.freelist) :=
    fun ⟨filed, same⟩ => ⟨inv.filed filed, fun failed => free_of_filed filed (same failed)⟩
  cases c with
  | fork => exact fork_kept kernel inv runs ran
  | exec image => exact exec_kept kernel inv runs ran
  | sbrk n => exact growproc_kept inv runs ran
  | exit =>
    obtain ⟨kept, succeeds⟩ := exit_kept inv runs ran
    refine ⟨kept, fun failed => ?_⟩
    rw [succeeds] at failed
    cases failed
  | wait => exact wait_kept inv ran
  | wait2 => exact wait_kept inv ran
  | pipe =>
    obtain ⟨rest, parts⟩ := share_le_owned s p
    have apart := inv.apart
    rw [parts] at apart
    exact filed (sys_pipe_filed inv.pipes apart.less ran)
  | close fd => exact filed (sys_close_filed inv.pipes ran)
  | dup fd => exact filed (sys_dup_filed inv.pipes ran)
  | openFile writable => exact filed (sys_open_filed inv.pipes ran)

theorem Inv.refusing (inv : Inv s) (refuses : List Bool) : Inv (s.refusing refuses) :=
  ⟨inv.apart, fun p used => by
    obtain ⟨d, here, space⟩ := inv.spaces p used
    exact ⟨d, here, space.limit, space.below⟩,
    inv.pipes.idle, inv.pipes.own, inv.pipes.unique, inv.pipes.other⟩

theorem step_kept (kernel : ∀ k ∈ ks, InKernel k) (inv : Inv s) (enabled : Enabled s e)
    (ran : perform ks s e = .ok after) : Kept s after := by
  cases e with
  | call p c refuses =>
    obtain ⟨⟨done, after'⟩, called, ends⟩ := bind_eq_ok.mp ran
    cases ends
    have kept := (call_kept kernel (inv.refusing refuses) enabled called).1
    exact ⟨kept.moves, kept.inv⟩
  | kill p =>
    cases ran
    exact inv.filed (Filed.setProc inv.pipes ⟨Iff.rfl, rfl, rfl, rfl⟩)

end

/-! ## Boot -/

section
variable {s : State} {m m' : Memory}

theorem kfreeAll_moves (ran : kfreeAll m ps = .ok m') : Moves m.toPool (ps : Multiset Page) m'.toPool 0 := by
  induction ps generalizing m with
  | nil =>
    cases ran
    exact Moves.refl _ _
  | cons p rest ih =>
    obtain ⟨m₁, freed, ran⟩ := bind_eq_ok.mp ran
    have first := (kfree_moves freed).1.frame (rest : Multiset Page)
    exact first.trans (ih ran)

theorem startothers_moves (ran : startothers m n = .ok (stacks_, m')) :
    Moves m.toPool 0 m'.toPool (stacks_ : Multiset Page) ∧ m'.contents = m.contents := by
  induction n generalizing m stacks_ with
  | zero =>
    cases ran
    exact ⟨Moves.refl _ _, rfl⟩
  | succ n ih =>
    unfold startothers at ran
    split at ran
    · cases ran
    · rename_i stack m₁ some
      obtain ⟨⟨rest, m₂⟩, more, ends⟩ := bind_eq_ok.mp ran
      cases ends
      obtain ⟨taken, same⟩ := kalloc_some some
      obtain ⟨onward, same'⟩ := ih more
      have framed := onward.frame {stack}
      rw [zero_add, add_comm, Multiset.singleton_add, Multiset.cons_coe] at framed
      exact ⟨taken.trans framed, same'.trans same⟩

theorem handed_nodup (mach : Machine) (low : mach.middle ≤ PHYSTOP) : mach.handed.Nodup := by
  refine List.nodup_append.mpr ⟨pagesTo_nodup _ _, pagesTo_nodup _ _, fun a first b second => ?_⟩
  obtain ⟨_, _, below⟩ := mem_pagesTo (pgroundup_mod _) first
  obtain ⟨_, above, _⟩ := mem_pagesTo (pgroundup_mod _) second
  have least : mach.middle ≤ PGROUNDUP mach.middle := le_pgroundup (by
    simp only [PHYSTOP, KERNBASE] at *
    omega)
  rintro rfl
  simp only [PGSIZE] at below
  omega

theorem unpopulated_owned (m : Memory) (k : Page) (l : List Page) :
    owned (unpopulated m k l) = pages m k + (l : Multiset Page) := by
  simp [owned, fixed, share, buffers, unpopulated]

theorem unpopulated_inv {l : List Page} (apart : Apart m.toPool (pages m k + (l : Multiset Page))) :
    Inv (unpopulated m k l) := by
  refine ⟨?_, fun p used => absurd rfl used, nofun, nofun, nofun, nofun⟩
  rw [unpopulated_owned]
  exact apart

theorem userinit_kept (kernel : ∀ k ∈ ks, InKernel k) (inv : Inv s)
    (ran : userinit ks s = .ok after) : Kept s after := by
  unfold userinit at ran
  split at ran
  · cases ran
  · rename_i p s₁ some
    obtain ⟨unused, k, m, taken, rfl⟩ := allocproc_some some
    obtain ⟨⟨made, m₁⟩, setup, ran⟩ := bind_eq_ok.mp ran
    have first := (kalloc_some taken).1
    have spec := setupkvm_moves (first.apart inv.free).zero kernel setup
    cases made with
    | none => cases ran
    | some d =>
      obtain ⟨made, empty⟩ := spec
      obtain ⟨m₂, loaded, ends⟩ := bind_eq_ok.mp ran
      cases ends
      have apart₁ := made.apart (first.apart inv.free).zero
      obtain ⟨mapped, fits⟩ := inituvm_moves apart₁ empty loaded
      have second := (made.trans mapped).frame {k}
      rw [zero_add, add_comm] at second
      refine inv.process (p := p) (update_idem ..) rfl rfl rfl rfl ?_
        fun _ => ⟨d, rfl, fits⟩
      rw [share_unused unused, share_used (by simp)]
      simp only [State.setProc, update_self]
      exact first.trans second

theorem boot_inv (mach : Machine) (low : mach.middle ≤ PHYSTOP) (kernel : ∀ k ∈ mach.kmap, InKernel k)
    (ran : mach.boot = .ok s) :
    Inv s ∧ (s.memory.freelist : Multiset Page) + owned s = (mach.handed : Multiset Page) := by
  obtain ⟨m₁, kinit1, ran⟩ := bind_eq_ok.mp ran
  obtain ⟨⟨made, m₂⟩, setup, ran⟩ := bind_eq_ok.mp ran
  cases made with
  | none => cases ran
  | some k =>
    obtain ⟨⟨l, m₃⟩, others, ran⟩ := bind_eq_ok.mp ran
    obtain ⟨m₄, kinit2, ran⟩ := bind_eq_ok.mp ran
    have freed₁ := kfreeAll_moves kinit1
    have last := kfreeAll_moves kinit2
    have distinct := handed_nodup mach low
    have sum : (mach.handed : Multiset Page) = (rangePages mach.kernelEnd mach.middle : List Page) +
        (rangePages mach.middle mach.top : List Page) := (Multiset.coe_add _ _).symm
    rw [sum]
    rw [← Multiset.coe_nodup, sum] at distinct
    generalize (rangePages mach.kernelEnd mach.middle : Multiset Page) = first at freed₁ distinct ⊢
    generalize (rangePages mach.middle mach.top : Multiset Page) = second at last distinct ⊢
    -- the pages that `kinit2` is given are nobody's until then
    have given := freed₁.frame second
    have apart₀ : Apart (⟨[], mach.ram⟩ : Pool Page Words) (first + second) := by
      rw [Apart, Multiset.coe_nil, zero_add]
      exact distinct
    have apart₁ := given.apart apart₀
    obtain ⟨made, _⟩ := setupkvm_moves apart₁.zero kernel setup
    have making := made.frame second
    have apart₂ := making.apart apart₁
    obtain ⟨taken, same⟩ := startothers_moves others
    have before : pages m₃ k = pages m₂ k := pages_congr fun q _ => congrFun same q
    have taking : Moves m₂.toPool (pages m₂ k + second) m₃.toPool
        (second + (pages m₃ k + (l : Multiset Page))) :=
      (taken.frame (pages m₂ k + second)).congr (zero_add _).symm (by rw [before]; abel)
    have apart₃ := taking.apart apart₂
    have kept : ∀ q ∈ pages m₃ k, m₄.contents q = m₃.contents q :=
      fun q member => last.kept apart₃ (Multiset.mem_add.mpr (.inl member))
    have giving : Moves m₃.toPool (second + (pages m₃ k + (l : Multiset Page))) m₄.toPool
        (pages m₄ k + (l : Multiset Page)) := by
      rw [pages_congr kept]
      exact (last.frame _).congr rfl (zero_add _).symm
    have whole := ((given.trans making).trans taking).trans giving
    have started := userinit_kept kernel (unpopulated_inv (giving.apart apart₃)) ran
    refine ⟨started.inv, ?_⟩
    have balance := started.moves.balance
    rw [unpopulated_owned] at balance
    have memory : (unpopulated m₄ k l).memory = m₄ := rfl
    rw [balance, memory, whole.balance, Multiset.coe_nil, zero_add]

end

/-! ## Runs -/

def ofProcs (s : State) (part : Proc → Multiset Page) : Multiset Page :=
  ∑ p, if (s.proc p).state = .unused then 0 else part (s.proc p)

def kstacks (s : State) : Multiset Page := ofProcs s fun pr => named pr.kstack

def pgdirs (s : State) : Multiset Page := ofProcs s fun pr => named pr.pgdir

def pgtabs (s : State) : Multiset Page := ofProcs s fun pr => pr.pgdir.elim 0 (tables s.memory)

def userPages (s : State) : Multiset Page := ofProcs s fun pr => pr.pgdir.elim 0 (users s.memory)

theorem owned_eq_roles (s : State) : owned s =
    kstacks s + pgdirs s + pgtabs s + userPages s + buffers s + fixed s := by
  have shares : ∑ p, share s.memory (s.proc p) = kstacks s + pgdirs s + pgtabs s + userPages s := by
    simp only [kstacks, pgdirs, pgtabs, userPages, ofProcs, ← Finset.sum_add_distrib]
    refine Finset.sum_congr rfl fun p _ => ?_
    unfold share
    split
    · rfl
    · cases (s.proc p).pgdir with
      | none => simp only [held, named_none, Option.elim_none, add_zero]
      | some d =>
        simp only [held, pages, named_some, Option.elim_some]
        abel
  rw [owned, shares]

section
variable {mach : Machine} {s : State} (low : mach.middle ≤ PHYSTOP)
include low

theorem run_balance (kernel : ∀ k ∈ mach.kmap, InKernel k)
    (run : (system mach).Run (fun _ _ => True) s) :
    Inv s ∧ (s.memory.freelist : Multiset Page) +
      (kstacks s + pgdirs s + pgtabs s + userPages s + buffers s + fixed s) = mach.handed := by
  rw [← owned_eq_roles]
  apply run.invariant
  · exact fun s booted => boot_inv mach low kernel booted
  · rintro s e after ⟨inv, balance⟩ enabled _ ran
    have kept := step_kept kernel inv enabled ran
    exact ⟨kept.inv, kept.moves.balance.trans balance⟩

theorem kmap_balance (linked : mach.kmap = kmap data) (text : KERNLINK < data)
    (memory : data < KERNBASE + PHYSTOP) (run : (system mach).Run (fun _ _ => True) s) :
    (s.memory.freelist : Multiset Page) +
      (kstacks s + pgdirs s + pgtabs s + userPages s + buffers s + fixed s) = mach.handed :=
  (run_balance low (linked ▸ kmap_inKernel text memory) run).2

end

/-- In every run the free list and the roles of pages together have every page that
the allocator was given, and each of them once. A call that fails leaves the free
list as it was, but for the page tables a directory has got from a failed `sbrk`. -/
theorem pages_conserved {mach : Machine} {s : State} (low : mach.middle ≤ PHYSTOP)
    (kernel : ∀ k ∈ mach.kmap, InKernel k) (run : (system mach).Run (fun _ _ => True) s) :
    mach.handed.Nodup ∧
      (s.memory.freelist : Multiset Page) +
        (kstacks s + pgdirs s + pgtabs s + userPages s + buffers s + fixed s) = mach.handed ∧
      ∀ p c refuses after, (s.proc p).state = .runnable →
        call mach.kmap (s.refusing refuses) p c = .ok (false, after) → Restores s p c after := by
  obtain ⟨inv, balance⟩ := run_balance low kernel run
  refine ⟨handed_nodup mach low, balance, fun p c refuses after runs failed => ?_⟩
  exact (call_kept kernel (inv.refusing refuses) runs failed).2 rfl

def smallMachine : Machine where
  kmap := [⟨KERNBASE, 0, PGSIZE, PTE_W⟩]
  ram _ _ := none
  kernelEnd := EXTMEM
  middle := EXTMEM + 4 * PGSIZE
  top := EXTMEM + 24 * PGSIZE
  cpus := 1

/-- A child is forked, replaces its image, exits and is waited for. -/
theorem pages_conserved_child : ∃ s : State, (system smallMachine).Run (fun _ _ => True) s ∧
    s.memory.freelist.length = 15 ∧
    (s.memory.freelist : Multiset Page) +
      (kstacks s + pgdirs s + pgtabs s + userPages s + buffers s + fixed s) = smallMachine.handed := by
  obtain ⟨start, booted, ends⟩ : ∃ start, smallMachine.boot = .ok start ∧
      ((system smallMachine).performAll (fun _ _ => True) start
        [.call 0 .fork [], .call 0 .pipe [], .call 0 (.sbrk 5000) [false, true],
          .call 1 (.exec ⟨true, true, [some ⟨true, 0, 100, 50, fun _ => true⟩], true⟩) [],
          .call 1 .exit [], .call 0 .wait []]).any
        (fun s => s.memory.freelist.length = 15) = true := by decide +kernel
  obtain ⟨s, run, here⟩ := System.exists_run (fun _ _ => True) booted _ _ ends
  refine ⟨s, run, here, (pages_conserved (by decide) ?_ run).2.1⟩
  rintro k member
  cases List.mem_singleton.mp member
  exact ⟨by decide, by decide, by decide⟩

end Xv6.PageConservation
