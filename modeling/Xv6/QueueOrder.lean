import Xv6.Lottery
import Xv6.Dispatch

/-! The order in which processes are dispatched. A pass of `scheduler` takes a process of
the greatest priority among the RUNNABLE ones. In queues 3 and 1 it takes the process that
has been in the queue longest, through every mix of enqueues, aging promotions and
dispatches: each of them leaves the members of a queue in the order in which they entered
it, and adds at most one process, at the end. -/
namespace Xv6.QueueOrder
open CheckedC ArrayQueue ProcTable ReadyQueues StepSystem Function

/-! ## Strict priority -/

/-- No RUNNABLE process has a greater priority than the RUNNABLE process `p`. -/
def Highest (t : PTable) (p : ProcId) : Prop :=
  (t.proc p).state = .runnable ∧
    ∀ r, (t.proc r).state = .runnable → (t.proc r).priority ≤ (t.proc p).priority

/-- What a pass of `scheduler` may answer: a process of the greatest priority, or that no
process is RUNNABLE. -/
def Strict (t : PTable) : Option ProcId → Prop
  | some p => Highest t p
  | none => ∀ r, (t.proc r).state ≠ .runnable

theorem counted_of_runnable (lists : Lists t queues) (runnable : (t.proc r).state = .runnable) :
    ∃ q : Fin NUMFILAS, (t.proc r).priority = ((q : Nat) : Int) ∧ 0 < t.countQueue q := by
  obtain ⟨q, priority⟩ := queue_of_priority (lists.ranged r (by rw [Live, runnable]; simp))
  have member : r ∈ queues q := (lists.members q r).mpr ⟨runnable, priority⟩
  have counted := (lists.held q).counted
  have length := List.length_pos_of_mem member
  exact ⟨q, priority, by omega⟩

theorem highest_of_empty (lists : Lists t queues) (ready : ReadyFor (t.proc p) q)
    (empty : ∀ q', q < q' → t.countQueue q' ≤ 0) : Highest t p := by
  refine ⟨ready.1, fun r runnable => ?_⟩
  obtain ⟨q', priority, counted⟩ := counted_of_runnable lists runnable
  have below : q' ≤ q := not_lt.mp fun above => absurd (empty q' above) (not_le.mpr counted)
  rw [priority, ready.2]
  exact_mod_cast below

theorem lotterySearch_member (held : Holds (t.queueReady 0) count items)
    (inside : aux + left ≤ items.length) (before : ∀ p, last = some p → p ∈ items)
    (ran : lotterySearch t golden left (aux : Int) total last = .ok (stop, some p)) :
    p ∈ items := by
  induction left generalizing aux total last with
  | zero =>
    cases ran
    exact before p rfl
  | succ left ih =>
    have bound : aux < items.length := by omega
    rw [lotterySearch, held.load bound] at ran
    simp only [bind_ok, deref] at ran
    split at ran
    · refine ih (show aux + 1 + left ≤ items.length by omega) ?_ (by simpa using ran)
      rintro r ⟨⟩
      exact List.getElem_mem bound
    · cases ran
      exact List.getElem_mem bound

theorem dispatchLottery_member (held : Holds (t.queueReady 0) (t.countQueue 0) items)
    (ran : dispatchLottery t = .ok (p, after)) : p ∈ items := by
  obtain ⟨total, _, ran⟩ := bind_eq_ok.mp ran
  obtain ⟨⟨golden, next⟩, _, ran⟩ := bind_eq_ok.mp ran
  obtain ⟨⟨aux, last⟩, searched, ran⟩ := bind_eq_ok.mp ran
  obtain ⟨r, found, ran⟩ := bind_eq_ok.mp ran
  obtain ⟨_, _, ran⟩ := bind_eq_ok.mp ran
  cases ran
  cases last with
  | none => cases found
  | some r =>
    cases found
    rw [held.counted, Int.toNat_natCast] at searched
    exact lotterySearch_member (t := { t with next := next }) held
      (show 0 + items.length ≤ items.length by omega) (by rintro r ⟨⟩) searched

theorem scheduler_strict (wf : WellFormed t) (ran : scheduler t = .ok (chosen, after)) :
    Strict t chosen := by
  obtain ⟨queues, lists⟩ := lists_of_well_formed wf
  by_cases drawn : branch t = .lottery
  · have counts := branch_counts t
    rw [drawn] at counts
    rw [scheduler, drawn] at ran
    obtain ⟨⟨p, t'⟩, taken, ends⟩ := bind_eq_ok.mp ran
    cases ends
    have ready := (lists.members 0 p).mp (dispatchLottery_member (lists.held 0) taken)
    refine highest_of_empty lists ready fun q' above => ?_
    rcases (show ∀ q : Fin NUMFILAS, 0 < q → q = 1 ∨ q = 2 ∨ q = 3 by decide) q' above
      with rfl | rfl | rfl
    · exact counts.2.2.1
    · exact counts.2.1
    · exact counts.1
  · obtain ⟨chosen', after', ran', effect⟩ := scheduler_takes lists drawn
    cases ran.symm.trans ran'
    cases chosen with
    | some p =>
      obtain ⟨q, position, ready, _, _, empty⟩ := effect
      exact highest_of_empty lists ready empty
    | none =>
      intro r runnable
      obtain ⟨q, _, counted⟩ := counted_of_runnable lists runnable
      exact absurd (effect.2 q) (not_le.mpr counted)

theorem scheduler_returns (wf : WellFormed t)
    (nonneg : ∀ p, (t.proc p).state = .runnable → 0 ≤ (t.proc p).tickets) :
    ∃ chosen after, scheduler t = .ok (chosen, after) := by
  obtain ⟨queues, lists⟩ := lists_of_well_formed wf
  by_cases drawn : branch t = .lottery
  · have waiting : (queues 0) ≠ [] := by
      intro empty
      have counts := branch_counts t
      have counted := (lists.held 0).counted
      rw [drawn] at counts
      rw [empty, List.length_nil] at counted
      omega
    have standing : Lottery.Standing t (queues 0) :=
      ⟨lists.held 0, waiting, fun p member => ((lists.members 0 p).mp member).1⟩
    obtain ⟨i, inside, after, _, ran, _⟩ := Lottery.dispatchLottery_spec standing
      fun p member => nonneg p (standing.runnable p member)
    refine ⟨some (queues 0)[i], after, ?_⟩
    rw [scheduler, drawn]
    rw [ran]
    rfl
  · obtain ⟨chosen, after, ran, _⟩ := scheduler_takes lists drawn
    exact ⟨chosen, after, ran⟩

/-! ## The accesses of the table -/

/-- One access of the process table: a section that changes one slot, or one turn of the
loop of a section that goes over the slots. -/
inductive Access where
  | allocproc (ticks : Int)
  | forkCopy (curproc np : ProcId)
  | forkEnter (np : ProcId)
  | forkAbandon (np : ProcId)
  | yield (p : ProcId)
  | sleep (p : ProcId) (chan : Chan)
  | sleepResume (p : ProcId)
  | wakeOne (chan : Chan) (p : ProcId)
  | kill (pid : Int)
  | adopt (curproc p : ProcId)
  | zombie (p : ProcId)
  | wait (p : ProcId)
  | wait2 (p : ProcId)
  | changePrio (p : ProcId) (wanted : Int)
  | changePrioTail (p : ProcId) (wanted : Int)
  | updateClock
  | promoteOne (p : ProcId)
  | scheduler
  deriving DecidableEq

def Access.run (t : PTable) : Access → Checked PTable
  | .allocproc ticks => .ok (ProcTable.allocproc ticks t).2
  | .forkCopy curproc np => .ok (ProcTable.forkCopy t curproc np)
  | .forkEnter np => ProcTable.forkEnter t np
  | .forkAbandon np => .ok (ProcTable.forkAbandon t np)
  | .yield p => ProcTable.yield t p
  | .sleep p chan => .ok (ProcTable.sleep t p chan)
  | .sleepResume p => .ok (ProcTable.sleepResume t p)
  | .wakeOne chan p => ProcTable.wakeOne chan t p
  | .kill pid => do let (_, t) ← ProcTable.kill t pid; return t
  -- the two accesses of `exit` besides its wakeups
  | .adopt curproc p =>
    .ok (if (t.proc p).parent = some curproc then
      t.setProc p fun proc => { proc with parent := t.initproc } else t)
  | .zombie p => .ok (t.setState p .zombie)
  | .wait p => .ok (ProcTable.wait t p).2
  | .wait2 p => .ok (ProcTable.wait2 t p).2
  | .changePrio p wanted => .ok (changePrioSet t p wanted)
  | .changePrioTail p wanted => do let (_, t) ← ProcTable.changePrioTail t p wanted; return t
  | .updateClock => .ok (ProcTable.updateClock t)
  | .promoteOne p => ProcTable.promoteOne t p
  | .scheduler => do let (_, t) ← ProcTable.scheduler t; return t

/-- Who makes the access: calls that act on `myproc()` are made by a RUNNING process, and
`fork` works on an EMBRYO. -/
def Access.Starts (t : PTable) : Access → Prop
  | .forkCopy _ np | .forkEnter np | .forkAbandon np => (t.proc np).state = .embryo
  | .yield p | .sleep p _ | .zombie p | .wait p | .wait2 p | .changePrioTail p _ =>
    (t.proc p).state = .running
  | .changePrio p wanted => (t.proc p).state = .running ∧ prioAccepted wanted
  | _ => True

/-- The access is not a scheduler pass by the lottery branch. -/
def NoLottery (t : PTable) : Access → Prop
  | .scheduler => branch t ≠ .lottery
  | _ => True

/-- The accesses in any order, from the table `userinit` leaves. -/
def accesses : System PTable Access where
  Init t := Dispatch.userinit = .ok t
  Enabled t a := a.Starts t
  perform t a := a.run t

/-! ## What an access does to the queues -/

/-- The invariant of the table that the accesses keep. -/
structure Sound (t : PTable) : Prop where
  pids : DistinctPids t
  fresh : ∀ p, Live (t.proc p).state → (t.proc p).pid < t.nextpid
  ranged : ∀ p, 0 ≤ (t.proc p).priority ∧ (t.proc p).priority ≤ 3

theorem Sound.of_inv {s : Dispatch.Machine n} (inv : Dispatch.Inv s) : Sound s.table :=
  ⟨inv.pids, inv.fresh, inv.ranged⟩

theorem Sound.safe (sound : Sound t) (safe : Dispatch.Safe t after gone) : Sound after :=
  ⟨safe.pids sound.pids, safe.fresh sound.fresh, safe.ranged sound.ranged⟩

/-- The four things an access can do to the queues. -/
inductive Moved (queues : Queues) : Access → Queues → Prop where
  | stays : Moved queues a queues
  | enters (absent : p ∉ queues q) :
      Moved queues a (update queues q (queues q ++ [p]))
  | dispatched (here : (queues q)[position]? = some p) (front : q ≠ 2 → position = 0) :
      Moved queues .scheduler (update queues q ((queues q).eraseIdx position))
  | promoted {nova q : Fin NUMFILAS} {p : ProcId} (above : nova.val = q.val + 1)
      (member : p ∈ queues q) (absent : p ∉ queues nova) :
      Moved queues (.promoteOne p) (update
        (update queues q ((queues q).erase p)) nova (queues nova ++ [p]))

theorem Moved.advances (moved : Moved queues a queues') (q : Fin NUMFILAS) :
    ∃ kept new, queues' q = kept ++ new ∧ kept.Sublist (queues q) ∧
      (new = [] ∨ ∃ p, new = [p] ∧ p ∉ queues q) := by
  cases moved with
  | stays => exact ⟨queues q, [], by simp, List.Sublist.refl _, .inl rfl⟩
  | @enters q' p _ absent =>
    by_cases same : q = q'
    · subst same
      exact ⟨queues q, [p], by simp, List.Sublist.refl _, .inr ⟨p, rfl, absent⟩⟩
    · exact ⟨queues q, [], by simp [same], List.Sublist.refl _, .inl rfl⟩
  | @dispatched q' position p here front =>
    by_cases same : q = q'
    · subst same
      exact ⟨(queues q).eraseIdx position, [], by simp, List.eraseIdx_sublist _ _, .inl rfl⟩
    · exact ⟨queues q, [], by simp [same], List.Sublist.refl _, .inl rfl⟩
  | @promoted nova q' p above member absent =>
    by_cases top : q = nova
    · subst top
      exact ⟨queues q, [p], by simp, List.Sublist.refl _, .inr ⟨p, rfl, absent⟩⟩
    · by_cases same : q = q'
      · subst same
        exact ⟨(queues q).erase p, [], by simp [top], List.erase_sublist, .inl rfl⟩
      · exact ⟨queues q, [], by simp [top, same], List.Sublist.refl _, .inl rfl⟩

theorem Sound.set {slot : Proc} (sound : Sound t)
    (slots : after.proc = update t.proc p slot) (later : t.nextpid ≤ after.nextpid)
    (identity : Live slot.state → (Live (t.proc p).state ∧ slot.pid = (t.proc p).pid) ∨
      (slot.pid = t.nextpid ∧ t.nextpid < after.nextpid))
    (range : 0 ≤ slot.priority ∧ slot.priority ≤ 3) : Sound after := by
  -- a live slot has the pid it had, or the one just handed out
  have known : ∀ r, Live (after.proc r).state →
      (Live (t.proc r).state ∧ (after.proc r).pid = (t.proc r).pid) ∨
        (r = p ∧ (after.proc r).pid = t.nextpid ∧ t.nextpid < after.nextpid) := by
    intro r live
    rw [slots] at live ⊢
    by_cases same : r = p
    · subst same
      rw [update_self] at live ⊢
      exact (identity live).imp id fun fresh => ⟨rfl, fresh⟩
    · rw [update_of_ne same] at live ⊢
      exact .inl ⟨live, rfl⟩
  refine ⟨fun r r' live live' same => ?_, fun r live => ?_, fun r => ?_⟩
  · rcases known r live with ⟨old, pid⟩ | ⟨rfl, pid, _⟩ <;>
      rcases known r' live' with ⟨old', pid'⟩ | ⟨rfl, pid', _⟩
    · exact sound.pids r r' old old' (by rw [← pid, ← pid', same])
    · have below := sound.fresh r old
      omega
    · have below := sound.fresh r' old'
      omega
    · rfl
  · rcases known r live with ⟨old, pid⟩ | ⟨_, pid, next⟩
    · have below := sound.fresh r old
      omega
    · omega
  · rw [slots]
    by_cases same : r = p
    · subst same
      simpa using range
    · rw [update_of_ne same]
      exact sound.ranged r

theorem Sound.allocated (sound : Sound t) (lists : Lists t queues) (ticks : Int) :
    Lists (allocproc ticks t).2 queues ∧ Sound (allocproc ticks t).2 := by
  unfold allocproc
  split
  · exact ⟨lists, sound⟩
  · rename_i p found
    have unused : (t.proc p).state = .unused := by simpa using List.find?_some found
    have kept := lists.setProc (p := p) (f := embryoSlot t.nextpid ticks)
      (by rw [unused]; simp) (by simp [embryoSlot]) (fun _ => sound.ranged p)
    refine ⟨⟨kept.held, kept.distinct, kept.members, kept.ranged⟩,
      sound.set rfl (by simp only; omega) (fun _ => .inr ⟨rfl, by simp only; omega⟩)
        (sound.ranged p)⟩

section
variable (lists : Lists t queues) (sound : Sound t)
include lists sound

theorem makeReady_moves
    (idle : (t.proc p).state ≠ .runnable) (live : Live (t.proc p).state) (a : Access) :
    ∃ after queues', makeReady t p = .ok after ∧ Lists after queues' ∧ Sound after ∧
      Moved queues a queues' := by
  obtain ⟨q, priority⟩ := queue_of_priority (sound.ranged p)
  obtain ⟨after, ran, kept, globals, slots⟩ := makeReady_appends lists idle priority
  exact ⟨after, _, ran, kept, sound.set slots globals.nextpid.ge
    (fun _ => .inl ⟨live, rfl⟩) (sound.ranged p),
    .enters fun member => idle ((lists.members q p).mp member).1⟩

theorem setProc_moves {f : Proc → Proc}
    (before : (t.proc p).state ≠ .runnable) (after : (f (t.proc p)).state ≠ .runnable)
    (identity : Live (f (t.proc p)).state →
      Live (t.proc p).state ∧ (f (t.proc p)).pid = (t.proc p).pid)
    (range : 0 ≤ (f (t.proc p)).priority ∧ (f (t.proc p)).priority ≤ 3) (a : Access) :
    ∃ queues', Lists (t.setProc p f) queues' ∧ Sound (t.setProc p f) ∧ Moved queues a queues' :=
  ⟨queues, lists.setProc before after fun _ => range,
    sound.set rfl le_rfl (fun live => .inl (identity live)) range, .stays⟩

theorem setFields_moves {f : Proc → Proc}
    (state : (f (t.proc p)).state = (t.proc p).state) (pid : (f (t.proc p)).pid = (t.proc p).pid)
    (priority : (f (t.proc p)).priority = (t.proc p).priority) (a : Access) :
    ∃ queues', Lists (t.setProc p f) queues' ∧ Sound (t.setProc p f) ∧ Moved queues a queues' :=
  ⟨queues, lists.setFields state priority,
    sound.set rfl le_rfl (fun live => .inl ⟨state ▸ live, pid⟩)
      (priority ▸ sound.ranged p), .stays⟩

theorem sleep_moves (running : (t.proc p).state = .running) (chan : Chan) (a : Access) :
    ∃ queues', Lists (sleep t p chan) queues' ∧ Sound (sleep t p chan) ∧ Moved queues a queues' := by
  refine setProc_moves lists sound (by rw [running]; simp) ?_ ?_ (sound.ranged p) a
  · simp
  · exact fun _ => ⟨by rw [Live, running]; simp, rfl⟩

end

theorem waitPass_moves (clear : Proc → Proc) (report : Proc → α) (lists : Lists t queues)
    (sound : Sound t) (running : (t.proc p).state = .running)
    (frees : ∀ proc, (clear proc).state = .unused)
    (priority : ∀ proc, (clear proc).priority = proc.priority) (a : Access) :
    ∃ queues', Lists (waitPass clear report t p).2 queues' ∧
      Sound (waitPass clear report t p).2 ∧ Moved queues a queues' := by
  rcases waitPass_outcome clear report t p with ⟨r, _, zombie, ends⟩ | ⟨_, ends⟩ | ⟨_, ends⟩
  · rw [ends]
    exact setProc_moves lists sound (by rw [zombie]; simp) (by rw [frees]; simp)
      (fun live => absurd (frees _) live) (by rw [priority]; exact sound.ranged r) a
  · rw [ends]
    exact ⟨queues, lists, sound, .stays⟩
  · rw [ends]
    exact sleep_moves lists sound running _ a

theorem access_moves (lists : Lists t queues) (sound : Sound t) (starts : a.Starts t)
    (allowed : NoLottery t a) : ∃ after, a.run t = .ok after ∧ ∃ queues', Lists after queues' ∧
      Sound after ∧ Moved queues a queues' := by
  cases a with
  | allocproc ticks =>
    obtain ⟨kept, still⟩ := sound.allocated lists ticks
    exact ⟨_, rfl, queues, kept, still, .stays⟩
  | forkCopy curproc np => exact ⟨_, rfl, setFields_moves lists sound rfl rfl rfl _⟩
  | forkEnter np =>
    have embryo : (t.proc np).state = .embryo := starts
    obtain ⟨after, ran, kept, globals, slots⟩ := enterReady_spec lists embryo
    refine ⟨after, ran, _, kept, sound.set slots globals.nextpid.ge
      (fun _ => .inl ⟨by rw [Live, embryo]; simp, rfl⟩) (by simp [ PRIO]),
      .enters fun member => ?_⟩
    have ready := ((lists.members 1 np).mp member).1
    rw [embryo] at ready
    cases ready
  | forkAbandon np =>
    have embryo : (t.proc np).state = .embryo := starts
    exact ⟨_, rfl, setProc_moves (f := fun proc => { proc with state := .unused }) lists sound
      (by rw [embryo]; simp) (by simp) (fun live => absurd rfl live) (sound.ranged np) _⟩
  | yield p =>
    have running : (t.proc p).state = .running := starts
    obtain ⟨after, queues', ran, effect⟩ := makeReady_moves lists sound (p := p)
      (by rw [running]; simp) (by rw [Live, running]; simp) (.yield p)
    exact ⟨after, ran, queues', effect⟩
  | sleep p chan => exact ⟨_, rfl, sleep_moves lists sound starts chan _⟩
  | sleepResume p => exact ⟨_, rfl, setFields_moves lists sound rfl rfl rfl _⟩
  | wakeOne chan p =>
    simp only [Access.run, ProcTable.wakeOne]
    split
    · rename_i asleep
      obtain ⟨after, queues', ran, effect⟩ := makeReady_moves lists sound (p := p)
        (by rw [asleep.1]; simp) (by rw [Live, asleep.1]; simp) (.wakeOne chan p)
      exact ⟨after, ran, queues', effect⟩
    · exact ⟨t, rfl, queues, lists, sound, .stays⟩
  | kill pid =>
    simp only [Access.run, ProcTable.kill]
    split
    · exact ⟨t, rfl, queues, lists, sound, .stays⟩
    · rename_i p _
      have marked : Lists (t.setProc p fun proc => { proc with killed := true }) queues :=
        lists.setFields rfl rfl
      have still : Sound (t.setProc p fun proc => { proc with killed := true }) :=
        sound.set rfl le_rfl (fun live => .inl ⟨live, rfl⟩) (sound.ranged p)
      split
      · rename_i asleep
        obtain ⟨after, queues', ran, effect⟩ := makeReady_moves marked still
          (by rw [asleep]; simp) (by rw [Live, asleep]; simp) (.kill pid)
        exact ⟨after, by simp [ran], queues', effect⟩
      · exact ⟨_, rfl, queues, marked, still, .stays⟩
  | adopt curproc p =>
    refine ⟨_, rfl, ?_⟩
    split
    · exact setFields_moves lists sound rfl rfl rfl _
    · exact ⟨queues, lists, sound, .stays⟩
  | zombie p =>
    have running : (t.proc p).state = .running := starts
    exact ⟨_, rfl, setProc_moves lists sound (by rw [running]; simp) (by simp)
      (fun _ => ⟨by rw [Live, running]; simp, rfl⟩) (sound.ranged p) _⟩
  | wait p =>
    exact ⟨_, rfl, waitPass_moves waitClear _ lists sound starts (fun _ => rfl) (fun _ => rfl) _⟩
  | wait2 p =>
    exact ⟨_, rfl, waitPass_moves wait2Clear _ lists sound starts (fun _ => rfl) (fun _ => rfl) _⟩
  | changePrio p wanted =>
    obtain ⟨running, accepted⟩ := starts
    unfold prioAccepted at accepted
    exact ⟨_, rfl, setProc_moves lists sound (by rw [running]; simp) (by simp [running])
      (fun _ => ⟨by rw [Live, running]; simp, rfl⟩) (by simp only; omega) _⟩
  | changePrioTail p wanted =>
    refine ⟨t, ?_, queues, lists, sound, .stays⟩
    simp [Access.run, changePrioTail_skips starts]
  | updateClock =>
    exact ⟨_, rfl, queues, updateClock_keeps lists,
      sound.safe (Dispatch.safe_updateClock lists), .stays⟩
  | promoteOne p =>
    obtain ⟨after, queues', ran, kept, same, moved⟩ := promoteOne_spec lists sound.pids p
    refine ⟨after, ran, queues', kept, sound.safe (Dispatch.safe_of_identity kept same), ?_⟩
    rcases moved with rfl | ⟨q, nova, above, ready, rfl⟩
    · exact .stays
    · refine .promoted above ((lists.members q p).mpr ready) fun member => ?_
      have other := ((lists.members nova p).mp member).2
      rw [ready.2] at other
      omega
  | scheduler =>
    obtain ⟨chosen, after, ran, effect⟩ := scheduler_takes lists allowed
    refine ⟨after, by simp [Access.run, ran], ?_⟩
    cases chosen with
    | none =>
      obtain ⟨rfl, _⟩ := effect
      exact ⟨queues, lists, sound, .stays⟩
    | some p =>
      obtain ⟨q, position, ready, takes, front, _⟩ := effect
      exact ⟨_, takes.lists, sound.set takes.slots takes.globals.nextpid.ge
        (fun _ => .inl ⟨by rw [Live, ready.1]; simp, rfl⟩) (sound.ranged p),
        .dispatched takes.here front⟩

theorem access_leaves (lists : Lists t queues) (allowed : NoLottery t a)
    (ran : a.run t = .ok after) (kept : Lists after queues') (moved : Moved queues a queues')
    (before : ReadyFor (t.proc p) q) (gone : ¬ ReadyFor (after.proc p) q) :
    (a = .scheduler ∧ scheduler t = .ok (some p, after)) ∨
      (a = .promoteOne p ∧ ∃ nova : Fin NUMFILAS, nova.val = q.val + 1 ∧
        ReadyFor (after.proc p) nova) := by
  have member : p ∈ queues q := (lists.members q p).mpr before
  have absent : p ∉ queues' q := fun inside => gone ((kept.members q p).mp inside)
  cases moved with
  | stays => exact absurd member absent
  | @enters q' r _ _ =>
    refine absurd ?_ absent
    by_cases same : q = q'
    · subst same
      simp [member]
    · simpa [same] using member
  | dispatched here front =>
    obtain ⟨⟨chosen, t'⟩, passed, ends⟩ := bind_eq_ok.mp ran
    cases ends
    obtain ⟨chosen', after', ran', effect⟩ := scheduler_takes lists allowed
    cases passed.symm.trans ran'
    cases chosen with
    | none =>
      obtain ⟨rfl, _⟩ := effect
      exact absurd before gone
    | some r =>
      obtain ⟨_, _, _, takes, _⟩ := effect
      by_cases same : p = r
      · subst same
        exact .inl ⟨rfl, passed⟩
      · rw [takes.slots, update_of_ne same] at gone
        exact absurd before gone
  | @promoted nova q' r above inside _ =>
    by_cases same : p = r
    · subst same
      have level := ((lists.members q' p).mp inside).2
      rw [before.2] at level
      exact .inr ⟨rfl, nova, by omega, (kept.members nova p).mp (by simp)⟩
    · refine absurd ?_ absent
      by_cases top : q = nova
      · subst top
        simp [member]
      · by_cases old : q = q'
        · subst old
          simpa [top, (lists.distinct q).mem_erase_iff, same] using member
        · simpa [top, old] using member

/-! ## The order of entry -/

/-- The record of a run: how many accesses there were, and which of them put a process
into a queue last. -/
structure Entries where
  now : Nat
  since : Fin NUMFILAS → ProcId → Nat

def note (t : PTable) (_ : Access) (after : PTable) (e : Entries) : Entries where
  now := e.now + 1
  since q p :=
    if ReadyFor (after.proc p) q ∧ ¬ ReadyFor (t.proc p) q then e.now else e.since q p

/-- The accesses with the record of entries; at the start there is one process. -/
def recorded : System (PTable × Entries) Access :=
  accesses.watch (fun _ => ⟨1, fun _ _ => 0⟩) note

/-- The queue lists its members in the order in which they entered it. -/
structure Stamped (since : ProcId → Nat) (now : Nat) (items : List ProcId) : Prop where
  ordered : items.Pairwise fun p r => since p < since r
  past : ∀ p ∈ items, since p < now

structure Ordered (s : PTable × Entries) : Prop where
  sound : Sound s.1
  stamped : ∃ queues, Lists s.1 queues ∧ ∀ q, Stamped (s.2.since q) s.2.now (queues q)

theorem Stamped.extend (stamped : Stamped since now items)
    (kept : List.Sublist left items) (late : new = [] ∨ ∃ p, new = [p] ∧ since' p = now)
    (same : ∀ p ∈ left, since' p = since p) : Stamped since' (now + 1) (left ++ new) := by
  have old : left.Pairwise fun p r => since' p < since' r := by
    refine (stamped.ordered.sublist kept).imp_of_mem fun here there earlier => ?_
    rwa [same _ here, same _ there]
  have past : ∀ p ∈ left, since' p < now := by
    intro p member
    rw [same p member]
    exact stamped.past p (kept.subset member)
  rcases late with rfl | ⟨r, rfl, stamp⟩
  · rw [List.append_nil]
    exact ⟨old, fun p member => (past p member).trans (Nat.lt_succ_self _)⟩
  · refine ⟨List.pairwise_append.mpr ⟨old, List.pairwise_singleton _ _, fun p member r' last => ?_⟩,
      fun p member => ?_⟩
    · rw [List.mem_singleton.mp last, stamp]
      exact past p member
    · rcases List.mem_append.mp member with first | last
      · exact (past p first).trans (Nat.lt_succ_self _)
      · rw [List.mem_singleton.mp last, stamp]
        exact Nat.lt_succ_self _

theorem Ordered.step (ordered : Ordered s) (starts : a.Starts s.1) (allowed : NoLottery s.1 a)
    (ran : recorded.perform s a = .ok after) : Ordered after := by
  obtain ⟨stepped, noted⟩ := System.watch_perform ran
  obtain ⟨queues, lists, stamped⟩ := ordered.stamped
  obtain ⟨t, ran', queues', kept, sound, moved⟩ := access_moves lists ordered.sound starts allowed
  cases (show a.run s.1 = .ok after.1 from stepped).symm.trans ran'
  refine ⟨sound, queues', kept, fun q => ?_⟩
  obtain ⟨left, new, split, sub, late⟩ := moved.advances q
  have stamp : ∀ p, p ∈ queues' q → p ∉ queues q → after.2.since q p = s.2.now := by
    intro p here before
    rw [noted]
    exact if_pos ⟨(kept.members q p).mp here, fun ready => before ((lists.members q p).mpr ready)⟩
  rw [split, show after.2.now = s.2.now + 1 by rw [noted]; rfl]
  refine (stamped q).extend sub (late.imp id ?_) fun p member => ?_
  · rintro ⟨p, rfl, absent⟩
    exact ⟨p, rfl, stamp p (by rw [split]; simp) absent⟩
  · rw [noted]
    refine if_neg fun entered => entered.2 ?_
    exact (lists.members q p).mp (sub.subset member)

theorem userinit_lists (left : Dispatch.userinit = .ok t) :
    Sound t ∧ ∃ queues, Lists t queues ∧ ∀ q, (queues q).length ≤ 1 := by
  obtain ⟨t', left', inv⟩ := Dispatch.userinit_spec
  cases left.symm.trans left'
  obtain ⟨queues, lists⟩ := (inv 0).lists
  refine ⟨Sound.of_inv (inv 0), queues, lists, fun q => ?_⟩
  have alone : ∀ p, (Dispatch.initTable.proc p).state = .runnable → p = 0 := by decide +kernel
  rw [Dispatch.initTable, left] at alone
  have only : queues q ⊆ [0] := fun p member =>
    List.mem_singleton.mpr (alone p ((lists.members q p).mp member).1)
  exact (List.subperm_of_subset (lists.distinct q) only).length_le

theorem run_ordered (run : recorded.Run (fun s a => NoLottery s.1 a) s) : Ordered s := by
  apply run.invariant
  · rintro s ⟨left, noted⟩
    obtain ⟨sound, queues, lists, short⟩ := userinit_lists left
    refine ⟨sound, queues, lists, fun q => ?_⟩
    rw [noted]
    refine ⟨?_, fun p _ => Nat.zero_lt_one⟩
    match queues q, short q with
    | [], _ => exact List.Pairwise.nil
    | [p], _ => exact List.pairwise_singleton _ _
  · intro s a after ordered starts allowed ran
    exact ordered.step starts allowed ran

theorem first_in_first_out (ordered : Ordered s) (allowed : branch s.1 ≠ .lottery)
    (queue : q = 3 ∨ q = 1) (ready : ReadyFor (s.1.proc r) q)
    (ran : scheduler s.1 = .ok (some r, after)) (other : ReadyFor (s.1.proc p) q) :
    s.2.since q r ≤ s.2.since q p := by
  obtain ⟨queues, lists, stamped⟩ := ordered.stamped
  obtain ⟨chosen, after', ran', effect⟩ := scheduler_takes lists allowed
  cases ran.symm.trans ran'
  obtain ⟨q', position, level, takes, front, _⟩ := effect
  obtain rfl : q = q' := by
    have same := ready.2.symm.trans level.2
    exact Fin.ext (by exact_mod_cast same)
  obtain rfl : position = 0 := front (by rcases queue with rfl | rfl <;> decide)
  have member : p ∈ queues q := (lists.members q p).mpr other
  have head := takes.here
  have order := (stamped q).ordered
  match queues q, head, member, order with
  | r :: rest, rfl, member, order =>
    rcases List.mem_cons.mp member with rfl | later
    · exact le_rfl
    · exact ((List.pairwise_cons.mp order).1 p later).le

theorem stamps_differ (ordered : Ordered s) (first : ReadyFor (s.1.proc p) q)
    (second : ReadyFor (s.1.proc r) q) (other : p ≠ r) : s.2.since q p ≠ s.2.since q r := by
  obtain ⟨queues, lists, stamped⟩ := ordered.stamped
  have apart : (queues q).Pairwise fun p r => s.2.since q p ≠ s.2.since q r :=
    (stamped q).ordered.imp fun earlier => earlier.ne
  have symmetric : Std.Symm fun p r => s.2.since q p ≠ s.2.since q r :=
    ⟨fun _ _ differ => differ.symm⟩
  exact apart.forall ((lists.members q p).mpr first) ((lists.members q r).mpr second) other

/-- Strict priority, and first-in first-out order. On every well-formed table a pass takes
a process of the greatest priority among the RUNNABLE ones, finds nothing only when there
is none, and ends unless a ticket count is negative. In every run of accesses from
`userinit` without lottery passes, two processes in a queue entered it at different
times, and while the earlier of two is in queue 3 or 1 the later is not dispatched from
it; the earlier one leaves queue 3 only by its dispatch and queue 1 only by its dispatch
or its promotion to queue 2. -/
theorem strict_priority_first_in_first_out :
    (∀ t chosen after, WellFormed t → scheduler t = .ok (chosen, after) → Strict t chosen) ∧
    (∀ t, WellFormed t → (∀ p, (t.proc p).state = .runnable → 0 ≤ (t.proc p).tickets) →
      ∃ chosen after, scheduler t = .ok (chosen, after)) ∧
    ∀ t entries, recorded.Run (fun s a => NoLottery s.1 a) (t, entries) →
      ∀ q p r, q = 3 ∨ q = 1 → ReadyFor (t.proc p) q → ReadyFor (t.proc r) q → p ≠ r →
        entries.since q p ≠ entries.since q r ∧
        (entries.since q p < entries.since q r →
          ∀ a after, a.Starts t → NoLottery t a → a.run t = .ok after →
            (a = .scheduler → scheduler t ≠ .ok (some r, after)) ∧
            (¬ ReadyFor (after.proc p) q →
              (a = .scheduler ∧ scheduler t = .ok (some p, after)) ∨
              (q = 1 ∧ a = .promoteOne p ∧ ReadyFor (after.proc p) 2))) := by
  refine ⟨fun t chosen after wf ran => scheduler_strict wf ran,
    fun t wf nonneg => scheduler_returns wf nonneg, ?_⟩
  intro t entries run q p r queue here there other
  have ordered := run_ordered run
  refine ⟨stamps_differ ordered here there other, fun earlier a after starts allowed ran =>
    ⟨?_, fun gone => ?_⟩⟩
  · rintro rfl passed
    exact absurd (first_in_first_out ordered allowed queue there passed here) (not_le.mpr earlier)
  · obtain ⟨queues, lists, _⟩ := ordered.stamped
    obtain ⟨after', ran', queues', kept, _, moved⟩ :=
      access_moves lists ordered.sound starts allowed
    cases ran.symm.trans ran'
    refine (access_leaves lists allowed ran kept moved here gone).imp id ?_
    rintro ⟨rfl, nova, above, ready⟩
    -- queue 3 has no queue above it
    rcases queue with rfl | rfl
    · exact absurd nova.isLt (by rw [above]; decide)
    · exact ⟨rfl, rfl, by rwa [show nova = 2 from Fin.ext above] at ready⟩

instance : Decidable (Access.Starts t a) := by
  unfold Access.Starts
  split <;> infer_instance

instance : Decidable (NoLottery t a) := by
  unfold NoLottery
  split <;> infer_instance

instance : Decidable (recorded.Enabled s a) := inferInstanceAs (Decidable (Access.Starts _ _))

/-- init forks and yields: its child entered queue 1 before it, so the next pass does not
take init. -/
theorem strict_priority_first_in_first_out_forked :
    ∃ t entries, recorded.Run (fun s a => NoLottery s.1 a) (t, entries) ∧
      ReadyFor (t.proc 1) 1 ∧ ReadyFor (t.proc 0) 1 ∧
      entries.since 1 1 < entries.since 1 0 ∧ ∀ after, scheduler t ≠ .ok (some 0, after) := by
  obtain ⟨t, left, _⟩ := Dispatch.userinit_spec
  obtain ⟨⟨t, entries⟩, run, found⟩ := System.exists_run (m := recorded)
    (s := (Dispatch.initTable, ⟨1, fun _ _ => 0⟩)) (fun s a => NoLottery s.1 a)
    ⟨by rw [Dispatch.initTable, left]; exact left, rfl⟩
    [.scheduler, .allocproc 0, .forkCopy 0 1, .forkEnter 1, .yield 0]
    (fun s => decide (ReadyFor (s.1.proc 1) 1 ∧ ReadyFor (s.1.proc 0) 1 ∧
      s.2.since 1 1 < s.2.since 1 0 ∧ NoLottery s.1 .scheduler)) (by decide +kernel)
  obtain ⟨child, init, earlier, drawn⟩ := of_decide_eq_true found
  refine ⟨t, entries, run, child, init, earlier, fun after passed => ?_⟩
  have order := (strict_priority_first_in_first_out.2.2 t entries run 1 1 0 (.inr rfl) child init
    (by decide)).2 earlier .scheduler after trivial drawn (by simp [Access.run, passed])
  exact order.1 rfl passed

/-! ## The machine -/

section
variable (run : accesses.Run NoLottery t)
include run

theorem run_wakeup1 (ran : wakeup1 t chan = .ok after) : accesses.Run NoLottery after :=
  foldlM_keeps _ run (fun p _ _ run turn =>
    run.step (show accesses.Enabled _ (.wakeOne chan p) from trivial) trivial turn) ran

theorem run_passToInit
    (ran : passToInit curproc t p = .ok after) : accesses.Run NoLottery after := by
  have adopted := run.step (show accesses.Enabled t (.adopt curproc p) from trivial) trivial rfl
  unfold passToInit at ran
  split at ran
  · rename_i child
    rw [if_pos child] at adopted
    dsimp only at ran
    split at ran
    · exact run_wakeup1 adopted ran
    · cases ran
      exact adopted
  · cases ran
    exact run

theorem run_exit (lists : Lists t queues)
    (running : (t.proc p).state = .running) (ordinary : t.initproc ≠ some p)
    (ran : ProcTable.exit t p = .ok after) : accesses.Run NoLottery after := by
  rw [ProcTable.exit, if_neg ordinary] at ran
  obtain ⟨first, wakes, ran⟩ := bind_eq_ok.mp ran
  obtain ⟨second, passes, ran⟩ := bind_eq_ok.mp ran
  cases ran
  obtain ⟨first', queues₁, wakes', lists₁, woken⟩ :=
    wakeup1_spec lists (chanOf (t.proc p).parent)
  cases wakes.symm.trans wakes'
  -- the caller is awake, so it is still RUNNING when it becomes a ZOMBIE
  obtain ⟨run₂, _, stirred⟩ := foldlM_keeps
    (fun middle => accesses.Run NoLottery middle ∧ (∃ queues, Lists middle queues) ∧
      Stirred t middle)
    ⟨run_wakeup1 run wakes, ⟨queues₁, lists₁⟩, woken.stirred⟩
    (fun r middle next kept turn => by
      obtain ⟨earlier, ⟨queues, lists⟩, stirred⟩ := kept
      obtain ⟨next', queues', turn', kept, more⟩ := passToInit_spec lists p r
      cases turn.symm.trans turn'
      exact ⟨run_passToInit earlier turn, ⟨queues', kept⟩, stirred.trans more⟩) passes
  have still : (second.proc p).state = .running := by
    rw [stirred.awake (by rw [running]; simp), running]
  exact run₂.step (show accesses.Enabled second (.zombie p) from still) trivial rfl

theorem run_access (a : Access) (starts : a.Starts t)
    (allowed : NoLottery t a) (ran : a.run t = .ok after) : accesses.Run NoLottery after :=
  run.step starts allowed ran

end

theorem waitEnd_table (s : Dispatch.Machine n) (c : Fin n) (p : ProcId) (again : Dispatch.Resume)
    (result : WaitResult α × PTable) : (Dispatch.waitEnd s c p again result).table = result.2 := by
  obtain ⟨result, t⟩ := result
  cases result <;> rfl

/-- The table of every run of the machine without lottery passes is reached by a run of
accesses: each event is one of them, or the turns of its loops one after the other. -/
theorem accesses_of_machine (run : (Dispatch.system n).Run Dispatch.NoLottery s) :
    accesses.Run NoLottery s.table := by
  induction run with
  | start init =>
    obtain ⟨t, left, rfl⟩ := init
    exact .start left
  | @step s e after run enabled allowed ran ih =>
    have inv := Dispatch.run_inv run
    obtain ⟨queues, lists⟩ := inv.lists
    have current : ∀ {c p}, deref (s.cpu c) = .ok p → s.lock = .free →
        (s.table.proc p).state = .running :=
      fun here free => inv.on_cpu (deref_eq_ok here) (by rw [free]; simp)
    have running : ∀ {c p}, deref (s.cpu c) = .ok p → Dispatch.Runs s c →
        (s.table.proc p).state = .running :=
      fun here runs => inv.on_cpu (deref_eq_ok here) runs.2.2
    cases e with
    | scheduler c =>
      obtain ⟨⟨chosen, t⟩, passed, ends⟩ := bind_eq_ok.mp ran
      have stepped := run_access ih .scheduler trivial allowed
        (show Access.run s.table .scheduler = .ok t by simp [Access.run, passed])
      cases chosen <;> cases ends <;> exact stepped
    | enter c =>
      have held : s.lock = .entered c := enabled
      obtain ⟨p, here, ran⟩ := bind_eq_ok.mp ran
      have running := inv.on_cpu (deref_eq_ok here) (by rw [held]; simp)
      have resumed := run_access ih (.sleepResume p) trivial trivial rfl
      have still : ((sleepResume s.table p).proc p).state = .running := by
        simpa [sleepResume, PTable.setProc] using running
      split at ran <;> cases ran
      · exact ih
      · exact resumed
      · rw [waitEnd_table]
        exact run_access resumed (.wait p) still trivial rfl
      · rw [waitEnd_table]
        exact run_access resumed (.wait2 p) still trivial rfl
    | leave c =>
      cases ran
      exact ih
    | yield c =>
      obtain ⟨p, here, ran⟩ := bind_eq_ok.mp ran
      obtain ⟨t, yields, ran⟩ := bind_eq_ok.mp ran
      cases ran
      exact run_access ih (.yield p) (current here enabled.1) trivial yields
    | sleep c chan =>
      obtain ⟨p, here, ran⟩ := bind_eq_ok.mp ran
      cases ran
      exact run_access ih (.sleep p chan) (current here enabled.1) trivial rfl
    | exit c =>
      obtain ⟨p, here, ran⟩ := bind_eq_ok.mp ran
      obtain ⟨t, exits, ran⟩ := bind_eq_ok.mp ran
      cases ran
      refine run_exit ih lists (current here enabled.1) (fun init => enabled.2.2 ?_) exits
      rw [deref_eq_ok here, init]
    | wait c =>
      obtain ⟨p, here, ran⟩ := bind_eq_ok.mp ran
      cases ran
      rw [waitEnd_table]
      exact run_access ih (.wait p) (current here enabled.1) trivial rfl
    | wait2 c =>
      obtain ⟨p, here, ran⟩ := bind_eq_ok.mp ran
      cases ran
      rw [waitEnd_table]
      exact run_access ih (.wait2 p) (current here enabled.1) trivial rfl
    | changePrio c wanted =>
      obtain ⟨p, here, ran⟩ := bind_eq_ok.mp ran
      cases ran
      exact run_access ih (.changePrio p wanted) ⟨running here enabled.1, enabled.2⟩ trivial rfl
    | changePrioTail c wanted =>
      obtain ⟨p, here, ran⟩ := bind_eq_ok.mp ran
      obtain ⟨⟨result, t⟩, tail, ran⟩ := bind_eq_ok.mp ran
      cases ran
      exact run_access ih (.changePrioTail p wanted) (running here enabled) trivial
        (by simp [Access.run, tail])
    | allocproc c ticks =>
      cases ran
      exact run_access ih (.allocproc ticks) trivial trivial rfl
    | forkCopy c np =>
      obtain ⟨p, here, ran⟩ := bind_eq_ok.mp ran
      cases ran
      exact run_access ih (.forkCopy p np) enabled.2 trivial rfl
    | forkEnter c np =>
      obtain ⟨t, enters, ran⟩ := bind_eq_ok.mp ran
      cases ran
      exact run_access ih (.forkEnter np) enabled.2.2 trivial enters
    | forkAbandon c np =>
      cases ran
      exact run_access ih (.forkAbandon np) enabled.2 trivial rfl
    | wakeup chan =>
      obtain ⟨t, wakes, ran⟩ := bind_eq_ok.mp ran
      cases ran
      exact run_wakeup1 ih wakes
    | kill pid =>
      obtain ⟨⟨result, t⟩, kills, ran⟩ := bind_eq_ok.mp ran
      cases ran
      exact run_access ih (.kill pid) trivial trivial (by simp [Access.run, kills])
    | updateClock =>
      cases ran
      exact run_access ih .updateClock trivial trivial rfl
    | upgradePriorityAging =>
      obtain ⟨t, ages, ran⟩ := bind_eq_ok.mp ran
      cases ran
      exact foldlM_keeps _ ih
        (fun p _ _ run turn => run_access run (.promoteOne p) trivial trivial turn) ages

/-- A child of init is dispatched, sleeps, is woken, exits and is reaped. -/
theorem accesses_of_child : ∃ s : Dispatch.Machine 2,
    (Dispatch.system 2).Run Dispatch.NoLottery s ∧ s.table.nextpid = 3 ∧
      (s.table.proc 1).state = .unused ∧ accesses.Run NoLottery s.table := by
  obtain ⟨s, run, allocated, reaped⟩ := System.exists_run Dispatch.NoLottery (Dispatch.boot_init 2)
    (Dispatch.childRuns ++ [.exit 1, .leave 1, .scheduler 0, .enter 0])
    (fun s => s.table.nextpid = 3 ∧ (s.table.proc 1).state = .unused) (by decide +kernel)
  exact ⟨s, run, allocated, reaped, accesses_of_machine run⟩

end Xv6.QueueOrder
