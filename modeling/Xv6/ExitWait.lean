import Xv6.ProcLife

/-! The protocol of `fork`, `exit`, `wait` and `wait2`. Every process other than
init has a living parent, a parent asleep in `wait` has nothing to reap, and a pid
is returned once, to the parent. -/
namespace Xv6.ExitWait
open CheckedC ProcTable ReadyQueues SlotEffects ProcLife StepSystem Function
open Dispatch (Event Machine NoLottery Resume waitEnd)

/-! ## Answers of wait -/

def mapResult (f : α → β) : WaitResult α → WaitResult β
  | .reaped value => .reaped (f value)
  | .failed => .failed
  | .asleep => .asleep

/-- The caller of the `wait` or `wait2` whose scan of the table is the step, and how
the scan ends. -/
def answer (s : Machine n) : Event n → Option (ProcId × WaitResult Int)
  | .wait c => (s.cpu c).map fun p => (p, (wait s.table p).1)
  | .wait2 c => (s.cpu c).map fun p => (p, mapResult (·.pid) (wait2 s.table p).1)
  | .enter c =>
    (s.cpu c).bind fun p =>
      match s.resume p with
      | .waiting => some (p, (wait (sleepResume s.table p) p).1)
      | .waiting2 => some (p, mapResult (·.pid) (wait2 (sleepResume s.table p) p).1)
      | _ => none
  | _ => none

/-- The pids returned so far, the last one first. -/
def collect (s : Kernel n) (e : Event n) (_ : Kernel n) (returned : List Int) : List Int :=
  match answer s.machine e with
  | some (_, .reaped pid) => pid :: returned
  | _ => returned

/-- The kernel with the pids `wait` and `wait2` have returned. -/
def recorded (n : Nat) : System (Kernel n × List Int) (Event n) :=
  (system n).watch (fun _ => []) collect

/-- A scan leaves the slot alone, but for the channel its caller may have tidied up. -/
def Untouched (s : Machine n) (p : ProcId) (cells : ProcId → Proc) (r : ProcId) : Prop :=
  cells r = s.table.proc r ∨ r = p ∧ ∃ chan, cells r = { s.table.proc r with chan := chan }

theorem untouched_tidied (s : Machine n) (p r : ProcId) :
    Untouched s p (sleepResume s.table p).proc r := by
  by_cases here : r = p
  · subst here
    exact .inr ⟨rfl, .null, by simp [sleepResume, PTable.setProc]⟩
  · exact .inl (by simp [sleepResume, PTable.setProc, here])

theorem Untouched.fields {s : Machine n} (same : Untouched s p cells r) :
    (cells r).parent = (s.table.proc r).parent ∧ (cells r).state = (s.table.proc r).state ∧
      (cells r).pid = (s.table.proc r).pid ∧ (cells r).killed = (s.table.proc r).killed := by
  rcases same with equal | ⟨_, chan, equal⟩
  · rw [equal]
    exact ⟨rfl, rfl, rfl, rfl⟩
  · rw [equal]
    exact ⟨rfl, rfl, rfl, rfl⟩

/-- The three ends of a scan: a ZOMBIE child is freed and its pid returned, the
call fails, or the caller sleeps with nothing to reap. -/
inductive Scanned (s : Machine n) (p : ProcId) (cells : ProcId → Proc) : WaitResult Int → Prop where
  | reaped (child : (s.table.proc r).parent = some p) (zombie : (s.table.proc r).state = .zombie)
    (freed : (cells r).state = .unused ∧ (cells r).parent = none)
    (others : ∀ q, q ≠ r → Untouched s p cells q) :
    Scanned s p cells (.reaped (s.table.proc r).pid)
  | failed (reason : (∀ r, (s.table.proc r).parent ≠ some p) ∨ (s.table.proc p).killed = true)
    (others : ∀ q, Untouched s p cells q) : Scanned s p cells .failed
  | asleep (none : ∀ r, (s.table.proc r).parent = some p → (s.table.proc r).state ≠ .zombie)
    (slept : cells p = asleep (.proc p) (s.table.proc p))
    (others : ∀ q, q ≠ p → cells q = s.table.proc q) : Scanned s p cells .asleep

theorem scanned_waitEnd {s : Machine n} {report : Proc → α}
    (found : ∀ r, Untouched s p t.proc r)
    (frees : ∀ proc, (clear proc).state = .unused ∧ (clear proc).parent = none)
    (pid : ∀ proc, f (report proc) = proc.pid) :
    Scanned s p (waitEnd s c p again (waitPass clear report t p)).table.proc
      (mapResult f (waitPass clear report t p).1) := by
  have same := fun r => (found r).fields
  rcases waitPass_outcome clear report t p with ⟨r, child, zombie, ends⟩ | ⟨why, ends⟩ | ⟨none, ends⟩
  · rw [ends]
    rw [(same r).1] at child
    rw [(same r).2.1] at zombie
    have value : mapResult f (.reaped (report (t.proc r))) = .reaped (s.table.proc r).pid := by
      rw [mapResult, pid, (same r).2.2.1]
    rw [value]
    refine .reaped child zombie ?_ fun q other => ?_
    · simpa [waitEnd, PTable.setProc] using frees (t.proc r)
    · simpa [Untouched, waitEnd, PTable.setProc, other] using found q
  · rw [ends]
    refine .failed ?_ found
    rcases why with childless | struck
    · exact .inl fun r child => childless r (by rw [(same r).1]; exact child)
    · exact .inr (by rw [← (same p).2.2.2]; exact struck)
  · rw [ends]
    refine .asleep (fun r child => ?_) ?_ fun q other => ?_
    · rw [← (same r).2.1]
      exact none r (by rw [(same r).1]; exact child)
    · simp only [waitEnd, ProcTable.sleep, PTable.setProc, update_self]
      rcases found p with equal | ⟨_, chan, equal⟩
      · rw [equal]
        rfl
      · rw [equal]
        rfl
    · simp only [waitEnd, ProcTable.sleep, PTable.setProc, update_of_ne other]
      exact (found q).resolve_right fun own => other own.1

theorem mapResult_id (result : WaitResult α) : mapResult (fun value => value) result = result := by
  cases result <;> rfl

theorem scan_outcome {s : Machine n} (ran : Dispatch.perform s e = .ok after)
    (scan : answer s e = some (p, result)) : (∃ c, actor e = some c ∧ s.cpu c = some p) ∧
      Scanned s p after.table.proc result := by
  have waits : ∀ {t : PTable} {c again}, (∀ r, Untouched s p t.proc r) →
      Scanned s p (waitEnd s c p again (wait t p)).table.proc (wait t p).1 := by
    intro t c again found
    have ends : Scanned s p (waitEnd s c p again (wait t p)).table.proc
        (mapResult (fun pid => pid) (wait t p).1) :=
      scanned_waitEnd found (fun _ => ⟨rfl, rfl⟩) (fun _ => rfl)
    rwa [mapResult_id] at ends
  have waits2 : ∀ {t : PTable} {c again}, (∀ r, Untouched s p t.proc r) →
      Scanned s p (waitEnd s c p again (wait2 t p)).table.proc
        (mapResult (·.pid) (wait2 t p).1) := by
    intro t c again found
    exact scanned_waitEnd found (fun _ => ⟨rfl, rfl⟩) (fun _ => rfl)
  cases e with
  | wait c =>
    obtain ⟨q, here, value⟩ := Option.map_eq_some_iff.mp scan
    cases value
    simp only [Dispatch.perform, here, deref, bind_ok, pure_eq_ok, Except.ok.injEq] at ran
    rw [← ran]
    exact ⟨⟨c, rfl, here⟩, waits (fun r => .inl rfl)⟩
  | wait2 c =>
    obtain ⟨q, here, value⟩ := Option.map_eq_some_iff.mp scan
    cases value
    simp only [Dispatch.perform, here, deref, bind_ok, pure_eq_ok, Except.ok.injEq] at ran
    rw [← ran]
    exact ⟨⟨c, rfl, here⟩, waits2 (fun r => .inl rfl)⟩
  | enter c =>
    obtain ⟨q, here, value⟩ := Option.bind_eq_some_iff.mp scan
    simp only [Dispatch.perform, here, deref, bind_ok] at ran
    cases resumed : s.resume q with
    | release =>
      rw [resumed] at value
      cases value
    | slept =>
      rw [resumed] at value
      cases value
    | waiting =>
      simp only [resumed, Option.some.injEq, Prod.mk.injEq] at value
      obtain ⟨rfl, rfl⟩ := value
      simp only [resumed, pure_eq_ok, Except.ok.injEq] at ran
      rw [← ran]
      exact ⟨⟨c, rfl, here⟩, waits (untouched_tidied s q)⟩
    | waiting2 =>
      simp only [resumed, Option.some.injEq, Prod.mk.injEq] at value
      obtain ⟨rfl, rfl⟩ := value
      simp only [resumed, pure_eq_ok, Except.ok.injEq] at ran
      rw [← ran]
      exact ⟨⟨c, rfl, here⟩, waits2 (untouched_tidied s q)⟩
  | _ => cases scan

theorem answer_of_scans {s : Machine n} (scan : Scans s p e) : ∃ result, answer s e = some (p, result) := by
  cases scan with
  | wait here => exact ⟨_, by simp only [answer, here, Option.map_some]; rfl⟩
  | wait2 here => exact ⟨_, by simp only [answer, here, Option.map_some]; rfl⟩
  | again here waiting =>
    rcases waiting with first | second
    · exact ⟨_, by simp only [answer, here, Option.bind_some, first]; rfl⟩
    · exact ⟨_, by simp only [answer, here, Option.bind_some, second]; rfl⟩

/-! ## Parents and children -/

/-- The states of a process from `fork` until it is reaped. -/
def Born (state : ProcState) : Prop := Alive state ∨ state = .zombie

def Forks (stage : Stage) (np : ProcId) : Prop := stage = .allocated np ∨ stage = .copied np

structure Family (s : Kernel n) : Prop where
  init : ∃ i, s.table.initproc = some i ∧ Alive (s.proc i).state ∧ (s.proc i).parent = none
  parents : ∀ p, Born (s.proc p).state → s.table.initproc ≠ some p →
    ∃ q, (s.proc p).parent = some q ∧ Alive (s.proc q).state
  apart : ∀ p, (s.proc p).parent ≠ some p
  free : ∀ p, (s.proc p).state = .unused → (s.proc p).parent = none
  staged : ∀ p, s.stage p ≠ .outside → Alive (s.proc p).state
  allocated : ∀ p np, s.stage p = .allocated np →
    (s.proc np).state = .embryo ∧ (s.proc np).parent = none
  copied : ∀ p np, s.stage p = .copied np →
    (s.proc np).state = .embryo ∧ (s.proc np).parent = some p
  sole : ∀ p q np, Forks (s.stage p) np → Forks (s.stage q) np → p = q
  rested : ∀ p, (s.proc p).state = .sleeping → (s.proc p).chan = .proc p →
    ∀ r, (s.proc r).parent = some p → (s.proc r).state ≠ .zombie

section
variable {s after : Kernel n}

theorem Family.forked (family : Family s) (forks : Forks (s.stage p) np) :
    (s.proc np).state = .embryo := by
  rcases forks with allocated | copied
  · exact (family.allocated p np allocated).1
  · exact (family.copied p np copied).1

theorem Family.unforked (family : Family s) (init : after.table.initproc = s.table.initproc)
    (stage : after.stage = s.stage)
    (alive : ∀ p, s.table.initproc = some p ∨ s.stage p ≠ .outside → Alive (s.proc p).state →
      Alive (after.proc p).state)
    (orphan : ∀ p, Alive (s.proc p).state → (s.proc p).parent = none →
      (after.proc p).parent = none)
    (forked : ∀ p np, Forks (s.stage p) np → (after.proc np).state = (s.proc np).state ∧
      (after.proc np).parent = (s.proc np).parent)
    (parents : ∀ p, Born (after.proc p).state → s.table.initproc ≠ some p →
      ∃ q, (after.proc p).parent = some q ∧ Alive (after.proc q).state)
    (apart : ∀ p, (after.proc p).parent ≠ some p)
    (free : ∀ p, (after.proc p).state = .unused → (after.proc p).parent = none)
    (rested : ∀ p, (after.proc p).state = .sleeping → (after.proc p).chan = .proc p →
      ∀ r, (after.proc r).parent = some p → (after.proc r).state ≠ .zombie) : Family after where
  init := by
    obtain ⟨i, found, living, root⟩ := family.init
    exact ⟨i, init.trans found, alive i (.inl found) living, orphan i living root⟩
  parents p born other := parents p born (init ▸ other)
  apart := apart
  free := free
  staged p busy := by
    rw [stage] at busy
    exact alive p (.inr busy) (family.staged p busy)
  allocated p np at_ := by
    rw [stage] at at_
    rw [(forked p np (.inl at_)).1, (forked p np (.inl at_)).2]
    exact family.allocated p np at_
  copied p np at_ := by
    rw [stage] at at_
    rw [(forked p np (.inr at_)).1, (forked p np (.inr at_)).2]
    exact family.copied p np at_
  sole p q np first second := by
    rw [stage] at first second
    exact family.sole p q np first second
  rested := rested

theorem Family.calm (family : Family s) (init : after.table.initproc = s.table.initproc)
    (stage : after.stage = s.stage) (parent : ∀ p, (after.proc p).parent = (s.proc p).parent)
    (state : ∀ p, (after.proc p).state = (s.proc p).state ∨
      Alive (after.proc p).state ∧ Alive (s.proc p).state)
    (waits : ∀ p, (after.proc p).state = .sleeping → (after.proc p).chan = .proc p →
      ((s.proc p).state = .sleeping ∧ (s.proc p).chan = .proc p) ∨
        ∀ r, (s.proc r).parent = some p → (s.proc r).state ≠ .zombie) : Family after := by
  have alive : ∀ p, Alive (s.proc p).state → Alive (after.proc p).state := by
    intro p before
    rcases state p with same | both
    · rwa [same]
    · exact both.1
  have dead : ∀ p, ¬ Alive (after.proc p).state → (after.proc p).state = (s.proc p).state :=
    fun p gone => (state p).resolve_right fun both => gone both.1
  have still : ∀ p, ¬ Alive (s.proc p).state → (after.proc p).state = (s.proc p).state :=
    fun p gone => (state p).resolve_right fun both => gone both.2
  refine family.unforked init stage (fun p _ => alive p) (fun p _ => (parent p).trans)
    (fun p np forks => ⟨still np (by simp [family.forked forks, Alive]), parent np⟩)
    (fun p born other => ?_) (fun p => ?_) (fun p unused => ?_) fun p asleep chan r child => ?_
  · have before : Born (s.proc p).state := by
      rcases state p with same | both
      · rwa [← same]
      · exact .inl both.2
    obtain ⟨q, found, living⟩ := family.parents p before other
    exact ⟨q, (parent p).trans found, alive q living⟩
  · rw [parent p]
    exact family.apart p
  · rw [parent p]
    refine family.free p ?_
    rw [← dead p (by simp [unused, Alive]), unused]
  · rw [parent r] at child
    intro zombie
    have before : (s.proc r).state = .zombie := by rw [← dead r (by simp [zombie, Alive]), zombie]
    rcases waits p asleep chan with old | none
    · exact family.rested p old.1 old.2 r child before
    · exact none r child before

/-- The steps that neither create, end nor reap a process. -/
def Calm : Event n → Prop
  | .exit _ | .allocproc _ _ | .forkCopy _ _ | .forkEnter _ _ | .forkAbandon _ _ => False
  | _ => True

theorem calm_slot {s : Machine n} (turn : Turn True s p e slot) (calm : Calm e)
    (silent : answer s e = none) (addressed : ∀ c chan, e = .sleep c chan → ∀ q, chan ≠ .proc q) :
    slot.parent = (s.table.proc p).parent ∧
    (slot.state = (s.table.proc p).state ∨ Alive slot.state ∧ Alive (s.table.proc p).state) ∧
    (slot.state = .sleeping → slot.chan = .proc p →
      (s.table.proc p).state = .sleeping ∧ (s.table.proc p).chan = .proc p) := by
  cases turn with
  | kept | prioritized | requeued => exact ⟨rfl, .inl rfl, fun asleep chan => ⟨asleep, chan⟩⟩
  | dispatched ready => exact ⟨rfl, .inr (by simp [Alive, dispatched, ready]), by simp [dispatched]⟩
  | tidied here running =>
    refine ⟨rfl, .inl rfl, fun asleep => ?_⟩
    rw [running trivial] at asleep
    cases asleep
  | yielded here running => exact ⟨rfl, .inr (by simp [Alive, running]), by simp⟩
  | slept here running =>
    refine ⟨rfl, .inr (by simp [Alive, asleep, running]), fun _ chan => ?_⟩
    exact absurd chan (addressed _ _ rfl p)
  | waits scan running =>
    obtain ⟨result, found⟩ := answer_of_scans scan
    rw [silent] at found
    cases found
  | reaped zombie scan cleared =>
    obtain ⟨result, found⟩ := answer_of_scans scan
    rw [silent] at found
    cases found
  | woken sleeping => exact ⟨rfl, .inr (by simp [Alive, sleeping]), by simp⟩
  | struck target =>
    unfold struck
    refine ⟨rfl, ?_, ?_⟩
    · split
      · rename_i sleeping
        exact .inr (by simp [Alive, sleeping])
      · exact .inl rfl
    · split
      · simp
      · exact fun asleep chan => ⟨asleep, chan⟩
  | ticked =>
    rw [tick_parent, tick_state, tick_chan]
    exact ⟨rfl, .inl rfl, fun asleep chan => ⟨asleep, chan⟩⟩
  | promoted =>
    rw [promote_parent, promote_state, promote_chan]
    exact ⟨rfl, .inl rfl, fun asleep chan => ⟨asleep, chan⟩⟩
  | exited | passed | passedWoken | allocated | copied | entered | abandoned => exact calm.elim

theorem Family.scanned (family : Family s)
    (init : after.table.initproc = s.table.initproc) (stage : after.stage = s.stage)
    (running : (s.proc p).state = .running)
    (scan : Scanned s.machine p after.machine.table.proc result) : Family after := by
  have awake : ∀ {r}, Untouched s.machine p after.machine.table.proc r →
      (after.proc r).state = .sleeping → (after.proc r).chan = .proc r →
      (s.proc r).state = .sleeping ∧ (s.proc r).chan = .proc r := by
    intro r same asleep chan
    rcases same with equal | ⟨rfl, _, equal⟩
    · simp only [Kernel.proc, equal] at asleep chan
      exact ⟨asleep, chan⟩
    · simp only [Kernel.proc, equal] at asleep
      rw [Kernel.proc, asleep] at running
      cases running
  cases scan with
  | @reaped r child zombie freed others =>
    have living : ∀ q, Alive (s.proc q).state → q ≠ r := by
      rintro q alive rfl
      simp [Kernel.proc, zombie, Alive] at alive
    have fields := fun q other => (others q other).fields
    have kept : ∀ q, Alive (s.proc q).state → Alive (after.proc q).state := by
      intro q alive
      rw [Kernel.proc, (fields q (living q alive)).2.1]
      exact alive
    have embryo : ∀ np, (s.proc np).state = .embryo → np ≠ r := by
      rintro np new rfl
      rw [Kernel.proc, zombie] at new
      cases new
    refine family.unforked init stage (fun q _ => kept q)
      (fun q alive => (fields q (living q alive)).1.trans) (fun q np forks => ?_)
      (fun q born other => ?_) (fun q => ?_) (fun q unused => ?_) fun q asleep chan r' kid => ?_
    · have same := fields np (embryo np (family.forked forks))
      exact ⟨same.2.1, same.1⟩
    · have apart : q ≠ r := by
        rintro rfl
        rw [Kernel.proc, freed.1] at born
        simp [Born, Alive] at born
      rw [Kernel.proc, (fields q apart).2.1] at born
      obtain ⟨q', found, alive⟩ := family.parents q born other
      exact ⟨q', (fields q apart).1.trans found, kept q' alive⟩
    · by_cases same : q = r
      · subst same
        rw [Kernel.proc, freed.2]
        simp
      · rw [Kernel.proc, (fields q same).1]
        exact family.apart q
    · by_cases same : q = r
      · subst same
        exact freed.2
      · rw [Kernel.proc, (fields q same).2.1] at unused
        exact (fields q same).1.trans (family.free q unused)
    · have apart : q ≠ r := by
        rintro rfl
        rw [Kernel.proc, freed.1] at asleep
        cases asleep
      have apart' : r' ≠ r := by
        rintro rfl
        rw [Kernel.proc, freed.2] at kid
        cases kid
      obtain ⟨before, old⟩ := awake (others q apart) asleep chan
      rw [Kernel.proc, (fields r' apart').1] at kid
      rw [Kernel.proc, (fields r' apart').2.1]
      exact family.rested q before old r' kid
  | failed reason others =>
    exact family.calm init stage (fun q => (others q).fields.1)
      (fun q => .inl (others q).fields.2.1) fun q asleep chan => .inl (awake (others q) asleep chan)
  | asleep none slept others =>
    refine family.calm init stage (fun q => ?_) (fun q => ?_) fun q sleeps chan => ?_
    · by_cases same : q = p
      · subst same
        rw [Kernel.proc, slept]
        rfl
      · rw [Kernel.proc, others q same]
    · by_cases same : q = p
      · subst same
        rw [Kernel.proc, slept]
        exact .inr ⟨by simp [Alive, asleep], by simp [Alive, running]⟩
      · rw [Kernel.proc, others q same]
        exact .inl rfl
    · by_cases same : q = p
      · subst same
        exact .inr none
      · rw [Kernel.proc, others q same] at sleeps chan
        exact .inl ⟨sleeps, chan⟩

theorem Family.exits (family : Family s) (stage : after.stage = s.stage)
    (init : after.table.initproc = s.table.initproc) (running : (s.proc p).state = .running)
    (outside : s.stage p = .outside) (ordinary : s.table.initproc ≠ some p)
    (cells : after.machine.table.proc = update (bereaved s.table p) p
      { bereaved s.table p p with state := .zombie }) : Family after := by
  have others : ∀ q, q ≠ p → after.proc q = bereaved s.table p q := fun q other => by
    rw [Kernel.proc, cells, update_of_ne other]
  have own : after.proc p = { bereaved s.table p p with state := .zombie } := by
    rw [Kernel.proc, cells, update_self]
  have parent : ∀ q, (after.proc q).parent =
      if (s.proc q).parent = some p then s.table.initproc else (s.proc q).parent := by
    intro q
    by_cases here : q = p
    · have unchanged : (after.proc q).parent = (bereaved s.table p q).parent := by rw [here, own]
      rw [unchanged, bereaved_parent]
    · rw [others q here, bereaved_parent]
  have state : ∀ q, q ≠ p → (after.proc q).state = (s.proc q).state ∨
      (s.proc q).state = .sleeping ∧ (after.proc q).state = .runnable := by
    intro q other
    rw [others q other]
    exact bereaved_state s.table p q
  have alive : ∀ q, q ≠ p → Alive (s.proc q).state → Alive (after.proc q).state := by
    intro q other before
    rcases state q other with same | ⟨_, woken⟩
    · rwa [same]
    · simp [woken, Alive]
  have zombie : ∀ q, q ≠ p → (after.proc q).state = .zombie → (s.proc q).state = .zombie := by
    intro q other now
    rcases state q other with same | ⟨_, woken⟩
    · rwa [← same]
    · rw [woken] at now
      cases now
  obtain ⟨i, found, living, orphan⟩ := family.init
  have initial : i ≠ p := by
    rintro rfl
    exact ordinary found
  refine family.unforked init stage (fun q busy => alive q ?_) (fun q _ fresh => ?_)
    (fun q np forks => ⟨?_, ?_⟩) (fun q born other => ?_) (fun q => ?_) (fun q unused => ?_)
    fun q asleep chan r kid => ?_
  · rintro rfl
    exact busy.elim ordinary fun inside => inside outside
  · rw [parent, fresh]
    simp
  · have new := family.forked forks
    refine (state np ?_).resolve_right fun woken => ?_
    · rintro rfl
      rw [running] at new
      cases new
    · rw [new] at woken
      cases woken.1
  · rw [parent, if_neg]
    rcases forks with allocated | copied
    · simp [(family.allocated q np allocated).2]
    · rw [(family.copied q np copied).2]
      rintro ⟨⟩
      rw [outside] at copied
      cases copied
  · have before : Born (s.proc q).state := by
      by_cases here : q = p
      · rw [here, running]
        exact .inl (by simp [Alive])
      · rcases state q here with same | ⟨sleeping, _⟩
        · rwa [← same]
        · rw [sleeping]
          exact .inl (by simp [Alive])
    obtain ⟨r, child, lives⟩ := family.parents q before other
    rw [parent]
    by_cases mine : (s.proc q).parent = some p
    · rw [if_pos mine]
      exact ⟨i, found, alive i initial living⟩
    · rw [if_neg mine]
      refine ⟨r, child, alive r ?_ lives⟩
      rintro rfl
      exact mine child
  · rw [parent]
    by_cases mine : (s.proc q).parent = some p
    · rw [if_pos mine, found]
      intro same
      rw [← Option.some.inj same] at mine
      rw [mine] at orphan
      cases orphan
    · rw [if_neg mine]
      exact family.apart q
  · have other : q ≠ p := by
      rintro rfl
      rw [own] at unused
      cases unused
    have before : (s.proc q).state = .unused := by
      rcases state q other with same | ⟨_, woken⟩
      · rw [← same, unused]
      · rw [woken] at unused
        cases unused
    rw [parent, family.free q before]
    simp
  · intro dead
    have sleeper : q ≠ p := by
      rintro rfl
      rw [own] at asleep
      cases asleep
    rw [others q sleeper] at asleep chan
    obtain ⟨before, same, parentless, uninit⟩ := bereaved_asleep asleep
    rw [same] at chan
    rw [parent] at kid
    by_cases mine : (s.proc r).parent = some p
    · -- an orphan that is a ZOMBIE wakes init
      rw [if_pos mine, found] at kid
      have other : r ≠ p := by
        rintro rfl
        exact family.apart r mine
      have orphaned : Orphaned s.table p slots := ⟨r, mem_slots r, mine, zombie r other dead⟩
      refine uninit orphaned ?_
      rw [chan, found, Option.some.inj kid, chanOf]
    · rw [if_neg mine] at kid
      by_cases here : r = p
      · -- the parent of the exiting process has been woken
        subst here
        refine parentless ?_
        rw [chan, kid, chanOf]
      · exact family.rested q before chan r kid (zombie r here dead)

/-- A step of `fork` by process `p` leaves the slot `np` it works on like this. -/
structure Filled (s after : Kernel n) (p np : ProcId) (new : Stage) (proc : Proc) : Prop where
  running : (s.proc p).state = .running
  init : after.table.initproc = s.table.initproc
  slot : after.proc np = proc
  others : ∀ q, q ≠ np → after.proc q = s.proc q
  stage : after.stage = update s.stage p new

theorem Family.fills (family : Family s) (filled : Filled s after p np new proc)
    (early : ¬ Born (s.proc np).state)
    (unforked : ∀ q, q ≠ p → ¬ Forks (s.stage q) np) (target : ∀ r, Forks new r → r = np)
    (apart : proc.parent ≠ some np)
    (parent : Born proc.state → ∃ q, proc.parent = some q ∧ Alive (s.proc q).state)
    (awake : proc.state ≠ .zombie ∧ proc.state ≠ .sleeping)
    (free : proc.state = .unused → proc.parent = none)
    (allocated : new = .allocated np → proc.state = .embryo ∧ proc.parent = none)
    (copied : new = .copied np → proc.state = .embryo ∧ proc.parent = some p) : Family after := by
  obtain ⟨running, init, slot, others, stage⟩ := filled
  subst slot
  have same : ∀ q, Alive (s.proc q).state → after.proc q = s.proc q := by
    intro q living
    refine others q ?_
    rintro rfl
    exact early (.inl living)
  have alive : ∀ q, Alive (s.proc q).state → Alive (after.proc q).state := by
    intro q living
    rw [same q living]
    exact living
  have busy : ∀ q, q ≠ p → after.stage q = s.stage q := fun q other => by
    rw [stage, update_of_ne other]
  have mine : after.stage p = new := by rw [stage, update_self]
  have forks : ∀ q r, q ≠ p → Forks (s.stage q) r → r ≠ np := by
    rintro q r other found rfl
    exact unforked q other found
  refine ⟨?_, fun q born other => ?_, fun q => ?_, fun q unused => ?_, fun q works => ?_,
    fun q r at_ => ?_, fun q r at_ => ?_, fun q q' r first second => ?_,
    fun q asleep chan r kid => ?_⟩
  · obtain ⟨i, found, living, orphan⟩ := family.init
    refine ⟨i, init.trans found, alive i living, ?_⟩
    rw [same i living]
    exact orphan
  · by_cases here : q = np
    · subst here
      obtain ⟨r, found, living⟩ := parent born
      exact ⟨r, found, alive r living⟩
    · rw [others q here] at born ⊢
      rw [init] at other
      obtain ⟨r, found, living⟩ := family.parents q born other
      exact ⟨r, found, alive r living⟩
  · by_cases here : q = np
    · subst here
      exact apart
    · rw [others q here]
      exact family.apart q
  · by_cases here : q = np
    · subst here
      exact free unused
    · rw [others q here] at unused ⊢
      exact family.free q unused
  · by_cases here : q = p
    · subst here
      exact alive q (by simp [running, Alive])
    · rw [busy q here] at works
      exact alive q (family.staged q works)
  · by_cases here : q = p
    · subst here
      rw [mine] at at_
      have there := target r (.inl at_)
      subst there
      exact allocated at_
    · rw [busy q here] at at_
      rw [others r (forks q r here (.inl at_))]
      exact family.allocated q r at_
  · by_cases here : q = p
    · subst here
      rw [mine] at at_
      have there := target r (.inr at_)
      subst there
      exact copied at_
    · rw [busy q here] at at_
      rw [others r (forks q r here (.inr at_))]
      exact family.copied q r at_
  · by_cases first' : q = p <;> by_cases second' : q' = p
    · rw [first', second']
    · subst first'
      rw [busy q' second'] at second
      rw [mine] at first
      exact absurd (target r first) (forks q' r second' second)
    · subst second'
      rw [busy q first'] at first
      rw [mine] at second
      exact absurd (target r second) (forks q r first' first)
    · rw [busy q first'] at first
      rw [busy q' second'] at second
      exact family.sole q q' r first second
  · have here : q ≠ np := by
      rintro rfl
      exact awake.2 asleep
    rw [others q here] at asleep chan
    by_cases there : r = np
    · subst there
      exact awake.1
    · rw [others r there] at kid ⊢
      exact family.rested q asleep chan r kid

theorem stage_of_at (at_ : At s c stage) : ∃ p, s.machine.cpu c = some p ∧ s.stage p = stage :=
  Option.map_eq_some_iff.mp at_

theorem move_eq (here : s.machine.cpu c = some p) (stage : Stage) :
    s.move c stage = update s.stage p stage := by
  simp only [Kernel.move, here]

theorem not_born_embryo (embryo : state = .embryo) : ¬ Born state := by
  rw [embryo]
  simp [Born, Alive]

theorem Family.allocates (family : Family s) (unused : (s.proc np).state = .unused)
    (filled : Filled s after p np (.allocated np) (embryoSlot pid ticks (s.proc np))) :
    Family after := by
  have orphan := family.free np unused
  have early : ¬ Born (s.proc np).state := by
    rw [unused]
    simp [Born, Alive]
  refine family.fills filled early ?_ ?_ (family.apart np) (by simp [Born, Alive, embryoSlot])
    (by simp [embryoSlot]) (by simp [embryoSlot]) (fun _ => ⟨rfl, orphan⟩) (by simp [embryoSlot])
  · intro q _ forks
    have embryo := family.forked forks
    rw [unused] at embryo
    cases embryo
  · rintro r (same | impossible)
    · cases same
      rfl
    · cases impossible

theorem Family.copies (family : Family s) (at_ : s.stage p = .allocated np)
    (filled : Filled s after p np (.copied np) { s.proc np with parent := some p }) :
    Family after := by
  obtain ⟨embryo, orphan⟩ := family.allocated p np at_
  refine family.fills filled (not_born_embryo embryo) ?_ ?_ ?_
    (fun born => absurd born (not_born_embryo embryo)) (by simp [embryo]) (by simp [embryo]) nofun
    fun _ => ⟨embryo, rfl⟩
  · exact fun q other forks => other (family.sole q p np forks (.inl at_))
  · rintro r (impossible | same)
    · cases impossible
    · cases same
      rfl
  · rintro ⟨⟩
    rw [filled.running] at embryo
    cases embryo

theorem Family.enters (family : Family s) (at_ : s.stage p = .copied np)
    (filled : Filled s after p np .outside
      { s.proc np with priority := PRIO, state := .runnable }) : Family after := by
  obtain ⟨embryo, child⟩ := family.copied p np at_
  refine family.fills filled (not_born_embryo embryo) ?_ ?_ (family.apart np)
    (fun _ => ⟨p, child, by simp [filled.running, Alive]⟩) (by simp) nofun nofun nofun
  · exact fun q other forks => other (family.sole q p np forks (.inr at_))
  · rintro r (impossible | impossible) <;> cases impossible

theorem Family.abandons (family : Family s) (at_ : s.stage p = .allocated np)
    (filled : Filled s after p np .outside { s.proc np with state := .unused }) :
    Family after := by
  obtain ⟨embryo, orphan⟩ := family.allocated p np at_
  refine family.fills filled (not_born_embryo embryo) ?_ ?_ (family.apart np)
    (by simp [Born, Alive]) (by simp) (fun _ => orphan) nofun nofun
  · exact fun q other forks => other (family.sole q p np forks (.inl at_))
  · rintro r (impossible | impossible) <;> cases impossible

theorem step_family (family : Family s) (inv : Dispatch.Inv s.machine) (enabled : Enabled s e)
    (drawn : NoLottery s.machine e) (ran : perform s e = .ok after) : Family after := by
  obtain ⟨stepped, stage⟩ := perform_eq_ok ran
  have init := (globals_turn stepped).1
  have running : ∀ {c p}, s.machine.cpu c = some p → s.machine.lock ≠ .leaving c →
      (s.proc p).state = .running := fun here stays => inv.on_cpu here stays
  have unlocked : s.machine.lock = .free → ∀ c, s.machine.lock ≠ .leaving c := by
    intro free c
    rw [free]
    simp
  by_cases calm : Calm e
  · have same : after.stage = s.stage := by
      rw [stage]
      cases e with
      | allocproc | forkCopy | forkEnter | forkAbandon => exact calm.elim
      | _ => rfl
    cases scan : answer s.machine e with
    | some found =>
      obtain ⟨⟨c, acts, here⟩, ends⟩ := scan_outcome stepped scan
      exact family.scanned init same (actor_running inv enabled.1 acts here) ends
    | none =>
      have addressed : ∀ c chan, e = .sleep c chan → ∀ q, chan ≠ .proc q := by
        rintro c chan rfl
        exact enabled.2
      have slot := fun p => calm_slot (slot_turn True (fun _ => ⟨inv, enabled.1, drawn⟩) stepped p)
        calm scan addressed
      exact family.calm init same (fun p => (slot p).1) (fun p => (slot p).2.1)
        fun p asleep chan => .inl ((slot p).2.2 asleep chan)
  · cases e with
    | exit c =>
      obtain ⟨p, here, outside⟩ := stage_of_at enabled.2
      simp only [Dispatch.perform, here, deref, bind_ok] at stepped
      obtain ⟨t, exits, ends⟩ := bind_eq_ok.mp stepped
      obtain ⟨ordinary, _, cells⟩ := exit_slots exits
      refine family.exits stage init (running here (unlocked enabled.1.1 c)) outside ordinary ?_
      rw [← Except.ok.inj ends]
      exact cells
    | allocproc c ticks =>
      obtain ⟨p, here, outside⟩ := stage_of_at enabled.2
      have active := running here (unlocked enabled.1.1 c)
      have machine := (Except.ok.inj stepped).symm
      rcases allocproc_slots ticks s.table with none | ⟨np, unused, taken⟩
      · have slot : after.machine.table = s.table := by rw [machine, none]
        simp only [stages, none] at stage
        refine family.calm init stage (fun q => ?_) (fun q => .inl ?_) fun q asleep chan =>
          .inl ?_
        · rw [Kernel.proc, slot]
        · rw [Kernel.proc, slot]
        · rw [Kernel.proc, slot] at asleep chan
          exact ⟨asleep, chan⟩
      · simp only [stages, taken, move_eq here] at stage
        have table : after.machine.table = { s.table.setProc np
            (embryoSlot s.table.nextpid ticks) with nextpid := s.table.nextpid + 1 } := by
          rw [machine, taken]
        have slot : after.proc np = embryoSlot s.table.nextpid ticks (s.proc np) := by
          simp [Kernel.proc, table, PTable.setProc]
        exact family.allocates unused ⟨active, init, slot,
          fun q other => by simp [Kernel.proc, table, PTable.setProc, other], stage⟩
    | forkCopy c np =>
      obtain ⟨p, here, at_⟩ := stage_of_at enabled.2
      simp only [Dispatch.perform, here, deref, bind_ok, pure_eq_ok, Except.ok.injEq] at stepped
      simp only [stages, move_eq here] at stage
      refine family.copies at_ ⟨running here enabled.1.1.2.2, init, ?_, fun q other => ?_, stage⟩
      · simp [Kernel.proc, ← stepped, ProcTable.forkCopy, PTable.setProc]
      · simp [Kernel.proc, ← stepped, ProcTable.forkCopy, PTable.setProc, other]
    | forkEnter c np =>
      obtain ⟨p, here, at_⟩ := stage_of_at enabled.2
      obtain ⟨t, enters, ends⟩ := bind_eq_ok.mp stepped
      have machine := (Except.ok.inj ends).symm
      have cells := (enterReady_slots enters).1
      simp only [stages, move_eq here] at stage
      exact family.enters at_ ⟨running here (unlocked enabled.1.1 c), init,
        by simp [Kernel.proc, machine, cells],
        fun q other => by simp [Kernel.proc, machine, cells, other], stage⟩
    | forkAbandon c np =>
      obtain ⟨p, here, at_⟩ := stage_of_at enabled.2
      have machine := (Except.ok.inj stepped).symm
      simp only [stages, move_eq here] at stage
      refine family.abandons at_ ⟨running here enabled.1.1.2.2, init, ?_, fun q other => ?_, stage⟩
      · simp [Kernel.proc, machine, ProcTable.forkAbandon, PTable.setState, PTable.setProc]
      · simp [Kernel.proc, machine, ProcTable.forkAbandon, PTable.setState, PTable.setProc, other]
    | _ => exact absurd trivial calm

theorem start_family (init : (system n).Init s) : Family s := by
  obtain ⟨⟨t, left, machine⟩, outside⟩ := init
  obtain ⟨cells, root, _⟩ := userinit_slots left
  have first : s.proc 0 = initSlot := by
    simp only [Kernel.proc, machine, Dispatch.boot, cells, update_self]
  have others : ∀ p, p ≠ 0 → s.proc p = {} := fun p other => by
    simp only [Kernel.proc, machine, Dispatch.boot, cells, update_of_ne other]
  have parent : ∀ p, (s.proc p).parent = none := by
    intro p
    by_cases here : p = 0
    · rw [here, first]
      rfl
    · rw [others p here]
  have table : s.table.initproc = some 0 := by simp only [Kernel.table, machine, Dispatch.boot, root]
  have nowhere : ∀ p np, ¬ Forks (s.stage p) np := by
    intro p np forks
    rw [outside] at forks
    rcases forks with impossible | impossible <;> cases impossible
  refine ⟨⟨0, table, by simp [first, initSlot, Alive], parent 0⟩, fun p born other => ?_,
    fun p => by rw [parent p]; simp, fun p _ => parent p, fun p busy => absurd (outside p) busy,
    fun p np at_ => absurd (.inl at_) (nowhere p np),
    fun p np at_ => absurd (.inr at_) (nowhere p np),
    fun p q np forks => absurd forks (nowhere p np), fun p _ _ r child => ?_⟩
  · have here : p ≠ 0 := by
      rintro rfl
      exact other table
    rw [others p here] at born
    simp [Born, Alive] at born
  · rw [parent r] at child
    cases child

/-! ## Returned pids -/

/-- No pid was returned twice, and none that was returned is in use. -/
structure Returned (s : Kernel n) (returned : List Int) : Prop where
  once : returned.Nodup
  gone : ∀ pid ∈ returned, pid < s.table.nextpid ∧
    ∀ p, (s.proc p).state ≠ .unused → (s.proc p).pid ≠ pid

theorem identity_turn {s : Machine n} (turn : Turn True s p e slot) (live : slot.state ≠ .unused) :
    (s.table.proc p).state ≠ .unused ∧ slot.pid = (s.table.proc p).pid ∨
      slot.pid = s.table.nextpid := by
  cases turn with
  | kept | passed | copied => exact .inl ⟨live, rfl⟩
  | dispatched ready => exact .inl ⟨by simp [ready], rfl⟩
  | tidied here running | yielded here running | slept here running | waits scan running
  | exited here running | prioritized here running =>
    exact .inl ⟨by simp [running], rfl⟩
  | requeued running ready => exact .inl ⟨live, rfl⟩
  | reaped zombie scan cleared => exact .inl ⟨by simp [zombie], absurd (by
      rcases cleared with rfl | rfl <;> rfl) live⟩
  | passedWoken sleeping | woken sleeping => exact .inl ⟨by simp [sleeping], rfl⟩
  | struck target =>
    refine .inl ⟨fun unused => live ?_, rfl⟩
    simp [struck, unused]
  | allocated unused => exact .inr rfl
  | entered embryo => exact .inl ⟨by simp [embryo], rfl⟩
  | abandoned embryo => exact absurd rfl live
  | ticked =>
    rw [tick_state] at live
    exact .inl ⟨live, tick_pid _⟩
  | promoted =>
    rw [promote_state] at live
    exact .inl ⟨live, promote_pid _⟩

theorem step_returned (held : Returned s returned) (inv : Dispatch.Inv s.machine)
    (enabled : Enabled s e) (drawn : NoLottery s.machine e) (ran : perform s e = .ok after) :
    Returned after (collect s e after returned) := by
  obtain ⟨stepped, _⟩ := perform_eq_ok ran
  have grows := (globals_turn stepped).2.2
  have identity := fun p => identity_turn
    (slot_turn True (fun _ => ⟨inv, enabled.1, drawn⟩) stepped p)
  -- a pid below the next one that no other slot in use has stays out of use
  have unused : ∀ pid, pid < s.table.nextpid →
      (∀ p, (after.proc p).state ≠ .unused → (s.proc p).state ≠ .unused → (s.proc p).pid ≠ pid) →
      ∀ p, (after.proc p).state ≠ .unused → (after.proc p).pid ≠ pid := by
    intro pid old apart p live
    rcases identity p live with ⟨before, same⟩ | fresh
    · rw [Kernel.proc, same]
      exact apart p live before
    · rw [Kernel.proc, fresh]
      exact ne_of_gt old
  have kept : Returned after returned := by
    refine ⟨held.once, fun pid member => ?_⟩
    obtain ⟨old, gone⟩ := held.gone pid member
    exact ⟨lt_of_lt_of_le old grows, unused pid old fun p _ before => gone p before⟩
  unfold collect
  split
  · rename_i p pid scan
    obtain ⟨_, ends⟩ := scan_outcome stepped scan
    cases ends with
    | @reaped r child zombie freed others =>
      have live : (s.proc r).state ≠ .unused := by simp [Kernel.proc, zombie]
      have old := inv.fresh r live
      refine ⟨List.nodup_cons.mpr ⟨fun member => ?_, held.once⟩, fun pid member => ?_⟩
      · exact (held.gone _ member).2 r live rfl
      · rcases List.mem_cons.mp member with rfl | earlier
        · refine ⟨lt_of_lt_of_le old grows, unused _ old fun q now before same => ?_⟩
          have here := inv.pids q r before live same
          rw [here] at now
          exact now freed.1
        · exact kept.gone pid earlier
  · exact kept

end

/-! ## The protocol -/

/-- Whenever the lock is free, every process other than init has a living parent,
and no process sleeps in `wait` while it has a ZOMBIE child. -/
def Kept (s : Kernel n) : Prop :=
  s.machine.lock = .free →
    (∀ p, Born (s.proc p).state → s.table.initproc ≠ some p →
      ∃ q, (s.proc p).parent = some q ∧ Alive (s.proc q).state) ∧
    ∀ p, (s.proc p).state = .sleeping → (s.proc p).chan = .proc p →
      ∀ r, (s.proc r).parent = some p → (s.proc r).state ≠ .zombie

/-- A scan that returns a pid returns that of a ZOMBIE child of the caller, which
was not returned before; one that returns -1 has a caller without children or a
killed one. -/
def Answers (s : Kernel n) (returned : List Int) (e : Event n) : Prop :=
  ∀ p result, answer s.machine e = some (p, result) →
    (∀ pid, result = .reaped pid → pid ∉ returned ∧
      ∃ r, (s.proc r).parent = some p ∧ (s.proc r).state = .zombie ∧ (s.proc r).pid = pid) ∧
    (result = .failed → (∀ r, (s.proc r).parent ≠ some p) ∨ (s.proc p).killed = true)

theorem run_calm (run : (recorded n).Run (fun s e => NoLottery s.1.machine e) s) :
    Dispatch.Inv s.1.machine := by
  have plain : (system n).Run (fun s e => NoLottery s.machine e) s.1 :=
    run.unwatched fun _ _ drawn => drawn
  exact Dispatch.run_inv (run_machine plain fun _ _ drawn => drawn)

theorem run_kept (run : (recorded n).Run (fun s e => NoLottery s.1.machine e) s) :
    Family s.1 ∧ Returned s.1 s.2 := by
  induction run with
  | start init =>
    refine ⟨start_family init.1, ?_⟩
    rw [init.2]
    exact ⟨List.nodup_nil, nofun⟩
  | step run enabled drawn ran earlier =>
    obtain ⟨family, held⟩ := earlier
    obtain ⟨stepped, record⟩ := System.watch_perform ran
    have inv := run_calm run
    rw [record]
    exact ⟨step_family family inv enabled drawn stepped, step_returned held inv enabled drawn stepped⟩

/-- In every interleaving of `fork`, `exit`, `wait`, `wait2`, `kill`, `change_prio` and
everything else but passes by the lottery branch, on any number of CPUs. -/
theorem exit_wait_protocol (run : (recorded n).Run (fun s e => NoLottery s.1.machine e) s) :
    Kept s.1 ∧ s.2.Nodup ∧ ∀ e, Enabled s.1 e → NoLottery s.1.machine e →
      Answers s.1 s.2 e ∧ ∃ after, perform s.1 e = .ok after := by
  have inv := run_calm run
  obtain ⟨family, held⟩ := run_kept run
  refine ⟨fun _ => ⟨family.parents, family.rested⟩, held.once, fun e enabled drawn => ?_⟩
  obtain ⟨machine, stepped, _⟩ := Dispatch.step_inv inv enabled.1 drawn
  refine ⟨fun p result scan => ?_, ⟨machine, stages s.1 e⟩, ?_⟩
  · obtain ⟨_, ends⟩ := scan_outcome stepped scan
    cases ends with
    | @reaped r child zombie freed others =>
      refine ⟨?_, nofun⟩
      rintro pid ⟨⟩
      refine ⟨fun member => ?_, r, child, zombie, rfl⟩
      exact (held.gone _ member).2 r (by simp [Kernel.proc, zombie]) rfl
    | failed reason others => exact ⟨nofun, fun _ => reason⟩
    | asleep => exact ⟨nofun, nofun⟩
  · simp [perform, stepped]

instance : Decidable ((recorded n).Enabled s e) := inferInstanceAs (Decidable (Enabled s.1 e))

/-- On two CPUs a child of init asks for the priority of the shortest job and exits while
init sleeps in `wait`, and init reaps it. -/
theorem exit_wait_protocol_child : ∃ s : Kernel 2 × List Int,
    (recorded 2).Run (fun s e => NoLottery s.1.machine e) s ∧ Kept s.1 ∧ s.2 = [2] ∧
      s.2.Nodup := by
  obtain ⟨s, run, here⟩ := System.exists_run (fun s e => NoLottery s.1.machine e)
    (s := (start 2, [])) (m := recorded 2) ⟨start_init 2, rfl⟩
    [.scheduler 0, .enter 0, .allocproc 0 3, .forkCopy 0 1, .forkEnter 0 1, .scheduler 1, .enter 1,
      .changePrio 1 3, .wait 0, .leave 0, .exit 1, .leave 1, .scheduler 0, .enter 0]
    (fun s => s.2 = [2]) (by decide +kernel)
  have kept := exit_wait_protocol run
  exact ⟨s, run, kept.1, here, kept.2.1⟩

end Xv6.ExitWait
