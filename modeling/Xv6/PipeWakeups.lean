import Xv6.PipeStream

/-! Who sleeps on a pipe. A reader sleeps only while the buffer is empty and there
can be writers, a writer only while it is full and there can be readers. The one
way out of a call that changes the buffer without a wakeup is the error return of
`pipewrite`, and it leaves those asleep who sleep in `piperead` when it is taken. -/
namespace Xv6.PipeWakeups
open CheckedC RingBuffer StepSystem PipeStream Function

/-- A process in this call has reason to sleep. -/
def Stuck (pipe : Pipe) : Call → Prop
  | .outside => False
  | .write _ _ => pipe.ring.isFull = true ∧ pipe.readopen = true
  | .read _ => pipe.ring.isEmpty = true ∧ pipe.writeopen = true

/-- While the lock is free, nobody sleeps without a reason. -/
def NoneLeft (s : State P) : Prop :=
  s.lock = none → ∀ p, (s.proc p).asleep = true → Stuck s.pipe (s.proc p).call

/-- The process sleeps in `piperead`. -/
def AwaitsBytes (proc : Proc) : Prop :=
  proc.asleep = true ∧ match proc.call with
    | .read _ => True
    | _ => False

instance : Decidable (AwaitsBytes proc) := by
  unfold AwaitsBytes
  refine @instDecidableAnd _ _ _ ?_
  split <;> infer_instance

/-- When `pipewrite` finds a full buffer with no reader left, or itself killed, nobody is
asleep in `piperead`. -/
def Heard (s : State P) : Event P → Prop
  | .test p => match (s.proc p).call with
    | .write _ _ => s.pipe.readopen = false ∨ (s.proc p).killed = true →
        ∀ q, ¬ AwaitsBytes (s.proc q)
    | _ => True
  | _ => True

/-! ## What the loop of pipewrite leaves behind -/

theorem writeLoop_full (full : ring.isFull = true)
    (ran : writeLoop ring rest = (after, left)) : after = ring := by
  cases rest with
  | nil =>
    cases ran
    rfl
  | cons b rest =>
    rw [writeLoop, if_pos full] at ran
    cases ran
    rfl

theorem writeLoop_stops (ran : writeLoop ring rest = (after, left)) (early : left ≠ []) :
    after.isFull = true := by
  induction rest generalizing ring with
  | nil =>
    cases ran
    exact absurd rfl early
  | cons b rest ih =>
    rw [writeLoop] at ran
    split at ran
    · rename_i full
      cases ran
      exact full
    · exact ih ran

theorem full_not_empty {ring : Ring Byte PIPESIZE 32} (full : ring.isFull = true) :
    ring.isEmpty ≠ true := by
  intro empty
  rw [Ring.isFull_iff fits, Ring.isEmpty_iff.mp empty] at full
  cases full

/-! ## Sleepers -/

section
variable {P : Type} {s : State P}

/-- The process that holds the lock has reason to wait; a writer that has not looked yet
may have no reader. -/
def Waits (pipe : Pipe) (stage : Stage) : Call → Prop
  | .outside => False
  | .write _ _ => pipe.ring.isFull = true ∧ (stage = .sleep → pipe.readopen = true)
  | .read _ => pipe.ring.isEmpty = true ∧ pipe.writeopen = true

/-- A writer is at the test, and has not called `wakeup` for what it has stored. -/
def Unannounced (s : State P) : Prop :=
  ∃ p n rest, s.lock = some (p, .test) ∧ (s.proc p).call = .write n rest

structure Inv (s : State P) : Prop where
  asleep : ∀ p, (s.proc p).asleep = true →
    Stuck s.pipe (s.proc p).call ∨ AwaitsBytes (s.proc p) ∧ Unannounced s
  holder : ∀ p stage, s.lock = some (p, stage) →
    (s.proc p).asleep = false ∧ Waits s.pipe stage (s.proc p).call
  bounded : s.pipe.ring.distance ≤ PIPESIZE

theorem Inv.stuck (inv : Inv s) (other : ∀ p, s.lock ≠ some (p, .test))
    (asleep : (s.proc p).asleep = true) : Stuck s.pipe (s.proc p).call :=
  (inv.asleep p asleep).resolve_right fun ⟨_, q, _, _, test, _⟩ => other q test

theorem wakeReaders_asleep {proc : P → Proc} (asleep : (wakeReaders proc p).asleep = true) :
    wakeReaders proc p = proc p ∧ ∀ n, (proc p).call ≠ .read n := by
  unfold wakeReaders at asleep ⊢
  split at asleep
  · cases asleep
  · rename_i other
    exact ⟨rfl, other⟩

theorem wakeWriters_asleep {proc : P → Proc} (asleep : (wakeWriters proc p).asleep = true) :
    wakeWriters proc p = proc p ∧ ∀ n rest, (proc p).call ≠ .write n rest := by
  unfold wakeWriters at asleep ⊢
  split at asleep
  · cases asleep
  · rename_i other
    exact ⟨rfl, other⟩

theorem Inv.writer (inv : Inv s) (asleep : (wakeReaders s.proc q).asleep = true) :
    wakeReaders s.proc q = s.proc q ∧ ∃ n rest, (s.proc q).call = .write n rest ∧
      s.pipe.ring.isFull = true ∧ s.pipe.readopen = true := by
  obtain ⟨same, other⟩ := wakeReaders_asleep asleep
  refine ⟨same, ?_⟩
  rw [same] at asleep
  cases call : (s.proc q).call with
  | outside =>
    rcases inv.asleep q asleep with stuck | ⟨awaits, -⟩
    · rw [call] at stuck
      exact stuck.elim
    · rw [AwaitsBytes, call] at awaits
      exact awaits.2.elim
  | write n rest =>
    rcases inv.asleep q asleep with stuck | ⟨awaits, -⟩
    · rw [call] at stuck
      exact ⟨n, rest, rfl, stuck⟩
    · rw [AwaitsBytes, call] at awaits
      exact awaits.2.elim
  | read n => exact absurd call (other n)

theorem Inv.reader (inv : Inv s) (unlocked : s.lock = none)
    (asleep : (wakeWriters s.proc q).asleep = true) :
    wakeWriters s.proc q = s.proc q ∧ ∃ n, (s.proc q).call = .read n ∧
      s.pipe.ring.isEmpty = true ∧ s.pipe.writeopen = true := by
  obtain ⟨same, other⟩ := wakeWriters_asleep asleep
  refine ⟨same, ?_⟩
  rw [same] at asleep
  have stuck := inv.stuck (by simp [unlocked]) asleep
  cases call : (s.proc q).call with
  | outside =>
    rw [call] at stuck
    exact stuck.elim
  | write n rest => exact absurd call (other n rest)
  | read n =>
    rw [call] at stuck
    exact ⟨n, rfl, stuck⟩

theorem wakeReaders_awake {proc : P → Proc} (awake : (proc p).asleep = false) :
    (wakeReaders proc p).asleep = false := by
  cases asleep : (wakeReaders proc p).asleep with
  | false => rfl
  | true =>
    rw [(wakeReaders_asleep asleep).1, awake] at asleep
    cases asleep

theorem wakeWriters_awake {proc : P → Proc} (awake : (proc p).asleep = false) :
    (wakeWriters proc p).asleep = false := by
  cases asleep : (wakeWriters proc p).asleep with
  | false => rfl
  | true =>
    rw [(wakeWriters_asleep asleep).1, awake] at asleep
    cases asleep

theorem Inv.awake (inv : Inv s) (unlocked : s.lock = none) (outside : (s.proc p).call = .outside) :
    (s.proc p).asleep = false := by
  cases asleep : (s.proc p).asleep with
  | false => rfl
  | true =>
    have stuck := inv.stuck (by simp [unlocked]) asleep
    rw [outside] at stuck
    exact stuck.elim

theorem pipeclose_inv (inv : Inv s) (unlocked : s.lock = none) : Inv (pipeclose s writable) := by
  unfold pipeclose
  split
  · refine ⟨fun q asleep => .inl ?_, by simp [unlocked], inv.bounded⟩
    obtain ⟨same, n, rest, call, full, reader⟩ := inv.writer asleep
    simp only [same, call]
    exact ⟨full, reader⟩
  · refine ⟨fun q asleep => .inl ?_, by simp [unlocked], inv.bounded⟩
    obtain ⟨same, n, call, empty, writer⟩ := inv.reader unlocked asleep
    simp only [same, call]
    exact ⟨empty, writer⟩

theorem Inv.noneLeft (inv : Inv s) : NoneLeft s :=
  fun unlocked _ asleep => inv.stuck (by simp [unlocked]) asleep

variable [DecidableEq P]

theorem Inv.set {pipe : Pipe} {proc : P → Proc} {lock : Option (P × Stage)} {f : Proc → Proc}
    (awake : (f (proc p)).asleep = false) (bounded : pipe.ring.distance ≤ PIPESIZE)
    (others : ∀ q, q ≠ p → (proc q).asleep = true → Stuck pipe (proc q).call ∨
      AwaitsBytes (proc q) ∧ lock = some (p, .test) ∧ ∃ n rest, (f (proc p)).call = .write n rest)
    (holder : ∀ q stage, lock = some (q, stage) → q = p ∧ Waits pipe stage (f (proc p)).call) :
    Inv (State.set ⟨pipe, proc, lock⟩ p f) := by
  refine ⟨fun q asleep => ?_, fun q stage held => ?_, bounded⟩
  · by_cases same : q = p
    · subst same
      simp only [State.set, update_self] at asleep
      rw [awake] at asleep
      cases asleep
    · simp only [State.set, update_of_ne same] at asleep ⊢
      refine (others q same asleep).imp_right ?_
      rintro ⟨awaits, test, n, rest, call⟩
      exact ⟨awaits, p, n, rest, test, by simpa only [update_self] using call⟩
  · obtain ⟨rfl, waits⟩ := holder q stage held
    simpa only [State.set, update_self] using ⟨awake, waits⟩

section
variable {p : P} (inv : Inv s) (unlocked : s.lock = none) (awake : (s.proc p).asleep = false)
include inv unlocked awake

theorem pipewrite_inv : Inv (pipewrite s p n rest) := by
  unfold pipewrite
  generalize loop : writeLoop s.pipe.ring rest = turned
  obtain ⟨ring, left⟩ := turned
  have bounded := (writeLoop_stores inv.bounded loop).1
  dsimp only
  split
  · refine Inv.set (wakeReaders_awake awake) bounded (fun q _ asleep => .inl ?_) (by simp [unlocked])
    obtain ⟨same, m, bytes, call, full, reader⟩ := inv.writer asleep
    rw [same, call, writeLoop_full full loop]
    exact ⟨full, reader⟩
  · rename_i early
    have full := writeLoop_stops loop early
    refine Inv.set awake bounded (fun q _ asleep => ?_) ?_
    · have stuck := inv.stuck (by simp [unlocked]) asleep
      cases call : (s.proc q).call with
      | outside =>
        rw [call] at stuck
        exact stuck.elim
      | write m bytes =>
        rw [call] at stuck
        exact .inl ⟨full, stuck.2⟩
      | read m => exact .inr ⟨⟨asleep, by rw [call]; trivial⟩, rfl, n, left, rfl⟩
    · rintro q stage ⟨⟩
      exact ⟨rfl, full, nofun⟩

theorem piperead_inv : Inv (piperead s p n) := by
  have others : ∀ q, q ≠ p → (s.proc q).asleep = true → Stuck s.pipe (s.proc q).call :=
    fun q _ => inv.stuck (by simp [unlocked])
  unfold piperead
  split
  · rename_i waits
    rw [Bool.and_eq_true] at waits
    refine Inv.set awake inv.bounded (fun q other asleep => .inl (others q other asleep)) ?_
    rintro q stage ⟨⟩
    exact ⟨rfl, waits⟩
  · rename_i waits
    generalize loop : copyLoop s.pipe.ring n = copied
    refine Inv.set (wakeWriters_awake awake) (copyLoop_takes inv.bounded loop).1
      (fun q _ asleep => ?_) (by simp [unlocked])
    obtain ⟨_, m, _, empty, writer⟩ := inv.reader unlocked asleep
    exact absurd (by rw [empty, writer]; rfl) waits

theorem runCall_inv (call : Call) : Inv (runCall s p call) := by
  cases call with
  | outside => exact inv
  | write n rest => exact pipewrite_inv inv unlocked awake
  | read n => exact piperead_inv inv unlocked awake

end

theorem runTest_inv (inv : Inv s) (test : s.lock = some (p, .test)) (heard : Heard s (.test p)) :
    Inv (runTest s p) := by
  obtain ⟨awake, waits⟩ := inv.holder p .test test
  unfold runTest
  cases call : (s.proc p).call with
  | outside =>
    rw [call] at waits
    exact waits.elim
  | write n rest =>
    rw [call] at waits
    simp only [Heard, call] at heard
    simp only [pipewriteFull]
    split
    · rename_i hopeless
      refine Inv.set awake inv.bounded (fun q _ asleep => .inl ?_) nofun
      refine (inv.asleep q asleep).resolve_right fun ⟨awaits, _⟩ => ?_
      exact heard (by simpa using hopeless) q awaits
    · rename_i hope
      have reader : s.pipe.readopen = true := by simp at hope; exact hope.1
      refine ⟨fun q asleep => .inl ?_, ?_, inv.bounded⟩
      · obtain ⟨same, m, bytes, call, full⟩ := inv.writer asleep
        simp only [same, call]
        exact full
      · rintro q stage ⟨⟩
        have same : wakeReaders s.proc p = s.proc p := by simp [wakeReaders, call]
        simp only [same, call]
        exact ⟨awake, waits.1, fun _ => reader⟩
  | read n =>
    rw [call] at waits
    have others : ∀ q, (s.proc q).asleep = true → Stuck s.pipe (s.proc q).call := by
      intro q asleep
      refine (inv.asleep q asleep).resolve_right ?_
      rintro ⟨-, writer, m, bytes, held, writes⟩
      rw [test] at held
      cases held
      rw [call] at writes
      cases writes
    simp only [pipereadEmpty]
    split
    · exact Inv.set awake inv.bounded (fun q _ asleep => .inl (others q asleep)) nofun
    · refine ⟨fun q asleep => .inl (others q asleep), ?_, inv.bounded⟩
      rintro q stage ⟨⟩
      rw [call]
      exact ⟨awake, waits⟩

theorem step_inv (inv : Inv s) (enabled : Enabled s e) (heard : Heard s e) : Inv (perform s e) := by
  cases e with
  | write p addr => exact pipewrite_inv inv enabled.1 (inv.awake enabled.1 enabled.2.2)
  | read p n => exact piperead_inv inv enabled.1 (inv.awake enabled.1 enabled.2.2)
  | resume p => exact runCall_inv inv enabled.1 enabled.2.2.2 _
  | test p => exact runTest_inv inv enabled heard
  | sleep p =>
    have held : s.lock = some (p, .sleep) := enabled
    obtain ⟨-, waits⟩ := inv.holder p .sleep held
    refine ⟨fun q asleep => .inl ?_, by simp [perform, State.set], inv.bounded⟩
    by_cases same : q = p
    · subst same
      simp only [perform, State.set, update_self]
      cases call : (s.proc q).call with
      | outside =>
        rw [call] at waits
        exact waits
      | write n rest =>
        rw [call] at waits
        exact ⟨waits.1, waits.2 rfl⟩
      | read n =>
        rw [call] at waits
        exact waits
    · simp only [perform, State.set, update_of_ne same] at asleep ⊢
      exact inv.stuck (by simp [held]) asleep
  | close writable => exact pipeclose_inv inv enabled.1
  | kill p =>
    -- the process that holds the lock goes on with its flag set
    have calls : ∀ q, ((perform s (.kill p)).proc q).call = (s.proc q).call := by
      intro q
      by_cases same : q = p
      · subst same
        simp [perform, State.set]
      · simp [perform, State.set, same]
    have awake : ∀ q, ((perform s (.kill p)).proc q).asleep = true →
        (perform s (.kill p)).proc q = s.proc q := by
      intro q asleep
      by_cases same : q = p
      · subst same
        simp [perform, State.set] at asleep
      · simp [perform, State.set, same]
    refine ⟨fun q asleep => ?_, fun q stage held => ?_, inv.bounded⟩
    · have same := awake q asleep
      rw [same] at asleep ⊢
      refine (inv.asleep q asleep).imp_right ?_
      rintro ⟨awaits, w, n, rest, test, writes⟩
      exact ⟨awaits, w, n, rest, test, (calls w).trans writes⟩
    · obtain ⟨up, waits⟩ := inv.holder q stage held
      refine ⟨?_, by rw [calls]; exact waits⟩
      cases asleep : ((perform s (.kill p)).proc q).asleep with
      | false => rfl
      | true =>
        rw [awake q asleep, up] at asleep
        cases asleep

theorem heard_of_noneLeft (inv : Inv s) (test : s.lock = some (p, .test))
    (none : NoneLeft (runTest s p)) : Heard s (.test p) := by
  cases call : (s.proc p).call with
  | outside | read n => simp [Heard, call]
  | write n rest =>
    simp only [Heard, call]
    intro hopeless q awaits
    obtain ⟨-, waits⟩ := inv.holder p .test test
    rw [call] at waits
    have fails : (!s.pipe.readopen || (s.proc p).killed) = true := by simpa using hopeless
    have other : q ≠ p := by
      rintro rfl
      rw [AwaitsBytes, call] at awaits
      exact awaits.2
    have stuck := none (by simp [runTest, call, pipewriteFull, fails, State.set]) q
    simp only [runTest, call, pipewriteFull, if_pos fails, State.set, update_of_ne other] at stuck
    have reads := awaits.2
    cases there : (s.proc q).call with
    | outside | write m bytes =>
      rw [there] at reads
      exact reads
    | read m =>
      have empty := stuck awaits.1
      rw [there] at empty
      exact full_not_empty waits.1 empty.1

theorem run_inv (run : (system P).Run Heard s) : Inv s := by
  apply run.invariant
  · rintro s ⟨page, rfl⟩
    exact ⟨nofun, nofun, by simp [start, pipealloc, Ring.distance]⟩
  · intro s e after inv enabled heard ran
    rw [← Except.ok.inj ran]
    exact step_inv inv enabled heard

/-- In every run by any number of processes, nobody is left behind as long as the failing
tests of `pipewrite` meet the condition, and the first one that does not leaves a sleeper. -/
theorem pipe_leaves_no_sleeper (run : (system P).Run Heard s) :
    NoneLeft s ∧ ∀ e, Enabled s e → (NoneLeft (perform s e) ↔ Heard s e) := by
  have inv := run_inv run
  refine ⟨inv.noneLeft, fun e enabled => ⟨fun none => ?_, fun heard => ?_⟩⟩
  · cases e with
    | test p => exact heard_of_noneLeft inv enabled none
    | _ => trivial
  · exact (step_inv inv enabled heard).noneLeft

end

instance [DecidableEq P] [Fintype P] (s : State P) (e : Event P) : Decidable (Heard s e) := by
  apply e.casesOn (motive := fun e => Decidable (Heard s e)) <;> intros <;> unfold Heard <;>
    first | infer_instance | (dsimp only; split <;> infer_instance)

instance [DecidableEq P] : Decidable ((system P).Enabled s e) :=
  inferInstanceAs (Decidable (Enabled s e))

/-- A writer fills the buffer while a reader sleeps, and wakes it before it waits itself. It
is killed, and fails at the next test, when the reader is awake. -/
theorem pipe_leaves_no_sleeper_fails : ∃ s : State (Fin 2), (system (Fin 2)).Run Heard s ∧
    s.lock = none ∧ (s.proc 0).call = .read 5 ∧ (s.proc 1).result = -1 ∧ NoneLeft s := by
  obtain ⟨s, run, unlocked, reads, failed⟩ := System.exists_run Heard (m := system (Fin 2))
    (s := start (Fin 2) fun _ => 0) ⟨_, rfl⟩
    [.read 0 5, .test 0, .sleep 0, .write 1 (List.replicate 513 1), .test 1, .sleep 1, .kill 1,
      .resume 1, .test 1]
    (fun s => s.lock = none ∧ (s.proc 0).call = .read 5 ∧ (s.proc 1).result = -1)
    (by decide +kernel)
  exact ⟨s, run, unlocked, reads, failed, (pipe_leaves_no_sleeper run).1⟩

/-- A process writes 513 bytes while a reader sleeps, and is killed after it has stored 512:
the call fails, and nobody wakes the reader. -/
theorem failed_write_wakes_nobody : ∃ s : State (Fin 2),
    (system (Fin 2)).Run (fun _ _ => True) s ∧ s.lock = none ∧ (s.proc 0).call = .read 5 ∧
      (s.proc 0).asleep = true ∧ s.pipe.ring.nread ≠ s.pipe.ring.nwrite ∧ ¬ NoneLeft s := by
  obtain ⟨s, run, unlocked, reads, asleep, apart⟩ := System.exists_run (fun _ _ => True) (m := system (Fin 2))
    (s := start (Fin 2) fun _ => 0) ⟨_, rfl⟩
    [.read 0 5, .test 0, .sleep 0, .write 1 (List.replicate 513 1), .kill 1, .test 1]
    (fun s => s.lock = none ∧ (s.proc 0).call = .read 5 ∧ (s.proc 0).asleep = true ∧
      s.pipe.ring.nread ≠ s.pipe.ring.nwrite) (by decide +kernel)
  refine ⟨s, run, unlocked, reads, asleep, apart, fun none => ?_⟩
  have stuck := none unlocked 0 asleep
  rw [reads] at stuck
  exact apart (beq_iff_eq.mp stuck.1)

end Xv6.PipeWakeups
