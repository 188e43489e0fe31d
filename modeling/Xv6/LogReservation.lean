import Xv6.GroupCommit

/-! How far the reservation of `begin_op` carries. An operation that logs at most
MAXOPBLOCKS distinct blocks never needs more than it reserved, so the header never
lists more than the bound that held at every admission. `begin_op` admits up to
LOGSIZE blocks; the log holds one less, and `log_write` gives up one earlier
still, before it looks for the block among those already logged. -/
namespace Xv6.LogReservation
open CheckedC RedoLog StepSystem Tally LogProtocol GroupCommit Function

/-- What an operation may still log. -/
def allowance (t : Thread) : Int := if t.phase.inside then MAXOPBLOCKS - t.mine.length else 0

/-- Every operation logs at most MAXOPBLOCKS distinct blocks. -/
def OpBound [DecidableEq π] (s : State π) : Event π → Prop
  | .logWrite p b => (record (s.thread p).mine b).length ≤ MAXOPBLOCKS
  | _ => True

section
variable {π : Type} [DecidableEq π] [Fintype π]

/-- What the admitted operations may still log. -/
def reserve (s : State π) : Int := tally allowance s.thread

/-- `begin_op` admits an operation only if the blocks logged since the last
commit and all that the admitted operations may still log, the new one included,
come to at most `limit`. -/
def Covered (limit : Int) (s : State π) : Event π → Prop
  | .beginOp _ => s.committing = false → Admits s →
      (s.blocks.length : Int) + reserve s + MAXOPBLOCKS ≤ limit
  | _ => True

structure Reserved (limit : Int) (s : State π) : Prop where
  fits : (s.blocks.length : Int) + reserve s ≤ limit
  bounded : ∀ p, (s.thread p).phase.inside = true → (s.thread p).mine.length ≤ MAXOPBLOCKS
  checked : ∀ p b, (s.thread p).phase = .checked b →
    (record (s.thread p).mine b).length ≤ MAXOPBLOCKS
  held : ∀ p, (s.thread p).phase.inside = true → ∀ b ∈ (s.thread p).mine, b ∈ s.blocks

omit [DecidableEq π] in
theorem Reserved.allowance_nonneg {s : State π} (res : Reserved limit s) (p : π) :
    0 ≤ allowance (s.thread p) := by
  unfold allowance
  split
  · rename_i inside
    have bound := res.bounded p inside
    omega
  · exact le_refl 0

omit [DecidableEq π] in
theorem Reserved.length_le {s : State π} (res : Reserved limit s) :
    (s.blocks.length : Int) ≤ limit := by
  have fits := res.fits
  have nonneg : 0 ≤ reserve s := tally_nonneg res.allowance_nonneg
  omega

omit [DecidableEq π] in
theorem Reserved.narrows {s after : State π} (res : Reserved limit s)
    (threads : ∀ q, (after.thread q).phase.inside = true →
      (s.thread q).phase.inside = true ∧ (after.thread q).mine = (s.thread q).mine)
    (checks : ∀ q b, (after.thread q).phase = .checked b →
      (record (s.thread q).mine b).length ≤ MAXOPBLOCKS)
    (blocks : after.blocks = s.blocks ∨
      (after.blocks = [] ∧ ∀ q, (after.thread q).phase.inside = false)) :
    Reserved limit after := by
  have below : ∀ q, allowance (after.thread q) ≤ allowance (s.thread q) := by
    intro q
    cases inside : (after.thread q).phase.inside with
    | false =>
      rw [show allowance (after.thread q) = 0 by simp [allowance, inside]]
      exact res.allowance_nonneg q
    | true =>
      obtain ⟨before, same⟩ := threads q inside
      rw [allowance, allowance, inside, before, same]
  have shorter : after.blocks.length ≤ s.blocks.length := by
    rcases blocks with same | ⟨empty, _⟩
    · rw [same]
    · simp [empty]
  constructor
  · have fits := res.fits
    have less : reserve after ≤ reserve s := tally_le_tally below
    omega
  · intro p inside
    obtain ⟨before, same⟩ := threads p inside
    rw [same]
    exact res.bounded p before
  · intro p b phase
    obtain ⟨_, same⟩ := threads p (by rw [phase]; rfl)
    rw [same]
    exact checks p b phase
  · intro p inside b member
    obtain ⟨before, same⟩ := threads p inside
    rcases blocks with kept | ⟨_, outside⟩
    · rw [kept]
      rw [same] at member
      exact res.held p before b member
    · rw [outside p] at inside
      cases inside

theorem Reserved.entered {s : State π} (res : Reserved limit s)
    (outside : (s.thread p).phase.inside = false)
    (covered : (s.blocks.length : Int) + reserve s + MAXOPBLOCKS ≤ limit) :
    Reserved limit { s with
      outstanding := s.outstanding + 1
      thread := update s.thread p { phase := .inOp, op := op, mine := [] } } := by
  constructor
  · have gone : allowance (s.thread p) = 0 := by simp [allowance, outside]
    have now : allowance { phase := .inOp, op := op, mine := [] } = MAXOPBLOCKS := by
      simp [allowance, Phase.inside]
    unfold reserve at covered ⊢
    rw [tally_update, gone, now]
    simp only
    omega
  · intro q inside
    by_cases here : q = p
    · subst here
      simp
    · simp only [update_of_ne here] at inside ⊢
      exact res.bounded q inside
  · intro q b phase
    by_cases here : q = p
    · subst here
      simp at phase
    · simp only [update_of_ne here] at phase ⊢
      exact res.checked q b phase
  · intro q inside b member
    by_cases here : q = p
    · subst here
      simp at member
    · simp only [update_of_ne here] at inside member
      exact res.held q inside b member

theorem length_record (blocks : List BlockNo) (b : BlockNo) :
    (record blocks b).length = if b ∈ blocks then blocks.length else blocks.length + 1 := by
  unfold record
  split <;> simp

theorem Reserved.appended {s : State π} (res : Reserved limit s)
    (phase : (s.thread p).phase = .checked b) : Reserved limit (logAppend s p b) := by
  have inside : (s.thread p).phase.inside = true := by rw [phase]; rfl
  have room := res.checked p b phase
  have owned := res.held p inside
  constructor
  · have before : allowance (s.thread p) = MAXOPBLOCKS - (s.thread p).mine.length := by
      simp [allowance, inside]
    have after : allowance { s.thread p with phase := .inOp, mine := record (s.thread p).mine b } =
        MAXOPBLOCKS - (record (s.thread p).mine b).length := by
      simp [allowance, Phase.inside]
    have fits := res.fits
    unfold reserve at fits ⊢
    simp only [logAppend]
    rw [tally_update, before, after, length_record, length_record]
    by_cases known : b ∈ (s.thread p).mine
    · rw [if_pos known, if_pos (owned b known)]
      omega
    · split <;> omega
  · intro q inside'
    by_cases here : q = p
    · subst here
      simpa [logAppend] using room
    · simp only [logAppend, update_of_ne here] at inside' ⊢
      exact res.bounded q inside'
  · intro q c phase'
    by_cases here : q = p
    · subst here
      simp [logAppend] at phase'
    · simp only [logAppend, update_of_ne here] at phase' ⊢
      exact res.checked q c phase'
  · intro q inside' c member
    apply mem_record.mpr
    by_cases here : q = p
    · subst here
      simp only [logAppend, update_self] at member
      rcases mem_record.mp member with old | new
      · exact .inl (owned c old)
      · exact .inr new
    · simp only [logAppend, update_of_ne here] at inside' member
      exact .inl (res.held q inside' c member)

theorem Reserved.moved {s : State π} (res : Reserved limit s)
    (inside : phase.inside = true → (s.thread p).phase.inside = true)
    (room : ∀ b, phase = .checked b → (record (s.thread p).mine b).length ≤ MAXOPBLOCKS) :
    Reserved limit (s.setPhase p phase) := by
  apply res.narrows
  · intro q now
    by_cases here : q = p
    · subst here
      exact ⟨inside (by simpa [State.setPhase] using now), by simp [State.setPhase]⟩
    · simp only [State.setPhase, update_of_ne here] at now ⊢
      exact ⟨now, trivial⟩
  · intro q b now
    by_cases here : q = p
    · subst here
      exact room b (by simpa [State.setPhase] using now)
    · exact res.checked q b (by simpa [State.setPhase, here] using now)
  · exact .inl rfl

omit [DecidableEq π] in
theorem Reserved.woke {s : State π} (res : Reserved limit s) : Reserved limit s.wakeup := by
  apply res.narrows
  · intro q now
    obtain ⟨⟨inside, _, _, mine⟩, _⟩ := wakeup_thread s q
    exact ⟨by rw [← inside, now], mine⟩
  · intro q b now
    rcases (wakeup_thread s q).2.2 with woken | same
    · rw [now] at woken
      cases woken
    · exact res.checked q b (by rw [← same, now])
  · exact .inl rfl

theorem step_reserved {s : State π} (inv : Inv s) (res : Reserved limit s) (enabled : Enabled s e)
    (bound : OpBound s e) (covered : Covered limit s e) (ran : perform s e = .ok after) :
    Reserved limit after := by
  have never : ∀ {phase : Phase} {p : π}, phase.inside = false →
      phase.inside = true → (s.thread p).phase.inside = true := by
    intro phase p outside inside
    rw [outside] at inside
    cases inside
  cases e with
  | beginOp p =>
    cases ran
    unfold beginOp
    split
    · exact res.moved (never rfl) (fun b same => by cases same)
    · rename_i clear
      split
      · exact res.moved (never rfl) (fun b same => by cases same)
      · rename_i admits
        apply res.entered
        · rcases enabled with idle | woken
          · rw [idle]
            rfl
          · rw [woken]
            rfl
        · exact covered (by simpa using clear) (by simpa using admits)
  | kill p =>
    cases ran
    exact res.moved (never rfl) (fun b same => by cases same)
  | logWrite p b =>
    have inOp : (s.thread p).phase = .inOp := enabled
    simp only [perform, logWrite] at ran
    split at ran
    · cases ran
    · split at ran
      · cases ran
      · cases ran
        refine res.moved (fun _ => by rw [inOp]; rfl) (fun c same => ?_)
        cases same
        exact bound
  | logAppend p =>
    obtain ⟨b, phase⟩ := enabled
    simp only [perform, phase] at ran
    cases ran
    exact res.appended phase
  | endOp p =>
    simp only [perform, endOp] at ran
    -- the counter is not part of the reservation
    have counted : Reserved limit { s with outstanding := s.outstanding - 1 } :=
      ⟨res.fits, res.bounded, res.checked, res.held⟩
    split at ran
    · cases ran
    · split at ran
      · cases ran
        have ending : Reserved limit
            (State.setPhase { s with outstanding := s.outstanding - 1 } p .ending) :=
          counted.moved (never rfl) (fun b same => by cases same)
        exact ⟨ending.fits, ending.bounded, ending.checked, ending.held⟩
      · cases ran
        apply counted.woke.moved
        · intro inside
          cases inside
        · intro b same
          cases same
  | commitCopy p =>
    cases ran
    unfold commitCopy
    split <;> exact res.moved (never rfl) (fun b same => by cases same)
  | commitClear p =>
    obtain ⟨blocks, phase⟩ := enabled
    simp only [perform, phase] at ran
    cases ran
    have set : s.committing = true := (inv.phases p).committing (by rw [phase]; rfl)
    have outside : ∀ q, (s.thread q).phase.inside = false := by
      intro q
      by_contra inside
      have clear := inv.not_committing (by simpa using inside)
      rw [set] at clear
      cases clear
    have empty : ∀ q, ((commitClear s p blocks).thread q).phase.inside = false := by
      intro q
      by_cases here : q = p
      · subst here
        simp [commitClear, State.setPhase, Phase.inside]
      · simpa [commitClear, State.setPhase, here] using outside q
    apply res.narrows
    · intro q inside
      rw [empty q] at inside
      cases inside
    · intro q b checked
      have inside := empty q
      rw [checked] at inside
      cases inside
    · exact .inr ⟨rfl, empty⟩
  | endCommit p =>
    cases ran
    have idle : Reserved limit (s.wakeup.setPhase p .idle) := by
      apply res.woke.moved
      · intro inside
        cases inside
      · intro b same
        cases same
    exact ⟨idle.fits, idle.bounded, idle.checked, idle.held⟩

theorem run_reserved {s : State π} (positive : 0 ≤ limit)
    (run : (system π).Run (fun s e => OpBound s e ∧ Covered limit s e) s) :
    Inv s ∧ Reserved limit s := by
  apply run.invariant
  · rintro s rfl
    refine ⟨init_inv, ⟨?_, fun p inside => ?_, fun p b phase => ?_, fun p inside => ?_⟩⟩
    · simpa [reserve, tally, allowance, Phase.inside] using positive
    · cases inside
    · cases phase
    · cases inside
  · rintro s e after ⟨inv, res⟩ enabled ⟨bound, covered⟩ ran
    exact ⟨step_inv inv enabled ran, step_reserved inv res enabled bound covered ran⟩

omit [DecidableEq π] in
theorem reserve_le {s : State π} (inv : Inv s) : reserve s ≤ s.outstanding * MAXOPBLOCKS := by
  have each : ∀ p, allowance (s.thread p) ≤ occupies (s.thread p) * MAXOPBLOCKS := by
    intro p
    unfold allowance occupies
    split <;> omega
  rw [inv.counted]
  unfold reserve tally
  rw [Finset.sum_mul]
  exact Finset.sum_le_sum fun p _ => each p

/-- Whatever is admitted, the header never lists more than LOGSIZE blocks, so
`lh.block` is never written past its end. -/
theorem logged_le_logsize {s : State π} (run : (system π).Run OpBound s) :
    s.blocks.length ≤ LOGSIZE := by
  have covered : ∀ {s : State π} {e}, Inv s → Covered LOGSIZE s e := by
    intro s e inv
    cases e with
    | beginOp p =>
      intro _ admits
      have below := reserve_le inv
      unfold Admits at admits
      simp only [MAXOPBLOCKS] at *
      omega
    | _ => trivial
  have both : (system π).Run (fun s e => OpBound s e ∧ Covered LOGSIZE s e) s := by
    induction run with
    | start init => exact .start init
    | step run enabled bound ran earlier =>
      have inv := GroupCommit.run_inv run
      exact earlier.step enabled ⟨bound, covered inv⟩ ran
  have fits := (run_reserved (by simp) both).2.length_le
  omega

/-- In every run in which `begin_op` admits an operation only while the blocks
logged since the last commit and all that the admitted operations may still log
come to at most LOGSIZE - 2, no step panics and every commit fits the on-disk
log, header included. -/
theorem log_reservation_suffices {s : State π}
    (run : (system π).Run (fun s e => OpBound s e ∧ Covered (LOGSIZE - 2) s e) s) :
    (∀ e, Enabled s e → ∃ after, perform s e = .ok after) ∧
      ∀ p, (s.thread p).phase.commits = true → (1 : Int) + s.blocks.length ≤ nlog := by
  obtain ⟨inv, res⟩ := run_reserved (by simp) run
  have short := res.length_le
  constructor
  · intro e enabled
    cases e with
    | logWrite p b =>
      have inOp : (s.thread p).phase = .inOp := enabled
      have positive := inv.outstanding_pos (p := p) (by rw [inOp]; rfl)
      refine ⟨s.setPhase p (.checked b), ?_⟩
      simp only [perform, logWrite]
      rw [if_neg (by simp only [nlog]; omega), if_neg (by omega)]
    | endOp p =>
      have inOp : (s.thread p).phase = .inOp := enabled
      have clear := inv.not_committing (p := p) (by rw [inOp]; rfl)
      simp only [perform, endOp, clear, Bool.false_eq_true, ↓reduceIte]
      split <;> exact ⟨_, rfl⟩
    | logAppend p | commitClear p =>
      simp only [perform]
      split <;> exact ⟨_, rfl⟩
    | _ => exact ⟨_, rfl⟩
  · simp only [nlog]
    omega

end

instance [DecidableEq π] (s : State π) : Decidable (OpBound s e) := by
  unfold OpBound
  split <;> infer_instance

/-- A thread logs the `count` blocks from `first` on. -/
private def logs (p : Fin 3) (first count : Nat) : List (Event (Fin 3)) :=
  (List.range count).flatMap fun i => [.logWrite p (BitVec.ofNat 32 (first + i)), .logAppend p]

/-- Three operations that are admitted together log ten, ten and nine blocks. -/
theorem logged_le_logsize_three : ∃ s : State (Fin 3), (system (Fin 3)).Run OpBound s ∧
    s.blocks.length = 29 ∧ s.blocks.length ≤ LOGSIZE := by
  obtain ⟨s, run, here⟩ := System.exists_run OpBound (m := system (Fin 3)) (s := {}) rfl
    ([.beginOp 0, .beginOp 1, .beginOp 2] ++ logs 0 100 10 ++ logs 1 110 10 ++ logs 2 120 9)
    (fun s => s.blocks.length = 29) (by decide +kernel)
  exact ⟨s, run, here, logged_le_logsize run⟩

instance (limit : Int) (s : State (Fin 3)) (e : Event (Fin 3)) : Decidable (Covered limit s e) := by
  unfold Covered
  split <;> infer_instance

/-- An operation that begins while another one has logged ten blocks logs ten more, and the
last one to end commits twenty. -/
theorem log_reservation_suffices_two : ∃ s : State (Fin 3),
    (system (Fin 3)).Run (fun s e => OpBound s e ∧ Covered (LOGSIZE - 2) s e) s ∧
      s.blocks.length = 20 ∧ (s.thread 1).phase.commits = true ∧
      (∀ e, Enabled s e → ∃ after, perform s e = .ok after) ∧ (1 : Int) + s.blocks.length ≤ nlog := by
  obtain ⟨s, run, logged, commits⟩ := System.exists_run (fun s e => OpBound s e ∧ Covered (LOGSIZE - 2) s e)
    (m := system (Fin 3)) (s := {}) rfl
    ([.beginOp 0] ++ logs 0 100 10 ++ [.beginOp 1] ++ logs 1 110 10 ++ [.endOp 0, .endOp 1])
    (fun s => s.blocks.length = 20 ∧ (s.thread 1).phase.commits = true) (by decide +kernel)
  obtain ⟨steps, fits⟩ := log_reservation_suffices run
  exact ⟨s, run, logged, commits, steps, fits 1 commits⟩

/-- Three operations of ten blocks each, admitted together, stop at the thirtieth
block. If two threads make the check of `log_write` together, all thirty are
logged and the commit does not fit. -/
theorem three_full_operations_overflow :
    (∃ s : State (Fin 3), (system (Fin 3)).Run OpBound s ∧ Enabled s (.logWrite 2 129) ∧
      OpBound s (.logWrite 2 129) ∧
      perform s (.logWrite 2 129) = .error (.panic "too big a transaction")) ∧
    ∃ s : State (Fin 3), (system (Fin 3)).Run OpBound s ∧ (s.thread 2).phase.commits = true ∧
      ¬ (1 : Int) + s.blocks.length ≤ nlog := by
  have init : (system (Fin 3)).Init {} := rfl
  let begun : List (Event (Fin 3)) := [.beginOp 0, .beginOp 1, .beginOp 2]
  constructor
  · obtain ⟨s, run, inOp, bound, full⟩ := System.exists_run OpBound init
      (begun ++ logs 0 100 10 ++ logs 1 110 10 ++ logs 2 120 9)
      (fun s => Enabled s (.logWrite 2 129) ∧ OpBound s (.logWrite 2 129) ∧
        nlog - 1 ≤ (s.blocks.length : Int)) (by decide +kernel)
    refine ⟨s, run, inOp, bound, ?_⟩
    simp only [perform, logWrite]
    rw [if_pos (.inr full)]
  · obtain ⟨s, run, here⟩ := System.exists_run OpBound init
      (begun ++ logs 0 100 10 ++ logs 1 110 9 ++ logs 2 120 9 ++
        [.logWrite 1 119, .logWrite 2 129, .logAppend 1, .logAppend 2, .endOp 0, .endOp 1, .endOp 2])
      (fun s => (s.thread 2).phase.commits = true ∧
        ¬ (1 : Int) + s.blocks.length ≤ nlog) (by decide +kernel)
    exact ⟨s, run, here⟩

end Xv6.LogReservation
