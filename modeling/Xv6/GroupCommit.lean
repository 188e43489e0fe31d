import Xv6.LogProtocol

/-! Group commit takes whole operations and never wedges. While an operation is
in progress no commit runs, so everything it logs is in the header when the next
commit copies it; while a commit runs nothing is logged. A thread goes to sleep
in `begin_op` only when an `end_op` that will wake it is still to come. -/
namespace Xv6.GroupCommit
open CheckedC RedoLog StepSystem Tally LogProtocol Function

/-- What a thread counts for in `log.outstanding`. -/
def occupies (t : Thread) : Int := if t.phase.inside then 1 else 0

/-- What the state is like while a thread is in a phase. -/
def PhaseInv (s : State π) : Phase → Prop
  | .asleep => s.committing = true ∨ 1 ≤ s.outstanding
  | .ending => s.committing = true
  | .copying blocks => s.committing = true ∧ s.blocks = blocks
  | .cleared => s.committing = true ∧ s.blocks = []
  | _ => True

/-- Where a logged block is now: still in the header, or in the commit with the
number of its epoch. -/
def Located (s : State π) (r : Entry π) : Prop :=
  (r.epoch = s.committed.length ∧ r.block ∈ s.blocks) ∨
    ∃ blocks, s.committed[r.epoch]? = some blocks ∧ r.block ∈ blocks

structure EntryInv (s : State π) (r : Entry π) : Prop where
  numbered : r.op ≤ (s.thread r.thread).op
  located : Located s r
  present : (s.thread r.thread).phase.inside = true → r.op = (s.thread r.thread).op →
    r.epoch = s.committed.length

variable {π : Type} [DecidableEq π] [Fintype π]

structure Inv (s : State π) : Prop where
  counted : s.outstanding = tally occupies s.thread
  phases : ∀ p, PhaseInv s (s.thread p).phase
  committer : s.committing = true → ∃ p, (s.thread p).phase.commits = true
  alone : ∀ p q, (s.thread p).phase.commits = true → (s.thread q).phase.commits = true → p = q
  quiet : s.committing = true → s.outstanding = 0
  drained : s.committing = false → s.outstanding = 0 → s.blocks = []
  entries : ∀ r ∈ s.logged, EntryInv s r
  whole : ∀ r ∈ s.logged, ∀ r' ∈ s.logged, r.thread = r'.thread → r.op = r'.op →
    r.epoch = r'.epoch

section
omit [DecidableEq π]
variable {s after : State π}

omit [Fintype π] in
theorem PhaseInv.committing (held : PhaseInv s phase) (commits : phase.commits = true) :
    s.committing = true := by
  cases phase with
  | ending => exact held
  | copying blocks => exact held.1
  | cleared => exact held.1
  | _ => cases commits

omit [Fintype π] in
theorem phaseInv_of_idle (idle : phase.commits = false)
    (asleep : phase = .asleep → s.committing = true ∨ 1 ≤ s.outstanding) : PhaseInv s phase := by
  cases phase with
  | asleep => exact asleep rfl
  | ending | copying | cleared => cases idle
  | _ => trivial

theorem occupies_nonneg (t : Thread) : 0 ≤ occupies t := by
  unfold occupies
  split <;> omega

theorem Inv.outstanding_nonneg (inv : Inv s) : 0 ≤ s.outstanding := by
  rw [inv.counted]
  exact tally_nonneg fun p => occupies_nonneg _

theorem Inv.outstanding_pos (inv : Inv s) (inside : (s.thread p).phase.inside = true) :
    1 ≤ s.outstanding := by
  rw [inv.counted]
  have one : occupies (s.thread p) = 1 := by simp [occupies, inside]
  rw [← one]
  exact le_tally (fun q => occupies_nonneg _) p

theorem Inv.not_committing (inv : Inv s) (inside : (s.thread p).phase.inside = true) :
    s.committing = false := by
  have positive := inv.outstanding_pos inside
  by_contra set
  have zero := inv.quiet (by simpa using set)
  omega

theorem Inv.no_committer (inv : Inv s) (clear : s.committing = false) :
    (s.thread p).phase.commits = false := by
  by_contra commits
  have set := (inv.phases p).committing (by simpa using commits)
  rw [clear] at set
  cases set

/-! ## What a step owes -/

theorem Inv.recounted (inv : Inv s) (outstanding : after.outstanding = s.outstanding)
    (inside : ∀ q, (after.thread q).phase.inside = (s.thread q).phase.inside) :
    after.outstanding = tally occupies after.thread := by
  rw [outstanding, inv.counted]
  exact tally_congr fun q => by rw [occupies, occupies, inside q]

omit [Fintype π] in
theorem EntryInv.keep (held : EntryInv s r) (committed : after.committed = s.committed)
    (blocks : ∀ b ∈ s.blocks, b ∈ after.blocks)
    (op : (after.thread r.thread).op = (s.thread r.thread).op)
    (inside : (after.thread r.thread).phase.inside = true →
      (s.thread r.thread).phase.inside = true) : EntryInv after r where
  numbered := by
    rw [op]
    exact held.numbered
  located := by
    unfold Located
    rw [committed]
    exact held.located.imp (fun here => ⟨here.1, blocks _ here.2⟩) id
  present still same := by
    rw [op] at same
    rw [committed]
    exact held.present (inside still) same

theorem Inv.steady {thread : π → Thread} (inv : Inv s)
    (same : ∀ q, (thread q).phase.inside = (s.thread q).phase.inside ∧
      (thread q).phase.commits = (s.thread q).phase.commits ∧ (thread q).op = (s.thread q).op)
    (phases : ∀ q, PhaseInv s (thread q).phase) : Inv { s with thread := thread } where
  counted := inv.recounted rfl fun q => (same q).1
  phases := phases
  committer set := by
    obtain ⟨q, commits⟩ := inv.committer set
    exact ⟨q, (same q).2.1.trans commits⟩
  alone q r first second :=
    inv.alone q r ((same q).2.1.symm.trans first) ((same r).2.1.symm.trans second)
  quiet := inv.quiet
  drained := inv.drained
  entries r member := (inv.entries r member).keep rfl (fun _ => id) (same r.thread).2.2
    (same r.thread).1.symm.trans
  whole := inv.whole

theorem inv_of_clear (clear : after.committing = false)
    (idle : ∀ q, (after.thread q).phase.commits = false)
    (counted : after.outstanding = tally occupies after.thread)
    (asleep : ∀ q, (after.thread q).phase = .asleep → 1 ≤ after.outstanding)
    (drained : after.outstanding = 0 → after.blocks = [])
    (entries : ∀ r ∈ after.logged, EntryInv after r)
    (whole : ∀ r ∈ after.logged, ∀ r' ∈ after.logged, r.thread = r'.thread → r.op = r'.op →
      r.epoch = r'.epoch) : Inv after where
  counted := counted
  phases q := phaseInv_of_idle (idle q) fun sleeps => .inr (asleep q sleeps)
  committer set := absurd set (by simp [clear])
  alone q _ commits := absurd commits (by simp [idle q])
  quiet set := absurd set (by simp [clear])
  drained _ := drained
  entries := entries
  whole := whole

theorem inv_of_commit (p : π) (set : after.committing = true) (zero : after.outstanding = 0)
    (commits : (after.thread p).phase.commits = true)
    (only : ∀ q, (after.thread q).phase.commits = true → q = p)
    (held : PhaseInv after (after.thread p).phase)
    (counted : after.outstanding = tally occupies after.thread)
    (entries : ∀ r ∈ after.logged, EntryInv after r)
    (whole : ∀ r ∈ after.logged, ∀ r' ∈ after.logged, r.thread = r'.thread → r.op = r'.op →
      r.epoch = r'.epoch) : Inv after where
  counted := counted
  phases q := by
    by_cases here : q = p
    · rw [here]
      exact held
    · exact phaseInv_of_idle (by simpa using mt (only q) here) fun _ => .inl set
  committer _ := ⟨p, commits⟩
  alone q r first second := (only q first).trans (only r second).symm
  quiet _ := zero
  drained clear := absurd set (by simp [clear])
  entries := entries
  whole := whole

end

/-! ## Steps -/

section
variable {s : State π}

theorem Inv.moved (inv : Inv s) (p : π) (inside : phase.inside = (s.thread p).phase.inside)
    (commits : phase.commits = (s.thread p).phase.commits) (held : PhaseInv s phase) :
    Inv (s.setPhase p phase) := by
  refine inv.steady (fun q => ?_) fun q => ?_
  · by_cases here : q = p
    · subst here
      simp [inside, commits]
    · simp [here]
  · by_cases here : q = p
    · subst here
      rw [update_self]
      exact held
    · rw [update_of_ne here]
      exact inv.phases q

omit [DecidableEq π] [Fintype π] in
theorem wakeup_thread (s : State π) (q : π) :
    ((s.wakeup.thread q).phase.inside = (s.thread q).phase.inside ∧
      (s.wakeup.thread q).phase.commits = (s.thread q).phase.commits ∧
      (s.wakeup.thread q).op = (s.thread q).op ∧ (s.wakeup.thread q).mine = (s.thread q).mine) ∧
    (s.wakeup.thread q).phase ≠ .asleep ∧
    ((s.wakeup.thread q).phase = .woken ∨ (s.wakeup.thread q).phase = (s.thread q).phase) := by
  by_cases asleep : (s.thread q).phase = .asleep
  · simp [State.wakeup, asleep, Phase.inside, Phase.commits]
  · simp [State.wakeup, asleep]

omit [DecidableEq π] in
theorem Inv.woke (inv : Inv s) : Inv s.wakeup := by
  refine inv.steady (fun q => ?_) fun q => ?_
  · obtain ⟨⟨inside, commits, op, _⟩, _⟩ := wakeup_thread s q
    exact ⟨inside, commits, op⟩
  · change PhaseInv s (s.wakeup.thread q).phase
    rcases (wakeup_thread s q).2.2 with woken | same
    · rw [woken]
      trivial
    · rw [same]
      exact inv.phases q

theorem Inv.entered (inv : Inv s) (clear : s.committing = false)
    (outside : (s.thread p).phase.inside = false) :
    Inv { s with
      outstanding := s.outstanding + 1
      thread := update s.thread p
        { phase := .inOp, op := (s.thread p).op + 1, mine := mine } } := by
  have before := inv.outstanding_nonneg
  refine inv_of_clear clear (fun q => ?_) ?_ (fun _ _ => by simp only; omega)
    (fun zero => by simp only at zero; omega) (fun r member => ?_) inv.whole
  · by_cases here : q = p
    · subst here
      simp [Phase.commits]
    · simpa [here] using inv.no_committer clear
  · have gone : occupies (s.thread p) = 0 := by simp [occupies, outside]
    rw [tally_update, ← inv.counted, gone]
    simp [occupies, Phase.inside]
  · obtain ⟨numbered, located, present⟩ := inv.entries r member
    by_cases here : r.thread = p
    · refine ⟨?_, located, fun _ same => ?_⟩
      · simp only [here, update_self]
        rw [here] at numbered
        omega
      · simp only [here, update_self] at same
        rw [here] at numbered
        omega
    · refine ⟨?_, located, ?_⟩
      · simpa [here] using numbered
      · simpa [here] using present

theorem mem_record : b ∈ record blocks c ↔ b ∈ blocks ∨ b = c := by
  unfold record
  split
  · constructor
    · exact .inl
    · rintro (old | rfl)
      · exact old
      · assumption
  · simp

theorem Inv.appended (inv : Inv s) (phase : (s.thread p).phase = .checked b) :
    Inv (logAppend s p b) := by
  have inside : (s.thread p).phase.inside = true := by rw [phase]; rfl
  have clear := inv.not_committing inside
  have positive := inv.outstanding_pos inside
  have same : ∀ q, ((logAppend s p b).thread q).phase.inside = (s.thread q).phase.inside ∧
      ((logAppend s p b).thread q).op = (s.thread q).op ∧
      ((logAppend s p b).thread q).phase.commits = (s.thread q).phase.commits := by
    intro q
    by_cases here : q = p
    · subst here
      simp [logAppend, phase, Phase.inside, Phase.commits]
    · simp [logAppend, here]
  refine inv_of_clear clear (fun q => (same q).2.2.trans (inv.no_committer clear))
    (inv.recounted rfl fun q => (same q).1) (fun _ _ => positive) (fun zero => ?_)
    (fun r member => ?_) ?_
  · simp only [logAppend] at zero
    omega
  · simp only [logAppend, List.mem_cons] at member
    rcases member with rfl | member
    · refine ⟨?_, .inl ⟨rfl, mem_record.mpr (.inr rfl)⟩, fun _ _ => rfl⟩
      exact le_of_eq (same p).2.1.symm
    · exact (inv.entries r member).keep rfl (fun b held => mem_record.mpr (.inl held))
        (same r.thread).2.1 (same r.thread).1.symm.trans
  · -- the entries of the present operation all have the present epoch
    have current : ∀ r ∈ s.logged, r.thread = p → r.op = (s.thread p).op →
        r.epoch = s.committed.length := by
      rintro r member rfl op
      exact (inv.entries r member).present inside op
    intro r member r' member' thread op
    simp only [logAppend, List.mem_cons] at member member'
    rcases member with rfl | member
    · rcases member' with rfl | member'
      · rfl
      · exact (current r' member' thread.symm op.symm).symm
    · rcases member' with rfl | member'
      · exact current r member thread op
      · exact inv.whole r member r' member' thread op

private theorem Inv.left (inv : Inv s) (after : State π) (phase : Phase)
    (inside : (s.thread p).phase.inside = true)
    (threads : after.thread = update s.thread p { s.thread p with phase := phase })
    (outside : phase.inside = false) (outstanding : after.outstanding = s.outstanding - 1)
    (history : after.committed = s.committed ∧ after.logged = s.logged)
    (blocks : after.blocks = s.blocks) :
    after.outstanding = tally occupies after.thread ∧ (∀ r ∈ after.logged, EntryInv after r) ∧
      ∀ r ∈ after.logged, ∀ r' ∈ after.logged, r.thread = r'.thread → r.op = r'.op →
        r.epoch = r'.epoch := by
  refine ⟨?_, fun r member => ?_, ?_⟩
  · have gone : occupies (s.thread p) = 1 := by simp [occupies, inside]
    have now : occupies { s.thread p with phase := phase } = 0 := by simp [occupies, outside]
    rw [threads, tally_update, ← inv.counted, gone, now, outstanding]
    omega
  · rw [history.2] at member
    refine (inv.entries r member).keep history.1 (fun b held => blocks ▸ held) ?_ ?_
    · by_cases here : r.thread = p <;> simp [threads, here]
    · by_cases here : r.thread = p
      · simp [threads, here, outside]
      · simp [threads, here]
  · rw [history.2]
    exact inv.whole

theorem Inv.begins_commit (inv : Inv s) (phase : (s.thread p).phase = .inOp)
    (last : s.outstanding - 1 = 0) :
    Inv { s.setPhase p .ending with outstanding := s.outstanding - 1, committing := true } := by
  have inside : (s.thread p).phase.inside = true := by rw [phase]; rfl
  have clear := inv.not_committing inside
  obtain ⟨counted, entries, whole⟩ := inv.left
    { s.setPhase p .ending with outstanding := s.outstanding - 1, committing := true } .ending
    inside rfl rfl rfl ⟨rfl, rfl⟩ rfl
  refine inv_of_commit p rfl last (by simp [State.setPhase, Phase.commits]) (fun q commits => ?_)
    (by simp [State.setPhase, PhaseInv]) counted entries whole
  by_contra other
  simp only [State.setPhase, update_of_ne other] at commits
  rw [inv.no_committer clear] at commits
  cases commits

theorem Inv.departs (inv : Inv s) (phase : (s.thread p).phase = .inOp)
    (others : s.outstanding - 1 ≠ 0) :
    Inv (State.setPhase { s with outstanding := s.outstanding - 1 } p .idle) := by
  have inside : (s.thread p).phase.inside = true := by rw [phase]; rfl
  have clear := inv.not_committing inside
  have positive := inv.outstanding_pos inside
  obtain ⟨counted, entries, whole⟩ := inv.left
    (State.setPhase { s with outstanding := s.outstanding - 1 } p .idle) .idle inside rfl rfl rfl
    ⟨rfl, rfl⟩ rfl
  refine inv_of_clear clear (fun q => ?_) counted (fun _ _ => ?_) (fun zero => absurd zero others)
    entries whole
  · by_cases here : q = p
    · subst here
      simp [State.setPhase, Phase.commits]
    · simpa [State.setPhase, here] using inv.no_committer clear
  · simp only [State.setPhase]
    omega

theorem Inv.erased (inv : Inv s) (phase : (s.thread p).phase = .copying blocks) :
    Inv (commitClear s p blocks) := by
  have held : s.committing = true ∧ s.blocks = blocks := by
    have := inv.phases p
    rwa [phase] at this
  have zero := inv.quiet held.1
  have committer : (s.thread p).phase.commits = true := by rw [phase]; rfl
  have outside : ∀ q, (s.thread q).phase.inside = false := by
    intro q
    by_contra inside
    have positive := inv.outstanding_pos (by simpa using inside)
    omega
  have same : ∀ q, ((commitClear s p blocks).thread q).phase.inside = false ∧
      ((commitClear s p blocks).thread q).phase.commits = (s.thread q).phase.commits ∧
      ((commitClear s p blocks).thread q).op = (s.thread q).op := by
    intro q
    by_cases here : q = p
    · subst here
      simp [commitClear, State.setPhase, phase, Phase.inside, Phase.commits]
    · simpa [commitClear, State.setPhase, here] using outside q
  refine inv_of_commit p held.1 zero ((same p).2.1.trans committer)
    (fun q commits => inv.alone q p ((same q).2.1.symm.trans commits) committer)
    (by simpa [commitClear, State.setPhase, PhaseInv] using held.1)
    (inv.recounted rfl fun q => (same q).1.trans (outside q).symm) (fun r member => ?_) inv.whole
  obtain ⟨numbered, located, _⟩ := inv.entries r member
  refine ⟨?_, .inr ?_, fun inside => ?_⟩
  · rw [(same r.thread).2.2]
    exact numbered
  · rcases located with ⟨now, here⟩ | ⟨earlier, found, here⟩
    · exact ⟨blocks, by simp [commitClear, now], by rwa [← held.2]⟩
    · obtain ⟨inside, _⟩ := List.getElem?_eq_some_iff.mp found
      exact ⟨earlier, by simpa [commitClear, List.getElem?_append_left inside] using found, here⟩
  · rw [(same r.thread).1] at inside
    cases inside

theorem Inv.ends_commit (inv : Inv s) (phase : (s.thread p).phase = .cleared)
    (awake : ∀ q, (s.thread q).phase ≠ .asleep) :
    Inv { s.setPhase p .idle with committing := false } := by
  have held : s.committing = true ∧ s.blocks = [] := by
    have := inv.phases p
    rwa [phase] at this
  have committer : (s.thread p).phase.commits = true := by rw [phase]; rfl
  have same : ∀ q, ((s.setPhase p .idle).thread q).phase.inside = (s.thread q).phase.inside ∧
      ((s.setPhase p .idle).thread q).op = (s.thread q).op := by
    intro q
    by_cases here : q = p
    · subst here
      simp [State.setPhase, phase, Phase.inside]
    · simp [State.setPhase, here]
  refine inv_of_clear rfl (fun q => ?_) (inv.recounted rfl fun q => (same q).1) (fun q sleeps => ?_)
    (fun _ => held.2) (fun r member => (inv.entries r member).keep rfl (fun _ => id)
      (same r.thread).2 (same r.thread).1.symm.trans) inv.whole
  · by_cases here : q = p
    · subst here
      simp [State.setPhase, Phase.commits]
    · by_contra commits
      exact here (inv.alone q p (by simpa [State.setPhase, here] using commits) committer)
  · by_cases here : q = p
    · subst here
      simp [State.setPhase] at sleeps
    · exact absurd (by simpa [State.setPhase, here] using sleeps) (awake q)

end

/-! ## Runs -/

omit [DecidableEq π] in
theorem init_inv : Inv ({} : State π) := by
  constructor
  · simp [tally, occupies, Phase.inside]
  · intro p
    trivial
  · intro set
    cases set
  · intro p q first
    cases first
  · intro set
    cases set
  · intro _ _
    rfl
  · intro r member
    cases member
  · intro r member
    cases member

omit [DecidableEq π] in
theorem Inv.sleeps {s : State π} (inv : Inv s) (refused : s.committing = true ∨ ¬ Admits s) :
    PhaseInv s .asleep := by
  rcases refused with set | full
  · exact .inl set
  · cases committing : s.committing with
    | true => exact .inl committing
    | false =>
      right
      by_contra none
      have nonneg := inv.outstanding_nonneg
      have zero : s.outstanding = 0 := by omega
      apply full
      simp [Admits, zero, inv.drained committing zero, MAXOPBLOCKS]

theorem step_inv {s : State π} (inv : Inv s) (enabled : Enabled s e)
    (ran : perform s e = .ok after) : Inv after := by
  cases e with
  | beginOp p =>
    cases ran
    have outside : (s.thread p).phase.inside = false ∧ (s.thread p).phase.commits = false := by
      rcases enabled with idle | woken
      · rw [idle]
        exact ⟨rfl, rfl⟩
      · rw [woken]
        exact ⟨rfl, rfl⟩
    unfold beginOp
    split
    · rename_i set
      exact inv.moved p outside.1.symm outside.2.symm (inv.sleeps (.inl set))
    · rename_i clear
      split
      · rename_i full
        exact inv.moved p outside.1.symm outside.2.symm (inv.sleeps (.inr full))
      · exact inv.entered (by simpa using clear) outside.1
  | kill p =>
    cases ran
    have asleep : (s.thread p).phase = .asleep := enabled
    exact inv.moved p (by rw [asleep]; rfl) (by rw [asleep]; rfl) trivial
  | logWrite p b =>
    have inOp : (s.thread p).phase = .inOp := enabled
    simp only [perform, logWrite] at ran
    split at ran
    · cases ran
    · split at ran
      · cases ran
      · cases ran
        exact inv.moved p (by rw [inOp]; rfl) (by rw [inOp]; rfl) trivial
  | logAppend p =>
    obtain ⟨b, phase⟩ := enabled
    simp only [perform, phase] at ran
    cases ran
    exact inv.appended phase
  | endOp p =>
    have inOp : (s.thread p).phase = .inOp := enabled
    simp only [perform, endOp] at ran
    split at ran
    · cases ran
    · split at ran
      · rename_i last
        cases ran
        exact inv.begins_commit inOp last
      · rename_i others
        cases ran
        -- waking the sleepers first or last makes no difference to this thread
        have order : State.setPhase { s with outstanding := s.outstanding - 1 }.wakeup p .idle =
            (State.setPhase { s with outstanding := s.outstanding - 1 } p .idle).wakeup := by
          simp only [State.setPhase, State.wakeup]
          congr 1
          funext q
          by_cases here : q = p
          · subst here
            simp [inOp]
          · simp [here]
        rw [order]
        exact (inv.departs inOp others).woke
  | commitCopy p =>
    cases ran
    have ending : (s.thread p).phase = .ending := enabled
    have set : s.committing = true := (inv.phases p).committing (by rw [ending]; rfl)
    unfold commitCopy
    split
    · exact inv.moved p (by rw [ending]; rfl) (by rw [ending]; rfl) ⟨set, rfl⟩
    · refine inv.moved p (by rw [ending]; rfl) (by rw [ending]; rfl) ⟨set, ?_⟩
      exact List.eq_nil_of_length_eq_zero (by omega)
  | commitClear p =>
    obtain ⟨blocks, phase⟩ := enabled
    simp only [perform, phase] at ran
    cases ran
    exact inv.erased phase
  | endCommit p =>
    cases ran
    have cleared : (s.thread p).phase = .cleared := enabled
    have still : (s.wakeup.thread p).phase = .cleared := by
      simp [State.wakeup, cleared]
    exact inv.woke.ends_commit still fun q => (wakeup_thread s q).2.1

theorem run_inv {s : State π} (run : (system π).Run ok s) : Inv s := by
  apply run.invariant
  · rintro s rfl
    exact init_inv
  · intro s e after inv enabled _ ran
    exact step_inv inv enabled ran

structure Grouped (s : State π) : Prop where
  /-- Neither half of `log_write` runs while a commit does. -/
  silent : ∀ p b, Enabled s (.logWrite p b) ∨ (s.thread p).phase = .checked b →
    s.committing = false
  /-- The panic of `end_op` is out of reach. -/
  ends : ∀ p, Enabled s (.endOp p) → ∃ after, perform s (.endOp p) = .ok after
  /-- All blocks an operation logged have the same epoch. -/
  whole : ∀ r ∈ s.logged, ∀ r' ∈ s.logged, r.thread = r'.thread → r.op = r'.op →
    r.epoch = r'.epoch
  /-- They are all in the commit of that epoch, or all still in the header. -/
  located : ∀ r ∈ s.logged, Located s r
  /-- A commit runs only when nothing is outstanding, one at a time, and the
  header keeps what it copies. -/
  exclusive : ∀ p, (s.thread p).phase.commits = true → s.committing = true ∧
    s.outstanding = 0 ∧ ∀ q, (s.thread q).phase.commits = true → q = p
  copies : ∀ p blocks, (s.thread p).phase = .copying blocks → s.blocks = blocks
  /-- A sleeping thread has someone to wake it. -/
  woken : ∀ p, (s.thread p).phase = .asleep →
    (s.committing = true ∧ ∃ q, (s.thread q).phase.commits = true) ∨
      (1 ≤ s.outstanding ∧ ∃ q, (s.thread q).phase.inside = true)
  drained : s.outstanding = 0 → s.committing = false → s.blocks = []

theorem group_commit {s : State π} (run : (system π).Run (fun _ _ => True) s) : Grouped s := by
  have inv := run_inv run
  constructor
  · rintro p b (inOp | checked)
    · apply inv.not_committing (p := p)
      rw [show (s.thread p).phase = .inOp from inOp]
      rfl
    · apply inv.not_committing (p := p)
      rw [checked]
      rfl
  · intro p inOp
    have clear := inv.not_committing (p := p) (by
      rw [show (s.thread p).phase = .inOp from inOp]
      rfl)
    simp only [perform, endOp, clear, Bool.false_eq_true, ↓reduceIte]
    split <;> exact ⟨_, rfl⟩
  · exact inv.whole
  · intro r member
    exact (inv.entries r member).located
  · intro p commits
    have set := (inv.phases p).committing commits
    exact ⟨set, inv.quiet set, fun q commits' => inv.alone q p commits' commits⟩
  · intro p blocks copying
    have held := inv.phases p
    rw [copying] at held
    exact held.2
  · intro p asleep
    have held := inv.phases p
    rw [asleep] at held
    rcases held with set | positive
    · exact .inl ⟨set, inv.committer set⟩
    · refine .inr ⟨positive, ?_⟩
      by_contra none
      simp only [not_exists, Bool.not_eq_true] at none
      have zero : tally occupies s.thread = 0 := Finset.sum_eq_zero fun q _ => by
        simp [occupies, none q]
      rw [inv.counted, zero] at positive
      omega
  · intro zero clear
    exact inv.drained clear zero

/-- After a commit of one operation, two operations share the next; a third thread sleeps until
it is over. -/
theorem group_commit_shared : ∃ s : State (Fin 3), (system (Fin 3)).Run (fun _ _ => True) s ∧
    (s.committed = [[50]] ∧ s.logged.length = 5 ∧ (s.thread 1).phase = .copying [100, 101, 102] ∧
      (s.thread 2).phase = .asleep) ∧ Grouped s := by
  obtain ⟨s, run, here⟩ := System.exists_run (fun _ _ => True) (m := system (Fin 3)) (s := {}) rfl
    [.beginOp 2, .logWrite 2 50, .logAppend 2, .endOp 2, .commitCopy 2, .commitClear 2,
      .endCommit 2, .beginOp 0, .beginOp 1, .logWrite 0 100, .logAppend 0, .logWrite 1 101,
      .logAppend 1, .logWrite 0 101, .logAppend 0, .endOp 0, .logWrite 1 102, .logAppend 1,
      .endOp 1, .beginOp 2, .commitCopy 1]
    (fun s => s.committed = [[50]] ∧ s.logged.length = 5 ∧
      (s.thread 1).phase = .copying [100, 101, 102] ∧ (s.thread 2).phase = .asleep)
    (by decide +kernel)
  exact ⟨s, run, here, group_commit run⟩

end Xv6.GroupCommit
