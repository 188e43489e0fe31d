import Mathlib.Tactic.FinCases
import Xv6.ProcTable

/-! Ready-queue well-formedness. The membership of a process in a queue is kept
in its state, in its priority and in the array with its counter; the invariant
ties the three together. Every critical section is read as at most one of two
abstract moves on the lists of queued processes, appending a process that was
not ready or removing one that stops being ready. -/
namespace Xv6.ReadyQueues
open CheckedC ArrayQueue ProcTable Function

def Live (state : ProcState) : Prop := state ≠ .unused

/-- The process stands in line for queue `q`. -/
def ReadyFor (proc : Proc) (q : Fin NUMFILAS) : Prop :=
  proc.state = .runnable ∧ proc.priority = ((q : Nat) : Int)

instance : Decidable (ReadyFor proc q) := inferInstanceAs (Decidable (_ ∧ _))

/-- The invariant of the table: the slots of queue `q` below its counter hold a
list of processes in which a RUNNABLE process of priority `q` occurs exactly
once and no other process occurs, counters stay in `0..NPROC`, and priorities
of live processes are queue numbers. -/
structure WellFormed (t : PTable) : Prop where
  queued : ∀ q, ∃ items, Holds (t.queueReady q) (t.countQueue q) items ∧
    ∀ p, items.count p = if ReadyFor (t.proc p) q then 1 else 0
  counted : ∀ q, 0 ≤ t.countQueue q ∧ t.countQueue q ≤ NPROC
  ranged : ∀ p, Live (t.proc p).state → 0 ≤ (t.proc p).priority ∧ (t.proc p).priority ≤ 3

def DistinctPids (t : PTable) : Prop :=
  ∀ p r, Live (t.proc p).state → Live (t.proc r).state → (t.proc p).pid = (t.proc r).pid → p = r

/-! ## Queues as lists -/

abbrev Queues := Fin NUMFILAS → List ProcId

/-- The table realises these lists, and they list exactly the ready ones. -/
structure Lists (t : PTable) (queues : Queues) : Prop where
  held : ∀ q, Holds (t.queueReady q) (t.countQueue q) (queues q)
  distinct : ∀ q, (queues q).Nodup
  members : ∀ q p, p ∈ queues q ↔ ReadyFor (t.proc p) q
  ranged : ∀ p, Live (t.proc p).state → 0 ≤ (t.proc p).priority ∧ (t.proc p).priority ≤ 3

theorem lists_of_well_formed (wf : WellFormed t) : ∃ queues, Lists t queues := by
  choose queues held counts using wf.queued
  refine ⟨queues, held, fun q => ?_, fun q p => ?_, wf.ranged⟩
  · rw [List.nodup_iff_count_le_one]
    intro p
    rw [counts q p]
    split <;> omega
  · rw [← List.count_pos_iff, counts q p]
    split <;> simp_all

section
variable (lists : Lists t queues)
include lists

theorem well_formed_of_lists : WellFormed t := by
  refine ⟨fun q => ⟨queues q, lists.held q, fun p => ?_⟩, fun q => ?_, lists.ranged⟩
  · by_cases ready : ReadyFor (t.proc p) q
    · rw [if_pos ready]
      exact List.count_eq_one_of_mem (lists.distinct q) ((lists.members q p).mpr ready)
    · rw [if_neg ready]
      exact List.count_eq_zero.mpr (fun member => ready ((lists.members q p).mp member))
  · have held := lists.held q
    rw [held.counted]
    exact ⟨by omega, by exact_mod_cast held.fits⟩

theorem Lists.congr (rows : after.queueReady = t.queueReady)
    (counts : after.countQueue = t.countQueue)
    (same : ∀ p q, ReadyFor (after.proc p) q ↔ ReadyFor (t.proc p) q)
    (ranged : ∀ p, Live (after.proc p).state →
      0 ≤ (after.proc p).priority ∧ (after.proc p).priority ≤ 3) : Lists after queues := by
  refine ⟨fun q => ?_, lists.distinct, fun q p => ?_, ranged⟩
  · rw [rows, counts]
    exact lists.held q
  · rw [same]
    exact lists.members q p

theorem Lists.setProc {f : Proc → Proc}
    (before : (t.proc p).state ≠ .runnable) (after : (f (t.proc p)).state ≠ .runnable)
    (ranged : Live (f (t.proc p)).state →
      0 ≤ (f (t.proc p)).priority ∧ (f (t.proc p)).priority ≤ 3) :
    Lists (t.setProc p f) queues := by
  refine lists.congr rfl rfl ?_ ?_
  · intro r q
    by_cases here : r = p
    · subst here
      simp [PTable.setProc, ReadyFor, before, after]
    · simp [PTable.setProc, here]
  · intro r live
    by_cases here : r = p
    · subst here
      simpa [PTable.setProc] using ranged (by simpa [PTable.setProc] using live)
    · simp only [PTable.setProc, update_of_ne here] at live ⊢
      exact lists.ranged r live

theorem Lists.setFields {f : Proc → Proc} (state : (f (t.proc p)).state = (t.proc p).state)
    (priority : (f (t.proc p)).priority = (t.proc p).priority) : Lists (t.setProc p f) queues := by
  refine lists.congr rfl rfl ?_ ?_
  · intro r q
    by_cases here : r = p
    · subst here
      simp [PTable.setProc, ReadyFor, state, priority]
    · simp [PTable.setProc, here]
  · intro r live
    by_cases here : r = p
    · subst here
      simp only [PTable.setProc, update_self, state, priority] at live ⊢
      exact lists.ranged r live
    · simp only [PTable.setProc, update_of_ne here] at live ⊢
      exact lists.ranged r live

theorem Lists.room (absent : p ∉ queues q) : (queues q).length < NPROC :=
  room_of_absent (lists.distinct q) absent

end

theorem queue_of_priority {priority : Int} (range : 0 ≤ priority ∧ priority ≤ 3) :
    ∃ q : Fin NUMFILAS, priority = ((q : Nat) : Int) :=
  ⟨⟨priority.toNat, by simp only [NUMFILAS]; omega⟩, by simp only; omega⟩

/-! ## The two idioms on lists -/

theorem enqueue_appends {queues : Queues}
    (held : ∀ q, Holds (t.queueReady q) (t.countQueue q) (queues q))
    (room : (queues q).length < NPROC) :
    ∃ rows counts, enqueue t ((q : Nat) : Int) p =
        .ok { t with queueReady := rows, countQueue := counts } ∧
      ∀ r, Holds (rows r) (counts r) (update queues q (queues q ++ [p]) r) := by
  have here := held q
  refine ⟨update t.queueReady q
      (update (t.queueReady q) ⟨(queues q).length, room⟩ (some p)),
    update t.countQueue q (t.countQueue q + 1), ?_, fun r => ?_⟩
  · rw [enqueue, index_ofNat q.isLt, bind_ok, here.counted, store_ofNat room, bind_ok]
    rfl
  · by_cases same : r = q
    · subst same
      simpa using here.push room
    · simpa [same] using held r

theorem andarFila_removes {queues : Queues}
    (held : ∀ q, Holds (t.queueReady q) (t.countQueue q) (queues q))
    (inside : position < (queues q).length) :
    ∃ rows, andarFila t q (position : Int) = .ok { t with queueReady := rows } ∧
      ∀ r, Holds (rows r) ((decrementCount t q).countQueue r)
        (update queues q ((queues q).eraseIdx position) r) := by
  obtain ⟨row, ran, removed⟩ := (held q).shiftLeft inside
  refine ⟨update t.queueReady q row, ?_, fun r => ?_⟩
  · rw [andarFila, ran]
    rfl
  · by_cases same : r = q
    · subst same
      simpa [decrementCount] using removed
    · simpa [decrementCount, same] using held r

/-- The file-level variables other than the tables are untouched. -/
structure SameGlobals (t after : PTable) : Prop where
  init : after.initproc = t.initproc
  nextpid : after.nextpid = t.nextpid

theorem SameGlobals.trans (first : SameGlobals t middle) (second : SameGlobals middle after) :
    SameGlobals t after :=
  ⟨second.init.trans first.init, second.nextpid.trans first.nextpid⟩

theorem makeReady_appends {q : Fin NUMFILAS} (lists : Lists t queues)
    (idle : (t.proc p).state ≠ .runnable) (priority : (t.proc p).priority = ((q : Nat) : Int)) :
    ∃ after, makeReady t p = .ok after ∧
      Lists after (update queues q (queues q ++ [p])) ∧ SameGlobals t after ∧
      after.proc = update t.proc p { t.proc p with state := .runnable } := by
  have absent : p ∉ queues q := fun member => idle ((lists.members q p).mp member).1
  obtain ⟨rows, counts, ran, held⟩ := enqueue_appends (p := p) lists.held (lists.room absent)
  refine ⟨PTable.setState { t with queueReady := rows, countQueue := counts } p .runnable, ?_,
    ⟨held, fun r => ?_, fun r s => ?_, fun r live => ?_⟩, ⟨rfl, rfl⟩, rfl⟩
  · rw [makeReady, priority, ran]
    rfl
  · by_cases same : r = q
    · subst same
      simpa using List.Nodup.concat absent (lists.distinct r)
    · simpa [same] using lists.distinct r
  · by_cases here : s = p
    · subst here
      by_cases same : r = q
      · subst same
        simp [PTable.setState, PTable.setProc, ReadyFor, priority]
      · have elsewhere : s ∉ queues r := fun member => idle ((lists.members r s).mp member).1
        have apart : ((q : Nat) : Int) ≠ ((r : Nat) : Int) := fun eq =>
          same (Fin.ext (by exact_mod_cast eq.symm))
        simp [PTable.setState, PTable.setProc, ReadyFor, priority, same, elsewhere, apart]
    · have members := lists.members r s
      by_cases same : r = q
      · subst same
        simpa [PTable.setState, PTable.setProc, here] using members
      · simpa [PTable.setState, PTable.setProc, here, same] using members
  · by_cases here : r = p
    · subst here
      have bound : (q : Nat) < 4 := q.isLt
      simp only [PTable.setState, PTable.setProc, update_self, priority]
      omega
    · simp only [PTable.setState, PTable.setProc, update_of_ne here] at live ⊢
      exact lists.ranged r live

theorem makeReady_spec (lists : Lists t queues) (idle : (t.proc p).state ≠ .runnable)
    (range : 0 ≤ (t.proc p).priority ∧ (t.proc p).priority ≤ 3) :
    ∃ after queues', makeReady t p = .ok after ∧ Lists after queues' ∧ SameGlobals t after ∧
      after.proc = update t.proc p { t.proc p with state := .runnable } := by
  obtain ⟨q, priority⟩ := queue_of_priority range
  obtain ⟨after, effect⟩ := makeReady_appends lists idle priority
  exact ⟨after, _, effect⟩

theorem removed_lists {slot : Proc} (lists : Lists t queues) (inside : position < (queues q).length)
    (here : (queues q)[position] = p)
    (held : ∀ r, Holds (after.queueReady r) (after.countQueue r)
      (update queues q ((queues q).eraseIdx position) r))
    (slots : after.proc = update t.proc p slot) (stopped : slot.state ≠ .runnable)
    (range : 0 ≤ slot.priority ∧ slot.priority ≤ 3) :
    Lists after (update queues q ((queues q).eraseIdx position)) := by
  have priority := ((lists.members q p).mp (here ▸ List.getElem_mem inside)).2
  have erased : (queues q).eraseIdx position = (queues q).erase p := by
    rw [← here, (lists.distinct q).erase_getElem]
  refine ⟨held, fun r => ?_, fun r s => ?_, fun r live => ?_⟩
  · by_cases same : r = q
    · subst same
      simpa using (lists.distinct r).eraseIdx position
    · simpa [same] using lists.distinct r
  · have members := lists.members r s
    rw [slots]
    by_cases same : r = q
    · subst same
      rw [update_self, erased, (lists.distinct r).mem_erase_iff, members]
      by_cases gone : s = p
      · simp [gone, ReadyFor, stopped]
      · simp [gone]
    · rw [update_of_ne same, members]
      by_cases gone : s = p
      · have apart : ((q : Nat) : Int) ≠ ((r : Nat) : Int) := fun eq =>
          same (Fin.ext (by exact_mod_cast eq.symm))
        subst gone
        simp [ReadyFor, stopped, priority, apart]
      · simp [gone]
  · rw [slots] at live ⊢
    by_cases gone : r = p
    · subst gone
      simpa using range
    · rw [update_of_ne gone] at live ⊢
      exact lists.ranged r live

/-! ## Waking up -/

/-- What a round of wakeups can do to the slots: sleepers become RUNNABLE and
nothing else changes. -/
structure Woken (t after : PTable) : Prop where
  globals : SameGlobals t after
  slot : ∀ p, after.proc p = t.proc p ∨
    ((t.proc p).state = .sleeping ∧ after.proc p = { t.proc p with state := .runnable })

theorem Woken.refl (t : PTable) : Woken t t := ⟨⟨rfl, rfl⟩, fun _ => .inl rfl⟩

theorem Woken.trans (first : Woken t middle) (second : Woken middle after) : Woken t after := by
  refine ⟨first.globals.trans second.globals, fun p => ?_⟩
  rcases first.slot p with same | ⟨asleep, woken⟩
  · rw [← same]
    exact second.slot p
  · rcases second.slot p with kept | ⟨again, _⟩
    · exact .inr ⟨asleep, kept.trans woken⟩
    · rw [woken] at again
      cases again

/-- The weaker relation that `kill` and the re-parenting of `exit` keep too:
slots keep pid and priority, and only sleepers change state. -/
structure Stirred (t after : PTable) : Prop where
  globals : SameGlobals t after
  pid : ∀ p, (after.proc p).pid = (t.proc p).pid
  priority : ∀ p, (after.proc p).priority = (t.proc p).priority
  state : ∀ p, (after.proc p).state = (t.proc p).state ∨
    ((t.proc p).state = .sleeping ∧ (after.proc p).state = .runnable)

theorem Woken.stirred (woken : Woken t after) : Stirred t after := by
  refine ⟨woken.globals, fun p => ?_, fun p => ?_, fun p => ?_⟩
  all_goals rcases woken.slot p with same | ⟨asleep, woken⟩
  · rw [same]
  · rw [woken]
  · rw [same]
  · rw [woken]
  · exact .inl (by rw [same])
  · exact .inr ⟨asleep, by rw [woken]⟩

theorem Stirred.refl (t : PTable) : Stirred t t := (Woken.refl t).stirred

theorem Stirred.trans (first : Stirred t middle) (second : Stirred middle after) :
    Stirred t after := by
  refine ⟨first.globals.trans second.globals, fun p => (second.pid p).trans (first.pid p),
    fun p => (second.priority p).trans (first.priority p), fun p => ?_⟩
  rcases first.state p with same | ⟨asleep, woken⟩
  · rw [← same]
    exact second.state p
  · rcases second.state p with kept | ⟨again, _⟩
    · exact .inr ⟨asleep, kept.trans woken⟩
    · rw [woken] at again
      cases again

theorem Stirred.setFields {f : Proc → Proc} (pid : (f (t.proc p)).pid = (t.proc p).pid)
    (priority : (f (t.proc p)).priority = (t.proc p).priority)
    (state : (f (t.proc p)).state = (t.proc p).state) : Stirred t (t.setProc p f) := by
  refine ⟨⟨rfl, rfl⟩, fun r => ?_, fun r => ?_, fun r => .inl ?_⟩
  all_goals by_cases here : r = p
  all_goals first
    | (subst here; simpa [PTable.setProc])
    | simp [PTable.setProc, here]

theorem Stirred.awake (stirred : Stirred t after) (awake : (t.proc p).state ≠ .sleeping) :
    (after.proc p).state = (t.proc p).state :=
  (stirred.state p).resolve_right fun changed => awake changed.1

theorem makeReady_woken (lists : Lists t queues) (asleep : (t.proc p).state = .sleeping) :
    ∃ after queues', makeReady t p = .ok after ∧ Lists after queues' ∧ Woken t after := by
  obtain ⟨after, queues', ran, kept, init, slots⟩ := makeReady_spec lists (by simp [asleep])
    (lists.ranged p (by simp [Live, asleep]))
  refine ⟨after, queues', ran, kept, init, fun r => ?_⟩
  by_cases here : r = p
  · subst here
    exact .inr ⟨asleep, by simp [slots]⟩
  · exact .inl (by simp [slots, here])

theorem wakeup1_spec (lists : Lists t queues) (chan : Chan) :
    ∃ after queues', wakeup1 t chan = .ok after ∧ Lists after queues' ∧ Woken t after := by
  obtain ⟨after, ran, ⟨queues', kept⟩, woken⟩ := foldlM_invariant
    (fun middle => (∃ queues, Lists middle queues) ∧ Woken t middle) (wakeOne chan) slots
    ⟨⟨queues, lists⟩, Woken.refl t⟩ (fun p _ middle ⟨⟨queues, lists⟩, woken⟩ => by
      unfold wakeOne
      split
      · rename_i asleep
        obtain ⟨after, queues', ran, kept, more⟩ := makeReady_woken lists asleep.1
        exact ⟨after, ran, ⟨queues', kept⟩, woken.trans more⟩
      · exact ⟨middle, rfl, ⟨queues, lists⟩, woken⟩)
  exact ⟨after, queues', ran, kept, woken⟩

/-! ## Kill, exit and wait -/

theorem kill_spec (lists : Lists t queues) (pid : Int) :
    ∃ result after queues', kill t pid = .ok (result, after) ∧ Lists after queues' ∧
      Stirred t after := by
  unfold kill
  split
  · exact ⟨-1, t, queues, rfl, lists, Stirred.refl t⟩
  · rename_i p _
    have marked : Lists (t.setProc p fun proc => { proc with killed := true }) queues :=
      lists.setFields rfl rfl
    have mark : Stirred t (t.setProc p fun proc => { proc with killed := true }) :=
      Stirred.setFields rfl rfl rfl
    dsimp only
    split
    · rename_i asleep
      obtain ⟨after, queues', ran, kept, woken⟩ := makeReady_woken marked asleep
      exact ⟨0, after, queues', by simp [ran], kept, mark.trans woken.stirred⟩
    · exact ⟨0, _, queues, rfl, marked, mark⟩

theorem passToInit_spec (lists : Lists t queues) (curproc p : ProcId) :
    ∃ after queues', passToInit curproc t p = .ok after ∧ Lists after queues' ∧
      Stirred t after := by
  unfold passToInit
  split
  · have adopted : Lists (t.setProc p fun proc => { proc with parent := t.initproc }) queues :=
      lists.setFields rfl rfl
    have adopt : Stirred t (t.setProc p fun proc => { proc with parent := t.initproc }) :=
      Stirred.setFields rfl rfl rfl
    dsimp only
    split
    · obtain ⟨after, queues', ran, kept, woken⟩ := wakeup1_spec adopted (chanOf t.initproc)
      exact ⟨after, queues', ran, kept, adopt.trans woken.stirred⟩
    · exact ⟨_, queues, rfl, adopted, adopt⟩
  · exact ⟨t, queues, rfl, lists, Stirred.refl t⟩

theorem exit_spec (lists : Lists t queues) (running : (t.proc curproc).state = .running)
    (ordinary : t.initproc ≠ some curproc) :
    ∃ middle queues', exit t curproc = .ok (middle.setState curproc .zombie) ∧
      Lists middle queues' ∧ Lists (middle.setState curproc .zombie) queues' ∧
      Stirred t middle := by
  obtain ⟨first, queues₁, wakes, lists₁, woken⟩ :=
    wakeup1_spec lists (chanOf (t.proc curproc).parent)
  obtain ⟨second, passes, ⟨queues₂, lists₂⟩, stirred⟩ := foldlM_invariant
    (fun middle => (∃ queues, Lists middle queues) ∧ Stirred t middle)
    (passToInit curproc) slots ⟨⟨queues₁, lists₁⟩, woken.stirred⟩
    (fun p _ middle ⟨⟨queues, lists⟩, stirred⟩ => by
      obtain ⟨after, queues', ran, kept, more⟩ := passToInit_spec lists curproc p
      exact ⟨after, ran, ⟨queues', kept⟩, stirred.trans more⟩)
  have still : (second.proc curproc).state = .running := by
    rw [stirred.awake (by rw [running]; simp), running]
  refine ⟨second, queues₂, ?_, lists₂, ?_, stirred⟩
  · simp [exit, ordinary, wakes, passes]
  · exact lists₂.setProc (by rw [still]; simp) (by simp)
      (fun _ => lists₂.ranged curproc (by rw [Live, still]; simp))

theorem sleep_keeps (lists : Lists t queues) (running : (t.proc p).state = .running)
    (chan : Chan) : Lists (sleep t p chan) queues :=
  lists.setProc (by rw [running]; simp) (by simp)
    (fun _ => lists.ranged p (by rw [Live, running]; simp))

theorem waitPass_outcome (clear : Proc → Proc) (report : Proc → α) (t : PTable)
    (curproc : ProcId) :
    (∃ p, (t.proc p).parent = some curproc ∧ (t.proc p).state = .zombie ∧
      waitPass clear report t curproc = (.reaped (report (t.proc p)), t.setProc p clear)) ∨
    (((∀ p, (t.proc p).parent ≠ some curproc) ∨ (t.proc curproc).killed = true) ∧
      waitPass clear report t curproc = (.failed, t)) ∨
    ((∀ p, (t.proc p).parent = some curproc → (t.proc p).state ≠ .zombie) ∧
      waitPass clear report t curproc = (.asleep, sleep t curproc (.proc curproc))) := by
  unfold waitPass
  split
  · rename_i p found
    have child := List.find?_some found
    simp only [decide_eq_true_eq] at child
    exact .inl ⟨p, child.1, child.2, rfl⟩
  · rename_i absent
    have none : ∀ p, (t.proc p).parent = some curproc → (t.proc p).state ≠ .zombie := by
      intro p child zombie
      have here := List.find?_eq_none.mp absent p (List.mem_finRange p)
      simp [child, zombie] at here
    dsimp only
    split
    · rename_i fails
      refine .inr (.inl ⟨?_, rfl⟩)
      rcases (Bool.or_eq_true _ _).mp fails with childless | killed
      · refine .inl fun p child => ?_
        rw [Bool.not_eq_true', List.any_eq_false] at childless
        exact childless p (List.mem_finRange p) (by simp [child])
      · exact .inr killed
    · exact .inr (.inr ⟨none, rfl⟩)

theorem waitPass_keeps {report : Proc → α} (lists : Lists t queues)
    (running : (t.proc curproc).state = .running)
    (frees : ∀ proc, (clear proc).state = .unused) :
    Lists (waitPass clear report t curproc).2 queues := by
  rcases waitPass_outcome clear report t curproc with ⟨p, _, zombie, ends⟩ | ⟨_, ends⟩ | ⟨_, ends⟩
  · rw [ends]
    exact lists.setProc (by rw [zombie]; simp) (by rw [frees]; simp)
      (fun live => absurd (frees _) live)
  · rw [ends]
    exact lists
  · rw [ends]
    exact sleep_keeps lists running _

/-! ## Creation, yield and change_prio -/

theorem enterReady_spec (lists : Lists t queues) (embryo : (t.proc p).state = .embryo) :
    ∃ after, enterReady t p = .ok after ∧
      Lists after (update queues 1 (queues 1 ++ [p])) ∧ SameGlobals t after ∧
      after.proc = update t.proc p
        { t.proc p with priority := PRIO, state := .runnable } := by
  have placed : Lists (t.setProc p fun proc => { proc with priority := PRIO }) queues :=
    lists.setProc (by rw [embryo]; simp) (by simp [embryo]) (fun _ => by simp [ PRIO])
  obtain ⟨after, ran, kept, globals, slots⟩ := makeReady_appends (p := p) (q := 1) placed
    (by simp [PTable.setProc, embryo]) (by simp [PTable.setProc, PRIO])
  refine ⟨after, ?_, kept, ⟨globals.init, globals.nextpid⟩, ?_⟩
  · rw [← ran]
    simp [enterReady, makeReady, PTable.setProc]
  · simp [slots, PTable.setProc]

section
variable (lists : Lists t queues) (running : (t.proc p).state = .running)
include lists running

theorem yield_spec :
    ∃ after queues', yield t p = .ok after ∧ Lists after queues' ∧ SameGlobals t after ∧
      after.proc = update t.proc p { t.proc p with state := .runnable } :=
  makeReady_spec lists (by rw [running]; simp) (lists.ranged p (by rw [Live, running]; simp))

theorem changePrioSet_keeps
    (accepted : prioAccepted wanted) : Lists (changePrioSet t p wanted) queues := by
  unfold prioAccepted at accepted
  exact lists.setProc (by rw [running]; simp) (by simp [running])
    (fun _ => by simp only; omega)

theorem changePrio_keeps (wanted : Int) :
    ∃ result after queues', changePrio t p wanted = .ok (result, after) ∧ Lists after queues' := by
  unfold changePrio
  split
  · rename_i accepted
    obtain ⟨after, queues', ran, kept, _⟩ :=
      yield_spec (p := p) (changePrioSet_keeps lists running accepted)
        (by simp [changePrioSet, PTable.setProc, running])
    exact ⟨none, after, queues', by simp [ran], kept⟩
  · exact ⟨some (-1), t, queues, rfl, lists⟩

end

theorem changePrioTail_skips (running : (t.proc p).state = .running) (wanted : Int) :
    changePrioTail t p wanted = .ok (0, t) := by
  simp [changePrioTail, running]

theorem updateClock_keeps (lists : Lists t queues) : Lists (updateClock t) queues := by
  have state : ∀ proc : Proc, (tick proc).state = proc.state := by
    intro proc
    unfold tick
    split <;> simp_all
  have priority : ∀ proc : Proc, (tick proc).priority = proc.priority := by
    intro proc
    unfold tick
    split <;> rfl
  refine lists.congr rfl rfl (fun p q => ?_) (fun p live => ?_)
  · simp [updateClock, ReadyFor, state, priority]
  · simp only [updateClock, state, priority] at live ⊢
    exact lists.ranged p live

/-! ## Aging -/

theorem achaPosicao_finds {queues : Queues}
    (held : ∀ q, Holds (t.queueReady q) (t.countQueue q) (queues q))
    (distinct : (queues q).Nodup) (inside : position < (queues q).length)
    (here : (queues q)[position] = p)
    (unique : ∀ r ∈ queues q, (t.proc p).pid = (t.proc r).pid → r = p) :
    achaPosicao t q p = .ok (position : Int) := by
  have counted := (held q).counted
  -- once the loop has passed `position`, the result stays there
  obtain ⟨found, ran, settled⟩ := forLoop_invariant
    (fun i found => (position : Int) < i → found = (position : Int)) 0 (t.countQueue q)
    (fun i posicao => do
      let r ← deref (← load (t.queueReady q) i)
      return if (t.proc p).pid = (t.proc r).pid then i else posicao)
    0 (by omega) (fun passed => by omega)
    (fun i found low high settled => by
      obtain ⟨i, rfl⟩ := Int.eq_ofNat_of_zero_le low
      have bound : i < (queues q).length := by omega
      rw [(held q).load bound]
      refine ⟨_, rfl, fun passed => ?_⟩
      split
      · rename_i same
        have found := unique _ (List.getElem_mem bound) same
        have position : i = position := (distinct.getElem_inj_iff).mp (found.trans here.symm)
        rw [position]
      · rename_i differs
        have elsewhere : i ≠ position := by
          intro same
          subst same
          exact differs (by rw [here])
        exact settled (by omega))
  rw [achaPosicao, ran, settled (by omega)]

/-- The two tables agree on everything aging looks at besides priorities and
waiting times. -/
structure SameIdentity (t after : PTable) : Prop where
  globals : SameGlobals t after
  state : ∀ p, (after.proc p).state = (t.proc p).state
  pid : ∀ p, (after.proc p).pid = (t.proc p).pid
  priority : ∀ p, (t.proc p).state ≠ .runnable → (after.proc p).priority = (t.proc p).priority

theorem SameIdentity.refl (t : PTable) : SameIdentity t t :=
  ⟨⟨rfl, rfl⟩, fun _ => rfl, fun _ => rfl, fun _ _ => rfl⟩

theorem SameIdentity.trans (first : SameIdentity t middle) (second : SameIdentity middle after) :
    SameIdentity t after :=
  ⟨first.globals.trans second.globals, fun p => (second.state p).trans (first.state p),
    fun p => (second.pid p).trans (first.pid p), fun p idle =>
      (second.priority p (by rwa [first.state p])).trans (first.priority p idle)⟩

theorem SameIdentity.distinct (same : SameIdentity t after) (distinct : DistinctPids t) :
    DistinctPids after := by
  intro p r live live' pids
  rw [same.state] at live live'
  rw [same.pid, same.pid] at pids
  exact distinct p r live live' pids

section
variable (lists : Lists t queues) (distinct : DistinctPids t)
include lists distinct

theorem auxTrocarFilaPriority_spec {q nova : Fin NUMFILAS} (waiting : ReadyFor (t.proc p) q)
    (above : (nova : Nat) = (q : Nat) + 1) : ∃ after, auxTrocarFilaPriority
        (t.setProc p fun proc => { proc with priority := ((nova : Nat) : Int) }) p
        ((nova : Nat) : Int) = .ok after ∧
      Lists after (update (update queues q ((queues q).erase p)) nova
        (queues nova ++ [p])) ∧ SameIdentity t after := by
  set raised := t.setProc p fun proc => { proc with priority := ((nova : Nat) : Int) } with raise
  have apart : nova ≠ q := fun same => by rw [same] at above; omega
  have pids : ∀ r, (raised.proc r).pid = (t.proc r).pid := by
    intro r
    by_cases same : r = p
    · subst same
      simp [raised, PTable.setProc]
    · simp [raised, PTable.setProc, same]
  obtain ⟨position, inside, here⟩ := List.mem_iff_getElem.mp ((lists.members q p).mpr waiting)
  have search := achaPosicao_finds (t := raised) (q := q) lists.held (lists.distinct q) inside here
    (fun r member pidSame => by
      rw [pids, pids] at pidSame
      have ready := (lists.members q r).mp member
      exact (distinct p r (by rw [Live, waiting.1]; simp) (by rw [Live, ready.1]; simp) pidSame).symm)
  have erased : (queues q).eraseIdx position = (queues q).erase p := by
    rw [← here, (lists.distinct q).erase_getElem]
  obtain ⟨rows, shifted, held⟩ := andarFila_removes (t := raised) lists.held inside
  have absent : p ∉ queues nova := fun member => apart
    (Fin.ext (by exact_mod_cast ((lists.members nova p).mp member).2.symm.trans waiting.2))
  -- the removal leaves queue `nova` as it was, so there is room for `p`
  obtain ⟨rows', counts', appended, held'⟩ := enqueue_appends
    (t := decrementCount { raised with queueReady := rows } q) (q := nova) (p := p) held
    (by rw [update_of_ne apart]; exact lists.room absent)
  set after := PTable.setProc { decrementCount { raised with queueReady := rows } q with
    queueReady := rows', countQueue := counts' } p fun proc => { proc with readyTimeAging := 0 }
  have slots : after.proc = update t.proc p
      { t.proc p with priority := ((nova : Nat) : Int), readyTimeAging := 0 } := by
    simp [after, raised, PTable.setProc, decrementCount]
  rw [erased, update_of_ne apart] at held'
  refine ⟨after, ?_, ⟨held', fun r => ?_, fun r s => ?_, fun r live => ?_⟩,
    ⟨⟨rfl, rfl⟩, fun r => ?_, fun r => ?_, fun r idle => ?_⟩⟩
  · rw [auxTrocarFilaPriority, show ((nova : Nat) : Int) - 1 = ((q : Nat) : Int) by omega,
      index_ofNat q.isLt, bind_ok, search, bind_ok, shifted, bind_ok]
    dsimp only
    rw [appended]
    rfl
  · by_cases top : r = nova
    · subst top
      simpa [apart] using List.Nodup.concat absent (lists.distinct r)
    · by_cases old : r = q
      · subst old
        simpa [top] using (lists.distinct r).erase p
      · simpa [top, old] using lists.distinct r
  · have members := lists.members r s
    rw [slots]
    by_cases moved : s = p
    · subst moved
      by_cases top : r = nova
      · subst top
        simp [ReadyFor, waiting.1]
      · have elsewhere : ((nova : Nat) : Int) ≠ ((r : Nat) : Int) := fun eq =>
          top (Fin.ext (by exact_mod_cast eq.symm))
        by_cases old : r = q
        · subst old
          simp [top, ReadyFor, elsewhere, (lists.distinct r).mem_erase_iff]
        · have other : ((q : Nat) : Int) ≠ ((r : Nat) : Int) := fun eq =>
            old (Fin.ext (by exact_mod_cast eq.symm))
          simp [top, old, ReadyFor, elsewhere, members, waiting.2, other]
    · rw [update_of_ne moved, ← members]
      by_cases top : r = nova
      · subst top
        simp [moved]
      · by_cases old : r = q
        · subst old
          simp [top, (lists.distinct r).mem_erase_iff, moved]
        · simp [top, old]
  · rw [slots] at live ⊢
    by_cases moved : r = p
    · subst moved
      have bound : (nova : Nat) < 4 := nova.isLt
      simp only [update_self]
      omega
    · rw [update_of_ne moved] at live ⊢
      exact lists.ranged r live
  · rw [slots]
    by_cases moved : r = p <;> simp [moved]
  · rw [slots]
    by_cases moved : r = p <;> simp [moved]
  · have moved : r ≠ p := fun same => idle (same ▸ waiting.1)
    rw [slots, update_of_ne moved]

theorem promoteOne_spec (p : ProcId) :
    ∃ after queues', promoteOne t p = .ok after ∧ Lists after queues' ∧ SameIdentity t after ∧
      (queues' = queues ∨ ∃ q nova : Fin NUMFILAS, (nova : Nat) = (q : Nat) + 1 ∧
        ReadyFor (t.proc p) q ∧ queues' = update
          (update queues q ((queues q).erase p)) nova (queues nova ++ [p])) := by
  unfold promoteOne
  split
  · rename_i limit waits
    split
    · rename_i due
      have low : 0 ≤ (t.proc p).priority ∧ (t.proc p).priority ≤ 2 := by
        unfold agingLimit at waits
        split at waits <;> simp_all
      have range : (t.proc p).priority.toNat + 1 < NUMFILAS := by
        simp only [NUMFILAS]
        omega
      have nova : (t.proc p).priority + 1 = ((⟨_, range⟩ : Fin NUMFILAS).val : Int) := by
        simp only
        omega
      have waiting : ReadyFor (t.proc p) ⟨(t.proc p).priority.toNat, by omega⟩ :=
        ⟨due.1, by simp only; omega⟩
      obtain ⟨after, ran, kept, same⟩ := auxTrocarFilaPriority_spec lists distinct waiting
        (show (⟨_, range⟩ : Fin NUMFILAS).val = _ from rfl)
      refine ⟨after, _, ?_, kept, same, .inr ⟨_, _, rfl, waiting, rfl⟩⟩
      rw [nova]
      exact ran
    · exact ⟨t, queues, rfl, lists, SameIdentity.refl t, .inl rfl⟩
  · exact ⟨t, queues, rfl, lists, SameIdentity.refl t, .inl rfl⟩

theorem upgradePriorityAging_spec :
    ∃ after queues', upgradePriorityAging t = .ok after ∧ Lists after queues' ∧
      SameIdentity t after := by
  obtain ⟨after, ran, ⟨queues', kept⟩, same⟩ := foldlM_invariant
    (fun middle => (∃ queues, Lists middle queues) ∧ SameIdentity t middle) promoteOne slots
    ⟨⟨queues, lists⟩, SameIdentity.refl t⟩
    (fun p _ middle ⟨⟨queues, lists⟩, same⟩ => by
      obtain ⟨after, queues', ran, kept, again, _⟩ :=
        promoteOne_spec lists (same.distinct distinct) p
      exact ⟨after, ran, ⟨queues', kept⟩, same.trans again⟩)
  exact ⟨after, queues', ran, kept, same⟩

end

/-! ## Dispatch -/

/-- The process `p` at a position of queue `q` leaves the queue and runs. -/
structure Takes (t : PTable) (queues : Queues) (q : Fin NUMFILAS) (position : Nat) (p : ProcId)
    (after : PTable) : Prop where
  here : (queues q)[position]? = some p
  lists : Lists after (update queues q ((queues q).eraseIdx position))
  globals : SameGlobals t after
  slots : after.proc = update t.proc p
    { t.proc p with clock := 0, readyTimeAging := 0, state := .running }

theorem dispatch_spec (lists : Lists t queues) (inside : position < (queues q).length) :
    ∃ p after, load (t.queueReady q) (position : Int) = .ok (some p) ∧
      dispatch t q q (position : Int) p = .ok after ∧ ReadyFor (t.proc p) q ∧
      Takes t queues q position p after := by
  set p := (queues q)[position] with here
  set reset := t.setProc p fun proc => { proc with clock := 0, readyTimeAging := 0 } with clocks
  obtain ⟨rows, shifted, held⟩ := andarFila_removes (t := reset) lists.held inside
  have ready : ReadyFor (t.proc p) q := (lists.members q p).mp (List.getElem_mem inside)
  have slots : ((decrementCount { reset with queueReady := rows } q).setState p .running).proc =
      update t.proc p
        { t.proc p with clock := 0, readyTimeAging := 0, state := .running } := by
    simp [reset, PTable.setState, PTable.setProc, decrementCount]
  refine ⟨p, (decrementCount { reset with queueReady := rows } q).setState p .running,
    (lists.held q).load inside, ?_, ready, List.getElem?_eq_getElem inside,
    removed_lists lists inside here.symm held slots (by simp) ?_, ⟨rfl, rfl⟩, slots⟩
  · rw [dispatch]
    rw [shifted]
    rfl
  · exact lists.ranged p (by rw [Live, ready.1]; simp)

theorem shortestBurst_inside (lists : Lists t queues) (nonempty : 0 < t.countQueue 2) :
    ∃ position, shortestBurst t = .ok ((position : Nat) : Int) ∧ position < (queues 2).length := by
  have counted := (lists.held 2).counted
  obtain ⟨best, ran, low, high⟩ := forLoop_invariant
    (fun _ (best : Int × Int) => 0 ≤ best.2 ∧ best.2 < t.countQueue 2) 0 (t.countQueue 2)
    (fun i (best : Int × Int) => do
      let p ← deref (← load (t.queueReady 2) i)
      return if (t.proc p).estimatedburst < best.1 then ((t.proc p).estimatedburst, i) else best)
    (10000, 0) (by omega) ⟨by simp, by simpa using nonempty⟩
    (fun i best low high bounds => by
      obtain ⟨i, rfl⟩ := Int.eq_ofNat_of_zero_le low
      have bound : i < (queues 2).length := by omega
      rw [(lists.held 2).load bound]
      refine ⟨_, rfl, ?_⟩
      split
      · exact ⟨low, high⟩
      · exact bounds)
  refine ⟨best.2.toNat, ?_, by omega⟩
  rw [shortestBurst, ran, Int.toNat_of_nonneg low]
  rfl

theorem branch_counts (t : PTable) :
    match branch t with
    | .fcfs => 0 < t.countQueue 3
    | .sjf => t.countQueue 3 ≤ 0 ∧ 0 < t.countQueue 2
    | .rr => t.countQueue 3 ≤ 0 ∧ t.countQueue 2 ≤ 0 ∧ 0 < t.countQueue 1
    | .lottery => t.countQueue 3 ≤ 0 ∧ t.countQueue 2 ≤ 0 ∧ t.countQueue 1 ≤ 0 ∧
        0 < t.countQueue 0
    | .idle => ∀ q, t.countQueue q ≤ 0 := by
  unfold branch
  split_ifs with third second first zeroth
  · exact third
  · exact ⟨by omega, second⟩
  · exact ⟨by omega, by omega, first⟩
  · exact ⟨by omega, by omega, by omega, zeroth⟩
  · intro q
    fin_cases q
    · exact not_lt.mp zeroth
    · exact not_lt.mp first
    · exact not_lt.mp second
    · exact not_lt.mp third

theorem scheduler_takes (lists : Lists t queues) (drawn : branch t ≠ .lottery) :
    ∃ chosen after, scheduler t = .ok (chosen, after) ∧
      match chosen with
      | none => after = t ∧ ∀ q, t.countQueue q ≤ 0
      | some p => ∃ q position, ReadyFor (t.proc p) q ∧ Takes t queues q position p after ∧
          (q ≠ 2 → position = 0) ∧ ∀ q', q < q' → t.countQueue q' ≤ 0 := by
  have front : ∀ q : Fin NUMFILAS, 0 < t.countQueue q → 0 < (queues q).length := by
    intro q waiting
    have counted := (lists.held q).counted
    omega
  have counts := branch_counts t
  unfold scheduler
  cases chosen : branch t with
  | fcfs =>
    rw [chosen] at counts
    obtain ⟨p, after, first, ran, ready, takes⟩ := dispatch_spec lists (front 3 counts)
    refine ⟨some p, after, ?_, 3, 0, ready, takes, fun _ => rfl, fun q' above => ?_⟩
    · simp only [Int.ofNat_zero] at first ran
      simp [dispatchFcfs, first, deref, ran]
    · exact absurd above (not_lt.mpr (Fin.le_last q'))
  | sjf =>
    rw [chosen] at counts
    obtain ⟨position, search, inside⟩ := shortestBurst_inside lists counts.2
    obtain ⟨p, after, first, ran, ready, takes⟩ := dispatch_spec lists inside
    refine ⟨some p, after, ?_, 2, position, ready, takes, fun other => absurd rfl other,
      fun q' above => ?_⟩
    · simp [dispatchSjf, search, first, deref, ran]
    · rw [(show ∀ q : Fin NUMFILAS, 2 < q → q = 3 by decide) q' above]
      exact counts.1
  | rr =>
    rw [chosen] at counts
    obtain ⟨p, after, first, ran, ready, takes⟩ := dispatch_spec lists (front 1 counts.2.2)
    refine ⟨some p, after, ?_, 1, 0, ready, takes, fun _ => rfl, fun q' above => ?_⟩
    · simp only [Int.ofNat_zero] at first ran
      simp [dispatchRr, first, deref, ran]
    · rcases (show ∀ q : Fin NUMFILAS, 1 < q → q = 2 ∨ q = 3 by decide) q' above with rfl | rfl
      · exact counts.2.1
      · exact counts.1
  | lottery => exact absurd chosen drawn
  | idle =>
    rw [chosen] at counts
    exact ⟨none, t, rfl, rfl, counts⟩

theorem scheduler_spec (lists : Lists t queues) (drawn : branch t ≠ .lottery) :
    ∃ chosen after queues', scheduler t = .ok (chosen, after) ∧ Lists after queues' ∧
      SameGlobals t after ∧
      match chosen with
      | none => after = t
      | some p => (t.proc p).state = .runnable ∧ after.proc = update t.proc p
          { t.proc p with clock := 0, readyTimeAging := 0, state := .running } := by
  obtain ⟨chosen, after, ran, effect⟩ := scheduler_takes lists drawn
  cases chosen with
  | none =>
    obtain ⟨rfl, _⟩ := effect
    exact ⟨none, after, queues, ran, lists, ⟨rfl, rfl⟩, rfl⟩
  | some p =>
    obtain ⟨q, position, ready, takes, _⟩ := effect
    exact ⟨some p, after, _, ran, takes.lists, takes.globals, ready.1, takes.slots⟩

/-! ## The critical sections together -/

/-- One stretch of `proc.c` between taking `ptable.lock` and giving it up, with
the process executing it where it acts on the caller. `changePrioTail` is the
end of `change_prio`, which runs after its `yield` has returned. -/
inductive CriticalSection where
  | userinit (p : ProcId)
  | fork (np : ProcId)
  | yield (p : ProcId)
  | sleep (p : ProcId) (chan : Chan)
  | wakeup (chan : Chan)
  | kill (pid : Int)
  | exit (p : ProcId)
  | wait (p : ProcId)
  | wait2 (p : ProcId)
  | changePrio (p : ProcId) (wanted : Int)
  | changePrioTail (p : ProcId) (wanted : Int)
  | updateClock
  | upgradePriorityAging
  | scheduler
  deriving DecidableEq

def CriticalSection.run (t : PTable) : CriticalSection → Checked PTable
  | .userinit p => userinitEnter t p
  | .fork np => forkEnter t np
  | .yield p => ProcTable.yield t p
  | .sleep p chan => .ok (ProcTable.sleep t p chan)
  | .wakeup chan => wakeup1 t chan
  | .kill pid => do let (_, t) ← ProcTable.kill t pid; return t
  | .exit p => ProcTable.exit t p
  | .wait p => .ok (ProcTable.wait t p).2
  | .wait2 p => .ok (ProcTable.wait2 t p).2
  | .changePrio p wanted => do let (_, t) ← ProcTable.changePrio t p wanted; return t
  | .changePrioTail p wanted => do let (_, t) ← ProcTable.changePrioTail t p wanted; return t
  | .updateClock => .ok (ProcTable.updateClock t)
  | .upgradePriorityAging => ProcTable.upgradePriorityAging t
  | .scheduler => do let (_, t) ← ProcTable.scheduler t; return t

/-- Who executes the section: `userinit` and `fork` finish an EMBRYO slot, the
calls that act on `myproc()` are made by a RUNNING process, init does not exit,
and the scheduler pass is one by the FCFS, SJF or round-robin branch (or finds
every queue empty). -/
def CriticalSection.Starts (t : PTable) : CriticalSection → Prop
  | .userinit p | .fork p => (t.proc p).state = .embryo
  | .yield p | .sleep p _ | .wait p | .wait2 p | .changePrio p _ | .changePrioTail p _ =>
    (t.proc p).state = .running
  | .exit p => (t.proc p).state = .running ∧ t.initproc ≠ some p
  | .wakeup _ | .kill _ | .updateClock | .upgradePriorityAging => True
  | .scheduler => branch t ≠ .lottery

/-- Every critical section carries a well-formed table to a well-formed table,
and since it ends without a fault it has indexed no queue slot outside
`0..NPROC-1`. -/
theorem critical_section_well_formed (code : CriticalSection) (wf : WellFormed t)
    (distinct : DistinctPids t) (starts : code.Starts t) :
    ∃ after, code.run t = .ok after ∧ WellFormed after := by
  obtain ⟨queues, lists⟩ := lists_of_well_formed wf
  cases code with
  | userinit p =>
    obtain ⟨after, ran, kept, _⟩ := enterReady_spec lists starts
    exact ⟨after, ran, well_formed_of_lists kept⟩
  | fork np =>
    obtain ⟨after, ran, kept, _⟩ := enterReady_spec lists starts
    exact ⟨after, ran, well_formed_of_lists kept⟩
  | yield p =>
    obtain ⟨after, queues', ran, kept, _⟩ := yield_spec lists starts
    exact ⟨after, ran, well_formed_of_lists kept⟩
  | sleep p chan => exact ⟨_, rfl, well_formed_of_lists (sleep_keeps lists starts chan)⟩
  | wakeup chan =>
    obtain ⟨after, queues', ran, kept, _⟩ := wakeup1_spec lists chan
    exact ⟨after, ran, well_formed_of_lists kept⟩
  | kill pid =>
    obtain ⟨result, after, queues', ran, kept, _⟩ := kill_spec lists pid
    exact ⟨after, by simp [CriticalSection.run, ran], well_formed_of_lists kept⟩
  | exit p =>
    obtain ⟨middle, queues', ran, _, kept, _⟩ := exit_spec lists starts.1 starts.2
    exact ⟨_, ran, well_formed_of_lists kept⟩
  | wait p =>
    exact ⟨_, rfl, well_formed_of_lists (waitPass_keeps lists starts (fun _ => rfl))⟩
  | wait2 p =>
    exact ⟨_, rfl, well_formed_of_lists (waitPass_keeps lists starts (fun _ => rfl))⟩
  | changePrio p wanted =>
    obtain ⟨result, after, queues', ran, kept⟩ := changePrio_keeps lists starts wanted
    exact ⟨after, by simp [CriticalSection.run, ran], well_formed_of_lists kept⟩
  | changePrioTail p wanted =>
    exact ⟨t, by simp [CriticalSection.run, changePrioTail_skips starts], wf⟩
  | updateClock => exact ⟨_, rfl, well_formed_of_lists (updateClock_keeps lists)⟩
  | upgradePriorityAging =>
    obtain ⟨after, queues', ran, kept, _⟩ := upgradePriorityAging_spec lists distinct
    exact ⟨after, ran, well_formed_of_lists kept⟩
  | scheduler =>
    obtain ⟨chosen, after, queues', ran, kept, _⟩ := scheduler_spec lists starts
    exact ⟨after, by simp [CriticalSection.run, ran], well_formed_of_lists kept⟩

theorem lists_pinit : Lists {} (fun _ => []) := by
  refine ⟨fun q => ⟨rfl, by simp, fun slot inside => absurd inside (by simp)⟩,
    fun q => List.nodup_nil, fun q p => ?_, fun p live => absurd rfl live⟩
  simp [ReadyFor]

/-- `init` runs, a second process waits in its queue and a third sleeps. -/
def busy : PTable where
  proc p :=
    if p = 0 then { state := .running, pid := 1, priority := 2 }
    else if p = 1 then { state := .runnable, pid := 2, priority := 2 }
    else if p = 2 then { state := .sleeping, pid := 3, priority := 2, chan := .addr 7 }
    else {}
  queueReady q slot := if q = 2 ∧ slot = 0 then some 1 else none
  countQueue q := if q = 2 then 1 else 0
  initproc := some 0
  nextpid := 4

theorem critical_section_well_formed_wakeup : WellFormed busy ∧ DistinctPids busy ∧
    ∃ after, (CriticalSection.wakeup (.addr 7)).run busy = .ok after ∧ WellFormed after ∧
      after.countQueue 2 = 2 ∧ after.queueReady 2 1 = some 2 := by
  have held : ∀ q, Holds (busy.queueReady q) (busy.countQueue q) (if q = 2 then [1] else []) :=
    fun q => ⟨by decide +revert, by decide +revert, by decide +revert⟩
  have wf : WellFormed busy :=
    ⟨fun q => ⟨_, held q, by decide +revert +kernel⟩, by decide, by unfold Live; decide +kernel⟩
  have distinct : DistinctPids busy := by
    unfold DistinctPids Live
    decide +kernel
  have woken : ∃ after, (CriticalSection.wakeup (.addr 7)).run busy = .ok after ∧
      after.countQueue 2 = 2 ∧ after.queueReady 2 1 = some 2 := by decide +kernel
  obtain ⟨after, ran, entered⟩ := woken
  obtain ⟨after', ran', kept⟩ :=
    critical_section_well_formed (.wakeup (.addr 7)) wf distinct trivial
  cases ran.symm.trans ran'
  exact ⟨wf, distinct, after, ran, kept, entered⟩

end Xv6.ReadyQueues
