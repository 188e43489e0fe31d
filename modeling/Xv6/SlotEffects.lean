import Xv6.Dispatch

/-! What the critical sections do to the slots of the process table, whatever the
ready queues hold: the exact slots after every function of `proc.c` that ran to
its end, and from them the kinds of change one step of the machine can make to
one slot. -/
namespace Xv6.SlotEffects
open CheckedC ProcTable ReadyQueues Dispatch Function

/-! ## Queues leave the slots alone -/

theorem enqueue_slots (ran : enqueue t queue p = .ok after) :
    after.proc = t.proc ∧ SameGlobals t after := by
  obtain ⟨q, _, ran⟩ := bind_eq_ok.mp ran
  obtain ⟨row, _, ran⟩ := bind_eq_ok.mp ran
  cases ran
  exact ⟨rfl, rfl, rfl⟩

theorem andarFila_slots (ran : andarFila t q position = .ok after) :
    after.proc = t.proc ∧ SameGlobals t after := by
  obtain ⟨row, _, ran⟩ := bind_eq_ok.mp ran
  cases ran
  exact ⟨rfl, rfl, rfl⟩

theorem makeReady_slots (ran : makeReady t p = .ok after) :
    after.proc = update t.proc p { t.proc p with state := .runnable } ∧
      SameGlobals t after := by
  obtain ⟨middle, queued, ran⟩ := bind_eq_ok.mp ran
  obtain ⟨slots, globals⟩ := enqueue_slots queued
  cases ran
  refine ⟨?_, globals.init, globals.nextpid⟩
  simp only [PTable.setState, PTable.setProc, slots]

theorem enterReady_slots (ran : enterReady t p = .ok after) :
    after.proc = update t.proc p { t.proc p with priority := PRIO, state := .runnable } ∧
      SameGlobals t after := by
  obtain ⟨middle, queued, ran⟩ := bind_eq_ok.mp ran
  obtain ⟨slots, globals⟩ := enqueue_slots queued
  cases ran
  refine ⟨?_, globals.init, globals.nextpid⟩
  simp only [PTable.setState, PTable.setProc, slots, update_self, update_idem]

theorem foldlM_slots {body : PTable → ProcId → Checked PTable} {f : Proc → Proc} {l : List ProcId}
    (turn : ∀ t p after, body t p = .ok after →
      after.proc = update t.proc p (f (t.proc p)) ∧ SameGlobals t after)
    (distinct : l.Nodup) (ran : l.foldlM body t = .ok after) :
    (∀ p, after.proc p = if p ∈ l then f (t.proc p) else t.proc p) ∧ SameGlobals t after := by
  induction l generalizing t with
  | nil =>
    cases ran
    exact ⟨fun p => by simp, ⟨rfl, rfl⟩⟩
  | cons first rest ih =>
    obtain ⟨middle, head, ran⟩ := bind_eq_ok.mp ran
    obtain ⟨changed, globals⟩ := turn t first middle head
    obtain ⟨absent, distinct⟩ := List.nodup_cons.mp distinct
    obtain ⟨slots, later⟩ := ih distinct ran
    refine ⟨fun p => ?_, globals.trans later⟩
    rw [slots p, changed]
    by_cases here : p = first
    · subst here
      simp [absent]
    · simp [here]

theorem slots_nodup : slots.Nodup := List.nodup_finRange NPROC

theorem mem_slots (p : ProcId) : p ∈ slots := List.mem_finRange p

/-! ## Waking up -/

def wake (chan : Chan) (proc : Proc) : Proc :=
  if proc.state = .sleeping ∧ proc.chan = chan then { proc with state := .runnable } else proc

theorem wakeOne_slots (ran : wakeOne chan t p = .ok after) :
    after.proc = update t.proc p (wake chan (t.proc p)) ∧ SameGlobals t after := by
  unfold wakeOne at ran
  unfold wake
  split at ran
  · rename_i asleep
    rw [if_pos asleep]
    exact makeReady_slots ran
  · rename_i awake
    cases ran
    rw [if_neg awake, update_eq_self]
    exact ⟨rfl, rfl, rfl⟩

theorem wakeup1_slots (ran : wakeup1 t chan = .ok after) :
    (∀ p, after.proc p = wake chan (t.proc p)) ∧ SameGlobals t after := by
  obtain ⟨changed, globals⟩ := foldlM_slots (fun _ _ _ => wakeOne_slots) slots_nodup ran
  exact ⟨fun p => by rw [changed p, if_pos (mem_slots p)], globals⟩

@[simp] theorem wake_parent (chan : Chan) (proc : Proc) : (wake chan proc).parent = proc.parent := by
  unfold wake
  split <;> rfl

theorem wake_zombie (chan : Chan) (proc : Proc) :
    (wake chan proc).state = .zombie ↔ proc.state = .zombie := by
  unfold wake
  split
  · rename_i asleep
    simp [asleep.1]
  · rfl

theorem wake_wake (chan : Chan) (proc : Proc) : wake chan (wake chan proc) = wake chan proc := by
  unfold wake
  split
  · simp
  · rfl

def struck (proc : Proc) : Proc :=
  { proc with killed := true, state := if proc.state = .sleeping then .runnable else proc.state }

theorem kill_slots (ran : kill t pid = .ok (result, after)) :
    (result = -1 ∧ after = t ∧ ∀ p, (t.proc p).pid ≠ pid) ∨
    ∃ p, result = 0 ∧ (t.proc p).pid = pid ∧
      after.proc = update t.proc p (struck (t.proc p)) ∧ SameGlobals t after := by
  unfold kill at ran
  split at ran
  · rename_i absent
    cases ran
    refine .inl ⟨rfl, rfl, fun p => ?_⟩
    simpa using List.find?_eq_none.mp absent p (mem_slots p)
  · rename_i p found
    refine .inr ⟨p, ?_⟩
    have pid : (t.proc p).pid = pid := by simpa using List.find?_some found
    simp only [PTable.setProc, update_self] at ran
    split at ran
    · rename_i asleep
      obtain ⟨middle, readied, ran⟩ := bind_eq_ok.mp ran
      obtain ⟨slots, globals⟩ := makeReady_slots readied
      cases ran
      refine ⟨rfl, pid, ?_, globals.init, globals.nextpid⟩
      rw [slots]
      simp [struck, asleep]
    · rename_i awake
      cases ran
      exact ⟨rfl, pid, by simp [struck, awake], rfl, rfl⟩

/-! ## Exit and wait -/

/-- A child the loop of `exit` has passed on. -/
def adopt (curproc : ProcId) (init : Option ProcId) (proc : Proc) : Proc :=
  if proc.parent = some curproc then { proc with parent := init } else proc

theorem wake_adopt (chan : Chan) (proc : Proc) :
    wake chan (adopt curproc init proc) = adopt curproc init (wake chan proc) := by
  unfold adopt
  rw [wake_parent]
  split
  · unfold wake
    split <;> rfl
  · rfl

/-- Some slot of the list is a ZOMBIE child. -/
def Orphaned (t : PTable) (curproc : ProcId) (l : List ProcId) : Prop :=
  ∃ r ∈ l, (t.proc r).parent = some curproc ∧ (t.proc r).state = .zombie

instance : Decidable (Orphaned t curproc l) := inferInstanceAs (Decidable (∃ r ∈ l, _))

theorem passToInit_slots {l : List ProcId} {t : PTable} (distinct : l.Nodup)
    (ran : l.foldlM (passToInit curproc) t = .ok after) :
    (∀ p, after.proc p =
      let proc := if Orphaned t curproc l then wake (chanOf t.initproc) (t.proc p) else t.proc p
      if p ∈ l then adopt curproc t.initproc proc else proc) ∧ SameGlobals t after := by
  induction l generalizing t with
  | nil =>
    cases ran
    refine ⟨fun p => ?_, rfl, rfl⟩
    have none : ¬ Orphaned after curproc [] := by
      rintro ⟨r, member, _⟩
      cases member
    simp [none]
  | cons first rest ih =>
    obtain ⟨middle, head, ran⟩ := bind_eq_ok.mp ran
    obtain ⟨absent, distinct⟩ := List.nodup_cons.mp distinct
    obtain ⟨slots, later⟩ := ih distinct ran
    -- the first turn
    have turn : SameGlobals t middle ∧ ∀ p, middle.proc p =
        let proc := if Orphaned t curproc [first] then wake (chanOf t.initproc) (t.proc p)
          else t.proc p
        if p = first then adopt curproc t.initproc proc else proc := by
      unfold passToInit at head
      split at head
      · rename_i child
        simp only [PTable.setProc, update_self] at head
        split at head
        · rename_i zombie
          obtain ⟨woken, globals⟩ := wakeup1_slots head
          refine ⟨⟨globals.init, globals.nextpid⟩, fun p => ?_⟩
          have orphan : Orphaned t curproc [first] := ⟨first, by simp, child, zombie⟩
          rw [woken p, if_pos orphan]
          by_cases here : p = first
          · subst here
            simp [adopt, child, wake, zombie]
          · simp [here]
        · rename_i alive
          cases head
          refine ⟨⟨rfl, rfl⟩, fun p => ?_⟩
          have none : ¬ Orphaned t curproc [first] := by
            rintro ⟨r, member, _, zombie⟩
            rw [List.mem_singleton] at member
            exact alive (member ▸ zombie)
          rw [if_neg none]
          by_cases here : p = first
          · subst here
            simp [adopt, child]
          · simp [here]
      · rename_i other
        cases head
        refine ⟨⟨rfl, rfl⟩, fun p => ?_⟩
        have none : ¬ Orphaned t curproc [first] := by
          rintro ⟨r, member, child, _⟩
          rw [List.mem_singleton] at member
          exact other (member ▸ child)
        rw [if_neg none]
        by_cases here : p = first
        · subst here
          simp [adopt, other]
        · simp [here]
    obtain ⟨globals, turn⟩ := turn
    -- what is left to pass on is what was to be passed on
    have rests : Orphaned middle curproc rest ↔ Orphaned t curproc rest := by
      refine exists_congr fun r => and_congr_right fun member => ?_
      have other : r ≠ first := by
        rintro rfl
        exact absent member
      have slot := turn r
      rw [slot]
      split
      · rw [wake_parent, wake_zombie]
      · rfl
    have both : Orphaned t curproc (first :: rest) ↔
        Orphaned t curproc [first] ∨ Orphaned t curproc rest := by
      simp only [Orphaned, List.exists_mem_cons_iff, List.mem_singleton, exists_eq_left]
    refine ⟨fun p => ?_, globals.trans later⟩
    rw [slots p, globals.init, turn p]
    simp only [rests, both, List.mem_cons]
    by_cases here : p = first
    · subst here
      by_cases one : Orphaned t curproc [p] <;> by_cases more : Orphaned t curproc rest
      · simp [one, more, absent, wake_adopt, wake_wake]
      · simp [one, more, absent]
      · simp [one, more, absent, wake_adopt]
      · simp [one, more, absent]
    · by_cases one : Orphaned t curproc [first] <;> by_cases more : Orphaned t curproc rest
      · simp [one, more, here, wake_wake]
      · simp [one, more, here]
      · simp [one, more, here]
      · simp [one, more, here]

/-- A slot after `exit` has woken the parent and passed on the children. -/
def bereaved (t : PTable) (curproc p : ProcId) : Proc :=
  let proc := wake (chanOf (t.proc curproc).parent) (t.proc p)
  adopt curproc t.initproc
    (if Orphaned t curproc slots then wake (chanOf t.initproc) proc else proc)

theorem exit_slots (ran : ProcTable.exit t curproc = .ok after) :
    t.initproc ≠ some curproc ∧ SameGlobals t after ∧
      after.proc = update (bereaved t curproc) curproc
        { bereaved t curproc curproc with state := .zombie } := by
  unfold ProcTable.exit at ran
  split at ran
  · cases ran
  · rename_i ordinary
    obtain ⟨first, wakes, ran⟩ := bind_eq_ok.mp ran
    obtain ⟨second, passes, ran⟩ := bind_eq_ok.mp ran
    obtain ⟨woken, globals⟩ := wakeup1_slots wakes
    obtain ⟨passed, later⟩ := passToInit_slots slots_nodup passes
    cases ran
    have orphans : Orphaned first curproc slots ↔ Orphaned t curproc slots := by
      refine exists_congr fun r => and_congr_right fun _ => ?_
      rw [woken r, wake_parent, wake_zombie]
    have all : second.proc = bereaved t curproc := by
      funext p
      rw [passed p, if_pos (mem_slots p), globals.init, woken p]
      simp only [orphans, bereaved]
    refine ⟨ordinary, ⟨later.init.trans globals.init, later.nextpid.trans globals.nextpid⟩, ?_⟩
    simp only [PTable.setState, PTable.setProc, all]

/-! ## Aging and dispatch -/

theorem auxTrocarFilaPriority_slots (ran : auxTrocarFilaPriority t p nova = .ok after) :
    after.proc = update t.proc p { t.proc p with readyTimeAging := 0 } ∧
      SameGlobals t after := by
  obtain ⟨antiga, _, ran⟩ := bind_eq_ok.mp ran
  obtain ⟨posicao, _, ran⟩ := bind_eq_ok.mp ran
  obtain ⟨shifted, shifts, ran⟩ := bind_eq_ok.mp ran
  obtain ⟨queued, queues, ran⟩ := bind_eq_ok.mp ran
  obtain ⟨first, globals⟩ := andarFila_slots shifts
  obtain ⟨second, later⟩ := enqueue_slots queues
  cases ran
  have slots : queued.proc = t.proc := second.trans first
  refine ⟨?_, later.init.trans globals.init, later.nextpid.trans globals.nextpid⟩
  simp only [PTable.setProc, slots]

/-- A slot after its turn of `upgradePriority_Aging`. -/
def promote (proc : Proc) : Proc :=
  match agingLimit proc.priority with
  | some limit =>
    if proc.state = .runnable ∧ limit ≤ proc.readyTimeAging then
      { proc with priority := proc.priority + 1, readyTimeAging := 0 }
    else proc
  | none => proc

section
variable (proc : Proc) {f : Proc → α}

theorem promote_field (same : ∀ priority aging,
    f { proc with priority := priority, readyTimeAging := aging } = f proc) :
    f (promote proc) = f proc := by
  unfold promote
  split
  · split
    · exact same _ _
    · rfl
  · rfl

@[simp] theorem promote_state : (promote proc).state = proc.state :=
  promote_field proc fun _ _ => rfl

@[simp] theorem promote_pid : (promote proc).pid = proc.pid := promote_field proc fun _ _ => rfl

@[simp] theorem promote_parent : (promote proc).parent = proc.parent :=
  promote_field proc fun _ _ => rfl

@[simp] theorem promote_chan : (promote proc).chan = proc.chan := promote_field proc fun _ _ => rfl

@[simp] theorem promote_killed : (promote proc).killed = proc.killed :=
  promote_field proc fun _ _ => rfl

@[simp] theorem tick_state : (tick proc).state = proc.state := by
  unfold tick
  split <;> rfl

@[simp] theorem tick_pid : (tick proc).pid = proc.pid := by
  unfold tick
  split <;> rfl

@[simp] theorem tick_parent : (tick proc).parent = proc.parent := by
  unfold tick
  split <;> rfl

@[simp] theorem tick_chan : (tick proc).chan = proc.chan := by
  unfold tick
  split <;> rfl

@[simp] theorem tick_killed : (tick proc).killed = proc.killed := by
  unfold tick
  split <;> rfl

@[simp] theorem tick_priority : (tick proc).priority = proc.priority := by
  unfold tick
  split <;> rfl

end

theorem promoteOne_slots (ran : promoteOne t p = .ok after) :
    after.proc = update t.proc p (promote (t.proc p)) ∧ SameGlobals t after := by
  unfold promoteOne at ran
  unfold promote
  cases limit : agingLimit (t.proc p).priority with
  | none =>
    rw [limit] at ran
    cases ran
    exact ⟨(update_eq_self _ _).symm, rfl, rfl⟩
  | some bound =>
    rw [limit] at ran
    dsimp only at ran ⊢
    split at ran
    · rename_i due
      obtain ⟨slots, globals⟩ := auxTrocarFilaPriority_slots ran
      rw [if_pos due]
      refine ⟨?_, globals.init, globals.nextpid⟩
      rw [slots]
      simp [PTable.setProc]
    · rename_i early
      cases ran
      rw [if_neg early, update_eq_self]
      exact ⟨rfl, rfl, rfl⟩

theorem upgradePriorityAging_slots (ran : upgradePriorityAging t = .ok after) :
    (∀ p, after.proc p = promote (t.proc p)) ∧ SameGlobals t after := by
  obtain ⟨changed, globals⟩ := foldlM_slots (fun _ _ _ => promoteOne_slots) slots_nodup ran
  exact ⟨fun p => by rw [changed p, if_pos (mem_slots p)], globals⟩

def dispatched (proc : Proc) : Proc :=
  { proc with clock := 0, readyTimeAging := 0, state := .running }

theorem dispatch_slots (ran : dispatch t q lowered position p = .ok after) :
    after.proc = update t.proc p (dispatched (t.proc p)) ∧ SameGlobals t after := by
  obtain ⟨shifted, shifts, ran⟩ := bind_eq_ok.mp ran
  obtain ⟨slots, globals⟩ := andarFila_slots shifts
  cases ran
  refine ⟨?_, globals.init, globals.nextpid⟩
  simp [PTable.setState, PTable.setProc, decrementCount, slots, dispatched]

theorem scheduler_slots (ran : ProcTable.scheduler t = .ok (chosen, after)) :
    SameGlobals t after ∧
      match chosen with
      | none => after = t
      | some p => after.proc = update t.proc p (dispatched (t.proc p)) := by
  unfold ProcTable.scheduler at ran
  split at ran
  · simp only [dispatchFcfs, bind_eq_ok, pure_eq_ok, Except.ok.injEq] at ran
    obtain ⟨_, ⟨slot, _, p, _, t', took, rfl⟩, ⟨⟩⟩ := ran
    exact (dispatch_slots took).symm
  · simp only [dispatchSjf, bind_eq_ok, pure_eq_ok, Except.ok.injEq] at ran
    obtain ⟨_, ⟨posicao, _, slot, _, p, _, t', took, rfl⟩, ⟨⟩⟩ := ran
    exact (dispatch_slots took).symm
  · simp only [dispatchRr, bind_eq_ok, pure_eq_ok, Except.ok.injEq] at ran
    obtain ⟨_, ⟨slot, _, p, _, t', took, rfl⟩, ⟨⟩⟩ := ran
    exact (dispatch_slots took).symm
  · simp only [dispatchLottery, bind_eq_ok, pure_eq_ok, Except.ok.injEq] at ran
    obtain ⟨_, ⟨total, _, draw, _, search, _, p, _, t', took, rfl⟩, ⟨⟩⟩ := ran
    obtain ⟨slots, globals⟩ := dispatch_slots took
    exact ⟨⟨globals.init, globals.nextpid⟩, slots⟩
  · cases ran
    exact ⟨⟨rfl, rfl⟩, rfl⟩

theorem allocproc_slots (ticks : Int) (t : PTable) :
    allocproc ticks t = (none, t) ∨
    ∃ np, (t.proc np).state = .unused ∧ allocproc ticks t =
      (some np, { t.setProc np (embryoSlot t.nextpid ticks) with nextpid := t.nextpid + 1 }) := by
  unfold allocproc
  split
  · exact .inl rfl
  · rename_i np found
    have unused := List.find?_some found
    simp only [decide_eq_true_eq] at unused
    exact .inr ⟨np, unused, rfl⟩

/-! ## The first process -/

def initSlot : Proc := { embryoSlot 1 0 {} with priority := PRIO, state := .runnable }

theorem userinit_slots (ran : userinit = .ok t) :
    t.proc = update (fun _ => {}) 0 initSlot ∧ t.initproc = some 0 ∧ t.nextpid = 2 := by
  have found : (allocproc 0 {}).1 = some 0 := by decide +kernel
  unfold userinit at ran
  generalize begins : allocproc 0 {} = begun at ran found
  obtain ⟨chosen, first⟩ := begun
  cases found
  have slots : first.proc = update (fun _ => {}) 0 (embryoSlot 1 0 {}) ∧
      first.nextpid = 2 := by
    unfold allocproc at begins
    split at begins
    · cases begins
    · cases begins
      exact ⟨rfl, rfl⟩
  obtain ⟨entered, globals⟩ := enterReady_slots ran
  refine ⟨?_, globals.init, globals.nextpid.trans slots.2⟩
  rw [entered]
  simp only [slots.1, update_self, update_idem, initSlot]

/-! ## One step, one slot -/

def asleep (chan : Chan) (proc : Proc) : Proc :=
  { updateBurst { proc with previousburst := proc.bstime } with
    chan := chan
    state := .sleeping
    bstime := 0 }

inductive Scans (s : Machine n) (q : ProcId) : Event n → Prop where
  | wait (here : s.cpu c = some q) : Scans s q (.wait c)
  | wait2 (here : s.cpu c = some q) : Scans s q (.wait2 c)
  | again (here : s.cpu c = some q) (waiting : s.resume q = .waiting ∨ s.resume q = .waiting2) :
    Scans s q (.enter c)

/-- What one step can do to slot `p`. If `sure`, the step is one of a run without
the lottery, and the slot is in the state the code expects. -/
inductive Turn (sure : Prop) (s : Machine n) (p : ProcId) : Event n → Proc → Prop where
  | kept : Turn sure s p e (s.table.proc p)
  | dispatched (ready : sure → (s.table.proc p).state = .runnable) :
    Turn sure s p (.scheduler c) (dispatched (s.table.proc p))
  | tidied (here : s.cpu c = some p) (running : sure → (s.table.proc p).state = .running) :
    Turn sure s p (.enter c) { s.table.proc p with chan := .null }
  | yielded (here : s.cpu c = some p) (running : sure → (s.table.proc p).state = .running) :
    Turn sure s p (.yield c) { s.table.proc p with state := .runnable }
  | slept (here : s.cpu c = some p) (running : sure → (s.table.proc p).state = .running) :
    Turn sure s p (.sleep c chan) (asleep chan (s.table.proc p))
  | waits (scan : Scans s p e) (running : sure → (s.table.proc p).state = .running) :
    Turn sure s p e (asleep (.proc p) (s.table.proc p))
  | reaped (zombie : (s.table.proc p).state = .zombie) (scan : Scans s q e)
    (cleared : clear = waitClear ∨ clear = wait2Clear) :
    Turn sure s p e (clear { s.table.proc p with chan := chan })
  | exited (here : s.cpu c = some p) (running : sure → (s.table.proc p).state = .running) :
    Turn sure s p (.exit c) { s.table.proc p with state := .zombie, parent := parent }
  | passed : Turn sure s p (.exit c) { s.table.proc p with parent := parent }
  | passedWoken (sleeping : (s.table.proc p).state = .sleeping) :
    Turn sure s p (.exit c) { s.table.proc p with state := .runnable, parent := parent }
  | woken (sleeping : (s.table.proc p).state = .sleeping) :
    Turn sure s p (.wakeup chan) { s.table.proc p with state := .runnable }
  | struck (target : (s.table.proc p).pid = pid) :
    Turn sure s p (.kill pid) (struck (s.table.proc p))
  | prioritized (here : s.cpu c = some p) (running : sure → (s.table.proc p).state = .running) :
    Turn sure s p (.changePrio c wanted) { s.table.proc p with priority := wanted - 1 }
  | requeued (running : sure → (s.table.proc p).state = .running)
    (ready : (s.table.proc p).state = .runnable) :
    Turn sure s p (.changePrioTail c wanted) { s.table.proc p with readyTimeAging := 0 }
  | allocated (unused : (s.table.proc p).state = .unused) :
    Turn sure s p (.allocproc c ticks) (embryoSlot s.table.nextpid ticks (s.table.proc p))
  | copied (here : s.cpu c = some q) (embryo : sure → (s.table.proc p).state = .embryo) :
    Turn sure s p (.forkCopy c p) { s.table.proc p with parent := some q }
  | entered (embryo : sure → (s.table.proc p).state = .embryo) :
    Turn sure s p (.forkEnter c p) { s.table.proc p with priority := PRIO, state := .runnable }
  | abandoned (embryo : sure → (s.table.proc p).state = .embryo) :
    Turn sure s p (.forkAbandon c p) { s.table.proc p with state := .unused }
  | ticked : Turn sure s p .updateClock (tick (s.table.proc p))
  | promoted : Turn sure s p .upgradePriorityAging (promote (s.table.proc p))

section
variable {sure : Prop}

theorem turn_update {s : Machine n} (changed : Turn sure s q e slot) (p : ProcId) :
    Turn sure s p e (update s.table.proc q slot p) := by
  by_cases here : p = q
  · subst here
    rw [update_self]
    exact changed
  · rw [update_of_ne here]
    exact .kept

theorem wake_cases (chan : Chan) (proc : Proc) : wake chan proc = proc ∨
    proc.state = .sleeping ∧ wake chan proc = { proc with state := .runnable } := by
  unfold wake
  split
  · rename_i asleep
    exact .inr ⟨asleep.1, rfl⟩
  · exact .inl rfl

theorem bereaved_cases (t : PTable) (curproc p : ProcId) :
    bereaved t curproc p = adopt curproc t.initproc (t.proc p) ∨
    (t.proc p).state = .sleeping ∧
      bereaved t curproc p = adopt curproc t.initproc { t.proc p with state := .runnable } := by
  have first := wake_cases (chanOf (t.proc curproc).parent) (t.proc p)
  unfold bereaved
  dsimp only
  generalize wake (chanOf (t.proc curproc).parent) (t.proc p) = woken at first
  split
  · rcases first with rfl | ⟨asleep, rfl⟩
    · rcases wake_cases (chanOf t.initproc) (t.proc p) with same | ⟨asleep, second⟩
      · exact .inl (by rw [same])
      · exact .inr ⟨asleep, by rw [second]⟩
    · refine .inr ⟨asleep, ?_⟩
      rw [wake, if_neg (by simp)]
  · rcases first with rfl | ⟨asleep, rfl⟩
    · exact .inl rfl
    · exact .inr ⟨asleep, rfl⟩

theorem bereaved_asleep (asleep : (bereaved t curproc p).state = .sleeping) :
    (t.proc p).state = .sleeping ∧ (bereaved t curproc p).chan = (t.proc p).chan ∧
      (t.proc p).chan ≠ chanOf (t.proc curproc).parent ∧
      (Orphaned t curproc slots → (t.proc p).chan ≠ chanOf t.initproc) := by
  have adopted : ∀ proc : Proc, (adopt curproc t.initproc proc).state = proc.state ∧
      (adopt curproc t.initproc proc).chan = proc.chan := by
    intro proc
    unfold adopt
    split <;> exact ⟨rfl, rfl⟩
  have still : ∀ {chan} {proc : Proc}, (wake chan proc).state = .sleeping →
      proc.state = .sleeping ∧ wake chan proc = proc ∧ proc.chan ≠ chan := by
    intro chan proc state
    unfold wake at state ⊢
    split at state
    · cases state
    · rename_i awake
      rw [if_neg awake]
      exact ⟨state, rfl, fun same => awake ⟨state, same⟩⟩
  unfold bereaved at asleep ⊢
  rw [(adopted _).1] at asleep
  rw [(adopted _).2]
  split at asleep
  · rename_i orphaned
    rw [if_pos orphaned]
    obtain ⟨asleep, kept, other⟩ := still asleep
    obtain ⟨asleep, same, first⟩ := still asleep
    rw [same] at kept other
    rw [same, kept]
    exact ⟨asleep, rfl, first, fun _ => other⟩
  · rename_i settled
    rw [if_neg settled]
    obtain ⟨asleep, same, first⟩ := still asleep
    rw [same]
    exact ⟨asleep, rfl, first, fun orphaned => absurd orphaned settled⟩

theorem bereaved_parent (t : PTable) (curproc p : ProcId) : (bereaved t curproc p).parent =
    if (t.proc p).parent = some curproc then t.initproc else (t.proc p).parent := by
  have adopted : ∀ proc : Proc, (adopt curproc t.initproc proc).parent =
      if proc.parent = some curproc then t.initproc else proc.parent := by
    intro proc
    unfold adopt
    split <;> rfl
  rcases bereaved_cases t curproc p with same | ⟨_, woken⟩
  · rw [same, adopted]
  · rw [woken, adopted]

theorem bereaved_state (t : PTable) (curproc p : ProcId) :
    (bereaved t curproc p).state = (t.proc p).state ∨
      (t.proc p).state = .sleeping ∧ (bereaved t curproc p).state = .runnable := by
  rcases bereaved_cases t curproc p with same | ⟨asleep, woken⟩
  · rw [same]
    unfold adopt
    split <;> exact .inl rfl
  · rw [woken]
    unfold adopt
    split <;> exact .inr ⟨asleep, rfl⟩

theorem adopt_parent (curproc : ProcId) (init : Option ProcId) (proc : Proc) :
    ∃ parent, adopt curproc init proc = { proc with parent := parent } := by
  unfold adopt
  split <;> exact ⟨_, rfl⟩

theorem turn_bereaved (sure : Prop) (s : Machine n) (c : Fin n) (q p : ProcId) :
    Turn sure s p (.exit c) (bereaved s.table q p) ∧
      ∃ parent, { bereaved s.table q p with state := .zombie } =
        { s.table.proc p with state := .zombie, parent := parent } := by
  rcases bereaved_cases s.table q p with same | ⟨asleep, woken⟩
  · obtain ⟨parent, slot⟩ := adopt_parent q s.table.initproc (s.table.proc p)
    rw [same, slot]
    exact ⟨.passed, parent, rfl⟩
  · obtain ⟨parent, slot⟩ :=
      adopt_parent q s.table.initproc { s.table.proc p with state := .runnable }
    rw [woken, slot]
    exact ⟨.passedWoken asleep, parent, rfl⟩

/-- The CPU whose process takes the step in its own name. -/
def actor : Event n → Option (Fin n)
  | .enter c | .yield c | .sleep c _ | .exit c | .wait c | .wait2 c | .changePrio c _
  | .changePrioTail c _ => some c
  | _ => none

theorem actor_running {s : Machine n} (inv : Inv s) (enabled : Enabled s e)
    (acts : actor e = some c) (here : s.cpu c = some p) : (s.table.proc p).state = .running := by
  refine inv.on_cpu here ?_
  cases e with
  | enter c' =>
    rw [show s.lock = .entered c' from enabled]
    simp
  | yield _ | sleep _ _ | exit _ | wait _ | wait2 _ =>
    rw [enabled.1]
    simp
  | changePrio c' wanted =>
    cases acts
    exact enabled.1.2.2
  | changePrioTail c' wanted =>
    cases acts
    exact enabled.2.2
  | _ => cases acts

theorem chosen_runnable {s : Machine n} (inv : Inv s) (drawn : branch s.table ≠ .lottery)
    (chosen : ProcTable.scheduler s.table = .ok (some p, t)) :
    (s.table.proc p).state = .runnable := by
  obtain ⟨queues, lists⟩ := inv.lists
  obtain ⟨choice, after, queues', ran, _, _, chose⟩ := scheduler_spec lists drawn
  rw [chosen] at ran
  cases ran
  exact chose.1

/-- The process goes to sleep in the step, and has something to do when it is back. -/
def Parks (s : Machine n) (e : Event n) (p : ProcId) : Prop :=
  (∃ c chan, e = .sleep c chan ∧ s.cpu c = some p) ∨ Scans s p e

/-- What a step does to the slots, to the rest of the table, to the CPUs, to the lock and
to what the processes do when they are back. -/
structure Stepped (sure : Prop) (s : Machine n) (e : Event n) (after : Machine n) : Prop where
  slots : ∀ p, Turn sure s p e (after.table.proc p)
  init : after.table.initproc = s.table.initproc
  nextpid : after.table.nextpid = s.table.nextpid ∨
    (∃ c ticks, e = .allocproc c ticks) ∧ s.table.nextpid ≤ after.table.nextpid
  cpus : ∀ c p, after.cpu c = some p → s.cpu c = some p ∨
    e = .scheduler c ∧ after.table.proc p = dispatched (s.table.proc p)
  lock : ∀ c, after.lock = .entered c → s.lock = .entered c ∨ e = .scheduler c
  resume : ∀ p, after.resume p = s.resume p ∨ after.resume p = .release ∨ Parks s e p

/-- A step that leaves the CPUs alone and hands the lock to nobody. -/
structure Stays (s : Machine n) (e : Event n) (after : Machine n) : Prop where
  cpu : after.cpu = s.cpu
  lock : after.lock = s.lock ∨ ∀ c, after.lock ≠ .entered c
  resume : ∀ p, after.resume p = s.resume p ∨ after.resume p = .release ∨ Parks s e p

theorem stays_table {s : Machine n} : Stays s e { s with table := t } :=
  ⟨rfl, .inl rfl, fun _ => .inl rfl⟩

theorem resume_update {s : Machine n} (own : again = .release ∨ Parks s e q) (p : ProcId) :
    update s.resume q again p = s.resume p ∨ update s.resume q again p = .release ∨
      Parks s e p := by
  by_cases here : p = q
  · subst here
    rw [update_self]
    exact .inr own
  · exact .inl (update_of_ne here ..)

theorem stepped_all {s after : Machine n} (slots : ∀ p, Turn sure s p e (after.table.proc p))
    (stays : Stays s e after) (globals : SameGlobals s.table after.table) :
    Stepped sure s e after where
  slots := slots
  init := globals.init
  nextpid := .inl globals.nextpid
  cpus _ _ here := .inl (stays.cpu ▸ here)
  lock c entered := by
    rcases stays.lock with same | handed
    · exact .inl (same ▸ entered)
    · exact absurd entered (handed c)
  resume := stays.resume

theorem stepped_one {s after : Machine n} (changed : Turn sure s q e slot)
    (proc : after.table.proc = update s.table.proc q slot) (stays : Stays s e after)
    (globals : SameGlobals s.table after.table) : Stepped sure s e after :=
  stepped_all (fun p => by rw [proc]; exact turn_update changed p) stays globals

/-! A scan of the children, by a caller whose channel may have been tidied up. -/

section
variable {s : Machine n} {report : Proc → α} (here : s.cpu c = some q)
  (running : sure → (s.table.proc q).state = .running) (scan : Scans s q e)
  (cleared : clear = waitClear ∨ clear = wait2Clear)
  (tidy : t = s.table ∨ e = .enter c ∧ t = sleepResume s.table q)
include here running scan cleared tidy

theorem turn_waitEnd (p : ProcId) :
    Turn sure s p e ((waitEnd s c q again (waitPass clear report t q)).table.proc p) := by
  have before : ∀ r, ∃ chan, t.proc r = { s.table.proc r with chan := chan } := by
    intro r
    rcases tidy with rfl | ⟨_, rfl⟩
    · exact ⟨_, rfl⟩
    · by_cases same : r = q
      · subst same
        exact ⟨.null, by simp [sleepResume, PTable.setProc]⟩
      · exact ⟨_, by simp [sleepResume, PTable.setProc, same]; rfl⟩
  have unchanged : ∀ r, Turn sure s r e (t.proc r) := by
    intro r
    rcases tidy with rfl | ⟨rfl, rfl⟩
    · exact .kept
    · exact turn_update (.tidied here running) r
  rcases waitPass_outcome clear report t q with ⟨r, _, zombie, ends⟩ | ⟨_, ends⟩ | ⟨_, ends⟩
  · rw [ends]
    by_cases same : p = r
    · subst same
      obtain ⟨chan, slot⟩ := before p
      simp only [waitEnd, PTable.setProc, update_self]
      rw [slot] at zombie ⊢
      exact .reaped zombie scan cleared
    · simp only [waitEnd, PTable.setProc, update_of_ne same]
      exact unchanged p
  · rw [ends]
    exact unchanged p
  · rw [ends]
    by_cases same : p = q
    · subst same
      obtain ⟨chan, slot⟩ := before p
      simp only [waitEnd, ProcTable.sleep, PTable.setProc, update_self, slot]
      exact .waits scan running
    · simp only [waitEnd, ProcTable.sleep, PTable.setProc, update_of_ne same]
      exact unchanged p

theorem stepped_waitEnd :
    Stepped sure s e (waitEnd s c q again (waitPass clear report t q)) := by
  refine stepped_all (turn_waitEnd here running scan cleared tidy) ?_ ?_
  · unfold waitEnd
    split
    · exact ⟨rfl, .inr nofun, resume_update (.inr (.inr scan))⟩
    · exact ⟨rfl, .inr nofun, fun _ => .inl rfl⟩
  · have globals : SameGlobals s.table t := by rcases tidy with rfl | ⟨_, rfl⟩ <;> exact ⟨rfl, rfl⟩
    rcases waitPass_outcome clear report t q with ⟨r, _, _, ends⟩ | ⟨_, ends⟩ | ⟨_, ends⟩ <;>
      rw [ends] <;> exact ⟨globals.init, globals.nextpid⟩

end

/-! ## Every step -/

abbrev Given (sure : Prop) (s : Machine n) (e : Event n) : Prop :=
  sure → Inv s ∧ Enabled s e ∧ NoLottery s e

theorem Given.running {s : Machine n} (given : Given sure s e) (here : deref (s.cpu c) = .ok q)
    (acts : actor e = some c) (surely : sure) : (s.table.proc q).state = .running :=
  actor_running (given surely).1 (given surely).2.1 acts (deref_eq_ok here)

section
variable {s : Machine n}

theorem stepped_scheduler (given : Given sure s (.scheduler c))
    (ran : perform s (.scheduler c) = .ok after) : Stepped sure s (.scheduler c) after := by
  obtain ⟨⟨chosen, t⟩, took, ran⟩ := bind_eq_ok.mp ran
  obtain ⟨globals, slots⟩ := scheduler_slots took
  cases chosen with
  | none =>
    cases ran
    exact stepped_all (fun p => by dsimp only at slots ⊢; rw [slots]; exact .kept) stays_table globals
  | some r =>
    cases ran
    have changed : Turn sure s r (.scheduler c) _ := .dispatched fun surely =>
      chosen_runnable (given surely).1 (given surely).2.2 took
    refine ⟨fun p => ?_, globals.init, .inl globals.nextpid, fun c' p here => ?_, ?_,
      fun _ => .inl rfl⟩
    · rw [slots]
      exact turn_update changed p
    · dsimp only at here ⊢
      by_cases same : c' = c
      · subst same
        rw [update_self] at here
        cases here
        exact .inr ⟨rfl, by rw [slots, update_self]⟩
      · rw [update_of_ne same] at here
        exact .inl here
    · rintro _ ⟨⟩
      exact .inr rfl

theorem stepped_enter (given : Given sure s (.enter c)) (ran : perform s (.enter c) = .ok after) :
    Stepped sure s (.enter c) after := by
  obtain ⟨q, found, ran⟩ := bind_eq_ok.mp ran
  have here := deref_eq_ok found
  have active := given.running found rfl
  split at ran
  · cases ran
    exact stepped_all (fun _ => .kept) ⟨rfl, .inr (by simp), fun _ => .inl rfl⟩ ⟨rfl, rfl⟩
  · cases ran
    exact stepped_one (.tidied here active) rfl ⟨rfl, .inr (by simp), fun _ => .inl rfl⟩
      ⟨rfl, rfl⟩
  · rename_i resumed
    cases ran
    exact stepped_waitEnd here active (.again here (.inl resumed)) (.inl rfl)
      (.inr ⟨rfl, rfl⟩)
  · rename_i resumed
    cases ran
    exact stepped_waitEnd here active (.again here (.inr resumed)) (.inr rfl)
      (.inr ⟨rfl, rfl⟩)

theorem stepped_leave : Stepped sure s (.leave c) { s with cpu := update s.cpu c none, lock := .free } := by
  refine ⟨fun _ => .kept, rfl, .inl rfl, fun c' p here => ?_, by simp, fun _ => .inl rfl⟩
  dsimp only at here
  by_cases same : c' = c
  · subst same
    rw [update_self] at here
    cases here
  · rw [update_of_ne same] at here
    exact .inl here

theorem stepped_exit (given : Given sure s (.exit c)) (ran : perform s (.exit c) = .ok after) :
    Stepped sure s (.exit c) after := by
  obtain ⟨q, here, ran⟩ := bind_eq_ok.mp ran
  obtain ⟨t, exits, ran⟩ := bind_eq_ok.mp ran
  cases ran
  obtain ⟨-, globals, slots⟩ := exit_slots exits
  refine stepped_all (fun p => ?_) ⟨rfl, .inr (by simp), fun _ => .inl rfl⟩ globals
  rw [slots]
  by_cases same : p = q
  · subst same
    rw [update_self]
    obtain ⟨_, parent, slot⟩ := turn_bereaved sure s c p p
    rw [slot]
    exact .exited (deref_eq_ok here) (given.running here rfl)
  · rw [update_of_ne same]
    exact (turn_bereaved sure s c q p).1

theorem stepped_changePrioTail (given : Given sure s (.changePrioTail c wanted))
    (ran : perform s (.changePrioTail c wanted) = .ok after) :
    Stepped sure s (.changePrioTail c wanted) after := by
  obtain ⟨q, here, ran⟩ := bind_eq_ok.mp ran
  obtain ⟨⟨result, t⟩, tail, ran⟩ := bind_eq_ok.mp ran
  cases ran
  unfold ProcTable.changePrioTail at tail
  split at tail
  · rename_i ready
    obtain ⟨t, moves, ends⟩ := bind_eq_ok.mp tail
    cases ends
    obtain ⟨slots, globals⟩ := auxTrocarFilaPriority_slots moves
    exact stepped_one (.requeued (given.running here rfl) ready) slots stays_table globals
  · cases tail
    exact stepped_all (fun _ => .kept) stays_table ⟨rfl, rfl⟩

theorem stepped_allocproc : Stepped sure s (.allocproc c ticks)
    { s with table := (ProcTable.allocproc ticks s.table).2 } := by
  rcases allocproc_slots ticks s.table with none | ⟨q, unused, taken⟩
  · rw [none]
    exact stepped_all (fun _ => .kept) stays_table ⟨rfl, rfl⟩
  · rw [taken]
    exact ⟨fun p => turn_update (.allocated unused) p, rfl,
      .inr ⟨⟨c, ticks, rfl⟩, by dsimp only; omega⟩, fun _ _ => .inl, fun _ => .inl,
      fun _ => .inl rfl⟩

theorem stepped_wakeup (wakes : wakeup1 s.table chan = .ok t) :
    Stepped sure s (.wakeup chan) { s with table := t } := by
  obtain ⟨slots, globals⟩ := wakeup1_slots wakes
  refine stepped_all (fun p => ?_) stays_table globals
  rw [slots p]
  rcases wake_cases chan (s.table.proc p) with same | ⟨asleep, woken⟩
  · rw [same]
    exact .kept
  · rw [woken]
    exact .woken asleep

theorem stepped_kill (kills : ProcTable.kill s.table pid = .ok (result, t)) :
    Stepped sure s (.kill pid) { s with table := t } := by
  rcases kill_slots kills with ⟨_, rfl, _⟩ | ⟨q, _, target, slots, globals⟩
  · exact stepped_all (fun _ => .kept) stays_table ⟨rfl, rfl⟩
  · exact stepped_one (.struck target) slots stays_table globals

theorem perform_stepped (sure : Prop) (given : Given sure s e) (ran : perform s e = .ok after) :
    Stepped sure s e after := by
  cases e with
  | scheduler c => exact stepped_scheduler given ran
  | enter c => exact stepped_enter given ran
  | exit c => exact stepped_exit given ran
  | changePrioTail c wanted => exact stepped_changePrioTail given ran
  | leave c =>
    cases ran
    exact stepped_leave
  | allocproc c ticks =>
    cases ran
    exact stepped_allocproc
  | yield c =>
    obtain ⟨q, here, ran⟩ := bind_eq_ok.mp ran
    obtain ⟨t, yields, ran⟩ := bind_eq_ok.mp ran
    cases ran
    obtain ⟨slots, globals⟩ := makeReady_slots yields
    exact stepped_one (.yielded (deref_eq_ok here) (given.running here rfl)) slots
      ⟨rfl, .inr (by simp), resume_update (.inl rfl)⟩ globals
  | sleep c chan =>
    obtain ⟨q, here, ran⟩ := bind_eq_ok.mp ran
    cases ran
    exact stepped_one (.slept (deref_eq_ok here) (given.running here rfl)) rfl
      ⟨rfl, .inr (by simp), resume_update (.inr (.inl ⟨c, chan, rfl, deref_eq_ok here⟩))⟩ ⟨rfl, rfl⟩
  | wait c =>
    obtain ⟨q, here, ran⟩ := bind_eq_ok.mp ran
    cases ran
    exact stepped_waitEnd (deref_eq_ok here) (given.running here rfl) (.wait (deref_eq_ok here))
      (.inl rfl) (.inl rfl)
  | wait2 c =>
    obtain ⟨q, here, ran⟩ := bind_eq_ok.mp ran
    cases ran
    exact stepped_waitEnd (deref_eq_ok here) (given.running here rfl) (.wait2 (deref_eq_ok here))
      (.inr rfl) (.inl rfl)
  | changePrio c wanted =>
    obtain ⟨q, here, ran⟩ := bind_eq_ok.mp ran
    cases ran
    exact stepped_one (.prioritized (deref_eq_ok here) (given.running here rfl)) rfl stays_table
      ⟨rfl, rfl⟩
  | forkCopy c np =>
    obtain ⟨q, here, ran⟩ := bind_eq_ok.mp ran
    cases ran
    exact stepped_one (.copied (deref_eq_ok here) fun surely => (given surely).2.1.2) rfl
      stays_table ⟨rfl, rfl⟩
  | forkEnter c np =>
    obtain ⟨t, enters, ran⟩ := bind_eq_ok.mp ran
    cases ran
    obtain ⟨slots, globals⟩ := enterReady_slots enters
    exact stepped_one (.entered fun surely => (given surely).2.1.2.2) slots
      ⟨rfl, .inl rfl, resume_update (.inl rfl)⟩ globals
  | forkAbandon c np =>
    cases ran
    exact stepped_one (.abandoned fun surely => (given surely).2.1.2) rfl stays_table ⟨rfl, rfl⟩
  | wakeup chan =>
    obtain ⟨t, wakes, ran⟩ := bind_eq_ok.mp ran
    cases ran
    exact stepped_wakeup wakes
  | kill pid =>
    obtain ⟨⟨result, t⟩, kills, ran⟩ := bind_eq_ok.mp ran
    cases ran
    exact stepped_kill kills
  | updateClock =>
    cases ran
    exact stepped_all (fun _ => .ticked) stays_table ⟨rfl, rfl⟩
  | upgradePriorityAging =>
    obtain ⟨t, ages, ran⟩ := bind_eq_ok.mp ran
    cases ran
    obtain ⟨slots, globals⟩ := upgradePriorityAging_slots ages
    exact stepped_all (fun p => by dsimp only; rw [slots p]; exact .promoted) stays_table globals

end

theorem slot_turn (sure : Prop) {s : Machine n}
    (given : sure → Inv s ∧ Enabled s e ∧ NoLottery s e) (ran : perform s e = .ok after)
    (p : ProcId) : Turn sure s p e (after.table.proc p) :=
  (perform_stepped sure given ran).slots p

theorem cpu_turn {s : Machine n} (ran : perform s e = .ok after) (here : after.cpu c = some p) :
    s.cpu c = some p ∨ e = .scheduler c ∧ after.table.proc p = dispatched (s.table.proc p) :=
  (perform_stepped False nofun ran).cpus c p here

theorem globals_turn {s : Machine n} (ran : perform s e = .ok after) :
    after.table.initproc = s.table.initproc ∧
      ((∀ c ticks, e ≠ .allocproc c ticks) → after.table.nextpid = s.table.nextpid) ∧
      s.table.nextpid ≤ after.table.nextpid := by
  obtain ⟨-, init, nextpid, -⟩ := perform_stepped False nofun ran
  refine ⟨init, fun other => nextpid.resolve_right ?_, ?_⟩
  · rintro ⟨⟨c, ticks, same⟩, -⟩
    exact other c ticks same
  · rcases nextpid with same | ⟨-, grows⟩
    · exact le_of_eq same.symm
    · exact grows

end
end Xv6.SlotEffects
