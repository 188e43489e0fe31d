import Xv6.CacheMap

/-! How many buffers are in use at once. A reader takes no part in the reservations of the
log, and it keeps its buffer while the disk works for it. -/
namespace Xv6.CacheRoom
open CheckedC StepSystem Tally LinkedRing BufferCache CacheShape CacheMap Function

/-- How much of the cache is in use: the calls of `bread` whose buffers are not yet given
back, and the blocks that `log_write` has pinned, as far as `bwrite` has not written them. -/
structure Load where
  calls : Int
  pinned : List Nat
  deriving DecidableEq

section
variable {P D : Type}

def load (s : State P D × Ghost D) (e : Event P D) (_ : State P D × Ghost D) (l : Load) : Load :=
  match e with
  | .bread _ _ _ => { l with calls := l.calls + 1 }
  | .drop _ => { l with calls := l.calls - 1 }
  | .logWrite _ b => { l with pinned := absorb l.pinned (s.1.buf b).blockno }
  | .io p => match s.1.act p with
    | .writes b =>
      if (s.1.buf b).dev = ROOTDEV then { l with pinned := l.pinned.erase (s.1.buf b).blockno }
      else l
    | _ => l
  | _ => l

def loaded (P D : Type) [DecidableEq P] : System ((State P D × Ghost D) × Load) (Event P D) :=
  (mapped P D).watch (fun _ => ⟨0, []⟩) load

instance [DecidableEq P] (s : (State P D × Ghost D) × Load) (e : Event P D) :
    Decidable ((loaded P D).Enabled s e) :=
  inferInstanceAs (Decidable (Enabled s.1.1 e))

/-! ## Every buffer in use has its call or its pin -/

/-- The block of a dirty buffer is pinned, unless a `bwrite` is under way. -/
def Kept (s : State P D) (pinned : List Nat) (b : BufId) : Prop :=
  (s.buf b).dev = ROOTDEV ∧ (s.buf b).blockno ∈ pinned ∨ ∃ p, s.act p = .writes b

structure Loaded (s : State P D) (l : Load) : Prop where
  refs : tally Buf.refcnt s.buf = l.calls
  pins : ∀ b, (s.buf b).dirty = true → Kept s l.pinned b

variable {s after : State P D}

section
variable [DecidableEq P]

theorem Loaded.set {buf : Buf P D} (inv : Loaded s l) (bufs : after.buf = update s.buf b buf)
    (acts : after.act = update s.act p act)
    (refs : l'.calls - l.calls = buf.refcnt - (s.buf b).refcnt)
    (here : buf.dirty = true → Kept after l'.pinned b)
    (away : ∀ c, c ≠ b → s.act p ≠ .writes c)
    (pins : ∀ c, c ≠ b → (s.buf c).dev = ROOTDEV → (s.buf c).blockno ∈ l.pinned →
      (s.buf c).blockno ∈ l'.pinned) : Loaded after l' := by
  refine ⟨?_, fun c dirty => ?_⟩
  · have before := inv.refs
    rw [bufs, tally_update]
    omega
  · by_cases same : c = b
    · subst same
      rw [bufs, update_self] at dirty
      exact here dirty
    · have other : after.buf c = s.buf c := by rw [bufs, update_of_ne same]
      rw [other] at dirty
      refine (inv.pins c dirty).imp (fun listed => ?_) fun ⟨q, writes⟩ => ⟨q, ?_⟩
      · rw [other]
        exact ⟨listed.1, pins c same listed.1 listed.2⟩
      · have apart : q ≠ p := by
          rintro rfl
          exact away c same writes
        rw [acts, update_of_ne apart]
        exact writes

theorem Loaded.same {buf : Buf P D} (inv : Loaded s l) (bufs : after.buf = update s.buf b buf)
    (acts : after.act = update s.act p act) (away : ∀ c, s.act p ≠ .writes c)
    (key : buf.dev = (s.buf b).dev ∧ buf.blockno = (s.buf b).blockno)
    (dirty : buf.dirty = (s.buf b).dirty)
    (refs : calls - l.calls = buf.refcnt - (s.buf b).refcnt) :
    Loaded after { l with calls := calls } := by
  refine inv.set bufs acts refs (fun marked => ?_) (fun c _ => away c) fun _ _ _ => id
  refine (inv.pins b (dirty ▸ marked)).imp (fun listed => ?_) fun ⟨q, writes⟩ => ⟨q, ?_⟩
  · rw [bufs, update_self, key.1, key.2]
    exact listed
  · have apart : q ≠ p := by
      rintro rfl
      exact away b writes
    rw [acts, update_of_ne apart]
    exact writes

theorem mem_absorb {n m : Nat} : n ∈ absorb l m ↔ n ∈ l ∨ n = m := by
  unfold absorb
  split
  · exact ⟨.inl, fun either => either.elim id fun same => same ▸ by assumption⟩
  · simp

theorem Loaded.logWrite (inv : Loaded s l) (uses : Uses s p b) (root : (s.buf b).dev = ROOTDEV)
    (ran : logWrite s b = .ok after) :
    Loaded after { l with pinned := absorb l.pinned (s.buf b).blockno } := by
  unfold BufferCache.logWrite at ran
  split at ran
  · cases ran
  · split at ran
    · cases ran
    · cases ran
      refine inv.set rfl (update_eq_self p s.act).symm (by simp) (fun _ => .inl ?_)
        (fun c _ => by simp [uses.1]) fun c _ _ listed => mem_absorb.mpr (.inl listed)
      simpa [State.setBuf] using ⟨root, mem_absorb.mpr (.inr rfl)⟩

theorem Loaded.bwrite (inv : Loaded s l) (uses : Uses s p b) (ran : bwrite s p b = .ok after) :
    Loaded after l := by
  unfold BufferCache.bwrite at ran
  rw [if_neg fun lost => lost uses.2] at ran
  obtain ⟨_, _, ends⟩ := bind_eq_ok.mp ran
  cases ends
  refine inv.set rfl rfl (by simp) (fun _ => .inr ⟨p, by simp [State.goto]⟩)
    (fun c _ => by simp [uses.1]) fun _ _ _ => id

end

variable [Fintype P]

section
variable [DecidableEq P]

theorem Loaded.bread (inv : Loaded s l) (shape : Shape s) (ready : s.act p = .ready)
    (ran : breadBegin s p dev blockno = .ok after) :
    Loaded after { l with calls := l.calls + 1 } := by
  obtain ⟨⟨b, recycled⟩, found, ends⟩ := bind_eq_ok.mp ran
  have spec := bget_spec shape found
  have away : ∀ c, s.act p ≠ .writes c := by simp [ready]
  cases ends
  cases recycled with
  | false => exact inv.same rfl rfl away ⟨rfl, rfl⟩ rfl (by simp)
  | true =>
    exact inv.set rfl rfl (by simp [spec.1]) (by simp) (fun c _ => away c) fun _ _ _ => id

theorem Loaded.io (inv : Loaded s l) (shape : Shape s)
    (at_ : (∃ dev blockno, s.act p = .reads dev blockno b) ∨ s.act p = .writes b) :
    Loaded ((ideintr s b).goto p .ready) (load (s, g) (.io p) after' l) := by
  obtain ⟨data, bufs⟩ := ideintr_buf s b
  have acts : ((ideintr s b).goto p .ready).act = update s.act p .ready := by
    simp only [ideintr, State.goto, State.setBuf]
    split <;> rfl
  refine inv.set bufs acts ?_ (by simp) (fun c other => ?_) fun c other root listed => ?_
  · rcases at_ with ⟨_, _, at_⟩ | at_ <;> simp only [load, at_]
    · omega
    · split <;> simp
  · rcases at_ with ⟨_, _, at_⟩ | at_ <;> simp [at_, Ne.symm other]
  · rcases at_ with ⟨_, _, at_⟩ | at_ <;> simp only [load, at_]
    · exact listed
    · split
      · rename_i root'
        have apart : (s.buf c).blockno ≠ (s.buf b).blockno := fun same =>
          other (shape.unique c b root root' same)
        exact (List.mem_erase_of_ne apart).mpr listed
      · exact listed

theorem step_loaded (inv : Loaded s l) (shape : Shape s) (enabled : Enabled s e)
    (ran : perform s e = .ok after) : Loaded after (load (s, g) e after' l) := by
  cases e with
  | bread p dev blockno => exact inv.bread shape enabled ran
  | lock p =>
    simp only [Enabled] at enabled
    cases at_ : s.act p <;> simp only [at_] at enabled
    simp only [perform, at_] at ran
    cases ran
    exact inv.same rfl rfl (by simp [at_]) ⟨rfl, rfl⟩ rfl (by simp)
  | check p =>
    simp only [Enabled] at enabled
    cases at_ : s.act p <;> simp only [at_] at enabled
    rename_i b
    simp only [perform, at_] at ran
    have goes : ∀ act, Loaded (s.goto p act) l := fun act =>
      inv.same (update_eq_self b s.buf).symm rfl (by simp [at_]) ⟨rfl, rfl⟩ rfl (by simp)
    split at ran
    · cases ran
      exact goes .ready
    · obtain ⟨_, _, ends⟩ := bind_eq_ok.mp ran
      cases ends
      exact goes _
  | io p =>
    simp only [Enabled] at enabled
    cases at_ : s.act p <;> simp only [at_] at enabled
    case reads dev blockno b =>
      simp only [perform, at_] at ran
      cases ran
      exact inv.io shape (.inl ⟨dev, blockno, at_⟩)
    case writes b =>
      simp only [perform, at_] at ran
      cases ran
      exact inv.io shape (.inr at_)
  | modify p b data =>
    cases ran
    exact inv.same rfl (update_eq_self p s.act).symm (by simp [enabled.1]) ⟨rfl, rfl⟩ rfl (by simp)
  | logWrite p b => exact inv.logWrite enabled.1 enabled.2 ran
  | bwrite p b => exact inv.bwrite enabled ran
  | brelse p b =>
    simp only [perform, brelse] at ran
    rw [if_neg fun lost => lost enabled.1.2] at ran
    cases ran
    exact inv.same rfl rfl (by simp [enabled.1.1]) ⟨rfl, rfl⟩ rfl (by simp)
  | drop p =>
    simp only [Enabled] at enabled
    cases at_ : s.act p <;> simp only [at_] at enabled
    simp only [perform, at_] at ran
    cases ran
    rw [brelseEnd_eq]
    exact inv.same rfl rfl (by simp [at_]) ⟨rfl, rfl⟩ rfl (by simp)
  | beginOp | endOp | clear =>
    cases ran
    exact ⟨inv.refs, inv.pins⟩

theorem run_loaded {s : (State P D × Ghost D) × Load}
    (run : (loaded P D).Run (fun _ _ => True) s) : Shape s.1.1 ∧ Loaded s.1.1 s.2 := by
  have whole : CacheMap.Inv s.1.1 s.1.2 ∧ Loaded s.1.1 s.2 := by
    apply run.invariant
    · rintro ⟨⟨s, g⟩, l⟩ ⟨⟨⟨size, havedisk1, disk, junk, rfl⟩, nothing⟩, begins⟩
      rw [show g = ⟨disk ROOTDEV, fun _ => false⟩ from nothing, show l = ⟨0, []⟩ from begins]
      exact ⟨start_inv size havedisk1 disk junk, tally_eq_zero fun _ => rfl, nofun⟩
    · rintro s e after ⟨inv, loads⟩ enabled - ran
      obtain ⟨stepped, noted⟩ := System.watch_perform ran
      obtain ⟨moved, mapped⟩ := System.watch_perform stepped
      rw [noted, mapped]
      exact ⟨step_inv inv enabled moved, step_loaded loads inv.shape enabled moved⟩
  exact ⟨whole.1.shape, whole.2⟩

end

/-! ## Room -/

/-- The buffers that only B_DIRTY keeps in place. -/
def unusedDirty (s : State P D) : Finset BufId :=
  Finset.univ.filter fun b => (s.buf b).refcnt = 0 ∧ (s.buf b).dirty = true

theorem Loaded.unusedDirty_le (inv : Loaded s l) (shape : Shape s) :
    (unusedDirty s).card ≤ l.pinned.length := by
  have listed : ∀ b ∈ unusedDirty s, (s.buf b).dev = ROOTDEV ∧ (s.buf b).blockno ∈ l.pinned := by
    intro b member
    obtain ⟨-, zero, dirty⟩ := Finset.mem_filter.mp member
    refine (inv.pins b dirty).resolve_right fun ⟨p, writes⟩ => ?_
    have fits := shape.acts p
    rw [writes] at fits
    have free := (shape.idle zero).1
    rw [fits.1] at free
    cases free
  calc (unusedDirty s).card
      ≤ l.pinned.toFinset.card := by
        refine Finset.card_le_card_of_injOn (fun b => (s.buf b).blockno) ?_ ?_
        · exact fun b member => List.mem_toFinset.mpr (listed b member).2
        · exact fun b there c here same => shape.unique b c (listed b there).1 (listed c here).1 same
    _ ≤ l.pinned.length := l.pinned.toFinset_card_le

theorem refcnt_nonneg (shape : Shape s) (b : BufId) : 0 ≤ (s.buf b).refcnt := by
  rw [shape.refs b, locked]
  have waiting : 0 ≤ tally (pending b) s.act := tally_nonneg fun p => pending_nonneg b (s.act p)
  split <;> omega

theorem exists_free (inv : Loaded s l) (shape : Shape s)
    (room : l.calls + l.pinned.length < NBUF) :
    ∃ b, (s.buf b).refcnt = 0 ∧ (s.buf b).dirty = false := by
  by_contra taken
  push Not at taken
  have pins := inv.unusedDirty_le shape
  -- every buffer has a reference or is kept by B_DIRTY
  have covered : (NBUF : Int) ≤ tally Buf.refcnt s.buf + (unusedDirty s).card := by
    calc (NBUF : Int)
        = ∑ b : BufId, 1 := by simp
      _ ≤ ∑ b, ((s.buf b).refcnt + if b ∈ unusedDirty s then 1 else 0) := by
        refine Finset.sum_le_sum fun b _ => ?_
        have nonneg := refcnt_nonneg shape b
        by_cases used : (s.buf b).refcnt = 0
        · rw [if_pos (by simpa [unusedDirty, used] using taken b used)]
          omega
        · split <;> omega
      _ = tally Buf.refcnt s.buf + (unusedDirty s).card := by
        rw [Finset.sum_add_distrib]
        simp [tally]
  rw [inv.refs] at covered
  omega

end

/-- As long as the calls between `bread` and the end of `brelse` and the blocks that the log
has pinned are fewer than NBUF, `bget` finds the block or a buffer to recycle. -/
theorem bget_finds {P D : Type} [Fintype P] [DecidableEq P] {s : (State P D × Ghost D) × Load}
    (run : (loaded P D).Run (fun _ _ => True) s)
    (room : s.2.calls + s.2.pinned.length < NBUF) (dev blockno : Nat) :
    ∃ b recycled, bget s.1.1 dev blockno = .ok (b, recycled) ∧
      if recycled then (s.1.1.buf b).refcnt = 0 ∧ (s.1.1.buf b).dirty = false
      else (s.1.1.buf b).dev = dev ∧ (s.1.1.buf b).blockno = blockno := by
  obtain ⟨shape, inv⟩ := run_loaded run
  obtain ⟨c, unused, clean⟩ := exists_free inv shape room
  obtain ⟨m, all, -, backward⟩ := shape.searches fun b =>
    (s.1.1.buf b).refcnt == 0 && !(s.1.1.buf b).dirty
  have returns : ∃ found, bget s.1.1 dev blockno = .ok found := by
    unfold bget
    split
    · exact ⟨_, rfl⟩
    · rw [backward]
      cases free : m.reverse.find? fun b => (s.1.1.buf b).refcnt == 0 && !(s.1.1.buf b).dirty with
      | some b => exact ⟨_, rfl⟩
      | none =>
        have missed := List.find?_eq_none.mp free c (List.mem_reverse.mpr (all c))
        simp [unused, clean] at missed
  obtain ⟨⟨b, recycled⟩, found⟩ := returns
  refine ⟨b, recycled, found, ?_⟩
  have spec := bget_spec shape found
  cases recycled with
  | false => exact spec
  | true => exact ⟨spec.1, spec.2.1⟩

/-! ## Readers -/

/-- What processes do that only read files: `readi` has one buffer at a time. -/
def Reading (s : (State (Fin NPROC) Unit × Ghost Unit) × Load) : Event (Fin NPROC) Unit → Prop
  | .bread p dev _ => dev = ROOTDEV ∧ ∀ b, (s.1.1.buf b).owner ≠ some p
  | .lock _ | .check _ | .io _ | .brelse _ _ | .drop _ => True
  | _ => False

instance (s : (State (Fin NPROC) Unit × Ghost Unit) × Load) (e : Event (Fin NPROC) Unit) :
    Decidable (Reading s e) := by
  cases e <;> unfold Reading <;> infer_instance

def idle : (State (Fin NPROC) Unit × Ghost Unit) × Load :=
  ((start (Fin NPROC) 31 true (fun _ _ => ()) fun _ => (), ⟨fun _ => (), fun _ => false⟩), ⟨0, []⟩)

theorem idle_init : (loaded (Fin NPROC) Unit).Init idle := ⟨⟨⟨31, true, _, _, rfl⟩, rfl⟩, rfl⟩

def reader (k : BufId) : Fin NPROC := Fin.castLE (by decide) k

/-- A process of its own reads a block, as far as the disk. -/
def reading (k : BufId) : List (Event (Fin NPROC) Unit) :=
  [.bread (reader k) ROOTDEV (100 + k), .lock (reader k), .check (reader k)]

/-- Process `p` reads a block, changes it in a transaction and gives its buffer back. -/
def logs (p : Fin NPROC) (blockno : Nat) (b : BufId) : List (Event (Fin NPROC) Unit) :=
  [.bread p ROOTDEV blockno, .lock p, .check p, .io p, .modify p b (), .logWrite p b, .brelse p b,
    .drop p]

/-- Two blocks are pinned, and two readers wait for one and the same other block. -/
theorem bget_finds_third : ∃ s, (loaded (Fin NPROC) Unit).Run (fun _ _ => True) s ∧
    s.2 = ⟨2, [100, 101]⟩ ∧ ∃ b recycled, bget s.1.1 ROOTDEV 103 = .ok (b, recycled) := by
  obtain ⟨s, run, found⟩ := System.exists_run (fun _ _ => True) idle_init
    ([.beginOp] ++ logs 0 100 0 ++ logs 1 101 1 ++
      [.bread 2 ROOTDEV 102, .lock 2, .check 2, .bread 3 ROOTDEV 102])
    (fun s => s.2 = ⟨2, [100, 101]⟩) (by decide +kernel)
  have load := found
  obtain ⟨b, recycled, ran, -⟩ := bget_finds run (by rw [load]; decide) ROOTDEV 103
  exact ⟨s, run, load, b, recycled, ran⟩

/-- Thirty processes wait for the disk, each with the buffer of a block of its own file. The
next one that reads another block panics. -/
theorem readers_take_all_buffers : ∃ s, (loaded (Fin NPROC) Unit).Run Reading s ∧
    s.2 = ⟨NBUF, []⟩ ∧ Reading s (.bread 30 ROOTDEV 130) ∧
    Enabled s.1.1 (.bread 30 ROOTDEV 130) ∧
    bget s.1.1 ROOTDEV 130 = .error (.panic "bget: no buffers") := by
  obtain ⟨s, run, found⟩ := System.exists_run Reading idle_init
    ((List.finRange NBUF).flatMap reading)
    (fun s => s.2 = ⟨NBUF, []⟩ ∧ Reading s (.bread 30 ROOTDEV 130) ∧
      Enabled s.1.1 (.bread 30 ROOTDEV 130) ∧
      bget s.1.1 ROOTDEV 130 = .error (.panic "bget: no buffers")) (by decide +kernel)
  exact ⟨s, run, found⟩

/-! ## The least recently used buffer -/

/-- The buffers, the one last given up by all its users first. -/
def recency [DecidableEq P] (s : State P D) (e : Event P D) (_ : State P D) (l : List BufId) :
    List BufId :=
  match e with
  | .drop p => match s.act p with
    | .drops b => if (s.buf b).refcnt - 1 = 0 then b :: l.erase b else l
    | _ => l
  | _ => l

def recent (P D : Type) [DecidableEq P] : System (State P D × List BufId) (Event P D) :=
  (system P D).watch (fun _ => (List.finRange NBUF).reverse) recency

theorem linked_erase (linked : Linked k none ((l : List BufId).map some)) (member : b ∈ l) :
    Linked ((k.unlink (some b)).linkFront none (some b)) none ((b :: l.erase b).map some) := by
  obtain ⟨front, back, -, rfl, same⟩ := List.exists_erase_eq member
  rw [List.map_append, List.map_cons] at linked
  rw [same, List.map_cons, List.map_append]
  refine linked_linkFront (linked_unlink linked) fun again => ?_
  exact (List.nodup_middle.mp (List.nodup_cons.mp linked.distinct).2).notMem (by simpa using again)

theorem step_linked [DecidableEq P] {s after : State P D} (ran : perform s e = .ok after)
    (all : ∀ b, b ∈ l) (linked : Linked s.links none (l.map some)) :
    (∀ b, b ∈ recency s e after l) ∧ Linked after.links none ((recency s e after l).map some) := by
  by_cases drops : ∃ p b, e = .drop p ∧ s.act p = .drops b
  · obtain ⟨p, b, rfl, at_⟩ := drops
    simp only [perform, at_, brelseEnd_eq, Except.ok.injEq] at ran
    simp only [recency, at_, ← ran, State.goto]
    split
    · refine ⟨fun c => List.mem_cons.mpr ?_, linked_erase linked (all b)⟩
      exact or_iff_not_imp_left.mpr fun other => (List.mem_erase_of_ne other).mpr (all c)
    · exact ⟨all, linked⟩
  · have still : recency s e after l = l ∧ after.links = s.links := by
      cases e <;> grind [recency, perform, breadBegin, logWrite, bwrite, brelse, ideintr,
        State.setBuf, State.goto, bind_eq_ok, pure_eq_ok]
    rw [still.1, still.2]
    exact ⟨all, linked⟩

/-- In every run `bget` recycles a buffer only when those given up before it, behind it in
the list, are all in use or dirty. -/
theorem bget_recycles_oldest [DecidableEq P] {s : State P D × List BufId}
    (run : (recent P D).Run (fun _ _ => True) s) (taken : bget s.1 dev blockno = .ok (b, true)) :
    (s.2.Nodup ∧ ∀ b, b ∈ s.2) ∧ ∃ front back, s.2 = front ++ b :: back ∧
      ∀ c ∈ back, (s.1.buf c).refcnt ≠ 0 ∨ (s.1.buf c).dirty = true := by
  obtain ⟨all, linked⟩ : (∀ b, b ∈ s.2) ∧ Linked s.1.links none (s.2.map some) := by
    apply run.invariant
    · rintro ⟨_, l⟩ ⟨⟨_, _, _, _, rfl⟩, begins⟩
      rw [show l = (List.finRange NBUF).reverse from begins]
      exact ⟨by simp, binit_linked⟩
    · rintro s e after ⟨all, linked⟩ _ _ ran
      obtain ⟨stepped, noted⟩ := System.watch_perform ran
      rw [noted]
      exact step_linked stepped all linked
  have distinct : s.2.Nodup := (List.nodup_cons.mp linked.distinct).2.of_map some
  have length : s.2.length < NBUF + 1 := by
    simpa [Nat.lt_succ_iff] using distinct.length_le_card
  have backward := linked.backward
  rw [← List.map_reverse] at backward
  refine ⟨⟨distinct, all⟩, ?_⟩
  unfold bget at taken
  split at taken
  · cases taken
  · rw [search_path backward (by simp) (by simpa using length), map_find?] at taken
    cases free : s.2.reverse.find? fun b => (s.1.buf b).refcnt == 0 && !(s.1.buf b).dirty with
    | none => simp [free] at taken
    | some c =>
      rw [free] at taken
      cases taken
      obtain ⟨-, back, front, whole, busy⟩ := List.find?_eq_some_iff_append.mp free
      refine ⟨front.reverse, back.reverse, by simpa using congrArg List.reverse whole, ?_⟩
      intro c member
      simpa using busy c (List.mem_reverse.mp member)

instance [DecidableEq P] (s : State P D × List BufId) (e : Event P D) :
    Decidable ((recent P D).Enabled s e) :=
  inferInstanceAs (Decidable (Enabled s.1 e))

/-- Thirty processes read a block each. All but the first give their buffers back, the last
one first: its buffer is the next to be recycled, as the one behind it is in use. -/
theorem bget_recycles_released : ∃ s, (recent (Fin NPROC) Unit).Run (fun _ _ => True) s ∧
    bget s.1 ROOTDEV 200 = .ok (29, true) ∧ s.2.Nodup ∧
      ∃ front back, s.2 = front ++ 29 :: back ∧ ∀ c ∈ back, (s.1.buf c).refcnt ≠ 0 ∨
        (s.1.buf c).dirty = true := by
  have init : (recent (Fin NPROC) Unit).Init (idle.1.1, (List.finRange NBUF).reverse) :=
    ⟨idle_init.1.1, rfl⟩
  obtain ⟨s, run, found⟩ := System.exists_run (fun _ _ => True) init
    ((List.finRange NBUF).flatMap (fun k => reading k ++ [.io (reader k)]) ++
      (List.finRange NBUF).reverse.dropLast.flatMap fun k => [.brelse (reader k) k, .drop (reader k)])
    (fun s => bget s.1 ROOTDEV 200 = .ok (29, true)) (by decide +kernel)
  have taken := found
  obtain ⟨⟨distinct, -⟩, order⟩ := bget_recycles_oldest run taken
  exact ⟨s, run, taken, distinct, order⟩

end Xv6.CacheRoom
