import Xv6.CacheShape

/-! The buffer cache is a map from block numbers to contents: what a block holds is
found in its buffer while that is valid, and else on the disk. -/
namespace Xv6.CacheMap
open CheckedC LinkedRing StepSystem Tally BufferCache CacheShape Function

/-! ## Contents -/

structure Content (s : State P D) (g : Ghost D) : Prop where
  coherent : ∀ b, (s.buf b).dev = ROOTDEV → (s.buf b).valid = true →
    (s.buf b).data = g.store (s.buf b).blockno
  clean : ∀ b, (s.buf b).dev = ROOTDEV → (s.buf b).valid = true → (s.buf b).dirty = false →
    s.unsaved b = false → (s.buf b).data = s.disk ROOTDEV (s.buf b).blockno
  absent : ∀ n, (∀ b, (s.buf b).dev = ROOTDEV → (s.buf b).blockno = n → (s.buf b).valid = false) →
    g.store n = s.disk ROOTDEV n
  pinned : ∀ n ∈ s.log.lh, g.written n = false →
    ∃ b, (s.buf b).dev = ROOTDEV ∧ (s.buf b).blockno = n ∧ (s.buf b).dirty = true

section
variable {P D : Type} {s after : State P D}

/-- The parts of a buffer that the map depends on. -/
def SameBlock (buf buf' : Buf P D) : Prop :=
  buf.dev = buf'.dev ∧ buf.blockno = buf'.blockno ∧ buf.valid = buf'.valid ∧
    buf.dirty = buf'.dirty ∧ buf.data = buf'.data

def SameKey (buf buf' : Buf P D) : Prop := buf.dev = buf'.dev ∧ buf.blockno = buf'.blockno

/-- The block of ROOTDEV that a buffer is for. -/
def Holds (s : State P D) (b : BufId) (n : Nat) : Prop :=
  (s.buf b).dev = ROOTDEV ∧ (s.buf b).blockno = n

variable [Fintype P]

section
variable {g : Ghost D} (content : Content s g) (shape : Shape s)
include content shape

theorem Content.blank (holds : Holds s b n)
    (invalid : (s.buf b).valid = false) : g.store n = s.disk ROOTDEV n := by
  refine content.absent n fun c root block => ?_
  rw [shape.unique c b root holds.1 (block.trans holds.2.symm), invalid]

theorem Content.dirty (member : n ∈ s.log.lh)
    (written : g.written n = false) (holds : Holds s b n) : (s.buf b).dirty = true := by
  obtain ⟨c, root, block, dirty⟩ := content.pinned n member written
  rwa [← shape.unique c b root holds.1 (block.trans holds.2.symm)]

theorem Content.set {buf : Buf P D}
    (bufs : after.buf = update s.buf b buf) (key : SameKey buf (s.buf b) ∨ buf.valid = false)
    (unsaved : ∀ c, c ≠ b → after.unsaved c = s.unsaved c) (apart : ∀ n, ¬ Holds s b n →
      g'.store n = g.store n ∧ after.disk ROOTDEV n = s.disk ROOTDEV n)
    (valid : ∀ n, Holds s b n → buf.valid = true → buf.data = g'.store n ∧
      (buf.dirty = false → after.unsaved b = false → buf.data = after.disk ROOTDEV n))
    (blank : ∀ n, Holds s b n → buf.valid = false → g'.store n = after.disk ROOTDEV n)
    (pinned : ∀ n ∈ after.log.lh, g'.written n = false →
      n ∈ s.log.lh ∧ g.written n = false ∧ ¬ Holds s b n ∨
        Holds s b n ∧ SameKey buf (s.buf b) ∧ buf.dirty = true) : Content after g' := by
  have here : after.buf b = buf := by rw [bufs, update_self]
  have there : ∀ c, c ≠ b → after.buf c = s.buf c := fun c other => by
    rw [bufs, update_of_ne other]
  have alone : ∀ c, c ≠ b → (s.buf c).dev = ROOTDEV → ¬ Holds s b (s.buf c).blockno :=
    fun c other root holds => other (shape.unique c b root holds.1 holds.2.symm)
  have own : (after.buf b).dev = ROOTDEV → (after.buf b).valid = true →
      Holds s b (after.buf b).blockno := by
    rw [here]
    intro root full
    rcases key with ⟨dev, block⟩ | empty
    · exact ⟨dev ▸ root, block.symm⟩
    · rw [empty] at full
      cases full
  refine ⟨fun c root full => ?_, fun c root full clean saved => ?_, fun n none => ?_,
    fun n member written => ?_⟩
  · by_cases same : c = b
    · subst same
      have holds := own root full
      rw [here] at full holds ⊢
      exact (valid _ holds full).1
    · rw [there c same] at root full ⊢
      rw [(apart _ (alone c same root)).1]
      exact content.coherent c root full
  · by_cases same : c = b
    · subst same
      have holds := own root full
      rw [here] at full holds clean ⊢
      exact (valid _ holds full).2 clean saved
    · rw [there c same] at root full clean ⊢
      rw [unsaved c same] at saved
      rw [(apart _ (alone c same root)).2]
      exact content.clean c root full clean saved
  · by_cases holds : Holds s b n
    · refine blank n holds ?_
      rcases key with ⟨dev, block⟩ | empty
      · have empty := none b
        rw [here, dev, block] at empty
        exact empty holds.1 holds.2
      · exact empty
    · rw [(apart n holds).1, (apart n holds).2]
      refine content.absent n fun c root block => ?_
      have other : c ≠ b := by
        rintro rfl
        exact holds ⟨root, block⟩
      have empty := none c
      rw [there c other] at empty
      exact empty root block
  · rcases pinned n member written with ⟨before, pending, away⟩ | ⟨holds, ⟨dev, block⟩, marked⟩
    · obtain ⟨c, root, block, marked⟩ := content.pinned n before pending
      have other : c ≠ b := by
        rintro rfl
        exact away ⟨root, block⟩
      exact ⟨c, by rw [there c other]; exact ⟨root, block, marked⟩⟩
    · exact ⟨b, by rw [here]; exact ⟨dev.trans holds.1, block.trans holds.2, marked⟩⟩

theorem Content.same {buf : Buf P D}
    (bufs : after.buf = update s.buf b buf) (same : SameBlock buf (s.buf b))
    (unsaved : after.unsaved = s.unsaved) (disk : after.disk = s.disk)
    (log : after.log.lh = s.log.lh) : Content after g := by
  obtain ⟨dev, block, valid, dirty, data⟩ := same
  refine content.set shape bufs (.inl ⟨dev, block⟩) (fun _ _ => by rw [unsaved])
    (fun _ _ => ⟨rfl, by rw [disk]⟩) ?_ ?_ fun n member written => ?_
  · rintro _ ⟨root, rfl⟩ full
    rw [valid] at full
    rw [data, dirty, unsaved, disk]
    exact ⟨content.coherent b root full, content.clean b root full⟩
  · intro n holds empty
    rw [disk]
    exact content.blank shape holds (valid ▸ empty)
  · rw [log] at member
    by_cases holds : Holds s b n
    · exact .inr ⟨holds, ⟨dev, block⟩, dirty ▸ content.dirty shape member written holds⟩
    · exact .inl ⟨member, written, holds⟩

theorem content_mark (bufs : after.buf = update s.buf b { s.buf b with dirty := true })
    (unsaved : after.unsaved = update s.unsaved b false) (disk : after.disk = s.disk)
    (store : g'.store = g.store)
    (listed : ∀ n ∈ after.log.lh, g'.written n = false →
      n ∈ s.log.lh ∧ g.written n = false ∨ Holds s b n) :
    Content after g' := by
  refine content.set shape bufs (.inl ⟨rfl, rfl⟩) (fun c other => by rw [unsaved, update_of_ne other])
    (fun n _ => by rw [store, disk]; exact ⟨rfl, rfl⟩) ?_ ?_ fun n member written => ?_
  · rintro _ ⟨root, rfl⟩ full
    exact ⟨store ▸ content.coherent b root full, nofun⟩
  · intro n holds empty
    rw [store, disk]
    exact content.blank shape holds empty
  · by_cases holds : Holds s b n
    · exact .inr ⟨holds, ⟨rfl, rfl⟩, rfl⟩
    · obtain ⟨before, pending⟩ := (listed n member written).resolve_right holds
      exact .inl ⟨before, pending, holds⟩

theorem content_recycle {buf : Buf P D}
    (idle : (s.buf b).refcnt = 0) (undirty : (s.buf b).dirty = false)
    (bufs : after.buf = update s.buf b buf) (blank : buf.valid = false)
    (unsaved : after.unsaved = s.unsaved) (disk : after.disk = s.disk) (log : after.log = s.log) :
    Content after g := by
  have saved : s.unsaved b = false := by
    cases flag : s.unsaved b with
    | false => rfl
    | true => exact absurd (shape.idle idle).1 (shape.unsaved b flag).2
  refine content.set shape bufs (.inr blank) (fun _ _ => by rw [unsaved])
    (fun _ _ => ⟨rfl, by rw [disk]⟩) (fun n _ full => ?_) (fun n holds _ => ?_)
    fun n member written => .inl ⟨log ▸ member, written, fun holds => ?_⟩
  · rw [blank] at full
    cases full
  · rw [disk]
    cases full : (s.buf b).valid with
    | false => exact content.blank shape holds full
    | true =>
      obtain ⟨root, rfl⟩ := holds
      rw [← content.coherent b root full, content.clean b root full undirty saved]
  · have dirty := content.dirty shape (log ▸ member) written holds
    rw [undirty] at dirty
    cases dirty

end

variable [DecidableEq P]

section
variable {g : Ghost D} (content : Content s g) (shape : Shape s)
include content shape

theorem content_bread (ran : breadBegin s p dev blockno = .ok after) : Content after g := by
  obtain ⟨⟨b, recycled⟩, found, ends⟩ := bind_eq_ok.mp ran
  have spec := bget_spec shape found
  cases ends
  cases recycled with
  | false => exact content.same shape rfl ⟨rfl, rfl, rfl, rfl, rfl⟩ rfl rfl rfl
  | true =>
    exact content_recycle content shape spec.1 spec.2.1 rfl rfl rfl rfl rfl

theorem content_read
    (invalid : (s.buf b).valid = false) : Content ((ideintr s b).goto p .ready) g := by
  have undirty : (s.buf b).dirty = false := by
    cases dirty : (s.buf b).dirty with
    | false => rfl
    | true =>
      rw [shape.marked b dirty] at invalid
      cases invalid
  have whole : (ideintr s b).goto p .ready = State.goto { s with
      buf := update s.buf b { s.buf b with
        data := s.disk (s.buf b).dev (s.buf b).blockno, valid := true, dirty := false } } p .ready := by
    simp [ideintr, undirty, State.setBuf]
  rw [whole]
  refine content.set shape rfl (.inl ⟨rfl, rfl⟩) (fun _ _ => rfl) (fun _ _ => ⟨rfl, rfl⟩) ?_ (by simp)
    fun n member written => .inl ⟨member, written, fun holds => ?_⟩
  · rintro _ ⟨root, rfl⟩ -
    rw [content.blank shape ⟨root, rfl⟩ invalid]
    exact ⟨by rw [root], fun _ _ => by rw [root]; rfl⟩
  · have dirty := content.dirty shape member written holds
    rw [undirty] at dirty
    cases dirty

theorem content_written (dirty : (s.buf b).dirty = true) (at_ : s.act p = .writes b) :
    Content ((ideintr s b).goto p .ready) (note s (.io p) after g) := by
  have whole : (ideintr s b).goto p .ready = State.goto { s with
      disk := update s.disk (s.buf b).dev
        (update (s.disk (s.buf b).dev) (s.buf b).blockno (s.buf b).data)
      buf := update s.buf b { s.buf b with valid := true, dirty := false } } p .ready := by
    simp [ideintr, dirty, State.setBuf]
  have store : (note s (.io p) after g).store = g.store := by
    simp only [note, at_]
    split <;> rfl
  rw [whole]
  refine content.set shape rfl (.inl ⟨rfl, rfl⟩) (fun _ _ => rfl)
    (fun n away => ⟨congrFun store n, ?_⟩) ?_ (by simp) fun n member written => .inl ⟨member, ?_⟩
  · by_cases root : (s.buf b).dev = ROOTDEV
    · simp only [State.goto, root, update_self]
      exact update_of_ne (fun same => away ⟨root, same.symm⟩) ..
    · simp only [State.goto, update_of_ne (Ne.symm root)]
  · rintro _ ⟨root, rfl⟩ -
    refine ⟨store ▸ content.coherent b root (shape.marked b dirty), fun _ _ => ?_⟩
    simp only [State.goto, root, update_self]
  · -- a block that is still to be written is in another buffer
    simp only [note, at_] at written
    split at written
    · by_cases same : n = (s.buf b).blockno
      · simp [same] at written
      · exact ⟨by simpa only [update_of_ne same] using written, fun holds => same holds.2.symm⟩
    · rename_i other
      exact ⟨written, fun holds => other holds.1⟩

theorem content_modify (uses : Uses s p b) :
    Content (State.setBuf { s with unsaved := update s.unsaved b true } b
      fun buf => { buf with data := data }) (note s (.modify p b data) after g) := by
  have full : (s.buf b).valid = true := by
    refine (shape.used b p uses.2).resolve_right fun inside => ?_
    rw [uses.1] at inside
    exact inside
  have same : (note s (.modify p b data) after g).written = g.written := by
    simp only [note]
    split <;> rfl
  refine content.set shape rfl (.inl ⟨rfl, rfl⟩) (fun c other => update_of_ne other ..)
    (fun n away => ⟨?_, rfl⟩) ?_ (fun n _ empty => ?_) fun n member written => ?_
  · simp only [note]
    split
    · rename_i root
      exact update_of_ne (fun same => away ⟨root, same.symm⟩) ..
    · rfl
  · rintro _ ⟨root, rfl⟩ -
    exact ⟨by simp [note, root], fun _ saved => by simp [State.setBuf] at saved⟩
  · rw [full] at empty
    cases empty
  · rw [same] at written
    by_cases holds : Holds s b n
    · exact .inr ⟨holds, ⟨rfl, rfl⟩, content.dirty shape member written holds⟩
    · exact .inl ⟨member, written, holds⟩

end

structure Inv (s : State P D) (g : Ghost D) : Prop where
  shape : Shape s
  content : Content s g

theorem Inv.check (inv : Inv s g) (at_ : s.act p = .checks dev blockno b)
    (ran : perform s (.check p) = .ok after) : Inv after g := by
  refine ⟨shape_check inv.shape at_ ran, ?_⟩
  simp only [perform, at_] at ran
  split at ran
  · cases ran
    exact ⟨inv.content.coherent, inv.content.clean, inv.content.absent, inv.content.pinned⟩
  · obtain ⟨_, _, ends⟩ := bind_eq_ok.mp ran
    cases ends
    exact ⟨inv.content.coherent, inv.content.clean, inv.content.absent, inv.content.pinned⟩

theorem Inv.logWrite (inv : Inv s g) (uses : Uses s p b) (root : (s.buf b).dev = ROOTDEV)
    (ran : logWrite s b = .ok after) : Inv after (note s (.logWrite p b) after g) := by
  unfold BufferCache.logWrite at ran
  split at ran
  · cases ran
  · split at ran
    · cases ran
    · cases ran
      constructor
      · exact inv.shape.writes uses rfl (update_eq_self p s.act).symm rfl rfl ⟨rfl, rfl⟩ rfl
          rfl rfl (fun _ => by rw [uses.1]; rfl) (by rw [uses.1]; trivial)
      · refine content_mark inv.content inv.shape rfl rfl rfl rfl fun n member written => ?_
        by_cases same : n = (s.buf b).blockno
        · exact .inr ⟨root, same.symm⟩
        · refine .inl ⟨?_, ?_⟩
          · simp only [State.setBuf, absorb] at member
            split at member
            · exact member
            · simpa [same] using member
          · simpa only [note, update_of_ne same] using written

theorem Inv.bwrite (inv : Inv s g) (uses : Uses s p b) (ran : bwrite s p b = .ok after) :
    Inv after g := by
  unfold BufferCache.bwrite at ran
  rw [if_neg fun lost => lost uses.2] at ran
  obtain ⟨_, _, ends⟩ := bind_eq_ok.mp ran
  cases ends
  constructor
  · refine inv.shape.writes uses rfl rfl rfl rfl ⟨rfl, rfl⟩ rfl rfl rfl (fun _ => rfl) ?_
    simpa [Fits, State.goto, State.setBuf] using uses.2
  · exact content_mark inv.content inv.shape rfl rfl rfl rfl fun n member written => .inl ⟨member, written⟩

theorem step_inv (inv : Inv s g) (enabled : Enabled s e) (ran : perform s e = .ok after) :
    Inv after (note s e after g) := by
  obtain ⟨shape, content⟩ := inv
  cases e with
  | bread p dev blockno => exact ⟨shape_bread shape enabled ran, content_bread content shape ran⟩
  | lock p =>
    simp only [Enabled] at enabled
    cases at_ : s.act p <;> simp only [at_] at enabled
    simp only [perform, at_] at ran
    cases ran
    exact ⟨shape_lock shape at_ enabled,
      content.same shape rfl ⟨rfl, rfl, rfl, rfl, rfl⟩ rfl rfl rfl⟩
  | check p =>
    simp only [Enabled] at enabled
    cases at_ : s.act p <;> simp only [at_] at enabled
    exact Inv.check ⟨shape, content⟩ at_ ran
  | io p =>
    have fits := shape.acts p
    simp only [Enabled] at enabled
    cases at_ : s.act p <;> simp only [at_] at enabled
    case reads dev blockno b =>
      rw [at_] at fits
      simp only [perform, at_] at ran
      cases ran
      refine ⟨shape_io shape fits.2.1 (fun _ => by rw [at_]; rfl) fun c inside => ?_, ?_⟩
      · rw [at_] at inside
        exact inside.symm
      · simp only [note, at_]
        exact content_read content shape fits.2.2
    case writes b =>
      rw [at_] at fits
      simp only [perform, at_] at ran
      cases ran
      refine ⟨shape_io shape fits.1 (fun _ => by rw [at_]; rfl) fun c inside => ?_, ?_⟩
      · rw [at_] at inside
        exact inside.elim
      · exact content_written content shape fits.2 at_
  | modify p b data =>
    cases ran
    refine ⟨shape.writes enabled rfl (update_eq_self p s.act).symm rfl rfl ⟨rfl, rfl⟩ rfl
      rfl rfl (fun _ => by rw [enabled.1]; rfl) (by rw [enabled.1]; trivial), ?_⟩
    exact content_modify content shape enabled
  | logWrite p b => exact Inv.logWrite ⟨shape, content⟩ enabled.1 enabled.2 ran
  | bwrite p b => exact Inv.bwrite ⟨shape, content⟩ enabled ran
  | brelse p b =>
    refine ⟨shape_brelse shape enabled.1 enabled.2 ran, ?_⟩
    simp only [perform, brelse] at ran
    rw [if_neg fun lost => lost enabled.1.2] at ran
    cases ran
    exact content.same shape rfl ⟨rfl, rfl, rfl, rfl, rfl⟩ rfl rfl rfl
  | drop p =>
    simp only [Enabled] at enabled
    cases at_ : s.act p <;> simp only [at_] at enabled
    simp only [perform, at_] at ran
    cases ran
    refine ⟨shape_drop shape at_, ?_⟩
    rw [brelseEnd_eq]
    exact content.same shape rfl ⟨rfl, rfl, rfl, rfl, rfl⟩ rfl rfl rfl
  | beginOp =>
    cases ran
    exact ⟨shape.congr rfl rfl rfl rfl,
      content.coherent, content.clean, content.absent, content.pinned⟩
  | endOp =>
    cases ran
    exact ⟨shape.congr rfl rfl rfl rfl,
      content.coherent, content.clean, content.absent, content.pinned⟩
  | clear =>
    cases ran
    exact ⟨shape.congr rfl rfl rfl rfl, content.coherent, content.clean, content.absent, by simp⟩

end

/-! ## Runs -/

theorem linked_fold (l : List BufId) (k : Links Node) (m : List BufId)
    (linked : Linked k none (m.map some)) (distinct : (l ++ m).Nodup) :
    Linked (l.foldl (fun k b => k.linkFront none (some b)) k) none ((l.reverse ++ m).map some) := by
  induction l generalizing k m with
  | nil => exact linked
  | cons b l ih =>
    obtain ⟨fresh, rest⟩ := List.nodup_cons.mp distinct
    have next : Linked (k.linkFront none (some b)) none ((b :: m).map some) := by
      refine linked_linkFront linked fun inside => ?_
      simp only [List.mem_cons, List.mem_map, Option.some.injEq, reduceCtorEq, false_or,
        exists_eq_right] at inside
      exact fresh (List.mem_append_right l inside)
    have moved : (l ++ b :: m).Nodup := List.nodup_middle.mpr (List.nodup_cons.mpr ⟨fresh, rest⟩)
    rw [List.foldl_cons, List.reverse_cons, List.append_assoc]
    exact ih _ (b :: m) next moved

theorem binit_linked : Linked binit none ((List.finRange NBUF).reverse.map some) := by
  have empty : Linked (⟨fun _ => none, fun _ => none⟩ : Links Node) none (([] : List BufId).map some) :=
    ⟨rfl, rfl, by simp⟩
  have whole := linked_fold (List.finRange NBUF) _ [] empty (by simpa using List.nodup_finRange NBUF)
  rwa [List.append_nil] at whole

section
variable {P D : Type} [Fintype P]

theorem start_inv (size : Int) (havedisk1 : Bool) (disk : Nat → Nat → D) (junk : BufId → D) :
    Inv (start P size havedisk1 disk junk) ⟨disk ROOTDEV, fun _ => false⟩ := by
  constructor
  · refine ⟨by simp [start], ⟨_, binit_linked, by simp⟩, fun b => ?_, fun _ => trivial,
      by simp [start], by simp [start], by simp [start]⟩
    simp [start, locked, tally, pending]
  · exact ⟨by simp [start], by simp [start], fun _ _ => rfl, by simp [start]⟩

theorem run_inv [DecidableEq P] {s : State P D × Ghost D}
    (run : (mapped P D).Run (fun _ _ => True) s) : Inv s.1 s.2 := by
  apply run.invariant
  · rintro s ⟨⟨size, havedisk1, disk, junk, begins⟩, nothing⟩
    rw [nothing, begins]
    exact start_inv size havedisk1 disk junk
  · intro s e after inv enabled _ ran
    obtain ⟨stepped, noted⟩ := System.watch_perform ran
    rw [noted]
    exact step_inv inv enabled stepped

end

/-! ## What a step does to a buffer -/

section
variable {P D : Type} {s after : State P D}

theorem setBuf_sameKey {f : Buf P D → Buf P D} (key : ∀ buf, SameKey (f buf) buf) (b c : BufId) :
    SameKey ((s.setBuf b f).buf c) (s.buf c) := by
  unfold State.setBuf
  by_cases here : c = b
  · subst here
    simp only [update_self]
    exact key _
  · simp only [update_of_ne here]
    exact ⟨rfl, rfl⟩

theorem ideintr_sameKey (s : State P D) (b c : BufId) : SameKey ((ideintr s b).buf c) (s.buf c) := by
  unfold ideintr
  dsimp only
  split
  · exact setBuf_sameKey (by exact fun _ => ⟨rfl, rfl⟩) b c
  · obtain ⟨dev, blockno⟩ := setBuf_sameKey (s := s)
      (f := fun buf => { buf with data := s.disk buf.dev buf.blockno }) (fun _ => ⟨rfl, rfl⟩) b c
    rw [SameKey, ← dev, ← blockno]
    exact setBuf_sameKey (by exact fun _ => ⟨rfl, rfl⟩) b c

variable [DecidableEq P]

theorem note_store_of_returns (returns : breadReturns s e = some (dev, blockno, b)) :
    note s e after g = g := by
  unfold breadReturns at returns
  split at returns
  · rfl
  · split at returns
    · rename_i at_
      simp only [note, at_]
    · cases returns
  · cases returns

variable [Fintype P]

theorem bread_sameKey (shape : Shape s) (ran : breadBegin s p dev blockno = .ok after)
    (kept : 0 < (s.buf b).refcnt ∨ (s.buf b).dirty = true) : SameKey (after.buf b) (s.buf b) := by
  obtain ⟨⟨c, recycled⟩, found, ends⟩ := bind_eq_ok.mp ran
  have spec := bget_spec shape found
  cases ends
  cases recycled with
  | false =>
    rw [State.goto_buf]
    exact setBuf_sameKey (by exact fun _ => ⟨rfl, rfl⟩) _ b
  | true =>
    have other : b ≠ c := by
      rintro rfl
      simp only [if_true] at spec
      rcases kept with used | dirty
      · omega
      · rw [spec.2.1] at dirty
        cases dirty
    simp only [State.goto, State.setBuf, update_of_ne other]
    exact ⟨rfl, rfl⟩

theorem step_sameKey (shape : Shape s) (ran : perform s e = .ok after)
    (kept : 0 < (s.buf b).refcnt ∨ (s.buf b).dirty = true) : SameKey (after.buf b) (s.buf b) := by
  cases e with
  | bread p dev blockno => exact bread_sameKey shape ran kept
  | lock p =>
    simp only [perform] at ran
    split at ran <;> cases ran
    · rw [State.goto_buf]
      exact setBuf_sameKey (by exact fun _ => ⟨rfl, rfl⟩) _ b
    · exact ⟨rfl, rfl⟩
  | check p =>
    simp only [perform] at ran
    split at ran
    · split at ran
      · cases ran
        exact ⟨rfl, rfl⟩
      · obtain ⟨_, _, ends⟩ := bind_eq_ok.mp ran
        cases ends
        exact ⟨rfl, rfl⟩
    · cases ran
      exact ⟨rfl, rfl⟩
  | io p =>
    simp only [perform] at ran
    split at ran <;> cases ran
    · exact ideintr_sameKey s _ b
    · exact ideintr_sameKey s _ b
    · exact ⟨rfl, rfl⟩
  | modify p c data =>
    cases ran
    exact setBuf_sameKey (by exact fun _ => ⟨rfl, rfl⟩) _ b
  | logWrite p c =>
    simp only [perform, BufferCache.logWrite] at ran
    split_ifs at ran
    cases ran
    exact setBuf_sameKey (by exact fun _ => ⟨rfl, rfl⟩) _ b
  | bwrite p c =>
    simp only [perform, BufferCache.bwrite] at ran
    split at ran
    · cases ran
    · obtain ⟨_, _, ends⟩ := bind_eq_ok.mp ran
      cases ends
      simp only [State.goto_buf]
      exact setBuf_sameKey (by exact fun _ => ⟨rfl, rfl⟩) _ b
  | brelse p c =>
    simp only [perform, brelse] at ran
    split at ran <;> cases ran
    rw [State.goto_buf]
    exact setBuf_sameKey (by exact fun _ => ⟨rfl, rfl⟩) _ b
  | drop p =>
    simp only [perform] at ran
    split at ran <;> cases ran
    · simp only [State.goto_buf, brelseEnd]
      split
      · dsimp only
        exact setBuf_sameKey (by exact fun _ => ⟨rfl, rfl⟩) _ b
      · exact setBuf_sameKey (by exact fun _ => ⟨rfl, rfl⟩) _ b
    · exact ⟨rfl, rfl⟩
  | beginOp =>
    cases ran
    exact ⟨rfl, rfl⟩
  | endOp =>
    cases ran
    exact ⟨rfl, rfl⟩
  | clear =>
    cases ran
    exact ⟨rfl, rfl⟩

theorem bread_returns (shape : Shape s) (ran : perform s e = .ok after)
    (returns : breadReturns s e = some (dev, blockno, b)) :
    (after.buf b).dev = dev ∧ (after.buf b).blockno = blockno ∧ (after.buf b).valid = true := by
  unfold breadReturns at returns
  split at returns
  · rename_i p
    have fits := shape.acts p
    split at returns
    · rename_i at_
      rw [at_] at fits
      split at returns
      · rename_i valid
        cases returns
        simp only [perform, at_, valid, if_true] at ran
        cases ran
        exact ⟨fits.1.1, fits.1.2, valid⟩
      · cases returns
    · cases returns
  · rename_i p
    have fits := shape.acts p
    split at returns
    · rename_i at_
      rw [at_] at fits
      cases returns
      simp only [perform, at_] at ran
      cases ran
      obtain ⟨data, bufs⟩ := ideintr_buf s b
      simp only [State.goto, bufs, update_self]
      exact ⟨fits.1.1, fits.1.2, trivial⟩
    · cases returns
  · cases returns

end

/-- In every run of processes that follow the interface, for as long as nothing
panics. The map `s.2.store` has the contents that were last stored in a block of
ROOTDEV, and `s.2.written` the blocks `bwrite` has written since their `log_write`. -/
theorem cache_transparent {P D : Type} [Fintype P] [DecidableEq P] {s : State P D × Ghost D}
    (run : (mapped P D).Run (fun _ _ => True) s) :
    (∀ b c, (s.1.buf b).dev = ROOTDEV → (s.1.buf c).dev = ROOTDEV →
      (s.1.buf b).blockno = (s.1.buf c).blockno → b = c) ∧
    (∃ l : List BufId, Linked s.1.links none (l.map some) ∧ l.Nodup ∧ ∀ b, b ∈ l) ∧
    (∀ e after b, Enabled s.1 e → perform s.1 e = .ok after →
      0 < (s.1.buf b).refcnt ∨ (s.1.buf b).dirty = true →
      (after.buf b).dev = (s.1.buf b).dev ∧ (after.buf b).blockno = (s.1.buf b).blockno) ∧
    (∀ n ∈ s.1.log.lh, s.2.written n = false →
      ∃ b, (s.1.buf b).dev = ROOTDEV ∧ (s.1.buf b).blockno = n ∧ (s.1.buf b).dirty = true) ∧
    ∀ e after blockno b, Enabled s.1 e → perform s.1 e = .ok after →
      breadReturns s.1 e = some (ROOTDEV, blockno, b) →
      (after.buf b).dev = ROOTDEV ∧ (after.buf b).blockno = blockno ∧
        (after.buf b).data = s.2.store blockno := by
  have inv := run_inv run
  refine ⟨inv.shape.unique, ?_, fun e after b _ ran kept => step_sameKey inv.shape ran kept,
    inv.content.pinned, fun e after blockno b enabled ran returns => ?_⟩
  · obtain ⟨l, linked, all⟩ := inv.shape.linked
    exact ⟨l, linked, (List.nodup_cons.mp linked.distinct).2.of_map some, all⟩
  · obtain ⟨dev, block, valid⟩ := bread_returns inv.shape ran returns
    have next := step_inv inv enabled ran
    rw [note_store_of_returns returns] at next
    refine ⟨dev, block, ?_⟩
    rw [next.content.coherent b dev valid, block]

/-- One process stores 7 in block 5 and passes it to the log; another reads it. -/
theorem cache_transparent_two : ∃ s : State (Fin 2) Nat × Ghost Nat,
    (mapped (Fin 2) Nat).Run (fun _ _ => True) s ∧ s.1.log.lh = [5] ∧
      breadReturns s.1 (.check 1) = some (ROOTDEV, 5, 0) ∧ (s.1.buf 0).dirty = true ∧
      ∀ after, perform s.1 (.check 1) = .ok after → (after.buf 0).data = 7 := by
  obtain ⟨s, run, listed, returns, dirty, enabled, stored⟩ := System.exists_run (fun _ _ => True) (m := mapped (Fin 2) Nat)
    (s := (start (Fin 2) 31 true (fun _ _ => 0) fun _ => 0, ⟨fun _ => 0, fun _ => false⟩))
    ⟨⟨31, true, _, _, rfl⟩, rfl⟩
    [.beginOp, .bread 0 ROOTDEV 5, .lock 0, .check 0, .io 0, .modify 0 0 7, .logWrite 0 0,
      .brelse 0 0, .drop 0, .endOp, .bread 1 ROOTDEV 5, .lock 1]
    (fun s => s.1.log.lh = [5] ∧ breadReturns s.1 (.check 1) = some (ROOTDEV, 5, 0) ∧
      (s.1.buf 0).dirty = true ∧ Enabled s.1 (.check 1) ∧ s.2.store 5 = 7)
    (by decide +kernel)
  refine ⟨s, run, listed, returns, dirty, fun after ran => ?_⟩
  have same := ((cache_transparent run).2.2.2.2 (.check 1) after 5 0 enabled ran returns).2.2
  rw [same, stored]

/-- The events that can lead to a commit. -/
def EndsOp : Event P D → Bool
  | .endOp | .clear => true
  | _ => false

/-- A block is listed, a second process writes it with `bwrite`, and thirty other
blocks take its buffer. No operation has ended, so that nothing was committed and
`install_trans` has not run. -/
theorem bwrite_unpins_listed_block : ∃ s : State (Fin 2) Nat × Ghost Nat,
    (mapped (Fin 2) Nat).Run (fun _ e => EndsOp e = false) s ∧ s.1.log.outstanding = 1 ∧
      5 ∈ s.1.log.lh ∧ ∀ b, (s.1.buf b).dev = ROOTDEV → (s.1.buf b).blockno ≠ 5 := by
  obtain ⟨s, run, here⟩ := System.exists_run (fun _ e => EndsOp e = false) (m := mapped (Fin 2) Nat)
    (s := (start (Fin 2) 31 true (fun _ _ => 0) fun _ => 0, ⟨fun _ => 0, fun _ => false⟩))
    ⟨⟨31, true, _, _, rfl⟩, rfl⟩
    ([.beginOp, .bread 0 ROOTDEV 5, .lock 0, .check 0, .io 0, .modify 0 0 7, .logWrite 0 0,
      .brelse 0 0, .drop 0, .bread 1 ROOTDEV 5, .lock 1, .check 1, .modify 1 0 8, .bwrite 1 0,
      .io 1, .brelse 1 0, .drop 1] ++ (List.range NBUF).flatMap fun k =>
        [.bread 0 ROOTDEV (100 + k), .lock 0, .check 0, .io 0])
    (fun s => s.1.log.outstanding = 1 ∧ 5 ∈ s.1.log.lh ∧
      ∀ b, (s.1.buf b).dev = ROOTDEV → (s.1.buf b).blockno ≠ 5)
    (by decide +kernel)
  exact ⟨s, run, here⟩

end Xv6.CacheMap
