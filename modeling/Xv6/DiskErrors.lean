import Xv6.CacheMap

/-! The buffer cache on a disk that may fail. `ideintr` looks at the status only before it
takes the data of a read, and sets the flags of the buffer whatever it has seen. -/
namespace Xv6.DiskErrors
open CheckedC StepSystem BufferCache CacheShape CacheMap Function

abbrev IDE_DF : UInt8 := 0x20
abbrev IDE_ERR : UInt8 := 0x01

/-- The drive reports that it has not carried out the command. -/
def Failed (status : UInt8) : Prop := status &&& (IDE_DF ||| IDE_ERR) ≠ 0

instance : DecidablePred Failed := fun _ => inferInstanceAs (Decidable (_ ≠ _))

/-- `idewait(checkerr)`, where `status` is the ready status that ends its loop. -/
def idewait (checkerr : Bool) (status : UInt8) : Int :=
  if checkerr ∧ Failed status then -1 else 0

section
variable {P D : Type}

/-- The disk carries out the request for the buffer or fails, and `ideintr` completes it. -/
def ideintr (s : State P D) (status : UInt8) (b : BufId) : State P D :=
  let buf := s.buf b
  let blocks := update (s.disk buf.dev) buf.blockno buf.data
  let port := s.disk buf.dev buf.blockno
  let s := if buf.dirty ∧ ¬ Failed status then { s with disk := update s.disk buf.dev blocks } else s
  let s := if !buf.dirty ∧ 0 ≤ idewait true status then
      s.setBuf b fun buf => { buf with data := port }
    else s
  s.setBuf b fun buf => { buf with valid := true, dirty := false }

theorem ideintr_eq (s : State P D) (b : BufId) (fine : ¬ Failed status) :
    ideintr s status b = BufferCache.ideintr s b := by
  cases dirty : (s.buf b).dirty <;> simp [ideintr, BufferCache.ideintr, idewait, fine, dirty,
    State.setBuf]

variable [DecidableEq P]

/-- A step of the cache; `status` is that of the drive, and matters when the disk is done
with a request. -/
structure Event (P D : Type) where
  act : BufferCache.Event P D
  status : UInt8

def perform (s : State P D) (e : Event P D) : Checked (State P D) :=
  match e.act with
  | .io p => match s.act p with
    | .reads _ _ b | .writes b => .ok ((ideintr s e.status b).goto p .ready)
    | _ => .ok s
  | act => BufferCache.perform s act

def Succeeds (e : Event P D) : Prop :=
  match e.act with
  | .io _ => ¬ Failed e.status
  | _ => True

instance (e : Event P D) : Decidable (Succeeds e) := by
  unfold Succeeds
  split <;> infer_instance

def system (P D : Type) [DecidableEq P] : System (State P D) (Event P D) where
  Init := (BufferCache.system P D).Init
  Enabled s e := BufferCache.Enabled s e.act
  perform := perform

instance (s : State P D) (e : Event P D) : Decidable ((system P D).Enabled s e) :=
  inferInstanceAs (Decidable (BufferCache.Enabled s e.act))

theorem perform_eq {s : State P D} (fine : Succeeds e) :
    perform s e = BufferCache.perform s e.act := by
  unfold Succeeds at fine
  unfold perform
  split
  · rename_i p io
    rw [io] at fine ⊢
    cases at_ : s.act p <;> simp only [BufferCache.perform, at_, ideintr_eq _ _ fine]
  · rfl

variable [Fintype P]

theorem run_inv {s : State P D} (run : (system P D).Run (fun _ e => Succeeds e) s) :
    ∃ g, Inv s g := by
  apply run.invariant
  · rintro s ⟨size, havedisk1, disk, junk, rfl⟩
    exact ⟨_, start_inv size havedisk1 disk junk⟩
  · rintro s e after ⟨g, inv⟩ enabled fine ran
    exact ⟨_, step_inv inv enabled ((perform_eq fine).symm.trans ran)⟩

end

/-- A buffer of ROOTDEV that is valid and has not been changed since holds its block. -/
def Faithful (s : State P D) (b : BufId) : Prop :=
  (s.buf b).dirty = false → s.unsaved b = false →
    (s.buf b).data = s.disk ROOTDEV (s.buf b).blockno

/-- In every run in which no request fails, a valid buffer that nobody has changed holds its
block, `bread` returns such a buffer, and a write that is done has reached the disk. -/
theorem valid_holds_block {P D : Type} [Fintype P] [DecidableEq P] {s : State P D}
    (run : (system P D).Run (fun _ e => Succeeds e) s) :
    (∀ b, (s.buf b).dev = ROOTDEV → (s.buf b).valid = true → Faithful s b) ∧
    ∀ e after, (system P D).Enabled s e → Succeeds e → perform s e = .ok after →
      (∀ blockno b, breadReturns s e.act = some (ROOTDEV, blockno, b) →
        (after.buf b).dev = ROOTDEV ∧ (after.buf b).blockno = blockno ∧
          (after.buf b).valid = true ∧ Faithful after b) ∧
      ∀ p b, e.act = .io p → s.act p = .writes b → (after.buf b).dirty = false ∧
        after.disk (s.buf b).dev (s.buf b).blockno = (s.buf b).data := by
  have faithful : ∀ {s : State P D}, (system P D).Run (fun _ e => Succeeds e) s → ∀ b,
      (s.buf b).dev = ROOTDEV → (s.buf b).valid = true → Faithful s b := by
    intro s run b root valid clean saved
    obtain ⟨g, inv⟩ := run_inv run
    exact inv.content.clean b root valid clean saved
  refine ⟨faithful run, fun e after enabled fine ran => ⟨fun blockno b returns => ?_, ?_⟩⟩
  · obtain ⟨g, inv⟩ := run_inv run
    obtain ⟨root, block, valid⟩ := bread_returns inv.shape ((perform_eq fine).symm.trans ran) returns
    exact ⟨root, block, valid, faithful (run.step enabled fine ran) b root valid⟩
  · intro p b io at_
    obtain ⟨g, inv⟩ := run_inv run
    have fits := inv.shape.acts p
    rw [at_] at fits
    rw [perform_eq fine, io, BufferCache.perform, at_] at ran
    cases ran
    simp [BufferCache.ideintr, State.setBuf, State.goto, fits.2]

/-- A process reads a block, changes it and writes it. -/
theorem valid_holds_block_written : ∃ s : State (Fin 1) Nat,
    (system (Fin 1) Nat).Run (fun _ e => Succeeds e) s ∧ s.act 0 = .writes 0 ∧
      ∀ after, perform s ⟨.io 0, 0x40⟩ = .ok after → after.disk (s.buf 0).dev 5 = 7 := by
  obtain ⟨s, run, at_, block, data⟩ := System.exists_run (fun _ e => Succeeds e) (m := system (Fin 1) Nat)
    (s := start (Fin 1) 31 true (fun _ _ => 3) fun _ => 0) ⟨31, true, _, _, rfl⟩
    [⟨.bread 0 ROOTDEV 5, 0x40⟩, ⟨.lock 0, 0x40⟩, ⟨.check 0, 0x40⟩, ⟨.io 0, 0x40⟩,
      ⟨.modify 0 0 7, 0x40⟩, ⟨.bwrite 0 0, 0x40⟩]
    (fun s => s.act 0 = .writes 0 ∧ (s.buf 0).blockno = 5 ∧ (s.buf 0).data = 7)
    (by decide +kernel)
  refine ⟨s, run, at_, fun after ran => ?_⟩
  have done := ((valid_holds_block run).2 ⟨.io 0, 0x40⟩ after (by simp [system, Enabled, at_])
    (by decide) ran).2 0 0 rfl at_
  rw [← block, done.2, data]

/-- A process has block 5 of ROOTDEV from `bread`, valid and not changed since, with `data`
in the buffer and `block` on the disk. -/
def Cached (s : State (Fin 1) Nat) (data block : Nat) : Prop :=
  Uses s 0 0 ∧ (s.buf 0).dev = ROOTDEV ∧ (s.buf 0).blockno = 5 ∧ (s.buf 0).valid = true ∧
    (s.buf 0).dirty = false ∧ s.unsaved 0 = false ∧ (s.buf 0).data = data ∧ s.disk ROOTDEV 5 = block

instance : Decidable (Cached s data block) := inferInstanceAs (Decidable (_ ∧ _))

/-- After an error, `bread` has returned the 0 the buffer held before and not the 3 of the
block; and a `bwrite` of 7 is done, and the block still has the 3. -/
theorem error_is_not_seen :
    (∃ s, (system (Fin 1) Nat).Run (fun _ _ => True) s ∧ Cached s 0 3) ∧
      ∃ s, (system (Fin 1) Nat).Run (fun _ _ => True) s ∧ Cached s 7 3 := by
  have init : (system (Fin 1) Nat).Init (start (Fin 1) 31 true (fun _ _ => 3) fun _ => 0) :=
    ⟨31, true, _, _, rfl⟩
  constructor
  · exact System.exists_run (fun _ _ => True) init
      [⟨.bread 0 ROOTDEV 5, 0x40⟩, ⟨.lock 0, 0x40⟩, ⟨.check 0, 0x40⟩, ⟨.io 0, 0x41⟩]
      (fun s => Cached s 0 3) (by decide +kernel)
  · exact System.exists_run (fun _ _ => True) init
      [⟨.bread 0 ROOTDEV 5, 0x40⟩, ⟨.lock 0, 0x40⟩, ⟨.check 0, 0x40⟩, ⟨.io 0, 0x40⟩,
        ⟨.modify 0 0 7, 0x40⟩, ⟨.bwrite 0 0, 0x40⟩, ⟨.io 0, 0x41⟩]
      (fun s => Cached s 7 3) (by decide +kernel)

end Xv6.DiskErrors
