import Xv6.SideState
import Xv6.LogProtocol
import Xv6.FileWrite

/-! The blocks that a chunk of `filewrite` logs. `writei` runs here with the list of the
blocks it has passed to `log_write`, which stays when the run faults. A turn of its loop
logs a data block, and a bitmap block if the data block is new. The indirect block, a
bitmap block for it and the inode block come once. A chunk that starts inside a block finds
this block, since the offset is at most the size. -/
namespace Xv6.ChunkLog
open CheckedC hiding store
open ByteStore DiskBlocks BlockOwnership FileContents
open FileBytes (portion portion_pos)
open SideState
open RedoLog (BlockNo)
open LogProtocol (record)
open SharedOffset (chunkMax)

/-! ## Runs with a log -/

abbrev Logged := Keeping (List BlockNo)

def word (b : Nat) : BlockNo := BitVec.ofNat 32 b

/-- `log_write` for a buffer of block `b`. -/
def note (b : Nat) : Logged Unit := change fun blocks => record blocks (word b)

/-- From `blocks` on the run lists at most `limit` blocks, and if it returns, then as
described. -/
def Logs (limit : Nat) (program : Logged α) (blocks : List BlockNo)
    (post : α → List BlockNo → Prop) : Prop :=
  (program blocks).2.length ≤ limit ∧
    ∀ value, (program blocks).1 = .ok value → post value (program blocks).2

theorem Logs.bind {first : Logged α} {next : α → Logged β} (logs : Logs limit first blocks middle)
    (rest : ∀ value blocks', middle value blocks' → Logs limit (next value) blocks' post) :
    Logs limit (first >>= next) blocks post := by
  obtain ⟨short, returns⟩ := logs
  unfold Logs
  rw [bind_run]
  cases ran : first blocks with
  | mk result blocks' =>
    rw [ran] at short returns
    cases result with
    | ok value => exact rest value blocks' (returns value rfl)
    | error fault => exact ⟨short, nofun⟩

theorem Logs.mono {program : Logged α} (logs : Logs limit program blocks post)
    (weaker : ∀ value blocks', post value blocks' → post' value blocks') :
    Logs limit program blocks post' :=
  ⟨logs.1, fun value returned => weaker value _ (logs.2 value returned)⟩

theorem Logs.of_le {program : Logged α} (logs : Logs limit program blocks post)
    (le : limit ≤ limit') : Logs limit' program blocks fun _ blocks' => blocks'.length ≤ limit :=
  ⟨logs.1.trans le, fun _ _ => logs.1⟩

theorem logs_return {value : α} {post : α → List BlockNo → Prop} (short : blocks.length ≤ limit)
    (holds : post value blocks) : Logs limit (return value) blocks post := by
  refine ⟨short, fun other same => ?_⟩
  cases same
  exact holds

theorem logs_error (short : blocks.length ≤ limit) :
    Logs limit (plainly (.error fault)) blocks post := ⟨short, nofun⟩

theorem logs_plainly_bind {run : Checked α} {next : α → Logged β} (short : blocks.length ≤ limit)
    (rest : ∀ value, run = .ok value → Logs limit (next value) blocks post) :
    Logs limit (plainly run >>= next) blocks post := by
  cases run with
  | ok value => exact rest value rfl
  | error fault => exact ⟨short, nofun⟩

theorem logs_note_bind {next : Logged α} (rest : Logs limit next (record blocks (word b)) post) :
    Logs limit (note b >>= fun _ => next) blocks post := rest

section
variable (blocks : List BlockNo) (b : BlockNo)
include blocks b

theorem mem_record : b ∈ record blocks b := by
  unfold record
  split
  · assumption
  · simp

theorem subset_record : blocks ⊆ record blocks b := by
  unfold record
  split
  · exact fun _ => id
  · exact List.subset_append_left _ _

theorem length_record_le : (record blocks b).length ≤ blocks.length + 1 := by
  unfold record
  split <;> simp

theorem length_le_record : blocks.length ≤ (record blocks b).length := by
  unfold record
  split <;> simp

end

theorem record_of_mem (member : b ∈ blocks) : record blocks b = blocks := if_pos member

/-! ## The calls -/

/-- `BBLOCK(b, sb)`. -/
def bblock (sb : Superblock) (b : Nat) : Nat := b / BPB + sb.bmapstart

/-- `IBLOCK(i, sb)`. -/
def iblock (sb : Superblock) (inum : Nat) : Nat := inum / IPB + sb.inodestart

def logWriteLogged (sb : Superblock) (d : Disk) (b : Nat) (data : Bytes) : Logged Disk := do
  let d ← plainly (logWrite sb d b data)
  note b
  return d

def ballocLogged (sb : Superblock) (d : Disk) : Logged (Nat × Disk) :=
  match (List.range sb.size).find? fun b => !d.bit b with
  | none => plainly (.error (.panic "balloc: out of blocks"))
  | some b => do
    note (bblock sb b)
    let d ← logWriteLogged sb (d.setBit b) b fun _ => 0
    return (b, d)

def bmapSlotLogged (sb : Superblock) (d : Disk) (ip : Dinode) (k : Fin (NDIRECT + 1)) :
    Logged (Nat × Disk × Dinode) :=
  if ip.addrs k = 0 then do
    let (addr, d) ← ballocLogged sb d
    return (addr, d, ip.setAddr k addr)
  else return (ip.addrs k, d, ip)

def bmapEntryLogged (sb : Superblock) (d : Disk) (addr j : Nat) : Logged (Nat × Disk) := do
  let a ← plainly (bread sb d addr)
  if entry a j = 0 then do
    let (new, d) ← ballocLogged sb d
    let d ← logWriteLogged sb d addr (setEntry a j new)
    return (new, d)
  else return (entry a j, d)

def bmapLogged (sb : Superblock) (d : Disk) (ip : Dinode) (bn : Nat) :
    Logged (Nat × Disk × Dinode) :=
  if direct : bn < NDIRECT then bmapSlotLogged sb d ip ⟨bn, Nat.lt_succ_of_lt direct⟩
  else if bn - NDIRECT < NINDIRECT then do
    let (addr, d, ip) ← bmapSlotLogged sb d ip indirect
    let (addr, d) ← bmapEntryLogged sb d addr (bn - NDIRECT)
    return (addr, d, ip)
  else plainly (.error (.panic "bmap: out of range"))

def writeLoopLogged (sb : Superblock) : Nat → Disk → Dinode → Nat → List UInt8 →
    Logged (Nat × Disk × Dinode)
  | _, d, ip, off, [] => return (off, d, ip)
  | 0, _, _, _, _ :: _ => plainly (.error .blocked)
  | rounds + 1, d, ip, off, byte :: src => do
    let (addr, d, ip) ← bmapLogged sb d ip (off / BSIZE)
    let data ← plainly (bread sb d addr)
    let m := min (byte :: src).length (BSIZE - off % BSIZE)
    let d ← logWriteLogged sb d addr (put data (off % BSIZE) ((byte :: src).take m))
    writeLoopLogged sb rounds d ip (off + m) ((byte :: src).drop m)

def writeiLogged (sb : Superblock) (d : Disk) (inum : Nat) (ip : Dinode) (off : Nat)
    (src : List UInt8) : Logged (Int × Disk × Dinode) :=
  if ip.type = T_DEV then return (if ip.major = CONSOLE then src.length else -1, d, ip)
  else if ip.size < off ∨ (off + src.length) % 2 ^ 32 < off then return (-1, d, ip)
  else if MAXFILE * BSIZE < (off + src.length) % 2 ^ 32 then return (-1, d, ip)
  else do
    let (off, d, ip) ← writeLoopLogged sb src.length d ip off src
    if 0 < src.length ∧ ip.size < off then
      let ip := { ip with size := off }
      note (iblock sb inum)
      return (src.length, iupdate d inum ip, ip)
    else return (src.length, d, ip)

/-! ## The log left out -/

variable {sb : Superblock} {d : Disk} {ip : Dinode}

theorem logWriteLogged_erases : Erases (logWriteLogged sb d b data) (logWrite sb d b data) :=
  (erases_plainly _).then_change _

theorem ballocLogged_erases : Erases (ballocLogged sb d) (balloc sb d) := by
  unfold ballocLogged balloc
  cases (List.range sb.size).find? fun b => !d.bit b with
  | none => exact erases_plainly _
  | some b => exact erases_change (logWriteLogged_erases.bind fun d => erases_return _) _

theorem bmapSlotLogged_erases : Erases (bmapSlotLogged sb d ip k) (bmapSlot sb d ip k) := by
  unfold bmapSlotLogged bmapSlot
  split
  · exact ballocLogged_erases.bind fun r => erases_return _
  · exact erases_return _

theorem bmapEntryLogged_erases :
    Erases (bmapEntryLogged sb d addr j) (bmapEntry sb d addr j) := by
  refine (erases_plainly _).bind fun a => ?_
  split
  · exact ballocLogged_erases.bind fun r => logWriteLogged_erases.bind fun d => erases_return _
  · exact erases_return _

theorem bmapLogged_erases : Erases (bmapLogged sb d ip bn) (bmap sb d ip bn) := by
  unfold bmapLogged bmap
  split
  · exact bmapSlotLogged_erases
  · split
    · exact bmapSlotLogged_erases.bind fun r => bmapEntryLogged_erases.bind fun q => erases_return _
    · exact erases_plainly _

theorem writeLoopLogged_erases :
    Erases (writeLoopLogged sb rounds d ip off src) (writeLoop sb rounds d ip off src) := by
  induction rounds generalizing d ip off src with
  | zero =>
    cases src with
    | nil => exact erases_return _
    | cons byte src => exact erases_plainly _
  | succ rounds ih =>
    cases src with
    | nil => exact erases_return _
    | cons byte src =>
      exact bmapLogged_erases.bind fun r => (erases_plainly _).bind fun data =>
        logWriteLogged_erases.bind fun d => ih

theorem writeiLogged_erases :
    Erases (writeiLogged sb d inum ip off src) (writei sb d inum ip off src) := by
  unfold writeiLogged writei
  split
  · exact erases_return _
  split
  · exact erases_return _
  split
  · exact erases_return _
  refine writeLoopLogged_erases.bind fun r => ?_
  dsimp only
  split
  · exact erases_change (erases_return _) _
  · exact erases_return _

/-! ## What is still to come for the indirect block -/

/-- The blocks that the indirect block can still add to the log. -/
def slack (ip : Dinode) (blocks : List BlockNo) : Nat :=
  if ip.addrs indirect = 0 then 2 else if word (ip.addrs indirect) ∈ blocks then 0 else 1

/-- The blocks of the log, and those reserved for the indirect block. -/
def charge (ip : Dinode) (blocks : List BlockNo) : Nat := blocks.length + slack ip blocks

theorem slack_le (ip : Dinode) (blocks : List BlockNo) : slack ip blocks ≤ 2 := by
  unfold slack
  split
  · rfl
  · split <;> omega

theorem slack_mono (same : ip'.addrs indirect = ip.addrs indirect) (more : blocks ⊆ blocks') :
    slack ip' blocks' ≤ slack ip blocks := by
  unfold slack
  rw [same]
  split
  · rfl
  · split
    · exact Nat.zero_le _
    · rename_i absent
      rw [if_neg fun member => absent (more member)]

theorem length_le_charge (ip : Dinode) (blocks : List BlockNo) :
    blocks.length ≤ charge ip blocks := Nat.le_add_right _ _

theorem charge_le (same : ip'.addrs indirect = ip.addrs indirect) (more : blocks ⊆ blocks')
    (few : blocks'.length ≤ blocks.length + n) : charge ip' blocks' ≤ charge ip blocks + n := by
  have less := slack_mono same more
  unfold charge
  omega

theorem charge_record_indirect (there : ip.addrs indirect ≠ 0) (blocks : List BlockNo) :
    charge ip (record blocks (word (ip.addrs indirect))) ≤ charge ip blocks := by
  have after : slack ip (record blocks (word (ip.addrs indirect))) = 0 := by
    rw [slack, if_neg there, if_pos (mem_record _ _)]
  rw [charge, charge, after, slack, if_neg there]
  split
  · rename_i member
    rw [record_of_mem member]
  · exact length_record_le _ _

theorem charge_record (ip : Dinode) (blocks : List BlockNo) (b : BlockNo) :
    charge ip (record blocks b) ≤ charge ip blocks + 1 :=
  charge_le rfl (subset_record _ _) (length_record_le _ _)

/-! ## What the calls log -/

theorem logWriteLogged_logs (short : (record blocks (word b)).length ≤ limit) :
    Logs limit (logWriteLogged sb d b data) blocks fun _ blocks' =>
      sb.Area b ∧ blocks' = record blocks (word b) := by
  refine logs_plainly_bind ((length_le_record _ _).trans short) fun d' ran => ?_
  unfold logWrite at ran
  split at ran
  · rename_i area
    exact logs_note_bind (logs_return short ⟨area, rfl⟩)
  · cases ran

theorem ballocLogged_logs (room : blocks.length + 2 ≤ limit) :
    Logs limit (ballocLogged sb d) blocks fun r blocks' => r.1 ≠ 0 ∧ blocks ⊆ blocks' ∧
      blocks'.length ≤ blocks.length + 2 ∧ word r.1 ∈ blocks' := by
  unfold ballocLogged
  split
  · exact logs_error (by omega)
  · rename_i b found
    have first := length_record_le blocks (word (bblock sb b))
    have second := length_record_le (record blocks (word (bblock sb b))) (word b)
    refine logs_note_bind ((logWriteLogged_logs (by omega)).bind fun d' blocks' written => ?_)
    obtain ⟨area, rfl⟩ := written
    have positive : 0 < sb.start := Nat.succ_pos _
    have low := area.1
    exact logs_return (by omega)
      ⟨by omega, fun c held => subset_record _ _ (subset_record _ _ held), by omega,
        mem_record _ _⟩

/-- What `bmap` may add: the block is there, or it is new and already logged. -/
def Found (ip : Dinode) (blocks : List BlockNo) (addr : Nat) (ip' : Dinode)
    (blocks' : List BlockNo) : Prop :=
  ip' = ip ∧ blocks' = blocks ∨
    word addr ∈ blocks' ∧ charge ip' blocks' ≤ charge ip blocks + 2

theorem bmapSlotLogged_direct (room : charge ip blocks + 2 ≤ limit) (direct : k ≠ indirect) :
    Logs limit (bmapSlotLogged sb d ip k) blocks fun r blocks' =>
      Found ip blocks r.1 r.2.2 blocks' := by
  have short := length_le_charge ip blocks
  unfold bmapSlotLogged
  split
  · refine (ballocLogged_logs (by omega)).bind fun r blocks' found => ?_
    obtain ⟨-, more, few, member⟩ := found
    refine logs_return (by omega) (.inr ⟨member, charge_le ?_ more few⟩)
    exact Function.update_of_ne direct.symm _ _
  · exact logs_return (by omega) (.inl ⟨rfl, rfl⟩)

theorem bmapSlotLogged_indirect (room : charge ip blocks ≤ limit) :
    Logs limit (bmapSlotLogged sb d ip indirect) blocks fun r blocks' =>
      r.1 = r.2.2.addrs indirect ∧ r.1 ≠ 0 ∧ charge r.2.2 blocks' ≤ charge ip blocks := by
  unfold bmapSlotLogged
  split
  · rename_i empty
    have reserved : charge ip blocks = blocks.length + 2 := by rw [charge, slack, if_pos empty]
    refine (ballocLogged_logs (by omega)).bind fun r blocks' found => ?_
    obtain ⟨held, -, few, member⟩ := found
    have value : (ip.setAddr indirect r.1).addrs indirect = r.1 := by simp [Dinode.setAddr]
    have after : slack (ip.setAddr indirect r.1) blocks' = 0 := by
      rw [slack, value, if_neg held, if_pos member]
    refine logs_return (by omega) ⟨value.symm, held, ?_⟩
    rw [charge, after]
    omega
  · rename_i full
    exact logs_return ((length_le_charge ip blocks).trans room) ⟨rfl, full, Nat.le_refl _⟩

theorem bmapEntryLogged_logs (room : charge ip blocks + 2 ≤ limit) (there : ip.addrs indirect ≠ 0) :
    Logs limit (bmapEntryLogged sb d (ip.addrs indirect) j) blocks fun r blocks' =>
      Found ip blocks r.1 ip blocks' := by
  have short := length_le_charge ip blocks
  refine logs_plainly_bind (by omega) fun a ran => ?_
  split
  · refine (ballocLogged_logs (by omega)).bind fun r blocks₁ found => ?_
    obtain ⟨-, more, few, member⟩ := found
    have first : charge ip blocks₁ ≤ charge ip blocks + 2 := charge_le rfl more few
    have second := charge_record_indirect there blocks₁
    have total := length_le_charge ip (record blocks₁ (word (ip.addrs indirect)))
    refine (logWriteLogged_logs (by omega)).bind fun d' blocks₂ written => ?_
    obtain ⟨-, rfl⟩ := written
    exact logs_return (by omega) (.inr ⟨subset_record _ _ member, by omega⟩)
  · exact logs_return (by omega) (.inl ⟨rfl, rfl⟩)

theorem Found.record (found : Found ip blocks addr ip' blocks') :
    charge ip' (record blocks' (word addr)) ≤ charge ip blocks + 2 := by
  rcases found with ⟨rfl, rfl⟩ | ⟨member, few⟩
  · have one := charge_record ip' blocks' (word addr)
    omega
  · rwa [record_of_mem member]

theorem bmapLogged_logs (room : charge ip blocks + 2 ≤ limit) :
    Logs limit (bmapLogged sb d ip bn) blocks fun r blocks' =>
      charge r.2.2 (record blocks' (word r.1)) ≤ charge ip blocks + 2 := by
  have short := length_le_charge ip blocks
  unfold bmapLogged
  split
  · rename_i direct
    have other : (⟨bn, Nat.lt_succ_of_lt direct⟩ : Fin (NDIRECT + 1)) ≠ indirect :=
      fun same => absurd (congrArg Fin.val same) (by simp [indirect]; omega)
    exact (bmapSlotLogged_direct room other).mono fun r blocks' found => found.record
  · split
    · refine (bmapSlotLogged_indirect (by omega)).bind fun r blocks₁ looked => ?_
      obtain ⟨addr, d₁, ip₁⟩ := r
      dsimp only at looked ⊢
      obtain ⟨rfl, there, reserved⟩ := looked
      refine (bmapEntryLogged_logs (by omega) there).bind fun r blocks₂ found => ?_
      have after := found.record
      have within := length_le_charge ip₁ (record blocks₂ (word r.1))
      have less := length_le_record blocks₂ (word r.1)
      exact logs_return (by omega) (by dsimp only; omega)
    · exact logs_error (by omega)

theorem bmapLogged_held (short : blocks.length ≤ limit) (held : addrOf d.block ip bn ≠ 0) :
    Logs limit (bmapLogged sb d ip bn) blocks fun r blocks' => r.2.2 = ip ∧ blocks' = blocks := by
  have small := addrOf_small held
  have typed : ip.type ≠ 0 := by
    intro free
    rw [addrOf, dif_pos small] at held
    exact held (number_free free _)
  unfold bmapLogged
  split
  · rename_i direct
    rw [addrOf_direct typed direct] at held
    rw [bmapSlotLogged, if_neg held]
    exact logs_return short ⟨rfl, rfl⟩
  · rename_i behind
    have below : bn - NDIRECT < NINDIRECT := by simp only [MAXFILE] at small; omega
    rw [addrOf_entry below behind] at held
    have there : ip.addrs indirect ≠ 0 := fun zero => held (by simp [number, zero])
    rw [number_entry typed there] at held
    rw [if_pos below, bmapSlotLogged, if_neg there, pure_bind]
    dsimp only
    rw [bmapEntryLogged, bind_assoc]
    refine logs_plainly_bind short fun a ran => ?_
    obtain rfl : a = d.block (ip.addrs indirect) := by
      unfold bread at ran
      split at ran
      · exact (Except.ok.inj ran).symm
      · cases ran
    rw [if_neg held, pure_bind]
    exact logs_return short ⟨rfl, rfl⟩

/-! ## The loop -/

/-- What a turn of the loop may add. -/
def price (block : Nat → Bytes) (ip : Dinode) (bn : Nat) : Nat :=
  if addrOf block ip bn = 0 then 2 else 1

theorem bmapLogged_price (room : charge ip blocks + price d.block ip bn ≤ limit) :
    Logs limit (bmapLogged sb d ip bn) blocks fun r blocks' =>
      charge r.2.2 (record blocks' (word r.1)) ≤ charge ip blocks + price d.block ip bn := by
  have short := length_le_charge ip blocks
  unfold price at *
  split at room
  · rename_i empty
    rw [if_pos empty]
    exact bmapLogged_logs room
  · rename_i held
    rw [if_neg held]
    refine (bmapLogged_held (by omega) held).mono fun r blocks' found => ?_
    obtain ⟨same, rfl⟩ := found
    rw [same]
    exact charge_record _ _ _

theorem writeLoopLogged_turn (some : src ≠ [])
    (room : charge ip blocks + price d.block ip (off / BSIZE) ≤ limit)
    (rest : ∀ d' ip' blocks',
      charge ip' blocks' ≤ charge ip blocks + price d.block ip (off / BSIZE) →
      Logs limit (writeLoopLogged sb rounds d' ip' (off + portion off src)
        (src.drop (portion off src))) blocks' post) :
    Logs limit (writeLoopLogged sb (rounds + 1) d ip off src) blocks post := by
  cases src with
  | nil => exact absurd rfl some
  | cons byte src =>
    refine (bmapLogged_price room).bind fun r blocks₁ found => ?_
    obtain ⟨addr, d₁, ip₁⟩ := r
    dsimp only at found ⊢
    have within := length_le_charge ip₁ (record blocks₁ (word addr))
    have less := length_le_record blocks₁ (word addr)
    refine logs_plainly_bind (by omega) fun data ran => ?_
    refine (logWriteLogged_logs (by omega)).bind fun d₂ blocks₂ written => ?_
    obtain ⟨-, rfl⟩ := written
    exact rest d₂ ip₁ _ found

def turns (off n : Nat) : Nat := if n = 0 then 0 else (off % BSIZE + n + (BSIZE - 1)) / BSIZE

theorem turns_portion (off : Nat) (some : src ≠ []) :
    turns off src.length = turns (off + portion off src) (src.drop (portion off src)).length + 1 := by
  have length := List.length_pos_iff.mpr some
  rw [List.length_drop]
  unfold turns portion
  simp only [BSIZE]
  split <;> split <;> omega

theorem writeLoopLogged_logs (room : charge ip blocks + 2 * turns off src.length ≤ limit) :
    Logs limit (writeLoopLogged sb rounds d ip off src) blocks fun _ _ => True := by
  have short := length_le_charge ip blocks
  induction rounds generalizing d ip off src blocks with
  | zero =>
    cases src with
    | nil => exact logs_return (by omega) trivial
    | cons byte src => exact logs_error (by omega)
  | succ rounds ih =>
    by_cases some : src = []
    · subst some
      exact logs_return (by omega) trivial
    · have most : price d.block ip (off / BSIZE) ≤ 2 := by
        unfold price
        split <;> omega
      have next := turns_portion off some
      refine writeLoopLogged_turn some (by omega) fun d' ip' blocks' few => ?_
      exact ih (by omega) (length_le_charge _ _)

theorem writeLoopLogged_chunk (allocated : ∀ bn, bn * BSIZE < ip.size → addrOf d.block ip bn ≠ 0)
    (inside : off ≤ ip.size) (few : src.length ≤ chunkMax) :
    Logs 9 (writeLoopLogged sb src.length d ip off src) [] fun _ _ => True := by
  have chunk : chunkMax = 1536 := rfl
  have start : charge ip [] ≤ 2 := (Nat.zero_add _).trans_le (slack_le ip [])
  by_cases aligned : off % BSIZE = 0
  · refine writeLoopLogged_logs ?_
    have most : turns off src.length ≤ 3 := by
      unfold turns
      rw [aligned]
      simp only [BSIZE]
      split <;> omega
    omega
  · by_cases some : src = []
    · subst some
      exact logs_return (Nat.zero_le _) trivial
    · -- the chunk starts inside a block, which is there
      have position := Nat.div_add_mod' off BSIZE
      have held := allocated (off / BSIZE) (by omega)
      have first : price d.block ip (off / BSIZE) = 1 := if_neg held
      have length := List.length_pos_iff.mpr some
      obtain ⟨rounds, count⟩ := Nat.exists_eq_succ_of_ne_zero (Nat.ne_of_gt length)
      rw [count]
      refine writeLoopLogged_turn some (by omega) fun d' ip' blocks' more => ?_
      refine writeLoopLogged_logs ?_
      have most : turns (off + portion off src) (src.drop (portion off src)).length ≤ 3 := by
        rw [List.length_drop]
        unfold turns portion
        simp only [BSIZE] at *
        split <;> omega
      omega

/-- A chunk of `filewrite` fits what `begin_op` reserves for it. Whatever the number of
bitmap blocks, `writei` logs at most `MAXOPBLOCKS` different blocks for at most as many
bytes as a chunk has, written to an inode whose blocks below its size are there, from an
offset that is at most the size. -/
theorem chunk_fits_reservation
    (allocated : ∀ bn, bn * BSIZE < ip.size → addrOf d.block ip bn ≠ 0)
    (inside : off ≤ ip.size) (few : src.length ≤ chunkMax) :
    (writeiLogged sb d inum ip off src []).1 = writei sb d inum ip off src ∧
      (writeiLogged sb d inum ip off src []).2.length ≤ MAXOPBLOCKS := by
  refine ⟨writeiLogged_erases [], ?_⟩
  suffices logs : Logs MAXOPBLOCKS (writeiLogged sb d inum ip off src) [] fun _ _ => True from logs.1
  unfold writeiLogged
  split
  · exact logs_return (Nat.zero_le _) trivial
  split
  · exact logs_return (Nat.zero_le _) trivial
  split
  · exact logs_return (Nat.zero_le _) trivial
  refine ((writeLoopLogged_chunk allocated inside few).of_le (by decide)).bind
    fun r blocks' loop => ?_
  dsimp only
  have one := length_record_le blocks' (word (iblock sb inum))
  have limit : MAXOPBLOCKS = 10 := rfl
  split
  · exact logs_note_bind (logs_return (by omega) trivial)
  · exact logs_return (by omega) trivial

/-- A file whose direct blocks are all in use. -/
def directDisk : Disk := { blankDisk with bitmap := fun k => if k < 2 then 255#8 else 0#8 }

def directFile : Dinode where
  type := T_FILE
  nlink := 1
  size := 5932
  addrs k := if k = indirect then 0 else 4 + k

/-- A whole chunk behind its end: the bitmap block, the last block of the file, the indirect
block, three new blocks and the block of the inode. -/
theorem chunk_fits_reservation_indirect :
    (writeiLogged smallSuperblock directDisk 1 directFile 5932 (List.replicate 1536 7) []).2.length
      = 7 ∧
    (writeiLogged smallSuperblock directDisk 1 directFile 5932 (List.replicate 1536 7) []).2.length
      ≤ MAXOPBLOCKS := by
  have direct : ∀ bn < 12, addrOf directDisk.block directFile bn ≠ 0 := by decide
  have allocated : ∀ bn, bn * BSIZE < directFile.size → addrOf directDisk.block directFile bn ≠ 0 :=
    fun bn below => direct bn (by simp only [directFile, BSIZE] at below; omega)
  refine ⟨by decide +kernel, (chunk_fits_reservation allocated (Nat.le_refl _) ?_).2⟩
  rw [List.length_replicate]
  decide

end Xv6.ChunkLog
