import Mathlib.Data.List.Nodup
import Xv6.RedoLog

/-! Crash atomicity of `commit`. Until the header reaches the disk the log is
empty and no home block has changed; from then on header and log blocks hold the
whole transaction, and installing it again, from any half-installed disk, ends
the same way. Both conditions are kept by every block write of `commit` and of
`recover_from_log`, so recovery may be cut short and started again. -/
namespace Xv6.LogCrash
open CheckedC DiskProgram DiskProgram.Prog RedoLog Function

abbrev Disk := BlockNo → Block

/-- `b` is one of the `log.size` blocks of the on-disk log. -/
def InLog (log : Log) (b : BlockNo) : Prop :=
  ∃ i : Nat, (i : Int) < log.size ∧ b = log.start + BitVec.ofNat 32 i

/-- The transaction fits the log: header slots, data blocks after the header,
home blocks distinct and outside the log. -/
structure Fits (log : Log) (tx : List (BlockNo × Block)) : Prop where
  slots : tx.length ≤ LOGSIZE
  blocks : (tx.length : Int) ≤ log.size - 1
  distinct : (tx.map Prod.fst).Nodup
  outside : ∀ home ∈ tx.map Prod.fst, ¬ InLog log home

/-- The in-memory header lists the home blocks of the transaction. -/
structure Listed (tx : List (BlockNo × Block)) (lh : LogHeader) : Prop where
  counted : lh.n = tx.length
  homes : ∀ (i : Fin LOGSIZE) (inside : (i : Nat) < tx.length), lh.block i = tx[(i : Nat)].1

/-- What `commit` starts from: the header lists the transaction, whose blocks are
B_DIRTY with the new contents; no block of the log itself is. -/
structure Pending (log : Log) (tx : List (BlockNo × Block)) : Prop where
  fits : Fits log tx
  listed : Listed tx log.lh
  cached : ∀ home data, (home, data) ∈ tx → log.dirty home = some data
  clean : ∀ b, InLog log b → log.dirty b = none

/-- Memory after a reboot: `initlog` has set `start` and `size`. -/
def rebooted (log : Log) : Log := { start := log.start, size := log.size }

/-! ## Addresses -/

theorem in_log_start (fits : Fits log tx) : InLog log log.start := by
  have room := fits.blocks
  exact ⟨0, by omega, by simp⟩

private theorem logBlock_ofNat (log : Log) (i : Nat) :
    logBlock log (i : Int) = log.start + BitVec.ofNat 32 (i + 1) := by
  simp only [logBlock, BitVec.ofInt_natCast, BitVec.ofNat_add]
  rw [BitVec.add_assoc]
  rfl

theorem in_log_logBlock (fits : Fits log tx) (inside : i < tx.length) :
    InLog log (logBlock log (i : Int)) := by
  have room := fits.blocks
  exact ⟨i + 1, by omega, logBlock_ofNat log i⟩

private theorem offset_injective {start : BlockNo} {i j : Nat} (low : i ≤ LOGSIZE)
    (high : j ≤ LOGSIZE)
    (same : start + BitVec.ofNat 32 i = start + BitVec.ofNat 32 j) : i = j := by
  simp only [LOGSIZE] at low high
  have offsets := congrArg BitVec.toNat (BitVec.add_right_inj start |>.mp same)
  simp only [BitVec.toNat_ofNat] at offsets
  omega

theorem logBlock_ne_start (fits : Fits log tx) (inside : i < tx.length) :
    logBlock log (i : Int) ≠ log.start := by
  intro same
  have room := fits.slots
  have zero : log.start + BitVec.ofNat 32 (i + 1) = log.start + BitVec.ofNat 32 0 := by
    rw [← logBlock_ofNat, same]
    simp
  have offsets := offset_injective (by omega) (by omega) zero
  omega

theorem logBlock_injective (fits : Fits log tx) (low : i < tx.length) (high : j < tx.length)
    (same : logBlock log (i : Int) = logBlock log (j : Int)) : i = j := by
  have room := fits.slots
  rw [logBlock_ofNat, logBlock_ofNat] at same
  have offsets := offset_injective (by omega) (by omega) same
  omega

theorem home_ne_of_in_log (fits : Fits log tx) (member : item ∈ tx) (inside : InLog log b) :
    item.1 ≠ b := by
  intro same
  apply fits.outside item.1 (List.mem_map_of_mem member)
  rw [same]
  exact inside

/-! ## The disk conditions -/

structure Untouched (log : Log) (disk d : Disk) : Prop where
  empty : headerCount (d log.start) = 0
  same : ∀ b, ¬ InLog log b → d b = disk b

/-- Header and log blocks hold the whole transaction; the home blocks may be in
any state. -/
structure Committed (log : Log) (tx : List (BlockNo × Block)) (disk d : Disk) : Prop where
  counted : headerCount (d log.start) = tx.length
  homes : ∀ (i : Fin LOGSIZE) (inside : (i : Nat) < tx.length),
    d log.start (headerWord i) = tx[(i : Nat)].1
  contents : ∀ (i : Nat) (inside : i < tx.length), d (logBlock log i) = tx[i].2
  others : ∀ b, ¬ InLog log b → b ∉ tx.map Prod.fst → d b = disk b

/-- The log is empty again and the transaction is in its home blocks. -/
structure Installed (log : Log) (tx : List (BlockNo × Block)) (disk d : Disk) : Prop where
  empty : headerCount (d log.start) = 0
  homes : ∀ item ∈ tx, d item.1 = item.2
  others : ∀ b, ¬ InLog log b → b ∉ tx.map Prod.fst → d b = disk b

theorem Committed.install (committed : Committed log tx disk d) (fits : Fits log tx)
    (member : item ∈ tx) : Committed log tx disk (update d item.1 v) := by
  have apart : ∀ b, InLog log b → update d item.1 v b = d b := fun b inside =>
    update_of_ne (home_ne_of_in_log fits member inside).symm _ _
  constructor
  · rw [apart _ (in_log_start fits)]
    exact committed.counted
  · rw [apart _ (in_log_start fits)]
    exact committed.homes
  · intro i inside
    rw [apart _ (in_log_logBlock fits inside)]
    exact committed.contents i inside
  · intro b outside absent
    have other : b ≠ item.1 := fun same => absent (same ▸ List.mem_map_of_mem member)
    rw [update_of_ne other]
    exact committed.others b outside absent

theorem Committed.cleared (committed : Committed log tx disk d) (fits : Fits log tx)
    (installed : ∀ item ∈ tx, d item.1 = item.2) (empty : headerCount buf = 0) :
    Installed log tx disk (update d log.start buf) := by
  constructor
  · rw [update_self]
    exact empty
  · intro item member
    rw [update_of_ne (home_ne_of_in_log fits member (in_log_start fits))]
    exact installed item member
  · intro b outside absent
    have other : b ≠ log.start := fun same => outside (same ▸ in_log_start fits)
    rw [update_of_ne other]
    exact committed.others b outside absent

/-! ## Specifications of the buffer operations and of the header copies -/

section
variable {Crash : Platter BlockNo Block → Prop} {w : World Log BlockNo Block}

theorem wp_bread {Post : Block → World Log BlockNo Block → Prop} (here : Crash w.platter)
    (post : Post ((w.mem.dirty b).getD (w.platter.block b)) w) : wp Crash (bread b) Post w := by
  apply wp_bind
  refine ⟨?_, here⟩
  cases found : w.mem.dirty b with
  | none =>
    simp only [found] at post ⊢
    exact ⟨post, here⟩
  | some data =>
    simp only [found] at post ⊢
    exact ⟨post, here⟩

theorem wp_bwrite {Post : Unit → World Log BlockNo Block → Prop} (here : Crash w.platter)
    (there : Crash (w.platter.write b v))
    (post : Post () ⟨{ w.mem with dirty := update w.mem.dirty b none },
      w.platter.write b v⟩) : wp Crash (bwrite b v) Post w := by
  apply wp_bind
  refine ⟨here, ?_, there⟩
  apply wp_bind
  exact ⟨⟨post, there⟩, there⟩

end

theorem copyToHeader_spec {lh : LogHeader} {n : Nat} (counted : lh.n = n) (room : n ≤ LOGSIZE)
    (buf : Block) :
    ∃ after, copyToHeader lh buf = .ok after ∧ headerCount after = n ∧
      ∀ i : Fin LOGSIZE, (i : Nat) < n → after (headerWord i) = lh.block i := by
  let Inv (i : Int) (after : Block) : Prop := headerCount after = n ∧
    ∀ slot : Fin LOGSIZE, ((slot : Nat) : Int) < i → after (headerWord slot) = lh.block slot
  have start : Inv 0 (update buf 0 (BitVec.ofInt 32 lh.n)) := by
    refine ⟨?_, fun slot below => absurd below (by omega)⟩
    simp only [LOGSIZE] at room
    simp only [headerCount, update_self, BitVec.toInt_ofInt, counted]
    apply Int.bmod_eq_of_le <;> omega
  obtain ⟨after, ran, counts, copied⟩ := CheckedC.forLoop_invariant Inv 0 lh.n (fun i buf => do
    let slot ← index LOGSIZE i
    return update buf (headerWord slot) (lh.block slot)) _ (by omega) start (by
      rintro i after low high ⟨counts, copied⟩
      obtain ⟨k, rfl⟩ := Int.eq_ofNat_of_zero_le low
      have inside : k < LOGSIZE := by omega
      refine ⟨_, by rw [index_ofNat inside]; rfl, ?_, fun slot below => ?_⟩
      · simpa [headerCount, headerWord, update_apply] using counts
      · by_cases here : slot = ⟨k, inside⟩
        · rw [here, update_self]
        · have apart : headerWord slot ≠ headerWord ⟨k, inside⟩ := fun same =>
            here (Fin.ext (by simpa [headerWord] using same))
          rw [update_of_ne apart]
          apply copied
          have other : (slot : Nat) ≠ k := fun same => here (Fin.ext same)
          omega)
  exact ⟨after, ran, counts, fun i below => copied i (by omega)⟩

theorem copyFromHeader_spec {n : Nat} (room : n ≤ LOGSIZE) (buf : Block)
    (block : Fin LOGSIZE → BlockNo) :
    ∃ after, copyFromHeader buf n block = .ok after ∧
      ∀ i : Fin LOGSIZE, (i : Nat) < n → after i = buf (headerWord i) := by
  obtain ⟨after, ran, copied⟩ := CheckedC.forLoop_invariant
    (fun i (after : Fin LOGSIZE → BlockNo) => ∀ slot : Fin LOGSIZE,
      ((slot : Nat) : Int) < i → after slot = buf (headerWord slot)) 0 (n : Int)
    (fun i block => do
      let slot ← index LOGSIZE i
      return update block slot (buf (headerWord slot))) block (by omega)
    (fun slot below => absurd below (by omega)) (by
      rintro i after low high copied
      obtain ⟨k, rfl⟩ := Int.eq_ofNat_of_zero_le low
      have inside : k < LOGSIZE := by omega
      refine ⟨_, by rw [index_ofNat inside]; rfl, fun slot below => ?_⟩
      by_cases here : slot = ⟨k, inside⟩
      · rw [here, update_self]
      · rw [update_of_ne here]
        apply copied
        have other : (slot : Nat) ≠ k := fun same => here (Fin.ext same)
        omega)
  exact ⟨after, ran, fun i below => copied i (by omega)⟩

/-! ## Specifications of the functions of log.c -/

section
variable {Crash : Platter BlockNo Block → Prop} {w : World Log BlockNo Block}

theorem wp_writeHead {n : Nat} {Post : Unit → World Log BlockNo Block → Prop}
    (counted : w.mem.lh.n = n) (room : n ≤ LOGSIZE) (here : Crash w.platter)
    (wrote : ∀ buf, headerCount buf = n →
      (∀ i : Fin LOGSIZE, (i : Nat) < n → buf (headerWord i) = w.mem.lh.block i) →
      Crash (w.platter.write w.mem.start buf) ∧
        Post () ⟨{ w.mem with dirty := update w.mem.dirty w.mem.start none },
          w.platter.write w.mem.start buf⟩) : wp Crash writeHead Post w := by
  apply wp_bind
  refine ⟨?_, here⟩
  apply wp_bind
  apply wp_bread here
  obtain ⟨buf, ran, counts, copied⟩ := copyToHeader_spec counted room
    ((w.mem.dirty w.mem.start).getD (w.platter.block w.mem.start))
  apply wp_bind
  apply wp_check ran here
  obtain ⟨there, post⟩ := wrote buf counts copied
  exact wp_bwrite here there post

/-- The memory `install_trans` runs with: the header lists the transaction and
no log block is B_DIRTY. -/
structure Holding (log : Log) (tx : List (BlockNo × Block)) (m : Log) : Prop where
  start : m.start = log.start
  listed : Listed tx m.lh
  clean : ∀ b, InLog log b → m.dirty b = none

theorem Holding.written (holding : Holding log tx m) (b : BlockNo) :
    Holding log tx { m with dirty := update m.dirty b none } := by
  refine ⟨holding.start, holding.listed, fun c inside => ?_⟩
  by_cases same : c = b
  · simp [same]
  · simpa [same] using holding.clean c inside

theorem wp_installTrans (fits : Fits log tx) (holding : Holding log tx w.mem)
    (committed : Committed log tx disk w.platter.block)
    (crash : ∀ q, w.platter.writes ≤ q.writes → Committed log tx disk q.block → Crash q) :
    wp Crash installTrans (fun _ after => Holding log tx after.mem ∧
      Committed log tx disk after.platter.block ∧ w.platter.writes ≤ after.platter.writes ∧
      ∀ item ∈ tx, after.platter.block item.1 = item.2) w := by
  let Inv (i : Int) (after : World Log BlockNo Block) : Prop := Holding log tx after.mem ∧
    Committed log tx disk after.platter.block ∧ w.platter.writes ≤ after.platter.writes ∧
    ∀ (j : Nat) (inside : j < tx.length), (j : Int) < i → after.platter.block tx[j].1 = tx[j].2
  have turn : ∀ i after, 0 ≤ i → i < w.mem.lh.n → Inv i after → wp Crash (do
      let lbuf ← bread (logBlock w.mem i)
      let dst ← check (load w.mem.lh.block i)
      let _ ← bread dst
      bwrite dst lbuf) (fun _ => Inv (i + 1)) after := by
    rintro i after low high ⟨held, kept, later, done⟩
    obtain ⟨k, rfl⟩ := Int.eq_ofNat_of_zero_le low
    have inside : k < tx.length := by have := holding.listed.counted; omega
    have room := fits.slots
    have slot : k < LOGSIZE := by omega
    have here := crash _ later kept
    have member : tx[k] ∈ tx := List.getElem_mem inside
    have block : logBlock w.mem (k : Int) = logBlock log k := by
      rw [logBlock, logBlock, holding.start]
    apply wp_bind
    apply wp_bread here
    rw [block, held.clean _ (in_log_logBlock fits inside), Option.getD_none,
      kept.contents k inside]
    apply wp_bind
    apply wp_check (load_ofNat slot _) here
    rw [holding.listed.homes ⟨k, slot⟩ inside]
    apply wp_bind
    apply wp_bread here
    have after' := kept.install (v := tx[k].2) fits member
    apply wp_bwrite here (crash _ (Nat.le_succ_of_le later) after')
    refine ⟨held.written _, after', Nat.le_succ_of_le later, fun j within below => ?_⟩
    by_cases same : tx[j].1 = tx[k].1
    · have item := List.inj_on_of_nodup_map fits.distinct (List.getElem_mem within) member same
      simp [Platter.write, item]
    · have last : j ≠ k := fun eq => same (by simp [eq])
      simp only [Platter.write, update_of_ne same]
      exact done j within (by omega)
  have ran := wp_forLoop Inv 0 w.mem.lh.n _ (by have := holding.listed.counted; omega)
    (⟨holding, committed, le_refl _, fun j _ below => absurd below (by omega)⟩ : Inv 0 w)
    (fun i after _ _ inv => crash _ inv.2.2.1 inv.2.1) turn
  apply wp_bind
  refine ⟨wp_mono ran (fun _ => id) ?_, crash _ (le_refl _) committed⟩
  rintro _ after ⟨held, kept, later, done⟩
  refine ⟨held, kept, later, fun item member => ?_⟩
  obtain ⟨j, inside, rfl⟩ := List.mem_iff_getElem.mp member
  exact done j inside (by have := holding.listed.counted; omega)

theorem wp_clear (fits : Fits log tx) (holding : Holding log tx w.mem)
    (committed : Committed log tx disk w.platter.block)
    (installed : ∀ item ∈ tx, w.platter.block item.1 = item.2) (here : Crash w.platter)
    (crash : ∀ q, w.platter.writes < q.writes → Installed log tx disk q.block → Crash q) :
    wp Crash (do clearCount; writeHead)
      (fun _ after => Installed log tx disk after.platter.block) w := by
  apply wp_bind
  apply wp_bind
  refine ⟨⟨?_, here⟩, here⟩
  apply wp_writeHead (n := 0)
  · rfl
  · omega
  · exact here
  · intro buf empty _
    have ended := committed.cleared fits installed (by simpa using empty)
    rw [holding.start]
    exact ⟨crash _ (Nat.lt_succ_self _) ended, ended⟩

theorem wp_readHead (fits : Fits log tx) (clean : w.mem.dirty log.start = none)
    (start : w.mem.start = log.start) (committed : Committed log tx disk w.platter.block)
    (here : Crash w.platter) (empty : ∀ b, w.mem.dirty b = none) :
    wp Crash readHead
      (fun _ after => Holding log tx after.mem ∧ after.platter = w.platter) w := by
  apply wp_bind
  refine ⟨?_, here⟩
  apply wp_bind
  apply wp_bread here
  rw [start, clean, Option.getD_none, committed.counted]
  obtain ⟨block, ran, copied⟩ := copyFromHeader_spec fits.slots (w.platter.block log.start)
    w.mem.lh.block
  apply wp_bind
  apply wp_check ran here
  refine ⟨⟨⟨rfl, ⟨rfl, fun i inside => ?_⟩, fun b _ => empty b⟩, rfl⟩, here⟩
  exact (copied i inside).trans (committed.homes i inside)

end

/-! ## Recovery -/

/-- Where `recover_from_log` can find the disk once the header has been written. -/
def Recoverable (log : Log) (tx : List (BlockNo × Block)) (disk d : Disk) : Prop :=
  Committed log tx disk d ∨ Installed log tx disk d

theorem wp_recover_committed {p : Platter BlockNo Block} (fits : Fits log tx)
    (committed : Committed log tx disk p.block) :
    wp (fun q => Recoverable log tx disk q.block) recoverFromLog
      (fun _ after => Installed log tx disk after.platter.block) ⟨rebooted log, p⟩ := by
  apply wp_bind
  refine wp_mono (wp_readHead fits rfl rfl committed (.inl committed) fun _ => rfl)
    (fun _ => id) ?_
  rintro _ read ⟨holding, same⟩
  have committed' : Committed log tx disk read.platter.block := by rwa [same]
  apply wp_bind
  refine wp_mono (wp_installTrans fits holding committed' fun _ _ => .inl) (fun _ => id) ?_
  rintro _ installed ⟨held, kept, _, homes⟩
  exact wp_clear fits held kept homes (.inl kept) fun _ _ => .inr

theorem Fits.nil (fits : Fits log tx) : Fits log [] := by
  have room := fits.blocks
  exact ⟨by simp, by simp; omega, by simp, by simp⟩

theorem committed_nil (empty : headerCount (d log.start) = 0) : Committed log [] d d :=
  ⟨empty, fun _ inside => absurd inside (by simp), fun _ inside => absurd inside (by simp),
    fun _ _ _ => rfl⟩

theorem Recoverable.untouched (left : Recoverable log [] d d') : Untouched log d d' := by
  cases left with
  | inl committed => exact ⟨committed.counted, fun b outside => committed.others b outside (by simp)⟩
  | inr installed => exact ⟨installed.empty, fun b outside => installed.others b outside (by simp)⟩

theorem wp_recover_empty {p : Platter BlockNo Block} (fits : Fits log tx)
    (empty : headerCount (p.block log.start) = 0) :
    wp (fun q => Untouched log p.block q.block) recoverFromLog
      (fun _ after => Untouched log p.block after.platter.block) ⟨rebooted log, p⟩ :=
  wp_mono (wp_recover_committed fits.nil (committed_nil empty))
    (fun _ left => left.untouched) (fun _ _ installed => Recoverable.untouched (.inr installed))

theorem Untouched.trans (first : Untouched log disk d) (second : Untouched log d d') :
    Untouched log disk d' :=
  ⟨second.empty, fun b outside => (second.same b outside).trans (first.same b outside)⟩

theorem Installed.trans (first : Installed log tx disk d) (fits : Fits log tx)
    (second : Untouched log d d') : Installed log tx disk d' := by
  refine ⟨second.empty, fun item member => ?_, fun b outside absent => ?_⟩
  · rw [second.same _ (fits.outside _ (List.mem_map_of_mem member))]
    exact first.homes item member
  · rw [second.same b outside]
    exact first.others b outside absent

theorem recover_untouched {p : Platter BlockNo Block} (fits : Fits log tx)
    (untouched : Untouched log disk p.block) :
    (∃ final, Reruns (rebooted log) recoverFromLog p final) ∧
      ∀ final, Reruns (rebooted log) recoverFromLog p final →
        Untouched log disk final.block := by
  have keeps : ∀ p : Platter BlockNo Block, Untouched log disk p.block →
      wp (fun q => Untouched log disk q.block) recoverFromLog
        (fun _ after => Untouched log disk after.platter.block) ⟨rebooted log, p⟩ := by
    intro p left
    exact wp_mono (wp_recover_empty fits left.empty) (fun _ later => left.trans later)
      (fun _ _ later => left.trans later)
  exact ⟨reruns_exists (keeps p untouched),
    fun _ reruns => reruns_post (fun q => Untouched log disk q.block) keeps reruns untouched⟩

theorem recover_recoverable {p : Platter BlockNo Block} (fits : Fits log tx)
    (left : Recoverable log tx disk p.block) :
    (∃ final, Reruns (rebooted log) recoverFromLog p final) ∧
      ∀ final, Reruns (rebooted log) recoverFromLog p final →
        Installed log tx disk final.block := by
  have keeps : ∀ p : Platter BlockNo Block, Recoverable log tx disk p.block →
      wp (fun q => Recoverable log tx disk q.block) recoverFromLog
        (fun _ after => Installed log tx disk after.platter.block) ⟨rebooted log, p⟩ := by
    intro p left
    cases left with
    | inl committed => exact wp_recover_committed fits committed
    | inr installed =>
      exact wp_mono (wp_recover_empty fits installed.empty)
        (fun _ later => .inr (installed.trans fits later))
        (fun _ _ later => installed.trans fits later)
  exact ⟨reruns_exists (keeps p left),
    fun _ reruns => reruns_post (fun q => Installed log tx disk q.block) keeps reruns left⟩

/-! ## Commit -/

/-- What a crash of `commit` leaves, told apart by whether the header write, which
comes after one write for each block of the transaction, has been made. -/
def CommitCrash (log : Log) (tx : List (BlockNo × Block)) (disk : Disk)
    (q : Platter BlockNo Block) : Prop :=
  (q.writes ≤ tx.length ∧ Untouched log disk q.block) ∨
    (tx.length < q.writes ∧ Recoverable log tx disk q.block)

theorem Untouched.logged (untouched : Untouched log disk d) (fits : Fits log tx)
    (inside : i < tx.length) : Untouched log disk (update d (logBlock log i) v) := by
  constructor
  · rw [update_of_ne (logBlock_ne_start fits inside).symm]
    exact untouched.empty
  · intro b outside
    have other : b ≠ logBlock log i := fun same => outside (same ▸ in_log_logBlock fits inside)
    rw [update_of_ne other]
    exact untouched.same b outside

/-- The log blocks below `i` hold the cached contents, one write each; the cache
still holds the transaction. -/
structure Logged (log : Log) (tx : List (BlockNo × Block)) (disk : Disk) (i : Int)
    (w : World Log BlockNo Block) : Prop where
  holding : Holding log tx w.mem
  cached : ∀ home data, (home, data) ∈ tx → w.mem.dirty home = some data
  writes : (w.platter.writes : Int) = i
  untouched : Untouched log disk w.platter.block
  contents : ∀ (j : Nat) (inside : j < tx.length), (j : Int) < i →
    w.platter.block (logBlock log j) = tx[j].2

theorem Logged.turn (logged : Logged log tx disk i w) (fits : Fits log tx) (low : 0 ≤ i)
    (high : i < tx.length) (same : Listed tx m.lh) (start : m.start = log.start) :
    wp (CommitCrash log tx disk) (do
      let _ ← bread (logBlock m i)
      let src ← check (load m.lh.block i)
      let data ← bread src
      bwrite (logBlock m i) data) (fun _ => Logged log tx disk (i + 1)) w := by
  obtain ⟨k, rfl⟩ := Int.eq_ofNat_of_zero_le low
  have inside : k < tx.length := by omega
  have room := fits.slots
  have slot : k < LOGSIZE := by omega
  have counted := logged.writes
  have here : CommitCrash log tx disk w.platter := .inl ⟨by omega, logged.untouched⟩
  have block : logBlock m (k : Int) = logBlock log k := by rw [logBlock, logBlock, start]
  have member : (tx[k].1, tx[k].2) ∈ tx := List.getElem_mem inside
  have apart : ∀ item ∈ tx, item.1 ≠ logBlock log k := fun item member =>
    home_ne_of_in_log fits member (in_log_logBlock fits inside)
  apply wp_bind
  apply wp_bread here
  apply wp_bind
  apply wp_check (load_ofNat slot _) here
  rw [same.homes ⟨k, slot⟩ inside]
  apply wp_bind
  apply wp_bread here
  rw [logged.cached _ _ member, Option.getD_some, block]
  have after := logged.untouched.logged (v := tx[k].2) fits inside
  apply wp_bwrite here (.inl ⟨by simp only [Platter.write]; omega, after⟩)
  refine ⟨logged.holding.written _, fun home data found => ?_, ?_, after, fun j within below => ?_⟩
  · exact (update_of_ne (apart _ found) _ _).trans (logged.cached home data found)
  · simp only [Platter.write]
    omega
  · by_cases last : j = k
    · subst last
      simp [Platter.write]
    · have other : logBlock log (j : Int) ≠ logBlock log (k : Int) := fun same =>
        last (logBlock_injective fits within inside same)
      simp only [Platter.write, update_of_ne other]
      exact logged.contents j within (by omega)

theorem wp_writeLog (pending : Pending log tx) (empty : headerCount (disk log.start) = 0) :
    wp (CommitCrash log tx disk) writeLog (fun _ => Logged log tx disk tx.length)
      ⟨log, ⟨disk, 0⟩⟩ := by
  have start : Logged log tx disk 0 ⟨log, ⟨disk, 0⟩⟩ :=
    ⟨⟨rfl, pending.listed, pending.clean⟩, pending.cached, rfl, ⟨empty, fun _ _ => rfl⟩,
      fun _ _ below => absurd below (by omega)⟩
  have counted := pending.listed.counted
  apply wp_bind
  refine ⟨?_, .inl ⟨by simp, start.untouched⟩⟩
  rw [← counted]
  refine wp_forLoop (Logged log tx disk) 0 log.lh.n _ (by omega) start ?_ ?_
  · intro i w low high logged
    have writes := logged.writes
    exact .inl ⟨by omega, logged.untouched⟩
  · intro i w low high logged
    exact logged.turn pending.fits low (by omega) pending.listed rfl

theorem Logged.committed (logged : Logged log tx disk tx.length w) (fits : Fits log tx)
    (counted : headerCount buf = tx.length)
    (homes : ∀ i : Fin LOGSIZE, (i : Nat) < tx.length → buf (headerWord i) = w.mem.lh.block i) :
    Committed log tx disk (update w.platter.block log.start buf) := by
  constructor
  · rw [update_self]
    exact counted
  · intro i inside
    rw [update_self, homes i inside]
    exact logged.holding.listed.homes i inside
  · intro i inside
    rw [update_of_ne (logBlock_ne_start fits inside)]
    exact logged.contents i inside (by omega)
  · intro b outside absent
    have other : b ≠ log.start := fun same => outside (same ▸ in_log_start fits)
    rw [update_of_ne other]
    exact logged.untouched.same b outside

theorem wp_commit (pending : Pending log tx) (empty : headerCount (disk log.start) = 0) :
    wp (CommitCrash log tx disk) commit
      (fun _ after => Installed log tx disk after.platter.block) ⟨log, ⟨disk, 0⟩⟩ := by
  have fits := pending.fits
  have counted := pending.listed.counted
  have untouched : Untouched log disk disk := ⟨empty, fun _ _ => rfl⟩
  apply wp_bind
  refine ⟨?_, .inl ⟨by simp, untouched⟩⟩
  dsimp only
  split
  · apply wp_bind
    refine wp_mono (wp_writeLog pending empty) (fun _ => id) ?_
    intro _ logged full
    apply wp_bind
    have writes := full.writes
    refine wp_writeHead full.holding.listed.counted fits.slots
      (.inl ⟨by omega, full.untouched⟩) (fun buf counts homes => ?_)
    rw [full.holding.start]
    have committed := full.committed fits counts homes
    have headed : tx.length < (logged.platter.write log.start buf).writes := by
      simp only [Platter.write]
      omega
    refine ⟨.inr ⟨headed, .inl committed⟩, ?_⟩
    apply wp_bind
    refine wp_mono (wp_installTrans fits (full.holding.written _) committed
      (fun q later kept => .inr ⟨headed.trans_le later, .inl kept⟩)) (fun _ => id) ?_
    rintro _ installed ⟨held, kept, later, homes⟩
    have past := headed.trans_le later
    exact wp_clear fits held kept homes (.inr ⟨past, .inl kept⟩)
      (fun q after ended => .inr ⟨past.trans after, .inr ended⟩)
  · have none : tx = [] := by
      apply List.eq_nil_of_length_eq_zero
      omega
    subst none
    exact ⟨⟨empty, by simp, fun _ _ _ => rfl⟩, .inl ⟨by simp, untouched⟩⟩

/-- `commit` of any transaction that fits completes; wherever a crash cuts it
short, recovery, itself cut short any number of times, completes and ends with
an empty log, with the home blocks all old if the crash came before the header
write and all new if it came after, and with every other block outside the log
unchanged. -/
theorem commit_crash_atomic (pending : Pending log tx)
    (empty : headerCount (disk log.start) = 0) :
    (∃ after, commit.exec ⟨log, ⟨disk, 0⟩⟩ = .ok ((), after) ∧
      Installed log tx disk after.platter.block) ∧
    ∀ crashed ∈ commit.crashPoints ⟨log, ⟨disk, 0⟩⟩,
      (∃ final, Reruns (rebooted log) recoverFromLog crashed final) ∧
      ∀ final, Reruns (rebooted log) recoverFromLog crashed final →
        headerCount (final.block log.start) = 0 ∧
        (∀ home data, (home, data) ∈ tx →
          final.block home = if crashed.writes ≤ tx.length then disk home else data) ∧
        ∀ b, ¬ InLog log b → b ∉ tx.map Prod.fst → final.block b = disk b := by
  obtain ⟨⟨_, after, ran, installed⟩, points⟩ := wp_sound (wp_commit pending empty)
  refine ⟨⟨after, ran, installed⟩, fun crashed point => ?_⟩
  have fits := pending.fits
  have outside : ∀ home data, (home, data) ∈ tx → ¬ InLog log home := fun home data member =>
    fits.outside home (List.mem_map_of_mem (f := Prod.fst) member)
  cases points crashed point with
  | inl before =>
    obtain ⟨ends, recovered⟩ := recover_untouched fits before.2
    refine ⟨ends, fun final reruns => ?_⟩
    have old := recovered final reruns
    refine ⟨old.empty, fun home data member => ?_, fun b out _ => old.same b out⟩
    rw [if_pos before.1]
    exact old.same home (outside home data member)
  | inr later =>
    obtain ⟨ends, recovered⟩ := recover_recoverable fits later.2
    refine ⟨ends, fun final reruns => ?_⟩
    have new := recovered final reruns
    refine ⟨new.empty, fun home data member => ?_, new.others⟩
    rw [if_neg (by omega)]
    exact new.homes _ member

/-- The log where `mkfs` puts it. -/
private def area : Log := { start := 2, size := 30 }

/-- A transaction of two blocks. -/
private def pair (x y : Block) : List (BlockNo × Block) := [(100, x), (101, y)]

private def sample (x y : Block) : Log :=
  { area with
    lh := { n := 2, block := fun i => if i = 0 then 100 else 101 }
    dirty := fun b => if b = 100 then some x else if b = 101 then some y else none }

private theorem pair_outside (member : home ∈ (pair x y).map Prod.fst) : ¬ InLog area home := by
  rintro ⟨i, low, same⟩
  have numbers : home = 100 ∨ home = 101 := by simpa [pair] using member
  rcases numbers with rfl | rfl
  all_goals
    have number := congrArg BitVec.toNat same
    simp [area] at number low
    omega

private theorem pending_sample (x y : Block) : Pending (sample x y) (pair x y) := by
  refine ⟨⟨by simp [pair, LOGSIZE], by simp [pair, sample, area], by simp [pair],
    fun home => pair_outside⟩, ⟨rfl, ?_⟩, ?_, ?_⟩
  · rintro ⟨i, _⟩ inside
    have below : i < 2 := inside
    obtain rfl | rfl : i = 0 ∨ i = 1 := by omega
    all_goals rfl
  · intro home data member
    rcases (by simpa [pair] using member : home = 100 ∧ data = x ∨ home = 101 ∧ data = y) with
      ⟨rfl, rfl⟩ | ⟨rfl, rfl⟩ <;> rfl
  · intro b inside
    have other : b ∉ (pair x y).map Prod.fst := fun member => pair_outside member inside
    simp only [pair, List.map_cons, List.map_nil, List.mem_cons, List.not_mem_nil, or_false,
      not_or] at other
    simp only [sample, if_neg other.1, if_neg other.2]

private theorem sample_writes (x y : Block) (d : Disk) :
    (commit.crashPoints ⟨sample x y, ⟨d, 0⟩⟩).map Platter.writes = [0, 1, 2, 3, 4, 5, 6] := rfl

private def zeroed : Disk := fun _ _ => 0

theorem commit_crash_atomic_two_blocks :
    let before : World Log BlockNo Block := ⟨sample (fun _ => 7) (fun _ => 8), ⟨zeroed, 0⟩⟩
    (commit.crashPoints before).map Platter.writes = [0, 1, 2, 3, 4, 5, 6] ∧
    ∀ crashed ∈ commit.crashPoints before,
      (∃ final, Reruns (rebooted area) recoverFromLog crashed final) ∧
      ∀ final, Reruns (rebooted area) recoverFromLog crashed final →
        (final.block 100 = if crashed.writes ≤ 2 then zeroed 100 else fun _ => 7) ∧
        final.block 101 = if crashed.writes ≤ 2 then zeroed 101 else fun _ => 8 := by
  intro before
  refine ⟨sample_writes _ _ _, fun crashed point => ?_⟩
  obtain ⟨ends, all⟩ := (commit_crash_atomic (pending_sample _ _) (by decide)).2 crashed point
  refine ⟨ends, fun final reruns => ?_⟩
  have homes := (all final reruns).2.1
  exact ⟨homes 100 _ (by simp [pair]), homes 101 _ (by simp [pair])⟩

/-- A transaction in its home blocks. -/
def install (disk : Disk) (tx : List (BlockNo × Block)) : Disk := fun b =>
  match tx.find? (·.1 = b) with
  | some item => item.2
  | none => disk b

/-- One `commit` after the other. A crash at any point of one is followed by recovery, begun
again until one run ends; the transaction is kept if the header write was made. -/
inductive Life (log : Log) (disk : Disk) : List (List (BlockNo × Block)) → Disk → Prop where
  | formatted (empty : headerCount (disk log.start) = 0) : Life log disk [] disk
  | commits (life : Life log disk kept d) (pending : Pending { log with lh := lh, dirty := dirty } tx)
      (ran : commit.exec ⟨{ log with lh := lh, dirty := dirty }, ⟨d, 0⟩⟩ = .ok ((), after)) :
      Life log disk (kept ++ [tx]) after.platter.block
  | crashes (life : Life log disk kept d) (pending : Pending { log with lh := lh, dirty := dirty } tx)
      (crashed : p ∈ commit.crashPoints ⟨{ log with lh := lh, dirty := dirty }, ⟨d, 0⟩⟩)
      (recovers : Reruns (rebooted log) recoverFromLog p final) :
      Life log disk (if p.writes ≤ tx.length then kept else kept ++ [tx]) final.block

theorem Installed.extends (installed : Installed log tx d d') (same : ∀ b, ¬ InLog log b →
    d b = kept.foldl install disk b) (b : BlockNo) (outside : ¬ InLog log b) :
    d' b = (kept ++ [tx]).foldl install disk b := by
  rw [List.foldl_append, List.foldl_cons, List.foldl_nil, install]
  split
  · rename_i item found
    obtain rfl : item.1 = b := by simpa using List.find?_some found
    exact installed.homes item (List.mem_of_find?_eq_some found)
  · rename_i absent
    rw [← same b outside]
    refine installed.others b outside fun member => ?_
    obtain ⟨item, listed, rfl⟩ := List.mem_map.mp member
    simpa using List.find?_eq_none.mp absent item listed

/-- Over any number of commits, crashes and recoveries the log is empty and the blocks outside
it are those that the kept transactions leave, whole and one after the other. -/
theorem transactions_endure (life : Life log disk kept d) :
    headerCount (d log.start) = 0 ∧ ∀ b, ¬ InLog log b → d b = kept.foldl install disk b := by
  induction life with
  | formatted empty => exact ⟨empty, fun _ _ => rfl⟩
  | commits _ pending ran ih =>
    obtain ⟨⟨_, _, ends, installed⟩, -⟩ := wp_sound (wp_commit pending ih.1)
    cases ran.symm.trans ends
    exact ⟨installed.empty, installed.extends ih.2⟩
  | crashes _ pending crashed recovers ih =>
    rcases (wp_sound (wp_commit pending ih.1)).2 _ crashed with ⟨before, left⟩ | ⟨later, left⟩
    · have old := (recover_untouched pending.fits left).2 _ recovers
      rw [if_pos before]
      exact ⟨old.empty, fun b outside => (old.same b outside).trans (ih.2 b outside)⟩
    · have new := (recover_recoverable pending.fits left).2 _ recovers
      rw [if_neg (Nat.not_le.mpr later)]
      exact ⟨new.empty, new.extends ih.2⟩

private theorem sample_crash (x y : Block) (d : Disk) (empty : headerCount (d area.start) = 0)
    (writes : Nat) (inside : writes ∈ [0, 1, 2, 3, 4, 5, 6]) :
    ∃ p ∈ commit.crashPoints ⟨sample x y, ⟨d, 0⟩⟩, p.writes = writes ∧
      ∃ final, Reruns (rebooted area) recoverFromLog p final := by
  rw [← sample_writes x y d] at inside
  obtain ⟨p, point, count⟩ := List.mem_map.mp inside
  refine ⟨p, point, count, ?_⟩
  have pending := pending_sample x y
  rcases (wp_sound (wp_commit pending empty)).2 p point with ⟨-, left⟩ | ⟨-, left⟩
  · exact (recover_untouched pending.fits left).1
  · exact (recover_recoverable pending.fits left).1

/-- The first transaction completes, the second is lost before its header is written, and the
third is cut short right after. -/
theorem transactions_endure_three : ∃ d,
    Life area zeroed [pair (fun _ => 7) (fun _ => 8), pair (fun _ => 5) (fun _ => 6)] d ∧
    headerCount (d 2) = 0 ∧ (d 100 = fun _ => 5) ∧ d 101 = fun _ => 6 := by
  have pending := pending_sample
  have formatted : Life area zeroed [] zeroed := .formatted (by decide)
  obtain ⟨⟨_, _, ends, -⟩, -⟩ :=
    wp_sound (wp_commit (pending (fun _ => 7) fun _ => 8) (transactions_endure formatted).1)
  have first := formatted.commits (pending _ _) ends
  obtain ⟨p, point, writes, lost, recovers⟩ :=
    sample_crash (fun _ => 9) (fun _ => 9) _ (transactions_endure first).1 2 (by decide)
  have second := first.crashes (pending _ _) point recovers
  rw [writes, if_pos (by decide)] at second
  obtain ⟨p', point', writes', final, recovers'⟩ :=
    sample_crash (fun _ => 5) (fun _ => 6) _ (transactions_endure second).1 3 (by decide)
  have third := second.crashes (pending _ _) point' recovers'
  rw [writes', if_neg (by decide)] at third
  obtain ⟨empty, homes⟩ := transactions_endure third
  have outside : ∀ home ∈ [100, 101], ¬ InLog area home := fun home member =>
    pair_outside (x := fun _ => 0) (y := fun _ => 0) (by simpa [pair] using member)
  exact ⟨_, third, empty, homes 100 (outside 100 (by decide)), homes 101 (outside 101 (by decide))⟩

end Xv6.LogCrash
