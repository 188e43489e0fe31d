import Xv6.Mkfs
import Xv6.Appending

/-! The sectors that `mkfs` writes, as the kernel reads them. Storing an inode or a data
block in the image changes that inode or block for the kernel and nothing else, so the
loop of `iappend` does to the image what the loop of `writei` does to the disk. -/
namespace Xv6.MkfsImage
open CheckedC hiding store
open ByteStore DiskBlocks BlockOwnership WriteThrough FileContents Appending Function
open Mkfs hiding ialloc balloc

/-! ## Structures -/

theorem loadShort_storeShort (m : Bytes) (a : Nat) (low : -2 ^ 15 ≤ v) (high : v < 2 ^ 15) :
    loadShort (storeShort m a v) a = v := by
  have value : load (storeShort m a v) a 2 = (v % 2 ^ 16).toNat :=
    load_store m a (by norm_num; omega)
  unfold loadShort
  split <;> omega

theorem loadShort_congr (same : ∀ i < 2, m (a + i) = m' (a + i)) :
    loadShort m a = loadShort m' a := by
  rw [loadShort, loadShort, load_congr same]

theorem storeAddrs_of_outside (outside : x < a ∨ a + 4 * (NDIRECT + 1) ≤ x) :
    storeAddrs m a addrs x = m x := by
  unfold storeAddrs
  induction List.finRange (NDIRECT + 1) generalizing m with
  | nil => rfl
  | cons j js ih =>
    rw [List.foldl_cons, ih, store_of_outside]
    omega

theorem load_storeAddrs (fits : ∀ j, addrs j < 2 ^ 32) (j : Fin (NDIRECT + 1)) :
    load (storeAddrs m a addrs) (a + 4 * j) 4 = addrs j := by
  -- An address that is not among those stored later is still there.
  have step (js : List (Fin (NDIRECT + 1))) (m : Bytes)
      (there : j ∈ js ∨ load m (a + 4 * j) 4 = addrs j) :
      load (js.foldl (fun m (j : Fin (NDIRECT + 1)) => store m (a + 4 * j) 4 (addrs j)) m)
        (a + 4 * j) 4 = addrs j := by
    induction js generalizing m with
    | nil => exact there.resolve_left List.not_mem_nil
    | cons l js ih =>
      refine ih _ ?_
      by_cases same : l = j
      · subst same
        exact .inr (load_store m _ (fits l))
      · refine there.imp (fun member => ?_) fun value => ?_
        · exact (List.mem_cons.mp member).resolve_left (Ne.symm same)
        · rw [load_store_of_apart (by omega), value]
  exact step _ m (.inl (List.mem_finRange j))

structure Fits (ip : Dinode) : Prop where
  type : -2 ^ 15 ≤ ip.type ∧ ip.type < 2 ^ 15
  major : -2 ^ 15 ≤ ip.major ∧ ip.major < 2 ^ 15
  minor : -2 ^ 15 ≤ ip.minor ∧ ip.minor < 2 ^ 15
  nlink : -2 ^ 15 ≤ ip.nlink ∧ ip.nlink < 2 ^ 15
  size : ip.size < 2 ^ 32
  addrs : ∀ j, ip.addrs j < 2 ^ 32

theorem storeShort_of_outside (outside : x < a ∨ a + 2 ≤ x) : storeShort m a v x = m x :=
  store_of_outside outside

theorem storeDinode_of_outside (outside : x < 64 * k ∨ 64 * k + 64 ≤ x) :
    storeDinode m k ip x = m x := by
  unfold storeDinode
  rw [storeAddrs_of_outside (by simp only [NDIRECT]; omega), store_of_outside (by omega),
    storeShort_of_outside (by omega), storeShort_of_outside (by omega),
    storeShort_of_outside (by omega), storeShort_of_outside (by omega)]

theorem loadDinode_congr (same : ∀ x, 64 * k ≤ x → x < 64 * k + 64 → m x = m' x) :
    loadDinode m k = loadDinode m' k := by
  unfold loadDinode
  congr 1
  · exact loadShort_congr fun i _ => same _ (by omega) (by omega)
  · exact loadShort_congr fun i _ => same _ (by omega) (by omega)
  · exact loadShort_congr fun i _ => same _ (by omega) (by omega)
  · exact loadShort_congr fun i _ => same _ (by omega) (by omega)
  · exact load_congr fun i _ => same _ (by omega) (by omega)
  · funext j
    have := j.isLt
    simp only [NDIRECT] at this
    exact load_congr fun i _ => same _ (by omega) (by omega)

theorem loadDinode_storeDinode_of_ne (other : j ≠ k) :
    loadDinode (storeDinode m k ip) j = loadDinode m j :=
  loadDinode_congr fun _ low high => storeDinode_of_outside (by omega)

theorem loadDinode_storeDinode (fits : Fits ip) : loadDinode (storeDinode m k ip) k = ip := by
  obtain ⟨type, major, minor, nlink, size, addrs⟩ := fits
  have short {v : Int} {a : Nat} (m : Bytes) (range : -2 ^ 15 ≤ v ∧ v < 2 ^ 15) :
      loadShort (storeShort m a v) a = v := loadShort_storeShort m a range.1 range.2
  have pastShort {a : Nat} {s : Int} (m : Bytes) (b : Nat) (apart : b + 2 ≤ a) :
      loadShort (storeShort m a s) b = loadShort m b :=
    loadShort_congr fun i _ => storeShort_of_outside (by omega)
  have pastSize {v : Nat} (m : Bytes) (b : Nat) (apart : b + 2 ≤ 64 * k + 8) :
      loadShort (store m (64 * k + 8) 4 v) b = loadShort m b :=
    loadShort_congr fun i _ => store_of_outside (by omega)
  have front (m : Bytes) (b : Nat) (apart : b + 2 ≤ 64 * k + 12) :
      loadShort (storeAddrs m (64 * k + 12) ip.addrs) b = loadShort m b :=
    loadShort_congr fun i _ => storeAddrs_of_outside (by omega)
  unfold loadDinode storeDinode
  congr 1
  · rw [front _ _ (by omega), pastSize _ _ (by omega), pastShort _ _ (by omega),
      pastShort _ _ (by omega), pastShort _ _ (by omega), short _ type]
  · rw [front _ _ (by omega), pastSize _ _ (by omega), pastShort _ _ (by omega),
      pastShort _ _ (by omega), short _ major]
  · rw [front _ _ (by omega), pastSize _ _ (by omega), pastShort _ _ (by omega), short _ minor]
  · rw [front _ _ (by omega), pastSize _ _ (by omega), short _ nlink]
  · refine (load_congr fun i _ => storeAddrs_of_outside (by omega)).trans ?_
    exact load_store _ _ size
  · funext j
    exact load_storeAddrs addrs j

/-! ## Sectors -/

theorem window_blit (m : Bytes) (a : Nat) (buf : Bytes) (k : Nat) :
    window (blit m a buf k) a k = window buf 0 k := by
  funext x
  unfold window blit
  split
  · rw [if_pos (by omega), Nat.add_sub_cancel_left, Nat.zero_add]
  · rfl

theorem window_blit_of_apart (apart : b + j ≤ a ∨ a + k ≤ b) :
    window (blit m a buf k) b j = window m b j := by
  funext x
  unfold window blit
  split
  · rw [if_neg (by omega)]
  · rfl

theorem window_window (m : Bytes) (a k : Nat) : window (window m a k) 0 k = window m a k := by
  funext x
  unfold window
  split
  · rw [if_pos (by omega), Nat.zero_add]
  · rfl

theorem window_put (inside : r + bytes.length ≤ k) (sector : window buf 0 k = buf) :
    window (put buf r bytes) 0 k = put buf r bytes := by
  funext x
  have value := congrFun sector x
  unfold window put at *
  by_cases small : x < k
  · rw [if_pos small, Nat.zero_add]
  · rw [if_neg small] at value ⊢
    rw [if_neg (by omega), value]

theorem area_iff : sb.Area b ↔ 59 ≤ b ∧ b < FSSIZE := Iff.rfl

theorem rsect_ok (small : sec < FSSIZE) : rsect img sec = .ok (window img (sec * BSIZE) BSIZE) :=
  if_pos small

theorem mount_block (area : sb.Area b) : (mount img).block b = window img (b * BSIZE) BSIZE :=
  if_pos area

theorem mount_dinode (small : inum < NINODES) : (mount img).dinode inum =
    loadDinode (window img (iblock inum * BSIZE) BSIZE) (inum % IPB) := if_pos small

theorem iblock_bounds (small : inum < NINODES) : 32 ≤ iblock inum ∧ iblock inum ≤ 56 := by
  have start : sb.inodestart = 32 := rfl
  simp only [NINODES] at small
  simp only [iblock, start, IPB, BSIZE]
  omega

theorem iblock_lt (small : inum < NINODES) : iblock inum < FSSIZE :=
  Nat.lt_of_le_of_lt (iblock_bounds small).2 (by decide)

theorem readsb_wsect (img buf : Bytes) (other : 1 < sec) :
    readsb (wsect img sec buf) = readsb img := by
  unfold readsb wsect
  rw [window_blit_of_apart]
  simp only [BSIZE]
  omega

theorem mount_dinode_wsect (img buf : Bytes) (other : 56 < sec) :
    (mount (wsect img sec buf)).dinode = (mount img).dinode := by
  funext inum
  by_cases small : inum < NINODES
  · have place := iblock_bounds small
    rw [mount_dinode small, mount_dinode small, wsect, window_blit_of_apart]
    simp only [BSIZE]
    omega
  · exact (if_neg small).trans (if_neg small).symm

theorem mount_block_wsect (img buf : Bytes) (other : b ≠ sec) :
    (mount (wsect img sec buf)).block b = (mount img).block b := by
  by_cases inside : sb.Area b
  · rw [mount_block inside, mount_block inside, wsect, window_blit_of_apart]
    simp only [BSIZE]
    omega
  · exact (if_neg inside).trans (if_neg inside).symm

theorem mount_block_wsect_of_outside (img buf : Bytes) (outside : sec < 59) :
    (mount (wsect img sec buf)).block = (mount img).block := by
  funext b
  by_cases here : b = sec
  · have unused : ¬sb.Area b := fun inside => by
      have bounds := area_iff.mp inside
      omega
    exact (if_neg unused).trans (if_neg unused).symm
  · exact mount_block_wsect img buf here

theorem mount_wsect (img buf : Bytes) (area : sb.Area sec) :
    (mount (wsect img sec buf)).block =
      update (mount img).block sec (window buf 0 BSIZE) := by
  funext b
  by_cases here : b = sec
  · subst here
    rw [mount_block area, update_self, wsect, window_blit]
  · rw [update_of_ne here, mount_block_wsect img buf here]

theorem winode_ok (img : Bytes) (small : inum < NINODES) (fits : Fits ip) :
    ∃ img', winode img inum ip = .ok img' ∧
      (mount img').dinode = update (mount img).dinode inum ip ∧
      (mount img').block = (mount img).block ∧ readsb img' = readsb img := by
  have place := iblock_bounds small
  refine ⟨_, by rw [winode, rsect_ok (iblock_lt small), bind_ok, pure_eq_ok], ?_,
    mount_block_wsect_of_outside _ _ (by omega), readsb_wsect _ _ (by omega)⟩
  funext j
  by_cases known : j < NINODES
  · rw [mount_dinode known, wsect]
    by_cases sector : iblock j = iblock inum
    · rw [sector, window_blit]
      have within : loadDinode (window (storeDinode (window img (iblock inum * BSIZE) BSIZE)
          (inum % IPB) ip) 0 BSIZE) (j % IPB) = loadDinode (storeDinode
            (window img (iblock inum * BSIZE) BSIZE) (inum % IPB) ip) (j % IPB) := by
        refine loadDinode_congr fun x _ high => ?_
        have slot : j % IPB < 8 := Nat.mod_lt _ (by decide)
        rw [window, if_pos (by simp only [BSIZE]; omega), Nat.zero_add]
      rw [within]
      by_cases same : j = inum
      · rw [same, update_self, loadDinode_storeDinode fits]
      · have other : j % IPB ≠ inum % IPB := by
          simp only [iblock, IPB, BSIZE] at *
          omega
        rw [loadDinode_storeDinode_of_ne other, update_of_ne same, mount_dinode known,
          sector]
    · have other : j ≠ inum := fun same => sector (by rw [same])
      rw [window_blit_of_apart, update_of_ne other, mount_dinode known]
      simp only [BSIZE]
      omega
  · have other : j ≠ inum := fun same => known (by rwa [same])
    rw [update_of_ne other]
    exact (if_neg known).trans (if_neg known).symm

theorem rinode_ok (small : inum < NINODES) : rinode img inum = .ok ((mount img).dinode inum) := by
  rw [rinode, rsect_ok (iblock_lt small), bind_ok, pure_eq_ok, mount_dinode small]

theorem fits_loadDinode (m : Bytes) (k : Nat) : Fits (loadDinode m k) := by
  have short (a : Nat) : -2 ^ 15 ≤ loadShort m a ∧ loadShort m a < 2 ^ 15 := by
    have bound := load_lt m a 2
    unfold loadShort
    split <;> omega
  exact ⟨short _, short _, short _, short _, load_lt m _ 4, fun j => load_lt m _ 4⟩

theorem fits_mount (img : Bytes) (inum : Nat) : Fits ((mount img).dinode inum) := by
  by_cases small : inum < NINODES
  · rw [mount_dinode small]
    exact fits_loadDinode _ _
  · rw [show (mount img).dinode inum = {} from if_neg small]
    exact ⟨by decide, by decide, by decide, by decide, by decide, by decide⟩

/-! ## The image and the disk -/

/-- The disk has the inodes and data blocks of the image, and the blocks in use are those
below the counter. -/
structure Shows (s : Build) (d : Disk) : Prop where
  super : readsb s.img = sb
  dinode : d.dinode = (mount s.img).dinode
  block : d.block = (mount s.img).block
  packed : Packed sb d s.freeblock

variable {s : Build} {d d' : Disk} {din din' : Dinode} {table : Nat → Dinode}

theorem balloc_room (packed : Packed sb d free) (ran : DiskBlocks.balloc sb d = .ok r) :
    free < sb.size := by
  unfold DiskBlocks.balloc at ran
  split at ran
  · cases ran
  · rename_i b found
    have inside : b < sb.size := List.mem_range.mp (List.mem_of_find?_eq_some found)
    have clear : d.bit b = false := by simpa using List.find?_some found
    rw [packed.bits b inside] at clear
    have behind := of_decide_eq_false clear
    omega

theorem takeSlot_shows (shows : Shows s d) (ran : bmapSlot sb d din k = .ok (x, d', din')) :
    ∃ s', takeSlot s din k = (s', din') ∧ Shows s' d' ∧ x = din'.addrs k ∧
      s'.freeinode = s.freeinode := by
  unfold bmapSlot at ran
  unfold takeSlot
  split at ran
  · rename_i empty
    obtain ⟨⟨b, next⟩, allocated, ends⟩ := bind_eq_ok.mp ran
    cases ends
    obtain ⟨found, packed⟩ := balloc_packed shows.packed (balloc_room shows.packed allocated)
    cases found.symm.trans allocated
    rw [if_pos empty]
    exact ⟨_, rfl, ⟨shows.super, shows.dinode, shows.block, packed⟩, by simp [Dinode.setAddr], rfl⟩
  · rename_i full
    cases ran
    rw [if_neg full]
    exact ⟨s, rfl, shows, rfl, rfl⟩

theorem bread_cases (ran : bread sb d b = .ok data) : sb.Area b ∧ data = d.block b := by
  unfold bread at ran
  split at ran
  · rename_i area
    cases ran
    exact ⟨area, rfl⟩
  · cases ran

theorem Shows.rsect (shows : Shows s d) (area : sb.Area b) :
    Mkfs.rsect s.img b = .ok (d.block b) := by
  rw [rsect_ok area.2, shows.block, mount_block area]

theorem Shows.sector (shows : Shows s d) (area : sb.Area b) :
    window (d.block b) 0 BSIZE = d.block b := by
  rw [shows.block, mount_block area, window_window]

theorem Shows.write (shows : Shows s d) (area : sb.Area b) (used : b < s.freeblock)
    (inside : r + bytes.length ≤ BSIZE) :
    Shows { s with img := wsect s.img b (put (d.block b) r bytes) }
      { d with block := update d.block b (put (d.block b) r bytes) } := by
  have bounds := area_iff.mp area
  refine ⟨(readsb_wsect _ _ (by omega)).trans shows.super,
    shows.dinode.trans (mount_dinode_wsect _ _ (by omega)).symm, ?_, shows.packed.write used _⟩
  rw [mount_wsect _ _ area, window_put inside (shows.sector area), shows.block]

section
variable (owned : Owned sb d (update table i din)) (typed : din.type ≠ 0)
include owned typed

theorem appendBlock_shows (shows : Shows s d) (ran : bmap sb d din fbn = .ok (x, d', din')) :
    ∃ s', appendBlock s din fbn = .ok (x, s', din') ∧ Shows s' d' ∧
      s'.freeinode = s.freeinode := by
  unfold bmap at ran
  unfold appendBlock
  split at ran
  · rename_i direct
    obtain ⟨s', took, shows', rfl, count⟩ := takeSlot_shows shows ran
    rw [dif_pos direct, took]
    exact ⟨s', rfl, shows', count⟩
  · rename_i behind
    rw [dif_neg behind]
    split at ran
    · rename_i below
      obtain ⟨⟨addr, d₁, din₁⟩, slot, rest⟩ := bind_eq_ok.mp ran
      obtain ⟨s₁, took, shows₁, rfl, count⟩ := takeSlot_shows shows slot
      have there := (bmapSlot_ends owned typed indirect).of_ok slot
      obtain ⟨grown, -, full, -⟩ := there
      obtain ⟨⟨new, d₂⟩, found, ends⟩ := bind_eq_ok.mp rest
      obtain ⟨a, read, found⟩ := bind_eq_ok.mp found
      obtain ⟨area, rfl⟩ := bread_cases read
      have used : din₁.addrs indirect < s₁.freeblock := by
        have below := shows₁.packed.lt_of_owned grown.owned (x := (i, .slot indirect))
        rw [numbers_update_self, number, if_neg (by rwa [grown.type])] at below
        exact below full
      rw [took]
      dsimp only
      rw [shows₁.rsect area, bind_ok]
      split at found
      · rename_i empty
        obtain ⟨⟨b, d₃⟩, allocated, found⟩ := bind_eq_ok.mp found
        have room := balloc_room shows₁.packed allocated
        obtain ⟨next, packed⟩ := balloc_packed shows₁.packed room
        cases next.symm.trans allocated
        obtain ⟨d₄, stored, last⟩ := bind_eq_ok.mp found
        rw [logWrite_ok area] at stored
        cases stored
        cases last
        cases ends
        have marked : Shows { s₁ with freeblock := s₁.freeblock + 1 } (d₁.setBit s₁.freeblock) :=
          ⟨shows₁.super, shows₁.dinode, shows₁.block, packed⟩
        have fits : s₁.freeblock < 2 ^ 32 := Nat.lt_trans room (by decide)
        rw [if_pos empty, entry_setEntry _ fits]
        refine ⟨_, rfl, marked.write (r := 4 * (fbn - NDIRECT)) area (Nat.lt_succ_of_lt used) ?_,
          count⟩
        rw [length_digits]
        simp only [NINDIRECT, BSIZE] at below ⊢
        omega
      · rename_i held
        cases found
        cases ends
        rw [if_neg held]
        exact ⟨s₁, rfl, shows₁, count⟩
    · cases ran

end

theorem bmap_small (ran : bmap sb d din bn = .ok r) : bn < MAXFILE := by
  unfold bmap at ran
  split at ran
  · simp only [MAXFILE]
    omega
  · split at ran
    · simp only [MAXFILE]
      omega
    · cases ran

theorem appendLoop_shows (owned : Owned sb d (update table i din)) (typed : din.type ≠ 0)
    (shows : Shows s d) (ran : writeLoop sb rounds d din off p = .ok (off', d', din')) :
    ∃ s', appendLoop rounds s din off p = .ok (off', s', din') ∧ Shows s' d' ∧
      s'.freeinode = s.freeinode := by
  have wide : sb.size ≤ 2 ^ 32 := by decide
  induction rounds generalizing s d din off p with
  | zero =>
    cases p with
    | nil =>
      cases ran
      exact ⟨s, rfl, shows, rfl⟩
    | cons byte p => cases ran
  | succ rounds ih =>
    cases p with
    | nil =>
      cases ran
      exact ⟨s, rfl, shows, rfl⟩
    | cons byte p =>
      obtain ⟨⟨x, d₁, din₁⟩, mapped, rest⟩ := bind_eq_ok.mp ran
      obtain ⟨data, read, rest⟩ := bind_eq_ok.mp rest
      obtain ⟨d₂, stored, rest⟩ := bind_eq_ok.mp rest
      obtain ⟨area, rfl⟩ := bread_cases read
      rw [logWrite_ok area] at stored
      cases stored
      have small := bmap_small mapped
      have here := (bmap_ends wide owned typed small).of_ok mapped
      dsimp only at here area rest
      obtain ⟨grown, rfl, held, -⟩ := here
      obtain ⟨s₁, found, shows₁, count⟩ := appendBlock_shows owned typed shows mapped
      have used : addrOf d₁.block din₁ (off / BSIZE) < s₁.freeblock := by
        have below := shows₁.packed.lt_of_owned grown.owned (x := (i, place (off / BSIZE) small))
        rw [← addrOf_eq_numbers, update_self] at below
        exact below held
      have inside : off % BSIZE < BSIZE := Nat.mod_lt _ (by decide)
      have position := Nat.div_add_mod' off BSIZE
      have turn : min (byte :: p).length ((off / BSIZE + 1) * BSIZE - off) =
          min (byte :: p).length (BSIZE - off % BSIZE) := by
        rw [Nat.add_mul]
        omega
      have start : off - off / BSIZE * BSIZE = off % BSIZE := by omega
      rw [appendLoop, if_pos small, found, bind_ok]
      dsimp only
      rw [shows₁.rsect area, bind_ok, turn, start]
      generalize bound : min (byte :: p).length (BSIZE - off % BSIZE) = n1 at rest ⊢
      have length : ((byte :: p).take n1).length ≤ BSIZE - off % BSIZE := by
        rw [List.length_take]
        omega
      have stored := Written.store (r := off % BSIZE) grown.owned held ((byte :: p).take n1)
        (by omega) position
      obtain ⟨s', looped, shows', count'⟩ := ih stored.owned (by rwa [grown.type])
        (shows₁.write (r := off % BSIZE) area used (by omega)) rest
      exact ⟨s', looped, shows', count'.trans count⟩

theorem iappend_shows (shows : Shows s d) (small : inum < NINODES)
    (owned : Owned sb d (inodes sb d)) (typed : (d.dinode inum).type ≠ 0)
    (fits : (d.dinode inum).size + p.length ≤ MAXFILE * BSIZE)
    (ran : writeLoop sb p.length d (d.dinode inum) (d.dinode inum).size p = .ok (off, d', din')) :
    ∃ s', iappend s inum p = .ok s' ∧ Shows s' (iupdate d' inum { din' with size := off }) ∧
      s'.freeinode = s.freeinode := by
  have wide : sb.size ≤ 2 ^ 32 := by decide
  rw [← update_inodes_self (d := d) small] at owned
  have written := (writeLoop_ends wide owned typed (Nat.le_refl _) fits).of_ok ran
  have wrote := writeLoop_spec ran
  obtain ⟨addrs, shape, -⟩ := wrote.fills
  obtain ⟨s₁, looped, shows₁, count⟩ := appendLoop_shows owned typed shows ran
  have range : Fits { din' with size := off } := by
    have before := fits_mount s.img inum
    rw [← shows.dinode] at before
    have type : din'.type ≠ 0 := by rwa [shape]
    refine ⟨by rw [shape]; exact before.type, by rw [shape]; exact before.major,
      by rw [shape]; exact before.minor, by rw [shape]; exact before.nlink, ?_, fun j => ?_⟩
    · have bound : MAXFILE * BSIZE < 2 ^ 32 := by decide
      have ends := wrote.ends
      dsimp only
      omega
    · by_cases zero : din'.addrs j = 0
      · dsimp only
        omega
      · have inside := written.owned.area (inum, .slot j)
        rw [numbers_update_self, number, if_neg type] at inside
        exact Nat.lt_trans (inside zero).2 (by decide)
  obtain ⟨img, stored, dinode, block, kept⟩ := winode_ok s₁.img small range
  have din : rinode s.img inum = .ok (d.dinode inum) := by rw [rinode_ok small, shows.dinode]
  refine ⟨{ s₁ with img := img }, ?_, ⟨kept.trans shows₁.super, ?_, ?_, ?_⟩, count⟩
  · rw [iappend, din, bind_ok, looped, bind_ok]
    dsimp only
    rw [stored, bind_ok, pure_eq_ok]
  · rw [dinode, iupdate, Disk.setDinode, shows₁.dinode]
  · exact shows₁.block.trans block.symm
  · exact ⟨shows₁.packed.low, shows₁.packed.high, shows₁.packed.bits, shows₁.packed.zero⟩

theorem ialloc_shows (shows : Shows s d) (small : s.freeinode < NINODES)
    (range : -2 ^ 15 ≤ type ∧ type < 2 ^ 15) :
    ∃ s', Mkfs.ialloc s type = .ok (s.freeinode, s') ∧
      Shows s' (d.setDinode s.freeinode { type := type, nlink := 1 }) ∧
      s'.freeinode = s.freeinode + 1 := by
  have zero : -2 ^ 15 ≤ (0 : Int) ∧ (0 : Int) < 2 ^ 15 := by decide
  have one : -2 ^ 15 ≤ (1 : Int) ∧ (1 : Int) < 2 ^ 15 := by decide
  have fits : Fits { type := type, nlink := 1 } :=
    ⟨range, zero, zero, one, by norm_num, fun j => by norm_num⟩
  obtain ⟨img, stored, dinode, block, kept⟩ := winode_ok s.img small fits
  refine ⟨{ s with img := img, freeinode := s.freeinode + 1 }, ?_,
    ⟨kept.trans shows.super, ?_, ?_, ?_⟩, rfl⟩
  · rw [Mkfs.ialloc, stored, bind_ok, pure_eq_ok]
  · rw [dinode, Disk.setDinode, shows.dinode]
  · exact shows.block.trans block.symm
  · exact ⟨shows.packed.low, shows.packed.high, shows.packed.bits, shows.packed.zero⟩

/-! ## The files in the image -/

/-- The image has the given files and nothing else. -/
def Represents (s : Build) (files : Files) : Prop := ∃ d, Shows s d ∧ Built sb d files

theorem Represents.create (represents : Represents s files) (small : s.freeinode < NINODES)
    (unused : files s.freeinode = none) (type : kind = T_DIR ∨ kind = T_FILE) :
    ∃ s', Mkfs.ialloc s kind = .ok (s.freeinode, s') ∧ s'.freeinode = s.freeinode + 1 ∧
      Represents s' (update files s.freeinode (some ⟨kind, []⟩)) := by
  obtain ⟨d, shows, built⟩ := represents
  have range : -2 ^ 15 ≤ kind ∧ kind < 2 ^ 15 := by
    rcases type with rfl | rfl <;> decide
  obtain ⟨s', ran, shows', count⟩ := ialloc_shows shows small range
  exact ⟨s', ran, count, _, shows',
    built.create small unused (c := ⟨kind, []⟩) type rfl rfl rfl fun _ => rfl⟩

theorem Represents.append (represents : Represents s files) (small : inum < NINODES)
    (file : files inum = some c) (fits : c.bytes.length + p.length ≤ MAXFILE * BSIZE)
    (room : sb.start + total (update files inum (some (c.append p))) sb.ninodes ≤ sb.size) :
    ∃ s', iappend s inum p = .ok s' ∧ s'.freeinode = s.freeinode ∧
      Represents s' (update files inum (some (c.append p))) := by
  obtain ⟨d, shows, built⟩ := represents
  have keeps := built.keeps inum small c file
  have value : inodes sb d inum = d.dinode inum := if_pos small
  have size : (d.dinode inum).size = c.bytes.length := by rw [← value, keeps.size]
  have typed : (d.dinode inum).type ≠ 0 := by
    rw [← value, keeps.type]
    exact (built.typed file).1
  have wide : sb.size ≤ 2 ^ 32 := by decide
  obtain ⟨off, d', din', ran, built'⟩ := built.append wide small file fits room
  rw [← size] at ran fits
  obtain ⟨s', appended, shows', count⟩ :=
    iappend_shows shows small built.owned typed fits ran
  exact ⟨s', appended, count, _, shows', built'⟩

end Xv6.MkfsImage
