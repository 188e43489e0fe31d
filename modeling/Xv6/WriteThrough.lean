import Xv6.DiskBlocks

/-! What the block layer does to inodes. `bmap` fills in missing slots of `addrs` and
touches no dinode; `writei` stores the inode only when the file grew. A file whose
blocks below its size are all there needs no slot below its size, so an inode that was
not stored was not changed either. -/
namespace Xv6.WriteThrough
open CheckedC ByteStore DiskBlocks Function

variable {sb : Superblock} {d d' : Disk} {ip ip' : Dinode}

/-- The slot of `addrs` on the way to block `bn` of a file. -/
def slotOf (bn : Nat) : Fin (NDIRECT + 1) :=
  if direct : bn < NDIRECT then ⟨bn, Nat.lt_succ_of_lt direct⟩ else indirect

/-- The slots that the blocks below the size need are filled. -/
structure Covered (ip : Dinode) : Prop where
  bound : ip.size ≤ MAXFILE * BSIZE
  slots : ∀ pos < ip.size, ip.addrs (slotOf (pos / BSIZE)) ≠ 0

def Fills (ip ip' : Dinode) : Prop :=
  ∃ addrs, ip' = { ip with addrs := addrs } ∧ ∀ k, ip.addrs k ≠ 0 → addrs k = ip.addrs k

theorem Fills.refl (ip : Dinode) : Fills ip ip := ⟨ip.addrs, rfl, fun _ _ => rfl⟩

theorem Fills.trans (first : Fills ip ip') (second : Fills ip' ip'') : Fills ip ip'' := by
  obtain ⟨addrs, rfl, kept⟩ := first
  obtain ⟨addrs', rfl, kept'⟩ := second
  refine ⟨addrs', rfl, fun k full => ?_⟩
  dsimp only at kept'
  rw [kept' k (by rwa [kept k full]), kept k full]

theorem Fills.full (fills : Fills ip ip') (full : ip.addrs k ≠ 0) : ip'.addrs k ≠ 0 := by
  obtain ⟨addrs, rfl, kept⟩ := fills
  dsimp only
  rwa [kept k full]

/-! ## The block map -/

theorem balloc_spec (ran : balloc sb d = .ok (addr, d')) :
    addr ≠ 0 ∧ d'.dinode = d.dinode := by
  unfold balloc at ran
  split at ran
  · cases ran
  · obtain ⟨zeroed, wrote, ends⟩ := bind_eq_ok.mp ran
    cases ends
    unfold bzero logWrite at wrote
    split at wrote
    · rename_i area
      cases wrote
      refine ⟨fun zero => ?_, rfl⟩
      rw [zero] at area
      exact absurd area.1 (by simp [Superblock.start])
    · cases wrote

theorem logWrite_dinode (ran : logWrite sb d b data = .ok d') : d'.dinode = d.dinode := by
  unfold logWrite at ran
  split at ran
  · cases ran
    rfl
  · cases ran

structure Looked (d : Disk) (ip : Dinode) (k : Fin (NDIRECT + 1)) (d' : Disk) (ip' : Dinode) :
    Prop where
  dinode : d'.dinode = d.dinode
  fills : Fills ip ip'
  full : ip'.addrs k ≠ 0
  same : ip.addrs k ≠ 0 → ip' = ip

theorem bmapSlot_spec (ran : bmapSlot sb d ip k = .ok (addr, d', ip')) : Looked d ip k d' ip' := by
  unfold bmapSlot at ran
  split at ran
  · rename_i empty
    obtain ⟨⟨new, next⟩, allocated, ends⟩ := bind_eq_ok.mp ran
    cases ends
    obtain ⟨nonzero, dinode⟩ := balloc_spec allocated
    refine ⟨dinode, ⟨_, rfl, fun l full => ?_⟩, ?_, fun full => absurd empty full⟩
    · exact update_of_ne (fun same => full (by rw [same, empty])) _ _
    · simpa [Dinode.setAddr] using nonzero
  · rename_i full
    cases ran
    exact ⟨rfl, Fills.refl ip, full, fun _ => rfl⟩

theorem bmapEntry_dinode (ran : bmapEntry sb d addr j = .ok (new, d')) : d'.dinode = d.dinode := by
  obtain ⟨a, -, ran⟩ := bind_eq_ok.mp ran
  split at ran
  · obtain ⟨⟨new, next⟩, allocated, ran⟩ := bind_eq_ok.mp ran
    obtain ⟨last, wrote, ends⟩ := bind_eq_ok.mp ran
    cases ends
    exact (logWrite_dinode wrote).trans (balloc_spec allocated).2
  · cases ran
    rfl

theorem bmap_spec (ran : bmap sb d ip bn = .ok (addr, d', ip')) :
    Looked d ip (slotOf bn) d' ip' := by
  unfold bmap at ran
  split at ran
  · rename_i direct
    rw [slotOf, dif_pos direct]
    exact bmapSlot_spec ran
  · rename_i behind
    rw [slotOf, dif_neg behind]
    split at ran
    · obtain ⟨⟨first, next, ip₁⟩, looked, ran⟩ := bind_eq_ok.mp ran
      obtain ⟨⟨second, last⟩, found, ends⟩ := bind_eq_ok.mp ran
      cases ends
      have slot := bmapSlot_spec looked
      exact ⟨(bmapEntry_dinode found).trans slot.dinode, slot.fills, slot.full, slot.same⟩
    · cases ran

/-! ## Reading -/

theorem readLoop_spec (ran : readLoop sb rounds d ip off n dst = .ok (dst', d', ip'))
    (full : ∀ pos, off ≤ pos → pos < off + n → ip.addrs (slotOf (pos / BSIZE)) ≠ 0) :
    d'.dinode = d.dinode ∧ ip' = ip := by
  induction rounds generalizing d ip off n dst with
  | zero =>
    cases n with
    | zero =>
      cases ran
      exact ⟨rfl, rfl⟩
    | succ n => cases ran
  | succ rounds ih =>
    cases n with
    | zero =>
      cases ran
      exact ⟨rfl, rfl⟩
    | succ n =>
      obtain ⟨⟨addr, next, ip₁⟩, looked, ran⟩ := bind_eq_ok.mp ran
      obtain ⟨data, -, looped⟩ := bind_eq_ok.mp ran
      have slot := bmap_spec looked
      obtain rfl := slot.same (full off (Nat.le_refl off) (by omega))
      obtain ⟨dinode, same⟩ := ih looped fun pos low high => full pos (by omega) (by omega)
      exact ⟨dinode.trans slot.dinode, same⟩

theorem readi_spec (covered : Covered ip) (offset : off < 2 ^ 32) (length : n < 2 ^ 32)
    (ran : readi sb d ip off n = .ok (r, d', ip')) : d'.dinode = d.dinode ∧ ip' = ip := by
  unfold readi at ran
  split at ran
  · cases ran
    exact ⟨rfl, rfl⟩
  · split at ran
    · cases ran
      exact ⟨rfl, rfl⟩
    · obtain ⟨⟨dst, next, ip₁⟩, read, ends⟩ := bind_eq_ok.mp ran
      cases ends
      refine readLoop_spec read fun pos low high => covered.slots pos ?_
      split at high <;> omega

/-! ## Writing -/

structure Wrote (d : Disk) (ip : Dinode) (off : Nat) (src : List UInt8) (off' : Nat) (d' : Disk)
    (ip' : Dinode) : Prop where
  ends : off' = off + src.length
  dinode : d'.dinode = d.dinode
  fills : Fills ip ip'
  full : ∀ pos, off ≤ pos → pos < off' → ip'.addrs (slotOf (pos / BSIZE)) ≠ 0
  same : (∀ pos, off ≤ pos → pos < off' → ip.addrs (slotOf (pos / BSIZE)) ≠ 0) → ip' = ip

theorem writeLoop_spec (ran : writeLoop sb rounds d ip off src = .ok (off', d', ip')) :
    Wrote d ip off src off' d' ip' := by
  induction rounds generalizing d ip off src with
  | zero =>
    cases src with
    | nil =>
      cases ran
      exact ⟨rfl, rfl, Fills.refl _, fun _ _ _ => by omega, fun _ => rfl⟩
    | cons byte src => cases ran
  | succ rounds ih =>
    cases src with
    | nil =>
      cases ran
      exact ⟨rfl, rfl, Fills.refl _, fun _ _ _ => by omega, fun _ => rfl⟩
    | cons byte src =>
      obtain ⟨⟨addr, next, ip₁⟩, looked, ran⟩ := bind_eq_ok.mp ran
      obtain ⟨data, -, ran⟩ := bind_eq_ok.mp ran
      obtain ⟨last, stored, ran⟩ := bind_eq_ok.mp ran
      have slot := bmap_spec looked
      have rest := ih ran
      have ends := rest.ends
      simp only [List.length_drop, List.length_cons] at ends
      refine ⟨by simp only [List.length_cons]; omega,
        rest.dinode.trans ((logWrite_dinode stored).trans slot.dinode),
        slot.fills.trans rest.fills, fun pos low high => ?_, fun before => ?_⟩
      · by_cases later : off + min (src.length + 1) (BSIZE - off % BSIZE) ≤ pos
        · exact rest.full pos later high
        · rw [show pos / BSIZE = off / BSIZE by simp only [BSIZE] at *; omega]
          exact rest.fills.full slot.full
      · obtain rfl := slot.same (before off (Nat.le_refl off) (by omega))
        exact rest.same fun pos low high => before pos (by omega) high

theorem writei_spec (covered : Covered ip) (offset : off < 2 ^ 32) (length : src.length < 2 ^ 32)
    (ran : writei sb d inum ip off src = .ok (r, d', ip')) :
    Covered ip' ∧ ip'.type = ip.type ∧
      (d'.dinode = d.dinode ∧ ip' = ip ∨ d'.dinode = update d.dinode inum ip') := by
  unfold writei at ran
  split at ran
  · cases ran
    exact ⟨covered, rfl, .inl ⟨rfl, rfl⟩⟩
  · split at ran
    · cases ran
      exact ⟨covered, rfl, .inl ⟨rfl, rfl⟩⟩
    · split at ran
      · cases ran
        exact ⟨covered, rfl, .inl ⟨rfl, rfl⟩⟩
      · obtain ⟨⟨off', next, ip₁⟩, looped, ran⟩ := bind_eq_ok.mp ran
        have wrote := writeLoop_spec looped
        have ends := wrote.ends
        obtain ⟨addrs, shape, kept⟩ := wrote.fills
        have size : ip₁.size = ip.size := by rw [shape]
        dsimp only at ran
        split at ran
        · cases ran
          refine ⟨⟨by dsimp only; omega, fun pos below => ?_⟩, by rw [shape], .inr ?_⟩
          · by_cases old : pos < ip.size
            · exact wrote.fills.full (covered.slots pos old)
            · exact wrote.full pos (by omega) below
          · rw [iupdate, Disk.setDinode, wrote.dinode]
        · cases ran
          have same : ip' = ip := wrote.same fun pos low high => covered.slots pos (by omega)
          rw [same]
          exact ⟨covered, rfl, .inl ⟨wrote.dinode, rfl⟩⟩

/-! ## Truncation -/

theorem bfree_dinode (ran : bfree d b = .ok d') : d'.dinode = d.dinode := by
  unfold bfree at ran
  split at ran
  · cases ran
    rfl
  · cases ran

theorem freeSlots_spec (ran : List.foldlM freeSlot (d, ip) ks = .ok (d', ip')) :
    d'.dinode = d.dinode ∧ ∃ addrs, ip' = { ip with addrs := addrs } := by
  induction ks generalizing d ip with
  | nil =>
    cases ran
    exact ⟨rfl, ip'.addrs, rfl⟩
  | cons k ks ih =>
    obtain ⟨⟨next, ip₁⟩, freed, rest⟩ := bind_eq_ok.mp (List.foldlM_cons.symm.trans ran)
    obtain ⟨dinode, addrs, shape⟩ := ih rest
    unfold freeSlot at freed
    split at freed
    · obtain ⟨cleared, cleaned, ends⟩ := bind_eq_ok.mp freed
      cases ends
      exact ⟨dinode.trans (bfree_dinode cleaned), addrs, shape⟩
    · cases freed
      exact ⟨dinode, addrs, shape⟩

theorem freeEntries_dinode (ran : List.foldlM (freeEntry a) d js = .ok d') :
    d'.dinode = d.dinode := by
  induction js generalizing d with
  | nil =>
    cases ran
    rfl
  | cons j js ih =>
    obtain ⟨next, freed, rest⟩ := bind_eq_ok.mp (List.foldlM_cons.symm.trans ran)
    refine (ih rest).trans ?_
    unfold freeEntry at freed
    split at freed
    · exact bfree_dinode freed
    · cases freed
      rfl

theorem itrunc_spec (ran : itrunc sb d inum ip = .ok (d', ip')) :
    (∃ addrs, ip' = { ip with addrs := addrs, size := 0 }) ∧
      d'.dinode = update d.dinode inum ip' := by
  obtain ⟨⟨d₁, ip₁⟩, direct, ran⟩ := bind_eq_ok.mp ran
  obtain ⟨d₂, entries, ran⟩ := bind_eq_ok.mp ran
  obtain ⟨⟨d₃, ip₂⟩, last, ends⟩ := bind_eq_ok.mp ran
  cases ends
  obtain ⟨dinode₁, addrs₁, shape₁⟩ := freeSlots_spec direct
  have single : List.foldlM freeSlot (d₂, ip₁) [indirect] = .ok (d₃, ip₂) := by
    rw [List.foldlM_cons, last]
    rfl
  obtain ⟨dinode₃, addrs₂, shape₂⟩ := freeSlots_spec single
  have dinode₂ : d₂.dinode = d₁.dinode := by
    unfold freeEntries at entries
    split at entries
    · obtain ⟨a, -, freed⟩ := bind_eq_ok.mp entries
      exact freeEntries_dinode freed
    · cases entries
      rfl
  refine ⟨⟨addrs₂, by rw [shape₂, shape₁]⟩, ?_⟩
  rw [iupdate, Disk.setDinode, dinode₃, dinode₂, dinode₁]

end Xv6.WriteThrough
