import Xv6.FileContents
import Xv6.InodeCoherence

/-! Every block has one owner along every run of the file system: the bitmap, the block
numbers in inodes and those in indirect blocks stay in agreement, so no run frees a
block that is free. -/
namespace Xv6.BlockRuns
open CheckedC StepSystem NumberLedger DiskBlocks BlockOwnership WriteThrough FileContents Function
  InodeCache InodeCoherence

variable {sb : Superblock} {s : Cache} {d d' : Disk} {ip ip' : Dinode}

/-- The runs start from images in which every block has one owner and no file has a
block missing. -/
def Image (sb : Superblock) (d : Disk) : Prop := Filled sb d ∧ Owned sb d (inodes sb d)

structure Sound (sb : Superblock) (s : Cache) : Prop where
  coherent : Coherent sb s
  owned : ∀ dev, Owned sb (s.disk dev) (inodes sb (s.disk dev))

theorem Sound.owned_copy (sound : Sound sb s)
    (held : (s.slot k).hold = .locked ∨ (s.slot k).hold = .freeing) :
    (s.slot k).inum < sb.ninodes ∧ Owned sb (s.disk (s.slot k).dev)
      (update (inodes sb (s.disk (s.slot k).dev)) (s.slot k).inum (s.slot k).copy) := by
  have small : (s.slot k).inum < sb.ninodes := by
    refine sound.coherent.inside k (sound.coherent.ref_pos ?_)
    rcases held with held | held <;> rw [held] <;> nofun
  rw [(sound.coherent.copy_eq held).1, dinodeOf, update_inodes_self small]
  exact ⟨small, sound.owned _⟩

/-! ## What a step can end in -/

/-- The panics of a file system that is full, and of a lock on a free inode. -/
def Expected (fault : Fault) : Prop :=
  fault = .panic "balloc: out of blocks" ∨ fault = .panic "ialloc: no inodes" ∨
    fault = .panic "iget: no inodes" ∨ fault = .panic "ilock: no type"

def Safe (run : Checked α) (post : α → Prop) : Prop :=
  match run with
  | .ok value => post value
  | .error fault => Expected fault

theorem Safe.bind {first : Checked α} {next : α → Checked β} (safe : Safe first middle)
    (rest : ∀ value, middle value → Safe (next value) post) : Safe (first >>= next) post := by
  cases first with
  | ok value => exact rest value safe
  | error fault => exact safe

def Keeps (sb : Superblock) (after : Cache) : Prop :=
  ∀ dev, Owned sb (after.disk dev) (inodes sb (after.disk dev))

theorem keeps_set (sound : Sound sb s) (slot : Slot)
    (owned : Owned sb d (inodes sb d)) : Keeps sb (s.set k slot d) := by
  intro dev'
  by_cases here : dev' = slot.dev
  · subst here
    simpa [Cache.set] using owned
  · simpa [Cache.set, here] using sound.owned dev'

/-! ## Steps -/

theorem changeEntry_keeps (sound : Sound sb s) (held : (s.slot k).hold = .locked)
    (major minor nlink : Int) : Keeps sb (changeEntry s k major minor nlink) := by
  obtain ⟨small, owned⟩ := sound.owned_copy (.inl held)
  refine keeps_set sound _ ?_
  rw [inodes_update small rfl]
  exact owned_replace owned rfl rfl (number_congr rfl rfl)

theorem iputFree_safe (sound : Sound sb s) (held : (s.slot k).hold = .freeing) :
    Safe (iputFree sb s k) (Keeps sb) := by
  obtain ⟨small, owned⟩ := sound.owned_copy (.inr held)
  obtain ⟨-, typed⟩ := sound.coherent.copy_eq (.inr held)
  obtain ⟨d, ip, truncated, after, -, empty⟩ := itrunc_ok owned typed
  rw [iputFree, truncated, bind_ok]
  refine keeps_set sound _ ?_
  have dinode : (iupdate d (s.slot k).inum { ip with type := 0 }).dinode = update
      (s.disk (s.slot k).dev).dinode (s.slot k).inum { ip with type := 0 } := by
    rw [iupdate, Disk.setDinode, (itrunc_spec truncated).2, update_idem]
  rw [inodes_update small dinode]
  refine owned_replace after rfl rfl fun x => ?_
  rw [number_free rfl, number_empty empty]

theorem readLoop_ends (wide : sb.size ≤ 2 ^ 32) (owned : Owned sb d (update table i ip))
    (typed : ip.type ≠ 0) (enough : n ≤ rounds) (fits : off + n ≤ MAXFILE * BSIZE) :
    Ends (readLoop sb rounds d ip off n dst) fun r => Grown sb table i d ip r.2.1 r.2.2 := by
  induction rounds generalizing d ip off n dst with
  | zero =>
    obtain rfl : n = 0 := Nat.le_zero.mp enough
    exact Grown.refl owned
  | succ rounds ih =>
    cases n with
    | zero => exact Grown.refl owned
    | succ n =>
      have small : off / BSIZE < MAXFILE :=
        Nat.div_lt_of_lt_mul (by rw [Nat.mul_comm]; omega)
      have rest : off % BSIZE < BSIZE := Nat.mod_lt _ (by decide)
      refine (bmap_ends wide owned typed small).bind fun r found => ?_
      obtain ⟨addr, d₁, ip₁⟩ := r
      dsimp only at found ⊢
      obtain ⟨grown, rfl, held, -⟩ := found
      rw [bread_ok (addrOf_area grown.owned held), bind_ok]
      refine (ih grown.owned (by rwa [grown.type]) (by omega) (by omega)).mono fun r grown' => ?_
      exact grown.trans grown'

theorem readi_ends (wide : sb.size ≤ 2 ^ 32) (owned : Owned sb d (update table i ip))
    (typed : ip.type ≠ 0) (covered : Covered ip) (offset : off < 2 ^ 32) (length : n < 2 ^ 32) :
    Ends (readi sb d ip off n) fun r => Grown sb table i d ip r.2.1 r.2.2 := by
  have bound := covered.bound
  unfold readi
  split
  · exact Grown.refl owned
  · split
    · exact Grown.refl owned
    · refine (readLoop_ends wide owned typed (Nat.le_refl _) ?_).bind fun r grown => grown
      split <;> omega

theorem readEntry_safe (wide : sb.size ≤ 2 ^ 32) (sound : Sound sb s)
    (held : (s.slot k).hold = .locked) (offset : off < 2 ^ 32) (length : n < 2 ^ 32) :
    Safe (readEntry sb s k off n) (Keeps sb) := by
  obtain ⟨small, owned⟩ := sound.owned_copy (.inl held)
  obtain ⟨same, typed⟩ := sound.coherent.copy_eq (.inl held)
  have covered := sound.coherent.covered_copy (.inl held)
  have ends := readi_ends wide owned typed covered offset length
  cases ran : readi sb (s.disk (s.slot k).dev) (s.slot k).copy off n with
  | error fault =>
    rw [ran] at ends
    rw [readEntry, ran]
    exact .inl ends
  | ok r =>
    obtain ⟨dst, d, ip⟩ := r
    have grown := ends.of_ok ran
    obtain ⟨dinode, rfl⟩ := readi_spec covered offset length ran
    rw [readEntry, ran, bind_ok]
    refine keeps_set sound _ ?_
    have after := grown.owned
    rwa [same, dinodeOf, update_inodes_self small, ← inodes_congr dinode] at after

theorem writeEntry_safe (wide : sb.size ≤ 2 ^ 32) (sound : Sound sb s)
    (held : (s.slot k).hold = .locked) (offset : off < 2 ^ 32) (length : src.length < 2 ^ 32) :
    Safe (writeEntry sb s k off src) (Keeps sb) := by
  obtain ⟨small, owned⟩ := sound.owned_copy (.inl held)
  obtain ⟨same, typed⟩ := sound.coherent.copy_eq (.inl held)
  have covered := sound.coherent.covered_copy (.inl held)
  have ends := writei_ends wide owned typed offset length
  cases ran : writei sb (s.disk (s.slot k).dev) (s.slot k).inum (s.slot k).copy off src with
  | error fault =>
    rw [ran] at ends
    rw [writeEntry, ran]
    exact .inl ends
  | ok r =>
    obtain ⟨count, d, ip⟩ := r
    have after : Owned sb d (update (inodes sb (s.disk (s.slot k).dev))
        (s.slot k).inum ip) := by
      rcases ends.of_ok ran with ⟨-, unchanged⟩ | stored
      · cases unchanged
        exact owned
      · exact stored.written.owned
    rw [writeEntry, ran, bind_ok]
    refine keeps_set sound _ ?_
    obtain ⟨-, -, ⟨dinode, rfl⟩ | dinode⟩ := writei_spec covered offset length ran
    · rwa [same, dinodeOf, update_inodes_self small, ← inodes_congr dinode] at after
    · rwa [inodes_update small dinode]

theorem iget_safe (s : Cache) (dev inum : Nat) :
    Safe (iget s dev inum) fun r => r.2.disk = s.disk := by
  unfold iget
  split
  · rfl
  · split
    · exact .inr (.inr (.inl rfl))
    · rfl

theorem ialloc_safe (sound : Sound sb s) (dev : Nat) (type : Int) :
    Safe (ialloc sb s dev type) fun r => Keeps sb r.2 := by
  unfold ialloc
  split
  · exact .inr (.inl rfl)
  · rename_i inum found
    have free : ((s.disk dev).dinode inum).type = 0 := by simpa using List.find?_some found
    have member := List.mem_range'_1.mp (List.mem_of_find?_eq_some found)
    have small : inum < sb.ninodes := by omega
    have owned : Owned sb ((s.disk dev).setDinode inum { type := type })
        (inodes sb ((s.disk dev).setDinode inum { type := type })) := by
      rw [inodes_update small rfl]
      have before := sound.owned dev
      rw [← update_inodes_self small] at before
      refine owned_replace before rfl rfl fun x => ?_
      rw [number_free free, number_empty fun _ => rfl]
    have got := iget_safe { s with
      disk := update s.disk dev ((s.disk dev).setDinode inum { type := type }) } dev inum
    have keeps := keeps_set (k := 0) sound { dev := dev } owned
    cases ran : iget _ dev inum with
    | error fault =>
      rw [ran] at got
      exact got
    | ok r =>
      rw [ran] at got
      intro dev'
      rw [show r.2.disk = _ from got]
      exact keeps dev'

theorem ilock_safe (sound : Sound sb s) (lockable : (s.slot k).Lockable) :
    Safe (ilock s k) (Keeps sb) := by
  obtain ⟨-, spare⟩ := lockable
  unfold ilock
  rw [if_neg (by omega)]
  split
  · exact sound.owned
  · dsimp only
    split
    · exact .inr (.inr (.inr rfl))
    · exact sound.owned

theorem iunlock_safe (sound : Sound sb s) (held : (s.slot k).hold = .locked) :
    Safe (iunlock s k) (Keeps sb) := by
  have ref := sound.coherent.ref_pos (k := k) (by rw [held]; nofun)
  unfold iunlock
  rw [if_neg (by simp [held]; omega)]
  exact sound.owned

/-! ## Runs -/

theorem perform_safe (wide : sb.size ≤ 2 ^ 32) (sound : Sound sb s) (enabled : Enabled sb s e) :
    Safe (perform sb s e) (Keeps sb) := by
  cases e with
  | iget dev inum =>
    refine (iget_safe s dev inum).bind fun r disk dev => ?_
    rw [disk]
    exact sound.owned dev
  | ialloc dev type => exact (ialloc_safe sound dev type).bind fun r keeps => keeps
  | idup k => exact sound.owned
  | ilock k => exact ilock_safe sound enabled
  | iunlock k => exact iunlock_safe sound enabled
  | iputLock k => exact sound.owned
  | iputFree k => exact iputFree_safe sound enabled
  | iputInvalidate k => exact sound.owned
  | iputUnlock k => exact sound.owned
  | iputDrop k => exact sound.owned
  | readi k off n => exact readEntry_safe wide sound enabled.1 enabled.2.1 enabled.2.2
  | writei k off src => exact writeEntry_safe wide sound enabled.1 enabled.2.1 enabled.2.2
  | change k major minor nlink => exact changeEntry_keeps sound enabled major minor nlink

theorem run_sound (wide : sb.size ≤ 2 ^ 32) (run : (system sb (Image sb)).Run ok s) :
    Sound sb s := by
  refine run.invariant (fun s init => ?_) fun s e after sound enabled _ ran => ?_
  · exact ⟨init_coherent ⟨init.1, fun dev => (init.2 dev).1⟩, fun dev => (init.2 dev).2⟩
  · have safe := perform_safe wide sound enabled
    rw [show perform sb s e = .ok after from ran] at safe
    exact ⟨perform_coherent sound.coherent enabled ran, safe⟩

/-- In every state reached, each non-zero block number in a direct slot, an indirect slot
or an indirect block of an inode in use is that of a data block and stands in one place,
and the bits set in the bitmap are those of the blocks before the data area and of these.
No step frees a free block, or uses a block outside the data area as a file's. -/
theorem blocks_have_one_owner (uint : sb.size < 2 ^ 32)
    (run : (system sb (Image sb)).Run (fun _ _ => True) s) :
    (∀ dev x, numbers (s.disk dev).block (inodes sb (s.disk dev)) x ≠ 0 →
      sb.Area (numbers (s.disk dev).block (inodes sb (s.disk dev)) x)) ∧
    (∀ dev x y, numbers (s.disk dev).block (inodes sb (s.disk dev)) x =
        numbers (s.disk dev).block (inodes sb (s.disk dev)) y →
      numbers (s.disk dev).block (inodes sb (s.disk dev)) x ≠ 0 → x = y) ∧
    (∀ dev, ∀ b < sb.size, (s.disk dev).bit b = true ↔ b < sb.start ∨
      ∃ x, numbers (s.disk dev).block (inodes sb (s.disk dev)) x = b) ∧
    (∀ e, Enabled sb s e → perform sb s e ≠ .error (.panic "freeing free block")) ∧
    (∀ e b, Enabled sb s e → perform sb s e ≠ .error (.index b)) := by
  have sound := run_sound (Nat.le_of_lt uint) run
  have faults (e fault) (enabled : Enabled sb s e) (ran : perform sb s e = .error fault) :
      Expected fault := by
    have safe := perform_safe (Nat.le_of_lt uint) sound enabled
    rwa [ran] at safe
  refine ⟨fun dev => (sound.owned dev).area, fun dev => (sound.owned dev).once,
    fun dev => (sound.owned dev).exact, fun e enabled ran => ?_, fun e b enabled ran => ?_⟩
  · have expected := faults e _ enabled ran
    simp [Expected] at expected
  · have expected := faults e _ enabled ran
    simp [Expected] at expected

theorem image_blankDisk : Image smallSuperblock blankDisk := by
  refine ⟨filled_blankDisk, owned_blankDisk fun x => number_free ?_ x.2⟩
  unfold inodes
  split <;> rfl

instance {sb : Superblock} {Image : Disk → Prop} {s : Cache} {e : Event} :
    Decidable ((system sb Image).Enabled s e) := inferInstanceAs (Decidable (Enabled sb s e))

/-- A file that has got an indirect block: its number is that of a data block. -/
theorem blocks_have_one_owner_indirect :
    ∃ s, (system smallSuperblock (Image smallSuperblock)).Run (fun _ _ => True) s ∧
      smallSuperblock.Area
        (numbers (s.disk 1).block (inodes smallSuperblock (s.disk 1)) (1, .slot indirect)) := by
  obtain ⟨s, run, found⟩ := System.exists_run
    (m := system smallSuperblock (Image smallSuperblock)) (s := blankCache) (fun _ _ => True)
    (blankCache_init image_blankDisk)
    [.ialloc 1 T_FILE, .ilock 0, .change 0 0 0 1, .writei 0 0 (List.replicate 7000 7)]
    (fun s => numbers (s.disk 1).block (inodes smallSuperblock (s.disk 1))
      (1, .slot indirect) ≠ 0) (by decide +kernel)
  exact ⟨s, run, (blocks_have_one_owner (by decide) run).1 1 _ found⟩

end Xv6.BlockRuns
