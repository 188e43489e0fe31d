import Xv6.InodeCache
import Xv6.WriteThrough

/-! The entries of the inode cache agree with the dinodes. An inode has one entry, and
a valid entry has the fields of its dinode whenever its lock is free, although `writei`
does not store every inode that `bmap` could have changed. An entry whose inode was
freed is not valid, so whoever allocates the inode again reads it. -/
namespace Xv6.InodeCoherence
open CheckedC StepSystem DiskBlocks BlockOwnership WriteThrough InodeCache Function

def dinodeOf (s : Cache) (k : SlotId) : Dinode := (s.disk (s.slot k).dev).dinode (s.slot k).inum

/-- References needed: one for a holder of the lock and one for each `iput` that is to
drop its own. -/
def needed (slot : Slot) : Nat := slot.leaving + if slot.hold = .unlocked then 0 else 1

structure Coherent (sb : Superblock) (s : Cache) : Prop where
  unique : ∀ k l, 0 < (s.slot k).ref → 0 < (s.slot l).ref → (s.slot k).dev = (s.slot l).dev →
    (s.slot k).inum = (s.slot l).inum → k = l
  inside : ∀ k, 0 < (s.slot k).ref → (s.slot k).inum < sb.ninodes
  claims : ∀ k, needed (s.slot k) ≤ (s.slot k).ref
  copies : ∀ k, 0 < (s.slot k).ref → (s.slot k).valid = true → (s.slot k).hold ≠ .freed →
    (s.slot k).copy = dinodeOf s k ∧ (s.slot k).copy.type ≠ 0
  read : ∀ k, (s.slot k).hold = .locked ∨ (s.slot k).hold = .freeing → (s.slot k).valid = true
  covered : ∀ dev, ∀ inum < sb.ninodes, ((s.disk dev).dinode inum).type ≠ 0 →
    Covered ((s.disk dev).dinode inum)

variable {sb : Superblock} {s after : Cache}

theorem Coherent.ref_pos (inv : Coherent sb s) (held : (s.slot k).hold ≠ .unlocked) :
    0 < (s.slot k).ref := by
  have claims := inv.claims k
  rw [needed, if_neg held] at claims
  omega

theorem Coherent.copy_eq (inv : Coherent sb s)
    (held : (s.slot k).hold = .locked ∨ (s.slot k).hold = .freeing) :
    (s.slot k).copy = dinodeOf s k ∧ (s.slot k).copy.type ≠ 0 := by
  have taken : (s.slot k).hold ≠ .unlocked ∧ (s.slot k).hold ≠ .freed := by grind
  exact inv.copies k (inv.ref_pos taken.1) (inv.read k held) taken.2

theorem Coherent.covered_copy (inv : Coherent sb s)
    (held : (s.slot k).hold = .locked ∨ (s.slot k).hold = .freeing) :
    Covered (s.slot k).copy := by
  obtain ⟨same, typed⟩ := inv.copy_eq held
  have positive : 0 < (s.slot k).ref := by
    apply inv.ref_pos
    rcases held with held | held <;> rw [held] <;> nofun
  rw [same] at typed ⊢
  exact inv.covered _ _ (inv.inside k positive) typed

/-! ## Steps on one entry -/

/-- What a step must do to an entry and its dinode. -/
structure Change (s : Cache) (k : SlotId) (slot : Slot) (d : Disk) : Prop where
  dev : slot.dev = (s.slot k).dev
  inum : slot.inum = (s.slot k).inum
  ref : 0 < (s.slot k).ref
  others : ∀ inum, inum ≠ slot.inum → d.dinode inum = (s.disk slot.dev).dinode inum
  claims : needed slot ≤ slot.ref
  copies : slot.valid = true → slot.hold ≠ .freed →
    slot.copy = d.dinode slot.inum ∧ slot.copy.type ≠ 0
  read : slot.hold = .locked ∨ slot.hold = .freeing → slot.valid = true
  covered : (d.dinode slot.inum).type ≠ 0 → Covered (d.dinode slot.inum)

theorem Coherent.set (inv : Coherent sb s) (change : Change s k slot d) :
    Coherent sb (s.set k slot d) := by
  obtain ⟨dev, inum, ref, others, claims, copies, read, covered⟩ := change
  have here : (s.set k slot d).slot k = slot := update_self _ _ _
  have there (l) (other : l ≠ k) : (s.set k slot d).slot l = s.slot l := update_of_ne other _ _
  have disk : (s.set k slot d).disk slot.dev = d := update_self _ _ _
  have names (l) : ((s.set k slot d).slot l).dev = (s.slot l).dev ∧
      ((s.set k slot d).slot l).inum = (s.slot l).inum ∧
      (0 < ((s.set k slot d).slot l).ref → 0 < (s.slot l).ref) := by
    by_cases same : l = k
    · rw [same, here]
      exact ⟨dev, inum, fun _ => ref⟩
    · rw [there l same]
      exact ⟨rfl, rfl, id⟩
  -- A dinode that changes is that of entry `k`.
  have dinode (dev' inum') (apart : dev' ≠ slot.dev ∨ inum' ≠ slot.inum) :
      ((s.set k slot d).disk dev').dinode inum' = (s.disk dev').dinode inum' := by
    by_cases same : dev' = slot.dev
    · subst same
      rw [disk]
      exact others inum' (apart.resolve_left fun differ => differ rfl)
    · exact congrArg (Disk.dinode · inum') (update_of_ne same _ _)
  refine ⟨fun l m refL refM sameDev sameInum => ?_, fun l positive => ?_, fun l => ?_,
    fun l positive valid stage => ?_, fun l held => ?_, fun dev' inum' small typed => ?_⟩
  · obtain ⟨devL, inumL, ref₁⟩ := names l
    obtain ⟨devM, inumM, ref₂⟩ := names m
    rw [devL, devM] at sameDev
    rw [inumL, inumM] at sameInum
    exact inv.unique l m (ref₁ refL) (ref₂ refM) sameDev sameInum
  · obtain ⟨-, inumL, ref₁⟩ := names l
    rw [inumL]
    exact inv.inside l (ref₁ positive)
  · by_cases same : l = k
    · rw [same, here]
      exact claims
    · rw [there l same]
      exact inv.claims l
  · by_cases same : l = k
    · rw [same] at valid stage ⊢
      rw [dinodeOf, here] at *
      rw [disk]
      exact copies valid stage
    · have apart : (s.slot l).dev ≠ slot.dev ∨ (s.slot l).inum ≠ slot.inum := by
        by_contra both
        rw [not_or, not_not, not_not] at both
        rw [there l same] at positive
        exact same (inv.unique l k positive ref (both.1.trans dev) (both.2.trans inum))
      have kept := inv.copies l
      rw [there l same] at positive valid stage ⊢
      rw [dinodeOf, there l same, dinode _ _ apart]
      exact kept positive valid stage
  · by_cases same : l = k
    · rw [same, here] at held ⊢
      exact read held
    · rw [there l same] at held ⊢
      exact inv.read l held
  · by_cases same : dev' = slot.dev ∧ inum' = slot.inum
    · obtain ⟨rfl, rfl⟩ := same
      rw [disk] at typed ⊢
      exact covered typed
    · rw [dinode dev' inum' (by omega)] at typed ⊢
      exact inv.covered dev' inum' small typed

theorem Coherent.setSlot (inv : Coherent sb s) (dev : slot.dev = (s.slot k).dev)
    (inum : slot.inum = (s.slot k).inum) (ref : 0 < (s.slot k).ref)
    (claims : needed slot ≤ slot.ref)
    (copies : slot.valid = true → slot.hold ≠ .freed →
      slot.copy = dinodeOf s k ∧ slot.copy.type ≠ 0)
    (read : slot.hold = .locked ∨ slot.hold = .freeing → slot.valid = true) :
    Coherent sb (s.setSlot k slot) := by
  have same : s.setSlot k slot = s.set k slot (s.disk slot.dev) := by
    rw [Cache.set, update_eq_self]
    rfl
  have dinode : (s.disk slot.dev).dinode slot.inum = dinodeOf s k := by rw [dev, inum, dinodeOf]
  rw [same]
  refine inv.set ⟨dev, inum, ref, fun _ _ => rfl, claims, ?_, read, fun typed => ?_⟩
  · rwa [dinode]
  · exact inv.covered _ _ (by rw [inum]; exact inv.inside k ref) typed

theorem idup_coherent (inv : Coherent sb s) (ref : 0 < (s.slot k).ref) :
    Coherent sb (idup s k) := by
  refine inv.setSlot rfl rfl ref ?_ (inv.copies k ref) (inv.read k)
  exact Nat.le_succ_of_le (inv.claims k)

theorem ilock_cases (ran : ilock s k = .ok after) :
    ∃ copy, after = s.setSlot k { s.slot k with hold := .locked, copy := copy, valid := true } ∧
      ((s.slot k).valid = true ∧ copy = (s.slot k).copy ∨ copy = dinodeOf s k ∧ copy.type ≠ 0) := by
  unfold ilock at ran
  split at ran
  · cases ran
  · split at ran
    · rename_i valid
      cases ran
      exact ⟨(s.slot k).copy, by rw [← valid], .inl ⟨valid, rfl⟩⟩
    · dsimp only at ran
      split at ran
      · cases ran
      · rename_i typed
        cases ran
        exact ⟨_, rfl, .inr ⟨rfl, typed⟩⟩

theorem ilock_coherent (inv : Coherent sb s) (lockable : (s.slot k).Lockable)
    (ran : ilock s k = .ok after) : Coherent sb after := by
  obtain ⟨unlocked, spare⟩ := lockable
  have ref : 0 < (s.slot k).ref := by omega
  obtain ⟨copy, rfl, read⟩ := ilock_cases ran
  refine inv.setSlot rfl rfl ref spare (fun _ _ => ?_) fun _ => rfl
  rcases read with ⟨valid, rfl⟩ | read
  · exact inv.copies k ref valid (by rw [unlocked]; nofun)
  · exact read

theorem iunlock_ok (ran : iunlock s k = .ok after) :
    after = s.setSlot k { s.slot k with hold := .unlocked } := by
  unfold iunlock at ran
  split at ran
  · cases ran
  · cases ran
    rfl

section
variable (inv : Coherent sb s)
include inv

theorem iunlock_coherent (held : (s.slot k).hold = .locked)
    (ran : iunlock s k = .ok after) : Coherent sb after := by
  have ref := inv.ref_pos (k := k) (by rw [held]; nofun)
  have claims := inv.claims k
  obtain rfl := iunlock_ok ran
  refine inv.setSlot rfl rfl ref ?_ (fun _ _ => inv.copy_eq (.inl held)) nofun
  simp only [needed, if_true] at claims ⊢
  omega

theorem iputLock_coherent (lockable : (s.slot k).Lockable) : Coherent sb (iputLock s k) := by
  obtain ⟨unlocked, spare⟩ := lockable
  have ref : 0 < (s.slot k).ref := by omega
  refine inv.setSlot rfl rfl ref ?_ (fun valid _ => ?_) fun held => ?_
  · split <;> exact spare
  · exact inv.copies k ref valid (by rw [unlocked]; nofun)
  · split at held
    · rename_i frees
      exact frees.1
    · simp at held

theorem iputInvalidate_coherent (held : (s.slot k).hold = .freed) :
    Coherent sb (iputInvalidate s k) := by
  have claims := inv.claims k
  refine inv.setSlot rfl rfl (inv.ref_pos (by rw [held]; nofun)) ?_ nofun nofun
  simp only [needed, held] at claims ⊢
  exact claims

theorem iputUnlock_coherent (held : (s.slot k).hold = .parting) : Coherent sb (iputUnlock s k) := by
  have claims := inv.claims k
  have ref := inv.ref_pos (k := k) (by rw [held]; nofun)
  refine inv.setSlot rfl rfl ref ?_ (fun valid _ => ?_) nofun
  · simp only [needed, held] at claims ⊢
    simpa using claims
  · exact inv.copies k ref valid (by rw [held]; nofun)

theorem iputDrop_coherent (leaves : 0 < (s.slot k).leaving) : Coherent sb (iputDrop s k) := by
  have claims := inv.claims k
  simp only [needed] at claims
  have ref : 0 < (s.slot k).ref := by omega
  refine inv.setSlot rfl rfl ref ?_ (inv.copies k ref) (inv.read k)
  simp only [needed]
  omega

section
variable (held : (s.slot k).hold = .locked)
include held

theorem Coherent.store
    (dinode : d.dinode = update (s.disk (s.slot k).dev).dinode (s.slot k).inum ip)
    (typed : ip.type ≠ 0) (covered : Covered ip) :
    Coherent sb (s.set k { s.slot k with copy := ip } d) := by
  have stored : d.dinode (s.slot k).inum = ip := by rw [dinode, update_self]
  refine inv.set ⟨rfl, rfl, inv.ref_pos (by rw [held]; nofun), fun inum other => ?_,
    inv.claims k, fun _ _ => ⟨stored.symm, typed⟩, inv.read k, fun _ => ?_⟩
  · rw [dinode, update_of_ne other]
  · rwa [stored]

theorem readEntry_coherent
    (offset : off < 2 ^ 32) (length : n < 2 ^ 32) (ran : readEntry sb s k off n = .ok after) :
    Coherent sb after := by
  have covered := inv.covered_copy (.inl held)
  obtain ⟨same, typed⟩ := inv.copy_eq (.inl held)
  obtain ⟨⟨r, d, ip⟩, read, ends⟩ := bind_eq_ok.mp ran
  cases ends
  obtain ⟨dinode, rfl⟩ := readi_spec covered offset length read
  refine inv.store held ?_ typed covered
  rw [dinode, same, dinodeOf, update_eq_self]

theorem writeEntry_coherent (offset : off < 2 ^ 32) (length : src.length < 2 ^ 32)
    (ran : writeEntry sb s k off src = .ok after) : Coherent sb after := by
  obtain ⟨same, typed⟩ := inv.copy_eq (.inl held)
  obtain ⟨⟨r, d, ip⟩, wrote, ends⟩ := bind_eq_ok.mp ran
  cases ends
  obtain ⟨covered, type, stays | stored⟩ :=
    writei_spec (inv.covered_copy (.inl held)) offset length wrote
  · obtain ⟨dinode, rfl⟩ := stays
    refine inv.store held ?_ typed covered
    rw [dinode, same, dinodeOf, update_eq_self]
  · exact inv.store held stored (by rwa [type]) covered

theorem changeEntry_coherent
    (major minor nlink : Int) : Coherent sb (changeEntry s k major minor nlink) := by
  obtain ⟨-, typed⟩ := inv.copy_eq (.inl held)
  obtain ⟨bound, slots⟩ := inv.covered_copy (.inl held)
  exact inv.store held rfl typed ⟨bound, slots⟩

end

theorem iputFree_coherent (held : (s.slot k).hold = .freeing)
    (ran : iputFree sb s k = .ok after) : Coherent sb after := by
  have claims := inv.claims k
  obtain ⟨⟨d, ip⟩, truncated, ends⟩ := bind_eq_ok.mp ran
  cases ends
  obtain ⟨⟨addrs, rfl⟩, dinode⟩ := itrunc_spec truncated
  refine inv.set ⟨rfl, rfl, inv.ref_pos (by rw [held]; nofun), fun inum other => ?_, ?_,
    fun _ stage => absurd rfl stage, nofun, fun typed => ?_⟩
  · rw [iupdate, Disk.setDinode, dinode]
    simp only [update_of_ne other]
  · simp only [needed, held] at claims ⊢
    exact claims
  · simp [iupdate, Disk.setDinode] at typed

end

/-! ## Finding and allocating -/

theorem Coherent.recycle (inv : Coherent sb s) (unused : (s.slot k).ref = 0)
    (absent : ∀ l, 0 < (s.slot l).ref → (s.slot l).dev = dev → (s.slot l).inum ≠ inum)
    (small : inum < sb.ninodes) :
    Coherent sb (s.setSlot k
      { s.slot k with dev := dev, inum := inum, ref := 1, valid := false }) := by
  have claims := inv.claims k
  have hold : (s.slot k).hold = .unlocked := by
    by_contra held
    rw [needed, if_neg held] at claims
    omega
  have here : ((s.setSlot k { s.slot k with dev := dev, inum := inum, ref := 1, valid := false }).slot
      k) = { s.slot k with dev := dev, inum := inum, ref := 1, valid := false } :=
    update_self _ _ _
  have there (l) (other : l ≠ k) : (s.setSlot k
      { s.slot k with dev := dev, inum := inum, ref := 1, valid := false }).slot l = s.slot l :=
    update_of_ne other _ _
  refine ⟨fun l m refL refM sameDev sameInum => ?_, fun l positive => ?_, fun l => ?_,
    fun l positive valid stage => ?_, fun l held => ?_, inv.covered⟩
  · by_cases first : l = k
    · by_cases second : m = k
      · rw [first, second]
      · rw [first, here, there m second] at sameDev sameInum
        rw [there m second] at refM
        exact absurd sameInum.symm (absent m refM sameDev.symm)
    · by_cases second : m = k
      · rw [second, here, there l first] at sameDev sameInum
        rw [there l first] at refL
        exact absurd sameInum (absent l refL sameDev)
      · rw [there l first] at refL sameDev sameInum
        rw [there m second] at refM sameDev sameInum
        exact inv.unique l m refL refM sameDev sameInum
  · by_cases same : l = k
    · rw [same, here]
      exact small
    · rw [there l same] at positive ⊢
      exact inv.inside l positive
  · by_cases same : l = k
    · rw [same, here]
      simp only [needed, hold] at claims ⊢
      omega
    · rw [there l same]
      exact inv.claims l
  · by_cases same : l = k
    · rw [same, here] at valid
      cases valid
    · have kept := inv.copies l
      rw [there l same] at positive valid stage ⊢
      rw [dinodeOf, there l same]
      exact kept positive valid stage
  · by_cases same : l = k
    · rw [same, here] at held
      rw [hold] at held
      rcases held with held | held <;> cases held
    · rw [there l same] at held ⊢
      exact inv.read l held

theorem iget_cases (ran : iget s dev inum = .ok (k, after)) :
    0 < (s.slot k).ref ∧ (s.slot k).dev = dev ∧ (s.slot k).inum = inum ∧ after = idup s k ∨
    (s.slot k).ref = 0 ∧
      (∀ l, 0 < (s.slot l).ref → (s.slot l).dev = dev → (s.slot l).inum ≠ inum) ∧
      after = s.setSlot k { s.slot k with dev := dev, inum := inum, ref := 1, valid := false } := by
  unfold iget at ran
  split at ran
  · rename_i found
    cases ran
    obtain ⟨ref, sameDev, sameInum⟩ :
        0 < (s.slot k).ref ∧ (s.slot k).dev = dev ∧ (s.slot k).inum = inum := by
      simpa using List.find?_some found
    exact .inl ⟨ref, sameDev, sameInum, rfl⟩
  · rename_i missing
    split at ran
    · cases ran
    · rename_i found
      cases ran
      have unused : (s.slot k).ref = 0 := by simpa using List.find?_some found
      refine .inr ⟨unused, fun l ref sameDev sameInum => ?_, rfl⟩
      have none := List.find?_eq_none.mp missing l (List.mem_finRange l)
      exact none (decide_eq_true ⟨ref, sameDev, sameInum⟩)

theorem iget_coherent (inv : Coherent sb s) (small : inum < sb.ninodes)
    (ran : iget s dev inum = .ok (k, after)) : Coherent sb after := by
  obtain ⟨ref, -, -, rfl⟩ | ⟨unused, absent, rfl⟩ := iget_cases ran
  · exact idup_coherent inv ref
  · exact inv.recycle unused absent small

theorem ialloc_cases (ran : ialloc sb s dev type = .ok (k, after)) :
    ∃ inum < sb.ninodes, ((s.disk dev).dinode inum).type = 0 ∧
      iget { s with
        disk := update s.disk dev
          ((s.disk dev).setDinode inum { type := type }) } dev inum = .ok (k, after) := by
  unfold ialloc at ran
  split at ran
  · cases ran
  · rename_i inum found
    have member := List.mem_range'_1.mp (List.mem_of_find?_eq_some found)
    have free : ((s.disk dev).dinode inum).type = 0 := by simpa using List.find?_some found
    exact ⟨inum, by omega, free, ran⟩

theorem Coherent.allocate (inv : Coherent sb s) (free : ((s.disk dev).dinode inum).type = 0)
    (type : Int) :
    Coherent sb { s with
      disk := update s.disk dev ((s.disk dev).setDinode inum { type := type }) } := by
  have dinode (dev' inum') : ((update s.disk dev
      ((s.disk dev).setDinode inum { type := type })) dev').dinode inum' =
      if dev' = dev ∧ inum' = inum then { type := type } else (s.disk dev').dinode inum' := by
    by_cases sameDev : dev' = dev
    · subst sameDev
      by_cases sameInum : inum' = inum <;> simp [Disk.setDinode, sameInum]
    · simp [sameDev]
  refine ⟨inv.unique, inv.inside, inv.claims, fun k positive valid stage => ?_, inv.read,
    fun dev' inum' small typed => ?_⟩
  · obtain ⟨same, typed⟩ := inv.copies k positive valid stage
    refine ⟨?_, typed⟩
    dsimp only [dinodeOf] at same ⊢
    rw [dinode, if_neg, same]
    rintro ⟨sameDev, sameInum⟩
    rw [same, sameDev, sameInum] at typed
    exact typed free
  · rw [dinode] at typed ⊢
    split
    · exact ⟨Nat.zero_le _, by simp⟩
    · rename_i other
      rw [if_neg other] at typed
      exact inv.covered dev' inum' small typed

theorem ialloc_coherent (inv : Coherent sb s) (ran : ialloc sb s dev type = .ok (k, after)) :
    Coherent sb after := by
  obtain ⟨inum, small, free, got⟩ := ialloc_cases ran
  exact iget_coherent (inv.allocate free type) small got

/-! ## Runs -/

theorem perform_coherent (inv : Coherent sb s) (enabled : Enabled sb s e)
    (ran : perform sb s e = .ok after) : Coherent sb after := by
  cases e with
  | iget dev inum =>
    obtain ⟨⟨k, next⟩, got, ends⟩ := bind_eq_ok.mp ran
    cases ends
    exact iget_coherent inv enabled got
  | ialloc dev type =>
    obtain ⟨⟨k, next⟩, got, ends⟩ := bind_eq_ok.mp ran
    cases ends
    exact ialloc_coherent inv got
  | idup k =>
    cases ran
    exact idup_coherent inv enabled
  | ilock k => exact ilock_coherent inv enabled ran
  | iunlock k => exact iunlock_coherent inv enabled ran
  | iputLock k =>
    cases ran
    exact iputLock_coherent inv enabled
  | iputFree k => exact iputFree_coherent inv enabled ran
  | iputInvalidate k =>
    cases ran
    exact iputInvalidate_coherent inv enabled
  | iputUnlock k =>
    cases ran
    exact iputUnlock_coherent inv enabled
  | iputDrop k =>
    cases ran
    exact iputDrop_coherent inv enabled
  | readi k off n => exact readEntry_coherent inv enabled.1 enabled.2.1 enabled.2.2 ran
  | writei k off src => exact writeEntry_coherent inv enabled.1 enabled.2.1 enabled.2.2 ran
  | change k major minor nlink =>
    cases ran
    exact changeEntry_coherent inv enabled major minor nlink

theorem covered_of_filled {d : Disk} (filled : Filled sb d) (small : inum < sb.ninodes)
    (typed : (d.dinode inum).type ≠ 0) : Covered (d.dinode inum) := by
  have there (pos) (below : pos < (d.dinode inum).size) :
      addrOf d.block (d.dinode inum) (pos / BSIZE) ≠ 0 :=
    filled inum small typed _ (Nat.lt_of_le_of_lt (Nat.div_mul_le_self pos BSIZE) below)
  refine ⟨Nat.le_of_not_lt fun large => ?_, fun pos below => ?_⟩
  · have small := addrOf_small (there (MAXFILE * BSIZE) large)
    exact Nat.lt_irrefl _ small
  · have held := there pos below
    unfold slotOf
    split
    · rename_i direct
      rwa [addrOf_direct typed direct] at held
    · rename_i behind
      have bound := addrOf_small held
      have entry : pos / BSIZE - NDIRECT < NINDIRECT := by simp only [MAXFILE] at bound; omega
      rw [addrOf_entry entry behind] at held
      exact fun zero => held (by simp [number, zero])

theorem init_coherent (init : (system sb (Filled sb)).Init s) : Coherent sb s := by
  obtain ⟨blank, image⟩ := init
  have unused (k) : ¬0 < (s.slot k).ref := by simp [blank k]
  exact ⟨fun k _ ref => absurd ref (unused k), fun k ref => absurd ref (unused k),
    fun k => by simp [blank k, needed], fun k ref => absurd ref (unused k),
    fun k => by simp [blank k], fun dev inum => covered_of_filled (image dev)⟩

/-- A record of the entries whose inode an `iput` has freed and that have not been locked
or given another inode since. -/
def noteFreed (s : Cache) (e : Event) (after : Cache) (freed : SlotId → Bool) : SlotId → Bool :=
  fun k =>
    match e with
    | .iputFree l => if k = l then true else freed k
    | .ilock l => if k = l then false else freed k
    | _ => if (after.slot k).dev = (s.slot k).dev ∧ (after.slot k).inum = (s.slot k).inum
      then freed k else false

/-- Runs from images in which every block below each inode's size is allocated, with the
record of freed entries. -/
def recorded (sb : Superblock) : System (Cache × (SlotId → Bool)) Event :=
  (system sb (Filled sb)).watch (fun _ _ => false) noteFreed

instance {s : Cache × (SlotId → Bool)} {e : Event} : Decidable ((recorded sb).Enabled s e) :=
  inferInstanceAs (Decidable (Enabled sb s.1 e))

theorem recorded_coherent {s : Cache × (SlotId → Bool)} (run : (recorded sb).Run ok s) :
    Coherent sb s.1 :=
  run.invariant (fun _ init => init_coherent init.1) fun _ _ _ inv enabled _ ran =>
    perform_coherent inv enabled (System.watch_perform ran).1

/-- An entry that has to be read again before its next use. -/
def Unread (slot : Slot) : Prop :=
  slot.hold = .freed ∨ slot.valid = false ∧ (slot.hold = .unlocked ∨ slot.hold = .parting)

theorem unread_setSlot (unread : Unread (s.slot k)) (here : k = l → Unread slot) :
    Unread ((s.setSlot l slot).slot k) := by
  by_cases same : k = l
  · rw [Cache.setSlot, same]
    simpa using here same
  · simpa [Cache.setSlot, same] using unread

theorem iget_unread (unread : Unread (s.slot k)) (ran : iget s dev inum = .ok (l, after)) :
    Unread (after.slot k) := by
  obtain ⟨-, -, -, rfl⟩ | ⟨-, -, rfl⟩ := iget_cases ran
  · refine unread_setSlot unread fun same => ?_
    subst same
    exact unread
  · refine unread_setSlot unread fun same => ?_
    subst same
    exact unread.imp id fun rest => ⟨rfl, rest.2⟩

theorem not_unread_of_locked (locked : (s.slot k).hold = .locked) : ¬Unread (s.slot k) := by
  rw [Unread, locked]
  simp

theorem perform_unread (unread : Unread (s.slot k)) (enabled : Enabled sb s e)
    (ran : perform sb s e = .ok after) (other : e ≠ .ilock k) : Unread (after.slot k) := by
  cases e with
  | iget dev inum =>
    obtain ⟨⟨l, next⟩, got, ends⟩ := bind_eq_ok.mp ran
    cases ends
    exact iget_unread unread got
  | ialloc dev type =>
    obtain ⟨⟨l, next⟩, got, ends⟩ := bind_eq_ok.mp ran
    cases ends
    obtain ⟨inum, -, -, found⟩ := ialloc_cases got
    exact iget_unread (k := k) (by exact unread) found
  | idup l =>
    cases ran
    refine unread_setSlot unread fun same => ?_
    subst same
    exact unread
  | ilock l =>
    obtain ⟨copy, rfl, -⟩ := ilock_cases ran
    exact unread_setSlot unread fun same => absurd (by rw [same]) other
  | iunlock l =>
    obtain rfl := iunlock_ok ran
    refine unread_setSlot unread fun same => ?_
    subst same
    exact absurd unread (not_unread_of_locked enabled)
  | iputLock l =>
    cases ran
    refine unread_setSlot unread fun same => ?_
    subst same
    obtain ⟨unlocked, -⟩ := enabled
    have invalid : (s.slot k).valid = false := by
      rcases unread with freed | ⟨invalid, -⟩
      · rw [unlocked] at freed
        cases freed
      · exact invalid
    exact .inr ⟨invalid, .inr (by simp [invalid])⟩
  | iputFree l =>
    obtain ⟨⟨d, ip⟩, -, ends⟩ := bind_eq_ok.mp ran
    cases ends
    exact unread_setSlot unread fun _ => .inl rfl
  | iputInvalidate l =>
    cases ran
    exact unread_setSlot unread fun _ => .inr ⟨rfl, .inr rfl⟩
  | iputUnlock l =>
    cases ran
    refine unread_setSlot unread fun same => ?_
    subst same
    rcases unread with freed | ⟨invalid, -⟩
    · rw [show (s.slot k).hold = .parting from enabled] at freed
      cases freed
    · exact .inr ⟨invalid, .inl rfl⟩
  | iputDrop l =>
    cases ran
    refine unread_setSlot unread fun same => ?_
    subst same
    exact unread
  | readi l off n =>
    obtain ⟨⟨r, d, ip⟩, -, ends⟩ := bind_eq_ok.mp ran
    cases ends
    refine unread_setSlot unread fun same => ?_
    subst same
    exact absurd unread (not_unread_of_locked enabled.1)
  | writei l off src =>
    obtain ⟨⟨r, d, ip⟩, -, ends⟩ := bind_eq_ok.mp ran
    cases ends
    refine unread_setSlot unread fun same => ?_
    subst same
    exact absurd unread (not_unread_of_locked enabled.1)
  | change l major minor nlink =>
    cases ran
    refine unread_setSlot unread fun same => ?_
    subst same
    exact absurd unread (not_unread_of_locked enabled)

theorem iputFree_unread (ran : iputFree sb s k = .ok after) : Unread (after.slot k) := by
  obtain ⟨⟨d, ip⟩, -, ends⟩ := bind_eq_ok.mp ran
  cases ends
  exact .inl (by simp [Cache.set])

theorem noteFreed_earlier (noted : noteFreed s e after freed k = true) (other : e ≠ .iputFree k) :
    freed k = true := by
  unfold noteFreed at noted
  split at noted
  · split at noted
    · rename_i same
      exact absurd (by rw [same]) other
    · exact noted
  · split at noted
    · cases noted
    · exact noted
  · split at noted
    · exact noted
    · cases noted

theorem recorded_unread {s : Cache × (SlotId → Bool)} (run : (recorded sb).Run ok s) (k : SlotId)
    (freed : s.2 k = true) : Unread (s.1.slot k) := by
  induction run with
  | start init =>
    rw [init.2] at freed
    cases freed
  | @step s e after _ enabled _ ran ih =>
    obtain ⟨stepped, note⟩ := System.watch_perform ran
    rw [note] at freed
    by_cases locks : e = .ilock k
    · subst locks
      simp [noteFreed] at freed
    · by_cases frees : e = .iputFree k
      · subst frees
        exact iputFree_unread stepped
      · exact perform_unread (ih (noteFreed_earlier freed frees)) enabled stepped locks

theorem ialloc_invalid (inv : Coherent sb s) (ran : ialloc sb s dev type = .ok (k, after))
    (unlocked : (after.slot k).hold = .unlocked) : (after.slot k).valid = false := by
  obtain ⟨inum, small, free, got⟩ := ialloc_cases ran
  obtain ⟨ref, sameDev, sameInum, rfl⟩ | ⟨-, -, rfl⟩ := iget_cases got
  · have unlocked' : (s.slot k).hold = .unlocked := by
      simpa [idup, Cache.setSlot] using unlocked
    by_contra valid
    have valid' : (s.slot k).valid = true := by
      simpa [idup, Cache.setSlot] using valid
    obtain ⟨same, typed⟩ := inv.copies k ref valid' (by rw [unlocked']; nofun)
    rw [same, dinodeOf] at typed
    rw [show (s.slot k).dev = dev from sameDev, show (s.slot k).inum = inum from sameInum] at typed
    exact typed free
  · simp [Cache.setSlot]

theorem ilock_copy (inv : Coherent sb s) (lockable : (s.slot k).Lockable)
    (ran : ilock s k = .ok after) : (after.slot k).copy = dinodeOf after k := by
  refine ((ilock_coherent inv lockable ran).copy_eq (.inl ?_)).1
  obtain ⟨copy, rfl, -⟩ := ilock_cases ran
  simp [Cache.setSlot]

/-- In every state reached, an inode has one entry, and a valid entry whose lock is free
has the fields of its dinode. An entry whose inode was freed is not valid when its lock
is free again, nor is one that `ialloc` returns, and `ilock` leaves the fields of the
dinode in the entry. -/
theorem inode_cache_coherent {s : Cache × (SlotId → Bool)}
    (run : (recorded sb).Run (fun _ _ => True) s) :
    (∀ k l, 0 < (s.1.slot k).ref → 0 < (s.1.slot l).ref → (s.1.slot k).dev = (s.1.slot l).dev →
      (s.1.slot k).inum = (s.1.slot l).inum → k = l) ∧
    (∀ k, 0 < (s.1.slot k).ref → (s.1.slot k).valid = true → (s.1.slot k).hold = .unlocked →
      (s.1.slot k).copy = dinodeOf s.1 k) ∧
    (∀ k, s.2 k = true → (s.1.slot k).hold = .unlocked → (s.1.slot k).valid = false) ∧
    (∀ dev type k after, ialloc sb s.1 dev type = .ok (k, after) →
      (after.slot k).hold = .unlocked → (after.slot k).valid = false) ∧
    (∀ k after, (s.1.slot k).Lockable → ilock s.1 k = .ok after →
      (after.slot k).copy = dinodeOf after k) := by
  have inv := recorded_coherent run
  refine ⟨inv.unique, fun k ref valid unlocked => ?_, fun k freed unlocked => ?_,
    fun dev type k after ran => ialloc_invalid inv ran, fun k after lockable => ilock_copy inv lockable⟩
  · exact (inv.copies k ref valid (by rw [unlocked]; nofun)).1
  · have unread := recorded_unread run k freed
    rw [Unread, unlocked] at unread
    exact (unread.resolve_left nofun).1

/-- A file is freed while its inode is allocated again for a directory: the entry that both
calls use is not valid when the lock is free. -/
theorem inode_cache_coherent_reallocated :
    ∃ s, (recorded smallSuperblock).Run (fun _ _ => True) s ∧ s.2 0 = true ∧
      0 < (s.1.slot 0).ref ∧ (dinodeOf s.1 0).type = T_DIR ∧ (s.1.slot 0).valid = false := by
  obtain ⟨s, run, freed, ref, type, unlocked⟩ := System.exists_run (m := recorded smallSuperblock)
    (s := (blankCache, fun _ => false)) (fun _ _ => True)
    ⟨blankCache_init filled_blankDisk, rfl⟩
    [.ialloc 1 T_FILE, .ilock 0, .writei 0 0 [7, 7, 7], .iunlock 0, .iputLock 0, .iputFree 0,
      .ialloc 1 T_DIR, .iputInvalidate 0, .iputUnlock 0, .iputDrop 0]
    (fun s => s.2 0 = true ∧ 0 < (s.1.slot 0).ref ∧ (dinodeOf s.1 0).type = T_DIR ∧
      (s.1.slot 0).hold = .unlocked) (by decide +kernel)
  exact ⟨s, run, freed, ref, type, (inode_cache_coherent run).2.2.1 0 freed unlocked⟩

end Xv6.InodeCoherence
