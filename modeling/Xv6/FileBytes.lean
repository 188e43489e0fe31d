import Mathlib.Data.Fintype.Sum
import Xv6.FileContents

/-! A regular file as a sequence of bytes. `writei` replaces the bytes of its range and
extends the file if the range ends behind it, `readi` gives the bytes of its range. A write
allocates a block for each place it uses and finds empty, so with as many free blocks as
such places it returns. -/
namespace Xv6.FileBytes
open CheckedC hiding store
open ByteStore NumberLedger DiskBlocks BlockOwnership WriteThrough FileContents Function

variable {sb : Superblock} {d d' : Disk} {table : Nat → Dinode} {ip ip' : Dinode}

/-! ## The places of a range -/

instance : Fintype Place :=
  Fintype.ofEquiv (Fin (NDIRECT + 1) ⊕ Fin NINDIRECT)
    { toFun := fun
        | .inl k => .slot k
        | .inr j => .entry j
      invFun := fun
        | .slot k => .inl k
        | .entry j => .inr j
      left_inv := by rintro (k | j) <;> rfl
      right_inv := by rintro (k | j) <;> rfl }

/-- Some byte of the range lies in block `bn` of the file. -/
def Touches (off n bn : Nat) : Prop := 0 < n ∧ off < (bn + 1) * BSIZE ∧ bn * BSIZE < off + n

instance : Decidable (Touches off n bn) := inferInstanceAs (Decidable (_ ∧ _ ∧ _))

/-- The blocks of the range are reached through this place. -/
def Uses (off n : Nat) : Place → Prop
  | .slot k => if k = indirect then 0 < n ∧ NDIRECT * BSIZE < off + n else Touches off n k
  | .entry j => Touches off n (NDIRECT + j)

instance : DecidablePred (Uses off n)
  | .slot k => inferInstanceAs (Decidable (if k = indirect then _ else _))
  | .entry j => inferInstanceAs (Decidable (Touches off n (NDIRECT + j)))

theorem touches_of_mem (low : off ≤ pos) (high : pos < off + n) :
    Touches off n (pos / BSIZE) := by
  have position := Nat.div_add_mod' pos BSIZE
  have rest : pos % BSIZE < BSIZE := Nat.mod_lt _ (by decide)
  refine ⟨by omega, ?_, by omega⟩
  rw [Nat.add_mul, Nat.one_mul]
  omega

theorem Touches.place (touches : Touches off n bn) (small : bn < MAXFILE) :
    Uses off n (place bn small) := by
  unfold BlockOwnership.place
  split
  · rename_i direct
    have other : (⟨bn, Nat.lt_succ_of_lt direct⟩ : Fin (NDIRECT + 1)) ≠ indirect :=
      fun same => absurd (congrArg Fin.val same) (by simp [indirect]; omega)
    rwa [Uses, if_neg other]
  · rw [Uses]
    rwa [Nat.add_sub_cancel' (by omega)]

theorem Touches.indirect (touches : Touches off n bn) (behind : ¬bn < NDIRECT) :
    Uses off n (.slot indirect) := by
  refine ⟨touches.1, Nat.lt_of_le_of_lt ?_ touches.2.2⟩
  exact Nat.mul_le_mul_right BSIZE (by omega)

/-- The places that a write to the range finds empty. -/
def lacking (block : Nat → Bytes) (ip : Dinode) (off n : Nat) : Finset Place :=
  Finset.univ.filter fun x => Uses off n x ∧ number block ip x = 0

def freeBlocks (sb : Superblock) (d : Disk) : Finset Nat :=
  (Finset.range sb.size).filter fun b => d.bit b = false

/-- There is a free block for every empty place of the range. -/
def Room (sb : Superblock) (d : Disk) (ip : Dinode) (off n : Nat) : Prop :=
  (lacking d.block ip off n).card ≤ (freeBlocks sb d).card

/-! ## Allocation -/

theorem Room.take (room : Room sb d ip off n) (uses : Uses off n x)
    (empty : number d.block ip x = 0) (free : d.bit b = false) (inside : b < sb.size)
    (bits : d'.bit = update d.bit b true) (full : number d'.block ip' x ≠ 0)
    (others : ∀ y, y ≠ x → number d'.block ip' y = number d.block ip y) :
    Room sb d' ip' off n := by
  have member : x ∈ lacking d.block ip off n := by simp [lacking, uses, empty]
  have fewer : lacking d'.block ip' off n = (lacking d.block ip off n).erase x := by
    ext y
    by_cases here : y = x
    · subst here
      simp [lacking, full]
    · simp [lacking, here, others y here]
  have used : freeBlocks sb d' = (freeBlocks sb d).erase b := by
    ext c
    by_cases here : c = b
    · subst here
      simp [freeBlocks, bits]
    · simp [freeBlocks, bits, here]
  have taken : b ∈ freeBlocks sb d := by simp [freeBlocks, free, inside]
  rw [Room, fewer, used, Finset.card_erase_of_mem member, Finset.card_erase_of_mem taken]
  exact Nat.sub_le_sub_right room 1

theorem balloc_ok (owned : Owned sb d table) (some : 0 < (freeBlocks sb d).card) :
    ∃ r, balloc sb d = .ok r := by
  obtain ⟨b, member⟩ := Finset.card_pos.mp some
  have free : b < sb.size ∧ d.bit b = false := by simpa [freeBlocks] using member
  cases found : (List.range sb.size).find? fun b => !d.bit b with
  | none =>
    have taken := List.find?_eq_none.mp found b (List.mem_range.mpr free.1)
    simp [free.2] at taken
  | some b' =>
    obtain ⟨d', ran, -⟩ := balloc_found owned found
    exact ⟨_, ran⟩

theorem Room.pos (room : Room sb d ip off n) (uses : Uses off n x)
    (empty : number d.block ip x = 0) : 0 < (freeBlocks sb d).card :=
  (Finset.card_pos.mpr ⟨x, by simp [lacking, uses, empty]⟩).trans_le room

theorem Room.of_number (room : Room sb d ip off n) (bits : d'.bit = d.bit)
    (same : ∀ x, number d'.block ip' x = number d.block ip x) : Room sb d' ip' off n := by
  have empty : lacking d'.block ip' off n = lacking d.block ip off n := by
    simp only [lacking, same]
  rw [Room, empty, freeBlocks, bits]
  exact room

section
variable (owned : Owned sb d (update table i ip)) (typed : ip.type ≠ 0)
  (room : Room sb d ip off n)
include owned typed room

theorem bmapSlot_room (uses : Uses off n (.slot k)) :
    ∃ r, bmapSlot sb d ip k = .ok r ∧ Room sb r.2.1 r.2.2 off n := by
  have ends := bmapSlot_ends owned typed k
  by_cases empty : ip.addrs k = 0
  · have missing : number d.block ip (.slot k) = 0 := by rw [number, if_neg typed, empty]
    obtain ⟨⟨b, d'⟩, found⟩ := balloc_ok owned (room.pos uses missing)
    have taken := (balloc_ends owned).of_ok found
    have ran : bmapSlot sb d ip k = .ok (b, d', ip.setAddr k b) := by
      rw [bmapSlot, if_pos empty, found]
      rfl
    obtain ⟨grown, value, nonzero, _, others⟩ := ends.of_ok ran
    refine ⟨_, ran, room.take uses missing taken.free taken.inside taken.bits ?_ fun y other => ?_⟩
    · rw [number, if_neg (by rwa [grown.type]), ← value]
      exact nonzero
    · have same := others (i, y) (by simpa using other)
      rwa [numbers_update_self, numbers_update_self] at same
  · exact ⟨(ip.addrs k, d, ip), by rw [bmapSlot, if_neg empty]; rfl, room⟩

theorem bmapEntry_room (wide : sb.size ≤ 2 ^ 32) (there : ip.addrs indirect ≠ 0)
    (l : Fin NINDIRECT) (uses : Uses off n (.entry l)) :
    ∃ r, bmapEntry sb d (ip.addrs indirect) l = .ok r ∧ Room sb r.2 ip off n := by
  have ends := bmapEntry_ends wide owned typed there l
  have area := indirect_area owned typed there
  by_cases empty : entry (d.block (ip.addrs indirect)) l = 0
  · have missing := (number_entry typed there d.block l).trans empty
    obtain ⟨⟨b, d₁⟩, found⟩ := balloc_ok owned (room.pos uses missing)
    have taken := (balloc_ends owned).of_ok found
    have ran : bmapEntry sb d (ip.addrs indirect) l = .ok (b, { d₁ with
        block := update d₁.block (ip.addrs indirect)
          (setEntry (d.block (ip.addrs indirect)) l b) }) := by
      rw [bmapEntry, bread_ok area, bind_ok, if_pos empty, found, bind_ok]
      dsimp only
      rw [logWrite_ok area]
      rfl
    obtain ⟨_, new, nonzero, _, others⟩ := ends.of_ok ran
    refine ⟨_, ran, room.take uses missing taken.free taken.inside taken.bits (new ▸ nonzero)
      fun y other => ?_⟩
    have same := others (i, y) (by simpa using other)
    rwa [numbers_update_self, numbers_update_self] at same
  · refine ⟨(entry (d.block (ip.addrs indirect)) l, d), ?_, room⟩
    rw [bmapEntry, bread_ok area, bind_ok, if_neg empty]
    rfl

theorem bmap_room (wide : sb.size ≤ 2 ^ 32) (touches : Touches off n bn) (small : bn < MAXFILE) :
    ∃ r, bmap sb d ip bn = .ok r ∧ Room sb r.2.1 r.2.2 off n := by
  have uses := touches.place small
  unfold bmap
  unfold place at uses
  split
  · rename_i direct
    rw [dif_pos direct] at uses
    exact bmapSlot_room owned typed room uses
  · rename_i behind
    have below : bn - NDIRECT < NINDIRECT := by simp only [MAXFILE] at small; omega
    rw [dif_neg behind] at uses
    rw [if_pos below]
    obtain ⟨⟨addr, d₁, ip₁⟩, first, room₁⟩ :=
      bmapSlot_room owned typed room (touches.indirect behind)
    have looked := (bmapSlot_ends owned typed indirect).of_ok first
    dsimp only at looked room₁
    obtain ⟨grown, rfl, there, _⟩ := looked
    have typed₁ : ip₁.type ≠ 0 := by rwa [grown.type]
    obtain ⟨⟨addr, d₂⟩, second, room₂⟩ :=
      bmapEntry_room grown.owned typed₁ room₁ wide there ⟨bn - NDIRECT, below⟩ uses
    rw [first, bind_ok]
    dsimp only at second ⊢
    rw [second]
    exact ⟨_, rfl, room₂⟩

end

/-! ## The loop of writei -/

theorem addrOf_grown (grown : Grown sb table i d ip d' ip') (held : addrOf d.block ip bn ≠ 0) :
    addrOf d'.block ip' bn = addrOf d.block ip bn := by
  have small := addrOf_small held
  have value (block ip) : addrOf block ip bn =
      numbers block (update table i ip) (i, place bn small) := by
    rw [← addrOf_eq_numbers, update_self]
  rw [value] at held
  rw [value, value, grown.keeps _ held]

theorem addrOf_of_number (same : ∀ x, number block' ip' x = number block ip x) (bn : Nat) :
    addrOf block' ip' bn = addrOf block ip bn := by
  unfold addrOf
  split
  · rw [same]
  · rfl

theorem number_write_data (owned : Owned sb d (update table i ip))
    (held : addrOf d.block ip bn ≠ 0) (data : Bytes) (x : Place) :
    number (update d.block (addrOf d.block ip bn) data) ip x = number d.block ip x := by
  have value : update table i ip i = ip := update_self _ _ _
  rw [← value] at held
  have same := congrFun (numbers_write_data owned held data) (i, x)
  rwa [value, numbers_update_self, numbers_update_self] at same

/-- How many of the bytes of `src` go into the block of `off`. -/
def portion (off : Nat) (src : List UInt8) : Nat := min src.length (BSIZE - off % BSIZE)

/-- The disk after the store of one turn into the block at `addr`. -/
def stored (d : Disk) (addr off : Nat) (src : List UInt8) : Disk :=
  { d with
    block := update d.block addr
      (put (d.block addr) (off % BSIZE) (src.take (portion off src))) }

theorem portion_pos (off : Nat) (some : src ≠ []) : 0 < portion off src := by
  have rest : off % BSIZE < BSIZE := Nat.mod_lt _ (by decide)
  have length := List.length_pos_iff.mpr some
  unfold portion
  omega

structure Turn (sb : Superblock) (table : Nat → Dinode) (i : Nat) (d : Disk) (ip : Dinode)
    (off : Nat) (src : List UInt8) (addr : Nat) (d₁ : Disk) (ip₁ : Dinode) : Prop where
  grown : Grown sb table i d ip d₁ ip₁
  found : addr = addrOf d₁.block ip₁ (off / BSIZE)
  held : addr ≠ 0
  owned : Owned sb (stored d₁ addr off src) (update table i ip₁)
  numbers : ∀ x, number (stored d₁ addr off src).block ip₁ x = number d₁.block ip₁ x

section
variable (wide : sb.size ≤ 2 ^ 32) (owned : Owned sb d (update table i ip))
  (typed : ip.type ≠ 0)
include wide owned typed

theorem writeLoop_turn (rounds : Nat) (some : src ≠ [])
    (fits : off + src.length ≤ MAXFILE * BSIZE)
    (looked : bmap sb d ip (off / BSIZE) = .ok (addr, d₁, ip₁)) :
    Turn sb table i d ip off src addr d₁ ip₁ ∧ writeLoop sb (rounds + 1) d ip off src =
      writeLoop sb rounds (stored d₁ addr off src) ip₁ (off + portion off src)
        (src.drop (portion off src)) := by
  have length := List.length_pos_iff.mpr some
  have small : off / BSIZE < MAXFILE := Nat.div_lt_of_lt_mul (by rw [Nat.mul_comm]; omega)
  have rest : off % BSIZE < BSIZE := Nat.mod_lt _ (by decide)
  have found := (bmap_ends wide owned typed small).of_ok looked
  dsimp only at found
  obtain ⟨grown, rfl, held, -⟩ := found
  have area := addrOf_area grown.owned held
  have wrote := Written.store (r := off % BSIZE) grown.owned held (src.take (portion off src))
    (by rw [List.length_take, portion]; omega) (Nat.div_add_mod' off BSIZE)
  refine ⟨⟨grown, rfl, held, wrote.owned, number_write_data grown.owned held _⟩, ?_⟩
  cases src with
  | nil => exact absurd rfl some
  | cons byte src =>
    rw [writeLoop, looked, bind_ok]
    dsimp only
    rw [bread_ok area, bind_ok, logWrite_ok area, bind_ok]
    rfl

end

/-- Block numbers stay, and the blocks of the range are there. -/
structure Filled (d : Disk) (ip : Dinode) (off n : Nat) (d' : Disk) (ip' : Dinode) : Prop where
  keeps : ∀ bn, addrOf d.block ip bn ≠ 0 → addrOf d'.block ip' bn = addrOf d.block ip bn
  reached : ∀ pos, off ≤ pos → pos < off + n → addrOf d'.block ip' (pos / BSIZE) ≠ 0

theorem Filled.refl (d : Disk) (ip : Dinode) (off : Nat) : Filled d ip off 0 d ip :=
  ⟨fun _ _ => rfl, fun pos low high => absurd high (by omega)⟩

theorem writeLoop_filled (wide : sb.size ≤ 2 ^ 32)
    (owned : Owned sb d (update table i ip)) (typed : ip.type ≠ 0)
    (fits : off + src.length ≤ MAXFILE * BSIZE)
    (ran : writeLoop sb rounds d ip off src = .ok (off', d', ip')) :
    Filled d ip off src.length d' ip' := by
  induction rounds generalizing d ip off src with
  | zero =>
    cases src with
    | nil =>
      cases ran
      exact Filled.refl _ _ _
    | cons byte src => cases ran
  | succ rounds ih =>
    by_cases some : src = []
    · subst some
      cases ran
      exact Filled.refl _ _ _
    · obtain ⟨⟨addr, d₁, ip₁⟩, looked, -⟩ : ∃ r, bmap sb d ip (off / BSIZE) = .ok r ∧ True := by
        cases src with
        | nil => exact absurd rfl some
        | cons byte src =>
          obtain ⟨r, looked, -⟩ := bind_eq_ok.mp ran
          exact ⟨r, looked, trivial⟩
      obtain ⟨turn, next⟩ := writeLoop_turn wide owned typed rounds some fits looked
      rw [next] at ran
      have typed₁ : ip₁.type ≠ 0 := by rwa [turn.grown.type]
      have rest := ih turn.owned typed₁ (by rw [List.length_drop]; unfold portion; omega) ran
      have first := addrOf_of_number turn.numbers
      refine ⟨fun bn held => ?_, fun pos low high => ?_⟩
      · have still := addrOf_grown turn.grown held
        rw [rest.keeps bn (by rwa [first, still]), first, still]
      · by_cases later : off + portion off src ≤ pos
        · exact rest.reached pos later (by rw [List.length_drop]; unfold portion at *; omega)
        · have same : pos / BSIZE = off / BSIZE := by
            simp only [portion, BSIZE] at *
            omega
          have held : addrOf (stored d₁ addr off src).block ip₁ (off / BSIZE) ≠ 0 := by
            rw [first, ← turn.found]
            exact turn.held
          rw [same, rest.keeps _ held]
          exact held

theorem writeLoop_room (wide : sb.size ≤ 2 ^ 32)
    (owned : Owned sb d (update table i ip)) (typed : ip.type ≠ 0)
    (enough : src.length ≤ rounds) (fits : off + src.length ≤ MAXFILE * BSIZE)
    (low : start ≤ off) (high : off + src.length ≤ start + n) (room : Room sb d ip start n) :
    ∃ r, writeLoop sb rounds d ip off src = .ok r ∧ Room sb r.2.1 r.2.2 start n := by
  induction rounds generalizing d ip off src with
  | zero =>
    obtain rfl : src = [] := List.length_eq_zero_iff.mp (Nat.le_zero.mp enough)
    exact ⟨_, rfl, room⟩
  | succ rounds ih =>
    by_cases some : src = []
    · subst some
      exact ⟨_, rfl, room⟩
    · have length := List.length_pos_iff.mpr some
      have small : off / BSIZE < MAXFILE := Nat.div_lt_of_lt_mul (by rw [Nat.mul_comm]; omega)
      obtain ⟨⟨addr, d₁, ip₁⟩, looked, room₁⟩ :=
        bmap_room owned typed room wide (touches_of_mem low (by omega)) small
      obtain ⟨turn, next⟩ := writeLoop_turn wide owned typed rounds some fits looked
      have positive := portion_pos off some
      rw [next]
      refine ih turn.owned (by rwa [turn.grown.type]) ?_ ?_ (by omega) ?_ ?_
      · rw [List.length_drop]
        omega
      · rw [List.length_drop]
        unfold portion
        omega
      · rw [List.length_drop]
        unfold portion
        omega
      · exact room₁.of_number rfl turn.numbers

/-! ## Whole files -/

/-- The inode of a file or a directory with all its blocks, on a disk whose bitmap and
inodes agree. -/
structure Whole (sb : Superblock) (table : Nat → Dinode) (i : Nat) (d : Disk) (ip : Dinode) :
    Prop where
  stored : ip.type = T_DIR ∨ ip.type = T_FILE
  owned : Owned sb d (update table i ip)
  allocated : ∀ bn, bn * BSIZE < ip.size → addrOf d.block ip bn ≠ 0

structure Regular (sb : Superblock) (table : Nat → Dinode) (i : Nat) (d : Disk) (ip : Dinode) :
    Prop extends Whole sb table i d ip where
  file : ip.type = T_FILE

def fileBytes (block : Nat → Bytes) (ip : Dinode) : List UInt8 :=
  slice (contents block ip) 0 ip.size

@[simp] theorem length_fileBytes (block : Nat → Bytes) (ip : Dinode) :
    (fileBytes block ip).length = ip.size := length_slice _ _ _

/-- The range starts in the file and ends where a file can end. -/
def Accepts (ip : Dinode) (off n : Nat) : Prop := off ≤ ip.size ∧ off + n ≤ MAXFILE * BSIZE

instance : Decidable (Accepts ip off n) := inferInstanceAs (Decidable (_ ∧ _))

namespace Whole

variable (whole : Whole sb table i d ip)
include whole

theorem typed : ip.type ≠ 0 ∧ ip.type ≠ T_DEV := by
  rcases whole.stored with type | type <;> rw [type] <;> decide

theorem distinct (first : bn * BSIZE < ip.size)
    (same : addrOf d.block ip bn = addrOf d.block ip bn') : bn = bn' := by
  have held := whole.allocated bn first
  have value : update table i ip i = ip := update_self _ _ _
  rw [same] at held
  rw [← value] at same held
  exact (addrOf_once whole.owned same held).2

theorem held_of_lt (below : pos < ip.size) : addrOf d.block ip (pos / BSIZE) ≠ 0 :=
  whole.allocated _ (Nat.lt_of_le_of_lt (Nat.div_mul_le_self pos BSIZE) below)

theorem bound : ip.size ≤ MAXFILE * BSIZE := by
  by_contra above
  have held := whole.held_of_lt (Nat.not_le.mp above)
  have small := addrOf_small held
  simp only [MAXFILE, NDIRECT, NINDIRECT, BSIZE] at small
  omega

theorem covered : Covered ip := by
  refine ⟨whole.bound, fun pos below => ?_⟩
  have held := whole.held_of_lt below
  have small := addrOf_small held
  unfold slotOf
  split
  · rename_i direct
    rwa [addrOf_direct whole.typed.1 direct] at held
  · rename_i behind
    rw [addrOf_entry (by simp only [MAXFILE] at small; omega) behind] at held
    exact fun zero => held (by simp [number, zero])

end Whole

/-- A write has taken place: the bytes of the range are replaced, the file has all its
blocks and its type, and no other inode and no other file has changed. -/
structure Replaced (sb : Superblock) (table : Nat → Dinode) (i : Nat) (d : Disk) (ip : Dinode)
    (off : Nat) (src : List UInt8) (d' : Disk) (ip' : Dinode) : Prop where
  bytes : fileBytes d'.block ip' = (fileBytes d.block ip).take off ++ src ++
    (fileBytes d.block ip).drop (off + src.length)
  size : ip'.size = max ip.size (off + src.length)
  whole : Whole sb table i d' ip'
  type : ip'.type = ip.type
  stores : d'.dinode = d.dinode ∧ ip' = ip ∨ d'.dinode = update d.dinode i ip'
  others : ∀ j, j ≠ i → fileBytes d'.block (table j) = fileBytes d.block (table j)

theorem Replaced.regular (replaced : Replaced sb table i d ip off src d' ip')
    (regular : Regular sb table i d ip) : Regular sb table i d' ip' :=
  ⟨replaced.whole, replaced.type.trans regular.file⟩

theorem replace_replace {file : List UInt8} (inside : off ≤ file.length) :
    (file.take off ++ src ++ file.drop (off + src.length)).take (off + src.length) ++ src' ++
        (file.take off ++ src ++ file.drop (off + src.length)).drop
          (off + src.length + src'.length) =
      file.take off ++ (src ++ src') ++ file.drop (off + (src ++ src').length) := by
  have front : (file.take off ++ src).length = off + src.length := by simp [inside]
  rw [List.take_left' front, ← List.drop_drop, List.drop_left' front, List.drop_drop,
    List.length_append, Nat.add_assoc, List.append_assoc (file.take off)]

theorem Replaced.trans (first : Replaced sb table i d ip off src d' ip')
    (second : Replaced sb table i d' ip' off' src' d'' ip'') (next : off' = off + src.length)
    (inside : off ≤ ip.size) : Replaced sb table i d ip off (src ++ src') d'' ip'' := by
  subst next
  refine ⟨?_, ?_, second.whole, second.type.trans first.type, ?_, fun j other => ?_⟩
  · rw [second.bytes, first.bytes]
    exact replace_replace (by rwa [length_fileBytes])
  · rw [second.size, first.size, List.length_append]
    omega
  · rcases second.stores with ⟨dinode, rfl⟩ | dinode
    · rw [dinode]
      exact first.stores
    · refine .inr ?_
      rcases first.stores with ⟨before, rfl⟩ | before
      · rw [dinode, before]
      · rw [dinode, before, update_idem]
  · rw [second.others j other, first.others j other]

theorem writei_refuses (refused : ¬Accepts ip off src.length) (file : ip.type ≠ T_DEV)
    (offset : off < 2 ^ 32) (length : src.length < 2 ^ 32) :
    writei sb d i ip off src = .ok (-1, d, ip) := by
  unfold Accepts at refused
  rw [writei, if_neg file]
  split
  · rfl
  · rw [if_pos (by simp only [MAXFILE, NDIRECT, NINDIRECT, BSIZE] at *; omega)]

theorem writei_replaces (wide : sb.size ≤ 2 ^ 32) (whole : Whole sb table i d ip)
    (accepts : Accepts ip off src.length) :
    Ends (writei sb d i ip off src) fun r =>
      r.1 = src.length ∧ Replaced sb table i d ip off src r.2.1 r.2.2 := by
  obtain ⟨inside, fits⟩ := accepts
  have limit : MAXFILE * BSIZE < 2 ^ 32 := by decide
  have offset : off < 2 ^ 32 := by omega
  have length : src.length < 2 ^ 32 := by omega
  cases ran : writei sb d i ip off src with
  | error fault =>
    have ends := writei_ends wide whole.owned whole.typed.1 offset length
    rw [ran] at ends
    exact ends
  | ok r =>
    obtain ⟨n, d', ip'⟩ := r
    obtain ⟨-, type, stores⟩ := writei_spec whole.covered offset length ran
    have result := (writei_ends wide whole.owned whole.typed.1 offset length).of_ok ran
    rw [writei, if_neg whole.typed.2, Nat.mod_eq_of_lt (by omega), if_neg (by omega),
      if_neg (by omega)] at ran
    obtain ⟨⟨off', d₁, ip₁⟩, looped, ran⟩ := bind_eq_ok.mp ran
    have filled := writeLoop_filled wide whole.owned whole.typed.1 fits looped
    have last : n = src.length ∧ ∀ bn, addrOf d'.block ip' bn = addrOf d₁.block ip₁ bn := by
      dsimp only at ran
      split at ran
      · cases ran
        exact ⟨rfl, addrOf_of_number (number_congr rfl rfl)⟩
      · cases ran
        exact ⟨rfl, fun _ => rfl⟩
    obtain ⟨rfl, same⟩ := last
    rcases result with ⟨device | failed, -⟩ | wrote
    · exact absurd device whole.typed.2
    · omega
    have size : ip'.size = max ip.size (off + src.length) := wrote.size
    refine ⟨rfl, ?_, size, ⟨?_, wrote.written.owned, fun bn below => ?_⟩, type, stores,
      fun j other => ?_⟩
    · rw [fileBytes, fileBytes, size, wrote.written.here]
      exact slice_replace _ inside
    · rw [type]
      exact whole.stored
    · rw [same]
      by_cases old : bn * BSIZE < ip.size
      · rw [filled.keeps bn (whole.allocated bn old)]
        exact whole.allocated bn old
      · have new := (lt_max_iff.mp (size ▸ below)).resolve_left old
        have reached := filled.reached (bn * BSIZE) (inside.trans (Nat.not_lt.mp old)) new
        rwa [Nat.mul_div_cancel _ (by decide)] at reached
    · rw [fileBytes, fileBytes, wrote.written.others j other]

theorem writei_returns (wide : sb.size ≤ 2 ^ 32) (whole : Whole sb table i d ip)
    (accepts : Accepts ip off src.length) (low : start ≤ off)
    (high : off + src.length ≤ start + n) (room : Room sb d ip start n) :
    ∃ d' ip', writei sb d i ip off src = .ok ((src.length : Int), d', ip') ∧
      Replaced sb table i d ip off src d' ip' ∧ Room sb d' ip' start n := by
  have ends := writei_replaces wide whole accepts
  obtain ⟨inside, fits⟩ := accepts
  have limit : MAXFILE * BSIZE < 2 ^ 32 := by decide
  obtain ⟨⟨off', d₁, ip₁⟩, looped, left⟩ := writeLoop_room wide whole.owned whole.typed.1
    (Nat.le_refl src.length) fits low high room
  obtain ⟨⟨result, d', ip'⟩, ran, rest⟩ :
      ∃ r, writei sb d i ip off src = .ok r ∧ Room sb r.2.1 r.2.2 start n := by
    rw [writei, if_neg whole.typed.2, Nat.mod_eq_of_lt (by omega), if_neg (by omega),
      if_neg (by omega), looped, bind_ok]
    dsimp only
    split
    · exact ⟨_, rfl, left.of_number rfl (number_congr rfl rfl)⟩
    · exact ⟨_, rfl, left⟩
  obtain ⟨count, replaced⟩ := ends.of_ok ran
  subst count
  exact ⟨d', ip', ran, replaced, rest⟩

theorem readi_refuses (file : ip.type ≠ T_DEV) (refused : ip.size < off ∨ 2 ^ 32 ≤ off + n)
    (offset : off < 2 ^ 32) (length : n < 2 ^ 32) : readi sb d ip off n = .ok (none, d, ip) := by
  rw [readi, if_neg file, if_pos (by omega)]

theorem readi_whole (whole : Whole sb table i d ip) (start : off ≤ ip.size)
    (range : off + n < 2 ^ 32) :
    readi sb d ip off n = .ok (some (((fileBytes d.block ip).drop off).take n), d, ip) := by
  rw [readi_held whole.owned whole.stored start range fun pos _ _ below =>
    whole.held_of_lt below, fileBytes, take_drop_slice]

/-- A regular file is a sequence of bytes. `writei` fails and changes nothing if its range
starts behind the end of the file, wraps, or ends behind the greatest size. Otherwise, with
enough free blocks, it returns the length, the bytes of the range are replaced, and every
block below the new size is there, once. `readi` gives the bytes of its range that lie in
the file, and fails if the range starts behind the end or wraps. -/
theorem file_is_byte_sequence (wide : sb.size ≤ 2 ^ 32) (regular : Regular sb table i d ip)
    (offset : off < 2 ^ 32) (length : src.length < 2 ^ 32) (range : n < 2 ^ 32) :
    (ip.size < off ∨ 2 ^ 32 ≤ off + src.length ∨ MAXFILE * BSIZE < off + src.length →
      writei sb d i ip off src = .ok (-1, d, ip)) ∧
    (off ≤ ip.size → off + src.length ≤ MAXFILE * BSIZE → Room sb d ip off src.length →
      ∃ d' ip', writei sb d i ip off src = .ok ((src.length : Int), d', ip') ∧
        Replaced sb table i d ip off src d' ip' ∧
        ∀ bn bn', bn * BSIZE < ip'.size →
          addrOf d'.block ip' bn = addrOf d'.block ip' bn' → bn = bn') ∧
    (ip.size < off ∨ 2 ^ 32 ≤ off + n → readi sb d ip off n = .ok (none, d, ip)) ∧
    (off ≤ ip.size → off + n < 2 ^ 32 →
      readi sb d ip off n = .ok (some (((fileBytes d.block ip).drop off).take n), d, ip)) := by
  have limit : MAXFILE * BSIZE < 2 ^ 32 := by decide
  refine ⟨fun refused => ?_, fun inside fits room => ?_, fun refused => ?_, fun start fits => ?_⟩
  · refine writei_refuses (fun accepts => ?_) regular.typed.2 offset length
    obtain ⟨inside, fits⟩ := accepts
    omega
  · obtain ⟨d', ip', ran, replaced, -⟩ := writei_returns wide regular.toWhole ⟨inside, fits⟩
      (Nat.le_refl _) (Nat.le_refl _) room
    exact ⟨d', ip', ran, replaced, fun _ _ below same => replaced.whole.distinct below same⟩
  · exact readi_refuses regular.typed.2 refused offset range
  · exact readi_whole regular.toWhole start fits

theorem regular_empty
    (owned : ∀ table, (∀ x, numbers blankDisk.block table x = 0) → Owned sb blankDisk table) :
    Regular sb (fun _ => {}) 1 blankDisk { type := T_FILE, nlink := 1 } := by
  refine ⟨⟨.inr rfl, owned _ fun ⟨j, x⟩ => ?_, fun bn below => absurd below (Nat.not_lt_zero _)⟩,
    rfl⟩
  by_cases here : j = 1
  · subst here
    exact number_empty (fun _ => rfl) x
  · rw [numbers, update_of_ne here]
    exact number_free rfl x

/-- Two blocks are written, then the bytes on both sides of the seam. -/
theorem file_is_byte_sequence_seam : ∃ d₁ ip₁ d₂ ip₂,
    writei smallSuperblock blankDisk 1 { type := T_FILE, nlink := 1 } 0 (List.replicate 600 7) =
      .ok (600, d₁, ip₁) ∧
    writei smallSuperblock d₁ 1 ip₁ 510 [1, 2, 3, 4] = .ok (4, d₂, ip₂) ∧ ip₂.size = 600 ∧
    readi smallSuperblock d₂ ip₂ 508 8 = .ok (some [7, 7, 1, 2, 3, 4, 7, 7], d₂, ip₂) := by
  have length : (List.replicate 600 (7 : UInt8)).length = 600 := List.length_replicate
  have empty := regular_empty fun _ => owned_blankDisk
  have room : Room smallSuperblock blankDisk { type := T_FILE, nlink := 1 } 0
      (List.replicate 600 (7 : UInt8)).length := by
    unfold Room
    decide +kernel
  have again : ∃ r, writei smallSuperblock blankDisk 1 { type := T_FILE, nlink := 1 } 0
      (List.replicate 600 7) = .ok r ∧ Room smallSuperblock r.2.1 r.2.2 510 4 := by
    unfold Room
    decide +kernel
  obtain ⟨d₁, ip₁, first, replaced, -⟩ := (file_is_byte_sequence (by decide) empty
    (by decide : 0 < 2 ^ 32) (by rw [length]; decide) (by decide : 0 < 2 ^ 32)).2.1 (by decide)
    (by rw [length]; decide) room
  obtain ⟨_, ran, room'⟩ := again
  cases ran.symm.trans first
  have size : ip₁.size = 600 := by rw [replaced.size, length]; decide
  have file := replaced.regular empty
  obtain ⟨d₂, ip₂, second, replaced', -⟩ := (file_is_byte_sequence (by decide) file
    (by decide : 510 < 2 ^ 32) (by decide : ([1, 2, 3, 4] : List UInt8).length < 2 ^ 32)
    (by decide : 0 < 2 ^ 32)).2.1 (by rw [size]; decide) (by decide) room'
  have size' : ip₂.size = 600 := by rw [replaced'.size, size]; decide
  have bytes : ((fileBytes d₂.block ip₂).drop 508).take 8 = [7, 7, 1, 2, 3, 4, 7, 7] := by
    rw [replaced'.bytes, replaced.bytes]
    decide +kernel
  have read := (file_is_byte_sequence (by decide) (replaced'.regular file)
    (by decide : 508 < 2 ^ 32) (by decide : ([] : List UInt8).length < 2 ^ 32)
    (by decide : 8 < 2 ^ 32)).2.2.2
    (by rw [size']; decide) (by decide)
  rw [length] at first
  rw [bytes] at read
  exact ⟨d₁, ip₁, d₂, ip₂, first, second, size', read⟩

end Xv6.FileBytes
