import Mathlib.Algebra.BigOperators.Group.Finset.Basic
import Mathlib.Algebra.Order.BigOperators.Group.Finset
import Xv6.FileBytes

/-! Appending to files on a disk that is filled from the front: the blocks in use are
those below the first free one. A file that has been appended to since it was empty has
exactly the blocks its size needs, and so has every file on such a disk. -/
namespace Xv6.Appending
open CheckedC ByteStore NumberLedger DiskBlocks BlockOwnership WriteThrough FileContents Function
open FileBytes (portion portion_pos stored writeLoop_turn)

variable {sb : Superblock} {d d' : Disk} {table : Nat → Dinode} {ip ip' : Dinode} {free : Nat}

/-- The blocks below `free` are in use, and the others are zero. -/
structure Packed (sb : Superblock) (d : Disk) (free : Nat) : Prop where
  low : sb.start ≤ free
  high : free ≤ sb.size
  bits : ∀ b < sb.size, d.bit b = decide (b < free)
  zero : ∀ b, free ≤ b → b < sb.size → d.block b = fun _ => 0

section
variable (packed : Packed sb d free)
include packed

theorem balloc_packed (room : free < sb.size) :
    balloc sb d = .ok (free, d.setBit free) ∧ Packed sb (d.setBit free) (free + 1) := by
  have found : (List.range sb.size).find? (fun b => !d.bit b) = some free := by
    rw [List.find?_range_eq_some]
    refine ⟨by simp [packed.bits free room], List.mem_range.mpr room, fun b below => ?_⟩
    simp [packed.bits b (by omega), below]
  have zero : update d.block free (fun _ => 0) = d.block := by
    rw [← packed.zero free (Nat.le_refl free) room, update_eq_self]
  constructor
  · have area : sb.Area free := ⟨packed.low, room⟩
    rw [balloc, found]
    dsimp only
    rw [bzero, logWrite_ok area, bind_ok]
    simp only [Disk.setBit, zero]
    rfl
  · refine ⟨Nat.le_succ_of_le packed.low, room, fun b below => ?_, fun b behind below => ?_⟩
    · rw [bit_setBit]
      by_cases here : b = free
      · subst here
        simp
      · rw [update_of_ne here, packed.bits b below, decide_eq_decide]
        omega
    · exact packed.zero b (by omega) below

theorem Packed.write (used : b < free) (data : Bytes) :
    Packed sb { d with block := update d.block b data } free := by
  refine ⟨packed.low, packed.high, packed.bits, fun c behind below => ?_⟩
  have other : c ≠ b := by omega
  dsimp only
  rw [update_of_ne other]
  exact packed.zero c behind below

theorem Packed.lt_of_owned (owned : Owned sb d table)
    (held : numbers d.block table x ≠ 0) : numbers d.block table x < free := by
  have marked := owned.used_number held
  rw [packed.bits _ (owned.area x held).2] at marked
  exact of_decide_eq_true marked

theorem bmapSlot_packed (k : Fin (NDIRECT + 1)) (room : ip.addrs k = 0 → free < sb.size) :
    ∃ addr d' ip', bmapSlot sb d ip k = .ok (addr, d', ip') ∧
      Packed sb d' (if ip.addrs k = 0 then free + 1 else free) := by
  unfold bmapSlot
  split
  · rename_i empty
    obtain ⟨ran, packed'⟩ := balloc_packed packed (room empty)
    rw [ran]
    exact ⟨_, _, _, rfl, packed'⟩
  · exact ⟨_, _, _, rfl, packed⟩

theorem bmapEntry_packed (area : sb.Area addr) (used : addr < free)
    (room : entry (d.block addr) j = 0 → free < sb.size) :
    ∃ new d', bmapEntry sb d addr j = .ok (new, d') ∧
      Packed sb d' (if entry (d.block addr) j = 0 then free + 1 else free) := by
  unfold bmapEntry
  rw [bread_ok area, bind_ok]
  split
  · rename_i empty
    obtain ⟨ran, packed'⟩ := balloc_packed packed (room empty)
    rw [ran, bind_ok]
    dsimp only
    rw [logWrite_ok area, bind_ok]
    exact ⟨_, _, rfl, packed'.write (Nat.lt_succ_of_lt used) _⟩
  · exact ⟨_, _, rfl, packed⟩

end

/-! ## Files without gaps -/

/-- The file of inode `i` has its first `m` blocks, and an indirect block if one of them
needs it. -/
structure Exact (block : Nat → Bytes) (table : Nat → Dinode) (i m : Nat) : Prop where
  bound : m ≤ MAXFILE
  data : ∀ bn (small : bn < MAXFILE), numbers block table (i, place bn small) = 0 ↔ m ≤ bn
  slot : numbers block table (i, .slot indirect) = 0 ↔ m ≤ NDIRECT

/-- The data blocks and the indirect block of a file of `m` blocks. -/
def blocksFor (m : Nat) : Nat := m + if NDIRECT < m then 1 else 0

theorem blocksFor_mono (le : m ≤ m') : blocksFor m ≤ blocksFor m' := by
  unfold blocksFor
  split <;> split <;> omega

theorem blocksFor_succ (m : Nat) :
    blocksFor (m + 1) = blocksFor m + if m = NDIRECT then 2 else 1 := by
  unfold blocksFor
  split <;> split <;> split <;> omega

theorem Exact.congr {table' : Nat → Dinode} (exact : Exact block table i m)
    (same : ∀ x, numbers block' table' (i, x) = numbers block table (i, x)) :
    Exact block' table' i m :=
  ⟨exact.bound, fun bn small => by rw [same]; exact exact.data bn small,
    by rw [same]; exact exact.slot⟩

section
variable (wide : sb.size ≤ 2 ^ 32) (owned : Owned sb d (update table i ip))
  (typed : ip.type ≠ 0)
include owned typed

theorem bmap_next (packed : Packed sb d free)
    (exact : Exact d.block (update table i ip) i m) (small : m < MAXFILE)
    (count : free' + blocksFor m = free + blocksFor (m + 1)) (room : free' ≤ sb.size) :
    ∃ addr d' ip', bmap sb d ip m = .ok (addr, d', ip') ∧ Packed sb d' free' := by
  have none := (exact.data m small).mpr (Nat.le_refl m)
  rw [blocksFor_succ] at count
  unfold bmap
  split
  · rename_i direct
    have empty : ip.addrs ⟨m, Nat.lt_succ_of_lt direct⟩ = 0 := by
      rwa [numbers_update_self, place, dif_pos direct, number, if_neg typed] at none
    rw [if_neg (Nat.ne_of_lt direct)] at count
    obtain rfl : free' = free + 1 := by omega
    obtain ⟨addr, d', ip', ran, packed'⟩ :=
      bmapSlot_packed packed ⟨m, Nat.lt_succ_of_lt direct⟩ fun _ => room
    rw [if_pos empty] at packed'
    exact ⟨addr, d', ip', ran, packed'⟩
  · rename_i behind
    have below : m - NDIRECT < NINDIRECT := by simp only [MAXFILE] at small; omega
    have first : ip.addrs indirect = 0 ↔ m = NDIRECT := by
      have slot := exact.slot
      rw [numbers_slot typed] at slot
      omega
    rw [if_pos below]
    obtain ⟨addr, d₁, ip₁, ran, packed₁⟩ := bmapSlot_packed packed indirect fun empty => by
      rw [if_pos (first.mp empty)] at count
      omega
    have slot := (bmapSlot_ends owned typed indirect).of_ok ran
    dsimp only at slot
    obtain ⟨grown, rfl, full, -, others⟩ := slot
    have typed₁ : ip₁.type ≠ 0 := by rwa [grown.type]
    have area := indirect_area grown.owned typed₁ full
    have used := packed₁.lt_of_owned grown.owned (x := (i, .slot indirect))
    rw [numbers_slot typed₁] at used
    have empty : entry (d₁.block (ip₁.addrs indirect)) (m - NDIRECT) = 0 := by
      have still := others (i, .entry ⟨m - NDIRECT, below⟩) (by simp)
      rw [place, dif_neg behind] at none
      rwa [none, numbers_update_self, number_entry typed₁ full] at still
    have next : (if ip.addrs indirect = 0 then free + 1 else free) + 1 = free' := by
      simp only [first]
      split
      · rename_i twelve
        rw [if_pos twelve] at count
        omega
      · rename_i later
        rw [if_neg later] at count
        omega
    obtain ⟨new, d₂, ran₂, packed₂⟩ := bmapEntry_packed packed₁ area (used full) fun _ => by omega
    rw [if_pos empty, next] at packed₂
    rw [ran, bind_ok]
    dsimp only
    rw [ran₂, bind_ok]
    exact ⟨_, _, _, rfl, packed₂⟩

include wide in
theorem bmap_exact (exact : Exact d.block (update table i ip) i m) (small : m < MAXFILE)
    (ran : bmap sb d ip m = .ok (addr, d', ip')) :
    Exact d'.block (update table i ip') i (m + 1) := by
  obtain ⟨grown, value, full, -, others⟩ := (bmap_ends wide owned typed small).of_ok ran
  have typed' : ip'.type ≠ 0 := by rwa [grown.type]
  have here : numbers d'.block (update table i ip') (i, place m small) ≠ 0 := by
    rw [value, addrOf, dif_pos small] at full
    rwa [numbers_update_self]
  refine ⟨small, fun bn small' => ?_, ?_⟩
  · by_cases same : bn = m
    · subst same
      exact iff_of_false here (by omega)
    · have other : (i, place bn small') ≠ (i, place m small) := fun eq =>
        same (place_injective small' small (congrArg Prod.snd eq))
      rw [others _ other (.inr fun eq => place_ne_indirect small' (congrArg Prod.snd eq)),
        exact.data bn small']
      omega
  · by_cases direct : m < NDIRECT
    · rw [others _ (fun eq => place_ne_indirect small (congrArg Prod.snd eq).symm) (.inl direct),
        exact.slot]
      omega
    · refine iff_of_false (fun zero => here ?_) (by omega)
      rw [numbers_slot typed'] at zero
      rw [numbers_update_self, place, dif_neg direct, number, if_pos (.inr zero)]

end

/-! ## Appending -/

def blocks (size : Nat) : Nat := (size + BSIZE - 1) / BSIZE

theorem blocks_zero : blocks 0 = 0 := by decide

theorem blocksFor_zero : blocksFor 0 = 0 := by decide

theorem Exact.addrOf_eq_zero (exact : Exact block table i m) (bn : Nat) :
    addrOf block (table i) bn = 0 ↔ m ≤ bn := by
  by_cases small : bn < MAXFILE
  · rw [addrOf_eq_numbers small, exact.data bn small]
  · exact iff_of_true (dif_neg small) (Nat.le_trans exact.bound (Nat.not_lt.mp small))

theorem bmap_append (wide : sb.size ≤ 2 ^ 32) (owned : Owned sb d (update table i ip))
    (typed : ip.type ≠ 0) (packed : Packed sb d free)
    (exact : Exact d.block (update table i ip) i (blocks off))
    (small : off / BSIZE < MAXFILE)
    (count : free' + blocksFor (blocks off) = free + blocksFor (off / BSIZE + 1))
    (room : free' ≤ sb.size) :
    ∃ addr d' ip', bmap sb d ip (off / BSIZE) = .ok (addr, d', ip') ∧ Packed sb d' free' ∧
      Exact d'.block (update table i ip') i (off / BSIZE + 1) := by
  by_cases start : off % BSIZE = 0
  · have next : blocks off = off / BSIZE := by
      simp only [blocks, BSIZE] at *
      omega
    rw [next] at exact count
    obtain ⟨addr, d', ip', ran, packed'⟩ := bmap_next owned typed packed exact small count room
    exact ⟨addr, d', ip', ran, packed', bmap_exact wide owned typed exact small ran⟩
  · have last : blocks off = off / BSIZE + 1 := by
      simp only [blocks, BSIZE] at *
      omega
    rw [last] at exact count
    obtain rfl : free' = free := by omega
    have held : addrOf d.block ip (off / BSIZE) ≠ 0 := fun zero => by
      have behind := exact.addrOf_eq_zero (off / BSIZE)
      rw [update_self] at behind
      omega
    exact ⟨_, d, ip, bmap_held owned typed held, packed, exact⟩

theorem writeLoop_append (wide : sb.size ≤ 2 ^ 32)
    (owned : Owned sb d (update table i ip)) (typed : ip.type ≠ 0)
    (packed : Packed sb d free)
    (exact : Exact d.block (update table i ip) i (blocks off))
    (enough : src.length ≤ rounds) (fits : off + src.length ≤ MAXFILE * BSIZE)
    (count : free' + blocksFor (blocks off) = free + blocksFor (blocks (off + src.length)))
    (room : free' ≤ sb.size) :
    ∃ off' d' ip', writeLoop sb rounds d ip off src = .ok (off', d', ip') ∧ Packed sb d' free' ∧
      Exact d'.block (update table i ip') i (blocks (off + src.length)) ∧
      ∀ j x, j ≠ i → numbers d'.block (update table i ip') (j, x) =
        numbers d.block (update table i ip) (j, x) := by
  induction rounds generalizing d ip off src free with
  | zero =>
    obtain rfl : src = [] := List.length_eq_zero_iff.mp (Nat.le_zero.mp enough)
    obtain rfl : free' = free := by simpa using count
    exact ⟨off, d, ip, rfl, packed, exact, fun _ _ _ => rfl⟩
  | succ rounds ih =>
    by_cases some : src = []
    · subst some
      obtain rfl : free' = free := by simpa using count
      exact ⟨off, d, ip, rfl, packed, exact, fun _ _ _ => rfl⟩
    have length := List.length_pos_iff.mpr some
    have positive := portion_pos off some
    have small : off / BSIZE < MAXFILE := Nat.div_lt_of_lt_mul (by rw [Nat.mul_comm]; omega)
    have within : portion off src ≤ src.length := Nat.min_le_left _ _
    -- This turn goes to the end of the bytes or of the block.
    have now : blocks (off + portion off src) = off / BSIZE + 1 := by
      simp only [portion, blocks, BSIZE] at *
      omega
    have before : blocksFor (blocks off) ≤ blocksFor (off / BSIZE + 1) :=
      blocksFor_mono (by simp only [blocks, BSIZE]; omega)
    have later : blocksFor (off / BSIZE + 1) ≤ blocksFor (blocks (off + src.length)) := by
      rw [← now]
      exact blocksFor_mono (Nat.div_le_div_right (by omega))
    obtain ⟨free₁, count₁⟩ : ∃ free₁,
        free₁ + blocksFor (blocks off) = free + blocksFor (off / BSIZE + 1) :=
      ⟨free + blocksFor (off / BSIZE + 1) - blocksFor (blocks off), by omega⟩
    obtain ⟨addr, d₁, ip₁, ran, packed₁, exact₁⟩ :=
      bmap_append wide owned typed packed exact small count₁ (by omega)
    obtain ⟨⟨grown, rfl, held, owned₂, -⟩, next⟩ :=
      writeLoop_turn wide owned typed rounds some fits ran
    obtain ⟨-, -, -, -, others⟩ := (bmap_ends wide owned typed small).of_ok ran
    have used := packed₁.lt_of_owned grown.owned (x := (i, place (off / BSIZE) small))
    rw [← addrOf_eq_numbers, update_self] at used
    have data : numbers (stored d₁ (addrOf d₁.block ip₁ (off / BSIZE)) off src).block
        (update table i ip₁) = numbers d₁.block (update table i ip₁) := by
      have same := numbers_write_data (i := i) grown.owned (by rwa [update_self])
      rw [update_self] at same
      exact same _
    have exact₂ := exact₁.congr fun x => congrFun data (i, x)
    rw [← now] at exact₂
    have left : (src.drop (portion off src)).length = src.length - portion off src :=
      List.length_drop
    have ends : off + portion off src + (src.drop (portion off src)).length = off + src.length := by
      omega
    obtain ⟨off', d', ip', looped, packed', exact', others'⟩ :=
      ih owned₂ (by rwa [grown.type]) (packed₁.write (used held) _) exact₂
        (show (src.drop (portion off src)).length ≤ rounds by omega) (by omega)
        (by rw [now, ends]; omega)
    refine ⟨off', d', ip', next.trans looped, packed', by rwa [ends] at exact', fun j x other => ?_⟩
    have first := others (j, x) (fun same => other (congrArg Prod.fst same))
      (.inr fun same => other (congrArg Prod.fst same))
    exact (others' j x other).trans ((congrFun data (j, x)).trans first)

/-! ## A disk of files -/

structure Content where
  type : Int
  bytes : List UInt8

abbrev Files := Nat → Option Content

def cost : Option Content → Nat
  | none => 0
  | some c => blocksFor (blocks c.bytes.length)

def total (files : Files) (n : Nat) : Nat := ∑ i ∈ Finset.range n, cost (files i)

theorem total_update (files : Files) (inside : i < n) (c : Option Content) :
    total (update files i c) n + cost (files i) = total files n + cost c := by
  have member := Finset.mem_range.mpr inside
  unfold total
  rw [← Finset.add_sum_erase _ _ member, ← Finset.add_sum_erase _ (fun j => cost (files j)) member,
    update_self]
  have rest : ∑ j ∈ (Finset.range n).erase i, cost (update files i c j) =
      ∑ j ∈ (Finset.range n).erase i, cost (files j) :=
    Finset.sum_congr rfl fun j other => by
      rw [update_of_ne (Finset.ne_of_mem_erase other)]
  omega

/-- Inode `i` has the file, without gaps and with zeros behind it. -/
structure Keeps (block : Nat → Bytes) (table : Nat → Dinode) (i : Nat) (c : Content) : Prop where
  type : (table i).type = c.type
  size : (table i).size = c.bytes.length
  exact : Exact block table i (blocks c.bytes.length)
  contents : contents block (table i) = put (fun _ => 0) 0 c.bytes

theorem Keeps.congr {table' : Nat → Dinode} (keeps : Keeps block table i c)
    (value : table' i = table i)
    (same : ∀ x, numbers block' table' (i, x) = numbers block table (i, x))
    (file : BlockOwnership.contents block' (table' i) = BlockOwnership.contents block (table i)) :
    Keeps block' table' i c :=
  ⟨by rw [value]; exact keeps.type, by rw [value]; exact keeps.size, keeps.exact.congr same,
    file.trans keeps.contents⟩

/-- The disk has the given files and nothing else, packed from the front. -/
structure Built (sb : Superblock) (d : Disk) (files : Files) : Prop where
  proper : ∀ i c, files i = some c → c.type = T_DIR ∨ c.type = T_FILE
  owned : Owned sb d (inodes sb d)
  packed : Packed sb d (sb.start + total files sb.ninodes)
  unused : ∀ i < sb.ninodes, files i = none → (d.dinode i).type = 0
  keeps : ∀ i < sb.ninodes, ∀ c, files i = some c → Keeps d.block (inodes sb d) i c

theorem Built.typed (built : Built sb d files) (file : files i = some c) :
    c.type ≠ 0 ∧ c.type ≠ T_DEV := by
  rcases built.proper i c file with type | type <;> rw [type] <;> decide

theorem Built.set (built : Built sb d files) (small : i < sb.ninodes)
    (type : c.type = T_DIR ∨ c.type = T_FILE)
    (dinode : d'.dinode = update d.dinode i ip') (owned : Owned sb d' (inodes sb d'))
    (packed : Packed sb d' (sb.start + total (update files i (some c)) sb.ninodes))
    (here : Keeps d'.block (inodes sb d') i c)
    (numbers : ∀ j, j ≠ i → ∀ x, numbers d'.block (inodes sb d') (j, x) =
      numbers d.block (inodes sb d) (j, x))
    (others : ∀ j, j ≠ i → contents d'.block (inodes sb d j) = contents d.block (inodes sb d j)) :
    Built sb d' (update files i (some c)) := by
  refine ⟨fun j c' found => ?_, owned, packed, fun j small' found => ?_,
    fun j small' c' found => ?_⟩
  · by_cases same : j = i
    · rw [same, update_self] at found
      cases found
      exact type
    · rw [update_of_ne same] at found
      exact built.proper j c' found
  · by_cases same : j = i
    · rw [same, update_self] at found
      cases found
    · rw [update_of_ne same] at found
      rw [dinode, update_of_ne same]
      exact built.unused j small' found
  · by_cases same : j = i
    · subst same
      rw [update_self] at found
      cases found
      exact here
    · rw [update_of_ne same] at found
      have value : inodes sb d' j = inodes sb d j := by
        rw [inodes_update small dinode, update_of_ne same]
      exact (built.keeps j small' c' found).congr value (numbers j same)
        (by rw [value]; exact others j same)

theorem Built.create (built : Built sb d files) (small : i < sb.ninodes) (none : files i = none)
    (type : c.type = T_DIR ∨ c.type = T_FILE) (empty : c.bytes = []) {ip : Dinode}
    (same : ip.type = c.type) (size : ip.size = 0) (addrs : ∀ k, ip.addrs k = 0) :
    Built sb (d.setDinode i ip) (update files i (some c)) := by
  have table : inodes sb (d.setDinode i ip) = update (inodes sb d) i ip :=
    inodes_update small rfl
  have zero (x) : number d.block ip x = 0 := number_empty addrs x
  have before : Owned sb d (update (inodes sb d) i (d.dinode i)) := by
    rw [update_inodes_self small]
    exact built.owned
  have value : inodes sb (d.setDinode i ip) i = ip := by rw [table, update_self]
  have unheld (x) : numbers d.block (inodes sb (d.setDinode i ip)) (i, x) = 0 := by
    rw [numbers, value, zero]
  refine built.set small type rfl ?_ ?_ ⟨?_, ?_, ?_, ?_⟩ (fun j other x => ?_) fun _ _ => rfl
  · rw [table]
    exact owned_replace before rfl rfl fun x => by
      rw [zero, number_free (built.unused i small none)]
  · have sum := total_update files small (some c)
    rw [none, cost, cost, empty, List.length_nil, blocks_zero, blocksFor_zero] at sum
    rw [show total (update files i (some c)) sb.ninodes = total files sb.ninodes from sum]
    exact ⟨built.packed.low, built.packed.high, built.packed.bits, built.packed.zero⟩
  · rw [value, same]
  · rw [value, size, empty]
    rfl
  · rw [empty, List.length_nil, blocks_zero]
    exact ⟨Nat.zero_le _, fun bn small => iff_of_true (unheld _) (Nat.zero_le bn),
      iff_of_true (unheld _) (Nat.zero_le _)⟩
  · funext pos
    rw [value, empty, put_nil, contents, if_pos]
    unfold addrOf
    split
    · exact zero _
    · rfl
  · rw [table, numbers, numbers, update_of_ne other]
    rfl

def Content.append (c : Content) (src : List UInt8) : Content := { c with bytes := c.bytes ++ src }

theorem Built.append (wide : sb.size ≤ 2 ^ 32) (built : Built sb d files) (small : i < sb.ninodes)
    (file : files i = some c) (fits : c.bytes.length + src.length ≤ MAXFILE * BSIZE)
    (room : sb.start + total (update files i (some (c.append src))) sb.ninodes ≤ sb.size) :
    ∃ off d' ip', writeLoop sb src.length d (d.dinode i) c.bytes.length src = .ok (off, d', ip') ∧
      Built sb (iupdate d' i { ip' with size := off })
        (update files i (some (c.append src))) := by
  have keeps := built.keeps i small c file
  have self := update_inodes_self (d := d) small
  have value : inodes sb d i = d.dinode i := if_pos small
  have typed : (d.dinode i).type ≠ 0 := by
    rw [← value, keeps.type]
    exact (built.typed file).1
  have owned : Owned sb d (update (inodes sb d) i (d.dinode i)) := by
    rw [self]
    exact built.owned
  have exact : Exact d.block (update (inodes sb d) i (d.dinode i)) i
      (blocks c.bytes.length) := by
    rw [self]
    exact keeps.exact
  have sum := total_update files small (some (c.append src))
  simp only [file, cost, Content.append, List.length_append] at sum
  obtain ⟨off, d', ip', ran, packed', exact', others⟩ := writeLoop_append wide owned typed
    built.packed exact (Nat.le_refl _) fits (by simp only [Content.append]; omega) room
  have written := (writeLoop_ends wide owned typed (Nat.le_refl _) fits).of_ok ran
  have wrote := writeLoop_spec ran
  obtain ⟨addrs, shape, -⟩ := wrote.fills
  have dinode : (iupdate d' i { ip' with size := off }).dinode =
      update d.dinode i { ip' with size := off } := by
    rw [iupdate, Disk.setDinode, wrote.dinode]
  have table : inodes sb (iupdate d' i { ip' with size := off }) =
      update (inodes sb d) i { ip' with size := off } := inodes_update small dinode
  -- Storing the size does not change the block numbers.
  have sized (j x) : numbers d'.block (update (inodes sb d) i { ip' with size := off })
      (j, x) = numbers d'.block (update (inodes sb d) i ip') (j, x) := by
    by_cases here : j = i
    · rw [here, numbers_update_self, numbers_update_self]
      exact number_congr rfl rfl x
    · simp only [numbers, update_of_ne here]
  refine ⟨off, d', ip', ran, built.set small (built.proper i c file) dinode ?_ ?_
    ⟨?_, ?_, ?_, ?_⟩ (fun j other x => ?_) fun j other => written.others j other⟩
  · rw [table]
    exact owned_resize written.owned off i
  · exact ⟨packed'.low, packed'.high, packed'.bits, packed'.zero⟩
  · rw [table, update_self, shape, ← value]
    exact keeps.type
  · rw [table, update_self, Content.append, List.length_append]
    exact wrote.ends
  · rw [table, Content.append, List.length_append]
    exact exact'.congr fun x => sized i x
  · have file' : contents d'.block ip' = put (fun _ => 0) 0 (c.append src).bytes := by
      rw [written.here, ← value, keeps.contents, Content.append, ← put_append, Nat.zero_add]
    rw [table, update_self]
    exact file'
  · have same := others j x other
    rw [self] at same
    rw [table]
    exact (sized j x).trans same

end Xv6.Appending
