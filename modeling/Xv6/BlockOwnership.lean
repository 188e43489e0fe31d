import Xv6.DiskBlocks
import Xv6.NumberLedger

/-! Who owns the blocks. A block number stands in a slot of an inode or in an entry of
its indirect block; the bitmap and these places are a ledger. Each function of the
block layer is described by what it does to the ledger and to the bytes of files: an
allocation fills an empty place with a zeroed block and changes no file, a write changes
the bytes of its range, and truncation empties the places of one inode. -/
namespace Xv6.BlockOwnership
open CheckedC ByteStore DiskBlocks NumberLedger Function

/-! ## Bits -/

theorem getLsbD_mask (b i : Nat) : (mask b).getLsbD i = decide (i = b % 8) := by
  rw [mask, BitVec.getLsbD_shiftLeft, BitVec.getLsbD_one]
  by_cases here : i = b % 8
  · simp [here, Nat.mod_lt]
  · simp [here]
    omega

theorem and_mask_ne_zero (x : BitVec 8) (b : Nat) :
    x &&& mask b ≠ 0#8 ↔ x.getLsbD (b % 8) = true := by
  constructor
  · intro some
    by_contra clear
    refine some (BitVec.eq_of_getLsbD_eq fun i _ => ?_)
    rw [BitVec.getLsbD_and, getLsbD_mask]
    by_cases here : i = b % 8
    · simpa [here, -BitVec.getLsbD_eq_getElem] using clear
    · simp [here]
  · intro set zero
    have bit := congrArg (fun y => y.getLsbD (b % 8)) zero
    simp [BitVec.getLsbD_and, getLsbD_mask, -BitVec.getLsbD_eq_getElem, set] at bit

theorem bit_eq (d : Disk) (b : Nat) : d.bit b = (d.bitmap (b / 8)).getLsbD (b % 8) := by
  rw [Disk.bit, Bool.eq_iff_iff, decide_eq_true_eq, and_mask_ne_zero]

theorem bit_update (d : Disk) (b : Nat) (value : Bool)
    (byte : ∀ i < 8, x.getLsbD i = if i = b % 8 then value else (d.bitmap (b / 8)).getLsbD i) :
    ({ d with bitmap := update d.bitmap (b / 8) x } : Disk).bit = update d.bit b value := by
  funext c
  rw [bit_eq]
  dsimp only
  by_cases same : c / 8 = b / 8
  · rw [same, update_self, byte _ (Nat.mod_lt _ (by decide))]
    by_cases here : c = b
    · simp [here]
    · rw [if_neg (by omega), update_of_ne here, bit_eq, same]
  · have here : c ≠ b := fun equal => same (by rw [equal])
    rw [update_of_ne same, update_of_ne here, bit_eq]

theorem bit_setBit (d : Disk) (b : Nat) : (d.setBit b).bit = update d.bit b true := by
  refine bit_update d b true fun i _ => ?_
  rw [BitVec.getLsbD_or, getLsbD_mask]
  split <;> simp_all

theorem bit_clearBit (d : Disk) (b : Nat) : (d.clearBit b).bit = update d.bit b false := by
  refine bit_update d b false fun i small => ?_
  rw [BitVec.getLsbD_and, BitVec.getLsbD_not, getLsbD_mask]
  split <;> simp_all

/-! ## Places -/

/-- Where an inode keeps block numbers. -/
inductive Place where
  | slot (k : Fin (NDIRECT + 1))
  | entry (j : Fin NINDIRECT)
  deriving DecidableEq

/-- The number in a place; an inode without a type has none. -/
def number (block : Nat → Bytes) (ip : Dinode) : Place → Nat
  | .slot k => if ip.type = 0 then 0 else ip.addrs k
  | .entry j =>
    if ip.type = 0 ∨ ip.addrs indirect = 0 then 0 else entry (block (ip.addrs indirect)) j

/-- The numbers in all places of a table of inodes. -/
def numbers (block : Nat → Bytes) (table : Nat → Dinode) (x : Nat × Place) : Nat :=
  number block (table x.1) x.2

/-- Bitmap and inodes agree: every number is a data block, stands in one place, and the
bits are those of the other blocks and of these. -/
def Owned (sb : Superblock) (d : Disk) (table : Nat → Dinode) : Prop :=
  Ledger sb.start sb.size d.bit (numbers d.block table)

def place (bn : Nat) (small : bn < MAXFILE) : Place :=
  if direct : bn < NDIRECT then .slot ⟨bn, Nat.lt_succ_of_lt direct⟩
  else .entry ⟨bn - NDIRECT, by simp only [MAXFILE, NDIRECT] at *; omega⟩

/-- The number of the block with index `bn` of a file, zero when there is none. -/
def addrOf (block : Nat → Bytes) (ip : Dinode) (bn : Nat) : Nat :=
  if small : bn < MAXFILE then number block ip (place bn small) else 0

/-- The byte of a file at a position; a block that is not there reads as zeros. -/
def contents (block : Nat → Bytes) (ip : Dinode) (pos : Nat) : UInt8 :=
  if addrOf block ip (pos / BSIZE) = 0 then 0
  else block (addrOf block ip (pos / BSIZE)) (pos % BSIZE)

theorem place_ne_indirect (small : bn < MAXFILE) : place bn small ≠ .slot indirect := by
  unfold place
  split
  · intro same
    have value := congrArg Fin.val (Place.slot.inj same)
    simp only [indirect, Fin.val_last] at value
    omega
  · nofun

theorem place_injective (small : bn < MAXFILE) (small' : bn' < MAXFILE)
    (same : place bn small = place bn' small') : bn = bn' := by
  unfold place at same
  split at same
  · split at same
    · exact congrArg Fin.val (Place.slot.inj same)
    · cases same
  · split at same
    · cases same
    · have value := congrArg Fin.val (Place.entry.inj same)
      simp only at value
      omega

/-! ## Runs that end or run out of blocks -/

/-- The run ends as described, or panics because no block is free. -/
def Ends (run : Checked α) (post : α → Prop) : Prop :=
  match run with
  | .ok value => post value
  | .error fault => fault = .panic "balloc: out of blocks"

theorem Ends.bind {first : Checked α} {next : α → Checked β} (ends : Ends first middle)
    (rest : ∀ value, middle value → Ends (next value) post) : Ends (first >>= next) post := by
  cases first with
  | ok value => exact rest value ends
  | error fault => exact ends

theorem Ends.mono {run : Checked α} (ends : Ends run post)
    (weaker : ∀ value, post value → post' value) : Ends run post' := by
  cases run with
  | ok value => exact weaker value ends
  | error fault => exact ends

theorem Ends.of_ok {run : Checked α} (ends : Ends run post) (ran : run = .ok value) :
    post value := by
  rw [ran] at ends
  exact ends

theorem bread_ok (area : sb.Area b) : bread sb d b = .ok (d.block b) := if_pos area

theorem logWrite_ok (area : sb.Area b) :
    logWrite sb d b data = .ok { d with block := update d.block b data } := if_pos area

/-! ## Entries of an indirect block -/

theorem entry_setEntry (a : Bytes) (fits : addr < 2 ^ 32) : entry (setEntry a j addr) j = addr :=
  load_store a (4 * j) (by simpa using fits)

theorem entry_setEntry_of_ne (a : Bytes) (apart : j' ≠ j) :
    entry (setEntry a j addr) j' = entry a j' :=
  load_store_of_apart (by omega)

theorem entry_zero (j : Nat) : entry (fun _ => 0) j = 0 := load_zero fun _ _ => rfl

/-! ## Numbers under a change -/

variable {sb : Superblock} {d : Disk} {table : Nat → Dinode} {ip : Dinode}

theorem numbers_write (unused : ∀ i, numbers block table (i, .slot indirect) ≠ b) (data : Bytes) :
    numbers (update block b data) table = numbers block table := by
  funext ⟨i, place⟩
  cases place with
  | slot k => rfl
  | entry j =>
    have apart := unused i
    simp only [numbers, number] at apart ⊢
    split
    · rfl
    · rename_i there
      rw [if_neg fun free => there (.inl free)] at apart
      rw [update_of_ne apart]

theorem numbers_setAddr (typed : ip.type ≠ 0)
    (entries : k = indirect → ip.addrs indirect = 0 ∧ ∀ j, entry (block addr) j = 0) :
    numbers block (update table i (ip.setAddr k addr)) =
      update (numbers block (update table i ip)) (i, .slot k) addr := by
  funext ⟨j, place⟩
  by_cases here : j = i
  · subst here
    cases place with
    | slot l =>
      by_cases same : l = k
      · subst same
        simp [numbers, number, Dinode.setAddr, typed]
      · simp [numbers, number, Dinode.setAddr, typed, same]
    | entry l =>
      by_cases last : k = indirect
      · subst last
        simp [numbers, number, Dinode.setAddr, typed, entries]
      · simp [numbers, number, Dinode.setAddr, typed, Ne.symm last]
  · simp [numbers, here]

theorem numbers_setEntry (typed : ip.type ≠ 0) (there : ip.addrs indirect ≠ 0)
    (fits : addr < 2 ^ 32)
    (once : ∀ j, j ≠ i →
      numbers block (update table i ip) (j, .slot indirect) ≠ ip.addrs indirect)
    (l : Fin NINDIRECT) :
    numbers (update block (ip.addrs indirect)
        (setEntry (block (ip.addrs indirect)) l addr)) (update table i ip) =
      update (numbers block (update table i ip)) (i, .entry l) addr := by
  funext ⟨j, place⟩
  by_cases here : j = i
  · subst here
    cases place with
    | slot k => simp [numbers, number]
    | entry m =>
      by_cases same : m = l
      · subst same
        simp [numbers, number, typed, there, entry_setEntry _ fits]
      · have apart : (m : Nat) ≠ l := fun eq => same (Fin.ext eq)
        simp [numbers, number, typed, there, same, entry_setEntry_of_ne _ apart]
  · rw [update_of_ne (by simp [here])]
    cases place with
    | slot k => rfl
    | entry m =>
      have other := once j here
      simp only [numbers, number, update_of_ne here] at other ⊢
      split
      · rfl
      · rename_i there
        rw [if_neg fun free => there (.inl free)] at other
        rw [update_of_ne other]

/-! ## Allocation -/

theorem numbers_update_self (block : Nat → Bytes) (table : Nat → Dinode) (i : Nat) (ip : Dinode)
    (x : Place) : numbers block (update table i ip) (i, x) = number block ip x := by
  rw [numbers, update_self]

theorem number_entry (typed : ip.type ≠ 0) (there : ip.addrs indirect ≠ 0)
    (block : Nat → Bytes) (l : Fin NINDIRECT) :
    number block ip (.entry l) = entry (block (ip.addrs indirect)) l := by
  rw [number, if_neg (by simp [typed, there])]

theorem numbers_slot (typed : ip.type ≠ 0) (block : Nat → Bytes) (k : Fin (NDIRECT + 1)) :
    numbers block (update table i ip) (i, .slot k) = ip.addrs k := by
  rw [numbers_update_self, number, if_neg typed]

theorem indirect_area (owned : Owned sb d (update table i ip)) (typed : ip.type ≠ 0)
    (there : ip.addrs indirect ≠ 0) : sb.Area (ip.addrs indirect) := by
  have inside := owned.area (i, .slot indirect)
  rw [numbers_slot typed] at inside
  exact inside there

/-- Block `b` was free and is marked and zeroed, and no number has moved. -/
structure Taken (sb : Superblock) (table : Nat → Dinode) (d : Disk) (b : Nat) (d' : Disk) :
    Prop where
  free : d.bit b = false
  inside : b < sb.size
  nonzero : b ≠ 0
  unheld : ∀ x, numbers d.block table x ≠ b
  bits : d'.bit = update d.bit b true
  blocks : d'.block = update d.block b (fun _ => 0)
  dinode : d'.dinode = d.dinode
  still : numbers d'.block table = numbers d.block table

theorem balloc_found (owned : Owned sb d table)
    (found : (List.range sb.size).find? (fun b => !d.bit b) = some b) :
    ∃ d', balloc sb d = .ok (b, d') ∧ Taken sb table d b d' := by
  have free : d.bit b = false := by simpa using List.find?_some found
  have inside : b < sb.size := List.mem_range.mp (List.mem_of_find?_eq_some found)
  have low := owned.start_le free inside
  have positive := owned.positive
  have unheld := owned.number_ne free inside
  rw [balloc, found]
  dsimp only
  rw [bzero, logWrite_ok ⟨low, inside⟩]
  exact ⟨_, rfl, free, inside, by omega, unheld, bit_setBit d b, rfl, rfl,
    numbers_write (fun j => unheld (j, .slot indirect)) _⟩

theorem balloc_ends (owned : Owned sb d table) :
    Ends (balloc sb d) fun r => Taken sb table d r.1 r.2 := by
  cases found : (List.range sb.size).find? fun b => !d.bit b with
  | none =>
    rw [balloc, found]
    rfl
  | some b =>
    obtain ⟨d', ran, taken⟩ := balloc_found owned found
    rw [ran]
    exact taken

theorem contents_assign {table' : Nat → Dinode}
    (moved : numbers block' table' = update (numbers block table) x b)
    (empty : numbers block table x = 0) (zero : block' b = fun _ => 0)
    (kept : ∀ y : Nat × Place, y.2 ≠ .slot indirect → numbers block table y ≠ 0 →
      block' (numbers block table y) = block (numbers block table y)) (j : Nat) :
    contents block' (table' j) = contents block (table j) := by
  funext pos
  unfold contents addrOf
  split
  · rename_i small
    have after : number block' (table' j) (place (pos / BSIZE) small) =
        update (numbers block table) x b (j, place (pos / BSIZE) small) := by
      rw [← moved]
      rfl
    have before : number block (table j) (place (pos / BSIZE) small) =
        numbers block table (j, place (pos / BSIZE) small) := rfl
    rw [after, before]
    by_cases here : (j, place (pos / BSIZE) small) = x
    · rw [here, update_self, empty, zero]
      simp
    · rw [update_of_ne here]
      split
      · rfl
      · rename_i full
        rw [kept _ (place_ne_indirect small) full]
  · rfl

/-- What an allocation for inode `i` leaves: the ledger in order, every number where it
was and every file as it was; of the inode only `addrs` has changed. -/
structure Grown (sb : Superblock) (table : Nat → Dinode) (i : Nat) (d : Disk) (ip : Dinode)
    (d' : Disk) (ip' : Dinode) : Prop where
  owned : Owned sb d' (update table i ip')
  dinode : d'.dinode = d.dinode
  shape : ∃ addrs, ip' = { ip with addrs := addrs }
  keeps : ∀ x, numbers d.block (update table i ip) x ≠ 0 →
    numbers d'.block (update table i ip') x =
      numbers d.block (update table i ip) x
  files : ∀ j, contents d'.block (update table i ip' j) =
    contents d.block (update table i ip j)

theorem Grown.refl (owned : Owned sb d (update table i ip)) :
    Grown sb table i d ip d ip :=
  ⟨owned, rfl, ⟨ip.addrs, rfl⟩, fun _ _ => rfl, fun _ => rfl⟩

theorem Grown.trans (first : Grown sb table i d ip d' ip') (second : Grown sb table i d' ip' d'' ip'') :
    Grown sb table i d ip d'' ip'' := by
  refine ⟨second.owned, second.dinode.trans first.dinode, ?_, fun x held => ?_, fun j => ?_⟩
  · obtain ⟨addrs, rfl⟩ := first.shape
    obtain ⟨addrs', rfl⟩ := second.shape
    exact ⟨addrs', rfl⟩
  · rw [second.keeps x (by rwa [first.keeps x held]), first.keeps x held]
  · rw [second.files, first.files]

theorem Grown.type (grown : Grown sb table i d ip d' ip') : ip'.type = ip.type := by
  obtain ⟨addrs, rfl⟩ := grown.shape
  rfl

theorem grown_of_assign (owned : Owned sb d (update table i ip))
    (taken : Taken sb (update table i ip) d b d₁)
    (empty : numbers d.block (update table i ip) x = 0)
    (bits : d'.bit = update d.bit b true) (dinode : d'.dinode = d.dinode)
    (shape : ∃ addrs, ip' = { ip with addrs := addrs })
    (moved : numbers d'.block (update table i ip') =
      update (numbers d.block (update table i ip)) x b)
    (zero : d'.block b = fun _ => 0)
    (kept : ∀ y : Nat × Place, y.2 ≠ .slot indirect →
      numbers d.block (update table i ip) y ≠ 0 →
      d'.block (numbers d.block (update table i ip) y) =
        d.block (numbers d.block (update table i ip) y)) :
    Grown sb table i d ip d' ip' := by
  refine ⟨?_, dinode, shape, fun y held => ?_, contents_assign moved empty zero kept⟩
  · have ledger := owned.assign taken.free taken.inside empty
    rwa [← bits, ← moved] at ledger
  · have other : y ≠ x := fun same => held (by rw [same, empty])
    rw [moved, update_of_ne other]

theorem bmapSlot_ends (owned : Owned sb d (update table i ip)) (typed : ip.type ≠ 0)
    (k : Fin (NDIRECT + 1)) :
    Ends (bmapSlot sb d ip k) fun r => Grown sb table i d ip r.2.1 r.2.2 ∧
      r.1 = r.2.2.addrs k ∧ r.1 ≠ 0 ∧ (ip.addrs k ≠ 0 → r = (ip.addrs k, d, ip)) ∧
      ∀ y, y ≠ (i, .slot k) → numbers r.2.1.block (update table i r.2.2) y =
        numbers d.block (update table i ip) y := by
  unfold bmapSlot
  split
  · rename_i empty
    refine (balloc_ends owned).bind fun r taken => ?_
    obtain ⟨b, d'⟩ := r
    have zero : d'.block b = fun _ => 0 := by rw [taken.blocks, update_self]
    have moved : numbers d'.block (update table i (ip.setAddr k b)) =
        update (numbers d.block (update table i ip)) (i, .slot k) b := by
      rw [numbers_setAddr typed fun last => ⟨last ▸ empty, fun j => by rw [zero, entry_zero]⟩,
        taken.still]
    refine ⟨grown_of_assign owned taken ?_ taken.bits taken.dinode ⟨_, rfl⟩ moved zero
      fun y _ _ => ?_, ?_, taken.nonzero, fun full => absurd empty full, fun y other => ?_⟩
    · rw [numbers_slot typed, empty]
    · rw [taken.blocks, update_of_ne (taken.unheld y)]
    · simp [Dinode.setAddr]
    · rw [moved, update_of_ne other]
  · rename_i full
    exact ⟨Grown.refl owned, rfl, full, fun _ => rfl, fun _ _ => rfl⟩

theorem bmapEntry_ends (wide : sb.size ≤ 2 ^ 32) (owned : Owned sb d (update table i ip))
    (typed : ip.type ≠ 0) (there : ip.addrs indirect ≠ 0) (l : Fin NINDIRECT) :
    Ends (bmapEntry sb d (ip.addrs indirect) l) fun r => Grown sb table i d ip r.2 ip ∧
      r.1 = number r.2.block ip (.entry l) ∧ r.1 ≠ 0 ∧
      (number d.block ip (.entry l) ≠ 0 → r = (number d.block ip (.entry l), d)) ∧
      ∀ y, y ≠ (i, .entry l) → numbers r.2.block (update table i ip) y =
        numbers d.block (update table i ip) y := by
  have holds : numbers d.block (update table i ip) (i, .slot indirect) = ip.addrs indirect :=
    numbers_slot typed _ _
  have area := indirect_area owned typed there
  have value (block) := number_entry typed there block l
  unfold bmapEntry
  rw [bread_ok area, bind_ok]
  split
  · rename_i empty
    refine (balloc_ends owned).bind fun r taken => ?_
    obtain ⟨b, d'⟩ := r
    dsimp only at taken ⊢
    have small : b < 2 ^ 32 := taken.inside.trans_le wide
    have apart : ip.addrs indirect ≠ b := by rw [← holds]; exact taken.unheld _
    rw [logWrite_ok area, bind_ok]
    have same : d'.block (ip.addrs indirect) = d.block (ip.addrs indirect) := by
      rw [taken.blocks, update_of_ne apart]
    have alone : ∀ j, j ≠ i → numbers d'.block (update table i ip) (j, .slot indirect) ≠
        ip.addrs indirect := by
      intro j other clash
      rw [taken.still] at clash
      have once := owned.once (j, .slot indirect) (i, .slot indirect) (by rw [clash, holds])
        (by rwa [clash])
      exact other (congrArg Prod.fst once)
    have moved := numbers_setEntry typed there small alone l
    rw [same, taken.still] at moved
    refine ⟨grown_of_assign owned taken ?_ taken.bits taken.dinode ⟨ip.addrs, rfl⟩ moved ?_
      fun y data held => ?_, ?_, taken.nonzero, fun full => ?_, fun y other => ?_⟩
    · rw [numbers_update_self, value, empty]
    · simp only [update_of_ne apart.symm, taken.blocks, update_self]
    · have other : numbers d.block (update table i ip) y ≠ ip.addrs indirect := by
        intro clash
        have once := owned.once y (i, .slot indirect) (by rw [clash, holds]) held
        exact data (congrArg Prod.snd once)
      simp only [update_of_ne other, taken.blocks, update_of_ne (taken.unheld y)]
    · rw [value]
      simp only [update_self]
      rw [entry_setEntry _ small]
    · rw [value] at full
      exact absurd empty full
    · rw [moved, update_of_ne other]
  · rename_i full
    refine ⟨Grown.refl owned, ?_, full, fun _ => ?_, fun _ _ => rfl⟩
    · rw [value]
    · rw [value]

theorem addrOf_small (held : addrOf block ip bn ≠ 0) : bn < MAXFILE := by
  unfold addrOf at held
  split at held
  · assumption
  · exact absurd rfl held

theorem addrOf_direct (typed : ip.type ≠ 0) (direct : bn < NDIRECT) :
    addrOf block ip bn = ip.addrs ⟨bn, Nat.lt_succ_of_lt direct⟩ := by
  rw [addrOf, dif_pos (by simp only [MAXFILE]; omega), place, dif_pos direct, number,
    if_neg typed]

theorem addrOf_entry (below : bn - NDIRECT < NINDIRECT) (behind : ¬bn < NDIRECT) :
    addrOf block ip bn = number block ip (.entry ⟨bn - NDIRECT, below⟩) := by
  rw [addrOf, dif_pos (by simp only [MAXFILE]; omega), place, dif_neg behind]

theorem bmap_ends (wide : sb.size ≤ 2 ^ 32) (owned : Owned sb d (update table i ip))
    (typed : ip.type ≠ 0) (small : bn < MAXFILE) :
    Ends (bmap sb d ip bn) fun r => Grown sb table i d ip r.2.1 r.2.2 ∧
      r.1 = addrOf r.2.1.block r.2.2 bn ∧ r.1 ≠ 0 ∧
      (addrOf d.block ip bn ≠ 0 → r = (addrOf d.block ip bn, d, ip)) ∧
      ∀ y, y ≠ (i, place bn small) → (bn < NDIRECT ∨ y ≠ (i, .slot indirect)) →
        numbers r.2.1.block (update table i r.2.2) y =
          numbers d.block (update table i ip) y := by
  unfold bmap
  split
  · rename_i direct
    refine (bmapSlot_ends owned typed _).mono fun r found => ?_
    obtain ⟨grown, value, full, same, others⟩ := found
    refine ⟨grown, ?_, full, ?_, fun y other _ => others y ?_⟩
    · rw [addrOf_direct (by rwa [grown.type]) direct, value]
    · rwa [addrOf_direct typed direct]
    · rwa [place, dif_pos direct] at other
  · rename_i behind
    have below : bn - NDIRECT < NINDIRECT := by simp only [MAXFILE] at small; omega
    rw [if_pos below]
    refine (bmapSlot_ends owned typed indirect).bind fun r found => ?_
    obtain ⟨addr, d', ip'⟩ := r
    dsimp only at found ⊢
    obtain ⟨grown, rfl, full, same, others⟩ := found
    have typed' : ip'.type ≠ 0 := by rwa [grown.type]
    refine (bmapEntry_ends wide grown.owned typed' full ⟨bn - NDIRECT, below⟩).bind
      fun r found => ?_
    obtain ⟨addr, d''⟩ := r
    obtain ⟨grown', value, nonzero, kept, others'⟩ := found
    refine ⟨grown.trans grown', ?_, nonzero, fun held => ?_, fun y other outside => ?_⟩
    · rw [addrOf_entry below behind, value]
    · rw [addrOf_entry below behind] at held ⊢
      have there : ip.addrs indirect ≠ 0 := fun zero => held (by simp [number, zero])
      obtain ⟨-, rfl, rfl⟩ : _ ∧ d' = d ∧ ip' = ip := by simpa using same there
      obtain ⟨rfl, rfl⟩ : addr = _ ∧ d'' = d' := by simpa using kept held
      rfl
    · rw [place, dif_neg behind] at other
      rw [others' y other, others y (outside.resolve_left behind)]

theorem bmap_held (owned : Owned sb d (update table i ip)) (typed : ip.type ≠ 0)
    (held : addrOf d.block ip bn ≠ 0) :
    bmap sb d ip bn = .ok (addrOf d.block ip bn, d, ip) := by
  have small := addrOf_small held
  unfold bmap
  split
  · rename_i direct
    rw [addrOf_direct typed direct] at held ⊢
    rw [bmapSlot, if_neg held]
    rfl
  · rename_i behind
    have below : bn - NDIRECT < NINDIRECT := by simp only [MAXFILE] at small; omega
    rw [addrOf_entry below behind] at held ⊢
    have there : ip.addrs indirect ≠ 0 := fun zero => held (by simp [number, zero])
    rw [number_entry typed there] at held ⊢
    rw [if_pos below, bmapSlot, if_neg there, pure_eq_ok, bind_ok]
    dsimp only
    rw [bmapEntry, bread_ok (indirect_area owned typed there), bind_ok, if_neg held]
    rfl

/-! ## A small file system -/

def smallSuperblock : Superblock where
  size := 40
  nblocks := 36
  ninodes := 4
  nlog := 0
  logstart := 2
  inodestart := 2
  bmapstart := 3

/-- No inode is in use, and of the blocks only the first four. -/
def blankDisk : Disk where
  bitmap k := if k = 0 then 15#8 else 0#8
  dinode _ := {}
  block _ _ := 0

theorem owned_blankDisk (none : ∀ x, numbers blankDisk.block table x = 0) :
    Owned smallSuperblock blankDisk table :=
  Ledger.empty (by decide) none (by decide)

end Xv6.BlockOwnership
