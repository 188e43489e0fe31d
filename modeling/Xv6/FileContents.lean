import Xv6.BlockOwnership
import Xv6.WriteThrough

/-! Files on a disk whose blocks have one owner each. A write shows in its file where it
was made and in no other file; truncation returns every block of a file and never
returns a free one. -/
namespace Xv6.FileContents
open CheckedC ByteStore NumberLedger DiskBlocks BlockOwnership WriteThrough Function

variable {sb : Superblock} {d d' : Disk} {table : Nat → Dinode} {ip ip' : Dinode}

/-! ## The table of inodes -/

def inodes (sb : Superblock) (d : Disk) (inum : Nat) : Dinode :=
  if inum < sb.ninodes then d.dinode inum else {}

theorem inodes_update (small : inum < sb.ninodes) (dinode : d'.dinode = update d.dinode inum ip) :
    inodes sb d' = update (inodes sb d) inum ip := by
  funext i
  by_cases here : i = inum
  · subst here
    simp [inodes, small, dinode]
  · simp [inodes, dinode, here]

theorem inodes_congr (dinode : d'.dinode = d.dinode) : inodes sb d' = inodes sb d := by
  funext i
  rw [inodes, inodes, dinode]

theorem update_inodes_self (small : inum < sb.ninodes) :
    update (inodes sb d) inum (d.dinode inum) = inodes sb d := by
  rw [update_eq_self_iff, inodes, if_pos small]

theorem number_congr (type : ip'.type = ip.type) (addrs : ip'.addrs = ip.addrs) (x : Place) :
    number block ip' x = number block ip x := by
  cases x <;> simp only [number, type, addrs]

theorem number_free (free : ip.type = 0) (x : Place) : number block ip x = 0 := by
  cases x <;> simp [number, free]

theorem number_empty (empty : ∀ k, ip.addrs k = 0) (x : Place) : number block ip x = 0 := by
  cases x <;> simp [number, empty]

theorem owned_replace (owned : Owned sb d (update table inum ip))
    (bits : d'.bit = d.bit) (block : d'.block = d.block)
    (same : ∀ x, number d.block ip' x = number d.block ip x) :
    Owned sb d' (update table inum ip') := by
  refine Ledger.congr owned (congrFun bits) fun ⟨i, x⟩ => ?_
  rw [block]
  by_cases here : i = inum
  · subst here
    rw [numbers_update_self, numbers_update_self, same]
  · simp only [numbers, update_of_ne here]

/-! ## Data blocks -/

theorem addrOf_eq_numbers (small : bn < MAXFILE) :
    addrOf block (table i) bn = numbers block table (i, place bn small) := dif_pos small

theorem addrOf_congr (same : numbers block' table' = numbers block table) (i bn : Nat) :
    addrOf block' (table' i) bn = addrOf block (table i) bn := by
  by_cases small : bn < MAXFILE
  · rw [addrOf_eq_numbers small, addrOf_eq_numbers small, same]
  · rw [addrOf, dif_neg small, addrOf, dif_neg small]

theorem addrOf_once (owned : Owned sb d table)
    (same : addrOf d.block (table j) bn' = addrOf d.block (table i) bn)
    (held : addrOf d.block (table i) bn ≠ 0) : j = i ∧ bn' = bn := by
  have small := addrOf_small held
  have small' := addrOf_small (same ▸ held)
  rw [addrOf_eq_numbers small] at same held
  rw [addrOf_eq_numbers small'] at same
  have once := owned.once _ _ same (same ▸ held)
  exact ⟨congrArg Prod.fst once, place_injective small' small (congrArg Prod.snd once)⟩

theorem addrOf_area (owned : Owned sb d (update table i ip))
    (held : addrOf d.block ip bn ≠ 0) : sb.Area (addrOf d.block ip bn) := by
  have inside := owned.area (i, place bn (addrOf_small held))
  rw [← addrOf_eq_numbers, update_self] at inside
  exact inside held

section
variable (owned : Owned sb d table) (held : addrOf d.block (table i) bn ≠ 0)
include owned held

theorem numbers_write_data (data : Bytes) :
    numbers (update d.block (addrOf d.block (table i) bn) data) table = numbers d.block table := by
  refine numbers_write (fun j same => ?_) data
  have small := addrOf_small held
  rw [addrOf_eq_numbers small] at same held
  have once := owned.once _ _ same (same ▸ held)
  exact place_ne_indirect small (congrArg Prod.snd once).symm

theorem contents_write_here (data : Bytes) (within : pos / BSIZE = bn) :
    contents (update d.block (addrOf d.block (table i) bn) data) (table i) pos =
      data (pos % BSIZE) := by
  subst within
  rw [contents, addrOf_congr (numbers_write_data owned held data), if_neg held,
    update_self]

theorem contents_write_apart (data : Bytes) (j pos : Nat) (apart : ¬(j = i ∧ pos / BSIZE = bn)) :
    contents (update d.block (addrOf d.block (table i) bn) data) (table j) pos =
      contents d.block (table j) pos := by
  rw [contents, contents, addrOf_congr (numbers_write_data owned held data)]
  split
  · rfl
  · have other : addrOf d.block (table j) (pos / BSIZE) ≠ addrOf d.block (table i) bn :=
      fun same => apart (addrOf_once owned same held)
    rw [update_of_ne other]

theorem contents_put (fits : r + bytes.length ≤ BSIZE) :
    contents (update d.block (addrOf d.block (table i) bn)
        (put (d.block (addrOf d.block (table i) bn)) r bytes)) (table i) =
      put (contents d.block (table i)) (bn * BSIZE + r) bytes := by
  funext pos
  by_cases within : pos / BSIZE = bn
  · have position := Nat.div_add_mod' pos BSIZE
    have before : contents d.block (table i) pos =
        d.block (addrOf d.block (table i) bn) (pos % BSIZE) := by
      rw [contents, within, if_neg held]
    rw [contents_write_here owned held _ within, put, put, before]
    rw [within] at position
    by_cases inside : r ≤ pos % BSIZE ∧ pos % BSIZE < r + bytes.length
    · rw [if_pos inside, if_pos (by omega), show pos - (bn * BSIZE + r) = pos % BSIZE - r by omega]
    · rw [if_neg inside, if_neg (by omega)]
  · rw [contents_write_apart owned held _ i pos fun both => within both.2, put_of_outside]
    simp only [BSIZE] at *
    omega

end

/-! ## Writing -/

/-- The file of inode `i` has been overwritten from `off` on, and no other file. -/
structure Written (sb : Superblock) (table : Nat → Dinode) (i : Nat) (d : Disk) (ip : Dinode)
    (off : Nat) (bytes : List UInt8) (d' : Disk) (ip' : Dinode) : Prop where
  owned : Owned sb d' (update table i ip')
  others : ∀ j, j ≠ i → contents d'.block (table j) = contents d.block (table j)
  here : contents d'.block ip' = put (contents d.block ip) off bytes

theorem Written.of_grown (grown : Grown sb table i d ip d' ip') :
    Written sb table i d ip off [] d' ip' := by
  refine ⟨grown.owned, fun j other => ?_, ?_⟩
  · simpa [other] using grown.files j
  · simpa using grown.files i

theorem Written.trans (first : Written sb table i d ip off bytes d' ip')
    (second : Written sb table i d' ip' off' bytes' d'' ip'') (next : off' = off + bytes.length) :
    Written sb table i d ip off (bytes ++ bytes') d'' ip'' := by
  subst next
  refine ⟨second.owned, fun j other => ?_, ?_⟩
  · rw [second.others j other, first.others j other]
  · rw [second.here, first.here, put_append]

theorem Written.store (owned : Owned sb d (update table i ip))
    (held : addrOf d.block ip bn ≠ 0) (bytes : List UInt8) (fits : r + bytes.length ≤ BSIZE)
    (offset : bn * BSIZE + r = off) :
    Written sb table i d ip off bytes
      { d with
        block := update d.block (addrOf d.block ip bn)
          (put (d.block (addrOf d.block ip bn)) r bytes) } ip := by
  have value : update table i ip i = ip := update_self _ _ _
  rw [← value] at held
  have data := numbers_write_data owned held (put (d.block (addrOf d.block ip bn)) r bytes)
  have file := contents_put owned held fits
  rw [value] at data file
  refine ⟨owned.congr (fun _ => rfl) (congrFun data), fun j other => ?_, ?_⟩
  · funext pos
    have same := contents_write_apart owned held
      (put (d.block (addrOf d.block ip bn)) r bytes) j pos fun both => other both.1
    rwa [value, update_of_ne other] at same
  · rwa [offset] at file

theorem writeLoop_ends (wide : sb.size ≤ 2 ^ 32) (owned : Owned sb d (update table i ip))
    (typed : ip.type ≠ 0) (enough : src.length ≤ rounds)
    (fits : off + src.length ≤ MAXFILE * BSIZE) :
    Ends (writeLoop sb rounds d ip off src) fun r =>
      Written sb table i d ip off src r.2.1 r.2.2 := by
  induction rounds generalizing d ip off src with
  | zero =>
    obtain rfl : src = [] := List.length_eq_zero_iff.mp (Nat.le_zero.mp enough)
    exact Written.of_grown (Grown.refl owned)
  | succ rounds ih =>
    cases src with
    | nil => exact Written.of_grown (Grown.refl owned)
    | cons byte src =>
      have small : off / BSIZE < MAXFILE := by
        simp only [List.length_cons] at fits
        exact Nat.div_lt_of_lt_mul (by rw [Nat.mul_comm]; omega)
      have rest : off % BSIZE < BSIZE := Nat.mod_lt _ (by decide)
      refine (bmap_ends wide owned typed small).bind fun r found => ?_
      obtain ⟨addr, d₁, ip₁⟩ := r
      dsimp only at found ⊢
      obtain ⟨grown, rfl, held, -⟩ := found
      have area := addrOf_area grown.owned held
      rw [bread_ok area, bind_ok, logWrite_ok area, bind_ok]
      -- The first `m` bytes go into this block, the rest is the next turn's.
      generalize turn : min (byte :: src).length (BSIZE - off % BSIZE) = m
      have length : ((byte :: src).take m).length = m := by
        rw [List.length_take]
        omega
      have stored := Written.store (r := off % BSIZE) grown.owned held ((byte :: src).take m)
        (by omega) (Nat.div_add_mod' off BSIZE)
      have first := (Written.of_grown grown).trans stored rfl
      refine (ih stored.owned (by rwa [grown.type]) ?_ ?_).mono fun r written => ?_
      · simp only [List.length_drop, List.length_cons] at enough turn ⊢
        omega
      · simp only [List.length_drop]
        omega
      · have both := first.trans written (by rw [List.nil_append, length])
        rwa [List.nil_append, List.take_append_drop] at both

theorem owned_resize (owned : Owned sb d (update table i ip)) (size inum : Nat) :
    Owned sb (iupdate d inum { ip with size := size })
      (update table i { ip with size := size }) :=
  owned_replace owned rfl rfl (number_congr rfl rfl)

/-- What a write that takes place leaves. -/
structure Stored (sb : Superblock) (table : Nat → Dinode) (i : Nat) (d : Disk) (ip : Dinode)
    (off : Nat) (src : List UInt8) (r : Int × Disk × Dinode) : Prop where
  file : ip.type ≠ T_DEV
  inside : off ≤ ip.size
  fits : off + src.length ≤ MAXFILE * BSIZE
  count : r.1 = src.length
  type : r.2.2.type = ip.type
  written : Written sb table i d ip off src r.2.1 r.2.2
  size : r.2.2.size = max ip.size (off + src.length)

theorem writei_ends (wide : sb.size ≤ 2 ^ 32) (owned : Owned sb d (update table i ip))
    (typed : ip.type ≠ 0) (offset : off < 2 ^ 32) (length : src.length < 2 ^ 32) :
    Ends (writei sb d i ip off src) fun r =>
      (ip.type = T_DEV ∨ r.1 = -1) ∧ r.2 = (d, ip) ∨ Stored sb table i d ip off src r := by
  unfold writei
  split
  · rename_i device
    exact .inl ⟨.inl device, rfl⟩
  · rename_i file
    split
    · exact .inl ⟨.inr rfl, rfl⟩
    · split
      · exact .inl ⟨.inr rfl, rfl⟩
      · have bounded : off + src.length ≤ MAXFILE * BSIZE := by omega
        have loop := writeLoop_ends wide owned typed (Nat.le_refl src.length) bounded
        cases ran : writeLoop sb src.length d ip off src with
        | error fault =>
          rw [ran] at loop
          exact loop
        | ok r =>
          obtain ⟨off', d', ip'⟩ := r
          have written := loop.of_ok ran
          have wrote := writeLoop_spec ran
          have ends := wrote.ends
          obtain ⟨addrs, shape, -⟩ := wrote.fills
          have size : ip'.size = ip.size := by rw [shape]
          have type : ip'.type = ip.type := by rw [shape]
          rw [bind_ok]
          dsimp only
          split
          · exact .inr ⟨file, by omega, by omega, rfl, type,
              ⟨owned_resize written.owned off' i, written.others, written.here⟩,
              by dsimp only; omega⟩
          · exact .inr ⟨file, by omega, by omega, rfl, type, written, by dsimp only; omega⟩

/-! ## Reading -/

theorem readLoop_held (owned : Owned sb d (update table i ip)) (typed : ip.type ≠ 0)
    (held : ∀ pos, off ≤ pos → pos < off + n → addrOf d.block ip (pos / BSIZE) ≠ 0)
    (enough : n ≤ rounds) :
    readLoop sb rounds d ip off n dst =
      .ok (dst ++ slice (contents d.block ip) off n, d, ip) := by
  induction rounds generalizing off n dst with
  | zero =>
    obtain rfl := Nat.le_zero.mp enough
    simp [readLoop, slice]
  | succ rounds ih =>
    cases n with
    | zero => simp [readLoop, slice]
    | succ n =>
      have here := held off (Nat.le_refl off) (by omega)
      have rest : off % BSIZE < BSIZE := Nat.mod_lt _ (by decide)
      rw [readLoop, bmap_held owned typed here, bind_ok]
      dsimp only
      rw [bread_ok (addrOf_area owned here), bind_ok]
      generalize turn : min (n + 1) (BSIZE - off % BSIZE) = m
      rw [ih (fun pos low high => held pos (by omega) (by omega)) (by omega)]
      -- The bytes of this turn lie in one block.
      have now : slice (d.block (addrOf d.block ip (off / BSIZE))) (off % BSIZE) m =
          slice (contents d.block ip) off m := slice_congr fun i below => by
        have block : (off + i) / BSIZE = off / BSIZE := by
          simp only [BSIZE] at *
          omega
        have byte : (off + i) % BSIZE = off % BSIZE + i := by
          simp only [BSIZE] at *
          omega
        rw [contents, block, byte, if_neg here]
      rw [now, List.append_assoc, slice_append, Nat.add_sub_cancel' (by omega)]

theorem readi_held (owned : Owned sb d (update table i ip))
    (type : ip.type = T_DIR ∨ ip.type = T_FILE) (start : off ≤ ip.size) (range : off + n < 2 ^ 32)
    (held : ∀ pos, off ≤ pos → pos < off + n → pos < ip.size →
      addrOf d.block ip (pos / BSIZE) ≠ 0) :
    readi sb d ip off n =
      .ok (some (slice (contents d.block ip) off (min n (ip.size - off))), d, ip) := by
  have typed : ip.type ≠ 0 ∧ ip.type ≠ T_DEV := by
    rcases type with type | type <;> rw [type] <;> decide
  have count : (if ip.size < off + n then ip.size - off else n) = min n (ip.size - off) := by
    split <;> omega
  rw [readi, if_neg typed.2, Nat.mod_eq_of_lt range, if_neg (by omega), count]
  dsimp only
  rw [readLoop_held owned typed.1 (fun pos low high => held pos low (by omega) (by omega))
      (Nat.le_refl _)]
  rfl

/-! ## Truncation -/

theorem bfree_ok {π : Type} [DecidableEq π] {held : π → Nat} {x : π}
    (ledger : Ledger sb.start sb.size d.bit held) (full : held x ≠ 0) :
    bfree d (held x) = .ok (d.clearBit (held x)) ∧
      Ledger sb.start sb.size (d.clearBit (held x)).bit (update held x 0) := by
  refine ⟨if_pos (ledger.used_number full), ?_⟩
  rw [bit_clearBit]
  exact ledger.clear full

theorem freeSlots_ok (owned : Owned sb d (update table i ip)) (typed : ip.type ≠ 0)
    (direct : ∀ k ∈ ks, k ≠ indirect) :
    ∃ d' ip', List.foldlM freeSlot (d, ip) ks = .ok (d', ip') ∧
      Owned sb d' (update table i ip') ∧ d'.block = d.block ∧ ip'.type = ip.type ∧
      (∀ k ∈ ks, ip'.addrs k = 0) ∧ ∀ k, ip.addrs k = 0 → ip'.addrs k = 0 := by
  induction ks generalizing d ip with
  | nil => exact ⟨d, ip, rfl, owned, rfl, rfl, nofun, fun _ zero => zero⟩
  | cons k ks ih =>
    have other := direct k List.mem_cons_self
    have later := fun l member => direct l (List.mem_cons_of_mem k member)
    rw [List.foldlM_cons]
    by_cases empty : ip.addrs k = 0
    · obtain ⟨d', ip', ran, after, block, type, zero, kept⟩ := ih owned typed later
      rw [freeSlot, if_neg (by simpa using empty), bind_ok]
      exact ⟨d', ip', ran, after, block, type,
        List.forall_mem_cons.mpr ⟨kept k empty, zero⟩, kept⟩
    · have value : numbers d.block (update table i ip) (i, .slot k) = ip.addrs k :=
        numbers_slot typed _ _
      obtain ⟨freed, ledger⟩ := bfree_ok owned (x := (i, .slot k)) (by rwa [value])
      rw [value] at freed ledger
      have next : Owned sb (d.clearBit (ip.addrs k)) (update table i (ip.setAddr k 0)) := by
        rw [Owned, numbers_setAddr typed fun last => absurd last other]
        exact ledger
      obtain ⟨d', ip', ran, after, block, type, zero, kept⟩ := ih next typed later
      have cleared : (ip.setAddr k 0).addrs k = 0 := update_self _ _ _
      rw [freeSlot, if_pos empty, freed, bind_ok, pure_eq_ok, bind_ok]
      refine ⟨d', ip', ran, after, block, type,
        List.forall_mem_cons.mpr ⟨kept k cleared, zero⟩, fun l before => ?_⟩
      by_cases same : l = k
      · rw [same]
        exact kept k cleared
      · exact kept l ((update_of_ne same _ _).trans before)

/-- The numbers left when the first `n` entries of inode `i` are given back. -/
def emptied (held : Nat × Place → Nat) (i n : Nat) : Nat × Place → Nat
  | (j, .entry l) => if j = i ∧ l < n then 0 else held (j, .entry l)
  | (j, .slot k) => held (j, .slot k)

theorem emptied_succ (held : Nat × Place → Nat) (i : Nat) (l : Fin NINDIRECT) :
    emptied held i (l + 1) = update (emptied held i l) (i, .entry l) 0 := by
  funext ⟨j, x⟩
  cases x with
  | slot k => rw [update_of_ne (by simp)]; rfl
  | entry m =>
    by_cases here : (j, Place.entry m) = (i, .entry l)
    · obtain ⟨rfl, rfl⟩ : j = i ∧ m = l := by simpa using here
      simp [emptied]
    · rw [update_of_ne here]
      have apart : j = i → (m : Nat) ≠ l := fun same eq => here (by rw [same, Fin.ext eq])
      simp only [emptied]
      congr 1
      exact propext ⟨fun ⟨same, below⟩ => ⟨same, by have := apart same; omega⟩,
        fun ⟨same, below⟩ => ⟨same, by omega⟩⟩

theorem freeEntries_ok (owned : Owned sb d (update table i ip)) (typed : ip.type ≠ 0)
    (there : ip.addrs indirect ≠ 0) (n : Nat) (bounded : n ≤ NINDIRECT) :
    ∃ d', List.foldlM (freeEntry (d.block (ip.addrs indirect))) d (List.range n) = .ok d' ∧
      d'.block = d.block ∧ Ledger sb.start sb.size d'.bit
        (emptied (numbers d.block (update table i ip)) i n) := by
  induction n with
  | zero =>
    refine ⟨d, rfl, rfl, owned.congr (fun _ => rfl) fun ⟨j, x⟩ => ?_⟩
    cases x <;> simp [emptied]
  | succ n ih =>
    obtain ⟨d₁, ran, block, ledger⟩ := ih (by omega)
    let l : Fin NINDIRECT := ⟨n, bounded⟩
    have value : emptied (numbers d.block (update table i ip)) i n (i, .entry l) =
        entry (d.block (ip.addrs indirect)) n := by
      simp [emptied, numbers, number, typed, there, l]
    rw [List.range_succ, List.foldlM_append, ran, bind_ok, List.foldlM_cons, freeEntry,
      emptied_succ _ i l]
    by_cases empty : entry (d.block (ip.addrs indirect)) n = 0
    · rw [if_neg (by simpa using empty)]
      refine ⟨d₁, rfl, block, ledger.congr (fun _ => rfl) (congrFun ?_)⟩
      rw [update_eq_self_iff]
      exact (value.trans empty).symm
    · obtain ⟨freed, ledger'⟩ := bfree_ok ledger (x := (i, .entry l)) (by rwa [value])
      rw [value] at freed ledger'
      rw [if_pos empty, freed]
      exact ⟨_, rfl, block, ledger'⟩

theorem numbers_clearIndirect :
    numbers block (update table i (ip.setAddr indirect 0)) =
      update (emptied (numbers block (update table i ip)) i NINDIRECT)
        (i, .slot indirect) 0 := by
  funext ⟨j, x⟩
  by_cases here : j = i
  · subst here
    cases x with
    | slot k =>
      by_cases last : k = indirect
      · subst last
        simp [numbers, number, Dinode.setAddr]
      · simp [numbers, number, Dinode.setAddr, emptied, last]
    | entry l => simp [numbers, number, Dinode.setAddr, emptied]
  · cases x <;> simp [numbers, emptied, here]

theorem itrunc_ok (owned : Owned sb d (update table i ip)) (typed : ip.type ≠ 0) :
    ∃ d' ip', itrunc sb d i ip = .ok (d', ip') ∧ Owned sb d' (update table i ip') ∧
      d'.block = d.block ∧ ∀ k, ip'.addrs k = 0 := by
  have direct : ∀ k ∈ (List.finRange NDIRECT).map Fin.castSucc, k ≠ indirect := by
    intro k member
    obtain ⟨l, -, rfl⟩ := List.mem_map.mp member
    exact (Fin.castSucc_lt_last l).ne
  obtain ⟨d₁, ip₁, ran, owned₁, block₁, type₁, zero, -⟩ := freeSlots_ok owned typed direct
  have typed₁ : ip₁.type ≠ 0 := by rwa [type₁]
  have clear (k) (other : k ≠ indirect) : ip₁.addrs k = 0 := by
    obtain ⟨l, rfl⟩ := Fin.exists_castSucc_eq.mpr other
    exact zero _ (List.mem_map.mpr ⟨l, List.mem_finRange l, rfl⟩)
  unfold itrunc
  rw [ran, bind_ok]
  dsimp only
  by_cases there : ip₁.addrs indirect = 0
  · rw [freeEntries, if_neg (by simpa using there), bind_ok, freeSlot,
      if_neg (by simpa using there), bind_ok]
    refine ⟨_, _, rfl, owned_resize owned₁ 0 i, block₁, fun k => ?_⟩
    by_cases last : k = indirect
    · rw [last]
      exact there
    · exact clear k last
  · have value : numbers d₁.block (update table i ip₁) (i, .slot indirect) =
        ip₁.addrs indirect := by rw [numbers_update_self, number, if_neg typed₁]
    have area : sb.Area (ip₁.addrs indirect) := by
      have inside := owned₁.area (i, .slot indirect)
      rw [value] at inside
      exact inside there
    obtain ⟨d₂, entries, block₂, ledger⟩ :=
      freeEntries_ok owned₁ typed₁ there NINDIRECT (Nat.le_refl _)
    obtain ⟨freed, ledger'⟩ := bfree_ok ledger (x := (i, .slot indirect)) (by rwa [emptied, value])
    rw [emptied, value] at freed ledger'
    have after : Owned sb (d₂.clearBit (ip₁.addrs indirect))
        (update table i (ip₁.setAddr indirect 0)) := by
      refine ledger'.congr (fun _ => rfl) (congrFun ?_)
      rw [← numbers_clearIndirect]
      exact congrArg (fun block => numbers block _) block₂
    rw [freeEntries, if_pos there, bread_ok area, bind_ok, entries, bind_ok, freeSlot,
      if_pos there, freed, bind_ok, pure_eq_ok, bind_ok]
    refine ⟨_, _, rfl, owned_resize after 0 i, block₂.trans block₁, fun k => ?_⟩
    by_cases last : k = indirect
    · simp [Dinode.setAddr, last]
    · simp [Dinode.setAddr, last, clear k last]

end Xv6.FileContents
