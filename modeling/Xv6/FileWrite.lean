import Xv6.FileBytes
import Xv6.SharedOffset

/-! `filewrite` on a regular file. A write is cut into chunks, each with a transaction of
its own. A chunk that does not end below the greatest size of a file is refused and ends
the call with -1, and the chunks before it stay: the file has their bytes and `f->off` has
moved behind them. -/
namespace Xv6.FileWrite
open CheckedC hiding store
open ByteStore NumberLedger DiskBlocks BlockOwnership FileContents FileBytes
open SharedOffset (chunkMax)

variable {sb : Superblock} {d d' : Disk} {table : Nat → Dinode} {ip ip' : Dinode}

/-! ## The call -/

/-- The loop of `filewrite` from `i` on; every turn writes at least one byte. -/
def writeChunks (sb : Superblock) (inum : Nat) (n : Int) (addr : List UInt8) :
    Nat → Nat → Nat → Disk → Dinode → Checked (Nat × Nat × Disk × Dinode)
  | 0, i, off, d, ip => if (i : Int) < n then .error .blocked else .ok (i, off, d, ip)
  | rounds + 1, i, off, d, ip =>
    if (i : Int) < n then do
      let n1 := min (n - i) chunkMax
      let (r, d, ip) ← writei sb d inum ip off ((addr.drop i).take n1.toNat)
      let off := if 0 < r then (off + r.toNat) % 2 ^ 32 else off
      if r < 0 then return (i, off, d, ip)
      else if r ≠ n1 then .error (.panic "short filewrite")
      else writeChunks sb inum n addr rounds (i + r.toNat) off d ip
    else .ok (i, off, d, ip)

/-- `filewrite` for an `FD_INODE` file, with the new `f->off`. -/
def filewrite (sb : Superblock) (inum : Nat) (writable : Bool) (n : Int) (addr : List UInt8)
    (off : Nat) (d : Disk) (ip : Dinode) : Checked (Int × Nat × Disk × Dinode) :=
  if writable = false then .ok (-1, off, d, ip)
  else do
    let (i, off, d, ip) ← writeChunks sb inum n addr n.toNat 0 off d ip
    return (if (i : Int) = n then n else -1, off, d, ip)

/-! ## The chunks -/

/-- How many of `n` bytes a call stores: all of them if they fit, otherwise those of the
chunks that fit. -/
def kept (ip : Dinode) (off n : Nat) : Nat :=
  if off ≤ ip.size then
    if off + n ≤ MAXFILE * BSIZE then n else chunkMax * ((MAXFILE * BSIZE - off) / chunkMax)
  else 0

theorem kept_zero (ip : Dinode) (off : Nat) : kept ip off 0 = 0 := by
  have chunk : chunkMax = 1536 := rfl
  unfold kept
  rw [chunk]
  split
  · split <;> omega
  · rfl

theorem kept_of_accepts (accepts : Accepts ip off (min n chunkMax))
    (size : ip'.size = max ip.size (off + min n chunkMax)) :
    kept ip off n = min n chunkMax + kept ip' (off + min n chunkMax) (n - min n chunkMax) := by
  have chunk : chunkMax = 1536 := rfl
  obtain ⟨inside, fits⟩ := accepts
  unfold kept
  rw [chunk] at fits size ⊢
  have reached : off + min n 1536 ≤ ip'.size := by omega
  rw [if_pos inside, if_pos reached]
  split <;> split <;> omega

theorem le_kept (accepts : Accepts ip off (min n chunkMax)) : min n chunkMax ≤ kept ip off n := by
  rw [kept_of_accepts accepts
    (show (⟨0, 0, 0, 0, max ip.size (off + min n chunkMax), fun _ => 0⟩ : Dinode).size = _ from rfl)]
  exact Nat.le_add_right _ _

theorem kept_of_refused (refused : ¬Accepts ip off (min n chunkMax)) : kept ip off n = 0 := by
  have chunk : chunkMax = 1536 := rfl
  unfold Accepts at refused
  unfold kept
  rw [chunk] at refused ⊢
  split
  · split <;> omega
  · rfl

/-- What a call, or its loop from some turn on, leaves when it has stored `bytes`. -/
def Leaves (sb : Superblock) (table : Nat → Dinode) (i : Nat) (d : Disk) (ip : Dinode) (off : Nat)
    (bytes : List UInt8) (d' : Disk) (ip' : Dinode) : Prop :=
  (bytes = [] ∧ d' = d ∧ ip' = ip) ∨ Replaced sb table i d ip off bytes d' ip'

section
variable {addr : List UInt8} {i off : Nat}

def chunk (addr : List UInt8) (i : Nat) : List UInt8 :=
  (addr.drop i).take (min (addr.length - i) chunkMax)

theorem length_chunk (addr : List UInt8) (i : Nat) :
    (chunk addr i).length = min (addr.length - i) chunkMax := by
  simp [chunk]

theorem writeChunks_turn (more : i < addr.length) :
    writeChunks sb inum addr.length addr (rounds + 1) i off d ip =
      writei sb d inum ip off (chunk addr i) >>= fun (r, d, ip) =>
        let off := if 0 < r then (off + r.toNat) % 2 ^ 32 else off
        if r < 0 then return (i, off, d, ip)
        else if r ≠ (chunk addr i).length then .error (.panic "short filewrite")
        else writeChunks sb inum addr.length addr rounds (i + r.toNat) off d ip := by
  have length := length_chunk addr i
  have count : min ((addr.length : Int) - i) (chunkMax : Int) = ((chunk addr i).length : Int) := by
    omega
  have bytes : (addr.drop i).take (chunk addr i).length = chunk addr i := by rw [length, chunk]
  rw [writeChunks, if_pos (by omega), count]
  dsimp only
  rw [Int.toNat_natCast, bytes]

theorem writeChunks_next (more : i < addr.length) (fits : off + (chunk addr i).length < 2 ^ 32)
    (wrote : writei sb d inum ip off (chunk addr i) =
      .ok (((chunk addr i).length : Int), d', ip')) :
    writeChunks sb inum addr.length addr (rounds + 1) i off d ip =
      writeChunks sb inum addr.length addr rounds (i + (chunk addr i).length)
        (off + (chunk addr i).length) d' ip' := by
  have positive : 0 < chunkMax := by decide
  have length := length_chunk addr i
  have some : (0 : Int) < (chunk addr i).length := by omega
  have kind : ¬ ((chunk addr i).length : Int) < 0 := by omega
  rw [writeChunks_turn more, wrote, bind_ok]
  dsimp only
  rw [if_pos some, Int.toNat_natCast, Nat.mod_eq_of_lt fits, if_neg kind, if_neg (by simp)]

theorem writeChunks_stop (more : i < addr.length)
    (refused : writei sb d inum ip off (chunk addr i) = .ok (-1, d', ip')) :
    writeChunks sb inum addr.length addr (rounds + 1) i off d ip = .ok (i, off, d', ip') := by
  rw [writeChunks_turn more, refused]
  rfl

end

theorem writeChunks_done {addr : List UInt8} :
    writeChunks sb inum addr.length addr rounds addr.length off d ip =
      .ok (addr.length, off, d, ip) := by
  cases rounds <;> rw [writeChunks, if_neg (by omega)]

theorem kept_of_chunk {addr : List UInt8} (accepts : Accepts ip off (chunk addr i).length)
    (size : ip'.size = max ip.size (off + (chunk addr i).length)) :
    kept ip off (addr.length - i) = (chunk addr i).length +
      kept ip' (off + (chunk addr i).length) (addr.length - (i + (chunk addr i).length)) := by
  rw [length_chunk] at *
  rw [kept_of_accepts accepts size, Nat.sub_sub]

section
variable {addr : List UInt8} {i off rounds : Nat} (wide : sb.size ≤ 2 ^ 32)
  (regular : Regular sb table inum d ip) (offset : off < 2 ^ 32)
  (short : addr.length < 2 ^ 32) (start : i ≤ addr.length) (enough : addr.length - i ≤ rounds)
include wide regular offset short start enough

theorem writeChunks_ends :
    Ends (writeChunks sb inum addr.length addr rounds i off d ip) fun r =>
      r.1 = i + kept ip off (addr.length - i) ∧
      r.2.1 = off + kept ip off (addr.length - i) ∧
      Leaves sb table inum d ip off ((addr.drop i).take (kept ip off (addr.length - i)))
        r.2.2.1 r.2.2.2 := by
  induction rounds generalizing i off d ip with
  | zero =>
    obtain rfl : i = addr.length := by omega
    rw [writeChunks_done, Nat.sub_self, kept_zero]
    exact ⟨rfl, rfl, .inl ⟨rfl, rfl, rfl⟩⟩
  | succ rounds ih =>
    by_cases done : i = addr.length
    · subst done
      rw [writeChunks_done, Nat.sub_self, kept_zero]
      exact ⟨rfl, rfl, .inl ⟨rfl, rfl, rfl⟩⟩
    · have more : i < addr.length := by omega
      have positive : 0 < chunkMax := by decide
      have limit : MAXFILE * BSIZE < 2 ^ 32 := by decide
      have length := length_chunk addr i
      by_cases accepts : Accepts ip off (chunk addr i).length
      · have fits := accepts.2
        have ends := writei_replaces wide regular.toWhole accepts
        cases wrote : writei sb d inum ip off (chunk addr i) with
        | error fault =>
          rw [wrote] at ends
          rw [writeChunks_turn more, wrote]
          exact ends
        | ok r =>
          obtain ⟨result, d₁, ip₁⟩ := r
          obtain ⟨rfl, replaced⟩ := ends.of_ok wrote
          have split := kept_of_chunk accepts replaced.size
          rw [writeChunks_next more (by omega) wrote]
          refine (ih (replaced.regular regular) (by omega) (by omega) (by omega)).mono fun r rest => ?_
          obtain ⟨stop, moved, leaves⟩ := rest
          refine ⟨by omega, by omega, .inr ?_⟩
          have bytes : (addr.drop i).take (chunk addr i).length = chunk addr i := by
            rw [length, chunk]
          rw [split, List.take_add, List.drop_drop, bytes]
          rcases leaves with ⟨none, disk, inode⟩ | rest
          · rw [none, List.append_nil, disk, inode]
            exact replaced
          · exact replaced.trans rest rfl accepts.1
      · rw [writeChunks_stop more (writei_refuses accepts regular.typed.2 offset (by omega)),
          kept_of_refused (by rwa [← length])]
        exact ⟨rfl, rfl, .inl ⟨rfl, rfl, rfl⟩⟩

theorem writeChunks_returns (low : first ≤ off)
    (high : off + kept ip off (addr.length - i) ≤ first + n) (room : Room sb d ip first n) :
    ∃ r, writeChunks sb inum addr.length addr rounds i off d ip = .ok r := by
  induction rounds generalizing i off d ip with
  | zero =>
    obtain rfl : i = addr.length := by omega
    exact ⟨_, writeChunks_done⟩
  | succ rounds ih =>
    by_cases done : i = addr.length
    · subst done
      exact ⟨_, writeChunks_done⟩
    · have more : i < addr.length := by omega
      have positive : 0 < chunkMax := by decide
      have limit : MAXFILE * BSIZE < 2 ^ 32 := by decide
      have length := length_chunk addr i
      by_cases accepts : Accepts ip off (chunk addr i).length
      · have fits := accepts.2
        have within : (chunk addr i).length ≤ kept ip off (addr.length - i) := by
          rw [length] at accepts ⊢
          exact le_kept accepts
        obtain ⟨d₁, ip₁, wrote, replaced, left⟩ :=
          writei_returns wide regular.toWhole accepts low (by omega) room
        have split := kept_of_chunk accepts replaced.size
        rw [writeChunks_next more (by omega) wrote]
        exact ih (replaced.regular regular) (by omega) (by omega) (by omega) (by omega) (by omega) left
      · exact ⟨_, writeChunks_stop more (writei_refuses accepts regular.typed.2 offset (by omega))⟩

end

/-! ## What a call keeps -/

/-- The result of a call that has stored the bytes of the chunks that fit. -/
def result (ip : Dinode) (off : Nat) (n : Int) : Int :=
  if (kept ip off n.toNat : Int) = n then n else -1

section
variable {addr : List UInt8} {off : Nat} {n : Int} (wide : sb.size ≤ 2 ^ 32)
  (regular : Regular sb table inum d ip) (offset : off < 2 ^ 32)
  (range : n < 2 ^ 31) (length : addr.length = n.toNat)
include wide regular offset range length

theorem filewrite_ends :
    Ends (filewrite sb inum true n addr off d ip) fun r =>
      r.1 = result ip off n ∧ r.2.1 = off + kept ip off n.toNat ∧
      Leaves sb table inum d ip off (addr.take (kept ip off n.toNat)) r.2.2.1 r.2.2.2 := by
  rw [filewrite, if_neg (by decide), result]
  by_cases negative : n < 0
  · have none : n.toNat = 0 := by omega
    rw [none, writeChunks, if_neg (by omega), kept_zero, bind_ok]
    exact ⟨rfl, rfl, .inl ⟨rfl, rfl, rfl⟩⟩
  · have cast : n = (addr.length : Int) := by omega
    subst cast
    rw [Int.toNat_natCast]
    refine (writeChunks_ends wide regular offset (by omega) (Nat.zero_le _) (by omega)).bind
      fun r found => ?_
    obtain ⟨stop, moved, leaves⟩ := found
    rw [Nat.sub_zero] at stop moved leaves
    rw [Nat.zero_add] at stop
    exact ⟨by simp only [stop], moved, leaves⟩

theorem filewrite_returns (room : Room sb d ip off (kept ip off n.toNat)) :
    ∃ r, filewrite sb inum true n addr off d ip = .ok r := by
  rw [filewrite, if_neg (by decide)]
  by_cases negative : n < 0
  · have none : n.toNat = 0 := by omega
    rw [none, writeChunks, if_neg (by omega)]
    exact ⟨_, rfl⟩
  · have cast : n = (addr.length : Int) := by omega
    subst cast
    rw [Int.toNat_natCast] at room ⊢
    obtain ⟨r, ran⟩ := writeChunks_returns wide regular offset (by omega) (Nat.zero_le _)
      (show addr.length - 0 ≤ addr.length by omega) (Nat.le_refl off) (Nat.le_refl _) room
    rw [ran]
    exact ⟨_, rfl⟩

end

/-- A `filewrite` that fails on a regular file has kept the chunks before the one that does
not fit. The file has exactly their bytes and `f->off` has moved behind them, so nothing has
changed if there are none. The call returns the length if all bytes are stored and -1
otherwise. It can only panic because no block is free. -/
theorem filewrite_keeps_chunks (wide : sb.size ≤ 2 ^ 32) (regular : Regular sb table inum d ip)
    (offset : off < 2 ^ 32) (range : n < 2 ^ 31) (length : addr.length = n.toNat) :
    filewrite sb inum false n addr off d ip = .ok (-1, off, d, ip) ∧
    (Ends (filewrite sb inum true n addr off d ip) fun r =>
      r.1 = result ip off n ∧ r.2.1 = off + kept ip off n.toNat ∧
      Leaves sb table inum d ip off (addr.take (kept ip off n.toNat)) r.2.2.1 r.2.2.2) ∧
    (Room sb d ip off (kept ip off n.toNat) →
      ∃ r, filewrite sb inum true n addr off d ip = .ok r) :=
  ⟨rfl, filewrite_ends wide regular offset range length,
    filewrite_returns wide regular offset range length⟩

/-! ## A write that is too long -/

def largeSuperblock : Superblock := { smallSuperblock with size := 200, nblocks := 196 }

theorem regular_large : Regular largeSuperblock (fun _ => {}) 1 blankDisk
    { type := T_FILE, nlink := 1 } :=
  regular_empty fun _ none => Ledger.empty (by decide) none (by decide +kernel)

/-- One byte more than a file can have, written to an empty file. -/
theorem failed_write_keeps_bytes : ∃ d' ip',
    filewrite largeSuperblock 1 true (MAXFILE * BSIZE + 1 : Nat)
        (List.replicate (MAXFILE * BSIZE + 1) 7) 0 blankDisk { type := T_FILE, nlink := 1 } =
      .ok (-1, 70656, d', ip') ∧
    ip'.size = 70656 ∧ fileBytes d'.block ip' = List.replicate 70656 7 := by
  have room : Room largeSuperblock blankDisk { type := T_FILE, nlink := 1 } 0 70656 := by
    unfold Room
    decide +kernel
  have range : ((MAXFILE * BSIZE + 1 : Nat) : Int) < 2 ^ 31 := by decide
  have length : (List.replicate (MAXFILE * BSIZE + 1) (7 : UInt8)).length =
      ((MAXFILE * BSIZE + 1 : Nat) : Int).toNat := by rw [List.length_replicate, Int.toNat_natCast]
  have stored : kept { type := T_FILE, nlink := 1 } 0 (MAXFILE * BSIZE + 1) = 70656 := by decide
  obtain ⟨⟨n, off, d', ip'⟩, ran⟩ := filewrite_returns (by decide) regular_large
    (show 0 < 2 ^ 32 by decide) range length (by rwa [Int.toNat_natCast, stored])
  have left := (filewrite_ends (by decide) regular_large (by decide) range length).of_ok ran
  rw [result, Int.toNat_natCast, stored] at left
  obtain ⟨rfl, rfl, leaves⟩ := left
  rw [List.take_replicate] at leaves
  rcases leaves with ⟨none, -⟩ | replaced
  · exact absurd (congrArg List.length none) (by rw [List.length_replicate]; decide)
  · refine ⟨d', ip', ran, ?_, ?_⟩
    · rw [replaced.size, List.length_replicate]
      decide
    · have before : fileBytes blankDisk.block { type := T_FILE, nlink := 1 } = [] := rfl
      have count : min 70656 (MAXFILE * BSIZE + 1) = 70656 := by decide
      rw [replaced.bytes, before, count, List.take_nil, List.drop_nil, List.append_nil,
        List.nil_append]

/-- More bytes than a chunk has. -/
@[irreducible] def twoChunks : List UInt8 := List.replicate 2000 7

theorem filewrite_keeps_chunks_two : ∃ d' ip',
    filewrite largeSuperblock 1 true (2000 : Nat) twoChunks 0 blankDisk
        { type := T_FILE, nlink := 1 } = .ok (2000, 2000, d', ip') ∧
      fileBytes d'.block ip' = twoChunks := by
  have range : ((2000 : Nat) : Int) < 2 ^ 31 := by decide
  have length : twoChunks.length = ((2000 : Nat) : Int).toNat := by decide +kernel
  have stored : kept { type := T_FILE, nlink := 1 } 0 2000 = 2000 := by decide
  obtain ⟨-, ends, returns⟩ := filewrite_keeps_chunks (by decide) regular_large
    (show 0 < 2 ^ 32 by decide) range length
  obtain ⟨⟨n, off, d', ip'⟩, ran⟩ := returns (by unfold Room; decide +kernel)
  obtain ⟨rfl, rfl, ⟨nothing, -⟩ | replaced⟩ := ends.of_ok ran
  · exact absurd nothing (by decide +kernel)
  · refine ⟨d', ip', ran, ?_⟩
    rw [replaced.bytes]
    decide +kernel

end Xv6.FileWrite
