import Xv6.MkfsImage

/-! The run of `mkfs`. The image has the root directory in inode 1 and the given files in
the inodes from 2 on, with exactly the blocks that their sizes need. The size of the root
is then set to the multiple of the block size behind it, which is one block too many when
the entries fill their last block. -/
namespace Xv6.MkfsRun
open CheckedC hiding store
open ByteStore NumberLedger DiskBlocks BlockOwnership FileContents Appending MkfsImage Function
open Mkfs hiding ialloc balloc

/-! ## The files of an image -/

def layout (root : List UInt8) (data : List (List UInt8)) : Files := fun i =>
  if i = ROOTINO then some ⟨T_DIR, root⟩
  else if 2 ≤ i then data[i - 2]?.map fun bytes => ⟨T_FILE, bytes⟩
  else none

theorem layout_file (small : j < data.length) :
    layout root data (2 + j) = some ⟨T_FILE, data[j]⟩ := by
  simp only [layout, ROOTINO]
  rw [if_neg (by omega), if_pos (by omega), Nat.add_sub_cancel_left,
    List.getElem?_eq_getElem small]
  rfl

theorem layout_none (behind : 2 + data.length ≤ i) : layout root data i = none := by
  simp only [layout, ROOTINO]
  rw [if_neg (by omega), if_pos (by omega), List.getElem?_eq_none (by omega)]
  rfl

theorem update_root (root root' : List UInt8) (data : List (List UInt8)) :
    update (layout root data) ROOTINO (some ⟨T_DIR, root'⟩) =
      layout root' data := by
  funext i
  by_cases here : i = ROOTINO
  · rw [here, update_self]
    rfl
  · rw [update_of_ne here]
    simp only [layout, if_neg here]

theorem layout_nil (root : List UInt8) :
    layout root [] = update (fun _ => none) ROOTINO (some ⟨T_DIR, root⟩) := by
  funext i
  by_cases here : i = ROOTINO
  · rw [here, update_self]
    rfl
  · simp [layout, here]

theorem update_new (root bytes : List UInt8) (data : List (List UInt8)) :
    update (layout root data) (2 + data.length) (some ⟨T_FILE, bytes⟩) =
      layout root (data ++ [bytes]) := by
  funext i
  by_cases here : i = 2 + data.length
  · rw [here, update_self, layout_file (by simp)]
    simp
  · rw [update_of_ne here]
    by_cases old : i < 2 + data.length
    · simp only [layout]
      rw [List.getElem?_append]
      split
      · rfl
      · split
        · rw [if_pos (by omega)]
        · rfl
    · rw [layout_none (by omega), layout_none (by rw [List.length_append]; simp; omega)]

theorem update_last (root bytes bytes' : List UInt8) (data : List (List UInt8)) :
    update (layout root (data ++ [bytes])) (2 + data.length)
      (some ⟨T_FILE, bytes'⟩) = layout root (data ++ [bytes']) := by
  rw [← update_new, update_idem, update_new]

def blocksUsed (root : List UInt8) (data : List (List UInt8)) : Nat :=
  blocksFor (blocks root.length) + (data.map fun bytes => blocksFor (blocks bytes.length)).sum

theorem blocksFor_blocks_mono (le : n ≤ m) : blocksFor (blocks n) ≤ blocksFor (blocks m) :=
  blocksFor_mono (Nat.div_le_div_right (by omega))

theorem blocksUsed_append (root rest : List UInt8) (data more : List (List UInt8)) :
    blocksUsed root data ≤ blocksUsed (root ++ rest) (data ++ more) := by
  have longer : blocksFor (blocks root.length) ≤ blocksFor (blocks (root ++ rest).length) :=
    blocksFor_blocks_mono (by rw [List.length_append]; omega)
  simp only [blocksUsed, List.map_append, List.sum_append]
  omega

theorem blocksUsed_last (root : List UInt8) (data : List (List UInt8)) {bytes bytes' : List UInt8}
    (longer : bytes.length ≤ bytes'.length) :
    blocksUsed root (data ++ [bytes]) ≤ blocksUsed root (data ++ [bytes']) := by
  have last := blocksFor_blocks_mono longer
  simp only [blocksUsed, List.map_append, List.sum_append, List.map_singleton, List.sum_singleton]
  omega

theorem total_layout (root : List UInt8) (data : List (List UInt8))
    (inside : 2 + data.length ≤ n) :
    total (layout root data) n = blocksUsed root data := by
  induction data using List.reverseRecOn with
  | nil =>
    have sum := total_update (n := n) (i := ROOTINO) (fun _ => none)
      (by simp only [ROOTINO]; omega) (some ⟨T_DIR, root⟩)
    have zero : total (fun _ => none) n = 0 := Finset.sum_eq_zero fun _ _ => rfl
    rw [← layout_nil, zero] at sum
    simpa [cost, blocksUsed] using sum
  | append_singleton data bytes ih =>
    simp only [List.length_append, List.length_singleton] at inside
    have sum := total_update (n := n) (i := 2 + data.length) (layout root data)
      (by omega) (some ⟨T_FILE, bytes⟩)
    rw [update_new, layout_none (Nat.le_refl _), ih (by omega)] at sum
    simp only [cost] at sum
    simp only [blocksUsed, List.map_append, List.sum_append, List.map_singleton,
      List.sum_singleton] at sum ⊢
    omega

/-! ## The loops -/

variable {s : Build} {root : List UInt8} {data chunks : List (List UInt8)} {f : Input}
  {files : List Input}

theorem append_root (represents : Represents s (layout root data))
    (small : 2 + data.length ≤ NINODES)
    (fits : root.length + p.length ≤ MAXFILE * BSIZE)
    (room : nmeta + blocksUsed (root ++ p) data ≤ FSSIZE) :
    ∃ s', iappend s ROOTINO p = .ok s' ∧ s'.freeinode = s.freeinode ∧
      Represents s' (layout (root ++ p) data) := by
  have result : update (layout root data) ROOTINO
      (some (Content.append ⟨T_DIR, root⟩ p)) = layout (root ++ p) data := update_root _ _ _
  rw [← result]
  refine represents.append (by decide) rfl fits ?_
  rw [result, total_layout (n := sb.ninodes) _ _ small]
  exact room

theorem append_last (represents : Represents s (layout root (data ++ [bytes])))
    (small : 3 + data.length ≤ NINODES)
    (fits : bytes.length + p.length ≤ MAXFILE * BSIZE)
    (room : nmeta + blocksUsed root (data ++ [bytes ++ p]) ≤ FSSIZE) :
    ∃ s', iappend s (2 + data.length) p = .ok s' ∧ s'.freeinode = s.freeinode ∧
      Represents s' (layout root (data ++ [bytes ++ p])) := by
  have result : update (layout root (data ++ [bytes])) (2 + data.length)
      (some (Content.append ⟨T_FILE, bytes⟩ p)) = layout root (data ++ [bytes ++ p]) :=
    update_last _ _ _ _
  have file : layout root (data ++ [bytes]) (2 + data.length) = some ⟨T_FILE, bytes⟩ := by
    rw [layout_file (by simp)]
    simp
  rw [← result]
  refine represents.append (Nat.lt_of_lt_of_le (by omega) small) file fits ?_
  rw [result, total_layout]
  · exact room
  · rw [List.length_append, List.length_singleton]
    exact Nat.le_trans (by omega) small

theorem append_chunks (represents : Represents s (layout root (data ++ [bytes])))
    (small : 3 + data.length ≤ NINODES)
    (fits : (bytes ++ chunks.flatten).length ≤ MAXFILE * BSIZE)
    (room : nmeta + blocksUsed root (data ++ [bytes ++ chunks.flatten]) ≤ FSSIZE) :
    ∃ s', chunks.foldlM (fun s chunk => iappend s (2 + data.length) chunk) s = .ok s' ∧
      s'.freeinode = s.freeinode ∧
      Represents s' (layout root (data ++ [bytes ++ chunks.flatten])) := by
  induction chunks generalizing s bytes with
  | nil => exact ⟨s, rfl, rfl, by simpa using represents⟩
  | cons chunk chunks ih =>
    rw [List.flatten_cons, ← List.append_assoc] at fits room ⊢
    have shorter : (bytes ++ chunk).length ≤ (bytes ++ chunk ++ chunks.flatten).length := by
      simp only [List.length_append]
      omega
    have now := blocksUsed_last root data shorter
    obtain ⟨s₁, appended, count, represents₁⟩ := append_last (p := chunk) represents small
      (by rw [← List.length_append]; omega) (by omega)
    obtain ⟨s', looped, count', represents'⟩ := ih represents₁ fits room
    refine ⟨s', ?_, count'.trans count, represents'⟩
    rw [List.foldlM_cons, appended, bind_ok, looped]

@[simp] theorem length_direntBytes (inum : Nat) (name : List UInt8) :
    (direntBytes inum name).length = 16 := by
  simp only [direntBytes, strncpy, List.length_append, length_digits, List.length_take,
    List.length_replicate, DIRSIZ]
  omega

def entries (files : List Input) : List (Nat × List UInt8) :=
  (ROOTINO, [46]) :: (ROOTINO, [46, 46]) :: (files.zipIdx 2).map fun x => (x.2, x.1.name)

def direntsBytes (entries : List (Nat × List UInt8)) : List UInt8 :=
  entries.flatMap fun e => direntBytes e.1 e.2

theorem length_direntsBytes (entries : List (Nat × List UInt8)) :
    (direntsBytes entries).length = 16 * entries.length := by
  induction entries with
  | nil => rfl
  | cons e entries ih =>
    rw [direntsBytes, List.flatMap_cons, List.length_append, length_direntBytes]
    rw [direntsBytes] at ih
    rw [ih, List.length_cons]
    omega

theorem length_entries (files : List Input) :
    (direntsBytes (entries files)).length = 16 * (2 + files.length) := by
  rw [length_direntsBytes]
  simp only [entries, List.length_cons, List.length_map, List.length_zipIdx]
  omega

theorem addFile_ok (represents : Represents s (layout root data))
    (count : s.freeinode = 2 + data.length) (plain : 47 ∉ f.arg)
    (small : 3 + data.length ≤ NINODES) (rootFits : root.length + 16 ≤ MAXFILE * BSIZE)
    (fits : f.bytes.length ≤ MAXFILE * BSIZE)
    (room : nmeta + blocksUsed (root ++ direntBytes (2 + data.length) f.name)
      (data ++ [f.bytes]) ≤ FSSIZE) :
    ∃ s', addFile s f = .ok s' ∧ s'.freeinode = 3 + data.length ∧
      Represents s' (layout (root ++ direntBytes (2 + data.length) f.name)
        (data ++ [f.bytes])) := by
  obtain ⟨s₁, allocated, count₁, represents₁⟩ := represents.create
    (by rw [count]; exact Nat.lt_of_lt_of_le (by omega) small)
    (by rw [count]; exact layout_none (Nat.le_refl _)) (.inr rfl)
  rw [count] at allocated count₁ represents₁
  rw [update_new] at represents₁
  have length : (data ++ [([] : List UInt8)]).length = data.length + 1 := by simp
  have early := blocksUsed_last (root ++ direntBytes (2 + data.length) f.name) data
    (show ([] : List UInt8).length ≤ f.bytes.length from Nat.zero_le _)
  obtain ⟨s₂, entered, count₂, represents₂⟩ := append_root represents₁
    (by rw [length]; exact Nat.le_trans (by omega) small)
    (p := direntBytes (2 + data.length) f.name) (by rwa [length_direntBytes]) (by omega)
  obtain ⟨s₃, read, count₃, represents₃⟩ := append_chunks represents₂ small
    fits room
  refine ⟨s₃, ?_, by omega, represents₃⟩
  rw [addFile, if_neg plain, allocated, bind_ok]
  dsimp only
  rw [entered, bind_ok, read]

theorem addFiles_ok (represents : Represents s (layout root data))
    (count : s.freeinode = 2 + data.length) (plain : ∀ f ∈ files, 47 ∉ f.arg)
    (small : 2 + data.length + files.length ≤ NINODES)
    (rootFits : root.length + 16 * files.length ≤ MAXFILE * BSIZE)
    (fits : ∀ f ∈ files, f.bytes.length ≤ MAXFILE * BSIZE)
    (room : nmeta + blocksUsed
      (root ++ direntsBytes ((files.zipIdx (2 + data.length)).map fun x => (x.2, x.1.name)))
      (data ++ files.map Input.bytes) ≤ FSSIZE) :
    ∃ s', files.foldlM addFile s = .ok s' ∧
      Represents s' (layout
        (root ++ direntsBytes ((files.zipIdx (2 + data.length)).map fun x => (x.2, x.1.name)))
        (data ++ files.map Input.bytes)) := by
  induction files generalizing s root data with
  | nil => exact ⟨s, rfl, by simpa [direntsBytes] using represents⟩
  | cons f files ih =>
    simp only [List.zipIdx_cons, List.map_cons, direntsBytes, List.flatMap_cons] at room ⊢
    rw [← List.append_assoc, List.append_cons] at room ⊢
    rw [List.length_cons] at small rootFits
    have length : (data ++ [f.bytes]).length = data.length + 1 := by simp
    have rootLength : (root ++ direntBytes (2 + data.length) f.name).length = root.length + 16 := by
      simp
    have first := Nat.le_trans (Nat.add_le_add_left (blocksUsed_append _ _ _ _) nmeta) room
    obtain ⟨s₁, added, count₁, represents₁⟩ := addFile_ok represents count
      (plain f List.mem_cons_self) (by omega) (by omega) (fits f List.mem_cons_self) first
    have next : 2 + data.length + 1 = 2 + (data ++ [f.bytes]).length := by omega
    rw [next] at room ⊢
    obtain ⟨s', looped, represents'⟩ := ih represents₁ (by omega)
      (fun g member => plain g (List.mem_cons_of_mem f member)) (by omega) (by omega)
      (fun g member => fits g (List.mem_cons_of_mem f member)) room
    refine ⟨s', ?_, represents'⟩
    rw [List.foldlM_cons, added, bind_ok, looped]

/-! ## The bitmap -/

/-- The bitmap that `balloc` writes, as the kernel reads it. -/
def marks (used k : Nat) : BitVec 8 := (bitmapBytes used k).toBitVec

theorem bit_marks (d : Disk) (used b : Nat) :
    Disk.bit { d with bitmap := marks used } b = decide (b < used) := by
  induction used with
  | zero => simp [Disk.bit, marks, bitmapBytes]
  | succ used ih =>
    have shift : ∀ k < 8, ((1 : UInt8) <<< UInt8.ofNat k).toBitVec = 1#8 <<< k := by decide
    have next : { d with bitmap := marks (used + 1) } =
        Disk.setBit { d with bitmap := marks used } used := by
      congr 1
      funext k
      by_cases here : k = used / 8
      · subst here
        simp only [marks, bitmapBytes, List.range_succ, List.foldl_append, List.foldl_cons,
          List.foldl_nil, update_self, UInt8.toBitVec_or,
          shift _ (Nat.mod_lt used (by decide)), mask]
      · simp only [marks, bitmapBytes, List.range_succ, List.foldl_append, List.foldl_cons,
          List.foldl_nil, update_of_ne here]
    rw [next, bit_setBit]
    by_cases here : b = used
    · subst here
      simp
    · rw [update_of_ne here, ih, decide_eq_decide]
      omega

/-! ## The program -/

theorem balloc_ok (img : Bytes) (small : used ≤ FSSIZE) :
    ∃ img', Mkfs.balloc img used = .ok img' ∧ readsb img' = readsb img ∧
      (mount img').dinode = (mount img).dinode ∧ (mount img').block = (mount img).block ∧
      ∀ b < sb.size, (mount img').bit b = decide (b < used) := by
  have inside : used < BSIZE * 8 := Nat.lt_of_le_of_lt small (by decide)
  refine ⟨_, if_pos inside, readsb_wsect _ _ (by decide), mount_dinode_wsect _ _ (by decide),
    mount_block_wsect_of_outside _ _ (by decide), fun b below => ?_⟩
  have byte : b / 8 < BSIZE := Nat.div_lt_of_lt_mul (Nat.lt_trans below (by decide))
  have value : (mount (wsect img sb.bmapstart (bitmapBytes used))).bitmap (b / 8) =
      marks used (b / 8) := by
    simp only [mount, wsect, blit, marks]
    rw [Nat.div_eq_of_lt byte, Nat.mod_eq_of_lt byte, Nat.zero_add, if_pos (by omega),
      Nat.add_sub_cancel_left]
  rw [← bit_marks (mount img) used b]
  simp only [Disk.bit, value]

theorem represents_empty : Represents ⟨emptyImage, 1, nmeta⟩ fun _ => none := by
  have zero (sec) (other : 1 < sec) : window emptyImage (sec * BSIZE) BSIZE = fun _ => 0 := by
    rw [emptyImage, wsect, window_blit_of_apart (by simp only [BSIZE]; omega)]
    funext x
    simp [window]
  have blank (k) : loadDinode (fun _ => 0) k = {} := by
    simp [loadDinode, loadShort, load_zero]
  have dinode (inum) : (mount emptyImage).dinode inum = {} := by
    by_cases small : inum < NINODES
    · have place := iblock_bounds small
      rw [mount_dinode small, zero _ (by omega), blank]
    · exact if_neg small
  have block (b) : (mount emptyImage).block b = fun _ => 0 := by
    by_cases area : sb.Area b
    · have bounds := area_iff.mp area
      rw [mount_block area, zero _ (by omega)]
    · exact if_neg area
  generalize shape : { mount emptyImage with bitmap := marks nmeta } = d
  have bits (b) : d.bit b = decide (b < nmeta) := by
    rw [← shape]
    exact bit_marks _ _ _
  have packed : Packed sb d nmeta :=
    ⟨by decide, by decide, fun b _ => bits b, fun b _ _ => by rw [← shape]; exact block b⟩
  have free (inum) : (d.dinode inum).type = 0 := by
    rw [← shape]
    exact congrArg Dinode.type (dinode inum)
  have none (x) : numbers d.block (inodes sb d) x = 0 := number_free (by
    unfold inodes
    split
    · exact free x.1
    · rfl) x.2
  have nothing : total (fun _ => Option.none) sb.ninodes = 0 := Finset.sum_eq_zero fun _ _ => rfl
  refine ⟨d, ⟨by decide +kernel, by rw [← shape], by rw [← shape], packed⟩, ?_⟩
  refine ⟨fun i c found => (by cases found), ?_, ?_, fun i _ _ => free i,
    fun i _ c found => (by cases found)⟩
  · exact Ledger.empty (by decide) none fun b _ => by rw [bits, decide_eq_true_iff]; rfl
  · rw [nothing]
    exact packed

/-- What `mkfs` accepts: no argument has a slash, there are inodes for the files, each
file has a size that an inode can have, and there are blocks for the root directory and
the files. -/
structure Admitted (files : List Input) : Prop where
  plain : ∀ f ∈ files, 47 ∉ f.arg
  inodes : 1 + files.length < NINODES
  sizes : ∀ f ∈ files, f.bytes.length ≤ MAXFILE * BSIZE
  blocks : nmeta + blocksUsed (direntsBytes (entries files)) (files.map Input.bytes) ≤ FSSIZE

/-- The image has the given files, up to the size of the root directory. -/
structure Finished (files : List Input) (img : Bytes) (d : Disk) : Prop where
  super : readsb img = sb
  built : Built sb d (layout (direntsBytes (entries files)) (files.map Input.bytes))
  dinode : (mount img).dinode = update d.dinode ROOTINO { d.dinode ROOTINO with
    size := ((direntsBytes (entries files)).length / BSIZE + 1) * BSIZE }
  block : (mount img).block = d.block
  bits : ∀ b < sb.size, (mount img).bit b = d.bit b

theorem finish_ok (represents : Represents s
    (layout (direntsBytes (entries files)) (files.map Input.bytes)))
    (small : 1 + files.length < NINODES) :
    ∃ din img img' d, rinode s.img ROOTINO = .ok din ∧
      winode s.img ROOTINO { din with size := (din.size / BSIZE + 1) * BSIZE } = .ok img ∧
      Mkfs.balloc img s.freeblock = .ok img' ∧ Finished files img' d := by
  obtain ⟨d, shows, built⟩ := represents
  have value : inodes sb d ROOTINO = d.dinode ROOTINO := if_pos (by decide)
  have size : (d.dinode ROOTINO).size = (direntsBytes (entries files)).length := by
    exact (built.keeps ROOTINO (by decide) _ rfl).size
  have length := length_entries files
  have fits := fits_mount s.img ROOTINO
  rw [← shows.dinode] at fits
  have range : Fits { d.dinode ROOTINO with
      size := ((d.dinode ROOTINO).size / BSIZE + 1) * BSIZE } := by
    refine ⟨fits.type, fits.major, fits.minor, fits.nlink, ?_, fits.addrs⟩
    simp only [NINODES, BSIZE] at *
    omega
  obtain ⟨img, stored, dinode, block, kept⟩ :=
    winode_ok s.img (show ROOTINO < NINODES by decide) range
  obtain ⟨img', written, kept', dinode', block', bits⟩ :=
    balloc_ok img shows.packed.high
  refine ⟨_, img, img', d, ?_, stored, written, ?_, built, ?_, ?_, fun b below => ?_⟩
  · rw [rinode_ok (by decide), shows.dinode]
  · rw [kept', kept, shows.super]
  · rw [dinode', dinode, shows.dinode, ← size, shows.dinode]
  · rw [block', block, shows.block]
  · rw [bits b below, shows.packed.bits b below]

theorem main_ok (admitted : Admitted files) :
    ∃ img d, main files = .ok img ∧ Finished files img d := by
  obtain ⟨plain, small, sizes, room⟩ := admitted
  have root : direntsBytes (entries files) = direntBytes ROOTINO [46] ++
      direntBytes ROOTINO [46, 46] ++
      direntsBytes ((files.zipIdx 2).map fun x => (x.2, x.1.name)) := by
    simp [direntsBytes, entries]
  have two := Nat.le_trans (Nat.add_le_add_left (blocksUsed_append _ _ [] _) nmeta) room
  have one := Nat.le_trans (Nat.add_le_add_left (blocksUsed_append _ _ [] []) nmeta) two
  obtain ⟨s₁, allocated, count₁, represents₁⟩ :=
    represents_empty.create (by decide) rfl (.inl rfl)
  rw [← layout_nil] at represents₁
  obtain ⟨s₂, dot, count₂, represents₂⟩ := append_root (p := direntBytes ROOTINO [46])
    represents₁ (by decide) (by decide) one
  obtain ⟨s₃, dotdot, count₃, represents₃⟩ := append_root (p := direntBytes ROOTINO [46, 46])
    represents₂ (by decide) (by decide) two
  have dots : ([] ++ direntBytes ROOTINO [46] ++ direntBytes ROOTINO [46, 46]).length = 32 := by
    decide
  have wide : 16 * NINODES ≤ MAXFILE * BSIZE := by decide
  obtain ⟨s₄, looped, represents₄⟩ := addFiles_ok represents₃
    (by rw [count₃, count₂, count₁]; rfl) plain (by simp only [List.length_nil]; omega)
    (by omega) sizes room
  obtain ⟨din, img, img', d, read, stored, written, finished⟩ := finish_ok represents₄ small
  refine ⟨img', d, ?_, finished⟩
  rw [main, allocated, bind_ok]
  dsimp only
  rw [if_pos rfl, dot, bind_ok, dotdot, bind_ok, looped, bind_ok, read, bind_ok, stored, bind_ok,
    written]

/-! ## Complete images -/

/-- The blocks of the inodes in use are those that their sizes need, each block number
stands in one place and outside the other areas, and the bits are those of these blocks
and of the other areas. -/
structure Complete (d : Disk) : Prop where
  owned : Owned sb d (inodes sb d)
  mapped : ∀ inum < sb.ninodes, (d.dinode inum).type ≠ 0 →
    ∀ bn, addrOf d.block (d.dinode inum) bn ≠ 0 ↔ bn < blocks (d.dinode inum).size
  indirect : ∀ inum < sb.ninodes, (d.dinode inum).type ≠ 0 →
    ((d.dinode inum).addrs indirect ≠ 0 ↔ NDIRECT < blocks (d.dinode inum).size)

section
variable {img : Bytes} {d : Disk} (finished : Finished files img d)
include finished

theorem Finished.inodes_eq : inodes sb (mount img) =
    update (inodes sb d) ROOTINO { d.dinode ROOTINO with
      size := ((direntsBytes (entries files)).length / BSIZE + 1) * BSIZE } :=
  inodes_update (by decide) finished.dinode

theorem Finished.numbers_eq : numbers (mount img).block (inodes sb (mount img)) =
    numbers d.block (inodes sb d) := by
  rw [finished.block, finished.inodes_eq]
  funext ⟨i, x⟩
  by_cases here : i = ROOTINO
  · subst here
    exact number_congr rfl rfl x
  · simp only [numbers, update_of_ne here]

theorem Finished.owned : Owned sb (mount img) (inodes sb (mount img)) := by
  obtain ⟨positive, area, once, exact⟩ := finished.built.owned
  refine ⟨positive, ?_, ?_, fun b below => ?_⟩
  · rwa [finished.numbers_eq]
  · rwa [finished.numbers_eq]
  · rw [finished.numbers_eq, finished.bits b below]
    exact exact b below

theorem Finished.exact (small : inum < sb.ninodes)
    (file : layout (direntsBytes (entries files)) (files.map Input.bytes) inum = some c) :
    Exact (mount img).block (inodes sb (mount img)) inum (blocks c.bytes.length) :=
  (finished.built.keeps inum small c file).exact.congr fun x => by rw [finished.numbers_eq]

theorem Finished.file (small : inum < sb.ninodes) (typed : ((mount img).dinode inum).type ≠ 0) :
    ∃ c, layout (direntsBytes (entries files)) (files.map Input.bytes) inum = some c := by
  cases found : layout (direntsBytes (entries files)) (files.map Input.bytes) inum with
  | some c => exact ⟨c, rfl⟩
  | none =>
    have other : inum ≠ ROOTINO := fun root => by rw [root] at found; cases found
    rw [finished.dinode, update_of_ne other] at typed
    exact absurd (finished.built.unused inum small found) typed

theorem Finished.type (small : inum < sb.ninodes)
    (file : layout (direntsBytes (entries files)) (files.map Input.bytes) inum = some c) :
    ((mount img).dinode inum).type = c.type := by
  have type := (finished.built.keeps inum small c file).type
  rw [inodes, if_pos small] at type
  rw [← type, finished.dinode]
  by_cases root : inum = ROOTINO
  · rw [root, update_self]
  · rw [update_of_ne root]

theorem Finished.size (small : inum < sb.ninodes) (other : inum ≠ ROOTINO)
    (file : layout (direntsBytes (entries files)) (files.map Input.bytes) inum = some c) :
    ((mount img).dinode inum).size = c.bytes.length := by
  rw [finished.dinode, update_of_ne other,
    ← (finished.built.keeps inum small c file).size, inodes, if_pos small]

theorem Finished.rootSize : ((mount img).dinode ROOTINO).size =
    (16 * (2 + files.length) / BSIZE + 1) * BSIZE := by
  rw [finished.dinode, update_self, length_entries]

theorem Finished.blocks_size (small : inum < sb.ninodes)
    (file : layout (direntsBytes (entries files)) (files.map Input.bytes) inum = some c) :
    blocks ((mount img).dinode inum).size = blocks c.bytes.length +
      if inum = ROOTINO ∧ (2 + files.length) % 32 = 0 then 1 else 0 := by
  by_cases root : inum = ROOTINO
  · subst root
    obtain rfl : Content.mk T_DIR (direntsBytes (entries files)) = c := Option.some.inj file
    rw [finished.rootSize, length_entries]
    simp only [blocks, BSIZE, true_and]
    split <;> omega
  · rw [finished.size small root file, if_neg fun both => root both.1]
    rfl

theorem Finished.contents (small : inum < sb.ninodes)
    (file : layout (direntsBytes (entries files)) (files.map Input.bytes) inum = some c) :
    BlockOwnership.contents (mount img).block ((mount img).dinode inum) =
      put (fun _ => 0) 0 c.bytes := by
  have value : inodes sb (mount img) inum = (mount img).dinode inum := if_pos small
  rw [← (finished.built.keeps inum small c file).contents]
  funext pos
  have same := addrOf_congr finished.numbers_eq inum (pos / BSIZE)
  rw [value] at same
  rw [BlockOwnership.contents, BlockOwnership.contents, same, finished.block]

end

theorem Finished.complete (finished : Finished files img d)
    (partly : (2 + files.length) % 32 ≠ 0) : Complete (mount img) := by
  have exact (inum) (small : inum < sb.ninodes) (typed : ((mount img).dinode inum).type ≠ 0) :
      Exact (mount img).block (inodes sb (mount img)) inum
        (blocks ((mount img).dinode inum).size) := by
    obtain ⟨c, file⟩ := finished.file small typed
    rw [finished.blocks_size small file, if_neg fun both => partly both.2]
    exact finished.exact small file
  have value (inum) (small : inum < sb.ninodes) :
      inodes sb (mount img) inum = (mount img).dinode inum := if_pos small
  refine ⟨finished.owned, fun inum small typed bn => ?_, fun inum small typed => ?_⟩
  · have gaps := (exact inum small typed).addrOf_eq_zero bn
    rw [value inum small] at gaps
    rw [Ne, gaps, Nat.not_le]
  · have slot := (exact inum small typed).slot
    rw [numbers, value inum small, number, if_neg typed] at slot
    rw [Ne, slot, Nat.not_le]

theorem Finished.incomplete (finished : Finished files img d) (full : (2 + files.length) % 32 = 0) :
    ¬Complete (mount img) := fun complete => by
  have small : ROOTINO < sb.ninodes := by decide
  have root : layout (direntsBytes (entries files)) (files.map Input.bytes) ROOTINO =
      some ⟨T_DIR, direntsBytes (entries files)⟩ := rfl
  have size := finished.blocks_size small root
  rw [if_pos ⟨rfl, full⟩] at size
  have typed : ((mount img).dinode ROOTINO).type ≠ 0 := by
    rw [finished.type small root]
    exact (by decide : T_DIR ≠ 0)
  have held := (complete.mapped ROOTINO small typed _).mpr (by rw [size]; exact Nat.lt_succ_self _)
  have gaps := ((finished.exact small root).addrOf_eq_zero _).mpr (Nat.le_refl _)
  exact held gaps

/-- The image that `mkfs` writes is complete exactly when the entries of the root directory do
not fill their blocks. -/
theorem image_complete (admitted : Admitted files) :
    ∃ img, main files = .ok img ∧ readsb img = sb ∧
      (Complete (mount img) ↔ (2 + files.length) % 32 ≠ 0) := by
  obtain ⟨img, d, ran, finished⟩ := main_ok admitted
  exact ⟨img, ran, finished.super, fun complete full => finished.incomplete full complete,
    finished.complete⟩

def emptyFile (name : UInt8) : Input := ⟨[name], []⟩

/-- A file of two blocks and an empty one. -/
def twoFiles : List Input := [⟨[95, 99, 97, 116], [List.replicate 512 7, [8]]⟩, emptyFile 65]

theorem image_complete_two : ∃ img,
    main twoFiles = .ok img ∧ readsb img = sb ∧ Complete (mount img) := by
  have admitted : Admitted twoFiles := ⟨by decide, by decide, by decide +kernel, by decide +kernel⟩
  obtain ⟨img, ran, super, exact⟩ := image_complete admitted
  exact ⟨img, ran, super, exact.mpr (by decide)⟩

/-- Thirty files with names of one letter. -/
theorem image_incomplete_thirty : ∃ files : List Input, Admitted files ∧
    (∀ f ∈ files, f.name ≠ []) ∧ (files.map fun f => f.name.take DIRSIZ).Nodup ∧
    ∃ img, main files = .ok img ∧ ¬Complete (mount img) := by
  have admitted : Admitted ((List.range 30).map fun k => emptyFile (UInt8.ofNat (65 + k))) :=
    ⟨by decide, by decide, by decide, by decide +kernel⟩
  obtain ⟨img, d, ran, finished⟩ := main_ok admitted
  exact ⟨_, admitted, by decide, by decide, img, ran, finished.incomplete (by decide)⟩

end Xv6.MkfsRun
