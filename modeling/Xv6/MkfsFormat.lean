import Xv6.MkfsRun

/-! The kernel on an image of `mkfs`: `dirlookup` finds each file by its name in the root
directory, and `readi` gives its bytes. The entries "." and ".." of the root directory come
first, so a file of one of these names is not found. -/
namespace Xv6.MkfsFormat
open CheckedC hiding store
open ByteStore DiskBlocks BlockOwnership FileContents Appending MkfsImage MkfsRun
open Mkfs hiding ialloc balloc

/-! ## Directories -/

/-- `strncmp`, for a string or an array `q` of `n` bytes. A string is given without its end,
which is read as zero. -/
def strncmp (p q : List UInt8) : Nat → Int
  | 0 => 0
  | n + 1 =>
    if p.headD 0 ≠ 0 ∧ p.headD 0 = q.headD 0 then strncmp p.tail q.tail n
    else (p.headD 0).toNat - (q.headD 0).toNat

def namecmp (s t : List UInt8) : Int := strncmp s t DIRSIZ

def direntInum (de : List UInt8) : Nat := load (fun i => de.getD i 0) 0 2

/-- The loop of `dirlookup` from `off` on, with the inode number and the offset of the
entry it finds. -/
def lookupLoop (sb : Superblock) (name : List UInt8) : Nat → Disk → Dinode → Nat →
    Checked (Option (Nat × Nat) × Disk × Dinode)
  | 0, d, dp, off => if off < dp.size then .error .blocked else .ok (none, d, dp)
  | rounds + 1, d, dp, off =>
    if off < dp.size then do
      match ← readi sb d dp off 16 with
      | (none, _, _) => .error (.panic "dirlookup read")
      | (some de, d, dp) =>
        if de.length ≠ 16 then .error (.panic "dirlookup read")
        else if direntInum de ≠ 0 ∧ namecmp name (de.drop 2) = 0 then
          .ok (some (direntInum de, off), d, dp)
        else lookupLoop sb name rounds d dp ((off + 16) % 2 ^ 32)
    else .ok (none, d, dp)

def dirlookup (sb : Superblock) (d : Disk) (dp : Dinode) (name : List UInt8) :
    Checked (Option (Nat × Nat) × Disk × Dinode) :=
  if dp.type = T_DIR then lookupLoop sb name dp.size d dp 0
  else .error (.panic "dirlookup not DIR")

/-! ## Names -/

variable {p q name name' : List UInt8}

theorem strncmp_eq_zero (text : 0 ∉ p) (text' : 0 ∉ q) :
    strncmp p (q.take n ++ List.replicate (n - q.length) 0) n = 0 ↔ p.take n = q.take n := by
  induction n generalizing p q with
  | zero => simp [strncmp]
  | succ n ih =>
    cases p with
    | nil =>
      cases q with
      | nil => simp [strncmp, List.replicate_succ]
      | cons b q =>
        have positive : b.toNat ≠ 0 := fun zero =>
          text' (List.mem_cons.mpr (.inl (UInt8.toNat_inj.mp zero).symm))
        simp [strncmp]
        omega
    | cons a p =>
      have positive : a ≠ 0 := fun zero => text (List.mem_cons.mpr (.inl zero.symm))
      cases q with
      | nil =>
        have : a.toNat ≠ 0 := fun zero => positive (UInt8.toNat_inj.mp zero)
        simp [strncmp, List.replicate_succ, positive]
        omega
      | cons b q =>
        rw [List.length_cons, Nat.succ_sub_succ, List.take_succ_cons, List.cons_append,
          List.take_succ_cons, strncmp]
        by_cases same : a = b
        · subst same
          have rest := ih (fun member => text (List.mem_cons_of_mem a member))
            (fun member => text' (List.mem_cons_of_mem a member))
          simpa [positive] using rest
        · have : a.toNat ≠ b.toNat := fun eq => same (UInt8.toNat_inj.mp eq)
          simp [same]
          omega

theorem direntInum_direntBytes (name : List UInt8) (fits : inum < 2 ^ 16) :
    direntInum (direntBytes inum name) = inum := by
  have stored := load_store (fun _ => 0) 0 (show inum < 256 ^ 2 from fits)
  refine (load_congr fun i below => ?_).trans stored
  have inside : i < (digits inum 2).length := by rwa [length_digits]
  rw [store, put_inside inside, Nat.zero_add, direntBytes, List.getD_eq_getElem?_getD,
    List.getElem?_append_left inside, List.getElem?_eq_getElem inside]
  rfl

theorem drop_direntBytes (inum : Nat) (name : List UInt8) :
    (direntBytes inum name).drop 2 = strncpy name := by
  rw [direntBytes, List.drop_left' (length_digits inum 2)]

theorem namecmp_direntBytes (inum : Nat) (text : 0 ∉ name) (text' : 0 ∉ name') :
    namecmp name ((direntBytes inum name').drop 2) = 0 ↔ name.take DIRSIZ = name'.take DIRSIZ := by
  exact strncmp_eq_zero text text'

/-! ## The files of an image -/

variable {files : List Input} {img : Bytes} {d : Disk} {c : Content}

theorem readi_file (finished : Finished files img d) (small : inum < sb.ninodes)
    (file : layout (direntsBytes (entries files)) (files.map Input.bytes) inum = some c)
    (range : off + n < 2 ^ 32) (start : off ≤ c.bytes.length)
    (size : c.bytes.length ≤ ((mount img).dinode inum).size)
    (ends : off + n ≤ c.bytes.length ∨ ((mount img).dinode inum).size = c.bytes.length) :
    readi sb (mount img) ((mount img).dinode inum) off n =
      .ok (some ((c.bytes.drop off).take n), mount img, (mount img).dinode inum) := by
  have value : inodes sb (mount img) inum = (mount img).dinode inum := if_pos small
  have owned := finished.owned
  rw [← update_inodes_self (d := mount img) small] at owned
  have type := finished.built.proper inum c file
  rw [← finished.type small file] at type
  have held (pos) (below : pos < c.bytes.length) :
      addrOf (mount img).block ((mount img).dinode inum) (pos / BSIZE) ≠ 0 := by
    have gaps := (finished.exact small file).addrOf_eq_zero (pos / BSIZE)
    rw [value] at gaps
    rw [Ne, gaps]
    simp only [blocks, BSIZE]
    omega
  rw [readi_held owned type (by omega) range fun pos _ high below => held pos (by omega),
    finished.contents small file, slice_put _ (by omega)]
  congr 3
  rcases ends with inside | exact
  · rw [Nat.min_eq_left (by omega)]
  · rw [exact, Nat.min_comm, ← List.length_drop, List.take_eq_take_iff]
    omega

/-! ## Lookups -/

section
variable {es : List (Nat × List UInt8)}

theorem direntsBytes_part (inside : k < es.length) :
    ((direntsBytes es).drop (16 * k)).take 16 = direntBytes es[k].1 es[k].2 := by
  induction es generalizing k with
  | nil => cases inside
  | cons e es ih =>
    rw [direntsBytes, List.flatMap_cons]
    cases k with
    | zero => exact List.take_left' (length_direntBytes e.1 e.2)
    | succ k =>
      rw [Nat.mul_succ, Nat.add_comm, ← List.drop_drop,
        List.drop_left' (length_direntBytes e.1 e.2)]
      exact ih (Nat.lt_of_succ_lt_succ inside)

/-- A live entry with the name, as far as `DIRSIZ` bytes tell. -/
def Named (name : List UInt8) (e : Nat × List UInt8) : Prop :=
  e.1 ≠ 0 ∧ e.2.take DIRSIZ = name.take DIRSIZ

instance (name : List UInt8) : DecidablePred (Named name) :=
  fun _ => inferInstanceAs (Decidable (_ ∧ _))

theorem lookupLoop_entries {sb : Superblock} {d : Disk} {dp : Dinode}
    (reads : ∀ e (known : e < es.length), readi sb d dp (16 * e) 16 =
      .ok (some (direntBytes es[e].1 es[e].2), d, dp))
    (size : 16 * es.length ≤ dp.size) (range : dp.size < 2 ^ 32)
    (fits : ∀ e ∈ es, e.1 < 2 ^ 16) (texts : ∀ e ∈ es, 0 ∉ e.2) (text : 0 ∉ name)
    (bound : k ≤ es.length) (before : ∀ e (earlier : e < k), ¬Named name es[e])
    (stop : dp.size ≤ 16 * k ∨ ∃ known : k < es.length, Named name es[k])
    (start : i ≤ k) (enough : dp.size ≤ i + rounds) :
    lookupLoop sb name rounds d dp (16 * i) =
      .ok (es[k]?.map fun e => (e.1, 16 * k), d, dp) := by
  have none (beyond : dp.size ≤ 16 * k) : es[k]? = none := by
    rw [List.getElem?_eq_none_iff]
    omega
  induction rounds generalizing i with
  | zero => rw [lookupLoop, if_neg (by omega), none (by omega), Option.map_none]
  | succ rounds ih =>
    rw [lookupLoop]
    by_cases more : 16 * i < dp.size
    · have known : i < es.length := by
        rcases stop with beyond | ⟨inside, -⟩ <;> omega
      have member := List.getElem_mem known
      have number := direntInum_direntBytes es[i].2 (fits _ member)
      have compare := namecmp_direntBytes es[i].1 text (texts _ member)
      rw [if_pos more, reads i known, bind_ok]
      dsimp only
      rw [if_neg (by simp), number]
      by_cases last : i = k
      · subst last
        have here : Named name es[i] := (stop.resolve_left (by omega)).2
        rw [if_pos ⟨here.1, compare.mpr here.2.symm⟩, List.getElem?_eq_getElem known,
          Option.map_some]
      · rw [if_neg fun found => before i (by omega) ⟨found.1, (compare.mp found.2).symm⟩,
          Nat.mod_eq_of_lt (by omega), ← Nat.mul_succ]
        exact ih (by omega) (by omega)
    · rw [if_neg more, none (by omega), Option.map_none]

end

theorem take_eq_short (short : q.length < n) : q.take n = p.take n ↔ p = q := by
  constructor
  · intro same
    have length := congrArg List.length same
    simp only [List.length_take] at length
    rwa [List.take_of_length_le (by omega), List.take_of_length_le (by omega), eq_comm] at same
  · rintro rfl
    rfl

theorem text_name {f : Input} (text : 0 ∉ f.arg) : 0 ∉ f.name := by
  unfold Input.name
  split
  · rename_i rest shape
    rw [shape] at text
    exact fun member => text (List.mem_cons_of_mem _ member)
  · exact text

theorem getElem_entries (small : j < files.length) (inside : j + 2 < (entries files).length) :
    (entries files)[j + 2] = (2 + j, files[j].name) := by
  simp only [entries, List.getElem_cons_succ, List.getElem_map, List.getElem_zipIdx]

theorem mem_entries (member : e ∈ entries files) :
    e = (ROOTINO, [46]) ∨ e = (ROOTINO, [46, 46]) ∨
      ∃ j, ∃ small : j < files.length, e = (2 + j, files[j].name) := by
  obtain ⟨i, inside, rfl⟩ := List.getElem_of_mem member
  match i with
  | 0 => exact .inl rfl
  | 1 => exact .inr (.inl rfl)
  | j + 2 =>
    have small : j < files.length := by simpa [entries] using inside
    exact .inr (.inr ⟨j, small, getElem_entries small inside⟩)

/-- The kernel finds the file in inode `inum` of a disk and reads its bytes. -/
structure Readable (d : Disk) (inum : Nat) (f : Input) : Prop where
  found : ∃ off, dirlookup sb d (d.dinode ROOTINO) f.name =
    .ok (some (inum, off), d, d.dinode ROOTINO)
  type : (d.dinode inum).type = T_FILE
  size : (d.dinode inum).size = f.bytes.length
  read : ∀ off n, off ≤ f.bytes.length → off + n < 2 ^ 32 →
    readi sb d (d.dinode inum) off n =
      .ok (some ((f.bytes.drop off).take n), d, d.dinode inum)

theorem dirlookup_root (finished : Finished files img d) (few : 1 + files.length < NINODES)
    (texts : ∀ f ∈ files, 0 ∉ f.arg) (text : 0 ∉ name) (inside : k < (entries files).length)
    (here : (entries files)[k].2.take DIRSIZ = name.take DIRSIZ)
    (before : ∀ e (earlier : e < k), (entries files)[e].2.take DIRSIZ ≠ name.take DIRSIZ) :
    dirlookup sb (mount img) ((mount img).dinode ROOTINO) name =
      .ok (some ((entries files)[k].1, 16 * k), mount img, (mount img).dinode ROOTINO) := by
  have small : ROOTINO < sb.ninodes := by decide
  have root : layout (direntsBytes (entries files)) (files.map Input.bytes) ROOTINO =
      some ⟨T_DIR, direntsBytes (entries files)⟩ := rfl
  have length := length_direntsBytes (entries files)
  have count := length_entries files
  have size := finished.rootSize
  simp only [NINODES, BSIZE] at few size
  rw [dirlookup, if_pos (finished.type small root)]
  have positive : ∀ e ∈ entries files, 0 < e.1 ∧ e.1 < 2 ^ 16 := by
    intro e member
    rcases mem_entries member with rfl | rfl | ⟨j, below, rfl⟩
    · decide
    · decide
    · omega
  have entry : (entries files)[k]? = some (entries files)[k] := List.getElem?_eq_getElem inside
  refine (lookupLoop_entries (i := 0) (fun e known => ?_) (by omega) (by omega)
    (fun e member => (positive e member).2) ?_ text (Nat.le_of_lt inside)
    (fun e earlier found => before e earlier found.2)
    (.inr ⟨inside, Nat.ne_of_gt (positive _ (List.getElem_mem inside)).1, here⟩)
    (Nat.zero_le k) (Nat.le_add_left _ _)).trans (by rw [entry, Option.map_some])
  · rw [readi_file finished small root (by omega) (by dsimp only; omega) (by dsimp only; omega)
      (.inl (by dsimp only; omega)), direntsBytes_part known]
  · intro e member
    rcases mem_entries member with rfl | rfl | ⟨j, below, rfl⟩
    · decide
    · decide
    · exact text_name (texts _ (List.getElem_mem below))

/-- The kernel finds every file in the image of `mkfs`, unless its name is that of an entry
that the root directory has already, and reads its bytes. -/
theorem files_readable (admitted : Admitted files) (texts : ∀ f ∈ files, 0 ∉ f.arg)
    (distinct : (files.map fun f => f.name.take DIRSIZ).Nodup)
    (undotted : ∀ f ∈ files, f.name ≠ [46] ∧ f.name ≠ [46, 46]) :
    ∃ img, main files = .ok img ∧ readsb img = sb ∧
      ∀ j (small : j < files.length), Readable (mount img) (2 + j) files[j] := by
  obtain ⟨img, d, ran, finished⟩ := main_ok admitted
  refine ⟨img, ran, finished.super, fun j small => ?_⟩
  have few := admitted.inodes
  have known : 2 + j < sb.ninodes := Nat.lt_of_le_of_lt (by omega) few
  have other : 2 + j ≠ ROOTINO := by simp only [ROOTINO]; omega
  have member := List.getElem_mem small
  have file : layout (direntsBytes (entries files)) (files.map Input.bytes) (2 + j) =
      some ⟨T_FILE, files[j].bytes⟩ := by
    rw [layout_file (by rwa [List.length_map]), List.getElem_map]
  have size := finished.size known other file
  refine ⟨⟨16 * (j + 2), ?_⟩, finished.type known file, size, fun off n start range =>
    readi_file finished known file range start (Nat.le_of_eq size.symm) (.inr size)⟩
  have inside : j + 2 < (entries files).length := by simpa [entries] using small
  have entry := getElem_entries small inside
  have found := dirlookup_root finished few texts (text_name (texts _ member)) inside
    (by rw [entry]) ?_
  · rwa [entry] at found
  · intro e earlier same
    rcases e with _ | _ | e
    · exact (undotted _ member).1 ((take_eq_short (by decide)).mp same)
    · exact (undotted _ member).2 ((take_eq_short (by decide)).mp same)
    · have small' : e < files.length := by omega
      rw [getElem_entries small'] at same
      have apart := List.pairwise_iff_getElem.mp distinct e j (by rwa [List.length_map])
        (by rwa [List.length_map]) (by omega)
      rw [List.getElem_map, List.getElem_map] at apart
      exact apart same

theorem files_readable_boundary : ∃ img,
    main [⟨[95, 99, 97, 116], List.replicate 12 (List.replicate 512 7) ++ [[8]]⟩,
      ⟨[65], [List.replicate 512 9]⟩] = .ok img ∧ readsb img = sb ∧
    ∀ j (small : j < 2), Readable (mount img) (2 + j)
      ([⟨[95, 99, 97, 116], List.replicate 12 (List.replicate 512 7) ++ [[8]]⟩,
        ⟨[65], [List.replicate 512 9]⟩].get ⟨j, small⟩) :=
  files_readable ⟨by decide, by decide, by decide +kernel, by decide +kernel⟩ (by decide)
    (by decide) (by decide)

/-- An empty file that is given as "_.". -/
def dotFile : Input := ⟨[95, 46], []⟩

/-- For a file named "." the kernel finds the root directory. -/
theorem dot_not_readable : Admitted [dotFile] ∧ (∀ f ∈ [dotFile], 0 ∉ f.arg) ∧
    ([dotFile].map fun f => f.name.take DIRSIZ).Nodup ∧
    ∃ img, main [dotFile] = .ok img ∧ ∀ inum, ¬Readable (mount img) inum dotFile := by
  have admitted : Admitted [dotFile] := ⟨by decide, by decide, by decide, by decide +kernel⟩
  obtain ⟨img, d, ran, finished⟩ := main_ok admitted
  refine ⟨admitted, by decide, by decide, img, ran, fun inum readable => ?_⟩
  have found := dirlookup_root (k := 0) finished admitted.inodes (by decide)
    (show 0 ∉ dotFile.name by decide) (by decide) (by decide) fun e earlier =>
      absurd earlier (Nat.not_lt_zero e)
  obtain ⟨off, other⟩ := readable.found
  cases found.symm.trans other
  have type := finished.type (show ROOTINO < sb.ninodes by decide) rfl
  exact absurd (readable.type.symm.trans type) (by decide)

end Xv6.MkfsFormat
