import Xv6.PageBytes

/-! Growing a user space and shrinking it again. `allocuvm` adds zeroed pages from the free
list up to the new size, whatever the alignment of the sizes. `deallocuvm` with the same
sizes takes them back, and so does `allocuvm` itself when `kalloc` fails in it, wherever
that is. Page tables stay. -/
namespace Xv6.GrownSpace
open CheckedC BlockPool PageTables PageOwnership AddressSpaces SideState PageBytes Function

variable {m m' : Memory} {d : Page} {frames frames' : Frames}

/-! ## Pages that can be freed -/

/-- `kfree` accepts the page. -/
def Usable (m : Memory) (p : Page) : Prop := p % PGSIZE = 0 ∧ m.kernelEnd ≤ p ∧ p < PHYSTOP

theorem Usable.congr (usable : Usable m p) (same : m'.kernelEnd = m.kernelEnd) : Usable m' p := by
  unfold Usable
  rw [same]
  exact usable

theorem kfreeBytes_usable (usable : Usable m p) (frames : Frames) :
    ∃ m', kfree m p = .ok m' ∧ m'.kernelEnd = m.kernelEnd ∧
      kfreeBytes m p frames = (.ok m', update frames p fun _ => 1) := by
  obtain ⟨aligned, above, below⟩ := usable
  have accepts : ¬(p % PGSIZE ≠ 0 ∨ p < m.kernelEnd ∨ PHYSTOP ≤ p) := by
    simp only [not_or, not_not, Nat.not_lt, Nat.not_le]
    exact ⟨aligned, above, below⟩
  have ran : ∃ m', kfree m p = .ok m' ∧ m'.kernelEnd = m.kernelEnd :=
    ⟨_, if_neg accepts, rfl⟩
  obtain ⟨m', ran, same⟩ := ran
  refine ⟨m', ran, same, ?_⟩
  rw [kfreeBytes, ran]
  rfl

/-! ## deallocuvm returns -/

theorem deallocLoopBytes_returns {P : Page → Prop} (rounds : Nat) (frames : Frames)
    (apart : Apart m.toPool (pages m d)) (user : oldsz ≤ KERNBASE)
    (aligned : a % PGSIZE = 0) (positive : 0 < m.kernelEnd) (enough : oldsz ≤ a + rounds)
    (freed : ∀ i j e, i < 512 → j < 1024 → a ≤ base i j → base i j < oldsz →
      pte m d i j = some e → Usable m e.addr ∧ P e.addr) :
    ∃ m' frames', deallocLoopBytes d oldsz rounds m a frames = (.ok m', frames') ∧
      m'.kernelEnd = m.kernelEnd ∧ ∀ q, ¬P q → frames' q = frames q := by
  induction rounds generalizing m a frames with
  | zero =>
    rw [deallocLoopBytes, if_pos (by omega)]
    exact ⟨m, frames, rfl, rfl, fun _ _ => rfl⟩
  | succ rounds ih =>
    unfold deallocLoopBytes walkpgdir
    by_cases done : oldsz ≤ a
    · rw [if_pos done]
      exact ⟨m, frames, rfl, rfl, fun _ _ => rfl⟩
    rw [if_neg done]
    have inside : a < KERNBASE := by omega
    have small : PDX a < 512 := by
      simp only [PDX, KERNBASE] at *
      omega
    obtain ⟨aligned', enough'⟩ : (a + PGSIZE) % PGSIZE = 0 ∧ oldsz ≤ a + PGSIZE + rounds := by
      simp only [PGSIZE] at *
      omega
    cases here : m.contents d (PDX a) with
    | none =>
      have next : PGADDR (PDX a + 1) 0 0 - PGSIZE + PGSIZE = (PDX a + 1) * 0x400000 := by
        simp only [PGADDR, uint, PGSIZE]
        omega
      have later : a < (PDX a + 1) * 0x400000 := by
        simp only [PDX, KERNBASE] at *
        omega
      simp only [if_true, next]
      exact ih frames apart (by simp only [PGSIZE]; omega) positive (by omega)
        fun i j e small small' low => freed i j e small small' (by omega)
    | some pde =>
      dsimp only
      cases mapped : m.contents pde.addr (PTX a) with
      | none =>
        exact ih frames apart aligned' positive enough' fun i j e small small' low =>
          freed i j e small small' (by omega)
      | some e =>
        dsimp only
        have entry : pte m d (PDX a) (PTX a) = some e := by rw [pte, here, Option.bind_some, mapped]
        have place := base_pdx_ptx aligned inside
        obtain ⟨usable, holds⟩ := freed _ _ e small (ptx_lt a) (by omega) (by omega) entry
        have nonzero : e.addr ≠ 0 := Nat.ne_of_gt (Nat.lt_of_lt_of_le positive usable.2.1)
        obtain ⟨m₁, plain, same, ran⟩ := kfreeBytes_usable usable frames
        obtain ⟨moves, -, table⟩ := freeUser apart small (ptx_lt a) here mapped plain
        rw [if_neg nonzero]
        obtain ⟨m', frames', onward, kept, bytes⟩ := ih (m := m₁.store pde.addr (PTX a) none)
          (update frames e.addr fun _ => 1) (moves.apart apart) aligned'
          (same ▸ positive) enough' fun i j e' small small' low high there => by
            rw [table i j (by omega)] at there
            split at there
            · cases there
            · obtain ⟨usable, holds⟩ := freed i j e' small small' (by omega) high there
              exact ⟨usable.congr same, holds⟩
        refine ⟨m', frames', ?_, kept.trans same, fun q outside => ?_⟩
        · rw [bind_run, ran]
          exact onward
        · rw [bytes q outside, update_of_ne]
          rintro rfl
          exact outside holds

theorem deallocuvmBytes_returns {P : Page → Prop} (frames : Frames)
    (apart : Apart m.toPool (pages m d)) (user : oldsz ≤ KERNBASE) (positive : 0 < m.kernelEnd)
    (freed : ∀ i j e, i < 512 → j < 1024 → PGROUNDUP newsz ≤ base i j → base i j < oldsz →
      pte m d i j = some e → Usable m e.addr ∧ P e.addr) :
    ∃ r m' frames', deallocuvmBytes m d oldsz newsz frames = (.ok (r, m'), frames') ∧
      m'.kernelEnd = m.kernelEnd ∧ ∀ q, ¬P q → frames' q = frames q := by
  unfold deallocuvmBytes
  split
  · exact ⟨oldsz, m, frames, rfl, rfl, fun _ _ => rfl⟩
  · obtain ⟨m', frames', ran, same, bytes⟩ :=
      deallocLoopBytes_returns oldsz frames apart user
        (pgroundup_mod newsz) positive (Nat.le_add_left _ _) freed
    refine ⟨newsz, m', frames', ?_, same, bytes⟩
    rw [bind_run, ran]
    rfl

/-! ## allocuvm -/

/-- The pages from `oldsz` up to the address `reached` are there. -/
structure Filled (m : Memory) (frames : Frames) (d : Page) (oldsz reached : Nat) (m' : Memory)
    (frames' : Frames) : Prop where
  shrinks : Shrinks m m'
  old : ∀ i j, i < 512 → j < 1024 → base i j < PGROUNDUP oldsz → pte m' d i j = pte m d i j
  added : ∀ i j, i < 512 → j < 1024 → PGROUNDUP oldsz ≤ base i j → base i j < reached →
    ∃ p ∈ m.freelist, pte m' d i j = some ⟨p, PTE_W + PTE_U⟩ ∧ frames' p = fun _ => 0
  above : ∀ i j, i < 512 → j < 1024 → reached ≤ base i j → pte m' d i j = none
  bytes : ∀ q, q ∉ m.freelist → frames' q = frames q

/-- The space has grown from `oldsz` up to the address `reached`. -/
structure Growing (m : Memory) (frames : Frames) (d : Page) (oldsz reached : Nat) (m' : Memory)
    (frames' : Frames) : Prop extends Filled m frames d oldsz reached m' frames' where
  moves : Moves m.toPool (pages m d) m'.toPool (pages m' d)
  longer : Extends m m' d

/-- The user pages are those of before; the free list has lost page tables at most. -/
structure Restored (m : Memory) (frames : Frames) (d : Page) (m' : Memory) (frames' : Frames) :
    Prop where
  entries : ∀ i j, i < 512 → j < 1024 → pte m' d i j = pte m d i j
  free : ∃ kept ≤ tables m' d, (m'.freelist : Multiset Page) + kept = m.freelist
  bytes : ∀ q, q ∉ m.freelist → frames' q = frames q

theorem mappages_returns (pa perm : Nat) (apart : Apart m.toPool (pages m d))
    (aligned : a % PGSIZE = 0) (user : a < KERNBASE) (empty : pte m d (PDX a) (PTX a) = none) :
    ∃ mapped m', mappages m d a PGSIZE pa perm = .ok (mapped, m') := by
  rw [mappages, mapSteps_page aligned user, mapLoop]
  split
  · exact ⟨_, _, rfl⟩
  · rename_i t m₁ walked
    obtain ⟨-, same, found, -⟩ := walk_moves apart walked
    obtain ⟨pde, here, rfl⟩ := found t rfl
    have unmapped : m₁.contents pde.addr (PTX a) = none := by
      have entry := same (PDX a) (PTX a) (pdx_lt a)
      rwa [empty, pte, here, Option.bind_some] at entry
    rw [if_neg (by simp [unmapped]), mapLoop]
    exact ⟨_, _, rfl⟩

theorem Filled.congr (filled : Filled m frames d oldsz reached m₁ frames₁) (shrinks : Shrinks m₁ m₂)
    (entries : ∀ i j, i < 512 → j < 1024 → pte m₂ d i j = pte m₁ d i j)
    (zeroed : ∀ q, frames₂ q = frames₁ q ∨ q ∈ m.freelist ∧ frames₂ q = fun _ => 0) :
    Filled m frames d oldsz reached m₂ frames₂ := by
  refine ⟨filled.shrinks.trans shrinks, fun i j small small' below => ?_,
    fun i j small small' low high => ?_, fun i j small small' high => ?_, fun q outside => ?_⟩
  · rw [entries i j small small', filled.old i j small small' below]
  · obtain ⟨p, member, entry, zero⟩ := filled.added i j small small' low high
    refine ⟨p, member, by rw [entries i j small small', entry], ?_⟩
    rcases zeroed p with same | ⟨-, zero'⟩
    · rw [same, zero]
    · exact zero'
  · rw [entries i j small small', filled.above i j small small' high]
  · rcases zeroed q with same | ⟨free, -⟩
    · rw [same, filled.bytes q outside]
    · exact absurd free outside

theorem zeroed_update (source : mem ∈ m.freelist) (frames : Frames) (q : Page) :
    update frames mem (fun _ => 0) q = frames q ∨
      q ∈ m.freelist ∧ update frames mem (fun _ => 0) q = fun _ => 0 := by
  by_cases same : q = mem
  · subst same
    exact .inr ⟨source, update_self _ _ _⟩
  · exact .inl (update_of_ne same _ _)

section
variable {oldsz newsz : Nat} (apart : Apart m.toPool (pages m d))
  (usable : ∀ p ∈ m.freelist, Usable m p) (positive : 0 < m.kernelEnd)
  (present : ∀ i j, i < 512 → j < 1024 → (pte m d i j ≠ none ↔ base i j < PGROUNDUP oldsz))
  (grows : oldsz ≤ newsz) (user : newsz < KERNBASE)

include present in
theorem growing_refl (frames : Frames) :
    Growing m frames d oldsz (PGROUNDUP oldsz) m frames := by
  refine ⟨⟨Shrinks.refl m, fun _ _ _ _ _ => rfl, fun i j _ _ low high => by omega,
    fun i j small small' high => ?_, fun _ _ => rfl⟩, Moves.refl _ _, Extends.of_eq rfl⟩
  by_contra there
  have below := (present i j small small').mp there
  omega

include apart in
theorem Growing.add (growing : Growing m frames d oldsz a m' frames') (aligned : a % PGSIZE = 0)
    (inside : a < KERNBASE) (least : PGROUNDUP oldsz ≤ a) (taken : kalloc m' = (some mem, m₁))
    (mapped : mappages m₁ d a PGSIZE mem (PTE_W + PTE_U) = .ok (true, m₂)) :
    Growing m frames d oldsz (a + PGSIZE) m₂ (update frames' mem fun _ => 0) := by
  have source : mem ∈ m.freelist :=
    growing.shrinks.free.subset (by rw [kalloc_free taken]; exact List.mem_cons_self)
  obtain ⟨took, entries, longer⟩ := kalloc_some_pages taken d
  have filled := growing.toFilled.congr (kalloc_shrinks taken) (fun i j _ _ => entries i j)
    (zeroed_update source frames')
  obtain ⟨further, mapping, table⟩ :=
    mappages_moves (took.apart (growing.moves.apart apart)) aligned inside mapped
  refine ⟨⟨filled.shrinks.trans (mapLoop_shrinks mapped), fun i j small small' below => ?_,
    fun i j small small' low high => ?_, fun i j small small' high => ?_, filled.bytes⟩,
    growing.moves.trans (took.trans mapping), growing.longer.trans (longer.trans further)⟩
  · rw [table i j small small', if_neg (by omega), filled.old i j small small' below]
  · by_cases now : base i j = a
    · exact ⟨mem, source, by rw [table i j small small', if_pos now], update_self _ _ _⟩
    · have before : base i j < a := by
        have first := base_mod i j
        simp only [PGSIZE] at *
        omega
      rw [table i j small small', if_neg now]
      exact filled.added i j small small' low before
  · have beyond : a ≤ base i j ∧ base i j ≠ a := by
      simp only [PGSIZE] at high
      omega
    rw [table i j small small', if_neg beyond.2, filled.above i j small small' beyond.1]

include usable positive present grows user in
theorem Filled.undo (filled : Filled m frames d oldsz reached m' frames')
    (apart' : Apart m'.toPool (pages m' d)) (high : reached ≤ PGROUNDUP newsz) :
    ∃ m'' frames'', deallocuvmBytes m' d newsz oldsz frames' = (.ok (oldsz, m''), frames'') ∧
      m''.kernelEnd = m.kernelEnd ∧ Moves m'.toPool (pages m' d) m''.toPool (pages m'' d) ∧
      m''.contents d = m'.contents d ∧
      (∀ i j, i < 512 → j < 1024 → pte m'' d i j = pte m d i j) ∧
      ∀ q, q ∉ m.freelist → frames'' q = frames q := by
  obtain ⟨r, m'', frames'', ran, same, bytes⟩ :=
    deallocuvmBytes_returns (P := (· ∈ m.freelist)) frames' apart'
      (show newsz ≤ KERNBASE by omega) (filled.shrinks.kernelEnd ▸ positive)
      fun i j e small small' (low : PGROUNDUP oldsz ≤ base i j) _ there => by
        by_cases reached_ : base i j < reached
        · obtain ⟨p, member, entry, -⟩ := filled.added i j small small' low reached_
          rw [entry] at there
          cases there
          exact ⟨(usable p member).congr filled.shrinks.kernelEnd, member⟩
        · rw [filled.above i j small small' (by omega)] at there
          cases there
  obtain ⟨moves, dir, rfl, cleared⟩ :=
    deallocuvm_moves apart' (by omega) (deallocuvmBytes_erases.returns ran)
  rw [Nat.min_eq_right grows] at ran
  refine ⟨m'', frames'', ran, same.trans filled.shrinks.kernelEnd, moves, dir,
    fun i j small small' => ?_, fun q outside => ?_⟩
  · rw [cleared i j small small']
    by_cases below : base i j < PGROUNDUP oldsz
    · rw [if_neg (by omega), filled.old i j small small' below]
    · have none : pte m d i j = none := by
        by_contra there
        exact below ((present i j small small').mp there)
      rw [none]
      split
      · rfl
      · refine filled.above i j small small' (high.trans ?_)
        rcases Nat.eq_or_lt_of_le grows with equal | less
        · rw [← equal]
          omega
        · exact (pgroundup_le_base (by omega) i j).mpr (by omega)
  · rw [bytes q outside, filled.bytes q outside]

theorem pagesTo_nil (done : limit ≤ a) : pagesTo a limit = [] := by
  have count : (limit - a + PGSIZE - 1) / PGSIZE = 0 := by
    simp only [PGSIZE]
    omega
  rw [pagesTo, count]
  rfl

theorem pagesTo_cons (more : a < limit) :
    pagesTo a limit = a :: pagesTo (a + PGSIZE) limit := by
  have count : (limit - a + PGSIZE - 1) / PGSIZE = (limit - (a + PGSIZE) + PGSIZE - 1) / PGSIZE + 1 := by
    simp only [PGSIZE]
    omega
  rw [pagesTo, pagesTo, count, List.range_succ_eq_map, List.map_cons, List.map_map, Nat.zero_mul,
    Nat.add_zero]
  congr 1
  refine List.map_congr_left fun i _ => ?_
  simp only [Function.comp, PGSIZE]
  omega

theorem allocLoopBytes_mapped (taken : kalloc m = (some mem, m₁))
    (page : mappages m₁ d a PGSIZE mem (PTE_W + PTE_U) = .ok (true, m₂)) :
    allocLoopBytes d oldsz newsz m (a :: rest) frames =
      allocLoopBytes d oldsz newsz m₂ rest (update frames mem fun _ => 0) := by
  rw [allocLoopBytes, taken]
  dsimp only
  rw [memset, change_bind, page]
  rfl

theorem allocLoopBytes_unmapped (taken : kalloc m = (some mem, m₁))
    (page : mappages m₁ d a PGSIZE mem (PTE_W + PTE_U) = .ok (false, m₂))
    (undone : deallocuvmBytes m₂ d newsz oldsz (update frames mem fun _ => 0) =
      (.ok (r, m₃), frames₁))
    (freed : kfreeBytes m₃ mem frames₁ = (.ok m', frames')) :
    allocLoopBytes d oldsz newsz m (a :: rest) frames = (.ok (0, m'), frames') := by
  rw [allocLoopBytes, taken]
  dsimp only
  rw [memset, change_bind, page]
  exact bind_returns.mpr ⟨_, _, rfl, bind_returns.mpr ⟨_, _, undone, bind_returns.mpr ⟨_, _, freed, rfl⟩⟩⟩

theorem allocLoopBytes_none (taken : kalloc m = (none, m₁))
    (undone : deallocuvmBytes m₁ d newsz oldsz frames = (.ok (r, m'), frames')) :
    allocLoopBytes d oldsz newsz m (a :: rest) frames = (.ok (0, m'), frames') := by
  rw [allocLoopBytes, taken]
  exact bind_returns.mpr ⟨_, _, undone, rfl⟩

theorem eq_pgroundup (aligned : a % PGSIZE = 0) (most : a ≤ PGROUNDUP sz) (done : sz ≤ a)
    (user : sz < KERNBASE) : a = PGROUNDUP sz := by
  simp only [PGROUNDUP, uint, PGSIZE, KERNBASE] at *
  omega

theorem next_le_pgroundup (aligned : a % PGSIZE = 0) (more : a < sz) (user : sz < KERNBASE) :
    a + PGSIZE ≤ PGROUNDUP sz := by
  simp only [PGROUNDUP, uint, PGSIZE, KERNBASE] at *
  omega

include apart usable positive present grows user in
theorem allocLoopBytes_ends (rounds : Nat) (growing : Growing m frames d oldsz a m' frames')
    (aligned : a % PGSIZE = 0) (least : PGROUNDUP oldsz ≤ a) (most : a ≤ PGROUNDUP newsz)
    (enough : newsz ≤ a + rounds * PGSIZE) :
    ∃ r m'' frames'', allocLoopBytes d oldsz newsz m' (pagesTo a newsz) frames' =
        (.ok (r, m''), frames'') ∧
      (r = newsz ∧ Growing m frames d oldsz (PGROUNDUP newsz) m'' frames'' ∨
        r = 0 ∧ Restored m frames d m'' frames'') := by
  induction rounds generalizing a m' frames' with
  | zero =>
    have reached := eq_pgroundup aligned most (show newsz ≤ a by omega) user
    rw [pagesTo_nil (by omega)]
    exact ⟨newsz, m', frames', rfl, .inl ⟨rfl, reached ▸ growing⟩⟩
  | succ rounds ih =>
    by_cases done : newsz ≤ a
    · have reached := eq_pgroundup aligned most done user
      rw [pagesTo_nil done]
      exact ⟨newsz, m', frames', rfl, .inl ⟨rfl, reached ▸ growing⟩⟩
    have inside : a < KERNBASE := by omega
    have apart' := growing.moves.apart apart
    rw [pagesTo_cons (by omega)]
    obtain ⟨found, m₁, taken⟩ : ∃ r m₁, kalloc m' = (r, m₁) := ⟨_, _, rfl⟩
    cases found with
    | none =>
      obtain ⟨before, entries, longer⟩ := kalloc_none_pages taken d
      have same := kalloc_none taken
      have filled := growing.toFilled.congr (kalloc_shrinks taken) (fun i j _ _ => entries i j)
        fun q => .inl rfl
      have apart₁ : Apart m₁.toPool (pages m₁ d) := by rwa [before, same]
      obtain ⟨m₂, frames₂, undone, -, back, dir, restored, bytes⟩ :=
        filled.undo usable positive present grows user apart₁ most
      rw [before, same] at back
      refine ⟨0, m₂, frames₂, allocLoopBytes_none taken undone, .inr ⟨rfl, restored, ?_, bytes⟩⟩
      exact free_add_tables (growing.moves.trans back)
        ((growing.longer.trans longer).trans (Extends.of_eq dir)) restored
    | some mem =>
      obtain ⟨took, entries, longer⟩ := kalloc_some_pages taken d
      have apart₁ := took.apart apart'
      have empty : pte m₁ d (PDX a) (PTX a) = none := by
        rw [entries]
        have small : PDX a < 512 := by
          simp only [PDX, KERNBASE] at *
          omega
        exact growing.above _ _ small (ptx_lt a) (Nat.le_of_eq (base_pdx_ptx aligned inside).symm)
      obtain ⟨mapped, m₂, page⟩ := mappages_returns mem (PTE_W + PTE_U) apart₁.less
        aligned inside empty
      cases mapped with
      | true =>
        have grown := growing.add apart aligned inside least taken page
        rw [allocLoopBytes_mapped taken page]
        exact ih grown (by simp only [PGSIZE] at *; omega) (by omega)
          (next_le_pgroundup aligned (by omega) user) (by simp only [PGSIZE] at *; omega)
      | false =>
        have source : mem ∈ m.freelist :=
          growing.shrinks.free.subset (by rw [kalloc_free taken]; exact List.mem_cons_self)
        obtain ⟨further, walked, same⟩ := mappages_moves apart₁ aligned inside page
        have filled := growing.toFilled.congr ((kalloc_shrinks taken).trans (mapLoop_shrinks page))
          (fun i j small small' => (same i j small small').trans (entries i j))
          (zeroed_update source frames')
        have apart₂ := (walked.frame {mem}).apart apart₁
        obtain ⟨m₃, frames₃, undone, kernelEnd, back, dir, restored, bytes⟩ :=
          filled.undo usable positive present grows user apart₂.less most
        obtain ⟨m₄, plain, -, freed⟩ :=
          kfreeBytes_usable ((usable mem source).congr kernelEnd) frames₃
        obtain ⟨given, kept, last⟩ := kfree_other ((back.frame {mem}).apart apart₂) plain
        have entries₄ : ∀ i j, i < 512 → j < 1024 → pte m₄ d i j = pte m d i j :=
          fun i j small small' => (kept i j (by omega)).trans (restored i j small small')
        have moves := ((took.trans (walked.frame {mem})).trans (back.frame {mem})).trans given
        refine ⟨0, m₄, _, allocLoopBytes_unmapped taken page undone freed,
          .inr ⟨rfl, entries₄, ?_, fun q outside => ?_⟩⟩
        · exact free_add_tables (growing.moves.trans moves) (growing.longer.trans
            (((longer.trans further).trans (Extends.of_eq dir)).trans last)) entries₄
        · rw [update_of_ne, bytes q outside]
          rintro rfl
          exact outside source

end

theorem Growing.present (growing : Growing m frames d oldsz reached m' frames')
    (present : ∀ i j, i < 512 → j < 1024 → (pte m d i j ≠ none ↔ base i j < PGROUNDUP oldsz))
    (small : i < 512) (small' : j < 1024) : pte m' d i j ≠ none ↔ base i j < reached := by
  constructor
  · intro there
    by_contra beyond
    exact there (growing.above i j small small' (by omega))
  · intro inside
    by_cases below : base i j < PGROUNDUP oldsz
    · rw [growing.old i j small small' below]
      exact (present i j small small').mpr below
    · obtain ⟨p, -, entry, -⟩ := growing.added i j small small' (by omega) inside
      rw [entry]
      nofun

theorem Growing.freed (growing : Growing m frames d oldsz reached m' frames')
    (apart : Apart m.toPool (pages m d))
    (back : Moves m'.toPool (pages m' d) m''.toPool (pages m'' d))
    (dir : m''.contents d = m'.contents d)
    (restored : ∀ i j, i < 512 → j < 1024 → pte m'' d i j = pte m d i j) (small : i < 512)
    (small' : j < 1024) (low : PGROUNDUP oldsz ≤ base i j) (inside : base i j < reached)
    (there : pte m' d i j = some e) : e.addr ∈ m''.freelist := by
  have member := user_mem small small' there
  obtain ⟨p, source, entry, -⟩ := growing.added i j small small' low inside
  rw [entry] at there
  cases there
  have parts := Multiset.nodup_add.mp (growing.moves.apart apart).owned
  have whole : p ∈ (m''.freelist : Multiset Page) + pages m'' d := by
    rw [back.balance, pages]
    simp [member]
  rw [pages, tables_congr dir, users_congr restored] at whole
  rcases Multiset.mem_add.mp whole with free | held
  · exact free
  · rcases Multiset.mem_add.mp held with table | user
    · exact absurd member (Multiset.disjoint_left.mp parts.2.2 table)
    · exact absurd source (apart.not_free (by simp [pages, user]))

/-- `allocuvm` and `deallocuvm` are inverse on the user pages. From exactly the pages below
`oldsz`, `allocuvm` either returns the new size with exactly the pages below it, the added
ones zeroed and writable by the user, and a following `deallocuvm` brings back the old
mapping and frees every added page; or `kalloc` fails, wherever that is, and it returns 0
with the old mapping, and only page tables have left the free list. -/
theorem alloc_dealloc_inverse (frames : Frames) (apart : Apart m.toPool (pages m d))
    (usable : ∀ p ∈ m.freelist, Usable m p) (positive : 0 < m.kernelEnd)
    (present : ∀ i j, i < 512 → j < 1024 → (pte m d i j ≠ none ↔ base i j < PGROUNDUP oldsz))
    (grows : oldsz ≤ newsz) (user : newsz < KERNBASE) :
    ∃ r m' frames', allocuvmBytes m d oldsz newsz frames = (.ok (r, m'), frames') ∧
      (r = newsz ∧ Growing m frames d oldsz (PGROUNDUP newsz) m' frames' ∧
          (∀ i j, i < 512 → j < 1024 → (pte m' d i j ≠ none ↔ base i j < PGROUNDUP newsz)) ∧
          (∃ m'' frames'',
            deallocuvmBytes m' d newsz oldsz frames' = (.ok (oldsz, m''), frames'') ∧
            Restored m frames d m'' frames'' ∧
            ∀ i j e, i < 512 → j < 1024 → PGROUNDUP oldsz ≤ base i j → pte m' d i j = some e →
              e.addr ∈ m''.freelist) ∨
        r = 0 ∧ Restored m frames d m' frames') := by
  have least : PGROUNDUP oldsz ≤ PGROUNDUP newsz := by
    simp only [PGROUNDUP, uint, PGSIZE, KERNBASE] at *
    omega
  obtain ⟨r, m', frames', ran, outcome⟩ := allocLoopBytes_ends apart usable positive
    present grows user newsz (growing_refl present frames) (pgroundup_mod oldsz)
    (Nat.le_refl _) least (by simp only [PGSIZE]; omega)
  refine ⟨r, m', frames', ?_, ?_⟩
  · rw [allocuvmBytes, if_neg (by omega), if_neg (by omega), ran]
  rcases outcome with ⟨rfl, growing⟩ | failed
  · have apart' := growing.moves.apart apart
    obtain ⟨m'', frames'', undone, -, back, dir, restored, bytes⟩ :=
      growing.toFilled.undo usable positive present grows user apart' (Nat.le_refl _)
    refine .inl ⟨rfl, growing, fun i j => growing.present present, m'', frames'', undone,
      ⟨restored, ?_, bytes⟩, fun i j e small small' low there => ?_⟩
    · exact free_add_tables (growing.moves.trans back)
        (growing.longer.trans (Extends.of_eq dir)) restored
    · have inside := (growing.present present small small').mp (by rw [there]; simp)
      exact growing.freed apart back dir restored small small' low inside there
  · exact .inr failed

/-- Eight free pages, and a page without entries below them. -/
def emptySpace : Memory where
  freelist := (List.range 8).map fun i => 0x200000 + i * PGSIZE
  contents _ _ := none
  kernelEnd := EXTMEM

/-- An empty space grows to 6000 bytes and back. -/
theorem alloc_dealloc_inverse_empty : ∃ m' frames' m'' frames'',
    allocuvmBytes emptySpace EXTMEM 0 6000 (fun _ _ => 7) = (.ok (6000, m'), frames') ∧
      deallocuvmBytes m' EXTMEM 6000 0 frames' = (.ok (0, m''), frames'') := by
  have alone : pages emptySpace EXTMEM = {EXTMEM} := pages_empty fun _ => rfl
  have grown : ∃ value, (allocuvmBytes emptySpace EXTMEM 0 6000 fun _ _ => 7).1 = .ok value ∧
      value.1 = 6000 := by decide +kernel
  obtain ⟨r, m', frames', ran, outcome⟩ := alloc_dealloc_inverse (fun _ _ => 7)
    (show Apart emptySpace.toPool (pages emptySpace EXTMEM) by rw [alone]; unfold Apart; decide)
    (show ∀ p ∈ emptySpace.freelist, Usable emptySpace p by unfold Usable; decide) (by decide)
    (show ∀ i j, i < 512 → j < 1024 →
      (pte emptySpace EXTMEM i j ≠ none ↔ base i j < PGROUNDUP 0) from fun i j _ _ =>
        ⟨fun there => absurd rfl there, fun below => absurd below (Nat.not_lt_zero _)⟩)
    (show 0 ≤ 6000 by decide) (by decide)
  rw [ran] at grown
  obtain ⟨_, ⟨⟩, rfl⟩ := grown
  rcases outcome with ⟨-, -, -, m'', frames'', undone, -⟩ | ⟨failed, -⟩
  · exact ⟨m', frames', m'', frames'', ran, undone⟩
  · cases failed

end Xv6.GrownSpace
