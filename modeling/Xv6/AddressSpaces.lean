import Xv6.PageOwnership

/-! What `setupkvm`, `allocuvm` and `copyuvm` do to the pages, also when `kalloc`
fails inside them: they finish with a directory that holds what they took, or give
everything back. -/
namespace Xv6.AddressSpaces
open CheckedC BlockPool PageTables PageOwnership

/-- The mapping is in the kernel's half of the address space. -/
def InKernel (k : Kmap) : Prop :=
  KERNBASE ≤ k.virt ∧ 0 < k.size ∧ k.virt + k.size ≤ 0x100000000

/-- No user page is mapped at or above `sz`. -/
structure Space (m : Memory) (d : Page) (sz : Nat) : Prop where
  limit : sz ≤ KERNBASE
  below : ∀ i j, i < 512 → j < 1024 → pte m d i j ≠ none → base i j < sz

theorem kmap_inKernel (text : KERNLINK < data) (memory : data < KERNBASE + PHYSTOP) :
    ∀ k ∈ kmap data, InKernel k := by
  simp only [kmap, InKernel, Kmap.size, uint, KERNLINK, KERNBASE, EXTMEM, PHYSTOP, DEVSPACE,
    List.mem_cons, List.not_mem_nil, or_false] at *
  rintro k (rfl | rfl | rfl | rfl)
  · decide
  · dsimp only
    omega
  · dsimp only
    omega
  · decide

theorem mapSteps_inKernel (kernel : InKernel k) :
    ∀ x ∈ mapSteps k.virt k.size k.phys_start, 512 ≤ PDX x.1 := by
  obtain ⟨least, positive, most⟩ := kernel
  intro x member
  obtain ⟨i, inside, rfl⟩ := List.mem_map.mp member
  rw [List.mem_range] at inside
  simp only [PGROUNDDOWN, uint, PDX, PGSIZE, KERNBASE] at *
  omega

theorem mapSteps_page (aligned : a % PGSIZE = 0) (user : a < KERNBASE) :
    mapSteps a PGSIZE pa = [(a, pa)] := by
  have count : uint (PGROUNDDOWN (uint (a + PGSIZE + 0xFFFFFFFF)) + 0x100000000 - PGROUNDDOWN a) /
      PGSIZE + 1 = 1 := by
    simp only [PGROUNDDOWN, uint, PGSIZE, KERNBASE] at *
    omega
  have first : uint (PGROUNDDOWN a + 0 * PGSIZE) = a := by
    simp only [PGROUNDDOWN, uint, PGSIZE, KERNBASE] at *
    omega
  simp only [mapSteps, count, List.range_one, List.map_cons, List.map_nil, first]
  simp

theorem pgroundup_le_base (user : sz ≤ KERNBASE) (i j : Nat) :
    PGROUNDUP sz ≤ base i j ↔ sz ≤ base i j := by
  simp only [PGROUNDUP, uint, base, PGSIZE, KERNBASE] at *
  omega

theorem le_pgroundup (user : sz ≤ KERNBASE) : sz ≤ PGROUNDUP sz := by
  simp only [PGROUNDUP, uint, PGSIZE, KERNBASE] at *
  omega

theorem mem_pagesTo (aligned : a % PGSIZE = 0) (member : b ∈ pagesTo a limit) :
    b % PGSIZE = 0 ∧ a ≤ b ∧ b < limit := by
  obtain ⟨i, inside, rfl⟩ := List.mem_map.mp member
  rw [List.mem_range] at inside
  simp only [PGSIZE] at *
  omega

theorem pagesTo_nodup (a limit : Nat) : (pagesTo a limit).Nodup := by
  refine List.nodup_range.map fun i j same => ?_
  simp only [PGSIZE] at same
  omega

section
variable {m m' : Memory} {d : Page} {t : Nat → Nat → Option Entry}

/-! ## setupkvm -/

theorem kmapLoop_moves (apart : Apart m.toPool (pages m d)) (kernel : ∀ k ∈ ks, InKernel k)
    (ran : kmapLoop d m ks = .ok (mapped, m')) :
    Moves m.toPool (pages m d) m'.toPool (pages m' d) ∧
      ∀ i j, i < 512 → pte m' d i j = pte m d i j := by
  induction ks generalizing m with
  | nil =>
    cases ran
    exact ⟨Moves.refl _ _, fun _ _ _ => rfl⟩
  | cons k rest ih =>
    obtain ⟨⟨done, m₁⟩, once, ran⟩ := bind_eq_ok.mp ran
    obtain ⟨moves, same⟩ := mapLoop_kernel apart
      (mapSteps_inKernel (kernel k List.mem_cons_self)) once
    dsimp only at ran
    split at ran
    · obtain ⟨onward, kept⟩ := ih (moves.apart apart)
        (fun k member => kernel k (List.mem_cons_of_mem _ member)) ran
      exact ⟨moves.trans onward, fun i j small => (kept i j small).trans (same i j small)⟩
    · cases ran
      exact ⟨moves, same⟩

theorem pages_empty (empty : ∀ i, m.contents d i = none) : pages m d = {d} := by
  have tables_ : tables m d = 0 := Finset.sum_eq_zero fun i _ => by rw [empty]; rfl
  have users_ : users m d = 0 := Finset.sum_eq_zero fun x _ => by rw [pte, empty]; rfl
  rw [pages, tables_, users_, add_zero, add_zero]

theorem setupkvm_moves (apart : Apart m.toPool 0) (kernel : ∀ k ∈ ks, InKernel k)
    (ran : setupkvm ks m = .ok (r, m')) :
    match r with
    | some d => Moves m.toPool 0 m'.toPool (pages m' d) ∧ Space m' d 0
    | none => Moves m.toPool 0 m'.toPool 0 := by
  unfold setupkvm at ran
  split at ran
  · rename_i none
    cases ran
    have same := kalloc_none none
    rw [same]
    exact Moves.refl _ _
  · rename_i d m₁ some
    split at ran
    · cases ran
    · obtain ⟨⟨mapped, m₂⟩, looped, ran⟩ := bind_eq_ok.mp ran
      obtain ⟨taken, contents⟩ := kalloc_some some
      have empty : ∀ i, (m₁.fill d fun _ => none).contents d i = none := by
        simp [Memory.fill]
      have blank : pages (m₁.fill d fun _ => none) d = {d} := pages_empty empty
      have cleared : Moves m.toPool 0 (m₁.fill d fun _ => none).toPool
          (pages (m₁.fill d fun _ => none) d) := by
        refine taken.trans (moves_write rfl (fun q outside => ?_) blank)
        refine Function.update_of_ne ?_ _ _
        simpa using outside
      obtain ⟨filled, same⟩ := kmapLoop_moves (cleared.apart apart) kernel looped
      have whole := cleared.trans filled
      dsimp only at ran
      split at ran
      · cases ran
        refine ⟨whole, by decide, fun i j small _ mapped => absurd ?_ mapped⟩
        rw [same i j small, pte, empty]
        rfl
      · obtain ⟨m₃, freed, ends⟩ := bind_eq_ok.mp ran
        cases ends
        exact whole.trans (freevm_moves (whole.apart apart) freed)

/-! ## allocuvm -/

theorem mappages_moves (apart : Apart m.toPool (pages m d + {pa})) (aligned : a % PGSIZE = 0)
    (user : a < KERNBASE) (ran : mappages m d a PGSIZE pa perm = .ok (mapped, m')) :
    Extends m m' d ∧ if mapped then
      Moves m.toPool (pages m d + {pa}) m'.toPool (pages m' d) ∧ ∀ i j, i < 512 → j < 1024 →
        pte m' d i j = if base i j = a then some ⟨pa, perm⟩ else pte m d i j
    else
      Moves m.toPool (pages m d) m'.toPool (pages m' d) ∧
        ∀ i j, i < 512 → j < 1024 → pte m' d i j = pte m d i j := by
  unfold mappages at ran
  rw [mapSteps_page aligned user] at ran
  have small : PDX a < 512 := by
    simp only [PDX, KERNBASE] at *
    omega
  obtain ⟨longer, once⟩ := mapOne apart small ran
  refine ⟨longer, ?_⟩
  split
  · rename_i done
    rw [if_pos done] at once
    refine ⟨once.1, fun i j small small' => ?_⟩
    rw [once.2 i j (by omega)]
    simp only [base_inj small small' aligned user]
  · rename_i failed
    rw [if_neg failed] at once
    exact ⟨once.1, fun i j small _ => once.2 i j (by omega)⟩

section
variable (apart : Apart m.toPool (pages m d))
include apart

theorem dealloc_restores (user : newsz < KERNBASE) (grows : oldsz < newsz)
    (low : ∀ i j, i < 512 → j < 1024 → base i j < oldsz → pte m d i j = t i j)
    (high : ∀ i j, i < 512 → j < 1024 → pte m d i j ≠ none → base i j < newsz)
    (old : ∀ i j, i < 512 → j < 1024 → t i j ≠ none → base i j < oldsz)
    (ran : deallocuvm m d newsz oldsz = .ok (r, m')) :
    Moves m.toPool (pages m d) m'.toPool (pages m' d) ∧
      (∀ i j, i < 512 → j < 1024 → pte m' d i j = t i j) ∧ Extends m m' d := by
  obtain ⟨moves, dir, _, cleared⟩ := deallocuvm_moves apart (by omega) ran
  refine ⟨moves, fun i j small small' => ?_, Extends.of_eq dir⟩
  rw [cleared i j small small']
  simp only [pgroundup_le_base (by omega : oldsz ≤ KERNBASE)]
  by_cases beneath : base i j < oldsz
  · rw [if_neg (by omega), low i j small small' beneath]
  · have none : t i j = none := by
      by_contra present
      exact beneath (old i j small small' present)
    rw [none]
    split
    · rfl
    · rename_i outside
      by_contra present
      exact outside ⟨by omega, high i j small small' present, grows⟩

theorem allocLoop_moves (user : newsz < KERNBASE)
    (steps : ∀ a ∈ as, a % PGSIZE = 0 ∧ oldsz ≤ a ∧ a < newsz)
    (low : ∀ i j, i < 512 → j < 1024 → base i j < oldsz → pte m d i j = t i j)
    (high : ∀ i j, i < 512 → j < 1024 → pte m d i j ≠ none → base i j < newsz)
    (old : ∀ i j, i < 512 → j < 1024 → t i j ≠ none → base i j < oldsz)
    (ran : allocLoop d oldsz newsz m as = .ok (r, m')) :
    Moves m.toPool (pages m d) m'.toPool (pages m' d) ∧ Extends m m' d ∧
      (r = 0 ∧ (∀ i j, i < 512 → j < 1024 → pte m' d i j = t i j) ∨
        r = newsz ∧ Space m' d newsz) := by
  induction as generalizing m with
  | nil =>
    cases ran
    exact ⟨Moves.refl _ _, Extends.of_eq rfl, .inr ⟨rfl, Nat.le_of_lt user, high⟩⟩
  | cons a rest ih =>
    obtain ⟨aligned, least, most⟩ := steps a List.mem_cons_self
    have grows : oldsz < newsz := by omega
    unfold allocLoop at ran
    split at ran
    · rename_i m₁ none
      obtain ⟨⟨_, m₂⟩, undone, ends⟩ := bind_eq_ok.mp ran
      cases ends
      obtain ⟨before, entries, longer⟩ := kalloc_none_pages none d
      rw [← before] at apart
      rw [← kalloc_none none] at apart ⊢
      rw [← before]
      obtain ⟨moves, restored, further⟩ := dealloc_restores apart user grows
        (fun i j small small' beneath => (entries i j).trans (low i j small small' beneath))
        (fun i j small small' present => high i j small small' (entries i j ▸ present)) old undone
      exact ⟨moves, longer.trans further, .inl ⟨rfl, restored⟩⟩
    · rename_i mem m₁ some
      obtain ⟨⟨mapped, m₂⟩, once, ran⟩ := bind_eq_ok.mp ran
      obtain ⟨taken, entries, longer⟩ := kalloc_some_pages some d
      have apart₁ := taken.apart apart
      obtain ⟨further, step⟩ := mappages_moves apart₁ aligned (by omega) once
      replace longer := longer.trans further
      dsimp only at ran
      split at ran
      · rename_i done
        rw [if_pos done] at step
        obtain ⟨mapping, changed⟩ := step
        obtain ⟨onward, last, outcome⟩ := ih (mapping.apart apart₁)
          (fun b member => steps b (List.mem_cons_of_mem _ member))
          (fun i j small small' beneath => by
            rw [changed i j small small', if_neg (by omega), entries, low i j small small' beneath])
          (fun i j small small' present => by
            rw [changed i j small small'] at present
            split at present
            · omega
            · rw [entries] at present
              exact high i j small small' present)
          ran
        exact ⟨(taken.trans mapping).trans onward, longer.trans last, outcome⟩
      · rename_i failed
        rw [if_neg failed] at step
        obtain ⟨walked, same⟩ := step
        obtain ⟨⟨_, m₃⟩, undone, ran⟩ := bind_eq_ok.mp ran
        obtain ⟨m₄, freed, ends⟩ := bind_eq_ok.mp ran
        cases ends
        have apart₂ := (walked.frame {mem}).apart apart₁
        obtain ⟨back, restored, last⟩ := dealloc_restores apart₂.less user grows
          (fun i j small small' beneath => by
            rw [same i j small small', entries, low i j small small' beneath])
          (fun i j small small' present => by
            rw [same i j small small', entries] at present
            exact high i j small small' present)
          old undone
        obtain ⟨given, kept, same'⟩ := kfree_other ((back.frame {mem}).apart apart₂) freed
        refine ⟨((taken.trans (walked.frame {mem})).trans (back.frame {mem})).trans given,
          (longer.trans last).trans same', .inl ⟨rfl, fun i j small small' => ?_⟩⟩
        rw [kept i j (by omega), restored i j small small']

theorem allocuvm_moves (space : Space m d oldsz) (ran : allocuvm m d oldsz newsz = .ok (r, m')) :
    Moves m.toPool (pages m d) m'.toPool (pages m' d) ∧ Extends m m' d ∧
      if r = 0 then ∀ i j, i < 512 → j < 1024 → pte m' d i j = pte m d i j else Space m' d r := by
  unfold allocuvm at ran
  split at ran
  · cases ran
    exact ⟨Moves.refl _ _, Extends.of_eq rfl, fun _ _ _ _ => rfl⟩
  · split at ran
    · cases ran
      refine ⟨Moves.refl _ _, Extends.of_eq rfl, ?_⟩
      rw [if_neg (by omega)]
      exact space
    · have least := le_pgroundup space.limit
      obtain ⟨moves, longer, outcome⟩ := allocLoop_moves (t := pte m d) apart (by omega)
        (fun a member => by
          obtain ⟨aligned, above, most⟩ := mem_pagesTo (pgroundup_mod oldsz) member
          exact ⟨aligned, by omega, most⟩)
        (fun _ _ _ _ _ => rfl)
        (fun i j small small' present => by
          have beneath := space.below i j small small' present
          omega)
        space.below ran
      refine ⟨moves, longer, ?_⟩
      rcases outcome with ⟨rfl, restored⟩ | ⟨rfl, grown⟩
      · exact restored
      · split
        · -- nothing was mapped, and nothing is
          intro i j small small'
          have empty : ∀ {m₀ : Memory}, Space m₀ d 0 → pte m₀ d i j = none := by
            intro m₀ none
            by_contra present
            have beneath := none.below i j small small' present
            omega
          have old : oldsz = 0 := by omega
          have new : r = 0 := by omega
          rw [empty (new ▸ grown), empty (old ▸ space)]
        · exact grown

theorem deallocuvm_space (space : Space m d oldsz)
    (ran : deallocuvm m d oldsz newsz = .ok (r, m')) :
    Moves m.toPool (pages m d) m'.toPool (pages m' d) ∧ Space m' d r ∧ r ≤ oldsz := by
  have limit := space.limit
  obtain ⟨moves, _, size, cleared⟩ := deallocuvm_moves apart (by omega) ran
  refine ⟨moves, ⟨by omega, fun i j small small' present => ?_⟩, by omega⟩
  rw [cleared i j small small'] at present
  split at present
  · cases present rfl
  · rename_i outside
    have beneath := space.below i j small small' present
    by_cases shrinks : newsz < oldsz
    · rw [pgroundup_le_base (by omega)] at outside
      omega
    · omega

end

/-! ## copyuvm -/

theorem copyLoop_moves (apart : Apart m.toPool (pages m d)) (space : Space m d sz)
    (steps : ∀ i ∈ is, i % PGSIZE = 0 ∧ i < sz)
    (ran : copyLoop parent d m is = .ok (copied, m')) :
    Moves m.toPool (pages m d) m'.toPool (pages m' d) ∧ Space m' d sz := by
  induction is generalizing m with
  | nil =>
    cases ran
    exact ⟨Moves.refl _ _, space⟩
  | cons a rest ih =>
    obtain ⟨aligned, most⟩ := steps a List.mem_cons_self
    have limit := space.limit
    unfold copyLoop at ran
    split at ran
    · cases ran
    · split at ran
      · cases ran
      · split at ran
        · rename_i m₁ none
          cases ran
          obtain ⟨before, entries, _⟩ := kalloc_none_pages none d
          rw [before, kalloc_none none]
          refine ⟨Moves.refl _ _, limit, fun i j small small' present => ?_⟩
          rw [entries] at present
          exact space.below i j small small' present
        · rename_i mem m₁ some
          obtain ⟨⟨mapped, m₂⟩, once, ran⟩ := bind_eq_ok.mp ran
          obtain ⟨taken, entries, _⟩ := kalloc_some_pages some d
          have apart₁ := taken.apart apart
          obtain ⟨_, step⟩ := mappages_moves apart₁ aligned (by omega) once
          dsimp only at ran
          split at ran
          · rename_i done
            rw [if_pos done] at step
            obtain ⟨mapping, changed⟩ := step
            obtain ⟨onward, grown⟩ := ih (mapping.apart apart₁)
              ⟨limit, fun i j small small' present => by
                rw [changed i j small small', entries] at present
                split at present
                · omega
                · exact space.below i j small small' present⟩
              (fun b member => steps b (List.mem_cons_of_mem _ member)) ran
            exact ⟨(taken.trans mapping).trans onward, grown⟩
          · rename_i failed
            rw [if_neg failed] at step
            obtain ⟨walked, same⟩ := step
            obtain ⟨m₃, freed, ends⟩ := bind_eq_ok.mp ran
            cases ends
            obtain ⟨given, kept, _⟩ := kfree_other ((walked.frame {mem}).apart apart₁) freed
            refine ⟨(taken.trans (walked.frame {mem})).trans given, limit,
              fun i j small small' present => ?_⟩
            rw [kept i j (by omega), same i j small small', entries] at present
            exact space.below i j small small' present

theorem copyuvm_moves (apart : Apart m.toPool 0) (kernel : ∀ k ∈ ks, InKernel k)
    (limit : sz ≤ KERNBASE) (ran : copyuvm ks m parent sz = .ok (r, m')) :
    match r with
    | some d => Moves m.toPool 0 m'.toPool (pages m' d) ∧ Space m' d sz
    | none => Moves m.toPool 0 m'.toPool 0 := by
  obtain ⟨⟨made, m₁⟩, setup, ran⟩ := bind_eq_ok.mp ran
  have spec := setupkvm_moves apart kernel setup
  cases made with
  | none =>
    cases ran
    exact spec
  | some d =>
    obtain ⟨made, empty⟩ := spec
    obtain ⟨⟨copied, m₂⟩, looped, ran⟩ := bind_eq_ok.mp ran
    have space : Space m₁ d sz := ⟨limit, fun i j small small' present => by
      have beneath := empty.below i j small small' present
      omega⟩
    obtain ⟨copying, grown⟩ := copyLoop_moves (made.apart apart) space
      (fun i member => by
        obtain ⟨aligned, _, most⟩ := mem_pagesTo (by decide) member
        exact ⟨aligned, most⟩) looped
    have whole := made.trans copying
    dsimp only at ran
    split at ran
    · cases ran
      exact ⟨whole, grown⟩
    · obtain ⟨m₃, freed, ends⟩ := bind_eq_ok.mp ran
      cases ends
      exact whole.trans (freevm_moves (whole.apart apart) freed)

theorem inituvm_moves (apart : Apart m.toPool (pages m d)) (space : Space m d 0)
    (ran : inituvm m d = .ok m') :
    Moves m.toPool (pages m d) m'.toPool (pages m' d) ∧ Space m' d PGSIZE := by
  unfold inituvm at ran
  split at ran
  · cases ran
  · rename_i mem m₁ some
    obtain ⟨⟨mapped, m₂⟩, once, ran⟩ := bind_eq_ok.mp ran
    obtain ⟨taken, entries, _⟩ := kalloc_some_pages some d
    obtain ⟨_, step⟩ := mappages_moves (taken.apart apart) (by decide) (by decide) once
    dsimp only at ran
    split at ran
    · rename_i done
      cases ran
      rw [if_pos done] at step
      obtain ⟨mapping, changed⟩ := step
      refine ⟨taken.trans mapping, by decide, fun i j small small' present => ?_⟩
      rw [changed i j small small', entries] at present
      split at present
      · simp only [PGSIZE]
        omega
      · have beneath := space.below i j small small' present
        omega
    · cases ran

theorem clearpteu_moves (apart : Apart m.toPool (pages m d)) (space : Space m d sz)
    (user : uva < KERNBASE) (ran : clearpteu m d uva = .ok m') :
    Moves m.toPool (pages m d) m'.toPool (pages m' d) ∧ Space m' d sz := by
  unfold clearpteu walkpgdir at ran
  cases here : m.contents d (PDX uva) with
  | none =>
    simp only [here, if_true] at ran
    cases ran
  | some pde =>
    simp only [here] at ran
    cases ran
    have small : PDX uva < 512 := by
      simp only [PDX, KERNBASE] at *
      omega
    have entry : m.contents pde.addr (PTX uva) = pte m d (PDX uva) (PTX uva) := by
      rw [pte, here, Option.bind_some]
    have balance := store_pages apart.owned small (ptx_lt uva) here
      ((m.contents pde.addr (PTX uva)).map fun pte =>
        { pte with flags := pte.flags &&& (0xFFF - PTE_U) })
    rw [Option.map_map, ← entry] at balance
    have same := add_right_cancel balance
    rw [← add_zero (pages m d), ← add_zero (pages _ d)] at same
    have stored := store_moves (pdx_lt uva) here same
    rw [add_zero, add_zero] at stored
    refine ⟨stored, space.limit, fun i j small small' present => ?_⟩
    rw [store_pte apart.owned (pdx_lt uva) here _ _ (by omega)] at present
    split at present
    · rename_i this
      refine space.below i j small small' fun absent => present ?_
      rw [entry, ← this.1, ← this.2, absent]
      rfl
    · exact space.below i j small small' present

end

end Xv6.AddressSpaces
