import Mathlib.Algebra.Order.BigOperators.Group.Finset
import Xv6.PageTables

/-! Which pages a page directory holds, and where every function of `vm.c` leaves
them. Each is described by `Moves`, from the directory as it was to the directory as
it is, and by the user pages that are mapped afterwards. -/
namespace Xv6.PageOwnership
open CheckedC BlockPool PageTables Function

def pte (m : Memory) (d : Page) (i j : Nat) : Option Entry :=
  (m.contents d i).bind fun pde => m.contents pde.addr j

@[irreducible] def words : Finset Nat := Finset.range 1024

/-- The page tables, and their words, for addresses below KERNBASE. -/
@[irreducible] def slots : Finset (Nat × Nat) := Finset.range 512 ×ˢ Finset.range 1024

@[simp] theorem mem_words {i : Nat} : i ∈ words ↔ i < 1024 := by
  unfold words
  exact Finset.mem_range

@[simp] theorem mem_slots {x : Nat × Nat} : x ∈ slots ↔ x.1 < 512 ∧ x.2 < 1024 := by
  unfold slots
  rw [Finset.mem_product, Finset.mem_range, Finset.mem_range]

def tables (m : Memory) (d : Page) : Multiset Page :=
  ∑ i ∈ words, named ((m.contents d i).map Entry.addr)

def users (m : Memory) (d : Page) : Multiset Page :=
  ∑ x ∈ slots, named ((pte m d x.1 x.2).map Entry.addr)

/-- The pages of a directory: its own, the page tables and the user pages. -/
def pages (m : Memory) (d : Page) : Multiset Page := {d} + tables m d + users m d

def Extends (m m' : Memory) (d : Page) : Prop :=
  ∀ i pde, m.contents d i = some pde → m'.contents d i = some pde

section
variable {m m' : Memory} {d : Page}

theorem Extends.of_eq (same : m'.contents d = m.contents d) : Extends m m' d := by
  intro i pde here
  rw [same, here]

theorem Extends.trans (first : Extends m m₁ d) (second : Extends m₁ m' d) : Extends m m' d :=
  fun i pde here => second i pde (first i pde here)

theorem named_le (extends_ : ∀ e, x = some e → y = some e) :
    named (x.map Entry.addr) ≤ named (y.map Entry.addr) := by
  cases x with
  | none => exact Multiset.zero_le _
  | some e => rw [extends_ e rfl]

theorem Extends.tables_le (extends_ : Extends m m' d) : tables m d ≤ tables m' d :=
  Finset.sum_le_sum fun i _ => named_le (extends_ i)

theorem dir_mem (m : Memory) (d : Page) : d ∈ pages m d := by
  simp [pages]

theorem table_mem (inside : i < 1024) (here : m.contents d i = some pde) :
    pde.addr ∈ tables m d := by
  refine Multiset.mem_sum.mpr ⟨i, mem_words.mpr inside, ?_⟩
  rw [here]
  exact Multiset.mem_singleton_self _

theorem tables_le (m : Memory) (d : Page) (member : q ∈ tables m d) : q ∈ pages m d := by
  simp [pages, member]

theorem tables_congr (dir : m'.contents d = m.contents d) : tables m' d = tables m d := by
  unfold tables
  rw [dir]

theorem users_congr (same : ∀ i j, i < 512 → j < 1024 → pte m' d i j = pte m d i j) :
    users m' d = users m d := by
  refine Finset.sum_congr rfl fun x member => ?_
  obtain ⟨first, second⟩ := mem_slots.mp member
  rw [same x.1 x.2 first second]

theorem pte_congr (same : ∀ q ∈ pages m d, m'.contents q = m.contents q) (inside : i < 1024) :
    pte m' d i j = pte m d i j := by
  unfold pte
  rw [same d (dir_mem m d)]
  cases here : m.contents d i with
  | none => rfl
  | some pde =>
    simp only [Option.bind_some]
    rw [same pde.addr (tables_le m d (table_mem inside here))]

theorem pages_congr (same : ∀ q ∈ pages m d, m'.contents q = m.contents q) :
    pages m' d = pages m d := by
  unfold pages
  rw [tables_congr (same d (dir_mem m d)), users_congr fun i j small _ => pte_congr same (by omega)]

/-! ## Writing an entry -/

section
variable (distinct : (pages m d).Nodup)
include distinct

theorem table_ne_dir (inside : i < 1024) (here : m.contents d i = some pde) : pde.addr ≠ d := by
  intro same
  have first := (Multiset.nodup_add.mp (Multiset.nodup_add.mp distinct).1).2.2
  have member := table_mem inside here
  rw [same] at member
  exact Multiset.disjoint_left.mp first (Multiset.mem_singleton_self d) member

theorem tables_nodup : (tables m d).Nodup :=
  (Multiset.nodup_add.mp (Multiset.nodup_add.mp distinct).1).2.1

theorem table_ne (inside : i < 1024) (inside' : k < 1024)
    (here : m.contents d i = some pde) (there : m.contents d k = some pde') (other : i ≠ k) :
    pde.addr ≠ pde'.addr := by
  intro same
  refine sum_apart (tables_nodup distinct) (mem_words.mpr inside)
    (mem_words.mpr inside') other (q := pde.addr) ?_ ?_
  · rw [here]
    exact Multiset.mem_singleton_self _
  · rw [there, same]
    exact Multiset.mem_singleton_self _

theorem store_dir (inside : i < 1024)
    (here : m.contents d i = some pde) (j : Nat) (x : Option Entry) :
    (m.store pde.addr j x).contents d = m.contents d := by
  simp only [Memory.store, Memory.fill]
  rw [update_of_ne (table_ne_dir distinct inside here).symm]

theorem store_pte (inside : i < 1024)
    (here : m.contents d i = some pde) (j : Nat) (x : Option Entry) (inside' : k < 1024) :
    pte (m.store pde.addr j x) d k l = if k = i ∧ l = j then x else pte m d k l := by
  unfold pte
  rw [store_dir distinct inside here]
  by_cases same : k = i
  · subst same
    simp only [here, Option.bind_some, true_and, Memory.store, Memory.fill, update_self]
    split
    · rename_i equal
      rw [equal, update_self]
    · rename_i differs
      rw [update_of_ne differs]
  · rw [if_neg fun both => same both.1]
    cases there : m.contents d k with
    | none => rfl
    | some pde' =>
      simp only [Option.bind_some, Memory.store, Memory.fill]
      rw [update_of_ne (table_ne distinct inside' inside there here same)]

theorem store_pages (small : i < 512) (small' : j < 1024)
    (here : m.contents d i = some pde) (x : Option Entry) :
    pages (m.store pde.addr j x) d + named ((pte m d i j).map Entry.addr) =
      pages m d + named (x.map Entry.addr) := by
  have inside : i < 1024 := by omega
  have changed := sum_change (s := slots) (a := (i, j))
    (f := fun y => named ((pte (m.store pde.addr j x) d y.1 y.2).map Entry.addr))
    (g := fun y => named ((pte m d y.1 y.2).map Entry.addr)) (mem_slots.mpr ⟨small, small'⟩)
    (by
      intro y member other
      rw [store_pte distinct inside here j x (by have := mem_slots.mp member; omega), if_neg]
      rintro ⟨rfl, rfl⟩
      exact other rfl)
  simp only [store_pte distinct inside here j x inside, and_self, if_true] at changed
  unfold pages
  rw [tables_congr (store_dir distinct inside here j x), add_assoc, users, changed, ← add_assoc]
  rfl

theorem store_pages_kernel (inside : i < 1024) (large : 512 ≤ i)
    (here : m.contents d i = some pde) (j : Nat) (x : Option Entry) :
    pages (m.store pde.addr j x) d = pages m d := by
  unfold pages
  rw [tables_congr (store_dir distinct inside here j x), users_congr fun k l small _ => ?_]
  rw [store_pte distinct inside here j x (by omega), if_neg]
  omega

end

theorem store_moves (inside : i < 1024) (here : m.contents d i = some pde)
    (balance : pages (m.store pde.addr j x) d + own' = pages m d + own) :
    Moves m.toPool (pages m d + own) (m.store pde.addr j x).toPool
      (pages (m.store pde.addr j x) d + own') := by
  refine moves_write rfl (fun q outside => ?_) balance
  refine update_of_ne ?_ _ _
  rintro rfl
  refine outside (Multiset.mem_add.mpr (.inl ?_))
  exact tables_le m d (table_mem inside here)

/-! ## The allocator -/

theorem kalloc_none (ran : kalloc m = (none, m')) : m'.toPool = m.toPool := by
  unfold kalloc at ran
  split at ran
  · cases ran
    rfl
  · split at ran <;> cases ran
    rfl

theorem kalloc_some (ran : kalloc m = (some p, m')) :
    Moves m.toPool 0 m'.toPool {p} ∧ m'.contents = m.contents := by
  unfold kalloc at ran
  split at ran
  · cases ran
  · split at ran <;> cases ran
    rename_i free
    exact ⟨moves_take free rfl rfl, rfl⟩

structure Shrinks (m m' : Memory) : Prop where
  free : m'.freelist <:+ m.freelist
  kernelEnd : m'.kernelEnd = m.kernelEnd

theorem Shrinks.refl (m : Memory) : Shrinks m m := ⟨List.suffix_rfl, rfl⟩

theorem Shrinks.trans (first : Shrinks m m₁) (second : Shrinks m₁ m') : Shrinks m m' :=
  ⟨second.free.trans first.free, second.kernelEnd.trans first.kernelEnd⟩

theorem kalloc_free (ran : kalloc m = (some p, m')) : m.freelist = p :: m'.freelist := by
  unfold kalloc at ran
  split at ran
  · cases ran
  · split at ran <;> cases ran
    assumption

theorem kalloc_shrinks (ran : kalloc m = (r, m')) : Shrinks m m' := by
  unfold kalloc at ran
  split at ran
  · cases ran
    exact ⟨List.suffix_rfl, rfl⟩
  · split at ran <;> cases ran
    · exact ⟨List.suffix_rfl, rfl⟩
    · rename_i free
      exact ⟨free ▸ List.suffix_cons _ _, rfl⟩

theorem kalloc_none_pages (ran : kalloc m = (none, m')) (d : Page) :
    pages m' d = pages m d ∧ (∀ i j, pte m' d i j = pte m d i j) ∧ Extends m m' d := by
  have contents : m'.contents = m.contents := congrArg Pool.contents (kalloc_none ran)
  refine ⟨pages_congr fun q _ => congrFun contents q, fun i j => ?_, Extends.of_eq (by rw [contents])⟩
  rw [pte, pte, contents]

theorem kalloc_some_pages (ran : kalloc m = (some p, m')) (d : Page) :
    Moves m.toPool (pages m d) m'.toPool (pages m' d + {p}) ∧
      (∀ i j, pte m' d i j = pte m d i j) ∧ Extends m m' d := by
  obtain ⟨taken, contents⟩ := kalloc_some ran
  have framed := taken.frame (pages m d)
  rw [zero_add, add_comm] at framed
  have before : pages m' d = pages m d := pages_congr fun q _ => congrFun contents q
  rw [before]
  refine ⟨framed, fun i j => ?_, Extends.of_eq (by rw [contents])⟩
  rw [pte, pte, contents]

theorem kfree_moves (ran : kfree m v = .ok m') :
    Moves m.toPool {v} m'.toPool 0 ∧ ∀ q, q ≠ v → m'.contents q = m.contents q := by
  unfold kfree at ran
  split at ran
  · cases ran
  · cases ran
    have same : ∀ q, q ≠ v → update m.contents v junk q = m.contents q :=
      fun q other => update_of_ne other _ _
    exact ⟨moves_give rfl same, same⟩

theorem kfree_other (apart : Apart m.toPool (pages m d + {v})) (ran : kfree m v = .ok m') :
    Moves m.toPool (pages m d + {v}) m'.toPool (pages m' d) ∧
      (∀ i j, i < 1024 → pte m' d i j = pte m d i j) ∧ Extends m m' d := by
  obtain ⟨freed, others⟩ := kfree_moves ran
  have parts := Multiset.nodup_add.mp apart.owned
  have same : ∀ q ∈ pages m d, m'.contents q = m.contents q := by
    intro q member
    refine others q ?_
    rintro rfl
    exact Multiset.disjoint_left.mp parts.2.2 member (Multiset.mem_singleton_self q)
  have framed := freed.frame (pages m d)
  rw [zero_add, add_comm] at framed
  rw [pages_congr same]
  exact ⟨framed, fun i j inside => pte_congr same inside, Extends.of_eq (same d (dir_mem m d))⟩

/-! ## walkpgdir -/

theorem newTable_pte (distinct : (pages m d).Nodup) (fresh : t ∉ pages m d)
    (empty : m.contents d i = none) (inside : k < 1024) :
    pte ((m.fill t fun _ => none).store d i (some ⟨t, flags⟩)) d k l = pte m d k l := by
  have apart : d ≠ t := fun same => fresh (same ▸ dir_mem m d)
  unfold pte
  simp only [Memory.store, Memory.fill, update_self, update_of_ne apart]
  by_cases same : k = i
  · subst same
    simp [empty, update_of_ne apart.symm]
  · rw [update_of_ne same]
    cases here : m.contents d k with
    | none => rfl
    | some pde =>
      have other : pde.addr ≠ t := fun same => fresh (same ▸ tables_le m d (table_mem inside here))
      simp only [Option.bind_some]
      rw [update_of_ne (table_ne_dir distinct inside here), update_of_ne other]

theorem newTable_pages (distinct : (pages m d).Nodup) (fresh : t ∉ pages m d)
    (empty : m.contents d i = none) (inside : i < 1024) :
    pages ((m.fill t fun _ => none).store d i (some ⟨t, n⟩)) d = pages m d + {t} := by
  have apart : d ≠ t := fun same => fresh (same ▸ dir_mem m d)
  have grown : tables ((m.fill t fun _ => none).store d i (some ⟨t, n⟩)) d = tables m d + {t} := by
    have changed := sum_change (s := words) (a := i)
      (f := fun k => named ((((m.fill t fun _ => none).store d i (some ⟨t, n⟩)).contents d k).map
        Entry.addr))
      (g := fun k => named ((m.contents d k).map Entry.addr)) (mem_words.mpr inside)
      (by
        intro k _ other
        simp only [Memory.store, Memory.fill, update_self, update_of_ne apart,
          update_of_ne other])
    have here : ((m.fill t fun _ => none).store d i (some ⟨t, n⟩)).contents d i =
        some ⟨t, n⟩ := by simp [Memory.store, Memory.fill]
    simp only [here, empty, Option.map_none, Option.map_some, named_none, named_some,
      add_zero] at changed
    exact changed
  unfold pages
  rw [grown, users_congr fun k l small _ => newTable_pte distinct fresh empty (by omega)]
  abel

theorem pdx_lt (va : Nat) : PDX va < 1024 := Nat.mod_lt _ (by decide)

theorem ptx_lt (va : Nat) : PTX va < 1024 := Nat.mod_lt _ (by decide)

theorem walk_moves (apart : Apart m.toPool (pages m d)) (ran : walkpgdir m d va true = (r, m')) :
    Moves m.toPool (pages m d) m'.toPool (pages m' d) ∧
      (∀ i j, i < 1024 → pte m' d i j = pte m d i j) ∧
      (∀ t, r = some t → ∃ pde, m'.contents d (PDX va) = some pde ∧ pde.addr = t) ∧
      Extends m m' d := by
  unfold walkpgdir at ran
  split at ran
  · rename_i pde here
    cases ran
    refine ⟨Moves.refl _ _, fun _ _ _ => rfl, ?_, Extends.of_eq rfl⟩
    rintro t ⟨⟩
    exact ⟨pde, here, rfl⟩
  · rename_i empty
    rw [if_neg (by decide)] at ran
    split at ran
    · rename_i m₁ none
      cases ran
      have same := kalloc_none none
      have contents : m'.contents = m.contents := congrArg Pool.contents same
      refine ⟨?_, fun i j _ => by unfold pte; rw [contents], nofun, Extends.of_eq (by rw [contents])⟩
      rw [same, pages_congr fun q _ => congrFun contents q]
      exact Moves.refl _ _
    · rename_i t m₁ some
      cases ran
      obtain ⟨taken, contents⟩ := kalloc_some some
      have before : pages m₁ d = pages m d := pages_congr fun q _ => congrFun contents q
      have empty₁ : m₁.contents d (PDX va) = none := by rw [contents, empty]
      have first := taken.frame (pages m d)
      rw [zero_add, ← before] at first
      rw [← before] at apart
      have apart₁ := first.apart apart
      have owned := Multiset.nodup_add.mp apart₁.owned
      have fresh : t ∉ pages m₁ d :=
        Multiset.disjoint_left.mp owned.2.2 (Multiset.mem_singleton_self t)
      have whole := fun flags => newTable_pages (n := flags) owned.2.1 fresh empty₁ (pdx_lt va)
      refine ⟨?_, fun i j inside => ?_, ?_, fun i pde here => ?_⟩
      · rw [← before]
        refine first.trans (moves_write rfl (fun q outside => ?_) ((whole _).trans (add_comm _ _)))
        have notTable : q ≠ t := fun same => outside (by simp [same])
        have notDir : q ≠ d := fun same => outside (by simp [same, dir_mem])
        simp only [Memory.store, Memory.fill, update_of_ne notDir,
          update_of_ne notTable]
      · rw [newTable_pte owned.2.1 fresh empty₁ inside]
        unfold pte
        rw [contents]
      · rintro t ⟨⟩
        exact ⟨⟨t, PTE_W + PTE_U⟩, by simp [Memory.store, Memory.fill], rfl⟩
      · have other : i ≠ PDX va := by
          rintro rfl
          rw [empty] at here
          cases here
        have apart : d ≠ t := fun same => fresh (same ▸ dir_mem m₁ d)
        simp only [Memory.store, Memory.fill, update_self, update_of_ne other,
          update_of_ne apart, contents, here]

theorem walk_shrinks (ran : walkpgdir m d va alloc = (r, m')) : Shrinks m m' := by
  unfold walkpgdir at ran
  split at ran
  · cases ran
    exact Shrinks.refl _
  · split at ran
    · cases ran
      exact Shrinks.refl _
    · split at ran
      · rename_i none
        cases ran
        exact kalloc_shrinks none
      · rename_i taken
        cases ran
        obtain ⟨shorter, same⟩ := kalloc_shrinks taken
        exact ⟨shorter, same⟩

theorem walk_found (ran : walkpgdir m d va false = (some t, m')) :
    pte m d (PDX va) (PTX va) = m.contents t (PTX va) := by
  unfold walkpgdir at ran
  split at ran
  · rename_i pde here
    cases ran
    rw [pte, here, Option.bind_some]
  · cases ran

/-! ## mappages -/

/-- The address that word `j` of page table `i` maps. -/
def base (i j : Nat) : Nat := i * 0x400000 + j * 0x1000

theorem base_inj (small : i < 512) (small' : j < 1024) (aligned : a % PGSIZE = 0) (user : a < KERNBASE) :
    base i j = a ↔ i = PDX a ∧ j = PTX a := by
  simp only [base, PDX, PTX, PGSIZE, KERNBASE] at *
  omega

theorem base_pdx_ptx (aligned : a % PGSIZE = 0) (user : a < KERNBASE) :
    base (PDX a) (PTX a) = a := by
  simp only [base, PDX, PTX, PGSIZE, KERNBASE] at *
  omega

theorem base_mod (i j : Nat) : base i j % PGSIZE = 0 := by
  simp only [base, PGSIZE]
  omega

theorem mapLoop_shrinks (ran : mapLoop d perm m steps = .ok (mapped, m')) : Shrinks m m' := by
  induction steps generalizing m with
  | nil =>
    cases ran
    exact Shrinks.refl _
  | cons step rest ih =>
    unfold mapLoop at ran
    split at ran
    · rename_i walked
      cases ran
      exact walk_shrinks walked
    · rename_i walked
      split at ran
      · cases ran
      · obtain ⟨shorter, same⟩ := walk_shrinks walked
        have later := ih ran
        exact ⟨later.free.trans shorter, later.kernelEnd.trans same⟩

theorem mapOne (apart : Apart m.toPool (pages m d + {pa})) (user : PDX a < 512)
    (ran : mapLoop d perm m [(a, pa)] = .ok (mapped, m')) :
    Extends m m' d ∧ if mapped then
      Moves m.toPool (pages m d + {pa}) m'.toPool (pages m' d) ∧ ∀ i j, i < 1024 →
        pte m' d i j = if i = PDX a ∧ j = PTX a then some ⟨pa, perm⟩ else pte m d i j
    else
      Moves m.toPool (pages m d) m'.toPool (pages m' d) ∧
        ∀ i j, i < 1024 → pte m' d i j = pte m d i j := by
  unfold mapLoop at ran
  split at ran
  · rename_i walked
    cases ran
    obtain ⟨moves, same, _, longer⟩ := walk_moves apart.less walked
    exact ⟨longer, moves, same⟩
  · rename_i t m₁ walked
    obtain ⟨moves, same, found, longer⟩ := walk_moves apart.less walked
    obtain ⟨pde, here, rfl⟩ := found t rfl
    split at ran
    · cases ran
    · rename_i unmapped
      cases ran
      have empty : pte m₁ d (PDX a) (PTX a) = none := by
        simpa [pte, here] using unmapped
      have apart₁ := (moves.frame {pa}).apart apart
      have distinct := (Multiset.nodup_add.mp apart₁.owned).1
      have inside : PDX a < 1024 := pdx_lt a
      have balance := store_pages distinct user (ptx_lt a) here (some ⟨pa, perm⟩)
      rw [empty] at balance
      refine ⟨longer.trans (Extends.of_eq (store_dir distinct inside here _ _)),
        (moves.frame {pa}).trans ?_, fun i j small => ?_⟩
      · have stored := store_moves inside here balance
        rwa [Option.map_none, named_none, add_zero] at stored
      · rw [store_pte distinct inside here _ _ small, same i j small]

theorem mapLoop_kernel (apart : Apart m.toPool (pages m d)) (kernel : ∀ x ∈ steps, 512 ≤ PDX x.1)
    (ran : mapLoop d perm m steps = .ok (mapped, m')) :
    Moves m.toPool (pages m d) m'.toPool (pages m' d) ∧
      ∀ i j, i < 512 → pte m' d i j = pte m d i j := by
  induction steps generalizing m with
  | nil =>
    cases ran
    exact ⟨Moves.refl _ _, fun _ _ _ => rfl⟩
  | cons step rest ih =>
    obtain ⟨a, pa⟩ := step
    have large : 512 ≤ PDX a := kernel _ List.mem_cons_self
    unfold mapLoop at ran
    split at ran
    · rename_i walked
      cases ran
      obtain ⟨moves, same, _⟩ := walk_moves apart walked
      exact ⟨moves, fun i j small => same i j (by omega)⟩
    · rename_i t m₁ walked
      obtain ⟨moves, same, found, _⟩ := walk_moves apart walked
      obtain ⟨pde, here, rfl⟩ := found t rfl
      split at ran
      · cases ran
      · have apart₁ := moves.apart apart
        have balance := store_pages_kernel apart₁.owned (pdx_lt a) large here (PTX a)
          (some ⟨pa, perm⟩)
        rw [← add_zero (pages m₁ d), ← add_zero (pages (m₁.store _ _ _) d)] at balance
        have stored := store_moves (pdx_lt a) here balance
        rw [add_zero, add_zero] at stored
        obtain ⟨onward, kept⟩ := ih (stored.apart apart₁)
          (fun x member => kernel x (List.mem_cons_of_mem _ member)) ran
        refine ⟨(moves.trans stored).trans onward, fun i j small => ?_⟩
        rw [kept i j small, store_pte apart₁.owned (pdx_lt a) here _ _ (by omega), if_neg (by omega),
          same i j (by omega)]

/-! ## deallocuvm and freevm -/

theorem user_mem (small : i < 512) (small' : j < 1024) (here : pte m d i j = some e) :
    e.addr ∈ users m d := by
  refine Multiset.mem_sum.mpr ⟨(i, j), mem_slots.mpr ⟨small, small'⟩, ?_⟩
  simp only [here, Option.map_some, named_some]
  exact Multiset.mem_singleton_self _

theorem freeUser (apart : Apart m.toPool (pages m d)) (small : i < 512) (small' : j < 1024)
    (here : m.contents d i = some pde) (mapped : m.contents pde.addr j = some e)
    (ran : kfree m e.addr = .ok m₁) :
    Moves m.toPool (pages m d) (m₁.store pde.addr j none).toPool
        (pages (m₁.store pde.addr j none) d) ∧
      (m₁.store pde.addr j none).contents d = m.contents d ∧ ∀ k l, k < 1024 →
        pte (m₁.store pde.addr j none) d k l = if k = i ∧ l = j then none else pte m d k l := by
  have inside : i < 1024 := by omega
  obtain ⟨freed, others⟩ := kfree_moves ran
  have entry : pte m d i j = some e := by rw [pte, here, Option.bind_some, mapped]
  have parts := Multiset.nodup_add.mp apart.owned
  have separate : ∀ q, q ∈ {d} + tables m d → q ≠ e.addr := by
    rintro q member rfl
    exact Multiset.disjoint_left.mp parts.2.2 member (user_mem small small' entry)
  have dir : m₁.contents d = m.contents d := others d (separate d (by simp))
  have same : ∀ k l, k < 1024 → pte m₁ d k l = pte m d k l := by
    intro k l inside'
    unfold pte
    rw [dir]
    cases there : m.contents d k with
    | none => rfl
    | some pde' =>
      simp only [Option.bind_some]
      rw [others pde'.addr (separate _ (by simp [table_mem inside' there]))]
  have before : pages m₁ d = pages m d := by
    unfold pages
    rw [tables_congr dir, users_congr fun k l small _ => same k l (by omega)]
  have distinct : (pages m₁ d).Nodup := before ▸ apart.owned
  have here₁ : m₁.contents d i = some pde := by rw [dir, here]
  have balance := store_pages distinct small small' here₁ none
  rw [same i j inside, entry, before, Option.map_none, named_none, add_zero, Option.map_some,
    named_some, add_comm] at balance
  refine ⟨?_, ?_, fun k l inside' => ?_⟩
  · have first := freed.frame (pages (m₁.store pde.addr j none) d)
    rw [balance, zero_add] at first
    refine first.trans (moves_write rfl (fun q outside => ?_) rfl)
    refine update_of_ne ?_ _ _
    rintro rfl
    refine outside (tables_le _ d ?_)
    exact table_mem inside (by rw [store_dir distinct inside here₁, here₁])
  · rw [store_dir distinct inside here₁, dir]
  · rw [store_pte distinct inside here₁ _ _ inside', same k l inside']

theorem ite_gap {a a' b oldsz : Nat} {x : Option Entry} (gap : a ≤ b → b < a' → x = none) (le : a ≤ a') :
    (if a' ≤ b ∧ b < oldsz then none else x) = if a ≤ b ∧ b < oldsz then none else x := by
  by_cases inside : a ≤ b ∧ b < a'
  · rw [gap inside.1 inside.2, ite_self, ite_self]
  · have same : a' ≤ b ↔ a ≤ b := by omega
    simp only [same]

theorem deallocLoop_moves (apart : Apart m.toPool (pages m d)) (user : oldsz ≤ KERNBASE)
    (aligned : a % PGSIZE = 0) (ran : deallocLoop d oldsz rounds m a = .ok m') :
    Moves m.toPool (pages m d) m'.toPool (pages m' d) ∧ m'.contents d = m.contents d ∧
      ∀ i j, i < 512 → j < 1024 →
        pte m' d i j = if a ≤ base i j ∧ base i j < oldsz then none else pte m d i j := by
  induction rounds generalizing m a with
  | zero =>
    unfold deallocLoop at ran
    split at ran
    · cases ran
      exact ⟨Moves.refl _ _, rfl, fun i j _ _ => (if_neg (by omega)).symm⟩
    · cases ran
  | succ rounds ih =>
    unfold deallocLoop walkpgdir at ran
    split at ran
    · cases ran
      exact ⟨Moves.refl _ _, rfl, fun i j _ _ => (if_neg (by omega)).symm⟩
    · have user_ : a < KERNBASE := by omega
      have small : PDX a < 512 := by
        simp only [PDX, KERNBASE] at *
        omega
      have aligned' : (a + PGSIZE) % PGSIZE = 0 := by
        simp only [PGSIZE] at *
        omega
      -- the slots between two turns
      have between : ∀ i j, i < 512 → j < 1024 → a ≤ base i j → base i j < a + PGSIZE →
          i = PDX a ∧ j = PTX a := by
        intro i j small small' least most
        refine (base_inj small small' aligned user_).mp ?_
        simp only [base, PGSIZE] at *
        omega
      cases here : m.contents d (PDX a) with
      | none =>
        simp only [here, if_true] at ran
        have next : PGADDR (PDX a + 1) 0 0 - PGSIZE + PGSIZE = (PDX a + 1) * 0x400000 := by
          simp only [PGADDR, uint, PGSIZE]
          omega
        rw [next] at ran
        have later : a < (PDX a + 1) * 0x400000 := by
          simp only [PDX, KERNBASE] at *
          omega
        obtain ⟨moves, dir, table⟩ := ih apart (by simp only [PGSIZE]; omega) ran
        refine ⟨moves, dir, fun i j small small' => ?_⟩
        rw [table i j small small']
        refine ite_gap (fun least most => ?_) (by omega)
        have index : i = PDX a := by
          simp only [base, PDX, KERNBASE] at least most user_ ⊢
          omega
        rw [pte, index, here]
        rfl
      | some pde =>
        simp only [here] at ran
        cases mapped : m.contents pde.addr (PTX a) with
        | none =>
          simp only [mapped] at ran
          obtain ⟨moves, dir, table⟩ := ih apart aligned' ran
          refine ⟨moves, dir, fun i j small small' => ?_⟩
          rw [table i j small small']
          refine ite_gap (fun least most => ?_) (by omega)
          obtain ⟨rfl, rfl⟩ := between i j small small' least most
          rw [pte, here, Option.bind_some, mapped]
        | some e =>
          simp only [mapped] at ran
          split at ran
          · cases ran
          · obtain ⟨m₁, freed, onward⟩ := bind_eq_ok.mp ran
            obtain ⟨first, dir₁, table₁⟩ := freeUser apart small (ptx_lt a) here mapped freed
            obtain ⟨moves, dir, table⟩ := ih (first.apart apart) aligned' onward
            refine ⟨first.trans moves, dir.trans dir₁, fun i j small small' => ?_⟩
            rw [table i j small small', table₁ i j (by omega)]
            by_cases this : i = PDX a ∧ j = PTX a
            · have at_ := (base_inj small small' aligned user_).mpr this
              rw [if_pos this, ite_self, if_pos (by omega)]
            · rw [if_neg this]
              refine ite_gap (fun least most => ?_) (by omega)
              exact absurd (between i j small small' least most) this

theorem pgroundup_mod (sz : Nat) : PGROUNDUP sz % PGSIZE = 0 := Nat.mul_mod_left _ _

theorem deallocuvm_moves (apart : Apart m.toPool (pages m d)) (user : oldsz ≤ KERNBASE)
    (ran : deallocuvm m d oldsz newsz = .ok (r, m')) :
    Moves m.toPool (pages m d) m'.toPool (pages m' d) ∧ m'.contents d = m.contents d ∧
      r = min oldsz newsz ∧ ∀ i j, i < 512 → j < 1024 → pte m' d i j =
        if PGROUNDUP newsz ≤ base i j ∧ base i j < oldsz ∧ newsz < oldsz then none else pte m d i j := by
  unfold deallocuvm at ran
  split at ran
  · cases ran
    refine ⟨Moves.refl _ _, rfl, by omega, fun i j _ _ => ?_⟩
    rw [if_neg (by omega)]
  · obtain ⟨m₁, looped, ends⟩ := bind_eq_ok.mp ran
    cases ends
    obtain ⟨moves, dir, table⟩ := deallocLoop_moves apart user (pgroundup_mod newsz) looped
    refine ⟨moves, dir, by omega, fun i j small small' => ?_⟩
    have less : newsz < oldsz := by omega
    simp only [table i j small small', less, and_true]

theorem freeTables_moves (apart : ∀ i ∈ is, ∀ pde, m.contents d i = some pde → pde.addr ≠ d)
    (ran : freeTables d m is = .ok m') :
    Moves m.toPool (is.map fun i => named ((m.contents d i).map Entry.addr)).sum m'.toPool 0 := by
  induction is generalizing m with
  | nil =>
    cases ran
    exact Moves.refl _ _
  | cons i rest ih =>
    unfold freeTables at ran
    rw [List.map_cons, List.sum_cons]
    cases here : m.contents d i with
    | none =>
      rw [here] at ran
      rw [Option.map_none, named_none, zero_add]
      exact ih (fun k member => apart k (List.mem_cons_of_mem _ member)) ran
    | some pde =>
      rw [here] at ran
      obtain ⟨m₁, freed, onward⟩ := bind_eq_ok.mp ran
      obtain ⟨first, others⟩ := kfree_moves freed
      have dir : m₁.contents d = m.contents d :=
        others d (apart i List.mem_cons_self pde here).symm
      have second := ih (m := m₁)
        (fun k member => by rw [dir]; exact apart k (List.mem_cons_of_mem _ member)) onward
      rw [dir] at second
      have framed := first.frame (rest.map fun i => named ((m.contents d i).map Entry.addr)).sum
      rw [zero_add] at framed
      exact framed.trans second

theorem tables_eq_sum (m : Memory) (d : Page) : tables m d =
    ((List.range NPDENTRIES).map fun i => named ((m.contents d i).map Entry.addr)).sum := by
  unfold tables words
  rw [Finset.sum_eq_multiset_sum, Finset.range_val, ← Multiset.coe_range, Multiset.map_coe,
    Multiset.sum_coe]

theorem freevm_moves (apart : Apart m.toPool (pages m d)) (ran : freevm m d = .ok m') :
    Moves m.toPool (pages m d) m'.toPool 0 := by
  unfold freevm at ran
  split at ran
  · cases ran
  · obtain ⟨⟨r, m₁⟩, unmapped, ran⟩ := bind_eq_ok.mp ran
    obtain ⟨m₂, tabled, ran⟩ := bind_eq_ok.mp ran
    obtain ⟨first, dir, _, table⟩ := deallocuvm_moves apart (Nat.le_refl _) unmapped
    have apart₁ := first.apart apart
    have none : users m₁ d = 0 := by
      refine Finset.sum_eq_zero fun x member => ?_
      obtain ⟨small, small'⟩ := mem_slots.mp member
      rw [table x.1 x.2 small small', if_pos]
      · rfl
      · simp only [PGROUNDUP, uint, base, KERNBASE, PGSIZE]
        omega
    have whole : pages m₁ d = tables m₁ d + {d} := by
      rw [pages, none, add_zero, add_comm]
    have outside : ∀ i ∈ List.range NPDENTRIES, ∀ pde, m₁.contents d i = some pde → pde.addr ≠ d :=
      fun i member pde here => table_ne_dir apart₁.owned (List.mem_range.mp member) here
    have second := (freeTables_moves outside tabled).frame {d}
    rw [← tables_eq_sum, zero_add, ← whole] at second
    exact (first.trans second).trans (kfree_moves ran).1

theorem free_add_tables (moves : Moves m.toPool (pages m d) m'.toPool (pages m' d))
    (longer : Extends m m' d) (same : ∀ i j, i < 512 → j < 1024 → pte m' d i j = pte m d i j) :
    ∃ kept, kept ≤ tables m' d ∧ (m'.freelist : Multiset Page) + kept = m.freelist := by
  refine ⟨tables m' d - tables m d, Multiset.sub_le_self _ _, ?_⟩
  have balance := moves.balance
  simp only [pages, users_congr same] at balance
  have grown := Multiset.sub_add_cancel longer.tables_le
  have sum : (m'.freelist : Multiset Page) + (tables m' d - tables m d) + tables m d =
      (m.freelist : Multiset Page) + tables m d := by
    rw [add_assoc, grown]
    have left : (m'.freelist : Multiset Page) + ({d} + tables m' d + users m d) =
        (m'.freelist : Multiset Page) + tables m' d + ({d} + users m d) := by abel
    have right : (m.freelist : Multiset Page) + ({d} + tables m d + users m d) =
        (m.freelist : Multiset Page) + tables m d + ({d} + users m d) := by abel
    rw [left, right] at balance
    exact add_right_cancel balance
  exact add_right_cancel sum

end

end Xv6.PageOwnership
