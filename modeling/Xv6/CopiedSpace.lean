import Xv6.PageBytes

/-! The copy that `fork` makes of a user space. Every page of the parent below its size gets
a page of its own in the new directory, with the same bytes and flags. No page belongs to
both directories, so what is stored through one of them is not seen through the other. -/
namespace Xv6.CopiedSpace
open CheckedC BlockPool PageTables PageOwnership AddressSpaces SideState PageBytes Function

variable {m m' : Memory} {d parent : Page} {frames frames' : Frames}

/-! ## The loop of copyuvm -/

/-- The pages at the addresses `as` have been copied. -/
structure Copied (m : Memory) (frames : Frames) (parent d : Page) (as : List Nat) (m' : Memory)
    (frames' : Frames) : Prop where
  moves : Moves m.toPool (pages m d) m'.toPool (pages m' d)
  copies : ∀ i j, i < 512 → j < 1024 → base i j ∈ as → ∃ e p, pte m parent i j = some e ∧
    pte m' d i j = some ⟨p, e.flags⟩ ∧ frames' p = frames e.addr
  others : ∀ i j, i < 1024 → 512 ≤ i ∨ base i j ∉ as → pte m' d i j = pte m d i j
  bytes : ∀ q, q ∉ m.freelist → frames' q = frames q

theorem copyLoopBytes_copies (apart : Apart m.toPool (pages m d + pages m parent))
    (steps : ∀ a ∈ as, a % PGSIZE = 0 ∧ a < KERNBASE) (distinct : as.Nodup)
    (ran : copyLoopBytes parent d m as frames = (.ok (true, m'), frames')) :
    Copied m frames parent d as m' frames' := by
  induction as generalizing m frames with
  | nil =>
    cases ran
    exact ⟨Moves.refl _ _, nofun, fun _ _ _ _ => rfl, fun _ _ => rfl⟩
  | cons a rest ih =>
    obtain ⟨aligned, user⟩ := steps a List.mem_cons_self
    obtain ⟨absent, distinct⟩ := List.nodup_cons.mp distinct
    unfold copyLoopBytes at ran
    obtain ⟨found, _, walked⟩ : ∃ r m₀, walkpgdir m parent a false = (r, m₀) := ⟨_, _, rfl⟩
    rw [walked] at ran
    cases found with
    | none => cases ran
    | some pgtab =>
    dsimp only at ran
    have entry := walk_found walked
    cases here : m.contents pgtab (PTX a) with
    | none =>
      rw [here] at ran
      cases ran
    | some e =>
    rw [here] at ran entry
    obtain ⟨found, m₁, taken⟩ : ∃ r m₁, kalloc m = (r, m₁) := ⟨_, _, rfl⟩
    rw [taken] at ran
    cases found with
    | none => cases ran
    | some mem =>
    dsimp only at ran
    rw [memmove, change_bind] at ran
    obtain ⟨⟨mapped, m₂⟩, frames₁, once, ran⟩ := bind_returns.mp ran
    obtain ⟨page, rfl⟩ := plainly_returns.mp once
    cases mapped with
    | false =>
      obtain ⟨m₃, frames₂, -, ran⟩ := bind_returns.mp ran
      cases ran
    | true =>
      -- the pages of both directories through the two steps
      obtain ⟨alone, contents⟩ := kalloc_some taken
      have free := kalloc_free taken
      obtain ⟨took, entries, -⟩ := kalloc_some_pages taken d
      have small : PDX a < 512 := by
        simp only [PDX, KERNBASE] at *
        omega
      have apart₁ := (took.frame (pages m parent)).apart apart
      rw [mappages, mapSteps_page aligned user] at page
      have shorter := (mapLoop_shrinks page).free
      obtain ⟨-, mapping, table⟩ := mapOne apart₁.less small page
      have apart₂ := (mapping.frame (pages m parent)).apart apart₁
      have same : ∀ q ∈ pages m parent, m₂.contents q = m.contents q := by
        intro q member
        rw [mapping.kept apart₁ member, contents]
      have kept : pages m₂ parent = pages m parent := pages_congr same
      rw [← kept] at apart₂
      obtain ⟨onward, copies, others, bytes⟩ := ih apart₂
        (fun b member => steps b (List.mem_cons_of_mem _ member)) distinct ran
      have least : m₂.freelist ⊆ m.freelist := by
        rw [free]
        exact fun q member => List.mem_cons_of_mem _ (shorter.subset member)
      have gone : mem ∉ m₂.freelist := by
        have once := apart.free
        rw [free] at once
        exact fun member => (List.nodup_cons.mp once).1 (shorter.subset member)
      have held : ∀ q ∈ pages m parent, q ≠ mem := by
        rintro q member rfl
        exact apart.not_free (Multiset.mem_add.mpr (.inr member)) (by simp [free])
      refine ⟨(took.trans mapping).trans onward, fun i j small small' member => ?_,
        fun i j inside outside => ?_, fun q unused => ?_⟩
      · by_cases now : base i j = a
        · obtain ⟨rfl, rfl⟩ := (base_inj small small' aligned user).mp now
          refine ⟨e, mem, entry, ?_, ?_⟩
          · rw [others _ _ (pdx_lt a) (.inr (by rwa [now])), table _ _ (pdx_lt a),
              if_pos ⟨rfl, rfl⟩]
          · rw [bytes mem gone, update_self]
        · obtain ⟨e', p, there, new, copied⟩ :=
            copies i j small small' ((List.mem_cons.mp member).resolve_left now)
          rw [pte_congr same (by omega)] at there
          refine ⟨e', p, there, new, ?_⟩
          have user := user_mem small small' there
          rw [copied, update_of_ne (held _ (by simp [pages, user]))]
      · have other : ¬(i = PDX a ∧ j = PTX a) := by
          rintro ⟨rfl, rfl⟩
          rcases outside with large | unlisted
          · omega
          · exact unlisted (by rw [base_pdx_ptx aligned user]; exact List.mem_cons_self)
        rw [others i j inside (outside.imp id fun unlisted member =>
          unlisted (List.mem_cons_of_mem _ member)), table i j inside, if_neg other, entries]
      · have other : q ≠ mem := by
          rintro rfl
          exact unused (by simp [free])
        rw [bytes q fun member => unused (least member), update_of_ne other]

/-! ## copyuvm -/

theorem setupkvmBytes_some (ran : setupkvmBytes ks m frames = (.ok (some d, m'), frames')) :
    frames' = frames := by
  unfold setupkvmBytes at ran
  obtain ⟨found, m₁, taken⟩ : ∃ r m₁, kalloc m = (r, m₁) := ⟨_, _, rfl⟩
  rw [taken] at ran
  cases found with
  | none => cases ran
  | some pgdir =>
    dsimp only at ran
    obtain ⟨⟨mapped, m₂⟩, frames₁, looped, ran⟩ := bind_returns.mp ran
    obtain ⟨-, rfl⟩ := plainly_returns.mp looped
    cases mapped with
    | true =>
      cases ran
      rfl
    | false =>
      obtain ⟨m₃, frames₂, -, ran⟩ := bind_returns.mp ran
      cases ran

/-- The directory `d` has a copy of what the parent has below `sz`, and the parent is as
it was. -/
structure Forked (ks : List Kmap) (m : Memory) (frames : Frames) (parent : Page) (sz : Nat)
    (d : Page) (m' : Memory) (frames' : Frames) : Prop where
  copied : ∀ i j, i < 512 → j < 1024 → base i j < sz → ∃ e p, pte m parent i j = some e ∧
    pte m' d i j = some ⟨p, e.flags⟩ ∧ frames' p = frames e.addr
  rest : ∀ i j, i < 512 → j < 1024 → sz ≤ base i j → pte m' d i j = none
  kernel : ∃ m₁, setupkvm ks m = .ok (some d, m₁) ∧
    ∀ i j, 512 ≤ i → i < 1024 → pte m' d i j = pte m₁ d i j
  apart : Apart m'.toPool (pages m' d + pages m' parent)
  untouched : ∀ i j, i < 1024 → pte m' parent i j = pte m parent i j
  bytes : ∀ q ∈ pages m parent, m'.contents q = m.contents q ∧ frames' q = frames q

theorem mem_pagesTo_zero (aligned : a % PGSIZE = 0) (below : a < sz) : a ∈ pagesTo 0 sz := by
  refine List.mem_map.mpr ⟨a / PGSIZE, List.mem_range.mpr ?_, ?_⟩ <;>
    simp only [PGSIZE] at * <;> omega

theorem copyuvmBytes_forked (apart : Apart m.toPool (pages m parent))
    (kernel : ∀ k ∈ ks, InKernel k) (limit : sz ≤ KERNBASE)
    (ran : copyuvmBytes ks m parent sz frames = (.ok (some d, m'), frames')) :
    Forked ks m frames parent sz d m' frames' := by
  obtain ⟨⟨made, m₁⟩, frames₁, setup, ran⟩ := bind_returns.mp ran
  cases made with
  | none => cases ran
  | some d₁ =>
    obtain ⟨⟨copied, m₂⟩, frames₂, looped, ran⟩ := bind_returns.mp ran
    cases copied with
    | false =>
      obtain ⟨m₃, frames₃, -, ran⟩ := bind_returns.mp ran
      cases ran
    | true =>
      cases ran
      obtain rfl := setupkvmBytes_some setup
      have plain := setupkvmBytes_erases.returns setup
      obtain ⟨made, empty⟩ := setupkvm_moves apart.zero kernel plain
      have framed := made.frame (pages m parent)
      rw [zero_add] at framed
      have apart₁ := framed.apart apart
      have same : ∀ q ∈ pages m parent, m₁.contents q = m.contents q := fun q member =>
        made.kept (by rwa [zero_add]) member
      have kept := pages_congr same
      rw [← kept] at apart₁
      have steps : ∀ a ∈ pagesTo 0 sz, a % PGSIZE = 0 ∧ a < KERNBASE := by
        intro a member
        obtain ⟨aligned, -, below⟩ := mem_pagesTo (by decide) member
        exact ⟨aligned, by omega⟩
      obtain ⟨onward, copies, others, bytes⟩ :=
        copyLoopBytes_copies apart₁ steps (pagesTo_nodup 0 sz) looped
      have same' : ∀ q ∈ pages m parent, m'.contents q = m.contents q := by
        intro q member
        rw [onward.kept apart₁ (by rwa [kept]), same q member]
      refine ⟨fun i j small small' below => ?_, fun i j small small' above => ?_,
        ⟨m₁, plain, fun i j large inside => others i j inside (.inl large)⟩, ?_,
        fun i j inside => pte_congr same' inside, fun q member => ⟨same' q member, bytes q ?_⟩⟩
      · obtain ⟨e, p, there, here, content⟩ :=
          copies i j small small' (mem_pagesTo_zero (base_mod i j) below)
        rw [pte_congr same (by omega)] at there
        exact ⟨e, p, there, here, content⟩
      · have unlisted : base i j ∉ pagesTo 0 sz := by
          intro member
          have below := (mem_pagesTo (by decide) member).2.2
          omega
        rw [others i j (by omega) (.inr unlisted)]
        by_contra present
        have below := empty.below i j small small' present
        omega
      · have apart₂ := (onward.frame (pages m₁ parent)).apart apart₁
        rwa [kept, ← pages_congr same'] at apart₂
      · rw [← kept] at member
        exact apart₁.not_free (Multiset.mem_add.mpr (.inr member))

/-! ## Stores through a directory -/

/-- Where a user address is. -/
def translate (m : Memory) (d : Page) (va : Nat) : Option (Page × Fin PGSIZE) :=
  (pte m d (PDX va) (PTX va)).map fun e => (e.addr, ⟨va % PGSIZE, Nat.mod_lt _ (by decide)⟩)

def loadByte (m : Memory) (d : Page) (frames : Frames) (va : Nat) : Option UInt8 :=
  (translate m d va).map fun x => frames x.1 x.2

def storeByte (m : Memory) (d : Page) (frames : Frames) (write : Nat × UInt8) : Frames :=
  match translate m d write.1 with
  | none => frames
  | some (p, offset) => update frames p (update (frames p) offset write.2)

theorem translate_mem (user : va < KERNBASE) (found : translate m d va = some (p, offset)) :
    p ∈ users m d := by
  obtain ⟨e, here, same⟩ := Option.map_eq_some_iff.mp found
  cases same
  refine user_mem ?_ (ptx_lt va) here
  simp only [PDX, KERNBASE] at *
  omega

theorem storeByte_other {write : Nat × UInt8} (user : write.1 < KERNBASE)
    (outside : q ∉ users m d) : storeByte m d frames write q = frames q := by
  unfold storeByte
  cases found : translate m d write.1 with
  | none => rfl
  | some x =>
    refine update_of_ne ?_ _ _
    rintro rfl
    exact outside (translate_mem user found)

theorem storeBytes_other {writes : List (Nat × UInt8)}
    (user : ∀ write ∈ writes, write.1 < KERNBASE) (outside : q ∉ users m d) :
    writes.foldl (storeByte m d) frames q = frames q := by
  induction writes generalizing frames with
  | nil => rfl
  | cons write rest ih =>
    rw [List.foldl_cons, ih fun s member => user s (List.mem_cons_of_mem _ member),
      storeByte_other (user write List.mem_cons_self) outside]

theorem loadByte_stores {writes : List (Nat × UInt8)} (apart : Disjoint (users m d) (users m d'))
    (user : ∀ write ∈ writes, write.1 < KERNBASE) (here : va < KERNBASE) :
    loadByte m d' (writes.foldl (storeByte m d) frames) va = loadByte m d' frames va := by
  unfold loadByte
  cases found : translate m d' va with
  | none => rfl
  | some x =>
    have member := translate_mem here found
    rw [Option.map_some, Option.map_some,
      storeBytes_other user fun again => Multiset.disjoint_left.mp apart again member]

/-- `copyuvm` makes an exact copy with pages of its own: every page below `sz` has the bytes
and the flags of the parent's, nothing else is mapped below KERNBASE, the kernel's part is
that of `setupkvm`, and the parent's pages are as before. No page is in both directories or
twice in one, so stores to user addresses of one are never seen in the other. -/
theorem fork_copies_apart (apart : Apart m.toPool (pages m parent))
    (kernel : ∀ k ∈ ks, InKernel k) (limit : sz ≤ KERNBASE)
    (ran : copyuvmBytes ks m parent sz frames = (.ok (some d, m'), frames')) :
    Forked ks m frames parent sz d m' frames' ∧ (users m' d).Nodup ∧
      Disjoint (users m' d) (users m' parent) ∧
      ∀ stores : List (Nat × UInt8), (∀ store ∈ stores, store.1 < KERNBASE) → ∀ va < KERNBASE,
        loadByte m' parent (stores.foldl (storeByte m' d) frames') va =
            loadByte m' parent frames' va ∧
          loadByte m' d (stores.foldl (storeByte m' parent) frames') va =
            loadByte m' d frames' va := by
  have forked := copyuvmBytes_forked apart kernel limit ran
  obtain ⟨own, -, disjoint⟩ := Multiset.nodup_add.mp forked.apart.owned
  have users_le (m : Memory) (d : Page) : users m d ≤ pages m d := Multiset.le_add_left _ _
  have separate : Disjoint (users m' d) (users m' parent) :=
    disjoint.mono (users_le m' d) (users_le m' parent)
  refine ⟨forked, Multiset.nodup_of_le (users_le m' d) own, separate, fun stores user va here => ?_⟩
  exact ⟨loadByte_stores separate user here, loadByte_stores separate.symm user here⟩

/-! ## A small parent -/

def freshMemory : Memory where
  freelist := (List.range 12).map fun i => 0x200000 + i * PGSIZE
  contents _ _ := none
  kernelEnd := EXTMEM

def oneMapping : List Kmap := [⟨KERNBASE, 0, PGSIZE, PTE_W⟩]

theorem oneMapping_inKernel : ∀ k ∈ oneMapping, InKernel k := by
  unfold InKernel
  decide

/-- A directory with two pages is made and copied. -/
theorem fork_copies_apart_pages : ∃ m parent m' frames' d,
    copyuvmBytes oneMapping m parent (2 * PGSIZE) (fun _ _ => 7) = (.ok (some d, m'), frames') ∧
      Forked oneMapping m (fun _ _ => 7) parent (2 * PGSIZE) d m' frames' := by
  have start : Apart freshMemory.toPool 0 := by
    unfold Apart
    decide
  have returns : (match setupkvm oneMapping freshMemory with
      | .ok (some parent, m₁) => match allocuvm m₁ parent 0 (2 * PGSIZE) with
        | .ok (_, m₂) => match copyuvmBytes oneMapping m₂ parent (2 * PGSIZE) fun _ _ => 7 with
          | (.ok (some _, _), _) => true
          | _ => false
        | _ => false
      | _ => false) = true := by decide +kernel
  split at returns
  · rename_i parent m₁ made
    split at returns
    · rename_i r m₂ grown
      split at returns
      · rename_i d m' frames' ran
        obtain ⟨first, empty⟩ := setupkvm_moves start oneMapping_inKernel made
        have apart := first.apart start
        have second := (allocuvm_moves apart empty grown).1
        exact ⟨m₂, parent, m', frames', d, ran,
          (fork_copies_apart (second.apart apart) oneMapping_inKernel (by decide) ran).1⟩
      · cases returns
    · cases returns
  · cases returns

end Xv6.CopiedSpace
