import Xv6.SideState
import Xv6.AddressSpaces

/-! `vm.c` with the bytes of the pages. `memset` and `memmove` run on a state beside the
words of directories and page tables. The bytes of a page that is a directory or a page
table are its words, so they are not kept here. -/
namespace Xv6.PageBytes
open CheckedC BlockPool PageTables PageOwnership AddressSpaces SideState Function

abbrev Frames := Page → Fin PGSIZE → UInt8

abbrev Run := Keeping Frames

def memset (p : Page) (c : UInt8) : Run Unit :=
  change fun frames => update frames p fun _ => c

def memmove (dst src : Page) : Run Unit :=
  change fun frames => update frames dst (frames src)

/-! ## The calls -/

def kfreeBytes (m : Memory) (v : Page) : Run Memory := do
  let m ← plainly (kfree m v)
  memset v 1
  return m

def deallocLoopBytes (pgdir : Page) (oldsz : Nat) : Nat → Memory → Nat → Run Memory
  | 0, m, a => if oldsz ≤ a then return m else plainly (.error .blocked)
  | rounds + 1, m, a =>
    if oldsz ≤ a then return m
    else match walkpgdir m pgdir a false with
      | (none, _) =>
        deallocLoopBytes pgdir oldsz rounds m (PGADDR (PDX a + 1) 0 0 - PGSIZE + PGSIZE)
      | (some pgtab, _) => match m.contents pgtab (PTX a) with
        | none => deallocLoopBytes pgdir oldsz rounds m (a + PGSIZE)
        | some pte =>
          if pte.addr = 0 then plainly (.error (.panic "kfree"))
          else do
            let m ← kfreeBytes m pte.addr
            deallocLoopBytes pgdir oldsz rounds (m.store pgtab (PTX a) none) (a + PGSIZE)

def deallocuvmBytes (m : Memory) (pgdir : Page) (oldsz newsz : Nat) : Run (Nat × Memory) :=
  if oldsz ≤ newsz then return (oldsz, m)
  else do
    let m ← deallocLoopBytes pgdir oldsz oldsz m (PGROUNDUP newsz)
    return (newsz, m)

def freeTablesBytes (pgdir : Page) : Memory → List Nat → Run Memory
  | m, [] => return m
  | m, i :: rest => match m.contents pgdir i with
    | some pde => do freeTablesBytes pgdir (← kfreeBytes m pde.addr) rest
    | none => freeTablesBytes pgdir m rest

def freevmBytes (m : Memory) (pgdir : Page) : Run Memory :=
  if pgdir = 0 then plainly (.error (.panic "freevm: no pgdir"))
  else do
    let (_, m) ← deallocuvmBytes m pgdir KERNBASE 0
    let m ← freeTablesBytes pgdir m (List.range NPDENTRIES)
    kfreeBytes m pgdir

def setupkvmBytes (kmap : List Kmap) (m : Memory) : Run (Option Page × Memory) :=
  match kalloc m with
  | (none, m) => return (none, m)
  | (some pgdir, m) =>
    if DEVSPACE < PHYSTOP + KERNBASE then plainly (.error (.panic "PHYSTOP too high"))
    else do
      let (mapped, m) ← plainly (kmapLoop pgdir (m.fill pgdir fun _ => none) kmap)
      if mapped then return (some pgdir, m)
      else
        let m ← freevmBytes m pgdir
        return (none, m)

def allocLoopBytes (pgdir : Page) (oldsz newsz : Nat) : Memory → List Nat → Run (Nat × Memory)
  | m, [] => return (newsz, m)
  | m, a :: rest =>
    match kalloc m with
    | (none, m) => do
      let (_, m) ← deallocuvmBytes m pgdir newsz oldsz
      return (0, m)
    | (some mem, m) => do
      memset mem 0
      let (mapped, m) ← plainly (mappages m pgdir a PGSIZE mem (PTE_W + PTE_U))
      if mapped then allocLoopBytes pgdir oldsz newsz m rest
      else
        let (_, m) ← deallocuvmBytes m pgdir newsz oldsz
        let m ← kfreeBytes m mem
        return (0, m)

def allocuvmBytes (m : Memory) (pgdir : Page) (oldsz newsz : Nat) : Run (Nat × Memory) :=
  if KERNBASE ≤ newsz then return (0, m)
  else if newsz < oldsz then return (oldsz, m)
  else allocLoopBytes pgdir oldsz newsz m (pagesTo (PGROUNDUP oldsz) newsz)

def copyLoopBytes (pgdir d : Page) : Memory → List Nat → Run (Bool × Memory)
  | m, [] => return (true, m)
  | m, i :: rest =>
    match walkpgdir m pgdir i false with
    | (none, _) => plainly (.error (.panic "copyuvm: pte should exist"))
    | (some pgtab, _) => match m.contents pgtab (PTX i) with
      | none => plainly (.error (.panic "copyuvm: page not present"))
      | some pte => match kalloc m with
        | (none, m) => return (false, m)
        | (some mem, m) => do
          memmove mem pte.addr
          let (mapped, m) ← plainly (mappages m d i PGSIZE mem pte.flags)
          if mapped then copyLoopBytes pgdir d m rest
          else
            let m ← kfreeBytes m mem
            return (false, m)

def copyuvmBytes (kmap : List Kmap) (m : Memory) (pgdir : Page) (sz : Nat) :
    Run (Option Page × Memory) := do
  match ← setupkvmBytes kmap m with
  | (none, m) => return (none, m)
  | (some d, m) =>
    let (copied, m) ← copyLoopBytes pgdir d m (pagesTo 0 sz)
    if copied then return (some d, m)
    else
      let m ← freevmBytes m d
      return (none, m)

/-! ## The bytes left out -/

section
variable {m : Memory} {pgdir : Page}

theorem kfreeBytes_erases : Erases (kfreeBytes m v) (kfree m v) :=
  (erases_plainly _).then_change _

theorem deallocLoopBytes_erases :
    Erases (deallocLoopBytes pgdir oldsz rounds m a) (deallocLoop pgdir oldsz rounds m a) := by
  induction rounds generalizing m a with
  | zero =>
    unfold deallocLoopBytes deallocLoop
    split
    · exact erases_return m
    · exact erases_plainly _
  | succ rounds ih =>
    unfold deallocLoopBytes deallocLoop
    by_cases done : oldsz ≤ a
    · rw [if_pos done, if_pos done]
      exact erases_return m
    · rw [if_neg done, if_neg done]
      cases walkpgdir m pgdir a false with
      | mk found m' =>
        cases found with
        | none => exact ih
        | some pgtab =>
          dsimp only
          cases m.contents pgtab (PTX a) with
          | none => exact ih
          | some pte =>
            dsimp only
            split
            · exact erases_plainly _
            · exact kfreeBytes_erases.bind fun m => ih

theorem deallocuvmBytes_erases :
    Erases (deallocuvmBytes m pgdir oldsz newsz) (deallocuvm m pgdir oldsz newsz) := by
  unfold deallocuvmBytes deallocuvm
  split
  · exact erases_return _
  · exact deallocLoopBytes_erases.bind fun m => erases_return _

theorem freeTablesBytes_erases : Erases (freeTablesBytes pgdir m is) (freeTables pgdir m is) := by
  induction is generalizing m with
  | nil => exact erases_return m
  | cons i rest ih =>
    unfold freeTablesBytes freeTables
    cases m.contents pgdir i with
    | none => exact ih
    | some pde => exact kfreeBytes_erases.bind fun m => ih

theorem freevmBytes_erases : Erases (freevmBytes m pgdir) (freevm m pgdir) := by
  unfold freevmBytes freevm
  split
  · exact erases_plainly _
  · exact deallocuvmBytes_erases.bind fun r => freeTablesBytes_erases.bind fun m =>
      kfreeBytes_erases

theorem setupkvmBytes_erases : Erases (setupkvmBytes ks m) (setupkvm ks m) := by
  unfold setupkvmBytes setupkvm
  cases kalloc m with
  | mk found m' =>
    cases found with
    | none => exact erases_return _
    | some pgdir =>
      dsimp only
      split
      · exact erases_plainly _
      · refine (erases_plainly _).bind fun r => ?_
        obtain ⟨mapped, m''⟩ := r
        cases mapped with
        | true => exact erases_return _
        | false => exact freevmBytes_erases.bind fun m => erases_return _

theorem allocLoopBytes_erases :
    Erases (allocLoopBytes pgdir oldsz newsz m as) (allocLoop pgdir oldsz newsz m as) := by
  induction as generalizing m with
  | nil => exact erases_return _
  | cons a rest ih =>
    unfold allocLoopBytes allocLoop
    cases kalloc m with
    | mk found m' =>
      cases found with
      | none => exact deallocuvmBytes_erases.bind fun r => erases_return _
      | some mem =>
        refine erases_change ((erases_plainly _).bind fun r => ?_) _
        obtain ⟨mapped, m''⟩ := r
        cases mapped with
        | true => exact ih
        | false =>
          exact deallocuvmBytes_erases.bind fun r => kfreeBytes_erases.bind fun m => erases_return _

theorem allocuvmBytes_erases :
    Erases (allocuvmBytes m pgdir oldsz newsz) (allocuvm m pgdir oldsz newsz) := by
  unfold allocuvmBytes allocuvm
  split
  · exact erases_return _
  · split
    · exact erases_return _
    · exact allocLoopBytes_erases

theorem copyLoopBytes_erases : Erases (copyLoopBytes pgdir d m is) (copyLoop pgdir d m is) := by
  induction is generalizing m with
  | nil => exact erases_return _
  | cons i rest ih =>
    unfold copyLoopBytes copyLoop
    cases walkpgdir m pgdir i false with
    | mk found m' =>
      cases found with
      | none => exact erases_plainly _
      | some pgtab =>
        dsimp only
        cases m.contents pgtab (PTX i) with
        | none => exact erases_plainly _
        | some pte =>
          cases kalloc m with
          | mk found m₁ =>
            cases found with
            | none => exact erases_return _
            | some mem =>
              refine erases_change ((erases_plainly _).bind fun r => ?_) _
              obtain ⟨mapped, m₂⟩ := r
              cases mapped with
              | true => exact ih
              | false => exact kfreeBytes_erases.bind fun m => erases_return _

theorem copyuvmBytes_erases :
    Erases (copyuvmBytes ks m pgdir sz) (copyuvm ks m pgdir sz) := by
  refine setupkvmBytes_erases.bind fun r => ?_
  obtain ⟨made, m'⟩ := r
  cases made with
  | none => exact erases_return _
  | some d =>
    refine copyLoopBytes_erases.bind fun r => ?_
    obtain ⟨copied, m''⟩ := r
    cases copied with
    | true => exact erases_return _
    | false => exact freevmBytes_erases.bind fun m => erases_return _

end

end Xv6.PageBytes
