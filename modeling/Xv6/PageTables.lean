import Xv6.CheckedC
import Xv6.BlockPool

/-! `kalloc.c` and `vm.c`. A page is named by its physical address, also where the
kernel has a pointer to it. The memory keeps the words of the pages that are page
directories and page tables; the bytes of user pages are left out. -/
namespace Xv6.PageTables
open CheckedC BlockPool Function

abbrev PGSIZE : Nat := 4096
abbrev EXTMEM : Nat := 0x100000
abbrev PHYSTOP : Nat := 0xE000000
abbrev DEVSPACE : Nat := 0xFE000000
abbrev KERNBASE : Nat := 0x80000000
abbrev KERNLINK : Nat := KERNBASE + EXTMEM
abbrev NPDENTRIES : Nat := 1024
abbrev PTE_W : Nat := 2
abbrev PTE_U : Nat := 4

/-- A value of type `uint`. -/
def uint (n : Nat) : Nat := n % 0x100000000

def PGROUNDUP (sz : Nat) : Nat := uint (sz + PGSIZE - 1) / PGSIZE * PGSIZE

def PGROUNDDOWN (a : Nat) : Nat := a / PGSIZE * PGSIZE

def PDX (va : Nat) : Nat := va / 0x400000 % 1024

def PTX (va : Nat) : Nat := va / 0x1000 % 1024

def PGADDR (d t o : Nat) : Nat := uint (d * 0x400000 + t * 0x1000 + o)

abbrev Page := Nat

/-- An entry with PTE_P: the address and the other flags. -/
structure Entry where
  addr : Page
  flags : Nat
  deriving DecidableEq

/-- A page as 1024 entries; `none` is one without PTE_P. -/
abbrev Words := Nat → Option Entry

structure Memory extends Pool Page Words where
  /-- the address of `end`, behind the kernel -/
  kernelEnd : Nat
  /-- which of the next calls of `kalloc` fail, however many pages are free -/
  refuses : List Bool := []

def Memory.fill (m : Memory) (p : Page) (words : Words) : Memory :=
  { m with contents := update m.contents p words }

def Memory.store (m : Memory) (p : Page) (i : Nat) (word : Option Entry) : Memory :=
  m.fill p (update (m.contents p) i word)

/-! ## kalloc.c -/

def kalloc (m : Memory) : Option Page × Memory :=
  if m.refuses.head? = some true then (none, { m with refuses := m.refuses.tail })
  else match m.freelist with
    | [] => (none, { m with refuses := m.refuses.tail })
    | r :: next => (some r, { m with freelist := next, refuses := m.refuses.tail })

/-- What `memset(v, 1, PGSIZE)` leaves, read as entries. -/
def junk : Words := fun _ => some ⟨0x01010000, 0x100⟩

def kfree (m : Memory) (v : Page) : Checked Memory :=
  if v % PGSIZE ≠ 0 ∨ v < m.kernelEnd ∨ PHYSTOP ≤ v then .error (.panic "kfree")
  else
    let m := m.fill v junk
    .ok { m with freelist := v :: m.freelist }

/-- The addresses `a`, `a + PGSIZE`, ... below a limit. -/
def pagesTo (a limit : Nat) : List Nat :=
  (List.range ((limit - a + PGSIZE - 1) / PGSIZE)).map fun i => a + i * PGSIZE

def kfreeAll (m : Memory) : List Page → Checked Memory
  | [] => .ok m
  | p :: ps => do kfreeAll (← kfree m p) ps

/-- The pages between two addresses: those with `p + PGSIZE <= vend`. -/
def rangePages (vstart vend : Nat) : List Page :=
  pagesTo (PGROUNDUP vstart) (vend + 1 - PGSIZE)

def freerange (m : Memory) (vstart vend : Nat) : Checked Memory :=
  kfreeAll m (rangePages vstart vend)

/-! ## vm.c -/

/-- The page table with the entry for `va`; the entry is its word `PTX va`. -/
def walkpgdir (m : Memory) (pgdir : Page) (va : Nat) (alloc : Bool) : Option Page × Memory :=
  match m.contents pgdir (PDX va) with
  | some pde => (some pde.addr, m)
  | none =>
    if alloc = false then (none, m)
    else match kalloc m with
      | (none, m) => (none, m)
      | (some pgtab, m) =>
        let m := m.fill pgtab fun _ => none
        (some pgtab, m.store pgdir (PDX va) (some ⟨pgtab, PTE_W + PTE_U⟩))

/-- The loop of `mappages`, over the pairs of addresses it goes through. -/
def mapLoop (pgdir : Page) (perm : Nat) : Memory → List (Nat × Page) → Checked (Bool × Memory)
  | m, [] => .ok (true, m)
  | m, (a, pa) :: rest =>
    match walkpgdir m pgdir a true with
    | (none, m) => .ok (false, m)
    | (some pgtab, m) =>
      if (m.contents pgtab (PTX a)).isSome then .error (.panic "remap")
      else mapLoop pgdir perm (m.store pgtab (PTX a) (some ⟨pa, perm⟩)) rest

/-- What the loop goes through: `a` is counted up, as a `uint`, until it is `last`;
`pa` stays below 2^32 in every call. -/
def mapSteps (va size pa : Nat) : List (Nat × Page) :=
  let a := PGROUNDDOWN va
  let last := PGROUNDDOWN (uint (va + size + 0xFFFFFFFF))
  (List.range (uint (last + 0x100000000 - a) / PGSIZE + 1)).map fun i =>
    (uint (a + i * PGSIZE), pa + i * PGSIZE)

def mappages (m : Memory) (pgdir : Page) (va size pa perm : Nat) : Checked (Bool × Memory) :=
  mapLoop pgdir perm m (mapSteps va size pa)

/-- The loop of `deallocuvm`. It takes at most `oldsz - a` turns. -/
def deallocLoop (pgdir : Page) (oldsz : Nat) : Nat → Memory → Nat → Checked Memory
  | 0, m, a => if oldsz ≤ a then .ok m else .error .blocked
  | turns + 1, m, a =>
    if oldsz ≤ a then .ok m
    else match walkpgdir m pgdir a false with
      | (none, _) => deallocLoop pgdir oldsz turns m (PGADDR (PDX a + 1) 0 0 - PGSIZE + PGSIZE)
      | (some pgtab, _) => match m.contents pgtab (PTX a) with
        | none => deallocLoop pgdir oldsz turns m (a + PGSIZE)
        | some pte =>
          if pte.addr = 0 then .error (.panic "kfree")
          else do
            let m ← kfree m pte.addr
            deallocLoop pgdir oldsz turns (m.store pgtab (PTX a) none) (a + PGSIZE)

def deallocuvm (m : Memory) (pgdir : Page) (oldsz newsz : Nat) : Checked (Nat × Memory) :=
  if oldsz ≤ newsz then .ok (oldsz, m)
  else do
    let m ← deallocLoop pgdir oldsz oldsz m (PGROUNDUP newsz)
    return (newsz, m)

/-- The loop of `freevm` over the directory. -/
def freeTables (pgdir : Page) : Memory → List Nat → Checked Memory
  | m, [] => .ok m
  | m, i :: rest => match m.contents pgdir i with
    | some pde => do freeTables pgdir (← kfree m pde.addr) rest
    | none => freeTables pgdir m rest

def freevm (m : Memory) (pgdir : Page) : Checked Memory :=
  if pgdir = 0 then .error (.panic "freevm: no pgdir")
  else do
    let (_, m) ← deallocuvm m pgdir KERNBASE 0
    let m ← freeTables pgdir m (List.range NPDENTRIES)
    kfree m pgdir

structure Kmap where
  virt : Nat
  phys_start : Nat
  phys_end : Nat
  perm : Nat

/-- The kernel's mappings; `data` is set by the linker. -/
def kmap (data : Nat) : List Kmap :=
  [⟨KERNBASE, 0, EXTMEM, PTE_W⟩,
   ⟨KERNLINK, KERNLINK - KERNBASE, data - KERNBASE, 0⟩,
   ⟨data, data - KERNBASE, PHYSTOP, PTE_W⟩,
   ⟨DEVSPACE, DEVSPACE, 0, PTE_W⟩]

def Kmap.size (k : Kmap) : Nat := uint (k.phys_end + 0x100000000 - k.phys_start)

def kmapLoop (pgdir : Page) : Memory → List Kmap → Checked (Bool × Memory)
  | m, [] => .ok (true, m)
  | m, k :: rest => do
    let (mapped, m) ← mappages m pgdir k.virt k.size k.phys_start k.perm
    if mapped then kmapLoop pgdir m rest else return (false, m)

def setupkvm (kmap : List Kmap) (m : Memory) : Checked (Option Page × Memory) :=
  match kalloc m with
  | (none, m) => .ok (none, m)
  | (some pgdir, m) =>
    if DEVSPACE < PHYSTOP + KERNBASE then .error (.panic "PHYSTOP too high")
    else do
      let (mapped, m) ← kmapLoop pgdir (m.fill pgdir fun _ => none) kmap
      if mapped then return (some pgdir, m)
      else
        let m ← freevm m pgdir
        return (none, m)

def allocLoop (pgdir : Page) (oldsz newsz : Nat) : Memory → List Nat → Checked (Nat × Memory)
  | m, [] => .ok (newsz, m)
  | m, a :: rest =>
    match kalloc m with
    | (none, m) => do
      let (_, m) ← deallocuvm m pgdir newsz oldsz
      return (0, m)
    | (some mem, m) => do
      let (mapped, m) ← mappages m pgdir a PGSIZE mem (PTE_W + PTE_U)
      if mapped then allocLoop pgdir oldsz newsz m rest
      else
        let (_, m) ← deallocuvm m pgdir newsz oldsz
        let m ← kfree m mem
        return (0, m)

def allocuvm (m : Memory) (pgdir : Page) (oldsz newsz : Nat) : Checked (Nat × Memory) :=
  if KERNBASE ≤ newsz then .ok (0, m)
  else if newsz < oldsz then .ok (oldsz, m)
  else allocLoop pgdir oldsz newsz m (pagesTo (PGROUNDUP oldsz) newsz)

/-- The loop of `copyuvm`; `false` stands for its label `bad`. -/
def copyLoop (pgdir d : Page) : Memory → List Nat → Checked (Bool × Memory)
  | m, [] => .ok (true, m)
  | m, i :: rest =>
    match walkpgdir m pgdir i false with
    | (none, _) => .error (.panic "copyuvm: pte should exist")
    | (some pgtab, _) => match m.contents pgtab (PTX i) with
      | none => .error (.panic "copyuvm: page not present")
      | some pte => match kalloc m with
        | (none, m) => .ok (false, m)
        | (some mem, m) => do
          let (mapped, m) ← mappages m d i PGSIZE mem pte.flags
          if mapped then copyLoop pgdir d m rest
          else
            let m ← kfree m mem
            return (false, m)

def copyuvm (kmap : List Kmap) (m : Memory) (pgdir : Page) (sz : Nat) :
    Checked (Option Page × Memory) := do
  match ← setupkvm kmap m with
  | (none, m) => return (none, m)
  | (some d, m) =>
    let (copied, m) ← copyLoop pgdir d m (pagesTo 0 sz)
    if copied then return (some d, m)
    else
      let m ← freevm m d
      return (none, m)

/-- `inituvm`, with what `mappages` says: without the page the first process faults
at once, and `exit` panics for it. -/
def inituvm (m : Memory) (pgdir : Page) : Checked Memory :=
  match kalloc m with
  | (none, _) => .error .null
  | (some mem, m) => do
    let (mapped, m) ← mappages m pgdir 0 PGSIZE mem (PTE_W + PTE_U)
    if mapped then return m else .error (.panic "init exiting")

/-- The loop of `loaduvm`; `reads` has the pages for which `readi` copies all that is
asked for. -/
def loaduvm (m : Memory) (pgdir : Page) (reads : Nat → Bool) : List Nat → Checked Bool
  | [] => .ok true
  | a :: rest => match walkpgdir m pgdir a false with
    | (none, _) => .error (.panic "loaduvm: address should exist")
    | (some _, _) => if reads a then loaduvm m pgdir reads rest else .ok false

def clearpteu (m : Memory) (pgdir : Page) (uva : Nat) : Checked Memory :=
  match walkpgdir m pgdir uva false with
  | (none, _) => .error (.panic "clearpteu")
  | (some pgtab, _) =>
    .ok (m.store pgtab (PTX uva) ((m.contents pgtab (PTX uva)).map fun pte =>
      { pte with flags := pte.flags &&& (0xFFF - PTE_U) }))

end Xv6.PageTables
