import Xv6.ProcMemory
import Xv6.CopiedSpace

/-! `copyout`, and the arguments that `exec` copies with it to the stack of the new image.
`uva2ka` does not look at what `walkpgdir` returns, so it reads through a null pointer where
there is no page table. -/
namespace Xv6.CopyOut
open CheckedC PageTables PageOwnership SideState PageBytes CopiedSpace Function

def minus (a b : Nat) : Nat := uint (a + 0xFFFFFFFF * b)

/-! ## vm.c -/

def uva2ka (m : Memory) (pgdir : Page) (uva : Nat) : Checked (Option Page) := do
  let pgtab ← deref (walkpgdir m pgdir uva false).1
  match m.contents pgtab (PTX uva) with
  | none => return none
  | some pte => if pte.flags &&& PTE_U = 0 then return none else return some pte.addr

/-- `memmove(p + offset, buf, n)` inside a page. -/
def memmoveTo (p : Page) (offset : Nat) (buf : List UInt8) : Run Unit :=
  change fun frames => update frames p fun i =>
    if offset ≤ i then buf.getD (i - offset) (frames p i) else frames p i

/-- The loop of `copyout`. It takes at most `len` turns. -/
def copyoutLoop (m : Memory) (pgdir : Page) : Nat → Nat → List UInt8 → Run Bool
  | 0, _, buf => if buf = [] then return true else plainly (.error .blocked)
  | turns + 1, va, buf =>
    if buf = [] then return true
    else do
      let va0 := PGROUNDDOWN va
      match ← plainly (uva2ka m pgdir va0) with
      | none => return false
      | some pa0 =>
        let n := min (PGSIZE - (va - va0)) buf.length
        memmoveTo pa0 (va - va0) (buf.take n)
        copyoutLoop m pgdir turns (uint (va0 + PGSIZE)) (buf.drop n)

def copyout (m : Memory) (pgdir : Page) (va : Nat) (p : List UInt8) : Run Bool :=
  copyoutLoop m pgdir p.length va p

/-! ## exec.c -/

/-- The loop of `exec` over the argument strings, with `ustack[3..]`; `none` stands for its
label `bad`. -/
def pushStrings (m : Memory) (pgdir : Page) :
    Nat → List Nat → List (List UInt8) → Run (Option (Nat × List Nat))
  | sp, ustack, [] => return some (sp, ustack)
  | sp, ustack, arg :: rest =>
    if MAXARG ≤ ustack.length then return none
    else do
      let sp := minus sp (arg.length + 1) / 4 * 4
      if ← copyout m pgdir sp (arg ++ [0]) then pushStrings m pgdir sp (ustack ++ [sp]) rest
      else return none

def bytesOf (word : Nat) : List UInt8 :=
  [.ofNat word, .ofNat (word / 0x100), .ofNat (word / 0x10000), .ofNat (word / 0x1000000)]

def pushWords (m : Memory) (pgdir : Page) (sp : Nat) (args : List Nat) : Run (Option Nat) := do
  let argc := args.length
  let ustack := [0xFFFFFFFF, argc, minus sp ((argc + 1) * 4)] ++ args ++ [0]
  let sp := minus sp ((3 + argc + 1) * 4)
  if ← copyout m pgdir sp (ustack.flatMap bytesOf) then return some sp else return none

/-- The stack that `exec` makes below `sz`: the new stack pointer. -/
def pushArgs (m : Memory) (pgdir : Page) (sz : Nat) (argv : List (List UInt8)) :
    Run (Option Nat) := do
  match ← pushStrings m pgdir sz [] argv with
  | none => return none
  | some (sp, args) => pushWords m pgdir sp args

/-- The stack of the new image with its arguments; the size, or `none` for `bad`. -/
def setupStackBytes (pgdir : Page) (m : Memory) (sz : Nat) (argv : List (List UInt8)) :
    Run (Option Nat × Memory) := do
  let sz := PGROUNDUP sz
  let (sz, m) ← allocuvmBytes m pgdir sz (uint (sz + 2 * PGSIZE))
  if sz = 0 then return (none, m)
  else
    let m ← plainly (clearpteu m pgdir (sz - 2 * PGSIZE))
    match ← pushArgs m pgdir sz argv with
    | none => return (none, m)
    | some _ => return (some sz, m)

theorem setupStackBytes_args (ran : setupStackBytes pgdir m sz argv frames = (.ok r, frames')) :
    ∃ args, ProcMemory.setupStack pgdir m sz args = .ok r := by
  obtain ⟨⟨newsz, m₁⟩, frames₁, grown, rest⟩ := bind_returns.mp ran
  replace grown := allocuvmBytes_erases.returns grown
  dsimp only at rest
  split at rest
  · rename_i zero
    cases rest
    refine ⟨false, bind_eq_ok.mpr ⟨_, grown, ?_⟩⟩
    exact if_pos zero
  · rename_i some
    obtain ⟨m₂, frames₂, cleared, pushes⟩ := bind_returns.mp rest
    replace cleared := (plainly_returns.mp cleared).1
    obtain ⟨pushed, frames₃, -, ends⟩ := bind_returns.mp pushes
    refine ⟨pushed.isSome, bind_eq_ok.mpr ⟨_, grown, ?_⟩⟩
    dsimp only
    rw [if_neg some, cleared, bind_ok]
    cases pushed <;> cases ends <;> rfl

/-! ## The bytes that are written -/

/-- The user may use the page at this address. -/
def UserPage (m : Memory) (d : Page) (va : Nat) : Prop :=
  ∃ e, pte m d (PDX va) (PTX va) = some e ∧ e.flags &&& PTE_U ≠ 0

/-- There is a page table for the address. -/
def Tabled (m : Memory) (d : Page) (va : Nat) : Prop := m.contents d (PDX va) ≠ none

instance : Decidable (Tabled m d va) := inferInstanceAs (Decidable (_ ≠ _))

/-- All of the range is on pages that the user may use. -/
def OnUser (m : Memory) (d : Page) (va n : Nat) : Prop := ∀ k < n, UserPage m d (uint (va + k))

/-- Up to the first address of the range that is on no page of the user, and for that address
too, there are page tables. -/
def Reaches (m : Memory) (d : Page) (va n : Nat) : Prop :=
  ∀ k < n, OnUser m d va k → Tabled m d (uint (va + k))

/-- The same for the copies that `exec` makes one after another, `argc` strings having been
copied: a copy is made if those before it have succeeded. -/
def ArgsReach (m : Memory) (d : Page) : Nat → Nat → List (List UInt8) → Prop
  | sp, argc, [] => Reaches m d (minus sp ((3 + argc + 1) * 4)) (4 * (3 + argc + 1))
  | sp, argc, arg :: rest =>
    let sp := minus sp (arg.length + 1) / 4 * 4
    argc < MAXARG → Reaches m d sp (arg.length + 1) ∧
      (OnUser m d sp (arg.length + 1) → ArgsReach m d sp (argc + 1) rest)

def stores : Nat → List UInt8 → List (Nat × UInt8)
  | _, [] => []
  | va, byte :: rest => (uint va, byte) :: stores (va + 1) rest

section
variable {m : Memory} {d : Page} {frames frames' : Frames}

theorem uint_add_uint (a b : Nat) : uint (uint a + b) = uint (a + b) := by
  simp only [uint]
  omega

theorem stores_append (va : Nat) (first second : List UInt8) :
    stores va (first ++ second) = stores va first ++ stores (va + first.length) second := by
  induction first generalizing va with
  | nil => rfl
  | cons byte rest ih =>
    rw [List.cons_append, stores, stores, ih, List.length_cons, List.cons_append,
      Nat.add_assoc, Nat.add_comm 1]

theorem stores_congr (same : uint va = uint va') : stores va buf = stores va' buf := by
  induction buf generalizing va va' with
  | nil => rfl
  | cons byte rest ih =>
    have next : uint (va + 1) = uint (va' + 1) := by rw [← uint_add_uint, same, uint_add_uint]
    rw [stores, stores, same, ih next]

theorem stores_page (aligned : va0 % PGSIZE = 0) (small : va0 < 0x100000000)
    (here : pte m d (PDX va0) (PTX va0) = some e) (inside : o + buf.length ≤ PGSIZE) :
    (stores (va0 + o) buf).foldl (storeByte m d) frames =
      update frames e.addr fun i =>
        if o ≤ i then buf.getD (i - o) (frames e.addr i) else frames e.addr i := by
  induction buf generalizing o frames with
  | nil =>
    simp only [stores, List.foldl_nil, List.getD_nil, ite_self]
    exact (update_eq_self _ _).symm
  | cons byte rest ih =>
    simp only [List.length_cons] at inside
    have low : o < PGSIZE := by omega
    have first : storeByte m d frames (uint (va0 + o), byte) =
        update frames e.addr (update (frames e.addr) ⟨o, low⟩ byte) := by
      have address : uint (va0 + o) = va0 + o ∧ PDX (va0 + o) = PDX va0 ∧ PTX (va0 + o) = PTX va0 ∧
          (va0 + o) % PGSIZE = o := by
        simp only [uint, PDX, PTX, PGSIZE] at *
        omega
      simp only [storeByte, CopiedSpace.translate, address, here, Option.map_some]
    rw [stores, List.foldl_cons, first, Nat.add_assoc, ih (by omega), update_idem]
    congr 1
    funext i
    rw [update_self]
    rcases Nat.lt_trichotomy i o with less | same | more
    · rw [if_neg (by omega), if_neg (by omega), update_of_ne (by rintro rfl; simp at less)]
    · obtain rfl : i = ⟨o, low⟩ := Fin.ext same
      simp
    · rw [if_pos (by omega), if_pos (by omega), update_of_ne (by rintro rfl; simp at more),
        show i.val - o = i - (o + 1) + 1 by omega, List.getD_cons_succ]

theorem storeByte_changed {write : Nat × UInt8}
    (changed : storeByte m d frames write p o ≠ frames p o) :
    translate m d write.1 = some (p, o) := by
  unfold storeByte at changed
  cases found : translate m d write.1 with
  | none => simp [found] at changed
  | some x =>
    rw [found] at changed
    dsimp only at changed
    by_cases page : p = x.1
    · subst page
      by_cases byte : o = x.2
      · rw [byte]
      · exact absurd (by rw [update_self, update_of_ne byte]) changed
    · exact absurd (by rw [update_of_ne page]) changed

theorem stores_changed (changed : (stores va buf).foldl (storeByte m d) frames p o ≠ frames p o) :
    ∃ k < buf.length, translate m d (uint (va + k)) = some (p, o) := by
  induction buf generalizing va frames with
  | nil => exact absurd rfl changed
  | cons byte rest ih =>
    by_cases now : storeByte m d frames (uint va, byte) p o = frames p o
    · rw [← now] at changed
      obtain ⟨k, inside, there⟩ := ih changed
      exact ⟨k + 1, by simpa using inside, by rwa [Nat.add_comm k, ← Nat.add_assoc]⟩
    · exact ⟨0, by simp, storeByte_changed now⟩

/-! ## copyout -/

/-- `copyout` has stored all bytes, or those on the pages before the first one that the
user may not use. -/
structure Copies (m : Memory) (d : Page) (va : Nat) (buf : List UInt8) (frames : Frames)
    (done : Bool) (n : Nat) (frames' : Frames) : Prop where
  written : frames' = (stores va (buf.take n)).foldl (storeByte m d) frames
  user : OnUser m d va n
  whole : done = true → n = buf.length
  stopped : done = false → n < buf.length ∧ ¬UserPage m d (uint (va + n)) ∧
    (n = 0 ∨ uint (va + n) % PGSIZE = 0)

/-- What `copyout` returns when it has come to byte `n`. Where there is no page table it
dereferences the null pointer. -/
def Returns (m : Memory) (d : Page) (va : Nat) (done : Bool) (n : Nat) (result : Checked Bool) :
    Prop :=
  (done = true ∨ Tabled m d (uint (va + n))) ∧ result = .ok done ∨
    ¬(done = true ∨ Tabled m d (uint (va + n))) ∧ result = .error .null

theorem page_congr (same : a / PGSIZE = b / PGSIZE) : PDX a = PDX b ∧ PTX a = PTX b := by
  simp only [PDX, PTX, PGSIZE] at *
  omega

theorem UserPage.congr (user : UserPage m d a) (same : a / PGSIZE = b / PGSIZE) :
    UserPage m d b := by
  obtain ⟨dir, table⟩ := page_congr same
  rwa [UserPage, ← dir, ← table]

theorem uva2ka_tabled (tabled : Tabled m d va) : ∃ r, uva2ka m d va = .ok r ∧
    match r with
    | none => ¬UserPage m d va
    | some p => ∃ e, pte m d (PDX va) (PTX va) = some e ∧ e.flags &&& PTE_U ≠ 0 ∧ e.addr = p := by
  obtain ⟨pde, here⟩ := Option.ne_none_iff_exists'.mp tabled
  have entry : pte m d (PDX va) (PTX va) = m.contents pde.addr (PTX va) := by
    rw [pte, here, Option.bind_some]
  simp only [uva2ka, walkpgdir, here, deref, bind_ok]
  cases found : m.contents pde.addr (PTX va) with
  | none =>
    refine ⟨none, rfl, ?_⟩
    rintro ⟨e, there, -⟩
    rw [entry, found] at there
    cases there
  | some e =>
    rw [found] at entry
    dsimp only
    split
    · rename_i clear
      refine ⟨none, rfl, ?_⟩
      rintro ⟨e', there, set⟩
      rw [entry] at there
      cases there
      exact set clear
    · rename_i set
      exact ⟨some e.addr, rfl, e, entry, set, rfl⟩

theorem UserPage.tabled (user : UserPage m d va) : Tabled m d va := by
  obtain ⟨e, here, -⟩ := user
  intro absent
  rw [pte, absent] at here
  cases here

theorem OnUser.all (user : OnUser m d va buf.length) : Copies m d va buf frames true buf.length
    ((stores va (buf.take buf.length)).foldl (storeByte m d) frames) :=
  ⟨rfl, user, fun _ => rfl, by simp⟩

theorem onUser_zero (m : Memory) (d : Page) (va : Nat) : OnUser m d va 0 :=
  fun k inside => absurd inside (Nat.not_lt_zero k)

theorem copyoutLoop_copies (turns : Nat) (buf : List UInt8) (frames : Frames)
    (small : va < 0x100000000) (enough : buf.length ≤ turns) :
    ∃ done n result frames', copyoutLoop m d turns va buf frames = (result, frames') ∧
      Copies m d va buf frames done n frames' ∧ Returns m d va done n result := by
  induction turns generalizing va buf frames with
  | zero =>
    obtain rfl := List.eq_nil_of_length_eq_zero (Nat.le_zero.mp enough)
    exact ⟨true, 0, _, frames, rfl, (onUser_zero m d va).all, .inl ⟨.inl rfl, rfl⟩⟩
  | succ turns ih =>
    unfold copyoutLoop
    by_cases empty : buf = []
    · subst empty
      exact ⟨true, 0, _, frames, rfl, (onUser_zero m d va).all, .inl ⟨.inl rfl, rfl⟩⟩
    rw [if_neg empty]
    have positive : 0 < buf.length := List.length_pos_iff.mpr empty
    have page : PGROUNDDOWN va % PGSIZE = 0 ∧ PGROUNDDOWN va ≤ va ∧
        va < PGROUNDDOWN va + PGSIZE ∧ PGROUNDDOWN va / PGSIZE = va / PGSIZE := by
      simp only [PGROUNDDOWN, PGSIZE]
      omega
    generalize PGROUNDDOWN va = va0 at page
    obtain ⟨aligned, low, high, same⟩ := page
    have start : uint (va + 0) = va := Nat.mod_eq_of_lt small
    have tables : Tabled m d va0 ↔ Tabled m d va := by
      rw [Tabled, Tabled, (page_congr same).1]
    -- nothing is stored if this page is none of the user's
    have stops (result : Checked Bool) (outside : ¬UserPage m d va)
        (returns : Returns m d va false 0 result) : ∃ done n result' frames',
        (result, frames) = (result', frames') ∧ Copies m d va buf frames done n frames' ∧
          Returns m d va done n result' :=
      ⟨false, 0, result, frames, rfl, ⟨rfl, onUser_zero m d va, by simp,
        fun _ => ⟨positive, start.symm ▸ outside, .inl rfl⟩⟩, returns⟩
    by_cases tabled : Tabled m d va0
    · obtain ⟨r, found, page⟩ := uva2ka_tabled tabled
      rw [bind_run, found]
      cases r with
      | none =>
        refine stops _ (fun user => page (user.congr same.symm)) ?_
        exact .inl ⟨.inr (start.symm ▸ tables.mp tabled), rfl⟩
      | some p =>
        obtain ⟨e, entry, set, rfl⟩ := page
        obtain ⟨o, rfl⟩ := Nat.exists_eq_add_of_le low
        simp only [Nat.add_sub_cancel_left]
        generalize chunk : min (PGSIZE - o) buf.length = n
        -- the bytes on this page
        have user : OnUser m d (va0 + o) n := fun k inside =>
          UserPage.congr ⟨e, entry, set⟩ (by simp only [uint, PGSIZE] at *; omega)
        have taken : (buf.take n).length = n := by
          rw [List.length_take]
          omega
        have moved : (memmoveTo e.addr o (buf.take n) >>= fun _ =>
            copyoutLoop m d turns (uint (va0 + PGSIZE)) (buf.drop n)) frames =
            copyoutLoop m d turns (uint (va0 + PGSIZE)) (buf.drop n)
              ((stores (va0 + o) (buf.take n)).foldl (storeByte m d) frames) := by
          rw [stores_page aligned (by omega) entry (by omega)]
          rfl
        by_cases last : buf.length ≤ PGSIZE - o
        · obtain rfl : n = buf.length := by omega
          have ended : copyoutLoop m d turns (uint (va0 + PGSIZE)) (buf.drop buf.length) =
              pure true := by
            rw [List.drop_length]
            cases turns <;> rfl
          exact ⟨true, buf.length, _, _, moved.trans (by rw [ended]; rfl), user.all,
            .inl ⟨.inl rfl, rfl⟩⟩
        · obtain rfl : n = PGSIZE - o := by omega
          have next (k : Nat) :
              uint (uint (va0 + PGSIZE) + k) = uint (va0 + o + (PGSIZE - o + k)) := by
            rw [uint_add_uint]
            congr 1
            omega
          have rest : (buf.drop (PGSIZE - o)).length = buf.length - (PGSIZE - o) := List.length_drop
          obtain ⟨done, k, result, frames', ran, ⟨written, user', whole, stopped⟩, returns⟩ :=
            ih (buf.drop (PGSIZE - o))
              ((stores (va0 + o) (buf.take (PGSIZE - o))).foldl (storeByte m d) frames)
              (show uint (va0 + PGSIZE) < 0x100000000 from Nat.mod_lt _ (by decide)) (by omega)
          rw [Returns, next] at returns
          refine ⟨done, PGSIZE - o + k, result, frames', moved.trans ran,
            ⟨?_, fun i inside => ?_, fun all => ?_, fun short => ?_⟩, returns⟩
          · have edge (bytes : List UInt8) : stores (uint (va0 + PGSIZE)) bytes =
                stores (va0 + o + (PGSIZE - o)) bytes := stores_congr (by simpa using next 0)
            rw [written, List.take_add, stores_append, taken, List.foldl_append, edge]
          · by_cases first : i < PGSIZE - o
            · exact user i first
            · have there := user' (i - (PGSIZE - o)) (by omega)
              rwa [next, Nat.add_sub_cancel' (by omega)] at there
          · have := whole all
            omega
          · obtain ⟨inside, outside, edge⟩ := stopped short
            rw [next] at outside edge
            refine ⟨by omega, outside, .inr ?_⟩
            rcases edge with rfl | edge
            · simp only [uint, PGSIZE] at *
              omega
            · exact edge
    · have null : uva2ka m d va0 = .error .null := by
        rw [uva2ka, walkpgdir, not_not.mp tabled]
        rfl
      have absent := tables.not.mp tabled
      rw [bind_run, null]
      refine stops _ (fun user => absent user.tabled) ?_
      exact .inr ⟨by simpa only [start, Bool.false_eq_true, false_or] using absent, rfl⟩

theorem copyout_returns (buf : List UInt8) (frames : Frames) (small : va < 0x100000000) :
    ∃ done n result frames', copyout m d va buf frames = (result, frames') ∧
      Copies m d va buf frames done n frames' ∧
      (result = .ok done ∧ Reaches m d va buf.length ∨
        (∀ value, result ≠ .ok value) ∧ ¬Reaches m d va buf.length) := by
  obtain ⟨done, n, result, frames', ran, copies, returns⟩ :=
    copyoutLoop_copies (m := m) (d := d) buf.length buf frames small (Nat.le_refl _)
  refine ⟨done, n, result, frames', ran, copies, ?_⟩
  rcases returns with ⟨reached, rfl⟩ | ⟨missing, rfl⟩
  · refine .inl ⟨rfl, fun k inside before => ?_⟩
    rcases Nat.lt_trichotomy k n with less | rfl | more
    · exact (copies.user k less).tabled
    · rcases reached with whole | tabled
      · exact absurd (copies.whole whole) (Nat.ne_of_lt inside)
      · exact tabled
    · exfalso
      cases done with
      | true => exact absurd (copies.whole rfl) (by omega)
      | false => exact (copies.stopped rfl).2.1 (before n more)
  · obtain ⟨short, absent⟩ := not_or.mp missing
    refine .inr ⟨nofun, fun reaches => absent ?_⟩
    exact reaches n (copies.stopped (Bool.eq_false_of_not_eq_true short)).1 copies.user

/-! ## The arguments -/

/-- Only bytes on pages of the user have changed. -/
def OnUserPages (m : Memory) (d : Page) (frames frames' : Frames) : Prop :=
  ∀ p o, frames' p o ≠ frames p o → ∃ va, UserPage m d va ∧ translate m d va = some (p, o)

theorem OnUserPages.trans (first : OnUserPages m d frames frames₁)
    (second : OnUserPages m d frames₁ frames') : OnUserPages m d frames frames' := by
  intro p o changed
  by_cases same : frames₁ p o = frames p o
  · exact second p o (by rwa [same])
  · exact first p o same

theorem Copies.onUserPages (copies : Copies m d va buf frames done n frames') :
    OnUserPages m d frames frames' := by
  intro p o changed
  rw [copies.written] at changed
  obtain ⟨k, inside, there⟩ := stores_changed changed
  exact ⟨_, copies.user k (Nat.lt_of_lt_of_le inside (List.length_take_le _ _)), there⟩

theorem Copies.onUser (copies : Copies m d va buf frames done n frames') :
    OnUser m d va buf.length ↔ done = true := by
  constructor
  · intro user
    cases done with
    | true => rfl
    | false =>
      obtain ⟨inside, outside, -⟩ := copies.stopped rfl
      exact absurd (user n inside) outside
  · intro all
    rw [← copies.whole all]
    exact copies.user

/-- What a program ends in: it returns or not as a condition says, and in any case only
bytes on pages of the user have changed. -/
def Ends (m : Memory) (d : Page) (frames : Frames) (run : Checked α × Frames) (reaches : Prop) : Prop :=
  OnUserPages m d frames run.2 ∧ ((∃ value, run.1 = .ok value) ↔ reaches)

theorem ends_copyout (next : Run (Option α)) (reaches : Prop) (buf : List UInt8)
    (frames : Frames) (small : va < 0x100000000)
    (later : OnUser m d va buf.length → ∀ frames', Ends m d frames' (next frames') reaches) :
    Ends m d frames ((do if ← copyout m d va buf then next else return none) frames)
      (Reaches m d va buf.length ∧ (OnUser m d va buf.length → reaches)) := by
  obtain ⟨done, n, result, frames', ran, copies, ends⟩ := copyout_returns buf frames small
  rw [bind_run, ran]
  rcases ends with ⟨rfl, here⟩ | ⟨fails, missing⟩
  · cases done with
    | true =>
      have user := copies.onUser.mpr rfl
      obtain ⟨kept, iff⟩ := later user frames'
      refine ⟨copies.onUserPages.trans kept, ?_⟩
      simpa [here, user] using iff
    | false =>
      have outside : ¬OnUser m d va buf.length := fun user => by cases copies.onUser.mp user
      exact ⟨copies.onUserPages,
        iff_of_true ⟨none, rfl⟩ ⟨here, fun user => absurd user outside⟩⟩
  · cases result with
    | ok value => exact absurd rfl (fails value)
    | error fault => exact ⟨copies.onUserPages, by simp [missing]⟩

theorem length_flatMap_bytesOf (words : List Nat) :
    (words.flatMap bytesOf).length = 4 * words.length := by
  induction words with
  | nil => rfl
  | cons word rest ih =>
    rw [List.flatMap_cons, List.length_append, ih, List.length_cons, Nat.mul_succ, Nat.add_comm]
    rfl

theorem minus_lt (a b : Nat) : minus a b < 0x100000000 := Nat.mod_lt _ (by decide)

theorem pushWords_ends (sp : Nat) (args : List Nat) (frames : Frames) :
    Ends m d frames (pushWords m d sp args frames)
      (Reaches m d (minus sp ((3 + args.length + 1) * 4)) (4 * (3 + args.length + 1))) := by
  have whole := ends_copyout (m := m) (d := d) (return some (minus sp ((3 + args.length + 1) * 4)))
    True (([0xFFFFFFFF, args.length, minus sp ((args.length + 1) * 4)] ++ args ++
      [0]).flatMap bytesOf) frames (minus_lt sp ((3 + args.length + 1) * 4))
    fun _ frames' => ⟨fun p o changed => absurd rfl changed, iff_of_true ⟨_, rfl⟩ trivial⟩
  have size : (([0xFFFFFFFF, args.length, minus sp ((args.length + 1) * 4)] ++ args ++
      [0]).flatMap bytesOf).length = 4 * (3 + args.length + 1) := by
    rw [length_flatMap_bytesOf]
    simp
    omega
  rw [size, implies_true, and_true] at whole
  exact whole

theorem pushStrings_ends (argv : List (List UInt8)) (sp : Nat) (ustack : List Nat)
    (frames : Frames) : Ends m d frames ((pushStrings m d sp ustack argv >>= fun
      | none => return none
      | some (sp, args) => pushWords m d sp args) frames)
      (ArgsReach m d sp ustack.length argv) := by
  induction argv generalizing sp ustack frames with
  | nil => exact pushWords_ends sp ustack frames
  | cons arg rest ih =>
    rw [pushStrings, ArgsReach]
    split
    · refine ⟨fun p o changed => absurd rfl changed, iff_of_true ⟨none, rfl⟩ fun room => ?_⟩
      omega
    · rename_i room
      have whole := ends_copyout (m := m) (d := d)
        (pushStrings m d (minus sp (arg.length + 1) / 4 * 4)
            (ustack ++ [minus sp (arg.length + 1) / 4 * 4]) rest >>= fun
          | none => return none
          | some (sp, args) => pushWords m d sp args) _ (arg ++ [0]) frames
        (Nat.lt_of_le_of_lt (Nat.div_mul_le_self _ 4) (minus_lt sp (arg.length + 1)))
        fun _ frames' => ih _ _ frames'
      simp only [List.length_append, List.length_singleton] at whole
      simp only [Nat.lt_of_not_le room, true_implies]
      rw [bind_assoc]
      convert whole using 3 with done
      cases done <;> rfl

theorem pushArgs_ends (sz : Nat) (argv : List (List UInt8)) (frames : Frames) :
    Ends m d frames (pushArgs m d sz argv frames) (ArgsReach m d sz 0 argv) :=
  pushStrings_ends argv sz [] frames

end

theorem stack_built : ∃ m₁ m₂ m d, setupkvm oneMapping freshMemory = .ok (some d, m₁) ∧
    allocuvm m₁ d 0 (2 * PGSIZE) = .ok (2 * PGSIZE, m₂) ∧ clearpteu m₂ d 0 = .ok m ∧
    (Tabled m d 0 ∧ ¬UserPage m d 0) ∧ ¬Tabled m d 0x40000000 ∧ ¬Tabled m d 0xFD001FFC := by
  obtain ⟨⟨_, m₁⟩, made, d, rfl, ⟨_, m₂⟩, grown, rfl, m, cleared, tabled, guard, absent⟩ :
      ∃ r, setupkvm oneMapping freshMemory = .ok r ∧ ∃ d ∈ r.1,
        ∃ q, allocuvm r.2 d 0 (2 * PGSIZE) = .ok q ∧ q.1 = 2 * PGSIZE ∧
        ∃ m, clearpteu q.2 d 0 = .ok m ∧ Tabled m d 0 ∧
          (∀ e ∈ pte m d 0 0, e.flags &&& PTE_U = 0) ∧
          ¬Tabled m d 0x40000000 ∧ ¬Tabled m d 0xFD001FFC := by
    decide +kernel
  refine ⟨m₁, m₂, m, d, made, grown, cleared, ⟨tabled, ?_⟩, absent⟩
  rintro ⟨e, here, user⟩
  exact user (guard e here)

/-- For every page directory: `copyout` returns 0 with all bytes written to pages of the
user, or -1 at the first page that is none of the user's with the bytes before it written, if
and only if there is a page table wherever it looks. The stack that `exec` makes is written
to pages of the user only, and `exec` does not fault if and only if the same holds for its
copies. -/
theorem copyout_user_pages (m : Memory) (d : Page) (frames : Frames) :
    (∀ va buf, va < 0x100000000 →
      ((∃ done n frames', copyout m d va buf frames = (.ok done, frames') ∧
        Copies m d va buf frames done n frames') ↔ Reaches m d va buf.length)) ∧
    ∀ sz argv, OnUserPages m d frames (pushArgs m d sz argv frames).2 ∧
      ((∃ r, (pushArgs m d sz argv frames).1 = .ok r) ↔ ArgsReach m d sz 0 argv) := by
  refine ⟨fun va buf small => ?_, fun sz argv => pushArgs_ends sz argv frames⟩
  obtain ⟨done, n, result, frames', ran, copies, ends⟩ :=
    copyout_returns (m := m) (d := d) buf frames small
  rw [ran]
  rcases ends with ⟨rfl, reaches⟩ | ⟨fails, missing⟩
  · exact iff_of_true ⟨done, n, frames', rfl, copies⟩ reaches
  · refine iff_of_false ?_ missing
    rintro ⟨done, n, frames', same, -⟩
    exact fails done (congrArg Prod.fst same)

/-- A copy of more than a gigabyte to address 0 returns at the page below the stack, and
does not come to the addresses without page tables. -/
theorem copyout_user_pages_guard : ∃ m d done n frames', ¬Tabled m d 0x40000000 ∧
    copyout m d 0 (List.replicate 0x40000001 7) (fun _ _ => 0) = (.ok done, frames') ∧
      Copies m d 0 (List.replicate 0x40000001 7) (fun _ _ => 0) done n frames' := by
  obtain ⟨-, -, m, d, -, -, -, ⟨tabled, guard⟩, absent, -⟩ := stack_built
  obtain ⟨done, n, frames', ran, copies⟩ := ((copyout_user_pages m d fun _ _ => 0).1 0
    (List.replicate 0x40000001 7) (by decide)).mpr fun k inside before => by
      cases k with
      | zero => exact tabled
      | succ k => exact absurd (before 0 (Nat.succ_pos k)) guard
  exact ⟨m, d, done, n, frames', absent, ran, copies⟩

theorem copyout_untabled (absent : ¬Tabled m d va) (some : buf ≠ []) (frames : Frames) :
    copyout m d va buf frames = (.error .null, frames) := by
  obtain ⟨byte, rest, rfl⟩ := List.exists_cons_of_ne_nil some
  have same : PDX (PGROUNDDOWN va) = PDX va :=
    (page_congr (by simp only [PGROUNDDOWN, PGSIZE]; omega)).1
  have null : uva2ka m d (PGROUNDDOWN va) = .error .null := by
    rw [uva2ka, walkpgdir, same, not_not.mp absent]
    rfl
  rw [copyout, List.length_cons, copyoutLoop, if_neg some, bind_run, null]
  rfl

theorem pushArgs_untabled (absent : ¬Tabled m d (minus sz (arg.length + 1) / 4 * 4))
    (frames : Frames) : pushArgs m d sz [arg] frames = (.error .null, frames) := by
  rw [pushArgs, pushStrings, if_neg (by decide), bind_run, bind_run,
    copyout_untabled absent (List.append_ne_nil_of_right_ne_nil _ (List.cons_ne_nil _ _)) frames]

/-- The bytes at 0x40000000 have no page table, and a string of 48 megabytes takes the stack
pointer to an address between the kernel's memory and the devices. -/
theorem long_argument_reads_null : ∃ m₁ m₂ m d,
    setupkvm oneMapping freshMemory = .ok (some d, m₁) ∧
    allocuvm m₁ d 0 (2 * PGSIZE) = .ok (2 * PGSIZE, m₂) ∧ clearpteu m₂ d 0 = .ok m ∧
    ∀ frames, copyout m d 0x40000000 [0] frames = (.error .null, frames) ∧
      pushArgs m d (2 * PGSIZE) [List.replicate 0x3000000 97] frames = (.error .null, frames) := by
  obtain ⟨m₁, m₂, m, d, made, grown, cleared, -, low, high⟩ := stack_built
  refine ⟨m₁, m₂, m, d, made, grown, cleared, fun frames =>
    ⟨copyout_untabled low (by simp) frames, ?_⟩⟩
  refine pushArgs_untabled ?_ frames
  rw [List.length_replicate, show minus (2 * PGSIZE) (0x3000000 + 1) / 4 * 4 = 0xFD001FFC by decide]
  exact high

end Xv6.CopyOut
