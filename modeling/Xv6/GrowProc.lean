import Xv6.GrownSpace
import Xv6.ProcMemory

/-! `growproc`, for every argument of `sbrk`. It grows and shrinks a process as asked, or
fails and changes nothing, exactly when some of the process remains or there was nothing of
it: the size 0 is also the error value of `allocuvm` and `deallocuvm`, and a size below 0
wraps around. -/
namespace Xv6.GrowProc
open Function
open CheckedC BlockPool PageTables PageOwnership AddressSpaces SideState PageBytes GrownSpace
open ProcMemory

/-- The user pages of the directory are exactly those below the rounded size. -/
def Exactly (m : Memory) (d : Page) (sz : Nat) : Prop :=
  ∀ i j, i < 512 → j < 1024 → (pte m d i j ≠ none ↔ base i j < PGROUNDUP sz)

/-- No page is used twice, and `kfree` accepts the user pages and the free ones. -/
structure Sound (m : Memory) (d : Page) : Prop where
  apart : Apart m.toPool (pages m d)
  positive : 0 < m.kernelEnd
  free : ∀ p ∈ m.freelist, Usable m p
  user : ∀ p ∈ users m d, Usable m p

section
variable {m : Memory} {d : Page}

theorem allocuvm_exactly (sound : Sound m d) (exactly : Exactly m d oldsz) (grows : oldsz ≤ newsz)
    (user : newsz < KERNBASE) :
    ∃ r m', allocuvm m d oldsz newsz = .ok (r, m') ∧
      (r = newsz ∧ Exactly m' d newsz ∨
        r = 0 ∧ ∀ i j, i < 512 → j < 1024 → pte m' d i j = pte m d i j) := by
  have least : PGROUNDUP oldsz ≤ PGROUNDUP newsz := by
    simp only [PGROUNDUP, uint, PGSIZE, KERNBASE] at *
    omega
  obtain ⟨r, m', frames', ran, outcome⟩ := allocLoopBytes_ends sound.apart sound.free
    sound.positive exactly grows user newsz (growing_refl exactly fun _ _ => 0)
    (pgroundup_mod oldsz) (Nat.le_refl _) least (by simp only [PGSIZE]; omega)
  refine ⟨r, m', ?_, ?_⟩
  · rw [allocuvm, if_neg (by omega), if_neg (by omega)]
    exact allocLoopBytes_erases.returns ran
  · rcases outcome with ⟨rfl, growing⟩ | ⟨rfl, restored⟩
    · exact .inl ⟨rfl, fun i j => growing.present exactly⟩
    · exact .inr ⟨rfl, restored.entries⟩

theorem deallocuvm_exactly (sound : Sound m d) (exactly : Exactly m d oldsz)
    (shrinks : newsz < oldsz) (user : oldsz ≤ KERNBASE) :
    ∃ m', deallocuvm m d oldsz newsz = .ok (newsz, m') ∧ Exactly m' d newsz := by
  obtain ⟨r, m', frames', ran, -⟩ := deallocuvmBytes_returns (P := fun _ => True)
    (fun _ _ => 0) sound.apart user sound.positive
    fun i j e small small' (_ : PGROUNDUP newsz ≤ base i j) _ there =>
      ⟨sound.user _ (user_mem small small' there), trivial⟩
  have plain := deallocuvmBytes_erases.returns ran
  obtain ⟨-, -, rfl, cleared⟩ := deallocuvm_moves sound.apart user plain
  rw [Nat.min_eq_right (Nat.le_of_lt shrinks)] at plain
  refine ⟨m', plain, fun i j small small' => ?_⟩
  have before := exactly i j small small'
  have high := pgroundup_le_base user i j
  have low := pgroundup_le_base (show newsz ≤ KERNBASE by omega) i j
  rw [cleared i j small small']
  split
  · exact iff_of_false (fun some => some rfl) (by omega)
  · rw [before]
    omega

end

/-- `growproc` has returned 0 with the size it was asked for and exactly the pages below it,
or -1 with the size and the pages of before. -/
def AllOrNothing (s : State) (p : Pid) (d : Page) (n : Int) (done : Bool) (after : State) : Prop :=
  (after.proc p).pgdir = some d ∧
    (done = true ∧ ((after.proc p).sz : Int) = (s.proc p).sz + n ∧
        Exactly after.memory d (after.proc p).sz ∨
      done = false ∧ (after.proc p).sz = (s.proc p).sz ∧
        ∀ i j, i < 512 → j < 1024 → pte after.memory d i j = pte s.memory d i j)

section
variable {s : State} {n : Int} (here : (s.proc p).pgdir = some d) (sound : Sound s.memory d)
  (limit : (s.proc p).sz ≤ KERNBASE) (exactly : Exactly s.memory d (s.proc p).sz)
include here sound limit exactly

omit here sound exactly in
theorem size_after (positive : 0 ≤ (s.proc p).sz + n) (high : n < 2 ^ 31) :
    ∃ newsz : Nat, (s.proc p).sz + n = newsz ∧
      (((s.proc p).sz + n : Int) % 0x100000000).toNat = newsz := by
  have bound : (s.proc p).sz ≤ 0x80000000 := limit
  obtain ⟨newsz, sum⟩ := Int.eq_ofNat_of_zero_le positive
  exact ⟨newsz, sum, by omega⟩

theorem growproc_grows (grows : 0 < n) (high : n < 2 ^ 31) :
    ∃ done after, growproc s p n = .ok (done, after) ∧ AllOrNothing s p d n done after := by
  obtain ⟨newsz, sum, size⟩ := size_after limit (by omega) high
  simp only [growproc, here, deref, bind_ok, if_pos grows, size]
  by_cases user : newsz < KERNBASE
  · obtain ⟨r, m', ran, outcome⟩ :=
      allocuvm_exactly sound exactly (show (s.proc p).sz ≤ newsz by omega) user
    rw [ran, bind_ok]
    rcases outcome with ⟨rfl, grown⟩ | ⟨rfl, kept⟩
    · rw [if_neg (by omega)]
      refine ⟨_, _, rfl, ?_⟩
      simp only [AllOrNothing, State.setProc, update_self, true_and]
      exact .inl ⟨by omega, grown⟩
    · exact ⟨_, _, rfl, here, .inr ⟨rfl, rfl, kept⟩⟩
  · rw [allocuvm, if_pos (by omega), bind_ok]
    exact ⟨_, _, rfl, here, .inr ⟨rfl, rfl, fun _ _ _ _ => rfl⟩⟩

theorem growproc_shrinks (shrinks : n < 0) (remains : 0 < (s.proc p).sz + n) :
    ∃ done after, growproc s p n = .ok (done, after) ∧ AllOrNothing s p d n done after := by
  obtain ⟨newsz, sum, size⟩ := size_after (n := n) limit (by omega) (by omega)
  obtain ⟨m', ran, kept⟩ :=
    deallocuvm_exactly sound exactly (show newsz < (s.proc p).sz by omega) limit
  simp only [growproc, here, deref, bind_ok, if_neg (show ¬ 0 < n by omega), if_pos shrinks, size,
    ran, if_neg (show ¬ newsz = 0 by omega)]
  refine ⟨_, _, rfl, ?_⟩
  simp only [AllOrNothing, State.setProc, update_self, true_and]
  exact .inl ⟨by omega, kept⟩

theorem growproc_to_zero (some : 0 < (s.proc p).sz) (nothing : (s.proc p).sz + n = 0) :
    ∃ m', growproc s p n = .ok (false, { s with memory := m' }) ∧ pte m' d 0 0 = none ∧
      pte s.memory d 0 0 ≠ none := by
  obtain ⟨m', ran, kept⟩ := deallocuvm_exactly sound exactly some limit
  have size : (((s.proc p).sz + n : Int) % 0x100000000).toNat = 0 := by omega
  refine ⟨m', ?_, ?_, (exactly 0 0 (by decide) (by decide)).mpr ?_⟩
  · simp only [growproc, here, deref, bind_ok, if_neg (show ¬ 0 < n by omega),
      if_pos (show n < 0 by omega), size, ran, if_true]
    rfl
  · by_contra there
    exact absurd ((kept 0 0 (by decide) (by decide)).mp there) (Nat.not_lt_zero _)
  · rw [show base 0 0 = 0 from rfl]
    have bound : (s.proc p).sz ≤ 0x80000000 := limit
    simp only [PGROUNDUP, uint, PGSIZE]
    omega

omit sound limit exactly in
theorem growproc_below_zero (low : -2 ^ 31 ≤ n) (below : (s.proc p).sz + n < 0) :
    growproc s p n = .ok (decide ((s.proc p).sz ≠ 0), s) := by
  have same : deallocuvm s.memory d (s.proc p).sz
      (((s.proc p).sz + n : Int) % 0x100000000).toNat = .ok ((s.proc p).sz, s.memory) := by
    rw [deallocuvm, if_pos (by omega)]
  simp only [growproc, here, deref, bind_ok, if_neg (show ¬ 0 < n by omega),
    if_pos (show n < 0 by omega), same]
  by_cases empty : (s.proc p).sz = 0
  · rw [if_pos empty, empty]
    rfl
  · have still : s.setProc p { s.proc p with pgdir := some d } = s := by
      simp only [State.setProc, ← here, update_eq_self]
    rw [if_neg empty, decide_eq_true empty]
    exact congrArg (fun s => Except.ok (true, s)) still

/-- For every argument: `growproc` does all of what it was asked for or nothing if and only
if it does not shrink a process that has memory to nothing or less. -/
theorem growproc_all_or_nothing (low : -2 ^ 31 ≤ n) (high : n < 2 ^ 31) :
    (∃ done after, growproc s p n = .ok (done, after) ∧ AllOrNothing s p d n done after) ↔
      0 ≤ n ∨ 0 < (s.proc p).sz + n ∨ (s.proc p).sz = 0 := by
  rcases Int.lt_trichotomy 0 n with grows | rfl | shrinks
  · exact iff_of_true (growproc_grows here sound limit exactly grows high) (.inl (by omega))
  · refine iff_of_true ⟨true, s, ?_, here, .inl ⟨rfl, by omega, exactly⟩⟩ (.inl (Int.le_refl 0))
    rw [growproc, here]
    rfl
  · rcases Int.lt_trichotomy 0 ((s.proc p).sz + n) with remains | nothing | below
    · exact iff_of_true (growproc_shrinks here sound limit exactly shrinks remains)
        (.inr (.inl remains))
    · obtain ⟨m', ran, gone, there⟩ :=
        growproc_to_zero here sound limit exactly (by omega) nothing.symm
      refine iff_of_false ?_ (by omega)
      rintro ⟨done, after, same, -, outcome⟩
      rw [ran] at same
      cases same
      rcases outcome with ⟨done, -⟩ | ⟨-, -, kept⟩
      · cases done
      · exact there ((kept 0 0 (by decide) (by decide)).symm.trans gone)
    · have ran := growproc_below_zero here low below
      by_cases empty : (s.proc p).sz = 0
      · refine iff_of_true ⟨_, _, ran, here, .inr ⟨?_, rfl, fun _ _ _ _ => rfl⟩⟩
          (.inr (.inr empty))
        simp [empty]
      · refine iff_of_false ?_ (by omega)
        rintro ⟨done, after, same, -, outcome⟩
        rw [ran] at same
        cases same
        rcases outcome with ⟨-, size, -⟩ | ⟨fails, -⟩
        · omega
        · simp [empty] at fails

end

def onlyProcess (m : Memory) (sz : Nat) : State where
  memory := m
  proc _ := { state := .runnable, kstack := some (EXTMEM + PGSIZE), pgdir := some EXTMEM, sz := sz }
  file _ := {}
  pipe _ := {}
  kpgdir := 0
  cpuStacks := []
  initproc := 0

theorem emptySpace_sound : Sound emptySpace EXTMEM := by
  have alone : pages emptySpace EXTMEM = {EXTMEM} := pages_empty fun _ => rfl
  refine ⟨?_, by decide, ?_, ?_⟩
  · rw [alone]
    unfold Apart
    decide
  · unfold Usable
    decide
  · intro p member
    have none : users emptySpace EXTMEM = 0 := Finset.sum_eq_zero fun x _ => rfl
    rw [none] at member
    exact absurd member (Multiset.notMem_zero p)

theorem emptySpace_exactly : Exactly emptySpace EXTMEM 0 := fun _ _ _ _ =>
  ⟨fun there => absurd rfl there, fun below => absurd below (Nat.not_lt_zero _)⟩

/-- An empty process grows by 6000 bytes. -/
theorem growproc_all_or_nothing_empty : ∃ after,
    growproc (onlyProcess emptySpace 0) 0 6000 = .ok (true, after) ∧ (after.proc 0).sz = 6000 := by
  have grown : ∃ r, growproc (onlyProcess emptySpace 0) 0 6000 = .ok r ∧ r.1 = true := by
    decide +kernel
  obtain ⟨done, after, ran, -, outcome⟩ := (growproc_all_or_nothing
    (show ((onlyProcess emptySpace 0).proc 0).pgdir = some EXTMEM from rfl) emptySpace_sound
    (by decide) emptySpace_exactly (show -2 ^ 31 ≤ 6000 by decide) (by decide)).mpr (by decide)
  rw [ran] at grown
  obtain ⟨_, ⟨⟩, succeeds⟩ := grown
  rcases outcome with ⟨rfl, size, -⟩ | ⟨rfl, -⟩
  · simp only [onlyProcess] at size
    exact ⟨after, ran, by omega⟩
  · cases succeeds

/-- A process of one page asks to be made smaller by a page, and fails, but its page is gone;
if it asks for two pages less, it succeeds and nothing has changed. -/
theorem growproc_drops_page : ∃ s after : State, (s.proc 0).sz = PGSIZE ∧
    (s.proc 0).pgdir = some EXTMEM ∧ Exactly s.memory EXTMEM PGSIZE ∧
    growproc s 0 (-PGSIZE) = .ok (false, after) ∧ (after.proc 0).sz = PGSIZE ∧
    pte after.memory EXTMEM 0 0 = none ∧
    ∃ same, growproc s 0 (-(2 * PGSIZE)) = .ok (true, same) ∧ (same.proc 0).sz = PGSIZE := by
  obtain ⟨r, m, ran, outcome⟩ := allocuvm_exactly emptySpace_sound emptySpace_exactly
    (show 0 ≤ PGSIZE by decide) (by decide)
  have runs : ∃ made, allocuvm emptySpace EXTMEM 0 PGSIZE = .ok made ∧ made.1 = PGSIZE ∧
      (∃ r, growproc (onlyProcess made.2 PGSIZE) 0 (-PGSIZE) = .ok r ∧ r.1 = false ∧
        (r.2.proc 0).sz = PGSIZE ∧ pte r.2.memory EXTMEM 0 0 = none) ∧
      ∃ r, growproc (onlyProcess made.2 PGSIZE) 0 (-(2 * PGSIZE)) = .ok r ∧ r.1 = true ∧
        (r.2.proc 0).sz = PGSIZE := by
    decide +kernel
  rw [ran] at runs
  obtain ⟨_, ⟨⟩, rfl, ⟨⟨_, after⟩, fails, rfl, size, gone⟩, ⟨_, same⟩, succeeds, rfl, size'⟩ := runs
  rcases outcome with ⟨-, exactly⟩ | ⟨zero, -⟩
  · exact ⟨onlyProcess m PGSIZE, after, rfl, rfl, exactly, fails, size, gone, same, succeeds,
      size'⟩
  · cases zero

end Xv6.GrowProc
