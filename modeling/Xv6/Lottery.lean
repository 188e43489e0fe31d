import Mathlib.Dynamics.PeriodicPts.Defs
import Xv6.ReadyQueues
import Xv6.PrefixSearch

/-! The lottery of queue 0. The draw is a number from 0 to the total of the
tickets and the search loop stops at the least position whose running sum of
tickets reaches it, so the search never leaves the queue. The draw 0 belongs to no
ticket and goes to the first process. The generator falls into a cycle of four
values after 101 draws. -/
namespace Xv6.Lottery
open CheckedC ArrayQueue ProcTable ReadyQueues PrefixSearch Function

def tickets (t : PTable) (items : List ProcId) : List Int :=
  items.map fun p => (t.proc p).tickets

/-- Queue 0 holds these processes, at least one, and all of them are RUNNABLE. -/
structure Standing (t : PTable) (items : List ProcId) : Prop where
  held : Holds (t.queueReady 0) (t.countQueue 0) items
  nonempty : items ≠ []
  runnable : ∀ p ∈ items, (t.proc p).state = .runnable

/-- The search loop of the lottery branch, from the first position. -/
def search (t : PTable) (golden : Int) : Checked (Int × Option ProcId) :=
  lotterySearch t golden (t.countQueue 0).toNat 0 0 none

/-! ## The total and the search -/

theorem sumTo_tickets_succ (inside : i < items.length) :
    sumTo (tickets t items) (i + 1) =
      sumTo (tickets t items) i + (t.proc items[i]).tickets := by
  rw [sumTo_succ (by simpa [tickets] using inside)]
  simp [tickets]

theorem tickets_nonneg (nonneg : ∀ p ∈ items, 0 ≤ (t.proc p).tickets) :
    ∀ w ∈ tickets t items, 0 ≤ w := by
  intro w member
  obtain ⟨p, queued, rfl⟩ := List.mem_map.mp member
  exact nonneg p queued

theorem loteriaTotal_eq (standing : Standing t items) :
    loteriaTotal t = .ok (tickets t items).sum := by
  have counted := standing.held.counted
  obtain ⟨total, ran, sum⟩ := forLoop_invariant
    (fun i total => total = sumTo (tickets t items) i.toNat) 0 (t.countQueue 0)
    (fun i total => do
      let p ← deref (← load (t.queueReady 0) i)
      return if (t.proc p).state = .runnable then total + (t.proc p).tickets else total)
    0 (by omega) rfl
    (fun i total low high sum => by
      obtain ⟨i, rfl⟩ := Int.eq_ofNat_of_zero_le low
      have inside : i < items.length := by omega
      rw [standing.held.load inside]
      refine ⟨_, rfl, ?_⟩
      rw [if_pos (standing.runnable _ (List.getElem_mem inside)), sum]
      exact (sumTo_tickets_succ inside).symm)
  rw [loteriaTotal, ran, sum, counted, Int.toNat_natCast, ← sumTo_length]
  simp [tickets]

theorem lotterySearch_from (held : Holds (t.queueReady 0) count items)
    (selected : Selects (tickets t items) golden i) (inside : i < items.length)
    (behind : i = aux + distance) (last : Option ProcId) :
    lotterySearch t golden (items.length - aux) aux (sumTo (tickets t items) aux) last =
      .ok ((i : Int), some items[i]) := by
  induction distance generalizing aux last with
  | zero =>
    obtain rfl : i = aux := behind
    obtain ⟨left, turns⟩ : ∃ left, items.length - i = left + 1 := ⟨items.length - i - 1, by omega⟩
    have stop : ¬ sumTo (tickets t items) i + (t.proc items[i]).tickets < golden := by
      rw [← sumTo_tickets_succ inside]
      exact not_lt.mpr selected.reached
    rw [turns, lotterySearch, held.load inside]
    simp only [bind_ok, deref, if_neg stop]
    rfl
  | succ distance ih =>
    have before : aux < items.length := by omega
    obtain ⟨left, turns⟩ : ∃ left, items.length - aux = left + 1 :=
      ⟨items.length - aux - 1, by omega⟩
    have go : sumTo (tickets t items) aux + (t.proc items[aux]).tickets < golden := by
      rw [← sumTo_tickets_succ before]
      exact selected.least aux (by omega)
    have rest := ih (show i = aux + 1 + distance by omega) (some items[aux])
    rw [sumTo_tickets_succ before, show items.length - (aux + 1) = left by omega] at rest
    rw [turns, lotterySearch, held.load before]
    simp only [bind_ok, deref, if_pos go]
    exact rest

theorem search_eq (held : Holds (t.queueReady 0) (t.countQueue 0) items)
    (selected : Selects (tickets t items) golden i) (inside : i < items.length) :
    search t golden = .ok ((i : Int), some items[i]) := by
  have ran := lotterySearch_from held selected inside (Nat.zero_add i).symm none
  rw [search, held.counted, Int.toNat_natCast]
  exact ran

theorem search_iff (standing : Standing t items) (reached : golden ≤ (tickets t items).sum)
    (inside : i < items.length) :
    search t golden = .ok ((i : Int), some items[i]) ↔ Selects (tickets t items) golden i := by
  refine ⟨fun ran => ?_, fun selected => search_eq standing.held selected inside⟩
  have nonempty : tickets t items ≠ [] := by simpa [tickets] using standing.nonempty
  obtain ⟨j, selected⟩ := exists_selects nonempty reached
  have stopped := search_eq standing.held selected (by simpa [tickets] using selected.inside)
  rw [stopped] at ran
  simp only [Except.ok.injEq, Prod.mk.injEq, Nat.cast_inj] at ran
  rwa [← ran.1]

/-! ## The generator -/

/-- The static variable of `Random` after `k` calls. -/
def draws (k : Nat) : Int := random^[k] 3251

theorem random_range (next : Int) : 0 ≤ random next ∧ random next ≤ 9999 := by
  have square : 0 ≤ next * next := mul_self_nonneg next
  have part : 0 ≤ (next * next).tdiv 100 := Int.tdiv_nonneg square (by decide)
  have low := Int.tmod_nonneg 10000 part
  have high := Int.tmod_lt_of_pos ((next * next).tdiv 100) (show (0 : Int) < 10000 by decide)
  rw [random]
  omega

theorem draws_succ (k : Nat) : draws (k + 1) = random (draws k) :=
  Function.iterate_succ_apply' random k 3251

theorem draws_range (k : Nat) : 0 ≤ draws k ∧ draws k ≤ 9999 := by
  cases k with
  | zero => decide
  | succ k =>
    rw [draws_succ]
    exact random_range _

theorem randomInRange_eq {max : Int} (next : Int) (nonneg : 0 ≤ max) :
    randomInRange next 0 max = .ok ((random next).tmod (max + 1), random next) ∧
      0 ≤ (random next).tmod (max + 1) ∧ (random next).tmod (max + 1) ≤ max := by
  have low := Int.tmod_nonneg (max + 1) (random_range next).1
  have high := Int.tmod_lt_of_pos (random next) (show 0 < max + 1 by omega)
  refine ⟨?_, low, by omega⟩
  rw [randomInRange, remainder, sub_zero, if_neg (by omega), bind_ok, add_zero]
  rfl

theorem wrapped_divisor {max : Int} (next : Int) (nonneg : 0 ≤ max) (fits : max < 2 ^ 31) :
    (max + 1).bmod (2 ^ 32) ≠ 0 ∧
      (random next).tmod ((max + 1).bmod (2 ^ 32)) = (random next).tmod (max + 1) := by
  by_cases largest : max = 2 ^ 31 - 1
  · subst largest
    have wrapped : ((2 ^ 31 - 1 : Int) + 1).bmod (2 ^ 32) = -2 ^ 31 := by decide
    rw [wrapped, Int.tmod_neg, show ((2 : Int) ^ 31 - 1 + 1) = 2 ^ 31 by decide]
    exact ⟨by decide, rfl⟩
  · have same : (max + 1).bmod (2 ^ 32) = max + 1 :=
      Int.bmod_eq_of_le (by norm_num; omega) (by norm_num; omega)
    rw [same]
    exact ⟨by omega, rfl⟩

/-! ## The draw lands in the queue -/

/-- For every number of draws made before and every queue of RUNNABLE processes
with tickets: the square fits an int, the draw is a number up to the total, also
with the divisor in 32 bits, and the loop stops at the least position whose
running sum, which fits an int too, reaches it. -/
theorem draw_lands_in_queue (standing : Standing t items)
    (positive : ∀ p ∈ items, 0 < (t.proc p).tickets) (fits : (tickets t items).sum < 2 ^ 31)
    (k : Nat) (seeded : t.next = draws k) :
    t.next * t.next < 2 ^ 31 ∧ (0 ≤ random t.next ∧ random t.next ≤ 9999) ∧
    ∃ total golden, loteriaTotal t = .ok total ∧ total = (tickets t items).sum ∧
      total + 1 - 0 ≠ 0 ∧ (total + 1 - 0).bmod (2 ^ 32) ≠ 0 ∧
      randomInRange t.next 0 total = .ok (golden, random t.next) ∧
      (random t.next).tmod ((total + 1 - 0).bmod (2 ^ 32)) + 0 = golden ∧
      0 ≤ golden ∧ golden ≤ total ∧
      ∃ (i : Nat) (inside : i < items.length), (i : Int) < t.countQueue 0 ∧
        search t golden = .ok ((i : Int), some items[i]) ∧
        golden ≤ sumTo (tickets t items) (i + 1) ∧
        (∀ j < i, sumTo (tickets t items) (j + 1) < golden) ∧
        ∀ j ≤ items.length, sumTo (tickets t items) j < 2 ^ 31 := by
  have nonneg := tickets_nonneg fun p queued => (positive p queued).le
  have total := sum_nonneg nonneg
  have nonempty : tickets t items ≠ [] := by simpa [tickets] using standing.nonempty
  obtain ⟨ran, low, high⟩ := randomInRange_eq t.next total
  obtain ⟨divisor, same⟩ := wrapped_divisor t.next total fits
  obtain ⟨i, selected⟩ := exists_selects nonempty high
  have inside : i < items.length := by simpa [tickets] using selected.inside
  have square : t.next * t.next < 2 ^ 31 := by
    obtain ⟨first, last⟩ := draws_range k
    nlinarith
  refine ⟨square, random_range _, _, _, loteriaTotal_eq standing, rfl, by omega, ?_, ran, ?_, low,
    high, i, inside, ?_, search_eq standing.held selected inside, selected.reached,
    selected.least, fun j short => ?_⟩
  · rwa [sub_zero]
  · rw [sub_zero, add_zero, same]
  · rw [standing.held.counted]
    exact_mod_cast inside
  · refine lt_of_le_of_lt ?_ fits
    rw [← sumTo_length]
    exact sumTo_mono nonneg (by simpa [tickets] using short)

/-- A table whose first slots are RUNNABLE, queued in queue 0 in slot order, and
have these shares of the tickets. -/
def queueOf (shares : List Int) : PTable where
  proc p := if (p : Nat) < shares.length then
      { state := .runnable, tickets := shares.getD p 0 } else {}
  queueReady _ slot := some slot
  countQueue := update 0 0 shares.length

theorem standing_queueOf (nonempty : shares ≠ []) (fits : shares.length ≤ NPROC) :
    Standing (queueOf shares) (slots.take shares.length) := by
  have size : (slots.take shares.length).length = shares.length := by
    rw [List.length_take, slots, List.length_finRange]
    omega
  refine ⟨⟨?_, by omega, fun slot below => ?_⟩, ?_, fun p member => ?_⟩
  · rw [size]
    rfl
  · rw [size] at below
    simp [queueOf, slots, below]
  · intro none
    rw [none] at size
    exact nonempty (List.length_eq_zero_iff.mp size.symm)
  · obtain ⟨i, inside, rfl⟩ := List.mem_iff_getElem.mp member
    rw [size] at inside
    simp [queueOf, slots, inside]

theorem draw_lands_in_queue_of_three : ∃ golden winner,
    search { queueOf [5, 7, 1] with next := draws 40 } golden = .ok winner ∧ winner.1 < 3 := by
  have three : Standing (queueOf [5, 7, 1]) (slots.take 3) :=
    standing_queueOf (by decide) (by decide)
  obtain ⟨_, _, total, golden, _, _, _, _, _, _, _, _, i, _, below, ran, _⟩ :=
    draw_lands_in_queue (t := { queueOf [5, 7, 1] with next := draws 40 })
      ⟨three.held, three.nonempty, three.runnable⟩ (by decide) (by decide +kernel) 40 (by dsimp only)
  exact ⟨golden, _, ran, below⟩

/-! ## Proportionality -/

/-- The draws from 0 to the total for which the loop selects position `i`. -/
def winningDraws (t : PTable) (items : List ProcId) (i : Fin items.length) : Finset Int :=
  (upTo (tickets t items).sum).filter fun golden =>
    search t golden = .ok ((i : Nat), some items[i])

theorem winningDraws_eq (standing : Standing t items) (i : Fin items.length) :
    winningDraws t items i = (upTo (tickets t items).sum).filter fun golden =>
      Selects (tickets t items) golden i := by
  refine Finset.filter_congr fun golden drawn => ?_
  exact search_iff standing (mem_upTo.mp drawn).2 i.isLt

theorem card_winningDraws (standing : Standing t items)
    (positive : ∀ p ∈ items, 0 < (t.proc p).tickets) (i : Fin items.length) :
    ((winningDraws t items i).card : Int) =
      (t.proc items[i]).tickets + if (i : Nat) = 0 then 1 else 0 := by
  have nonneg := tickets_nonneg fun p queued => (positive p queued).le
  have size : (tickets t items).length = items.length := by simp [tickets]
  rw [winningDraws_eq standing]
  obtain ⟨_ | j, inside⟩ := i
  · rw [card_selects_zero nonneg (by rwa [size])]
    simp [tickets]
  · rw [card_selects_succ nonneg (by rwa [size])]
    simp [tickets]

/-- `RandomInRange` draws from 0 to the total, whatever the generator holds. Of these numbers
a position wins as many as its process has tickets exactly if it is not the first one. -/
theorem later_tickets_win_once (standing : Standing t items)
    (positive : ∀ p ∈ items, 0 < (t.proc p).tickets) :
    (∀ next, ∃ golden ∈ upTo (tickets t items).sum,
      randomInRange next 0 (tickets t items).sum = .ok (golden, random next)) ∧
    ∀ i : Fin items.length,
      ((winningDraws t items i).card : Int) = (t.proc items[i]).tickets ↔ 0 < (i : Nat) := by
  refine ⟨fun next => ?_, fun i => ?_⟩
  · have nonneg := tickets_nonneg fun p queued => (positive p queued).le
    obtain ⟨ran, range⟩ := randomInRange_eq next (sum_nonneg nonneg)
    exact ⟨_, mem_upTo.mpr range, ran⟩
  · rw [card_winningDraws standing positive]
    split <;> omega

theorem later_tickets_win_once_of_three :
    ((winningDraws (queueOf [5, 7, 1]) (slots.take 3) ⟨1, by decide⟩).card : Int) = 7 :=
  ((later_tickets_win_once (standing_queueOf (by decide) (by decide)) (by decide)).2
    ⟨1, by decide⟩).mpr (by decide)

theorem first_of_three_wins_eleven_draws :
    Standing (queueOf [10, 10, 10]) (slots.take 3) ∧
    (∀ p ∈ slots.take 3, 0 < ((queueOf [10, 10, 10]).proc p).tickets) ∧
    ((queueOf [10, 10, 10]).proc 0).tickets = 10 ∧
    ((winningDraws (queueOf [10, 10, 10]) (slots.take 3) ⟨0, by decide⟩).card : Int) = 11 := by
  have three : Standing (queueOf [10, 10, 10]) (slots.take 3) :=
    standing_queueOf (by decide) (by decide)
  exact ⟨three, by decide, rfl, card_winningDraws three (by decide) ⟨0, by decide⟩⟩

/-! ## Removing the winner -/

theorem dispatch_shifts (held : Holds (t.queueReady q) (t.countQueue q) items)
    (inside : i < items.length) (lowered : Fin NUMFILAS) (p : ProcId) :
    ∃ after row, dispatch t q lowered (i : Int) p = .ok after ∧
      Holds row (t.countQueue q - 1) (items.eraseIdx i) ∧
      after.queueReady = update t.queueReady q row ∧
      after.countQueue = update t.countQueue lowered (t.countQueue lowered - 1) ∧
      (after.proc p).state = .running := by
  obtain ⟨row, shifted, removed⟩ := held.shiftLeft inside
  set reset := t.setProc p fun proc => { proc with clock := 0, readyTimeAging := 0 } with clocks
  refine ⟨(decrementCount { reset with queueReady := update t.queueReady q row }
    lowered).setState p .running, row, ?_, removed, rfl, rfl, ?_⟩
  · rw [dispatch, andarFila]
    rw [← clocks, show reset.queueReady q = t.queueReady q from rfl,
      show reset.countQueue q = t.countQueue q from rfl, shifted]
    rfl
  · simp [PTable.setState, PTable.setProc]

theorem dispatchLottery_spec (standing : Standing t items)
    (nonneg : ∀ p ∈ items, 0 ≤ (t.proc p).tickets) :
    ∃ (i : Nat) (inside : i < items.length) (after : PTable) (row : Fin NPROC → Option ProcId),
      dispatchLottery t = .ok (items[i], after) ∧
      Holds row (t.countQueue 0 - 1) (items.eraseIdx i) ∧
      after.queueReady = update t.queueReady 0 row ∧
      after.countQueue = update t.countQueue 2 (t.countQueue 2 - 1) ∧
      (after.proc items[i]).state = .running := by
  have nonempty : tickets t items ≠ [] := by simpa [tickets] using standing.nonempty
  obtain ⟨drawn, _, high⟩ := randomInRange_eq t.next (sum_nonneg (tickets_nonneg nonneg))
  obtain ⟨i, selected⟩ := exists_selects nonempty high
  have inside : i < items.length := by simpa [tickets] using selected.inside
  have found := search_eq (t := { t with next := random t.next }) standing.held selected inside
  obtain ⟨after, row, ran, effect⟩ :=
    dispatch_shifts (t := { t with next := random t.next }) standing.held inside 2 items[i]
  refine ⟨i, inside, after, row, ?_, effect⟩
  rw [search] at found
  rw [dispatchLottery, loteriaTotal_eq standing, bind_ok, drawn, bind_ok]
  dsimp only
  rw [found, bind_ok]
  dsimp only [deref]
  rw [bind_ok, ran]
  rfl

/-- A pass of the scheduler over a well-formed table with all but queue 0 empty
dispatches a member of queue 0 and leaves the other members in order, in front of a
counter it does not lower. The counter it lowers is that of queue 2. -/
theorem lottery_pass_removes_winner (wf : WellFormed t)
    (empty : t.countQueue 3 = 0 ∧ t.countQueue 2 = 0 ∧ t.countQueue 1 = 0)
    (waiting : 0 < t.countQueue 0)
    (nonneg : ∀ p, (t.proc p).state = .runnable → 0 ≤ (t.proc p).tickets) :
    ∃ items p after, Holds (t.queueReady 0) (t.countQueue 0) items ∧ p ∈ items ∧
      scheduler t = .ok (some p, after) ∧ (after.proc p).state = .running ∧
      Holds (after.queueReady 0) (t.countQueue 0 - 1) (items.erase p) ∧
      (∀ q, q ≠ 0 → after.queueReady q = t.queueReady q) ∧
      after.countQueue 0 = t.countQueue 0 ∧ after.countQueue 1 = t.countQueue 1 ∧
      after.countQueue 2 = t.countQueue 2 - 1 ∧ after.countQueue 3 = t.countQueue 3 := by
  obtain ⟨queues, lists⟩ := lists_of_well_formed wf
  have standing : Standing t (queues 0) := by
    refine ⟨lists.held 0, ?_, fun p member => ((lists.members 0 p).mp member).1⟩
    intro none
    have counted := (lists.held 0).counted
    rw [none] at counted
    simp only [List.length_nil, Nat.cast_zero] at counted
    omega
  obtain ⟨i, inside, after, row, ran, removed, rows, counts, runs⟩ :=
    dispatchLottery_spec standing fun p member => nonneg p (standing.runnable p member)
  have chosen : branch t = .lottery := by
    simp [branch, empty, waiting]
  refine ⟨queues 0, (queues 0)[i], after, lists.held 0, List.getElem_mem inside, ?_, runs, ?_,
    fun q other => ?_, ?_, ?_, ?_, ?_⟩
  · rw [scheduler, chosen]
    rw [ran]
    rfl
  · rw [rows, update_self, (lists.distinct 0).erase_getElem]
    exact removed
  · rw [rows, update_of_ne other]
  all_goals
    rw [counts]
    simp

theorem well_formed_queueOf (nonempty : shares ≠ []) (fits : shares.length ≤ NPROC) :
    WellFormed (queueOf shares) := by
  have member (p : ProcId) : p ∈ slots.take shares.length ↔ (p : Nat) < shares.length := by
    simp [slots, List.mem_take_iff_getElem, Fin.ext_iff]
  have ready (p : ProcId) (q : Fin NUMFILAS) : ReadyFor ((queueOf shares).proc p) q ↔
      (p : Nat) < shares.length ∧ q = 0 := by
    simp only [ReadyFor, queueOf]
    split
    · rename_i inside
      constructor
      · rintro ⟨_, same⟩
        have zero : (0 : Int) = ((q : Nat) : Int) := same
        exact ⟨inside, by exact_mod_cast zero.symm⟩
      · rintro ⟨_, rfl⟩
        exact ⟨rfl, rfl⟩
    · rename_i outside
      exact ⟨fun both => (by cases both.1), fun both => absurd both.1 outside⟩
  have held := (standing_queueOf nonempty fits).held
  have lists : Lists (queueOf shares)
      (fun q => if q = 0 then slots.take shares.length else []) := by
    refine ⟨fun q => ?_, fun q => ?_, fun q p => ?_, fun p _ => ?_⟩
    · by_cases first : q = 0
      · subst first
        exact held
      · rw [if_neg first]
        exact ⟨update_of_ne first _ _, Nat.zero_le _, by simp⟩
    · split
      · exact (List.nodup_finRange NPROC).sublist (List.take_sublist _ _)
      · exact List.nodup_nil
    · split <;> simp_all
    · simp only [queueOf]
      split <;> exact ⟨le_refl 0, show (0 : Int) ≤ 3 by decide⟩
  exact well_formed_of_lists lists

theorem lottery_pass_removes_winner_of_three :
    ∃ p after, scheduler (queueOf [10, 10, 10]) = .ok (some p, after) ∧
      (after.proc p).state = .running ∧ after.countQueue 0 = 3 ∧ after.countQueue 2 = -1 := by
  have wf : WellFormed (queueOf [10, 10, 10]) := well_formed_queueOf (by decide) (by decide)
  obtain ⟨_, p, after, _, _, ran, runs, _, _, first, _, third, _⟩ :=
    lottery_pass_removes_winner wf ⟨rfl, rfl, rfl⟩ (by decide) (by decide)
  exact ⟨p, after, ran, runs, first, third⟩

/-- One process alone in queue 0: it is dispatched and stays counted, and the
counter of queue 2 falls below zero. -/
theorem lottery_lowers_the_wrong_counter :
    WellFormed (queueOf [10]) ∧ (queueOf [10]).countQueue 3 = 0 ∧
    (queueOf [10]).countQueue 2 = 0 ∧ (queueOf [10]).countQueue 1 = 0 ∧
    (queueOf [10]).countQueue 0 = 1 ∧
    ∃ after, scheduler (queueOf [10]) = .ok (some 0, after) ∧ after.countQueue 0 = 1 ∧
      after.countQueue 2 = -1 :=
  ⟨well_formed_queueOf (by decide) (by decide), rfl, rfl, rfl, rfl, _, rfl, rfl, rfl⟩

/-! ## The cycle of the generator -/

/-- The winner of the draw that follows `k` draws, for the queue as it stands. -/
def drawn (t : PTable) (k : Nat) : Checked (Int × Option ProcId) := do
  let total ← loteriaTotal t
  let (golden, _) ← randomInRange (draws k) 0 total
  search t golden

theorem draws_cycle : Function.IsPeriodicPt random 4 (draws 101) := by
  decide +kernel

theorem draws_late (late : 101 ≤ k) : draws k = draws (101 + (k - 101) % 4) := by
  have split (j : Nat) : draws (101 + j) = random^[j] (draws 101) := by
    rw [Nat.add_comm, draws, draws, Function.iterate_add_apply]
  obtain ⟨j, rfl⟩ := Nat.exists_eq_add_of_le late
  rw [Nat.add_sub_cancel_left, split, split, draws_cycle.iterate_mod_apply]

theorem drawn_late (t : PTable) (late : 101 ≤ k) :
    drawn t k = drawn t (101 + (k - 101) % 4) := by
  rw [drawn, draws_late late, drawn]

theorem drawn_eq (standing : Standing t items) (nonneg : ∀ p ∈ items, 0 ≤ (t.proc p).tickets)
    (selected : Selects (tickets t items) ((draws (k + 1)).tmod ((tickets t items).sum + 1)) i)
    (inside : i < items.length) : drawn t k = .ok ((i : Int), some items[i]) := by
  obtain ⟨ran, _⟩ := randomInRange_eq (draws k) (sum_nonneg (tickets_nonneg nonneg))
  rw [drawn, loteriaTotal_eq standing, bind_ok, ran, bind_ok, ← draws_succ]
  exact search_eq standing.held selected inside

theorem tickets_replicate (equal : ∀ p ∈ items, (t.proc p).tickets = 10) :
    tickets t items = List.replicate items.length 10 := by
  refine List.eq_replicate_iff.mpr ⟨by simp [tickets], fun w member => ?_⟩
  obtain ⟨p, queued, rfl⟩ := List.mem_map.mp member
  exact equal p queued

theorem position_left_out (three : 3 ≤ n) (fits : n ≤ NPROC) : ∃ j < n, ∀ r < 4,
    ¬ Selects (List.replicate n 10) ((draws (102 + r)).tmod ((List.replicate n 10).sum + 1)) j := by
  have values : ∀ r < 4, draws (102 + r) ∈ [8100, 6100, 2100, (4100 : Int)] := by decide +kernel
  have left_out : ∀ n < NPROC + 1, 3 ≤ n → ∃ j < n, ∀ v ∈ [8100, 6100, 2100, (4100 : Int)],
      ¬ Selects (List.replicate n 10) (v.tmod (10 * n + 1)) j := by
    decide +kernel
  obtain ⟨j, inside, missed⟩ := left_out n (Nat.lt_succ_of_le fits) three
  refine ⟨j, inside, fun r four => ?_⟩
  have total : (List.replicate n (10 : Int)).sum = 10 * n := by simp [mul_comm]
  rw [total]
  exact missed _ (values r four)

/-- In a queue of processes with ten tickets each, every member is drawn again after any
number of draws exactly if there are at most two of them. -/
theorem always_offered_iff (standing : Standing t items) (distinct : items.Nodup)
    (equal : ∀ p ∈ items, (t.proc p).tickets = 10) :
    (∀ k, ∀ p ∈ items, ∃ m, k ≤ m ∧ ∃ i, drawn t m = .ok (i, some p)) ↔ items.length ≤ 2 := by
  have shares := tickets_replicate equal
  have nonneg : ∀ p ∈ items, 0 ≤ (t.proc p).tickets := fun p queued => by
    rw [equal p queued]
    decide
  constructor
  · intro offered
    by_contra many
    obtain ⟨j, inside, missed⟩ := position_left_out (not_le.mp many) standing.held.fits
    obtain ⟨m, late, i, won⟩ := offered 101 _ (List.getElem_mem inside)
    rw [drawn_late t late] at won
    have four := Nat.mod_lt (m - 101) (show 0 < 4 by decide)
    obtain ⟨_, _, high⟩ := randomInRange_eq (draws (101 + (m - 101) % 4))
      (sum_nonneg (tickets_nonneg nonneg))
    obtain ⟨l, selected⟩ := exists_selects (by simpa [tickets] using standing.nonempty) high
    have there : l < items.length := by simpa [tickets] using selected.inside
    rw [← draws_succ] at selected
    rw [drawn_eq standing nonneg selected there] at won
    simp only [Except.ok.injEq, Prod.mk.injEq, Option.some.injEq, distinct.getElem_inj_iff] at won
    rw [won.2, shares, Nat.add_right_comm] at selected
    exact missed _ four selected
  · intro few k p member
    obtain ⟨i, inside, rfl⟩ := List.mem_iff_getElem.mp member
    refine ⟨100 + 4 * k + i, by omega, i, drawn_eq standing nonneg ?_ inside⟩
    rw [draws_late (by omega), show 101 + (100 + 4 * k + i + 1 - 101) % 4 = 101 + i by omega, shares]
    have one_or_two : items.length = 1 ∧ i = 0 ∨ items.length = 2 ∧ i = 0 ∨
        items.length = 2 ∧ i = 1 := by omega
    rcases one_or_two with ⟨size, rfl⟩ | ⟨size, rfl⟩ | ⟨size, rfl⟩
    all_goals
      rw [size]
      decide +kernel

theorem always_offered_iff_second :
    ∃ m, 1000 ≤ m ∧ ∃ i, drawn (queueOf [10, 10]) m = .ok (i, some 1) :=
  (always_offered_iff (standing_queueOf (by decide) (by decide)) (by decide) (by decide)).mpr
    (by decide) 1000 1 (by decide)

/-- Of three processes with ten tickets each, the second is never drawn after the
first 101 draws. -/
theorem second_of_three_starves :
    Standing (queueOf [10, 10, 10]) (slots.take 3) ∧
    (∀ p ∈ slots.take 3, ((queueOf [10, 10, 10]).proc p).tickets = 10) ∧ 1 ∈ slots.take 3 ∧
    ∀ m, 101 ≤ m → ∀ i, drawn (queueOf [10, 10, 10]) m ≠ .ok (i, some 1) := by
  refine ⟨standing_queueOf (by decide) (by decide), by decide, by decide, fun m late i won => ?_⟩
  have winners : ∀ r < 4, drawn (queueOf [10, 10, 10]) (101 + r) = .ok (0, some 0) ∨
      drawn (queueOf [10, 10, 10]) (101 + r) = .ok (2, some 2) := by
    decide +kernel
  rw [drawn_late _ late] at won
  rcases winners _ (Nat.mod_lt (m - 101) (by decide)) with first | third
  · rw [first] at won
    cases won
  · rw [third] at won
    cases won

end Xv6.Lottery
