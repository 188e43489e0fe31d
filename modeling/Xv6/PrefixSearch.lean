import Mathlib.Algebra.BigOperators.Group.List.Basic
import Mathlib.Data.Int.Interval
import Mathlib.Data.Int.ConditionallyCompleteOrder
import Mathlib.Tactic.Linarith

/-! Selection by running sums. A mark selects the least position of a list of
weights whose sum up to and including that position reaches the mark. Every mark
up to the total selects exactly one position, and with positive weights the marks
that select a position form an interval as long as its weight. -/
namespace Xv6.PrefixSearch

def sumTo (weights : List Int) (n : Nat) : Int := (weights.take n).sum

structure Selects (weights : List Int) (mark : Int) (i : Nat) : Prop where
  inside : i < weights.length
  reached : mark ≤ sumTo weights (i + 1)
  least : ∀ j < i, sumTo weights (j + 1) < mark

instance : Decidable (Selects weights mark i) :=
  decidable_of_iff (i < weights.length ∧ mark ≤ sumTo weights (i + 1) ∧
      ∀ j < i, sumTo weights (j + 1) < mark)
    ⟨fun ⟨inside, reached, least⟩ => ⟨inside, reached, least⟩,
      fun selected => ⟨selected.inside, selected.reached, selected.least⟩⟩

variable {weights : List Int}

@[simp] theorem sumTo_zero : sumTo weights 0 = 0 := rfl

theorem sumTo_succ (inside : i < weights.length) :
    sumTo weights (i + 1) = sumTo weights i + weights[i] := by
  rw [sumTo, List.take_add_one, List.getElem?_eq_getElem inside, List.sum_append, sumTo]
  simp

theorem sumTo_one (nonempty : 0 < weights.length) : sumTo weights 1 = weights[0] := by
  simpa using sumTo_succ nonempty

theorem sumTo_length : sumTo weights weights.length = weights.sum := by
  rw [sumTo, List.take_length]

theorem exists_selects (nonempty : weights ≠ []) (reached : mark ≤ weights.sum) :
    ∃ i, Selects weights mark i := by
  have last : mark ≤ sumTo weights (weights.length - 1 + 1) := by
    have size := List.length_pos_iff.mpr nonempty
    rwa [Nat.sub_add_cancel size, sumTo_length]
  have found : ∃ i, mark ≤ sumTo weights (i + 1) := ⟨_, last⟩
  refine ⟨Nat.find found, ?_, Nat.find_spec found, fun j below => ?_⟩
  · have first := Nat.find_min' found last
    have size := List.length_pos_iff.mpr nonempty
    omega
  · exact not_le.mp (Nat.find_min found below)

theorem sumTo_mono (nonneg : ∀ w ∈ weights, 0 ≤ w) (ordered : i ≤ j) :
    sumTo weights i ≤ sumTo weights j := by
  induction j, ordered using Nat.le_induction with
  | base => exact le_refl _
  | succ j _ ih =>
    by_cases inside : j < weights.length
    · have more := nonneg _ (List.getElem_mem inside)
      rw [sumTo_succ inside]
      omega
    · have stopped : sumTo weights (j + 1) = sumTo weights j := by
        rw [sumTo, sumTo, List.take_of_length_le (by omega), List.take_of_length_le (by omega)]
      rw [stopped]
      exact ih

theorem sum_nonneg (nonneg : ∀ w ∈ weights, 0 ≤ w) : 0 ≤ weights.sum := by
  rw [← sumTo_length]
  exact sumTo_mono nonneg (Nat.zero_le _)

theorem selects_succ_iff (nonneg : ∀ w ∈ weights, 0 ≤ w) (inside : i + 1 < weights.length) :
    Selects weights mark (i + 1) ↔
      mark ∈ Finset.Ioc (sumTo weights (i + 1)) (sumTo weights (i + 2)) := by
  rw [Finset.mem_Ioc]
  constructor
  · exact fun selected => ⟨selected.least i (by omega), selected.reached⟩
  · rintro ⟨above, reached⟩
    refine ⟨inside, reached, fun j below => ?_⟩
    exact lt_of_le_of_lt (sumTo_mono nonneg (by omega)) above

theorem selects_zero_iff (nonempty : 0 < weights.length) :
    Selects weights mark 0 ↔ mark ≤ weights[0] := by
  have first := sumTo_one nonempty
  constructor
  · intro selected
    have reached := selected.reached
    rwa [first] at reached
  · intro reached
    exact ⟨nonempty, by rwa [first], nofun⟩

def upTo (n : Int) : Finset Int := ((List.range (n + 1).toNat).map Int.ofNat).toFinset

theorem mem_upTo {mark n : Int} : mark ∈ upTo n ↔ 0 ≤ mark ∧ mark ≤ n := by
  simp only [upTo, List.mem_toFinset, List.mem_map, List.mem_range]
  constructor
  · simp only [Int.ofNat_eq_natCast]
    omega
  · rintro ⟨low, high⟩
    exact ⟨mark.toNat, by omega, Int.toNat_of_nonneg low⟩

theorem card_selects_succ (nonneg : ∀ w ∈ weights, 0 ≤ w)
    (inside : i + 1 < weights.length) :
    (((upTo weights.sum).filter fun mark => Selects weights mark (i + 1)).card : Int) =
      weights[i + 1] := by
  have weight := nonneg _ (List.getElem_mem inside)
  have marks : ((upTo weights.sum).filter fun mark => Selects weights mark (i + 1)) =
      Finset.Ioc (sumTo weights (i + 1)) (sumTo weights (i + 2)) := by
    ext mark
    rw [Finset.mem_filter, selects_succ_iff nonneg inside, and_iff_right_iff_imp, Finset.mem_Ioc,
      mem_upTo]
    have low : 0 ≤ sumTo weights (i + 1) := sumTo_mono nonneg (Nat.zero_le _)
    have high : sumTo weights (i + 2) ≤ weights.sum := by
      rw [← sumTo_length]
      exact sumTo_mono nonneg (by omega)
    omega
  rw [marks, Int.card_Ioc, sumTo_succ inside]
  omega

theorem card_selects_zero (nonneg : ∀ w ∈ weights, 0 ≤ w)
    (nonempty : 0 < weights.length) :
    (((upTo weights.sum).filter fun mark => Selects weights mark 0).card : Int) =
      weights[0] + 1 := by
  have weight := nonneg _ (List.getElem_mem nonempty)
  have marks : ((upTo weights.sum).filter fun mark => Selects weights mark 0) =
      Finset.Icc (0 : Int) weights[0] := by
    ext mark
    rw [Finset.mem_filter, selects_zero_iff nonempty, mem_upTo, Finset.mem_Icc]
    have high : weights[0] ≤ weights.sum := by
      rw [← sumTo_length, ← sumTo_one nonempty]
      exact sumTo_mono nonneg (by omega)
    omega
  rw [marks, Int.card_Icc]
  omega

end Xv6.PrefixSearch
