import Mathlib.Algebra.BigOperators.Ring.Finset
import Mathlib.Algebra.Order.BigOperators.Group.Finset
import Mathlib.Tactic.Ring

/-! Tallies over a finite table: the sum of a weight of the cells, and how
writing one cell changes it. -/
namespace Xv6.Tally
open Function

variable {ι : Type} [Fintype ι]

/-- The total weight of the cells of a table. -/
def tally (weight : α → Int) (cells : ι → α) : Int := ∑ i, weight (cells i)

theorem tally_update [DecidableEq ι] (weight : α → Int) (cells : ι → α) (i : ι) (cell : α) :
    tally weight (update cells i cell) =
      tally weight cells - weight (cells i) + weight cell := by
  have before := Finset.add_sum_erase Finset.univ (fun j => weight (cells j)) (Finset.mem_univ i)
  have after := Finset.add_sum_erase Finset.univ
    (fun j => weight (update cells i cell j)) (Finset.mem_univ i)
  have rest : ∑ j ∈ Finset.univ.erase i, weight (update cells i cell j) =
      ∑ j ∈ Finset.univ.erase i, weight (cells j) := by
    apply Finset.sum_congr rfl
    intro j member
    rw [update_of_ne (Finset.ne_of_mem_erase member)]
  rw [rest, update_self] at after
  unfold tally
  rw [← before, ← after]
  ring

theorem tally_congr {weight : α → Int} {cells cells' : ι → α}
    (same : ∀ i, weight (cells' i) = weight (cells i)) :
    tally weight cells' = tally weight cells :=
  Finset.sum_congr rfl fun i _ => same i

theorem tally_le_tally {weight : α → Int} {cells cells' : ι → α}
    (below : ∀ i, weight (cells' i) ≤ weight (cells i)) :
    tally weight cells' ≤ tally weight cells :=
  Finset.sum_le_sum fun i _ => below i

theorem tally_nonneg {weight : α → Int} {cells : ι → α} (nonneg : ∀ i, 0 ≤ weight (cells i)) :
    0 ≤ tally weight cells :=
  Finset.sum_nonneg fun i _ => nonneg i

theorem tally_eq_zero {weight : α → Int} {cells : ι → α} (zero : ∀ i, weight (cells i) = 0) :
    tally weight cells = 0 :=
  Finset.sum_eq_zero fun i _ => zero i

theorem le_tally {weight : α → Int} {cells : ι → α} (nonneg : ∀ i, 0 ≤ weight (cells i)) (i : ι) :
    weight (cells i) ≤ tally weight cells :=
  Finset.single_le_sum (fun j _ => nonneg j) (Finset.mem_univ i)

theorem add_le_tally {weight : α → Int} {cells : ι → α}
    (nonneg : ∀ i, 0 ≤ weight (cells i)) {i j : ι} (apart : j ≠ i) :
    weight (cells i) + weight (cells j) ≤ tally weight cells := by
  classical
  have split := Finset.add_sum_erase Finset.univ (fun k => weight (cells k)) (Finset.mem_univ i)
  have second := Finset.single_le_sum (f := fun k => weight (cells k)) (fun k _ => nonneg k)
    (Finset.mem_erase.mpr ⟨apart, Finset.mem_univ j⟩)
  unfold tally
  omega

end Xv6.Tally
