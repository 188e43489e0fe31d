import Mathlib.Algebra.Order.Group.Multiset
import Mathlib.Algebra.BigOperators.Group.Finset.Basic
import Mathlib.Tactic.Abel

/-! Blocks that are either free or owned. A function that is given some blocks and
leaves some blocks is described by where the blocks went, and by its leaving alone
what belongs to others. -/
namespace Xv6.BlockPool

structure Pool (α χ : Type) where
  freelist : List α
  contents : α → χ

variable {α χ : Type}

/-- From owning `own` to owning `own'`: no block is lost or made, and the blocks that
were neither free nor in `own` keep their contents. -/
structure Moves (m : Pool α χ) (own : Multiset α) (m' : Pool α χ) (own' : Multiset α) : Prop where
  balance : (m'.freelist : Multiset α) + own' = (m.freelist : Multiset α) + own
  rest : ∀ q, q ∉ (m.freelist : Multiset α) + own → m'.contents q = m.contents q

/-- No block is owned twice, or owned and free. -/
def Apart (m : Pool α χ) (own : Multiset α) : Prop := ((m.freelist : Multiset α) + own).Nodup

theorem Moves.refl (m : Pool α χ) (own : Multiset α) : Moves m own m own := ⟨rfl, fun _ _ => rfl⟩

theorem Moves.trans {m m' m'' : Pool α χ} (first : Moves m own m' own')
    (second : Moves m' own' m'' own'') : Moves m own m'' own'' := by
  refine ⟨second.balance.trans first.balance, fun q outside => ?_⟩
  rw [second.rest q (by rwa [first.balance]), first.rest q outside]

theorem Moves.apart {m m' : Pool α χ} (moves : Moves m own m' own') (apart : Apart m own) :
    Apart m' own' := by
  rw [Apart, moves.balance]
  exact apart

theorem Moves.frame {m m' : Pool α χ} (moves : Moves m own m' own') (more : Multiset α) :
    Moves m (own + more) m' (own' + more) := by
  refine ⟨?_, fun q outside => moves.rest q fun inside => outside ?_⟩
  · rw [← add_assoc, ← add_assoc, moves.balance]
  · rw [← add_assoc]
    exact Multiset.mem_add.mpr (.inl inside)

theorem Moves.congr {m m' : Pool α χ} (moves : Moves m own m' own') (left : own₁ = own)
    (right : own₁' = own') : Moves m own₁ m' own₁' := by
  rw [left, right]
  exact moves

theorem Moves.kept {m m' : Pool α χ} (moves : Moves m own m' own') (apart : Apart m (own + more))
    (member : q ∈ more) : m'.contents q = m.contents q := by
  refine moves.rest q fun inside => ?_
  rw [Apart, ← add_assoc] at apart
  exact Multiset.disjoint_left.mp (Multiset.nodup_add.mp apart).2.2 inside member

theorem Apart.less {m : Pool α χ} (apart : Apart m (own + more)) : Apart m own := by
  rw [Apart, ← add_assoc] at apart
  exact (Multiset.nodup_add.mp apart).1

theorem Apart.owned {m : Pool α χ} (apart : Apart m own) : own.Nodup := (Multiset.nodup_add.mp apart).2.1

theorem Apart.free {m : Pool α χ} (apart : Apart m own) : m.freelist.Nodup :=
  Multiset.coe_nodup.mp (Multiset.nodup_add.mp apart).1

theorem Apart.not_free {m : Pool α χ} (apart : Apart m own) (member : p ∈ own) :
    p ∉ m.freelist := fun free =>
  Multiset.disjoint_left.mp (Multiset.nodup_add.mp apart).2.2 (Multiset.mem_coe.mpr free) member

theorem Apart.zero {m : Pool α χ} (apart : Apart m own) : Apart m 0 := by
  rw [← zero_add own] at apart
  exact apart.less

theorem moves_take {m m' : Pool α χ} (free : m.freelist = p :: rest) (left : m'.freelist = rest)
    (same : m'.contents = m.contents) : Moves m 0 m' {p} := by
  refine ⟨?_, fun q _ => by rw [same]⟩
  rw [free, left, add_zero, ← Multiset.cons_coe, ← Multiset.singleton_add, add_comm]

theorem moves_give {m m' : Pool α χ} (free : m'.freelist = p :: m.freelist)
    (same : ∀ q, q ≠ p → m'.contents q = m.contents q) : Moves m {p} m' 0 := by
  refine ⟨?_, fun q outside => same q fun equal => outside ?_⟩
  · rw [free, add_zero, ← Multiset.cons_coe, ← Multiset.singleton_add, add_comm]
  · rw [equal]
    exact Multiset.mem_add.mpr (.inr (Multiset.mem_singleton_self p))

theorem moves_write {m m' : Pool α χ} (free : m'.freelist = m.freelist)
    (same : ∀ q, q ∉ own → m'.contents q = m.contents q) (balance : own' = own) :
    Moves m own m' own' := by
  refine ⟨by rw [free, balance], fun q outside => same q fun inside => outside ?_⟩
  exact Multiset.mem_add.mpr (.inr inside)

/-! ## Blocks named by a table -/

/-- The block an optional reference names. -/
def named : Option α → Multiset α
  | none => 0
  | some p => {p}

@[simp] theorem named_none : named (none : Option α) = 0 := rfl

@[simp] theorem named_some (p : α) : named (some p) = {p} := rfl

theorem sum_change {ι : Type} [DecidableEq ι] {s : Finset ι} {f g : ι → Multiset α} {a : ι}
    (member : a ∈ s)
    (same : ∀ x ∈ s, x ≠ a → f x = g x) : ∑ x ∈ s, f x + g a = ∑ x ∈ s, g x + f a := by
  rw [← Finset.add_sum_erase s f member, ← Finset.add_sum_erase s g member]
  have others : ∑ x ∈ s.erase a, f x = ∑ x ∈ s.erase a, g x :=
    Finset.sum_congr rfl fun x inside => same x (Finset.mem_of_mem_erase inside)
      (Finset.ne_of_mem_erase inside)
  rw [others]
  abel

theorem sum_apart {ι : Type} [DecidableEq ι] {s : Finset ι} {f : ι → Multiset α} {a b : ι}
    (distinct : (∑ x ∈ s, f x).Nodup) (first : a ∈ s) (second : b ∈ s) (other : a ≠ b)
    (member : q ∈ f a) : q ∉ f b := by
  intro again
  rw [← Finset.add_sum_erase s f first] at distinct
  refine Multiset.disjoint_left.mp (Multiset.nodup_add.mp distinct).2.2 member ?_
  exact Multiset.mem_sum.mpr ⟨b, Finset.mem_erase.mpr ⟨other.symm, second⟩, again⟩

end Xv6.BlockPool
