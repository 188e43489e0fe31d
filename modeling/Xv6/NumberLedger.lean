import Mathlib.Logic.Function.Basic
import Mathlib.Tactic.Common

/-! A ledger of numbered blocks. Each place holds a block number or zero. The numbers
held lie in the area that is given out, no number is held twice, and the blocks marked
as used are those below the area and those held. Giving a free block to an empty place
and taking one back keep the books. -/
namespace Xv6.NumberLedger
open Function

variable {π : Type u} {start size : Nat} {used used' : Nat → Bool} {number number' : π → Nat}

structure Ledger (start size : Nat) (used : Nat → Bool) (number : π → Nat) : Prop where
  positive : 0 < start
  area : ∀ x, number x ≠ 0 → start ≤ number x ∧ number x < size
  once : ∀ x y, number x = number y → number x ≠ 0 → x = y
  exact : ∀ b < size, used b = true ↔ b < start ∨ ∃ x, number x = b

theorem Ledger.empty (positive : 0 < start) (none : ∀ x, number x = 0)
    (marks : ∀ b < size, used b = true ↔ b < start) : Ledger start size used number := by
  refine ⟨positive, fun x held => absurd (none x) held, fun x y _ held => absurd (none x) held,
    fun b below => ?_⟩
  rw [marks b below]
  refine ⟨.inl, fun owner => owner.elim id fun ⟨x, held⟩ => ?_⟩
  rwa [none x, ← held] at *

section
variable (ledger : Ledger start size used number)
include ledger

theorem Ledger.congr (marks : ∀ b, used' b = used b)
    (numbers : ∀ x, number' x = number x) : Ledger start size used' number' := by
  obtain rfl : used' = used := funext marks
  obtain rfl : number' = number := funext numbers
  exact ledger

theorem Ledger.start_le (free : used b = false) (inside : b < size) : start ≤ b := by
  by_contra below
  have taken := (ledger.exact b inside).mpr (.inl (Nat.not_le.mp below))
  rw [free] at taken
  cases taken

theorem Ledger.number_ne (free : used b = false) (inside : b < size) (x : π) : number x ≠ b := by
  intro held
  have taken := (ledger.exact b inside).mpr (.inr ⟨x, held⟩)
  rw [free] at taken
  cases taken

theorem Ledger.used_number (held : number x ≠ 0) : used (number x) = true :=
  (ledger.exact _ (ledger.area x held).2).mpr (.inr ⟨x, rfl⟩)

end

variable [DecidableEq π]

theorem Ledger.assign (ledger : Ledger start size used number) (free : used b = false)
    (inside : b < size) (empty : number x = 0) :
    Ledger start size (update used b true) (update number x b) := by
  have low := ledger.start_le free inside
  have unheld := ledger.number_ne free inside
  refine ⟨ledger.positive, fun y held => ?_, fun y z same held => ?_, fun c below => ?_⟩
  · by_cases here : y = x
    · subst here
      rw [update_self]
      exact ⟨low, inside⟩
    · rw [update_of_ne here] at held ⊢
      exact ledger.area y held
  · by_cases first : y = x
    · by_cases second : z = x
      · rw [first, second]
      · rw [first, update_self, update_of_ne second] at same
        exact absurd same.symm (unheld z)
    · by_cases second : z = x
      · rw [second, update_self, update_of_ne first] at same
        exact absurd same (unheld y)
      · rw [update_of_ne first] at same held
        rw [update_of_ne second] at same
        exact ledger.once y z same held
  · by_cases here : c = b
    · subst here
      rw [update_self]
      exact ⟨fun _ => .inr ⟨x, update_self _ _ _⟩, fun _ => rfl⟩
    · rw [update_of_ne here, ledger.exact c below]
      constructor
      · rintro (lower | ⟨y, held⟩)
        · exact .inl lower
        · by_cases same : y = x
          · rw [same, empty] at held
            exact .inl (held ▸ ledger.positive)
          · exact .inr ⟨y, by rwa [update_of_ne same]⟩
      · rintro (lower | ⟨y, held⟩)
        · exact .inl lower
        · by_cases same : y = x
          · rw [same, update_self] at held
            exact absurd held.symm here
          · rw [update_of_ne same] at held
            exact .inr ⟨y, held⟩

theorem Ledger.clear (ledger : Ledger start size used number) (held : number x ≠ 0) :
    Ledger start size (update used (number x) false) (update number x 0) := by
  obtain ⟨low, inside⟩ := ledger.area x held
  refine ⟨ledger.positive, fun y full => ?_, fun y z same full => ?_, fun c below => ?_⟩
  · have here : y ≠ x := fun same => by simp [same] at full
    rw [update_of_ne here] at full ⊢
    exact ledger.area y full
  · have first : y ≠ x := fun here => by simp [here] at full
    rw [update_of_ne first] at same full
    have second : z ≠ x := fun here => by
      rw [here, update_self] at same
      exact full same
    rw [update_of_ne second] at same
    exact ledger.once y z same full
  · by_cases here : c = number x
    · subst here
      rw [update_self]
      refine ⟨nofun, ?_⟩
      rintro (lower | ⟨y, same⟩)
      · omega
      · have other : y ≠ x := fun here => by
          rw [here, update_self] at same
          exact held same.symm
        rw [update_of_ne other] at same
        exact absurd (ledger.once y x same (same ▸ held)) other
    · rw [update_of_ne here, ledger.exact c below]
      constructor
      · rintro (lower | ⟨y, same⟩)
        · exact .inl lower
        · have other : y ≠ x := fun eq => here (by rw [← same, eq])
          exact .inr ⟨y, by rwa [update_of_ne other]⟩
      · rintro (lower | ⟨y, same⟩)
        · exact .inl lower
        · by_cases eq : y = x
          · rw [eq, update_self] at same
            exact .inl (same ▸ ledger.positive)
          · rw [update_of_ne eq] at same
            exact .inr ⟨y, same⟩

end Xv6.NumberLedger
