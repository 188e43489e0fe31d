import Mathlib.Data.Fintype.Card
import Mathlib.Data.List.Nodup
import Xv6.CheckedC

/-! Queues kept in the front part of a fixed array with a separate counter.
The list of held elements is the meaning of the pair; appending writes the slot
the counter points at, and removing a position moves everything above it one
slot down. -/
namespace Xv6.ArrayQueue
open CheckedC Function

/-- The slots below `count` hold exactly `items`, in order. -/
structure Holds (slots : Fin n → Option α) (count : Int) (items : List α) : Prop where
  counted : count = items.length
  fits : items.length ≤ n
  filled : ∀ slot : Fin n, (slot : Nat) < items.length → slots slot = items[(slot : Nat)]?

/-- `for(i = lo; i < count - 1; i++) slots[i] = slots[i+1]`. -/
def shiftLeft (slots : Fin n → α) (lo count : Int) : Checked (Fin n → α) :=
  forLoop lo (count - 1) (fun i slots => do store slots i (← load slots (i + 1))) slots

variable {slots : Fin n → Option α} {items : List α}

theorem Holds.load (held : Holds slots count items) (inside : i < items.length) :
    load slots (i : Int) = .ok (some items[i]) := by
  have bound : i < n := Nat.lt_of_lt_of_le inside held.fits
  rw [load_ofNat bound, held.filled ⟨i, bound⟩ inside]
  simp [inside]

theorem Holds.push (held : Holds slots count items) (room : items.length < n) :
    Holds (update slots ⟨items.length, room⟩ (some item)) (count + 1)
      (items ++ [item]) := by
  refine ⟨by simp [held.counted], by simp; omega, fun slot inside => ?_⟩
  by_cases last : slot = ⟨items.length, room⟩
  · subst last
    simp
  · have below : (slot : Nat) < items.length := by
      have apart : (slot : Nat) ≠ items.length := fun same => last (Fin.ext same)
      simp only [List.length_append, List.length_singleton] at inside
      omega
    rw [update_of_ne last, held.filled slot below, List.getElem?_append_left below]

/-- After `i` turns the slots from `lo` up to `i` hold what stood one above
them; the others are as before. -/
private def Shifted (before : Fin n → α) (lo : Nat) (i : Int) (after : Fin n → α) : Prop :=
  ∀ slot : Fin n, after slot =
    if inside : lo ≤ (slot : Nat) ∧ ((slot : Nat) : Int) < i ∧ (slot : Nat) + 1 < n then
      before ⟨slot + 1, inside.2.2⟩
    else before slot

private theorem shift_turn {before after : Fin n → α} {i : Nat}
    (shifted : Shifted before lo (i : Int) after) (above : lo ≤ i) (inside : i + 1 < n) :
    Shifted before lo ((i : Int) + 1)
      (update after ⟨i, by omega⟩ (after ⟨i + 1, inside⟩)) := by
  intro slot
  by_cases here : slot = ⟨i, by omega⟩
  · subst here
    rw [update_self, shifted, dif_neg (by simp only; omega),
      dif_pos ⟨above, by simp only; omega, inside⟩]
  · have apart : (slot : Nat) ≠ i := fun same => here (Fin.ext same)
    rw [update_of_ne here, shifted]
    by_cases moved : lo ≤ (slot : Nat) ∧ ((slot : Nat) : Int) < i ∧ (slot : Nat) + 1 < n
    · rw [dif_pos moved, dif_pos ⟨moved.1, by omega, moved.2.2⟩]
    · rw [dif_neg moved, dif_neg (by omega)]

theorem Holds.shiftLeft (held : Holds slots count items) (inside : position < items.length) :
    ∃ after, shiftLeft slots (position : Int) count = .ok after ∧
      Holds after (count - 1) (items.eraseIdx position) := by
  have fits := held.fits
  obtain ⟨after, ran, shifted⟩ := forLoop_invariant (Shifted slots position)
    (position : Int) (count - 1) (fun i slots => do store slots i (← CheckedC.load slots (i + 1)))
    slots (by rw [held.counted]; omega)
    (fun slot => by rw [dif_neg (by omega)])
    (fun i middle low high shifted => by
      rw [held.counted] at high
      obtain ⟨i, rfl⟩ := Int.eq_ofNat_of_zero_le (show 0 ≤ i by omega)
      have bound : i + 1 < n := by omega
      refine ⟨_, ?_, shift_turn shifted (by omega) bound⟩
      rw [show (i : Int) + 1 = ((i + 1 : Nat) : Int) by simp, load_ofNat bound, bind_ok,
        store_ofNat (by omega)])
  have length := List.length_eraseIdx_of_lt inside
  refine ⟨after, ran, by rw [held.counted, length]; omega, by omega, fun slot below => ?_⟩
  rw [shifted slot, List.getElem?_eraseIdx]
  by_cases low : (slot : Nat) < position
  · rw [dif_neg (by omega), if_pos low, held.filled slot (by omega)]
  · rw [dif_pos ⟨by omega, by rw [held.counted]; omega, by omega⟩, if_neg low,
      held.filled ⟨slot + 1, by omega⟩ (by simp only; omega)]

theorem room_of_absent {items : List (Fin n)} (distinct : items.Nodup) (absent : item ∉ items) :
    items.length < n := by
  have bound := (List.nodup_cons.mpr ⟨absent, distinct⟩).length_le_card
  simp only [List.length_cons, Fintype.card_fin] at bound
  omega

end Xv6.ArrayQueue
