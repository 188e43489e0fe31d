import Mathlib.Algebra.Group.Nat.Defs
import Mathlib.Logic.Function.Basic
import Mathlib.Tactic.Common

/-! `memmove` of the kernel and of the user library, on a memory of bytes at the addresses
below 2 ^ 32. The kernel copies downwards when the destination begins inside the source;
the library always copies upwards, and then reads bytes it has already written. -/
namespace Xv6.Memmove
open Function

abbrev Memory := Nat → UInt8

/-- `while(n-- > 0) *d++ = *s++`. -/
def copyUp (m : Memory) (d s : Nat) : Nat → Memory
  | 0 => m
  | n + 1 => copyUp (update m d (m s)) (d + 1) (s + 1) n

/-- `while(n-- > 0) *--d = *--s`. -/
def copyDown (m : Memory) (d s : Nat) : Nat → Memory
  | 0 => m
  | n + 1 => copyDown (update m (d - 1) (m (s - 1))) (d - 1) (s - 1) n

/-- `memmove` of `string.c`; `s + n` is a pointer of 32 bits. -/
def memmove (m : Memory) (dst src n : Nat) : Memory :=
  if src < dst ∧ dst < (src + n) % 2 ^ 32 then copyDown m (dst + n) (src + n) n
  else copyUp m dst src n

namespace Ulib

def memmove (m : Memory) (dst src n : Nat) : Memory := copyUp m dst src n

end Ulib

/-- The bytes of the source before the call are at the destination. -/
def moved (m : Memory) (dst src n : Nat) : Memory := fun a =>
  if dst ≤ a ∧ a < dst + n then m (src + (a - dst)) else m a

theorem moved_update (unread : ∀ i < n, src + i ≠ b) (a : Nat) :
    moved (update m b x) dst src n a =
      if dst ≤ a ∧ a < dst + n then m (src + (a - dst)) else if a = b then x else m a := by
  unfold moved
  split
  · exact update_of_ne (unread (a - dst) (by omega)) x m
  · rw [update_apply]

theorem copyUp_eq_moved (m : Memory) (apart : dst ≤ src ∨ src + n ≤ dst) :
    copyUp m dst src n = moved m dst src n := by
  induction n generalizing m dst src with
  | zero =>
    funext a
    exact (if_neg (by omega)).symm
  | succ n ih =>
    funext a
    rw [copyUp, ih _ (by omega), moved_update (by omega)]
    by_cases first : a = dst
    · subst first
      rw [if_neg (by omega), if_pos rfl]
      simp [moved]
    · have range : (dst + 1 ≤ a ∧ a < dst + 1 + n) ↔ (dst ≤ a ∧ a < dst + (n + 1)) := by omega
      simp only [moved, first, range, if_false]
      split
      · rw [show src + 1 + (a - (dst + 1)) = src + (a - dst) by omega]
      · rfl

theorem copyDown_eq_moved (m : Memory) (below : src ≤ dst) :
    copyDown m (dst + n) (src + n) n = moved m dst src n := by
  induction n generalizing m with
  | zero =>
    funext a
    exact (if_neg (by omega)).symm
  | succ n ih =>
    funext a
    rw [copyDown, show dst + (n + 1) - 1 = dst + n by omega, show src + (n + 1) - 1 = src + n by omega,
      ih, moved_update (by omega)]
    by_cases last : a = dst + n
    · subst last
      simp [moved]
    · have range : (dst ≤ a ∧ a < dst + n) ↔ (dst ≤ a ∧ a < dst + (n + 1)) := by omega
      simp only [moved, last, range, if_false]

theorem copyUp_of_lt (m : Memory) (below : a < dst) : copyUp m dst src n a = m a := by
  induction n generalizing m dst src with
  | zero => rfl
  | succ n ih => rw [copyUp, ih _ (by omega), update_of_ne (by omega)]

theorem copyUp_repeats (m : Memory) (behind : src < dst) (inside : i < n) :
    copyUp m dst src n (dst + i) = copyUp m dst src n (src + i) := by
  induction n generalizing m dst src i with
  | zero => omega
  | succ n ih =>
    rw [copyUp]
    cases i with
    | zero =>
      rw [copyUp_of_lt _ (by omega), copyUp_of_lt _ (by omega), Nat.add_zero, update_self,
        Nat.add_zero, update_of_ne (by omega)]
    | succ i =>
      rw [← Nat.add_assoc, ← Nat.add_assoc, Nat.add_right_comm dst, Nat.add_right_comm src]
      exact ih _ (Nat.succ_lt_succ behind) (Nat.lt_of_succ_lt_succ inside)

/-- Whatever the overlap, the kernel copies the bytes that were there before. The library
does so for every memory exactly if the destination does not begin inside the source behind
its first byte. -/
theorem memmoves_agree (source : src + n ≤ 2 ^ 32) (target : dst + n ≤ 2 ^ 32) :
    (∀ m, memmove m dst src n = moved m dst src n) ∧
      ((∀ m, Ulib.memmove m dst src n = moved m dst src n) ↔ ¬ (src < dst ∧ dst < src + n)) := by
  refine ⟨fun m => ?_, fun right within => ?_, fun clear m => copyUp_eq_moved m (by omega)⟩
  · unfold memmove
    split
    · exact copyDown_eq_moved m (by omega)
    · refine copyUp_eq_moved m ?_
      by_contra within
      -- the destination ends behind the source, so the end of the source is no wrapped pointer
      omega
  · -- the byte at `dst` is overwritten with the one at `src` before it is read
    obtain ⟨m, differ⟩ : ∃ m : Memory, m dst ≠ m src :=
      ⟨fun a => if a = src then 1 else 0, by simp [Nat.ne_of_gt within.1]⟩
    have repeats := copyUp_repeats m within.1 (show dst - src < n by omega)
    have there : src + (dst - src) = dst := by omega
    rw [show copyUp m dst src n = moved m dst src n from right m, there, moved, moved,
      if_pos (by omega), if_pos (by omega), Nat.add_sub_cancel_left, there, Nat.sub_self] at repeats
    exact differ repeats

/-- Two ranges that overlap downwards. -/
theorem memmoves_agree_down : 8 + 4 ≤ 2 ^ 32 ∧ 6 + 4 ≤ 2 ^ 32 ∧
    Ulib.memmove (fun a => a.toUInt8) 6 8 4 = memmove (fun a => a.toUInt8) 6 8 4 := by
  have both := memmoves_agree (show 8 + 4 ≤ 2 ^ 32 by decide) (show 6 + 4 ≤ 2 ^ 32 by decide)
  exact ⟨by decide, by decide, (both.2.mpr (by decide) _).trans (both.1 _).symm⟩

/-- One byte upwards, the library repeats the first byte. -/
theorem ulib_memmove_repeats :
    let m : Memory := fun a => a.toUInt8
    (memmove m 1 0 2 1, memmove m 1 0 2 2) = (0, 1) ∧
      (Ulib.memmove m 1 0 2 1, Ulib.memmove m 1 0 2 2) = (0, 0) := by
  decide

end Xv6.Memmove
