import Mathlib.Data.Nat.ModEq
import Mathlib.Data.BitVec
import Mathlib.Logic.Function.Basic
import Mathlib.Tactic.Ring

/-! A ring of `N` cells behind two free-running counters of `w` bits. The counters
are never reduced; they wrap, and the cell of a count is its remainder modulo `N`.
If `N` divides `2 ^ w` and is smaller, the ring is a queue of at most `N` elements,
however often the counters have wrapped. -/
namespace Xv6.RingBuffer
open Function

structure Ring (α : Type u) (N w : Nat) where
  cells : Fin N → α
  nread : BitVec w
  nwrite : BitVec w

namespace Ring

def isEmpty (r : Ring α N w) : Bool := r.nread == r.nwrite

def isFull (r : Ring α N w) : Bool := r.nwrite == r.nread + BitVec.ofNat w N

def pop (r : Ring α N w) : Ring α N w := { r with nread := r.nread + 1 }

/-- Take back the last element. -/
def retract (r : Ring α N w) : Ring α N w := { r with nwrite := r.nwrite - 1 }

/-- The distance of the counters, modulo `2 ^ w`. -/
def distance (r : Ring α N w) : Nat := (r.nwrite - r.nread).toNat

section
variable {r : Ring α N w}

theorem nread_add_distance (r : Ring α N w) :
    r.nread + BitVec.ofNat w r.distance = r.nwrite := by
  rw [distance, BitVec.ofNat_toNat, BitVec.setWidth_eq, BitVec.add_comm, BitVec.sub_add_cancel]

theorem isEmpty_iff : r.isEmpty = true ↔ r.distance = 0 := by
  unfold isEmpty
  rw [beq_iff_eq]
  constructor
  · intro same
    rw [distance, same, BitVec.sub_self, BitVec.toNat_zero]
  · intro zero
    have sum := r.nread_add_distance
    rw [zero] at sum
    simpa using sum

theorem isFull_iff (fits : N < 2 ^ w) : r.isFull = true ↔ r.distance = N := by
  unfold isFull
  rw [beq_iff_eq]
  constructor
  · intro full
    have small : (BitVec.ofNat w N).toNat = N := by
      rw [BitVec.toNat_ofNat, Nat.mod_eq_of_lt fits]
    rw [distance, full, BitVec.add_comm, BitVec.add_sub_cancel, small]
  · intro full
    rw [← r.nread_add_distance, full]

theorem toNat_succ (k : BitVec w) : (k + 1).toNat = (k.toNat + 1) % 2 ^ w := by
  have one : (1 : BitVec w) = BitVec.ofNat w 1 := rfl
  rw [one, BitVec.toNat_add, BitVec.toNat_ofNat, Nat.add_mod_mod]

theorem toNat_pred {k : BitVec w} (some : k.toNat ≠ 0) : k.toNat = (k - 1).toNat + 1 := by
  have next : k.toNat = ((k - 1).toNat + 1) % 2 ^ w := by
    rw [← toNat_succ, BitVec.sub_add_cancel]
  rw [next]
  refine Nat.mod_eq_of_lt ?_
  by_contra wraps
  have all : (k - 1).toNat + 1 = 2 ^ w := by omega
  rw [all, Nat.mod_self] at next
  exact some next

theorem pop_distance (some : r.distance ≠ 0) : r.distance = r.pop.distance + 1 := by
  have moved : r.nwrite - (r.nread + 1) = r.nwrite - r.nread - 1 := by ring
  simp only [distance, pop, moved]
  exact toNat_pred some

theorem retract_distance (some : r.distance ≠ 0) : r.distance = r.retract.distance + 1 := by
  have moved : r.nwrite - 1 - r.nread = r.nwrite - r.nread - 1 := by ring
  simp only [distance, retract, moved]
  exact toNat_pred some

end

/-! ## The queue -/

section
variable {N w : Nat} [NeZero N]

def slot (k : BitVec w) : Fin N := Fin.ofNat N k.toNat

def push (r : Ring α N w) (x : α) : Ring α N w :=
  { r with cells := update r.cells (slot r.nwrite) x, nwrite := r.nwrite + 1 }

def front (r : Ring α N w) : α := r.cells (slot r.nread)

def last (r : Ring α N w) : α := r.cells (slot (r.nwrite - 1))

/-- The elements between the counters, the oldest first. -/
def contents (r : Ring α N w) : List α :=
  (List.range r.distance).map fun i => r.cells (slot (r.nread + BitVec.ofNat w i))

variable {r : Ring α N w}

theorem push_distance (fits : N < 2 ^ w) (room : r.distance < N) (x : α) :
    (r.push x).distance = r.distance + 1 := by
  have moved : r.nwrite + 1 - r.nread = r.nwrite - r.nread + 1 := by ring
  have small : (r.nwrite - r.nread).toNat + 1 < 2 ^ w := by
    unfold distance at room
    omega
  rw [distance, push, moved, toNat_succ, Nat.mod_eq_of_lt small, distance]

theorem slot_ne (divides : N ∣ 2 ^ w) (k : BitVec w) (before : i < j) (near : j < N) :
    (slot (k + BitVec.ofNat w i) : Fin N) ≠ slot (k + BitVec.ofNat w j) := by
  intro same
  have reduced : ∀ m, (k + BitVec.ofNat w m).toNat % N = (k.toNat + m) % N := by
    intro m
    rw [BitVec.toNat_add, BitVec.toNat_ofNat, Nat.add_mod_mod, Nat.mod_mod_of_dvd _ divides]
  have counts : (k.toNat + i) % N = (k.toNat + j) % N := by
    rw [← reduced i, ← reduced j]
    exact congrArg Fin.val same
  have apart : i ≡ j [MOD N] := Nat.ModEq.add_left_cancel' _ counts
  have equal := apart.eq_of_lt_of_lt (by omega) near
  omega

theorem push_contents (fits : N < 2 ^ w) (divides : N ∣ 2 ^ w) (room : r.distance < N) (x : α) :
    (r.push x).contents = r.contents ++ [x] := by
  unfold contents
  rw [push_distance fits room, List.range_succ, List.map_append, List.map_singleton]
  congr 1
  · refine List.map_congr_left fun i member => ?_
    have before : i < r.distance := List.mem_range.mp member
    have other := slot_ne divides r.nread before room
    rw [nread_add_distance] at other
    simp only [push, update_of_ne other]
  · have last := r.nread_add_distance
    simp only [push, last, update_self]

theorem contents_pop (some : r.distance ≠ 0) : r.contents = r.front :: r.pop.contents := by
  unfold contents
  rw [pop_distance some, List.range_succ_eq_map, List.map_cons, List.map_map]
  congr 1
  · simp [front]
  · refine List.map_congr_left fun i _ => ?_
    have next : r.nread + BitVec.ofNat w (i + 1) = r.nread + 1 + BitVec.ofNat w i := by
      have one : (1 : BitVec w) = BitVec.ofNat w 1 := rfl
      rw [BitVec.ofNat_add, one]
      ring
    simp only [Function.comp, Nat.succ_eq_add_one, pop, next]

theorem contents_retract (some : r.distance ≠ 0) : r.contents = r.retract.contents ++ [r.last] := by
  have ends : r.nread + BitVec.ofNat w r.retract.distance = r.nwrite - 1 := r.retract.nread_add_distance
  unfold contents
  rw [retract_distance some, List.range_succ, List.map_append, List.map_singleton, ends]
  rfl

theorem length_contents (r : Ring α N w) : r.contents.length = r.distance := by
  simp [contents]

end
end Ring
end Xv6.RingBuffer
