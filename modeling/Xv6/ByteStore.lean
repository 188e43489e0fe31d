import Mathlib.Algebra.Order.Ring.Nat
import Mathlib.Tactic.Common
import Mathlib.Tactic.Ring

/-! Bytes by address. A list of bytes is stored at consecutive addresses, and a number
as its digits to base 256, the lowest first. Reading back what was stored gives it
back, and a store changes nothing outside its range. -/
namespace Xv6.ByteStore

abbrev Bytes := Nat → UInt8

def slice (m : Bytes) (a k : Nat) : List UInt8 := (List.range k).map fun i => m (a + i)

/-- Store the bytes of a list from address `a` on. -/
def put (m : Bytes) (a : Nat) (bytes : List UInt8) : Bytes := fun x =>
  if a ≤ x ∧ x < a + bytes.length then bytes.getD (x - a) 0 else m x

/-- The number with its lowest byte at address `a`. -/
def load (m : Bytes) : Nat → Nat → Nat
  | _, 0 => 0
  | a, k + 1 => (m a).toNat + 256 * load m (a + 1) k

def digits : Nat → Nat → List UInt8
  | _, 0 => []
  | v, k + 1 => UInt8.ofNat v :: digits (v / 256) k

def store (m : Bytes) (a k v : Nat) : Bytes := put m a (digits v k)

/-- A buffer of `k` bytes with the bytes from address `a` on. -/
def window (m : Bytes) (a k : Nat) : Bytes := fun x => if x < k then m (a + x) else 0

def blit (m : Bytes) (a : Nat) (buf : Bytes) (k : Nat) : Bytes := fun x =>
  if a ≤ x ∧ x < a + k then buf (x - a) else m x

@[simp] theorem length_digits (v k : Nat) : (digits v k).length = k := by
  induction k generalizing v with
  | zero => rfl
  | succ k ih => rw [digits, List.length_cons, ih]

@[simp] theorem length_slice (m : Bytes) (a k : Nat) : (slice m a k).length = k := by
  simp [slice]

theorem getElem_slice (m : Bytes) (a k : Nat) (inside : i < (slice m a k).length) :
    (slice m a k)[i] = m (a + i) := by
  simp [slice]

theorem slice_congr (same : ∀ i < k, m (a + i) = m' (b + i)) : slice m a k = slice m' b k :=
  List.map_congr_left fun i member => same i (List.mem_range.mp member)

theorem slice_append (m : Bytes) (a j k : Nat) :
    slice m a j ++ slice m (a + j) k = slice m a (j + k) := by
  refine List.ext_getElem (by simp) fun i _ inside => ?_
  rw [getElem_slice]
  by_cases low : i < j
  · rw [List.getElem_append_left (by simpa using low), getElem_slice]
  · rw [List.getElem_append_right (by simpa using low), getElem_slice, length_slice]
    congr 1
    omega

theorem take_drop_slice (m : Bytes) (off n size : Nat) :
    ((slice m 0 size).drop off).take n = slice m off (min n (size - off)) := by
  refine List.ext_getElem (by simp) fun i _ _ => ?_
  rw [List.getElem_take, List.getElem_drop, getElem_slice, getElem_slice, Nat.zero_add]

theorem put_of_outside (outside : x < a ∨ a + bytes.length ≤ x) : put m a bytes x = m x :=
  if_neg (by omega)

theorem put_inside (inside : i < bytes.length) : put m a bytes (a + i) = bytes[i] := by
  rw [put, if_pos (by omega), Nat.add_sub_cancel_left]
  simp [inside]

@[simp] theorem put_nil : put m a [] = m := by
  funext x
  exact put_of_outside (by simp; omega)

theorem put_append (m : Bytes) (a : Nat) (first second : List UInt8) :
    put (put m a first) (a + first.length) second = put m a (first ++ second) := by
  funext x
  unfold put
  by_cases low : a ≤ x ∧ x < a + first.length
  · rw [if_neg (by omega), if_pos low, if_pos (by simp; omega)]
    simp [List.getElem?_append_left (show x - a < first.length by omega)]
  · by_cases high : a + first.length ≤ x ∧ x < a + first.length + second.length
    · rw [if_pos high, if_pos (by simp; omega)]
      simp only [List.getD_eq_getElem?_getD,
        List.getElem?_append_right (show first.length ≤ x - a by omega)]
      congr 2
      omega
    · rw [if_neg high, if_neg low, if_neg (by simp; omega)]

theorem slice_put (m : Bytes) {bytes : List UInt8} (inside : off + n ≤ bytes.length) :
    slice (put m 0 bytes) off n = (bytes.drop off).take n := by
  refine List.ext_getElem (by simp; omega) fun i low _ => ?_
  rw [length_slice] at low
  rw [getElem_slice, ← Nat.zero_add (off + i), put_inside (by omega)]
  simp

theorem slice_replace (m : Bytes) {bytes : List UInt8} (inside : off ≤ size) :
    slice (put m off bytes) 0 (max size (off + bytes.length)) =
      (slice m 0 size).take off ++ bytes ++ (slice m 0 size).drop (off + bytes.length) := by
  refine List.ext_getElem (by simp; omega) fun i low _ => ?_
  rw [getElem_slice, Nat.zero_add]
  by_cases first : i < off
  · rw [put_of_outside (.inl first), List.getElem_append_left (by simp; omega),
      List.getElem_append_left (by simp; omega), List.getElem_take, getElem_slice, Nat.zero_add]
  · obtain ⟨j, rfl⟩ := Nat.exists_eq_add_of_le (Nat.not_lt.mp first)
    by_cases second : j < bytes.length
    · rw [put_inside second, List.getElem_append_left (by simp; omega),
        List.getElem_append_right (by simp)]
      simp [Nat.min_eq_left inside]
    · rw [put_of_outside (by omega), List.getElem_append_right (by simp; omega),
        List.getElem_drop, getElem_slice]
      congr 1
      simp only [List.length_append, List.length_take, length_slice]
      omega

theorem load_congr (same : ∀ i < k, m (a + i) = m' (b + i)) : load m a k = load m' b k := by
  induction k generalizing a b with
  | zero => rfl
  | succ k ih =>
    have first : m a = m' b := by simpa using same 0 (by omega)
    have rest : load m (a + 1) k = load m' (b + 1) k := ih fun i below => by
      have next := same (i + 1) (by omega)
      rwa [show a + 1 + i = a + (i + 1) by omega, show b + 1 + i = b + (i + 1) by omega]
    rw [load, load, first, rest]

theorem load_lt (m : Bytes) (a k : Nat) : load m a k < 256 ^ k := by
  induction k generalizing a with
  | zero => exact Nat.one_pos
  | succ k ih =>
    have byte := (m a).toNat_lt
    have rest := ih (a + 1)
    rw [load, pow_succ]
    omega

theorem load_zero (zero : ∀ i < k, m (a + i) = 0) : load m a k = 0 := by
  induction k generalizing a with
  | zero => rfl
  | succ k ih =>
    have first : m a = 0 := by simpa using zero 0 (by omega)
    rw [load, first, ih fun i below => by
      have next := zero (i + 1) (by omega)
      rwa [show a + 1 + i = a + (i + 1) by omega]]
    rfl

theorem load_store (m : Bytes) (a : Nat) (fits : v < 256 ^ k) : load (store m a k v) a k = v := by
  induction k generalizing m a v with
  | zero =>
    have zero : v = 0 := by simpa using fits
    rw [zero, load]
  | succ k ih =>
    have rest : store m a (k + 1) v = store (put m a [UInt8.ofNat v]) (a + 1) k (v / 256) :=
      (put_append m a [UInt8.ofNat v] (digits (v / 256) k)).symm
    have low : store m a (k + 1) v a = UInt8.ofNat v :=
      put_inside (i := 0) (by simp)
    rw [load, low, rest, ih _ _ (Nat.div_lt_of_lt_mul (by rwa [pow_succ, mul_comm] at fits))]
    simp only [UInt8.toNat_ofNat']
    omega

theorem load_store_of_apart (apart : b + j ≤ a ∨ a + k ≤ b) :
    load (store m a k v) b j = load m b j :=
  load_congr fun i _ => put_of_outside (by rw [length_digits]; omega)

theorem store_of_outside (outside : x < a ∨ a + k ≤ x) : store m a k v x = m x :=
  put_of_outside (by rwa [length_digits])

end Xv6.ByteStore
