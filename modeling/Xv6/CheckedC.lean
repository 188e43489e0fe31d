import Mathlib.Logic.Function.Basic
import Mathlib.Data.Fin.Basic
import Mathlib.Tactic.Common

/-! Checked execution of C fragments. An array access outside its bounds, a
null dereference, a division by zero and a call of `panic` all stop a run with
a `Fault`, as does waiting for something that never comes, so a run that ends
normally has indexed nothing out of range. The counted loop is the only loop
construct; its rule is the usual invariant rule together with the absence of
faults. -/
namespace Xv6.CheckedC
open Function

inductive Fault where
  | index (position : Int)
  | null
  | divide
  | panic (message : String)
  | blocked
  deriving DecidableEq, Repr

abbrev Checked (α : Type u) := Except Fault α

/-- The subscript `a[position]` of an array of `n` cells. -/
def index (n : Nat) (position : Int) : Checked (Fin n) :=
  if inside : 0 ≤ position ∧ position < n then .ok ⟨position.toNat, by omega⟩
  else .error (.index position)

def deref : Option α → Checked α
  | some value => .ok value
  | none => .error .null

def load (cells : Fin n → α) (position : Int) : Checked α := do
  return cells (← index n position)

def store (cells : Fin n → α) (position : Int) (value : α) : Checked (Fin n → α) := do
  return update cells (← index n position) value

/-- The C remainder, whose sign is that of the dividend. -/
def remainder (a b : Int) : Checked Int :=
  if b = 0 then .error .divide else .ok (a.tmod b)

/-- `rounds` turns of a counted loop whose counter starts at `i`. -/
def turns (body : Int → σ → Checked σ) : Nat → Int → σ → Checked σ
  | 0, _, state => .ok state
  | rounds + 1, i, state => do turns body rounds (i + 1) (← body i state)

/-- `for(i = lo; i < hi; i++) body`, for a bound the body does not change. -/
def forLoop (lo hi : Int) (body : Int → σ → Checked σ) (state : σ) : Checked σ :=
  turns body (hi - lo).toNat lo state

/-! How a run ends can be tested. -/

instance (run : Checked α) (fault : Fault) : Decidable (run = .error fault) :=
  match run with
  | .ok _ => isFalse nofun
  | .error found => decidable_of_iff (found = fault) ⟨congrArg _, Except.error.inj⟩

instance (run : Checked α) (P : α → Prop) [DecidablePred P] :
    Decidable (∃ value, run = .ok value ∧ P value) :=
  match run with
  | .ok value => decidable_of_iff (P value)
      ⟨fun holds => ⟨value, rfl, holds⟩, by rintro ⟨_, ⟨⟩, holds⟩; exact holds⟩
  | .error _ => isFalse (by rintro ⟨_, ⟨⟩, _⟩)

/-- What is wanted of a run that ends normally and of one that faults. -/
def Outcome (post : α → Prop) (allowed : Fault → Prop) : Checked α → Prop
  | .ok value => post value
  | .error fault => allowed fault

theorem index_ofNat {i : Nat} (inside : i < n) : index n (i : Int) = .ok ⟨i, inside⟩ := by
  simp [index, inside]

@[simp] theorem load_ofNat {i : Nat} (inside : i < n) (cells : Fin n → α) :
    load cells (i : Int) = .ok (cells ⟨i, inside⟩) := by
  simp only [load, index_ofNat inside]
  rfl

@[simp] theorem store_ofNat {i : Nat} (inside : i < n) (cells : Fin n → α) (value : α) :
    store cells (i : Int) value = .ok (update cells ⟨i, inside⟩ value) := by
  simp only [store, index_ofNat inside]
  rfl

@[simp] theorem bind_ok (value : α) (next : α → Checked β) :
    ((Except.ok value : Checked α) >>= next) = next value := rfl

@[simp] theorem bind_error (fault : Fault) (next : α → Checked β) :
    ((Except.error fault : Checked α) >>= next) = .error fault := rfl

@[simp] theorem pure_eq_ok (value : α) : (pure value : Checked α) = .ok value := rfl

theorem bind_eq_ok {first : Checked α} {next : α → Checked β} {result : β} :
    (first >>= next) = .ok result ↔ ∃ value, first = .ok value ∧ next value = .ok result := by
  cases first with
  | error fault => simp
  | ok value => simp

theorem deref_eq_ok {slot : Option α} (found : deref slot = .ok value) : slot = some value := by
  cases slot with
  | none => cases found
  | some x =>
    cases found
    rfl

private theorem turns_invariant (Inv : Int → σ → Prop) (body : Int → σ → Checked σ)
    (rounds : Nat) (lo : Int) (start : Inv lo state)
    (step : ∀ i state, lo ≤ i → i < lo + rounds → Inv i state →
      ∃ after, body i state = .ok after ∧ Inv (i + 1) after) :
    ∃ after, turns body rounds lo state = .ok after ∧ Inv (lo + rounds) after := by
  induction rounds generalizing lo state with
  | zero => exact ⟨state, rfl, by simpa using start⟩
  | succ rounds ih =>
    obtain ⟨middle, ran, held⟩ := step lo state (le_refl lo) (by omega) start
    obtain ⟨after, rest, final⟩ := ih (lo + 1) held
      (fun i state low high inv => step i state (by omega) (by push_cast; omega) inv)
    refine ⟨after, ?_, ?_⟩
    · simp [turns, ran, rest]
    · rwa [show lo + ((rounds + 1 : Nat) : Int) = lo + 1 + (rounds : Int) by push_cast; omega]

theorem forLoop_invariant (Inv : Int → σ → Prop) (lo hi : Int) (body : Int → σ → Checked σ)
    (state : σ) (ordered : lo ≤ hi) (start : Inv lo state)
    (step : ∀ i state, lo ≤ i → i < hi → Inv i state →
      ∃ after, body i state = .ok after ∧ Inv (i + 1) after) :
    ∃ after, forLoop lo hi body state = .ok after ∧ Inv hi after := by
  have reached := turns_invariant Inv body (hi - lo).toNat lo start
    (fun i state low high inv => step i state low (by omega) inv)
  rwa [show lo + ((hi - lo).toNat : Int) = hi by omega] at reached

theorem foldlM_invariant (Inv : σ → Prop) (body : σ → α → Checked σ) (cells : List α)
    (start : Inv state)
    (step : ∀ cell ∈ cells, ∀ state, Inv state → ∃ after, body state cell = .ok after ∧ Inv after) :
    ∃ after, cells.foldlM body state = .ok after ∧ Inv after := by
  induction cells generalizing state with
  | nil => exact ⟨state, rfl, start⟩
  | cons cell cells ih =>
    obtain ⟨middle, ran, held⟩ := step cell (by simp) state start
    obtain ⟨after, rest, final⟩ := ih held
      (fun later member => step later (List.mem_cons_of_mem _ member))
    exact ⟨after, by simp [List.foldlM_cons, ran, rest], final⟩

theorem foldlM_keeps (Inv : σ → Prop) {body : σ → α → Checked σ} {cells : List α}
    (start : Inv state)
    (step : ∀ cell state after, Inv state → body state cell = .ok after → Inv after)
    (ran : cells.foldlM body state = .ok after) : Inv after := by
  induction cells generalizing state with
  | nil =>
    cases ran
    exact start
  | cons cell cells ih =>
    obtain ⟨middle, first, rest⟩ := bind_eq_ok.mp (List.foldlM_cons.symm.trans ran)
    exact ih (step cell state middle start first) rest

end Xv6.CheckedC
