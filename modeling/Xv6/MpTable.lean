import Mathlib.Algebra.Group.Nat.Defs
import Xv6.CheckedC

/-! The multiprocessor tables, in physical memory. `mpconfig` finds and checks the
configuration table; the loop of `mpinit` goes through its entries, whose sizes depend on
their types. The `break` of its `default:` branch ends only the `switch`, so that the loop
never leaves an entry of any other type. -/
namespace Xv6.MpTable
open CheckedC Function

abbrev Memory := Nat → UInt8

abbrev NCPU : Nat := 8
abbrev MPPROC : UInt8 := 0
abbrev MPBUS : UInt8 := 1
abbrev MPIOAPIC : UInt8 := 2
abbrev MPIOINTR : UInt8 := 3
abbrev MPLINTR : UInt8 := 4

/-- The sizes of `struct mp`, `struct mpconf`, `struct mpproc` and `struct mpioapic`. -/
abbrev mpSize : Nat := 16
abbrev mpconfSize : Nat := 44
abbrev mpprocSize : Nat := 20
abbrev mpioapicSize : Nat := 8

section
variable (mem : Memory)

def bytes (addr len : Nat) : List UInt8 := (List.range len).map fun i => mem (addr + i)

def sum (addr len : Nat) : UInt8 := (bytes mem addr len).foldl (· + ·) 0

def number (addr len : Nat) : Nat := (bytes mem addr len).foldr (fun byte n => byte.toNat + 256 * n) 0

def mpsearch1 (a len : Nat) : Option Nat :=
  ((List.range ((len + mpSize - 1) / mpSize)).map fun i => a + mpSize * i).find? fun p =>
    bytes mem p 4 = [0x5f, 0x4d, 0x50, 0x5f] ∧ sum mem p mpSize = 0

def mpsearch : Option Nat :=
  let ebda := number mem 0x40e 2 * 16
  let base := number mem 0x413 2 * 1024
  let first := if ebda ≠ 0 then mpsearch1 mem ebda 1024
    else mpsearch1 mem ((base + (2 ^ 32 - 1024)) % 2 ^ 32) 1024
  first.or (mpsearch1 mem 0xf0000 0x10000)

def length (conf : Nat) : Nat := number mem (conf + 4) 2

def mpconfig : Option Nat := do
  let mp ← mpsearch mem
  let conf := number mem (mp + 4) 4
  if conf = 0 then none
  else if bytes mem conf 4 ≠ [0x50, 0x43, 0x4d, 0x50] then none
  else if mem (conf + 6) ≠ 1 ∧ mem (conf + 6) ≠ 4 then none
  else if sum mem conf (length mem conf) ≠ 0 then none
  else some conf

/-- The pointer of the loop and what it sets; `apicid i` is `cpus[i].apicid`. -/
structure Scan where
  p : Nat
  lapic : Nat
  ncpu : Nat := 0
  apicid : Nat → UInt8 := fun _ => 0
  ioapicid : UInt8 := 0
  ismp : Bool := true

/-- The body of the loop. -/
def scanEntry (s : Scan) : Scan :=
  if mem s.p = MPPROC then
    let s := if s.ncpu < NCPU then
        { s with apicid := update s.apicid s.ncpu (mem (s.p + 1)), ncpu := s.ncpu + 1 }
      else s
    { s with p := s.p + mpprocSize }
  else if mem s.p = MPIOAPIC then { s with ioapicid := mem (s.p + 1), p := s.p + mpioapicSize }
  else if mem s.p = MPBUS ∨ mem s.p = MPIOINTR ∨ mem s.p = MPLINTR then { s with p := s.p + 8 }
  else { s with ismp := false }

/-- The loop, for at most `rounds` turns. -/
def scanEntries (e : Nat) : Nat → Scan → Checked Scan
  | 0, s => if s.p < e then .error .blocked else .ok s
  | rounds + 1, s => if s.p < e then scanEntries e rounds (scanEntry mem s) else .ok s

def firstEntry (conf : Nat) : Scan := { p := conf + mpconfSize, lapic := number mem (conf + 36) 4 }

/-- `mpinit` as far as the IMCR. -/
def mpinit (rounds : Nat) : Checked Scan := do
  match mpconfig mem with
  | none => throw (.panic "Expect to run on an SMP")
  | some conf =>
    let s ← scanEntries mem (conf + length mem conf) rounds (firstEntry mem conf)
    if s.ismp = false then throw (.panic "Didn't find a suitable machine")
    return s

/-! ## Entries -/

/-- The size of an entry, if its type is one of the five. -/
def entrySize (type : UInt8) : Option Nat :=
  if type = MPPROC then some mpprocSize
  else if type = MPBUS ∨ type = MPIOAPIC ∨ type = MPIOINTR ∨ type = MPLINTR then some 8
  else none

/-- From `p` to `e` there are only entries of the five types. -/
inductive Supported (e : Nat) : Nat → Prop where
  | done (ends : e ≤ p) : Supported e p
  | next (inside : p < e) (known : entrySize (mem p) = some size) (more : Supported e (p + size)) :
    Supported e p

variable {mem}

theorem entrySize_pos (known : entrySize type = some size) : 0 < size := by
  unfold entrySize at known
  split at known
  · cases known
    decide
  · split at known
    · cases known
      decide
    · cases known

theorem scanEntry_spec (mem : Memory) (s : Scan) :
    (scanEntry mem s).p = s.p + (entrySize (mem s.p)).getD 0 ∧
      ((entrySize (mem s.p)).isSome → (scanEntry mem s).ismp = s.ismp) ∧
      (s.ncpu ≤ NCPU → (scanEntry mem s).ncpu ≤ NCPU) := by
  unfold scanEntry entrySize
  split
  · split
    · exact ⟨rfl, fun _ => rfl, fun _ => by dsimp only; omega⟩
    · exact ⟨rfl, fun _ => rfl, id⟩
  · split
    · rename_i ioapic
      simp [ioapic]
    · rename_i notIoapic
      split
      · rename_i other
        have known : mem s.p = MPBUS ∨ mem s.p = MPIOAPIC ∨ mem s.p = MPIOINTR ∨ mem s.p = MPLINTR :=
          other.imp_right .inr
        simp [known]
      · rename_i unknown
        have unknown : ¬ (mem s.p = MPBUS ∨ mem s.p = MPIOAPIC ∨ mem s.p = MPIOINTR ∨
            mem s.p = MPLINTR) := by
          rintro (bus | ioapic | intr)
          · exact unknown (.inl bus)
          · exact notIoapic ioapic
          · exact unknown (.inr intr)
        simp [unknown]

theorem scanEntries_ends (supported : Supported mem e p) (s : Scan) (here : s.p = p)
    (few : s.ncpu ≤ NCPU) : ∃ after, (∀ rounds, e - p ≤ rounds → scanEntries mem e rounds s = .ok after) ∧
      e ≤ after.p ∧ after.ismp = s.ismp ∧ after.ncpu ≤ NCPU := by
  induction supported generalizing s with
  | done ends =>
    refine ⟨s, fun rounds _ => ?_, here ▸ ends, rfl, few⟩
    cases rounds <;> exact if_neg (by omega)
  | next inside known more ih =>
    subst here
    obtain ⟨moved, flag, count⟩ := scanEntry_spec mem s
    rw [known] at moved flag
    obtain ⟨after, ran, ends, same, most⟩ := ih (scanEntry mem s) moved (count few)
    have forward := entrySize_pos known
    refine ⟨after, fun rounds enough => ?_, ends, same.trans (flag rfl), most⟩
    obtain ⟨rounds, rfl⟩ := Nat.exists_eq_add_one_of_ne_zero (show rounds ≠ 0 by omega)
    rw [scanEntries, if_pos inside]
    exact ran rounds (by omega)

theorem scanEntries_blocked (rounds : Nat) (s : Scan) (unsupported : ¬ Supported mem e s.p) :
    scanEntries mem e rounds s = .error .blocked := by
  have inside : s.p < e := by
    by_contra outside
    exact unsupported (.done (by omega))
  induction rounds generalizing s with
  | zero => exact if_pos inside
  | succ rounds ih =>
    rw [scanEntries, if_pos inside]
    have still : ¬ Supported mem e (scanEntry mem s).p := by
      rw [(scanEntry_spec mem s).1]
      cases known : entrySize (mem s.p) with
      | none => exact unsupported
      | some size => exact fun more => unsupported (.next inside known more)
    refine ih _ still ?_
    by_contra outside
    exact still (.done (by omega))

end

/-- For every memory whose table `mpconfig` accepts: if all entries up to `conf->length` are
of the five types, `mpinit` has gone through them after at most `conf->length` turns; and
else it never ends, whatever the number of turns. -/
theorem mpinit_ends (mem : Memory) (accepted : mpconfig mem = some conf) :
    (Supported mem (conf + length mem conf) (conf + mpconfSize) →
      ∃ s, (∀ rounds, length mem conf ≤ rounds → mpinit mem rounds = .ok s) ∧
        conf + length mem conf ≤ s.p ∧ s.ncpu ≤ NCPU) ∧
    (¬ Supported mem (conf + length mem conf) (conf + mpconfSize) →
      ∀ rounds, mpinit mem rounds = .error .blocked) := by
  constructor
  · intro supported
    obtain ⟨s, ran, ends, flag, most⟩ := scanEntries_ends supported (firstEntry mem conf) rfl
      (Nat.zero_le _)
    refine ⟨s, fun rounds enough => ?_, ends, most⟩
    simp only [mpinit, accepted, ran rounds (by omega), bind_ok, flag]
    rfl
  · intro unsupported rounds
    simp only [mpinit, accepted, scanEntries_blocked rounds (firstEntry mem conf) unsupported,
      bind_error]

/-! ## Two tables -/

/-- A memory with the floating pointer at the start of the EBDA, at 0x9fc00, and behind it a
configuration table of version 4 with these entries and this checksum. -/
def firmware (checksum : UInt8) (entries : List UInt8) : Memory := fun a =>
  if a = 0x40e then 0xc0 else if a = 0x40f then 0x9f else if a < 0x9fc00 then 0
  else ([0x5f, 0x4d, 0x50, 0x5f, 0x10, 0xfc, 0x09, 0, 1, 4, 0x8b, 0, 0, 0, 0, 0] ++
    [0x50, 0x43, 0x4d, 0x50, (mpconfSize + entries.length).toUInt8, 0, 4, checksum] ++
    List.replicate 36 0 ++ entries).getD (a - 0x9fc00) 0

/-- A table with a processor and an I/O APIC. -/
theorem mpinit_ends_two :
    let mem := firmware 0x81 (List.replicate 20 0 ++ [2, 1, 0, 0, 0, 0, 0, 0])
    mpconfig mem = some 0x9fc10 ∧ ∃ s, (∀ rounds, length mem 0x9fc10 ≤ rounds →
      mpinit mem rounds = .ok s) ∧ 0x9fc10 + length mem 0x9fc10 ≤ s.p ∧ s.ncpu ≤ NCPU := by
  intro mem
  have accepted : mpconfig mem = some 0x9fc10 := by decide +kernel
  have supported : Supported mem (0x9fc10 + length mem 0x9fc10) (0x9fc10 + mpconfSize) :=
    .next (by decide +kernel) (show entrySize _ = some 20 by decide +kernel)
      (.next (by decide +kernel) (show entrySize _ = some 8 by decide +kernel)
        (.done (by decide +kernel)))
  exact ⟨accepted, (mpinit_ends mem accepted).1 supported⟩

/-- A table with one entry, of type 5. -/
theorem mpinit_never_ends :
    mpconfig (firmware 0x9a [5]) = some 0x9fc10 ∧
      ∀ rounds, mpinit (firmware 0x9a [5]) rounds = .error .blocked := by
  have accepted : mpconfig (firmware 0x9a [5]) = some 0x9fc10 := by decide +kernel
  refine ⟨accepted, fun rounds => ?_⟩
  have unsupported : ¬ Supported (firmware 0x9a [5])
      (0x9fc10 + length (firmware 0x9a [5]) 0x9fc10) (0x9fc10 + mpconfSize) := by
    intro supported
    cases supported with
    | done ends => exact absurd ends (by decide +kernel)
    | next _ known _ =>
      have unknown : entrySize (firmware 0x9a [5] (0x9fc10 + mpconfSize)) = none := by decide +kernel
      cases known
  simp only [mpinit, accepted, scanEntries_blocked rounds (firstEntry _ 0x9fc10) unsupported,
    bind_error]

end Xv6.MpTable
