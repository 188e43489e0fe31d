import Xv6.Param
import Xv6.PageTables
import Xv6.ByteStore

/-! The arguments of system calls (`syscall.c`). A process chooses its stack pointer, what
it stores in its memory and the pointers it passes; all sums are of type `uint` and wrap.
The model keeps the addresses of user memory that the kernel reads. -/
namespace Xv6.UserArguments
open PageTables

/-- What the checks use of the current process. -/
structure Caller where
  sz : Nat
  /-- `tf->esp` -/
  esp : Nat
  memory : Nat → UInt8

/-- A run that notes the addresses it reads. -/
abbrev Reading := StateM (List Nat)

def byte (p : Caller) (a : Nat) : Reading UInt8 := do
  modify (· ++ [a])
  return p.memory a

def number (b₀ b₁ b₂ b₃ : UInt8) : Nat :=
  b₀.toNat + 256 * (b₁.toNat + 256 * (b₂.toNat + 256 * b₃.toNat))

/-- `*(int*)a`, as a `uint`. -/
def word (p : Caller) (a : Nat) : Reading Nat := do
  let b₀ ← byte p a
  let b₁ ← byte p (uint (a + 1))
  let b₂ ← byte p (uint (a + 2))
  let b₃ ← byte p (uint (a + 3))
  return number b₀ b₁ b₂ b₃

/-! ## syscall.c -/

/-- What is stored in `*ip`, or `none` for -1. -/
def fetchint (p : Caller) (addr : Nat) : Reading (Option Nat) :=
  if p.sz ≤ addr ∨ p.sz < uint (addr + 4) then return none
  else do return some (← word p addr)

/-- The loop of `fetchstr` for the string at `pp`. -/
def stringLoop (p : Caller) (pp : Nat) : Nat → Nat → Reading (Option Nat)
  | 0, _ => return none
  | rounds + 1, s =>
    if s < p.sz then do
      let c ← byte p s
      if c = 0 then return some (s - pp) else stringLoop p pp rounds (s + 1)
    else return none

/-- The length of the string, or `none` for -1; `*pp` is set to `addr`. -/
def fetchstr (p : Caller) (addr : Nat) : Reading (Option Nat) :=
  if p.sz ≤ addr then return none else stringLoop p addr (p.sz - addr) addr

def argument (p : Caller) (n : Int) : Nat := ((p.esp + 4 + 4 * n) % 2 ^ 32).toNat

def argint (p : Caller) (n : Int) : Reading (Option Nat) := fetchint p (argument p n)

/-- The pointer, or `none` for -1. -/
def argptr (p : Caller) (n size : Int) : Reading (Option Nat) := do
  match ← argint p n with
  | none => return none
  | some i =>
    if size < 0 ∨ p.sz ≤ i ∨ p.sz < ((i + size) % 2 ^ 32).toNat then return none
    else return some i

def argstr (p : Caller) (n : Int) : Reading (Option (Nat × Nat)) := do
  match ← argint p n with
  | none => return none
  | some addr => return (← fetchstr p addr).map fun len => (addr, len)

/-! ## Calls that take pointers -/

/-- The loop of `sys_exec` from turn `i` on, with the places that are left in `argv`. -/
def argvLoop (p : Caller) (uargv : Nat) : Nat → Nat → Reading (Option (List (Nat × Nat)))
  | 0, _ => return none
  | places + 1, i => do
    match ← fetchint p (uint (uargv + 4 * i)) with
    | none => return none
    | some uarg =>
      if uarg = 0 then return some []
      else match ← fetchstr p uarg with
        | none => return none
        | some len => return (← argvLoop p uargv places (i + 1)).map ((uarg, len) :: ·)

/-- The path and the strings that `sys_exec` passes to `exec`. -/
def sys_exec (p : Caller) : Reading (Option ((Nat × Nat) × List (Nat × Nat))) := do
  match ← argstr p 0 with
  | none => return none
  | some path => match ← argint p 1 with
    | none => return none
    | some uargv => return (← argvLoop p uargv MAXARG 0).map fun argv => (path, argv)

/-- The pointers that `sys_wait2` passes to `wait2`; each is to an `int`, and a pointer
has the same size. -/
def sys_wait2 (p : Caller) : Reading (Option (Nat × Nat × Nat)) := do
  match ← argptr p 0 4 with
  | none => return none
  | some retime => match ← argptr p 1 4 with
    | none => return none
    | some rutime => return (← argptr p 2 4).map fun stime => (retime, rutime, stime)

/-! ## What is read -/

/-- The run reads user memory below the size only, and its result satisfies `post`. -/
def Below (p : Caller) (run : Reading α) (post : α → Prop) : Prop :=
  ∀ log, ∃ reads, (run log).2 = log ++ reads ∧ (∀ a ∈ reads, a < p.sz) ∧ post (run log).1

section
variable {p : Caller}

theorem below_return {post : α → Prop} (holds : post value) :
    Below p (return value : Reading α) post :=
  fun log => ⟨[], (List.append_nil log).symm, nofun, holds⟩

theorem Below.bind {run : Reading α} {next : α → Reading β} (first : Below p run mid)
    (second : ∀ value, mid value → Below p (next value) post) : Below p (run >>= next) post := by
  intro log
  obtain ⟨reads, noted, inside, holds⟩ := first log
  obtain ⟨more, noted', inside', holds'⟩ := second _ holds (run log).2
  refine ⟨reads ++ more, ?_, fun a member => ?_, holds'⟩
  · rw [← List.append_assoc, ← noted]
    exact noted'
  · exact (List.mem_append.mp member).elim (inside a) (inside' a)

theorem byte_below (inside : a < p.sz) : Below p (byte p a) (· = p.memory a) :=
  fun log => ⟨[a], rfl, by simpa using inside, rfl⟩

def wordAt (p : Caller) (a : Nat) : Nat := ByteStore.load p.memory a 4

theorem word_below (limit : p.sz ≤ KERNBASE) (inside : a + 4 ≤ p.sz) :
    Below p (word p a) (· = wordAt p a) := by
  have same (k : Nat) (small : k < 4) : uint (a + k) = a + k := by
    simp only [uint, KERNBASE] at *
    omega
  unfold word
  rw [same 1 (by decide), same 2 (by decide), same 3 (by decide)]
  refine (byte_below (by omega)).bind fun b₀ first => ?_
  refine (byte_below (by omega)).bind fun b₁ second => ?_
  refine (byte_below (by omega)).bind fun b₂ third => ?_
  refine (byte_below (by omega)).bind fun b₃ fourth => ?_
  refine below_return ?_
  rw [first, second, third, fourth]
  rfl

/-- A string of this length is at the address, with all its bytes below the size. -/
structure StringAt (p : Caller) (pp len : Nat) : Prop where
  inside : pp + len < p.sz
  ends : p.memory (pp + len) = 0
  first : ∀ k < len, p.memory (pp + k) ≠ 0

theorem StringAt.unique (one : StringAt p pp len) (other : StringAt p pp len') : len = len' := by
  rcases Nat.lt_trichotomy len len' with less | same | more
  · exact absurd one.ends (other.first len less)
  · exact same
  · exact absurd other.ends (one.first len' more)

theorem fetchint_below (limit : p.sz ≤ KERNBASE) (small : addr < 2 ^ 32) :
    Below p (fetchint p addr) fun r => ∀ v, r = some v ↔ addr + 4 ≤ p.sz ∧ v = wordAt p addr := by
  unfold fetchint
  by_cases inside : addr + 4 ≤ p.sz
  · have accepts : ¬(p.sz ≤ addr ∨ p.sz < uint (addr + 4)) := by
      simp only [uint, KERNBASE] at *
      omega
    rw [if_neg accepts]
    refine (word_below limit inside).bind fun w read => below_return fun v => ?_
    rw [Option.some_inj, read]
    exact ⟨fun same => ⟨inside, same.symm⟩, fun both => both.2.symm⟩
  · have refuses : p.sz ≤ addr ∨ p.sz < uint (addr + 4) := by
      simp only [uint, KERNBASE] at *
      omega
    rw [if_pos refuses]
    exact below_return fun v => ⟨nofun, fun both => absurd both.1 inside⟩

theorem stringLoop_below (enough : p.sz ≤ s + rounds) (start : pp ≤ s)
    (before : ∀ k < s - pp, p.memory (pp + k) ≠ 0) :
    Below p (stringLoop p pp rounds s) fun r => ∀ len, r = some len ↔ StringAt p pp len := by
  have absent (none : p.sz ≤ s) : ∀ len, ¬StringAt p pp len := fun len found => by
    have inside := found.inside
    exact before len (by omega) found.ends
  induction rounds generalizing s with
  | zero => exact below_return fun len => ⟨nofun, fun found => absurd found (absent (by omega) len)⟩
  | succ rounds ih =>
    rw [stringLoop]
    by_cases more : s < p.sz
    · rw [if_pos more]
      refine (byte_below more).bind fun c read => ?_
      split
      · rename_i ends
        have here : StringAt p pp (s - pp) := by
          refine ⟨by omega, ?_, before⟩
          rw [Nat.add_sub_cancel' start, ← read, ends]
        refine below_return fun len => ⟨fun same => ?_, fun found => ?_⟩
        · cases same
          exact here
        · rw [here.unique found]
      · rename_i other
        have before' : ∀ k < s + 1 - pp, p.memory (pp + k) ≠ 0 := by
          intro k less
          by_cases last : k = s - pp
          · rw [last, Nat.add_sub_cancel' start, ← read]
            exact other
          · exact before k (by omega)
        refine ih (by omega) (by omega) before' fun done len found => ?_
        have inside := found.inside
        exact before' len (by omega) found.ends
    · rw [if_neg more]
      exact below_return fun len => ⟨nofun, fun found => absurd found (absent (by omega) len)⟩

theorem fetchstr_below (p : Caller) (addr : Nat) :
    Below p (fetchstr p addr) fun r => ∀ len, r = some len ↔ StringAt p addr len := by
  unfold fetchstr
  split
  · refine below_return fun len => ⟨nofun, fun found => ?_⟩
    have inside := found.inside
    omega
  · exact stringLoop_below (by omega) (Nat.le_refl _) fun k less => by omega

theorem argument_lt (p : Caller) (n : Int) : argument p n < 2 ^ 32 := by
  unfold argument
  omega

section
variable (limit : p.sz ≤ KERNBASE)
include limit

theorem argint_below (n : Int) : Below p (argint p n) fun r => ∀ v, r = some v ↔
      argument p n + 4 ≤ p.sz ∧ v = wordAt p (argument p n) :=
  fetchint_below limit (argument_lt p n)

/-- A block of `size` bytes at the address lies below the size of the process. -/
def Inside (p : Caller) (q : Nat) (size : Int) : Prop := 0 ≤ size ∧ q < p.sz ∧ q + size ≤ p.sz

theorem argptr_below (n : Int) (low : -2 ^ 31 ≤ size) (high : size < 2 ^ 31) :
    Below p (argptr p n size) fun r => ∀ q, r = some q ↔
      argument p n + 4 ≤ p.sz ∧ q = wordAt p (argument p n) ∧ Inside p q size := by
  refine (argint_below limit n).bind fun r read => ?_
  cases r with
  | none =>
    refine below_return fun q => ⟨nofun, fun found => ?_⟩
    exact absurd ((read q).mpr ⟨found.1, found.2.1⟩) nofun
  | some i =>
    obtain ⟨fetched, rfl⟩ := (read i).mp rfl
    dsimp only
    by_cases inside : Inside p (wordAt p (argument p n)) size
    · have accepts : ¬(size < 0 ∨ p.sz ≤ wordAt p (argument p n) ∨
          p.sz < ((wordAt p (argument p n) + size) % 2 ^ 32).toNat) := by
        simp only [Inside, KERNBASE] at *
        omega
      rw [if_neg accepts]
      refine below_return fun q => ⟨fun same => ?_, fun found => by rw [found.2.1]⟩
      cases same
      exact ⟨fetched, rfl, inside⟩
    · have refuses : size < 0 ∨ p.sz ≤ wordAt p (argument p n) ∨
          p.sz < ((wordAt p (argument p n) + size) % 2 ^ 32).toNat := by
        simp only [Inside, KERNBASE] at *
        omega
      rw [if_pos refuses]
      refine below_return fun q => ⟨nofun, fun found => absurd ?_ inside⟩
      rw [← found.2.1]
      exact found.2.2

theorem argstr_below (n : Int) : Below p (argstr p n) fun r => ∀ q len, r = some (q, len) ↔
      argument p n + 4 ≤ p.sz ∧ q = wordAt p (argument p n) ∧ StringAt p q len := by
  refine (argint_below limit n).bind fun r read => ?_
  cases r with
  | none =>
    refine below_return fun q len => ⟨nofun, fun found => ?_⟩
    exact absurd ((read q).mpr ⟨found.1, found.2.1⟩) nofun
  | some addr =>
    obtain ⟨fetched, rfl⟩ := (read addr).mp rfl
    refine (fetchstr_below p _).bind fun r string => below_return fun q len => ?_
    constructor
    · intro same
      obtain ⟨len', found, pair⟩ := Option.map_eq_some_iff.mp same
      cases pair
      exact ⟨fetched, rfl, (string len).mp found⟩
    · rintro ⟨-, rfl, found⟩
      rw [(string len).mpr found, Option.map_some]

theorem argvLoop_below (uargv places i : Nat) :
    Below p (argvLoop p uargv places i) fun r => ∀ argv, r = some argv →
      argv.length < places ∧ ∀ x ∈ argv, StringAt p x.1 x.2 := by
  induction places generalizing i with
  | zero => exact below_return nofun
  | succ places ih =>
    have small : uint (uargv + 4 * i) < 2 ^ 32 := Nat.mod_lt _ (by decide)
    refine (fetchint_below limit small).bind fun r _ => ?_
    cases r with
    | none => exact below_return nofun
    | some uarg =>
      dsimp only
      split
      · refine below_return fun argv same => ?_
        cases same
        exact ⟨Nat.succ_pos _, nofun⟩
      · refine (fetchstr_below p uarg).bind fun r string => ?_
        cases r with
        | none => exact below_return nofun
        | some len =>
          refine (ih (i + 1)).bind fun r rest => below_return fun argv same => ?_
          obtain ⟨argv, found, rfl⟩ := Option.map_eq_some_iff.mp same
          obtain ⟨fewer, strings⟩ := rest argv found
          refine ⟨Nat.succ_lt_succ fewer, fun x member => ?_⟩
          rcases List.mem_cons.mp member with rfl | member
          · exact (string len).mp rfl
          · exact strings x member

theorem sys_exec_below : Below p (sys_exec p) fun r => ∀ path argv, r = some (path, argv) →
      StringAt p path.1 path.2 ∧ argv.length < MAXARG ∧ ∀ x ∈ argv, StringAt p x.1 x.2 := by
  refine (argstr_below limit 0).bind fun r found => ?_
  cases r with
  | none => exact below_return nofun
  | some path =>
    have string := ((found path.1 path.2).mp rfl).2.2
    refine (argint_below limit 1).bind fun r _ => ?_
    cases r with
    | none => exact below_return nofun
    | some uargv =>
      refine (argvLoop_below limit uargv MAXARG 0).bind fun r rest =>
        below_return fun path' argv same => ?_
      obtain ⟨argv, found, pair⟩ := Option.map_eq_some_iff.mp same
      cases pair
      exact ⟨string, rest argv found⟩

theorem sys_wait2_below :
    Below p (sys_wait2 p) fun r => ∀ retime rutime stime, r = some (retime, rutime, stime) →
      Inside p retime 4 ∧ Inside p rutime 4 ∧ Inside p stime 4 := by
  have pointer (n : Int) := argptr_below limit n (show -2 ^ 31 ≤ 4 by decide) (by decide)
  refine (pointer 0).bind fun r first => ?_
  cases r with
  | none => exact below_return nofun
  | some retime =>
    refine (pointer 1).bind fun r second => ?_
    cases r with
    | none => exact below_return nofun
    | some rutime =>
      refine (pointer 2).bind fun r third => below_return fun a b c same => ?_
      obtain ⟨stime, found, triple⟩ := Option.map_eq_some_iff.mp same
      cases triple
      exact ⟨((first _).mp rfl).2.2, ((second _).mp rfl).2.2, ((third _).mp found).2.2⟩

end

end

/-- Whatever the stack pointer, the memory and the arguments are, the kernel reads user
memory below the size only. `fetchint` and `argint` deliver a word exactly if its four bytes
are there, `fetchstr` and `argstr` a length exactly if the string ends there, and `argptr` a
pointer exactly if the whole block is there; so are the strings that `sys_exec` passes on
and the three blocks of `sys_wait2`. -/
theorem user_pointers_checked (p : Caller) (limit : p.sz ≤ KERNBASE) :
    (∀ addr < 2 ^ 32, Below p (fetchint p addr) fun r => ∀ v, r = some v ↔
      addr + 4 ≤ p.sz ∧ v = wordAt p addr) ∧
    (∀ n, Below p (argint p n) fun r => ∀ v, r = some v ↔
      argument p n + 4 ≤ p.sz ∧ v = wordAt p (argument p n)) ∧
    (∀ addr, Below p (fetchstr p addr) fun r => ∀ len, r = some len ↔ StringAt p addr len) ∧
    (∀ n, Below p (argstr p n) fun r => ∀ q len, r = some (q, len) ↔
      argument p n + 4 ≤ p.sz ∧ q = wordAt p (argument p n) ∧ StringAt p q len) ∧
    (∀ n size : Int, -2 ^ 31 ≤ size → size < 2 ^ 31 →
      Below p (argptr p n size) fun r => ∀ q, r = some q ↔
        argument p n + 4 ≤ p.sz ∧ q = wordAt p (argument p n) ∧ Inside p q size) ∧
    (Below p (sys_exec p) fun r => ∀ path argv, r = some (path, argv) →
      StringAt p path.1 path.2 ∧ argv.length < MAXARG ∧ ∀ x ∈ argv, StringAt p x.1 x.2) ∧
    (Below p (sys_wait2 p) fun r => ∀ retime rutime stime, r = some (retime, rutime, stime) →
      Inside p retime 4 ∧ Inside p rutime 4 ∧ Inside p stime 4) :=
  ⟨fun _ small => fetchint_below limit small, argint_below limit, fetchstr_below p,
    argstr_below limit, fun n _ low high => argptr_below limit n low high, sys_exec_below limit,
    sys_wait2_below limit⟩

/-- A process of 64 bytes whose stack pointer is at the top of the address space: the address
of its argument 0 wraps to 0, where there is the string pointer 8. -/
def wrapping : Caller where
  sz := 64
  esp := 2 ^ 32 - 4
  memory a := if a = 0 then 8 else if a = 8 then 97 else 0

theorem user_pointers_checked_wrapping :
    wrapping.sz ≤ KERNBASE ∧ (argstr wrapping 0 []).1 = some (8, 1) := by
  refine ⟨by decide, ?_⟩
  obtain ⟨reads, -, -, found⟩ := (user_pointers_checked wrapping (by decide)).2.2.2.1 0 []
  exact (found 8 1).mpr ⟨by decide, by decide, by decide, by decide, by decide⟩

end Xv6.UserArguments
