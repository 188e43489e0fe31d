import Xv6.Param
import Xv6.RingBuffer
import Xv6.StepSystem

/-! Console input (`console.c`). Characters are put into a buffer behind three counters that
wrap: what lies between `r` and `w` is committed and can be read, what lies between `w` and
`e` is still being edited. The output of characters is left out. -/
namespace Xv6.Console
open CheckedC RingBuffer StepSystem Function

/-- Both functions that `consoleintr` is given return bytes, or -1 when there is no more. -/
abbrev Byte := UInt8

abbrev INPUT_BUF : Nat := 128

/-- Control-x. -/
abbrev C (x : Char) : Byte := UInt8.ofNat (x.toNat - '@'.toNat)

abbrev newline : Byte := 10
abbrev carriageReturn : Byte := 13
abbrev delete : Byte := 0x7f

/-- The counters `r` and `e` and the buffer are a ring. -/
structure Input where
  ring : Ring Byte INPUT_BUF 32
  w : BitVec 32

abbrev Input.r (s : Input) : BitVec 32 := s.ring.nread
abbrev Input.e (s : Input) : BitVec 32 := s.ring.nwrite

/-! ## consoleintr -/

def killLoop : Nat → Input → Input
  | 0, s => s
  | rounds + 1, s =>
    if s.e ≠ s.w ∧ s.ring.last ≠ newline then killLoop rounds { s with ring := s.ring.retract }
    else s

def backspace (s : Input) : Input :=
  if s.e ≠ s.w then { s with ring := s.ring.retract } else s

/-- The default case; `true` stands for `wakeup(&input.r)`. -/
def store (s : Input) (c : Byte) : Input × Bool :=
  if c ≠ 0 ∧ (s.e - s.r).toNat < INPUT_BUF then
    let c := if c = carriageReturn then newline else c
    let s := { s with ring := s.ring.push c }
    if c = newline ∨ c = C 'D' ∨ s.ring.isFull then ({ s with w := s.e }, true) else (s, false)
  else (s, false)

def handle (s : Input) (c : Byte) : Input × Bool :=
  if c = C 'P' then (s, false)
  else if c = C 'U' then (killLoop (s.e - s.w).toNat s, false)
  else if c = C 'H' ∨ c = delete then (backspace s, false)
  else store s c

/-- The loop over what `getc` returns, with whether readers are woken. -/
def consoleintr (s : Input) : List Byte → Input × Bool
  | [] => (s, false)
  | c :: rest =>
    let (s, wakes) := handle s c
    let (s, wakes') := consoleintr s rest
    (s, wakes || wakes')

/-! ## consoleread -/

/-- Why a call of `consoleread` returns: it has all it asked for, or has met the end of a line or
an end-of-file character. -/
inductive Stop where
  | full
  | line
  | eof
  deriving DecidableEq

inductive Ending where
  | returns (why : Stop)
  | killed
  /-- it waits for `n` bytes more -/
  | sleeps (n : Nat)
  deriving DecidableEq

/-- The loop of `consoleread` until it returns or sleeps, with what it stores at `dst`. -/
def readLoop (killed : Bool) (target : Nat) : Nat → Input → Input × List Byte × Ending
  | 0, s => (s, [], .returns .full)
  | n + 1, s =>
    if s.r = s.w then (s, [], if killed then .killed else .sleeps (n + 1))
    else
      let c := s.ring.front
      let s := { s with ring := s.ring.pop }
      if c = C 'D' then
        if n + 1 < target then
          -- the character is saved for the next call
          ({ s with ring := { s.ring with nread := s.r - 1 } }, [], .returns .eof)
        else (s, [], .returns .eof)
      else if c = newline then (s, [c], .returns .line)
      else
        let (s, bytes, ending) := readLoop killed target n s
        (s, c :: bytes, ending)

/-! ## Readers -/

/-- A call of `consoleread`: what it asks for, what is still missing and what it has. -/
structure Call where
  target : Nat
  n : Nat
  bytes : List Byte
  deriving DecidableEq

structure Reader where
  call : Option Call := none
  asleep : Bool := false
  killed : Bool := false
  deriving DecidableEq

structure State (P : Type) where
  input : Input
  reader : P → Reader

inductive Event (P : Type) where
  /-- an interrupt, with the characters it brings -/
  | intr (cs : List Byte)
  | read (p : P) (n : Nat)
  /-- a reader that was woken goes on -/
  | resume (p : P)
  | kill (p : P)
  deriving DecidableEq

section
variable [DecidableEq P]

/-- A call goes on until it returns or sleeps. -/
def goOn (s : State P) (p : P) (call : Call) : State P :=
  let (input, bytes, ending) := readLoop (s.reader p).killed call.target call.n s.input
  let reader := match ending with
    | .returns _ | .killed => { s.reader p with call := none }
    | .sleeps n => { s.reader p with
        call := some { call with n := n, bytes := call.bytes ++ bytes }, asleep := true }
  ⟨input, update s.reader p reader⟩

def turn (s : State P) : Event P → Option (P × Call)
  | .read p n => some (p, ⟨n, n, []⟩)
  | .resume p => (s.reader p).call.map fun call => (p, call)
  | .intr _ | .kill _ => none

def perform (s : State P) (e : Event P) : State P :=
  match e with
  | .intr cs =>
    let (input, wakes) := consoleintr s.input cs
    ⟨input, if wakes then fun p => { s.reader p with asleep := false } else s.reader⟩
  | .read p n => goOn s p ⟨n, n, []⟩
  | .resume p => match (s.reader p).call with
    | none => s
    | some call => goOn s p call
  | .kill p =>
    { s with reader := update s.reader p { s.reader p with killed := true, asleep := false } }

def Enabled (s : State P) : Event P → Prop
  | .read p _ => (s.reader p).call = none
  | .resume p => (s.reader p).call ≠ none ∧ (s.reader p).asleep = false
  | .intr _ | .kill _ => True

instance : Decidable (Enabled (P := P) s e) := by
  unfold Enabled
  split <;> infer_instance

end

def start (P : Type) : State P := ⟨⟨⟨fun _ => 0, 0, 0⟩, 0⟩, fun _ => {}⟩

def system (P : Type) [DecidableEq P] : System (State P) (Event P) where
  Init s := s = start P
  Enabled := Enabled
  perform s e := .ok (perform s e)

/-! ## Lines -/

/-- What the buffer stands for: committed bytes, and bytes that can still be edited. -/
structure Line where
  committed : List Byte
  pending : List Byte

/-- A character is typed. -/
def Line.type (l : Line) (c : Byte) : Line :=
  if c = C 'P' then l
  else if c = C 'U' then { l with pending := [] }
  else if c = C 'H' ∨ c = delete then { l with pending := l.pending.dropLast }
  else if c ≠ 0 ∧ l.committed.length + l.pending.length < INPUT_BUF then
    let c := if c = carriageReturn then newline else c
    if c = newline ∨ c = C 'D' ∨ l.committed.length + l.pending.length + 1 = INPUT_BUF then
      ⟨l.committed ++ l.pending ++ [c], []⟩
    else { l with pending := l.pending ++ [c] }
  else l

section
variable {s : Input}

/-- The number of committed bytes. -/
def Input.count (s : Input) : Nat := (s.w - s.r).toNat

def Input.line (s : Input) : Line :=
  ⟨s.ring.contents.take s.count, s.ring.contents.drop s.count⟩

/-- Neither the end of a line nor an end-of-file character is among the bytes. -/
def Plain (bytes : List Byte) : Prop := ∀ c ∈ bytes, c ≠ newline ∧ c ≠ C 'D'

structure Sound (s : Input) : Prop where
  ordered : s.count ≤ s.ring.distance
  bounded : s.ring.distance ≤ INPUT_BUF
  plain : Plain s.line.pending
  full : s.ring.distance = INPUT_BUF → s.count = s.ring.distance

theorem fits : INPUT_BUF < 2 ^ 32 := by decide

theorem divides : INPUT_BUF ∣ 2 ^ 32 := ⟨2 ^ 25, by decide⟩

theorem distance_eq (s : Input) : s.ring.distance = (s.e - s.r).toNat := rfl

theorem e_eq_w : s.e = s.w ↔ s.count = s.ring.distance := by
  rw [Input.count, distance_eq, BitVec.toNat_inj]
  constructor
  · intro same
    rw [same]
  · intro same
    have sum := congrArg (· + s.r) same
    simpa [BitVec.sub_add_cancel, eq_comm] using sum

theorem r_eq_w : s.r = s.w ↔ s.count = 0 := by
  rw [Input.count]
  constructor
  · intro same
    rw [same, BitVec.sub_self]
    rfl
  · intro zero
    have none : s.w - s.r = 0 := BitVec.eq_of_toNat_eq zero
    have sum := congrArg (· + s.r) none
    simpa [BitVec.sub_add_cancel, eq_comm] using sum

theorem length_committed (sound : Sound s) : s.line.committed.length = s.count := by
  simp only [Input.line, List.length_take, Ring.length_contents]
  exact Nat.min_eq_left sound.ordered

theorem length_pending (s : Input) : s.line.pending.length = s.ring.distance - s.count := by
  simp only [Input.line, List.length_drop, Ring.length_contents]

section
variable (sound : Sound s)
include sound

theorem retract_line (more : s.e ≠ s.w) : Sound { s with ring := s.ring.retract } ∧
      ({ s with ring := s.ring.retract } : Input).line =
        { s.line with pending := s.line.pending.dropLast } ∧
      s.line.pending = s.line.pending.dropLast ++ [s.ring.last] := by
  have less : s.count < s.ring.distance :=
    Nat.lt_of_le_of_ne sound.ordered fun same => more (e_eq_w.mpr same)
  have one := Ring.retract_distance (r := s.ring) (by omega)
  have parts := Ring.contents_retract (r := s.ring) (by omega)
  have length := Ring.length_contents s.ring.retract
  have pending : s.line.pending = s.ring.retract.contents.drop s.count ++ [s.ring.last] := by
    rw [Input.line, parts, List.drop_append_of_le_length (by omega)]
  have line : ({ s with ring := s.ring.retract } : Input).line =
      { s.line with pending := s.line.pending.dropLast } := by
    rw [pending, List.dropLast_concat, Input.line, Input.line, parts,
      List.take_append_of_le_length (by omega)]
    rfl
  refine ⟨⟨?_, ?_, ?_, fun full => ?_⟩, line, ?_⟩
  · change s.count ≤ s.ring.retract.distance
    omega
  · have bound := sound.bounded
    change s.ring.retract.distance ≤ INPUT_BUF
    omega
  · rw [line]
    exact fun c member => sound.plain c (List.mem_of_mem_dropLast member)
  · have bound := sound.bounded
    change s.ring.retract.distance = INPUT_BUF at full
    omega
  · rw [pending, List.dropLast_concat]

theorem killLoop_line (rounds : Nat) (enough : s.line.pending.length ≤ rounds) :
    Sound (killLoop rounds s) ∧ (killLoop rounds s).line = { s.line with pending := [] } := by
  induction rounds generalizing s with
  | zero =>
    have none : s.line.pending = [] := List.length_eq_zero_iff.mp (by omega)
    refine ⟨sound, ?_⟩
    rw [killLoop, ← none]
  | succ rounds ih =>
    rw [killLoop]
    by_cases more : s.e = s.w
    · have none : s.line.pending = [] := by
        rw [← List.length_eq_zero_iff, length_pending, e_eq_w.mp more, Nat.sub_self]
      rw [if_neg (by simp [more]), ← none]
      exact ⟨sound, rfl⟩
    · obtain ⟨sound', line, parts⟩ := retract_line sound more
      have member : s.ring.last ∈ s.line.pending := by
        rw [parts]
        simp
      rw [if_pos ⟨more, (sound.plain _ member).1⟩]
      obtain ⟨ends, empty⟩ := ih sound' (by rw [line, List.length_dropLast]; omega)
      refine ⟨ends, ?_⟩
      rw [empty, line]

theorem backspace_line : Sound (backspace s) ∧
      (backspace s).line = { s.line with pending := s.line.pending.dropLast } := by
  unfold backspace
  split
  · rename_i more
    obtain ⟨sound', line, -⟩ := retract_line sound more
    exact ⟨sound', line⟩
  · rename_i same
    have none : s.line.pending = [] := by
      rw [← List.length_eq_zero_iff, length_pending, e_eq_w.mp (not_not.mp same), Nat.sub_self]
    refine ⟨sound, ?_⟩
    rw [none, List.dropLast_nil, ← none]

theorem push_line (room : s.ring.distance < INPUT_BUF) (c : Byte) :
    (s.ring.push c).distance = s.ring.distance + 1 ∧
      ({ s with ring := s.ring.push c } : Input).line =
        { s.line with pending := s.line.pending ++ [c] } ∧
      (⟨s.ring.push c, (s.ring.push c).nwrite⟩ : Input).line =
        ⟨s.line.committed ++ s.line.pending ++ [c], []⟩ := by
  have distance := Ring.push_distance fits room c
  have contents := Ring.push_contents fits divides room c
  have length := Ring.length_contents s.ring
  have ordered := sound.ordered
  have count : ({ s with ring := s.ring.push c } : Input).count = s.count := rfl
  have all : (⟨s.ring.push c, (s.ring.push c).nwrite⟩ : Input).count =
      s.ring.contents.length + 1 := by
    rw [length, ← distance]
    rfl
  refine ⟨distance, ?_, ?_⟩
  · rw [Input.line, Input.line, count, contents, List.take_append_of_le_length (by omega),
      List.drop_append_of_le_length (by omega)]
  · rw [Input.line, Input.line, all, contents]
    simp only [List.take_append_drop]
    rw [List.take_of_length_le (by simp), List.drop_of_length_le (by simp)]

theorem store_line (c : Byte) (special : c ≠ C 'P' ∧ c ≠ C 'U' ∧ ¬(c = C 'H' ∨ c = delete)) :
    Sound (store s c).1 ∧ (store s c).1.line = s.line.type c := by
  have committed := length_committed sound
  have pending := length_pending s
  have ordered := sound.ordered
  have lengths : s.line.committed.length + s.line.pending.length = s.ring.distance := by omega
  rw [Line.type, if_neg special.1, if_neg special.2.1, if_neg special.2.2, lengths, store]
  by_cases accepts : c ≠ 0 ∧ s.ring.distance < INPUT_BUF
  · rw [if_pos accepts, if_pos (show c ≠ 0 ∧ (s.e - s.r).toNat < INPUT_BUF from accepts)]
    generalize (if c = carriageReturn then newline else c) = b
    obtain ⟨distance, edited, committed⟩ := push_line sound accepts.2 b
    have full : (s.ring.push b).isFull = true ↔ s.ring.distance + 1 = INPUT_BUF := by
      rw [Ring.isFull_iff fits, distance]
    by_cases commits : b = newline ∨ b = C 'D' ∨ s.ring.distance + 1 = INPUT_BUF
    · rw [if_pos commits, if_pos (commits.imp id (Or.imp id full.mpr))]
      refine ⟨⟨Nat.le_refl _, ?_, ?_, fun _ => rfl⟩, committed⟩
      · change (s.ring.push b).distance ≤ INPUT_BUF
        omega
      · rw [committed]
        exact nofun
    · rw [if_neg commits, if_neg fun ends => commits (ends.imp id (Or.imp id full.mp))]
      simp only [not_or] at commits
      refine ⟨⟨?_, ?_, ?_, fun all => ?_⟩, edited⟩
      · change s.count ≤ (s.ring.push b).distance
        omega
      · change (s.ring.push b).distance ≤ INPUT_BUF
        omega
      · rw [edited]
        intro x member
        rcases List.mem_append.mp member with before | last
        · exact sound.plain x before
        · rw [List.mem_singleton.mp last]
          exact ⟨commits.1, commits.2.1⟩
      · change (s.ring.push b).distance = INPUT_BUF at all
        omega
  · rw [if_neg accepts, if_neg (show ¬(c ≠ 0 ∧ (s.e - s.r).toNat < INPUT_BUF) from accepts)]
    exact ⟨sound, rfl⟩

theorem handle_line (c : Byte) : Sound (handle s c).1 ∧ (handle s c).1.line = s.line.type c := by
  unfold handle
  by_cases listing : c = C 'P'
  · rw [if_pos listing, Line.type, if_pos listing]
    exact ⟨sound, rfl⟩
  rw [if_neg listing]
  by_cases kill : c = C 'U'
  · rw [if_pos kill, Line.type, if_neg listing, if_pos kill]
    have span : s.e - s.w = s.e - s.r - (s.w - s.r) := by ring
    refine killLoop_line sound _ ?_
    rw [length_pending, span, BitVec.toNat_sub_of_le (BitVec.le_def.mpr sound.ordered)]
    exact Nat.le_refl _
  rw [if_neg kill]
  by_cases erase : c = C 'H' ∨ c = delete
  · rw [if_pos erase, Line.type, if_neg listing, if_neg kill, if_pos erase]
    exact backspace_line sound
  · rw [if_neg erase]
    exact store_line sound c ⟨listing, kill, erase⟩

theorem consoleintr_line (cs : List Byte) :
    Sound (consoleintr s cs).1 ∧ (consoleintr s cs).1.line = cs.foldl Line.type s.line := by
  induction cs generalizing s with
  | nil => exact ⟨sound, rfl⟩
  | cons c rest ih =>
    obtain ⟨sound', line⟩ := handle_line sound c
    rw [List.foldl_cons, ← line]
    exact ih sound'

end

theorem type_committed (l : Line) (c : Byte) : l.committed <+: (l.type c).committed := by
  unfold Line.type
  split
  · exact List.prefix_rfl
  split
  · exact List.prefix_rfl
  split
  · exact List.prefix_rfl
  split
  · generalize (if c = carriageReturn then newline else c) = b
    dsimp only
    split
    · rw [List.append_assoc]
      exact List.prefix_append _ _
    · exact List.prefix_rfl
  · exact List.prefix_rfl

theorem types_committed (l : Line) (cs : List Byte) :
    l.committed <+: (cs.foldl Line.type l).committed := by
  induction cs generalizing l with
  | nil => exact List.prefix_rfl
  | cons c rest ih => exact (type_committed l c).trans (ih (l.type c))

/-! ## What a call reads -/

theorem pop_line (sound : Sound s) (more : s.r ≠ s.w) :
    Sound { s with ring := s.ring.pop } ∧
      s.line = { ({ s with ring := s.ring.pop } : Input).line with
        committed := s.ring.front :: ({ s with ring := s.ring.pop } : Input).line.committed } := by
  have some : s.count ≠ 0 := fun zero => more (r_eq_w.mpr zero)
  have ordered := sound.ordered
  have bounded := sound.bounded
  have one := Ring.pop_distance (r := s.ring) (by omega)
  have parts := Ring.contents_pop (r := s.ring) (by omega)
  have fewer : s.count = ({ s with ring := s.ring.pop } : Input).count + 1 := by
    have moved : s.w - (s.r + 1) = s.w - s.r - 1 := by ring
    simp only [Input.count, Ring.pop, moved]
    exact Ring.toNat_pred some
  have line : s.line = { ({ s with ring := s.ring.pop } : Input).line with
      committed := s.ring.front :: ({ s with ring := s.ring.pop } : Input).line.committed } := by
    simp only [Input.line]
    rw [fewer, parts, List.take_succ_cons, List.drop_succ_cons]
  refine ⟨⟨?_, ?_, ?_, fun full => ?_⟩, line⟩
  · change ({ s with ring := s.ring.pop } : Input).count ≤ s.ring.pop.distance
    omega
  · change s.ring.pop.distance ≤ INPUT_BUF
    omega
  · have plain := sound.plain
    rw [line] at plain
    exact plain
  · change s.ring.pop.distance = INPUT_BUF at full
    omega

/-- What a call that still wants `n` bytes takes until it returns or sleeps. -/
def Takes (killed : Bool) (target n : Nat) (bytes : List Byte) (ending : Ending)
    (took : List Byte) : Prop :=
  match ending with
  | .returns .full => Plain bytes ∧ bytes.length = n ∧ took = bytes
  | .returns .line => took = bytes ∧ bytes.length ≤ n ∧
      ∃ front, Plain front ∧ bytes = front ++ [newline]
  | .returns .eof => Plain bytes ∧ bytes.length < n ∧
      took = bytes ++ if n - bytes.length < target then [] else [C 'D']
  | .killed => killed = true
  | .sleeps m => Plain bytes ∧ 0 < m ∧ bytes.length + m = n ∧ took = bytes

theorem Plain.cons (first : c ≠ newline ∧ c ≠ C 'D') (rest : Plain bytes) : Plain (c :: bytes) :=
  List.forall_mem_cons.mpr ⟨first, rest⟩

theorem Takes.cons (takes : Takes killed target n bytes ending took)
    (first : c ≠ newline ∧ c ≠ C 'D') :
    Takes killed target (n + 1) (c :: bytes) ending (c :: took) := by
  match ending, takes with
  | .returns .full, ⟨plain, length, same⟩ =>
    exact ⟨plain.cons first, congrArg (· + 1) length, congrArg (c :: ·) same⟩
  | .returns .line, ⟨same, length, front, plain, parts⟩ =>
    exact ⟨congrArg (c :: ·) same, Nat.succ_le_succ length, c :: front, plain.cons first,
      congrArg (c :: ·) parts⟩
  | .returns .eof, ⟨plain, length, same⟩ =>
    refine ⟨plain.cons first, Nat.succ_lt_succ length, ?_⟩
    rw [same, List.length_cons, Nat.add_sub_add_right]
    rfl
  | .killed, struck => exact struck
  | .sleeps m, ⟨plain, positive, length, same⟩ =>
    refine ⟨plain.cons first, positive, ?_, congrArg (c :: ·) same⟩
    rw [List.length_cons]
    omega

theorem readLoop_takes (sound : Sound s) (killed : Bool) (target n : Nat) :
    ∃ s' bytes ending took, readLoop killed target n s = (s', bytes, ending) ∧ Sound s' ∧
      s'.line.pending = s.line.pending ∧ s.line.committed = took ++ s'.line.committed ∧
      Takes killed target n bytes ending took := by
  induction n generalizing s with
  | zero => exact ⟨s, [], _, [], rfl, sound, rfl, rfl, nofun, rfl, rfl⟩
  | succ n ih =>
    rw [readLoop]
    by_cases empty : s.r = s.w
    · rw [if_pos empty]
      refine ⟨s, [], _, [], rfl, sound, rfl, rfl, ?_⟩
      cases killed with
      | true => exact rfl
      | false => exact ⟨nofun, Nat.succ_pos n, Nat.zero_add _, rfl⟩
    · rw [if_neg empty]
      obtain ⟨sound', line⟩ := pop_line sound empty
      by_cases eof : s.ring.front = C 'D'
      · rw [if_pos eof]
        by_cases saved : n + 1 < target
        · rw [if_pos saved]
          have back : ({ s with ring := { s.ring.pop with nread := s.ring.pop.nread - 1 } } :
              Input) = s := by
            simp [Ring.pop]
          exact ⟨_, [], _, [], rfl, by rwa [back], by rw [back], by rw [back]; rfl, nofun,
            Nat.succ_pos n, by simp [saved]⟩
        · rw [if_neg saved]
          refine ⟨_, [], _, [C 'D'], rfl, sound', by rw [line], ?_, nofun, Nat.succ_pos n,
            by simp [saved]⟩
          rw [line, eof]
          rfl
      · rw [if_neg eof]
        by_cases ends : s.ring.front = newline
        · rw [if_pos ends]
          refine ⟨_, [s.ring.front], _, [s.ring.front], rfl, sound', by rw [line], ?_, rfl,
            Nat.succ_le_succ (Nat.zero_le n), [], nofun, by rw [ends]; rfl⟩
          rw [line]
          rfl
        · rw [if_neg ends]
          obtain ⟨s', bytes, ending, took, ran, kept, pending, committed, takes⟩ := ih sound'
          refine ⟨s', s.ring.front :: bytes, ending, s.ring.front :: took, ?_, kept, ?_, ?_,
            takes.cons ⟨ends, eof⟩⟩
          · rw [ran]
          · rw [pending, line]
          · rw [line]
            exact congrArg (s.ring.front :: ·) committed

end

/-! ## The stream -/

/-- A call that has returned: what it asked for, what it got and why it returned. -/
structure Finished where
  target : Nat
  bytes : List Byte
  why : Stop
  deriving DecidableEq

/-- What a call has taken out of the buffer. -/
def Finished.consumed (f : Finished) : List Byte :=
  if f.why = .eof ∧ f.bytes = [] then [C 'D'] else f.bytes

/-- The end of a line is the last byte of a read if it is in it at all, there is no
end-of-file character in it, and it is shorter than was asked for only at one of the two. -/
structure Finished.Ends (f : Finished) : Prop where
  length : f.bytes.length ≤ f.target
  plain : Plain f.bytes.dropLast
  file : C 'D' ∉ f.bytes
  full : f.why = .full → Plain f.bytes ∧ f.bytes.length = f.target
  line : f.why = .line → f.bytes.getLast? = some newline
  eof : f.why = .eof → Plain f.bytes ∧ f.bytes.length < f.target

/-- The bytes committed so far, who has taken which of them, and the calls that have returned. -/
structure Transcript (P : Type) where
  committed : List Byte := []
  taken : List (P × Byte) := []
  reads : List (P × Finished) := []
  deriving DecidableEq

section
variable [DecidableEq P]

def noteRead (s : State P) (p : P) (call : Call) (t : Transcript P) : Transcript P :=
  let (input, bytes, ending) := readLoop (s.reader p).killed call.target call.n s.input
  let took := s.input.line.committed.take
    (s.input.line.committed.length - input.line.committed.length)
  { t with
    taken := t.taken ++ took.map fun c => (p, c)
    reads := match ending with
      | .returns why => t.reads ++ [(p, ⟨call.target, call.bytes ++ bytes, why⟩)]
      | .killed | .sleeps _ => t.reads }

def record (s : State P) (e : Event P) (after : State P) (t : Transcript P) : Transcript P :=
  match turn s e with
  | some (p, call) => noteRead s p call t
  | none => { t with
      committed := t.committed ++
        after.input.line.committed.drop s.input.line.committed.length }

/-- No reader is killed. -/
def Spares (_ : State P × Transcript P) : Event P → Prop
  | .kill _ => False
  | .intr _ | .read _ _ | .resume _ => True

instance : Decidable (Spares (P := P) s e) :=
  match e with
  | .kill _ => isFalse id
  | .intr _ | .read _ _ | .resume _ => isTrue trivial

end

def recorded (P : Type) [DecidableEq P] : System (State P × Transcript P) (Event P) :=
  (system P).watch (fun _ => {}) record

section
variable [DecidableEq P]

instance : Decidable ((recorded P).Enabled s e) := inferInstanceAs (Decidable (Enabled s.1 e))

/-- What a reader has taken for calls that have returned and for the one it is in. -/
def owned (s : State P) (t : Transcript P) (p : P) : List Byte :=
  (t.reads.filter (·.1 = p)).flatMap (fun x => x.2.consumed) ++
    ((s.reader p).call.map Call.bytes).getD []

structure Kept (s : State P) (t : Transcript P) : Prop where
  sound : Sound s.input
  stream : t.committed = t.taken.map Prod.snd ++ s.input.line.committed
  spared : ∀ p, (s.reader p).killed = false
  calls : ∀ p call, (s.reader p).call = some call →
    0 < call.n ∧ call.bytes.length + call.n = call.target ∧ Plain call.bytes
  reads : ∀ x ∈ t.reads, x.2.Ends
  own : ∀ p, (t.taken.filter (·.1 = p)).map Prod.snd = owned s t p
  eofs : t.taken.countP (·.2 = C 'D') =
    t.reads.countP fun x => x.2.bytes = [] ∧ 0 < x.2.target

theorem plain_eof (plain : Plain bytes) : C 'D' ∉ bytes := fun member => (plain _ member).2 rfl

theorem Plain.append (first : Plain old) (second : Plain bytes) : Plain (old ++ bytes) :=
  List.forall_mem_append.mpr ⟨first, second⟩

theorem Takes.ends (takes : Takes killed target n bytes (.returns why) took) (plain : Plain old)
    (size : old.length + n = target) :
    (⟨target, old ++ bytes, why⟩ : Finished).Ends ∧
      old ++ took = (⟨target, old ++ bytes, why⟩ : Finished).consumed := by
  match why, takes with
  | .full, ⟨rest, length, same⟩ =>
    have whole := plain.append rest
    have all : (old ++ bytes).length = target := by
      rw [List.length_append]
      omega
    refine ⟨⟨Nat.le_of_eq all, fun c member => whole c (List.mem_of_mem_dropLast member),
      plain_eof whole, fun _ => ⟨whole, all⟩, nofun, nofun⟩, ?_⟩
    rw [same]
    rfl
  | .line, ⟨same, length, front, rest, parts⟩ =>
    subst parts
    have whole := plain.append rest
    have most : (old ++ (front ++ [newline])).length ≤ target := by
      rw [List.length_append]
      omega
    refine ⟨⟨most, ?_, ?_, nofun, fun _ => ?_, nofun⟩, ?_⟩
    · rw [← List.append_assoc, List.dropLast_concat]
      exact whole
    · rw [← List.append_assoc, List.mem_append, List.mem_singleton, not_or]
      exact ⟨plain_eof whole, by decide⟩
    · rw [← List.append_assoc, List.getLast?_concat]
    · rw [same]
      rfl
  | .eof, ⟨rest, length, same⟩ =>
    have whole := plain.append rest
    have short : (old ++ bytes).length < target := by
      rw [List.length_append]
      omega
    refine ⟨⟨Nat.le_of_lt short, fun c member => whole c (List.mem_of_mem_dropLast member),
      plain_eof whole, nofun, nofun, fun _ => ⟨whole, short⟩⟩, ?_⟩
    rw [same, ← List.append_assoc, Finished.consumed]
    by_cases none : old ++ bytes = []
    · have first : ¬n - bytes.length < target := by
        have zero := congrArg List.length none
        rw [List.length_append, List.length_nil] at zero
        omega
      rw [if_neg first, if_pos ⟨rfl, none⟩, none]
      rfl
    · have later : n - bytes.length < target := by
        have some := List.length_pos_iff.mpr none
        rw [List.length_append] at some
        omega
      rw [if_pos later, if_neg fun both => none both.2, List.append_nil]

theorem Finished.Ends.count {f : Finished} (ends : f.Ends) (plain : Plain old)
    (parts : old ++ took = f.consumed) :
    took.countP (· = C 'D') = if f.bytes = [] ∧ 0 < f.target then 1 else 0 := by
  by_cases eof : f.why = .eof ∧ f.bytes = []
  · have positive := (ends.eof eof.1).2
    rw [eof.2, List.length_nil] at positive
    rw [Finished.consumed, if_pos eof] at parts
    rw [if_pos ⟨eof.2, positive⟩]
    cases old with
    | nil =>
      rw [List.nil_append] at parts
      rw [parts]
      rfl
    | cons c rest =>
      have first : c = C 'D' := (List.cons.inj parts).1
      exact absurd first (plain c List.mem_cons_self).2
  · rw [Finished.consumed, if_neg eof] at parts
    have absent : C 'D' ∉ took := fun member =>
      ends.file (by rw [← parts]; exact List.mem_append_right _ member)
    have none : ¬(f.bytes = [] ∧ 0 < f.target) := by
      rintro ⟨empty, positive⟩
      cases why : f.why with
      | full =>
        have length := (ends.full why).2
        rw [empty, List.length_nil] at length
        omega
      | line =>
        have last := ends.line why
        rw [empty] at last
        cases last
      | eof => exact eof ⟨why, empty⟩
    rw [if_neg none, List.countP_eq_zero]
    intro c member same
    exact absent (by rw [← of_decide_eq_true same]; exact member)

theorem taken_by (took : List Byte) (p q : P) :
    ((took.map fun c => (p, c)).filter (·.1 = q)).map Prod.snd = if p = q then took else [] := by
  by_cases same : p = q
  · subst same
    rw [if_pos rfl, List.filter_eq_self.mpr (by simp), List.map_map]
    exact List.map_id took
  · rw [if_neg same, List.filter_eq_nil_iff.mpr (by simp [same]), List.map_nil]

omit [DecidableEq P] in
theorem countP_taken (took : List Byte) (p : P) :
    (took.map fun c => (p, c)).countP (·.2 = C 'D') = took.countP (· = C 'D') := by
  rw [List.countP_map]
  rfl

section
variable {s : State P} {t : Transcript P}

theorem Kept.takes {r : Reader} (done : List (P × Finished)) (kept : Kept s t)
    (sound : Sound input) (committed : s.input.line.committed = took ++ input.line.committed)
    (spared : r.killed = false)
    (calls : ∀ call, r.call = some call →
      0 < call.n ∧ call.bytes.length + call.n = call.target ∧ Plain call.bytes)
    (ends : ∀ x ∈ done, x.1 = p ∧ x.2.Ends)
    (own : ((s.reader p).call.map Call.bytes).getD [] ++ took =
      done.flatMap (fun x => x.2.consumed) ++ (r.call.map Call.bytes).getD [])
    (eofs : took.countP (· = C 'D') = done.countP fun x => x.2.bytes = [] ∧ 0 < x.2.target) :
    Kept ⟨input, update s.reader p r⟩
      { t with taken := t.taken ++ took.map (fun c => (p, c)), reads := t.reads ++ done } := by
  refine ⟨sound, ?_, ?_, ?_, fun x member => ?_, fun q => ?_, ?_⟩
  · simp only [kept.stream, committed, List.map_append, List.map_map, List.append_assoc]
    congr 2
    exact (List.map_id took).symm
  · exact (Function.forall_update_iff s.reader fun _ r => r.killed = false).mpr
      ⟨spared, fun q _ => kept.spared q⟩
  · exact (Function.forall_update_iff s.reader fun _ r => ∀ call, r.call = some call →
      0 < call.n ∧ call.bytes.length + call.n = call.target ∧ Plain call.bytes).mpr
        ⟨calls, fun q _ => kept.calls q⟩
  · rcases List.mem_append.mp member with earlier | now
    · exact kept.reads x earlier
    · exact (ends x now).2
  · have before := kept.own q
    rw [owned] at before
    simp only [owned]
    rw [List.filter_append, List.map_append, before, taken_by, List.filter_append,
      List.flatMap_append]
    by_cases here : q = p
    · subst here
      have all : done.filter (·.1 = q) = done :=
        List.filter_eq_self.mpr fun x member => decide_eq_true (ends x member).1
      rw [if_pos rfl, all, update_self, List.append_assoc, own, List.append_assoc]
    · have none : done.filter (·.1 = q) = [] := List.filter_eq_nil_iff.mpr fun x member same =>
        here ((of_decide_eq_true same).symm.trans (ends x member).1)
      rw [if_neg (Ne.symm here), none, update_of_ne here]
      simp
  · rw [List.countP_append, List.countP_append, countP_taken, kept.eofs, eofs]

theorem Kept.goOn (kept : Kept s t) (size : call.bytes.length + call.n = call.target)
    (plain : Plain call.bytes)
    (mine : ((s.reader p).call.map Call.bytes).getD [] = call.bytes) :
    Kept (goOn s p call) (noteRead s p call t) := by
  obtain ⟨input, bytes, ending, took, ran, sound, -, committed, takes⟩ :=
    readLoop_takes kept.sound (s.reader p).killed call.target call.n
  have noted : s.input.line.committed.take
      (s.input.line.committed.length - input.line.committed.length) = took := by
    rw [committed, List.length_append, Nat.add_sub_cancel, List.take_left]
  unfold Console.goOn noteRead
  rw [ran]
  dsimp only
  rw [noted]
  match ending, takes with
  | .killed, struck =>
    rw [kept.spared p] at struck
    cases struck
  | .sleeps m, ⟨rest, positive, length, same⟩ =>
    have none : took.countP (· = C 'D') = 0 := by
      rw [same, List.countP_eq_zero]
      exact fun c member eof => (rest c member).2 (of_decide_eq_true eof)
    have goes := kept.takes (p := p) [] sound committed
      (r := { s.reader p with
        call := some { call with n := m, bytes := call.bytes ++ bytes }, asleep := true })
      (kept.spared p)
      (fun call' found => by
        cases found
        refine ⟨positive, ?_, plain.append rest⟩
        simp only [List.length_append]
        omega)
      nofun (by rw [mine, same]; rfl) none
    rw [List.append_nil] at goes
    exact goes
  | .returns why, takes =>
    obtain ⟨ends, parts⟩ := takes.ends plain size
    refine kept.takes _ sound committed (kept.spared p) (fun _ none => nomatch none)
      (fun x member => ?_) ?_ ?_
    · rw [List.mem_singleton.mp member]
      exact ⟨rfl, ends⟩
    · rw [mine, parts]
      simp
    · rw [ends.count plain parts]
      simp [List.countP_cons]

theorem step_kept (kept : Kept s t) (enabled : Enabled s e) (spares : Spares (s, t) e) :
    Kept (perform s e) (record s e (perform s e) t) := by
  cases e with
  | intr cs =>
    obtain ⟨sound, line⟩ := consoleintr_line kept.sound cs
    have grows := types_committed s.input.line cs
    rw [← line] at grows
    obtain ⟨more, parts⟩ := grows
    have readers (q : P) : (((perform s (.intr cs)).reader q).call = (s.reader q).call) ∧
        (((perform s (.intr cs)).reader q).killed = (s.reader q).killed) := by
      simp only [perform]
      split <;> exact ⟨rfl, rfl⟩
    refine ⟨sound, ?_, fun q => ?_, fun q call found => ?_, kept.reads, fun q => ?_, kept.eofs⟩
    · change t.committed ++ (consoleintr s.input cs).1.line.committed.drop
        s.input.line.committed.length = t.taken.map Prod.snd ++
          (consoleintr s.input cs).1.line.committed
      rw [← parts, List.drop_left, kept.stream, List.append_assoc]
    · rw [(readers q).2]
      exact kept.spared q
    · rw [(readers q).1] at found
      exact kept.calls q call found
    · rw [owned, (readers q).1]
      exact kept.own q
  | read p n =>
    refine kept.goOn (Nat.zero_add n) nofun ?_
    rw [show (s.reader p).call = none from enabled]
    rfl
  | resume p =>
    obtain ⟨call, here⟩ := Option.ne_none_iff_exists'.mp enabled.1
    obtain ⟨-, size, plain⟩ := kept.calls p call here
    have goes := kept.goOn size plain (p := p) (by rw [here]; rfl)
    simp only [perform, record, turn, here, Option.map_some]
    exact goes
  | kill p => exact spares.elim

end

theorem start_kept : Kept (start P) {} := by
  have none : (start P).input.line = ⟨[], []⟩ := by
    simp [start, Input.line, Ring.contents, Ring.distance]
  have zero : (start P).input.ring.distance = 0 := by simp [start, Ring.distance]
  refine ⟨⟨Nat.le_refl _, ?_, ?_, fun _ => rfl⟩, ?_, fun _ => rfl, by simp [start], by simp,
    fun _ => rfl, rfl⟩
  · rw [zero]
    exact Nat.zero_le _
  · simp [none, Plain]
  · rw [none]
    rfl

theorem run_kept {s : State P × Transcript P} (run : (recorded P).Run Spares s) :
    Kept s.1 s.2 := by
  apply run.invariant
  · rintro s ⟨begins, nothing⟩
    rw [nothing, show s.1 = start P from begins]
    exact start_kept
  · intro s e after kept enabled spares ran
    obtain ⟨stepped, noted⟩ := System.watch_perform ran
    rw [noted, ← Except.ok.inj stepped]
    exact step_kept kept enabled spares

end

end Xv6.Console
