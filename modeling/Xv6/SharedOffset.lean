import Xv6.StepSystem
import Xv6.FileContents

/-! Processes that write to one regular file through one writable `struct file`.
`filewrite` cuts a write into chunks, each with a transaction and the inode's lock of
its own, and the processes run their chunks in any order. The offset is read and moved
under the lock, so the chunks are laid one behind the other in the order the lock was
taken, and the file has the bytes of every chunk where it was laid. -/
namespace Xv6.SharedOffset
open CheckedC StepSystem ByteStore DiskBlocks BlockOwnership FileContents Function

/-- `max` of `filewrite`. -/
abbrev chunkMax : Nat := (MAXOPBLOCKS - 1 - 1 - 2) / 2 * 512

variable {π : Type}

/-! ## Chunks -/

structure Chunk (π : Type) where
  proc : π
  start : Nat
  bytes : List UInt8

/-- A write as it is cut into chunks. -/
def pieces (src : List UInt8) : List (List UInt8) :=
  if src = [] then [] else src.take chunkMax :: pieces (src.drop chunkMax)
termination_by src.length
decreasing_by
  rename_i some
  have positive := List.length_pos_iff.mpr some
  have turn : 0 < chunkMax := by decide
  rw [List.length_drop]
  omega

@[simp] theorem pieces_nil : pieces [] = [] := by
  rw [pieces, if_pos rfl]

theorem pieces_of_ne_nil (some : src ≠ []) :
    pieces src = src.take chunkMax :: pieces (src.drop chunkMax) := by
  rw [pieces, if_neg some]

theorem flatten_pieces (src : List UInt8) : (pieces src).flatten = src := by
  induction src using pieces.induct with
  | case1 => simp
  | case2 src some ih => rw [pieces_of_ne_nil some, List.flatten_cons, ih, List.take_append_drop]

theorem pieces_short (some : src ≠ []) (short : src.length ≤ chunkMax) : pieces src = [src] := by
  rw [pieces_of_ne_nil some, List.take_of_length_le short, List.drop_of_length_le short, pieces_nil]

/-- The chunks lie one behind the other from `start` on. -/
def Laid (start : Nat) : List (Chunk π) → Prop
  | [] => True
  | c :: chunks => c.start = start ∧ Laid (start + c.bytes.length) chunks

theorem Laid.append (laid : Laid start chunks)
    (next : c.start = start + (chunks.flatMap Chunk.bytes).length) :
    Laid start (chunks ++ [c] : List (Chunk π)) := by
  induction chunks generalizing start with
  | nil => exact ⟨by simpa using next, trivial⟩
  | cons first chunks ih =>
    refine ⟨laid.1, ih laid.2 ?_⟩
    rw [next, List.flatMap_cons, List.length_append, Nat.add_assoc]

theorem Laid.pairwise {chunks : List (Chunk π)} (laid : Laid start chunks) :
    (∀ c ∈ chunks, start ≤ c.start) ∧
      chunks.Pairwise fun c c' => c.start + c.bytes.length ≤ c'.start := by
  induction chunks generalizing start with
  | nil => exact ⟨nofun, List.Pairwise.nil⟩
  | cons first chunks ih =>
    obtain ⟨here, rest⟩ := laid
    obtain ⟨above, pairwise⟩ := ih rest
    refine ⟨List.forall_mem_cons.mpr ⟨by omega, fun c member => ?_⟩,
      List.pairwise_cons.mpr ⟨fun c member => ?_, pairwise⟩⟩
    · have := above c member
      omega
    · have := above c member
      omega

/-! ## The calls -/

/-- Where a call of `filewrite` stands: at the test of its loop, after `begin_op`, after
`ilock`, after `writei` with its result, after the change of `f->off`, after `iunlock`. -/
inductive Stage where
  | atLoop
  | begun
  | locked
  | wrote (r : Int)
  | moved (r : Int)
  | unlocked (r : Int)
  deriving DecidableEq

structure Call where
  src : List UInt8
  i : Nat
  stage : Stage

/-- The `n1` bytes from `addr + i` on. -/
def Call.chunk (c : Call) : List UInt8 := (c.src.drop c.i).take chunkMax

/-- `off` is that of the `struct file`, `ip` the inode in memory. -/
structure File (π : Type) where
  disk : Disk
  ip : Dinode
  off : Nat
  lock : Option π
  call : π → Option Call

inductive Event (π : Type) where
  | filewrite (p : π) (src : List UInt8)
  | beginOp (p : π)
  | ilock (p : π)
  | writei (p : π)
  | advance (p : π)
  | iunlock (p : π)
  | endOp (p : π)
  | done (p : π)

variable [DecidableEq π]

def File.setCall (s : File π) (p : π) (c : Option Call) : File π :=
  { s with call := update s.call p c }

def writeChunk (sb : Superblock) (inum : Nat) (s : File π) (p : π) (c : Call) :
    Checked (File π) := do
  let (r, d, ip) ← writei sb s.disk inum s.ip s.off c.chunk
  return { s with disk := d, ip := ip }.setCall p (some { c with stage := .wrote r })

/-- `if(r < 0) break; if(r != n1) panic("short filewrite"); i += r;`. -/
def endChunk (s : File π) (p : π) (c : Call) (r : Int) : Checked (File π) :=
  if r < 0 then .ok (s.setCall p none)
  else if r ≠ c.chunk.length then .error (.panic "short filewrite")
  else .ok (s.setCall p (some { c with i := c.i + r.toNat, stage := .atLoop }))

/-- A step a process is not at is blocked. -/
def perform (sb : Superblock) (inum : Nat) (s : File π) : Event π → Checked (File π)
  | .filewrite p src =>
    match s.call p with
    | none =>
      if src.length < 2 ^ 31 then .ok (s.setCall p (some ⟨src, 0, .atLoop⟩)) else .error .blocked
    | some _ => .error .blocked
  | .beginOp p =>
    match s.call p with
    | some ⟨src, i, .atLoop⟩ =>
      if i < src.length then .ok (s.setCall p (some ⟨src, i, .begun⟩)) else .error .blocked
    | _ => .error .blocked
  | .ilock p =>
    match s.call p, s.lock with
    | some ⟨src, i, .begun⟩, none =>
      .ok ({ s with lock := some p }.setCall p (some ⟨src, i, .locked⟩))
    | _, _ => .error .blocked
  | .writei p =>
    match s.call p with
    | some ⟨src, i, .locked⟩ => writeChunk sb inum s p ⟨src, i, .locked⟩
    | _ => .error .blocked
  | .advance p =>
    match s.call p with
    | some ⟨src, i, .wrote r⟩ =>
      .ok ({ s with off := if 0 < r then (s.off + r.toNat) % 2 ^ 32 else s.off }.setCall p
        (some ⟨src, i, .moved r⟩))
    | _ => .error .blocked
  | .iunlock p =>
    match s.call p with
    | some ⟨src, i, .moved r⟩ =>
      .ok ({ s with lock := none }.setCall p (some ⟨src, i, .unlocked r⟩))
    | _ => .error .blocked
  | .endOp p =>
    match s.call p with
    | some ⟨src, i, .unlocked r⟩ => endChunk s p ⟨src, i, .unlocked r⟩ r
    | _ => .error .blocked
  | .done p =>
    match s.call p with
    | some ⟨src, i, .atLoop⟩ =>
      if i < src.length then .error .blocked else .ok (s.setCall p none)
    | _ => .error .blocked

def result (sb : Superblock) (inum : Nat) (s : File π) (p : π) : Option Int :=
  (s.call p).bind fun c =>
    match writei sb s.disk inum s.ip s.off c.chunk with
    | .ok (r, _) => some r
    | .error _ => none

/-- No call of `writei` fails. -/
def NoFailure (sb : Superblock) (inum : Nat) (s : File π) : Event π → Prop
  | .writei p => result sb inum s p ≠ some (-1)
  | _ => True

instance {sb : Superblock} {s : File π} (e : Event π) : Decidable (NoFailure sb inum s e) := by
  unfold NoFailure
  split <;> infer_instance

/-! ## What is recorded -/

/-- The file and the offset before the run, the processes that took the lock, the chunks
written and the calls of each process, in order. -/
structure Record (π : Type) where
  start : Nat
  before : Bytes
  locks : List π := []
  chunks : List (Chunk π) := []
  calls : π → List (List UInt8) := fun _ => []

def Record.bytes (g : Record π) : List UInt8 := g.chunks.flatMap Chunk.bytes

def Record.own (g : Record π) (p : π) : List (List UInt8) :=
  (g.chunks.filter fun c => decide (c.proc = p)).map Chunk.bytes

def note (s : File π) (e : Event π) (_ : File π) (g : Record π) : Record π :=
  match e with
  | .filewrite p src => { g with calls := update g.calls p (g.calls p ++ [src]) }
  | .ilock p => { g with locks := g.locks ++ [p] }
  | .writei p =>
    match s.call p with
    | some c => { g with chunks := g.chunks ++ [⟨p, s.off, c.chunk⟩] }
    | none => g
  | _ => g

/-- Before the run no process is in `filewrite`, the file is a regular one, and on its
disk every block has one owner; `table` has the other inodes. -/
def system (sb : Superblock) (table : Nat → Dinode) (inum : Nat) : System (File π) (Event π) where
  Init s := (∀ p, s.call p = none) ∧ s.lock = none ∧ s.ip.type = T_FILE ∧ s.off < 2 ^ 32 ∧
    Owned sb s.disk (update table inum s.ip)
  Enabled _ _ := True
  perform := perform sb inum

def recorded (sb : Superblock) (table : Nat → Dinode) (inum : Nat) :
    System (File π × Record π) (Event π) :=
  (system sb table inum).watch
    (fun s => { start := s.off, before := contents s.disk.block s.ip }) note

/-! ## The invariant -/

/-- Where the offset stands while the lock is free or held. -/
inductive Position (s : File π) (g : Record π) : Prop
  | free (unlocked : s.lock = none) (offset : s.off = g.start + g.bytes.length)
      (locks : g.locks = g.chunks.map Chunk.proc)
  | locked (holds : s.lock = some p) (call : s.call p = some ⟨src, i, .locked⟩)
      (offset : s.off = g.start + g.bytes.length) (locks : g.locks = g.chunks.map Chunk.proc ++ [p])
  | wrote (holds : s.lock = some p) (call : s.call p = some ⟨src, i, .wrote r⟩)
      (fits : s.off + r.toNat ≤ MAXFILE * BSIZE)
      (offset : s.off + r.toNat = g.start + g.bytes.length)
      (locks : g.locks = g.chunks.map Chunk.proc)
  | moved (holds : s.lock = some p) (call : s.call p = some ⟨src, i, .moved r⟩)
      (offset : s.off = g.start + g.bytes.length) (locks : g.locks = g.chunks.map Chunk.proc)

/-- The stages under the lock. -/
def Stage.Holds : Stage → Prop
  | .locked | .wrote _ | .moved _ => True
  | _ => False

def Call.rest (c : Call) : List UInt8 :=
  match c.stage with
  | .atLoop | .begun | .locked => c.src.drop c.i
  | .wrote r | .moved r | .unlocked r => c.src.drop (c.i + r.toNat)

def Call.Whole (c : Call) : Prop :=
  match c.stage with
  | .atLoop => True
  | .begun | .locked => c.i < c.src.length
  | .wrote r | .moved r | .unlocked r => r = c.chunk.length

def restOf : Option Call → List UInt8
  | some c => c.rest
  | none => []

/-- What is known of the calls: whoever is at a stage under the lock has it, chunks are
written whole, and the chunks written and those to come are the pieces of the writes. -/
structure Calls (lock : Option π) (call : π → Option Call) (g : Record π) : Prop where
  holders : ∀ p c, call p = some c → c.stage.Holds → lock = some p
  whole : ∀ p c, call p = some c → c.Whole
  short : ∀ p c, call p = some c → c.src.length < 2 ^ 31
  own : ∀ p, g.own p ++ pieces (restOf (call p)) = (g.calls p).flatMap pieces

structure Inv (sb : Superblock) (table : Nat → Dinode) (inum : Nat) (s : File π) (g : Record π) :
    Prop where
  file : s.ip.type = T_FILE
  offset : s.off < 2 ^ 32
  owned : Owned sb s.disk (update table inum s.ip)
  contents : contents s.disk.block s.ip = put g.before g.start g.bytes
  laid : Laid g.start g.chunks
  position : Position s g
  calls : Calls s.lock s.call g

variable {sb : Superblock} {table : Nat → Dinode} {inum : Nat} {s after : File π} {g : Record π}

theorem Calls.set {g' : Record π} (calls : Calls lock call g)
    (at_next : ∀ c, next = some c →
      (c.stage.Holds → lock' = some p) ∧ c.Whole ∧ c.src.length < 2 ^ 31)
    (others : ∀ q c, q ≠ p → call q = some c → c.stage.Holds → lock' = some q)
    (own : g'.own p ++ pieces (restOf next) = (g'.calls p).flatMap pieces)
    (same : ∀ q, q ≠ p → g'.own q = g.own q ∧ g'.calls q = g.calls q) :
    Calls lock' (update call p next) g' := by
  refine ⟨fun q c found => ?_, fun q c found => ?_, fun q c found => ?_, fun q => ?_⟩
  · by_cases here : q = p
    · subst here
      rw [update_self] at found
      exact (at_next c found).1
    · rw [update_of_ne here] at found
      exact others q c here found
  · by_cases here : q = p
    · subst here
      rw [update_self] at found
      exact (at_next c found).2.1
    · rw [update_of_ne here] at found
      exact calls.whole q c found
  · by_cases here : q = p
    · subst here
      rw [update_self] at found
      exact (at_next c found).2.2
    · rw [update_of_ne here] at found
      exact calls.short q c found
  · by_cases here : q = p
    · subst here
      rwa [update_self]
    · rw [update_of_ne here, (same q here).1, (same q here).2]
      exact calls.own q

omit [DecidableEq π] in
theorem Position.not_holder (position : Position s g)
    (outside : ∀ c, s.call p = some c → ¬c.stage.Holds) : s.lock ≠ some p := by
  intro holds
  cases position with
  | free unlocked => rw [unlocked] at holds; cases holds
  | locked held call =>
    obtain rfl := Option.some.inj (held.symm.trans holds)
    exact outside _ call trivial
  | wrote held call =>
    obtain rfl := Option.some.inj (held.symm.trans holds)
    exact outside _ call trivial
  | moved held call =>
    obtain rfl := Option.some.inj (held.symm.trans holds)
    exact outside _ call trivial

theorem Position.setCall {g' : Record π} (position : Position s g) (other : s.lock ≠ some p)
    (start : g'.start = g.start) (chunks : g'.chunks = g.chunks) (locks : g'.locks = g.locks) :
    Position (s.setCall p next) g' := by
  have bytes : g'.bytes = g.bytes := by rw [Record.bytes, Record.bytes, chunks]
  have apart {q} (holds : s.lock = some q) : q ≠ p := fun same => other (by rw [holds, same])
  cases position with
  | free unlocked offset order =>
    exact .free unlocked (by rw [start, bytes]; exact offset) (by rw [locks, chunks, order])
  | locked holds call offset order =>
    exact .locked holds ((update_of_ne (apart holds) _ _).trans call)
      (by rw [start, bytes]; exact offset) (by rw [locks, chunks, order])
  | wrote holds call fits offset order =>
    exact .wrote holds ((update_of_ne (apart holds) _ _).trans call) fits
      (by rw [start, bytes]; exact offset) (by rw [locks, chunks, order])
  | moved holds call offset order =>
    exact .moved holds ((update_of_ne (apart holds) _ _).trans call)
      (by rw [start, bytes]; exact offset) (by rw [locks, chunks, order])

theorem Inv.setCall (inv : Inv sb table inum s g) (writes : List (List UInt8))
    (outside : ∀ c, s.call p = some c → ¬c.stage.Holds)
    (at_next : ∀ c, next = some c → ¬c.stage.Holds ∧ c.Whole ∧ c.src.length < 2 ^ 31)
    (own : g.own p ++ pieces (restOf next) = writes.flatMap pieces) :
    Inv sb table inum (s.setCall p next)
      { g with calls := update g.calls p writes } := by
  refine ⟨inv.file, inv.offset, inv.owned, inv.contents, inv.laid,
    inv.position.setCall (inv.position.not_holder outside) rfl rfl rfl, ?_⟩
  refine inv.calls.set (fun c found => ?_) (fun q c _ => inv.calls.holders q c) ?_
    fun q other => ⟨rfl, update_of_ne other _ _⟩
  · obtain ⟨free, whole, short⟩ := at_next c found
    exact ⟨fun holds => absurd holds free, whole, short⟩
  · dsimp only
    rw [update_self]
    exact own

theorem Inv.moveCall (inv : Inv sb table inum s g) (call : s.call p = some c)
    (outside : ¬c.stage.Holds)
    (at_next : ∀ c', next = some c' → ¬c'.stage.Holds ∧ c'.Whole ∧ c'.src.length < 2 ^ 31)
    (rest : restOf next = c.rest) : Inv sb table inum (s.setCall p next) g := by
  have moved := inv.setCall (p := p) (g.calls p)
    (fun c' found => by cases call.symm.trans found; exact outside) at_next
    (by rw [rest, ← inv.calls.own p, call]; rfl)
  rwa [update_eq_self] at moved

omit [DecidableEq π] in
theorem Position.of_unlocked (position : Position s g) (unlocked : s.lock = none) :
    s.off = g.start + g.bytes.length ∧ g.locks = g.chunks.map Chunk.proc := by
  cases position with
  | free _ offset locks => exact ⟨offset, locks⟩
  | locked holds => rw [unlocked] at holds; cases holds
  | wrote holds => rw [unlocked] at holds; cases holds
  | moved holds => rw [unlocked] at holds; cases holds

/-- What a stage of the process with the lock says about the offset and the record. -/
def Stage.Says (s : File π) (g : Record π) (p : π) : Stage → Prop
  | .locked => s.off = g.start + g.bytes.length ∧ g.locks = g.chunks.map Chunk.proc ++ [p]
  | .wrote r => s.off + r.toNat ≤ MAXFILE * BSIZE ∧ s.off + r.toNat = g.start + g.bytes.length ∧
      g.locks = g.chunks.map Chunk.proc
  | .moved _ => s.off = g.start + g.bytes.length ∧ g.locks = g.chunks.map Chunk.proc
  | _ => False

omit [DecidableEq π] in
theorem Position.of_holder (position : Position s g) (holds : s.lock = some p)
    (call : s.call p = some c) : c.stage.Says s g p := by
  cases position with
  | free unlocked => rw [unlocked] at holds; cases holds
  | locked held call' offset locks =>
    cases held.symm.trans holds
    cases call'.symm.trans call
    exact ⟨offset, locks⟩
  | wrote held call' fits offset locks =>
    cases held.symm.trans holds
    cases call'.symm.trans call
    exact ⟨fits, offset, locks⟩
  | moved held call' offset locks =>
    cases held.symm.trans holds
    cases call'.symm.trans call
    exact ⟨offset, locks⟩

/-! ## Steps -/

section
variable (inv : Inv sb table inum s g)
include inv

theorem filewrite_inv (call : s.call p = none) (short : src.length < 2 ^ 31) :
    Inv sb table inum (s.setCall p (some ⟨src, 0, .atLoop⟩))
      { g with calls := update g.calls p (g.calls p ++ [src]) } := by
  refine inv.setCall (g.calls p ++ [src]) (fun c found => ?_) (fun c found => ?_) ?_
  · rw [call] at found
    cases found
  · cases found
    exact ⟨id, trivial, short⟩
  · have own := inv.calls.own p
    rw [call] at own
    simp only [restOf, pieces_nil, List.append_nil] at own
    rw [own, List.flatMap_append]
    simp [restOf, Call.rest]

theorem beginOp_inv (call : s.call p = some ⟨src, i, .atLoop⟩)
    (more : i < src.length) : Inv sb table inum (s.setCall p (some ⟨src, i, .begun⟩)) g := by
  have short := inv.calls.short p _ call
  refine inv.moveCall call id (fun c found => ?_) rfl
  cases found
  exact ⟨id, more, short⟩

theorem endOp_inv (call : s.call p = some ⟨src, i, .unlocked r⟩)
    (ran : endChunk s p ⟨src, i, .unlocked r⟩ r = .ok after) : Inv sb table inum after g := by
  have whole : r = (Call.chunk ⟨src, i, .unlocked r⟩).length := inv.calls.whole p _ call
  have short := inv.calls.short p _ call
  unfold endChunk at ran
  rw [if_neg (by omega), if_neg (by simpa using whole)] at ran
  cases ran
  refine inv.moveCall call id (fun c found => ?_) rfl
  cases found
  exact ⟨id, trivial, short⟩

theorem done_inv (call : s.call p = some ⟨src, i, .atLoop⟩)
    (ended : ¬i < src.length) : Inv sb table inum (s.setCall p none) g := by
  refine inv.moveCall call id nofun ?_
  rw [restOf, Call.rest, List.drop_of_length_le (Nat.le_of_not_lt ended)]

theorem ilock_inv (call : s.call p = some ⟨src, i, .begun⟩) (unlocked : s.lock = none) :
    Inv sb table inum ({ s with lock := some p }.setCall p (some ⟨src, i, .locked⟩))
      { g with locks := g.locks ++ [p] } := by
  have more : i < src.length := inv.calls.whole p _ call
  have short := inv.calls.short p _ call
  have position := inv.position.of_unlocked unlocked
  refine ⟨inv.file, inv.offset, inv.owned, inv.contents, inv.laid,
    .locked rfl (update_self _ _ _) position.1 (by rw [← position.2]), ?_⟩
  refine inv.calls.set (fun c found => ?_) (fun q c _ found holds => ?_) ?_
    fun q _ => ⟨rfl, rfl⟩
  · cases found
    exact ⟨fun _ => rfl, more, short⟩
  · have held := inv.calls.holders q c found holds
    rw [unlocked] at held
    cases held
  · have own := inv.calls.own p
    rw [call] at own
    exact own

theorem Inv.calls_moveLocked (call : s.call p = some c)
    (holds : c.stage.Holds) (whole : c'.Whole) (src : c'.src = c.src) (rest : c'.rest = c.rest) :
    Calls s.lock (update s.call p (some c')) g := by
  refine inv.calls.set (fun d found => ?_) (fun q d _ => inv.calls.holders q d) ?_
    fun q _ => ⟨rfl, rfl⟩
  · cases found
    exact ⟨fun _ => inv.calls.holders p c call holds, whole, src ▸ inv.calls.short p c call⟩
  · have own := inv.calls.own p
    rw [call] at own
    rw [restOf, rest]
    exact own

theorem advance_inv (call : s.call p = some ⟨src, i, .wrote r⟩) :
    Inv sb table inum ({ s with off := if 0 < r then (s.off + r.toNat) % 2 ^ 32 else s.off }.setCall p
      (some ⟨src, i, .moved r⟩)) g := by
  have holds := inv.calls.holders p _ call trivial
  have whole : r = (Call.chunk ⟨src, i, .wrote r⟩).length := inv.calls.whole p _ call
  obtain ⟨fits, offset, locks⟩ := inv.position.of_holder holds call
  have bound : MAXFILE * BSIZE < 2 ^ 32 := by decide
  have next : (if 0 < r then (s.off + r.toNat) % 2 ^ 32 else s.off) = s.off + r.toNat := by
    split
    · exact Nat.mod_eq_of_lt (by omega)
    · omega
  refine ⟨inv.file, ?_, inv.owned, inv.contents, inv.laid,
    .moved holds (update_self _ _ _) (next.trans offset) locks,
    inv.calls_moveLocked call trivial whole rfl rfl⟩
  dsimp only [File.setCall]
  omega

theorem iunlock_inv (call : s.call p = some ⟨src, i, .moved r⟩) :
    Inv sb table inum ({ s with lock := none }.setCall p (some ⟨src, i, .unlocked r⟩)) g := by
  have holds := inv.calls.holders p _ call trivial
  have whole : r = (Call.chunk ⟨src, i, .moved r⟩).length := inv.calls.whole p _ call
  have short := inv.calls.short p _ call
  obtain ⟨offset, locks⟩ := inv.position.of_holder holds call
  refine ⟨inv.file, inv.offset, inv.owned, inv.contents, inv.laid, .free rfl offset locks, ?_⟩
  refine inv.calls.set (fun c found => ?_) (fun q c other found held => ?_) ?_
    fun q _ => ⟨rfl, rfl⟩
  · cases found
    exact ⟨fun outside => absurd outside id, whole, short⟩
  · cases (inv.calls.holders q c found held).symm.trans holds
    exact absurd rfl other
  · have own := inv.calls.own p
    rw [call] at own
    exact own

end

theorem own_append (g : Record π) (p : π) (start : Nat) (bytes : List UInt8) (q : π) :
    Record.own { g with chunks := g.chunks ++ [⟨p, start, bytes⟩] } q =
      if p = q then g.own q ++ [bytes] else g.own q := by
  unfold Record.own
  split
  · rename_i same
    simp [same]
  · rename_i other
    simp [other]

theorem writei_inv (uint : sb.size < 2 ^ 32) (inv : Inv sb table inum s g)
    (call : s.call p = some ⟨src, i, .locked⟩)
    (succeeds : NoFailure sb inum s (.writei p))
    (ran : writeChunk sb inum s p ⟨src, i, .locked⟩ = .ok after) :
    Inv sb table inum after
      { g with chunks := g.chunks ++ [⟨p, s.off, Call.chunk ⟨src, i, .locked⟩⟩] } := by
  have holds := inv.calls.holders p _ call trivial
  have more : i < src.length := inv.calls.whole p _ call
  have short : src.length < 2 ^ 31 := inv.calls.short p _ call
  obtain ⟨offset, locks⟩ := inv.position.of_holder holds call
  -- The chunk, which depends on `src` and `i` alone.
  generalize piece : Call.chunk ⟨src, i, .locked⟩ = bytes at ran ⊢
  have cut : bytes = (src.drop i).take chunkMax := piece.symm
  have count : bytes.length = min chunkMax (src.length - i) := by
    rw [cut, List.length_take, List.length_drop]
  obtain ⟨⟨r, d, ip⟩, wrote, ends⟩ := bind_eq_ok.mp ran
  rw [piece] at wrote
  have result : r ≠ -1 := by
    simpa [NoFailure, result, call, piece, wrote] using succeeds
  have typed : s.ip.type ≠ 0 := by rw [inv.file]; decide
  have written := (writei_ends (Nat.le_of_lt uint) inv.owned typed inv.offset
    (show bytes.length < 2 ^ 32 by omega)).of_ok wrote
  obtain ⟨device | failed, -⟩ | stored := written
  · rw [inv.file] at device
    cases device
  · exact absurd failed result
  · cases ends
    have size : r = bytes.length := stored.count
    have back : Record.bytes { g with chunks := g.chunks ++ [⟨p, s.off, bytes⟩] } =
        g.bytes ++ bytes := by simp [Record.bytes]
    refine ⟨stored.type.trans inv.file, inv.offset, stored.written.owned, ?_,
      inv.laid.append offset, .wrote holds (update_self _ _ _) ?_ ?_ ?_, ?_⟩
    · rw [back, ← put_append, ← inv.contents, ← offset]
      exact stored.written.here
    · have fits := stored.fits
      dsimp only [File.setCall]
      omega
    · rw [back, List.length_append]
      dsimp only [File.setCall]
      omega
    · rw [List.map_append, locks]
      rfl
    · refine inv.calls.set (fun c found => ?_) (fun q c _ => inv.calls.holders q c) ?_
        fun q other => ⟨by rw [own_append, if_neg (Ne.symm other)], rfl⟩
      · cases found
        exact ⟨fun _ => holds, by rw [Call.Whole, size, ← piece]; rfl, short⟩
      · have own := inv.calls.own p
        rw [call] at own
        have some : src.drop i ≠ [] := by
          rw [ne_eq, List.drop_eq_nil_iff]
          omega
        have left : (src.drop i).drop chunkMax = src.drop (i + r.toNat) := by
          rw [List.drop_drop, size, Int.toNat_natCast, count]
          by_cases large : chunkMax ≤ src.length - i
          · rw [Nat.min_eq_left large]
          · rw [List.drop_of_length_le (by omega), List.drop_of_length_le (by omega)]
        rw [own_append, if_pos rfl, ← own]
        dsimp only [restOf, Call.rest]
        rw [pieces_of_ne_nil some, ← cut, left, List.append_assoc]
        rfl

/-! ## Runs -/

theorem perform_inv (uint : sb.size < 2 ^ 32) (inv : Inv sb table inum s g)
    (succeeds : NoFailure sb inum s e) (ran : perform sb inum s e = .ok after) :
    Inv sb table inum after (note s e after g) := by
  cases e with
  | filewrite p src =>
    simp only [perform] at ran
    split at ran
    · rename_i call
      split at ran
      · rename_i short
        cases ran
        exact filewrite_inv inv call short
      · cases ran
    · cases ran
  | beginOp p =>
    simp only [perform] at ran
    split at ran
    · rename_i call
      split at ran
      · rename_i more
        cases ran
        exact beginOp_inv inv call more
      · cases ran
    · cases ran
  | ilock p =>
    simp only [perform] at ran
    split at ran
    · rename_i call unlocked
      cases ran
      exact ilock_inv inv call unlocked
    · cases ran
  | writei p =>
    simp only [perform] at ran
    split at ran
    · rename_i call
      simp only [note, call]
      exact writei_inv uint inv call succeeds ran
    · cases ran
  | advance p =>
    simp only [perform] at ran
    split at ran
    · rename_i call
      cases ran
      exact advance_inv inv call
    · cases ran
  | iunlock p =>
    simp only [perform] at ran
    split at ran
    · rename_i call
      cases ran
      exact iunlock_inv inv call
    · cases ran
  | endOp p =>
    simp only [perform] at ran
    split at ran
    · rename_i call
      exact endOp_inv inv call ran
    · cases ran
  | done p =>
    simp only [perform] at ran
    split at ran
    · rename_i call
      split at ran
      · cases ran
      · rename_i ended
        cases ran
        exact done_inv inv call ended
    · cases ran

theorem run_inv (uint : sb.size < 2 ^ 32) {s : File π × Record π}
    (run : (recorded sb table inum).Run (fun s e => NoFailure sb inum s.1 e) s) :
    Inv sb table inum s.1 s.2 := by
  induction run with
  | start init =>
    obtain ⟨⟨idle, unlocked, file, offset, owned⟩, record⟩ := init
    rw [record]
    refine ⟨file, offset, owned, by simp [Record.bytes], trivial,
      .free unlocked (by simp [Record.bytes]) rfl, ⟨?_, ?_, ?_, ?_⟩⟩
    · intro p c call
      rw [idle] at call
      cases call
    · intro p c call
      rw [idle] at call
      cases call
    · intro p c call
      rw [idle] at call
      cases call
    · intro p
      rw [idle]
      simp [Record.own, restOf]
  | step _ _ succeeds ran inv =>
    obtain ⟨stepped, note⟩ := System.watch_perform ran
    rw [note]
    exact perform_inv uint inv succeeds stepped

/-- The `k`-th chunk is that of the `k`-th process that took the lock, the chunks lie one
behind the other from the first offset on and do not overlap, and with the lock free the
offset is where the last of them ends. The file is the first one with the bytes of the
chunks put in. The chunks of a process are the pieces of its writes, in order: all of
them when it is not in `filewrite`, and at any time the first of them. A write is its
pieces, and one of at most 1536 bytes is a single piece. -/
theorem shared_offset_loses_no_write (uint : sb.size < 2 ^ 32) {s : File π × Record π}
    (run : (recorded sb table inum).Run (fun s e => NoFailure sb inum s.1 e) s) :
    s.2.chunks.map Chunk.proc <+: s.2.locks ∧
    (s.1.lock = none → s.2.chunks.map Chunk.proc = s.2.locks) ∧
    Laid s.2.start s.2.chunks ∧
    s.2.chunks.Pairwise (fun c c' => c.start + c.bytes.length ≤ c'.start) ∧
    (s.1.lock = none → s.1.off = s.2.start + (s.2.chunks.map fun c => c.bytes.length).sum) ∧
    contents s.1.disk.block s.1.ip =
      put s.2.before s.2.start (s.2.chunks.flatMap Chunk.bytes) ∧
    (∀ p, s.1.call p = none → s.2.own p = (s.2.calls p).flatMap pieces) ∧
    (∀ p, s.2.own p <+: (s.2.calls p).flatMap pieces) ∧
    (∀ src, (pieces src).flatten = src) ∧
    (∀ src, src ≠ [] → src.length ≤ 1536 → pieces src = [src]) := by
  have inv := run_inv uint run
  refine ⟨?_, fun unlocked => ?_, inv.laid, inv.laid.pairwise.2, fun unlocked => ?_, inv.contents,
    fun p idle => ?_, fun p => ⟨_, inv.calls.own p⟩, flatten_pieces, fun src => pieces_short⟩
  · cases inv.position with
    | free _ _ locks => rw [locks]
    | locked _ _ _ locks =>
      rw [locks]
      exact List.prefix_append _ _
    | wrote _ _ _ _ locks => rw [locks]
    | moved _ _ _ locks => rw [locks]
  · exact (inv.position.of_unlocked unlocked).2.symm
  · rw [(inv.position.of_unlocked unlocked).1, Record.bytes, List.length_flatMap]
  · have own := inv.calls.own p
    rw [idle] at own
    simpa [restOf] using own

instance {s : File π × Record π} {e : Event π} : Decidable ((recorded sb table inum).Enabled s e) :=
  inferInstanceAs (Decidable True)

/-- A process writes three bytes between the two chunks of another: each chunk is whole,
and the offset has moved over all of them. -/
theorem shared_offset_loses_no_write_between :
    ∃ s : File Bool × Record Bool,
      (recorded smallSuperblock (fun _ => {}) 1).Run (fun s e => NoFailure smallSuperblock 1 s.1 e) s ∧
      s.2.chunks.map (fun c => (c.proc, c.bytes.length)) =
        [(false, 1536), (true, 3), (false, 64)] ∧
      s.1.off = s.2.start + (s.2.chunks.map fun c => c.bytes.length).sum := by
  let file : Dinode := { type := T_FILE, nlink := 1 }
  have owned : Owned smallSuperblock blankDisk (update (fun _ => {}) 1 file) := by
    refine owned_blankDisk fun ⟨i, x⟩ => ?_
    by_cases here : i = 1
    · subst here
      cases x <;> simp [numbers, number, file]
    · cases x <;> simp [numbers, number, here]
  obtain ⟨s, run, unlocked, chunks⟩ := System.exists_run
    (m := (recorded smallSuperblock (fun _ => {}) 1 :
      System (File Bool × Record Bool) (Event Bool)))
    (s := ({ disk := blankDisk, ip := file, off := 0, lock := none, call := fun _ => none },
      { start := 0, before := contents blankDisk.block file }))
    (fun s e => NoFailure smallSuperblock 1 s.1 e) ⟨⟨fun _ => rfl, rfl, rfl, by decide, owned⟩, rfl⟩
    [.filewrite false (List.replicate 1600 9), .filewrite true [1, 2, 3], .beginOp false,
      .beginOp true, .ilock false, .writei false, .advance false, .iunlock false, .ilock true,
      .endOp false, .writei true, .advance true, .beginOp false, .iunlock true, .ilock false,
      .writei false, .advance false, .iunlock false]
    (fun s => s.1.lock = none ∧ s.2.chunks.map (fun c => (c.proc, c.bytes.length)) =
      [(false, 1536), (true, 3), (false, 64)]) (by decide +kernel)
  exact ⟨s, run, chunks, (shared_offset_loses_no_write (by decide) run).2.2.2.2.1 unlocked⟩

end Xv6.SharedOffset
