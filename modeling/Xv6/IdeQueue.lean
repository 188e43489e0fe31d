import Mathlib.Data.Fintype.Card
import Xv6.Param
import Xv6.StepSystem
import Xv6.LinkedRing

/-! The request queue of the IDE driver. `iderw` appends its buffer under `idelock`,
starts the disk when the queue was empty and sleeps; the interrupt handler completes
the request at the head and starts the next one. Each critical section of `idelock`
is one step. The disk holds the commands started and not yet answered, and answers a
command by one interrupt, without errors. The driver that keeps the disk in memory is
the specification: what a request does to buffer and disk at its interrupt is what
`iderw` of `memide.c` does. -/
namespace Xv6.IdeQueue
open CheckedC StepSystem LinkedRing Function

abbrev SECTOR_SIZE : Nat := 512

/-- The fields of `struct buf` the drivers use; the data are those of a block. -/
structure Buf (δ : Type) where
  valid : Bool
  dirty : Bool
  dev : Nat
  blockno : Nat
  data : δ
  deriving DecidableEq

/-- `(b->flags & (B_VALID|B_DIRTY)) == B_VALID`. -/
def Buf.Done (b : Buf δ) : Prop := b.valid = true ∧ b.dirty = false

instance {b : Buf δ} : Decidable b.Done := inferInstanceAs (Decidable (_ ∧ _))

/-! ## The driver in memory -/

/-- `iderw` of `memide.c`, for a caller that holds the buffer's lock; `mem` is
`memdisk`, which has FSSIZE blocks. -/
def memIderw (b : Buf δ) (mem : Nat → δ) : Checked (Buf δ × (Nat → δ)) := do
  if b.Done then throw (.panic "iderw: nothing to do")
  if b.dev ≠ 1 then throw (.panic "iderw: request not for disk 1")
  if FSSIZE ≤ b.blockno then throw (.panic "iderw: block out of range")
  if b.dirty then
    return ({ b with dirty := false, valid := true }, update mem b.blockno b.data)
  else return ({ b with data := mem b.blockno, valid := true }, mem)

/-! ## The disk and the driver -/

/-- What `idestart` sends: the drive, the sector in four registers, and for a write
the data. -/
structure Command (δ : Type) where
  drive : Bool
  lba : Nat
  write : Option δ
  deriving DecidableEq

/-- The sector the disk puts together from the registers 0x1f3 to 0x1f6. -/
def lba (sector : Nat) : Nat :=
  sector &&& 0xff ||| ((sector >>> 8) &&& 0xff) <<< 8 ||| ((sector >>> 16) &&& 0xff) <<< 16 |||
    ((sector >>> 24) &&& 0x0f) <<< 24

def command (b : Buf δ) : Command δ where
  drive := b.dev &&& 1 = 1
  lba := lba (b.blockno * (BSIZE / SECTOR_SIZE))
  write := if b.dirty then some b.data else none

/-- A caller of `iderw` is outside, past the checks before `acquire(&idelock)`, or in
the queue or asleep. -/
inductive Phase where
  | outside
  | checked
  | waiting
  deriving DecidableEq

/-- `link none` is `idequeue` and `link (some b)` is `b->qnext`. -/
structure Ide (n : Nat) (δ : Type) where
  buf : Fin n → Buf δ
  phase : Fin n → Phase
  link : Option (Fin n) → Option (Fin n)
  flight : List (Command δ)
  disk : Bool → Nat → δ
  havedisk1 : Bool

/-- The caller of each buffer holds its sleep-lock, so a buffer has at most one call at
a time, and outside a call its holder changes it in any way. -/
inductive Event (n : Nat) (δ : Type) where
  | edit (b : Fin n) (buf : Buf δ)
  | enter (b : Fin n)
  | append (b : Fin n)
  | wake (b : Fin n)
  | interrupt

variable {n : Nat} {δ : Type}

def idestart (s : Ide n δ) (b : Fin n) : Checked (Ide n δ) := do
  if FSSIZE ≤ (s.buf b).blockno then throw (.panic "incorrect blockno")
  return { s with flight := s.flight ++ [command (s.buf b)] }

/-- `for(pp=&idequeue; *pp; pp=&(*pp)->qnext)`, from the cell `pp`. A queue of `n`
buffers ends within `n + 1` turns or never. -/
def findEnd (link : Option (Fin n) → Option (Fin n)) :
    Nat → Option (Fin n) → Checked (Option (Fin n))
  | 0, _ => .error .blocked
  | rounds + 1, pp =>
    match link pp with
    | none => .ok pp
    | some b => findEnd link rounds (some b)

/-- The loop of `iderw` around `sleep`, up to `sleep` or to the return. -/
def awaitDone (s : Ide n δ) (b : Fin n) : Ide n δ :=
  { s with phase := update s.phase b (if (s.buf b).Done then .outside else .waiting) }

/-- The checks of `iderw` before it acquires `idelock`. -/
def iderwEnter (s : Ide n δ) (b : Fin n) : Checked (Ide n δ) := do
  if (s.buf b).Done then throw (.panic "iderw: nothing to do")
  if (s.buf b).dev ≠ 0 ∧ s.havedisk1 = false then throw (.panic "iderw: ide disk 1 not present")
  return { s with phase := update s.phase b .checked }

/-- `iderw` from `acquire(&idelock)` to its first `sleep`. -/
def iderwAppend (s : Ide n δ) (b : Fin n) : Checked (Ide n δ) := do
  let link := update s.link (some b) none
  let pp ← findEnd link (n + 1) none
  let s := { s with link := update link pp (some b) }
  let s ← if s.link none = some b then idestart s b else .ok s
  return awaitDone s b

/-- The disk carries out a command; what a read has found stands at the port. -/
def carryOut (disk : Bool → Nat → δ) (cmd : Command δ) : (Bool → Nat → δ) × δ :=
  match cmd.write with
  | some data =>
    (update disk cmd.drive (update (disk cmd.drive) cmd.lba data), data)
  | none => (disk, disk cmd.drive cmd.lba)

/-- `ideintr`, with the data at the port. -/
def ideintr (s : Ide n δ) (port : δ) : Checked (Ide n δ) :=
  match s.link none with
  | none => .ok s
  | some b =>
    let buf := { s.buf b with
      data := if (s.buf b).dirty then (s.buf b).data else port, valid := true, dirty := false }
    let s := { s with
      link := update s.link none (s.link (some b))
      buf := update s.buf b buf }
    match s.link none with
    | none => .ok s
    | some next => idestart s next

def perform (s : Ide n δ) : Event n δ → Checked (Ide n δ)
  | .edit b buf => return { s with buf := update s.buf b buf }
  | .enter b => iderwEnter s b
  | .append b => iderwAppend s b
  | .wake b => return awaitDone s b
  | .interrupt =>
    match s.flight with
    | [] => .error .blocked
    | cmd :: rest =>
      let (disk, port) := carryOut s.disk cmd
      ideintr { s with disk := disk, flight := rest } port

def Enabled (s : Ide n δ) : Event n δ → Prop
  | .edit b _ | .enter b => s.phase b = .outside
  | .append b => s.phase b = .checked
  | .wake b => s.phase b = .waiting
  | .interrupt => s.flight ≠ []

structure Idle (s : Ide n δ) : Prop where
  phase : ∀ b, s.phase b = .outside
  queue : s.link none = none
  flight : s.flight = []

def system (n : Nat) (δ : Type) : System (Ide n δ) (Event n δ) where
  Init := Idle
  Enabled := Enabled
  perform := perform

/-! ## The record of requests -/

/-- The buffers in the order they were appended, those in the order of their
interrupts, and what `memide.c` makes of each buffer at its interrupt. -/
structure Record (n : Nat) (δ : Type) where
  appended : List (Fin n) := []
  served : List (Fin n) := []
  result : Fin n → Option (Buf δ) := fun _ => none

def note (s : Ide n δ) (e : Event n δ) (_ : Ide n δ) (r : Record n δ) : Record n δ :=
  match e with
  | .append b => { r with appended := r.appended ++ [b] }
  | .interrupt =>
    match s.link none with
    | none => r
    | some b =>
      { r with
        served := r.served ++ [b]
        result := update r.result b
          ((memIderw (s.buf b) (s.disk true)).toOption.map Prod.fst) }
  | _ => r

def watched (n : Nat) (δ : Type) : System (Ide n δ × Record n δ) (Event n δ) :=
  (system n δ).watch (fun _ => {}) note

/-! ## One command -/

theorem lba_eq : ∀ sector < FSSIZE, lba sector = sector := by decide +kernel

def Buf.served (b : Buf δ) (port : δ) : Buf δ :=
  { b with data := if b.dirty then b.data else port, valid := true, dirty := false }

theorem done_served (b : Buf δ) (port : δ) : (b.served port).Done := ⟨rfl, rfl⟩

theorem served_eq_memIderw {b : Buf δ} (open_ : ¬ b.Done) (first : b.dev = 1)
    (inside : b.blockno < FSSIZE) (disk : Bool → Nat → δ) :
    memIderw b (disk true) =
      .ok (b.served (carryOut disk (command b)).2, (carryOut disk (command b)).1 true) := by
  have sector : lba (b.blockno * (BSIZE / SECTOR_SIZE)) = b.blockno := by
    rw [show b.blockno * (BSIZE / SECTOR_SIZE) = b.blockno by simp, lba_eq _ inside]
  have drive : (command b).drive = true := by simp [command, first]
  have place : (command b).lba = b.blockno := sector
  simp only [memIderw, open_, first, not_le.mpr inside, if_false, ne_eq, not_true_eq_false]
  cases dirty : b.dirty with
  | true =>
    have write : (command b).write = some b.data := by simp [command, dirty]
    simp [carryOut, write, drive, place, Buf.served, dirty, first]
  | false =>
    have write : (command b).write = none := by simp [command, dirty]
    simp [carryOut, write, drive, place, Buf.served, dirty, first]

/-! ## The queue as a list -/

theorem findEnd_eq {link : Option (Fin n) → Option (Fin n)} {items : List (Fin n)}
    (path : Path link a (items.map some) none) (enough : items.length ≤ rounds) :
    findEnd link (rounds + 1) a = .ok (last a (items.map some)) := by
  induction items generalizing a rounds with
  | nil =>
    have stop : link a = none := path
    simp [findEnd, stop, last]
  | cons b items ih =>
    obtain ⟨rounds, rfl⟩ : ∃ more, rounds = more + 1 := ⟨rounds - 1, by simp at enough; omega⟩
    obtain ⟨next, rest⟩ := path
    have found := ih rest (show items.length ≤ rounds by simpa using enough)
    rw [findEnd, next]
    exact found

theorem nodup_cells {items : List (Fin n)} (distinct : items.Nodup) :
    (none :: items.map some).Nodup := by
  refine List.nodup_cons.mpr ⟨by simp, distinct.map (Option.some_injective _)⟩

/-- The queue holds these buffers, the disk works on the first of them, and a caller
who is asleep but not queued has been served. -/
structure Queue (s : Ide n δ) (r : Record n δ) (items : List (Fin n)) : Prop where
  path : Path s.link none (items.map some) none
  distinct : items.Nodup
  pending : ∀ b ∈ items, s.phase b = .waiting ∧ ¬ (s.buf b).Done
  flight : s.flight = (items.head?.map fun b => command (s.buf b)).toList
  started : ∀ b ∈ items.head?, (s.buf b).blockno < FSSIZE
  checked : ∀ b, s.phase b = .checked → ¬ (s.buf b).Done
  settled : ∀ b, s.phase b = .waiting → b ∉ items →
    (s.buf b).Done ∧ ((s.buf b).dev = 1 → r.result b = some (s.buf b))
  order : r.appended = r.served ++ items

theorem Queue.edit {s : Ide n δ} {r : Record n δ} (queue : Queue s r items)
    (free : s.phase b = .outside) (buf : Buf δ) :
    Queue { s with buf := update s.buf b buf } r items := by
  have same (c : Fin n) (busy : s.phase c ≠ .outside) : update s.buf b buf c = s.buf c :=
    update_of_ne (fun here => busy (by rw [here, free])) _ _
  have queued (c : Fin n) (member : c ∈ items) : update s.buf b buf c = s.buf c :=
    same c (by rw [(queue.pending c member).1]; nofun)
  refine ⟨queue.path, queue.distinct, fun c member => ?_, ?_, fun c head => ?_, fun c here => ?_,
    fun c here gone => ?_, queue.order⟩ <;> dsimp only at *
  · rw [queued c member]
    exact queue.pending c member
  · rw [queue.flight]
    cases items with
    | nil => rfl
    | cons c items => simp [queued c (by simp)]
  · rw [queued c (List.mem_of_mem_head? head)]
    exact queue.started c head
  · rw [same c (by rw [here]; nofun)]
    exact queue.checked c here
  · rw [same c (by rw [here]; nofun)]
    exact queue.settled c here gone

theorem Queue.enter {s : Ide n δ} {r : Record n δ} (queue : Queue s r items)
    (free : s.phase b = .outside) (todo : ¬ (s.buf b).Done) :
    Queue { s with phase := update s.phase b .checked } r items := by
  have absent : b ∉ items := fun member => by
    rw [(queue.pending b member).1] at free
    cases free
  refine ⟨queue.path, queue.distinct, fun c member => ?_, queue.flight, queue.started,
    fun c here => ?_, fun c here gone => ?_, queue.order⟩
  · have other : c ≠ b := fun same => absent (same ▸ member)
    simpa [other] using queue.pending c member
  · by_cases same : c = b
    · rw [same]
      exact todo
    · simp only [update_of_ne same] at here
      exact queue.checked c here
  · by_cases same : c = b
    · subst same
      simp at here
    · simp only [update_of_ne same] at here
      exact queue.settled c here gone

theorem Queue.wake {s : Ide n δ} {r : Record n δ} (queue : Queue s r items)
    (asleep : s.phase b = .waiting) : Queue (awaitDone s b) r items := by
  refine ⟨queue.path, queue.distinct, fun c member => ?_, queue.flight, queue.started,
    fun c here => ?_, fun c here gone => ?_, queue.order⟩
  · obtain ⟨waiting, todo⟩ := queue.pending c member
    refine ⟨?_, todo⟩
    by_cases same : c = b
    · subst same
      simp [awaitDone, todo]
    · simpa [awaitDone, same] using waiting
  · by_cases same : c = b
    · subst same
      simp only [awaitDone, update_self] at here
      split at here <;> cases here
    · simp only [awaitDone, update_of_ne same] at here
      exact queue.checked c here
  · by_cases same : c = b
    · subst same
      exact queue.settled c asleep gone
    · simp only [awaitDone, update_of_ne same] at here
      exact queue.settled c here gone

theorem path_linked {link : Option (Fin n) → Option (Fin n)} {items : List (Fin n)}
    (path : Path link none (items.map some) none) (distinct : items.Nodup) (absent : b ∉ items) :
    Path (update (update link (some b) none) (last none (items.map some))
      (some b)) none ((items ++ [b]).map some) none := by
  have outside : some b ∉ none :: items.map some := by simpa using absent
  have cleared : Path (update link (some b) none) none (items.map some) none :=
    path.frame outside
  have apart : some b ≠ last none (items.map some) := fun same =>
    outside (same ▸ last_mem none (items.map some))
  rw [List.map_append]
  refine path_append.mpr ⟨cleared.redirect (nodup_cells distinct) (some b), ?_⟩
  simp [LinkedRing.Path, apart]

theorem idestart_ok {s after : Ide n δ} (ran : idestart s b = .ok after) :
    (s.buf b).blockno < FSSIZE ∧ after = { s with flight := s.flight ++ [command (s.buf b)] } := by
  unfold idestart at ran
  by_cases large : FSSIZE ≤ (s.buf b).blockno
  · simp only [large, if_true] at ran
    cases ran
  · simp only [large, if_false] at ran
    cases ran
    exact ⟨not_le.mp large, rfl⟩

theorem Queue.append {s after : Ide n δ} {r : Record n δ} (queue : Queue s r items)
    (ready : s.phase b = .checked) (ran : iderwAppend s b = .ok after) :
    Queue after { r with appended := r.appended ++ [b] } (items ++ [b]) := by
  have absent : b ∉ items := fun member => by
    rw [(queue.pending b member).1] at ready
    cases ready
  have todo := queue.checked b ready
  have short : items.length ≤ n := by simpa using queue.distinct.length_le_card
  have outside : some b ∉ none :: items.map some := by simpa using absent
  have found : findEnd (update s.link (some b) none) (n + 1) none =
      .ok (last none (items.map some)) := findEnd_eq (queue.path.frame outside) short
  have linked := path_linked queue.path queue.distinct absent
  set link := update (update s.link (some b) none)
    (last none (items.map some)) (some b) with cells
  have fresh : (items ++ [b]).Nodup := by simpa using List.Nodup.concat absent queue.distinct
  -- what the rest of the call leaves, whether or not the disk was started
  have ends (flight : List (Command δ))
      (head : flight = ((items ++ [b]).head?.map fun c => command (s.buf c)).toList)
      (small : ∀ c ∈ (items ++ [b]).head?, (s.buf c).blockno < FSSIZE) :
      Queue (awaitDone { s with link := link, flight := flight } b)
        { r with appended := r.appended ++ [b] } (items ++ [b]) := by
    refine ⟨linked, fresh, fun c member => ?_, head, small, fun c here => ?_,
      fun c here gone => ?_, by simp [queue.order]⟩
    · rcases List.mem_append.mp member with old | new
      · have other : c ≠ b := fun same => absent (same ▸ old)
        simpa [awaitDone, other] using queue.pending c old
      · obtain rfl := List.mem_singleton.mp new
        exact ⟨by simp [awaitDone, todo], todo⟩
    · by_cases same : c = b
      · subst same
        exact todo
      · simp only [awaitDone, update_of_ne same] at here
        exact queue.checked c here
    · have other : c ≠ b := fun same => gone (by simp [same])
      simp only [awaitDone, update_of_ne other] at here
      exact queue.settled c here fun member => gone (by simp [member])
  rw [iderwAppend, found] at ran
  simp only [bind_ok] at ran
  rw [← cells] at ran
  cases items with
  | nil =>
    have first : link none = some b := linked.1
    rw [if_pos first] at ran
    obtain ⟨middle, started, rest⟩ := bind_eq_ok.mp ran
    obtain ⟨small, rfl⟩ := idestart_ok started
    cases rest
    refine ends _ ?_ ?_
    · simp [queue.flight]
    · simpa using small
  | cons c items =>
    have first : link none = some c := linked.1
    have other : c ≠ b := fun same => absent (by simp [same])
    rw [if_neg (by rw [first]; simpa using other)] at ran
    cases ran
    refine ends _ ?_ ?_
    · simpa using queue.flight
    · simpa using queue.started

theorem Queue.interrupt {s after : Ide n δ} {r : Record n δ} (queue : Queue s r items)
    (busy : s.flight ≠ []) (ran : perform s .interrupt = .ok after) :
    ∃ b rest, items = b :: rest ∧ s.link none = some b ∧ s.flight = [command (s.buf b)] ∧
      after.buf = update s.buf b
        ((s.buf b).served (carryOut s.disk (command (s.buf b))).2) ∧
      after.disk = (carryOut s.disk (command (s.buf b))).1 ∧
      Queue after (note s .interrupt after r) rest := by
  cases items with
  | nil => exact absurd queue.flight busy
  | cons b rest =>
    have one : s.flight = [command (s.buf b)] := by simpa using queue.flight
    obtain ⟨todo, waiting⟩ := queue.pending b (by simp)
    have first : s.link none = some b := queue.path.1
    obtain ⟨absent, distinct⟩ := List.nodup_cons.mp queue.distinct
    set port := (carryOut s.disk (command (s.buf b))).2 with found
    set disk := (carryOut s.disk (command (s.buf b))).1 with written
    set buf := update s.buf b ((s.buf b).served port) with bufs
    set link := update s.link none (s.link (some b)) with cells
    have path : Path link none (rest.map some) none :=
      queue.path.remove (l := []) (nodup_cells queue.distinct)
    have same (c : Fin n) (other : c ≠ b) : buf c = s.buf c := update_of_ne other _ _
    have queued (c : Fin n) (member : c ∈ rest) : buf c = s.buf c :=
      same c fun here => absent (here ▸ member)
    have noted : note s .interrupt after r = { r with
        served := r.served ++ [b]
        result := update r.result b
          ((memIderw (s.buf b) (s.disk true)).toOption.map Prod.fst) } := by
      simp only [note, first]
    -- what is left, with whatever command the handler has started
    have ends (flight : List (Command δ))
        (head : flight = (rest.head?.map fun c => command (buf c)).toList)
        (small : ∀ c ∈ rest.head?, (buf c).blockno < FSSIZE) :
        Queue { s with disk := disk, link := link, buf := buf, flight := flight }
          (note s .interrupt after r) rest := by
      rw [noted]
      refine ⟨path, distinct, fun c member => ?_, head, small, fun c here => ?_,
        fun c here gone => ?_, by simp [queue.order]⟩
      · dsimp only
        rw [queued c member]
        exact queue.pending c (by simp [member])
      · dsimp only at here ⊢
        rw [same c fun here' => by rw [here', todo] at here; cases here]
        exact queue.checked c here
      · dsimp only at here ⊢
        by_cases mine : c = b
        · subst mine
          rw [bufs, update_self, update_self]
          refine ⟨done_served _ _, fun firstDisk => ?_⟩
          rw [served_eq_memIderw waiting firstDisk (queue.started c (by simp)) s.disk]
          rfl
        · rw [same c mine, update_of_ne mine]
          exact queue.settled c here fun member => gone ((List.mem_cons.mp member).resolve_left mine)
    simp only [perform, one] at ran
    have handled : ideintr { s with disk := disk, flight := [] } port = .ok after := ran
    have left : s.link (some b) = rest.head? := by
      have next := queue.path.2
      cases rest with
      | nil => exact next
      | cons c rest => exact next.1
    simp only [ideintr, first, update_self, left] at handled
    refine ⟨b, rest, rfl, first, one, ?_⟩
    cases rest with
    | nil =>
      simp only [List.head?_nil, Except.ok.injEq] at handled
      subst handled
      refine ⟨rfl, rfl, ?_⟩
      have done := ends [] rfl nofun
      rwa [cells, left] at done
    | cons c rest =>
      obtain ⟨small, rfl⟩ := idestart_ok handled
      refine ⟨rfl, rfl, ?_⟩
      have done := ends [command (buf c)] rfl fun d head => by
        cases head
        exact small
      rwa [cells, left] at done

/-! ## Every run -/

theorem run_queue (run : (watched n δ).Run (fun _ _ => True) s) : ∃ items, Queue s.1 s.2 items := by
  induction run with
  | start init =>
    obtain ⟨idle, fresh⟩ := init
    refine ⟨[], idle.queue, List.nodup_nil, nofun, idle.flight, nofun, fun b here => ?_,
      fun b here => ?_, by rw [fresh]; rfl⟩
    all_goals
      rw [idle.phase b] at here
      cases here
  | @step s e after _ enabled _ ran inv =>
    obtain ⟨items, queue⟩ := inv
    obtain ⟨stepped, noted⟩ := System.watch_perform ran
    rw [noted]
    cases e with
    | edit b buf =>
      rw [← Except.ok.inj stepped]
      exact ⟨items, queue.edit enabled buf⟩
    | enter b =>
      have step : iderwEnter s.1 b = .ok after.1 := stepped
      unfold iderwEnter at step
      by_cases done : (s.1.buf b).Done
      · simp only [done, if_true] at step
        cases step
      · split at step
        · cases step
        · rw [← Except.ok.inj step]
          exact ⟨items, queue.enter enabled done⟩
    | append b => exact ⟨items ++ [b], queue.append enabled stepped⟩
    | wake b =>
      rw [← Except.ok.inj stepped]
      exact ⟨items, queue.wake enabled⟩
    | interrupt =>
      obtain ⟨_, rest, _, _, _, _, _, kept⟩ := queue.interrupt enabled stepped
      exact ⟨rest, kept⟩

/-- Along every run the queue holds each buffer at most once, in the order of the
appends that have not been served; the one command in flight is that of its head; an
interrupt does to the head, and to disk 1, what the driver in memory does; and a call
returns with its buffer valid and clean, as the driver in memory left it at the
request's interrupt. -/
theorem requests_served_in_order (run : (watched n δ).Run (fun _ _ => True) s) :
    (∃ items, Path s.1.link none (items.map some) none ∧ items.Nodup ∧
      s.2.appended = s.2.served ++ items ∧
      s.1.flight = (items.head?.map fun b => command (s.1.buf b)).toList) ∧
    (∀ after, Enabled s.1 .interrupt → perform s.1 .interrupt = .ok after →
      ∃ b, s.1.link none = some b ∧ (∀ c, c ≠ b → after.buf c = s.1.buf c) ∧
        ((s.1.buf b).dev = 1 →
          memIderw (s.1.buf b) (s.1.disk true) = .ok (after.buf b, after.disk true))) ∧
    (∀ b after, Enabled s.1 (.wake b) → perform s.1 (.wake b) = .ok after →
      after.phase b = .outside → (after.buf b).Done ∧
        ((after.buf b).dev = 1 → s.2.result b = some (after.buf b))) ∧
    ∀ b after, Enabled s.1 (.append b) → perform s.1 (.append b) = .ok after →
      after.phase b = .waiting := by
  obtain ⟨items, queue⟩ := run_queue run
  refine ⟨⟨items, queue.path, queue.distinct, queue.order, queue.flight⟩,
    fun after enabled ran => ?_, fun b after enabled ran left => ?_, fun b after enabled ran => ?_⟩
  · obtain ⟨b, rest, rfl, first, _, bufs, disks, _⟩ := queue.interrupt enabled ran
    refine ⟨b, first, fun c other => ?_, fun firstDisk => ?_⟩
    · rw [bufs, update_of_ne other]
    · rw [bufs, disks, update_self]
      exact served_eq_memIderw (queue.pending b (by simp)).2 firstDisk
        (queue.started b (by simp)) s.1.disk
  · cases ran
    have done : (s.1.buf b).Done := by
      by_contra todo
      simp [awaitDone, todo] at left
    have gone : b ∉ items := fun member => (queue.pending b member).2 done
    exact queue.settled b enabled gone
  · exact ((queue.append enabled ran).pending b (by simp)).1

instance (s : Ide n δ) (e : Event n δ) : Decidable (Enabled s e) :=
  match e with
  | .edit _ _ | .enter _ | .append _ | .wake _ => inferInstanceAs (Decidable (_ = _))
  | .interrupt => decidable_of_iff (s.flight.isEmpty = false) (by simp [Enabled])

instance (s : Ide n δ × Record n δ) (e : Event n δ) : Decidable ((watched n δ).Enabled s e) :=
  inferInstanceAs (Decidable (Enabled s.1 e))

/-- Block 3 of disk 1 is to be written from the first buffer and read into the second. -/
def writeThenRead : Ide 2 Nat where
  buf b := if b = 0 then ⟨true, true, 1, 3, 7⟩ else ⟨false, false, 1, 3, 0⟩
  phase _ := .outside
  link _ := none
  flight := []
  disk _ _ := 0
  havedisk1 := true

theorem requests_served_in_order_two :
    ∃ s, (watched 2 Nat).Run (fun _ _ => True) s ∧ s.2.appended = [0, 1] ∧ s.2.served = [0] ∧
      s.1.flight ≠ [] ∧ ∃ items, items.Nodup ∧ s.2.appended = s.2.served ++ items ∧
      s.1.flight = (items.head?.map fun b => command (s.1.buf b)).toList := by
  obtain ⟨s, run, appended, served, busy⟩ := System.exists_run (m := watched 2 Nat) (s := (writeThenRead, {}))
    (fun _ _ => True) ⟨⟨fun _ => rfl, rfl, rfl⟩, rfl⟩
    [.enter 0, .append 0, .enter 1, .append 1, .interrupt]
    (fun s => s.2.appended = [0, 1] ∧ s.2.served = [0] ∧ s.1.flight ≠ [])
    (by decide +kernel)
  obtain ⟨items, _, distinct, order, flight⟩ := (requests_served_in_order run).1
  exact ⟨s, run, appended, served, busy, items, distinct, order, flight⟩

end Xv6.IdeQueue
