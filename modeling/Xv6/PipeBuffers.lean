import Mathlib.Data.Fintype.Basic
import Xv6.ProcMemory

/-! The pages of pipes. A page is the buffer of a pipe while an end of it is in the
file table; the flags in the page say which ends are. -/
namespace Xv6.PipeBuffers
open CheckedC BlockPool PageTables PageOwnership ProcMemory Function

def opened (pipe : Pipe) (writable : Bool) : Bool := if writable then pipe.writeopen else pipe.readopen

/-- Pages, each of them once, that files of the table refer to as pipes. -/
def buffers (s : State) : Multiset Page :=
  ((Finset.univ.filter fun f => (s.file f).type = .pipe).image fun f => (s.file f).pipe).val

structure Pipes (s : State) : Prop where
  idle : ∀ f, (s.file f).ref = 0 → (s.file f).type ≠ .pipe
  own : ∀ f, (s.file f).type = .pipe → opened (s.pipe (s.file f).pipe) (s.file f).writable = true
  unique : ∀ f g, (s.file f).type = .pipe → (s.file g).type = .pipe →
    (s.file f).pipe = (s.file g).pipe → (s.file f).writable = (s.file g).writable → f = g
  other : ∀ f, (s.file f).type = .pipe →
    opened (s.pipe (s.file f).pipe) (!(s.file f).writable) = true →
    ∃ g, (s.file g).type = .pipe ∧ (s.file g).pipe = (s.file f).pipe ∧
      (s.file g).writable = !(s.file f).writable

/-- The parts of a process that concern its pages. -/
def SameSpace (pr pr' : Proc) : Prop :=
  (pr.state = .unused ↔ pr'.state = .unused) ∧ pr.kstack = pr'.kstack ∧ pr.pgdir = pr'.pgdir ∧ pr.sz = pr'.sz

/-- A step that concerns no pages but those of pipes. -/
structure Filed (s after : State) : Prop where
  moves : Moves s.memory.toPool (buffers s) after.memory.toPool (buffers after)
  procs : ∀ p, SameSpace (after.proc p) (s.proc p)
  kpgdir : after.kpgdir = s.kpgdir
  cpuStacks : after.cpuStacks = s.cpuStacks
  pipes : Pipes after

/-! ## The ends of pipes in the table -/

def plug (file : File) : Option (Page × Bool) :=
  if file.type = .pipe then some (file.pipe, file.writable) else none

def ends (s : State) : FileId → Option (Page × Bool) := fun f => plug (s.file f)

def In (E : α → Option β) (e : β) : Prop := ∃ f, E f = some e

def Single (E : α → Option β) : Prop := ∀ f g e, E f = some e → E g = some e → f = g

section
variable [DecidableEq α] {E : α → Option β} {f : α}

theorem in_add (vacant : E f = none) : In (update E f (some e₀)) e ↔ In E e ∨ e = e₀ := by
  constructor
  · rintro ⟨g, found⟩
    by_cases same : g = f
    · rw [same, update_self] at found
      exact .inr (Option.some.inj found).symm
    · rw [update_of_ne same] at found
      exact .inl ⟨g, found⟩
  · rintro (⟨g, found⟩ | rfl)
    · have other : g ≠ f := fun same => by simp [← same, found] at vacant
      exact ⟨g, by rw [update_of_ne other, found]⟩
    · exact ⟨f, update_self ..⟩

theorem in_drop (single : Single E) (here : E f = some e₀) :
    In (update E f none) e ↔ In E e ∧ e ≠ e₀ := by
  constructor
  · rintro ⟨g, found⟩
    by_cases same : g = f
    · simp [same] at found
    · rw [update_of_ne same] at found
      exact ⟨⟨g, found⟩, fun equal => same (single g f e found (equal ▸ here))⟩
  · rintro ⟨⟨g, found⟩, differs⟩
    have other : g ≠ f := fun same => differs (by simpa [← same, found] using here)
    exact ⟨g, by rw [update_of_ne other, found]⟩

theorem Single.add (single : Single E) (new : ¬ In E e₀) : Single (update E f (some e₀)) := by
  intro g h e found found'
  by_cases here : g = f <;> by_cases here' : h = f
  · rw [here, here']
  · rw [here, update_self] at found
    rw [update_of_ne here', ← found] at found'
    exact absurd ⟨h, found'⟩ new
  · rw [here', update_self] at found'
    rw [update_of_ne here, ← found'] at found
    exact absurd ⟨g, found⟩ new
  · rw [update_of_ne here] at found
    rw [update_of_ne here'] at found'
    exact single g h e found found'

theorem Single.drop (single : Single E) : Single (update E f none) := by
  have kept : ∀ g e, update E f none g = some e → E g = some e := by
    intro g e found
    by_cases same : g = f
    · simp [same] at found
    · rwa [update_of_ne same] at found
  exact fun g h e found found' => single g h e (kept g e found) (kept h e found')

end

section
variable {s after : State}

theorem plug_eq_some : plug file = some (p, w) ↔ file.type = .pipe ∧ file.pipe = p ∧ file.writable = w := by
  simp [plug]

@[simp] theorem plug_eq_none : plug file = none ↔ file.type ≠ .pipe := by simp [plug]

theorem ends_update (files : after.file = update s.file f file) :
    ends after = update (ends s) f (plug file) := by
  funext g
  rw [ends, files]
  exact apply_update (fun _ => plug) s.file f file g

theorem pipes_iff : Pipes s ↔ (∀ f, (s.file f).ref = 0 → (s.file f).type ≠ .pipe) ∧ Single (ends s) ∧
    ∀ p w v, In (ends s) (p, w) → (opened (s.pipe p) v = true ↔ In (ends s) (p, v)) := by
  constructor
  · intro pipes
    have own : ∀ p w, In (ends s) (p, w) → opened (s.pipe p) w = true := by
      rintro _ _ ⟨f, found⟩
      obtain ⟨pipe, rfl, rfl⟩ := plug_eq_some.mp found
      exact pipes.own f pipe
    refine ⟨pipes.idle, ?_, fun p w v used => ⟨fun open_ => ?_, own p v⟩⟩
    · rintro f g ⟨p, w⟩ found found'
      obtain ⟨pipe, same, equal⟩ := plug_eq_some.mp found
      obtain ⟨pipe', rfl, rfl⟩ := plug_eq_some.mp found'
      exact pipes.unique f g pipe pipe' same equal
    · by_cases same : v = w
      · exact same ▸ used
      · obtain ⟨f, found⟩ := used
        obtain ⟨pipe, rfl, rfl⟩ := plug_eq_some.mp found
        obtain rfl := Bool.eq_not_of_ne same
        obtain ⟨g, other⟩ := pipes.other f pipe open_
        exact ⟨g, plug_eq_some.mpr other⟩
  · rintro ⟨idle, single, flags⟩
    have found : ∀ f, (s.file f).type = .pipe → ends s f = some ((s.file f).pipe, (s.file f).writable) :=
      fun f pipe => plug_eq_some.mpr ⟨pipe, rfl, rfl⟩
    refine ⟨idle, fun f pipe => ?_, fun f g pipe pipe' same equal => ?_, fun f pipe open_ => ?_⟩
    · exact (flags _ _ _ ⟨f, found f pipe⟩).mpr ⟨f, found f pipe⟩
    · exact single f g _ (found f pipe) (by rw [found g pipe', same, equal])
    · obtain ⟨g, other⟩ := (flags _ _ _ ⟨f, found f pipe⟩).mp open_
      exact ⟨g, plug_eq_some.mp other⟩

@[simp] theorem mem_buffers {q : Page} : q ∈ buffers s ↔ ∃ w, In (ends s) (q, w) := by
  simp only [buffers, In, ends, plug_eq_some, Finset.mem_val, Finset.mem_image, Finset.mem_filter,
    Finset.mem_univ, true_and]
  refine ⟨fun ⟨f, pipe, same⟩ => ⟨_, f, pipe, same, rfl⟩, fun ⟨_, f, pipe, same, _⟩ => ⟨f, pipe, same⟩⟩

theorem buffers_congr (same : ∀ q, q ∈ buffers after ↔ q ∈ buffers s) : buffers after = buffers s := by
  unfold buffers
  congr 1
  ext q
  exact same q

theorem buffers_cons (same : ∀ q, q ∈ buffers after ↔ q = p ∨ q ∈ buffers s) (fresh : p ∉ buffers s) :
    buffers after = {p} + buffers s := by
  rw [Multiset.singleton_add]
  unfold buffers at fresh ⊢
  rw [← Finset.insert_val_of_notMem fresh]
  congr 1
  ext q
  rw [Finset.mem_insert]
  exact same q

theorem SameSpace.refl (pr : Proc) : SameSpace pr pr := ⟨Iff.rfl, rfl, rfl, rfl⟩

theorem SameSpace.trans (first : SameSpace pr pr') (second : SameSpace pr' pr'') : SameSpace pr pr'' :=
  ⟨first.1.trans second.1, first.2.1.trans second.2.1, first.2.2.1.trans second.2.2.1,
    first.2.2.2.trans second.2.2.2⟩

theorem Filed.refl (pipes : Pipes s) : Filed s s :=
  ⟨Moves.refl _ _, fun _ => SameSpace.refl _, rfl, rfl, pipes⟩

theorem Filed.trans (first : Filed s s') (second : Filed s' after) : Filed s after :=
  ⟨first.moves.trans second.moves, fun p => (second.procs p).trans (first.procs p),
    second.kpgdir.trans first.kpgdir, second.cpuStacks.trans first.cpuStacks, second.pipes⟩

/-- The files are the same ends of the same pipes. -/
def SameEnds (s after : State) : Prop := ends after = ends s

theorem SameEnds.of_eq (files : after.file = s.file) : SameEnds s after :=
  funext fun f => congrArg plug (congrFun files f)

theorem SameEnds.trans (first : SameEnds s s') (second : SameEnds s' after) : SameEnds s after :=
  Eq.trans second first

theorem SameEnds.set (files : after.file = update s.file f file)
    (before : (s.file f).type ≠ .pipe) (behind : file.type ≠ .pipe) : SameEnds s after := by
  rw [SameEnds, ends_update files, plug_eq_none.mpr behind]
  exact update_eq_iff.mpr ⟨(plug_eq_none.mpr before).symm, fun _ _ => rfl⟩

/-- The files that are pipes are the same, with the same pages. -/
def SamePipes (s after : State) : Prop :=
  ∀ g, ((after.file g).type = .pipe ↔ (s.file g).type = .pipe) ∧
    ((s.file g).type = .pipe → (after.file g).pipe = (s.file g).pipe)

theorem SameEnds.pipes (same : SameEnds s after) : SamePipes s after := by
  intro g
  have here : plug (after.file g) = plug (s.file g) := congrFun same g
  refine ⟨?_, fun pipe => ?_⟩
  · refine not_iff_not.mp (plug_eq_none.symm.trans ?_)
    rw [here, plug_eq_none]
  · exact (plug_eq_some.mp (here.trans (plug_eq_some.mpr ⟨pipe, rfl, rfl⟩))).2.1

theorem SamePipes.buffers (same : SamePipes s after) :
    PipeBuffers.buffers after = PipeBuffers.buffers s := by
  unfold PipeBuffers.buffers
  congr 1
  ext q
  simp only [Finset.mem_image, Finset.mem_filter, Finset.mem_univ, true_and]
  refine exists_congr fun g => ?_
  rw [(same g).1]
  exact and_congr_right fun pipe => by rw [(same g).2 pipe]

theorem Filed.table (pipes : Pipes s) (same : SameEnds s after)
    (idle : ∀ f, (after.file f).ref = 0 → (after.file f).type ≠ .pipe)
    (memory : after.memory.toPool = s.memory.toPool) (flags : after.pipe = s.pipe)
    (procs : ∀ p, SameSpace (after.proc p) (s.proc p)) (kpgdir : after.kpgdir = s.kpgdir)
    (cpuStacks : after.cpuStacks = s.cpuStacks) : Filed s after := by
  refine ⟨?_, procs, kpgdir, cpuStacks, pipes_iff.mpr ⟨idle, ?_⟩⟩
  · rw [memory, same.pipes.buffers]
    exact Moves.refl _ _
  · rw [flags, show ends after = ends s from same]
    exact (pipes_iff.mp pipes).2

theorem Filed.setFile {file : File} (pipes : Pipes s) (same : plug file = plug (s.file f))
    (idle : file.ref = 0 → file.type ≠ .pipe) : Filed s (s.setFile f file) := by
  refine Filed.table pipes ?_ (fun g => ?_) rfl rfl (fun _ => SameSpace.refl _) rfl rfl
  · rw [SameEnds, ends_update (s := s) rfl, same]
    exact update_eq_self f (ends s)
  · by_cases same : g = f
    · subst same
      simpa only [State.setFile, update_self] using idle
    · simpa only [State.setFile, update_of_ne same] using pipes.idle g

theorem Filed.setProc (pipes : Pipes s) (same : SameSpace pr (s.proc p)) : Filed s (s.setProc p pr) := by
  refine Filed.table pipes rfl pipes.idle rfl rfl (fun q => ?_) rfl rfl
  by_cases here : q = p
  · subst here
    simpa only [State.setProc, update_self] using same
  · simp only [State.setProc, update_of_ne here]
    exact SameSpace.refl _

/-! ## Files -/

theorem filealloc_filed (pipes : Pipes s) (ran : filealloc s = (r, after)) : Filed s after := by
  unfold filealloc at ran
  split at ran
  · cases ran
    exact Filed.setFile pipes rfl nofun
  · cases ran
    exact Filed.refl pipes

theorem filedup_filed (pipes : Pipes s) (ran : filedup s f = .ok after) : Filed s after := by
  unfold filedup at ran
  split at ran
  · cases ran
  · cases ran
    refine Filed.setFile pipes rfl fun zero => ?_
    simp only at zero
    omega

/-! ## pipeclose -/

def closed (pipe : Pipe) (writable : Bool) : Pipe :=
  if writable then { pipe with writeopen := false } else { pipe with readopen := false }

theorem opened_closed (pipe : Pipe) (writable w : Bool) :
    opened (closed pipe writable) w = if w = writable then false else opened pipe w := by
  cases writable <;> cases w <;> rfl

theorem closed_both (pipe : Pipe) (writable : Bool) :
    ((closed pipe writable).readopen = false ∧ (closed pipe writable).writeopen = false) ↔
      opened pipe (!writable) = false := by
  cases writable <;> simp [closed, opened]

theorem pipeclose_eq (s : State) (p : Page) (writable : Bool) : pipeclose s p writable =
    (let s' := { s with pipe := update s.pipe p (closed (s.pipe p) writable) }
    if opened (s.pipe p) (!writable) = false then do
      let m ← kfree s.memory p
      return { s' with memory := m }
    else return s') := by
  simp only [← closed_both]
  rfl

theorem Pipes.close (pipes : Pipes s) (here : ends s f = some (p, w)) (gone : file.type ≠ .pipe)
    (files : after.file = update s.file f file)
    (flags : after.pipe = update s.pipe p (closed (s.pipe p) w)) : Pipes after := by
  obtain ⟨idle, single, agree⟩ := pipes_iff.mp pipes
  have left := ends_update files
  rw [plug_eq_none.mpr gone] at left
  refine pipes_iff.mpr ⟨fun g zero => ?_, left ▸ single.drop, fun q u v used => ?_⟩
  · rw [files] at zero ⊢
    by_cases same : g = f
    · rwa [same, update_self]
    · rw [update_of_ne same] at zero ⊢
      exact idle g zero
  · rw [left, in_drop single here] at used ⊢
    rw [flags, ← agree q u v used.1]
    by_cases same : q = p
    · by_cases equal : v = w <;> simp [same, equal, opened_closed]
    · simp [same]

theorem pipeclose_filed (pipes : Pipes s) (here : ends s f = some (p, w)) (gone : file.type ≠ .pipe)
    (ran : pipeclose (s.setFile f file) p w = .ok after) : Filed s after := by
  obtain ⟨-, single, agree⟩ := pipes_iff.mp pipes
  have other := agree p w (!w) ⟨f, here⟩
  have member : ∀ q, q ∈ buffers (s.setFile f file) ↔ ∃ v, In (ends s) (q, v) ∧ (q, v) ≠ (p, w) := by
    intro q
    rw [mem_buffers, ends_update (s := s) rfl, plug_eq_none.mpr gone]
    simp only [in_drop single here]
  rw [pipeclose_eq] at ran
  split at ran
  · rename_i last
    obtain ⟨m, freed, ends⟩ := bind_eq_ok.mp ran
    cases ends
    have alone : ¬ In (ends s) (p, !w) := fun found => by
      rw [← other] at found
      exact absurd (found.symm.trans last) nofun
    have parts : buffers s = {p} + buffers (s.setFile f file) := by
      refine buffers_cons (fun q => ?_) fun inside => ?_
      · rw [mem_buffers, member]
        refine ⟨fun ⟨v, found⟩ => ?_, ?_⟩
        · by_cases same : q = p
          · exact .inl same
          · exact .inr ⟨v, found, by simp [same]⟩
        · rintro (rfl | ⟨v, found, -⟩)
          · exact ⟨w, f, here⟩
          · exact ⟨v, found⟩
      · obtain ⟨v, found, differs⟩ := (member p).mp inside
        obtain rfl : v = !w := Bool.eq_not_of_ne (by simpa using differs)
        exact alone found
    refine ⟨?_, fun _ => SameSpace.refl _, rfl, rfl, pipes.close here gone rfl rfl⟩
    have framed := (kfree_moves freed).1.frame (buffers (s.setFile f file))
    rw [zero_add, ← parts] at framed
    exact framed
  · rename_i more
    cases ran
    have still : buffers (s.setFile f file) = buffers s := by
      refine buffers_congr fun q => ?_
      rw [member, mem_buffers]
      refine ⟨fun ⟨v, found, _⟩ => ⟨v, found⟩, fun ⟨v, found⟩ => ?_⟩
      by_cases same : (q, v) = (p, w)
      · cases same
        exact ⟨!w, other.mp (eq_true_of_ne_false more), by simp⟩
      · exact ⟨v, found, same⟩
    refine ⟨?_, fun _ => SameSpace.refl _, rfl, rfl, pipes.close here gone rfl rfl⟩
    have moved := Moves.refl s.memory.toPool (buffers s)
    nth_rewrite 2 [← still] at moved
    exact moved

theorem fileclose_filed (pipes : Pipes s) (ran : fileclose s f = .ok after) : Filed s after := by
  unfold fileclose at ran
  dsimp only at ran
  split at ran
  · cases ran
  · split at ran
    · cases ran
      refine Filed.setFile pipes rfl fun zero => ?_
      simp only at zero
      omega
    · split at ran
      · rename_i pipe
        exact pipeclose_filed pipes (plug_eq_some.mpr ⟨pipe, rfl, rfl⟩) (by simp) ran
      · rename_i other
        cases ran
        exact Filed.setFile pipes (plug_eq_none.mpr other).symm fun _ => nofun

theorem fileclose_ends (one : (s.file f).ref = 1) (ran : fileclose s f = .ok after) :
    ends after = update (ends s) f none ∧ ∀ g, g ≠ f → after.file g = s.file g := by
  have files : after.file = update s.file f { s.file f with ref := 0, type := .none } := by
    unfold fileclose at ran
    dsimp only at ran
    rw [one, if_neg (by decide), if_neg (by decide)] at ran
    split at ran
    · rw [pipeclose_eq] at ran
      split at ran
      · obtain ⟨m, _, ends⟩ := bind_eq_ok.mp ran
        cases ends
        rfl
      · cases ran
        rfl
    · cases ran
      rfl
  refine ⟨?_, fun g other => by rw [files, update_of_ne other]⟩
  rw [ends_update files, plug_eq_none.mpr (by simp)]

/-! ## pipealloc -/

theorem Filed.create (pipes : Pipes s)
    (framed : Moves s.memory.toPool (buffers s) after.memory.toPool ({p} + buffers s))
    (fresh : p ∉ buffers s) (apart : f₁ ≠ f₀) (vacant₀ : ends s f₀ = none) (vacant₁ : ends s f₁ = none)
    (files : after.file = update (update s.file f₀ file₀) f₁ file₁)
    (flags : after.pipe = update s.pipe p ⟨true, true⟩)
    (first : plug file₀ = some (p, false) ∧ file₀.ref ≠ 0)
    (second : plug file₁ = some (p, true) ∧ file₁.ref ≠ 0) (procs : after.proc = s.proc)
    (kpgdir : after.kpgdir = s.kpgdir) (cpuStacks : after.cpuStacks = s.cpuStacks) : Filed s after := by
  obtain ⟨idle, single, agree⟩ := pipes_iff.mp pipes
  have new : ∀ w, ¬ In (ends s) (p, w) := fun w found => fresh (mem_buffers.mpr ⟨w, found⟩)
  have table : ends after = update (update (ends s) f₀ (some (p, false))) f₁ (some (p, true)) := by
    rw [ends_update (s := s.setFile f₀ file₀) files, ends_update (s := s) rfl, first.1, second.1]
  have member : ∀ e, In (ends after) e ↔ (In (ends s) e ∨ e = (p, false)) ∨ e = (p, true) := by
    intro e
    rw [table, in_add (by rwa [update_of_ne apart]), in_add vacant₀]
  have buffers : buffers after = {p} + buffers s := by
    refine buffers_cons (fun q => ?_) fresh
    simp only [mem_buffers, member, Prod.mk.injEq]
    by_cases same : q = p <;> simp [same]
  refine ⟨buffers ▸ framed, fun q => procs ▸ SameSpace.refl _, kpgdir, cpuStacks,
    pipes_iff.mpr ⟨fun g zero => ?_, ?_, fun q u v used => ?_⟩⟩
  · rw [files] at zero ⊢
    by_cases last : g = f₁
    · rw [last, update_self] at zero
      exact absurd zero second.2
    · rw [update_of_ne last] at zero ⊢
      by_cases one : g = f₀
      · rw [one, update_self] at zero
        exact absurd zero first.2
      · rw [update_of_ne one] at zero ⊢
        exact idle g zero
  · rw [table]
    refine (single.add (new false)).add ?_
    rw [in_add vacant₀]
    simp [new]
  · rw [member] at used ⊢
    rw [flags]
    by_cases same : q = p
    · cases v <;> simp [same, opened]
    · simp only [Prod.mk.injEq, same, false_and, or_false] at used ⊢
      rw [update_of_ne same, agree q u v used]

theorem filealloc_file (pipes : Pipes s) (ran : filealloc s = (r, after)) :
    SameEnds s after ∧ match r with
      | none => after = s
      | some f => ends s f = none ∧ (s.file f).ref = 0 ∧ (after.file f).ref = 1 ∧
        ∀ g, g ≠ f → after.file g = s.file g := by
  unfold filealloc at ran
  split at ran
  · rename_i f found
    cases ran
    have zero : (s.file f).ref = 0 := by simpa using List.find?_some found
    have unused := pipes.idle f zero
    exact ⟨SameEnds.set rfl unused unused, plug_eq_none.mpr unused, zero, by simp [State.setFile],
      fun g other => update_of_ne other ..⟩
  · cases ran
    exact ⟨rfl, rfl⟩

theorem Filed.refused (pipes : Pipes s) (ran : kalloc s.memory = (none, m)) :
    Filed s { s with memory := m } :=
  Filed.table pipes rfl pipes.idle (kalloc_none ran) rfl (fun _ => SameSpace.refl _) rfl rfl

theorem SameEnds.close (vacant : ends s f = none) (one : (s₁.file f).ref = 1)
    (others : ∀ g, g ≠ f → ends s₁ g = ends s g) (ran : fileclose s₁ f = .ok after) :
    SameEnds s after := by
  rw [SameEnds, (fileclose_ends one ran).1]
  exact update_eq_iff.mpr ⟨vacant.symm, others⟩

theorem SameEnds.closeBoth (apart : f₁ ≠ f₀) (vacant₀ : ends s f₀ = none) (vacant₁ : ends s f₁ = none)
    (first : fileclose s₁ f₀ = .ok s₂) (second : fileclose s₂ f₁ = .ok after)
    (ref₀ : (s₁.file f₀).ref = 1) (ref₁ : (s₁.file f₁).ref = 1)
    (others : ∀ g, g ≠ f₀ → g ≠ f₁ → ends s₁ g = ends s g) : SameEnds s after := by
  obtain ⟨table, files⟩ := fileclose_ends ref₀ first
  refine SameEnds.close vacant₁ (by rw [files f₁ apart, ref₁]) (fun g other => ?_) second
  rw [table]
  by_cases one : g = f₀
  · rw [one, update_self, vacant₀]
  · rw [update_of_ne one, others g one other]

theorem pipealloc_filed (pipes : Pipes s) (apart : Apart s.memory.toPool (buffers s))
    (ran : pipealloc s = .ok (r, after)) :
    Filed s after ∧ match r with
      | none => SameEnds s after
      | some (f₀, f₁) => f₁ ≠ f₀ ∧ ends s f₀ = none ∧ ends s f₁ = none ∧
        (after.file f₀).ref = 1 ∧ (after.file f₁).ref = 1 ∧
        ∀ g, g ≠ f₀ → g ≠ f₁ → ends after g = ends s g := by
  unfold pipealloc at ran
  split at ran
  · rename_i s₁ none
    cases ran
    exact ⟨filealloc_filed pipes none, (filealloc_file pipes none).1⟩
  · rename_i f₀ s₁ first
    have filed₁ := filealloc_filed pipes first
    obtain ⟨same₁, vacant₀, -, ref₀, files₁⟩ := filealloc_file pipes first
    split at ran
    · rename_i s₂ none
      obtain ⟨s₃, closed₀, ends⟩ := bind_eq_ok.mp ran
      cases ends
      have filed₂ := filealloc_filed filed₁.pipes none
      refine ⟨(filed₁.trans filed₂).trans (fileclose_filed filed₂.pipes closed₀), ?_⟩
      rw [(filealloc_file filed₁.pipes none).2] at closed₀
      exact SameEnds.close vacant₀ ref₀ (fun g _ => congrFun same₁ g) closed₀
    · rename_i f₁ s₂ second
      have filed₂ := filealloc_filed filed₁.pipes second
      obtain ⟨same₂, vacant₁, free₁, ref₁, files₂⟩ := filealloc_file filed₁.pipes second
      have other : f₁ ≠ f₀ := by
        rintro rfl
        rw [ref₀] at free₁
        cases free₁
      rw [same₁] at vacant₁
      have same := same₁.trans same₂
      have through := filed₁.trans filed₂
      rw [← files₂ f₀ other.symm] at ref₀
      split at ran
      · rename_i m none
        obtain ⟨s₃, closed₀, ran⟩ := bind_eq_ok.mp ran
        obtain ⟨s₄, closed₁, ends⟩ := bind_eq_ok.mp ran
        cases ends
        have filed₃ := Filed.refused through.pipes none
        have filed₄ := fileclose_filed filed₃.pipes closed₀
        have filed₅ := fileclose_filed filed₄.pipes closed₁
        refine ⟨((through.trans filed₃).trans filed₄).trans filed₅, ?_⟩
        exact SameEnds.closeBoth other vacant₀ vacant₁ closed₀ closed₁ ref₀ ref₁
          fun g _ _ => congrFun same g
      · rename_i p m some
        cases ran
        obtain ⟨taken, _⟩ := kalloc_some some
        have framed := taken.frame (buffers s₂)
        have fresh : p ∉ buffers s₂ := by
          have parts := Multiset.nodup_add.mp (framed.apart (through.moves.apart apart)).owned
          exact Multiset.disjoint_left.mp parts.2.2 (Multiset.mem_singleton_self p)
        have file₁ : update s₂.file f₀ { s₂.file f₀ with type := .pipe, writable := false, pipe := p } f₁ =
            s₂.file f₁ := update_of_ne other ..
        refine ⟨through.trans (Filed.create through.pipes framed fresh other (by rw [same, vacant₀])
          (by rw [same, vacant₁]) rfl rfl ⟨rfl, by simp [ref₀]⟩
          ⟨rfl, by simp [State.setFile, file₁, ref₁]⟩ rfl rfl rfl), other, vacant₀, vacant₁, ?_, ?_,
          fun g more more' => ?_⟩
        · simp only [State.setFile, update_of_ne other.symm, update_self, ref₀]
        · simp only [State.setFile, update_self, file₁, ref₁]
        · rw [← same]
          simp only [ends, State.setFile, update_of_ne more, update_of_ne more']

/-! ## System calls -/

theorem fdalloc_filed (pipes : Pipes s) (ran : fdalloc s p f = (r, after)) :
    Filed s after ∧ after.file = s.file ∧ after.memory = s.memory := by
  unfold fdalloc at ran
  split at ran
  · cases ran
    exact ⟨Filed.setProc pipes ⟨Iff.rfl, rfl, rfl, rfl⟩, rfl, rfl⟩
  · cases ran
    exact ⟨Filed.refl pipes, rfl, rfl⟩

theorem clearFd_filed (pipes : Pipes s) (p : Pid) (fd : Fin NOFILE) : Filed s (clearFd s p fd) :=
  Filed.setProc pipes ⟨Iff.rfl, rfl, rfl, rfl⟩

theorem sys_pipe_filed (pipes : Pipes s) (apart : Apart s.memory.toPool (buffers s))
    (ran : sys_pipe s p = .ok (done, after)) :
    Filed s after ∧ (done = false → SamePipes s after) := by
  obtain ⟨⟨made, s₁⟩, alloc, ran⟩ := bind_eq_ok.mp ran
  obtain ⟨filed, spec⟩ := pipealloc_filed pipes apart alloc
  cases made with
  | none =>
    cases ran
    exact ⟨filed, fun _ => spec.pipes⟩
  | some ends =>
    obtain ⟨other, vacant₀, vacant₁, ref₀, ref₁, others⟩ := spec
    dsimp only at ran
    split at ran
    · rename_i s₂ none
      obtain ⟨filed₂, files, _⟩ := fdalloc_filed filed.pipes none
      obtain ⟨s₃, first, ran⟩ := bind_eq_ok.mp ran
      obtain ⟨s₄, second, ends⟩ := bind_eq_ok.mp ran
      cases ends
      have filed₃ := fileclose_filed filed₂.pipes first
      refine ⟨((filed.trans filed₂).trans filed₃).trans (fileclose_filed filed₃.pipes second),
        fun _ => SameEnds.pipes ?_⟩
      exact SameEnds.closeBoth other vacant₀ vacant₁ first second (by rw [files, ref₀])
        (by rw [files, ref₁]) fun g more more' => by
          rw [SameEnds.of_eq files]
          exact others g more more'
    · rename_i fd₀ s₂ some
      obtain ⟨filed₂, files, _⟩ := fdalloc_filed filed.pipes some
      have through := filed.trans filed₂
      split at ran
      · rename_i s₃ none
        obtain ⟨filed₃, files₃, _⟩ := fdalloc_filed filed₂.pipes none
        obtain ⟨s₄, first, ran⟩ := bind_eq_ok.mp ran
        obtain ⟨s₅, second, ends⟩ := bind_eq_ok.mp ran
        cases ends
        have filed₄ := clearFd_filed filed₃.pipes p fd₀
        have filed₅ := fileclose_filed filed₄.pipes first
        have table : (clearFd s₃ p fd₀).file = s₁.file := files₃.trans files
        refine ⟨(((through.trans filed₃).trans filed₄).trans filed₅).trans
          (fileclose_filed filed₅.pipes second), fun _ => SameEnds.pipes ?_⟩
        exact SameEnds.closeBoth other vacant₀ vacant₁ first second (by rw [table, ref₀])
          (by rw [table, ref₁]) fun g more more' => by
            rw [SameEnds.of_eq table]
            exact others g more more'
      · rename_i fd₁ s₃ found
        cases ran
        exact ⟨through.trans (fdalloc_filed filed₂.pipes found).1, nofun⟩

theorem sys_close_filed (pipes : Pipes s) (ran : sys_close s p fd = .ok (done, after)) :
    Filed s after ∧ (done = false → SamePipes s after) := by
  unfold sys_close at ran
  split at ran
  · cases ran
    exact ⟨Filed.refl pipes, fun _ => SameEnds.pipes rfl⟩
  · obtain ⟨s₁, closing, ends⟩ := bind_eq_ok.mp ran
    cases ends
    have filed := clearFd_filed pipes p
    exact ⟨(filed _).trans (fileclose_filed (filed _).pipes closing), nofun⟩

theorem sys_dup_filed (pipes : Pipes s) (ran : sys_dup s p fd = .ok (done, after)) :
    Filed s after ∧ (done = false → SamePipes s after) := by
  unfold sys_dup at ran
  split at ran
  · cases ran
    exact ⟨Filed.refl pipes, fun _ => SameEnds.pipes rfl⟩
  · split at ran
    · rename_i none
      cases ran
      obtain ⟨filed, files, _⟩ := fdalloc_filed pipes none
      exact ⟨filed, fun _ => (SameEnds.of_eq files).pipes⟩
    · rename_i some
      obtain ⟨s₂, dup, ends⟩ := bind_eq_ok.mp ran
      cases ends
      obtain ⟨filed, _⟩ := fdalloc_filed pipes some
      exact ⟨filed.trans (filedup_filed filed.pipes dup), nofun⟩

theorem sys_open_filed (pipes : Pipes s) (ran : sys_open s p writable = .ok (done, after)) :
    Filed s after ∧ (done = false → SamePipes s after) := by
  unfold sys_open at ran
  split at ran
  · rename_i none
    cases ran
    exact ⟨filealloc_filed pipes none, fun _ => (filealloc_file pipes none).1.pipes⟩
  · rename_i f s₁ some
    have filed := filealloc_filed pipes some
    obtain ⟨same, vacant, -, one, -⟩ := filealloc_file pipes some
    split at ran
    · rename_i s₂ none
      obtain ⟨filed₂, files₂, _⟩ := fdalloc_filed filed.pipes none
      obtain ⟨s₃, closing, ends⟩ := bind_eq_ok.mp ran
      cases ends
      refine ⟨(filed.trans filed₂).trans (fileclose_filed filed₂.pipes closing), fun _ => SameEnds.pipes ?_⟩
      exact SameEnds.close vacant (by rw [files₂, one])
        (fun g _ => congrFun (same.trans (SameEnds.of_eq files₂)) g) closing
    · rename_i fd s₂ found
      cases ran
      obtain ⟨filed₂, files₂, _⟩ := fdalloc_filed filed.pipes found
      have vacant₂ : ends s₂ f = none := by rw [same.trans (SameEnds.of_eq files₂), vacant]
      exact ⟨(filed.trans filed₂).trans (Filed.setFile filed₂.pipes vacant₂.symm fun _ => nofun),
        nofun⟩

end

end Xv6.PipeBuffers
