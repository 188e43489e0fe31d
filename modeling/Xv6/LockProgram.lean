import Mathlib.Logic.Function.Basic
import Mathlib.Logic.Relation
import Xv6.StepSystem

/-! Programs of threads that share a state and block on locks. A program is a
tree of atomic steps; steps carry a note, so that a condition can single some of
them out. The same program runs alone to its end (`exec`, with the weakest
precondition `wp`) and interleaved with others (`system`, with the ghost-state
judgement `Safe`). A thread that waits while it holds locks waits upwards in an
order of the locks; then no set of threads waits in a circle. -/
namespace Xv6.LockProgram
open CheckedC StepSystem Function

/-- The shared state with the holder of each lock. -/
structure World (τ κ σ : Type) where
  locks : κ → Option τ
  shared : σ

inductive Prog (κ ν σ α : Type) : Type 1 where
  | done (value : α)
  | atomic {β : Type} (note : ν) (run : σ → Checked (β × σ)) (next : β → Prog κ ν σ α)
  | acquire (note : ν) (i : κ) (next : Prog κ ν σ α)
  | release (i : κ) (next : Prog κ ν σ α)

namespace Prog

def bind (p : Prog κ ν σ α) (next : α → Prog κ ν σ β) : Prog κ ν σ β :=
  match p with
  | done value => next value
  | atomic note run rest => atomic note run fun value => bind (rest value) next
  | acquire note i rest => acquire note i (bind rest next)
  | release i rest => release i (bind rest next)

instance : Monad (Prog κ ν σ) where
  pure := done
  bind := bind

theorem bind_done (p : Prog κ ν σ α) : p.bind done = p := by
  induction p with
  | done value => rfl
  | atomic note run rest ih => rw [bind, funext ih]
  | acquire note i rest ih | release i rest ih => rw [bind, ih]

/-- One atomic step. -/
def act (note : ν) (run : σ → Checked (α × σ)) : Prog κ ν σ α := atomic note run done

def lock (note : ν) (i : κ) : Prog κ ν σ Unit := acquire note i (done ())

def unlock (i : κ) : Prog κ ν σ Unit := release i (done ())

end Prog

section
variable {τ κ ν σ α β : Type} [DecidableEq κ]

def World.take (w : World τ κ σ) (t : τ) (i : κ) : World τ κ σ :=
  { w with locks := update w.locks i (some t) }

def World.drop (w : World τ κ σ) (i : κ) : World τ κ σ :=
  { w with locks := update w.locks i none }

/-! ## Running alone -/

/-- Thread `t` runs alone to the end of its program. -/
def Prog.exec [DecidableEq τ] (t : τ) : Prog κ ν σ α → World τ κ σ → Checked (α × World τ κ σ)
  | .done value, w => .ok (value, w)
  | .atomic _ run next, w =>
    match run w.shared with
    | .ok (value, s) => exec t (next value) { w with shared := s }
    | .error fault => .error fault
  | .acquire _ i next, w =>
    match w.locks i with
    | none => exec t next (w.take t i)
    | some _ => .error .blocked
  | .release i next, w =>
    if w.locks i = some t then exec t next (w.drop i) else .error (.panic "release")

/-- Every step on the way meets the condition in the state before it. -/
def Prog.Along (cond : World τ κ σ → τ → ν → Prop) (t : τ) :
    Prog κ ν σ α → World τ κ σ → Prop
  | .done _, _ => True
  | .atomic note run next, w =>
    cond w t note ∧
      match run w.shared with
      | .ok (value, s) => Along cond t (next value) { w with shared := s }
      | .error _ => True
  | .acquire note i next, w =>
    cond w t note ∧
      match w.locks i with
      | none => Along cond t next (w.take t i)
      | some _ => True
  | .release i next, w => Along cond t next (w.drop i)

theorem Prog.Along.mono {cond cond' : World τ κ σ → τ → ν → Prop} {t : τ} {p : Prog κ ν σ α}
    {w : World τ κ σ} (along : p.Along cond t w)
    (weaker : ∀ w note, cond w t note → cond' w t note) : p.Along cond' t w := by
  induction p generalizing w with
  | done value => trivial
  | atomic note run rest ih =>
    rw [Along] at along ⊢
    refine ⟨weaker w note along.1, ?_⟩
    have later := along.2
    cases stepped : run w.shared with
    | error fault => trivial
    | ok result =>
      rw [stepped] at later
      exact ih result.1 later
  | acquire note i rest ih =>
    refine ⟨weaker w note along.1, ?_⟩
    have later := along.2
    cases locked : w.locks i with
    | some holder => trivial
    | none =>
      rw [locked] at later
      exact ih later
  | release i rest ih => exact ih along

theorem Prog.along_of_forall {cond : World τ κ σ → τ → ν → Prop} {t : τ}
    (all : ∀ w note, cond w t note) (p : Prog κ ν σ α) (w : World τ κ σ) : p.Along cond t w := by
  induction p generalizing w with
  | done value => trivial
  | atomic note run next ih =>
    rw [Along]
    refine ⟨all w note, ?_⟩
    split
    · exact ih _ _
    · trivial
  | acquire note i next ih =>
    refine ⟨all w note, ?_⟩
    split
    · exact ih _
    · trivial
  | release i next ih => exact ih _

/-- Whether every step on the way meets a condition can be checked by running the
program. -/
instance Prog.Along.decide (cond : World τ κ σ → τ → ν → Prop)
    [∀ w t note, Decidable (cond w t note)] (t : τ) :
    (p : Prog κ ν σ α) → (w : World τ κ σ) → Decidable (p.Along cond t w)
  | .done _, _ => .isTrue trivial
  | .atomic note run next, w =>
    match stepped : run w.shared with
    | .ok (value, s) =>
      have := decide cond t (next value) { w with shared := s }
      decidable_of_iff (cond w t note ∧ (next value).Along cond t { w with shared := s })
        (by rw [Along, stepped])
    | .error _ => decidable_of_iff (cond w t note) (by rw [Along, stepped]; simp)
  | .acquire note i next, w =>
    match locked : w.locks i with
    | none =>
      have := decide cond t next (w.take t i)
      decidable_of_iff (cond w t note ∧ next.Along cond t (w.take t i)) (by rw [Along, locked])
    | some _ => decidable_of_iff (cond w t note) (by rw [Along, locked]; simp)
  | .release i next, w => decide cond t next (w.drop i)

/-- If every step meets the condition, no fault is a bad one and a run that ends
does so in `Post`. -/
def Prog.wp (cond : World τ κ σ → τ → ν → Prop) (Bad : Fault → Prop) (t : τ) :
    Prog κ ν σ α → (α → World τ κ σ → Prop) → World τ κ σ → Prop
  | .done value, Post, w => Post value w
  | .atomic note run next, Post, w =>
    cond w t note →
      match run w.shared with
      | .ok (value, s) => wp cond Bad t (next value) Post { w with shared := s }
      | .error fault => ¬ Bad fault
  | .acquire note i next, Post, w =>
    cond w t note → w.locks i = none → wp cond Bad t next Post (w.take t i)
  | .release i next, Post, w => w.locks i = some t → wp cond Bad t next Post (w.drop i)

variable {cond : World τ κ σ → τ → ν → Prop} {Bad : Fault → Prop} {t : τ} {w : World τ κ σ}

namespace Prog

theorem wp_bind {p : Prog κ ν σ α} {next : α → Prog κ ν σ β} {Post : β → World τ κ σ → Prop} :
    wp cond Bad t (p >>= next) Post w ↔
      wp cond Bad t p (fun value => wp cond Bad t (next value) Post) w := by
  change wp cond Bad t (bind p next) Post w ↔ _
  induction p generalizing w with
  | done value => exact Iff.rfl
  | atomic note run rest ih =>
    simp only [bind, wp]
    cases run w.shared with
    | error fault => exact Iff.rfl
    | ok result => exact imp_congr Iff.rfl (ih result.1)
  | acquire note i rest ih => exact imp_congr Iff.rfl (imp_congr Iff.rfl ih)
  | release i rest ih => exact imp_congr Iff.rfl ih

theorem wp_pure {Post : α → World τ κ σ → Prop} :
    wp cond Bad t (pure value : Prog κ ν σ α) Post w ↔ Post value w := Iff.rfl

theorem wp_lock {Post : Unit → World τ κ σ → Prop} :
    wp cond Bad t (lock note i : Prog κ ν σ Unit) Post w ↔
      (cond w t note → w.locks i = none → Post () (w.take t i)) := Iff.rfl

theorem wp_unlock {Post : Unit → World τ κ σ → Prop} :
    wp cond Bad t (unlock i : Prog κ ν σ Unit) Post w ↔
      (w.locks i = some t → Post () (w.drop i)) := Iff.rfl

theorem wp_sound [DecidableEq τ] {p : Prog κ ν σ α} {Post : α → World τ κ σ → Prop}
    (ran : wp cond Bad t p Post w) (met : Along cond t p w) (quiet : ¬ Bad .blocked)
    (held : ¬ Bad (.panic "release")) :
    (∀ value after, p.exec t w = .ok (value, after) → Post value after) ∧
      ∀ fault, p.exec t w = .error fault → ¬ Bad fault := by
  induction p generalizing w with
  | done value =>
    refine ⟨fun _ _ ended => ?_, fun _ ended => ?_⟩
    · cases ended
      exact ran
    · cases ended
  | atomic note run rest ih =>
    rw [Along] at met
    obtain ⟨first, later⟩ := met
    have here := ran first
    simp only [exec]
    cases stepped : run w.shared with
    | error fault =>
      rw [stepped] at here
      refine ⟨fun _ _ ended => ?_, fun _ ended => ?_⟩
      · cases ended
      · cases ended
        exact here
    | ok result =>
      rw [stepped] at here later
      exact ih result.1 here later
  | acquire note i rest ih =>
    obtain ⟨first, later⟩ : _ ∧ _ := met
    simp only [exec]
    cases locked : w.locks i with
    | none =>
      rw [locked] at later
      exact ih (ran first locked) later
    | some holder =>
      refine ⟨fun _ _ ended => ?_, fun _ ended => ?_⟩
      · cases ended
      · cases ended
        exact quiet
  | release i rest ih =>
    simp only [exec]
    by_cases mine : w.locks i = some t
    · rw [if_pos mine]
      exact ih (ran mine) met
    · rw [if_neg mine]
      refine ⟨fun _ _ ended => ?_, fun _ ended => ?_⟩
      · cases ended
      · cases ended
        exact held

end Prog

/-! ## Running together -/

/-- A thread is outside any program, inside one, or asleep until a lock is free. -/
inductive Status (κ ν σ : Type) : Type 1 where
  | idle
  | running (p : Prog κ ν σ Int)
  | waiting (i : κ) (next : Prog κ ν σ Int)

structure Config (τ κ ν σ : Type) : Type 1 where
  world : World τ κ σ
  status : τ → Status κ ν σ

inductive Event (τ γ : Type) where
  | call (t : τ) (c : γ)
  | step (t : τ)
  deriving DecidableEq

/-- The programs of a kernel: its calls, and who may make them. -/
structure Kernel (τ κ ν σ γ : Type) where
  Init : σ → Prop
  Callable : σ → τ → Prop
  program : τ → γ → Prog κ ν σ Int

variable {γ : Type} [DecidableEq τ]

def Config.set (c : Config τ κ ν σ) (w : World τ κ σ) (t : τ) (status : Status κ ν σ) :
    Config τ κ ν σ :=
  { world := w, status := update c.status t status }

/-- One step of thread `t`. A failed attempt on a lock puts it to sleep. -/
def Config.step (c : Config τ κ ν σ) (t : τ) : Checked (Config τ κ ν σ) :=
  match c.status t with
  | .idle => .ok c
  | .running (.done _) => .ok (c.set c.world t .idle)
  | .running (.atomic _ run next) =>
    match run c.world.shared with
    | .ok (value, s) => .ok (c.set { c.world with shared := s } t (.running (next value)))
    | .error fault => .error fault
  | .running (.acquire _ i next) =>
    match c.world.locks i with
    | none => .ok (c.set (c.world.take t i) t (.running next))
    | some _ => .ok (c.set c.world t (.waiting i next))
  | .running (.release i next) =>
    if c.world.locks i = some t then .ok (c.set (c.world.drop i) t (.running next))
    else .error (.panic "release")
  | .waiting i next =>
    match c.world.locks i with
    | none => .ok (c.set (c.world.take t i) t (.running next))
    | some _ => .ok c

/-- All interleavings of the calls of a kernel. -/
def Kernel.system (k : Kernel τ κ ν σ γ) : System (Config τ κ ν σ) (Event τ γ) where
  Init c := k.Init c.world.shared ∧ (∀ i, c.world.locks i = none) ∧ ∀ t, c.status t = .idle
  Enabled c
    | .call t _ => c.status t = .idle ∧ k.Callable c.world.shared t
    | .step t => c.status t ≠ .idle
  perform c
    | .call t call => .ok (c.set c.world t (.running (k.program t call)))
    | .step t => c.step t

instance (status : Status κ ν σ) : Decidable (status = .idle) :=
  match status with
  | .idle => .isTrue rfl
  | .running _ => .isFalse nofun
  | .waiting _ _ => .isFalse nofun

instance (k : Kernel τ κ ν σ γ) [∀ s t, Decidable (k.Callable s t)] (c : Config τ κ ν σ)
    (e : Event τ γ) : Decidable (k.system.Enabled c e) :=
  match e with
  | .call t _ => inferInstanceAs (Decidable (c.status t = .idle ∧ k.Callable c.world.shared t))
  | .step t => inferInstanceAs (Decidable (c.status t ≠ .idle))

/-- What the next step of a thread is. -/
def Status.note : Status κ ν σ → Option ν
  | .running (.atomic note _ _) | .running (.acquire note _ _) => some note
  | _ => none

/-- The step about to be taken meets the condition. -/
def Meets (cond : World τ κ σ → τ → ν → Prop) (c : Config τ κ ν σ) : Event τ γ → Prop
  | .call _ _ => True
  | .step t => ∀ note ∈ (c.status t).note, cond c.world t note

instance (cond : World τ κ σ → τ → ν → Prop) [∀ w t note, Decidable (cond w t note)]
    (c : Config τ κ ν σ) (e : Event τ γ) : Decidable (Meets cond c e) :=
  match e with
  | .call _ _ => .isTrue trivial
  | .step t => inferInstanceAs (Decidable (∀ note ∈ (c.status t).note, cond c.world t note))

/-- Thread `t` sleeps on a lock that `u` holds. -/
def Waits (c : Config τ κ ν σ) (t u : τ) : Prop :=
  ∃ i next, c.status t = .waiting i next ∧ c.world.locks i = some u

/-! ## Ghost state -/

/-- An invariant of the world and of ghost state for every thread; the ghost
states of idle threads and of threads that cannot run; the order in which locks
are waited for; and a condition every step is supposed to meet. -/
structure Discipline (τ κ ν σ γ : Type) where
  Inv : World τ κ σ → (τ → γ) → Prop
  Idle : γ → Prop
  Dead : γ → Prop
  Below : σ → κ → κ → Prop
  Cond : World τ κ σ → τ → ν → Prop

variable (d : Discipline τ κ ν σ γ)

/-- From ghost state `l`, whatever the others do in between, every step of the
program that meets the condition keeps the invariant for some new ghost state,
disturbs no order another thread may rely on, and waits only upwards. -/
def Safe (t : τ) : Prog κ ν σ α → γ → (α → γ → Prop) → Prop
  | .done value, l, Post => Post value l
  | .atomic note run next, l, Post =>
    ¬ d.Dead l ∧ ∀ w g, d.Inv w g → g t = l → d.Cond w t note →
      ∀ value s, run w.shared = .ok (value, s) →
      ∃ g', d.Inv { w with shared := s } g' ∧
        (∀ u, u ≠ t → g' u = g u ∨ (d.Dead (g u) ∧ d.Idle (g' u))) ∧
        (∀ j u, w.locks j = some u → u ≠ t → ∀ i, d.Below w.shared j i → d.Below s j i) ∧
        Safe t (next value) (g' t) Post
  | .acquire note i next, l, Post =>
    ¬ d.Dead l ∧
    (∀ w g, d.Inv w g → g t = l → d.Cond w t note → w.locks i ≠ none →
      ∀ j, w.locks j = some t → d.Below w.shared j i) ∧
    ∀ w g, d.Inv w g → g t = l → w.locks i = none →
      ∃ l', d.Inv (w.take t i) (update g t l') ∧ Safe t next l' Post
  | .release i next, l, Post =>
    ¬ d.Dead l ∧ ∀ w g, d.Inv w g → g t = l → w.locks i = some t →
      ∃ l', d.Inv (w.drop i) (update g t l') ∧ Safe t next l' Post

variable {d} {t : τ}

theorem safe_then {p : Prog κ ν σ α} {next : α → Prog κ ν σ β} {Post : β → γ → Prop}
    (safe : Safe d t p l Mid) (post : ∀ value l, Mid value l → Safe d t (next value) l Post) :
    Safe d t (p >>= next) l Post := by
  induction p generalizing l with
  | done value => exact post value l safe
  | atomic note run rest ih =>
    refine ⟨safe.1, fun w g inv here met value s ran => ?_⟩
    obtain ⟨g', kept, others, order, later⟩ := safe.2 w g inv here met value s ran
    exact ⟨g', kept, others, order, ih value later⟩
  | acquire note i rest ih =>
    refine ⟨safe.1, safe.2.1, fun w g inv here free => ?_⟩
    obtain ⟨l', kept, later⟩ := safe.2.2 w g inv here free
    exact ⟨l', kept, ih later⟩
  | release i rest ih =>
    refine ⟨safe.1, fun w g inv here held => ?_⟩
    obtain ⟨l', kept, later⟩ := safe.2 w g inv here held
    exact ⟨l', kept, ih later⟩

theorem safe_bind {p : Prog κ ν σ α} {next : α → Prog κ ν σ β} {Post : β → γ → Prop}
    (first : Safe d t p l fun value l' => Safe d t (next value) l' Post) :
    Safe d t (p >>= next) l Post :=
  safe_then first fun _ _ later => later

theorem safe_mono {p : Prog κ ν σ α} {Post Post' : α → γ → Prop}
    (safe : Safe d t p l Post) (post : ∀ value l, Post value l → Post' value l) :
    Safe d t p l Post' := by
  have same : Safe d t (p.bind .done) l Post' := safe_then safe post
  rwa [Prog.bind_done] at same

/-- The rest of a thread's program is safe from its ghost state. -/
def StatusSafe (d : Discipline τ κ ν σ γ) (t : τ) (l : γ) : Status κ ν σ → Prop
  | .idle => d.Idle l
  | .running p => Safe d t p l fun _ l' => d.Idle l'
  | .waiting i next => ¬ d.Dead l ∧ ∀ w g, d.Inv w g → g t = l → w.locks i = none →
      ∃ l', d.Inv (w.take t i) (update g t l') ∧ Safe d t next l' fun _ l' => d.Idle l'

theorem StatusSafe.replaced {status : Status κ ν σ} (safe : StatusSafe d t l status)
    (dead : d.Dead l) (idle : d.Idle l') : StatusSafe d t l' status := by
  cases status with
  | idle => exact idle
  | running p =>
    cases p with
    | done value => exact idle
    | atomic note run next => exact absurd dead safe.1
    | acquire note i next => exact absurd dead safe.1
    | release i next => exact absurd dead safe.1
  | waiting i next => exact absurd dead safe.1

/-- What holds of a configuration throughout a run: the invariant, for ghost
state from which every thread's remaining program is safe. -/
def Disciplined (d : Discipline τ κ ν σ γ) (c : Config τ κ ν σ) (g : τ → γ) : Prop :=
  d.Inv c.world g ∧ ∀ t, StatusSafe d t (g t) (c.status t)

/-- What a step of thread `t` does. It leaves the locks of the others and the order they
rely on alone, and sleeps only above its own locks. -/
structure Moved (d : Discipline τ κ ν σ γ) (c : Config τ κ ν σ) (g : τ → γ) (t : τ)
    (w : World τ κ σ) (status : Status κ ν σ) (g' : τ → γ) : Prop where
  inv : d.Inv w g'
  others : ∀ u, u ≠ t → g' u = g u ∨ (d.Dead (g u) ∧ d.Idle (g' u))
  safe : StatusSafe d t (g' t) status
  locks : ∀ j u, u ≠ t → w.locks j = some u → c.world.locks j = some u
  stable : ∀ j u, c.world.locks j = some u → u ≠ t → ∀ i, d.Below c.world.shared j i →
    d.Below w.shared j i
  above : ∀ j i next, status = .waiting i next → w.locks j = some t → d.Below w.shared j i

theorem Disciplined.moves {c : Config τ κ ν σ} {g g' : τ → γ} (held : Disciplined d c g)
    (moved : Moved d c g t w status g') : Disciplined d (c.set w t status) g' := by
  refine ⟨moved.inv, fun u => ?_⟩
  by_cases here : u = t
  · subst here
    simpa [Config.set] using moved.safe
  · simp only [Config.set, update_of_ne here]
    rcases moved.others u here with same | ⟨dead, idle⟩
    · rw [same]
      exact held.2 u
    · exact (held.2 u).replaced dead idle

theorem Disciplined.moved {c : Config τ κ ν σ} {g : τ → γ} (held : Disciplined d c g)
    (safe : StatusSafe d t (g t) status)
    (above : ∀ j i next, status = .waiting i next → c.world.locks j = some t →
      d.Below c.world.shared j i) : Moved d c g t c.world status g :=
  ⟨held.1, fun _ _ => .inl rfl, safe, fun _ _ _ owned => owned, fun _ _ _ _ _ below => below,
    above⟩

theorem Moved.relock {c : Config τ κ ν σ} {g : τ → γ} {l' : γ} (inv : d.Inv w (update g t l'))
    (safe : Safe d t next l' fun _ l' => d.Idle l') (shared : w.shared = c.world.shared)
    (locks : ∀ j u, u ≠ t → w.locks j = some u → c.world.locks j = some u) :
    Moved d c g t w (.running next) (update g t l') := by
  refine ⟨inv, fun _ other => .inl (update_of_ne other _ _), ?_, locks, ?_, nofun⟩
  · rw [update_self]
    exact safe
  · rw [shared]
    exact fun _ _ _ _ _ below => below

omit [DecidableEq τ] in
theorem World.take_other {w : World τ κ σ} (other : u ≠ t) (owned : (w.take t i).locks j = some u) :
    w.locks j = some u := by
  by_cases here : j = i
  · subst here
    simp only [World.take, update_self, Option.some.injEq] at owned
    exact absurd owned.symm other
  · simpa [World.take, here] using owned

omit [DecidableEq τ] in
theorem World.drop_other {w : World τ κ σ} (owned : (w.drop i).locks j = some u) :
    w.locks j = some u := by
  by_cases here : j = i
  · subst here
    simp [World.drop] at owned
  · simpa [World.drop, here] using owned

theorem step_moved {c : Config τ κ ν σ} {g : τ → γ} (held : Disciplined d c g)
    (met : Meets d.Cond c (.step t : Event τ δ)) (ran : c.step t = .ok after) :
    after = c ∨ ∃ w status g', after = c.set w t status ∧ Moved d c g t w status g' := by
  have mine := held.2 t
  have took (i : κ) (next : Prog κ ν σ Int) (free : c.world.locks i = none)
      (safe : ∀ w g', d.Inv w g' → g' t = g t → w.locks i = none →
        ∃ l', d.Inv (w.take t i) (update g' t l') ∧ Safe d t next l' fun _ l' => d.Idle l') :
      ∃ g', Moved d c g t (c.world.take t i) (.running next) g' := by
    obtain ⟨l', inv, later⟩ := safe c.world g held.1 rfl free
    exact ⟨_, .relock inv later rfl fun _ _ => World.take_other⟩
  unfold Config.step at ran
  cases status : c.status t with
  | idle =>
    rw [status] at ran
    cases ran
    exact .inl rfl
  | waiting i next =>
    simp only [status] at ran
    rw [status] at mine
    cases locked : c.world.locks i with
    | none =>
      rw [locked] at ran
      cases ran
      obtain ⟨g', moved⟩ := took i next locked mine.2
      exact .inr ⟨_, _, g', rfl, moved⟩
    | some holder =>
      rw [locked] at ran
      cases ran
      exact .inl rfl
  | running p =>
    rw [status] at mine
    right
    cases p with
    | done value =>
      simp only [status] at ran
      cases ran
      exact ⟨_, _, g, rfl, held.moved mine nofun⟩
    | atomic note run next =>
      simp only [Meets, status, Status.note, Option.mem_def, Option.some.injEq, forall_eq'] at met
      simp only [status] at ran
      cases stepped : run c.world.shared with
      | error fault =>
        rw [stepped] at ran
        cases ran
      | ok result =>
        rw [stepped] at ran
        cases ran
        obtain ⟨g', inv, others, stable, later⟩ :=
          mine.2 c.world g held.1 rfl met result.1 result.2 stepped
        exact ⟨_, _, g', rfl, inv, others, later, fun _ _ _ owned => owned, stable, nofun⟩
    | acquire note i next =>
      simp only [Meets, status, Status.note, Option.mem_def, Option.some.injEq, forall_eq'] at met
      simp only [status] at ran
      cases locked : c.world.locks i with
      | none =>
        rw [locked] at ran
        cases ran
        obtain ⟨g', moved⟩ := took i next locked mine.2.2
        exact ⟨_, _, g', rfl, moved⟩
      | some holder =>
        rw [locked] at ran
        cases ran
        have above := mine.2.1 c.world g held.1 rfl met (by simp [locked])
        refine ⟨_, _, g, rfl, held.moved ⟨mine.1, mine.2.2⟩ ?_⟩
        rintro j _ _ ⟨⟩
        exact above j
    | release i next =>
      simp only [status] at ran
      split at ran
      · rename_i owned
        cases ran
        obtain ⟨l', inv, later⟩ := mine.2 c.world g held.1 rfl owned
        exact ⟨_, _, _, rfl, .relock inv later rfl fun _ _ _ => World.drop_other⟩
      · cases ran

/-- What a kernel has to show for its calls. -/
structure Kernel.Follows (k : Kernel τ κ ν σ δ) (d : Discipline τ κ ν σ γ) : Prop where
  init : ∀ s, k.Init s → ∃ g, d.Inv ⟨fun _ => none, s⟩ g ∧ ∀ t, d.Idle (g t)
  calls : ∀ w g t call, d.Inv w g → d.Idle (g t) → k.Callable w.shared t →
    Safe d t (k.program t call) (g t) fun _ l => d.Idle l

theorem init_disciplined {k : Kernel τ κ ν σ δ} (follows : k.Follows d)
    {c : Config τ κ ν σ} (start : k.system.Init c) : ∃ g, Disciplined d c g := by
  obtain ⟨init, free, idle⟩ := start
  obtain ⟨g, inv, quiet⟩ := follows.init _ init
  refine ⟨g, ?_, fun t => ?_⟩
  · have world : c.world = ⟨fun _ => none, c.world.shared⟩ := by
      cases shape : c.world with
      | mk locks shared =>
        rw [shape] at free
        simp only [World.mk.injEq, and_true]
        exact funext free
    rw [world]
    exact inv
  · rw [idle t]
    exact quiet t

theorem perform_moved {k : Kernel τ κ ν σ δ} (follows : k.Follows d)
    {c : Config τ κ ν σ} {g : τ → γ} (held : Disciplined d c g) (enabled : k.system.Enabled c e)
    (met : Meets d.Cond c e) (ran : k.system.perform c e = .ok after) :
    after = c ∨ ∃ w t status g', after = c.set w t status ∧ Moved d c g t w status g' := by
  cases e with
  | call t call =>
    obtain ⟨idle, callable⟩ := enabled
    cases ran
    have quiet := held.2 t
    rw [idle] at quiet
    exact .inr ⟨_, t, _, g, rfl,
      held.moved (follows.calls c.world g t call held.1 quiet callable) nofun⟩
  | step t =>
    refine (step_moved held met ran).imp_right ?_
    rintro ⟨w, status, g', set, moved⟩
    exact ⟨w, t, status, g', set, moved⟩

theorem run_disciplined {k : Kernel τ κ ν σ δ} (follows : k.Follows d)
    {c : Config τ κ ν σ} (run : k.system.Run (Meets d.Cond) c) : ∃ g, Disciplined d c g := by
  apply run.invariant
  · intro c start
    exact init_disciplined follows start
  · rintro c e after ⟨g, held⟩ enabled met ran
    rcases perform_moved follows held enabled met ran with rfl | ⟨w, t, status, g', rfl, moved⟩
    · exact ⟨g, held⟩
    · exact ⟨g', held.moves moved⟩

/-! ## No waiting in a circle -/

def Blocks (c : Config τ κ ν σ) (j i : κ) : Prop :=
  ∃ t next, c.world.locks j = some t ∧ c.status t = .waiting i next

/-- Every sleeping thread waits above all the locks it holds. -/
def Ordered (d : Discipline τ κ ν σ γ) (c : Config τ κ ν σ) : Prop :=
  ∀ j i, Blocks c j i → d.Below c.world.shared j i

theorem Ordered.moves {c : Config τ κ ν σ} (order : Ordered d c)
    (moved : Moved d c g t w status g') : Ordered d (c.set w t status) := by
  rintro j i ⟨u, next, owned, asleep⟩
  by_cases here : u = t
  · subst here
    simp only [Config.set, update_self] at asleep
    exact moved.above j i next asleep owned
  · simp only [Config.set, update_of_ne here] at asleep
    have before := moved.locks j u here owned
    exact moved.stable j u before here i (order j i ⟨u, next, before, asleep⟩)

theorem run_ordered {k : Kernel τ κ ν σ δ} (follows : k.Follows d)
    {c : Config τ κ ν σ} (run : k.system.Run (Meets d.Cond) c) :
    (∃ g, Disciplined d c g) ∧ Ordered d c := by
  apply run.invariant
  · intro c start
    refine ⟨init_disciplined follows start, ?_⟩
    rintro j i ⟨t, _, owned, _⟩
    rw [start.2.1 j] at owned
    cases owned
  · rintro c e after ⟨⟨g, held⟩, order⟩ enabled met ran
    rcases perform_moved follows held enabled met ran with rfl | ⟨w, t, status, g', rfl, moved⟩
    · exact ⟨⟨g, held⟩, order⟩
    · exact ⟨⟨g', held.moves moved⟩, order.moves moved⟩

omit [DecidableEq κ] [DecidableEq τ] in
theorem blocks_of_waits {c : Config τ κ ν σ} (path : Relation.TransGen (Waits c) t u)
    (first : c.status t = .waiting i next) (last : c.status u = .waiting j rest) :
    Relation.TransGen (Blocks c) i j := by
  induction path generalizing j rest with
  | single edge =>
    obtain ⟨k, asleep, sleeping, owned⟩ := edge
    rw [first] at sleeping
    cases sleeping
    exact Relation.TransGen.single ⟨_, rest, owned, last⟩
  | tail _ edge ih =>
    obtain ⟨k, asleep, sleeping, owned⟩ := edge
    exact (ih sleeping).tail ⟨_, rest, owned, last⟩

omit [DecidableEq κ] [DecidableEq τ] in
theorem Ordered.no_cycle {c : Config τ κ ν σ} (order : Ordered d c) (rank : κ → Nat)
    (rises : ∀ j i k, d.Below c.world.shared j i → d.Below c.world.shared i k → rank j < rank i) :
    ¬ Relation.TransGen (Waits c) t t := by
  intro circle
  have climbs : ∀ j i, Relation.TransGen (Blocks c) j i → ∀ k, Blocks c i k → rank j < rank i := by
    intro j i path
    induction path with
    | single edge => exact fun k onward => rises _ _ k (order _ _ edge) (order _ _ onward)
    | tail _ edge ih =>
      exact fun k onward =>
        (ih _ edge).trans (rises _ _ k (order _ _ edge) (order _ _ onward))
  obtain ⟨u, ⟨i, next, asleep, _⟩, _⟩ := Relation.TransGen.head'_iff.mp circle
  have path := blocks_of_waits circle asleep asleep
  obtain ⟨k, edge, _⟩ := Relation.TransGen.head'_iff.mp path
  exact absurd (climbs i i path k edge) (lt_irrefl _)

/-! ## One call after another -/

/-- Whole calls, each run alone to its end. -/
def Kernel.serial (k : Kernel τ κ ν σ δ) : System (World τ κ σ) (τ × δ) where
  Init w := k.Init w.shared ∧ ∀ i, w.locks i = none
  Enabled w e := k.Callable w.shared e.1
  perform w e := do return (← (k.program e.1 e.2).exec e.1 w).2

instance (k : Kernel τ κ ν σ δ) [∀ s t, Decidable (k.Callable s t)] (w : World τ κ σ)
    (e : τ × δ) : Decidable (k.serial.Enabled w e) :=
  inferInstanceAs (Decidable (k.Callable w.shared e.1))

def quiet (w : World τ κ σ) : Config τ κ ν σ := ⟨w, fun _ => .idle⟩

def during (w : World τ κ σ) (t : τ) (status : Status κ ν σ) : Config τ κ ν σ :=
  (quiet w).set w t status

omit [DecidableEq κ] in
@[simp] theorem during_set {w w' : World τ κ σ} {status status' : Status κ ν σ} :
    (during w t status).set w' t status' = during w' t status' := by
  simp [during, quiet, Config.set]

omit [DecidableEq κ] in
@[simp] theorem during_idle {w : World τ κ σ} :
    during w t (.idle : Status κ ν σ) = quiet w := by
  simp [during, quiet, Config.set]

omit [DecidableEq κ] in
@[simp] theorem during_status {w : World τ κ σ} {status : Status κ ν σ} :
    (during w t status).status t = status := by
  simp [during, Config.set]

omit [DecidableEq κ] in
@[simp] theorem during_world {w : World τ κ σ} {status : Status κ ν σ} :
    (during w t status).world = w := rfl

theorem run_exec {k : Kernel τ κ ν σ δ} {p : Prog κ ν σ Int}
    (run : k.system.Run (fun _ _ => True) (during w t (.running p)))
    (ran : p.exec t w = .ok (value, after)) :
    k.system.Run (fun _ _ => True) (quiet after) := by
  have onward : ∀ {w : World τ κ σ} {p : Prog κ ν σ Int} {c : Config τ κ ν σ},
      k.system.Run (fun _ _ => True) (during w t (.running p)) →
      (during w t (.running p)).step t = .ok c → k.system.Run (fun _ _ => True) c := by
    intro w p c run stepped
    refine System.Run.step (e := Event.step t) run ?_ trivial stepped
    simp [Kernel.system]
  induction p generalizing w with
  | done v =>
    cases ran
    have stepped := onward run (by simp only [Config.step, during_status]; rfl)
    simpa using stepped
  | atomic note step next ih =>
    simp only [Prog.exec] at ran
    cases stepped : step w.shared with
    | error fault =>
      rw [stepped] at ran
      cases ran
    | ok result =>
      rw [stepped] at ran
      have later := onward run (c := during { w with shared := result.2 } t
        (.running (next result.1)))
        (by simp only [Config.step, during_status, during_set, during_world, stepped])
      exact ih result.1 later ran
  | acquire note i next ih =>
    simp only [Prog.exec] at ran
    cases locked : w.locks i with
    | some holder =>
      rw [locked] at ran
      cases ran
    | none =>
      rw [locked] at ran
      have later := onward run (c := during (w.take t i) t (.running next))
        (by simp only [Config.step, during_status, during_set, during_world, locked])
      exact ih later ran
  | release i next ih =>
    simp only [Prog.exec] at ran
    split at ran
    · rename_i owned
      have later := onward run (c := during (w.drop i) t (.running next))
        (by simp only [Config.step, during_status, during_set, during_world, owned, if_true])
      exact ih later ran
    · cases ran

theorem run_serial {k : Kernel τ κ ν σ δ} (run : k.serial.Run ok w) :
    k.system.Run (fun _ _ => True) (quiet w) := by
  induction run with
  | start init => exact System.Run.start ⟨init.1, init.2, fun _ => rfl⟩
  | @step w e after _ callable _ ran interleaved =>
    obtain ⟨⟨value, ended⟩, exec, final⟩ := bind_eq_ok.mp ran
    cases final
    refine run_exec (t := e.1) (p := k.program e.1 e.2) ?_ exec
    exact interleaved.step (e := Event.call e.1 e.2) ⟨rfl, callable⟩ trivial rfl

end
end Xv6.LockProgram
