import Mathlib.Logic.Function.Basic
import Mathlib.Tactic.Common
import Xv6.CheckedC

/-! Programs over volatile memory and a disk of atomic blocks, and a logic of
crashes for them. A block write is the only step a crash can fall between, so a
program has one crash point before its first write and one after each. The
weakest precondition `wp` demands a condition at every crash point beside the
postcondition. A recovery program that keeps a crash condition at its own crash
points may itself be cut short any number of times. -/
namespace Xv6.DiskProgram
open CheckedC

/-- What survives a crash: the blocks, with a count of the writes made. -/
structure Platter (κ β : Type) where
  block : κ → β
  writes : Nat

structure World (σ κ β : Type) where
  mem : σ
  platter : Platter κ β

/-- One block write reaches the disk. -/
def Platter.write [DecidableEq κ] (p : Platter κ β) (b : κ) (v : β) : Platter κ β :=
  { block := Function.update p.block b v, writes := p.writes + 1 }

inductive Prog (σ κ β α : Type) where
  | done (value : α)
  | fail (fault : Fault)
  | get (next : σ → Prog σ κ β α)
  | set (mem : σ) (next : Prog σ κ β α)
  | read (b : κ) (next : β → Prog σ κ β α)
  | write (b : κ) (v : β) (next : Prog σ κ β α)

namespace Prog

def bind (p : Prog σ κ β α) (next : α → Prog σ κ β γ) : Prog σ κ β γ :=
  match p with
  | done value => next value
  | fail fault => fail fault
  | get rest => get fun mem => bind (rest mem) next
  | set mem rest => set mem (bind rest next)
  | read b rest => read b fun v => bind (rest v) next
  | write b v rest => write b v (bind rest next)

instance : Monad (Prog σ κ β) where
  pure := done
  bind := bind

def getMem : Prog σ κ β σ := get done

def setMem (mem : σ) : Prog σ κ β Unit := set mem (done ())

def readBlock (b : κ) : Prog σ κ β β := read b done

def writeBlock (b : κ) (v : β) : Prog σ κ β Unit := write b v (done ())

/-- A computation in memory, with its faults. -/
def check : Checked α → Prog σ κ β α
  | .ok value => done value
  | .error fault => fail fault

/-- `rounds` turns of a counted loop whose counter starts at `i`. -/
def turns (body : Int → Prog σ κ β Unit) : Nat → Int → Prog σ κ β Unit
  | 0, _ => done ()
  | rounds + 1, i => bind (body i) fun _ => turns body rounds (i + 1)

/-- `for(i = lo; i < hi; i++) body`, for a bound the body does not change. -/
def forLoop (lo hi : Int) (body : Int → Prog σ κ β Unit) : Prog σ κ β Unit :=
  turns body (hi - lo).toNat lo

variable [DecidableEq κ]

/-- The run to the end. -/
def exec : Prog σ κ β α → World σ κ β → Checked (α × World σ κ β)
  | done value, w => .ok (value, w)
  | fail fault, _ => .error fault
  | get next, w => exec (next w.mem) w
  | set mem next, w => exec next { w with mem := mem }
  | read b next, w => exec (next (w.platter.block b)) w
  | write b v next, w => exec next { w with platter := w.platter.write b v }

/-- The disks a crash can leave, in the order the program passes through them. -/
def crashPoints : Prog σ κ β α → World σ κ β → List (Platter κ β)
  | done _, w => [w.platter]
  | fail _, w => [w.platter]
  | get next, w => crashPoints (next w.mem) w
  | set mem next, w => crashPoints next { w with mem := mem }
  | read b next, w => crashPoints (next (w.platter.block b)) w
  | write b v next, w =>
    w.platter :: crashPoints next { w with platter := w.platter.write b v }

/-- The program ends without a fault in `Post`, and `Crash` holds at every crash
point on the way. -/
def wp (Crash : Platter κ β → Prop) : Prog σ κ β α → (α → World σ κ β → Prop) →
    World σ κ β → Prop
  | done value, Post, w => Post value w ∧ Crash w.platter
  | fail _, _, _ => False
  | get next, Post, w => wp Crash (next w.mem) Post w
  | set mem next, Post, w => wp Crash next Post { w with mem := mem }
  | read b next, Post, w => wp Crash (next (w.platter.block b)) Post w
  | write b v next, Post, w =>
    Crash w.platter ∧ wp Crash next Post { w with platter := w.platter.write b v }

/-! ## Rules -/

variable {Crash Crash' : Platter κ β → Prop} {w : World σ κ β}

@[simp] theorem wp_pure {Post : α → World σ κ β → Prop} :
    wp Crash (pure value) Post w ↔ Post value w ∧ Crash w.platter := Iff.rfl

@[simp] theorem wp_getMem {Post : σ → World σ κ β → Prop} :
    wp Crash getMem Post w ↔ Post w.mem w ∧ Crash w.platter := Iff.rfl

@[simp] theorem wp_setMem {Post : Unit → World σ κ β → Prop} :
    wp Crash (setMem mem) Post w ↔ Post () { w with mem := mem } ∧ Crash w.platter := Iff.rfl

@[simp] theorem wp_readBlock {Post : β → World σ κ β → Prop} :
    wp Crash (readBlock b) Post w ↔ Post (w.platter.block b) w ∧ Crash w.platter := Iff.rfl

@[simp] theorem wp_writeBlock {Post : Unit → World σ κ β → Prop} :
    wp Crash (writeBlock b v) Post w ↔
      Crash w.platter ∧ Post () { w with platter := w.platter.write b v } ∧
        Crash (w.platter.write b v) := Iff.rfl

theorem wp_check {computed : Checked α} {Post : α → World σ κ β → Prop}
    (ends : computed = .ok value) (here : Crash w.platter) (post : Post value w) :
    wp Crash (check computed) Post w := by
  subst ends
  exact ⟨post, here⟩

theorem wp_bind {p : Prog σ κ β α} {next : α → Prog σ κ β γ} {Post : γ → World σ κ β → Prop}
    (first : wp Crash p (fun value => wp Crash (next value) Post) w) :
    wp Crash (p >>= next) Post w := by
  induction p generalizing w with
  | done value => exact first.1
  | fail fault => exact first
  | get rest ih => exact ih w.mem first
  | set mem rest ih => exact ih first
  | read b rest ih => exact ih (w.platter.block b) first
  | write b v rest ih => exact ⟨first.1, ih first.2⟩

theorem wp_mono {p : Prog σ κ β α} {Post Post' : α → World σ κ β → Prop}
    (ran : wp Crash p Post w) (crash : ∀ q, Crash q → Crash' q)
    (post : ∀ value w, Post value w → Post' value w) : wp Crash' p Post' w := by
  induction p generalizing w with
  | done value => exact ⟨post value w ran.1, crash _ ran.2⟩
  | fail fault => exact ran
  | get rest ih => exact ih w.mem ran
  | set mem rest ih => exact ih ran
  | read b rest ih => exact ih (w.platter.block b) ran
  | write b v rest ih => exact ⟨crash _ ran.1, ih ran.2⟩

private theorem wp_turns (Inv : Int → World σ κ β → Prop) (body : Int → Prog σ κ β Unit)
    (rounds : Nat) (lo : Int) (start : Inv lo w)
    (safe : ∀ i w, lo ≤ i → i ≤ lo + rounds → Inv i w → Crash w.platter)
    (step : ∀ i w, lo ≤ i → i < lo + rounds → Inv i w →
      wp Crash (body i) (fun _ => Inv (i + 1)) w) :
    wp Crash (turns body rounds lo) (fun _ => Inv (lo + rounds)) w := by
  induction rounds generalizing lo w with
  | zero => exact ⟨by simpa using start, safe lo w (le_refl lo) (by omega) start⟩
  | succ rounds ih =>
    refine wp_bind (wp_mono (step lo w (le_refl lo) (by omega) start) (fun _ => id) ?_)
    intro _ middle held
    rw [show lo + ((rounds + 1 : Nat) : Int) = lo + 1 + (rounds : Int) by push_cast; omega]
    exact ih (lo + 1) held
      (fun i w low high => safe i w (by omega) (by push_cast; omega))
      (fun i w low high => step i w (by omega) (by push_cast; omega))

theorem wp_forLoop (Inv : Int → World σ κ β → Prop) (lo hi : Int)
    (body : Int → Prog σ κ β Unit) (ordered : lo ≤ hi) (start : Inv lo w)
    (safe : ∀ i w, lo ≤ i → i ≤ hi → Inv i w → Crash w.platter)
    (step : ∀ i w, lo ≤ i → i < hi → Inv i w → wp Crash (body i) (fun _ => Inv (i + 1)) w) :
    wp Crash (forLoop lo hi body) (fun _ => Inv hi) w := by
  have reached := wp_turns Inv body (hi - lo).toNat lo start
    (fun i w low high => safe i w low (by omega)) (fun i w low high => step i w low (by omega))
  rwa [show lo + ((hi - lo).toNat : Int) = hi by omega] at reached

theorem wp_sound {p : Prog σ κ β α} {Post : α → World σ κ β → Prop} (ran : wp Crash p Post w) :
    (∃ value after, p.exec w = .ok (value, after) ∧ Post value after) ∧
      ∀ q ∈ p.crashPoints w, Crash q := by
  induction p generalizing w with
  | done value =>
    refine ⟨⟨value, w, rfl, ran.1⟩, fun q point => ?_⟩
    rw [List.mem_singleton.mp point]
    exact ran.2
  | fail fault => exact ran.elim
  | get rest ih => exact ih w.mem ran
  | set mem rest ih => exact ih ran
  | read b rest ih => exact ih (w.platter.block b) ran
  | write b v rest ih =>
    obtain ⟨ends, points⟩ := ih ran.2
    refine ⟨ends, fun q point => ?_⟩
    cases point with
    | head => exact ran.1
    | tail _ later => exact points q later

/-! ## Recovery -/

/-- Rebooting with memory `mem` and running `recover` until one run completes. -/
inductive Reruns (mem : σ) (recover : Prog σ κ β Unit) : Platter κ β → Platter κ β → Prop where
  | completes (ran : recover.exec ⟨mem, p⟩ = .ok ((), after)) :
      Reruns mem recover p after.platter
  | again (crashed : q ∈ recover.crashPoints ⟨mem, p⟩) (rest : Reruns mem recover q final) :
      Reruns mem recover p final

theorem reruns_post {mem : σ} {recover : Prog σ κ β Unit} (Post : Platter κ β → Prop)
    (keeps : ∀ p, Crash p → wp Crash recover (fun _ w => Post w.platter) ⟨mem, p⟩)
    (reruns : Reruns mem recover p final) (crashed : Crash p) : Post final := by
  induction reruns with
  | completes ran =>
    obtain ⟨⟨value, after, ends, post⟩, _⟩ := wp_sound (keeps _ crashed)
    rw [ran] at ends
    cases ends
    exact post
  | again point rest ih =>
    obtain ⟨_, points⟩ := wp_sound (keeps _ crashed)
    exact ih (points _ point)

theorem reruns_exists {mem : σ} {recover : Prog σ κ β Unit} {Post : Unit → World σ κ β → Prop}
    (ran : wp Crash recover Post ⟨mem, p⟩) : ∃ final, Reruns mem recover p final := by
  obtain ⟨⟨value, after, ends, _⟩, _⟩ := wp_sound ran
  exact ⟨after.platter, Reruns.completes ends⟩

end Prog
end Xv6.DiskProgram
