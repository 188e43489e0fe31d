import Xv6.BufferCache
import Xv6.Tally

/-! The shape of the buffer cache: one buffer a block, all of them in the list,
reference counts that count who uses a buffer or waits for it. It keeps every buffer
in place while it is used or dirty. -/
namespace Xv6.CacheShape
open CheckedC LinkedRing StepSystem Tally BufferCache Function

/-! ## Shape -/

/-- The references to `b` of a process that does not have its lock. -/
def pending (b : BufId) : Act → Int
  | .locks _ _ c | .drops c => if c = b then 1 else 0
  | _ => 0

def InBread (b : BufId) : Act → Prop
  | .checks _ _ c | .reads _ _ c => c = b
  | _ => False

section
variable {P D : Type} {s after : State P D}

/-- What a process in one of the functions relies on. -/
def Fits (s : State P D) (p : P) : Act → Prop
  | .ready | .drops _ => True
  | .locks dev blockno b => (s.buf b).dev = dev ∧ (s.buf b).blockno = blockno
  | .checks dev blockno b =>
    ((s.buf b).dev = dev ∧ (s.buf b).blockno = blockno) ∧ (s.buf b).owner = some p
  | .reads dev blockno b =>
    ((s.buf b).dev = dev ∧ (s.buf b).blockno = blockno) ∧ (s.buf b).owner = some p ∧
      (s.buf b).valid = false
  | .writes b => (s.buf b).owner = some p ∧ (s.buf b).dirty = true

def locked (buf : Buf P D) : Int := if buf.owner.isSome then 1 else 0

theorem Fits.frame {buf : Buf P D} (fits : Fits s q act)
    (bufs : after.buf = update s.buf b buf)
    (key : pending b act ≠ 0 ∨ (s.buf b).owner = some q →
      buf.dev = (s.buf b).dev ∧ buf.blockno = (s.buf b).blockno)
    (owner : (s.buf b).owner = some q → buf.owner = some q ∧ buf.valid = (s.buf b).valid ∧
      ((s.buf b).dirty = true → buf.dirty = true)) : Fits after q act := by
  have here : after.buf b = buf := by rw [bufs, update_self]
  have there : ∀ c, c ≠ b → after.buf c = s.buf c := fun c other => by
    rw [bufs, update_of_ne other]
  cases act with
  | ready => trivial
  | drops c => trivial
  | locks dev blockno c =>
    by_cases same : c = b
    · subst same
      obtain ⟨device, block⟩ := key (.inl (by simp [pending]))
      simp only [Fits, here, device, block]
      exact fits
    · simpa only [Fits, there c same] using fits
  | checks dev blockno c =>
    by_cases same : c = b
    · subst same
      obtain ⟨device, block⟩ := key (.inr fits.2)
      simp only [Fits, here, device, block]
      exact ⟨fits.1, (owner fits.2).1⟩
    · simpa only [Fits, there c same] using fits
  | reads dev blockno c =>
    by_cases same : c = b
    · subst same
      obtain ⟨device, block⟩ := key (.inr fits.2.1)
      obtain ⟨mine, valid, _⟩ := owner fits.2.1
      simp only [Fits, here, device, block]
      exact ⟨fits.1, mine, valid.trans fits.2.2⟩
    · simpa only [Fits, there c same] using fits
  | writes c =>
    by_cases same : c = b
    · subst same
      obtain ⟨mine, _, dirty⟩ := owner fits.1
      simp only [Fits, here]
      exact ⟨mine, dirty fits.2⟩
    · simpa only [Fits, there c same] using fits

theorem Fits.others {buf : Buf P D} (fits : Fits s q act) (other : q ≠ p)
    (bufs : after.buf = update s.buf b buf)
    (owner : (s.buf b).owner = some p ∨ (s.buf b).owner = none)
    (key : buf.dev = (s.buf b).dev ∧ buf.blockno = (s.buf b).blockno) : Fits after q act := by
  refine fits.frame bufs (fun _ => key) fun theirs => ?_
  rcases owner with mine | free
  · rw [mine] at theirs
    exact absurd (Option.some.inj theirs).symm other
  · rw [free] at theirs
    cases theirs

theorem brelseEnd_eq (s : State P D) (b : BufId) :
    brelseEnd s b = { s with
      buf := update s.buf b { s.buf b with refcnt := (s.buf b).refcnt - 1 }
      links := if (s.buf b).refcnt - 1 = 0 then (s.links.unlink (some b)).linkFront none (some b)
        else s.links } := by
  by_cases last : (s.buf b).refcnt - 1 = 0 <;> simp [brelseEnd, State.setBuf, last]

theorem ideintr_buf (s : State P D) (b : BufId) : ∃ data, (ideintr s b).buf = update s.buf b
    { s.buf b with data := data, valid := true, dirty := false } := by
  by_cases dirty : (s.buf b).dirty = true
  · exact ⟨(s.buf b).data, by simp [ideintr, dirty, State.setBuf]⟩
  · exact ⟨s.disk (s.buf b).dev (s.buf b).blockno, by simp [ideintr, dirty, State.setBuf]⟩

variable [Fintype P]

structure Shape (s : State P D) : Prop where
  unique : ∀ b c, (s.buf b).dev = ROOTDEV → (s.buf c).dev = ROOTDEV →
    (s.buf b).blockno = (s.buf c).blockno → b = c
  linked : ∃ l : List BufId, Linked s.links none (l.map some) ∧ ∀ b, b ∈ l
  refs : ∀ b, (s.buf b).refcnt = locked (s.buf b) + tally (pending b) s.act
  acts : ∀ p, Fits s p (s.act p)
  used : ∀ b p, (s.buf b).owner = some p → (s.buf b).valid = true ∨ InBread b (s.act p)
  marked : ∀ b, (s.buf b).dirty = true → (s.buf b).valid = true
  unsaved : ∀ b, s.unsaved b = true → (s.buf b).valid = true ∧ (s.buf b).owner ≠ none

theorem pending_nonneg (b : BufId) (act : Act) : 0 ≤ pending b act := by
  unfold pending
  split
  · split <;> omega
  · split <;> omega
  · omega

theorem Shape.idle (shape : Shape s) (zero : (s.buf b).refcnt = 0) :
    (s.buf b).owner = none ∧ ∀ p, pending b (s.act p) = 0 := by
  have refs := shape.refs b
  have nonneg : 0 ≤ tally (pending b) s.act := tally_nonneg fun p => pending_nonneg b (s.act p)
  have share : 0 ≤ locked (s.buf b) := by
    unfold locked
    split <;> omega
  constructor
  · cases owner : (s.buf b).owner with
    | none => rfl
    | some p =>
      simp only [locked, owner, Option.isSome_some, if_true] at refs share
      omega
  · intro p
    have least := pending_nonneg b (s.act p)
    have most := le_tally (fun q => pending_nonneg b (s.act q)) p
    omega

theorem Shape.apart {buf : Buf P D} (shape : Shape s)
    (same : (s.buf b).dev = buf.dev ∧ (s.buf b).blockno = buf.blockno)
    (root : buf.dev = ROOTDEV) (c : BufId) (other : c ≠ b) (root' : (s.buf c).dev = ROOTDEV) :
    buf.blockno ≠ (s.buf c).blockno := by
  intro equal
  exact other (shape.unique b c (same.1.trans root) root' (same.2.trans equal)).symm

/-! ## Finding a buffer -/

theorem map_find? {found : BufId → Bool} (l : List BufId) :
    (l.map some).find? (onBuf found) = (l.find? found).map some := by
  induction l with
  | nil => rfl
  | cons b l ih =>
    rw [List.map_cons, List.find?_cons, List.find?_cons, onBuf]
    cases found b with
    | true => rfl
    | false => exact ih

theorem Shape.searches (shape : Shape s) (found : BufId → Bool) :
    ∃ l : List BufId, (∀ b, b ∈ l) ∧
      search s.links.next (onBuf found) none (NBUF + 1) (s.links.next none) =
        (l.find? found).map some ∧
      search s.links.prev (onBuf found) none (NBUF + 1) (s.links.prev none) =
        (l.reverse.find? found).map some := by
  obtain ⟨l, linked, all⟩ := shape.linked
  have distinct : l.Nodup := (List.nodup_cons.mp linked.distinct).2.of_map some
  have length : l.length < NBUF + 1 := by
    have bound := distinct.length_le_card
    rw [Fintype.card_fin] at bound
    omega
  refine ⟨l, all, ?_, ?_⟩
  · rw [← map_find?]
    exact search_path linked.forward (List.nodup_cons.mp linked.distinct).1 (by simpa using length)
  · rw [← map_find?]
    have backward := linked.backward
    rw [← List.map_reverse] at backward
    refine search_path backward (fun member => ?_) (by simpa using length)
    simp at member

theorem bget_spec (shape : Shape s) (found : bget s dev blockno = .ok (b, recycled)) :
    if recycled then (s.buf b).refcnt = 0 ∧ (s.buf b).dirty = false ∧
      ∀ c, (s.buf c).dev = dev → (s.buf c).blockno ≠ blockno
    else (s.buf b).dev = dev ∧ (s.buf b).blockno = blockno := by
  obtain ⟨l, all, forward, _⟩ := shape.searches
    fun b => (s.buf b).dev == dev && (s.buf b).blockno == blockno
  obtain ⟨m, _, _, backward⟩ := shape.searches fun b => (s.buf b).refcnt == 0 && !(s.buf b).dirty
  unfold bget at found
  rw [forward, backward] at found
  cases hit : l.find? fun b => (s.buf b).dev == dev && (s.buf b).blockno == blockno with
  | some c =>
    rw [hit] at found
    cases found
    have matched := List.find?_some hit
    simpa using matched
  | none =>
    rw [hit] at found
    cases free : m.reverse.find? fun b => (s.buf b).refcnt == 0 && !(s.buf b).dirty with
    | none =>
      rw [free] at found
      cases found
    | some c =>
      rw [free] at found
      cases found
      have matched := List.find?_some free
      simp only [Bool.and_eq_true, beq_iff_eq, Bool.not_eq_true'] at matched
      refine ⟨matched.1, matched.2, fun c dev blockno => ?_⟩
      have missed := List.find?_eq_none.mp hit c (all c)
      simp [dev, blockno] at missed

/-! ## Steps -/

variable [DecidableEq P]

section
variable (shape : Shape s)
include shape

theorem Shape.step {buf : Buf P D} {act : Act} {flag : Bool} (bufs : after.buf = update s.buf b buf)
    (acts : after.act = update s.act p act) (flags : after.unsaved = update s.unsaved b flag)
    (unique : buf.dev = ROOTDEV → ∀ c, c ≠ b → (s.buf c).dev = ROOTDEV →
      buf.blockno ≠ (s.buf c).blockno)
    (linked : ∃ l : List BufId, Linked after.links none (l.map some) ∧ ∀ b, b ∈ l)
    (count : buf.refcnt - locked buf - pending b act =
      (s.buf b).refcnt - locked (s.buf b) - pending b (s.act p))
    (elsewhere : ∀ c, c ≠ b → pending c act = pending c (s.act p))
    (own : Fits after p act) (others : ∀ q, q ≠ p → Fits s q (s.act q) → Fits after q (s.act q))
    (used : ∀ q, buf.owner = some q → buf.valid = true ∨ InBread b (after.act q))
    (stays : ∀ c, c ≠ b → InBread c (s.act p) → InBread c act)
    (marked : buf.dirty = true → buf.valid = true)
    (unsaved : flag = true → buf.valid = true ∧ buf.owner ≠ none) : Shape after := by
  have here : after.buf b = buf := by rw [bufs, update_self]
  have there : ∀ c, c ≠ b → after.buf c = s.buf c := fun c other => by
    rw [bufs, update_of_ne other]
  refine ⟨fun c d => ?_, linked, fun c => ?_, fun q => ?_, fun c q => ?_, fun c => ?_, fun c => ?_⟩
  · by_cases first : c = b <;> by_cases second : d = b
    · intro _ _ _
      rw [first, second]
    · rw [first, here, there d second]
      exact fun root root' same => absurd same (unique root d second root')
    · rw [second, here, there c first]
      exact fun root root' same => absurd same.symm (unique root' c first root)
    · rw [there c first, there d second]
      exact shape.unique c d
  · rw [acts, tally_update]
    have refs := shape.refs c
    by_cases same : c = b
    · subst same
      rw [here]
      omega
    · rw [there c same, elsewhere c same]
      omega
  · rw [acts]
    by_cases same : q = p
    · subst same
      rw [update_self]
      exact own
    · rw [update_of_ne same]
      exact others q same (shape.acts q)
  · by_cases same : c = b
    · subst same
      rw [here]
      exact used q
    · rw [there c same, acts]
      intro owner
      refine (shape.used c q owner).imp_right fun inside => ?_
      by_cases mine : q = p
      · subst mine
        rw [update_self]
        exact stays c same inside
      · rwa [update_of_ne mine]
  · by_cases same : c = b
    · subst same
      rw [here]
      exact marked
    · rw [there c same]
      exact shape.marked c
  · by_cases same : c = b
    · subst same
      rw [here, flags, update_self]
      exact unsaved
    · rw [there c same, flags, update_of_ne same]
      exact shape.unsaved c

theorem shape_bread (ready : s.act p = .ready)
    (ran : breadBegin s p dev blockno = .ok after) : Shape after := by
  obtain ⟨⟨b, recycled⟩, found, ends⟩ := bind_eq_ok.mp ran
  have spec := bget_spec shape found
  cases ends
  cases recycled with
  | false =>
    -- a buffer that is cached gets one more reference
    simp only [Bool.false_eq_true, if_false] at spec ⊢
    refine shape.step rfl rfl (update_eq_self b s.unsaved).symm
      (shape.apart ⟨rfl, rfl⟩) shape.linked ?_ ?_ ?_ ?_ ?_ ?_ (shape.marked b) (shape.unsaved b)
    · simp only [ready, pending, locked, if_true]
      omega
    · intro c other
      simp [ready, pending, Ne.symm other]
    · simpa [Fits, State.goto, State.setBuf] using spec
    · intro q _ fits
      exact fits.frame rfl (fun _ => ⟨rfl, rfl⟩) fun mine => ⟨mine, rfl, id⟩
    · intro q owner
      refine (shape.used b q owner).imp_right fun inside => ?_
      by_cases same : q = p
      · subst same
        rw [ready] at inside
        exact inside.elim
      · simpa only [State.goto, State.setBuf, update_of_ne same] using inside
    · intro c _ inside
      rw [ready] at inside
      exact inside.elim
  | true =>
    obtain ⟨zero, clean, missing⟩ := spec
    obtain ⟨unlocked, nobody⟩ := shape.idle zero
    have saved : s.unsaved b ≠ true := fun unsaved => (shape.unsaved b unsaved).2 unlocked
    refine shape.step rfl rfl (update_eq_self b s.unsaved).symm
      ?_ shape.linked ?_ ?_ ?_ ?_ ?_ ?_ nofun fun unsaved => absurd unsaved saved
    · intro root c _ root' same
      exact missing c (root'.trans root.symm) same.symm
    · simp [ready, pending, locked, unlocked, zero]
    · intro c other
      simp [ready, pending, Ne.symm other]
    · simp [Fits, State.goto, State.setBuf]
    · intro q _ fits
      refine fits.frame rfl (fun refers => ?_) fun mine => ?_
      · rcases refers with waits | mine
        · exact absurd (nobody q) waits
        · rw [unlocked] at mine
          cases mine
      · rw [unlocked] at mine
        cases mine
    · intro q owner
      simp only [unlocked] at owner
      cases owner
    · intro c _ inside
      rw [ready] at inside
      exact inside.elim

theorem shape_lock (at_ : s.act p = .locks dev blockno b) (free : (s.buf b).owner = none) :
    Shape ((s.setBuf b fun buf => { buf with owner := some p }).goto p (.checks dev blockno b)) := by
  have fits := shape.acts p
  rw [at_] at fits
  refine shape.step rfl rfl (update_eq_self b s.unsaved).symm
    (shape.apart ⟨rfl, rfl⟩) shape.linked ?_ ?_ ?_ ?_ ?_ ?_ (shape.marked b) ?_
  · simp [at_, pending, locked, free]
  · intro c other
    simp [at_, pending, Ne.symm other]
  · simpa [Fits, State.goto, State.setBuf] using fits
  · intro q other fits
    exact fits.others other rfl (.inr free) ⟨rfl, rfl⟩
  · rintro q ⟨⟩
    simp [State.goto, InBread]
  · intro c _ inside
    rw [at_] at inside
    exact inside.elim
  · exact fun unsaved => ⟨(shape.unsaved b unsaved).1, nofun⟩

theorem shape_check (at_ : s.act p = .checks dev blockno b)
    (ran : perform s (.check p) = .ok after) : Shape after := by
  have fits := shape.acts p
  rw [at_] at fits
  simp only [perform, at_] at ran
  have step : ∀ act, pending b act = 0 → (∀ c, c ≠ b → pending c act = 0) → Fits s p act →
      ((s.buf b).valid = true ∨ InBread b act) → Shape (s.goto p act) := by
    intro act none nowhere own used
    refine shape.step (update_eq_self b s.buf).symm rfl
      (update_eq_self b s.unsaved).symm (shape.apart ⟨rfl, rfl⟩) shape.linked ?_ ?_ own
      (fun _ _ => id) ?_ ?_ (shape.marked b) (shape.unsaved b)
    · rw [none, at_]
      rfl
    · intro c other
      rw [nowhere c other, at_]
      rfl
    · intro q owner
      rw [fits.2] at owner
      cases owner
      simpa only [State.goto, update_self] using used
    · intro c other inside
      rw [at_] at inside
      exact absurd inside.symm other
  split at ran
  · rename_i valid
    cases ran
    exact step .ready rfl (fun _ _ => rfl) trivial (.inl valid)
  · rename_i invalid
    obtain ⟨_, _, ends⟩ := bind_eq_ok.mp ran
    cases ends
    refine step (.reads dev blockno b) rfl (fun _ _ => rfl) ⟨fits.1, fits.2, ?_⟩ (.inr rfl)
    simpa using invalid

theorem shape_io (owner : (s.buf b).owner = some p)
    (none : ∀ c, pending c (s.act p) = 0) (inside : ∀ c, InBread c (s.act p) → c = b) :
    Shape ((ideintr s b).goto p .ready) := by
  have acts : ((ideintr s b).goto p .ready).act = update s.act p .ready := by
    simp only [ideintr, State.goto, State.setBuf]
    split <;> rfl
  have flags : ((ideintr s b).goto p .ready).unsaved = s.unsaved := by
    simp only [ideintr, State.goto, State.setBuf]
    split <;> rfl
  have links : ((ideintr s b).goto p .ready).links = s.links := by
    simp only [ideintr, State.goto, State.setBuf]
    split <;> rfl
  obtain ⟨data, bufs⟩ := ideintr_buf s b
  refine shape.step bufs acts (flags.trans (update_eq_self b s.unsaved).symm)
    (shape.apart ⟨rfl, rfl⟩) (by rw [links]; exact shape.linked) ?_ ?_ trivial ?_ ?_ ?_ nofun ?_
  · rw [none b]
    rfl
  · intro c _
    rw [none c]
    rfl
  · intro q other fits
    exact fits.others other bufs (.inl owner) ⟨rfl, rfl⟩
  · exact fun _ _ => .inl rfl
  · exact fun c other was => absurd (inside c was) other
  · exact fun unsaved => ⟨rfl, (shape.unsaved b unsaved).2⟩

theorem Shape.writes {buf : Buf P D} (uses : Uses s p b)
    (bufs : after.buf = update s.buf b buf) (acts : after.act = update s.act p act)
    (flags : after.unsaved = update s.unsaved b flag) (links : after.links = s.links)
    (key : buf.dev = (s.buf b).dev ∧ buf.blockno = (s.buf b).blockno)
    (refcnt : buf.refcnt = (s.buf b).refcnt) (owner : buf.owner = (s.buf b).owner)
    (valid : buf.valid = (s.buf b).valid) (none : ∀ c, pending c act = 0) (own : Fits after p act) :
    Shape after := by
  obtain ⟨ready, mine⟩ := uses
  have true_ : buf.valid = true := by
    rw [valid]
    refine (shape.used b p mine).resolve_right fun inside => ?_
    rw [ready] at inside
    exact inside
  refine shape.step bufs acts flags (shape.apart ⟨key.1.symm, key.2.symm⟩)
    (by rw [links]; exact shape.linked) ?_ ?_ own ?_ (fun _ _ => .inl true_) ?_ (fun _ => true_) ?_
  · have share : locked buf = locked (s.buf b) := by simp only [locked, owner]
    rw [share, refcnt, none b, ready]
    rfl
  · intro c _
    rw [none c, ready]
    rfl
  · intro q other fits
    exact fits.others other bufs (.inl mine) key
  · intro c _ inside
    rw [ready] at inside
    exact inside.elim
  · intro _
    refine ⟨true_, ?_⟩
    rw [owner, mine]
    nofun

theorem shape_brelse (uses : Uses s p b) (saved : s.unsaved b = false)
    (ran : brelse s p b = .ok after) : Shape after := by
  obtain ⟨ready, mine⟩ := uses
  unfold brelse at ran
  rw [if_neg (fun lost => lost mine)] at ran
  cases ran
  refine shape.step rfl rfl (update_eq_self b s.unsaved).symm
    (shape.apart ⟨rfl, rfl⟩) shape.linked ?_ ?_ trivial ?_ nofun ?_ (shape.marked b) ?_
  · simp [ready, pending, locked, mine]
  · intro c other
    simp [ready, pending, Ne.symm other]
  · intro q other fits
    exact fits.others other rfl (.inl mine) ⟨rfl, rfl⟩
  · intro c _ inside
    rw [ready] at inside
    exact inside.elim
  · rw [saved]
    nofun

end

theorem linked_moved (linked : Linked k none ((l : List BufId).map some)) (member : b ∈ l) :
    ∃ m : List BufId, Linked ((k.unlink (some b)).linkFront none (some b)) none (m.map some) ∧
      ∀ c, c ∈ l → c ∈ m := by
  obtain ⟨before, behind, rfl⟩ := List.append_of_mem member
  rw [List.map_append, List.map_cons] at linked
  have distinct := linked.distinct
  refine ⟨b :: (before ++ behind), ?_, fun c inside => ?_⟩
  · rw [List.map_cons, List.map_append]
    refine linked_linkFront (linked_unlink linked) fun again => ?_
    have parts := (List.nodup_cons.mp distinct).2
    rcases List.mem_cons.mp again with impossible | twice
    · cases impossible
    · refine (List.nodup_middle.mp parts).notMem ?_
      exact twice
  · simp only [List.mem_append, List.mem_cons] at inside ⊢
    tauto

theorem shape_drop (shape : Shape s) (at_ : s.act p = .drops b) :
    Shape ((brelseEnd s b).goto p .ready) := by
  rw [brelseEnd_eq]
  refine shape.step rfl rfl (update_eq_self b s.unsaved).symm
    (shape.apart ⟨rfl, rfl⟩) ?_ ?_ ?_ trivial ?_ ?_ ?_ (shape.marked b) (shape.unsaved b)
  · obtain ⟨l, linked, all⟩ := shape.linked
    split
    · obtain ⟨m, moved, kept⟩ := linked_moved linked (all b)
      exact ⟨m, moved, fun c => kept c (all c)⟩
    · exact ⟨l, linked, all⟩
  · simp only [at_, pending, locked, if_true]
    omega
  · intro c other
    simp [at_, pending, Ne.symm other]
  · intro q _ fits
    exact fits.frame rfl (fun _ => ⟨rfl, rfl⟩) fun mine => ⟨mine, rfl, id⟩
  · intro q owner
    refine (shape.used b q owner).imp_right fun inside => ?_
    by_cases same : q = p
    · subst same
      rw [at_] at inside
      exact inside.elim
    · simpa only [State.goto, update_of_ne same] using inside
  · intro c _ inside
    rw [at_] at inside
    exact inside.elim

end

theorem Shape.congr [Fintype P] {s after : State P D} (shape : Shape s) (bufs : after.buf = s.buf)
    (links : after.links = s.links) (acts : after.act = s.act) (unsaved : after.unsaved = s.unsaved) :
    Shape after := by
  cases after
  cases bufs
  cases links
  cases acts
  cases unsaved
  exact ⟨shape.unique, shape.linked, shape.refs, shape.acts, shape.used, shape.marked, shape.unsaved⟩

end Xv6.CacheShape
