import Xv6.InodeSteps

/-! Link counts and directory entries of a disk. An inode is counted once for
every ordinary entry that names it and once for every directory it has an
ordinary entry for, whose ".." leads back. The law relates this to `nlink`, with
what a call still owes in the middle of its work, and every change a call makes
to the disk keeps it. -/
namespace Xv6.LinkLaw
open FileSystem SysFile Ownership Tally Function

/-! ## Counting entries -/

/-- A live entry for the inode under a name other than the dots. -/
def Names (i : Inum) (e : Dirent) : Prop := e.inum = i ∧ i ≠ 0 ∧ Ordinary e.name

instance (i : Inum) (e : Dirent) : Decidable (Names i e) := inferInstanceAs (Decidable (_ ∧ _))

def nameOne (i : Inum) (e : Dirent) : Int := if Names i e then 1 else 0

def nameCount (i : Inum) (es : List Dirent) : Int := (es.map (nameOne i)).sum

/-- The ordinary entries for an inode, in all directories. -/
def names (d : Disk) (i : Inum) : Int := tally (nameCount i) d.entries

/-- The ordinary entries of a directory that are for directories. -/
def subdirs (d : Disk) (i : Inum) : Int :=
  ∑ a, if d.type a = .dir then nameCount a (d.entries i) else 0

/-- The root is its own parent. -/
def ownParent (i : Inum) : Int := if i = rootIno then 1 else 0

def up : List Dirent → Option Inum
  | _ :: e :: _ => some e.inum
  | _ => none

theorem nameOne_nonneg (i : Inum) (e : Dirent) : 0 ≤ nameOne i e := by
  unfold nameOne
  split <;> decide

theorem nameOne_dead (i : Inum) (name : Name) : nameOne i ⟨0, name⟩ = 0 := by
  rw [nameOne, if_neg]
  rintro ⟨same, live, _⟩
  exact live same.symm

theorem nameOne_dots (i : Inum) (e : Dirent) (dots : ¬ Ordinary e.name) : nameOne i e = 0 := by
  rw [nameOne, if_neg]
  exact fun named => dots named.2.2

@[simp] theorem nameCount_nil (i : Inum) : nameCount i [] = 0 := rfl

@[simp] theorem nameCount_cons (i : Inum) (e : Dirent) (es : List Dirent) :
    nameCount i (e :: es) = nameOne i e + nameCount i es := by
  simp [nameCount]

theorem nameCount_nonneg (i : Inum) (es : List Dirent) : 0 ≤ nameCount i es := by
  induction es with
  | nil => exact le_refl _
  | cons e es ih =>
    have first := nameOne_nonneg i e
    rw [nameCount_cons]
    omega

theorem nameCount_pos : 0 < nameCount i es ↔ ∃ e ∈ es, Names i e := by
  induction es with
  | nil => simp
  | cons e es ih =>
    have rest := nameCount_nonneg i es
    rw [nameCount_cons, List.exists_mem_cons_iff, ← ih, nameOne]
    split
    · rename_i named
      simp only [named, true_or, iff_true]
      omega
    · rename_i other
      simp only [other, false_or]
      omega

theorem nameCount_place (i : Inum) (e : Dirent) (es : List Dirent) :
    nameCount i (place e es) = nameCount i es + nameOne i e := by
  induction es with
  | nil => simp [place]
  | cons first rest ih =>
    unfold place
    split
    · rename_i dead
      have none : nameOne i first = 0 := by
        have shape : first = ⟨0, first.name⟩ := by rw [← dead]
        rw [shape, nameOne_dead]
      rw [nameCount_cons, nameCount_cons, none]
      omega
    · rw [nameCount_cons, nameCount_cons, ih]
      omega

theorem nameCount_set (i : Inum) (new : Dirent) (found : es[off]? = some old) :
    nameCount i (es.set off new) = nameCount i es - nameOne i old + nameOne i new := by
  induction es generalizing off with
  | nil => simp at found
  | cons first rest ih =>
    cases off with
    | zero =>
      simp only [List.getElem?_cons_zero, Option.some.injEq] at found
      rw [List.set_cons_zero, nameCount_cons, nameCount_cons, found]
      omega
    | succ off =>
      rw [List.set_cons_succ, nameCount_cons, nameCount_cons, ih found]
      omega

theorem nameCount_dots (dots : ∀ e ∈ es, ¬ Ordinary e.name) : nameCount i es = 0 := by
  have nonneg := nameCount_nonneg i es
  have none : ¬ 0 < nameCount i es := by
    rw [nameCount_pos]
    rintro ⟨e, member, named⟩
    exact dots e member named.2.2
  omega

theorem names_nonneg (d : Disk) (i : Inum) : 0 ≤ names d i :=
  tally_nonneg fun a => nameCount_nonneg i (d.entries a)

theorem nameCount_le_names (d : Disk) (i a : Inum) : nameCount i (d.entries a) ≤ names d i :=
  le_tally (fun a => nameCount_nonneg i (d.entries a)) a

theorem names_pos : 0 < names d i ↔ ∃ a, ∃ e ∈ d.entries a, Names i e := by
  constructor
  · intro positive
    by_contra absent
    have zero : names d i = 0 := by
      refine tally_eq_zero fun a => ?_
      have nonneg := nameCount_nonneg i (d.entries a)
      have none : ¬ 0 < nameCount i (d.entries a) := by
        rw [nameCount_pos]
        exact fun found => absent ⟨a, found⟩
      omega
    omega
  · rintro ⟨a, found⟩
    have one := nameCount_pos.mpr found
    have most := nameCount_le_names d i a
    omega

theorem subdirs_nonneg (d : Disk) (i : Inum) : 0 ≤ subdirs d i := by
  refine Finset.sum_nonneg fun a _ => ?_
  split
  · exact nameCount_nonneg a _
  · exact le_refl _

theorem subdirs_of_count {d' : Disk} (types : ∀ a, d'.type a = d.type a) (target : Inum) (n : Int)
    (count : ∀ a, nameCount a (d'.entries i) =
      nameCount a (d.entries i) + if a = target then n else 0) :
    subdirs d' i = subdirs d i + if d.type target = .dir then n else 0 := by
  have split : ∀ a, (if d'.type a = .dir then nameCount a (d'.entries i) else 0) =
      (if d.type a = .dir then nameCount a (d.entries i) else 0) +
        if a = target then (if d.type target = .dir then n else 0) else 0 := by
    intro a
    rw [types a, count a]
    by_cases here : a = target
    · subst here
      by_cases directory : d.type a = .dir <;> simp [directory]
    · by_cases directory : d.type a = .dir <;> simp [directory, here]
  unfold subdirs
  rw [Finset.sum_congr rfl fun a _ => split a, Finset.sum_add_distrib, Finset.sum_ite_eq']
  simp

theorem subdirs_congr {d' : Disk} (entries : d'.entries i = d.entries i)
    (types : ∀ a, nameCount a (d.entries i) ≠ 0 → (d'.type a = .dir ↔ d.type a = .dir)) :
    subdirs d' i = subdirs d i := by
  refine Finset.sum_congr rfl fun a _ => ?_
  rw [entries]
  by_cases none : nameCount a (d.entries i) = 0
  · simp [none]
  · simp only [types a none]

theorem le_subdirs (directory : d.type a = .dir) : nameCount a (d.entries i) ≤ subdirs d i := by
  have nonneg : ∀ a ∈ Finset.univ,
      0 ≤ if d.type a = .dir then nameCount a (d.entries i) else 0 := by
    intro a _
    split
    · exact nameCount_nonneg a _
    · exact le_refl _
  calc nameCount a (d.entries i)
      = if d.type a = .dir then nameCount a (d.entries i) else 0 := by rw [if_pos directory]
    _ ≤ subdirs d i := Finset.single_le_sum nonneg (Finset.mem_univ a)

/-! ## The law -/

/-- What relates the entries, types and link counts of a disk. `e` is an inode
that is being created and not entered yet. `pend i` says how far the link count of
`i` is ahead of its entries. If `exact`, links are lost nowhere and a directory
without a name is empty; if `tight`, no ".." dangles. -/
structure Law (exact tight : Prop) (e : Option Inum) (pend : Inum → Int) (d : Disk) : Prop where
  zero : d.type 0 = .free ∧ e ≠ some 0
  root : d.type rootIno = .dir ∧ e ≠ some rootIno ∧ up (d.entries rootIno) = some rootIno ∧
    names d rootIno = 0
  shape : ∀ a, e ≠ some a → d.type a = .dir → ∃ p rest,
    d.entries a = ⟨a, dot⟩ :: ⟨p, dotdot⟩ :: rest ∧ p ≠ 0 ∧
      (∀ x ∈ rest, x.inum ≠ 0 → Ordinary x.name) ∧ (tight → d.type p ≠ .free)
  plain : ∀ a, e ≠ some a → d.type a ≠ .dir → d.entries a = []
  embryo : ∀ a, e = some a → ∀ x ∈ d.entries a, ¬ Ordinary x.name
  live : ∀ i, 0 < names d i → d.type i ≠ .free ∧ e ≠ some i
  single : ∀ i, d.type i = .dir → names d i ≤ 1
  above : ∀ a i, 0 < nameCount i (d.entries a) → d.type i = .dir → up (d.entries i) = some a
  count : ∀ i, d.type i ≠ .free → e ≠ some i →
    names d i + subdirs d i + ownParent i + pend i ≤ d.nlink i ∧
    (exact → names d i + subdirs d i + ownParent i + pend i = d.nlink i)
  empty : exact → ∀ a, d.type a = .dir → e ≠ some a → a ≠ rootIno → names d a = 0 →
    ∀ i, nameCount i (d.entries a) = 0
  held : ∀ i, 0 < pend i → d.type i ≠ .free ∧ e ≠ some i

section
variable {exact tight : Prop} {e : Option Inum} {pend : Inum → Int} {d : Disk}

theorem ownParent_nonneg (i : Inum) : 0 ≤ ownParent i := by
  unfold ownParent
  split <;> decide

theorem elsewhere (unnamed : names d i = 0) (a : Inum) : nameCount i (d.entries a) = 0 := by
  have most := nameCount_le_names d i a
  have least := nameCount_nonneg i (d.entries a)
  omega

theorem Law.transfer {e' : Option Inum} {pend' : Inum → Int} {d' : Disk}
    (law : Law exact tight e pend d)
    (same : ∀ a, e' ≠ some a → e ≠ some a ∧ d'.type a = d.type a ∧ d'.entries a = d.entries a)
    (fresh : ∀ a, e' = some a → names d a = 0 ∧ a ≠ 0 ∧ a ≠ rootIno ∧
      (∀ x ∈ d.entries a, ¬ Ordinary x.name) ∧ ∀ x ∈ d'.entries a, ¬ Ordinary x.name)
    (used : ∀ p, d.type p ≠ .free → d'.type p ≠ .free)
    (count : ∀ i, e' ≠ some i → d'.nlink i - pend' i = d.nlink i - pend i)
    (held : ∀ i, 0 < pend' i → d.type i ≠ .free ∧ e' ≠ some i) :
    Law exact tight e' pend' d' := by
  have counts : ∀ j a, nameCount j (d'.entries a) = nameCount j (d.entries a) := by
    intro j a
    by_cases here : e' = some a
    · obtain ⟨_, _, _, before, after⟩ := fresh a here
      rw [nameCount_dots before, nameCount_dots after]
    · rw [(same a here).2.2]
  have named : ∀ j, names d' j = names d j := fun j => tally_congr fun a => counts j a
  have older : ∀ {j}, 0 < names d j → e' ≠ some j := by
    intro j positive here
    have none := (fresh j here).1
    omega
  have below : ∀ j, subdirs d' j = subdirs d j := by
    intro j
    refine Finset.sum_congr rfl fun a _ => ?_
    rw [counts a j]
    by_cases none : nameCount a (d.entries j) = 0
    · simp [none]
    · have least := nameCount_nonneg a (d.entries j)
      have most := nameCount_le_names d a j
      rw [(same a (older (by omega))).2.1]
  refine ⟨?_, ?_, ?_, ?_, ?_, ?_, ?_, ?_, ?_, ?_, ?_⟩
  · have other : e' ≠ some 0 := fun here => (fresh 0 here).2.1 rfl
    rw [(same 0 other).2.1]
    exact ⟨law.zero.1, other⟩
  · have other : e' ≠ some rootIno := fun here => (fresh rootIno here).2.2.1 rfl
    obtain ⟨directory, _, parent, nameless⟩ := law.root
    rw [(same rootIno other).2.1, (same rootIno other).2.2, named]
    exact ⟨directory, other, parent, nameless⟩
  · intro a other directory
    obtain ⟨before, type, entries⟩ := same a other
    rw [type] at directory
    obtain ⟨p, rest, shape, live, ordinary, kept⟩ := law.shape a before directory
    exact ⟨p, rest, entries.trans shape, live, ordinary, fun tightly => used p (kept tightly)⟩
  · intro a other kind
    obtain ⟨before, type, entries⟩ := same a other
    rw [type] at kind
    exact entries.trans (law.plain a before kind)
  · exact fun a here => (fresh a here).2.2.2.2
  · intro j positive
    rw [named] at positive
    exact ⟨used j (law.live j positive).1, older positive⟩
  · intro j directory
    rw [named]
    by_cases here : e' = some j
    · rw [(fresh j here).1]
      decide
    · rw [(same j here).2.1] at directory
      exact law.single j directory
  · intro a j positive directory
    rw [counts] at positive
    have most := nameCount_le_names d j a
    obtain ⟨_, type, entries⟩ := same j (older (by omega))
    rw [type] at directory
    rw [entries]
    exact law.above a j positive directory
  · intro j typed other
    obtain ⟨before, type, _⟩ := same j other
    rw [type] at typed
    have law := law.count j typed before
    have shift := count j other
    rw [named, below]
    refine ⟨by omega, fun exactly => ?_⟩
    have equal := law.2 exactly
    omega
  · intro exactly a directory other notRoot nameless j
    obtain ⟨before, type, _⟩ := same a other
    rw [type] at directory
    rw [named] at nameless
    rw [counts]
    exact law.empty exactly a directory before notRoot nameless j
  · intro j positive
    have before := held j positive
    exact ⟨used j before.1, before.2⟩

theorem setNlink_nlink (d : Disk) (i j : Inum) (n : Int) :
    (d.setNlink i n).nlink j = if j = i then n else d.nlink j := by
  by_cases here : j = i <;> simp [here, Disk.setNlink, Disk.nlink]

theorem Law.embryo_fresh (law : Law exact tight (some i) pend d) :
    names d i = 0 ∧ i ≠ 0 ∧ i ≠ rootIno := by
  have least := names_nonneg d i
  have none : ¬ 0 < names d i := fun positive => (law.live i positive).2 rfl
  exact ⟨by omega, fun here => law.zero.2 (by rw [here]), fun here => law.root.2.1 (by rw [here])⟩

theorem Law.addNlink (law : Law exact tight e pend d)
    (used : 0 < pend i + n → d.type i ≠ .free ∧ e ≠ some i) :
    Law exact tight e (update pend i (pend i + n)) (d.setNlink i (d.nlink i + n)) := by
  have types := fun j => setNlink_type (d := d) i j (d.nlink i + n)
  refine law.transfer (fun a other => ⟨other, types a, rfl⟩) ?_ (fun p kept => by rw [types p]; exact kept)
    ?_ ?_
  · rintro a rfl
    obtain ⟨unnamed, nonzero, notRoot⟩ := law.embryo_fresh
    exact ⟨unnamed, nonzero, notRoot, law.embryo a rfl, law.embryo a rfl⟩
  · intro j _
    rw [setNlink_nlink]
    by_cases here : j = i
    · subst here
      simp only [if_true, update_self]
      omega
    · simp only [if_neg here, update_of_ne here]
  · intro j positive
    by_cases here : j = i
    · subst here
      rw [update_self] at positive
      exact used positive
    · rw [update_of_ne here] at positive
      exact law.held j positive

theorem release_entries (d : Disk) (i j : Inum) :
    (d.release i).entries j = if j = i then [] else d.entries j := by
  by_cases here : j = i <;> simp [here, Disk.release]

theorem release_nlink (d : Disk) (i j : Inum) : (d.release i).nlink j = d.nlink j := by
  by_cases here : j = i <;> simp [here, Disk.release, Disk.nlink]

theorem names_release (d : Disk) (i j : Inum) :
    names (d.release i) j = names d j - nameCount j (d.entries i) := by
  have update : names (d.release i) j =
      names d j - nameCount j (d.entries i) + nameCount j [] :=
    tally_update (nameCount j) d.entries i []
  rw [update, nameCount_nil]
  omega

theorem Law.unlinked (law : Law exact tight e pend d) (nonneg : ∀ j, 0 ≤ pend j)
    (gone : d.nlink i = 0) (used : d.type i ≠ .free) (other : e ≠ some i) :
    names d i = 0 ∧ subdirs d i = 0 ∧ i ≠ rootIno ∧ pend i = 0 := by
  have least := (law.count i used other).1
  have named := names_nonneg d i
  have below := subdirs_nonneg d i
  have own := ownParent_nonneg i
  have owed := nonneg i
  refine ⟨by omega, by omega, ?_, by omega⟩
  rintro rfl
  have one : ownParent rootIno = 1 := rfl
  omega

theorem Law.release (law : Law exact tight none pend d) (nonneg : ∀ j, 0 ≤ pend j)
    (gone : d.nlink i = 0)
    (unused : tight → ∀ a, a ≠ i → d.type a = .dir → up (d.entries a) ≠ some i) :
    Law exact tight none pend (d.release i) := by
  by_cases used : d.type i = .free
  · have same : d.release i = d := by
      have dinode : update d.dinode i { d.dinode i with type := .free } = d.dinode := by
        rw [← used]
        exact update_eq_self i _
      have entries : update d.entries i [] = d.entries := by
        rw [← law.plain i (by simp) (by simp [used])]
        exact update_eq_self i _
      rw [Disk.release, dinode, entries]
    rwa [same]
  obtain ⟨unnamed, childless, apart, owed⟩ := law.unlinked nonneg gone used (by simp)
  have elsewhere : ∀ a, nameCount i (d.entries a) = 0 := by
    intro a
    have most := nameCount_le_names d i a
    have least := nameCount_nonneg i (d.entries a)
    omega
  -- what loses an entry is no directory
  have directories : ∀ j, d.type j = .dir → names (d.release i) j = names d j := by
    intro j directory
    have most := le_subdirs (i := i) directory
    have least := nameCount_nonneg j (d.entries i)
    rw [names_release]
    omega
  have fewer : ∀ j, names (d.release i) j ≤ names d j := by
    intro j
    have least := nameCount_nonneg j (d.entries i)
    rw [names_release]
    omega
  have below : ∀ j, j ≠ i → subdirs (d.release i) j = subdirs d j := by
    intro j other
    refine subdirs_congr (by rw [release_entries, if_neg other]) fun a some => ?_
    have different : a ≠ i := by
      rintro rfl
      exact some (elsewhere j)
    rw [release_type different]
  have survives : ∀ j, (d.release i).type j ≠ .free → j ≠ i := by
    rintro j typed rfl
    exact typed release_type_self
  refine ⟨?_, ?_, ?_, ?_, by simp, ?_, ?_, ?_, ?_, ?_, ?_⟩
  · have different : (0 : Inum) ≠ i := by
      rintro rfl
      exact used law.zero.1
    rw [release_type different]
    exact law.zero
  · obtain ⟨directory, _, parent, nameless⟩ := law.root
    rw [release_type apart.symm, release_entries, if_neg apart.symm,
      directories rootIno directory]
    exact ⟨directory, by simp, parent, nameless⟩
  · intro a _ directory
    obtain ⟨different, before⟩ := of_release_dir directory
    obtain ⟨p, rest, shape, live, ordinary, kept⟩ := law.shape a (by simp) before
    refine ⟨p, rest, by rw [release_entries, if_neg different]; exact shape, live, ordinary,
      fun tightly => ?_⟩
    have other : p ≠ i := by
      rintro rfl
      exact unused tightly a different before (by rw [shape]; rfl)
    rw [release_type other]
    exact kept tightly
  · intro a _ kind
    rw [release_entries]
    split
    · rfl
    · rename_i different
      rw [release_type different] at kind
      exact law.plain a (by simp) kind
  · intro j positive
    have before := law.live j (lt_of_lt_of_le positive (fewer j))
    have different : j ≠ i := by
      rintro rfl
      have most := fewer j
      omega
    rw [release_type different]
    exact before
  · intro j directory
    exact le_trans (fewer j) (law.single j (of_release_dir directory).2)
  · intro a j positive directory
    obtain ⟨different, before⟩ := of_release_dir directory
    rw [release_entries] at positive ⊢
    rw [if_neg different]
    split at positive
    · simp at positive
    · exact law.above a j positive before
  · intro j typed _
    have different := survives j typed
    rw [release_type different] at typed
    have before := law.count j typed (by simp)
    have most := fewer j
    rw [release_nlink, below j different]
    refine ⟨by omega, fun exactly => ?_⟩
    have nothing : nameCount j (d.entries i) = 0 := by
      by_cases directory : d.type i = .dir
      · exact law.empty exactly i directory (by simp) apart unnamed j
      · rw [law.plain i (by simp) directory]
        rfl
    have equal := before.2 exactly
    rw [names_release, nothing]
    omega
  · intro exactly a directory _ notRoot nameless j
    obtain ⟨different, before⟩ := of_release_dir directory
    rw [directories a before] at nameless
    rw [release_entries, if_neg different]
    exact law.empty exactly a before (by simp) notRoot nameless j
  · intro j positive
    have before := law.held j positive
    have different : j ≠ i := by
      rintro rfl
      omega
    rw [release_type different]
    exact before

/-! ## A new inode -/

theorem Law.unnamed_of_free (law : Law exact tight e pend d) (free : d.type i = .free) :
    names d i = 0 := by
  have least := names_nonneg d i
  have none : ¬ 0 < names d i := fun positive => (law.live i positive).1 free
  omega

theorem alloc_nlink (type : FileType) (other : j ≠ i) : (d.alloc i type).nlink j = d.nlink j := by
  simp [Disk.alloc, Disk.nlink, other]

theorem Law.alloc (law : Law exact tight none pend d) (free : d.type i = .free) (nonzero : i ≠ 0)
    (type : FileType) (kind : type ≠ .free) : Law exact tight (some i) pend (d.alloc i type) := by
  have bare : d.entries i = [] := law.plain i (by simp) (by simp [free])
  have entries : ∀ a, (d.alloc i type).entries a = if a = i then [] else d.entries a := by
    intro a
    by_cases here : a = i <;> simp [here, Disk.alloc]
  refine law.transfer ?_ ?_ ?_ ?_ ?_
  · intro a other
    have here : a ≠ i := fun same => other (by rw [same])
    exact ⟨by simp, alloc_type type here, by rw [entries, if_neg here]⟩
  · rintro a ⟨⟩
    refine ⟨law.unnamed_of_free free, nonzero, ?_, ?_, ?_⟩
    · rintro rfl
      rw [law.root.1] at free
      cases free
    · rw [bare]
      simp
    · rw [entries, if_pos rfl]
      simp
  · intro p used
    by_cases here : p = i
    · rw [here, alloc_type_self]
      exact kind
    · rw [alloc_type type here]
      exact used
  · intro j other
    rw [alloc_nlink type fun same => other (by rw [same])]
  · intro j positive
    have used := (law.held j positive).1
    refine ⟨used, ?_⟩
    rintro ⟨⟩
    exact used free

theorem Law.hatch {d' : Disk} (law : Law exact tight (some i) pend d)
    (same : ∀ j, j ≠ i → d'.dinode j = d.dinode j ∧ d'.entries j = d.entries j)
    (type : d'.type i = d.type i) (dots : ∀ x ∈ d'.entries i, ¬ Ordinary x.name) :
    Law exact tight (some i) pend d' := by
  have apart : ∀ {j}, some i ≠ some j → j ≠ i := fun different same => different (by rw [same])
  refine law.transfer ?_ ?_ ?_ ?_ law.held
  · intro a other
    have rest := same a (apart other)
    exact ⟨other, by rw [Disk.type, Disk.type, rest.1], rest.2⟩
  · rintro a ⟨⟩
    obtain ⟨unnamed, nonzero, notRoot⟩ := law.embryo_fresh
    exact ⟨unnamed, nonzero, notRoot, law.embryo i rfl, dots⟩
  · intro p used
    by_cases here : p = i
    · rw [here] at used ⊢
      rwa [type]
    · rwa [Disk.type, (same p here).1]
  · intro j other
    rw [Disk.nlink, Disk.nlink, (same j (apart other)).1]

/-! ## Entering and clearing a name -/

theorem Law.dir_ne_zero (law : Law exact tight e pend d) (used : d.type i ≠ .free) : i ≠ 0 := by
  rintro rfl
  exact used law.zero.1

theorem nameOne_ordinary (live : i ≠ 0) (ordinary : Ordinary name) (j : Inum) :
    nameOne j ⟨i, name⟩ = if j = i then 1 else 0 := by
  unfold nameOne Names
  by_cases here : j = i
  · subst here
    simp [live, ordinary]
  · simp [here, Ne.symm here]

/-- How one directory's entries changed: behind the dots, and by `n` for `ip`. -/
structure Rewritten (d d' : Disk) (dp ip : Inum) (n : Int) : Prop where
  dinode : d'.dinode = d.dinode
  others : ∀ a, a ≠ dp → d'.entries a = d.entries a
  counts : ∀ j, nameCount j (d'.entries dp) = nameCount j (d.entries dp) + if j = ip then n else 0
  dots : ∀ p rest, d.entries dp = ⟨dp, dot⟩ :: ⟨p, dotdot⟩ :: rest →
    (∀ x ∈ rest, x.inum ≠ 0 → Ordinary x.name) → ∃ rest', d'.entries dp =
      ⟨dp, dot⟩ :: ⟨p, dotdot⟩ :: rest' ∧ ∀ x ∈ rest', x.inum ≠ 0 → Ordinary x.name

namespace Rewritten
variable {d' : Disk} (w : Rewritten d d' dp ip n)
include w

theorem type (j : Inum) : d'.type j = d.type j := by rw [Disk.type, w.dinode]

theorem nlink (j : Inum) : d'.nlink j = d.nlink j := by rw [Disk.nlink, w.dinode]

theorem nameCount (j a : Inum) : nameCount j (d'.entries a) =
    LinkLaw.nameCount j (d.entries a) + if a = dp ∧ j = ip then n else 0 := by
  by_cases here : a = dp
  · subst here
    simpa using w.counts j
  · rw [w.others a here]
    simp [here]

theorem names (j : Inum) : names d' j = LinkLaw.names d j + if j = ip then n else 0 := by
  have entries : d'.entries = update d.entries dp (d'.entries dp) := by
    funext a
    by_cases here : a = dp
    · rw [here, update_self]
    · rw [update_of_ne here, w.others a here]
  rw [LinkLaw.names, entries, tally_update, w.counts j, LinkLaw.names]
  omega

theorem subdirs (j : Inum) : subdirs d' j =
    LinkLaw.subdirs d j + if j = dp ∧ d.type ip = .dir then n else 0 := by
  by_cases here : j = dp
  · subst here
    rw [subdirs_of_count (d := d) w.type ip n w.counts]
    by_cases directory : d.type ip = .dir <;> simp [directory]
  · rw [subdirs_congr (d := d) (w.others j here) fun a _ => by rw [w.type a]]
    simp [here]

end Rewritten

theorem Law.up_rewritten {d' : Disk} (law : Law exact tight e pend d) (w : Rewritten d d' dp ip n)
    (directory : d.type dp = .dir) (home : e ≠ some dp) (a : Inum) :
    up (d'.entries a) = up (d.entries a) := by
  by_cases here : a = dp
  · subst here
    obtain ⟨p, rest, shape, _, ordinary, _⟩ := law.shape a home directory
    obtain ⟨rest', after, _⟩ := w.dots p rest shape ordinary
    rw [shape, after]
    rfl
  · rw [w.others a here]

theorem Law.shape_rewritten {d' : Disk} (law : Law exact tight e pend d) (w : Rewritten d d' dp ip n)
    (here : e ≠ some a) (kind : d.type a = .dir) :
    ∃ p rest, d'.entries a = ⟨a, dot⟩ :: ⟨p, dotdot⟩ :: rest ∧ p ≠ 0 ∧
      (∀ x ∈ rest, x.inum ≠ 0 → Ordinary x.name) ∧ (tight → d'.type p ≠ .free) := by
  obtain ⟨p, rest, shape, live, ordinary, kept⟩ := law.shape a here kind
  rw [← w.type] at kept
  by_cases there : a = dp
  · subst there
    obtain ⟨rest', after, clean⟩ := w.dots p rest shape ordinary
    exact ⟨p, rest', after, live, clean, kept⟩
  · exact ⟨p, rest, (w.others a there).trans shape, live, ordinary, kept⟩

theorem rewritten_place (law : Law exact tight e pend d) (directory : d.type dp = .dir)
    (home : e ≠ some dp) (ordinary : Ordinary name) (used : d.type ip ≠ .free) :
    Rewritten d (d.setEntries dp (place ⟨ip, name⟩ (d.entries dp))) dp ip 1 where
  dinode := rfl
  others a here := by simp [Disk.setEntries, here]
  counts j := by
    simp only [Disk.setEntries, update_self]
    rw [nameCount_place, nameOne_ordinary (law.dir_ne_zero used) ordinary]
  dots p rest shape clean := by
    have self := law.dir_ne_zero (i := dp) (by simp [directory])
    obtain ⟨p', rest', same, live, _⟩ := law.shape dp home directory
    have parent : p ≠ 0 := by
      rw [shape] at same
      cases same
      exact live
    refine ⟨place ⟨ip, name⟩ rest, by simp [Disk.setEntries, shape, place, self, parent], ?_⟩
    intro x member alive
    rcases mem_place member with rfl | old
    · exact ordinary
    · exact clean x old alive

theorem rewritten_set (found : (d.entries dp)[off]? = some ⟨ip, name⟩) (live : ip ≠ 0)
    (ordinary : Ordinary name) :
    Rewritten d (d.setEntries dp ((d.entries dp).set off ⟨0, []⟩)) dp ip (-1) where
  dinode := rfl
  others a here := by simp [Disk.setEntries, here]
  counts j := by
    simp only [Disk.setEntries, update_self]
    rw [nameCount_set j _ found, nameOne_dead, nameOne_ordinary live ordinary]
    split <;> omega
  dots p rest shape clean := by
    rw [shape] at found
    rcases off with _ | _ | k
    · cases found
      exact absurd rfl ordinary.1
    · cases found
      exact absurd rfl ordinary.2
    · refine ⟨rest.set k ⟨0, []⟩, by simp [Disk.setEntries, shape], ?_⟩
      intro x member alive
      rcases List.mem_or_eq_of_mem_set member with old | rfl
      · exact clean x old alive
      · exact absurd rfl alive

/-- An inode as `create` leaves it before its name is entered. -/
structure Newborn (d : Disk) (dp ip : Inum) : Prop where
  directory : d.type ip = .dir → d.entries ip = [⟨ip, dot⟩, ⟨dp, dotdot⟩]
  plain : d.type ip ≠ .dir → d.entries ip = []

theorem Newborn.nameCount (born : Newborn d dp ip) (j : Inum) : nameCount j (d.entries ip) = 0 := by
  by_cases directory : d.type ip = .dir
  · rw [born.directory directory]
    refine nameCount_dots ?_
    simp [Ordinary]
  · rw [born.plain directory]
    rfl

theorem Law.enter {pend' : Inum → Int} {d' : Disk} (law : Law exact tight e pend d)
    (w : Rewritten d d' dp ip 1) (directory : d.type dp = .dir) (home : e ≠ some dp)
    (used : d.type ip ≠ .free) (apart : ip ≠ dp) (born : e = none ∨ e = some ip ∧ Newborn d dp ip)
    (child : d.type ip = .dir → names d ip = 0 ∧ up (d.entries ip) = some dp)
    (named : exact → dp = rootIno ∨ 0 < names d dp)
    (owed : ∀ j, e ≠ some j → pend' j = pend j - (if j = ip then 1 else 0) -
      (if j = dp ∧ d.type ip = .dir then 1 else 0))
    (fresh : e = some ip → d.nlink ip = 1 + pend' ip) : Law exact tight none pend' d' := by
  have parent := law.up_rewritten w directory home
  have embryo : ∀ {j}, e = some j → j = ip ∧ Newborn d dp ip := by
    intro j here
    rcases born with none | ⟨same, new⟩
    · rw [none] at here
      cases here
    · rw [same] at here
      exact ⟨(Option.some.inj here).symm, new⟩
  have notRoot : ip ≠ rootIno := by
    rintro rfl
    have above := (child law.root.1).2
    rw [law.root.2.2.1] at above
    exact apart (Option.some.inj above)
  have same : d'.entries ip = d.entries ip := w.others ip apart
  refine ⟨⟨?_, nofun⟩, ?_, ?_, ?_, nofun, ?_, ?_, ?_, ?_, ?_, ?_⟩
  · rw [w.type]
    exact law.zero.1
  · obtain ⟨type, _, itself, nameless⟩ := law.root
    rw [w.type, parent, w.names, if_neg notRoot.symm, add_zero]
    exact ⟨type, nofun, itself, nameless⟩
  · intro a _ kind
    rw [w.type] at kind
    by_cases here : e = some a
    · obtain ⟨rfl, new⟩ := embryo here
      refine ⟨dp, [], by rw [same]; exact new.directory kind,
        law.dir_ne_zero (by simp [directory]), nofun, fun _ => ?_⟩
      rw [w.type, directory]
      simp
    · exact law.shape_rewritten w here kind
  · intro a _ kind
    rw [w.type] at kind
    have there : a ≠ dp := by
      rintro rfl
      exact kind directory
    rw [w.others a there]
    by_cases here : e = some a
    · obtain ⟨rfl, new⟩ := embryo here
      exact new.plain kind
    · exact law.plain a here kind
  · intro j positive
    rw [w.type]
    refine ⟨?_, nofun⟩
    by_cases here : j = ip
    · rw [here]
      exact used
    · rw [w.names, if_neg here, add_zero] at positive
      exact (law.live j positive).1
  · intro j kind
    rw [w.type] at kind
    rw [w.names]
    by_cases here : j = ip
    · rw [here] at kind ⊢
      rw [(child kind).1]
      simp
    · rw [if_neg here, add_zero]
      exact law.single j kind
  · intro a j positive kind
    rw [w.type] at kind
    rw [parent]
    rw [w.nameCount] at positive
    by_cases new : a = dp ∧ j = ip
    · obtain ⟨rfl, rfl⟩ := new
      exact (child kind).2
    · rw [if_neg new, add_zero] at positive
      exact law.above a j positive kind
  · intro j kind _
    rw [w.type] at kind
    rw [w.names, w.subdirs, w.nlink]
    by_cases here : e = some j
    · obtain ⟨rfl, new⟩ := embryo here
      have unnamed : names d j = 0 := by
        subst here
        exact law.embryo_fresh.1
      have childless : subdirs d j = 0 := by
        refine Finset.sum_eq_zero fun a _ => ?_
        rw [new.nameCount a]
        simp
      have own : ownParent j = 0 := if_neg notRoot
      have one := fresh here
      rw [unnamed, childless, own, if_pos rfl, if_neg fun both => apart both.1]
      omega
    · have before := law.count j kind here
      have shift := owed j here
      refine ⟨by omega, fun exactly => ?_⟩
      have equal := before.2 exactly
      omega
  · intro exactly a kind _ other nameless j
    rw [w.type] at kind
    rw [w.names] at nameless
    have least := names_nonneg d a
    have new : a ≠ ip := by
      intro here
      rw [if_pos here] at nameless
      omega
    rw [if_neg new, add_zero] at nameless
    have there : a ≠ dp := by
      rintro rfl
      rcases named exactly with root | some
      · exact other root
      · omega
    rw [w.others a there]
    exact law.empty exactly a kind (fun here => new (embryo here).1) other nameless j
  · intro j positive
    rw [w.type]
    refine ⟨?_, nofun⟩
    by_cases here : e = some j
    · rw [(embryo here).1]
      exact used
    · have shift := owed j here
      refine (law.held j ?_).1
      split at shift <;> split at shift <;> omega

theorem Law.clear {pend' : Inum → Int} {d' : Disk} (law : Law exact tight none pend d)
    (w : Rewritten d d' dp ip (-1)) (directory : d.type dp = .dir) (apart : ip ≠ dp)
    (present : 0 < nameCount ip (d.entries dp))
    (vacant : d.type ip = .dir → ∀ j, nameCount j (d.entries ip) = 0)
    (owed : ∀ j, pend' j = pend j + (if j = ip then 1 else 0) +
      (if j = dp ∧ d.type ip = .dir then 1 else 0)) : Law exact tight none pend' d' := by
  have parent := law.up_rewritten w directory nofun
  have some : 0 < names d ip := lt_of_lt_of_le present (nameCount_le_names d ip dp)
  have used := (law.live ip some).1
  have fewer : ∀ j, names d' j ≤ names d j := by
    intro j
    rw [w.names]
    split <;> omega
  have notRoot : ip ≠ rootIno := by
    rintro rfl
    have none := law.root.2.2.2
    omega
  refine ⟨⟨?_, nofun⟩, ?_, ?_, ?_, nofun, ?_, ?_, ?_, ?_, ?_, ?_⟩
  · rw [w.type]
    exact law.zero.1
  · obtain ⟨type, _, itself, nameless⟩ := law.root
    rw [w.type, parent, w.names, if_neg notRoot.symm, add_zero]
    exact ⟨type, nofun, itself, nameless⟩
  · intro a _ kind
    rw [w.type] at kind
    exact law.shape_rewritten w nofun kind
  · intro a _ kind
    rw [w.type] at kind
    rw [w.others a fun here => kind (by rw [here]; exact directory)]
    exact law.plain a nofun kind
  · intro j positive
    rw [w.type]
    exact law.live j (lt_of_lt_of_le positive (fewer j))
  · intro j kind
    rw [w.type] at kind
    exact le_trans (fewer j) (law.single j kind)
  · intro a j positive kind
    rw [w.type] at kind
    rw [parent]
    refine law.above a j ?_ kind
    rw [w.nameCount] at positive
    split at positive <;> omega
  · intro j kind _
    rw [w.type] at kind
    have before := law.count j kind nofun
    have shift := owed j
    rw [w.names, w.subdirs, w.nlink]
    refine ⟨?_, fun exactly => ?_⟩
    · split_ifs at shift ⊢ <;> omega
    · have equal := before.2 exactly
      split_ifs at shift ⊢ <;> omega
  · intro exactly a kind _ other nameless j
    rw [w.type] at kind
    by_cases here : a = ip
    · subst here
      rw [w.others a apart]
      exact vacant kind j
    · rw [w.names, if_neg here, add_zero] at nameless
      have bare := law.empty exactly a kind nofun other nameless
      have there : a ≠ dp := by
        rintro rfl
        have none := bare ip
        omega
      rw [w.others a there]
      exact bare j
  · intro j positive
    rw [w.type]
    refine ⟨?_, nofun⟩
    by_cases here : j = ip
    · rw [here]
      exact used
    · by_cases there : j = dp
      · rw [there, directory]
        simp
      · have shift := owed j
        rw [if_neg here, if_neg fun both => there both.1] at shift
        exact (law.held j (by omega)).1

end
end Xv6.LinkLaw
