import Mathlib.Data.List.Nodup
import Mathlib.Logic.Function.Basic

/-! Circular doubly linked lists with a sentinel. Both directions are paths from the
sentinel back to itself; unlinking a node and linking it in front redirect one
pointer of each path, and a search along either direction is a search of the list
of nodes. -/
namespace Xv6.LinkedRing
open Function

section
variable {ν : Type u} {f : ν → ν}

/-- Following `f` from `a` visits `l` and arrives at `b`. -/
def Path (f : ν → ν) (a : ν) : List ν → ν → Prop
  | [], b => f a = b
  | x :: l, b => f a = x ∧ Path f x l b

theorem path_append : Path f a (l ++ x :: m) b ↔ Path f a l x ∧ Path f x m b := by
  induction l generalizing a with
  | nil => simp [Path]
  | cons y l ih => simp [Path, ih, and_assoc]

def last (a : ν) : List ν → ν
  | [] => a
  | x :: l => last x l

theorem last_mem (a : ν) (l : List ν) : last a l ∈ a :: l := by
  induction l generalizing a with
  | nil => exact List.mem_singleton.mpr rfl
  | cons x l ih => exact List.mem_cons_of_mem _ (ih x)

theorem last_append (a : ν) (l : List ν) (x : ν) (m : List ν) : last a (l ++ x :: m) = last x m := by
  induction l generalizing a with
  | nil => rfl
  | cons y l ih => exact ih y

theorem Path.first (path : Path f a l b) : f a = last b l.reverse := by
  cases l with
  | nil => exact path
  | cons x l =>
    rw [List.reverse_cons, last_append]
    exact path.1

theorem Path.frame [DecidableEq ν] (path : Path f a l b) (apart : u ∉ a :: l) :
    Path (update f u c) a l b := by
  induction l generalizing a with
  | nil =>
    have other : a ≠ u := fun same => apart (by simp [same])
    simpa [Path, other] using path
  | cons x l ih =>
    have other : a ≠ u := fun same => apart (by simp [same])
    refine ⟨by rw [update_of_ne other]; exact path.1, ih path.2 fun member => ?_⟩
    exact apart (List.mem_cons_of_mem _ member)

theorem Path.redirect [DecidableEq ν] (path : Path f a l b) (distinct : (a :: l).Nodup) (c : ν) :
    Path (update f (last a l) c) a l c := by
  induction l generalizing a with
  | nil => simp [Path, last]
  | cons x l ih =>
    obtain ⟨fresh, rest⟩ := List.nodup_cons.mp distinct
    have other : a ≠ last x l := fun same => fresh (by rw [same]; exact last_mem x l)
    refine ⟨?_, ih path.2 rest⟩
    rw [last, update_of_ne other]
    exact path.1

theorem Path.remove [DecidableEq ν] (path : Path f a (l ++ x :: m) b)
    (distinct : (a :: (l ++ x :: m)).Nodup) :
    Path (update f (last a l) (f x)) a (l ++ m) b := by
  obtain ⟨before, behind⟩ := path_append.mp path
  have parts : ((a :: l) ++ x :: m).Nodup := distinct
  have first := (List.nodup_append.mp parts).1
  cases m with
  | nil =>
    rw [List.append_nil, show f x = b from behind]
    exact before.redirect first b
  | cons y m =>
    rw [path_append, behind.1]
    refine ⟨before.redirect first y, behind.2.frame fun member => ?_⟩
    exact (List.nodup_append.mp parts).2.2 _ (last_mem a l) _ (List.mem_cons_of_mem _ member) rfl

end

/-! ## The list -/

structure Links (ν : Type u) where
  next : ν → ν
  prev : ν → ν

/-- The nodes of the list in order, without the sentinel. -/
structure Linked (k : Links ν) (head : ν) (l : List ν) : Prop where
  forward : Path k.next head l head
  backward : Path k.prev head l.reverse head
  distinct : (head :: l).Nodup

section
variable {ν : Type u} [DecidableEq ν] {k : Links ν} {head : ν}

/-- `b->next->prev = b->prev; b->prev->next = b->next`. -/
def Links.unlink (k : Links ν) (b : ν) : Links ν where
  prev := update k.prev (k.next b) (k.prev b)
  next := update k.next (k.prev b) (k.next b)

/-- `b->next = head.next; b->prev = &head; head.next->prev = b; head.next = b`. -/
def Links.linkFront (k : Links ν) (head b : ν) : Links ν where
  prev := update (update k.prev b head) (k.next head) b
  next := update (update k.next b (k.next head)) head b

theorem nodup_mirrored (distinct : (a :: l).Nodup) : (a :: l.reverse).Nodup := by
  rw [List.nodup_cons] at distinct ⊢
  exact ⟨fun member => distinct.1 (List.mem_reverse.mp member), List.nodup_reverse.mpr distinct.2⟩

theorem linked_unlink (linked : Linked k head (l ++ b :: m)) : Linked (k.unlink b) head (l ++ m) := by
  have distinct := linked.distinct
  have reversed : (l ++ b :: m).reverse = m.reverse ++ b :: l.reverse := by simp
  have mirrored : (head :: (m.reverse ++ b :: l.reverse)).Nodup := by
    rw [← reversed]
    exact nodup_mirrored distinct
  have backward := linked.backward
  rw [reversed] at backward
  have before : k.prev b = last head l := by
    have path := (path_append.mp backward).2
    rw [path.first, List.reverse_reverse]
  have behind : k.next b = last head m.reverse := (path_append.mp linked.forward).2.first
  refine ⟨?_, ?_, ?_⟩
  · have path := linked.forward.remove distinct
    rwa [← before] at path
  · have path := backward.remove mirrored
    rw [← behind] at path
    rwa [List.reverse_append]
  · rw [List.nodup_cons] at distinct ⊢
    refine ⟨fun member => distinct.1 ?_, ?_⟩
    · rcases List.mem_append.mp member with left | right
      · exact List.mem_append_left _ left
      · exact List.mem_append_right _ (List.mem_cons_of_mem _ right)
    · exact distinct.2.sublist ((List.Sublist.refl l).append (List.sublist_cons_self b m))

theorem linked_linkFront (linked : Linked k head l) (fresh : b ∉ head :: l) :
    Linked (k.linkFront head b) head (b :: l) := by
  have apart : b ≠ head := fun same => fresh (by simp [same])
  have outside : head ∉ l := (List.nodup_cons.mp linked.distinct).1
  refine ⟨⟨by simp [Links.linkFront], ?_⟩, ?_, ?_⟩
  · have forward := linked.forward
    cases l with
    | nil => simpa [Links.linkFront, Path, apart] using forward
    | cons x l =>
      refine ⟨by simpa [Links.linkFront, apart] using forward.1, ?_⟩
      have kept : Path (update k.next b (k.next head)) x l head :=
        forward.2.frame fun member => fresh (List.mem_cons_of_mem _ member)
      exact kept.frame outside
  · have reached : k.next head = last head l.reverse := linked.forward.first
    have elsewhere : b ∉ head :: l.reverse := by simpa using fresh
    rw [List.reverse_cons, path_append]
    simp only [Links.linkFront, reached]
    refine ⟨(linked.backward.frame elsewhere).redirect (nodup_mirrored linked.distinct) b, ?_⟩
    have other : b ≠ last head l.reverse := fun same => elsewhere (by rw [same]; exact last_mem _ _)
    simp [Path, update_of_ne other]
  · rw [List.nodup_cons, List.nodup_cons]
    rw [List.mem_cons, not_or] at fresh
    refine ⟨fun member => ?_, fresh.2, (List.nodup_cons.mp linked.distinct).2⟩
    rcases List.mem_cons.mp member with same | inside
    · exact apart same.symm
    · exact outside inside

/-! ## Searching -/

/-- `for(b = f head; b != head; b = f b) if(found b) ..`, with as many turns as given. -/
def search (f : ν → ν) (found : ν → Bool) (head : ν) : Nat → ν → Option ν
  | 0, _ => none
  | turns + 1, b =>
    if b = head then none
    else if found b then some b
    else search f found head turns (f b)

theorem search_path {f : ν → ν} (path : Path f a l head) (inside : head ∉ l)
    (enough : l.length < turns) : search f found head turns (f a) = l.find? found := by
  induction l generalizing a turns with
  | nil =>
    cases turns with
    | zero => simp at enough
    | succ turns => simp [search, show f a = head from path]
  | cons x l ih =>
    cases turns with
    | zero => simp at enough
    | succ turns =>
      have other : x ≠ head := fun same => inside (by simp [same])
      rw [List.length_cons] at enough
      rw [path.1, search, if_neg other, List.find?_cons]
      cases here : found x with
      | true => simp
      | false =>
        exact ih path.2 (fun member => inside (List.mem_cons_of_mem _ member)) (by omega)

end
end Xv6.LinkedRing
