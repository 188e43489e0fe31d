import Mathlib.Tactic.Common

/-! The matcher of `grep.c`, and what a pattern means. A C string is the list of its
characters before the NUL, so that the test for `'\0'` is the test for the empty list and
a pointer moves to the tail; every loop and every call goes to a shorter list. -/
namespace Xv6.GrepMatch

/-! ## The matcher -/

/-- `matchstar(c, re, text)`, where `here` is `matchhere` for `re`. -/
def matchstar (here : List Char → Bool) (c : Char) : List Char → Bool
  | [] => here []
  | x :: text => here (x :: text) || ((x = c || c = '.') && matchstar here c text)

def matchhere : List Char → List Char → Bool
  | [], _ => true
  | c :: '*' :: re, text => matchstar (matchhere re) c text
  | ['$'], text => text.isEmpty
  | c :: re, text =>
    match text with
    | [] => false
    | x :: text => (c = '.' || c = x) && matchhere re text

/-- The loop of `match`. -/
def matchFrom (here : List Char → Bool) : List Char → Bool
  | [] => here []
  | x :: text => here (x :: text) || matchFrom here text

/-- `match(re, text)`. -/
def matchText : List Char → List Char → Bool
  | '^' :: re, text => matchhere re text
  | re, text => matchFrom (matchhere re) text

/-! ## Patterns -/

inductive Item where
  | star (c : Char)
  | any
  | last
  | literal (c : Char)

def items : List Char → List Item
  | [] => []
  | c :: '*' :: re => .star c :: items re
  | ['$'] => [.last]
  | c :: re => (if c = '.' then .any else .literal c) :: items re

structure Pattern where
  anchored : Bool
  items : List Item

def pattern : List Char → Pattern
  | '^' :: re => ⟨true, items re⟩
  | re => ⟨false, items re⟩

inductive Item.Takes : Item → (part rest : List Char) → Prop where
  | star (each : ∀ x ∈ part, x = c ∨ c = '.') : Takes (.star c) part rest
  | any : Takes .any [x] rest
  | last : Takes .last [] []
  | literal : Takes (.literal c) [c] rest

/-- The text starts with what the items match in order. -/
inductive Matches : List Item → List Char → Prop where
  | nil : Matches [] text
  | cons (takes : Item.Takes item part rest) (more : Matches its rest) :
    Matches (item :: its) (part ++ rest)

/-! ## The matcher finds what the pattern means -/

theorem matchstar_iff : matchstar here c text = true ↔
    ∃ part rest, text = part ++ rest ∧ (∀ x ∈ part, x = c ∨ c = '.') ∧ here rest = true := by
  induction text with
  | nil =>
    simp only [matchstar, List.nil_eq_append_iff]
    constructor
    · exact fun found => ⟨[], [], ⟨rfl, rfl⟩, by simp, found⟩
    · rintro ⟨_, _, ⟨rfl, rfl⟩, _, found⟩
      exact found
  | cons x text ih =>
    simp only [matchstar, Bool.or_eq_true, Bool.and_eq_true, decide_eq_true_eq, ih]
    constructor
    · rintro (found | ⟨one, part, rest, rfl, each, found⟩)
      · exact ⟨[], x :: text, rfl, by simp, found⟩
      · refine ⟨x :: part, rest, rfl, fun y member => ?_, found⟩
        rcases List.mem_cons.mp member with rfl | later
        · exact one
        · exact each y later
    · rintro ⟨part, rest, split, each, found⟩
      rcases List.cons_eq_append_iff.mp split with ⟨rfl, rfl⟩ | ⟨part, rfl, rfl⟩
      · exact .inl found
      · exact .inr ⟨each x (by simp), part, rest, rfl,
          fun y member => each y (List.mem_cons_of_mem x member), found⟩

theorem matchFrom_iff : matchFrom here text = true ↔
    ∃ before rest, text = before ++ rest ∧ here rest = true := by
  induction text with
  | nil => simp [matchFrom]
  | cons x text ih =>
    simp only [matchFrom, Bool.or_eq_true, ih]
    constructor
    · rintro (found | ⟨before, rest, rfl, found⟩)
      · exact ⟨[], x :: text, rfl, found⟩
      · exact ⟨x :: before, rest, rfl, found⟩
    · rintro ⟨before, rest, split, found⟩
      rcases List.cons_eq_append_iff.mp split with ⟨rfl, rfl⟩ | ⟨before, rfl, rfl⟩
      · exact .inl found
      · exact .inr ⟨before, rest, rfl, found⟩

theorem matches_one : Matches ((if c = '.' then .any else .literal c) :: its) text ↔
    ∃ x rest, text = x :: rest ∧ (c = '.' ∨ c = x) ∧ Matches its rest := by
  constructor
  · intro found
    split at found
    · rename_i dot
      cases found with
      | cons takes more =>
        cases takes
        exact ⟨_, _, rfl, .inl dot, more⟩
    · cases found with
      | cons takes more =>
        cases takes
        exact ⟨_, _, rfl, .inr rfl, more⟩
  · rintro ⟨x, rest, rfl, one, more⟩
    split
    · exact (Matches.cons .any more : Matches _ ([x] ++ rest))
    · rename_i plain
      cases one.resolve_left plain
      exact (Matches.cons .literal more : Matches _ ([c] ++ rest))

theorem matchhere_iff : matchhere re text = true ↔ Matches (items re) text := by
  fun_induction items re generalizing text with
  | case1 => exact ⟨fun _ => .nil, fun _ => rfl⟩
  | case2 c re ih =>
    rw [matchhere, matchstar_iff]
    constructor
    · rintro ⟨part, rest, rfl, each, found⟩
      exact .cons (.star each) (ih.mp found)
    · intro found
      cases found with
      | cons takes more =>
        obtain ⟨each⟩ := takes
        exact ⟨_, _, rfl, each, ih.mpr more⟩
  | case3 =>
    rw [matchhere, List.isEmpty_iff]
    constructor
    · rintro rfl
      exact .cons .last .nil
    · intro found
      cases found with
      | cons takes _ =>
        cases takes
        rfl
  | case4 c re starless notLast ih =>
    rw [matches_one]
    cases text with
    | nil => simp [matchhere.eq_4 _ _ starless notLast]
    | cons x text => simp [matchhere.eq_5 _ _ _ _ starless notLast, ih]

/-- For every pattern and every text. -/
theorem match_iff (re text : List Char) :
    matchText re text = true ↔ ∃ before rest, text = before ++ rest ∧
      ((pattern re).anchored = true → before = []) ∧ Matches (pattern re).items rest := by
  unfold matchText pattern
  split
  · rw [matchhere_iff]
    constructor
    · exact fun found => ⟨[], text, rfl, fun _ => rfl, found⟩
    · rintro ⟨_, rest, rfl, start, found⟩
      rw [start rfl]
      exact found
  · simp only [matchFrom_iff, matchhere_iff, Bool.false_eq_true, false_implies, true_and]

end Xv6.GrepMatch
