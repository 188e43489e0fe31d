import Xv6.CheckedC
import Xv6.GrepMatch

/-! The loop of `grep` over its input. Each `read` adds to the buffer behind the unfinished
line that the last turn has moved to the front. A turn that finds no newline keeps nothing,
so that an unfinished line longer than one `read` is lost. -/
namespace Xv6.GrepLines
open CheckedC GrepMatch

/-! ## grep -/

abbrev SIZE : Nat := 1024

abbrev NUL : Char := '\x00'

/-- The C string at a pointer. -/
def string (s : List Char) : List Char := s.takeWhile (· ≠ NUL)

/-- `strchr(s, c)`, as the distance from `s`. -/
def strchr (c : Char) : List Char → Option Nat
  | [] => none
  | x :: s => if x = NUL then none else if x = c then some 0 else (strchr c s).map (· + 1)

/-- The buffer, the pointer `p` into it, and what has been written. -/
structure Scan where
  buf : List Char
  p : Nat
  out : List Char

/-- The inner loop, for at most `rounds` tests of its condition. -/
def scanLines (re : List Char) : Nat → Scan → Checked Scan
  | 0, _ => .error .blocked
  | rounds + 1, s =>
    match strchr '\n' (s.buf.drop s.p) with
    | none => .ok s
    | some distance =>
      let q := s.p + distance
      let buf := s.buf.set q NUL
      if matchText re (string (buf.drop s.p)) then
        let buf := buf.set q '\n'
        scanLines re rounds ⟨buf, q + 1, s.out ++ (buf.drop s.p).take (q + 1 - s.p)⟩
      else scanLines re rounds ⟨buf, q + 1, s.out⟩

/-- The outer loop, with what the calls of `read` return; then `read` returns 0. More than
the `sizeof(buf)-m-1` bytes asked for would not fit with the NUL behind them. -/
def grepLoop (re : List Char) : List (List Char) → List Char → Nat → List Char → Checked (List Char)
  | [], _, _, out => .ok out
  | piece :: pieces, buf, m, out => do
    if piece = [] then return out
    if SIZE ≤ m + piece.length then throw (.index SIZE)
    let n := m + piece.length
    let s ← scanLines re SIZE ⟨buf.take m ++ piece ++ NUL :: buf.drop (n + 1), 0, out⟩
    let n := if s.p = 0 then 0 else n
    if 0 < n then
      -- memmove(buf, p, m)
      let rest := n - s.p
      grepLoop re pieces ((s.buf.drop s.p).take rest ++ s.buf.drop rest) rest s.out
    else grepLoop re pieces s.buf n s.out

/-- `grep(pattern, fd)`, with any earlier contents of `buf`. -/
def grep (re buf : List Char) (pieces : List (List Char)) : Checked (List Char) :=
  grepLoop re pieces buf 0 []

/-! ## Lines -/

def terminated (text : List Char) : List (List Char) := (text.splitOn '\n').dropLast

def unfinished (text : List Char) : List Char :=
  (text.splitOn '\n').getLast (List.splitOn_ne_nil _ _)

def matching (re text : List Char) : List Char :=
  ((terminated text).filter (matchText re)).flatMap (· ++ ['\n'])

theorem terminated_plain (plain : '\n' ∉ text) : terminated text = [] := by
  simp [terminated, List.splitOn_eq_singleton plain]

theorem unfinished_plain (plain : '\n' ∉ text) : unfinished text = text := by
  simp [unfinished, List.splitOn_eq_singleton plain]

theorem terminated_line (plain : '\n' ∉ line) :
    terminated (line ++ '\n' :: more) = line :: terminated more := by
  rw [terminated, List.splitOn_append_cons_self_of_not_mem plain,
    List.dropLast_cons_of_ne_nil (List.splitOn_ne_nil _ _), terminated]

theorem unfinished_line (plain : '\n' ∉ line) :
    unfinished (line ++ '\n' :: more) = unfinished more := by
  simp only [unfinished, List.splitOn_append_cons_self_of_not_mem plain,
    List.getLast_cons (List.splitOn_ne_nil _ _)]

theorem line_induction {P : List Char → Prop} (plain : ∀ text, '\n' ∉ text → P text)
    (cons : ∀ line more, '\n' ∉ line → P more → P (line ++ '\n' :: more)) (text : List Char) :
    P text := by
  by_cases newline : '\n' ∈ text
  · obtain ⟨line, more, rfl, first⟩ := List.eq_append_cons_of_mem newline
    exact cons line more first (line_induction plain cons more)
  · exact plain text newline
termination_by text.length
decreasing_by
  subst_vars
  simp
  omega

theorem not_mem_unfinished : '\n' ∉ unfinished text := by
  induction text using line_induction with
  | plain text plain => rwa [unfinished_plain plain]
  | cons line more plain ih => rwa [unfinished_line plain]

theorem unfinished_suffix (text : List Char) : unfinished text <:+ text := by
  induction text using line_induction with
  | plain text plain => simp only [unfinished_plain plain, List.suffix_rfl]
  | cons line more plain ih =>
    rw [unfinished_line plain]
    exact ih.trans ((List.suffix_cons '\n' more).trans (List.suffix_append line _))

theorem unfinished_append (newline : '\n' ∈ b) : unfinished (a ++ b) = unfinished b := by
  induction a using line_induction with
  | plain a plain =>
    obtain ⟨line, more, rfl, first⟩ := List.eq_append_cons_of_mem newline
    rw [← List.append_assoc, unfinished_line (by simp [plain, first]), unfinished_line first]
  | cons line more plain ih => rw [List.append_assoc, List.cons_append, unfinished_line plain, ih]

theorem matching_append :
    matching re (a ++ b) = matching re a ++ matching re (unfinished a ++ b) := by
  induction a using line_induction with
  | plain a plain => simp [matching, terminated_plain plain, unfinished_plain plain]
  | cons line more plain ih =>
    simp only [matching] at ih
    simp only [matching, List.append_assoc, List.cons_append, terminated_line plain,
      unfinished_line plain, List.filter_cons]
    split
    · simp [ih]
    · exact ih

def complete (text : List Char) : List Char := (terminated text).flatMap (· ++ ['\n'])

theorem complete_append_unfinished (text : List Char) : complete text ++ unfinished text = text := by
  induction text using line_induction with
  | plain text plain => simp [complete, terminated_plain plain, unfinished_plain plain]
  | cons line more plain ih =>
    rw [complete] at ih
    simp [complete, terminated_line plain, unfinished_line plain, ih]

theorem complete_spec (text : List Char) :
    terminated (complete text) = terminated text ∧ unfinished (complete text) = [] := by
  induction text using line_induction with
  | plain text plain =>
    rw [complete, terminated_plain plain]
    exact ⟨rfl, rfl⟩
  | cons line more plain ih =>
    have whole : complete (line ++ '\n' :: more) = line ++ '\n' :: complete more := by
      simp [complete, terminated_line plain]
    rw [whole, terminated_line plain, terminated_line plain, unfinished_line plain, ih.1]
    exact ⟨rfl, ih.2⟩

theorem matching_nil (text : List Char) : matching [] text = complete text := by
  have every : ∀ line, matchText [] line = true := fun line => by
    cases line <;> simp [matchText, matchFrom, matchhere]
  rw [matching, complete, List.filter_eq_self.mpr fun line _ => every line]

theorem matching_append_plain (re a : List Char) (plain : '\n' ∉ b) : matching re (a ++ b) = matching re a := by
  have still : '\n' ∉ unfinished a ++ b :=
    List.mem_append.not.mpr (not_or.mpr ⟨not_mem_unfinished, plain⟩)
  rw [matching_append]
  simp [matching, terminated_plain still]

/-! ## One turn -/

theorem strchr_none (nulless : NUL ∉ text) (plain : c ∉ text) :
    strchr c (text ++ NUL :: junk) = none := by
  induction text with
  | nil => simp [strchr]
  | cons x text ih =>
    simp only [List.mem_cons, not_or] at nulless plain
    simp [strchr, Ne.symm nulless.1, Ne.symm plain.1, ih nulless.2 plain.2]

theorem strchr_some (visible : c ≠ NUL) (nulless : NUL ∉ line) (plain : c ∉ line) :
    strchr c (line ++ c :: more) = some line.length := by
  induction line with
  | nil => simp [strchr, visible]
  | cons x line ih =>
    simp only [List.mem_cons, not_or] at nulless plain
    simp [strchr, Ne.symm nulless.1, Ne.symm plain.1, ih nulless.2 plain.2]

theorem string_eq (nulless : NUL ∉ line) : string (line ++ NUL :: more) = line := by
  rw [string, List.takeWhile_append_of_pos]
  · simp
  · intro x member
    simpa using ne_of_mem_of_not_mem member nulless

theorem set_middle (before : List Char) : (before ++ x :: more).set before.length y = before ++ y :: more := by
  simp

theorem scanLines_eq (re junk : List Char) (rounds : Nat) (text before out : List Char)
    (nulless : NUL ∉ text) (enough : text.length < rounds) :
    ∃ passed, scanLines re rounds ⟨before ++ (text ++ NUL :: junk), before.length, out⟩ =
        .ok ⟨passed ++ (unfinished text ++ NUL :: junk), passed.length, out ++ matching re text⟩ ∧
      passed.length + (unfinished text).length = before.length + text.length := by
  induction text using line_induction generalizing before out rounds with
  | plain text plain =>
    obtain ⟨rounds, rfl⟩ := Nat.exists_eq_add_one_of_ne_zero (Nat.ne_zero_of_lt enough)
    simp [scanLines, strchr_none nulless plain, unfinished_plain plain, matching,
      terminated_plain plain]
  | cons line more plain ih =>
    obtain ⟨rounds, rfl⟩ := Nat.exists_eq_add_one_of_ne_zero (Nat.ne_zero_of_lt enough)
    simp only [List.mem_append, List.mem_cons, not_or] at nulless
    obtain ⟨hidden, -, later⟩ := nulless
    rw [List.length_append, List.length_cons] at enough
    -- the line, with whatever stands at its end
    have cell : ∀ x y, (before ++ (line ++ x :: (more ++ NUL :: junk))).set
        (before.length + line.length) y = before ++ (line ++ y :: (more ++ NUL :: junk)) := by
      intro x y
      rw [← List.append_assoc, ← List.length_append, set_middle, List.append_assoc]
    have next : ∀ (x : Char) out, ∃ passed, scanLines re rounds
        ⟨before ++ (line ++ x :: (more ++ NUL :: junk)), before.length + line.length + 1, out⟩ =
          .ok ⟨passed ++ (unfinished more ++ NUL :: junk), passed.length, out ++ matching re more⟩ ∧
        passed.length + (unfinished more).length = before.length + line.length + 1 + more.length := by
      intro x out
      have stepped := ih rounds (before ++ line ++ [x]) out later (by omega)
      simpa [Nat.add_assoc] using stepped
    have whole : (line ++ '\n' :: more) ++ NUL :: junk = line ++ '\n' :: (more ++ NUL :: junk) := by
      simp
    rw [whole, unfinished_line plain]
    simp only [scanLines, List.drop_left, strchr_some (by decide) hidden plain, cell,
      string_eq hidden]
    split
    · rename_i found
      obtain ⟨passed, ran, count⟩ := next '\n' (out ++ (line ++ ['\n']))
      refine ⟨passed, ?_, by simp at count ⊢; omega⟩
      rw [show before.length + line.length + 1 - before.length = (line ++ ['\n']).length by simp; omega,
        show line ++ '\n' :: (more ++ NUL :: junk) = (line ++ ['\n']) ++ (more ++ NUL :: junk) by simp,
        List.take_left]
      simpa [matching, terminated_line plain, found] using ran
    · rename_i missing
      obtain ⟨passed, ran, count⟩ := next NUL out
      refine ⟨passed, ?_, by simp at count ⊢; omega⟩
      simpa [matching, terminated_line plain, missing] using ran

/-! ## All of the input -/

/-- What the calls of `read` return when `carry` bytes are left over: something, and no more
than fits behind them. -/
def Reads (carry : Nat) : List (List Char) → Prop
  | [] => True
  | piece :: pieces => piece ≠ [] ∧ carry + piece.length < SIZE ∧
    Reads (if '\n' ∈ piece then (unfinished piece).length else 0) pieces

/-- What `grep` makes of its input: a piece without a newline is thrown away, with the
unfinished line in front of it. -/
def seen (text : List Char) : List (List Char) → List Char
  | [] => text
  | piece :: pieces => seen (if '\n' ∈ piece then text ++ piece else complete text) pieces

theorem grepLoop_eq (re buf text : List Char) (nulless : NUL ∉ unfinished text ++ pieces.flatten)
    (start : buf.take (unfinished text).length = unfinished text)
    (reads : Reads (unfinished text).length pieces) :
    grepLoop re pieces buf (unfinished text).length (matching re text) =
      .ok (matching re (seen text pieces)) := by
  induction pieces generalizing buf text with
  | nil => rfl
  | cons piece pieces ih =>
    obtain ⟨some, room, reads⟩ := reads
    rw [List.flatten_cons, ← List.append_assoc] at nulless
    obtain ⟨here, later⟩ := not_or.mp (List.mem_append.not.mp nulless)
    obtain ⟨passed, ran, count⟩ := scanLines_eq re
      (buf.drop ((unfinished text).length + piece.length + 1)) SIZE (unfinished text ++ piece) []
      (matching re text) here (by simpa)
    rw [List.length_append, List.length_nil, Nat.zero_add] at count
    simp only [List.nil_append, List.length_nil, ← matching_append] at ran
    simp only [grepLoop, some, if_false, not_le.mpr room, start, ran, bind_ok, seen]
    by_cases ends : '\n' ∈ piece
    · rw [unfinished_append ends] at count ⊢
      have shorter : (unfinished piece).length < piece.length := by
        obtain ⟨line, more, rfl, first⟩ := List.eq_append_cons_of_mem ends
        have least := (unfinished_suffix more).length_le
        rw [unfinished_line first, List.length_append, List.length_cons]
        omega
      have moved : passed.length ≠ 0 := by omega
      have rest : (unfinished text).length + piece.length - passed.length =
          (unfinished piece).length := by omega
      simp only [moved, if_false, show 0 < (unfinished text).length + piece.length by omega, if_true,
        rest, List.drop_left, List.take_left, ends] at reads ⊢
      have next := ih (unfinished piece ++ (passed ++ (unfinished piece ++
        NUL :: buf.drop ((unfinished text).length + piece.length + 1))).drop
          (unfinished piece).length) (text ++ piece)
      rw [unfinished_append ends] at next
      refine next ?_ (by simp) reads
      refine List.mem_append.not.mpr (not_or.mpr ⟨fun inside => here ?_, later⟩)
      exact List.mem_append_right _ ((unfinished_suffix piece).subset inside)
    · -- `p == buf`
      have whole : '\n' ∉ unfinished text ++ piece :=
        List.mem_append.not.mpr (not_or.mpr ⟨not_mem_unfinished, ends⟩)
      rw [unfinished_plain whole, List.length_append] at count
      have still : passed.length = 0 := by omega
      obtain ⟨same, nothing⟩ := complete_spec text
      have next := ih (passed ++ (unfinished (unfinished text ++ piece) ++
        NUL :: buf.drop ((unfinished text).length + piece.length + 1))) (complete text)
      rw [nothing, matching, same, ← matching] at next
      simp only [still, if_true, lt_irrefl, if_false, ends, matching_append_plain re text ends] at reads ⊢
      exact next (by simpa using later) rfl reads

theorem grep_eq_seen (re buf : List Char) (nulless : NUL ∉ pieces.flatten) (reads : Reads 0 pieces) :
    grep re buf pieces = .ok (matching re (seen [] pieces)) :=
  grepLoop_eq re buf [] nulless rfl reads

/-! ## Cuts that lose nothing -/

/-- Every piece in front of a newline has a newline itself. -/
def Unbroken (pieces : List (List Char)) : Prop :=
  pieces.Pairwise fun earlier later => '\n' ∈ later → '\n' ∈ earlier

theorem matching_seen_plain (re text : List Char) (plain : '\n' ∉ pieces.flatten) :
    matching re (seen text pieces) = matching re text := by
  induction pieces generalizing text with
  | nil => rfl
  | cons piece pieces ih =>
    obtain ⟨here, later⟩ := not_or.mp (List.mem_append.not.mp (List.flatten_cons ▸ plain))
    rw [seen, if_neg here, ih _ later, matching, (complete_spec text).1, matching]

theorem matching_seen (unbroken : Unbroken pieces) :
    matching re (seen text pieces) = matching re (text ++ pieces.flatten) := by
  induction pieces generalizing text with
  | nil => simp [seen]
  | cons piece pieces ih =>
    obtain ⟨first, rest⟩ := List.pairwise_cons.mp unbroken
    by_cases ends : '\n' ∈ piece
    · rw [seen, if_pos ends, ih rest, List.flatten_cons, List.append_assoc]
    · have plain : '\n' ∉ (piece :: pieces).flatten := by
        rw [List.flatten_cons, List.mem_append, not_or]
        refine ⟨ends, fun inside => ?_⟩
        obtain ⟨later, member, newline⟩ := List.mem_flatten.mp inside
        exact ends (first later member newline)
      rw [matching_seen_plain re text plain, matching_append_plain re text plain]

theorem length_complete (text : List Char) :
    (complete text).length + (unfinished text).length = text.length := by
  rw [← List.length_append, complete_append_unfinished]

theorem length_seen (text : List Char) (some : ∀ piece ∈ pieces, piece ≠ []) :
    (complete (seen text pieces)).length ≤ (complete (text ++ pieces.flatten)).length ∧
      ((complete (seen text pieces)).length = (complete (text ++ pieces.flatten)).length →
        Unbroken pieces) := by
  induction pieces generalizing text with
  | nil => simp [seen, Unbroken]
  | cons piece pieces ih =>
    obtain ⟨here, others⟩ := List.forall_mem_cons.mp some
    rw [seen, List.flatten_cons, ← List.append_assoc]
    by_cases ends : '\n' ∈ piece
    · rw [if_pos ends]
      refine (ih (text ++ piece) others).imp_right fun kept same => ?_
      exact List.pairwise_cons.mpr ⟨fun _ _ _ => ends, kept same⟩
    · rw [if_neg ends]
      have lower := (ih (complete text) others).1
      by_cases newline : '\n' ∈ pieces.flatten
      · -- the line goes on in a later piece
        have before := length_complete text
        have left := length_complete (complete text ++ pieces.flatten)
        have right := length_complete (text ++ piece ++ pieces.flatten)
        have lost := List.length_pos_iff.mpr here
        rw [unfinished_append newline, List.length_append] at left right
        rw [List.length_append] at right
        exact ⟨by omega, fun same => by omega⟩
      · have plain : '\n' ∉ (piece :: pieces).flatten := by simp [ends, newline]
        have same := matching_seen_plain [] text plain
        have tail := matching_append_plain [] text plain
        rw [seen, if_neg ends, matching_nil, matching_nil] at same
        rw [matching_nil, matching_nil, List.flatten_cons, ← List.append_assoc] at tail
        rw [same, tail]
        refine ⟨le_refl _, fun _ => List.pairwise_of_forall_mem_list fun _ _ later member inside => ?_⟩
        exact absurd (List.mem_flatten.mpr ⟨later, member, inside⟩) plain

theorem Reads.nonempty (reads : Reads carry pieces) : ∀ piece ∈ pieces, piece ≠ [] := by
  induction pieces generalizing carry with
  | nil => simp
  | cons piece pieces ih => exact List.forall_mem_cons.mpr ⟨reads.1, ih reads.2.2⟩

/-- For every input without NUL bytes and every way `read` cuts it into pieces: `grep` writes
the lines that match, whatever the pattern, if and only if no piece without a newline comes
in front of one with a newline. -/
theorem grep_eq_matching_iff (buf : List Char) (nulless : NUL ∉ stream)
    (cut : pieces.flatten = stream) (reads : Reads 0 pieces) :
    (∀ re, grep re buf pieces = .ok (matching re stream)) ↔ Unbroken pieces := by
  subst cut
  constructor
  · intro every
    have whole := every []
    rw [grep_eq_seen [] buf nulless reads, matching_nil, matching_nil] at whole
    exact (length_seen [] reads.nonempty).2 (congrArg List.length (Except.ok.inj whole))
  · intro unbroken re
    rw [grep_eq_seen re buf nulless reads, matching_seen unbroken, List.nil_append]

/-- A line is read in two parts, with a newline in each; the last line has none. -/
theorem grep_eq_matching_iff_three :
    grep ['^', 'c'] (List.replicate SIZE NUL) [['a', '\n', 'c'], ['b', '\n', 'c'], ['d']] =
      .ok (matching ['^', 'c'] ['a', '\n', 'c', 'b', '\n', 'c', 'd']) ∧
    matching ['^', 'c'] ['a', '\n', 'c', 'b', '\n', 'c', 'd'] = ['c', 'b', '\n'] :=
  ⟨(grep_eq_matching_iff _ (by decide) rfl (by simp only [Reads]; decide)).mpr
    (by unfold Unbroken; decide) ['^', 'c'], by decide⟩

/-- The line `ab` matches the pattern `a`. It is written when one `read` returns it, and lost
when the first `read` returns only its first character. -/
theorem grep_loses_line :
    grep ['a'] (List.replicate SIZE NUL) [['a', 'b', '\n']] = .ok ['a', 'b', '\n'] ∧
      grep ['a'] (List.replicate SIZE NUL) [['a'], ['b', '\n']] = .ok [] := by
  decide +kernel

end Xv6.GrepLines
