import Mathlib.Algebra.BigOperators.Group.List.Basic
import Mathlib.Algebra.Ring.Nat
import Mathlib.Tactic.Common
import MayAlias.Text.Lines

/-!
# Rows and lines

A text made of rows, each ended by a line feed, has the rows as its lines when no row has a line
feed of its own.  Otherwise it has more lines than rows: a row takes one line for every line feed in
it and one for that at its end (`span`).  `outline` reads off a text which lines are not indented
and how many indented lines stand below each.
-/

namespace MayAlias.Text

/-! ## Carriage returns -/

/-- At most one carriage return is dropped, from the end. -/
lemma dropReturn_cases (line : List Char) :
    dropReturn line = line ∨ dropReturn line ++ ['\r'] = line := by
  unfold dropReturn
  split
  · next rest h =>
    right
    rw [← List.reverse_cons, ← h, List.reverse_reverse]
  · exact Or.inl rfl

/-- Dropping a carriage return adds nothing. -/
lemma dropReturn_subset (line : List Char) : dropReturn line ⊆ line := by
  rcases dropReturn_cases line with h | h
  · rw [h]
    exact List.Subset.refl _
  · nth_rewrite 2 [← h]
    exact List.subset_append_left _ _

/-- A line that ends with another character stays as it is. -/
lemma dropReturn_concat (line : List Char) {c : Char} (hc : c ≠ '\r') :
    dropReturn (line ++ [c]) = line ++ [c] := by
  rcases dropReturn_cases (line ++ [c]) with h | h
  · exact h
  · exact absurd (List.append_inj_right' h rfl) (by simp [Ne.symm hc])

/-- The first character of a line is kept, unless it is a carriage return. -/
lemma head?_dropReturn_cons (line : List Char) {c : Char} (hc : c ≠ '\r') :
    (dropReturn (c :: line)).head? = some c := by
  rcases dropReturn_cases (c :: line) with h | h
  · rw [h]
    rfl
  · cases hrest : dropReturn (c :: line) with
    | nil =>
      rw [hrest] at h
      -- the first character would be the carriage return that is dropped
      exact absurd (List.cons.inj h).1.symm hc
    | cons d rest =>
      rw [hrest] at h
      exact congrArg some (List.cons.inj h).1

/-! ## The lines of rows -/

/-- The rows, each ended by a line feed. -/
def endRows (rows : List (List Char)) : List Char := rows.flatMap fun row => row ++ ['\n']

/-- The number of lines that rows take. -/
def span (rows : List (List Char)) : ℕ := (rows.map fun row => row.count '\n' + 1).sum

/-- Rows take their lines one after the other. -/
lemma span_append (rows rows' : List (List Char)) :
    span (rows ++ rows') = span rows + span rows' := by
  rw [span, List.map_append, List.sum_append]
  rfl

lemma endRows_flatMap {α : Type} (f : α → List (List Char)) (l : List α) :
    endRows (l.flatMap f) = l.flatMap fun a => endRows (f a) := List.flatMap_assoc

lemma span_flatMap {α : Type} (f : α → List (List Char)) (l : List α) :
    span (l.flatMap f) = (l.map fun a => span (f a)).sum := by
  induction l with
  | nil => rfl
  | cons a l ih => rw [List.flatMap_cons, span_append, ih, List.map_cons, List.sum_cons]

/-- Without a line feed, all characters go to the current line. -/
lemma linesFrom_append_of_notMem {row : List Char} (hrow : '\n' ∉ row) (current rest : List Char) :
    linesFrom current (row ++ rest) = linesFrom (row.reverse ++ current) rest := by
  induction row generalizing current with
  | nil => rfl
  | cons c row ih =>
    rw [List.mem_cons, not_or] at hrow
    rw [List.cons_append, linesFrom, if_neg (Ne.symm hrow.1), ih hrow.2, List.reverse_cons,
      List.append_assoc, List.singleton_append]

/-- Rows without line feeds are the lines of the text. -/
lemma lines_endRows {rows : List (List Char)} (hrows : ∀ row ∈ rows, '\n' ∉ row) :
    lines (endRows rows) = rows.map dropReturn := by
  induction rows with
  | nil => rfl
  | cons row rows ih =>
    rw [List.forall_mem_cons] at hrows
    rw [lines] at ih ⊢
    rw [endRows, List.flatMap_cons, List.append_assoc, linesFrom_append_of_notMem hrows.1,
      List.singleton_append, linesFrom, if_pos rfl, List.append_nil, List.reverse_reverse,
      List.map_cons]
    exact congrArg _ (ih hrows.2)

/-- Each line feed ends a line. -/
lemma length_linesFrom (current row rest : List Char) :
    (linesFrom current (row ++ '\n' :: rest)).length =
      row.count '\n' + 1 + (lines rest).length := by
  induction row generalizing current with
  | nil =>
    rw [List.nil_append, linesFrom, if_pos rfl, List.length_cons, List.count_nil, lines]
    omega
  | cons c row ih =>
    rw [List.cons_append, linesFrom]
    split
    -- a line feed within the row ends a line of its own
    · next hc =>
      rw [List.length_cons, ih, hc, List.count_cons_self]
      omega
    · next hc => rw [ih, List.count_cons_of_ne hc]

/-- The number of lines that rows take is read off their line feeds. -/
lemma length_lines_endRows (rows : List (List Char)) :
    (lines (endRows rows)).length = span rows := by
  induction rows with
  | nil => rfl
  | cons row rows ih =>
    rw [endRows, List.flatMap_cons, List.append_assoc, List.singleton_append, lines,
      length_linesFrom, span, List.map_cons, List.sum_cons]
    exact congrArg _ ih

/-- No line has a line feed. -/
lemma lf_notMem_linesFrom {current : List Char} (hcurrent : '\n' ∉ current) (text : List Char) :
    ∀ line ∈ linesFrom current text, '\n' ∉ line := by
  induction text generalizing current with
  | nil =>
    rw [linesFrom]
    split <;> simp [hcurrent]
  | cons c text ih =>
    rw [linesFrom]
    split
    · intro line hline
      rcases List.mem_cons.1 hline with rfl | hline
      · exact fun h => hcurrent (List.mem_reverse.1 (dropReturn_subset _ h))
      · exact ih List.not_mem_nil line hline
    · next hc => exact ih (by simp [hcurrent, Ne.symm hc])

/-- Lines have no line feed. -/
lemma lf_notMem_of_mem_lines {text line : List Char} (hline : line ∈ lines text) : '\n' ∉ line :=
  lf_notMem_linesFrom List.not_mem_nil text line hline

/-- Each row takes a line at least. -/
lemma length_le_span (rows : List (List Char)) : rows.length ≤ span rows := by
  induction rows with
  | nil => simp [span]
  | cons row rows ih =>
    rw [span, List.map_cons, List.sum_cons, List.length_cons]
    rw [span] at ih
    omega

/-- Rows take one line each just when none has a line feed. -/
lemma span_eq_length_iff (rows : List (List Char)) :
    span rows = rows.length ↔ ∀ row ∈ rows, '\n' ∉ row := by
  induction rows with
  | nil => simp [span]
  | cons row rows ih =>
    have hle := length_le_span rows
    rw [List.forall_mem_cons, ← ih, ← List.count_eq_zero, span, List.map_cons, List.sum_cons,
      List.length_cons]
    rw [span] at hle ⊢
    omega

/-! ## Outlines -/

/-- The number of indented lines at the start, and the lines that are not indented, each with the
number of indented lines below it. -/
def outline : List (List Char) → ℕ × List (List Char × ℕ)
  | [] => (0, [])
  | line :: rest =>
    if line.head? = some '\t' then ((outline rest).1 + 1, (outline rest).2)
    else (0, (line, (outline rest).1) :: (outline rest).2)

/-- Indented lines count for the line above them. -/
lemma outline_append {block : List (List Char)} (hblock : ∀ line ∈ block, line.head? = some '\t')
    (rest : List (List Char)) :
    outline (block ++ rest) = (block.length + (outline rest).1, (outline rest).2) := by
  induction block with
  | nil => simp
  | cons line block ih =>
    rw [List.forall_mem_cons] at hblock
    rw [List.cons_append, outline, if_pos hblock.1, ih hblock.2, List.length_cons]
    simp only [Prod.mk.injEq, and_true]
    omega

/-- An outline accounts for all lines. -/
lemma length_eq_outline (text : List (List Char)) :
    text.length = (outline text).1 + ((outline text).2.map fun block => block.2 + 1).sum := by
  induction text with
  | nil => rfl
  | cons line text ih =>
    rw [outline, List.length_cons, ih]
    split <;> simp <;> omega

end MayAlias.Text
