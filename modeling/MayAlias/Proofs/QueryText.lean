import Mathlib.Data.List.DropRight
import Mathlib.Tactic.MkIffOfInductiveProp
import Mathlib.Tactic.TFAE
import MayAlias.Alias.Query

/-!
# Texts of queries

A query is read by cutting its text at the first `~`, trimming both sides and cutting the left side
at its first `.`.  So white space goes from the outer ends of the two sides but stays around the
dot, and a second `~` is an error where a second `.` belongs to the field.  `Query.Canonical` says
which queries come out of this; these are also the ones whose own text is read back.
-/

namespace MayAlias

/-! ## Trimming -/

namespace Text

/-- The text does not begin with white space. -/
def StartsTight (cs : List Char) : Prop := ∀ c ∈ cs.head?, isBlank c = false

/-- The text does not end with white space. -/
def EndsTight (cs : List Char) : Prop := ∀ c ∈ cs.getLast?, isBlank c = false

instance (cs : List Char) : Decidable (StartsTight cs) :=
  decidable_of_iff (cs.head?.all (!isBlank ·) = true) (by simp [StartsTight, Option.all_eq_true])

instance (cs : List Char) : Decidable (EndsTight cs) :=
  decidable_of_iff (cs.getLast?.all (!isBlank ·) = true) (by simp [EndsTight, Option.all_eq_true])

lemma endsTight_iff_reverse {cs : List Char} : EndsTight cs ↔ StartsTight cs.reverse := by
  unfold EndsTight StartsTight
  rw [List.head?_reverse]

/-- Dropping the blanks in front leaves a text that starts tight. -/
lemma startsTight_dropWhile (cs : List Char) : StartsTight (cs.dropWhile isBlank) := by
  intro c hc
  have hfirst := List.head?_dropWhile_not isBlank cs
  rw [Option.mem_def.1 hc] at hfirst
  exact hfirst

/-- Nothing is dropped from a text that starts tight. -/
lemma dropWhile_of_startsTight {cs : List Char} (h : StartsTight cs) :
    cs.dropWhile isBlank = cs := by
  cases cs with
  | nil => rfl
  | cons c cs => rw [List.dropWhile_cons_of_neg (by simp [h c rfl])]

/-- The beginning of a text begins as the text does. -/
lemma StartsTight.of_isPrefix {cs ds : List Char} (h : StartsTight ds) (hpre : cs <+: ds) :
    StartsTight cs := by
  obtain ⟨rest, rfl⟩ := hpre
  intro c hc
  apply h
  rw [List.head?_append, Option.mem_def.1 hc]
  rfl

lemma trimEnd_isPrefix (cs : List Char) : trimEnd cs <+: cs := List.rdropWhile_prefix isBlank cs

/-- What is left after trimming stands in the text. -/
lemma trim_sublist (cs : List Char) : (trim cs).Sublist cs :=
  (trimEnd_isPrefix _).sublist.trans (List.dropWhile_sublist isBlank)

lemma startsTight_trim (cs : List Char) : StartsTight (trim cs) :=
  (startsTight_dropWhile cs).of_isPrefix (trimEnd_isPrefix _)

/-- A trimmed text is tight at both ends. -/
lemma endsTight_trim (cs : List Char) : EndsTight (trim cs) := by
  rw [endsTight_iff_reverse, trim, trimEnd, List.reverse_reverse]
  exact startsTight_dropWhile _

/-- A text that is tight at both ends is its own trimmed form. -/
lemma trim_of_tight {cs : List Char} (hstart : StartsTight cs) (hend : EndsTight cs) :
    trim cs = cs := by
  rw [endsTight_iff_reverse] at hend
  rw [trim, trimStart, dropWhile_of_startsTight hstart, trimEnd, dropWhile_of_startsTight hend,
    List.reverse_reverse]

lemma startsTight_append {cs ds : List Char} (hne : cs ≠ []) :
    StartsTight (cs ++ ds) ↔ StartsTight cs := by
  unfold StartsTight
  rw [List.head?_append_of_ne_nil cs hne]

/-- The ends of a text are those of its outer parts, unless these are empty. -/
lemma endsTight_append {cs ds : List Char} (hne : ds ≠ []) :
    EndsTight (cs ++ ds) ↔ EndsTight ds := by
  unfold EndsTight
  rw [List.getLast?_append_of_ne_nil cs hne]

end Text

namespace Query

open Text

/-! ## Cutting -/

/-- The first separator is where a text is cut, so what stands in front may not have one. -/
lemma splitOnce_append {sep : Char} {before : List Char} (h : sep ∉ before)
    (behind : List Char) : splitOnce sep (before ++ sep :: behind) = some (before, behind) := by
  induction before with
  | nil => simp [splitOnce]
  | cons c before ih =>
    rw [List.mem_cons, not_or] at h
    rw [List.cons_append, splitOnce, if_neg (Ne.symm h.1), ih h.2]
    rfl

/-- Put together with the separator, the two parts are the text again. -/
lemma eq_append_of_splitOnce {sep : Char} {cs before behind : List Char}
    (h : splitOnce sep cs = some (before, behind)) :
    cs = before ++ sep :: behind ∧ sep ∉ before := by
  induction cs generalizing before with
  | nil => simp [splitOnce] at h
  | cons c cs ih =>
    rw [splitOnce] at h
    split at h
    · next hc =>
      obtain ⟨rfl, rfl⟩ := Prod.mk.inj (Option.some.inj h)
      exact ⟨by rw [hc, List.nil_append], List.not_mem_nil⟩
    · next hc =>
      obtain ⟨⟨front, rest⟩, hcut, heq⟩ := Option.map_eq_some_iff.1 h
      obtain ⟨rfl, rfl⟩ := Prod.mk.inj heq
      obtain ⟨rfl, hfront⟩ := ih hcut
      exact ⟨rfl, by simp [hfront, Ne.symm hc]⟩

/-- A text is cut at the first occurrence of the separator. -/
lemma splitOnce_eq_some_iff {sep : Char} {cs before behind : List Char} :
    splitOnce sep cs = some (before, behind) ↔ cs = before ++ sep :: behind ∧ sep ∉ before := by
  constructor
  · exact eq_append_of_splitOnce
  · rintro ⟨rfl, h⟩
    exact splitOnce_append h behind

/-- A text is not cut when the separator does not occur in it. -/
lemma splitOnce_eq_none_iff {sep : Char} {cs : List Char} :
    splitOnce sep cs = none ↔ sep ∉ cs := by
  induction cs with
  | nil => simp [splitOnce]
  | cons c cs ih =>
    rw [splitOnce]
    split
    · next hc => simp [hc]
    · next hc => simp [ih, Ne.symm hc]

/-! ## Canonical queries -/

/-- The text can be a whole side of a query. -/
@[mk_iff]
structure IsSide (cs : List Char) : Prop where
  nonempty : cs ≠ []
  no_tilde : '~' ∉ cs
  starts : StartsTight cs
  ends : EndsTight cs

instance (cs : List Char) : Decidable (IsSide cs) := decidable_of_iff' _ (isSide_iff cs)

/-- The query can be written down.  Around the dot white space is allowed, and behind it further
dots. -/
def Canonical : Query → Prop
  | vars left right => (IsSide left.toList ∧ '.' ∉ left.toList) ∧ IsSide right.toList
  | field left name right =>
    (left.toList ≠ [] ∧ '~' ∉ left.toList ∧ '.' ∉ left.toList ∧ StartsTight left.toList) ∧
      (name.toList ≠ [] ∧ '~' ∉ name.toList ∧ EndsTight name.toList) ∧ IsSide right.toList

instance : (q : Query) → Decidable q.Canonical
  | vars .. => inferInstanceAs (Decidable (_ ∧ _))
  | field .. => inferInstanceAs (Decidable (_ ∧ _))

/-- What stands before the `~`. -/
def leftSide : Query → List Char
  | vars left _ => left.toList
  | field left name _ => left.toList ++ '.' :: name.toList

/-- What stands behind the `~`. -/
def rightSide : Query → List Char
  | vars _ right => right.toList
  | field _ _ right => right.toList

/-- Cutting the left side at its first dot gives the parts of the query. -/
def CutAtDot : Query → Prop
  | vars left _ => left.toList ≠ [] ∧ '.' ∉ left.toList
  | field left name _ => (left.toList ≠ [] ∧ name.toList ≠ []) ∧ '.' ∉ left.toList

/-- The text of a query is its two sides with `~` between them. -/
lemma toList_render (q : Query) : q.render.toList = q.leftSide ++ '~' :: q.rightSide := by
  cases q with
  | vars left right => simp [render, leftSide, rightSide]
  | field left name right => simp [render, leftSide, rightSide]

/-- The left side of a query about a field is tight when the variable starts and the field ends
tight: the white space around the dot does not count. -/
lemma isSide_leftSide_field {left name : String} (right : String) (hleft : left.toList ≠ [])
    (hname : name.toList ≠ []) :
    IsSide (field left name right).leftSide ↔ ('~' ∉ left.toList ∧ '~' ∉ name.toList) ∧
      StartsTight left.toList ∧ EndsTight name.toList := by
  have hstart : StartsTight (field left name right).leftSide ↔ StartsTight left.toList :=
    startsTight_append hleft
  have hend : EndsTight (field left name right).leftSide ↔ EndsTight name.toList := by
    rw [leftSide, List.append_cons]
    exact endsTight_append hname
  have htilde : '~' ∉ (field left name right).leftSide ↔
      '~' ∉ left.toList ∧ '~' ∉ name.toList := by
    simp [leftSide]
  rw [← hstart, ← hend, ← htilde]
  constructor
  · exact fun h => ⟨h.no_tilde, h.starts, h.ends⟩
  · exact fun h => ⟨by simp [leftSide], h.1, h.2.1, h.2.2⟩

/-- A query is canonical when both its sides are, and the left one is cut at the right dot. -/
lemma canonical_iff {q : Query} :
    q.Canonical ↔ IsSide q.leftSide ∧ IsSide q.rightSide ∧ q.CutAtDot := by
  cases q with
  | vars left right =>
    constructor
    · rintro ⟨⟨hleft, hdot⟩, hright⟩
      exact ⟨hleft, hright, hleft.nonempty, hdot⟩
    · rintro ⟨hleft, hright, _, hdot⟩
      exact ⟨⟨hleft, hdot⟩, hright⟩
  | field left name right =>
    constructor
    · rintro ⟨⟨hleft, htilde, hdot, hstart⟩, ⟨hname, htilde', hend⟩, hright⟩
      exact ⟨(isSide_leftSide_field right hleft hname).2 ⟨⟨htilde, htilde'⟩, hstart, hend⟩,
        hright, ⟨hleft, hname⟩, hdot⟩
    · rintro ⟨hside, hright, ⟨hleft, hname⟩, hdot⟩
      obtain ⟨⟨htilde, htilde'⟩, hstart, hend⟩ := (isSide_leftSide_field right hleft hname).1 hside
      exact ⟨⟨hleft, htilde, hdot, hstart⟩, ⟨hname, htilde', hend⟩, hright⟩

/-! ## Reading -/

/-- The query of two sides is the one that has these sides and is cut at the first dot. -/
lemma ofSides_eq_some_iff {left right : List Char} {q : Query} :
    ofSides left right = some q ↔
      (right ≠ [] ∧ '~' ∉ right) ∧ q.leftSide = left ∧ q.rightSide = right ∧ q.CutAtDot := by
  unfold ofSides
  constructor
  · intro h
    split at h
    · simp at h
    next hright =>
    rw [Bool.or_eq_true, not_or, List.isEmpty_iff, List.contains_iff_mem] at hright
    refine ⟨hright, ?_⟩
    -- with a dot the parts are the variable and the field, without one all of it is the variable
    split at h
    · next base name hcut =>
      obtain ⟨rfl, hdot⟩ := splitOnce_eq_some_iff.1 hcut
      split at h
      · simp at h
      next hparts =>
      rw [Bool.or_eq_true, not_or, List.isEmpty_iff, List.isEmpty_iff] at hparts
      obtain rfl := Option.some.inj h
      simpa [leftSide, rightSide, CutAtDot, hdot] using hparts
    · next hcut =>
      have hdot := splitOnce_eq_none_iff.1 hcut
      split at h
      · simp at h
      next hleft =>
      rw [List.isEmpty_iff] at hleft
      obtain rfl := Option.some.inj h
      simp [leftSide, rightSide, CutAtDot, hdot, hleft]
  · rintro ⟨⟨hne, htilde⟩, rfl, rfl, hcut⟩
    have hright : ¬ (q.rightSide.isEmpty || q.rightSide.contains '~') = true := by
      simp [hne, htilde]
    rw [if_neg hright]
    cases q with
    | vars left right =>
      obtain ⟨hleft, hdot⟩ := hcut
      simp [leftSide, rightSide, splitOnce_eq_none_iff.2 hdot, hleft]
    | field left name right =>
      obtain ⟨⟨hleft, hname⟩, hdot⟩ := hcut
      simp [leftSide, rightSide, splitOnce_append hdot, hleft, hname]

/-- What a text is read as: it is cut at its first `~`, and the trimmed sides make the query. -/
lemma parse_eq_ok_iff {text : String} {q : Query} :
    parse text = .ok q ↔ ∃ left right, text.toList = left ++ '~' :: right ∧ '~' ∉ left ∧
      ofSides (trim left) (trim right) = some q := by
  unfold parse
  constructor
  · intro h
    split at h
    · simp at h
    · next left right hcut =>
      obtain ⟨htext, hleft⟩ := splitOnce_eq_some_iff.1 hcut
      split at h
      · simp at h
      · next q' hq =>
        obtain rfl := Except.ok.inj h
        exact ⟨left, right, htext, hleft, hq⟩
  · intro h
    obtain ⟨left, right, htext, hleft, hq⟩ := h
    rw [splitOnce_eq_some_iff.2 ⟨htext, hleft⟩]
    simp only [hq]

/-- A trimmed text is a side as soon as it is not empty and has no `~`. -/
lemma isSide_trim {cs : List Char} (hne : trim cs ≠ []) (htilde : '~' ∉ trim cs) :
    IsSide (trim cs) :=
  ⟨hne, htilde, startsTight_trim cs, endsTight_trim cs⟩

lemma CutAtDot.leftSide_ne_nil {q : Query} (h : q.CutAtDot) : q.leftSide ≠ [] := by
  cases q with
  | vars left right => exact h.1
  | field left name right => simp [leftSide]

/-- What is read is canonical. -/
lemma canonical_of_parse {text : String} {q : Query} (h : parse text = .ok q) : q.Canonical := by
  obtain ⟨left, right, _, htilde, hq⟩ := parse_eq_ok_iff.1 h
  obtain ⟨⟨hne, htilde'⟩, hleft, hright, hcut⟩ := ofSides_eq_some_iff.1 hq
  -- trimming only takes characters away, so it leaves the left side without a `~`
  have hsub : '~' ∉ trim left := fun hmem => htilde ((trim_sublist left).subset hmem)
  have hside : IsSide q.leftSide := by
    rw [hleft]
    exact isSide_trim (hleft ▸ hcut.leftSide_ne_nil) hsub
  have hside' : IsSide q.rightSide := by
    rw [hright]
    exact isSide_trim hne htilde'
  exact canonical_iff.2 ⟨hside, hside', hcut⟩

/-- The text of a canonical query is read back. -/
lemma parse_render {q : Query} (h : q.Canonical) : parse q.render = .ok q := by
  obtain ⟨hleft, hright, hcut⟩ := canonical_iff.1 h
  refine parse_eq_ok_iff.2 ⟨_, _, toList_render q, hleft.no_tilde, ?_⟩
  rw [trim_of_tight hleft.starts hleft.ends, trim_of_tight hright.starts hright.ends,
    ofSides_eq_some_iff]
  exact ⟨⟨hright.nonempty, hright.no_tilde⟩, rfl, rfl, hcut⟩

/-- A query is read from some text when it is read from its own, and this is so when it is
canonical. -/
theorem read_queries_canonical (q : Query) :
    [∃ text, parse text = .ok q, parse q.render = .ok q, q.Canonical].TFAE := by
  tfae_have 1 → 3 := fun ⟨_, h⟩ => canonical_of_parse h
  tfae_have 3 → 2 := parse_render
  tfae_have 2 → 1 := fun h => ⟨q.render, h⟩
  tfae_finish

example : (field "a " " f.g" "b c").Canonical ∧ ¬ (vars "a.f" "b").Canonical ∧
    ¬ (field "a" "f " "b").Canonical := by decide

end Query

end MayAlias
