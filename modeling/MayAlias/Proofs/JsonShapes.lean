import Mathlib.Data.List.Forall2
import MayAlias.Proofs.JsonWords

/-!
# Shapes of the format, written and read

`Inverts item print` says that a reader takes what a printer wrote off the front of a text and
leaves the rest, provided that the rest goes on as it may behind a value.  Readers of words invert
the printers of words, and the readers of arrays invert the printers of arrays if those of the
elements do: the reader of an array looks for a bracket or a comma in front of each element, and the
commas stand exactly there.
-/

namespace MayAlias.Json

/-! ## Punctuation -/

/-- A character that is not blank is not skipped. -/
lemma skipBlanks_cons {c : Char} (hc : isBlank c = false) (cs : List Char) :
    skipBlanks (c :: cs) = c :: cs := by
  rw [skipBlanks, List.dropWhile_cons, hc]
  rfl

/-- The text starts with a character of its own: not with a blank, not with a closing bracket, and
not as `null` does. -/
def Opens (text : List Char) : Prop :=
  ∃ c cs, text = c :: cs ∧ isBlank c = false ∧ c ≠ ']' ∧ c ≠ 'n'

/-- A closing bracket ends the elements. -/
lemma nextElement_close (first : Bool) (rest : List Char) :
    nextElement first (']' :: rest) = .ok (.stop rest) := by
  rw [nextElement, skipBlanks_cons (by decide)]
  exact if_pos rfl

/-- A text with a comma before it, unless it is the first of its list. -/
def separated (first : Bool) (text : List Char) : List Char := if first then text else ',' :: text

/-- An element is found where it starts, behind its comma if there is one. -/
lemma nextElement_separated (first : Bool) {text : List Char} (h : Opens text) (rest : List Char) :
    nextElement first (separated first (text ++ rest)) = .ok (.item (text ++ rest)) := by
  obtain ⟨c, cs, rfl, hblank, hclose, _⟩ := h
  cases first with
  | true =>
    rw [nextElement, separated, if_pos rfl, List.cons_append, skipBlanks_cons hblank]
    simp [hclose]
  | false =>
    rw [nextElement, separated, if_neg Bool.false_ne_true, skipBlanks_cons (by decide),
      List.cons_append]
    simp [skipBlanks_cons hblank, hclose]

/-- A closing brace ends the members. -/
lemma nextMember_close (first : Bool) (rest : List Char) :
    nextMember first ('\x7d' :: rest) = .ok (.stop rest) := by
  rw [nextMember, skipBlanks_cons (by decide)]
  exact if_pos rfl

/-- A key is found behind its quote, and behind its comma if there is one. -/
lemma nextMember_separated (first : Bool) (rest : List Char) :
    nextMember first (separated first ('"' :: rest)) = .ok (.item rest) := by
  cases first with
  | true => rfl
  | false =>
    rw [nextMember, separated, if_neg Bool.false_ne_true, skipBlanks_cons (by decide)]
    simp [skipBlanks_cons, isBlank, openKey]

lemma colon_cons (rest : List Char) : colon (':' :: rest) = .ok rest := by
  rw [colon, skipBlanks_cons (by decide)]
  rfl

lemma closeArray_cons (rest : List Char) : closeArray (']' :: rest) = .ok rest := by
  rw [closeArray, skipBlanks_cons (by decide)]
  rfl

/-- Items behind the first have a comma before them. -/
lemma commaSep_cons (item : List Char) (items : List (List Char)) :
    commaSep (item :: items) = item ++ items.flatMap (',' :: ·) := by
  induction items generalizing item with
  | nil => simp [commaSep]
  | cons next items ih =>
    show item ++ ',' :: commaSep (next :: items) = _
    rw [ih, List.flatMap_cons, List.cons_append]

/-- Items of a list with a comma before each, except before the first of all. -/
def listed (first : Bool) (items : List (List Char)) : List Char :=
  if first then commaSep items else items.flatMap (',' :: ·)

lemma listed_true (items : List (List Char)) : listed true items = commaSep items := rfl

lemma listed_nil (first : Bool) : listed first [] = [] := by cases first <;> rfl

/-- A list starts with its first item, and a comma comes before each of the others. -/
lemma listed_cons (first : Bool) (item : List Char) (items : List (List Char)) (rest : List Char) :
    listed first (item :: items) ++ rest
      = separated first (item ++ (listed false items ++ rest)) := by
  cases first with
  | true =>
    show commaSep (item :: items) ++ rest = item ++ (items.flatMap (',' :: ·) ++ rest)
    rw [commaSep_cons, List.append_assoc]
  | false => simp [listed, separated]

/-- Behind an item comes a comma or a closing bracket. -/
lemma ends_listed (items : List (List Char)) {close : Char} (hclose : close = ']' ∨ close = '\x7d')
    (rest : List Char) : Ends (listed false items ++ close :: rest) := by
  cases items with
  | nil => exact ends_cons (Or.inr hclose) rest
  | cons item items => exact ends_cons (Or.inl rfl) _

/-- Every item but the first has a comma, and the closing bracket makes up for the first. -/
lemma length_lt_commaSep (items : List (List Char)) (close : Char) (rest : List Char) :
    items.length < (commaSep items ++ close :: rest).length + 1 := by
  have hcommas : ∀ items : List (List Char), items.length ≤ (items.flatMap (',' :: ·)).length := by
    intro items
    induction items with
    | nil => exact le_rfl
    | cons item items ih =>
      rw [List.flatMap_cons, List.length_append, List.length_cons, List.length_cons]
      omega
  rw [List.length_append, List.length_cons]
  cases items with
  | nil => exact Nat.succ_pos _
  | cons item items =>
    have htail := hcommas items
    rw [commaSep_cons, List.length_append, List.length_cons]
    omega

/-! ## Readers that invert printers -/

/-- The reader takes the text for `a`, whatever may follow it. -/
def ReadsBack {α : Type} (item : Reader α) (text : List Char) (a : α) : Prop :=
  ∀ rest, Ends rest → item (text ++ rest) = .ok (a, rest)

/-- The reader takes what the printer writes for what was printed. -/
structure Inverts {α : Type} (item : Reader α) (print : α → List Char) : Prop where
  opens : ∀ a, Opens (print a)
  reads : ∀ a, ReadsBack item (print a) a

/-- The text of a string, from its opening to its closing quote. -/
lemma quote_append (s : String) (rest : List Char) :
    quote s ++ rest = '"' :: (s.toList.flatMap quoteChar ++ '"' :: rest) := by
  simp [quote]

lemma opens_quote (s : String) : Opens (quote s) := ⟨'"', _, rfl, by decide, by decide, by decide⟩

/-- Strings are read back as they were quoted. -/
theorem inverts_text : Inverts text quote where
  opens := opens_quote
  reads s rest _ := by
    rw [text, quote_append, skipBlanks_cons (by decide)]
    exact string_quoted .exact s rest

lemma ne_of_isDigit {c d : Char} (hd : isDigit d = true) (hc : isDigit c = false) : d ≠ c := by
  rintro rfl
  simp [hc] at hd

/-- A digit is not blank. -/
lemma isBlank_of_isDigit {d : Char} (hd : isDigit d = true) : isBlank d = false := by
  have hne : d ≠ ' ' ∧ d ≠ '\n' ∧ d ≠ '\t' ∧ d ≠ '\r' :=
    ⟨ne_of_isDigit hd (by decide), ne_of_isDigit hd (by decide), ne_of_isDigit hd (by decide),
      ne_of_isDigit hd (by decide)⟩
  simp [isBlank, hne]

/-- Words are read back digit by digit. -/
theorem inverts_word : Inverts word printWord where
  opens w := by
    obtain ⟨d, ds, hds, hd⟩ := exists_toDigits_eq_cons w.toNat
    exact ⟨d, ds, hds, isBlank_of_isDigit hd, ne_of_isDigit hd (by decide),
      ne_of_isDigit hd (by decide)⟩
  reads w rest hrest := by
    -- the rest is no part of the numeral, so all digits and no more are taken
    have hnumeral := numeral_toDigits .exact (toNat_le_maxWord w) hrest
    obtain ⟨d, ds, hds, hd⟩ := exists_toDigits_eq_cons w.toNat
    rw [hds, List.cons_append, ← hds] at hnumeral
    rw [word, printWord, hds, List.cons_append, skipBlanks_cons (isBlank_of_isDigit hd)]
    simp [hd, hnumeral, toWord?_toDigits, bind, Except.bind]

/-- A value that may be absent is read back when present ones are. -/
lemma Inverts.optional {α : Type} {item : Reader α} {print : α → List Char}
    (h : Inverts item print) (o : Option α) :
    ReadsBack (optional item) (printOptional print o) o := by
  intro rest hrest
  cases o with
  | none => rfl
  | some a =>
    have hread := h.reads a rest hrest
    obtain ⟨c, cs, htext, hblank, _, hn⟩ := h.opens a
    rw [htext, List.cons_append] at hread
    rw [printOptional, htext, List.cons_append, Json.optional, skipBlanks_cons hblank]
    split
    · next heq => exact absurd (List.cons.inj heq).1 hn
    · rw [hread]
      rfl

/-- The text starts as a value does, and the reader takes it for `a`. -/
structure TextOf {α : Type} (item : Reader α) (text : List Char) (a : α) : Prop where
  opens : Opens text
  reads : ReadsBack item text a

section Array

variable {α : Type} {item : Reader α} {texts : List (List Char)} {items : List α}

/-- The elements of an array come out one after the other. -/
lemma itemsWithin_listed (h : List.Forall₂ (TextOf item) texts items) (first : Bool) {n : ℕ}
    (hn : texts.length < n) (rest : List Char) :
    itemsWithin item n first (listed first texts ++ ']' :: rest) = .ok (items, rest) := by
  obtain ⟨n, rfl⟩ := Nat.exists_eq_succ_of_ne_zero (Nat.ne_of_gt (Nat.zero_lt_of_lt hn))
  induction h generalizing n first with
  | nil =>
    rw [listed_nil, List.nil_append, itemsWithin, nextElement_close]
    rfl
  | @cons text a texts items hitem _ ih =>
    rw [List.length_cons] at hn
    obtain ⟨n, rfl⟩ := Nat.exists_eq_succ_of_ne_zero (show n ≠ 0 by omega)
    -- behind the element comes a comma or the bracket
    have hread := hitem.reads _ (ends_listed texts (Or.inl rfl) rest)
    have hitems := ih false n (by omega)
    rw [listed_cons, itemsWithin, nextElement_separated first hitem.opens]
    simp only [bind, Except.bind, hread, hitems]

/-- An array of texts is one for the reader of arrays. -/
theorem textOf_array (h : List.Forall₂ (TextOf item) texts items) :
    TextOf (array item) ('[' :: commaSep texts ++ [']']) items where
  opens := ⟨'[', _, rfl, by decide, by decide, by decide⟩
  reads rest _ := by
    have htext : '[' :: commaSep texts ++ [']'] ++ rest
        = '[' :: (commaSep texts ++ ']' :: rest) := by simp
    rw [htext, array, skipBlanks_cons (by decide)]
    exact itemsWithin_listed h true (length_lt_commaSep texts ']' rest) rest

/-- Arrays are read back when their elements are. -/
theorem Inverts.array {print : α → List Char} (h : Inverts item print) :
    Inverts (Json.array item) (printArray print) := by
  have htexts : ∀ items : List α, List.Forall₂ (TextOf item) (items.map print) items := by
    intro items
    rw [List.forall₂_map_left_iff, List.forall₂_same]
    exact fun a _ => ⟨h.opens a, h.reads a⟩
  exact ⟨fun items => (textOf_array (htexts items)).opens,
    fun items => (textOf_array (htexts items)).reads⟩

end Array

/-- A whole text is taken for what it says. -/
lemma TextOf.whole {α : Type} {item : Reader α} {text : String} {a : α}
    (h : TextOf item text.toList a) : whole item text = .ok a := by
  have hread := h.reads [] ends_nil
  rw [List.append_nil] at hread
  rw [Json.whole, hread]
  rfl

/-- What is printed is read back as a whole text. -/
lemma Inverts.whole {α : Type} {item : Reader α} {print : α → List Char} (h : Inverts item print)
    (a : α) : whole item (String.ofList (print a)) = .ok a := by
  refine TextOf.whole ⟨?_, ?_⟩ <;> rw [String.toList_ofList]
  · exact h.opens a
  · exact h.reads a

end MayAlias.Json
