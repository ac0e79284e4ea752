import MayAlias.Procedure.Json
import MayAlias.Proofs.StatementText

/-!
# Descriptions and their texts

The reader of descriptions takes back what the printer wrote: every name and string, every number of
64 bits, every list of statements and edges, and for what is absent its `null`.  It does not insist
on the form that the printer chooses.  `Procedure.Written` are the texts that say the same: with the
members in any order, without some that are `null`, with others among them, with statements in any
of their own texts, or all as an array.

A description is read member by member into a draft, and a draft depends on which members it has met
but not on their order (`Draft.given`).  `Draft.Takes` says what one member does to it and
`Draft.TakesAll` what the members do one after the other.
-/

namespace MayAlias

open Json

namespace Procedure

/-- Two words in an array. -/
lemma inverts_wordPair : Inverts wordPair printEdge where
  opens e := ⟨'[', _, rfl, by decide, by decide, by decide⟩
  reads e rest _ := by
    have htext : printEdge e ++ rest
        = '[' :: (printWord e.1 ++ ',' :: (printWord e.2 ++ ']' :: rest)) := by simp [printEdge]
    have hfirst := inverts_word.reads e.1 (',' :: (printWord e.2 ++ ']' :: rest))
      (ends_cons (Or.inl rfl) _)
    have hsecond := inverts_word.reads e.2 (']' :: rest) (ends_cons (Or.inr (Or.inl rfl)) _)
    have hnext := nextElement_separated true (inverts_word.opens e.1)
      (',' :: (printWord e.2 ++ ']' :: rest))
    have hnext' := nextElement_separated false (inverts_word.opens e.2) (']' :: rest)
    simp only [separated, if_true, Bool.false_eq_true, if_false] at hnext hnext'
    rw [htext, wordPair, skipBlanks_cons (by decide)]
    simp only [bind, Except.bind, hnext, hfirst, hnext', hsecond, closeArray_cons]

/-- The next element is found if it is `null`, too. -/
lemma nextElement_printOptional {α : Type} (first : Bool) {print : α → List Char}
    (h : ∀ a, Opens (print a)) (o : Option α) (rest : List Char) :
    nextElement first (separated first (printOptional print o ++ rest))
      = .ok (.item (printOptional print o ++ rest)) := by
  cases o with
  | none => cases first <;> rfl
  | some a => exact nextElement_separated first (h a) rest

/-! ## Texts -/

/-- The keys of a description and the texts under them, given those of the statements. -/
def parts (p : Procedure) (statements : List (List Char)) : List (String × List Char) :=
  [("name", printOptional quote p.name), ("entry", printOptional printWord p.entry),
    ("statements", '[' :: commaSep statements ++ [']']),
    ("edges", printOptional (printArray printEdge) p.edges)]

/-- The keys that mean something in a description. -/
def keys : List String := ["name", "entry", "statements", "edges"]

/-- The members of a description. -/
def members (p : Procedure) (statements : List (List Char)) : List Member :=
  (p.parts statements).map fun part => .plain part.1 part.2

lemma map_key_members (p : Procedure) (statements : List (List Char)) :
    (p.members statements).map Member.key = keys := rfl

/-- How deep values may be nested that are added to a statement: the whole text may be nested 127
deep, and the description, its list of statements and the statement are three of these. -/
def addedDepth : ℕ := 127 - 3

/-- The texts of a description. -/
inductive Written (p : Procedure) : List Char → Prop
  | object {statements : List (List Char)} {members : List Member}
    (hstatements : List.Forall₂ (Statement.Written addedDepth) p.statements statements)
    (h : Rearranged (fun m => ∃ d, AddedTo keys d m) (p.members statements) members) :
    Written p (objectText members)
  | array {statements : List (List Char)}
    (hstatements : List.Forall₂ (Statement.Written addedDepth) p.statements statements) :
    Written p ('[' :: (commaSep ((p.parts statements).map Prod.snd) ++ [']']))

lemma print_eq (p : Procedure) :
    p.print = objectText (p.members (p.statements.map Statement.print)) :=
  printObject_eq _

/-- The text that the printer writes is one of the texts of a description. -/
lemma written_print (p : Procedure) : Written p p.print := by
  have hstatements : List.Forall₂ (Statement.Written addedDepth) p.statements
      (p.statements.map Statement.print) := by
    rw [List.forall₂_map_right_iff, List.forall₂_same]
    exact fun s _ => s.written_print addedDepth
  rw [print_eq]
  exact .object hstatements (rearranged_refl _ _)

/-- The list of statements is read from their texts. -/
lemma readsBack_statements {p : Procedure} {statements : List (List Char)}
    (h : List.Forall₂ (Statement.Written addedDepth) p.statements statements) :
    TextOf readStatements ('[' :: commaSep statements ++ [']']) p.statements := by
  have hroom : addedDepth + 1 < statementDepth := by decide
  apply textOf_array
  exact h.flip.imp fun text s hs => hs.textOf hroom

/-! ## Drafts -/

namespace Draft

/-- The draft in which the members with the given keys have been met. -/
def given (p : Procedure) (met : List String) : Draft where
  name := if "name" ∈ met then some p.name else none
  entry := if "entry" ∈ met then some p.entry else none
  statements := if "statements" ∈ met then some p.statements else none
  edges := if "edges" ∈ met then some p.edges else none

/-- Reading the member turns the first draft into the second. -/
def Takes (d : Draft) (m : Member) (d' : Draft) : Prop :=
  ∀ cs rest, Ends rest → colon cs = .ok (m.value ++ rest) →
    ∃ ws, Blanks ws ∧ d.read m.key cs = .ok (d', ws ++ rest)

/-- A member that has not been met yet is read by its own reader. -/
lemma once_none {α : Type} (item : Reader α) {cs rest : List Char} (h : colon cs = .ok rest) :
    once none item cs = item rest := by
  simp only [once, Option.isSome_none, Bool.false_eq_true, if_false, h, bind, Except.bind]

section Takes

variable {p : Procedure} {met : List String}

/-- A known member is taken up if it has not been met. -/
lemma takes_known {statements : List (List Char)}
    (hstatements : List.Forall₂ (Statement.Written addedDepth) p.statements statements)
    {m : Member} (hm : m ∈ p.members statements) (hnew : m.key ∉ met) :
    (given p met).Takes m (given p (m.key :: met)) := by
  intro cs rest hrest hcolon
  refine ⟨[], blanks_nil, ?_⟩
  simp only [members, parts, List.map_cons, List.map_nil, List.mem_cons, List.not_mem_nil,
    or_false] at hm
  rcases hm with rfl | rfl | rfl | rfl <;> simp only [Member.plain] at hnew hcolon ⊢
  · have hseen : (given p met).name = none := if_neg hnew
    have hread := inverts_text.optional p.name rest hrest
    rw [read, if_pos rfl, hseen, once_none _ hcolon, hread]
    simp [bind, Except.bind, given]
  · have hseen : (given p met).entry = none := if_neg hnew
    have hread := inverts_word.optional p.entry rest hrest
    rw [read, if_neg (by decide), if_pos rfl, hseen, once_none _ hcolon, hread]
    simp [bind, Except.bind, given]
  · have hseen : (given p met).statements = none := if_neg hnew
    have hread := (readsBack_statements hstatements).reads rest hrest
    rw [read, if_neg (by decide), if_neg (by decide), if_pos rfl, hseen, once_none _ hcolon, hread]
    simp [bind, Except.bind, given]
  · have hseen : (given p met).edges = none := if_neg hnew
    have hread : readEdges _ = _ := inverts_wordPair.array.optional p.edges rest hrest
    rw [read, if_neg (by decide), if_neg (by decide), if_neg (by decide), if_pos rfl, hseen,
      once_none _ hcolon, hread]
    simp [bind, Except.bind, given]

/-- A member with another key is skimmed. -/
lemma takes_added {d : ℕ} {m : Member} (h : AddedTo keys d m) :
    (given p met).Takes m (given p (m.key :: met)) := by
  intro cs rest hrest hcolon
  have hroom : Room d none := trivial
  obtain ⟨v, hv⟩ := h.value.reads hroom
  obtain ⟨ws, hws, hread⟩ := hv.value rest hrest
  have hunknown := h.unknown
  simp only [keys, List.mem_cons, List.not_mem_nil, or_false, not_or] at hunknown
  obtain ⟨hname, hentry, hstatements, hedges⟩ := hunknown
  refine ⟨ws, hws, ?_⟩
  rw [read, if_neg hname, if_neg hentry, if_neg hstatements, if_neg hedges, hcolon]
  simp [hread, bind, Except.bind, given, Ne.symm hname, Ne.symm hentry, Ne.symm hstatements,
    Ne.symm hedges]

end Takes

/-- Reading the members one after the other turns the first draft into the second. -/
inductive TakesAll : Draft → List Member → Draft → Prop
  | nil (d : Draft) : TakesAll d [] d
  | cons {d d' d'' : Draft} {m : Member} {members : List Member} (hlabel : m.Labelled)
    (h : d.Takes m d') (hs : TakesAll d' members d'') : TakesAll d (m :: members) d''

/-- Members that are taken one after the other are read in one go, with whatever blanks between
them. -/
lemma TakesAll.draftWithin {d d' : Draft} {members : List Member} (h : TakesAll d members d')
    (first : Bool) {ws : List Char} (hws : Blanks ws) {n : ℕ} (hn : members.length < n)
    (rest : List Char) :
    draftWithin n first d (ws ++ (listed first (members.map Member.text) ++ '\x7d' :: rest))
      = .ok (d', rest) := by
  obtain ⟨n, rfl⟩ := Nat.exists_eq_succ_of_ne_zero (Nat.ne_of_gt (Nat.zero_lt_of_lt hn))
  induction h generalizing first ws n with
  | nil d =>
    rw [List.map_nil, listed_nil, List.nil_append, Procedure.draftWithin, hws.nextMember,
      nextMember_close]
    rfl
  | @cons d d' d'' m members hlabel h _ ih =>
    rw [List.length_cons] at hn
    obtain ⟨n, rfl⟩ := Nat.exists_eq_succ_of_ne_zero (show n ≠ 0 by omega)
    obtain ⟨behind, colonAndRest, hnext, hstring, hcolon⟩ := hlabel.next .exact first
      (m.value ++ (listed false (members.map Member.text) ++ '\x7d' :: rest))
    obtain ⟨ws', hws', hread⟩ := h colonAndRest _
      (ends_listed (members.map Member.text) (Or.inr rfl) rest) hcolon
    have hmembers := ih false hws' n (by omega)
    rw [List.map_cons, listed_cons, Member.text, List.append_assoc, Procedure.draftWithin,
      hws.nextMember, hnext]
    simp only [bind, Except.bind, hstring, hread, hmembers]

section Rearranged

variable {p : Procedure} {statements : List (List Char)} {members : List Member}
  (hstatements : List.Forall₂ (Statement.Written addedDepth) p.statements statements)

include hstatements

/-- The members are taken up in whatever order they come, if no known one comes twice. -/
lemma takesAll_given
    (hmembers : ∀ m ∈ members, m ∈ p.members statements ∨ ∃ d, AddedTo keys d m)
    (honce : members.Pairwise fun a b => a.key ∈ keys → a.key ≠ b.key) {met : List String}
    (hnew : ∀ m ∈ members, m.key ∈ keys → m.key ∉ met) :
    TakesAll (given p met) members (given p ((members.map Member.key).reverse ++ met)) := by
  induction members generalizing met with
  | nil => exact .nil _
  | cons m members ih =>
    rw [List.forall_mem_cons] at hmembers hnew
    rw [List.pairwise_cons] at honce
    have hnew' : ∀ m' ∈ members, m'.key ∈ keys → m'.key ∉ m.key :: met := by
      intro m' hm' hkey hmem
      rcases List.mem_cons.1 hmem with heq | hmet
      · exact honce.1 m' hm' (heq ▸ hkey) heq.symm
      · exact hnew.2 m' hm' hkey hmet
    have hrest := ih hmembers.2 honce.2 hnew'
    rw [List.map_cons, List.reverse_cons, List.append_assoc, List.singleton_append]
    rcases hmembers.1 with hknown | ⟨d, hadded⟩
    · have hkey : m.key ∈ keys := List.mem_map_of_mem hknown
      obtain ⟨part, _, rfl⟩ := List.mem_map.1 hknown
      exact .cons (Member.labelled_plain _ _) (takes_known hstatements hknown (hnew.1 hkey)) hrest
    · exact .cons hadded.labelled (takes_added hadded) hrest

end Rearranged

/-- A member that was met has its value, and one that was not met stands for `null`. -/
lemma join_met {α : Type} {P : Prop} [Decidable P] {o : Option α} (h : P ∨ o = none) :
    (if P then some o else none).join = o := by
  by_cases hP : P
  · rw [if_pos hP, Option.join_some]
  · rw [if_neg hP, Option.join_none, h.resolve_left hP]

/-- A draft is the description when all its members have been met but some that are absent. -/
lemma finish_given {p : Procedure} {met : List String} (hstatements : "statements" ∈ met)
    (hname : "name" ∈ met ∨ p.name = none) (hentry : "entry" ∈ met ∨ p.entry = none)
    (hedges : "edges" ∈ met ∨ p.edges = none) : (given p met).finish = .ok p := by
  have hgiven : (given p met).statements = some p.statements := if_pos hstatements
  rw [finish, hgiven]
  simp only [given, join_met hname, join_met hentry, join_met hedges]

end Draft

/-! ## Reading -/

section Reading

variable {p : Procedure} {statements : List (List Char)}
  (hstatements : List.Forall₂ (Statement.Written addedDepth) p.statements statements)

include hstatements

/-- The members of a description can be read in any order, without some that are `null` and with
others among them. -/
lemma readObject_of_rearranged {members : List Member}
    (h : Rearranged (fun m => ∃ d, AddedTo keys d m) (p.members statements) members)
    (rest : List Char) :
    readObject (commaSep (members.map Member.text) ++ '\x7d' :: rest) = .ok (p, rest) := by
  have hadded : ∀ m, (∃ d, AddedTo keys d m) → m.key ∉ (p.members statements).map Member.key := by
    rintro m ⟨d, hm⟩
    exact hm.unknown
  have honce := h.pairwise (by rw [map_key_members]; decide) hadded
  have htakes : Draft.TakesAll (Draft.given p []) members _ :=
    Draft.takesAll_given hstatements (fun m hm => h.mem_or_added hm) honce
      fun _ _ _ => List.not_mem_nil
  have hlength := length_lt_commaSep (members.map Member.text) '\x7d' rest
  rw [List.length_map] at hlength
  have hdraft := htakes.draftWithin true blanks_nil hlength rest
  -- a known member that is nowhere among them is absent from the description
  have hmet : ∀ part ∈ p.parts statements,
      part.1 ∈ (members.map Member.key).reverse ++ [] ∨ part.2 = "null".toList := by
    intro part hpart
    refine (h.mem_or_null (List.mem_map_of_mem hpart)).imp_left fun hmem => ?_
    rw [List.append_nil, List.mem_reverse]
    exact List.mem_map.2 ⟨_, hmem, rfl⟩
  simp only [parts, List.forall_mem_cons] at hmet
  obtain ⟨hname, hentry, hlist, hedges, _⟩ := hmet
  have hfinish := Draft.finish_given
    (hlist.resolve_right fun hnull => absurd (List.cons.inj hnull).1 (by decide))
    (hname.imp_right (printOptional_eq_null_iff opens_quote p.name).1)
    (hentry.imp_right (printOptional_eq_null_iff inverts_word.opens p.entry).1)
    (hedges.imp_right (printOptional_eq_null_iff inverts_wordPair.array.opens p.edges).1)
  have hempty : Draft.given p [] = {} := rfl
  rw [List.nil_append, listed_true, hempty] at hdraft
  rw [readObject, hdraft]
  simp only [bind, Except.bind, hfinish]

/-- The values of the members alone, as an array, are read as well. -/
lemma readArray_parts (rest : List Char) :
    readArray (commaSep ((p.parts statements).map Prod.snd) ++ ']' :: rest) = .ok (p, rest) := by
  have hcomma : ∀ cs, Ends (',' :: cs) := fun cs => ends_cons (Or.inl rfl) cs
  have hclose : Ends (']' :: rest) := ends_cons (Or.inr (Or.inl rfl)) rest
  have hlist := readsBack_statements hstatements
  -- what is still to be read in front of each part, from the last to the first
  let cs₄ := printOptional (printArray printEdge) p.edges ++ ']' :: rest
  let cs₃ := '[' :: commaSep statements ++ [']'] ++ ',' :: cs₄
  let cs₂ := printOptional printWord p.entry ++ ',' :: cs₃
  let cs₁ := printOptional quote p.name ++ ',' :: cs₂
  have htext : commaSep ((p.parts statements).map Prod.snd) ++ ']' :: rest = cs₁ := by
    simp [parts, commaSep, cs₁, cs₂, cs₃, cs₄]
  have hnext₁ : nextElement true cs₁ = .ok (.item cs₁) :=
    nextElement_printOptional true opens_quote p.name _
  have hread₁ : Json.optional text cs₁ = .ok (p.name, ',' :: cs₂) :=
    inverts_text.optional p.name _ (hcomma _)
  have hnext₂ : nextElement false (',' :: cs₂) = .ok (.item cs₂) :=
    nextElement_printOptional false inverts_word.opens p.entry _
  have hread₂ : Json.optional word cs₂ = .ok (p.entry, ',' :: cs₃) :=
    inverts_word.optional p.entry _ (hcomma _)
  have hnext₃ : nextElement false (',' :: cs₃) = .ok (.item cs₃) :=
    nextElement_separated false hlist.opens _
  have hread₃ : readStatements cs₃ = .ok (p.statements, ',' :: cs₄) := hlist.reads _ (hcomma _)
  have hnext₄ : nextElement false (',' :: cs₄) = .ok (.item cs₄) :=
    nextElement_printOptional false inverts_wordPair.array.opens p.edges _
  have hread₄ : readEdges cs₄ = .ok (p.edges, ']' :: rest) :=
    inverts_wordPair.array.optional p.edges _ hclose
  rw [htext, readArray]
  simp only [bind, Except.bind, hnext₁, hread₁, hnext₂, hread₂, hnext₃, hread₃, hnext₄, hread₄,
    closeArray_cons]

omit hstatements

/-- A description is read from each of its texts. -/
theorem Written.textOf {text : List Char} (h : Written p text) : TextOf read text p := by
  cases h with
  | @object statements members hstatements h =>
    refine ⟨opens_objectText members, fun rest _ => ?_⟩
    rw [objectText_append, read, skipBlanks_cons (by decide)]
    exact readObject_of_rearranged hstatements h rest
  | @array statements hstatements =>
    refine ⟨⟨'[', _, rfl, by decide, by decide, by decide⟩, fun rest _ => ?_⟩
    have htext : '[' :: (commaSep ((p.parts statements).map Prod.snd) ++ [']']) ++ rest
        = '[' :: (commaSep ((p.parts statements).map Prod.snd) ++ ']' :: rest) := by simp
    rw [htext, read, skipBlanks_cons (by decide)]
    exact readArray_parts hstatements rest

/-- The reader inverts the printer. -/
theorem inverts_read : Inverts read print where
  opens p := p.written_print.textOf.opens
  reads p := p.written_print.textOf.reads

end Reading

end Procedure

/-- Descriptions of procedures and single statements survive their text, whatever strings and
numbers are in them.  In the text only the quote, the backslash and the control characters are
escaped. -/
theorem texts_read_back :
    (∀ p : Procedure, Procedure.ofJson p.toJson = .ok p) ∧
      (∀ s : Statement, Statement.ofJson s.toJson = .ok s) ∧
      ∀ c, quoteChar c = [c] ↔ c ≠ '"' ∧ c ≠ '\\' ∧ isControl c = false :=
  ⟨fun p => Procedure.inverts_read.whole p,
    fun s => (Statement.inverts_read (by decide)).whole s, quoteChar_eq_self_iff⟩

/-- A description is read from every text that says it: with its members and those of its statements
in any order, without some of those that are `null`, with members of other keys among them, or with
it and its statements as arrays. -/
theorem rearranged_texts_read {p : Procedure} {text : String} (h : p.Written text.toList) :
    Procedure.ofJson text = .ok p :=
  h.textOf.whole

/-- An allocation without a site, and a copy. -/
def copied : Procedure := ⟨none, some 0, [.alloc "x" none, .copy "y" "x"], some [(0, 1)]⟩

/-- A text of `copied` that the printer would not write. -/
def copiedText : String :=
  "\x7b\"tags\" : [true, 7 ],\"statements\":" ++
    "[\x7b\"lhs\":\"x\",\"note\":\x7b\x7d,\"kind\":\"alloc\"\x7d," ++
    "[\"copy\",\"y\",\"x\"]],\"edges\":[[0,1]],\"entry\":0\x7d"

lemma written_copiedText : copied.Written copiedText.toList := by
  -- the allocation: without its site, with a member `note`, and with the kind last
  let lhs : Member := .plain "lhs" (quote "x")
  let kind : Member := .plain "kind" (quote "alloc")
  let note : Member := .plain "note" ['\x7b', '\x7d']
  have hnote : AddedTo (Statement.alloc "x" none).keys Procedure.addedDepth note :=
    ⟨Member.labelled_plain _ _, by decide,
      @ValueText.object 123 [] [] blanks_nil (by simp) (by simp)⟩
  have halloc : (Statement.alloc "x" none).Written Procedure.addedDepth
      (objectText [lhs, note, kind]) :=
    .object ⟨[lhs, kind], [.plain "site" "null".toList], [note], by decide +kernel,
      by decide +kernel, by simp [Member.plain], by simpa using hnote⟩
  -- the copy: as an array
  have hcopy : (Statement.copy "y" "x").Written Procedure.addedDepth
      ('[' :: (commaSep [quote "copy", quote "y", quote "x"] ++ [']'])) := .array
  have hstatements := List.Forall₂.cons halloc (.cons hcopy .nil)
  -- the description: without its name, with a member `tags`, and the entry last
  let items := ["true".toList, [' '] ++ (printWord 7 ++ [' '])]
  let tags : Member := ⟨"tags", "\"tags\" :".toList, ' ' :: '[' :: (commaSep items ++ [']'])⟩
  have htags : AddedTo Procedure.keys 1 tags := by
    have hblank : Blanks [' '] := by simp [Blanks, isBlank]
    have hitems : ∀ item ∈ items, ValueText 0 item := by
      simpa [items] using ⟨ValueText.bool 0 true, ValueText.padded hblank (.word 0 7) hblank⟩
    refine ⟨⟨[], _, [' '], blanks_nil, hblank, spells_quoted _, by decide +kernel⟩, by decide, ?_⟩
    simpa [tags] using ValueText.padded hblank (.array blanks_nil hitems) blanks_nil
  let entry : Member := .plain "entry" (printWord 0)
  let edges : Member := .plain "edges" "[[0,1]]".toList
  let list : Member := .plain "statements" ('[' :: commaSep [objectText [lhs, note, kind],
    '[' :: (commaSep [quote "copy", quote "y", quote "x"] ++ [']'])] ++ [']'])
  have htext : copiedText.toList = objectText [tags, list, edges, entry] := by decide +kernel
  rw [htext]
  exact .object hstatements ⟨[list, edges, entry], [.plain "name" "null".toList], [tags],
    by decide +kernel, by decide +kernel, by simp [Member.plain], by simpa using ⟨1, htags⟩⟩

theorem rearranged_texts_read_copied :
    copied.Written copiedText.toList ∧ Procedure.ofJson copiedText = .ok copied :=
  ⟨written_copiedText, rearranged_texts_read written_copiedText⟩

end MayAlias
