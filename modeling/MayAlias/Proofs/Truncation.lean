import MayAlias.Proofs.JsonCuts
import MayAlias.Proofs.ProcedureText

/-!
# Descriptions that are cut off

Cutting the text of a description anywhere before its end leaves a text that is refused as
truncated.  Nothing else is found wrong with it first: a statement's operands are looked at behind
its closing brace, a missing member of the description is missed behind the last brace, and all
before that reads as it does in the whole text.
-/

namespace MayAlias

open Json

namespace Json

/-- The key of the next member, up to its quote. -/
lemma cutOff_label {first : Bool} {key : String} {value tail cs ds : List Char}
    (heq : cs ++ ds = separated first ((Member.plain key value).text ++ tail)) :
    CutOff ds (nextMember first cs)
      (.item (key.toList.flatMap quoteChar ++ ['"'] ++ ':' :: (value ++ tail))) := by
  apply cutOff_nextMember
  have htext : (Member.plain key value).text ++ tail
      = '"' :: (key.toList.flatMap quoteChar ++ ['"'] ++ ':' :: (value ++ tail)) := by
    simp [Member.plain, Member.text, quote]
  rw [heq, htext, nextMember_separated]

lemma Member.plain_text_ne_nil (key : String) (value : List Char) :
    (Member.plain key value).text ≠ [] := by
  simp [Member.plain, Member.text, quote]

end Json

namespace StatementKind

lemma closed_read (kind : StatementKind) : Closed read (quote kind.name) kind := by
  intro rest cs ds heq
  rw [read]
  refine (closed_text kind.name rest cs ds heq).bind_pair fun rest' hrest => ?_
  simp only [ofName?_name]
  exact cutOff_pair kind hrest

end StatementKind

namespace Statement

section Members

variable {depth : Depth} {rest cs ds : List Char}

/-- The members behind the kind, one after the other. -/
lemma cutOff_operands {operands : List (String × List Char)}
    (h : ∀ o ∈ operands, o.1 ≠ "kind" ∧ Closed (value depth) o.2 (valueOf depth o.2))
    (kind? : Option StatementKind) {n : ℕ} (hn : cs.length < n)
    (heq : cs ++ ds = listed false (operands.map fun o => (Member.plain o.1 o.2).text)
      ++ '\x7d' :: rest) :
    CutOff ds (membersWithin depth n false kind? cs)
      ((kind?, operands.map fun o => (o.1, valueOf depth o.2)), rest) := by
  induction operands generalizing n cs with
  | nil =>
    obtain ⟨n, rfl⟩ := Nat.exists_eq_add_of_lt hn
    have hclose : nextMember false (cs ++ ds) = .ok (.stop rest) := by
      rw [heq, List.map_nil, listed_nil, List.nil_append, nextMember_close]
    rw [membersWithin]
    refine (cutOff_nextMember hclose).bind ?_
    rintro (rest' | rest') hrest
    · exact cutOff_pair (kind?, []) (Next.stop.inj hrest)
    · cases hrest
  | cons o operands ih =>
    rw [List.forall_mem_cons] at h
    obtain ⟨n, rfl⟩ : ∃ k, n = k + 1 := ⟨n - 1, by omega⟩
    rw [List.map_cons, listed_cons] at heq
    rw [membersWithin]
    refine (cutOff_label heq).bind ?_
    rintro (cs' | cs') hcs'
    · cases hcs'
    refine (closed_string .exact o.1 _ cs' ds (Next.item.inj hcs')).bind_pair fun cs' hcs' => ?_
    simp only [h.1.1, if_false]
    refine (cutOff_colon (hcs' ▸ colon_cons _)).bind fun cs' hcs' => ?_
    refine (h.1.2 _ cs' ds hcs').bind_pair fun cs' hcs' => ?_
    have hlt := length_lt_of_cut (Member.plain_text_ne_nil o.1 o.2) heq hcs'
    exact (ih h.2 (by omega) hcs').bind_pair fun rest' hrest => cutOff_pair _ hrest

/-- All members, of which the first is the kind. -/
lemma cutOff_members (s : Statement)
    (h : ∀ o ∈ s.operands, o.1 ≠ "kind" ∧ Closed (value depth) o.2 (valueOf depth o.2)) {n : ℕ}
    (hn : cs.length < n)
    (heq : cs ++ ds = commaSep ((s.kindMember :: s.operandMembers).map Member.text)
      ++ '\x7d' :: rest) :
    CutOff ds (membersWithin depth n true none cs)
      ((some s.kind, s.operands.map fun o => (o.1, valueOf depth o.2)), rest) := by
  obtain ⟨n, rfl⟩ : ∃ k, n = k + 1 := ⟨n - 1, by omega⟩
  rw [← listed_true, List.map_cons, listed_cons] at heq
  rw [membersWithin]
  refine (cutOff_label heq).bind ?_
  rintro (cs' | cs') hcs'
  · cases hcs'
  refine (closed_string .exact "kind" _ cs' ds (Next.item.inj hcs')).bind_pair fun cs' hcs' => ?_
  simp only [if_true, Option.isSome_none, Bool.false_eq_true, if_false]
  refine (cutOff_colon (hcs' ▸ colon_cons _)).bind fun cs' hcs' => ?_
  refine (s.kind.closed_read _ cs' ds hcs').bind_pair fun cs' hcs' => ?_
  have hlt := length_lt_of_cut (Member.plain_text_ne_nil _ _) heq hcs'
  rw [operandMembers, List.map_map] at hcs'
  exact cutOff_operands h (some s.kind) (show cs'.length < n by omega) hcs'

end Members

lemma closed_operand (depth : Depth) (s : Statement) :
    ∀ o ∈ s.operands, o.1 ≠ "kind" ∧ Closed (value depth) o.2 (valueOf depth o.2) := by
  have hquote : ∀ t, Closed (value depth) (quote t) (valueOf depth (quote t)) := by
    intro t
    rw [(readsWithin_quote depth t).value.valueOf_eq]
    exact closed_value_quote depth t
  have hsite : ∀ o : Option String,
      Closed (value depth) (printOptional quote o) (valueOf depth (printOptional quote o)) := by
    intro o
    cases o with
    | none =>
      rw [printOptional, (readsWithin_null depth).value.valueOf_eq]
      exact closed_value_null depth
    | some t => exact hquote t
  cases s <;> simp [operands, hquote, hsite]

/-- A statement that is cut anywhere. -/
theorem closed_read (s : Statement) {depth : ℕ} (hdepth : 1 < depth) :
    Closed (read depth) s.print s := by
  intro rest cs ds heq
  have hdescend : descend (some depth) = .ok (some (depth - 1)) := if_neg (by omega)
  rw [print_eq, objectText_append] at heq
  cases cs with
  | nil => exact cutOff_truncated _
  | cons c cs =>
    obtain ⟨rfl, htail⟩ := List.cons.inj heq
    rw [read, skipBlanks_cons (by decide)]
    simp only [hdescend, bind, Except.bind]
    have hmembers := cutOff_members s (closed_operand (some (depth - 1)) s)
      (Nat.lt_succ_self cs.length) htail
    -- the operands are looked at only behind the brace, where they are those of the whole text
    have hofMembers : ofMembers s.kind
        (s.operands.map fun o => (o.1, valueOf (some (depth - 1)) o.2)) = .ok s := by
      have hrefl := ofMembers_of_rearranged (some (depth - 1))
        (rearranged_refl (AddedTo s.keys 0) s.operandMembers)
      rw [operandMembers, List.map_map] at hrefl
      exact hrefl
    rw [readObject]
    refine hmembers.bind_pair fun rest' hrest => ?_
    show CutOff ds (ofMembers s.kind _ >>= _) _
    rw [hofMembers]
    exact cutOff_pair s hrest

end Statement

namespace Procedure

lemma closed_wordPair (e : UInt64 × UInt64) : Closed wordPair (printEdge e) e := by
  intro rest cs ds heq
  have htext : printEdge e ++ rest
      = '[' :: (printWord e.1 ++ ',' :: (printWord e.2 ++ ']' :: rest)) := by simp [printEdge]
  cases cs with
  | nil => exact cutOff_truncated _
  | cons c cs =>
    obtain ⟨rfl, htail⟩ : c = '[' ∧ cs ++ ds = printWord e.1 ++ ',' :: _ :=
      List.cons.inj (heq.trans htext)
    rw [wordPair, skipBlanks_cons (by decide)]
    have hnext := nextElement_separated true (inverts_word.opens e.1)
      (',' :: (printWord e.2 ++ ']' :: rest))
    refine (cutOff_nextElement ((congrArg _ htail).trans hnext)).bind ?_
    rintro (cs' | cs') hcs'
    · cases hcs'
    have hfirst := cuttable_word e.1 _ (ends_cons (Or.inl rfl) _) cs' ds (Next.item.inj hcs')
    refine hfirst.bind_pair (fun _ => rfl) fun cs' hcs' => ?_
    have hnext' := nextElement_separated false (inverts_word.opens e.2) (']' :: rest)
    refine (cutOff_nextElement ((congrArg _ hcs').trans hnext')).bind ?_
    rintro (cs' | cs') hcs'
    · cases hcs'
    have hsecond := cuttable_word e.2 _ (ends_cons (Or.inr (Or.inl rfl)) _) cs' ds
      (Next.item.inj hcs')
    refine hsecond.bind_pair (fun _ => rfl) fun cs' hcs' => ?_
    exact (cutOff_closeArray (hcs' ▸ closeArray_cons rest)).bind
      fun rest' hrest => cutOff_pair e hrest

lemma cuttable_statements (statements : List Statement) :
    Cuttable readStatements ('[' :: commaSep (statements.map Statement.print) ++ [']'])
      statements := by
  have hroom : 1 < statementDepth := by decide
  apply Closed.cuttable
  apply closed_array
  rw [List.forall₂_map_left_iff, List.forall₂_same]
  exact fun s _ => ⟨(Statement.inverts_read hroom).opens s, (s.closed_read hroom).cuttable⟩

lemma cuttable_edges (edges : Option (List (UInt64 × UInt64))) :
    Cuttable readEdges (printOptional (printArray printEdge) edges) edges := by
  refine cuttable_optional rfl inverts_wordPair.array.opens (fun es => ?_) edges
  apply Closed.cuttable
  apply closed_array
  rw [List.forall₂_map_left_iff, List.forall₂_same]
  exact fun e _ => ⟨inverts_wordPair.opens e, (closed_wordPair e).cuttable⟩

namespace Draft

/-- The value behind a colon, for a member that is met the first time. -/
lemma cutOrSpent_once {α : Type} {item : Reader α} {text : List Char} {a : α}
    (h : Cuttable item text a) {rest cs ds : List Char} (hrest : Ends rest)
    (heq : cs ++ ds = ':' :: (text ++ rest)) : CutOrSpent ds (once none item cs) (a, rest) := by
  show CutOrSpent ds (colon cs >>= item) (a, rest)
  rcases cutOff_colon (heq ▸ colon_cons _) with hcolon | ⟨cs', hcolon, hcs'⟩
  · rw [hcolon]
    exact Or.inl (cutOff_truncated _)
  · rw [hcolon]
    exact h rest hrest cs' ds hcs'

section Parts

variable {p : Procedure} {met : List String} {rest cs ds : List Char}

/-- A part that is cut anywhere, or whose value is used up. -/
lemma cutOrSpent_read {part : String × List Char}
    (hpart : part ∈ p.parts (p.statements.map Statement.print)) (hnew : part.1 ∉ met)
    (hrest : Ends rest) (heq : cs ++ ds = ':' :: (part.2 ++ rest)) :
    CutOrSpent ds ((given p met).read part.1 cs) (given p (part.1 :: met), rest) := by
  simp only [parts, List.mem_cons, List.not_mem_nil, or_false] at hpart
  rcases hpart with rfl | rfl | rfl | rfl <;> dsimp only at hnew heq ⊢
  · have hname := cuttable_optional rfl opens_quote (fun s => (closed_text s).cuttable) p.name
    have hseen : (given p met).name = none := if_neg hnew
    have hgiven : given p ("name" :: met) = { given p met with name := some p.name } := by
      simp [given]
    rw [read, if_pos rfl, hseen, hgiven]
    exact (cutOrSpent_once hname hrest heq).map fun name => { given p met with name := some name }
  · have hentry := cuttable_optional rfl inverts_word.opens cuttable_word p.entry
    have hseen : (given p met).entry = none := if_neg hnew
    have hgiven : given p ("entry" :: met) = { given p met with entry := some p.entry } := by
      simp [given]
    rw [read, if_neg (by decide), if_pos rfl, hseen, hgiven]
    exact (cutOrSpent_once hentry hrest heq).map fun entry =>
      { given p met with entry := some entry }
  · have hstatements := cuttable_statements p.statements
    have hseen : (given p met).statements = none := if_neg hnew
    have hgiven : given p ("statements" :: met)
        = { given p met with statements := some p.statements } := by
      simp [given]
    rw [read, if_neg (by decide), if_neg (by decide), if_pos rfl, hseen, hgiven]
    exact (cutOrSpent_once hstatements hrest heq).map fun statements =>
      { given p met with statements := some statements }
  · have hedges := cuttable_edges p.edges
    have hseen : (given p met).edges = none := if_neg hnew
    have hgiven : given p ("edges" :: met) = { given p met with edges := some p.edges } := by
      simp [given]
    rw [read, if_neg (by decide), if_neg (by decide), if_neg (by decide), if_pos rfl, hseen, hgiven]
    exact (cutOrSpent_once hedges hrest heq).map fun edges =>
      { given p met with edges := some edges }

lemma draftWithin_nil {n : ℕ} (hn : 0 < n) (d : Draft) :
    draftWithin n false d [] = .error .truncated := by
  obtain ⟨n, rfl⟩ := Nat.exists_eq_add_of_le' hn
  rfl

/-- The parts one after the other, up to the closing brace. -/
lemma cutOff_draftWithin {parts : List (String × List Char)}
    (hparts : ∀ part ∈ parts, part ∈ p.parts (p.statements.map Statement.print))
    (honce : (parts.map Prod.fst).Nodup) (hnew : ∀ part ∈ parts, part.1 ∉ met) (first : Bool)
    {n : ℕ} (hn : cs.length < n)
    (heq : cs ++ ds = listed first (parts.map fun part => (Member.plain part.1 part.2).text)
      ++ '\x7d' :: rest) :
    CutOff ds (draftWithin n first (given p met) cs)
      (given p ((parts.map Prod.fst).reverse ++ met), rest) := by
  induction parts generalizing met first n cs with
  | nil =>
    obtain ⟨n, rfl⟩ := Nat.exists_eq_add_of_lt hn
    have hclose : nextMember first (cs ++ ds) = .ok (.stop rest) := by
      rw [heq, List.map_nil, listed_nil, List.nil_append, nextMember_close]
    rw [draftWithin]
    refine (cutOff_nextMember hclose).bind ?_
    rintro (rest' | rest') hrest
    · exact cutOff_pair (given p met) (Next.stop.inj hrest)
    · cases hrest
  | cons part parts ih =>
    rw [List.forall_mem_cons] at hparts hnew
    rw [List.map_cons, List.nodup_cons] at honce
    have hnew' : ∀ part' ∈ parts, part'.1 ∉ part.1 :: met := by
      intro part' hpart' hmem
      rcases List.mem_cons.1 hmem with hkey | hmet
      · exact honce.1 (List.mem_map.2 ⟨part', hpart', hkey⟩)
      · exact hnew.2 part' hpart' hmet
    obtain ⟨n, rfl⟩ : ∃ k, n = k + 1 := ⟨n - 1, by omega⟩
    cases cs with
    | nil => exact cutOff_truncated _
    | cons c cs =>
      rw [List.length_cons] at hn
      rw [List.map_cons, listed_cons] at heq
      rw [List.map_cons, List.reverse_cons, List.append_assoc, List.singleton_append, draftWithin]
      refine (cutOff_label heq).bind ?_
      rintro (cs' | cs') hcs'
      · cases hcs'
      refine (closed_string .exact part.1 _ cs' ds (Next.item.inj hcs')).bind_pair
        fun cs' hcs' => ?_
      -- the entry may be used up, but then the brace or comma behind it is missing
      have hread := cutOrSpent_read hparts.1 hnew.1 (ends_listed _ (Or.inr rfl) rest) hcs'
      refine hread.bind_pair (fun d => draftWithin_nil (by omega) d) fun cs' hcs' => ?_
      have hlt := length_lt_of_cut (Member.plain_text_ne_nil part.1 part.2) heq hcs'
      rw [List.length_cons] at hlt
      exact ih hparts.2 honce.2 hnew' false (by omega) hcs'

end Parts

end Draft

/-- A description that is cut anywhere. -/
theorem closed_read (p : Procedure) : Closed read p.print p := by
  intro rest cs ds heq
  rw [print_eq, objectText_append, members, List.map_map, ← listed_true] at heq
  cases cs with
  | nil => exact cutOff_truncated _
  | cons c cs =>
    obtain ⟨rfl, htail⟩ := List.cons.inj heq
    have hdraft : CutOff ds (draftWithin (cs.length + 1) true (Draft.given p []) cs) _ :=
      Draft.cutOff_draftWithin (fun _ hpart => hpart) (by simp [parts]) (by simp) true
        (Nat.lt_succ_self _) htail
    have hfinish : (Draft.given p (((p.parts (p.statements.map Statement.print)).map
        Prod.fst).reverse ++ [])).finish = .ok p :=
      Draft.finish_given (by simp [parts]) (Or.inl (by simp [parts])) (Or.inl (by simp [parts]))
        (Or.inl (by simp [parts]))
    rw [read, skipBlanks_cons (by decide)]
    refine hdraft.bind_pair fun rest' hrest => ?_
    show CutOff ds (Draft.finish _ >>= _) _
    rw [hfinish]
    exact cutOff_pair p hrest

end Procedure

/-- Of the first characters of a description's text, only all of them are read as a description;
fewer are refused as truncated, and never as malformed or mismatched. -/
theorem cut_text_truncated (p : Procedure) (k : ℕ) :
    Procedure.ofJson (String.ofList (p.toJson.toList.take k))
      = if k < p.toJson.length then .error .truncated else .ok p := by
  have hprint : p.toJson.toList = p.print := String.toList_ofList
  rw [← String.length_toList, hprint]
  split
  · next hk =>
    have hmissing : p.print.drop k ≠ [] := by
      rw [Ne, List.drop_eq_nil_iff]
      omega
    exact p.closed_read.whole (List.take_append_drop k p.print) hmissing
  · next hk =>
    rw [List.take_of_length_le (by omega)]
    exact Procedure.inverts_read.whole p

end MayAlias
