import MayAlias.Proofs.Acceptance
import MayAlias.Proofs.Congruence

/-!
# Answers compared

What a graph answers is a matter of its assertions (`Graph.WellFormed.answer_iff`), and more
assertions answer more questions with yes (`Query.Holds.mono`).  Two comparisons follow:

* asking about a field of a variable is asking about a fresh variable into which the field has been
  loaded (`Query.holds_load`);
* the rule that takes the fact after the last node says yes no more often than the rule that joins
  the facts after the exits, when the last node is one of those joined.
-/

namespace MayAlias

/-! ## Questions about assertions -/

/-- The assertions let the two access paths meet in an object. -/
def Query.Holds (A : Set Atom) : Query → Prop
  | .vars left right => ∃ o, Atom.points left o ∈ A ∧ Atom.points right o ∈ A
  | .field left name right =>
    ∃ src o, Atom.points left src ∈ A ∧ Atom.edge ⟨src, name, o⟩ ∈ A ∧ Atom.points right o ∈ A

/-- More assertions never turn a yes into a no. -/
lemma Query.Holds.mono {A B : Set Atom} (hAB : A ⊆ B) {q : Query} (h : q.Holds A) : q.Holds B := by
  cases q with
  | vars left right =>
    obtain ⟨o, hleft, hright⟩ := h
    exact ⟨o, hAB hleft, hAB hright⟩
  | field left name right =>
    obtain ⟨src, o, hleft, hedge, hright⟩ := h
    exact ⟨src, o, hAB hleft, hAB hedge, hAB hright⟩

lemma Query.holds_vars_comm (A : Set Atom) (a b : String) :
    (vars a b).Holds A ↔ (vars b a).Holds A :=
  exists_congr fun _ => and_comm

/-- A load puts what the field may refer to into its variable, and leaves the others alone. -/
lemma Query.holds_load (A : Set Atom) (a name : String) {t b : String} (ht : t ≠ b) :
    (vars t b).Holds ((Effect.load t a name).after A) ↔ (field a name b).Holds A := by
  have hloaded : ∀ o, Atom.points t o ∈ (Effect.load t a name).after A ↔
      ∃ src, Atom.points a src ∈ A ∧ Atom.edge ⟨src, name, o⟩ ∈ A := by
    intro o
    simp [Effect.after, Atom.reassign]
  -- the other variable is not assigned, as it is not the fresh one
  have hother : ∀ o, Atom.points b o ∈ (Effect.load t a name).after A ↔ Atom.points b o ∈ A := by
    intro o
    simp [Effect.after, Atom.reassign, ht.symm]
  simp only [Holds, hloaded, hother]
  constructor
  · intro h
    obtain ⟨o, ⟨src, hsrc, hedge⟩, hb⟩ := h
    exact ⟨src, o, hsrc, hedge, hb⟩
  · intro h
    obtain ⟨src, o, hsrc, hedge, hb⟩ := h
    exact ⟨o, ⟨src, hsrc, hedge⟩, hb⟩

namespace Graph

/-- An answer is yes when the assertions make the question hold. -/
lemma WellFormed.answer_iff {G : Graph} (hG : G.WellFormed) (q : Query) :
    G.answer q = true ↔ q.Holds G.atoms := by
  cases q with
  | vars left right => exact hG.mayAlias_iff left right
  | field left name right => exact hG.mayAliasVia_iff left name right

/-- A question about a field has the answer of the question about a variable into which the field is
loaded.  It is yes exactly when an edge for the field leads from an object of the first variable to
one of the second.  A question about two variables does not depend on their order, and is answered
with yes exactly when an object is common to both. -/
theorem field_queries_agree_with_loads {g : Graph} (hg : g.BuiltInAnyOrder) (a name b : String) :
    (∀ t, t ≠ b → g.mayAliasVia a name b = ((Effect.load t a name).apply g).mayAlias t b) ∧
      (g.mayAliasVia a name b = true ↔ ∃ n m, (g.pointees a).contains n = true ∧
        (g.pointees b).contains m = true ∧ g.hasEdge ⟨n, name, m⟩ = true) ∧
      g.mayAlias a b = g.mayAlias b a ∧
      (g.mayAlias a b = true ↔
        ∃ n, (g.pointees a).contains n = true ∧ (g.pointees b).contains n = true) := by
  have hwf := hg.wellFormed
  refine ⟨fun t ht => ?_, ?_, ?_, hwf.mayAlias_iff a b⟩
  · have hload := (Effect.wellFormed_apply hwf (.load t a name)).answer_iff (.vars t b)
    rw [Effect.atoms_apply hwf, Query.holds_load g.atoms a name ht, ← hwf.answer_iff] at hload
    exact Bool.eq_iff_iff.2 hload.symm
  · rw [hwf.mayAliasVia_iff]
    simp only [points_mem_atoms, edge_mem_atoms, hwf.hasEdge_iff]
    exact exists₂_congr fun n m => and_congr_right fun _ => and_comm
  · have hab := hwf.answer_iff (.vars a b)
    rw [Query.holds_vars_comm, ← hwf.answer_iff] at hab
    exact Bool.eq_iff_iff.2 hab

/-- In `linkedPair` the field of `x` leads to the object of `y`, also when it is loaded into `x`
itself; the field of the untracked variable `w` leads nowhere. -/
theorem field_queries_agree_with_loads_linkedPair :
    linkedPair.BuiltInAnyOrder ∧ linkedPair.mayAliasVia "x" "f" "y" = true ∧
      ((Effect.load "x" "x" "f").apply linkedPair).mayAlias "x" "y" = true ∧
      linkedPair.mayAliasVia "w" "f" "y" = false ∧
      ((Effect.load "x" "w" "f").apply linkedPair).mayAlias "x" "y" = false := by
  have hpair := builtInAnyOrder_linkedPair
  have hlinked : linkedPair.mayAliasVia "x" "f" "y" = true := by decide +kernel
  have huntracked : linkedPair.mayAliasVia "w" "f" "y" = false := by decide +kernel
  refine ⟨hpair, hlinked, ?_, huntracked, ?_⟩
  · rw [← (field_queries_agree_with_loads hpair "x" "f" "y").1 "x" (by decide), hlinked]
  · rw [← (field_queries_agree_with_loads hpair "w" "f" "y").1 "x" (by decide), huntracked]

end Graph

/-! ## The two rules for the summary -/

/-- The fact after the node is joined into the summary: the node has no successors, or every node
has one. -/
def Flow.Joins {N : Type} (g : Flow N) (n : N) : Prop :=
  g.succs n = [] ∨ ∀ m ∈ g.nodes, g.succs m ≠ []

namespace Analysis

variable {N : Type}

/-- The facts after the nodes whose facts are joined into the summary. -/
def Result.JoinedFact (g : Flow N) (result : Result N) (G : Graph) : Prop :=
  ∃ (i : ℕ) (n : N), g.nodes[i]? = some n ∧ g.Joins n ∧ result.after[i]? = some G

/-- All the facts are below the graph, and the graph is below every other of which this holds. -/
structure LeastAbove (facts : Graph → Prop) (G : Graph) : Prop where
  above : ∀ fact, facts fact → fact.below G = true
  least : ∀ H : Graph, H.BuiltInAnyOrder → (∀ fact, facts fact → fact.below H = true) →
    G.below H = true

/-- Both rules summarise the same facts. -/
lemma run_of_solve [DecidableEq N] {g : Flow N} {p : Problem N} (hp : Problem.ofFlow g = .ok p)
    {limit : Option ℕ} {f : Facts} (hs : (Facts.afterPasses p 0).solve p limit = (f, .ok ()))
    (rule : SummaryRule) : run g rule limit = .ok (Result.ofFacts p rule f) := by
  have hinitial : (Facts.initial p).solve p limit = (f, .ok ()) := hs
  rw [run, hp]
  simp only [bind, Except.bind, hinitial]

/-- The fact after the last node is that at the last position. -/
lemma atoms_summary_lastVisited [DecidableEq N] {g : Flow N} {p : Problem N} (hr : p.Represents g)
    (f : Facts) :
    (f.summary p .lastVisited).atoms = Facts.asserted f.after (g.nodes.length - 1) := by
  rw [← hr.order]
  rfl

section Summaries

variable [DecidableEq N] {g : Flow N} {p : Problem N} (hr : p.Represents g) {f : Facts}
  (hf : f.Valid p)

include hr hf

/-- The join of the exits asserts what the fact after one of the joined nodes does. -/
lemma mem_summary_joinExits (a : Atom) :
    a ∈ (f.summary p .joinExits).atoms ↔
      ∃ (i : ℕ) (n : N), g.nodes[i]? = some n ∧ g.Joins n ∧ a ∈ Facts.asserted f.after i := by
  rw [(Facts.summary_spec hf hr.exits_lt).2]
  simp only [hr.mem_joined_iff, Flow.Joins, ← exists_and_right, and_assoc]

/-- The join of the exits is the least graph above the facts after the joined nodes. -/
lemma leastAbove_summary_joinExits (rule : SummaryRule) :
    LeastAbove ((Result.ofFacts p rule f).JoinedFact g) (f.summary p .joinExits) := by
  have hwf := (Facts.summary_spec hf hr.exits_lt).1
  have hafter : ∀ {i : ℕ} {n : N}, g.nodes[i]? = some n →
      f.after[i]? = some (f.after.getD i .empty) := by
    intro i n hi
    apply Facts.getElem?_eq_some_getD
    rw [hf.after_size, hr.order]
    exact (List.getElem?_eq_some_iff.1 hi).1
  constructor
  · intro fact hfact
    obtain ⟨i, n, hi, hn, hget⟩ := hfact
    obtain rfl := Option.some.inj (hget.symm.trans (hafter hi))
    rw [Graph.below_iff (hf.after_wf i) hwf]
    intro a ha
    exact (mem_summary_joinExits hr hf a).2 ⟨i, n, hi, hn, ha⟩
  · intro H hH habove
    rw [Graph.below_iff hwf hH.wellFormed]
    intro a ha
    -- each atom of the join comes from one of the facts joined, which `H` is above
    obtain ⟨i, n, hi, hn, ha⟩ := (mem_summary_joinExits hr hf a).1 ha
    have hbelow := habove _ ⟨i, n, hi, hn, hafter hi⟩
    rw [Graph.below_iff (hf.after_wf i) hH.wellFormed] at hbelow
    exact hbelow ha

variable {n : N} (hlast : g.nodes.getLast? = some n)

include hlast

/-- When the last node is joined, the fact after it asserts no more than the join does. -/
lemma atoms_lastVisited_subset (hn : g.Joins n) :
    (f.summary p .lastVisited).atoms ⊆ (f.summary p .joinExits).atoms := by
  rw [List.getLast?_eq_getElem?] at hlast
  rw [atoms_summary_lastVisited hr]
  intro a ha
  exact (mem_summary_joinExits hr hf a).2 ⟨_, n, hlast, hn, ha⟩

/-- When the last node is the only one joined, the join asserts what the fact after it does. -/
lemma atoms_joinExits_subset (hnodup : g.nodes.Nodup)
    (honly : ∀ m ∈ g.nodes, g.succs m = [] ↔ m = n) :
    (f.summary p .joinExits).atoms ⊆ (f.summary p .lastVisited).atoms := by
  intro a ha
  obtain ⟨i, m, hi, hm, ha⟩ := (mem_summary_joinExits hr hf a).1 ha
  rw [List.getLast?_eq_getElem?] at hlast
  have hexit : g.succs n = [] := (honly n (List.mem_of_getElem? hlast)).2 rfl
  have hmn : m = n := by
    rcases hm with hsuccs | hall
    · exact (honly m (List.mem_of_getElem? hi)).1 hsuccs
    · exact absurd hexit (hall n (List.mem_of_getElem? hlast))
  -- a node is listed once, so it is joined at the last position only
  have hposition : i = g.nodes.length - 1 := by
    have hlt := (List.getElem?_eq_some_iff.1 hi).1
    exact (List.getElem?_inj hlt hnodup).1 (by rw [hi, hlast, hmn])
  rw [atoms_summary_lastVisited hr, ← hposition]
  exact ha

end Summaries

/-- An analysis that succeeds does so under both rules, and with the same facts.  When the last node
has no successors, or no node lacks them, the fact after it is below the join of the exits, and what
it answers with yes the join does too.  When the last node is the only one without successors, both
summaries and all their answers are the same.  The join of the exits is the least graph above the
facts after the nodes without successors, or after all nodes when there are none of these. -/
theorem summary_rules_compared [DecidableEq N] {g : Flow N} {rule : SummaryRule}
    {limit : Option ℕ} {result : Result N} (h : run g rule limit = .ok result) :
    ∃ last joined, run g .lastVisited limit = .ok last ∧ run g .joinExits limit = .ok joined ∧
      last.after = joined.after ∧ joined.after.size = g.nodes.length ∧
      LeastAbove (joined.JoinedFact g) joined.summary ∧
      ∃ n, g.nodes.getLast? = some n ∧
        (g.succs n = [] ∨ (∀ m ∈ g.nodes, g.succs m ≠ []) →
          last.summary.below joined.summary = true ∧
            ∀ q, last.summary.answer q = true → joined.summary.answer q = true) ∧
        ((∀ m ∈ g.nodes, g.succs m = [] ↔ m = n) →
          (last.summary == joined.summary) = true ∧
            ∀ q, last.summary.answer q = joined.summary.answer q) := by
  obtain ⟨p, f, hp, hs, rfl⟩ := run_eq_ok h
  have hr := Problem.represents_of_ofFlow hp
  have hf := Facts.valid_of_solve hs
  have hnodup := (Problem.analysable_of_ofFlow hp).nodup
  have hlastwf : (f.summary p .lastVisited).WellFormed := hf.after_wf _
  have hjoinwf := (Facts.summary_spec hf hr.exits_lt).1
  obtain ⟨n, hn⟩ : ∃ n, g.nodes.getLast? = some n :=
    ⟨_, List.getLast?_eq_some_getLast (List.ne_nil_of_mem hr.entry_mem)⟩
  refine ⟨_, _, run_of_solve hp hs .lastVisited, run_of_solve hp hs .joinExits, rfl,
    hf.after_size.trans (congrArg List.length hr.order),
    leastAbove_summary_joinExits hr hf .joinExits, n, hn, fun hjoins => ?_, fun honly => ?_⟩
  · have hsub := atoms_lastVisited_subset hr hf hn hjoins
    refine ⟨(Graph.below_iff hlastwf hjoinwf).2 hsub, fun q hq => ?_⟩
    exact (hjoinwf.answer_iff q).2 (((hlastwf.answer_iff q).1 hq).mono hsub)
  -- the last node is the only exit, so both rules take the same fact
  · have hexit : g.Joins n := Or.inl ((honly n (List.mem_of_getLast? hn)).2 rfl)
    have heq : (f.summary p .lastVisited).atoms = (f.summary p .joinExits).atoms :=
      (atoms_lastVisited_subset hr hf hn hexit).antisymm
        (atoms_joinExits_subset hr hf hn hnodup honly)
    refine ⟨(hlastwf.beq_iff hjoinwf).2 heq, fun q => Bool.eq_iff_iff.2 ?_⟩
    rw [Result.ofFacts, Result.ofFacts, hlastwf.answer_iff, hjoinwf.answer_iff, heq]

/-- One branch stores into a field and returns, the other copies a variable and returns. -/
def twoExits : Cfg where
  name := "twoExits"
  stmts := #[.alloc "x" (some "a"), .alloc "y" (some "b"), .store "x" "f" "y", .copy "r" "x"]
  edges := [(0, 1), (1, 2), (1, 3)]
  entry? := some 0

/-- The last node of `twoExits` knows nothing of the store, so the join of the exits answers one
more question with yes.  `selfLink` returns at its last node only, and the answers are the same. -/
theorem summary_rules_compared_twoExits :
    ∃ last joined, run twoExits.toFlow .lastVisited none = .ok last ∧
      run twoExits.toFlow .joinExits none = .ok joined ∧ twoExits.toFlow.succs 3 = [] ∧
      last.summary.below joined.summary = true ∧
      (last.summary.answer (.vars "x" "r") = true ∧ joined.summary.answer (.vars "x" "r") = true) ∧
      (last.summary.answer (.field "x" "f" "y") = false ∧
        joined.summary.answer (.field "x" "f" "y") = true) ∧
      ∃ last' joined', run selfLink.toFlow .lastVisited none = .ok last' ∧
        run selfLink.toFlow .joinExits none = .ok joined' ∧
        (∀ m ∈ selfLink.toFlow.nodes, selfLink.toFlow.succs m = [] ↔ m = 5) ∧
        (last'.summary == joined'.summary) = true ∧
        ∀ q, last'.summary.answer q = joined'.summary.answer q := by
  have hlast : (run twoExits.toFlow .lastVisited none).map (fun r =>
      (r.summary.answer (.vars "x" "r"), r.summary.answer (.field "x" "f" "y")))
        = .ok (true, false) := by decide +kernel
  have hjoined : (run twoExits.toFlow .joinExits none).map (fun r =>
      (r.summary.answer (.vars "x" "r"), r.summary.answer (.field "x" "f" "y")))
        = .ok (true, true) := by decide +kernel
  have hexit : twoExits.toFlow.succs 3 = [] := by decide +kernel
  have honly : ∀ m ∈ selfLink.toFlow.nodes, selfLink.toFlow.succs m = [] ↔ m = 5 := by
    decide +kernel
  obtain ⟨r, hr⟩ : ∃ r, run twoExits.toFlow .lastVisited none = .ok r := by
    cases hrun : run twoExits.toFlow .lastVisited none with
    | ok r => exact ⟨r, rfl⟩
    | error e => simp [hrun, Except.map] at hlast
  obtain ⟨last, joined, hrun, hrun', _, _, _, n, hn, hbelow, _⟩ := summary_rules_compared hr
  obtain ⟨_, hself⟩ := exists_run_selfLink
  obtain ⟨last', joined', hself, hself', _, _, _, n', hn', _, hsame⟩ :=
    summary_rules_compared hself
  obtain rfl : 3 = n := Option.some.inj hn
  obtain rfl : 5 = n' := Option.some.inj hn'
  rw [hrun] at hlast
  rw [hrun'] at hjoined
  simp only [Except.map, Except.ok.injEq, Prod.mk.injEq] at hlast hjoined
  exact ⟨last, joined, hrun, hrun', hexit, (hbelow (Or.inl hexit)).1, ⟨hlast.1, hjoined.1⟩,
    ⟨hlast.2, hjoined.2⟩, last', joined', hself, hself', honly, hsame honly⟩

end Analysis

end MayAlias
