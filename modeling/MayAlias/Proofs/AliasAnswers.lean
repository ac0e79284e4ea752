import MayAlias.Alias.Answer
import MayAlias.Proofs.Execution

/-!
# Alias answers hold at the end of every run

A question about two access paths is answered from the join of the facts after the exits.  What a
graph answers is a matter of its assertions (`mayAlias_iff`, `mayAliasVia_iff`), and the join
asserts what the fact after each exit does (`Facts.summary_spec`).  Since that fact describes
the state in which a run ends there, two paths that lead to one object are never told apart.
-/

namespace MayAlias

/-! ## Answers of a graph -/

namespace Graph.WellFormed

variable {G : Graph} (hG : G.WellFormed)

include hG

/-- Two variables may alias when they may point to one object. -/
lemma mayAlias_iff (a b : String) :
    G.mayAlias a b = true ↔ ∃ o, Atom.points a o ∈ G.atoms ∧ Atom.points b o ∈ G.atoms := by
  rw [mayAlias]
  split
  · next pa pb hpa hpb =>
    rw [(hG.vars a pa hpa).intersects_iff]
    simp only [points_mem_atoms, pointees_eq_of_get? hpa, pointees_eq_of_get? hpb]
  · next huntracked =>
    refine iff_of_false Bool.false_ne_true fun h => ?_
    -- a variable that points to something is tracked
    obtain ⟨o, ha, hb⟩ := h
    obtain ⟨pa, hpa, _⟩ := exists_get?_of_points ha
    obtain ⟨pb, hpb, _⟩ := exists_get?_of_points hb
    exact huntracked pa pb hpa hpb

/-- The pointees of a field are the targets of edges from the variable's pointees. -/
lemma contains_fieldPointees (a field : String) (o : ObjectId) :
    (G.fieldPointees a field).contains o = true ↔
      ∃ src, Atom.points a src ∈ G.atoms ∧ Atom.edge ⟨src, field, o⟩ ∈ G.atoms := by
  rw [fieldPointees]
  split
  · next pa hpa =>
    rw [hG.contains_followAll (hG.vars a pa hpa)]
    simp only [points_mem_atoms, edge_mem_atoms, pointees_eq_of_get? hpa]
  · next huntracked =>
    refine iff_of_false (by simp) fun h => ?_
    obtain ⟨src, hsrc, _⟩ := h
    obtain ⟨pa, hpa, _⟩ := exists_get?_of_points hsrc
    exact absurd (hpa.symm.trans huntracked) (by simp)

lemma valid_fieldPointees (a field : String) : (G.fieldPointees a field).Valid := by
  rw [fieldPointees]
  split
  · exact hG.valid_followAll _ field
  · exact AdaptiveSet.valid_empty

/-- A field of one variable and another variable may alias when an edge with that field leads from
an object of the first to one of the second. -/
lemma mayAliasVia_iff (a field b : String) :
    G.mayAliasVia a field b = true ↔
      ∃ src o, Atom.points a src ∈ G.atoms ∧ Atom.edge ⟨src, field, o⟩ ∈ G.atoms ∧
        Atom.points b o ∈ G.atoms := by
  rw [mayAliasVia]
  split
  · next pb hpb =>
    rw [(hG.valid_fieldPointees a field).intersects_iff]
    simp only [hG.contains_fieldPointees, points_mem_atoms, pointees_eq_of_get? hpb]
    exact ⟨fun ⟨o, ⟨src, hsrc, hedge⟩, hb⟩ => ⟨src, o, hsrc, hedge, hb⟩,
      fun ⟨src, o, hsrc, hedge, hb⟩ => ⟨o, ⟨src, hsrc, hedge⟩, hb⟩⟩
  · next huntracked =>
    refine iff_of_false Bool.false_ne_true fun h => ?_
    obtain ⟨_, o, _, _, hb⟩ := h
    obtain ⟨pb, hpb, _⟩ := exists_get?_of_points hb
    exact absurd (hpb.symm.trans huntracked) (by simp)

end Graph.WellFormed

/-! ## The join over the exits -/

namespace Analysis

/-- Facts are there for all positions within the array. -/
lemma mapM_getElem?_eq {graphs : Array Graph} {l : List ℕ} (hl : ∀ i ∈ l, i < graphs.size) :
    (l.mapM fun i => graphs[i]?) = some (l.map fun i => graphs.getD i .empty) := by
  induction l with
  | nil => rfl
  | cons i l ih =>
    have hi := Facts.getElem?_eq_some_getD (hl i List.mem_cons_self) Graph.empty
    rw [List.mapM_cons, hi, ih fun j hj => hl j (List.mem_cons_of_mem _ hj)]
    rfl

/-- The positions whose facts are joined: those of the exits, or all when there is no exit. -/
def Problem.joined {N : Type} (p : Problem N) : List ℕ :=
  if p.exits.isEmpty then List.range p.order.length else p.exits

/-- The summary joins the facts after the exits, or all facts if there are no exits. -/
lemma Facts.summary_joinExits {N : Type} {p : Problem N} {f : Facts} (hf : f.Valid p)
    (hexits : ∀ i ∈ p.exits, i < p.order.length) :
    f.summary p .joinExits = SummaryRule.join (p.joined.map fun i => f.after.getD i .empty) := by
  rw [summary, SummaryRule.summarize?, Problem.joined]
  split
  · -- the facts of all positions are the whole array
    have hall : f.after.toList
        = (List.range p.order.length).map fun i => f.after.getD i .empty := by
      apply List.ext_getElem?
      intro i
      rw [← hf.after_size, List.getElem?_map, Array.getElem?_toList]
      by_cases hi : i < f.after.size
      · rw [List.getElem?_range hi, getElem?_eq_some_getD hi Graph.empty, Option.map_some]
      · simp [hi]
    rw [Option.getD_some, hall]
  · rw [mapM_getElem?_eq (by rw [hf.after_size]; exact hexits), Option.map_some, Option.getD_some]

/-- The summary asserts what one of the joined facts does. -/
lemma Facts.summary_spec {N : Type} {p : Problem N} {f : Facts} (hf : f.Valid p)
    (hexits : ∀ i ∈ p.exits, i < p.order.length) :
    (f.summary p .joinExits).WellFormed ∧
      ∀ a, a ∈ (f.summary p .joinExits).atoms ↔ ∃ i ∈ p.joined, a ∈ asserted f.after i := by
  have hwf : ∀ G ∈ p.joined.map fun i => f.after.getD i .empty, G.WellFormed := by
    intro G hG
    obtain ⟨i, _, rfl⟩ := List.mem_map.1 hG
    exact hf.after_wf i
  obtain ⟨hjoin, hatoms⟩ := SummaryRule.join_spec hwf
  rw [summary_joinExits hf hexits]
  refine ⟨hjoin, fun a => ?_⟩
  simp only [hatoms, List.mem_map, exists_exists_and_eq_and, asserted]

/-! ## Answers about runs -/

variable {N : Type} [DecidableEq N] {g : Flow N}

/-- Exits are positions of nodes. -/
lemma Problem.Represents.exits_lt {p : Problem N} (hr : p.Represents g) :
    ∀ i ∈ p.exits, i < p.order.length := by
  intro i hi
  obtain ⟨m, hm, _⟩ := (hr.mem_exits i).1 hi
  rw [hr.order]
  exact (List.getElem?_eq_some_iff.1 hm).1

/-- The positions joined are those of the exits, or of all nodes when there is no exit. -/
lemma Problem.Represents.mem_joined_iff {p : Problem N} (hr : p.Represents g) (i : ℕ) :
    i ∈ p.joined ↔ ∃ n, g.nodes[i]? = some n ∧
      (g.succs n = [] ∨ ∀ m ∈ g.nodes, g.succs m ≠ []) := by
  rw [Problem.joined]
  split
  · next hnone =>
    have hall : ∀ m ∈ g.nodes, g.succs m ≠ [] := by
      intro m hm hsuccs
      obtain ⟨j, hj⟩ := List.mem_iff_getElem?.1 hm
      have hexit : j ∈ p.exits := (hr.mem_exits j).2 ⟨m, hj, hsuccs⟩
      simp [List.isEmpty_iff.1 hnone] at hexit
    rw [List.mem_range, hr.order]
    constructor
    · intro hi
      exact ⟨_, List.getElem?_eq_getElem hi, Or.inr hall⟩
    · intro h
      obtain ⟨n, hn, _⟩ := h
      exact (List.getElem?_eq_some_iff.1 hn).1
  · next hsome =>
    rw [hr.mem_exits]
    refine exists_congr fun n => and_congr_right fun _ => ?_
    refine (or_iff_left fun hall => ?_).symm
    -- some node is an exit, so not all nodes have successors
    obtain ⟨j, hj⟩ := List.exists_mem_of_ne_nil p.exits (by simpa using hsome)
    obtain ⟨m, hm, hsuccs⟩ := (hr.mem_exits j).1 hj
    exact hall m (List.mem_of_getElem? hm) hsuccs

/-- The summary of the exits describes the state in which a run ends. -/
lemma describe_summary {p : Problem N} (hp : Problem.ofFlow g = .ok p) (hg : g.Consistent)
    {limit : Option ℕ} {f : Facts} (hs : (Facts.afterPasses p 0).solve p limit = (f, .ok ()))
    {n : N} {σ σ' : State} (hrun : g.Reaches n σ σ')
    (hend : g.succs n = [] ∨ ∀ m ∈ g.nodes, g.succs m ≠ []) :
    (f.summary p .joinExits).WellFormed ∧
      Atom.Describe p.sites (f.summary p .joinExits).atoms σ' := by
  have hr := Problem.represents_of_ofFlow hp
  have hf := Facts.valid_of_solve hs
  obtain ⟨hwf, hatoms⟩ := Facts.summary_spec hf hr.exits_lt
  have hsol := hr.isSolution hf (Facts.settled_of_solve hs)
  obtain ⟨hn, _, hout⟩ := hsol.describe (hr.wellFormedAt hf) hr hg hrun
  obtain ⟨i, hpos, hi, hlt⟩ := hr.exists_position hn
  rw [p.factAt_eq f.after hpos] at hout
  have hjoined : i ∈ p.joined := (hr.mem_joined_iff i).2 ⟨n, hi, hend⟩
  exact ⟨hwf, hout.mono fun a ha => (hatoms a).2 ⟨i, hjoined, ha⟩⟩

/-- When an analysis that joins the exits succeeds on a procedure with consistent edges, access
paths that lead to one object at the end of a run are answered to alias.  So a negative answer
excludes that they do. -/
theorem joinExits_answers_sound {limit : Option ℕ} {result : Result N}
    (h : run g .joinExits limit = .ok result) (hg : g.Consistent) {n : N} {σ σ' : State}
    (hrun : g.Reaches n σ σ') (hend : g.succs n = [] ∨ ∀ m ∈ g.nodes, g.succs m ≠ []) :
    (∀ a b o, σ'.vars a = some o → σ'.vars b = some o → result.summary.mayAlias a b = true) ∧
      ∀ a field b o o', σ'.vars a = some o → σ'.fields o field = some o' →
        σ'.vars b = some o' → result.summary.mayAliasVia a field b = true := by
  obtain ⟨p, f, hp, hs, rfl⟩ := run_eq_ok h
  obtain ⟨hwf, hdescribe⟩ := describe_summary hp hg hs hrun hend
  refine ⟨fun a b o ha hb => ?_, fun a field b o o' ha hfield hb => ?_⟩
  · obtain ⟨id, hid, hpoints⟩ := hdescribe.vars a o ha
    obtain ⟨id', hid', hpoints'⟩ := hdescribe.vars b o hb
    -- the object has one number, to which both variables point
    obtain rfl : id = id' := Option.some.inj (hid.symm.trans hid')
    exact (hwf.mayAlias_iff a b).2 ⟨id, hpoints, hpoints'⟩
  · obtain ⟨src, hsrc, hpoints⟩ := hdescribe.vars a o ha
    obtain ⟨src', dst, hsrc', hdst, hedge⟩ := hdescribe.fields o field o' hfield
    obtain ⟨dst', hdst', hpoints'⟩ := hdescribe.vars b o' hb
    obtain rfl : src = src' := Option.some.inj (hsrc.symm.trans hsrc')
    obtain rfl : dst = dst' := Option.some.inj (hdst.symm.trans hdst')
    exact (hwf.mayAliasVia_iff a field b).2 ⟨src, dst, hpoints, hedge, hpoints'⟩

/-- At the exit of `selfLink` the variables have moved to one object, which is in its own field. -/
theorem joinExits_answers_selfLink :
    ∃ result, run selfLink.toFlow .joinExits none = .ok result ∧
      selfLink.toFlow.Consistent ∧ selfLink.toFlow.succs 5 = [] ∧
      (∃ σ σ', selfLink.toFlow.Reaches 5 σ σ' ∧ σ'.vars "x" = some ⟨"b", 1⟩ ∧
        σ'.vars "y" = some ⟨"b", 1⟩ ∧ σ'.fields ⟨"b", 1⟩ "f" = some ⟨"b", 1⟩) ∧
      result.summary.mayAlias "x" "y" = true ∧ result.summary.mayAliasVia "x" "f" "y" = true := by
  obtain ⟨result, hresult⟩ := exists_run_selfLink
  obtain ⟨σ, σ', hreach, hx, hy, hfield⟩ := exists_reaches_selfLink
  have hexit : selfLink.toFlow.succs 5 = [] := by decide +kernel
  obtain ⟨halias, hvia⟩ :=
    joinExits_answers_sound hresult consistent_selfLink hreach (Or.inl hexit)
  exact ⟨result, hresult, consistent_selfLink, hexit, ⟨σ, σ', hreach, hx, hy, hfield⟩,
    halias "x" "y" _ hx hy, hvia "x" "f" "y" _ _ hx hfield hy⟩

end Analysis

end MayAlias
