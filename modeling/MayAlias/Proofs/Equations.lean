import MayAlias.Analysis.Result
import MayAlias.Cfg
import MayAlias.Proofs.Passes
import MayAlias.Proofs.Problem

/-!
# The equations of a procedure

The fact before a node is the join of the facts after its predecessors, and the fact after it is the
effect of its statement on that.  `IsSolution` states these equations over the nodes of the flow
graph, without positions or tables of effects.  The facts that solving returns satisfy them.
-/

namespace MayAlias.Analysis

variable {N : Type} [DecidableEq N]

/-- The graph after a statement, with the site of an allocation looked up in a table. -/
def transfer? (sites : SiteTable) (s : Statement) (g : Graph) : Option Graph :=
  (Effect.ofStatement? sites s).map fun lowered => lowered.1.apply g

/-- The graphs before and after the nodes satisfy the equations of the procedure. -/
def IsSolution (g : Flow N) (sites : SiteTable) (ins outs : N → Graph) : Prop :=
  ∀ n ∈ g.nodes, (ins n == SummaryRule.join ((g.preds n).map outs)) = true ∧
    ∃ out, transfer? sites (g.stmt n) (ins n) = some out ∧ (outs n == out) = true

/-- The graphs before and after the nodes are well-formed. -/
def WellFormedAt (g : Flow N) (ins outs : N → Graph) : Prop :=
  ∀ n ∈ g.nodes, (ins n).WellFormed ∧ (outs n).WellFormed

/-! ## Facts of nodes -/

namespace Problem

/-- The fact of a node, empty for what is not a node. -/
def factAt (p : Problem N) (graphs : Array Graph) (n : N) : Graph := (p.fact? graphs n).getD .empty

/-- The fact of a node is found at its position. -/
lemma factAt_eq (p : Problem N) (graphs : Array Graph) {n : N} {i : ℕ}
    (hi : position? p.order n = some i) : p.factAt graphs n = graphs.getD i .empty := by
  rw [factAt, fact?, hi, Option.bind_some, Array.getD_eq_getD_getElem?]

namespace Represents

variable {g : Flow N} {p : Problem N} (hr : p.Represents g)

include hr

/-- Every node of the flow graph has a fact. -/
lemma fact?_eq_some {graphs : Array Graph} (hsize : graphs.size = p.order.length) {n : N}
    (hn : n ∈ g.nodes) : p.fact? graphs n = some (p.factAt graphs n) := by
  obtain ⟨i, hpos, _, hlt⟩ := hr.exists_position hn
  have hget := Facts.getElem?_eq_some_getD (hsize.symm ▸ hlt) Graph.empty
  rw [p.factAt_eq graphs hpos, fact?, hpos, Option.bind_some, hget]

lemma wellFormedAt {f : Facts} (hf : f.Valid p) :
    WellFormedAt g (p.factAt f.before) (p.factAt f.after) := by
  intro n hn
  obtain ⟨i, hpos, _, _⟩ := hr.exists_position hn
  rw [p.factAt_eq f.before hpos, p.factAt_eq f.after hpos]
  exact ⟨hf.before_wf i, hf.after_wf i⟩

/-- The join over the predecessors of a node asserts what one of their graphs does. -/
lemma join_preds {ins outs : N → Graph} (hwf : WellFormedAt g ins outs) {n : N}
    (hn : n ∈ g.nodes) :
    (SummaryRule.join ((g.preds n).map outs)).WellFormed ∧
      ∀ a, a ∈ (SummaryRule.join ((g.preds n).map outs)).atoms ↔
        ∃ m ∈ g.preds n, a ∈ (outs m).atoms := by
  have hpreds : ∀ G ∈ (g.preds n).map outs, G.WellFormed := by
    intro G hG
    obtain ⟨m, hm, rfl⟩ := List.mem_map.1 hG
    exact (hwf m (hr.preds_mem n hn m hm)).2
  obtain ⟨hjoin, hatoms⟩ := SummaryRule.join_spec hpreds
  refine ⟨hjoin, fun a => ?_⟩
  simp only [hatoms, List.mem_map, exists_exists_and_eq_and]

/-- What is joined at a position are the facts of the predecessors of its node. -/
lemma incoming_eq (f : Facts) {i : ℕ} {n : N} (hi : g.nodes[i]? = some n) :
    f.incoming p i = SummaryRule.join ((g.preds n).map (p.factAt f.after)) := by
  have hfact : p.factAt f.after =
      fun m => ((position? g.nodes m).map fun q => f.after.getD q .empty).getD .empty := by
    funext m
    rw [factAt, fact?, hr.order]
    cases position? g.nodes m with
    | none => rfl
    | some q => simp [Array.getD_eq_getD_getElem?]
  have hmap : (g.preds n).map (p.factAt f.after) =
      ((g.preds n).map (position? g.nodes)).map fun q =>
        (q.map fun q => f.after.getD q .empty).getD .empty := by
    rw [List.map_map, hfact]
    rfl
  rw [Facts.incoming, hmap, hr.preds i n hi, List.map_map]
  rfl

/-- The effect in the table is that of the statement at the node. -/
lemma transfer?_eq {i : ℕ} {n : N} (hi : g.nodes[i]? = some n) (G : Graph) :
    transfer? p.sites (g.stmt n) G = some ((p.effects.getD i .nothing).apply G) := by
  rw [transfer?, hr.effects i n hi, Option.map_some]

/-- The facts of a node satisfy its equations exactly when the node is settled. -/
lemma equations_iff_settled {f : Facts} (hf : f.Valid p) {n : N} {i : ℕ}
    (hpos : position? p.order n = some i) :
    ((p.factAt f.before n == SummaryRule.join ((g.preds n).map (p.factAt f.after))) = true ∧
      ∃ out, transfer? p.sites (g.stmt n) (p.factAt f.before n) = some out ∧
        (p.factAt f.after n == out) = true) ↔ f.Settled p i := by
  have hi : g.nodes[i]? = some n := by
    rw [hr.order] at hpos
    exact getElem?_of_position? hpos
  obtain ⟨hwf, hatoms⟩ := hf.incoming i
  have hin : (f.before.getD i .empty == f.incoming p i) = true ↔
      Facts.flowsIn p f i = Facts.asserted f.before i := by
    rw [(hf.before_wf i).beq_iff hwf, hatoms]
    exact eq_comm
  have hout : (f.after.getD i .empty ==
      (p.effects.getD i .nothing).apply (f.before.getD i .empty)) = true ↔
        (p.effects.getD i .nothing).after (Facts.asserted f.before i)
          = Facts.asserted f.after i := by
    rw [(hf.after_wf i).beq_iff (Effect.wellFormed_apply (hf.before_wf i) _),
      Effect.atoms_apply (hf.before_wf i)]
    exact eq_comm
  rw [p.factAt_eq f.before hpos, p.factAt_eq f.after hpos, ← hr.incoming_eq f hi,
    hr.transfer?_eq hi, hf.settled_iff, hin]
  simp only [Option.some.injEq, exists_eq_left', hout]
  -- once the fact before the node is what flows in, the statement makes the same of both
  constructor
  · intro h
    exact ⟨by rw [Facts.flowsOut, h.1, h.2], h.1⟩
  · intro h
    refine ⟨h.2, ?_⟩
    rw [← h.2]
    exact h.1

/-- Settled facts satisfy the equations. -/
theorem isSolution {f : Facts} (hf : f.Valid p) (hs : ∀ pos < p.order.length, f.Settled p pos) :
    IsSolution g p.sites (p.factAt f.before) (p.factAt f.after) := by
  intro n hn
  obtain ⟨i, hpos, _, hlt⟩ := hr.exists_position hn
  exact (hr.equations_iff_settled hf hpos).2 (hs i hlt)

/-- The equations of a node, read as sets of assertions. -/
lemma atoms_of_isSolution {ins outs : N → Graph} (hsol : IsSolution g p.sites ins outs)
    (hwf : WellFormedAt g ins outs) {n : N} (hn : n ∈ g.nodes) :
    (∀ a, a ∈ (ins n).atoms ↔ ∃ m ∈ g.preds n, a ∈ (outs m).atoms) ∧
      ∃ e, Effect.ofStatement? p.sites (g.stmt n) = some (e, p.sites) ∧
        (outs n).atoms = e.after (ins n).atoms := by
  constructor
  · obtain ⟨hjoin, hatoms⟩ := hr.join_preds hwf hn
    rw [((hwf n hn).1.beq_iff hjoin).1 (hsol n hn).1]
    exact hatoms
  · obtain ⟨i, _, hi, _⟩ := hr.exists_position hn
    obtain ⟨out, hout, hbeq⟩ := (hsol n hn).2
    obtain rfl := Option.some.inj ((hr.transfer?_eq hi (ins n)).symm.trans hout)
    rw [(hwf n hn).2.beq_iff (Effect.wellFormed_apply (hwf n hn).1 _),
      Effect.atoms_apply (hwf n hn).1] at hbeq
    exact ⟨_, hr.effects i n hi, hbeq⟩

end Represents

end Problem

/-! ## Analyses that succeed -/

/-- A result is made from the facts of an accepted procedure for which solving succeeded. -/
lemma run_eq_ok {g : Flow N} {rule : SummaryRule} {limit : Option ℕ} {result : Result N}
    (h : run g rule limit = .ok result) :
    ∃ p f, Problem.ofFlow g = .ok p ∧ (Facts.afterPasses p 0).solve p limit = (f, .ok ()) ∧
      result = Result.ofFacts p rule f := by
  rw [run] at h
  obtain ⟨p, hp, h⟩ := bind_eq_ok_iff.1 h
  split at h
  · next f hs => exact ⟨p, f, hp, hs, (Except.ok.inj h).symm⟩
  · simp at h

/-- A loop in which `x` moves on to the object behind it, which ends up in its own field. -/
def selfLink : Cfg where
  name := "selfLink"
  stmts := #[.alloc "x" (some "a"), .alloc "y" (some "b"), .store "x" "f" "y", .load "z" "x" "f",
    .copy "x" "z", .other]
  edges := [(0, 1), (1, 2), (2, 3), (3, 4), (4, 2), (3, 5)]
  entry? := some 0

/-- The analysis of `selfLink` succeeds. -/
lemma exists_run_selfLink : ∃ result, run selfLink.toFlow .joinExits none = .ok result := by
  have hok : (run selfLink.toFlow .joinExits none).toBool = true := by decide +kernel
  cases hrun : run selfLink.toFlow .joinExits none with
  | ok result => exact ⟨result, rfl⟩
  | error e => simp [hrun, Except.toBool] at hok

lemma exists_ofFlow_selfLink : ∃ p, Problem.ofFlow selfLink.toFlow = .ok p := by
  obtain ⟨result, hrun⟩ := exists_run_selfLink
  obtain ⟨p, _, hp, _, _⟩ := run_eq_ok hrun
  exact ⟨p, hp⟩

end MayAlias.Analysis
