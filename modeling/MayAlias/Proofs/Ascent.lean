import MayAlias.Proofs.JoinLaws
import MayAlias.Proofs.LeastSolution

/-!
# Facts ascend from pass to pass

A pass computes every fact anew from facts of which some are already those of this pass and others
still those of the last one.  Yet nothing is lost on the way: a fact is part of the same fact one
pass later, and part of the same fact in every solution of the equations.

Of the two equations of a node, the one for its statement holds from the first pass on, because a
visit stores both facts of a node together (`Facts.Balanced`).  Only the one for the predecessors
has to wait until the passes come to an end.
-/

namespace MayAlias.Analysis

namespace Facts

variable {N : Type} {p : Problem N}

/-! ## What a pass keeps -/

/-- The facts `f'` assert all that `f` does, and are still ascending. -/
structure GrownFrom (p : Problem N) (f f' : Facts) : Prop where
  ascending : f'.Ascending p
  before : ∀ i, asserted f.before i ⊆ asserted f'.before i
  after : ∀ i, asserted f.after i ⊆ asserted f'.after i

/-- A visit adds to the facts that have grown so far. -/
lemma GrownFrom.visited {f f₁ f₂ : Facts} (hf : GrownFrom p f f₁) {pos : ℕ}
    (hv : Visited p f₁ pos f₂) : GrownFrom p f f₂ := by
  have hgrow := hf.ascending.subset_of_visited hv
  refine ⟨hf.ascending.visited hv, fun i => ?_, fun i => ?_⟩
  · exact (hf.before i).trans (hgrow i).1
  · exact (hf.after i).trans (hgrow i).2

/-- A pass over ascending facts lets no fact shrink. -/
lemma Ascending.grownFrom_pass {f : Facts} (hf : f.Ascending p) : GrownFrom p f (f.pass p).1 := by
  unfold pass
  apply foldl_visit_invariant
  · intro f' pos changed hpos hf'
    exact hf'.visited (hf'.ascending.valid.visited_fst hpos changed)
  · exact fun pos hpos => List.mem_range.1 hpos
  · exact ⟨hf.withPasses _, fun _ => le_rfl, fun _ => le_rfl⟩

/-! ## The equation of the statement -/

/-- The fact after the node at position `i` is what the statement there makes of the fact before
it. -/
def Balanced (p : Problem N) (f : Facts) (i : ℕ) : Prop :=
  asserted f.after i = (p.effects.getD i .nothing).after (asserted f.before i)

/-- A visit stores both facts of its node together. -/
lemma Visited.balanced_self {f f' : Facts} {pos : ℕ} (hv : Visited p f pos f') :
    Balanced p f' pos := by
  unfold Balanced
  rw [hv.after_self, hv.before_self, flowsOut]

lemma Visited.balanced_of_ne {f f' : Facts} {pos i : ℕ} (hv : Visited p f pos f') (hi : i ≠ pos)
    (hf : Balanced p f i) : Balanced p f' i := by
  unfold Balanced at hf ⊢
  rw [hv.after_of_ne i hi, hv.before_of_ne i hi, hf]

/-- Visits balance the nodes visited and keep those balanced that were so before. -/
lemma balanced_foldl_visit {l : List ℕ} (hl : ∀ pos ∈ l, pos < p.order.length)
    {state : Facts × Bool} (hstate : state.1.Valid p) {i : ℕ}
    (hi : i ∈ l ∨ Balanced p state.1 i) : Balanced p (l.foldl (visit p) state).1 i := by
  induction l generalizing state with
  | nil => exact hi.resolve_left List.not_mem_nil
  | cons pos l ih =>
    have hv := hstate.visited_fst (hl pos List.mem_cons_self) state.2
    apply ih (fun q hq => hl q (List.mem_cons_of_mem _ hq)) hv.valid
    -- the node visited now is balanced by its visit, and the others keep what they have
    by_cases hpos : i = pos
    · subst hpos
      exact Or.inr hv.balanced_self
    · rcases hi with hmem | hbalanced
      · exact Or.inl (List.mem_of_ne_of_mem hpos hmem)
      · exact Or.inr (hv.balanced_of_ne hpos hbalanced)

/-- Behind every pass all nodes are balanced. -/
lemma Valid.balanced_pass {f : Facts} (hf : f.Valid p) {i : ℕ} (hi : i < p.order.length) :
    Balanced p (f.pass p).1 i :=
  balanced_foldl_visit (fun _ hpos => List.mem_range.1 hpos) (hf.withPasses _)
    (Or.inl (List.mem_range.2 hi))

end Facts

variable {N : Type} [DecidableEq N]

/-! ## Solutions -/

namespace Problem.Represents

variable {g : Flow N} {p : Problem N} (hr : p.Represents g)

include hr

/-- What satisfies the equations satisfies the inequalities. -/
lemma isPostSolution {ins outs : N → Graph} (hwf : WellFormedAt g ins outs)
    (hsol : IsSolution g p.sites ins outs) : IsPostSolution g p.sites ins outs := by
  intro n hn
  obtain ⟨i, _, hi, _⟩ := hr.exists_position hn
  obtain ⟨hjoin, _⟩ := hr.join_preds hwf hn
  obtain ⟨hins, out, hout, houts⟩ := hsol n hn
  -- the transfer of a statement is that of its effect
  have houtwf : out.WellFormed := by
    rw [hr.transfer?_eq hi] at hout
    obtain rfl := Option.some.inj hout
    exact Effect.wellFormed_apply (hwf n hn).1 _
  refine ⟨?_, out, hout, ?_⟩
  · rw [Graph.below_iff hjoin (hwf n hn).1]
    exact (((hwf n hn).1.beq_iff hjoin).1 hins).superset
  · rw [Graph.below_iff houtwf (hwf n hn).2]
    exact (((hwf n hn).2.beq_iff houtwf).1 houts).superset

end Problem.Represents

/-! ## One pass and the next -/

/-- How the facts `in₁` and `out₁` of the node `n` relate to those one pass later, `in₂` and
`out₂`. -/
structure Ascent (g : Flow N) (sites : SiteTable) (n : N) (in₁ out₁ in₂ out₂ : Graph) : Prop where
  below_next : in₁.below in₂ = true ∧ out₁.below out₂ = true
  /-- No object, edge, tracked variable or pointee is lost. -/
  partOf_next : in₁.PartOf in₂ ∧ out₁.PartOf out₂
  below_solution : ∀ ins outs, WellFormedAt g ins outs → IsSolution g sites ins outs →
    in₁.below (ins n) = true ∧ out₁.below (outs n) = true
  /-- A pass leaves the fact after the node as the statement makes it from the fact before. -/
  transferred : ∃ out, transfer? sites (g.stmt n) in₂ = some out ∧ (out₂ == out) = true

/-- From every pass to the next the facts of all nodes ascend, below every solution of the
equations, and behind every pass the equation of the statement holds. -/
theorem passes_ascend {g : Flow N} {p : Problem N} (hp : Problem.ofFlow g = .ok p) (k : ℕ) {n : N}
    (hn : n ∈ g.nodes) :
    ∃ in₁ out₁ in₂ out₂,
      p.fact? (Facts.afterPasses p k).before n = some in₁ ∧
      p.fact? (Facts.afterPasses p k).after n = some out₁ ∧
      p.fact? (Facts.afterPasses p (k + 1)).before n = some in₂ ∧
      p.fact? (Facts.afterPasses p (k + 1)).after n = some out₂ ∧
      Ascent g p.sites n in₁ out₁ in₂ out₂ := by
  have hr := Problem.represents_of_ofFlow hp
  have hf : (Facts.afterPasses p k).Valid p := Facts.valid_afterPasses k
  have hf' : (Facts.afterPasses p (k + 1)).Valid p := Facts.valid_afterPasses (k + 1)
  obtain ⟨i, hpos, hi, hlt⟩ := hr.exists_position hn
  have hgrow : Facts.GrownFrom p (Facts.afterPasses p k) (Facts.afterPasses p (k + 1)) :=
    (Facts.ascending_afterPasses k).grownFrom_pass
  have hbalanced := hf.balanced_pass hlt
  refine ⟨_, _, _, _, hr.fact?_eq_some hf.before_size hn, hr.fact?_eq_some hf.after_size hn,
    hr.fact?_eq_some hf'.before_size hn, hr.fact?_eq_some hf'.after_size hn, ?_⟩
  simp only [p.factAt_eq _ hpos]
  constructor
  · rw [Graph.below_iff (hf.before_wf i) (hf'.before_wf i),
      Graph.below_iff (hf.after_wf i) (hf'.after_wf i)]
    exact ⟨hgrow.before i, hgrow.after i⟩
  · rw [Graph.partOf_iff, Graph.partOf_iff]
    exact ⟨hgrow.before i, hgrow.after i⟩
  · intro ins outs hwf hsol
    -- every fact of a pass stays within any solution
    have hclosed := hr.closed_of_isPostSolution hwf (hr.isPostSolution hwf hsol)
    have hwithin := Facts.within_afterPasses hclosed k
    rw [Graph.below_iff (hf.before_wf i) (hwf n hn).1, Graph.below_iff (hf.after_wf i) (hwf n hn).2]
    exact ⟨fun a ha => hwithin.before i ha n hi, fun a ha => hwithin.after i ha n hi⟩
  · refine ⟨_, hr.transfer?_eq hi _, ?_⟩
    rw [(hf'.after_wf i).beq_iff (Effect.wellFormed_apply (hf'.before_wf i) _),
      Effect.atoms_apply (hf'.before_wf i)]
    exact hbalanced

/-- Before the store of `selfLink` the second pass finds a second object for `x`, which the first
one could not see yet. -/
theorem passes_ascend_selfLink :
    ∃ p in₁ out₁ in₂ out₂, Problem.ofFlow selfLink.toFlow = .ok p ∧ 2 ∈ selfLink.toFlow.nodes ∧
      p.fact? (Facts.afterPasses p 1).before 2 = some in₁ ∧
      p.fact? (Facts.afterPasses p 2).before 2 = some in₂ ∧
      Ascent selfLink.toFlow p.sites 2 in₁ out₁ in₂ out₂ ∧
      (in₁.pointees "x").toList = [⟨0⟩] ∧ (in₂.pointees "x").toList = [⟨0⟩, ⟨1⟩] := by
  have hpointees : (Problem.ofFlow selfLink.toFlow).map (fun p => [1, 2].map fun k =>
      (p.fact? (Facts.afterPasses p k).before 2).map fun G => (G.pointees "x").toList)
        = .ok [some [⟨0⟩], some [⟨0⟩, ⟨1⟩]] := by decide +kernel
  have hnode : 2 ∈ selfLink.toFlow.nodes := by decide +kernel
  obtain ⟨p, hp⟩ := exists_ofFlow_selfLink
  obtain ⟨in₁, out₁, in₂, out₂, hin₁, _, hin₂, _, hascent⟩ := passes_ascend hp 1 hnode
  simp only [hp, Except.map, List.map_cons, List.map_nil, hin₁, hin₂, Option.map_some,
    Except.ok.injEq, List.cons.injEq, Option.some.injEq, and_true] at hpointees
  exact ⟨p, in₁, out₁, in₂, out₂, hp, hnode, hin₁, hin₂, hascent, hpointees⟩

end MayAlias.Analysis
