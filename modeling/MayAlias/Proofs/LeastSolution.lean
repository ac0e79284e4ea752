import MayAlias.Proofs.Equations

/-!
# The facts are the least solution

`IsPostSolution` is the system of equations of a procedure with "at least" for "equal to".  The
facts that solving returns satisfy the equations, and they are below every assignment of well-formed
graphs that satisfies the inequalities: no pass ever leaves such an assignment.
-/

namespace MayAlias.Analysis

variable {N : Type} [DecidableEq N]

/-- The graphs before and after the nodes are at least what the equations ask for. -/
def IsPostSolution (g : Flow N) (sites : SiteTable) (ins outs : N → Graph) : Prop :=
  ∀ n ∈ g.nodes, (SummaryRule.join ((g.preds n).map outs)).below (ins n) = true ∧
    ∃ out, transfer? sites (g.stmt n) (ins n) = some out ∧ out.below (outs n) = true

/-- The graphs before and after the nodes solve the equations, and are below all others that satisfy
the inequalities. -/
structure IsLeastSolution (g : Flow N) (sites : SiteTable) (ins outs : N → Graph) : Prop where
  wellFormed : WellFormedAt g ins outs
  solution : IsSolution g sites ins outs
  least : ∀ ins' outs', WellFormedAt g ins' outs' → IsPostSolution g sites ins' outs' →
    ∀ n ∈ g.nodes, (ins n).below (ins' n) = true ∧ (outs n).below (outs' n) = true

/-- An assignment that satisfies the inequalities, as sets of assertions by position. -/
lemma Problem.Represents.closed_of_isPostSolution {g : Flow N} {p : Problem N}
    (hr : p.Represents g) {ins outs : N → Graph} (hwf : WellFormedAt g ins outs)
    (hpost : IsPostSolution g p.sites ins outs) :
    Facts.Closed p (fun i => { a | ∀ n, g.nodes[i]? = some n → a ∈ (ins n).atoms })
      (fun i => { a | ∀ n, g.nodes[i]? = some n → a ∈ (outs n).atoms }) := by
  constructor
  · intro i hi q hq a ha n hn
    have hmem := List.mem_of_getElem? hn
    -- a position stands for a node, whose predecessors are those of the flow graph
    obtain ⟨m, hm, hqpos⟩ := (hr.mem_preds hn q).1 hq
    rw [hr.order] at hqpos
    obtain ⟨hjoin, hatoms⟩ := hr.join_preds hwf hmem
    have hbelow := (hpost n hmem).1
    rw [Graph.below_iff hjoin (hwf n hmem).1] at hbelow
    apply hbelow
    rw [hatoms]
    exact ⟨m, hm, ha m (getElem?_of_position? hqpos)⟩
  · intro i hi a ha n hn
    have hmem := List.mem_of_getElem? hn
    obtain ⟨out, hout, hbelow⟩ := (hpost n hmem).2
    rw [hr.transfer?_eq hn] at hout
    obtain rfl := Option.some.inj hout
    rw [Graph.below_iff (Effect.wellFormed_apply (hwf n hmem).1 _) (hwf n hmem).2,
      Effect.atoms_apply (hwf n hmem).1] at hbelow
    apply hbelow
    refine Effect.after_subset _ ?_ ha
    exact fun b hb => hb n hn

/-- When solving succeeds, after any number of single passes before it, the facts of the nodes are
the least solution of the equations. -/
theorem solve_least_solution {g : Flow N} {p : Problem N} (hp : Problem.ofFlow g = .ok p) {k : ℕ}
    {limit : Option ℕ} {f : Facts}
    (hs : (Facts.afterPasses p k).solve p limit = (f, .ok ())) :
    ∃ ins outs : N → Graph,
      (∀ n ∈ g.nodes, p.fact? f.before n = some (ins n) ∧ p.fact? f.after n = some (outs n)) ∧
      IsLeastSolution g p.sites ins outs := by
  have hr := Problem.represents_of_ofFlow hp
  have hf := Facts.valid_of_solve hs
  refine ⟨p.factAt f.before, p.factAt f.after, fun n hn => ?_, ?_⟩
  · exact ⟨hr.fact?_eq_some hf.before_size hn, hr.fact?_eq_some hf.after_size hn⟩
  · refine ⟨hr.wellFormedAt hf, hr.isSolution hf (Facts.settled_of_solve hs), ?_⟩
    intro ins' outs' hwf hpost n hn
    -- no pass leaves the other assignment, so neither do the facts at the end
    have hwithin := Facts.within_of_solve (hr.closed_of_isPostSolution hwf hpost) hs
    obtain ⟨i, hpos, hi, _⟩ := hr.exists_position hn
    rw [p.factAt_eq _ hpos, p.factAt_eq _ hpos, Graph.below_iff (hf.before_wf i) (hwf n hn).1,
      Graph.below_iff (hf.after_wf i) (hwf n hn).2]
    exact ⟨fun a ha => hwithin.before i ha n hi, fun a ha => hwithin.after i ha n hi⟩

/-- The loop of `selfLink` is analysed to the least solution of its equations. -/
theorem least_solution_selfLink :
    ∃ p f, Problem.ofFlow selfLink.toFlow = .ok p ∧
      (Facts.initial p).solve p none = (f, .ok ()) ∧
      ∃ ins outs : ℕ → Graph,
        (∀ n ∈ selfLink.toFlow.nodes,
          p.fact? f.before n = some (ins n) ∧ p.fact? f.after n = some (outs n)) ∧
        IsLeastSolution selfLink.toFlow p.sites ins outs := by
  obtain ⟨result, hrun⟩ := exists_run_selfLink
  obtain ⟨p, f, hp, hs, _⟩ := run_eq_ok hrun
  exact ⟨p, f, hp, hs, solve_least_solution hp hs⟩

end MayAlias.Analysis
