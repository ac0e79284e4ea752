import MayAlias.Proofs.Congruence
import MayAlias.Proofs.ProgramOrder

/-!
# More known before, more known after

Two ways in which facts grow.  A statement makes of a larger graph a larger graph, although an
assignment forgets what its variable pointed to: it forgets the same in both.  And a procedure with
more links between the same nodes has larger facts, under the same numbers for its sites: its facts
satisfy the inequalities of the procedure with fewer links, so that one's passes never leave them.
-/

namespace MayAlias

/-! ## Statements -/

/-- Applied to a graph below another, an effect gives a graph below that of the other: its objects,
edges and tracked variables are among those of the other, and so are the pointees of every
variable. -/
theorem Effect.apply_below (e : Effect) {g h : Graph} (hg : g.BuiltInAnyOrder)
    (hh : h.BuiltInAnyOrder) (hgh : g.below h = true) :
    (e.apply g).below (e.apply h) = true ∧ (e.apply g).PartOf (e.apply h) := by
  rw [Graph.below_iff hg.wellFormed hh.wellFormed] at hgh
  have hatoms : (e.apply g).atoms ⊆ (e.apply h).atoms := by
    rw [atoms_apply hg.wellFormed, atoms_apply hh.wellFormed]
    exact e.after_subset hgh
  refine ⟨?_, Graph.partOf_iff.2 hatoms⟩
  rw [Graph.below_iff (wellFormed_apply hg.wellFormed e) (wellFormed_apply hh.wellFormed e)]
  exact hatoms

/-- In `linkedPair` the variable `z` is untracked.  Once it points to the object of `x`, storing it
into its own field adds an edge, and moving `x` on along the field loses what `x` pointed to, in the
larger graph too. -/
theorem Effect.apply_below_linkedPair :
    Graph.linkedPair.BuiltInAnyOrder ∧
      (Graph.linkedPair.assign "z" (.ofList [⟨0⟩])).BuiltInAnyOrder ∧
      Graph.linkedPair.below (Graph.linkedPair.assign "z" (.ofList [⟨0⟩])) = true ∧
      ∀ e ∈ [store "z" "f" "z", load "x" "x" "f", copy "x" "z"],
        (e.apply Graph.linkedPair).below
            (e.apply (Graph.linkedPair.assign "z" (.ofList [⟨0⟩]))) = true ∧
          (e.apply Graph.linkedPair).PartOf
            (e.apply (Graph.linkedPair.assign "z" (.ofList [⟨0⟩]))) := by
  have hpair := Graph.builtInAnyOrder_linkedPair
  have hmore := hpair.assign (AdaptiveSet.valid_ofList [⟨0⟩]) "z"
  have hbelow : Graph.linkedPair.below (Graph.linkedPair.assign "z" (.ofList [⟨0⟩])) = true := by
    decide +kernel
  exact ⟨hpair, hmore, hbelow, fun e _ => e.apply_below hpair hmore hbelow⟩

/-! ## Procedures -/

/-- The flow graphs have the same nodes and statements, and all predecessors of a node in the first
are its predecessors in the second. -/
structure Flow.Sparser {N : Type} (g h : Flow N) : Prop where
  nodes : g.nodes = h.nodes
  stmt : ∀ n ∈ g.nodes, g.stmt n = h.stmt n
  preds : ∀ n ∈ g.nodes, g.preds n ⊆ h.preds n

namespace Analysis

variable {N : Type}

/-- Effects and sites come from the statements at the nodes alone. -/
lemma Problem.effectsOf_congr {g h : Flow N} {l : List N}
    (hstmt : ∀ n ∈ l, g.stmt n = h.stmt n) (t : SiteTable) : effectsOf g t l = effectsOf h t l := by
  induction l generalizing t with
  | nil => rfl
  | cons n rest ih =>
    rw [List.forall_mem_cons] at hstmt
    rw [effectsOf, effectsOf, hstmt.1]
    split
    · rfl
    · rw [ih hstmt.2]

/-- Settled facts are closed under visits. -/
lemma Facts.Valid.closed {p : Problem N} {f : Facts} (hf : f.Valid p)
    (hs : ∀ pos < p.order.length, f.Settled p pos) :
    Closed p (asserted f.before) (asserted f.after) := by
  constructor
  · intro i hi q hq a ha
    rw [← ((hf.settled_iff i).1 (hs i hi)).2]
    exact ⟨q, hq, ha⟩
  · intro i hi
    obtain ⟨hout, hin⟩ := (hf.settled_iff i).1 (hs i hi)
    rw [← hin]
    exact hout.subset

variable [DecidableEq N]

lemma Problem.effectsOf_of_ofFlow {g : Flow N} {p : Problem N} (hp : ofFlow g = .ok p) :
    effectsOf g .empty g.nodes = .ok (p.effects.toList, p.sites) := by
  rw [ofFlow] at hp
  split at hp
  · simp at hp
  split at hp
  · simp at hp
  obtain ⟨linked, _, hp⟩ := bind_eq_ok_iff.1 hp
  dsimp only at hp
  split at hp
  · simp at hp
  obtain ⟨⟨effects, sites⟩, heffects, hp⟩ := bind_eq_ok_iff.1 hp
  obtain rfl := Except.ok.inj hp
  exact heffects

section Sparser

variable {g h : Flow N} {p q : Problem N} (hgh : g.Sparser h) (hp : Problem.ofFlow g = .ok p)
  (hq : Problem.ofFlow h = .ok q)

include hgh hp hq

/-- The same statements in the same order number the same sites. -/
lemma sites_eq_of_sparser : p.sites = q.sites := by
  have heffects := Problem.effectsOf_of_ofFlow hp
  rw [Problem.effectsOf_congr hgh.stmt, hgh.nodes, Problem.effectsOf_of_ofFlow hq] at heffects
  exact (Prod.mk.inj (Except.ok.inj heffects)).2.symm

/-- What is closed under the visits of the flow graph with more links is closed under those of the
one with fewer. -/
lemma closed_of_sparser {ins outs : ℕ → Set Atom} (hc : Facts.Closed q ins outs) :
    Facts.Closed p ins outs := by
  have hr := Problem.represents_of_ofFlow hp
  have hr' := Problem.represents_of_ofFlow hq
  have horder : p.order = q.order := by rw [hr.order, hr'.order, hgh.nodes]
  have hnode : ∀ i < p.order.length, ∃ n, g.nodes[i]? = some n ∧ h.nodes[i]? = some n := by
    intro i hi
    rw [hr.order] at hi
    rw [← hgh.nodes]
    exact ⟨g.nodes[i], List.getElem?_eq_getElem hi, List.getElem?_eq_getElem hi⟩
  constructor
  · intro i hi j hj
    obtain ⟨n, hn, hn'⟩ := hnode i hi
    obtain ⟨m, hm, hpos⟩ := (hr.mem_preds hn j).1 hj
    apply hc.preds i (horder ▸ hi)
    rw [hr'.mem_preds hn']
    exact ⟨m, hgh.preds n (List.mem_of_getElem? hn) hm, horder ▸ hpos⟩
  · intro i hi
    obtain ⟨n, hn, hn'⟩ := hnode i hi
    -- the effects are the same, because the statements and the tables of sites are
    have heffect := hr.effects i n hn
    rw [hgh.stmt n (List.mem_of_getElem? hn), sites_eq_of_sparser hgh hp hq,
      hr'.effects i n hn'] at heffect
    rw [← (Prod.mk.inj (Option.some.inj heffect)).1]
    exact hc.effect i (horder ▸ hi)

end Sparser

/-- More links between the same nodes give larger facts.  Both analyses come to an end, with the
same numbers for the same sites; and whenever they do, after any number of single passes and under
any limit, the facts of every node in the flow graph with fewer links are below those in the
other. -/
theorem sparser_facts_below {g h : Flow N} {p q : Problem N} (hgh : g.Sparser h)
    (hp : Problem.ofFlow g = .ok p) (hq : Problem.ofFlow h = .ok q) :
    p.sites = q.sites ∧
      (∃ f, (Facts.initial p).solve p none = (f, .ok ())) ∧
      (∃ f', (Facts.initial q).solve q none = (f', .ok ())) ∧
      ∀ k k' limit limit' f f', (Facts.afterPasses p k).solve p limit = (f, .ok ()) →
        (Facts.afterPasses q k').solve q limit' = (f', .ok ()) →
        ∀ n ∈ g.nodes, ∃ in₁ out₁ in₂ out₂,
          p.fact? f.before n = some in₁ ∧ p.fact? f.after n = some out₁ ∧
          q.fact? f'.before n = some in₂ ∧ q.fact? f'.after n = some out₂ ∧
          in₁.below in₂ = true ∧ out₁.below out₂ = true := by
  obtain ⟨f₀, hs₀⟩ := exists_solved hp
  obtain ⟨f₁, hs₁⟩ := exists_solved hq
  refine ⟨sites_eq_of_sparser hgh hp hq, ⟨f₀, hs₀.solve⟩, ⟨f₁, hs₁.solve⟩, ?_⟩
  intro k k' limit limit' f f' hs hs' n hn
  have hr := Problem.represents_of_ofFlow hp
  have hr' := Problem.represents_of_ofFlow hq
  have hf := Facts.valid_of_solve hs
  have hf' := Facts.valid_of_solve hs'
  have hn' : n ∈ h.nodes := hgh.nodes ▸ hn
  have hwithin := Facts.within_of_solve
    (closed_of_sparser hgh hp hq (hf'.closed (Facts.settled_of_solve hs'))) hs
  refine ⟨_, _, _, _, hr.fact?_eq_some hf.before_size hn, hr.fact?_eq_some hf.after_size hn,
    hr'.fact?_eq_some hf'.before_size hn', hr'.fact?_eq_some hf'.after_size hn', ?_⟩
  obtain ⟨i, hpos, hi, _⟩ := hr.exists_position hn
  have hpos' : position? q.order n = some i := by rw [hr'.order, ← hgh.nodes, ← hr.order, hpos]
  rw [p.factAt_eq _ hpos, p.factAt_eq _ hpos, q.factAt_eq _ hpos', q.factAt_eq _ hpos',
    Graph.below_iff (hf.before_wf i) (hf'.before_wf i),
    Graph.below_iff (hf.after_wf i) (hf'.after_wf i)]
  exact ⟨hwithin.before i, hwithin.after i⟩

/-- `selfLink` without the link that closes its loop. -/
def openLink : Cfg := { selfLink with edges := selfLink.edges.erase (4, 2) }

/-- Before the store of `selfLink`, `x` points to one object when the loop is open and to two when
it is closed. -/
theorem sparser_facts_below_openLink :
    openLink.toFlow.Sparser selfLink.toFlow ∧
      ∃ p q f f', Problem.ofFlow openLink.toFlow = .ok p ∧ Problem.ofFlow selfLink.toFlow = .ok q ∧
        (Facts.initial p).solve p none = (f, .ok ()) ∧
        (Facts.initial q).solve q none = (f', .ok ()) ∧ p.sites = q.sites ∧
        ∃ in₁ in₂, p.fact? f.before 2 = some in₁ ∧ q.fact? f'.before 2 = some in₂ ∧
          in₁.below in₂ = true ∧ (in₁.pointees "x").toList = [⟨0⟩] ∧
          (in₂.pointees "x").toList = [⟨0⟩, ⟨1⟩] := by
  have hpreds : ∀ n ∈ openLink.toFlow.nodes, ∀ m ∈ openLink.toFlow.preds n,
      m ∈ selfLink.toFlow.preds n := by decide +kernel
  have hsparser : openLink.toFlow.Sparser selfLink.toFlow :=
    ⟨rfl, fun _ _ => rfl, fun n hn m hm => hpreds n hn m hm⟩
  have hopen : (Problem.ofFlow openLink.toFlow).map (fun p =>
      (p.fact? ((Facts.initial p).solve p none).1.before 2).map fun G => (G.pointees "x").toList)
        = .ok (some [⟨0⟩]) := by decide +kernel
  have hclosed : (Problem.ofFlow selfLink.toFlow).map (fun q =>
      (q.fact? ((Facts.initial q).solve q none).1.before 2).map fun G => (G.pointees "x").toList)
        = .ok (some [⟨0⟩, ⟨1⟩]) := by decide +kernel
  cases hp : Problem.ofFlow openLink.toFlow with
  | error e => simp [hp, Except.map] at hopen
  | ok p =>
    cases hq : Problem.ofFlow selfLink.toFlow with
    | error e => simp [hq, Except.map] at hclosed
    | ok q =>
      obtain ⟨hsites, ⟨f, hs⟩, ⟨f', hs'⟩, hfacts⟩ := sparser_facts_below hsparser hp hq
      obtain ⟨in₁, _, in₂, _, hin₁, _, hin₂, _, hbelow, _⟩ :=
        hfacts 0 0 none none f f' hs hs' 2 (by decide)
      simp only [hp, hs, hin₁, Except.map, Option.map_some, Except.ok.injEq,
        Option.some.injEq] at hopen
      simp only [hq, hs', hin₂, Except.map, Option.map_some, Except.ok.injEq,
        Option.some.injEq] at hclosed
      exact ⟨hsparser, p, q, f, f', rfl, rfl, hs, hs', hsites, in₁, in₂, hin₁, hin₂, hbelow,
        hopen, hclosed⟩

end Analysis

end MayAlias
