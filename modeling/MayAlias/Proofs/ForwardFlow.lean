import MayAlias.Proofs.Cfg
import MayAlias.Proofs.Monotonicity
import MayAlias.Proofs.Provenance
import MayAlias.Proofs.Stopping

/-!
# Procedures that only lead forward

Where all predecessors of a node stand before it in program order, one pass is enough: when a node
is visited, the facts it reads are already those that the pass ends with, and no later visit touches
them.  The second pass finds everything settled.  It is not even needed when no statement assigns a
variable, for then nothing is ever asserted and the first pass is quiet.

In the special case in which every statement falls through to the next, the facts are the graphs
that the statements make one after the other, starting from the empty graph.
-/

namespace MayAlias

/-! ## Leading forward -/

/-- Every predecessor of a node stands before the node in program order. -/
def Flow.Forward {N : Type} (g : Flow N) : Prop :=
  ∀ (i : ℕ) (n : N), g.nodes[i]? = some n → ∀ m ∈ g.preds n, ∃ j < i, g.nodes[j]? = some m

/-- A control-flow graph leads forward when its links go from smaller numbers to larger ones. -/
lemma Cfg.forward_toFlow {g : Cfg} (h : ∀ n < g.size, ∀ m ∈ g.preds n, m < n) :
    g.toFlow.Forward := by
  intro i n hi m hm
  have hrange : (List.range g.size)[i]? = some n := hi
  obtain ⟨hlt, hn⟩ := List.getElem?_eq_some_iff.1 hrange
  rw [List.length_range] at hlt
  rw [List.getElem_range] at hn
  subst hn
  have hmi : m < i := h i hlt m hm
  refine ⟨m, hmi, ?_⟩
  show (List.range g.size)[m]? = some m
  rw [List.getElem?_range (by omega)]

/-- Every predecessor of a position is a smaller one. -/
def Analysis.Problem.Forward {N : Type} (p : Problem N) : Prop :=
  ∀ i < p.order.length, ∀ q ∈ p.preds.getD i [], q < i

/-! ## The first pass -/

/-- Only an assignment asserts something where nothing is asserted before. -/
lemma Effect.after_empty_iff (e : Effect) : e.after ∅ = ∅ ↔ e.assignedVar? = none := by
  constructor
  · intro h
    by_contra hne
    obtain ⟨v, hv⟩ := Option.ne_none_iff_exists'.1 hne
    have hmem := Effect.tracked_mem_after hv ∅
    rw [h] at hmem
    exact hmem
  · intro h
    cases e with
    | store base field rhs => simp [after]
    | nothing => rfl
    | _ => simp [assignedVar?] at h

namespace Analysis

namespace Facts

variable {N : Type} {p : Problem N}

/-- The first pass is quiet exactly when no statement assigns a variable. -/
lemma quiet_initial_iff : ((initial p).pass p).2 = false ↔
    ∀ i < p.order.length, (p.effects.getD i .nothing).assignedVar? = none := by
  rw [quiet_iff_settled]
  refine forall₂_congr fun i _ => ?_
  have hnothing : flowsIn p (initial p) i = ∅ := by
    apply Set.eq_empty_of_forall_notMem
    intro a ha
    obtain ⟨q, _, ha⟩ := ha
    rw [initial, asserted_replicate] at ha
    exact ha
  rw [valid_initial.settled_iff, flowsOut, hnothing, ← Effect.after_empty_iff]
  unfold initial
  rw [asserted_replicate]
  exact and_iff_left rfl

/-! ## One pass settles what leads forward -/

/-- What flows into a node is not touched by a visit to a node that is not among its
predecessors. -/
lemma Visited.flowsIn_eq {f f' : Facts} {pos i : ℕ} (hv : Visited p f pos f')
    (hi : pos ∉ p.preds.getD i []) : flowsIn p f' i = flowsIn p f i := by
  ext a
  unfold flowsIn
  refine exists_congr fun q => and_congr_right fun hq => ?_
  have hne : q ≠ pos := fun h => hi (h ▸ hq)
  rw [hv.after_of_ne q hne]

/-- A visit settles its node, unless the node is its own predecessor. -/
lemma Visited.settled_self {f f' : Facts} {pos : ℕ} (hv : Visited p f pos f')
    (hpos : pos ∉ p.preds.getD pos []) : Settled p f' pos := by
  rw [hv.valid.settled_iff, flowsOut, hv.flowsIn_eq hpos, hv.after_self, hv.before_self]
  exact ⟨rfl, rfl⟩

/-- A visit keeps a node settled that does not read the facts of the node visited. -/
lemma Visited.settled_of_ne {f f' : Facts} {pos i : ℕ} (hv : Visited p f pos f') (hf : f.Valid p)
    (hne : i ≠ pos) (hi : pos ∉ p.preds.getD i []) (hs : Settled p f i) : Settled p f' i := by
  rw [hf.settled_iff, flowsOut] at hs
  rw [hv.valid.settled_iff, flowsOut, hv.flowsIn_eq hi, hv.after_of_ne i hne,
    hv.before_of_ne i hne]
  exact hs

lemma Valid.foldl_visit {state : Facts × Bool} (hstate : state.1.Valid p) {l : List ℕ}
    (hl : ∀ pos ∈ l, pos < p.order.length) : (l.foldl (visit p) state).1.Valid p :=
  foldl_visit_invariant (fun _ _ changed hpos hf => (hf.visited_fst hpos changed).valid) hl hstate

/-- Visits to the first `k` positions in their order settle these. -/
lemma settled_foldl_visit (hp : p.Forward) {state : Facts × Bool} (hstate : state.1.Valid p) {k : ℕ}
    (hk : k ≤ p.order.length) :
    ∀ i < k, Settled p ((List.range k).foldl (visit p) state).1 i := by
  induction k with
  | zero => intro i hi; omega
  | succ k ih =>
    intro i hi
    have hvalid : ((List.range k).foldl (visit p) state).1.Valid p :=
      hstate.foldl_visit fun pos hpos => (List.mem_range.1 hpos).trans (by omega)
    have hv := hvalid.visited_fst (show k < p.order.length by omega)
      ((List.range k).foldl (visit p) state).2
    -- neither this node nor an earlier one reads the facts that the last visit stores
    have hreads : k ∉ p.preds.getD i [] := by
      intro hmem
      have hlt := hp i (by omega) k hmem
      omega
    rw [List.range_succ, List.foldl_append, List.foldl_cons, List.foldl_nil]
    by_cases hik : i = k
    · subst hik
      exact hv.settled_self hreads
    · exact hv.settled_of_ne hvalid hik hreads (ih (by omega) i (by omega))

/-- Behind the first pass, all nodes of a procedure that only leads forward are settled. -/
theorem quiet_second (hp : p.Forward) : ((afterPasses p 1).pass p).2 = false := by
  rw [quiet_iff_settled]
  exact settled_foldl_visit hp (valid_initial.withPasses 1) le_rfl

end Facts

variable {N : Type} [DecidableEq N] {g : Flow N} {p : Problem N}

/-- If the nodes lead forward, so do their positions. -/
lemma Problem.forward_of_ofFlow (hp : Problem.ofFlow g = .ok p) (hg : g.Forward) : p.Forward := by
  have hr := Problem.represents_of_ofFlow hp
  have hnodup := (Problem.analysable_of_ofFlow hp).nodup
  intro i hi q hq
  rw [hr.order] at hi
  have hn : g.nodes[i]? = some g.nodes[i] := List.getElem?_eq_getElem hi
  obtain ⟨m, hm, hpos⟩ := (hr.mem_preds hn q).1 hq
  obtain ⟨j, hj, hnode⟩ := hg i _ hn m hm
  -- a node occurs once, so its position is the one before
  rw [hr.order, position?_of_nodup hnodup hnode] at hpos
  obtain rfl := Option.some.inj hpos
  exact hj

/-- The effects of a procedure assign as its statements do. -/
lemma Problem.Represents.assignedVar?_eq_none_iff (hr : p.Represents g) :
    (∀ i < p.order.length, (p.effects.getD i .nothing).assignedVar? = none) ↔
      ∀ n ∈ g.nodes, (g.stmt n).definedVar? = none := by
  have hparts : ∀ i n, g.nodes[i]? = some n →
      (p.effects.getD i .nothing).assignedVar? = (g.stmt n).definedVar? := fun i n hi =>
    (Effect.parts_of_ofStatement? (hr.effects i n hi)).1
  rw [hr.order]
  constructor
  · intro h n hn
    obtain ⟨i, hi⟩ := List.mem_iff_getElem?.1 hn
    rw [← hparts i n hi]
    exact h i (List.getElem?_eq_some_iff.1 hi).1
  · intro h i hi
    rw [hparts i _ (List.getElem?_eq_getElem hi)]
    exact h _ (List.getElem_mem hi)

/-- A procedure that only leads forward is analysed in one pass when it assigns no variable, and in
two passes when it assigns one. -/
lemma stopsAfter_of_forward (hp : Problem.ofFlow g = .ok p) (hg : g.Forward) :
    ((∀ n ∈ g.nodes, (g.stmt n).definedVar? = none) → Facts.StopsAfter p 0) ∧
      ((∃ n ∈ g.nodes, (g.stmt n).definedVar? ≠ none) → Facts.StopsAfter p 1) := by
  have hfirst := Facts.quiet_initial_iff (p := p)
  rw [(Problem.represents_of_ofFlow hp).assignedVar?_eq_none_iff] at hfirst
  constructor
  · intro hnone
    refine ⟨fun j hj => absurd hj (Nat.not_lt_zero j), hfirst.2 hnone⟩
  · intro hsome
    obtain ⟨n, hn, hvar⟩ := hsome
    refine ⟨fun j hj => ?_, Facts.quiet_second (Problem.forward_of_ofFlow hp hg)⟩
    obtain rfl : j = 0 := by omega
    exact Bool.eq_true_of_not_eq_false fun hquiet => hvar (hfirst.1 hquiet n hn)

end Analysis

/-! ## Statements one after the other -/

namespace Effect

/-- The effects of statements, each with the sites of those before it in the table. -/
def ofStatements? (sites : SiteTable) : List Statement → Option (List Effect × SiteTable)
  | [] => some ([], sites)
  | s :: rest =>
    (ofStatement? sites s).bind fun lowered =>
      (ofStatements? lowered.2 rest).map fun more => (lowered.1 :: more.1, more.2)

/-- The graph after effects, one after the other. -/
def applyAll (es : List Effect) (g : Graph) : Graph := es.foldl (fun g e => e.apply g) g

lemma applyAll_concat (es : List Effect) (e : Effect) (g : Graph) :
    applyAll (es ++ [e]) g = e.apply (applyAll es g) := by
  unfold applyAll
  rw [List.foldl_append, List.foldl_cons, List.foldl_nil]

lemma wellFormed_applyAll {g : Graph} (hg : g.WellFormed) (es : List Effect) :
    (applyAll es g).WellFormed := by
  unfold applyAll
  induction es generalizing g with
  | nil => exact hg
  | cons e es ih => exact ih (wellFormed_apply hg e)

/-- The first statements have the first effects. -/
lemma ofStatements?_take {sites sites' : SiteTable} {stmts : List Statement} {es : List Effect}
    (h : ofStatements? sites stmts = some (es, sites')) (k : ℕ) :
    ∃ t, ofStatements? sites (stmts.take k) = some (es.take k, t) := by
  induction stmts generalizing sites es k with
  | nil =>
    obtain ⟨rfl, rfl⟩ := Prod.mk.inj (Option.some.inj h)
    rw [List.take_nil, List.take_nil]
    exact ⟨sites, rfl⟩
  | cons s stmts ih =>
    cases k with
    | zero => exact ⟨sites, rfl⟩
    | succ k =>
      -- the first statement is taken off, and its sites are there for the others
      obtain ⟨lowered, hlowered, h⟩ := Option.bind_eq_some_iff.1 h
      obtain ⟨more, hmore, heq⟩ := Option.map_eq_some_iff.1 h
      obtain ⟨rfl, rfl⟩ := Prod.mk.inj heq
      obtain ⟨t, ht⟩ := ih hmore k
      refine ⟨t, ?_⟩
      show (ofStatement? sites s).bind _ = _
      rw [hlowered, Option.bind_some, ht, Option.map_some, List.take_succ_cons]

end Effect

namespace Analysis

/-- A procedure has the effects of its statements in program order. -/
lemma Problem.ofStatements?_of_effectsOf {N : Type} {g : Flow N} {l : List N} {t t' : SiteTable}
    {es : List Effect} (h : effectsOf g t l = .ok (es, t')) :
    Effect.ofStatements? t (l.map g.stmt) = some (es, t') := by
  induction l generalizing t es with
  | nil =>
    rw [effectsOf] at h
    obtain ⟨rfl, rfl⟩ := Prod.mk.inj (Except.ok.inj h)
    rfl
  | cons n rest ih =>
    rw [effectsOf] at h
    split at h
    · simp at h
    · next e t₁ he =>
      obtain ⟨more, hmore, hok⟩ := bind_eq_ok_iff.1 h
      obtain ⟨rfl, rfl⟩ := Prod.mk.inj (Except.ok.inj hok)
      show (Effect.ofStatement? t (g.stmt n)).bind _ = _
      rw [he, Option.bind_some, ih hmore, Option.map_some]

/-- In a solution, the graph after the node at position `i` is made by the effect there. -/
lemma Problem.Represents.atoms_out_at {N : Type} [DecidableEq N] {g : Flow N} {p : Problem N}
    (hr : p.Represents g) {ins outs : N → Graph} (hsol : IsSolution g p.sites ins outs)
    (hwf : WellFormedAt g ins outs) {i : ℕ} {n : N} (hi : g.nodes[i]? = some n) :
    (outs n).atoms = (p.effects.getD i .nothing).after (ins n).atoms := by
  obtain ⟨_, e, he, houts⟩ := hr.atoms_of_isSolution hsol hwf (List.mem_of_getElem? hi)
  rw [hr.effects i n hi] at he
  obtain ⟨rfl, _⟩ := Prod.mk.inj (Option.some.inj he)
  exact houts

section StraightLine

variable {name : String} {stmts : List Statement} {p : Problem ℕ}
  (hp : Problem.ofFlow (Cfg.ofStatements name stmts).toFlow = .ok p)

include hp

/-- The effects of the problem are those of the statements in their order. -/
lemma ofStatements?_effects :
    Effect.ofStatements? .empty stmts = some (p.effects.toList, p.sites) := by
  have hlowered := Problem.ofStatements?_of_effectsOf (Problem.effectsOf_of_ofFlow hp)
  rwa [Cfg.map_stmt_ofStatements] at hlowered

/-- One more statement has one more effect. -/
lemma take_effects_succ {i : ℕ} (hi : i < stmts.length) :
    p.effects.toList.take (i + 1) = p.effects.toList.take i ++ [p.effects.getD i .nothing] := by
  have hsize : i < p.effects.size := by
    rw [(Problem.represents_of_ofFlow hp).effects_size, Cfg.nodes_ofStatements, List.length_range]
    exact hi
  rw [List.take_add_one, Array.getElem?_toList, Facts.getElem?_eq_some_getD hsize .nothing,
    Option.toList_some]

section Solution

variable {ins outs : ℕ → Graph}
  (hwf : WellFormedAt (Cfg.ofStatements name stmts).toFlow ins outs)
  (hsol : IsSolution (Cfg.ofStatements name stmts).toFlow p.sites ins outs)

include hwf hsol

/-- In a solution, what is asserted before a statement is asserted after the one in front of it. -/
lemma mem_atoms_ins_iff {i : ℕ} (hi : i < stmts.length) (a : Atom) :
    a ∈ (ins i).atoms ↔ ∃ j, i = j + 1 ∧ a ∈ (outs j).atoms := by
  have hr := Problem.represents_of_ofFlow hp
  have hnode := (Cfg.mem_nodes_ofStatements name stmts).2 hi
  rw [(hr.atoms_of_isSolution hsol hwf hnode).1]
  refine exists_congr fun j => and_congr_left fun _ => ?_
  show j ∈ (Cfg.ofStatements name stmts).preds i ↔ _
  rw [Cfg.mem_preds_ofStatements]
  exact and_iff_left hi

/-- In a solution, a statement adds its effect to those of the statements in front of it. -/
lemma atoms_outs_of_ins {i : ℕ} (hi : i < stmts.length)
    (hins : (ins i).atoms = (Effect.applyAll (p.effects.toList.take i) .empty).atoms) :
    (outs i).atoms = (Effect.applyAll (p.effects.toList.take (i + 1)) .empty).atoms := by
  have hnode : (Cfg.ofStatements name stmts).toFlow.nodes[i]? = some i := by
    rw [Cfg.nodes_ofStatements, List.getElem?_range hi]
  have hfront := Effect.wellFormed_applyAll Graph.wellFormed_empty (p.effects.toList.take i)
  rw [(Problem.represents_of_ofFlow hp).atoms_out_at hsol hwf hnode, hins, take_effects_succ hp hi,
    Effect.applyAll_concat, Effect.atoms_apply hfront]

/-- Before a statement, all effects in front of it have been applied. -/
lemma atoms_ins_eq_applyAll {i : ℕ} (hi : i < stmts.length) :
    (ins i).atoms = (Effect.applyAll (p.effects.toList.take i) .empty).atoms := by
  induction i with
  | zero =>
    show (ins 0).atoms = Graph.empty.atoms
    rw [Graph.atoms_empty, Set.eq_empty_iff_forall_notMem]
    intro a ha
    obtain ⟨j, hj, _⟩ := (mem_atoms_ins_iff hp hwf hsol hi a).1 ha
    omega
  | succ i ih =>
    -- the only predecessor is the statement in front
    rw [← atoms_outs_of_ins hp hwf hsol (by omega) (ih (by omega))]
    ext a
    rw [mem_atoms_ins_iff hp hwf hsol hi]
    constructor
    · intro h
      obtain ⟨j, hj, ha⟩ := h
      obtain rfl : j = i := by omega
      exact ha
    · exact fun ha => ⟨i, rfl, ha⟩

end Solution

/-- The analysis of statements that fall through to each other comes to the graphs that the
statements make one after the other. -/
lemma fact?_ofStatements {k : ℕ} {limit : Option ℕ} {f : Facts}
    (hs : (Facts.afterPasses p k).solve p limit = (f, .ok ())) {i : ℕ} (hi : i < stmts.length) :
    ∃ G es sites, p.fact? f.after i = some G ∧
      Effect.ofStatements? .empty (stmts.take (i + 1)) = some (es, sites) ∧
      (G == Effect.applyAll es .empty) = true := by
  have hr := Problem.represents_of_ofFlow hp
  have hf := Facts.valid_of_solve hs
  have hsol := hr.isSolution hf (Facts.settled_of_solve hs)
  have hwf := hr.wellFormedAt hf
  have hnode := (Cfg.mem_nodes_ofStatements name stmts).2 hi
  obtain ⟨sites, hsites⟩ := Effect.ofStatements?_take (ofStatements?_effects hp) (i + 1)
  refine ⟨_, _, sites, hr.fact?_eq_some hf.after_size hnode, hsites, ?_⟩
  rw [(hwf i hnode).2.beq_iff (Effect.wellFormed_applyAll Graph.wellFormed_empty _)]
  exact atoms_outs_of_ins hp hwf hsol hi (atoms_ins_eq_applyAll hp hwf hsol hi)

end StraightLine

/-! ## The number of passes and the facts -/

/-- An accepted procedure that only leads forward is analysed in one pass when no statement assigns
a variable, and in two passes otherwise.  Where every statement falls through to the next, the fact
after a statement is the graph that the statements up to it make, one after the other, from the
empty graph. -/
theorem forward_flow_converges :
    (∀ (N : Type) [DecidableEq N] (g : Flow N) (p : Problem N), Problem.ofFlow g = .ok p →
      g.Forward → ∀ rule, ∃ result, run g rule none = .ok result ∧
        ((∀ n ∈ g.nodes, (g.stmt n).definedVar? = none) → result.passes = 1) ∧
        ((∃ n ∈ g.nodes, (g.stmt n).definedVar? ≠ none) → result.passes = 2)) ∧
      ∀ (name : String) (stmts : List Statement), stmts ≠ [] →
        (∀ s ∈ stmts, ∀ lhs, s ≠ .alloc lhs none) →
        ∃ p f, Problem.ofFlow (Cfg.ofStatements name stmts).toFlow = .ok p ∧
          (Facts.initial p).solve p none = (f, .ok ()) ∧
          ∀ i < stmts.length, ∃ G es sites, p.fact? f.after i = some G ∧
            Effect.ofStatements? .empty (stmts.take (i + 1)) = some (es, sites) ∧
            (G == Effect.applyAll es .empty) = true := by
  constructor
  · intro N _ g p hp hg rule
    have hpasses : ∀ m, (Result.ofFacts p rule (Facts.afterPasses p (m + 1))).passes = m + 1 :=
      fun m => Facts.passes_afterPasses (m + 1)
    -- the second pass is there to notice that nothing changes any more
    obtain ⟨hnone, hsome⟩ := stopsAfter_of_forward hp hg
    by_cases hall : ∀ n ∈ g.nodes, (g.stmt n).definedVar? = none
    · refine ⟨_, (hnone hall).run_none hp rule, fun _ => hpasses 0, fun hex => ?_⟩
      obtain ⟨n, hn, hvar⟩ := hex
      exact absurd (hall n hn) hvar
    · have hex : ∃ n ∈ g.nodes, (g.stmt n).definedVar? ≠ none := by
        simpa only [not_forall, exists_prop] using hall
      exact ⟨_, (hsome hex).run_none hp rule, fun h => absurd h hall, fun _ => hpasses 1⟩
  · intro name stmts hne hsites
    obtain ⟨p, hp⟩ := Problem.exists_ofFlow (Cfg.analysable_ofStatements name stmts hne hsites)
    obtain ⟨f, hs⟩ := exists_solved hp
    exact ⟨p, f, hp, hs.solve, fun i hi => fact?_ofStatements hp hs.solve hi⟩

/-- Without the link that closes its loop, `selfLink` is analysed in two passes.  A store alone is
analysed in one, and a variable assigned twice in a row points to what it was assigned last. -/
theorem forward_flow_openLink :
    openLink.toFlow.Forward ∧
      (∃ result, run openLink.toFlow .joinExits none = .ok result ∧ result.passes = 2) ∧
      (∃ result, run (Cfg.ofStatements "store" [.store "x" "f" "y"]).toFlow .lastVisited none
        = .ok result ∧ result.passes = 1) ∧
      ∃ p f G, Problem.ofFlow (Cfg.ofStatements "twice"
          [.alloc "x" (some "a"), .alloc "y" (some "b"), .copy "x" "y"]).toFlow = .ok p ∧
        (Facts.initial p).solve p none = (f, .ok ()) ∧ p.fact? f.after 2 = some G ∧
        (G == Effect.applyAll [.alloc "x" ⟨0⟩, .alloc "y" ⟨1⟩, .copy "x" "y"] .empty) = true := by
  obtain ⟨hforward, hstraight⟩ := forward_flow_converges
  have hopen : openLink.toFlow.Forward := Cfg.forward_toFlow (by decide +kernel)
  have hstore : (Cfg.ofStatements "store" [.store "x" "f" "y"]).toFlow.Forward :=
    Cfg.forward_toFlow (by decide +kernel)
  refine ⟨hopen, ?_, ?_, ?_⟩
  · have hok : (Problem.ofFlow openLink.toFlow).toBool = true := by decide +kernel
    cases hp : Problem.ofFlow openLink.toFlow with
    | error e => simp [hp, Except.toBool] at hok
    | ok p =>
      obtain ⟨result, hrun, _, htwo⟩ := hforward ℕ _ p hp hopen .joinExits
      exact ⟨result, hrun, htwo ⟨0, by decide +kernel, by decide +kernel⟩⟩
  · obtain ⟨p, _, hp, _⟩ := hstraight "store" [.store "x" "f" "y"] (by simp) (by simp)
    obtain ⟨result, hrun, hone, _⟩ := hforward ℕ _ p hp hstore .lastVisited
    exact ⟨result, hrun, hone (by decide +kernel)⟩
  · obtain ⟨p, f, hp, hs, hfacts⟩ := hstraight "twice"
      [.alloc "x" (some "a"), .alloc "y" (some "b"), .copy "x" "y"] (by simp) (by simp)
    obtain ⟨G, es, sites, hG, hes, hbeq⟩ := hfacts 2 (by decide)
    have hlowered : Effect.ofStatements? .empty
        [.alloc "x" (some "a"), .alloc "y" (some "b"), .copy "x" "y"]
          = some ([.alloc "x" ⟨0⟩, .alloc "y" ⟨1⟩, .copy "x" "y"],
            ((SiteTable.empty.intern "a").2.intern "b").2) := rfl
    obtain ⟨rfl, _⟩ := Prod.mk.inj (Option.some.inj (hes.symm.trans hlowered))
    exact ⟨p, f, G, hp, hs, hG, hbeq⟩

end Analysis

end MayAlias
