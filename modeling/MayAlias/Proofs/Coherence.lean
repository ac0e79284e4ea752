import MayAlias.Proofs.AliasAnswers

/-!
# The parts of a graph fit together

A graph keeps its edges twice, as a list and in an index by source and field.  Edges are added and
graphs are compared by looking at the list; fields are followed by looking at the index.
`Graph.BuiltInAnyOrder` are the graphs that the operations make from the empty one, when the
contents may be rearranged between any two of them.  In all of them the index and the list hold the
same edges, the end points of edges and the pointees of variables are objects of the graph, and the
questions that are answered from the index have the answers that a look at every edge gives
(`Graph.Coherent`).  The facts of an analysis are such graphs at any time, and so are their
summaries.
-/

namespace MayAlias

/-- What is related to a value that is present is present. -/
lemma exists_of_rel_some {α β : Type} {R : α → β → Prop} {o : Option α} {b : β}
    (h : Option.Rel R o (some b)) : ∃ a, o = some a ∧ R a b := by
  cases h with
  | some h => exact ⟨_, rfl, h⟩

/-- The second set has the elements of the first, in any valid form. -/
structure AdaptiveSet.SameElements (s t : ObjectSet) : Prop where
  valid : t.Valid
  contains : ∀ o, t.contains o = s.contains o

namespace Graph

/-! ## Graphs made in any order -/

/-- The second graph has the contents of the first: the sets have the same elements, and the edges
and the entries of the maps stand in any order. -/
structure Rearranged (g g' : Graph) : Prop where
  objects : g.objects.SameElements g'.objects
  edges : g.edges.Perm g'.edges
  targets : ∀ k, Option.Rel AdaptiveSet.SameElements (g.targets.get? k) (g'.targets.get? k)
  vars : ∀ var, Option.Rel AdaptiveSet.SameElements (g.vars.get? var) (g'.vars.get? var)

/-- The index answers as before, although its entries may be in another form. -/
lemma Rearranged.hasEdge {g g' : Graph} (h : g.Rearranged g') (e : Edge) :
    g'.hasEdge e = g.hasEdge e := by
  have hrel := h.targets (e.src, e.field)
  rw [Graph.hasEdge, Graph.hasEdge]
  cases hget' : g'.targets.get? (e.src, e.field) with
  | none =>
    rw [hget'] at hrel
    generalize g.targets.get? (e.src, e.field) = dsts at hrel
    cases hrel
    rfl
  | some dsts' =>
    obtain ⟨dsts, hget, hsame⟩ := exists_of_rel_some (hget' ▸ hrel)
    rw [hget]
    exact hsame.contains e.dst

/-- The invariant does not depend on the arrangement. -/
lemma WellFormed.rearranged {g g' : Graph} (hg : g.WellFormed) (h : g.Rearranged g') :
    g'.WellFormed where
  objects := h.objects.valid
  targets k dsts hk := by
    obtain ⟨_, _, hsame⟩ := exists_of_rel_some (hk ▸ h.targets k)
    exact hsame.valid
  vars var pts hv := by
    obtain ⟨_, _, hsame⟩ := exists_of_rel_some (hv ▸ h.vars var)
    exact hsame.valid
  edges_nodup := h.edges.nodup_iff.1 hg.edges_nodup
  hasEdge_iff e := by rw [h.hasEdge, hg.hasEdge_iff, h.edges.mem_iff]
  endpoints e he := by
    rw [h.objects.contains, h.objects.contains]
    exact hg.endpoints e (h.edges.mem_iff.2 he)
  pointees_mem var pts o hv ho := by
    -- the set before the rearrangement has the same elements, and they were objects
    obtain ⟨pts₀, hv₀, hsame⟩ := exists_of_rel_some (hv ▸ h.vars var)
    rw [h.objects.contains]
    exact hg.pointees_mem var pts₀ o hv₀ (hsame.contains o ▸ ho)

/-- A graph may hold objects that no edge or variable mentions. -/
lemma WellFormed.insertObject {g : Graph} (hg : g.WellFormed) (o : ObjectId) :
    (g.insertObject o).1.WellFormed :=
  hg.withObjects (hg.objects.insert o) fun _ h => (AdaptiveSet.contains_insert _ _ _).2 (Or.inl h)

/-- The graphs that the operations make from the empty one, with sets in any form, when the contents
may be rearranged at any time. -/
inductive BuiltInAnyOrder : Graph → Prop
  | empty : BuiltInAnyOrder .empty
  | assign {g : Graph} {pts : ObjectSet} (hg : BuiltInAnyOrder g) (hpts : pts.Valid)
    (var : String) : BuiltInAnyOrder (g.assign var pts)
  | insertObject {g : Graph} (hg : BuiltInAnyOrder g) (o : ObjectId) :
    BuiltInAnyOrder (g.insertObject o).1
  | insertEdge {g : Graph} (hg : BuiltInAnyOrder g) (e : Edge) : BuiltInAnyOrder (g.insertEdge e).1
  | union {g h : Graph} (hg : BuiltInAnyOrder g) (hh : BuiltInAnyOrder h) :
    BuiltInAnyOrder (g.union h).1
  | clear {g : Graph} (hg : BuiltInAnyOrder g) : BuiltInAnyOrder g.clear
  | copy {g source : Graph} (hg : BuiltInAnyOrder g) (hsource : BuiltInAnyOrder source) :
    BuiltInAnyOrder (g.copy source)
  | apply {g : Graph} (hg : BuiltInAnyOrder g) (e : Effect) : BuiltInAnyOrder (e.apply g)
  | rearrange {g g' : Graph} (hg : BuiltInAnyOrder g) (h : g.Rearranged g') : BuiltInAnyOrder g'

/-- Every operation keeps to the invariant of the representation, and so does a rearrangement. -/
theorem BuiltInAnyOrder.wellFormed {g : Graph} (hg : g.BuiltInAnyOrder) : g.WellFormed := by
  induction hg with
  | empty => exact wellFormed_empty
  | assign _ hpts var ih => exact ih.assign hpts
  | insertObject _ o ih => exact ih.insertObject o
  | insertEdge _ e ih => exact ih.insertEdge e
  | union _ _ ihg ihh => exact ihg.union ihh
  | clear _ _ =>
    rw [clear_eq_empty]
    exact wellFormed_empty
  | copy _ _ _ ih =>
    rw [copy_eq]
    exact ih
  | apply _ e ih => exact Effect.wellFormed_apply ih e
  | rearrange _ h ih => exact ih.rearranged h

/-- In the field of the object of `x` is the object of `y`. -/
def linkedPair : Graph :=
  (Effect.store "x" "f" "y").apply
    ((empty.assign "x" (.ofList [⟨0⟩])).assign "y" (.ofList [⟨1⟩]))

/-- Two assignments and a store make the pair. -/
lemma builtInAnyOrder_linkedPair : linkedPair.BuiltInAnyOrder :=
  ((BuiltInAnyOrder.empty.assign (AdaptiveSet.valid_ofList _) "x").assign
    (AdaptiveSet.valid_ofList _) "y").apply _

/-! ## Reading the index and reading the edges -/

/-- The targets of the edges for `field` whose source passes a test, found by looking at every
edge. -/
def scan (g : Graph) (isSource : ObjectId → Bool) (field : String) : ObjectSet :=
  .ofList ((g.edges.filter fun e => isSource e.src && e.field == field).map Edge.dst)

/-- The scan finds a target when an edge for the field leads to it from a source that passes. -/
lemma contains_scan (g : Graph) (isSource : ObjectId → Bool) (field : String) (o : ObjectId) :
    (g.scan isSource field).contains o = true ↔
      ∃ src, isSource src = true ∧ (⟨src, field, o⟩ : Edge) ∈ g.edges := by
  rw [scan, AdaptiveSet.contains_ofList, List.mem_map]
  constructor
  · intro h
    obtain ⟨e, he, rfl⟩ := h
    rw [List.mem_filter, Bool.and_eq_true, beq_iff_eq] at he
    obtain ⟨hmem, hsrc, rfl⟩ := he
    exact ⟨e.src, hsrc, hmem⟩
  · intro h
    obtain ⟨src, hsrc, hmem⟩ := h
    refine ⟨⟨src, field, o⟩, List.mem_filter.2 ⟨hmem, ?_⟩, rfl⟩
    simp [hsrc]

/-- The scan collects its targets into a valid set. -/
lemma valid_scan (g : Graph) (isSource : ObjectId → Bool) (field : String) :
    (g.scan isSource field).Valid := AdaptiveSet.valid_ofList _

/-- The objects, the edges, the index and the variables of a graph fit together. -/
structure Coherent (g : Graph) : Prop where
  endpoints : ∀ e ∈ g.edges, g.objects.contains e.src = true ∧ g.objects.contains e.dst = true
  pointees : ∀ var pts, g.pointees? var = some pts →
    ∀ o, pts.contains o = true → g.objects.contains o = true
  /-- The index holds a target under a source and a field when there is such an edge. -/
  index : ∀ src field dst,
    (∃ dsts, g.targets.get? (src, field) = some dsts ∧ dsts.contains dst = true) ↔
      (⟨src, field, dst⟩ : Edge) ∈ g.edges
  hasEdge : ∀ e, g.hasEdge e = g.edges.contains e
  follow : ∀ src field, (g.follow src field == g.scan (· == src) field) = true
  followAll : ∀ srcs field, srcs.Valid →
    (g.followAll srcs field == g.scan srcs.contains field) = true

/-- A well-formed graph is coherent. -/
lemma WellFormed.coherent {g : Graph} (hg : g.WellFormed) : g.Coherent where
  endpoints := hg.endpoints
  pointees var pts hpts o ho := hg.pointees_mem var pts o hpts ho
  index src field dst := by
    rw [← hg.hasEdge_iff, Graph.hasEdge]
    cases g.targets.get? (src, field) with
    | none => simp
    | some dsts => simp
  hasEdge e := by
    rw [Bool.eq_iff_iff, hg.hasEdge_iff, List.contains_iff_mem]
  follow src field := by
    rw [(hg.valid_follow src field).beq_iff (g.valid_scan _ field)]
    intro o
    rw [hg.contains_follow, contains_scan]
    simp
  followAll srcs field hsrcs := by
    rw [(hg.valid_followAll srcs field).beq_iff (g.valid_scan _ field)]
    intro o
    rw [hg.contains_followAll hsrcs, contains_scan]

end Graph

/-- A join is a chain of unions from the empty graph. -/
lemma SummaryRule.built_join {gs : List Graph} (hgs : ∀ G ∈ gs, G.BuiltInAnyOrder) :
    (join gs).BuiltInAnyOrder := by
  have hfold : ∀ acc : Graph, acc.BuiltInAnyOrder →
      (gs.foldl (fun acc g => (acc.union g).1) acc).BuiltInAnyOrder := by
    induction gs with
    | nil => exact fun _ hacc => hacc
    | cons g gs ih =>
      intro acc hacc
      exact ih (fun G hG => hgs G (List.mem_cons_of_mem _ hG)) _
        (hacc.union (hgs g List.mem_cons_self))
  exact hfold _ .empty

/-! ## The facts of an analysis -/

namespace Analysis

namespace Facts

variable {N : Type} {p : Problem N}

/-- All facts are graphs made by operations. -/
structure AllBuilt (f : Facts) : Prop where
  before : ∀ i, (f.before.getD i .empty).BuiltInAnyOrder
  after : ∀ i, (f.after.getD i .empty).BuiltInAnyOrder

/-- A fact is found at its place. -/
lemma built_of_mem {graphs : Array Graph} (hgraphs : ∀ i, (graphs.getD i .empty).BuiltInAnyOrder)
    {G : Graph} (hG : G ∈ graphs) : G.BuiltInAnyOrder := by
  obtain ⟨i, hi, rfl⟩ := Array.mem_iff_getElem.1 hG
  have hget := hgraphs i
  rwa [Array.getD_eq_getD_getElem?, Array.getElem?_eq_getElem hi, Option.getD_some] at hget

/-- Storing a graph at a place leaves the graphs at the other places alone. -/
lemma built_store {graphs : Array Graph} (hgraphs : ∀ i, (graphs.getD i .empty).BuiltInAnyOrder)
    (pos : ℕ) {G : Graph} (hG : G.BuiltInAnyOrder) (i : ℕ) :
    ((store graphs pos G).1.getD i .empty).BuiltInAnyOrder := by
  rw [store]
  split
  · exact hgraphs i
  -- a place outside of the array is not written
  · by_cases hpos : pos < graphs.size
    · rw [getD_setIfInBounds graphs hpos]
      split
      · exact hG
      · exact hgraphs i
    · rw [Array.setIfInBounds_eq_of_size_le (Nat.le_of_not_lt hpos)]
      exact hgraphs i

/-- A visit makes the new facts of a node by operations from the facts there are. -/
lemma AllBuilt.visit {f : Facts} (hf : f.AllBuilt) (pos : ℕ) (changed : Bool) :
    (visit p (f, changed) pos).1.AllBuilt := by
  -- the input of a node joins the facts of those before it
  have hinput : (f.incoming p pos).BuiltInAnyOrder := by
    apply SummaryRule.built_join
    intro G hG
    obtain ⟨q, _, rfl⟩ := List.mem_map.1 hG
    exact hf.after q
  exact ⟨built_store hf.before pos hinput, built_store hf.after pos (hinput.apply _)⟩

/-- Facts start out empty, and visits keep them graphs made by operations. -/
lemma allBuilt_afterPasses (k : ℕ) : (afterPasses p k).AllBuilt := by
  apply afterPasses_invariant
  · refine ⟨fun i => ?_, fun i => ?_⟩ <;> rw [initial, getD_replicate_empty] <;> exact .empty
  · exact fun _ _ hf => ⟨hf.before, hf.after⟩
  · exact fun _ pos changed _ hf => hf.visit pos changed

/-- A summary is a fact or a join of facts. -/
lemma AllBuilt.summary {f : Facts} (hf : f.AllBuilt) (hvalid : f.Valid p)
    (hexits : ∀ i ∈ p.exits, i < p.order.length) (rule : SummaryRule) :
    (f.summary p rule).BuiltInAnyOrder := by
  cases rule with
  | lastVisited => exact hf.after _
  | joinExits =>
    rw [summary_joinExits hvalid hexits]
    apply SummaryRule.built_join
    intro G hG
    obtain ⟨i, _, rfl⟩ := List.mem_map.1 hG
    exact hf.after i

end Facts

/-- Graphs made by operations are coherent.  So are all facts of an accepted procedure after any
number of passes, and their summaries. -/
theorem built_graphs_coherent :
    (∀ G : Graph, G.BuiltInAnyOrder → G.Coherent) ∧
      ∀ (N : Type) [DecidableEq N] (g : Flow N) (p : Problem N), Problem.ofFlow g = .ok p →
        ∀ k, (∀ G ∈ (Facts.afterPasses p k).before, G.Coherent) ∧
          (∀ G ∈ (Facts.afterPasses p k).after, G.Coherent) ∧
          ∀ rule, ((Facts.afterPasses p k).summary p rule).Coherent := by
  refine ⟨fun G hG => hG.wellFormed.coherent, ?_⟩
  intro N _ g p hp k
  have hbuilt := Facts.allBuilt_afterPasses (p := p) k
  have hexits := (Problem.represents_of_ofFlow hp).exits_lt
  refine ⟨fun G hG => ?_, fun G hG => ?_, fun rule => ?_⟩
  · exact (Facts.built_of_mem hbuilt.before hG).wellFormed.coherent
  · exact (Facts.built_of_mem hbuilt.after hG).wellFormed.coherent
  · exact (hbuilt.summary (Facts.valid_afterPasses k) hexits rule).wellFormed.coherent

/-- `linkedPair` has an edge in its index, and the facts of `selfLink` after three passes are read
from theirs. -/
theorem built_graphs_coherent_linkedPair :
    Graph.linkedPair.BuiltInAnyOrder ∧ Graph.linkedPair.edges = [⟨⟨0⟩, "f", ⟨1⟩⟩] ∧
      Graph.linkedPair.Coherent ∧
      ∃ p, Problem.ofFlow selfLink.toFlow = .ok p ∧
        (∀ G ∈ (Facts.afterPasses p 3).after, G.Coherent) ∧
        ((Facts.afterPasses p 3).summary p .joinExits).Coherent := by
  obtain ⟨result, hresult⟩ := exists_run_selfLink
  obtain ⟨p, _, hp, _⟩ := run_eq_ok hresult
  obtain ⟨_, hafter, hsummary⟩ := built_graphs_coherent.2 ℕ selfLink.toFlow p hp 3
  have hpair := Graph.builtInAnyOrder_linkedPair
  exact ⟨hpair, by decide, built_graphs_coherent.1 _ hpair, p, hp, hafter, hsummary .joinExits⟩

end Analysis

end MayAlias
