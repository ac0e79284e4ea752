import Mathlib.Algebra.BigOperators.Group.List.Basic
import MayAlias.Proofs.Drawings
import MayAlias.Report.Facts
import MayAlias.Report.Statistics

/-!
# Reports depend on the contents only

Every report reads a graph through its sorted views: the listing, the objects and the edges in
order, and the numbers of these.  The views of graphs that compare equal are the same, so equal
graphs are reported by the same text, whatever order and form their contents are kept in.
-/

namespace MayAlias.Report

/-! ## Reading the sorted views -/

/-- The line of a listed variable. -/
def listedLine (sites : SiteTable) (entry : String × List ObjectId) : String :=
  entry.1 ++ " (" ++ toString entry.2.length ++ ") ==> \x7b "
    ++ String.join (entry.2.map fun o => sites.render o ++ " ") ++ "\x7d\n"

/-- The points-to report goes through the listing, one line for each entry. -/
lemma pointsTo_eq (sites : SiteTable) (g : Graph) :
    pointsTo sites g = String.join (g.listing.map (listedLine sites)) := by
  rw [pointsTo, Graph.listing, List.map_map]
  rfl

/-- The listing has one entry for each variable. -/
lemma size_vars (g : Graph) : g.vars.size = g.listing.length := by
  rw [Graph.listing, List.length_map, Graph.sortedVars, (sortBy_perm _ _).length_eq, FinMap.size]

/-- The pointees of all variables may be counted in any order. -/
lemma sum_counts {g : Graph} (hg : g.WellFormed) :
    (g.vars.entries.map fun entry => entry.2.count).sum =
      (g.listing.map fun entry => entry.2.length).sum := by
  have hperm := (sortBy_perm (fun a b : String × ObjectSet => Text.compareNames a.1 b.1 != .gt)
    g.vars.entries).map fun entry => entry.2.count
  rw [← hperm.sum_eq, Graph.listing, List.map_map, Graph.sortedVars]
  congr 1
  apply List.map_congr_left
  intro entry hentry
  exact (Graph.length_sortedObjects (hg.vars _ _ ((Graph.mem_sortedVars g _ _).1 hentry))).symm

/-- The statistics of a graph in terms of its sorted views: the objects and edges in order and the
listing have as many members as the graph keeps, in whatever order. -/
lemma pointsToStatistics_eq {g : Graph} (hg : g.WellFormed) :
    pointsToStatistics g =
      "Points-to Statistics: \n"
        ++ countLine "Abstract objects" (toString (Graph.sortedObjects g.objects).length)
        ++ countLine "Field edges" (toString g.sortedEdges.length)
        ++ countLine "Pointers" (toString g.listing.length)
        ++ countLine "Points-to relations"
          (toString (g.listing.map fun entry => entry.2.length).sum)
        ++ countLine "Avg points-to size"
          (average (g.listing.map fun entry => entry.2.length).sum g.listing.length) := by
  -- sorting keeps the numbers
  rw [Graph.length_sortedObjects hg.objects, Graph.length_sortedEdges, ← size_vars, ← sum_counts hg,
    List.sum_eq_foldr, List.foldr_map]
  rfl

section Alike
variable {g g' : Graph} (hg : g.Alike g')
include hg

lemma pointsTo_congr (sites : SiteTable) : pointsTo sites g = pointsTo sites g' := by
  rw [pointsTo_eq, pointsTo_eq, hg.listing]

/-- Graphs that are alike are drawn alike, as the drawing goes through the sorted views. -/
lemma dot_congr (sites : SiteTable) : dot sites g = dot sites g' := by
  rw [dot, dot, Drawing.ofGraph_eq, Drawing.ofGraph_eq, Drawing.items, Drawing.items, hg.listing,
    hg.sortedObjects, hg.sortedEdges]

/-- Graphs that are alike make the same entry of a node. -/
lemma factEntry_congr {N : Type} (node : N → String) (sites : SiteTable) (n : N) :
    factEntry node sites n g = factEntry node sites n g' := by
  unfold factEntry edgeLines
  rw [pointsTo_congr hg, hg.sortedEdges]

/-- Graphs that are alike have the same statistics. -/
lemma pointsToStatistics_congr : pointsToStatistics g = pointsToStatistics g' := by
  rw [pointsToStatistics_eq hg.left, pointsToStatistics_eq hg.right, hg.sortedObjects,
    hg.sortedEdges, hg.listing]

end Alike

/-! ## Results -/

section Results
variable {N : Type}

/-- All graphs that the reports on a result show were made by the operations. -/
structure BuiltResult (r : Analysis.Result N) : Prop where
  after : ∀ G ∈ r.after, G.BuiltInAnyOrder
  summary : r.summary.BuiltInAnyOrder

/-- The results have the same nodes, sites and number of passes, and facts and summaries that
compare equal. -/
structure EqualResults (r r' : Analysis.Result N) : Prop where
  order : r.order = r'.order
  sites : r.sites = r'.sites
  passes : r.passes = r'.passes
  after : List.Forall₂ (fun G G' : Graph => (G == G') = true) r.after.toList r'.after.toList
  summary : (r.summary == r'.summary) = true

/-- The graphs of a result that an analysis returns are made by the operations on graphs. -/
lemma builtResult_of_run [DecidableEq N] {g : Flow N} {rule : SummaryRule} {limit : Option ℕ}
    {r : Analysis.Result N} (hrun : Analysis.run g rule limit = .ok r) : BuiltResult r := by
  obtain ⟨p, f, hp, hs, rfl⟩ := Analysis.run_eq_ok hrun
  have hexits := (Analysis.Problem.represents_of_ofFlow hp).exits_lt
  have hvalid := Analysis.Facts.valid_of_solve hs
  obtain ⟨m, rfl, _⟩ := Analysis.Facts.solve_eq_ok hs
  have hbuilt := Analysis.Facts.allBuilt_afterPasses (p := p) (m + 1)
  exact ⟨fun G hG => Analysis.Facts.built_of_mem hbuilt.after hG,
    hbuilt.summary hvalid hexits rule⟩

/-- Where the facts are alike one by one, so are those that are looked up. -/
lemma rel_factAfter? [DecidableEq N] {r r' : Analysis.Result N} (horder : r.order = r'.order)
    (hafter : List.Forall₂ Graph.Alike r.after.toList r'.after.toList) (n : N) :
    Option.Rel Graph.Alike (r.factAfter? n) (r'.factAfter? n) := by
  rw [Analysis.Result.factAfter?, Analysis.Result.factAfter?, horder]
  cases Analysis.position? r'.order n with
  | none => exact .none
  | some pos =>
    have hrel := rel_getElem? hafter pos
    rwa [Array.getElem?_toList, Array.getElem?_toList] at hrel

variable {r r' : Analysis.Result N} (hr : BuiltResult r) (hr' : BuiltResult r')
  (heq : EqualResults r r')
include hr hr' heq

/-- The report of the facts is made of the entries of single nodes, and equal results have graphs
that are alike at every node. -/
lemma facts_congr [DecidableEq N] (node : N → String) : facts node r = facts node r' := by
  have halike : List.Forall₂ Graph.Alike r.after.toList r'.after.toList :=
    Graph.forall₂_alike (fun G hG => (hr.after G (Array.mem_toList_iff.1 hG)).wellFormed)
      (fun G hG => (hr'.after G (Array.mem_toList_iff.1 hG)).wellFormed) heq.after
  rw [facts, facts, ← heq.order, ← heq.sites]
  congr 1
  apply List.filterMap_congr
  intro n _
  -- a node without a fact in one result has none in the other
  have hrel := rel_factAfter? heq.order halike n
  generalize r.factAfter? n = fact, r'.factAfter? n = fact' at hrel ⊢
  cases hrel with
  | none => rfl
  | some hG => exact congrArg some (factEntry_congr hG node r.sites n)

/-- The statistics count the nodes, passes and sites of a result and what its summary holds. -/
lemma statistics_congr : statistics r = statistics r' := by
  have halike := (hr.summary.wellFormed.alike_iff hr'.summary.wellFormed).2 heq.summary
  have hfixpoint : fixpointStatistics r = fixpointStatistics r' := by
    unfold fixpointStatistics
    rw [heq.order, heq.passes, heq.sites]
  rw [statistics, statistics, hfixpoint, pointsToStatistics_congr halike]

end Results

/-! ## The listing -/

/-- The entries name every tracked variable once, in the order of the bytes of the names, with its
pointees in the order of their numbers. -/
structure Lists (g : Graph) (entries : List (String × List ObjectId)) : Prop where
  tracked : ∀ var, var ∈ entries.map Prod.fst ↔ (g.pointees? var).isSome = true
  ascending : entries.Pairwise fun a b => Text.bytes a.1 < Text.bytes b.1
  pointees : ∀ entry ∈ entries, ∀ o, o ∈ entry.2 ↔ (g.pointees entry.1).contains o = true
  pointees_ascending : ∀ entry ∈ entries, entry.2.Pairwise fun o p => o.toNat < p.toNat
  count : ∀ entry ∈ entries, entry.2.length = (g.pointees entry.1).count

/-- The listing of a well-formed graph is as `Lists` describes. -/
lemma lists_listing {g : Graph} (hg : g.WellFormed) : Lists g g.listing where
  tracked var := by
    simp [Graph.mem_listing, Option.isSome_iff_exists]
  ascending := g.pairwise_listing.imp Text.bytes_lt_of_codePoints_lt
  pointees _ hentry := Graph.mem_listed hg hentry
  pointees_ascending entry hentry := by
    rw [Graph.listed_eq hentry]
    exact Graph.pairwise_sortedObjects (hg.valid_pointees _)
  count entry hentry := by
    rw [Graph.listed_eq hentry, Graph.length_sortedObjects (hg.valid_pointees _)]

/-- Graphs that compare equal have the same listing and drawing, results that compare equal have the
same facts listing and statistics, and a listing has one line for every tracked variable, with
variables and pointees in order. -/
theorem reports_depend_on_contents :
    (∀ (sites : SiteTable) (g g' : Graph), g.BuiltInAnyOrder → g'.BuiltInAnyOrder →
      (g == g') = true → pointsTo sites g = pointsTo sites g' ∧ dot sites g = dot sites g') ∧
    (∀ (N : Type) [DecidableEq N] (node : N → String) (r r' : Analysis.Result N), BuiltResult r →
      BuiltResult r' → EqualResults r r' →
      facts node r = facts node r' ∧ statistics r = statistics r') ∧
    ∀ (sites : SiteTable) (g : Graph), g.BuiltInAnyOrder → ∃ entries, Lists g entries ∧
      pointsTo sites g = String.join (entries.map (listedLine sites)) := by
  refine ⟨fun sites g g' hg hg' heq => ?_, fun N _ node r r' hr hr' heq => ?_, fun sites g hg => ?_⟩
  · have halike := (hg.wellFormed.alike_iff hg'.wellFormed).2 heq
    exact ⟨pointsTo_congr halike sites, dot_congr halike sites⟩
  · exact ⟨facts_congr hr hr' heq node, statistics_congr hr hr' heq⟩
  · exact ⟨g.listing, lists_listing hg.wellFormed, pointsTo_eq sites g⟩

/-- Two branches with an allocation each.  The node where they meet lists its predecessors in the
given order. -/
def branches (meeting : List ℕ) : Flow ℕ where
  entry := 0
  nodes := [0, 1, 2, 3]
  preds n := if n = 0 then [] else if n = 3 then meeting else [0]
  succs n := if n = 0 then [1, 2] else if n = 3 then [] else [3]
  stmt n :=
    if n = 1 then .alloc "x" (some "7") else if n = 2 then .alloc "y" (some "8") else .other

/-- In whichever order predecessors are listed, the facts have the same contents, but they need not
have them in the same order. -/
lemma exists_runs_branches :
    ∃ r r', Analysis.run (branches [1, 2]) .lastVisited none = .ok r ∧
      Analysis.run (branches [2, 1]) .lastVisited none = .ok r' ∧ EqualResults r r' ∧
      r.summary.vars.keys ≠ r'.summary.vars.keys := by
  have hread : (Analysis.run (branches [1, 2]) .lastVisited none).toOption.bind (fun r =>
      (Analysis.run (branches [2, 1]) .lastVisited none).toOption.map fun r' =>
        decide (r.order = r'.order ∧ r.sites = r'.sites ∧ r.passes = r'.passes ∧
          List.Forall₂ (fun G G' : Graph => (G == G') = true) r.after.toList r'.after.toList ∧
          (r.summary == r'.summary) = true ∧ r.summary.vars.keys ≠ r'.summary.vars.keys)) =
      some true := by
    decide +kernel
  obtain ⟨r, hr, hread⟩ := Option.bind_eq_some_iff.1 hread
  obtain ⟨r', hr', hread⟩ := Option.map_eq_some_iff.1 hread
  obtain ⟨horder, hsites, hpasses, hafter, hsummary, hkeys⟩ := of_decide_eq_true hread
  exact ⟨r, r', eq_ok_of_toOption hr, eq_ok_of_toOption hr',
    ⟨horder, hsites, hpasses, hafter, hsummary⟩, hkeys⟩

/-- A table with one site. -/
def oneSite : SiteTable := (SiteTable.empty.intern "7").2

/-- The two linked pairs keep their variables in different orders and are reported by the same
texts, and so are the summaries of two runs whose branches are joined in different orders. -/
theorem reports_depend_on_contents_linkedPair :
    Graph.linkedPair.vars.keys ≠ Graph.linkedPairReversed.vars.keys ∧
      (pointsTo oneSite Graph.linkedPair = pointsTo oneSite Graph.linkedPairReversed ∧
        dot oneSite Graph.linkedPair = dot oneSite Graph.linkedPairReversed) ∧
      (∃ entries, Lists Graph.linkedPair entries ∧
        pointsTo oneSite Graph.linkedPair = String.join (entries.map (listedLine oneSite))) ∧
      ∃ r r', Analysis.run (branches [1, 2]) .lastVisited none = .ok r ∧
        Analysis.run (branches [2, 1]) .lastVisited none = .ok r' ∧
        r.summary.vars.keys ≠ r'.summary.vars.keys ∧
        facts toString r = facts toString r' ∧ statistics r = statistics r' := by
  have hpair := Graph.builtInAnyOrder_linkedPair
  have hreversed := Graph.builtInAnyOrder_linkedPairReversed
  have heq : (Graph.linkedPair == Graph.linkedPairReversed) = true := by decide +kernel
  -- the two runs join the same branches in different orders
  obtain ⟨r, r', hrun, hrun', hresults, hkeys⟩ := exists_runs_branches
  obtain ⟨hgraphs, hreports, hlisting⟩ := reports_depend_on_contents
  refine ⟨by decide +kernel, hgraphs _ _ _ hpair hreversed heq, hlisting _ _ hpair, r, r', hrun,
    hrun', hkeys, ?_⟩
  exact hreports _ _ _ _ (builtResult_of_run hrun) (builtResult_of_run hrun') hresults

end MayAlias.Report
