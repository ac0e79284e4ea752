import MayAlias.Analysis.Result
import MayAlias.Report.PointsTo
import MayAlias.Text.Lines

/-!
# Facts listing

For every node a header, and below it, indented by a tab, the listing of the fact after the node
and its field edges.
-/

namespace MayAlias.Report

/-- Indents every line of a text. -/
def indent (text : String) : String :=
  String.join ((Text.lines text.toList).map fun line => "\t" ++ String.ofList line ++ "\n")

/-- The lines of the field edges, in order. -/
def edgeLines (sites : SiteTable) (g : Graph) : String :=
  String.join (g.sortedEdges.map fun e => "\t" ++ e.render sites ++ "\n")

/-- The entry of one node. -/
def factEntry {N : Type} (node : N → String) (sites : SiteTable) (n : N) (g : Graph) : String :=
  node n ++ ":\n" ++ indent (pointsTo sites g) ++ edgeLines sites g

/-- The facts after the nodes, in program order, each looked up by its node. -/
def facts {N : Type} [DecidableEq N] (node : N → String) (r : Analysis.Result N) : String :=
  String.join (r.order.filterMap fun n => (r.factAfter? n).map (factEntry node r.sites n))

end MayAlias.Report
