import MayAlias.Graph

/-!
# Summaries of a procedure

The facts at the single nodes are collapsed into one graph, against which questions about the whole
procedure are answered.
-/

namespace MayAlias

/-- How the facts of a procedure are collapsed. -/
inductive SummaryRule where
  /-- The fact after the last node visited. -/
  | lastVisited
  /-- The join of the facts after the nodes without successors, or of all facts when every node has
  a successor. -/
  | joinExits
deriving DecidableEq

namespace SummaryRule

/-- The name of a kind. -/
def name : SummaryRule → String
  | lastVisited => "last-visited"
  | joinExits => "join-exits"

/-- The kind with a given name. -/
def ofName? (s : String) : Option SummaryRule :=
  [lastVisited, joinExits].find? fun k => k.name == s

/-- The join of graphs in their order. -/
def join (gs : List Graph) : Graph := gs.foldl (fun acc g => (acc.union g).1) .empty

/-- The summary of the facts after the nodes of a procedure, given the positions of the exits and
of the last node visited.  There is none when an exit lies outside the facts. -/
def summarize? (kind : SummaryRule) (facts : Array Graph) (exits : List Nat)
    (last : Nat) : Option Graph :=
  match kind with
  | lastVisited => some (facts.getD last .empty)
  | joinExits =>
    if exits.isEmpty then some (join facts.toList)
    else (exits.mapM fun p => facts[p]?).map join

end SummaryRule

end MayAlias
