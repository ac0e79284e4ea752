import MayAlias.Statement

/-!
# Flow graphs

What the analysis needs to know of a procedure: its nodes in program order, the links between them
and the statement at each.  Nothing is promised about the links; `Analysis.Problem` checks them.
-/

namespace MayAlias

/-- A procedure as a graph over nodes of type `N`. -/
structure Flow (N : Type) where
  /-- The node at which the procedure starts. -/
  entry : N
  /-- All nodes, in program order. -/
  nodes : List N
  preds : N → List N
  succs : N → List N
  /-- The statement at a node. -/
  stmt : N → Statement

end MayAlias
