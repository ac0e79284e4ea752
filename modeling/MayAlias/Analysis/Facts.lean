import MayAlias.Analysis.Problem
import MayAlias.Summary

/-!
# Facts and passes

Every node has a fact before and a fact after its statement.  A pass visits the nodes in program
order; the fact before a node becomes the join of the facts after its predecessors, and the fact
after it the effect of its statement on that.  Passes are repeated until one changes nothing.

A pass that changes something adds an object, an edge, a tracked variable or a pointee to a fact,
and there are only finitely many of these, which gives `Problem.passBound`.
-/

namespace MayAlias.Analysis

/-- The facts of all nodes, by position, and the number of passes made. -/
structure Facts where
  before : Array Graph
  after : Array Graph
  passes : Nat

variable {N : Type}

/-- The fact of a node, given those of all positions; nothing has one but the nodes. -/
def Problem.fact? [DecidableEq N] (p : Problem N) (graphs : Array Graph) (n : N) : Option Graph :=
  (position? p.order n).bind fun pos => graphs[pos]?

namespace Facts

/-- Nothing is known yet. -/
def initial (p : Problem N) : Facts where
  before := Array.replicate p.order.length .empty
  after := Array.replicate p.order.length .empty
  passes := 0

/-- The join of the facts after the predecessors of the node at `pos`. -/
def incoming (p : Problem N) (f : Facts) (pos : Nat) : Graph :=
  SummaryRule.join ((p.preds.getD pos []).map fun q => f.after.getD q .empty)

/-- Stores a graph unless an equal one is stored already; the flag tells whether it was stored. -/
def store (graphs : Array Graph) (pos : Nat) (g : Graph) : Array Graph × Bool :=
  if g == graphs.getD pos .empty then (graphs, false) else (graphs.setIfInBounds pos g, true)

/-- Visits the node at `pos`; the flag is raised when a fact changes. -/
def visit (p : Problem N) (state : Facts × Bool) (pos : Nat) : Facts × Bool :=
  let (f, changed) := state
  let input := f.incoming p pos
  let output := (p.effects.getD pos .nothing).apply input
  let (after, afterChanged) := store f.after pos output
  let (before, beforeChanged) := store f.before pos input
  ({ f with before, after }, changed || afterChanged || beforeChanged)

/-- One pass over all nodes; the flag tells whether a fact changed. -/
def pass (p : Problem N) (f : Facts) : Facts × Bool :=
  (List.range p.order.length).foldl (visit p) ({ f with passes := f.passes + 1 }, false)

/-- Makes passes until one changes nothing, at most `n` of them; the flag tells whether the last
one changed nothing. -/
def iterate (p : Problem N) : Nat → Facts → Facts × Bool
  | 0, f => (f, false)
  | n + 1, f =>
    match f.pass p with
    | (f, false) => (f, true)
    | (f, true) => iterate p n f

end Facts

/-- The variables that a list of effects assigns. -/
def assignedVars (effects : List Effect) : List String :=
  (effects.filterMap fun
    | .alloc lhs _ => some lhs
    | .copy lhs _ => some lhs
    | .load lhs _ _ => some lhs
    | _ => none).eraseDups

/-- The fields to which a list of effects stores. -/
def storedFields (effects : List Effect) : List String :=
  (effects.filterMap fun
    | .store _ field _ => some field
    | _ => none).eraseDups

/-- A number of passes after which nothing can change any more: two facts at each node, which hold
objects, tracked variables, pointees of variables and edges. -/
def Problem.passBound (p : Problem N) : Nat :=
  let sites := p.sites.size
  let vars := (assignedVars p.effects.toList).length
  let fields := (storedFields p.effects.toList).length
  1 + 2 * p.order.length * (sites + vars + vars * sites + sites * sites * fields)

namespace Facts

/-- How many more passes may be made.  Without a limit the bound of the problem serves. -/
def passesLeft (p : Problem N) (f : Facts) : Option Nat → Nat
  | some limit => limit - f.passes
  | none => p.passBound

/-- Makes passes until one changes nothing.  Gives up when as many passes as the limit have been
made; the facts reached are kept in either case. -/
def solve (p : Problem N) (limit : Option Nat) (f : Facts) :
    Facts × Except (Failure N) Unit :=
  match iterate p (f.passesLeft p limit) f with
  | (f, true) => (f, .ok ())
  | (f, false) => (f, .error (.passLimit f.passes))

/-- The summary of the facts.  The exits of a problem lie among its nodes. -/
def summary (p : Problem N) (kind : SummaryRule) (f : Facts) : Graph :=
  (kind.summarize? f.after p.exits (p.order.length - 1)).getD .empty

end Facts

end MayAlias.Analysis
