import MayAlias.Analysis.Facts

/-!
# Results

The facts of an analysed procedure together with their summary.
-/

namespace MayAlias.Analysis

/-- What the analysis of a procedure found. -/
structure Result (N : Type) where
  /-- The nodes in program order; the facts are parallel to them. -/
  order : List N
  before : Array Graph
  after : Array Graph
  /-- The graph against which questions about the whole procedure are answered. -/
  summary : Graph
  sites : SiteTable
  /-- The number of passes, including the last, which changed nothing. -/
  passes : Nat

variable {N : Type}

/-- The fact after a node; nothing has one but the nodes. -/
def Result.factAfter? [DecidableEq N] (r : Result N) (n : N) : Option Graph :=
  (position? r.order n).bind fun pos => r.after[pos]?

/-- The result with the facts reached. -/
def Result.ofFacts (p : Problem N) (kind : SummaryRule) (f : Facts) : Result N where
  order := p.order
  before := f.before
  after := f.after
  summary := f.summary p kind
  sites := p.sites
  passes := f.passes

/-- Analyses a procedure, giving up when no fixpoint is reached within the limit. -/
def run [DecidableEq N] (g : Flow N) (kind : SummaryRule) (limit : Option Nat) :
    Except (Failure N) (Result N) := do
  let p ← Problem.ofFlow g
  match (Facts.initial p).solve p limit with
  | (f, .ok ()) => .ok (Result.ofFacts p kind f)
  | (_, .error e) => .error e

end MayAlias.Analysis
