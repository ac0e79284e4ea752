import MayAlias.Alias.Query
import MayAlias.Summary

/-!
# Options of a run

What a run of the analysis can be told: how to summarize, when to give up, which queries to answer
and which reports to write.  An option is changed by a `Setting`; queries accumulate, everything
else is overwritten.
-/

namespace MayAlias

/-- The options of a run. -/
structure Options where
  summary : SummaryRule := .lastVisited
  /-- Give up after this many passes. -/
  maxPasses : Option Nat := none
  queries : List Query := []
  /-- Write the statistics. -/
  statistics : Bool := false
  /-- Where to write the points-to listing. -/
  pointsTo : Option String := none
  /-- Where to write the drawing of the summary. -/
  dot : Option String := none
  /-- Where to write the facts listing. -/
  facts : Option String := none
  /-- The procedure to analyse. -/
  procedure : Option String := none
deriving DecidableEq

/-- A change of one option. -/
inductive Setting where
  | summary (kind : SummaryRule)
  | maxPasses (limit : Nat)
  | query (q : Query)
  | statistics
  | pointsTo (path : String)
  | dot (path : String)
  | facts (path : String)
  | procedure (path : String)
deriving DecidableEq

/-- The options after a change. -/
def Options.set (o : Options) : Setting → Options
  | .summary kind => { o with summary := kind }
  | .maxPasses limit => { o with maxPasses := some limit }
  | .query q => { o with queries := o.queries ++ [q] }
  | .statistics => { o with statistics := true }
  | .pointsTo path => { o with pointsTo := some path }
  | .dot path => { o with dot := some path }
  | .facts path => { o with facts := some path }
  | .procedure path => { o with procedure := some path }

end MayAlias
