import MayAlias.Analysis.Result
import MayAlias.Decimal.Shortest

/-!
# Statistics

The size of the procedure, the number of passes, and the size of the summary.
-/

namespace MayAlias.Report

/-- The average as a binary fraction in its shortest decimal form; 0 of nothing. -/
def average (total number : Nat) : String :=
  if number = 0 then "0"
  else (Decimal.shortest (Decimal.Binary.ofRatio total number)).positional

/-- A line of one repeated character. -/
def rule (c : Char) : String := String.ofList (List.replicate 58 c) ++ "\n"

/-- A number with its name. -/
def countLine (name value : String) : String := "#" ++ name ++ ": " ++ value ++ "\n"

/-- The part on the fixpoint. -/
def fixpointStatistics {N : Type} (r : Analysis.Result N) : String :=
  "Fixpoint Statistics: \n"
    ++ countLine "CFG nodes" (toString r.order.length)
    ++ countLine "Passes" (toString r.passes)
    ++ countLine "Allocation sites" (toString r.sites.size)

/-- The part on the summary graph. -/
def pointsToStatistics (g : Graph) : String :=
  let pointers := g.vars.size
  let relations := g.vars.entries.foldr (fun (_, pts) n => pts.count + n) 0
  "Points-to Statistics: \n"
    ++ countLine "Abstract objects" (toString g.objects.count)
    ++ countLine "Field edges" (toString g.edges.length)
    ++ countLine "Pointers" (toString pointers)
    ++ countLine "Points-to relations" (toString relations)
    ++ countLine "Avg points-to size" (average relations pointers)

/-- The statistics of a result. -/
def statistics {N : Type} (r : Analysis.Result N) : String :=
  rule '#' ++ fixpointStatistics r ++ rule '-' ++ pointsToStatistics r.summary ++ rule '#'

end MayAlias.Report
