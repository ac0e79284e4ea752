import MayAlias.Graph

/-!
# Points-to listing

One line for each tracked variable, by name, with the number of its pointees and their sites.
-/

namespace MayAlias.Report

/-- The line of a variable: `x (2) ==> { (7) (8) }`. -/
def variableLine (sites : SiteTable) (var : String) (pts : ObjectSet) : String :=
  let pointees := Graph.sortedObjects pts
  var ++ " (" ++ toString pointees.length ++ ") ==> \x7b "
    ++ String.join (pointees.map fun o => sites.render o ++ " ") ++ "\x7d\n"

/-- The listing of a graph. -/
def pointsTo (sites : SiteTable) (g : Graph) : String :=
  String.join (g.sortedVars.map fun (var, pts) => variableLine sites var pts)

end MayAlias.Report
