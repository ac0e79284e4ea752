import MayAlias.Alias.Query
import MayAlias.Graph

/-!
# Answers to alias queries

Two access paths may refer to one object when their pointees in a points-to graph have an object in
common.  An untracked variable points nowhere and aliases nothing.
-/

namespace MayAlias.Graph

/-- What `var.field` may refer to. -/
def fieldPointees (g : Graph) (var field : String) : ObjectSet :=
  match g.pointees? var with
  | some pts => g.followAll pts field
  | none => .empty

/-- May `a` and `b` point to one object? -/
def mayAlias (g : Graph) (a b : String) : Bool :=
  match g.pointees? a, g.pointees? b with
  | some pa, some pb => pa.intersects pb
  | _, _ => false

/-- May `a.field` refer to an object that `b` points to? -/
def mayAliasVia (g : Graph) (a field b : String) : Bool :=
  match g.pointees? b with
  | some pb => (g.fieldPointees a field).intersects pb
  | none => false

/-- The answer to a query. -/
def answer (g : Graph) : Query → Bool
  | .vars left right => g.mayAlias left right
  | .field left name right => g.mayAliasVia left name right

end MayAlias.Graph
