import MayAlias.Graph
import MayAlias.Statement

/-!
# Effects of statements on points-to graphs

An assignment to a local variable replaces what the variable points to.  A store only adds edges,
because its base may stand for several objects at once.  Both rules are monotone.
-/

namespace MayAlias

/-- A statement whose allocation site is resolved to an abstract object. -/
inductive Effect where
  | alloc (lhs : String) (object : ObjectId)
  | copy (lhs rhs : String)
  | load (lhs base field : String)
  | store (base field rhs : String)
  | nothing
deriving DecidableEq

namespace Effect

/-- The effect of a statement, with its site added to the table.  An allocation without a site has
none. -/
def ofStatement? (sites : SiteTable) : Statement → Option (Effect × SiteTable)
  | .alloc _ none => none
  | .alloc lhs (some site) =>
    let (object, sites) := sites.intern site
    some (alloc lhs object, sites)
  | .copy lhs rhs => some (copy lhs rhs, sites)
  | .load lhs base field => some (load lhs base field, sites)
  | .store base field rhs => some (store base field rhs, sites)
  | .other => some (nothing, sites)

/-- The edges that a store adds: every source with every target. -/
def storeEdges (srcs : List ObjectId) (field : String) (dsts : List ObjectId) : List Edge :=
  srcs.flatMap fun src => dsts.map fun dst => ⟨src, field, dst⟩

/-- The graph after the statement.  An untracked operand counts as pointing nowhere. -/
def apply (e : Effect) (g : Graph) : Graph :=
  match e with
  | alloc lhs object => g.assign lhs (.ofList [object])
  | copy lhs rhs => g.assign lhs (g.pointees rhs)
  | load lhs base field => g.assign lhs (g.followAll (g.pointees base) field)
  | store base field rhs =>
    match g.pointees? base, g.pointees? rhs with
    | some srcs, some dsts =>
      (storeEdges srcs.toList field dsts.toList).foldl (fun g e => (g.insertEdge e).1) g
    | _, _ => g
  | nothing => g

end Effect

end MayAlias
