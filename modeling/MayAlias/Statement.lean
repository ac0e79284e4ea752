/-!
# Statements

The pointer statements of a procedure: a control-flow node is classified by its effect on the
local variables and on the fields of objects.
-/

namespace MayAlias

/-- A statement, classified by its effect on pointers. -/
inductive Statement where
  /-- `lhs = new …`, at the site with the given label. -/
  | alloc (lhs : String) (site : Option String)
  /-- `lhs = rhs` -/
  | copy (lhs rhs : String)
  /-- `lhs = base.field` -/
  | load (lhs base field : String)
  /-- `base.field = rhs` -/
  | store (base field rhs : String)
  /-- Anything without an effect on pointers. -/
  | other
deriving DecidableEq

namespace Statement

/-- The local variable that the statement overwrites. -/
def definedVar? : Statement → Option String
  | alloc lhs _ => some lhs
  | copy lhs _ => some lhs
  | load lhs _ _ => some lhs
  | store _ _ _ => none
  | other => none

/-- The statement as source text; an allocation shows its site after `@`. -/
def render : Statement → String
  | alloc lhs (some site) => lhs ++ " = new @" ++ site
  | alloc lhs none => lhs ++ " = new @?"
  | copy lhs rhs => lhs ++ " = " ++ rhs
  | load lhs base field => lhs ++ " = " ++ base ++ "." ++ field
  | store base field rhs => base ++ "." ++ field ++ " = " ++ rhs
  | other => "nop"

end Statement

end MayAlias
