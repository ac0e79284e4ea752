import MayAlias.Statement

/-!
# Procedure descriptions

A procedure as a front end writes it down: statements, and the control flow between them by their
numbers.
-/

namespace MayAlias

/-- A procedure body.  The numbers of the statements double as control-flow nodes. -/
structure Procedure where
  name : Option String
  /-- The statement at which the procedure starts, the first one when absent. -/
  entry : Option UInt64
  statements : List Statement
  /-- The control-flow edges.  Without them every statement falls through to the next. -/
  edges : Option (List (UInt64 × UInt64))
deriving DecidableEq

end MayAlias
