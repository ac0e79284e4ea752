import MayAlias.Text.Blank

/-!
# Alias queries

A query asks whether two access paths may refer to one object.  It is written `a~b` for two
variables and `a.f~b` for a field of the object of a variable and another variable.
-/

namespace MayAlias

/-- A question about two access paths. -/
inductive Query where
  /-- May `left` and `right` point to one object? -/
  | vars (left right : String)
  /-- May `left.field` refer to an object of `right`? -/
  | field (left field right : String)
deriving DecidableEq

/-- Why a text is not a query. -/
inductive QueryError where
  | missingSeparator (text : String)
  | emptyOperand (text : String)
deriving DecidableEq

/-- The text of an error. -/
def QueryError.message : QueryError → String
  | missingSeparator text => "alias query `" ++ text ++ "` has no `~` separator"
  | emptyOperand text => "alias query `" ++ text ++ "` has an empty operand"

namespace Query

/-- The text before and behind the first occurrence of a character. -/
def splitOnce (sep : Char) : List Char → Option (List Char × List Char)
  | [] => none
  | c :: rest =>
    if c = sep then some ([], rest)
    else (splitOnce sep rest).map fun (before, behind) => (c :: before, behind)

/-- The query of two sides that have been trimmed. -/
def ofSides (left right : List Char) : Option Query :=
  if right.isEmpty || right.contains '~' then none
  else match splitOnce '.' left with
    | some (base, name) =>
      if base.isEmpty || name.isEmpty then none
      else some (field (String.ofList base) (String.ofList name) (String.ofList right))
    | none =>
      if left.isEmpty then none
      else some (vars (String.ofList left) (String.ofList right))

/-- Reads a query.  Blanks around the two sides do not count. -/
def parse (text : String) : Except QueryError Query :=
  match splitOnce '~' text.toList with
  | none => .error (.missingSeparator text)
  | some (left, right) =>
    match ofSides (Text.trim left) (Text.trim right) with
    | none => .error (.emptyOperand text)
    | some q => .ok q

/-- The text of a query. -/
def render : Query → String
  | vars left right => left ++ "~" ++ right
  | field left name right => left ++ "." ++ name ++ "~" ++ right

end Query

end MayAlias
