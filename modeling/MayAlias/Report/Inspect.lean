import MayAlias.Graph

/-!
# Inspection texts

Texts that show a set or graph with bare object numbers, for looking at it without its sites.
-/

namespace MayAlias.Report

/-- Items in braces. -/
def braces (items : List String) : String := "\x7b" ++ String.intercalate ", " items ++ "\x7d"

/-- Items in brackets. -/
def brackets (items : List String) : String := "[" ++ String.intercalate ", " items ++ "]"

/-- A set of objects, in the set's own order. -/
def inspectSet (s : ObjectSet) : String := braces (s.toList.map ObjectId.inspect)

/-- A field edge. -/
def inspectEdge (e : Edge) : String :=
  "(" ++ e.src.inspect ++ ", " ++ e.field ++ ", " ++ e.dst.inspect ++ ")"

/-- A character of a quoted name; control characters of the ASCII range are escaped. -/
def inspectChar (c : Char) : List Char :=
  if c = '"' then ['\\', '"']
  else if c = '\\' then ['\\', '\\']
  else if c = '\n' then ['\\', 'n']
  else if c = '\r' then ['\\', 'r']
  else if c = '\t' then ['\\', 't']
  else if c = '\x00' then ['\\', '0']
  else if c.toNat < 0x20 ∨ c.toNat = 0x7F then
    ['\\', 'u', '\x7b'] ++ Nat.toDigits 16 c.toNat ++ ['\x7d']
  else [c]

/-- A variable with its pointees. -/
def inspectVar (var : String) (pts : ObjectSet) : String :=
  "(\"" ++ String.ofList (var.toList.flatMap inspectChar) ++ "\", " ++ inspectSet pts ++ ")"

/-- A graph: its edges and variables are sorted, its sets are not. -/
def inspectGraph (g : Graph) : String :=
  "PointsToGraph \x7b nodes: " ++ inspectSet g.objects
    ++ ", edges: " ++ brackets (g.sortedEdges.map inspectEdge)
    ++ ", mapping: " ++ brackets (g.sortedVars.map fun (var, pts) => inspectVar var pts)
    ++ " \x7d"

end MayAlias.Report
