import MayAlias.Procedure
import MayAlias.Statement.Json

/-!
# Procedure descriptions in JSON

A description is an object with the members `name`, `entry`, `statements` and `edges` in any order,
of which only `statements` is required; or an array of these four, of which the last may be left
off.  Other members of the object are skimmed.
-/

namespace MayAlias.Procedure

open Json

/-- The nesting left for a statement, inside the description and its list of statements. -/
def statementDepth : Nat := fullDepth - 2

/-- The members of a description that have been met. -/
structure Draft where
  name : Option (Option String) := none
  entry : Option (Option UInt64) := none
  statements : Option (List Statement) := none
  edges : Option (Option (List (UInt64 × UInt64))) := none

/-- The description, if nothing required is missing. -/
def Draft.finish (d : Draft) : Except Fault Procedure :=
  match d.statements with
  | none => .error .mismatched
  | some statements => .ok ⟨d.name.join, d.entry.join, statements, d.edges.join⟩

/-- The value of a member that may be given once. -/
def once {α : Type} (seen : Option α) (item : Reader α) (cs : List Char) :
    Except Fault (α × List Char) := do
  if seen.isSome then .error .mismatched
  else
    let rest ← colon cs
    item rest

/-- The list of statements. -/
def readStatements (cs : List Char) : Except Fault (List Statement × List Char) :=
  array (Statement.read statementDepth) cs

/-- The list of edges, or `null`. -/
def readEdges (cs : List Char) :
    Except Fault (Option (List (UInt64 × UInt64)) × List Char) :=
  optional (array wordPair) cs

/-- Takes up the member whose key has been read. -/
def Draft.read (d : Draft) (key : String) (cs : List Char) : Except Fault (Draft × List Char) := do
  if key = "name" then
    let (name, rest) ← once d.name (optional text) cs
    .ok ({ d with name := some name }, rest)
  else if key = "entry" then
    let (entry, rest) ← once d.entry (optional word) cs
    .ok ({ d with entry := some entry }, rest)
  else if key = "statements" then
    let (statements, rest) ← once d.statements readStatements cs
    .ok ({ d with statements := some statements }, rest)
  else if key = "edges" then
    let (edges, rest) ← once d.edges readEdges cs
    .ok ({ d with edges := some edges }, rest)
  else
    let rest ← colon cs
    let (_, rest) ← value none rest
    .ok (d, rest)

/-- The members up to the closing brace.  The number bounds the members that are read; above the
length of the text it decides nothing. -/
def draftWithin : Nat → Bool → Draft → Reader Draft
  | 0, _, _, _ => .error .truncated
  | n + 1, first, d, cs => do
    match ← nextMember first cs with
    | .stop rest => .ok (d, rest)
    | .item rest =>
      let (key, rest) ← string .exact rest
      let (d, rest) ← d.read key rest
      draftWithin n false d rest

/-- A description written as an object, from behind the opening brace. -/
def readObject (cs : List Char) : Except Fault (Procedure × List Char) := do
  let (d, rest) ← draftWithin (cs.length + 1) true {} cs
  let p ← d.finish
  .ok (p, rest)

/-- A description written as an array, from behind the opening bracket. -/
def readArray (cs : List Char) : Except Fault (Procedure × List Char) := do
  match ← nextElement true cs with
  | .stop _ => .error .mismatched
  | .item rest =>
    let (name, rest) ← optional text rest
    match ← nextElement false rest with
    | .stop _ => .error .mismatched
    | .item rest =>
      let (entry, rest) ← optional word rest
      match ← nextElement false rest with
      | .stop _ => .error .mismatched
      | .item rest =>
        let (statements, rest) ← readStatements rest
        match ← nextElement false rest with
        | .stop rest => .ok (⟨name, entry, statements, none⟩, rest)
        | .item rest =>
          let (edges, rest) ← readEdges rest
          let rest ← closeArray rest
          .ok (⟨name, entry, statements, edges⟩, rest)

/-- A description. -/
def read (cs : List Char) : Except Fault (Procedure × List Char) :=
  match skipBlanks cs with
  | '\x7b' :: rest => readObject rest
  | '[' :: rest => readArray rest
  | cs => .error (wrongShape cs)

/-- The procedure that a whole text describes. -/
def ofJson (s : String) : Except Fault Procedure := whole read s

/-! ## Writing -/

/-- A control-flow edge as an array. -/
def printEdge (e : UInt64 × UInt64) : List Char :=
  '[' :: printWord e.1 ++ ',' :: printWord e.2 ++ [']']

/-- The compact text of a description; absent members are `null`. -/
def print (p : Procedure) : List Char :=
  printObject
    [("name", printOptional quote p.name),
      ("entry", printOptional printWord p.entry),
      ("statements", printArray Statement.print p.statements),
      ("edges", printOptional (printArray printEdge) p.edges)]

/-- The compact text of a description. -/
def toJson (p : Procedure) : String := String.ofList p.print

end MayAlias.Procedure
