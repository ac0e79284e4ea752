import MayAlias.Json.Print
import MayAlias.Json.Value
import MayAlias.Statement

/-!
# Statements in JSON

A statement is an object whose member `kind` names its form and whose other members are the
operands, in any order; or it is an array of the kind and the operands in their order.

The kind is checked as soon as it is met.  The operands are checked after the closing bracket, so a
problem in the text of the statement comes before a missing or wrong operand.  Members that the
kind does not know are ignored.
-/

namespace MayAlias

open Json

/-- The form of a statement. -/
inductive StatementKind where
  | alloc
  | copy
  | load
  | store
  | other
deriving DecidableEq

namespace StatementKind

/-- The name of a kind. -/
def name : StatementKind → String
  | alloc => "alloc"
  | copy => "copy"
  | load => "load"
  | store => "store"
  | other => "other"

/-- The kind with a given name. -/
def ofName? (s : String) : Option StatementKind :=
  [alloc, copy, load, store, other].find? fun k => k.name == s

/-- The kind at the front of a text. -/
def read (cs : List Char) : Except Fault (StatementKind × List Char) := do
  let (s, rest) ← text cs
  match ofName? s with
  | some kind => .ok (kind, rest)
  | none => .error .mismatched

end StatementKind

namespace Statement

/-! ## Operands -/

/-- A string among the operands. -/
def textOf : Value → Except Fault String
  | .string s => .ok s
  | _ => .error .mismatched

/-- A string or `null` among the operands. -/
def optionalTextOf : Value → Except Fault (Option String)
  | .null => .ok none
  | .string s => .ok (some s)
  | _ => .error .mismatched

/-- The string under a key that has to occur exactly once. -/
def required (members : List (String × Value)) (key : String) : Except Fault String :=
  match members.filter (·.1 == key) with
  | [(_, v)] => textOf v
  | _ => .error .mismatched

/-- The string under a key that may occur once, or be `null`. -/
def allowed (members : List (String × Value)) (key : String) : Except Fault (Option String) :=
  match members.filter (·.1 == key) with
  | [] => .ok none
  | [(_, v)] => optionalTextOf v
  | _ => .error .mismatched

/-- The statement with the operands given by name. -/
def ofMembers (kind : StatementKind) (members : List (String × Value)) :
    Except Fault Statement := do
  match kind with
  | .alloc => .ok (alloc (← required members "lhs") (← allowed members "site"))
  | .copy => .ok (copy (← required members "lhs") (← required members "rhs"))
  | .load =>
    .ok (load (← required members "lhs") (← required members "base") (← required members "field"))
  | .store =>
    .ok (store (← required members "base") (← required members "field") (← required members "rhs"))
  | .other => .ok other

/-- The statement with the operands given by place. -/
def ofElements (kind : StatementKind) (operands : List Value) : Except Fault Statement := do
  match kind, operands with
  | .alloc, [lhs] => .ok (alloc (← textOf lhs) none)
  | .alloc, [lhs, site] => .ok (alloc (← textOf lhs) (← optionalTextOf site))
  | .copy, [lhs, rhs] => .ok (copy (← textOf lhs) (← textOf rhs))
  | .load, [lhs, base, field] => .ok (load (← textOf lhs) (← textOf base) (← textOf field))
  | .store, [base, field, rhs] => .ok (store (← textOf base) (← textOf field) (← textOf rhs))
  | .other, [] => .ok other
  | _, _ => .error .mismatched

/-! ## Reading -/

/-- The members of a statement object up to the closing brace: the kind and the rest.  The number
bounds the members that are read; above the length of the text it decides nothing. -/
def membersWithin (depth : Depth) :
    Nat → Bool → Option StatementKind → Reader (Option StatementKind × List (String × Value))
  | 0, _, _, _ => .error .truncated
  | n + 1, first, kind?, cs => do
    match ← nextMember first cs with
    | .stop rest => .ok ((kind?, []), rest)
    | .item rest =>
      let (key, rest) ← string .exact rest
      if key = "kind" then
        if kind?.isSome then .error .mismatched
        else
          let rest ← colon rest
          let (kind, rest) ← StatementKind.read rest
          membersWithin depth n false (some kind) rest
      else
        let rest ← colon rest
        let (v, rest) ← value depth rest
        let ((kind?, members), rest) ← membersWithin depth n false kind? rest
        .ok ((kind?, (key, v) :: members), rest)

/-- A statement written as an object, from behind the opening brace. -/
def readObject (depth : Depth) (cs : List Char) : Except Fault (Statement × List Char) := do
  let ((kind?, members), rest) ← membersWithin depth (cs.length + 1) true none cs
  match kind? with
  | none => .error .mismatched
  | some kind =>
    let s ← ofMembers kind members
    .ok (s, rest)

/-- A statement written as an array, from behind the opening bracket. -/
def readArray (depth : Depth) (cs : List Char) : Except Fault (Statement × List Char) := do
  match ← nextElement true cs with
  | .stop _ => .error .mismatched
  | .item rest =>
    let (kind, rest) ← StatementKind.read rest
    let (operands, rest) ← moreElements depth rest
    let s ← ofElements kind operands
    .ok (s, rest)

/-- A statement; `depth` limits the nesting of the values in it. -/
def read (depth : Nat) (cs : List Char) : Except Fault (Statement × List Char) :=
  match skipBlanks cs with
  | '\x7b' :: rest => do
    let depth ← descend (some depth)
    readObject depth rest
  | '[' :: rest => do
    let depth ← descend (some depth)
    readArray depth rest
  | cs => .error (wrongShape cs)

/-- The statement that a whole text describes. -/
def ofJson (s : String) : Except Fault Statement := whole (read fullDepth) s

/-! ## Writing -/

/-- The operands in order, with their keys. -/
def operands : Statement → List (String × List Char)
  | alloc lhs site => [("lhs", quote lhs), ("site", printOptional quote site)]
  | copy lhs rhs => [("lhs", quote lhs), ("rhs", quote rhs)]
  | load lhs base field => [("lhs", quote lhs), ("base", quote base), ("field", quote field)]
  | store base field rhs => [("base", quote base), ("field", quote field), ("rhs", quote rhs)]
  | other => []

/-- The kind of a statement. -/
def kind : Statement → StatementKind
  | alloc _ _ => .alloc
  | copy _ _ => .copy
  | load _ _ _ => .load
  | store _ _ _ => .store
  | other => .other

/-- The compact text of a statement: its kind and then its operands. -/
def print (s : Statement) : List Char :=
  printObject (("kind", quote s.kind.name) :: s.operands)

/-- The compact text of a statement. -/
def toJson (s : Statement) : String := String.ofList s.print

end Statement

end MayAlias
