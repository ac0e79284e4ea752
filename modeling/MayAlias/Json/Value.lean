import MayAlias.Json.Scan

/-!
# JSON values

Reading a whole value, of whatever shape.  `Depth` limits how deeply arrays and objects may be
nested in values that are kept; a value that is only skimmed may be nested at will.
-/

namespace MayAlias.Json

/-- A JSON value; the members of an object in the order of the text. -/
inductive Value where
  | null
  | bool (b : Bool)
  | number (n : Numeral)
  | string (s : String)
  | array (elements : List Value)
  | object (members : List (String × Value))

/-! ## Punctuation -/

/-- What comes next in an array or object. -/
inductive Next where
  /-- The closing bracket, with the text behind it. -/
  | stop (rest : List Char)
  /-- An element, or a member's key from behind its quote. -/
  | item (rest : List Char)

/-- The next element of an array: the closing bracket, or, except at the first, a comma before the
element. -/
def nextElement (first : Bool) (cs : List Char) : Except Fault Next :=
  match skipBlanks cs with
  | [] => .error .truncated
  | c :: rest =>
    if c = ']' then .ok (.stop rest)
    else if first then .ok (.item (c :: rest))
    else if c = ',' then
      match skipBlanks rest with
      | [] => .error .truncated
      | d :: rest => if d = ']' then .error .malformed else .ok (.item (d :: rest))
    else .error .malformed

/-- A key has to start with a quote. -/
def openKey : List Char → Except Fault Next
  | [] => .error .truncated
  | c :: rest => if c = '"' then .ok (.item rest) else .error .malformed

/-- The next member of an object: the closing brace, or, except at the first, a comma before the
key. -/
def nextMember (first : Bool) (cs : List Char) : Except Fault Next :=
  match skipBlanks cs with
  | [] => .error .truncated
  | c :: rest =>
    if c = '\x7d' then .ok (.stop rest)
    else if first then openKey (c :: rest)
    else if c = ',' then openKey (skipBlanks rest)
    else .error .malformed

/-- The colon between a key and its value. -/
def colon (cs : List Char) : Except Fault (List Char) :=
  match skipBlanks cs with
  | [] => .error .truncated
  | c :: rest => if c = ':' then .ok rest else .error .malformed

/-- The bracket that closes an array of fixed length. -/
def closeArray (cs : List Char) : Except Fault (List Char) :=
  match skipBlanks cs with
  | [] => .error .truncated
  | c :: rest => if c = ']' then .ok rest else .error .malformed

/-! ## Values -/

/-- How many arrays and objects may still be opened inside one another, counting the next; without
a number there is no limit. -/
abbrev Depth := Option Nat

/-- The depth of a whole text that is kept. -/
def fullDepth : Nat := 128

/-- Opens an array or object. -/
def descend : Depth → Except Fault Depth
  | none => .ok none
  | some d => if d ≤ 1 then .error .malformed else .ok (some (d - 1))

/-- Values with a limited depth are read exactly, the others are skimmed. -/
def mannerOf : Depth → Manner
  | some _ => .exact
  | none => .skim

mutual

/-- A value of any shape.  The first argument bounds how deeply the three functions call one
another.  Opening a bracket takes a call and so does the first element, so two calls for each
character of the text are enough, and the bound decides nothing. -/
def valueWithin : Nat → Depth → Reader Value
  | 0, _, _ => .error .truncated
  | n + 1, depth, cs =>
    match skipBlanks cs with
    | [] => .error .truncated
    | c :: rest =>
      if c = 'n' then do
        let rest ← expect "ull".toList rest
        .ok (.null, rest)
      else if c = 't' then do
        let rest ← expect "rue".toList rest
        .ok (.bool true, rest)
      else if c = 'f' then do
        let rest ← expect "alse".toList rest
        .ok (.bool false, rest)
      else if c = '-' ∨ isDigit c then do
        let (m, rest) ← numeral (mannerOf depth) (c :: rest)
        .ok (.number m, rest)
      else if c = '"' then do
        let (s, rest) ← string (mannerOf depth) rest
        .ok (.string s, rest)
      else if c = '[' then do
        let depth ← descend depth
        let (vs, rest) ← elementsWithin n depth true rest
        .ok (.array vs, rest)
      else if c = '\x7b' then do
        let depth ← descend depth
        let (ms, rest) ← membersWithin n depth true rest
        .ok (.object ms, rest)
      else .error .malformed

/-- The elements of an array up to its closing bracket. -/
def elementsWithin : Nat → Depth → Bool → Reader (List Value)
  | 0, _, _, _ => .error .truncated
  | n + 1, depth, first, cs => do
    match ← nextElement first cs with
    | .stop rest => .ok ([], rest)
    | .item rest =>
      let (v, rest) ← valueWithin n depth rest
      let (vs, rest) ← elementsWithin n depth false rest
      .ok (v :: vs, rest)

/-- The members of an object up to its closing brace. -/
def membersWithin : Nat → Depth → Bool → Reader (List (String × Value))
  | 0, _, _, _ => .error .truncated
  | n + 1, depth, first, cs => do
    match ← nextMember first cs with
    | .stop rest => .ok ([], rest)
    | .item rest =>
      let (key, rest) ← string (mannerOf depth) rest
      let rest ← colon rest
      let (v, rest) ← valueWithin n depth rest
      let (ms, rest) ← membersWithin n depth false rest
      .ok ((key, v) :: ms, rest)

end

/-- A value of any shape. -/
def value (depth : Depth) (cs : List Char) : Except Fault (Value × List Char) :=
  valueWithin (2 * cs.length + 1) depth cs

/-- The remaining elements of an array whose first element has been read. -/
def moreElements (depth : Depth) (cs : List Char) : Except Fault (List Value × List Char) :=
  elementsWithin (2 * cs.length + 2) depth false cs

/-! ## Expected shapes -/

/-- What is wrong with a text that starts a value of another shape than expected.  A name, number
or string is read first, and a problem in it comes first. -/
def wrongShape : List Char → Fault
  | [] => .truncated
  | c :: rest =>
    let after {α : Type} : Except Fault α → Fault
      | .ok _ => .mismatched
      | .error f => f
    if c = 'n' then after (expect "ull".toList rest)
    else if c = 't' then after (expect "rue".toList rest)
    else if c = 'f' then after (expect "alse".toList rest)
    else if c = '-' ∨ isDigit c then after (numeral .exact (c :: rest))
    else if c = '"' then after (string .exact rest)
    else if c = '[' ∨ c = '\x7b' then .mismatched
    else .malformed

/-- A string. -/
def text (cs : List Char) : Except Fault (String × List Char) :=
  match skipBlanks cs with
  | '"' :: rest => string .exact rest
  | cs => .error (wrongShape cs)

/-- A 64-bit word. -/
def word (cs : List Char) : Except Fault (UInt64 × List Char) :=
  match skipBlanks cs with
  | [] => .error .truncated
  | c :: rest =>
    if c = '-' ∨ isDigit c then do
      let (n, rest) ← numeral .exact (c :: rest)
      match n.toWord? with
      | some w => .ok (w, rest)
      | none => .error .mismatched
    else .error (wrongShape (c :: rest))

/-- A value that may be `null`. -/
def optional {α : Type} (item : Reader α) (cs : List Char) :
    Except Fault (Option α × List Char) :=
  match skipBlanks cs with
  | 'n' :: rest => do
    let rest ← expect "ull".toList rest
    .ok (none, rest)
  | cs => do
    let (a, rest) ← item cs
    .ok (some a, rest)

/-- Elements of one shape up to the closing bracket.  The number bounds the elements that are read.
Each takes a character, so any number above the length of the text decides nothing. -/
def itemsWithin {α : Type} (item : Reader α) : Nat → Bool → Reader (List α)
  | 0, _, _ => .error .truncated
  | n + 1, first, cs => do
    match ← nextElement first cs with
    | .stop rest => .ok ([], rest)
    | .item rest =>
      let (a, rest) ← item rest
      let (as, rest) ← itemsWithin item n false rest
      .ok (a :: as, rest)

/-- An array whose elements have one shape. -/
def array {α : Type} (item : Reader α) (cs : List Char) : Except Fault (List α × List Char) :=
  match skipBlanks cs with
  | '[' :: rest => itemsWithin item (rest.length + 1) true rest
  | cs => .error (wrongShape cs)

/-- An array of two words. -/
def wordPair (cs : List Char) : Except Fault ((UInt64 × UInt64) × List Char) :=
  match skipBlanks cs with
  | '[' :: rest => do
    match ← nextElement true rest with
    | .stop _ => .error .mismatched
    | .item rest =>
      let (a, rest) ← word rest
      match ← nextElement false rest with
      | .stop _ => .error .mismatched
      | .item rest =>
        let (b, rest) ← word rest
        let rest ← closeArray rest
        .ok ((a, b), rest)
  | cs => .error (wrongShape cs)

/-- Reads a whole text: only blanks may follow the value. -/
def whole {α : Type} (item : Reader α) (text : String) : Except Fault α := do
  let (a, rest) ← item text.toList
  match skipBlanks rest with
  | [] => .ok a
  | _ :: _ => .error .malformed

/-- A text that is an array of strings. -/
def texts (s : String) : Except Fault (List String) := whole (array text) s

end MayAlias.Json
