import MayAlias.Decimal.Binary

/-!
# Scanning JSON text

The words of the format: blanks, the three names, strings and numbers.  Texts are read from the
left, one character at a time, and the first problem met is the one reported.

Two manners of reading differ in what they check.  `Manner.exact` decodes strings, so surrogate
escapes have to come in pairs, and refuses numbers beyond the range of binary fractions.
`Manner.skim` passes over a value nobody asked for and looks at its form alone.
-/

namespace MayAlias.Json

/-- Why a text cannot be read. -/
inductive Fault where
  /-- The text ends too early. -/
  | truncated
  /-- The text is not JSON. -/
  | malformed
  /-- The text is JSON so far, but not of the expected shape. -/
  | mismatched
deriving DecidableEq

/-- Reads a value off the front of a text and gives the rest. -/
abbrev Reader (α : Type) := List Char → Except Fault (α × List Char)

/-- How closely a value is looked at. -/
inductive Manner where
  | exact
  | skim
deriving DecidableEq

/-! ## Blanks and names -/

/-- The four blanks of the format. -/
def isBlank (c : Char) : Bool := c == ' ' || c == '\n' || c == '\t' || c == '\r'

/-- The text from its first character that is not blank. -/
def skipBlanks (cs : List Char) : List Char := cs.dropWhile isBlank

/-- Passes over the given characters. -/
def expect : List Char → List Char → Except Fault (List Char)
  | [], cs => .ok cs
  | _ :: _, [] => .error .truncated
  | e :: es, c :: cs => if c = e then expect es cs else .error .malformed

/-! ## Strings -/

/-- The value of a hexadecimal digit. -/
def hexDigit? (c : Char) : Option Nat :=
  if '0'.toNat ≤ c.toNat ∧ c.toNat ≤ '9'.toNat then some (c.toNat - '0'.toNat)
  else if 'a'.toNat ≤ c.toNat ∧ c.toNat ≤ 'f'.toNat then some (c.toNat - 'a'.toNat + 10)
  else if 'A'.toNat ≤ c.toNat ∧ c.toNat ≤ 'F'.toNat then some (c.toNat - 'A'.toNat + 10)
  else none

/-- What is wrong with a text that should start with four hexadecimal digits: it is cut short if it
has fewer than four bytes. -/
def hexFault (cs : List Char) : Fault :=
  if cs.foldr (fun c n => c.utf8Size + n) 0 < 4 then .truncated else .malformed

/-- The number written by four hexadecimal digits. -/
def hexQuad : Reader Nat
  | a :: b :: c :: d :: rest =>
    match hexDigit? a, hexDigit? b, hexDigit? c, hexDigit? d with
    | some a', some b', some c', some d' => .ok (((a' * 16 + b') * 16 + c') * 16 + d', rest)
    | _, _, _, _ => .error (hexFault (a :: b :: c :: d :: rest))
  | cs => .error (hexFault cs)

/-- The first half of a surrogate pair. -/
def isLeading (n : Nat) : Bool := 0xD800 ≤ n ∧ n ≤ 0xDBFF

/-- The second half of a surrogate pair. -/
def isTrailing (n : Nat) : Bool := 0xDC00 ≤ n ∧ n ≤ 0xDFFF

/-- The character of a surrogate pair. -/
def pairChar (lead trail : Nat) : Char :=
  Char.ofNat (0x10000 + (lead - 0xD800) * 0x400 + (trail - 0xDC00))

/-- The character of a pair, given its first half and the text behind it. -/
def pairedWith (lead : Nat) (cs : List Char) : Except Fault Char := do
  let cs ← expect ['\\', 'u'] cs
  let (trail, _) ← hexQuad cs
  if isTrailing trail then .ok (pairChar lead trail) else .error .malformed

/-- The character of an escape by number, from behind its `u`, and how many characters write it. -/
def numericEscape (manner : Manner) (cs : List Char) : Except Fault (Char × Nat) := do
  let (n, rest) ← hexQuad cs
  match manner with
  | .skim => .ok (Char.ofNat n, 4)
  | .exact =>
    if isTrailing n then .error .malformed
    else if isLeading n then
      let c ← pairedWith n rest
      .ok (c, 10)
    else .ok (Char.ofNat n, 4)

/-- The character that a one-letter escape stands for. -/
def letterEscape? (c : Char) : Option Char :=
  if c = '"' then some '"'
  else if c = '\\' then some '\\'
  else if c = '/' then some '/'
  else if c = 'b' then some '\x08'
  else if c = 'f' then some '\x0c'
  else if c = 'n' then some '\n'
  else if c = 'r' then some '\r'
  else if c = 't' then some '\t'
  else none

/-- The character of an escape, from behind its backslash, and how many characters write it. -/
def escape (manner : Manner) : List Char → Except Fault (Char × Nat)
  | [] => .error .truncated
  | c :: rest =>
    if c = 'u' then do
      let (e, k) ← numericEscape manner rest
      .ok (e, k + 1)
    else match letterEscape? c with
      | some e => .ok (e, 1)
      | none => .error .malformed

/-- Must the character be escaped in a string? -/
def isControl (c : Char) : Bool := c.toNat < 0x20

/-- The characters up to the closing quote.  The first argument tells how many characters at the
front belong to an escape that has been read already. -/
def stringBody (manner : Manner) : Nat → Reader (List Char)
  | _, [] => .error .truncated
  | k + 1, _ :: rest => stringBody manner k rest
  | 0, c :: rest =>
    if c = '"' then .ok ([], rest)
    else if c = '\\' then do
      let (e, k) ← escape manner rest
      let (es, rest) ← stringBody manner k rest
      .ok (e :: es, rest)
    else if isControl c then .error .malformed
    else do
      let (es, rest) ← stringBody manner 0 rest
      .ok (c :: es, rest)

/-- A string, from behind its opening quote. -/
def string (manner : Manner) (cs : List Char) : Except Fault (String × List Char) := do
  let (es, rest) ← stringBody manner 0 cs
  .ok (String.ofList es, rest)

/-! ## Numbers -/

/-- A decimal digit. -/
def isDigit (c : Char) : Bool := '0'.toNat ≤ c.toNat ∧ c.toNat ≤ '9'.toNat

/-- The value of a decimal digit. -/
def digitValue (c : Char) : Nat := c.toNat - '0'.toNat

/-- A number as it is written. -/
structure Numeral where
  negative : Bool
  /-- The digits before the point. -/
  whole : List Char
  /-- The digits behind the point; none when there is no point. -/
  fraction : List Char
  /-- Is the exponent negative, and its digits, if there is one. -/
  exponent : Option (Bool × List Char)
deriving DecidableEq

namespace Numeral

/-- The value of a list of digits. -/
def value (digits : List Char) : Nat := digits.foldl (fun n c => n * 10 + digitValue c) 0

/-- The largest 64-bit word. -/
def maxWord : Nat := 18446744073709551615

/-- The word that the numeral writes, if it is a plain one without sign, point and exponent. -/
def toWord? (n : Numeral) : Option UInt64 :=
  if n.negative = false ∧ n.fraction = [] ∧ n.exponent = none ∧ value n.whole ≤ maxWord then
    some (UInt64.ofNat (value n.whole))
  else none

/-- A significand of one word, with a decimal exponent. -/
structure Scaled where
  significand : Nat
  exponent : Int
  /-- Has a digit not fitted any more? -/
  full : Bool

/-- Takes up a digit before the point; those behind the first that does not fit count only as a
power of ten. -/
def Scaled.pushWhole (s : Scaled) (c : Char) : Scaled :=
  let next := s.significand * 10 + digitValue c
  if s.full = false ∧ next ≤ maxWord then { s with significand := next }
  else { s with exponent := s.exponent + 1, full := true }

/-- Takes up a digit behind the point; those behind the first that does not fit are dropped. -/
def Scaled.pushFraction (s : Scaled) (c : Char) : Scaled :=
  let next := s.significand * 10 + digitValue c
  if s.full = false ∧ next ≤ maxWord then
    { s with significand := next, exponent := s.exponent - 1 }
  else { s with full := true }

/-- The digits of the numeral, cut to the first that fit into a word. -/
def scaled (n : Numeral) : Scaled :=
  let s := n.whole.foldl Scaled.pushWhole ⟨0, 0, false⟩
  n.fraction.foldl Scaled.pushFraction { s with full := false }

/-- The largest power of ten below the bound of the binary range. -/
def maxExponent : Nat := 308

/-- The first number that rounds beyond the largest 53-bit binary fraction of exponent 971. -/
def rangeBound : Nat := Nat.pow 2 1024 - Nat.pow 2 970

/-- Does the number lie in the range of binary fractions with an eleven-bit exponent?  The
significand and the power of ten are rounded before they are multiplied. -/
def inRange (n : Numeral) : Bool :=
  let s := n.scaled
  let shift : Int := match n.exponent with
    | none => 0
    | some (true, digits) => -(value digits : Int)
    | some (false, digits) => value digits
  let e := s.exponent + shift
  if s.significand = 0 ∨ e < 0 then true
  else if maxExponent < e.toNat then false
  else
    Decimal.Binary.roundNat s.significand * Decimal.Binary.roundNat (Nat.pow 10 e.toNat)
      < rangeBound

end Numeral

/-- What is wrong where a digit is missing.  Skimming does not tell the end of the text apart. -/
def digitFault (manner : Manner) (cs : List Char) : Fault :=
  match manner, cs with
  | .exact, [] => .truncated
  | _, _ => .malformed

/-- One or more digits. -/
def digits (manner : Manner) (cs : List Char) : Except Fault (List Char × List Char) :=
  match cs.takeWhile isDigit with
  | [] => .error (digitFault manner cs)
  | ds => .ok (ds, cs.dropWhile isDigit)

/-- The digits before the point: a zero is not followed by another digit. -/
def wholePart (manner : Manner) (cs : List Char) : Except Fault (List Char × List Char) := do
  let (ds, rest) ← digits manner cs
  match ds with
  | '0' :: _ :: _ => .error .malformed
  | _ => .ok (ds, rest)

/-- The point and the digits behind it, if the text goes on with a point. -/
def fractionPart (manner : Manner) : Reader (List Char)
  | '.' :: rest => digits manner rest
  | cs => .ok ([], cs)

/-- The exponent, if the text goes on with one. -/
def exponentPart (manner : Manner) : Reader (Option (Bool × List Char))
  | [] => .ok (none, [])
  | c :: rest =>
    if c = 'e' ∨ c = 'E' then do
      let (negative, rest) := match rest with
        | '+' :: rest => (false, rest)
        | '-' :: rest => (true, rest)
        | rest => (false, rest)
      let (ds, rest) ← digits manner rest
      .ok (some (negative, ds), rest)
    else .ok (none, c :: rest)

/-- A number, from its sign or first digit on. -/
def numeral (manner : Manner) (cs : List Char) : Except Fault (Numeral × List Char) := do
  let (negative, cs) := match cs with
    | '-' :: rest => (true, rest)
    | cs => (false, cs)
  let (whole, cs) ← wholePart manner cs
  let (fraction, cs) ← fractionPart manner cs
  let (exponent, cs) ← exponentPart manner cs
  let n : Numeral := { negative, whole, fraction, exponent }
  if manner = .exact ∧ n.inRange = false then .error .malformed else .ok (n, cs)

end MayAlias.Json
