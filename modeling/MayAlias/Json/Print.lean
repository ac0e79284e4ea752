/-!
# Writing JSON

Compact text: no blanks, and a string escapes the quote, the backslash and the control characters
only.
-/

namespace MayAlias.Json

/-- A hexadecimal digit in lower case. -/
def hexChar (n : Nat) : Char :=
  if n < 10 then Char.ofNat ('0'.toNat + n) else Char.ofNat ('a'.toNat + (n - 10))

/-- A character as it stands in a string. -/
def quoteChar (c : Char) : List Char :=
  if c = '"' then ['\\', '"']
  else if c = '\\' then ['\\', '\\']
  else if c = '\x08' then ['\\', 'b']
  else if c = '\x0c' then ['\\', 'f']
  else if c = '\n' then ['\\', 'n']
  else if c = '\r' then ['\\', 'r']
  else if c = '\t' then ['\\', 't']
  else if c.toNat < 0x20 then
    ['\\', 'u', '0', '0', hexChar (c.toNat / 16), hexChar (c.toNat % 16)]
  else [c]

/-- A string with its quotes. -/
def quote (s : String) : List Char := '"' :: s.toList.flatMap quoteChar ++ ['"']

/-- A word in decimal digits. -/
def printWord (w : UInt64) : List Char := Nat.toDigits 10 w.toNat

/-- An absent value is `null`. -/
def printOptional {α : Type} (print : α → List Char) : Option α → List Char
  | none => "null".toList
  | some a => print a

/-- Items with commas between them. -/
def commaSep : List (List Char) → List Char
  | [] => []
  | [item] => item
  | item :: rest => item ++ ',' :: commaSep rest

/-- An array. -/
def printArray {α : Type} (print : α → List Char) (items : List α) : List Char :=
  '[' :: commaSep (items.map print) ++ [']']

/-- An object from its keys and printed values. -/
def printObject (members : List (String × List Char)) : List Char :=
  '\x7b' :: commaSep (members.map fun (key, value) => quote key ++ ':' :: value) ++ ['\x7d']

end MayAlias.Json
