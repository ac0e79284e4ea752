/-!
# The order of names

Names are compared character by character, by code point; a proper beginning comes first.
-/

namespace MayAlias.Text

/-- Lexicographic comparison of character lists by code point. -/
def compareChars : List Char → List Char → Ordering
  | [], [] => .eq
  | [], _ :: _ => .lt
  | _ :: _, [] => .gt
  | a :: as, b :: bs =>
    if a.toNat < b.toNat then .lt
    else if b.toNat < a.toNat then .gt
    else compareChars as bs

/-- Comparison of names. -/
def compareNames (s t : String) : Ordering := compareChars s.toList t.toList

end MayAlias.Text
