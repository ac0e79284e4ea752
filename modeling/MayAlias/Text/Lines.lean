/-!
# Lines

A text is cut behind every line feed.  A line is shown without its line feed, and without one
carriage return before it.
-/

namespace MayAlias.Text

/-- Takes off one carriage return at the end. -/
def dropReturn (line : List Char) : List Char :=
  match line.reverse with
  | '\r' :: rest => rest.reverse
  | _ => line

/-- The lines of a text; the characters of the current line are given in reverse. -/
def linesFrom (current : List Char) : List Char → List (List Char)
  | [] => if current.isEmpty then [] else [current.reverse]
  | c :: rest =>
    if c = '\n' then dropReturn current.reverse :: linesFrom [] rest
    else linesFrom (c :: current) rest

/-- The lines of a text.  What stands behind the last line feed is a line unless it is empty. -/
def lines (text : List Char) : List (List Char) := linesFrom [] text

end MayAlias.Text
