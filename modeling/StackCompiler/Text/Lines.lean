/-!
# Lines of a text

A line ends at a line feed or at the end of the text. A carriage return before the line feed
belongs to the line's end; after the last line feed there is a line only if text follows.
-/

namespace StackCompiler.Text

/-- A line as it is read from its last character back, without a carriage return at its end. -/
def closeLine : List Char → List Char
  | '\r' :: backwards => backwards.reverse
  | backwards => backwards.reverse

/-- The lines of `text` when `backwards` has been read of the first one. -/
def linesFrom (backwards : List Char) : List Char → List (List Char)
  | [] => if backwards.isEmpty then [] else [backwards.reverse]
  | c :: text =>
    if c = '\n' then closeLine backwards :: linesFrom [] text
    else linesFrom (c :: backwards) text

/-- The lines of a text. -/
def lines (text : List Char) : List (List Char) :=
  linesFrom [] text

end StackCompiler.Text
