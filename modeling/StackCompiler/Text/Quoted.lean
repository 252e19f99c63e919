import StackCompiler.Text.Extending
import StackCompiler.Text.Hex
import StackCompiler.Text.Printable

/-!
# Quoted text

How a string or a character is shown between quotes, so that it can be told apart from any
other one: the quote, the backslash and four control characters have short escapes, and what
would not be visible on its own is written as its code point.
-/

namespace StackCompiler.Text

/-- A character inside text that the character `quote` encloses. -/
def escapeChar (quote c : Char) : List Char :=
  if c = '\x00' then ['\\', '0']
  else if c = '\t' then ['\\', 't']
  else if c = '\r' then ['\\', 'r']
  else if c = '\n' then ['\\', 'n']
  else if c = '\\' ∨ c = quote then ['\\', c]
  else if isExtending c || !isPrintable c then
    ['\\', 'u', '\x7b'] ++ hexDigits c.toNat ++ ['\x7d']
  else [c]

/-- The characters between two quotes of the kind `quote`. -/
def enclose (quote : Char) (text : List Char) : String :=
  String.ofList (quote :: text.flatMap (escapeChar quote) ++ [quote])

/-- A string in double quotes. -/
def quoteString (s : String) : String :=
  enclose '"' s.toList

/-- A character in single quotes. -/
def quoteChar (c : Char) : String :=
  enclose '\'' [c]

end StackCompiler.Text
