import StackCompiler.Fault
import StackCompiler.Number.Integer
import StackCompiler.Token.Basic

/-!
# From characters to tokens

`Piece.read` says what stands at the front of a text and how far it reaches: white space or a
comment, a token, or a fault. `scan` cuts a whole text into such pieces from left to right, keeps
the tokens with their places and stops at the first fault.
-/

namespace StackCompiler

/-- What stands at the front of a text. -/
inductive Piece where
  | gap
  | token (kind : TokenKind)
  | fault (cause : LexFault)
deriving DecidableEq, Inhabited

namespace Piece

/-- White space between tokens. -/
def isSpace (c : Char) : Bool :=
  c = ' ' || c = '\t' || c = '\x0b' || c = '\x0c' || c = '\r' || c = '\n'

/-- Digits and the separator between groups of them. -/
def isDigitOrSeparator (c : Char) : Bool :=
  c.isDigit || c = '_'

/-- Characters that a word can start with. -/
def startsWord (c : Char) : Bool :=
  c.isAlpha || c = '_'

/-- Characters that a word can go on with. -/
def continuesWord (c : Char) : Bool :=
  c.isAlphanum || c = '_'

/-- How many characters a block comment takes up to the end of its first closing mark. -/
def commentLength? : List Char → Option Nat
  | [] => none
  | c :: cs =>
    if c = '*' ∧ cs.head? = some '/' then some 2 else (commentLength? cs).map (· + 1)

/-- The characters up to the quote or the end of the line. -/
def quotedBody (quote : Char) (cs : List Char) : List Char :=
  cs.takeWhile fun c => c ≠ quote && c ≠ '\n'

/-- A string after its opening quote. -/
def readString (cs : List Char) : Piece × Nat :=
  let body := quotedBody '"' cs
  if (cs.drop body.length).head? = some '"' then
    (token (.string (String.ofList body)), body.length + 1)
  else (fault .unterminatedString, body.length)

/-- A character literal after its opening quote. -/
def readChar (cs : List Char) : Piece × Nat :=
  let body := quotedBody '\'' cs
  if (cs.drop body.length).head? = some '\'' then
    match body with
    | [c] => (token (.char c), 2)
    | [] => (fault .emptyChar, 1)
    | _ => (fault .overlongChar, body.length + 1)
  else (fault .unterminatedChar, body.length)

/-- A number after its first digit `c`. A point needs a digit after it, and a number has at most
one point. -/
def readNumber (c : Char) (cs : List Char) : Piece × Nat :=
  let whole := cs.takeWhile isDigitOrSeparator
  match cs.drop whole.length with
  | '.' :: after =>
    if (after.head?.map Char.isDigit).getD false then
      let fraction := after.takeWhile isDigitOrSeparator
      let length := whole.length + 1 + fraction.length
      if (after.drop fraction.length).head? = some '.' then (fault .secondPoint, length + 1)
      else (token (.float (Number.ofText (c :: whole) fraction)), length)
    else (fault .missingFraction, whole.length + 1)
  | _ =>
    let value := Number.ofDigits (c :: whole)
    if Number.FitsSigned 128 value then (token (.integer value), whole.length)
    else (fault .integerTooLarge, whole.length)

/-- A word after its first character `c`. -/
def readWord (c : Char) (cs : List Char) : Piece × Nat :=
  let more := cs.takeWhile continuesWord
  (token (.ofWord (String.ofList (c :: more))), more.length)

/-- A symbol whose first character is `c`. -/
def readSymbol (c : Char) (cs : List Char) : Piece × Nat :=
  match Symbol.atFront? (c :: cs) with
  | some s => (token (.symbol s), s.chars.length - 1)
  | none => (fault (.unknownCharacter c), 0)

/-- What the text `c :: cs` starts with, and how many characters of `cs` belong to it. -/
def read (c : Char) (cs : List Char) : Piece × Nat :=
  if isSpace c then (gap, 0)
  else if c = '/' ∧ cs.head? = some '/' then (gap, (cs.takeWhile (· ≠ '\n')).length)
  else if c = '/' ∧ cs.head? = some '*' then
    match commentLength? (cs.drop 1) with
    | some length => (gap, length + 1)
    | none => (fault .unterminatedComment, cs.length)
  else if c = '"' then readString cs
  else if c = '\'' then readChar cs
  else if c.isDigit then readNumber c cs
  else if startsWord c then readWord c cs
  else readSymbol c cs

end Piece

/-- The tokens of a text that starts at the place `here`, and after them the end of the text. -/
def scan (here : Cursor) : List Char → Except Complaint (List Token)
  | [] => .ok [⟨.eof, "", here.span []⟩]
  | c :: cs =>
    let piece := Piece.read c cs
    let text := c :: cs.take piece.2
    match piece.1 with
    | .gap => scan (here.advance text) (cs.drop piece.2)
    | .token kind => do
      let tokens ← scan (here.advance text) (cs.drop piece.2)
      return ⟨kind, String.ofList text, here.span text⟩ :: tokens
    | .fault cause => .error ⟨here.span text, .lexical cause⟩
termination_by text => text.length
decreasing_by all_goals simp only [List.length_drop, List.length_cons]; omega

/-- The tokens of a source text. -/
def tokenize (source : String) : Except Complaint (List Token) :=
  scan .origin source.toList

end StackCompiler
