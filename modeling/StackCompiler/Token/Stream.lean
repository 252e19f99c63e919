import StackCompiler.Fault
import StackCompiler.Token.Basic

/-!
# Reading from a list of tokens

A reader takes tokens from the front of a list and leaves the rest. `Parsed` keeps, with the
value and the rest, the fact that the rest is short enough, so that readers which call each
other end.
-/

namespace StackCompiler

/-- A value that was read, and the tokens left, fewer than `bound`. -/
structure Parsed (α : Type) (bound : Nat) where
  value : α
  rest : List Token
  lt : rest.length < bound

namespace Parsed

theorem lt_cons (t : Token) (ts : List Token) : ts.length < (t :: ts).length :=
  Nat.lt_succ_self _

theorem lt_cons_of_lt {t : Token} {ts rest : List Token} (h : rest.length < ts.length) :
    rest.length < (t :: ts).length :=
  Nat.lt_succ_of_lt h

theorem lt_trans {ts rest rest' : List Token} (h : rest'.length < rest.length)
    (h' : rest.length < ts.length) : rest'.length < ts.length :=
  Nat.lt_trans h h'

/-- A reader that may take nothing leaves few enough after one that takes something. -/
theorem lt_of_kept {ts rest rest' : List Token} (h : rest'.length < rest.length + 1)
    (h' : rest.length < ts.length) : rest'.length < ts.length :=
  Nat.lt_of_le_of_lt (Nat.le_of_lt_succ h) h'

end Parsed

/-- Refuses the tokens for a fault of grammar. -/
def refuse {α : Type} (range : Range) (cause : GrammarFault) : Except Failure α :=
  .error (.refused ⟨range, .grammatical cause⟩)

/-- The first token, which stays. -/
def peek : List Token → Except Failure Token
  | [] => .error (.internal .endOfTokens)
  | t :: _ => .ok t

/-- The first token, which is taken. -/
def next : (ts : List Token) → Except Failure (Parsed Token ts.length)
  | [] => .error (.internal .endOfTokens)
  | t :: rest => .ok ⟨t, rest, Parsed.lt_cons t rest⟩

/-- The first token, which must be the symbol `s`. -/
def expect (s : Symbol) : (ts : List Token) → Except Failure (Parsed Token ts.length)
  | [] => .error (.internal .endOfTokens)
  | t :: rest =>
    if t.kind = .symbol s then .ok ⟨t, rest, Parsed.lt_cons t rest⟩
    else refuse t.range (.expectedSymbol s t.describe)

/-- The constant that a token stands for; a truth value is the integer one or zero. -/
def Token.literal? (t : Token) : Option Literal :=
  match t.kind with
  | .integer value => some (.integer value)
  | .float value => some (.float value)
  | .string value => some (.string value)
  | .char value => some (.char value)
  | .boolean value => some (.integer (if value then 1 else 0))
  | .null => some .null
  | .symbol _ | .identifier _ | .typeName _ | .mutable | .constant | .reserved _ | .eof => none

end StackCompiler
