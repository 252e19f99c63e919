import StackCompiler.Code.Opcode
import StackCompiler.Text.Hex
import StackCompiler.Token.Symbol

/-!
# Why a unit is not compiled

A `Fault` is a mistake in the source text, by the stage of compilation that finds it, and a
`Complaint` a fault at its place. A `Defect` is a broken promise between two stages, which no
source text is to blame for. `Failure` collects all reasons for which a unit yields no code.
-/

namespace StackCompiler

/-- Characters that form no token. -/
inductive LexFault where
  | unterminatedComment
  | unknownCharacter (c : Char)
  | secondPoint
  | missingFraction
  | integerTooLarge
  | unterminatedString
  | unterminatedChar
  | overlongChar
  | emptyChar
deriving DecidableEq, Repr

/-- Tokens that form no statement. -/
inductive GrammarFault where
  | expectedExpression (found : String)
  | expectedSymbol (symbol : Symbol) (found : String)
  | expectedIdentifier (found : String)
  | expectedType (found : String)
  | emptyParentheses
  | invalidUpdateTarget (op : UpdateOp)
  | invalidAssignmentTarget (op : AssignOp)
  | missingInitializer (names : List String)
  | unsupported (word : String)
deriving DecidableEq, Repr

/-- Names that stand for nothing, or for two things. -/
inductive NameFault where
  | undeclared (name : String)
  | alreadyDeclared (name : String)
deriving DecidableEq, Repr

/-- Values used where their type does not allow it. -/
inductive TypeFault where
  | mismatch (expected found : Ty)
  | immutableAssignment (name : String)
  | uninitialized (name : String)
  | uninitializedUpdate (op : UpdateOp) (name : String)
  | invalidUpdate (op : UpdateOp) (found : Ty)
  | invalidUnary (op : UnaryOp) (found : Ty)
  | invalidBinary (op : BinaryOp) (left right : Ty)
  | notIndexable (found : Ty)
  | invalidIndex (found : Ty)
  | invalidLength (found : Ty)
deriving DecidableEq

/-- Mistakes in a source text. -/
inductive Fault where
  | lexical (cause : LexFault)
  | grammatical (cause : GrammarFault)
  | name (cause : NameFault)
  | type (cause : TypeFault)
deriving DecidableEq

/-- A mistake at its place. -/
structure Complaint where
  range : Range
  fault : Fault
deriving DecidableEq

/-- An integer constant that no 64-bit type holds, at its place. -/
structure Warning where
  range : Range
  value : Int
deriving DecidableEq, Repr

/-- Broken promises between stages. -/
inductive Defect where
  | endOfTokens
  | missingSlot (id : Ident)
  | outOfSlots
  | poolFull
  | arrayTooLong
  | notAJump (op : Opcode)
  | noInstruction (site : Nat)
  | jumpExpected (site : Nat) (found : Opcode)
  | jumpTooFar
deriving DecidableEq, Repr

/-- Reasons for which a unit yields no code. -/
inductive Failure where
  | refused (complaint : Complaint)
  | internal (defect : Defect)
  | tooManyWarnings (count limit : Nat)
deriving DecidableEq

namespace LexFault

/-- The fault in words. -/
def message : LexFault → String
  | unterminatedComment => "Unterminated block comment"
  | unknownCharacter c => s!"Unknown character '{c}' (U+{Text.upperHex 4 c.toNat})"
  | secondPoint => "Multiple decimal points in a number literal"
  | missingFraction => "Expected a digit after the decimal point"
  | integerTooLarge => "Integer literal is too large to represent"
  | unterminatedString => "Unterminated string literal"
  | unterminatedChar => "Unterminated char literal"
  | overlongChar => "Char literal holds more than one character"
  | emptyChar => "Empty char literal"

/-- What would mend the fault. -/
def hint? : LexFault → Option String
  | overlongChar => some "use double quotes for a string literal"
  | missingFraction => some "write a digit after the decimal point, e.g. `1.0`"
  | unterminatedString => some "close the string with `\"` before the end of the line"
  | unterminatedChar => some "close the char with `'` before the end of the line"
  | unterminatedComment => some "close the comment with `*/`"
  | unknownCharacter _ | secondPoint | integerTooLarge | emptyChar => none

end LexFault

namespace GrammarFault

/-- The fault in words. -/
def message : GrammarFault → String
  | expectedExpression found => s!"Expected an expression but got {found}"
  | expectedSymbol symbol found => s!"Expected '{symbol.text}' but got {found}"
  | expectedIdentifier found => s!"Expected a variable name but got {found}"
  | expectedType found => s!"Expected a type but got {found}"
  | emptyParentheses => "Expected an expression inside the parentheses"
  | invalidUpdateTarget op => s!"The operand of '{op.text}' must be a variable"
  | invalidAssignmentTarget op => s!"The left side of '{op.text}' must be a variable"
  | missingInitializer names =>
    "Expected an initializer after a const declaration to specify " ++
      ", ".intercalate names ++ "'s value"
  | unsupported word => s!"'{word}' is not supported"

/-- What would mend the fault. -/
def hint? : GrammarFault → Option String
  | expectedExpression _ => some "a literal, a variable name or a parenthesized expression"
  | emptyParentheses => some "put an expression between the parentheses"
  | missingInitializer _ => some "give the constant a value with `= <expression>`"
  | invalidUpdateTarget _ | invalidAssignmentTarget _ => some "a variable name"
  | expectedSymbol .. | expectedIdentifier _ | expectedType _ | unsupported _ => none

end GrammarFault

/-- The fault in words. -/
def NameFault.message : NameFault → String
  | undeclared name => s!"'{name}' is not declared"
  | alreadyDeclared name => s!"'{name}' is already declared in this scope"

namespace TypeFault

/-- The fault in words. -/
def message : TypeFault → String
  | mismatch expected found =>
    s!"Type mismatch: cannot use a value of type '{found.text}' where '{expected.text}' is expected"
  | immutableAssignment name => s!"Cannot assign to constant '{name}'"
  | uninitialized name => s!"Variable '{name}' is used before being initialized"
  | uninitializedUpdate op name =>
    s!"Cannot apply '{op.text}' to '{name}' because it has not been initialized"
  | invalidUpdate op found => s!"Cannot apply '{op.text}' to a value of type '{found.text}'"
  | invalidUnary op found => s!"Unary '{op.text}' is not defined for type '{found.text}'"
  | invalidBinary op left right =>
    s!"Operator '{op.text}' is not defined for types '{left.text}' and '{right.text}'"
  | notIndexable found => s!"A value of type '{found.text}' cannot be indexed"
  | invalidIndex found => s!"Index must be an integer, found '{found.text}'"
  | invalidLength found => s!"Array length must be an integer, found '{found.text}'"

/-- What would mend the fault. -/
def hint? : TypeFault → Option String
  | immutableAssignment _ => some "declare the variable with `mut` to allow assignment"
  | uninitialized _ | uninitializedUpdate .. => some "assign a value to the variable first"
  | invalidIndex _ | invalidLength _ => some "an integer expression"
  | mismatch .. | invalidUpdate .. | invalidUnary .. | invalidBinary .. | notIndexable _ => none

end TypeFault

/-- The fault in words. -/
def Fault.message : Fault → String
  | lexical cause => cause.message
  | grammatical cause => cause.message
  | name cause => cause.message
  | type cause => cause.message

/-- What would mend the fault. -/
def Fault.hint? : Fault → Option String
  | lexical cause => cause.hint?
  | grammatical cause => cause.hint?
  | name _ => none
  | type cause => cause.hint?

/-- The warning in words. -/
def Warning.message (w : Warning) : String :=
  s!"Integer literal {w.value} does not fit in any 64-bit integer type"

/-- The defect in words. -/
def Defect.message : Defect → String
  | endOfTokens => "Unexpected end of the token stream"
  | missingSlot ⟨name, r⟩ =>
    s!"No slot allocated for '{name}' at SourceRange \x7b line: {r.line}, start: {r.start}, " ++
      s!"end: {r.stop} \x7d"
  | outOfSlots => "Out of variable slots, at most 65536 names fit"
  | poolFull => "Constant pool holds more than 65536 entries"
  | arrayTooLong => "Array literal has too many elements"
  | notAJump op => s!"{op.mnemonic} is not a jump"
  | noInstruction site => s!"No instruction at jump site {site}"
  | jumpExpected site found => s!"Instruction at {site} is {found.mnemonic}, not a jump"
  | jumpTooFar => "Jump offset does not fit in 32 bits"

end StackCompiler
