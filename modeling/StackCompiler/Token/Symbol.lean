import StackCompiler.Operator

/-!
# Punctuation and operator symbols

The symbols of the language, how each is written, and what each can do in an expression: apply
to the operand after it, or continue the operand before it.
-/

namespace StackCompiler

/-- Punctuation and operator symbols. -/
inductive Symbol where
  | leftParen | rightParen | leftBrace | rightBrace | leftBracket | rightBracket
  | comma | question | colon | dot | semicolon
  | minus | minusMinus | minusEqual
  | plus | plusPlus | plusEqual
  | slash | slashEqual
  | star | starStar | starEqual
  | percent | percentEqual
  | bang | bangEqual
  | equal | equalEqual
  | greater | greaterEqual | greaterGreater | greaterGreaterEqual
  | less | lessEqual | lessGreater | lessLess | lessLessEqual
  | ampersand | ampersandAmpersand | ampersandEqual
  | pipe | pipePipe | pipeEqual
  | caret | caretEqual
  | tilde
deriving DecidableEq, Repr, Inhabited

/-- What a symbol does after an operand. -/
inductive Continuation where
  | sequence
  | assign (op : AssignOp)
  | binary (op : BinaryOp)
  | update (op : UpdateOp)
  | index
deriving DecidableEq, Repr

namespace Continuation

/-- How tightly sequences bind. -/
def sequenceStrength : Nat := 1

/-- How tightly assignments bind. -/
def assignStrength : Nat := 2

/-- How tightly an operator binds the operand after it. -/
def operandStrength : Nat := 14

/-- How tightly the continuation binds the operand before it. -/
def strength : Continuation → Nat
  | sequence => sequenceStrength
  | assign _ => assignStrength
  | binary op => op.strength
  | update _ | index => 15

end Continuation

namespace Symbol

/-- The characters of the symbol. -/
def chars : Symbol → List Char
  | leftParen => ['(']
  | rightParen => [')']
  | leftBrace => ['\x7b']
  | rightBrace => ['\x7d']
  | leftBracket => ['[']
  | rightBracket => [']']
  | comma => [',']
  | question => ['?']
  | colon => [':']
  | dot => ['.']
  | semicolon => [';']
  | minus => ['-']
  | minusMinus => ['-', '-']
  | minusEqual => ['-', '=']
  | plus => ['+']
  | plusPlus => ['+', '+']
  | plusEqual => ['+', '=']
  | slash => ['/']
  | slashEqual => ['/', '=']
  | star => ['*']
  | starStar => ['*', '*']
  | starEqual => ['*', '=']
  | percent => ['%']
  | percentEqual => ['%', '=']
  | bang => ['!']
  | bangEqual => ['!', '=']
  | equal => ['=']
  | equalEqual => ['=', '=']
  | greater => ['>']
  | greaterEqual => ['>', '=']
  | greaterGreater => ['>', '>']
  | greaterGreaterEqual => ['>', '>', '=']
  | less => ['<']
  | lessEqual => ['<', '=']
  | lessGreater => ['<', '>']
  | lessLess => ['<', '<']
  | lessLessEqual => ['<', '<', '=']
  | ampersand => ['&']
  | ampersandAmpersand => ['&', '&']
  | ampersandEqual => ['&', '=']
  | pipe => ['|']
  | pipePipe => ['|', '|']
  | pipeEqual => ['|', '=']
  | caret => ['^']
  | caretEqual => ['^', '=']
  | tilde => ['~']

/-- How the symbol is written. -/
def text (s : Symbol) : String :=
  String.ofList s.chars

/-- The name of the symbol. -/
def label : Symbol → String
  | leftParen => "LeftParen"
  | rightParen => "RightParen"
  | leftBrace => "LeftBrace"
  | rightBrace => "RightBrace"
  | leftBracket => "LeftBracket"
  | rightBracket => "RightBracket"
  | comma => "Comma"
  | question => "Question"
  | colon => "Colon"
  | dot => "Dot"
  | semicolon => "Semicolon"
  | minus => "Minus"
  | minusMinus => "MinusMinus"
  | minusEqual => "MinusEqual"
  | plus => "Plus"
  | plusPlus => "PlusPlus"
  | plusEqual => "PlusEqual"
  | slash => "Slash"
  | slashEqual => "SlashEqual"
  | star => "Star"
  | starStar => "StarStar"
  | starEqual => "StarEqual"
  | percent => "Percent"
  | percentEqual => "PercentEqual"
  | bang => "Bang"
  | bangEqual => "BangEqual"
  | equal => "Equal"
  | equalEqual => "EqualEqual"
  | greater => "Greater"
  | greaterEqual => "GreaterEqual"
  | greaterGreater => "GreaterGreater"
  | greaterGreaterEqual => "GreaterGreaterEqual"
  | less => "Less"
  | lessEqual => "LessEqual"
  | lessGreater => "LessGreater"
  | lessLess => "LessLess"
  | lessLessEqual => "LessLessEqual"
  | ampersand => "Ampersand"
  | ampersandAmpersand => "AmpersandAmpersand"
  | ampersandEqual => "AmpersandEqual"
  | pipe => "Pipe"
  | pipePipe => "PipePipe"
  | pipeEqual => "PipeEqual"
  | caret => "Caret"
  | caretEqual => "CaretEqual"
  | tilde => "Tilde"

/-- All symbols, longer ones before shorter ones. -/
def all : List Symbol :=
  [greaterGreaterEqual, lessLessEqual,
   minusMinus, minusEqual, plusPlus, plusEqual, slashEqual, starStar, starEqual, percentEqual,
   bangEqual, equalEqual, greaterEqual, greaterGreater, lessEqual, lessGreater, lessLess,
   ampersandAmpersand, ampersandEqual, pipePipe, pipeEqual, caretEqual,
   leftParen, rightParen, leftBrace, rightBrace, leftBracket, rightBracket, comma, question,
   colon, dot, semicolon, minus, plus, slash, star, percent, bang, equal, greater, less,
   ampersand, pipe, caret, tilde]

/-- The longest symbol at the front of a text. It is the one that the first character decides on
with a look at the next ones (`Symbol.atFront?_cons`). -/
def atFront? (text : List Char) : Option Symbol :=
  all.find? fun s => s.chars.isPrefixOf text

/-- The operator that changes a variable by one. -/
def update? : Symbol → Option UpdateOp
  | plusPlus => some .increment
  | minusMinus => some .decrement
  | _ => none

/-- The operator before an operand. -/
def unary? : Symbol → Option UnaryOp
  | bang => some .not
  | tilde => some .bitNot
  | minus => some .negate
  | plus => some .plus
  | _ => none

/-- The operator between two operands; unequal has two spellings. -/
def binary? : Symbol → Option BinaryOp
  | plus => some .add
  | minus => some .subtract
  | star => some .multiply
  | starStar => some .power
  | slash => some .divide
  | percent => some .modulo
  | equalEqual => some .equal
  | bangEqual | lessGreater => some .notEqual
  | less => some .less
  | greater => some .greater
  | lessEqual => some .lessEqual
  | greaterEqual => some .greaterEqual
  | ampersandAmpersand => some .and
  | pipePipe => some .or
  | lessLess => some .shiftLeft
  | greaterGreater => some .shiftRight
  | ampersand => some .bitAnd
  | pipe => some .bitOr
  | caret => some .bitXor
  | _ => none

/-- The assignment operator. -/
def assign? : Symbol → Option AssignOp
  | equal => some .plain
  | plusEqual => some (.compound .add)
  | minusEqual => some (.compound .subtract)
  | starEqual => some (.compound .multiply)
  | slashEqual => some (.compound .divide)
  | percentEqual => some (.compound .modulo)
  | lessLessEqual => some (.compound .shiftLeft)
  | greaterGreaterEqual => some (.compound .shiftRight)
  | ampersandEqual => some (.compound .bitAnd)
  | pipeEqual => some (.compound .bitOr)
  | caretEqual => some (.compound .bitXor)
  | _ => none

/-- What the symbol does after an operand; most symbols end the expression. -/
def continuation? (s : Symbol) : Option Continuation :=
  match s with
  | comma => some .sequence
  | leftBracket => some .index
  | _ => (s.update?.map .update).or ((s.assign?.map .assign).or (s.binary?.map .binary))

end Symbol

end StackCompiler
