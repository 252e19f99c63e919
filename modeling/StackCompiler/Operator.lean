/-!
# Operators

The operators of the expression language, how each is written, and how tightly the binary ones
bind.
-/

namespace StackCompiler

/-- Operators between two operands. -/
inductive BinaryOp where
  | add | subtract | multiply | power | divide | modulo
  | equal | notEqual | less | greater | lessEqual | greaterEqual
  | and | or
  | shiftLeft | shiftRight | bitAnd | bitOr | bitXor
deriving DecidableEq, Repr, Inhabited

/-- Operators before one operand. -/
inductive UnaryOp where
  | not | bitNot | negate | plus
deriving DecidableEq, Repr, Inhabited

/-- Operators that change a variable by one. -/
inductive UpdateOp where
  | increment | decrement
deriving DecidableEq, Repr, Inhabited

/-- What an assignment does with the value before storing it: nothing, or combine it with the
variable's old value. -/
inductive AssignOp where
  | plain
  | compound (op : BinaryOp)
deriving DecidableEq, Repr, Inhabited

namespace BinaryOp

/-- How the operator is written. -/
def text : BinaryOp → String
  | add => "+"
  | subtract => "-"
  | multiply => "*"
  | power => "**"
  | divide => "/"
  | modulo => "%"
  | equal => "=="
  | notEqual => "!="
  | less => "<"
  | greater => ">"
  | lessEqual => "<="
  | greaterEqual => ">="
  | and => "&&"
  | or => "||"
  | shiftLeft => "<<"
  | shiftRight => ">>"
  | bitAnd => "&"
  | bitOr => "|"
  | bitXor => "^"

/-- How tightly the operator binds its operands; all of them associate to the left. -/
def strength : BinaryOp → Nat
  | or => 3
  | and => 4
  | bitOr => 5
  | bitXor => 6
  | bitAnd => 7
  | equal | notEqual => 8
  | less | greater | lessEqual | greaterEqual => 9
  | shiftLeft | shiftRight => 10
  | add | subtract => 11
  | multiply | divide | modulo => 12
  | power => 13

end BinaryOp

/-- How the operator is written. -/
def UnaryOp.text : UnaryOp → String
  | not => "!"
  | bitNot => "~"
  | negate => "-"
  | plus => "+"

/-- How the operator is written. -/
def UpdateOp.text : UpdateOp → String
  | increment => "++"
  | decrement => "--"

/-- How the operator is written. -/
def AssignOp.text : AssignOp → String
  | plain => "="
  | compound op => op.text ++ "="

end StackCompiler
