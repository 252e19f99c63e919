import StackCompiler.Expr.Basic
import StackCompiler.Number.Text

/-!
# Expressions in text

A tree is written with every operator in front of its operands and in parentheses, so that its
structure can be read off.
-/

namespace StackCompiler

/-- A constant as it is written in a tree. -/
def Literal.text : Literal → String
  | integer value => toString value
  | float value => Number.text value
  | string value => s!"\"{value}\""
  | char value => s!"'{value}'"
  | null => "null"

namespace Expr

mutual

/-- The tree in text. -/
def text : Expr → String
  | literal value _ => value.text
  | ident id => id.name
  | binary op left right _ => s!"({op.text} {left.text} {right.text})"
  | unary op operand _ => s!"({op.text} {operand.text})"
  | update op true target _ => s!"({op.text} {target.name})"
  | update op false target _ => s!"({target.name} {op.text})"
  | assign op target value _ => s!"({op.text} {target.name} {value.text})"
  | sequence items _ => "(, " ++ " ".intercalate (texts items) ++ ")"
  | array items _ => "[" ++ " ".intercalate (texts items) ++ "]"
  | index base position _ => s!"(index {base.text} {position.text})"

/-- Each tree of a list in text. -/
def texts : List Expr → List String
  | [] => []
  | e :: es => e.text :: texts es

end

end Expr

end StackCompiler
