import StackCompiler.Expr.Basic
import StackCompiler.Number.Binary64
import StackCompiler.Number.Integer

/-!
# Constant folding

`Literal.combine?` is the value of an operator on two constants, where it is known before the
program runs. `Expr.fold` replaces, from the leaves up, every binary node whose operands are
constants with such a value by the value, at the node's own range.
-/

namespace StackCompiler

/-- The result of an operator on two doubles; a result that is not finite is left open. -/
def Number.floatResult? (op : BinaryOp) (l r : Float) : Option Literal :=
  let number (x : Float) : Option Literal := if isFinite x then some (.float x) else none
  let truth (b : Bool) : Option Literal := some (.integer (ofTruth b))
  match op with
  | .add => number (l + r)
  | .subtract => number (l - r)
  | .multiply => number (l * r)
  | .divide => number (l / r)
  | .modulo => (remainder? l r).bind number
  | .power => number (l.pow r)
  | .equal => truth (l == r)
  | .notEqual => truth (l != r)
  | .less => truth (l < r)
  | .greater => truth (l > r)
  | .lessEqual => truth (l ≤ r)
  | .greaterEqual => truth (l ≥ r)
  | .and => truth (l != 0.0 && r != 0.0)
  | .or => truth (l != 0.0 || r != 0.0)
  | .shiftLeft | .shiftRight | .bitAnd | .bitOr | .bitXor => none

/-- The value of an operator on two constants. An integer beside a double counts as the double
nearest to it. -/
def Literal.combine? (op : BinaryOp) : Literal → Literal → Option Literal
  | integer l, integer r => (Number.integerResult? op l r).map integer
  | integer l, float r => Number.floatResult? op (Float.ofInt l) r
  | float l, integer r => Number.floatResult? op l (Float.ofInt r)
  | float l, float r => Number.floatResult? op l r
  | _, _ => none

namespace Expr

/-- The constant that a binary node stands for, if its operands are constants that have one. -/
def constant? (op : BinaryOp) : Expr → Expr → Option Literal
  | literal l _, literal r _ => l.combine? op r
  | _, _ => none

mutual

/-- The tree with its constant parts evaluated. -/
def fold : Expr → Expr
  | literal value r => literal value r
  | ident id => ident id
  | binary op left right r =>
    let left' := left.fold
    let right' := right.fold
    match constant? op left' right' with
    | some value => literal value r
    | none => binary op left' right' r
  | unary op operand r => unary op operand.fold r
  | update op leading target r => update op leading target r
  | assign op target value r => assign op target value.fold r
  | sequence items r => sequence (foldAll items) r
  | array items r => array (foldAll items) r
  | index base position r => index base.fold position.fold r

/-- Every tree of a list with its constant parts evaluated. -/
def foldAll : List Expr → List Expr
  | [] => []
  | e :: es => e.fold :: foldAll es

end

end Expr

end StackCompiler
