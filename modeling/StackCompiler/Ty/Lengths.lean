import StackCompiler.Expr.Fold
import StackCompiler.Ty.Basic

/-!
# Lengths in types

The length expressions of the array types inside a type: listed in the order in which they are
looked at, and folded.
-/

namespace StackCompiler.Ty

mutual

/-- The length expressions in a type: of an array its own length first and then those of its
element type, of a union those of its members in order. -/
def lengths : Ty → List Expr
  | null | scalar _ => []
  | array element length => length.toList ++ element.lengths
  | union ts => lengthsAll ts

/-- The length expressions in a list of types. -/
def lengthsAll : List Ty → List Expr
  | [] => []
  | t :: ts => t.lengths ++ lengthsAll ts

end

mutual

/-- The type with the constant parts of its lengths evaluated. -/
def fold : Ty → Ty
  | null => null
  | scalar s => scalar s
  | array element length => array element.fold (length.map Expr.fold)
  | union ts => union (foldAll ts)

/-- Every type of a list with the constant parts of its lengths evaluated. -/
def foldAll : List Ty → List Ty
  | [] => []
  | t :: ts => t.fold :: foldAll ts

end

end StackCompiler.Ty
