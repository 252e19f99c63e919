import StackCompiler.Expr.Text
import StackCompiler.Scalar

/-!
# Types

The static types: null, the scalar types, arrays and unions. An array type may carry the
expression of its length. Unions are flat, that is no member of a union is a union; the empty
union is the type of no value at all. Equality of types is decidable and compares the lengths of
arrays as trees, with their ranges; `Ty.equals` is the comparison in which floats in lengths are
compared as numbers.
-/

namespace StackCompiler

/-- Types. -/
inductive Ty where
  | null
  | scalar (s : Scalar)
  | array (element : Ty) (length : Option Expr)
  | union (members : List Ty)
deriving Inhabited

/-- What a type is when widths, lengths and members are left out of account. -/
inductive Kind where
  | null | integer | float | string | char | array | union
deriving DecidableEq, Repr, Inhabited

/-- The kind of a scalar type. -/
def Scalar.kind : Scalar → Kind
  | integer _ => .integer
  | float _ => .float
  | string => .string
  | char => .char

namespace Ty

/-- The integer type of a width. -/
abbrev integer (width : IntWidth) : Ty := scalar (.integer width)

/-- The float type of a width. -/
abbrev float (width : FloatWidth) : Ty := scalar (.float width)

/-- The type of strings. -/
abbrev string : Ty := scalar .string

/-- The type of characters. -/
abbrev char : Ty := scalar .char

/-- The type of truth values. -/
abbrev truth : Ty := integer .u1

/-- The kind of a type. -/
def kind : Ty → Kind
  | null => .null
  | scalar s => s.kind
  | array .. => .array
  | union _ => .union

/-- The members of a union, and any other type as its own only member. -/
def members : Ty → List Ty
  | union ts => ts
  | t => [t]

mutual

/-- Equality of types is decidable. -/
def decEq : (a b : Ty) → Decidable (a = b)
  | null, b => match b with
    | null => isTrue rfl
    | scalar .. | array .. | union .. => isFalse nofun
  | scalar s, b => match b with
    | scalar s' => decidable_of_iff (s = s') (by simp)
    | null | array .. | union .. => isFalse nofun
  | array t l, b => match b with
    | array t' l' =>
      have := decEq t t'
      decidable_of_iff (t = t' ∧ l = l') (by simp)
    | null | scalar .. | union .. => isFalse nofun
  | union ts, b => match b with
    | union ts' =>
      have := decEqList ts ts'
      decidable_of_iff (ts = ts') (by simp)
    | null | scalar .. | array .. => isFalse nofun

/-- Equality of lists of types is decidable. -/
def decEqList : (a b : List Ty) → Decidable (a = b)
  | [], b => match b with
    | [] => isTrue rfl
    | _ :: _ => isFalse nofun
  | t :: ts, b => match b with
    | [] => isFalse nofun
    | t' :: ts' =>
      have := decEq t t'
      have := decEqList ts ts'
      decidable_of_iff (t = t' ∧ ts = ts') (by simp)

end

instance : DecidableEq Ty := decEq

mutual

/-- Whether two types are equal, with the constants in their lengths compared as values. A type
with a length that is not a number is not equal to itself. -/
def equals : Ty → Ty → Bool
  | null, null => true
  | scalar s, scalar s' => s == s'
  | array t l, array t' l' => t.equals t' && Expr.equalsAll l.toList l'.toList
  | union ts, union ts' => equalsAll ts ts'
  | _, _ => false

/-- Whether the types of two lists are equal, one by one. -/
def equalsAll : List Ty → List Ty → Bool
  | [], [] => true
  | t :: ts, t' :: ts' => t.equals t' && equalsAll ts ts'
  | _, _ => false

end

mutual

/-- The type as it is written; an array over several members has them in parentheses. -/
def text : Ty → String
  | null => "null"
  | scalar s => s.text
  | array element length =>
    let inner := element.text
    (if 1 < element.members.length then "(" ++ inner ++ ")" else inner) ++
      "[" ++ (length.map Expr.text).getD "" ++ "]"
  | union ts => if ts.isEmpty then "never" else " | ".intercalate (texts ts)

/-- Each type of a list as it is written. -/
def texts : List Ty → List String
  | [] => []
  | t :: ts => t.text :: texts ts

end

mutual

/-- How deeply arrays are nested in the type. -/
def depth : Ty → Nat
  | null | scalar _ => 0
  | array element _ => element.depth + 1
  | union ts => depths ts

/-- The largest depth of a list of types. -/
def depths : List Ty → Nat
  | [] => 0
  | t :: ts => max t.depth (depths ts)

end

end Ty

end StackCompiler
