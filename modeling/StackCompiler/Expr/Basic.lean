import StackCompiler.Operator
import StackCompiler.Range

/-!
# Expressions

The tree of an expression. Every node carries the range of the source text that it was read
from, and the functions `binary`, `unary`, `assignment` and `sequence` build a node together
with its range. Equality of trees is decidable and looks at the ranges too. `Expr.equals` is the
comparison of trees that compares floats as numbers.
-/

namespace StackCompiler

/-- A name at a place. -/
structure Ident where
  name : String
  range : Range
deriving DecidableEq, Repr, Inhabited

/-- Constants of the language. -/
inductive Literal where
  | integer (value : Int)
  | float (value : Float)
  | string (value : String)
  | char (value : Char)
  | null
deriving DecidableEq, Inhabited

/-- Whether the constant is a number. -/
def Literal.isNumeric : Literal → Bool
  | integer _ | float _ => true
  | _ => false

/-- Whether two constants are equal as values: a float that is not a number is not equal to
itself, and the zeros of both signs are equal. -/
def Literal.equals : Literal → Literal → Bool
  | float x, float y => x == y
  | l, l' => l == l'

/-- Expressions. In an update `leading` says that the operator stands before the name. -/
inductive Expr where
  | literal (value : Literal) (range : Range)
  | ident (id : Ident)
  | binary (op : BinaryOp) (left right : Expr) (range : Range)
  | unary (op : UnaryOp) (operand : Expr) (range : Range)
  | update (op : UpdateOp) (leading : Bool) (target : Ident) (range : Range)
  | assign (op : AssignOp) (target : Ident) (value : Expr) (range : Range)
  | sequence (items : List Expr) (range : Range)
  | array (items : List Expr) (range : Range)
  | index (base position : Expr) (range : Range)
deriving Inhabited

namespace Expr

/-- The source text that the expression was read from. -/
def range : Expr → Range
  | literal _ r | binary _ _ _ r | unary _ _ r | update _ _ _ r | assign _ _ _ r
  | sequence _ r | array _ r | index _ _ r => r
  | ident id => id.range

/-- Two operands joined by an operator. -/
def joined (op : BinaryOp) (left right : Expr) : Expr :=
  binary op left right (left.range.through right.range)

/-- An operand behind an operator that stands at `place`. -/
def applied (op : UnaryOp) (operand : Expr) (place : Range) : Expr :=
  unary op operand (place.through operand.range)

/-- A value assigned to a name. -/
def assigned (op : AssignOp) (target : Ident) (value : Expr) : Expr :=
  assign op target value (target.range.through value.range)

/-- Two expressions evaluated one after the other; a sequence on the left takes `right` in as its
last item. -/
def followedBy (left right : Expr) : Expr :=
  let place := left.range.through right.range
  match left with
  | sequence items _ => sequence (items ++ [right]) place
  | _ => sequence [left, right] place

mutual

/-- Whether every leaf of the tree is a constant other than null, and no node has an effect. -/
def isFoldable : Expr → Bool
  | literal value _ => value != .null
  | ident _ | update .. | assign .. => false
  | binary _ left right _ => left.isFoldable && right.isFoldable
  | unary _ operand _ => operand.isFoldable
  | sequence items _ | array items _ => areFoldable items
  | index base position _ => base.isFoldable && position.isFoldable

/-- Whether every tree of a list is foldable. -/
def areFoldable : List Expr → Bool
  | [] => true
  | e :: es => e.isFoldable && areFoldable es

end

mutual

/-- Equality of trees is decidable. -/
def decEq : (a b : Expr) → Decidable (a = b)
  | literal v r, b => match b with
    | literal v' r' => decidable_of_iff (v = v' ∧ r = r') (by simp)
    | ident .. | binary .. | unary .. | update .. | assign .. | sequence .. | array ..
    | index .. => isFalse nofun
  | ident i, b => match b with
    | ident i' => decidable_of_iff (i = i') (by simp)
    | literal .. | binary .. | unary .. | update .. | assign .. | sequence .. | array ..
    | index .. => isFalse nofun
  | binary o l r p, b => match b with
    | binary o' l' r' p' =>
      have := decEq l l'
      have := decEq r r'
      decidable_of_iff (o = o' ∧ l = l' ∧ r = r' ∧ p = p') (by simp)
    | literal .. | ident .. | unary .. | update .. | assign .. | sequence .. | array ..
    | index .. => isFalse nofun
  | unary o e p, b => match b with
    | unary o' e' p' =>
      have := decEq e e'
      decidable_of_iff (o = o' ∧ e = e' ∧ p = p') (by simp)
    | literal .. | ident .. | binary .. | update .. | assign .. | sequence .. | array ..
    | index .. => isFalse nofun
  | update o f t p, b => match b with
    | update o' f' t' p' => decidable_of_iff (o = o' ∧ f = f' ∧ t = t' ∧ p = p') (by simp)
    | literal .. | ident .. | binary .. | unary .. | assign .. | sequence .. | array ..
    | index .. => isFalse nofun
  | assign o t e p, b => match b with
    | assign o' t' e' p' =>
      have := decEq e e'
      decidable_of_iff (o = o' ∧ t = t' ∧ e = e' ∧ p = p') (by simp)
    | literal .. | ident .. | binary .. | unary .. | update .. | sequence .. | array ..
    | index .. => isFalse nofun
  | sequence es p, b => match b with
    | sequence es' p' =>
      have := decEqList es es'
      decidable_of_iff (es = es' ∧ p = p') (by simp)
    | literal .. | ident .. | binary .. | unary .. | update .. | assign .. | array ..
    | index .. => isFalse nofun
  | array es p, b => match b with
    | array es' p' =>
      have := decEqList es es'
      decidable_of_iff (es = es' ∧ p = p') (by simp)
    | literal .. | ident .. | binary .. | unary .. | update .. | assign .. | sequence ..
    | index .. => isFalse nofun
  | index e i p, b => match b with
    | index e' i' p' =>
      have := decEq e e'
      have := decEq i i'
      decidable_of_iff (e = e' ∧ i = i' ∧ p = p') (by simp)
    | literal .. | ident .. | binary .. | unary .. | update .. | assign .. | sequence ..
    | array .. => isFalse nofun

/-- Equality of lists of trees is decidable. -/
def decEqList : (a b : List Expr) → Decidable (a = b)
  | [], b => match b with
    | [] => isTrue rfl
    | _ :: _ => isFalse nofun
  | e :: es, b => match b with
    | [] => isFalse nofun
    | e' :: es' =>
      have := decEq e e'
      have := decEqList es es'
      decidable_of_iff (e = e' ∧ es = es') (by simp)

end

instance : DecidableEq Expr := decEq

mutual

/-- Whether two trees are equal, with their constants compared as values. -/
def equals : Expr → Expr → Bool
  | literal v p, literal v' p' => v.equals v' && p == p'
  | ident i, ident i' => i == i'
  | binary o l r p, binary o' l' r' p' => o == o' && l.equals l' && r.equals r' && p == p'
  | unary o e p, unary o' e' p' => o == o' && e.equals e' && p == p'
  | update o f t p, update o' f' t' p' => o == o' && f == f' && t == t' && p == p'
  | assign o t e p, assign o' t' e' p' => o == o' && t == t' && e.equals e' && p == p'
  | sequence es p, sequence es' p' => equalsAll es es' && p == p'
  | array es p, array es' p' => equalsAll es es' && p == p'
  | index e i p, index e' i' p' => e.equals e' && i.equals i' && p == p'
  | _, _ => false

/-- Whether the trees of two lists are equal, one by one. -/
def equalsAll : List Expr → List Expr → Bool
  | [], [] => true
  | e :: es, e' :: es' => e.equals e' && equalsAll es es'
  | _, _ => false

end

end Expr

end StackCompiler
