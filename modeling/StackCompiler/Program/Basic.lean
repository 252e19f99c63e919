import StackCompiler.Ty.Lengths

/-!
# Programs

A program is a list of statements, each a declaration of names or an expression.
-/

namespace StackCompiler

/-- Names declared with one type and, shared by all of them, one initial value. -/
structure Declaration where
  isMutable : Bool
  ty : Ty
  names : List Ident
  initializer : Option Expr
  range : Range
deriving DecidableEq, Inhabited

/-- Statements. -/
inductive Statement where
  | expression (e : Expr)
  | declaration (d : Declaration)
deriving DecidableEq, Inhabited

/-- Programs, statement by statement. -/
abbrev Program := List Statement

/-- The declaration with its constant parts evaluated. -/
def Declaration.fold (d : Declaration) : Declaration :=
  { d with ty := d.ty.fold, initializer := d.initializer.map Expr.fold }

/-- The declaration in text. -/
def Declaration.text (d : Declaration) : String :=
  "(" ++ (if d.isMutable then "mut" else "const") ++ " " ++
    " ".intercalate (d.names.map Ident.name) ++ ": " ++ d.ty.text ++
    (match d.initializer with
      | some e => " = " ++ e.text
      | none => "") ++ ")"

namespace Statement

/-- The source text that the statement was read from. -/
def range : Statement → Range
  | expression e => e.range
  | declaration d => d.range

/-- The statement with its constant parts evaluated. -/
def fold : Statement → Statement
  | expression e => expression e.fold
  | declaration d => declaration d.fold

/-- The statement in text. -/
def text : Statement → String
  | expression e => e.text ++ ";"
  | declaration d => d.text

end Statement

namespace Program

/-- The program with its constant parts evaluated. -/
def fold (p : Program) : Program :=
  p.map Statement.fold

/-- The program in text, one statement a line. -/
def text (p : Program) : String :=
  "\n".intercalate (p.map Statement.text)

end Program

end StackCompiler
