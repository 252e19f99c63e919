import StackCompiler.Program.Basic
import StackCompiler.Token.Stream
import StackCompiler.Ty.Union

/-!
# The grammar of programs

The documented grammar, as derivations that relate a list of tokens to the tree it is written for.
Expressions are stratified by levels: sequences (1), assignments (2), eleven levels of binary
operators (3 to 13), operators before their operand (14), operators behind their operand and
indexing (15), and primaries (16). An expression of a level is also one of every lower level.

The tables `Grammar.binaries`, `Grammar.assignments`, `Grammar.unaries` and `Grammar.updates` list
the operators, and nothing here refers to how programs are read.
-/

namespace StackCompiler

namespace Grammar

/-- The binary operators with their levels; all of them associate to the left. -/
def binaries : List (Nat × Symbol × BinaryOp) :=
  [(3, .pipePipe, .or),
   (4, .ampersandAmpersand, .and),
   (5, .pipe, .bitOr),
   (6, .caret, .bitXor),
   (7, .ampersand, .bitAnd),
   (8, .equalEqual, .equal), (8, .bangEqual, .notEqual), (8, .lessGreater, .notEqual),
   (9, .less, .less), (9, .greater, .greater), (9, .lessEqual, .lessEqual),
   (9, .greaterEqual, .greaterEqual),
   (10, .lessLess, .shiftLeft), (10, .greaterGreater, .shiftRight),
   (11, .plus, .add), (11, .minus, .subtract),
   (12, .star, .multiply), (12, .slash, .divide), (12, .percent, .modulo),
   (13, .starStar, .power)]

/-- The assignment operators, which are of level 2. -/
def assignments : List (Symbol × AssignOp) :=
  [(.equal, .plain), (.plusEqual, .compound .add), (.minusEqual, .compound .subtract),
   (.starEqual, .compound .multiply), (.slashEqual, .compound .divide),
   (.percentEqual, .compound .modulo), (.lessLessEqual, .compound .shiftLeft),
   (.greaterGreaterEqual, .compound .shiftRight), (.ampersandEqual, .compound .bitAnd),
   (.pipeEqual, .compound .bitOr), (.caretEqual, .compound .bitXor)]

/-- The operators before an operand, which are of level 14. -/
def unaries : List (Symbol × UnaryOp) :=
  [(.bang, .not), (.tilde, .bitNot), (.minus, .negate), (.plus, .plus)]

/-- The operators that change a variable, of level 14 before it and of level 15 behind it. -/
def updates : List (Symbol × UpdateOp) :=
  [(.plusPlus, .increment), (.minusMinus, .decrement)]

end Grammar

mutual

/-- The tokens are written for the expression, which is of the level `n`. -/
inductive Expr.Derives : (n : Nat) → List Token → Expr → Prop where
  | literal {t : Token} {value : Literal} (h : t.literal? = some value) :
    Expr.Derives 16 [t] (.literal value t.range)
  | name {t : Token} {name : String} (h : t.kind = .identifier name) :
    Expr.Derives 16 [t] (.ident ⟨name, t.range⟩)
  | group {l r : Token} {ts : List Token} {e : Expr} (hl : l.kind = .symbol .leftParen)
    (he : Expr.Derives 1 ts e) (hr : r.kind = .symbol .rightParen) :
    Expr.Derives 16 (l :: ts ++ [r]) e
  | array {l r : Token} {ts : List Token} {items : List Expr}
    (hl : l.kind = .symbol .leftBracket) (hi : Expr.DerivesItems ts items)
    (hr : r.kind = .symbol .rightBracket) :
    Expr.Derives 16 (l :: ts ++ [r]) (.array items (l.range.through r.range))
  | updateAfter {t : Token} {s : Symbol} {op : UpdateOp} {ts : List Token} {id : Ident}
    (he : Expr.Derives 15 ts (.ident id)) (ht : t.kind = .symbol s)
    (hs : (s, op) ∈ Grammar.updates) :
    Expr.Derives 15 (ts ++ [t]) (.update op false id (id.range.through t.range))
  | index {l r : Token} {ts us : List Token} {base position : Expr}
    (hb : Expr.Derives 15 ts base) (hl : l.kind = .symbol .leftBracket)
    (hp : Expr.Derives 1 us position) (hr : r.kind = .symbol .rightBracket) :
    Expr.Derives 15 (ts ++ l :: (us ++ [r]))
      (.index base position (base.range.through r.range))
  | updateBefore {t : Token} {s : Symbol} {op : UpdateOp} {ts : List Token} {id : Ident}
    (ht : t.kind = .symbol s) (hs : (s, op) ∈ Grammar.updates)
    (he : Expr.Derives 14 ts (.ident id)) :
    Expr.Derives 14 (t :: ts) (.update op true id (t.range.through id.range))
  | unary {t : Token} {s : Symbol} {op : UnaryOp} {ts : List Token} {e : Expr}
    (ht : t.kind = .symbol s) (hs : (s, op) ∈ Grammar.unaries) (he : Expr.Derives 14 ts e) :
    Expr.Derives 14 (t :: ts) (.applied op e t.range)
  | binary {n : Nat} {t : Token} {s : Symbol} {op : BinaryOp} {ts us : List Token} {l r : Expr}
    (hl : Expr.Derives n ts l) (ht : t.kind = .symbol s) (hs : (n, s, op) ∈ Grammar.binaries)
    (hr : Expr.Derives (n + 1) us r) :
    Expr.Derives n (ts ++ t :: us) (.joined op l r)
  | assign {t : Token} {s : Symbol} {op : AssignOp} {ts us : List Token} {id : Ident}
    {value : Expr} (hl : Expr.Derives 3 ts (.ident id)) (ht : t.kind = .symbol s)
    (hs : (s, op) ∈ Grammar.assignments) (hr : Expr.Derives 3 us value) :
    Expr.Derives 2 (ts ++ t :: us) (.assigned op id value)
  | sequence {t : Token} {ts us : List Token} {l r : Expr} (hl : Expr.Derives 1 ts l)
    (ht : t.kind = .symbol .comma) (hr : Expr.Derives 2 us r) :
    Expr.Derives 1 (ts ++ t :: us) (.followedBy l r)
  | ofNext {n : Nat} {ts : List Token} {e : Expr} (h : Expr.Derives (n + 1) ts e) :
    Expr.Derives n ts e

/-- The tokens are written for the items of an array, between commas. -/
inductive Expr.DerivesItems : List Token → List Expr → Prop where
  | none : Expr.DerivesItems [] []
  | some {ts us : List Token} {e : Expr} {es : List Expr} (he : Expr.Derives 2 ts e)
    (hs : Expr.DerivesMore us es) : Expr.DerivesItems (ts ++ us) (e :: es)

/-- The tokens are written for the items of an array after the first, each behind a comma. -/
inductive Expr.DerivesMore : List Token → List Expr → Prop where
  | nil : Expr.DerivesMore [] []
  | cons {t : Token} {ts us : List Token} {e : Expr} {es : List Expr}
    (ht : t.kind = .symbol .comma) (he : Expr.Derives 2 ts e) (hs : Expr.DerivesMore us es) :
    Expr.DerivesMore (t :: ts ++ us) (e :: es)

end

mutual

/-- The tokens are written for the type: members between bars. -/
inductive Ty.Derives : List Token → Ty → Prop where
  | single {ts : List Token} {t : Ty} (h : Ty.DerivesMember ts t) : Ty.Derives ts t
  | union {ts us : List Token} {t t' : Ty} {others : List Ty} (h : Ty.DerivesMember ts t)
    (hs : Ty.DerivesOthers us (t' :: others)) : Ty.Derives (ts ++ us) (.join (t :: t' :: others))

/-- The tokens are written for a member of a type: a scalar type, null or a type in parentheses,
and pairs of brackets, with or without a length, behind it. -/
inductive Ty.DerivesMember : List Token → Ty → Prop where
  | scalar {t : Token} {s : Scalar} (h : t.kind = .typeName s) : Ty.DerivesMember [t] (.scalar s)
  | null {t : Token} (h : t.kind = .null) : Ty.DerivesMember [t] .null
  | group {l r : Token} {ts : List Token} {t : Ty} (hl : l.kind = .symbol .leftParen)
    (ht : Ty.Derives ts t) (hr : r.kind = .symbol .rightParen) :
    Ty.DerivesMember (l :: ts ++ [r]) t
  | array {l r : Token} {ts : List Token} {t : Ty} (ht : Ty.DerivesMember ts t)
    (hl : l.kind = .symbol .leftBracket) (hr : r.kind = .symbol .rightBracket) :
    Ty.DerivesMember (ts ++ [l, r]) (.array t .none)
  | sized {l r : Token} {ts us : List Token} {t : Ty} {length : Expr}
    (ht : Ty.DerivesMember ts t) (hl : l.kind = .symbol .leftBracket)
    (he : Expr.Derives 3 us length) (hr : r.kind = .symbol .rightBracket) :
    Ty.DerivesMember (ts ++ l :: (us ++ [r])) (.array t (.some length))

/-- The tokens are written for the members of a type after the first, each behind a bar. -/
inductive Ty.DerivesOthers : List Token → List Ty → Prop where
  | nil : Ty.DerivesOthers [] []
  | cons {bar : Token} {ts us : List Token} {t : Ty} {others : List Ty}
    (hb : bar.kind = .symbol .pipe) (ht : Ty.DerivesMember ts t)
    (hs : Ty.DerivesOthers us others) : Ty.DerivesOthers (bar :: ts ++ us) (t :: others)

end

/-- The tokens are written for names, each behind a comma. -/
inductive Ident.DeriveMore : List Token → List Ident → Prop where
  | nil : Ident.DeriveMore [] []
  | cons {comma t : Token} {name : String} {ts : List Token} {ids : List Ident}
    (hc : comma.kind = .symbol .comma) (h : t.kind = .identifier name)
    (hs : Ident.DeriveMore ts ids) : Ident.DeriveMore (comma :: t :: ts) (⟨name, t.range⟩ :: ids)

/-- The tokens are written for one or more names between commas. -/
inductive Ident.DeriveNames : List Token → List Ident → Prop where
  | mk {t : Token} {name : String} {ts : List Token} {ids : List Ident}
    (h : t.kind = .identifier name) (hs : Ident.DeriveMore ts ids) :
    Ident.DeriveNames (t :: ts) (⟨name, t.range⟩ :: ids)

/-- The tokens are written for the initial value of declared names, or for its absence. -/
inductive Declaration.DerivesInitializer : List Token → Option Expr → Prop where
  | none : Declaration.DerivesInitializer [] .none
  | some {t : Token} {ts : List Token} {e : Expr} (ht : t.kind = .symbol .equal)
    (he : Expr.Derives 3 ts e) : Declaration.DerivesInitializer (t :: ts) (.some e)

/-- The tokens are written for the declaration; a constant has an initial value. -/
inductive Declaration.Derives : List Token → Declaration → Prop where
  | mutable {keyword colon stop : Token} {ns ts is : List Token} {names : List Ident} {ty : Ty}
    {initializer : Option Expr} (hk : keyword.kind = .mutable) (hn : Ident.DeriveNames ns names)
    (hc : colon.kind = .symbol .colon) (ht : Ty.Derives ts ty)
    (hi : Declaration.DerivesInitializer is initializer) (hs : stop.kind = .symbol .semicolon) :
    Declaration.Derives (keyword :: (ns ++ colon :: (ts ++ (is ++ [stop]))))
      ⟨true, ty, names, initializer, keyword.range.through stop.range⟩
  | constant {keyword colon stop : Token} {ns ts is : List Token} {names : List Ident} {ty : Ty}
    {value : Expr} (hk : keyword.kind = .constant) (hn : Ident.DeriveNames ns names)
    (hc : colon.kind = .symbol .colon) (ht : Ty.Derives ts ty)
    (hi : Declaration.DerivesInitializer is (.some value))
    (hs : stop.kind = .symbol .semicolon) :
    Declaration.Derives (keyword :: (ns ++ colon :: (ts ++ (is ++ [stop]))))
      ⟨false, ty, names, .some value, keyword.range.through stop.range⟩

/-- The tokens are written for the statement, or for none: a semicolon alone. -/
inductive Statement.Derives : List Token → Option Statement → Prop where
  | empty {stop : Token} (h : stop.kind = .symbol .semicolon) : Statement.Derives [stop] .none
  | declaration {ts : List Token} {d : Declaration} (h : Declaration.Derives ts d) :
    Statement.Derives ts (.some (.declaration d))
  | expression {ts : List Token} {e : Expr} {stop : Token} (he : Expr.Derives 1 ts e)
    (hs : stop.kind = .symbol .semicolon) :
    Statement.Derives (ts ++ [stop]) (.some (.expression e))

/-- The tokens are written for the program, statement by statement. -/
inductive Program.Derives : List Token → Program → Prop where
  | nil : Program.Derives [] []
  | cons {ts us : List Token} {statement : Option Statement} {p : Program}
    (hs : Statement.Derives ts statement) (hp : Program.Derives us p) :
    Program.Derives (ts ++ us) (statement.toList ++ p)

end StackCompiler
