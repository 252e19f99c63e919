import StackCompiler.Environment
import StackCompiler.Fault
import StackCompiler.Program.Basic
import StackCompiler.Ty.Accepts
import StackCompiler.Ty.Union

/-!
# Type checking

`UnaryOp.result?` and `BinaryOp.result?` give the type of an operator's value for the types of
its operands. `Expr.check`, `Statement.check` and `Program.check` walk a program once, in order,
against an environment; they bind and initialize its names, collect warnings and stop at the
first mistake, keeping what was found until then.
-/

namespace StackCompiler

/-- What a check has found so far. -/
structure Checking where
  environment : Environment := {}
  warnings : List Warning := []
deriving DecidableEq, Inhabited

/-- A check: it reads and extends what has been found, and may end at a mistake. -/
abbrev Check := EStateM Complaint Checking

/-- The integer type that holds the results of two integer types. -/
def Ty.widest? (left right : Ty) : Option Ty :=
  match left.integerWidth?, right.integerWidth? with
  | some l, some r => some (.integer (l.wider r))
  | _, _ => none

/-- The type of a calculation: `double` if one side may be a float. -/
def Ty.arithmetic? (left right : Ty) : Option Ty :=
  if !left.isNumeric || !right.isNumeric then none
  else if left.mayBeFloat || right.mayBeFloat then some (.float .f64)
  else left.widest? right

/-- The type of an operator's value. -/
def UnaryOp.result? (op : UnaryOp) (t : Ty) : Option Ty :=
  match op with
  | negate | plus => if t.isNumeric then some t else none
  | bitNot => if t.isInteger then some t else none
  | not => if t ≠ .null then some .truth else none

/-- The type of an operator's value. Strings can be joined, and repeated an integer number of
times; any two values can be compared for equality. -/
def BinaryOp.result? (op : BinaryOp) (l r : Ty) : Option Ty :=
  match op with
  | add => if l = .string ∧ r = .string then some .string else l.arithmetic? r
  | multiply =>
    if (l = .string ∧ r.isInteger) ∨ (l.isInteger ∧ r = .string) then some .string
    else l.arithmetic? r
  | subtract | divide | modulo | power => l.arithmetic? r
  | less | greater | lessEqual | greaterEqual =>
    if (l.isNumeric ∧ r.isNumeric) ∨ (l = .string ∧ r = .string) ∨
        (l = .char ∧ r = .char) then
      some .truth
    else none
  | equal | notEqual => some .truth
  | and | or => if l ≠ .null ∧ r ≠ .null then some .truth else none
  | shiftLeft | shiftRight | bitAnd | bitOr | bitXor =>
    if l.isInteger ∧ r.isInteger then l.widest? r else none

/-- The type of the elements of an array or a string. -/
def Ty.indexed? : Ty → Option Ty
  | array element _ => some element
  | scalar .string => some .char
  | _ => none

namespace Check

/-- Ends the check at a mistake with a name. -/
def nameFault {α : Type} (range : Range) (cause : NameFault) : Check α :=
  throw ⟨range, .name cause⟩

/-- Ends the check at a mistake with a type. -/
def typeFault {α : Type} (range : Range) (cause : TypeFault) : Check α :=
  throw ⟨range, .type cause⟩

/-- The value, or a mistake with a type. -/
def orTypeFault {α : Type} (range : Range) (cause : TypeFault) : Option α → Check α
  | some a => pure a
  | none => typeFault range cause

/-- What a name stands for. -/
def lookup (id : Ident) : Check Variable := do
  match (← get).environment.get? id.name with
  | some v => pure v
  | none => nameFault id.range (.undeclared id.name)

/-- Adds a warning. -/
def warn (w : Warning) : Check Unit :=
  modify fun s => { s with warnings := s.warnings ++ [w] }

/-- Marks what a name stands for as initialized. -/
def markInitialized (name : String) : Check Unit :=
  modify fun s => { s with environment := s.environment.mark name }

/-- Binds a name. -/
def define (id : Ident) (v : Variable) : Check Unit := do
  let (result, environment) := (← get).environment.define id.name v
  modify fun s => { s with environment }
  match result with
  | .ok _ => pure ()
  | .error _ => nameFault id.range (.alreadyDeclared id.name)

/-- The value of `found` must be usable where `expected` is asked for. -/
def demand (range : Range) (expected found : Ty) : Check Unit :=
  if expected.accepts found then pure ()
  else typeFault range (.mismatch expected found)

end Check

/-- The type of a constant. An integer that no type holds is warned about and counts as one of the
widest types. -/
def Literal.check (range : Range) : Literal → Check Ty
  | integer value =>
    match IntWidth.ofLiteral? value with
    | some width => pure (.integer width)
    | none => do
      Check.warn ⟨range, value⟩
      pure (.integer (if 0 < value then .u64 else .i64))
  | float _ => pure (.float .f64)
  | string _ => pure .string
  | char _ => pure .char
  | null => pure .null

namespace Expr

mutual

/-- The type of an expression. -/
@[simp] def check : Expr → Check Ty
  | literal value range => value.check range
  | ident id => do
    let v ← Check.lookup id
    if v.isInitialized then pure v.ty
    else Check.typeFault id.range (.uninitialized id.name)
  | binary op left right range => do
    let l ← left.check
    let r ← right.check
    Check.orTypeFault range (.invalidBinary op l r) (op.result? l r)
  | unary op operand range => do
    let t ← operand.check
    Check.orTypeFault range (.invalidUnary op t) (op.result? t)
  | update op _ target range => do
    let v ← Check.lookup target
    if !v.isMutable then Check.typeFault range (.immutableAssignment target.name)
    else if !v.isInitialized then Check.typeFault range (.uninitializedUpdate op target.name)
    else if !v.ty.isNumeric then Check.typeFault range (.invalidUpdate op v.ty)
    else pure v.ty
  | assign op target value _ => do
    let v ← Check.lookup target
    if !v.isMutable then Check.typeFault target.range (.immutableAssignment target.name)
    else
      match op with
      | .plain =>
        let t ← value.check
        Check.demand value.range v.ty t
      | .compound op =>
        if !v.isInitialized then Check.typeFault target.range (.uninitialized target.name)
        else
          let r ← value.check
          let t ← Check.orTypeFault (target.range.through value.range) (.invalidBinary op v.ty r)
            (op.result? v.ty r)
          Check.demand value.range v.ty t
      Check.markInitialized target.name
      pure .null
  | sequence items _ => do
    let ts ← checkAll items
    pure (ts.getLastD .null)
  | array items _ => do
    let ts ← checkAll items
    pure (.array (.merge ts) none)
  | index base position _ => do
    let t ← base.check
    let element ← Check.orTypeFault base.range (.notIndexable t) t.indexed?
    let p ← position.check
    if p.isInteger then pure element
    else Check.typeFault position.range (.invalidIndex p)

/-- The types of expressions, from left to right. -/
@[simp] def checkAll : List Expr → Check (List Ty)
  | [] => pure []
  | e :: es => do
    let t ← e.check
    let ts ← checkAll es
    pure (t :: ts)

end

end Expr

/-- A length must be an integer. -/
def Expr.checkLength (e : Expr) : Check Unit := do
  let t ← e.check
  if t.isInteger then pure ()
  else Check.typeFault e.range (.invalidLength t)

/-- Lengths must be integers; the initial value must suit the type, and the names are bound
afterwards. -/
def Declaration.check (d : Declaration) : Check Unit := do
  d.ty.lengths.forM Expr.checkLength
  match d.initializer with
  | some e =>
    let t ← e.check
    Check.demand e.range d.ty t
  | none => pure ()
  d.names.forM fun id => Check.define id ⟨d.ty, d.isMutable, d.initializer.isSome⟩

/-- Checks a statement. -/
def Statement.check : Statement → Check Unit
  | expression e => do
    let _ ← e.check
    pure ()
  | declaration d => d.check

/-- Checks the statements of a program in order. -/
def Program.check (p : Program) : Check Unit :=
  p.forM Statement.check

end StackCompiler
