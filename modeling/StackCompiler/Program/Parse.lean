import StackCompiler.Program.Basic
import StackCompiler.Ty.Parse

/-!
# From tokens to programs

`Program.parse` reads statements up to the end of the text. Statements end at a semicolon, and a
semicolon alone is no statement.
-/

namespace StackCompiler

/-- A name. -/
def Ident.parse (ts : List Token) : Except Failure (Parsed Ident ts.length) := do
  let ⟨t, rest, h⟩ ← next ts
  match t.kind with
  | .identifier name => return ⟨⟨name, t.range⟩, rest, h⟩
  | _ => refuse t.range (.expectedIdentifier t.describe)

/-- Names after a first one, each behind a comma. -/
def Ident.parseMore : (ts : List Token) → Except Failure (Parsed (List Ident) (ts.length + 1))
  | [] => .error (.internal .endOfTokens)
  | t :: ts =>
    if t.kind = .symbol .comma then do
      let ⟨id, rest, h⟩ ← Ident.parse ts
      let ⟨ids, rest', h'⟩ ← Ident.parseMore rest
      return ⟨id :: ids, rest',
        Nat.lt_succ_of_lt (Nat.lt_succ_of_lt (Parsed.lt_of_kept h' h))⟩
    else .ok ⟨[], t :: ts, Nat.lt_succ_self _⟩
termination_by ts => ts.length

/-- One or more names between commas. -/
def Ident.parseAll (ts : List Token) : Except Failure (Parsed (List Ident) ts.length) := do
  let ⟨id, rest, h⟩ ← Ident.parse ts
  let ⟨ids, rest', h'⟩ ← Ident.parseMore rest
  return ⟨id :: ids, rest', Parsed.lt_of_kept h' h⟩

namespace Declaration

/-- The initial value of declared names, if there is one. -/
def parseInitializer :
    (ts : List Token) → Except Failure (Parsed (Option Expr) (ts.length + 1))
  | [] => .error (.internal .endOfTokens)
  | t :: ts =>
    if t.kind = .symbol .equal then do
      let ⟨e, rest, h⟩ ← Expr.parse Continuation.assignStrength ts
      return ⟨some e, rest, Nat.lt_succ_of_lt (Nat.lt_succ_of_lt h)⟩
    else .ok ⟨none, t :: ts, Nat.lt_succ_self _⟩

/-- A declaration after the keyword `t`; a constant needs an initial value. -/
def parse (isMutable : Bool) (t : Token) (ts : List Token) :
    Except Failure (Parsed Declaration ts.length) := do
  let ⟨names, afterNames, h₁⟩ ← Ident.parseAll ts
  let ⟨_, afterColon, h₂⟩ ← expect .colon afterNames
  let ⟨ty, afterType, h₃⟩ ← Ty.parse afterColon
  let ⟨initializer, rest, h₄⟩ ← parseInitializer afterType
  if !isMutable && initializer.isNone then
    let after ← peek rest
    refuse (t.range.through after.range) (.missingInitializer (names.map Ident.name))
  else
    let ⟨stop, rest, h₅⟩ ← expect .semicolon rest
    return ⟨⟨isMutable, ty, names, initializer, t.range.through stop.range⟩, rest,
      Nat.lt_trans h₅ (Parsed.lt_of_kept h₄ (Nat.lt_trans h₃ (Nat.lt_trans h₂ h₁)))⟩

end Declaration

/-- A statement, or `none` for a semicolon alone. -/
def Statement.parse : (ts : List Token) → Except Failure (Parsed (Option Statement) ts.length)
  | [] => .error (.internal .endOfTokens)
  | t :: ts =>
    match t.kind with
    | .symbol .semicolon => .ok ⟨none, ts, Parsed.lt_cons t ts⟩
    | .mutable => do
      let ⟨d, rest, h⟩ ← Declaration.parse true t ts
      return ⟨some (.declaration d), rest, Parsed.lt_cons_of_lt h⟩
    | .constant => do
      let ⟨d, rest, h⟩ ← Declaration.parse false t ts
      return ⟨some (.declaration d), rest, Parsed.lt_cons_of_lt h⟩
    | .reserved word => refuse t.range (.unsupported word)
    | _ => do
      let ⟨e, rest, h⟩ ← Expr.parse 0 (t :: ts)
      let ⟨_, rest, h'⟩ ← expect .semicolon rest
      return ⟨some (.expression e), rest, Parsed.lt_trans h' h⟩

/-- The program that stands before the end of the text. -/
def Program.parse (ts : List Token) : Except Failure Program := do
  let t ← peek ts
  if t.kind = .eof then return []
  else
    let ⟨statement, rest, _⟩ ← Statement.parse ts
    let statements ← Program.parse rest
    return statement.toList ++ statements
termination_by ts.length

end StackCompiler
