import StackCompiler.Expr.Parse
import StackCompiler.Ty.Union

/-!
# From tokens to types

A type is a list of members between bars; a member is a scalar type, null or a type in
parentheses, and pairs of brackets behind it make it an array.
-/

namespace StackCompiler.Ty

/-- The array types that pairs of brackets make of the type `t`; a length binds more tightly than
an assignment. -/
def parseBrackets (t : Ty) : (ts : List Token) → Except Failure (Parsed Ty (ts.length + 1))
  | [] => .error (.internal .endOfTokens)
  | u :: ts =>
    if u.kind = .symbol .leftBracket then do
      let after ← peek ts
      if after.kind = .symbol .rightBracket then
        let ⟨_, rest, h⟩ ← expect .rightBracket ts
        let ⟨t', rest', h'⟩ ← parseBrackets (array t none) rest
        return ⟨t', rest', Nat.lt_succ_of_lt (Nat.lt_succ_of_lt (Parsed.lt_of_kept h' h))⟩
      else
        let ⟨length, rest, h⟩ ← Expr.parse Continuation.assignStrength ts
        let ⟨_, rest', h'⟩ ← expect .rightBracket rest
        let ⟨t', rest'', h''⟩ ← parseBrackets (array t (some length)) rest'
        return ⟨t', rest'',
          Nat.lt_succ_of_lt (Nat.lt_succ_of_lt (Parsed.lt_of_kept h'' (Nat.lt_trans h' h)))⟩
    else .ok ⟨t, u :: ts, Nat.lt_succ_self _⟩
termination_by ts => ts.length

mutual

/-- A type. -/
def parse (ts : List Token) : Except Failure (Parsed Ty ts.length) := do
  let ⟨first, rest, h⟩ ← parseMember ts
  let ⟨others, rest', h'⟩ ← parseOthers rest
  return ⟨if others.isEmpty then first else join (first :: others), rest',
    Parsed.lt_of_kept h' h⟩
termination_by 3 * ts.length + 2

/-- A member of a type. -/
def parseMember : (ts : List Token) → Except Failure (Parsed Ty ts.length)
  | [] => .error (.internal .endOfTokens)
  | t :: ts =>
    match t.kind with
    | .typeName s => do
      let ⟨ty, rest, h⟩ ← parseBrackets (scalar s) ts
      return ⟨ty, rest, h⟩
    | .null => do
      let ⟨ty, rest, h⟩ ← parseBrackets null ts
      return ⟨ty, rest, h⟩
    | .symbol .leftParen => do
      let ⟨inner, rest, h⟩ ← parse ts
      let ⟨_, rest', h'⟩ ← expect .rightParen rest
      let ⟨ty, rest'', h''⟩ ← parseBrackets inner rest'
      return ⟨ty, rest'', Nat.lt_succ_of_lt (Parsed.lt_of_kept h'' (Nat.lt_trans h' h))⟩
    | _ => refuse t.range (.expectedType t.describe)
termination_by ts => 3 * ts.length + 1

/-- The members of a type after the first. -/
def parseOthers : (ts : List Token) → Except Failure (Parsed (List Ty) (ts.length + 1))
  | [] => .error (.internal .endOfTokens)
  | t :: ts =>
    if t.kind = .symbol .pipe then do
      let ⟨member, rest, h⟩ ← parseMember ts
      let ⟨members, rest', h'⟩ ← parseOthers rest
      return ⟨member :: members, rest',
        Nat.lt_succ_of_lt (Nat.lt_succ_of_lt (Parsed.lt_of_kept h' h))⟩
    else .ok ⟨[], t :: ts, Nat.lt_succ_self _⟩
termination_by ts => 3 * ts.length

end

end StackCompiler.Ty
