import StackCompiler.Token.Stream

/-!
# From tokens to expressions

An expression is an operand that is continued as long as the next token binds it more tightly
than a given strength. `Expr.parse` reads one, `Expr.parseOperand` its first operand,
`Expr.parseRest` all its continuations and `Expr.parseContinued` one of them.
-/

namespace StackCompiler.Expr

mutual

/-- An expression whose operators all bind more tightly than `floor`. -/
def parse (floor : Nat) (ts : List Token) : Except Failure (Parsed Expr ts.length) := do
  let ⟨left, rest, h⟩ ← parseOperand ts
  let ⟨e, rest', h'⟩ ← parseRest floor left rest
  return ⟨e, rest', Parsed.lt_of_kept h' h⟩
termination_by 5 * ts.length + 3

/-- An operand: a constant, a name, an operator with its operand, an expression in parentheses
or an array. -/
def parseOperand : (ts : List Token) → Except Failure (Parsed Expr ts.length)
  | [] => .error (.internal .endOfTokens)
  | t :: ts =>
    match t.literal? with
    | some value => .ok ⟨literal value t.range, ts, Parsed.lt_cons t ts⟩
    | none =>
      match t.kind with
      | .identifier name => .ok ⟨ident ⟨name, t.range⟩, ts, Parsed.lt_cons t ts⟩
      | .symbol .leftParen => do
        let after ← peek ts
        if after.kind = .symbol .rightParen then
          refuse (t.range.through after.range) .emptyParentheses
        else
          let ⟨inner, rest, h⟩ ← parse 0 ts
          let ⟨_, rest', h'⟩ ← expect .rightParen rest
          return ⟨inner, rest', Nat.lt_succ_of_lt (Nat.lt_trans h' h)⟩
      | .symbol .leftBracket => do
        let ⟨items, rest, h⟩ ← parseItems ts
        let ⟨close, rest', h'⟩ ← expect .rightBracket rest
        return ⟨array items (t.range.through close.range), rest', Nat.lt_trans h' h⟩
      | .symbol s =>
        match s.update?, s.unary? with
        | some op, _ => do
          let ⟨operand, rest, h⟩ ← parse Continuation.operandStrength ts
          match operand with
          | ident id =>
            return ⟨update op true id (t.range.through id.range), rest, Parsed.lt_cons_of_lt h⟩
          | _ => refuse operand.range (.invalidUpdateTarget op)
        | none, some op => do
          let ⟨operand, rest, h⟩ ← parse Continuation.operandStrength ts
          return ⟨applied op operand t.range, rest, Parsed.lt_cons_of_lt h⟩
        | none, none => refuse t.range (.expectedExpression t.describe)
      | _ => refuse t.range (.expectedExpression t.describe)
termination_by ts => 5 * ts.length + 2

/-- The items of an array up to its closing bracket, which stays. -/
def parseItems (ts : List Token) : Except Failure (Parsed (List Expr) (ts.length + 1)) := do
  let t ← peek ts
  if t.kind = .symbol .rightBracket then
    return ⟨[], ts, Nat.lt_succ_self _⟩
  else
    let ⟨item, rest, h⟩ ← parse Continuation.sequenceStrength ts
    let ⟨items, rest', h'⟩ ← parseMoreItems rest
    return ⟨item :: items, rest', Nat.lt_succ_of_lt (Parsed.lt_of_kept h' h)⟩
termination_by 5 * ts.length + 4

/-- The items of an array after one of them. -/
def parseMoreItems : (ts : List Token) → Except Failure (Parsed (List Expr) (ts.length + 1))
  | [] => .error (.internal .endOfTokens)
  | t :: ts =>
    if t.kind = .symbol .comma then do
      let ⟨item, rest, h⟩ ← parse Continuation.sequenceStrength ts
      let ⟨items, rest', h'⟩ ← parseMoreItems rest
      return ⟨item :: items, rest',
        Nat.lt_succ_of_lt (Nat.lt_succ_of_lt (Parsed.lt_of_kept h' h))⟩
    else .ok ⟨[], t :: ts, Nat.lt_succ_self _⟩
termination_by ts => 5 * ts.length

/-- The expression that starts with `left` and goes on while the next token binds more tightly
than `floor`. -/
def parseRest (floor : Nat) (left : Expr) :
    (ts : List Token) → Except Failure (Parsed Expr (ts.length + 1))
  | [] => .error (.internal .endOfTokens)
  | t :: ts =>
    match t.continuation? with
    | none => .ok ⟨left, t :: ts, Nat.lt_succ_self _⟩
    | some c =>
      if c.strength ≤ floor then .ok ⟨left, t :: ts, Nat.lt_succ_self _⟩
      else do
        let ⟨e, rest, h⟩ ← parseContinued c left t ts
        let ⟨e', rest', h'⟩ ← parseRest floor e rest
        return ⟨e', rest', Nat.lt_succ_of_lt (Parsed.lt_of_kept h' h)⟩
termination_by ts => 5 * ts.length + 1
decreasing_by
  · simp only [List.length_cons]
    omega
  · exact Nat.succ_lt_succ ((Nat.mul_lt_mul_left (by decide)).2 h)

/-- The operand `left` with the continuation that the token `t` starts. -/
def parseContinued (c : Continuation) (left : Expr) (t : Token) (ts : List Token) :
    Except Failure (Parsed Expr (ts.length + 1)) :=
  match c with
  | .update op =>
    match left with
    | ident id => .ok ⟨update op false id (id.range.through t.range), ts, Nat.lt_succ_self _⟩
    | _ => refuse left.range (.invalidUpdateTarget op)
  | .index => do
    let ⟨position, rest, h⟩ ← parse 0 ts
    let ⟨close, rest', h'⟩ ← expect .rightBracket rest
    return ⟨index left position (left.range.through close.range), rest',
      Nat.lt_succ_of_lt (Nat.lt_trans h' h)⟩
  | .sequence => do
    let ⟨right, rest, h⟩ ← parse Continuation.sequenceStrength ts
    return ⟨followedBy left right, rest, Nat.lt_succ_of_lt h⟩
  | .assign op =>
    match left with
    | ident id => do
      let ⟨value, rest, h⟩ ← parse Continuation.assignStrength ts
      return ⟨assigned op id value, rest, Nat.lt_succ_of_lt h⟩
    | _ => refuse left.range (.invalidAssignmentTarget op)
  | .binary op => do
    let ⟨right, rest, h⟩ ← parse op.strength ts
    return ⟨joined op left right, rest, Nat.lt_succ_of_lt h⟩
termination_by 5 * ts.length + 4

end

end StackCompiler.Expr
