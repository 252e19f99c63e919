import StackCompiler.Number.Fits
import StackCompiler.Operator

/-!
# Integers of 128 bits

Constant integers have 128 bits in two's complement. `integerResult?` gives the exact result of
an operator on two of them, and nothing where the exact result is no such integer or does not
exist.
-/

namespace StackCompiler.Number

/-- The integer itself where 128 bits hold it. -/
def checked? (n : Int) : Option Int :=
  if FitsSigned 128 n then some n else none

/-- One for true and zero for false. -/
def ofTruth (b : Bool) : Int :=
  if b then 1 else 0

/-- A power with an exponent of 32 bits. The powers of `-1`, `0` and `1` repeat after two steps,
and from the exponent 128 on no other power fits. -/
def power? (l r : Int) : Option Int :=
  if ¬ FitsUnsigned 32 r then none
  else if l.natAbs ≤ 1 then some (l.pow (if r = 0 then 0 else 2 - r.toNat % 2))
  else if 128 ≤ r then none
  else checked? (l.pow r.toNat)

/-- A bitwise operation on the two's complement of both operands. -/
def bitwise (f : BitVec 128 → BitVec 128 → BitVec 128) (l r : Int) : Int :=
  (f (BitVec.ofInt 128 l) (BitVec.ofInt 128 r)).toInt

/-- A shift by fewer than 128 places in two's complement. What leaves the 128 bits is lost, so the
result counts only if shifting it back gives the integer again. -/
def shiftLeft? (l r : Int) : Option Int :=
  if 0 ≤ r ∧ r < 128 then
    let shifted := BitVec.ofInt 128 l <<< r.toNat
    if shifted.sshiftRight r.toNat = BitVec.ofInt 128 l then some shifted.toInt else none
  else none

/-- A shift by fewer than 128 places in two's complement, in which the sign is repeated. -/
def shiftRight? (l r : Int) : Option Int :=
  if 0 ≤ r ∧ r < 128 then some ((BitVec.ofInt 128 l).sshiftRight r.toNat).toInt else none

/-- The result of an operator on two integers. Quotients are cut off toward zero, and a remainder
has the sign of the dividend and exists where the quotient does. -/
def integerResult? (op : BinaryOp) (l r : Int) : Option Int :=
  match op with
  | .add => checked? (l + r)
  | .subtract => checked? (l - r)
  | .multiply => checked? (l * r)
  | .divide => if r = 0 then none else checked? (l.tdiv r)
  | .modulo => if r = 0 then none else (checked? (l.tdiv r)).map fun _ => l.tmod r
  | .power => power? l r
  | .shiftLeft => shiftLeft? l r
  | .shiftRight => shiftRight? l r
  | .bitAnd => some (bitwise (· &&& ·) l r)
  | .bitOr => some (bitwise (· ||| ·) l r)
  | .bitXor => some (bitwise (· ^^^ ·) l r)
  | .equal => some (ofTruth (l = r))
  | .notEqual => some (ofTruth (l ≠ r))
  | .less => some (ofTruth (l < r))
  | .greater => some (ofTruth (l > r))
  | .lessEqual => some (ofTruth (l ≤ r))
  | .greaterEqual => some (ofTruth (l ≥ r))
  | .and => some (ofTruth (l ≠ 0 ∧ r ≠ 0))
  | .or => some (ofTruth (l ≠ 0 ∨ r ≠ 0))

end StackCompiler.Number
