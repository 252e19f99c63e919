import StackCompiler.Number.Binary64

/-!
# The shortest decimal of a double

Of all decimals that are nearer to a double than to any other one, `shortest` takes those on
the coarsest grid of multiples of a power of ten, and of them the one nearest to the double.
Such a decimal has the fewest digits, and reading it gives the double back.
-/

namespace StackCompiler.Number

/-- The decimal `digits * 10 ^ exponent`. -/
structure Decimal where
  digits : Nat
  exponent : Int
deriving DecidableEq, Repr

/-- The reals that round to a positive double: those from `lower` to `upper`, in quarters of a
unit, the two ends included if `closed`. -/
structure Neighbourhood where
  value : Nat
  lower : Nat
  upper : Nat
  closed : Bool

/-- The reals that round to `x`. Below a power of two the doubles lie twice as dense; a real
halfway between two doubles rounds to the one with an even fraction. -/
def neighbourhood (x : Float) : Neighbourhood :=
  let value := 4 * magnitude x
  let below := if fractionBits x = 0 ∧ 1 < exponentBits x then spacing x else 2 * spacing x
  ⟨value, value - below, value + 2 * spacing x, fractionBits x % 2 == 0⟩

/-- Quarters of the unit `2 ^ -1074` in one. -/
def quarters : Nat := 1 <<< 1076

/-- A point of the grid with step `10 ^ exponent` that rounds to the double: the nearer one of
the double's two neighbours on the grid, and the upper one if both are equally near. -/
def Neighbourhood.onGrid? (n : Neighbourhood) (exponent : Int) : Option Nat :=
  let scale := Nat.pow 10 (-exponent).toNat
  let step := quarters * Nat.pow 10 exponent.toNat
  let value := n.value * scale
  let inside (point : Nat) : Bool :=
    if n.closed then n.lower * scale ≤ point * step && point * step ≤ n.upper * scale
    else n.lower * scale < point * step && point * step < n.upper * scale
  let below := value / step
  let above := below + 1
  match inside below, inside above with
  | true, true => if value - below * step < above * step - value then some below else some above
  | true, false => some below
  | false, true => some above
  | false, false => none

/-- The point on the coarsest grid, from the step `10 ^ (fineness - 324)` down. The grid with
step `10 ^ -324` is finer than the distance between any two doubles. -/
def Neighbourhood.coarsest (n : Neighbourhood) : Nat → Decimal
  | 0 => ⟨(n.onGrid? (-324)).getD 0, -324⟩
  | fineness + 1 =>
    let exponent : Int := (fineness + 1 : Nat) - 324
    match n.onGrid? exponent with
    | some digits => ⟨digits, exponent⟩
    | none => n.coarsest fineness

/-- The shortest decimal that reads back as the absolute value of `x`, for a finite `x` other
than zero. -/
def shortest (x : Float) : Decimal :=
  (neighbourhood x).coarsest 633

end StackCompiler.Number
