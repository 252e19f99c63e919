/-!
# Doubles as whole numbers of a smallest unit

Every finite double is a whole number of units of `2 ^ -1074`, with a sign. `magnitude` gives
that number and `ofMagnitude` the double with it; `spacing` is the distance to the next larger
double in the same units. The remainder of two doubles is then a remainder of whole numbers.
-/

namespace StackCompiler.Number

/-- The value of the bit that normal doubles leave out, above their fifty-two fraction bits. -/
def hiddenBit : Nat := 1 <<< 52

/-- The eleven exponent bits. -/
def exponentBits (x : Float) : Nat :=
  (x.toBits.toNat >>> 52) % 2048

/-- The fifty-two fraction bits. -/
def fractionBits (x : Float) : Nat :=
  x.toBits.toNat % hiddenBit

/-- Whether the sign bit is set. -/
def isNegative (x : Float) : Bool :=
  x.toBits.toNat >>> 63 == 1

/-- Neither infinite nor undefined. -/
def isFinite (x : Float) : Bool :=
  exponentBits x != 2047

/-- Distance from a finite double to the next one away from zero, in units. -/
def spacing (x : Float) : Nat :=
  1 <<< (exponentBits x - 1)

/-- The absolute value of a finite double, in units. -/
def magnitude (x : Float) : Nat :=
  if exponentBits x = 0 then fractionBits x
  else (hiddenBit + fractionBits x) * spacing x

/-- The double of a magnitude that a double has. -/
def ofMagnitude (negative : Bool) (units : Nat) : Float :=
  let sign := if negative then 1 <<< 63 else 0
  let shift := units.log2 - 52
  let bits :=
    if shift = 0 then units else (shift + 1) * hiddenBit + ((units >>> shift) - hiddenBit)
  Float.ofBits (sign + bits).toUInt64

/-- What is left of `x` after taking away `y` as often as it fits, with the sign of `x`. It is
not defined for an infinite `x` and for a zero `y`; an infinite `y` never fits. -/
def remainder? (x y : Float) : Option Float :=
  if !isFinite x then none
  else if !isFinite y then if fractionBits y = 0 then some x else none
  else if magnitude y = 0 then none
  else some (ofMagnitude (isNegative x) (magnitude x % magnitude y))

end StackCompiler.Number
