import StackCompiler.Number.Shortest

/-!
# Doubles in text

`ofText` reads the digits of a float literal. `text` writes a double with the fewest digits
that read back: positionally from `0.0001` up to `10 ^ 16` and with an exponent outside.
-/

namespace StackCompiler.Number

/-- The number that decimal digits stand for; other characters are passed over. -/
def ofDigits (digits : List Char) : Nat :=
  digits.foldl (fun n c => if c.isDigit then n * 10 + (c.toNat - '0'.toNat) else n) 0

/-- The double nearest to a number with the given digits before and after the point. -/
def ofText (whole fraction : List Char) : Float :=
  Float.ofScientific (ofDigits (whole ++ fraction)) true (fraction.countP Char.isDigit)

/-- Digits in positional form, with at least one digit on either side of the point. -/
def positional (digits : List Char) (exponent : Int) : List Char :=
  let point := digits.length + exponent
  if 0 ≤ exponent then digits ++ List.replicate exponent.toNat '0' ++ ['.', '0']
  else if 0 < point then digits.take point.toNat ++ '.' :: digits.drop point.toNat
  else '0' :: '.' :: List.replicate (-point).toNat '0' ++ digits

/-- Digits with a power of ten, the point after the first digit. -/
def scientific (digits : List Char) (exponent : Int) : List Char :=
  let fraction := digits.drop 1
  digits.take 1 ++ (if fraction.isEmpty then [] else '.' :: fraction) ++
    'e' :: (toString (digits.length - 1 + exponent)).toList

/-- A decimal, positionally if its first digit stands for at least `10 ^ -4` and less than
`10 ^ 16`. -/
def Decimal.text (d : Decimal) : List Char :=
  let digits := Nat.toDigits 10 d.digits
  let leading := digits.length - 1 + d.exponent
  if -4 ≤ leading ∧ leading < 16 then positional digits d.exponent
  else scientific digits d.exponent

/-- A double in text. -/
def text (x : Float) : String :=
  let sign := if isNegative x then "-" else ""
  if !isFinite x then if fractionBits x = 0 then sign ++ "inf" else "NaN"
  else if magnitude x = 0 then sign ++ "0.0"
  else sign ++ String.ofList (shortest x).text

end StackCompiler.Number
