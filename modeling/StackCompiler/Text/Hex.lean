/-!
# Hexadecimal digits
-/

namespace StackCompiler.Text

/-- The hexadecimal digits of `n`, without leading zeros, in lower case. -/
def hexDigits (n : Nat) : List Char :=
  Nat.toDigits 16 n

/-- The hexadecimal digits of `n` in upper case, with zeros in front up to `width` digits. -/
def upperHex (width n : Nat) : String :=
  let digits := (hexDigits n).map Char.toUpper
  String.ofList (List.replicate (width - digits.length) '0' ++ digits)

end StackCompiler.Text
