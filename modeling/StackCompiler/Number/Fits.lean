/-!
# Integers of a fixed number of bits
-/

namespace StackCompiler.Number

/-- Whether so many bits hold the integer in two's complement. -/
def FitsSigned (bits : Nat) (n : Int) : Prop :=
  -(1 <<< (bits - 1) : Nat) ≤ n ∧ n < (1 <<< (bits - 1) : Nat)

/-- Whether so many bits hold the integer without a sign. -/
def FitsUnsigned (bits : Nat) (n : Int) : Prop :=
  0 ≤ n ∧ n < (1 <<< bits : Nat)

instance (bits : Nat) (n : Int) : Decidable (FitsSigned bits n) :=
  inferInstanceAs (Decidable (_ ∧ _))

instance (bits : Nat) (n : Int) : Decidable (FitsUnsigned bits n) :=
  inferInstanceAs (Decidable (_ ∧ _))

end StackCompiler.Number
