/-!
# Numbers as bytes

Little-endian bytes of natural numbers and, in two's complement, of integers.
-/

namespace StackCompiler.Bytes

/-- The lowest `width` bytes of a natural number, the lowest one first. -/
def ofNat : (width : Nat) → Nat → List UInt8
  | 0, _ => []
  | width + 1, n => n.toUInt8 :: ofNat width (n / 256)

/-- The natural number of bytes, the lowest one first. -/
def toNat : List UInt8 → Nat
  | [] => 0
  | b :: bs => b.toNat + 256 * toNat bs

/-- An integer in two's complement, reduced to `width` bytes. -/
def ofInt (width : Nat) (n : Int) : List UInt8 :=
  ofNat width (n % (1 <<< (8 * width) : Nat)).toNat

/-- The integer of bytes in two's complement. -/
def toInt (bytes : List UInt8) : Int :=
  Int.bmod (toNat bytes) (1 <<< (8 * bytes.length))

/-- The bytes of a double. -/
def ofFloat (x : Float) : List UInt8 :=
  ofNat 8 x.toBits.toNat

/-- The double of eight bytes. -/
def toFloat (bytes : List UInt8) : Float :=
  Float.ofBits (toNat bytes).toUInt64

@[simp] theorem length_ofNat (width n : Nat) : (ofNat width n).length = width := by
  induction width generalizing n with
  | zero => rfl
  | succ width ih => simp [ofNat, ih]

@[simp] theorem length_ofInt (width : Nat) (n : Int) : (ofInt width n).length = width := by
  simp [ofInt]

end StackCompiler.Bytes
