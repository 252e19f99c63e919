import StackCompiler.Number.Fits

/-!
# Scalar types

The types that one keyword names: integers and floats of several widths, strings and
characters. Widths are ordered by `IntWidth.wider`, and `IntWidth.ofLiteral?` is the width
class of an integer literal.
-/

namespace StackCompiler

/-- Widths of integer types, unsigned and signed. -/
inductive IntWidth where
  | u1 | u8 | u16 | u32 | u64
  | i8 | i16 | i32 | i64
deriving DecidableEq, Repr, Inhabited

namespace IntWidth

/-- Number of bits of a value. -/
def bits : IntWidth → Nat
  | u1 => 1
  | u8 | i8 => 8
  | u16 | i16 => 16
  | u32 | i32 => 32
  | u64 | i64 => 64

/-- Whether negative values are included. -/
def isSigned : IntWidth → Bool
  | i8 | i16 | i32 | i64 => true
  | _ => false

/-- The width as it is written in types. -/
def text : IntWidth → String
  | u1 => "u1"
  | u8 => "u8"
  | u16 => "u16"
  | u32 => "u32"
  | u64 => "u64"
  | i8 => "i8"
  | i16 => "i16"
  | i32 => "i32"
  | i64 => "i64"

/-- All widths. -/
def all : List IntWidth := [u1, u8, u16, u32, u64, i8, i16, i32, i64]

/-- The width class of an integer literal, and `none` for a value that no 64-bit type holds. -/
def ofLiteral? (value : Int) : Option IntWidth :=
  if value = 0 ∨ value = 1 then some u1
  else if Number.FitsSigned 32 value then some i32
  else if Number.FitsSigned 64 value then some i64
  else if Number.FitsUnsigned 64 value then some u64
  else none

/-- The wider of two widths; of two equally wide ones the signed one. -/
def wider (a b : IntWidth) : IntWidth :=
  if a.bits < b.bits ∨ (a.bits = b.bits ∧ b.isSigned ∧ ¬ a.isSigned) then b else a

end IntWidth

/-- Widths of float types. -/
inductive FloatWidth where
  | f32 | f64
deriving DecidableEq, Repr, Inhabited

/-- The width as it is written in types. -/
def FloatWidth.text : FloatWidth → String
  | f32 => "float"
  | f64 => "double"

/-- Types that one keyword names. -/
inductive Scalar where
  | integer (width : IntWidth)
  | float (width : FloatWidth)
  | string
  | char
deriving DecidableEq, Repr, Inhabited

/-- The scalar type as it is written in types. -/
def Scalar.text : Scalar → String
  | integer width => width.text
  | float width => width.text
  | string => "str"
  | char => "chr"

end StackCompiler
