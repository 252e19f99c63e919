import StackCompiler.Code.Bytes
import StackCompiler.Code.Opcode
import StackCompiler.Text.Hex

/-!
# Instructions

An instruction is a code with the bytes of its operands, and a comment that only listings show.
-/

namespace StackCompiler

/-- Instructions. -/
structure Instruction where
  opcode : Opcode
  operands : List UInt8 := []
  comment : Option String := none
deriving DecidableEq, Repr, Inhabited

namespace Instruction

/-- The bytes of an instruction. -/
def encode (i : Instruction) : List UInt8 :=
  i.opcode.byte :: i.operands

/-- The instruction in a listing. -/
def text (i : Instruction) : String :=
  i.opcode.mnemonic ++
    String.join (i.operands.map fun b => " 0x" ++ Text.upperHex 2 b.toNat) ++
    (match i.comment with
      | some comment => " // " ++ comment
      | none => "")

/-- The code and operand of the smallest signed immediate that holds the value. A value beyond 64
bits is reduced modulo `2 ^ 64`. -/
def immediate (value : Int) : Opcode × List UInt8 :=
  if Number.FitsSigned 8 value then (.loadImmediate8, Bytes.ofInt 1 value)
  else if Number.FitsSigned 16 value then (.loadImmediate16, Bytes.ofInt 2 value)
  else if Number.FitsSigned 32 value then (.loadImmediate32, Bytes.ofInt 4 value)
  else (.loadImmediate64, Bytes.ofInt 8 value)

/-- Loads an integer. -/
def ofInteger (value : Int) (comment : Option String := none) : Instruction :=
  ⟨(immediate value).1, (immediate value).2, comment⟩

end Instruction

end StackCompiler
