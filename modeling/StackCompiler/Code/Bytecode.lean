import StackCompiler.Code.Lower

/-!
# Bytecode

The result of compiling a unit: its instructions and the constants that they refer to, as bytes
and as a listing. `Program.generate` makes the bytecode of a program; an `Assembly` is bytecode in
the making, in which jumps can be written before it is known where they lead.
-/

namespace StackCompiler

/-- Instructions with their constants. -/
structure Bytecode where
  constants : ConstantPool := {}
  code : List Instruction := []
deriving DecidableEq, Repr, Inhabited

namespace Bytecode

/-- The instructions as bytes. -/
def encode (b : Bytecode) : List UInt8 :=
  b.code.flatMap Instruction.encode

/-- The lines of a listing. -/
def lines (b : Bytecode) : List String :=
  (if b.constants.entries.isEmpty then []
    else "constants:" :: b.constants.texts.map ("  " ++ ·)) ++
    "main:" :: b.code.map ("  " ++ ·.text)

/-- A listing of the constants, if there are any, and of the instructions. -/
def text (b : Bytecode) : String :=
  String.join (b.lines.map (· ++ "\n"))

end Bytecode

/-- Bytecode in the making. -/
structure Assembly where
  code : List Instruction := []
  lowering : Lowering := {}
deriving Inhabited

namespace Assembly

/-- The operand of a jump that leads nowhere yet. -/
def openTarget : List UInt8 := [0xFF, 0xFF, 0xFF, 0xFF]

/-- Adds a jump: its place, and the assembly that has it. -/
def emitJump (a : Assembly) (op : Opcode) : Except Defect Nat × Assembly :=
  if op.isJump then (.ok a.code.length, { a with code := a.code ++ [⟨op, openTarget, none⟩] })
  else (.error (.notAJump op), a)

/-- Lets the jump at `site` lead to the instruction that comes next. Its operand counts the
instructions that are passed over. -/
def patchJump (a : Assembly) (site : Nat) : Except Defect Unit × Assembly :=
  match a.code[site]? with
  | none => (.error (.noInstruction site), a)
  | some i =>
    if !i.opcode.isJump then (.error (.jumpExpected site i.opcode), a)
    else
      let distance := a.code.length - site - 1
      if Number.FitsSigned 32 distance then
        (.ok (), { a with code := a.code.set site { i with operands := Bytes.ofNat 4 distance } })
      else (.error .jumpTooFar, a)

/-- Adds the instructions of a program, and gives the whole with the slots that are then taken. -/
def generate (mode : ConstantMode) (p : Program) (a : Assembly) :
    Except Defect Bytecode × SlotTable :=
  match (p.lower mode).run a.lowering with
  | .ok code s => (.ok ⟨s.pool, a.code ++ code⟩, s.slots)
  | .error defect s => (.error defect, s.slots)

end Assembly

/-- The bytecode of a program for a slot table, and the slots that are taken afterwards. -/
def Program.generate (mode : ConstantMode) (p : Program) (slots : SlotTable) :
    Except Defect Bytecode × SlotTable :=
  Assembly.generate mode p { lowering.slots := slots }

end StackCompiler
