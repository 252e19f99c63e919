import StackCompiler.Code.Instruction
import StackCompiler.Code.Pool
import StackCompiler.Code.Slots
import StackCompiler.Program.Basic

/-!
# From programs to instructions

`Expr.lower` gives the instructions that evaluate an expression on a stack, and `Program.lower`
those of a program. Lowering an expression looks names up in the slot table and may add to the
constant pool; declarations add to the slot table.
-/

namespace StackCompiler

/-- Whether strings and floats are written into the instructions or kept in a pool. -/
inductive ConstantMode where
  | inline | pooled
deriving DecidableEq, Repr, Inhabited

/-- What lowering extends beside the instructions. -/
structure Lowering where
  slots : SlotTable := {}
  pool : ConstantPool := {}
deriving Inhabited

/-- A step of lowering, which may meet a defect and then keeps what was extended until there. -/
abbrev Lower := EStateM Defect Lowering

namespace Lower

/-- The slot of a name. -/
def slot (id : Ident) : Lower Slot := do
  match (← get).slots.get? id.name with
  | some slot => pure slot
  | none => throw (.missingSlot id)

/-- The slot of a name, which gets one if it has none. -/
def allocate (storage : Storage) (id : Ident) : Lower Slot := fun ⟨slots, pool⟩ =>
  match slots.allocate id.name storage with
  | (.ok slot, slots) => .ok slot ⟨slots, pool⟩
  | (.error defect, slots) => .error defect ⟨slots, pool⟩

/-- The number of a float or string in the pool. -/
def intern (d : Datum) : Lower Nat := fun ⟨slots, pool⟩ =>
  match pool.intern d with
  | (.ok index, pool) => .ok index ⟨slots, pool⟩
  | (.error defect, pool) => .error defect ⟨slots, pool⟩

end Lower

namespace Slot

/-- Pushes the value of the variable `name`. -/
def load (slot : Slot) (name : String) : Instruction :=
  ⟨.load slot.storage, Bytes.ofNat 2 slot.index, some name⟩

/-- Pops the value of the variable `name`. -/
def store (slot : Slot) (name : String) : Instruction :=
  ⟨.store slot.storage, Bytes.ofNat 2 slot.index, some name⟩

end Slot

/-- The operand of an instruction that holds the float or string itself; a string ends at a zero
byte. -/
def Datum.inlineOperands (d : Datum) : List UInt8 :=
  match d.tag with
  | .float => d.bytes
  | .string => d.bytes ++ [0]

/-- The instruction that holds a float or string itself. -/
def ConstantTag.inlineOpcode : ConstantTag → Opcode
  | float => .loadDouble
  | string => .loadString

/-- Loads a float or string. -/
def Datum.lower (mode : ConstantMode) (comment : String) (d : Datum) : Lower Instruction :=
  match mode with
  | .inline => pure ⟨d.tag.inlineOpcode, d.inlineOperands, some comment⟩
  | .pooled => do
    let index ← Lower.intern d
    pure ⟨.loadConstant, Bytes.ofNat 2 index, some comment⟩

/-- The remark on an integer that 64 bits do not hold. -/
def wrapComment? (value : Int) : Option String :=
  if Number.FitsSigned 64 value then none
  else some s!"{value} wrapped to {Int.bmod value (1 <<< 64)}"

/-- Loads a literal. A character is loaded as its code point, and null as zero. -/
def Literal.lower (mode : ConstantMode) : Literal → Lower Instruction
  | integer value => pure (.ofInteger value (wrapComment? value))
  | char value => pure (.ofInteger value.toNat (some s!"'{value}'"))
  | null => pure (.ofInteger 0)
  | float value =>
    Datum.lower mode (Number.text value) ⟨.float, Bytes.ofFloat value⟩
  | string value =>
    Datum.lower mode (Text.quoteString value) ⟨.string, Text.Utf8.encode value⟩

/-- How an operand becomes the value of an operator: the operand's instructions stand between
two lists of others. A negative is the difference from zero. -/
def UnaryOp.around : UnaryOp → List Instruction × List Instruction
  | not => ([], [⟨.not, [], none⟩])
  | bitNot => ([], [⟨.bitNot, [], none⟩])
  | negate => ([.ofInteger 0], [⟨.binary .subtract, [], none⟩])
  | plus => ([], [])

/-- The operator that changes a variable by one. -/
def UpdateOp.binary : UpdateOp → BinaryOp
  | increment => .add
  | decrement => .subtract

namespace Expr

mutual

/-- The instructions of an expression. -/
@[simp] def lower (mode : ConstantMode) : Expr → Lower (List Instruction)
  | literal value _ => do
    let i ← value.lower mode
    pure [i]
  | ident id => do
    let slot ← Lower.slot id
    pure [slot.load id.name]
  | binary op left right _ => do
    let l ← left.lower mode
    let r ← right.lower mode
    pure (l ++ r ++ [⟨.binary op, [], none⟩])
  | unary op operand _ => do
    let code ← operand.lower mode
    pure (op.around.1 ++ code ++ op.around.2)
  | update op _ target _ => do
    let slot ← Lower.slot target
    pure [slot.load target.name, .ofInteger 1, ⟨.binary op.binary, [], none⟩,
      slot.store target.name]
  | assign op target value _ => do
    let slot ← Lower.slot target
    let code ← value.lower mode
    match op with
    | .plain => pure (code ++ [slot.store target.name])
    | .compound op =>
      pure (slot.load target.name :: code ++ [⟨.binary op, [], none⟩, slot.store target.name])
  | sequence items _ => lowerAll mode items
  | array items _ => do
    if Number.FitsUnsigned 32 items.length then
      let code ← lowerAll mode items
      pure (⟨.loadArraySize, Bytes.ofNat 4 items.length, none⟩ :: code)
    else throw .arrayTooLong
  | index base position _ => do
    let b ← base.lower mode
    let p ← position.lower mode
    pure (b ++ p ++ [⟨.loadElement, [], none⟩])

/-- The instructions of expressions, one after the other. -/
@[simp] def lowerAll (mode : ConstantMode) : List Expr → Lower (List Instruction)
  | [] => pure []
  | e :: es => do
    let code ← e.lower mode
    let more ← lowerAll mode es
    pure (code ++ more)

end

end Expr

/-- The value of the first name copied to each of the others. -/
def copies (first : String × Slot) : List (String × Slot) → List Instruction
  | [] => []
  | (name, slot) :: others => first.2.load first.1 :: slot.store name :: copies first others

/-- The instructions of a declaration. All names get their slots before the initial value is
evaluated. -/
def Declaration.lower (mode : ConstantMode) (d : Declaration) : Lower (List Instruction) := do
  let slots ← d.names.mapM (Lower.allocate (.ofTy d.ty))
  match d.initializer, (d.names.map Ident.name).zip slots with
  | some e, first :: others =>
    let code ← e.lower mode
    pure (code ++ first.2.store first.1 :: copies first others)
  | _, _ => pure []

/-- The instructions of a statement. The value of an expression stays on the stack. -/
def Statement.lower (mode : ConstantMode) : Statement → Lower (List Instruction)
  | expression e => e.lower mode
  | declaration d => d.lower mode

/-- The instructions of a program. -/
def Program.lower (mode : ConstantMode) : Program → Lower (List Instruction)
  | [] => pure []
  | s :: p => do
    let code ← s.lower mode
    let more ← Program.lower mode p
    pure (code ++ more)

end StackCompiler
