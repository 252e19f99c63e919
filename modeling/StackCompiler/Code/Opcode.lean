import StackCompiler.Operator
import StackCompiler.Ty.Basic

/-!
# Instruction codes

The instructions of the stack machine. Loads and stores of variables come in one form for each
storage class; every instruction code is one byte.
-/

namespace StackCompiler

/-- How the slot of a variable is stored. -/
inductive Storage where
  | byte | short | int | long
  | unsignedByte | unsignedShort | unsignedInt | unsignedLong
  | float | double | string | array | any
deriving DecidableEq, Repr, Inhabited

namespace Storage

/-- All storage classes, in the order of their codes. -/
def all : List Storage :=
  [byte, short, int, long, unsignedByte, unsignedShort, unsignedInt, unsignedLong, float, double,
   string, array, any]

/-- Place of the class among the codes of loads and of stores. -/
def code : Storage → UInt8
  | byte => 0x0
  | short => 0x1
  | int => 0x2
  | long => 0x3
  | unsignedByte => 0x4
  | unsignedShort => 0x5
  | unsignedInt => 0x6
  | unsignedLong => 0x7
  | float => 0x8
  | double => 0x9
  | string => 0xA
  | array => 0xB
  | any => 0xC

/-- How the class ends the names of loads and stores. -/
def suffix : Storage → String
  | byte => "B"
  | short => "S"
  | int => "I"
  | long => "L"
  | unsignedByte => "UB"
  | unsignedShort => "US"
  | unsignedInt => "UI"
  | unsignedLong => "UL"
  | float => "F"
  | double => "D"
  | string => "STR"
  | array => "ARR"
  | any => "ANY"

/-- The storage class of the variables of an integer type. -/
def ofWidth : IntWidth → Storage
  | .i8 => byte
  | .i16 => short
  | .i32 => int
  | .i64 => long
  | .u1 | .u8 => unsignedByte
  | .u16 => unsignedShort
  | .u32 => unsignedInt
  | .u64 => unsignedLong

/-- The storage class of the variables of a type. -/
def ofTy : Ty → Storage
  | .scalar (.integer width) => ofWidth width
  | .scalar (.float .f32) => float
  | .scalar (.float .f64) => double
  | .scalar .string => string
  | .scalar .char => unsignedInt
  | .array .. => array
  | .union _ | .null => any

end Storage

/-- Instruction codes. -/
inductive Opcode where
  | loadImmediate8 | loadImmediate16 | loadImmediate32 | loadImmediate64
  | loadDouble | loadString | loadArraySize | loadConstant
  | load (storage : Storage)
  | store (storage : Storage)
  | binary (op : BinaryOp)
  | not | bitNot | loadElement
  | jump | jumpIfZero
deriving DecidableEq, Repr, Inhabited

namespace Opcode

/-- Place of an operator among the codes of operators. -/
def operatorCode : BinaryOp → UInt8
  | .add => 0x30
  | .subtract => 0x31
  | .multiply => 0x32
  | .power => 0x33
  | .divide => 0x34
  | .modulo => 0x35
  | .equal => 0x36
  | .notEqual => 0x37
  | .less => 0x38
  | .greater => 0x39
  | .lessEqual => 0x3A
  | .greaterEqual => 0x3B
  | .and => 0x3C
  | .or => 0x3D
  | .shiftLeft => 0x3E
  | .shiftRight => 0x3F
  | .bitAnd => 0x40
  | .bitOr => 0x41
  | .bitXor => 0x42

/-- The byte of the instruction. -/
def byte : Opcode → UInt8
  | loadImmediate8 => 0x01
  | loadImmediate16 => 0x02
  | loadImmediate32 => 0x03
  | loadImmediate64 => 0x04
  | loadDouble => 0x05
  | loadString => 0x06
  | loadArraySize => 0x07
  | loadConstant => 0x08
  | load storage => 0x10 + storage.code
  | store storage => 0x20 + storage.code
  | binary op => operatorCode op
  | not => 0x43
  | bitNot => 0x44
  | loadElement => 0x45
  | jump => 0x50
  | jumpIfZero => 0x51

/-- The name of an operator's instruction. -/
def operatorMnemonic : BinaryOp → String
  | .add => "ADD"
  | .subtract => "SUB"
  | .multiply => "MUL"
  | .power => "POW"
  | .divide => "DIV"
  | .modulo => "MOD"
  | .equal => "EQ"
  | .notEqual => "NEQ"
  | .less => "LT"
  | .greater => "GT"
  | .lessEqual => "LTE"
  | .greaterEqual => "GTE"
  | .and => "AND"
  | .or => "OR"
  | .shiftLeft => "LSHFT"
  | .shiftRight => "RSHFT"
  | .bitAnd => "BAND"
  | .bitOr => "BOR"
  | .bitXor => "BXOR"

/-- The name of the instruction in listings. -/
def mnemonic : Opcode → String
  | loadImmediate8 => "LDBI"
  | loadImmediate16 => "LDSI"
  | loadImmediate32 => "LDI"
  | loadImmediate64 => "LDLI"
  | loadDouble => "LDD"
  | loadString => "LDS"
  | loadArraySize => "LDAS"
  | loadConstant => "LDC"
  | load storage => "LOAD" ++ storage.suffix
  | store storage => "STORE" ++ storage.suffix
  | binary op => operatorMnemonic op
  | not => "NOT"
  | bitNot => "BNOT"
  | loadElement => "LDEL"
  | jump => "JMP"
  | jumpIfZero => "JZ"

/-- All instruction codes. -/
def all : List Opcode :=
  [loadImmediate8, loadImmediate16, loadImmediate32, loadImmediate64, loadDouble, loadString,
   loadArraySize, loadConstant] ++
  Storage.all.map load ++ Storage.all.map store ++
  [BinaryOp.add, .subtract, .multiply, .power, .divide, .modulo, .equal, .notEqual, .less,
   .greater, .lessEqual, .greaterEqual, .and, .or, .shiftLeft, .shiftRight, .bitAnd, .bitOr,
   .bitXor].map binary ++
  [not, bitNot, loadElement, jump, jumpIfZero]

/-- The instruction of a byte. -/
def ofByte? (b : UInt8) : Option Opcode :=
  all.find? (·.byte == b)

/-- Whether the instruction goes on elsewhere than at the next one. -/
def isJump : Opcode → Bool
  | jump | jumpIfZero => true
  | _ => false

end Opcode

end StackCompiler
