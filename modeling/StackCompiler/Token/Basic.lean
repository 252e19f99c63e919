import StackCompiler.Number.Text
import StackCompiler.Range
import StackCompiler.Scalar
import StackCompiler.Text.Quoted
import StackCompiler.Token.Symbol

/-!
# Tokens

The words of the language. A token knows what it is, how it was written and where.
-/

namespace StackCompiler

/-- What a token is. Literals carry their value, and the words of constructs that the language
keeps for itself without having them are `reserved`. -/
inductive TokenKind where
  | symbol (s : Symbol)
  | identifier (name : String)
  | integer (value : Int)
  | float (value : Float)
  | string (value : String)
  | char (value : Char)
  | typeName (s : Scalar)
  | mutable
  | constant
  | boolean (value : Bool)
  | null
  | reserved (word : String)
  | eof
deriving DecidableEq, Inhabited

/-- A token at its place. -/
structure Token where
  kind : TokenKind
  lexeme : String
  range : Range
deriving DecidableEq, Inhabited

namespace TokenKind

/-- The reserved words. -/
def reservedWords : List String :=
  ["class", "new", "from", "include", "proc", "return", "if", "elif", "else", "while", "for",
   "in", "typeof", "switch", "case", "default", "break"]

/-- The names of the scalar types. -/
def typeWords : List (String × Scalar) :=
  [("u1", .integer .u1), ("u8", .integer .u8), ("ubyte", .integer .u8),
   ("u16", .integer .u16), ("ushort", .integer .u16), ("u32", .integer .u32),
   ("uint", .integer .u32), ("u64", .integer .u64), ("ulong", .integer .u64),
   ("i8", .integer .i8), ("byte", .integer .i8), ("i16", .integer .i16),
   ("short", .integer .i16), ("i32", .integer .i32), ("int", .integer .i32),
   ("i64", .integer .i64), ("long", .integer .i64), ("float", .float .f32),
   ("double", .float .f64), ("str", .string), ("chr", .char), ("char", .char)]

/-- The words with a meaning of their own. -/
def keywords : List (String × TokenKind) :=
  [("mut", mutable), ("const", constant), ("true", boolean true), ("false", boolean false),
   ("null", null)] ++
  reservedWords.map (fun word => (word, reserved word)) ++
  typeWords.map (fun (word, s) => (word, typeName s))

/-- What a word is: a keyword or else a name. -/
def ofWord (word : String) : TokenKind :=
  (keywords.lookup word).getD (identifier word)

/-- The name of the token's class. -/
def label : TokenKind → String
  | symbol s => s.label
  | identifier _ => "Identifier"
  | integer _ => "IntegerLiteral"
  | float _ => "FloatLiteral"
  | string _ => "StringLiteral"
  | char _ => "CharLiteral"
  | typeName _ => "TypeName"
  | mutable => "Mut"
  | constant => "Const"
  | boolean true => "True"
  | boolean false => "False"
  | null => "Null"
  | reserved _ => "Reserved"
  | eof => "Eof"

end TokenKind

/-- The scalar type by its class and width. -/
def Scalar.label : Scalar → String
  | integer width => "Integer(" ++ width.text.capitalize ++ ")"
  | float .f32 => "Float(F32)"
  | float .f64 => "Float(F64)"
  | string => "String"
  | char => "Char"

/-- The value that a token of the kind carries, as it is shown in a list of tokens. -/
def TokenKind.valueText? : TokenKind → Option String
  | identifier name => some (Text.quoteString name)
  | integer value => some (toString value)
  | float value => some (Number.text value)
  | string value => some (Text.quoteString value)
  | char value => some (Text.quoteChar value)
  | typeName s => some s.label
  | reserved word => some word.capitalize
  | symbol _ | mutable | constant | boolean _ | null | eof => none

/-- The kind as it is shown in a list of tokens. -/
def TokenKind.text (kind : TokenKind) : String :=
  match kind.valueText? with
  | some value => kind.label ++ "(" ++ value ++ ")"
  | none => kind.label

namespace Token

/-- How a message refers to the token. -/
def describe (t : Token) : String :=
  match t.kind with
  | .eof => "end of input"
  | _ => "'" ++ t.lexeme ++ "'"

/-- The line of the token in a list of the tokens of a file. -/
def listing (file : String) (t : Token) : String :=
  t.range.location file ++ " " ++ t.kind.text

/-- What the token does after an operand. -/
def continuation? (t : Token) : Option Continuation :=
  match t.kind with
  | .symbol s => s.continuation?
  | _ => none

end Token

end StackCompiler
