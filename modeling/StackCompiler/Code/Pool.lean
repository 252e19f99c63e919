import StackCompiler.Code.Bytes
import StackCompiler.Fault
import StackCompiler.Number.Text
import StackCompiler.Text.Quoted
import StackCompiler.Text.Utf8

/-!
# Constant pools

A pool holds every float and string constant of a unit once. An entry carries the number under
which it is loaded; numbers are given in the order in which entries are added, and no entry is ever
changed or removed.
-/

namespace StackCompiler

/-- What the bytes of a constant stand for. -/
inductive ConstantTag where
  | float | string
deriving DecidableEq, Repr, Inhabited

/-- The bytes of a float or string and what they stand for. -/
structure Datum where
  tag : ConstantTag
  bytes : List UInt8
deriving DecidableEq, Repr, Inhabited

/-- An entry of a pool, with its number. -/
structure Constant extends Datum where
  index : Nat
deriving DecidableEq, Repr, Inhabited

/-- The type of a constant as it is shown. -/
def ConstantTag.text : ConstantTag → String
  | float => "double"
  | string => "str"

/-- The value of a float or string as it is shown. -/
def Datum.text (d : Datum) : String :=
  match d.tag with
  | .string => Text.quoteString (Text.Utf8.decodeLossy d.bytes)
  | .float =>
    if d.bytes.length = 8 then Number.text (Bytes.toFloat d.bytes)
    else s!"<{d.bytes.length} bytes>"

/-- The constant in a listing. -/
def Constant.text (c : Constant) : String :=
  s!"#{c.index} {c.tag.text} {c.toDatum.text}"

/-- Constants in the order in which they were added. -/
structure ConstantPool where
  entries : List Constant := []
deriving DecidableEq, Repr, Inhabited

namespace ConstantPool

/-- How many entries a pool has room for. -/
def capacity : Nat := 65536

/-- The number of the entry for a float or string, which is added if there is none yet, and the
pool that then holds it. -/
def intern (pool : ConstantPool) (d : Datum) : Except Defect Nat × ConstantPool :=
  match pool.entries.find? (·.toDatum = d) with
  | some c => (.ok c.index, pool)
  | none =>
    let index := pool.entries.length
    if index < capacity then (.ok index, ⟨pool.entries ++ [⟨d, index⟩]⟩)
    else (.error .poolFull, pool)

/-- The constant at a place. -/
def get? (pool : ConstantPool) (index : Nat) : Option Constant :=
  pool.entries[index]?

/-- The entries in a listing. -/
def texts (pool : ConstantPool) : List String :=
  pool.entries.map Constant.text

end ConstantPool

end StackCompiler
