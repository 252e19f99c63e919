import StackCompiler.Ty.Basic

/-!
# What a type admits

`Ty.accepts` says which values may be stored where a type is expected; the other definitions
look at the members of a union to decide which operators apply to its values.
-/

namespace StackCompiler.Ty

mutual

/-- Whether a value of the second type may be stored where the first one is expected. Scalar
types are compared by kind alone, and arrays by their elements. -/
def accepts : Ty → Ty → Bool
  | union ts, union us => us.all fun u => anyAccepts ts u
  | union ts, u => anyAccepts ts u
  | _, union [] => true
  | array t _, array u _ => t.accepts u
  | t, u => t.kind == u.kind

/-- Whether one type of a list accepts the type. -/
def anyAccepts : List Ty → Ty → Bool
  | [], _ => false
  | t :: ts, u => t.accepts u || anyAccepts ts u

end

/-- Whether there is a member and each one has the property. -/
def allMembers (p : Ty → Bool) (t : Ty) : Bool :=
  !t.members.isEmpty && t.members.all p

/-- An integer type or a union of such. -/
def isInteger (t : Ty) : Bool :=
  t.allMembers (·.kind == .integer)

/-- An integer or float type or a union of such. -/
def isNumeric (t : Ty) : Bool :=
  t.allMembers fun u => u.kind == .integer || u.kind == .float

/-- Whether some value may be a float. -/
def mayBeFloat (t : Ty) : Bool :=
  t.members.any (·.kind == .float)

/-- Whether some value may be null. -/
def mayBeNull (t : Ty) : Bool :=
  t.members.any (·.kind == .null)

/-- The width of an integer type. -/
def width? : Ty → Option IntWidth
  | scalar (.integer w) => some w
  | _ => none

/-- The widest integer width among the members. -/
def integerWidth? (t : Ty) : Option IntWidth :=
  match t.members.filterMap width? with
  | [] => none
  | w :: ws => some (ws.foldl IntWidth.wider w)

end StackCompiler.Ty
