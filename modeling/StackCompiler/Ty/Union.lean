import StackCompiler.Ty.Basic

/-!
# Unions of types

`Ty.join` is the union of a list of types: flat, without repetitions, and no union at all if one
member is left. `Ty.merge` keeps one member of each kind, the first one, and merges all arrays
into one array over what their elements merge to.
-/

namespace StackCompiler.Ty

/-- Adds a type to a list in which no type is equal to it. -/
def addNew (ts : List Ty) (t : Ty) : List Ty :=
  if ts.any (·.equals t) then ts else ts ++ [t]

/-- A list of members as a type: one member stands for itself. -/
def ofMembers : List Ty → Ty
  | [t] => t
  | ts => union ts

/-- The union of a list of types, with the members of unions in their place and without those that
are equal to an earlier one. -/
def join (ts : List Ty) : Ty :=
  ofMembers ((ts.flatMap members).foldl addNew [])

/-- The element types of the arrays in a list of types. -/
def elements : List Ty → List Ty
  | [] => []
  | array element _ :: ts => element :: elements ts
  | _ :: ts => elements ts

/-- The first type of each kind in a list. -/
def firstOfKinds (ts : List Ty) : List Ty :=
  ts.foldl (fun kept t => if kept.any (·.kind == t.kind) then kept else kept ++ [t]) []

/-- The type with `element` in place of its element type, if it is an array. -/
def withElement (element : Ty) : Ty → Ty
  | array _ length => array element length
  | t => t

theorem depths_append (ts us : List Ty) : depths (ts ++ us) = max (depths ts) (depths us) := by
  induction ts with
  | nil => simp [depths]
  | cons t ts ih => simp only [List.cons_append, depths, ih]; omega

theorem depths_members (t : Ty) : depths t.members = t.depth := by
  cases t <;> simp [members, depths, depth]

theorem depths_flatMap_members (ts : List Ty) : depths (ts.flatMap members) = depths ts := by
  induction ts with
  | nil => rfl
  | cons t ts ih => simp only [List.flatMap_cons, depths_append, depths_members, ih, depths]

theorem depths_elements_le (ts : List Ty) : depths (elements ts) ≤ depths ts - 1 := by
  induction ts with
  | nil => simp [elements, depths]
  | cons t ts ih => cases t <;> simp only [elements, depths, depth] <;> omega

/-- Elements of arrays are nested less deeply than the arrays. -/
theorem depths_elements_lt {ts : List Ty} (h : elements ts ≠ []) :
    depths (elements ts) < depths ts := by
  have hle := depths_elements_le ts
  suffices 0 < depths ts by omega
  clear hle
  induction ts with
  | nil => simp [elements] at h
  | cons t ts ih =>
    cases t with
    | array => simp only [depths, depth]; omega
    | null | scalar | union =>
      have := ih (by simpa [elements] using h)
      simp only [depths]; omega

/-- The union of a list of types that has one member of each kind, the first one. Two or more
arrays become one array, over the merged element types and with the length of the first.

All element types are merged at once here. Where no union has unions among its members, it makes no
difference if members are taken in one after the other instead and each array that comes is merged
with the one that is there (`Ty.mergesTo_iff`). Only for such flat types is `merge` meant: a union
inside a union is opened once here, and one by one it would be opened once at every step. -/
def merge (ts : List Ty) : Ty :=
  let all := ts.flatMap members
  let kept := firstOfKinds all
  if h : 1 < (elements all).length then
    have : depths (elements all) < depths ts := by
      rw [← depths_flatMap_members ts]
      exact depths_elements_lt (List.ne_nil_of_length_pos (by omega))
    join (kept.map (withElement (merge (elements all))))
  else join kept
termination_by depths ts

end StackCompiler.Ty
