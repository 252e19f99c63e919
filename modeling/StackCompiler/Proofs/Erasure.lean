import Mathlib.Data.List.Basic
import StackCompiler.Proofs.Equality
import StackCompiler.Typing

/-!
# Types up to widths and lengths

`Ty.mapLengths` gives a type other lengths of its arrays; folding is a case of it. `Ty.erase`
forgets the widths of integers and the lengths of arrays. Both change a type part by part and keep
its kind (`Ty.Pointwise`), and no more is needed for a type to accept the same values and to be
asked for by the same operators. The operators themselves give the same up to erasure. For the
merging of types this takes that they are flat (`Ty.Flat`): a union inside a union would be
taken apart, and its members then be compared with their widths and lengths (`Ty.merge_erase`).
Equal types are the same up to erasure (`Ty.Equals.erase_eq`), and where a change of types keeps
equality (`Ty.KeepsEquality`), it makes no difference whether it is made before they are joined or
afterwards.
-/

namespace StackCompiler

/-- The scalar type with integers of one width. -/
def Scalar.erase : Scalar → Scalar
  | integer _ => integer .i32
  | s => s

@[simp] theorem Scalar.kind_erase (s : Scalar) : s.erase.kind = s.kind := by
  cases s <;> rfl

namespace Ty

mutual

/-- The type without the widths of integers and the lengths of arrays. -/
def erase : Ty → Ty
  | null => null
  | scalar s => scalar s.erase
  | array element _ => array element.erase none
  | union ts => union (eraseAll ts)

/-- Every type of a list without widths and lengths. -/
def eraseAll : List Ty → List Ty
  | [] => []
  | t :: ts => t.erase :: eraseAll ts

end

theorem eraseAll_eq_map (ts : List Ty) : eraseAll ts = ts.map erase := by
  induction ts with
  | nil => rfl
  | cons t ts ih => rw [eraseAll, ih, List.map_cons]

mutual

/-- No union in the type has a union as a member. -/
def Flat : Ty → Prop
  | null | scalar _ => True
  | array element _ => element.Flat
  | union ts => AreMembers ts

/-- The types may be the members of a union: they are flat, and none is a union. -/
def AreMembers : List Ty → Prop
  | [] => True
  | t :: ts => (t.kind ≠ .union ∧ t.Flat) ∧ AreMembers ts

end

theorem areMembers_iff {ts : List Ty} : AreMembers ts ↔ ∀ t ∈ ts, t.kind ≠ .union ∧ t.Flat := by
  induction ts with
  | nil => simp [AreMembers]
  | cons t ts ih => rw [AreMembers, ih, List.forall_mem_cons]

theorem flat_union {ts : List Ty} : (union ts).Flat ↔ ∀ t ∈ ts, t.kind ≠ .union ∧ t.Flat := by
  rw [Flat, areMembers_iff]

theorem kind_erase (t : Ty) : t.erase.kind = t.kind := by
  cases t with
  | scalar s => exact s.kind_erase
  | null | array _ _ | union _ => rfl

mutual

theorem erase_erase : (t : Ty) → t.erase.erase = t.erase
  | null => rfl
  | scalar s => by cases s <;> rfl
  | array element _ => by rw [erase, erase, erase_erase element]
  | union ts => by rw [erase, erase, eraseAll_eraseAll ts]

theorem eraseAll_eraseAll : (ts : List Ty) → eraseAll (eraseAll ts) = eraseAll ts
  | [] => rfl
  | t :: ts => by rw [eraseAll, eraseAll, erase_erase t, eraseAll_eraseAll ts]

end

/-- The members of a flat type are flat, and none is a union. -/
theorem Flat.members {t : Ty} (h : t.Flat) : ∀ u ∈ t.members, u.kind ≠ .union ∧ u.Flat := by
  cases t with
  | union ts => exact flat_union.1 h
  | null => simp [Ty.members, Ty.kind, Flat]
  | scalar s => cases s <;> simp [Ty.members, Ty.kind, Scalar.kind, Flat]
  | array element length => simpa [Ty.members, Ty.kind, Flat] using h

theorem flat_of_kind {t : Ty} (ha : t.kind ≠ .array) (hu : t.kind ≠ .union) : t.Flat := by
  cases t with
  | array _ _ => exact absurd rfl ha
  | union _ => exact absurd rfl hu
  | null | scalar _ => trivial

theorem members_of_kind_ne {t : Ty} (h : t.kind ≠ .union) : t.members = [t] := by
  cases t with
  | union ts => exact absurd rfl h
  | null | scalar _ | array _ _ => rfl

section Lengths

variable (f g : Expr → Expr)

mutual

/-- The type with other lengths of its arrays. -/
def mapLengths : Ty → Ty
  | null => null
  | scalar s => scalar s
  | array element length => array element.mapLengths (length.map f)
  | union ts => union (mapLengthsAll ts)

/-- The types of a list with other lengths of their arrays. -/
def mapLengthsAll : List Ty → List Ty
  | [] => []
  | t :: ts => t.mapLengths :: mapLengthsAll ts

end

theorem mapLengthsAll_eq_map (ts : List Ty) : mapLengthsAll f ts = ts.map (mapLengths f) := by
  induction ts with
  | nil => rfl
  | cons t ts ih => rw [mapLengthsAll, ih, List.map_cons]

mutual

theorem mapLengths_mapLengths : (t : Ty) →
    (t.mapLengths f).mapLengths g = t.mapLengths fun e => g (f e)
  | null | scalar _ => rfl
  | array element length => by
    rw [mapLengths, mapLengths, mapLengths, mapLengths_mapLengths element, Option.map_map]
    rfl
  | union ts => by rw [mapLengths, mapLengths, mapLengths, mapLengthsAll_mapLengthsAll ts]

theorem mapLengthsAll_mapLengthsAll : (ts : List Ty) →
    mapLengthsAll g (mapLengthsAll f ts) = mapLengthsAll (fun e => g (f e)) ts
  | [] => rfl
  | t :: ts => by
    rw [mapLengthsAll, mapLengthsAll, mapLengthsAll, mapLengths_mapLengths t,
      mapLengthsAll_mapLengthsAll ts]

end

mutual

/-- What keeps the lengths of a type keeps the type. -/
theorem mapLengths_eq_self : {t : Ty} → (∀ e ∈ t.lengths, f e = e) → t.mapLengths f = t
  | null, _ | scalar _, _ => rfl
  | array element length, h => by
    rw [lengths, List.forall_mem_append] at h
    have hlength : length.map f = length := by
      cases length with
      | none => rfl
      | some e => rw [Option.map_some, h.1 e List.mem_cons_self]
    rw [mapLengths, mapLengths_eq_self h.2, hlength]
  | union ts, h => by rw [mapLengths, mapLengthsAll_eq_self h]

theorem mapLengthsAll_eq_self : {ts : List Ty} → (∀ e ∈ lengthsAll ts, f e = e) →
    mapLengthsAll f ts = ts
  | [], _ => rfl
  | t :: ts, h => by
    rw [lengthsAll, List.forall_mem_append] at h
    rw [mapLengthsAll, mapLengths_eq_self h.1, mapLengthsAll_eq_self h.2]

end

theorem mapLengths_id (t : Ty) : t.mapLengths id = t :=
  mapLengths_eq_self id fun _ _ => rfl

mutual

theorem erase_mapLengths : (t : Ty) → (t.mapLengths f).erase = t.erase
  | null | scalar _ => rfl
  | array element length => by rw [mapLengths, erase, erase, erase_mapLengths element]
  | union ts => by rw [mapLengths, erase, erase, eraseAll_mapLengthsAll ts]

theorem eraseAll_mapLengthsAll : (ts : List Ty) → eraseAll (mapLengthsAll f ts) = eraseAll ts
  | [] => rfl
  | t :: ts => by
    rw [mapLengthsAll, eraseAll, eraseAll, erase_mapLengths t, eraseAll_mapLengthsAll ts]

end

mutual

theorem lengths_mapLengths : (t : Ty) → (t.mapLengths f).lengths = t.lengths.map f
  | null | scalar _ => rfl
  | array element length => by
    rw [mapLengths, lengths, lengths, lengths_mapLengths element, List.map_append]
    cases length <;> rfl
  | union ts => by rw [mapLengths, lengths, lengths, lengthsAll_mapLengthsAll ts]

theorem lengthsAll_mapLengthsAll : (ts : List Ty) →
    lengthsAll (mapLengthsAll f ts) = (lengthsAll ts).map f
  | [] => rfl
  | t :: ts => by
    rw [mapLengthsAll, lengthsAll, lengthsAll, lengths_mapLengths t, lengthsAll_mapLengthsAll ts,
      List.map_append]

end

mutual

theorem fold_eq_mapLengths : (t : Ty) → t.fold = t.mapLengths Expr.fold
  | null | scalar _ => rfl
  | array element length => by rw [fold, mapLengths, fold_eq_mapLengths element]
  | union ts => by rw [fold, mapLengths, foldAll_eq_mapLengthsAll ts]

theorem foldAll_eq_mapLengthsAll : (ts : List Ty) → foldAll ts = mapLengthsAll Expr.fold ts
  | [] => rfl
  | t :: ts => by
    rw [foldAll, mapLengthsAll, fold_eq_mapLengths t, foldAll_eq_mapLengthsAll ts]

end

end Lengths

mutual

/-- Equal types are the same but for their lengths. -/
theorem Equals.erase_eq : {t u : Ty} → Equals t u → t.erase = u.erase
  | _, _, .null | _, _, .scalar _ => rfl
  | _, _, .array h _ => by rw [erase, erase, h.erase_eq]
  | _, _, .union h => by rw [erase, erase, h.eraseAll_eq]

theorem EqualsAll.eraseAll_eq : {ts us : List Ty} → EqualsAll ts us → eraseAll ts = eraseAll us
  | _, _, .nil => rfl
  | _, _, .cons h hs => by rw [eraseAll, eraseAll, h.erase_eq, hs.eraseAll_eq]

end

/-- Types are equal after the change if and only if they are equal before it. -/
def KeepsEquality (φ : Ty → Ty) : Prop :=
  ∀ t u, (φ t).equals (φ u) = t.equals u

section Equality

variable {f g : Expr → Expr}

mutual

/-- Other lengths that are equal where the lengths were leave equal types equal. -/
theorem Equals.mapLengths (hf : ∀ {e e'}, Expr.Equals e e' → Expr.Equals (f e) (f e')) :
    {t u : Ty} → Equals t u → Equals (t.mapLengths f) (u.mapLengths f)
  | _, _, .null => .null
  | _, _, .scalar s => .scalar s
  | _, _, @Equals.array _ _ l l' h hl => by
    refine .array (h.mapLengths hf) ?_
    cases l with
    | none =>
      cases l' with
      | none => exact .nil
      | some _ => cases hl
    | some _ =>
      cases l' with
      | none => cases hl
      | some _ =>
        cases hl with
        | cons he _ => exact .cons (hf he) .nil
  | _, _, .union h => .union (h.mapLengthsAll hf)

theorem EqualsAll.mapLengthsAll (hf : ∀ {e e'}, Expr.Equals e e' → Expr.Equals (f e) (f e')) :
    {ts us : List Ty} → EqualsAll ts us → EqualsAll (mapLengthsAll f ts) (mapLengthsAll f us)
  | _, _, .nil => .nil
  | _, _, .cons h hs => .cons (h.mapLengths hf) (hs.mapLengthsAll hf)

end

/-- Other lengths that can be given back make no types equal. -/
theorem keepsEquality_mapLengths (hf : ∀ {e e'}, Expr.Equals e e' → Expr.Equals (f e) (f e'))
    (hg : ∀ {e e'}, Expr.Equals e e' → Expr.Equals (g e) (g e'))
    (hback : (fun e => g (f e)) = id) : KeepsEquality (mapLengths f) := by
  intro t u
  rw [Bool.eq_iff_iff, equals_iff, equals_iff]
  refine ⟨fun h => ?_, fun h => h.mapLengths hf⟩
  have := h.mapLengths hg
  rwa [mapLengths_mapLengths, mapLengths_mapLengths, hback, mapLengths_id, mapLengths_id] at this

end Equality

/-- Where the first type is no union and not both are arrays, the kinds decide; every type accepts
the values of the empty union, of which there are none. -/
theorem accepts_eq {t u : Ty} (ht : t.kind ≠ .union) (h : t.kind ≠ .array ∨ u.kind ≠ .array) :
    t.accepts u = if u.kind = .union then u.members.isEmpty else t.kind == u.kind := by
  cases u with
  | union us => cases t <;> cases us <;> simp_all [accepts, kind, members]
  | array element length => cases t <;> simp_all [accepts, kind]
  | null => cases t <;> simp_all [accepts, kind]
  | scalar s =>
    have hs : s.kind ≠ .union := by cases s <;> simp [Scalar.kind]
    cases t <;> simp_all [accepts, kind]

/-- A union accepts a type if one of its members accepts each member of that. -/
theorem accepts_union (ts : List Ty) (u : Ty) :
    (union ts).accepts u = u.members.all (anyAccepts ts) := by
  cases u <;> simp [accepts, members]

theorem eq_null_iff {t : Ty} : t = null ↔ t.kind = .null := by
  cases t with
  | scalar s => cases s <;> simp [kind, Scalar.kind]
  | null | array _ _ | union _ => simp [kind]

theorem eq_string_iff {t : Ty} : t = string ↔ t.kind = .string := by
  cases t with
  | scalar s => cases s <;> simp [kind, Scalar.kind]
  | null | array _ _ | union _ => simp [kind]

theorem eq_char_iff {t : Ty} : t = char ↔ t.kind = .char := by
  cases t with
  | scalar s => cases s <;> simp [kind, Scalar.kind]
  | null | array _ _ | union _ => simp [kind]

/-- The function keeps the kind of a type and works on its parts: on the elements of an array and
the members of a union by itself, and on the length of an array by another function. -/
structure Pointwise (φ : Ty → Ty) (g : Option Expr → Option Expr) : Prop where
  kind : ∀ t, (φ t).kind = t.kind
  array : ∀ t length, φ (array t length) = array (φ t) (g length)
  union : ∀ ts, φ (union ts) = union (ts.map φ)

theorem pointwise_erase : Pointwise erase fun _ => none where
  kind := kind_erase
  array _ _ := rfl
  union ts := congrArg union (eraseAll_eq_map ts)

theorem pointwise_mapLengths (f : Expr → Expr) : Pointwise (mapLengths f) (Option.map f) where
  kind t := by rw [← kind_erase, erase_mapLengths, kind_erase]
  array _ _ := rfl
  union ts := congrArg union (mapLengthsAll_eq_map f ts)

namespace Pointwise

variable {φ : Ty → Ty} {g : Option Expr → Option Expr}

theorem members (h : Pointwise φ g) (t : Ty) : (φ t).members = t.members.map φ := by
  by_cases ht : t.kind = .union
  · cases t with
    | union ts =>
      rw [h.union]
      rfl
    | scalar s => cases s <;> cases ht
    | null | array _ _ => cases ht
  · rw [members_of_kind_ne ht, members_of_kind_ne (by rwa [h.kind]), List.map_singleton]

theorem flatMap_members (h : Pointwise φ g) (ts : List Ty) :
    (ts.map φ).flatMap Ty.members = (ts.flatMap Ty.members).map φ := by
  rw [List.flatMap_map, List.map_flatMap]
  exact List.flatMap_congr fun t _ => h.members t

mutual

theorem flat_iff (h : Pointwise φ g) : (t : Ty) → ((φ t).Flat ↔ t.Flat)
  | .null => iff_of_true (flat_of_kind (by rw [h.kind]; nofun) (by rw [h.kind]; nofun)) trivial
  | .scalar s => by
    refine iff_of_true (flat_of_kind ?_ ?_) trivial
    · rw [h.kind]
      cases s <;> nofun
    · rw [h.kind]
      cases s <;> nofun
  | .array element length => by
    rw [h.array]
    exact h.flat_iff element
  | .union ts => by
    rw [h.union, Flat, Flat]
    exact h.areMembers_map ts

theorem areMembers_map (h : Pointwise φ g) : (ts : List Ty) →
    (AreMembers (ts.map φ) ↔ AreMembers ts)
  | [] => Iff.rfl
  | t :: ts => by
    rw [List.map_cons, AreMembers, AreMembers, h.kind, h.flat_iff t, h.areMembers_map ts]

end

theorem accepts_of_kind (h : Pointwise φ g) {t u : Ty} (ht : t.kind ≠ .union)
    (hne : t.kind ≠ .array ∨ u.kind ≠ .array) : (φ t).accepts (φ u) = t.accepts u := by
  rw [accepts_eq ht hne, accepts_eq (by rwa [h.kind]) (by rwa [h.kind, h.kind]), h.kind, h.kind,
    h.members, List.isEmpty_map]

mutual

/-- Which values a type accepts depends only on what such a function keeps. -/
theorem accepts (h : Pointwise φ g) : (t u : Ty) → (φ t).accepts (φ u) = t.accepts u
  | .union ts, u => by
    rw [h.union, accepts_union, accepts_union, h.members, List.all_map]
    congr 1
    funext u
    exact h.anyAccepts ts u
  | .array element length, u => by
    cases u with
    | array element' length' =>
      rw [h.array, h.array, Ty.accepts, Ty.accepts]
      exact h.accepts element element'
    | union us => exact h.accepts_of_kind nofun (.inr nofun)
    | null => exact h.accepts_of_kind nofun (.inr nofun)
    | scalar s => exact h.accepts_of_kind nofun (.inr (by cases s <;> nofun))
  | .null, u => h.accepts_of_kind nofun (.inl nofun)
  | .scalar s, u => h.accepts_of_kind (by cases s <;> nofun) (.inl (by cases s <;> nofun))

theorem anyAccepts (h : Pointwise φ g) : (ts : List Ty) → (u : Ty) →
    Ty.anyAccepts (ts.map φ) (φ u) = Ty.anyAccepts ts u
  | [], _ => rfl
  | t :: ts, u => by
    rw [List.map_cons, Ty.anyAccepts, Ty.anyAccepts, h.accepts t u, h.anyAccepts ts u]

end

theorem allMembers (h : Pointwise φ g) {p : Kind → Bool} (t : Ty) :
    ((φ t).allMembers fun u => p u.kind) = t.allMembers fun u => p u.kind := by
  rw [Ty.allMembers, Ty.allMembers, h.members, List.isEmpty_map, List.all_map]
  simp only [Function.comp_def, h.kind]

theorem isInteger (h : Pointwise φ g) (t : Ty) : (φ t).isInteger = t.isInteger :=
  h.allMembers (p := fun k => k == .integer) t

theorem isNumeric (h : Pointwise φ g) (t : Ty) : (φ t).isNumeric = t.isNumeric :=
  h.allMembers (p := fun k => k == .integer || k == .float) t

theorem any_members (h : Pointwise φ g) (k : Kind) (t : Ty) :
    ((φ t).members.any fun u => u.kind == k) = t.members.any fun u => u.kind == k := by
  rw [h.members, List.any_map]
  simp only [Function.comp_def, h.kind]

theorem mayBeFloat (h : Pointwise φ g) (t : Ty) : (φ t).mayBeFloat = t.mayBeFloat :=
  h.any_members .float t

end Pointwise

theorem flat_erase (t : Ty) : t.erase.Flat ↔ t.Flat :=
  pointwise_erase.flat_iff t

/-- Which values a type accepts depends on widths and lengths neither of the type nor of the
values. -/
theorem accepts_erase (t u : Ty) : t.erase.accepts u.erase = t.accepts u :=
  pointwise_erase.accepts t u

section Operators

@[simp] theorem isInteger_erase (t : Ty) : t.erase.isInteger = t.isInteger :=
  pointwise_erase.isInteger t

@[simp] theorem isNumeric_erase (t : Ty) : t.erase.isNumeric = t.isNumeric :=
  pointwise_erase.isNumeric t

@[simp] theorem mayBeFloat_erase (t : Ty) : t.erase.mayBeFloat = t.mayBeFloat :=
  pointwise_erase.mayBeFloat t

@[simp] theorem erase_eq_null (t : Ty) : t.erase = null ↔ t = null := by
  rw [eq_null_iff, kind_erase, eq_null_iff]

@[simp] theorem erase_eq_string (t : Ty) : t.erase = string ↔ t = string := by
  rw [eq_string_iff, kind_erase, eq_string_iff]

@[simp] theorem erase_eq_char (t : Ty) : t.erase = char ↔ t = char := by
  rw [eq_char_iff, kind_erase, eq_char_iff]

theorem isSome_integerWidth? (t : Ty) :
    t.integerWidth?.isSome = t.members.any (·.kind == .integer) := by
  have hwidth : ∀ u : Ty, u.width?.isSome = (u.kind == .integer) := by
    intro u
    cases u with
    | scalar s => cases s <;> rfl
    | null | array _ _ | union _ => rfl
  rw [integerWidth?]
  induction t.members with
  | nil => rfl
  | cons u us ih =>
    rw [List.any_cons, ← hwidth, List.filterMap_cons]
    cases u.width? with
    | none => exact ih
    | some w => rfl

@[simp] theorem isSome_integerWidth?_erase (t : Ty) :
    t.erase.integerWidth?.isSome = t.integerWidth?.isSome := by
  rw [isSome_integerWidth?, isSome_integerWidth?, pointwise_erase.any_members]

/-- The widest of two integer types is an integer type. -/
theorem erase_widest? (l r : Ty) :
    (l.widest? r).map erase =
      if l.integerWidth?.isSome ∧ r.integerWidth?.isSome then some (integer .i32) else none := by
  rw [widest?]
  cases l.integerWidth? <;> cases r.integerWidth? <;> rfl

theorem erase_arithmetic? (l r : Ty) :
    (l.erase.arithmetic? r.erase).map erase = (l.arithmetic? r).map erase := by
  simp only [arithmetic?, isNumeric_erase, mayBeFloat_erase, apply_ite (Option.map erase),
    erase_widest?, isSome_integerWidth?_erase]

theorem erase_indexed? (t : Ty) : t.erase.indexed? = t.indexed?.map erase := by
  cases t with
  | scalar s => cases s <;> rfl
  | null | array _ _ | union _ => rfl

theorem Flat.indexed? {t u : Ty} (h : t.Flat) (hu : t.indexed? = some u) : u.Flat := by
  cases t with
  | array element length =>
    cases hu
    exact h
  | scalar s =>
    cases s with
    | string =>
      cases hu
      trivial
    | integer _ | float _ | char => cases hu
  | null | union _ => cases hu

theorem exists_of_widest? {l r t : Ty} (h : l.widest? r = some t) : ∃ w, t = integer w := by
  rw [widest?] at h
  split at h <;> cases h
  exact ⟨_, rfl⟩

theorem exists_of_arithmetic? {l r t : Ty} (h : l.arithmetic? r = some t) :
    t = float .f64 ∨ ∃ w, t = integer w := by
  rw [arithmetic?] at h
  split_ifs at h
  · cases h
    exact .inl rfl
  · exact .inr (exists_of_widest? h)

end Operators

section Merging

/-- Different types of a list are of different kinds. -/
def KindsDiffer (ts : List Ty) : Prop :=
  ts.Pairwise fun t u => t.kind ≠ u.kind

theorem firstOfKinds_map {f : Ty → Ty} (hf : ∀ t, (f t).kind = t.kind) (ts : List Ty) :
    firstOfKinds (ts.map f) = (firstOfKinds ts).map f := by
  have hfold : ∀ kept : List Ty, (ts.map f).foldl
      (fun kept t => if kept.any (·.kind == t.kind) then kept else kept ++ [t]) (kept.map f) =
      (ts.foldl (fun kept t => if kept.any (·.kind == t.kind) then kept else kept ++ [t])
        kept).map f := by
    induction ts with
    | nil => exact fun _ => rfl
    | cons t ts ih =>
      intro kept
      have hany : (kept.map f).any (·.kind == (f t).kind) = kept.any (·.kind == t.kind) := by
        simp only [List.any_map, Function.comp_def, hf]
      rw [List.map_cons, List.foldl_cons, List.foldl_cons, hany, ← ih]
      split_ifs
      · rfl
      · rw [List.map_append, List.map_singleton]
  exact hfold []

/-- The types that are kept are some of the list, of different kinds. -/
theorem firstOfKinds_spec (ts : List Ty) :
    KindsDiffer (firstOfKinds ts) ∧ ∀ t ∈ firstOfKinds ts, t ∈ ts := by
  have hfold : ∀ kept : List Ty, KindsDiffer kept →
      KindsDiffer (ts.foldl
        (fun kept t => if kept.any (·.kind == t.kind) then kept else kept ++ [t]) kept) ∧
      ∀ t ∈ ts.foldl (fun kept t => if kept.any (·.kind == t.kind) then kept else kept ++ [t])
        kept, t ∈ kept ∨ t ∈ ts := by
    induction ts with
    | nil => exact fun kept h => ⟨h, fun _ ht => .inl ht⟩
    | cons t ts ih =>
      intro kept h
      rw [List.foldl_cons]
      split_ifs with hany
      · obtain ⟨hd, hmem⟩ := ih kept h
        exact ⟨hd, fun u hu => (hmem u hu).imp_right (List.mem_cons_of_mem _)⟩
      · have hnew : KindsDiffer (kept ++ [t]) := by
          refine List.pairwise_append.2 ⟨h, List.pairwise_singleton _ _, ?_⟩
          intro u hu v hv hkind
          rw [List.mem_singleton.1 hv] at hkind
          exact hany (List.any_eq_true.2 ⟨u, hu, beq_iff_eq.2 hkind⟩)
        obtain ⟨hd, hmem⟩ := ih _ hnew
        refine ⟨hd, fun u hu => ?_⟩
        rcases hmem u hu with hu | hu
        · rcases List.mem_append.1 hu with hu | hu
          · exact .inl hu
          · exact .inr (List.mem_singleton.1 hu ▸ List.mem_cons_self)
        · exact .inr (List.mem_cons_of_mem _ hu)
  obtain ⟨hd, hmem⟩ := hfold [] List.Pairwise.nil
  exact ⟨hd, fun t ht => (hmem t ht).resolve_left List.not_mem_nil⟩

theorem any_equals_iff {ts : List Ty} {t : Ty} :
    ts.any (·.equals t) ↔ ∃ u ∈ ts, Equals u t := by
  simp only [List.any_eq_true, equals_iff]

theorem foldl_addNew {ts : List Ty} (kept : List Ty)
    (h : (kept ++ ts).Pairwise fun t u => ¬ Equals t u) : ts.foldl addNew kept = kept ++ ts := by
  induction ts generalizing kept with
  | nil => rw [List.foldl_nil, List.append_nil]
  | cons t ts ih =>
    have hnew : ¬ kept.any (·.equals t) := by
      rw [any_equals_iff]
      rintro ⟨u, hu, hequals⟩
      exact (List.pairwise_append.1 h).2.2 u hu t List.mem_cons_self hequals
    rw [List.append_cons] at h ⊢
    rw [List.foldl_cons, addNew, if_neg hnew, ih _ h]

/-- Types of different kinds, none of them a union, are the members of their union. -/
theorem join_eq_ofMembers {ts : List Ty} (hu : ∀ t ∈ ts, t.kind ≠ .union) (h : KindsDiffer ts) :
    join ts = ofMembers ts := by
  have hmembers : ts.flatMap members = ts := by
    rw [List.flatMap_congr fun t ht => members_of_kind_ne (hu t ht)]
    exact List.flatMap_singleton' ts
  have hdiffer : ts.Pairwise fun t u => ¬ Equals t u :=
    h.imp fun hkind hequals => hkind hequals.kind_eq
  rw [join, hmembers, foldl_addNew [] hdiffer, List.nil_append]

theorem kind_withElement (element t : Ty) : (withElement element t).kind = t.kind := by
  cases t <;> rfl

theorem flat_elements {ts : List Ty} (h : ∀ t ∈ ts, t.Flat) : ∀ t ∈ elements ts, t.Flat := by
  induction ts with
  | nil => nofun
  | cons t ts ih =>
    rw [List.forall_mem_cons] at h
    cases t with
    | array element length => exact List.forall_mem_cons.2 ⟨h.1, ih h.2⟩
    | null | scalar _ | union _ => exact ih h.2

theorem flat_flatMap_members {ts : List Ty} (h : ∀ t ∈ ts, t.Flat) :
    ∀ t ∈ ts.flatMap members, t.kind ≠ .union ∧ t.Flat := by
  intro t ht
  obtain ⟨u, hu, ht⟩ := List.mem_flatMap.1 ht
  exact (h u hu).members t ht

theorem depths_elements_members_lt {ts : List Ty}
    (h : 1 < (elements (ts.flatMap members)).length) :
    depths (elements (ts.flatMap members)) < depths ts := by
  rw [← depths_flatMap_members ts]
  exact depths_elements_lt (List.ne_nil_of_length_pos (by omega))

/-- What types merge to: the union of one member of each kind, the arrays among them over the merged
elements. -/
theorem merge_eq_join (ts : List Ty) :
    merge ts = join (if 1 < (elements (ts.flatMap members)).length then
      (firstOfKinds (ts.flatMap members)).map (withElement (merge (elements (ts.flatMap members))))
      else firstOfKinds (ts.flatMap members)) := by
  rw [merge]
  dsimp only
  split_ifs <;> rfl

/-- If the types are flat, the union has exactly these members. -/
theorem merge_eq {ts : List Ty} (h : ∀ t ∈ ts, t.Flat) :
    merge ts = ofMembers (if 1 < (elements (ts.flatMap members)).length then
      (firstOfKinds (ts.flatMap members)).map (withElement (merge (elements (ts.flatMap members))))
      else firstOfKinds (ts.flatMap members)) := by
  obtain ⟨hkinds, hmem⟩ := firstOfKinds_spec (ts.flatMap members)
  have hunion : ∀ t ∈ firstOfKinds (ts.flatMap members), t.kind ≠ .union := fun t ht =>
    (flat_flatMap_members h t (hmem t ht)).1
  rw [merge_eq_join]
  split_ifs
  · refine join_eq_ofMembers (List.forall_mem_map.2 fun t ht => ?_) ?_
    · rw [kind_withElement]
      exact hunion t ht
    · refine List.pairwise_map.2 (hkinds.imp fun hne => ?_)
      rwa [kind_withElement, kind_withElement]
  · exact join_eq_ofMembers hunion hkinds

namespace Pointwise

variable {φ : Ty → Ty} {g : Option Expr → Option Expr}

theorem withElement (h : Pointwise φ g) (element t : Ty) :
    φ (withElement element t) = Ty.withElement (φ element) (φ t) := by
  have hne : ∀ {element t : Ty}, t.kind ≠ .array → Ty.withElement element t = t := by
    intro element t ht
    cases t with
    | array _ _ => exact absurd rfl ht
    | null | scalar _ | union _ => rfl
  by_cases ht : t.kind = .array
  · cases t with
    | array _ length => rw [Ty.withElement, h.array, h.array, Ty.withElement]
    | scalar s => cases s <;> cases ht
    | null | union _ => cases ht
  · rw [hne ht, hne (by rwa [h.kind])]

theorem ofMembers (h : Pointwise φ g) (ts : List Ty) :
    φ (ofMembers ts) = Ty.ofMembers (ts.map φ) := by
  match ts with
  | [] => exact h.union []
  | [_] => rfl
  | t :: u :: ts => exact h.union (t :: u :: ts)

theorem elements (h : Pointwise φ g) (ts : List Ty) :
    Ty.elements (ts.map φ) = (Ty.elements ts).map φ := by
  have hne : ∀ {t : Ty} {ts : List Ty}, t.kind ≠ .array →
      Ty.elements (t :: ts) = Ty.elements ts := by
    intro t ts ht
    cases t with
    | array _ _ => exact absurd rfl ht
    | null | scalar _ | union _ => rfl
  induction ts with
  | nil => rfl
  | cons t ts ih =>
    rw [List.map_cons]
    by_cases ht : t.kind = .array
    · cases t with
      | array element length => rw [h.array, Ty.elements, Ty.elements, ih, List.map_cons]
      | scalar s => cases s <;> cases ht
      | null | union _ => cases ht
    · rw [hne ht, hne (by rwa [h.kind]), ih]

/-- The union of types is changed with them, if this keeps equality. -/
theorem join (h : Pointwise φ g) (hφ : KeepsEquality φ) (ts : List Ty) :
    join (ts.map φ) = φ (Ty.join ts) := by
  have hfold : ∀ us kept : List Ty, (us.map φ).foldl addNew (kept.map φ) =
      (us.foldl addNew kept).map φ := by
    intro us
    induction us with
    | nil => exact fun _ => rfl
    | cons u us ih =>
      intro kept
      have hadd : addNew (kept.map φ) (φ u) = (addNew kept u).map φ := by
        have hany : (kept.map φ).any (·.equals (φ u)) = kept.any (·.equals u) := by
          simp only [List.any_map, Function.comp_def, hφ _ u]
        simp only [addNew, hany]
        split_ifs
        · rfl
        · rw [List.map_append, List.map_singleton]
      rw [List.map_cons, List.foldl_cons, List.foldl_cons, hadd, ih]
  rw [Ty.join, Ty.join, h.flatMap_members, h.ofMembers, ← hfold]
  rfl

/-- Types merge to the same, changed, if this keeps equality. -/
theorem merge (h : Pointwise φ g) (hφ : KeepsEquality φ) (ts : List Ty) :
    merge (ts.map φ) = φ (Ty.merge ts) := by
  rw [merge_eq_join, merge_eq_join ts, h.flatMap_members, h.elements, firstOfKinds_map h.kind,
    ← h.join hφ, List.length_map, apply_ite (List.map φ), List.map_map, List.map_map]
  by_cases hlen : 1 < (Ty.elements (ts.flatMap Ty.members)).length
  · have := depths_elements_members_lt hlen
    rw [if_pos hlen, if_pos hlen, h.merge hφ]
    congr 2
    funext t
    exact (h.withElement _ t).symm
  · rw [if_neg hlen, if_neg hlen]
termination_by depths ts
decreasing_by exact this

/-- Flat types merge to the same, changed, also where some of them become equal: they are not
compared but by their kinds. -/
theorem merge_of_flat (h : Pointwise φ g) {ts : List Ty} (hts : ∀ t ∈ ts, t.Flat) :
    Ty.merge (ts.map φ) = φ (Ty.merge ts) := by
  have hflat := flat_elements fun t ht => (flat_flatMap_members hts t ht).2
  have hφ : ∀ t ∈ ts.map φ, t.Flat := List.forall_mem_map.2 fun t ht => (h.flat_iff t).2 (hts t ht)
  rw [merge_eq hts, merge_eq hφ, h.flatMap_members, h.elements, firstOfKinds_map h.kind,
    h.ofMembers, List.length_map, apply_ite (List.map φ), List.map_map, List.map_map]
  by_cases hlen : 1 < (Ty.elements (ts.flatMap Ty.members)).length
  · have := depths_elements_members_lt hlen
    rw [if_pos hlen, if_pos hlen, h.merge_of_flat hflat]
    congr 2
    funext t
    exact (h.withElement _ t).symm
  · rw [if_neg hlen, if_neg hlen]
termination_by depths ts
decreasing_by exact this

end Pointwise

/-- Flat types merge to the same whatever their widths and lengths. -/
theorem merge_erase {ts : List Ty} (h : ∀ t ∈ ts, t.Flat) :
    merge (ts.map erase) = (merge ts).erase :=
  pointwise_erase.merge_of_flat h

theorem flat_ofMembers {ts : List Ty} (h : ∀ t ∈ ts, t.kind ≠ .union ∧ t.Flat) :
    (ofMembers ts).Flat := by
  match ts with
  | [] => exact flat_union.2 h
  | [t] => exact (h t List.mem_cons_self).2
  | t :: u :: ts => exact flat_union.2 h

/-- Flat types merge to a flat one. -/
theorem flat_merge {ts : List Ty} (h : ∀ t ∈ ts, t.Flat) : (merge ts).Flat := by
  have hmem := (firstOfKinds_spec (ts.flatMap members)).2
  have hkept : ∀ t ∈ firstOfKinds (ts.flatMap members), t.kind ≠ .union ∧ t.Flat := fun t ht =>
    flat_flatMap_members h t (hmem t ht)
  have hflat := flat_elements fun t ht => (flat_flatMap_members h t ht).2
  rw [merge_eq h]
  by_cases hlen : 1 < (elements (ts.flatMap members)).length
  · have := depths_elements_members_lt hlen
    rw [if_pos hlen]
    refine flat_ofMembers (List.forall_mem_map.2 fun t ht => ⟨?_, ?_⟩)
    · rw [kind_withElement]
      exact (hkept t ht).1
    · cases t with
      | array element length => exact flat_merge hflat
      | null | scalar _ | union _ => exact (hkept _ ht).2
  · rw [if_neg hlen]
    exact flat_ofMembers hkept
termination_by depths ts
decreasing_by exact this

theorem mem_of_mem_foldl_addNew {ts kept : List Ty} {t : Ty} (h : t ∈ ts.foldl addNew kept) :
    t ∈ kept ∨ t ∈ ts := by
  induction ts generalizing kept with
  | nil => exact .inl h
  | cons u ts ih =>
    rcases ih h with h | h
    · rw [addNew] at h
      split_ifs at h
      · exact .inl h
      · rw [List.mem_append, List.mem_singleton] at h
        rcases h with h | rfl
        · exact .inl h
        · exact .inr List.mem_cons_self
    · exact .inr (List.mem_cons_of_mem _ h)

/-- The union of flat types is flat. -/
theorem flat_join {ts : List Ty} (h : ∀ t ∈ ts, t.Flat) : (join ts).Flat :=
  flat_ofMembers fun t ht => flat_flatMap_members h t
    ((mem_of_mem_foldl_addNew ht).resolve_left List.not_mem_nil)

end Merging

end Ty

/-- The type of an operator's value depends on the types of the operands up to erasure, and so
does whether there is one. -/
theorem BinaryOp.erase_result? (op : BinaryOp) (l r : Ty) :
    (op.result? l.erase r.erase).map Ty.erase = (op.result? l r).map Ty.erase := by
  cases op <;>
    simp only [result?, Ty.erase_eq_string, Ty.erase_eq_char, Ty.isInteger_erase,
      Ty.isNumeric_erase, apply_ite (Option.map Ty.erase), Ty.erase_arithmetic?, Ty.erase_widest?,
      Ty.isSome_integerWidth?_erase, ne_eq, Ty.erase_eq_null]

/-- A calculation yields a string, a double or an integer. -/
theorem BinaryOp.result?_cases {op : BinaryOp} {l r t : Ty} (h : op.result? l r = some t) :
    t = .string ∨ t = .float .f64 ∨ ∃ w, t = .integer w := by
  cases op with
  | add | multiply =>
    rw [result?] at h
    split_ifs at h
    · cases h
      exact .inl rfl
    · exact .inr (Ty.exists_of_arithmetic? h)
  | subtract | divide | modulo | power => exact .inr (Ty.exists_of_arithmetic? h)
  | equal | notEqual =>
    cases h
    exact .inr (.inr ⟨_, rfl⟩)
  | less | greater | lessEqual | greaterEqual | and | or =>
    rw [result?] at h
    split_ifs at h
    cases h
    exact .inr (.inr ⟨_, rfl⟩)
  | shiftLeft | shiftRight | bitAnd | bitOr | bitXor =>
    rw [result?] at h
    split_ifs at h
    exact .inr (.inr (Ty.exists_of_widest? h))

theorem BinaryOp.flat_result? {op : BinaryOp} {l r t : Ty} (h : op.result? l r = some t) :
    t.Flat := by
  rcases result?_cases h with rfl | rfl | ⟨_, rfl⟩ <;> trivial

/-- A sign and a complement keep the type, and a negation yields a truth value. -/
theorem UnaryOp.result?_cases {op : UnaryOp} {t u : Ty} (h : op.result? t = some u) :
    u = t ∨ u = .truth := by
  cases op <;> simp only [result?, Option.ite_none_right_eq_some, Option.some.injEq] at h
  · exact .inr h.2.symm
  · exact .inl h.2.symm
  · exact .inl h.2.symm
  · exact .inl h.2.symm

theorem UnaryOp.erase_result? (op : UnaryOp) {t u : Ty} (h : t.erase = u.erase) :
    (op.result? t).map Ty.erase = (op.result? u).map Ty.erase := by
  have hi : t.isInteger = u.isInteger := by rw [← Ty.isInteger_erase, h, Ty.isInteger_erase]
  have hn : t.isNumeric = u.isNumeric := by rw [← Ty.isNumeric_erase, h, Ty.isNumeric_erase]
  have h0 : t = .null ↔ u = .null := by rw [← Ty.erase_eq_null, h, Ty.erase_eq_null]
  cases op <;>
    simp only [result?, hi, hn, h0, ne_eq, apply_ite (Option.map Ty.erase), Option.map_some, h]

theorem UnaryOp.flat_result? {op : UnaryOp} {t u : Ty} (ht : t.Flat)
    (h : op.result? t = some u) : u.Flat := by
  rcases result?_cases h with rfl | rfl
  · exact ht
  · trivial

end StackCompiler
