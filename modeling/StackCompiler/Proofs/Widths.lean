import Mathlib.Data.List.Forall2
import Mathlib.Logic.Function.Basic
import StackCompiler.Proofs.Layout
import StackCompiler.Proofs.Translation

/-!
# Widths of types

Two source texts whose tokens differ only in the widths of scalar types are both read or both
refused, and the programs differ only in the types they declare. The widths of integers and floats
are of no consequence for checking as long as the types have the same shapes
(`Program.check_iff_of_shapes`). They do matter where a union is written: its members are compared
with their widths, so that `int | int` is an integer type and `int | long` a union of two.

That the widths of floats do not matter is seen by a translation that makes every float a double,
and that those of integers do not matter by comparing the translated programs up to erasure.
-/

namespace StackCompiler

/-- The scalar type, a float with the width of a double. -/
def Scalar.double : Scalar → Scalar
  | float _ => float .f64
  | s => s

/-- The scalar type without its width. -/
def Scalar.shape (s : Scalar) : Scalar :=
  s.double.erase

/-- What a token is, a scalar type without its width. -/
def TokenKind.shape : TokenKind → TokenKind
  | typeName s => typeName s.shape
  | kind => kind

/-- Only scalar types have another shape, and it is that of a scalar type. -/
theorem TokenKind.shape_cases (kind : TokenKind) :
    (∃ s, kind = typeName s) ∨ kind.shape = kind ∧ ∀ s, kind.shape ≠ typeName s := by
  cases kind with
  | typeName s => exact .inl ⟨s, rfl⟩
  | _ => exact .inr ⟨rfl, fun s hs => by cases hs⟩

namespace Ty

mutual

/-- The type with doubles for all its floats. -/
def double : Ty → Ty
  | null => null
  | scalar s => scalar s.double
  | array element length => array element.double length
  | union ts => union (doubleAll ts)

/-- The types of a list with doubles for all their floats. -/
def doubleAll : List Ty → List Ty
  | [] => []
  | t :: ts => t.double :: doubleAll ts

end

/-- The type without widths and lengths. -/
def shape (t : Ty) : Ty :=
  t.double.erase

theorem doubleAll_eq_map (ts : List Ty) : doubleAll ts = ts.map double := by
  induction ts with
  | nil => rfl
  | cons t ts ih => rw [doubleAll, ih, List.map_cons]

mutual

theorem double_mapLengths (f : Expr → Expr) : (t : Ty) →
    (t.mapLengths f).double = t.double.mapLengths f
  | null | scalar _ => rfl
  | array element length => by
    rw [mapLengths, double, double, mapLengths, double_mapLengths f element]
  | union ts => by rw [mapLengths, double, double, mapLengths, doubleAll_mapLengthsAll f ts]

theorem doubleAll_mapLengthsAll (f : Expr → Expr) : (ts : List Ty) →
    doubleAll (mapLengthsAll f ts) = mapLengthsAll f (doubleAll ts)
  | [] => rfl
  | t :: ts => by
    rw [mapLengthsAll, doubleAll, doubleAll, mapLengthsAll, double_mapLengths f t,
      doubleAll_mapLengthsAll f ts]

end

/-- The shape of a type does not depend on lengths. -/
theorem shape_mapLengths (f : Expr → Expr) (t : Ty) : (t.mapLengths f).shape = t.shape := by
  rw [shape, shape, double_mapLengths, erase_mapLengths]

theorem shape_fold (t : Ty) : t.fold.shape = t.shape := by
  rw [fold_eq_mapLengths, shape_mapLengths]

end Ty

/-- Doubles for all floats; names stay as they are. -/
def Translation.doubling : Translation where
  name := id
  ty := Ty.double

theorem Translation.faithful_doubling : doubling.Faithful where
  name_injective := Function.injective_id
  pointwise :=
    { kind := fun t => by
        cases t with
        | scalar s => cases s <;> rfl
        | null | array _ _ | union _ => rfl
      array := fun t length => by
        have hid : Expr.rename id = id := funext Expr.rename_id
        dsimp only [doubling]
        rw [hid, Option.map_id, id, Ty.double]
      union := fun ts => congrArg Ty.union (Ty.doubleAll_eq_map ts) }
  integer _ := rfl
  double := rfl

/-! ## Programs with other types -/

/-- The same declaration with another type, which has the same lengths. -/
structure Declaration.Retyped (d d' : Declaration) : Prop where
  eq : d' = { d with ty := d'.ty }
  lengths_eq : d'.ty.lengths = d.ty.lengths

/-- The same statement, with another type if it is a declaration. -/
inductive Statement.Retyped : Statement → Statement → Prop where
  | expression (e : Expr) : Statement.Retyped (.expression e) (.expression e)
  | declaration {d d' : Declaration} (h : d.Retyped d') :
    Statement.Retyped (.declaration d) (.declaration d')

/-- The shape of the type that a statement declares. -/
def Statement.shape? : Statement → Option Ty
  | expression _ => none
  | declaration d => some d.ty.shape

/-- The shapes of the types that a program declares, in order. -/
def Program.shapes (p : Program) : List Ty :=
  p.filterMap Statement.shape?

theorem Statement.Retyped.fold {stmt stmt' : Statement} (h : stmt.Retyped stmt') :
    stmt.fold.Retyped stmt'.fold := by
  cases h with
  | expression e => exact .expression e.fold
  | @declaration d d' h =>
    refine .declaration ⟨?_, ?_⟩
    · rw [h.eq]
      rfl
    · rw [Declaration.fold, Declaration.fold, Ty.lengths_fold, Ty.lengths_fold, h.lengths_eq]

theorem Program.shapes_fold (p : Program) : p.fold.shapes = p.shapes := by
  rw [shapes, shapes, fold, List.filterMap_map]
  congr 1
  funext stmt
  cases stmt with
  | expression e => rfl
  | declaration d => exact congrArg some d.ty.shape_fold

theorem Program.flat_fold {p : Program} (h : ∀ d, .declaration d ∈ p → d.ty.Flat) :
    ∀ d, .declaration d ∈ p.fold → d.ty.Flat := by
  intro d hd
  obtain ⟨stmt, hmem, hstmt⟩ := List.mem_map.1 hd
  cases stmt with
  | expression e => cases hstmt
  | declaration d' =>
    cases hstmt
    exact Ty.flat_fold.2 (h d' hmem)

theorem Program.Same.shapes_eq {p p' : Program} (h : Program.Same p p') : p.shapes = p'.shapes := by
  have hblank : ∀ q : Program, Program.shapes (q.mapRange .blank) = q.shapes := by
    intro q
    rw [shapes, shapes, Program.mapRange, List.filterMap_map]
    congr 1
    funext stmt
    cases stmt with
    | expression e => rfl
    | declaration d => exact congrArg some (d.ty.shape_mapLengths _)
  rw [← hblank p, ← hblank p', h]

namespace Comparison

/-- The comparison of programs that stand at the same places, up to erasure. -/
def erasing : Comparison :=
  { folding with
    ty := Ty.erase
    erase_ty := Ty.erase_erase }

theorem exprs_refl (e : Expr) : erasing.Exprs e e := by
  have h := exprs_mapRange (κ := erasing) (f := id) (fun _ => rfl) e
  rwa [Expr.mapRange_id] at h

/-- Declarations of types of the same shape, with doubles for floats. -/
theorem declarations_doubling {d d' : Declaration} (h : d.Retyped d')
    (hshape : d.ty.shape = d'.ty.shape) (hflat : d.ty.Flat) :
    erasing.Declarations (Translation.doubling.declaration d)
      (Translation.doubling.declaration d') := by
  have hlengths := Translation.faithful_doubling.pointwise.lengths
  refine ⟨?_, hshape, (Translation.faithful_doubling.pointwise.flat_iff d.ty).2 hflat, ?_, ?_, ?_⟩
  · rw [h.eq]
    rfl
  · dsimp only [Translation.declaration]
    rw [hlengths d.ty, hlengths d'.ty, h.lengths_eq]
    exact List.forall₂_same.2 fun e _ => exprs_refl e
  · rw [h.eq]
    exact List.forall₂_same.2 fun _ _ => ⟨rfl, rfl⟩
  · rw [h.eq]
    dsimp only [Translation.declaration]
    cases d.initializer with
    | none => exact .none
    | some e => exact .some (exprs_refl _)

theorem statements_doubling {p p' : Program} (h : List.Forall₂ Statement.Retyped p p')
    (hshapes : p.shapes = p'.shapes) (hflat : ∀ d, .declaration d ∈ p → d.ty.Flat) :
    List.Forall₂ erasing.Statements (Translation.doubling.program p)
      (Translation.doubling.program p') := by
  induction h with
  | nil => exact .nil
  | cons hstmt _ ih =>
    have htail := fun d hd => hflat d (List.mem_cons_of_mem _ hd)
    cases hstmt with
    | expression e => exact .cons (.expression (exprs_refl _)) (ih hshapes htail)
    | declaration h =>
      obtain ⟨hshape, hshapes⟩ := List.cons.inj hshapes
      exact .cons (.declaration (declarations_doubling h hshape (hflat _ List.mem_cons_self)))
        (ih hshapes htail)

end Comparison

theorem Translation.ended_eq_ok {τ : Translation} {r : EStateM.Result Complaint Checking Unit} :
    (∃ s, τ.ended r = .ok () s) ↔ ∃ s, r = .ok () s := by
  cases r with
  | ok _ s => exact iff_of_true ⟨_, rfl⟩ ⟨s, rfl⟩
  | error c s => exact iff_of_false (by rintro ⟨_, ⟨⟩⟩) (by rintro ⟨_, ⟨⟩⟩)

/-- Of two programs that differ only in their types, which have the same shapes, both are accepted
or none is. -/
theorem Program.check_iff_of_shapes {p p' : Program} (h : List.Forall₂ Statement.Retyped p p')
    (hshapes : p.shapes = p'.shapes) (hp : ∀ d, .declaration d ∈ p → d.ty.Flat)
    (hp' : ∀ d, .declaration d ∈ p' → d.ty.Flat) :
    (∃ s, p.check.run {} = .ok () s) ↔ ∃ s, p'.check.run {} = .ok () s := by
  have hdouble : ∀ q : Program, (∀ d, .declaration d ∈ q → d.ty.Flat) →
      ((∃ s, q.check.run {} = .ok () s) ↔
        ∃ s, (Translation.doubling.program q).check.run {} = .ok () s) := by
    intro q hq
    have hrun := Translation.faithful_doubling.run_check_program (fun d hd => .flat (hq d hd)) {}
      (by intro x v hv; cases hv)
    rw [← Translation.ended_eq_ok (τ := .doubling), ← hrun]
    exact Iff.rfl
  have halike := Comparison.check_program (Comparison.statements_doubling h hshapes hp) {} {}
    ⟨rfl, by intro x v hv; cases hv⟩
  rw [hdouble p hp, hdouble p' hp']
  generalize (Translation.doubling.program p).check.run {} = r at halike
  generalize (Translation.doubling.program p').check.run {} = r' at halike
  cases halike with
  | ok _ _ => exact iff_of_true ⟨_, rfl⟩ ⟨_, rfl⟩
  | error _ _ _ => exact iff_of_false (by rintro ⟨_, ⟨⟩⟩) (by rintro ⟨_, ⟨⟩⟩)

/-! ## Texts with other widths -/

/-- The token itself, or another scalar type in its place if it is one. -/
inductive Token.Recast (t : Token) : Token → Prop where
  | refl : Token.Recast t t
  | scalar {s : Scalar} (h : t.kind = .typeName s) (s' : Scalar) :
    Token.Recast t { t with kind := .typeName s' }

namespace Token.Recast

variable {t u : Token}

theorem of_shape {kind : TokenKind} (h : t.kind.shape = kind.shape) :
    t.Recast { t with kind } := by
  rcases t.kind.shape_cases with ⟨s, hs⟩ | ⟨ht, hne⟩
  · rcases kind.shape_cases with ⟨s', rfl⟩ | ⟨_, hne'⟩
    · exact .scalar hs s'
    · rw [hs] at h
      exact absurd h.symm (hne' _)
  · rcases kind.shape_cases with ⟨s', rfl⟩ | ⟨hk, _⟩
    · exact absurd h (hne _)
    · rw [← hk, ← h, ht]
      exact .refl

theorem range_eq (h : t.Recast u) : u.range = t.range := by
  cases h <;> rfl

theorem eq_of_ne (h : t.Recast u) (ht : ∀ s, t.kind ≠ .typeName s) : u = t := by
  cases h with
  | refl => rfl
  | scalar hs _ => exact absurd hs (ht _)

theorem eq_of_symbol (h : t.Recast u) {s : Symbol} (ht : t.kind = .symbol s) : u = t :=
  h.eq_of_ne fun s' hs => by
    rw [ht] at hs
    cases hs

theorem exists_scalar (h : t.Recast u) {s : Scalar} (ht : t.kind = .typeName s) :
    ∃ s', u.kind = .typeName s' := by
  cases h with
  | refl => exact ⟨s, ht⟩
  | scalar _ s' => exact ⟨s', rfl⟩

end Token.Recast

/-- Tokens that differ in the widths of scalar types only come from each other by recasting. -/
theorem exists_recast_of_shapes {ts ts' : List Token} (hts : ts.Nodup)
    (h : ts.map (fun t => t.kind.shape) = ts'.map fun t => t.kind.shape) :
    ∃ f : Token → Token, (∀ t : Token, t.Recast (f t)) ∧
      (ts.map f).map Token.kind = ts'.map Token.kind := by
  induction ts generalizing ts' with
  | nil =>
    rw [List.map_nil, eq_comm, List.map_eq_nil_iff] at h
    rw [h]
    exact ⟨id, fun _ => .refl, rfl⟩
  | cons t ts ih =>
    cases ts' with
    | nil => cases h
    | cons t' ts' =>
      obtain ⟨hkind, htail⟩ := List.cons.inj h
      obtain ⟨hnotMem, hts⟩ := List.nodup_cons.1 hts
      obtain ⟨f, hf, hmap⟩ := ih hts htail
      refine ⟨Function.update f t { t with kind := t'.kind }, fun u => ?_, ?_⟩
      · by_cases hu : u = t
        · rw [hu, Function.update_self]
          exact .of_shape hkind
        · rw [Function.update_of_ne hu]
          exact hf u
      · have hsame : ts.map (Function.update f t { t with kind := t'.kind }) = ts.map f :=
          List.map_congr_left fun u hu =>
            Function.update_of_ne (ne_of_mem_of_not_mem hu hnotMem) _ _
        rw [List.map_cons, List.map_cons, List.map_cons, Function.update_self, hsame, hmap]

section Recasting

variable {f : Token → Token}

theorem DistinctSites.recast (hf : ∀ t : Token, t.Recast (f t)) {ts : List Token}
    (h : DistinctSites ts) : DistinctSites (ts.map f) := by
  refine List.pairwise_map.2 (List.Pairwise.imp (fun hne => ?_) h)
  rwa [(hf _).range_eq, (hf _).range_eq]

mutual

/-- No token of an expression is a scalar type. -/
theorem Expr.Derives.map_recast (hf : ∀ t : Token, t.Recast (f t)) {n : Nat} {ts : List Token}
    {e : Expr} : Expr.Derives n ts e → ts.map f = ts
  | @Expr.Derives.literal t value h => by
    have ht : f t = t := (hf t).eq_of_ne fun s hs => by
      rw [Token.literal?, hs] at h
      cases h
    rw [List.map_singleton, ht]
  | @Expr.Derives.name t name h => by
    have ht : f t = t := (hf t).eq_of_ne fun s hs => by
      rw [h] at hs
      cases hs
    rw [List.map_singleton, ht]
  | .group hl he hr => by
    rw [List.map_append, List.map_cons, List.map_singleton, he.map_recast hf,
      (hf _).eq_of_symbol hl, (hf _).eq_of_symbol hr]
  | .array hl hi hr => by
    rw [List.map_append, List.map_cons, List.map_singleton, hi.map_recast hf,
      (hf _).eq_of_symbol hl, (hf _).eq_of_symbol hr]
  | .updateAfter he ht _ => by
    rw [List.map_append, List.map_singleton, he.map_recast hf, (hf _).eq_of_symbol ht]
  | .index hb hl hp hr => by
    rw [List.map_append, List.map_cons, List.map_append, List.map_singleton, hb.map_recast hf,
      hp.map_recast hf, (hf _).eq_of_symbol hl, (hf _).eq_of_symbol hr]
  | .updateBefore ht _ he => by
    rw [List.map_cons, he.map_recast hf, (hf _).eq_of_symbol ht]
  | .unary ht _ he => by
    rw [List.map_cons, he.map_recast hf, (hf _).eq_of_symbol ht]
  | .binary hl ht _ hr => by
    rw [List.map_append, List.map_cons, hl.map_recast hf, hr.map_recast hf,
      (hf _).eq_of_symbol ht]
  | .assign hl ht _ hr => by
    rw [List.map_append, List.map_cons, hl.map_recast hf, hr.map_recast hf,
      (hf _).eq_of_symbol ht]
  | .sequence hl ht hr => by
    rw [List.map_append, List.map_cons, hl.map_recast hf, hr.map_recast hf,
      (hf _).eq_of_symbol ht]
  | .ofNext h => h.map_recast hf

theorem Expr.DerivesItems.map_recast (hf : ∀ t : Token, t.Recast (f t)) {ts : List Token}
    {es : List Expr} : Expr.DerivesItems ts es → ts.map f = ts
  | .none => rfl
  | .some he hs => by rw [List.map_append, he.map_recast hf, hs.map_recast hf]

theorem Expr.DerivesMore.map_recast (hf : ∀ t : Token, t.Recast (f t)) {ts : List Token}
    {es : List Expr} : Expr.DerivesMore ts es → ts.map f = ts
  | .nil => rfl
  | .cons ht he hs => by
    rw [List.map_append, List.map_cons, he.map_recast hf, hs.map_recast hf,
      (hf _).eq_of_symbol ht]

end

/-- All lengths of fresh members are lengths of their union. -/
theorem Ty.lengths_join_of_fresh {us : List Token} {ts : List Ty}
    (h : Fresh us (ts.flatMap members)) : (join ts).lengths = ts.flatMap lengths := by
  have hfold : ∀ ms kept : List Ty, (kept ++ ms).Pairwise Apart →
      (ms.foldl addNew kept).flatMap lengths = (kept ++ ms).flatMap lengths := by
    intro ms
    induction ms with
    | nil =>
      intro kept _
      rw [List.foldl_nil, List.append_nil]
    | cons m ms ih =>
      intro kept hfresh
      rw [List.foldl_cons, addNew]
      split_ifs with hm
      · -- The member is there already, and then it has no lengths.
        obtain ⟨u, hu, hequals⟩ := any_equals_iff.1 hm
        have hapart := (List.pairwise_append.1 hfresh).2.2 u hu m List.mem_cons_self
        have hnil : m.lengths = [] :=
          hequals.eq (hequals.lengths_eq_nil hapart) ▸ hequals.lengths_eq_nil hapart
        rw [ih kept (hfresh.sublist (List.Sublist.append_left (List.sublist_cons_self m ms) kept)),
          List.flatMap_append, List.flatMap_append, List.flatMap_cons, hnil, List.nil_append]
      · rw [List.append_cons] at hfresh
        rw [ih _ hfresh, ← List.append_cons]
  have hall := hfold (ts.flatMap members) [] h.apart
  rw [join, lengths_ofMembers, hall, List.nil_append, flatMap_lengths_flatMap_members]

theorem Ty.flatMap_lengths_congr {ts ts' : List Ty}
    (h : List.Forall₂ (fun t t' => t'.lengths = t.lengths) ts ts') :
    ts'.flatMap lengths = ts.flatMap lengths := by
  induction h with
  | nil => rfl
  | cons ht _ ih => rw [List.flatMap_cons, List.flatMap_cons, ht, ih]

mutual

/-- Recast tokens of a type are written for another type with the same lengths. -/
theorem Ty.Derives.recast (hf : ∀ t : Token, t.Recast (f t)) {ts : List Token} {t : Ty} :
    Ty.Derives ts t → DistinctSites ts → ∃ t', Ty.Derives (ts.map f) t' ∧ t'.lengths = t.lengths
  | .single h, hts => by
    obtain ⟨t', ht', hlengths⟩ := h.recast hf hts
    exact ⟨t', .single ht', hlengths⟩
  | @Ty.Derives.union ts us t u others h hs, hts => by
    obtain ⟨t', ht', hlengths⟩ := h.recast hf (hts.sublist (List.sublist_append_left ts us))
    obtain ⟨others', hothers', hall⟩ := hs.recast hf (hts.sublist (List.sublist_append_right ts us))
    cases hall with
    | @cons _ u' _ others' hu' hall =>
      have hfresh := Ty.Fresh.append h.fresh hs.fresh hts
      have hts' := DistinctSites.recast hf hts
      rw [List.map_append] at hts' ⊢
      have hfresh' := Ty.Fresh.append ht'.fresh hothers'.fresh hts'
      rw [← List.flatMap_cons] at hfresh hfresh'
      refine ⟨_, .union ht' hothers', ?_⟩
      rw [Ty.lengths_join_of_fresh hfresh, Ty.lengths_join_of_fresh hfresh',
        Ty.flatMap_lengths_congr (.cons hlengths (.cons hu' hall))]

theorem Ty.DerivesMember.recast (hf : ∀ t : Token, t.Recast (f t)) {ts : List Token} {t : Ty} :
    Ty.DerivesMember ts t → DistinctSites ts →
      ∃ t', Ty.DerivesMember (ts.map f) t' ∧ t'.lengths = t.lengths
  | .scalar h, _ => by
    obtain ⟨s', hs'⟩ := (hf _).exists_scalar h
    exact ⟨.scalar s', .scalar hs', rfl⟩
  | @Ty.DerivesMember.null t h, _ => by
    have ht : f t = t := (hf t).eq_of_ne fun s hs => by
      rw [h] at hs
      cases hs
    rw [List.map_singleton, ht]
    exact ⟨.null, .null h, rfl⟩
  | @Ty.DerivesMember.group l r ts _ hl h hr, hts => by
    have hsub : ts.Sublist (l :: ts ++ [r]) :=
      (List.sublist_append_left ts [r]).trans (List.sublist_cons_self l _)
    obtain ⟨t', ht', hlengths⟩ := h.recast hf (hts.sublist hsub)
    rw [List.map_append, List.map_cons, List.map_singleton, (hf _).eq_of_symbol hl,
      (hf _).eq_of_symbol hr]
    exact ⟨t', .group hl ht' hr, hlengths⟩
  | .array h hl hr, hts => by
    obtain ⟨t', ht', hlengths⟩ := h.recast hf (hts.sublist (List.sublist_append_left _ _))
    rw [List.map_append, List.map_cons, List.map_singleton, (hf _).eq_of_symbol hl,
      (hf _).eq_of_symbol hr]
    exact ⟨_, .array ht' hl hr, hlengths⟩
  | .sized h hl he hr, hts => by
    obtain ⟨t', ht', hlengths⟩ := h.recast hf (hts.sublist (List.sublist_append_left _ _))
    rw [List.map_append, List.map_cons, List.map_append, List.map_singleton, he.map_recast hf,
      (hf _).eq_of_symbol hl, (hf _).eq_of_symbol hr]
    exact ⟨_, .sized ht' hl he hr, by rw [Ty.lengths, Ty.lengths, hlengths]⟩

theorem Ty.DerivesOthers.recast (hf : ∀ t : Token, t.Recast (f t)) {us : List Token}
    {ts : List Ty} : Ty.DerivesOthers us ts → DistinctSites us →
      ∃ ts', Ty.DerivesOthers (us.map f) ts' ∧
        List.Forall₂ (fun t t' => t'.lengths = t.lengths) ts ts'
  | .nil, _ => ⟨[], .nil, .nil⟩
  | .cons hb h hs, hus => by
    rw [List.cons_append, DistinctSites, List.pairwise_cons] at hus
    obtain ⟨t', ht', hlengths⟩ := h.recast hf (hus.2.sublist (List.sublist_append_left _ _))
    obtain ⟨ts', hts', hall⟩ := hs.recast hf (hus.2.sublist (List.sublist_append_right _ _))
    rw [List.map_append, List.map_cons, (hf _).eq_of_symbol hb]
    exact ⟨t' :: ts', .cons hb ht' hts', .cons hlengths hall⟩

end

theorem Ident.DeriveNames.map_recast (hf : ∀ t : Token, t.Recast (f t)) {ts : List Token}
    {ids : List Ident} (h : Ident.DeriveNames ts ids) : ts.map f = ts := by
  have hname : ∀ {t : Token} {x : String}, t.kind = .identifier x → f t = t := by
    intro t x ht
    refine (hf t).eq_of_ne fun s hs => ?_
    rw [ht] at hs
    cases hs
  obtain ⟨ht, hs⟩ := h
  rw [List.map_cons, hname ht]
  congr 1
  induction hs with
  | nil => rfl
  | cons hc h _ ih => rw [List.map_cons, List.map_cons, ih, hname h, (hf _).eq_of_symbol hc]

theorem Declaration.DerivesInitializer.map_recast (hf : ∀ t : Token, t.Recast (f t))
    {ts : List Token} {initializer : Option Expr}
    (h : Declaration.DerivesInitializer ts initializer) : ts.map f = ts := by
  cases h with
  | none => rfl
  | some ht he => rw [List.map_cons, he.map_recast hf, (hf _).eq_of_symbol ht]

/-- Recast tokens of a declaration are written for the declaration with another type. -/
theorem Declaration.Derives.recast (hf : ∀ t : Token, t.Recast (f t)) {ts : List Token}
    {d : Declaration} (h : Declaration.Derives ts d) (hts : DistinctSites ts) :
    ∃ d', Declaration.Derives (ts.map f) d' ∧ d.Retyped d' := by
  -- None of the tokens but those of the type is a scalar type.
  have hmap : ∀ {keyword colon stop : Token} {ns us is : List Token} {names : List Ident}
      {initializer : Option Expr}, (∀ s, keyword.kind ≠ .typeName s) →
      Ident.DeriveNames ns names → colon.kind = .symbol .colon →
      Declaration.DerivesInitializer is initializer → stop.kind = .symbol .semicolon →
      (keyword :: (ns ++ colon :: (us ++ (is ++ [stop])))).map f =
        keyword :: (ns ++ colon :: (us.map f ++ (is ++ [stop]))) := by
    intro keyword colon stop ns us is names initializer hk hn hc hi hs
    simp only [List.map_cons, List.map_append, List.map_nil, (hf keyword).eq_of_ne hk,
      hn.map_recast hf, (hf colon).eq_of_symbol hc, hi.map_recast hf, (hf stop).eq_of_symbol hs]
  cases h with
  | mutable hk hn hc ht hi hs =>
    obtain ⟨ty', hty', hlengths⟩ :=
      ht.recast hf (hts.sublist (Declaration.sublist_tokens _ _ _ _ _))
    rw [hmap (fun s h => by rw [hk] at h; cases h) hn hc hi hs]
    exact ⟨_, .mutable hk hn hc hty' hi hs, rfl, hlengths⟩
  | constant hk hn hc ht hi hs =>
    obtain ⟨ty', hty', hlengths⟩ :=
      ht.recast hf (hts.sublist (Declaration.sublist_tokens _ _ _ _ _))
    rw [hmap (fun s h => by rw [hk] at h; cases h) hn hc hi hs]
    exact ⟨_, .constant hk hn hc hty' hi hs, rfl, hlengths⟩

/-- Recast tokens of a program are written for the program with other types. -/
theorem Program.Derives.recast (hf : ∀ t : Token, t.Recast (f t)) {ts : List Token} {p : Program}
    (h : Program.Derives ts p) (hts : DistinctSites ts) :
    ∃ p', Program.Derives (ts.map f) p' ∧ List.Forall₂ Statement.Retyped p p' := by
  induction h with
  | nil => exact ⟨[], .nil, .nil⟩
  | @cons ts us stmt p hs hp ih =>
    obtain ⟨p', hp', hall⟩ := ih (hts.sublist (List.sublist_append_right ts us))
    rw [List.map_append]
    cases hs with
    | empty h =>
      rw [List.map_singleton, (hf _).eq_of_symbol h]
      exact ⟨_, .cons (.empty h) hp', hall⟩
    | declaration h =>
      obtain ⟨d', hd', hretyped⟩ := h.recast hf (hts.sublist (List.sublist_append_left ts us))
      exact ⟨_, .cons (.declaration hd') hp', .cons (.declaration hretyped) hall⟩
    | expression he hstop =>
      rw [List.map_append, he.map_recast hf, List.map_singleton, (hf _).eq_of_symbol hstop]
      exact ⟨_, .cons (.expression he hstop) hp', .cons (.expression _) hall⟩

end Recasting

/-- A source text with other widths is read as well, as a program that differs from the first in
its types and places only. -/
theorem Program.exists_ofSource_of_shapes {source source' : String} {ts ts' : List Token}
    (h : tokenize source = .ok ts) (h' : tokenize source' = .ok ts')
    (hshapes : ts.map (fun t => t.kind.shape) = ts'.map fun t => t.kind.shape) {p : Program}
    (hp : Program.ofSource source = .ok p) :
    ∃ q p' : Program, List.Forall₂ Statement.Retyped p q ∧ (∀ d, .declaration d ∈ q → d.ty.Flat) ∧
      Program.Same q p' ∧ Program.ofSource source' = .ok p' := by
  have htiling : Tiling [] source.toList ts := .of_scan h
  have htiling' : Tiling [] source'.toList ts' := .of_scan h'
  have hnodup : ts.Nodup := htiling.distinctSites.imp fun hne heq => hne (by rw [heq])
  obtain ⟨f, hf, hkinds⟩ := exists_recast_of_shapes hnodup hshapes
  obtain ⟨us, stop, hts, hd, hstop, _⟩ := ofSource_eq_ok hp
  cases h.symm.trans hts
  obtain ⟨q, hq, hretyped⟩ :=
    hd.recast hf (htiling.distinctSites.sublist (List.sublist_append_left us [stop]))
  have heof : (f stop).kind = .eof := by
    rwa [(hf stop).eq_of_ne fun s hs => by rw [hstop] at hs; cases hs]
  have hparse := hq.parse heof []
  rw [← List.map_singleton, ← List.map_append] at hparse
  -- The recast tokens have the kinds of the other text, and stand where those of the first do.
  have hmatches := Program.parse_matches _ ts'
    (.of_map_kind hkinds (DistinctSites.recast hf htiling.distinctSites) htiling'.distinctSites)
  rw [hparse] at hmatches
  have hsource' : Program.ofSource source' = Program.parse ts' := by
    rw [Program.ofSource, h']
  rw [← hsource'] at hmatches
  generalize Program.ofSource source' = r at hmatches
  cases hmatches with
  | @ok _ p' hsame =>
    refine ⟨q, p', hretyped, fun d hmem => ?_, hsame, rfl⟩
    exact Program.flat_of_parse hparse hmem

/-- Widths are advisory where they leave the members of unions apart. Of two source texts whose
tokens differ only in the widths of scalar types, both are read or none is. If the declared types
then have the same shapes, the programs are both accepted or both refused. -/
theorem Program.check_of_widths {source source' : String} {ts ts' : List Token}
    (h : tokenize source = .ok ts) (h' : tokenize source' = .ok ts')
    (hshapes : ts.map (fun t => t.kind.shape) = ts'.map fun t => t.kind.shape) :
    ((∃ p, Program.ofSource source = .ok p) ↔ ∃ p', Program.ofSource source' = .ok p') ∧
      ∀ p p', Program.ofSource source = .ok p → Program.ofSource source' = .ok p' →
        p.shapes = p'.shapes →
        ((∃ s, p.fold.check.run {} = .ok () s) ↔ ∃ s, p'.fold.check.run {} = .ok () s) := by
  refine ⟨⟨?_, ?_⟩, fun p p' hp hp' hsame => ?_⟩
  · rintro ⟨p, hp⟩
    obtain ⟨_, p', _, _, _, hp'⟩ := exists_ofSource_of_shapes h h' hshapes hp
    exact ⟨p', hp'⟩
  · rintro ⟨p', hp'⟩
    obtain ⟨_, p, _, _, _, hp⟩ := exists_ofSource_of_shapes h' h hshapes.symm hp'
    exact ⟨p, hp⟩
  · obtain ⟨q, p'', hretyped, hq, hqp, hp''⟩ := exists_ofSource_of_shapes h h' hshapes hp
    cases hp'.symm.trans hp''
    have hpq : p.fold.shapes = q.fold.shapes := by
      rw [shapes_fold, shapes_fold, hsame, hqp.shapes_eq]
    have hfold : List.Forall₂ Statement.Retyped p.fold q.fold :=
      List.forall₂_map_left_iff.2 (List.forall₂_map_right_iff.2
        (hretyped.imp fun _ _ => Statement.Retyped.fold))
    rw [check_iff_of_shapes hfold hpq (fun _ => flat_fold_of_ofSource hp) (flat_fold hq)]
    rcases hqp.fold.check (flat_fold hq) fun _ => flat_fold_of_ofSource hp' with
      ⟨s, s', hs, hs'⟩ | ⟨c, c', s, s', hs, hs', _⟩
    · exact iff_of_true ⟨s, hs⟩ ⟨s', hs'⟩
    · rw [hs, hs']
      exact iff_of_false (by rintro ⟨_, ⟨⟩⟩) (by rintro ⟨_, ⟨⟩⟩)

/-- The widths of two integers and of the floats of an array are others, and the members of the
union stay apart. -/
theorem Program.check_of_widths_array :
    ∃ p p' s', Program.ofSource "mut a: byte | long | float[2] = 1;" = .ok p ∧
      Program.ofSource "mut a: u8 | short | double[2] = 1;" = .ok p' ∧
      p.shapes = [.union [.integer .i32, .integer .i32, .array (.float .f64) none]] ∧
      p'.shapes = p.shapes ∧ p'.fold.check.run {} = .ok () s' := by
  have h : (tokenize "mut a: byte | long | float[2] = 1;").map
      (List.map fun t => t.kind.shape) = .ok [.mutable, .identifier "a", .symbol .colon,
        .typeName (.integer .i32), .symbol .pipe, .typeName (.integer .i32), .symbol .pipe,
        .typeName (.float .f64), .symbol .leftBracket, .integer 2, .symbol .rightBracket,
        .symbol .equal, .integer 1, .symbol .semicolon, .eof] := by
    decide +kernel
  have h' : (tokenize "mut a: u8 | short | double[2] = 1;").map
      (List.map fun t => t.kind.shape) = .ok [.mutable, .identifier "a", .symbol .colon,
        .typeName (.integer .i32), .symbol .pipe, .typeName (.integer .i32), .symbol .pipe,
        .typeName (.float .f64), .symbol .leftBracket, .integer 2, .symbol .rightBracket,
        .symbol .equal, .integer 1, .symbol .semicolon, .eof] := by
    decide +kernel
  have hrun : (Program.ofSource "mut a: byte | long | float[2] = 1;").map
      (fun p => (p.shapes, p.fold.check.run {})) = .ok
        ([.union [.integer .i32, .integer .i32, .array (.float .f64) none]],
          .ok () ⟨⟨⟨[("a", ⟨.union [.integer .i8, .integer .i64, .array (.float .f32)
            (some (.literal (.integer 2) ⟨1, 27, 28⟩))], true, true⟩)], []⟩, []⟩, []⟩) := by
    decide +kernel
  have hshapes' : (Program.ofSource "mut a: u8 | short | double[2] = 1;").map Program.shapes =
      .ok [.union [.integer .i32, .integer .i32, .array (.float .f64) none]] := by
    decide +kernel
  obtain ⟨ts, hts, hkinds⟩ := map_eq_ok.1 h
  obtain ⟨ts', hts', hkinds'⟩ := map_eq_ok.1 h'
  obtain ⟨p, hp, hrun⟩ := map_eq_ok.1 hrun
  obtain ⟨p', hp', hshapes'⟩ := map_eq_ok.1 hshapes'
  obtain ⟨hshapes, hs⟩ := Prod.mk.inj hrun
  obtain ⟨_, hiff⟩ := Program.check_of_widths hts hts' (hkinds.trans hkinds'.symm)
  obtain ⟨s', hs'⟩ := (hiff p p' hp hp' (hshapes.trans hshapes'.symm)).1 ⟨_, hs⟩
  exact ⟨p, p', s', hp, hp', hshapes, hshapes'.trans hshapes.symm, hs'⟩

/-- A union of two integers of one width is an integer type, whose values an integer takes. Of two
widths it is a union, whose values it does not take. -/
theorem Program.exists_check_ne_of_widths :
    ∃ ts ts' p p' s c s', tokenize "const a: int | int = 1; const b: int = a;" = .ok ts ∧
      tokenize "const a: int | long = 1; const b: int = a;" = .ok ts' ∧
      ts.map (fun t => t.kind.shape) = ts'.map (fun t => t.kind.shape) ∧
      Program.ofSource "const a: int | int = 1; const b: int = a;" = .ok p ∧
      Program.ofSource "const a: int | long = 1; const b: int = a;" = .ok p' ∧
      p.fold.check.run {} = .ok () s ∧ p'.fold.check.run {} = .error c s' := by
  have h : (tokenize "const a: int | int = 1; const b: int = a;").map
      (List.map fun t => t.kind.shape) = .ok [.constant, .identifier "a", .symbol .colon,
        .typeName (.integer .i32), .symbol .pipe, .typeName (.integer .i32), .symbol .equal,
        .integer 1, .symbol .semicolon, .constant, .identifier "b", .symbol .colon,
        .typeName (.integer .i32), .symbol .equal, .identifier "a", .symbol .semicolon, .eof] := by
    decide +kernel
  have h' : (tokenize "const a: int | long = 1; const b: int = a;").map
      (List.map fun t => t.kind.shape) = .ok [.constant, .identifier "a", .symbol .colon,
        .typeName (.integer .i32), .symbol .pipe, .typeName (.integer .i32), .symbol .equal,
        .integer 1, .symbol .semicolon, .constant, .identifier "b", .symbol .colon,
        .typeName (.integer .i32), .symbol .equal, .identifier "a", .symbol .semicolon, .eof] := by
    decide +kernel
  have hrun : (Program.ofSource "const a: int | int = 1; const b: int = a;").map
      (fun p => p.fold.check.run {}) = .ok (.ok () ⟨⟨⟨[("b", ⟨.integer .i32, false, true⟩),
        ("a", ⟨.integer .i32, false, true⟩)], []⟩, []⟩, []⟩) := by
    decide +kernel
  have hrun' : (Program.ofSource "const a: int | long = 1; const b: int = a;").map
      (fun p => p.fold.check.run {}) = .ok (.error
        ⟨⟨1, 40, 41⟩, .type (.mismatch (.integer .i32) (.union [.integer .i32, .integer .i64]))⟩
        ⟨⟨⟨[("a", ⟨.union [.integer .i32, .integer .i64], false, true⟩)], []⟩, []⟩, []⟩) := by
    decide +kernel
  obtain ⟨ts, hts, hkinds⟩ := map_eq_ok.1 h
  obtain ⟨ts', hts', hkinds'⟩ := map_eq_ok.1 h'
  obtain ⟨p, hp, hs⟩ := map_eq_ok.1 hrun
  obtain ⟨p', hp', hs'⟩ := map_eq_ok.1 hrun'
  exact ⟨ts, ts', p, p', _, _, _, hts, hts', hkinds.trans hkinds'.symm, hp, hp', hs, hs'⟩

end StackCompiler
