import StackCompiler.Proofs.Comparison

/-!
# Programs in other words

A `Translation` gives a program other names and other types. It is faithful if different names stay
different and the types keep all that checking looks at: their kinds, their parts and the widths of
their integers. A program and its translation are then checked side by side
(`Translation.Faithful.check_program`): from translated environments both succeed or both complain
at the same place, with the translated reason, with the same warnings and in translated
environments. Only where different types become equal do the types have to be flat
(`Translation.Fits`), because a union keeps its members apart by comparing them
(`Ty.KeepsEquality`).
-/

namespace StackCompiler

/-- The name by another one. -/
def Ident.rename (ρ : String → String) (id : Ident) : Ident :=
  { id with name := ρ id.name }

namespace Expr

variable {ρ ρ' : String → String}

mutual

/-- The tree with other names. -/
def rename (ρ : String → String) : Expr → Expr
  | literal value r => literal value r
  | ident id => ident (id.rename ρ)
  | binary op left right r => binary op (left.rename ρ) (right.rename ρ) r
  | unary op operand r => unary op (operand.rename ρ) r
  | update op leading target r => update op leading (target.rename ρ) r
  | assign op target value r => assign op (target.rename ρ) (value.rename ρ) r
  | sequence items r => sequence (renameAll ρ items) r
  | array items r => array (renameAll ρ items) r
  | index base position r => index (base.rename ρ) (position.rename ρ) r

/-- The trees of a list with other names. -/
def renameAll (ρ : String → String) : List Expr → List Expr
  | [] => []
  | e :: es => e.rename ρ :: renameAll ρ es

end

@[simp] theorem range_rename (e : Expr) : (e.rename ρ).range = e.range := by
  cases e <;> rfl

@[simp] theorem length_renameAll (es : List Expr) : (renameAll ρ es).length = es.length := by
  induction es with
  | nil => rfl
  | cons e es ih => rw [renameAll, List.length_cons, List.length_cons, ih]

mutual

/-- Equal trees have equal renamed ones. -/
theorem Equals.rename : {e e' : Expr} → Equals e e' → Equals (e.rename ρ) (e'.rename ρ)
  | _, _, .literal h => .literal h
  | _, _, .ident i => .ident (i.rename ρ)
  | _, _, .binary hl hr => .binary hl.rename hr.rename
  | _, _, .unary h => .unary h.rename
  | _, _, .update o f t p => .update o f (t.rename ρ) p
  | _, _, .assign h => .assign h.rename
  | _, _, .sequence h => .sequence h.renameAll
  | _, _, .array h => .array h.renameAll
  | _, _, .index he hi => .index he.rename hi.rename

theorem EqualsAll.renameAll : {es es' : List Expr} → EqualsAll es es' →
    EqualsAll (renameAll ρ es) (renameAll ρ es')
  | _, _, .nil => .nil
  | _, _, .cons h hs => .cons h.rename hs.renameAll

end

mutual

theorem rename_rename : (e : Expr) → (e.rename ρ).rename ρ' = e.rename (ρ' ∘ ρ)
  | literal _ _ | ident _ | update _ _ _ _ => rfl
  | binary op l r _ => by simp only [rename, rename_rename l, rename_rename r]
  | unary op e _ => by simp only [rename, rename_rename e]
  | assign op target value _ => by
    simp only [rename, rename_rename value, Ident.rename, Function.comp_apply]
  | sequence items _ => by simp only [rename, renameAll_renameAll items]
  | array items _ => by simp only [rename, renameAll_renameAll items]
  | index base position _ => by simp only [rename, rename_rename base, rename_rename position]

theorem renameAll_renameAll : (es : List Expr) →
    renameAll ρ' (renameAll ρ es) = renameAll (ρ' ∘ ρ) es
  | [] => rfl
  | e :: es => by simp only [renameAll, rename_rename e, renameAll_renameAll es]

end

mutual

theorem rename_id : (e : Expr) → e.rename id = e
  | literal _ _ | ident _ | update _ _ _ _ => rfl
  | binary op l r _ => by rw [rename, rename_id l, rename_id r]
  | unary op e _ => by rw [rename, rename_id e]
  | assign op target value _ => by rw [rename, rename_id value, Ident.rename, id]
  | sequence items _ => by rw [rename, renameAll_id items]
  | array items _ => by rw [rename, renameAll_id items]
  | index base position _ => by rw [rename, rename_id base, rename_id position]

theorem renameAll_id : (es : List Expr) → renameAll id es = es
  | [] => rfl
  | e :: es => by rw [renameAll, rename_id e, renameAll_id es]

end

end Expr

namespace Ty

theorem lengths_of_kind {t : Ty} (ha : t.kind ≠ .array) (hu : t.kind ≠ .union) :
    t.lengths = [] := by
  cases t with
  | array _ _ => exact absurd rfl ha
  | union _ => exact absurd rfl hu
  | null | scalar _ => rfl

namespace Pointwise

variable {φ : Ty → Ty} {f : Expr → Expr}

mutual

/-- Where the lengths are changed one by one, they are the changed ones, in order. -/
theorem lengths (h : Pointwise φ (Option.map f)) : (t : Ty) → (φ t).lengths = t.lengths.map f
  | .null => lengths_of_kind (by rw [h.kind]; nofun) (by rw [h.kind]; nofun)
  | .scalar s => by
    refine lengths_of_kind ?_ ?_
    · rw [h.kind]
      cases s <;> nofun
    · rw [h.kind]
      cases s <;> nofun
  | .array element length => by
    rw [h.array, Ty.lengths, Ty.lengths, h.lengths element, List.map_append, Option.toList_map]
  | .union ts => by
    rw [h.union, Ty.lengths, Ty.lengths, h.lengthsAll ts]

theorem lengthsAll (h : Pointwise φ (Option.map f)) : (ts : List Ty) →
    Ty.lengthsAll (ts.map φ) = (Ty.lengthsAll ts).map f
  | [] => rfl
  | t :: ts => by
    rw [List.map_cons, Ty.lengthsAll, Ty.lengthsAll, h.lengths t, h.lengthsAll ts, List.map_append]

end

variable {g : Option Expr → Option Expr}

theorem integerWidth? (h : Pointwise φ g) (hint : ∀ w, φ (.integer w) = .integer w) (t : Ty) :
    (φ t).integerWidth? = t.integerWidth? := by
  have hwidth : ∀ u : Ty, (φ u).width? = u.width? := by
    intro u
    by_cases hu : u.kind = .integer
    · cases u with
      | scalar s =>
        cases s with
        | integer w => rw [hint]
        | float _ | string | char => cases hu
      | null | array _ _ | union _ => cases hu
    · have hnone : ∀ v : Ty, v.kind ≠ .integer → v.width? = none := by
        intro v hv
        cases v with
        | scalar s =>
          cases s with
          | integer w => exact absurd rfl hv
          | float _ | string | char => rfl
        | null | array _ _ | union _ => rfl
      rw [hnone u hu, hnone (φ u) (by rwa [h.kind])]
  have hfilter : (φ t).members.filterMap width? = t.members.filterMap width? := by
    rw [h.members, List.filterMap_map]
    congr 1
    funext u
    exact hwidth u
  rw [Ty.integerWidth?, Ty.integerWidth?, hfilter]

theorem indexed? (h : Pointwise φ g) (t : Ty) : (φ t).indexed? = t.indexed?.map φ := by
  have hnone : ∀ u : Ty, u.kind ≠ .array → u.kind ≠ .string → u.indexed? = none := by
    intro u ha hs
    cases u with
    | array _ _ => exact absurd rfl ha
    | scalar s =>
      cases s with
      | string => exact absurd rfl hs
      | integer _ | float _ | char => rfl
    | null | union _ => rfl
  by_cases hs : t.kind = .string
  · have hstring : φ t = .string := eq_string_iff.2 (by rw [h.kind, hs])
    have hchar : φ .char = .char := eq_char_iff.2 (by rw [h.kind]; rfl)
    rw [hstring, eq_string_iff.2 hs, Ty.indexed?, Option.map_some, hchar]
  by_cases ha : t.kind = .array
  · cases t with
    | array element length => rw [h.array, Ty.indexed?, Ty.indexed?, Option.map_some]
    | scalar s => cases s <;> cases ha
    | null | union _ => cases ha
  · rw [hnone t ha hs, hnone (φ t) (by rwa [h.kind]) (by rwa [h.kind]), Option.map_none]

end Pointwise

end Ty

/-- Other names and other types. -/
structure Translation where
  name : String → String
  ty : Ty → Ty

namespace Translation

section Words

variable (τ : Translation)

/-- The procedure with other types. -/
def procedure (p : Procedure) : Procedure :=
  ⟨p.parameters.map τ.ty, τ.ty p.returns⟩

/-- The environment with other names and types. -/
def environment (env : Environment) : Environment :=
  env.map τ.name (Variable.mapTy τ.ty) (List.map fun p => (τ.name p.1, τ.procedure p.2))

/-- What has been found, with other names and types. Warnings name neither. -/
def checking (s : Checking) : Checking :=
  ⟨τ.environment s.environment, s.warnings⟩

/-- The fault with the other name. -/
def nameFault : NameFault → NameFault
  | .undeclared x => .undeclared (τ.name x)
  | .alreadyDeclared x => .alreadyDeclared (τ.name x)

/-- The fault with the other name or types. -/
def typeFault : TypeFault → TypeFault
  | .mismatch expected found => .mismatch (τ.ty expected) (τ.ty found)
  | .immutableAssignment x => .immutableAssignment (τ.name x)
  | .uninitialized x => .uninitialized (τ.name x)
  | .uninitializedUpdate op x => .uninitializedUpdate op (τ.name x)
  | .invalidUpdate op found => .invalidUpdate op (τ.ty found)
  | .invalidUnary op found => .invalidUnary op (τ.ty found)
  | .invalidBinary op left right => .invalidBinary op (τ.ty left) (τ.ty right)
  | .notIndexable found => .notIndexable (τ.ty found)
  | .invalidIndex found => .invalidIndex (τ.ty found)
  | .invalidLength found => .invalidLength (τ.ty found)

/-- The fault with other names and types; faults in reading stay as they are. -/
def fault : Fault → Fault
  | .name cause => .name (τ.nameFault cause)
  | .type cause => .type (τ.typeFault cause)
  | .lexical cause => .lexical cause
  | .grammatical cause => .grammatical cause

/-- The complaint at the same place with other names and types. -/
def complaint (c : Complaint) : Complaint :=
  ⟨c.range, τ.fault c.fault⟩

/-- The declaration with other names and types. -/
def declaration (d : Declaration) : Declaration :=
  ⟨d.isMutable, τ.ty d.ty, d.names.map (Ident.rename τ.name),
    d.initializer.map (Expr.rename τ.name), d.range⟩

/-- The statement with other names and types. -/
def statement : Statement → Statement
  | .expression e => .expression (e.rename τ.name)
  | .declaration d => .declaration (τ.declaration d)

/-- The program with other names and types. -/
def program (p : Program) : Program :=
  p.map τ.statement

/-- What a check ends with, with other names and types. -/
def ended : EStateM.Result Complaint Checking Unit → EStateM.Result Complaint Checking Unit
  | .ok _ s => .ok () (τ.checking s)
  | .error c s => .error (τ.complaint c) (τ.checking s)

/-- Different names stay different, and types keep all that checking looks at. -/
structure Faithful : Prop where
  name_injective : Function.Injective τ.name
  pointwise : Ty.Pointwise τ.ty (Option.map (Expr.rename τ.name))
  integer : ∀ w, τ.ty (.integer w) = .integer w
  double : τ.ty (.float .f64) = .float .f64

/-- The type is joined and merged with others as its translation is: because equality is kept, or
because nothing in it is compared. -/
def Fits (t : Ty) : Prop :=
  Ty.KeepsEquality τ.ty ∨ t.Flat

/-- The environment before and after the translation, of types that fit. -/
structure States (s s' : Checking) : Prop where
  eq : s' = τ.checking s
  fits : ∀ {x v}, s.environment.get? x = some v → τ.Fits v.ty

/-- The type before and after the translation, if it fits. -/
structure Types (t t' : Ty) : Prop where
  eq : t' = τ.ty t
  fits : τ.Fits t

/-- The variable before and after the translation, if its type fits. -/
structure Variables (v v' : Variable) : Prop where
  eq : v' = v.mapTy τ.ty
  fits : τ.Fits v.ty

/-- The checks run side by side, before and after the translation. -/
abbrev Translates {α : Type} (P : α → α → Prop) (x x' : Check α) : Prop :=
  Simulates (fun c c' => c' = τ.complaint c) τ.States P x x'

end Words

variable {τ : Translation}

section Types

namespace Fits

theorem flat {t : Ty} (h : t.Flat) : τ.Fits t :=
  .inr h

theorem null : τ.Fits .null :=
  .inr trivial

theorem array {t : Ty} (h : τ.Fits t) (length : Option Expr) : τ.Fits (.array t length) :=
  h.imp_right fun hflat => hflat

theorem indexed? {t u : Ty} (h : τ.Fits t) (hu : t.indexed? = some u) : τ.Fits u :=
  h.imp_right fun hflat => hflat.indexed? hu

theorem binary {op : BinaryOp} {l r t : Ty} (h : op.result? l r = some t) : τ.Fits t :=
  .inr (BinaryOp.flat_result? h)

theorem unary {op : UnaryOp} {t u : Ty} (ht : τ.Fits t) (h : op.result? t = some u) : τ.Fits u :=
  ht.imp_right fun hflat => UnaryOp.flat_result? hflat h

theorem merge {ts : List Ty} (h : ∀ t ∈ ts, τ.Fits t) : τ.Fits (.merge ts) := by
  by_cases hτ : Ty.KeepsEquality τ.ty
  · exact .inl hτ
  · exact .inr (Ty.flat_merge fun t ht => (h t ht).resolve_left hτ)

end Fits

namespace Faithful

variable (h : τ.Faithful)
include h

theorem merge {ts : List Ty} (hts : ∀ t ∈ ts, τ.Fits t) :
    Ty.merge (ts.map τ.ty) = τ.ty (Ty.merge ts) := by
  by_cases hτ : Ty.KeepsEquality τ.ty
  · exact h.pointwise.merge hτ ts
  · exact h.pointwise.merge_of_flat fun t ht => (hts t ht).resolve_left hτ

theorem eq_null_iff (t : Ty) : τ.ty t = .null ↔ t = .null := by
  rw [Ty.eq_null_iff, h.pointwise.kind, Ty.eq_null_iff]

theorem eq_string_iff (t : Ty) : τ.ty t = .string ↔ t = .string := by
  rw [Ty.eq_string_iff, h.pointwise.kind, Ty.eq_string_iff]

theorem eq_char_iff (t : Ty) : τ.ty t = .char ↔ t = .char := by
  rw [Ty.eq_char_iff, h.pointwise.kind, Ty.eq_char_iff]

theorem null : τ.ty .null = .null :=
  (h.eq_null_iff .null).2 rfl

/-- The types of constants stay as they are. -/
theorem string : τ.ty .string = .string :=
  (h.eq_string_iff .string).2 rfl

theorem char : τ.ty .char = .char :=
  (h.eq_char_iff .char).2 rfl

theorem widest? (l r : Ty) : (τ.ty l).widest? (τ.ty r) = l.widest? r := by
  rw [Ty.widest?, Ty.widest?, h.pointwise.integerWidth? h.integer,
    h.pointwise.integerWidth? h.integer]

theorem arithmetic? (l r : Ty) : (τ.ty l).arithmetic? (τ.ty r) = l.arithmetic? r := by
  rw [Ty.arithmetic?, Ty.arithmetic?, h.widest?, h.pointwise.isNumeric, h.pointwise.isNumeric,
    h.pointwise.mayBeFloat, h.pointwise.mayBeFloat]

theorem binary (op : BinaryOp) (l r : Ty) :
    op.result? (τ.ty l) (τ.ty r) = (op.result? l r).map τ.ty := by
  have hsame : op.result? (τ.ty l) (τ.ty r) = op.result? l r := by
    cases op <;> simp only [BinaryOp.result?, h.eq_string_iff, h.eq_char_iff, h.eq_null_iff,
      h.arithmetic?, h.widest?, h.pointwise.isInteger, h.pointwise.isNumeric, ne_eq]
  rw [hsame]
  cases ht : op.result? l r with
  | none => rfl
  | some t =>
    rcases BinaryOp.result?_cases ht with rfl | rfl | ⟨w, rfl⟩
    · rw [Option.map_some, h.string]
    · rw [Option.map_some, h.double]
    · rw [Option.map_some, h.integer]

theorem unary (op : UnaryOp) (t : Ty) : op.result? (τ.ty t) = (op.result? t).map τ.ty := by
  cases op <;> simp only [UnaryOp.result?, h.pointwise.isInteger, h.pointwise.isNumeric,
    h.eq_null_iff, ne_eq, apply_ite (Option.map τ.ty), Option.map_some, Option.map_none, h.integer]

end Faithful

namespace Variables

variable {v v' : Variable}

theorem isMutable_eq (h : τ.Variables v v') : v'.isMutable = v.isMutable := by
  rw [h.eq, Variable.mapTy]

theorem isInitialized_eq (h : τ.Variables v v') : v'.isInitialized = v.isInitialized := by
  rw [h.eq, Variable.mapTy]

theorem types (h : τ.Variables v v') : τ.Types v.ty v'.ty :=
  ⟨by rw [h.eq, Variable.mapTy], h.fits⟩

end Variables

theorem Types.all {ts ts' : List Ty} (h : List.Forall₂ τ.Types ts ts') :
    ts' = ts.map τ.ty ∧ ∀ t ∈ ts, τ.Fits t := by
  induction h with
  | nil => exact ⟨rfl, List.forall_mem_nil _⟩
  | cons ht _ ih =>
    exact ⟨by rw [ht.eq, ih.1, List.map_cons], List.forall_mem_cons.2 ⟨ht.fits, ih.2⟩⟩

end Types

namespace Faithful

variable (h : τ.Faithful) {α : Type} {P : α → α → Prop}

theorem typeFault (r : Range) (cause : TypeFault) :
    τ.Translates P (Check.typeFault r cause) (Check.typeFault r (τ.typeFault cause)) :=
  .throw rfl

theorem nameFault (r : Range) (cause : NameFault) :
    τ.Translates P (Check.nameFault r cause) (Check.nameFault r (τ.nameFault cause)) :=
  .throw rfl

/-- A type that is there on both sides or on none. -/
theorem orTypeFault (r : Range) (cause : TypeFault) {o o' : Option Ty} (ho : o' = o.map τ.ty)
    (hfits : ∀ t, o = some t → τ.Fits t) :
    τ.Translates τ.Types (Check.orTypeFault r cause o)
      (Check.orTypeFault r (τ.typeFault cause) o') := by
  subst ho
  cases o with
  | none => exact typeFault r cause
  | some t => exact .pure ⟨rfl, hfits t rfl⟩

include h

theorem demand (r : Range) {t t' u u' : Ty} (ht : τ.Types t t') (hu : τ.Types u u') :
    τ.Translates (fun _ _ => True) (Check.demand r t u) (Check.demand r t' u') := by
  rw [Check.demand, Check.demand, ht.eq, hu.eq, h.pointwise.accepts]
  split_ifs
  · exact .pure trivial
  · exact typeFault r (.mismatch t u)

theorem markInitialized (x : String) :
    τ.Translates (fun _ _ => True) (Check.markInitialized x)
      (Check.markInitialized (τ.name x)) := by
  rintro s _ ⟨rfl, hfits⟩
  refine .ok trivial ⟨?_, fun {y v} hv => ?_⟩
  · have hmark : τ.environment (s.environment.mark x) =
        (τ.environment s.environment).mark (τ.name x) :=
      s.environment.map_mark h.name_injective (fun _ => rfl) x
    exact congrArg (Checking.mk · s.warnings) hmark.symm
  · rw [Environment.get?_mark] at hv
    obtain ⟨w, hw, rfl⟩ := Option.map_eq_some_iff.1 hv
    have hw := hfits hw
    exact hw

theorem lookup (id : Ident) :
    τ.Translates τ.Variables (Check.lookup id) (Check.lookup (id.rename τ.name)) := by
  rintro s _ ⟨rfl, hfits⟩
  have hget : (τ.environment s.environment).get? (τ.name id.name) =
      (s.environment.get? id.name).map (Variable.mapTy τ.ty) :=
    s.environment.get?_map h.name_injective id.name
  rw [Check.lookup, Check.lookup, EStateM.run_bind, EStateM.run_bind, EStateM.run_get,
    EStateM.run_get]
  dsimp only [Ident.rename, checking]
  rw [hget]
  cases hv : s.environment.get? id.name with
  | none => exact nameFault id.range (.undeclared id.name) s _ ⟨rfl, hfits⟩
  | some v => exact .ok ⟨rfl, hfits hv⟩ ⟨rfl, hfits⟩

theorem define (id : Ident) {v v' : Variable} (hv : τ.Variables v v') :
    τ.Translates (fun _ _ => True) (Check.define id v) (Check.define (id.rename τ.name) v') := by
  rintro s _ ⟨rfl, hfits⟩
  have hdefine : (τ.environment s.environment).define (τ.name id.name) (v.mapTy τ.ty) =
      ((s.environment.define id.name v).1.mapError (Variable.mapTy τ.ty),
        τ.environment (s.environment.define id.name v).2) :=
    s.environment.define_map h.name_injective id.name v
  rw [hv.eq]
  rcases s.environment.define_cases id.name v with ⟨-, henv⟩ | ⟨-, henv⟩
  · rw [henv] at hdefine
    rw [Check.run_define_of_error henv, Check.run_define_of_error hdefine]
    exact .error rfl ⟨rfl, hfits⟩
  · rw [henv] at hdefine
    rw [Check.run_define_of_ok henv, Check.run_define_of_ok hdefine]
    refine .ok trivial ⟨rfl, fun {x w} hw => ?_⟩
    rw [Environment.get?_define henv] at hw
    split_ifs at hw
    · cases hw
      exact hv.fits
    · exact hfits hw

theorem literal (value : Literal) (r : Range) :
    τ.Translates τ.Types (value.check r) (value.check r) := by
  have htype : ∀ t, τ.ty t = t → t.Flat → τ.Translates τ.Types (pure t) (pure t) :=
    fun t ht hflat => .pure ⟨ht.symm, .flat hflat⟩
  cases value with
  | integer value =>
    rw [Literal.check]
    split
    · exact htype _ (h.integer _) trivial
    · refine .bind (P := fun _ _ => True) ?_ fun _ _ _ => htype _ (h.integer _) trivial
      rintro s _ ⟨rfl, hfits⟩
      exact .ok trivial ⟨rfl, hfits⟩
  | float _ => exact htype _ h.double trivial
  | string _ => exact htype _ h.string trivial
  | char _ => exact htype _ h.char trivial
  | null => exact htype _ h.null trivial

/-- The end of every assignment. -/
theorem assigned (x : String) :
    τ.Translates τ.Types (do Check.markInitialized x; pure .null)
      (do Check.markInitialized (τ.name x); pure .null) :=
  .bind (h.markInitialized x) fun _ _ _ => .pure ⟨h.null.symm, .null⟩

omit h

mutual

/-- An expression and its translation are checked side by side. -/
theorem check_expr (h : τ.Faithful) :
    (e : Expr) → τ.Translates τ.Types e.check (e.rename τ.name).check
  | .literal value r => h.literal value r
  | .ident id => by
    rw [Expr.rename, Expr.check, Expr.check]
    refine .bind (h.lookup id) fun v v' hv => ?_
    rw [hv.isInitialized_eq]
    split_ifs
    · exact .pure hv.types
    · exact typeFault id.range (.uninitialized id.name)
  | .binary op l r range => by
    rw [Expr.rename, Expr.check, Expr.check]
    refine .bind (h.check_expr l) fun t t' ht => .bind (h.check_expr r) fun u u' hu => ?_
    rw [ht.eq, hu.eq]
    exact orTypeFault range (.invalidBinary op t u) (h.binary op t u) fun _ => .binary
  | .unary op e range => by
    rw [Expr.rename, Expr.check, Expr.check]
    refine .bind (h.check_expr e) fun t t' ht => ?_
    rw [ht.eq]
    exact orTypeFault range (.invalidUnary op t) (h.unary op t) fun _ => .unary ht.fits
  | .update op leading target range => by
    rw [Expr.rename, Expr.check, Expr.check]
    refine .bind (h.lookup target) fun v v' hv => ?_
    rw [hv.isMutable_eq, hv.isInitialized_eq, hv.types.eq, h.pointwise.isNumeric]
    split_ifs
    · exact typeFault range (.immutableAssignment target.name)
    · exact typeFault range (.uninitializedUpdate op target.name)
    · exact typeFault range (.invalidUpdate op v.ty)
    · exact .pure ⟨rfl, hv.fits⟩
  | .assign op target value range => by
    cases op with
    | plain =>
      rw [Expr.rename, Expr.check, Expr.check]
      refine .bind (h.lookup target) fun v v' hv => ?_
      rw [hv.isMutable_eq, Expr.range_rename]
      dsimp only
      split_ifs
      · exact typeFault target.range (.immutableAssignment target.name)
      · exact .bind (h.check_expr value) fun t t' ht =>
          .bind (h.demand value.range hv.types ht) fun _ _ _ => h.assigned target.name
    | compound op =>
      rw [Expr.rename, Expr.check, Expr.check]
      refine .bind (h.lookup target) fun v v' hv => ?_
      rw [hv.isMutable_eq, Expr.range_rename]
      dsimp only
      rw [hv.isInitialized_eq]
      split_ifs
      · exact typeFault target.range (.immutableAssignment target.name)
      · exact .bind (P := fun _ _ => True)
          (typeFault target.range (.uninitialized target.name)) fun _ _ _ => h.assigned target.name
      · refine .bind (h.check_expr value) fun t t' ht => ?_
        rw [hv.types.eq, ht.eq]
        exact .bind (orTypeFault (target.range.through value.range) (.invalidBinary op v.ty t)
          (h.binary op v.ty t) fun _ => .binary) fun u u' hu =>
            .bind (h.demand value.range ⟨rfl, hv.fits⟩ hu) fun _ _ _ => h.assigned target.name
  | .sequence items range => by
    rw [Expr.rename, Expr.check, Expr.check]
    exact .bind (h.checkAll_expr items) fun _ _ hts =>
      .pure (forall₂_getLastD hts ⟨h.null.symm, .null⟩)
  | .array items range => by
    rw [Expr.rename, Expr.check, Expr.check]
    refine .bind (h.checkAll_expr items) fun ts ts' hts => .pure ?_
    obtain ⟨rfl, hfits⟩ := Types.all hts
    exact ⟨by rw [h.pointwise.array, h.merge hfits, Option.map_none], .array (.merge hfits) none⟩
  | .index base position range => by
    rw [Expr.rename, Expr.check, Expr.check, Expr.range_rename, Expr.range_rename]
    refine .bind (h.check_expr base) fun t t' ht => ?_
    rw [ht.eq]
    refine .bind (orTypeFault base.range (.notIndexable t) (h.pointwise.indexed? t)
      fun _ => ht.fits.indexed?) fun u u' hu => .bind (h.check_expr position) fun p p' hp => ?_
    rw [hp.eq, h.pointwise.isInteger]
    split_ifs
    · exact .pure hu
    · exact typeFault position.range (.invalidIndex p)

theorem checkAll_expr (h : τ.Faithful) : (es : List Expr) →
    τ.Translates (List.Forall₂ τ.Types) (Expr.checkAll es)
      (Expr.checkAll (Expr.renameAll τ.name es))
  | [] => .pure .nil
  | e :: es => by
    rw [Expr.renameAll, Expr.checkAll, Expr.checkAll]
    exact .bind (h.check_expr e) fun _ _ ht => .bind (h.checkAll_expr es) fun _ _ hts =>
      .pure (.cons ht hts)

end

include h

theorem checkLength (e : Expr) :
    τ.Translates (fun _ _ => True) e.checkLength (e.rename τ.name).checkLength := by
  rw [Expr.checkLength, Expr.checkLength, Expr.range_rename]
  refine .bind (h.check_expr e) fun t t' ht => ?_
  rw [ht.eq, h.pointwise.isInteger]
  split_ifs
  · exact .pure trivial
  · exact typeFault e.range (.invalidLength t)

theorem check_declaration {d : Declaration} (hd : τ.Fits d.ty) :
    τ.Translates (fun _ _ => True) d.check (τ.declaration d).check := by
  obtain ⟨isMutable, ty, names, initializer, range⟩ := d
  have hnames : ∀ b, τ.Translates (fun _ _ => True)
      (names.forM fun id => Check.define id ⟨ty, isMutable, b⟩)
      ((names.map (Ident.rename τ.name)).forM fun id => Check.define id ⟨τ.ty ty, isMutable, b⟩) :=
    fun b => .forM_map _ names fun id _ => h.define id ⟨rfl, hd⟩
  rw [Declaration.check, Declaration.check]
  dsimp only [declaration]
  rw [h.pointwise.lengths]
  refine .bind (.forM_map _ _ fun e _ => h.checkLength e) fun _ _ _ => ?_
  cases initializer with
  | none => exact hnames false
  | some e =>
    refine .bind (h.check_expr e) fun t t' ht => ?_
    rw [Expr.range_rename]
    exact .bind (h.demand e.range ⟨rfl, hd⟩ ht) fun _ _ _ => hnames true

/-- A program and its translation are checked side by side. -/
theorem check_program {p : Program} (hp : ∀ d, .declaration d ∈ p → τ.Fits d.ty) :
    τ.Translates (fun _ _ => True) p.check (τ.program p).check := by
  refine .forM_map _ p fun stmt hstmt => ?_
  cases stmt with
  | expression e => exact .bind (h.check_expr e) fun _ _ _ => .pure trivial
  | declaration d => exact h.check_declaration (hp d hstmt)

/-- What the check of the translated program ends with. -/
theorem run_check_program {p : Program} (hp : ∀ d, .declaration d ∈ p → τ.Fits d.ty) (s : Checking)
    (hs : ∀ x v, s.environment.get? x = some v → τ.Fits v.ty) :
    (τ.program p).check.run (τ.checking s) = τ.ended (p.check.run s) := by
  have hresults := h.check_program hp s _ ⟨rfl, fun {x v} => hs x v⟩
  generalize p.check.run s = r at hresults
  generalize (τ.program p).check.run (τ.checking s) = r' at hresults
  cases hresults with
  | ok _ hs => rw [hs.eq, ended]
  | error hc hs => rw [hs.eq, hc, ended]

end Faithful

end Translation

end StackCompiler
