import StackCompiler.Proofs.Checked
import StackCompiler.Proofs.Erasure
import StackCompiler.Proofs.Steps

/-!
# Checks side by side

Two checks that run alike: both succeed or both complain, about the same but for widths, lengths
and places, and they leave environments that are the same up to lengths. How places and lengths
are compared is a `Comparison`. Alike checks in a row are alike (`Comparison.Alike.bind`), and so
are expressions, declarations and statements of alike parts, one statement for each form.
-/

namespace StackCompiler

/-- The fault without the widths and lengths in the types it names. -/
def TypeFault.erase : TypeFault → TypeFault
  | mismatch expected found => mismatch expected.erase found.erase
  | invalidUpdate op found => invalidUpdate op found.erase
  | invalidUnary op found => invalidUnary op found.erase
  | invalidBinary op left right => invalidBinary op left.erase right.erase
  | notIndexable found => notIndexable found.erase
  | invalidIndex found => invalidIndex found.erase
  | invalidLength found => invalidLength found.erase
  | fault => fault

/-- The fault without the widths and lengths in the types it names. -/
def Fault.erase : Fault → Fault
  | type cause => type cause.erase
  | fault => fault

section MapTy

variable (f : Ty → Ty)

/-- The variable with another type. -/
def Variable.mapTy (v : Variable) : Variable :=
  { v with ty := f v.ty }

/-- The scope with other types of its variables. -/
def Scope.mapTy (s : Scope) : Scope :=
  { s with vars := s.vars.map fun (n, v) => (n, v.mapTy f) }

/-- The environment with other types of its variables. -/
def Environment.mapTy (env : Environment) : Environment :=
  ⟨env.inner.mapTy f, env.outer.map (Scope.mapTy f)⟩

namespace Environment

theorem get?_mapTy (env : Environment) (x : String) :
    (env.mapTy f).get? x = (env.get? x).map (Variable.mapTy f) :=
  env.get?_map (h := id) (fun _ _ heq => heq) x

theorem mapTy_mark (env : Environment) (x : String) :
    (env.mark x).mapTy f = (env.mapTy f).mark x :=
  env.map_mark (h := id) (fun _ _ heq => heq) (fun _ => rfl) x

theorem define_mapTy (env : Environment) (x : String) (v : Variable) :
    (env.mapTy f).define x (v.mapTy f) =
      ((env.define x v).1.mapError (Variable.mapTy f), (env.define x v).2.mapTy f) :=
  env.define_map (h := id) (fun _ _ heq => heq) x v

end Environment

end MapTy

/-- The last items of related lists, or what stands for them in empty lists, are related. -/
theorem forall₂_getLastD {α : Type} {R : α → α → Prop} {as bs : List α} (h : List.Forall₂ R as bs)
    {a b : α} (hab : R a b) : R (as.getLastD a) (bs.getLastD b) := by
  induction h generalizing a b with
  | nil => exact hab
  | cons hcd _ ih =>
    rw [List.getLastD_cons, List.getLastD_cons]
    exact ih hcd

/-- How two checks are compared: places by a relation that joining places respects, and the types
of variables by what a function that touches no more than widths and lengths leaves of them. -/
structure Comparison where
  Places : Range → Range → Prop
  ty : Ty → Ty
  through : ∀ {a a' b b'}, Places a a' → Places b b' → Places (a.through b) (a'.through b')
  erase_ty : ∀ t, (ty t).erase = t.erase

namespace Comparison

variable (κ : Comparison)

/-- The environments are the same by the comparison, and their types are flat. -/
structure Environments (env env' : Environment) : Prop where
  mapTy_eq : env.mapTy κ.ty = env'.mapTy κ.ty
  flat : ∀ {x v}, env.get? x = some v → v.ty.Flat

/-- The types are the same up to widths and lengths, and flat. -/
structure Types (t t' : Ty) : Prop where
  erase_eq : t.erase = t'.erase
  flat : t.Flat

/-- What two checks that run alike end with; `P` holds of the values. -/
inductive Outcomes {α : Type} (P : α → α → Prop) :
    EStateM.Result Complaint Checking α → EStateM.Result Complaint Checking α → Prop where
  | ok {a a' : α} {s s' : Checking} (ha : P a a')
    (hs : κ.Environments s.environment s'.environment) : Outcomes P (.ok a s) (.ok a' s')
  | error {c c' : Complaint} {s s' : Checking} (hr : κ.Places c.range c'.range)
    (hf : c.fault.erase = c'.fault.erase) (hs : κ.Environments s.environment s'.environment) :
    Outcomes P (.error c s) (.error c' s')

/-- The checks run alike. -/
def Alike {α : Type} (P : α → α → Prop) (x x' : Check α) : Prop :=
  ∀ s s', κ.Environments s.environment s'.environment → κ.Outcomes P (x.run s) (x'.run s')

variable {κ} {α β : Type} {P : α → α → Prop} {Q : β → β → Prop}

theorem Types.congr {γ : Type} {t t' : Ty} (h : Types t t') {f : Ty → γ}
    (hf : ∀ t, f t.erase = f t) : f t = f t' := by
  rw [← hf, h.erase_eq, hf]

theorem Types.flat_right {t t' : Ty} (h : Types t t') : t'.Flat :=
  (Ty.flat_erase t').1 (h.erase_eq ▸ (Ty.flat_erase t).2 h.flat)

theorem Types.array {t t' : Ty} (h : Types t t') : Types (.array t none) (.array t' none) :=
  ⟨by rw [Ty.erase, Ty.erase, h.erase_eq], h.flat⟩

theorem Types.map_erase {ts ts' : List Ty} (h : List.Forall₂ Types ts ts') :
    ts.map Ty.erase = ts'.map Ty.erase ∧ (∀ t ∈ ts, t.Flat) ∧ ∀ t ∈ ts', t.Flat := by
  induction h with
  | nil => exact ⟨rfl, nofun, nofun⟩
  | cons ht _ ih =>
    rw [List.map_cons, List.map_cons, ht.erase_eq, ih.1, List.forall_mem_cons,
      List.forall_mem_cons]
    exact ⟨rfl, ⟨ht.flat, ih.2.1⟩, ht.flat_right, ih.2.2⟩

theorem Types.merge {ts ts' : List Ty} (h : List.Forall₂ Types ts ts') :
    Types (.merge ts) (.merge ts') := by
  obtain ⟨hmap, hflat, hflat'⟩ := map_erase h
  refine ⟨?_, Ty.flat_merge hflat⟩
  rw [← Ty.merge_erase hflat, hmap, Ty.merge_erase hflat']

/-- Types that are the same by the comparison are so up to widths and lengths. -/
theorem types_of_ty_eq {t t' : Ty} (h : κ.ty t = κ.ty t') (hflat : t.Flat) : Types t t' :=
  ⟨by rw [← κ.erase_ty, h, κ.erase_ty], hflat⟩

theorem Outcomes.exists_eq_ok {r : EStateM.Result Complaint Checking α} {a' : α} {s' : Checking}
    (h : κ.Outcomes P r (.ok a' s')) :
    ∃ a s, r = .ok a s ∧ P a a' ∧ κ.Environments s.environment s'.environment := by
  cases h with
  | ok ha hs => exact ⟨_, _, rfl, ha, hs⟩

theorem Outcomes.exists_eq_ok_right {r : EStateM.Result Complaint Checking α} {a : α} {s : Checking}
    (h : κ.Outcomes P (.ok a s) r) :
    ∃ a' s', r = .ok a' s' ∧ P a a' ∧ κ.Environments s.environment s'.environment := by
  cases h with
  | ok ha hs => exact ⟨_, _, rfl, ha, hs⟩

namespace Alike

theorem pure {a a' : α} (h : P a a') : κ.Alike P (pure a) (pure a') :=
  fun _ _ hs => .ok h hs

theorem bind {x x' : Check α} {f f' : α → Check β} (hx : κ.Alike P x x')
    (hf : ∀ a a', P a a' → κ.Alike Q (f a) (f' a')) : κ.Alike Q (x >>= f) (x' >>= f') := by
  intro s s' hs
  have h := hx s s' hs
  rw [EStateM.run_bind, EStateM.run_bind]
  generalize x.run s = r at h ⊢
  generalize x'.run s' = r' at h ⊢
  cases h with
  | ok ha hs => exact hf _ _ ha _ _ hs
  | error hr hf hs => exact .error hr hf hs

/-- Checks of the items of two lists, one after the other. -/
theorem forM {γ : Type} {R : γ → γ → Prop} {f f' : γ → Check Unit} {xs xs' : List γ}
    (h : List.Forall₂ R xs xs')
    (hf : ∀ x x', R x x' → κ.Alike (fun _ _ => True) (f x) (f' x')) :
    κ.Alike (fun _ _ => True) (xs.forM f) (xs'.forM f') := by
  induction h with
  | nil => exact .pure trivial
  | cons hx _ ih => exact .bind (hf _ _ hx) fun _ _ _ => ih

theorem typeFault {r r' : Range} {cause cause' : TypeFault} (hr : κ.Places r r')
    (hf : cause.erase = cause'.erase) :
    κ.Alike P (Check.typeFault r cause) (Check.typeFault r' cause') :=
  fun _ _ hs => .error hr (congrArg Fault.type hf) hs

theorem nameFault {r r' : Range} (hr : κ.Places r r') (cause : NameFault) :
    κ.Alike P (Check.nameFault r cause) (Check.nameFault r' cause) :=
  fun _ _ hs => .error hr rfl hs

theorem demand {r r' : Range} {t t' u u' : Ty} (hr : κ.Places r r') (ht : Types t t')
    (hu : Types u u') :
    κ.Alike (fun _ _ => True) (Check.demand r t u) (Check.demand r' t' u') := by
  have haccepts : t.accepts u = t'.accepts u' := by
    rw [← Ty.accepts_erase t u, ht.erase_eq, hu.erase_eq, Ty.accepts_erase]
  rw [Check.demand, Check.demand, haccepts]
  split_ifs
  · exact .pure trivial
  · refine .typeFault hr ?_
    rw [TypeFault.erase, TypeFault.erase, ht.erase_eq, hu.erase_eq]

/-- A type that is there on both sides or on none. -/
theorem orTypeFault {r r' : Range} {cause cause' : TypeFault} {o o' : Option Ty}
    (hr : κ.Places r r') (hf : cause.erase = cause'.erase)
    (ho : o.map Ty.erase = o'.map Ty.erase) (hflat : ∀ t, o = some t → t.Flat) :
    κ.Alike Types (Check.orTypeFault r cause o) (Check.orTypeFault r' cause' o') := by
  cases o <;> cases o' <;> simp only [Option.map_none, Option.map_some, reduceCtorEq,
    Option.some.injEq] at ho
  · exact .typeFault hr hf
  · exact .pure ⟨ho, hflat _ rfl⟩

theorem warn (w w' : Warning) : κ.Alike (fun _ _ => True) (Check.warn w) (Check.warn w') :=
  fun _ _ hs => .ok trivial hs

theorem markInitialized (x : String) :
    κ.Alike (fun _ _ => True) (Check.markInitialized x) (Check.markInitialized x) := by
  intro s s' hs
  refine .ok trivial ⟨?_, ?_⟩
  · rw [Environment.mapTy_mark, hs.mapTy_eq, ← Environment.mapTy_mark]
  · intro y v hv
    rw [Environment.get?_mark] at hv
    obtain ⟨w, hw, rfl⟩ := Option.map_eq_some_iff.1 hv
    have hflat := hs.flat hw
    exact hflat

end Alike

/-- Variables with the same flags, and with types that are the same by the comparison. -/
structure Variables (κ : Comparison) (v v' : Variable) : Prop where
  mapTy_eq : v.mapTy κ.ty = v'.mapTy κ.ty
  flat : v.ty.Flat

/-- The same name, at places that are compared. -/
structure Idents (κ : Comparison) (id id' : Ident) : Prop where
  name_eq : id.name = id'.name
  range : κ.Places id.range id'.range

namespace Variables

variable {v v' : Variable}

theorem isMutable_eq (h : κ.Variables v v') : v.isMutable = v'.isMutable := by
  simpa [Variable.mapTy] using congrArg Variable.isMutable h.mapTy_eq

theorem isInitialized_eq (h : κ.Variables v v') : v.isInitialized = v'.isInitialized := by
  simpa [Variable.mapTy] using congrArg Variable.isInitialized h.mapTy_eq

theorem types (h : κ.Variables v v') : Types v.ty v'.ty :=
  types_of_ty_eq (congrArg Variable.ty h.mapTy_eq) h.flat

end Variables

theorem Alike.lookup {id id' : Ident} (h : κ.Idents id id') :
    κ.Alike κ.Variables (Check.lookup id) (Check.lookup id') := by
  intro s s' hs
  have hget := congrArg (·.get? id.name) hs.mapTy_eq
  simp only [Environment.get?_mapTy] at hget
  rw [Check.lookup, Check.lookup, ← h.name_eq, EStateM.run_bind, EStateM.run_bind,
    EStateM.run_get, EStateM.run_get]
  dsimp only
  cases hv : s.environment.get? id.name with
  | none =>
    rw [hv, Option.map_none, eq_comm, Option.map_eq_none_iff] at hget
    rw [hget]
    exact Alike.nameFault h.range _ s s' hs
  | some v =>
    rw [hv, Option.map_some, eq_comm, Option.map_eq_some_iff] at hget
    obtain ⟨v', hv', hmap⟩ := hget
    rw [hv']
    exact .ok ⟨hmap.symm, hs.flat hv⟩ hs

theorem Alike.define {id id' : Ident} {v v' : Variable} (h : κ.Idents id id')
    (hv : κ.Variables v v') :
    κ.Alike (fun _ _ => True) (Check.define id v) (Check.define id' v') := by
  intro s s' hs
  obtain ⟨name, range⟩ := id
  obtain ⟨_, range'⟩ := id'
  obtain ⟨⟨⟩, hrange⟩ := h
  have hdefine := Environment.define_mapTy κ.ty s.environment name v
  rw [hs.mapTy_eq, hv.mapTy_eq, Environment.define_mapTy, Prod.mk.injEq] at hdefine
  obtain ⟨hresult, henvs⟩ := hdefine
  rcases s.environment.define_cases name v with ⟨-, henv⟩ | ⟨-, henv⟩ <;>
    rcases s'.environment.define_cases name v' with ⟨-, henv'⟩ | ⟨-, henv'⟩ <;>
    rw [henv, henv'] at hresult henvs
  · rw [Check.run_define_of_error henv, Check.run_define_of_error henv']
    exact Alike.nameFault hrange (.alreadyDeclared name) s s' hs
  · cases hresult
  · cases hresult
  · rw [Check.run_define_of_ok henv, Check.run_define_of_ok henv']
    refine .ok trivial ⟨henvs.symm, fun {x w} hw => ?_⟩
    rw [Environment.get?_define henv] at hw
    split_ifs at hw
    · cases hw
      exact hv.flat
    · exact hs.flat hw

/-- Expressions that are checked alike, at places that are compared. -/
structure Exprs (κ : Comparison) (e e' : Expr) : Prop where
  range : κ.Places e.range e'.range
  check : κ.Alike Types e.check e'.check

namespace Exprs

variable {r r' : Range}

theorem literal (value : Literal) (hr : κ.Places r r') :
    κ.Exprs (.literal value r) (.literal value r') := by
  refine ⟨hr, ?_⟩
  rw [Expr.check, Expr.check]
  cases value with
  | integer value =>
    rw [Literal.check, Literal.check]
    split
    · exact .pure ⟨rfl, trivial⟩
    · exact .bind (.warn _ _) fun _ _ _ => .pure ⟨rfl, trivial⟩
  | float _ | string _ | char _ | null => exact .pure ⟨rfl, trivial⟩

theorem ident {id id' : Ident} (h : κ.Idents id id') : κ.Exprs (.ident id) (.ident id') := by
  refine ⟨h.range, ?_⟩
  rw [Expr.check, Expr.check]
  refine .bind (.lookup h) fun v v' hv => ?_
  rw [hv.isInitialized_eq, ← h.name_eq]
  split_ifs
  · exact .pure hv.types
  · exact .typeFault h.range rfl

theorem binary (op : BinaryOp) {a a' b b' : Expr} (ha : κ.Exprs a a') (hb : κ.Exprs b b')
    (hr : κ.Places r r') : κ.Exprs (.binary op a b r) (.binary op a' b' r') := by
  refine ⟨hr, ?_⟩
  rw [Expr.check, Expr.check]
  refine .bind ha.check fun t t' ht => .bind hb.check fun u u' hu => .orTypeFault hr ?_ ?_ ?_
  · rw [TypeFault.erase, TypeFault.erase, ht.erase_eq, hu.erase_eq]
  · rw [← op.erase_result? t u, ht.erase_eq, hu.erase_eq, op.erase_result?]
  · exact fun _ => BinaryOp.flat_result?

theorem unary (op : UnaryOp) {e e' : Expr} (he : κ.Exprs e e') (hr : κ.Places r r') :
    κ.Exprs (.unary op e r) (.unary op e' r') := by
  refine ⟨hr, ?_⟩
  rw [Expr.check, Expr.check]
  refine .bind he.check fun t t' ht => .orTypeFault hr ?_ (op.erase_result? ht.erase_eq) ?_
  · rw [TypeFault.erase, TypeFault.erase, ht.erase_eq]
  · exact fun _ => UnaryOp.flat_result? ht.flat

theorem update (op : UpdateOp) (leading : Bool) {id id' : Ident} (h : κ.Idents id id')
    (hr : κ.Places r r') : κ.Exprs (.update op leading id r) (.update op leading id' r') := by
  refine ⟨hr, ?_⟩
  rw [Expr.check, Expr.check]
  refine .bind (.lookup h) fun v v' hv => ?_
  rw [hv.isMutable_eq, hv.isInitialized_eq, hv.types.congr Ty.isNumeric_erase, ← h.name_eq]
  split_ifs
  · exact .typeFault hr rfl
  · exact .typeFault hr rfl
  · refine .typeFault hr ?_
    rw [TypeFault.erase, TypeFault.erase, hv.types.erase_eq]
  · exact .pure hv.types

theorem assign (op : AssignOp) {id id' : Ident} {e e' : Expr} (h : κ.Idents id id')
    (he : κ.Exprs e e') (hr : κ.Places r r') :
    κ.Exprs (.assign op id e r) (.assign op id' e' r') := by
  refine ⟨hr, ?_⟩
  have hmark : κ.Alike Types (do Check.markInitialized id.name; pure .null)
      (do Check.markInitialized id.name; pure .null) :=
    .bind (.markInitialized _) fun _ _ _ => .pure ⟨rfl, trivial⟩
  cases op with
  | plain =>
    rw [Expr.check, Expr.check]
    refine .bind (.lookup h) fun v v' hv => ?_
    rw [hv.isMutable_eq, ← h.name_eq]
    dsimp only
    split_ifs
    · exact .typeFault h.range rfl
    · exact .bind he.check fun t t' ht => .bind (.demand he.range hv.types ht) fun _ _ _ => hmark
  | compound op =>
    rw [Expr.check, Expr.check]
    refine .bind (.lookup h) fun v v' hv => ?_
    rw [hv.isMutable_eq, ← h.name_eq]
    dsimp only
    rw [hv.isInitialized_eq]
    split_ifs
    · exact .typeFault h.range rfl
    · exact .bind (P := fun _ _ => True) (.typeFault h.range rfl) fun _ _ _ => hmark
    · refine .bind he.check fun t t' ht =>
        .bind (.orTypeFault (κ.through h.range he.range) ?_ ?_ ?_) fun u u' hu =>
          .bind (.demand he.range hv.types hu) fun _ _ _ => hmark
      · rw [TypeFault.erase, TypeFault.erase, hv.types.erase_eq, ht.erase_eq]
      · rw [← op.erase_result? v.ty t, hv.types.erase_eq, ht.erase_eq, op.erase_result?]
      · exact fun _ => BinaryOp.flat_result?

/-- The types of alike items. -/
theorem checkAll {items items' : List Expr} (h : List.Forall₂ κ.Exprs items items') :
    κ.Alike (List.Forall₂ Types) (Expr.checkAll items) (Expr.checkAll items') := by
  induction h with
  | nil =>
    rw [Expr.checkAll]
    exact .pure .nil
  | cons he _ ih =>
    rw [Expr.checkAll, Expr.checkAll]
    exact .bind he.check fun _ _ ht => .bind ih fun _ _ hts => .pure (.cons ht hts)

theorem sequence {items items' : List Expr} (h : List.Forall₂ κ.Exprs items items')
    (hr : κ.Places r r') : κ.Exprs (.sequence items r) (.sequence items' r') := by
  refine ⟨hr, ?_⟩
  rw [Expr.check, Expr.check]
  exact .bind (checkAll h) fun _ _ hts => .pure (forall₂_getLastD hts ⟨rfl, trivial⟩)

theorem array {items items' : List Expr} (h : List.Forall₂ κ.Exprs items items')
    (hr : κ.Places r r') : κ.Exprs (.array items r) (.array items' r') := by
  refine ⟨hr, ?_⟩
  rw [Expr.check, Expr.check]
  exact .bind (checkAll h) fun _ _ hts => .pure (Types.merge hts).array

theorem index {base base' position position' : Expr} (hb : κ.Exprs base base')
    (hp : κ.Exprs position position') (hr : κ.Places r r') :
    κ.Exprs (.index base position r) (.index base' position' r') := by
  refine ⟨hr, ?_⟩
  rw [Expr.check, Expr.check]
  refine .bind hb.check fun t t' ht => .bind (.orTypeFault hb.range ?_ ?_ ?_) fun u u' hu =>
    .bind hp.check fun p p' htp => ?_
  · rw [TypeFault.erase, TypeFault.erase, ht.erase_eq]
  · rw [← Ty.erase_indexed?, ht.erase_eq, Ty.erase_indexed?]
  · exact fun _ => ht.flat.indexed?
  · rw [htp.congr Ty.isInteger_erase]
    split_ifs
    · exact .pure hu
    · refine .typeFault hp.range ?_
      rw [TypeFault.erase, TypeFault.erase, htp.erase_eq]

end Exprs

theorem Exprs.checkLength {e e' : Expr} (h : κ.Exprs e e') :
    κ.Alike (fun _ _ => True) e.checkLength e'.checkLength := by
  rw [Expr.checkLength, Expr.checkLength]
  refine .bind h.check fun t t' ht => ?_
  rw [ht.congr Ty.isInteger_erase]
  split_ifs
  · exact .pure trivial
  · refine .typeFault h.range ?_
    rw [TypeFault.erase, TypeFault.erase, ht.erase_eq]

/-- Declarations of alike parts. -/
structure Declarations (κ : Comparison) (d d' : Declaration) : Prop where
  isMutable_eq : d.isMutable = d'.isMutable
  ty_eq : κ.ty d.ty = κ.ty d'.ty
  flat : d.ty.Flat
  lengths : List.Forall₂ κ.Exprs d.ty.lengths d'.ty.lengths
  names : List.Forall₂ κ.Idents d.names d'.names
  initializer : Option.Rel κ.Exprs d.initializer d'.initializer

theorem Declarations.check {d d' : Declaration} (h : κ.Declarations d d') :
    κ.Alike (fun _ _ => True) d.check d'.check := by
  have hty : Types d.ty d'.ty := types_of_ty_eq h.ty_eq h.flat
  have hnames : ∀ b, κ.Alike (fun _ _ => True)
      (d.names.forM fun id => Check.define id ⟨d.ty, d.isMutable, b⟩)
      (d'.names.forM fun id => Check.define id ⟨d'.ty, d'.isMutable, b⟩) := by
    intro b
    refine .forM h.names fun id id' hid => .define hid ⟨?_, h.flat⟩
    rw [Variable.mapTy, Variable.mapTy, h.ty_eq, h.isMutable_eq]
  rw [Declaration.check, Declaration.check]
  refine .bind (.forM h.lengths fun _ _ => Exprs.checkLength) fun _ _ _ => ?_
  have hi := h.initializer
  generalize d.initializer = i at hi
  generalize d'.initializer = i' at hi
  cases hi with
  | none => exact hnames false
  | some he =>
    exact .bind he.check fun t t' ht => .bind (.demand he.range hty ht) fun _ _ _ => hnames true

/-- Statements of alike parts. -/
inductive Statements (κ : Comparison) : Statement → Statement → Prop where
  | expression {e e' : Expr} (h : κ.Exprs e e') : Statements κ (.expression e) (.expression e')
  | declaration {d d' : Declaration} (h : κ.Declarations d d') :
    Statements κ (.declaration d) (.declaration d')

theorem Statements.check {stmt stmt' : Statement} (h : κ.Statements stmt stmt') :
    κ.Alike (fun _ _ => True) stmt.check stmt'.check := by
  cases h with
  | expression h => exact .bind h.check fun _ _ _ => .pure trivial
  | declaration h => exact h.check

/-- Programs of alike statements are checked alike. -/
theorem check_program {p p' : Program} (h : List.Forall₂ κ.Statements p p') :
    κ.Alike (fun _ _ => True) p.check p'.check :=
  .forM h fun _ _ => Statements.check

end Comparison

end StackCompiler
