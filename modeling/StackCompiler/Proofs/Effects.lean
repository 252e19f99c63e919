import Mathlib.Data.List.Forall2
import Mathlib.Data.List.Nodup
import StackCompiler.Proofs.Constancy

/-!
# What a check does to the environment

A check only ever marks variables as initialized and binds names in the innermost scope. So where
it ends, early or not, every scope has the bindings that it had before, with the same types, and new
names are names that the program declares (`Environment.Extends`). This holds of each step of a
check, and with it of all of them in a row (`Check.Extends`).

If the check succeeds and there is only one scope, then more is known: `Program.Settles` says
exactly which names are bound and which ones are initialized.
-/

namespace StackCompiler

/-- The scope has become `s'`: it has kept its bindings, but for marks, and all its procedures, and
the names it has got are among `names`. -/
structure Scope.Extends (names : List String) (s s' : Scope) : Prop where
  kept : ∀ x v, s.get? x = some v → ∃ v', s'.get? x = some v' ∧ v'.ty = v.ty ∧
    v'.isMutable = v.isMutable ∧ (v.isInitialized → v'.isInitialized)
  added : ∀ x, (s'.get? x).isSome → (s.get? x).isSome ∨ x ∈ names
  procedures : s'.procedures = s.procedures

namespace Scope.Extends

variable {names names' : List String} {s s₁ s' : Scope}

theorem refl (s : Scope) : s.Extends names s where
  kept _ v hv := ⟨v, hv, rfl, rfl, id⟩
  added _ := .inl
  procedures := rfl

theorem trans (h : s.Extends names s₁) (h' : s₁.Extends names s') : s.Extends names s' where
  kept x v hv := by
    obtain ⟨v₁, hv₁, hty₁, hm₁, hi₁⟩ := h.kept x v hv
    obtain ⟨v', hv', hty', hm', hi'⟩ := h'.kept x v₁ hv₁
    exact ⟨v', hv', hty'.trans hty₁, hm'.trans hm₁, fun hi => hi' (hi₁ hi)⟩
  added x hx := (h'.added x hx).elim (h.added x) .inr
  procedures := h'.procedures.trans h.procedures

theorem mono (h : s.Extends names s') (hsub : names ⊆ names') : s.Extends names' s' where
  kept := h.kept
  added x hx := (h.added x hx).imp_right fun hmem => hsub hmem
  procedures := h.procedures

theorem mark (s : Scope) (x : String) : s.Extends names (s.mark x) where
  kept y v hv := by
    refine ⟨v.initializedIf (y = x), ?_, rfl, rfl, fun hi => ?_⟩
    · rw [get?_mark, hv, Option.map_some]
    · simp [Variable.initializedIf, hi]
  added y hy := by
    rw [get?_mark, Option.isSome_map] at hy
    exact .inl hy
  procedures := rfl

/-- A name that the scope does not have yet may be bound. -/
theorem bind {x : String} (v : Variable) (hx : s.get? x = none) (hmem : x ∈ names) :
    s.Extends names { s with vars := (x, v) :: s.vars } where
  kept y w hw := by
    have hne : y ≠ x := by
      rintro rfl
      rw [hx] at hw
      cases hw
    refine ⟨w, ?_, rfl, rfl, id⟩
    rw [Scope.get?, List.lookup_cons, beq_false_of_ne hne]
    exact hw
  added y hy := by
    by_cases hne : y = x
    · exact .inr (hne ▸ hmem)
    · rw [Scope.get?, List.lookup_cons, beq_false_of_ne hne] at hy
      exact .inl hy
  procedures := rfl

end Scope.Extends

/-- All the scopes have kept their bindings, and names have been added only to the innermost one. -/
structure Environment.Extends (names : List String) (env env' : Environment) : Prop where
  inner : env.inner.Extends names env'.inner
  outer : List.Forall₂ (Scope.Extends []) env.outer env'.outer

namespace Environment

theorem forall₂_extends_refl (scopes : List Scope) :
    List.Forall₂ (Scope.Extends []) scopes scopes :=
  List.forall₂_same.2 fun s _ => .refl s

theorem forall₂_extends_trans {l l₁ l' : List Scope} (h : List.Forall₂ (Scope.Extends []) l l₁)
    (h' : List.Forall₂ (Scope.Extends []) l₁ l') : List.Forall₂ (Scope.Extends []) l l' := by
  induction h generalizing l' with
  | nil => exact h'
  | cons hs _ ih =>
    cases h' with
    | cons hs' hl' => exact .cons (hs.trans hs') (ih hl')

/-- Marking a name changes no more than a mark in any scope. -/
theorem forall₂_extends_markFirst (x : String) (scopes : List Scope) :
    List.Forall₂ (Scope.Extends []) scopes (markFirst x scopes) := by
  induction scopes with
  | nil => exact .nil
  | cons s scopes ih =>
    rw [markFirst]
    split
    · exact .cons (.mark s x) (forall₂_extends_refl scopes)
    · exact .cons (.refl s) ih

namespace Extends

variable {names names' : List String} {env env₁ env' : Environment}

theorem refl (env : Environment) : env.Extends names env :=
  ⟨.refl env.inner, forall₂_extends_refl env.outer⟩

theorem trans (h : env.Extends names env₁) (h' : env₁.Extends names env') :
    env.Extends names env' :=
  ⟨h.inner.trans h'.inner, forall₂_extends_trans h.outer h'.outer⟩

theorem mono (h : env.Extends names env') (hsub : names ⊆ names') : env.Extends names' env' :=
  ⟨h.inner.mono hsub, h.outer⟩

theorem mark (env : Environment) (x : String) : env.Extends names (env.mark x) := by
  rw [Environment.mark]
  split
  · exact ⟨.mark env.inner x, forall₂_extends_refl env.outer⟩
  · exact ⟨.refl env.inner, forall₂_extends_markFirst x env.outer⟩

theorem define {x : String} {v : Variable} (h : env.define x v = (.ok (), env'))
    (hx : x ∈ names) : env.Extends names env' := by
  obtain ⟨hnone, rfl⟩ := define_eq_ok.1 h
  exact ⟨.bind v hnone hx, forall₂_extends_refl env.outer⟩

/-- With a single scope, what a name stands for keeps its type and whether it may be changed. -/
theorem get? (h : env.Extends names env') (ho : env.outer = []) (ho' : env'.outer = [])
    {x : String} {v : Variable} (hv : env.get? x = some v) :
    ∃ v', env'.get? x = some v' ∧ v'.ty = v.ty ∧ v'.isMutable = v.isMutable := by
  rw [get?_of_outer_eq_nil ho] at hv
  obtain ⟨v', hv', hty, hm, _⟩ := h.inner.kept x v hv
  rw [get?_of_outer_eq_nil ho']
  exact ⟨v', hv', hty, hm⟩

end Extends

end Environment

namespace Check

variable {α β : Type}

/-- Where the check ends, early or not. -/
def finish (x : Check α) (s : Checking) : Checking :=
  match x.run s with
  | .ok _ s' | .error _ s' => s'

/-- Wherever the check begins and ends, it has kept what was bound and added only `names`. -/
protected def Extends (names : List String) (x : Check α) : Prop :=
  ∀ s : Checking, s.environment.Extends names (x.finish s).environment

namespace Extends

variable {names names' : List String} {x : Check α} {f : α → Check β}

theorem pure (a : α) : Check.Extends names (Pure.pure a : Check α) :=
  fun s => .refl s.environment

theorem get : Check.Extends names (MonadState.get : Check Checking) :=
  fun s => .refl s.environment

theorem typeFault (r : Range) (cause : TypeFault) :
    Check.Extends names (Check.typeFault r cause : Check α) :=
  fun s => .refl s.environment

theorem nameFault (r : Range) (cause : NameFault) :
    Check.Extends names (Check.nameFault r cause : Check α) :=
  fun s => .refl s.environment

theorem warn (w : Warning) : (Check.warn w).Extends names :=
  fun s => .refl s.environment

theorem markInitialized (x : String) : (Check.markInitialized x).Extends names :=
  fun s => .mark s.environment x

theorem bind (hx : x.Extends names) (hf : ∀ a, (f a).Extends names) :
    (x >>= f).Extends names := by
  intro s
  have h := hx s
  unfold finish at h ⊢
  rw [EStateM.run_bind]
  cases hr : x.run s with
  | ok a s₁ =>
    rw [hr] at h
    exact h.trans (hf a s₁)
  | error c s₁ =>
    rw [hr] at h
    exact h

theorem mono (h : x.Extends names) (hsub : names ⊆ names') : x.Extends names' :=
  fun s => (h s).mono hsub

theorem of_run_eq_ok (h : x.Extends names) {s s' : Checking} {a : α} (hx : x.run s = .ok a s') :
    s.environment.Extends names s'.environment := by
  have hs := h s
  rwa [finish, hx] at hs

theorem orTypeFault (r : Range) (cause : TypeFault) (o : Option α) :
    (Check.orTypeFault r cause o).Extends names := by
  cases o with
  | none => exact typeFault r cause
  | some a => exact pure a

theorem lookup (id : Ident) : (Check.lookup id).Extends names := by
  refine bind get fun s => ?_
  split
  · exact pure _
  · exact nameFault _ _

theorem demand (r : Range) (expected found : Ty) :
    (Check.demand r expected found).Extends names := by
  rw [Check.demand]
  split
  · exact pure ()
  · exact typeFault _ _

theorem define {id : Ident} (v : Variable) (h : id.name ∈ names) :
    (Check.define id v).Extends names := by
  intro s
  rw [finish]
  rcases s.environment.define_cases id.name v with ⟨-, hd⟩ | ⟨-, hd⟩
  · rw [Check.run_define_of_error hd]
    exact .refl s.environment
  · rw [Check.run_define_of_ok hd]
    exact .define hd h

theorem forM {γ : Type} {g : γ → Check Unit} : {l : List γ} → (∀ a ∈ l, (g a).Extends names) →
    (l.forM g).Extends names
  | [], _ => pure ()
  | _ :: _, h => by
    rw [List.forall_mem_cons] at h
    exact bind h.1 fun _ => forM h.2

end Extends

end Check

theorem Literal.extends_check (value : Literal) (r : Range) (names : List String) :
    (value.check r).Extends names := by
  cases value with
  | integer n =>
    rw [Literal.check]
    split
    · exact .pure _
    · exact .bind (.warn _) fun _ => .pure _
  | float _ | string _ | char _ | null => exact .pure _

namespace Expr

mutual

/-- A check of an expression binds no name, wherever it ends. -/
theorem extends_check (names : List String) : (e : Expr) → e.check.Extends names
  | literal value r => value.extends_check r names
  | ident id => by
    rw [check]
    refine .bind (.lookup id) fun v => ?_
    split
    · exact .pure _
    · exact .typeFault _ _
  | binary op l r place => by
    rw [check]
    refine .bind (extends_check names l) fun tl => ?_
    exact .bind (extends_check names r) fun tr => .orTypeFault _ _ _
  | unary op e place => by
    rw [check]
    exact .bind (extends_check names e) fun t => .orTypeFault _ _ _
  | update op leading target place => by
    rw [check]
    refine .bind (.lookup target) fun v => ?_
    split
    · exact .typeFault _ _
    split
    · exact .typeFault _ _
    split
    · exact .typeFault _ _
    · exact .pure _
  | assign op target value place => by
    have hmark : Check.Extends names (do Check.markInitialized target.name; pure Ty.null) :=
      .bind (.markInitialized _) fun _ => .pure _
    rw [check]
    refine .bind (.lookup target) fun v => ?_
    split
    · exact .typeFault _ _
    cases op with
    | plain =>
      refine .bind (extends_check names value) fun t => ?_
      exact .bind (.demand _ _ _) fun _ => hmark
    | compound op =>
      dsimp only
      split
      · exact .typeFault _ _
      refine .bind (extends_check names value) fun r => ?_
      refine .bind (.orTypeFault _ _ _) fun t => ?_
      exact .bind (.demand _ _ _) fun _ => hmark
  | sequence items place => by
    rw [check]
    exact .bind (extends_checkAll names items) fun ts => .pure _
  | array items place => by
    rw [check]
    exact .bind (extends_checkAll names items) fun ts => .pure _
  | index base position place => by
    rw [check]
    refine .bind (extends_check names base) fun t => ?_
    refine .bind (.orTypeFault _ _ _) fun element => ?_
    refine .bind (extends_check names position) fun p => ?_
    split
    · exact .pure _
    · exact .typeFault _ _

theorem extends_checkAll (names : List String) : (es : List Expr) →
    (checkAll es).Extends names
  | [] => .pure _
  | e :: es => by
    rw [checkAll]
    refine .bind (extends_check names e) fun t => ?_
    exact .bind (extends_checkAll names es) fun ts => .pure _

end

theorem extends_checkLength (names : List String) (e : Expr) : e.checkLength.Extends names := by
  refine .bind (extends_check names e) fun t => ?_
  split
  · exact .pure _
  · exact .typeFault _ _

end Expr

theorem Declaration.extends_check (d : Declaration) :
    d.check.Extends (d.names.map Ident.name) := by
  have hnames (v : Variable) : (d.names.forM fun id => Check.define id v).Extends
      (d.names.map Ident.name) :=
    .forM fun id hid => .define v (List.mem_map_of_mem hid)
  rw [Declaration.check]
  refine .bind (.forM fun e _ => e.extends_checkLength _) fun _ => ?_
  cases d.initializer with
  | none => exact hnames _
  | some e =>
    refine .bind (e.extends_check _) fun t => ?_
    exact .bind (.demand _ _ _) fun _ => hnames _

/-- A check of a statement adds no names but those that the statement declares. -/
theorem Statement.extends_check (stmt : Statement) : stmt.check.Extends stmt.names := by
  cases stmt with
  | expression e => exact .bind (e.extends_check _) fun _ => .pure _
  | declaration d => exact d.extends_check

/-- A check adds no names but declared ones, wherever it ends. -/
theorem Program.extends_check (p : Program) : p.check.Extends p.names :=
  .forM fun stmt hstmt => stmt.extends_check.mono fun _ hx => List.mem_flatMap.2 ⟨stmt, hstmt, hx⟩

namespace Expr

/-- The outermost node assigns to the name. -/
def Assigns (x : String) : Expr → Prop
  | assign _ target _ _ => target.name = x
  | _ => False

mutual

/-- The names that an expression assigns to are those of its assignments. -/
theorem mem_targets_iff {x : String} : (e : Expr) → (x ∈ e.targets ↔ ∃ n ∈ e.nodes, n.Assigns x)
  | literal .. | ident _ | update .. => by
    simp [targets, nodes, Assigns]
  | binary op l r place => by
    simp [targets, nodes, Assigns, mem_targets_iff l, mem_targets_iff r, or_and_right, exists_or]
  | unary op e place => by
    simp [targets, nodes, Assigns, mem_targets_iff e]
  | assign op target value place => by
    simp [targets, nodes, Assigns, mem_targets_iff value, or_comm, eq_comm]
  | sequence items place | array items place => by
    simp [targets, nodes, Assigns, mem_targetsAll_iff items]
  | index base position place => by
    simp [targets, nodes, Assigns, mem_targets_iff base, mem_targets_iff position, or_and_right,
      exists_or]

theorem mem_targetsAll_iff {x : String} : (es : List Expr) →
    (x ∈ targetsAll es ↔ ∃ n ∈ nodesAll es, n.Assigns x)
  | [] => by simp [targetsAll, nodesAll]
  | e :: es => by
    simp [targetsAll, nodesAll, mem_targets_iff e, mem_targetsAll_iff es, or_and_right, exists_or]

end

end Expr

namespace Program

/-- What a program that passes its check makes of an environment with a single scope. A name that is
initialized was so before, or it has been declared with an initial value or assigned to, in a
statement, in an initial value or in a length. -/
structure Settles (p : Program) (env env' : Environment) : Prop where
  outer : env'.outer = []
  nodup : p.names.Nodup
  fresh : ∀ x ∈ p.names, env.get? x = none
  bound : ∀ x, (env'.get? x).isSome ↔ (env.get? x).isSome ∨ x ∈ p.names
  declared : ∀ d, .declaration d ∈ p → ∀ id ∈ d.names,
    ∃ v, env'.get? id.name = some v ∧ v.ty = d.ty ∧ v.isMutable = d.isMutable
  initialized : ∀ x, env'.IsInitialized x ↔ env.IsInitialized x ∨
    (∃ d, .declaration d ∈ p ∧ d.initializer.isSome ∧ x ∈ d.names.map Ident.name) ∨
    ∃ e ∈ p.expressions, ∃ n ∈ e.nodes, n.Assigns x

namespace Settles

variable {p p' : Program} {env env₁ env' : Environment}

theorem nil (ho : env.outer = []) : Settles [] env env where
  outer := ho
  nodup := List.nodup_nil
  fresh := List.forall_mem_nil _
  bound x := by simp [names]
  declared := by simp
  initialized x := by simp [expressions]

/-- What one program and then another one make of the scope. The names of the first one keep their
types through the second one. -/
theorem append (h : p.Settles env env₁) (h' : p'.Settles env₁ env')
    (hext : env₁.Extends p'.names env') : (p ++ p').Settles env env' where
  outer := h'.outer
  nodup := by
    rw [names, List.flatMap_append]
    refine h.nodup.append h'.nodup fun x hx hx' => ?_
    have hsome := (h.bound x).2 (.inr hx)
    rw [h'.fresh x hx'] at hsome
    cases hsome
  fresh x hx := by
    rw [names, List.flatMap_append, List.mem_append] at hx
    rcases hx with hx | hx
    · exact h.fresh x hx
    · have hnone := h'.fresh x hx
      rw [← Option.not_isSome_iff_eq_none] at hnone ⊢
      exact fun hsome => hnone ((h.bound x).2 (.inl hsome))
  bound x := by
    rw [h'.bound, h.bound, names, names, names, List.flatMap_append, List.mem_append, or_assoc]
  declared d hd id hid := by
    rcases List.mem_append.1 hd with hd | hd
    · obtain ⟨v, hv, hty, hm⟩ := h.declared d hd id hid
      obtain ⟨v', hv', hty', hm'⟩ := hext.get? h.outer h'.outer hv
      exact ⟨v', hv', hty'.trans hty, hm'.trans hm⟩
    · exact h'.declared d hd id hid
  initialized x := by
    rw [h'.initialized, h.initialized]
    simp only [expressions, List.flatMap_append, List.mem_append, or_and_right, exists_or]
    rw [or_assoc, or_or_or_comm]

end Settles

end Program

/-- A name is initialized after a statement if it was so before, or has been declared with an
initial value or assigned to. -/
theorem Statement.isInitialized_check_iff {stmt : Statement} {s s' : Checking} {u : Unit}
    (h : stmt.check.run s = .ok u s') (ho : s.environment.outer = []) (x : String) :
    s'.environment.IsInitialized x ↔ s.environment.IsInitialized x ∨
      (∃ d, stmt = .declaration d ∧ d.initializer.isSome ∧ x ∈ d.names.map Ident.name) ∨
      ∃ e ∈ stmt.expressions, ∃ n ∈ e.nodes, n.Assigns x := by
  obtain ⟨v, hd, hv⟩ := environment_check h
  have hdeclared : x ∈ stmt.names ∧ v.isInitialized ↔
      ∃ d, stmt = .declaration d ∧ d.initializer.isSome ∧ x ∈ d.names.map Ident.name := by
    cases stmt with
    | expression e => simp [names]
    | declaration d => simp [names, hv d rfl, Declaration.binding, and_comm]
  -- A name is assigned to only where it stands for something, so that its mark is not lost.
  have hassigned : x ∈ Expr.targetsAll stmt.expressions ∧ (s.environment.get? x).isSome ↔
      ∃ e ∈ stmt.expressions, ∃ n ∈ e.nodes, n.Assigns x := by
    rw [Expr.mem_targetsAll_iff, Expr.exists_mem_nodesAll, and_iff_left_iff_imp]
    rintro ⟨e, he, n, hn, hx⟩
    cases n with
    | assign op target value place =>
      cases hx
      obtain ⟨b, hb, _⟩ := permits_of_check h e he _ hn target rfl
      exact Option.isSome_iff_exists.2 ((Option.map_eq_some_iff.1 hb).imp fun _ hw => hw.1)
    | _ => cases hx
  rw [Environment.isInitialized_defineAll_iff (by simpa using ho) hd,
    Environment.isInitialized_markAll_iff, hdeclared, hassigned, or_assoc,
    or_comm (b := ∃ d, _)]

/-- A statement that passes its check settles the scope. -/
theorem Statement.settles_check {stmt : Statement} {s s' : Checking} {u : Unit}
    (h : stmt.check.run s = .ok u s') (ho : s.environment.outer = []) :
    Program.Settles [stmt] s.environment s'.environment := by
  have hnames : Program.names [stmt] = stmt.names := List.flatMap_singleton _ _
  have hexpressions : Program.expressions [stmt] = stmt.expressions := List.flatMap_singleton _ _
  obtain ⟨v, hd, hv⟩ := environment_check h
  have ho₁ := (Environment.outer_markAll_eq_nil _ (Expr.targetsAll stmt.expressions)).2 ho
  obtain ⟨hnodup, hnone⟩ := Environment.nodup_of_defineAll ho₁ hd
  have hget := Environment.get?_defineAll hd
  refine ⟨(Environment.outer_defineAll hd).trans ho₁, hnames ▸ hnodup, ?_, ?_, ?_, ?_⟩
  · intro x hx
    rw [hnames] at hx
    simpa [Environment.get?_markAll] using hnone x hx
  · intro x
    rw [hget, hnames]
    by_cases hx : x ∈ stmt.names
    · simp [hx]
    · simp [hx, Environment.isSome_get?_markAll]
  · intro d hmem id hid
    cases List.mem_singleton.1 hmem
    have hname : id.name ∈ names (.declaration d) := List.mem_map_of_mem hid
    refine ⟨d.binding, ?_, rfl, rfl⟩
    rw [hget, if_pos hname, hv d rfl]
  · intro x
    rw [isInitialized_check_iff h ho, hexpressions]
    simp only [List.mem_singleton, eq_comm]

theorem Program.settles_check {p : Program} {s s' : Checking} {u : Unit}
    (h : p.check.run s = .ok u s') (ho : s.environment.outer = []) :
    p.Settles s.environment s'.environment := by
  induction p generalizing s with
  | nil =>
    cases h
    exact .nil ho
  | cons stmt p ih =>
    obtain ⟨_, s₁, hs, hp⟩ := run_bind_eq_ok.1 h
    have hstmt := Statement.settles_check hs ho
    exact Settles.append (p := [stmt]) hstmt (ih hp hstmt.outer)
      ((Program.extends_check p).of_run_eq_ok hp)

/-- Wherever the check of a program ends, every binding of every scope is still there, with its
type, as changeable as it was and with its mark if it had one. Procedures are as before, and names
have been added only to the innermost scope and only such as the program declares. If the check
succeeds with a single scope, `Program.Settles` says what is bound and what is initialized. -/
theorem Program.check_effects (p : Program) (s : Checking) :
    s.environment.Extends p.names (p.check.finish s).environment ∧
      ∀ s', p.check.run s = .ok () s' → s.environment.outer = [] →
        p.Settles s.environment s'.environment :=
  ⟨p.extends_check s, fun _ h ho => settles_check h ho⟩

/-- A check that ends early has marked a name of an outer scope and bound one in the inner scope.
With a single scope, an assignment in a length initializes the name for the declaration behind
it. -/
theorem Program.check_effects_early_and_nested :
    (∃ p s', Program.ofSource "a = 1; mut b: int; b;" = .ok p ∧
      p.check.run { environment := ⟨{}, [⟨[("a", ⟨.integer .i32, true, false⟩)], []⟩]⟩ } =
        .error ⟨⟨1, 19, 20⟩, .type (.uninitialized "b")⟩ s' ∧
      s'.environment = ⟨⟨[("b", ⟨.integer .i32, true, false⟩)], []⟩,
        [⟨[("a", ⟨.integer .i32, true, true⟩)], []⟩]⟩ ∧
      Environment.Extends p.names ⟨{}, [⟨[("a", ⟨.integer .i32, true, false⟩)], []⟩]⟩
        s'.environment) ∧
    ∃ p s', Program.ofSource "mut b: int[(a = 1, 2)]; const c: int = a;" = .ok p ∧
      p.check.run { environment := ⟨⟨[("a", ⟨.integer .i32, true, false⟩)], []⟩, []⟩ } = .ok () s' ∧
      p.Settles ⟨⟨[("a", ⟨.integer .i32, true, false⟩)], []⟩, []⟩ s'.environment ∧
      s'.environment.IsInitialized "a" := by
  constructor
  · have hp : Program.ofSource "a = 1; mut b: int; b;" = .ok
        [.expression (.assign .plain ⟨"a", ⟨1, 0, 1⟩⟩ (.literal (.integer 1) ⟨1, 4, 5⟩) ⟨1, 0, 5⟩),
          .declaration ⟨true, .integer .i32, [⟨"b", ⟨1, 11, 12⟩⟩], none, ⟨1, 7, 18⟩⟩,
          .expression (.ident ⟨"b", ⟨1, 19, 20⟩⟩)] := by
      decide +kernel
    exact ⟨_, _, hp, rfl, rfl, (check_effects _ { environment := ⟨{}, [_]⟩ }).1⟩
  · have hp : Program.ofSource "mut b: int[(a = 1, 2)]; const c: int = a;" = .ok
        [.declaration ⟨true, .array (.integer .i32) (some (.sequence
              [.assign .plain ⟨"a", ⟨1, 12, 13⟩⟩ (.literal (.integer 1) ⟨1, 16, 17⟩) ⟨1, 12, 17⟩,
                .literal (.integer 2) ⟨1, 19, 20⟩] ⟨1, 12, 20⟩)),
            [⟨"b", ⟨1, 4, 5⟩⟩], none, ⟨1, 0, 23⟩⟩,
          .declaration ⟨false, .integer .i32, [⟨"c", ⟨1, 30, 31⟩⟩],
            some (.ident ⟨"a", ⟨1, 39, 40⟩⟩), ⟨1, 24, 41⟩⟩] := by
      decide +kernel
    refine ⟨_, _, hp, rfl, (check_effects _ { environment := ⟨_, []⟩ }).2 _ rfl rfl, ?_⟩
    exact ⟨⟨.integer .i32, true, true⟩, rfl, rfl⟩

end StackCompiler
