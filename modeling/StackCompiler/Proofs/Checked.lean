import StackCompiler.Proofs.Bindings
import StackCompiler.Proofs.Nodes
import StackCompiler.Proofs.Steps
import StackCompiler.Typing

/-!
# Checks that succeed

What is known of an expression, and of a declaration, whose check succeeds: one statement for
each form, which says exactly when the check succeeds and what it finds. The checks of the parts
follow each other, each from where the one before it ended. The warnings that a check adds can be
read off what is checked (`Program.warnings_check`).
-/

namespace StackCompiler

namespace Check

variable {α : Type} {a : α} {s s' : Checking}

theorem run_typeFault_eq_ok {range : Range} {cause : TypeFault} :
    (typeFault range cause).run s = .ok a s' ↔ False :=
  ⟨nofun, False.elim⟩

theorem run_orTypeFault_eq_ok {range : Range} {cause : TypeFault} {o : Option α} :
    (orTypeFault range cause o).run s = .ok a s' ↔ o = some a ∧ s' = s := by
  cases o with
  | none => simp [orTypeFault, run_typeFault_eq_ok]
  | some b => simp [orTypeFault, eq_comm]

theorem run_lookup_eq_ok {id : Ident} {v : Variable} :
    (lookup id).run s = .ok v s' ↔ s.environment.get? id.name = some v ∧ s' = s := by
  rw [lookup, EStateM.run_bind, EStateM.run_get]
  dsimp only
  cases s.environment.get? id.name with
  | none => simpa using nofun
  | some w => simp [eq_comm]

theorem run_demand_eq_ok {range : Range} {expected found : Ty} {u : Unit} :
    (demand range expected found).run s = .ok u s' ↔ expected.accepts found ∧ s' = s := by
  simp only [demand, run_ite_eq_ok, run_pure_eq_ok, run_typeFault_eq_ok]
  simp

theorem run_markInitialized_eq_ok {name : String} {u : Unit} :
    (markInitialized name).run s = .ok u s' ↔
      s' = { s with environment := s.environment.mark name } := by
  rw [markInitialized, EStateM.run_modify, EStateM.Result.ok.injEq]
  simp [eq_comm]

theorem run_define_of_ok {id : Ident} {v : Variable} {env : Environment}
    (h : s.environment.define id.name v = (.ok (), env)) :
    (define id v).run s = .ok () { s with environment := env } := by
  rw [define, EStateM.run_bind, EStateM.run_get]
  dsimp only
  rw [h]
  rfl

/-- What the environment is left with by a name that is rejected, the check is left with. -/
theorem run_define_of_error {id : Ident} {v w : Variable} {env : Environment}
    (h : s.environment.define id.name v = (.error w, env)) :
    (define id v).run s =
      .error ⟨id.range, .name (.alreadyDeclared id.name)⟩ { s with environment := env } := by
  rw [define, EStateM.run_bind, EStateM.run_get]
  dsimp only
  rw [h]
  rfl

theorem run_define_eq_ok {id : Ident} {v : Variable} {u : Unit} :
    (define id v).run s = .ok u s' ↔
      ∃ env, s.environment.define id.name v = (.ok (), env) ∧
        s' = { s with environment := env } := by
  rcases s.environment.define_cases id.name v with ⟨-, h⟩ | ⟨-, h⟩
  · rw [run_define_of_error h, h]
    simp
  · rw [run_define_of_ok h, h]
    simp [eq_comm]

end Check

/-- A constant always has a type, and only a warning may be added. -/
theorem Literal.environment_check {range : Range} {value : Literal} {s s' : Checking} {t : Ty}
    (h : (value.check range).run s = .ok t s') : s'.environment = s.environment := by
  cases value with
  | integer n =>
    rw [Literal.check] at h
    split at h
    · rw [run_pure_eq_ok] at h
      rw [h.2]
    · obtain ⟨_, s₁, hw, ht⟩ := run_bind_eq_ok.1 h
      rw [run_pure_eq_ok] at ht
      rw [ht.2]
      cases hw
      rfl
  | float _ | string _ | char _ | null =>
    cases h
    rfl

/-- What an assignment asks of the variable and of the type of the value. -/
def AssignOp.Suits (op : AssignOp) (v : Variable) (t : Ty) : Prop :=
  match op with
  | plain => v.ty.accepts t
  | compound op => v.isInitialized ∧ ∃ r, op.result? v.ty t = some r ∧ v.ty.accepts r

namespace Expr

variable {s s' : Checking} {t : Ty}

theorem check_ident_eq_ok {id : Ident} :
    (ident id).check.run s = .ok t s' ↔
      ∃ v, s.environment.get? id.name = some v ∧ v.isInitialized ∧ t = v.ty ∧ s' = s := by
  simp only [check, run_bind_eq_ok, Check.run_lookup_eq_ok, run_ite_eq_ok,
    Check.run_typeFault_eq_ok, run_pure_eq_ok]
  grind

theorem check_binary_eq_ok {op : BinaryOp} {l r : Expr} {range : Range} :
    (binary op l r range).check.run s = .ok t s' ↔
      ∃ tl s₁ tr, l.check.run s = .ok tl s₁ ∧ r.check.run s₁ = .ok tr s' ∧
        op.result? tl tr = some t := by
  simp only [check, run_bind_eq_ok, Check.run_orTypeFault_eq_ok]
  grind

theorem check_unary_eq_ok {op : UnaryOp} {e : Expr} {range : Range} :
    (unary op e range).check.run s = .ok t s' ↔
      ∃ te, e.check.run s = .ok te s' ∧ op.result? te = some t := by
  simp only [check, run_bind_eq_ok, Check.run_orTypeFault_eq_ok]
  grind

theorem check_update_eq_ok {op : UpdateOp} {leading : Bool} {target : Ident} {range : Range} :
    (update op leading target range).check.run s = .ok t s' ↔
      ∃ v, s.environment.get? target.name = some v ∧ v.isMutable ∧ v.isInitialized ∧
        v.ty.isNumeric ∧ t = v.ty ∧ s' = s := by
  simp only [check, run_bind_eq_ok, Check.run_lookup_eq_ok, run_ite_eq_ok,
    Check.run_typeFault_eq_ok, run_pure_eq_ok]
  grind

theorem check_assign_eq_ok {op : AssignOp} {target : Ident} {value : Expr} {range : Range} :
    (assign op target value range).check.run s = .ok t s' ↔
      ∃ v tv s₁, s.environment.get? target.name = some v ∧ v.isMutable ∧
        value.check.run s = .ok tv s₁ ∧ op.Suits v tv ∧ t = .null ∧
        s' = { s₁ with environment := s₁.environment.mark target.name } := by
  cases op with
  | plain =>
    simp only [check, run_bind_eq_ok, Check.run_lookup_eq_ok, run_ite_eq_ok,
      Check.run_typeFault_eq_ok, run_pure_eq_ok, Check.run_demand_eq_ok, AssignOp.Suits,
      Check.run_markInitialized_eq_ok]
    grind
  | compound op =>
    simp only [check, run_bind_eq_ok, Check.run_lookup_eq_ok, run_ite_eq_ok,
      Check.run_typeFault_eq_ok, run_pure_eq_ok, Check.run_demand_eq_ok,
      Check.run_orTypeFault_eq_ok, AssignOp.Suits, Check.run_markInitialized_eq_ok]
    grind

theorem check_sequence_eq_ok {items : List Expr} {range : Range} :
    (sequence items range).check.run s = .ok t s' ↔
      ∃ ts, (checkAll items).run s = .ok ts s' ∧ t = ts.getLastD .null := by
  simp only [check, run_bind_eq_ok, run_pure_eq_ok]
  grind

theorem check_array_eq_ok {items : List Expr} {range : Range} :
    (array items range).check.run s = .ok t s' ↔
      ∃ ts, (checkAll items).run s = .ok ts s' ∧ t = .array (.merge ts) none := by
  simp only [check, run_bind_eq_ok, run_pure_eq_ok]
  grind

theorem check_index_eq_ok {base position : Expr} {range : Range} :
    (index base position range).check.run s = .ok t s' ↔
      ∃ tb s₁ tp, base.check.run s = .ok tb s₁ ∧ position.check.run s₁ = .ok tp s' ∧
        tb.indexed? = some t ∧ tp.isInteger := by
  simp only [check, run_bind_eq_ok, run_ite_eq_ok, Check.run_typeFault_eq_ok, run_pure_eq_ok,
    Check.run_orTypeFault_eq_ok]
  grind

theorem checkAll_cons_eq_ok {e : Expr} {es : List Expr} {ts : List Ty} :
    (checkAll (e :: es)).run s = .ok ts s' ↔
      ∃ t s₁ ts', e.check.run s = .ok t s₁ ∧ (checkAll es).run s₁ = .ok ts' s' ∧
        ts = t :: ts' := by
  simp only [checkAll, run_bind_eq_ok, run_pure_eq_ok]
  grind

theorem checkLength_eq_ok {e : Expr} {u : Unit} :
    e.checkLength.run s = .ok u s' ↔ ∃ t, e.check.run s = .ok t s' ∧ t.isInteger := by
  simp only [checkLength, run_bind_eq_ok, run_ite_eq_ok, Check.run_typeFault_eq_ok, run_pure_eq_ok]
  grind

mutual

/-- A check leaves the environment as it was, but for the marks of the names assigned to. -/
theorem environment_check {e : Expr} {s s' : Checking} {t : Ty}
    (h : e.check.run s = .ok t s') : s'.environment = s.environment.markAll e.targets := by
  match e with
  | literal value range => exact Literal.environment_check h
  | ident id =>
    obtain ⟨_, _, _, _, rfl⟩ := check_ident_eq_ok.1 h
    rfl
  | update .. =>
    obtain ⟨_, _, _, _, _, _, rfl⟩ := check_update_eq_ok.1 h
    rfl
  | binary op l r range =>
    obtain ⟨_, s₁, _, hl, hr, _⟩ := check_binary_eq_ok.1 h
    rw [environment_check hr, environment_check hl, targets, Environment.markAll_append]
  | unary op e range =>
    obtain ⟨_, he, _⟩ := check_unary_eq_ok.1 h
    rw [environment_check he, targets]
  | assign op target value range =>
    obtain ⟨_, _, s₁, _, _, hv, _, _, rfl⟩ := check_assign_eq_ok.1 h
    rw [environment_check hv, targets, Environment.markAll_append]
    rfl
  | sequence items range =>
    obtain ⟨_, hi, _⟩ := check_sequence_eq_ok.1 h
    exact environment_checkAll hi
  | array items range =>
    obtain ⟨_, hi, _⟩ := check_array_eq_ok.1 h
    exact environment_checkAll hi
  | index base position range =>
    obtain ⟨_, s₁, _, hb, hp, _⟩ := check_index_eq_ok.1 h
    rw [environment_check hp, environment_check hb, targets, Environment.markAll_append]

theorem environment_checkAll {es : List Expr} {s s' : Checking} {ts : List Ty}
    (h : (checkAll es).run s = .ok ts s') :
    s'.environment = s.environment.markAll (targetsAll es) := by
  match es with
  | [] =>
    cases h
    rfl
  | e :: es =>
    obtain ⟨_, s₁, _, he, hes, _⟩ := checkAll_cons_eq_ok.1 h
    rw [environment_checkAll hes, environment_check he, targetsAll, Environment.markAll_append]

end

/-- What a node of a checked expression asks of the name it uses: the name stands for something,
and for a variable that may be changed if the node changes it. -/
def Permits (env : Environment) (n : Expr) : Prop :=
  ∀ id, n.subject? = some id → ∃ b, env.isMutable? id.name = some b ∧ (n.writes → b)

theorem permits_of_subject?_eq_none {env : Environment} {n : Expr} (h : n.subject? = none) :
    Permits env n := by
  intro id hid
  rw [h] at hid
  cases hid

@[simp] theorem permits_markAll {env : Environment} {names : List String} {n : Expr} :
    Permits (env.markAll names) n ↔ Permits env n := by
  simp [Permits]

mutual

/-- Every name that a checked expression uses stands for something, and every name that it changes
for a variable that may be changed. -/
theorem permits_of_check {e : Expr} {s s' : Checking} {t : Ty} (h : e.check.run s = .ok t s') :
    ∀ n ∈ e.nodes, Permits s.environment n := by
  match e with
  | literal value range =>
    rw [nodes, List.forall_mem_singleton]
    exact permits_of_subject?_eq_none rfl
  | ident id =>
    obtain ⟨v, hv, _⟩ := check_ident_eq_ok.1 h
    rw [nodes, List.forall_mem_singleton]
    rintro _ ⟨⟩
    exact ⟨v.isMutable, by simp [Environment.isMutable?, hv], nofun⟩
  | update op leading target range =>
    obtain ⟨v, hv, hm, _⟩ := check_update_eq_ok.1 h
    rw [nodes, List.forall_mem_singleton]
    rintro _ ⟨⟩
    exact ⟨v.isMutable, by simp [Environment.isMutable?, hv], fun _ => hm⟩
  | binary op l r range =>
    obtain ⟨_, s₁, _, hl, hr, _⟩ := check_binary_eq_ok.1 h
    rw [nodes, List.forall_mem_cons, List.forall_mem_append]
    refine ⟨permits_of_subject?_eq_none rfl, permits_of_check hl, fun n hn => ?_⟩
    have hright := permits_of_check hr n hn
    rwa [environment_check hl, permits_markAll] at hright
  | unary op e range =>
    obtain ⟨_, he, _⟩ := check_unary_eq_ok.1 h
    rw [nodes, List.forall_mem_cons]
    exact ⟨permits_of_subject?_eq_none rfl, permits_of_check he⟩
  | assign op target value range =>
    obtain ⟨v, _, s₁, hv, hm, he, _⟩ := check_assign_eq_ok.1 h
    rw [nodes, List.forall_mem_cons]
    refine ⟨?_, permits_of_check he⟩
    rintro _ ⟨⟩
    exact ⟨v.isMutable, by simp [Environment.isMutable?, hv], fun _ => hm⟩
  | sequence items range =>
    obtain ⟨_, hi, _⟩ := check_sequence_eq_ok.1 h
    rw [nodes, List.forall_mem_cons]
    exact ⟨permits_of_subject?_eq_none rfl, permits_of_checkAll hi⟩
  | array items range =>
    obtain ⟨_, hi, _⟩ := check_array_eq_ok.1 h
    rw [nodes, List.forall_mem_cons]
    exact ⟨permits_of_subject?_eq_none rfl, permits_of_checkAll hi⟩
  | index base position range =>
    obtain ⟨_, s₁, _, hb, hp, _⟩ := check_index_eq_ok.1 h
    rw [nodes, List.forall_mem_cons, List.forall_mem_append]
    refine ⟨permits_of_subject?_eq_none rfl, permits_of_check hb, fun n hn => ?_⟩
    have hposition := permits_of_check hp n hn
    rwa [environment_check hb, permits_markAll] at hposition

theorem permits_of_checkAll {es : List Expr} {s s' : Checking} {ts : List Ty}
    (h : (checkAll es).run s = .ok ts s') : ∀ n ∈ nodesAll es, Permits s.environment n := by
  match es with
  | [] => exact List.forall_mem_nil _
  | e :: es =>
    obtain ⟨_, s₁, _, he, hes, _⟩ := checkAll_cons_eq_ok.1 h
    rw [nodesAll, List.forall_mem_append]
    refine ⟨permits_of_check he, fun n hn => ?_⟩
    have hrest := permits_of_checkAll hes n hn
    rwa [environment_check he, permits_markAll] at hrest

end

/-- Every name that a checked expression uses stands for something. -/
theorem isSome_get?_of_check {e : Expr} (h : e.check.run s = .ok t s') {n : Expr}
    (hn : n ∈ e.nodes) {id : Ident} (hid : n.subject? = some id) :
    (s.environment.get? id.name).isSome := by
  obtain ⟨b, hb, _⟩ := permits_of_check h n hn id hid
  obtain ⟨v, hv, _⟩ := Option.map_eq_some_iff.1 hb
  rw [hv]
  rfl

/-- Lengths are checked like the items of a list. -/
theorem environment_checkLengths {es : List Expr} {s s' : Checking} {u : Unit}
    (h : (es.forM checkLength).run s = .ok u s') :
    s'.environment = s.environment.markAll (targetsAll es) := by
  induction es generalizing s with
  | nil =>
    cases h
    rfl
  | cons e es ih =>
    obtain ⟨_, s₁, he, hes⟩ := run_bind_eq_ok.1 h
    obtain ⟨_, he, _⟩ := checkLength_eq_ok.1 he
    rw [ih hes, environment_check he, targetsAll, Environment.markAll_append]

end Expr

/-- Names are bound one after the other. -/
theorem Check.defineAll_of_run_define {v : Variable} {ids : List Ident} {s s' : Checking}
    {u : Unit} (h : (ids.forM fun id => Check.define id v).run s = .ok u s') :
    s.environment.defineAll? (ids.map Ident.name) v = some s'.environment := by
  induction ids generalizing s with
  | nil =>
    cases h
    rfl
  | cons id ids ih =>
    obtain ⟨_, s₁, hid, hids⟩ := run_bind_eq_ok.1 h
    obtain ⟨env, henv, rfl⟩ := Check.run_define_eq_ok.1 hid
    rw [List.map_cons, Environment.defineAll?_cons_eq_some]
    exact ⟨env, henv, ih hids⟩

namespace Declaration

/-- The variable that the declared names stand for. -/
def binding (d : Declaration) : Variable :=
  ⟨d.ty, d.isMutable, d.initializer.isSome⟩

/-- The parts of a declaration are checked in turn: the lengths, the initial value, the names. -/
theorem check_eq_ok {d : Declaration} {s s' : Checking} {u : Unit} :
    d.check.run s = .ok u s' ↔
      ∃ s₁ s₂, (d.ty.lengths.forM Expr.checkLength).run s = .ok () s₁ ∧
        (∀ e, d.initializer = some e → ∃ t, e.check.run s₁ = .ok t s₂ ∧ d.ty.accepts t) ∧
        (d.initializer = none → s₂ = s₁) ∧
        (d.names.forM fun id => Check.define id d.binding).run s₂ = .ok () s' := by
  rw [check, run_bind_eq_ok]
  unfold binding
  cases d.initializer with
  | none =>
    constructor
    · rintro ⟨_, s₁, hl, hn⟩
      exact ⟨s₁, s₁, hl, nofun, fun _ => rfl, hn⟩
    · rintro ⟨s₁, s₂, hl, _, hs, hn⟩
      cases hs rfl
      exact ⟨(), s₁, hl, hn⟩
  | some e =>
    simp only [run_bind_eq_ok, Check.run_demand_eq_ok]
    constructor
    · rintro ⟨_, s₁, hl, t, s₂, he, _, _, ⟨ht, rfl⟩, hn⟩
      exact ⟨s₁, _, hl, by rintro _ ⟨⟩; exact ⟨t, he, ht⟩, nofun, hn⟩
    · rintro ⟨s₁, s₂, hl, he, _, hn⟩
      obtain ⟨t, he, ht⟩ := he e rfl
      exact ⟨(), s₁, hl, t, s₂, he, (), s₂, ⟨ht, rfl⟩, hn⟩

theorem environment_checkInitializer {d : Declaration} {s s' : Checking}
    (he : ∀ e, d.initializer = some e → ∃ t, e.check.run s = .ok t s' ∧ d.ty.accepts t)
    (hn : d.initializer = none → s' = s) :
    s'.environment = s.environment.markAll (Expr.targetsAll d.initializer.toList) := by
  cases hi : d.initializer with
  | none =>
    rw [hn hi]
    rfl
  | some e =>
    obtain ⟨t, he, _⟩ := he e hi
    rw [Expr.environment_check he, Option.toList_some, Expr.targetsAll, Expr.targetsAll,
      List.append_nil]

/-- After a declaration the assigned names are marked and the declared ones bound. -/
theorem environment_check {d : Declaration} {s s' : Checking} {u : Unit}
    (h : d.check.run s = .ok u s') :
    (s.environment.markAll (Expr.targetsAll (d.ty.lengths ++ d.initializer.toList))).defineAll?
      (d.names.map Ident.name) d.binding = some s'.environment := by
  obtain ⟨s₁, s₂, hl, he, hn, hd⟩ := check_eq_ok.1 h
  rw [← Check.defineAll_of_run_define hd, environment_checkInitializer he hn,
    Expr.environment_checkLengths hl, Expr.targetsAll_append, Environment.markAll_append]

end Declaration

/-- With a statement that passes its check, the assigned names are marked and the declared ones
bound. -/
theorem Statement.environment_check {stmt : Statement} {s s' : Checking} {u : Unit}
    (h : stmt.check.run s = .ok u s') :
    ∃ v, (s.environment.markAll (Expr.targetsAll stmt.expressions)).defineAll? stmt.names v =
        some s'.environment ∧ ∀ d, stmt = .declaration d → v = d.binding := by
  cases stmt with
  | expression e =>
    obtain ⟨t, s₁, he, hs⟩ := run_bind_eq_ok.1 h
    cases hs
    refine ⟨default, ?_, nofun⟩
    rw [Expr.environment_check he]
    show some (s.environment.markAll (e.targets ++ [])) = _
    rw [List.append_nil]
  | declaration d =>
    refine ⟨d.binding, d.environment_check h, ?_⟩
    rintro _ ⟨⟩
    rfl

/-- The warning about a node that is an integer no type holds. -/
def Expr.overflow? : Expr → Option Warning
  | literal (.integer value) range =>
    if (IntWidth.ofLiteral? value).isNone then some ⟨range, value⟩ else none
  | _ => none

theorem Literal.warnings_check {range : Range} {value : Literal} {s s' : Checking} {t : Ty}
    (h : (value.check range).run s = .ok t s') :
    s'.warnings = s.warnings ++ (Expr.literal value range).overflow?.toList := by
  cases value with
  | integer n =>
    rw [Literal.check] at h
    rw [Expr.overflow?]
    cases hw : IntWidth.ofLiteral? n with
    | some width =>
      rw [hw] at h
      cases h
      exact (List.append_nil _).symm
    | none =>
      rw [hw] at h
      cases h
      rfl
  | float _ | string _ | char _ | null =>
    cases h
    exact (List.append_nil _).symm

namespace Expr

mutual

/-- A check warns about every integer that no type holds, in the order in which they stand. -/
theorem warnings_check {e : Expr} {s s' : Checking} {t : Ty} (h : e.check.run s = .ok t s') :
    s'.warnings = s.warnings ++ e.nodes.filterMap overflow? := by
  match e with
  | literal value range =>
    rw [Literal.warnings_check h]
    rfl
  | ident id =>
    obtain ⟨_, _, _, _, rfl⟩ := check_ident_eq_ok.1 h
    exact (List.append_nil _).symm
  | update .. =>
    obtain ⟨_, _, _, _, _, _, rfl⟩ := check_update_eq_ok.1 h
    exact (List.append_nil _).symm
  | binary op l r range =>
    obtain ⟨_, s₁, _, hl, hr, _⟩ := check_binary_eq_ok.1 h
    rw [warnings_check hr, warnings_check hl, List.append_assoc, ← List.filterMap_append]
    rfl
  | unary op e range =>
    obtain ⟨_, he, _⟩ := check_unary_eq_ok.1 h
    rw [warnings_check he]
    rfl
  | assign op target value range =>
    obtain ⟨_, _, s₁, _, _, hv, _, _, rfl⟩ := check_assign_eq_ok.1 h
    rw [warnings_check hv]
    rfl
  | sequence items range =>
    obtain ⟨_, hi, _⟩ := check_sequence_eq_ok.1 h
    rw [warnings_checkAll hi]
    rfl
  | array items range =>
    obtain ⟨_, hi, _⟩ := check_array_eq_ok.1 h
    rw [warnings_checkAll hi]
    rfl
  | index base position range =>
    obtain ⟨_, s₁, _, hb, hp, _⟩ := check_index_eq_ok.1 h
    rw [warnings_check hp, warnings_check hb, List.append_assoc, ← List.filterMap_append]
    rfl

theorem warnings_checkAll {es : List Expr} {s s' : Checking} {ts : List Ty}
    (h : (checkAll es).run s = .ok ts s') :
    s'.warnings = s.warnings ++ (nodesAll es).filterMap overflow? := by
  match es with
  | [] =>
    cases h
    exact (List.append_nil _).symm
  | e :: es =>
    obtain ⟨_, s₁, _, he, hes, _⟩ := checkAll_cons_eq_ok.1 h
    rw [warnings_checkAll hes, warnings_check he, List.append_assoc, ← List.filterMap_append]
    rfl

end

theorem warnings_checkLengths {es : List Expr} {s s' : Checking} {u : Unit}
    (h : (es.forM checkLength).run s = .ok u s') :
    s'.warnings = s.warnings ++ (es.flatMap nodes).filterMap overflow? := by
  induction es generalizing s with
  | nil =>
    cases h
    exact (List.append_nil _).symm
  | cons e es ih =>
    obtain ⟨_, s₁, he, hes⟩ := run_bind_eq_ok.1 h
    obtain ⟨_, he, _⟩ := checkLength_eq_ok.1 he
    rw [ih hes, warnings_check he, List.flatMap_cons, List.filterMap_append, List.append_assoc]

end Expr

theorem Check.warnings_define {v : Variable} {ids : List Ident} {s s' : Checking} {u : Unit}
    (h : (ids.forM fun id => Check.define id v).run s = .ok u s') : s'.warnings = s.warnings := by
  induction ids generalizing s with
  | nil =>
    cases h
    rfl
  | cons id ids ih =>
    obtain ⟨_, s₁, hid, hids⟩ := run_bind_eq_ok.1 h
    obtain ⟨env, _, rfl⟩ := Check.run_define_eq_ok.1 hid
    rw [ih hids]

/-- The warnings about a statement: those about its lengths and then those about what it
evaluates. -/
def Statement.overflows (stmt : Statement) : List Warning :=
  ((stmt.lengths ++ stmt.evaluated).flatMap Expr.nodes).filterMap Expr.overflow?

/-- The warnings about a program. -/
def Program.overflows (p : Program) : List Warning :=
  p.flatMap Statement.overflows

theorem Declaration.warnings_check {d : Declaration} {s s' : Checking} {u : Unit}
    (h : d.check.run s = .ok u s') :
    s'.warnings = s.warnings ++ (Statement.declaration d).overflows := by
  obtain ⟨s₁, s₂, hl, he, hn, hd⟩ := check_eq_ok.1 h
  have hinit : s₂.warnings =
      s₁.warnings ++ (d.initializer.toList.flatMap Expr.nodes).filterMap Expr.overflow? := by
    cases hi : d.initializer with
    | none =>
      rw [hn hi]
      exact (List.append_nil _).symm
    | some e =>
      obtain ⟨t, he, _⟩ := he e hi
      rw [Expr.warnings_check he, Option.toList_some, List.flatMap_singleton]
  rw [Check.warnings_define hd, hinit, Expr.warnings_checkLengths hl, List.append_assoc,
    ← List.filterMap_append, ← List.flatMap_append]
  rfl

theorem Statement.warnings_check {stmt : Statement} {s s' : Checking} {u : Unit}
    (h : stmt.check.run s = .ok u s') : s'.warnings = s.warnings ++ stmt.overflows := by
  cases stmt with
  | expression e =>
    obtain ⟨_, s₁, he, hp⟩ := run_bind_eq_ok.1 h
    obtain ⟨_, rfl⟩ := run_pure_eq_ok.1 hp
    rw [Expr.warnings_check he, ← List.flatMap_singleton Expr.nodes e]
    rfl
  | declaration d => exact d.warnings_check h

/-- A check warns about every integer that no type holds, statement by statement. -/
theorem Program.warnings_check {p : Program} {s s' : Checking} {u : Unit}
    (h : p.check.run s = .ok u s') : s'.warnings = s.warnings ++ p.overflows := by
  induction p generalizing s with
  | nil =>
    cases h
    exact (List.append_nil _).symm
  | cons stmt p ih =>
    obtain ⟨_, s₁, hs, hp⟩ := run_bind_eq_ok.1 h
    rw [ih hp, Statement.warnings_check hs, List.append_assoc]
    rfl

end StackCompiler
