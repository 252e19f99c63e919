import Mathlib.Data.List.Nodup
import StackCompiler.Proofs.Initialization

/-!
# Constants

A program that passes its check is at one with the environment that the check leads to
(`Program.Respects`): what it changes may be changed, and what it declares may be changed if it
was declared so. An environment only grows, so this still holds after further units. As a name is
declared once in a session and slots have different numbers, the code of a session stores to the
slot of a constant once, where the constant is declared (`Session.constant_stored_once`).
-/

namespace StackCompiler

/-- Names keep whether they may be changed. This is asked of environments with a single scope, in
which no name hides another. -/
structure Environment.Grows (env env' : Environment) : Prop where
  outer : env.outer = [] → env'.outer = []
  keeps : env.outer = [] → ∀ x b, env.isMutable? x = some b → env'.isMutable? x = some b

namespace Environment.Grows

variable {env env₁ env' : Environment}

theorem refl (env : Environment) : Grows env env :=
  ⟨id, fun _ _ _ => id⟩

theorem trans (h : Grows env env₁) (h' : Grows env₁ env') : Grows env env' where
  outer ho := h'.outer (h.outer ho)
  keeps ho x b hx := h'.keeps (h.outer ho) x b (h.keeps ho x b hx)

theorem markAll (env : Environment) (names : List String) : Grows env (env.markAll names) where
  outer ho := by simpa using ho
  keeps _ x b hx := by rwa [isMutable?_markAll]

theorem defineAll {names : List String} {v : Variable}
    (h : env.defineAll? names v = some env') : Grows env env' where
  outer ho := (outer_defineAll h).trans ho
  keeps ho x b hx := by
    obtain ⟨w, hw, hb⟩ := Option.map_eq_some_iff.1 hx
    rw [isMutable?, get?_defineAll_of_some ho h hw, Option.map_some, hb]

end Environment.Grows

theorem Expr.Permits.mono {env env' : Environment} {n : Expr} (h : Permits env n)
    (hg : env.Grows env') (ho : env.outer = []) : Permits env' n := by
  intro id hid
  obtain ⟨b, hb, hw⟩ := h id hid
  exact ⟨b, hg.keeps ho _ _ hb, hw⟩

theorem Expr.permits_of_checkLengths {es : List Expr} {s s' : Checking} {u : Unit}
    (h : (es.forM checkLength).run s = .ok u s') :
    ∀ e ∈ es, ∀ n ∈ e.nodes, Permits s.environment n := by
  induction es generalizing s with
  | nil => exact List.forall_mem_nil _
  | cons e es ih =>
    obtain ⟨_, s₁, he, hes⟩ := run_bind_eq_ok.1 h
    obtain ⟨_, he, _⟩ := checkLength_eq_ok.1 he
    refine List.forall_mem_cons.2 ⟨permits_of_check he, fun e' he' n hn => ?_⟩
    have hrest := ih hes e' he' n hn
    rwa [environment_check he, permits_markAll] at hrest

/-- What the program changes may be changed, and what it declares may be changed if it was declared
so. -/
structure Program.Respects (env : Environment) (p : Program) : Prop where
  uses : ∀ e ∈ p.expressions, ∀ n ∈ e.nodes, Expr.Permits env n
  declares : ∀ d, .declaration d ∈ p → ∀ id ∈ d.names, env.isMutable? id.name = some d.isMutable

namespace Program.Respects

variable {env env' : Environment} {p p' : Program}

theorem nil : Respects env [] :=
  ⟨List.forall_mem_nil _, fun _ hd => absurd hd List.not_mem_nil⟩

theorem append (h : Respects env p) (h' : Respects env p') : Respects env (p ++ p') where
  uses := by
    rw [expressions, List.flatMap_append, List.forall_mem_append]
    exact ⟨h.uses, h'.uses⟩
  declares d hd := by
    rcases List.mem_append.1 hd with hd | hd
    · exact h.declares d hd
    · exact h'.declares d hd

theorem mono (h : Respects env p) (hg : env.Grows env') (ho : env.outer = []) :
    Respects env' p where
  uses e he n hn := (h.uses e he n hn).mono hg ho
  declares d hd id hid := hg.keeps ho _ _ (h.declares d hd id hid)

/-- A constant is not changed, neither in what is evaluated nor in a length. -/
theorem ne_of_writes (h : Respects env p) {x : String} (hx : env.isMutable? x = some false)
    {e n : Expr} (he : e ∈ p.expressions) (hn : n ∈ e.nodes) (hw : n.writes) {id : Ident}
    (hid : n.subject? = some id) : id.name ≠ x := by
  rintro rfl
  obtain ⟨b, hb, hwrites⟩ := h.uses e he n hn id hid
  rw [hx, Option.some.injEq] at hb
  rw [← hb] at hwrites
  cases hwrites hw

end Program.Respects

theorem Statement.grows_check {stmt : Statement} {s s' : Checking} {u : Unit}
    (h : stmt.check.run s = .ok u s') : s.environment.Grows s'.environment := by
  obtain ⟨v, hd, _⟩ := environment_check h
  exact (Environment.Grows.markAll _ _).trans (.defineAll hd)

theorem Program.grows_check {p : Program} {s s' : Checking} {u : Unit}
    (h : p.check.run s = .ok u s') : s.environment.Grows s'.environment := by
  induction p generalizing s with
  | nil =>
    cases h
    exact .refl _
  | cons stmt p ih =>
    obtain ⟨_, s₁, hs, hp⟩ := run_bind_eq_ok.1 h
    exact (Statement.grows_check hs).trans (ih hp)

/-- What is in a checked declaration is permitted where the check begins. -/
theorem Declaration.permits_of_check {d : Declaration} {s s' : Checking} {u : Unit}
    (h : d.check.run s = .ok u s') :
    ∀ e ∈ (Statement.declaration d).expressions, ∀ n ∈ e.nodes, Expr.Permits s.environment n := by
  obtain ⟨s₁, s₂, hl, he, _, _⟩ := check_eq_ok.1 h
  rw [Statement.expressions, List.forall_mem_append]
  refine ⟨Expr.permits_of_checkLengths hl, fun e hmem n hn => ?_⟩
  obtain ⟨t, he, _⟩ := he e (Option.mem_toList.1 hmem)
  have hinit := Expr.permits_of_check he n hn
  rwa [Expr.environment_checkLengths hl, Expr.permits_markAll] at hinit

/-- What is in a checked statement is permitted where the check begins. -/
theorem Statement.permits_of_check {stmt : Statement} {s s' : Checking} {u : Unit}
    (h : stmt.check.run s = .ok u s') :
    ∀ e ∈ stmt.expressions, ∀ n ∈ e.nodes, Expr.Permits s.environment n := by
  cases stmt with
  | expression e =>
    obtain ⟨t, s₁, he, _⟩ := run_bind_eq_ok.1 h
    exact List.forall_mem_singleton.2 (Expr.permits_of_check he)
  | declaration d => exact d.permits_of_check h

/-- After its check a statement is respected. -/
theorem Statement.respects_check {stmt : Statement} {s s' : Checking} {u : Unit}
    (h : stmt.check.run s = .ok u s') (ho : s.environment.outer = []) :
    Program.Respects s'.environment [stmt] := by
  have hgrows := Statement.grows_check h
  have hexpressions : Program.expressions [stmt] = stmt.expressions := List.flatMap_singleton _ _
  refine ⟨?_, ?_⟩
  · rw [hexpressions]
    exact fun e he n hn => (permits_of_check h e he n hn).mono hgrows ho
  · intro d hd id hid
    cases List.mem_singleton.1 hd
    rw [Environment.isMutable?, Environment.get?_defineAll (d.environment_check h),
      if_pos (List.mem_map_of_mem hid)]
    rfl

theorem Program.respects_check {p : Program} {s s' : Checking} {u : Unit}
    (h : p.check.run s = .ok u s') (ho : s.environment.outer = []) :
    p.Respects s'.environment := by
  induction p generalizing s with
  | nil => exact .nil
  | cons stmt p ih =>
    obtain ⟨_, s₁, hs, hp⟩ := run_bind_eq_ok.1 h
    have ho₁ := (Statement.grows_check hs).outer ho
    exact Respects.append (p := [stmt])
      ((Statement.respects_check hs ho).mono (Program.grows_check hp) ho₁) (ih hp ho₁)

namespace Expr

mutual

/-- What an expression writes, a node in it changes. -/
theorem exists_of_write_mem {e : Expr} {x : String} (h : .write x ∈ e.accesses) :
    ∃ n ∈ e.nodes, n.writes ∧ ∃ id, n.subject? = some id ∧ id.name = x := by
  match e with
  | literal value range => cases h
  | ident id => simp [accesses] at h
  | update op leading target range =>
    simp only [accesses, List.mem_cons, reduceCtorEq, false_or, Access.write.injEq,
      List.not_mem_nil, or_false] at h
    exact ⟨_, List.mem_singleton_self _, rfl, target, rfl, h.symm⟩
  | binary op l r range =>
    rw [accesses, List.mem_append] at h
    rcases h with h | h
    · obtain ⟨n, hn, hw⟩ := exists_of_write_mem h
      exact ⟨n, List.mem_cons_of_mem _ (List.mem_append_left _ hn), hw⟩
    · obtain ⟨n, hn, hw⟩ := exists_of_write_mem h
      exact ⟨n, List.mem_cons_of_mem _ (List.mem_append_right _ hn), hw⟩
  | unary op e range =>
    rw [accesses] at h
    obtain ⟨n, hn, hw⟩ := exists_of_write_mem h
    exact ⟨n, List.mem_cons_of_mem _ hn, hw⟩
  | assign op target value range =>
    have hcases : .write x ∈ value.accesses ∨ x = target.name := by
      cases op <;> simpa [accesses] using h
    rcases hcases with h | rfl
    · obtain ⟨n, hn, hw⟩ := exists_of_write_mem h
      exact ⟨n, List.mem_cons_of_mem _ hn, hw⟩
    · exact ⟨_, List.mem_cons_self, rfl, target, rfl, rfl⟩
  | sequence items range =>
    obtain ⟨n, hn, hw⟩ := exists_of_write_mem_accessesAll h
    exact ⟨n, List.mem_cons_of_mem _ hn, hw⟩
  | array items range =>
    obtain ⟨n, hn, hw⟩ := exists_of_write_mem_accessesAll h
    exact ⟨n, List.mem_cons_of_mem _ hn, hw⟩
  | index base position range =>
    rw [accesses, List.mem_append] at h
    rcases h with h | h
    · obtain ⟨n, hn, hw⟩ := exists_of_write_mem h
      exact ⟨n, List.mem_cons_of_mem _ (List.mem_append_left _ hn), hw⟩
    · obtain ⟨n, hn, hw⟩ := exists_of_write_mem h
      exact ⟨n, List.mem_cons_of_mem _ (List.mem_append_right _ hn), hw⟩

theorem exists_of_write_mem_accessesAll {es : List Expr} {x : String}
    (h : .write x ∈ accessesAll es) :
    ∃ n ∈ nodesAll es, n.writes ∧ ∃ id, n.subject? = some id ∧ id.name = x := by
  match es with
  | [] => cases h
  | e :: es =>
    rw [accessesAll, List.mem_append] at h
    rcases h with h | h
    · obtain ⟨n, hn, hw⟩ := exists_of_write_mem h
      exact ⟨n, List.mem_append_left _ hn, hw⟩
    · obtain ⟨n, hn, hw⟩ := exists_of_write_mem_accessesAll h
      exact ⟨n, List.mem_append_right _ hn, hw⟩

end

end Expr

/-- No expression in a program that respects a constant writes it. -/
theorem Program.Respects.write_notMem {env : Environment} {p : Program} (h : p.Respects env)
    {x : String} (hx : env.isMutable? x = some false) :
    ∀ e ∈ p.expressions, .write x ∉ e.accesses := by
  intro e he hw
  obtain ⟨n, hn, hwrites, id, hid, hname⟩ := Expr.exists_of_write_mem hw
  exact h.ne_of_writes hx he hn hwrites hid hname

section Count

variable {x : String}

theorem count_write_flatMap (first : String) (others : List String) :
    (others.flatMap fun y => [Access.read first, .write y]).count (.write x) =
      others.count x := by
  induction others with
  | nil => rfl
  | cons y others ih =>
    rw [List.flatMap_cons, List.count_append, ih, List.count_cons, List.count_cons,
      List.count_cons, List.count_nil]
    simp [Nat.add_comm]

/-- A declaration with an initial value writes each of its names once for every time that it
declares it. -/
theorem Declaration.count_write {d : Declaration} {e : Expr} (hi : d.initializer = some e)
    (he : .write x ∉ e.accesses) :
    (Statement.declaration d).accesses.count (.write x) = (d.names.map Ident.name).count x := by
  rw [Statement.accesses, hi]
  cases d.names.map Ident.name with
  | nil => rfl
  | cons first others =>
    dsimp only
    rw [List.count_append, List.count_eq_zero_of_not_mem he, List.count_cons,
      count_write_flatMap, List.count_cons, Nat.zero_add]
    simp

theorem Statement.count_write_le {stmt : Statement}
    (h : ∀ e ∈ stmt.expressions, .write x ∉ e.accesses) :
    stmt.accesses.count (.write x) ≤ stmt.names.count x := by
  cases stmt with
  | expression e =>
    rw [accesses, List.count_eq_zero_of_not_mem (h e (List.mem_singleton_self e))]
    exact Nat.zero_le _
  | declaration d =>
    cases hi : d.initializer with
    | none =>
      rw [accesses, hi]
      exact Nat.zero_le _
    | some e =>
      refine Nat.le_of_eq (d.count_write hi (h e (List.mem_append_right _ ?_)))
      exact Option.mem_toList.2 hi

/-- A program in which no expression writes a name writes it at most where it is declared. -/
theorem Program.count_write_le {p : Program} (h : ∀ e ∈ p.expressions, .write x ∉ e.accesses) :
    p.accesses.count (.write x) ≤ p.names.count x := by
  induction p with
  | nil => exact Nat.le_refl _
  | cons stmt p ih =>
    rw [expressions, List.flatMap_cons, List.forall_mem_append] at h
    rw [accesses, List.flatMap_cons, names_cons, List.count_append, List.count_append]
    exact Nat.add_le_add (Statement.count_write_le h.1) (ih h.2)

/-- A name that is declared once, with an initial value, is written once if no expression writes
it, and that is where it is declared. -/
theorem Program.count_write_eq_one {p p' : Program} {d : Declaration} {e : Expr}
    (hnames : (names (p ++ .declaration d :: p')).Nodup) (hx : x ∈ d.names.map Ident.name)
    (hi : d.initializer = some e)
    (h : ∀ e ∈ expressions (p ++ .declaration d :: p'), .write x ∉ e.accesses) :
    (Statement.declaration d).accesses.count (.write x) = 1 ∧
      (accesses (p ++ .declaration d :: p')).count (.write x) = 1 := by
  rw [names, List.flatMap_append, List.flatMap_cons] at hnames
  rw [expressions, List.flatMap_append, List.flatMap_cons, List.forall_mem_append,
    List.forall_mem_append] at h
  obtain ⟨hp, hd, hp'⟩ := h
  have hbefore := count_write_le hp
  have hafter := count_write_le hp'
  have hhere := d.count_write hi (hd e (List.mem_append_right _ (Option.mem_toList.2 hi)))
  -- The name is declared once in all, so once here and nowhere else.
  have honce := List.nodup_iff_count_le_one.1 hnames x
  have hpos := List.count_pos_iff.2 hx
  rw [accesses, List.flatMap_append, List.flatMap_cons, List.count_append, List.count_append]
  rw [List.count_append, List.count_append] at honce
  simp only [names, accesses, Statement.names] at hbefore hafter honce hhere ⊢
  omega

end Count

/-- The code stores to the slot of a name as often as the accesses that it performs write the
name. -/
theorem Agree.countP_store {env : Environment} {table : SlotTable} {names : List String}
    (h : Agree env table names) {l : List (Access String)} {code : List Instruction}
    (hp : Performs table l code) {x : String} {slot : Slot} (hs : table.get? x = some slot) :
    code.countP (·.access? = some (.write slot.index)) = l.count (.write x) := by
  have hcount : code.countP (·.access? = some (.write slot.index)) =
      (code.filterMap Instruction.access?).count (.write slot.index) := by
    rw [List.count, List.countP_filterMap]
    refine List.countP_congr fun i _ => ?_
    cases i.access? <;> simp
  rw [hcount]
  have hx : table.Names x slot.index := ⟨slot, hs, Slot.operand_eq (h.index_lt hs)⟩
  rw [Performs] at hp
  generalize code.filterMap Instruction.access? = stores at hp
  induction hp with
  | nil => rfl
  | cons ha _ ih =>
    rw [List.count_cons, List.count_cons, ih]
    cases ha with
    | read _ => rfl
    | write hy => simp [h.names_iff hy hx]

/-- A constant in a source text has an initial value. -/
theorem Program.exists_initializer_of_ofSource {source : String} {p : Program}
    (h : Program.ofSource source = .ok p) {d : Declaration} (hd : .declaration d ∈ p.fold)
    (hm : d.isMutable = false) : ∃ e, d.initializer = some e := by
  obtain ⟨_, d', hd', rfl⟩ := exists_declaration_of_ofSource h hd
  cases hd' with
  | mutable => cases hm
  | constant => exact ⟨_, rfl⟩

namespace Session

/-- The statements of units, one unit after the other. -/
def statements (cs : List Compilation) : Program :=
  cs.flatMap Compilation.program

theorem accesses_eq (cs : List Compilation) : accesses cs = (statements cs).accesses := by
  rw [accesses, statements, Program.accesses, List.flatMap_assoc]
  rfl

theorem declared_eq (cs : List Compilation) : declared cs = (statements cs).names := by
  rw [declared, statements, Program.names, List.flatMap_assoc]
  rfl

/-- After any units, their programs are respected. -/
theorem respects_compileAll (options : Options) (sources : List String) :
    (statements (compileAll { options } sources).1).Respects
      (compileAll { options } sources).2.environment := by
  have h : (compileAll { options } sources).2.environment.outer = [] ∧
      (statements (compileAll { options } sources).1).Respects
        (compileAll { options } sources).2.environment := by
    refine compileAll_induction
      (motive := fun cs s => s.environment.outer = [] ∧ (statements cs).Respects s.environment)
      ⟨rfl, .nil⟩ ?_ sources
    rintro cs s source p c s' ⟨ho, h⟩ _ hp
    obtain ⟨checked, units, st, hc, _, rfl, rfl⟩ := compileProgram_eq_ok hp
    have hgrows := Program.grows_check hc
    refine ⟨hgrows.outer ho, ?_⟩
    rw [statements, List.flatMap_append, List.flatMap_singleton]
    exact (h.mono hgrows ho).append (Program.respects_check hc ho)
  exact h.2

/-- Units keep the slots that names have. -/
theorem get?_compileAll (s : Session) (sources : List String) {x : String} {slot : Slot}
    (h : s.slots.get? x = some slot) : (s.compileAll sources).2.slots.get? x = some slot := by
  refine compileAll_induction (motive := fun _ s => s.slots.get? x = some slot) h ?_ sources
  intro cs s source p c s' hs _ hp
  obtain ⟨_, _, _, _, hl, _, rfl⟩ := compileProgram_eq_ok hp
  exact Program.get?_lower hl x slot hs

theorem compileAll_append (s : Session) (sources sources' : List String) :
    s.compileAll (sources ++ sources') =
      ((s.compileAll sources).1 ++ ((s.compileAll sources).2.compileAll sources').1,
        ((s.compileAll sources).2.compileAll sources').2) := by
  rw [compileAll, List.foldl_append]
  exact foldl_next sources' _ _

/-- Where a unit declares names, its code is that of the statements before, of the declaration and
of the statements after. -/
theorem lower_of_compile {s s' : Session} {source : String} {c : Compilation} {p p' : Program}
    {d : Declaration} (hc : s.compile source = (.ok c, s'))
    (hp : c.program = p ++ .declaration d :: p') :
    (d.isMutable = false → ∃ e, d.initializer = some e) ∧
      ∃ code₁ st₁ code₂ st₂ code₃ st₃,
        (p.lower s.options.constants).run { slots := s.slots } = .ok code₁ st₁ ∧
        (d.lower s.options.constants).run st₁ = .ok code₂ st₂ ∧
        (p'.lower s.options.constants).run st₂ = .ok code₃ st₃ ∧
        c.bytecode.code = code₁ ++ (code₂ ++ code₃) ∧ s'.slots = st₃.slots := by
  rcases compile_cases s source with ⟨_, hf⟩ | ⟨q, _, _, hs, hq, hcompile⟩
  · rw [hf] at hc
    cases hc
  · rw [hcompile] at hc
    cases hc
    obtain ⟨checked, code, st, _, hl, rfl, rfl⟩ := compileProgram_eq_ok hq
    dsimp only at hp
    constructor
    · refine Program.exists_initializer_of_ofSource hs ?_
      rw [hp]
      exact List.mem_append_right _ List.mem_cons_self
    · rw [hp] at hl
      obtain ⟨code₁, st₁, rest, h₁, hrest, rfl⟩ := Program.lower_append_eq_ok.1 hl
      obtain ⟨code₂, st₂, code₃, h₂, h₃, rfl⟩ := Program.lower_cons_eq_ok.1 hrest
      exact ⟨code₁, st₁, code₂, st₂, code₃, st, h₁, h₂, h₃, rfl, rfl⟩

/-- A name that a unit declares as a constant is stored to exactly once by the code of all units,
before and after, and that store is in the code of the declaration. Nothing in any of the
programs, at any depth, evaluated or not, assigns to the name or updates it. -/
theorem constant_stored_once (options : Options) (before after : List String) {source : String}
    {c : Compilation} {s' : Session} {p p' : Program} {d : Declaration} {id : Ident}
    (hc : (compileAll { options } before).2.compile source = (.ok c, s'))
    (hp : c.program = p ++ .declaration d :: p') (hd : d.isMutable = false)
    (hid : id ∈ d.names) :
    ∃ slot code₁ st₁ code₂ st₂ code₃ st₃,
      (p.lower options.constants).run { slots := (compileAll { options } before).2.slots } =
        .ok code₁ st₁ ∧
      (d.lower options.constants).run st₁ = .ok code₂ st₂ ∧
      (p'.lower options.constants).run st₂ = .ok code₃ st₃ ∧
      c.bytecode.code = code₁ ++ (code₂ ++ code₃) ∧
      let (cs, s) := compileAll { options } (before ++ source :: after)
      s.slots.get? id.name = some slot ∧
      code₂.countP (·.access? = some (.write slot.index)) = 1 ∧
      (code cs).countP (·.access? = some (.write slot.index)) = 1 ∧
      ∀ c' ∈ cs, ∀ e ∈ c'.program.expressions, ∀ n ∈ e.nodes, n.writes →
        ∀ target, n.subject? = some target → target.name ≠ id.name := by
  obtain ⟨hinit, code₁, st₁, code₂, st₂, code₃, st₃, h₁, h₂, h₃, hcode, hslots⟩ :=
    lower_of_compile hc hp
  obtain ⟨e, he⟩ := hinit hd
  rw [options_compileAll] at h₁ h₂ h₃
  have htraced := traced_compileAll options (before ++ source :: after)
  have hrespects := respects_compileAll options (before ++ source :: after)
  have hall : compileAll { options } (before ++ source :: after) =
      ((compileAll { options } before).1 ++ c :: (s'.compileAll after).1,
        (s'.compileAll after).2) := by
    rw [compileAll_append, compileAll_cons_of_ok hc]
  have hkept : ∀ x slot, st₂.slots.get? x = some slot →
      (s'.compileAll after).2.slots.get? x = some slot := by
    intro x slot hx
    refine get?_compileAll s' after ?_
    rw [hslots]
    exact Program.get?_lower h₃ x slot hx
  have hstatements :
      statements ((compileAll { options } before).1 ++ c :: (s'.compileAll after).1) =
        (statements (compileAll { options } before).1 ++ p) ++
          .declaration d :: (p' ++ statements (s'.compileAll after).1) := by
    simp only [statements, List.flatMap_append, List.flatMap_cons, hp, List.append_assoc,
      List.cons_append]
  rw [hall] at htraced hrespects ⊢
  have hconst := hrespects.declares d (by rw [hstatements]; simp) id hid
  rw [hd] at hconst
  obtain ⟨v, hv, _⟩ := Option.map_eq_some_iff.1 hconst
  obtain ⟨i, _, hslot⟩ := htraced.agree.bound id.name v hv
  obtain ⟨hhere, honce⟩ := Program.count_write_eq_one (x := id.name)
    (by rw [← hstatements, ← declared_eq]; exact htraced.agree.nodup)
    (List.mem_map_of_mem hid) he (by rw [← hstatements]; exact hrespects.write_notMem hconst)
  rw [← hstatements, ← accesses_eq] at honce
  refine ⟨_, code₁, st₁, code₂, st₂, code₃, st₃, h₁, h₂, h₃, hcode, hslot, ?_, ?_, ?_⟩
  · have hperforms : Performs st₂.slots (Statement.declaration d).accesses code₂ :=
      Statement.performs_lower h₂
    rw [htraced.agree.countP_store (hperforms.mono hkept) hslot, hhere]
  · rw [htraced.agree.countP_store htraced.performs hslot, honce]
  · intro c' hc' e' he' n hn hw target htarget
    refine hrespects.ne_of_writes hconst ?_ hn hw htarget
    rw [statements, Program.expressions, List.flatMap_assoc]
    exact List.mem_flatMap.2 ⟨c', hc', he'⟩

/-- A unit that assigns to the constant `k` fails, and one that reads it does not store to it. -/
theorem constant_stored_once_among_units :
    ∃ c s' d slot,
      (compileAll {} ["mut a: int;"]).2.compile "a = 2; const j, k: int = a;" = (.ok c, s') ∧
      c.program.getLast? = some (.declaration d) ∧ d.isMutable = false ∧
      d.names.map Ident.name = ["j", "k"] ∧
      let (cs, s) := compileAll {}
        (["mut a: int;"] ++ "a = 2; const j, k: int = a;" :: ["k = 3;", "a = k;"])
      cs.length = 3 ∧ s.slots.get? "k" = some slot ∧
      (code cs).countP (·.access? = some (.write slot.index)) = 1 := by
  have hc : ((compileAll {} ["mut a: int;"]).2.compile "a = 2; const j, k: int = a;").1 =
      .ok ⟨[.expression (.assign .plain ⟨"a", ⟨1, 0, 1⟩⟩ (.literal (.integer 2) ⟨1, 4, 5⟩)
          ⟨1, 0, 5⟩),
        .declaration ⟨false, .integer .i32, [⟨"j", ⟨1, 13, 14⟩⟩, ⟨"k", ⟨1, 16, 17⟩⟩],
          some (.ident ⟨"a", ⟨1, 25, 26⟩⟩), ⟨1, 7, 27⟩⟩],
        ⟨{}, [⟨.loadImmediate8, [2], none⟩, ⟨.store .int, [0, 0], some "a"⟩,
          ⟨.load .int, [0, 0], some "a"⟩, ⟨.store .int, [1, 0], some "j"⟩,
          ⟨.load .int, [1, 0], some "j"⟩, ⟨.store .int, [2, 0], some "k"⟩]⟩, []⟩ := by
    decide +kernel
  have hlength : (compileAll {}
      (["mut a: int;"] ++ "a = 2; const j, k: int = a;" :: ["k = 3;", "a = k;"])).1.length = 3 := by
    decide +kernel
  obtain ⟨slot, _, _, _, _, _, _, _, _, _, _, hslot, _, hcount, _⟩ :=
    constant_stored_once {} ["mut a: int;"] ["k = 3;", "a = k;"] (p := [_]) (Prod.ext hc rfl) rfl
      rfl (List.mem_cons_of_mem _ (List.mem_singleton_self _))
  exact ⟨_, _, _, slot, Prod.ext hc rfl, rfl, rfl, rfl, hlength, hslot, hcount⟩

end Session

end StackCompiler
