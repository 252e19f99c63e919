import StackCompiler.Environment

/-!
# Names in an environment

What a name stands for after another name has been bound (`Environment.get?_define`) and after
names have been marked as initialized (`Environment.get?_markAll`). Marking changes nothing but
the mark, in the innermost scope that has the name.

`Environment.map` gives the variables other names, different ones for different names, and changes
them otherwise. Looking up, marking and binding then go through to the changed environment.
-/

namespace StackCompiler

/-- The variable, counted as initialized if `b` holds. -/
def Variable.initializedIf (b : Bool) (v : Variable) : Variable :=
  { v with isInitialized := v.isInitialized || b }

@[simp] theorem Variable.initializedIf_false (v : Variable) : v.initializedIf false = v := by
  simp [initializedIf]

theorem Scope.get?_mark (s : Scope) (x y : String) :
    (s.mark x).get? y = (s.get? y).map (Variable.initializedIf (y = x)) := by
  obtain ⟨vars, procedures⟩ := s
  simp only [Scope.mark, Scope.get?]
  induction vars with
  | nil => rfl
  | cons p vars ih =>
    obtain ⟨n, v⟩ := p
    by_cases hn : n = x
    · subst hn
      by_cases hy : y = n
      · subst hy
        simp [Variable.initializedIf]
      · simp [List.lookup_cons, beq_false_of_ne hy, ih]
    · by_cases hy : y = n
      · subst hy
        simp [hn]
      · simp [List.lookup_cons, hn, beq_false_of_ne hy, ih]

namespace Environment

@[simp] theorem scopes_mark (env : Environment) (x : String) :
    (env.mark x).scopes = markFirst x env.scopes := by
  unfold mark
  rw [scopes, scopes, markFirst]
  split <;> rfl

theorem findSome?_markFirst (x y : String) (scopes : List Scope) :
    (markFirst x scopes).findSome? (·.get? y) =
      (scopes.findSome? (·.get? y)).map (Variable.initializedIf (y = x)) := by
  induction scopes with
  | nil => rfl
  | cons s scopes ih =>
    rw [markFirst]
    -- Marking stops at the first scope that has `x`, and looking up `y` at the first that has `y`.
    split
    · rename_i hs
      rw [List.findSome?_cons, List.findSome?_cons, Scope.get?_mark]
      cases hy : s.get? y with
      | some v => rfl
      | none =>
        have hne : y ≠ x := by
          rintro rfl
          rw [hy] at hs
          cases hs
        have hid : (fun v : Variable => v.initializedIf (y = x)) = id := by
          funext v
          simp [hne]
        simp only [Option.map_none, hid, Option.map_id, id]
    · rw [List.findSome?_cons, List.findSome?_cons]
      cases hy : s.get? y with
      | some v =>
        have hne : y ≠ x := by
          rintro rfl
          simp_all
        simp [hne]
      | none => exact ih

/-- Marking a name changes nothing but the mark of what the name stands for. -/
theorem get?_mark (env : Environment) (x y : String) :
    (env.mark x).get? y = (env.get? y).map (Variable.initializedIf (y = x)) := by
  rw [get?, scopes_mark, findSome?_markFirst]
  rfl

/-- All the names are marked. -/
def markAll (env : Environment) (names : List String) : Environment :=
  names.foldl mark env

@[simp] theorem markAll_nil (env : Environment) : env.markAll [] = env := rfl

@[simp] theorem markAll_cons (env : Environment) (x : String) (names : List String) :
    env.markAll (x :: names) = (env.mark x).markAll names := rfl

@[simp] theorem markAll_append (env : Environment) (names names' : List String) :
    env.markAll (names ++ names') = (env.markAll names).markAll names' :=
  List.foldl_append

theorem get?_markAll (env : Environment) (names : List String) (y : String) :
    (env.markAll names).get? y =
      (env.get? y).map (Variable.initializedIf (names.contains y)) := by
  induction names generalizing env with
  | nil =>
    rw [markAll_nil]
    cases env.get? y <;> simp
  | cons x names ih =>
    rw [markAll_cons, ih, get?_mark]
    cases env.get? y with
    | none => rfl
    | some v =>
      by_cases hy : y = x
      · simp [hy, Variable.initializedIf]
      · simp [hy]

theorem isSome_get?_markAll (env : Environment) (names : List String) (y : String) :
    ((env.markAll names).get? y).isSome = (env.get? y).isSome := by
  rw [get?_markAll, Option.isSome_map]

/-- Whether the variable that a name stands for may be changed. -/
def isMutable? (env : Environment) (x : String) : Option Bool :=
  (env.get? x).map Variable.isMutable

@[simp] theorem isMutable?_markAll (env : Environment) (names : List String) (x : String) :
    (env.markAll names).isMutable? x = env.isMutable? x := by
  rw [isMutable?, isMutable?, get?_markAll, Option.map_map]
  rfl

@[simp] theorem outer_mark_eq_nil (env : Environment) (x : String) :
    (env.mark x).outer = [] ↔ env.outer = [] := by
  unfold mark
  split
  · rfl
  · cases h : env.outer with
    | nil => simp [markFirst]
    | cons s rest => simp only [markFirst]; split <;> simp

@[simp] theorem outer_markAll_eq_nil (env : Environment) (names : List String) :
    (env.markAll names).outer = [] ↔ env.outer = [] := by
  induction names generalizing env with
  | nil => rfl
  | cons x names ih => rw [markAll_cons, ih, outer_mark_eq_nil]

/-- A name that the innermost scope has is rejected and changes nothing; any other is added to that
scope. -/
theorem define_cases (env : Environment) (x : String) (v : Variable) :
    (env.inner.get? x).isSome ∧ env.define x v = (.error v, env) ∨
      env.inner.get? x = none ∧
        env.define x v = (.ok (), { env with inner.vars := (x, v) :: env.inner.vars }) := by
  rw [define]
  split
  · rename_i h
    exact .inl ⟨h, rfl⟩
  · rename_i h
    exact .inr ⟨Option.not_isSome_iff_eq_none.1 h, rfl⟩

theorem define_eq_ok {env env' : Environment} {x : String} {v : Variable} :
    env.define x v = (.ok (), env') ↔
      env.inner.get? x = none ∧ env' = { env with inner.vars := (x, v) :: env.inner.vars } := by
  rcases env.define_cases x v with ⟨hx, h⟩ | ⟨hx, h⟩
  · rw [Option.isSome_iff_ne_none] at hx
    simp [h, hx]
  · simp [h, hx, eq_comm]

/-- A name is bound only where its scope does not have it, and then stands for what it was bound
to; all other names keep their meaning. -/
theorem get?_define {env env' : Environment} {x : String} {v : Variable}
    (h : env.define x v = (.ok (), env')) (y : String) :
    env'.get? y = if y = x then some v else env.get? y := by
  obtain ⟨-, rfl⟩ := define_eq_ok.1 h
  by_cases hy : y = x
  · simp [get?, scopes, Scope.get?, hy]
  · simp only [get?, scopes, Scope.get?, List.findSome?_cons, List.lookup_cons,
      beq_false_of_ne hy, if_neg hy]

theorem outer_define {env env' : Environment} {x : String} {v : Variable}
    (h : env.define x v = (.ok (), env')) : env'.outer = env.outer := by
  obtain ⟨-, rfl⟩ := define_eq_ok.1 h
  rfl

/-- With a single scope, names stand for what they stand for in it. -/
theorem get?_of_outer_eq_nil {env : Environment} (ho : env.outer = []) (x : String) :
    env.get? x = env.inner.get? x := by
  rw [get?, scopes, ho, List.findSome?_singleton]

/-- With a single scope, a name can be bound only if it stands for nothing yet. -/
theorem get?_eq_none_of_define {env env' : Environment} {x : String} {v : Variable}
    (ho : env.outer = []) (h : env.define x v = (.ok (), env')) : env.get? x = none := by
  rw [get?_of_outer_eq_nil ho]
  exact (define_eq_ok.1 h).1

/-- All the names are bound, one after the other, to the same variable, and none is rejected. -/
def defineAll? (env : Environment) : (names : List String) → Variable → Option Environment
  | [], _ => some env
  | x :: names, v =>
    match env.define x v with
    | (.ok _, env') => env'.defineAll? names v
    | (.error _, _) => none

theorem defineAll?_cons_eq_some {env env' : Environment} {x : String} {names : List String}
    {v : Variable} :
    env.defineAll? (x :: names) v = some env' ↔
      ∃ env₁, env.define x v = (.ok (), env₁) ∧ env₁.defineAll? names v = some env' := by
  rcases env.define_cases x v with ⟨-, h⟩ | ⟨-, h⟩ <;> simp [defineAll?, h]

theorem get?_defineAll {env env' : Environment} {names : List String} {v : Variable}
    (h : env.defineAll? names v = some env') (y : String) :
    env'.get? y = if y ∈ names then some v else env.get? y := by
  induction names generalizing env with
  | nil =>
    cases h
    simp
  | cons x names ih =>
    obtain ⟨env₁, hx, hnames⟩ := defineAll?_cons_eq_some.1 h
    rw [ih hnames, get?_define hx]
    by_cases hy : y = x <;> simp [hy]

theorem outer_defineAll {env env' : Environment} {names : List String} {v : Variable}
    (h : env.defineAll? names v = some env') : env'.outer = env.outer := by
  induction names generalizing env with
  | nil =>
    cases h
    rfl
  | cons x names ih =>
    obtain ⟨env₁, hx, hnames⟩ := defineAll?_cons_eq_some.1 h
    rw [ih hnames, outer_define hx]

/-- With a single scope, names can be bound together only if they differ and stand for nothing
yet. -/
theorem nodup_of_defineAll {env env' : Environment} {names : List String} {v : Variable}
    (ho : env.outer = []) (h : env.defineAll? names v = some env') :
    names.Nodup ∧ ∀ x ∈ names, env.get? x = none := by
  induction names generalizing env with
  | nil => exact ⟨List.nodup_nil, List.forall_mem_nil _⟩
  | cons x names ih =>
    obtain ⟨env₁, hx, hnames⟩ := defineAll?_cons_eq_some.1 h
    obtain ⟨hnodup, hnone⟩ := ih ((outer_define hx).trans ho) hnames
    have hne : ∀ y ∈ names, y ≠ x ∧ env.get? y = none := by
      intro y hy
      have hy' := hnone y hy
      rw [get?_define hx] at hy'
      split at hy'
      · cases hy'
      · rename_i hyx
        exact ⟨hyx, hy'⟩
    refine ⟨List.nodup_cons.2 ⟨fun hmem => (hne x hmem).1 rfl, hnodup⟩, ?_⟩
    exact List.forall_mem_cons.2 ⟨get?_eq_none_of_define ho hx, fun y hy => (hne y hy).2⟩

/-- With a single scope, what stands for something keeps it when other names are bound. -/
theorem get?_defineAll_of_some {env env' : Environment} {names : List String} {v w : Variable}
    {y : String} (ho : env.outer = []) (h : env.defineAll? names v = some env')
    (hy : env.get? y = some w) : env'.get? y = some w := by
  have hmem : y ∉ names := by
    intro hmem
    rw [(nodup_of_defineAll ho h).2 y hmem] at hy
    cases hy
  rw [get?_defineAll h, if_neg hmem, hy]

end Environment

section Map

variable (ρ : String → String) (g : Variable → Variable)
  (h : List (String × Procedure) → List (String × Procedure))

/-- The scope with other names for its variables, which are changed by `g`, and with its procedures
changed by `h`. -/
def Scope.map (s : Scope) : Scope :=
  ⟨s.vars.map fun p => (ρ p.1, g p.2), h s.procedures⟩

/-- The environment with all its scopes changed. -/
def Environment.map (env : Environment) : Environment :=
  ⟨env.inner.map ρ g h, env.outer.map (Scope.map ρ g h)⟩

variable {ρ g h} (hρ : Function.Injective ρ)
include hρ

theorem Scope.get?_map (s : Scope) (x : String) :
    (s.map ρ g h).get? (ρ x) = (s.get? x).map g := by
  obtain ⟨vars, procedures⟩ := s
  simp only [map, get?]
  induction vars with
  | nil => rfl
  | cons p vars ih =>
    rw [List.map_cons, List.lookup_cons, List.lookup_cons, ih]
    by_cases hx : x = p.1
    · simp [hx]
    · rw [beq_false_of_ne hx, beq_false_of_ne (fun heq => hx (hρ heq))]

theorem Scope.isSome_get?_map (s : Scope) (x : String) :
    ((s.map ρ g h).get? (ρ x)).isSome = (s.get? x).isSome := by
  rw [get?_map hρ, Option.isSome_map]

theorem Environment.get?_map (env : Environment) (x : String) :
    (env.map ρ g h).get? (ρ x) = (env.get? x).map g := by
  have hscopes : (env.map ρ g h).scopes = env.scopes.map (Scope.map ρ g h) := rfl
  rw [get?, get?, hscopes, List.findSome?_map, List.map_findSome?]
  congr 1
  funext s
  exact s.get?_map hρ x

theorem Environment.define_map (env : Environment) (x : String) (v : Variable) :
    (env.map ρ g h).define (ρ x) (g v) =
      ((env.define x v).1.mapError g, (env.define x v).2.map ρ g h) := by
  have hinner : ((env.map ρ g h).inner.get? (ρ x)).isSome = (env.inner.get? x).isSome :=
    env.inner.isSome_get?_map hρ x
  rw [define, define, hinner]
  split <;> rfl

variable (hg : ∀ v, g { v with isInitialized := true } = { g v with isInitialized := true })
include hg

theorem Scope.map_mark (s : Scope) (x : String) :
    (s.mark x).map ρ g h = (s.map ρ g h).mark (ρ x) := by
  simp only [map, mark, List.map_map]
  congr 2
  funext p
  dsimp only [Function.comp_apply]
  by_cases hx : p.1 = x
  · rw [if_pos hx, if_pos (congrArg ρ hx), hg]
  · rw [if_neg hx, if_neg (fun heq => hx (hρ heq))]

theorem Environment.map_mark (env : Environment) (x : String) :
    (env.mark x).map ρ g h = (env.map ρ g h).mark (ρ x) := by
  have hfirst : ∀ scopes : List Scope, (markFirst x scopes).map (Scope.map ρ g h) =
      markFirst (ρ x) (scopes.map (Scope.map ρ g h)) := by
    intro scopes
    induction scopes with
    | nil => rfl
    | cons s scopes ih =>
      rw [List.map_cons, markFirst, markFirst, s.isSome_get?_map hρ]
      split
      · rw [List.map_cons, s.map_mark hρ hg]
      · rw [List.map_cons, ih]
  have hinner : ((env.map ρ g h).inner.get? (ρ x)).isSome = (env.inner.get? x).isSome :=
    env.inner.isSome_get?_map hρ x
  rw [mark, mark, hinner]
  split
  · rw [map, map, env.inner.map_mark hρ hg]
  · rw [map, map, hfirst]

end Map

end StackCompiler
