import StackCompiler.Proofs.Accesses

/-!
# Initialized before use

A check counts a name as initialized once it has been assigned to. `Carries` says how far that
can be relied on: every read is of a name that is initialized at first or written before, and
whatever is initialized in the end has been initialized at first or written since. This holds of
a checked expression (`Expr.carries_check`). The lengths in a declared type are checked but never
evaluated, and an assignment in one counts all the same; the names assigned to there are the
exceptions in what holds of statements, programs and sessions.

So in the code of a session loads follow stores exactly if names are written before they are
read, and only a name that a length assigns to can be read too early
(`Session.loadsFollowStores_iff`). That does happen (`Session.not_loadsFollowStores_compileAll`).
-/

namespace StackCompiler

/-- The name stands for an initialized variable. -/
def Environment.IsInitialized (env : Environment) (x : String) : Prop :=
  ∃ v, env.get? x = some v ∧ v.isInitialized

/-- Marking makes those names initialized that stand for something. -/
theorem Environment.isInitialized_markAll_iff {env : Environment} {names : List String}
    {x : String} : (env.markAll names).IsInitialized x ↔
      env.IsInitialized x ∨ x ∈ names ∧ (env.get? x).isSome := by
  rw [IsInitialized, IsInitialized, get?_markAll]
  cases env.get? x <;> simp [Variable.initializedIf]

theorem Environment.IsInitialized.of_markAll {env : Environment} {names : List String} {x : String}
    (h : (env.markAll names).IsInitialized x) : env.IsInitialized x ∨ x ∈ names :=
  (isInitialized_markAll_iff.1 h).imp_right And.left

theorem Environment.IsInitialized.of_defineAll {env env' : Environment} {names : List String}
    {v : Variable} {x : String} (hd : env.defineAll? names v = some env')
    (h : env'.IsInitialized x) : env.IsInitialized x ∨ x ∈ names ∧ v.isInitialized := by
  obtain ⟨w, hw, hi⟩ := h
  rw [get?_defineAll hd] at hw
  split at hw
  · rename_i hx
    cases hw
    exact .inr ⟨hx, hi⟩
  · exact .inl ⟨w, hw, hi⟩

/-- With a single scope, binding names leaves the others as initialized as they are. -/
theorem Environment.isInitialized_defineAll_iff {env env' : Environment} {names : List String}
    {v : Variable} (ho : env.outer = []) (h : env.defineAll? names v = some env') {x : String} :
    env'.IsInitialized x ↔ env.IsInitialized x ∨ x ∈ names ∧ v.isInitialized := by
  constructor
  · exact IsInitialized.of_defineAll h
  · rintro (⟨w, hw, hi⟩ | ⟨hx, hi⟩)
    · exact ⟨w, get?_defineAll_of_some ho h hw, hi⟩
    · exact ⟨v, by rw [get?_defineAll h, if_pos hx], hi⟩

/-- The accesses lead from one environment to another. The names in `excused` count as
initialized without having been written. -/
structure Carries (excused : List String) (env : Environment) (l : List (Access String))
    (env' : Environment) : Prop where
  covered : Covered (fun x => env.IsInitialized x ∨ x ∈ excused) l
  initialized : ∀ x, env'.IsInitialized x → env.IsInitialized x ∨ x ∈ excused ∨ .write x ∈ l

namespace Carries

variable {excused excused' : List String} {env env₁ env' : Environment}
  {l l' : List (Access String)}

theorem append (h : Carries excused env l env₁) (h' : Carries excused' env₁ l' env') :
    Carries (excused ++ excused') env (l ++ l') env' where
  covered := by
    refine covered_append.2 ⟨h.covered.mono ?_, h'.covered.mono ?_⟩
    · rintro x (hx | hx)
      · exact .inl hx
      · exact .inr (List.mem_append_left _ hx)
    · rintro x (hx | hx)
      · rcases h.initialized x hx with hx | hx | hx
        · exact .inl (.inl hx)
        · exact .inl (.inr (List.mem_append_left _ hx))
        · exact .inr hx
      · exact .inl (.inr (List.mem_append_right _ hx))
  initialized x hx := by
    rcases h'.initialized x hx with hx | hx | hx
    · rcases h.initialized x hx with hx | hx | hx
      · exact .inl hx
      · exact .inr (.inl (List.mem_append_left _ hx))
      · exact .inr (.inr (List.mem_append_left _ hx))
    · exact .inr (.inl (List.mem_append_right _ hx))
    · exact .inr (.inr (List.mem_append_right _ hx))

theorem nil : Carries [] env [] env :=
  ⟨trivial, fun _ => .inl⟩

theorem read {x : String} {v : Variable} (hv : env.get? x = some v) (hi : v.isInitialized) :
    Carries [] env [.read x] env :=
  ⟨⟨.inl ⟨v, hv, hi⟩, trivial⟩, fun _ => .inl⟩

theorem write (x : String) : Carries [] env [.write x] (env.mark x) where
  covered := trivial
  initialized y hy := by
    have hy : env.IsInitialized y ∨ y ∈ [x] := Environment.IsInitialized.of_markAll hy
    rcases hy with hy | hy
    · exact .inl hy
    · rw [List.mem_singleton] at hy
      exact .inr (.inr (by rw [hy]; exact List.mem_singleton_self _))

theorem rewrite (x : String) : Carries [] env [.write x] env :=
  ⟨trivial, fun _ => .inl⟩

/-- Names that are marked without being written are excused. -/
theorem markAll (names : List String) : Carries names env [] (env.markAll names) where
  covered := trivial
  initialized x hx := by
    rcases hx.of_markAll with hx | hx
    · exact .inl hx
    · exact .inr (.inl hx)

end Carries

namespace Expr

mutual

/-- A check counts as initialized what the expression writes, and lets it read nothing else. -/
theorem carries_check {e : Expr} {s s' : Checking} {t : Ty} (h : e.check.run s = .ok t s') :
    Carries [] s.environment e.accesses s'.environment := by
  cases e with
  | literal value range =>
    rw [Literal.environment_check h]
    exact .nil
  | ident id =>
    obtain ⟨v, hv, hi, _, rfl⟩ := check_ident_eq_ok.1 h
    exact .read hv hi
  | update op leading target range =>
    obtain ⟨v, hv, _, hi, _, _, rfl⟩ := check_update_eq_ok.1 h
    exact (Carries.read hv hi).append (.rewrite target.name)
  | binary op l r range =>
    obtain ⟨_, s₁, _, hl, hr, _⟩ := check_binary_eq_ok.1 h
    exact (carries_check hl).append (carries_check hr)
  | unary op e range =>
    obtain ⟨_, he, _⟩ := check_unary_eq_ok.1 h
    rw [accesses]
    exact carries_check he
  | assign op target value range =>
    obtain ⟨v, _, s₁, hv, _, hvalue, hsuits, _, rfl⟩ := check_assign_eq_ok.1 h
    have hcarries := carries_check hvalue
    cases op with
    | plain =>
      rw [accesses]
      exact hcarries.append (.write target.name)
    | compound op =>
      rw [accesses]
      exact ((Carries.read hv hsuits.1).append hcarries).append (.write target.name)
  | sequence items range =>
    obtain ⟨_, hi, _⟩ := check_sequence_eq_ok.1 h
    exact carries_checkAll hi
  | array items range =>
    obtain ⟨_, hi, _⟩ := check_array_eq_ok.1 h
    exact carries_checkAll hi
  | index base position range =>
    obtain ⟨_, s₁, _, hb, hp, _⟩ := check_index_eq_ok.1 h
    exact (carries_check hb).append (carries_check hp)

theorem carries_checkAll {es : List Expr} {s s' : Checking} {ts : List Ty}
    (h : (checkAll es).run s = .ok ts s') :
    Carries [] s.environment (accessesAll es) s'.environment := by
  cases es with
  | nil =>
    cases h
    exact .nil
  | cons e es =>
    obtain ⟨_, s₁, _, he, hes, _⟩ := checkAll_cons_eq_ok.1 h
    exact (carries_check he).append (carries_checkAll hes)

end

end Expr

/-- Once a name is known it can be read for each of the others. -/
theorem covered_flatMap {known : String → Prop} {first : String} (h : known first)
    (others : List String) :
    Covered known (others.flatMap fun x => [.read first, .write x]) := by
  induction others generalizing known with
  | nil => trivial
  | cons x others ih => exact ⟨h, ih (.inl h)⟩

/-- Names that share an initial value are written, all but the first by reading the first. -/
theorem Carries.defineAll {env env' : Environment} {first : String} {others : List String}
    {v : Variable} (hd : env.defineAll? (first :: others) v = some env') :
    Carries [] env (.write first :: others.flatMap fun x => [.read first, .write x]) env' where
  covered := covered_flatMap (.inr rfl) others
  initialized x hx := by
    rcases Environment.IsInitialized.of_defineAll hd hx with hx | ⟨hx, _⟩
    · exact .inl hx
    · refine .inr (.inr ?_)
      rcases List.mem_cons.1 hx with rfl | hx
      · exact List.mem_cons_self
      · exact List.mem_cons_of_mem _ (List.mem_flatMap.2 ⟨x, hx, by simp⟩)

/-- A declaration carries its environment, apart from the names that its lengths assign to. -/
theorem Declaration.carries_check {d : Declaration} {s s' : Checking} {u : Unit}
    (h : d.check.run s = .ok u s') (hn : d.names ≠ []) :
    Carries (Expr.targetsAll d.ty.lengths) s.environment (Statement.declaration d).accesses
      s'.environment := by
  obtain ⟨s₁, s₂, hl, he, hnone, hd⟩ := check_eq_ok.1 h
  have hd := Check.defineAll_of_run_define hd
  have hlengths : Carries (Expr.targetsAll d.ty.lengths) s.environment [] s₁.environment := by
    rw [Expr.environment_checkLengths hl]
    exact .markAll _
  -- Only the lengths need an excuse: they mark names without any access.
  rw [← List.append_nil (Expr.targetsAll _), ← List.nil_append (Statement.accesses _)]
  refine hlengths.append ?_
  cases hi : d.initializer with
  | none =>
    rw [hnone hi] at hd
    simp only [Statement.accesses, hi]
    refine ⟨trivial, fun x hx => ?_⟩
    rcases Environment.IsInitialized.of_defineAll hd hx with hx | ⟨_, hv⟩
    · exact .inl hx
    · rw [binding, hi] at hv
      cases hv
  | some e =>
    obtain ⟨t, he, _⟩ := he e hi
    cases hnames : d.names with
    | nil => exact absurd hnames hn
    | cons id ids =>
      rw [hnames] at hd
      simp only [Statement.accesses, hi, hnames]
      exact (Expr.carries_check he).append (.defineAll hd)

theorem Statement.carries_check {stmt : Statement} {s s' : Checking} {u : Unit}
    (h : stmt.check.run s = .ok u s') (hn : ∀ d, stmt = .declaration d → d.names ≠ []) :
    Carries (Expr.targetsAll stmt.lengths) s.environment stmt.accesses s'.environment := by
  cases stmt with
  | expression e =>
    obtain ⟨t, s₁, he, hs⟩ := run_bind_eq_ok.1 h
    cases hs
    exact Expr.carries_check he
  | declaration d => exact Declaration.carries_check h (hn d rfl)

/-- The lengths in the declared types of a program. -/
def Program.lengths (p : Program) : List Expr :=
  p.flatMap Statement.lengths

theorem Program.carries_check {p : Program} {s s' : Checking} {u : Unit}
    (h : p.check.run s = .ok u s') (hn : ∀ d, .declaration d ∈ p → d.names ≠ []) :
    Carries (Expr.targetsAll p.lengths) s.environment p.accesses s'.environment := by
  induction p generalizing s with
  | nil =>
    cases h
    exact .nil
  | cons stmt p ih =>
    obtain ⟨_, s₁, hs, hp⟩ := run_bind_eq_ok.1 h
    rw [lengths, List.flatMap_cons, Expr.targetsAll_append, accesses, List.flatMap_cons]
    exact (Statement.carries_check hs fun d hd => hn d (hd ▸ List.mem_cons_self)).append
      (ih hp fun d hd => hn d (List.mem_cons_of_mem _ hd))

/-- Every load follows a store to the same slot. -/
def LoadsFollowStores (code : List Instruction) : Prop :=
  ∀ before i after k, code = before ++ i :: after → i.access? = some (.read k) →
    ∃ j ∈ before, j.access? = some (.write k)

/-- Every read of a name follows a write of it. -/
def ReadsFollowWrites (l : List (Access String)) : Prop :=
  ∀ before x after, l = before ++ .read x :: after → .write x ∈ before

/-- Where the loads are covered, each is of a known slot or follows a store to it. -/
theorem Covered.store_before_load {known : Nat → Prop} {before after : List Instruction}
    {i : Instruction} {k : Nat}
    (h : Covered known ((before ++ i :: after).filterMap Instruction.access?))
    (hi : i.access? = some (.read k)) :
    known k ∨ ∃ j ∈ before, j.access? = some (.write k) := by
  rw [List.filterMap_append, List.filterMap_cons_some hi] at h
  rcases (covered_append.1 h).2.1 with hk | hk
  · exact .inl hk
  · exact .inr (List.mem_filterMap.1 hk)

theorem loadsFollowStores_iff_covered (code : List Instruction) :
    LoadsFollowStores code ↔ Covered (fun _ => False) (code.filterMap Instruction.access?) := by
  constructor
  · intro h
    refine covered_iff.2 fun before k after hl => .inr ?_
    -- Before the load stand the instructions of the accesses before it, and others without access.
    obtain ⟨code₁, code₂, rfl, hbefore, hrest⟩ := List.filterMap_eq_append_iff.1 hl
    obtain ⟨quiet, i, rest, rfl, hquiet, hi, _⟩ := List.filterMap_eq_cons_iff.1 hrest
    obtain ⟨j, hj, hw⟩ := h (code₁ ++ quiet) i rest k (by rw [List.append_assoc]) hi
    rcases List.mem_append.1 hj with hj | hj
    · rw [← hbefore]
      exact List.mem_filterMap.2 ⟨j, hj, hw⟩
    · rw [hquiet j hj] at hw
      cases hw
  · rintro h before i after k rfl hi
    exact (h.store_before_load hi).resolve_left id

theorem readsFollowWrites_iff_covered (l : List (Access String)) :
    ReadsFollowWrites l ↔ Covered (fun _ => False) l := by
  simp only [covered_iff, ReadsFollowWrites, false_or]

namespace Session

/-- The code of units, one after the other. -/
def code (cs : List Compilation) : List Instruction :=
  cs.flatMap fun c => c.bytecode.code

/-- The variables that units read and write, one unit after the other. -/
def accesses (cs : List Compilation) : List (Access String) :=
  cs.flatMap fun c => c.program.accesses

/-- The names that the lengths in declared types assign to. -/
def lengthTargets (cs : List Compilation) : List String :=
  cs.flatMap fun c => Expr.targetsAll c.program.lengths

/-- What holds of the units that succeeded and the session after them. -/
structure Traced (cs : List Compilation) (s : Session) : Prop where
  agree : Agree s.environment s.slots (declared cs)
  performs : Performs s.slots (accesses cs) (code cs)
  carries : Carries (lengthTargets cs) {} (accesses cs) s.environment

theorem Traced.compileProgram {cs : List Compilation} {s s' : Session} {c : Compilation}
    {source : String} {p : Program} (h : Traced cs s) (hs : Program.ofSource source = .ok p)
    (hp : s.compileProgram p.fold = .ok (c, s')) : Traced (cs ++ [c]) s' := by
  have hagree := agree_compileProgram h.agree hp
  obtain ⟨checked, units, st, hc, hl, rfl, rfl⟩ := compileProgram_eq_ok hp
  have hcarries := Program.carries_check hc fun d hd => Program.names_ne_nil_of_ofSource hs hd
  refine ⟨?_, ?_, ?_⟩
  · rw [declared, List.flatMap_append, List.flatMap_singleton]
    exact hagree
  · rw [accesses, code, List.flatMap_append, List.flatMap_append, List.flatMap_singleton,
      List.flatMap_singleton]
    exact (h.performs.mono (Program.get?_lower hl)).append (Program.performs_lower hl)
  · rw [lengthTargets, accesses, List.flatMap_append, List.flatMap_append,
      List.flatMap_singleton, List.flatMap_singleton]
    exact h.carries.append hcarries

theorem traced_compileAll (options : Options) (sources : List String) :
    Traced (compileAll { options } sources).1 (compileAll { options } sources).2 := by
  refine compileAll_induction (motive := Traced) ?_ ?_ sources
  · exact ⟨Agree.empty, .nil (List.forall_mem_nil _), Carries.nil⟩
  · intro cs s source p c s' h hs hp
    exact h.compileProgram hs hp

/-- The accesses of the code are covered exactly if those of the programs are. -/
theorem Traced.covered_iff {cs : List Compilation} {s : Session} (h : Traced cs s)
    (names : List String) :
    Covered (· ∈ names) (accesses cs) ↔
      Covered (fun k => ∃ x ∈ names, s.slots.Names x k)
        ((code cs).filterMap Instruction.access?) := by
  refine covered_congr h.performs (fun _ _ _ _ hx hx' => h.agree.names_iff hx hx') ?_
  intro x k hx
  constructor
  · intro hmem
    exact ⟨x, hmem, hx⟩
  · rintro ⟨x', hmem, hx'⟩
    rw [(h.agree.names_iff hx hx').2 rfl]
    exact hmem

/-- In the code of the units that succeed, loads follow stores exactly if the programs write names
before they read them. A load that follows no store is of the slot of a name which a length in a
declared type assigns to. -/
theorem loadsFollowStores_iff (options : Options) (sources : List String) :
    let (cs, s) := compileAll { options } sources
    (LoadsFollowStores (code cs) ↔ ReadsFollowWrites (accesses cs)) ∧
    ∀ before i after k, code cs = before ++ i :: after → i.access? = some (.read k) →
      (∃ j ∈ before, j.access? = some (.write k)) ∨
        ∃ x ∈ lengthTargets cs, (s.slots.get? x).map Slot.index = some k := by
  have h := traced_compileAll options sources
  revert h
  generalize compileAll { options } sources = run
  intro h
  constructor
  · have hnone := h.covered_iff []
    simp only [List.not_mem_nil, false_and, exists_false] at hnone
    rw [loadsFollowStores_iff_covered, readsFollowWrites_iff_covered, hnone]
  · intro before i after k hcode hi
    have hcov : Covered (· ∈ lengthTargets run.1) (accesses run.1) := by
      refine h.carries.covered.mono ?_
      rintro x (⟨v, hv, _⟩ | hx)
      · cases hv
      · exact hx
    rw [h.covered_iff, hcode] at hcov
    rcases hcov.store_before_load hi with ⟨x, hx, slot, hs, rfl⟩ | hstore
    · rw [Slot.operand_eq (h.agree.index_lt hs)]
      exact .inr ⟨x, hx, by rw [hs]; rfl⟩
    · exact .inl hstore

/-- A name that only a length assigns to is loaded without having been stored to. -/
theorem not_loadsFollowStores_compileAll :
    ¬ LoadsFollowStores
      (code (compileAll {} ["mut a: int;", "mut b: int[(a = 1, 2)];", "a;"]).1) := by
  have hcode : code (compileAll {} ["mut a: int;", "mut b: int[(a = 1, 2)];", "a;"]).1 =
      [⟨.load .int, [0, 0], some "a"⟩] := by
    decide +kernel
  intro h
  obtain ⟨j, hj, _⟩ := h [] _ [] 0 hcode rfl
  cases hj

end Session

end StackCompiler
