import StackCompiler.Proofs.Agreement
import StackCompiler.Proofs.Scanning
import StackCompiler.Proofs.Soundness
import StackCompiler.Session

/-!
# Sessions

`Session.compileAll` compiles units one after another, and `Session.compileAll_induction` says
what holds after any units: whatever every unit that succeeds preserves, since the others change
nothing. The first such property is that names and slots agree (`Session.agree_compileAll`). The
tokens of a source text always end with the end of the text, so that reading them never runs past
it, and with the names in agreement a unit can only fail because of the source text or because it
exceeds a limit of the machine (`Session.compileAll_consistent`).
-/

namespace StackCompiler

/-- Reading a source text meets no defect. -/
theorem Program.ofSource_ne_internal (source : String) (d : Defect) :
    Program.ofSource source ≠ .error (.internal d) := by
  intro h
  rw [Program.ofSource] at h
  split at h
  · rename_i ts hts
    obtain ⟨us, stop, rfl, hstop, _⟩ := scan_append_newline hts
    have hread := Program.parse_read (us ++ [stop])
    rw [h] at hread
    exact hread stop (List.mem_append_right _ (List.mem_singleton_self stop)) hstop
  · cases h

/-- A declaration of a folded source text is the folded form of one that tokens derive. -/
theorem Program.exists_declaration_of_ofSource {source : String} {p : Program}
    (h : Program.ofSource source = .ok p) {d : Declaration} (hd : .declaration d ∈ p.fold) :
    ∃ us d', Declaration.Derives us d' ∧ d = d'.fold := by
  rw [Program.ofSource] at h
  split at h
  · obtain ⟨stmt, hmem, hfold⟩ := List.mem_map.1 hd
    cases stmt with
    | expression e => cases hfold
    | declaration d' =>
      cases hfold
      obtain ⟨us, hd'⟩ := exists_declaration_of_parse h hmem
      exact ⟨us, d', hd', rfl⟩
  · cases h

/-- Every declaration in a source text declares a name. -/
theorem Program.names_ne_nil_of_ofSource {source : String} {p : Program}
    (h : Program.ofSource source = .ok p) {d : Declaration} (hd : .declaration d ∈ p.fold) :
    d.names ≠ [] := by
  obtain ⟨_, d', hd', rfl⟩ := exists_declaration_of_ofSource h hd
  cases hd' with
  | mutable _ hn | constant _ hn =>
    cases hn
    exact List.cons_ne_nil _ _

/-- Warnings are too many exactly if there is a limit and they exceed it. -/
theorem Options.exceeded?_eq_some {options : Options} {n : Nat} {failure : Failure} :
    options.exceeded? n = some failure ↔
      ∃ limit, options.warningLimit = some limit ∧ limit < n ∧
        failure = .tooManyWarnings n limit := by
  rw [exceeded?]
  cases options.warningLimit with
  | none => simp
  | some limit =>
    by_cases h : limit < n
    · simp [h, eq_comm]
    · simp [h]

theorem Options.exceeded?_ne_internal (options : Options) (count : Nat) (d : Defect) :
    options.exceeded? count ≠ some (.internal d) := by
  intro h
  obtain ⟨_, _, _, hd⟩ := exceeded?_eq_some.1 h
  cases hd

namespace Session

/-- A program is compiled if its check and its lowering succeed; the session takes over what they
found. -/
theorem compileProgram_eq_ok {s s' : Session} {p : Program} {c : Compilation}
    (h : s.compileProgram p = .ok (c, s')) :
    ∃ checked code st, p.check.run { environment := s.environment } = .ok () checked ∧
      (p.lower s.options.constants).run { slots := s.slots } = .ok code st ∧
      c = ⟨p, ⟨st.pool, code⟩, checked.warnings⟩ ∧
      s' = { s with environment := checked.environment, slots := st.slots } := by
  rw [compileProgram] at h
  split at h
  · cases h
  · rename_i checked hc
    split at h
    · cases h
    · rw [Program.generate, Assembly.generate] at h
      split at h
      · cases h
      · rename_i bytecode slots hg
        split at hg
        · rename_i code st hl
          cases hg
          cases h
          exact ⟨checked, code, st, hc, hl, rfl, rfl⟩
        · cases hg

/-- A program meets a defect only where its check succeeds and its lowering meets it. -/
theorem compileProgram_eq_internal {s : Session} {p : Program} {d : Defect}
    (h : s.compileProgram p = .error (.internal d)) :
    ∃ checked st, p.check.run { environment := s.environment } = .ok () checked ∧
      (p.lower s.options.constants).run { slots := s.slots } = .error d st := by
  rw [compileProgram] at h
  split at h
  · cases h
  · rename_i checked hc
    split at h
    · rename_i failure hf
      cases h
      exact absurd hf (Options.exceeded?_ne_internal _ _ d)
    · rw [Program.generate, Assembly.generate] at h
      split at h
      · rename_i defect slots hg
        split at hg
        · cases hg
        · rename_i d' st hl
          cases hg
          cases h
          exact ⟨checked, st, hc, hl⟩
      · cases h

/-- A unit either fails and leaves the session as it was, or its program is compiled. -/
theorem compile_cases (s : Session) (source : String) :
    (∃ failure, s.compile source = (.error failure, s)) ∨
      ∃ p c s', Program.ofSource source = .ok p ∧ s.compileProgram p.fold = .ok (c, s') ∧
        s.compile source = (.ok c, s') := by
  rw [compile]
  split
  · exact .inl ⟨_, rfl⟩
  · rename_i p hp
    split
    · exact .inl ⟨_, rfl⟩
    · rename_i c s' h
      exact .inr ⟨p, c, s', hp, h, rfl⟩

/-- A unit of its own succeeds if its text can be read and the program is compiled. -/
theorem compile_eq_ok {options : Options} {source : String} {c : Compilation}
    (h : StackCompiler.compile options source = .ok c) :
    ∃ p s, Program.ofSource source = .ok p ∧
      compileProgram { options } p.fold = .ok (c, s) := by
  rw [StackCompiler.compile] at h
  rcases compile_cases { options } source with ⟨_, hf⟩ | ⟨p, c', s, hs, hp, hc⟩
  · rw [hf] at h
    cases h
  · rw [hc] at h
    cases h
    exact ⟨p, s, hs, hp⟩

/-- A unit of its own that succeeds is a program that is compiled. -/
theorem exists_compileProgram {options : Options} {source : String} {c : Compilation}
    (h : StackCompiler.compile options source = .ok c) :
    ∃ p s, compileProgram { options } p = .ok (c, s) := by
  obtain ⟨p, s, _, hp⟩ := compile_eq_ok h
  exact ⟨p.fold, s, hp⟩

/-- One more unit after others. If it succeeds, its yield is added. -/
def next (run : List Compilation × Session) (source : String) : List Compilation × Session :=
  match run.2.compile source with
  | (.ok c, s) => (run.1 ++ [c], s)
  | (.error _, s) => (run.1, s)

/-- Units compiled one after another: what the successful ones yield, in order, and the session
afterwards. -/
def compileAll (s : Session) (sources : List String) : List Compilation × Session :=
  sources.foldl next ([], s)

/-- What units yield comes after what was yielded before them. -/
theorem foldl_next (sources : List String) (cs : List Compilation) (s : Session) :
    sources.foldl next (cs, s) = (cs ++ (s.compileAll sources).1, (s.compileAll sources).2) := by
  induction sources generalizing cs s with
  | nil => exact congrArg (·, s) (List.append_nil cs).symm
  | cons source sources ih =>
    rw [compileAll, List.foldl_cons, List.foldl_cons, next, next]
    dsimp only
    split
    · rw [ih, List.nil_append, ih [_], List.append_assoc]
    · rw [ih, ih []]
      rfl

theorem compileAll_cons_of_ok {s s' : Session} {source : String} {c : Compilation}
    (h : s.compile source = (.ok c, s')) (sources : List String) :
    s.compileAll (source :: sources) =
      (c :: (s'.compileAll sources).1, (s'.compileAll sources).2) := by
  rw [compileAll, List.foldl_cons, next]
  dsimp only
  rw [h]
  exact foldl_next sources [c] s'

theorem compileAll_cons_of_error {s s' : Session} {source : String} {failure : Failure}
    (h : s.compile source = (.error failure, s')) (sources : List String) :
    s.compileAll (source :: sources) = s'.compileAll sources := by
  rw [compileAll, List.foldl_cons, next]
  dsimp only
  rw [h]
  rfl

/-- After any units there holds what holds before them and what every unit that succeeds
preserves. -/
theorem compileAll_induction {motive : List Compilation → Session → Prop} {s : Session}
    (start : motive [] s)
    (step : ∀ cs s source p c s', motive cs s → Program.ofSource source = .ok p →
      s.compileProgram p.fold = .ok (c, s') → motive (cs ++ [c]) s')
    (sources : List String) : motive (s.compileAll sources).1 (s.compileAll sources).2 := by
  -- The induction is over the units that remain, from wherever those before them have led.
  suffices h : ∀ run : List Compilation × Session, motive run.1 run.2 →
      motive (sources.foldl next run).1 (sources.foldl next run).2 from h ([], s) start
  induction sources with
  | nil => exact fun run h => h
  | cons source sources ih =>
    intro run h
    refine ih (next run source) ?_
    rw [next]
    rcases compile_cases run.2 source with ⟨_, hf⟩ | ⟨p, c, s', hs, hp, hc⟩
    · rw [hf]
      exact h
    · rw [hc]
      exact step run.1 run.2 source p c s' h hs hp

/-- The names that units declare, in order. -/
def declared (cs : List Compilation) : List String :=
  cs.flatMap fun c => c.program.names

/-- A unit that succeeds keeps names and slots in agreement. -/
theorem agree_compileProgram {s s' : Session} {p : Program} {c : Compilation} {names : List String}
    (h : Agree s.environment s.slots names) (hp : s.compileProgram p = .ok (c, s')) :
    Agree s'.environment s'.slots (names ++ c.program.names) := by
  obtain ⟨checked, code, st, hc, hl, rfl, rfl⟩ := compileProgram_eq_ok hp
  have hends := h.lower_ends s.options.constants hc
  rw [hl] at hends
  cases hends with
  | ok h => exact h

theorem options_compileProgram {s s' : Session} {p : Program} {c : Compilation}
    (hp : s.compileProgram p = .ok (c, s')) : s'.options = s.options := by
  obtain ⟨_, _, _, _, _, _, rfl⟩ := compileProgram_eq_ok hp
  rfl

theorem agree_compileAll (options : Options) (sources : List String) :
    Agree (compileAll { options } sources).2.environment (compileAll { options } sources).2.slots
      (declared (compileAll { options } sources).1) := by
  refine compileAll_induction (motive := fun cs s => Agree s.environment s.slots (declared cs))
    Agree.empty ?_ sources
  intro cs s source p c s' h _ hp
  rw [declared, List.flatMap_append, List.flatMap_singleton]
  exact agree_compileProgram h hp

theorem options_compileAll (options : Options) (sources : List String) :
    (compileAll { options } sources).2.options = options :=
  compileAll_induction (motive := fun _ s => s.options = options) rfl
    (fun _ _ _ _ _ _ h _ hp => (options_compileProgram hp).trans h) sources

/-- When names and slots agree, a unit meets a defect only if its program exceeds a limit. -/
theorem exceeds_of_compile {s : Session} {names : List String} {source : String} {d : Defect}
    (h : Agree s.environment s.slots names)
    (hd : (s.compile source).1 = .error (.internal d)) :
    ∃ p, Program.ofSource source = .ok p ∧
      p.fold.Exceeds s.options.constants s.slots.size d := by
  rw [compile] at hd
  split at hd
  · rename_i failure hf
    cases hd
    exact absurd hf (Program.ofSource_ne_internal source d)
  · rename_i p hp
    split at hd
    · rename_i failure hf
      cases hd
      obtain ⟨checked, st, hc, hl⟩ := compileProgram_eq_internal hf
      have hends := h.lower_ends s.options.constants hc
      rw [hl] at hends
      rw [h.size]
      cases hends with
      | error h => exact ⟨p, hp, h⟩
    · cases hd

/-- After any units, failed ones among them, the names bound are those with slots, with the
storage of their types, numbered in the order in which the successful units declared them. The
next unit meets a defect only if it exceeds a limit of the machine. -/
theorem compileAll_consistent (options : Options) (sources : List String) :
    let (cs, s) := compileAll { options } sources
    (∀ x, (s.environment.get? x).isSome ↔ (s.slots.get? x).isSome) ∧
    (∀ x v slot, s.environment.get? x = some v → s.slots.get? x = some slot →
      slot.storage = .ofTy v.ty) ∧
    (declared cs).Nodup ∧ s.slots.size = (declared cs).length ∧
    (∀ x i, (s.slots.get? x).map Slot.index = some i ↔ (declared cs)[i]? = some x) ∧
    ∀ source d, (s.compile source).1 = .error (.internal d) →
      ∃ p, Program.ofSource source = .ok p ∧ p.fold.Exceeds options.constants s.slots.size d := by
  have h := agree_compileAll options sources
  have ho := options_compileAll options sources
  revert h ho
  generalize compileAll { options } sources = run
  intro h ho
  refine ⟨?_, ?_, h.nodup, h.size, ?_, ?_⟩
  · intro x
    exact ⟨h.isSome_get?, h.isSome_of_get?⟩
  · intro x v slot hv hs
    obtain ⟨i, _, ht⟩ := h.bound x v hv
    rw [ht, Option.some.injEq] at hs
    rw [← hs]
  · exact h.index_iff
  · intro source d hd
    rw [← ho]
    exact exceeds_of_compile h hd

end Session

end StackCompiler
