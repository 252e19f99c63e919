import StackCompiler.Proofs.Completeness
import StackCompiler.Proofs.Relocation
import StackCompiler.Proofs.Sessions

/-!
# Units joined to one text

Units that succeed one after the other succeed as one text, each on lines of its own, with the
same code, warnings and declarations but for the lines (`Session.compileAll_intercalate`). Two
texts with a line feed between them are read as one program after the other, the second moved down
(`Program.ofSource_append`), and two programs in a row are checked and lowered as one
(`Session.compileProgram_append`).
-/

namespace StackCompiler

section Down

variable (k : Nat)

/-- The place so many lines further down. -/
def Cursor.down (here : Cursor) : Cursor :=
  { here with line := here.line + k }

theorem Cursor.advance_down (here : Cursor) (text : List Char) :
    (here.down k).advance text = (here.advance text).down k := by
  induction text generalizing here with
  | nil => rfl
  | cons c text ih =>
    have hstep : (here.down k).step c = (here.step c).down k := by
      rw [step, step]
      split_ifs
      · rw [down, down, Nat.add_right_comm]
      · rfl
    rw [advance_cons, advance_cons, hstep, ih]

theorem Cursor.span_down (here : Cursor) (text : List Char) :
    (here.down k).span text = (here.span text).down k := by
  rw [span, span, advance_down]
  simp only [down, Range.down, Nat.add_right_cancel_iff]

/-- A text further down has its tokens further down. -/
theorem scan_down {here : Cursor} {cs : List Char} {ts : List Token} (h : scan here cs = .ok ts) :
    scan (here.down k) cs = .ok (ts.map (Token.mapRange (.down k))) := by
  fun_induction scan here cs generalizing ts with
  | case1 here =>
    cases h
    rw [scan, Cursor.span_down]
    rfl
  | case2 here c cs piece text =>
    rename_i hgap ih
    rw [scan_of_gap hgap, Cursor.advance_down]
    exact ih h
  | case3 here c cs piece text kind =>
    rename_i hkind ih
    cases hscan : scan (here.advance text) (cs.drop piece.2) with
    | error complaint =>
      rw [hscan] at h
      cases h
    | ok tokens =>
      rw [hscan] at h
      cases h
      rw [scan_of_token hkind, Cursor.advance_down, ih hscan, Cursor.span_down]
      rfl
  | case4 => cases h

end Down

namespace Program

theorem Derives.append {ts us : List Token} {p q : Program} (hp : Derives ts p)
    (hq : Derives us q) : Derives (ts ++ us) (p ++ q) := by
  induction hp with
  | nil => exact hq
  | cons hs _ ih =>
    rw [List.append_assoc, List.append_assoc]
    exact .cons hs ih

/-- The tokens before the end of a source text derive its program, and are followed by those of
whatever comes after a line feed. -/
theorem ofSource_eq_ok {source : String} {p : Program} (h : ofSource source = .ok p) :
    ∃ us stop, tokenize source = .ok (us ++ [stop]) ∧ Derives us p ∧ stop.kind = .eof ∧
      ∀ b, scan .origin (source.toList ++ '\n' :: b) =
        (scan (Cursor.origin.down (Cursor.origin.advance source.toList).line) b).map (us ++ ·) := by
  rw [ofSource] at h
  split at h
  · rename_i ts hts
    obtain ⟨us, stop, rfl, hstop, hus, happend⟩ := scan_append_newline hts
    have hread := parse_read (us ++ [stop])
    rw [h] at hread
    obtain ⟨used, stop', rest, htokens, hstop', hused, hd⟩ := hread
    rw [← eq_of_append_eof hus hused hstop hstop' htokens] at hd
    refine ⟨us, stop, hts, hd, hstop, fun b => ?_⟩
    rw [happend, Cursor.down, Cursor.origin, Nat.add_comm]
  · cases h

/-- Texts with a line feed between them are read one after the other. -/
theorem ofSource_append {a b : String} {p q : Program} (ha : ofSource a = .ok p)
    (hb : ofSource b = .ok q) :
    ofSource (a ++ "\n" ++ b) =
      .ok (p ++ q.mapRange (.down (Cursor.origin.advance a.toList).line)) := by
  obtain ⟨us, _, _, hp, _, happend⟩ := ofSource_eq_ok ha
  obtain ⟨vs, stop, hvs, hq, hstop, _⟩ := ofSource_eq_ok hb
  generalize (Cursor.origin.advance a.toList).line = k at happend ⊢
  have htokens : tokenize (a ++ "\n" ++ b) =
      .ok (us ++ (vs.map (Token.mapRange (.down k)) ++ [stop.mapRange (.down k)])) := by
    rw [tokenize, String.toList_append, String.toList_append, List.append_assoc]
    refine (happend b.toList).trans ?_
    rw [scan_down k hvs, List.map_append]
    rfl
  have hstop' : (stop.mapRange (.down k)).kind = .eof := hstop
  rw [ofSource, htokens, ← List.append_assoc]
  exact (hp.append (hq.down k)).parse hstop' []

end Program

theorem Program.check_append_eq_ok {p q : Program} {s s' : Checking} :
    (Program.check (p ++ q)).run s = .ok () s' ↔
      ∃ s₁, p.check.run s = .ok () s₁ ∧ q.check.run s₁ = .ok () s' := by
  have happend : Program.check (p ++ q) = (do p.check; q.check) := List.forM_append
  rw [happend, run_bind_eq_ok]
  constructor
  · rintro ⟨_, s₁, hp, hq⟩
    exact ⟨s₁, hp, hq⟩
  · rintro ⟨s₁, hp, hq⟩
    exact ⟨(), s₁, hp, hq⟩

theorem Program.ofSource_empty : Program.ofSource "" = .ok [] := by
  have htokens : tokenize "" = .ok [⟨.eof, "", Cursor.origin.span []⟩] := by
    rw [tokenize, String.toList_empty, scan]
  rw [Program.ofSource, htokens]
  exact Program.Derives.nil.parse rfl []

theorem Program.fold_append (p q : Program) : Program.fold (p ++ q) = p.fold ++ q.fold :=
  List.map_append

/-- The types that a source text declares are flat, folded or not. -/
theorem Program.flat_fold_of_ofSource {source : String} {p : Program}
    (h : Program.ofSource source = .ok p) {d : Declaration} (hd : .declaration d ∈ p.fold) :
    d.ty.Flat := by
  obtain ⟨_, d', hd', rfl⟩ := exists_declaration_of_ofSource h hd
  exact Ty.flat_fold.2 hd'.flat

namespace Session

/-- The session has the usual options, and the types of its variables are flat. -/
structure Plain (s : Session) : Prop where
  options_eq : s.options = {}
  flat : ∀ {x v}, s.environment.get? x = some v → v.ty.Flat

theorem Plain.fresh : Plain {} :=
  ⟨rfl, nofun⟩

variable {s s₁ s₂ s' : Session} {p q : Program} {c d : Compilation}

theorem compileProgram_eq_ok_iff (hs : s.Plain) :
    s.compileProgram p = .ok (c, s') ↔
      ∃ checked code st, p.check.run { environment := s.environment } = .ok () checked ∧
        (p.lower .inline).run { slots := s.slots } = .ok code st ∧
        c = ⟨p, ⟨st.pool, code⟩, checked.warnings⟩ ∧
        s' = { s with environment := checked.environment, slots := st.slots } := by
  constructor
  · intro h
    obtain ⟨checked, code, st, hc, hl, hyield⟩ := compileProgram_eq_ok h
    rw [hs.options_eq] at hl
    exact ⟨checked, code, st, hc, hl, hyield⟩
  · rintro ⟨checked, code, st, hc, hl, rfl, rfl⟩
    rw [compileProgram, hc]
    dsimp only
    rw [hs.options_eq, Program.generate, Assembly.generate]
    dsimp only [Options.exceeded?]
    rw [hl]
    rfl

/-- A program whose types are flat leaves a session with flat types. -/
theorem Plain.compileProgram (hs : s.Plain) (hp : ∀ d, .declaration d ∈ p → d.ty.Flat)
    (h : s.compileProgram p = .ok (c, s')) : s'.Plain := by
  obtain ⟨checked, code, st, hc, _, _, rfl⟩ := compileProgram_eq_ok h
  refine ⟨hs.options_eq, ?_⟩
  have halike := Comparison.check_program (Comparison.statements_down 0 hp)
    { environment := s.environment } { environment := s.environment } ⟨rfl, hs.flat⟩
  rw [hc] at halike
  obtain ⟨_, _, _, _, hchecked⟩ := halike.exists_eq_ok_right
  intro x v hx
  exact hchecked.flat hx

/-- Two programs that are compiled one after the other are compiled as one, the second further
down. -/
theorem compileProgram_append (hs : s.Plain) (hp : s.compileProgram p = .ok (c, s₁))
    (hs₁ : s₁.Plain) (hflat : ∀ d, .declaration d ∈ q → d.ty.Flat)
    (hq : s₁.compileProgram q = .ok (d, s₂)) (k : Nat) :
    ∃ e s', s.compileProgram (p ++ q.mapRange (.down k)) = .ok (e, s') ∧
      e.bytecode.code = c.bytecode.code ++ d.bytecode.code ∧
      e.warnings = c.warnings ++ d.warnings.map (Warning.mapRange (.down k)) ∧
      s'.slots = s₂.slots ∧
      s'.environment.mapTy (Ty.mapRange .eraseLine) =
        s₂.environment.mapTy (Ty.mapRange .eraseLine) := by
  obtain ⟨checkedp, codep, stp, hcp, hlp, rfl, rfl⟩ := (compileProgram_eq_ok_iff hs).1 hp
  obtain ⟨checkedq, codeq, stq, hcq, hlq, rfl, rfl⟩ := (compileProgram_eq_ok_iff hs₁).1 hq
  have halike := Comparison.check_program (Comparison.statements_down k hflat)
    { environment := checkedp.environment } checkedp ⟨rfl, hs₁.flat⟩
  rw [hcq] at halike
  obtain ⟨_, checked, hc, _, henv⟩ := halike.exists_eq_ok_right
  have hlq' : (q.lower .inline).run stp = .ok codeq stq := by
    have hpool := Program.pool_lower_inline hlp
    obtain ⟨slots, pool⟩ := stp
    cases hpool
    exact hlq
  rw [← Lower.mapRange_eq_ok (f := Range.down k), ← Program.lower_mapRange] at hlq'
  have hl := Program.lower_append_eq_ok.2 ⟨codep, stp, codeq, hlp, hlq', rfl⟩
  have hwarnings : checked.warnings =
      checkedp.warnings ++ checkedq.warnings.map (Warning.mapRange (.down k)) := by
    rw [Program.warnings_check hc, Program.warnings_check hcq, Program.overflows_mapRange]
    rfl
  exact ⟨_, _, (compileProgram_eq_ok_iff hs).2
    ⟨checked, _, _, Program.check_append_eq_ok.2 ⟨checkedp, hcp, hc⟩, hl, rfl, rfl⟩,
    rfl, hwarnings, rfl, henv.mapTy_eq.symm⟩

theorem compile_eq_ok_iff {source : String} :
    s.compile source = (.ok c, s') ↔
      ∃ p, Program.ofSource source = .ok p ∧ s.compileProgram p.fold = .ok (c, s') := by
  constructor
  · intro h
    rcases compile_cases s source with ⟨_, hf⟩ | ⟨p, c', t, hp, hc, hok⟩
    · rw [hf] at h
      cases h
    · rw [hok] at h
      cases h
      exact ⟨p, hp, hc⟩
  · rintro ⟨p, hp, hc⟩
    rw [compile, hp]
    dsimp only
    rw [hc]

theorem Plain.compile (hs : s.Plain) {source : String} (h : s.compile source = (.ok c, s')) :
    s'.Plain := by
  obtain ⟨p, hp, hc⟩ := compile_eq_ok_iff.1 h
  exact hs.compileProgram (fun _ => Program.flat_fold_of_ofSource hp) hc

/-- A unit, after which the session is `s'`, is the units of a run together: it has their code one
after the other, their warnings but for the lines, and it declares the same variables in the same
slots, with the same flags and with the same types but for the lines in them. -/
structure Joins (run : List Compilation × Session) (c : Compilation) (s' : Session) : Prop where
  code_eq : c.bytecode.code = run.1.flatMap fun d => d.bytecode.code
  warnings_eq : c.warnings.map (Warning.mapRange .eraseLine) =
    (run.1.flatMap Compilation.warnings).map (Warning.mapRange .eraseLine)
  slots_eq : s'.slots = run.2.slots
  environment_eq : s'.environment.mapTy (Ty.mapRange .eraseLine) =
    run.2.environment.mapTy (Ty.mapRange .eraseLine)

theorem Joins.single (c : Compilation) (s : Session) : Joins ([c], s) c s where
  code_eq := by rw [List.flatMap_singleton]
  warnings_eq := by rw [List.flatMap_singleton]
  slots_eq := rfl
  environment_eq := rfl

/-- A unit before one that joins the later ones joins with them. -/
theorem Joins.cons {a b : String} {run : List Compilation × Session} (hs : s.Plain)
    (ha : s.compile a = (.ok c, s₁)) (hb : s₁.compile b = (.ok d, s₂)) (h : Joins run d s₂) :
    ∃ e s', s.compile (a ++ "\n" ++ b) = (.ok e, s') ∧ Joins (c :: run.1, run.2) e s' := by
  have hs₁ := hs.compile ha
  obtain ⟨p, hp, hc⟩ := compile_eq_ok_iff.1 ha
  obtain ⟨q, hq, hd⟩ := compile_eq_ok_iff.1 hb
  obtain ⟨e, s', he, hcode, hwarnings, hslots, henv⟩ := compileProgram_append hs hc hs₁
    (fun _ => Program.flat_fold_of_ofSource hq) hd (Cursor.origin.advance a.toList).line
  rw [← Program.fold_mapRange, ← Program.fold_append] at he
  refine ⟨e, s', compile_eq_ok_iff.2 ⟨_, Program.ofSource_append hp hq, he⟩, ?_, ?_,
    hslots.trans h.slots_eq, henv.trans h.environment_eq⟩
  · rw [hcode, h.code_eq, List.flatMap_cons]
  · have herase : Warning.mapRange .eraseLine ∘
        Warning.mapRange (.down (Cursor.origin.advance a.toList).line) =
          Warning.mapRange .eraseLine := rfl
    rw [hwarnings, List.map_append, List.map_map, herase, h.warnings_eq, List.flatMap_cons,
      List.map_append]

/-- The units that succeed, each after those before it. -/
def successful (s : Session) : List String → List String
  | [] => []
  | source :: sources =>
    match s.compile source with
    | (.ok _, s') => source :: s'.successful sources
    | (.error _, s') => s'.successful sources

/-- Compiling units one after the other is compiling them as one text. Those that fail leave no
trace, and those that succeed, with line feeds between them, are a text that succeeds in a fresh
session and joins them. -/
theorem compileAll_intercalate (sources : List String) :
    compileAll {} (successful {} sources) = compileAll {} sources ∧
      ∃ c s', Session.compile {} ("\n".intercalate (successful {} sources)) = (.ok c, s') ∧
        Joins (compileAll {} sources) c s' := by
  -- The induction is over the units that remain, in whatever session those before them have left.
  suffices h : ∀ s : Session, s.Plain →
      s.compileAll (s.successful sources) = s.compileAll sources ∧
        ∃ c s', s.compile ("\n".intercalate (s.successful sources)) = (.ok c, s') ∧
          Joins (s.compileAll sources) c s' from h {} Plain.fresh
  induction sources with
  | nil =>
    intro s hs
    refine ⟨rfl, ⟨[], {}, []⟩, s, ?_, rfl, rfl, rfl, rfl⟩
    rw [successful, String.intercalate_nil]
    exact compile_eq_ok_iff.2 ⟨[], Program.ofSource_empty,
      (compileProgram_eq_ok_iff hs).2 ⟨_, _, _, rfl, rfl, rfl, rfl⟩⟩
  | cons source sources ih =>
    intro s hs
    rcases compile_cases s source with ⟨_, hf⟩ | ⟨_, c, s₁, _, _, hok⟩
    · rw [successful, hf, compileAll_cons_of_error hf]
      exact ih s hs
    · obtain ⟨hgood, d, s₂, hd, hjoins⟩ := ih s₁ (hs.compile hok)
      have hsuccessful : s.successful (source :: sources) = source :: s₁.successful sources := by
        rw [successful, hok]
      rw [hsuccessful, compileAll_cons_of_ok hok, compileAll_cons_of_ok hok, hgood]
      refine ⟨rfl, ?_⟩
      cases hrest : s₁.successful sources with
      | nil =>
        rw [hrest] at hgood
        rw [String.intercalate_singleton, ← hgood]
        exact ⟨c, s₁, hok, Joins.single c s₁⟩
      | cons b rest =>
        rw [hrest] at hd
        rw [String.intercalate_cons_cons]
        exact Joins.cons hs hok hd hjoins

end Session

end StackCompiler
