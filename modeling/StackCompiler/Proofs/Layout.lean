import StackCompiler.Proofs.Joining
import StackCompiler.Proofs.Rereading
import StackCompiler.Proofs.Tiling

/-!
# Layout does not matter

Two source texts with tokens of the same kinds compile alike: white space, comments, line ends,
separators of digits and other names of types change the places in the answer and nothing else
(`compile_matches`). No two tokens of a text start at one place (`Tiling.distinctSites`), so that
both texts are read as the same program, wherever it stands. It is then checked, warned about and
lowered as the program that stands nowhere.
-/

namespace StackCompiler

/-- A text and a longer one that starts with it end at different places. -/
theorem Cursor.advance_ne_of_append (before : List Char) {text : List Char} (h : text ≠ []) :
    Cursor.origin.advance (before ++ text) ≠ Cursor.origin.advance before := by
  rw [Cursor.advance_origin, Cursor.advance_origin, ne_eq, Cursor.mk.injEq, List.count_append]
  have hlength : 0 < text.length := List.length_pos_iff.2 h
  by_cases hnl : '\n' ∈ text
  · have hcount : 0 < text.count '\n' := List.count_pos_iff.2 hnl
    omega
  · rw [lastLine_append hnl, List.length_append]
    omega

theorem Range.Locates.site_eq {r : Range} {before text after : List Char}
    (h : r.Locates before text after) : r.site = Cursor.origin.advance before := by
  rw [Range.site, Cursor.advance_origin, h.line, h.start]

theorem Munched.ne_nil {kind : TokenKind} {lexeme rest : List Char}
    (h : Munched kind lexeme rest) : lexeme ≠ [] := by
  rintro rfl
  have halone := h.alone
  rw [tokenize, String.toList_ofList, scan] at halone
  cases halone

/-- The tokens of a tiling start where it does, or later. -/
theorem Tiling.exists_site {before text : List Char} {ts : List Token} (h : Tiling before text ts) :
    ∀ t ∈ ts, ∃ more, t.range.site = Cursor.origin.advance (before ++ more) := by
  induction h with
  | last _ hr => exact List.forall_mem_singleton.2 ⟨_, hr.site_eq⟩
  | cons _ _ hr _ ih =>
    refine List.forall_mem_cons.2 ⟨⟨_, hr.site_eq⟩, fun t ht => ?_⟩
    obtain ⟨more, hsite⟩ := ih t ht
    rw [List.append_assoc, List.append_assoc] at hsite
    exact ⟨_, hsite⟩

/-- The tokens of a tiling start at different places, because each of them has characters. -/
theorem Tiling.distinctSites {before text : List Char} {ts : List Token}
    (h : Tiling before text ts) : DistinctSites ts := by
  induction h with
  | last _ _ => exact List.pairwise_singleton _ _
  | @cons before g lexeme rest kind r ts _ hl hr h ih =>
    refine ih.cons fun t ht hsite => ?_
    obtain ⟨more, hmore⟩ := h.exists_site t ht
    rw [hr.site_eq, hmore, List.append_assoc] at hsite
    exact Cursor.advance_ne_of_append (before ++ g)
      (List.append_ne_nil_of_left_ne_nil hl.ne_nil more) hsite.symm

theorem Kindred.of_map_kind {ts ts' : List Token} (h : ts.map Token.kind = ts'.map Token.kind)
    (hts : DistinctSites ts) (hts' : DistinctSites ts') : Kindred ts ts' := by
  induction ts generalizing ts' with
  | nil =>
    rw [List.map_nil, eq_comm, List.map_eq_nil_iff] at h
    rw [h]
    exact .nil
  | cons t ts ih =>
    cases ts' with
    | nil => cases h
    | cons t' ts' =>
      rw [List.map_cons, List.map_cons, List.cons.injEq] at h
      rw [DistinctSites, List.pairwise_cons] at hts hts'
      exact .cons h.1 hts.1 hts'.1 (ih h.2 hts.2 hts'.2)

/-- Source texts with tokens of the same kinds are read as the same program, or refused for the
same reason. -/
theorem Program.ofSource_matches {source source' : String} {ts ts' : List Token}
    (h : tokenize source = .ok ts) (h' : tokenize source' = .ok ts')
    (hkinds : ts.map Token.kind = ts'.map Token.kind) :
    Matches Program.Same (Program.ofSource source) (Program.ofSource source') := by
  have htiling : Tiling [] source.toList ts := .of_scan h
  have htiling' : Tiling [] source'.toList ts' := .of_scan h'
  rw [Program.ofSource, Program.ofSource, h, h']
  exact Program.parse_matches ts ts'
    (.of_map_kind hkinds htiling.distinctSites htiling'.distinctSites)

/-! ## The same program, wherever it stands -/

namespace Program

variable {p p' : Program}

theorem Same.fold (h : Program.Same p p') : Program.Same p.fold p'.fold := by
  rw [Program.Same, ← fold_mapRange, h, fold_mapRange]

theorem Same.overflows (h : Program.Same p p') :
    p.overflows.map (Warning.mapRange .blank) = p'.overflows.map (Warning.mapRange .blank) := by
  rw [← overflows_mapRange, h, overflows_mapRange]

end Program

/-- The comparison of programs wherever they stand: the types of variables are the same but for the
places of their lengths. -/
def Comparison.anywhere : Comparison where
  Places _ _ := True
  ty := Ty.mapRange .blank
  through _ _ := trivial
  erase_ty := Ty.erase_mapRange

/-- A program with flat types is checked like itself nowhere. -/
theorem Comparison.check_blank {p : Program} (h : ∀ d, .declaration d ∈ p → d.ty.Flat) :
    anywhere.Alike (fun _ _ => True) p.check (Program.mapRange .blank p).check := by
  have hty : ∀ t : Ty, anywhere.ty t = anywhere.ty (t.mapRange .blank) := fun t =>
    (Ty.mapRange_mapRange (f := Range.blank) (g := Range.blank) t).symm
  exact check_program (statements_mapRange (fun _ => trivial) hty h)

theorem Fault.outline_eq {fault fault' : Fault} (h : fault.erase = fault'.erase) :
    fault.outline = fault'.outline := by
  cases fault <;> cases fault' <;> simp_all [Fault.outline, Fault.erase]

/-- The same program is checked alike: it is accepted at both places, or refused at both for the
same reason. -/
theorem Program.Same.check {p p' : Program} (h : Program.Same p p')
    (hp : ∀ d, .declaration d ∈ p → d.ty.Flat) (hp' : ∀ d, .declaration d ∈ p' → d.ty.Flat) :
    (∃ s s', p.check.run {} = .ok () s ∧ p'.check.run {} = .ok () s') ∨
      ∃ c c' s s', p.check.run {} = .error c s ∧ p'.check.run {} = .error c' s' ∧
        c.fault.outline = c'.fault.outline := by
  -- Both are compared with the program that stands nowhere, which is the same for the two.
  have henv : Comparison.anywhere.Environments {} {} := ⟨rfl, nofun⟩
  have hblank := Comparison.check_blank hp {} {} henv
  have hblank' := Comparison.check_blank hp' {} {} henv
  rw [← h] at hblank'
  generalize p.check.run {} = r at hblank ⊢
  generalize p'.check.run {} = r' at hblank' ⊢
  generalize (Program.mapRange .blank p).check.run {} = q at hblank hblank'
  cases hblank with
  | ok =>
    cases hblank' with
    | ok => exact .inl ⟨_, _, rfl, rfl⟩
  | error _ hf _ =>
    cases hblank' with
    | error _ hf' _ =>
      exact .inr ⟨_, _, _, _, rfl, rfl, Fault.outline_eq (hf.trans hf'.symm)⟩

/-- The same program is lowered alike: to the same code, or with the same defect at both places. -/
theorem Program.Same.lower {p p' : Program} (h : Program.Same p p') (mode : ConstantMode)
    (st : Lowering) :
    (∃ code st', (p.lower mode).run st = .ok code st' ∧ (p'.lower mode).run st = .ok code st') ∨
      ∃ d d' st', (p.lower mode).run st = .error d st' ∧ (p'.lower mode).run st = .error d' st' ∧
        d.mapRange .blank = d'.mapRange .blank := by
  have hlower : (p.lower mode).mapRange .blank = (p'.lower mode).mapRange .blank := by
    rw [← Program.lower_mapRange, h, Program.lower_mapRange]
  cases hr : (p.lower mode).run st with
  | ok code st' =>
    rw [← Lower.mapRange_eq_ok (f := Range.blank), hlower, Lower.mapRange_eq_ok] at hr
    exact .inl ⟨code, st', rfl, hr⟩
  | error d st' =>
    have hblank := (Lower.mapRange_eq_error (f := Range.blank)).2 ⟨d, hr, rfl⟩
    rw [hlower, Lower.mapRange_eq_error] at hblank
    obtain ⟨d', hd', hd⟩ := hblank
    exact .inr ⟨d, d', st', rfl, hd', hd.symm⟩

/-- Compilations of the same program to the same code, with the same warnings, wherever the programs
stand. -/
structure Compilation.Same (c c' : Compilation) : Prop where
  program : Program.Same c.program c'.program
  bytecode : c.bytecode = c'.bytecode
  warnings : c.warnings.map (Warning.mapRange .blank) = c'.warnings.map (Warning.mapRange .blank)

/-- The same program with flat types is compiled alike. -/
theorem Session.compileProgram_matches (options : Options) {p p' : Program}
    (h : Program.Same p p') (hp : ∀ d, .declaration d ∈ p → d.ty.Flat)
    (hp' : ∀ d, .declaration d ∈ p' → d.ty.Flat) :
    Matches (fun r r' => Compilation.Same r.1 r'.1) (compileProgram { options } p)
      (compileProgram { options } p') := by
  rw [compileProgram, compileProgram]
  rcases h.check hp hp' with ⟨s, s', hs, hs'⟩ | ⟨c, c', s, s', hs, hs', hfault⟩
  · have hwarnings : s.warnings.map (Warning.mapRange .blank) =
        s'.warnings.map (Warning.mapRange .blank) := by
      rw [Program.warnings_check hs, Program.warnings_check hs']
      exact h.overflows
    have hcount : s.warnings.length = s'.warnings.length := by
      simpa using congrArg List.length hwarnings
    rw [hs, hs']
    dsimp only
    rw [hcount]
    cases options.exceeded? s'.warnings.length with
    | some failure => exact .error rfl
    | none =>
      rw [Program.generate, Program.generate, Assembly.generate, Assembly.generate]
      rcases h.lower options.constants { slots := {} } with
        ⟨code, st, hl, hl'⟩ | ⟨d, d', st, hl, hl', hd⟩
      · rw [hl, hl']
        exact .ok ⟨h, rfl, hwarnings⟩
      · rw [hl, hl']
        exact .error (congrArg Failure.internal hd)
  · rw [hs, hs']
    refine .error ?_
    rw [Failure.outline, Failure.outline, hfault]
    rfl

theorem compile_eq_bind (options : Options) (source : String) :
    compile options source = do
      let p ← Program.ofSource source
      let r ← Session.compileProgram { options } p.fold
      return r.1 := by
  rw [compile, Session.compile]
  cases Program.ofSource source with
  | error failure => rfl
  | ok p =>
    dsimp only [bind, Except.bind]
    cases Session.compileProgram { options } p.fold <;> rfl

/-- Layout does not matter. Two source texts with tokens of the same kinds, in order, are compiled
alike with any options: to the same bytecode and the same program, with the same warnings, or both
fail for the same reason; either way the answers differ in nothing but places. -/
theorem compile_matches (options : Options) {source source' : String} {ts ts' : List Token}
    (h : tokenize source = .ok ts) (h' : tokenize source' = .ok ts')
    (hkinds : ts.map Token.kind = ts'.map Token.kind) :
    Matches Compilation.Same (compile options source) (compile options source') := by
  rw [compile_eq_bind, compile_eq_bind]
  refine (Program.ofSource_matches h h' hkinds).bind_of_eq fun p p' hp hp' hsame => ?_
  refine .bind (Session.compileProgram_matches options hsame.fold
    (fun _ => Program.flat_fold_of_ofSource hp) fun _ => Program.flat_fold_of_ofSource hp') ?_
  exact fun _ _ hc => .ok hc

/-- A length stands twice in a union of types, which keeps both arrays and is stored as any value.
A comment, a line end, separators of digits and other names of the types make no difference. -/
theorem compile_matches_of_comments :
    ∃ c c', compile {} "mut a:int[1_0]|i32[10]=[1];" = .ok c ∧
      compile {} "mut a : i32[10]//\n| int[1_0]=[1];" = .ok c' ∧ Compilation.Same c c' ∧
      c'.bytecode.code = [⟨.loadArraySize, [1, 0, 0, 0], none⟩, ⟨.loadImmediate8, [1], none⟩,
        ⟨.store .any, [0, 0], some "a"⟩] := by
  have h : (tokenize "mut a:int[1_0]|i32[10]=[1];").map (List.map Token.kind) =
      .ok [.mutable, .identifier "a", .symbol .colon, .typeName (.integer .i32),
        .symbol .leftBracket, .integer 10, .symbol .rightBracket, .symbol .pipe,
        .typeName (.integer .i32), .symbol .leftBracket, .integer 10, .symbol .rightBracket,
        .symbol .equal, .symbol .leftBracket, .integer 1, .symbol .rightBracket,
        .symbol .semicolon, .eof] := by
    decide +kernel
  have h' : (tokenize "mut a : i32[10]//\n| int[1_0]=[1];").map (List.map Token.kind) =
      .ok [.mutable, .identifier "a", .symbol .colon, .typeName (.integer .i32),
        .symbol .leftBracket, .integer 10, .symbol .rightBracket, .symbol .pipe,
        .typeName (.integer .i32), .symbol .leftBracket, .integer 10, .symbol .rightBracket,
        .symbol .equal, .symbol .leftBracket, .integer 1, .symbol .rightBracket,
        .symbol .semicolon, .eof] := by
    decide +kernel
  obtain ⟨ts, hts, hkinds⟩ := map_eq_ok.1 h
  obtain ⟨ts', hts', hkinds'⟩ := map_eq_ok.1 h'
  have hmatches := compile_matches {} hts hts' (hkinds.trans hkinds'.symm)
  have hcode : (compile {} "mut a:int[1_0]|i32[10]=[1];").map (fun c => c.bytecode.code) =
      .ok [⟨.loadArraySize, [1, 0, 0, 0], none⟩, ⟨.loadImmediate8, [1], none⟩,
        ⟨.store .any, [0, 0], some "a"⟩] := by
    decide +kernel
  obtain ⟨c, hc, hcode⟩ := map_eq_ok.1 hcode
  rw [hc] at hmatches
  generalize compile {} "mut a : i32[10]//\n| int[1_0]=[1];" = r at hmatches ⊢
  cases hmatches with
  | @ok _ c' hsame =>
    refine ⟨c, c', hc, rfl, hsame, ?_⟩
    rw [← hsame.bytecode, hcode]

end StackCompiler
