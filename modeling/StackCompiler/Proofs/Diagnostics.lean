import StackCompiler.Proofs.Marking

/-!
# Diagnostics point into the text

A check complains about places of what it checks (`Program.complains_check`) and warns about
integers in it (`Program.marks_overflows`). So whatever a session says about a unit points into its
text (`Session.marks_or_isEof_of_diagnostics`). Beside the text it is shown with the line in
question, which is a line of the text as it stands between line feeds (`Text.getElem?_lines`), and
with carets below the place (`carets_underline`).
-/

namespace StackCompiler

section Checking

variable {α β : Type} {text : List Char}

/-- Whatever the check complains about is marked. -/
def Check.Complains (text : List Char) (x : Check α) : Prop :=
  ∀ s c s', x.run s = .error c s' → c.range.Marks text

namespace Check.Complains

variable {x : Check α} {f : α → Check β} {r : Range}

theorem pure (a : α) : Complains text (Pure.pure a : Check α) := by
  intro s c s' h
  cases h

theorem get : Complains text (MonadState.get : Check Checking) := by
  intro s c s' h
  cases h

theorem modify (g : Checking → Checking) : Complains text (modify g : Check PUnit) := by
  intro s c s' h
  cases h

theorem bind (hx : x.Complains text) (hf : ∀ a, (f a).Complains text) :
    (x >>= f).Complains text := by
  intro s c s' h
  rw [EStateM.run_bind] at h
  split at h
  · exact hf _ _ _ _ h
  · rename_i hx'
    cases h
    exact hx _ _ _ hx'

theorem nameFault (h : r.Marks text) (cause : NameFault) :
    (Check.nameFault r cause : Check α).Complains text := by
  rintro s c s' ⟨⟩
  exact h

theorem typeFault (h : r.Marks text) (cause : TypeFault) :
    (Check.typeFault r cause : Check α).Complains text := by
  rintro s c s' ⟨⟩
  exact h

theorem orTypeFault (h : r.Marks text) (cause : TypeFault) (o : Option α) :
    (Check.orTypeFault r cause o).Complains text := by
  cases o with
  | none => exact typeFault h cause
  | some a => exact pure a

theorem lookup {id : Ident} (h : id.range.Marks text) : (Check.lookup id).Complains text := by
  refine bind get fun s => ?_
  split
  · exact pure _
  · exact nameFault h _

theorem demand (h : r.Marks text) (expected found : Ty) :
    (Check.demand r expected found).Complains text := by
  rw [Check.demand]
  split
  · exact pure ()
  · exact typeFault h _

theorem define {id : Ident} (h : id.range.Marks text) (v : Variable) :
    (Check.define id v).Complains text := by
  refine bind get fun s => bind (modify _) fun _ => ?_
  split
  · exact pure ()
  · exact nameFault h _

theorem forM {γ : Type} {g : γ → Check Unit} : {l : List γ} → (∀ a ∈ l, (g a).Complains text) →
    (l.forM g).Complains text
  | [], _ => pure ()
  | _ :: _, h => by
    rw [List.forall_mem_cons] at h
    exact bind h.1 fun _ => forM h.2

end Check.Complains

theorem Literal.complains_check (value : Literal) (r : Range) :
    (value.check r).Complains text := by
  cases value with
  | integer n =>
    rw [Literal.check]
    split
    · exact .pure _
    · exact .bind (.modify _) fun _ => .pure _
  | float _ | string _ | char _ | null => exact .pure _

namespace Expr

open Check (Complains)

mutual

/-- A check complains about places in the expression. -/
theorem complains_check : {e : Expr} → e.Marked text → e.check.Complains text
  | literal value r, _ => value.complains_check r
  | ident id, h => by
    rw [marked_ident] at h
    rw [check]
    refine .bind (.lookup h) fun v => ?_
    split
    · exact .pure _
    · exact .typeFault h _
  | binary op l r place, h => by
    rw [marked_binary] at h
    rw [check]
    refine .bind (complains_check h.2.1) fun tl => ?_
    refine .bind (complains_check h.2.2) fun tr => ?_
    exact .orTypeFault h.1 _ _
  | unary op e place, h => by
    rw [marked_unary] at h
    rw [check]
    exact .bind (complains_check h.2) fun t => .orTypeFault h.1 _ _
  | update op leading target place, h => by
    rw [marked_update] at h
    rw [check]
    refine .bind (.lookup h.2) fun v => ?_
    split
    · exact .typeFault h.1 _
    split
    · exact .typeFault h.1 _
    split
    · exact .typeFault h.1 _
    · exact .pure _
  | assign op target value place, h => by
    rw [marked_assign] at h
    obtain ⟨⟨_, htarget⟩, hvalue⟩ := h
    have hmark : Complains text (do Check.markInitialized target.name; pure Ty.null) :=
      .bind (.modify _) fun _ => .pure _
    rw [check]
    refine .bind (.lookup htarget) fun v => ?_
    split
    · exact .typeFault htarget _
    cases op with
    | plain =>
      refine .bind (complains_check hvalue) fun t => ?_
      exact .bind (.demand hvalue.range _ _) fun _ => hmark
    | compound op =>
      dsimp only
      split
      · exact .typeFault htarget _
      refine .bind (complains_check hvalue) fun r => ?_
      refine .bind (.orTypeFault (htarget.through (.inl hvalue.range)) _ _) fun t => ?_
      exact .bind (.demand hvalue.range _ _) fun _ => hmark
  | sequence items place, h => by
    rw [marked_sequence] at h
    rw [check]
    exact .bind (complains_checkAll h.2) fun ts => .pure _
  | array items place, h => by
    rw [marked_array] at h
    rw [check]
    exact .bind (complains_checkAll h.2) fun ts => .pure _
  | index base position place, h => by
    rw [marked_index] at h
    rw [check]
    refine .bind (complains_check h.2.1) fun t => ?_
    refine .bind (.orTypeFault h.2.1.range _ _) fun element => ?_
    refine .bind (complains_check h.2.2) fun p => ?_
    split
    · exact .pure _
    · exact .typeFault h.2.2.range _

theorem complains_checkAll : {es : List Expr} → (∀ e ∈ es, e.Marked text) →
    (checkAll es).Complains text
  | [], _ => .pure _
  | _ :: _, h => by
    rw [List.forall_mem_cons] at h
    rw [checkAll]
    refine .bind (complains_check h.1) fun t => ?_
    exact .bind (complains_checkAll h.2) fun ts => .pure _

end

theorem complains_checkLength {e : Expr} (h : e.Marked text) : e.checkLength.Complains text := by
  refine .bind (complains_check h) fun t => ?_
  split
  · exact .pure _
  · exact .typeFault h.range _

end Expr

theorem Declaration.complains_check {d : Declaration} (h : d.Marked text) :
    d.check.Complains text := by
  have hnames : (d.names.forM fun id => Check.define id d.binding).Complains text :=
    .forM fun id hid => .define (h.names id hid) _
  have hinitializer := h.initializer
  rw [Declaration.check]
  refine .bind (.forM fun e he => Expr.complains_checkLength (h.ty e he)) fun _ => ?_
  unfold binding at hnames
  cases hi : d.initializer with
  | none =>
    rw [hi] at hnames
    exact hnames
  | some e =>
    rw [hi] at hnames hinitializer
    have he := hinitializer e rfl
    refine .bind (Expr.complains_check he) fun t => ?_
    exact .bind (.demand he.range _ _) fun _ => hnames

/-- A check complains about places in the program. -/
theorem Program.complains_check {p : Program} (h : ∀ stmt ∈ p, stmt.Marked text) :
    p.check.Complains text := by
  refine .forM fun stmt hstmt => ?_
  cases stmt with
  | expression e => exact .bind (Expr.complains_check (h _ hstmt)) fun _ => .pure _
  | declaration d => exact Declaration.complains_check (h _ hstmt)

theorem Statement.Marked.mem {stmt : Statement} (h : stmt.Marked text) :
    ∀ e ∈ stmt.lengths ++ stmt.evaluated, e.Marked text := by
  cases stmt with
  | expression e => exact List.forall_mem_singleton.2 h
  | declaration d =>
    refine List.forall_mem_append.2 ⟨h.ty, fun e he => ?_⟩
    exact h.initializer e (Option.mem_toList.1 he)

/-- The integers that a check warns about are marked. -/
theorem Program.marks_overflows {p : Program} (h : ∀ stmt ∈ p, stmt.Marked text) :
    ∀ w ∈ p.overflows, w.range.Marks text := by
  intro w hw
  obtain ⟨stmt, hstmt, hw⟩ := List.mem_flatMap.1 hw
  obtain ⟨n, hn, hw⟩ := List.mem_filterMap.1 hw
  obtain ⟨e, he, hn⟩ := List.mem_flatMap.1 hn
  have hroot := (h stmt hstmt).mem e he n hn
  unfold Expr.overflow? at hw
  split at hw
  · split at hw
    · cases hw
      exact hroot
    · cases hw
  · cases hw

end Checking

namespace Session

/-- What a reader of the file is told about a unit: the warnings, if it is compiled, and otherwise
the mistake in it, if there is one. -/
def diagnostics (s : Session) (file source : String) : List Diagnostic :=
  match (s.compile source).1 with
  | .ok c => c.warnings.map (Warning.diagnostic file)
  | .error failure => (failure.diagnostic? file).toList

variable {s s' : Session} {p : Program} {text : List Char}

/-- Warnings about a program of marked statements are marked. -/
theorem marks_warnings {c : Compilation} (h : ∀ stmt ∈ p, stmt.Marked text)
    (hc : s.compileProgram p = .ok (c, s')) : ∀ w ∈ c.warnings, w.range.Marks text := by
  obtain ⟨checked, code, st, hchecked, _, rfl, _⟩ := compileProgram_eq_ok hc
  dsimp only
  rw [Program.warnings_check hchecked]
  exact Program.marks_overflows h

/-- A program of marked statements is refused at a marked place. -/
theorem marks_refused {c : Complaint} (h : ∀ stmt ∈ p, stmt.Marked text)
    (hc : s.compileProgram p = .error (.refused c)) : c.range.Marks text := by
  rw [compileProgram] at hc
  split at hc
  · rename_i complaint s' hcheck
    cases hc
    exact Program.complains_check h _ _ _ hcheck
  · split at hc
    · rename_i failure hf
      cases hc
      rw [Options.exceeded?] at hf
      split at hf
      · split at hf <;> cases hf
      · cases hf
    · split at hc <;> cases hc

end Session

/-- The range is that of the end of the text among the tokens of the text. -/
def Range.IsEof (source : String) (r : Range) : Prop :=
  ∃ ts stop, tokenize source = .ok ts ∧ stop ∈ ts ∧ stop.kind = .eof ∧ r = stop.range

/-- A source text is refused at a place that it marks or at its end. -/
theorem Program.marks_or_isEof_of_ofSource {source : String} {c : Complaint}
    (h : Program.ofSource source = .error (.refused c)) :
    c.range.Marks source.toList ∨ c.range.IsEof source := by
  have hpoints := Program.ofSource_pinpoints source
  rw [h] at hpoints
  rcases hpoints with hmarks | hend
  · exact .inl hmarks
  rw [Program.ofSource] at h
  split at h
  · rename_i ts hts
    have htiling : Tiling [] source.toList ts := .of_scan hts
    obtain ⟨us, r, rfl, _, hr⟩ := htiling.exists_eof
    have hr' := hr.eq (Cursor.locates_span List.not_mem_nil source.toList [])
    refine .inr ⟨_, _, hts, List.mem_append_right us List.mem_cons_self, rfl, ?_⟩
    rw [hend, ← hr']
  · rename_i complaint hc
    cases h
    have hmarks : c.range.Marks ([] ++ source.toList) := scan_marks hc
    exact .inl hmarks

/-- Whatever a session says about a unit marks some of its text, or is said at the end of the
text. -/
theorem Session.marks_or_isEof_of_diagnostics {s : Session} {file source : String} {d : Diagnostic}
    (h : d ∈ s.diagnostics file source) :
    d.range.Marks source.toList ∨ d.range.IsEof source := by
  rw [diagnostics, compile] at h
  cases hp : Program.ofSource source with
  | error failure =>
    rw [hp] at h
    cases failure with
    | refused c =>
      rw [List.mem_singleton.1 h]
      exact Program.marks_or_isEof_of_ofSource hp
    | internal _ | tooManyWarnings _ _ => cases h
  | ok p =>
    have hmarked : ∀ stmt ∈ p.fold, stmt.Marked source.toList := by
      have hpinpoints := Program.ofSource_pinpoints source
      rw [hp] at hpinpoints
      exact List.forall_mem_map.2 fun stmt hstmt => (hpinpoints stmt hstmt).fold
    rw [hp] at h
    dsimp only at h
    cases hc : s.compileProgram p.fold with
    | error failure =>
      rw [hc] at h
      cases failure with
      | refused c =>
        rw [List.mem_singleton.1 h]
        exact .inl (marks_refused hmarked hc)
      | internal _ | tooManyWarnings _ _ => cases h
    | ok answer =>
      obtain ⟨c, s'⟩ := answer
      rw [hc] at h
      obtain ⟨w, hw, rfl⟩ := List.mem_map.1 h
      exact .inl (marks_warnings hmarked hc w hw)

/-! ## What is shown of the text -/

namespace Text

theorem linesFrom_of_notMem {l : List Char} (h : '\n' ∉ l) (backwards : List Char) :
    linesFrom backwards l =
      if backwards.reverse ++ l = [] then [] else [backwards.reverse ++ l] := by
  induction l generalizing backwards with
  | nil => cases backwards <;> simp [linesFrom]
  | cons c l ih =>
    rw [List.mem_cons, not_or] at h
    rw [linesFrom, if_neg (Ne.symm h.1), ih h.2, List.reverse_cons, List.append_assoc]
    rfl

theorem linesFrom_append {l : List Char} (h : '\n' ∉ l) (backwards rest : List Char) :
    linesFrom backwards (l ++ '\n' :: rest) =
      closeLine (backwards.reverse ++ l).reverse :: lines rest := by
  induction l generalizing backwards with
  | nil =>
    rw [List.nil_append, linesFrom, if_pos rfl, List.append_nil, List.reverse_reverse]
    rfl
  | cons c l ih =>
    rw [List.mem_cons, not_or] at h
    rw [List.cons_append, linesFrom, if_neg (Ne.symm h.1), ih h.2, List.reverse_cons,
      List.append_assoc]
    rfl

theorem lines_of_notMem {text : List Char} (h : '\n' ∉ text) :
    lines text = if text = [] then [] else [text] :=
  linesFrom_of_notMem h []

theorem lines_append {l : List Char} (h : '\n' ∉ l) (rest : List Char) :
    lines (l ++ '\n' :: rest) = closeLine l.reverse :: lines rest :=
  linesFrom_append h [] rest

/-- The lines of a text are its parts between line feeds; a line feed takes a carriage return
before it along, and after the last one there is a line only if text follows. -/
theorem getElem?_lines {text l : List Char} {i : Nat} (h : (text.splitOn '\n')[i]? = some l) :
    (lines text)[i]? =
      if i < text.count '\n' then some (closeLine l.reverse)
      else if l = [] then none else some l := by
  induction i generalizing text with
  | zero =>
    rcases firstLine_cases text with htext | ⟨first, rest, rfl, hfirst⟩
    · rw [List.splitOn_eq_singleton htext] at h
      cases h
      rw [lines_of_notMem htext, List.count_eq_zero_of_not_mem htext, if_neg (Nat.lt_irrefl 0)]
      split_ifs <;> rfl
    · rw [List.splitOn_append_cons_self_of_not_mem hfirst] at h
      cases h
      rw [lines_append hfirst, List.count_append, List.count_cons_self, if_pos (by omega)]
      rfl
  | succ i ih =>
    rcases firstLine_cases text with htext | ⟨first, rest, rfl, hfirst⟩
    · rw [List.splitOn_eq_singleton htext] at h
      cases h
    · rw [List.splitOn_append_cons_self_of_not_mem hfirst, List.getElem?_cons_succ] at h
      rw [lines_append hfirst, List.getElem?_cons_succ, ih h, List.count_append,
        List.count_eq_zero_of_not_mem hfirst, List.count_cons_self]
      simp only [Nat.zero_add, Nat.add_lt_add_iff_right]

/-- What is seen of the line `l`, which has the number `line` in the text: all of it, but for a
carriage return before the line feed. -/
def Visible (text : List Char) (line : Nat) (l shown : List Char) : Prop :=
  if line ≤ text.count '\n' ∧ ['\r'] <:+ l then l = shown ++ ['\r'] else l = shown

theorem closeLine_reverse_of_suffix {l : List Char} (h : ['\r'] <:+ l) :
    l = closeLine l.reverse ++ ['\r'] := by
  obtain ⟨shown, rfl⟩ := h
  rw [List.reverse_append]
  change _ = shown.reverse.reverse ++ _
  rw [List.reverse_reverse]

theorem closeLine_reverse {l : List Char} (h : ¬ ['\r'] <:+ l) : closeLine l.reverse = l := by
  unfold closeLine
  split
  · rename_i backwards hl
    refine absurd ⟨backwards.reverse, ?_⟩ h
    rw [← List.reverse_reverse l, hl, List.reverse_cons]
  · exact List.reverse_reverse l

/-- What a reader is shown of a line is what can be seen of it; nothing is shown of the end of a
text behind its last line feed. -/
theorem visible_of_lines {text l : List Char} {line : Nat} (hline : 1 ≤ line)
    (h : (text.splitOn '\n')[line - 1]? = some l) :
    (l = [] ∧ line = text.count '\n' + 1 ∧ (lines text)[line - 1]? = none) ∨
      ∃ shown, Visible text line l shown ∧ (lines text)[line - 1]? = some shown := by
  have hcount : line - 1 < text.count '\n' + 1 := by
    rw [← length_splitOn]
    exact (List.getElem?_eq_some_iff.1 h).1
  rw [getElem?_lines h]
  by_cases hlast : line ≤ text.count '\n'
  · refine .inr ⟨closeLine l.reverse, ?_, if_pos (by omega)⟩
    rw [Visible]
    split_ifs with hr
    · exact closeLine_reverse_of_suffix hr.2
    · exact (closeLine_reverse fun hsuffix => hr ⟨hlast, hsuffix⟩).symm
  · rw [if_neg (by omega)]
    by_cases hl : l = []
    · exact .inl ⟨hl, by omega, if_pos hl⟩
    · refine .inr ⟨l, ?_, if_neg hl⟩
      rw [Visible, if_neg fun hr => hlast hr.1]

end Text

/-- The marks below a line that is shown: blanks before the column `start`, with the tabs of the
line kept, and from there a caret for each column before `stop`, at least one. The columns count as
far as the line reaches. -/
structure Carets (shown : List Char) (start stop : Nat) (marks : List Char) : Prop where
  before : ∀ i < min start shown.length,
    marks[i]? = some (if shown[i]? = some '\t' then '\t' else ' ')
  carets : ∀ i, min start shown.length ≤ i → i < marks.length → marks[i]? = some '^'
  length : marks.length = min start shown.length +
    max 1 (min stop shown.length - min start shown.length)

theorem carets_underline (shown : List Char) (start stop : Nat) :
    Carets shown start stop (underline shown start stop) := by
  have hindent : ((shown.take (min start shown.length)).map
      fun c => if c = '\t' then '\t' else ' ').length = min start shown.length := by
    rw [List.length_map, List.length_take, Nat.min_eq_left (Nat.min_le_right _ _)]
  unfold underline
  refine ⟨fun i hi => ?_, fun i hi hlength => ?_, ?_⟩
  · have hget : shown[i]? = some (shown.get ⟨i, by omega⟩) := List.getElem?_eq_getElem _
    rw [List.getElem?_append_left (by omega), List.getElem?_map, List.getElem?_take_of_lt hi, hget]
    simp
  · rw [List.length_append, hindent, List.length_replicate] at hlength
    rw [List.getElem?_append_right (by omega), hindent, List.getElem?_replicate,
      if_pos (by omega)]
  · rw [List.length_append, hindent, List.length_replicate, Nat.max_comm]

namespace Diagnostic

/-- Blanks as wide as the number of the line. -/
def gutter (d : Diagnostic) : String :=
  String.ofList (List.replicate (toString d.range.line).length ' ')

/-- The diagnostic with the lines of an excerpt in it. -/
def around (d : Diagnostic) (excerpt : List String) : String :=
  String.join (([d.category.text ++ ": " ++ d.message,
    d.gutter ++ "--> " ++ d.range.location d.file] ++ excerpt ++
    (d.hint.map (d.gutter ++ " = hint: " ++ ·)).toList).map (· ++ "\n"))

/-- A line of the source with marks below. -/
def excerpt (d : Diagnostic) (shown marks : List Char) : List String :=
  [d.gutter ++ " |", toString d.range.line ++ " | " ++ String.ofList shown,
    d.gutter ++ " | " ++ String.ofList marks]

theorem render_eq (d : Diagnostic) (source : String) :
    d.render source = d.around ((Text.lines source.toList)[d.range.line - 1]?.elim []
      fun shown => d.excerpt shown (underline shown d.range.start d.range.stop)) := by
  rw [render, renderLines, around]
  cases (Text.lines source.toList)[d.range.line - 1]? <;> cases d.hint <;> rfl

end Diagnostic

/-- Every diagnostic points into the source text. Whatever a session says about a unit is said
about a stretch of one line of its text, which is empty only if it stands where the end of the text
does. It is shown with that line, less a carriage return before the line feed, and with carets below
the stretch; no line is shown only if it is the last one and empty. -/
theorem Session.diagnostics_point_into_source (s : Session) (file source : String) {d : Diagnostic}
    (hd : d ∈ s.diagnostics file source) :
    1 ≤ d.range.line ∧ d.range.line ≤ source.toList.count '\n' + 1 ∧
    d.range.start ≤ d.range.stop ∧ (d.range.start < d.range.stop ∨ d.range.IsEof source) ∧
    ∃ l, (source.toList.splitOn '\n')[d.range.line - 1]? = some l ∧ d.range.stop ≤ l.length ∧
      (l = [] ∧ d.range.line = source.toList.count '\n' + 1 ∧ d.render source = d.around [] ∨
        ∃ shown marks, Text.Visible source.toList d.range.line l shown ∧
          Carets shown d.range.start d.range.stop marks ∧
          d.render source = d.around (d.excerpt shown marks)) := by
  have hplace := marks_or_isEof_of_diagnostics hd
  have hwithin : d.range.Within source.toList := by
    rcases hplace with hmarks | ⟨ts, stop, hts, hmem, _, hrange⟩
    · exact hmarks.within
    · have htiling : Tiling [] source.toList ts := .of_scan hts
      rw [hrange]
      exact (htiling.stands stop hmem).points.within
  obtain ⟨l, hl, hstop⟩ := hwithin.stop
  have hcount : d.range.line - 1 < source.toList.count '\n' + 1 := by
    rw [← length_splitOn]
    exact (List.getElem?_eq_some_iff.1 hl).1
  refine ⟨hwithin.line, by omega, hwithin.start, hplace.imp_left Range.Marks.lt, l, hl, hstop, ?_⟩
  rw [Diagnostic.render_eq]
  rcases Text.visible_of_lines hwithin.line hl with ⟨hnil, hlast, hnone⟩ | ⟨shown, hshown, hsome⟩
  · rw [hnone]
    exact .inl ⟨hnil, hlast, rfl⟩
  · rw [hsome]
    exact .inr ⟨shown, _, hshown, carets_underline shown _ _, rfl⟩

/-- A value that does not suit its variable, on a line that starts with a tab and ends with a
carriage return. -/
theorem Session.diagnostics_point_into_source_tab :
    ∃ d ∈ ({} : Session).diagnostics "m" "mut a: int;\n\ta = \"é\";\r\n",
      d.range = ⟨2, 5, 8⟩ ∧ ∃ shown marks,
        Text.Visible "mut a: int;\n\ta = \"é\";\r\n".toList 2 "\ta = \"é\";\r".toList shown ∧
        Carets shown 5 8 marks ∧
        d.render "mut a: int;\n\ta = \"é\";\r\n" = d.around (d.excerpt shown marks) := by
  have h : (({} : Session).compile "mut a: int;\n\ta = \"é\";\r\n").1 =
      .error (.refused ⟨⟨2, 5, 8⟩, .type (.mismatch (.integer .i32) .string)⟩) := by
    decide +kernel
  have hd : Complaint.diagnostic "m" ⟨⟨2, 5, 8⟩, .type (.mismatch (.integer .i32) .string)⟩ ∈
      ({} : Session).diagnostics "m" "mut a: int;\n\ta = \"é\";\r\n" := by
    rw [diagnostics, h]
    exact List.mem_singleton_self _
  obtain ⟨_, _, _, _, l, hl, hstop, hshown⟩ := diagnostics_point_into_source _ _ _ hd
  have hline : ("mut a: int;\n\ta = \"é\";\r\n".toList.splitOn '\n')[1]? =
      some "\ta = \"é\";\r".toList := by
    decide +kernel
  cases hl.symm.trans hline
  refine ⟨_, hd, rfl, hshown.resolve_left fun hnil => ?_⟩
  exact absurd hnil.1 (by decide)

end StackCompiler
