import StackCompiler.Proofs.Layout

/-!
# Ranges mark the text that they are read from

A range marks some of a text (`Range.Marks`) if it is a stretch of one of its lines with a
character in it; it points into the text (`Range.Points`) if it marks some of it or stands after
all of it. Tokens stand in the text that they are cut from (`Tiling.stands`), whatever a reader
makes of such tokens has ranges that mark some of the text, and a reader refuses tokens at a place
in it (`Program.parse_pinpoints`).
-/

namespace StackCompiler

namespace Range

/-- The range is a stretch of one line of the text. -/
structure Within (text : List Char) (r : Range) : Prop where
  line : 1 ≤ r.line
  start : r.start ≤ r.stop
  stop : ∃ l, (text.splitOn '\n')[r.line - 1]? = some l ∧ r.stop ≤ l.length

/-- The range is a stretch of one line of the text, with a character in it. -/
structure Marks (text : List Char) (r : Range) : Prop where
  within : r.Within text
  lt : r.start < r.stop

/-- The range marks some of the text, or is the place after all of it. -/
def Points (text : List Char) (r : Range) : Prop :=
  r.Marks text ∨ r = (Cursor.origin.advance text).span []

variable {text : List Char} {a b r : Range}

theorem Locates.within {before lexeme after : List Char} (h : r.Locates before lexeme after) :
    r.Within (before ++ (lexeme ++ after)) := by
  obtain ⟨l, hl, hstop, _⟩ := h.shown
  refine ⟨?_, ?_, l, hl, hstop⟩
  · rw [h.line]
    omega
  · rw [h.stop]
    omega

theorem Locates.marks {before lexeme after : List Char} (h : r.Locates before lexeme after)
    (hlexeme : lexeme ≠ []) : r.Marks (before ++ (lexeme ++ after)) := by
  refine ⟨h.within, ?_⟩
  have hlength := List.length_pos_iff.2 hlexeme
  rw [h.stop]
  omega

/-- A text stands at one place. -/
theorem Locates.eq {before lexeme after after' : List Char} (ha : a.Locates before lexeme after)
    (hb : b.Locates before lexeme after') : a = b := by
  have hstart := ha.start.trans hb.start.symm
  have hstop : a.stop = b.stop := by rw [ha.stop, hb.stop, hstart]
  cases a
  cases b
  rw [Range.mk.injEq]
  exact ⟨ha.line.trans hb.line.symm, hstart, hstop⟩

theorem Points.within (h : r.Points text) : r.Within text := by
  rcases h with h | rfl
  · exact h.within
  · have hwithin := (Cursor.locates_span List.not_mem_nil text []).within
    rwa [List.append_nil, List.append_nil] at hwithin

theorem Within.through (ha : a.Within text) (hb : b.Within text) : (a.through b).Within text := by
  obtain ⟨l, hl, hal⟩ := ha.stop
  obtain ⟨l', hl', hbl⟩ := hb.stop
  have hstart := ha.start
  rw [Range.through]
  split_ifs with hline
  · rw [hline, hl, Option.some.injEq] at hl'
    subst hl'
    exact ⟨ha.line, Nat.le_trans hstart (Nat.le_max_right _ _), l, hl, Nat.max_le.2 ⟨hbl, hal⟩⟩
  · exact ha

/-- From a marked place on, the range to any other place marks some of the text. -/
theorem Marks.through (ha : a.Marks text) (hb : b.Points text) : (a.through b).Marks text := by
  refine ⟨ha.within.through hb.within, ?_⟩
  have hlt := ha.lt
  rw [Range.through]
  split_ifs
  · exact Nat.lt_of_lt_of_le hlt (Nat.le_max_right _ _)
  · exact hlt

end Range

section Lexical

/-- What starts with a character that ends no line is marked by its span. -/
theorem Cursor.marks_span (before l after : List Char) {c : Char} (hc : c ≠ '\n') :
    ((Cursor.origin.advance before).span (c :: l)).Marks (before ++ (c :: l ++ after)) := by
  rcases firstLine_cases (c :: l) with hl | ⟨first, rest, hfirst, hmem⟩
  · exact (Cursor.locates_span hl before after).marks (List.cons_ne_nil c l)
  · -- The text goes on to another line, and is shown by its first column alone.
    have hline : ((Cursor.origin.advance before).advance (c :: l)).line ≠
        (Cursor.origin.advance before).line := by
      rw [← Cursor.advance_append, Cursor.advance_origin, Cursor.advance_origin, List.count_append,
        hfirst, List.count_append, List.count_cons_self]
      dsimp only
      omega
    rw [Cursor.span, if_neg hline, Cursor.advance_origin]
    refine ⟨⟨?_, ?_, _, getElem?_splitOn_append before (c :: l ++ after), ?_⟩, ?_⟩
    · exact Nat.le_add_left 1 _
    · exact Nat.le_succ _
    · rw [List.cons_append, List.takeWhile_cons_of_pos (by simpa using hc), List.length_append,
        List.length_cons]
      dsimp only
      omega
    · exact Nat.lt_succ_self _

/-- A fault of characters is marked. -/
theorem scan_marks {before text : List Char} {c : Complaint}
    (h : scan (Cursor.origin.advance before) text = .error c) :
    c.range.Marks (before ++ text) := by
  generalize hhere : Cursor.origin.advance before = here at h
  fun_induction scan here text generalizing before with
  | case1 here => cases h
  | case2 here c cs piece text =>
    rename_i hgap ih
    have hafter : Cursor.origin.advance (before ++ text) = here.advance text := by
      rw [Cursor.advance_append, hhere]
    have hmarks := ih hafter h
    rwa [List.append_assoc, List.cons_append, List.take_append_drop] at hmarks
  | case3 here c cs piece text kind =>
    rename_i hkind ih
    have hafter : Cursor.origin.advance (before ++ text) = here.advance text := by
      rw [Cursor.advance_append, hhere]
    cases hscan : scan (here.advance text) (cs.drop piece.2) with
    | ok tokens =>
      rw [hscan] at h
      cases h
    | error complaint =>
      rw [hscan] at h
      cases h
      have hmarks := ih hafter hscan
      rwa [List.append_assoc, List.cons_append, List.take_append_drop] at hmarks
  | case4 here c cs piece text cause =>
    rename_i hfault
    cases h
    have hc : c ≠ '\n' := by
      rintro rfl
      cases hfault
    have hmarks := Cursor.marks_span before (cs.take piece.2) (cs.drop piece.2) hc
    rwa [List.cons_append, List.take_append_drop, hhere] at hmarks

/-- The token stands in the text: it marks some of it, unless it is the end of the text. -/
structure Token.Stands (text : List Char) (t : Token) : Prop where
  points : t.range.Points text
  marks : t.kind ≠ .eof → t.range.Marks text

/-- The tokens that tile a text stand in it. -/
theorem Tiling.stands {before text : List Char} {ts : List Token} (h : Tiling before text ts) :
    ∀ t ∈ ts, t.Stands (before ++ text) := by
  induction h with
  | @last before g r hg hr =>
    have hr' := hr.eq (Cursor.locates_span List.not_mem_nil (before ++ g) [])
    exact List.forall_mem_singleton.2 ⟨.inr hr', fun hk => absurd rfl hk⟩
  | @cons before g lexeme rest kind r ts hg hl hr _ ih =>
    have hmarks := hr.marks hl.ne_nil
    rw [List.append_assoc] at hmarks
    refine List.forall_mem_cons.2 ⟨⟨.inl hmarks, fun _ => hmarks⟩, fun t ht => ?_⟩
    have hstands := ih t ht
    rwa [List.append_assoc, List.append_assoc] at hstands

end Lexical

/-! ## Readers -/

namespace Expr

variable {text : List Char} {l r e : Expr} {place : Range}

/-- The ranges of the outermost node, its own and that of the name it uses, mark some of the
text. -/
def RootMarked (text : List Char) : Expr → Prop
  | ident id => id.range.Marks text
  | update _ _ target place | assign _ target _ place =>
    place.Marks text ∧ target.range.Marks text
  | literal _ place | binary _ _ _ place | unary _ _ place | sequence _ place | array _ place
  | index _ _ place => place.Marks text

/-- Every range in the tree marks some of the text. -/
def Marked (text : List Char) (e : Expr) : Prop :=
  ∀ n ∈ e.nodes, n.RootMarked text

theorem marked_literal {value : Literal} :
    (literal value place).Marked text ↔ place.Marks text :=
  List.forall_mem_singleton

theorem marked_ident {id : Ident} : (ident id).Marked text ↔ id.range.Marks text :=
  List.forall_mem_singleton

theorem marked_update {op : UpdateOp} {leading : Bool} {target : Ident} :
    (update op leading target place).Marked text ↔
      place.Marks text ∧ target.range.Marks text :=
  List.forall_mem_singleton

theorem marked_unary {op : UnaryOp} :
    (unary op e place).Marked text ↔ place.Marks text ∧ e.Marked text :=
  forall_mem_nodes_unary

theorem marked_assign {op : AssignOp} {target : Ident} :
    (assign op target e place).Marked text ↔
      (place.Marks text ∧ target.range.Marks text) ∧ e.Marked text :=
  forall_mem_nodes_assign

theorem marked_binary {op : BinaryOp} :
    (binary op l r place).Marked text ↔ place.Marks text ∧ l.Marked text ∧ r.Marked text :=
  forall_mem_nodes_binary

theorem marked_index :
    (index l r place).Marked text ↔ place.Marks text ∧ l.Marked text ∧ r.Marked text :=
  forall_mem_nodes_index

theorem marked_sequence {items : List Expr} :
    (sequence items place).Marked text ↔
      place.Marks text ∧ ∀ item ∈ items, item.Marked text :=
  forall_mem_nodes_sequence

theorem marked_array {items : List Expr} :
    (array items place).Marked text ↔
      place.Marks text ∧ ∀ item ∈ items, item.Marked text :=
  forall_mem_nodes_array

theorem Marked.range (h : e.Marked text) : e.range.Marks text := by
  have hroot : e.RootMarked text := by
    cases e <;> exact h _ List.mem_cons_self
  cases e with
  | update | assign => exact hroot.1
  | literal | ident | binary | unary | sequence | array | index => exact hroot

theorem Marked.followedBy (hl : l.Marked text) (hr : r.Marked text) :
    (followedBy l r).Marked text := by
  have hplace := hl.range.through (.inl hr.range)
  unfold Expr.followedBy
  split
  · rename_i items place
    rw [marked_sequence] at hl ⊢
    refine ⟨hplace, fun item hitem => ?_⟩
    rcases List.mem_append.1 hitem with hitem | hitem
    · exact hl.2 item hitem
    · rw [List.mem_singleton.1 hitem]
      exact hr
  · exact marked_sequence.2 ⟨hplace, List.forall_mem_cons.2 ⟨hl, List.forall_mem_singleton.2 hr⟩⟩

/-- Constants take the range of what they stand for. -/
theorem RootMarked.fold (h : e.RootMarked text) : e.fold.RootMarked text := by
  cases e with
  | binary op l r place =>
    rcases fold_binary op l r place with ⟨_, _, _, _, _, _, _, _, hf⟩ | ⟨_, hf⟩
    · rw [hf]
      exact h
    · rw [hf]
      exact h
  | literal | ident | unary | update | assign | sequence | array | index => exact h

theorem Marked.fold (h : e.Marked text) : e.fold.Marked text :=
  forall_mem_nodes_fold fun n hn => (h n hn).fold

end Expr

section Reading

variable {α β : Type} {n m : Nat} {text : List Char}

/-- A value that is read fits `V`, and the tokens left stand in the text; tokens are refused at a
place in the text. -/
def Pinpoints (text : List Char) (V : α → Prop) : Except Failure (Parsed α n) → Prop
  | .ok p => V p.value ∧ ∀ t ∈ p.rest, t.Stands text
  | .error (.refused c) => c.range.Points text
  | .error _ => True

namespace Pinpoints

variable {V : α → Prop} {W : β → Prop}

theorem refuse {r : Range} (h : r.Points text) (cause : GrammarFault) :
    Pinpoints text V (StackCompiler.refuse r cause : Except Failure (Parsed α n)) :=
  h

theorem endOfTokens :
    Pinpoints text V (.error (.internal .endOfTokens) : Except Failure (Parsed α n)) :=
  trivial

theorem read {a : α} {rest : List Token} {lt : rest.length < n} (ha : V a)
    (hrest : ∀ t ∈ rest, t.Stands text) :
    Pinpoints text V (.ok ⟨a, rest, lt⟩ : Except Failure (Parsed α n)) :=
  ⟨ha, hrest⟩

/-- One reader after another. -/
theorem bind {r : Except Failure (Parsed α n)} {f : Parsed α n → Except Failure (Parsed β m)}
    (h : Pinpoints text V r)
    (hf : ∀ a rest lt, V a → (∀ t ∈ rest, t.Stands text) → Pinpoints text W (f ⟨a, rest, lt⟩)) :
    Pinpoints text W (r >>= f) := by
  match r with
  | .ok ⟨a, rest, lt⟩ => exact hf a rest lt h.1 h.2
  | .error (.refused _) => exact h
  | .error (.internal _) | .error (.tooManyWarnings _ _) => trivial

/-- A reader that looks at the first token before it goes on. -/
theorem peek {ts : List Token} {f : Token → Except Failure (Parsed α n)}
    (hts : ∀ t ∈ ts, t.Stands text) (hf : ∀ t, t.Stands text → Pinpoints text V (f t)) :
    Pinpoints text V (StackCompiler.peek ts >>= f) := by
  match ts with
  | [] => exact endOfTokens
  | t :: _ => exact hf t (hts t List.mem_cons_self)

theorem expect (s : Symbol) {ts : List Token} (hts : ∀ t ∈ ts, t.Stands text) :
    Pinpoints text (fun t : Token => t.range.Marks text) (StackCompiler.expect s ts) := by
  match ts with
  | [] => exact endOfTokens
  | t :: ts =>
    rw [List.forall_mem_cons] at hts
    rw [StackCompiler.expect]
    split
    · rename_i hk
      exact read (hts.1.marks (by simp [hk])) hts.2
    · exact refuse hts.1.points _

end Pinpoints

end Reading

namespace Expr

variable {text : List Char}

mutual

theorem parse_pinpoints (floor : Nat) (ts : List Token) (hts : ∀ t ∈ ts, t.Stands text) :
    Pinpoints text (Marked text) (parse floor ts) := by
  rw [parse]
  refine Pinpoints.bind (parseOperand_pinpoints ts hts) fun left rest lt hleft hrest => ?_
  refine Pinpoints.bind (parseRest_pinpoints floor left rest hleft hrest)
    fun e rest' lt' he hrest' => ?_
  exact Pinpoints.read he hrest'
termination_by (ts.length, 3)
decreasing_by all_goals decreasing_with omega

theorem parseOperand_pinpoints : (ts : List Token) → (∀ t ∈ ts, t.Stands text) →
    Pinpoints text (Marked text) (parseOperand ts)
  | [], _ => by rw [parseOperand]; exact Pinpoints.endOfTokens
  | t :: ts, h => by
    obtain ⟨ht, hts⟩ := List.forall_mem_cons.1 h
    rw [parseOperand]
    split
    · rename_i value hv
      refine Pinpoints.read (marked_literal.2 (ht.marks fun he => ?_)) hts
      simp [Token.literal?, he] at hv
    split
    · rename_i name hn
      exact Pinpoints.read (marked_ident.2 (ht.marks (by simp [hn]))) hts
    · rename_i hk
      have hmarks := ht.marks (by simp [hk])
      refine Pinpoints.peek hts fun after hafter => ?_
      split
      · exact Pinpoints.refuse (.inl (hmarks.through hafter.points)) _
      refine Pinpoints.bind (parse_pinpoints 0 ts hts) fun inner rest lt hinner hrest => ?_
      refine Pinpoints.bind (Pinpoints.expect _ hrest) fun close rest' lt' _ hrest' => ?_
      exact Pinpoints.read hinner hrest'
    · rename_i hk
      have hmarks := ht.marks (by simp [hk])
      refine Pinpoints.bind (parseItems_pinpoints ts hts) fun items rest lt hitems hrest => ?_
      refine Pinpoints.bind (Pinpoints.expect _ hrest) fun close rest' lt' hclose hrest' => ?_
      exact Pinpoints.read (marked_array.2 ⟨hmarks.through (.inl hclose), hitems⟩) hrest'
    · rename_i s _ _ hk
      have hmarks := ht.marks (by simp [hk])
      split
      · refine Pinpoints.bind (parse_pinpoints 14 ts hts) fun operand rest lt hoperand hrest => ?_
        dsimp only
        split
        · rw [marked_ident] at hoperand
          exact Pinpoints.read (marked_update.2 ⟨hmarks.through (.inl hoperand), hoperand⟩) hrest
        · exact Pinpoints.refuse (.inl hoperand.range) _
      · refine Pinpoints.bind (parse_pinpoints 14 ts hts) fun operand rest lt hoperand hrest => ?_
        exact Pinpoints.read
          (marked_unary.2 ⟨hmarks.through (.inl hoperand.range), hoperand⟩) hrest
      · exact Pinpoints.refuse ht.points _
    · exact Pinpoints.refuse ht.points _
termination_by ts => (ts.length, 2)
decreasing_by all_goals decreasing_with omega

theorem parseItems_pinpoints (ts : List Token) (hts : ∀ t ∈ ts, t.Stands text) :
    Pinpoints text (fun items => ∀ item ∈ items, Marked text item) (parseItems ts) := by
  rw [parseItems]
  refine Pinpoints.peek hts fun t _ => ?_
  split
  · exact Pinpoints.read (List.forall_mem_nil _) hts
  refine Pinpoints.bind (parse_pinpoints 1 ts hts) fun item rest lt hitem hrest => ?_
  refine Pinpoints.bind (parseMoreItems_pinpoints rest hrest)
    fun items rest' lt' hitems hrest' => ?_
  exact Pinpoints.read (List.forall_mem_cons.2 ⟨hitem, hitems⟩) hrest'
termination_by (ts.length, 4)
decreasing_by all_goals decreasing_with omega

theorem parseMoreItems_pinpoints : (ts : List Token) → (∀ t ∈ ts, t.Stands text) →
    Pinpoints text (fun items => ∀ item ∈ items, Marked text item) (parseMoreItems ts)
  | [], _ => by rw [parseMoreItems]; exact Pinpoints.endOfTokens
  | t :: ts, h => by
    obtain ⟨_, hts⟩ := List.forall_mem_cons.1 h
    rw [parseMoreItems]
    split
    · refine Pinpoints.bind (parse_pinpoints 1 ts hts) fun item rest lt hitem hrest => ?_
      refine Pinpoints.bind (parseMoreItems_pinpoints rest hrest)
        fun items rest' lt' hitems hrest' => ?_
      exact Pinpoints.read (List.forall_mem_cons.2 ⟨hitem, hitems⟩) hrest'
    · exact Pinpoints.read (List.forall_mem_nil _) h
termination_by ts => (ts.length, 0)
decreasing_by all_goals decreasing_with omega

theorem parseRest_pinpoints (floor : Nat) (left : Expr) : (ts : List Token) →
    left.Marked text → (∀ t ∈ ts, t.Stands text) →
      Pinpoints text (Marked text) (parseRest floor left ts)
  | [], _, _ => by rw [parseRest]; exact Pinpoints.endOfTokens
  | t :: ts, hleft, h => by
    obtain ⟨ht, hts⟩ := List.forall_mem_cons.1 h
    rw [parseRest]
    split
    · exact Pinpoints.read hleft h
    rename_i c hc
    split
    · exact Pinpoints.read hleft h
    have hmarks : t.range.Marks text := ht.marks fun he => by
      simp [Token.continuation?, he] at hc
    refine Pinpoints.bind (parseContinued_pinpoints c left t ts hleft hmarks hts)
      fun e rest lt he hrest => ?_
    refine Pinpoints.bind (parseRest_pinpoints floor e rest he hrest)
      fun e' rest' lt' he' hrest' => ?_
    exact Pinpoints.read he' hrest'
termination_by ts => (ts.length, 1)
decreasing_by all_goals decreasing_with omega

theorem parseContinued_pinpoints (c : Continuation) (left : Expr) (t : Token) (ts : List Token)
    (hleft : left.Marked text) (ht : t.range.Marks text) (hts : ∀ t ∈ ts, t.Stands text) :
    Pinpoints text (Marked text) (parseContinued c left t ts) := by
  unfold parseContinued
  split
  · split
    · rw [marked_ident] at hleft
      exact Pinpoints.read (marked_update.2 ⟨hleft.through (.inl ht), hleft⟩) hts
    · exact Pinpoints.refuse (.inl hleft.range) _
  · refine Pinpoints.bind (parse_pinpoints 0 ts hts) fun position rest lt hposition hrest => ?_
    refine Pinpoints.bind (Pinpoints.expect _ hrest) fun close rest' lt' hclose hrest' => ?_
    exact Pinpoints.read
      (marked_index.2 ⟨hleft.range.through (.inl hclose), hleft, hposition⟩) hrest'
  · refine Pinpoints.bind (parse_pinpoints 1 ts hts) fun right rest lt hright hrest => ?_
    exact Pinpoints.read (hleft.followedBy hright) hrest
  · split
    · refine Pinpoints.bind (parse_pinpoints 2 ts hts) fun value rest lt hvalue hrest => ?_
      rw [marked_ident] at hleft
      exact Pinpoints.read
        (marked_assign.2 ⟨⟨hleft.through (.inl hvalue.range), hleft⟩, hvalue⟩) hrest
    · exact Pinpoints.refuse (.inl hleft.range) _
  · rename_i op
    refine Pinpoints.bind (parse_pinpoints op.strength ts hts) fun right rest lt hright hrest => ?_
    exact Pinpoints.read
      (marked_binary.2 ⟨hleft.range.through (.inl hright.range), hleft, hright⟩) hrest
termination_by (ts.length, 4)
decreasing_by all_goals decreasing_with omega

end

end Expr

namespace Ty

variable {text : List Char}

/-- Every range in the lengths of the type marks some of the text. -/
def Marked (text : List Char) (t : Ty) : Prop :=
  ∀ e ∈ t.lengths, e.Marked text

theorem marked_array {t : Ty} {length : Option Expr} :
    (array t length).Marked text ↔ (∀ e ∈ length, e.Marked text) ∧ t.Marked text := by
  rw [Marked, lengths, List.forall_mem_append]
  cases length <;> simp [Marked]

theorem Marked.join {ts : List Ty} (h : ∀ t ∈ ts, t.Marked text) : (join ts).Marked text :=
  forall_mem_lengths_join h

theorem Marked.fold {t : Ty} (h : t.Marked text) : t.fold.Marked text := by
  rw [Marked, lengths_fold, List.forall_mem_map]
  exact fun e he => (h e he).fold

theorem parseBrackets_pinpoints (t : Ty) : (ts : List Token) → t.Marked text →
    (∀ u ∈ ts, u.Stands text) → Pinpoints text (Marked text) (parseBrackets t ts)
  | [], _, _ => by rw [parseBrackets]; exact Pinpoints.endOfTokens
  | u :: ts, ht, h => by
    obtain ⟨_, hts⟩ := List.forall_mem_cons.1 h
    rw [parseBrackets]
    split
    · refine Pinpoints.peek hts fun after hafter => ?_
      split
      · refine Pinpoints.bind (Pinpoints.expect _ hts) fun close rest lt _ hrest => ?_
        have harray : (array t none).Marked text := marked_array.2 ⟨by rintro _ ⟨⟩, ht⟩
        refine Pinpoints.bind (parseBrackets_pinpoints _ rest harray hrest)
          fun t' rest' lt' ht' hrest' => ?_
        exact Pinpoints.read ht' hrest'
      · refine Pinpoints.bind (Expr.parse_pinpoints 2 ts hts) fun e rest lt he hrest => ?_
        refine Pinpoints.bind (Pinpoints.expect _ hrest) fun close rest' lt' _ hrest' => ?_
        have harray : (array t (some e)).Marked text :=
          marked_array.2 ⟨by rintro _ ⟨⟩; exact he, ht⟩
        refine Pinpoints.bind (parseBrackets_pinpoints _ rest' harray hrest')
          fun t' rest'' lt'' ht' hrest'' => ?_
        exact Pinpoints.read ht' hrest''
    · exact Pinpoints.read ht h
termination_by ts => ts.length
decreasing_by all_goals decreasing_with omega

mutual

theorem parse_pinpoints (ts : List Token) (hts : ∀ t ∈ ts, t.Stands text) :
    Pinpoints text (Marked text) (parse ts) := by
  rw [parse]
  refine Pinpoints.bind (parseMember_pinpoints ts hts) fun first rest lt hfirst hrest => ?_
  refine Pinpoints.bind (parseOthers_pinpoints rest hrest) fun others rest' lt' hothers hrest' => ?_
  refine Pinpoints.read ?_ hrest'
  split
  · exact hfirst
  · exact .join (List.forall_mem_cons.2 ⟨hfirst, hothers⟩)
termination_by (ts.length, 2)
decreasing_by all_goals decreasing_with omega

theorem parseMember_pinpoints : (ts : List Token) → (∀ t ∈ ts, t.Stands text) →
    Pinpoints text (Marked text) (parseMember ts)
  | [], _ => by rw [parseMember]; exact Pinpoints.endOfTokens
  | t :: ts, h => by
    obtain ⟨ht, hts⟩ := List.forall_mem_cons.1 h
    rw [parseMember]
    split
    · exact Pinpoints.bind (parseBrackets_pinpoints _ ts (List.forall_mem_nil _) hts)
        fun _ _ _ hty hrest => Pinpoints.read hty hrest
    · exact Pinpoints.bind (parseBrackets_pinpoints _ ts (List.forall_mem_nil _) hts)
        fun _ _ _ hty hrest => Pinpoints.read hty hrest
    · refine Pinpoints.bind (parse_pinpoints ts hts) fun inner rest lt hinner hrest => ?_
      refine Pinpoints.bind (Pinpoints.expect _ hrest) fun close rest' lt' _ hrest' => ?_
      exact Pinpoints.bind (parseBrackets_pinpoints inner rest' hinner hrest')
        fun _ _ _ hty hrest => Pinpoints.read hty hrest
    · exact Pinpoints.refuse ht.points _
termination_by ts => (ts.length, 1)
decreasing_by all_goals decreasing_with omega

theorem parseOthers_pinpoints : (ts : List Token) → (∀ t ∈ ts, t.Stands text) →
    Pinpoints text (fun others => ∀ t ∈ others, Marked text t) (parseOthers ts)
  | [], _ => by rw [parseOthers]; exact Pinpoints.endOfTokens
  | t :: ts, h => by
    obtain ⟨_, hts⟩ := List.forall_mem_cons.1 h
    rw [parseOthers]
    split
    · refine Pinpoints.bind (parseMember_pinpoints ts hts) fun member rest lt hmember hrest => ?_
      refine Pinpoints.bind (parseOthers_pinpoints rest hrest)
        fun others rest' lt' hothers hrest' => ?_
      exact Pinpoints.read (List.forall_mem_cons.2 ⟨hmember, hothers⟩) hrest'
    · exact Pinpoints.read (List.forall_mem_nil _) h
termination_by ts => (ts.length, 0)
decreasing_by all_goals decreasing_with omega

end

end Ty

section Statements

variable {text : List Char}

theorem Ident.parse_pinpoints {ts : List Token} (hts : ∀ t ∈ ts, t.Stands text) :
    Pinpoints text (fun id : Ident => id.range.Marks text) (Ident.parse ts) := by
  match ts with
  | [] => exact Pinpoints.endOfTokens
  | t :: ts =>
    rw [List.forall_mem_cons] at hts
    dsimp only [Ident.parse, next, bind, Except.bind]
    split
    · rename_i name hn
      exact Pinpoints.read (hts.1.marks (by simp [hn])) hts.2
    · exact Pinpoints.refuse hts.1.points _

theorem Ident.parseMore_pinpoints : (ts : List Token) → (∀ t ∈ ts, t.Stands text) →
    Pinpoints text (fun ids => ∀ id ∈ ids, id.range.Marks text) (Ident.parseMore ts)
  | [], _ => by rw [Ident.parseMore]; exact Pinpoints.endOfTokens
  | t :: ts, h => by
    obtain ⟨_, hts⟩ := List.forall_mem_cons.1 h
    rw [Ident.parseMore]
    split
    · refine Pinpoints.bind (Ident.parse_pinpoints hts) fun id rest lt hid hrest => ?_
      refine Pinpoints.bind (Ident.parseMore_pinpoints rest hrest)
        fun ids rest' lt' hids hrest' => ?_
      exact Pinpoints.read (List.forall_mem_cons.2 ⟨hid, hids⟩) hrest'
    · exact Pinpoints.read (List.forall_mem_nil _) h
termination_by ts => ts.length
decreasing_by all_goals decreasing_with omega

theorem Ident.parseAll_pinpoints {ts : List Token} (hts : ∀ t ∈ ts, t.Stands text) :
    Pinpoints text (fun ids => ∀ id ∈ ids, id.range.Marks text) (Ident.parseAll ts) := by
  unfold Ident.parseAll
  refine Pinpoints.bind (Ident.parse_pinpoints hts) fun id rest lt hid hrest => ?_
  refine Pinpoints.bind (Ident.parseMore_pinpoints rest hrest) fun ids rest' lt' hids hrest' => ?_
  exact Pinpoints.read (List.forall_mem_cons.2 ⟨hid, hids⟩) hrest'

/-- The ranges that a declaration is checked at mark some of the text. -/
structure Declaration.Marked (text : List Char) (d : Declaration) : Prop where
  names : ∀ id ∈ d.names, id.range.Marks text
  ty : d.ty.Marked text
  initializer : ∀ e ∈ d.initializer, e.Marked text

/-- The ranges that a statement is checked at mark some of the text. -/
def Statement.Marked (text : List Char) : Statement → Prop
  | expression e => e.Marked text
  | declaration d => d.Marked text

theorem Declaration.Marked.fold {d : Declaration} (h : d.Marked text) : d.fold.Marked text where
  names := h.names
  ty := h.ty.fold
  initializer := by
    intro e he
    obtain ⟨e', he', rfl⟩ := Option.map_eq_some_iff.1 he
    exact (h.initializer e' he').fold

theorem Statement.Marked.fold {stmt : Statement} (h : stmt.Marked text) :
    stmt.fold.Marked text := by
  cases stmt with
  | expression e => exact Expr.Marked.fold h
  | declaration d => exact Declaration.Marked.fold h

theorem Declaration.parseInitializer_pinpoints {ts : List Token}
    (h : ∀ t ∈ ts, t.Stands text) :
    Pinpoints text (fun i : Option Expr => ∀ e ∈ i, e.Marked text) (parseInitializer ts) := by
  match ts with
  | [] => exact Pinpoints.endOfTokens
  | t :: ts =>
    obtain ⟨_, hts⟩ := List.forall_mem_cons.1 h
    rw [parseInitializer]
    split
    · refine Pinpoints.bind (Expr.parse_pinpoints 2 ts hts) fun e rest lt he hrest => ?_
      exact Pinpoints.read (by rintro _ ⟨⟩; exact he) hrest
    · exact Pinpoints.read (by rintro _ ⟨⟩) h

theorem Declaration.parse_pinpoints (isMutable : Bool) {t : Token} {ts : List Token}
    (ht : t.range.Marks text) (hts : ∀ t ∈ ts, t.Stands text) :
    Pinpoints text (Marked text) (parse isMutable t ts) := by
  unfold parse
  refine Pinpoints.bind (Ident.parseAll_pinpoints hts) fun names r₁ _ hnames h₁ => ?_
  refine Pinpoints.bind (Pinpoints.expect _ h₁) fun colon r₂ _ _ h₂ => ?_
  refine Pinpoints.bind (Ty.parse_pinpoints r₂ h₂) fun ty r₃ _ hty h₃ => ?_
  refine Pinpoints.bind (parseInitializer_pinpoints h₃) fun initializer r₄ _ hi h₄ => ?_
  dsimp only
  split
  · exact Pinpoints.peek h₄ fun after hafter =>
      Pinpoints.refuse (.inl (ht.through hafter.points)) _
  · refine Pinpoints.bind (Pinpoints.expect _ h₄) fun stop r₅ _ _ h₅ => ?_
    exact Pinpoints.read ⟨hnames, hty, hi⟩ h₅

theorem Statement.parse_pinpoints {ts : List Token} (h : ∀ t ∈ ts, t.Stands text) :
    Pinpoints text (fun stmt : Option Statement => ∀ s ∈ stmt, s.Marked text)
      (Statement.parse ts) := by
  match ts with
  | [] => exact Pinpoints.endOfTokens
  | t :: ts =>
    obtain ⟨ht, hts⟩ := List.forall_mem_cons.1 h
    unfold Statement.parse
    dsimp only
    split
    · exact Pinpoints.read (by rintro _ ⟨⟩) hts
    · rename_i hk
      refine Pinpoints.bind (Declaration.parse_pinpoints true (ht.marks (by simp [hk])) hts)
        fun d rest lt hd hrest => ?_
      exact Pinpoints.read (by rintro _ ⟨⟩; exact hd) hrest
    · rename_i hk
      refine Pinpoints.bind (Declaration.parse_pinpoints false (ht.marks (by simp [hk])) hts)
        fun d rest lt hd hrest => ?_
      exact Pinpoints.read (by rintro _ ⟨⟩; exact hd) hrest
    · exact Pinpoints.refuse ht.points _
    · refine Pinpoints.bind (Expr.parse_pinpoints 0 _ h) fun e rest lt he hrest => ?_
      refine Pinpoints.bind (Pinpoints.expect _ hrest) fun stop rest' lt' _ hrest' => ?_
      exact Pinpoints.read (by rintro _ ⟨⟩; exact he) hrest'

/-- A program that is read of tokens in a text has marked statements, and the tokens are refused
at a place in the text. -/
def Program.Pinpointed (text : List Char) : Except Failure Program → Prop
  | .ok p => ∀ stmt ∈ p, stmt.Marked text
  | .error (.refused c) => c.range.Points text
  | .error _ => True

/-- A statement and the program behind it. -/
theorem Program.Pinpointed.cons {stmt : Option Statement} {r : Except Failure Program}
    (hstmt : ∀ s ∈ stmt, s.Marked text) (h : Pinpointed text r) :
    Pinpointed text (do return stmt.toList ++ (← r)) := by
  match r with
  | .ok p =>
    refine List.forall_mem_append.2 ⟨fun s hs => ?_, h⟩
    exact hstmt s (Option.mem_toList.1 hs)
  | .error (.refused _) => exact h
  | .error (.internal _) | .error (.tooManyWarnings _ _) => trivial

theorem Program.parse_pinpoints (ts : List Token) (hts : ∀ t ∈ ts, t.Stands text) :
    Pinpointed text (Program.parse ts) := by
  match ts with
  | [] => rw [Program.parse]; trivial
  | t :: ts =>
    rw [Program.parse]
    change Pinpointed text (if t.kind = .eof then _ else _)
    split
    · exact List.forall_mem_nil _
    have hstmt := Statement.parse_pinpoints hts
    cases hs : Statement.parse (t :: ts) with
    | error failure =>
      rw [hs] at hstmt
      cases failure with
      | refused _ => exact hstmt
      | internal _ | tooManyWarnings _ _ => trivial
    | ok parsed =>
      obtain ⟨stmt, rest, lt⟩ := parsed
      rw [hs] at hstmt
      exact .cons hstmt.1 (parse_pinpoints rest hstmt.2)
termination_by ts.length
decreasing_by exact lt

/-- A source text is read as a program whose statements are marked, or refused at a place in
it. -/
theorem Program.ofSource_pinpoints (source : String) :
    Pinpointed source.toList (Program.ofSource source) := by
  rw [Program.ofSource]
  split
  · rename_i ts hts
    have htiling : Tiling [] source.toList ts := .of_scan hts
    exact parse_pinpoints ts htiling.stands
  · rename_i c hc
    have hmarks : c.range.Marks ([] ++ source.toList) := scan_marks hc
    exact .inl hmarks

end Statements

end StackCompiler
