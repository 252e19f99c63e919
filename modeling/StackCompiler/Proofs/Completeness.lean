import StackCompiler.Proofs.Soundness

/-!
# What is derived is read

The other direction: from the tokens of a derivation its tree is read. `Yields` takes one step of
a reader at a time, so there is a rule for each step (`Expr.yields_binary` and its like) and the
derivations follow by induction. A derivation nests to the left where reading goes on to the
right, so the induction says (`Expr.Derives.yields`) that reading with a floor gets past the tokens
of an expression of a level above it, and goes on with the expression as the operand so far.
Types, declarations and statements are read up to a token that cannot belong to them.

With soundness, a text is read as a program exactly if its tokens derive the program
(`Program.parse_eq_ok_iff`).
-/

namespace StackCompiler

namespace Expr

section Rules

variable {t : Token} {ts rest rest' : List Token} {floor : Nat} {left e e' : Expr}

theorem yields_parse (h : Yields (parseOperand ts) left rest)
    (h' : Yields (parseRest floor left rest) e rest') : Yields (parse floor ts) e rest' := by
  rw [parse]
  refine h.bind fun lt => ?_
  refine h'.bind fun lt' => ?_
  exact ⟨_, rfl⟩

theorem yields_parseRest_stop (h : Stops floor (t :: ts)) :
    Yields (parseRest floor left (t :: ts)) left (t :: ts) := by
  refine ⟨Nat.lt_succ_self _, ?_⟩
  rw [parseRest]
  split
  · rfl
  · rename_i c hc
    rw [if_pos (Stops.cons_iff.1 h c hc)]

theorem yields_parseRest_step {c : Continuation} (hc : t.continuation? = some c)
    (hf : floor < c.strength) (h : Yields (parseContinued c left t ts) e rest)
    (h' : Yields (parseRest floor e rest) e' rest') :
    Yields (parseRest floor left (t :: ts)) e' rest' := by
  rw [parseRest]
  simp only [hc, if_neg (Nat.not_le_of_lt hf)]
  refine h.bind fun lt => ?_
  refine h'.bind fun lt' => ?_
  exact ⟨_, rfl⟩

/-- Without a token that ends it, no expression is read. -/
theorem exists_cons_of_yields_parseRest (h : Yields (parseRest floor left ts) e rest) :
    ∃ u us, ts = u :: us := by
  match ts with
  | [] =>
    rw [parseRest] at h
    obtain ⟨_, h⟩ := h
    cases h
  | u :: us => exact ⟨u, us, rfl⟩

theorem yields_literal {value : Literal} (h : t.literal? = some value) (ts : List Token) :
    Yields (parseOperand (t :: ts)) (literal value t.range) ts := by
  refine ⟨Parsed.lt_cons t ts, ?_⟩
  rw [parseOperand]
  simp only [h]

theorem yields_name {name : String} (h : t.kind = .identifier name) (ts : List Token) :
    Yields (parseOperand (t :: ts)) (ident ⟨name, t.range⟩) ts := by
  refine ⟨Parsed.lt_cons t ts, ?_⟩
  rw [parseOperand]
  simp only [Token.literal?, h]

theorem yields_group {u close : Token} (hl : t.kind = .symbol .leftParen)
    (hu : u.kind ≠ .symbol .rightParen) (hr : close.kind = .symbol .rightParen)
    (h : Yields (parse 0 (u :: ts)) e (close :: rest)) :
    Yields (parseOperand (t :: u :: ts)) e rest := by
  rw [parseOperand]
  simp only [Token.literal?, hl]
  refine Yields.peek ?_
  rw [if_neg hu]
  refine h.bind fun lt => ?_
  refine (Yields.expect hr rest).bind fun lt' => ?_
  exact ⟨_, rfl⟩

theorem yields_array {close : Token} {items : List Expr} (hl : t.kind = .symbol .leftBracket)
    (hr : close.kind = .symbol .rightBracket)
    (h : Yields (parseItems ts) items (close :: rest)) :
    Yields (parseOperand (t :: ts)) (array items (t.range.through close.range)) rest := by
  rw [parseOperand]
  simp only [Token.literal?, hl]
  refine h.bind fun lt => ?_
  refine (Yields.expect hr rest).bind fun lt' => ?_
  exact ⟨_, rfl⟩

theorem yields_updateBefore {s : Symbol} {op : UpdateOp} {id : Ident} (hs : t.kind = .symbol s)
    (ho : s.update? = some op) (h : Yields (parse 14 ts) (ident id) rest) :
    Yields (parseOperand (t :: ts)) (update op true id (t.range.through id.range)) rest := by
  have hl : s ≠ .leftParen := by rintro rfl; cases ho
  have hb : s ≠ .leftBracket := by rintro rfl; cases ho
  rw [parseOperand]
  simp only [Token.literal?, hs, ho]
  refine h.bind fun lt => ?_
  exact ⟨_, rfl⟩

theorem yields_unary {s : Symbol} {op : UnaryOp} (hs : t.kind = .symbol s)
    (ho : s.unary? = some op) (h : Yields (parse 14 ts) e rest) :
    Yields (parseOperand (t :: ts)) (applied op e t.range) rest := by
  have hl : s ≠ .leftParen := by rintro rfl; cases ho
  have hb : s ≠ .leftBracket := by rintro rfl; cases ho
  have hu : s.update? = none := by cases s <;> cases ho <;> rfl
  rw [parseOperand]
  simp only [Token.literal?, hs, ho, hu]
  refine h.bind fun lt => ?_
  exact ⟨_, rfl⟩

theorem yields_updateAfter (op : UpdateOp) (id : Ident) (t : Token) (ts : List Token) :
    Yields (parseContinued (.update op) (ident id) t ts)
      (update op false id (id.range.through t.range)) ts := by
  rw [parseContinued]
  exact ⟨_, rfl⟩

theorem yields_index {close : Token} {position : Expr} (hr : close.kind = .symbol .rightBracket)
    (h : Yields (parse 0 ts) position (close :: rest)) :
    Yields (parseContinued .index left t ts)
      (index left position (left.range.through close.range)) rest := by
  rw [parseContinued]
  refine h.bind fun lt => ?_
  refine (Yields.expect hr rest).bind fun lt' => ?_
  exact ⟨_, rfl⟩

theorem yields_sequence (h : Yields (parse 1 ts) e rest) :
    Yields (parseContinued .sequence left t ts) (followedBy left e) rest := by
  rw [parseContinued]
  refine h.bind fun lt => ?_
  exact ⟨_, rfl⟩

theorem yields_assign {op : AssignOp} {id : Ident} (h : Yields (parse 2 ts) e rest) :
    Yields (parseContinued (.assign op) (ident id) t ts) (assigned op id e) rest := by
  rw [parseContinued]
  refine h.bind fun lt => ?_
  exact ⟨_, rfl⟩

theorem yields_binary {op : BinaryOp} (h : Yields (parse op.strength ts) e rest) :
    Yields (parseContinued (.binary op) left t ts) (joined op left e) rest := by
  rw [parseContinued]
  refine h.bind fun lt => ?_
  exact ⟨_, rfl⟩

theorem yields_noItems {close : Token} (hr : close.kind = .symbol .rightBracket)
    (rest : List Token) : Yields (parseItems (close :: rest)) [] (close :: rest) := by
  rw [parseItems]
  refine Yields.peek ?_
  rw [if_pos hr]
  exact ⟨_, rfl⟩

theorem yields_items {items : List Expr} (ht : t.kind ≠ .symbol .rightBracket)
    (h : Yields (parse 1 (t :: ts)) e rest) (hs : Yields (parseMoreItems rest) items rest') :
    Yields (parseItems (t :: ts)) (e :: items) rest' := by
  rw [parseItems]
  refine Yields.peek ?_
  rw [if_neg ht]
  refine h.bind fun lt => ?_
  refine hs.bind fun lt' => ?_
  exact ⟨_, rfl⟩

theorem yields_moreItems {items : List Expr} (ht : t.kind = .symbol .comma)
    (h : Yields (parse 1 ts) e rest) (hs : Yields (parseMoreItems rest) items rest') :
    Yields (parseMoreItems (t :: ts)) (e :: items) rest' := by
  rw [parseMoreItems, if_pos ht]
  refine h.bind fun lt => ?_
  refine hs.bind fun lt' => ?_
  exact ⟨_, rfl⟩

theorem yields_noMoreItems (ht : t.kind ≠ .symbol .comma) (ts : List Token) :
    Yields (parseMoreItems (t :: ts)) [] (t :: ts) := by
  rw [parseMoreItems, if_neg ht]
  exact ⟨_, rfl⟩

end Rules

/-- A token that starts an expression closes no pair of parentheses or brackets. -/
theorem Opens.kind_ne {t : Token} (h : Opens t) :
    t.kind ≠ .symbol .rightParen ∧ t.kind ≠ .symbol .rightBracket := by
  constructor <;>
  · intro ht
    rcases h with h | ⟨name, h⟩ | ⟨s, hs, h⟩
    · simp [Token.literal?, ht] at h
    · simp [ht] at h
    · cases ht.symm.trans hs
      simp [Symbol.update?, Symbol.unary?] at h

/-- Behind an item of an array comes a comma or the closing bracket. -/
theorem DerivesMore.stops {ts : List Token} {items : List Expr} {close : Token} :
    DerivesMore ts items → close.kind = .symbol .rightBracket → ∀ (rest : List Token),
      ∃ u us, ts ++ close :: rest = u :: us ∧ Stops 1 (u :: us)
  | .nil, hr, rest => ⟨close, rest, rfl, Stops.symbol 1 rest hr rfl⟩
  | .cons (t := t) ht _ _, _, _ => by
    refine ⟨t, _, rfl, Stops.cons_iff.2 fun c hc => ?_⟩
    rw [Token.continuation?_symbol ht] at hc
    cases hc
    exact Nat.le_refl 1

mutual

/-- Reading with a floor gets past the tokens of an expression of a level above it, and goes on
with the expression as the operand so far. The next token must not belong to the expression. -/
theorem Derives.yields {n : Nat} {ts : List Token} {e : Expr} (floor : Nat) (hf : floor ≤ 14) :
    Derives n ts e → levelAbove floor ≤ n → ∀ {rest : List Token}, Stops n rest →
      ∀ {e' : Expr} {rest' : List Token}, Yields (parseRest floor e rest) e' rest' →
        Yields (parse floor (ts ++ rest)) e' rest'
  | .literal h, _, rest, _, _, _, hrest => yields_parse (yields_literal h rest) hrest
  | .name h, _, rest, _, _, _, hrest => yields_parse (yields_name h rest) hrest
  | .group hl he hr, _, rest, _, _, _, hrest => by
    have hin := he.yields 0 (by decide) (by decide) (Stops.symbol 1 rest hr rfl)
      (yields_parseRest_stop (Stops.symbol 0 rest hr rfl))
    obtain ⟨u, us, rfl, hu⟩ := he.opens
    rw [List.append_assoc]
    exact yields_parse (yields_group hl hu.kind_ne.1 hr hin) hrest
  | .array hl hi hr, _, rest, _, _, _, hrest => by
    rw [List.append_assoc]
    exact yields_parse (yields_array hl hr (hi.yields hr rest)) hrest
  | .updateAfter (t := t) he ht hs, hn, rest, _, _, _, hrest => by
    rw [List.append_assoc]
    have hc := Grammar.mem_updates_iff_continuation.1 hs
    rw [← Token.continuation?_symbol ht] at hc
    refine he.yields floor hf hn (.of_le (Nat.le_refl 15) _) ?_
    exact yields_parseRest_step hc (Nat.lt_succ_of_le hf) (yields_updateAfter _ _ t rest) hrest
  | .index (l := l) hb hl hp hr, hn, rest, _, _, _, hrest => by
    have hc : l.continuation? = some .index := Token.continuation?_symbol hl
    have hin := hp.yields 0 (by decide) (by decide) (Stops.symbol 1 rest hr rfl)
      (yields_parseRest_stop (Stops.symbol 0 rest hr rfl))
    rw [List.append_assoc, List.cons_append, List.append_assoc]
    refine hb.yields floor hf hn (.of_le (Nat.le_refl 15) _) ?_
    exact yields_parseRest_step hc (Nat.lt_succ_of_le hf) (yields_index hr hin) hrest
  | .updateBefore ht hs he, _, rest, hstop, _, _, hrest => by
    obtain ⟨u, us, rfl⟩ := exists_cons_of_yields_parseRest hrest
    have hin := he.yields 14 (by decide) (by decide) hstop (yields_parseRest_stop hstop)
    exact yields_parse (yields_updateBefore ht (Grammar.mem_updates.1 hs) hin) hrest
  | .unary ht hs he, _, rest, hstop, _, _, hrest => by
    obtain ⟨u, us, rfl⟩ := exists_cons_of_yields_parseRest hrest
    have hin := he.yields 14 (by decide) (by decide) hstop (yields_parseRest_stop hstop)
    exact yields_parse (yields_unary ht (Grammar.mem_unaries.1 hs) hin) hrest
  | .binary (t := t) (n := n) hl ht hs hr, hn, rest, hstop, _, _, hrest => by
    obtain ⟨hc, hop⟩ := Grammar.mem_binaries.1 hs
    rw [← Token.continuation?_symbol ht] at hc
    have hn' : n ≤ 13 := hop ▸ BinaryOp.strength_le _
    obtain ⟨u, us, rfl⟩ := exists_cons_of_yields_parseRest hrest
    -- The right operand stops before an operator of its own level: that one associates to the left.
    have hin := hr.yields n (by omega) (by unfold levelAbove; omega)
      (hstop.mono (Nat.le_succ n)) (yields_parseRest_stop hstop)
    rw [List.append_assoc]
    refine hl.yields floor hf hn ?_ ?_
    · exact Stops.cons_iff.2 fun c hc' => by cases hc.symm.trans hc'; exact Nat.le_of_eq hop
    · have hlt : floor < n := by unfold levelAbove at hn; omega
      rw [← hop] at hlt hin
      exact yields_parseRest_step hc hlt (yields_binary hin) hrest
  | .assign (t := t) hl ht hs hr, hn, rest, hstop, _, _, hrest => by
    have hc := Grammar.mem_assignments.1 hs
    rw [← Token.continuation?_symbol ht] at hc
    obtain ⟨u, us, rfl⟩ := exists_cons_of_yields_parseRest hrest
    have hin := hr.yields 2 (by decide) (by decide) (hstop.mono (by decide))
      (yields_parseRest_stop hstop)
    rw [List.append_assoc]
    refine hl.yields floor hf (Nat.le_succ_of_le hn) ?_ ?_
    · exact Stops.cons_iff.2 fun c hc' => by cases hc.symm.trans hc'; exact show 2 ≤ 3 by decide
    · have hlt : floor < 2 := by unfold levelAbove at hn; omega
      exact yields_parseRest_step hc hlt (yields_assign hin) hrest
  | .sequence (t := t) hl ht hr, hn, rest, hstop, _, _, hrest => by
    have hc : t.continuation? = some .sequence := Token.continuation?_symbol ht
    obtain ⟨u, us, rfl⟩ := exists_cons_of_yields_parseRest hrest
    have hin := hr.yields 1 (by decide) (by decide) (hstop.mono (by decide))
      (yields_parseRest_stop hstop)
    rw [List.append_assoc]
    refine hl.yields floor hf hn ?_ ?_
    · exact Stops.cons_iff.2 fun c hc' => by cases hc.symm.trans hc'; exact Nat.le_refl 1
    · have hlt : floor < 1 := by unfold levelAbove at hn; omega
      exact yields_parseRest_step hc hlt (yields_sequence hin) hrest
  | .ofNext h, hn, _, hstop, _, _, hrest =>
    h.yields floor hf (Nat.le_succ_of_le hn) (hstop.mono (Nat.le_succ _)) hrest

/-- The items of an array are read up to its closing bracket. -/
theorem DerivesItems.yields {ts : List Token} {items : List Expr} {close : Token} :
    DerivesItems ts items → close.kind = .symbol .rightBracket → ∀ (rest : List Token),
      Yields (parseItems (ts ++ close :: rest)) items (close :: rest)
  | .none, hr, rest => yields_noItems hr rest
  | .some he hs, hr, rest => by
    have hmore := hs.yields hr rest
    obtain ⟨u, us, hus, hstop⟩ := hs.stops hr rest
    rw [hus] at hmore
    have hin := he.yields 1 (by decide) (by decide) (hstop.mono (by decide))
      (yields_parseRest_stop hstop)
    obtain ⟨v, vs, rfl, hv⟩ := he.opens
    rw [List.append_assoc, hus]
    exact yields_items hv.kind_ne.2 hin hmore

theorem DerivesMore.yields {ts : List Token} {items : List Expr} {close : Token} :
    DerivesMore ts items → close.kind = .symbol .rightBracket → ∀ (rest : List Token),
      Yields (parseMoreItems (ts ++ close :: rest)) items (close :: rest)
  | .nil, hr, rest => yields_noMoreItems (by simp [hr]) rest
  | .cons ht he hs, hr, rest => by
    have hmore := hs.yields hr rest
    obtain ⟨u, us, hus, hstop⟩ := hs.stops hr rest
    rw [hus] at hmore
    have hin := he.yields 1 (by decide) (by decide) (hstop.mono (by decide))
      (yields_parseRest_stop hstop)
    rw [List.append_assoc, List.cons_append, hus]
    exact yields_moreItems ht hin hmore

end

/-- An expression is read up to a token that does not continue it. -/
theorem Derives.yields_stop (floor : Nat) (hf : floor ≤ 14) {ts : List Token} {e : Expr}
    {t : Token} {rest : List Token} (h : Derives (levelAbove floor) ts e)
    (hstop : Stops floor (t :: rest)) : Yields (parse floor (ts ++ t :: rest)) e (t :: rest) :=
  h.yields floor hf (Nat.le_refl _) (hstop.mono (le_levelAbove hf)) (yields_parseRest_stop hstop)

end Expr

/-! ## Types -/

namespace Ty

section Rules

variable {t t' : Ty} {u : Token} {ts rest rest' : List Token}

theorem yields_brackets_stop (h : u.kind ≠ .symbol .leftBracket) (ts : List Token) :
    Yields (parseBrackets t (u :: ts)) t (u :: ts) := by
  rw [parseBrackets, if_neg h]
  exact ⟨_, rfl⟩

theorem yields_brackets {close : Token} (hl : u.kind = .symbol .leftBracket)
    (hr : close.kind = .symbol .rightBracket)
    (h : Yields (parseBrackets (array t none) rest) t' rest') :
    Yields (parseBrackets t (u :: close :: rest)) t' rest' := by
  rw [parseBrackets, if_pos hl]
  refine Yields.peek ?_
  rw [if_pos hr]
  refine (Yields.expect hr rest).bind fun lt => ?_
  refine h.bind fun lt' => ?_
  exact ⟨_, rfl⟩

theorem yields_brackets_sized {v close : Token} {e : Expr} (hl : u.kind = .symbol .leftBracket)
    (hv : v.kind ≠ .symbol .rightBracket) (hr : close.kind = .symbol .rightBracket)
    (he : Yields (Expr.parse 2 (v :: ts)) e (close :: rest))
    (h : Yields (parseBrackets (array t (some e)) rest) t' rest') :
    Yields (parseBrackets t (u :: v :: ts)) t' rest' := by
  rw [parseBrackets, if_pos hl]
  refine Yields.peek ?_
  rw [if_neg hv]
  refine he.bind fun lt => ?_
  refine (Yields.expect hr rest).bind fun lt' => ?_
  refine h.bind fun lt'' => ?_
  exact ⟨_, rfl⟩

theorem yields_scalar {s : Scalar} (hu : u.kind = .typeName s)
    (h : Yields (parseBrackets (scalar s) ts) t rest) :
    Yields (parseMember (u :: ts)) t rest := by
  rw [parseMember]
  simp only [hu]
  refine h.bind fun lt => ?_
  exact ⟨_, rfl⟩

theorem yields_null (hu : u.kind = .null) (h : Yields (parseBrackets null ts) t rest) :
    Yields (parseMember (u :: ts)) t rest := by
  rw [parseMember]
  simp only [hu]
  refine h.bind fun lt => ?_
  exact ⟨_, rfl⟩

theorem yields_group {close : Token} (hl : u.kind = .symbol .leftParen)
    (hr : close.kind = .symbol .rightParen) (ht : Yields (parse ts) t (close :: rest))
    (h : Yields (parseBrackets t rest) t' rest') : Yields (parseMember (u :: ts)) t' rest' := by
  rw [parseMember]
  simp only [hl]
  refine ht.bind fun lt => ?_
  refine (Yields.expect hr rest).bind fun lt' => ?_
  refine h.bind fun lt'' => ?_
  exact ⟨_, rfl⟩

theorem yields_noOthers (hu : u.kind ≠ .symbol .pipe) (ts : List Token) :
    Yields (parseOthers (u :: ts)) [] (u :: ts) := by
  rw [parseOthers, if_neg hu]
  exact ⟨_, rfl⟩

theorem yields_others {others : List Ty} (hu : u.kind = .symbol .pipe)
    (h : Yields (parseMember ts) t rest) (hs : Yields (parseOthers rest) others rest') :
    Yields (parseOthers (u :: ts)) (t :: others) rest' := by
  rw [parseOthers, if_pos hu]
  refine h.bind fun lt => ?_
  refine hs.bind fun lt' => ?_
  exact ⟨_, rfl⟩

theorem yields_parse {others : List Ty} (h : Yields (parseMember ts) t rest)
    (hs : Yields (parseOthers rest) others rest') :
    Yields (parse ts) (if others.isEmpty then t else join (t :: others)) rest' := by
  rw [parse]
  refine h.bind fun lt => ?_
  refine hs.bind fun lt' => ?_
  exact ⟨_, rfl⟩

end Rules

/-- The token continues no type. -/
def Ends (u : Token) : Prop :=
  u.kind ≠ .symbol .pipe ∧ u.kind ≠ .symbol .leftBracket

theorem Ends.symbol {u : Token} {s : Symbol} (hu : u.kind = .symbol s) (hp : s ≠ .pipe)
    (hl : s ≠ .leftBracket) : Ends u := by
  simp [Ends, hu, hp, hl]

/-- Behind a member of a type comes a bar or what ends the type. -/
theorem DerivesOthers.ends {ts : List Token} {others : List Ty} {u : Token} :
    DerivesOthers ts others → Ends u → ∀ (rest : List Token),
      ∃ v vs, ts ++ u :: rest = v :: vs ∧ v.kind ≠ .symbol .leftBracket
  | .nil, hu, rest => ⟨u, rest, rfl, hu.2⟩
  | .cons hb _ _, _, _ => ⟨_, _, rfl, by simp [hb]⟩

mutual

/-- A type is read up to a token that does not continue it. -/
theorem Derives.yields {ts : List Token} {t : Ty} {u : Token} :
    Derives ts t → Ends u → ∀ (rest : List Token), Yields (parse (ts ++ u :: rest)) t (u :: rest)
  | .single h, hu, rest =>
    yields_parse (h.yields (yields_brackets_stop hu.2 rest)) (yields_noOthers hu.1 rest)
  | .union h hs, hu, rest => by
    have hothers := hs.yields hu rest
    obtain ⟨v, vs, hvs, hv⟩ := hs.ends hu rest
    rw [hvs] at hothers
    have hmember := h.yields (yields_brackets_stop hv vs)
    rw [List.append_assoc, hvs]
    exact yields_parse hmember hothers

/-- Reading gets past the tokens of a member, and goes on with the brackets behind it. -/
theorem DerivesMember.yields {ts : List Token} {t : Ty} :
    DerivesMember ts t → ∀ {t' : Ty} {rest rest' : List Token},
      Yields (parseBrackets t rest) t' rest' → Yields (parseMember (ts ++ rest)) t' rest'
  | .scalar h, _, _, _, hrest => yields_scalar h hrest
  | .null h, _, _, _, hrest => yields_null h hrest
  | .group hl h hr, _, rest, _, hrest => by
    have hin := h.yields (Ends.symbol hr (by decide) (by decide)) rest
    rw [List.append_assoc]
    exact yields_group hl hr hin hrest
  | .array h hl hr, _, _, _, hrest => by
    rw [List.append_assoc]
    exact h.yields (yields_brackets hl hr hrest)
  | .sized h hl he hr, _, rest, _, hrest => by
    -- A length starts with a token that opens an expression, so the brackets do not look empty.
    have hin := Expr.Derives.yields_stop 2 (by decide) he (Stops.symbol 2 rest hr rfl)
    obtain ⟨v, vs, rfl, hv⟩ := he.opens
    rw [List.append_assoc, List.cons_append, List.append_assoc]
    exact h.yields (yields_brackets_sized hl hv.kind_ne.2 hr hin hrest)

theorem DerivesOthers.yields {ts : List Token} {others : List Ty} {u : Token} :
    DerivesOthers ts others → Ends u → ∀ (rest : List Token),
      Yields (parseOthers (ts ++ u :: rest)) others (u :: rest)
  | .nil, hu, rest => yields_noOthers hu.1 rest
  | .cons hb h hs, hu, rest => by
    have hothers := hs.yields hu rest
    obtain ⟨v, vs, hvs, hv⟩ := hs.ends hu rest
    rw [hvs] at hothers
    have hmember := h.yields (yields_brackets_stop hv vs)
    rw [List.append_assoc, List.cons_append, hvs]
    exact yields_others hb hmember hothers

end

end Ty

/-! ## Statements and programs -/

theorem Ident.yields_parse {t : Token} {name : String} (h : t.kind = .identifier name)
    (ts : List Token) : Yields (Ident.parse (t :: ts)) ⟨name, t.range⟩ ts := by
  refine ⟨Parsed.lt_cons t ts, ?_⟩
  dsimp only [Ident.parse, next, bind, Except.bind]
  rw [h]
  rfl

theorem Ident.DeriveMore.yields {ts : List Token} {ids : List Ident} {u : Token}
    (h : DeriveMore ts ids) (hu : u.kind ≠ .symbol .comma) (rest : List Token) :
    Yields (Ident.parseMore (ts ++ u :: rest)) ids (u :: rest) := by
  induction h with
  | nil =>
    rw [List.nil_append, Ident.parseMore, if_neg hu]
    exact ⟨_, rfl⟩
  | cons hc h _ ih =>
    rw [List.cons_append, List.cons_append, Ident.parseMore, if_pos hc]
    refine (Ident.yields_parse h _).bind fun lt => ?_
    refine ih.bind fun lt' => ?_
    exact ⟨_, rfl⟩

/-- Names are read up to a token that is no comma. -/
theorem Ident.DeriveNames.yields {ts : List Token} {ids : List Ident} {u : Token}
    (h : DeriveNames ts ids) (hu : u.kind ≠ .symbol .comma) (rest : List Token) :
    Yields (Ident.parseAll (ts ++ u :: rest)) ids (u :: rest) := by
  cases h with
  | mk h hs =>
    refine (Ident.yields_parse h _).bind fun lt => ?_
    refine (hs.yields hu rest).bind fun lt' => ?_
    exact ⟨_, rfl⟩

namespace Declaration

theorem DerivesInitializer.yields {ts : List Token} {initializer : Option Expr} {stop : Token}
    (h : DerivesInitializer ts initializer) (hs : stop.kind = .symbol .semicolon)
    (rest : List Token) :
    Yields (parseInitializer (ts ++ stop :: rest)) initializer (stop :: rest) := by
  cases h with
  | none =>
    rw [List.nil_append, parseInitializer, if_neg (by simp [hs])]
    exact ⟨_, rfl⟩
  | some ht he =>
    rw [List.cons_append, parseInitializer, if_pos ht]
    refine (Expr.Derives.yields_stop 2 (by decide) he (Stops.symbol 2 rest hs rfl)).bind
      fun lt => ?_
    exact ⟨_, rfl⟩

/-- A type is followed by an initial value or the semicolon, neither of which continues it. -/
theorem DerivesInitializer.ends {ts : List Token} {initializer : Option Expr} {stop : Token}
    (h : DerivesInitializer ts initializer) (hs : stop.kind = .symbol .semicolon)
    (rest : List Token) : ∃ u us, ts ++ stop :: rest = u :: us ∧ Ty.Ends u := by
  cases h with
  | none => exact ⟨stop, rest, rfl, Ty.Ends.symbol hs (by decide) (by decide)⟩
  | some ht _ => exact ⟨_, _, rfl, Ty.Ends.symbol ht (by decide) (by decide)⟩

/-- The parts of a declaration behind its keyword are read one after the other. -/
theorem yields_parse {isMutable : Bool} {keyword colon stop : Token} {ns ts is rest : List Token}
    {names : List Ident} {ty : Ty} {initializer : Option Expr}
    (hn : Ident.DeriveNames ns names) (hc : colon.kind = .symbol .colon) (ht : Ty.Derives ts ty)
    (hi : DerivesInitializer is initializer) (hs : stop.kind = .symbol .semicolon)
    (hm : isMutable = true ∨ initializer.isSome) :
    Yields (parse isMutable keyword ((ns ++ colon :: (ts ++ (is ++ [stop]))) ++ rest))
      ⟨isMutable, ty, names, initializer, keyword.range.through stop.range⟩ rest := by
  have hinit := hi.yields hs rest
  obtain ⟨u, us, hus, hu⟩ := hi.ends hs rest
  rw [hus] at hinit
  have htokens : (ns ++ colon :: (ts ++ (is ++ [stop]))) ++ rest =
      ns ++ colon :: (ts ++ u :: us) := by
    rw [← hus]
    simp
  rw [htokens]
  unfold parse
  refine (hn.yields (by simp [hc]) _).bind fun _ => ?_
  refine (Yields.expect hc _).bind fun _ => ?_
  refine (ht.yields hu us).bind fun _ => ?_
  refine hinit.bind fun _ => ?_
  dsimp only
  rw [if_neg (by cases isMutable <;> cases initializer <;> simp_all)]
  refine (Yields.expect hs rest).bind fun _ => ?_
  exact ⟨_, rfl⟩

end Declaration

/-- A token that starts an expression is none that starts another statement. -/
theorem Expr.Opens.not_statement {t : Token} (h : Expr.Opens t) :
    t.kind ≠ .symbol .semicolon ∧ t.kind ≠ .mutable ∧ t.kind ≠ .constant ∧
      ∀ word, t.kind ≠ .reserved word := by
  rcases h with h | ⟨name, h⟩ | ⟨s, hs, h⟩
  · refine ⟨?_, ?_, ?_, fun word => ?_⟩ <;>
    · intro ht
      simp [Token.literal?, ht] at h
  · simp [h]
  · simp only [hs]
    refine ⟨?_, nofun, nofun, nofun⟩
    intro ht
    cases ht
    simp [Symbol.update?, Symbol.unary?] at h

namespace Statement

theorem Derives.yields {ts : List Token} {statement : Option Statement}
    (h : Derives ts statement) (rest : List Token) :
    Yields (Statement.parse (ts ++ rest)) statement rest := by
  cases h with
  | empty hs =>
    simp only [List.cons_append, List.nil_append, Statement.parse, hs]
    exact ⟨_, rfl⟩
  | declaration hd =>
    cases hd with
    | mutable hk hn hc ht hi hs =>
      simp only [List.cons_append, Statement.parse, hk]
      refine (Declaration.yields_parse hn hc ht hi hs (.inl rfl)).bind fun lt => ?_
      exact ⟨_, rfl⟩
    | constant hk hn hc ht hi hs =>
      simp only [List.cons_append, Statement.parse, hk]
      refine (Declaration.yields_parse hn hc ht hi hs (.inr rfl)).bind fun lt => ?_
      exact ⟨_, rfl⟩
  | expression he hs =>
    rw [List.append_assoc]
    have hin := Expr.Derives.yields_stop 0 (by decide) he (Stops.symbol 0 rest hs rfl)
    obtain ⟨t, us, rfl, ht⟩ := he.opens
    obtain ⟨hsemicolon, hmutable, hconstant, hreserved⟩ := ht.not_statement
    unfold Statement.parse
    dsimp only [List.cons_append]
    split
    · exact absurd ‹_› hsemicolon
    · exact absurd ‹_› hmutable
    · exact absurd ‹_› hconstant
    · exact absurd ‹_› (hreserved _)
    · refine hin.bind fun lt => ?_
      refine (Yields.expect hs rest).bind fun lt' => ?_
      exact ⟨_, rfl⟩

/-- A statement does not start where the text ends. -/
theorem Derives.starts {ts : List Token} {statement : Option Statement}
    (h : Derives ts statement) : ∃ t us, ts = t :: us ∧ t.kind ≠ .eof := by
  cases h with
  | empty hs => exact ⟨_, _, rfl, by simp [hs]⟩
  | declaration hd =>
    cases hd with
    | mutable hk | constant hk => exact ⟨_, _, rfl, by simp [hk]⟩
  | expression he hs =>
    obtain ⟨t, us, rfl, ht⟩ := he.opens
    refine ⟨t, _, rfl, fun hk => ?_⟩
    rcases ht with ht | ⟨name, ht⟩ | ⟨s, ht, _⟩ <;> simp [Token.literal?, hk] at ht

end Statement

namespace Program

/-- The program before the end of the text is read as it is derived. -/
theorem Derives.parse {ts : List Token} {p : Program} (h : Derives ts p) {stop : Token}
    (hs : stop.kind = .eof) (rest : List Token) : Program.parse (ts ++ stop :: rest) = .ok p := by
  induction h with
  | nil =>
    rw [List.nil_append, Program.parse]
    show (if stop.kind = .eof then _ else _) = _
    rw [if_pos hs]
    rfl
  | @cons ts us statement p hd _ ih =>
    obtain ⟨t, ts', rfl, ht⟩ := hd.starts
    obtain ⟨lt, hstatement⟩ :
      Yields (Statement.parse (t :: (ts' ++ (us ++ stop :: rest)))) statement _ := hd.yields _
    rw [List.append_assoc, List.cons_append, Program.parse]
    show (if t.kind = .eof then _ else _) = _
    rw [if_neg ht, hstatement]
    show (Program.parse (us ++ stop :: rest) >>= _) = _
    rw [ih]
    rfl

/-- A list that is split at its first end of text is split there in one way only. -/
theorem eq_of_append_eof {ts used rest : List Token} {stop stop' : Token}
    (hts : ∀ t ∈ ts, t.kind ≠ .eof) (hused : ∀ t ∈ used, t.kind ≠ .eof) (hs : stop.kind = .eof)
    (hs' : stop'.kind = .eof) (h : ts ++ [stop] = used ++ stop' :: rest) : ts = used := by
  induction ts generalizing used with
  | nil =>
    match used with
    | [] => rfl
    | u :: used =>
      rw [List.nil_append, List.cons_append, List.cons.injEq] at h
      exact absurd (h.1 ▸ hs) (hused u List.mem_cons_self)
  | cons t ts ih =>
    match used with
    | [] =>
      rw [List.nil_append, List.cons_append, List.cons.injEq] at h
      exact absurd (h.1 ▸ hs') (hts t List.mem_cons_self)
    | u :: used =>
      rw [List.cons_append, List.cons_append, List.cons.injEq] at h
      rw [h.1, ih (List.forall_mem_cons.1 hts).2 (List.forall_mem_cons.1 hused).2 h.2]

/-- A program is read from a text exactly if its tokens derive it. -/
theorem parse_eq_ok_iff (ts : List Token) (stop : Token) (p : Program)
    (hts : ∀ t ∈ ts, t.kind ≠ .eof) (hstop : stop.kind = .eof) :
    Program.parse (ts ++ [stop]) = .ok p ↔ Derives ts p := by
  constructor
  · intro h
    have hread := parse_read (ts ++ [stop])
    rw [h] at hread
    obtain ⟨used, stop', rest, htokens, hstop', hused, hd⟩ := hread
    rw [eq_of_append_eof hts hused hstop hstop' htokens]
    exact hd
  · intro h
    exact h.parse hstop []

theorem parse_eq_ok_iff_power :
    let ts : List Token :=
      [⟨.identifier "a", "a", ⟨1, 0, 1⟩⟩, ⟨.symbol .equal, "=", ⟨1, 2, 3⟩⟩,
       ⟨.symbol .minus, "-", ⟨1, 4, 5⟩⟩, ⟨.identifier "b", "b", ⟨1, 5, 6⟩⟩,
       ⟨.symbol .starStar, "**", ⟨1, 7, 9⟩⟩, ⟨.identifier "c", "c", ⟨1, 10, 11⟩⟩,
       ⟨.symbol .semicolon, ";", ⟨1, 11, 12⟩⟩]
    let stop : Token := ⟨.eof, "", ⟨1, 12, 12⟩⟩
    let power : Expr :=
      .binary .power (.unary .negate (.ident ⟨"b", ⟨1, 5, 6⟩⟩) ⟨1, 4, 6⟩)
        (.ident ⟨"c", ⟨1, 10, 11⟩⟩) ⟨1, 4, 11⟩
    let p : Program := [.expression (.assign .plain ⟨"a", ⟨1, 0, 1⟩⟩ power ⟨1, 0, 11⟩)]
    (∀ t ∈ ts, t.kind ≠ .eof) ∧ stop.kind = .eof ∧ Program.parse (ts ++ [stop]) = .ok p ∧
      Derives ts p := by
  intro ts stop power p
  have hts : ∀ t ∈ ts, t.kind ≠ .eof := by decide
  have hp : Program.parse (ts ++ [stop]) = .ok p := by with_unfolding_all rfl
  exact ⟨hts, rfl, hp, (parse_eq_ok_iff ts stop p hts rfl).1 hp⟩

end Program

end StackCompiler
