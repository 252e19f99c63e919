import StackCompiler.Program.Parse
import StackCompiler.Proofs.Levels
import StackCompiler.Proofs.Reading

/-!
# What is read is derived

Each reader uses up tokens that derive its tree, and an expression read with a floor is followed
by a token that does not bind more than the floor (`Expr.parse_reads`). The rest of an expression
is read in a loop, whose invariant is that the tokens read so far derive the tree so far at a
level above the floor. The readers of types, names, declarations and statements follow, and last
the whole program (`Program.parse_read`). Tokens that contain an end of the text never run out.
-/

namespace StackCompiler

namespace Expr

mutual

theorem parse_reads (floor : Nat) (hf : floor ≤ 14) (ts : List Token) :
    Reads ts (fun used e rest => Derives (levelAbove floor) used e ∧ Stops floor rest)
      (parse floor ts) := by
  rw [parse]
  refine Reads.bind (parseOperand_reads ts) fun used left rest lt hts h => ?_
  obtain ⟨k, hk, hd, hstop⟩ := h
  have hl : levelAbove floor ≤ k := by unfold levelAbove; omega
  refine Reads.bind (parseRest_reads floor hf left rest hd hstop hl)
    fun used' e rest' lt' hrest h => ?_
  exact Reads.stay (by simpa using h)
termination_by (ts.length, 3)
decreasing_by all_goals decreasing_with omega

theorem parseOperand_reads : (ts : List Token) →
    Reads ts (fun used e rest => ∃ k, 14 ≤ k ∧ Derives k used e ∧ Stops k rest) (parseOperand ts)
  | [] => by rw [parseOperand]; exact Reads.endOfTokens
  | t :: ts => by
    rw [parseOperand]
    split
    · rename_i value hv
      refine Reads.cons ?_ (Reads.stay ⟨16, by decide, .literal hv, .of_le (by decide) ts⟩)
      intro he
      simp [Token.literal?, he] at hv
    split
    · rename_i name hn
      exact Reads.cons (by simp [hn])
        (Reads.stay ⟨16, by decide, .name hn, .of_le (by decide) ts⟩)
    · rename_i hl
      refine Reads.cons (by simp [hl]) (Reads.peek fun after rest₀ _ => ?_)
      split
      · exact Reads.refuse _ _
      refine Reads.bind (parse_reads 0 (by decide) ts) fun used inner rest lt hts h => ?_
      refine Reads.bind (Reads.expect .rightParen rest) fun used' close rest' lt' hrest hc => ?_
      obtain ⟨rfl, hr⟩ := hc
      refine Reads.stay ⟨16, by decide, ?_, .of_le (by decide) rest'⟩
      rw [List.append_nil]
      exact .group hl h.1 hr
    · rename_i hl
      refine Reads.cons (by simp [hl]) ?_
      refine Reads.bind (parseItems_reads ts) fun used items rest lt hts h => ?_
      refine Reads.bind (Reads.expect .rightBracket rest) fun used' close rest' lt' hrest hc => ?_
      obtain ⟨rfl, hr⟩ := hc
      refine Reads.stay ⟨16, by decide, ?_, .of_le (by decide) rest'⟩
      rw [List.append_nil]
      exact .array hl h hr
    · rename_i s _ _ hs
      refine Reads.cons (by simp [hs]) ?_
      split
      · rename_i op ho
        refine Reads.bind (parse_reads 14 (by decide) ts) fun used operand rest lt hts h => ?_
        dsimp only
        split
        · refine Reads.stay ⟨14, by decide, ?_, h.2⟩
          rw [List.append_nil]
          exact .updateBefore hs (Grammar.mem_updates.2 ho) h.1
        · exact Reads.refuse _ _
      · rename_i op _ ho
        refine Reads.bind (parse_reads 14 (by decide) ts) fun used operand rest lt hts h => ?_
        refine Reads.stay ⟨14, by decide, ?_, h.2⟩
        rw [List.append_nil]
        exact .unary hs (Grammar.mem_unaries.2 ho) h.1
      · exact Reads.refuse _ _
    · exact Reads.refuse _ _
termination_by ts => (ts.length, 2)
decreasing_by all_goals decreasing_with omega

theorem parseItems_reads (ts : List Token) :
    Reads ts (fun used items _ => DerivesItems used items) (parseItems ts) := by
  rw [parseItems]
  refine Reads.peek fun t rest₀ _ => ?_
  split
  · exact Reads.stay .none
  refine Reads.bind (parse_reads 1 (by decide) ts) fun used item rest lt hts h => ?_
  refine Reads.bind (parseMoreItems_reads rest) fun used' items rest' lt' hrest hs => ?_
  refine Reads.stay ?_
  rw [List.append_nil]
  exact .some h.1 hs
termination_by (ts.length, 4)
decreasing_by all_goals decreasing_with omega

theorem parseMoreItems_reads : (ts : List Token) →
    Reads ts (fun used items _ => DerivesMore used items) (parseMoreItems ts)
  | [] => by rw [parseMoreItems]; exact Reads.endOfTokens
  | t :: ts => by
    rw [parseMoreItems]
    split
    · rename_i ht
      refine Reads.cons (by simp [ht]) ?_
      refine Reads.bind (parse_reads 1 (by decide) ts) fun used item rest lt hts h => ?_
      refine Reads.bind (parseMoreItems_reads rest) fun used' items rest' lt' hrest hs => ?_
      refine Reads.stay ?_
      rw [List.append_nil]
      exact .cons ht h.1 hs
    · exact Reads.stay .nil
termination_by ts => (ts.length, 0)
decreasing_by all_goals decreasing_with omega

theorem parseRest_reads (floor : Nat) (hf : floor ≤ 14) (left : Expr) {k : Nat}
    {us : List Token} : (ts : List Token) → Derives k us left → Stops k ts →
      levelAbove floor ≤ k →
      Reads ts (fun used e rest => Derives (levelAbove floor) (us ++ used) e ∧ Stops floor rest)
        (parseRest floor left ts)
  | [], _, _, _ => by rw [parseRest]; exact Reads.endOfTokens
  | t :: ts, hd, hstop, hk => by
    have stay (h : Stops floor (t :: ts)) :
        Reads (t :: ts)
          (fun used e rest => Derives (levelAbove floor) (us ++ used) e ∧ Stops floor rest)
          (.ok ⟨left, t :: ts, Nat.lt_succ_self _⟩) :=
      Reads.stay ⟨by rw [List.append_nil]; exact hd.anti hk, h⟩
    rw [parseRest]
    split
    · rename_i hc
      exact stay (Stops.cons_iff.2 (by simp [hc]))
    rename_i c hc
    split
    · rename_i hle
      refine stay (Stops.cons_iff.2 fun c' hc' => ?_)
      cases hc.symm.trans hc'
      exact hle
    rename_i hlt
    -- The operand so far is of level `k`, so it is one of the level of the operator that follows.
    have hs : c.strength ≤ k := Stops.cons_iff.1 hstop c hc
    refine Reads.cons ?_ ?_
    · intro he
      simp [Token.continuation?, he] at hc
    refine Reads.bind (parseContinued_reads c left t ts hc (hd.anti hs))
      fun used e rest lt hts h => ?_
    refine Reads.bind (parseRest_reads floor hf e rest h.1 h.2
      (levelAbove_le_strength (Nat.lt_of_not_le hlt))) fun used' e' rest' lt' hrest h' => ?_
    refine Reads.stay ⟨?_, h'.2⟩
    simpa using h'.1
termination_by ts => (ts.length, 1)
decreasing_by all_goals decreasing_with omega

theorem parseContinued_reads (c : Continuation) (left : Expr) (t : Token) (ts : List Token)
    {us : List Token} (hc : t.continuation? = some c) (hd : Derives c.strength us left) :
    Reads ts
      (fun used e rest => Derives c.strength (us ++ t :: used) e ∧ Stops c.strength rest)
      (parseContinued c left t ts) := by
  obtain ⟨s, hs, hsc⟩ := Token.continuation?_eq_some hc
  unfold parseContinued
  split
  · rename_i op
    split
    · exact Reads.stay ⟨.updateAfter hd hs (Grammar.mem_updates_iff_continuation.2 hsc),
        .of_le (Nat.le_refl 15) ts⟩
    · exact Reads.refuse _ _
  · cases Symbol.continuation?_eq_index.1 hsc
    refine Reads.bind (parse_reads 0 (by decide) ts) fun used position rest lt hts h => ?_
    refine Reads.bind (Reads.expect .rightBracket rest) fun used' close rest' lt' hrest hr => ?_
    obtain ⟨rfl, hr⟩ := hr
    refine Reads.stay ⟨?_, .of_le (Nat.le_refl 15) rest'⟩
    rw [List.append_nil]
    exact .index hd hs h.1 hr
  · cases Symbol.continuation?_eq_sequence.1 hsc
    refine Reads.bind (parse_reads 1 (by decide) ts) fun used right rest lt hts h => ?_
    refine Reads.stay ⟨?_, h.2⟩
    rw [List.append_nil]
    exact .sequence hd hs h.1
  · rename_i op
    split
    · refine Reads.bind (parse_reads 2 (by decide) ts) fun used value rest lt hts h => ?_
      refine Reads.stay ⟨?_, h.2⟩
      rw [List.append_nil]
      -- The target was read as an operand of level 2; being a name, it is one of level 3 too.
      have hid := (hd.primary ⟨_, rfl⟩).anti (show 3 ≤ 16 by decide)
      exact .assign hid hs (Grammar.mem_assignments.2 hsc) h.1
    · exact Reads.refuse _ _
  · rename_i op
    have hn := op.strength_le
    refine Reads.bind (parse_reads op.strength (by omega) ts) fun used right rest lt hts h => ?_
    refine Reads.stay ⟨?_, h.2⟩
    rw [List.append_nil]
    have hr : levelAbove op.strength = op.strength + 1 := by unfold levelAbove; omega
    exact .binary hd hs (Grammar.mem_binaries.2 ⟨hsc, rfl⟩) (hr ▸ h.1)
termination_by (ts.length, 4)
decreasing_by all_goals decreasing_with omega

end

end Expr

/-! ## Types -/

namespace Ty

/-- Brackets behind a member make it a longer member. -/
theorem parseBrackets_reads (t : Ty) {us : List Token} : (ts : List Token) →
    DerivesMember us t →
      Reads ts (fun used t' _ => DerivesMember (us ++ used) t') (parseBrackets t ts)
  | [], _ => by rw [parseBrackets]; exact Reads.endOfTokens
  | u :: ts, hd => by
    rw [parseBrackets]
    split
    · rename_i hl
      refine Reads.cons (by simp [hl]) (Reads.peek fun after rest₀ _ => ?_)
      split
      · refine Reads.bind (Reads.expect .rightBracket ts) fun used close rest lt hts hr => ?_
        obtain ⟨rfl, hr⟩ := hr
        refine Reads.bind (parseBrackets_reads (.array t none) rest (.array hd hl hr))
          fun used' t' rest' lt' hrest h => ?_
        exact Reads.stay (by simpa using h)
      · refine Reads.bind (Expr.parse_reads 2 (by decide) ts) fun used e rest lt hts he => ?_
        refine Reads.bind (Reads.expect .rightBracket rest) fun used' close rest' lt' hrest hr => ?_
        obtain ⟨rfl, hr⟩ := hr
        refine Reads.bind
          (parseBrackets_reads (.array t (some e)) rest' (.sized hd hl he.1 hr))
          fun used'' t' rest'' lt'' hrest' h => ?_
        exact Reads.stay (by simpa using h)
    · exact Reads.stay (by rw [List.append_nil]; exact hd)
termination_by ts => ts.length
decreasing_by all_goals decreasing_with omega

mutual

theorem parse_reads (ts : List Token) :
    Reads ts (fun used t _ => Derives used t) (parse ts) := by
  rw [parse]
  refine Reads.bind (parseMember_reads ts) fun used first rest lt hts h => ?_
  refine Reads.bind (parseOthers_reads rest) fun used' others rest' lt' hrest hs => ?_
  refine Reads.stay ?_
  rw [List.append_nil]
  match others, hs with
  | [], .nil => exact .single (by rw [List.append_nil]; exact h)
  | _ :: _, hs => exact .union h hs
termination_by (ts.length, 2)
decreasing_by all_goals decreasing_with omega

theorem parseMember_reads : (ts : List Token) →
    Reads ts (fun used t _ => DerivesMember used t) (parseMember ts)
  | [] => by rw [parseMember]; exact Reads.endOfTokens
  | t :: ts => by
    rw [parseMember]
    split
    · rename_i s hs
      refine Reads.cons (by simp [hs]) ?_
      refine Reads.bind (parseBrackets_reads _ ts (.scalar hs)) fun used ty rest lt hts h => ?_
      exact Reads.stay (by simpa using h)
    · rename_i hn
      refine Reads.cons (by simp [hn]) ?_
      refine Reads.bind (parseBrackets_reads _ ts (.null hn)) fun used ty rest lt hts h => ?_
      exact Reads.stay (by simpa using h)
    · rename_i hl
      refine Reads.cons (by simp [hl]) ?_
      refine Reads.bind (parse_reads ts) fun used inner rest lt hts h => ?_
      refine Reads.bind (Reads.expect .rightParen rest) fun used' close rest' lt' hrest hr => ?_
      obtain ⟨rfl, hr⟩ := hr
      refine Reads.bind (parseBrackets_reads inner rest' (.group hl h hr))
        fun used'' ty rest'' lt'' hrest' h => ?_
      exact Reads.stay (by simpa using h)
    · exact Reads.refuse _ _
termination_by ts => (ts.length, 1)
decreasing_by all_goals decreasing_with omega

theorem parseOthers_reads : (ts : List Token) →
    Reads ts (fun used others _ => DerivesOthers used others) (parseOthers ts)
  | [] => by rw [parseOthers]; exact Reads.endOfTokens
  | t :: ts => by
    rw [parseOthers]
    split
    · rename_i hb
      refine Reads.cons (by simp [hb]) ?_
      refine Reads.bind (parseMember_reads ts) fun used member rest lt hts h => ?_
      refine Reads.bind (parseOthers_reads rest) fun used' members rest' lt' hrest hs => ?_
      refine Reads.stay ?_
      rw [List.append_nil]
      exact .cons hb h hs
    · exact Reads.stay .nil
termination_by ts => (ts.length, 0)
decreasing_by all_goals decreasing_with omega

end

end Ty

/-! ## Statements and programs -/

theorem Ident.parse_reads (ts : List Token) :
    Reads ts (fun used id _ => ∃ t name, used = [t] ∧ t.kind = .identifier name ∧
      id = ⟨name, t.range⟩) (Ident.parse ts) := by
  match ts with
  | [] => exact Reads.endOfTokens
  | t :: ts =>
    dsimp only [Ident.parse, next, bind, Except.bind]
    split
    · rename_i name hn
      exact Reads.cons (by simp [hn]) (Reads.stay ⟨t, name, rfl, hn, rfl⟩)
    · exact Reads.refuse _ _

theorem Ident.parseMore_reads : (ts : List Token) →
    Reads ts (fun used ids _ => DeriveMore used ids) (Ident.parseMore ts)
  | [] => by rw [Ident.parseMore]; exact Reads.endOfTokens
  | t :: ts => by
    rw [Ident.parseMore]
    split
    · rename_i hc
      refine Reads.cons (by simp [hc]) ?_
      refine Reads.bind (Ident.parse_reads ts) fun used id rest lt hts h => ?_
      obtain ⟨u, name, rfl, hu, rfl⟩ := h
      refine Reads.bind (Ident.parseMore_reads rest) fun used' ids rest' lt' hrest hs => ?_
      exact Reads.stay (by rw [List.append_nil]; exact .cons hc hu hs)
    · exact Reads.stay .nil
termination_by ts => ts.length
decreasing_by all_goals decreasing_with omega

theorem Ident.parseAll_reads (ts : List Token) :
    Reads ts (fun used ids _ => DeriveNames used ids) (Ident.parseAll ts) := by
  unfold Ident.parseAll
  refine Reads.bind (Ident.parse_reads ts) fun used id rest lt hts h => ?_
  obtain ⟨u, name, rfl, hu, rfl⟩ := h
  refine Reads.bind (Ident.parseMore_reads rest) fun used' ids rest' lt' hrest hs => ?_
  exact Reads.stay (by rw [List.append_nil]; exact .mk hu hs)

namespace Declaration

theorem parseInitializer_reads (ts : List Token) :
    Reads ts (fun used initializer _ => DerivesInitializer used initializer)
      (parseInitializer ts) := by
  match ts with
  | [] => exact Reads.endOfTokens
  | t :: ts =>
    rw [parseInitializer]
    split
    · rename_i ht
      refine Reads.cons (by simp [ht]) ?_
      refine Reads.bind (Expr.parse_reads 2 (by decide) ts) fun used e rest lt hts h => ?_
      refine Reads.stay ?_
      rw [List.append_nil]
      exact .some ht h.1
    · exact Reads.stay .none

/-- What is read behind the keyword `t` is a declaration with it. -/
theorem parse_reads (isMutable : Bool) (t : Token) (ts : List Token)
    (ht : t.kind = if isMutable then .mutable else .constant) :
    Reads ts (fun used d _ => Derives (t :: used) d) (parse isMutable t ts) := by
  unfold parse
  refine Reads.bind (Ident.parseAll_reads ts) fun ns names r₁ _ _ hn => ?_
  refine Reads.bind (Reads.expect .colon r₁) fun _ colon r₂ _ _ hc => ?_
  obtain ⟨rfl, hc⟩ := hc
  refine Reads.bind (Ty.parse_reads r₂) fun us ty r₃ _ _ hty => ?_
  refine Reads.bind (parseInitializer_reads r₃) fun is initializer r₄ _ _ hi => ?_
  dsimp only
  split
  · exact Reads.peek fun _ _ _ => Reads.refuse _ _
  rename_i hm
  refine Reads.bind (Reads.expect .semicolon r₄) fun _ stop r₅ _ _ hs => ?_
  obtain ⟨rfl, hs⟩ := hs
  refine Reads.stay ?_
  simp only [List.append_nil, List.cons_append, List.nil_append]
  match isMutable, initializer, hm with
  | true, initializer, _ => exact .mutable ht hn hc hty hi hs
  | false, some value, _ => exact .constant ht hn hc hty hi hs

end Declaration

theorem Statement.parse_reads (ts : List Token) :
    Reads ts (fun used statement _ => Statement.Derives used statement) (Statement.parse ts) := by
  match ts with
  | [] => exact Reads.endOfTokens
  | t :: ts =>
    unfold Statement.parse
    dsimp only
    split
    · rename_i hs
      exact Reads.cons (by simp [hs]) (Reads.stay (.empty hs))
    · rename_i hm
      refine Reads.cons (by simp [hm]) ?_
      refine Reads.bind (Declaration.parse_reads true t ts hm) fun used d rest lt _ h => ?_
      exact Reads.stay (by rw [List.append_nil]; exact .declaration h)
    · rename_i hk
      refine Reads.cons (by simp [hk]) ?_
      refine Reads.bind (Declaration.parse_reads false t ts hk) fun used d rest lt _ h => ?_
      exact Reads.stay (by rw [List.append_nil]; exact .declaration h)
    · exact Reads.refuse _ _
    · refine Reads.bind (Expr.parse_reads 0 (by decide) (t :: ts)) fun used e rest lt _ h => ?_
      refine Reads.bind (Reads.expect .semicolon rest) fun _ stop rest' lt' _ hs => ?_
      obtain ⟨rfl, hs⟩ := hs
      refine Reads.stay ?_
      rw [List.append_nil]
      exact .expression h.1 hs

/-- The tokens of its type are among the tokens of a declaration. -/
theorem Declaration.sublist_tokens (keyword colon : Token) (ns us is : List Token) :
    us.Sublist (keyword :: (ns ++ colon :: (us ++ is))) := by
  refine List.Sublist.cons _ (.trans ?_ (List.sublist_append_right _ _))
  exact .cons _ (List.sublist_append_left _ _)

namespace Program

/-- What is read of a program: its tokens, which stand before the first end of the text, are a
derivation of it, and tokens with an end of the text never run out. -/
def Read (ts : List Token) : Except Failure Program → Prop
  | .ok p => ∃ used stop rest, ts = used ++ stop :: rest ∧ stop.kind = .eof ∧
      (∀ t ∈ used, t.kind ≠ .eof) ∧ Derives used p
  | .error (.internal _) => ∀ t ∈ ts, t.kind ≠ .eof
  | .error _ => True

/-- A statement and the program behind it. -/
theorem Read.cons {used rest : List Token} {statement : Option Statement}
    {r : Except Failure Program} (hu : ∀ t ∈ used, t.kind ≠ .eof)
    (hs : Statement.Derives used statement) (h : Read rest r) :
    Read (used ++ rest) (do return statement.toList ++ (← r)) := by
  match r with
  | .ok p =>
    obtain ⟨used', stop, rest', hrest, hstop, hu', hp⟩ := h
    refine ⟨used ++ used', stop, rest', ?_, hstop, ?_, .cons hs hp⟩
    · rw [hrest, List.append_assoc]
    · exact List.forall_mem_append.mpr ⟨hu, hu'⟩
  | .error (.internal _) => exact List.forall_mem_append.mpr ⟨hu, h⟩
  | .error (.refused _) | .error (.tooManyWarnings _ _) => trivial

theorem parse_read (ts : List Token) : Read ts (Program.parse ts) := by
  match ts with
  | [] => rw [Program.parse]; exact fun _ ht => absurd ht List.not_mem_nil
  | t :: ts =>
    rw [Program.parse]
    change Read (t :: ts) (if t.kind = .eof then _ else _)
    split
    · rename_i he
      exact ⟨[], t, ts, rfl, he, fun _ ht => absurd ht List.not_mem_nil, .nil⟩
    have hr := Statement.parse_reads (t :: ts)
    match hs : Statement.parse (t :: ts) with
    | .error (.internal _) => rw [hs] at hr; exact hr
    | .error (.refused _) | .error (.tooManyWarnings _ _) => trivial
    | .ok ⟨statement, rest, lt⟩ =>
      rw [hs] at hr
      obtain ⟨used, hts, hu, hd⟩ := hr
      have hp := Read.cons hu hd (parse_read rest)
      rw [← show t :: ts = used ++ rest from hts] at hp
      exact hp
termination_by ts.length
decreasing_by exact lt

/-- A declaration in a program is written somewhere in its tokens. -/
theorem Derives.exists_declaration {ts : List Token} {p : Program} (h : Derives ts p)
    {d : Declaration} (hd : .declaration d ∈ p) :
    ∃ us, us.Sublist ts ∧ Declaration.Derives us d := by
  induction h with
  | nil => cases hd
  | cons hs _ ih =>
    rw [List.mem_append, Option.mem_toList] at hd
    rcases hd with hd | hd
    · cases hs with
      | empty _ => cases hd
      | expression _ _ => cases hd
      | declaration h =>
        cases hd
        exact ⟨_, List.sublist_append_left _ _, h⟩
    · obtain ⟨us, hsub, hd⟩ := ih hd
      exact ⟨us, hsub.trans (List.sublist_append_right _ _), hd⟩

/-- A declaration in a program that was read is derived by some tokens. -/
theorem exists_declaration_of_parse {ts : List Token} {p : Program} (h : Program.parse ts = .ok p)
    {d : Declaration} (hd : .declaration d ∈ p) : ∃ us, Declaration.Derives us d := by
  have hread := parse_read ts
  rw [h] at hread
  obtain ⟨_, _, _, _, _, _, hp⟩ := hread
  exact (hp.exists_declaration hd).imp fun _ h => h.2

end Program

end StackCompiler
