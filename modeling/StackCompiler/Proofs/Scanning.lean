import Mathlib.Data.List.Basic
import StackCompiler.Token.Scan

/-!
# The tokens of a text

No token, and no comment that ends, goes on over the end of the text when a line feed follows
there (`Piece.read_settled`). The tokens of a text end with its end and hold no other one, and
those of two texts with a line feed between them are the tokens of the first and then those of the
second from its own line on (`scan_append_newline`).
-/

namespace StackCompiler

theorem Symbol.newline_notMem_chars (s : Symbol) : '\n' ∉ s.chars := by
  cases s <;> decide

namespace Piece

variable {cs : List Char}

/-- What is read does not go beyond the text, nor would it if a line feed and more text
followed. -/
def Settled (read : List Char → Piece × Nat) (cs : List Char) : Prop :=
  (read cs).2 ≤ cs.length ∧ ∀ b, read (cs ++ '\n' :: b) = read cs

theorem takeWhile_append_newline {p : Char → Bool} (hp : p '\n' = false) (cs b : List Char) :
    (cs ++ '\n' :: b).takeWhile p = cs.takeWhile p := by
  induction cs with
  | nil => rw [List.nil_append, List.takeWhile_cons, hp]; rfl
  | cons c cs ih => rw [List.cons_append, List.takeWhile_cons, List.takeWhile_cons, ih]

theorem drop_takeWhile_append (p : Char → Bool) (cs b : List Char) :
    (cs ++ b).drop (cs.takeWhile p).length = cs.drop (cs.takeWhile p).length ++ b :=
  List.drop_append_of_le_length (List.takeWhile_prefix p).length_le

theorem head?_append_newline {c : Char} (hc : c ≠ '\n') (cs b : List Char) :
    (cs ++ '\n' :: b).head? = some c ↔ cs.head? = some c := by
  cases cs with
  | nil => simpa using hc.symm
  | cons d cs => rfl

theorem quotedBody_append_newline (quote : Char) (cs b : List Char) :
    quotedBody quote (cs ++ '\n' :: b) = quotedBody quote cs :=
  takeWhile_append_newline (by simp) cs b

theorem lt_of_head?_drop {n : Nat} {c : Char} (h : (cs.drop n).head? = some c) : n < cs.length := by
  rw [List.head?_drop] at h
  exact (List.getElem?_eq_some_iff.1 h).1

theorem readString_settled (cs : List Char) : Settled readString cs := by
  have hlen : (quotedBody '"' cs).length ≤ cs.length := (List.takeWhile_prefix _).length_le
  constructor
  · unfold readString
    dsimp only
    split_ifs with hquote
    · exact lt_of_head?_drop hquote
    · exact hlen
  · intro b
    unfold readString
    dsimp only
    rw [quotedBody_append_newline, List.drop_append_of_le_length hlen]
    simp only [head?_append_newline (c := '"') (by decide)]

theorem readChar_settled (cs : List Char) : Settled readChar cs := by
  have hlen : (quotedBody '\'' cs).length ≤ cs.length := (List.takeWhile_prefix _).length_le
  constructor
  · unfold readChar
    dsimp only
    by_cases hquote : (cs.drop (quotedBody '\'' cs).length).head? = some '\''
    · have hlt := lt_of_head?_drop hquote
      rw [if_pos hquote]
      generalize quotedBody '\'' cs = body at hlt ⊢
      rcases body with _ | ⟨c, _ | ⟨d, body⟩⟩ <;> exact hlt
    · rw [if_neg hquote]
      exact hlen
  · intro b
    have hclose := head?_append_newline (c := '\'') (by decide)
      (cs.drop (quotedBody '\'' cs).length) b
    unfold readChar
    dsimp only
    rw [quotedBody_append_newline, List.drop_append_of_le_length hlen]
    by_cases hquote : (cs.drop (quotedBody '\'' cs).length).head? = some '\''
    · rw [if_pos hquote, if_pos (hclose.2 hquote)]
    · rw [if_neg hquote, if_neg (mt hclose.1 hquote)]

theorem readNumber_settled (c : Char) (cs : List Char) : Settled (readNumber c) cs := by
  have hwhole : (cs.takeWhile isDigitOrSeparator).length ≤ cs.length :=
    (List.takeWhile_prefix _).length_le
  constructor
  · unfold readNumber
    dsimp only
    split
    · rename_i after hafter
      have hlen : cs.length - (cs.takeWhile isDigitOrSeparator).length = after.length + 1 := by
        rw [← List.length_drop, hafter, List.length_cons]
      have hfraction : (after.takeWhile isDigitOrSeparator).length ≤ after.length :=
        (List.takeWhile_prefix _).length_le
      split_ifs with _ hpoint
      · have hlt := lt_of_head?_drop hpoint
        dsimp only
        omega
      · dsimp only
        omega
      · dsimp only
        omega
    · split_ifs <;> exact hwhole
  · intro b
    unfold readNumber
    dsimp only
    rw [takeWhile_append_newline (by decide), drop_takeWhile_append]
    generalize cs.drop (cs.takeWhile isDigitOrSeparator).length = rest
    split
    · rename_i after' hafter'
      -- The point was there before the line feed.
      cases rest with
      | nil => cases hafter'
      | cons d after =>
        rw [List.cons_append, List.cons.injEq] at hafter'
        obtain ⟨rfl, rfl⟩ := hafter'
        have hdigit : ((after ++ '\n' :: b).head?.map Char.isDigit).getD false =
            (after.head?.map Char.isDigit).getD false := by
          cases after <;> rfl
        simp only [hdigit, takeWhile_append_newline (p := isDigitOrSeparator) (by decide),
          drop_takeWhile_append, head?_append_newline (c := '.') (by decide)]
    · rename_i hno
      symm
      split
      · exact (hno _ rfl).elim
      · rfl

theorem readWord_settled (c : Char) (cs : List Char) : Settled (readWord c) cs := by
  refine ⟨(List.takeWhile_prefix _).length_le, fun b => ?_⟩
  rw [readWord, readWord, takeWhile_append_newline rfl]

theorem isPrefixOf_append_newline {s : List Char} (hs : '\n' ∉ s) (cs b : List Char) :
    s.isPrefixOf (cs ++ '\n' :: b) = s.isPrefixOf cs := by
  induction s generalizing cs with
  | nil => rfl
  | cons c s ih =>
    rw [List.mem_cons, not_or] at hs
    cases cs with
    | nil =>
      rw [List.nil_append, List.isPrefixOf_cons_cons, beq_false_of_ne (Ne.symm hs.1)]
      rfl
    | cons d cs =>
      rw [List.cons_append, List.isPrefixOf_cons_cons, List.isPrefixOf_cons_cons, ih hs.2]

theorem readSymbol_settled (c : Char) (cs : List Char) : Settled (readSymbol c) cs := by
  have hfront : ∀ b, Symbol.atFront? (c :: (cs ++ '\n' :: b)) = Symbol.atFront? (c :: cs) := by
    intro b
    rw [Symbol.atFront?, Symbol.atFront?]
    congr 1
    funext s
    exact isPrefixOf_append_newline s.newline_notMem_chars (c :: cs) b
  constructor
  · rw [readSymbol]
    split
    · rename_i s hs
      rw [Symbol.atFront?] at hs
      have hfound := List.find?_some hs
      have hlen := (List.isPrefixOf_iff_prefix.1 hfound).length_le
      rw [List.length_cons] at hlen
      dsimp only
      omega
    · exact Nat.zero_le _
  · intro b
    rw [readSymbol, readSymbol, hfront]

theorem commentLength?_append {n : Nat} (h : commentLength? cs = some n) :
    n ≤ cs.length ∧ ∀ b, commentLength? (cs ++ b) = some n := by
  induction cs generalizing n with
  | nil => cases h
  | cons c cs ih =>
    rw [commentLength?] at h
    split_ifs at h with hclose
    · cases h
      obtain ⟨rfl, hhead⟩ := hclose
      obtain ⟨d, ds, rfl⟩ := List.exists_cons_of_ne_nil (l := cs) (by rintro rfl; cases hhead)
      cases hhead
      exact ⟨by simp, fun b => rfl⟩
    · obtain ⟨m, hm, rfl⟩ := Option.map_eq_some_iff.1 h
      obtain ⟨hle, happend⟩ := ih hm
      refine ⟨by rw [List.length_cons]; omega, fun b => ?_⟩
      have hne : cs ≠ [] := by
        rintro rfl
        cases hm
      rw [List.cons_append, commentLength?, List.head?_append_of_ne_nil _ hne, if_neg hclose,
        happend b, Option.map_some]

/-- What is read at the front of a text, if it is no fault, ends with the line at the latest or is
a comment that ends. -/
theorem read_settled {c : Char} {cs : List Char} (h : ∀ cause, (read c cs).1 ≠ .fault cause) :
    Settled (read c) cs := by
  have hslash : ∀ b, (cs ++ '\n' :: b).head? = some '/' ↔ cs.head? = some '/' :=
    head?_append_newline (by decide) cs
  have hstar : ∀ b, (cs ++ '\n' :: b).head? = some '*' ↔ cs.head? = some '*' :=
    head?_append_newline (by decide) cs
  unfold Settled
  unfold read at h ⊢
  simp only [hslash, hstar]
  split_ifs with h₁ h₂ h₃ h₄ h₅ h₆ h₇
  · exact ⟨Nat.zero_le _, fun _ => rfl⟩
  · refine ⟨(List.takeWhile_prefix _).length_le, fun b => ?_⟩
    rw [takeWhile_append_newline (by simp)]
  · rw [if_neg h₁, if_neg h₂, if_pos h₃] at h
    obtain ⟨_, hhead⟩ := h₃
    obtain ⟨ds, rfl⟩ := List.head?_eq_some_iff.1 hhead
    cases hl : commentLength? ds with
    | none =>
      rw [List.drop_one, List.tail_cons, hl] at h
      exact (h _ rfl).elim
    | some n =>
      obtain ⟨hle, happend⟩ := commentLength?_append hl
      rw [List.drop_one, List.tail_cons, hl]
      refine ⟨Nat.succ_le_succ hle, fun b => ?_⟩
      rw [List.cons_append, List.drop_one, List.tail_cons, happend]
  · exact readString_settled cs
  · exact readChar_settled cs
  · exact readNumber_settled c cs
  · exact readWord_settled c cs
  · exact readSymbol_settled c cs

end Piece

theorem TokenKind.ofWord_ne_eof (word : String) : ofWord word ≠ .eof := by
  rw [ofWord]
  cases h : keywords.lookup word with
  | none => nofun
  | some kind =>
    obtain ⟨before, after, hkeywords, _⟩ := List.lookup_eq_some_iff.1 h
    have hmem : (word, kind) ∈ keywords := by
      rw [hkeywords]
      exact List.mem_append_right _ List.mem_cons_self
    have hall : ∀ q ∈ keywords, q.2 ≠ .eof := by decide
    exact hall _ hmem

/-- The end of the text is no piece of it. -/
theorem Piece.read_ne_eof (c : Char) (cs : List Char) : (read c cs).1 ≠ .token .eof := by
  unfold read
  split_ifs
  · nofun
  · nofun
  · split <;> nofun
  · unfold readString
    dsimp only
    split_ifs <;> nofun
  · unfold readChar
    dsimp only
    by_cases hquote : (cs.drop (quotedBody '\'' cs).length).head? = some '\''
    · rw [if_pos hquote]
      rcases quotedBody '\'' cs with _ | ⟨c, _ | ⟨d, body⟩⟩ <;> nofun
    · rw [if_neg hquote]
      nofun
  · unfold readNumber
    dsimp only
    split
    · split_ifs <;> nofun
    · split_ifs <;> nofun
  · exact fun h => TokenKind.ofWord_ne_eof _ (Piece.token.inj h)
  · unfold readSymbol
    split <;> nofun

section Scan

variable {here : Cursor} {c : Char} {cs : List Char}

theorem scan_of_gap (h : (Piece.read c cs).1 = .gap) :
    scan here (c :: cs) =
      scan (here.advance (c :: cs.take (Piece.read c cs).2)) (cs.drop (Piece.read c cs).2) := by
  rw [scan, h]

theorem scan_of_token {kind : TokenKind} (h : (Piece.read c cs).1 = .token kind) :
    let text := c :: cs.take (Piece.read c cs).2
    scan here (c :: cs) = (scan (here.advance text) (cs.drop (Piece.read c cs).2)).map
      (⟨kind, String.ofList text, here.span text⟩ :: ·) := by
  rw [scan, h]
  dsimp only
  cases scan (here.advance (c :: cs.take (Piece.read c cs).2)) (cs.drop (Piece.read c cs).2) <;> rfl

theorem Cursor.advance_take_drop (n : Nat) :
    (here.advance (c :: cs.take n)).advance (cs.drop n) = here.advance (c :: cs) := by
  rw [← Cursor.advance_append, List.cons_append, List.take_append_drop]

/-- The tokens of a text end with its end and hold no other one, and they are followed by those of
whatever comes after a line feed. -/
theorem scan_append_newline {a : List Char} {ts : List Token} (h : scan here a = .ok ts) :
    ∃ us stop, ts = us ++ [stop] ∧ stop.kind = .eof ∧ (∀ t ∈ us, t.kind ≠ .eof) ∧
      ∀ b, scan here (a ++ '\n' :: b) =
        (scan ⟨(here.advance a).line + 1, 0⟩ b).map (us ++ ·) := by
  fun_induction scan here a generalizing ts with
  | case1 here =>
    cases h
    refine ⟨[], _, rfl, rfl, nofun, fun b => ?_⟩
    rw [List.nil_append, scan_of_gap rfl]
    exact (id_map _).symm
  | case2 here c cs piece text =>
    rename_i hgap ih
    obtain ⟨us, stop, hts, hstop, hus, happend⟩ := ih h
    have hsettled : Piece.Settled (Piece.read c) cs := Piece.read_settled (by rw [hgap]; nofun)
    refine ⟨us, stop, hts, hstop, hus, fun b => ?_⟩
    rw [List.cons_append, scan_of_gap (by rw [hsettled.2, hgap]), hsettled.2,
      List.take_append_of_le_length hsettled.1, List.drop_append_of_le_length hsettled.1, happend,
      Cursor.advance_take_drop]
  | case3 here c cs piece text kind =>
    rename_i hkind ih
    cases hscan : scan (here.advance text) (cs.drop piece.2) with
    | error complaint =>
      rw [hscan] at h
      cases h
    | ok tokens =>
      rw [hscan] at h
      cases h
      obtain ⟨us, stop, rfl, hstop, hus, happend⟩ := ih hscan
      have hsettled : Piece.Settled (Piece.read c) cs := Piece.read_settled (by rw [hkind]; nofun)
      have hne : kind ≠ .eof := by
        rintro rfl
        exact Piece.read_ne_eof c cs hkind
      refine ⟨⟨kind, String.ofList text, here.span text⟩ :: us, stop, rfl, hstop,
        List.forall_mem_cons.2 ⟨hne, hus⟩, fun b => ?_⟩
      rw [List.cons_append, scan_of_token (by rw [hsettled.2, hkind]), hsettled.2,
        List.take_append_of_le_length hsettled.1, List.drop_append_of_le_length hsettled.1, happend,
        Cursor.advance_take_drop]
      cases scan ⟨(here.advance (c :: cs)).line + 1, 0⟩ b <;> rfl
  | case4 => cases h

end Scan

end StackCompiler
