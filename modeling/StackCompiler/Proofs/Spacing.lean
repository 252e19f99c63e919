import Mathlib.Data.List.Basic
import StackCompiler.Proofs.Lexemes
import StackCompiler.Proofs.Steps

/-!
# Lexemes with white space between them

White space ends every token, whatever its class (`Lexeme.read_append`), and is skipped
(`scan_spaces`). So the lexemes of a text, written down again with any white space between them, are
read as the same tokens: `scan_spaced` says this of lexemes on their own, and `tokenize_spaced` of
those of a source text.
-/

namespace StackCompiler

section Spacing

variable {here : Cursor} {text rest : List Char} {ts us : List Token}

/-- The token is written as a lexeme of its kind. -/
def Token.IsLexeme (t : Token) : Prop :=
  ∃ c l, t.lexeme.toList = c :: l ∧ Lexeme t.kind (c :: l)

/-- All tokens of a text but its end are written as lexemes. -/
theorem scan_isLexeme (h : scan here text = .ok ts) :
    ∃ us r, ts = us ++ [⟨.eof, "", r⟩] ∧ ∀ t ∈ us, t.IsLexeme := by
  fun_induction scan here text generalizing ts with
  | case1 here =>
    cases h
    exact ⟨[], _, rfl, List.forall_mem_nil _⟩
  | case2 here c cs piece text =>
    rename_i hgap ih
    exact ih h
  | case3 here c cs piece text kind =>
    rename_i hkind ih
    have hread : Piece.read c cs = (.token kind, piece.2) := by rw [← hkind]
    obtain ⟨_, hlexeme, _⟩ := Lexeme.of_read hread
    cases hscan : scan (here.advance text) (cs.drop piece.2) with
    | error complaint =>
      rw [hscan] at h
      cases h
    | ok tokens =>
      rw [hscan] at h
      cases h
      obtain ⟨us, r, rfl, hus⟩ := ih hscan
      refine ⟨⟨kind, String.ofList text, here.span text⟩ :: us, r, rfl, ?_⟩
      exact List.forall_mem_cons.2 ⟨⟨_, _, String.toList_ofList, hlexeme⟩, hus⟩
  | case4 => cases h

/-- White space makes no tokens. -/
theorem scan_spaces {spaces : List Char} (h : ∀ c ∈ spaces, Piece.isSpace c) :
    scan here (spaces ++ rest) = scan (here.advance spaces) rest := by
  induction spaces generalizing here with
  | nil => rfl
  | cons c spaces ih =>
    rw [List.forall_mem_cons] at h
    have hread : Piece.read c (spaces ++ rest) = (.gap, 0) := by rw [Piece.read, if_pos h.1]
    rw [List.cons_append, scan_of_gap (by rw [hread]), hread]
    exact ih h.2

/-- A lexeme is read as its token where white space follows. -/
theorem scan_lexeme {t : Token} (ht : t.IsLexeme) (hrest : Piece.Apart rest) :
    scan here (t.lexeme.toList ++ rest) =
      (scan (here.advance t.lexeme.toList) rest).map
        (⟨t.kind, t.lexeme, here.span t.lexeme.toList⟩ :: ·) := by
  obtain ⟨c, l, htext, hlexeme⟩ := ht
  have hread : Piece.read c (l ++ rest) = (.token t.kind, l.length) := hlexeme.read_append hrest
  rw [htext, List.cons_append, scan_of_token (by rw [hread]), hread, List.take_left,
    List.drop_left, ← htext, String.ofList_toList]

/-- The lexemes of tokens, each with white space behind it, are read as these tokens. -/
theorem scan_spaced (here : Cursor) {seps : List String} (hlength : seps.length = us.length)
    (hus : ∀ t ∈ us, t.IsLexeme)
    (hseps : ∀ sep ∈ seps, sep ≠ "" ∧ ∀ c ∈ sep.toList, Piece.isSpace c) :
    ∃ vs, scan here ((List.zipWith (· ++ ·) (us.map Token.lexeme) seps).flatMap String.toList) =
        .ok vs ∧
      vs.map Token.kind = us.map Token.kind ++ [.eof] ∧
      vs.map Token.lexeme = us.map Token.lexeme ++ [""] := by
  induction us generalizing seps here with
  | nil => exact ⟨_, by rw [List.map_nil, List.zipWith_nil_left, List.flatMap_nil, scan], rfl, rfl⟩
  | cons t us ih =>
    obtain ⟨sep, seps, rfl⟩ := List.exists_cons_of_length_eq_add_one hlength
    rw [List.forall_mem_cons] at hus hseps
    obtain ⟨⟨hsep, hspaces⟩, hseps⟩ := hseps
    obtain ⟨vs, hscan, hkinds, hlexemes⟩ := ih ((here.advance t.lexeme.toList).advance sep.toList)
      (Nat.succ.inj hlength) hus.2 hseps
    have hapart : ∀ rest, Piece.Apart (sep.toList ++ rest) := by
      rintro rest c hc
      rw [List.head?_append_of_ne_nil _ (by simpa using hsep)] at hc
      exact hspaces c (List.mem_of_head? hc)
    rw [List.map_cons, List.zipWith_cons_cons, List.flatMap_cons, String.toList_append,
      List.append_assoc, scan_lexeme hus.1 (hapart _), scan_spaces hspaces, hscan]
    refine ⟨_, rfl, ?_, ?_⟩
    · rw [List.map_cons, hkinds]
      rfl
    · rw [List.map_cons, hlexemes]
      rfl

/-- The lexemes of a source text, written with any white space between them, are read as tokens of
the same kinds, with the same values and lexemes. -/
theorem tokenize_spaced {source : String} (h : tokenize source = .ok ts) {seps : List String}
    (hlength : seps.length + 1 = ts.length)
    (hseps : ∀ sep ∈ seps, sep ≠ "" ∧
      ∀ c ∈ sep.toList, c ∈ [' ', '\t', '\x0b', '\x0c', '\r', '\n']) :
    ∃ ts', tokenize (String.join
        (List.zipWith (· ++ ·) (ts.map Token.lexeme) (seps ++ [""]))) = .ok ts' ∧
      ts'.map Token.kind = ts.map Token.kind ∧ ts'.map Token.lexeme = ts.map Token.lexeme := by
  obtain ⟨us, r, rfl, hus⟩ := scan_isLexeme h
  rw [List.length_append, List.length_singleton, Nat.add_right_cancel_iff] at hlength
  have hspaces : ∀ sep ∈ seps, sep ≠ "" ∧ ∀ c ∈ sep.toList, Piece.isSpace c := by
    intro sep hsep
    refine ⟨(hseps sep hsep).1, fun c hc => ?_⟩
    have hmem := (hseps sep hsep).2 c hc
    simpa [Piece.isSpace, or_assoc] using hmem
  obtain ⟨vs, hscan, hkinds, hlexemes⟩ := scan_spaced .origin hlength hus hspaces
  refine ⟨vs, ?_, ?_, ?_⟩
  · rw [tokenize, String.toList_join, List.map_append, List.zipWith_append (by simp [hlength]),
      List.flatMap_append, ← hscan]
    simp
  · rw [hkinds, List.map_append]
    rfl
  · rw [hlexemes, List.map_append]
    rfl

/-- A number with separators, a string with the mark of a comment in it and operators that begin
longer ones. -/
theorem tokenize_spaced_adjacent :
    ∃ ts ts', tokenize "1_0_\"/*\"a<//<" = .ok ts ∧
      tokenize "1_0_\n\"/*\" \ta\r<\x0c\x0b" = .ok ts' ∧
      ts'.map Token.kind = ts.map Token.kind ∧
      ts.map Token.kind =
        [.integer 10, .string "/*", .identifier "a", .symbol .less, .eof] := by
  have h : tokenize "1_0_\"/*\"a<//<" =
      .ok [⟨.integer 10, "1_0_", ⟨1, 0, 4⟩⟩, ⟨.string "/*", "\"/*\"", ⟨1, 4, 8⟩⟩,
        ⟨.identifier "a", "a", ⟨1, 8, 9⟩⟩, ⟨.symbol .less, "<", ⟨1, 9, 10⟩⟩,
        ⟨.eof, "", ⟨1, 13, 13⟩⟩] := by
    decide +kernel
  have hseps : ∀ sep ∈ ["\n", " \t", "\r", "\x0c\x0b"], sep ≠ "" ∧
      ∀ c ∈ sep.toList, c ∈ [' ', '\t', '\x0b', '\x0c', '\r', '\n'] := by
    simp
  obtain ⟨ts', hts', hkinds, -⟩ := tokenize_spaced h rfl hseps
  exact ⟨_, ts', h, hts', hkinds, rfl⟩

end Spacing

end StackCompiler
