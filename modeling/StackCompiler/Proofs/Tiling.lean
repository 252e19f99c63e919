import Mathlib.Data.List.Induction
import Mathlib.Data.List.TakeDrop
import StackCompiler.Proofs.Lexemes
import StackCompiler.Proofs.Steps

/-!
# Tokens tile the text

The tokens of a source text cover it without a rest: between them stands nothing but white space
and comments (`Gap`), each is the longest that can be read where it stands (`Munched`), and its
range is the stretch of its line that it takes up (`Range.Locates`). `Tiling` says all this of a
list of tokens, and `tokenize_tiles` that it holds of the tokens of every text.
-/

namespace StackCompiler

section Lines

/-- What stands after the last line feed of a text. -/
def lastLine (text : List Char) : List Char :=
  (text.reverse.takeWhile (· ≠ '\n')).reverse

theorem takeWhile_ne_newline {l b : List Char} (hl : '\n' ∉ l) :
    (l ++ b).takeWhile (· ≠ '\n') = l ++ b.takeWhile (· ≠ '\n') := by
  refine List.takeWhile_append_of_pos fun x hx => ?_
  simpa using ne_of_mem_of_not_mem hx hl

theorem lastLine_append {text l : List Char} (hl : '\n' ∉ l) :
    lastLine (text ++ l) = lastLine text ++ l := by
  rw [lastLine, List.reverse_append, takeWhile_ne_newline (by simpa using hl),
    List.reverse_append, List.reverse_reverse]
  rfl

theorem lastLine_append_newline (text : List Char) : lastLine (text ++ ['\n']) = [] := by
  simp [lastLine]

/-- A place is known from the text before it: the number of line feeds and what follows the last
of them. -/
theorem Cursor.advance_origin (text : List Char) :
    Cursor.origin.advance text = ⟨text.count '\n' + 1, (lastLine text).length⟩ := by
  induction text using List.reverseRecOn with
  | nil => rfl
  | append_singleton text c ih =>
    rw [Cursor.advance_append, ih, Cursor.advance_cons, Cursor.advance_nil, Cursor.step,
      List.count_append]
    split_ifs with hc
    · rw [hc, lastLine_append_newline]
      rfl
    · rw [lastLine_append (by simpa using Ne.symm hc), List.count_singleton, List.length_append]
      simp [hc]

theorem Cursor.advance_of_notMem {text : List Char} (h : '\n' ∉ text) (here : Cursor) :
    here.advance text = ⟨here.line, here.column + text.length⟩ := by
  induction text generalizing here with
  | nil => rfl
  | cons c text ih =>
    rw [List.mem_cons, not_or] at h
    rw [Cursor.advance_cons, ih h.2, Cursor.step, if_neg (Ne.symm h.1), List.length_cons]
    simp only [Cursor.mk.injEq, true_and]
    omega

theorem Cursor.span_of_notMem {text : List Char} (h : '\n' ∉ text) (here : Cursor) :
    here.span text = ⟨here.line, here.column, here.column + text.length⟩ := by
  rw [Cursor.span, Cursor.advance_of_notMem h, if_pos rfl]

/-- A text is its first line, or goes on after a line feed. -/
theorem firstLine_cases (text : List Char) :
    '\n' ∉ text ∨ ∃ l rest, text = l ++ '\n' :: rest ∧ '\n' ∉ l := by
  by_cases h : '\n' ∈ text
  · exact .inr ((List.eq_append_cons_of_mem h).imp fun l ⟨rest, htext, hl⟩ => ⟨rest, htext, hl⟩)
  · exact .inl h

theorem getElem?_splitOn_zero (text : List Char) :
    (text.splitOn '\n')[0]? = some (text.takeWhile (· ≠ '\n')) := by
  rcases firstLine_cases text with h | ⟨l, rest, rfl, hl⟩
  · have htake := takeWhile_ne_newline (b := []) h
    rw [List.append_nil] at htake
    rw [List.splitOn_eq_singleton h, htake]
    simp
  · rw [List.splitOn_append_cons_self_of_not_mem hl, takeWhile_ne_newline hl]
    simp

theorem length_splitOn (text : List Char) :
    (text.splitOn '\n').length = text.count '\n' + 1 := by
  induction text with
  | nil => rfl
  | cons c text ih =>
    rw [List.splitOn_cons_eq_if_modifyHead, List.count_cons]
    split_ifs with hc
    · rw [List.length_cons, ih]
    · rw [List.length_modifyHead, ih]

/-- The line that a place is on goes from the last line feed before it to the first one after
it. -/
theorem getElem?_splitOn_append (before after : List Char) :
    ((before ++ after).splitOn '\n')[before.count '\n']? =
      some (lastLine before ++ after.takeWhile (· ≠ '\n')) := by
  rcases firstLine_cases before.reverse with h | ⟨l, rest, hrest, hl⟩
  · rw [List.mem_reverse] at h
    have hlast : lastLine ([] ++ before) = [] ++ before := lastLine_append h
    rw [List.nil_append] at hlast
    rw [List.count_eq_zero_of_not_mem h, getElem?_splitOn_zero, takeWhile_ne_newline h, hlast]
  · -- The last line feed of `before` ends the line that stands before this one.
    obtain rfl : before = rest.reverse ++ '\n' :: l.reverse := by
      rw [← List.reverse_reverse before, hrest]
      simp
    have hlast : lastLine (rest.reverse ++ '\n' :: l.reverse) = l.reverse := by
      rw [List.append_cons, lastLine_append (by simpa using hl), lastLine_append_newline,
        List.nil_append]
    have hcount : (rest.reverse ++ '\n' :: l.reverse).count '\n' = rest.reverse.count '\n' + 1 := by
      have hzero : l.reverse.count '\n' = 0 := List.count_eq_zero_of_not_mem (by simpa using hl)
      rw [List.count_append, List.count_cons_self, hzero]
    rw [hlast, hcount, List.append_assoc, List.cons_append, List.splitOn_append_cons_self,
      ← length_splitOn, List.getElem?_append_right (Nat.le_refl _), Nat.sub_self,
      getElem?_splitOn_zero, takeWhile_ne_newline (by simpa using hl)]

end Lines

/-- The range is where `text` stands, with `before` before it and `after` after it: the line is
known from the line feeds before it, the column from what follows the last of them, and on that
line the text is found between the two columns. -/
structure Range.Locates (r : Range) (before text after : List Char) : Prop where
  line : r.line = before.count '\n' + 1
  start : r.start = (lastLine before).length
  stop : r.stop = r.start + text.length
  shown : ∃ l, ((before ++ (text ++ after)).splitOn '\n')[r.line - 1]? = some l ∧
    r.stop ≤ l.length ∧ (l.take r.stop).drop r.start = text

theorem Cursor.locates_span {text : List Char} (h : '\n' ∉ text) (before after : List Char) :
    ((Cursor.origin.advance before).span text).Locates before text after := by
  rw [Cursor.span_of_notMem h, Cursor.advance_origin]
  refine ⟨rfl, rfl, rfl, _, getElem?_splitOn_append before (text ++ after), ?_⟩
  rw [takeWhile_ne_newline h, ← List.append_assoc, ← List.length_append, List.take_left,
    List.drop_left]
  exact ⟨by simp, rfl⟩

/-- White space and comments, with `rest` after them. A line comment goes on to the end of its
line, and a block comment to the first mark that closes it. -/
inductive Gap : List Char → List Char → Prop where
  | nil {rest : List Char} : Gap [] rest
  | space {c : Char} {g rest : List Char} (hc : Piece.isSpace c) (hg : Gap g rest) :
    Gap (c :: g) rest
  | line {body g rest : List Char} (hbody : '\n' ∉ body)
    (hend : ∀ x ∈ (g ++ rest).head?, x = '\n') (hg : Gap g rest) :
    Gap ('/' :: '/' :: (body ++ g)) rest
  | block {body g rest : List Char} (hbody : ¬ ['*', '/'] <:+: body ++ ['*']) (hg : Gap g rest) :
    Gap ('/' :: '*' :: (body ++ '*' :: '/' :: g)) rest

/-- The length of a comment reaches to the end of the first mark that closes it. -/
theorem Piece.commentLength?_eq_some {cs : List Char} {n : Nat} (h : commentLength? cs = some n) :
    ∃ body after, cs = body ++ '*' :: '/' :: after ∧ n = body.length + 2 ∧
      ¬ ['*', '/'] <:+: body ++ ['*'] := by
  induction cs generalizing n with
  | nil => cases h
  | cons c cs ih =>
    rw [commentLength?] at h
    split_ifs at h with hclose
    · cases h
      obtain ⟨rfl, hhead⟩ := hclose
      obtain ⟨after, rfl⟩ := List.head?_eq_some_iff.1 hhead
      exact ⟨[], after, rfl, rfl, by decide⟩
    · obtain ⟨m, hm, rfl⟩ := Option.map_eq_some_iff.1 h
      obtain ⟨body, after, rfl, rfl, hbody⟩ := ih hm
      refine ⟨c :: body, after, rfl, rfl, ?_⟩
      rw [List.cons_append, List.infix_cons_iff, not_or]
      refine ⟨fun hprefix => hclose ?_, hbody⟩
      rw [List.cons_prefix_cons] at hprefix
      obtain ⟨rfl, hslash⟩ := hprefix
      cases body with
      | nil => simp at hslash
      | cons d body =>
        rw [List.cons_append, List.cons_prefix_cons] at hslash
        rw [← hslash.1]
        exact ⟨rfl, rfl⟩

/-- A gap is read where white space stands or a comment opens. -/
theorem Piece.read_eq_gap {c : Char} {cs : List Char} {n : Nat} (h : read c cs = (.gap, n)) :
    isSpace c ∧ n = 0 ∨
      (c = '/' ∧ cs.head? = some '/') ∧ n = (cs.takeWhile (· ≠ '\n')).length ∨
      (c = '/' ∧ cs.head? = some '*') ∧ ∃ m, commentLength? (cs.drop 1) = some m ∧ n = m + 1 := by
  rw [read] at h
  split_ifs at h with hspace hline hblock
  · cases h
    exact .inl ⟨hspace, rfl⟩
  · cases h
    exact .inr (.inl ⟨hline, rfl⟩)
  · split at h
    · rename_i m hm
      cases h
      exact .inr (.inr ⟨hblock, m, hm, rfl⟩)
    · cases h
  · unfold readString at h
    dsimp only at h
    split_ifs at h <;> cases h
  · unfold readChar at h
    dsimp only at h
    by_cases hquote : (cs.drop (quotedBody '\'' cs).length).head? = some '\''
    · rw [if_pos hquote] at h
      generalize quotedBody '\'' cs = body at h
      rcases body with _ | ⟨c, _ | ⟨d, body⟩⟩ <;> cases h
    · rw [if_neg hquote] at h
      cases h
  · unfold readNumber at h
    dsimp only at h
    split at h
    · split_ifs at h <;> cases h
    · split_ifs at h <;> cases h
  · cases h
  · unfold readSymbol at h
    split at h <;> cases h

/-- What is read as a gap makes a longer gap of one that follows. -/
theorem Gap.of_read {c : Char} {cs g rest : List Char} {n : Nat}
    (h : Piece.read c cs = (.gap, n)) (hcs : cs.drop n = g ++ rest) (hg : Gap g rest) :
    Gap (c :: cs.take n ++ g) rest := by
  rcases Piece.read_eq_gap h with ⟨hspace, rfl⟩ | ⟨⟨rfl, hhead⟩, rfl⟩ | ⟨⟨rfl, hhead⟩, m, hm, rfl⟩
  · exact .space hspace hg
  · obtain ⟨ds, rfl⟩ := List.head?_eq_some_iff.1 hhead
    obtain ⟨body, after, rfl, hbody, hafter⟩ := exists_span (· ≠ '\n') ds
    have htake : ('/' :: (body ++ after)).takeWhile (· ≠ '\n') = '/' :: body :=
      takeWhile_span (l := '/' :: body) (List.forall_mem_cons.2 ⟨rfl, hbody⟩) hafter
    rw [htake, List.length_cons, List.drop_succ_cons, List.drop_left] at hcs
    rw [htake, List.length_cons, List.take_succ_cons, List.take_left]
    refine .line ?_ ?_ hg
    · intro hmem
      simpa using hbody '\n' hmem
    · rw [← hcs]
      simpa using hafter
  · obtain ⟨ds, rfl⟩ := List.head?_eq_some_iff.1 hhead
    rw [List.drop_one, List.tail_cons] at hm
    obtain ⟨body, after, rfl, rfl, hbody⟩ := Piece.commentLength?_eq_some hm
    have htake : (body ++ '*' :: '/' :: after).take (body.length + 2) = body ++ ['*', '/'] := by
      rw [List.take_length_add_append]
      rfl
    have hdrop : (body ++ '*' :: '/' :: after).drop (body.length + 2) = after := by
      rw [List.drop_length_add_append]
      rfl
    rw [List.drop_succ_cons, hdrop] at hcs
    rw [List.take_succ_cons, htake]
    have hblock := Gap.block hbody hg
    simpa using hblock

/-- The text is read as one token that takes all of it. -/
def IsToken (text : List Char) : Prop :=
  ∃ t stop, tokenize (String.ofList text) = .ok [t, stop] ∧ t.lexeme = String.ofList text

/-- The lexeme is what is cut off before `rest`: no comment opens here, the lexeme alone is a token
of the kind, and nothing longer is a token. -/
structure Munched (kind : TokenKind) (lexeme rest : List Char) : Prop where
  ne_eof : kind ≠ .eof
  opens : ¬ ['/', '/'] <+: lexeme ++ rest ∧ ¬ ['/', '*'] <+: lexeme ++ rest
  alone : tokenize (String.ofList lexeme) =
    .ok [⟨kind, String.ofList lexeme, ⟨1, 0, lexeme.length⟩⟩,
      ⟨.eof, "", ⟨1, lexeme.length, lexeme.length⟩⟩]
  longest : ∀ text, text <+: lexeme ++ rest → IsToken text → text.length ≤ lexeme.length

/-- The tokens of a text with `before` before it: gaps and lexemes in turn, and in the end the end
of the text. -/
inductive Tiling : List Char → List Char → List Token → Prop where
  | last {before g : List Char} {r : Range} (hg : Gap g [])
    (hr : r.Locates (before ++ g) [] []) : Tiling before g [⟨.eof, "", r⟩]
  | cons {before g lexeme rest : List Char} {kind : TokenKind} {r : Range} {ts : List Token}
    (hg : Gap g (lexeme ++ rest)) (hl : Munched kind lexeme rest)
    (hr : r.Locates (before ++ g) lexeme rest) (h : Tiling (before ++ g ++ lexeme) rest ts) :
    Tiling before (g ++ (lexeme ++ rest)) (⟨kind, String.ofList lexeme, r⟩ :: ts)

/-- A tiling goes on over whatever makes longer gaps of gaps. -/
theorem Tiling.prepend {before piece text : List Char} {ts : List Token}
    (hp : ∀ g rest, text = g ++ rest → Gap g rest → Gap (piece ++ g) rest)
    (h : Tiling (before ++ piece) text ts) : Tiling before (piece ++ text) ts := by
  cases h with
  | last hg hr =>
    refine .last (hp _ [] (List.append_nil _).symm hg) ?_
    rwa [← List.append_assoc]
  | cons hg hl hr h =>
    rw [← List.append_assoc]
    refine .cons (hp _ _ rfl hg) hl ?_ ?_
    · rwa [← List.append_assoc]
    · rwa [← List.append_assoc]

/-- No token is longer than the text. -/
theorem length_lexeme_le {here : Cursor} {text : List Char} {ts : List Token}
    (h : scan here text = .ok ts) : ∀ t ∈ ts, t.lexeme.length ≤ text.length := by
  fun_induction scan here text generalizing ts with
  | case1 here =>
    cases h
    simp
  | case2 here c cs piece text =>
    rename_i hgap ih
    intro t ht
    have hle := ih h t ht
    rw [List.length_drop] at hle
    rw [List.length_cons]
    omega
  | case3 here c cs piece text kind =>
    rename_i hkind ih
    cases hscan : scan (here.advance text) (cs.drop piece.2) with
    | error complaint =>
      rw [hscan] at h
      cases h
    | ok tokens =>
      rw [hscan] at h
      cases h
      refine List.forall_mem_cons.2 ⟨?_, fun t ht => ?_⟩
      · rw [String.length_ofList, List.length_cons, List.length_cons, List.length_take]
        omega
      · have hle := ih hscan t ht
        rw [List.length_drop] at hle
        rw [List.length_cons]
        omega
  | case4 => cases h

/-- A text that is one token is read as a token that takes all of it. -/
theorem IsToken.exists_read {text : List Char} (h : IsToken text) :
    ∃ c l kind, text = c :: l ∧ Piece.read c l = (.token kind, l.length) := by
  obtain ⟨t, stop, hscan, hlexeme⟩ := h
  rw [tokenize, String.toList_ofList] at hscan
  cases text with
  | nil => simp [scan] at hscan
  | cons c l =>
    cases hread : Piece.read c l with
    | mk piece n =>
      cases piece with
      | gap =>
        rw [scan_of_gap (by rw [hread])] at hscan
        have hle := length_lexeme_le hscan t List.mem_cons_self
        rw [hlexeme, String.length_ofList, List.length_drop, List.length_cons] at hle
        omega
      | token kind =>
        obtain ⟨hn, _⟩ := Lexeme.of_read hread
        have hpiece : (Piece.read c l).1 = .token kind := by rw [hread]
        rw [scan_of_token hpiece] at hscan
        obtain ⟨tokens, _, htokens⟩ := map_eq_ok.1 hscan
        cases htokens
        rw [hread, String.ofList_inj, List.cons.injEq, List.take_eq_self_iff] at hlexeme
        refine ⟨c, l, kind, rfl, ?_⟩
        rw [hread, Nat.le_antisymm hn hlexeme.2]
      | fault cause =>
        rw [scan, hread] at hscan
        cases hscan

/-- A lexeme is a token on its own. -/
theorem Lexeme.tokenize_eq {kind : TokenKind} {c : Char} {l : List Char}
    (h : Lexeme kind (c :: l)) :
    tokenize (String.ofList (c :: l)) =
      .ok [⟨kind, String.ofList (c :: l), ⟨1, 0, (c :: l).length⟩⟩,
        ⟨.eof, "", ⟨1, (c :: l).length, (c :: l).length⟩⟩] := by
  have hread : Piece.read c l = (.token kind, l.length) := by
    have happend := h.read_append (b := []) (by simp [Piece.Apart])
    rwa [List.append_nil] at happend
  have hpiece : (Piece.read c l).1 = .token kind := by rw [hread]
  rw [tokenize, String.toList_ofList, scan_of_token hpiece, hread, List.take_length,
    List.drop_length, Cursor.span_of_notMem h.newline_notMem,
    Cursor.advance_of_notMem h.newline_notMem, scan]
  simp [Except.map, Cursor.origin, Cursor.span]

/-- What is read as a token is munched. -/
theorem Munched.of_read {c : Char} {cs : List Char} {kind : TokenKind} {n : Nat}
    (h : Piece.read c cs = (.token kind, n)) : Munched kind (c :: cs.take n) (cs.drop n) := by
  obtain ⟨hn, hlexeme, hopens⟩ := Lexeme.of_read h
  have htext : c :: cs.take n ++ cs.drop n = c :: cs := by
    rw [List.cons_append, List.take_append_drop]
  refine ⟨?_, ?_, hlexeme.tokenize_eq, ?_⟩
  · rintro rfl
    exact Piece.read_ne_eof c cs (by rw [h])
  · rw [htext]
    exact not_or.1 hopens
  · rw [htext]
    rintro text ⟨b, htext⟩ htoken
    obtain ⟨c', l, kind', rfl, hread⟩ := htoken.exists_read
    cases htext
    obtain ⟨_, hlexeme', _⟩ := Lexeme.of_read hread
    rw [List.take_length] at hlexeme'
    have hle := hlexeme'.length_le h
    rw [List.length_cons, List.length_cons, List.length_take]
    omega

/-- The tokens that are read tile the text. -/
theorem Tiling.of_scan {before text : List Char} {ts : List Token}
    (h : scan (Cursor.origin.advance before) text = .ok ts) : Tiling before text ts := by
  generalize hhere : Cursor.origin.advance before = here at h
  fun_induction scan here text generalizing before ts with
  | case1 here =>
    cases h
    refine .last .nil ?_
    rw [← hhere, List.append_nil]
    exact Cursor.locates_span List.not_mem_nil before []
  | case2 here c cs piece text =>
    rename_i hgap ih
    have hread : Piece.read c cs = (.gap, piece.2) := by rw [← hgap]
    have hafter : Cursor.origin.advance (before ++ text) = here.advance text := by
      rw [Cursor.advance_append, hhere]
    have htext : c :: cs = text ++ cs.drop piece.2 := by
      rw [List.cons_append, List.take_append_drop]
    rw [htext]
    exact .prepend (fun g rest hrest hg => .of_read hread hrest hg) (ih hafter h)
  | case3 here c cs piece text kind =>
    rename_i hkind ih
    have hread : Piece.read c cs = (.token kind, piece.2) := by rw [← hkind]
    obtain ⟨_, hlexeme, _⟩ := Lexeme.of_read hread
    have hafter : Cursor.origin.advance (before ++ text) = here.advance text := by
      rw [Cursor.advance_append, hhere]
    have htext : c :: cs = text ++ cs.drop piece.2 := by
      rw [List.cons_append, List.take_append_drop]
    cases hscan : scan (here.advance text) (cs.drop piece.2) with
    | error complaint =>
      rw [hscan] at h
      cases h
    | ok tokens =>
      rw [hscan] at h
      cases h
      rw [htext, ← hhere]
      refine .cons .nil (.of_read hread) ?_ ?_
      · rw [List.append_nil]
        exact Cursor.locates_span hlexeme.newline_notMem before _
      · rw [List.append_nil]
        exact ih hafter hscan
  | case4 => cases h

/-- Tokens are found where their ranges say. -/
theorem Tiling.locates {before text : List Char} {ts : List Token} (h : Tiling before text ts) :
    ∀ t ∈ ts, ∃ b a, before ++ text = b ++ (t.lexeme.toList ++ a) ∧
      t.range.Locates b t.lexeme.toList a := by
  induction h with
  | @last before g r hg hr =>
    refine List.forall_mem_singleton.2 ⟨before ++ g, [], ?_, hr⟩
    simp
  | @cons before g lexeme rest kind r ts hg hl hr _ ih =>
    refine List.forall_mem_cons.2 ⟨⟨before ++ g, rest, ?_, ?_⟩, fun t ht => ?_⟩
    · simp
    · rwa [String.toList_ofList]
    · obtain ⟨b, a, htext, hlocates⟩ := ih t ht
      refine ⟨b, a, ?_, hlocates⟩
      rw [← htext]
      simp

/-- The end of the text comes last, where the text ends, and nowhere else. -/
theorem Tiling.exists_eof {before text : List Char} {ts : List Token} (h : Tiling before text ts) :
    ∃ us r, ts = us ++ [⟨.eof, "", r⟩] ∧ (∀ t ∈ us, t.kind ≠ .eof) ∧
      r.Locates (before ++ text) [] [] := by
  induction h with
  | @last before g r hg hr => exact ⟨[], r, rfl, List.forall_mem_nil _, hr⟩
  | @cons before g lexeme rest kind r ts hg hl hr _ ih =>
    obtain ⟨us, r', rfl, hus, hr'⟩ := ih
    refine ⟨⟨kind, String.ofList lexeme, r⟩ :: us, r', rfl,
      List.forall_mem_cons.2 ⟨hl.ne_eof, hus⟩, ?_⟩
    simpa using hr'

/-- The tokens of a source text tile it: they are the lexemes of the text in order, each cut off by
longest match with nothing but white space and comments in between, and after them comes the end
of the text. Every range shows the lexeme of its token on the line that it names. -/
theorem tokenize_tiles {source : String} {ts : List Token} (h : tokenize source = .ok ts) :
    Tiling [] source.toList ts ∧
      (∃ us r, ts = us ++ [⟨.eof, "", r⟩] ∧ (∀ t ∈ us, t.kind ≠ .eof) ∧
        r.Locates source.toList [] []) ∧
      ∀ t ∈ ts, 1 ≤ t.range.line ∧
        ∃ l, (source.toList.splitOn '\n')[t.range.line - 1]? = some l ∧ t.range.stop ≤ l.length ∧
          (l.take t.range.stop).drop t.range.start = t.lexeme.toList := by
  have htiling : Tiling [] source.toList ts := .of_scan h
  refine ⟨htiling, htiling.exists_eof, fun t ht => ?_⟩
  obtain ⟨before, after, htext, hlocates⟩ := htiling.locates t ht
  rw [List.nil_append] at htext
  rw [htext]
  exact ⟨by rw [hlocates.line]; omega, hlocates.shown⟩

/-- A comment of two lines, a string that looks like one and the longest of three operators. -/
theorem tokenize_tiles_comments :
    ∃ ts, tokenize "a/* é\n*/<<=\"//\";//" = .ok ts ∧
      ts.map Token.lexeme = ["a", "<<=", "\"//\"", ";", ""] ∧
      Tiling [] "a/* é\n*/<<=\"//\";//".toList ts := by
  have h : tokenize "a/* é\n*/<<=\"//\";//" =
      .ok [⟨.identifier "a", "a", ⟨1, 0, 1⟩⟩, ⟨.symbol .lessLessEqual, "<<=", ⟨2, 2, 5⟩⟩,
        ⟨.string "//", "\"//\"", ⟨2, 5, 9⟩⟩, ⟨.symbol .semicolon, ";", ⟨2, 9, 10⟩⟩,
        ⟨.eof, "", ⟨2, 12, 12⟩⟩] := by
    decide +kernel
  exact ⟨_, h, rfl, (tokenize_tiles h).1⟩

end StackCompiler
