import Mathlib.Data.List.Nodup
import Mathlib.Data.List.TakeWhile
import StackCompiler.Proofs.Scanning

/-!
# Lexemes

How each kind of token is written: `Lexeme` is the lexical grammar, one rule for every class of
tokens. The reader at the front of a text agrees with it. What it reads as a token is a lexeme
(`Lexeme.of_read`), a lexeme on its own or before white space is read as that token
(`Lexeme.read_append`), and no lexeme at the front of a text is longer than what is read there
(`Lexeme.length_le`). For symbols, of which the reader takes the longest, it makes no difference if
one character after the other decides instead (`Symbol.atFront?_cons`).
-/

namespace StackCompiler

section Span

variable {p : Char → Bool} {l b : List Char}

/-- A text begins with characters that satisfy `p`, up to one that does not. -/
theorem exists_span (p : Char → Bool) (cs : List Char) :
    ∃ l b, cs = l ++ b ∧ (∀ x ∈ l, p x) ∧ ∀ x ∈ b.head?, p x = false := by
  refine ⟨cs.takeWhile p, cs.dropWhile p, List.takeWhile_append_dropWhile.symm,
    fun x => List.mem_takeWhile_imp, fun x hx => ?_⟩
  have hnot := List.head?_dropWhile_not p cs
  rwa [Option.mem_def.1 hx] at hnot

theorem takeWhile_span (hl : ∀ x ∈ l, p x) (hb : ∀ x ∈ b.head?, p x = false) :
    (l ++ b).takeWhile p = l := by
  rw [List.takeWhile_append_of_pos hl]
  cases b with
  | nil => rw [List.takeWhile_nil, List.append_nil]
  | cons x b =>
    rw [List.takeWhile_cons_of_neg, List.append_nil]
    simp [hb x rfl]

theorem length_le_takeWhile (hl : ∀ x ∈ l, p x) : l.length ≤ ((l ++ b).takeWhile p).length := by
  rw [List.takeWhile_append_of_pos hl, List.length_append]
  exact Nat.le_add_right _ _

end Span

namespace Piece

/-- Whether the text goes on with nothing that could belong to a token before it. -/
def Apart (b : List Char) : Prop :=
  ∀ x ∈ b.head?, isSpace x

namespace Apart

variable {b : List Char}

/-- A class of characters without white space ends where white space follows. -/
theorem head {p : Char → Bool} (hb : Apart b)
    (hp : [' ', '\t', '\x0b', '\x0c', '\r', '\n'].all fun x => !p x) :
    ∀ x ∈ b.head?, p x = false := by
  intro x hx
  have hspace := hb x hx
  simp only [isSpace, Bool.or_eq_true, decide_eq_true_eq, or_assoc] at hspace
  have hx := List.all_eq_true.1 hp x (by simpa using hspace)
  simpa using hx

theorem head?_ne {c : Char} (hb : Apart b) (hc : isSpace c = false) : b.head? ≠ some c := by
  intro h
  rw [hb c h] at hc
  cases hc

end Apart

section Readers

variable {c d : Char} {body whole fraction more after b : List Char}

/-- The characters of a string or a character literal, between its quotes. -/
def IsQuoted (quote : Char) (body : List Char) : Prop :=
  ∀ x ∈ body, (x ≠ quote && x ≠ '\n') = true

theorem readString_of_close (hbody : IsQuoted '"' body) :
    readString (body ++ '"' :: b) = (.token (.string (String.ofList body)), body.length + 1) := by
  have hspan : quotedBody '"' (body ++ '"' :: b) = body := takeWhile_span hbody (by simp)
  simp [readString, hspan]

theorem readChar_of_close (hd : IsQuoted '\'' [d]) :
    readChar (d :: '\'' :: b) = (.token (.char d), 2) := by
  have hspan : quotedBody '\'' ([d] ++ '\'' :: b) = [d] := takeWhile_span hd (by simp)
  rw [List.singleton_append] at hspan
  simp [readChar, hspan]

theorem readNumber_of_whole (hw : ∀ x ∈ whole, isDigitOrSeparator x)
    (hb : ∀ x ∈ b.head?, isDigitOrSeparator x = false) (hpoint : b.head? ≠ some '.') :
    readNumber c (whole ++ b) =
      if Number.FitsSigned 128 (Number.ofDigits (c :: whole)) then
        (.token (.integer (Number.ofDigits (c :: whole))), whole.length)
      else (.fault .integerTooLarge, whole.length) := by
  rw [readNumber, takeWhile_span hw hb, List.drop_left]
  split
  · cases hpoint rfl
  · rfl

theorem readNumber_of_point (hw : ∀ x ∈ whole, isDigitOrSeparator x)
    (hafter : ∀ x ∈ after.head?, x.isDigit = false) :
    readNumber c (whole ++ '.' :: after) = (.fault .missingFraction, whole.length + 1) := by
  have hspan : (whole ++ '.' :: after).takeWhile isDigitOrSeparator = whole :=
    takeWhile_span hw (by simp [isDigitOrSeparator])
  have hdigit : (after.head?.map Char.isDigit).getD false = false := by
    cases hx : after.head? with
    | none => rfl
    | some x => exact hafter x hx
  simp [readNumber, hspan, hdigit]

theorem readNumber_of_fraction (hw : ∀ x ∈ whole, isDigitOrSeparator x) (hd : d.isDigit)
    (hf : ∀ x ∈ fraction, isDigitOrSeparator x)
    (hb : ∀ x ∈ b.head?, isDigitOrSeparator x = false) :
    readNumber c (whole ++ '.' :: d :: (fraction ++ b)) =
      if b.head? = some '.' then
        (.fault .secondPoint, whole.length + (fraction.length + 2) + 1)
      else
        (.token (.float (Number.ofText (c :: whole) (d :: fraction))),
          whole.length + (fraction.length + 2)) := by
  have hspan : (whole ++ '.' :: d :: (fraction ++ b)).takeWhile isDigitOrSeparator = whole :=
    takeWhile_span hw (by simp [isDigitOrSeparator])
  have hfraction : (d :: (fraction ++ b)).takeWhile isDigitOrSeparator = d :: fraction := by
    refine takeWhile_span (l := d :: fraction) ?_ hb
    exact List.forall_mem_cons.2 ⟨by simp [isDigitOrSeparator, hd], hf⟩
  have hlength : whole.length + 1 + (fraction.length + 1) =
      whole.length + (fraction.length + 2) := by
    omega
  simp [readNumber, hspan, hfraction, hd, hlength]

/-- A number takes at least the digits and separators at its front. -/
theorem length_le_readNumber (hw : ∀ x ∈ whole, isDigitOrSeparator x) :
    whole.length ≤ (readNumber c (whole ++ b)).2 := by
  have hlength := length_le_takeWhile (b := b) hw
  rw [readNumber]
  dsimp only
  split
  · split_ifs <;> dsimp only <;> omega
  · split_ifs <;> exact hlength

theorem readWord_of_more (hm : ∀ x ∈ more, continuesWord x)
    (hb : ∀ x ∈ b.head?, continuesWord x = false) :
    readWord c (more ++ b) = (.token (.ofWord (String.ofList (c :: more))), more.length) := by
  rw [readWord, takeWhile_span hm hb]

end Readers

end Piece

namespace Symbol

theorem mem_all (s : Symbol) : s ∈ all := by
  cases s <;> decide

theorem chars_ne_nil (s : Symbol) : s.chars ≠ [] := by
  cases s <;> decide

theorem chars_injective : Function.Injective chars := by
  have hnodup : (all.map chars).Nodup := by decide
  exact fun s s' h => List.inj_on_of_nodup_map hnodup (mem_all s) (mem_all s') h

/-- What no symbol starts with. -/
theorem head_chars {s : Symbol} {c : Char} {l : List Char} (h : s.chars = c :: l) :
    Piece.isSpace c = false ∧ c ≠ '"' ∧ c ≠ '\'' ∧ c.isDigit = false ∧
      Piece.startsWord c = false := by
  cases s <;> cases h <;> decide

theorem isSpace_of_mem_chars {s : Symbol} : ∀ c ∈ s.chars, Piece.isSpace c = false := by
  have hall : (s.chars.all fun c => !Piece.isSpace c) = true := by cases s <;> decide
  simpa using hall

/-- The symbol found at the front of a text stands there. -/
theorem prefix_of_atFront? {text : List Char} {s : Symbol} (h : atFront? text = some s) :
    s.chars <+: text := by
  have hfound := List.find?_some h
  exact List.isPrefixOf_iff_prefix.1 hfound

/-- Of the symbols at the front of a text, the one found is the longest. -/
theorem length_le_atFront? {text : List Char} {s s' : Symbol} (h : atFront? text = some s)
    (hs' : s'.chars <+: text) : s'.chars.length ≤ s.chars.length := by
  obtain ⟨_, before, after, hall, hbefore⟩ := List.find?_eq_some_iff_append.1 h
  have hsorted : all.Pairwise fun a b => b.chars.length ≤ a.chars.length := by decide
  rw [hall] at hsorted
  have hmem := mem_all s'
  rw [hall, List.mem_append, List.mem_cons] at hmem
  rcases hmem with hmem | rfl | hmem
  · have hnot := hbefore s' hmem
    rw [List.isPrefixOf_iff_prefix.2 hs'] at hnot
    cases hnot
  · exact Nat.le_refl _
  · exact (List.pairwise_cons.1 (List.pairwise_append.1 hsorted).2.1).1 s' hmem

theorem exists_atFront? {text : List Char} {s : Symbol} (h : s.chars <+: text) :
    ∃ s', atFront? text = some s' := by
  refine Option.isSome_iff_exists.1 (List.find?_isSome.2 ⟨s, mem_all s, ?_⟩)
  exact List.isPrefixOf_iff_prefix.2 h

/-- A symbol before white space is found: a longer one would take in a space. -/
theorem atFront?_chars_append {s : Symbol} {b : List Char} (hb : Piece.Apart b) :
    atFront? (s.chars ++ b) = some s := by
  obtain ⟨s', hs'⟩ := exists_atFront? (List.prefix_append s.chars b)
  have hle := length_le_atFront? hs' (List.prefix_append s.chars b)
  obtain ⟨more, hmore⟩ := List.prefix_of_prefix_length_le (List.prefix_append s.chars b)
    (prefix_of_atFront? hs') hle
  cases more with
  | nil =>
    rw [List.append_nil] at hmore
    rw [hs', chars_injective hmore]
  | cons x more =>
    have hprefix := prefix_of_atFront? hs'
    rw [← hmore, List.prefix_append_right_inj] at hprefix
    have hspace := hb x (by obtain ⟨_, rfl⟩ := hprefix; rfl)
    rw [isSpace_of_mem_chars x (by rw [← hmore]; simp)] at hspace
    cases hspace

/-- Decides on a symbol by its first character, with a look at one or two characters after it. -/
def dispatch? (c : Char) (cs : List Char) : Option Symbol :=
  match c with
  | '(' => some leftParen
  | ')' => some rightParen
  | '\x7b' => some leftBrace
  | '\x7d' => some rightBrace
  | '[' => some leftBracket
  | ']' => some rightBracket
  | ',' => some comma
  | '?' => some question
  | ':' => some colon
  | '.' => some dot
  | ';' => some semicolon
  | '~' => some tilde
  | '+' =>
    if cs.head? = some '+' then some plusPlus
    else if cs.head? = some '=' then some plusEqual
    else some plus
  | '-' =>
    if cs.head? = some '-' then some minusMinus
    else if cs.head? = some '=' then some minusEqual
    else some minus
  | '*' =>
    if cs.head? = some '*' then some starStar
    else if cs.head? = some '=' then some starEqual
    else some star
  | '%' => if cs.head? = some '=' then some percentEqual else some percent
  | '!' => if cs.head? = some '=' then some bangEqual else some bang
  | '=' => if cs.head? = some '=' then some equalEqual else some equal
  | '^' => if cs.head? = some '=' then some caretEqual else some caret
  | '&' =>
    if cs.head? = some '&' then some ampersandAmpersand
    else if cs.head? = some '=' then some ampersandEqual
    else some ampersand
  | '|' =>
    if cs.head? = some '|' then some pipePipe
    else if cs.head? = some '=' then some pipeEqual
    else some pipe
  | '<' =>
    if cs.head? = some '<' then
      if cs.tail.head? = some '=' then some lessLessEqual else some lessLess
    else if cs.head? = some '=' then some lessEqual
    else if cs.head? = some '>' then some lessGreater
    else some less
  | '>' =>
    if cs.head? = some '>' then
      if cs.tail.head? = some '=' then some greaterGreaterEqual else some greaterGreater
    else if cs.head? = some '=' then some greaterEqual
    else some greater
  | '/' => if cs.head? = some '=' then some slashEqual else some slash
  | _ => none

/-- The symbols that start with a character, longer ones before shorter ones. -/
def startingWith (c : Char) : List Symbol :=
  all.filter fun s => s.chars.head? = some c

theorem atFront?_eq_find? (c : Char) (cs : List Char) :
    atFront? (c :: cs) = (startingWith c).find? fun s => s.chars.tail.isPrefixOf cs := by
  rw [atFront?, startingWith, List.find?_filter]
  congr 1
  funext s
  cases h : s.chars with
  | nil => exact absurd h s.chars_ne_nil
  | cons d ds =>
    rw [List.isPrefixOf_cons_cons, List.head?_cons, List.tail_cons, Bool.eq_iff_iff]
    simp

theorem startingWith_eq_nil {c : Char} (h : ∀ s : Symbol, s.chars.head? ≠ some c) :
    startingWith c = [] :=
  List.filter_eq_nil_iff.2 fun s _ => by simpa using h s

theorem cons_isPrefixOf (d : Char) (ds cs : List Char) :
    (d :: ds).isPrefixOf cs = (decide (cs.head? = some d) && ds.isPrefixOf cs.tail) := by
  cases cs with
  | nil => rfl
  | cons c cs =>
    rw [List.isPrefixOf_cons_cons, List.head?_cons, List.tail_cons]
    congr 1
    rw [Bool.eq_iff_iff, beq_iff_eq, decide_eq_true_iff, Option.some_inj, eq_comm]

/-- The longest symbol at the front of a text is the one that its first characters decide on. -/
theorem atFront?_cons (c : Char) (cs : List Char) : atFront? (c :: cs) = dispatch? c cs := by
  rw [atFront?_eq_find?]
  unfold dispatch?
  split
  case h_25 =>
    rw [startingWith_eq_nil]
    · rfl
    · intro s h
      cases s <;> cases h <;> contradiction
  -- Of the symbols that start with the character, either there is one, or the first few characters
  -- after it are compared with those of each in turn.
  all_goals first
    | rfl
    | simp [startingWith, all, chars, cons_isPrefixOf, List.find?_cons]; grind

end Symbol

/-- The text is written for a token of the kind, by the rules for the classes of tokens. -/
inductive Lexeme : TokenKind → List Char → Prop where
  | string {body : List Char} (h : Piece.IsQuoted '"' body) :
    Lexeme (.string (String.ofList body)) ('"' :: (body ++ ['"']))
  | char {c : Char} (h : Piece.IsQuoted '\'' [c]) : Lexeme (.char c) ['\'', c, '\'']
  | integer {c : Char} {whole : List Char} (hc : c.isDigit)
    (hw : ∀ x ∈ whole, Piece.isDigitOrSeparator x)
    (hfits : Number.FitsSigned 128 (Number.ofDigits (c :: whole))) :
    Lexeme (.integer (Number.ofDigits (c :: whole))) (c :: whole)
  | float {c d : Char} {whole fraction : List Char} (hc : c.isDigit)
    (hw : ∀ x ∈ whole, Piece.isDigitOrSeparator x) (hd : d.isDigit)
    (hf : ∀ x ∈ fraction, Piece.isDigitOrSeparator x) :
    Lexeme (.float (Number.ofText (c :: whole) (d :: fraction)))
      (c :: (whole ++ '.' :: d :: fraction))
  | word {c : Char} {more : List Char} (hc : Piece.startsWord c)
    (hm : ∀ x ∈ more, Piece.continuesWord x) :
    Lexeme (.ofWord (String.ofList (c :: more))) (c :: more)
  | symbol (s : Symbol) : Lexeme (.symbol s) s.chars

namespace Piece

variable {c : Char} {cs : List Char}

/-- Characters of a class without white space, quotes and the slash start numbers, words and
symbols. -/
theorem read_of_class {p : Char → Bool}
    (hp : [' ', '\t', '\x0b', '\x0c', '\r', '\n', '/', '"', '\''].all fun x => !p x) (hc : p c) :
    read c cs =
      if c.isDigit then readNumber c cs
      else if startsWord c then readWord c cs
      else readSymbol c cs := by
  have hne : ∀ x ∈ [' ', '\t', '\x0b', '\x0c', '\r', '\n', '/', '"', '\''], c ≠ x := by
    rintro x hx rfl
    have hnot := List.all_eq_true.1 hp c hx
    rw [hc] at hnot
    cases hnot
  simp only [List.forall_mem_cons] at hne
  simp [read, isSpace, hne]

theorem read_of_isDigit (hc : c.isDigit) : read c cs = readNumber c cs := by
  rw [read_of_class (by decide) hc, if_pos hc]

/-- A word does not start with a digit. -/
theorem isDigit_of_startsWord (hc : startsWord c) : c.isDigit = false := by
  rw [Bool.eq_false_iff]
  intro hdigit
  have hle : c.val ≤ '9'.val := of_decide_eq_true (Bool.and_eq_true_iff.1 hdigit).2
  rcases Bool.or_eq_true_iff.1 hc with hletter | hscore
  · rcases Bool.or_eq_true_iff.1 hletter with hupper | hlower
    · have hge : 'A'.val ≤ c.val := (of_decide_eq_true hupper).1
      exact absurd (UInt32.le_trans hge hle) (by decide)
    · have hge : 'a'.val ≤ c.val := of_decide_eq_true (Bool.and_eq_true_iff.1 hlower).1
      exact absurd (UInt32.le_trans hge hle) (by decide)
  · rw [of_decide_eq_true hscore] at hle
    exact absurd hle (by decide)

theorem read_of_startsWord (hc : startsWord c) : read c cs = readWord c cs := by
  rw [read_of_class (by decide) hc, isDigit_of_startsWord hc, if_neg Bool.false_ne_true, if_pos hc]

/-- Whether the text starts with one of the marks that open a comment. -/
def OpensComment (text : List Char) : Prop :=
  ['/', '/'] <+: text ∨ ['/', '*'] <+: text

theorem opensComment_cons :
    OpensComment (c :: cs) ↔ c = '/' ∧ (cs.head? = some '/' ∨ cs.head? = some '*') := by
  cases cs with
  | nil => simp [OpensComment]
  | cons d cs => simp [OpensComment, eq_comm, and_or_left]

theorem not_opensComment_chars (s : Symbol) : ¬ OpensComment s.chars := by
  cases s <;> simp [OpensComment, Symbol.chars]

theorem read_of_symbol {s : Symbol} {l : List Char} (hs : s.chars = c :: l)
    (hopens : ¬ OpensComment (c :: cs)) : read c cs = readSymbol c cs := by
  obtain ⟨hspace, hstring, hchar, hdigit, hword⟩ := Symbol.head_chars hs
  rw [opensComment_cons, and_or_left, not_or] at hopens
  simp [read, hspace, hopens, hstring, hchar, hdigit, hword]

theorem readString_eq_token {kind : TokenKind} {n : Nat} (h : readString cs = (.token kind, n)) :
    n ≤ cs.length ∧ Lexeme kind ('"' :: cs.take n) := by
  obtain ⟨body, b, rfl, hbody, hb⟩ := exists_span (fun x => x ≠ '"' && x ≠ '\n') cs
  by_cases hclose : b.head? = some '"'
  · obtain ⟨b, rfl⟩ := List.head?_eq_some_iff.1 hclose
    rw [readString_of_close hbody] at h
    cases h
    refine ⟨by simp, ?_⟩
    rw [List.take_length_add_append, List.take_one, List.head?_cons]
    exact .string hbody
  · have hspan : quotedBody '"' (body ++ b) = body := takeWhile_span hbody hb
    simp [readString, hspan, hclose] at h

theorem readChar_eq_token {kind : TokenKind} {n : Nat} (h : readChar cs = (.token kind, n)) :
    n ≤ cs.length ∧ Lexeme kind ('\'' :: cs.take n) := by
  obtain ⟨body, b, rfl, hbody, hb⟩ := exists_span (fun x => x ≠ '\'' && x ≠ '\n') cs
  have hspan : quotedBody '\'' (body ++ b) = body := takeWhile_span hbody hb
  unfold readChar at h
  dsimp only at h
  rw [hspan, List.drop_left] at h
  by_cases hclose : b.head? = some '\''
  · rw [if_pos hclose] at h
    obtain ⟨b, rfl⟩ := List.head?_eq_some_iff.1 hclose
    rcases body with _ | ⟨c, _ | ⟨d, body⟩⟩
    · cases h
    · cases h
      exact ⟨by simp, .char hbody⟩
    · cases h
  · rw [if_neg hclose] at h
    cases h

theorem readNumber_eq_token {kind : TokenKind} {n : Nat} (hc : c.isDigit)
    (h : readNumber c cs = (.token kind, n)) : n ≤ cs.length ∧ Lexeme kind (c :: cs.take n) := by
  obtain ⟨whole, b, rfl, hw, hb⟩ := exists_span isDigitOrSeparator cs
  by_cases hpoint : b.head? = some '.'
  · obtain ⟨after, rfl⟩ := List.head?_eq_some_iff.1 hpoint
    by_cases hdigit : ∀ x ∈ after.head?, x.isDigit = false
    · rw [readNumber_of_point hw hdigit] at h
      cases h
    · obtain ⟨d, hafter, hd⟩ : ∃ d, after.head? = some d ∧ d.isDigit := by simpa using hdigit
      obtain ⟨rest, rfl⟩ := List.head?_eq_some_iff.1 hafter
      obtain ⟨fraction, b, rfl, hf, hb⟩ := exists_span isDigitOrSeparator rest
      rw [readNumber_of_fraction hw hd hf hb] at h
      split_ifs at h
      · cases h
      · cases h
        refine ⟨by simp only [List.length_append, List.length_cons]; omega, ?_⟩
        rw [List.take_length_add_append, List.take_succ_cons, List.take_succ_cons, List.take_left]
        exact .float hc hw hd hf
  · rw [readNumber_of_whole hw hb hpoint] at h
    split_ifs at h with hfits
    · cases h
      rw [List.take_left]
      exact ⟨by simp, .integer hc hw hfits⟩
    · cases h

theorem readWord_eq_token {kind : TokenKind} {n : Nat} (hc : startsWord c)
    (h : readWord c cs = (.token kind, n)) : n ≤ cs.length ∧ Lexeme kind (c :: cs.take n) := by
  obtain ⟨more, b, rfl, hm, hb⟩ := exists_span continuesWord cs
  rw [readWord_of_more hm hb] at h
  cases h
  rw [List.take_left]
  exact ⟨by simp, .word hc hm⟩

theorem readSymbol_eq_token {kind : TokenKind} {n : Nat} (h : readSymbol c cs = (.token kind, n)) :
    n ≤ cs.length ∧ Lexeme kind (c :: cs.take n) := by
  rw [readSymbol] at h
  split at h
  · rename_i s hs
    cases h
    obtain ⟨rest, hrest⟩ := Symbol.prefix_of_atFront? hs
    cases hchars : s.chars with
    | nil => cases s.chars_ne_nil hchars
    | cons d l =>
      rw [hchars, List.cons_append, List.cons.injEq] at hrest
      obtain ⟨rfl, rfl⟩ := hrest
      rw [List.length_cons, Nat.add_sub_cancel, List.take_left, ← hchars]
      exact ⟨by simp, .symbol s⟩
  · cases h

end Piece

namespace Lexeme

variable {kind kind' : TokenKind} {text : List Char} {c : Char} {l b : List Char} {n : Nat}

/-- What is read as a token is a lexeme of its kind, and opens no comment. -/
theorem of_read {cs : List Char} (h : Piece.read c cs = (.token kind, n)) :
    n ≤ cs.length ∧ Lexeme kind (c :: cs.take n) ∧ ¬ Piece.OpensComment (c :: cs) := by
  rw [Piece.read] at h
  rw [Piece.opensComment_cons, and_or_left, not_or, ← and_assoc]
  split_ifs at h with hspace hline hblock hstring hchar hdigit hword
  · cases h
  · cases h
  · split at h <;> cases h
  · subst hstring
    exact ⟨Piece.readString_eq_token h, hline, hblock⟩
  · subst hchar
    exact ⟨Piece.readChar_eq_token h, hline, hblock⟩
  · exact ⟨Piece.readNumber_eq_token hdigit h, hline, hblock⟩
  · exact ⟨Piece.readWord_eq_token hword h, hline, hblock⟩
  · exact ⟨Piece.readSymbol_eq_token h, hline, hblock⟩

/-- A lexeme alone, or before white space, is read as a token of its kind. -/
theorem read_append (h : Lexeme kind (c :: l)) (hb : Piece.Apart b) :
    Piece.read c (l ++ b) = (.token kind, l.length) := by
  generalize htext : c :: l = text at h
  cases h with
  | string hbody =>
    cases htext
    rw [List.append_assoc, List.length_append]
    exact Piece.readString_of_close hbody
  | char hd =>
    cases htext
    exact Piece.readChar_of_close hd
  | integer hc hw hfits =>
    cases htext
    rw [Piece.read_of_isDigit hc,
      Piece.readNumber_of_whole hw (hb.head (by decide)) (hb.head?_ne (by decide)), if_pos hfits]
  | float hc hw hd hf =>
    cases htext
    rw [Piece.read_of_isDigit hc, List.append_assoc, List.cons_append, List.cons_append,
      Piece.readNumber_of_fraction hw hd hf (hb.head (by decide)), if_neg (hb.head?_ne (by decide)),
      List.length_append]
    rfl
  | word hc hm =>
    cases htext
    rw [Piece.read_of_startsWord hc, Piece.readWord_of_more hm (hb.head (by decide))]
  | symbol s =>
    have hopens : ¬ Piece.OpensComment (c :: (l ++ b)) := by
      have halone := Piece.not_opensComment_chars s
      rw [← htext, Piece.opensComment_cons] at halone
      rw [Piece.opensComment_cons]
      cases l with
      | nil =>
        rintro ⟨_, hslash | hstar⟩
        · exact hb.head?_ne (by decide) hslash
        · exact hb.head?_ne (by decide) hstar
      | cons x l => exact halone
    have hfront : Symbol.atFront? (c :: (l ++ b)) = some s := by
      rw [← List.cons_append, htext]
      exact Symbol.atFront?_chars_append hb
    rw [Piece.read_of_symbol htext.symm hopens, Piece.readSymbol, hfront]
    dsimp only
    rw [← htext, List.length_cons, Nat.add_sub_cancel]

/-- No lexeme at the front of a text is longer than the token that is read there. -/
theorem length_le (h : Lexeme kind (c :: l)) (hread : Piece.read c (l ++ b) = (.token kind', n)) :
    l.length ≤ n := by
  generalize htext : c :: l = text at h
  cases h with
  | @string body hbody =>
    cases htext
    have hclose : Piece.read '"' (body ++ ['"'] ++ b) =
        (.token (.string (String.ofList body)), body.length + 1) := by
      rw [List.append_assoc]
      exact Piece.readString_of_close hbody
    rw [hclose] at hread
    cases hread
    simp
  | @char d hd =>
    cases htext
    have hclose : Piece.read '\'' (d :: '\'' :: b) = (.token (.char d), 2) :=
      Piece.readChar_of_close hd
    rw [List.cons_append, List.singleton_append, hclose] at hread
    cases hread
    exact Nat.le_refl _
  | integer hc hw hfits =>
    cases htext
    rw [Piece.read_of_isDigit hc] at hread
    have hlength := Piece.length_le_readNumber (c := c) (b := b) hw
    rwa [hread] at hlength
  | @float _ d whole fraction hc hw hd hf =>
    cases htext
    -- The fraction may go on in what follows.
    obtain ⟨more, b, rfl, hm, hb⟩ := exists_span Piece.isDigitOrSeparator b
    have hf' : ∀ x ∈ fraction ++ more, Piece.isDigitOrSeparator x := by
      rw [List.forall_mem_append]
      exact ⟨hf, hm⟩
    rw [Piece.read_of_isDigit hc, List.append_assoc, List.cons_append, List.cons_append,
      ← List.append_assoc fraction, Piece.readNumber_of_fraction hw hd hf' hb] at hread
    split_ifs at hread
    · cases hread
    · cases hread
      simp only [List.length_append, List.length_cons]
      omega
  | word hc hm =>
    cases htext
    rw [Piece.read_of_startsWord hc, Piece.readWord] at hread
    cases hread
    exact length_le_takeWhile hm
  | symbol s =>
    obtain ⟨_, _, hopens⟩ := of_read hread
    have hprefix : s.chars <+: c :: (l ++ b) := by
      rw [← htext]
      exact List.prefix_append (c :: l) b
    rw [Piece.read_of_symbol htext.symm hopens, Piece.readSymbol] at hread
    split at hread
    · rename_i s' hs'
      cases hread
      have hlength := Symbol.length_le_atFront? hs' hprefix
      rw [← htext, List.length_cons] at hlength
      omega
    · cases hread

/-- A lexeme stands on one line. -/
theorem newline_notMem (h : Lexeme kind text) : '\n' ∉ text := by
  have hne : ∀ {p : Char → Bool} {x : Char}, p '\n' = false → p x → '\n' ≠ x := by
    rintro p x hp hx rfl
    rw [hx] at hp
    cases hp
  have hnotMem : ∀ {p : Char → Bool} {l : List Char}, p '\n' = false → (∀ x ∈ l, p x) →
      '\n' ∉ l :=
    fun hp hl hmem => hne hp (hl _ hmem) rfl
  cases h with
  | string hbody => simpa using hnotMem (by simp) hbody
  | char hd => simpa using hnotMem (by simp) hd
  | integer hc hw => simp [hne (by decide) hc, hnotMem (by decide) hw]
  | float hc hw hd hf =>
    simp [hne (by decide) hc, hnotMem (by decide) hw, hne (by decide) hd, hnotMem (by decide) hf]
  | word hc hm => simp [hne (by decide) hc, hnotMem (by decide) hm]
  | symbol s => exact s.newline_notMem_chars

end Lexeme

end StackCompiler
