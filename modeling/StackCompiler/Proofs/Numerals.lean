import Mathlib.Data.List.Induction
import Mathlib.Data.Nat.Digits.Defs
import StackCompiler.Proofs.Tiling

/-!
# Number literals

A text that starts with a digit starts with a number literal or with a fault in one.
`tokenize_number` says which, and where the literal or the fault ends, from the digits and
separators at the front of the text (`DigitRun`) and what follows them. The value of an integer is
that of its digits in the decimal system (`decimal`), and a literal is the first token of its text
whatever comes behind it (`OpensWith`).
-/

namespace StackCompiler

section Places

/-- The place is the start of the range or lies before it. -/
def Cursor.Precedes (here : Cursor) (r : Range) : Prop :=
  here.line < r.line ∨ here.line = r.line ∧ here.column ≤ r.start

/-- `b` starts where `a` stops or later, on the same line or on a later one. -/
def Range.Precedes (a b : Range) : Prop :=
  Cursor.Precedes ⟨a.line, a.stop⟩ b

variable {here : Cursor} {r : Range} {text : List Char} {complaint : Complaint}

theorem Cursor.Precedes.of_step {c : Char} (h : (here.step c).Precedes r) : here.Precedes r := by
  rw [Cursor.step] at h
  unfold Cursor.Precedes at h ⊢
  split_ifs at h <;> dsimp only at h <;> omega

theorem Cursor.Precedes.of_advance (h : (here.advance text).Precedes r) : here.Precedes r := by
  induction text generalizing here with
  | nil => exact h
  | cons c text ih => exact .of_step (ih h)

/-- A fault lies where the text starts or later. -/
theorem scan_precedes (h : scan here text = .error complaint) : here.Precedes complaint.range := by
  fun_induction scan here text with
  | case1 here => cases h
  | case2 here c cs piece text =>
    rename_i hgap ih
    exact .of_advance (ih h)
  | case3 here c cs piece text kind =>
    rename_i hkind ih
    cases hscan : scan (here.advance text) (cs.drop piece.2) with
    | ok tokens =>
      rw [hscan] at h
      cases h
    | error complaint' =>
      rw [hscan] at h
      cases h
      exact .of_advance (ih hscan)
  | case4 here c cs piece text cause =>
    cases h
    exact .inr ⟨rfl, Nat.le_refl _⟩

end Places

section Front

variable {source : String} {c : Char} {l rest : List Char}

/-- The text starts with the token: it is the first token of the text, or the text has a fault
behind it. It is what its lexeme is read as alone. -/
structure OpensWith (source : String) (t : Token) : Prop where
  first : (∃ ts, tokenize source = .ok (t :: ts)) ∨
    ∃ complaint, tokenize source = .error complaint ∧ t.range.Precedes complaint.range
  alone : ∃ stop, tokenize t.lexeme = .ok [t, stop]

/-- A text starts with the token that is read at its front. -/
theorem OpensWith.of_read {kind : TokenKind} (hsource : source.toList = c :: (l ++ rest))
    (hread : Piece.read c (l ++ rest) = (.token kind, l.length)) :
    OpensWith source ⟨kind, String.ofList (c :: l), ⟨1, 0, (c :: l).length⟩⟩ := by
  obtain ⟨_, hlexeme, _⟩ := Lexeme.of_read hread
  rw [List.take_left] at hlexeme
  have hscan : tokenize source = (scan (Cursor.origin.advance (c :: l)) rest).map
      (⟨kind, String.ofList (c :: l), Cursor.origin.span (c :: l)⟩ :: ·) := by
    rw [tokenize, hsource, scan_of_token (by rw [hread]), hread, List.take_left, List.drop_left]
  -- No lexeme ends a line, so the rest is read from the column where the lexeme stops.
  rw [Cursor.span_of_notMem hlexeme.newline_notMem, Cursor.advance_of_notMem hlexeme.newline_notMem]
    at hscan
  refine ⟨?_, _, hlexeme.tokenize_eq⟩
  generalize hrest : scan _ rest = result at hscan
  cases result with
  | ok ts => exact .inl ⟨ts, by simpa [Except.map, Cursor.origin] using hscan⟩
  | error complaint =>
    refine .inr ⟨complaint, hscan, ?_⟩
    have hprecedes := scan_precedes hrest
    simpa [Range.Precedes, Cursor.origin] using hprecedes

/-- A fault at the front of a text, within its first line. -/
theorem tokenize_of_fault {cause : LexFault} (hsource : source.toList = c :: (l ++ rest))
    (hread : Piece.read c (l ++ rest) = (.fault cause, l.length)) (hl : '\n' ∉ c :: l) :
    tokenize source = .error ⟨⟨1, 0, (c :: l).length⟩, .lexical cause⟩ := by
  rw [tokenize, hsource, scan, hread]
  dsimp only
  rw [List.take_left, Cursor.span_of_notMem hl]
  simp [Cursor.origin]

end Front

section Digits

variable {run rest : List Char}

/-- Where `run` stands before `rest`, it is a digit and all the digits and separators that follow
it. -/
structure DigitRun (run rest : List Char) : Prop where
  starts : ∃ d ∈ run.head?, d.isDigit
  digits : ∀ c ∈ run, c.isDigit ∨ c = '_'
  ends : ∀ c ∈ rest.head?, ¬ (c.isDigit ∨ c = '_')

/-- The number that digits stand for in the decimal system, separators left out. -/
def decimal (run : List Char) : Nat :=
  Nat.ofDigits 10 ((run.filter (· ≠ '_')).map fun c => c.toNat - '0'.toNat).reverse

theorem Piece.isDigitOrSeparator_iff {c : Char} : isDigitOrSeparator c ↔ c.isDigit ∨ c = '_' := by
  simp [isDigitOrSeparator]

theorem DigitRun.exists_cons (h : DigitRun run rest) :
    ∃ d l, run = d :: l ∧ d.isDigit ∧ (∀ x ∈ l, Piece.isDigitOrSeparator x) ∧
      ∀ x ∈ rest.head?, Piece.isDigitOrSeparator x = false := by
  obtain ⟨d, hd, hdigit⟩ := h.starts
  obtain ⟨l, rfl⟩ := List.head?_eq_some_iff.1 hd
  refine ⟨d, l, rfl, hdigit, fun x hx => ?_, fun x hx => ?_⟩
  · exact Piece.isDigitOrSeparator_iff.2 (h.digits x (List.mem_cons_of_mem d hx))
  · exact Bool.eq_false_iff.2 (mt Piece.isDigitOrSeparator_iff.1 (h.ends x hx))

/-- A separator is no digit. -/
theorem isDigit_iff_ne_separator {c : Char} (h : c.isDigit ∨ c = '_') : c.isDigit ↔ c ≠ '_' := by
  constructor
  · rintro hdigit rfl
    cases hdigit
  · exact h.resolve_right

theorem decimal_append_separator (run : List Char) : decimal (run ++ ['_']) = decimal run := by
  simp [decimal]

theorem decimal_append_digit {c : Char} (hc : c ≠ '_') (run : List Char) :
    decimal (run ++ [c]) = decimal run * 10 + (c.toNat - '0'.toNat) := by
  simp [decimal, hc, Nat.ofDigits_cons, Nat.mul_comm, Nat.add_comm]

/-- Reading digits from left to right gives their value. -/
theorem Number.ofDigits_eq_decimal (h : ∀ c ∈ run, c.isDigit ∨ c = '_') :
    Number.ofDigits run = decimal run := by
  -- Both grow by a character at the end, where the lowest digit stands.
  induction run using List.reverseRecOn with
  | nil => rfl
  | append_singleton run c ih =>
    rw [List.forall_mem_append, List.forall_mem_singleton] at h
    have hread : Number.ofDigits (run ++ [c]) =
        if c.isDigit then Number.ofDigits run * 10 + (c.toNat - '0'.toNat)
        else Number.ofDigits run := by
      simp [Number.ofDigits]
    rw [hread, ih h.1]
    split_ifs with hc
    · rw [decimal_append_digit ((isDigit_iff_ne_separator h.2).1 hc)]
    · rw [h.2.resolve_left hc, decimal_append_separator]

/-- The value of a float is that of all its digits, with as many of them behind the point as the
fraction has. -/
theorem Number.ofText_eq {whole fraction : List Char} (hw : ∀ c ∈ whole, c.isDigit ∨ c = '_')
    (hf : ∀ c ∈ fraction, c.isDigit ∨ c = '_') :
    Number.ofText whole fraction =
      Float.ofScientific (decimal (whole ++ fraction)) true (fraction.filter (· ≠ '_')).length := by
  have hcount : fraction.countP Char.isDigit = fraction.countP (· ≠ '_') := by
    refine List.countP_congr fun c hc => ?_
    simpa using isDigit_iff_ne_separator (hf c hc)
  rw [Number.ofText, Number.ofDigits_eq_decimal (List.forall_mem_append.2 ⟨hw, hf⟩), hcount,
    List.countP_eq_length_filter]

/-- 128 bits hold the natural numbers below `2 ^ 127`. -/
theorem Number.fitsSigned_natCast (n : Nat) : FitsSigned 128 n ↔ n ≤ 2 ^ 127 - 1 := by
  simp only [FitsSigned, Nat.one_shiftLeft, Nat.reduceSub, Nat.reducePow]
  omega

end Digits

namespace DigitRun

variable {source : String} {a b rest after : List Char}

theorem newline_notMem (h : DigitRun a rest) : '\n' ∉ a := by
  intro hmem
  have hnot := h.digits _ hmem
  exact absurd hnot (by decide)

/-- Digits without a point behind them. -/
theorem tokenize_whole (ha : DigitRun a rest) (hsource : source.toList = a ++ rest)
    (hpoint : rest.head? ≠ some '.') :
    if decimal a ≤ 2 ^ 127 - 1 then
      OpensWith source ⟨.integer (decimal a), String.ofList a, ⟨1, 0, a.length⟩⟩
    else tokenize source = .error ⟨⟨1, 0, a.length⟩, .lexical .integerTooLarge⟩ := by
  obtain ⟨c, whole, rfl, hc, hw, hrest⟩ := ha.exists_cons
  have hread : Piece.read c (whole ++ rest) =
      if decimal (c :: whole) ≤ 2 ^ 127 - 1 then
        (.token (.integer (decimal (c :: whole))), whole.length)
      else (.fault .integerTooLarge, whole.length) := by
    rw [Piece.read_of_isDigit hc, Piece.readNumber_of_whole hw hrest hpoint,
      Number.ofDigits_eq_decimal ha.digits]
    simp only [Number.fitsSigned_natCast]
  split_ifs at hread ⊢
  · exact .of_read hsource hread
  · exact tokenize_of_fault hsource hread ha.newline_notMem

/-- Digits before a point that no digit follows. -/
theorem tokenize_point (ha : DigitRun a ('.' :: after))
    (hsource : source.toList = a ++ '.' :: after) (hafter : ∀ d ∈ after.head?, ¬ d.isDigit) :
    tokenize source = .error ⟨⟨1, 0, (a ++ ['.']).length⟩, .lexical .missingFraction⟩ := by
  obtain ⟨c, whole, rfl, hc, hw, -⟩ := ha.exists_cons
  have hread := Piece.readNumber_of_point (c := c) hw (by simpa using hafter)
  rw [← Piece.read_of_isDigit hc] at hread
  rw [List.append_cons] at hsource hread
  refine tokenize_of_fault (l := whole ++ ['.']) hsource ?_ ?_
  · rw [hread, List.length_append, List.length_singleton]
  · simpa using ha.newline_notMem

/-- Digits on both sides of a point. -/
theorem tokenize_fraction (ha : DigitRun a ('.' :: (b ++ rest))) (hb : DigitRun b rest)
    (hsource : source.toList = a ++ '.' :: (b ++ rest)) :
    if rest.head? = some '.' then
      tokenize source = .error ⟨⟨1, 0, (a ++ '.' :: b ++ ['.']).length⟩, .lexical .secondPoint⟩
    else
      OpensWith source ⟨.float (Float.ofScientific (decimal (a ++ b)) true
        (b.filter (· ≠ '_')).length), String.ofList (a ++ '.' :: b),
        ⟨1, 0, (a ++ '.' :: b).length⟩⟩ := by
  obtain ⟨c, whole, rfl, hc, hw, -⟩ := ha.exists_cons
  obtain ⟨d, fraction, rfl, hd, hf, hrest⟩ := hb.exists_cons
  have hread := Piece.readNumber_of_fraction (c := c) hw hd hf hrest
  rw [← Piece.read_of_isDigit hc, Number.ofText_eq ha.digits hb.digits] at hread
  have hlength : (whole ++ '.' :: d :: fraction).length = whole.length + (fraction.length + 2) := by
    simp
  split_ifs at hread ⊢ with hpoint
  · obtain ⟨more, rfl⟩ := List.head?_eq_some_iff.1 hpoint
    have htext : source.toList = c :: (whole ++ '.' :: d :: fraction ++ ['.'] ++ more) := by
      simpa using hsource
    refine tokenize_of_fault (l := whole ++ '.' :: d :: fraction ++ ['.']) htext ?_ ?_
    · rw [List.length_append, hlength]
      simpa using hread
    · simpa [and_assoc] using And.intro ha.newline_notMem hb.newline_notMem
  · have htext : source.toList = c :: (whole ++ '.' :: d :: fraction ++ rest) := by
      simpa using hsource
    refine .of_read (l := whole ++ '.' :: d :: fraction) htext ?_
    rw [hlength]
    simpa using hread

end DigitRun

/-- What a text that starts with a digit starts with. The digits and separators `a` at its front,
without a point behind them, are an integer of this value unless it takes more than 128 bits. A
point needs a digit behind it, and then the digits and separators `b` from there on make a float,
unless a second point follows. A fault reaches up to the character that shows it. -/
theorem tokenize_number {source : String} {a rest : List Char} (hsource : source.toList = a ++ rest)
    (ha : DigitRun a rest) :
    (rest.head? ≠ some '.' →
      if decimal a ≤ 2 ^ 127 - 1 then
        OpensWith source ⟨.integer (decimal a), String.ofList a, ⟨1, 0, a.length⟩⟩
      else tokenize source = .error ⟨⟨1, 0, a.length⟩, .lexical .integerTooLarge⟩) ∧
    (∀ after, rest = '.' :: after → (∀ d ∈ after.head?, ¬ d.isDigit) →
      tokenize source = .error ⟨⟨1, 0, (a ++ ['.']).length⟩, .lexical .missingFraction⟩) ∧
    ∀ b rest', rest = '.' :: (b ++ rest') → DigitRun b rest' →
      if rest'.head? = some '.' then
        tokenize source = .error ⟨⟨1, 0, (a ++ '.' :: b ++ ['.']).length⟩, .lexical .secondPoint⟩
      else
        OpensWith source ⟨.float (Float.ofScientific (decimal (a ++ b)) true
          (b.filter (· ≠ '_')).length), String.ofList (a ++ '.' :: b),
          ⟨1, 0, (a ++ '.' :: b).length⟩⟩ := by
  refine ⟨ha.tokenize_whole hsource, ?_, ?_⟩
  · rintro after rfl hafter
    exact ha.tokenize_point hsource hafter
  · rintro b rest' rfl hb
    exact ha.tokenize_fraction hb hsource

/-- The largest integer with a fault right behind it, the integer after it, and points in the
wrong places. -/
theorem tokenize_number_limits :
    OpensWith "0_170141183460469231731687303715884105727@"
      ⟨.integer (2 ^ 127 - 1), "0_170141183460469231731687303715884105727", ⟨1, 0, 41⟩⟩ ∧
    tokenize "170141183460469231731687303715884105728_" =
      .error ⟨⟨1, 0, 40⟩, .lexical .integerTooLarge⟩ ∧
    tokenize "1_._5" = .error ⟨⟨1, 0, 3⟩, .lexical .missingFraction⟩ ∧
    tokenize "1_.5_.2" = .error ⟨⟨1, 0, 6⟩, .lexical .secondPoint⟩ ∧
    OpensWith "1_0.5_e" ⟨.float (Float.ofScientific 105 true 1), "1_0.5_", ⟨1, 0, 6⟩⟩ := by
  have hlargest : "0_170141183460469231731687303715884105727@".toList =
      "0_170141183460469231731687303715884105727".toList ++ ['@'] := by simp
  have hnext : "170141183460469231731687303715884105728_".toList =
      "170141183460469231731687303715884105728_".toList ++ [] := by simp
  have hpoint : "1_._5".toList = ['1', '_'] ++ ['.', '_', '5'] := by simp
  have hsecond : "1_.5_.2".toList = ['1', '_'] ++ ['.', '5', '_', '.', '2'] := by simp
  have hfloat : "1_0.5_e".toList = ['1', '_', '0'] ++ ['.', '5', '_', 'e'] := by simp
  refine ⟨?_, ?_, ?_, ?_, ?_⟩
  · exact (tokenize_number hlargest ⟨by simp, by simp, by simp⟩).1 (by simp)
  · exact (tokenize_number hnext ⟨by simp, by simp, by simp⟩).1 (by simp)
  · exact (tokenize_number hpoint ⟨by simp, by simp, by simp⟩).2.1 ['_', '5'] rfl (by simp)
  · exact (tokenize_number hsecond ⟨by simp, by simp, by simp⟩).2.2 ['5', '_'] ['.', '2'] rfl
      ⟨by simp, by simp, by simp⟩
  · exact (tokenize_number hfloat ⟨by simp, by simp, by simp⟩).2.2 ['5', '_'] ['e'] rfl
      ⟨by simp, by simp, by simp⟩

end StackCompiler
