import StackCompiler.Token.Stream

/-!
# Readers of tokens

Two views of what a reader answers, free of the bound that a `Parsed` carries for termination.

`Reads ts P r` says what every answer `r` on the tokens `ts` is like: a value comes with the tokens
used for it, none of which ends the text, and `P` holds of these, the value and the tokens left; a
reader runs out of tokens only if none of them ends the text. `Yields r a rest` says that the
answer is the value `a` and leaves `rest`. Both follow a reader step by step (`Reads.bind`,
`Yields.bind`), so that no proof about a larger reader looks into a smaller one.
-/

namespace StackCompiler

variable {α β : Type} {n m : Nat}

/-- Every answer on the tokens `ts` fits `P`, and tokens that hold the end of the text suffice. -/
def Reads (ts : List Token) (P : List Token → α → List Token → Prop) :
    Except Failure (Parsed α n) → Prop
  | .ok p => ∃ used, ts = used ++ p.rest ∧ (∀ t ∈ used, t.kind ≠ .eof) ∧ P used p.value p.rest
  | .error (.internal _) => ∀ t ∈ ts, t.kind ≠ .eof
  | .error _ => True

/-- The answer is the value `a`, and `rest` is left. -/
def Yields (r : Except Failure (Parsed α n)) (a : α) (rest : List Token) : Prop :=
  ∃ h, r = .ok ⟨a, rest, h⟩

namespace Reads

variable {ts : List Token} {P : List Token → α → List Token → Prop}

theorem refuse (range : Range) (cause : GrammarFault) :
    Reads ts P (StackCompiler.refuse range cause : Except Failure (Parsed α n)) :=
  trivial

theorem endOfTokens : Reads [] P (.error (.internal .endOfTokens) : Except Failure (Parsed α n)) :=
  fun _ h => absurd h List.not_mem_nil

/-- A reader that takes nothing. -/
theorem stay {a : α} {h : ts.length < n} (hP : P [] a ts) :
    Reads ts P (.ok ⟨a, ts, h⟩ : Except Failure (Parsed α n)) :=
  ⟨[], rfl, fun _ ht => absurd ht List.not_mem_nil, hP⟩

/-- A reader that takes one token first. -/
theorem cons {t : Token} {r : Except Failure (Parsed α n)} (ht : t.kind ≠ .eof)
    (h : Reads ts (fun used => P (t :: used)) r) : Reads (t :: ts) P r := by
  match r with
  | .ok p =>
    obtain ⟨used, hts, hu, hP⟩ := h
    refine ⟨t :: used, by rw [hts]; rfl, ?_, hP⟩
    exact List.forall_mem_cons.mpr ⟨ht, hu⟩
  | .error (.internal _) => exact List.forall_mem_cons.mpr ⟨ht, h⟩
  | .error (.refused _) | .error (.tooManyWarnings _ _) => trivial

/-- One reader after another. -/
theorem bind {Q : List Token → β → List Token → Prop} {r : Except Failure (Parsed α n)}
    {f : Parsed α n → Except Failure (Parsed β m)} (h : Reads ts P r)
    (hf : ∀ used a rest lt, ts = used ++ rest → P used a rest →
      Reads rest (fun used' => Q (used ++ used')) (f ⟨a, rest, lt⟩)) :
    Reads ts Q (r >>= f) := by
  match r with
  | .ok ⟨a, rest, lt⟩ =>
    obtain ⟨used, hts, hu, hP⟩ := h
    have hg := hf used a rest lt hts hP
    show Reads ts Q (f ⟨a, rest, lt⟩)
    match hr : f ⟨a, rest, lt⟩ with
    | .ok q =>
      rw [hr] at hg
      obtain ⟨used', hrest, hu', hQ⟩ := hg
      refine ⟨used ++ used', ?_, ?_, hQ⟩
      · rw [hts, List.append_assoc]
        exact congrArg (used ++ ·) hrest
      · exact List.forall_mem_append.mpr ⟨hu, hu'⟩
    | .error (.internal _) =>
      rw [hr] at hg
      show ∀ t ∈ ts, t.kind ≠ .eof
      rw [hts]
      exact List.forall_mem_append.mpr ⟨hu, hg⟩
    | .error (.refused _) | .error (.tooManyWarnings _ _) => trivial
  | .error (.internal _) => exact h
  | .error (.refused _) | .error (.tooManyWarnings _ _) => trivial

/-- A reader that looks at the first token before it goes on. -/
theorem peek {f : Token → Except Failure (Parsed α n)}
    (hf : ∀ t rest, ts = t :: rest → Reads ts P (f t)) :
    Reads ts P (StackCompiler.peek ts >>= f) := by
  match ts with
  | [] => exact endOfTokens
  | t :: rest => exact hf t rest rfl

theorem expect (s : Symbol) (ts : List Token) :
    Reads ts (fun used t _ => used = [t] ∧ t.kind = .symbol s) (StackCompiler.expect s ts) := by
  match ts with
  | [] => exact endOfTokens
  | t :: rest =>
    rw [StackCompiler.expect]
    split
    · rename_i h
      exact cons (by simp [h]) (stay ⟨rfl, h⟩)
    · exact refuse _ _

end Reads

namespace Yields

variable {r : Except Failure (Parsed α n)} {a : α} {b : β} {rest rest' : List Token}

/-- One reader after another. -/
theorem bind {f : Parsed α n → Except Failure (Parsed β m)} (h : Yields r a rest)
    (hf : ∀ lt, Yields (f ⟨a, rest, lt⟩) b rest') : Yields (r >>= f) b rest' := by
  obtain ⟨lt, rfl⟩ := h
  exact hf lt

theorem peek {t : Token} {ts : List Token} {f : Token → Except Failure (Parsed α n)}
    (h : Yields (f t) a rest) : Yields (StackCompiler.peek (t :: ts) >>= f) a rest :=
  h

theorem expect {s : Symbol} {t : Token} (h : t.kind = .symbol s) (ts : List Token) :
    Yields (StackCompiler.expect s (t :: ts)) t ts := by
  refine ⟨Parsed.lt_cons t ts, ?_⟩
  rw [StackCompiler.expect, if_pos h]

end Yields

end StackCompiler
