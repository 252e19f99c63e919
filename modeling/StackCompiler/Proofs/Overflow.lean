import Mathlib.Algebra.Group.Int.Defs
import Mathlib.Logic.Basic
import StackCompiler.Proofs.Sessions

/-!
# Integers that no type holds

The width classes of integer literals cover the values of the two 64-bit types and nothing else
(`IntWidth.ofLiteral?_eq_none`). So the warnings of a check that succeeds are the integer literals
with other values, in the order in which they are looked at and each with its own place
(`Program.overflows_eq_filter`). They only ever keep a unit from being compiled by their number
(`Session.overflow_warnings_exact`).
-/

namespace StackCompiler

/-- A literal has no width class exactly if it is neither an `i64` nor a `u64`. -/
theorem IntWidth.ofLiteral?_eq_none {value : Int} :
    ofLiteral? value = none ↔ ¬ (-2 ^ 63 ≤ value ∧ value ≤ 2 ^ 64 - 1) := by
  have h32 : Number.FitsSigned 32 value ↔ -2 ^ 31 ≤ value ∧ value < 2 ^ 31 := Iff.rfl
  have h64 : Number.FitsSigned 64 value ↔ -2 ^ 63 ≤ value ∧ value < 2 ^ 63 := Iff.rfl
  have hu64 : Number.FitsUnsigned 64 value ↔ 0 ≤ value ∧ value < 2 ^ 64 := Iff.rfl
  have hnone : ofLiteral? value = none ↔ ¬ (value = 0 ∨ value = 1) ∧
      ¬ Number.FitsSigned 32 value ∧ ¬ Number.FitsSigned 64 value ∧
      ¬ Number.FitsUnsigned 64 value := by
    simp only [ofLiteral?, ite_eq_iff, reduceCtorEq, and_false, false_or, and_true]
  rw [hnone, h32, h64, hu64]
  omega

/-- The value and the place of a node that is an integer literal. -/
def Expr.integerLiteral? : Expr → Option (Int × Range)
  | literal (.integer value) range => some (value, range)
  | _ => none

/-- The integer literals of a program in the order in which they stand, those in the lengths of a
declaration before those in its initial value. -/
def Program.integerLiterals (p : Program) : List (Int × Range) :=
  (p.expressions.flatMap Expr.nodes).filterMap Expr.integerLiteral?

/-- A node is warned about if it is an integer literal outside of the 64-bit types. -/
theorem Expr.overflow?_eq (e : Expr) :
    e.overflow?.map (fun w => (w.value, w.range)) =
      e.integerLiteral?.filter fun l => ¬ (-2 ^ 63 ≤ l.1 ∧ l.1 ≤ 2 ^ 64 - 1) := by
  cases e with
  | literal value range =>
    cases value with
    | integer n =>
      have hn : (IntWidth.ofLiteral? n).isNone = decide (¬ (-2 ^ 63 ≤ n ∧ n ≤ 2 ^ 64 - 1)) := by
        rw [Bool.eq_iff_iff, Option.isNone_iff_eq_none, decide_eq_true_iff]
        exact IntWidth.ofLiteral?_eq_none
      rw [overflow?, integerLiteral?, Option.filter_some, hn]
      split <;> rfl
    | float _ | string _ | char _ | null => rfl
  | _ => rfl

theorem Program.overflows_eq (p : Program) :
    p.overflows = (p.expressions.flatMap Expr.nodes).filterMap Expr.overflow? := by
  rw [overflows, expressions, List.flatMap_assoc, List.filterMap_flatMap]
  rfl

/-- What a program is warned about are its integer literals outside of the 64-bit types. -/
theorem Program.overflows_eq_filter (p : Program) :
    p.overflows.map (fun w => (w.value, w.range)) =
      p.integerLiterals.filter fun l => ¬ (-2 ^ 63 ≤ l.1 ∧ l.1 ≤ 2 ^ 64 - 1) := by
  rw [overflows_eq, integerLiterals, List.map_filterMap, List.filter_filterMap]
  congr 1
  funext e
  exact e.overflow?_eq

namespace Session

/-- A program whose check succeeds has too many warnings exactly if they exceed the limit: no other
stage ends so. -/
theorem compileProgram_eq_tooManyWarnings {s : Session} {p : Program} {checked : Checking}
    (hc : p.check.run { environment := s.environment } = .ok () checked) {count limit : Nat} :
    s.compileProgram p = .error (.tooManyWarnings count limit) ↔
      s.options.warningLimit = some limit ∧ count = checked.warnings.length ∧ limit < count := by
  rw [compileProgram, hc]
  dsimp only
  cases he : s.options.exceeded? checked.warnings.length with
  | some failure =>
    obtain ⟨limit', hlimit, hlt, rfl⟩ := Options.exceeded?_eq_some.1 he
    simp only [hlimit, Except.error.injEq, Failure.tooManyWarnings.injEq, Option.some.injEq]
    constructor
    · rintro ⟨rfl, rfl⟩
      exact ⟨rfl, rfl, hlt⟩
    · rintro ⟨rfl, rfl, _⟩
      exact ⟨rfl, rfl⟩
  | none =>
    constructor
    · intro h
      dsimp only at h
      split at h <;> cases h
    · rintro ⟨hlimit, rfl, hlt⟩
      have hsome := Options.exceeded?_eq_some.2 ⟨limit, hlimit, hlt, rfl⟩
      rw [he] at hsome
      cases hsome

/-- A text that can be read fails exactly as its folded program does. -/
theorem compile_eq_error {s : Session} {source : String} {p : Program}
    (hp : Program.ofSource source = .ok p) {failure : Failure} :
    (s.compile source).1 = .error failure ↔ s.compileProgram p.fold = .error failure := by
  rw [compile, hp]
  dsimp only
  cases s.compileProgram p.fold with
  | error failure' => simp
  | ok r => simp

/-- A unit that fails leaves the session as it was. -/
theorem compile_of_error {s : Session} {source : String} {failure : Failure}
    (h : (s.compile source).1 = .error failure) : (s.compile source).2 = s := by
  rcases compile_cases s source with ⟨_, hs⟩ | ⟨_, _, _, _, _, hs⟩
  · rw [hs]
  · rw [hs] at h
    cases h

/-- The warnings about a text that can be read, and whose folded program passes its check, are one
for each integer literal of the folded program outside of the 64-bit types, in the order in which
the literals stand and each with the value and the place of its literal. A unit that succeeds hands
them on. A unit fails for their number exactly if there is a limit that they exceed, and then leaves
the session as it was. -/
theorem overflow_warnings_exact (s : Session) {source : String} {p : Program} {checked : Checking}
    (hp : Program.ofSource source = .ok p)
    (hc : p.fold.check.run { environment := s.environment } = .ok () checked) :
    checked.warnings.map (fun w => (w.value, w.range)) =
        p.fold.integerLiterals.filter (fun l => ¬ (-2 ^ 63 ≤ l.1 ∧ l.1 ≤ 2 ^ 64 - 1)) ∧
      (∀ c, (s.compile source).1 = .ok c → c.warnings = checked.warnings) ∧
      ∀ count limit,
        ((s.compile source).1 = .error (.tooManyWarnings count limit) ↔
          s.options.warningLimit = some limit ∧ count = checked.warnings.length ∧ limit < count) ∧
        ((s.compile source).1 = .error (.tooManyWarnings count limit) →
          (s.compile source).2 = s) := by
  refine ⟨?_, ?_, fun count limit => ⟨?_, compile_of_error⟩⟩
  · rw [Program.warnings_check hc, List.nil_append, Program.overflows_eq_filter]
  · intro c hok
    rcases compile_cases s source with ⟨_, hs⟩ | ⟨p', c', s', hp', hcompiled, hs⟩
    · rw [hs] at hok
      cases hok
    · rw [hs] at hok
      cases hok
      cases hp.symm.trans hp'
      obtain ⟨checked', _, _, hc', _, rfl, _⟩ := compileProgram_eq_ok hcompiled
      cases hc.symm.trans hc'
      rfl
  · rw [compile_eq_error hp, compileProgram_eq_tooManyWarnings hc]

/-- Folding takes away the literal that is too large, and makes two others of small ones. -/
theorem overflow_warnings_exact_folded :
    ∃ p checked,
      Program.ofSource "mut a: u8[2 ** 64]; 18446744073709551616 - 1; 0 - 2 ** 64;" = .ok p ∧
      p.fold.check.run {} = .ok () checked ∧
      p.fold.integerLiterals =
        [(2 ^ 64, ⟨1, 10, 17⟩), (2 ^ 64 - 1, ⟨1, 20, 44⟩), (-2 ^ 64, ⟨1, 46, 57⟩)] ∧
      checked.warnings.map (fun w => (w.value, w.range)) =
        [(2 ^ 64, ⟨1, 10, 17⟩), (-2 ^ 64, ⟨1, 46, 57⟩)] ∧
      (compile { options := { warningLimit := some 1 } }
        "mut a: u8[2 ** 64]; 18446744073709551616 - 1; 0 - 2 ** 64;").1 =
          .error (.tooManyWarnings 2 1) := by
  have hp : Program.ofSource "mut a: u8[2 ** 64]; 18446744073709551616 - 1; 0 - 2 ** 64;" = .ok
      [.declaration ⟨true, .array (.integer .u8)
          (some (.binary .power (.literal (.integer 2) ⟨1, 10, 11⟩)
            (.literal (.integer 64) ⟨1, 15, 17⟩) ⟨1, 10, 17⟩)),
        [⟨"a", ⟨1, 4, 5⟩⟩], none, ⟨1, 0, 19⟩⟩,
      .expression (.binary .subtract (.literal (.integer 18446744073709551616) ⟨1, 20, 40⟩)
        (.literal (.integer 1) ⟨1, 43, 44⟩) ⟨1, 20, 44⟩),
      .expression (.binary .subtract (.literal (.integer 0) ⟨1, 46, 47⟩)
        (.binary .power (.literal (.integer 2) ⟨1, 50, 51⟩) (.literal (.integer 64) ⟨1, 55, 57⟩)
          ⟨1, 50, 57⟩) ⟨1, 46, 57⟩)] := by
    decide +kernel
  obtain ⟨hwarnings, _, hlimit⟩ :=
    overflow_warnings_exact { options := { warningLimit := some 1 } } hp rfl
  exact ⟨_, _, hp, rfl, by decide +kernel, hwarnings.trans (by with_unfolding_all rfl),
    (hlimit 2 1).1.2 ⟨rfl, by decide +kernel, by decide⟩⟩

end Session

end StackCompiler
