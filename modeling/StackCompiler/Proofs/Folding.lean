import Mathlib.Data.List.Forall2
import StackCompiler.Proofs.Comparison
import StackCompiler.Proofs.NormalForm
import StackCompiler.Proofs.Soundness

/-!
# Folding and checking

Folding the constant parts of a program changes the widths of integers, and with them types; but
up to widths and lengths an expression has the type of the folded one (`Comparison.exprs_fold`),
and a program that was read is accepted or refused with the folded one (`Program.check_fold`).
-/

namespace StackCompiler

/-- The type of a literal, without its width. -/
def Literal.ty : Literal → Ty
  | integer _ => .integer .i32
  | float _ => .float .f64
  | string _ => .string
  | char _ => .char
  | null => .null

/-- A literal has its type in every environment, and leaves the environment as it is. -/
theorem Literal.run_check (value : Literal) (range : Range) (s : Checking) :
    ∃ t s', (value.check range).run s = .ok t s' ∧ t.erase = value.ty ∧
      s'.environment = s.environment := by
  cases value with
  | integer value =>
    rw [check]
    split
    · exact ⟨_, s, rfl, rfl, rfl⟩
    · exact ⟨_, _, rfl, rfl, rfl⟩
  | float _ | string _ | char _ | null => exact ⟨_, s, rfl, rfl, rfl⟩

theorem Number.ty_of_floatResult? {op : BinaryOp} {x y : Float} {v : Literal}
    (h : floatResult? op x y = some v) :
    (op.result? (.float .f64) (.float .f64)).map Ty.erase = some v.ty ∧
      (op.result? (.integer .i32) (.float .f64)).map Ty.erase = some v.ty ∧
      (op.result? (.float .f64) (.integer .i32)).map Ty.erase = some v.ty := by
  cases op with
  | add | subtract | multiply | divide | power =>
    obtain ⟨_, h⟩ := Option.ite_none_right_eq_some.1 h
    cases h
    exact ⟨rfl, rfl, rfl⟩
  | modulo =>
    obtain ⟨_, _, h⟩ := Option.bind_eq_some_iff.1 h
    obtain ⟨_, h⟩ := Option.ite_none_right_eq_some.1 h
    cases h
    exact ⟨rfl, rfl, rfl⟩
  | equal | notEqual | less | greater | lessEqual | greaterEqual | and | or =>
    cases h
    exact ⟨rfl, rfl, rfl⟩
  | shiftLeft | shiftRight | bitAnd | bitOr | bitXor => cases h

/-- What is computed from two literals has the type that the operator gives to theirs. -/
theorem Literal.ty_of_combine? {op : BinaryOp} {l r v : Literal} (h : l.combine? op r = some v) :
    (op.result? l.ty r.ty).map Ty.erase = some v.ty := by
  cases l <;> cases r <;> simp only [combine?, reduceCtorEq] at h
  · obtain ⟨_, _, rfl⟩ := Option.map_eq_some_iff.1 h
    cases op <;> rfl
  · exact (Number.ty_of_floatResult? h).2.1
  · exact (Number.ty_of_floatResult? h).2.2
  · exact (Number.ty_of_floatResult? h).1

/-- A node whose operands are checked like two literals is checked like what is computed from
them. -/
theorem Comparison.Exprs.constant {κ : Comparison} {op : BinaryOp} {a b : Expr} {l r v : Literal}
    {pl pr p p' : Range} (ha : κ.Exprs a (.literal l pl)) (hb : κ.Exprs b (.literal r pr))
    (hv : l.combine? op r = some v) (hp : κ.Places p p') :
    κ.Exprs (.binary op a b p) (.literal v p') := by
  refine ⟨hp, fun s s' hs => ?_⟩
  -- The literals succeed, and so both operands do.
  obtain ⟨_, s₁', hl, htl, hs₁'⟩ := l.run_check pl s'
  have hl' := ha.check s s' hs
  rw [Expr.check, hl] at hl'
  obtain ⟨tl, s₁, hrun, ht, hs₁⟩ := hl'.exists_eq_ok
  obtain ⟨_, s₂', hr, htr, hs₂'⟩ := r.run_check pr s₁'
  have hr' := hb.check s₁ s₁' hs₁
  rw [Expr.check, hr] at hr'
  obtain ⟨tr, s₂, hrun₂, ht₂, hs₂⟩ := hr'.exists_eq_ok
  -- The operator applies to their types and gives the type of what is computed.
  have hresult := Literal.ty_of_combine? hv
  rw [← htl, ← htr, ← ht.erase_eq, ← ht₂.erase_eq, op.erase_result?,
    Option.map_eq_some_iff] at hresult
  obtain ⟨t, hresult, htv⟩ := hresult
  obtain ⟨_, s₃', hv', htv', hs₃'⟩ := v.run_check p' s'
  have hbinary : (Expr.binary op a b p).check.run s = .ok t s₂ := by
    rw [Expr.check, run_bind_eq_ok]
    refine ⟨tl, s₁, hrun, run_bind_eq_ok.2 ⟨tr, s₂, hrun₂, ?_⟩⟩
    rw [hresult]
    rfl
  rw [hbinary, Expr.check, hv']
  refine .ok ⟨by rw [htv, htv'], BinaryOp.flat_result? hresult⟩ ?_
  rw [hs₃', ← hs₁', ← hs₂']
  exact hs₂

theorem Expr.foldAll_eq_map (es : List Expr) : foldAll es = es.map fold := by
  induction es with
  | nil => rfl
  | cons e es ih => rw [foldAll, ih, List.map_cons]

theorem Ty.fold_fold (t : Ty) : t.fold.fold = t.fold := by
  rw [fold_eq_mapLengths, fold_eq_mapLengths, mapLengths_mapLengths, funext Expr.fold_fold]

theorem Ty.erase_fold (t : Ty) : t.fold.erase = t.erase := by
  rw [fold_eq_mapLengths, erase_mapLengths]

theorem Ty.flat_fold {t : Ty} : t.fold.Flat ↔ t.Flat := by
  rw [← flat_erase, erase_fold, flat_erase]

theorem Ty.lengths_fold (t : Ty) : t.fold.lengths = t.lengths.map Expr.fold := by
  rw [fold_eq_mapLengths, lengths_mapLengths]

namespace Comparison

/-- The comparison of a program with the folded one: the places are the same, and so are the types
of variables once their lengths are folded. -/
def folding : Comparison where
  Places := Eq
  ty := Ty.fold
  through := by
    rintro a _ b _ rfl rfl
    rfl
  erase_ty := Ty.erase_fold

mutual

/-- An expression is checked like the folded one. -/
theorem exprs_fold : (e : Expr) → folding.Exprs e e.fold
  | .literal value _ => .literal value rfl
  | .ident _ => .ident ⟨rfl, rfl⟩
  | .update op leading _ _ => .update op leading ⟨rfl, rfl⟩ rfl
  | .binary op l r range => by
    have hl := exprs_fold l
    have hr := exprs_fold r
    rcases Expr.fold_binary op l r range with ⟨_, _, _, _, _, el, er, hc, h⟩ | ⟨_, h⟩
    · rw [h]
      rw [el] at hl
      rw [er] at hr
      exact .constant hl hr hc rfl
    · rw [h]
      exact .binary op hl hr rfl
  | .unary op e _ => .unary op (exprs_fold e) rfl
  | .assign op _ value _ => .assign op ⟨rfl, rfl⟩ (exprs_fold value) rfl
  | .sequence items _ => .sequence (exprs_foldAll items) rfl
  | .array items _ => .array (exprs_foldAll items) rfl
  | .index base position _ => .index (exprs_fold base) (exprs_fold position) rfl

theorem exprs_foldAll : (es : List Expr) → List.Forall₂ folding.Exprs es (Expr.foldAll es)
  | [] => .nil
  | e :: es => .cons (exprs_fold e) (exprs_foldAll es)

end

theorem declarations_fold {d : Declaration} (h : d.ty.Flat) : folding.Declarations d d.fold where
  isMutable_eq := rfl
  ty_eq := d.ty.fold_fold.symm
  flat := h
  lengths := by
    rw [Declaration.fold, Ty.lengths_fold, ← Expr.foldAll_eq_map]
    exact exprs_foldAll _
  names := List.forall₂_same.2 fun _ _ => ⟨rfl, rfl⟩
  initializer := by
    rw [Declaration.fold]
    cases d.initializer with
    | none => exact .none
    | some e => exact .some (exprs_fold e)

/-- A program with flat types is checked like the folded one. -/
theorem statements_fold {p : Program} (h : ∀ d, .declaration d ∈ p → d.ty.Flat) :
    List.Forall₂ folding.Statements p p.fold := by
  induction p with
  | nil => exact .nil
  | cons stmt p ih =>
    refine .cons ?_ (ih fun d hd => h d (List.mem_cons_of_mem _ hd))
    cases stmt with
    | expression e => exact .expression (exprs_fold e)
    | declaration d => exact .declaration (declarations_fold (h d List.mem_cons_self))

end Comparison

mutual

/-- Types are read as flat ones. -/
theorem Ty.Derives.flat {ts : List Token} {t : Ty} : Ty.Derives ts t → t.Flat
  | .single h => h.flat
  | .union h hs => Ty.flat_join (List.forall_mem_cons.2 ⟨h.flat, hs.flat⟩)

theorem Ty.DerivesMember.flat {ts : List Token} {t : Ty} : Ty.DerivesMember ts t → t.Flat
  | .scalar _ | .null _ => trivial
  | .group _ h _ => h.flat
  | .array h _ _ => h.flat
  | .sized h _ _ _ => h.flat

theorem Ty.DerivesOthers.flat {us : List Token} {ts : List Ty} :
    Ty.DerivesOthers us ts → ∀ t ∈ ts, t.Flat
  | .nil => nofun
  | .cons _ h hs => List.forall_mem_cons.2 ⟨h.flat, hs.flat⟩

end

theorem Declaration.Derives.flat {ts : List Token} {d : Declaration}
    (h : Declaration.Derives ts d) : d.ty.Flat := by
  cases h with
  | mutable _ _ _ ht _ _ => exact ht.flat
  | constant _ _ _ ht _ _ => exact ht.flat

/-- The types in a program that was read are flat. -/
theorem Program.flat_of_parse {ts : List Token} {p : Program} (h : Program.parse ts = .ok p)
    {d : Declaration} (hd : .declaration d ∈ p) : d.ty.Flat := by
  obtain ⟨_, hd⟩ := exists_declaration_of_parse h hd
  exact hd.flat

/-- Folding preserves checking. A program that was read and the folded one are both accepted, or
both are refused at the same place for the same reason, but for widths and lengths of the types in
it; either way the environments are the same once lengths are folded. An expression and the folded
one have the same type but for widths and lengths. -/
theorem Program.check_fold {ts : List Token} {p : Program} {env : Environment}
    (hp : Program.parse ts = .ok p) (henv : ∀ x v, env.get? x = some v → v.ty.Flat)
    (ws ws' : List Warning) :
    ((∃ s s', p.check.run ⟨env, ws⟩ = .ok () s ∧ p.fold.check.run ⟨env, ws'⟩ = .ok () s' ∧
          s.environment.mapTy Ty.fold = s'.environment.mapTy Ty.fold) ∨
        ∃ c c' s s', p.check.run ⟨env, ws⟩ = .error c s ∧
          p.fold.check.run ⟨env, ws'⟩ = .error c' s' ∧ c.range = c'.range ∧
          c.fault.erase = c'.fault.erase ∧
          s.environment.mapTy Ty.fold = s'.environment.mapTy Ty.fold) ∧
      ∀ e t t' s s', (Expr.check e).run ⟨env, ws⟩ = .ok t s →
        e.fold.check.run ⟨env, ws'⟩ = .ok t' s' → t.erase = t'.erase := by
  have hsame : Comparison.folding.Environments env env := ⟨rfl, fun h => henv _ _ h⟩
  constructor
  · have h := Comparison.check_program (Comparison.statements_fold fun d => flat_of_parse hp)
      ⟨env, ws⟩ ⟨env, ws'⟩ hsame
    generalize p.check.run ⟨env, ws⟩ = r at h
    generalize p.fold.check.run ⟨env, ws'⟩ = r' at h
    cases h with
    | ok _ hs => exact .inl ⟨_, _, rfl, rfl, hs.mapTy_eq⟩
    | error hr hf hs => exact .inr ⟨_, _, _, _, rfl, rfl, hr, hf, hs.mapTy_eq⟩
  · intro e t t' s s' he he'
    have h := (Comparison.exprs_fold e).check ⟨env, ws⟩ ⟨env, ws'⟩ hsame
    rw [he, he'] at h
    obtain ⟨ht, _⟩ := h
    exact ht.erase_eq

/-- `mut a: int[1 + 1];`, whose length is `2` after folding, and `7 - 6`, which is then a truth
value. -/
theorem Program.check_fold_length :
    let ts : List Token :=
      [⟨.mutable, "mut", ⟨1, 0, 3⟩⟩, ⟨.identifier "a", "a", ⟨1, 4, 5⟩⟩,
       ⟨.symbol .colon, ":", ⟨1, 5, 6⟩⟩, ⟨.typeName (.integer .i32), "int", ⟨1, 7, 10⟩⟩,
       ⟨.symbol .leftBracket, "[", ⟨1, 10, 11⟩⟩, ⟨.integer 1, "1", ⟨1, 11, 12⟩⟩,
       ⟨.symbol .plus, "+", ⟨1, 13, 14⟩⟩, ⟨.integer 1, "1", ⟨1, 15, 16⟩⟩,
       ⟨.symbol .rightBracket, "]", ⟨1, 16, 17⟩⟩, ⟨.symbol .semicolon, ";", ⟨1, 17, 18⟩⟩,
       ⟨.eof, "", ⟨1, 18, 18⟩⟩]
    let sum : Expr :=
      .binary .add (.literal (.integer 1) ⟨1, 11, 12⟩) (.literal (.integer 1) ⟨1, 15, 16⟩)
        ⟨1, 11, 16⟩
    let difference : Expr :=
      .binary .subtract (.literal (.integer 7) ⟨1, 0, 1⟩) (.literal (.integer 6) ⟨1, 4, 5⟩)
        ⟨1, 0, 5⟩
    let p : Program :=
      [.declaration ⟨true, .array (.integer .i32) (some sum), [⟨"a", ⟨1, 4, 5⟩⟩], none, ⟨1, 0, 18⟩⟩]
    Program.parse ts = .ok p ∧
      (∃ s s', p.check.run {} = .ok () s ∧ p.fold.check.run {} = .ok () s' ∧
        s.environment.mapTy Ty.fold = s'.environment.mapTy Ty.fold ∧
        s.environment ≠ s'.environment) ∧
      ∃ t t' s s', difference.check.run {} = .ok t s ∧ difference.fold.check.run {} = .ok t' s' ∧
        t.erase = t'.erase ∧ t ≠ t' := by
  intro ts sum difference p
  have hp : Program.parse ts = .ok p := by decide +kernel
  have hflat : ∀ x v, Environment.get? {} x = some v → v.ty.Flat := by
    intro x v hv
    cases hv
  obtain ⟨hprogram, hexpr⟩ := Program.check_fold hp hflat [] []
  refine ⟨hp, ?_, ?_⟩
  · rcases hprogram with ⟨s, s', hs, hs', henv⟩ | ⟨c, c', s, s', hs, _⟩
    · refine ⟨s, s', hs, hs', henv, ?_⟩
      cases hs
      cases hs'
      decide
    · cases hs
  · have ht : difference.check.run {} = .ok (.integer .i32) {} := rfl
    have ht' : difference.fold.check.run {} = .ok (.integer .u1) {} := rfl
    exact ⟨_, _, _, _, ht, ht', hexpr _ _ _ _ _ ht ht', by decide⟩

end StackCompiler
