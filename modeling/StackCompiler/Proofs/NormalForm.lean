import StackCompiler.Proofs.Erasure
import StackCompiler.Proofs.Nodes

/-!
# The normal form of folding

What folding does to a tree, whatever is computed with numbers. An `Evaluator` computes with two
constants, by any rules; `Evaluator.fold` folds with it, and with the rules of the language that is
the folding of programs (`Evaluator.program_literals`).

Every node of a folded tree is what a node folds to (`Evaluator.forall_mem_nodes_fold`). So a folded
tree has no constant part left, and folding keeps such a tree (`Evaluator.fold_of_normal`). What is
done with names, in order, is the same before and after (`Evaluator.nameUses_fold`).
-/

namespace StackCompiler

/-- A way to compute with two constants: both are numbers, and so is the result. -/
structure Evaluator where
  result? : BinaryOp → Literal → Literal → Option Literal
  isNumeric {op : BinaryOp} {l r v : Literal} :
    result? op l r = some v → l.isNumeric ∧ r.isNumeric ∧ v.isNumeric

/-- What is done with a name. In an update `leading` says that the operator stands before the
name. -/
inductive NameUse where
  | read (id : Ident)
  | update (op : UpdateOp) (leading : Bool) (target : Ident)
  | assign (op : AssignOp) (target : Ident)
deriving DecidableEq

namespace Expr

/-- What the outermost node does with a name. -/
def nameUse? : Expr → Option NameUse
  | ident id => some (.read id)
  | update op leading target _ => some (.update op leading target)
  | assign op target _ _ => some (.assign op target)
  | literal .. | binary .. | unary .. | sequence .. | array .. | index .. => none

/-- What the expression does with names, from left to right. -/
def nameUses (e : Expr) : List NameUse :=
  e.nodes.filterMap nameUse?

/-- What the expressions of a list do with names, from left to right. -/
def nameUsesAll (es : List Expr) : List NameUse :=
  (nodesAll es).filterMap nameUse?

theorem nameUses_binary (op : BinaryOp) (l r : Expr) (range : Range) :
    (binary op l r range).nameUses = l.nameUses ++ r.nameUses :=
  List.filterMap_append

theorem nameUses_index (l r : Expr) (range : Range) :
    (index l r range).nameUses = l.nameUses ++ r.nameUses :=
  List.filterMap_append

theorem nameUsesAll_cons (e : Expr) (es : List Expr) :
    nameUsesAll (e :: es) = e.nameUses ++ nameUsesAll es :=
  List.filterMap_append

theorem isFoldable_of_isNumeric {value : Literal} (h : value.isNumeric) (range : Range) :
    (literal value range).isFoldable = true := by
  cases value with
  | integer _ | float _ | string _ | char _ => rfl
  | null => cases h

end Expr

theorem Number.isNumeric_of_floatResult? {op : BinaryOp} {x y : Float} {v : Literal}
    (h : floatResult? op x y = some v) : v.isNumeric := by
  cases op with
  | add | subtract | multiply | divide | power =>
    obtain ⟨_, h⟩ := Option.ite_none_right_eq_some.1 h
    cases h
    rfl
  | modulo =>
    obtain ⟨_, _, h⟩ := Option.bind_eq_some_iff.1 h
    obtain ⟨_, h⟩ := Option.ite_none_right_eq_some.1 h
    cases h
    rfl
  | equal | notEqual | less | greater | lessEqual | greaterEqual | and | or =>
    cases h
    rfl
  | shiftLeft | shiftRight | bitAnd | bitOr | bitXor => cases h

theorem Literal.isNumeric_of_combine? {op : BinaryOp} {l r v : Literal}
    (h : l.combine? op r = some v) : l.isNumeric ∧ r.isNumeric ∧ v.isNumeric := by
  cases l <;> cases r <;> try cases h
  · obtain ⟨_, _, rfl⟩ := Option.map_eq_some_iff.1 h
    exact ⟨rfl, rfl, rfl⟩
  all_goals exact ⟨rfl, rfl, Number.isNumeric_of_floatResult? h⟩

namespace Evaluator

/-- The rules of the language. -/
def literals : Evaluator where
  result? := Literal.combine?
  isNumeric := Literal.isNumeric_of_combine?

variable (ε : Evaluator)

/-- The constant that a binary node stands for, if its operands are constants that have one. -/
def constant? (op : BinaryOp) : Expr → Expr → Option Literal
  | .literal l _, .literal r _ => ε.result? op l r
  | _, _ => none

mutual

/-- The tree with its constant parts evaluated. -/
def fold : Expr → Expr
  | .literal value r => .literal value r
  | .ident id => .ident id
  | .binary op left right r =>
    match ε.constant? op (fold left) (fold right) with
    | some value => .literal value r
    | none => .binary op (fold left) (fold right) r
  | .unary op operand r => .unary op (fold operand) r
  | .update op leading target r => .update op leading target r
  | .assign op target value r => .assign op target (fold value) r
  | .sequence items r => .sequence (foldAll items) r
  | .array items r => .array (foldAll items) r
  | .index base position r => .index (fold base) (fold position) r

/-- Every tree of a list with its constant parts evaluated. -/
def foldAll : List Expr → List Expr
  | [] => []
  | e :: es => fold e :: foldAll es

end

/-- The statement with its constant parts evaluated, those of the lengths in a declared type
included. -/
def statement : Statement → Statement
  | .expression e => .expression (ε.fold e)
  | .declaration d => .declaration
      { d with ty := d.ty.mapLengths ε.fold, initializer := d.initializer.map ε.fold }

/-- The program with its constant parts evaluated. -/
def program (p : Program) : Program :=
  p.map ε.statement

/-- The outermost node is not one that stands for a constant. -/
def RootNormal : Expr → Prop
  | .binary op l r _ => ε.constant? op l r = none
  | _ => True

/-- No node stands for a constant. -/
def Normal (e : Expr) : Prop :=
  ∀ n ∈ e.nodes, ε.RootNormal n

/-! ## Trees -/

section Trees

variable {ε}

/-- What is folded is a binary node of two constants, or the node of the folded operands. -/
theorem fold_binary (op : BinaryOp) (l r : Expr) (range : Range) :
    (∃ vl vr v pl pr, ε.fold l = .literal vl pl ∧ ε.fold r = .literal vr pr ∧
        ε.result? op vl vr = some v ∧ ε.fold (.binary op l r range) = .literal v range) ∨
      ε.constant? op (ε.fold l) (ε.fold r) = none ∧
        ε.fold (.binary op l r range) = .binary op (ε.fold l) (ε.fold r) range := by
  rw [fold]
  cases hc : ε.constant? op (ε.fold l) (ε.fold r) with
  | none => exact .inr ⟨rfl, rfl⟩
  | some v =>
    left
    cases hl : ε.fold l <;> cases hr : ε.fold r <;> rw [hl, hr] at hc <;> try cases hc
    exact ⟨_, _, v, _, _, rfl, rfl, hc, rfl⟩

mutual

/-- What holds of all that the nodes of a tree fold to holds of all nodes of the folded tree. -/
theorem forall_mem_nodes_fold {P : Expr → Prop} : {e : Expr} →
    (∀ n ∈ e.nodes, P (ε.fold n)) → ∀ n ∈ (ε.fold e).nodes, P n
  | .literal .., h | .ident _, h | .update .., h =>
    List.forall_mem_singleton.2 (h _ List.mem_cons_self)
  | .binary op l r range, h => by
    rw [Expr.forall_mem_nodes_binary] at h
    rcases ε.fold_binary op l r range with ⟨_, _, _, _, _, _, _, _, hf⟩ | ⟨_, hf⟩
    · rw [hf] at h ⊢
      exact List.forall_mem_singleton.2 h.1
    · rw [hf] at h ⊢
      exact Expr.forall_mem_nodes_binary.2
        ⟨h.1, forall_mem_nodes_fold h.2.1, forall_mem_nodes_fold h.2.2⟩
  | .unary _ _ _, h => by
    rw [Expr.forall_mem_nodes_unary] at h
    exact Expr.forall_mem_nodes_unary.2 ⟨h.1, forall_mem_nodes_fold h.2⟩
  | .assign _ _ _ _, h => by
    rw [Expr.forall_mem_nodes_assign] at h
    exact Expr.forall_mem_nodes_assign.2 ⟨h.1, forall_mem_nodes_fold h.2⟩
  | .sequence _ _, h => by
    rw [Expr.forall_mem_nodes_sequence] at h
    exact Expr.forall_mem_nodes_sequence.2 ⟨h.1, forall_mem_nodes_foldAll h.2⟩
  | .array _ _, h => by
    rw [Expr.forall_mem_nodes_array] at h
    exact Expr.forall_mem_nodes_array.2 ⟨h.1, forall_mem_nodes_foldAll h.2⟩
  | .index _ _ _, h => by
    rw [Expr.forall_mem_nodes_index] at h
    exact Expr.forall_mem_nodes_index.2
      ⟨h.1, forall_mem_nodes_fold h.2.1, forall_mem_nodes_fold h.2.2⟩

theorem forall_mem_nodes_foldAll {P : Expr → Prop} : {es : List Expr} →
    (∀ e ∈ es, ∀ n ∈ e.nodes, P (ε.fold n)) → ∀ e ∈ ε.foldAll es, ∀ n ∈ e.nodes, P n
  | [], _ => List.forall_mem_nil _
  | _ :: _, h => by
    rw [List.forall_mem_cons] at h
    exact List.forall_mem_cons.2 ⟨forall_mem_nodes_fold h.1, forall_mem_nodes_foldAll h.2⟩

end

theorem rootNormal_fold (e : Expr) : ε.RootNormal (ε.fold e) := by
  cases e with
  | binary op l r range =>
    rcases ε.fold_binary op l r range with ⟨_, _, _, _, _, _, _, _, hf⟩ | ⟨hc, hf⟩
    · rw [hf]
      trivial
    · rw [hf]
      exact hc
  | literal | ident | unary | update | assign | sequence | array | index => trivial

/-- Folding leaves no constant part. -/
theorem normal_fold (e : Expr) : ε.Normal (ε.fold e) :=
  forall_mem_nodes_fold fun n _ => rootNormal_fold n

mutual

/-- A tree without constant parts is kept. -/
theorem fold_of_normal : {e : Expr} → ε.Normal e → ε.fold e = e
  | .literal .., _ | .ident _, _ | .update .., _ => rfl
  | .binary op l r range, h => by
    obtain ⟨hroot, hl, hr⟩ := Expr.forall_mem_nodes_binary.1 h
    rw [fold, fold_of_normal hl, fold_of_normal hr]
    rw [RootNormal] at hroot
    rw [hroot]
  | .unary _ _ _, h => by rw [fold, fold_of_normal (Expr.forall_mem_nodes_unary.1 h).2]
  | .assign _ _ _ _, h => by rw [fold, fold_of_normal (Expr.forall_mem_nodes_assign.1 h).2]
  | .sequence _ _, h => by rw [fold, foldAll_of_normal (Expr.forall_mem_nodes_sequence.1 h).2]
  | .array _ _, h => by rw [fold, foldAll_of_normal (Expr.forall_mem_nodes_array.1 h).2]
  | .index _ _ _, h => by
    obtain ⟨_, hbase, hposition⟩ := Expr.forall_mem_nodes_index.1 h
    rw [fold, fold_of_normal hbase, fold_of_normal hposition]

theorem foldAll_of_normal : {es : List Expr} → (∀ e ∈ es, ε.Normal e) → ε.foldAll es = es
  | [], _ => rfl
  | _ :: _, h => by
    rw [List.forall_mem_cons] at h
    rw [foldAll, fold_of_normal h.1, foldAll_of_normal h.2]

end

theorem fold_fold (e : Expr) : ε.fold (ε.fold e) = ε.fold e :=
  fold_of_normal (normal_fold e)

/-- A constant takes the range of what it stands for. -/
theorem range_fold (e : Expr) : (ε.fold e).range = e.range := by
  cases e with
  | binary op l r range =>
    rcases ε.fold_binary op l r range with ⟨_, _, _, _, _, _, _, _, hf⟩ | ⟨_, hf⟩
    · rw [hf]
      rfl
    · rw [hf]
      rfl
  | literal | ident | unary | update | assign | sequence | array | index => rfl

mutual

theorem isFoldable_fold : (e : Expr) → (ε.fold e).isFoldable = e.isFoldable
  | .literal .. | .ident _ | .update .. | .assign .. => rfl
  | .binary op l r range => by
    rw [Expr.isFoldable, ← isFoldable_fold l, ← isFoldable_fold r]
    rcases ε.fold_binary op l r range with ⟨_, _, _, _, _, hl, hr, hv, hf⟩ | ⟨_, hf⟩
    · -- Both operands are numbers, and so is the result.
      obtain ⟨hnl, hnr, hnv⟩ := ε.isNumeric hv
      rw [hf, hl, hr, Expr.isFoldable_of_isNumeric hnl, Expr.isFoldable_of_isNumeric hnr,
        Expr.isFoldable_of_isNumeric hnv, Bool.and_self]
    · rw [hf, Expr.isFoldable]
  | .unary _ e _ => by rw [fold, Expr.isFoldable, Expr.isFoldable, isFoldable_fold e]
  | .sequence items _ => by rw [fold, Expr.isFoldable, Expr.isFoldable, areFoldable_foldAll items]
  | .array items _ => by rw [fold, Expr.isFoldable, Expr.isFoldable, areFoldable_foldAll items]
  | .index base position _ => by
    rw [fold, Expr.isFoldable, Expr.isFoldable, isFoldable_fold base, isFoldable_fold position]

theorem areFoldable_foldAll : (es : List Expr) →
    Expr.areFoldable (ε.foldAll es) = Expr.areFoldable es
  | [] => rfl
  | e :: es => by
    rw [foldAll, Expr.areFoldable, Expr.areFoldable, isFoldable_fold e, areFoldable_foldAll es]

end

mutual

/-- Names are used as before: a constant part uses none. -/
theorem nameUses_fold : (e : Expr) → (ε.fold e).nameUses = e.nameUses
  | .literal .. | .ident _ | .update .. => rfl
  | .binary op l r range => by
    rw [Expr.nameUses_binary, ← nameUses_fold l, ← nameUses_fold r]
    rcases ε.fold_binary op l r range with ⟨_, _, _, _, _, hl, hr, _, hf⟩ | ⟨_, hf⟩
    · rw [hf, hl, hr]
      rfl
    · rw [hf, Expr.nameUses_binary]
  | .unary _ e _ => nameUses_fold e
  | .assign op target value _ =>
    congrArg (List.cons (NameUse.assign op target)) (nameUses_fold value)
  | .sequence items _ => nameUsesAll_foldAll items
  | .array items _ => nameUsesAll_foldAll items
  | .index base position _ => by
    rw [fold, Expr.nameUses_index, Expr.nameUses_index, nameUses_fold base, nameUses_fold position]

theorem nameUsesAll_foldAll : (es : List Expr) →
    Expr.nameUsesAll (ε.foldAll es) = Expr.nameUsesAll es
  | [] => rfl
  | e :: es => by
    rw [foldAll, Expr.nameUsesAll_cons, Expr.nameUsesAll_cons, nameUses_fold e,
      nameUsesAll_foldAll es]

end

end Trees

/-! ## Programs -/

theorem expressions_statement (stmt : Statement) :
    (ε.statement stmt).expressions = stmt.expressions.map ε.fold := by
  cases stmt with
  | expression e => rfl
  | declaration d =>
    rw [Statement.expressions, Statement.expressions, List.map_append]
    congr 1
    · exact Ty.lengths_mapLengths ε.fold d.ty
    · exact Option.toList_map

theorem expressions_program (p : Program) :
    (ε.program p).expressions = p.expressions.map ε.fold := by
  rw [Program.expressions, program, List.flatMap_map, Program.expressions, List.map_flatMap]
  exact congrArg p.flatMap (funext ε.expressions_statement)

theorem statement_of_normal {stmt : Statement} (h : ∀ e ∈ stmt.expressions, ε.Normal e) :
    ε.statement stmt = stmt := by
  cases stmt with
  | expression e => exact congrArg Statement.expression (fold_of_normal (h e List.mem_cons_self))
  | declaration d =>
    rw [Statement.expressions, List.forall_mem_append] at h
    have hty : d.ty.mapLengths ε.fold = d.ty :=
      Ty.mapLengths_eq_self ε.fold fun e he => fold_of_normal (h.1 e he)
    have hinitializer : d.initializer.map ε.fold = d.initializer := by
      cases hi : d.initializer with
      | none => rfl
      | some e => rw [Option.map_some, fold_of_normal (h.2 e (Option.mem_toList.2 hi))]
    rw [statement, hty, hinitializer]

theorem program_of_normal {p : Program} (h : ∀ e ∈ p.expressions, ε.Normal e) :
    ε.program p = p := by
  have hstmt : ∀ stmt ∈ p, ε.statement stmt = stmt := fun stmt hs =>
    ε.statement_of_normal fun e he => h e (List.mem_flatMap.2 ⟨stmt, hs, he⟩)
  exact (List.map_congr_left hstmt).trans (List.map_id p)

theorem normal_program (p : Program) : ∀ e ∈ (ε.program p).expressions, ε.Normal e := by
  rw [expressions_program]
  exact List.forall_mem_map.2 fun e _ => normal_fold e

/-! ## The rules of the language -/

theorem constant?_literals (op : BinaryOp) (l r : Expr) :
    literals.constant? op l r = Expr.constant? op l r := by
  cases l <;> cases r <;> rfl

mutual

theorem fold_literals : (e : Expr) → literals.fold e = e.fold
  | .literal .. | .ident _ | .update .. => rfl
  | .binary op l r _ => by
    rw [fold, Expr.fold, fold_literals l, fold_literals r]
    cases hc : Expr.constant? op l.fold r.fold <;> simp only [constant?_literals, hc]
  | .unary _ e _ => by rw [fold, Expr.fold, fold_literals e]
  | .assign _ _ value _ => by rw [fold, Expr.fold, fold_literals value]
  | .sequence items _ => by rw [fold, Expr.fold, foldAll_literals items]
  | .array items _ => by rw [fold, Expr.fold, foldAll_literals items]
  | .index base position _ => by
    rw [fold, Expr.fold, fold_literals base, fold_literals position]

theorem foldAll_literals : (es : List Expr) → literals.foldAll es = Expr.foldAll es
  | [] => rfl
  | e :: es => by rw [foldAll, Expr.foldAll, fold_literals e, foldAll_literals es]

end

theorem program_literals (p : Program) : literals.program p = p.fold := by
  refine List.map_congr_left fun stmt _ => ?_
  cases stmt with
  | expression e => exact congrArg Statement.expression (fold_literals e)
  | declaration d =>
    rw [statement, Statement.fold, Declaration.fold, Ty.fold_eq_mapLengths, funext fold_literals]

end Evaluator

namespace Expr

theorem fold_binary (op : BinaryOp) (l r : Expr) (range : Range) :
    (∃ vl vr v pl pr, l.fold = literal vl pl ∧ r.fold = literal vr pr ∧
        vl.combine? op vr = some v ∧ (binary op l r range).fold = literal v range) ∨
      constant? op l.fold r.fold = none ∧
        (binary op l r range).fold = binary op l.fold r.fold range := by
  have h := Evaluator.literals.fold_binary op l r range
  simp only [Evaluator.fold_literals, Evaluator.constant?_literals] at h
  exact h

theorem fold_fold (e : Expr) : e.fold.fold = e.fold := by
  rw [← Evaluator.fold_literals, ← Evaluator.fold_literals, Evaluator.fold_fold]

@[simp] theorem range_fold (e : Expr) : e.fold.range = e.range := by
  rw [← Evaluator.fold_literals, Evaluator.range_fold]

theorem forall_mem_nodes_fold {P : Expr → Prop} {e : Expr} (h : ∀ n ∈ e.nodes, P n.fold) :
    ∀ n ∈ e.fold.nodes, P n := by
  rw [← Evaluator.fold_literals]
  refine Evaluator.forall_mem_nodes_fold fun n hn => ?_
  rw [Evaluator.fold_literals]
  exact h n hn

end Expr

/-- Folding reaches a normal form without touching effects, whatever is computed with numbers.
Nowhere in a folded program, lengths included, is a binary node left of two constants that have a
result, and folding once more changes nothing. An expression keeps its range, whether it is
foldable, and what it does with names from left to right. Programs are folded so by the rules of the
language. -/
theorem Evaluator.program_fold_normal (ε : Evaluator) (p : Program) :
    (∀ e ∈ (ε.program p).expressions, ∀ op l r pl pr range,
      .binary op (.literal l pl) (.literal r pr) range ∈ e.nodes → ε.result? op l r = none) ∧
    ε.program (ε.program p) = ε.program p ∧
    (∀ e, (ε.fold e).range = e.range ∧ (ε.fold e).isFoldable = e.isFoldable ∧
      (ε.fold e).nameUses = e.nameUses) ∧
    literals.program p = p.fold ∧ ∀ e, literals.fold e = e.fold := by
  have hnormal := ε.normal_program p
  refine ⟨?_, ε.program_of_normal hnormal, ?_, program_literals p, fold_literals⟩
  · intro e he op l r pl pr range hn
    exact hnormal e he _ hn
  · exact fun e => ⟨range_fold e, isFoldable_fold e, nameUses_fold e⟩

/-- A quotient by `1 - 1` is left as a quotient by zero, which has no result. -/
theorem Evaluator.program_fold_normal_quotient :
    let one : Expr := .literal (.integer 1) ⟨1, 0, 1⟩
    let zero : Expr := .binary .subtract one one ⟨1, 5, 10⟩
    let p : Program := [.expression (.binary .divide one zero ⟨1, 0, 11⟩)]
    let q : Expr := .binary .divide one (.literal (.integer 0) ⟨1, 5, 10⟩) ⟨1, 0, 11⟩
    p.fold = [.expression q] ∧ Program.fold [.expression q] = [.expression q] ∧
      literals.result? .divide (.integer 1) (.integer 0) = none := by
  intro one zero p q
  obtain ⟨hnormal, hagain, -, hfold, -⟩ := Evaluator.program_fold_normal literals p
  have hp : p.fold = [.expression q] := by decide
  rw [hfold, hp] at hnormal hagain
  rw [program_literals] at hagain
  refine ⟨hp, hagain, hnormal q (by decide) .divide _ _ ⟨1, 0, 1⟩ ⟨1, 5, 10⟩ ⟨1, 0, 11⟩ ?_⟩
  exact q.mem_nodes_self

end StackCompiler
