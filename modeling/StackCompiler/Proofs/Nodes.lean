import StackCompiler.Code.Lower

/-!
# The parts of programs

The expressions inside an expression (`Expr.nodes`), the names that they use (`Expr.subject?`) or
change (`Expr.writes`), and the names that are assigned to (`Expr.targets`); and of a program the
names it declares, in order, the expressions it has evaluated and the float and string constants in
them. The lengths in declared types are not evaluated.
-/

namespace StackCompiler

namespace Expr

mutual

/-- The expression and those inside it, each before its parts. -/
def nodes : Expr → List Expr
  | e@(literal ..) | e@(ident _) | e@(update ..) => [e]
  | e@(binary _ left right _) => e :: (left.nodes ++ right.nodes)
  | e@(unary _ operand _) => e :: operand.nodes
  | e@(assign _ _ value _) => e :: value.nodes
  | e@(sequence items _) | e@(array items _) => e :: nodesAll items
  | e@(index base position _) => e :: (base.nodes ++ position.nodes)

/-- The expressions of a list and those inside them. -/
def nodesAll : List Expr → List Expr
  | [] => []
  | e :: es => e.nodes ++ nodesAll es

end

mutual

/-- The names that are assigned to, in the order of the assignments. -/
def targets : Expr → List String
  | literal .. | ident _ | update .. => []
  | binary _ left right _ => left.targets ++ right.targets
  | unary _ operand _ => operand.targets
  | assign _ target value _ => value.targets ++ [target.name]
  | sequence items _ | array items _ => targetsAll items
  | index base position _ => base.targets ++ position.targets

/-- The names that the expressions of a list assign to. -/
def targetsAll : List Expr → List String
  | [] => []
  | e :: es => e.targets ++ targetsAll es

end

theorem targetsAll_append (es es' : List Expr) :
    targetsAll (es ++ es') = targetsAll es ++ targetsAll es' := by
  induction es with
  | nil => rfl
  | cons e es ih => rw [List.cons_append, targetsAll, targetsAll, ih, List.append_assoc]

section Everywhere

variable {P : Expr → Prop} {l r e : Expr} {items : List Expr} {place : Range}

theorem mem_nodes_self (e : Expr) : e ∈ e.nodes := by
  cases e <;> exact List.mem_cons_self

theorem forall_mem_nodesAll :
    (∀ n ∈ nodesAll items, P n) ↔ ∀ e ∈ items, ∀ n ∈ e.nodes, P n := by
  induction items with
  | nil => exact ⟨fun _ => List.forall_mem_nil _, fun _ => List.forall_mem_nil _⟩
  | cons e es ih => rw [nodesAll, List.forall_mem_append, ih, List.forall_mem_cons]

theorem exists_mem_nodesAll :
    (∃ n ∈ nodesAll items, P n) ↔ ∃ e ∈ items, ∃ n ∈ e.nodes, P n := by
  induction items with
  | nil => simp [nodesAll]
  | cons e es ih => simp [nodesAll, or_and_right, exists_or, ih]

theorem forall_mem_nodes_unary {op : UnaryOp} :
    (∀ n ∈ (unary op e place).nodes, P n) ↔ P (unary op e place) ∧ ∀ n ∈ e.nodes, P n :=
  List.forall_mem_cons

theorem forall_mem_nodes_assign {op : AssignOp} {target : Ident} :
    (∀ n ∈ (assign op target e place).nodes, P n) ↔
      P (assign op target e place) ∧ ∀ n ∈ e.nodes, P n :=
  List.forall_mem_cons

theorem forall_mem_nodes_binary {op : BinaryOp} :
    (∀ n ∈ (binary op l r place).nodes, P n) ↔
      P (binary op l r place) ∧ (∀ n ∈ l.nodes, P n) ∧ ∀ n ∈ r.nodes, P n := by
  rw [nodes, List.forall_mem_cons, List.forall_mem_append]

theorem forall_mem_nodes_index :
    (∀ n ∈ (index l r place).nodes, P n) ↔
      P (index l r place) ∧ (∀ n ∈ l.nodes, P n) ∧ ∀ n ∈ r.nodes, P n := by
  rw [nodes, List.forall_mem_cons, List.forall_mem_append]

theorem forall_mem_nodes_sequence :
    (∀ n ∈ (sequence items place).nodes, P n) ↔
      P (sequence items place) ∧ ∀ e ∈ items, ∀ n ∈ e.nodes, P n := by
  rw [nodes, List.forall_mem_cons, forall_mem_nodesAll]

theorem forall_mem_nodes_array :
    (∀ n ∈ (array items place).nodes, P n) ↔
      P (array items place) ∧ ∀ e ∈ items, ∀ n ∈ e.nodes, P n := by
  rw [nodes, List.forall_mem_cons, forall_mem_nodesAll]

end Everywhere

/-- The name that the outermost node reads, changes or assigns to. -/
def subject? : Expr → Option Ident
  | ident id | update _ _ id _ | assign _ id _ _ => some id
  | _ => none

/-- Whether the outermost node changes the variable that it names. -/
def writes : Expr → Bool
  | update .. | assign .. => true
  | _ => false

end Expr

/-- The bytes of a float or string literal. -/
def Literal.constant? : Literal → Option Datum
  | float value => some ⟨.float, Bytes.ofFloat value⟩
  | string value => some ⟨.string, Text.Utf8.encode value⟩
  | _ => none

/-- The bytes of a node that is a float or string literal. -/
def Expr.constantOf? : Expr → Option Datum
  | literal value _ => value.constant?
  | _ => none

namespace Statement

/-- The names that the statement declares. -/
def names : Statement → List String
  | expression _ => []
  | declaration d => d.names.map Ident.name

/-- The expression that the statement has evaluated. -/
def evaluated : Statement → List Expr
  | expression e => [e]
  | declaration d => d.initializer.toList

/-- The lengths in the declared type. -/
def lengths : Statement → List Expr
  | expression _ => []
  | declaration d => d.ty.lengths

/-- All the expressions in the statement, evaluated or not. -/
def expressions (stmt : Statement) : List Expr :=
  stmt.lengths ++ stmt.evaluated

end Statement

namespace Program

/-- All the expressions in the program, evaluated or not. -/
def expressions (p : Program) : List Expr :=
  p.flatMap Statement.expressions

/-- The names that the program declares, in order. -/
def names (p : Program) : List String :=
  p.flatMap Statement.names

/-- The expressions that the program evaluates and those inside them. -/
def nodes (p : Program) : List Expr :=
  (p.flatMap Statement.evaluated).flatMap Expr.nodes

/-- The float and string constants of the program. -/
def constants (p : Program) : List Datum :=
  p.nodes.filterMap Expr.constantOf?

@[simp] theorem names_cons (s : Statement) (p : Program) :
    names (s :: p) = s.names ++ names p :=
  List.flatMap_cons

@[simp] theorem nodes_cons (s : Statement) (p : Program) :
    nodes (s :: p) = s.evaluated.flatMap Expr.nodes ++ nodes p := by
  rw [nodes, List.flatMap_cons, List.flatMap_append]
  rfl

end Program

end StackCompiler
