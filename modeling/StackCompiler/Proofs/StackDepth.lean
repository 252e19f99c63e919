import StackCompiler.Proofs.Sessions

/-!
# The depth of the stack

`depth?` runs instructions on the number of values on the stack, and has no answer when an
instruction does not find the values it pops. What the code of an expression does to that number
can be read off the tree (`Expr.effect`, `Expr.hasEffect_lower`): updates and assignments leave
nothing, a sequence leaves the values of all its items. So code runs on an empty stack if every
operand leaves a value, and it may fail where the operand of an operator is an update
(`exists_compile_depth?_eq_none`).
-/

namespace StackCompiler

/-- What code does to the stack: it pops some of the values that were there before, and leaves
some of its own. -/
structure Effect where
  pops : Nat
  pushes : Nat
deriving DecidableEq

namespace Effect

/-- The number of values after the effect on a stack with `n` values. -/
def run (f : Effect) (n : Nat) : Option Nat :=
  if f.pops ≤ n then some (n - f.pops + f.pushes) else none

/-- One effect after another; the second one first pops what the first one left. -/
def andThen (f g : Effect) : Effect :=
  ⟨f.pops + (g.pops - f.pushes), f.pushes - g.pops + g.pushes⟩

theorem run_andThen (f g : Effect) (n : Nat) : (f.andThen g).run n = (f.run n).bind g.run := by
  unfold run andThen
  by_cases hf : f.pops ≤ n
  · rw [if_pos hf, Option.bind_some]
    by_cases hg : g.pops ≤ n - f.pops + f.pushes
    · rw [if_pos hg, if_pos (by dsimp only; omega)]
      congr 1
      dsimp only
      omega
    · rw [if_neg hg, if_neg (by dsimp only; omega)]
  · rw [if_neg hf, if_neg (by dsimp only; omega)]
    rfl

@[simp] theorem andThen_nothing (f : Effect) : f.andThen ⟨0, 0⟩ = f := by
  simp [andThen]

theorem isSome_run_zero (f : Effect) : (f.run 0).isSome ↔ f.pops = 0 := by
  unfold run
  split <;> simp <;> omega

end Effect

/-- What an instruction does to the stack. The size of an array and jumps have no fixed effect. -/
def Opcode.effect? : Opcode → Option Effect
  | loadImmediate8 | loadImmediate16 | loadImmediate32 | loadImmediate64
  | loadDouble | loadString | loadConstant | load _ => some ⟨0, 1⟩
  | store _ => some ⟨1, 0⟩
  | binary _ | loadElement => some ⟨2, 1⟩
  | not | bitNot => some ⟨1, 1⟩
  | loadArraySize | jump | jumpIfZero => none

/-- The number of values on the stack after instructions that start with `n` values, if each of
them finds what it pops. -/
def depth? (code : List Instruction) (n : Nat) : Option Nat :=
  code.foldlM (fun n i => i.opcode.effect?.bind (·.run n)) n

/-- The code has the effect on every stack. -/
def HasEffect (code : List Instruction) (f : Effect) : Prop :=
  ∀ n, depth? code n = f.run n

namespace HasEffect

theorem nil : HasEffect [] ⟨0, 0⟩ := fun _ => rfl

theorem single {i : Instruction} {f : Effect} (h : i.opcode.effect? = some f) :
    HasEffect [i] f := by
  intro n
  simp [depth?, h]

theorem append {code code' : List Instruction} {f g : Effect} (hf : HasEffect code f)
    (hg : HasEffect code' g) : HasEffect (code ++ code') (f.andThen g) := by
  intro n
  rw [depth?, List.foldlM_append, Effect.run_andThen, ← hf n]
  exact congrArg _ (funext hg)

theorem load (slot : Slot) (name : String) : HasEffect [slot.load name] ⟨0, 1⟩ :=
  single rfl

theorem store (slot : Slot) (name : String) : HasEffect [slot.store name] ⟨1, 0⟩ :=
  single rfl

theorem binary (op : BinaryOp) : HasEffect [⟨.binary op, [], none⟩] ⟨2, 1⟩ :=
  single rfl

theorem constant {i : Instruction} (h : i.opcode.loadsConstant) : HasEffect [i] ⟨0, 1⟩ := by
  refine single ?_
  cases hi : i.opcode <;> simp_all [Opcode.loadsConstant, Opcode.effect?]

theorem ofInteger (value : Int) (comment : Option String) :
    HasEffect [.ofInteger value comment] ⟨0, 1⟩ :=
  constant (Instruction.loadsConstant_ofInteger value comment)

end HasEffect

/-- What an operator does around the effect of its operand. -/
def UnaryOp.effect (op : UnaryOp) (f : Effect) : Effect :=
  match op with
  | not | bitNot => f.andThen ⟨1, 1⟩
  | negate => (Effect.andThen ⟨0, 1⟩ f).andThen ⟨2, 1⟩
  | plus => f

/-- What an assignment does around the effect of its value. -/
def AssignOp.effect (op : AssignOp) (f : Effect) : Effect :=
  match op with
  | plain => f.andThen ⟨1, 0⟩
  | compound _ => ((Effect.andThen ⟨0, 1⟩ f).andThen ⟨2, 1⟩).andThen ⟨1, 0⟩

theorem UnaryOp.hasEffect_around (op : UnaryOp) {code : List Instruction} {f : Effect}
    (h : HasEffect code f) : HasEffect (op.around.1 ++ code ++ op.around.2) (op.effect f) := by
  cases op with
  | not | bitNot => exact h.append (.single rfl)
  | negate => exact (HasEffect.append (.ofInteger 0 none) h).append (.binary .subtract)
  | plus =>
    rw [around, List.nil_append, List.append_nil]
    exact h

theorem AssignOp.hasEffect_assembled (op : AssignOp) (slot : Slot) (name : String)
    {code : List Instruction} {f : Effect} (h : HasEffect code f) :
    HasEffect (op.assembled slot name code) (op.effect f) := by
  cases op with
  | plain => exact h.append (.store slot name)
  | compound op =>
    rw [assembled, List.append_cons, ← List.singleton_append]
    exact ((HasEffect.append (.load slot name) h).append (.binary op)).append (.store slot name)

namespace Expr

/-- Whether the node is an array literal. -/
def isArray : Expr → Bool
  | array .. => true
  | _ => false

mutual

/-- What the code of an expression does to the stack. -/
def effect : Expr → Effect
  | literal .. | ident _ => ⟨0, 1⟩
  | binary _ left right _ | index left right _ => (left.effect.andThen right.effect).andThen ⟨2, 1⟩
  | unary op operand _ => op.effect operand.effect
  | update .. => ⟨0, 0⟩
  | assign op _ value _ => op.effect value.effect
  | sequence items _ | array items _ => effectAll items

/-- What the code of expressions, one after the other, does to the stack. -/
def effectAll : List Expr → Effect
  | [] => ⟨0, 0⟩
  | e :: es => e.effect.andThen (effectAll es)

end

mutual

/-- The effect of an expression without arrays is that of its code. -/
theorem hasEffect_lower {mode : ConstantMode} {e : Expr} {st st' : Lowering}
    {code : List Instruction} (ha : ∀ n ∈ e.nodes, ¬ n.isArray)
    (h : (e.lower mode).run st = .ok code st') : HasEffect code e.effect := by
  cases e with
  | literal value range =>
    obtain ⟨_, hi, rfl⟩ := lower_literal_eq_ok.1 h
    exact .constant (Literal.loadsConstant_lower hi)
  | ident id =>
    obtain ⟨slot, _, rfl, _⟩ := lower_ident_eq_ok.1 h
    exact .load slot id.name
  | update op leading target range =>
    obtain ⟨slot, _, _, rfl⟩ := lower_update_eq_ok.1 h
    exact (((HasEffect.load slot target.name).append (.ofInteger 1 none)).append
      (.binary op.binary)).append (.store slot target.name)
  | binary op l r range =>
    rw [nodes, List.forall_mem_cons, List.forall_mem_append] at ha
    obtain ⟨_, st₁, _, hl, hr, rfl⟩ := lower_binary_eq_ok.1 h
    exact ((hasEffect_lower ha.2.1 hl).append (hasEffect_lower ha.2.2 hr)).append (.binary op)
  | unary op e range =>
    rw [nodes, List.forall_mem_cons] at ha
    obtain ⟨_, he, rfl⟩ := lower_unary_eq_ok.1 h
    exact op.hasEffect_around (hasEffect_lower ha.2 he)
  | assign op target value range =>
    rw [nodes, List.forall_mem_cons] at ha
    obtain ⟨slot, _, _, hv, rfl⟩ := lower_assign_eq_ok.1 h
    exact op.hasEffect_assembled slot target.name (hasEffect_lower ha.2 hv)
  | sequence items range =>
    rw [nodes, List.forall_mem_cons] at ha
    rw [lower] at h
    exact hasEffect_lowerAll ha.2 h
  | array items range =>
    rw [nodes, List.forall_mem_cons] at ha
    exact absurd rfl ha.1
  | index base position range =>
    rw [nodes, List.forall_mem_cons, List.forall_mem_append] at ha
    obtain ⟨_, st₁, _, hb, hp, rfl⟩ := lower_index_eq_ok.1 h
    exact ((hasEffect_lower ha.2.1 hb).append (hasEffect_lower ha.2.2 hp)).append (.single rfl)

theorem hasEffect_lowerAll {mode : ConstantMode} {es : List Expr} {st st' : Lowering}
    {code : List Instruction} (ha : ∀ n ∈ nodesAll es, ¬ n.isArray)
    (h : (lowerAll mode es).run st = .ok code st') : HasEffect code (effectAll es) := by
  cases es with
  | nil =>
    cases h
    exact .nil
  | cons e es =>
    rw [nodesAll, List.forall_mem_append] at ha
    obtain ⟨_, st₁, _, he, hes, rfl⟩ := lowerAll_cons_eq_ok.1 h
    exact (hasEffect_lower ha.1 he).append (hasEffect_lowerAll ha.2 hes)

end

mutual

/-- Whether the expression leaves a value. Updates and assignments leave none, and a sequence
leaves those of its items. -/
def leavesValue : Expr → Bool
  | literal .. | ident _ | binary .. | index .. => true
  | unary op operand _ => op ≠ .plus || operand.leavesValue
  | update .. | assign .. => false
  | sequence items _ | array items _ => anyLeavesValue items

/-- Whether one of the expressions leaves a value. -/
def anyLeavesValue : List Expr → Bool
  | [] => false
  | e :: es => e.leavesValue || anyLeavesValue es

end

/-- The parts of a node whose values it pops. The sign `+` leaves its operand alone. -/
def operands : Expr → List Expr
  | binary _ left right _ | index left right _ => [left, right]
  | unary op operand _ => if op = .plus then [] else [operand]
  | assign _ _ value _ => [value]
  | _ => []

mutual

/-- An expression whose operands leave values pops nothing that it did not push. -/
theorem effect_of_operands {e : Expr} (h : ∀ n ∈ e.nodes, ∀ o ∈ n.operands, o.leavesValue) :
    e.effect.pops = 0 ∧ (e.leavesValue → 0 < e.effect.pushes) := by
  cases e with
  | literal _ _ | ident _ => exact ⟨rfl, fun _ => Nat.one_pos⟩
  | update _ _ _ _ => exact ⟨rfl, nofun⟩
  | binary op l r range | index l r range =>
    simp only [nodes, operands, List.forall_mem_cons, List.forall_mem_append] at h
    obtain ⟨⟨hl, hr, _⟩, hnl, hnr⟩ := h
    obtain ⟨hl₀, hl₁⟩ := effect_of_operands hnl
    obtain ⟨hr₀, hr₁⟩ := effect_of_operands hnr
    -- Each operand pops nothing of the other's and leaves a value, so there are two to pop.
    have := hl₁ hl
    have := hr₁ hr
    simp only [effect, Effect.andThen]
    omega
  | unary op e range =>
    simp only [nodes, operands, List.forall_mem_cons] at h
    obtain ⟨ho, hn⟩ := h
    obtain ⟨h₀, h₁⟩ := effect_of_operands hn
    cases op with
    | plus => simpa [effect, UnaryOp.effect, leavesValue] using ⟨h₀, h₁⟩
    | not | bitNot | negate =>
      have := h₁ (ho e (List.mem_singleton_self e))
      simp only [effect, UnaryOp.effect, Effect.andThen]
      omega
  | assign op target value range =>
    simp only [nodes, operands, List.forall_mem_cons] at h
    obtain ⟨⟨hv, _⟩, hn⟩ := h
    obtain ⟨h₀, h₁⟩ := effect_of_operands hn
    have := h₁ hv
    refine ⟨?_, nofun⟩
    cases op <;>
    · simp only [effect, AssignOp.effect, Effect.andThen]
      omega
  | sequence items range | array items range =>
    rw [nodes, List.forall_mem_cons] at h
    exact effectAll_of_operands h.2

theorem effectAll_of_operands {es : List Expr}
    (h : ∀ n ∈ nodesAll es, ∀ o ∈ n.operands, o.leavesValue) :
    (effectAll es).pops = 0 ∧ (anyLeavesValue es → 0 < (effectAll es).pushes) := by
  cases es with
  | nil => exact ⟨rfl, nofun⟩
  | cons e es =>
    rw [nodesAll, List.forall_mem_append] at h
    obtain ⟨he₀, he₁⟩ := effect_of_operands h.1
    obtain ⟨hes₀, hes₁⟩ := effectAll_of_operands h.2
    simp only [effectAll, Effect.andThen, anyLeavesValue, Bool.or_eq_true]
    refine ⟨by omega, ?_⟩
    rintro (h | h)
    · have := he₁ h
      omega
    · have := hes₁ h
      omega

end

end Expr

/-- Copying the value of one name to others leaves the stack as it was. -/
theorem hasEffect_copies (first : String × Slot) (others : List (String × Slot)) :
    HasEffect (copies first others) ⟨0, 0⟩ := by
  induction others with
  | nil => exact .nil
  | cons other others ih =>
    exact ((HasEffect.load first.2 first.1).append (.store other.2 other.1)).append ih

namespace Statement

/-- What the code of a statement does to the stack. An initial value is stored away. -/
def effect : Statement → Effect
  | expression e => e.effect
  | declaration d =>
    match d.initializer, d.names with
    | some e, _ :: _ => e.effect.andThen ⟨1, 0⟩
    | _, _ => ⟨0, 0⟩

/-- The initial value of a declaration, which is popped. -/
def initial : Statement → List Expr
  | expression _ => []
  | declaration d => d.initializer.toList

theorem hasEffect_lower {mode : ConstantMode} {stmt : Statement} {st st' : Lowering}
    {code : List Instruction} (ha : ∀ n ∈ stmt.evaluated.flatMap Expr.nodes, ¬ n.isArray)
    (h : (stmt.lower mode).run st = .ok code st') : HasEffect code stmt.effect := by
  cases stmt with
  | expression e =>
    rw [evaluated, List.flatMap_singleton] at ha
    exact Expr.hasEffect_lower ha h
  | declaration d =>
    obtain ⟨slots, st₁, hs, ⟨e, first, others, ce, he, hz, hl, rfl⟩ | ⟨hd, rfl, _⟩⟩ :=
      Declaration.lower_eq_ok.1 h
    · cases hn : d.names with
      | nil =>
        rw [hn] at hz
        cases hz
      | cons id ids =>
        simp only [effect, he, hn]
        rw [evaluated, he, Option.toList_some, List.flatMap_singleton] at ha
        rw [List.append_cons, ← Effect.andThen_nothing (e.effect.andThen _)]
        exact ((Expr.hasEffect_lower ha hl).append (.store first.2 first.1)).append
          (hasEffect_copies first others)
    · have he : (declaration d).effect = ⟨0, 0⟩ := by
        rcases hd with hd | hd <;> simp [effect, hd]
      rw [he]
      exact .nil

theorem effect_of_operands {stmt : Statement}
    (h : ∀ n ∈ stmt.evaluated.flatMap Expr.nodes, ∀ o ∈ n.operands, o.leavesValue)
    (hi : ∀ e ∈ stmt.initial, e.leavesValue) : stmt.effect.pops = 0 := by
  cases stmt with
  | expression e =>
    rw [evaluated, List.flatMap_singleton] at h
    exact (Expr.effect_of_operands h).1
  | declaration d =>
    rw [effect]
    split
    · rename_i e _ _ he _
      rw [evaluated, he, Option.toList_some, List.flatMap_singleton] at h
      rw [initial, he, Option.toList_some, List.forall_mem_singleton] at hi
      obtain ⟨h₀, h₁⟩ := Expr.effect_of_operands h
      have := h₁ hi
      simp only [Effect.andThen]
      omega
    · rfl

end Statement

namespace Program

/-- What the code of a program does to the stack. -/
def effect : Program → Effect
  | [] => ⟨0, 0⟩
  | stmt :: p => stmt.effect.andThen (effect p)

/-- The expressions of a program whose values are popped. -/
def operands (p : Program) : List Expr :=
  p.nodes.flatMap Expr.operands ++ p.flatMap Statement.initial

theorem hasEffect_lower {mode : ConstantMode} {p : Program} {st st' : Lowering}
    {code : List Instruction} (ha : ∀ n ∈ p.nodes, ¬ n.isArray)
    (h : (p.lower mode).run st = .ok code st') : HasEffect code p.effect := by
  induction p generalizing st code with
  | nil =>
    cases h
    exact .nil
  | cons stmt p ih =>
    rw [nodes_cons, List.forall_mem_append] at ha
    obtain ⟨_, st₁, _, hs, hp, rfl⟩ := lower_cons_eq_ok.1 h
    exact (Statement.hasEffect_lower ha.1 hs).append (ih ha.2 hp)

theorem effect_of_operands {p : Program} (h : ∀ e ∈ p.operands, e.leavesValue) :
    p.effect.pops = 0 := by
  rw [operands, List.forall_mem_append] at h
  obtain ⟨hn, hi⟩ := h
  induction p with
  | nil => rfl
  | cons stmt p ih =>
    rw [nodes_cons, List.flatMap_append, List.forall_mem_append] at hn
    rw [List.flatMap_cons, List.forall_mem_append] at hi
    have hs := Statement.effect_of_operands
      (fun n hmem o ho => hn.1 o (List.mem_flatMap.2 ⟨n, hmem, ho⟩)) hi.1
    have hp := ih hn.2 hi.2
    simp only [effect, Effect.andThen]
    omega

end Program

/-- The code of a unit without arrays runs on an empty stack exactly if the effect of its program
pops nothing. That is so if every operand leaves a value. -/
theorem depth?_compile {options : Options} {source : String} {c : Compilation}
    (h : compile options source = .ok c) (ha : ∀ n ∈ c.program.nodes, ¬ n.isArray) :
    ((depth? c.bytecode.code 0).isSome ↔ c.program.effect.pops = 0) ∧
      ((∀ e ∈ c.program.operands, e.leavesValue) →
        depth? c.bytecode.code 0 = some c.program.effect.pushes) := by
  obtain ⟨p, s, hp⟩ := Session.exists_compileProgram h
  obtain ⟨_, code, st, _, hl, rfl, _⟩ := Session.compileProgram_eq_ok hp
  have heff := Program.hasEffect_lower ha hl 0
  rw [heff]
  refine ⟨Effect.isSome_run_zero _, fun hv => ?_⟩
  rw [Effect.run, Program.effect_of_operands hv]
  simp

theorem depth?_compile_product :
    ∃ c, compile {} "mut i: int = 3; i += 2; i * -i;" = .ok c ∧
      (∀ n ∈ c.program.nodes, ¬ n.isArray) ∧ (∀ e ∈ c.program.operands, e.leavesValue) ∧
      depth? c.bytecode.code 0 = some 1 := by
  have hrun : (compile {} "mut i: int = 3; i += 2; i * -i;").map (fun c =>
      (c.program.nodes.all (!·.isArray), c.program.operands.all (·.leavesValue),
        c.program.effect.pushes)) = .ok (true, true, 1) := by
    decide +kernel
  obtain ⟨c, hc, hrun⟩ := map_eq_ok.1 hrun
  simp only [Prod.mk.injEq, List.all_eq_true] at hrun
  obtain ⟨ha, hv, hn⟩ := hrun
  have ha : ∀ n ∈ c.program.nodes, ¬ n.isArray := by simpa using ha
  refine ⟨c, hc, ha, hv, ?_⟩
  rw [(depth?_compile hc ha).2 hv, hn]

/-- The value of an update is not there for an operator to pop. -/
theorem exists_compile_depth?_eq_none :
    ∃ c, compile {} "mut x: int = 1; x++ + 1;" = .ok c ∧
      (∀ n ∈ c.program.nodes, ¬ n.isArray) ∧ depth? c.bytecode.code 0 = none := by
  have hrun : (compile {} "mut x: int = 1; x++ + 1;").map (fun c =>
      (c.program.nodes.all (!·.isArray), depth? c.bytecode.code 0)) = .ok (true, none) := by
    decide +kernel
  obtain ⟨c, hc, hrun⟩ := map_eq_ok.1 hrun
  rw [Prod.mk.injEq] at hrun
  exact ⟨c, hc, by simpa using hrun.1, hrun.2⟩

end StackCompiler
