import Mathlib.Logic.Function.Basic
import StackCompiler.Proofs.Accesses

/-!
# What code computes

A machine with a stack of values and a numbered cell for each variable runs instructions
(`Instruction.step`, `run`); what the values are and what operators do with them is left open
(`Interpretation`). The value of an expression is computed on the tree (`Expr.value?`), and so is
what a statement does to the variables (`Statement.outcome?`). The code computes the same
(`Statement.lower_ends_executes`), whatever the interpretation.
-/

namespace StackCompiler

/-- Values, and what the instructions do with them. An integer has 64 bits, a float is known by
its bits, and a string by its bytes. -/
structure Interpretation (V : Type) where
  integer : Int → V
  float : UInt64 → V
  string : List UInt8 → V
  binary : BinaryOp → V → V → V
  element : V → V → V
  not : V → V
  bitNot : V → V

/-- A machine between two instructions: the values on the stack, the last one first, and those
of the variables. -/
structure Machine (V : Type) where
  stack : List V
  cells : Nat → V

section Execution

variable {V : Type} (I : Interpretation V)

/-- The value of a float or string in the pool. -/
def Datum.value (d : Datum) : V :=
  match d.tag with
  | .float => I.float (Bytes.toNat d.bytes).toUInt64
  | .string => I.string d.bytes

namespace Machine

/-- The machine with one more value on the stack. -/
def push (m : Machine V) (v : V) : Machine V :=
  { m with stack := v :: m.stack }

/-- The last value replaced by one that depends on it. -/
def replace (f : V → V) (m : Machine V) : Option (Machine V) :=
  match m.stack with
  | v :: vs => some { m with stack := f v :: vs }
  | [] => none

/-- The last two values replaced by one that depends on them. -/
def combine (f : V → V → V) (m : Machine V) : Option (Machine V) :=
  match m.stack with
  | r :: l :: vs => some { m with stack := f l r :: vs }
  | _ => none

/-- The last value moved to a cell. -/
def pop (k : Nat) (m : Machine V) : Option (Machine V) :=
  match m.stack with
  | v :: vs => some ⟨vs, Function.update m.cells k v⟩
  | [] => none

end Machine

/-- The machine after an instruction, if the instruction finds what it needs. Arrays and jumps are
left out. -/
def Instruction.step (pool : ConstantPool) (m : Machine V) (i : Instruction) :
    Option (Machine V) :=
  match i.opcode with
  | .loadImmediate8 | .loadImmediate16 | .loadImmediate32 | .loadImmediate64 =>
    some (m.push (I.integer (Bytes.toInt i.operands)))
  | .loadDouble => some (m.push (I.float (Bytes.toNat i.operands).toUInt64))
  | .loadString => some (m.push (I.string i.operands.dropLast))
  | .loadConstant => (pool.get? (Bytes.toNat i.operands)).map fun c => m.push (c.value I)
  | .load _ => some (m.push (m.cells (Bytes.toNat i.operands)))
  | .store _ => m.pop (Bytes.toNat i.operands)
  | .binary op => m.combine (I.binary op)
  | .loadElement => m.combine I.element
  | .not => m.replace I.not
  | .bitNot => m.replace I.bitNot
  | .loadArraySize | .jump | .jumpIfZero => none

/-- The machine after instructions. -/
def run (pool : ConstantPool) (code : List Instruction) (m : Machine V) : Option (Machine V) :=
  code.foldlM (Instruction.step I pool) m

/-- The value of a literal. Integers are reduced to 64 bits, a character is its code point, and
null is zero. -/
def Literal.value : Literal → V
  | integer value => I.integer (Int.bmod value (1 <<< 64))
  | char value => I.integer value.toNat
  | null => I.integer 0
  | float value => I.float value.toBits
  | string value => I.string (Text.Utf8.encode value)

/-- The value of an operator on the value of its operand. -/
def UnaryOp.value (op : UnaryOp) (v : V) : V :=
  match op with
  | not => I.not v
  | bitNot => I.bitNot v
  | negate => I.binary .subtract (I.integer 0) v
  | plus => v

/-- The value that an assignment stores where the variable was `old`. -/
def AssignOp.value (op : AssignOp) (old v : V) : V :=
  match op with
  | plain => v
  | compound op => I.binary op old v

/-- The value of an expression of literals, names, operators and accesses to elements, when the
variables have the values `ρ`. -/
def Expr.value? (ρ : String → V) : Expr → Option V
  | literal value _ => some (value.value I)
  | ident id => some (ρ id.name)
  | binary op left right _ => do
    let l ← left.value? ρ
    let r ← right.value? ρ
    pure (I.binary op l r)
  | unary op operand _ => (operand.value? ρ).map (op.value I)
  | index base position _ => do
    let b ← base.value? ρ
    let p ← position.value? ρ
    pure (I.element b p)
  | update .. | assign .. | sequence .. | array .. => none

/-- What a statement over such expressions leaves on the stack, and the values of the variables
after it. -/
def Statement.outcome? (ρ : String → V) : Statement → Option (List V × (String → V))
  | expression (.assign op target value _) =>
    (value.value? I ρ).map fun v =>
      ([], Function.update ρ target.name (op.value I (ρ target.name) v))
  | expression (.update op _ target _) =>
    some ([], Function.update ρ target.name (I.binary op.binary (ρ target.name) (I.integer 1)))
  | expression e => (e.value? I ρ).map fun v => ([v], ρ)
  | declaration d =>
    match d.initializer, d.names with
    | some e, _ :: _ =>
      (e.value? I ρ).map fun v => ([], fun x => if x ∈ d.names.map Ident.name then v else ρ x)
    | some _, [] => none
    | none, _ => some ([], ρ)

end Execution

/-- The expression that a statement has evaluated before it stores or leaves the value. -/
def Statement.operand? : Statement → Option Expr
  | expression (.assign _ _ value _) => some value
  | expression (.update ..) => none
  | expression e => some e
  | declaration d => d.initializer

/-- The names in a statement. -/
def Statement.subjects (stmt : Statement) : List String :=
  stmt.names ++ ((stmt.evaluated.flatMap Expr.nodes).filterMap Expr.subject?).map Ident.name

/-- Different names have slots with different numbers, which two bytes hold. -/
structure SlotTable.Distinct (table : SlotTable) : Prop where
  index_lt : ∀ {x slot}, table.get? x = some slot → slot.index < capacity
  eq_of_index : ∀ {x y slot slot'}, table.get? x = some slot → table.get? y = some slot' →
    slot.index = slot'.index → x = y

/-- The cells of the variables hold their values. -/
def SlotTable.Holds {V : Type} (table : SlotTable) (ρ : String → V) (cells : Nat → V) : Prop :=
  ∀ x slot, table.get? x = some slot → cells slot.index = ρ x

theorem Bytes.toInt_ofInt (width : Nat) (n : Int) :
    toInt (ofInt width n) = n.bmod (1 <<< (8 * width)) := by
  have hpos : 0 < 1 <<< (8 * width) := by
    rw [Nat.shiftLeft_eq, Nat.one_mul]
    exact Nat.two_pow_pos _
  have hnonneg := Int.emod_nonneg n (Int.natCast_ne_zero.2 hpos.ne')
  have hlt := Int.emod_lt_of_pos n (Int.natCast_pos.2 hpos)
  rw [toInt, length_ofInt, ofInt, toNat_ofNat (by omega), Int.toNat_of_nonneg hnonneg,
    Int.emod_bmod]

/-- An immediate operand is the value reduced to 64 bits. -/
theorem Instruction.toInt_immediate (value : Int) :
    Bytes.toInt (immediate value).2 = value.bmod (1 <<< 64) := by
  -- What fewer bits hold is not changed by a reduction to more of them.
  have hfit : ∀ bits, bits = 8 ∨ bits = 16 ∨ bits = 32 → Number.FitsSigned bits value →
      value.bmod (1 <<< bits) = value.bmod (1 <<< 64) := by
    rintro _ (rfl | rfl | rfl) ⟨hl, hr⟩ <;>
    · simp only [Nat.one_shiftLeft, Nat.reduceSub, Nat.reducePow] at hl hr ⊢
      rw [Int.bmod_eq_of_le (by omega) (by omega), Int.bmod_eq_of_le (by omega) (by omega)]
  rw [immediate]
  split_ifs with h8 h16 h32 <;> rw [Bytes.toInt_ofInt]
  · exact hfit 8 (by decide) h8
  · exact hfit 16 (by decide) h16
  · exact hfit 32 (by decide) h32

section Execution

variable {V : Type} {I : Interpretation V} {pool : ConstantPool}

@[simp] theorem run_nil (m : Machine V) : run I pool [] m = some m :=
  rfl

theorem run_append (code code' : List Instruction) (m : Machine V) :
    run I pool (code ++ code') m = (run I pool code m).bind (run I pool code') :=
  List.foldlM_append

theorem run_cons (i : Instruction) (code : List Instruction) (m : Machine V) :
    run I pool (i :: code) m = (i.step I pool m).bind (run I pool code) :=
  List.foldlM_cons

namespace Instruction

@[simp] theorem step_ofInteger (value : Int) (comment : Option String) (m : Machine V) :
    (ofInteger value comment).step I pool m =
      some (m.push (I.integer (value.bmod (1 <<< 64)))) := by
  have hop : (immediate value).1 ∈
      [Opcode.loadImmediate8, .loadImmediate16, .loadImmediate32, .loadImmediate64] := by
    rw [immediate]
    split_ifs <;> simp
  have hstep : (ofInteger value comment).step I pool m =
      some (m.push (I.integer (Bytes.toInt (immediate value).2))) := by
    rw [ofInteger]
    simp only [List.mem_cons, List.not_mem_nil, or_false] at hop
    rcases hop with hop | hop | hop | hop <;> rw [hop] <;> rfl
  rw [hstep, toInt_immediate]

@[simp] theorem step_binary (op : BinaryOp) (m : Machine V) :
    step I pool m ⟨.binary op, [], none⟩ = m.combine (I.binary op) :=
  rfl

end Instruction

theorem SlotTable.Holds.step_load {table : SlotTable} {ρ : String → V} {m : Machine V}
    (hT : table.Distinct) (hρ : table.Holds ρ m.cells) {x : String} {slot : Slot}
    (hx : table.get? x = some slot) (name : String) :
    (slot.load name).step I pool m = some (m.push (ρ x)) := by
  have hk : Bytes.toNat (slot.load name).operands = slot.index := Slot.operand_eq (hT.index_lt hx)
  rw [← hρ x slot hx, ← hk]
  rfl

theorem SlotTable.Distinct.step_store {table : SlotTable} (hT : table.Distinct) {x : String}
    {slot : Slot} (hx : table.get? x = some slot) (name : String) (m : Machine V) :
    (slot.store name).step I pool m = m.pop slot.index := by
  have hk : Bytes.toNat (slot.store name).operands = slot.index := Slot.operand_eq (hT.index_lt hx)
  rw [← hk]
  rfl

/-- A value stored in the cell of a variable is the value of that variable only. -/
theorem SlotTable.Holds.update {table : SlotTable} {ρ : String → V} {cells : Nat → V}
    (hT : table.Distinct) (hρ : table.Holds ρ cells) {x : String} {slot : Slot}
    (hx : table.get? x = some slot) (v : V) :
    table.Holds (Function.update ρ x v) (Function.update cells slot.index v) := by
  intro y slot' hy
  by_cases hxy : y = x
  · subst hxy
    rw [hx] at hy
    cases hy
    rw [Function.update_self, Function.update_self]
  · have hk : slot'.index ≠ slot.index := fun hk => hxy (hT.eq_of_index hy hx hk)
    rw [Function.update_of_ne hk, Function.update_of_ne hxy, hρ y slot' hy]

/-- Code that computes a value: it leaves the value on the stack and everything else as it was,
with every pool that has the entries added until then. -/
structure Evaluates (I : Interpretation V) (ρ : String → V) (v : V) (st : Lowering)
    (code : List Instruction) (st' : Lowering) : Prop where
  slots_eq : st'.slots = st.slots
  entries_prefix : st.pool.entries <+: st'.pool.entries
  numbered : st'.pool.Numbered
  run_eq : ∀ {pool : ConstantPool} {cells : Nat → V} (stack : List V),
    st'.pool.entries <+: pool.entries → st.slots.Holds ρ cells →
    run I pool code ⟨stack, cells⟩ = some ⟨v :: stack, cells⟩

/-- The one thing that lowering expressions with a value and with slots runs into. -/
def PoolOverflow (mode : ConstantMode) (d : Defect) : Prop :=
  mode = .pooled ∧ d = .poolFull

section Lowering

variable {mode : ConstantMode} {st : Lowering} {ρ : String → V}

/-- An interned float or string has the number that its entry is found by. -/
theorem Lower.intern_ends (d : Datum) (hnum : st.pool.Numbered) :
    Lower.Ends (fun index st' => st'.slots = st.slots ∧
        st.pool.entries <+: st'.pool.entries ∧ st'.pool.Numbered ∧
        st'.pool.get? index = some ⟨d, index⟩)
      (PoolOverflow .pooled) ((Lower.intern d).run st) := by
  rw [EStateM.run, Lower.intern]
  have hnumbered := hnum.intern d
  rcases st.pool.intern_cases d with ⟨c, _, _, hi⟩ | ⟨_, ⟨_, hi⟩ | ⟨_, hi⟩⟩ <;>
    rw [hi] at hnumbered ⊢
  · exact .ok ⟨rfl, List.prefix_rfl, hnumbered, hnum.get?_intern hi⟩
  · exact .ok ⟨rfl, List.prefix_append _ _, hnumbered, hnum.get?_intern hi⟩
  · exact .error ⟨rfl, rfl⟩

/-- What stands in the instruction and what stands in the pool have the same value. -/
theorem Datum.lower_ends_evaluates (d : Datum) (comment : String) (hnum : st.pool.Numbered) :
    Lower.Ends (fun i => Evaluates I ρ (d.value I) st [i]) (PoolOverflow mode)
      ((d.lower mode comment).run st) := by
  cases mode with
  | inline =>
    refine .ok ⟨rfl, List.prefix_rfl, hnum, fun {pool cells} stack _ _ => ?_⟩
    obtain ⟨_ | _, bytes⟩ := d
    · rfl
    · have hbytes : (bytes ++ [0]).dropLast = bytes := List.dropLast_concat
      rw [run_cons, Datum.value]
      simp only [inlineOperands, ConstantTag.inlineOpcode, Instruction.step, hbytes]
      rfl
  | pooled =>
    refine Lower.Ends.bind (Lower.intern_ends d hnum) fun index st' _ h => ?_
    obtain ⟨hslots, hprefix, hnum', hget⟩ := h
    refine .ok ⟨hslots, hprefix, hnum', fun {pool cells} stack hpool _ => ?_⟩
    have hindex : Bytes.toNat (Bytes.ofNat 2 index) = index :=
      Bytes.toNat_ofNat (Nat.lt_of_lt_of_le (List.getElem?_eq_some_iff.1 hget).1 hnum'.small)
    have hentry : pool.get? index = some ⟨d, index⟩ := by
      obtain ⟨more, hmore⟩ := hpool
      rw [ConstantPool.get?] at hget
      rw [ConstantPool.get?, ← hmore,
        List.getElem?_append_left (List.getElem?_eq_some_iff.1 hget).1, hget]
    rw [run_cons]
    simp only [Instruction.step, hindex, hentry]
    rfl

theorem Literal.lower_ends_evaluates (value : Literal) (hnum : st.pool.Numbered) :
    Lower.Ends (fun i => Evaluates I ρ (value.value I) st [i]) (PoolOverflow mode)
      ((value.lower mode).run st) := by
  have hinteger : ∀ (n : Int) (comment : Option String),
      Evaluates I ρ (I.integer (n.bmod (1 <<< 64))) st [.ofInteger n comment] st := by
    intro n comment
    refine ⟨rfl, List.prefix_rfl, hnum, fun {pool cells} stack _ _ => ?_⟩
    rw [run_cons, Instruction.step_ofInteger]
    rfl
  cases value with
  | integer value => exact .ok (hinteger value _)
  | null => exact .ok (hinteger 0 _)
  | char value =>
    have hvalue : (value.toNat : Int).bmod (1 <<< 64) = value.toNat := by
      have hlt : value.toNat < 2 ^ 32 := value.val.toNat_lt
      rw [Nat.one_shiftLeft]
      exact Int.bmod_eq_of_le (by omega) (by omega)
    have h := hinteger value.toNat (some s!"'{value}'")
    rw [hvalue] at h
    exact .ok h
  | float value =>
    have hvalue : Datum.value I ⟨.float, Bytes.ofFloat value⟩ =
        Literal.value I (.float value) := by
      rw [Datum.value, Literal.value]
      dsimp only
      rw [Bytes.ofFloat, Bytes.toNat_ofNat value.toBits.toNat_lt]
      exact congrArg I.float UInt64.ofNat_toNat
    rw [← hvalue]
    exact Datum.lower_ends_evaluates _ _ hnum
  | string value => exact Datum.lower_ends_evaluates ⟨.string, _⟩ _ hnum

namespace Evaluates

variable {st₁ st₂ : Lowering} {v w : V} {code code' : List Instruction}

/-- The values of two operands are combined by an instruction that follows them. -/
theorem combine {f : V → V → V} {i : Instruction} (hv : Evaluates I ρ v st code st₁)
    (hw : Evaluates I ρ w st₁ code' st₂) (hi : ∀ pool m, i.step I pool m = m.combine f) :
    Evaluates I ρ (f v w) st (code ++ code' ++ [i]) st₂ where
  slots_eq := hw.slots_eq.trans hv.slots_eq
  entries_prefix := hv.entries_prefix.trans hw.entries_prefix
  numbered := hw.numbered
  run_eq stack hpool hρ := by
    rw [run_append, run_append, hv.run_eq stack (hw.entries_prefix.trans hpool) hρ,
      Option.bind_some, hw.run_eq _ hpool (hv.slots_eq ▸ hρ), Option.bind_some, run_cons, hi]
    rfl

/-- The value of an operand is changed by the instructions of the operator around it. -/
theorem around (op : UnaryOp) (hv : Evaluates I ρ v st code st₁) :
    Evaluates I ρ (op.value I v) st (op.around.1 ++ code ++ op.around.2) st₁ where
  slots_eq := hv.slots_eq
  entries_prefix := hv.entries_prefix
  numbered := hv.numbered
  run_eq stack hpool hρ := by
    cases op with
    | not | bitNot =>
      rw [run_append, UnaryOp.around, List.nil_append, hv.run_eq stack hpool hρ]
      rfl
    | plus =>
      rw [UnaryOp.around, List.nil_append, List.append_nil, hv.run_eq stack hpool hρ]
      rfl
    | negate =>
      rw [run_append, UnaryOp.around, List.singleton_append, run_cons, Instruction.step_ofInteger,
        Option.bind_some, Machine.push, hv.run_eq _ hpool hρ]
      rfl

end Evaluates

theorem Lower.Ends.bind_of_ok {α β : Type} {Q : β → Lowering → Prop} {D : Defect → Prop}
    {x : Lower α} {f : α → Lower β} {a : α} {st' : Lowering} (hx : x.run st = .ok a st')
    (hf : Ends Q D ((f a).run st')) : Ends Q D ((x >>= f).run st) := by
  rw [EStateM.run_bind, hx]
  exact hf

/-- The code of an expression computes its value. -/
theorem Expr.lower_ends_evaluates {e : Expr} {st : Lowering} {v : V} (hT : st.slots.Distinct)
    (hnum : st.pool.Numbered)
    (hs : ∀ n ∈ e.nodes, ∀ id, n.subject? = some id → (st.slots.get? id.name).isSome)
    (hv : e.value? I ρ = some v) :
    Lower.Ends (Evaluates I ρ v st) (PoolOverflow mode) ((e.lower mode).run st) := by
  cases e with
  | literal value range =>
    cases hv
    exact Lower.Ends.bind (Literal.lower_ends_evaluates value hnum) fun _ _ _ h => .ok h
  | ident id =>
    cases hv
    obtain ⟨slot, hx⟩ := Option.isSome_iff_exists.1 (hs _ List.mem_cons_self id rfl)
    rw [Expr.lower_ident_eq_ok.2 ⟨slot, hx, rfl, rfl⟩]
    refine .ok ⟨rfl, List.prefix_rfl, hnum, fun stack _ hρ => ?_⟩
    rw [run_cons, hρ.step_load hT hx]
    rfl
  | binary op l r range =>
    rw [nodes, List.forall_mem_cons, List.forall_mem_append] at hs
    obtain ⟨vl, hvl, hv⟩ := Option.bind_eq_some_iff.1 hv
    obtain ⟨vr, hvr, hv⟩ := Option.bind_eq_some_iff.1 hv
    cases hv
    refine Lower.Ends.bind (lower_ends_evaluates hT hnum hs.2.1 hvl) fun cl st₁ _ hl => ?_
    rw [← hl.slots_eq] at hT hs
    exact Lower.Ends.bind (lower_ends_evaluates hT hl.numbered hs.2.2 hvr) fun cr st₂ _ hr =>
      .ok (hl.combine hr fun _ _ => rfl)
  | unary op e range =>
    rw [nodes, List.forall_mem_cons] at hs
    obtain ⟨ve, hve, rfl⟩ := Option.map_eq_some_iff.1 hv
    exact Lower.Ends.bind (lower_ends_evaluates hT hnum hs.2 hve) fun ce st₁ _ he =>
      .ok (he.around op)
  | index base position range =>
    rw [nodes, List.forall_mem_cons, List.forall_mem_append] at hs
    obtain ⟨vb, hvb, hv⟩ := Option.bind_eq_some_iff.1 hv
    obtain ⟨vp, hvp, hv⟩ := Option.bind_eq_some_iff.1 hv
    cases hv
    refine Lower.Ends.bind (lower_ends_evaluates hT hnum hs.2.1 hvb) fun cb st₁ _ hb => ?_
    rw [← hb.slots_eq] at hT hs
    exact Lower.Ends.bind (lower_ends_evaluates hT hb.numbered hs.2.2 hvp) fun cp st₂ _ hp =>
      .ok (hb.combine hp fun _ _ => rfl)
  | update _ _ _ _ | assign _ _ _ _ | sequence _ _ | array _ _ => cases hv

/-- The cells that differ are those of variables whose values differ. -/
def SlotTable.Changes (table : SlotTable) (ρ ρ' : String → V) (cells cells' : Nat → V) : Prop :=
  ∀ k, cells' k ≠ cells k → ∃ x slot, table.get? x = some slot ∧ slot.index = k ∧ ρ' x ≠ ρ x

/-- What the code of a statement does: it evaluates the operand of the statement once, has besides
only loads, stores and operators, leaves the values `vs` on the stack, and gives the variables the
values `ρ'`. -/
structure Statement.Executes (I : Interpretation V) (mode : ConstantMode) (stmt : Statement)
    (ρ : String → V) (vs : List V) (ρ' : String → V) (st : Lowering) (code : List Instruction)
    (st' : Lowering) : Prop where
  slots_eq : st'.slots = st.slots
  numbered : st'.pool.Numbered
  once : ∀ e, stmt.operand? = some e → ∃ before ce after,
    (e.lower mode).run st = .ok ce st' ∧ code = before ++ ce ++ after ∧
      ∀ i ∈ before ++ after, i.access?.isSome ∨ ∃ op, i.opcode = .binary op
  run_eq : ∀ {pool : ConstantPool} {cells : Nat → V} (stack : List V),
    st'.pool.entries <+: pool.entries → st.slots.Holds ρ cells →
    ∃ cells', run I pool code ⟨stack, cells⟩ = some ⟨vs ++ stack, cells'⟩ ∧
      st.slots.Holds ρ' cells' ∧ st.slots.Changes ρ ρ' cells cells'

section Stores

variable {table : SlotTable} {cells cells' : Nat → V} {ρ' : String → V}

/-- Where the cells hold the values, those that differ are known from their variables. -/
theorem SlotTable.Holds.changes (hρ : table.Holds ρ cells) (hρ' : table.Holds ρ' cells')
    (hk : ∀ k, cells' k ≠ cells k → ∃ x slot, table.get? x = some slot ∧ slot.index = k) :
    table.Changes ρ ρ' cells cells' := by
  intro k hne
  obtain ⟨x, slot, hx, rfl⟩ := hk k hne
  rw [hρ x slot hx, hρ' x slot hx] at hne
  exact ⟨x, slot, hx, rfl, hne⟩

theorem index_eq_of_update_ne {cells : Nat → V} {j k : Nat} {v : V}
    (h : Function.update cells j v k ≠ cells k) : j = k := by
  by_contra hne
  exact h (Function.update_of_ne (Ne.symm hne) v cells)

/-- The value of the first variable is copied to the others. -/
theorem run_copies (I : Interpretation V) (pool : ConstantPool) {first : String × Slot}
    {others : List (String × Slot)} {v : V} (hT : table.Distinct)
    (hfirst : table.get? first.1 = some first.2)
    (hothers : ∀ q ∈ others, table.get? q.1 = some q.2) (hρ : table.Holds ρ cells)
    (hv : ρ first.1 = v) (stack : List V) :
    ∃ cells', run I pool (copies first others) ⟨stack, cells⟩ = some ⟨stack, cells'⟩ ∧
      table.Holds (fun x => if x ∈ others.map Prod.fst then v else ρ x) cells' ∧
      ∀ k, cells' k ≠ cells k → ∃ x slot, table.get? x = some slot ∧ slot.index = k := by
  induction others generalizing ρ cells with
  | nil => exact ⟨cells, rfl, by simpa using hρ, fun _ hne => absurd rfl hne⟩
  | cons q others ih =>
    obtain ⟨hq, hothers⟩ := List.forall_mem_cons.1 hothers
    -- The first variable keeps its value even where it is among the others.
    have hkept : Function.update ρ q.1 v first.1 = v := by
      rw [Function.update_apply, hv, ite_self]
    obtain ⟨cells', hrun, hholds, hframe⟩ := ih hothers (hρ.update hT hq v) hkept
    refine ⟨cells', ?_, ?_, fun k hne => ?_⟩
    · rw [copies, run_cons, hρ.step_load hT hfirst, Option.bind_some, run_cons, hT.step_store hq,
        hv]
      exact hrun
    · convert hholds using 2 with x
      simp only [List.map_cons, List.mem_cons, Function.update_apply]
      split_ifs <;> tauto
    · by_cases hk : cells' k = Function.update cells q.2.index v k
      · rw [hk] at hne
        exact ⟨q.1, q.2, hq, index_eq_of_update_ne hne⟩
      · exact hframe k hk

end Stores

/-- The code of an assignment stores the value. -/
theorem Evaluates.run_assembled {st₁ : Lowering} {v : V} {code : List Instruction}
    (hv : Evaluates I ρ v st code st₁) (op : AssignOp) (hT : st.slots.Distinct) {x : String}
    {slot : Slot} (hx : st.slots.get? x = some slot) {cells : Nat → V} (stack : List V)
    (hpool : st₁.pool.entries <+: pool.entries) (hρ : st.slots.Holds ρ cells) :
    run I pool (op.assembled slot x code) ⟨stack, cells⟩ =
      some ⟨stack, Function.update cells slot.index (op.value I (ρ x) v)⟩ := by
  cases op with
  | plain =>
    rw [AssignOp.assembled, run_append, hv.run_eq stack hpool hρ, Option.bind_some, run_cons,
      hT.step_store hx]
    rfl
  | compound op =>
    rw [AssignOp.assembled, List.cons_append, run_cons, hρ.step_load hT hx, Option.bind_some,
      run_append, Machine.push, hv.run_eq _ hpool hρ, Option.bind_some, run_cons,
      Instruction.step_binary, Machine.combine, Option.bind_some, run_cons, hT.step_store hx]
    rfl

theorem Lower.allocateAll_of_isSome (storage : Storage) {ids : List Ident}
    (h : ∀ id ∈ ids, (st.slots.get? id.name).isSome) :
    ∃ slots, (ids.mapM (Lower.allocate storage)).run st = .ok slots st := by
  induction ids with
  | nil => exact ⟨[], rfl⟩
  | cons id ids ih =>
    obtain ⟨hid, hids⟩ := List.forall_mem_cons.1 h
    obtain ⟨slot, hslot⟩ := Option.isSome_iff_exists.1 hid
    obtain ⟨slots, hslots⟩ := ih hids
    have hrun : (Lower.allocate storage id).run st = .ok slot st := by
      rw [EStateM.run, Lower.allocate, SlotTable.allocate, hslot]
    refine ⟨slot :: slots, ?_⟩
    rw [List.mapM_cons, run_bind_eq_ok]
    exact ⟨slot, st, hrun, run_bind_eq_ok.2 ⟨slots, st, hslots, rfl⟩⟩

section Statements

variable {v : V}

/-- An expression that is a statement leaves its value. -/
theorem Expr.lower_executes {e : Expr} (hT : st.slots.Distinct)
    (hnum : st.pool.Numbered)
    (hs : ∀ n ∈ e.nodes, ∀ id, n.subject? = some id → (st.slots.get? id.name).isSome)
    (hv : e.value? I ρ = some v) (he : (Statement.expression e).operand? = some e) :
    Lower.Ends ((Statement.expression e).Executes I mode ρ [v] ρ st) (PoolOverflow mode)
      ((e.lower mode).run st) := by
  refine (lower_ends_evaluates hT hnum hs hv).imp fun code st' hl h =>
    ⟨h.slots_eq, h.numbered, ?_, ?_⟩
  · intro e' he'
    rw [he, Option.some.injEq] at he'
    exact ⟨[], code, [], he' ▸ hl, by simp, List.forall_mem_nil _⟩
  · intro pool cells stack hpool hρ
    exact ⟨cells, h.run_eq stack hpool hρ, hρ, fun _ hne => absurd rfl hne⟩

theorem SlotTable.Holds.changes_update {table : SlotTable} {cells : Nat → V} {x : String}
    {slot : Slot} (hT : table.Distinct) (hρ : table.Holds ρ cells) (hx : table.get? x = some slot)
    (v : V) : table.Changes ρ (Function.update ρ x v) cells (Function.update cells slot.index v) :=
  hρ.changes (hρ.update hT hx v) fun _ hne => ⟨x, slot, hx, index_eq_of_update_ne hne⟩

/-- Beside the code of its value, an assignment has loads, stores and operators. -/
theorem AssignOp.assembled_eq (op : AssignOp) (slot : Slot) (name : String)
    (code : List Instruction) :
    ∃ before after, op.assembled slot name code = before ++ code ++ after ∧
      ∀ i ∈ before ++ after, i.access?.isSome ∨ ∃ op, i.opcode = .binary op := by
  cases op with
  | plain =>
    refine ⟨[], [slot.store name], rfl, ?_⟩
    rw [List.nil_append, List.forall_mem_singleton]
    exact .inl rfl
  | compound op =>
    refine ⟨[slot.load name], [⟨.binary op, [], none⟩, slot.store name], rfl, ?_⟩
    rw [List.singleton_append, List.forall_mem_cons, List.forall_mem_cons,
      List.forall_mem_singleton]
    exact ⟨.inl rfl, .inr ⟨op, rfl⟩, .inl rfl⟩

/-- An assignment stores its value, combined with the old one where the operator says so. -/
theorem Expr.assign_executes {op : AssignOp} {target : Ident} {value : Expr} {range : Range}
    (hT : st.slots.Distinct) (hnum : st.pool.Numbered)
    (hs : ∀ n ∈ (assign op target value range).nodes, ∀ id, n.subject? = some id →
      (st.slots.get? id.name).isSome)
    (hv : value.value? I ρ = some v) :
    Lower.Ends ((Statement.expression (assign op target value range)).Executes I mode ρ []
        (Function.update ρ target.name (op.value I (ρ target.name) v)) st) (PoolOverflow mode)
      (((assign op target value range).lower mode).run st) := by
  rw [nodes, List.forall_mem_cons] at hs
  obtain ⟨slot, hx⟩ := Option.isSome_iff_exists.1 (hs.1 target rfl)
  refine Lower.Ends.bind_of_ok (Lower.run_slot_eq_ok.2 ⟨hx, rfl⟩) ?_
  refine Lower.Ends.bind (lower_ends_evaluates hT hnum hs.2 hv) fun code st' hl h => ?_
  have hexec : (Statement.expression (assign op target value range)).Executes I mode ρ []
      (Function.update ρ target.name (op.value I (ρ target.name) v)) st
      (op.assembled slot target.name code) st' := by
    refine ⟨h.slots_eq, h.numbered, ?_, fun {pool cells} stack hpool hρ => ?_⟩
    · rintro _ ⟨⟩
      obtain ⟨before, after, hcode, hmem⟩ := op.assembled_eq slot target.name code
      exact ⟨before, code, after, hl, hcode, hmem⟩
    · exact ⟨_, h.run_assembled op hT hx stack hpool hρ, hρ.update hT hx _,
        hρ.changes_update hT hx _⟩
  cases op <;> exact .ok hexec

/-- An update adds one to the variable or subtracts it. -/
theorem Expr.update_executes {op : UpdateOp} {leading : Bool} {target : Ident} {range : Range}
    (hT : st.slots.Distinct) (hnum : st.pool.Numbered)
    (hs : ∀ n ∈ (update op leading target range).nodes, ∀ id, n.subject? = some id →
      (st.slots.get? id.name).isSome) :
    Lower.Ends ((Statement.expression (update op leading target range)).Executes I mode ρ []
        (Function.update ρ target.name (I.binary op.binary (ρ target.name) (I.integer 1))) st)
      (PoolOverflow mode) (((update op leading target range).lower mode).run st) := by
  obtain ⟨slot, hx⟩ := Option.isSome_iff_exists.1 (hs _ List.mem_cons_self target rfl)
  rw [lower_update_eq_ok.2 ⟨slot, hx, rfl, rfl⟩]
  refine .ok ⟨rfl, hnum, nofun, fun {pool cells} stack _ hρ => ?_⟩
  refine ⟨_, ?_, hρ.update hT hx _, hρ.changes_update hT hx _⟩
  rw [run_cons, hρ.step_load hT hx, Option.bind_some, run_cons, Instruction.step_ofInteger,
    Option.bind_some, run_cons, Instruction.step_binary, Machine.push, Machine.push,
    Machine.combine, Option.bind_some, run_cons, hT.step_store hx]
  rfl

theorem Instruction.access?_copies {first : String × Slot} {others : List (String × Slot)} :
    ∀ i ∈ copies first others, i.access?.isSome := by
  induction others with
  | nil => exact List.forall_mem_nil _
  | cons q others ih =>
    rw [copies, List.forall_mem_cons, List.forall_mem_cons]
    exact ⟨rfl, rfl, ih⟩

/-- A declaration with an initial value stores it for all names. -/
theorem Declaration.lower_executes {d : Declaration} {e : Expr} (hT : st.slots.Distinct)
    (hnum : st.pool.Numbered)
    (hn : ∀ id ∈ d.names, (st.slots.get? id.name).isSome)
    (hs : ∀ n ∈ e.nodes, ∀ id, n.subject? = some id → (st.slots.get? id.name).isSome)
    (hd : d.initializer = some e) (hne : d.names ≠ []) (hv : e.value? I ρ = some v) :
    Lower.Ends ((Statement.declaration d).Executes I mode ρ []
        (fun x => if x ∈ d.names.map Ident.name then v else ρ x) st) (PoolOverflow mode)
      ((d.lower mode).run st) := by
  obtain ⟨slots, hslots⟩ := Lower.allocateAll_of_isSome (.ofTy d.ty) hn
  obtain ⟨hlength, hget, _⟩ := Lower.get?_allocateAll hslots
  have hfst : ((d.names.map Ident.name).zip slots).map Prod.fst = d.names.map Ident.name :=
    List.map_fst_zip (by rw [List.length_map, hlength])
  refine Lower.Ends.bind_of_ok hslots ?_
  cases hz : (d.names.map Ident.name).zip slots with
  | nil =>
    rw [hz, List.map_nil, eq_comm, List.map_eq_nil_iff] at hfst
    exact absurd hfst hne
  | cons first others =>
    rw [hz, List.forall_mem_cons] at hget
    rw [hz, List.map_cons] at hfst
    rw [hd]
    refine Lower.Ends.bind (Expr.lower_ends_evaluates hT hnum hs hv) fun ce st' hl h => .ok ?_
    refine ⟨h.slots_eq, h.numbered, ?_, fun {pool cells} stack hpool hρ => ?_⟩
    · intro e' he'
      rw [Statement.operand?, hd, Option.some.injEq] at he'
      refine ⟨[], ce, first.2.store first.1 :: copies first others, he' ▸ hl, rfl, ?_⟩
      rw [List.nil_append, List.forall_mem_cons]
      exact ⟨.inl rfl, fun i hi => .inl (Instruction.access?_copies i hi)⟩
    · have hstored := hρ.update hT hget.1 v
      obtain ⟨cells', hrun, hholds, hframe⟩ :=
        run_copies I pool hT hget.1 hget.2 hstored (Function.update_self ..) stack
      have hρ' : st.slots.Holds
          (fun x => if x ∈ d.names.map Ident.name then v else ρ x) cells' := by
        convert hholds using 2 with x
        simp only [← hfst, List.mem_cons, Function.update_apply]
        split_ifs <;> tauto
      refine ⟨cells', ?_, hρ', hρ.changes hρ' fun k hk => ?_⟩
      · rw [run_append, h.run_eq stack hpool hρ, Option.bind_some, run_cons, hT.step_store hget.1]
        exact hrun
      · by_cases hk' : cells' k = Function.update cells first.2.index v k
        · rw [hk'] at hk
          exact ⟨first.1, first.2, hget.1, index_eq_of_update_ne hk⟩
        · exact hframe k hk'

end Statements

/-- Statements over expressions with a value do what they say: with slots for all names and a pool
as interning makes it (`ConstantPool.Numbered.intern`), the statement is lowered unless the pool is
full, and the code does to the stack and to the cells of the variables what the statement does to
their values. -/
theorem Statement.lower_ends_executes {stmt : Statement} {vs : List V} {ρ' : String → V}
    (hT : st.slots.Distinct) (hnum : st.pool.Numbered)
    (hs : ∀ x ∈ stmt.subjects, (st.slots.get? x).isSome)
    (hv : stmt.outcome? I ρ = some (vs, ρ')) :
    Lower.Ends (stmt.Executes I mode ρ vs ρ' st) (PoolOverflow mode)
      ((stmt.lower mode).run st) := by
  have hnodes : ∀ e ∈ stmt.evaluated, ∀ n ∈ e.nodes, ∀ id, n.subject? = some id →
      (st.slots.get? id.name).isSome := by
    intro e he n hn id hid
    exact hs _ (List.mem_append_right _ (List.mem_map_of_mem
      (List.mem_filterMap.2 ⟨n, List.mem_flatMap.2 ⟨e, he, hn⟩, hid⟩)))
  cases stmt with
  | expression e =>
    have hnodes := hnodes e (List.mem_singleton_self e)
    rw [Statement.lower]
    cases e with
    | assign op target value range =>
      obtain ⟨v, hvalue, h⟩ := Option.map_eq_some_iff.1 hv
      cases h
      exact Expr.assign_executes hT hnum hnodes hvalue
    | update op leading target range =>
      cases hv
      exact Expr.update_executes hT hnum hnodes
    | literal _ _ | ident _ | binary _ _ _ _ | unary _ _ _ | sequence _ _ | array _ _
    | index _ _ _ =>
      simp only [outcome?, Option.map_eq_some_iff] at hv
      obtain ⟨v, hvalue, ⟨⟩⟩ := hv
      exact Expr.lower_executes hT hnum hnodes hvalue rfl
  | declaration d =>
    rw [Statement.lower]
    have hn : ∀ id ∈ d.names, (st.slots.get? id.name).isSome := fun id hid =>
      hs _ (List.mem_append_left _ (List.mem_map_of_mem hid))
    cases hd : d.initializer with
    | none =>
      rw [outcome?, hd] at hv
      cases hv
      obtain ⟨slots, hslots⟩ := Lower.allocateAll_of_isSome (.ofTy d.ty) hn
      refine Lower.Ends.bind_of_ok hslots ?_
      rw [hd]
      refine .ok ⟨rfl, hnum, ?_, fun {pool cells} stack _ hρ =>
        ⟨cells, rfl, hρ, fun _ hne => absurd rfl hne⟩⟩
      rw [operand?, hd]
      intro e he
      cases he
    | some e =>
      have hnodes := hnodes e (by rw [evaluated, hd]; exact List.mem_singleton_self e)
      cases hnames : d.names with
      | nil =>
        rw [outcome?, hd, hnames] at hv
        cases hv
      | cons id ids =>
        rw [outcome?, hd, hnames] at hv
        obtain ⟨v, hvalue, h⟩ := Option.map_eq_some_iff.1 hv
        cases h
        have hne : d.names ≠ [] := by
          rw [hnames]
          exact List.cons_ne_nil id ids
        rw [← hnames]
        exact Declaration.lower_executes hT hnum hn hnodes hd hne hvalue

end Lowering

end Execution

/-- `mut x, y: int = x - y;` where `x` is 7 and `y` is 5. -/
theorem Statement.lower_ends_executes_difference :
    let table : SlotTable :=
      ⟨((∅ : Std.TreeMap String Slot).insert "x" ⟨0, .int⟩).insert "y" ⟨1, .int⟩⟩
    let difference : Expr :=
      .binary .subtract (.ident ⟨"x", default⟩) (.ident ⟨"y", default⟩) default
    let stmt : Statement := .declaration
      ⟨true, .scalar (.integer .i32), [⟨"x", default⟩, ⟨"y", default⟩], some difference, default⟩
    let I : Interpretation Int :=
      ⟨id, fun b => b.toNat, fun s => s.length, fun _ l r => l - r, fun _ p => p, id, id⟩
    ∃ code st' cells', (stmt.lower .inline).run ⟨table, {}⟩ = .ok code st' ∧
      run I st'.pool code ⟨[9], fun k => if k = 0 then 7 else 5⟩ = some ⟨[9], cells'⟩ ∧
      cells' 0 = 2 ∧ cells' 1 = 2 := by
  intro table difference stmt I
  have hget : ∀ x, table.get? x =
      if x = "y" then some ⟨1, .int⟩ else if x = "x" then some ⟨0, .int⟩ else none := by
    intro x
    rw [SlotTable.get?_insert ⟨_⟩, SlotTable.get?_insert ⟨_⟩]
    rfl
  have hT : table.Distinct := by
    constructor
    · intro x slot hx
      rw [hget] at hx
      grind [SlotTable.capacity]
    · intro x y slot slot' hx hy
      rw [hget] at hx hy
      grind
  have hs : ∀ x ∈ stmt.subjects, (table.get? x).isSome := by
    intro x hx
    have hx : x = "x" ∨ x = "y" ∨ x = "x" ∨ x = "y" := by
      simpa [stmt, difference, subjects, names, evaluated, Expr.nodes, Expr.subject?, eq_comm]
        using hx
    rw [hget]
    grind
  have hv : stmt.outcome? I (fun x => if x = "x" then 7 else 5) =
      some ([], fun z => if z ∈ ["x", "y"] then 2 else if z = "x" then 7 else 5) := rfl
  have h : Lower.Ends (stmt.Executes I .inline _ _ _ ⟨table, {}⟩) (PoolOverflow .inline)
      ((stmt.lower .inline).run ⟨table, {}⟩) :=
    Statement.lower_ends_executes hT ConstantPool.Numbered.empty hs hv
  cases hl : (stmt.lower .inline).run ⟨table, {}⟩ with
  | error d st' =>
    rw [hl] at h
    cases h with
    | error hd => cases hd.1
  | ok code st' =>
    rw [hl] at h
    obtain ⟨h⟩ := h
    have hρ : table.Holds (fun x => if x = "x" then (7 : Int) else 5)
        (fun k => if k = 0 then 7 else 5) := by
      intro x slot hx
      rw [hget] at hx
      grind
    obtain ⟨cells', hrun, hholds, _⟩ := h.run_eq [9] List.prefix_rfl hρ
    exact ⟨code, st', cells', rfl, hrun, hholds "x" ⟨0, .int⟩ (hget "x"),
      hholds "y" ⟨1, .int⟩ (hget "y")⟩

end StackCompiler
