import Mathlib.Data.List.Forall2
import StackCompiler.Proofs.Sessions

/-!
# Reads and writes

The variables that a program reads and writes when it runs, in order, can be read off the tree
(`Program.accesses`) and off the code (`Instruction.access?`). They are the same up to the
numbers of the slots (`Program.performs_lower`), so that what is said of their order can be
said of names or of slots. `Covered` is what is said here: every read is of something known or
written before.
-/

namespace StackCompiler

/-- A use of a variable. -/
inductive Access (α : Type) where
  | read (x : α)
  | write (x : α)
deriving DecidableEq

/-- Accesses of the same kind to related variables. -/
inductive Access.Rel {α β : Type} (R : α → β → Prop) : Access α → Access β → Prop where
  | read {x : α} {y : β} (h : R x y) : Rel R (.read x) (.read y)
  | write {x : α} {y : β} (h : R x y) : Rel R (.write x) (.write y)

theorem Access.Rel.imp {α β : Type} {R S : α → β → Prop} (hRS : ∀ x y, R x y → S x y)
    {a : Access α} {b : Access β} (h : Rel R a b) : Rel S a b := by
  cases h with
  | read h => exact .read (hRS _ _ h)
  | write h => exact .write (hRS _ _ h)

/-- Every read is of something known or written before. -/
def Covered {α : Type} (known : α → Prop) : List (Access α) → Prop
  | [] => True
  | .read x :: l => known x ∧ Covered known l
  | .write x :: l => Covered (fun y => known y ∨ y = x) l

section Covered

variable {α β : Type} {known known' : α → Prop} {l l' : List (Access α)}

theorem Covered.mono (h : Covered known l) (hk : ∀ x, known x → known' x) : Covered known' l := by
  induction l generalizing known known' with
  | nil => trivial
  | cons a l ih =>
    cases a with
    | read x => exact ⟨hk x h.1, ih h.2 hk⟩
    | write x => exact ih h fun y => Or.imp_left (hk y)

theorem covered_append :
    Covered known (l ++ l') ↔
      Covered known l ∧ Covered (fun x => known x ∨ .write x ∈ l) l' := by
  induction l generalizing known with
  | nil => simp [Covered]
  | cons a l ih =>
    cases a with
    | read x =>
      rw [List.cons_append, Covered, Covered, ih, and_assoc]
      simp
    | write x =>
      rw [List.cons_append, Covered, Covered, ih]
      simp [or_assoc]

theorem covered_iff :
    Covered known l ↔
      ∀ before x after, l = before ++ .read x :: after → known x ∨ .write x ∈ before := by
  constructor
  · rintro h before x after rfl
    exact (covered_append.1 h).2.1
  · intro h
    induction l generalizing known with
    | nil => trivial
    | cons a l ih =>
      cases a with
      | read x =>
        refine ⟨by simpa using h [] x l rfl, ih fun before y after hl => ?_⟩
        simpa using h (.read x :: before) y after (by rw [hl]; rfl)
      | write x =>
        refine ih fun before y after hl => ?_
        have := h (.write x :: before) y after (by rw [hl]; rfl)
        rwa [List.mem_cons, Access.write.injEq, ← or_assoc] at this

/-- Related variables that are equal on one side exactly if they are on the other are covered
together. -/
theorem covered_congr {R : α → β → Prop} {known' : β → Prop} {l' : List (Access β)}
    (h : List.Forall₂ (Access.Rel R) l l')
    (hR : ∀ x x' y y', R x y → R x' y' → (x = x' ↔ y = y'))
    (hk : ∀ x y, R x y → (known x ↔ known' y)) : Covered known l ↔ Covered known' l' := by
  induction h generalizing known known' with
  | nil => exact Iff.rfl
  | cons ha _ ih =>
    cases ha with
    | read hx => exact and_congr (hk _ _ hx) (ih hk)
    | write hx => exact ih fun x' y' hx' => or_congr (hk x' y' hx') (hR _ _ _ _ hx' hx)

end Covered

theorem Bytes.toNat_ofNat {width n : Nat} (h : n < 1 <<< (8 * width)) :
    toNat (ofNat width n) = n := by
  induction width generalizing n with
  | zero =>
    simp only [Nat.mul_zero, Nat.shiftLeft_zero] at h
    rw [ofNat, toNat]
    omega
  | succ width ih =>
    have hn : n / 256 < 1 <<< (8 * width) := by
      simp only [Nat.mul_succ, Nat.shiftLeft_succ] at h
      omega
    rw [ofNat, toNat, ih hn]
    simp only [Nat.toUInt8, UInt8.toNat_ofNat']
    omega

/-- The number by which instructions name the slot. -/
def Slot.operand (slot : Slot) : Nat :=
  Bytes.toNat (Bytes.ofNat 2 slot.index)

theorem Slot.operand_eq {slot : Slot} (h : slot.index < SlotTable.capacity) :
    slot.operand = slot.index :=
  Bytes.toNat_ofNat h

/-- Instructions name the slot of `x` by the number `k`. -/
def SlotTable.Names (table : SlotTable) (x : String) (k : Nat) : Prop :=
  ∃ slot, table.get? x = some slot ∧ slot.operand = k

/-- Different names have slots with different numbers. -/
theorem Agree.names_iff {env : Environment} {table : SlotTable} {names : List String}
    (h : Agree env table names) {x x' : String} {k k' : Nat} (hx : table.Names x k)
    (hx' : table.Names x' k') : x = x' ↔ k = k' := by
  obtain ⟨slot, hs, rfl⟩ := hx
  obtain ⟨slot', hs', rfl⟩ := hx'
  constructor
  · rintro rfl
    rw [hs] at hs'
    cases hs'
    rfl
  · rw [Slot.operand_eq (h.index_lt hs), Slot.operand_eq (h.index_lt hs')]
    intro hk
    have hi := (h.index_iff x slot.index).1 (by rw [hs]; rfl)
    have hi' := (h.index_iff x' slot.index).1 (by rw [hs', hk]; rfl)
    rw [hi, Option.some.injEq] at hi'
    exact hi'

/-- The variable that an instruction reads or writes, by the number of its slot. -/
def Instruction.access? (i : Instruction) : Option (Access Nat) :=
  match i.opcode with
  | .load _ => some (.read (Bytes.toNat i.operands))
  | .store _ => some (.write (Bytes.toNat i.operands))
  | _ => none

/-- The loads and stores of the code are the given accesses. -/
def Performs (table : SlotTable) (l : List (Access String)) (code : List Instruction) : Prop :=
  List.Forall₂ (Access.Rel table.Names) l (code.filterMap Instruction.access?)

namespace Performs

variable {table table' : SlotTable} {l l' : List (Access String)} {code code' : List Instruction}

theorem nil (h : ∀ i ∈ code, i.access? = none) : Performs table [] code := by
  rw [Performs, List.filterMap_eq_nil_iff.2 h]
  exact .nil

theorem append (h : Performs table l code) (h' : Performs table l' code') :
    Performs table (l ++ l') (code ++ code') := by
  rw [Performs, List.filterMap_append]
  exact List.rel_append h h'

theorem load {x : String} {slot : Slot} (h : table.get? x = some slot) :
    Performs table [.read x] [slot.load x] :=
  .cons (.read ⟨slot, h, rfl⟩) .nil

theorem store {x : String} {slot : Slot} (h : table.get? x = some slot) :
    Performs table [.write x] [slot.store x] :=
  .cons (.write ⟨slot, h, rfl⟩) .nil

theorem constant {i : Instruction} (h : i.opcode.loadsConstant) : Performs table [] [i] := by
  refine nil (List.forall_mem_singleton.2 ?_)
  cases hi : i.opcode <;> simp_all [Opcode.loadsConstant, Instruction.access?]

theorem binary (op : BinaryOp) : Performs table [] [⟨.binary op, [], none⟩] :=
  .nil (List.forall_mem_singleton.2 rfl)

/-- Slots that are kept have the same numbers. -/
theorem mono (h : Performs table l code)
    (hT : ∀ x slot, table.get? x = some slot → table'.get? x = some slot) :
    Performs table' l code :=
  List.Forall₂.imp (fun _ _ => Access.Rel.imp fun x _ ⟨slot, hs, hk⟩ => ⟨slot, hT x slot hs, hk⟩) h

end Performs

theorem UnaryOp.access?_around (op : UnaryOp) :
    (∀ i ∈ op.around.1, i.access? = none) ∧ ∀ i ∈ op.around.2, i.access? = none := by
  cases op <;> decide

namespace Expr

mutual

/-- The variables that an expression reads and writes, in order. -/
def accesses : Expr → List (Access String)
  | literal .. => []
  | ident id => [.read id.name]
  | binary _ left right _ | index left right _ => left.accesses ++ right.accesses
  | unary _ operand _ => operand.accesses
  | update _ _ target _ => [.read target.name, .write target.name]
  | assign .plain target value _ => value.accesses ++ [.write target.name]
  | assign (.compound _) target value _ =>
    .read target.name :: value.accesses ++ [.write target.name]
  | sequence items _ | array items _ => accessesAll items

/-- The variables that expressions read and write, one expression after the other. -/
def accessesAll : List Expr → List (Access String)
  | [] => []
  | e :: es => e.accesses ++ accessesAll es

end

mutual

/-- The code of an expression performs its accesses. -/
theorem performs_lower {mode : ConstantMode} {e : Expr} {st st' : Lowering}
    {code : List Instruction} (h : (e.lower mode).run st = .ok code st') :
    Performs st.slots e.accesses code := by
  cases e with
  | literal value range =>
    obtain ⟨_, hi, rfl⟩ := lower_literal_eq_ok.1 h
    exact .constant (Literal.loadsConstant_lower hi)
  | ident id =>
    obtain ⟨slot, hs, rfl, _⟩ := lower_ident_eq_ok.1 h
    exact .load hs
  | update op leading target range =>
    obtain ⟨slot, hs, _, rfl⟩ := lower_update_eq_ok.1 h
    exact (((Performs.load hs).append
      (.constant (Instruction.loadsConstant_ofInteger 1 none))).append
      (.binary op.binary)).append (.store hs)
  | binary op l r range =>
    obtain ⟨_, st₁, _, hl, hr, rfl⟩ := lower_binary_eq_ok.1 h
    have hright := performs_lower hr
    rw [slots_lower hl] at hright
    rw [accesses, ← List.append_nil (l.accesses ++ r.accesses)]
    exact ((performs_lower hl).append hright).append (.binary op)
  | unary op e range =>
    obtain ⟨_, he, rfl⟩ := lower_unary_eq_ok.1 h
    obtain ⟨hb, ha⟩ := op.access?_around
    rw [accesses, ← List.nil_append e.accesses, ← List.append_nil ([] ++ e.accesses)]
    exact ((Performs.nil hb).append (performs_lower he)).append (.nil ha)
  | assign op target value range =>
    obtain ⟨slot, _, hs, hv, rfl⟩ := lower_assign_eq_ok.1 h
    have hvalue := performs_lower hv
    cases op with
    | plain =>
      rw [accesses]
      exact hvalue.append (.store hs)
    | compound op =>
      rw [accesses, AssignOp.assembled]
      exact ((Performs.load hs).append hvalue).append ((Performs.binary op).append (.store hs))
  | sequence items range =>
    rw [lower] at h
    exact performs_lowerAll h
  | array items range =>
    obtain ⟨_, _, hi, rfl⟩ := lower_array_eq_ok.1 h
    exact (Performs.nil (List.forall_mem_singleton.2 rfl)).append (performs_lowerAll hi)
  | index base position range =>
    obtain ⟨_, st₁, _, hb, hp, rfl⟩ := lower_index_eq_ok.1 h
    have hposition := performs_lower hp
    rw [slots_lower hb] at hposition
    rw [accesses, ← List.append_nil (base.accesses ++ position.accesses)]
    exact ((performs_lower hb).append hposition).append (.nil (List.forall_mem_singleton.2 rfl))

theorem performs_lowerAll {mode : ConstantMode} {es : List Expr} {st st' : Lowering}
    {code : List Instruction} (h : (lowerAll mode es).run st = .ok code st') :
    Performs st.slots (accessesAll es) code := by
  cases es with
  | nil =>
    cases h
    exact .nil (List.forall_mem_nil _)
  | cons e es =>
    obtain ⟨_, st₁, _, he, hes, rfl⟩ := lowerAll_cons_eq_ok.1 h
    have hrest := performs_lowerAll hes
    rw [slots_lower he] at hrest
    exact (performs_lower he).append hrest

end

end Expr

/-- Each copy reads the first name and writes another. -/
theorem performs_copies {table : SlotTable} {first : String × Slot}
    {others : List (String × Slot)} (hf : table.get? first.1 = some first.2)
    (ho : ∀ q ∈ others, table.get? q.1 = some q.2) :
    Performs table ((others.map Prod.fst).flatMap fun x => [.read first.1, .write x])
      (copies first others) := by
  induction others with
  | nil => exact .nil (List.forall_mem_nil _)
  | cons other others ih =>
    rw [List.forall_mem_cons] at ho
    exact ((Performs.load hf).append (.store ho.1)).append (ih ho.2)

namespace Statement

/-- The variables that a statement reads and writes, in order. The first declared name gets the
initial value, and the others get it from there. -/
def accesses : Statement → List (Access String)
  | expression e => e.accesses
  | declaration d =>
    match d.initializer, d.names.map Ident.name with
    | some e, first :: others =>
      e.accesses ++ .write first :: others.flatMap fun x => [.read first, .write x]
    | _, _ => []

/-- A statement keeps the slots that names have. -/
theorem get?_lower {mode : ConstantMode} {stmt : Statement} {st st' : Lowering}
    {code : List Instruction} (h : (stmt.lower mode).run st = .ok code st') (x : String)
    (slot : Slot) (hs : st.slots.get? x = some slot) : st'.slots.get? x = some slot := by
  cases stmt with
  | expression e => rw [Expr.slots_lower h, hs]
  | declaration d =>
    obtain ⟨_, st₁, ha, hcase⟩ := Declaration.lower_eq_ok.1 h
    have hs₁ := (Lower.get?_allocateAll ha).2.2 x slot hs
    rcases hcase with ⟨_, _, _, _, _, _, hl, _⟩ | ⟨_, _, rfl⟩
    · rw [Expr.slots_lower hl, hs₁]
    · exact hs₁

theorem performs_lower {mode : ConstantMode} {stmt : Statement} {st st' : Lowering}
    {code : List Instruction} (h : (stmt.lower mode).run st = .ok code st') :
    Performs st'.slots stmt.accesses code := by
  cases stmt with
  | expression e =>
    rw [Expr.slots_lower h]
    exact Expr.performs_lower h
  | declaration d =>
    obtain ⟨slots, st₁, ha, ⟨e, first, others, ce, he, hz, hl, rfl⟩ | ⟨hd, rfl, _⟩⟩ :=
      Declaration.lower_eq_ok.1 h
    · obtain ⟨hlength, hmem, _⟩ := Lower.get?_allocateAll ha
      have hnames : first.1 :: others.map Prod.fst = d.names.map Ident.name := by
        rw [← List.map_cons, ← hz, List.map_fst_zip (by rw [List.length_map, hlength])]
      rw [hz, List.forall_mem_cons] at hmem
      rw [Expr.slots_lower hl]
      simp only [accesses, he, ← hnames]
      exact (Expr.performs_lower hl).append
        ((Performs.store hmem.1).append (performs_copies hmem.1 hmem.2))
    · have hnone : (declaration d).accesses = [] := by
        rcases hd with hd | hd <;> simp [accesses, hd]
      rw [hnone]
      exact .nil (List.forall_mem_nil _)

end Statement

namespace Program

/-- The variables that a program reads and writes, in order. -/
def accesses (p : Program) : List (Access String) :=
  p.flatMap Statement.accesses

theorem get?_lower {mode : ConstantMode} {p : Program} {st st' : Lowering}
    {code : List Instruction} (h : (p.lower mode).run st = .ok code st') (x : String)
    (slot : Slot) (hs : st.slots.get? x = some slot) : st'.slots.get? x = some slot := by
  induction p generalizing st code with
  | nil =>
    cases h
    exact hs
  | cons stmt p ih =>
    obtain ⟨_, st₁, _, hstmt, hp, _⟩ := lower_cons_eq_ok.1 h
    exact ih hp (Statement.get?_lower hstmt x slot hs)

/-- The code of a program performs its accesses. -/
theorem performs_lower {mode : ConstantMode} {p : Program} {st st' : Lowering}
    {code : List Instruction} (h : (p.lower mode).run st = .ok code st') :
    Performs st'.slots p.accesses code := by
  induction p generalizing st code with
  | nil =>
    cases h
    exact .nil (List.forall_mem_nil _)
  | cons stmt p ih =>
    obtain ⟨_, st₁, _, hstmt, hp, rfl⟩ := lower_cons_eq_ok.1 h
    rw [accesses, List.flatMap_cons]
    exact ((Statement.performs_lower hstmt).mono (get?_lower hp)).append (ih hp)

end Program

end StackCompiler
