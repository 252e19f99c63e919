import StackCompiler.Proofs.Nodes
import StackCompiler.Proofs.Steps

/-!
# Expressions that are lowered

What is known of an expression that has been lowered: one statement for each form, which says
exactly when lowering succeeds and which instructions it gives. Lowering an expression takes no
new slots (`Expr.slots_lower`).
-/

namespace StackCompiler

namespace SlotTable

theorem get?_insert (table : SlotTable) (x y : String) (slot : Slot) :
    get? ⟨table.slots.insert x slot⟩ y = if y = x then some slot else table.get? y := by
  rw [get?, Std.TreeMap.getElem?_insert]
  simp only [Std.compare_eq_iff_eq, eq_comm (a := x)]
  rfl

theorem size_insert {table : SlotTable} {x : String} (slot : Slot) (h : table.get? x = none) :
    size ⟨table.slots.insert x slot⟩ = table.size + 1 := by
  have hx : ¬ table.slots.contains x := by
    rw [Std.TreeMap.contains_eq_isSome_getElem?]
    rw [get?] at h
    simp [h]
  rw [size, Std.TreeMap.size_insert, if_neg hx]
  rfl

end SlotTable

namespace Lower

variable {st st' : Lowering}

theorem run_slot_eq_ok {id : Ident} {slot : Slot} :
    (Lower.slot id).run st = .ok slot st' ↔ st.slots.get? id.name = some slot ∧ st' = st := by
  rw [Lower.slot, EStateM.run_bind, EStateM.run_get]
  dsimp only
  cases st.slots.get? id.name with
  | none => simpa using nofun
  | some w => simp [eq_comm]

theorem slots_intern {d : Datum} {index : Nat} (h : (intern d).run st = .ok index st') :
    st'.slots = st.slots := by
  rw [EStateM.run, intern] at h
  split at h <;> cases h
  rfl

/-- A name gets a slot, and every name keeps the slot that it had. -/
theorem get?_allocate {storage : Storage} {id : Ident} {slot : Slot}
    (h : (allocate storage id).run st = .ok slot st') :
    st'.slots.get? id.name = some slot ∧
      ∀ x s, st.slots.get? x = some s → st'.slots.get? x = some s := by
  rw [EStateM.run, allocate, SlotTable.allocate] at h
  cases hx : st.slots.get? id.name with
  | some s =>
    rw [hx] at h
    cases h
    exact ⟨hx, fun _ _ hs => hs⟩
  | none =>
    rw [hx] at h
    by_cases hs : st.slots.size < SlotTable.capacity
    · simp only [if_pos hs] at h
      cases h
      refine ⟨by rw [SlotTable.get?_insert, if_pos rfl], fun x s hs => ?_⟩
      have hne : x ≠ id.name := by
        rintro rfl
        rw [hx] at hs
        cases hs
      rw [SlotTable.get?_insert, if_neg hne, hs]
    · simp only [if_neg hs] at h
      cases h

/-- Every name of a list gets a slot. -/
theorem get?_allocateAll {storage : Storage} {ids : List Ident} {slots : List Slot}
    (h : (ids.mapM (allocate storage)).run st = .ok slots st') :
    slots.length = ids.length ∧
      (∀ q ∈ (ids.map Ident.name).zip slots, st'.slots.get? q.1 = some q.2) ∧
      ∀ x s, st.slots.get? x = some s → st'.slots.get? x = some s := by
  induction ids generalizing st slots with
  | nil =>
    cases h
    exact ⟨rfl, nofun, fun _ _ hs => hs⟩
  | cons id ids ih =>
    rw [List.mapM_cons] at h
    obtain ⟨slot, st₁, hid, h⟩ := run_bind_eq_ok.1 h
    obtain ⟨rest, st₂, hids, h⟩ := run_bind_eq_ok.1 h
    obtain ⟨rfl, rfl⟩ := run_pure_eq_ok.1 h
    obtain ⟨hlen, hmem, hkeep⟩ := ih hids
    obtain ⟨hnew, hkeep₁⟩ := get?_allocate hid
    refine ⟨by rw [List.length_cons, List.length_cons, hlen], ?_,
      fun x s hs => hkeep x s (hkeep₁ x s hs)⟩
    rw [List.map_cons, List.zip_cons_cons, List.forall_mem_cons]
    exact ⟨hkeep _ _ hnew, hmem⟩

end Lower

/-- Whether the instruction loads a constant. -/
def Opcode.loadsConstant : Opcode → Bool
  | loadImmediate8 | loadImmediate16 | loadImmediate32 | loadImmediate64
  | loadDouble | loadString | loadConstant => true
  | _ => false

theorem Instruction.loadsConstant_ofInteger (value : Int) (comment : Option String) :
    (Instruction.ofInteger value comment).opcode.loadsConstant := by
  rw [Instruction.ofInteger, Instruction.immediate]
  split
  · rfl
  · split
    · rfl
    · split <;> rfl

theorem Datum.loadsConstant_lower {mode : ConstantMode} {comment : String} {d : Datum}
    {st st' : Lowering} {i : Instruction} (h : (d.lower mode comment).run st = .ok i st') :
    i.opcode.loadsConstant := by
  cases mode with
  | inline =>
    rw [Datum.lower, run_pure_eq_ok] at h
    rw [h.1]
    obtain ⟨_ | _, _⟩ := d <;> rfl
  | pooled =>
    obtain ⟨_, _, _, hi⟩ := run_bind_eq_ok.1 h
    rw [(run_pure_eq_ok.1 hi).1]
    rfl

/-- A literal is loaded by an instruction that loads constants. -/
theorem Literal.loadsConstant_lower {mode : ConstantMode} {value : Literal} {st st' : Lowering}
    {i : Instruction} (h : (value.lower mode).run st = .ok i st') : i.opcode.loadsConstant := by
  cases value with
  | integer _ | char _ | null =>
    rw [Literal.lower, run_pure_eq_ok] at h
    rw [h.1]
    exact Instruction.loadsConstant_ofInteger _ _
  | float _ | string _ => exact Datum.loadsConstant_lower h

theorem Datum.slots_lower {mode : ConstantMode} {comment : String} {d : Datum}
    {st st' : Lowering} {i : Instruction} (h : (d.lower mode comment).run st = .ok i st') :
    st'.slots = st.slots := by
  cases mode with
  | inline =>
    cases h
    rfl
  | pooled =>
    obtain ⟨index, st₁, hi, hp⟩ := run_bind_eq_ok.1 h
    cases hp
    exact Lower.slots_intern hi

theorem Literal.slots_lower {mode : ConstantMode} {value : Literal} {st st' : Lowering}
    {i : Instruction} (h : (value.lower mode).run st = .ok i st') : st'.slots = st.slots := by
  cases value with
  | integer _ | char _ | null =>
    rw [Literal.lower, run_pure_eq_ok] at h
    rw [h.2]
  | float _ | string _ => exact Datum.slots_lower h

/-- Without a pool, lowering a literal extends nothing. -/
theorem Literal.lower_inline {value : Literal} {st st' : Lowering} {i : Instruction}
    (h : (value.lower .inline).run st = .ok i st') : st' = st := by
  cases value <;> exact (run_pure_eq_ok.1 h).2

theorem fitsUnsigned_natCast {bits n : Nat} : Number.FitsUnsigned bits n ↔ n < 1 <<< bits := by
  rw [Number.FitsUnsigned, Int.ofNat_lt]
  exact and_iff_right (Int.natCast_nonneg n)

/-- The instructions of an assignment, around those of the value. -/
def AssignOp.assembled (op : AssignOp) (slot : Slot) (name : String) (code : List Instruction) :
    List Instruction :=
  match op with
  | plain => code ++ [slot.store name]
  | compound op => slot.load name :: code ++ [⟨.binary op, [], none⟩, slot.store name]

namespace Expr

variable {mode : ConstantMode} {st st' : Lowering} {code : List Instruction}

theorem lower_literal_eq_ok {value : Literal} {range : Range} :
    ((literal value range).lower mode).run st = .ok code st' ↔
      ∃ i, (value.lower mode).run st = .ok i st' ∧ code = [i] := by
  simp only [lower, run_bind_eq_ok, run_pure_eq_ok]
  grind

theorem lower_ident_eq_ok {id : Ident} :
    ((ident id).lower mode).run st = .ok code st' ↔
      ∃ slot, st.slots.get? id.name = some slot ∧ code = [slot.load id.name] ∧ st' = st := by
  simp only [lower, run_bind_eq_ok, run_pure_eq_ok, Lower.run_slot_eq_ok]
  grind

theorem lower_binary_eq_ok {op : BinaryOp} {l r : Expr} {range : Range} :
    ((binary op l r range).lower mode).run st = .ok code st' ↔
      ∃ cl st₁ cr, (l.lower mode).run st = .ok cl st₁ ∧ (r.lower mode).run st₁ = .ok cr st' ∧
        code = cl ++ cr ++ [⟨.binary op, [], none⟩] := by
  simp only [lower, run_bind_eq_ok, run_pure_eq_ok]
  grind

theorem lower_unary_eq_ok {op : UnaryOp} {e : Expr} {range : Range} :
    ((unary op e range).lower mode).run st = .ok code st' ↔
      ∃ ce, (e.lower mode).run st = .ok ce st' ∧ code = op.around.1 ++ ce ++ op.around.2 := by
  simp only [lower, run_bind_eq_ok, run_pure_eq_ok]
  grind

theorem lower_update_eq_ok {op : UpdateOp} {leading : Bool} {target : Ident} {range : Range} :
    ((update op leading target range).lower mode).run st = .ok code st' ↔
      ∃ slot, st.slots.get? target.name = some slot ∧ st' = st ∧
        code = [slot.load target.name, .ofInteger 1, ⟨.binary op.binary, [], none⟩,
          slot.store target.name] := by
  simp only [lower, run_bind_eq_ok, run_pure_eq_ok, Lower.run_slot_eq_ok]
  grind

theorem lower_assign_eq_ok {op : AssignOp} {target : Ident} {value : Expr} {range : Range} :
    ((assign op target value range).lower mode).run st = .ok code st' ↔
      ∃ slot cv, st.slots.get? target.name = some slot ∧
        (value.lower mode).run st = .ok cv st' ∧ code = op.assembled slot target.name cv := by
  cases op <;>
  · simp only [lower, run_bind_eq_ok, run_pure_eq_ok, Lower.run_slot_eq_ok, AssignOp.assembled]
    grind

theorem lower_array_of_lt {items : List Expr} {range : Range} (h : items.length < 1 <<< 32) :
    (array items range).lower mode = (do
      let code ← lowerAll mode items
      pure (⟨.loadArraySize, Bytes.ofNat 4 items.length, none⟩ :: code)) := by
  rw [lower, if_pos (fitsUnsigned_natCast.2 h)]

theorem lower_array_of_le {items : List Expr} {range : Range} (h : 1 <<< 32 ≤ items.length) :
    (array items range).lower mode = throw .arrayTooLong := by
  rw [lower, if_neg (mt fitsUnsigned_natCast.1 (Nat.not_lt.2 h))]

theorem lower_array_eq_ok {items : List Expr} {range : Range} :
    ((array items range).lower mode).run st = .ok code st' ↔
      items.length < 1 <<< 32 ∧ ∃ ci, (lowerAll mode items).run st = .ok ci st' ∧
        code = ⟨.loadArraySize, Bytes.ofNat 4 items.length, none⟩ :: ci := by
  rcases Nat.lt_or_ge items.length (1 <<< 32) with hlen | hlen
  · simp only [lower_array_of_lt hlen, run_bind_eq_ok, run_pure_eq_ok]
    grind
  · simp only [lower_array_of_le hlen, run_throw_eq_ok, Nat.not_lt.2 hlen, false_and]

theorem lower_index_eq_ok {base position : Expr} {range : Range} :
    ((index base position range).lower mode).run st = .ok code st' ↔
      ∃ cb st₁ cp, (base.lower mode).run st = .ok cb st₁ ∧
        (position.lower mode).run st₁ = .ok cp st' ∧
        code = cb ++ cp ++ [⟨.loadElement, [], none⟩] := by
  simp only [lower, run_bind_eq_ok, run_pure_eq_ok]
  grind

theorem lowerAll_cons_eq_ok {e : Expr} {es : List Expr} :
    (lowerAll mode (e :: es)).run st = .ok code st' ↔
      ∃ ce st₁ ces, (e.lower mode).run st = .ok ce st₁ ∧
        (lowerAll mode es).run st₁ = .ok ces st' ∧ code = ce ++ ces := by
  simp only [lowerAll, run_bind_eq_ok, run_pure_eq_ok]
  grind

mutual

/-- What lowering literals leaves as it is, lowering an expression leaves as it is. -/
theorem lower_invariant {α : Type} {view : Lowering → α}
    (hview : ∀ {value : Literal} {st st' : Lowering} {i : Instruction},
      (value.lower mode).run st = .ok i st' → view st' = view st)
    {e : Expr} {st st' : Lowering} {code : List Instruction}
    (h : (e.lower mode).run st = .ok code st') : view st' = view st := by
  cases e with
  | literal value range =>
    obtain ⟨_, hi, _⟩ := lower_literal_eq_ok.1 h
    exact hview hi
  | ident id =>
    obtain ⟨_, _, _, rfl⟩ := lower_ident_eq_ok.1 h
    rfl
  | update op leading target range =>
    obtain ⟨_, _, rfl, _⟩ := lower_update_eq_ok.1 h
    rfl
  | binary op l r range =>
    obtain ⟨_, st₁, _, hl, hr, _⟩ := lower_binary_eq_ok.1 h
    rw [lower_invariant hview hr, lower_invariant hview hl]
  | unary op e range =>
    obtain ⟨_, he, _⟩ := lower_unary_eq_ok.1 h
    exact lower_invariant hview he
  | assign op target value range =>
    obtain ⟨_, _, _, hv, _⟩ := lower_assign_eq_ok.1 h
    exact lower_invariant hview hv
  | sequence items range =>
    rw [lower] at h
    exact lowerAll_invariant hview h
  | array items range =>
    obtain ⟨_, _, hi, _⟩ := lower_array_eq_ok.1 h
    exact lowerAll_invariant hview hi
  | index base position range =>
    obtain ⟨_, st₁, _, hb, hp, _⟩ := lower_index_eq_ok.1 h
    rw [lower_invariant hview hp, lower_invariant hview hb]

theorem lowerAll_invariant {α : Type} {view : Lowering → α}
    (hview : ∀ {value : Literal} {st st' : Lowering} {i : Instruction},
      (value.lower mode).run st = .ok i st' → view st' = view st)
    {es : List Expr} {st st' : Lowering} {code : List Instruction}
    (h : (lowerAll mode es).run st = .ok code st') : view st' = view st := by
  cases es with
  | nil =>
    cases h
    rfl
  | cons e es =>
    obtain ⟨_, st₁, _, he, hes, _⟩ := lowerAll_cons_eq_ok.1 h
    rw [lowerAll_invariant hview hes, lower_invariant hview he]

end

/-- Lowering an expression takes no slots. -/
theorem slots_lower {e : Expr} (h : (e.lower mode).run st = .ok code st') :
    st'.slots = st.slots :=
  lower_invariant Literal.slots_lower h

/-- Without a pool, lowering an expression extends nothing. -/
theorem lower_inline {e : Expr} (h : (e.lower .inline).run st = .ok code st') : st' = st :=
  lower_invariant Literal.lower_inline h

end Expr

/-- The names of a declaration get slots, and then the initial value is stored for each. -/
theorem Declaration.lower_eq_ok {mode : ConstantMode} {d : Declaration} {st st' : Lowering}
    {code : List Instruction} :
    (d.lower mode).run st = .ok code st' ↔
      ∃ slots st₁, (d.names.mapM (Lower.allocate (.ofTy d.ty))).run st = .ok slots st₁ ∧
        ((∃ e first others ce, d.initializer = some e ∧
            (d.names.map Ident.name).zip slots = first :: others ∧
            (e.lower mode).run st₁ = .ok ce st' ∧
            code = ce ++ first.2.store first.1 :: copies first others) ∨
          ((d.initializer = none ∨ d.names = []) ∧ code = [] ∧ st' = st₁)) := by
  rw [Declaration.lower, run_bind_eq_ok]
  refine exists_congr fun slots => exists_congr fun st₁ => and_congr_right fun ha => ?_
  cases he : d.initializer with
  | none => simp [eq_comm]
  | some e =>
    cases hz : (d.names.map Ident.name).zip slots with
    | cons first others =>
      have hnames : d.names ≠ [] := by
        rintro hnames
        rw [hnames] at hz
        cases hz
      simp only [run_bind_eq_ok, run_pure_eq_ok, hnames]
      grind
    | nil =>
      have hlen := congrArg List.length hz
      rw [List.length_zip, List.length_map, (Lower.get?_allocateAll ha).1, Nat.min_self] at hlen
      have hnames : d.names = [] := List.eq_nil_of_length_eq_zero hlen
      simp [hnames, eq_comm]

theorem Program.lower_cons_eq_ok {mode : ConstantMode} {stmt : Statement} {p : Program}
    {st st' : Lowering} {code : List Instruction} :
    (Program.lower mode (stmt :: p)).run st = .ok code st' ↔
      ∃ cs st₁ cp, (stmt.lower mode).run st = .ok cs st₁ ∧
        (Program.lower mode p).run st₁ = .ok cp st' ∧ code = cs ++ cp := by
  simp only [Program.lower, run_bind_eq_ok, run_pure_eq_ok]
  grind

theorem Program.lower_append_eq_ok {mode : ConstantMode} {p q : Program} {st st' : Lowering}
    {code : List Instruction} :
    (Program.lower mode (p ++ q)).run st = .ok code st' ↔
      ∃ cp st₁ cq, (Program.lower mode p).run st = .ok cp st₁ ∧
        (Program.lower mode q).run st₁ = .ok cq st' ∧ code = cp ++ cq := by
  induction p generalizing st code with
  | nil =>
    simp only [Program.lower, run_pure_eq_ok, List.nil_append]
    grind
  | cons stmt p ih =>
    simp only [List.cons_append, lower_cons_eq_ok, ih]
    grind

/-- Giving names their slots leaves the pool as it was. -/
theorem Lower.pool_allocateAll {storage : Storage} {ids : List Ident} {slots : List Slot}
    {st st' : Lowering} (h : (ids.mapM (allocate storage)).run st = .ok slots st') :
    st'.pool = st.pool := by
  induction ids generalizing st slots with
  | nil =>
    cases h
    rfl
  | cons id ids ih =>
    rw [List.mapM_cons] at h
    obtain ⟨slot, st₁, hid, h⟩ := run_bind_eq_ok.1 h
    obtain ⟨rest, st₂, hids, h⟩ := run_bind_eq_ok.1 h
    obtain ⟨_, rfl⟩ := run_pure_eq_ok.1 h
    have hpool : st₁.pool = st.pool := by
      rw [EStateM.run, allocate] at hid
      split at hid <;> cases hid
      rfl
    rw [ih hids, hpool]

/-- Constants that stand in the instructions need no pool. -/
theorem Program.pool_lower_inline {p : Program} {st st' : Lowering} {code : List Instruction}
    (h : (Program.lower .inline p).run st = .ok code st') : st'.pool = st.pool := by
  induction p generalizing st code with
  | nil =>
    cases h
    rfl
  | cons stmt p ih =>
    obtain ⟨_, st₁, _, hs, hp, _⟩ := lower_cons_eq_ok.1 h
    rw [ih hp]
    cases stmt with
    | expression e => rw [Expr.lower_inline hs]
    | declaration d =>
      obtain ⟨_, st₂, ha, ⟨_, _, _, _, _, _, he, _⟩ | ⟨_, _, rfl⟩⟩ := Declaration.lower_eq_ok.1 hs
      · rw [Expr.lower_inline he, Lower.pool_allocateAll ha]
      · exact Lower.pool_allocateAll ha

end StackCompiler
