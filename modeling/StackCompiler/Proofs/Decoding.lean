import Mathlib.Data.List.TakeWhile
import StackCompiler.Proofs.Sessions

/-!
# Code from its bytes

`decode?` reads instructions back from bytes. The code of an instruction says how long its operand
is, or, for a string, that it goes up to the first zero byte. So `decode?` accepts exactly the
bytes of instructions with such operands, and recovers them (`decode?_eq_some_iff`).

The operands of generated code have the right length, but the text of a string may hold the
character U+0000 and then ends too early: the code of a unit is recovered from its bytes exactly if
no string in it holds that character (`decode?_compile`), and two units with such strings may have
the same bytes and different code (`exists_compile_encode_eq`).
-/

namespace StackCompiler

namespace Opcode

theorem ofByte?_byte (op : Opcode) : ofByte? op.byte = some op := by
  cases op with
  | load storage | store storage => cases storage <;> rfl
  | binary op => cases op <;> rfl
  | loadImmediate8 | loadImmediate16 | loadImmediate32 | loadImmediate64 | loadDouble | loadString
  | loadArraySize | loadConstant | not | bitNot | loadElement | jump | jumpIfZero => rfl

theorem byte_of_ofByte? {b : UInt8} {op : Opcode} (h : ofByte? b = some op) : op.byte = b := by
  rw [ofByte?] at h
  simpa using List.find?_some h

/-- How many bytes the operand has; that of a string has no fixed width. -/
def width? : Opcode → Option Nat
  | binary _ | not | bitNot | loadElement => some 0
  | loadImmediate8 => some 1
  | loadImmediate16 | loadConstant | load _ | store _ => some 2
  | loadImmediate32 | loadArraySize | jump | jumpIfZero => some 4
  | loadImmediate64 | loadDouble => some 8
  | loadString => none

/-- The bytes are an operand of the instruction: as many as it takes, or those of a text and the
first zero byte after it. -/
def Frames (op : Opcode) (operand : List UInt8) : Prop :=
  match op.width? with
  | some n => operand.length = n
  | none => ∃ body, operand = body ++ [0] ∧ 0 ∉ body

/-- The operand at the front of the bytes, and the bytes after it. -/
def cut? (op : Opcode) (bytes : List UInt8) : Option (List UInt8 × List UInt8) :=
  match op.width? with
  | some n => if n ≤ bytes.length then some (bytes.take n, bytes.drop n) else none
  | none =>
    match bytes.dropWhile (· ≠ 0) with
    | [] => none
    | stop :: rest => some (bytes.takeWhile (· ≠ 0) ++ [stop], rest)

theorem cut?_of_width {op : Opcode} {n : Nat} (h : op.width? = some n)
    (bytes operand rest : List UInt8) :
    op.cut? bytes = some (operand, rest) ↔ bytes = operand ++ rest ∧ operand.length = n := by
  simp only [cut?, h]
  constructor
  · intro hcut
    split at hcut
    · rename_i hn
      cases hcut
      exact ⟨(List.take_append_drop n bytes).symm, List.length_take_of_le hn⟩
    · cases hcut
  · rintro ⟨rfl, rfl⟩
    rw [if_pos (by rw [List.length_append]; omega), List.take_left, List.drop_left]

theorem cut?_of_text {op : Opcode} (h : op.width? = none) (bytes operand rest : List UInt8) :
    op.cut? bytes = some (operand, rest) ↔
      bytes = operand ++ rest ∧ ∃ body, operand = body ++ [0] ∧ 0 ∉ body := by
  simp only [cut?, h]
  constructor
  · intro hcut
    split at hcut
    · cases hcut
    · rename_i stop _ hdrop
      cases hcut
      have hstop : stop = 0 := by
        have := List.head?_dropWhile_not (fun b : UInt8 => decide (b ≠ 0)) bytes
        rw [hdrop] at this
        simpa using this
      have hbytes : bytes.takeWhile (· ≠ 0) ++ stop :: rest = bytes := by
        rw [← hdrop, List.takeWhile_append_dropWhile]
      refine ⟨?_, _, by rw [hstop], fun hmem => ?_⟩
      · rw [List.append_assoc, List.singleton_append, hbytes]
      · simpa using List.mem_takeWhile_imp hmem
  · rintro ⟨rfl, body, rfl, hbody⟩
    have hall : ∀ b ∈ body, decide (b ≠ (0 : UInt8)) = true := by
      intro b hb
      rw [decide_eq_true_eq]
      rintro rfl
      exact hbody hb
    rw [List.append_assoc, List.dropWhile_append_of_pos hall, List.takeWhile_append_of_pos hall]
    simp

/-- An operand is found at the front of bytes exactly if it stands there. -/
theorem cut?_eq_some_iff {op : Opcode} {bytes operand rest : List UInt8} :
    op.cut? bytes = some (operand, rest) ↔ bytes = operand ++ rest ∧ op.Frames operand := by
  unfold Frames
  cases h : op.width? with
  | some n => exact cut?_of_width h bytes operand rest
  | none => exact cut?_of_text h bytes operand rest

theorem length_lt_of_cut? {op : Opcode} {bytes operand rest : List UInt8}
    (h : op.cut? bytes = some (operand, rest)) : rest.length < bytes.length + 1 := by
  rw [(cut?_eq_some_iff.1 h).1, List.length_append]
  omega

end Opcode

/-- The instruction without its comment. -/
def Instruction.bare (i : Instruction) : Instruction :=
  { i with comment := none }

/-- The instructions of bytes, without comments. -/
def decode? : List UInt8 → Option (List Instruction)
  | [] => some []
  | b :: bytes =>
    match Opcode.ofByte? b with
    | none => none
    | some op =>
      match h : op.cut? bytes with
      | none => none
      | some (operands, rest) =>
        have := Opcode.length_lt_of_cut? h
        (decode? rest).map (⟨op, operands, none⟩ :: ·)
termination_by bytes => bytes.length
decreasing_by exact this

/-- Bytes are read as instructions exactly if they are the bytes of these and every operand is
framed as its instruction says. -/
theorem decode?_eq_some_iff {bytes : List UInt8} {code : List Instruction} :
    decode? bytes = some code ↔
      bytes = code.flatMap Instruction.encode ∧
        ∀ i ∈ code, i.opcode.Frames i.operands ∧ i.comment = none := by
  fun_induction decode? bytes generalizing code with
  | case1 =>
    constructor
    · intro h
      cases h
      exact ⟨rfl, List.forall_mem_nil _⟩
    · rintro ⟨h, _⟩
      cases code with
      | nil => rfl
      | cons i code => cases h
  | case2 b bytes hb =>
    constructor
    · intro h
      cases h
    · rintro ⟨h, _⟩
      cases code with
      | nil => cases h
      | cons i code =>
        rw [List.flatMap_cons, Instruction.encode, List.cons_append, List.cons.injEq] at h
        rw [h.1, Opcode.ofByte?_byte] at hb
        cases hb
  | case3 b bytes op hb hcut =>
    constructor
    · intro h
      cases h
    · rintro ⟨h, hcode⟩
      cases code with
      | nil => cases h
      | cons i code =>
        rw [List.flatMap_cons, Instruction.encode, List.cons_append, List.cons.injEq] at h
        rw [h.1, Opcode.ofByte?_byte, Option.some.injEq] at hb
        have hi := (hcode i List.mem_cons_self).1
        rw [hb] at hi
        rw [Opcode.cut?_eq_some_iff.2 ⟨h.2, hi⟩] at hcut
        cases hcut
  | case4 b bytes op hb operands rest hcut _ ih =>
    obtain ⟨hbytes, hframes⟩ := Opcode.cut?_eq_some_iff.1 hcut
    rw [Option.map_eq_some_iff]
    constructor
    · rintro ⟨code, hcode, rfl⟩
      obtain ⟨hrest, hcode⟩ := ih.1 hcode
      refine ⟨?_, List.forall_mem_cons.2 ⟨⟨hframes, rfl⟩, hcode⟩⟩
      rw [hbytes, hrest, List.flatMap_cons, Instruction.encode, Opcode.byte_of_ofByte? hb]
      rfl
    · rintro ⟨h, hcode⟩
      cases code with
      | nil => cases h
      | cons i code =>
        rw [List.flatMap_cons, Instruction.encode, List.cons_append, List.cons.injEq] at h
        rw [h.1, Opcode.ofByte?_byte, Option.some.injEq] at hb
        rw [List.forall_mem_cons, hb] at hcode
        -- The operand that was cut off is the only one that can stand there.
        rw [Opcode.cut?_eq_some_iff.2 ⟨h.2, hcode.1.1⟩, Option.some.injEq, Prod.mk.injEq] at hcut
        refine ⟨code, ih.2 ⟨hcut.2.symm, hcode.2⟩, ?_⟩
        obtain ⟨op', operands', comment⟩ := i
        cases hb
        cases hcut.1
        cases hcode.1.2
        rfl

/-- The instructions are recovered from their bytes exactly if their operands are framed. -/
theorem decode?_encode_iff (b : Bytecode) :
    decode? b.encode = some (b.code.map Instruction.bare) ↔
      ∀ i ∈ b.code, i.opcode.Frames i.operands := by
  have hencode : b.encode = (b.code.map Instruction.bare).flatMap Instruction.encode := by
    rw [Bytecode.encode, List.flatMap_map]
    rfl
  rw [decode?_eq_some_iff, and_iff_right hencode, List.forall_mem_map]
  exact ⟨fun h i hi => (h i hi).1, fun h i hi => ⟨h i hi, rfl⟩⟩

theorem zero_mem_utf8EncodeChar {c : Char} : 0 ∈ String.utf8EncodeChar c ↔ c = '\x00' := by
  have hc : c = '\x00' ↔ c.val.toNat = 0 := by
    rw [Char.ext_iff, ← UInt32.toNat_inj]
    rfl
  rw [hc, String.utf8EncodeChar]
  -- All bytes of a character beyond U+007F have their highest bit set.
  repeat' split
  all_goals
    simp only [List.mem_cons, List.not_mem_nil, or_false, ← UInt8.toNat_inj, UInt8.toNat_ofNat',
      UInt8.toNat_zero]
    omega

theorem zero_mem_utf8Encode {s : String} : 0 ∈ Text.Utf8.encode s ↔ '\x00' ∈ s.toList := by
  simp only [Text.Utf8.encode, List.mem_flatMap, zero_mem_utf8EncodeChar]
  exact ⟨fun ⟨c, hc, h⟩ => h ▸ hc, fun h => ⟨_, h, rfl⟩⟩

/-- The text of a string literal. -/
def Expr.string? : Expr → Option String
  | literal (.string s) _ => some s
  | _ => none

/-- The strings in an expression, from left to right. -/
def Expr.strings (e : Expr) : List String :=
  e.nodes.filterMap string?

/-- The strings that stand in the instructions themselves. -/
def ConstantMode.inlined (mode : ConstantMode) (strings : List String) : List String :=
  match mode with
  | inline => strings
  | pooled => []

theorem ConstantMode.inlined_append (mode : ConstantMode) (ss ss' : List String) :
    mode.inlined (ss ++ ss') = mode.inlined ss ++ mode.inlined ss' := by
  cases mode <;> rfl

/-- The instruction loads the string. -/
def Instruction.LoadsString (s : String) (i : Instruction) : Prop :=
  i.opcode = .loadString ∧ i.operands = Text.Utf8.encode s ++ [0]

/-- A loaded string is framed exactly if it does not hold the character U+0000. -/
theorem Instruction.LoadsString.frames_iff {s : String} {i : Instruction} (h : i.LoadsString s) :
    i.opcode.Frames i.operands ↔ '\x00' ∉ s.toList := by
  rw [h.1, h.2, ← zero_mem_utf8Encode]
  constructor
  · rintro ⟨body, hbody, hzero⟩
    rw [List.append_cancel_right hbody]
    exact hzero
  · intro hzero
    exact ⟨_, rfl, hzero⟩

/-- The code loads the strings, and the operands of all other instructions have their fixed
widths. -/
structure LoadsStrings (ss : List String) (code : List Instruction) : Prop where
  fixed : ∀ i ∈ code, i.opcode.width? = some i.operands.length ∨ ∃ s ∈ ss, i.LoadsString s
  loaded : ∀ s ∈ ss, ∃ i ∈ code, i.LoadsString s

namespace LoadsStrings

variable {ss ss' : List String} {code code' : List Instruction}

theorem nil (h : ∀ i ∈ code, i.opcode.width? = some i.operands.length) : LoadsStrings [] code :=
  ⟨fun i hi => .inl (h i hi), nofun⟩

theorem append (h : LoadsStrings ss code) (h' : LoadsStrings ss' code') :
    LoadsStrings (ss ++ ss') (code ++ code') where
  fixed i hi := by
    rcases List.mem_append.1 hi with hi | hi
    · exact (h.fixed i hi).imp_right fun ⟨s, hs, hl⟩ => ⟨s, List.mem_append_left _ hs, hl⟩
    · exact (h'.fixed i hi).imp_right fun ⟨s, hs, hl⟩ => ⟨s, List.mem_append_right _ hs, hl⟩
  loaded s hs := by
    rcases List.mem_append.1 hs with hs | hs
    · obtain ⟨i, hi, hl⟩ := h.loaded s hs
      exact ⟨i, List.mem_append_left _ hi, hl⟩
    · obtain ⟨i, hi, hl⟩ := h'.loaded s hs
      exact ⟨i, List.mem_append_right _ hi, hl⟩

/-- Instructions that load no string may stand around others. -/
theorem around (h : LoadsStrings ss code) (before after : List Instruction)
    (hb : ∀ i ∈ before, i.opcode.width? = some i.operands.length)
    (ha : ∀ i ∈ after, i.opcode.width? = some i.operands.length) :
    LoadsStrings ss (before ++ code ++ after) := by
  rw [← List.nil_append ss, ← List.append_nil ([] ++ ss)]
  exact ((nil hb).append h).append (nil ha)

/-- All operands are framed exactly if no loaded string holds the character U+0000. -/
theorem frames_iff (h : LoadsStrings ss code) :
    (∀ i ∈ code, i.opcode.Frames i.operands) ↔ ∀ s ∈ ss, '\x00' ∉ s.toList := by
  constructor
  · intro hframes s hs
    obtain ⟨i, hi, hl⟩ := h.loaded s hs
    exact hl.frames_iff.1 (hframes i hi)
  · intro hzero i hi
    rcases h.fixed i hi with hw | ⟨s, hs, hl⟩
    · rw [Opcode.Frames, hw]
    · exact hl.frames_iff.2 (hzero s hs)

end LoadsStrings

theorem Instruction.width?_ofInteger (value : Int) (comment : Option String) :
    (ofInteger value comment).opcode.width? = some (ofInteger value comment).operands.length := by
  rw [ofInteger, immediate]
  repeat' split
  all_goals simp [Opcode.width?]

theorem Slot.width?_load (slot : Slot) (name : String) :
    (slot.load name).opcode.width? = some (slot.load name).operands.length := by
  simp [load, Opcode.width?]

theorem Slot.width?_store (slot : Slot) (name : String) :
    (slot.store name).opcode.width? = some (slot.store name).operands.length := by
  simp [store, Opcode.width?]

/-- A literal is loaded by one instruction, which holds its text if it is a string and constants
are not kept in a pool. -/
theorem Literal.loadsStrings_lower {mode : ConstantMode} {value : Literal} {range : Range}
    {st st' : Lowering} {i : Instruction} (h : (value.lower mode).run st = .ok i st') :
    LoadsStrings (mode.inlined (Expr.literal value range).strings) [i] := by
  have hpooled : ∀ {d : Datum} {comment : String},
      (d.lower .pooled comment).run st = .ok i st' → LoadsStrings [] [i] := by
    intro d comment h
    obtain ⟨index, _, _, hi⟩ := run_bind_eq_ok.1 h
    rw [(run_pure_eq_ok.1 hi).1]
    exact .nil (List.forall_mem_singleton.2 (by simp [Opcode.width?]))
  cases value with
  | integer _ | char _ | null =>
    rw [lower, run_pure_eq_ok] at h
    rw [h.1]
    cases mode <;> exact .nil (List.forall_mem_singleton.2 (Instruction.width?_ofInteger _ _))
  | float x =>
    cases mode with
    | inline =>
      cases h
      refine .nil (List.forall_mem_singleton.2 ?_)
      simp [ConstantTag.inlineOpcode, Opcode.width?, Datum.inlineOperands, Bytes.ofFloat]
    | pooled => exact hpooled h
  | string s =>
    cases mode with
    | inline =>
      cases h
      exact ⟨List.forall_mem_singleton.2 (.inr ⟨s, List.mem_singleton_self s, rfl, rfl⟩),
        List.forall_mem_singleton.2 ⟨_, List.mem_singleton_self _, rfl, rfl⟩⟩
    | pooled => exact hpooled h

theorem UnaryOp.width?_around (op : UnaryOp) :
    (∀ i ∈ op.around.1, i.opcode.width? = some i.operands.length) ∧
      ∀ i ∈ op.around.2, i.opcode.width? = some i.operands.length := by
  cases op <;> decide

theorem LoadsStrings.assembled {ss : List String} {code : List Instruction}
    (h : LoadsStrings ss code) (op : AssignOp) (slot : Slot) (name : String) :
    LoadsStrings ss (op.assembled slot name code) := by
  have hstore := slot.width?_store name
  cases op with
  | plain => exact h.around [] _ (List.forall_mem_nil _) (List.forall_mem_singleton.2 hstore)
  | compound op =>
    exact h.around [slot.load name] _ (List.forall_mem_singleton.2 (slot.width?_load name))
      (List.forall_mem_cons.2 ⟨rfl, List.forall_mem_singleton.2 hstore⟩)

namespace Expr

mutual

/-- The code of an expression loads its strings. -/
theorem loadsStrings_lower {mode : ConstantMode} {e : Expr} {st st' : Lowering}
    {code : List Instruction} (h : (e.lower mode).run st = .ok code st') :
    LoadsStrings (mode.inlined e.strings) code := by
  cases e with
  | literal value range =>
    obtain ⟨i, hi, rfl⟩ := lower_literal_eq_ok.1 h
    exact Literal.loadsStrings_lower hi
  | ident id =>
    obtain ⟨slot, _, rfl, _⟩ := lower_ident_eq_ok.1 h
    cases mode <;> exact .nil (List.forall_mem_singleton.2 (slot.width?_load id.name))
  | update op leading target range =>
    obtain ⟨slot, _, _, rfl⟩ := lower_update_eq_ok.1 h
    have hcode : ∀ i ∈ [slot.load target.name, .ofInteger 1, ⟨.binary op.binary, [], none⟩,
        slot.store target.name], i.opcode.width? = some i.operands.length := by
      simp only [List.forall_mem_cons, Instruction.width?_ofInteger, Slot.width?_load,
        Slot.width?_store]
      exact ⟨trivial, trivial, rfl, trivial, List.forall_mem_nil _⟩
    cases mode <;> exact .nil hcode
  | binary op l r range =>
    obtain ⟨_, st₁, _, hl, hr, rfl⟩ := lower_binary_eq_ok.1 h
    rw [strings, nodes, List.filterMap_cons_none rfl, List.filterMap_append, mode.inlined_append]
    exact ((loadsStrings_lower hl).append (loadsStrings_lower hr)).around [] _
      (List.forall_mem_nil _) (List.forall_mem_singleton.2 rfl)
  | unary op e range =>
    obtain ⟨_, he, rfl⟩ := lower_unary_eq_ok.1 h
    rw [strings, nodes, List.filterMap_cons_none rfl]
    exact (loadsStrings_lower he).around _ _ op.width?_around.1 op.width?_around.2
  | assign op target value range =>
    obtain ⟨slot, _, _, hv, rfl⟩ := lower_assign_eq_ok.1 h
    rw [strings, nodes, List.filterMap_cons_none rfl]
    exact (loadsStrings_lower hv).assembled op slot target.name
  | sequence items range =>
    rw [lower] at h
    rw [strings, nodes, List.filterMap_cons_none rfl]
    exact loadsStrings_lowerAll h
  | array items range =>
    obtain ⟨_, _, hi, rfl⟩ := lower_array_eq_ok.1 h
    rw [strings, nodes, List.filterMap_cons_none rfl, ← List.append_nil (_ :: _)]
    refine (loadsStrings_lowerAll hi).around [_] [] (List.forall_mem_singleton.2 ?_)
      (List.forall_mem_nil _)
    simp [Opcode.width?]
  | index base position range =>
    obtain ⟨_, st₁, _, hb, hp, rfl⟩ := lower_index_eq_ok.1 h
    rw [strings, nodes, List.filterMap_cons_none rfl, List.filterMap_append, mode.inlined_append]
    exact ((loadsStrings_lower hb).append (loadsStrings_lower hp)).around [] _
      (List.forall_mem_nil _) (List.forall_mem_singleton.2 rfl)

theorem loadsStrings_lowerAll {mode : ConstantMode} {es : List Expr} {st st' : Lowering}
    {code : List Instruction} (h : (lowerAll mode es).run st = .ok code st') :
    LoadsStrings (mode.inlined ((nodesAll es).filterMap string?)) code := by
  cases es with
  | nil =>
    cases h
    cases mode <;> exact .nil (List.forall_mem_nil _)
  | cons e es =>
    obtain ⟨_, st₁, _, he, hes, rfl⟩ := lowerAll_cons_eq_ok.1 h
    rw [nodesAll, List.filterMap_append, mode.inlined_append]
    exact (loadsStrings_lower he).append (loadsStrings_lowerAll hes)

end

end Expr

theorem width?_copies (first : String × Slot) (others : List (String × Slot)) :
    ∀ i ∈ copies first others, i.opcode.width? = some i.operands.length := by
  induction others with
  | nil => exact List.forall_mem_nil _
  | cons other others ih =>
    exact List.forall_mem_cons.2 ⟨first.2.width?_load first.1,
      List.forall_mem_cons.2 ⟨other.2.width?_store other.1, ih⟩⟩

theorem Statement.loadsStrings_lower {mode : ConstantMode} {stmt : Statement} {st st' : Lowering}
    {code : List Instruction} (h : (stmt.lower mode).run st = .ok code st')
    (hn : ∀ d, stmt = .declaration d → d.names ≠ []) :
    LoadsStrings (mode.inlined (stmt.evaluated.flatMap Expr.strings)) code := by
  cases stmt with
  | expression e =>
    rw [evaluated, List.flatMap_singleton]
    exact Expr.loadsStrings_lower h
  | declaration d =>
    rw [evaluated]
    obtain ⟨slots, st₁, _, ⟨e, first, others, ce, he, _, hl, rfl⟩ | ⟨hd, rfl, _⟩⟩ :=
      Declaration.lower_eq_ok.1 h
    · rw [he, Option.toList_some, List.flatMap_singleton]
      exact (Expr.loadsStrings_lower hl).around [] _ (List.forall_mem_nil _)
        (List.forall_mem_cons.2 ⟨first.2.width?_store first.1, width?_copies first others⟩)
    · rw [hd.resolve_right (hn d rfl)]
      cases mode <;> exact .nil (List.forall_mem_nil _)

namespace Program

/-- The strings that a program evaluates, in order. -/
def strings (p : Program) : List String :=
  p.nodes.filterMap Expr.string?

/-- The code of a program in which every declaration declares a name loads its strings. -/
theorem loadsStrings_lower {mode : ConstantMode} {p : Program} {st st' : Lowering}
    {code : List Instruction} (h : (p.lower mode).run st = .ok code st')
    (hn : ∀ d, .declaration d ∈ p → d.names ≠ []) :
    LoadsStrings (mode.inlined p.strings) code := by
  induction p generalizing st code with
  | nil =>
    cases h
    cases mode <;> exact .nil (List.forall_mem_nil _)
  | cons stmt p ih =>
    obtain ⟨_, st₁, _, hs, hp, rfl⟩ := lower_cons_eq_ok.1 h
    rw [strings, nodes_cons, List.filterMap_append, List.filterMap_flatMap, mode.inlined_append]
    refine (Statement.loadsStrings_lower hs fun d hd => hn d ?_).append (ih hp fun d hd => hn d ?_)
    · rw [hd]
      exact List.mem_cons_self
    · exact List.mem_cons_of_mem _ hd

end Program

/-- The code of a unit is recovered from its bytes exactly if no string in it holds the character
U+0000. So the bytes determine the code of units without that character. -/
theorem decode?_compile {source source' : String} {c c' : Compilation}
    (h : compile {} source = .ok c) (h' : compile {} source' = .ok c') :
    (decode? c.bytecode.encode = some (c.bytecode.code.map Instruction.bare) ↔
        ∀ s ∈ c.program.strings, '\x00' ∉ s.toList) ∧
      ((∀ s ∈ c.program.strings ++ c'.program.strings, '\x00' ∉ s.toList) →
        c.bytecode.encode = c'.bytecode.encode →
        c.bytecode.code.map Instruction.bare = c'.bytecode.code.map Instruction.bare) := by
  have hframes : ∀ {source c}, compile {} source = .ok c →
      (decode? c.bytecode.encode = some (c.bytecode.code.map Instruction.bare) ↔
        ∀ s ∈ c.program.strings, '\x00' ∉ s.toList) := by
    intro source c h
    obtain ⟨p, s, hs, hp⟩ := Session.compile_eq_ok h
    obtain ⟨_, code, st, _, hl, rfl, _⟩ := Session.compileProgram_eq_ok hp
    rw [decode?_encode_iff]
    exact (Program.loadsStrings_lower hl fun d hd =>
      Program.names_ne_nil_of_ofSource hs hd).frames_iff
  refine ⟨hframes h, fun hzero hbytes => ?_⟩
  rw [List.forall_mem_append] at hzero
  have hc := (hframes h).2 hzero.1
  have hc' := (hframes h').2 hzero.2
  rw [hbytes, hc', Option.some.injEq] at hc
  exact hc.symm

theorem decode?_compile_greeting :
    ∃ c c', compile {} "const s: str = \"ab\"; s;" = .ok c ∧
      compile {} "const t: str = \"ab\"; t;" = .ok c' ∧
      (∀ s ∈ c.program.strings ++ c'.program.strings, '\x00' ∉ s.toList) ∧
      c.bytecode.encode = c'.bytecode.encode ∧
      decode? c.bytecode.encode = some (c.bytecode.code.map Instruction.bare) ∧
      c.bytecode.code.map Instruction.bare = c'.bytecode.code.map Instruction.bare := by
  have hrun : (compile {} "const s: str = \"ab\"; s;").map (fun c =>
      (c.program.strings, c.bytecode.encode)) =
      .ok (["ab"], [0x06, 0x61, 0x62, 0, 0x2A, 0, 0, 0x1A, 0, 0]) := by
    decide +kernel
  have hrun' : (compile {} "const t: str = \"ab\"; t;").map (fun c =>
      (c.program.strings, c.bytecode.encode)) =
      .ok (["ab"], [0x06, 0x61, 0x62, 0, 0x2A, 0, 0, 0x1A, 0, 0]) := by
    decide +kernel
  obtain ⟨c, hc, hcode⟩ := map_eq_ok.1 hrun
  obtain ⟨c', hc', hcode'⟩ := map_eq_ok.1 hrun'
  rw [Prod.mk.injEq] at hcode hcode'
  have hstrings : ∀ s ∈ c.program.strings ++ c'.program.strings, '\x00' ∉ s.toList := by
    rw [hcode.1, hcode'.1]
    decide
  have hbytes := hcode.2.trans hcode'.2.symm
  obtain ⟨hdecode, hequal⟩ := decode?_compile hc hc'
  exact ⟨c, c', hc, hc', hstrings, hbytes,
    hdecode.2 (List.forall_mem_append.1 hstrings).1, hequal hstrings hbytes⟩

/-- A string that holds the character U+0000 may have the bytes of a shorter one and of
instructions after it. -/
theorem exists_compile_encode_eq :
    ∃ c c', compile {} "\"a\x00\x01\";" = .ok c ∧ compile {} "\"a\"; 0;" = .ok c' ∧
      c.bytecode.encode = c'.bytecode.encode ∧
      c.bytecode.code.map Instruction.bare ≠ c'.bytecode.code.map Instruction.bare := by
  have hrun : (compile {} "\"a\x00\x01\";").map (fun c => c.bytecode.code) =
      .ok [⟨.loadString, [0x61, 0, 1, 0], some "\"a\\0\\u\x7b1\x7d\""⟩] := by
    decide +kernel
  have hrun' : (compile {} "\"a\"; 0;").map (fun c => c.bytecode.code) =
      .ok [⟨.loadString, [0x61, 0], some "\"a\""⟩, ⟨.loadImmediate8, [0], none⟩] := by
    decide +kernel
  obtain ⟨c, hc, hcode⟩ := map_eq_ok.1 hrun
  obtain ⟨c', hc', hcode'⟩ := map_eq_ok.1 hrun'
  refine ⟨c, c', hc, hc', ?_, ?_⟩
  · rw [Bytecode.encode, Bytecode.encode, hcode, hcode']
    decide
  · rw [hcode, hcode']
    decide

end StackCompiler
