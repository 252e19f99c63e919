import Mathlib.Data.List.Forall2
import Mathlib.Data.List.Nodup
import StackCompiler.Proofs.Accesses
import StackCompiler.Proofs.Decoding

/-!
# Constants in a pool

Keeping constants in a pool changes nothing in the code of a program but the instructions that
load them. `Pools` goes through code whose constants stand in the instructions, interns each and
loads it by its number instead; lowering with a pool does what lowering without one and then
pooling does (`Program.pools_lower`). So whatever interning preserves holds of the pool of a
program, and `Program.generate_inline_of_pooled` collects what follows: the code agrees position
by position once numbers are looked up, the pool has every constant once and none that is not
loaded, numbers keep their meaning, and the bytes determine the code.
-/

namespace StackCompiler

namespace ConstantPool

variable {pool pool' : ConstantPool} {c : Constant} {d : Datum} {k : Nat}

/-- Interning leaves the pool as it is, or adds an entry behind all others. -/
theorem intern_eq_ok (h : pool.intern d = (.ok k, pool')) :
    pool' = pool ∨
      d ∉ pool.data ∧ pool.entries.length < capacity ∧ k = pool.entries.length ∧
        pool' = pool.push d := by
  rcases pool.intern_cases d with ⟨c, _, _, hi⟩ | ⟨hd, ⟨hl, hi⟩ | ⟨_, hi⟩⟩ <;> rw [hi] at h <;>
    cases h
  · exact .inl rfl
  · exact .inr ⟨hd, hl, rfl, rfl⟩

/-- An entry stays where it is. -/
theorem get?_of_prefix (h : pool.entries <+: pool'.entries) (hk : pool.get? k = some c) :
    pool'.get? k = some c := by
  obtain ⟨more, hmore⟩ := h
  have hlt : k < pool.entries.length := (List.getElem?_eq_some_iff.1 hk).1
  rw [get?, ← hmore, List.getElem?_append_left hlt]
  exact hk

theorem intern_prefix (h : pool.intern d = (.ok k, pool')) : pool.entries <+: pool'.entries := by
  rcases intern_eq_ok h with rfl | ⟨_, _, _, rfl⟩
  · exact List.prefix_rfl
  · exact List.prefix_append _ _

/-- The entries carry the numbers of their places, and no two are for the same float or string. -/
structure Tidy (pool : ConstantPool) : Prop extends pool.Numbered where
  nodup : pool.data.Nodup

theorem Tidy.empty : Tidy {} :=
  ⟨.empty, List.nodup_nil⟩

theorem Tidy.intern (hp : pool.Tidy) (h : pool.intern d = (.ok k, pool')) : pool'.Tidy := by
  rcases intern_eq_ok h with rfl | ⟨hd, hl, _, rfl⟩
  · exact hp
  · exact ⟨hp.push hl d, nodup_data_push hp.nodup hd⟩

theorem Tidy.lt_capacity (hp : pool.Tidy) (hk : pool.get? k = some c) : k < capacity :=
  Nat.lt_of_lt_of_le (List.getElem?_eq_some_iff.1 hk).1 hp.small

theorem getElem?_data (pool : ConstantPool) (k : Nat) :
    pool.data[k]? = (pool.get? k).map Constant.toDatum :=
  List.getElem?_map

/-- Interning what there is an entry for gives the number of that entry. -/
theorem Tidy.intern_get? (hp : pool.Tidy) (hk : pool.get? k = some c) :
    pool.intern c.toDatum = (.ok k, pool) := by
  rcases pool.intern_cases c.toDatum with ⟨c', hc', hd, hi⟩ | ⟨hd, _⟩
  · obtain ⟨j, hj⟩ := List.getElem?_of_mem hc'
    have hsame : pool.data[j]? = pool.data[k]? := by
      rw [getElem?_data, getElem?_data, hk, get?, hj, Option.map_some, Option.map_some, hd]
    have hlt : j < pool.data.length := by
      rw [data, List.length_map]
      exact (List.getElem?_eq_some_iff.1 hj).1
    rw [hi, hp.index_eq hj, (List.getElem?_inj hlt hp.nodup).1 hsame]
  · exact absurd (List.mem_map_of_mem (List.mem_of_getElem? hk)) hd

end ConstantPool

/-- Whether the instruction loads a float or a string, from itself or from the pool. -/
def Opcode.isConstantLoad : Opcode → Bool
  | loadDouble | loadString | loadConstant => true
  | _ => false

/-- Loads the float or string from the instruction itself. -/
def Datum.inlineLoad (d : Datum) (comment : Option String) : Instruction :=
  ⟨d.tag.inlineOpcode, d.inlineOperands, comment⟩

/-- Loads the constant with the number `k` from the pool. -/
def Instruction.pooledLoad (k : Nat) (comment : Option String) : Instruction :=
  ⟨.loadConstant, Bytes.ofNat 2 k, comment⟩

/-- The second instruction does with the pool what the first one does without: it is the same, or
it loads by number, at two bytes, the constant that the first one holds. -/
inductive Instruction.Resolves (pool : ConstantPool) : Instruction → Instruction → Prop where
  | same {i : Instruction} (h : i.opcode.isConstantLoad = false) : Resolves pool i i
  | constant {c : Constant} {k : Nat} (comment : Option String) (hk : k < ConstantPool.capacity)
    (h : pool.get? k = some c) : Resolves pool (c.inlineLoad comment) (.pooledLoad k comment)

/-- Going through code with the pool `pool`: constants are interned one after the other and loaded
by their numbers instead, and all other instructions stay. -/
inductive Pools : (pool : ConstantPool) → (code code' : List Instruction) →
    (pool' : ConstantPool) → Prop where
  | nil {pool : ConstantPool} : Pools pool [] [] pool
  | keep {pool pool' : ConstantPool} {i : Instruction} {code code' : List Instruction}
    (hi : i.opcode.isConstantLoad = false) (h : Pools pool code code' pool') :
    Pools pool (i :: code) (i :: code') pool'
  | intern {pool pool₁ pool' : ConstantPool} {d : Datum} {k : Nat} {comment : Option String}
    {code code' : List Instruction} (hd : pool.intern d = (.ok k, pool₁))
    (h : Pools pool₁ code code' pool') :
    Pools pool (d.inlineLoad comment :: code) (.pooledLoad k comment :: code') pool'

namespace Pools

variable {pool pool₁ pool' : ConstantPool} {code code₁ code' code₁' : List Instruction}

theorem append (h : Pools pool code code' pool₁) (h₁ : Pools pool₁ code₁ code₁' pool') :
    Pools pool (code ++ code₁) (code' ++ code₁') pool' := by
  induction h with
  | nil => exact h₁
  | keep hi _ ih => exact .keep hi (ih h₁)
  | intern hd _ ih => exact .intern hd (ih h₁)

theorem kept (h : ∀ i ∈ code, i.opcode.isConstantLoad = false) : Pools pool code code pool := by
  induction code with
  | nil => exact .nil
  | cons i code ih =>
    rw [List.forall_mem_cons] at h
    exact .keep h.1 (ih h.2)

/-- Instructions that load no constant may stand around others. -/
theorem around (h : Pools pool code code' pool') {before after : List Instruction}
    (hb : ∀ i ∈ before, i.opcode.isConstantLoad = false)
    (ha : ∀ i ∈ after, i.opcode.isConstantLoad = false) :
    Pools pool (before ++ code ++ after) (before ++ code' ++ after) pool' :=
  ((kept hb).append h).append (kept ha)

/-- Pooling can be stopped anywhere and be taken up again. -/
theorem exists_take (h : Pools pool code code' pool') (n : Nat) :
    ∃ pool₁, Pools pool (code.take n) (code'.take n) pool₁ ∧
      Pools pool₁ (code.drop n) (code'.drop n) pool' := by
  induction h generalizing n with
  | nil =>
    rw [List.take_nil, List.drop_nil]
    exact ⟨_, .nil, .nil⟩
  | @keep pool pool' i code code' hi h ih =>
    cases n with
    | zero => exact ⟨pool, .nil, .keep hi h⟩
    | succ n =>
      obtain ⟨pool₁, hbefore, hafter⟩ := ih n
      exact ⟨pool₁, .keep hi hbefore, hafter⟩
  | @intern pool _ pool' d k comment code code' hd h ih =>
    cases n with
    | zero => exact ⟨pool, .nil, .intern hd h⟩
    | succ n =>
      obtain ⟨pool₁, hbefore, hafter⟩ := ih n
      exact ⟨pool₁, .intern hd hbefore, hafter⟩

theorem pool_prefix (h : Pools pool code code' pool') : pool.entries <+: pool'.entries := by
  induction h with
  | nil => exact List.prefix_rfl
  | keep _ _ ih => exact ih
  | intern hd _ ih => exact (ConstantPool.intern_prefix hd).trans ih

theorem tidy (h : Pools pool code code' pool') (hp : pool.Tidy) : pool'.Tidy := by
  induction h with
  | nil => exact hp
  | keep _ _ ih => exact ih hp
  | intern hd _ ih => exact ih (hp.intern hd)

/-- Once it is complete, the pool resolves every number in the code. -/
theorem resolves (h : Pools pool code code' pool') (hp : pool.Tidy) :
    List.Forall₂ (Instruction.Resolves pool') code code' := by
  induction h with
  | nil => exact .nil
  | keep hi _ ih => exact .cons (.same hi) (ih hp)
  | intern hd h ih =>
    have hget := hp.get?_intern hd
    have hlast := ConstantPool.get?_of_prefix h.pool_prefix hget
    exact .cons (.constant _ ((hp.intern hd).lt_capacity hget) hlast) (ih (hp.intern hd))

/-- Every entry that was not there before is loaded. -/
theorem exists_load (h : Pools pool code code' pool') (hp : pool.Tidy) {k : Nat} {c : Constant}
    (hk : pool'.get? k = some c) :
    pool.get? k = some c ∨
      ∃ i ∈ code', i.opcode = .loadConstant ∧ Bytes.toNat i.operands = k := by
  induction h with
  | nil => exact .inl hk
  | keep _ _ ih =>
    rcases ih hp hk with h | ⟨i, hi, hload⟩
    · exact .inl h
    · exact .inr ⟨i, List.mem_cons_of_mem _ hi, hload⟩
  | @intern pool pool₁ _ d j comment code code' hd h ih =>
    rcases ih (hp.intern hd) hk with hk₁ | ⟨i, hi, hload⟩
    · by_cases hkj : k = j
      · -- The load that was just added is of the entry `k`.
        have hsmall : j < ConstantPool.capacity :=
          (hp.intern hd).lt_capacity (hp.get?_intern hd)
        refine .inr ⟨.pooledLoad j comment, List.mem_cons_self, rfl, ?_⟩
        rw [Instruction.pooledLoad, Bytes.toNat_ofNat hsmall, hkj]
      · rcases ConstantPool.intern_eq_ok hd with rfl | ⟨_, _, rfl, rfl⟩
        · exact .inl hk₁
        · left
          have hlt : k < (pool.push d).entries.length := (List.getElem?_eq_some_iff.1 hk₁).1
          rw [ConstantPool.push, List.length_append, List.length_singleton] at hlt
          rwa [ConstantPool.get?, ConstantPool.push,
            List.getElem?_append_left (by omega)] at hk₁
    · exact .inr ⟨i, List.mem_cons_of_mem _ hi, hload⟩

end Pools

theorem Instruction.isConstantLoad_ofInteger (value : Int) (comment : Option String) :
    (ofInteger value comment).opcode.isConstantLoad = false := by
  rw [ofInteger, immediate]
  repeat' split
  all_goals rfl

/-- A literal is lowered without a pool as it is with one, before pooling. -/
theorem Literal.pools_lower {value : Literal} {st st' st₀ : Lowering} {i : Instruction}
    (h : (value.lower .pooled).run st = .ok i st') :
    ∃ i₀, (value.lower .inline).run st₀ = .ok i₀ st₀ ∧ Pools st.pool [i₀] [i] st'.pool := by
  have hconstant : ∀ {d : Datum} {comment : String},
      (d.lower .pooled comment).run st = .ok i st' →
        Pools st.pool [d.inlineLoad (some comment)] [i] st'.pool := by
    intro d comment h
    obtain ⟨k, st₁, hk, hi⟩ := run_bind_eq_ok.1 h
    obtain ⟨rfl, rfl⟩ := run_pure_eq_ok.1 hi
    rw [EStateM.run, Lower.intern] at hk
    split at hk
    · rename_i hintern
      cases hk
      exact .intern hintern .nil
    · cases hk
  cases value with
  | integer _ | char _ | null =>
    obtain ⟨rfl, rfl⟩ := run_pure_eq_ok.1 h
    exact ⟨_, rfl, .keep (Instruction.isConstantLoad_ofInteger _ _) .nil⟩
  | float x => exact ⟨_, rfl, hconstant h⟩
  | string s => exact ⟨_, rfl, hconstant h⟩

theorem UnaryOp.isConstantLoad_around (op : UnaryOp) :
    (∀ i ∈ op.around.1, i.opcode.isConstantLoad = false) ∧
      ∀ i ∈ op.around.2, i.opcode.isConstantLoad = false := by
  cases op <;> decide

theorem Pools.assembled {pool pool' : ConstantPool} {code code' : List Instruction}
    (h : Pools pool code code' pool') (op : AssignOp) (slot : Slot) (name : String) :
    Pools pool (op.assembled slot name code) (op.assembled slot name code') pool' := by
  cases op with
  | plain => exact h.append (.kept (List.forall_mem_singleton.2 rfl))
  | compound op =>
    have hload : ∀ i ∈ [slot.load name], i.opcode.isConstantLoad = false :=
      List.forall_mem_singleton.2 rfl
    refine h.around hload ?_
    exact List.forall_mem_cons.2 ⟨rfl, List.forall_mem_singleton.2 rfl⟩

namespace Expr

mutual

/-- An expression is lowered without a pool as it is with one, before pooling. -/
theorem pools_lower {e : Expr} {st st' st₀ : Lowering} {code : List Instruction}
    (h : (e.lower .pooled).run st = .ok code st') (hs : st₀.slots = st.slots) :
    ∃ code₀, (e.lower .inline).run st₀ = .ok code₀ st₀ ∧ Pools st.pool code₀ code st'.pool := by
  cases e with
  | literal value range =>
    obtain ⟨i, hi, rfl⟩ := lower_literal_eq_ok.1 h
    obtain ⟨i₀, hi₀, hp⟩ := Literal.pools_lower hi
    exact ⟨[i₀], lower_literal_eq_ok.2 ⟨i₀, hi₀, rfl⟩, hp⟩
  | ident id =>
    obtain ⟨slot, hslot, rfl, rfl⟩ := lower_ident_eq_ok.1 h
    exact ⟨_, lower_ident_eq_ok.2 ⟨slot, hs ▸ hslot, rfl, rfl⟩,
      .kept (List.forall_mem_singleton.2 rfl)⟩
  | update op leading target range =>
    obtain ⟨slot, hslot, rfl, rfl⟩ := lower_update_eq_ok.1 h
    refine ⟨_, lower_update_eq_ok.2 ⟨slot, hs ▸ hslot, rfl, rfl⟩, .kept ?_⟩
    simp only [List.forall_mem_cons, Instruction.isConstantLoad_ofInteger]
    exact ⟨rfl, trivial, rfl, rfl, List.forall_mem_nil _⟩
  | binary op l r range =>
    obtain ⟨cl, st₁, cr, hl, hr, rfl⟩ := lower_binary_eq_ok.1 h
    obtain ⟨cl₀, hl₀, hpl⟩ := pools_lower hl hs
    obtain ⟨cr₀, hr₀, hpr⟩ := pools_lower hr (hs.trans (slots_lower hl).symm)
    exact ⟨_, lower_binary_eq_ok.2 ⟨cl₀, st₀, cr₀, hl₀, hr₀, rfl⟩,
      (hpl.append hpr).append (.kept (List.forall_mem_singleton.2 rfl))⟩
  | unary op e range =>
    obtain ⟨ce, he, rfl⟩ := lower_unary_eq_ok.1 h
    obtain ⟨ce₀, he₀, hpe⟩ := pools_lower he hs
    obtain ⟨hbefore, hafter⟩ := op.isConstantLoad_around
    exact ⟨_, lower_unary_eq_ok.2 ⟨ce₀, he₀, rfl⟩, hpe.around hbefore hafter⟩
  | assign op target value range =>
    obtain ⟨slot, cv, hslot, hv, rfl⟩ := lower_assign_eq_ok.1 h
    obtain ⟨cv₀, hv₀, hpv⟩ := pools_lower hv hs
    exact ⟨_, lower_assign_eq_ok.2 ⟨slot, cv₀, hs ▸ hslot, hv₀, rfl⟩,
      hpv.assembled op slot target.name⟩
  | sequence items range =>
    rw [lower] at h ⊢
    exact pools_lowerAll h hs
  | array items range =>
    obtain ⟨hlen, ci, hi, rfl⟩ := lower_array_eq_ok.1 h
    obtain ⟨ci₀, hi₀, hpi⟩ := pools_lowerAll hi hs
    exact ⟨_, lower_array_eq_ok.2 ⟨hlen, ci₀, hi₀, rfl⟩, .keep rfl hpi⟩
  | index base position range =>
    obtain ⟨cb, st₁, cp, hb, hp, rfl⟩ := lower_index_eq_ok.1 h
    obtain ⟨cb₀, hb₀, hpb⟩ := pools_lower hb hs
    obtain ⟨cp₀, hp₀, hpp⟩ := pools_lower hp (hs.trans (slots_lower hb).symm)
    exact ⟨_, lower_index_eq_ok.2 ⟨cb₀, st₀, cp₀, hb₀, hp₀, rfl⟩,
      (hpb.append hpp).append (.kept (List.forall_mem_singleton.2 rfl))⟩

theorem pools_lowerAll {es : List Expr} {st st' st₀ : Lowering} {code : List Instruction}
    (h : (lowerAll .pooled es).run st = .ok code st') (hs : st₀.slots = st.slots) :
    ∃ code₀, (lowerAll .inline es).run st₀ = .ok code₀ st₀ ∧
      Pools st.pool code₀ code st'.pool := by
  cases es with
  | nil =>
    cases h
    exact ⟨[], rfl, .nil⟩
  | cons e es =>
    obtain ⟨ce, st₁, ces, he, hes, rfl⟩ := lowerAll_cons_eq_ok.1 h
    obtain ⟨ce₀, he₀, hpe⟩ := pools_lower he hs
    obtain ⟨ces₀, hes₀, hpes⟩ := pools_lowerAll hes (hs.trans (slots_lower he).symm)
    exact ⟨_, lowerAll_cons_eq_ok.2 ⟨ce₀, st₀, ces₀, he₀, hes₀, rfl⟩, hpe.append hpes⟩

end

end Expr

/-- Which slots names get does not depend on the pool. -/
theorem Lower.allocateAll_congr {storage : Storage} {ids : List Ident} {slots : List Slot}
    {st st' st₀ : Lowering} (h : (ids.mapM (allocate storage)).run st = .ok slots st')
    (hs : st₀.slots = st.slots) :
    (ids.mapM (allocate storage)).run st₀ = .ok slots { st₀ with slots := st'.slots } := by
  induction ids generalizing st st₀ slots with
  | nil =>
    cases h
    rw [← hs]
    rfl
  | cons id ids ih =>
    rw [List.mapM_cons] at h ⊢
    obtain ⟨slot, st₁, hid, h⟩ := run_bind_eq_ok.1 h
    obtain ⟨rest, st₂, hids, h⟩ := run_bind_eq_ok.1 h
    obtain ⟨rfl, rfl⟩ := run_pure_eq_ok.1 h
    have hid₀ : (allocate storage id).run st₀ = .ok slot { st₀ with slots := st₁.slots } := by
      rw [EStateM.run, allocate] at hid ⊢
      rw [hs]
      split at hid <;> cases hid
      rfl
    exact run_bind_eq_ok.2 ⟨slot, _, hid₀, run_bind_eq_ok.2 ⟨rest, _, ih hids rfl, rfl⟩⟩

theorem isConstantLoad_copies (first : String × Slot) (others : List (String × Slot)) :
    ∀ i ∈ copies first others, i.opcode.isConstantLoad = false := by
  induction others with
  | nil => exact List.forall_mem_nil _
  | cons other others ih => exact List.forall_mem_cons.2 ⟨rfl, List.forall_mem_cons.2 ⟨rfl, ih⟩⟩

theorem Statement.pools_lower {stmt : Statement} {st st' st₀ : Lowering} {code : List Instruction}
    (h : (stmt.lower .pooled).run st = .ok code st') (hs : st₀.slots = st.slots) :
    ∃ code₀, (stmt.lower .inline).run st₀ = .ok code₀ { st₀ with slots := st'.slots } ∧
      Pools st.pool code₀ code st'.pool := by
  cases stmt with
  | expression e =>
    rw [Expr.slots_lower h, ← hs]
    exact Expr.pools_lower h hs
  | declaration d =>
    obtain ⟨slots, st₁, ha, hcase⟩ := Declaration.lower_eq_ok.1 h
    have ha₀ := Lower.allocateAll_congr ha hs
    rw [← Lower.pool_allocateAll ha]
    rcases hcase with ⟨e, first, others, ce, he, hz, hl, rfl⟩ | ⟨hd, rfl, rfl⟩
    · have hs₁ : ({ st₀ with slots := st₁.slots } : Lowering).slots = st₁.slots := rfl
      obtain ⟨ce₀, hl₀, hp⟩ := Expr.pools_lower hl hs₁
      rw [Expr.slots_lower hl]
      refine ⟨_, Declaration.lower_eq_ok.2
        ⟨slots, _, ha₀, .inl ⟨e, first, others, ce₀, he, hz, hl₀, rfl⟩⟩, hp.append (.keep rfl ?_)⟩
      exact .kept (isConstantLoad_copies first others)
    · exact ⟨[], Declaration.lower_eq_ok.2 ⟨slots, _, ha₀, .inr ⟨hd, rfl, rfl⟩⟩, .nil⟩

namespace Program

/-- A program is lowered without a pool as it is with one, before pooling, and its names get the
same slots. -/
theorem pools_lower {p : Program} {st st' st₀ : Lowering} {code : List Instruction}
    (h : (p.lower .pooled).run st = .ok code st') (hs : st₀.slots = st.slots) :
    ∃ code₀, (p.lower .inline).run st₀ = .ok code₀ { st₀ with slots := st'.slots } ∧
      Pools st.pool code₀ code st'.pool := by
  induction p generalizing st st₀ code with
  | nil =>
    cases h
    rw [← hs]
    exact ⟨[], rfl, .nil⟩
  | cons stmt p ih =>
    obtain ⟨cs, st₁, cp, hstmt, hp, rfl⟩ := lower_cons_eq_ok.1 h
    obtain ⟨cs₀, hstmt₀, hps⟩ := Statement.pools_lower hstmt hs
    have hs₁ : ({ st₀ with slots := st₁.slots } : Lowering).slots = st₁.slots := rfl
    obtain ⟨cp₀, hp₀, hpp⟩ := ih hp hs₁
    exact ⟨_, lower_cons_eq_ok.2 ⟨cs₀, _, cp₀, hstmt₀, hp₀, rfl⟩, hps.append hpp⟩

/-- With a pool, every operand has the fixed width of its instruction. -/
theorem width?_lower_pooled {p : Program} {st st' : Lowering} {code : List Instruction}
    (h : (p.lower .pooled).run st = .ok code st') :
    ∀ i ∈ code, i.opcode.width? = some i.operands.length := by
  have hexpr : ∀ {e : Expr} {st st' : Lowering} {code : List Instruction},
      (e.lower .pooled).run st = .ok code st' →
        ∀ i ∈ code, i.opcode.width? = some i.operands.length := by
    intro e st st' code h i hi
    exact ((Expr.loadsStrings_lower h).fixed i hi).resolve_right fun ⟨_, hs, _⟩ => by cases hs
  induction p generalizing st code with
  | nil =>
    cases h
    exact List.forall_mem_nil _
  | cons stmt p ih =>
    obtain ⟨cs, st₁, cp, hstmt, hp, rfl⟩ := lower_cons_eq_ok.1 h
    refine List.forall_mem_append.2 ⟨?_, ih hp⟩
    cases stmt with
    | expression e => exact hexpr hstmt
    | declaration d =>
      obtain ⟨_, _, _, ⟨_, first, others, _, _, _, hl, rfl⟩ | ⟨_, rfl, _⟩⟩ :=
        Declaration.lower_eq_ok.1 hstmt
      · exact List.forall_mem_append.2 ⟨hexpr hl, List.forall_mem_cons.2
          ⟨first.2.width?_store first.1, width?_copies first others⟩⟩
      · exact List.forall_mem_nil _

theorem generate_eq_ok {mode : ConstantMode} {p : Program} {slots slots' : SlotTable}
    {b : Bytecode} :
    p.generate mode slots = (.ok b, slots') ↔
      (p.lower mode).run { slots } = .ok b.code ⟨slots', b.constants⟩ := by
  rw [generate, Assembly.generate]
  dsimp only
  split
  · rename_i code st hrun
    rw [hrun]
    obtain ⟨slots₁, pool⟩ := st
    obtain ⟨constants, code'⟩ := b
    simp only [Prod.mk.injEq, Except.ok.injEq, Bytecode.mk.injEq, List.nil_append,
      EStateM.Result.ok.injEq, Lowering.mk.injEq]
    grind
  · rename_i hrun
    rw [hrun]
    simp

end Program

/-- Code whose operands have fixed widths is determined by its bytes. -/
theorem bare_eq_of_encode_eq {code code' : List Instruction}
    (h : ∀ i ∈ code, i.opcode.width? = some i.operands.length)
    (h' : ∀ i ∈ code', i.opcode.width? = some i.operands.length)
    (heq : code.flatMap Instruction.encode = code'.flatMap Instruction.encode) :
    code.map Instruction.bare = code'.map Instruction.bare := by
  have hdecode : ∀ {code : List Instruction},
      (∀ i ∈ code, i.opcode.width? = some i.operands.length) →
        decode? (code.flatMap Instruction.encode) = some (code.map Instruction.bare) := by
    intro code h
    refine (decode?_encode_iff ⟨{}, code⟩).2 fun i hi => ?_
    rw [Opcode.Frames, h i hi]
  have hcode := hdecode h
  rw [heq, hdecode h', Option.some.injEq] at hcode
  exact hcode.symm

/-- A program that has code with a pool has code without one, for the same slots. The two agree
position by position: where one loads a constant that it holds, the other loads it by number, and
the pool resolves the number. The pool has no two entries for the same float or string. Each entry
carries the number of its place, which interning it again gives and which some instruction loads;
the pool after any part of the code is kept in the pool of the whole. With a pool all operands have
fixed widths, by which the bytes determine the code. -/
theorem Program.generate_inline_of_pooled {p : Program} {slots slots' : SlotTable} {b : Bytecode}
    (h : p.generate .pooled slots = (.ok b, slots')) :
    ∃ code, p.generate .inline slots = (.ok ⟨{}, code⟩, slots') ∧
      List.Forall₂ (Instruction.Resolves b.constants) code b.code ∧
      (b.constants.entries.map Constant.toDatum).Nodup ∧
      (∀ k c, b.constants.get? k = some c →
        c.index = k ∧ b.constants.intern c.toDatum = (.ok k, b.constants) ∧
          ∃ i ∈ b.code, i.opcode = .loadConstant ∧ Bytes.toNat i.operands = k) ∧
      (∀ n, ∃ pool, Pools {} (code.take n) (b.code.take n) pool ∧
        ∀ k c, pool.get? k = some c → b.constants.get? k = some c) ∧
      (∀ i ∈ b.code, i.opcode.width? = some i.operands.length) ∧
      decode? b.encode = some (b.code.map Instruction.bare) ∧
      ∀ code' : List Instruction, (∀ i ∈ code', i.opcode.width? = some i.operands.length) →
        code'.flatMap Instruction.encode = b.encode →
        code'.map Instruction.bare = b.code.map Instruction.bare := by
  have hrun := generate_eq_ok.1 h
  have hs : ({ slots } : Lowering).slots = slots := rfl
  obtain ⟨code, hinline, hpools⟩ := pools_lower hrun hs
  have htidy := hpools.tidy .empty
  have hwidths := width?_lower_pooled hrun
  refine ⟨code, generate_eq_ok.2 hinline, hpools.resolves .empty, htidy.nodup, ?_, ?_, hwidths, ?_,
    fun code' hcode' => bare_eq_of_encode_eq hcode' hwidths⟩
  · intro k c hk
    refine ⟨htidy.index_eq hk, htidy.intern_get? hk, ?_⟩
    refine (hpools.exists_load .empty hk).resolve_left fun hempty => ?_
    cases hempty
  · intro n
    obtain ⟨pool, hbefore, hafter⟩ := hpools.exists_take n
    exact ⟨pool, hbefore, fun _ _ => ConstantPool.get?_of_prefix hafter.pool_prefix⟩
  · refine (decode?_encode_iff b).2 fun i hi => ?_
    rw [Opcode.Frames, hwidths i hi]

set_option maxRecDepth 20000 in
/-- Of `"ab"; "c"; "ab";` the pool has two entries, and the first one is loaded twice. -/
theorem Program.generate_inline_of_pooled_repeated :
    let literal (s : String) : Statement := .expression (.literal (.string s) ⟨1, 0, 4⟩)
    let p : Program := [literal "ab", literal "c", literal "ab"]
    ∃ b code slots, p.generate .pooled {} = (.ok b, slots) ∧
      b.constants = ⟨[⟨⟨.string, [0x61, 0x62]⟩, 0⟩, ⟨⟨.string, [0x63]⟩, 1⟩]⟩ ∧
      b.encode = [0x08, 0, 0, 0x08, 1, 0, 0x08, 0, 0] ∧
      p.generate .inline {} = (.ok ⟨{}, code⟩, slots) ∧
      List.Forall₂ (Instruction.Resolves b.constants) code b.code := by
  intro literal p
  have hpooled : p.generate .pooled {} =
      (.ok ⟨⟨[⟨⟨.string, [0x61, 0x62]⟩, 0⟩, ⟨⟨.string, [0x63]⟩, 1⟩]⟩,
        [⟨.loadConstant, [0, 0], some "\"ab\""⟩, ⟨.loadConstant, [1, 0], some "\"c\""⟩,
          ⟨.loadConstant, [0, 0], some "\"ab\""⟩]⟩, {}) := by
    rfl
  obtain ⟨code, hinline, hresolves, _⟩ := generate_inline_of_pooled hpooled
  exact ⟨_, code, _, hpooled, rfl, rfl, hinline, hresolves⟩

end StackCompiler
