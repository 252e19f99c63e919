import Mathlib.Data.Finset.Card
import Mathlib.Data.Finset.Dedup
import StackCompiler.Proofs.Lowered

/-!
# What lowering may run into

`Program.Exceeds` lists the limits of the machine that a program may exceed, each with the defect
that lowering then meets. An expression whose names all have slots meets no other defect
(`Expr.lower_ends`), because the pool never has an entry twice and has none that is not a constant
of the program. Whatever is interned, an entry carries the number of its place
(`ConstantPool.Numbered.intern`), and the number that interning gives leads to what was interned
(`ConstantPool.Numbered.get?_intern`).
-/

namespace StackCompiler

/-- The program is too large for the machine when `taken` slots are taken before it: it declares
too many names, has too many different constants for the pool, or has an array whose length takes
more than 32 bits. -/
inductive Program.Exceeds (p : Program) (mode : ConstantMode) (taken : Nat) : Defect → Prop where
  | slots (h : SlotTable.capacity < taken + p.names.length) : Exceeds p mode taken .outOfSlots
  | pool (hm : mode = .pooled) (h : ConstantPool.capacity < p.constants.toFinset.card) :
    Exceeds p mode taken .poolFull
  | array {items : List Expr} {range : Range} (h : .array items range ∈ p.nodes)
    (hi : 1 <<< 32 ≤ items.length) : Exceeds p mode taken .arrayTooLong

/-- What holds of the value and the state after a step that succeeds, and of the defect that
another one meets. -/
inductive Lower.Ends {α : Type} (P : α → Lowering → Prop) (D : Defect → Prop) :
    EStateM.Result Defect Lowering α → Prop where
  | ok {a : α} {st : Lowering} (h : P a st) : Ends P D (.ok a st)
  | error {d : Defect} {st : Lowering} (h : D d) : Ends P D (.error d st)

theorem Lower.Ends.imp {α : Type} {P Q : α → Lowering → Prop} {D : Defect → Prop}
    {r : EStateM.Result Defect Lowering α} (h : Ends P D r)
    (hPQ : ∀ a st, r = .ok a st → P a st → Q a st) : Ends Q D r := by
  cases h with
  | ok h => exact .ok (hPQ _ _ rfl h)
  | error h => exact .error h

theorem Lower.Ends.bind {α β : Type} {P : α → Lowering → Prop} {Q : β → Lowering → Prop}
    {D : Defect → Prop} {x : Lower α} {f : α → Lower β} {st : Lowering}
    (hx : Ends P D (x.run st))
    (hf : ∀ a st', x.run st = .ok a st' → P a st' → Ends Q D ((f a).run st')) :
    Ends Q D ((x >>= f).run st) := by
  rw [EStateM.run_bind]
  cases h : x.run st with
  | ok a st' =>
    rw [h] at hx
    obtain ⟨ha⟩ := hx
    exact hf a st' h ha
  | error d st' =>
    rw [h] at hx
    cases hx with
    | error hd => exact .error hd

namespace ConstantPool

/-- The floats and strings that there are entries for. -/
def data (pool : ConstantPool) : List Datum :=
  pool.entries.map Constant.toDatum

/-- The pool with an entry more, which gets the next number. -/
def push (pool : ConstantPool) (d : Datum) : ConstantPool :=
  ⟨pool.entries ++ [⟨d, pool.entries.length⟩]⟩

theorem data_push (pool : ConstantPool) (d : Datum) : (pool.push d).data = pool.data ++ [d] := by
  rw [data, push, List.map_append]
  rfl

theorem nodup_data_push {pool : ConstantPool} {d : Datum} (h : pool.data.Nodup)
    (hn : d ∉ pool.data) : (pool.push d).data.Nodup := by
  rw [data_push, List.nodup_append]
  refine ⟨h, List.nodup_singleton d, ?_⟩
  rintro x hx y hy rfl
  rw [List.mem_singleton] at hy
  exact hn (hy ▸ hx)

/-- A datum in the pool is found, and any other is added behind all entries if there is room. -/
theorem intern_cases (pool : ConstantPool) (d : Datum) :
    (∃ c ∈ pool.entries, c.toDatum = d ∧ pool.intern d = (.ok c.index, pool)) ∨
      d ∉ pool.data ∧
        (pool.entries.length < capacity ∧
            pool.intern d = (.ok pool.entries.length, pool.push d) ∨
          ¬ pool.entries.length < capacity ∧ pool.intern d = (.error .poolFull, pool)) := by
  rw [intern]
  cases hc : pool.entries.find? (·.toDatum = d) with
  | some c =>
    have heq := List.find?_some hc
    rw [decide_eq_true_eq] at heq
    exact .inl ⟨c, List.mem_of_find?_eq_some hc, heq, rfl⟩
  | none =>
    refine .inr ⟨fun hmem => ?_, ?_⟩
    · obtain ⟨c, hmem, heq⟩ := List.mem_map.1 hmem
      exact List.find?_eq_none.1 hc c hmem (decide_eq_true heq)
    · by_cases hl : pool.entries.length < capacity
      · exact .inl ⟨hl, if_pos hl⟩
      · exact .inr ⟨hl, if_neg hl⟩

/-- Every entry carries the number of its place, and numbers take two bytes. -/
structure Numbered (pool : ConstantPool) : Prop where
  index_eq : ∀ {k c}, pool.get? k = some c → c.index = k
  small : pool.entries.length ≤ capacity

theorem Numbered.empty : Numbered {} where
  index_eq h := by cases h
  small := Nat.zero_le _

theorem Numbered.push {pool : ConstantPool} (h : pool.Numbered)
    (hl : pool.entries.length < capacity) (d : Datum) : (pool.push d).Numbered where
  index_eq {k c} hk := by
    rw [get?, ConstantPool.push] at hk
    rcases Nat.lt_or_ge k pool.entries.length with hlt | hge
    · rw [List.getElem?_append_left hlt] at hk
      exact h.index_eq hk
    · obtain ⟨hlt, -⟩ := List.getElem?_eq_some_iff.1 hk
      rw [List.length_append, List.length_singleton] at hlt
      obtain rfl : k = pool.entries.length := by omega
      rw [List.getElem?_concat_length] at hk
      cases hk
      rfl
  small := by
    rw [ConstantPool.push, List.length_append, List.length_singleton]
    exact hl

/-- Interning keeps the numbers of all entries, and a new one gets that of its place. -/
theorem Numbered.intern {pool : ConstantPool} (h : pool.Numbered) (d : Datum) :
    (pool.intern d).2.Numbered := by
  rcases pool.intern_cases d with ⟨c, _, _, hi⟩ | ⟨_, ⟨hl, hi⟩ | ⟨_, hi⟩⟩ <;> rw [hi]
  · exact h
  · exact h.push hl d
  · exact h

/-- The number that interning gives is that of an entry for the datum. -/
theorem Numbered.get?_intern {pool pool' : ConstantPool} (h : pool.Numbered) {d : Datum} {k : Nat}
    (hi : pool.intern d = (.ok k, pool')) : pool'.get? k = some ⟨d, k⟩ := by
  rcases pool.intern_cases d with ⟨c, hc, rfl, hi'⟩ | ⟨_, ⟨_, hi'⟩ | ⟨_, hi'⟩⟩ <;>
    rw [hi'] at hi <;> cases hi
  · obtain ⟨j, hj⟩ := List.getElem?_of_mem hc
    rw [h.index_eq hj]
    exact hj.trans (by rw [← h.index_eq hj])
  · exact List.getElem?_concat_length

/-- The entries are for different floats and strings out of `ds`. -/
structure DrawnFrom (pool : ConstantPool) (ds : List Datum) : Prop where
  nodup : pool.data.Nodup
  mem : ∀ d ∈ pool.data, d ∈ ds

theorem drawnFrom_empty (ds : List Datum) : DrawnFrom {} ds :=
  ⟨List.nodup_nil, nofun⟩

/-- A full pool with a datum missing takes more of them than it has room for. -/
theorem DrawnFrom.capacity_lt {pool : ConstantPool} {ds : List Datum} {d : Datum}
    (h : pool.DrawnFrom ds) (hd : d ∈ ds) (hn : d ∉ pool.data)
    (hl : ¬ pool.entries.length < capacity) : capacity < ds.toFinset.card := by
  -- The entries and `d` are different and out of `ds`, one more than the pool has room for.
  have hsub : (d :: pool.data).toFinset ⊆ ds.toFinset := by
    intro x hx
    rw [List.mem_toFinset, List.mem_cons] at hx
    rw [List.mem_toFinset]
    rcases hx with rfl | hx
    · exact hd
    · exact h.mem x hx
  have hcard := Finset.card_le_card hsub
  rw [List.toFinset_card_of_nodup (List.nodup_cons.2 ⟨hn, h.nodup⟩), List.length_cons, data,
    List.length_map] at hcard
  omega

theorem DrawnFrom.push {pool : ConstantPool} {ds : List Datum} {d : Datum}
    (h : pool.DrawnFrom ds) (hd : d ∈ ds) (hn : d ∉ pool.data) : (pool.push d).DrawnFrom ds where
  nodup := nodup_data_push h.nodup hn
  mem x hx := by
    rw [data_push, List.mem_append, List.mem_singleton] at hx
    rcases hx with hx | rfl
    · exact h.mem x hx
    · exact hd

end ConstantPool

section Lowering

variable {p : Program} {mode : ConstantMode} {taken : Nat} {st : Lowering}

theorem Datum.lower_ends {d : Datum} {comment : String} (hd : d ∈ p.constants)
    (hst : st.pool.DrawnFrom p.constants) :
    Lower.Ends (fun _ st' => st'.pool.DrawnFrom p.constants) (p.Exceeds mode taken)
      ((d.lower mode comment).run st) := by
  cases mode with
  | inline => exact .ok hst
  | pooled =>
    rw [Datum.lower]
    refine Lower.Ends.bind (P := fun _ st' => st'.pool.DrawnFrom p.constants) ?_
      fun _ _ _ h => .ok h
    rw [EStateM.run, Lower.intern]
    rcases st.pool.intern_cases d with ⟨_, _, _, hi⟩ | ⟨hn, ⟨_, hi⟩ | ⟨hl, hi⟩⟩ <;> rw [hi]
    · exact .ok hst
    · exact .ok (hst.push hd hn)
    · exact .error (.pool rfl (hst.capacity_lt hd hn hl))

theorem Literal.lower_ends {value : Literal} (hd : ∀ d, value.constant? = some d → d ∈ p.constants)
    (hst : st.pool.DrawnFrom p.constants) :
    Lower.Ends (fun _ st' => st'.pool.DrawnFrom p.constants) (p.Exceeds mode taken)
      ((value.lower mode).run st) := by
  cases value with
  | integer _ | char _ | null => exact .ok hst
  | float _ | string _ => exact Datum.lower_ends (hd _ rfl) hst

theorem Lower.slot_ends {id : Ident} (hid : (st.slots.get? id.name).isSome)
    (hst : st.pool.DrawnFrom p.constants) :
    Lower.Ends (fun _ st' => st'.pool.DrawnFrom p.constants) (p.Exceeds mode taken)
      ((Lower.slot id).run st) := by
  obtain ⟨slot, hs⟩ := Option.isSome_iff_exists.1 hid
  rw [Lower.run_slot_eq_ok.2 ⟨hs, rfl⟩]
  exact .ok hst

/-- The nodes are nodes of the program, and the names in them have slots. -/
def Placed (p : Program) (slots : SlotTable) (ns : List Expr) : Prop :=
  ∀ n ∈ ns, n ∈ p.nodes ∧ ∀ id, n.subject? = some id → (slots.get? id.name).isSome

theorem placed_append {slots : SlotTable} {ns ns' : List Expr} :
    Placed p slots (ns ++ ns') ↔ Placed p slots ns ∧ Placed p slots ns' :=
  List.forall_mem_append

theorem placed_cons {slots : SlotTable} {n : Expr} {ns : List Expr} :
    Placed p slots (n :: ns) ↔
      (n ∈ p.nodes ∧ ∀ id, n.subject? = some id → (slots.get? id.name).isSome) ∧
        Placed p slots ns :=
  List.forall_mem_cons

theorem mem_constants {e : Expr} {d : Datum} (he : e ∈ p.nodes) (hd : e.constantOf? = some d) :
    d ∈ p.constants :=
  List.mem_filterMap.2 ⟨e, he, hd⟩

namespace Expr

mutual

/-- An expression whose names have slots is lowered, unless the program exceeds a limit. -/
theorem lower_ends {e : Expr} {st : Lowering} (he : Placed p st.slots e.nodes)
    (hst : st.pool.DrawnFrom p.constants) :
    Lower.Ends (fun _ st' => st'.pool.DrawnFrom p.constants) (p.Exceeds mode taken)
      ((e.lower mode).run st) := by
  cases e with
  | literal value range =>
    rw [nodes, placed_cons] at he
    exact Lower.Ends.bind (Literal.lower_ends (fun _ hc => mem_constants he.1.1 hc) hst)
      fun _ _ _ h => .ok h
  | ident id =>
    rw [nodes, placed_cons] at he
    exact Lower.Ends.bind (Lower.slot_ends (he.1.2 id rfl) hst) fun _ _ _ h => .ok h
  | update op leading target range =>
    rw [nodes, placed_cons] at he
    exact Lower.Ends.bind (Lower.slot_ends (he.1.2 target rfl) hst) fun _ _ _ h => .ok h
  | binary op l r range =>
    rw [nodes, placed_cons, placed_append] at he
    refine Lower.Ends.bind (lower_ends he.2.1 hst) fun _ st₁ hl hst₁ => ?_
    rw [← slots_lower hl] at he
    exact Lower.Ends.bind (lower_ends he.2.2 hst₁) fun _ _ _ h => .ok h
  | unary op e range =>
    rw [nodes, placed_cons] at he
    exact Lower.Ends.bind (lower_ends he.2 hst) fun _ _ _ h => .ok h
  | assign op target value range =>
    rw [nodes, placed_cons] at he
    refine Lower.Ends.bind (Lower.slot_ends (he.1.2 target rfl) hst) fun _ st₁ hs hst₁ => ?_
    obtain ⟨_, rfl⟩ := Lower.run_slot_eq_ok.1 hs
    refine Lower.Ends.bind (lower_ends he.2 hst₁) fun _ _ _ h => ?_
    cases op <;> exact .ok h
  | sequence items range =>
    rw [nodes, placed_cons] at he
    rw [lower]
    exact lowerAll_ends he.2 hst
  | array items range =>
    rw [nodes, placed_cons] at he
    by_cases hlen : items.length < 1 <<< 32
    · rw [lower_array_of_lt hlen]
      exact Lower.Ends.bind (lowerAll_ends he.2 hst) fun _ _ _ h => .ok h
    · rw [Nat.not_lt] at hlen
      rw [lower_array_of_le hlen]
      exact .error (.array he.1.1 hlen)
  | index base position range =>
    rw [nodes, placed_cons, placed_append] at he
    refine Lower.Ends.bind (lower_ends he.2.1 hst) fun _ st₁ hb hst₁ => ?_
    rw [← slots_lower hb] at he
    exact Lower.Ends.bind (lower_ends he.2.2 hst₁) fun _ _ _ h => .ok h

theorem lowerAll_ends {es : List Expr} {st : Lowering} (hes : Placed p st.slots (nodesAll es))
    (hst : st.pool.DrawnFrom p.constants) :
    Lower.Ends (fun _ st' => st'.pool.DrawnFrom p.constants) (p.Exceeds mode taken)
      ((lowerAll mode es).run st) := by
  cases es with
  | nil => exact .ok hst
  | cons e es =>
    rw [nodesAll, placed_append] at hes
    refine Lower.Ends.bind (lower_ends hes.1 hst) fun _ st₁ he hst₁ => ?_
    rw [← slots_lower he] at hes
    exact Lower.Ends.bind (lowerAll_ends hes.2 hst₁) fun _ _ _ h => .ok h

end

end Expr

end Lowering

end StackCompiler
