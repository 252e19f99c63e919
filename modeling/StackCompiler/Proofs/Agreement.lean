import StackCompiler.Proofs.Checked
import StackCompiler.Proofs.Limits

/-!
# Names and slots agree

The check and the lowering of a program keep track of its names apart from each other: one in an
environment, the other in a slot table. `Agree` says that both know the same names, in the order
of their declaration, and `Program.lower_ends` that a program which passes its check is lowered
and keeps them in agreement, unless it exceeds a limit.
-/

namespace StackCompiler

/-- The names bound in an environment with a single scope are those with slots. They are numbered
in the given order, and their storage is that of their types. -/
structure Agree (env : Environment) (table : SlotTable) (names : List String) : Prop where
  outer : env.outer = []
  nodup : names.Nodup
  size : table.size = names.length
  small : names.length ≤ SlotTable.capacity
  bound : ∀ x v, env.get? x = some v →
    ∃ i, names[i]? = some x ∧ table.get? x = some ⟨i, .ofTy v.ty⟩
  free : ∀ x, env.get? x = none → x ∉ names ∧ table.get? x = none

namespace Agree

theorem empty : Agree {} {} [] where
  outer := rfl
  nodup := List.nodup_nil
  size := rfl
  small := Nat.zero_le _
  bound := nofun
  free _ _ := ⟨List.not_mem_nil, rfl⟩

variable {env env' : Environment} {table : SlotTable} {names : List String}

theorem isSome_get? (h : Agree env table names) {x : String} (hx : (env.get? x).isSome) :
    (table.get? x).isSome := by
  obtain ⟨v, hv⟩ := Option.isSome_iff_exists.1 hx
  obtain ⟨i, _, ht⟩ := h.bound x v hv
  rw [ht]
  rfl

theorem isSome_of_get? (h : Agree env table names) {x : String} (hx : (table.get? x).isSome) :
    (env.get? x).isSome := by
  cases hv : env.get? x with
  | some v => rfl
  | none =>
    rw [(h.free x hv).2] at hx
    cases hx

/-- Slots are numbered by the order of the names. -/
theorem index_iff (h : Agree env table names) (x : String) (i : Nat) :
    (table.get? x).map Slot.index = some i ↔ names[i]? = some x := by
  cases hv : env.get? x with
  | some v =>
    obtain ⟨j, hj, ht⟩ := h.bound x v hv
    rw [ht, Option.map_some, Option.some.injEq]
    constructor
    · rintro rfl
      exact hj
    · intro hi
      exact (List.getElem?_inj (List.getElem?_eq_some_iff.1 hj).1 h.nodup).1 (hj.trans hi.symm)
  | none =>
    obtain ⟨hn, ht⟩ := h.free x hv
    rw [ht]
    constructor
    · nofun
    · intro hi
      exact absurd (List.mem_of_getElem? hi) hn

theorem index_lt (h : Agree env table names) {x : String} {slot : Slot}
    (hs : table.get? x = some slot) : slot.index < SlotTable.capacity := by
  have hi := (h.index_iff x slot.index).1 (by rw [hs]; rfl)
  exact Nat.lt_of_lt_of_le (List.getElem?_eq_some_iff.1 hi).1 h.small

theorem markAll (h : Agree env table names) (xs : List String) :
    Agree (env.markAll xs) table names where
  outer := by simp [h.outer]
  nodup := h.nodup
  size := h.size
  small := h.small
  bound x v hv := by
    rw [Environment.get?_markAll] at hv
    obtain ⟨w, hw, rfl⟩ := Option.map_eq_some_iff.1 hv
    exact h.bound x w hw
  free x hx := by
    rw [Environment.get?_markAll, Option.map_eq_none_iff] at hx
    exact h.free x hx

/-- A name that is bound and given the next slot is the last of all. -/
theorem define {x : String} {v : Variable} (h : Agree env table names)
    (hd : env.define x v = (.ok (), env')) (hsmall : names.length < SlotTable.capacity) :
    Agree env' ⟨table.slots.insert x ⟨table.size, .ofTy v.ty⟩⟩ (names ++ [x]) := by
  have hx := h.free x (Environment.get?_eq_none_of_define h.outer hd)
  refine ⟨?_, ?_, ?_, ?_, ?_, ?_⟩
  · rw [Environment.outer_define hd, h.outer]
  · rw [List.nodup_append]
    refine ⟨h.nodup, List.nodup_singleton x, ?_⟩
    rintro y hy z hz rfl
    rw [List.mem_singleton] at hz
    exact hx.1 (hz ▸ hy)
  · rw [SlotTable.size_insert _ hx.2, h.size, List.length_append, List.length_singleton]
  · rw [List.length_append, List.length_singleton]
    omega
  · intro y w hw
    rw [Environment.get?_define hd] at hw
    rw [SlotTable.get?_insert]
    by_cases hy : y = x
    · rw [if_pos hy, Option.some.injEq] at hw
      rw [if_pos hy, h.size]
      exact ⟨names.length, by simp [hy], by rw [hw]⟩
    · rw [if_neg hy] at hw
      rw [if_neg hy]
      obtain ⟨i, hi, ht⟩ := h.bound y w hw
      exact ⟨i, by rw [List.getElem?_append_left (List.getElem?_eq_some_iff.1 hi).1, hi], ht⟩
  · intro y hw
    rw [Environment.get?_define hd] at hw
    by_cases hy : y = x
    · rw [if_pos hy] at hw
      cases hw
    · rw [if_neg hy] at hw
      obtain ⟨hn, ht⟩ := h.free y hw
      rw [SlotTable.get?_insert, if_neg hy, List.mem_append, List.mem_singleton]
      exact ⟨by simp [hn, hy], ht⟩

end Agree

section Lowering

variable {p : Program} {mode : ConstantMode} {taken : Nat} {names : List String} {st : Lowering}

/-- A new name gets the next slot, unless all slots are taken. -/
theorem Agree.allocate_ends {env env' : Environment} {id : Ident} {v : Variable}
    (h : Agree env st.slots names) (hd : env.define id.name v = (.ok (), env'))
    (hp : names.length + 1 ≤ taken + p.names.length) :
    Lower.Ends (fun _ st' => Agree env' st'.slots (names ++ [id.name]) ∧ st'.pool = st.pool)
      (p.Exceeds mode taken) ((Lower.allocate (.ofTy v.ty) id).run st) := by
  have hn := (h.free id.name (Environment.get?_eq_none_of_define h.outer hd)).2
  rw [EStateM.run, Lower.allocate, SlotTable.allocate, hn]
  by_cases hs : st.slots.size < SlotTable.capacity
  · simp only [if_pos hs]
    rw [h.size] at hs
    exact .ok ⟨h.define hd hs, rfl⟩
  · simp only [if_neg hs]
    rw [h.size] at hs
    exact .error (.slots (by omega))

theorem Agree.allocateAll_ends {env env' : Environment} {ids : List Ident} {v : Variable}
    (h : Agree env st.slots names) (hd : env.defineAll? (ids.map Ident.name) v = some env')
    (hp : names.length + ids.length ≤ taken + p.names.length) :
    Lower.Ends
      (fun _ st' => Agree env' st'.slots (names ++ ids.map Ident.name) ∧ st'.pool = st.pool)
      (p.Exceeds mode taken) ((ids.mapM (Lower.allocate (.ofTy v.ty))).run st) := by
  induction ids generalizing env names st with
  | nil =>
    cases hd
    rw [List.map_nil, List.append_nil]
    exact .ok ⟨h, rfl⟩
  | cons id ids ih =>
    rw [List.map_cons, Environment.defineAll?_cons_eq_some] at hd
    obtain ⟨env₁, hid, hids⟩ := hd
    rw [List.length_cons] at hp
    rw [List.mapM_cons, List.map_cons, List.append_cons]
    refine Lower.Ends.bind (h.allocate_ends hid (by omega)) fun _ st₁ _ h₁ => ?_
    rw [← h₁.2]
    refine Lower.Ends.bind (ih h₁.1 hids ?_) fun _ _ _ h₂ => .ok h₂
    rw [List.length_append, List.length_singleton]
    omega

/-- The names in a checked expression have slots. -/
theorem Agree.placed {e : Expr} {s s' : Checking} {t : Ty} {env : Environment} {table : SlotTable}
    (h : Agree env table names) (hc : e.check.run s = .ok t s')
    (henv : ∀ x, (s.environment.get? x).isSome → (env.get? x).isSome)
    (hn : ∀ n ∈ e.nodes, n ∈ p.nodes) : Placed p table e.nodes :=
  fun n hmem => ⟨hn n hmem,
    fun _ hid => h.isSome_get? (henv _ (Expr.isSome_get?_of_check hc hmem hid))⟩

theorem Declaration.lower_ends {d : Declaration} {s s' : Checking} {u : Unit}
    (hc : d.check.run s = .ok u s') (h : Agree s.environment st.slots names)
    (hst : st.pool.DrawnFrom p.constants)
    (hp : names.length + d.names.length ≤ taken + p.names.length)
    (hn : ∀ e ∈ d.initializer, ∀ n ∈ e.nodes, n ∈ p.nodes) :
    Lower.Ends
      (fun _ st' => Agree s'.environment st'.slots (names ++ d.names.map Ident.name) ∧
        st'.pool.DrawnFrom p.constants)
      (p.Exceeds mode taken) ((d.lower mode).run st) := by
  have henv := environment_check hc
  obtain ⟨s₁, s₂, hl, he, _, _⟩ := check_eq_ok.1 hc
  rw [Declaration.lower]
  refine Lower.Ends.bind ((h.markAll _).allocateAll_ends henv hp) fun slots st₁ _ h₁ => ?_
  rw [← h₁.2] at hst
  split
  · rename_i e first others hi hz
    obtain ⟨t, he, _⟩ := he e hi
    -- The initial value is checked before the names are bound, but lowered after they have slots.
    refine Lower.Ends.bind (Expr.lower_ends (h₁.1.placed he ?_ (hn e hi)) hst)
      fun _ st₂ hl hst₂ => .ok ⟨?_, hst₂⟩
    · intro x hx
      rw [Expr.environment_checkLengths hl, Environment.isSome_get?_markAll] at hx
      rw [Environment.get?_defineAll henv]
      split
      · rfl
      · rwa [Environment.isSome_get?_markAll]
    · rw [Expr.slots_lower hl]
      exact h₁.1
  · exact .ok ⟨h₁.1, hst⟩

theorem Statement.lower_ends {stmt : Statement} {s s' : Checking} {u : Unit}
    (hc : stmt.check.run s = .ok u s') (h : Agree s.environment st.slots names)
    (hst : st.pool.DrawnFrom p.constants)
    (hp : names.length + stmt.names.length ≤ taken + p.names.length)
    (hn : ∀ n ∈ stmt.evaluated.flatMap Expr.nodes, n ∈ p.nodes) :
    Lower.Ends
      (fun _ st' => Agree s'.environment st'.slots (names ++ stmt.names) ∧
        st'.pool.DrawnFrom p.constants)
      (p.Exceeds mode taken) ((stmt.lower mode).run st) := by
  cases stmt with
  | expression e =>
    obtain ⟨t, s₁, he, hs⟩ := run_bind_eq_ok.1 hc
    cases hs
    rw [Statement.names, List.append_nil, Expr.environment_check he]
    rw [Statement.evaluated, List.flatMap_singleton] at hn
    refine (Expr.lower_ends (h.placed he (fun _ hx => hx) hn) hst).imp fun _ st' hl hst' => ?_
    rw [Expr.slots_lower hl]
    exact ⟨h.markAll _, hst'⟩
  | declaration d =>
    rw [Statement.names, List.length_map] at hp
    refine Declaration.lower_ends hc h hst hp fun e he n hmem => hn n ?_
    rw [Statement.evaluated, Option.mem_def.1 he]
    exact List.mem_flatMap.2 ⟨e, List.mem_singleton_self e, hmem⟩

/-- A program that passes its check is lowered, unless it exceeds a limit. Its statements are the
last ones of the program `p`. -/
theorem Program.lower_ends {q : Program} {s s' : Checking} {u : Unit}
    (hc : q.check.run s = .ok u s') (h : Agree s.environment st.slots names)
    (hst : st.pool.DrawnFrom p.constants)
    (hp : names.length + q.names.length ≤ taken + p.names.length)
    (hn : ∀ n ∈ q.nodes, n ∈ p.nodes) :
    Lower.Ends (fun _ st' => Agree s'.environment st'.slots (names ++ q.names))
      (p.Exceeds mode taken) ((q.lower mode).run st) := by
  induction q generalizing s names st with
  | nil =>
    cases hc
    rw [Program.names, List.flatMap_nil, List.append_nil]
    exact .ok h
  | cons stmt q ih =>
    obtain ⟨_, s₁, hs, hq⟩ := run_bind_eq_ok.1 hc
    rw [Program.names_cons, List.length_append] at hp
    rw [Program.nodes_cons, List.forall_mem_append] at hn
    rw [Program.lower, Program.names_cons, ← List.append_assoc]
    refine Lower.Ends.bind (Statement.lower_ends hs h hst (by omega) hn.1)
      fun _ st₁ _ h₁ => ?_
    refine Lower.Ends.bind (ih hq h₁.1 h₁.2 ?_ hn.2) fun _ _ _ h₂ => .ok h₂
    rw [List.length_append]
    omega

/-- A program that passes its check in an environment that agrees with the slots is lowered with
an empty pool, unless it exceeds a limit. -/
theorem Agree.lower_ends {env : Environment} {table : SlotTable} {q : Program} {s' : Checking}
    {u : Unit} (h : Agree env table names) (mode : ConstantMode)
    (hc : q.check.run { environment := env } = .ok u s') :
    Lower.Ends (fun _ st' => Agree s'.environment st'.slots (names ++ q.names))
      (q.Exceeds mode names.length) ((q.lower mode).run { slots := table }) :=
  Program.lower_ends hc h (ConstantPool.drawnFrom_empty _) (Nat.le_refl _) fun _ hn => hn

end Lowering

end StackCompiler
