import StackCompiler.Proofs.WellFormed

/-!
# Operators on the members of unions

`UnaryOp.Applies` and `BinaryOp.Applies` say to which types an operator applies, and these are the
types for which it has a result (`UnaryOp.isSome_result?_iff`, `BinaryOp.isSome_result?_iff`). An
operator that applies to unions applies to each of their members, with one exception: `!`, `&&` and
`||` ask no more of a type than not to be `null` itself, so they apply to a union that has `null`
among its members, but not to `null`.
-/

namespace StackCompiler

namespace Ty

variable {t m l r : Ty}

theorem allMembers_iff {p : Ty → Bool} :
    t.allMembers p ↔ t.members ≠ [] ∧ ∀ u ∈ t.members, p u := by
  rw [allMembers, Bool.and_eq_true, List.all_eq_true, Bool.not_eq_true', List.isEmpty_eq_false_iff]

/-- What all members are, each member is by itself. -/
theorem allMembers_of_mem {p : Kind → Bool} (hp : p .union = false)
    (h : t.allMembers fun u => p u.kind) (hm : m ∈ t.members) : m.allMembers fun u => p u.kind := by
  have hkind : p m.kind := (allMembers_iff.1 h).2 m hm
  have hunion : m.kind ≠ .union := by
    intro hu
    rw [hu, hp] at hkind
    cases hkind
  rw [allMembers_iff, members_of_kind_ne hunion]
  exact ⟨List.cons_ne_nil _ _, List.forall_mem_singleton.2 hkind⟩

theorem isInteger_of_mem (h : t.isInteger) (hm : m ∈ t.members) : m.isInteger :=
  allMembers_of_mem (p := (· == .integer)) rfl h hm

theorem isNumeric_of_mem (h : t.isNumeric) (hm : m ∈ t.members) : m.isNumeric :=
  allMembers_of_mem (p := fun k => k == .integer || k == .float) rfl h hm

theorem isNumeric_of_isInteger (h : t.isInteger) : t.isNumeric := by
  obtain ⟨hne, hall⟩ := allMembers_iff.1 h
  exact allMembers_iff.2 ⟨hne, fun u hu => Bool.or_eq_true_iff.2 (.inl (hall u hu))⟩

theorem isInteger_of_not_mayBeFloat (h : t.isNumeric) (hf : ¬ t.mayBeFloat) : t.isInteger := by
  obtain ⟨hne, hall⟩ := allMembers_iff.1 h
  refine allMembers_iff.2 ⟨hne, fun u hu => ?_⟩
  refine (Bool.or_eq_true_iff.1 (hall u hu)).resolve_right fun hfloat => hf ?_
  exact List.any_eq_true.2 ⟨u, hu, hfloat⟩

theorem isSome_integerWidth?_of_isInteger (h : t.isInteger) : t.integerWidth?.isSome := by
  obtain ⟨hne, hall⟩ := allMembers_iff.1 h
  obtain ⟨u, hu⟩ := List.exists_mem_of_ne_nil _ hne
  rw [isSome_integerWidth?]
  exact List.any_eq_true.2 ⟨u, hu, hall u hu⟩

theorem isSome_widest? (hl : l.isInteger) (hr : r.isInteger) : (l.widest? r).isSome := by
  obtain ⟨wl, hwl⟩ := Option.isSome_iff_exists.1 (isSome_integerWidth?_of_isInteger hl)
  obtain ⟨wr, hwr⟩ := Option.isSome_iff_exists.1 (isSome_integerWidth?_of_isInteger hr)
  rw [widest?, hwl, hwr]
  rfl

/-- There is a type of a calculation exactly for numbers. -/
theorem isSome_arithmetic?_iff : (l.arithmetic? r).isSome ↔ l.isNumeric ∧ r.isNumeric := by
  have hcondition : (!l.isNumeric || !r.isNumeric) = true ↔ ¬ (l.isNumeric ∧ r.isNumeric) := by
    rw [← Bool.not_and, Bool.not_eq_true', ← Bool.not_eq_true, Bool.and_eq_true]
  rw [arithmetic?]
  simp only [hcondition]
  split_ifs with hnumeric hfloat
  · exact iff_of_true rfl hnumeric
  · rw [Bool.or_eq_true, not_or] at hfloat
    have hl := isInteger_of_not_mayBeFloat hnumeric.1 hfloat.1
    have hr := isInteger_of_not_mayBeFloat hnumeric.2 hfloat.2
    exact iff_of_true (isSome_widest? hl hr) hnumeric
  · exact iff_of_false Bool.false_ne_true hnumeric

/-- A number, a string or a character. -/
def IsPlain (t : Ty) : Prop :=
  t.isNumeric ∨ t = string ∨ t = char

theorem IsPlain.not_mayBeNull (h : t.IsPlain) : ¬ t.mayBeNull := by
  rcases h with h | rfl | rfl
  · intro hnull
    obtain ⟨u, hu, hkind⟩ := List.any_eq_true.1 hnull
    have hnumeric := (allMembers_iff.1 h).2 u hu
    rw [beq_iff_eq.1 hkind] at hnumeric
    cases hnumeric
  · decide
  · decide

end Ty

/-! ## The types that an operator applies to -/

/-- The types that the operator applies to. -/
def UnaryOp.Applies (op : UnaryOp) (t : Ty) : Prop :=
  match op with
  | negate | plus => t.isNumeric
  | bitNot => t.isInteger
  | not => t ≠ .null

namespace UnaryOp

variable {op : UnaryOp} {t m : Ty}

theorem isSome_result?_iff : (op.result? t).isSome ↔ op.Applies t := by
  cases op <;> exact Option.isSome_ite

/-- An operator other than negation applies to the members of what it applies to. -/
theorem Applies.member (h : op.Applies t) (hop : op ≠ .not) (hm : m ∈ t.members) :
    op.Applies m := by
  cases op with
  | negate | plus => exact Ty.isNumeric_of_mem h hm
  | bitNot => exact Ty.isInteger_of_mem h hm
  | not => exact absurd rfl hop

theorem Applies.isPlain (h : op.Applies t) (hop : op ≠ .not) : t.IsPlain := by
  cases op with
  | negate | plus => exact .inl h
  | bitNot => exact .inl (Ty.isNumeric_of_isInteger h)
  | not => exact absurd rfl hop

end UnaryOp

namespace BinaryOp

/-- The pairs of types that the operator applies to. -/
def Applies (op : BinaryOp) (l r : Ty) : Prop :=
  match op with
  | subtract | divide | modulo | power => l.isNumeric ∧ r.isNumeric
  | add => l = .string ∧ r = .string ∨ l.isNumeric ∧ r.isNumeric
  | multiply =>
    (l = .string ∧ r.isInteger ∨ l.isInteger ∧ r = .string) ∨ l.isNumeric ∧ r.isNumeric
  | less | greater | lessEqual | greaterEqual =>
    l.isNumeric ∧ r.isNumeric ∨ l = .string ∧ r = .string ∨ l = .char ∧ r = .char
  | equal | notEqual => True
  | and | or => l ≠ .null ∧ r ≠ .null
  | shiftLeft | shiftRight | bitAnd | bitOr | bitXor => l.isInteger ∧ r.isInteger

variable {op : BinaryOp} {l r a b : Ty}

theorem isSome_result?_iff : (op.result? l r).isSome ↔ op.Applies l r := by
  cases op with
  | subtract | divide | modulo | power => exact Ty.isSome_arithmetic?_iff
  | add | multiply =>
    rw [result?, Applies, ← Ty.isSome_arithmetic?_iff]
    split_ifs with h
    · exact iff_of_true rfl (.inl h)
    · rw [or_iff_right h]
  | less | greater | lessEqual | greaterEqual | and | or => exact Option.isSome_ite
  | equal | notEqual => exact iff_of_true rfl trivial
  | shiftLeft | shiftRight | bitAnd | bitOr | bitXor =>
    rw [result?, Applies]
    split_ifs with h
    · exact iff_of_true (Ty.isSome_widest? h.1 h.2) h
    · exact iff_of_false Bool.false_ne_true h

/-- An operator that is not logical applies to the members of what it applies to. -/
theorem Applies.member (h : op.Applies l r) (hand : op ≠ .and) (hor : op ≠ .or)
    (ha : a ∈ l.members) (hb : b ∈ r.members) : op.Applies a b := by
  have hnumeric : l.isNumeric ∧ r.isNumeric → a.isNumeric ∧ b.isNumeric :=
    .imp (Ty.isNumeric_of_mem · ha) (Ty.isNumeric_of_mem · hb)
  have hscalar : ∀ {s s' : Scalar}, l = .scalar s ∧ r = .scalar s' →
      a = .scalar s ∧ b = .scalar s' := by
    rintro s s' ⟨rfl, rfl⟩
    exact ⟨List.mem_singleton.1 ha, List.mem_singleton.1 hb⟩
  cases op with
  | subtract | divide | modulo | power => exact hnumeric h
  | add => exact h.imp hscalar hnumeric
  | multiply =>
    refine Or.imp (.imp ?_ ?_) hnumeric h
    · rintro ⟨rfl, hr⟩
      exact ⟨List.mem_singleton.1 ha, Ty.isInteger_of_mem hr hb⟩
    · rintro ⟨hl, rfl⟩
      exact ⟨Ty.isInteger_of_mem hl ha, List.mem_singleton.1 hb⟩
  | less | greater | lessEqual | greaterEqual => exact h.imp hnumeric (.imp hscalar hscalar)
  | equal | notEqual => trivial
  | and => exact absurd rfl hand
  | or => exact absurd rfl hor
  | shiftLeft | shiftRight | bitAnd | bitOr | bitXor =>
    exact h.imp (Ty.isInteger_of_mem · ha) (Ty.isInteger_of_mem · hb)

/-- An operator that does not apply to nulls, and is not logical, applies to numbers, strings and
characters only. -/
theorem Applies.isPlain (h : op.Applies l r) (hand : op ≠ .and) (hor : op ≠ .or)
    (hnull : ¬ op.Applies .null .null) : l.IsPlain ∧ r.IsPlain := by
  have hnumeric : l.isNumeric ∧ r.isNumeric → l.IsPlain ∧ r.IsPlain := .imp .inl .inl
  cases op with
  | subtract | divide | modulo | power => exact hnumeric h
  | add =>
    rcases h with ⟨hl, hr⟩ | h
    · exact ⟨.inr (.inl hl), .inr (.inl hr)⟩
    · exact hnumeric h
  | multiply =>
    rcases h with (⟨hl, hr⟩ | ⟨hl, hr⟩) | h
    · exact ⟨.inr (.inl hl), .inl (Ty.isNumeric_of_isInteger hr)⟩
    · exact ⟨.inl (Ty.isNumeric_of_isInteger hl), .inr (.inl hr)⟩
    · exact hnumeric h
  | less | greater | lessEqual | greaterEqual =>
    rcases h with h | ⟨hl, hr⟩ | ⟨hl, hr⟩
    · exact hnumeric h
    · exact ⟨.inr (.inl hl), .inr (.inl hr)⟩
    · exact ⟨.inr (.inr hl), .inr (.inr hr)⟩
  | equal | notEqual => exact absurd trivial hnull
  | and => exact absurd rfl hand
  | or => exact absurd rfl hor
  | shiftLeft | shiftRight | bitAnd | bitOr | bitXor =>
    exact hnumeric (h.imp Ty.isNumeric_of_isInteger Ty.isNumeric_of_isInteger)

end BinaryOp

/-- An operator that is accepted on unions is accepted on each combination of their members, but for
`!`, `&&` and `||` on `null`. All other operators that are not accepted on `null` are not accepted
on any type that may be null. -/
theorem operators_accepted_on_members (u : UnaryOp) (op : BinaryOp) (t l r : Ty) :
    ((u.result? t).isSome → ∀ m ∈ t.members,
      ((u.result? m).isSome ↔ ¬ (u = .not ∧ m = .null))) ∧
    ((op.result? l r).isSome → ∀ a ∈ l.members, ∀ b ∈ r.members,
      ((op.result? a b).isSome ↔ ¬ ((op = .and ∨ op = .or) ∧ (a = .null ∨ b = .null)))) ∧
    (u ≠ .not → t.mayBeNull → u.result? t = none) ∧
    (op ≠ .and → op ≠ .or → op.result? .null .null = none → l.mayBeNull ∨ r.mayBeNull →
      op.result? l r = none) := by
  simp only [← Option.not_isSome_iff_eq_none, UnaryOp.isSome_result?_iff,
    BinaryOp.isSome_result?_iff]
  refine ⟨?_, ?_, ?_, ?_⟩
  · intro h m hm
    by_cases hnot : u = .not
    · rw [hnot, and_iff_right rfl]
      rfl
    · exact iff_of_true (h.member hnot hm) fun hnull => hnot hnull.1
  · intro h a ha b hb
    by_cases hop : op = .and ∨ op = .or
    · rw [and_iff_right hop, not_or]
      rcases hop with rfl | rfl <;> rfl
    · obtain ⟨hand, hor⟩ := not_or.1 hop
      exact iff_of_true (h.member hand hor ha hb) fun hnull => hop hnull.1
  · intro hnot hnull h
    exact (h.isPlain hnot).not_mayBeNull hnull
  · intro hand hor hreject hnull h
    obtain ⟨hl, hr⟩ := h.isPlain hand hor hreject
    exact hnull.elim hl.not_mayBeNull hr.not_mayBeNull

/-- Numbers of two types are added to integers, and a number that may be null is not. -/
theorem operators_accepted_on_members_add :
    let number : Ty := .union [.integer .i64, .float .f64]
    let nullable : Ty := .union [.integer .i32, .null]
    (UnaryOp.negate.result? number).isSome ∧ (UnaryOp.negate.result? (.integer .i64)).isSome ∧
      (BinaryOp.add.result? number (.integer .i32)).isSome ∧
      (BinaryOp.add.result? (.float .f64) (.integer .i32)).isSome ∧
      UnaryOp.negate.result? nullable = none ∧
      BinaryOp.add.result? (.integer .i32) nullable = none := by
  intro number nullable
  obtain ⟨hunary, hbinary, -, -⟩ :=
    operators_accepted_on_members .negate .add number number (.integer .i32)
  obtain ⟨-, -, hunary', hbinary'⟩ :=
    operators_accepted_on_members .negate .add nullable (.integer .i32) nullable
  have hnegate : (UnaryOp.negate.result? number).isSome := by decide
  have hadd : (BinaryOp.add.result? number (.integer .i32)).isSome := by decide
  exact ⟨hnegate, (hunary hnegate _ (by decide)).2 (by decide), hadd,
    (hbinary hadd _ (by decide) _ (by decide)).2 (by decide), hunary' (by decide) (by decide),
    hbinary' (by decide) (by decide) (by decide) (.inr (by decide))⟩

/-- A variable that may be null is negated, and so is a conjunction with it formed, where `null`
itself is refused. -/
theorem exists_check_nullable :
    let nullable : Ty := .union [.integer .i32, .null]
    nullable.WellFormed ∧ nullable.mayBeNull ∧
      (UnaryOp.not.result? nullable).isSome ∧ UnaryOp.not.result? .null = none ∧
      (BinaryOp.and.result? nullable (.integer .i32)).isSome ∧
      BinaryOp.and.result? .null (.integer .i32) = none ∧
      ∃ p q s c s', Program.ofSource "mut a: int | null = 1; !a; a && 1;" = .ok p ∧
        Program.ofSource "!null;" = .ok q ∧ p.check.run {} = .ok () s ∧
        q.check.run {} = .error c s' ∧
        s.environment.get? "a" = some ⟨nullable, true, true⟩ := by
  intro nullable
  have hrun : (Program.ofSource "mut a: int | null = 1; !a; a && 1;").map
      (fun p => p.check.run {}) =
      .ok (.ok () ⟨⟨⟨[("a", ⟨.union [.integer .i32, .null], true, true⟩)], []⟩, []⟩, []⟩) := by
    decide +kernel
  have hrun' : (Program.ofSource "!null;").map (fun p => p.check.run {}) =
      .ok (.error ⟨⟨1, 0, 5⟩, .type (.invalidUnary .not .null)⟩ {}) := by
    decide +kernel
  have hnullable : nullable.WellFormed :=
    Ty.wellFormed_union.2 ⟨by decide, by decide, by simp [Ty.kind, Ty.WellFormed, Scalar.kind]⟩
  obtain ⟨p, hp, hs⟩ := map_eq_ok.1 hrun
  obtain ⟨q, hq, hs'⟩ := map_eq_ok.1 hrun'
  exact ⟨hnullable, by decide, by decide, by decide, by decide, by decide,
    p, q, _, _, _, hp, hq, hs, hs', rfl⟩

end StackCompiler
