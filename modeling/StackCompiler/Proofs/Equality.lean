import StackCompiler.Ty.Lengths

/-!
# Equality as values

`Ty.equals` compares types with the constants in their lengths taken as values. A float that is not
a number is not equal to itself, so this is no equivalence; it is symmetric and transitive
(`Ty.equals_symm`, `Ty.equals_trans`), as the comparison of floats is (`Number.beq_iff`) and with it
that of trees. `Expr.Equals` and `Ty.Equals` are the comparisons case by case. Equal trees stand at
the same place (`Expr.Equals.range_eq`), and types without lengths are equal only if they are the
same (`Ty.Equals.eq`).
-/

namespace StackCompiler

namespace Number

open Float.Model (UnpackedFloat)

/-- What of a float counts in a comparison. -/
inductive Comparand where
  | zero
  | infinity (sign : UnpackedFloat.Sign)
  | finite (sign : UnpackedFloat.Sign) (mantissa : Nat) (exponent : Int)

/-- Nothing counts of what is not a number, and of a zero not the sign. -/
def comparand? : UnpackedFloat → Option Comparand
  | .notANumber => none
  | .zero _ => some .zero
  | .infinity s => some (.infinity s)
  | .finite s m e _ => some (.finite s m e)

theorem compare_eq_iff (x y : UnpackedFloat) :
    x.compare y = some .eq ↔ ∃ v, comparand? x = some v ∧ comparand? y = some v := by
  cases x with
  | notANumber => cases y <;> dsimp only [UnpackedFloat.compare, comparand?] <;> simp
  | infinity s =>
    cases s <;> cases y with
    | infinity s' =>
      cases s' <;> dsimp only [UnpackedFloat.compare, comparand?] <;> simp [compare]
    | notANumber | zero _ | finite _ _ _ _ =>
      dsimp only [UnpackedFloat.compare, comparand?]
      simp
  | zero s =>
    cases y with
    | infinity s' | finite s' _ _ _ =>
      cases s' <;> dsimp only [UnpackedFloat.compare, comparand?] <;> simp
    | notANumber | zero _ =>
      dsimp only [UnpackedFloat.compare, comparand?]
      simp
  | finite s m e h =>
    cases y with
    | infinity s' =>
      cases s <;> cases s' <;> dsimp only [UnpackedFloat.compare, comparand?] <;> simp
    | notANumber | zero _ => cases s <;> dsimp only [UnpackedFloat.compare, comparand?] <;> simp
    | finite s' m' e' h' =>
      have hvalue : (compare e e').then (compare m m') = .eq ↔ m' = m ∧ e' = e := by
        rw [Ordering.then_eq_eq, Std.LawfulEqOrd.compare_eq_iff_eq,
          Std.LawfulEqOrd.compare_eq_iff_eq, and_comm, eq_comm, @eq_comm _ e]
      cases s <;> cases s' <;> dsimp only [UnpackedFloat.compare, comparand?] <;> simp [hvalue]

theorem beq_iff (x y : Float) :
    x == y ↔ ∃ v, comparand? x.toModel.unpack = some v ∧ comparand? y.toModel.unpack = some v := by
  rw [← compare_eq_iff]
  exact beq_iff_eq (α := Option Ordering)

theorem beq_symm {x y : Float} (h : x == y) : y == x := by
  obtain ⟨v, hx, hy⟩ := (beq_iff x y).1 h
  exact (beq_iff y x).2 ⟨v, hy, hx⟩

theorem beq_trans {x y z : Float} (h : x == y) (h' : y == z) : x == z := by
  obtain ⟨v, hx, hy⟩ := (beq_iff x y).1 h
  obtain ⟨w, hy', hz⟩ := (beq_iff y z).1 h'
  rw [hy] at hy'
  exact (beq_iff x z).2 ⟨v, hx, hz.trans hy'.symm⟩

end Number

namespace Literal

variable {l l' l'' : Literal}

theorem equals_symm (h : l.equals l') : l'.equals l := by
  cases l <;> cases l' <;> simp_all [equals, Number.beq_symm]

theorem equals_trans (h : l.equals l') (h' : l'.equals l'') : l.equals l'' := by
  cases l <;> cases l' <;> cases l'' <;> simp_all [equals]
  exact Number.beq_trans h h'

end Literal

/-! ## Trees -/

namespace Expr

mutual

/-- The trees are equal: they differ in constants that are equal as values, and in nothing else. -/
inductive Equals : Expr → Expr → Prop where
  | literal {v v' : Literal} {p : Range} (h : v.equals v') : Equals (literal v p) (literal v' p)
  | ident (i : Ident) : Equals (ident i) (ident i)
  | binary {o : BinaryOp} {l l' r r' : Expr} {p : Range} (hl : Equals l l') (hr : Equals r r') :
    Equals (binary o l r p) (binary o l' r' p)
  | unary {o : UnaryOp} {e e' : Expr} {p : Range} (h : Equals e e') :
    Equals (unary o e p) (unary o e' p)
  | update (o : UpdateOp) (f : Bool) (t : Ident) (p : Range) :
    Equals (update o f t p) (update o f t p)
  | assign {o : AssignOp} {t : Ident} {e e' : Expr} {p : Range} (h : Equals e e') :
    Equals (assign o t e p) (assign o t e' p)
  | sequence {es es' : List Expr} {p : Range} (h : EqualsAll es es') :
    Equals (sequence es p) (sequence es' p)
  | array {es es' : List Expr} {p : Range} (h : EqualsAll es es') :
    Equals (array es p) (array es' p)
  | index {e e' i i' : Expr} {p : Range} (he : Equals e e') (hi : Equals i i') :
    Equals (index e i p) (index e' i' p)

/-- The trees of two lists are equal, one by one. -/
inductive EqualsAll : List Expr → List Expr → Prop where
  | nil : EqualsAll [] []
  | cons {e e' : Expr} {es es' : List Expr} (h : Equals e e') (hs : EqualsAll es es') :
    EqualsAll (e :: es) (e' :: es')

end

mutual

theorem equals_of_equals : {e e' : Expr} → Equals e e' → e.equals e'
  | _, _, .literal h => by simp [equals, h]
  | _, _, .ident _ => by simp [equals]
  | _, _, .binary hl hr => by simp [equals, equals_of_equals hl, equals_of_equals hr]
  | _, _, .unary h => by simp [equals, equals_of_equals h]
  | _, _, .update .. => by simp [equals]
  | _, _, .assign h => by simp [equals, equals_of_equals h]
  | _, _, .sequence h => by simp [equals, equalsAll_of_equalsAll h]
  | _, _, .array h => by simp [equals, equalsAll_of_equalsAll h]
  | _, _, .index he hi => by simp [equals, equals_of_equals he, equals_of_equals hi]

theorem equalsAll_of_equalsAll : {es es' : List Expr} → EqualsAll es es' → equalsAll es es'
  | _, _, .nil => rfl
  | _, _, .cons h hs => by simp [equalsAll, equals_of_equals h, equalsAll_of_equalsAll hs]

end

mutual

theorem Equals.of_equals : (e e' : Expr) → e.equals e' → Equals e e'
  | .literal v p, e', h => by
    cases e' <;> simp only [equals, Bool.and_eq_true, beq_iff_eq, Bool.false_eq_true] at h
    obtain ⟨hv, rfl⟩ := h
    exact .literal hv
  | .ident i, e', h => by
    cases e' <;> simp only [equals, beq_iff_eq, Bool.false_eq_true] at h
    rw [h]
    exact .ident _
  | .binary o l r p, e', h => by
    cases e' <;> simp only [equals, Bool.and_eq_true, beq_iff_eq, Bool.false_eq_true] at h
    obtain ⟨⟨⟨rfl, hl⟩, hr⟩, rfl⟩ := h
    exact .binary (Equals.of_equals l _ hl) (Equals.of_equals r _ hr)
  | .unary o e p, e', h => by
    cases e' <;> simp only [equals, Bool.and_eq_true, beq_iff_eq, Bool.false_eq_true] at h
    obtain ⟨⟨rfl, he⟩, rfl⟩ := h
    exact .unary (Equals.of_equals e _ he)
  | .update o f t p, e', h => by
    cases e' <;> simp only [equals, Bool.and_eq_true, beq_iff_eq, Bool.false_eq_true] at h
    obtain ⟨⟨⟨rfl, rfl⟩, rfl⟩, rfl⟩ := h
    exact .update o f t p
  | .assign o t e p, e', h => by
    cases e' <;> simp only [equals, Bool.and_eq_true, beq_iff_eq, Bool.false_eq_true] at h
    obtain ⟨⟨⟨rfl, rfl⟩, he⟩, rfl⟩ := h
    exact .assign (Equals.of_equals e _ he)
  | .sequence es p, e', h => by
    cases e' <;> simp only [equals, Bool.and_eq_true, beq_iff_eq, Bool.false_eq_true] at h
    obtain ⟨hes, rfl⟩ := h
    exact .sequence (EqualsAll.of_equalsAll es _ hes)
  | .array es p, e', h => by
    cases e' <;> simp only [equals, Bool.and_eq_true, beq_iff_eq, Bool.false_eq_true] at h
    obtain ⟨hes, rfl⟩ := h
    exact .array (EqualsAll.of_equalsAll es _ hes)
  | .index e i p, e', h => by
    cases e' <;> simp only [equals, Bool.and_eq_true, beq_iff_eq, Bool.false_eq_true] at h
    obtain ⟨⟨he, hi⟩, rfl⟩ := h
    exact .index (Equals.of_equals e _ he) (Equals.of_equals i _ hi)

theorem EqualsAll.of_equalsAll : (es es' : List Expr) → equalsAll es es' → EqualsAll es es'
  | [], [], _ => .nil
  | e :: es, e' :: es', h => by
    rw [equalsAll, Bool.and_eq_true] at h
    exact .cons (Equals.of_equals e e' h.1) (EqualsAll.of_equalsAll es es' h.2)

end

theorem equalsAll_iff {es es' : List Expr} : equalsAll es es' ↔ EqualsAll es es' :=
  ⟨EqualsAll.of_equalsAll es es', equalsAll_of_equalsAll⟩

mutual

theorem Equals.symm : {e e' : Expr} → Equals e e' → Equals e' e
  | _, _, .literal h => .literal (Literal.equals_symm h)
  | _, _, .ident i => .ident i
  | _, _, .binary hl hr => .binary hl.symm hr.symm
  | _, _, .unary h => .unary h.symm
  | _, _, .update o f t p => .update o f t p
  | _, _, .assign h => .assign h.symm
  | _, _, .sequence h => .sequence h.symm
  | _, _, .array h => .array h.symm
  | _, _, .index he hi => .index he.symm hi.symm

theorem EqualsAll.symm : {es es' : List Expr} → EqualsAll es es' → EqualsAll es' es
  | _, _, .nil => .nil
  | _, _, .cons h hs => .cons h.symm hs.symm

end

mutual

theorem Equals.trans : {e e' e'' : Expr} → Equals e e' → Equals e' e'' → Equals e e''
  | _, _, _, .literal h, .literal h' => .literal (Literal.equals_trans h h')
  | _, _, _, .ident i, .ident _ => .ident i
  | _, _, _, .binary hl hr, .binary hl' hr' => .binary (hl.trans hl') (hr.trans hr')
  | _, _, _, .unary h, .unary h' => .unary (h.trans h')
  | _, _, _, .update o f t p, .update .. => .update o f t p
  | _, _, _, .assign h, .assign h' => .assign (h.trans h')
  | _, _, _, .sequence h, .sequence h' => .sequence (h.trans h')
  | _, _, _, .array h, .array h' => .array (h.trans h')
  | _, _, _, .index he hi, .index he' hi' => .index (he.trans he') (hi.trans hi')

theorem EqualsAll.trans : {es es' es'' : List Expr} → EqualsAll es es' → EqualsAll es' es'' →
    EqualsAll es es''
  | _, _, _, .nil, .nil => .nil
  | _, _, _, .cons h hs, .cons h' hs' => .cons (h.trans h') (hs.trans hs')

end

theorem Equals.range_eq {e e' : Expr} (h : Equals e e') : e.range = e'.range := by
  cases h <;> rfl

namespace EqualsAll

theorem append {as as' bs bs' : List Expr} (ha : EqualsAll as as') (hb : EqualsAll bs bs') :
    EqualsAll (as ++ bs) (as' ++ bs') := by
  match ha with
  | .nil => exact hb
  | .cons h hs => exact .cons h (hs.append hb)

/-- Every tree of one list stands where one of the other does. -/
theorem exists_range_eq {es es' : List Expr} (h : EqualsAll es es') :
    ∀ e ∈ es, ∃ e' ∈ es', e.range = e'.range := by
  match h with
  | .nil => exact fun e he => absurd he List.not_mem_nil
  | @EqualsAll.cons e e' es es' h hs =>
    refine fun f hf => (List.mem_cons.1 hf).elim ?_ fun hf => ?_
    · rintro rfl
      exact ⟨e', List.mem_cons_self, h.range_eq⟩
    · obtain ⟨f', hf', hrange⟩ := hs.exists_range_eq f hf
      exact ⟨f', List.mem_cons_of_mem _ hf', hrange⟩

end EqualsAll

end Expr

/-! ## Types -/

namespace Ty

mutual

/-- The types are equal: they differ in lengths that are equal, and in nothing else. -/
inductive Equals : Ty → Ty → Prop where
  | null : Equals null null
  | scalar (s : Scalar) : Equals (scalar s) (scalar s)
  | array {t t' : Ty} {l l' : Option Expr} (h : Equals t t')
    (hl : Expr.EqualsAll l.toList l'.toList) : Equals (array t l) (array t' l')
  | union {ts ts' : List Ty} (h : EqualsAll ts ts') : Equals (union ts) (union ts')

/-- The types of two lists are equal, one by one. -/
inductive EqualsAll : List Ty → List Ty → Prop where
  | nil : EqualsAll [] []
  | cons {t t' : Ty} {ts ts' : List Ty} (h : Equals t t') (hs : EqualsAll ts ts') :
    EqualsAll (t :: ts) (t' :: ts')

end

mutual

theorem equals_of_equals : {t t' : Ty} → Equals t t' → t.equals t'
  | _, _, .null => rfl
  | _, _, .scalar _ => by simp [equals]
  | _, _, .array h hl => by simp [equals, equals_of_equals h, Expr.equalsAll_iff.2 hl]
  | _, _, .union h => equalsAll_of_equalsAll h

theorem equalsAll_of_equalsAll : {ts ts' : List Ty} → EqualsAll ts ts' → equalsAll ts ts'
  | _, _, .nil => rfl
  | _, _, .cons h hs => by simp [equalsAll, equals_of_equals h, equalsAll_of_equalsAll hs]

end

mutual

theorem Equals.of_equals : (t t' : Ty) → t.equals t' → Equals t t'
  | .null, t', h => by
    cases t' <;> simp only [equals, Bool.false_eq_true] at h
    exact .null
  | .scalar s, t', h => by
    cases t' <;> simp only [equals, beq_iff_eq, Bool.false_eq_true] at h
    rw [h]
    exact .scalar _
  | .array t l, t', h => by
    cases t' <;> simp only [equals, Bool.and_eq_true, Bool.false_eq_true] at h
    exact .array (Equals.of_equals t _ h.1) (Expr.equalsAll_iff.1 h.2)
  | .union ts, t', h => by
    cases t' <;> simp only [equals, Bool.false_eq_true] at h
    exact .union (EqualsAll.of_equalsAll ts _ h)

theorem EqualsAll.of_equalsAll : (ts ts' : List Ty) → equalsAll ts ts' → EqualsAll ts ts'
  | [], [], _ => .nil
  | t :: ts, t' :: ts', h => by
    rw [equalsAll, Bool.and_eq_true] at h
    exact .cons (Equals.of_equals t t' h.1) (EqualsAll.of_equalsAll ts ts' h.2)

end

theorem equals_iff {t t' : Ty} : t.equals t' ↔ Equals t t' :=
  ⟨Equals.of_equals t t', equals_of_equals⟩

mutual

theorem Equals.symm : {t t' : Ty} → Equals t t' → Equals t' t
  | _, _, .null => .null
  | _, _, .scalar s => .scalar s
  | _, _, .array h hl => .array h.symm hl.symm
  | _, _, .union h => .union h.symm

theorem EqualsAll.symm : {ts ts' : List Ty} → EqualsAll ts ts' → EqualsAll ts' ts
  | _, _, .nil => .nil
  | _, _, .cons h hs => .cons h.symm hs.symm

end

mutual

theorem Equals.trans : {t t' t'' : Ty} → Equals t t' → Equals t' t'' → Equals t t''
  | _, _, _, .null, .null => .null
  | _, _, _, .scalar s, .scalar _ => .scalar s
  | _, _, _, .array h hl, .array h' hl' => .array (h.trans h') (hl.trans hl')
  | _, _, _, .union h, .union h' => .union (h.trans h')

theorem EqualsAll.trans : {ts ts' ts'' : List Ty} → EqualsAll ts ts' → EqualsAll ts' ts'' →
    EqualsAll ts ts''
  | _, _, _, .nil, .nil => .nil
  | _, _, _, .cons h hs, .cons h' hs' => .cons (h.trans h') (hs.trans hs')

end

theorem equals_symm {t u : Ty} (h : t.equals u) : u.equals t :=
  equals_iff.2 (equals_iff.1 h).symm

theorem equals_trans {t u v : Ty} (h : t.equals u) (h' : u.equals v) : t.equals v :=
  equals_iff.2 ((equals_iff.1 h).trans (equals_iff.1 h'))

theorem Equals.kind_eq {t u : Ty} (h : Equals t u) : t.kind = u.kind := by
  cases h <;> rfl

mutual

/-- The lengths of equal types are equal. -/
theorem Equals.lengths : {t t' : Ty} → Equals t t' → Expr.EqualsAll t.lengths t'.lengths
  | _, _, .null | _, _, .scalar _ => .nil
  | _, _, .array h hl => hl.append h.lengths
  | _, _, .union h => h.lengthsAll

theorem EqualsAll.lengthsAll : {ts ts' : List Ty} → EqualsAll ts ts' →
    Expr.EqualsAll (lengthsAll ts) (lengthsAll ts')
  | _, _, .nil => .nil
  | _, _, .cons h hs => h.lengths.append hs.lengthsAll

end

mutual

/-- A type without lengths is equal to itself. -/
theorem Equals.refl : {t : Ty} → t.lengths = [] → Equals t t
  | .null, _ => .null
  | .scalar s, _ => .scalar s
  | .array t none, h => .array (Equals.refl h) .nil
  | .array t (some e), h => by cases h
  | .union ts, h => .union (EqualsAll.refl h)

theorem EqualsAll.refl : {ts : List Ty} → lengthsAll ts = [] → EqualsAll ts ts
  | [], _ => .nil
  | t :: ts, h => by
    rw [lengthsAll, List.append_eq_nil_iff] at h
    exact .cons (.refl h.1) (EqualsAll.refl h.2)

end

mutual

/-- A type without lengths is equal to no other. -/
theorem Equals.eq : {t t' : Ty} → Equals t t' → t.lengths = [] → t = t'
  | _, _, .null, _ | _, _, .scalar _, _ => rfl
  | _, _, @Equals.array t t' l l' h hl, hnil => by
    rw [Ty.lengths, List.append_eq_nil_iff] at hnil
    rw [h.eq hnil.2]
    cases l with
    | some e => cases hnil.1
    | none =>
      cases l' with
      | some e => cases hl
      | none => rfl
  | _, _, .union h, hnil => by rw [h.eq hnil]

theorem EqualsAll.eq : {ts ts' : List Ty} → EqualsAll ts ts' → lengthsAll ts = [] → ts = ts'
  | _, _, .nil, _ => rfl
  | _, _, .cons h hs, hnil => by
    rw [Ty.lengthsAll, List.append_eq_nil_iff] at hnil
    rw [h.eq hnil.1, hs.eq hnil.2]

end

end Ty

end StackCompiler
