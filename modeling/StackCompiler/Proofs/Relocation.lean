import Mathlib.Data.List.Forall2
import Mathlib.Logic.Function.Basic
import StackCompiler.Proofs.Checked
import StackCompiler.Proofs.Folding
import StackCompiler.Proofs.Lowered

/-!
# Programs at other places

`Expr.mapRange` and its like give a tree with other ranges. It is folded to the folded tree with
the other ranges (`Program.fold_mapRange`), checked alike by every comparison that relates the
ranges (`Comparison.statements_mapRange`), warned about alike (`Program.overflows_mapRange`) and
lowered to the same code or with the same defect (`Program.lower_mapRange`). Where the ranges are
all moved down by some lines (`Range.down`), the tree is read from tokens that are
(`Program.Derives.down`).
-/

namespace StackCompiler

/-- The range so many lines further down. -/
def Range.down (k : Nat) (r : Range) : Range :=
  { r with line := r.line + k }

/-- The range without its line. -/
def Range.eraseLine (r : Range) : Range :=
  { r with line := 0 }

theorem Range.through_down (k : Nat) (a b : Range) :
    (a.down k).through (b.down k) = (a.through b).down k := by
  simp only [through, down, Nat.add_right_cancel_iff]

section MapRange

variable (f : Range → Range)

/-- The name at another place. -/
def Ident.mapRange (id : Ident) : Ident :=
  ⟨id.name, f id.range⟩

/-- The token at another place. -/
def Token.mapRange (t : Token) : Token :=
  { t with range := f t.range }

/-- The warning at another place. -/
def Warning.mapRange (w : Warning) : Warning :=
  { w with range := f w.range }

namespace Expr

mutual

/-- The tree at other places. -/
def mapRange : Expr → Expr
  | literal value r => literal value (f r)
  | ident id => ident (id.mapRange f)
  | binary op left right r => binary op left.mapRange right.mapRange (f r)
  | unary op operand r => unary op operand.mapRange (f r)
  | update op leading target r => update op leading (target.mapRange f) (f r)
  | assign op target value r => assign op (target.mapRange f) value.mapRange (f r)
  | sequence items r => sequence (mapRangeAll items) (f r)
  | array items r => array (mapRangeAll items) (f r)
  | index base position r => index base.mapRange position.mapRange (f r)

/-- The trees of a list at other places. -/
def mapRangeAll : List Expr → List Expr
  | [] => []
  | e :: es => e.mapRange :: mapRangeAll es

end

end Expr

/-- The type with its lengths at other places. -/
def Ty.mapRange (t : Ty) : Ty :=
  t.mapLengths (Expr.mapRange f)

/-- The declaration at another place. -/
def Declaration.mapRange (d : Declaration) : Declaration :=
  ⟨d.isMutable, d.ty.mapRange f, d.names.map (Ident.mapRange f),
    d.initializer.map (Expr.mapRange f), f d.range⟩

/-- The statement at another place. -/
def Statement.mapRange : Statement → Statement
  | expression e => expression (e.mapRange f)
  | declaration d => declaration (d.mapRange f)

/-- The program at other places. -/
def Program.mapRange (p : Program) : Program :=
  p.map (Statement.mapRange f)

end MapRange

section Laws

variable {f g : Range → Range}

namespace Expr

theorem mapRangeAll_eq_map (es : List Expr) : mapRangeAll f es = es.map (mapRange f) := by
  induction es with
  | nil => rfl
  | cons e es ih => rw [mapRangeAll, ih, List.map_cons]

@[simp] theorem range_mapRange (e : Expr) : (e.mapRange f).range = f e.range := by
  cases e <;> rfl

mutual

theorem mapRange_mapRange : (e : Expr) → (e.mapRange f).mapRange g = e.mapRange (g ∘ f)
  | literal _ _ | ident _ | update _ _ _ _ => rfl
  | binary op l r _ => by
    simp only [mapRange, mapRange_mapRange l, mapRange_mapRange r, Function.comp_apply]
  | unary op e _ => by simp only [mapRange, mapRange_mapRange e, Function.comp_apply]
  | assign op target value _ => by
    simp only [mapRange, mapRange_mapRange value, Function.comp_apply, Ident.mapRange]
  | sequence items _ => by simp only [mapRange, mapRangeAll_mapRangeAll items, Function.comp_apply]
  | array items _ => by simp only [mapRange, mapRangeAll_mapRangeAll items, Function.comp_apply]
  | index base position _ => by
    simp only [mapRange, mapRange_mapRange base, mapRange_mapRange position, Function.comp_apply]

theorem mapRangeAll_mapRangeAll : (es : List Expr) →
    mapRangeAll g (mapRangeAll f es) = mapRangeAll (g ∘ f) es
  | [] => rfl
  | e :: es => by simp only [mapRangeAll, mapRange_mapRange e, mapRangeAll_mapRangeAll es]

end

mutual

theorem mapRange_id : (e : Expr) → e.mapRange id = e
  | literal _ _ | ident _ | update _ _ _ _ => rfl
  | binary op l r _ => by rw [mapRange, mapRange_id l, mapRange_id r, id]
  | unary op e _ => by rw [mapRange, mapRange_id e, id]
  | assign op target value _ => by rw [mapRange, mapRange_id value, id, Ident.mapRange, id]
  | sequence items _ => by rw [mapRange, mapRangeAll_id items, id]
  | array items _ => by rw [mapRange, mapRangeAll_id items, id]
  | index base position _ => by rw [mapRange, mapRange_id base, mapRange_id position, id]

theorem mapRangeAll_id : (es : List Expr) → mapRangeAll id es = es
  | [] => rfl
  | e :: es => by rw [mapRangeAll, mapRange_id e, mapRangeAll_id es]

end

end Expr

theorem Ty.mapRange_mapRange (t : Ty) : (t.mapRange f).mapRange g = t.mapRange (g ∘ f) := by
  simp only [mapRange, mapLengths_mapLengths, Expr.mapRange_mapRange]

mutual

/-- Equal trees are equal at other places. -/
theorem Expr.Equals.mapRange : {e e' : Expr} → Equals e e' → Equals (e.mapRange f) (e'.mapRange f)
  | _, _, .literal h => .literal h
  | _, _, .ident i => .ident (i.mapRange f)
  | _, _, .binary hl hr => .binary hl.mapRange hr.mapRange
  | _, _, .unary h => .unary h.mapRange
  | _, _, .update o leading t p => .update o leading (t.mapRange f) (f p)
  | _, _, .assign h => .assign h.mapRange
  | _, _, .sequence h => .sequence h.mapRangeAll
  | _, _, .array h => .array h.mapRangeAll
  | _, _, .index he hi => .index he.mapRange hi.mapRange

theorem Expr.EqualsAll.mapRangeAll : {es es' : List Expr} → EqualsAll es es' →
    EqualsAll (mapRangeAll f es) (mapRangeAll f es')
  | _, _, .nil => .nil
  | _, _, .cons h hs => .cons h.mapRange hs.mapRangeAll

end

theorem Ty.keepsEquality_mapRange (h : Function.LeftInverse g f) :
    KeepsEquality (Ty.mapRange f) := by
  refine keepsEquality_mapLengths (g := Expr.mapRange g) Expr.Equals.mapRange
    Expr.Equals.mapRange ?_
  funext e
  rw [Expr.mapRange_mapRange, h.comp_eq_id, Expr.mapRange_id, id]

section Fold

theorem Expr.constant?_mapRange (op : BinaryOp) (l r : Expr) :
    constant? op (l.mapRange f) (r.mapRange f) = constant? op l r := by
  cases l <;> cases r <;> rfl

mutual

theorem Expr.fold_mapRange : (e : Expr) → (e.mapRange f).fold = e.fold.mapRange f
  | literal _ _ | ident _ | update _ _ _ _ => rfl
  | binary op l r range => by
    rw [mapRange, fold, fold, fold_mapRange l, fold_mapRange r, constant?_mapRange]
    cases constant? op l.fold r.fold <;> rfl
  | unary op e range => by rw [mapRange, fold, fold_mapRange e, fold, mapRange]
  | assign op target value range => by rw [mapRange, fold, fold_mapRange value, fold, mapRange]
  | sequence items range => by rw [mapRange, fold, foldAll_mapRangeAll items, fold, mapRange]
  | array items range => by rw [mapRange, fold, foldAll_mapRangeAll items, fold, mapRange]
  | index base position range => by
    rw [mapRange, fold, fold_mapRange base, fold_mapRange position, fold, mapRange]

theorem Expr.foldAll_mapRangeAll : (es : List Expr) →
    foldAll (mapRangeAll f es) = mapRangeAll f (foldAll es)
  | [] => rfl
  | e :: es => by
    rw [mapRangeAll, foldAll, fold_mapRange e, foldAll_mapRangeAll es, foldAll, mapRangeAll]

end

theorem Ty.fold_mapRange (t : Ty) : (t.mapRange f).fold = t.fold.mapRange f := by
  simp only [fold_eq_mapLengths, mapRange, mapLengths_mapLengths, Expr.fold_mapRange]

theorem Program.fold_mapRange (p : Program) :
    Program.fold (p.mapRange f) = (p.fold).mapRange f := by
  have hstmt : ∀ stmt : Statement, (stmt.mapRange f).fold = stmt.fold.mapRange f := by
    intro stmt
    cases stmt with
    | expression e => exact congrArg Statement.expression e.fold_mapRange
    | declaration d =>
      simp only [Statement.mapRange, Statement.fold, Declaration.mapRange, Declaration.fold,
        Ty.fold_mapRange, Option.map_map, Function.comp_def, Expr.fold_mapRange]
  simp only [fold, mapRange, List.map_map, Function.comp_def, hstmt]

end Fold

namespace Ty

theorem erase_mapRange (t : Ty) : (t.mapRange f).erase = t.erase :=
  t.erase_mapLengths _

theorem lengths_mapRange (t : Ty) : (t.mapRange f).lengths = t.lengths.map (Expr.mapRange f) :=
  t.lengths_mapLengths _

theorem members_mapRange (t : Ty) : (t.mapRange f).members = t.members.map (mapRange f) :=
  (pointwise_mapLengths _).members t

theorem mapRange_ofMembers (ts : List Ty) :
    (ofMembers ts).mapRange f = ofMembers (ts.map (mapRange f)) :=
  (pointwise_mapLengths _).ofMembers ts

/-- The union of types that are moved without making any of them equal. -/
theorem join_mapRange (hf : KeepsEquality (mapRange f)) (ts : List Ty) :
    join (ts.map (mapRange f)) = (join ts).mapRange f :=
  (pointwise_mapLengths _).join hf ts

end Ty

theorem Storage.ofTy_mapRange (t : Ty) : Storage.ofTy (t.mapRange f) = .ofTy t := by
  cases t <;> rfl

namespace Expr

variable (hf : ∀ a b, (f a).through (f b) = f (a.through b))
include hf

theorem mapRange_joined (op : BinaryOp) (l r : Expr) :
    (joined op l r).mapRange f = joined op (l.mapRange f) (r.mapRange f) := by
  rw [joined, joined, mapRange, range_mapRange, range_mapRange, hf]

theorem mapRange_applied (op : UnaryOp) (e : Expr) (place : Range) :
    (applied op e place).mapRange f = applied op (e.mapRange f) (f place) := by
  rw [applied, applied, mapRange, range_mapRange, hf]

theorem mapRange_assigned (op : AssignOp) (target : Ident) (value : Expr) :
    (assigned op target value).mapRange f = assigned op (target.mapRange f) (value.mapRange f) := by
  rw [assigned, assigned, mapRange, range_mapRange, Ident.mapRange, hf]

theorem mapRange_followedBy (l r : Expr) :
    (followedBy l r).mapRange f = followedBy (l.mapRange f) (r.mapRange f) := by
  unfold followedBy
  rw [range_mapRange, range_mapRange, hf]
  generalize l.range.through r.range = place
  cases l with
  | sequence items range =>
    simp only [mapRange, mapRangeAll_eq_map, List.map_append, List.map_singleton]
  | _ => simp only [mapRange, mapRangeAll]

end Expr

end Laws

section Down

variable (k : Nat)

theorem Range.keepsEquality_down : Ty.KeepsEquality (Ty.mapRange (Range.down k)) := by
  refine Ty.keepsEquality_mapRange (g := fun r => { r with line := r.line - k }) fun r => ?_
  simp only [down, Nat.add_sub_cancel]

namespace Expr

mutual

/-- Tokens further down are written for the expression further down. -/
theorem Derives.down {n : Nat} {ts : List Token} {e : Expr} : Expr.Derives n ts e →
    Expr.Derives n (ts.map (Token.mapRange (.down k))) (e.mapRange (.down k))
  | .literal h => .literal h
  | .name h => .name h
  | .group hl he hr => by
    rw [List.map_append, List.map_cons]
    exact .group hl he.down hr
  | .array hl hi hr => by
    rw [List.map_append, List.map_cons, mapRange, ← Range.through_down]
    exact .array hl hi.down hr
  | .updateAfter he ht hs => by
    rw [List.map_append, mapRange, ← Range.through_down]
    exact .updateAfter he.down ht hs
  | .index hb hl hp hr => by
    rw [List.map_append, List.map_cons, List.map_append, mapRange, ← Range.through_down,
      ← range_mapRange (f := Range.down k)]
    exact .index hb.down hl hp.down hr
  | .updateBefore ht hs he => by
    rw [mapRange, ← Range.through_down]
    exact .updateBefore ht hs he.down
  | .unary ht hs he => by
    rw [mapRange_applied (Range.through_down k)]
    exact .unary ht hs he.down
  | .binary hl ht hs hr => by
    rw [List.map_append, mapRange_joined (Range.through_down k)]
    exact .binary hl.down ht hs hr.down
  | .assign hl ht hs hr => by
    rw [List.map_append, mapRange_assigned (Range.through_down k)]
    exact .assign hl.down ht hs hr.down
  | .sequence hl ht hr => by
    rw [List.map_append, mapRange_followedBy (Range.through_down k)]
    exact .sequence hl.down ht hr.down
  | .ofNext h => .ofNext h.down

theorem DerivesItems.down {ts : List Token} {es : List Expr} : Expr.DerivesItems ts es →
    Expr.DerivesItems (ts.map (Token.mapRange (.down k))) (mapRangeAll (.down k) es)
  | .none => .none
  | .some he hs => by
    rw [List.map_append]
    exact .some he.down hs.down

theorem DerivesMore.down {ts : List Token} {es : List Expr} : Expr.DerivesMore ts es →
    Expr.DerivesMore (ts.map (Token.mapRange (.down k))) (mapRangeAll (.down k) es)
  | .nil => .nil
  | .cons ht he hs => by
    rw [List.map_append, List.map_cons]
    exact .cons ht he.down hs.down

end

end Expr

mutual

/-- Tokens further down are written for the type whose lengths are further down. -/
theorem Ty.Derives.down {ts : List Token} {t : Ty} : Ty.Derives ts t →
    Ty.Derives (ts.map (Token.mapRange (.down k))) (t.mapRange (.down k))
  | .single h => .single h.down
  | .union h hs => by
    rw [List.map_append, ← Ty.join_mapRange (Range.keepsEquality_down k)]
    exact .union h.down hs.down

theorem Ty.DerivesMember.down {ts : List Token} {t : Ty} : Ty.DerivesMember ts t →
    Ty.DerivesMember (ts.map (Token.mapRange (.down k))) (t.mapRange (.down k))
  | .scalar h => .scalar h
  | .null h => .null h
  | .group hl h hr => by
    rw [List.map_append, List.map_cons]
    exact .group hl h.down hr
  | .array h hl hr => by
    rw [List.map_append]
    exact .array h.down hl hr
  | .sized h hl he hr => by
    rw [List.map_append, List.map_cons, List.map_append]
    exact .sized h.down hl (he.down k) hr

theorem Ty.DerivesOthers.down {us : List Token} {ts : List Ty} : Ty.DerivesOthers us ts →
    Ty.DerivesOthers (us.map (Token.mapRange (.down k))) (ts.map (Ty.mapRange (.down k)))
  | .nil => .nil
  | .cons hb h hs => by
    rw [List.map_append, List.map_cons]
    exact .cons hb h.down hs.down

end

theorem Ident.DeriveNames.down {ts : List Token} {ids : List Ident}
    (h : Ident.DeriveNames ts ids) :
    Ident.DeriveNames (ts.map (Token.mapRange (.down k))) (ids.map (Ident.mapRange (.down k))) := by
  obtain ⟨h, hs⟩ := h
  refine .mk h ?_
  induction hs with
  | nil => exact .nil
  | cons hc h _ ih => exact .cons hc h ih

theorem Declaration.DerivesInitializer.down {ts : List Token} {initializer : Option Expr}
    (h : Declaration.DerivesInitializer ts initializer) :
    Declaration.DerivesInitializer (ts.map (Token.mapRange (.down k)))
      (initializer.map (Expr.mapRange (.down k))) := by
  cases h with
  | none => exact .none
  | some ht he => exact .some ht (he.down k)

theorem Declaration.Derives.down {ts : List Token} {d : Declaration}
    (h : Declaration.Derives ts d) :
    Declaration.Derives (ts.map (Token.mapRange (.down k))) (d.mapRange (.down k)) := by
  cases h with
  | mutable hk hn hc ht hi hs =>
    simp only [List.map_append, List.map_cons, List.map_nil, Declaration.mapRange,
      ← Range.through_down]
    exact .mutable hk (hn.down k) hc (ht.down k) (hi.down k) hs
  | constant hk hn hc ht hi hs =>
    simp only [List.map_append, List.map_cons, List.map_nil, Declaration.mapRange,
      ← Range.through_down]
    exact .constant hk (hn.down k) hc (ht.down k) (hi.down k) hs

theorem Statement.Derives.down {ts : List Token} {stmt : Option Statement}
    (h : Statement.Derives ts stmt) :
    Statement.Derives (ts.map (Token.mapRange (.down k)))
      (stmt.map (Statement.mapRange (.down k))) := by
  cases h with
  | empty h => exact .empty h
  | declaration h => exact .declaration (h.down k)
  | expression he hs =>
    rw [List.map_append]
    exact .expression (he.down k) hs

/-- Tokens further down are written for the program further down. -/
theorem Program.Derives.down {ts : List Token} {p : Program} (h : Program.Derives ts p) :
    Program.Derives (ts.map (Token.mapRange (.down k))) (p.mapRange (.down k)) := by
  induction h with
  | nil => exact .nil
  | cons hs _ ih =>
    rw [List.map_append, mapRange, List.map_append, ← Option.toList_map]
    exact .cons (hs.down k) ih

namespace Comparison

section MapRange

variable {κ : Comparison} {f : Range → Range}

mutual

/-- An expression is checked like the one at the places it is compared with. -/
theorem exprs_mapRange (hf : ∀ r, κ.Places r (f r)) : (e : Expr) → κ.Exprs e (e.mapRange f)
  | .literal value _ => .literal value (hf _)
  | .ident _ => .ident ⟨rfl, hf _⟩
  | .binary op l r _ => .binary op (exprs_mapRange hf l) (exprs_mapRange hf r) (hf _)
  | .unary op e _ => .unary op (exprs_mapRange hf e) (hf _)
  | .update op leading _ _ => .update op leading ⟨rfl, hf _⟩ (hf _)
  | .assign op _ value _ => .assign op ⟨rfl, hf _⟩ (exprs_mapRange hf value) (hf _)
  | .sequence items _ => .sequence (exprs_mapRangeAll hf items) (hf _)
  | .array items _ => .array (exprs_mapRangeAll hf items) (hf _)
  | .index base position _ => .index (exprs_mapRange hf base) (exprs_mapRange hf position) (hf _)

theorem exprs_mapRangeAll (hf : ∀ r, κ.Places r (f r)) : (es : List Expr) →
    List.Forall₂ κ.Exprs es (Expr.mapRangeAll f es)
  | [] => .nil
  | e :: es => .cons (exprs_mapRange hf e) (exprs_mapRangeAll hf es)

end

variable (hf : ∀ r, κ.Places r (f r)) (hty : ∀ t : Ty, κ.ty t = κ.ty (t.mapRange f))
include hf hty

theorem declarations_mapRange {d : Declaration} (h : d.ty.Flat) :
    κ.Declarations d (d.mapRange f) where
  isMutable_eq := rfl
  ty_eq := hty d.ty
  flat := h
  lengths := by
    rw [Declaration.mapRange, Ty.lengths_mapRange, ← Expr.mapRangeAll_eq_map]
    exact exprs_mapRangeAll hf _
  names := by
    rw [Declaration.mapRange, List.forall₂_map_right_iff]
    exact List.forall₂_same.2 fun _ _ => ⟨rfl, hf _⟩
  initializer := by
    rw [Declaration.mapRange]
    cases d.initializer with
    | none => exact .none
    | some e => exact .some (exprs_mapRange hf e)

/-- A program with flat types is checked like the one at the places it is compared with. -/
theorem statements_mapRange {p : Program} (h : ∀ d, .declaration d ∈ p → d.ty.Flat) :
    List.Forall₂ κ.Statements p (p.mapRange f) := by
  induction p with
  | nil => exact .nil
  | cons stmt p ih =>
    refine .cons ?_ (ih fun d hd => h d (List.mem_cons_of_mem _ hd))
    cases stmt with
    | expression e => exact .expression (exprs_mapRange hf e)
    | declaration d =>
      exact .declaration (declarations_mapRange hf hty (h d List.mem_cons_self))

end MapRange

/-- The comparison of a program with the one further down: the types of variables are the same but
for the lines of their lengths. -/
def moving : Comparison where
  Places r r' := r' = r.down k
  ty := Ty.mapRange Range.eraseLine
  through := by
    rintro a _ b _ rfl rfl
    exact Range.through_down k a b
  erase_ty := Ty.erase_mapRange

/-- A program with flat types is checked like the one further down. -/
theorem statements_down {p : Program} (h : ∀ d, .declaration d ∈ p → d.ty.Flat) :
    List.Forall₂ (moving k).Statements p (p.mapRange (.down k)) := by
  have hty : ∀ t : Ty, (moving k).ty t = (moving k).ty (t.mapRange (.down k)) := fun t =>
    (Ty.mapRange_mapRange (f := Range.down k) (g := Range.eraseLine) t).symm
  exact statements_mapRange (fun _ => rfl) hty h

end Comparison

end Down

section Lower

variable {α β : Type} (f : Range → Range) (mode : ConstantMode)

/-- The defect at another place. -/
def Defect.mapRange : Defect → Defect
  | missingSlot id => missingSlot (id.mapRange f)
  | defect => defect

/-- The step with its defects at other places. -/
def Lower.mapRange (x : Lower α) : Lower α :=
  EStateM.adaptExcept (Defect.mapRange f) x

variable {f mode}

namespace Lower

theorem mapRange_bind (x : Lower α) (k : α → Lower β) :
    mapRange f (x >>= k) = mapRange f x >>= fun a => mapRange f (k a) := by
  funext st
  show EStateM.adaptExcept _ (EStateM.bind x k) st = EStateM.bind (EStateM.adaptExcept _ x) _ st
  unfold EStateM.adaptExcept EStateM.bind
  dsimp only
  cases x st <;> rfl

theorem mapRange_pure (a : α) : mapRange f (pure a) = (pure a : Lower α) := rfl

theorem mapRange_eq_ok {x : Lower α} {st st' : Lowering} {a : α} :
    (x.mapRange f).run st = .ok a st' ↔ x.run st = .ok a st' := by
  unfold mapRange EStateM.adaptExcept EStateM.run
  dsimp only
  cases x st <;> simp

theorem mapRange_eq_error {x : Lower α} {st st' : Lowering} {defect : Defect} :
    (x.mapRange f).run st = .error defect st' ↔
      ∃ defect', x.run st = .error defect' st' ∧ defect'.mapRange f = defect := by
  unfold mapRange EStateM.adaptExcept EStateM.run
  dsimp only
  cases x st <;> simp [and_comm]

theorem mapRange_slot (id : Ident) : mapRange f (slot id) = slot (id.mapRange f) := by
  rw [slot, slot, mapRange_bind]
  refine bind_congr fun st => ?_
  rw [Ident.mapRange]
  cases st.slots.get? id.name <;> rfl

theorem mapRange_intern (d : Datum) : mapRange f (intern d) = intern d := by
  funext ⟨slots, pool⟩
  unfold mapRange EStateM.adaptExcept intern ConstantPool.intern
  dsimp only
  cases pool.entries.find? (·.toDatum = d) with
  | some _ => rfl
  | none =>
    dsimp only
    split_ifs <;> rfl

theorem mapRange_allocate (storage : Storage) (id : Ident) :
    mapRange f (allocate storage id) = allocate storage (id.mapRange f) := by
  funext ⟨slots, pool⟩
  unfold mapRange EStateM.adaptExcept allocate SlotTable.allocate
  dsimp only [Ident.mapRange]
  cases slots.get? id.name with
  | some _ => rfl
  | none =>
    dsimp only
    split_ifs <;> rfl

theorem mapRange_mapM_allocate (storage : Storage) (ids : List Ident) :
    mapRange f (ids.mapM (allocate storage)) =
      (ids.map (Ident.mapRange f)).mapM (allocate storage) := by
  induction ids with
  | nil => rfl
  | cons id ids ih =>
    simp only [List.map_cons, List.mapM_cons, mapRange_bind, mapRange_allocate, ih, mapRange_pure]

end Lower

theorem Literal.mapRange_lower (value : Literal) :
    (value.lower mode).mapRange f = value.lower mode := by
  cases value with
  | integer _ | char _ | null => rfl
  | float _ | string _ =>
    cases mode with
    | inline => rfl
    | pooled =>
      simp only [lower, Datum.lower, Lower.mapRange_bind, Lower.mapRange_intern,
        Lower.mapRange_pure]

mutual

/-- Wherever it stands, an expression is lowered alike. -/
theorem Expr.lower_mapRange : (e : Expr) →
    (e.mapRange f).lower mode = (e.lower mode).mapRange f
  | literal value _ => by
    simp only [mapRange, lower, Lower.mapRange_bind, Literal.mapRange_lower, Lower.mapRange_pure]
  | ident id => by
    simp only [mapRange, lower, Lower.mapRange_bind, Lower.mapRange_slot, Lower.mapRange_pure,
      Ident.mapRange]
  | binary op l r _ => by
    simp only [mapRange, lower, lower_mapRange l, lower_mapRange r, Lower.mapRange_bind,
      Lower.mapRange_pure]
  | unary op e _ => by
    simp only [mapRange, lower, lower_mapRange e, Lower.mapRange_bind, Lower.mapRange_pure]
  | update op leading target _ => by
    simp only [mapRange, lower, Lower.mapRange_bind, Lower.mapRange_slot, Lower.mapRange_pure,
      Ident.mapRange]
  | assign op target value _ => by
    cases op <;>
      simp only [mapRange, lower, lower_mapRange value, Lower.mapRange_bind, Lower.mapRange_slot,
        Lower.mapRange_pure, Ident.mapRange]
  | sequence items _ => by
    rw [mapRange, lower, lower, lowerAll_mapRangeAll items]
  | array items _ => by
    have hlength : (mapRangeAll f items).length = items.length := by
      rw [mapRangeAll_eq_map, List.length_map]
    rw [mapRange, lower, lower, hlength]
    split_ifs
    · simp only [lowerAll_mapRangeAll items, Lower.mapRange_bind, Lower.mapRange_pure]
    · rfl
  | index base position _ => by
    simp only [mapRange, lower, lower_mapRange base, lower_mapRange position, Lower.mapRange_bind,
      Lower.mapRange_pure]

theorem Expr.lowerAll_mapRangeAll : (es : List Expr) →
    lowerAll mode (mapRangeAll f es) = (lowerAll mode es).mapRange f
  | [] => rfl
  | e :: es => by
    simp only [mapRangeAll, lowerAll, lower_mapRange e, lowerAll_mapRangeAll es,
      Lower.mapRange_bind, Lower.mapRange_pure]

end

theorem Declaration.lower_mapRange (d : Declaration) :
    (d.mapRange f).lower mode = (d.lower mode).mapRange f := by
  have hnames : (d.names.map (Ident.mapRange f)).map Ident.name = d.names.map Ident.name := by
    rw [List.map_map]
    rfl
  rw [lower, lower, mapRange, Lower.mapRange_bind, Lower.mapRange_mapM_allocate]
  dsimp only
  rw [Storage.ofTy_mapRange, hnames]
  refine bind_congr fun slots => ?_
  cases d.initializer with
  | none => rfl
  | some e =>
    cases (d.names.map Ident.name).zip slots with
    | nil => rfl
    | cons first others =>
      show (e.mapRange f).lower mode >>= _ = Lower.mapRange f (e.lower mode >>= _)
      rw [Lower.mapRange_bind, Expr.lower_mapRange]
      rfl

/-- Wherever it stands, a program is lowered alike. -/
theorem Program.lower_mapRange (p : Program) :
    Program.lower mode (p.mapRange f) = (Program.lower mode p).mapRange f := by
  have hstmt : ∀ stmt : Statement, (stmt.mapRange f).lower mode = (stmt.lower mode).mapRange f := by
    intro stmt
    cases stmt with
    | expression e => exact e.lower_mapRange
    | declaration d => exact d.lower_mapRange
  induction p with
  | nil => rfl
  | cons stmt p ih =>
    have hcons : Program.mapRange f (stmt :: p) = stmt.mapRange f :: Program.mapRange f p := rfl
    rw [hcons]
    simp only [Program.lower, hstmt, ih, Lower.mapRange_bind, Lower.mapRange_pure]

end Lower

section Warnings

variable {f : Range → Range}

theorem Expr.overflow?_mapRange (e : Expr) :
    (e.mapRange f).overflow? = e.overflow?.map (Warning.mapRange f) := by
  cases e with
  | literal value range =>
    cases value with
    | integer n =>
      rw [mapRange, overflow?, overflow?]
      split_ifs <;> rfl
    | float _ | string _ | char _ | null => rfl
  | _ => rfl

mutual

theorem Expr.nodes_mapRange : (e : Expr) → (e.mapRange f).nodes = e.nodes.map (mapRange f)
  | literal _ _ | ident _ | update _ _ _ _ => rfl
  | binary op l r _ => by
    rw [mapRange, nodes, nodes, nodes_mapRange l, nodes_mapRange r, List.map_cons, List.map_append,
      mapRange]
  | unary op e _ => by rw [mapRange, nodes, nodes, nodes_mapRange e, List.map_cons, mapRange]
  | assign op target value _ => by
    rw [mapRange, nodes, nodes, nodes_mapRange value, List.map_cons, mapRange]
  | sequence items _ => by
    rw [mapRange, nodes, nodes, nodesAll_mapRangeAll items, List.map_cons, mapRange]
  | array items _ => by
    rw [mapRange, nodes, nodes, nodesAll_mapRangeAll items, List.map_cons, mapRange]
  | index base position _ => by
    rw [mapRange, nodes, nodes, nodes_mapRange base, nodes_mapRange position, List.map_cons,
      List.map_append, mapRange]

theorem Expr.nodesAll_mapRangeAll : (es : List Expr) →
    nodesAll (mapRangeAll f es) = (nodesAll es).map (mapRange f)
  | [] => rfl
  | e :: es => by
    rw [mapRangeAll, nodesAll, nodesAll, nodes_mapRange e, nodesAll_mapRangeAll es, List.map_append]

end

/-- The warnings about a program move with it. -/
theorem Program.overflows_mapRange (p : Program) :
    (p.mapRange f).overflows = p.overflows.map (Warning.mapRange f) := by
  have hchecked : ∀ stmt : Statement, (stmt.mapRange f).lengths ++ (stmt.mapRange f).evaluated =
      (stmt.lengths ++ stmt.evaluated).map (Expr.mapRange f) := by
    intro stmt
    cases stmt with
    | expression e => rfl
    | declaration d =>
      simp only [Statement.mapRange, Statement.lengths, Statement.evaluated, Declaration.mapRange,
        Ty.lengths_mapRange, Option.toList_map, List.map_append]
  have hstmt : ∀ stmt : Statement,
      (stmt.mapRange f).overflows = stmt.overflows.map (Warning.mapRange f) := by
    intro stmt
    simp only [Statement.overflows, hchecked, List.flatMap_map, Expr.nodes_mapRange,
      ← List.map_flatMap, List.filterMap_map, List.map_filterMap, Function.comp_def,
      Expr.overflow?_mapRange]
  simp only [overflows, mapRange, List.flatMap_map, hstmt, List.map_flatMap]

end Warnings

end StackCompiler
