import Mathlib.Data.Nat.Basic
import Mathlib.Order.Basic
import StackCompiler.Proofs.Joining
import StackCompiler.Proofs.Rereading

/-!
# Nested sequences

A comma takes its right operand into the sequence on its left, so the first item of a sequence is
never a sequence. The right operand stays as it is, and it is a sequence only in parentheses
(`Expr.Derives.parenthesized`): these are all the sequences that stand directly in another one, in
the expressions of a program as in the folded ones.
-/

namespace StackCompiler

namespace Expr

/-- Whether the outermost node is a sequence. -/
def isSequence : Expr → Bool
  | sequence .. => true
  | literal .. | ident _ | binary .. | unary .. | update .. | assign .. | array .. | index .. =>
    false

/-- The tokens are written for the expression in parentheses. -/
def Parenthesized (ts : List Token) (e : Expr) : Prop :=
  ∃ l us r, ts = l :: us ++ [r] ∧ l.kind = .symbol .leftParen ∧ Derives 1 us e ∧
    r.kind = .symbol .rightParen

/-- The expression stands somewhere among the tokens in parentheses behind a comma. -/
def GroupedIn (ts : List Token) (e : Expr) : Prop :=
  ∃ comma us, comma :: us <:+: ts ∧ comma.kind = .symbol .comma ∧ Parenthesized us e

/-- The items of a sequence that nests only sequences that fit `P`. There are two or more; the first
is no sequence, and any other that is one fits. -/
structure ItemsNest (P : Expr → Prop) (items : List Expr) : Prop where
  two_le_length : 2 ≤ items.length
  head : ∀ e ∈ items.head?, e.isSequence = false
  tail : ∀ e ∈ items.tail, e.isSequence → P e

/-- The outermost node, if it is a sequence, nests only sequences that fit `P`. -/
def RootNests (P : Expr → Prop) (e : Expr) : Prop :=
  ∀ items range, e = .sequence items range → ItemsNest P items

/-- Every sequence in the tree nests only sequences that fit `P`. -/
def Nests (P : Expr → Prop) (e : Expr) : Prop :=
  ∀ n ∈ e.nodes, n.RootNests P

section Nesting

variable {P : Expr → Prop} {l r e : Expr}

theorem rootNests_of_isSequence_eq_false (h : e.isSequence = false) : e.RootNests P := by
  rintro _ _ rfl
  cases h

theorem nests_of_nodes_eq (hn : e.nodes = [e]) (h : e.isSequence = false) : e.Nests P := by
  rw [Nests, hn]
  exact List.forall_mem_singleton.2 (rootNests_of_isSequence_eq_false h)

/-! ## The right operand of a comma -/

theorem ItemsNest.pair (hl : l.isSequence = false) (hr : r.isSequence → P r) :
    ItemsNest P [l, r] where
  two_le_length := le_rfl
  head := by
    rintro _ ⟨⟩
    exact hl
  tail := List.forall_mem_singleton.2 hr

theorem ItemsNest.append {items : List Expr} (h : ItemsNest P items) (hr : r.isSequence → P r) :
    ItemsNest P (items ++ [r]) := by
  obtain ⟨hlength, hhead, htail⟩ := h
  cases items with
  | nil => cases hlength
  | cons first rest =>
    refine ⟨hlength.trans (by simp), hhead, ?_⟩
    exact List.forall_mem_append.2 ⟨htail, List.forall_mem_singleton.2 hr⟩

theorem Nests.followedBy (hl : l.Nests P) (hr : r.Nests P) (hp : r.isSequence → P r) :
    (followedBy l r).Nests P := by
  cases l with
  | sequence items place =>
    have hitems := (hl _ (mem_nodes_self _) items place rfl).append hp
    refine forall_mem_nodes_sequence.2 ⟨by rintro _ _ ⟨⟩; exact hitems, ?_⟩
    exact List.forall_mem_append.2
      ⟨(forall_mem_nodes_sequence.1 hl).2, List.forall_mem_singleton.2 hr⟩
  | literal | ident | binary | unary | update | assign | array | index =>
    refine forall_mem_nodes_sequence.2 ⟨by rintro _ _ ⟨⟩; exact .pair rfl hp, ?_⟩
    exact List.forall_mem_cons.2 ⟨hl, List.forall_mem_singleton.2 hr⟩

end Nesting

/-- An expression of a higher level than sequences have is a sequence in parentheses only. -/
theorem Derives.parenthesized {n : Nat} {ts : List Token} {e : Expr} : Derives n ts e → 2 ≤ n →
    e.isSequence → Parenthesized ts e
  | .group hl he hr, _, _ => ⟨_, _, _, rfl, hl, he, hr⟩
  | .ofNext h, hn, hs => h.parenthesized (Nat.le_succ_of_le hn) hs
  | .sequence .., hn, _ => absurd hn (by decide)
  | .literal _, _, hs | .name _, _, hs | .array .., _, hs | .updateAfter .., _, hs
  | .index .., _, hs | .updateBefore .., _, hs | .unary .., _, hs | .binary .., _, hs
  | .assign .., _, hs => absurd hs Bool.false_ne_true

end Expr

/-! ## Derivations -/

section Among

variable {t : Token} {ts us vs : List Token}

theorem infix_of_append_left (h : us ++ vs <:+: ts) : us <:+: ts :=
  (List.prefix_append us vs).isInfix.trans h

theorem infix_of_append_right (h : us ++ vs <:+: ts) : vs <:+: ts :=
  (List.suffix_append us vs).isInfix.trans h

theorem infix_of_cons (h : t :: us <:+: ts) : us <:+: ts :=
  (List.suffix_cons t us).isInfix.trans h

end Among

namespace Expr

variable {ts : List Token}

mutual

/-- An expression that is written with some of the tokens nests only sequences that stand there in
parentheses behind a comma. -/
theorem Derives.nests {n : Nat} {us : List Token} {e : Expr} : Derives n us e → us <:+: ts →
    e.Nests (GroupedIn ts)
  | .literal _, _ | .name _, _ | .updateAfter .., _ | .updateBefore .., _ =>
    nests_of_nodes_eq rfl rfl
  | .group _ he _, h => he.nests (infix_of_cons (infix_of_append_left h))
  | .array _ hi _, h => by
    have hitems := hi.nests (infix_of_cons (infix_of_append_left h))
    exact forall_mem_nodes_array.2 ⟨rootNests_of_isSequence_eq_false rfl, hitems⟩
  | .index hb _ hp _, h => by
    have hbase := hb.nests (infix_of_append_left h)
    have hposition := hp.nests (infix_of_append_left (infix_of_cons (infix_of_append_right h)))
    exact forall_mem_nodes_index.2 ⟨rootNests_of_isSequence_eq_false rfl, hbase, hposition⟩
  | .unary _ _ he, h =>
    forall_mem_nodes_unary.2 ⟨rootNests_of_isSequence_eq_false rfl, he.nests (infix_of_cons h)⟩
  | .binary hl _ _ hr, h => by
    have hleft := hl.nests (infix_of_append_left h)
    have hright := hr.nests (infix_of_cons (infix_of_append_right h))
    exact forall_mem_nodes_binary.2 ⟨rootNests_of_isSequence_eq_false rfl, hleft, hright⟩
  | .assign _ _ _ hr, h => by
    have hvalue := hr.nests (infix_of_cons (infix_of_append_right h))
    exact forall_mem_nodes_assign.2 ⟨rootNests_of_isSequence_eq_false rfl, hvalue⟩
  | .sequence hl ht hr, h => by
    have hbehind := infix_of_append_right h
    refine (hl.nests (infix_of_append_left h)).followedBy (hr.nests (infix_of_cons hbehind))
      fun hs => ?_
    exact ⟨_, _, hbehind, ht, hr.parenthesized le_rfl hs⟩
  | .ofNext hd, h => hd.nests h

theorem DerivesItems.nests {us : List Token} {es : List Expr} : DerivesItems us es →
    us <:+: ts → ∀ e ∈ es, e.Nests (GroupedIn ts)
  | .none, _ => List.forall_mem_nil _
  | .some he hs, h => List.forall_mem_cons.2
      ⟨he.nests (infix_of_append_left h), hs.nests (infix_of_append_right h)⟩

theorem DerivesMore.nests {us : List Token} {es : List Expr} : DerivesMore us es →
    us <:+: ts → ∀ e ∈ es, e.Nests (GroupedIn ts)
  | .nil, _ => List.forall_mem_nil _
  | .cons _ he hs, h => List.forall_mem_cons.2
      ⟨he.nests (infix_of_cons (infix_of_append_left h)), hs.nests (infix_of_append_right h)⟩

end

end Expr

mutual

theorem Ty.Derives.nests {ts us : List Token} {t : Ty} : Ty.Derives us t → us <:+: ts →
    ∀ e ∈ t.lengths, e.Nests (Expr.GroupedIn ts)
  | .single hm, h => hm.nests h
  | .union hm hs, h => Ty.forall_mem_lengths_join (List.forall_mem_cons.2
      ⟨hm.nests (infix_of_append_left h), hs.nests (infix_of_append_right h)⟩)

theorem Ty.DerivesMember.nests {ts us : List Token} {t : Ty} : Ty.DerivesMember us t →
    us <:+: ts → ∀ e ∈ t.lengths, e.Nests (Expr.GroupedIn ts)
  | .scalar _, _ | .null _, _ => List.forall_mem_nil _
  | .group _ ht _, h => ht.nests (infix_of_cons (infix_of_append_left h))
  | .array ht _ _, h => ht.nests (infix_of_append_left h)
  | .sized ht _ he _, h => by
    have hlength := he.nests (infix_of_append_left (infix_of_cons (infix_of_append_right h)))
    exact List.forall_mem_cons.2 ⟨hlength, ht.nests (infix_of_append_left h)⟩

theorem Ty.DerivesOthers.nests {ts us : List Token} {others : List Ty} :
    Ty.DerivesOthers us others → us <:+: ts →
      ∀ t ∈ others, ∀ e ∈ t.lengths, e.Nests (Expr.GroupedIn ts)
  | .nil, _ => List.forall_mem_nil _
  | .cons _ ht hs, h => List.forall_mem_cons.2
      ⟨ht.nests (infix_of_cons (infix_of_append_left h)), hs.nests (infix_of_append_right h)⟩

end

section Statements

variable {ts us : List Token}

theorem Declaration.DerivesInitializer.nests {initializer : Option Expr}
    (hi : DerivesInitializer us initializer) (h : us <:+: ts) :
    ∀ e ∈ initializer.toList, e.Nests (Expr.GroupedIn ts) := by
  cases hi with
  | none => exact List.forall_mem_nil _
  | some _ he => exact List.forall_mem_singleton.2 (he.nests (infix_of_cons h))

theorem Declaration.Derives.nests {d : Declaration} (hd : Declaration.Derives us d)
    (h : us <:+: ts) :
    ∀ e ∈ (Statement.declaration d).expressions, e.Nests (Expr.GroupedIn ts) := by
  -- Both forms have the type and the initial value at the same place.
  have hparts : ∀ {keyword colon : Token} {ns ws is stop : List Token} {ty : Ty}
      {initializer : Option Expr}, Ty.Derives ws ty → DerivesInitializer is initializer →
      keyword :: (ns ++ colon :: (ws ++ (is ++ stop))) <:+: ts →
      ∀ e ∈ ty.lengths ++ initializer.toList, e.Nests (Expr.GroupedIn ts) := by
    intro _ _ _ _ _ _ _ _ hty hi h
    have hbehind := infix_of_cons (infix_of_append_right (infix_of_cons h))
    exact List.forall_mem_append.2 ⟨hty.nests (infix_of_append_left hbehind),
      hi.nests (infix_of_append_left (infix_of_append_right hbehind))⟩
  cases hd with
  | mutable _ _ _ hty hi _ => exact hparts hty hi h
  | constant _ _ _ hty hi _ => exact hparts hty hi h

theorem Statement.Derives.nests {stmt : Option Statement} (hs : Statement.Derives us stmt)
    (h : us <:+: ts) : ∀ s ∈ stmt, ∀ e ∈ s.expressions, e.Nests (Expr.GroupedIn ts) := by
  cases hs with
  | empty _ => rintro _ ⟨⟩
  | declaration hd =>
    rintro _ ⟨⟩
    exact hd.nests h
  | expression he _ =>
    rintro _ ⟨⟩
    exact List.forall_mem_singleton.2 (he.nests (infix_of_append_left h))

theorem Program.Derives.nests {p : Program} (hp : Program.Derives us p) (h : us <:+: ts) :
    ∀ e ∈ p.expressions, e.Nests (Expr.GroupedIn ts) := by
  induction hp with
  | nil => exact List.forall_mem_nil _
  | cons hs _ ih =>
    rw [expressions, List.flatMap_append]
    refine List.forall_mem_append.2 ⟨fun e he => ?_, ih (infix_of_append_right h)⟩
    obtain ⟨stmt, hstmt, he⟩ := List.mem_flatMap.1 he
    exact hs.nests (infix_of_append_left h) stmt (Option.mem_toList.1 hstmt) e he

end Statements

/-! ## Folding -/

namespace Expr

/-- What a tree that fits `P` folds to. -/
def FoldedFrom (P : Expr → Prop) (n : Expr) : Prop :=
  ∃ e : Expr, P e ∧ e.fold = n

variable {P : Expr → Prop} {e : Expr}

theorem isSequence_fold (e : Expr) : e.fold.isSequence = e.isSequence := by
  cases e with
  | binary op l r place =>
    rcases fold_binary op l r place with ⟨_, _, _, _, _, _, _, _, hf⟩ | ⟨_, hf⟩
    · rw [hf]
      rfl
    · rw [hf]
      rfl
  | literal | ident | unary | update | assign | sequence | array | index => rfl

theorem ItemsNest.fold {items : List Expr} (h : ItemsNest P items) :
    ItemsNest (FoldedFrom P) (items.map Expr.fold) where
  two_le_length := h.two_le_length.trans_eq (List.length_map _).symm
  head := by
    rw [List.head?_map]
    intro e he
    obtain ⟨first, hfirst, rfl⟩ := Option.map_eq_some_iff.1 he
    rw [isSequence_fold]
    exact h.head first hfirst
  tail := by
    rw [← List.map_tail, List.forall_mem_map]
    intro item hitem hs
    rw [isSequence_fold] at hs
    exact ⟨item, h.tail item hitem hs, rfl⟩

theorem RootNests.fold (h : e.RootNests P) : e.fold.RootNests (FoldedFrom P) := by
  cases e with
  | sequence items place =>
    rintro _ _ ⟨⟩
    rw [foldAll_eq_map]
    exact (h items place rfl).fold
  | literal | ident | binary | unary | update | assign | array | index =>
    exact rootNests_of_isSequence_eq_false (isSequence_fold _)

theorem Nests.fold (h : e.Nests P) : e.fold.Nests (FoldedFrom P) :=
  forall_mem_nodes_fold fun n hn => (h n hn).fold

end Expr

/-- A sequence that stands directly in another one is a later item of it and is written in
parentheses behind a comma. This is so in the expressions of every program that is read of a source
text, lengths included, and in the folded ones, where it is such a sequence folded. -/
theorem Program.sequences_of_ofSource {source : String} {p : Program}
    (h : Program.ofSource source = .ok p) :
    ∃ ts, tokenize source = .ok ts ∧
      (∀ e ∈ p.expressions, ∀ items range, .sequence items range ∈ e.nodes →
        Expr.ItemsNest (Expr.GroupedIn ts) items) ∧
      ∀ e ∈ p.fold.expressions, ∀ items range, .sequence items range ∈ e.nodes →
        Expr.ItemsNest (Expr.FoldedFrom (Expr.GroupedIn ts)) items := by
  obtain ⟨us, stop, hts, hd, -, -⟩ := Program.ofSource_eq_ok h
  have hnests := hd.nests (List.prefix_append us [stop]).isInfix
  refine ⟨_, hts, fun e he items range hn => hnests e he _ hn items range rfl, ?_⟩
  rw [← Evaluator.program_literals, Evaluator.expressions_program, List.forall_mem_map]
  intro e he items range hn
  rw [Evaluator.fold_literals] at hn
  exact (hnests e he).fold _ hn items range rfl

/-- A sequence in parentheses before a comma takes in what is behind it. -/
theorem Program.sequences_of_ofSource_before :
    ∃ items range ts, Program.ofSource "(a, b), c;" = .ok [.expression (.sequence items range)] ∧
      tokenize "(a, b), c;" = .ok ts ∧ items.length = 3 ∧
      Expr.ItemsNest (Expr.GroupedIn ts) items := by
  have hp : Program.ofSource "(a, b), c;" =
      .ok [.expression (.sequence [.ident ⟨"a", ⟨1, 1, 2⟩⟩, .ident ⟨"b", ⟨1, 4, 5⟩⟩,
        .ident ⟨"c", ⟨1, 8, 9⟩⟩] ⟨1, 1, 9⟩)] := by
    decide +kernel
  obtain ⟨ts, hts, hitems, -⟩ := Program.sequences_of_ofSource hp
  exact ⟨_, _, ts, hp, hts, rfl, hitems _ List.mem_cons_self _ _ List.mem_cons_self⟩

/-- A sequence in parentheses behind a comma is an item of the sequence that the comma makes. -/
theorem Program.exists_ofSource_nested_sequence :
    ∃ p, Program.ofSource "a, (b, c);" = .ok p ∧
      ∀ q ∈ [p, p.fold], ∃ e ∈ q.expressions, ∃ items range inner place,
        .sequence items range ∈ e.nodes ∧ .sequence inner place ∈ items := by
  have hp : Program.ofSource "a, (b, c);" =
      .ok [.expression (.sequence [.ident ⟨"a", ⟨1, 0, 1⟩⟩,
        .sequence [.ident ⟨"b", ⟨1, 4, 5⟩⟩, .ident ⟨"c", ⟨1, 7, 8⟩⟩] ⟨1, 4, 8⟩] ⟨1, 0, 8⟩)] := by
    decide +kernel
  refine ⟨_, hp, ?_⟩
  -- There are no constants to fold.
  refine List.forall_mem_cons.2 ⟨?_, List.forall_mem_singleton.2 ?_⟩ <;>
    exact ⟨_, List.mem_cons_self, _, _, _, _, List.mem_cons_self,
      List.mem_cons_of_mem _ List.mem_cons_self⟩

end StackCompiler
