import Mathlib.Data.List.Basic
import Mathlib.Data.Nat.Basic
import Mathlib.Order.Basic
import StackCompiler.Proofs.Folding
import StackCompiler.Proofs.Layout
import StackCompiler.Proofs.NormalForm
import StackCompiler.Proofs.Sequences

/-!
# Ranges in a text of one line

The tokens of a text without line feeds stand one after another on its first line (`InLine`). Every
expression inside one that is written with such tokens is itself written with some of them
(`Expr.Derives.writtenIn`), and its range goes from the start of one of these to the end of another
(`Range.Spans`). The ranges of what it is made of lie in it, apart and in order
(`Expr.Derives.laidOut`). Declarations cover their names, lengths and initial values in the same way
(`Declaration.Derives.laidOut`), and folding changes none of this.
-/

namespace StackCompiler

namespace Range

/-- The range is a stretch of the first line, from where one of the tokens starts to where one of
them stops. -/
structure Spans (us : List Token) (r : Range) : Prop where
  line : r.line = 1
  lt : r.start < r.stop
  exists_start : ∃ t ∈ us, t.range.start = r.start
  exists_stop : ∃ t ∈ us, t.range.stop = r.stop

/-- `r` lies in `place`. -/
structure Covers (place r : Range) : Prop where
  line : r.line = place.line
  start : place.start ≤ r.start
  stop : r.stop ≤ place.stop

/-- `b` starts where `a` stops or later. -/
def Before (a b : Range) : Prop :=
  a.stop ≤ b.start

theorem Covers.trans {a b c : Range} (hab : a.Covers b) (hbc : b.Covers c) : a.Covers c where
  line := hbc.line.trans hab.line
  start := hab.start.trans hbc.start
  stop := hbc.stop.trans hab.stop

theorem Spans.mono {r : Range} {us vs : List Token} (h : r.Spans us) (hsub : us ⊆ vs) :
    r.Spans vs where
  line := h.line
  lt := h.lt
  exists_start := h.exists_start.imp fun _ ht => ht.imp_left (hsub ·)
  exists_stop := h.exists_stop.imp fun _ ht => ht.imp_left (hsub ·)

end Range

theorem append_sublist_append_cons (t : Token) (us vs : List Token) :
    (us ++ vs).Sublist (us ++ t :: vs) :=
  (List.sublist_cons_self t vs).append_left us

/-- The tokens stand one after another on the first line, and none of them is empty. -/
structure InLine (us : List Token) : Prop where
  spans : ∀ t ∈ us, t.range.Spans [t]
  pairwise : us.Pairwise fun t t' => t.range.Before t'.range

theorem InLine.sublist {us vs : List Token} (h : InLine vs) (hs : us.Sublist vs) : InLine us where
  spans := fun t ht => h.spans t (hs.subset ht)
  pairwise := h.pairwise.sublist hs

theorem InLine.left {us vs : List Token} (h : InLine (us ++ vs)) : InLine us :=
  h.sublist (List.sublist_append_left us vs)

theorem InLine.right {us vs : List Token} (h : InLine (us ++ vs)) : InLine vs :=
  h.sublist (List.sublist_append_right us vs)

theorem InLine.tail {t : Token} {us : List Token} (h : InLine (t :: us)) : InLine us :=
  h.sublist (List.sublist_cons_self t us)

namespace Range

section Joined

variable {a b r : Range} {us vs ws : List Token}

/-- What is written with earlier tokens stands before what is written with later ones. -/
theorem Spans.before (ha : a.Spans us) (hb : b.Spans vs) (h : InLine (us ++ vs)) : a.Before b := by
  obtain ⟨t, ht, hstop⟩ := ha.exists_stop
  obtain ⟨t', ht', hstart⟩ := hb.exists_start
  have hbefore : t.range.Before t'.range := (List.pairwise_append.1 h.pairwise).2.2 t ht t' ht'
  rwa [Before, hstop, hstart] at hbefore

theorem Spans.stop_through (ha : a.Spans us) (hb : b.Spans vs) (h : a.Before b) :
    (a.through b).stop = b.stop := by
  rw [through, if_pos (hb.line.trans ha.line.symm)]
  exact max_eq_left (h.trans hb.lt.le)

/-- The range from one to another that is written with later tokens spans all of them and covers
both, which stand apart and in order. -/
theorem Spans.through (ha : a.Spans us) (hb : b.Spans vs) (h : InLine (us ++ vs)) :
    (a.through b).Spans (us ++ vs) ∧ (∀ r ∈ [a, b], (a.through b).Covers r) ∧
      [a, b].Pairwise Before := by
  have hbefore := ha.before hb h
  have hstop := ha.stop_through hb hbefore
  have hle : a.stop ≤ b.stop := hbefore.trans hb.lt.le
  refine ⟨⟨ha.line, ?_, ?_, ?_⟩, ?_, List.pairwise_pair.2 hbefore⟩
  · rw [hstop]
    exact ha.lt.trans_le hle
  · exact (ha.mono (List.subset_append_left us vs)).exists_start
  · rw [hstop]
    exact (hb.mono (List.subset_append_right us vs)).exists_stop
  · refine List.forall_mem_cons.2 ⟨⟨rfl, le_rfl, hle.trans_eq hstop.symm⟩, ?_⟩
    refine List.forall_mem_singleton.2 ⟨hb.line.trans ha.line.symm, ?_, hstop.ge⟩
    exact ha.lt.le.trans hbefore

/-- What stands between two ranges lies in the range from the one to the other. -/
theorem Spans.through_covers (hr : r.Spans ws) (ha : a.Spans us) (hb : b.Spans vs)
    (har : a.Before r) (hrb : r.Before b) : (a.through b).Covers r where
  line := hr.line.trans ha.line.symm
  start := ha.lt.le.trans har
  stop := by
    rw [ha.stop_through hb (har.trans (hr.lt.le.trans hrb))]
    exact hrb.trans hb.lt.le

/-- One more range before others that are written with later tokens. -/
theorem Spans.cons {rs : List Range} (ha : a.Spans us)
    (hrs : (∀ r ∈ rs, r.Spans vs) ∧ rs.Pairwise Before) (h : InLine (us ++ vs)) :
    (∀ r ∈ a :: rs, r.Spans (us ++ vs)) ∧ (a :: rs).Pairwise Before := by
  obtain ⟨hspans, hapart⟩ := hrs
  refine ⟨List.forall_mem_cons.2 ⟨ha.mono (List.subset_append_left us vs), fun r hr => ?_⟩,
    List.pairwise_cons.2 ⟨fun r hr => ha.before (hspans r hr) h, hapart⟩⟩
  exact (hspans r hr).mono (List.subset_append_right us vs)

end Joined

/-- What is written between two tokens lies in the range from the one to the other. -/
theorem Spans.enclose {l r : Token} {us : List Token} (h : InLine (l :: us ++ [r])) :
    (l.range.through r.range).Spans (l :: us ++ [r]) ∧
      ∀ part : Range, part.Spans us → (l.range.through r.range).Covers part := by
  have hl := h.spans l List.mem_cons_self
  have hr := h.spans r (by simp)
  have hopen : InLine ([l] ++ us) := h.left
  have hclose : InLine (us ++ [r]) := h.tail
  have hends : [l, r].Sublist (l :: us ++ [r]) := (List.sublist_append_right us [r]).cons_cons l
  refine ⟨(hl.through hr (h.sublist hends)).1.mono hends.subset, fun part hpart => ?_⟩
  exact hpart.through_covers hl hr (hl.before hpart hopen) (hpart.before hr hclose)

/-- The place of a text that has no line feed before it. -/
theorem Locates.eq_of_notMem {r : Range} {before text after : List Char}
    (h : r.Locates before text after) (hb : '\n' ∉ before) :
    r = ⟨1, before.length, before.length + text.length⟩ := by
  have hlast : lastLine ([] ++ before) = [] ++ before := lastLine_append hb
  rw [List.nil_append] at hlast
  have hline := h.line
  rw [List.count_eq_zero_of_not_mem hb] at hline
  have hstart := h.start
  rw [hlast] at hstart
  have hstop := h.stop
  rw [hstart] at hstop
  cases r
  simp only at hline hstart hstop
  rw [hline, hstart, hstop]

end Range

/-- The tokens of a text without line feeds stand in line, behind whatever comes before it. -/
theorem Tiling.inLine {before text : List Char} {ts : List Token} (h : Tiling before text ts)
    (hline : '\n' ∉ before ++ text) :
    ∃ us stop, ts = us ++ [stop] ∧ InLine us ∧ ∀ t ∈ us, before.length ≤ t.range.start := by
  induction h with
  | last hg hr => exact ⟨[], _, rfl, ⟨List.forall_mem_nil _, .nil⟩, List.forall_mem_nil _⟩
  | @cons before g lexeme rest kind r ts hg hl hr _ ih =>
    rw [← List.append_assoc, ← List.append_assoc] at hline
    obtain ⟨us, stop, rfl, hus, hstart⟩ := ih hline
    rw [List.append_assoc, List.mem_append, not_or] at hline
    obtain rfl := hr.eq_of_notMem hline.1
    have hpos := List.length_pos_of_ne_nil hl.ne_nil
    refine ⟨_ :: us, stop, rfl, ⟨List.forall_mem_cons.2 ⟨?_, hus.spans⟩,
      List.pairwise_cons.2 ⟨fun t ht => ?_, hus.pairwise⟩⟩,
      List.forall_mem_cons.2 ⟨?_, fun t ht => ?_⟩⟩
    · exact ⟨rfl, Nat.lt_add_of_pos_right hpos, ⟨_, List.mem_cons_self, rfl⟩,
        ⟨_, List.mem_cons_self, rfl⟩⟩
    · exact List.length_append.ge.trans (hstart t ht)
    · exact List.length_append.ge.trans' (Nat.le_add_right ..)
    · have hle := hstart t ht
      rw [List.length_append, List.length_append] at hle
      omega

/-- The name is that of one of the tokens, where it stands. -/
def Ident.WrittenIn (us : List Token) (id : Ident) : Prop :=
  ∃ t ∈ us, t.kind = .identifier id.name ∧ id.range = t.range ∧ id.range.Spans [t]

namespace Ident.WrittenIn

variable {us vs : List Token} {id : Ident}

theorem mono (h : id.WrittenIn us) (hsub : us ⊆ vs) : id.WrittenIn vs :=
  h.imp fun _ ht => ht.imp_left (hsub ·)

theorem spans (h : id.WrittenIn us) : id.range.Spans us := by
  obtain ⟨t, ht, -, -, hspans⟩ := h
  exact hspans.mono (List.cons_subset.2 ⟨ht, List.nil_subset us⟩)

end Ident.WrittenIn

namespace Expr

/-- The ranges of what the outermost node is made of: its operands, and the name it changes. -/
def parts : Expr → List Range
  | literal .. | ident _ => []
  | binary _ left right _ => [left.range, right.range]
  | unary _ operand _ => [operand.range]
  | update _ _ target _ => [target.range]
  | assign _ target value _ => [target.range, value.range]
  | sequence items _ | array items _ => items.map range
  | index base position _ => [base.range, position.range]

/-- The outermost node is laid out on the tokens: its range goes from one of them to another and
covers its parts, which stand apart and in order, and the name that it uses is one of them. -/
structure LaidOut (us : List Token) (e : Expr) : Prop where
  spans : e.range.Spans us
  subject : ∀ id ∈ e.subject?, id.WrittenIn us
  covers : ∀ r ∈ e.parts, e.range.Covers r
  apart : e.parts.Pairwise Range.Before

theorem LaidOut.mono {us vs : List Token} {e : Expr} (h : e.LaidOut us) (hsub : us ⊆ vs) :
    e.LaidOut vs where
  spans := h.spans.mono hsub
  subject := fun id hid => (h.subject id hid).mono hsub
  covers := h.covers
  apart := h.apart

theorem LaidOut.followedBy {us vs : List Token} {l r : Expr} (hl : l.LaidOut us)
    (hr : r.LaidOut vs) (h : InLine (us ++ vs)) : (followedBy l r).LaidOut (us ++ vs) := by
  obtain ⟨hspans, hcovers, hapart⟩ := hl.spans.through hr.spans h
  cases l with
  | sequence items place =>
    obtain ⟨hleft, hright⟩ := List.forall_mem_cons.1 hcovers
    refine ⟨hspans, by rintro _ ⟨⟩, ?_, ?_⟩
    · rw [Expr.followedBy, parts, List.map_append]
      refine List.forall_mem_append.2 ⟨fun part hpart => ?_, hright⟩
      exact hleft.trans (hl.covers part hpart)
    · rw [Expr.followedBy, parts, List.map_append]
      refine List.pairwise_append.2 ⟨hl.apart, List.pairwise_singleton .., fun part hpart => ?_⟩
      refine List.forall_mem_singleton.2 ?_
      have hbefore : place.Before r.range := List.pairwise_pair.1 hapart
      exact (hl.covers part hpart).stop.trans hbefore
  | literal | ident | binary | unary | update | assign | array | index =>
    exact ⟨hspans, by rintro _ ⟨⟩, hcovers, hapart⟩

mutual

/-- An expression that is written with tokens in line is laid out on them. -/
theorem Derives.laidOut {n : Nat} {us : List Token} {e : Expr} : Derives n us e → InLine us →
    e.LaidOut us
  | .literal _, h =>
    ⟨h.spans _ List.mem_cons_self, by rintro _ ⟨⟩, List.forall_mem_nil _, .nil⟩
  | .name ht, h => by
    have hspans := h.spans _ List.mem_cons_self
    refine ⟨hspans, ?_, List.forall_mem_nil _, .nil⟩
    rintro _ ⟨⟩
    exact ⟨_, List.mem_cons_self, ht, rfl, hspans⟩
  | @Derives.group l r ts _ _ he _, h => by
    have hsub : ts.Sublist (l :: ts ++ [r]) := (List.sublist_append_left ts [r]).cons l
    exact (he.laidOut (h.sublist hsub)).mono hsub.subset
  | .array _ hi _, h => by
    obtain ⟨hspans, hcovers⟩ := Range.Spans.enclose h
    obtain ⟨hitems, hapart⟩ := hi.laidOut h.left.tail
    exact ⟨hspans, by rintro _ ⟨⟩, fun part hpart => hcovers part (hitems part hpart), hapart⟩
  | @Derives.updateAfter t _ _ ts _ he _ _, h => by
    have hid := he.laidOut h.left
    obtain ⟨hspans, hcovers, -⟩ := hid.spans.through (h.spans t (by simp)) h
    refine ⟨hspans, ?_, List.forall_mem_singleton.2 (List.forall_mem_cons.1 hcovers).1,
      List.pairwise_singleton ..⟩
    rintro _ ⟨⟩
    exact (hid.subject _ rfl).mono (List.subset_append_left ts [t])
  | @Derives.index l r ts us _ _ hb _ hp _, h => by
    have hbehind : (us ++ [r]).Sublist (l :: (us ++ [r])) := List.sublist_cons_self l _
    have hclose : InLine (us ++ [r]) := h.right.tail
    have hinner : InLine (ts ++ us) :=
      h.sublist (((List.sublist_append_left us [r]).trans hbehind).append_left ts)
    have hends : (ts ++ [r]).Sublist (ts ++ l :: (us ++ [r])) :=
      ((List.sublist_append_right us [r]).trans hbehind).append_left ts
    have hbase := (hb.laidOut h.left).spans
    have hposition := (hp.laidOut hclose.left).spans
    have hr := h.spans r (by simp)
    obtain ⟨hspans, hcovers, -⟩ := hbase.through hr (h.sublist hends)
    have hbefore := hbase.before hposition hinner
    refine ⟨hspans.mono hends.subset, by rintro _ ⟨⟩, ?_, List.pairwise_pair.2 hbefore⟩
    refine List.forall_mem_cons.2 ⟨(List.forall_mem_cons.1 hcovers).1, ?_⟩
    refine List.forall_mem_singleton.2 ?_
    exact hposition.through_covers hbase hr hbefore (hposition.before hr hclose)
  | @Derives.updateBefore t _ _ ts _ _ _ he, h => by
    have hid := he.laidOut h.tail
    obtain ⟨hspans, hcovers, -⟩ := (h.spans t List.mem_cons_self).through hid.spans h
    refine ⟨hspans, ?_, (List.forall_mem_cons.1 hcovers).2, List.pairwise_singleton ..⟩
    rintro _ ⟨⟩
    exact (hid.subject _ rfl).mono (List.subset_cons_self t ts)
  | .unary _ _ he, h => by
    have hoperand := he.laidOut h.tail
    obtain ⟨hspans, hcovers, -⟩ := (h.spans _ List.mem_cons_self).through hoperand.spans h
    exact ⟨hspans, by rintro _ ⟨⟩, (List.forall_mem_cons.1 hcovers).2, List.pairwise_singleton ..⟩
  | @Derives.binary _ t _ _ ts us _ _ hl _ _ hr, h => by
    have hsub := append_sublist_append_cons t ts us
    have hin := h.sublist hsub
    obtain ⟨hspans, hcovers, hapart⟩ :=
      (hl.laidOut hin.left).spans.through (hr.laidOut hin.right).spans hin
    exact ⟨hspans.mono hsub.subset, by rintro _ ⟨⟩, hcovers, hapart⟩
  | @Derives.assign t _ _ ts us _ _ hl _ _ hr, h => by
    have hsub := append_sublist_append_cons t ts us
    have hin := h.sublist hsub
    have hid := hl.laidOut hin.left
    obtain ⟨hspans, hcovers, hapart⟩ := hid.spans.through (hr.laidOut hin.right).spans hin
    refine ⟨hspans.mono hsub.subset, ?_, hcovers, hapart⟩
    rintro _ ⟨⟩
    exact (hid.subject _ rfl).mono (List.subset_append_left ts _)
  | @Derives.sequence t ts us _ _ hl _ hr, h => by
    have hsub := append_sublist_append_cons t ts us
    have hin := h.sublist hsub
    exact ((hl.laidOut hin.left).followedBy (hr.laidOut hin.right) hin).mono hsub.subset
  | .ofNext hd, h => hd.laidOut h

theorem DerivesItems.laidOut {us : List Token} {es : List Expr} : DerivesItems us es →
    InLine us → (∀ r ∈ es.map range, r.Spans us) ∧ (es.map range).Pairwise Range.Before
  | .none, _ => ⟨List.forall_mem_nil _, .nil⟩
  | .some he hs, h => (he.laidOut h.left).spans.cons (hs.laidOut h.right) h

theorem DerivesMore.laidOut {us : List Token} {es : List Expr} : DerivesMore us es →
    InLine us → (∀ r ∈ es.map range, r.Spans us) ∧ (es.map range).Pairwise Range.Before
  | .nil, _ => ⟨List.forall_mem_nil _, .nil⟩
  | @DerivesMore.cons t ts _ _ _ _ he hs, h => by
    have hitem := (he.laidOut h.left.tail).spans.mono (List.subset_cons_self t ts)
    exact hitem.cons (hs.laidOut h.right) h

end

end Expr

/-! ## Nodes and the tokens they are written with -/

namespace Expr

/-- Some of the tokens, next to each other, are written for the expression. -/
def WrittenIn (ts : List Token) (e : Expr) : Prop :=
  ∃ n us, us <:+: ts ∧ Derives n us e

variable {ts : List Token}

theorem forall_writtenIn_of_nodes_eq {n : Nat} {us : List Token} {e : Expr} (hd : Derives n us e)
    (h : us <:+: ts) (hn : e.nodes = [e]) : ∀ m ∈ e.nodes, m.WrittenIn ts := by
  rw [hn]
  exact List.forall_mem_singleton.2 ⟨n, us, h, hd⟩

theorem forall_writtenIn_followedBy {l r : Expr} (hroot : (followedBy l r).WrittenIn ts)
    (hl : ∀ m ∈ l.nodes, m.WrittenIn ts) (hr : ∀ m ∈ r.nodes, m.WrittenIn ts) :
    ∀ m ∈ (followedBy l r).nodes, m.WrittenIn ts := by
  cases l with
  | sequence items place =>
    refine forall_mem_nodes_sequence.2 ⟨hroot, ?_⟩
    exact List.forall_mem_append.2
      ⟨(forall_mem_nodes_sequence.1 hl).2, List.forall_mem_singleton.2 hr⟩
  | literal | ident | binary | unary | update | assign | array | index =>
    refine forall_mem_nodes_sequence.2 ⟨hroot, ?_⟩
    exact List.forall_mem_cons.2 ⟨hl, List.forall_mem_singleton.2 hr⟩

mutual

/-- Each expression inside one that is written with some of the tokens is so as well. -/
theorem Derives.writtenIn {n : Nat} {us : List Token} {e : Expr} : Derives n us e → us <:+: ts →
    ∀ m ∈ e.nodes, m.WrittenIn ts
  | hd@(.literal _), h | hd@(.name _), h | hd@(.updateAfter ..), h | hd@(.updateBefore ..), h =>
    forall_writtenIn_of_nodes_eq hd h rfl
  | .group _ he _, h => he.writtenIn (infix_of_cons (infix_of_append_left h))
  | hd@(.array _ hi _), h => by
    have hitems := hi.writtenIn (infix_of_cons (infix_of_append_left h))
    exact forall_mem_nodes_array.2 ⟨⟨_, _, h, hd⟩, hitems⟩
  | hd@(.index hb _ hp _), h => by
    have hbase := hb.writtenIn (infix_of_append_left h)
    have hposition := hp.writtenIn (infix_of_append_left (infix_of_cons (infix_of_append_right h)))
    exact forall_mem_nodes_index.2 ⟨⟨_, _, h, hd⟩, hbase, hposition⟩
  | hd@(.unary _ _ he), h =>
    forall_mem_nodes_unary.2 ⟨⟨_, _, h, hd⟩, he.writtenIn (infix_of_cons h)⟩
  | hd@(.binary hl _ _ hr), h => by
    have hleft := hl.writtenIn (infix_of_append_left h)
    have hright := hr.writtenIn (infix_of_cons (infix_of_append_right h))
    exact forall_mem_nodes_binary.2 ⟨⟨_, _, h, hd⟩, hleft, hright⟩
  | hd@(.assign _ _ _ hr), h => by
    have hvalue := hr.writtenIn (infix_of_cons (infix_of_append_right h))
    exact forall_mem_nodes_assign.2 ⟨⟨_, _, h, hd⟩, hvalue⟩
  | hd@(.sequence hl _ hr), h =>
    forall_writtenIn_followedBy ⟨_, _, h, hd⟩ (hl.writtenIn (infix_of_append_left h))
      (hr.writtenIn (infix_of_cons (infix_of_append_right h)))
  | .ofNext hd, h => hd.writtenIn h

theorem DerivesItems.writtenIn {us : List Token} {es : List Expr} : DerivesItems us es →
    us <:+: ts → ∀ e ∈ es, ∀ m ∈ e.nodes, m.WrittenIn ts
  | .none, _ => List.forall_mem_nil _
  | .some he hs, h => List.forall_mem_cons.2
      ⟨he.writtenIn (infix_of_append_left h), hs.writtenIn (infix_of_append_right h)⟩

theorem DerivesMore.writtenIn {us : List Token} {es : List Expr} : DerivesMore us es →
    us <:+: ts → ∀ e ∈ es, ∀ m ∈ e.nodes, m.WrittenIn ts
  | .nil, _ => List.forall_mem_nil _
  | .cons _ he hs, h => List.forall_mem_cons.2 ⟨he.writtenIn
      (infix_of_cons (infix_of_append_left h)), hs.writtenIn (infix_of_append_right h)⟩

end

theorem WrittenIn.nodes {e : Expr} (h : e.WrittenIn ts) : ∀ m ∈ e.nodes, m.WrittenIn ts := by
  obtain ⟨_, _, hus, hd⟩ := h
  exact hd.writtenIn hus

theorem WrittenIn.spans {e : Expr} (h : e.WrittenIn ts) (hin : InLine ts) : e.range.Spans ts := by
  obtain ⟨_, _, hus, hd⟩ := h
  exact (hd.laidOut (hin.sublist hus.sublist)).spans.mono hus.subset

end Expr

mutual

theorem Ty.Derives.writtenIn {ts us : List Token} {t : Ty} : Ty.Derives us t → us <:+: ts →
    ∀ e ∈ t.lengths, e.WrittenIn ts
  | .single hm, h => hm.writtenIn h
  | .union hm hs, h => Ty.forall_mem_lengths_join (List.forall_mem_cons.2
      ⟨hm.writtenIn (infix_of_append_left h), hs.writtenIn (infix_of_append_right h)⟩)

theorem Ty.DerivesMember.writtenIn {ts us : List Token} {t : Ty} : Ty.DerivesMember us t →
    us <:+: ts → ∀ e ∈ t.lengths, e.WrittenIn ts
  | .scalar _, _ | .null _, _ => List.forall_mem_nil _
  | .group _ ht _, h => ht.writtenIn (infix_of_cons (infix_of_append_left h))
  | .array ht _ _, h => ht.writtenIn (infix_of_append_left h)
  | .sized ht _ he _, h => by
    have hlength := infix_of_append_left (infix_of_cons (infix_of_append_right h))
    exact List.forall_mem_cons.2
      ⟨⟨_, _, hlength, he⟩, ht.writtenIn (infix_of_append_left h)⟩

theorem Ty.DerivesOthers.writtenIn {ts us : List Token} {others : List Ty} :
    Ty.DerivesOthers us others → us <:+: ts →
      ∀ t ∈ others, ∀ e ∈ t.lengths, e.WrittenIn ts
  | .nil, _ => List.forall_mem_nil _
  | .cons _ ht hs, h => List.forall_mem_cons.2 ⟨ht.writtenIn
      (infix_of_cons (infix_of_append_left h)), hs.writtenIn (infix_of_append_right h)⟩

end

theorem Ident.DeriveMore.writtenIn {us : List Token} {ids : List Ident} (hd : DeriveMore us ids)
    (h : InLine us) : ∀ id ∈ ids, id.WrittenIn us := by
  induction hd with
  | nil => exact List.forall_mem_nil _
  | @cons comma t name us ids _ ht _ ih =>
    refine List.forall_mem_cons.2 ⟨?_, fun id hid => ?_⟩
    · have hmem : t ∈ comma :: t :: us := List.mem_cons_of_mem comma List.mem_cons_self
      exact ⟨t, hmem, ht, rfl, h.spans t hmem⟩
    · exact (ih h.tail.tail id hid).mono ((List.sublist_cons_self t us).cons comma).subset

theorem Ident.DeriveNames.writtenIn {us : List Token} {ids : List Ident}
    (hd : DeriveNames us ids) (h : InLine us) : ∀ id ∈ ids, id.WrittenIn us := by
  obtain ⟨ht, hs⟩ := hd
  refine List.forall_mem_cons.2 ⟨⟨_, List.mem_cons_self, ht, rfl, ?_⟩, fun id hid => ?_⟩
  · exact h.spans _ List.mem_cons_self
  · exact (hs.writtenIn h.tail id hid).mono (List.subset_cons_self ..)

namespace Declaration

/-- The declaration is laid out on the tokens: its range goes from one of them to another and covers
the names, which are among the tokens, the lengths in its type and the initial value. -/
structure LaidOut (us : List Token) (d : Declaration) : Prop where
  spans : d.range.Spans us
  names : ∀ id ∈ d.names, id.WrittenIn us ∧ d.range.Covers id.range
  lengths : ∀ e ∈ d.ty.lengths, d.range.Covers e.range
  initializer : ∀ e ∈ d.initializer, d.range.Covers e.range

theorem DerivesInitializer.writtenIn {ts us : List Token} {initializer : Option Expr}
    (hi : DerivesInitializer us initializer) (h : us <:+: ts) :
    ∀ e ∈ initializer, e.WrittenIn ts := by
  cases hi with
  | none => rintro _ ⟨⟩
  | some _ he =>
    rintro _ ⟨⟩
    exact ⟨_, _, infix_of_cons h, he⟩

/-- Declarations of both forms are written the same way behind their first token. -/
theorem Derives.exists_parts {us : List Token} {d : Declaration} (h : Declaration.Derives us d) :
    ∃ (keyword colon stop : Token) (ns ts is : List Token),
      us = keyword :: (ns ++ colon :: (ts ++ is)) ++ [stop] ∧ Ident.DeriveNames ns d.names ∧
      Ty.Derives ts d.ty ∧ DerivesInitializer is d.initializer ∧
      d.range = keyword.range.through stop.range := by
  cases h with
  | @mutable keyword colon stop ns ts is _ _ _ _ hn _ ht hi _ =>
    exact ⟨keyword, colon, stop, ns, ts, is, by simp, hn, ht, hi, rfl⟩
  | @constant keyword colon stop ns ts is _ _ _ _ hn _ ht hi _ =>
    exact ⟨keyword, colon, stop, ns, ts, is, by simp, hn, ht, hi, rfl⟩

/-- A declaration that is written with tokens in line is laid out on them. -/
theorem Derives.laidOut {us : List Token} {d : Declaration} (hd : Declaration.Derives us d)
    (h : InLine us) : d.LaidOut us := by
  obtain ⟨keyword, colon, stop, ns, ts, is, rfl, hn, ht, hi, hrange⟩ := hd.exists_parts
  obtain ⟨hspans, hcovers⟩ := Range.Spans.enclose h
  rw [← hrange] at hspans hcovers
  have hin : InLine (ns ++ colon :: (ts ++ is)) := h.left.tail
  have hbehind : ts ++ is <:+: ns ++ colon :: (ts ++ is) :=
    infix_of_cons (infix_of_append_right List.infix_rfl)
  refine ⟨hspans, fun id hid => ?_, fun e he => hcovers _ ?_, fun e he => hcovers _ ?_⟩
  · have hname : id.WrittenIn (ns ++ colon :: (ts ++ is)) :=
      (hn.writtenIn hin.left id hid).mono (List.subset_append_left ..)
    refine ⟨hname.mono ?_, hcovers _ hname.spans⟩
    exact ((List.sublist_append_left _ [stop]).cons keyword).subset
  · exact (ht.writtenIn (infix_of_append_left hbehind) e he).spans hin
  · exact (hi.writtenIn (infix_of_append_right hbehind) e he).spans hin

/-- Some of the tokens, next to each other, are written for the declaration. -/
def WrittenIn (ts : List Token) (d : Declaration) : Prop :=
  ∃ us, us <:+: ts ∧ Declaration.Derives us d

theorem WrittenIn.expressions {ts : List Token} {d : Declaration} (h : d.WrittenIn ts) :
    ∀ e ∈ (Statement.declaration d).expressions, e.WrittenIn ts := by
  obtain ⟨us, hus, hd⟩ := h
  obtain ⟨_, _, _, _, _, _, rfl, -, ht, hi, -⟩ := hd.exists_parts
  have hbehind := infix_of_cons (infix_of_append_right (infix_of_cons (infix_of_append_left hus)))
  refine List.forall_mem_append.2 ⟨ht.writtenIn (infix_of_append_left hbehind), fun e he => ?_⟩
  exact hi.writtenIn (infix_of_append_right hbehind) e (Option.mem_toList.1 he)

end Declaration

/-- Some of the tokens, next to each other, are written for the statement. -/
def Statement.WrittenIn (ts : List Token) : Statement → Prop
  | expression e => e.WrittenIn ts
  | declaration d => d.WrittenIn ts

theorem Statement.WrittenIn.expressions {ts : List Token} {stmt : Statement}
    (h : stmt.WrittenIn ts) : ∀ e ∈ stmt.expressions, e.WrittenIn ts := by
  cases stmt with
  | expression e => exact List.forall_mem_singleton.2 h
  | declaration d => exact Declaration.WrittenIn.expressions h

theorem Statement.Derives.writtenIn {ts us : List Token} {stmt : Option Statement}
    (hs : Statement.Derives us stmt) (h : us <:+: ts) : ∀ s ∈ stmt, s.WrittenIn ts := by
  cases hs with
  | empty _ => rintro _ ⟨⟩
  | declaration hd =>
    rintro _ ⟨⟩
    exact ⟨us, h, hd⟩
  | expression he _ =>
    rintro _ ⟨⟩
    exact ⟨_, _, infix_of_append_left h, he⟩

theorem Program.Derives.writtenIn {ts us : List Token} {p : Program} (hp : Program.Derives us p)
    (h : us <:+: ts) : ∀ stmt ∈ p, stmt.WrittenIn ts := by
  induction hp with
  | nil => exact List.forall_mem_nil _
  | cons hs _ ih =>
    refine List.forall_mem_append.2 ⟨fun stmt hstmt => ?_, ih (infix_of_append_right h)⟩
    exact hs.writtenIn (infix_of_append_left h) stmt (Option.mem_toList.1 hstmt)

/-! ## Folding -/

namespace Expr

theorem subject?_fold (e : Expr) : e.fold.subject? = e.subject? := by
  cases e with
  | binary op l r place =>
    rcases fold_binary op l r place with ⟨_, _, _, _, _, _, _, _, hf⟩ | ⟨_, hf⟩
    · rw [hf]
      rfl
    · rw [hf]
      rfl
  | literal | ident | unary | update | assign | sequence | array | index => rfl

theorem map_range_foldAll (items : List Expr) : (foldAll items).map range = items.map range := by
  rw [foldAll_eq_map, List.map_map]
  exact List.map_congr_left fun e _ => range_fold e

/-- A folded node has its parts where they were, or none. -/
theorem parts_fold_sublist (e : Expr) : e.fold.parts.Sublist e.parts := by
  cases e with
  | binary op l r place =>
    rcases fold_binary op l r place with ⟨_, _, _, _, _, _, _, _, hf⟩ | ⟨_, hf⟩
    · rw [hf]
      exact List.nil_sublist _
    · rw [hf, parts, range_fold, range_fold]
      exact .refl _
  | literal | ident | update => exact .refl _
  | unary op operand place =>
    rw [fold, parts, range_fold]
    exact .refl _
  | assign op target value place =>
    rw [fold, parts, range_fold]
    exact .refl _
  | sequence items place | array items place =>
    rw [fold, parts, map_range_foldAll]
    exact .refl _
  | index base position place =>
    rw [fold, parts, range_fold, range_fold]
    exact .refl _

theorem LaidOut.fold {us : List Token} {e : Expr} (h : e.LaidOut us) : e.fold.LaidOut us where
  spans := by
    rw [range_fold]
    exact h.spans
  subject := by
    rw [subject?_fold]
    exact h.subject
  covers := by
    rw [range_fold]
    exact fun part hpart => h.covers part ((parts_fold_sublist e).subset hpart)
  apart := h.apart.sublist (parts_fold_sublist e)

/-- The node is what `f` makes of an expression that is written with some of the tokens, and is laid
out on these. -/
def LaidOutIn (f : Expr → Expr) (ts : List Token) (m : Expr) : Prop :=
  ∃ n us e, us <:+: ts ∧ Derives n us e ∧ f e = m ∧ m.LaidOut us

theorem WrittenIn.laidOutIn {ts : List Token} {m : Expr} (h : m.WrittenIn ts) (hin : InLine ts) :
    m.LaidOutIn id ts := by
  obtain ⟨n, us, hus, hd⟩ := h
  exact ⟨n, us, m, hus, hd, rfl, hd.laidOut (hin.sublist hus.sublist)⟩

end Expr

namespace Declaration

theorem LaidOut.fold {us : List Token} {d : Declaration} (h : d.LaidOut us) :
    d.fold.LaidOut us where
  spans := h.spans
  names := h.names
  lengths := by
    rw [Declaration.fold, Ty.lengths_fold, List.forall_mem_map]
    intro e he
    rw [Expr.range_fold]
    exact h.lengths e he
  initializer := by
    rw [Declaration.fold]
    intro _ hfold
    obtain ⟨e, he, rfl⟩ := Option.map_eq_some_iff.1 hfold
    rw [Expr.range_fold]
    exact h.initializer e he

/-- The declaration is what `f` makes of one that is written with some of the tokens, and is laid
out on these. -/
def LaidOutIn (f : Declaration → Declaration) (ts : List Token) (d : Declaration) : Prop :=
  ∃ us d', us <:+: ts ∧ Declaration.Derives us d' ∧ f d' = d ∧ d.LaidOut us

theorem WrittenIn.laidOutIn {ts : List Token} {d : Declaration} (h : d.WrittenIn ts)
    (hin : InLine ts) : d.LaidOutIn id ts := by
  obtain ⟨us, hus, hd⟩ := h
  exact ⟨us, d, hus, hd, rfl, hd.laidOut (hin.sublist hus.sublist)⟩

end Declaration

namespace Program

/-- Every node of the program and every declaration is what `f` or `g` makes of one that is written
with some of the tokens, and is laid out on these. -/
structure LaidOutIn (f : Expr → Expr) (g : Declaration → Declaration) (ts : List Token)
    (p : Program) : Prop where
  nodes : ∀ e ∈ p.expressions, ∀ m ∈ e.nodes, m.LaidOutIn f ts
  declarations : ∀ d, .declaration d ∈ p → d.LaidOutIn g ts

theorem expressions_fold (p : Program) : p.fold.expressions = p.expressions.map Expr.fold := by
  rw [← Evaluator.program_literals, Evaluator.expressions_program]
  exact List.map_congr_left fun e _ => Evaluator.fold_literals e

section Written

variable {ts us : List Token} {p : Program}

theorem Derives.laidOutIn (hp : Program.Derives us p) (h : InLine us) : p.LaidOutIn id id us where
  nodes := by
    intro e he m hm
    obtain ⟨stmt, hstmt, he⟩ := List.mem_flatMap.1 he
    have hwritten := hp.writtenIn List.infix_rfl stmt hstmt
    exact ((hwritten.expressions e he).nodes m hm).laidOutIn h
  declarations := by
    intro d hd
    have hwritten : d.WrittenIn us := hp.writtenIn List.infix_rfl _ hd
    exact hwritten.laidOutIn h

theorem LaidOutIn.fold (h : p.LaidOutIn id id ts) :
    p.fold.LaidOutIn Expr.fold Declaration.fold ts where
  nodes := by
    rw [expressions_fold, List.forall_mem_map]
    refine fun e he => Expr.forall_mem_nodes_fold fun m hm => ?_
    obtain ⟨n, us, _, hus, hderives, rfl, hlaid⟩ := h.nodes e he m hm
    exact ⟨n, us, _, hus, hderives, rfl, hlaid.fold⟩
  declarations := by
    intro d hd
    obtain ⟨stmt, hstmt, hfold⟩ := List.mem_map.1 hd
    cases stmt with
    | expression e => cases hfold
    | declaration d' =>
      cases hfold
      obtain ⟨us, _, hus, hderives, rfl, hlaid⟩ := h.declarations d' hstmt
      exact ⟨us, _, hus, hderives, rfl, hlaid.fold⟩

end Written

end Program

/-- Ranges nest. Of a text without line feeds, every node of the program, lengths included, and
every declaration has a range on the first line that is not empty and goes from the start of one of
the tokens it is written with to the end of one. The range covers those of its parts: operands,
names that are changed or declared, lengths and initial values. The parts of an expression stand
apart and in order. This is so in the folded program as well. -/
theorem Program.ranges_of_ofSource {source : String} {p : Program} (hline : '\n' ∉ source.toList)
    (h : Program.ofSource source = .ok p) :
    ∃ ts stop, tokenize source = .ok (ts ++ [stop]) ∧ stop.kind = .eof ∧
      p.LaidOutIn id id ts ∧ p.fold.LaidOutIn Expr.fold Declaration.fold ts := by
  obtain ⟨ts, stop, hts, hd, hstop, -⟩ := Program.ofSource_eq_ok h
  have htiling : Tiling [] source.toList (ts ++ [stop]) := .of_scan hts
  obtain ⟨us, last, heq, hin, -⟩ := htiling.inLine hline
  obtain rfl : ts = us := List.append_inj_left' heq rfl
  have hraw := hd.laidOutIn hin
  exact ⟨ts, stop, hts, hstop, hraw, hraw.fold⟩

/-- The folded length stands where the sum is written, inside the declaration. -/
theorem Program.ranges_of_ofSource_length :
    '\n' ∉ "mut v: int[1 + 2] = (-a)[(0)];".toList ∧
      ∃ p ts stop, Program.ofSource "mut v: int[1 + 2] = (-a)[(0)];" = .ok p ∧
        tokenize "mut v: int[1 + 2] = (-a)[(0)];" = .ok (ts ++ [stop]) ∧
        .literal (.integer 3) ⟨1, 11, 16⟩ ∈ p.fold.expressions ∧
        p.map Statement.range = [⟨1, 0, 30⟩] ∧
        p.LaidOutIn id id ts ∧ p.fold.LaidOutIn Expr.fold Declaration.fold ts := by
  have hline : '\n' ∉ "mut v: int[1 + 2] = (-a)[(0)];".toList := by decide
  have hp : Program.ofSource "mut v: int[1 + 2] = (-a)[(0)];" =
      .ok [.declaration ⟨true, .array (.scalar (.integer .i32)) (some (.binary .add
          (.literal (.integer 1) ⟨1, 11, 12⟩) (.literal (.integer 2) ⟨1, 15, 16⟩) ⟨1, 11, 16⟩)),
        [⟨"v", ⟨1, 4, 5⟩⟩],
        some (.index (.unary .negate (.ident ⟨"a", ⟨1, 22, 23⟩⟩) ⟨1, 21, 23⟩)
          (.literal (.integer 0) ⟨1, 26, 27⟩) ⟨1, 21, 29⟩), ⟨1, 0, 30⟩⟩] := by
    decide +kernel
  obtain ⟨ts, stop, hts, -, hraw, hfold⟩ := Program.ranges_of_ofSource hline hp
  refine ⟨hline, _, ts, stop, hp, hts, ?_, rfl, hraw, hfold⟩
  exact List.mem_cons_self

end StackCompiler
