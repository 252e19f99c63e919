import Mathlib.Data.List.Flatten
import StackCompiler.Proofs.Relocation
import StackCompiler.Proofs.Soundness

/-!
# Tokens of the same kinds

Two lists of tokens of the same kinds are read alike: to trees that differ in nothing but their
ranges, or with faults that do (`Program.parse_matches`). Each reader is followed on both lists at
once (`Matches.bind`).

The one place where ranges take part is the union of types, which leaves a type out that it already
has, and types are compared with the ranges of their lengths. Two lengths never have one range,
because they start at different tokens and no two tokens start at one place
(`Ty.Derives.fresh`), so that a union leaves out types without lengths only, wherever they stand
(`Ty.mapRange_join`).
-/

namespace StackCompiler

/-- The range of nowhere, in place of any other. -/
def Range.blank (_ : Range) : Range :=
  ⟨0, 0, 0⟩

theorem Range.through_blank (a b : Range) : a.blank.through b.blank = (a.through b).blank :=
  rfl

/-- The fault without the words about the token that was found. -/
def GrammarFault.outline : GrammarFault → GrammarFault
  | expectedExpression _ => expectedExpression ""
  | expectedSymbol symbol _ => expectedSymbol symbol ""
  | expectedIdentifier _ => expectedIdentifier ""
  | expectedType _ => expectedType ""
  | fault => fault

/-- The fault without the words about the token that was found, and without the widths and lengths
in the types it names. -/
def Fault.outline : Fault → Fault
  | grammatical cause => grammatical cause.outline
  | fault => fault.erase

/-- The failure without the places in it. -/
def Failure.outline : Failure → Failure
  | refused complaint => refused ⟨complaint.range.blank, complaint.fault.outline⟩
  | internal defect => internal (defect.mapRange .blank)
  | tooManyWarnings count limit => tooManyWarnings count limit

/-- Where a range starts. -/
def Range.site (r : Range) : Cursor :=
  ⟨r.line, r.start⟩

/-- No two tokens of the list start at one place. -/
abbrev DistinctSites (ts : List Token) : Prop :=
  ts.Pairwise fun t u => t.range.site ≠ u.range.site

/-- Tokens of the same kinds, one by one, where no two of one list start at one place. -/
inductive Kindred : List Token → List Token → Prop where
  | nil : Kindred [] []
  | cons {t t' : Token} {ts ts' : List Token} (hkind : t.kind = t'.kind)
    (hsite : ∀ u ∈ ts, t.range.site ≠ u.range.site)
    (hsite' : ∀ u ∈ ts', t'.range.site ≠ u.range.site) (h : Kindred ts ts') :
    Kindred (t :: ts) (t' :: ts')

/-- Two answers: values that `P` relates, or failures that differ in their places only. -/
inductive Matches {α β : Type} (P : α → β → Prop) : Except Failure α → Except Failure β → Prop where
  | ok {a : α} {b : β} (h : P a b) : Matches P (.ok a) (.ok b)
  | error {failure failure' : Failure} (h : failure.outline = failure'.outline) :
    Matches P (.error failure) (.error failure')

/-- Values that `P` relates were read, and tokens of the same kinds are left. -/
structure Parsed.Alike {α : Type} {n n' : Nat} (P : α → α → Prop) (p : Parsed α n)
    (p' : Parsed α n') : Prop where
  value : P p.value p'.value
  rest : Kindred p.rest p'.rest

namespace Matches

variable {α α' β β' : Type} {P : α → α' → Prop} {Q : β → β' → Prop}

theorem refuse {r r' : Range} {cause cause' : GrammarFault} (h : cause.outline = cause'.outline) :
    Matches P (StackCompiler.refuse r cause) (StackCompiler.refuse r' cause') := by
  refine .error ?_
  rw [Failure.outline, Failure.outline, Fault.outline, Fault.outline, h]
  rfl

/-- One step after another, with what the first one has answered. -/
theorem bind_of_eq {r : Except Failure α} {r' : Except Failure α'} {f : α → Except Failure β}
    {f' : α' → Except Failure β'} (h : Matches P r r')
    (hf : ∀ a a', r = .ok a → r' = .ok a' → P a a' → Matches Q (f a) (f' a')) :
    Matches Q (r >>= f) (r' >>= f') := by
  cases h with
  | ok h => exact hf _ _ rfl rfl h
  | error h => exact .error h

/-- One step after another. -/
theorem bind {r : Except Failure α} {r' : Except Failure α'} {f : α → Except Failure β}
    {f' : α' → Except Failure β'} (h : Matches P r r')
    (hf : ∀ a a', P a a' → Matches Q (f a) (f' a')) : Matches Q (r >>= f) (r' >>= f') :=
  h.bind_of_eq fun _ _ _ _ => hf _ _

section Readers

variable {n n' : Nat} {R : α → α → Prop} {r : Except Failure (Parsed α n)}
  {r' : Except Failure (Parsed α n')} {f : Parsed α n → Except Failure β}
  {f' : Parsed α n' → Except Failure β'}

/-- A reader and what comes after it, with what each of the two has read. -/
theorem read_of_eq (h : Matches (Parsed.Alike R) r r')
    (hf : ∀ a rest lt a' rest' lt', r = .ok ⟨a, rest, lt⟩ → r' = .ok ⟨a', rest', lt'⟩ → R a a' →
      Kindred rest rest' → Matches Q (f ⟨a, rest, lt⟩) (f' ⟨a', rest', lt'⟩)) :
    Matches Q (r >>= f) (r' >>= f') :=
  h.bind_of_eq fun p p' hp hp' hpp' => hf p.1 p.2 p.3 p'.1 p'.2 p'.3 hp hp' hpp'.value hpp'.rest

/-- A reader and what comes after it. -/
theorem read (h : Matches (Parsed.Alike R) r r')
    (hf : ∀ a rest lt a' rest' lt', R a a' → Kindred rest rest' →
      Matches Q (f ⟨a, rest, lt⟩) (f' ⟨a', rest', lt'⟩)) : Matches Q (r >>= f) (r' >>= f') :=
  h.read_of_eq fun _ _ _ _ _ _ _ _ => hf _ _ _ _ _ _

end Readers

variable {ts ts' : List Token}

theorem peek (h : Kindred ts ts') :
    Matches (fun t t' => t.kind = t'.kind) (StackCompiler.peek ts) (StackCompiler.peek ts') := by
  cases h with
  | nil => exact .error rfl
  | cons ht => exact .ok ht

theorem next (h : Kindred ts ts') :
    Matches (Parsed.Alike fun t t' => t.kind = t'.kind) (StackCompiler.next ts)
      (StackCompiler.next ts') := by
  cases h with
  | nil => exact .error rfl
  | cons ht _ _ hts => exact .ok ⟨ht, hts⟩

theorem expect (s : Symbol) (h : Kindred ts ts') :
    Matches (Parsed.Alike fun t t' => t.kind = t'.kind) (StackCompiler.expect s ts)
      (StackCompiler.expect s ts') := by
  cases h with
  | nil => exact .error rfl
  | cons ht _ _ hts =>
    rw [StackCompiler.expect, StackCompiler.expect, ht]
    split_ifs
    · exact .ok ⟨ht, hts⟩
    · exact .refuse rfl

end Matches

theorem Token.literal?_eq {t t' : Token} (h : t.kind = t'.kind) : t.literal? = t'.literal? := by
  rw [literal?, literal?, h]

theorem Token.continuation?_eq {t t' : Token} (h : t.kind = t'.kind) :
    t.continuation? = t'.continuation? := by
  rw [continuation?, continuation?, h]

namespace Expr

/-- The same tree, wherever the two stand. -/
def Same (e e' : Expr) : Prop :=
  e.mapRange .blank = e'.mapRange .blank

/-- The same trees, wherever the two lists stand. -/
def SameAll (es es' : List Expr) : Prop :=
  mapRangeAll .blank es = mapRangeAll .blank es'

theorem SameAll.cons {e e' : Expr} {es es' : List Expr} (h : Same e e') (hs : SameAll es es') :
    SameAll (e :: es) (e' :: es') :=
  congrArg₂ List.cons h hs

namespace Same

variable {e e' l l' r r' : Expr}

theorem array {items items' : List Expr} (h : SameAll items items') (p p' : Range) :
    Same (array items p) (array items' p') := by
  rw [Same, mapRange, mapRange, h]
  rfl

theorem index (hl : Same l l') (hr : Same r r') (p p' : Range) :
    Same (index l r p) (index l' r' p') := by
  rw [Same, mapRange, mapRange, hl, hr]
  rfl

theorem joined (op : BinaryOp) (hl : Same l l') (hr : Same r r') :
    Same (joined op l r) (joined op l' r') := by
  rw [Same, mapRange_joined Range.through_blank, mapRange_joined Range.through_blank, hl, hr]

theorem applied (op : UnaryOp) (h : Same e e') (p p' : Range) :
    Same (applied op e p) (applied op e' p') := by
  rw [Same, mapRange_applied Range.through_blank, mapRange_applied Range.through_blank, h]
  rfl

theorem assigned (op : AssignOp) (x : String) (p p' : Range) (h : Same e e') :
    Same (assigned op ⟨x, p⟩ e) (assigned op ⟨x, p'⟩ e') := by
  rw [Same, mapRange_assigned Range.through_blank, mapRange_assigned Range.through_blank, h]
  rfl

theorem followedBy (hl : Same l l') (hr : Same r r') :
    Same (followedBy l r) (followedBy l' r') := by
  rw [Same, mapRange_followedBy Range.through_blank, mapRange_followedBy Range.through_blank, hl,
    hr]

theorem eq_ident {x : String} {p : Range} (h : Same (ident ⟨x, p⟩) e) :
    ∃ p', e = ident ⟨x, p'⟩ := by
  cases e with
  | ident id =>
    rw [Same, mapRange, mapRange, Ident.mapRange, Ident.mapRange, ident.injEq, Ident.mk.injEq] at h
    obtain ⟨rfl, _⟩ := h
    exact ⟨id.range, rfl⟩
  | _ => cases h

/-- Both are the same name, or neither is a name. -/
theorem ident_cases (h : Same e e') :
    (∃ x p p', e = ident ⟨x, p⟩ ∧ e' = ident ⟨x, p'⟩) ∨
      (∀ id, e ≠ ident id) ∧ ∀ id, e' ≠ ident id := by
  by_cases hid : ∃ id, e = ident id
  · obtain ⟨⟨x, p⟩, rfl⟩ := hid
    obtain ⟨p', rfl⟩ := h.eq_ident
    exact .inl ⟨x, p, p', rfl, rfl⟩
  · refine .inr ⟨not_exists.1 hid, ?_⟩
    rintro ⟨x, p⟩ rfl
    obtain ⟨p', he⟩ := eq_ident (Eq.symm h)
    exact hid ⟨_, he⟩

end Same

mutual

/-- Tokens of the same kinds are read as the same expression, or refused for the same reason. -/
theorem parse_matches (floor : Nat) (ts ts' : List Token) (h : Kindred ts ts') :
    Matches (Parsed.Alike Same) (parse floor ts) (parse floor ts') := by
  rw [parse, parse]
  refine .read (parseOperand_matches ts ts' h) fun left rest lt left' rest' lt' hl hr => ?_
  exact .read (parseRest_matches floor left left' rest rest' hl hr) fun _ _ _ _ _ _ he hr =>
    .ok ⟨he, hr⟩
termination_by (ts.length, 3)
decreasing_by all_goals decreasing_with omega

theorem parseOperand_matches (ts ts' : List Token) (h : Kindred ts ts') :
    Matches (Parsed.Alike Same) (parseOperand ts) (parseOperand ts') := by
  cases h with
  | nil =>
    rw [parseOperand]
    exact .error rfl
  | @cons t t' ts ts' ht hs hs' hts =>
    rw [parseOperand, parseOperand, Token.literal?_eq ht, ht]
    split
    · exact .ok ⟨rfl, hts⟩
    split
    · exact .ok ⟨rfl, hts⟩
    · refine .bind (.peek hts) fun after after' hafter => ?_
      rw [hafter]
      split_ifs
      · exact .refuse rfl
      refine .read (parse_matches 0 ts ts' hts) fun _ _ _ _ _ _ he hr => ?_
      exact .read (.expect _ hr) fun _ _ _ _ _ _ _ hr => .ok ⟨he, hr⟩
    · refine .read (parseItems_matches ts ts' hts) fun _ _ _ _ _ _ he hr => ?_
      exact .read (.expect _ hr) fun _ _ _ _ _ _ _ hr => .ok ⟨.array he _ _, hr⟩
    · split
      · refine .read (parse_matches _ ts ts' hts) fun e _ _ e' _ _ he hr => ?_
        dsimp only
        rcases he.ident_cases with ⟨x, p, p', rfl, rfl⟩ | ⟨hne, hne'⟩
        · exact .ok ⟨rfl, hr⟩
        · split
          · exact absurd rfl (hne _)
          exact .refuse rfl
      · exact .read (parse_matches _ ts ts' hts) fun _ _ _ _ _ _ he hr =>
          .ok ⟨.applied _ he _ _, hr⟩
      · exact .refuse rfl
    · exact .refuse rfl
termination_by (ts.length, 2)
decreasing_by all_goals decreasing_with omega

theorem parseItems_matches (ts ts' : List Token) (h : Kindred ts ts') :
    Matches (Parsed.Alike SameAll) (parseItems ts) (parseItems ts') := by
  rw [parseItems, parseItems]
  refine .bind (.peek h) fun t t' ht => ?_
  rw [ht]
  split_ifs
  · exact .ok ⟨rfl, h⟩
  refine .read (parse_matches _ ts ts' h) fun _ rest lt _ rest' _ he hr => ?_
  exact .read (parseMoreItems_matches rest rest' hr) fun _ _ _ _ _ _ hes hr =>
    .ok ⟨.cons he hes, hr⟩
termination_by (ts.length, 4)
decreasing_by all_goals decreasing_with omega

theorem parseMoreItems_matches (ts ts' : List Token) (h : Kindred ts ts') :
    Matches (Parsed.Alike SameAll) (parseMoreItems ts) (parseMoreItems ts') := by
  cases h with
  | nil =>
    rw [parseMoreItems]
    exact .error rfl
  | @cons t t' ts ts' ht hs hs' hts =>
    rw [parseMoreItems, parseMoreItems, ht]
    split_ifs
    · refine .read (parse_matches _ ts ts' hts) fun _ rest lt _ rest' _ he hr => ?_
      exact .read (parseMoreItems_matches rest rest' hr) fun _ _ _ _ _ _ hes hr =>
        .ok ⟨.cons he hes, hr⟩
    · exact .ok ⟨rfl, .cons ht hs hs' hts⟩
termination_by (ts.length, 0)
decreasing_by all_goals decreasing_with omega

theorem parseRest_matches (floor : Nat) (left left' : Expr) (ts ts' : List Token)
    (hl : Same left left') (h : Kindred ts ts') :
    Matches (Parsed.Alike Same) (parseRest floor left ts) (parseRest floor left' ts') := by
  cases h with
  | nil =>
    rw [parseRest, parseRest]
    exact .error rfl
  | @cons t t' ts ts' ht hs hs' hts =>
    rw [parseRest, parseRest, Token.continuation?_eq ht]
    split
    · exact .ok ⟨hl, .cons ht hs hs' hts⟩
    rename_i c _
    split_ifs
    · exact .ok ⟨hl, .cons ht hs hs' hts⟩
    refine .read (parseContinued_matches c left left' t t' ts ts' hl hts)
      fun e rest lt e' rest' lt' he hr => ?_
    exact .read (parseRest_matches floor e e' rest rest' he hr) fun _ _ _ _ _ _ he hr =>
      .ok ⟨he, hr⟩
termination_by (ts.length, 1)
decreasing_by all_goals decreasing_with omega

theorem parseContinued_matches (c : Continuation) (left left' : Expr) (t t' : Token)
    (ts ts' : List Token) (hl : Same left left') (h : Kindred ts ts') :
    Matches (Parsed.Alike Same) (parseContinued c left t ts) (parseContinued c left' t' ts') := by
  unfold parseContinued
  cases c with
  | update op =>
    rcases hl.ident_cases with ⟨x, p, p', rfl, rfl⟩ | ⟨hne, hne'⟩
    · exact .ok ⟨rfl, h⟩
    · dsimp only
      split
      · exact absurd rfl (hne _)
      exact .refuse rfl
  | index =>
    refine .read (parse_matches _ ts ts' h) fun _ rest lt _ rest' _ he hr => ?_
    exact .read (.expect _ hr) fun _ _ _ _ _ _ _ hr => .ok ⟨.index hl he _ _, hr⟩
  | sequence =>
    exact .read (parse_matches _ ts ts' h) fun _ _ _ _ _ _ he hr => .ok ⟨.followedBy hl he, hr⟩
  | assign op =>
    rcases hl.ident_cases with ⟨x, p, p', rfl, rfl⟩ | ⟨hne, hne'⟩
    · exact .read (parse_matches _ ts ts' h) fun _ _ _ _ _ _ he hr =>
        .ok ⟨.assigned op x p p' he, hr⟩
    · dsimp only
      split
      · exact absurd rfl (hne _)
      exact .refuse rfl
  | binary op =>
    exact .read (parse_matches _ ts ts' h) fun _ _ _ _ _ _ he hr => .ok ⟨.joined op hl he, hr⟩
termination_by (ts.length, 4)
decreasing_by all_goals decreasing_with omega

end

theorem range_followedBy (l r : Expr) : (followedBy l r).range = l.range.through r.range := by
  cases l <;> rfl

/-- An expression starts where one of its tokens does. -/
theorem Derives.exists_site {n : Nat} {ts : List Token} {e : Expr} : Expr.Derives n ts e →
    ∃ t ∈ ts, e.range.site = t.range.site
  | .literal _ | .name _ | .updateBefore _ _ _ | .unary _ _ _ | .array _ _ _ =>
    ⟨_, List.mem_cons_self, rfl⟩
  | .group _ he _ => by
    obtain ⟨t, ht, hsite⟩ := he.exists_site
    exact ⟨t, by simp [ht], hsite⟩
  | .updateAfter he _ _ | .index he _ _ _ | .binary he _ _ _ | .assign he _ _ _ => by
    obtain ⟨t, ht, hsite⟩ := he.exists_site
    exact ⟨t, List.mem_append_left _ ht, hsite⟩
  | .sequence he _ _ => by
    obtain ⟨t, ht, hsite⟩ := he.exists_site
    rw [range_followedBy]
    exact ⟨t, List.mem_append_left _ ht, hsite⟩
  | .ofNext h => h.exists_site

end Expr

theorem Kindred.distinctSites {ts ts' : List Token} (h : Kindred ts ts') :
    DistinctSites ts ∧ DistinctSites ts' := by
  induction h with
  | nil => exact ⟨.nil, .nil⟩
  | cons _ hs hs' _ ih => exact ⟨ih.1.cons hs, ih.2.cons hs'⟩

namespace Ty

theorem lengthsAll_eq_flatMap (ts : List Ty) : lengthsAll ts = ts.flatMap lengths := by
  induction ts with
  | nil => rfl
  | cons t ts ih => rw [lengthsAll, ih, List.flatMap_cons]

theorem flatMap_lengths_members (t : Ty) : t.members.flatMap lengths = t.lengths := by
  cases t with
  | union ts =>
    rw [lengths, lengthsAll_eq_flatMap]
    rfl
  | null | scalar _ | array _ _ => exact List.flatMap_singleton lengths _

/-- No length of one type starts where one of the other does. -/
def Apart (t u : Ty) : Prop :=
  ∀ e ∈ t.lengths, ∀ e' ∈ u.lengths, e.range.site ≠ e'.range.site

/-- Types whose lengths start at different places are equal only if they have none. -/
theorem Equals.lengths_eq_nil {t u : Ty} (h : Equals t u) (hapart : Apart t u) :
    t.lengths = [] := by
  rw [List.eq_nil_iff_forall_not_mem]
  intro e he
  obtain ⟨e', he', hrange⟩ := h.lengths.exists_range_eq e he
  exact hapart e he e' he' (congrArg Range.site hrange)

/-- Members of types, written with the tokens `ts`: their lengths start at these, and those of
different members at different ones. -/
structure Fresh (ts : List Token) (ms : List Ty) : Prop where
  within : ∀ m ∈ ms, ∀ e ∈ m.lengths, ∃ t ∈ ts, e.range.site = t.range.site
  apart : ms.Pairwise Apart

namespace Fresh

variable {ts us : List Token} {as bs : List Ty}

theorem nil : Fresh ts [] :=
  ⟨nofun, .nil⟩

theorem mono (h : Fresh ts as) (hts : ts ⊆ us) : Fresh us as := by
  refine ⟨fun m hm e he => ?_, h.apart⟩
  obtain ⟨t, ht, hsite⟩ := h.within m hm e he
  exact ⟨t, hts ht, hsite⟩

theorem sublist (h : Fresh ts as) (hbs : bs.Sublist as) : Fresh ts bs :=
  ⟨fun m hm => h.within m (hbs.subset hm), h.apart.sublist hbs⟩

theorem singleton {t : Ty} (h : ∀ e ∈ t.lengths, ∃ u ∈ ts, e.range.site = u.range.site) :
    Fresh ts [t] :=
  ⟨List.forall_mem_singleton.2 h, List.pairwise_singleton _ t⟩

/-- An array over members is a single member. -/
theorem array {t : Ty} {length : Option Expr} (h : Fresh ts t.members) (hts : ts ⊆ us)
    (hl : ∀ e ∈ length, ∃ u ∈ us, e.range.site = u.range.site) :
    Fresh us (array t length).members := by
  refine singleton fun e he => ?_
  rw [lengths, List.mem_append, Option.mem_toList, ← flatMap_lengths_members,
    List.mem_flatMap] at he
  rcases he with he | ⟨m, hm, he⟩
  · exact hl e he
  · exact (h.mono hts).within m hm e he

/-- Members written with other tokens have their lengths elsewhere. -/
theorem append (ha : DistinctSites ts → Fresh ts as) (hb : DistinctSites us → Fresh us bs)
    (hts : DistinctSites (ts ++ us)) : Fresh (ts ++ us) (as ++ bs) := by
  have ha := ha (hts.sublist (List.sublist_append_left ts us))
  have hb := hb (hts.sublist (List.sublist_append_right ts us))
  refine ⟨List.forall_mem_append.2 ⟨(ha.mono (List.subset_append_left ts us)).within,
    (hb.mono (List.subset_append_right ts us)).within⟩, List.pairwise_append.2
      ⟨ha.apart, hb.apart, ?_⟩⟩
  intro a hma b hmb e he e' he' heq
  obtain ⟨t, ht, hsite⟩ := ha.within a hma e he
  obtain ⟨u, hu, hsite'⟩ := hb.within b hmb e' he'
  exact (List.pairwise_append.1 hts).2.2 t ht u hu (hsite.symm.trans (heq.trans hsite'))

end Fresh

/-- What a union adds to the members it has is among those it is given, in their order. -/
theorem exists_foldl_addNew (ts kept : List Ty) :
    ∃ new, ts.foldl addNew kept = kept ++ new ∧ new.Sublist ts := by
  induction ts generalizing kept with
  | nil => exact ⟨[], (List.append_nil _).symm, .slnil⟩
  | cons t ts ih =>
    rw [List.foldl_cons, addNew]
    split_ifs
    · obtain ⟨new, hnew, hsub⟩ := ih kept
      exact ⟨new, hnew, hsub.cons t⟩
    · obtain ⟨new, hnew, hsub⟩ := ih (kept ++ [t])
      rw [List.append_assoc] at hnew
      exact ⟨t :: new, hnew, hsub.cons_cons t⟩

/-- The members of a union of flat types are among theirs, in their order. -/
theorem members_join_sublist {ts : List Ty} (h : ∀ t ∈ ts, t.Flat) :
    (join ts).members.Sublist (ts.flatMap members) := by
  obtain ⟨new, hnew, hsub⟩ := exists_foldl_addNew (ts.flatMap members) []
  rw [List.nil_append] at hnew
  rw [join, hnew]
  cases new with
  | nil => exact hsub
  | cons t new =>
    cases new with
    | nil =>
      have hflat := flat_flatMap_members h t (hsub.subset List.mem_cons_self)
      rw [ofMembers, members_of_kind_ne hflat.1]
      exact hsub
    | cons u new => exact hsub

theorem lengths_ofMembers (ts : List Ty) : (ofMembers ts).lengths = ts.flatMap lengths := by
  match ts with
  | [] => rfl
  | [t] => rw [ofMembers, List.flatMap_singleton]
  | t :: u :: ts => exact lengthsAll_eq_flatMap _

theorem flatMap_lengths_flatMap_members (ts : List Ty) :
    (ts.flatMap members).flatMap lengths = ts.flatMap lengths := by
  rw [List.flatMap_assoc]
  exact congrArg (ts.flatMap ·) (funext flatMap_lengths_members)

/-- The lengths in a union are among those in what is joined, in their order. -/
theorem lengths_join_sublist (ts : List Ty) : (join ts).lengths.Sublist (ts.flatMap lengths) := by
  obtain ⟨new, hnew, hsub⟩ := exists_foldl_addNew (ts.flatMap members) []
  rw [join, hnew, List.nil_append, lengths_ofMembers, ← flatMap_lengths_flatMap_members ts]
  exact hsub.flatMap lengths

theorem forall_mem_lengths_join {P : Expr → Prop} {ts : List Ty}
    (h : ∀ t ∈ ts, ∀ e ∈ t.lengths, P e) : ∀ e ∈ (join ts).lengths, P e := by
  intro e he
  obtain ⟨t, ht, he⟩ := List.mem_flatMap.1 ((lengths_join_sublist ts).subset he)
  exact h t ht e he

end Ty

mutual

/-- The members of a type that is written with tokens at different places are fresh. -/
theorem Ty.Derives.fresh {ts : List Token} {t : Ty} : Ty.Derives ts t → DistinctSites ts →
    Ty.Fresh ts t.members
  | .single h, hts => h.fresh hts
  | .union h hs, hts => by
    have hall := Ty.Fresh.append h.fresh hs.fresh hts
    rw [← List.flatMap_cons] at hall
    exact hall.sublist (Ty.members_join_sublist (List.forall_mem_cons.2 ⟨h.flat, hs.flat⟩))

theorem Ty.DerivesMember.fresh {ts : List Token} {t : Ty} : Ty.DerivesMember ts t →
    DistinctSites ts → Ty.Fresh ts t.members
  | .scalar _, _ | .null _, _ => .singleton nofun
  | @Ty.DerivesMember.group l r ts _ _ h _, hts => by
    have hsub : ts.Sublist (l :: ts ++ [r]) :=
      (List.sublist_append_left ts [r]).trans (List.sublist_cons_self l _)
    exact (h.fresh (hts.sublist hsub)).mono hsub.subset
  | .array h _ _, hts =>
    (h.fresh (hts.sublist (List.sublist_append_left _ _))).array (List.subset_append_left _ _) nofun
  | .sized h _ he _, hts => by
    refine (h.fresh (hts.sublist (List.sublist_append_left _ _))).array
      (List.subset_append_left _ _) ?_
    rintro _ ⟨⟩
    obtain ⟨t, ht, hsite⟩ := he.exists_site
    exact ⟨t, by simp [ht], hsite⟩

theorem Ty.DerivesOthers.fresh {us : List Token} {ts : List Ty} : Ty.DerivesOthers us ts →
    DistinctSites us → Ty.Fresh us (ts.flatMap Ty.members)
  | .nil, _ => .nil
  | .cons _ h hs, hus => by
    rw [List.cons_append, DistinctSites, List.pairwise_cons] at hus
    exact (Ty.Fresh.append h.fresh hs.fresh hus.2).mono (List.subset_cons_self _ _)

end

namespace Ty

theorem mapLengths_of_lengths_eq_nil {f : Expr → Expr} {t : Ty} (h : t.lengths = []) :
    t.mapLengths f = t :=
  mapLengths_eq_self f (h ▸ List.forall_mem_nil _)

/-- Adds a type to a list unless it has no lengths and is there already. -/
def addFresh (ts : List Ty) (t : Ty) : List Ty :=
  if t.lengths = [] ∧ t ∈ ts then ts else ts ++ [t]

variable {f : Range → Range}

/-- Of fresh members, none is equal to another unless it has no lengths and is the same, wherever
they stand. -/
theorem any_equals_iff_of_fresh {kept : List Ty} {t : Ty} (h : ∀ u ∈ kept, Apart u t) :
    kept.any (·.equals t) ↔
      (t.mapRange f).lengths = [] ∧ t.mapRange f ∈ kept.map (mapRange f) := by
  rw [any_equals_iff]
  constructor
  · rintro ⟨u, hu, hequals⟩
    have hnil := hequals.lengths_eq_nil (h u hu)
    cases hequals.eq hnil
    rw [lengths_mapRange, hnil]
    exact ⟨rfl, List.mem_map_of_mem hu⟩
  · rintro ⟨hlengths, hmem⟩
    obtain ⟨u, hu, heq⟩ := List.mem_map.1 hmem
    have hu' : (u.mapRange f).lengths = [] := by rw [heq, hlengths]
    rw [lengths_mapRange, List.map_eq_nil_iff] at hlengths hu'
    rw [mapRange, mapRange, mapLengths_of_lengths_eq_nil hlengths,
      mapLengths_of_lengths_eq_nil hu'] at heq
    exact ⟨u, hu, heq ▸ .refl hu'⟩

theorem map_foldl_addNew {ts kept : List Ty}
    (h : (kept ++ ts).Pairwise Apart) :
    (ts.foldl addNew kept).map (mapRange f) =
      (ts.map (mapRange f)).foldl addFresh (kept.map (mapRange f)) := by
  -- The members kept so far are fresh together with those that are still to come.
  induction ts generalizing kept with
  | nil => rfl
  | cons t ts ih =>
    have hequal := any_equals_iff_of_fresh (f := f) fun u hu =>
      (List.pairwise_append.1 h).2.2 u hu t List.mem_cons_self
    rw [List.map_cons, List.foldl_cons, List.foldl_cons, addNew, addFresh]
    by_cases ht : kept.any (·.equals t)
    · rw [if_pos ht, if_pos (hequal.1 ht)]
      exact ih (h.sublist (List.Sublist.append_left (List.sublist_cons_self t ts) kept))
    · rw [if_neg ht, if_neg (mt hequal.2 ht)]
      rw [List.append_cons] at h
      rw [ih h, List.map_append, List.map_singleton]

/-- The union of types with fresh members, at other places, depends on these types at the other
places. -/
theorem mapRange_join {us : List Token} {ts : List Ty} (h : Fresh us (ts.flatMap members)) :
    (join ts).mapRange f =
      ofMembers (((ts.map (mapRange f)).flatMap members).foldl addFresh []) := by
  rw [join, mapRange_ofMembers, map_foldl_addNew h.apart, List.map_flatMap, List.flatMap_map,
    List.flatMap_congr fun t _ => (members_mapRange t).symm]
  rfl

/-- The same type, wherever its lengths stand. -/
def Same (t t' : Ty) : Prop :=
  t.mapRange .blank = t'.mapRange .blank

/-- The same types, wherever their lengths stand. -/
def SameAll (ts ts' : List Ty) : Prop :=
  ts.map (mapRange .blank) = ts'.map (mapRange .blank)

theorem SameAll.cons {t t' : Ty} {ts ts' : List Ty} (h : Same t t') (hs : SameAll ts ts') :
    SameAll (t :: ts) (t' :: ts') :=
  congrArg₂ List.cons h hs

/-- The members that are read are fresh. -/
theorem exists_fresh_of_parse {ts rest rest' : List Token} {first : Ty} {others : List Ty}
    {lt : rest.length < ts.length} {lt' : rest'.length < rest.length + 1} (hts : DistinctSites ts)
    (hfirst : parseMember ts = .ok ⟨first, rest, lt⟩)
    (hothers : parseOthers rest = .ok ⟨others, rest', lt'⟩) :
    ∃ us, Fresh us ((first :: others).flatMap members) := by
  have hread := parseMember_reads ts
  rw [hfirst] at hread
  obtain ⟨us, hus, _, hd⟩ := hread
  have hread' := parseOthers_reads rest
  rw [hothers] at hread'
  obtain ⟨vs, hvs, _, hds⟩ := hread'
  have htokens : ts = us ++ vs ++ rest' := by
    rw [hus, List.append_assoc]
    exact congrArg (us ++ ·) hvs
  rw [htokens] at hts
  have husvs := hts.sublist (List.sublist_append_left (us ++ vs) rest')
  exact ⟨us ++ vs, .append hd.fresh hds.fresh husvs⟩

theorem parseBrackets_matches (t t' : Ty) (ts ts' : List Token) (ht : Same t t')
    (h : Kindred ts ts') :
    Matches (Parsed.Alike Same) (parseBrackets t ts) (parseBrackets t' ts') := by
  cases h with
  | nil =>
    rw [parseBrackets, parseBrackets]
    exact .error rfl
  | @cons u u' ts ts' hu hs hs' hts =>
    rw [parseBrackets, parseBrackets, hu]
    split_ifs
    · refine .bind (.peek hts) fun after after' hafter => ?_
      rw [hafter]
      split_ifs
      · refine .read (.expect _ hts) fun _ rest lt _ rest' _ _ hr => ?_
        have harray : Same (array t none) (array t' none) := congrArg (array · none) ht
        exact .read (parseBrackets_matches _ _ rest rest' harray hr) fun _ _ _ _ _ _ ht hr =>
          .ok ⟨ht, hr⟩
      · refine .read (Expr.parse_matches _ ts ts' hts) fun e rest lt e' rest' _ he hr => ?_
        refine .read (.expect _ hr) fun _ rest₂ lt₂ _ rest₂' _ _ hr => ?_
        have harray : Same (array t (some e)) (array t' (some e')) :=
          congrArg₂ (fun t e => array t (some e)) ht he
        exact .read (parseBrackets_matches _ _ rest₂ rest₂' harray hr) fun _ _ _ _ _ _ ht hr =>
          .ok ⟨ht, hr⟩
    · exact .ok ⟨ht, .cons hu hs hs' hts⟩
termination_by ts.length
decreasing_by all_goals decreasing_with omega

mutual

/-- Tokens of the same kinds are read as the same type, or refused for the same reason. -/
theorem parse_matches (ts ts' : List Token) (h : Kindred ts ts') :
    Matches (Parsed.Alike Same) (parse ts) (parse ts') := by
  rw [parse, parse]
  refine .read_of_eq (parseMember_matches ts ts' h)
    fun first rest lt first' rest' lt' heq heq' hfirst hr => ?_
  refine .read_of_eq (parseOthers_matches rest rest' hr)
    fun others rest₂ lt₂ others' rest₂' lt₂' hothers hothers' hall hr => ?_
  refine .ok ⟨?_, hr⟩
  have hempty : others.isEmpty = others'.isEmpty := by
    rw [← List.isEmpty_map (f := mapRange .blank), hall, List.isEmpty_map]
  rw [hempty]
  split_ifs
  · exact hfirst
  · -- What the union leaves out is decided with the ranges of each text, and comes out the same.
    obtain ⟨us, hfresh⟩ := exists_fresh_of_parse h.distinctSites.1 heq hothers
    obtain ⟨us', hfresh'⟩ := exists_fresh_of_parse h.distinctSites.2 heq' hothers'
    have hmembers := SameAll.cons hfirst hall
    rw [Same, mapRange_join hfresh, mapRange_join hfresh', hmembers]
termination_by (ts.length, 2)
decreasing_by all_goals decreasing_with omega

theorem parseMember_matches (ts ts' : List Token) (h : Kindred ts ts') :
    Matches (Parsed.Alike Same) (parseMember ts) (parseMember ts') := by
  cases h with
  | nil =>
    rw [parseMember]
    exact .error rfl
  | @cons t t' ts ts' ht hs hs' hts =>
    rw [parseMember, parseMember, ht]
    split
    · exact .read (parseBrackets_matches _ _ ts ts' rfl hts) fun _ _ _ _ _ _ ht hr => .ok ⟨ht, hr⟩
    · exact .read (parseBrackets_matches _ _ ts ts' rfl hts) fun _ _ _ _ _ _ ht hr => .ok ⟨ht, hr⟩
    · refine .read (parse_matches ts ts' hts) fun t rest lt t' rest' lt' ht hr => ?_
      refine .read (.expect _ hr) fun _ rest₂ lt₂ _ rest₂' lt₂' _ hr => ?_
      exact .read (parseBrackets_matches _ _ _ _ ht hr) fun _ _ _ _ _ _ ht hr => .ok ⟨ht, hr⟩
    · exact .refuse rfl
termination_by (ts.length, 1)
decreasing_by all_goals decreasing_with omega

theorem parseOthers_matches (ts ts' : List Token) (h : Kindred ts ts') :
    Matches (Parsed.Alike SameAll) (parseOthers ts) (parseOthers ts') := by
  cases h with
  | nil =>
    rw [parseOthers]
    exact .error rfl
  | @cons t t' ts ts' ht hs hs' hts =>
    rw [parseOthers, parseOthers, ht]
    split_ifs
    · refine .read (parseMember_matches ts ts' hts)
        fun m rest lt m' rest' lt' hm hr => ?_
      exact .read (parseOthers_matches rest rest' hr) fun _ _ _ _ _ _ hms hr =>
        .ok ⟨.cons hm hms, hr⟩
    · exact .ok ⟨rfl, .cons ht hs hs' hts⟩
termination_by (ts.length, 0)
decreasing_by all_goals decreasing_with omega

end

end Ty

/-! ## Statements and programs -/

namespace Ident

theorem parse_matches {ts ts' : List Token} (h : Kindred ts ts') :
    Matches (Parsed.Alike fun id id' => id.name = id'.name) (Ident.parse ts) (Ident.parse ts') := by
  refine .read (.next h) fun t rest lt t' rest' lt' ht hr => ?_
  dsimp only at ht ⊢
  rw [ht]
  split
  · exact .ok ⟨rfl, hr⟩
  · exact .refuse rfl

theorem parseMore_matches (ts ts' : List Token) (h : Kindred ts ts') :
    Matches (Parsed.Alike fun ids ids' => ids.map name = ids'.map name) (Ident.parseMore ts)
      (Ident.parseMore ts') := by
  cases h with
  | nil =>
    rw [Ident.parseMore]
    exact .error rfl
  | @cons t t' ts ts' ht hs hs' hts =>
    rw [Ident.parseMore, Ident.parseMore, ht]
    split_ifs
    · refine .read (parse_matches hts) fun id rest lt id' rest' lt' hid hr => ?_
      exact .read (parseMore_matches rest rest' hr) fun _ _ _ _ _ _ hids hr =>
        .ok ⟨congrArg₂ List.cons hid hids, hr⟩
    · exact .ok ⟨rfl, .cons ht hs hs' hts⟩
termination_by ts.length
decreasing_by all_goals decreasing_with omega

theorem parseAll_matches {ts ts' : List Token} (h : Kindred ts ts') :
    Matches (Parsed.Alike fun ids ids' => ids.map name = ids'.map name) (Ident.parseAll ts)
      (Ident.parseAll ts') := by
  refine .read (parse_matches h) fun id rest lt id' rest' lt' hid hr => ?_
  exact .read (parseMore_matches rest rest' hr) fun _ _ _ _ _ _ hids hr =>
    .ok ⟨congrArg₂ List.cons hid hids, hr⟩

theorem map_mapRange_blank {ids ids' : List Ident} (h : ids.map name = ids'.map name) :
    ids.map (mapRange .blank) = ids'.map (mapRange .blank) := by
  have hmap : ∀ l : List Ident, l.map (mapRange .blank) = (l.map name).map (⟨·, 0, 0, 0⟩) := by
    intro l
    rw [List.map_map]
    rfl
  rw [hmap, hmap, h]

end Ident

namespace Declaration

/-- The same declaration, wherever the two stand. -/
def Same (d d' : Declaration) : Prop :=
  d.mapRange .blank = d'.mapRange .blank

theorem Same.mk (isMutable : Bool) {ty ty' : Ty} {names names' : List Ident} {i i' : Option Expr}
    (hnames : names.map Ident.name = names'.map Ident.name) (hty : Ty.Same ty ty')
    (hi : Option.Rel Expr.Same i i') (r r' : Range) :
    Same ⟨isMutable, ty, names, i, r⟩ ⟨isMutable, ty', names', i', r'⟩ := by
  have hinitializer : i.map (Expr.mapRange .blank) = i'.map (Expr.mapRange .blank) := by
    cases hi with
    | none => rfl
    | some he => exact congrArg some he
  rw [Same, mapRange, mapRange]
  dsimp only
  rw [hty, Ident.map_mapRange_blank hnames, hinitializer]
  rfl

theorem parseInitializer_matches {ts ts' : List Token} (h : Kindred ts ts') :
    Matches (Parsed.Alike (Option.Rel Expr.Same)) (parseInitializer ts) (parseInitializer ts') := by
  cases h with
  | nil => exact .error rfl
  | @cons t t' ts ts' ht hs hs' hts =>
    rw [parseInitializer, parseInitializer, ht]
    split_ifs
    · exact .read (Expr.parse_matches _ ts ts' hts) fun _ _ _ _ _ _ he hr => .ok ⟨.some he, hr⟩
    · exact .ok ⟨.none, .cons ht hs hs' hts⟩

theorem parse_matches (isMutable : Bool) (t t' : Token) {ts ts' : List Token}
    (h : Kindred ts ts') :
    Matches (Parsed.Alike Same) (parse isMutable t ts) (parse isMutable t' ts') := by
  refine .read (Ident.parseAll_matches h) fun names _ _ names' _ _ hnames hr => ?_
  refine .read (.expect _ hr) fun _ _ _ _ _ _ _ hr => ?_
  refine .read (Ty.parse_matches _ _ hr) fun ty _ _ ty' _ _ hty hr => ?_
  refine .read (parseInitializer_matches hr) fun i _ _ i' _ _ hi hr => ?_
  dsimp only at hnames hty hi hr ⊢
  have hnone : i.isNone = i'.isNone := by cases hi <;> rfl
  rw [hnone]
  split_ifs
  · refine .bind (.peek hr) fun _ _ _ => .refuse ?_
    rw [hnames]
  · exact .read (.expect _ hr) fun _ _ _ _ _ _ _ hr => .ok ⟨.mk isMutable hnames hty hi _ _, hr⟩

end Declaration

/-- The same statement, wherever the two stand. -/
def Statement.Same (stmt stmt' : Statement) : Prop :=
  stmt.mapRange .blank = stmt'.mapRange .blank

theorem Statement.parse_matches {ts ts' : List Token} (h : Kindred ts ts') :
    Matches (Parsed.Alike (Option.Rel Statement.Same)) (Statement.parse ts)
      (Statement.parse ts') := by
  cases h with
  | nil => exact .error rfl
  | @cons t t' ts ts' ht hs hs' hts =>
    unfold Statement.parse
    dsimp only
    rw [ht]
    split
    · exact .ok ⟨.none, hts⟩
    · exact .read (Declaration.parse_matches true t t' hts) fun _ _ _ _ _ _ hd hr =>
        .ok ⟨.some (congrArg declaration hd), hr⟩
    · exact .read (Declaration.parse_matches false t t' hts) fun _ _ _ _ _ _ hd hr =>
        .ok ⟨.some (congrArg declaration hd), hr⟩
    · exact .refuse rfl
    · refine .read (Expr.parse_matches 0 _ _ (.cons ht hs hs' hts)) fun _ _ _ _ _ _ he hr => ?_
      exact .read (.expect _ hr) fun _ _ _ _ _ _ _ hr => .ok ⟨.some (congrArg expression he), hr⟩

/-- The same program, wherever the two stand. -/
def Program.Same (p p' : Program) : Prop :=
  p.mapRange .blank = p'.mapRange .blank

/-- Tokens of the same kinds at different places are read as the same program, or refused for the
same reason. -/
theorem Program.parse_matches (ts ts' : List Token) (h : Kindred ts ts') :
    Matches Program.Same (Program.parse ts) (Program.parse ts') := by
  rw [Program.parse, Program.parse]
  refine .bind (.peek h) fun t t' ht => ?_
  rw [ht]
  split_ifs
  · exact .ok rfl
  refine .read (Statement.parse_matches h) fun stmt rest lt stmt' rest' lt' hs hr => ?_
  refine .bind (Program.parse_matches rest rest' hr) fun p p' hp => .ok ?_
  cases hs with
  | none => exact hp
  | some hs => exact congrArg₂ List.cons hs hp
termination_by ts.length
decreasing_by all_goals decreasing_with omega

end StackCompiler
