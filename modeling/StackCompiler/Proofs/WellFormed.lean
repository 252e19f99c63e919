import Mathlib.Data.List.Nodup
import Mathlib.Data.List.Perm.Subperm
import StackCompiler.Proofs.Layout

/-!
# Well-formed types

A type is well formed (`Ty.WellFormed`) if, at every depth, no union has a union or just one type
among its members, or two that are the same or equal (`Ty.Differ`). Merging well-formed types gives
a well-formed one (`Ty.WellFormed.merge`), and so does joining them where their members stand at
different places (`Ty.WellFormed.join`): a type whose length is not a number would be kept twice.
Folding rebuilds a union without comparing its members again; they stay different because no two
lengths of a declared type start at one place (`Ty.Derives.sites_subperm`), and folding moves none
of them. The types of declared names and of expressions follow (`Program.wellFormed_of_ofSource`,
`Expr.wellFormed_of_check`), and with them those in the environment of a session.
-/

namespace StackCompiler

namespace Ty

/-- The types are neither the same nor equal. One does not imply the other: a length that is not a
number is not equal to itself, and zeros of both signs are equal. -/
def Differ (t u : Ty) : Prop :=
  t ≠ u ∧ ¬ t.equals u

instance (t u : Ty) : Decidable (Differ t u) :=
  inferInstanceAs (Decidable (t ≠ u ∧ ¬ t.equals u))

mutual

/-- At every depth, no union contains a union, has exactly one member or has a member twice. -/
def WellFormed : Ty → Prop
  | null | scalar _ => True
  | array element _ => element.WellFormed
  | union ts => ts.length ≠ 1 ∧ ts.Pairwise Differ ∧ AreWellFormed ts

/-- The types are well formed, and no union is among them. -/
def AreWellFormed : List Ty → Prop
  | [] => True
  | t :: ts => (t.kind ≠ .union ∧ t.WellFormed) ∧ AreWellFormed ts

end

theorem areWellFormed_iff {ts : List Ty} :
    AreWellFormed ts ↔ ∀ t ∈ ts, t.kind ≠ .union ∧ t.WellFormed := by
  induction ts with
  | nil => exact ⟨fun _ => List.forall_mem_nil _, fun _ => trivial⟩
  | cons t ts ih => rw [AreWellFormed, ih, List.forall_mem_cons]

theorem wellFormed_union {ts : List Ty} :
    (union ts).WellFormed ↔
      ts.length ≠ 1 ∧ ts.Pairwise Differ ∧ ∀ t ∈ ts, t.kind ≠ .union ∧ t.WellFormed := by
  rw [WellFormed, areWellFormed_iff]

namespace Differ

variable {t u : Ty}

theorem of_kind_ne (h : t.kind ≠ u.kind) : Differ t u :=
  ⟨fun heq => h (congrArg kind heq), fun heq => h (equals_iff.1 heq).kind_eq⟩

/-- Types with their lengths at different places are the same only if they are equal. -/
theorem of_apart (hapart : Apart t u) (h : ¬ t.equals u) : Differ t u := by
  refine ⟨?_, h⟩
  rintro rfl
  have hnil : t.lengths = [] :=
    List.eq_nil_iff_forall_not_mem.2 fun e he => hapart e he e he rfl
  exact h (equals_iff.2 (.refl hnil))

end Differ

namespace WellFormed

mutual

theorem flat : {t : Ty} → t.WellFormed → t.Flat
  | null, _ | scalar _, _ => trivial
  | array element _, h => flat (t := element) h
  | union _, h => flatAll h.2.2

theorem flatAll : {ts : List Ty} → AreWellFormed ts → AreMembers ts
  | [], _ => trivial
  | _ :: _, h => ⟨⟨h.1.1, flat h.1.2⟩, flatAll h.2⟩

end

theorem members {t : Ty} (h : t.WellFormed) : ∀ u ∈ t.members, u.kind ≠ .union ∧ u.WellFormed := by
  intro u hu
  refine ⟨(h.flat.members u hu).1, ?_⟩
  cases t with
  | union ts => exact ((wellFormed_union.1 h).2.2 u hu).2
  | null | scalar _ | array _ _ =>
    rw [List.mem_singleton.1 hu]
    exact h

theorem flatMap_members {ts : List Ty} (h : ∀ t ∈ ts, t.WellFormed) :
    ∀ t ∈ ts.flatMap Ty.members, t.kind ≠ .union ∧ t.WellFormed := by
  intro t ht
  obtain ⟨u, hu, ht⟩ := List.mem_flatMap.1 ht
  exact (h u hu).members t ht

theorem ofMembers {ts : List Ty} (hdiffer : ts.Pairwise Differ)
    (h : ∀ t ∈ ts, t.kind ≠ .union ∧ t.WellFormed) : (ofMembers ts).WellFormed := by
  match ts with
  | [] => exact wellFormed_union.2 ⟨nofun, hdiffer, h⟩
  | [t] => exact (h t List.mem_cons_self).2
  | t :: u :: ts => exact wellFormed_union.2 ⟨by simp, hdiffer, h⟩

end WellFormed

/-- No two types that a union keeps are equal. -/
theorem pairwise_foldl_addNew (ts : List Ty) {kept : List Ty}
    (h : kept.Pairwise fun t u => ¬ t.equals u) :
    (ts.foldl addNew kept).Pairwise fun t u => ¬ t.equals u := by
  induction ts generalizing kept with
  | nil => exact h
  | cons t ts ih =>
    rw [List.foldl_cons, addNew]
    split_ifs with ht
    · exact ih h
    · refine ih (List.pairwise_append.2 ⟨h, List.pairwise_singleton _ t, ?_⟩)
      intro u hu v hv hequals
      rw [List.mem_singleton.1 hv] at hequals
      exact ht (List.any_eq_true.2 ⟨u, hu, hequals⟩)

/-- The union of well-formed types is well formed, if their members stand at different places. -/
theorem WellFormed.join {ts : List Ty} (h : ∀ t ∈ ts, t.WellFormed)
    (hapart : (ts.flatMap Ty.members).Pairwise Apart) : (join ts).WellFormed := by
  obtain ⟨new, hnew, hsub⟩ := exists_foldl_addNew (ts.flatMap Ty.members) []
  rw [List.nil_append] at hnew
  have hequals := pairwise_foldl_addNew (ts.flatMap Ty.members) .nil
  rw [hnew] at hequals
  rw [Ty.join, hnew]
  exact .ofMembers ((hapart.sublist hsub).imp₂ (fun _ _ => .of_apart) hequals) fun t ht =>
    flatMap_members h t (hsub.subset ht)

theorem KindsDiffer.pairwise_differ {ts : List Ty} (h : KindsDiffer ts) : ts.Pairwise Differ :=
  h.imp .of_kind_ne

/-- What flat types merge to has members of different kinds, none of them a union; each is one of
the given members or an array over what their elements merge to. -/
theorem exists_merge_eq {ts : List Ty} (h : ∀ t ∈ ts, t.Flat) :
    ∃ ms, merge ts = ofMembers ms ∧ KindsDiffer ms ∧ ∀ m ∈ ms, m.kind ≠ .union ∧
      (m ∈ ts.flatMap members ∨ 1 < (elements (ts.flatMap members)).length ∧
        ∃ t ∈ ts.flatMap members, m = withElement (merge (elements (ts.flatMap members))) t) := by
  obtain ⟨hkinds, hmem⟩ := firstOfKinds_spec (ts.flatMap members)
  have hunion := fun t ht => (flat_flatMap_members h t (hmem t ht)).1
  rw [merge_eq h]
  by_cases hlen : 1 < (elements (ts.flatMap members)).length
  · rw [if_pos hlen]
    refine ⟨_, rfl, List.pairwise_map.2 (hkinds.imp fun hne => ?_),
      List.forall_mem_map.2 fun t ht => ⟨?_, .inr ⟨hlen, t, hmem t ht, rfl⟩⟩⟩
    · rwa [kind_withElement, kind_withElement]
    · rw [kind_withElement]
      exact hunion t ht
  · rw [if_neg hlen]
    exact ⟨_, rfl, hkinds, fun t ht => ⟨hunion t ht, .inl (hmem t ht)⟩⟩

theorem WellFormed.elements {ts : List Ty} (h : ∀ t ∈ ts, t.WellFormed) :
    ∀ t ∈ elements ts, t.WellFormed := by
  induction ts with
  | nil => exact List.forall_mem_nil _
  | cons t ts ih =>
    rw [List.forall_mem_cons] at h
    cases t with
    | array element length => exact List.forall_mem_cons.2 ⟨h.1, ih h.2⟩
    | null | scalar _ | union _ => exact ih h.2

/-- Well-formed types merge to a well-formed one. -/
theorem WellFormed.merge {ts : List Ty} (h : ∀ t ∈ ts, t.WellFormed) : (merge ts).WellFormed := by
  have hmembers := flatMap_members h
  obtain ⟨ms, hms, hkinds, hmem⟩ := exists_merge_eq fun t ht => (h t ht).flat
  rw [hms]
  refine .ofMembers hkinds.pairwise_differ fun m hm => ⟨(hmem m hm).1, ?_⟩
  rcases (hmem m hm).2 with hm | ⟨hlen, t, ht, rfl⟩
  · exact (hmembers m hm).2
  · have := depths_elements_members_lt hlen
    cases t with
    | array element length => exact merge (WellFormed.elements fun t ht => (hmembers t ht).2)
    | null | scalar _ | union _ => exact (hmembers _ ht).2
termination_by depths ts
decreasing_by exact this

/-- The members of a union that flat types merge to are of different kinds. -/
theorem kindsDiffer_of_merge {ts us : List Ty} (h : ∀ t ∈ ts, t.Flat) (hus : merge ts = union us) :
    KindsDiffer us := by
  obtain ⟨ms, hms, hkinds, hmem⟩ := exists_merge_eq h
  rw [hms] at hus
  match ms with
  | [] =>
    cases hus
    exact hkinds
  | [m] =>
    have hm := (hmem m List.mem_cons_self).1
    rw [show m = union us from hus] at hm
    exact absurd rfl hm
  | m :: m' :: ms =>
    cases hus
    exact hkinds

end Ty

/-! ## Declared types -/

mutual

/-- The lengths of a type start at different tokens that it is written with. -/
theorem Ty.Derives.sites_subperm {ts : List Token} {t : Ty} : Ty.Derives ts t →
    (t.lengths.map fun e => e.range.site).Subperm (ts.map fun u => u.range.site)
  | .single h => h.sites_subperm
  | .union h hs => by
    have hall := h.sites_subperm.append hs.sites_subperm
    rw [← List.map_append, ← List.map_append, ← List.flatMap_cons] at hall
    exact ((Ty.lengths_join_sublist _).map _).subperm.trans hall

theorem Ty.DerivesMember.sites_subperm {ts : List Token} {t : Ty} : Ty.DerivesMember ts t →
    (t.lengths.map fun e => e.range.site).Subperm (ts.map fun u => u.range.site)
  | .scalar _ | .null _ => List.nil_subperm
  | @Ty.DerivesMember.group l r ts _ _ h _ => by
    have hsub : ts.Sublist (l :: ts ++ [r]) :=
      (List.sublist_append_left ts [r]).trans (List.sublist_cons_self l _)
    exact h.sites_subperm.trans (hsub.map _).subperm
  | .array h _ _ => h.sites_subperm.trans ((List.sublist_append_left _ _).map _).subperm
  | @Ty.DerivesMember.sized l r ts us t length h _ he _ => by
    obtain ⟨u, hu, hsite⟩ := he.exists_site
    have hlength : [length.range.site].Subperm ((l :: (us ++ [r])).map fun u => u.range.site) := by
      rw [List.singleton_subperm_iff, hsite]
      exact List.mem_map_of_mem (List.mem_cons_of_mem _ (List.mem_append_left _ hu))
    rw [List.map_append]
    exact List.perm_append_comm.subperm.trans (h.sites_subperm.append hlength)

theorem Ty.DerivesOthers.sites_subperm {us : List Token} {ts : List Ty} : Ty.DerivesOthers us ts →
    ((ts.flatMap Ty.lengths).map fun e => e.range.site).Subperm (us.map fun u => u.range.site)
  | .nil => List.nil_subperm
  | .cons _ h hs => by
    have hall := h.sites_subperm.append hs.sites_subperm
    rw [← List.map_append, ← List.map_append, ← List.flatMap_cons] at hall
    exact hall.trans ((List.sublist_cons_self _ _).map _).subperm

end

namespace Ty

theorem Derives.nodup_sites {ts : List Token} {t : Ty} (h : Ty.Derives ts t)
    (hts : DistinctSites ts) : (t.lengths.map fun e => e.range.site).Nodup := by
  obtain ⟨sites, hperm, hsub⟩ := h.sites_subperm
  exact hperm.nodup_iff.1 ((List.pairwise_map.2 hts).sublist hsub)

section Lengths

variable {f : Expr → Expr}

theorem pairwise_apart_of_nodup {ts : List Ty}
    (h : ((ts.flatMap lengths).map fun e => e.range.site).Nodup) : ts.Pairwise Apart := by
  rw [List.map_flatMap, List.nodup_flatMap] at h
  refine h.2.imp fun hdisjoint e he e' he' hsite => ?_
  exact hdisjoint (List.mem_map_of_mem he) (hsite ▸ List.mem_map_of_mem he')

/-- Types whose lengths are changed in place stay different, if no two of their lengths start at one
place. -/
theorem Differ.mapLengths (hf : ∀ e, (f e).range = e.range) {t u : Ty} (h : Differ t u)
    (hapart : Apart t u) : Differ (t.mapLengths f) (u.mapLengths f) := by
  have hapart' : Apart (t.mapLengths f) (u.mapLengths f) := by
    rw [Apart, lengths_mapLengths, lengths_mapLengths, List.forall_mem_map]
    intro e he
    rw [List.forall_mem_map]
    intro e' he'
    rw [hf, hf]
    exact hapart e he e' he'
  refine .of_apart hapart' fun hequals => h.2 ?_
  -- Equal types at different places have no lengths, so nothing was changed.
  have ht := (equals_iff.1 hequals).lengths_eq_nil hapart'
  have hu := (equals_iff.1 hequals).symm.lengths_eq_nil
    fun e he e' he' heq => hapart' e' he' e he heq.symm
  rw [lengths_mapLengths, List.map_eq_nil_iff] at ht hu
  rwa [mapLengths_of_lengths_eq_nil ht, mapLengths_of_lengths_eq_nil hu] at hequals

mutual

/-- A well-formed type stays well formed when its lengths are changed in place, if no two of them
start at one place. -/
theorem WellFormed.mapLengths (hf : ∀ e, (f e).range = e.range) : {t : Ty} → t.WellFormed →
    (t.lengths.map fun e => e.range.site).Nodup → (t.mapLengths f).WellFormed
  | null, _, _ | scalar _, _, _ => trivial
  | array element length, h, hsites => by
    rw [lengths, List.map_append] at hsites
    exact WellFormed.mapLengths hf (t := element) h hsites.of_append_right
  | union ts, h, hsites => by
    have hdiffer : (ts.map (Ty.mapLengths f)).Pairwise Differ := by
      rw [lengths, lengthsAll_eq_flatMap] at hsites
      exact List.pairwise_map.2
        (h.2.1.imp₂ (fun _ _ => Differ.mapLengths hf) (pairwise_apart_of_nodup hsites))
    rw [← mapLengthsAll_eq_map] at hdiffer
    refine ⟨?_, hdiffer, WellFormed.mapLengthsAll hf h.2.2 hsites⟩
    rw [mapLengthsAll_eq_map, List.length_map]
    exact h.1

theorem WellFormed.mapLengthsAll (hf : ∀ e, (f e).range = e.range) : {ts : List Ty} →
    AreWellFormed ts → ((lengthsAll ts).map fun e => e.range.site).Nodup →
    AreWellFormed (Ty.mapLengthsAll f ts)
  | [], _, _ => trivial
  | t :: ts, h, hsites => by
    rw [lengthsAll, List.map_append] at hsites
    refine ⟨⟨?_, WellFormed.mapLengths hf h.1.2 hsites.of_append_left⟩,
      WellFormed.mapLengthsAll hf h.2 hsites.of_append_right⟩
    rw [← kind_erase, erase_mapLengths, kind_erase]
    exact h.1.1

end

end Lengths

end Ty

mutual

/-- Types are read as well-formed ones. -/
theorem Ty.Derives.wellFormed {ts : List Token} {t : Ty} : Ty.Derives ts t → DistinctSites ts →
    t.WellFormed
  | .single h, hts => h.wellFormed hts
  | .union h hs, hts => by
    have hfresh := Ty.Fresh.append h.fresh hs.fresh hts
    rw [← List.flatMap_cons] at hfresh
    refine .join (List.forall_mem_cons.2 ⟨h.wellFormed ?_, hs.wellFormed ?_⟩) hfresh.apart
    · exact hts.sublist (List.sublist_append_left _ _)
    · exact hts.sublist (List.sublist_append_right _ _)

theorem Ty.DerivesMember.wellFormed {ts : List Token} {t : Ty} : Ty.DerivesMember ts t →
    DistinctSites ts → t.WellFormed
  | .scalar _, _ | .null _, _ => trivial
  | .group _ h _, hts => h.wellFormed (hts.of_cons.sublist (List.sublist_append_left _ _))
  | .array h _ _, hts => h.wellFormed (hts.sublist (List.sublist_append_left _ _))
  | .sized h _ _ _, hts => h.wellFormed (hts.sublist (List.sublist_append_left _ _))

theorem Ty.DerivesOthers.wellFormed {us : List Token} {ts : List Ty} : Ty.DerivesOthers us ts →
    DistinctSites us → ∀ t ∈ ts, t.WellFormed
  | .nil, _ => List.forall_mem_nil _
  | .cons _ h hs, hus => by
    rw [List.cons_append, DistinctSites, List.pairwise_cons] at hus
    refine List.forall_mem_cons.2 ⟨h.wellFormed ?_, hs.wellFormed ?_⟩
    · exact hus.2.sublist (List.sublist_append_left _ _)
    · exact hus.2.sublist (List.sublist_append_right _ _)

end

/-- A declared type is well formed, folded or not. -/
theorem Ty.Derives.wellFormed_fold {ts : List Token} {t : Ty} (h : Ty.Derives ts t)
    (hts : DistinctSites ts) : t.fold.WellFormed := by
  rw [Ty.fold_eq_mapLengths]
  exact (h.wellFormed hts).mapLengths Expr.range_fold (h.nodup_sites hts)

theorem Declaration.Derives.exists_ty {ts : List Token} {d : Declaration}
    (h : Declaration.Derives ts d) : ∃ us, us.Sublist ts ∧ Ty.Derives us d.ty := by
  cases h with
  | mutable _ _ _ ht _ _ => exact ⟨_, sublist_tokens _ _ _ _ _, ht⟩
  | constant _ _ _ ht _ _ => exact ⟨_, sublist_tokens _ _ _ _ _, ht⟩

/-- The types that a source text declares are well formed once they are folded. -/
theorem Program.wellFormed_of_ofSource {source : String} {p : Program}
    (h : Program.ofSource source = .ok p) {d : Declaration} (hd : .declaration d ∈ p.fold) :
    d.ty.WellFormed := by
  obtain ⟨us, stop, hts, hp, _⟩ := Program.ofSource_eq_ok h
  have htiling : Tiling [] source.toList (us ++ [stop]) := .of_scan hts
  obtain ⟨stmt, hmem, hfold⟩ := List.mem_map.1 hd
  cases stmt with
  | expression e => cases hfold
  | declaration d' =>
    cases hfold
    obtain ⟨vs, hvs, hd'⟩ := hp.exists_declaration hmem
    obtain ⟨ws, hws, hty⟩ := hd'.exists_ty
    refine hty.wellFormed_fold (htiling.distinctSites.sublist ?_)
    exact hws.trans (hvs.trans (List.sublist_append_left us [stop]))

/-! ## Environments -/

/-- The types that a scope knows of: those of its variables and those of its procedures. -/
def Scope.tys (s : Scope) : List Ty :=
  s.vars.map (·.2.ty) ++ s.procedures.flatMap fun p => p.2.returns :: p.2.parameters

theorem Scope.tys_mark (s : Scope) (x : String) : (s.mark x).tys = s.tys := by
  rw [tys, tys, mark, List.map_map]
  congr 2
  funext p
  rw [Function.comp_apply]
  dsimp only
  split_ifs <;> rfl

namespace Environment

/-- The types that an environment knows of. -/
def tys (env : Environment) : List Ty :=
  env.scopes.flatMap Scope.tys

/-- Every type in the environment is well formed. -/
def WellTyped (env : Environment) : Prop :=
  ∀ t ∈ env.tys, t.WellFormed

theorem WellTyped.empty : WellTyped {} :=
  fun _ ht => absurd ht List.not_mem_nil

theorem flatMap_tys_markFirst (x : String) (scopes : List Scope) :
    (markFirst x scopes).flatMap Scope.tys = scopes.flatMap Scope.tys := by
  induction scopes with
  | nil => rfl
  | cons s scopes ih =>
    rw [markFirst]
    split_ifs
    · rw [List.flatMap_cons, List.flatMap_cons, Scope.tys_mark]
    · rw [List.flatMap_cons, List.flatMap_cons, ih]

/-- Marks change no types. -/
theorem tys_markAll (env : Environment) (names : List String) :
    (env.markAll names).tys = env.tys := by
  induction names generalizing env with
  | nil => rfl
  | cons x names ih => rw [markAll_cons, ih, tys, scopes_mark, flatMap_tys_markFirst, tys]

theorem WellTyped.markAll {env : Environment} (h : env.WellTyped) (names : List String) :
    (env.markAll names).WellTyped := by
  rwa [WellTyped, tys_markAll]

theorem WellTyped.defineAll {env env' : Environment} {names : List String} {v : Variable}
    (h : env.WellTyped) (hv : v.ty.WellFormed) (hdefine : env.defineAll? names v = some env') :
    env'.WellTyped := by
  induction names generalizing env with
  | nil =>
    cases hdefine
    exact h
  | cons x names ih =>
    obtain ⟨env₁, hx, hnames⟩ := defineAll?_cons_eq_some.1 hdefine
    refine ih ?_ hnames
    obtain ⟨-, rfl⟩ := define_eq_ok.1 hx
    exact List.forall_mem_cons.2 ⟨hv, h⟩

/-- The type of a name is in the environment. -/
theorem mem_tys_of_get? {env : Environment} {x : String} {v : Variable}
    (h : env.get? x = some v) : v.ty ∈ env.tys := by
  obtain ⟨s, hs, hv⟩ := List.exists_of_findSome?_eq_some h
  obtain ⟨before, after, hvars, _⟩ := List.lookup_eq_some_iff.1 hv
  refine List.mem_flatMap.2 ⟨s, hs, List.mem_append_left _ (List.mem_map.2 ⟨(x, v), ?_, rfl⟩)⟩
  rw [hvars]
  exact List.mem_append_right before List.mem_cons_self

theorem WellTyped.get? {env : Environment} {x : String} {v : Variable} (h : env.WellTyped)
    (hv : env.get? x = some v) : v.ty.WellFormed :=
  h _ (mem_tys_of_get? hv)

end Environment

/-! ## Checks -/

theorem Literal.wellFormed_of_check {value : Literal} {r : Range} {s s' : Checking} {t : Ty}
    (h : (value.check r).run s = .ok t s') : t.WellFormed := by
  cases value with
  | integer n =>
    rw [Literal.check] at h
    split at h <;> cases h <;> trivial
  | float _ | string _ | char _ | null => cases h; trivial

theorem Ty.WellFormed.indexed? {t u : Ty} (h : t.WellFormed) (hu : t.indexed? = some u) :
    u.WellFormed := by
  cases t with
  | array element length =>
    cases hu
    exact h
  | scalar s =>
    cases s with
    | string =>
      cases hu
      trivial
    | integer _ | float _ | char => cases hu
  | null | union _ => cases hu

namespace Expr

mutual

/-- In a well-formed environment an expression has a well-formed type. -/
theorem wellFormed_of_check {e : Expr} {s s' : Checking} {t : Ty} (hs : s.environment.WellTyped)
    (h : e.check.run s = .ok t s') : t.WellFormed := by
  match e with
  | literal value range => exact Literal.wellFormed_of_check h
  | ident id =>
    obtain ⟨_, hv, _, rfl, _⟩ := check_ident_eq_ok.1 h
    exact hs.get? hv
  | update .. =>
    obtain ⟨_, hv, _, _, _, rfl, _⟩ := check_update_eq_ok.1 h
    exact hs.get? hv
  | binary op l r range =>
    obtain ⟨_, _, _, _, _, ht⟩ := check_binary_eq_ok.1 h
    rcases BinaryOp.result?_cases ht with rfl | rfl | ⟨_, rfl⟩ <;> trivial
  | unary op e range =>
    obtain ⟨_, he, ht⟩ := check_unary_eq_ok.1 h
    rcases UnaryOp.result?_cases ht with rfl | rfl
    · exact wellFormed_of_check hs he
    · trivial
  | assign .. =>
    obtain ⟨_, _, _, _, _, _, _, rfl, _⟩ := check_assign_eq_ok.1 h
    trivial
  | sequence items range =>
    obtain ⟨ts, hitems, rfl⟩ := check_sequence_eq_ok.1 h
    rw [List.getLastD_eq_getLast?]
    cases hlast : ts.getLast? with
    | none => trivial
    | some t => exact wellFormed_of_checkAll hs hitems t (List.mem_of_getLast? hlast)
  | array items range =>
    obtain ⟨ts, hitems, rfl⟩ := check_array_eq_ok.1 h
    exact Ty.WellFormed.merge (wellFormed_of_checkAll hs hitems)
  | index base position range =>
    obtain ⟨_, _, _, hbase, _, ht, _⟩ := check_index_eq_ok.1 h
    exact (wellFormed_of_check hs hbase).indexed? ht

theorem wellFormed_of_checkAll {es : List Expr} {s s' : Checking} {ts : List Ty}
    (hs : s.environment.WellTyped) (h : (checkAll es).run s = .ok ts s') :
    ∀ t ∈ ts, t.WellFormed := by
  match es with
  | [] =>
    cases h
    exact List.forall_mem_nil _
  | e :: es =>
    obtain ⟨_, s₁, _, he, hes, rfl⟩ := checkAll_cons_eq_ok.1 h
    refine List.forall_mem_cons.2 ⟨wellFormed_of_check hs he, wellFormed_of_checkAll ?_ hes⟩
    rw [environment_check he]
    exact hs.markAll _

end

/-- The elements of an array that is written out have a well-formed type, and one member of a kind
if it is a union. -/
theorem kindsDiffer_of_check_array {items : List Expr} {range : Range} {s s' : Checking} {t : Ty}
    (hs : s.environment.WellTyped) (h : (array items range).check.run s = .ok t s') :
    ∃ element, t = .array element none ∧ ∀ us, element = .union us → Ty.KindsDiffer us := by
  obtain ⟨ts, hitems, rfl⟩ := check_array_eq_ok.1 h
  refine ⟨_, rfl, fun us hus => ?_⟩
  exact Ty.kindsDiffer_of_merge (fun t ht => (wellFormed_of_checkAll hs hitems t ht).flat) hus

end Expr

theorem Statement.wellTyped_of_check {stmt : Statement} {s s' : Checking} {u : Unit}
    (hs : s.environment.WellTyped) (hd : ∀ d, stmt = .declaration d → d.ty.WellFormed)
    (h : stmt.check.run s = .ok u s') : s'.environment.WellTyped := by
  cases stmt with
  | expression e =>
    obtain ⟨_, s₁, he, hp⟩ := run_bind_eq_ok.1 h
    obtain ⟨_, rfl⟩ := run_pure_eq_ok.1 hp
    rw [Expr.environment_check he]
    exact hs.markAll _
  | declaration d => exact (hs.markAll _).defineAll (hd d rfl) (Declaration.environment_check h)

theorem Program.wellTyped_of_check {p : Program} {s s' : Checking} {u : Unit}
    (hs : s.environment.WellTyped) (hp : ∀ d, .declaration d ∈ p → d.ty.WellFormed)
    (h : p.check.run s = .ok u s') : s'.environment.WellTyped := by
  induction p generalizing s with
  | nil =>
    cases h
    exact hs
  | cons stmt p ih =>
    obtain ⟨_, s₁, hstmt, hrest⟩ := run_bind_eq_ok.1 h
    refine ih ?_ (fun d hd => hp d (List.mem_cons_of_mem _ hd)) hrest
    exact Statement.wellTyped_of_check hs (fun d hd => hp d (hd ▸ List.mem_cons_self)) hstmt

namespace Session

theorem wellTyped_compileAll (options : Options) (sources : List String) :
    (compileAll { options } sources).2.environment.WellTyped := by
  refine compileAll_induction (motive := fun _ s => s.environment.WellTyped)
    .empty ?_ sources
  intro cs s source p c s' hs hp hc
  obtain ⟨checked, code, st, hcheck, _, _, rfl⟩ := compileProgram_eq_ok hc
  exact Program.wellTyped_of_check hs (fun _ => Program.wellFormed_of_ofSource hp) hcheck

/-- Types are well formed everywhere. After any units every type in the environment is, and so is
every type that a source text declares, once its lengths are folded. In an environment of such
types every expression has such a type; that of the elements of an array that is written out has,
if it is a union, members of different kinds. -/
theorem compileAll_wellFormed (options : Options) (sources : List String) :
    (∀ t ∈ (compileAll { options } sources).2.environment.tys, t.WellFormed) ∧
    (∀ source p, Program.ofSource source = .ok p →
      ∀ d, .declaration d ∈ p.fold → d.ty.WellFormed) ∧
    ∀ (e : Expr) (s s' : Checking) (t : Ty), (∀ u ∈ s.environment.tys, u.WellFormed) →
      e.check.run s = .ok t s' → t.WellFormed ∧ ∀ items range, e = .array items range →
        ∃ element, t = .array element none ∧ ∀ us, element = .union us → Ty.KindsDiffer us := by
  refine ⟨wellTyped_compileAll options sources, fun source p hp d hd =>
    Program.wellFormed_of_ofSource hp hd, fun e s s' t hs h => ⟨e.wellFormed_of_check hs h, ?_⟩⟩
  rintro items range rfl
  exact Expr.kindsDiffer_of_check_array hs h

/-- Two lengths of a union are folded to the same number. -/
theorem compileAll_wellFormed_lengths :
    (compileAll {} ["mut a: int[1 + 1] | int[2];"]).2.environment.tys =
        [.union [.array (.integer .i32) (some (.literal (.integer 2) ⟨1, 11, 16⟩)),
          .array (.integer .i32) (some (.literal (.integer 2) ⟨1, 24, 25⟩))]] ∧
      ∀ t ∈ (compileAll {} ["mut a: int[1 + 1] | int[2];"]).2.environment.tys, t.WellFormed := by
  refine ⟨?_, (compileAll_wellFormed {} ["mut a: int[1 + 1] | int[2];"]).1⟩
  decide +kernel

end Session

end StackCompiler
