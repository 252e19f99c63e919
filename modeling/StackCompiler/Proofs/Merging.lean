import Mathlib.Data.List.Induction
import StackCompiler.Proofs.Values

/-!
# Merged types

What types merge to has every value that one of them has (`Ty.HasValue.merge`) and is nested as
deeply as the deepest of them (`Ty.depth_merge`). The members of the merged type are gathered from
those of the types (`Ty.gathered`): the first of each kind, with an array over all the element types
in place of the first array.

Gathering a list and then more of it is gathering all of it (`Ty.gathered_append`), so the members
can be taken in one after the other, each array that comes changing the one that is there
(`Ty.Gathers`). That calls itself on element types that are merged already; it ends all the same and
with the same type, because merging keeps the depth (`Ty.mergesTo_iff`).
-/

namespace StackCompiler

namespace Ty

/-! ## Arrays and kinds in a list -/

section Lists

variable {t : Ty} {ts us : List Ty}

theorem elements_append (ts us : List Ty) : elements (ts ++ us) = elements ts ++ elements us := by
  induction ts with
  | nil => rfl
  | cons t ts ih => cases t <;> simp [elements, ih]

theorem elements_singleton_of_ne (h : t.kind ≠ .array) : elements [t] = [] := by
  cases t with
  | array _ _ => exact absurd rfl h
  | null | scalar _ | union _ => rfl

theorem mem_elements {e : Ty} : e ∈ elements ts ↔ ∃ length, array e length ∈ ts := by
  induction ts with
  | nil => simp [elements]
  | cons t ts ih => cases t <;> simp [elements, ih, exists_or, eq_comm]

theorem elements_eq_nil : elements ts = [] ↔ ∀ t ∈ ts, t.kind ≠ .array := by
  rw [List.eq_nil_iff_forall_not_mem]
  constructor
  · intro h t ht hkind
    obtain ⟨e, length, rfl⟩ := exists_eq_array hkind
    exact h e (mem_elements.2 ⟨length, ht⟩)
  · intro h e he
    obtain ⟨length, hmem⟩ := mem_elements.1 he
    exact h _ hmem rfl

theorem withElement_of_ne (e : Ty) (h : t.kind ≠ .array) : withElement e t = t := by
  cases t with
  | array _ _ => exact absurd rfl h
  | null | scalar _ | union _ => rfl

theorem withElement_withElement (e e' t : Ty) :
    withElement e (withElement e' t) = withElement e t := by
  cases t <;> rfl

/-- Nothing changes if all arrays are over that element type. -/
theorem map_withElement_eq_self {e : Ty} (h : ∀ e' ∈ elements ts, e' = e) :
    ts.map (withElement e) = ts := by
  induction ts with
  | nil => rfl
  | cons t ts ih =>
    cases t with
    | array _ _ =>
      obtain ⟨he, hts⟩ := List.forall_mem_cons.1 h
      rw [List.map_cons, ih hts, withElement, he]
    | null | scalar _ | union _ => exact congrArg _ (ih h)

theorem elements_map_withElement (e : Ty) (ts : List Ty) :
    elements (ts.map (withElement e)) = (elements ts).map fun _ => e := by
  induction ts with
  | nil => rfl
  | cons t ts ih => cases t <;> simp [withElement, elements, ih]

/-- Types that are no unions are nested as deeply as the arrays among them. -/
theorem depths_eq_elements (h : ∀ t ∈ ts, t.kind ≠ .union) :
    depths ts = depths (elements ts) + min (elements ts).length 1 := by
  induction ts with
  | nil => rfl
  | cons t ts ih =>
    rw [List.forall_mem_cons] at h
    have hts := ih h.2
    cases t with
    | union _ => exact absurd rfl h.1
    | null | scalar _ => simpa [depths, depth, elements] using hts
    | array e length =>
      simp only [depths, depth, elements, List.length_cons, hts]
      cases elements ts <;> simp [depths]

/-- A type is kept if it is the first of its kind. -/
theorem firstOfKinds_concat (ts : List Ty) (t : Ty) :
    firstOfKinds (ts ++ [t]) =
      if ∃ k ∈ firstOfKinds ts, k.kind = t.kind then firstOfKinds ts
      else firstOfKinds ts ++ [t] := by
  rw [firstOfKinds, List.foldl_append, List.foldl_cons, List.foldl_nil, ← firstOfKinds]
  simp only [List.any_eq_true, beq_iff_eq]

theorem exists_mem_firstOfKinds (ht : t ∈ ts) : ∃ k ∈ firstOfKinds ts, k.kind = t.kind := by
  induction ts using List.reverseRecOn with
  | nil => exact absurd ht List.not_mem_nil
  | append_singleton ts u ih =>
    rw [firstOfKinds_concat]
    split_ifs with hu
    · rcases List.mem_append.1 ht with ht | ht
      · exact ih ht
      · rwa [List.mem_singleton.1 ht]
    · rcases List.mem_append.1 ht with ht | ht
      · obtain ⟨k, hk, hkind⟩ := ih ht
        exact ⟨k, List.mem_append_left _ hk, hkind⟩
      · exact ⟨t, List.mem_append_right _ ht, rfl⟩

theorem firstOfKinds_of_kindsDiffer (h : KindsDiffer ts) : firstOfKinds ts = ts := by
  induction ts using List.reverseRecOn with
  | nil => rfl
  | append_singleton ts t ih =>
    obtain ⟨hts, -, hne⟩ := List.pairwise_append.1 h
    rw [firstOfKinds_concat, ih hts, if_neg]
    rintro ⟨k, hk, hkind⟩
    exact hne k hk t (List.mem_singleton_self t) hkind

theorem firstOfKinds_append (ts us : List Ty) :
    firstOfKinds (firstOfKinds ts ++ us) = firstOfKinds (ts ++ us) := by
  induction us using List.reverseRecOn with
  | nil =>
    rw [List.append_nil, List.append_nil]
    exact firstOfKinds_of_kindsDiffer (firstOfKinds_spec ts).1
  | append_singleton us u ih =>
    rw [← List.append_assoc, ← List.append_assoc, firstOfKinds_concat, firstOfKinds_concat, ih]

/-- Of several arrays the first one is kept. -/
theorem elements_firstOfKinds (ts : List Ty) :
    elements (firstOfKinds ts) = (elements ts).take 1 := by
  induction ts using List.reverseRecOn with
  | nil => rfl
  | append_singleton ts t ih =>
    rw [firstOfKinds_concat, elements_append]
    by_cases ht : t.kind = .array
    · have hknown : (∃ k ∈ firstOfKinds ts, k.kind = t.kind) ↔ elements ts ≠ [] := by
        have hts : elements (firstOfKinds ts) = [] ↔ elements ts = [] := by
          rw [ih, List.take_eq_nil_iff, or_iff_right one_ne_zero]
        rw [ht, ne_eq, ← hts, elements_eq_nil]
        push Not
        rfl
      by_cases hts : elements ts = []
      · rw [if_neg (hknown.not.2 (not_not.2 hts)), elements_append, ih, hts]
        obtain ⟨e, length, rfl⟩ := exists_eq_array ht
        rfl
      · rw [if_pos (hknown.2 hts), ih, List.take_append_of_le_length]
        exact List.length_pos_iff.2 hts
    · rw [elements_singleton_of_ne ht, List.append_nil]
      split_ifs
      · exact ih
      · rw [elements_append, elements_singleton_of_ne ht, List.append_nil, ih]

/-- Among types of different kinds there is at most one array. -/
theorem KindsDiffer.length_elements_le (h : KindsDiffer ts) : (elements ts).length ≤ 1 := by
  rw [← firstOfKinds_of_kindsDiffer h, elements_firstOfKinds]
  exact List.length_take_le 1 _

end Lists

/-! ## Gathering members -/

/-- The first type of each kind; in place of the first of several arrays there is an array over what
all their elements merge to. -/
def gathered (ts : List Ty) : List Ty :=
  if 1 < (elements ts).length then (firstOfKinds ts).map (withElement (merge (elements ts)))
  else firstOfKinds ts

section Gathered

variable {ts us : List Ty}

theorem merge_eq_join_gathered (ts : List Ty) : merge ts = join (gathered (ts.flatMap members)) :=
  merge_eq_join ts

theorem gathered_of_kindsDiffer (h : KindsDiffer ts) : gathered ts = ts := by
  rw [gathered, if_neg (Nat.not_lt.2 h.length_elements_le), firstOfKinds_of_kindsDiffer h]

/-- What is gathered of flat types that are no unions is such types, of different kinds. -/
theorem gathered_spec (h : ∀ t ∈ ts, t.kind ≠ .union ∧ t.Flat) :
    KindsDiffer (gathered ts) ∧ ∀ t ∈ gathered ts, t.kind ≠ .union ∧ t.Flat := by
  obtain ⟨hkinds, hmem⟩ := firstOfKinds_spec ts
  rw [gathered]
  split_ifs
  · refine ⟨List.pairwise_map.2 (hkinds.imp fun hne => ?_), List.forall_mem_map.2 fun t ht => ?_⟩
    · rwa [kind_withElement, kind_withElement]
    · rw [kind_withElement]
      refine ⟨(h t (hmem t ht)).1, ?_⟩
      cases t with
      | array _ _ => exact flat_merge (flat_elements fun t ht => (h t ht).2)
      | null | scalar _ | union _ => exact (h _ (hmem _ ht)).2
  · exact ⟨hkinds, fun t ht => h t (hmem t ht)⟩

theorem members_ofMembers (h : ∀ t ∈ ts, t.kind ≠ .union) : (ofMembers ts).members = ts := by
  match ts with
  | [] => rfl
  | [t] => exact members_of_kind_ne (h t List.mem_cons_self)
  | _ :: _ :: _ => rfl

theorem merge_eq_ofMembers (h : ∀ t ∈ ts, t.Flat) :
    merge ts = ofMembers (gathered (ts.flatMap members)) :=
  merge_eq h

theorem members_merge (h : ∀ t ∈ ts, t.Flat) :
    (merge ts).members = gathered (ts.flatMap members) := by
  rw [merge_eq_ofMembers h]
  exact members_ofMembers fun t ht => ((gathered_spec (flat_flatMap_members h)).2 t ht).1

/-- Of several arrays one is left, over what their elements merge to. -/
theorem elements_gathered_of_lt (h : 1 < (elements ts).length) :
    elements (gathered ts) = [merge (elements ts)] := by
  obtain ⟨e, es, hes⟩ := List.exists_cons_of_length_pos (Nat.zero_lt_of_lt h)
  rw [gathered, if_pos h, elements_map_withElement, elements_firstOfKinds, hes]
  rfl

theorem elements_gathered_of_le (h : (elements ts).length ≤ 1) :
    elements (gathered ts) = elements ts := by
  rw [gathered, if_neg (Nat.not_lt.2 h), elements_firstOfKinds, List.take_of_length_le h]

/-- Whatever becomes of the elements, kinds decide which types are kept. -/
theorem map_withElement_gathered_append (e : Ty) (ts us : List Ty) :
    (firstOfKinds (gathered ts ++ us)).map (withElement e) =
      (firstOfKinds (ts ++ us)).map (withElement e) := by
  have hgathered : (gathered ts).map (withElement e) = (firstOfKinds ts).map (withElement e) := by
    rw [gathered]
    split_ifs
    · rw [List.map_map]
      exact List.map_congr_left fun t _ => withElement_withElement e _ t
    · rfl
  rw [← firstOfKinds_map (kind_withElement e), ← firstOfKinds_map (kind_withElement e),
    List.map_append, List.map_append, hgathered, ← firstOfKinds_map (kind_withElement e),
    firstOfKinds_append]

/-- Gathering some types and then more of them is gathering all of them, if it is so for their
elements. -/
theorem gathered_append_of_elements (h : 1 < (elements ts).length →
    merge (merge (elements ts) :: elements us) = merge (elements ts ++ elements us)) :
    gathered (gathered ts ++ us) = gathered (ts ++ us) := by
  by_cases hlen : 1 < (elements ts).length
  · have hall : gathered (ts ++ us) =
        (firstOfKinds (gathered ts ++ us)).map
          (withElement (merge (elements ts ++ elements us))) := by
      rw [gathered, if_pos, elements_append, map_withElement_gathered_append]
      rw [elements_append, List.length_append]
      omega
    have helements : elements (gathered ts ++ us) = merge (elements ts) :: elements us := by
      rw [elements_append, elements_gathered_of_lt hlen, List.singleton_append]
    rw [hall, gathered, helements, ← h hlen]
    by_cases hus : elements us = []
    · -- There is one array left, and it is over that element type already.
      have hone : ¬ 1 < (merge (elements ts) :: elements us).length := by
        rw [hus]
        exact Nat.lt_irrefl 1
      rw [if_neg hone, map_withElement_eq_self]
      rw [elements_firstOfKinds, helements, h hlen, hus, List.append_nil]
      exact List.forall_mem_singleton.2 rfl
    · rw [if_pos]
      rw [List.length_cons]
      exact Nat.succ_lt_succ (List.length_pos_iff.2 hus)
  · have helements : elements (gathered ts ++ us) = elements (ts ++ us) := by
      rw [elements_append, elements_append, elements_gathered_of_le (Nat.not_lt.1 hlen)]
    have hgathered : gathered ts = firstOfKinds ts := if_neg hlen
    have hfirst : firstOfKinds (gathered ts ++ us) = firstOfKinds (ts ++ us) := by
      rw [hgathered, firstOfKinds_append]
    rw [gathered, helements, hfirst, ← gathered]

/-- Merging some types and then more of them is merging all of them. -/
theorem merge_cons_merge {ts us : List Ty} (h : ∀ t ∈ ts ++ us, t.Flat) :
    merge (merge ts :: us) = merge (ts ++ us) := by
  obtain ⟨hts, hus⟩ := List.forall_mem_append.1 h
  have hcons : ∀ t ∈ merge ts :: us, t.Flat := List.forall_mem_cons.2 ⟨flat_merge hts, hus⟩
  rw [merge_eq_ofMembers hcons, merge_eq_ofMembers h, List.flatMap_cons, members_merge hts,
    List.flatMap_append, gathered_append_of_elements]
  intro hlen
  have hlt : depths (elements (ts.flatMap members) ++ elements (us.flatMap members)) <
      depths (ts ++ us) := by
    rw [← elements_append, ← List.flatMap_append]
    refine depths_elements_members_lt ?_
    rw [List.flatMap_append, elements_append, List.length_append]
    omega
  refine merge_cons_merge ?_
  rw [← elements_append, ← List.flatMap_append]
  exact flat_elements fun t ht => (flat_flatMap_members h t ht).2
termination_by depths (ts ++ us)
decreasing_by exact hlt

/-- Gathering some types and then more of them is gathering all of them. -/
theorem gathered_append (h : ∀ t ∈ ts ++ us, t.Flat) :
    gathered (gathered ts ++ us) = gathered (ts ++ us) := by
  refine gathered_append_of_elements fun _ => merge_cons_merge ?_
  rw [← elements_append]
  exact flat_elements h

end Gathered

/-! ## Depth and values -/

section Covering

variable {t : Ty} {ts : List Ty}

theorem depth_le_depths (h : t ∈ ts) : t.depth ≤ depths ts := by
  induction ts with
  | nil => exact absurd h List.not_mem_nil
  | cons u ts ih =>
    rw [depths]
    rcases List.mem_cons.1 h with rfl | h
    · exact Nat.le_max_left _ _
    · exact Nat.le_trans (ih h) (Nat.le_max_right _ _)

theorem depth_ofMembers (ts : List Ty) : (ofMembers ts).depth = depths ts := by
  match ts with
  | [] => rfl
  | [t] => exact (Nat.max_zero t.depth).symm
  | _ :: _ :: _ => rfl

theorem depths_gathered_of_elements (h : ∀ t ∈ ts, t.kind ≠ .union ∧ t.Flat)
    (hdepth : 1 < (elements ts).length → (merge (elements ts)).depth = depths (elements ts)) :
    depths (gathered ts) = depths ts := by
  have hgathered := (gathered_spec h).2
  rw [depths_eq_elements fun t ht => (hgathered t ht).1,
    depths_eq_elements fun t ht => (h t ht).1]
  by_cases hlen : 1 < (elements ts).length
  · rw [elements_gathered_of_lt hlen, depths, depths, hdepth hlen, List.length_singleton]
    omega
  · rw [elements_gathered_of_le (Nat.not_lt.1 hlen)]

/-- Flat types merge to one that is nested as deeply as the deepest of them. -/
theorem depth_merge {ts : List Ty} (h : ∀ t ∈ ts, t.Flat) : (merge ts).depth = depths ts := by
  have hmembers := flat_flatMap_members h
  rw [merge_eq_ofMembers h, depth_ofMembers, depths_gathered_of_elements hmembers,
    depths_flatMap_members]
  intro hlen
  have hlt := depths_elements_members_lt hlen
  exact depth_merge (flat_elements fun t ht => (hmembers t ht).2)
termination_by depths ts
decreasing_by exact hlt

theorem depths_gathered (h : ∀ t ∈ ts, t.kind ≠ .union ∧ t.Flat) :
    depths (gathered ts) = depths ts :=
  depths_gathered_of_elements h fun _ => depth_merge (flat_elements fun t ht => (h t ht).2)

theorem depths_eq_foldr (ts : List Ty) : depths ts = (ts.map depth).foldr max 0 := by
  induction ts with
  | nil => rfl
  | cons t ts ih => rw [depths, ih, List.map_cons, List.foldr_cons]

theorem hasValue_ofMembers {x : Value} (ht : t ∈ ts) (hx : t.HasValue x) :
    (ofMembers ts).HasValue x := by
  match ts with
  | [] => exact absurd ht List.not_mem_nil
  | [_] => exact List.mem_singleton.1 ht ▸ hx
  | _ :: _ :: _ => exact .member ht hx

theorem mem_gathered_of_ne (ht : t ∈ firstOfKinds ts) (hkind : t.kind ≠ .array) :
    t ∈ gathered ts := by
  rw [gathered]
  split_ifs
  · exact List.mem_map.2 ⟨t, ht, withElement_of_ne _ hkind⟩
  · exact ht

/-- A value of one type is a value of one that is gathered, if merging keeps the values of
elements. -/
theorem HasValue.gathered_of_elements {x : Value} (ht : t ∈ ts) (hu : t.kind ≠ .union)
    (helements : 1 < (elements ts).length → ∀ e ∈ elements ts, ∀ y, e.HasValue y →
      (Ty.merge (elements ts)).HasValue y)
    (hx : t.HasValue x) : ∃ k ∈ gathered ts, k.HasValue x := by
  by_cases ha : t.kind = .array
  · obtain ⟨e, length, rfl⟩ := exists_eq_array ha
    have he : e ∈ elements ts := mem_elements.2 ⟨length, ht⟩
    obtain ⟨e', he', hcover⟩ :
        ∃ e' ∈ elements (gathered ts), ∀ y, e.HasValue y → e'.HasValue y := by
      by_cases hlen : 1 < (elements ts).length
      · rw [elements_gathered_of_lt hlen]
        exact ⟨_, List.mem_singleton_self _, helements hlen e he⟩
      · rw [elements_gathered_of_le (Nat.not_lt.1 hlen)]
        exact ⟨e, he, fun _ hy => hy⟩
    obtain ⟨length', hmem⟩ := mem_elements.1 he'
    cases hx with
    | array hitems => exact ⟨_, hmem, .array fun y hy => hcover y (hitems y hy)⟩
  · obtain ⟨k, hk, hkind⟩ := exists_mem_firstOfKinds ht
    exact ⟨k, mem_gathered_of_ne hk (hkind ▸ ha), hx.of_kind hkind ha hu⟩

/-- What flat types merge to has every value that one of them has. -/
theorem HasValue.merge {ts : List Ty} (h : ∀ t ∈ ts, t.Flat) {t : Ty} (ht : t ∈ ts) {x : Value}
    (hx : t.HasValue x) : (merge ts).HasValue x := by
  have hmembers := flat_flatMap_members h
  obtain ⟨m, hm, hx⟩ := hasValue_iff_members.1 hx
  have hmem : m ∈ ts.flatMap members := List.mem_flatMap.2 ⟨t, ht, hm⟩
  obtain ⟨k, hk, hx⟩ := hx.gathered_of_elements hmem (hmembers m hmem).1 fun hlen e he y hy => by
    have hlt := depths_elements_members_lt hlen
    exact HasValue.merge (flat_elements fun t ht => (hmembers t ht).2) he hy
  rw [merge_eq_ofMembers h]
  exact hasValue_ofMembers hk hx
termination_by depths ts
decreasing_by exact hlt

end Covering

/-! ## One member after the other -/

/-- The members `ts`, taken in one after the other by a list that has kept `kept` so far, make it
`result`. A member of a new kind is added at the end. Of a kind that is there it is left out, unless
it is an array: then the one that is there gets the element type that both element types are joined
to when their members are taken in the same way. -/
inductive Gathers : List Ty → List Ty → List Ty → Prop where
  | done (kept : List Ty) : Gathers kept [] kept
  | first {kept ts result : List Ty} {t : Ty} (hkind : ∀ k ∈ kept, k.kind ≠ t.kind)
    (h : Gathers (kept ++ [t]) ts result) : Gathers kept (t :: ts) result
  | again {kept ts result : List Ty} {k t : Ty} (hk : k ∈ kept) (hkind : k.kind = t.kind)
    (ha : t.kind ≠ .array) (h : Gathers kept ts result) : Gathers kept (t :: ts) result
  | array {before after ts result both : List Ty} {a b : Ty} {length length' : Option Expr}
    (hbefore : ∀ k ∈ before, k.kind ≠ .array)
    (hboth : Gathers [] ([a, b].flatMap members) both)
    (h : Gathers (before ++ array (join both) length :: after) ts result) :
    Gathers (before ++ array a length :: after) (array b length' :: ts) result

/-- The type that types are joined to when their members are taken in one after the other. -/
def MergesTo (ts : List Ty) (t : Ty) : Prop :=
  ∃ kept, Gathers [] (ts.flatMap members) kept ∧ t = join kept

section Steps

variable {kept ts : List Ty} {t : Ty}

theorem gathered_concat_first (h : KindsDiffer kept) (hkind : ∀ k ∈ kept, k.kind ≠ t.kind) :
    gathered (kept ++ [t]) = kept ++ [t] := by
  refine gathered_of_kindsDiffer (List.pairwise_append.2 ⟨h, List.pairwise_singleton _ _, ?_⟩)
  intro k hk u hu
  rw [List.mem_singleton.1 hu]
  exact hkind k hk

theorem firstOfKinds_concat_again (h : KindsDiffer kept) {k : Ty} (hk : k ∈ kept)
    (hkind : k.kind = t.kind) : firstOfKinds (kept ++ [t]) = kept := by
  rw [firstOfKinds_concat, firstOfKinds_of_kindsDiffer h, if_pos ⟨k, hk, hkind⟩]

theorem gathered_concat_again (h : KindsDiffer kept) {k : Ty} (hk : k ∈ kept)
    (hkind : k.kind = t.kind) (ha : t.kind ≠ .array) : gathered (kept ++ [t]) = kept := by
  have hlen : ¬ 1 < (elements (kept ++ [t])).length := by
    rw [elements_append, elements_singleton_of_ne ha, List.append_nil]
    exact Nat.not_lt.2 h.length_elements_le
  rw [gathered, if_neg hlen, firstOfKinds_concat_again h hk hkind]

/-- A second array changes the first one in place. -/
theorem gathered_concat_array {before after : List Ty} {a b : Ty} {length length' : Option Expr}
    (h : KindsDiffer (before ++ array a length :: after)) :
    gathered (before ++ array a length :: after ++ [array b length']) =
      before ++ array (merge [a, b]) length :: after := by
  obtain ⟨hbefore, hafter, hne⟩ := List.pairwise_append.1 h
  have hb : elements before = [] :=
    elements_eq_nil.2 fun k hk => hne k hk _ List.mem_cons_self
  have ha : elements after = [] :=
    elements_eq_nil.2 fun k hk => ((List.pairwise_cons.1 hafter).1 k hk).symm
  have helements : elements (before ++ array a length :: after ++ [array b length']) = [a, b] := by
    rw [elements_append, elements_append, elements, hb, ha]
    rfl
  have hself : ∀ {us : List Ty}, elements us = [] → us.map (withElement (merge [a, b])) = us :=
    fun hus => map_withElement_eq_self (by rw [hus]; exact List.forall_mem_nil _)
  have hlen : 1 < [a, b].length := Nat.lt_succ_self 1
  have hfirst : firstOfKinds (before ++ array a length :: after ++ [array b length']) =
      before ++ array a length :: after :=
    firstOfKinds_concat_again h (List.mem_append_right before List.mem_cons_self) rfl
  rw [gathered, helements, if_pos hlen, hfirst, List.map_append, List.map_cons, hself hb, hself ha]
  rfl

/-- The state between two members: what is kept is of different kinds, and all types are flat and no
unions. -/
structure Gathering (kept ts : List Ty) : Prop where
  kinds : KindsDiffer kept
  flat : ∀ t ∈ kept ++ ts, t.kind ≠ .union ∧ t.Flat

namespace Gathering

theorem start (h : ∀ t ∈ ts, t.Flat) : Gathering [] (ts.flatMap members) :=
  ⟨List.Pairwise.nil, flat_flatMap_members h⟩

/-- Each member leads to the next state. All that is to be gathered stays the same, and so does the
depth. -/
theorem step (h : Gathering kept (t :: ts)) :
    Gathering (gathered (kept ++ [t])) ts ∧
      gathered (gathered (kept ++ [t]) ++ ts) = gathered (kept ++ t :: ts) ∧
      depths (gathered (kept ++ [t]) ++ ts) = depths (kept ++ t :: ts) := by
  have hall := h.flat
  rw [List.append_cons kept t ts] at hall ⊢
  obtain ⟨hkept, hts⟩ := List.forall_mem_append.1 hall
  obtain ⟨hkinds, hflat⟩ := gathered_spec hkept
  refine ⟨⟨hkinds, List.forall_mem_append.2 ⟨hflat, hts⟩⟩,
    gathered_append fun u hu => (hall u hu).2, ?_⟩
  rw [depths_append, depths_append, depths_gathered hkept]

variable {a b : Ty} {length length' : Option Expr}

/-- The element types of two arrays are merged in the same way. -/
theorem elements (h : Gathering kept ts) (ha : array a length ∈ kept) (hb : array b length' ∈ ts) :
    Gathering [] ([a, b].flatMap members) := by
  have haflat : a.Flat := (h.flat _ (List.mem_append_left _ ha)).2
  have hbflat : b.Flat := (h.flat _ (List.mem_append_right _ hb)).2
  exact .start (List.forall_mem_cons.2 ⟨haflat, List.forall_mem_singleton.2 hbflat⟩)

/-- Two arrays are less deep inside than all types together. -/
theorem depths_elements_lt (ha : array a length ∈ kept) (hb : array b length' ∈ ts) :
    depths ([] ++ [a, b].flatMap members) < depths (kept ++ ts) := by
  have hale : a.depth + 1 ≤ depths kept := depth_le_depths ha
  have hble : b.depth + 1 ≤ depths ts := depth_le_depths hb
  rw [List.nil_append, depths_flatMap_members, depths_append]
  simp only [depths]
  omega

end Gathering

/-- Taking members in ends with what is gathered of all of them. -/
theorem Gathers.eq_gathered {result : List Ty} (hrun : Gathers kept ts result)
    (h : Gathering kept ts) : result = gathered (kept ++ ts) := by
  induction hrun with
  | done kept => rw [List.append_nil, gathered_of_kindsDiffer h.kinds]
  | first hkind _ ih =>
    obtain ⟨hnext, hsame, -⟩ := h.step
    rw [gathered_concat_first h.kinds hkind] at hnext hsame
    rw [ih hnext, hsame]
  | again hk hkind ha _ ih =>
    obtain ⟨hnext, hsame, -⟩ := h.step
    rw [gathered_concat_again h.kinds hk hkind ha] at hnext hsame
    rw [ih hnext, hsame]
  | @array before after ts result both a b length length' _ _ _ ihboth ih =>
    obtain ⟨hnext, hsame, -⟩ := h.step
    rw [gathered_concat_array h.kinds] at hnext hsame
    have hboth := ihboth
      (h.elements (List.mem_append_right before List.mem_cons_self) List.mem_cons_self)
    rw [hboth, List.nil_append, ← merge_eq_join_gathered] at ih
    rw [ih hnext, hsame]

/-- Taking members in comes to an end. -/
theorem Gathering.gathers {kept ts : List Ty} (h : Gathering kept ts) :
    Gathers kept ts (gathered (kept ++ ts)) := by
  match ts with
  | [] =>
    rw [List.append_nil, gathered_of_kindsDiffer h.kinds]
    exact .done kept
  | t :: ts =>
    obtain ⟨hnext, hsame, hdepth⟩ := h.step
    have hrest := hnext.gathers
    rw [hsame] at hrest
    by_cases hknown : ∃ k ∈ kept, k.kind = t.kind
    · obtain ⟨k, hk, hkind⟩ := hknown
      by_cases ha : t.kind = .array
      · obtain ⟨a, length, rfl⟩ := exists_eq_array (hkind.trans ha)
        obtain ⟨b, length', hb⟩ := exists_eq_array ha
        have hmem : array b length' ∈ t :: ts := hb ▸ List.mem_cons_self
        have hlt := Gathering.depths_elements_lt hk hmem
        have hboth := (h.elements hk hmem).gathers
        subst hb
        obtain ⟨before, after, rfl⟩ := List.append_of_mem hk
        rw [gathered_concat_array h.kinds, merge_eq_join_gathered] at hrest
        exact .array (fun k hk => (List.pairwise_append.1 h.kinds).2.2 k hk _ List.mem_cons_self)
          hboth hrest
      · rw [gathered_concat_again h.kinds hk hkind ha] at hrest
        exact .again hk hkind ha hrest
    · push Not at hknown
      rw [gathered_concat_first h.kinds hknown] at hrest
      exact .first hknown hrest
termination_by (depths (kept ++ ts), ts.length)
decreasing_by
  · rw [hdepth]
    exact Prod.Lex.right _ (Nat.lt_succ_self _)
  · exact Prod.Lex.left _ _ hlt

/-- Types are merged one member after the other, in finitely many steps and to the same type. -/
theorem mergesTo_iff (h : ∀ t ∈ ts, t.Flat) : MergesTo ts t ↔ t = merge ts := by
  rw [merge_eq_join_gathered]
  constructor
  · rintro ⟨kept, hkept, rfl⟩
    rw [hkept.eq_gathered (.start h), List.nil_append]
  · rintro rfl
    exact ⟨_, (Gathering.start h).gathers, rfl⟩

end Steps

end Ty

/-! ## Arrays that are written out -/

namespace Expr

mutual

/-- A value that the expression may have for all that its check finds: an array that is written out
has such values of its items, and any expression may have each value of its type. -/
inductive MayBe : Checking → Expr → Value → Prop where
  | value {s s' : Checking} {e : Expr} {t : Ty} {x : Value} (hc : e.check.run s = .ok t s')
    (hx : t.HasValue x) : MayBe s e x
  | array {s : Checking} {items : List Expr} {range : Range} {xs : List Value}
    (h : ItemsMayBe s items xs) : MayBe s (array items range) (.list xs)

/-- Values that the expressions of a list may have, each checked after those before it. -/
inductive ItemsMayBe : Checking → List Expr → List Value → Prop where
  | nil (s : Checking) : ItemsMayBe s [] []
  | cons {s s' : Checking} {e : Expr} {es : List Expr} {t : Ty} {x : Value} {xs : List Value}
    (hx : MayBe s e x) (hc : e.check.run s = .ok t s') (h : ItemsMayBe s' es xs) :
    ItemsMayBe s (e :: es) (x :: xs)

end

mutual

/-- The type of an expression has all its values, those of the items at any depth of an array
included. -/
theorem MayBe.hasValue {s s' : Checking} {e : Expr} {x : Value} {t : Ty}
    (hs : s.environment.WellTyped) : MayBe s e x → e.check.run s = .ok t s' → t.HasValue x
  | .value hc' hx, hc => by
    rw [hc'] at hc
    cases hc
    exact hx
  | .array h, hc => by
    obtain ⟨ts, hitems, rfl⟩ := check_array_eq_ok.1 hc
    refine .array fun y hy => ?_
    obtain ⟨t, ht, hy⟩ := h.exists_hasValue hs hitems y hy
    exact hy.merge (fun t ht => (wellFormed_of_checkAll hs hitems t ht).flat) ht

theorem ItemsMayBe.exists_hasValue {s s' : Checking} {es : List Expr} {xs : List Value}
    {ts : List Ty} (hs : s.environment.WellTyped) : ItemsMayBe s es xs →
    (checkAll es).run s = .ok ts s' → ∀ x ∈ xs, ∃ t ∈ ts, t.HasValue x
  | .nil _, _ => List.forall_mem_nil _
  | @ItemsMayBe.cons _ s₁ _ _ t _ _ hx he h, hc => by
    obtain ⟨_, _, ts, he', hes, rfl⟩ := checkAll_cons_eq_ok.1 hc
    rw [he] at he'
    cases he'
    have hs₁ : s₁.environment.WellTyped := by
      rw [environment_check he]
      exact hs.markAll _
    refine List.forall_mem_cons.2 ⟨⟨t, List.mem_cons_self, hx.hasValue hs he⟩, fun y hy => ?_⟩
    obtain ⟨u, hu, hy⟩ := h.exists_hasValue hs₁ hes y hy
    exact ⟨u, List.mem_cons_of_mem _ hu, hy⟩

end

end Expr

namespace Ty

/-- Well-formed types are merged, one member after the other and in finitely many steps, to a
well-formed one with members of different kinds. It is nested as deeply as the deepest of them and
has each value of each of them, so that the elements of an array that is written out have a type
with all values that its items may have, at any depth. -/
theorem merge_covers (ms : List Ty) (h : ∀ m ∈ ms, m.WellFormed) :
    (∀ t, MergesTo ms t ↔ t = merge ms) ∧
    (merge ms).WellFormed ∧ KindsDiffer (merge ms).members ∧
    (merge ms).depth = (ms.map depth).foldr max 0 ∧
    (∀ m ∈ ms, ∀ x, m.HasValue x → (merge ms).HasValue x) ∧
    ∀ (items : List Expr) (range : Range) (s s' : Checking) (t : Ty),
      s.environment.WellTyped → (Expr.array items range).check.run s = .ok t s' →
      ∃ element, t = array element none ∧
        ∀ xs, Expr.ItemsMayBe s items xs → ∀ x ∈ xs, element.HasValue x := by
  have hflat : ∀ m ∈ ms, m.Flat := fun m hm => (h m hm).flat
  refine ⟨fun t => mergesTo_iff hflat, .merge h, ?_, ?_, fun m hm x hx => hx.merge hflat hm, ?_⟩
  · rw [members_merge hflat]
    exact (gathered_spec (flat_flatMap_members hflat)).1
  · rw [depth_merge hflat, depths_eq_foldr]
  · intro items range s s' t hs hc
    obtain ⟨ts, -, rfl⟩ := Expr.check_array_eq_ok.1 hc
    refine ⟨merge ts, rfl, fun xs hxs => ?_⟩
    cases (Expr.MayBe.array hxs).hasValue hs hc with
    | array hitems => exact hitems

/-- Types with arrays in them merge to an array and an integer. Among the items of an array there is
an integer two arrays deep, and a string one array deep. -/
theorem merge_covers_nested :
    let ms : List Ty := [array (integer .u1) none, integer .i32,
      array (union [string, array (integer .i8) none]) none]
    let r : Range := ⟨1, 0, 1⟩
    let numbers : Expr := .array [.array [.literal (.integer 1) r] r] r
    let words : Expr := .array [.literal (.string "a") r] r
    let x : Value := .list [.list [.integer 7]]
    (∀ m ∈ ms, m.WellFormed) ∧ merge ms = union [array
        (union [integer .u1, string, array (integer .i8) none]) none, integer .i32] ∧
      (merge ms).depth = 2 ∧ (merge ms).HasValue x ∧
      Expr.ItemsMayBe {} [numbers, words] [x, .list [.string "b"]] ∧
      ∃ element s', (Expr.array [numbers, words] r).check.run {} = .ok (array element none) s' ∧
        element.HasValue x := by
  intro ms r numbers words x
  have hms : ∀ m ∈ ms, m.WellFormed := by
    have hdiffer : string.Differ (array (integer .i8) none) := .of_kind_ne nofun
    simp [ms, WellFormed, AreWellFormed, kind, Scalar.kind, hdiffer]
  obtain ⟨-, -, -, hdepth, hcover, hitems⟩ := merge_covers ms hms
  have hx : (array (union [string, array (integer .i8) none]) none).HasValue x := by
    refine .array (List.forall_mem_singleton.2 (.member (t := array (integer .i8) none) ?_ ?_))
    · exact List.mem_cons_of_mem _ List.mem_cons_self
    · exact .array (List.forall_mem_singleton.2 (.integer .i8 7))
  have hone : (Expr.literal (.integer 1) r).check.run {} = .ok (integer .u1) {} := by decide +kernel
  have hinner : (Expr.array [.literal (.integer 1) r] r).check.run {} =
      .ok (array (integer .u1) none) {} := by decide +kernel
  have hnumbers : numbers.check.run {} = .ok (array (array (integer .u1) none) none) {} := by
    decide +kernel
  have hwords : words.check.run {} = .ok (array string none) {} := by decide +kernel
  have hall : (Expr.array [numbers, words] r).check.run {} =
      .ok (array (array (union [array (integer .u1) none, string]) none) none) {} := by
    decide +kernel
  have hmay : Expr.ItemsMayBe {} [numbers, words] [x, .list [.string "b"]] := by
    refine .cons (.array (.cons (.array (.cons ?_ hone (.nil _))) hinner (.nil _))) hnumbers
      (.cons ?_ hwords (.nil _))
    · exact .value hone (.integer .u1 7)
    · exact .value hwords (.array (List.forall_mem_singleton.2 (.string "b")))
  obtain ⟨element, helement, hcovered⟩ := hitems _ r {} _ _ .empty hall
  refine ⟨hms, by decide +kernel, hdepth, hcover _ ?_ x hx, hmay, element, {}, ?_, ?_⟩
  · exact List.mem_cons_of_mem _ (List.mem_cons_of_mem _ List.mem_cons_self)
  · rw [hall, helement]
  · exact hcovered _ hmay x List.mem_cons_self

end Ty

end StackCompiler
