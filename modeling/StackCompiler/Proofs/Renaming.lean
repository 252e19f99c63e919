import Mathlib.Logic.Equiv.Basic
import StackCompiler.Code.Bytecode
import StackCompiler.Proofs.Lowered
import StackCompiler.Proofs.Translation

/-!
# Programs with other names

A renaming gives every name another one, different names different ones, also in the lengths of
array types. The renamed program is checked as the program is (`Translation.faithful_ofNames`), and
lowered to the same bytes: slots are numbered in the order in which names come, whatever the names
are, so that the slot table of the renamed program is the renamed table
(`Translation.program_lower_renames`).
-/

namespace StackCompiler

section Slots

/-- The same slots for other names. -/
def SlotTable.rename (ρ : String → String) (table : SlotTable) : SlotTable :=
  ⟨.ofList (table.slots.toList.map fun p => (ρ p.1, p.2)) compare⟩

/-- The tables have the same slots for the same names. -/
def SlotTable.Same (table table' : SlotTable) : Prop :=
  table.slots.Equiv table'.slots

namespace SlotTable

theorem Same.get?_eq {table table' : SlotTable} (h : table.Same table') (x : String) :
    table.get? x = table'.get? x :=
  Std.TreeMap.Equiv.getElem?_eq h

theorem Same.size_eq {table table' : SlotTable} (h : table.Same table') :
    table.size = table'.size :=
  Std.TreeMap.Equiv.size_eq h

theorem Same.of_get?_eq {table table' : SlotTable} (h : ∀ x, table.get? x = table'.get? x) :
    table.Same table' :=
  .of_forall_constGet?_eq h

theorem Same.insert {table table' : SlotTable} (h : table.Same table') (x : String) (slot : Slot) :
    Same ⟨table.slots.insert x slot⟩ ⟨table'.slots.insert x slot⟩ :=
  Std.TreeMap.Equiv.insert h x slot

variable {ρ : String → String}

/-- Names that no name is renamed to have no slot. -/
theorem get?_rename_of_forall_ne (table : SlotTable) {y : String} (hy : ∀ x, ρ x ≠ y) :
    (table.rename ρ).get? y = none := by
  refine Std.TreeMap.getElem?_ofList_of_contains_eq_false ?_
  rw [← Bool.not_eq_true, List.contains_iff_mem, List.map_map]
  intro hmem
  obtain ⟨p, _, hp⟩ := List.mem_map.1 hmem
  exact hy p.1 hp

variable (hρ : Function.Injective ρ)
include hρ

theorem pairwise_rename (table : SlotTable) :
    (table.slots.toList.map fun p => (ρ p.1, p.2)).Pairwise
      fun a b => ¬ compare a.1 b.1 = .eq := by
  refine List.pairwise_map.2 (Std.TreeMap.distinct_keys_toList.imp fun {a b} hne heq => hne ?_)
  rw [Std.compare_eq_iff_eq] at heq ⊢
  exact hρ heq

/-- A renamed name has the slot of the name. -/
theorem get?_rename (table : SlotTable) (x : String) :
    (table.rename ρ).get? (ρ x) = table.get? x := by
  cases hx : table.get? x with
  | some slot =>
    have hmem : (x, slot) ∈ table.slots.toList := Std.TreeMap.mem_toList_iff_getElem?_eq_some.2 hx
    exact Std.TreeMap.getElem?_ofList_of_mem Std.ReflCmp.compare_self (pairwise_rename hρ table)
      (List.mem_map.2 ⟨(x, slot), hmem, rfl⟩)
  | none =>
    refine Std.TreeMap.getElem?_ofList_of_contains_eq_false ?_
    rw [← Bool.not_eq_true, List.contains_iff_mem, List.map_map]
    intro hmem
    obtain ⟨p, hp, heq⟩ := List.mem_map.1 hmem
    have hsome : table.get? p.1 = some p.2 := Std.TreeMap.mem_toList_iff_getElem?_eq_some.1 hp
    rw [hρ heq, hx] at hsome
    cases hsome

theorem size_rename (table : SlotTable) : (table.rename ρ).size = table.size := by
  rw [size, rename, Std.TreeMap.size_ofList (pairwise_rename hρ table), List.length_map,
    Std.TreeMap.length_toList]
  rfl

/-- A slot for one more name, before and after the renaming. -/
theorem rename_insert (table : SlotTable) (x : String) (slot : Slot) :
    Same ⟨(table.rename ρ).slots.insert (ρ x) slot⟩
      (rename ρ ⟨table.slots.insert x slot⟩) := by
  refine .of_get?_eq fun y => ?_
  rw [get?_insert]
  by_cases hy : ∃ z, ρ z = y
  · obtain ⟨z, rfl⟩ := hy
    simp only [get?_rename hρ, get?_insert, hρ.eq_iff]
  · have hne : ∀ z, ρ z ≠ y := fun z hz => hy ⟨z, hz⟩
    rw [if_neg (hne x).symm, get?_rename_of_forall_ne _ hne, get?_rename_of_forall_ne _ hne]

end SlotTable

end Slots

/-- The defect with the other name. -/
def Defect.rename (ρ : String → String) : Defect → Defect
  | missingSlot id => missingSlot (id.rename ρ)
  | defect => defect

namespace Lower

variable {ρ : String → String} {α : Type} {P : α → α → Prop}

/-- The same pool, and the slots before and after the renaming. -/
structure Renamed (ρ : String → String) (st st' : Lowering) : Prop where
  pool_eq : st'.pool = st.pool
  slots : st'.slots.Same (st.slots.rename ρ)

/-- The steps run side by side, before and after the renaming. -/
abbrev Renames (ρ : String → String) (P : α → α → Prop) (x x' : Lower α) : Prop :=
  Simulates (fun defect defect' => defect' = defect.rename ρ) (Renamed ρ) P x x'

theorem Renames.throw {defect : Defect} (h : defect.rename ρ = defect) :
    Renames ρ P (throw defect) (throw defect) :=
  Simulates.throw h.symm

theorem intern_renames (d : Datum) : Renames ρ Eq (intern d) (intern d) := by
  rintro ⟨slots, _⟩ ⟨slots', pool⟩ ⟨rfl, hslots⟩
  dsimp only [EStateM.run, intern, ConstantPool.intern]
  cases pool.entries.find? (·.toDatum = d) with
  | some _ => exact .ok rfl ⟨rfl, hslots⟩
  | none =>
    dsimp only
    split_ifs
    · exact .ok rfl ⟨rfl, hslots⟩
    · exact .error rfl ⟨rfl, hslots⟩

variable (hρ : Function.Injective ρ)
include hρ

theorem slot_renames (id : Ident) : Renames ρ Eq (slot id) (slot (id.rename ρ)) := by
  intro st st' h
  have hget : st'.slots.get? (ρ id.name) = st.slots.get? id.name := by
    rw [h.slots.get?_eq, SlotTable.get?_rename hρ]
  rw [slot, slot, EStateM.run_bind, EStateM.run_bind, EStateM.run_get, EStateM.run_get]
  dsimp only [Ident.rename]
  rw [hget]
  cases st.slots.get? id.name with
  | none => exact .error rfl h
  | some s => exact .ok rfl h

theorem allocate_renames (storage : Storage) (id : Ident) :
    Renames ρ Eq (allocate storage id) (allocate storage (id.rename ρ)) := by
  rintro ⟨slots, _⟩ ⟨slots', pool⟩ ⟨rfl, hslots⟩
  have hget : slots'.get? (ρ id.name) = slots.get? id.name := by
    rw [hslots.get?_eq, SlotTable.get?_rename hρ]
  have hsize : slots'.size = slots.size := by
    rw [hslots.size_eq, SlotTable.size_rename hρ]
  dsimp only [EStateM.run, allocate, SlotTable.allocate, Ident.rename]
  rw [hget, hsize]
  cases slots.get? id.name with
  | some s => exact .ok rfl ⟨rfl, hslots⟩
  | none =>
    dsimp only
    split_ifs
    · refine .ok rfl ⟨rfl, (hslots.insert _ _).trans ?_⟩
      exact SlotTable.rename_insert hρ slots id.name _
    · exact .error rfl ⟨rfl, hslots⟩

end Lower

/-- The instructions have the same bytes one by one. -/
def SameBytes (code code' : List Instruction) : Prop :=
  code'.map Instruction.encode = code.map Instruction.encode

namespace SameBytes

variable {a a' b b' : List Instruction}

theorem refl (code : List Instruction) : SameBytes code code :=
  rfl

theorem append (ha : SameBytes a a') (hb : SameBytes b b') : SameBytes (a ++ b) (a' ++ b') := by
  rw [SameBytes, List.map_append, List.map_append, ha, hb]

theorem encode_eq {pool pool' : ConstantPool} (h : SameBytes a a') :
    (Bytecode.mk pool' a').encode = (Bytecode.mk pool a).encode := by
  rw [Bytecode.encode, Bytecode.encode, List.flatMap_def, List.flatMap_def]
  exact congrArg List.flatten h

theorem load (slot : Slot) (x y : String) : SameBytes [slot.load x] [slot.load y] :=
  rfl

theorem store (slot : Slot) (x y : String) : SameBytes [slot.store x] [slot.store y] :=
  rfl

theorem copies (ρ : String → String) (first : String × Slot) (others : List (String × Slot)) :
    SameBytes (copies first others) (StackCompiler.copies (Prod.map ρ id first)
      (others.map (Prod.map ρ id))) := by
  induction others with
  | nil => rfl
  | cons other others ih =>
    exact ((load first.2 _ _).append (store other.2 _ _)).append ih

end SameBytes

section Lowering

variable {ρ : String → String} (mode : ConstantMode)

theorem Literal.lower_renames (value : Literal) :
    Lower.Renames ρ Eq (value.lower mode) (value.lower mode) := by
  have hconstant : ∀ comment (d : Datum),
      Lower.Renames ρ Eq (d.lower mode comment) (d.lower mode comment) := by
    intro comment d
    cases mode with
    | inline => exact .pure rfl
    | pooled =>
      refine .bind (Lower.intern_renames d) fun index _ hindex => ?_
      rw [hindex]
      exact .pure rfl
  cases value with
  | integer _ | char _ | null => exact .pure rfl
  | float _ | string _ => exact hconstant _ _

end Lowering

mutual

/-- An expression is lowered to the same bytes whatever its names are. -/
theorem Expr.lower_renames {ρ : String → String} (hρ : Function.Injective ρ) (mode : ConstantMode) :
    (e : Expr) → Lower.Renames ρ SameBytes (e.lower mode) ((e.rename ρ).lower mode)
  | literal value _ => by
    rw [rename, lower]
    refine .bind (value.lower_renames mode) fun i i' hi => ?_
    rw [hi]
    exact .pure (.refl _)
  | ident id => by
    rw [rename, lower, lower]
    refine .bind (Lower.slot_renames hρ id) fun slot slot' hslot => ?_
    rw [hslot]
    exact .pure (.load _ _ _)
  | binary op l r _ => by
    rw [rename, lower, lower]
    exact .bind (lower_renames hρ mode l) fun _ _ hl =>
      .bind (lower_renames hρ mode r) fun _ _ hr => .pure ((hl.append hr).append (.refl _))
  | unary op e _ => by
    rw [rename, lower, lower]
    exact .bind (lower_renames hρ mode e) fun _ _ he =>
      .pure (((SameBytes.refl _).append he).append (.refl _))
  | update op leading target _ => by
    rw [rename, lower, lower]
    refine .bind (Lower.slot_renames hρ target) fun slot slot' hslot => ?_
    rw [hslot]
    exact .pure rfl
  | assign op target value _ => by
    rw [rename, lower, lower]
    refine .bind (Lower.slot_renames hρ target) fun slot slot' hslot =>
      .bind (lower_renames hρ mode value) fun code code' hcode => ?_
    rw [hslot]
    cases op with
    | plain => exact .pure (hcode.append (.store _ _ _))
    | compound op =>
      exact .pure (((SameBytes.load slot' _ _).append hcode).append
        ((SameBytes.refl [⟨.binary op, [], none⟩]).append (.store _ _ _)))
  | sequence items _ => by
    rw [rename, lower, lower]
    exact lowerAll_renames hρ mode items
  | array items _ => by
    rw [rename, lower, lower, length_renameAll]
    split_ifs
    · exact .bind (lowerAll_renames hρ mode items) fun _ _ hcode =>
        .pure ((SameBytes.refl [⟨.loadArraySize, Bytes.ofNat 4 items.length, none⟩]).append hcode)
    · exact .throw rfl
  | index base position _ => by
    rw [rename, lower, lower]
    exact .bind (lower_renames hρ mode base) fun _ _ hb =>
      .bind (lower_renames hρ mode position) fun _ _ hp => .pure ((hb.append hp).append (.refl _))

theorem Expr.lowerAll_renames {ρ : String → String} (hρ : Function.Injective ρ)
    (mode : ConstantMode) : (es : List Expr) →
    Lower.Renames ρ SameBytes (lowerAll mode es) (lowerAll mode (renameAll ρ es))
  | [] => .pure (.refl _)
  | e :: es => by
    rw [renameAll, lowerAll, lowerAll]
    exact .bind (lower_renames hρ mode e) fun _ _ he => .bind (lowerAll_renames hρ mode es)
      fun _ _ hes => .pure (he.append hes)

end

namespace Translation

/-- Other names for names, also in the lengths of array types. -/
def ofNames (ρ : String → String) : Translation where
  name := ρ
  ty := Ty.mapLengths (Expr.rename ρ)

variable {ρ : String → String} (hρ : Function.Injective ρ)
include hρ

/-- No types become equal: their names can be given back. -/
theorem keepsEquality_ofNames : Ty.KeepsEquality (ofNames ρ).ty := by
  refine Ty.keepsEquality_mapLengths (g := Expr.rename (Function.invFun ρ)) Expr.Equals.rename
    Expr.Equals.rename ?_
  funext e
  rw [Expr.rename_rename, Function.invFun_comp hρ, Expr.rename_id, id]

theorem faithful_ofNames : (ofNames ρ).Faithful where
  name_injective := hρ
  pointwise := Ty.pointwise_mapLengths _
  integer _ := rfl
  double := rfl

theorem declaration_lower_renames (mode : ConstantMode) (d : Declaration) :
    Lower.Renames ρ SameBytes (d.lower mode) (((ofNames ρ).declaration d).lower mode) := by
  obtain ⟨isMutable, ty, names, initializer, range⟩ := d
  have hnames : (names.map (Ident.rename ρ)).map Ident.name = (names.map Ident.name).map ρ := by
    rw [List.map_map, List.map_map]
    rfl
  have hstorage : Storage.ofTy ((ofNames ρ).ty ty) = .ofTy ty := by
    cases ty <;> rfl
  rw [Declaration.lower, Declaration.lower]
  dsimp only [declaration]
  rw [hstorage]
  refine .bind (.mapM_map _ names (Lower.allocate_renames hρ _)) fun slots slots' hslots => ?_
  rw [← hslots]
  cases initializer with
  | none => exact .pure (.refl _)
  | some e =>
    have hzip : ((names.map (Ident.rename ρ)).map Ident.name).zip slots =
        ((names.map Ident.name).zip slots).map (Prod.map ρ id) := by
      rw [hnames, List.zip_map_left]
    dsimp only [ofNames]
    rw [hzip]
    cases (names.map Ident.name).zip slots with
    | nil => exact .pure (.refl _)
    | cons first others =>
      refine .bind (Expr.lower_renames hρ mode e) fun _ _ he => .pure ?_
      exact he.append ((SameBytes.store first.2 _ _).append (.copies ρ first others))

/-- A program is lowered to the same bytes whatever its names are. -/
theorem program_lower_renames (mode : ConstantMode) (p : Program) :
    Lower.Renames ρ SameBytes (p.lower mode) (((ofNames ρ).program p).lower mode) := by
  induction p with
  | nil => exact .pure (.refl _)
  | cons stmt p ih =>
    have hstmt : Lower.Renames ρ SameBytes (stmt.lower mode)
        (((ofNames ρ).statement stmt).lower mode) := by
      cases stmt with
      | expression e => exact Expr.lower_renames hρ mode e
      | declaration d => exact declaration_lower_renames hρ mode d
    rw [program, List.map_cons, Program.lower, Program.lower]
    exact .bind hstmt fun _ _ hcode => .bind ih fun _ _ hmore => .pure (hcode.append hmore)

end Translation

/-- What generating code ends with, before and after the renaming: the same bytes and constants, or
the renamed defect, and the renamed slots. -/
inductive Program.Generated (ρ : String → String) :
    Except Defect Bytecode × SlotTable → Except Defect Bytecode × SlotTable → Prop where
  | ok {b b' : Bytecode} {slots slots' : SlotTable} (hbytes : b'.encode = b.encode)
    (hconstants : b'.constants = b.constants) (hslots : slots'.Same (slots.rename ρ)) :
    Generated ρ (.ok b, slots) (.ok b', slots')
  | error {defect : Defect} {slots slots' : SlotTable} (hslots : slots'.Same (slots.rename ρ)) :
    Generated ρ (.error defect, slots) (.error (defect.rename ρ), slots')

/-- Names do not matter: the renamed program, checked in the renamed environment, ends as the
program does, with the same warnings, a complaint at the same place with the renamed reason, and the
renamed environment. From the renamed slot table it generates the same bytes and constants and the
renamed slots, or the renamed defect. -/
theorem Program.check_and_generate_of_renamed {ρ : String → String} (hρ : Function.Injective ρ)
    (p : Program) (s : Checking) (mode : ConstantMode) (slots : SlotTable) :
    ((Translation.ofNames ρ).program p).check.run ((Translation.ofNames ρ).checking s) =
        (Translation.ofNames ρ).ended (p.check.run s) ∧
      Program.Generated ρ (Program.generate mode p slots)
        (Program.generate mode ((Translation.ofNames ρ).program p) (slots.rename ρ)) := by
  have hfits : ∀ t, (Translation.ofNames ρ).Fits t :=
    fun _ => .inl (Translation.keepsEquality_ofNames hρ)
  constructor
  · exact (Translation.faithful_ofNames hρ).run_check_program (fun _ _ => hfits _) s
      fun _ _ _ => hfits _
  · have hresults := Translation.program_lower_renames hρ mode p ⟨slots, {}⟩ ⟨slots.rename ρ, {}⟩
      ⟨rfl, .rfl⟩
    dsimp only [Program.generate, Assembly.generate]
    generalize (p.lower mode).run ⟨slots, {}⟩ = r at hresults ⊢
    generalize (((Translation.ofNames ρ).program p).lower mode).run ⟨slots.rename ρ, {}⟩ = r'
      at hresults ⊢
    cases hresults with
    | ok hcode hst => exact .ok hcode.encode_eq hst.pool_eq hst.slots
    | error hdefect hst =>
      rw [hdefect]
      exact .error hst.slots

/-- Two names exchanged, one of which stands in the length of an array: the array is then bound to
the other name, and its length names the first one. -/
theorem Program.check_and_generate_of_renamed_swap :
    Function.Injective (Equiv.swap "a" "b") ∧
      let p : Program :=
        [.declaration ⟨false, .integer .i32, [⟨"b", ⟨1, 6, 7⟩⟩],
          some (.literal (.integer 2) ⟨1, 15, 16⟩), ⟨1, 0, 17⟩⟩,
         .declaration ⟨true, .array (.integer .i32) (some (.ident ⟨"b", ⟨2, 11, 12⟩⟩)),
          [⟨"a", ⟨2, 4, 5⟩⟩], none, ⟨2, 0, 14⟩⟩]
      let p' := (Translation.ofNames (Equiv.swap "a" "b")).program p
      (∃ s, p'.check.run {} = .ok () s ∧ s.environment.get? "b" =
        some ⟨.array (.integer .i32) (some (.ident ⟨"a", ⟨2, 11, 12⟩⟩)), true, false⟩) ∧
      Program.Generated (Equiv.swap "a" "b") (Program.generate .inline p {})
        (Program.generate .inline p' (SlotTable.rename (Equiv.swap "a" "b") {})) := by
  have hinjective := (Equiv.swap "a" "b").injective
  refine ⟨hinjective, ?_⟩
  intro p p'
  obtain ⟨hcheck, hgenerated⟩ :=
    Program.check_and_generate_of_renamed hinjective p {} .inline {}
  have hp : p.check.run {} = .ok () ⟨⟨⟨[
      ("a", ⟨.array (.integer .i32) (some (.ident ⟨"b", ⟨2, 11, 12⟩⟩)), true, false⟩),
      ("b", ⟨.integer .i32, false, true⟩)], []⟩, []⟩, []⟩ := by
    decide +kernel
  rw [hp] at hcheck
  refine ⟨⟨_, hcheck, ?_⟩, hgenerated⟩
  decide +kernel

end StackCompiler
