import Mathlib.Data.List.Basic
import Mathlib.Data.List.Induction
import Mathlib.Data.Nat.Basic
import Mathlib.Order.Basic
import StackCompiler.Code.Bytecode

/-!
# Jumps in an assembly

Jumps are written before it is known where they lead, by calls that add a jump or let an earlier one
lead to the next instruction (`Assembly.run`). After any calls the assembly holds the jumps that
were added (`Assembly.holds_run`), and each of them leads where its last patch says
(`Assembly.leads_run`), whatever came in between; a call that fails leaves the assembly as it was
(`Assembly.perform_of_error`). The instructions of a program that is then added are the same as
without the jumps (`Assembly.generate_run`).
-/

namespace StackCompiler

/-- A natural number is written like the integer. -/
theorem Bytes.ofInt_natCast {width n : Nat} (h : n < 1 <<< (8 * width)) :
    ofInt width n = ofNat width n := by
  rw [ofInt, Int.emod_eq_of_lt (Int.natCast_nonneg n) (Int.ofNat_lt.2 h), Int.toNat_natCast]

/-- A list with one more item, cut in two at an item: this is the last one or comes before it. -/
theorem concat_eq_append_cons {α : Type} {l before rest : List α} {c x : α} :
    l ++ [c] = before ++ x :: rest ↔
      (l = before ∧ c = x ∧ rest = []) ∨
        ∃ rest', rest = rest' ++ [c] ∧ l = before ++ x :: rest' := by
  constructor
  · intro h
    rcases List.eq_nil_or_concat' rest with rfl | ⟨rest', c', rfl⟩
    · obtain ⟨hl, hc⟩ := List.append_inj' h rfl
      exact .inl ⟨hl, List.singleton_inj.1 hc, rfl⟩
    · rw [← List.cons_append, ← List.append_assoc] at h
      obtain ⟨hl, hc⟩ := List.append_inj' h rfl
      exact .inr ⟨rest', by rw [hc], hl⟩
  · rintro (⟨rfl, rfl, rfl⟩ | ⟨rest', rfl, rfl⟩)
    · rfl
    · rw [List.append_assoc, List.cons_append]

namespace Assembly

/-- Calls that write jumps. -/
inductive Call where
  | emit (op : Opcode)
  | patch (site : Nat)
deriving DecidableEq

/-- Whether a call fails, and the assembly after it. -/
def perform (a : Assembly) : Call → Except Defect Unit × Assembly
  | .emit op => ((a.emitJump op).1.map fun _ => (), (a.emitJump op).2)
  | .patch site => a.patchJump site

/-- The assembly after calls, whether they fail or not. -/
def run (a : Assembly) (calls : List Call) : Assembly :=
  calls.foldl (fun a c => (a.perform c).2) a

/-- An assembly without instructions, for a slot table. -/
def fresh (slots : SlotTable) : Assembly :=
  { lowering.slots := slots }

/-- The jumps that calls add, in order. -/
def jumps (calls : List Call) : List Opcode :=
  calls.filterMap fun
    | .emit op => if op.isJump then some op else none
    | .patch _ => none

/-- A call fails if it adds no jump, or patches none of the `count` jumps that there are. -/
def Call.Fails (count : Nat) : Call → Prop
  | .emit op => op.isJump = false
  | .patch site => count ≤ site

/-- When the last patch of the site that does not fail is made, there are `count` instructions. -/
def LastPatch (a : Assembly) (calls : List Call) (site count : Nat) : Prop :=
  ∃ before rest, calls = before ++ .patch site :: rest ∧
    ((a.run before).patchJump site).1 = .ok () ∧ (a.run before).code.length = count ∧
    ∀ before' rest', rest = before' ++ .patch site :: rest' →
      ∃ defect, ((a.run (before ++ .patch site :: before')).patchJump site).1 = .error defect

variable {a : Assembly} {c : Call} {calls : List Call} {op : Opcode} {site count : Nat}

theorem run_concat (a : Assembly) (calls : List Call) (c : Call) :
    a.run (calls ++ [c]) = ((a.run calls).perform c).2 := by
  rw [run, List.foldl_concat]
  rfl

theorem jumps_append (calls calls' : List Call) :
    jumps (calls ++ calls') = jumps calls ++ jumps calls' :=
  List.filterMap_append

/-! ## One call -/

/-- A call that fails changes nothing. -/
theorem perform_of_error {defect : Defect} (h : (a.perform c).1 = .error defect) :
    (a.perform c).2 = a := by
  cases c with
  | emit op =>
    rw [perform, emitJump] at h ⊢
    split at h
    · cases h
    · rename_i hop
      rw [if_neg hop]
  | patch site =>
    rw [perform, patchJump] at h ⊢
    cases hsite : a.code[site]? with
    | none => rfl
    | some i =>
      rw [hsite] at h
      dsimp only at h ⊢
      split_ifs at h ⊢
      · rfl
      · rfl

/-- The jump at `site`, leading to the instruction behind `count` others. -/
def patched (count site : Nat) (i : Instruction) : Instruction :=
  { i with operands := Bytes.ofInt 4 ((count : Int) - site - 1) }

/-- What a call does where all instructions are jumps: it fails, adds a jump or patches one. -/
theorem perform_cases (hjumps : ∀ i ∈ a.code, i.opcode.isJump) (hlength : a.code.length < 1 <<< 31)
    (c : Call) :
    (∃ defect, a.perform c = (.error defect, a) ∧ c.Fails a.code.length) ∨
    (∃ op, c = .emit op ∧ op.isJump ∧
      a.perform c = (.ok (), { a with code := a.code ++ [⟨op, openTarget, none⟩] })) ∨
    ∃ site i, c = .patch site ∧ a.code[site]? = some i ∧
      a.perform c =
        (.ok (), { a with code := a.code.set site (patched a.code.length site i) }) := by
  cases c with
  | emit op =>
    rw [perform, emitJump]
    cases hop : op.isJump with
    | true => exact .inr (.inl ⟨op, rfl, hop, rfl⟩)
    | false => exact .inl ⟨.notAJump op, rfl, hop⟩
  | patch site =>
    rw [perform, patchJump]
    cases hsite : a.code[site]? with
    | none => exact .inl ⟨.noInstruction site, rfl, List.getElem?_eq_none_iff.1 hsite⟩
    | some i =>
      refine .inr (.inr ⟨site, i, rfl, hsite, ?_⟩)
      obtain ⟨hlt, -⟩ := List.getElem?_eq_some_iff.1 hsite
      have hjump : i.opcode.isJump := hjumps i (List.mem_of_getElem? hsite)
      have hdistance : ((a.code.length - site - 1 : Nat) : Int) =
          (a.code.length : Int) - site - 1 := by
        omega
      have hfits : Number.FitsSigned 32 (a.code.length - site - 1 : Nat) := by
        constructor <;> omega
      dsimp only
      rw [hjump, Bool.not_true, if_neg Bool.false_ne_true, if_pos hfits, patched, ← hdistance,
        Bytes.ofInt_natCast (by omega)]

/-! ## Many calls -/

theorem isJump_of_mem_jumps (h : op ∈ jumps calls) : op.isJump := by
  obtain ⟨c, -, hc⟩ := List.mem_filterMap.1 h
  cases c with
  | emit op' =>
    dsimp only at hc
    split at hc
    · cases hc
      assumption
    · cases hc
  | patch site => cases hc

theorem length_jumps_le (before rest : List Call) :
    (jumps before).length ≤ (jumps (before ++ rest)).length := by
  rw [jumps_append, List.length_append]
  exact Nat.le_add_right _ _

theorem jumps_concat_of_fails (h : c.Fails count) : jumps (calls ++ [c]) = jumps calls := by
  rw [jumps_append]
  cases c with
  | emit op => simp [jumps, show op.isJump = false from h]
  | patch site => exact List.append_nil _

/-- The assembly holds the jumps that the calls are for, and nothing else has been extended. -/
structure Holds (slots : SlotTable) (calls : List Call) (a : Assembly) : Prop where
  lowering : a.lowering = (fresh slots).lowering
  opcodes : a.code.map Instruction.opcode = jumps calls

namespace Holds

variable {slots : SlotTable}

theorem length (h : Holds slots calls a) : a.code.length = (jumps calls).length := by
  rw [← h.opcodes, List.length_map]

theorem isJump (h : Holds slots calls a) : ∀ i ∈ a.code, i.opcode.isJump :=
  fun _ hi => isJump_of_mem_jumps (h.opcodes ▸ List.mem_map_of_mem hi)

/-- One more call. -/
theorem concat (h : Holds slots calls a) (hlength : (jumps calls).length < 1 <<< 31) (c : Call) :
    Holds slots (calls ++ [c]) (a.perform c).2 := by
  rcases perform_cases h.isJump (h.length.trans_lt hlength) c with
    ⟨defect, herror, hfails⟩ | ⟨op, rfl, hop, hok⟩ | ⟨site, i, rfl, hsite, hok⟩
  · rw [herror]
    exact ⟨h.lowering, h.opcodes.trans (jumps_concat_of_fails hfails).symm⟩
  · rw [hok]
    refine ⟨h.lowering, ?_⟩
    have hjump : jumps [.emit op] = [op] := by simp [jumps, hop]
    rw [jumps_append, hjump, ← h.opcodes]
    exact List.map_append
  · rw [hok]
    refine ⟨h.lowering, ?_⟩
    rw [jumps_append, ← h.opcodes]
    -- The jump that is patched keeps its code.
    have hsame : (a.code.set site (patched a.code.length site i)).map Instruction.opcode =
        (a.code.map Instruction.opcode).set site i.opcode := List.map_set
    have hopcode : (a.code.map Instruction.opcode)[site]? = some i.opcode := by
      rw [List.getElem?_map, hsite, Option.map_some]
    obtain ⟨hlt, hopcode⟩ := List.getElem?_eq_some_iff.1 hopcode
    refine hsame.trans ?_
    rw [← hopcode, List.set_getElem_self]
    exact (List.append_nil _).symm

end Holds

variable (slots : SlotTable)

theorem holds_run (calls : List Call) (h : (jumps calls).length < 1 <<< 31) :
    Holds slots calls ((fresh slots).run calls) := by
  induction calls using List.reverseRecOn with
  | nil => exact ⟨rfl, rfl⟩
  | append_singleton calls c ih =>
    have hlength := (length_jumps_le calls [c]).trans_lt h
    rw [run_concat]
    exact (ih hlength).concat hlength c

/-- A later call decides about its own site. -/
theorem lastPatch_concat :
    LastPatch a (calls ++ [c]) site count ↔
      (c = .patch site ∧ ((a.run calls).patchJump site).1 = .ok () ∧
        (a.run calls).code.length = count) ∨
      (LastPatch a calls site count ∧
        (c = .patch site → ∃ defect, ((a.run calls).patchJump site).1 = .error defect)) := by
  constructor
  · rintro ⟨before, rest, hcalls, hok, hcount, hrest⟩
    rcases concat_eq_append_cons.1 hcalls with ⟨rfl, rfl, rfl⟩ | ⟨rest, rfl, rfl⟩
    · exact .inl ⟨rfl, hok, hcount⟩
    · refine .inr ⟨⟨before, rest, rfl, hok, hcount, fun before' rest' hrest' => ?_⟩, ?_⟩
      · exact hrest before' (rest' ++ [c]) (concat_eq_append_cons.2 (.inr ⟨rest', rfl, hrest'⟩))
      · rintro rfl
        exact hrest rest [] rfl
  · rintro (⟨rfl, hok, hcount⟩ | ⟨⟨before, rest, rfl, hok, hcount, hrest⟩, hlast⟩)
    · refine ⟨calls, [], rfl, hok, hcount, fun before' rest' hrest => ?_⟩
      cases before' <;> cases hrest
    · refine ⟨before, rest ++ [c], by simp, hok, hcount, fun before' rest' hrest' => ?_⟩
      rcases concat_eq_append_cons.1 hrest' with ⟨rfl, rfl, -⟩ | ⟨rest', -, rfl⟩
      · exact hlast rfl
      · exact hrest before' rest' rfl

theorem lastPatch_concat_of_other
    (h : c = .patch site → ∃ defect, ((a.run calls).patchJump site).1 = .error defect) :
    LastPatch a (calls ++ [c]) site count ↔ LastPatch a calls site count := by
  rw [lastPatch_concat]
  constructor
  · rintro (⟨rfl, hok, -⟩ | ⟨hlast, -⟩)
    · obtain ⟨defect, herror⟩ := h rfl
      rw [herror] at hok
      cases hok
    · exact hlast
  · exact fun hlast => .inr ⟨hlast, h⟩

theorem lastPatch_concat_self (h : ((a.run calls).patchJump site).1 = .ok ()) :
    LastPatch a (calls ++ [.patch site]) site count ↔ (a.run calls).code.length = count := by
  rw [lastPatch_concat]
  constructor
  · rintro (⟨-, -, hcount⟩ | ⟨-, herror⟩)
    · exact hcount
    · obtain ⟨defect, herror⟩ := herror rfl
      rw [herror] at h
      cases h
  · exact fun hcount => .inl ⟨rfl, h, hcount⟩

/-- A site that is patched has a jump. -/
theorem LastPatch.lt (h : LastPatch (fresh slots) calls site count)
    (hlength : (jumps calls).length < 1 <<< 31) :
    site < ((fresh slots).run calls).code.length := by
  obtain ⟨before, rest, rfl, hok, -, -⟩ := h
  have hle := length_jumps_le before (.patch site :: rest)
  rw [(holds_run slots _ hlength).length]
  refine lt_of_lt_of_le ?_ hle
  rw [← (holds_run slots before (by omega)).length]
  by_contra hge
  rw [patchJump, List.getElem?_eq_none (not_lt.1 hge)] at hok
  cases hok

/-- The instruction is the jump at `site` as the calls leave it: with the operand of its last patch,
or the one that it was added with. -/
structure Leads (a : Assembly) (calls : List Call) (site : Nat) (i : Instruction) : Prop where
  comment : i.comment = none
  patched : ∀ n, LastPatch a calls site n → i.operands = Bytes.ofInt 4 ((n : Int) - site - 1)
  unpatched : (∀ n, ¬ LastPatch a calls site n) → i.operands = [0xFF, 0xFF, 0xFF, 0xFF]

/-- Only a patch of its own changes where a jump leads. -/
theorem Leads.concat {i : Instruction} (h : Leads a calls site i)
    (hc : c = .patch site → ∃ defect, ((a.run calls).patchJump site).1 = .error defect) :
    Leads a (calls ++ [c]) site i where
  comment := h.comment
  patched n hlast := h.patched n ((lastPatch_concat_of_other hc).1 hlast)
  unpatched hnone := h.unpatched fun n hlast => hnone n ((lastPatch_concat_of_other hc).2 hlast)

theorem leads_run (calls : List Call) (h : (jumps calls).length < 1 <<< 31) :
    ∀ site i, ((fresh slots).run calls).code[site]? = some i →
      Leads (fresh slots) calls site i := by
  induction calls using List.reverseRecOn with
  | nil =>
    intro site i hi
    cases hi
  | append_singleton calls c ih =>
    have hlength := (length_jumps_le calls [c]).trans_lt h
    have hholds := holds_run slots calls hlength
    have ih := ih hlength
    intro site i hi
    rw [run_concat] at hi
    rcases perform_cases hholds.isJump (hholds.length.trans_lt hlength) c with
      ⟨defect, herror, -⟩ | ⟨op, rfl, -, hok⟩ | ⟨site', i', rfl, hsite', hok⟩
    · rw [herror] at hi
      refine (ih site i hi).concat ?_
      rintro rfl
      exact ⟨defect, congrArg Prod.fst herror⟩
    · rw [hok] at hi
      have hother : ∀ site, Call.emit op = .patch site → ∃ defect,
          (((fresh slots).run calls).patchJump site).1 = .error defect := fun _ hc => by cases hc
      change (((fresh slots).run calls).code ++ [_])[site]? = some i at hi
      rcases Nat.lt_or_ge site ((fresh slots).run calls).code.length with hlt | hge
      · rw [List.getElem?_append_left hlt] at hi
        exact (ih site i hi).concat (hother site)
      · -- The jump is new, and nothing can have patched it.
        rw [List.getElem?_append_right hge] at hi
        have hnone : ∀ n, ¬ LastPatch (fresh slots) (calls ++ [.emit op]) site n := by
          intro n hlast
          have hlt := ((lastPatch_concat_of_other (hother site)).1 hlast).lt slots hlength
          omega
        cases List.mem_singleton.1 (List.mem_of_getElem? hi)
        exact ⟨rfl, fun n hlast => absurd hlast (hnone n), fun _ => rfl⟩
    · rw [hok] at hi
      by_cases hsite : site' = site
      · subst hsite
        obtain ⟨hlt, -⟩ := List.getElem?_eq_some_iff.1 hsite'
        have hlast : ∀ n, LastPatch (fresh slots) (calls ++ [.patch site']) site' n ↔ _ :=
          fun n => lastPatch_concat_self (congrArg Prod.fst hok)
        cases (List.getElem?_set_self hlt).symm.trans hi
        refine ⟨(ih site' i' hsite').comment, fun n hn => ?_, fun hnone => ?_⟩
        · rw [← (hlast n).1 hn]
          rfl
        · exact absurd ((hlast _).2 rfl) (hnone _)
      · refine (ih site i ?_).concat ?_
        · exact (List.getElem?_set_ne hsite).symm.trans hi
        · intro hc
          cases hc
          exact absurd rfl hsite

/-- A call fails exactly if it adds no jump or patches a site that has none yet. -/
theorem perform_eq_error_iff (before : List Call) (h : (jumps before).length < 1 <<< 31)
    (c : Call) :
    (∃ defect, (((fresh slots).run before).perform c).1 = .error defect) ↔
      c.Fails (jumps before).length := by
  have hholds := holds_run slots before h
  rcases perform_cases hholds.isJump (hholds.length.trans_lt h) c with
    ⟨defect, herror, hfails⟩ | ⟨op, rfl, hop, hok⟩ | ⟨site, i, rfl, hsite, hok⟩
  · rw [hholds.length] at hfails
    exact iff_of_true ⟨defect, congrArg Prod.fst herror⟩ hfails
  · refine iff_of_false ?_ fun hfails => ?_
    · rintro ⟨defect, herror⟩
      rw [hok] at herror
      cases herror
    · rw [Call.Fails, hop] at hfails
      cases hfails
  · refine iff_of_false ?_ fun hfails => ?_
    · rintro ⟨defect, herror⟩
      rw [hok] at herror
      cases herror
    · rw [Call.Fails, ← hholds.length, ← List.getElem?_eq_none_iff, hsite] at hfails
      cases hfails

/-- A program is lowered behind the jumps as it is without them. -/
theorem generate_run (mode : ConstantMode) (p : Program) (calls : List Call)
    (h : (jumps calls).length < 1 <<< 31) :
    ((fresh slots).run calls).generate mode p =
      ((p.generate mode slots).1.map fun b =>
        ⟨b.constants, ((fresh slots).run calls).code ++ b.code⟩, (p.generate mode slots).2) := by
  have hlowering := (holds_run slots calls h).lowering
  have hfresh : p.generate mode slots = (fresh slots).generate mode p := rfl
  rw [hfresh, generate, generate, hlowering]
  cases (p.lower mode).run (fresh slots).lowering <;> rfl

/-- Jumps are patched exactly. After any calls on a fresh assembly, failing ones included, a program
is generated as without them, behind one jump for each call that added one, in order. Each jump
leads to where the assembly ended at its last patch, or nowhere if it was not patched. A call fails
exactly if it adds no jump or patches a site that has none yet, and then it changes nothing; an
added jump gets the next site. -/
theorem generate_after_calls (mode : ConstantMode) (p : Program) (slots : SlotTable)
    (calls : List Call) (h : (jumps calls).length < 1 <<< 31) :
    (((fresh slots).run calls).generate mode p =
      ((p.generate mode slots).1.map fun b =>
        ⟨b.constants, ((fresh slots).run calls).code ++ b.code⟩, (p.generate mode slots).2)) ∧
    ((fresh slots).run calls).code.map Instruction.opcode = jumps calls ∧
    (∀ site i, ((fresh slots).run calls).code[site]? = some i →
      Leads (fresh slots) calls site i) ∧
    ∀ before c rest, calls = before ++ c :: rest →
      ((∃ defect, (((fresh slots).run before).perform c).1 = .error defect) ↔
        c.Fails (jumps before).length) ∧
      (∀ defect, (((fresh slots).run before).perform c).1 = .error defect →
        (fresh slots).run (before ++ [c]) = (fresh slots).run before) ∧
      ∀ op site, c = .emit op → (((fresh slots).run before).emitJump op).1 = .ok site →
        site = (jumps before).length := by
  refine ⟨generate_run slots mode p calls h, (holds_run slots calls h).opcodes,
    leads_run slots calls h, ?_⟩
  rintro before c rest rfl
  have hbefore := (length_jumps_le before (c :: rest)).trans_lt h
  refine ⟨perform_eq_error_iff slots before hbefore c, fun defect herror => ?_, ?_⟩
  · rw [run_concat, perform_of_error herror]
  · rintro op site rfl hok
    rw [emitJump] at hok
    split at hok
    · cases hok
      exact (holds_run slots before hbefore).length
    · cases hok

/-- A jump that is patched twice, and one that is not, before the code of a literal. -/
theorem generate_after_calls_twice :
    let calls : List Call :=
      [.patch 0, .emit .jumpIfZero, .patch 0, .emit .not, .emit .jump, .patch 0]
    let p : Program := [.expression (.literal (.integer 5) ⟨1, 0, 1⟩)]
    (jumps calls).length < 1 <<< 31 ∧
      (((fresh {}).run calls).generate .inline p).1 =
        .ok ⟨{}, [⟨.jumpIfZero, [0x01, 0x00, 0x00, 0x00], none⟩,
          ⟨.jump, [0xFF, 0xFF, 0xFF, 0xFF], none⟩, ⟨.loadImmediate8, [0x05], none⟩]⟩ ∧
      Leads (fresh {}) calls 0 ⟨.jumpIfZero, [0x01, 0x00, 0x00, 0x00], none⟩ ∧
      Leads (fresh {}) calls 1 ⟨.jump, [0xFF, 0xFF, 0xFF, 0xFF], none⟩ := by
  intro calls p
  have h : (jumps calls).length < 1 <<< 31 := by decide
  obtain ⟨hgenerate, -, hleads, -⟩ := generate_after_calls .inline p {} calls h
  refine ⟨h, ?_, hleads 0 _ rfl, hleads 1 _ rfl⟩
  rw [hgenerate]
  rfl

end Assembly

end StackCompiler
