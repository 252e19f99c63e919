import Mathlib.Logic.Function.Basic
import StackCompiler.Proofs.Bindings

/-!
# Environments are stacks of scopes

An environment is changed by actions, one after another (`Environment.run`). It does what a stack of
`Frame`s does, where a frame says for each name what it stands for: `Environment.frames_perform` is
this for one action, with the same actions rejected, and `Environment.frames_run` for many. An
action that is rejected leaves the environment as it was (`Environment.perform_of_rejected`).

A run that opens a scope and leaves it again, with well bracketed actions in between, is known by
the names that are marked where no scope of the run has them (`Environment.MarkedOutside`): it
marks what these names stand for before it and changes nothing else (`Environment.run_bracketed`).
-/

namespace StackCompiler

namespace Environment

/-- Changes to an environment. -/
inductive Action where
  | define (x : String) (v : Variable)
  | mark (x : String)
  | defineProcedure (x : String) (p : Procedure)
  | enclose
  | leave
deriving DecidableEq

/-- Whether an action is accepted, and the environment after it. -/
def perform (env : Environment) : Action → Bool × Environment
  | .define x v => Prod.map Except.isOk id (env.define x v)
  | .mark x => (true, env.mark x)
  | .defineProcedure x p => Prod.map Except.isOk id (env.defineProcedure x p)
  | .enclose => (true, env.enclose)
  | .leave =>
    match env.leave? with
    | some env' => (true, env')
    | none => (false, env)

/-- The environment after actions, whether they are accepted or not. -/
def run (env : Environment) (acts : List Action) : Environment :=
  acts.foldl (fun env a => (env.perform a).2) env

variable {env env' : Environment} {x y : String} {a : Action} {acts : List Action}

@[simp] theorem run_nil (env : Environment) : env.run [] = env := rfl

@[simp] theorem run_cons (env : Environment) (a : Action) (acts : List Action) :
    env.run (a :: acts) = (env.perform a).2.run acts := rfl

theorem run_append (env : Environment) (acts acts' : List Action) :
    env.run (acts ++ acts') = (env.run acts).run acts' :=
  List.foldl_append

/-- A procedure is bound where variables are, and rejected for the same reason. -/
theorem defineProcedure_cases (env : Environment) (x : String) (p : Procedure) :
    (env.inner.getProcedure? x).isSome ∧ env.defineProcedure x p = (.error p, env) ∨
      env.inner.getProcedure? x = none ∧ env.defineProcedure x p =
        (.ok (), { env with inner.procedures := (x, p) :: env.inner.procedures }) := by
  rw [defineProcedure]
  split
  · rename_i h
    exact .inl ⟨h, rfl⟩
  · rename_i h
    exact .inr ⟨Option.not_isSome_iff_eq_none.1 h, rfl⟩

/-- An action that is rejected changes nothing. -/
theorem perform_of_rejected (h : (env.perform a).1 = false) : (env.perform a).2 = env := by
  cases a with
  | define x v =>
    rw [perform] at h ⊢
    rcases env.define_cases x v with ⟨-, heq⟩ | ⟨-, heq⟩ <;> rw [heq] at h ⊢
    · rfl
    · cases h
  | mark x => cases h
  | defineProcedure x p =>
    rw [perform] at h ⊢
    rcases env.defineProcedure_cases x p with ⟨-, heq⟩ | ⟨-, heq⟩ <;> rw [heq] at h ⊢
    · rfl
    · cases h
  | enclose => cases h
  | leave =>
    rw [perform] at h ⊢
    cases hleave : env.leave? with
    | none => rfl
    | some env' =>
      rw [hleave] at h
      cases h

end Environment

/-! ## Frames -/

/-- A scope by what its names stand for. -/
structure Frame where
  var? : String → Option Variable := fun _ => none
  procedure? : String → Option Procedure := fun _ => none

namespace Frame

/-- The variables of the marked names are initialized. -/
def markAll (marked : String → Bool) (f : Frame) : Frame :=
  { f with var? := fun x => (f.var? x).map (Variable.initializedIf (marked x)) }

/-- The variable of each marked name is initialized in the first frame that has one, and in no
other. -/
def markNearest (marked : String → Bool) : List Frame → List Frame
  | [] => []
  | f :: fs => f.markAll marked :: markNearest (fun x => marked x && (f.var? x).isNone) fs

/-- What an action makes of frames, the innermost one first. Names are bound in the innermost frame,
which must not have them, and the outermost frame is never left. -/
def perform : List Frame → Environment.Action → Option (List Frame)
  | fs, .mark x => some (markNearest (· = x) fs)
  | fs, .enclose => some ({} :: fs)
  | f :: fs, .define x v =>
    if (f.var? x).isSome then none
    else some ({ f with var? := Function.update f.var? x (some v) } :: fs)
  | f :: fs, .defineProcedure x p =>
    if (f.procedure? x).isSome then none
    else some ({ f with procedure? := Function.update f.procedure? x (some p) } :: fs)
  | _ :: f :: fs, .leave => some (f :: fs)
  | [_], .leave => none
  | [], .define .. | [], .defineProcedure .. | [], .leave => none

/-- What actions make of frames; one that is rejected is passed over. -/
def run (fs : List Frame) (acts : List Environment.Action) : List Frame :=
  acts.foldl (fun fs a => (perform fs a).getD fs) fs

/-- The name stands for `a` in the innermost frame in which it stands for anything. -/
def Nearest {α : Type} (get? : Frame → String → Option α) (fs : List Frame) (x : String) (a : α) :
    Prop :=
  ∃ inner f outer, fs = inner ++ f :: outer ∧ get? f x = some a ∧ ∀ g ∈ inner, get? g x = none

variable {marked : String → Bool} {f : Frame} {fs : List Frame}

theorem nearest_iff {α : Type} {get? : Frame → String → Option α} {x : String} {a : α} :
    Nearest get? fs x a ↔ fs.findSome? (get? · x) = some a :=
  List.findSome?_eq_some_iff.symm

theorem markAll_of_false (h : ∀ x, (f.var? x).isSome → marked x = false) :
    f.markAll marked = f := by
  have hvar : (fun x => (f.var? x).map (Variable.initializedIf (marked x))) = f.var? := by
    funext x
    cases hx : f.var? x with
    | none => rfl
    | some v => simp [h x (by simp [hx])]
  rw [markAll, hvar]

theorem markNearest_false (fs : List Frame) : markNearest (fun _ => false) fs = fs := by
  induction fs with
  | nil => rfl
  | cons f fs ih =>
    rw [markNearest, markAll_of_false fun _ _ => rfl]
    simp only [Bool.false_and]
    rw [ih]

/-- Names that are marked later are marked together with the earlier ones. -/
theorem markNearest_markNearest (marked marked' : String → Bool) (fs : List Frame) :
    markNearest marked' (markNearest marked fs) =
      markNearest (fun x => marked x || marked' x) fs := by
  induction fs generalizing marked marked' with
  | nil => rfl
  | cons f fs ih =>
    rw [markNearest, markNearest, markNearest, ih]
    congr 1
    · simp only [markAll, Option.map_map]
      congr 1
      funext x
      cases f.var? x <;> simp [Variable.initializedIf, Bool.or_assoc]
    · congr 1
      funext x
      simp [markAll, Bool.and_or_distrib_right]

end Frame

/-- What the names of a scope stand for. -/
def Scope.frame (s : Scope) : Frame :=
  ⟨s.get?, s.getProcedure?⟩

namespace Scope

/-- One more pair changes what is looked up under its name alone. -/
theorem lookup_cons_eq_update {α : Type} (x : String) (a : α) (l : List (String × α)) :
    (fun y => ((x, a) :: l).lookup y) = Function.update (fun y => l.lookup y) x (some a) := by
  funext y
  rw [List.lookup_cons, Function.update_apply]
  by_cases hy : y = x
  · rw [hy, beq_self_eq_true, if_pos rfl]
  · rw [beq_false_of_ne hy, if_neg hy]

theorem frame_bind (s : Scope) (x : String) (v : Variable) :
    frame { s with vars := (x, v) :: s.vars } =
      { s.frame with var? := Function.update s.frame.var? x (some v) } :=
  congrArg (Frame.mk · s.getProcedure?) (lookup_cons_eq_update x v s.vars)

theorem frame_bindProcedure (s : Scope) (x : String) (p : Procedure) :
    frame { s with procedures := (x, p) :: s.procedures } =
      { s.frame with procedure? := Function.update s.frame.procedure? x (some p) } :=
  congrArg (Frame.mk s.get? ·) (lookup_cons_eq_update x p s.procedures)

theorem frame_mark (s : Scope) (x : String) : (s.mark x).frame = s.frame.markAll (· = x) := by
  simp only [frame, Frame.markAll, Frame.mk.injEq]
  refine ⟨?_, rfl⟩
  funext y
  exact get?_mark s x y

end Scope

namespace Environment

variable {env env' : Environment} {x y : String} {a : Action} {acts : List Action}

/-- What names stand for, scope by scope from the inside out. -/
def frames (env : Environment) : List Frame :=
  env.scopes.map Scope.frame

theorem frames_markFirst (x : String) (scopes : List Scope) :
    (markFirst x scopes).map Scope.frame = Frame.markNearest (· = x) (scopes.map Scope.frame) := by
  induction scopes with
  | nil => rfl
  | cons s scopes ih =>
    rw [markFirst, List.map_cons, Frame.markNearest]
    split
    · rename_i hs
      -- The name is bound here, so nothing is marked further out.
      have hrest : (fun y => decide (y = x) && (s.frame.var? y).isNone) = fun _ => false := by
        funext y
        by_cases hy : y = x
        · rw [hy, ← Option.not_isSome]
          simp [Scope.frame, hs]
        · simp [hy]
      rw [List.map_cons, Scope.frame_mark, hrest, Frame.markNearest_false]
    · rename_i hs
      rw [Bool.not_eq_true, Option.isSome_eq_false_iff] at hs
      have hhere : s.frame.markAll (· = x) = s.frame := by
        refine Frame.markAll_of_false fun y hy => decide_eq_false ?_
        rintro rfl
        rw [← Option.not_isNone] at hy
        simp [Scope.frame, hs] at hy
      have hrest : (fun y => decide (y = x) && (s.frame.var? y).isNone) =
          (fun y => decide (y = x)) := by
        funext y
        by_cases hy : y = x
        · simp [hy, Scope.frame, hs]
        · simp [hy]
      rw [List.map_cons, hhere, hrest, ih]

/-- The environment and its frames, after an action that both accept or both reject. -/
structure Performs (env : Environment) (result : Bool × Environment) (fs? : Option (List Frame)) :
    Prop where
  accepted : result.1 = fs?.isSome
  frames : result.2.frames = fs?.getD env.frames

/-- An action does to the frames what it does to the environment, and is rejected by both or by
none. -/
theorem frames_perform (env : Environment) (a : Action) :
    env.Performs (env.perform a) (Frame.perform env.frames a) := by
  cases a with
  | define x v =>
    have hframes : Frame.perform env.frames (.define x v) =
        if (env.inner.get? x).isSome then none
        else some (Scope.frame { env.inner with vars := (x, v) :: env.inner.vars } ::
          env.outer.map Scope.frame) := by
      rw [Scope.frame_bind]
      rfl
    rw [perform, hframes]
    rcases env.define_cases x v with ⟨hx, heq⟩ | ⟨hx, heq⟩ <;> rw [heq, hx]
    · exact ⟨rfl, rfl⟩
    · exact ⟨rfl, rfl⟩
  | mark x =>
    refine ⟨rfl, ?_⟩
    simp only [perform, frames, Frame.perform, Option.getD_some, scopes_mark, frames_markFirst]
  | defineProcedure x p =>
    have hframes : Frame.perform env.frames (.defineProcedure x p) =
        if (env.inner.getProcedure? x).isSome then none
        else some (Scope.frame { env.inner with procedures := (x, p) :: env.inner.procedures } ::
          env.outer.map Scope.frame) := by
      rw [Scope.frame_bindProcedure]
      rfl
    rw [perform, hframes]
    rcases env.defineProcedure_cases x p with ⟨hx, heq⟩ | ⟨hx, heq⟩ <;> rw [heq, hx]
    · exact ⟨rfl, rfl⟩
    · exact ⟨rfl, rfl⟩
  | enclose => exact ⟨rfl, rfl⟩
  | leave =>
    obtain ⟨inner, outer⟩ := env
    cases outer <;> exact ⟨rfl, rfl⟩

theorem frames_run (env : Environment) (acts : List Action) :
    (env.run acts).frames = Frame.run env.frames acts := by
  induction acts generalizing env with
  | nil => rfl
  | cons a acts ih =>
    rw [run_cons, ih, Frame.run, Frame.run, List.foldl_cons, (env.frames_perform a).frames]

theorem frames_markAll (env : Environment) (names : List String) :
    (env.markAll names).frames = Frame.markNearest (names.contains ·) env.frames := by
  induction names generalizing env with
  | nil => exact (Frame.markNearest_false _).symm
  | cons x names ih =>
    rw [markAll_cons, ih, frames, scopes_mark, frames_markFirst, Frame.markNearest_markNearest]
    rfl

theorem get?_eq_some_iff {v : Variable} :
    env.get? x = some v ↔ Frame.Nearest Frame.var? env.frames x v := by
  rw [Frame.nearest_iff, frames, List.findSome?_map]
  rfl

theorem define_eq_error_iff {v : Variable} :
    (env.define x v).1 = .error v ↔ (env.inner.get? x).isSome := by
  rcases env.define_cases x v with ⟨hx, heq⟩ | ⟨hx, heq⟩ <;> rw [heq, hx]
  · exact iff_of_true rfl rfl
  · exact iff_of_false (fun h => by cases h) (fun h => by cases h)

theorem getProcedure?_eq_some_iff {p : Procedure} :
    env.getProcedure? x = some p ↔ Frame.Nearest Frame.procedure? env.frames x p := by
  rw [Frame.nearest_iff, frames, List.findSome?_map]
  rfl

/-! ## Bracketed runs -/

/-- The actions leave exactly the scopes that they open and `depth` more, the inner ones first. -/
def Bracketed : (depth : Nat) → List Action → Prop
  | depth, [] => depth = 0
  | depth, .enclose :: acts => Bracketed (depth + 1) acts
  | 0, .leave :: _ => False
  | depth + 1, .leave :: acts => Bracketed depth acts
  | depth, .define .. :: acts | depth, .mark _ :: acts | depth, .defineProcedure .. :: acts =>
    Bracketed depth acts

/-- The scopes inside the outermost `count` ones. -/
def scopesInside (count : Nat) (env : Environment) : List Scope :=
  env.scopes.take (env.scopes.length - count)

/-- The name is marked by one of the actions at a moment when no scope inside the outermost `count`
ones has it. -/
def MarkedOutside (count : Nat) (env : Environment) (acts : List Action) (x : String) : Prop :=
  ∃ before rest, acts = before ++ .mark x :: rest ∧
    ∀ s ∈ (env.run before).scopesInside count, s.get? x = none

/-- The names that an action marks outside the scopes `opened`. -/
def passes (opened : List Scope) : Action → List String
  | .mark x => if opened.all fun s => (s.get? x).isNone then [x] else []
  | .define .. | .defineProcedure .. | .enclose | .leave => []

/-- The scopes with all the names marked. -/
def markScopes (names : List String) (scopes : List Scope) : List Scope :=
  names.foldl (fun scopes x => markFirst x scopes) scopes

theorem scopes_markAll (env : Environment) (names : List String) :
    (env.markAll names).scopes = markScopes names env.scopes := by
  induction names generalizing env with
  | nil => rfl
  | cons x names ih =>
    rw [markAll_cons, ih, scopes_mark]
    rfl

@[simp] theorem length_markFirst (x : String) (scopes : List Scope) :
    (markFirst x scopes).length = scopes.length := by
  induction scopes with
  | nil => rfl
  | cons s scopes ih =>
    rw [markFirst]
    split
    · rfl
    · rw [List.length_cons, List.length_cons, ih]

@[simp] theorem length_markScopes (names : List String) (scopes : List Scope) :
    (markScopes names scopes).length = scopes.length := by
  induction names generalizing scopes with
  | nil => rfl
  | cons x names ih => exact (ih _).trans (length_markFirst x scopes)

/-- A mark goes past the scopes that do not have the name. -/
theorem markFirst_append (x : String) (opened base : List Scope) :
    ∃ opened', markFirst x (opened ++ base) = opened' ++ markScopes (passes opened (.mark x)) base ∧
      opened'.length = opened.length := by
  induction opened with
  | nil => exact ⟨[], rfl, rfl⟩
  | cons s opened ih =>
    obtain ⟨opened', h, hlength⟩ := ih
    rw [List.cons_append, markFirst]
    split
    · rename_i hs
      refine ⟨s.mark x :: opened, ?_, rfl⟩
      rw [passes, List.all_cons, ← Option.not_isSome, hs]
      rfl
    · rename_i hs
      rw [Bool.not_eq_true] at hs
      refine ⟨s :: opened', ?_, congrArg (· + 1) hlength⟩
      rw [h, passes, passes, List.all_cons, ← Option.not_isSome, hs]
      rfl

/-- How many scopes an action leaves open inside a run, where `depth + 1` are. -/
theorem scopes_perform {depth : Nat} {opened base : List Scope}
    (hb : Bracketed depth (a :: acts)) (hs : env.scopes = opened ++ base)
    (hlength : opened.length = depth + 1) :
    ∃ depth' opened', Bracketed depth' acts ∧ opened'.length = depth' + 1 ∧
      (env.perform a).2.scopes = opened' ++ markScopes (passes opened a) base := by
  obtain ⟨inner, outer⟩ := env
  obtain ⟨s, opened, rfl⟩ := List.exists_cons_of_length_eq_add_one hlength
  rw [scopes, List.cons_append, List.cons.injEq] at hs
  obtain ⟨rfl, rfl⟩ := hs
  cases a with
  | define x v =>
    rw [perform]
    rcases define_cases ⟨inner, opened ++ base⟩ x v with ⟨-, heq⟩ | ⟨-, heq⟩ <;> rw [heq]
    · exact ⟨depth, inner :: opened, hb, hlength, rfl⟩
    · exact ⟨depth, { inner with vars := (x, v) :: inner.vars } :: opened, hb, hlength, rfl⟩
  | mark x =>
    obtain ⟨opened', h, hlength'⟩ := markFirst_append x (inner :: opened) base
    refine ⟨depth, opened', hb, hlength'.trans hlength, ?_⟩
    rw [← h]
    exact scopes_mark _ x
  | defineProcedure x p =>
    rw [perform]
    rcases defineProcedure_cases ⟨inner, opened ++ base⟩ x p with ⟨-, heq⟩ | ⟨-, heq⟩ <;> rw [heq]
    · exact ⟨depth, inner :: opened, hb, hlength, rfl⟩
    · exact ⟨depth, { inner with procedures := (x, p) :: inner.procedures } :: opened, hb, hlength,
        rfl⟩
  | enclose => exact ⟨depth + 1, {} :: inner :: opened, hb, congrArg (· + 1) hlength, rfl⟩
  | leave =>
    cases depth with
    | zero => exact hb.elim
    | succ depth =>
      rw [List.length_cons, Nat.add_right_cancel_iff] at hlength
      obtain ⟨s, opened, rfl⟩ := List.exists_cons_of_length_eq_add_one hlength
      exact ⟨depth, s :: opened, hb, hlength, rfl⟩

theorem mem_passes_iff {opened : List Scope} :
    x ∈ passes opened a ↔ a = .mark x ∧ ∀ s ∈ opened, s.get? x = none := by
  cases a with
  | mark y =>
    have hall : (opened.all fun s => (s.get? y).isNone) ↔ ∀ s ∈ opened, s.get? y = none := by
      simp
    rw [passes, Action.mark.injEq]
    split
    · rename_i h
      rw [List.mem_singleton, eq_comm]
      exact (and_iff_left_of_imp fun hy => hy ▸ hall.1 h).symm
    · rename_i h
      refine ⟨fun hx => absurd hx List.not_mem_nil, ?_⟩
      rintro ⟨rfl, hnone⟩
      exact absurd (hall.2 hnone) h
  | define | defineProcedure | enclose | leave => simp [passes]

theorem markedOutside_cons {count : Nat} :
    MarkedOutside count env (a :: acts) x ↔
      (a = .mark x ∧ ∀ s ∈ env.scopesInside count, s.get? x = none) ∨
        MarkedOutside count (env.perform a).2 acts x := by
  constructor
  · rintro ⟨before, rest, hacts, hnone⟩
    cases before with
    | nil =>
      cases hacts
      exact .inl ⟨rfl, hnone⟩
    | cons b before =>
      cases hacts
      exact .inr ⟨before, rest, rfl, hnone⟩
  · rintro (⟨rfl, hnone⟩ | ⟨before, rest, rfl, hnone⟩)
    · exact ⟨[], acts, rfl, hnone⟩
    · exact ⟨a :: before, rest, rfl, hnone⟩

/-- Inside a run, actions that leave all but one of the scopes opened by it mark names in the scopes
from before. -/
theorem scopes_run {depth : Nat} {opened base : List Scope} (hb : Bracketed depth acts)
    (hs : env.scopes = opened ++ base) (hlength : opened.length = depth + 1) :
    ∃ s names, (env.run acts).scopes = s :: markScopes names base ∧
      ∀ x, x ∈ names ↔ MarkedOutside base.length env acts x := by
  induction acts generalizing env depth opened base with
  | nil =>
    cases hb
    obtain ⟨s, rfl⟩ := List.length_eq_one_iff.1 hlength
    exact ⟨s, [], hs, fun x => by simp [MarkedOutside]⟩
  | cons a acts ih =>
    obtain ⟨depth', opened', hb', hlength', hs'⟩ := scopes_perform hb hs hlength
    obtain ⟨s, names, hrun, hnames⟩ := ih hb' hs' hlength'
    refine ⟨s, passes opened a ++ names, ?_, fun x => ?_⟩
    · rw [run_cons, hrun, markScopes, markScopes, markScopes, List.foldl_append]
    · have hopened : env.scopesInside base.length = opened := by
        rw [scopesInside, hs, List.length_append, Nat.add_sub_cancel, List.take_left]
      rw [List.mem_append, hnames, mem_passes_iff, length_markScopes, markedOutside_cons, hopened]

/-- A run that opens a scope and leaves it marks the names that it marks outside of its own scopes,
and changes nothing else. -/
theorem run_bracketed (env : Environment) (h : Bracketed 0 acts) :
    ∃ names, (∀ x, x ∈ names ↔ MarkedOutside env.scopes.length env.enclose acts x) ∧
      env.run (.enclose :: acts ++ [.leave]) = env.markAll names := by
  have hopened : env.enclose.scopes = [⟨[], []⟩] ++ env.scopes := rfl
  obtain ⟨s, names, hrun, hnames⟩ := scopes_run h hopened rfl
  refine ⟨names, hnames, ?_⟩
  rw [run_append]
  rw [← scopes_markAll] at hrun
  change ((env.enclose.run acts).perform .leave).2 = env.markAll names
  generalize env.enclose.run acts = last at hrun ⊢
  obtain ⟨inner, outer⟩ := last
  rw [scopes, scopes, List.cons.injEq] at hrun
  obtain ⟨rfl, rfl⟩ := hrun
  rfl

/-- An environment does what a stack of scopes does. After any actions it has the frames that the
actions make, a name stands for what it stands for in the innermost of them that has it, and an
action is rejected if it is rejected there; `define` gives a variable back exactly if the innermost
frame has the name, and what is rejected changes nothing. A well bracketed run marks the nearest
variables of the names that it marks while none of its own scopes has them, and changes nothing
else. -/
theorem run_refines_frames (acts : List Action) :
    (empty.run acts).frames = Frame.run [{}] acts ∧
    (∀ x v, (empty.run acts).get? x = some v ↔
      Frame.Nearest Frame.var? (Frame.run [{}] acts) x v) ∧
    (∀ x p, (empty.run acts).getProcedure? x = some p ↔
      Frame.Nearest Frame.procedure? (Frame.run [{}] acts) x p) ∧
    (∀ a, (empty.run acts).Performs ((empty.run acts).perform a)
      (Frame.perform (Frame.run [{}] acts) a)) ∧
    (∀ x v, ((empty.run acts).define x v).1 = .error v ↔
      ∃ f fs, Frame.run [{}] acts = f :: fs ∧ (f.var? x).isSome) ∧
    (∀ a, ((empty.run acts).perform a).1 = false → empty.run (acts ++ [a]) = empty.run acts) ∧
    ∀ body, Bracketed 0 body → ∃ names,
      (∀ x, x ∈ names ↔
        MarkedOutside (empty.run acts).scopes.length (empty.run acts).enclose body x) ∧
      empty.run (acts ++ (.enclose :: body ++ [.leave])) = (empty.run acts).markAll names ∧
      ((empty.run acts).markAll names).frames =
        Frame.markNearest (names.contains ·) (empty.run acts).frames := by
  have hframes : (empty.run acts).frames = Frame.run [{}] acts := frames_run empty acts
  refine ⟨hframes, fun x v => ?_, fun x p => ?_, fun a => ?_, fun x v => ?_, fun a ha => ?_,
    fun body hbody => ?_⟩
  · rw [get?_eq_some_iff, hframes]
  · rw [getProcedure?_eq_some_iff, hframes]
  · rw [← hframes]
    exact frames_perform _ a
  · rw [define_eq_error_iff, ← hframes]
    constructor
    · intro hx
      exact ⟨_, _, rfl, hx⟩
    · rintro ⟨f, fs, hfs, hx⟩
      cases hfs
      exact hx
  · rw [run_append, run_cons, run_nil, perform_of_rejected ha]
  · obtain ⟨names, hnames, hrun⟩ := run_bracketed (empty.run acts) hbody
    refine ⟨names, hnames, ?_, frames_markAll _ names⟩
    rw [run_append, hrun]

/-- The run marks `a` before it binds the name and `b` after it. -/
theorem run_refines_frames_shadowed :
    let v : Variable := ⟨.integer .i32, true, false⟩
    let acts : List Action := [.define "a" v, .define "b" v]
    let body : List Action :=
      [.mark "a", .define "a" v, .enclose, .define "b" v, .mark "b", .mark "a", .leave]
    Bracketed 0 body ∧
      (empty.run (acts ++ (.enclose :: body ++ [.leave]))).get? "a" =
        some { v with isInitialized := true } ∧
      (empty.run (acts ++ (.enclose :: body ++ [.leave]))).get? "b" = some v ∧
      ∃ names, (∀ x, x ∈ names ↔
          MarkedOutside (empty.run acts).scopes.length (empty.run acts).enclose body x) ∧
        empty.run (acts ++ (.enclose :: body ++ [.leave])) = (empty.run acts).markAll names := by
  intro v acts body
  have hbody : Bracketed 0 body := by
    simp [body, Bracketed]
  obtain ⟨-, -, -, -, -, -, hbracketed⟩ := run_refines_frames acts
  obtain ⟨names, hnames, hrun, -⟩ := hbracketed body hbody
  exact ⟨hbody, rfl, rfl, names, hnames, hrun⟩

end Environment

end StackCompiler
