/-!
# Steps that succeed, and steps side by side

When a computation succeeds that carries a state and may end early: `run_bind_eq_ok` takes two
steps apart, and the other statements say it of steps that are not taken apart further. Without
a state there is `map_eq_ok`.

Two such computations that run side by side (`Simulates`): from related states they both succeed
or both end early, with related values or errors and in related states. Steps that do so one by
one do so in a row.
-/

namespace StackCompiler

instance decEqResult {ε σ α : Type} [DecidableEq ε] [DecidableEq σ] [DecidableEq α] :
    DecidableEq (EStateM.Result ε σ α)
  | .ok a s, .ok b t => decidable_of_iff (a = b ∧ s = t) (by simp)
  | .error e s, .error f t => decidable_of_iff (e = f ∧ s = t) (by simp)
  | .ok .., .error .. => isFalse nofun
  | .error .., .ok .. => isFalse nofun

variable {ε σ α β : Type}

/-- Two steps succeed if the first one does and then the second one. -/
theorem run_bind_eq_ok {x : EStateM ε σ α} {f : α → EStateM ε σ β} {s s'' : σ} {b : β} :
    (x >>= f).run s = .ok b s'' ↔
      ∃ a s', x.run s = .ok a s' ∧ (f a).run s' = .ok b s'' := by
  rw [EStateM.run_bind]
  cases x.run s with
  | ok a s' =>
    constructor
    · intro h
      exact ⟨a, s', rfl, h⟩
    · rintro ⟨_, _, ⟨⟩, h⟩
      exact h
  | error e s' =>
    constructor
    · nofun
    · rintro ⟨_, _, ⟨⟩, _⟩

theorem run_pure_eq_ok {a b : α} {s s' : σ} :
    (pure a : EStateM ε σ α).run s = .ok b s' ↔ b = a ∧ s' = s := by
  rw [EStateM.run_pure, EStateM.Result.ok.injEq, eq_comm, eq_comm (a := s)]

theorem run_ite_eq_ok {c : Prop} [Decidable c] {x y : EStateM ε σ α} {s s' : σ} {a : α} :
    (if c then x else y).run s = .ok a s' ↔
      c ∧ x.run s = .ok a s' ∨ ¬ c ∧ y.run s = .ok a s' := by
  by_cases h : c <;> simp [h]

theorem run_throw_eq_ok {e : ε} {s s' : σ} {a : α} :
    (throw e : EStateM ε σ α).run s = .ok a s' ↔ False :=
  ⟨nofun, False.elim⟩

theorem map_eq_ok {r : Except ε α} {f : α → β} {b : β} :
    r.map f = .ok b ↔ ∃ a, r = .ok a ∧ f a = b := by
  cases r <;> simp [Except.map]

section Simulation

variable (E : ε → ε → Prop) (R : σ → σ → Prop)

/-- What two computations end with that run side by side. -/
inductive Results (P : α → α → Prop) :
    EStateM.Result ε σ α → EStateM.Result ε σ α → Prop where
  | ok {a a' : α} {s s' : σ} (ha : P a a') (hs : R s s') : Results P (.ok a s) (.ok a' s')
  | error {e e' : ε} {s s' : σ} (he : E e e') (hs : R s s') :
    Results P (.error e s) (.error e' s')

/-- The computations run side by side from all related states. -/
def Simulates (P : α → α → Prop) (x x' : EStateM ε σ α) : Prop :=
  ∀ s s', R s s' → Results E R P (x.run s) (x'.run s')

variable {E R} {P : α → α → Prop} {Q : β → β → Prop}

namespace Simulates

theorem pure {a a' : α} (h : P a a') : Simulates E R P (pure a) (pure a') :=
  fun _ _ hs => .ok h hs

theorem throw {e e' : ε} (h : E e e') : Simulates E R P (throw e) (throw e') :=
  fun _ _ hs => .error h hs

theorem bind {x x' : EStateM ε σ α} {f f' : α → EStateM ε σ β} (hx : Simulates E R P x x')
    (hf : ∀ a a', P a a' → Simulates E R Q (f a) (f' a')) :
    Simulates E R Q (x >>= f) (x' >>= f') := by
  intro s s' hs
  have h := hx s s' hs
  rw [EStateM.run_bind, EStateM.run_bind]
  generalize x.run s = r at h ⊢
  generalize x'.run s' = r' at h ⊢
  cases h with
  | ok ha hs => exact hf _ _ ha _ _ hs
  | error he hs => exact .error he hs

/-- Steps for the items of a list, and for those that a function makes of them. -/
theorem forM_map {γ : Type} {f f' : γ → EStateM ε σ Unit} (g : γ → γ) (xs : List γ)
    (hf : ∀ x ∈ xs, Simulates E R (fun _ _ => True) (f x) (f' (g x))) :
    Simulates E R (fun _ _ => True) (xs.forM f) ((xs.map g).forM f') := by
  induction xs with
  | nil => exact .pure trivial
  | cons x xs ih =>
    rw [List.forall_mem_cons] at hf
    exact .bind hf.1 fun _ _ _ => ih hf.2

/-- The results of such steps. -/
theorem mapM_map {γ : Type} {f f' : γ → EStateM ε σ β} (g : γ → γ) (xs : List γ)
    (hf : ∀ x, Simulates E R Eq (f x) (f' (g x))) :
    Simulates E R Eq (xs.mapM f) ((xs.map g).mapM f') := by
  induction xs with
  | nil => exact .pure rfl
  | cons x xs ih =>
    rw [List.map_cons, List.mapM_cons, List.mapM_cons]
    refine .bind (hf x) fun _ _ hb => .bind ih fun _ _ hbs => .pure ?_
    rw [hb, hbs]

end Simulates

end Simulation

end StackCompiler
