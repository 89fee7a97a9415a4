import Mathlib.Tactic.Common

/-!
# Runs of fallible steps

A stateful program is a fold of a step function in `Except`. An outcome is read
back through its successful prefix: the composition lemma peels one step, and the
two run rules lift a step-wise invariant and a step-wise simulation to every
successful run.
-/

namespace Bubi.Core

universe u v

variable {ε : Type u} {σ a b : Type v} {τ ω : Type*}

/-- A successful sequence is a successful first step followed by a successful rest. -/
theorem bind_eq_ok {x : Except ε a} {f : a → Except ε b} {r : b} :
    (x >>= f) = .ok r ↔ ∃ v, x = .ok v ∧ f v = .ok r := by
  cases x with
  | error e => simp [bind, Except.bind]
  | ok v => simp [bind, Except.bind]

@[simp] theorem ok_bind (v : a) (f : a → Except ε b) : (Except.ok v >>= f) = f v := rfl

@[simp] theorem error_bind (e : ε) (f : a → Except ε b) :
    ((Except.error e : Except ε a) >>= f) = .error e := rfl

/-- A sequence avoids an error that neither of its parts can end with. -/
theorem bind_ne_error {x : Except ε a} {f : a → Except ε b} {e : ε} (hx : x ≠ .error e)
    (hf : ∀ v, x = .ok v → f v ≠ .error e) : (x >>= f) ≠ .error e := by
  cases x with
  | error e' => exact fun h => hx (congrArg Except.error (Except.error.inj h))
  | ok v => exact hf v rfl

/-- An outcome that evaluates to a success is one. -/
theorem exists_of_isOk {x : Except ε a} (h : x.isOk = true) : ∃ v, x = .ok v := by
  cases x with
  | error e => cases h
  | ok v => exact ⟨v, rfl⟩

/-- An outcome is given by its evaluated result. -/
theorem eq_ok_of_toOption {x : Except ε a} {v : a} (h : x.toOption = some v) : x = .ok v := by
  cases x with
  | error e => cases h
  | ok w => exact congrArg Except.ok (Option.some.inj h)

/-- The error of an outcome that failed. -/
def fault : Except ε a → Option ε
  | .error e => some e
  | .ok _ => none

/-- A failed outcome is given by its evaluated error. -/
theorem eq_error_of_fault {x : Except ε a} {e : ε} (h : fault x = some e) : x = .error e := by
  cases x with
  | error e' => exact congrArg Except.error (Option.some.inj h)
  | ok v => cases h

/-- Two outcomes fail alike, or succeed with related results. -/
inductive Rel (P : a → b → Prop) : Except ε a → Except ε b → Prop
  /-- Both succeed. -/
  | ok {v : a} {w : b} (h : P v w) : Rel P (.ok v) (.ok w)
  /-- Both fail, with the same error. -/
  | error (e : ε) : Rel P (.error e) (.error e)

/-- Related outcomes followed by related continuations are related. -/
theorem Rel.bind {c d : Type v} {P : a → b → Prop} {Q : c → d → Prop} {x : Except ε a}
    {y : Except ε b} {f : a → Except ε c} {g : b → Except ε d} (h : Rel P x y)
    (hfg : ∀ v w, P v w → Rel Q (f v) (g w)) : Rel Q (x >>= f) (y >>= g) := by
  cases h with
  | ok hvw => exact hfg _ _ hvw
  | error e => exact .error e

/-- A weaker relation of the results. -/
theorem Rel.mono {P Q : a → b → Prop} {x : Except ε a} {y : Except ε b} (h : Rel P x y)
    (hPQ : ∀ v w, P v w → Q v w) : Rel Q x y := by
  cases h with
  | ok hvw => exact .ok (hPQ _ _ hvw)
  | error e => exact .error e

/-- Two outcomes that are related to a third one are related to each other. -/
theorem Rel.join {c : Type v} {P : a → c → Prop} {Q : b → c → Prop} {x : Except ε a}
    {y : Except ε b} {z : Except ε c} (h : Rel P x z) (h' : Rel Q y z) :
    Rel (fun v w => ∃ u, z = .ok u ∧ P v u ∧ Q w u) x y := by
  cases h with
  | ok hv =>
    cases h' with
    | ok hw => exact .ok ⟨_, rfl, hv, hw⟩
  | error e =>
    cases h' with
    | error _ => exact .error e

/-- A successful outcome is related to a successful one. -/
theorem Rel.exists_ok {P : a → b → Prop} {x : Except ε a} {y : Except ε b} (h : Rel P x y)
    {v : a} (hx : x = .ok v) : ∃ w, y = .ok w ∧ P v w := by
  cases h with
  | ok hvw => exact ⟨_, rfl, Except.ok.inj hx ▸ hvw⟩
  | error e => cases hx

theorem Rel.exists_left {P : a → b → Prop} {x : Except ε a} {w : b} (h : Rel P x (.ok w)) :
    ∃ v, x = .ok v ∧ P v w := by
  cases h with
  | ok hvw => exact ⟨_, rfl, hvw⟩

theorem Rel.error_right {P : a → b → Prop} {e : ε} {x : Except ε a} (h : Rel P x (.error e)) :
    x = .error e := by
  cases h with
  | error _ => rfl

theorem Rel.error_left {P : a → b → Prop} {e : ε} {y : Except ε b} (h : Rel P (.error e) y) :
    y = .error e := by
  cases h with
  | error _ => rfl

/-- A run of no steps succeeds only at its own starting state. -/
@[simp] theorem foldlM_nil_ok {step : σ → ω → Except ε σ} {s s' : σ} :
    List.foldlM step s [] = .ok s' ↔ s = s' := by
  simp [List.foldlM, pure, Except.pure]

/-- A run of one more step succeeds exactly through its first successor. -/
theorem foldlM_cons_ok {step : σ → ω → Except ε σ} {s s' : σ} {o : ω} {os : List ω} :
    List.foldlM step s (o :: os) = .ok s' ↔
      ∃ m, step s o = .ok m ∧ List.foldlM step m os = .ok s' := by
  rw [List.foldlM_cons, bind_eq_ok]

/-- A run over a concatenation succeeds exactly through the state in between. -/
theorem foldlM_append_ok {step : σ → ω → Except ε σ} {s s' : σ} {os os' : List ω} :
    List.foldlM step s (os ++ os') = .ok s' ↔
      ∃ m, List.foldlM step s os = .ok m ∧ List.foldlM step m os' = .ok s' := by
  rw [List.foldlM_append, bind_eq_ok]

/-- A run that reaches a condition reaches it first by one of its steps. -/
theorem exists_first_step {step : σ → ω → Except ε σ} {P : σ → Prop} {os : List ω} {s s' : σ}
    (hs : ¬ P s) (hs' : P s') (hrun : List.foldlM step s os = .ok s') :
    ∃ pre o post m m', os = pre ++ o :: post ∧ List.foldlM step s pre = .ok m ∧ ¬ P m ∧
      step m o = .ok m' ∧ P m' ∧ List.foldlM step m' post = .ok s' := by
  induction os generalizing s with
  | nil =>
    rw [foldlM_nil_ok] at hrun
    exact absurd (hrun ▸ hs') hs
  | cons o os ih =>
    obtain ⟨m, hm, hrun⟩ := foldlM_cons_ok.mp hrun
    by_cases hPm : P m
    · exact ⟨[], o, os, s, m, rfl, rfl, hs, hm, hPm, hrun⟩
    · obtain ⟨pre, o', post, m₁, m₂, rfl, hpre, hm₁, hstep, hm₂, hpost⟩ := ih hPm hrun
      exact ⟨o :: pre, o', post, m₁, m₂, rfl, foldlM_cons_ok.mpr ⟨m, hm, hpre⟩, hm₁, hstep, hm₂,
        hpost⟩

/-- What every step of a run preserves, where it is taken, holds after the run. -/
theorem run_invariant_steps {step : σ → ω → Except ε σ} {P : σ → Prop} {os : List ω} {s₀ : σ}
    (hstep : ∀ pre o post s s', os = pre ++ o :: post → List.foldlM step s₀ pre = .ok s →
      P s → step s o = .ok s' → P s') {s' : σ} (hs : P s₀)
    (hrun : List.foldlM step s₀ os = .ok s') : P s' := by
  have hrest : ∀ rest pre s, os = pre ++ rest → List.foldlM step s₀ pre = .ok s → P s →
      List.foldlM step s rest = .ok s' → P s' := by
    intro rest
    induction rest with
    | nil => exact fun pre s _ _ hs hrun => foldlM_nil_ok.mp hrun ▸ hs
    | cons o rest ih =>
      intro pre s hos hpre hs hrun
      obtain ⟨m, hm, hrun⟩ := foldlM_cons_ok.mp hrun
      refine ih (pre ++ [o]) m ?_ ?_ (hstep pre o rest s m hos hpre hs hm) hrun
      · rw [hos, List.append_assoc, List.singleton_append]
      · exact foldlM_append_ok.mpr ⟨s, hpre, foldlM_cons_ok.mpr ⟨m, hm, rfl⟩⟩
  exact hrest os [] s₀ rfl rfl hs hrun

/-- What every successful step of a run preserves holds after the run. -/
theorem run_invariant_mem {step : σ → ω → Except ε σ} {P : σ → Prop} {os : List ω}
    (hstep : ∀ s o s', o ∈ os → P s → step s o = .ok s' → P s') {s s' : σ}
    (hs : P s) (hrun : List.foldlM step s os = .ok s') : P s' := by
  refine run_invariant_steps (fun pre o post m m' hos _ => ?_) hs hrun
  exact hstep m o m' (hos ▸ List.mem_append_right _ List.mem_cons_self)

/-- What every successful step preserves holds after every successful run. -/
theorem run_invariant {step : σ → ω → Except ε σ} {P : σ → Prop}
    (hstep : ∀ s o s', P s → step s o = .ok s' → P s') {os : List ω} {s s' : σ}
    (hs : P s) (hrun : List.foldlM step s os = .ok s') : P s' :=
  run_invariant_mem (fun s o s' _ => hstep s o s') hs hrun

/-- A step-wise simulation by a total specification extends to whole runs. -/
theorem run_simulation {step : σ → ω → Except ε σ} {spec : τ → ω → τ} {R : σ → τ → Prop}
    (hstep : ∀ s o s' t, R s t → step s o = .ok s' → R s' (spec t o)) {os : List ω}
    {s s' : σ} {t : τ} (hs : R s t) (hrun : List.foldlM step s os = .ok s') :
    R s' (os.foldl spec t) := by
  induction os generalizing s t with
  | nil => exact foldlM_nil_ok.mp hrun ▸ hs
  | cons o os ih =>
    obtain ⟨m, hm, hrest⟩ := foldlM_cons_ok.mp hrun
    exact ih (hstep s o m t hs hm) hrest

end Bubi.Core
