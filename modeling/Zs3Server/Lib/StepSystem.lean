import Mathlib.Data.List.Basic
import Mathlib.Logic.Relation

/-!
# Step systems: runs, invariants and completion

A concurrent program is given here as a partial step function `step : σ → α → Option σ`: an action
`a` names the process that moves together with every choice it has (the ready case a select picks,
the outcome of a call into the environment), and `step s a = none` says that the action is not
enabled in `s` — its process is blocked or has ended.

* `runActs` — run a list of actions, failing as soon as one is not enabled;
* `Reaches step ok s s'` — some run leads from `s` to `s'`, every step of it meeting `ok`
  (a condition on the state *before* the step and the action);
* `Reaches.invariant` — a predicate kept by every such step holds in every state reached;
* `guardedStep`, `reaches_of_guarded` — runs whose steps are checked as they are taken;
* `Inevitable` / `inevitable_of_measure` — if every unfinished state of an invariant has an allowed
  step and every allowed step lowers a measure, every maximal run reaches a final state.

Nothing here depends on a program.
-/

namespace Zs3Server.Lib.StepSystem

variable {σ α : Type*}

/-- Run a list of actions from `s`. -/
def runActs (step : σ → α → Option σ) : σ → List α → Option σ
  | s, [] => some s
  | s, a :: as => (step s a).bind fun s' => runActs step s' as

/-- `s'` is reached from `s` by steps that all meet `ok`. -/
inductive Reaches (step : σ → α → Option σ) (ok : σ → α → Prop) (s : σ) : σ → Prop
  | refl : Reaches step ok s s
  | snoc {s₁ s₂ : σ} {a : α} :
      Reaches step ok s s₁ → ok s₁ a → step s₁ a = some s₂ → Reaches step ok s s₂

variable {step : σ → α → Option σ} {ok ok' : σ → α → Prop}

theorem runActs_append (s : σ) (as bs : List α) :
    runActs step s (as ++ bs) = (runActs step s as).bind fun s' => runActs step s' bs := by
  induction as generalizing s with
  | nil => rfl
  | cons a as ih =>
    simp only [List.cons_append, runActs]
    cases step s a with
    | none => rfl
    | some s' => simpa using ih s'

theorem Reaches.trans {s₀ s₁ s₂ : σ} (h₁ : Reaches step ok s₀ s₁) (h₂ : Reaches step ok s₁ s₂) :
    Reaches step ok s₀ s₂ := by
  induction h₂ with
  | refl => exact h₁
  | snoc _ hok hst ih => exact ih.snoc hok hst

theorem Reaches.single {s s' : σ} {a : α} (hok : ok s a) (hst : step s a = some s') :
    Reaches step ok s s' :=
  Reaches.refl.snoc hok hst

/-- **The invariant rule.**  A predicate that holds at the start and is kept by every allowed step
holds in every state reached. -/
theorem Reaches.invariant {s s' : σ} (h : Reaches step ok s s') {I : σ → Prop} (h₀ : I s)
    (hstep : ∀ s₁ a s₂, I s₁ → ok s₁ a → step s₁ a = some s₂ → I s₂) : I s' := by
  induction h with
  | refl => exact h₀
  | snoc _ hok hst ih => exact hstep _ _ _ ih hok hst

/-- A run may be read under another condition that its steps meet in the states of the invariant. -/
theorem Reaches.mono_of_invariant {s s' : σ} (h : Reaches step ok s s') {I : σ → Prop} (h₀ : I s)
    (hstep : ∀ s₁ a s₂, I s₁ → ok s₁ a → step s₁ a = some s₂ → I s₂)
    (himp : ∀ s₁ a, I s₁ → ok s₁ a → ok' s₁ a) : Reaches step ok' s s' := by
  induction h with
  | refl => exact Reaches.refl
  | snoc hprev hok hst ih => exact ih.snoc (himp _ _ (hprev.invariant h₀ hstep) hok) hst

/-- Along the run `as` from `s` every action meets `ok`. -/
def RunOk (step : σ → α → Option σ) (ok : σ → α → Prop) : σ → List α → Prop
  | _, [] => True
  | s, a :: as => ok s a ∧ ∀ s', step s a = some s' → RunOk step ok s' as

/-- A run given by its list of actions reaches its last state. -/
theorem reaches_of_runOk (as : List α) :
    ∀ {s s' : σ}, runActs step s as = some s' → RunOk step ok s as → Reaches step ok s s' := by
  induction as with
  | nil =>
    intro s s' h _
    obtain rfl : s = s' := by simpa [runActs] using h
    exact Reaches.refl
  | cons a as ih =>
    intro s s' h hok
    simp only [runActs] at h
    cases hst : step s a with
    | none => rw [hst] at h; exact absurd h (by simp)
    | some s₁ =>
      rw [hst] at h
      exact (Reaches.single hok.1 hst).trans (ih (by simpa using h) (hok.2 s₁ hst))

theorem runOk_true (as : List α) : ∀ s : σ, RunOk step (fun _ _ => True) s as := by
  induction as with
  | nil => exact fun _ => trivial
  | cons a as ih => exact fun _ => ⟨trivial, fun s' _ => ih s'⟩

theorem reaches_of_runActs (as : List α) {s s' : σ} (h : runActs step s as = some s') :
    Reaches step (fun _ _ => True) s s' :=
  reaches_of_runOk as h (runOk_true as s)

/-- The step function that refuses what `ok` does not allow. -/
def guardedStep (step : σ → α → Option σ) (ok : σ → α → Prop) [∀ s a, Decidable (ok s a)] (s : σ)
    (a : α) : Option σ :=
  if ok s a then step s a else none

/-- A run of the guarded steps is a run whose steps all meet `ok`. -/
theorem reaches_of_guarded [∀ s a, Decidable (ok s a)] (as : List α) :
    ∀ {s s' : σ}, runActs (guardedStep step ok) s as = some s' → Reaches step ok s s' := by
  induction as with
  | nil =>
    intro s s' h
    obtain rfl : s = s' := by simpa [runActs] using h
    exact Reaches.refl
  | cons a as ih =>
    intro s s' h
    by_cases hok : ok s a
    · obtain ⟨s₁, hst, hrest⟩ : ∃ s₁, step s a = some s₁ ∧
          runActs (guardedStep step ok) s₁ as = some s' := by
        simpa [runActs, guardedStep, hok, Option.bind_eq_some_iff] using h
      exact (Reaches.single hok hst).trans (ih hrest)
    · simp [runActs, guardedStep, hok] at h

/-- **`final` is inevitable from `s`**: every maximal run of allowed steps meets it.  Either `s` is
final, or an allowed step is enabled and `final` is inevitable after each of them. -/
inductive Inevitable (step : σ → α → Option σ) (ok : σ → α → Prop) (final : σ → Prop) : σ → Prop
  | now {s : σ} (h : final s) : Inevitable step ok final s
  | later {s : σ} (henabled : ∃ a s', ok s a ∧ step s a = some s')
      (hnext : ∀ a s', ok s a → step s a = some s' → Inevitable step ok final s') :
      Inevitable step ok final s

/-- **The rule for `Inevitable`**: while the state is not final some allowed step is enabled, and every
allowed step keeps the invariant and lowers a well-founded measure. -/
theorem inevitable_of_measure {I final : σ → Prop} {β : Type*} {r : β → β → Prop}
    (hr : WellFounded r) {μ : σ → β}
    (hprog : ∀ s, I s → ¬ final s → ∃ a s', ok s a ∧ step s a = some s')
    (hstep : ∀ s a s', I s → ¬ final s → ok s a → step s a = some s' → I s' ∧ r (μ s') (μ s)) :
    ∀ s, I s → Inevitable step ok final s := by
  intro s
  induction hm : μ s using hr.induction generalizing s with
  | _ m ih =>
    intro hI
    by_cases hf : final s
    · exact .now hf
    · refine .later (hprog s hI hf) ?_
      intro a s' hok hst
      obtain ⟨hI', hlt⟩ := hstep s a s' hI hf hok hst
      exact ih (μ s') (hm ▸ hlt) s' rfl hI'

/-- What is inevitable can be reached. -/
theorem Inevitable.reaches {final : σ → Prop} {s : σ} (h : Inevitable step ok final s) :
    ∃ s', Reaches step ok s s' ∧ final s' := by
  induction h with
  | now h => exact ⟨_, .refl, h⟩
  | later henabled _ ih =>
    obtain ⟨a, s₁, hok, hst⟩ := henabled
    obtain ⟨s', hreach, hf⟩ := ih a s₁ hok hst
    exact ⟨s', (Reaches.single hok hst).trans hreach, hf⟩

end Zs3Server.Lib.StepSystem
