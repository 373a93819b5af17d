import Mathlib.Tactic.Common

/-!
# Labelled runs

A transition relation `step : σ → ε → σ → Prop` labels every step with
the event it performs; a run `Runs step s tr s'` is a finite sequence of
such steps, its trace `tr` in execution order. Runs grow at the end
(`snoc`), so that one forward induction carries an invariant of the
state together with facts about the whole trace.

Three rules are all the files above need: an inductive invariant
holds wherever a run ends (`Runs.invariant`, and `Runs.trace_invariant`
when it mentions the trace), and a forward simulation turns a run of
one system into a run of the other with the same trace
(`Runs.simulation`).
-/

namespace Nimloth

/-- A finite run of a labelled transition relation, with its trace. -/
inductive Runs {σ ε : Type*} (step : σ → ε → σ → Prop) : σ → List ε → σ → Prop
  | nil (s : σ) : Runs step s [] s
  | snoc {s t u : σ} {tr : List ε} {e : ε} :
      Runs step s tr t → step t e u → Runs step s (tr ++ [e]) u

namespace Runs

variable {σ ε : Type*} {step : σ → ε → σ → Prop}

theorem single {s t : σ} {e : ε} (h : step s e t) : Runs step s [e] t :=
  snoc (nil s) h

theorem append {s t u : σ} {tr tr' : List ε} (h : Runs step s tr t)
    (h' : Runs step t tr' u) : Runs step s (tr ++ tr') u := by
  induction h' with
  | nil => simpa using h
  | snoc _ hstep ih =>
      rw [← List.append_assoc]
      exact snoc ih hstep

theorem cons {s t u : σ} {tr : List ε} {e : ε} (h : step s e t)
    (h' : Runs step t tr u) : Runs step s (e :: tr) u :=
  append (single h) h'

/-- The last step of a run. -/
theorem snoc_inv {s u : σ} {tr : List ε} {e : ε} (h : Runs step s (tr ++ [e]) u) :
    ∃ t, Runs step s tr t ∧ step t e u := by
  generalize hl : tr ++ [e] = l at h
  cases h with
  | nil => simp at hl
  | snoc hrun hs =>
      obtain ⟨rfl, heq⟩ := List.append_inj' hl rfl
      cases heq
      exact ⟨_, hrun, hs⟩

theorem nil_inv {s t : σ} (h : Runs step s [] t) : t = s := by
  generalize hl : ([] : List ε) = l at h
  cases h with
  | nil => rfl
  | snoc _ _ => simp at hl

theorem single_inv {s t : σ} {e : ε} (h : Runs step s [e] t) : step s e t := by
  have hrun : Runs step s ([] ++ [e]) t := h
  obtain ⟨t', hnil, hs⟩ := hrun.snoc_inv
  rwa [hnil.nil_inv] at hs

/-- A deterministic relation has one run for every trace. -/
theorem deterministic (hdet : ∀ a e b b', step a e b → step a e b' → b = b') {s t t' : σ}
    {tr : List ε} (h : Runs step s tr t) (h' : Runs step s tr t') : t = t' := by
  induction h generalizing t' with
  | nil => exact h'.nil_inv.symm
  | snoc _ hs ih =>
      obtain ⟨u, hrun, hs'⟩ := h'.snoc_inv
      obtain rfl := ih hrun
      exact hdet _ _ _ _ hs hs'

/-- A run of one relation is a run of every weaker one. -/
theorem mono {step' : σ → ε → σ → Prop} {s t : σ} {tr : List ε} (h : Runs step s tr t)
    (hstep : ∀ a e b, step a e b → step' a e b) : Runs step' s tr t := by
  induction h with
  | nil => exact nil _
  | snoc _ hs ih => exact snoc ih (hstep _ _ _ hs)

/-- An inductive invariant holds in the last state of every run. -/
theorem invariant {s t : σ} {tr : List ε} (h : Runs step s tr t)
    {I : σ → Prop} (hinit : I s)
    (hstep : ∀ a e b, I a → step a e b → I b) : I t := by
  induction h with
  | nil => exact hinit
  | snoc _ hs ih => exact hstep _ _ _ ih hs

/-- The same rule for invariants that speak about the trace as well. -/
theorem trace_invariant {s t : σ} {tr : List ε} (h : Runs step s tr t)
    {I : List ε → σ → Prop} (hinit : I [] s)
    (hstep : ∀ tr a e b, I tr a → step a e b → I (tr ++ [e]) b) : I tr t := by
  induction h with
  | nil => exact hinit
  | snoc _ hs ih => exact hstep _ _ _ _ ih hs

/-- Forward simulation: related states stay related and the abstract
system performs the very same trace. -/
theorem simulation {τ : Type*} {step' : τ → ε → τ → Prop} {R : σ → τ → Prop}
    (hstep : ∀ a e b a', R a a' → step a e b → ∃ b', R b b' ∧ step' a' e b')
    {s t : σ} {tr : List ε} (h : Runs step s tr t) {s' : τ} (hinit : R s s') :
    ∃ t', R t t' ∧ Runs step' s' tr t' := by
  induction h with
  | nil => exact ⟨s', hinit, nil s'⟩
  | snoc _ hs ih =>
      obtain ⟨t', hR, hrun⟩ := ih
      obtain ⟨u', hR', hs'⟩ := hstep _ _ _ _ hR hs
      exact ⟨u', hR', snoc hrun hs'⟩

end Runs

end Nimloth
