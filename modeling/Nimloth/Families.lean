import Mathlib.Tactic.Common
import Mathlib.Logic.Function.Basic
import Nimloth.Runs

/-!
# Families of processes

Many processes that run side by side, each by the steps `step` of its
own, and that fork: `fork p f c` says that a process in state `p` may
start one in state `c`. What every process starts with, keeps in each of
its own steps and passes on to its children holds of every process in
every run of the family (`Runs.family_invariant`).
-/

namespace Nimloth

variable {α ε φ : Type*}

inductive FamilyEvent (ε φ : Type*) where
  | step (pid : Nat) (e : ε)
  | fork (pid child : Nat) (f : φ)

/-- A step of one process, or a fork under a number that is not in use; all
others stay as they are. -/
inductive FamilyStep (step : α → ε → α → Prop) (fork : α → φ → α → Prop) :
    (Nat → Option α) → FamilyEvent ε φ → (Nat → Option α) → Prop
  | step {s : Nat → Option α} {pid : Nat} {p p' : α} {e : ε} (hp : s pid = some p)
      (hstep : step p e p') :
      FamilyStep step fork s (.step pid e) (Function.update s pid (some p'))
  | fork {s : Nat → Option α} {pid child : Nat} {p c : α} {f : φ} (hp : s pid = some p)
      (hchild : s child = none) (hfork : fork p f c) :
      FamilyStep step fork s (.fork pid child f) (Function.update s child (some c))

/-- One process and no other. -/
def soleProcess (p : α) : Nat → Option α := Function.update (fun _ => none) 0 (some p)

theorem FamilyStep.alone {step : α → ε → α → Prop} {fork : α → φ → α → Prop} {p p' : α} {e : ε}
    (h : step p e p') : FamilyStep step fork (soleProcess p) (.step 0 e) (soleProcess p') := by
  have hs := @FamilyStep.step _ _ _ step fork (soleProcess p) 0 _ _ _ (Function.update_self ..) h
  rwa [soleProcess, Function.update_idem] at hs

/-- Every process satisfies `I`. -/
def AllIn (I : α → Prop) (s : Nat → Option α) : Prop := ∀ pid p, s pid = some p → I p

theorem AllIn.alone {I : α → Prop} {p : α} (hp : I p) : AllIn I (soleProcess p) := by
  intro pid p' hp'
  by_cases heq : pid = 0
  · subst heq
    rw [soleProcess, Function.update_self, Option.some.injEq] at hp'
    exact hp' ▸ hp
  · rw [soleProcess, Function.update_of_ne heq] at hp'
    cases hp'

theorem AllIn.update {I : α → Prop} {s : Nat → Option α} (h : AllIn I s) (pid : Nat) {p : α}
    (hp : I p) : AllIn I (Function.update s pid (some p)) := by
  intro pid' p' hp'
  by_cases heq : pid' = pid
  · subst heq
    rw [Function.update_self, Option.some.injEq] at hp'
    exact hp' ▸ hp
  · rw [Function.update_of_ne heq] at hp'
    exact h pid' p' hp'

theorem Runs.family_invariant {step : α → ε → α → Prop} {fork : α → φ → α → Prop}
    {I : α → Prop} (hstep : ∀ p e p', I p → step p e p' → I p')
    (hfork : ∀ p f c, I p → fork p f c → I c) {s s' : Nat → Option α}
    {tr : List (FamilyEvent ε φ)} (hinit : AllIn I s)
    (hrun : Runs (FamilyStep step fork) s tr s') : AllIn I s' := by
  refine hrun.invariant hinit fun a e b hI hs => ?_
  cases hs with
  | step hp h => exact hI.update _ (hstep _ _ _ (hI _ _ hp) h)
  | fork hp _ h => exact hI.update _ (hfork _ _ _ (hI _ _ hp) h)

end Nimloth
