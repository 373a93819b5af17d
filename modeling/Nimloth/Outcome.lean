import Mathlib.Tactic.Common

/-!
# Programs that change a state or stop

A program over a state `σ` that may stop with an error is a function
`σ → Except ε (α × σ)`, written with `do`. `Meets E p s Q` says that from
`s` the program returns with `Q`, or stops with an error that `E` allows;
the rules below take a program apart along its text.
-/

namespace Nimloth

abbrev Outcome (σ ε : Type) := StateT σ (Except ε)

namespace Outcome

variable {σ ε α β : Type}

/-- The program stops. -/
def stop (e : ε) : Outcome σ ε α := fun _ => .error e

/-- `o.unwrap()`; `e` names the panic. -/
def unwrap (e : ε) : Option α → Outcome σ ε α
  | some a => pure a
  | none => stop e

/-- `assert!(c)`. -/
def ensure (e : ε) (c : Prop) [Decidable c] : Outcome σ ε Unit :=
  if c then pure () else stop e

/-- From `s` the program returns with `Q`, or stops with an error of `E`. -/
def Meets (E : ε → Prop) (p : Outcome σ ε α) (s : σ) (Q : α → σ → Prop) : Prop :=
  match p s with
  | .error e => E e
  | .ok (a, s') => Q a s'

namespace Meets

variable {E : ε → Prop} {p : Outcome σ ε α} {s : σ} {Q R : α → σ → Prop}

@[simp] theorem pure_iff {a : α} : Meets E (pure a) s Q ↔ Q a s := Iff.rfl

@[simp] theorem stop_iff {e : ε} : Meets E (stop e : Outcome σ ε α) s Q ↔ E e := Iff.rfl

@[simp] theorem get_iff {Q : σ → σ → Prop} :
    Meets E (get : Outcome σ ε σ) s Q ↔ Q s s := Iff.rfl

@[simp] theorem set_iff {t : σ} {Q : PUnit → σ → Prop} :
    Meets E (set t : Outcome σ ε PUnit) s Q ↔ Q ⟨⟩ t := Iff.rfl

@[simp] theorem modify_iff {f : σ → σ} {Q : PUnit → σ → Prop} :
    Meets E (modify f : Outcome σ ε PUnit) s Q ↔ Q ⟨⟩ (f s) := Iff.rfl

@[simp] theorem bind_iff {f : α → Outcome σ ε β} {Q : β → σ → Prop} :
    Meets E (p >>= f) s Q ↔ Meets E p s fun a s' => Meets E (f a) s' Q := by
  have hbind : (p >>= f) s = match p s with
      | .error e => .error e
      | .ok (a, s') => f a s' := by
    show (p s >>= fun r => f r.1 r.2) = _
    cases p s with
    | error e => rfl
    | ok r => rfl
  unfold Meets
  rw [hbind]
  cases p s with
  | error e => rfl
  | ok r => rfl

@[simp] theorem unwrap_some {e : ε} {a : α} :
    Meets E (unwrap e (some a) : Outcome σ ε α) s Q ↔ Q a s := Iff.rfl

@[simp] theorem unwrap_none {e : ε} :
    Meets E (unwrap e none : Outcome σ ε α) s Q ↔ E e := Iff.rfl

@[simp] theorem ensure_iff {e : ε} {c : Prop} [Decidable c] {Q : Unit → σ → Prop} :
    Meets E (ensure e c : Outcome σ ε Unit) s Q ↔ (c → Q () s) ∧ (¬ c → E e) := by
  unfold ensure
  by_cases hc : c
  · simp [hc]
  · simp [hc]

theorem mono (h : Meets E p s Q) (hQ : ∀ a s', Q a s' → R a s') : Meets E p s R := by
  unfold Meets at h ⊢
  split
  · next e he =>
      rw [he] at h
      exact h
  · next a s' ha =>
      rw [ha] at h
      exact hQ _ _ h

theorem trivial : Meets (fun _ => True) p s fun _ _ => True := by
  unfold Meets
  split
  · exact True.intro
  · exact True.intro

theorem weaken {F : ε → Prop} (h : Meets E p s Q) (hF : ∀ e, E e → F e) : Meets F p s Q := by
  unfold Meets at h ⊢
  split
  · next e he =>
      rw [he] at h
      exact hF e h
  · next a s' ha =>
      rw [ha] at h
      exact h

/-- Two specifications of one program; the first says how it stops. -/
theorem and (h : Meets E p s Q) (h' : Meets (fun _ => True) p s R) :
    Meets E p s fun a s' => Q a s' ∧ R a s' := by
  unfold Meets at h h' ⊢
  split
  · next e he =>
      rw [he] at h
      exact h
  · next a s' ha =>
      rw [ha] at h h'
      exact ⟨h, h'⟩

theorem ok {a : α} {s' : σ} (h : Meets E p s Q) (hp : p s = .ok (a, s')) : Q a s' := by
  unfold Meets at h
  rwa [hp] at h

theorem of_error {e : ε} (h : Meets E p s Q) (hp : p s = .error e) : E e := by
  unfold Meets at h
  rwa [hp] at h

theorem of_ok {a : α} {s' : σ} (hp : p s = .ok (a, s')) (hQ : Q a s') : Meets E p s Q := by
  unfold Meets
  rwa [hp]

/-- A program that may not stop returns. -/
theorem exists_ok (h : Meets (fun _ : ε => False) p s Q) : ∃ a s', p s = .ok (a, s') ∧ Q a s' := by
  unfold Meets at h
  cases hp : p s with
  | error e =>
      rw [hp] at h
      exact h.elim
  | ok r =>
      rw [hp] at h
      exact ⟨r.1, r.2, rfl, h⟩

end Meets

attribute [irreducible] Meets

end Outcome

end Nimloth
