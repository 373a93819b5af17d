import Mathlib.Tactic.Common
import Nimloth.KernelSteps

/-!
# What an event leaves of the control blocks

Signals, scheduling, exits and transfers on pipes change the control
blocks in their status, signal fields, used slice and place in the
process tree only. A part of the control block that does not depend on
these (`Untouched`), such as the descriptor table or the level, is the
same in every process before and after such an event (`SameField`). Such
an event also names no process and no file object (`names`).
-/

namespace Nimloth

variable {α : Type*} {g : Pcb → α}

structure Untouched (g : Pcb → α) : Prop where
  status : ∀ (inner : Pcb) s, g { inner with processStatus := s } = g inner
  sig : ∀ (inner : Pcb) s, g { inner with sig := s } = g inner
  used : ∀ (inner : Pcb) n, g { inner with timeSliceUsed := n } = g inner
  tree : ∀ (inner : Pcb) s code parent children, g { inner with
    processStatus := s, exitCode := code, parent := parent, children := children } = g inner

namespace Kernel

/-- No process is created or freed, and `g` is the same in each. -/
def SameField (g : Pcb → α) (k k' : Kernel) : Prop :=
  ∀ q, (k'.procs q).map g = (k.procs q).map g

namespace SameField

variable {k k' : Kernel}

theorem refl (g : Pcb → α) (k : Kernel) : SameField g k k := fun _ => rfl

theorem trans {k₁ k₂ k₃ : Kernel} (h : SameField g k₁ k₂) (h' : SameField g k₂ k₃) :
    SameField g k₁ k₃ :=
  fun q => (h' q).trans (h q)

theorem mapProcs (k : Kernel) {f : Nat → Pcb → Pcb} (hf : ∀ q inner, g (f q inner) = g inner) :
    SameField g k (k.mapProcs f) :=
  fun q => mapProcs_field k f g q (hf q)

/-- The control block of `p` with a new status. -/
theorem status (hg : Untouched g) (k : Kernel) (p : Nat) (s : ProcessStatus) :
    SameField g k
      (k.mapProcs fun q inner => if q = p then { inner with processStatus := s } else inner) := by
  refine mapProcs k fun q inner => ?_
  split
  · exact hg.status inner s
  · rfl

theorem modifyProc (k : Kernel) (p : Nat) {f : Pcb → Pcb} (hf : ∀ inner, g (f inner) = g inner) :
    SameField g k (k.modifyProc p f) := by
  rw [modifyProc_eq]
  refine mapProcs k fun q inner => ?_
  split
  · exact hf inner
  · rfl

theorem suspended (hg : Untouched g) (k : Kernel) (p : Nat) : SameField g k (k.suspended p) :=
  status hg k p .ready

theorem suspend (hg : Untouched g) (h : k.suspendCurrentAndRunNext = .ok k') :
    SameField g k k' := by
  cases hp : k.current with
  | none =>
      rw [suspend_none hp] at h
      cases h
  | some p =>
      obtain rfl := suspend_ok h hp
      exact suspended hg k p

theorem fetch (hg : Untouched g) (k : Kernel) : SameField g k k.runProcess := by
  rcases runProcess_cases k with ⟨-, hk⟩ | ⟨p, qs, -, hk⟩
  · rw [hk]
    exact refl g k
  · rw [hk]
    exact status hg k p .running

theorem exit (hg : Untouched g) {exitCode : Int} (h : k.exitCurrentAndRunNext exitCode = .ok k') :
    SameField g k k' := by
  cases hp : k.current with
  | none =>
      simp only [exitCurrentAndRunNext, takeCurrentProcess, hp] at h
      cases h
  | some p =>
      obtain ⟨-, rfl⟩ := exit_ok hp h
      exact mapProcs k fun q inner => hg.tree inner _ _ _ _

theorem modifySignals (hg : Untouched g) {f : SignalState → SignalState}
    (h : k.modifySignals f = .ok k') : SameField g k k' := by
  unfold Kernel.modifySignals at h
  split at h
  · cases h
  · cases h
    exact modifyProc k _ fun inner => hg.sig inner _

theorem timer (hg : Untouched g) (h : k.timerInterrupt = .ok k') : SameField g k k' := by
  cases hcur : k.currentInner with
  | none =>
      unfold timerInterrupt at h
      rw [hcur] at h
      exact suspend hg h
  | some pi =>
      obtain ⟨p, inner⟩ := pi
      rw [timer_eq hcur] at h
      split at h
      · cases h
      · cases h
        have hused := modifyProc k p
          (f := fun i => { i with timeSliceUsed := inner.timeSliceUsed + 1 })
          fun i => hg.used i (inner.timeSliceUsed + 1)
        exact hused.trans (suspended hg _ p)

theorem handleSignals (hg : Untouched g) (h : k.handleSignals = .ok k') : SameField g k k' := by
  unfold Kernel.handleSignals at h
  split at h
  · cases h
  · next p inner hcur =>
      have hsig := modifyProc k p (f := fun i => { i with sig := checkPendingSignals inner.sig })
        fun i => hg.sig i (checkPendingSignals inner.sig)
      dsimp only at h
      split at h
      · exact hsig.trans (suspend hg h)
      · split at h
        · exact hsig.trans (exit hg h)
        · cases h
          exact hsig

theorem sigreturn (hg : Untouched g) (h : k.sigreturn = .ok k') : SameField g k k' := by
  unfold Kernel.sigreturn at h
  split at h
  · cases h
  · split at h
    · cases h
    · exact modifySignals hg h

theorem kill (hg : Untouched g) (k : Kernel) (pid : Nat) (signum : Int) :
    SameField g k (k.sysKill pid signum).2 := by
  unfold sysKill
  split
  · exact refl g k
  · exact modifyProc k _ fun inner => hg.sig inner _

theorem runCall (hg : Untouched g) {p file buffer : Nat} {call : PipeCall}
    (h : k.runCall p file buffer call = .ok k') : SameField g k k' := by
  unfold Kernel.runCall at h
  dsimp only at h
  split at h
  · cases h
  · cases h
    exact refl g k
  · exact fun q => suspend hg h q

theorem io (hg : Untouched g) {fd : Nat} {write : Bool} {call : PipeCall}
    (h : k.sysIo fd write call = .ok k') : SameField g k k' := by
  unfold sysIo at h
  split at h
  · cases h
  · split at h
    · cases h
      exact refl g k
    · split at h
      · split at h
        · exact runCall hg h
        · cases h
          exact refl g k
      · cases h
        exact refl g k

theorem resume (hg : Untouched g) (h : k.resumeCall = .ok k') : SameField g k k' := by
  unfold resumeCall at h
  split at h
  · cases h
  · split at h
    · cases h
      exact refl g k
    · split at h
      · exact runCall hg h
      · cases h
        exact refl g k

/-! Calls that only change the descriptor table of the current process. -/

theorem pipe (hg : ∀ (inner : Pcb) t, g { inner with fdTable := t } = g inner) {r : Int}
    (h : k.sysPipe = .ok (r, k')) : SameField g k k' := by
  unfold sysPipe at h
  split at h
  · cases h
  · cases h
    exact modifyProc k _ (f := fun i => { i with fdTable := _ }) fun inner => hg inner _

theorem close (hg : ∀ (inner : Pcb) t, g { inner with fdTable := t } = g inner) {fd : Nat}
    {r : Int} (h : k.sysClose fd = .ok (r, k')) : SameField g k k' := by
  unfold sysClose at h
  split at h
  · cases h
  · split at h
    · cases h
      exact refl g k
    · cases h
      exact modifyProc k _ fun inner => hg inner _

theorem dup (hg : ∀ (inner : Pcb) t, g { inner with fdTable := t } = g inner) {fd : Nat}
    {r : Int} (h : k.sysDup fd = .ok (r, k')) : SameField g k k' := by
  unfold sysDup at h
  split at h
  · cases h
  · split at h
    · cases h
      exact refl g k
    · cases h
      exact modifyProc k _ fun inner => hg inner _

end SameField

/-- The event creates and frees no process and touches no descriptor table. -/
def Plain : KEvent → Prop
  | .fork | .waitpid _ | .pipe | .close _ | .dup _ => False
  | _ => True

theorem SameField.perform (hg : Untouched g) {k k' : Kernel} {e : KEvent} (he : Plain e)
    (h : k.perform e = .ok k') : SameField g k k' := by
  cases e with
  | fetch =>
      cases h
      exact .fetch hg k
  | timer => exact .timer hg h
  | fault signal =>
      simp only [Kernel.perform, currentAddSignal] at h
      exact .modifySignals hg h
  | handleSignals => exact .handleSignals hg h
  | yield => exact .suspend hg h
  | exec cx =>
      simp only [Kernel.perform, Kernel.exec] at h
      exact .modifySignals hg h
  | exit exitCode => exact .exit hg h
  | kill pid signum =>
      cases h
      exact .kill hg k pid signum
  | sigprocmask mask =>
      simp only [Kernel.perform] at h
      exact .modifySignals hg h
  | sigaction signum action oldAction new =>
      simp only [Kernel.perform] at h
      exact .modifySignals hg h
  | sigreturn => exact .sigreturn hg h
  | read fd len => exact .io hg h
  | write fd buf => exact .io hg h
  | resume => exact .resume hg h
  | fork => exact he.elim
  | waitpid pid => exact he.elim
  | pipe => exact he.elim
  | close fd => exact he.elim
  | dup fd => exact he.elim

/-! ## Names -/

/-- The names given out so far and the file objects behind them. -/
def names (k : Kernel) : Nat × Nat × (Nat → Option FileObj) := (k.nextProc, k.nextFile, k.files)

section Names

variable {k k' : Kernel}

theorem names_suspend (h : k.suspendCurrentAndRunNext = .ok k') : k'.names = k.names := by
  cases hp : k.current with
  | none =>
      rw [suspend_none hp] at h
      cases h
  | some p =>
      obtain rfl := suspend_ok h hp
      rfl

theorem names_exit {exitCode : Int} (h : k.exitCurrentAndRunNext exitCode = .ok k') :
    k'.names = k.names := by
  cases hp : k.current with
  | none =>
      simp only [exitCurrentAndRunNext, takeCurrentProcess, hp] at h
      cases h
  | some p =>
      obtain ⟨-, rfl⟩ := exit_ok hp h
      rfl

theorem names_modifySignals {f : SignalState → SignalState} (h : k.modifySignals f = .ok k') :
    k'.names = k.names := by
  unfold Kernel.modifySignals at h
  split at h
  · cases h
  · cases h
    rfl

theorem names_timer (h : k.timerInterrupt = .ok k') : k'.names = k.names := by
  cases hcur : k.currentInner with
  | none =>
      unfold timerInterrupt at h
      rw [hcur] at h
      exact names_suspend h
  | some pi =>
      obtain ⟨p, inner⟩ := pi
      rw [timer_eq hcur] at h
      split at h
      · cases h
      · cases h
        rfl

theorem names_handleSignals (h : k.handleSignals = .ok k') : k'.names = k.names := by
  unfold Kernel.handleSignals at h
  split at h
  · cases h
  · dsimp only at h
    split at h
    · exact (names_suspend h).trans rfl
    · split at h
      · exact (names_exit h).trans rfl
      · cases h
        rfl

theorem names_sigreturn (h : k.sigreturn = .ok k') : k'.names = k.names := by
  unfold Kernel.sigreturn at h
  split at h
  · cases h
  · split at h
    · cases h
    · exact names_modifySignals h

theorem names_kill (k : Kernel) (pid : Nat) (signum : Int) :
    (k.sysKill pid signum).2.names = k.names := by
  unfold sysKill
  split <;> rfl

theorem names_runCall {p file buffer : Nat} {call : PipeCall}
    (h : k.runCall p file buffer call = .ok k') : k'.names = k.names := by
  unfold Kernel.runCall at h
  dsimp only at h
  split at h
  · cases h
  · cases h
    rfl
  · exact (names_suspend h).trans rfl

theorem names_io {fd : Nat} {write : Bool} {call : PipeCall} (h : k.sysIo fd write call = .ok k') :
    k'.names = k.names := by
  unfold sysIo at h
  split at h
  · cases h
  · split at h
    · cases h
      rfl
    · split at h
      · split at h
        · exact names_runCall h
        · cases h
          rfl
      · cases h
        rfl

theorem names_resume (h : k.resumeCall = .ok k') : k'.names = k.names := by
  unfold resumeCall at h
  split at h
  · cases h
  · split at h
    · cases h
      rfl
    · split at h
      · exact names_runCall h
      · cases h
        rfl

theorem names_perform {e : KEvent} (he : Plain e) (h : k.perform e = .ok k') :
    k'.names = k.names := by
  cases e with
  | fetch =>
      cases h
      rcases runProcess_cases k with ⟨-, hk⟩ | ⟨p, qs, -, hk⟩
      · rw [hk]
      · rw [hk]
        rfl
  | timer => exact names_timer h
  | fault signal =>
      simp only [perform, currentAddSignal] at h
      exact names_modifySignals h
  | handleSignals => exact names_handleSignals h
  | yield => exact names_suspend h
  | exec cx =>
      simp only [perform, exec] at h
      exact names_modifySignals h
  | exit exitCode => exact names_exit h
  | kill pid signum =>
      cases h
      exact names_kill k pid signum
  | sigprocmask mask =>
      simp only [perform] at h
      exact names_modifySignals h
  | sigaction signum action oldAction new =>
      simp only [perform] at h
      exact names_modifySignals h
  | sigreturn => exact names_sigreturn h
  | read fd len => exact names_io h
  | write fd buf => exact names_io h
  | resume => exact names_resume h
  | fork => exact he.elim
  | waitpid pid => exact he.elim
  | pipe => exact he.elim
  | close fd => exact he.elim
  | dup fd => exact he.elim

end Names

end Kernel

end Nimloth
