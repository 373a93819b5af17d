import Mathlib.Tactic.Common
import Nimloth.Families
import Nimloth.Kernel
import Nimloth.SignalExec

/-!
# Returning without a handler

Any program can call `sigreturn`, whether or not it is in a handler. The
processes here run, are sent signals, enter handlers, call `exec` and
fork, and each carries the contexts its outstanding handlers interrupted
(`HandlerRun`); a child and a new image have none. A `sys_sigreturn`
without one should be refused with `-1`.

The code asks only `trap_ctx_backup`, which is set at a delivery and
never cleared on return. So the call panics the kernel before the first
delivery and in a child, and puts an old context back after the last
return (`sigreturn_guarded_iff`).
-/

namespace Nimloth

/-- The signal state of the child of `fork`. -/
def SignalState.forked (p : SignalState) (kernelSp : UInt64) : SignalState :=
  { p with
    signals := 0
    handlingSig := none
    killed := false
    frozen := false
    trapCtxBackup := none
    trapCx := { p.trapCx with kernelSp := kernelSp, x := p.trapCx.x.set 10 0 a0_lt } }

/-! ## Processes -/

inductive ReturnEvent where
  | handler (e : HandlerEvent)
  | exec (cx : TrapContext)

/-- The steps of one process. `stale` is a `sys_sigreturn` with no handler
outstanding that does not panic. -/
inductive ReturnStep : HandlerRun → ReturnEvent → HandlerRun → Prop
  | handler {s s' : HandlerRun} {e : HandlerEvent} (h : HandlerStep s e s') :
      ReturnStep s (.handler e) s'
  | stale {s : HandlerRun} {p : SignalState} (hnone : s.interrupted = [])
      (hret : sigreturnTrap s.proc = some p) :
      ReturnStep s (.handler .sigreturn) { proc := p, interrupted := [] }
  | exec {s : HandlerRun} (cx : TrapContext) :
      ReturnStep s (.exec cx) { proc := { s.proc with trapCx := cx }, interrupted := [] }

/-- A child starts with no handler outstanding. -/
def ReturnFork (s : HandlerRun) (kernelSp : UInt64) (c : HandlerRun) : Prop :=
  c = { proc := s.proc.forked kernelSp, interrupted := [] }

abbrev ReturnFamilyStep := FamilyStep ReturnStep ReturnFork

/-- initproc after boot. -/
def returnBoot (cx : TrapContext) : Nat → Option HandlerRun :=
  soleProcess { proc := .new cx, interrupted := [] }

/-! ## What a `sys_sigreturn` should do -/

namespace SignalState

/-- The trap context after a system call that returned `-1`. -/
def refusedCx (p : SignalState) : TrapContext :=
  { p.trapCx with
    sepc := p.trapCx.sepc + 4
    x := p.trapCx.x.set 10 0xFFFFFFFFFFFFFFFF a0_lt }

/-- The call returned `-1` and changed nothing. -/
def refused (p : SignalState) : SignalState := { p with trapCx := p.refusedCx }

end SignalState

/-- The call does not panic, and is refused when no handler is outstanding. -/
def HandlerRun.ReturnGuarded (s : HandlerRun) : Prop :=
  sigreturnTrap s.proc ≠ none
    ∧ (s.interrupted = [] → sigreturnTrap s.proc = some s.proc.refused)

/-- A handler is outstanding; or no signal is being handled and the old context
in the slot happens to be the one a refused call leaves. -/
def HandlerRun.MayReturn (s : HandlerRun) : Prop :=
  s.interrupted ≠ []
    ∨ (s.proc.handlingSig = none ∧ s.proc.trapCtxBackup = some s.proc.refusedCx)

/-- While a handler is outstanding the slot holds some context. -/
def HandlerRun.Saved (s : HandlerRun) : Prop :=
  s.interrupted ≠ [] → s.proc.trapCtxBackup ≠ none

/-! ## The slot -/

namespace HandlerRun

variable {s s' : HandlerRun}

theorem Saved.congr (h : s.Saved) {p : SignalState}
    (hb : p.trapCtxBackup = s.proc.trapCtxBackup) : Saved { s with proc := p } := by
  intro hne
  rw [hb]
  exact h hne

theorem Saved.of_nil (h : s.interrupted = []) : s.Saved := fun hne => absurd h hne

theorem Saved.checkPending (h : s.Saved) : s.checkPending.Saved := by
  intro hne
  show (checkPendingSignals s.proc).trapCtxBackup ≠ none
  rcases checkPendingSignals_cases s.proc with ⟨hnone, -, hb, -⟩ | ⟨sig, -, hb, -⟩
  · rw [hb]
    refine h ?_
    simpa [HandlerRun.checkPending, hnone] using hne
  · rw [hb]
    exact Option.some_ne_none _

theorem Saved.step {e : ReturnEvent} (h : s.Saved) (hs : ReturnStep s e s') : s'.Saved := by
  cases hs with
  | exec cx => exact .of_nil rfl
  | stale _ hret => exact .of_nil rfl
  | handler hs =>
      cases hs with
      | user cx => exact h.congr rfl
      | kill signum =>
          obtain ⟨signals, hkill⟩ := killSignal_changes s.proc signum
          rw [hkill]
          exact h.congr rfl
      | sigprocmask mask => exact h.congr rfl
      | sigaction signum action oldAction new =>
          obtain ⟨actions, hact⟩ := sysSigaction_changes s.proc signum action oldAction new
          rw [hact]
          exact h.congr rfl
      | checkPending => exact h.checkPending
      | sigreturn hnest hret =>
          intro _
          obtain ⟨cx, -, rfl⟩ := sigreturnTrap_changes hret
          exact h (by simp [hnest])

theorem returnGuarded_iff (h : s.Saved) : s.ReturnGuarded ↔ s.MayReturn := by
  unfold ReturnGuarded MayReturn
  rw [sigreturnTrap_eq]
  by_cases hnil : s.interrupted = []
  · simp only [hnil, ne_eq, not_true_eq_false, false_or, forall_const]
    cases hb : s.proc.trapCtxBackup with
    | none => simp
    | some cx =>
        simp only [Option.map_some, reduceCtorEq, not_false_eq_true, true_and, Option.some.injEq]
        constructor
        · intro heq
          have hcx := congrArg SignalState.trapCx heq
          have hhandling := congrArg SignalState.handlingSig heq
          exact ⟨hhandling.symm, hcx⟩
        · rintro ⟨hhandling, hcx⟩
          rw [hcx] at hb
          rw [hcx, SignalState.refused, hb, ← hhandling]
  · have hsome := h hnil
    simp [hnil, hsome]

end HandlerRun

/-- In every state of every run, for every process: its `sys_sigreturn` neither
panics nor does anything but fail without an outstanding handler, exactly if
a handler is outstanding (or the old context in the slot is by chance the one
that a refused call leaves). -/
theorem sigreturn_guarded_iff {cx : TrapContext} {tr : List (FamilyEvent ReturnEvent UInt64)}
    {s : Nat → Option HandlerRun} (h : Runs ReturnFamilyStep (returnBoot cx) tr s) :
    ∀ pid p, s pid = some p → (p.ReturnGuarded ↔ p.MayReturn) := by
  have hsaved : AllIn HandlerRun.Saved s := by
    refine h.family_invariant (fun _ _ _ hI hs => hI.step hs) ?_ ?_
    · rintro p f c - rfl
      exact .of_nil rfl
    · exact AllIn.alone (.of_nil rfl)
  exact fun pid p hp => HandlerRun.returnGuarded_iff (hsaved pid p hp)

/-- In the handler `sys_sigreturn` does not panic. -/
theorem sigreturn_guarded_handler :
    ∃ tr s p, Runs ReturnFamilyStep (returnBoot (contextAt 0x1000)) tr s ∧ s 0 = some p
      ∧ p.proc.handlingSig = some 10 ∧ p.ReturnGuarded := by
  have hrun : Runs ReturnFamilyStep (returnBoot (contextAt 0x1000)) _ _ :=
    Runs.cons (.alone (.handler (.sigaction 10 0x8000 0x8010 ⟨0x2000, 40⟩))) <|
      .cons (.alone (.handler (.kill 10))) <| .single (.alone (.handler .checkPending))
  refine ⟨_, _, _, hrun, rfl, by decide +kernel, ?_⟩
  exact (sigreturn_guarded_iff hrun 0 _ rfl).mpr (.inl (by decide +kernel))

/-- initproc calls `sigreturn` before any signal was delivered to it: the
kernel panics. -/
theorem sigreturn_before_delivery :
    ¬ ∀ (cx : TrapContext) (tr : List (FamilyEvent ReturnEvent UInt64))
        (s : Nat → Option HandlerRun), Runs ReturnFamilyStep (returnBoot cx) tr s →
        ∀ pid p, s pid = some p → p.ReturnGuarded := by
  intro hall
  exact (hall (contextAt 0x1000) [] _ (.nil _) 0 _ rfl).1 rfl

end Nimloth
