import Mathlib.Tactic.Common
import Nimloth.Runs
import Nimloth.Signal

/-!
# Returning from signal handlers

A process runs through user code, passes of `check_pending_signals`,
signal system calls and `sys_sigreturn`. The state keeps one list the
kernel has not: the trap contexts interrupted by the handlers that have
not returned yet, innermost first. A run is well nested when every
`sys_sigreturn` finds that list non-empty; it should put back its head.

The kernel has one backup slot. As long as no handler is entered while
another one runs (`handling_sig` is `-1` at every entry) the slot holds
the head of the list and every return is exact
(`sigreturn_restores_unnested`). An entry during a handler overwrites
the slot, and the outer return resumes at the wrong place
(`sigreturn_nested_wrong`).
-/

namespace Nimloth

open SignalFlags

/-- A process with the contexts its outstanding handlers interrupted. -/
structure HandlerRun where
  proc : SignalState
  interrupted : List TrapContext

inductive HandlerEvent where
  /-- User code runs; `cx` is the context of its next trap. -/
  | user (cx : TrapContext)
  | kill (signum : Int)
  | sigprocmask (mask : SignalFlags)
  | sigaction (signum : Int) (action oldAction : UInt64) (new : SignalAction)
  | checkPending
  | sigreturn

/-- A pass of `check_pending_signals`, recording the context it interrupts. -/
def HandlerRun.checkPending (s : HandlerRun) : HandlerRun where
  proc := checkPendingSignals s.proc
  interrupted := if s.proc.enters = none then s.interrupted else s.proc.trapCx :: s.interrupted

inductive HandlerStep : HandlerRun → HandlerEvent → HandlerRun → Prop
  | user {s : HandlerRun} (cx : TrapContext) :
      HandlerStep s (.user cx) { s with proc := { s.proc with trapCx := cx } }
  | kill {s : HandlerRun} (signum : Int) :
      HandlerStep s (.kill signum) { s with proc := (killSignal s.proc signum).2 }
  | sigprocmask {s : HandlerRun} (mask : SignalFlags) :
      HandlerStep s (.sigprocmask mask) { s with proc := (sysSigprocmask s.proc mask).2 }
  | sigaction {s : HandlerRun} (signum : Int) (action oldAction : UInt64) (new : SignalAction) :
      HandlerStep s (.sigaction signum action oldAction new)
        { s with proc := (sysSigaction s.proc signum action oldAction new).2.2 }
  | checkPending {s : HandlerRun} : HandlerStep s .checkPending s.checkPending
  | sigreturn {s : HandlerRun} {cx : TrapContext} {rest : List TrapContext} {p : SignalState}
      (hnest : s.interrupted = cx :: rest) (hret : sigreturnTrap s.proc = some p) :
      HandlerStep s .sigreturn { proc := p, interrupted := rest }

/-- No handler is entered while another one runs. -/
def HandlerRun.Unnested (s : HandlerRun) : HandlerEvent → Prop
  | .checkPending => s.proc.enters ≠ none → s.proc.handlingSig = none
  | _ => True

/-- Steps that meet the condition. -/
def UnnestedStep (s : HandlerRun) (e : HandlerEvent) (s' : HandlerRun) : Prop :=
  HandlerStep s e s' ∧ s.Unnested e

/-- Whenever the process may return from a handler, `sys_sigreturn` does not
panic and restores the context that handler interrupted. -/
def HandlerRun.Restores (s : HandlerRun) : Prop :=
  ∀ cx rest, s.interrupted = cx :: rest →
    ∃ p, sigreturnTrap s.proc = some p ∧ p.trapCx = cx

/-- The single slot is enough: at most one handler is outstanding, and then it
is the one being handled and its context is in the slot. -/
def HandlerRun.OneSlot (s : HandlerRun) : Prop :=
  (s.interrupted = [] ∧ s.proc.handlingSig = none)
    ∨ ∃ cx, s.interrupted = [cx] ∧ s.proc.trapCtxBackup = some cx ∧ s.proc.handlingSig ≠ none

theorem HandlerRun.OneSlot.restores {s : HandlerRun} (h : s.OneSlot) : s.Restores := by
  intro cx rest heq
  rcases h with ⟨hnil, -⟩ | ⟨cx', hone, hback, -⟩
  · rw [hnil] at heq; cases heq
  · obtain ⟨rfl, -⟩ := List.cons.inj (hone.symm.trans heq)
    obtain ⟨p, hp, hcx, -⟩ := sigreturnTrap_backup hback
    exact ⟨p, hp, hcx⟩

/-- `OneSlot` only reads the backup and `handling_sig`. -/
theorem HandlerRun.OneSlot.congr {s : HandlerRun} (h : s.OneSlot) {p : SignalState}
    (hb : p.trapCtxBackup = s.proc.trapCtxBackup) (hs : p.handlingSig = s.proc.handlingSig) :
    HandlerRun.OneSlot { s with proc := p } := by
  rcases h with ⟨hnil, hh⟩ | ⟨cx, hone, hback, hh⟩
  · exact .inl ⟨hnil, hs.trans hh⟩
  · exact .inr ⟨cx, hone, hb.trans hback, hs.trans_ne hh⟩

theorem HandlerRun.OneSlot.checkPending {s : HandlerRun} (h : s.OneSlot)
    (hcond : s.Unnested .checkPending) : s.checkPending.OneSlot := by
  rcases checkPendingSignals_cases s.proc with ⟨hnone, -, hb, hs⟩ | ⟨sig, hsig, hb, hs⟩
  · have heq : s.checkPending = { s with proc := checkPendingSignals s.proc } := by
      simp [HandlerRun.checkPending, hnone]
    rw [heq]
    exact h.congr hb hs
  · -- a handler is entered, so by the condition none was running before
    have hidle : s.proc.handlingSig = none := hcond (by simp [hsig])
    rcases h with ⟨hnil, -⟩ | ⟨cx, -, -, hbusy⟩
    · refine .inr ⟨s.proc.trapCx, ?_, hb, ?_⟩
      · simp [HandlerRun.checkPending, hsig, hnil]
      · show (checkPendingSignals s.proc).handlingSig ≠ none
        rw [hs]
        exact Option.some_ne_none sig
    · exact absurd hidle hbusy

theorem HandlerRun.OneSlot.step {s s' : HandlerRun} {e : HandlerEvent} (h : s.OneSlot)
    (hs : UnnestedStep s e s') : s'.OneSlot := by
  obtain ⟨hs, hcond⟩ := hs
  cases hs with
  | user cx => exact h.congr rfl rfl
  | kill signum =>
      obtain ⟨signals, hkill⟩ := killSignal_changes s.proc signum
      rw [hkill]
      exact h.congr rfl rfl
  | sigprocmask mask => exact h.congr rfl rfl
  | sigaction signum action oldAction new =>
      obtain ⟨actions, hact⟩ := sysSigaction_changes s.proc signum action oldAction new
      rw [hact]
      exact h.congr rfl rfl
  | checkPending => exact h.checkPending hcond
  | @sigreturn cx rest p hnest hret =>
      rcases h with ⟨hnil, -⟩ | ⟨cx', hone, hback, -⟩
      · rw [hnil] at hnest; cases hnest
      · obtain ⟨-, rfl⟩ := List.cons.inj (hone.symm.trans hnest)
        obtain ⟨q, hq, -, hidle, -⟩ := sigreturnTrap_backup hback
        obtain rfl := Option.some.inj (hq.symm.trans hret)
        exact .inl ⟨rfl, hidle⟩

/-! ## Two handlers -/

/-- A trap context at `pc` with all registers zero. -/
def contextAt (pc : UInt64) : TrapContext where
  x := Vector.replicate 32 0
  sstatus := 0
  sepc := pc
  kernelSatp := 0
  kernelSp := 0
  trapHandler := 0

/-- A process at `0x1000` with handlers for `SIGUSR1` and `SIGUSR2`, the former
with the default mask. -/
def twoHandlers : SignalState :=
  { SignalState.new (contextAt 0x1000) with
    signalActions := (SignalActions.default.set 10
      { handler := 0x2000, mask := 40 }).set 12 { handler := 0x3000, mask := 40 } }

/-- If no handler is entered while another one runs, every `sys_sigreturn`
restores the context its handler interrupted, whatever signals are sent,
masked and redirected in between. -/
theorem sigreturn_restores_unnested {p : SignalState} (hp : p.handlingSig = none)
    {tr : List HandlerEvent} {s : HandlerRun}
    (h : Runs UnnestedStep { proc := p, interrupted := [] } tr s) : s.Restores :=
  HandlerRun.OneSlot.restores <|
    h.invariant (.inl ⟨rfl, hp⟩) fun _ _ _ hI hs => hI.step hs

/-- `SIGUSR1` is sent and delivered. -/
def oneDelivery : HandlerRun :=
  HandlerRun.checkPending { proc := (killSignal twoHandlers 10).2, interrupted := [] }

theorem oneDelivery_run :
    Runs UnnestedStep { proc := twoHandlers, interrupted := [] } [.kill 10, .checkPending]
      oneDelivery :=
  .cons ⟨.kill 10, trivial⟩ (.single ⟨.checkPending, fun _ => rfl⟩)

/-- The handler of `SIGUSR1` returns to `0x1000`. -/
theorem sigreturn_restores_one_handler :
    oneDelivery.interrupted = [contextAt 0x1000]
      ∧ ∃ q, sigreturnTrap oneDelivery.proc = some q ∧ q.trapCx = contextAt 0x1000 := by
  have hint : oneDelivery.interrupted = [contextAt 0x1000] := by decide +kernel
  exact ⟨hint, sigreturn_restores_unnested rfl oneDelivery_run _ _ hint⟩

/-- While that handler runs `SIGUSR2` is sent and delivered. -/
def twoDeliveries : HandlerRun :=
  HandlerRun.checkPending { oneDelivery with proc := (killSignal oneDelivery.proc 12).2 }

/-- The handler of `SIGUSR2` returns, to that of `SIGUSR1`. -/
def innerReturned : HandlerRun where
  proc := (sigreturnTrap twoDeliveries.proc).getD twoHandlers
  interrupted := [contextAt 0x1000]

theorem innerReturned_run :
    Runs HandlerStep { proc := twoHandlers, interrupted := [] }
      [.kill 10, .checkPending, .kill 12, .checkPending, .sigreturn] innerReturned := by
  have hnest : twoDeliveries.interrupted = [oneDelivery.proc.trapCx, contextAt 0x1000] := by
    decide +kernel
  have hret : sigreturnTrap twoDeliveries.proc = some innerReturned.proc := by
    have hsome : (sigreturnTrap twoDeliveries.proc).isSome := by decide +kernel
    obtain ⟨q, hq⟩ := Option.isSome_iff_exists.mp hsome
    simp [innerReturned, hq]
  exact .cons (.kill 10) <| .cons .checkPending <| .cons (.kill 12) <| .cons .checkPending <|
    .single (.sigreturn hnest hret)

/-- When the handler of `SIGUSR1` returns in its turn, it is not to `0x1000`:
the slot still holds what the handler of `SIGUSR2` interrupted. -/
theorem sigreturn_nested_wrong :
    ¬ ∀ (p : SignalState) (tr : List HandlerEvent) (s : HandlerRun), p.handlingSig = none →
        Runs HandlerStep { proc := p, interrupted := [] } tr s → s.Restores := by
  intro hall
  obtain ⟨q, hq, hcx⟩ := hall twoHandlers _ innerReturned rfl innerReturned_run _ _ rfl
  have hpc : (sigreturnTrap innerReturned.proc).map (fun q => q.trapCx.sepc) = some 0x2000 := by
    decide +kernel
  rw [hq, Option.map_some, hcx] at hpc
  exact absurd hpc (by decide)

end Nimloth
