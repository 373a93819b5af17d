import Mathlib.Tactic.Common
import Mathlib.Data.List.FinRange

/-!
# Signals

`os/src/process/signal.rs` and the signal handling of
`os/src/process/mod.rs`: the flag set, the action table, the default
actions of the kernel, the entry into a user handler, the scan over the
pending signals and the return from a handler (`sys_sigreturn` together
with the system-call branch of `trap_handler` that calls it).

Every function of this part reads and writes only the signal fields of
the process control block and the saved trap context, which is what
`SignalState` holds. All 32 bits of `SignalFlags` are named signals, so
`SignalFlags::from_bits` never fails.
-/

namespace Nimloth

/-! ## Flags and actions -/

def MAX_SIG : Nat := 31

/-- A signal number is an index of the action table. -/
theorem sig_lt (sig : Fin (MAX_SIG + 1)) : sig.val < MAX_SIG + 1 := sig.isLt

abbrev SignalFlags := BitVec 32

namespace SignalFlags

/-- `SignalFlags::from_bits(1 << sig)`. -/
def ofSig (sig : Fin (MAX_SIG + 1)) : SignalFlags := BitVec.twoPow 32 sig

def SIGDEF : SignalFlags := BitVec.twoPow 32 0
def SIGINT : SignalFlags := BitVec.twoPow 32 2
def SIGILL : SignalFlags := BitVec.twoPow 32 4
def SIGABRT : SignalFlags := BitVec.twoPow 32 6
def SIGFPE : SignalFlags := BitVec.twoPow 32 8
def SIGKILL : SignalFlags := BitVec.twoPow 32 9
def SIGSEGV : SignalFlags := BitVec.twoPow 32 11
def SIGCONT : SignalFlags := BitVec.twoPow 32 18
def SIGSTOP : SignalFlags := BitVec.twoPow 32 19

def contains (s flag : SignalFlags) : Bool := s &&& flag == flag

/-- The exit code and the message of a fatal signal. -/
def checkError (s : SignalFlags) : Option (Int × String) :=
  if contains s SIGINT then some (-2, "Killed, SIGINT=2")
  else if contains s SIGILL then some (-4, "Illegal Instruction, SIGILL=4")
  else if contains s SIGABRT then some (-6, "Aborted, SIGABRT=6")
  else if contains s SIGFPE then some (-8, "Erroneous Arithmetic Operation, SIGFPE=8")
  else if contains s SIGKILL then some (-9, "Killed, SIGKILL=9")
  else if contains s SIGSEGV then some (-11, "Segmentation Fault, SIGSEGV=11")
  else none

end SignalFlags

open SignalFlags

structure SignalAction where
  handler : UInt64
  mask : SignalFlags
  deriving DecidableEq

def SignalAction.default : SignalAction := { handler := 0, mask := 40 }

/-- `SignalActions::table`. -/
abbrev SignalActions := Vector SignalAction (MAX_SIG + 1)

def SignalActions.default : SignalActions := Vector.replicate (MAX_SIG + 1) .default

/-! ## Trap context and process state -/

/-- `TrapContext`; `sstatus` is the raw register. -/
structure TrapContext where
  x : Vector UInt64 32
  sstatus : UInt64
  sepc : UInt64
  kernelSatp : UInt64
  kernelSp : UInt64
  trapHandler : UInt64
  deriving DecidableEq

/-! The indices of `sp`, `a0` and `a1` in `TrapContext::x`. -/

theorem sp_lt : 2 < 32 := by decide

theorem a0_lt : 10 < 32 := by decide

theorem a1_lt : 11 < 32 := by decide

/-- The signal fields of `ProcessControlBlockInner` with the trap context its
`trap_cx_ppn` points to. The source stores `handling_sig` as an `isize` that
is `-1` or a signal number; here `none` is `-1`. -/
structure SignalState where
  signals : SignalFlags
  signalMask : SignalFlags
  handlingSig : Option (Fin (MAX_SIG + 1))
  signalActions : SignalActions
  killed : Bool
  frozen : Bool
  trapCtxBackup : Option TrapContext
  trapCx : TrapContext
  deriving DecidableEq

/-- The signal state of a process built by `ProcessControlBlock::new`. -/
def SignalState.new (cx : TrapContext) : SignalState where
  signals := 0
  signalMask := 0
  handlingSig := none
  signalActions := .default
  killed := false
  frozen := false
  trapCtxBackup := none
  trapCx := cx

/-! ## Delivery -/

def callKernelSignalHandler (p : SignalState) (signal : SignalFlags) : SignalState :=
  if signal = SIGSTOP then
    { p with frozen := true, signals := p.signals ^^^ SIGSTOP }
  else if signal = SIGCONT then
    if contains p.signals SIGCONT then
      { p with signals := p.signals ^^^ SIGCONT, frozen := false }
    else p
  else { p with killed := true }

/-- With no handler installed the call only prints a message. -/
def callUserSignalHandler (p : SignalState) (sig : Fin (MAX_SIG + 1)) (signal : SignalFlags) :
    SignalState :=
  let handler := p.signalActions[sig].handler
  if handler ≠ 0 then
    { p with
      handlingSig := some sig
      signals := p.signals ^^^ signal
      trapCtxBackup := some p.trapCx
      trapCx := { p.trapCx with
        sepc := handler
        x := p.trapCx.x.set 10 (UInt64.ofNat sig) } }
  else p

/-- The `masked` flag of `check_pending_signals`: a running handler masks the
signals of its own action mask. -/
def SignalState.masked (p : SignalState) (signal : SignalFlags) : Bool :=
  match p.handlingSig with
  | none => false
  | some handling => contains p.signalActions[handling].mask signal

/-- A pending signal that neither mask holds back. -/
def SignalState.deliverable (p : SignalState) (signal : SignalFlags) : Bool :=
  contains p.signals signal && !contains p.signalMask signal && !p.masked signal

/-- The signals whose action is the kernel's. -/
def kernelSignal (signal : SignalFlags) : Bool :=
  signal == SIGKILL || signal == SIGSTOP || signal == SIGCONT || signal == SIGDEF

/-- The `for` loop of `check_pending_signals` over the signals still to be
looked at. It ends at the first signal that is handed to
`call_user_signal_handler`, which is returned with the state before that
call. -/
def scanPending : List (Fin (MAX_SIG + 1)) → SignalState →
    SignalState × Option (Fin (MAX_SIG + 1))
  | [], p => (p, none)
  | sig :: rest, p =>
      if p.deliverable (ofSig sig) then
        if kernelSignal (ofSig sig) then
          scanPending rest (callKernelSignalHandler p (ofSig sig))
        else (p, some sig)
      else scanPending rest p

def checkPendingSignals (p : SignalState) : SignalState :=
  match scanPending (List.finRange (MAX_SIG + 1)) p with
  | (q, none) => q
  | (q, some sig) => callUserSignalHandler q sig (ofSig sig)

/-- The signal whose user handler a pass of `check_pending_signals` enters. -/
def SignalState.enters (p : SignalState) : Option (Fin (MAX_SIG + 1)) :=
  match scanPending (List.finRange (MAX_SIG + 1)) p with
  | (_, none) => none
  | (q, some sig) => if q.signalActions[sig].handler ≠ 0 then some sig else none

/-! ## System calls -/

/-- The signal of `1 << signum` for an `i32` count: a release build reduces the
count modulo 32. -/
def shiftSig (signum : Int) : Fin (MAX_SIG + 1) :=
  ⟨(signum % 32).toNat, by simp only [MAX_SIG]; omega⟩

theorem shiftSig_lt (signum : Int) : (shiftSig signum).val < MAX_SIG + 1 := (shiftSig signum).isLt

/-- `sys_kill` on the process `pid2process` found. -/
def killSignal (p : SignalState) (signum : Int) : Int × SignalState :=
  let flag := ofSig (shiftSig signum)
  if contains p.signals flag then (-1, p)
  else (0, { p with signals := p.signals ||| flag })

def sysSigprocmask (p : SignalState) (mask : SignalFlags) : Int × SignalState :=
  (p.signalMask.toNat, { p with signalMask := mask })

def checkSigactionError (signal : SignalFlags) (action oldAction : UInt64) : Bool :=
  action == 0 || oldAction == 0 || signal == SIGKILL || signal == SIGSTOP

/-- `sys_sigaction` with the pointers `action` and `oldAction`, where `new` is
what the first points to. The second component is what is stored through
`oldAction`. -/
def sysSigaction (p : SignalState) (signum : Int) (action oldAction : UInt64)
    (new : SignalAction) : Int × Option SignalAction × SignalState :=
  if signum < 0 ∨ signum > MAX_SIG then (-1, none, p)
  else
    let sig := shiftSig signum
    if checkSigactionError (ofSig sig) action oldAction then (-1, none, p)
    else (0, some p.signalActions[sig], { p with signalActions := p.signalActions.set sig new })

/-- `sys_sigreturn`; `none` is the panic of `trap_ctx_backup.unwrap()`. -/
def sysSigreturn (p : SignalState) : Option (UInt64 × SignalState) :=
  p.trapCtxBackup.map fun backup =>
    (backup.x[10], { p with handlingSig := none, trapCx := backup })

/-- The system-call branch of `trap_handler` around `sys_sigreturn`: `sepc` is
moved past the `ecall` before the call and the result is written to `a0`
after it. -/
def sigreturnTrap (p : SignalState) : Option SignalState :=
  let p := { p with trapCx := { p.trapCx with sepc := p.trapCx.sepc + 4 } }
  (sysSigreturn p).map fun (result, p) =>
    { p with trapCx := { p.trapCx with x := p.trapCx.x.set 10 result } }

/-! ## What a pass leaves alone -/

theorem callKernelSignalHandler_frame (p : SignalState) (signal : SignalFlags) :
    (callKernelSignalHandler p signal).trapCx = p.trapCx
      ∧ (callKernelSignalHandler p signal).trapCtxBackup = p.trapCtxBackup
      ∧ (callKernelSignalHandler p signal).handlingSig = p.handlingSig
      ∧ (callKernelSignalHandler p signal).signalActions = p.signalActions := by
  unfold callKernelSignalHandler
  split_ifs <;> simp

/-- Up to the entry into a user handler a pass changes neither the trap
context nor what `sys_sigreturn` would restore. -/
theorem scanPending_frame (l : List (Fin (MAX_SIG + 1))) (p : SignalState) :
    (scanPending l p).1.trapCx = p.trapCx
      ∧ (scanPending l p).1.trapCtxBackup = p.trapCtxBackup
      ∧ (scanPending l p).1.handlingSig = p.handlingSig
      ∧ (scanPending l p).1.signalActions = p.signalActions := by
  induction l generalizing p with
  | nil => exact ⟨rfl, rfl, rfl, rfl⟩
  | cons sig rest ih =>
      rw [scanPending]
      split_ifs
      · obtain ⟨h1, h2, h3, h4⟩ := callKernelSignalHandler_frame p (ofSig sig)
        obtain ⟨i1, i2, i3, i4⟩ := ih (callKernelSignalHandler p (ofSig sig))
        exact ⟨i1.trans h1, i2.trans h2, i3.trans h3, i4.trans h4⟩
      · exact ⟨rfl, rfl, rfl, rfl⟩
      · exact ih p

/-- A pass either enters no handler, and keeps the trap context, the backup
and `handling_sig`, or it saves the interrupted trap context as the backup. -/
theorem checkPendingSignals_cases (p : SignalState) :
    (p.enters = none ∧ (checkPendingSignals p).trapCx = p.trapCx
        ∧ (checkPendingSignals p).trapCtxBackup = p.trapCtxBackup
        ∧ (checkPendingSignals p).handlingSig = p.handlingSig)
      ∨ ∃ sig, p.enters = some sig ∧ (checkPendingSignals p).trapCtxBackup = some p.trapCx
        ∧ (checkPendingSignals p).handlingSig = some sig := by
  obtain ⟨h1, h2, h3, -⟩ := scanPending_frame (List.finRange (MAX_SIG + 1)) p
  unfold checkPendingSignals SignalState.enters
  match hscan : scanPending (List.finRange (MAX_SIG + 1)) p with
  | (q, none) =>
      rw [hscan] at h1 h2 h3
      exact .inl ⟨rfl, h1, h2, h3⟩
  | (q, some sig) =>
      rw [hscan] at h1 h2 h3
      by_cases hh : q.signalActions[sig].handler = 0
      · refine .inl ?_
        simp only [callUserSignalHandler, hh, ne_eq, not_true_eq_false, if_false]
        exact ⟨trivial, h1, h2, h3⟩
      · refine .inr ⟨sig, if_pos hh, ?_⟩
        simp only [callUserSignalHandler, ne_eq, hh, not_false_eq_true, if_true]
        exact ⟨congrArg some h1, trivial⟩

/-! ## What the system calls change -/

/-- `sys_kill` changes the pending set only. -/
theorem killSignal_changes (p : SignalState) (signum : Int) :
    ∃ signals, (killSignal p signum).2 = { p with signals := signals } := by
  unfold killSignal
  dsimp only
  split
  · exact ⟨p.signals, rfl⟩
  · exact ⟨_, rfl⟩

/-- `sys_sigaction` changes the action table only. -/
theorem sysSigaction_changes (p : SignalState) (signum : Int) (action oldAction : UInt64)
    (new : SignalAction) :
    ∃ actions, (sysSigaction p signum action oldAction new).2.2
      = { p with signalActions := actions } := by
  unfold sysSigaction
  dsimp only
  split
  · exact ⟨p.signalActions, rfl⟩
  · split
    · exact ⟨p.signalActions, rfl⟩
    · exact ⟨_, rfl⟩

/-- `sigreturn` puts back exactly the saved context, `a0` included: the result
of the call is the saved `a0`. -/
theorem sigreturnTrap_eq (p : SignalState) :
    sigreturnTrap p
      = p.trapCtxBackup.map fun cx => { p with handlingSig := none, trapCx := cx } := by
  cases hb : p.trapCtxBackup with
  | none => simp [sigreturnTrap, sysSigreturn, hb]
  | some cx =>
      have hx : cx.x.set 10 cx.x[10] = cx.x := by
        ext i hi
        simp
      simp [sigreturnTrap, sysSigreturn, hb, hx]

theorem sigreturnTrap_changes {p q : SignalState} (h : sigreturnTrap p = some q) :
    ∃ cx, p.trapCtxBackup = some cx ∧ q = { p with handlingSig := none, trapCx := cx } := by
  rw [sigreturnTrap_eq, Option.map_eq_some_iff] at h
  obtain ⟨cx, hb, rfl⟩ := h
  exact ⟨cx, hb, rfl⟩

theorem sigreturnTrap_backup {p : SignalState} {cx : TrapContext}
    (h : p.trapCtxBackup = some cx) :
    ∃ q, sigreturnTrap p = some q ∧ q.trapCx = cx ∧ q.handlingSig = none
      ∧ q.trapCtxBackup = some cx :=
  ⟨{ p with handlingSig := none, trapCx := cx }, by rw [sigreturnTrap_eq, h]; rfl, rfl, rfl, h⟩

end Nimloth
