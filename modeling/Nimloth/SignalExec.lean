import Mathlib.Tactic.Common
import Mathlib.Logic.Function.Basic
import Nimloth.SignalReturn

/-!
# Signals across `exec`

`ProcessControlBlock::exec` gives the process a new address space and a
new trap context and leaves the signal fields as they are; `fork` copies
the action table with the address space and clears the rest. So that one
can say whose address a handler or a saved context is, each process
carries a history the kernel has not: the program image in its address
space, the image that installed each handler, and the image whose context
is in `trap_ctx_backup`.

The action table and the backup survive an `exec`
(`exec_keeps_old_handler`). They do no harm if the process that calls it
has no handler installed and no context saved (`FreshExec`): then every
handler that is entered and every context that is restored belongs to the
image that runs.
-/

namespace Nimloth

open SignalFlags

/-- A process with its images. -/
structure ImageProc where
  proc : SignalState
  image : Nat
  installed : Vector Nat (MAX_SIG + 1)
  saved : Nat

/-- The processes by pid, and the number of the next image. -/
structure ImageSys where
  procs : Nat → Option ImageProc
  nextImage : Nat

namespace ImageProc

/-- `ProcessControlBlock::new`. -/
def new (cx : TrapContext) (image : Nat) : ImageProc :=
  ⟨.new cx, image, Vector.replicate (MAX_SIG + 1) image, image⟩

/-- The handler of `signum` is installed by the image that makes the call. -/
def sigaction (p : ImageProc) (signum : Int) (action oldAction : UInt64) (new : SignalAction) :
    ImageProc :=
  let r := sysSigaction p.proc signum action oldAction new
  { p with
    proc := r.2.2
    installed := if r.1 = 0 then p.installed.set (shiftSig signum) p.image (shiftSig_lt signum)
      else p.installed }

/-- A pass of `check_pending_signals`; the context it saves is of the image that
runs. -/
def checkPending (p : ImageProc) : ImageProc :=
  { p with
    proc := checkPendingSignals p.proc
    saved := if p.proc.enters = none then p.saved else p.image }

/-- The child of `fork`: the address space with its image and the action table
are copied; `sys_fork` writes 0 to `a0` and the child has its own kernel
stack. -/
def forked (p : ImageProc) (kernelSp : UInt64) : ImageProc :=
  { p with
    proc := { p.proc with
      signals := 0
      handlingSig := none
      killed := false
      frozen := false
      trapCtxBackup := none
      trapCx := { p.proc.trapCx with x := p.proc.trapCx.x.set 10 0 a0_lt, kernelSp := kernelSp } } }

/-- `exec`: only the trap context of the signal state is new. -/
def exec (p : ImageProc) (cx : TrapContext) (image : Nat) : ImageProc :=
  { p with proc := { p.proc with trapCx := cx }, image := image }

end ImageProc

inductive ImageEvent where
  /-- User code runs; `cx` is the context of its next trap. -/
  | user (pid : Nat) (cx : TrapContext)
  | kill (pid : Nat) (signum : Int)
  | sigprocmask (pid : Nat) (mask : SignalFlags)
  | sigaction (pid : Nat) (signum : Int) (action oldAction : UInt64) (new : SignalAction)
  | checkPending (pid : Nat)
  | sigreturn (pid : Nat)
  | fork (pid child : Nat) (kernelSp : UInt64)
  | exec (pid : Nat) (cx : TrapContext)

def ImageSys.set (s : ImageSys) (pid : Nat) (p : ImageProc) : ImageSys :=
  { s with procs := Function.update s.procs pid (some p) }

inductive ImageStep : ImageSys → ImageEvent → ImageSys → Prop
  | user {s : ImageSys} {pid : Nat} {p : ImageProc} (hp : s.procs pid = some p)
      (cx : TrapContext) :
      ImageStep s (.user pid cx) (s.set pid { p with proc := { p.proc with trapCx := cx } })
  | kill {s : ImageSys} {pid : Nat} {p : ImageProc} (hp : s.procs pid = some p) (signum : Int) :
      ImageStep s (.kill pid signum) (s.set pid { p with proc := (killSignal p.proc signum).2 })
  | sigprocmask {s : ImageSys} {pid : Nat} {p : ImageProc} (hp : s.procs pid = some p)
      (mask : SignalFlags) :
      ImageStep s (.sigprocmask pid mask)
        (s.set pid { p with proc := (sysSigprocmask p.proc mask).2 })
  | sigaction {s : ImageSys} {pid : Nat} {p : ImageProc} (hp : s.procs pid = some p)
      (signum : Int) (action oldAction : UInt64) (new : SignalAction) :
      ImageStep s (.sigaction pid signum action oldAction new)
        (s.set pid (p.sigaction signum action oldAction new))
  | checkPending {s : ImageSys} {pid : Nat} {p : ImageProc} (hp : s.procs pid = some p) :
      ImageStep s (.checkPending pid) (s.set pid p.checkPending)
  | sigreturn {s : ImageSys} {pid : Nat} {p : ImageProc} {q : SignalState}
      (hp : s.procs pid = some p) (hret : sigreturnTrap p.proc = some q) :
      ImageStep s (.sigreturn pid) (s.set pid { p with proc := q })
  | fork {s : ImageSys} {pid child : Nat} {p : ImageProc} (hp : s.procs pid = some p)
      (hchild : s.procs child = none) (kernelSp : UInt64) :
      ImageStep s (.fork pid child kernelSp) (s.set child (p.forked kernelSp))
  | exec {s : ImageSys} {pid : Nat} {p : ImageProc} (hp : s.procs pid = some p)
      (cx : TrapContext) :
      ImageStep s (.exec pid cx)
        { s.set pid (p.exec cx s.nextImage) with nextImage := s.nextImage + 1 }

/-- initproc after boot. -/
def ImageSys.boot (cx : TrapContext) : ImageSys where
  procs := fun pid => if pid = 0 then some (.new cx 0) else none
  nextImage := 1

/-- Wherever the kernel may transfer control next, it is to an address of the
image that runs: a handler that a pass of `check_pending_signals` enters was
installed, and a context that `sys_sigreturn` restores was saved, by that
image. -/
def ImageSys.OwnImage (s : ImageSys) : Prop :=
  ∀ pid p, s.procs pid = some p →
    (∀ sig, p.proc.enters = some sig → getElem p.installed sig (sig_lt sig) = p.image)
      ∧ (∀ q, sigreturnTrap p.proc = some q → p.saved = p.image)

/-- A process that calls `exec` has no handler installed and no context
saved. -/
def ImageSys.FreshExec (s : ImageSys) : ImageEvent → Prop
  | .exec pid _ => ∀ p, s.procs pid = some p →
      (∀ sig : Fin (MAX_SIG + 1), (getElem p.proc.signalActions sig (sig_lt sig)).handler = 0)
        ∧ p.proc.trapCtxBackup = none
  | _ => True

/-- Steps that meet the condition. -/
def FreshExecStep (s : ImageSys) (e : ImageEvent) (s' : ImageSys) : Prop :=
  ImageStep s e s' ∧ s.FreshExec e

/-! ## The invariant -/

/-- Every handler in the table and the saved context are of the image that
runs. -/
structure ImageProc.Own (p : ImageProc) : Prop where
  handlers : ∀ sig : Fin (MAX_SIG + 1),
    (getElem p.proc.signalActions sig (sig_lt sig)).handler ≠ 0 →
      getElem p.installed sig (sig_lt sig) = p.image
  saved : p.proc.trapCtxBackup ≠ none → p.saved = p.image

/-- A handler that is entered is in the table. -/
theorem SignalState.enters_handler {p : SignalState} {sig : Fin (MAX_SIG + 1)}
    (h : p.enters = some sig) : (getElem p.signalActions sig (sig_lt sig)).handler ≠ 0 := by
  obtain ⟨-, -, -, hactions⟩ := scanPending_frame (List.finRange (MAX_SIG + 1)) p
  unfold SignalState.enters at h
  match hscan : scanPending (List.finRange (MAX_SIG + 1)) p with
  | (q, none) =>
      rw [hscan] at h
      cases h
  | (q, some sig') =>
      rw [hscan] at h hactions
      dsimp only at h hactions
      split at h
      · next hh =>
          cases h
          rwa [hactions] at hh
      · cases h

theorem checkPendingSignals_actions (p : SignalState) :
    (checkPendingSignals p).signalActions = p.signalActions := by
  obtain ⟨-, -, -, hactions⟩ := scanPending_frame (List.finRange (MAX_SIG + 1)) p
  unfold checkPendingSignals
  match hscan : scanPending (List.finRange (MAX_SIG + 1)) p with
  | (q, none) =>
      rw [hscan] at hactions
      exact hactions
  | (q, some sig) =>
      rw [hscan] at hactions
      unfold callUserSignalHandler
      dsimp only at hactions ⊢
      split
      · exact hactions
      · exact hactions

namespace ImageProc.Own

variable {p : ImageProc}

/-- The invariant only reads the table and the backup. -/
theorem congr (h : p.Own) {q : SignalState} (ha : q.signalActions = p.proc.signalActions)
    (hb : q.trapCtxBackup = p.proc.trapCtxBackup) : ImageProc.Own { p with proc := q } := by
  refine ⟨?_, ?_⟩
  · intro sig hne
    refine h.handlers sig ?_
    rwa [← ha]
  · intro hne
    refine h.saved ?_
    rwa [← hb]

theorem sigaction (h : p.Own) (signum : Int) (action oldAction : UInt64) (new : SignalAction) :
    (p.sigaction signum action oldAction new).Own := by
  unfold ImageProc.sigaction sysSigaction
  dsimp only
  split
  · exact h.congr rfl rfl
  · split
    · exact h.congr rfl rfl
    · refine ⟨?_, h.saved⟩
      intro sig hne
      dsimp only at hne ⊢
      rw [if_pos rfl]
      by_cases hsig : shiftSig signum = sig
      · subst hsig
        simp
      · have hval : (shiftSig signum).val ≠ sig.val := fun he => hsig (Fin.ext he)
        simp only [Fin.getElem_fin] at hne ⊢
        rw [Vector.getElem_set_ne _ _ hval] at hne ⊢
        exact h.handlers sig hne

theorem checkPending (h : p.Own) : p.checkPending.Own := by
  refine ⟨?_, ?_⟩
  · intro sig hne
    refine h.handlers sig ?_
    have hactions := checkPendingSignals_actions p.proc
    simp only [ImageProc.checkPending, hactions] at hne
    exact hne
  · intro hne
    simp only [ImageProc.checkPending] at hne ⊢
    rcases checkPendingSignals_cases p.proc with ⟨hnone, -, hb, -⟩ | ⟨sig, hsig, -, -⟩
    · rw [if_pos hnone]
      rw [hb] at hne
      exact h.saved hne
    · rw [if_neg (by rw [hsig]; simp)]

theorem forked (h : p.Own) (kernelSp : UInt64) : (p.forked kernelSp).Own :=
  ⟨h.handlers, fun hne => absurd rfl hne⟩

theorem exec
    (ha : ∀ sig : Fin (MAX_SIG + 1), (getElem p.proc.signalActions sig (sig_lt sig)).handler = 0)
    (hb : p.proc.trapCtxBackup = none) (cx : TrapContext) (image : Nat) :
    (p.exec cx image).Own :=
  ⟨fun sig hne => absurd (ha sig) hne, fun hne => absurd hb hne⟩

theorem transfers (h : p.Own) :
    (∀ sig, p.proc.enters = some sig → getElem p.installed sig (sig_lt sig) = p.image)
    ∧ (∀ q, sigreturnTrap p.proc = some q → p.saved = p.image) := by
  refine ⟨?_, ?_⟩
  · intro sig hsig
    exact h.handlers sig (SignalState.enters_handler hsig)
  · intro q hret
    refine h.saved ?_
    intro hnone
    obtain ⟨cx, hb, -⟩ := sigreturnTrap_changes hret
    exact absurd (hnone.symm.trans hb) (by simp)

end ImageProc.Own

/-- Every process is in order. -/
def ImageSys.AllOwn (s : ImageSys) : Prop := ∀ pid p, s.procs pid = some p → p.Own

theorem ImageSys.AllOwn.set {s : ImageSys} (h : s.AllOwn) (pid : Nat) {p : ImageProc}
    (hp : p.Own) : (s.set pid p).AllOwn := by
  intro pid' p' hp'
  by_cases heq : pid' = pid
  · subst heq
    simp only [ImageSys.set, Function.update_self, Option.some.injEq] at hp'
    rwa [← hp']
  · simp only [ImageSys.set, Function.update_of_ne heq] at hp'
    exact h pid' p' hp'

theorem ImageSys.AllOwn.step {s s' : ImageSys} {e : ImageEvent} (h : s.AllOwn)
    (hs : FreshExecStep s e s') : s'.AllOwn := by
  obtain ⟨hs, hfresh⟩ := hs
  cases hs with
  | user hp cx => exact h.set _ ((h _ _ hp).congr rfl rfl)
  | kill hp signum =>
      obtain ⟨signals, hkill⟩ := killSignal_changes _ signum
      rw [hkill]
      exact h.set _ ((h _ _ hp).congr rfl rfl)
  | sigprocmask hp mask => exact h.set _ ((h _ _ hp).congr rfl rfl)
  | sigaction hp signum action oldAction new =>
      exact h.set _ ((h _ _ hp).sigaction signum action oldAction new)
  | checkPending hp => exact h.set _ (h _ _ hp).checkPending
  | sigreturn hp hret =>
      obtain ⟨cx, -, rfl⟩ := sigreturnTrap_changes hret
      exact h.set _ ((h _ _ hp).congr rfl rfl)
  | fork hp _ kernelSp => exact h.set _ ((h _ _ hp).forked kernelSp)
  | exec hp cx =>
      obtain ⟨ha, hb⟩ := hfresh _ hp
      exact h.set _ (.exec ha hb cx _)

theorem ImageSys.boot_allOwn (cx : TrapContext) : (boot cx).AllOwn := by
  intro pid p hp
  simp only [boot] at hp
  split at hp
  · cases hp
    refine ⟨?_, fun hne => absurd rfl hne⟩
    intro sig _
    simp [ImageProc.new]
  · cases hp

/-- If every process that calls `exec` has no handler installed and no context
saved, signals never transfer control to a replaced image. -/
theorem signals_stay_in_image {cx : TrapContext} {tr : List ImageEvent} {s : ImageSys}
    (h : Runs FreshExecStep (.boot cx) tr s) : s.OwnImage := by
  have hown : s.AllOwn :=
    h.invariant (ImageSys.boot_allOwn cx) fun _ _ _ hI hs => hI.step hs
  exact fun pid p hp => (hown pid p hp).transfers

/-- The process after `sigaction` installed a handler for `SIGUSR1` at
`0x2000`. -/
def ImageProc.withHandler (p : ImageProc) : ImageProc :=
  p.sigaction 10 0x8000 0x8010 { handler := 0x2000, mask := 40 }

/-- The process after `SIGUSR1` was sent to it. -/
def ImageProc.sent (p : ImageProc) : ImageProc :=
  { p with proc := (killSignal p.proc 10).2 }

/-- The system of one process after an `exec`. -/
def ImageSys.alone (p : ImageProc) (nextImage : Nat) : ImageSys where
  procs := fun pid => if pid = 0 then some p else none
  nextImage := nextImage

theorem ImageSys.alone_set (p q : ImageProc) (nextImage : Nat) :
    (alone p nextImage).set 0 q = alone q nextImage := by
  simp only [set, alone, ImageSys.mk.injEq, and_true]
  funext pid
  by_cases hpid : pid = 0
  · simp [hpid]
  · simp [hpid]

theorem ImageSys.alone_procs (p : ImageProc) (nextImage : Nat) :
    (alone p nextImage).procs 0 = some p := rfl

theorem ImageStep.withHandler (p : ImageProc) (nextImage : Nat) :
    ImageStep (.alone p nextImage)
      (.sigaction 0 10 0x8000 0x8010 { handler := 0x2000, mask := 40 })
      (.alone p.withHandler nextImage) := by
  have hs := ImageStep.sigaction (ImageSys.alone_procs p nextImage) 10 0x8000 0x8010
    { handler := 0x2000, mask := 40 }
  rwa [ImageSys.alone_set] at hs

theorem ImageStep.execAlone (p : ImageProc) (cx : TrapContext) (nextImage : Nat) :
    ImageStep (.alone p nextImage) (.exec 0 cx)
      (.alone (p.exec cx nextImage) (nextImage + 1)) := by
  have hs := ImageStep.exec (ImageSys.alone_procs p nextImage) cx
  rwa [ImageSys.alone_set] at hs

theorem ImageStep.sent (p : ImageProc) (nextImage : Nat) :
    ImageStep (.alone p nextImage) (.kill 0 10) (.alone p.sent nextImage) := by
  have hs := ImageStep.kill (ImageSys.alone_procs p nextImage) 10
  rwa [ImageSys.alone_set] at hs

/-- A process that installs its handler after an `exec`: the handler is of the
image that runs when it is entered. -/
theorem signals_stay_in_image_handler :
    ∃ tr s, Runs FreshExecStep (.boot (contextAt 0x1000)) tr s
      ∧ (∃ p, s.procs 0 = some p ∧ p.proc.enters = some 10) ∧ s.OwnImage := by
  have hfresh : (ImageSys.boot (contextAt 0x1000)).FreshExec (.exec 0 (contextAt 0x4000)) := by
    rintro p ⟨⟩
    exact ⟨by decide +kernel, rfl⟩
  have hrun : Runs FreshExecStep (.boot (contextAt 0x1000)) _ _ :=
    Runs.cons ⟨.execAlone _ (contextAt 0x4000) 1, hfresh⟩ <|
      .cons ⟨.withHandler _ 2, trivial⟩ (.single ⟨.sent _ 2, trivial⟩)
  exact ⟨_, _, hrun, ⟨_, rfl, by decide +kernel⟩, signals_stay_in_image hrun⟩

/-- A process that installs its handler before an `exec`: the new image is sent
to the address of the handler of the old one. -/
theorem exec_keeps_old_handler :
    ∃ tr s, Runs ImageStep (.boot (contextAt 0x1000)) tr s ∧ ¬ s.OwnImage := by
  have hrun : Runs ImageStep (.boot (contextAt 0x1000)) _ _ :=
    Runs.cons (.withHandler _ 1) <| .cons (.execAlone _ (contextAt 0x4000) 1) (.single (.sent _ 2))
  refine ⟨_, _, hrun, ?_⟩
  intro hown
  exact absurd ((hown 0 _ rfl).1 10 (by decide +kernel)) (by decide +kernel)

end Nimloth
