import Mathlib.Tactic.Common
import Nimloth.Kernel
import Nimloth.SignalScan

/-!
# The signal stage of a trap

A trap ends with `handle_signals`, a loop of passes over the pending
signals in which a stopped process waits, and with
`check_signals_error_of_current`; then the process exits or returns to
user mode. `TrapStep` is this life of one process, with the signals that
others send it at any time; `Kernel.handleSignals_eq` says that a round
of it is the kernel's. A process that is stopped while a signal without
handler is pending stays in that loop (`stuck_stays`).

`check_error` reads the pending set alone. It asks neither the mask nor
the handlers, so a masked or handled SIGINT, SIGABRT or SIGFPE ends the
process unless it happens to leave the set in the last round
(`protected_spared_iff`). It does not know SIGDEF either, which marks a
process killed: marked so, the process goes on (`killed_exits_iff`).
-/

namespace Nimloth

open SignalFlags

/-! ## Fatal signals -/

/-- The signals `check_error` looks for, in its order. -/
def fatalSignals : List (Fin (MAX_SIG + 1)) := [2, 4, 6, 8, 9, 11]

/-- The exit code is the negated number of the first one found. -/
theorem SignalFlags.checkError_code (s : SignalFlags) :
    s.checkError.map Prod.fst
      = (fatalSignals.find? fun f => contains s (ofSig f)).map fun f => -(f.val : Int) := by
  unfold checkError fatalSignals
  simp only [show SIGINT = ofSig 2 from rfl, show SIGILL = ofSig 4 from rfl,
    show SIGABRT = ofSig 6 from rfl, show SIGFPE = ofSig 8 from rfl,
    show SIGKILL = ofSig 9 from rfl, show SIGSEGV = ofSig 11 from rfl, List.find?_cons]
  cases contains s (ofSig 2) with
  | true => rfl
  | false =>
      cases contains s (ofSig 4) with
      | true => rfl
      | false =>
          cases contains s (ofSig 6) with
          | true => rfl
          | false =>
              cases contains s (ofSig 8) with
              | true => rfl
              | false =>
                  cases contains s (ofSig 9) with
                  | true => rfl
                  | false => cases contains s (ofSig 11) <;> rfl

theorem SignalFlags.checkError_eq_none {s : SignalFlags} :
    s.checkError = none ↔ ∀ f ∈ fatalSignals, contains s (ofSig f) = false := by
  have h := s.checkError_code
  rw [← Option.map_eq_none_iff (f := Prod.fst), h]
  simp

/-- The signal `f` is the cause if it is the least fatal one that is pending. -/
theorem SignalFlags.checkError_eq_code {s : SignalFlags} {f : Fin (MAX_SIG + 1)} :
    s.checkError.map Prod.fst = some (-(f.val : Int))
      ↔ f ∈ fatalSignals ∧ contains s (ofSig f) = true
        ∧ ∀ g ∈ fatalSignals, g < f → contains s (ofSig g) = false := by
  have hinj : Function.Injective fun f : Fin (MAX_SIG + 1) => -(f.val : Int) := by
    intro f g h
    exact Fin.ext (Int.natCast_inj.mp (Int.neg_inj.mp h))
  rw [s.checkError_code, ← Option.map_some (f := fun f : Fin (MAX_SIG + 1) => -(f.val : Int)),
    (Option.map_injective hinj).eq_iff, find?_eq_some_of_sorted (by decide)]

/-! ## The life of a process between traps -/

/-- Where a process is: in user mode, in `trap_handler` before the signal
stage, before a round of the loop of `handle_signals`, or gone. -/
inductive Place where
  | user
  | trap
  | stage
  | exited (exitCode : Int)
  deriving DecidableEq

/-- Where the round that leaves the signal state `q` takes the process. -/
def roundEnd (q : SignalState) : Place :=
  if q.staysFrozen then .stage
  else
    match q.signals.checkError with
    | some (errno, _) => .exited errno
    | none => .user

structure TrapProc where
  sig : SignalState
  place : Place

inductive TrapEvent where
  /-- User code runs; `cx` is the context of its next trap. -/
  | user (cx : TrapContext)
  | fault (signal : SignalFlags)
  | sigprocmask (mask : SignalFlags)
  | sigaction (signum : Int) (action oldAction : UInt64) (new : SignalAction)
  | sigreturn
  | exec (cx : TrapContext)
  /-- `handle_signals` begins. -/
  | stage
  /-- A round of its loop, with the signal whose handler it enters. -/
  | round (entered : Option (Fin (MAX_SIG + 1)))
  /-- Some process sends a signal. -/
  | sent (signum : Int)

inductive TrapStep : TrapProc → TrapEvent → TrapProc → Prop
  | user {p : SignalState} (cx : TrapContext) :
      TrapStep ⟨p, .user⟩ (.user cx) ⟨{ p with trapCx := cx }, .trap⟩
  | fault {p : SignalState} (signal : SignalFlags) :
      TrapStep ⟨p, .trap⟩ (.fault signal) ⟨{ p with signals := p.signals ||| signal }, .trap⟩
  | sigprocmask {p : SignalState} (mask : SignalFlags) :
      TrapStep ⟨p, .trap⟩ (.sigprocmask mask) ⟨(sysSigprocmask p mask).2, .trap⟩
  | sigaction {p : SignalState} (signum : Int) (action oldAction : UInt64) (new : SignalAction) :
      TrapStep ⟨p, .trap⟩ (.sigaction signum action oldAction new)
        ⟨(sysSigaction p signum action oldAction new).2.2, .trap⟩
  | sigreturn {p q : SignalState} (hret : sigreturnTrap p = some q) :
      TrapStep ⟨p, .trap⟩ .sigreturn ⟨q, .trap⟩
  | exec {p : SignalState} (cx : TrapContext) :
      TrapStep ⟨p, .trap⟩ (.exec cx) ⟨{ p with trapCx := cx }, .trap⟩
  | stage {p : SignalState} : TrapStep ⟨p, .trap⟩ .stage ⟨p, .stage⟩
  | round {p : SignalState} :
      TrapStep ⟨p, .stage⟩ (.round p.enters)
        ⟨checkPendingSignals p, roundEnd (checkPendingSignals p)⟩
  | sent {p : SignalState} {place : Place} (hplace : ∀ exitCode, place ≠ .exited exitCode)
      (signum : Int) :
      TrapStep ⟨p, place⟩ (.sent signum) ⟨(killSignal p signum).2, place⟩

/-- A round is what the kernel does for the current process. -/
theorem Kernel.handleSignals_eq {k : Kernel} {p : Nat} {inner : Pcb}
    (h : k.currentInner = some (p, inner)) :
    k.handleSignals =
      let k' := k.modifyProc p fun i => { i with sig := checkPendingSignals inner.sig }
      match roundEnd (checkPendingSignals inner.sig) with
      | .stage => k'.suspendCurrentAndRunNext
      | .exited errno => k'.exitCurrentAndRunNext errno
      | _ => .ok k' := by
  unfold handleSignals roundEnd SignalState.staysFrozen
  rw [h]
  dsimp only
  split
  · rfl
  · cases (checkPendingSignals inner.sig).signals.checkError <;> rfl

/-! ## What a round leaves pending -/

namespace SignalState

/-- `f` is the least deliverable signal of the user's and has a handler. -/
def FirstHandled (p : SignalState) (f : Fin (MAX_SIG + 1)) : Prop :=
  p.userDeliverable f = true ∧ p.Reaches f
    ∧ (getElem p.signalActions f (sig_lt f)).handler ≠ 0

instance (p : SignalState) (f : Fin (MAX_SIG + 1)) : Decidable (p.FirstHandled f) :=
  inferInstanceAs (Decidable (_ ∧ _ ∧ _))

theorem enters_iff {p : SignalState} {f : Fin (MAX_SIG + 1)} :
    p.enters = some f ↔ p.FirstHandled f := by
  rw [enters_eq_some, nextUser_eq_some, and_assoc]
  rfl

end SignalState

/-- SIGCONT and SIGSTOP apart, only the signal whose handler is entered leaves
the pending set. -/
theorem contains_checkPendingSignals_of_ne {p : SignalState} {f : Fin (MAX_SIG + 1)}
    (h18 : f ≠ 18) (h19 : f ≠ 19) :
    contains (checkPendingSignals p).signals (ofSig f) = true
      ↔ contains p.signals (ofSig f) = true ∧ ¬ p.FirstHandled f := by
  rw [contains_checkPendingSignals, Ne, SignalState.enters_iff]
  constructor
  · rintro ⟨hc, -, hno⟩
    exact ⟨hc, hno⟩
  · rintro ⟨hc, hno⟩
    exact ⟨hc, fun h => h.2.elim h18 h19, hno⟩

theorem fatal_ne {f : Fin (MAX_SIG + 1)} (hf : f ∈ fatalSignals) : f ≠ 18 ∧ f ≠ 19 := by
  revert f
  decide

/-- The least fatal signal that a round leaves pending. -/
theorem checkPendingSignals_code {p : SignalState} {f : Fin (MAX_SIG + 1)}
    (hf : f ∈ fatalSignals) :
    (checkPendingSignals p).signals.checkError.map Prod.fst = some (-(f.val : Int))
      ↔ (contains p.signals (ofSig f) = true ∧ ¬ p.FirstHandled f)
        ∧ ∀ g ∈ fatalSignals, g < f → contains p.signals (ofSig g) = true → p.FirstHandled g := by
  obtain ⟨h18, h19⟩ := fatal_ne hf
  rw [SignalFlags.checkError_eq_code, contains_checkPendingSignals_of_ne h18 h19,
    and_iff_right hf]
  refine and_congr_right fun _ => forall₂_congr fun g hg => imp_congr_right fun _ => ?_
  obtain ⟨h18, h19⟩ := fatal_ne hg
  rw [← Bool.not_eq_true, contains_checkPendingSignals_of_ne h18 h19]
  tauto

/-! ## Stopped for good

A deliverable signal without a handler is never taken out of the pending
set, so it holds back SIGCONT and SIGKILL in every round to come. -/

/-- A stopped process with such a signal, and no handler for those before it. -/
structure SignalState.Stuck (p : SignalState) (u : Fin (MAX_SIG + 1)) : Prop where
  stays : p.staysFrozen = true
  blocked : p.userDeliverable u = true
  default : ∀ v ≤ u, (getElem p.signalActions v (sig_lt v)).handler = 0
  noDef : contains p.signals (ofSig 0) = false

namespace SignalState.Stuck

variable {p : SignalState} {u : Fin (MAX_SIG + 1)}

theorem enters (h : p.Stuck u) : p.enters = none := by
  by_contra hne
  obtain ⟨v, hv⟩ := Option.ne_none_iff_exists'.mp hne
  obtain ⟨-, hreaches, hhandler⟩ := enters_iff.mp hv
  rcases le_or_gt v u with hle | hlt
  · exact hhandler (h.default v hle)
  · have hblocked := h.blocked
    rw [hreaches u hlt] at hblocked
    cases hblocked

theorem not_handles (h : p.Stuck u) {sig : Fin (MAX_SIG + 1)} (hu : u < sig) : ¬ p.Handles sig := by
  intro hh
  have hblocked := h.blocked
  rw [hh.2.2 u hu] at hblocked
  cases hblocked

/-- A round of a stuck process changes nothing that matters. -/
theorem round (h : p.Stuck u) (hu : u < 9) : (checkPendingSignals p).Stuck u := by
  obtain ⟨-, -, -, hhandling⟩ | ⟨sig, hsig, -⟩ := checkPendingSignals_cases p
  swap
  · rw [h.enters] at hsig
    cases hsig
  have hstays := h.stays
  simp only [staysFrozen, Bool.and_eq_true, Bool.not_eq_true'] at hstays
  have hu18 : u < 18 := hu.trans (by decide)
  have hpending : ∀ i, i ≠ 18 → i ≠ 19 → contains (checkPendingSignals p).signals (ofSig i)
      = contains p.signals (ofSig i) := by
    intro i h18 h19
    rw [Bool.eq_iff_iff, contains_checkPendingSignals_of_ne h18 h19, ← enters_iff, h.enters]
    simp
  have hnot : ¬ p.Handles 0 := by
    intro hh
    have hdel := hh.1
    simp only [deliverable, h.noDef] at hdel
    cases hdel
  refine ⟨?_, ?_, ?_, ?_⟩
  · simp only [staysFrozen, Bool.and_eq_true, Bool.not_eq_true']
    constructor
    · exact (checkPendingSignals_frozen p).mpr (.inr ⟨h.not_handles hu18, hstays.1⟩)
    · rw [← Bool.not_eq_true, checkPendingSignals_killed]
      rintro (hkilled | h0 | h9)
      · rw [hstays.2] at hkilled
        cases hkilled
      · exact hnot h0
      · exact h.not_handles hu h9
  · have hblocked := h.blocked
    rw [← hblocked, userDeliverable, userDeliverable, deliverable, deliverable, masked, masked,
      hpending u hu18.ne (hu18.trans (by decide)).ne, checkPendingSignals_signalMask, hhandling,
      checkPendingSignals_actions]
  · intro v hv
    rw [checkPendingSignals_actions]
    exact h.default v hv
  · rw [hpending 0 (by decide) (by decide)]
    exact h.noDef

/-- A signal other than SIGDEF leaves the process stuck. -/
theorem sent (h : p.Stuck u) {signum : Int} (hdef : shiftSig signum ≠ 0) :
    (killSignal p signum).2.Stuck u := by
  unfold killSignal
  dsimp only
  split
  · exact h
  · refine ⟨h.stays, ?_, h.default, ?_⟩
    · have hblocked := h.blocked
      simp only [userDeliverable, deliverable, masked, contains_or_ofSig, Bool.and_eq_true,
        Bool.or_eq_true] at hblocked ⊢
      exact ⟨⟨⟨.inl hblocked.1.1.1, hblocked.1.1.2⟩, hblocked.1.2⟩, hblocked.2⟩
    · rw [contains_or_ofSig, h.noDef, Bool.false_or]
      exact decide_eq_false hdef.symm

end SignalState.Stuck

/-- Such a process never leaves the loop of `handle_signals`, whatever it is
sent except SIGDEF. -/
theorem stuck_stays {p₀ : SignalState} {u : Fin (MAX_SIG + 1)} (hstuck : p₀.Stuck u) (hu : u < 9)
    {tr : List TrapEvent} {s : TrapProc}
    (hrun : Runs (fun s e s' => TrapStep s e s' ∧ ∀ signum, e = .sent signum → shiftSig signum ≠ 0)
      ⟨p₀, .stage⟩ tr s) : s.place = .stage ∧ s.sig.Stuck u := by
  refine hrun.invariant (I := fun s => s.place = .stage ∧ s.sig.Stuck u) ⟨rfl, hstuck⟩ ?_
  rintro a e b ⟨hplace, hI⟩ ⟨hs, hdef⟩
  cases hs with
  | round =>
      have hnext := hI.round hu
      exact ⟨if_pos hnext.stays, hnext⟩
  | sent _ signum => exact ⟨hplace, hI.sent (hdef signum rfl)⟩
  | _ => cases hplace

/-! ## Killed processes -/

namespace SignalState

/-- A process that a round finds or marks killed exits at the end of it. -/
def KilledExits (p : SignalState) : Prop :=
  (checkPendingSignals p).killed = true →
    ∃ exitCode, roundEnd (checkPendingSignals p) = .exited exitCode

/-- A fatal signal is pending and no handler is entered for it. -/
def KeepsFatal (p : SignalState) : Prop :=
  ∃ f ∈ fatalSignals, contains p.signals (ofSig f) = true ∧ ¬ p.FirstHandled f

/-- The process is not marked killed and SIGDEF is not delivered to it, or a
fatal signal stays pending. -/
def NoBareKill (p : SignalState) : Prop :=
  (p.killed = false ∧ p.deliverable SIGDEF = false) ∨ p.KeepsFatal

theorem checkError_ne_none {p : SignalState} :
    (checkPendingSignals p).signals.checkError ≠ none ↔ p.KeepsFatal := by
  rw [Ne, SignalFlags.checkError_eq_none]
  push Not
  refine exists_congr fun f => and_congr_right fun hf => ?_
  obtain ⟨h18, h19⟩ := fatal_ne hf
  rw [ne_eq, Bool.not_eq_false, contains_checkPendingSignals_of_ne h18 h19]

theorem exits_iff {p : SignalState} (h : (checkPendingSignals p).killed = true) :
    (∃ exitCode, roundEnd (checkPendingSignals p) = .exited exitCode) ↔ p.KeepsFatal := by
  have hgo : (checkPendingSignals p).staysFrozen = false := by
    rw [staysFrozen, h]
    exact Bool.and_false _
  rw [← checkError_ne_none]
  unfold roundEnd
  rw [hgo, if_neg Bool.false_ne_true]
  cases (checkPendingSignals p).signals.checkError with
  | none => simp
  | some e => exact iff_of_true ⟨e.1, rfl⟩ (by simp)

/-- SIGKILL stays pending when it is handled. -/
theorem keepsFatal_of_kill {p : SignalState} (h : p.Handles 9) : p.KeepsFatal := by
  have hdel := h.1
  simp only [deliverable, Bool.and_eq_true] at hdel
  refine ⟨9, by decide, hdel.1.1, ?_⟩
  rintro ⟨huser, -⟩
  rw [userDeliverable, h.2.1, Bool.not_true, Bool.and_false] at huser
  cases huser

theorem killedExits_iff {p : SignalState} : p.KilledExits ↔ p.NoBareKill := by
  constructor
  · intro h
    by_cases hmark : p.killed = true ∨ p.deliverable SIGDEF = true
    · have hkilled : (checkPendingSignals p).killed = true := by
        refine (checkPendingSignals_killed p).mpr ?_
        rw [handles_zero]
        exact hmark.imp_right .inl
      exact .inr ((exits_iff hkilled).mp (h hkilled))
    · simp only [not_or, Bool.not_eq_true] at hmark
      exact .inl hmark
  · intro h hkilled
    rw [exits_iff hkilled]
    rcases h with ⟨hnot, hdef⟩ | hkeeps
    · rw [checkPendingSignals_killed, handles_zero, hnot, hdef] at hkilled
      exact keepsFatal_of_kill (by simpa using hkilled)
    · exact hkeeps

end SignalState

/-- A round in which SIGDEF marks no process killed. -/
def TrapProc.NoBareKill (s : TrapProc) : TrapEvent → Prop
  | .round _ => s.sig.NoBareKill
  | _ => True

/-- Steps that meet the condition. -/
def NoBareKillStep (s : TrapProc) (e : TrapEvent) (s' : TrapProc) : Prop :=
  TrapStep s e s' ∧ s.NoBareKill e

/-- Who is marked killed has exited. -/
def TrapProc.KilledGone (s : TrapProc) : Prop :=
  s.sig.killed = true → ∃ exitCode, s.place = .exited exitCode

/-- Only a round marks a process killed, and only who has not exited takes a
step. -/
theorem TrapStep.killed {s s' : TrapProc} {e : TrapEvent} (h : TrapStep s e s') :
    (∀ exitCode, s.place ≠ .exited exitCode)
      ∧ ((∃ entered, e = .round entered) ∨ s'.sig.killed = s.sig.killed) := by
  cases h with
  | user cx => exact ⟨fun _ => by simp, .inr rfl⟩
  | fault signal => exact ⟨fun _ => by simp, .inr rfl⟩
  | sigprocmask mask => exact ⟨fun _ => by simp, .inr rfl⟩
  | sigaction signum action oldAction new =>
      obtain ⟨actions, hact⟩ := sysSigaction_changes _ signum action oldAction new
      exact ⟨fun _ => by simp, .inr (by rw [hact])⟩
  | sigreturn hret =>
      obtain ⟨cx, -, rfl⟩ := sigreturnTrap_changes hret
      exact ⟨fun _ => by simp, .inr rfl⟩
  | exec cx => exact ⟨fun _ => by simp, .inr rfl⟩
  | stage => exact ⟨fun _ => by simp, .inr rfl⟩
  | round => exact ⟨fun _ => by simp, .inl ⟨_, rfl⟩⟩
  | sent hplace signum =>
      obtain ⟨signals, hkill⟩ := killSignal_changes _ signum
      exact ⟨hplace, .inr (by rw [hkill])⟩

theorem TrapProc.KilledGone.step {s s' : TrapProc} {e : TrapEvent} (h : s.KilledGone)
    (hs : NoBareKillStep s e s') : s'.KilledGone := by
  obtain ⟨hs, hcond⟩ := hs
  obtain ⟨halive, ⟨entered, rfl⟩ | hsame⟩ := hs.killed
  · cases hs
    exact SignalState.killedExits_iff.mpr hcond
  · intro hkilled
    rw [hsame] at hkilled
    obtain ⟨exitCode, hplace⟩ := h hkilled
    exact absurd hplace (halive exitCode)

/-- For every process, one that is marked killed after a round exits exactly
if SIGDEF did not mark it, or a fatal signal stays pending; and as long as
this holds at every round, no process in user mode is marked killed. -/
theorem killed_exits_iff (p : SignalState) (s₀ s : TrapProc) (tr : List TrapEvent) :
    (p.KilledExits ↔ p.NoBareKill)
      ∧ (s₀.sig.killed = false → Runs NoBareKillStep s₀ tr s → s.place = .user →
        s.sig.killed = false) := by
  refine ⟨SignalState.killedExits_iff, fun hinit hrun huser => ?_⟩
  have hgone : s.KilledGone := by
    refine hrun.invariant (I := TrapProc.KilledGone) ?_ fun _ _ _ hI hs => hI.step hs
    intro hkilled
    rw [hinit] at hkilled
    cases hkilled
  by_contra hkilled
  obtain ⟨exitCode, hplace⟩ := hgone (by simpa using hkilled)
  rw [huser] at hplace
  cases hplace

/-- A process that was sent `signum`. -/
def sentSignal (signum : Int) : SignalState := (killSignal (.new (contextAt 0x1000)) signum).2

/-- SIGKILL marks a process killed, and it exits. -/
theorem killed_exits_sigkill :
    (checkPendingSignals (sentSignal 9)).killed = true ∧ (sentSignal 9).KilledExits := by
  obtain ⟨hiff, -⟩ := killed_exits_iff (sentSignal 9) ⟨sentSignal 9, .user⟩ ⟨sentSignal 9, .user⟩ []
  exact ⟨by decide +kernel, hiff.mpr (.inl (by decide +kernel))⟩

/-- A process that is sent signal 0 is marked killed and goes on in user mode. -/
theorem sigdef_runs_on :
    ¬ ((∀ p : SignalState, p.KilledExits)
      ∧ ∀ (s₀ s : TrapProc) (tr : List TrapEvent), s₀.sig.killed = false →
        Runs TrapStep s₀ tr s → s.place = .user → s.sig.killed = false) := by
  rintro ⟨-, hruns⟩
  have hround : TrapStep ⟨sentSignal 0, .stage⟩ _ _ := .round
  have hrun : Runs TrapStep ⟨.new (contextAt 0x1000), .user⟩ _ _ :=
    Runs.cons (.user (contextAt 0x1000)) <| .cons .stage <|
      .cons (.sent (by simp) 0) (.single hround)
  have hkilled := hruns _ _ _ rfl hrun (by decide +kernel)
  exact absurd hkilled (by decide +kernel)

/-! ## Masked and handled signals -/

/-- SIGINT, SIGABRT and SIGFPE. -/
def catchableSignals : List (Fin (MAX_SIG + 1)) := [2, 6, 8]

namespace SignalState

/-- The process masks `sig` or has a handler for it. -/
def Protected (p : SignalState) (sig : Fin (MAX_SIG + 1)) : Prop :=
  contains p.signalMask (ofSig sig) = true ∨ (getElem p.signalActions sig (sig_lt sig)).handler ≠ 0

/-- `sig` is not pending, its handler is the one to be entered, or a fatal
signal with a smaller number is pending that is not entered. -/
def Spared (p : SignalState) (sig : Fin (MAX_SIG + 1)) : Prop :=
  contains p.signals (ofSig sig) = false ∨ p.FirstHandled sig
    ∨ ∃ f ∈ fatalSignals, f < sig ∧ contains p.signals (ofSig f) = true ∧ ¬ p.FirstHandled f

end SignalState

theorem catchable_fatal {sig : Fin (MAX_SIG + 1)} (h : sig ∈ catchableSignals) :
    sig ∈ fatalSignals := by
  revert sig
  decide

/-- A round that leaves the process stopped, or a signal that arrives while it
waits for the next one. -/
def StageStep (s : TrapProc) (e : TrapEvent) (s' : TrapProc) : Prop :=
  TrapStep s e s' ∧ s.place = .stage ∧ s'.place = .stage

theorem exited_iff_code {q : SignalState} (h : roundEnd q ≠ .stage) (code : Int) :
    roundEnd q = .exited code ↔ q.signals.checkError.map Prod.fst = some code := by
  unfold roundEnd at h ⊢
  split
  · next hstays => rw [if_pos hstays] at h; exact absurd rfl h
  · cases q.signals.checkError with
    | none => simp
    | some e => simp

theorem spared_iff {p : SignalState} {sig : Fin (MAX_SIG + 1)} (hsig : sig ∈ fatalSignals) :
    (checkPendingSignals p).signals.checkError.map Prod.fst ≠ some (-(sig.val : Int))
      ↔ p.Spared sig := by
  rw [Ne, checkPendingSignals_code hsig]
  unfold SignalState.Spared
  rw [← Bool.not_eq_true]
  push Not
  rw [and_imp, imp_iff_not_or, imp_iff_not_or, not_not]

/-- `sys_kill` only adds signals. -/
theorem contains_killSignal {p : SignalState} {sig : Fin (MAX_SIG + 1)} (signum : Int)
    (h : contains p.signals (ofSig sig) = true) :
    contains (killSignal p signum).2.signals (ofSig sig) = true := by
  unfold killSignal
  dsimp only
  split
  · exact h
  · rw [contains_or_ofSig, h, Bool.true_or]

section Stage

variable {sig : Fin (MAX_SIG + 1)} {s s' : TrapProc} {e : TrapEvent}

/-- In the stage no step changes the mask. -/
theorem TrapStep.stage_mask (h : TrapStep s e s') (hs : s.place = .stage) :
    s'.sig.signalMask = s.sig.signalMask := by
  cases h with
  | round => exact checkPendingSignals_signalMask _
  | sent _ signum =>
      obtain ⟨signals, hkill⟩ := killSignal_changes _ signum
      rw [hkill]
  | _ => cases hs

/-- In the stage a signal other than SIGCONT and SIGSTOP leaves the pending set
in a round that enters its handler. -/
theorem TrapStep.stage_pending (h : TrapStep s e s') (hs : s.place = .stage)
    (hsig : sig ∈ fatalSignals) (hp : contains s.sig.signals (ofSig sig) = true) :
    contains s'.sig.signals (ofSig sig) = true ∨ e = .round (some sig) := by
  obtain ⟨h18, h19⟩ := fatal_ne hsig
  cases h with
  | @round p =>
      by_cases hfirst : p.FirstHandled sig
      · exact .inr (by rw [SignalState.enters_iff.mpr hfirst])
      · exact .inl ((contains_checkPendingSignals_of_ne h18 h19).mpr ⟨hp, hfirst⟩)
  | sent _ signum => exact .inl (contains_killSignal signum hp)
  | _ => cases hs

/-- A masked signal is not entered. -/
theorem TrapStep.stage_masked (h : TrapStep s e s')
    (hmask : contains s.sig.signalMask (ofSig sig) = true) : e ≠ .round (some sig) := by
  cases h with
  | round =>
      intro heq
      simp only [TrapEvent.round.injEq] at heq
      have hdel := (SignalState.enters_iff.mp heq).1
      dsimp only at hmask
      simp only [SignalState.userDeliverable, SignalState.deliverable, hmask] at hdel
      simp at hdel
  | _ => simp

/-- The stage so far: the mask is the one it began with, and the signal is still
pending unless a round entered its handler, which does not happen when it is
masked. -/
structure StageSoFar (p₀ : SignalState) (sig : Fin (MAX_SIG + 1)) (tr : List TrapEvent)
    (s : TrapProc) : Prop where
  mask : s.sig.signalMask = p₀.signalMask
  pending : contains s.sig.signals (ofSig sig) = true ∨ .round (some sig) ∈ tr
  masked : contains p₀.signalMask (ofSig sig) = true → .round (some sig) ∉ tr

theorem StageSoFar.step {p₀ : SignalState} {tr : List TrapEvent} (h : StageSoFar p₀ sig tr s)
    (hsig : sig ∈ fatalSignals) (hs : TrapStep s e s') (hplace : s.place = .stage) :
    StageSoFar p₀ sig (tr ++ [e]) s' where
  mask := (hs.stage_mask hplace).trans h.mask
  pending := by
    rcases h.pending with hp | hmem
    · refine (hs.stage_pending hplace hsig hp).imp_right fun heq => ?_
      rw [heq]
      exact List.mem_append_right _ (List.mem_singleton_self _)
    · exact .inr (List.mem_append_left _ hmem)
  masked := by
    intro hmask hmem
    rcases List.mem_append.mp hmem with hmem | hmem
    · exact h.masked hmask hmem
    · rw [← h.mask] at hmask
      exact hs.stage_masked hmask (List.mem_singleton.mp hmem).symm

end Stage

/-- For SIGINT, SIGABRT and SIGFPE, sent to a process that masks it or has a
handler for it: the last round of the signal stage ends the process because
of that signal exactly if it is still pending there, is not the one whose
handler is entered, and no fatal signal with a smaller number stays pending;
a masked signal stays pending, and one leaves the pending set only in a round
that enters its handler. -/
theorem protected_spared_iff {sig : Fin (MAX_SIG + 1)} (hsig : sig ∈ catchableSignals)
    {p₀ p : SignalState} {tr : List TrapEvent} {s : TrapProc}
    (hsent : contains p₀.signals (ofSig sig) = true)
    (hstage : Runs StageStep ⟨p₀, .stage⟩ tr ⟨p, .stage⟩)
    (hlast : TrapStep ⟨p, .stage⟩ (.round p.enters) s) (hend : s.place ≠ .stage) :
    (p₀.Protected sig → (s.place ≠ .exited (-(sig.val : Int)) ↔ p.Spared sig))
      ∧ (contains p₀.signalMask (ofSig sig) = true → contains s.sig.signals (ofSig sig) = true)
      ∧ (contains s.sig.signals (ofSig sig) = true
        ∨ .round (some sig) ∈ tr ++ [.round p.enters]) := by
  have hfatal := catchable_fatal hsig
  have hsofar : StageSoFar p₀ sig tr ⟨p, .stage⟩ := by
    refine hstage.trace_invariant (I := StageSoFar p₀ sig) ⟨rfl, .inl hsent, by simp⟩ ?_
    exact fun tr a e b h hs => h.step hfatal hs.1 hs.2.1
  have hwhole := hsofar.step hfatal hlast rfl
  refine ⟨fun _ => ?_, fun hmask => ?_, hwhole.pending⟩
  · cases hlast
    rw [Ne, exited_iff_code hend]
    exact spared_iff hfatal
  · exact hwhole.pending.resolve_right (hwhole.masked hmask)

/-- A process with a handler for SIGINT is sent SIGINT. -/
def handledInt : SignalState :=
  (killSignal (sysSigaction (.new (contextAt 0x1000)) 2 0x8000 0x8010
    { handler := 0x2000, mask := 40 }).2.2 2).2

/-- It goes on, in the handler. -/
theorem protected_spared_handled :
    roundEnd (checkPendingSignals handledInt) ≠ .exited (-2)
      ∧ (checkPendingSignals handledInt).trapCx.sepc = 0x2000 := by
  refine ⟨?_, by decide +kernel⟩
  have hmeets :=
    protected_spared_iff (show 2 ∈ catchableSignals by decide) (p := handledInt) (by decide +kernel)
      (.nil _) .round (by decide +kernel)
  exact (hmeets.1 (.inr (by decide +kernel))).mpr (.inr (.inl (by decide +kernel)))

/-- A process that masks SIGINT is sent SIGINT. -/
def maskedInt : SignalState :=
  (killSignal (sysSigprocmask (.new (contextAt 0x1000)) SIGINT).2 2).2

/-- It is ended by SIGINT. -/
theorem masked_sigint_kills :
    ¬ ∀ (sig : Fin (MAX_SIG + 1)) (p₀ p : SignalState) (tr : List TrapEvent) (s : TrapProc),
      sig ∈ catchableSignals → contains p₀.signals (ofSig sig) = true → p₀.Protected sig →
        Runs StageStep ⟨p₀, .stage⟩ tr ⟨p, .stage⟩ →
        TrapStep ⟨p, .stage⟩ (.round p.enters) s → s.place ≠ .exited (-(sig.val : Int)) := by
  intro hall
  exact hall 2 maskedInt maskedInt [] _ (by decide) (by decide +kernel) (.inl (by decide +kernel))
    (.nil _) .round (by decide +kernel)

end Nimloth
