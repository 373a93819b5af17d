import Mathlib.Tactic.Common
import Mathlib.Data.List.FinRange
import Nimloth.EarlyExit
import Nimloth.SignalExec

/-!
# What a pass over the pending signals does

`check_pending_signals` looks at the signals in ascending order. A
signal of the kernel's is handled and the scan goes on; the first other
signal that is pending and not masked is handed to
`call_user_signal_handler` and ends the scan, also when it has no
handler. So a pass is determined by that signal (`nextUser`) and by the
kernel's signals below it (`reached`): the fields it leaves are given by
`checkPendingSignals_killed`, `checkPendingSignals_frozen` and
`contains_checkPendingSignals`, and the later files use these only.

SIGCONT and SIGKILL are therefore held back by every deliverable signal
with a smaller number, for ever when that one has no handler
(`stop_cont_kill_iff`).
-/

namespace Nimloth

open SignalFlags

/-! ## Single signals -/

namespace SignalFlags

/-- Membership of a single signal is a bit. -/
theorem contains_ofSig (s : SignalFlags) (sig : Fin (MAX_SIG + 1)) :
    contains s (ofSig sig) = s.getLsbD sig := by
  have hsig : sig.val < 32 := sig.isLt
  have hne : (0#32 == BitVec.twoPow 32 sig.val) = false := by
    rw [beq_eq_false_iff_ne]
    intro h
    have := congrArg (·.getLsbD sig.val) h
    simp only [BitVec.getLsbD_zero, BitVec.getLsbD_twoPow, hsig, decide_true, Bool.true_and] at this
    cases this
  unfold contains ofSig
  rw [BitVec.and_twoPow]
  cases hbit : s.getLsbD sig.val with
  | true => simp
  | false => simpa using hne

theorem ofSig_injective {sig sig' : Fin (MAX_SIG + 1)} (h : ofSig sig = ofSig sig') :
    sig = sig' := by
  have hbit := congrArg (·.getLsbD sig.val) h
  simp only [ofSig, BitVec.getLsbD_twoPow, decide_true, Bool.and_true] at hbit
  have hlt : decide (sig.val < 32) = true := decide_eq_true sig.isLt
  rw [hlt, eq_comm, Bool.and_eq_true] at hbit
  exact Fin.ext (of_decide_eq_true hbit.2).symm

/-- The exclusive or that the handlers take a pending signal out with. -/
theorem contains_xor_ofSig (s : SignalFlags) {sig : Fin (MAX_SIG + 1)}
    (h : contains s (ofSig sig) = true) (i : Fin (MAX_SIG + 1)) :
    contains (s ^^^ ofSig sig) (ofSig i) = (contains s (ofSig i) && i ≠ sig) := by
  have hsig : sig.val < 32 := sig.isLt
  simp only [contains_ofSig] at h ⊢
  rw [BitVec.getLsbD_xor, ofSig, BitVec.getLsbD_twoPow]
  by_cases heq : i = sig
  · subst heq
    simp [h, hsig]
  · have hval : sig.val ≠ i.val := fun hv => heq (Fin.ext hv.symm)
    simp [heq, hval]

theorem contains_or_ofSig (s : SignalFlags) (sig i : Fin (MAX_SIG + 1)) :
    contains (s ||| ofSig sig) (ofSig i) = (contains s (ofSig i) || i = sig) := by
  have hsig : sig.val < 32 := sig.isLt
  simp only [contains_ofSig]
  rw [BitVec.getLsbD_or, ofSig, BitVec.getLsbD_twoPow]
  simp only [hsig, decide_true, Bool.true_and]
  congr 1
  exact decide_eq_decide.mpr ⟨fun hv => Fin.ext hv.symm, fun h => by rw [h]⟩

end SignalFlags

/-- The numbers of the kernel's signals: SIGDEF, SIGKILL, SIGCONT, SIGSTOP. -/
theorem kernelSignal_ofSig (sig : Fin (MAX_SIG + 1)) :
    kernelSignal (ofSig sig) = true ↔ sig = 0 ∨ sig = 9 ∨ sig = 18 ∨ sig = 19 := by
  revert sig
  decide

/-! ## One signal of the kernel's -/

theorem ofSig_eq_SIGSTOP {sig : Fin (MAX_SIG + 1)} : ofSig sig = SIGSTOP ↔ sig = 19 :=
  ⟨fun h => ofSig_injective (show ofSig sig = ofSig 19 from h), fun h => h ▸ rfl⟩

theorem ofSig_eq_SIGCONT {sig : Fin (MAX_SIG + 1)} : ofSig sig = SIGCONT ↔ sig = 18 :=
  ⟨fun h => ofSig_injective (show ofSig sig = ofSig 18 from h), fun h => h ▸ rfl⟩

section KernelHandler

variable (p : SignalState) (sig : Fin (MAX_SIG + 1))

theorem callKernelSignalHandler_signalMask :
    (callKernelSignalHandler p (ofSig sig)).signalMask = p.signalMask := by
  unfold callKernelSignalHandler
  split_ifs <;> rfl

theorem callKernelSignalHandler_killed :
    (callKernelSignalHandler p (ofSig sig)).killed
      = (p.killed || (sig ≠ 18 && sig ≠ 19)) := by
  unfold callKernelSignalHandler
  simp only [ofSig_eq_SIGSTOP, ofSig_eq_SIGCONT]
  split_ifs <;> simp_all

variable {p sig}

theorem callKernelSignalHandler_frozen (h : contains p.signals (ofSig sig) = true) :
    (callKernelSignalHandler p (ofSig sig)).frozen
      = if sig = 19 then true else if sig = 18 then false else p.frozen := by
  unfold callKernelSignalHandler
  simp only [ofSig_eq_SIGSTOP, ofSig_eq_SIGCONT]
  split_ifs with h1 h2 h3
  · rfl
  · rfl
  · exact absurd (ofSig_eq_SIGCONT.mpr h2 ▸ h) h3
  · rfl

/-- SIGSTOP and SIGCONT are taken out of the pending set, the others stay. -/
theorem contains_callKernelSignalHandler (h : contains p.signals (ofSig sig) = true)
    (i : Fin (MAX_SIG + 1)) :
    contains (callKernelSignalHandler p (ofSig sig)).signals (ofSig i)
      = (contains p.signals (ofSig i) && !(i = sig && (sig = 18 || sig = 19))) := by
  unfold callKernelSignalHandler
  simp only [ofSig_eq_SIGSTOP, ofSig_eq_SIGCONT]
  split_ifs with h1 h2 h3
  · subst h1
    simp only [show SIGSTOP = ofSig 19 from rfl, contains_xor_ofSig _ h]
    simp
  · subst h2
    simp only [show SIGCONT = ofSig 18 from rfl, contains_xor_ofSig _ h]
    simp
  · exact absurd (ofSig_eq_SIGCONT.mpr h2 ▸ h) h3
  · simp [h1, h2]

end KernelHandler

/-! ## The loop -/

namespace SignalState

/-- The scan ends at this signal when it gets there. -/
def userDeliverable (p : SignalState) (sig : Fin (MAX_SIG + 1)) : Bool :=
  p.deliverable (ofSig sig) && !kernelSignal (ofSig sig)

/-- The scan does not end below `sig`. -/
def Reaches (p : SignalState) (sig : Fin (MAX_SIG + 1)) : Prop :=
  ∀ u < sig, p.userDeliverable u = false

instance (p : SignalState) (sig : Fin (MAX_SIG + 1)) : Decidable (p.Reaches sig) :=
  inferInstanceAs (Decidable (∀ u < sig, p.userDeliverable u = false))

/-- The signals a pass gives to `call_kernel_signal_handler`. -/
def Handles (p : SignalState) (sig : Fin (MAX_SIG + 1)) : Prop :=
  p.deliverable (ofSig sig) = true ∧ kernelSignal (ofSig sig) = true ∧ p.Reaches sig

/-- The signal a pass gives to `call_user_signal_handler`. -/
def nextUser (p : SignalState) : Option (Fin (MAX_SIG + 1)) :=
  (List.finRange (MAX_SIG + 1)).find? p.userDeliverable

theorem nextUser_eq_some {p : SignalState} {sig : Fin (MAX_SIG + 1)} :
    p.nextUser = some sig ↔ p.userDeliverable sig = true ∧ p.Reaches sig := by
  unfold nextUser Reaches
  rw [find?_eq_some_of_sorted (List.pairwise_lt_finRange _)]
  simp

/-- The signals a pass gives to `call_kernel_signal_handler`, in order. -/
def handled (p : SignalState) : List (Fin (MAX_SIG + 1)) :=
  actedOn (fun p sig => p.deliverable (ofSig sig)) (fun sig => !kernelSignal (ofSig sig)) p
    (List.finRange (MAX_SIG + 1))

theorem mem_handled {p : SignalState} {sig : Fin (MAX_SIG + 1)} :
    sig ∈ p.handled ↔ p.Handles sig := by
  unfold handled actedOn Handles Reaches
  rw [List.mem_filter, mem_takeWhile_of_sorted (List.pairwise_lt_finRange _)]
  constructor
  · rintro ⟨⟨-, hall⟩, hdel⟩
    refine ⟨hdel, ?_, ?_⟩
    · simpa [hdel] using hall sig (List.mem_finRange _) le_rfl
    · intro u hu
      exact (Bool.not_eq_true' _).mp (hall u (List.mem_finRange _) hu.le)
  · rintro ⟨hdel, hker, hall⟩
    refine ⟨⟨List.mem_finRange _, ?_⟩, hdel⟩
    intro u _ hu
    rcases hu.lt_or_eq with hlt | rfl
    · exact (Bool.not_eq_true' _).mpr (hall u hlt)
    · simp [hker]

theorem handled_sorted (p : SignalState) : p.handled.Pairwise (· < ·) :=
  (List.pairwise_lt_finRange _).sublist (List.filter_sublist.trans (List.takeWhile_sublist _))

/-- Only bits of the pending set change during the loop, and a kernel signal
changes no bit but its own. -/
theorem deliverable_callKernelSignalHandler {p : SignalState} {sig i : Fin (MAX_SIG + 1)}
    (h : p.deliverable (ofSig sig) = true) (hi : i ≠ sig) :
    (callKernelSignalHandler p (ofSig sig)).deliverable (ofSig i) = p.deliverable (ofSig i) := by
  obtain ⟨-, -, hhandling, hactions⟩ := callKernelSignalHandler_frame p (ofSig sig)
  simp only [deliverable, Bool.and_eq_true] at h
  simp only [deliverable, masked, hhandling, hactions, callKernelSignalHandler_signalMask,
    contains_callKernelSignalHandler h.1.1]
  simp [hi]

end SignalState

theorem scanPending_eq_earlyExit (l : List (Fin (MAX_SIG + 1))) (p : SignalState) :
    scanPending l p = earlyExit (fun p sig => p.deliverable (ofSig sig))
      (fun sig => !kernelSignal (ofSig sig)) (fun p sig => callKernelSignalHandler p (ofSig sig))
      l p := by
  induction l generalizing p with
  | nil => rfl
  | cons sig rest ih =>
      simp only [scanPending, earlyExit, ih]
      cases kernelSignal (ofSig sig) <;> rfl

/-- The kernel's part of a pass. -/
def handleAll (l : List (Fin (MAX_SIG + 1))) (p : SignalState) : SignalState :=
  l.foldl (fun p sig => callKernelSignalHandler p (ofSig sig)) p

theorem scanPending_eq (p : SignalState) :
    scanPending (List.finRange (MAX_SIG + 1)) p = (handleAll p.handled p, p.nextUser) := by
  rw [scanPending_eq_earlyExit]
  refine earlyExit_eq ?_ (List.nodup_finRange _) p
  rintro q sig i hlive - hne
  exact SignalState.deliverable_callKernelSignalHandler hlive hne

section HandleAll

variable {l : List (Fin (MAX_SIG + 1))} {p : SignalState}

theorem handleAll_killed :
    (handleAll l p).killed = true ↔ p.killed = true ∨ ∃ sig ∈ l, sig ≠ 18 ∧ sig ≠ 19 := by
  induction l generalizing p with
  | nil => simp [handleAll]
  | cons sig rest ih =>
      refine (ih (p := callKernelSignalHandler p (ofSig sig))).trans ?_
      rw [callKernelSignalHandler_killed]
      simp [or_assoc]

/-- The signals of the rest are still pending when their turn comes. -/
theorem contains_rest {sig : Fin (MAX_SIG + 1)} {rest : List (Fin (MAX_SIG + 1))}
    (hl : (sig :: rest).Pairwise (· < ·))
    (hp : ∀ i ∈ sig :: rest, contains p.signals (ofSig i) = true) :
    ∀ i ∈ rest, contains (callKernelSignalHandler p (ofSig sig)).signals (ofSig i) = true := by
  intro i hi
  have hlt : sig < i := List.rel_of_pairwise_cons hl hi
  rw [contains_callKernelSignalHandler (hp sig (List.mem_cons_self ..)),
    hp i (List.mem_cons_of_mem _ hi)]
  simp [hlt.ne']

/-- SIGSTOP comes after SIGCONT. -/
theorem handleAll_frozen (hl : l.Pairwise (· < ·))
    (hp : ∀ i ∈ l, contains p.signals (ofSig i) = true) :
    (handleAll l p).frozen = true ↔ 19 ∈ l ∨ (18 ∉ l ∧ p.frozen = true) := by
  induction l generalizing p with
  | nil => simp [handleAll]
  | cons sig rest ih =>
      obtain ⟨hlt, hrest⟩ := List.pairwise_cons.mp hl
      refine (ih hrest (contains_rest hl hp)).trans ?_
      rw [callKernelSignalHandler_frozen (hp sig (List.mem_cons_self ..))]
      by_cases h19 : sig = 19
      · subst h19
        have hno : (18 : Fin (MAX_SIG + 1)) ∉ rest := fun h => absurd (hlt _ h) (by decide)
        simp [hno]
      · by_cases h18 : sig = 18
        · subst h18
          simp
        · simp [h18, h19, Ne.symm h18, Ne.symm h19]

theorem contains_handleAll (hl : l.Pairwise (· < ·))
    (hp : ∀ i ∈ l, contains p.signals (ofSig i) = true) (i : Fin (MAX_SIG + 1)) :
    contains (handleAll l p).signals (ofSig i) = true
      ↔ contains p.signals (ofSig i) = true ∧ ¬ (i ∈ l ∧ (i = 18 ∨ i = 19)) := by
  induction l generalizing p with
  | nil => simp [handleAll]
  | cons sig rest ih =>
      obtain ⟨hlt, hrest⟩ := List.pairwise_cons.mp hl
      refine (ih hrest (contains_rest hl hp)).trans ?_
      rw [contains_callKernelSignalHandler (hp sig (List.mem_cons_self ..))]
      by_cases heq : i = sig
      · subst heq
        simp only [Bool.and_eq_true, List.mem_cons]
        simp
        tauto
      · simp [heq]

end HandleAll

/-! ## A whole pass -/

namespace SignalState

variable {p : SignalState}

theorem handled_pending {sig : Fin (MAX_SIG + 1)} (h : sig ∈ p.handled) :
    contains p.signals (ofSig sig) = true := by
  have hdel := (mem_handled.mp h).1
  simp only [deliverable, Bool.and_eq_true] at hdel
  exact hdel.1.1

/-- A handler is entered for the first deliverable signal of the user's. -/
theorem enters_eq_some {sig : Fin (MAX_SIG + 1)} :
    p.enters = some sig ↔ p.nextUser = some sig
      ∧ (getElem p.signalActions sig (sig_lt sig)).handler ≠ 0 := by
  obtain ⟨-, -, -, hactions⟩ := scanPending_frame (List.finRange (MAX_SIG + 1)) p
  unfold enters
  rw [scanPending_eq] at hactions ⊢
  dsimp only at hactions ⊢
  cases hnext : p.nextUser with
  | none => simp
  | some next =>
      dsimp only
      rw [hactions]
      split
      · next hh =>
          simp only [Option.some.injEq]
          exact ⟨fun heq => ⟨heq, heq ▸ hh⟩, fun h => h.1⟩
      · next hh =>
          refine iff_of_false (by simp) ?_
          rintro ⟨heq, hne⟩
          cases heq
          exact hh hne

end SignalState

/-- The pass is the kernel's part and, if a handler is entered, the entry. -/
theorem checkPendingSignals_eq (p : SignalState) :
    checkPendingSignals p = match p.nextUser with
      | none => handleAll p.handled p
      | some sig => callUserSignalHandler (handleAll p.handled p) sig (ofSig sig) := by
  unfold checkPendingSignals
  rw [scanPending_eq]
  cases p.nextUser <;> rfl

theorem callUserSignalHandler_flags (p : SignalState) (sig : Fin (MAX_SIG + 1))
    (signal : SignalFlags) :
    (callUserSignalHandler p sig signal).killed = p.killed
      ∧ (callUserSignalHandler p sig signal).frozen = p.frozen
      ∧ (callUserSignalHandler p sig signal).signalMask = p.signalMask := by
  unfold callUserSignalHandler
  dsimp only
  split
  · exact ⟨rfl, rfl, rfl⟩
  · exact ⟨rfl, rfl, rfl⟩

theorem handleAll_signalMask (l : List (Fin (MAX_SIG + 1))) (p : SignalState) :
    (handleAll l p).signalMask = p.signalMask := by
  induction l generalizing p with
  | nil => rfl
  | cons sig rest ih =>
      exact (ih (callKernelSignalHandler p (ofSig sig))).trans
        (callKernelSignalHandler_signalMask p sig)

/-- Entering a handler takes its signal out of the pending set. -/
theorem contains_callUserSignalHandler {q : SignalState} {sig : Fin (MAX_SIG + 1)}
    (h : contains q.signals (ofSig sig) = true) (i : Fin (MAX_SIG + 1)) :
    contains (callUserSignalHandler q sig (ofSig sig)).signals (ofSig i) = true
      ↔ contains q.signals (ofSig i) = true
        ∧ ¬ (sig = i ∧ (getElem q.signalActions sig (sig_lt sig)).handler ≠ 0) := by
  unfold callUserSignalHandler
  dsimp only
  split
  · next hh =>
      rw [contains_xor_ofSig _ h, Bool.and_eq_true, decide_eq_true_eq]
      exact and_congr_right fun _ =>
        ⟨fun hne hand => hne hand.1.symm, fun hno heq => hno ⟨heq.symm, hh⟩⟩
  · next hh => exact ⟨fun hc => ⟨hc, fun hand => hh hand.2⟩, fun hc => hc.1⟩

theorem handleAll_actions (p : SignalState) :
    (handleAll p.handled p).signalActions = p.signalActions := by
  obtain ⟨-, -, -, hactions⟩ := scanPending_frame (List.finRange (MAX_SIG + 1)) p
  rwa [scanPending_eq] at hactions

section Pass

variable (p : SignalState)

theorem checkPendingSignals_flags :
    (checkPendingSignals p).killed = (handleAll p.handled p).killed
      ∧ (checkPendingSignals p).frozen = (handleAll p.handled p).frozen := by
  rw [checkPendingSignals_eq]
  cases p.nextUser with
  | none => exact ⟨rfl, rfl⟩
  | some sig =>
      obtain ⟨hkilled, hfrozen, -⟩ :=
        callUserSignalHandler_flags (handleAll p.handled p) sig (ofSig sig)
      exact ⟨hkilled, hfrozen⟩

theorem checkPendingSignals_signalMask : (checkPendingSignals p).signalMask = p.signalMask := by
  rw [checkPendingSignals_eq]
  cases p.nextUser with
  | none => exact handleAll_signalMask p.handled p
  | some sig =>
      obtain ⟨-, -, hmask⟩ := callUserSignalHandler_flags (handleAll p.handled p) sig (ofSig sig)
      exact hmask.trans (handleAll_signalMask p.handled p)

/-- `killed` is set by SIGDEF and SIGKILL. -/
theorem checkPendingSignals_killed :
    (checkPendingSignals p).killed = true ↔ p.killed = true ∨ p.Handles 0 ∨ p.Handles 9 := by
  rw [(checkPendingSignals_flags p).1, handleAll_killed]
  refine or_congr_right ?_
  constructor
  · rintro ⟨sig, hmem, h18, h19⟩
    have hh := SignalState.mem_handled.mp hmem
    rcases (kernelSignal_ofSig sig).mp hh.2.1 with rfl | rfl | rfl | rfl
    · exact .inl hh
    · exact .inr hh
    · exact absurd rfl h18
    · exact absurd rfl h19
  · rintro (h | h)
    · exact ⟨0, SignalState.mem_handled.mpr h, by decide, by decide⟩
    · exact ⟨9, SignalState.mem_handled.mpr h, by decide, by decide⟩

theorem checkPendingSignals_frozen :
    (checkPendingSignals p).frozen = true
      ↔ p.Handles 19 ∨ (¬ p.Handles 18 ∧ p.frozen = true) := by
  rw [(checkPendingSignals_flags p).2,
    handleAll_frozen p.handled_sorted fun _ => SignalState.handled_pending]
  simp only [SignalState.mem_handled]

/-- What a pass takes out of the pending set. -/
theorem contains_checkPendingSignals (sig : Fin (MAX_SIG + 1)) :
    contains (checkPendingSignals p).signals (ofSig sig) = true
      ↔ contains p.signals (ofSig sig) = true
        ∧ ¬ (p.Handles sig ∧ (sig = 18 ∨ sig = 19)) ∧ p.enters ≠ some sig := by
  have hkernel := contains_handleAll p.handled_sorted (fun _ => SignalState.handled_pending) sig
  rw [SignalState.mem_handled] at hkernel
  rw [checkPendingSignals_eq]
  cases hnext : p.nextUser with
  | none =>
      have hno : p.enters ≠ some sig := by
        rw [Ne, SignalState.enters_eq_some, hnext]
        simp
      dsimp only
      rw [hkernel]
      exact ⟨fun h => ⟨h.1, h.2, hno⟩, fun h => ⟨h.1, h.2.1⟩⟩
  | some next =>
      obtain ⟨hdel, -⟩ := SignalState.nextUser_eq_some.mp hnext
      simp only [SignalState.userDeliverable, SignalState.deliverable, Bool.and_eq_true,
        Bool.not_eq_true'] at hdel
      have hpending : contains (handleAll p.handled p).signals (ofSig next) = true := by
        refine (contains_handleAll p.handled_sorted (fun _ => SignalState.handled_pending) _).mpr
          ⟨hdel.1.1.1, ?_⟩
        rintro ⟨hmem, -⟩
        have hker := (SignalState.mem_handled.mp hmem).2.1
        rw [hdel.2] at hker
        cases hker
      have henters : p.enters = some sig ↔ next = sig ∧ p.signalActions[next].handler ≠ 0 := by
        rw [SignalState.enters_eq_some, hnext, Option.some.injEq]
        exact and_congr_right fun heq => by rw [heq]
      dsimp only
      rw [contains_callUserSignalHandler hpending, hkernel, handleAll_actions, and_assoc]
      exact and_congr_right fun _ => and_congr_right fun _ => (not_congr henters).symm

end Pass

/-! ## Signals in the way -/

namespace SignalState

/-- Every deliverable signal below `sig` is one of the kernel's. -/
def Unobstructed (p : SignalState) (sig : Fin (MAX_SIG + 1)) : Prop :=
  ∀ u < sig, p.deliverable (ofSig u) = true → kernelSignal (ofSig u) = true

theorem reaches_iff {p : SignalState} {sig : Fin (MAX_SIG + 1)} :
    p.Reaches sig ↔ p.Unobstructed sig := by
  unfold Reaches Unobstructed userDeliverable
  refine forall₂_congr fun u _ => ?_
  cases p.deliverable (ofSig u) <;> simp

/-- A pass lets a stopped process go on at SIGCONT. -/
def Continues (p : SignalState) : Prop :=
  (checkPendingSignals p).frozen = false ∧ contains (checkPendingSignals p).signals SIGCONT = false

/-- The test of the loop of `handle_signals` to go on. -/
def staysFrozen (p : SignalState) : Bool := p.frozen && !p.killed

/-- A pass marks the process killed and the loop of `handle_signals` ends. -/
def Kills (p : SignalState) : Prop :=
  (checkPendingSignals p).killed = true ∧ (checkPendingSignals p).staysFrozen = false

instance (p : SignalState) (sig : Fin (MAX_SIG + 1)) : Decidable (p.Unobstructed sig) :=
  inferInstanceAs
    (Decidable (∀ u < sig, p.deliverable (ofSig u) = true → kernelSignal (ofSig u) = true))

theorem kills_iff {p : SignalState} : p.Kills ↔ (checkPendingSignals p).killed = true := by
  refine and_iff_left_of_imp fun h => ?_
  rw [staysFrozen, h]
  exact Bool.and_false _

/-- A deliverable signal of the kernel's is handled if nothing is in the way. -/
theorem handles_iff {p : SignalState} {sig : Fin (MAX_SIG + 1)}
    (h : p.deliverable (ofSig sig) = true) (hk : kernelSignal (ofSig sig) = true) :
    p.Handles sig ↔ p.Unobstructed sig := by
  rw [← reaches_iff]
  exact ⟨fun hh => hh.2.2, fun hr => ⟨h, hk, hr⟩⟩

/-- Nothing can be in the way of SIGDEF. -/
theorem handles_zero {p : SignalState} : p.Handles 0 ↔ p.deliverable SIGDEF = true :=
  ⟨fun h => h.1, fun h => ⟨h, rfl, fun u hu => absurd hu (Fin.not_lt_zero u)⟩⟩

theorem enters_not_kernel {p : SignalState} {sig : Fin (MAX_SIG + 1)} (h : p.enters = some sig) :
    kernelSignal (ofSig sig) = false := by
  have huser := (nextUser_eq_some.mp (enters_eq_some.mp h).1).1
  simp only [userDeliverable, Bool.and_eq_true, Bool.not_eq_true'] at huser
  exact huser.2

theorem continues_iff {p : SignalState} (hcont : p.deliverable SIGCONT = true)
    (hstop : contains p.signals SIGSTOP = false) : p.Continues ↔ p.Handles 18 := by
  have hpending : contains p.signals (ofSig 18) = true := by
    simp only [deliverable, Bool.and_eq_true] at hcont
    exact hcont.1.1
  constructor
  · rintro ⟨-, hcleared⟩
    by_contra hno
    refine absurd ((contains_checkPendingSignals p 18).mpr ⟨hpending, fun h => hno h.1, ?_⟩) ?_
    · intro henters
      exact absurd (enters_not_kernel henters) (by decide)
    · exact Bool.eq_false_iff.mp hcleared
  · intro hh
    refine ⟨Bool.eq_false_iff.mpr ?_, Bool.eq_false_iff.mpr ?_⟩
    · rw [Ne, checkPendingSignals_frozen]
      rintro (h19 | ⟨hno, -⟩)
      · have hdel := h19.1
        simp only [deliverable, Bool.and_eq_true] at hdel
        have hpend : contains p.signals SIGSTOP = true := hdel.1.1
        rw [hstop] at hpend
        cases hpend
      · exact hno hh
    · intro hc
      exact ((contains_checkPendingSignals p 18).mp hc).2.1 ⟨hh, .inl rfl⟩

end SignalState

/-- For every process: at SIGCONT, pending without SIGSTOP and not masked, a
pass lets the process go on exactly if no signal with a smaller number is
pending and not masked, apart from the kernel's; at SIGKILL a pass marks it
killed exactly if the same holds, or it is already marked, or SIGDEF is
delivered. -/
theorem stop_cont_kill_iff (p : SignalState) :
    (p.deliverable SIGCONT = true → contains p.signals SIGSTOP = false →
        (p.Continues ↔ p.Unobstructed 18))
      ∧ (p.deliverable SIGKILL = true →
        (p.Kills ↔ p.killed = true ∨ p.deliverable SIGDEF = true ∨ p.Unobstructed 9)) := by
  refine ⟨fun hcont hstop => ?_, fun hkill => ?_⟩
  · rw [SignalState.continues_iff hcont hstop]
    exact SignalState.handles_iff hcont rfl
  · rw [SignalState.kills_iff, checkPendingSignals_killed, SignalState.handles_zero]
    exact or_congr_right (or_congr_right (SignalState.handles_iff hkill rfl))

/-- A process that was stopped, and then sent `signums`. -/
def stoppedThen (signums : List Int) : SignalState :=
  signums.foldl (fun p signum => (killSignal p signum).2)
    (checkPendingSignals (killSignal (.new (contextAt 0x1000)) 19).2)

/-- A stopped process continues at SIGCONT, and is killed by SIGKILL. -/
theorem stop_cont_kill_alone :
    (stoppedThen [18]).Continues ∧ (stoppedThen [9]).Kills :=
  ⟨((stop_cont_kill_iff _).1 (by decide +kernel) (by decide +kernel)).mpr (by decide +kernel),
    ((stop_cont_kill_iff _).2 (by decide +kernel)).mpr (.inr (.inr (by decide +kernel)))⟩

/-- A stopped process that is sent SIGHUP and then SIGCONT stays stopped. -/
theorem sighup_blocks_sigcont :
    ¬ ∀ p : SignalState,
      (p.deliverable SIGCONT = true → contains p.signals SIGSTOP = false → p.Continues)
        ∧ (p.deliverable SIGKILL = true → p.Kills) := by
  intro hall
  have hcont := (hall (stoppedThen [1, 18])).1 (by decide +kernel) (by decide +kernel)
  exact absurd hcont.1 (by decide +kernel)

end Nimloth
