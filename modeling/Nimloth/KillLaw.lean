import Mathlib.Tactic.Common
import Nimloth.KernelTree
import Nimloth.SignalScan

/-!
# Sending signals

`sys_kill` finds the process in the pid map, which holds exactly the live
ones, and adds the signal if it is not pending. The number becomes a
signal by `1 << signum`, and a release build reduces the count modulo
32: a number that is none is not refused, it names another signal
(`sys_kill_law_iff`).
-/

namespace Nimloth

open SignalFlags

namespace Kernel

/-- `signum` is the number of `sig`, and `p` is the live process with this pid,
to which it is not yet sent. -/
structure Killable (k : Kernel) (pid : Nat) (signum : Int) (p : Nat) (sig : Fin (MAX_SIG + 1)) :
    Prop where
  live : k.isLive p = true
  pid : k.pidOf p = pid
  signum : (sig.val : Int) = signum
  free : ∀ inner, k.procs p = some inner → contains inner.sig.signals (ofSig sig) = false

/-- The state with `sig` pending in `p`. -/
def addPending (k : Kernel) (p : Nat) (sig : Fin (MAX_SIG + 1)) : Kernel :=
  k.modifyProc p fun inner =>
    { inner with sig := { inner.sig with signals := inner.sig.signals ||| ofSig sig } }

/-- The call succeeds and adds the signal where the arguments name a live process
and a signal that is not pending there, and otherwise it fails and changes
nothing. -/
structure KillLaw (k : Kernel) (pid : Nat) (signum : Int) : Prop where
  sent : ∀ p sig, k.Killable pid signum p sig → k.sysKill pid signum = (0, k.addPending p sig)
  refused : (∀ p sig, ¬ k.Killable pid signum p sig) → k.sysKill pid signum = (-1, k)

/-- The number is that of a signal, unless no live process has this pid or the
signal `signum` modulo 32 is pending there. -/
def KillInRange (k : Kernel) (pid : Nat) (signum : Int) : Prop :=
  ∀ p inner, k.procs p = some inner → k.isLive p = true → inner.pid = pid →
    (0 ≤ signum ∧ signum ≤ MAX_SIG)
      ∨ contains inner.sig.signals (ofSig (shiftSig signum)) = true

/-! ## The call -/

theorem modifyProc_self {k : Kernel} {p : Nat} {inner : Pcb} (hp : k.procs p = some inner)
    {f : Pcb → Pcb} (hf : f inner = inner) : k.modifyProc p f = k := by
  unfold modifyProc
  rw [hp, Option.map_some, hf, ← hp, Function.update_eq_self]

theorem sysKill_none {k : Kernel} {pid : Nat} (h : k.pid2process pid = none) (signum : Int) :
    k.sysKill pid signum = (-1, k) := by
  unfold sysKill
  rw [h]

theorem sysKill_pending {k : Kernel} {pid p : Nat} {inner : Pcb} {signum : Int}
    (h : k.pid2process pid = some p) (hp : k.procs p = some inner)
    (hset : contains inner.sig.signals (ofSig (shiftSig signum)) = true) :
    k.sysKill pid signum = (-1, k) := by
  have hkill : killSignal inner.sig signum = (-1, inner.sig) := if_pos hset
  unfold sysKill
  rw [h]
  dsimp only
  rw [hp, Option.map_some, Option.getD_some, hkill,
    modifyProc_self hp (by rw [hkill])]

theorem sysKill_sent {k : Kernel} {pid p : Nat} {inner : Pcb} {signum : Int}
    (h : k.pid2process pid = some p) (hp : k.procs p = some inner)
    (hfree : contains inner.sig.signals (ofSig (shiftSig signum)) = false) :
    k.sysKill pid signum = (0, k.addPending p (shiftSig signum)) := by
  have hkill : killSignal inner.sig signum
      = (0, { inner.sig with signals := inner.sig.signals ||| ofSig (shiftSig signum) }) :=
    if_neg (by rw [hfree]; exact Bool.false_ne_true)
  unfold sysKill addPending modifyProc
  rw [h]
  dsimp only
  rw [hp, Option.map_some, Option.getD_some, Option.map_some, Option.map_some, hkill]

theorem shiftSig_val {signum : Int} (h0 : 0 ≤ signum) (h31 : signum ≤ MAX_SIG) :
    ((shiftSig signum).val : Int) = signum := by
  simp only [shiftSig, MAX_SIG] at h31 ⊢
  omega

theorem shiftSig_natCast (sig : Fin (MAX_SIG + 1)) : shiftSig (sig.val : Int) = sig := by
  have hlt : sig.val < 32 := sig.isLt
  refine Fin.ext ?_
  simp only [shiftSig]
  omega

theorem killLaw_iff {k : Kernel} (h : k.TreeOk) (pid : Nat) (signum : Int) :
    k.KillLaw pid signum ↔ k.KillInRange pid signum := by
  constructor
  · intro hlaw p inner hp hlive hpid
    by_contra hno
    push Not at hno
    obtain ⟨hrange, hfree⟩ := hno
    have hfound : k.pid2process pid = some p :=
      (h.pid2process_iff pid p).mpr ⟨hlive, by simp [pidOf, hp, hpid]⟩
    -- the number is no signal's, so the call should fail, and it does not
    have hrefused := hlaw.refused fun q sig hk => by
      have hlt : sig.val < 32 := sig.isLt
      have hval := hk.signum
      have := hrange (by omega)
      simp only [MAX_SIG] at this
      omega
    rw [sysKill_sent hfound hp (Bool.not_eq_true _ ▸ hfree)] at hrefused
    have hresult : (0 : Int) = -1 := congrArg Prod.fst hrefused
    omega
  · intro hrange
    refine ⟨?_, ?_⟩
    · rintro p sig ⟨hlive, hpid, rfl, hfree⟩
      obtain ⟨inner, hp, -⟩ := isLive_iff.mp hlive
      have hfound := (h.pid2process_iff pid p).mpr ⟨hlive, hpid⟩
      have hsent := @sysKill_sent k pid p inner (sig.val : Int) hfound hp
      rw [shiftSig_natCast] at hsent
      exact hsent (hfree inner hp)
    · intro hnone
      cases hfound : k.pid2process pid with
      | none => exact sysKill_none hfound signum
      | some p =>
          obtain ⟨hlive, hpid⟩ := (h.pid2process_iff pid p).mp hfound
          obtain ⟨inner, hp, -⟩ := isLive_iff.mp hlive
          have hpid' : inner.pid = pid := by simpa [pidOf, hp] using hpid
          refine sysKill_pending hfound hp ?_
          rcases hrange p inner hp hlive hpid' with ⟨h0, h31⟩ | hset
          · by_contra hfree
            refine hnone p (shiftSig signum) ⟨hlive, hpid, shiftSig_val h0 h31, ?_⟩
            intro inner' hp'
            cases hp.symm.trans hp'
            exact Bool.not_eq_true _ ▸ hfree
          · exact hset

end Kernel

/-- In every reachable state, for all arguments: the law holds exactly if the
number is that of a signal, or no live process has the pid, or the signal
`signum` modulo 32 is already pending there. -/
theorem sys_kill_law_iff {cx : TrapContext} {tr : List Act} {k : Kernel}
    (h : Runs KStep (Kernel.boot cx) tr k) (pid : Nat) (signum : Int) :
    k.KillLaw pid signum ↔ k.KillInRange pid signum :=
  Kernel.killLaw_iff (Kernel.reachable_tree h).2.1 pid signum

/-- SIGUSR1 is sent to `initproc`. -/
theorem sys_kill_law_usr1 :
    ((Kernel.boot (contextAt 0)).sysKill 0 10).1 = 0
      ∧ (Kernel.boot (contextAt 0)).KillLaw 0 10 :=
  ⟨by decide +kernel, (sys_kill_law_iff (.nil _) 0 10).mpr fun _ _ _ _ _ => .inl (by decide)⟩

/-- What `kernel_sig_test_ignore` does: the mask of SIGSTOP in place of its
number. The call succeeds, and SIGDEF is sent. -/
theorem sys_kill_mask_for_number :
    ¬ ∀ (cx : TrapContext) (tr : List Act) (k : Kernel), Runs KStep (Kernel.boot cx) tr k →
        ∀ (pid : Nat) (signum : Int), k.KillLaw pid signum := by
  intro hall
  have hlaw := hall (contextAt 0) [] _ (.nil _) 0 524288
  have hrefused := hlaw.refused fun p sig hk => by
    have hlt : sig.val < 32 := sig.isLt
    have hval := hk.signum
    omega
  exact absurd (congrArg Prod.fst hrefused) (by decide +kernel)

end Nimloth
