import Mathlib.Tactic.Common
import Nimloth.KernelTree

/-!
# Descriptors, exits and the end of a pipe

The strong count of a file object counts descriptor table entries and
the clones held by calls in progress. A process inside a call still has
the descriptor it made the call with (`Held.calls`), so an object to which
no process has a descriptor has no reference at all
(`Held.fileStrong_eq_zero`); for the write end of a pipe that is
`all_write_ends_closed`.

`exit_current_and_run_next` leaves the descriptor table of the zombie as
it is, so the table of an exited process counts until it is reaped.
`pipe_eof_after_exits` is the law for one object `w` in the runs where no
process exits with `w` open (`ExitsWithout`), and says that an exit with
`w` open breaks it at once; `pipe_eof_unreaped_writer` is the smallest
such run.
-/

namespace Nimloth

/-- A step in which no process exits with a descriptor for `w`. -/
def ExitsWithout (w : Nat) (k : Kernel) (a : Act) (k' : Kernel) : Prop :=
  KStep k a k' ∧ ∀ p exitCode, a = .exit p exitCode → some w ∉ k.fdTableOf p

namespace Kernel

/-- What the counts of file objects rest on. -/
structure Held (k : Kernel) : Prop where
  rings : k.RingsOk
  calls : ∀ p f call, k.calls p = some (f, call) → some f ∈ k.fdTableOf p

theorem boot_held (cx : TrapContext) : (boot cx).Held where
  rings := {
    files := fun f (hf : 3 ≤ f) => by
      have h0 : f ≠ 0 := by omega
      have h1 : f ≠ 1 := by omega
      have h2 : f ≠ 2 := by omega
      simp [boot, h0, h1, h2]
    buffer := fun f readable writable b hf => by
      simp only [boot] at hf
      split_ifs at hf <;> cases hf
    ring := fun b hb => absurd hb (Nat.not_lt_zero b)
    writeEnd := fun f b hf => by
      simp only [boot] at hf
      split_ifs at hf <;> cases hf
    calls := fun p f call h => by cases h }
  calls p f call h := by cases h

theorem Held.local {k km : Kernel} (h : k.Held) (hl : LocalStep k km) : km.Held where
  rings := hl.rings h.rings
  calls p f call hcall := by
    by_cases hp : k.current = some p
    · obtain ⟨htable, hmem | ⟨call', hold⟩⟩ := hl.call p f call hp hcall
      · rw [htable]
        exact hmem
      · rw [htable]
        exact h.calls p f call' hold
    · rw [hl.calls p hp] at hcall
      rw [hl.fdTable p hp]
      exact h.calls p f call hcall

theorem fdTableOf_setStatus (k : Kernel) (p : Nat) (s : ProcessStatus) (q : Nat) :
    (k.mapProcs fun q inner => if q = p then { inner with processStatus := s } else inner).fdTableOf
      q = k.fdTableOf q :=
  fdTableOf_mapProcs k fun inner => by split <;> rfl

/-- No action changes the descriptor table of a process that exists before
and after it. -/
theorem Action.fdTable {k k' : Kernel} {a : Act} (ha : Action k a k') (hplaced : k.Placed)
    {q : Nat} (hq : k.present q = true) (hq' : k'.present q = true) :
    k'.fdTableOf q = k.fdTableOf q := by
  cases ha with
  | none => rfl
  | fetch _ _ => exact fdTableOf_setStatus k _ _ q
  | suspend _ => exact fdTableOf_setStatus k _ _ q
  | fork _ =>
      have hne : q ≠ k.nextProc := by
        rintro rfl
        simp [present, hplaced.fresh k.nextProc (Nat.le_refl _)] at hq
      exact congrArg (Option.getD · []) (field_forkedBy Pcb.fdTable (fun _ _ => rfl) hne)
  | exit exitCode _ _ _ => exact fdTableOf_mapProcs k fun inner => rfl
  | @reap p c inner pid pids hcur hfind hpids =>
      rw [present_reaped, Bool.and_eq_true, decide_eq_true_iff] at hq'
      exact congrArg (Option.getD · []) (field_reaped Pcb.fdTable (fun _ _ => rfl) hq'.2)

theorem Action.calls {k k' : Kernel} {a : Act} (ha : Action k a k') : k'.calls = k.calls := by
  cases ha <;> rfl

theorem RingsOk.action {k k' : Kernel} {a : Act} (h : k.RingsOk) (ha : Action k a k') :
    k'.RingsOk := by
  cases ha <;> exact ⟨h.files, h.buffer, h.ring, h.writeEnd, h.calls⟩

/-- A process that is not a zombie before an action still exists after it. -/
theorem Action.present_of_live {k k' : Kernel} {a : Act} (ha : Action k a k')
    (hplaced : k.Placed) {q : Nat} (hq : k.isLive q = true) :
    k'.present q = true := by
  have hpres : k.present q = true := by simp [present_eq, hq]
  cases ha with
  | none => exact hpres
  | fetch _ _ => simpa [present, Kernel.fetched, mapProcs] using hpres
  | suspend _ => simpa [present, Kernel.suspended, mapProcs] using hpres
  | fork _ =>
      rw [present_eq, isLive_forkedBy, hq]
      rfl
  | exit exitCode _ _ _ => rw [present_exited, hpres]
  | reap hcur hfind _ =>
      rw [present_eq, isLive_reaped (hplaced.reaps hcur hfind), hq]
      rfl

/-- A zombie after an action was one before or has just exited. -/
theorem Action.zombie {k k' : Kernel} {a : Act} (ha : Action k a k') (hplaced : k.Placed) {z : Nat}
    (hz : k'.isZombie z = true) :
    k.isZombie z = true ∨ (k.isLive z = true ∧ ∃ exitCode, a = .exit z exitCode) := by
  cases ha with
  | none => exact .inl hz
  | fetch _ hf =>
      have hs := SameTree.setStatus (hplaced.fetched_live hf) (s := .running) (by decide)
      exact .inl ((hs.isZombie z).symm.trans hz)
  | suspend hp =>
      have hs := SameTree.setStatus (hplaced.current_live hp) (s := .ready) (by decide)
      exact .inl ((hs.isZombie z).symm.trans hz)
  | fork _ =>
      have hne : z ≠ k.nextProc := by
        rintro rfl
        simp [isZombie, procs_forkedBy_new, Pcb.forked, Pcb.isZombie] at hz
      exact .inl ((isZombie_forkedBy hne).symm.trans hz)
  | exit exitCode hp _ _ =>
      have hlive := hplaced.current_live hp
      rw [isZombie_exited (by simp [present_eq, hlive]), Bool.or_eq_true,
        decide_eq_true_iff] at hz
      rcases hz with hz | rfl
      · exact .inl hz
      · exact .inr ⟨hlive, exitCode, rfl⟩
  | reap _ _ _ =>
      rw [isZombie_reaped, Bool.and_eq_true] at hz
      exact .inl hz.1

/-- The descriptor table of a zombie after a step is the one it had before. -/
theorem zombie_fdTable {k km k' : Kernel} {a : Act} (hplaced : k.Placed) (hl : LocalStep k km)
    (ha : Action km a k')
    (hfd : ∀ p exitCode, a = .exit p exitCode → km.fdTableOf p = k.fdTableOf p) {z : Nat}
    (hz : k'.isZombie z = true) :
    k'.fdTableOf z = k.fdTableOf z
      ∧ (k.isZombie z = true ∨ ∃ exitCode, a = .exit z exitCode) := by
  have hp' := hplaced.local hl
  have hpres' : k'.present z = true := by simp [present_eq, hz]
  rcases ha.zombie hp' hz with hold | ⟨hlive, exitCode, rfl⟩
  · have hk : k.isZombie z = true := (hl.sameTree.isZombie z).symm.trans hold
    have hcur : k.current ≠ some z := by
      intro hcur
      have := isZombie_not_live hk
      rw [hplaced.current_live hcur] at this
      cases this
    rw [ha.fdTable hp' (by simp [present_eq, hold]) hpres']
    exact ⟨hl.fdTable z hcur, .inl hk⟩
  · rw [ha.fdTable hp' (by simp [present_eq, hlive]) hpres']
    exact ⟨hfd z exitCode rfl, .inr ⟨exitCode, rfl⟩⟩

theorem Held.action {k k' : Kernel} {a : Act} (h : k.Held) (htree : k.TreeOk)
    (hplaced : k.Placed) (ha : Action k a k') : k'.Held where
  rings := h.rings.action ha
  calls p f call hcall := by
    rw [ha.calls] at hcall
    have hlive := htree.calls p (by simp [hcall])
    rw [ha.fdTable hplaced (by simp [present_eq, hlive]) (ha.present_of_live hplaced hlive)]
    exact h.calls p f call hcall

/-- An object to which no process has a descriptor has no reference. -/
theorem Held.fileStrong_eq_zero {k : Kernel} (h : k.Held) {w : Nat}
    (hlive : ∀ p, k.isLive p → some w ∉ k.fdTableOf p)
    (hzombie : ∀ z, k.isZombie z → some w ∉ k.fdTableOf z) : k.fileStrong w = 0 := by
  have hnone : ∀ q, some w ∉ k.fdTableOf q := by
    intro q
    cases hq : k.present q with
    | true =>
        rw [present_eq, Bool.or_eq_true] at hq
        exact hq.elim (hlive q) (hzombie q)
    | false =>
        have : k.procs q = none := by simpa [present] using hq
        simp [fdTableOf, this]
  refine Finset.sum_eq_zero fun q _ => ?_
  have hcall : (k.calls q).map Prod.fst ≠ some w := by
    intro hcall
    obtain ⟨⟨f, call⟩, hc, rfl⟩ := Option.map_eq_some_iff.mp hcall
    exact hnone q (h.calls q f call hc)
  rw [List.count_eq_zero.mpr (hnone q), if_neg hcall, Nat.add_zero]

/-- A reader of an empty ring with all write ends closed returns. -/
theorem runCall_eof {k : Kernel} {b : Nat} (hempty : (k.rings b).availableRead = 0)
    (hclosed : (k.rings b).allWriteEndsClosed k.fileStrong = some true) (p file : Nat)
    (c : ReadCall) :
    k.runCall p file b (.read c) = .ok { k with calls := Function.update k.calls p none } := by
  have hread : readLoop k.fileStrong (k.rings b) c = (k.rings b, c, .returned c.alreadyRead) := by
    rw [readLoop]
    simp [hempty, hclosed]
  simp [runCall, PipeCall.run, hread]

end Kernel

/-- No zombie has a descriptor for `w`, along every run without such exits. -/
theorem Kernel.reachable_zombies {cx : TrapContext} {tr : List Act} {k : Kernel} {w : Nat}
    (h : Runs (ExitsWithout w) (Kernel.boot cx) tr k) :
    k.Placed ∧ k.TreeOk ∧ k.Held ∧ ∀ z, k.isZombie z → some w ∉ k.fdTableOf z := by
  refine h.invariant (I := fun k => k.Placed ∧ k.TreeOk ∧ k.Held
    ∧ ∀ z, k.isZombie z → some w ∉ k.fdTableOf z)
    ⟨boot_placed cx, boot_treeOk cx, boot_held cx, fun z hz => ?_⟩ ?_
  · rcases eq_or_ne z 0 with rfl | hne
    · cases hz
    · simp [isZombie, boot, hne] at hz
  · rintro k a k' ⟨hp, ht, hh, hz⟩ ⟨hs, hexit⟩
    obtain ⟨km, hl, ha, hfd⟩ := hs.cases hp
    have hp' := hp.local hl
    have ht' := ht.local hp hl
    refine ⟨hp'.action ha, ht'.action hp' ha, (hh.local hl).action ht' hp' ha, ?_⟩
    intro z hz'
    obtain ⟨htable, hold | ⟨exitCode, rfl⟩⟩ := zombie_fdTable hp hl ha hfd hz'
    · rw [htable]
      exact hz z hold
    · rw [htable]
      exact hexit z exitCode rfl

/-- Where no process exits with a descriptor for `w`: no zombie keeps `w`
alive, and once no live process has a descriptor for it, nothing refers to it;
if it is the write end of a pipe, that pipe is closed and a read of it
returns when it is empty. An exit with `w` open ends this at once. -/
theorem pipe_eof_after_exits {cx : TrapContext} {tr : List Act} {k : Kernel} {w : Nat}
    (h : Runs (ExitsWithout w) (Kernel.boot cx) tr k) :
    (∀ z, k.isZombie z → some w ∉ k.fdTableOf z)
      ∧ ((∀ p, k.isLive p → some w ∉ k.fdTableOf p) →
        k.fileStrong w = 0
          ∧ ∀ b, k.files w = some (.pipe false true b) →
            (k.rings b).allWriteEndsClosed k.fileStrong = some true
              ∧ ∀ p file c, (k.rings b).availableRead = 0 →
                k.runCall p file b (.read c)
                  = .ok { k with calls := Function.update k.calls p none })
      ∧ ∀ p exitCode k', KStep k (.exit p exitCode) k' →
        ((∀ z, k'.isZombie z → some w ∉ k'.fdTableOf z) ↔ some w ∉ k.fdTableOf p) := by
  obtain ⟨hplaced, htree, hheld, hzombie⟩ := Kernel.reachable_zombies h
  refine ⟨hzombie, fun hlive => ?_, fun p exitCode k' hs => ?_⟩
  · have hzero := hheld.fileStrong_eq_zero hlive hzombie
    refine ⟨hzero, fun b hb => ?_⟩
    have hclosed : (k.rings b).allWriteEndsClosed k.fileStrong = some true := by
      rw [PipeRingBuffer.allWriteEndsClosed, hheld.rings.writeEnd w b hb, Option.map_some, hzero]
      rfl
    exact ⟨hclosed, fun p file c hempty => Kernel.runCall_eof hempty hclosed p file c⟩
  · obtain ⟨km, hl, ha, hfd⟩ := hs.cases hplaced
    constructor
    · intro hno hmem
      have hz : k'.isZombie p = true := by
        cases ha with
        | exit _ hp _ _ =>
            have hlive := (hplaced.local hl).current_live hp
            rw [Kernel.isZombie_exited (by simp [Kernel.present_eq, hlive])]
            simp
      apply hno p hz
      rw [(Kernel.zombie_fdTable hplaced hl ha hfd hz).1]
      exact hmem
    · intro hno z hz
      obtain ⟨htable, hold | ⟨exitCode', heq⟩⟩ := Kernel.zombie_fdTable hplaced hl ha hfd hz
      · rw [htable]
        exact hzombie z hold
      · cases heq
        rw [htable]
        exact hno

/-! ## Runs of a script of events -/

namespace Kernel

def enabled (k : Kernel) : KEvent → Bool
  | .fetch => k.executing.isNone
  | .resume => k.executing.any fun p => (k.calls p).isSome
  | _ => k.executing.any fun p => (k.calls p).isNone

theorem enabled_iff (k : Kernel) (e : KEvent) (h : k.enabled e = true) : k.Enabled e := by
  have hany : ∀ t : Nat → Bool, k.executing.any t = true →
      ∃ p, k.executing = some p ∧ t p = true := by
    intro t ht
    cases hexec : k.executing with
    | none =>
        rw [hexec] at ht
        cases ht
    | some p =>
        rw [hexec] at ht
        exact ⟨p, rfl, ht⟩
  cases e with
  | fetch => exact Option.isNone_iff_eq_none.mp h
  | resume => exact hany _ h
  | _ =>
      obtain ⟨p, hp, hcall⟩ := hany _ h
      exact ⟨p, hp, Option.isNone_iff_eq_none.mp hcall⟩

/-- The state after the events, if each is enabled, passes the check and does
not stop the machine. -/
def script (check : Kernel → Act → Bool) (k : Kernel) : List KEvent → Option Kernel
  | [] => some k
  | e :: es =>
      if k.enabled e && check k (k.act e) then
        match k.perform e with
        | .ok k => script check k es
        | .error _ => none
      else none

theorem script_runs {check : Kernel → Act → Bool} {es : List KEvent} {k k' : Kernel}
    (h : script check k es = some k') :
    ∃ tr, Runs (fun k a k' => KStep k a k' ∧ check k a = true) k tr k' := by
  induction es generalizing k with
  | nil =>
      cases h
      exact ⟨[], .nil _⟩
  | cons e es ih =>
      rw [script] at h
      split at h
      · next hcheck =>
          rw [Bool.and_eq_true] at hcheck
          split at h
          · next k₁ hk₁ =>
              obtain ⟨tr, hrun⟩ := ih h
              exact ⟨_, .cons ⟨⟨e, enabled_iff k e hcheck.1, hk₁, rfl⟩, hcheck.2⟩ hrun⟩
          · cases h
      · cases h

end Kernel

/-- No exit with a descriptor for `w`. -/
def closedFirst (w : Nat) (k : Kernel) : Act → Bool
  | .exit p _ => !(k.fdTableOf p).contains (some w)
  | _ => true

theorem script_exitsWithout {w : Nat} {es : List KEvent} {k k' : Kernel}
    (h : k.script (closedFirst w) es = some k') : ∃ tr, Runs (ExitsWithout w) k tr k' := by
  obtain ⟨tr, hrun⟩ := Kernel.script_runs h
  refine ⟨tr, hrun.mono fun k a k' hs => ⟨hs.1, ?_⟩⟩
  rintro p exitCode rfl
  simpa [closedFirst] using hs.2

/-- `initproc` makes a pipe, forks and closes its write end, descriptor 4; the
child is fetched and runs `child`. -/
def pipeScript (child : List KEvent) : List KEvent :=
  [.fetch, .pipe, .fork, .close 4, .yield, .fetch] ++ child

/-- After the script has run only `initproc` is live, without descriptor 4's
file. -/
theorem pipeScript_live {cx : TrapContext} {tr : List Act} {k : Kernel}
    (h : Runs KStep (Kernel.boot cx) tr k) (hnext : k.nextProc = 2) (hdead : k.isLive 1 = false)
    (hfd : (k.fdTableOf 0).contains (some 4) = false) :
    ∀ p, k.isLive p → some 4 ∉ k.fdTableOf p := by
  intro p hp
  have hplaced := Kernel.reachable_placed h
  have hlt : p < 2 := by
    by_contra hge
    rw [Kernel.isLive, hplaced.fresh p (by omega)] at hp
    cases hp
  rcases Nat.lt_succ_iff_lt_or_eq.mp hlt with h0 | rfl
  · obtain rfl : p = 0 := by omega
    simpa using hfd
  · rw [hdead] at hp
    cases hp

/-- The child closes its write end and exits: the pipe is closed before the
child is reaped. -/
theorem pipe_eof_after_close :
    ∃ cx tr k, Runs (ExitsWithout 4) (Kernel.boot cx) tr k ∧ k.isZombie 1 = true
      ∧ k.fileStrong 4 = 0 := by
  obtain ⟨k, hk, hz, hnext, hdead, hfd⟩ : ∃ k, (Kernel.boot
      ⟨Vector.replicate 32 0, 0, 0, 0, 0, 0⟩).script (closedFirst 4)
        (pipeScript [.close 4, .exit 0]) = some k ∧ k.isZombie 1 = true ∧ k.nextProc = 2
        ∧ k.isLive 1 = false ∧ (k.fdTableOf 0).contains (some 4) = false :=
    ⟨_, rfl, rfl, rfl, rfl, rfl⟩
  obtain ⟨tr, hrun⟩ := script_exitsWithout hk
  have hrun' : Runs KStep (Kernel.boot _) tr k := hrun.mono fun _ _ _ h => h.1
  exact ⟨_, tr, k, hrun, hz,
    ((pipe_eof_after_exits hrun).2.1 (pipeScript_live hrun' hnext hdead hfd)).1⟩

/-- The child exits with its write end open. No live process has the write
end, the ring is empty, and yet the pipe is not closed: the zombie holds it. -/
theorem pipe_eof_unreaped_writer :
    ∃ cx tr k, Runs KStep (Kernel.boot cx) tr k
      ∧ (∀ p, k.isLive p → some 4 ∉ k.fdTableOf p)
      ∧ k.files 4 = some (.pipe false true 0) ∧ (k.rings 0).availableRead = 0
      ∧ k.isZombie 1 = true ∧ some 4 ∈ k.fdTableOf 1
      ∧ (k.rings 0).allWriteEndsClosed k.fileStrong = some false := by
  obtain ⟨k, hk, hnext, hdead, hfd, hfile, hempty, hz, hmem, hopen⟩ : ∃ k, (Kernel.boot
      ⟨Vector.replicate 32 0, 0, 0, 0, 0, 0⟩).script (fun _ _ => true) (pipeScript [.exit 0]) = some k
        ∧ k.nextProc = 2 ∧ k.isLive 1 = false ∧ (k.fdTableOf 0).contains (some 4) = false
        ∧ k.files 4 = some (.pipe false true 0) ∧ (k.rings 0).availableRead = 0
        ∧ k.isZombie 1 = true ∧ (k.fdTableOf 1).contains (some 4) = true
        ∧ (k.rings 0).allWriteEndsClosed k.fileStrong = some false :=
    ⟨_, rfl, rfl, rfl, rfl, rfl, rfl, rfl, rfl, rfl⟩
  obtain ⟨tr, hrun⟩ := Kernel.script_runs hk
  have hrun' : Runs KStep (Kernel.boot _) tr k := hrun.mono fun _ _ _ h => h.1
  exact ⟨_, tr, k, hrun', pipeScript_live hrun' hnext hdead hfd, hfile, hempty, hz,
    by simpa using hmem, hopen⟩

end Nimloth
