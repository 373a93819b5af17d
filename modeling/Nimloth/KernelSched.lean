import Mathlib.Tactic.Common
import Nimloth.KernelSteps

/-!
# Where the scheduler keeps a process

In every reachable state a process that has not exited is in exactly one
place: it is the current one, or it stands once in one ready queue
(`Placed`). Each action moves one process from one place to another, so
each is checked against a single equation between counts.

The two `take_current_process().unwrap()` calls are reached with the
executing process still in the current slot, except on one path: the
timer branch that demotes a process has put it back into a queue itself
before it calls `suspend_current_and_run_next`.
`scheduler_single_place` states both, for every run; a process that runs
alone gets to that path after `MLFQ_BASE_TIME_SLICE` interrupts
(`scheduler_slice_panic`).
-/

namespace Nimloth

namespace Kernel

/-! ## The queues -/

theorem addQueues_count (qs : List (List Nat)) (p priority q : Nat)
    (h : qs.length = MLFQ_QUEUE_COUNT) :
    (addQueues qs p priority).flatten.count q = qs.flatten.count q + if p = q then 1 else 0 := by
  have hi : min priority (MLFQ_QUEUE_COUNT - 1) < qs.length := by
    rw [h]
    have : MLFQ_QUEUE_COUNT = 4 := rfl
    omega
  unfold addQueues
  generalize min priority (MLFQ_QUEUE_COUNT - 1) = i at hi
  clear h
  induction qs generalizing i with
  | nil => simp at hi
  | cons x xs ih =>
      cases i with
      | zero =>
          simp only [List.modify_zero_cons, List.flatten_cons, List.count_append,
            List.count_singleton, beq_iff_eq]
          omega
      | succ i =>
          simp only [List.modify_succ_cons, List.flatten_cons, List.count_append]
          rw [ih i (by simpa using hi)]
          omega

@[simp] theorem addQueues_length (qs : List (List Nat)) (p priority : Nat) :
    (addQueues qs p priority).length = qs.length := by
  simp [addQueues]

/-- `fetch` takes the first process of the queues read in order of priority. -/
theorem fetchQueues_some {qs qs' : List (List Nat)} {p : Nat}
    (h : fetchQueues qs = some (p, qs')) :
    qs.flatten = p :: qs'.flatten ∧ qs'.length = qs.length := by
  induction qs generalizing qs' with
  | nil => cases h
  | cons x xs ih =>
      cases x with
      | nil =>
          rw [fetchQueues, Option.map_eq_some_iff] at h
          obtain ⟨⟨p', xs'⟩, hr, heq⟩ := h
          cases heq
          obtain ⟨h1, h2⟩ := ih hr
          exact ⟨by simpa using h1, by simpa using h2⟩
      | cons y ys =>
          cases h
          exact ⟨rfl, rfl⟩

/-! ## The invariant -/

structure Placed (k : Kernel) : Prop where
  queues : k.readyQueues.length = MLFQ_QUEUE_COUNT
  place : ∀ p, k.readyQueues.flatten.count p + (if k.current = some p then 1 else 0)
    = if k.isLive p then 1 else 0
  executing : k.executing = k.current
  fresh : ∀ p, k.nextProc ≤ p → k.procs p = none

theorem boot_placed (cx : TrapContext) : (boot cx).Placed where
  queues := rfl
  place p := by
    rcases eq_or_ne p 0 with rfl | hp
    · rfl
    · simp [boot, isLive, hp, hp.symm]
  executing := rfl
  fresh p hp := by
    have : p ≠ 0 := by
      have : 1 ≤ p := hp
      omega
    simp [boot, this]

theorem Placed.current_live {k : Kernel} (h : k.Placed) {p : Nat} (hp : k.current = some p) :
    k.isLive p = true := by
  have := h.place p
  rw [hp, if_pos rfl] at this
  by_contra hl
  rw [if_neg hl] at this
  omega

theorem isLive_congr {k k' : Kernel} {q : Nat}
    (h : (k'.procs q).map Pcb.isZombie = (k.procs q).map Pcb.isZombie) :
    k'.isLive q = k.isLive q := by
  have hany : ∀ k : Kernel, k.isLive q = ((k.procs q).map Pcb.isZombie).any (!·) := by
    intro k
    simp only [isLive, Option.any_map]
  rw [hany, hany, h]

theorem isLive_mapProcs {k : Kernel} {f : Nat → Pcb → Pcb} {q : Nat}
    (h : ∀ inner, k.procs q = some inner → (f q inner).isZombie = inner.isZombie) :
    (k.mapProcs f).isLive q = k.isLive q := by
  apply isLive_congr
  show ((k.procs q).map (f q)).map Pcb.isZombie = _
  cases hq : k.procs q with
  | none => rfl
  | some inner => exact congrArg some (h inner hq)

theorem isLive_iff {k : Kernel} {p : Nat} :
    k.isLive p = true ↔ ∃ inner, k.procs p = some inner ∧ inner.isZombie = false := by
  unfold isLive
  cases k.procs p <;> simp

/-- Between ready and running a live process stays live. -/
theorem map_isZombie_setStatus {k : Kernel} {p : Nat} (hlive : k.isLive p = true)
    {s : ProcessStatus} (hs : s ≠ .zombie) (q : Nat) :
    ((k.mapProcs fun q inner => if q = p then { inner with processStatus := s } else inner).procs
      q).map Pcb.isZombie = (k.procs q).map Pcb.isZombie := by
  rcases eq_or_ne q p with rfl | hq
  · obtain ⟨inner, h1, h2⟩ := isLive_iff.mp hlive
    simp only [mapProcs, h1, if_true, Option.map_some, h2, Option.some.injEq]
    simpa [Pcb.isZombie] using hs
  · exact mapProcs_field _ _ _ _ fun inner => by simp [hq]

theorem isLive_setStatus {k : Kernel} {p : Nat} (hlive : k.isLive p = true) {s : ProcessStatus}
    (hs : s ≠ .zombie) (q : Nat) :
    (k.mapProcs fun q inner => if q = p then { inner with processStatus := s } else inner).isLive q
      = k.isLive q :=
  isLive_congr (map_isZombie_setStatus hlive hs q)

theorem LocalStep.isLive {k km : Kernel} (h : LocalStep k km) (q : Nat) :
    km.isLive q = k.isLive q := by
  apply isLive_congr
  have := congrArg (Option.map fun c : Nat × ProcessStatus × Option Nat × List Nat × Int =>
    c.2.1 == .zombie) (h.core q)
  rw [Option.map_map, Option.map_map] at this
  exact this

theorem LocalStep.procs_none {k km : Kernel} (h : LocalStep k km) {q : Nat}
    (hq : k.procs q = none) : km.procs q = none := by
  have := h.core q
  rw [hq, Option.map_none, Option.map_eq_none_iff] at this
  exact this

theorem Placed.local {k km : Kernel} (h : k.Placed) (hl : LocalStep k km) : km.Placed where
  queues := by rw [hl.readyQueues, h.queues]
  place p := by rw [hl.readyQueues, hl.current, hl.isLive, h.place]
  executing := by rw [hl.executing, hl.current, h.executing]
  fresh p hp := hl.procs_none (h.fresh p (hl.nextProc ▸ hp))

/-! ## The actions -/

theorem Placed.fetched_live {k : Kernel} (h : k.Placed) {p : Nat} {qs : List (List Nat)}
    (hf : fetchQueues k.readyQueues = some (p, qs)) : k.isLive p = true := by
  have hplace := h.place p
  rw [(fetchQueues_some hf).1, List.count_cons_self] at hplace
  by_contra hl
  rw [if_neg hl] at hplace
  omega

theorem Placed.fetched {k : Kernel} (h : k.Placed) (hidle : k.executing = none) {p : Nat}
    {qs : List (List Nat)} (hf : fetchQueues k.readyQueues = some (p, qs)) :
    (k.fetched p qs).Placed := by
  obtain ⟨hflat, hlen⟩ := fetchQueues_some hf
  have hcur : k.current = none := h.executing.symm.trans hidle
  have hplace : ∀ q, qs.flatten.count q + (if p = q then 1 else 0)
      = if k.isLive q then 1 else 0 := by
    intro q
    have := h.place q
    rw [hflat, hcur] at this
    simpa [List.count_cons] using this
  have hlive := h.fetched_live hf
  refine ⟨hlen.trans h.queues, fun q => ?_, rfl, fun q hq => ?_⟩
  · have hsame : (k.fetched p qs).isLive q = k.isLive q := isLive_setStatus hlive (by decide) q
    rw [hsame, ← hplace q]
    simp [Kernel.fetched]
  · exact congrArg (Option.map _) (h.fresh q hq)

/-- The current slot is emptied by a process that is put into a queue. -/
theorem Placed.suspended {k : Kernel} (h : k.Placed) {p : Nat} (hp : k.current = some p) :
    (k.suspended p).Placed := by
  have hlive := h.current_live hp
  refine ⟨?_, fun q => ?_, rfl, fun q hq => congrArg (Option.map _) (h.fresh q hq)⟩
  · exact (addQueues_length ..).trans h.queues
  · have hsame : (k.suspended p).isLive q = k.isLive q := isLive_setStatus hlive (by decide) q
    have := h.place q
    rw [hp] at this
    rw [hsame, ← this]
    show (addQueues k.readyQueues p 0).flatten.count q + _ = _
    rw [addQueues_count _ _ _ _ h.queues]
    simp [Kernel.suspended]

theorem isLive_exited {k : Kernel} {p : Nat} {exitCode : Int} (q : Nat) :
    (k.exited p exitCode).isLive q = (k.isLive q && q ≠ p) := by
  rcases eq_or_ne q p with rfl | hq
  · unfold isLive Kernel.exited mapProcs
    dsimp only
    cases k.procs q <;> simp [exitedPcb, Pcb.isZombie]
  · have : (k.exited p exitCode).isLive q = k.isLive q := by
      apply isLive_mapProcs
      intro inner _
      simp [exitedPcb, Pcb.isZombie, hq]
    simp [this, hq]

theorem Placed.exited {k : Kernel} (h : k.Placed) {p : Nat} (hp : k.current = some p)
    (exitCode : Int) : (k.exited p exitCode).Placed := by
  refine ⟨h.queues, fun q => ?_, rfl, fun q hq => congrArg (Option.map _) (h.fresh q hq)⟩
  have hq := h.place q
  rw [hp] at hq
  rw [isLive_exited]
  show k.readyQueues.flatten.count q + _ = _
  rcases eq_or_ne q p with rfl | hne
  · rw [if_pos rfl, if_pos (h.current_live hp)] at hq
    have : k.readyQueues.flatten.count q = 0 := by omega
    simp [Kernel.exited, this]
  · have hne' : some p ≠ some q := by simpa using hne.symm
    rw [if_neg hne'] at hq
    simpa [Kernel.exited, hne] using hq

theorem isLive_forkedBy {k : Kernel} {p : Nat} {inner : Pcb} (q : Nat) :
    (k.forkedBy p inner).isLive q = (k.isLive q || q = k.nextProc) := by
  unfold isLive forkedBy
  dsimp only
  rcases eq_or_ne q k.nextProc with rfl | hq
  · simp [Pcb.forked, Pcb.isZombie]
  · cases k.procs q with
    | none => simp [hq]
    | some inner' =>
        simp only [hq, if_false, Option.map_some, Option.any_some, decide_false, Bool.or_false]
        split <;> rfl

theorem Placed.forkedBy {k : Kernel} (h : k.Placed) (p : Nat) (inner : Pcb) :
    (k.forkedBy p inner).Placed := by
  have hnew : k.isLive k.nextProc = false := by
    simp [isLive, h.fresh k.nextProc (Nat.le_refl _)]
  refine ⟨(addQueues_length ..).trans h.queues, fun q => ?_, h.executing, fun q hq => ?_⟩
  · rw [isLive_forkedBy]
    show (addQueues k.readyQueues k.nextProc 0).flatten.count q
      + (if k.current = some q then 1 else 0) = _
    rw [addQueues_count _ _ _ _ h.queues]
    have hq := h.place q
    rcases eq_or_ne q k.nextProc with rfl | hne
    · rw [hnew] at hq
      simp only [if_true, decide_true, Bool.or_true]
      simp only [Bool.false_eq_true, if_false] at hq
      omega
    · simpa [hne, hne.symm] using hq
  · have hq' : k.nextProc + 1 ≤ q := hq
    have hne : q ≠ k.nextProc := by omega
    simp [Kernel.forkedBy, hne, h.fresh q (by omega)]

/-- A child is only reaped once it is a zombie, which is in no place. -/
theorem Placed.reaped {k : Kernel} (h : k.Placed) {p c : Nat} {pid : Int} (pids : PidAllocator)
    (hc : k.isLive c = false) : (k.reaped p pid c pids).Placed := by
  have hlive : ∀ q, (k.reaped p pid c pids).isLive q = k.isLive q := by
    intro q
    rcases eq_or_ne q c with rfl | hq
    · rw [hc]
      simp [isLive, Kernel.reaped]
    · have : (k.reaped p pid c pids).isLive q = (k.detached p pid).isLive q := by
        simp [isLive, Kernel.reaped, hq]
      rw [this]
      apply isLive_mapProcs
      intro inner _
      split <;> rfl
  refine ⟨h.queues, fun q => ?_, h.executing, fun q hq => ?_⟩
  · rw [hlive]
    exact h.place q
  · have hk : (k.detached p pid).procs q = none := congrArg (Option.map _) (h.fresh q hq)
    rcases eq_or_ne q c with rfl | hne <;> simp [Kernel.reaped, *]

theorem isZombie_not_live {k : Kernel} {c : Nat} (h : k.isZombie c = true) :
    k.isLive c = false := by
  unfold isZombie at h
  unfold isLive
  cases hc : k.procs c with
  | none => rfl
  | some inner =>
      rw [hc] at h
      simpa using h

theorem Placed.action {k k' : Kernel} {a : Act} (h : k.Placed) (ha : Action k a k') :
    k'.Placed := by
  cases ha with
  | none => exact h
  | fetch hidle hf => exact h.fetched hidle hf
  | suspend hp => exact h.suspended hp
  | fork _ => exact h.forkedBy _ _
  | exit exitCode hp _ _ => exact h.exited hp exitCode
  | reap _ hfind _ =>
      have hr := List.find?_some hfind
      simp only [reapable, Bool.and_eq_true] at hr
      exact h.reaped _ (isZombie_not_live hr.1)

end Kernel

/-- Every step that leaves the machine running is a local change followed by
one action. -/
theorem KStep.cases {k k' : Kernel} {a : Act} (h : k.Placed) (hs : KStep k a k') :
    ∃ km, Kernel.LocalStep k km ∧ Kernel.Action km a k'
      ∧ ∀ p exitCode, a = .exit p exitCode → km.fdTableOf p = k.fdTableOf p := by
  obtain ⟨e, hen, hperf, rfl⟩ := hs
  exact Kernel.perform_cases (h.fresh _ (Nat.le_refl _)) h.executing hen hperf

theorem KStep.placed {k k' : Kernel} {a : Act} (h : k.Placed) (hs : KStep k a k') :
    k'.Placed := by
  obtain ⟨km, hl, ha, -⟩ := hs.cases h
  exact (h.local hl).action ha

theorem Kernel.reachable_placed {cx : TrapContext} {tr : List Act} {k : Kernel}
    (h : Runs KStep (Kernel.boot cx) tr k) : k.Placed :=
  h.invariant (Kernel.boot_placed cx) fun _ _ _ hI hs => KStep.placed hI hs

/-! ## The two `unwrap` calls -/

namespace Kernel

theorem exit_takeCurrent {k : Kernel} {exitCode : Int}
    (h : k.exitCurrentAndRunNext exitCode = .error .takeCurrent) : k.current = none := by
  unfold exitCurrentAndRunNext takeCurrentProcess at h
  cases hc : k.current with
  | none => rfl
  | some p =>
      rw [hc] at h
      dsimp only at h
      split at h
      · cases h
      · split at h <;> cases h

theorem waitpid_error {k : Kernel} {pid : Int} {halt : Halt} (h : k.sysWaitpid pid = .error halt) :
    halt = .current ∨ halt = .strongCount ∨ halt = .pidDealloc := by
  unfold sysWaitpid at h
  split at h
  · cases h
    exact .inl rfl
  · split at h
    · cases h
    · split at h
      · cases h
      · dsimp only at h
        split at h
        · cases h
          exact .inr (.inl rfl)
        · split at h
          · cases h
            exact .inr (.inr rfl)
          · cases h

/-- The timer interrupt finds a process whose slice it uses up. -/
def SliceEnds (k : Kernel) : Prop :=
  ∃ p inner, k.currentInner = some (p, inner) ∧ inner.timeSliceUsed + 1 ≥ inner.timeSliceLimit

theorem Placed.takeCurrent_iff {k : Kernel} (h : k.Placed) {e : KEvent} (hen : k.Enabled e) :
    k.perform e = .error .takeCurrent ↔ e = .timer ∧ k.SliceEnds := by
  constructor
  · intro herr
    have hexec : ∃ p, k.executing = some p := by
      cases e with
      | fetch => cases herr
      | resume =>
          obtain ⟨p, hp, -⟩ := hen
          exact ⟨p, hp⟩
      | _ =>
          obtain ⟨p, hp, -⟩ := hen
          exact ⟨p, hp⟩
    obtain ⟨p, hp⟩ := hexec
    rw [h.executing] at hp
    obtain hloc | ⟨rfl, -⟩ | ⟨km, exitCode, hl, hexit⟩ | ⟨pid, -, hwait⟩ := perform_error hp herr
    · cases hloc
    · obtain ⟨inner, hinner, -⟩ := isLive_iff.mp (h.current_live hp)
      have hcur := currentInner_eq_some.mpr ⟨hp, hinner⟩
      refine ⟨rfl, p, inner, hcur, ?_⟩
      by_contra hlt
      simp only [perform] at herr
      rw [timer_eq hcur, if_neg hlt] at herr
      cases herr
    · have hnone := exit_takeCurrent hexit
      rw [hl.current, hp] at hnone
      cases hnone
    · rcases waitpid_error hwait with h | h | h <;> cases h
  · rintro ⟨rfl, p, inner, hcur, hends⟩
    show k.timerInterrupt = _
    rw [timer_eq hcur, if_pos hends]

end Kernel

/-- In every state a run can reach, a process that is not a zombie is the
current process or stands exactly once in exactly one queue, and no zombie
stands in a queue; whatever happens next, `take_current_process().unwrap()`
fails exactly when it is a timer interrupt that uses up the slice of the
current process. -/
theorem scheduler_single_place {cx : TrapContext} {tr : List Act} {k : Kernel}
    (h : Runs KStep (Kernel.boot cx) tr k) :
    (∀ p, k.isLive p →
        (k.current = some p ∧ p ∉ k.readyQueues.flatten)
          ∨ (k.current ≠ some p ∧ k.readyQueues.flatten.count p = 1))
      ∧ (∀ p, k.isZombie p → p ∉ k.readyQueues.flatten)
      ∧ ∀ e, k.Enabled e →
        (k.perform e = .error .takeCurrent ↔ e = .timer ∧ k.SliceEnds) := by
  have hplaced := Kernel.reachable_placed h
  refine ⟨fun p hp => ?_, fun p hp hmem => ?_, fun e hen => hplaced.takeCurrent_iff hen⟩
  · have hcount := hplaced.place p
    rw [if_pos hp] at hcount
    by_cases hc : k.current = some p
    · rw [if_pos hc] at hcount
      exact .inl ⟨hc, List.count_eq_zero.mp (by omega)⟩
    · rw [if_neg hc] at hcount
      exact .inr ⟨hc, by omega⟩
  · have hcount := hplaced.place p
    rw [Kernel.isZombie_not_live hp, if_neg Bool.false_ne_true] at hcount
    exact List.count_eq_zero.mp (by omega) hmem

/-! ## A process that runs alone -/

/-- `initproc` alone, after `n` timer interrupts. -/
def aloneReady (n : Nat) : Kernel :=
  { Kernel.boot ⟨Vector.replicate 32 0, 0, 0, 0, 0, 0⟩ with
    procs := Function.update (fun _ => none) 0 (some {
      pid := 0
      processStatus := .ready
      parent := none
      children := []
      exitCode := 0
      fdTable := [some 0, some 1, some 2]
      sig := .new ⟨Vector.replicate 32 0, 0, 0, 0, 0, 0⟩
      priority := 0
      timeSliceUsed := n
      timeSliceLimit := MLFQ_BASE_TIME_SLICE }) }

def aloneRunning (n : Nat) : Kernel := (aloneReady n).fetched 0 [[], [], [], []]

theorem alone_runProcess (n : Nat) : (aloneReady n).runProcess = aloneRunning n := by
  rcases Kernel.runProcess_cases (aloneReady n) with ⟨h, -⟩ | ⟨p, qs, h, hk⟩
  · cases h
  · cases h
    rw [hk]
    rfl

theorem alone_fetch (n : Nat) : KStep (aloneReady n) .other (aloneRunning n) :=
  ⟨.fetch, rfl, congrArg Except.ok (alone_runProcess n), rfl⟩

theorem alone_current (n : Nat) :
    ∃ inner, (aloneRunning n).currentInner = some (0, inner) ∧ inner.timeSliceUsed = n
      ∧ inner.timeSliceLimit = MLFQ_BASE_TIME_SLICE :=
  ⟨_, rfl, rfl, rfl⟩

theorem alone_timer {n : Nat} (h : n + 1 < MLFQ_BASE_TIME_SLICE) :
    KStep (aloneRunning n) .other (aloneReady (n + 1)) := by
  obtain ⟨inner, hcur, hused, hlimit⟩ := alone_current n
  refine ⟨.timer, ⟨0, rfl, rfl⟩, ?_, rfl⟩
  show (aloneRunning n).timerInterrupt = _
  rw [Kernel.timer_eq hcur, hused, hlimit, if_neg (by omega)]
  have hprocs : (((aloneRunning n).modifyProc 0 fun i =>
      { i with timeSliceUsed := n + 1 }).suspended 0).procs = (aloneReady (n + 1)).procs := by
    funext q
    rcases eq_or_ne q 0 with rfl | hq
    · rfl
    · simp [Kernel.suspended, Kernel.mapProcs, Kernel.modifyProc, aloneRunning, Kernel.fetched,
        aloneReady, hq]
  rw [show aloneReady (n + 1) = { ((aloneRunning n).modifyProc 0 fun i =>
      { i with timeSliceUsed := n + 1 }).suspended 0 with
      procs := (aloneReady (n + 1)).procs } from rfl, ← hprocs]

theorem alone_run (n : Nat) (h : n < MLFQ_BASE_TIME_SLICE) :
    ∃ tr, Runs KStep (aloneReady 0) tr (aloneRunning n) := by
  induction n with
  | zero => exact ⟨_, .single (alone_fetch 0)⟩
  | succ n ih =>
      obtain ⟨tr, hrun⟩ := ih (by omega)
      exact ⟨_, (hrun.snoc (alone_timer h)).snoc (alone_fetch (n + 1))⟩

/-- `initproc` alone is interrupted until its slice is used up, and the kernel
panics. -/
theorem scheduler_slice_panic :
    ∃ cx tr k, Runs KStep (Kernel.boot cx) tr k ∧ k.Enabled .timer
      ∧ k.perform .timer = .error .takeCurrent := by
  obtain ⟨tr, hrun⟩ := alone_run (MLFQ_BASE_TIME_SLICE - 1) (by decide)
  obtain ⟨inner, hcur, hused, hlimit⟩ := alone_current (MLFQ_BASE_TIME_SLICE - 1)
  refine ⟨_, tr, _, hrun, ⟨0, rfl, rfl⟩, ?_⟩
  simp only [Kernel.perform]
  rw [Kernel.timer_eq hcur, hused, hlimit, if_pos (by decide)]

/-- After its first interrupt `initproc` is again the current process, and in
no queue. -/
theorem scheduler_single_place_alone :
    ∃ cx tr k, Runs KStep (Kernel.boot cx) tr k ∧ k.current = some 0
      ∧ k.readyQueues.flatten.count 0 = 0 := by
  obtain ⟨tr, hrun⟩ := alone_run 1 (by decide)
  refine ⟨_, tr, _, hrun, rfl, ?_⟩
  rcases (scheduler_single_place hrun).1 0 rfl with ⟨-, h⟩ | ⟨h, -⟩
  · exact List.count_eq_zero.mpr h
  · exact absurd rfl h

end Nimloth
