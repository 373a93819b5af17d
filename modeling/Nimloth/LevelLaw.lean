import Mathlib.Tactic.Common
import Nimloth.KernelFrame
import Nimloth.KernelSched

/-!
# The levels of the scheduler

The priority of a process is a field of its control block and also the
queue it stands in, and its time slice belongs to that priority. The two
agree in a state (`LevelOk`) if every process in queue `i` has priority
`i`; then `fetch` takes a process of least priority, the oldest of its
level (`LevelOk.fetchesLeast`).

The one path that lowers a level is the tick that uses up a slice, and
there the kernel panics. So no process ever leaves level 0, every other
event keeps the levels, and a tick puts the process back at its level
exactly if the slice is not used up (`level_law_iff`). A process with a
lower level would not keep it: `suspend_current_and_run_next` puts it
into queue 0 whatever its priority (`LevelOk.suspended_iff`).
-/

namespace Nimloth

namespace Kernel

/-! ## The queues -/

theorem mem_addQueues {qs : List (List Nat)} {p priority i q : Nat}
    (hlen : qs.length = MLFQ_QUEUE_COUNT) :
    q ∈ (addQueues qs p priority).getD i []
      ↔ q ∈ qs.getD i [] ∨ (i = min priority (MLFQ_QUEUE_COUNT - 1) ∧ q = p) := by
  have hlt : min priority (MLFQ_QUEUE_COUNT - 1) < qs.length := by
    have : MLFQ_QUEUE_COUNT = 4 := rfl
    omega
  simp only [addQueues, List.getD_eq_getElem?_getD, List.getElem?_modify]
  by_cases hi : i = min priority (MLFQ_QUEUE_COUNT - 1)
  · subst hi
    simp [List.getElem?_eq_getElem hlt]
  · simp [hi, Ne.symm hi]

/-- `fetch` takes the front of the first queue that is not empty. -/
theorem fetchQueues_eq {qs qs' : List (List Nat)} {p : Nat} (h : fetchQueues qs = some (p, qs')) :
    ∃ i rest more, qs = List.replicate i [] ++ (p :: rest) :: more
      ∧ qs' = List.replicate i [] ++ rest :: more := by
  induction qs generalizing qs' with
  | nil => cases h
  | cons x xs ih =>
      cases x with
      | nil =>
          rw [fetchQueues, Option.map_eq_some_iff] at h
          obtain ⟨⟨p', xs'⟩, hr, heq⟩ := h
          cases heq
          obtain ⟨i, rest, more, rfl, rfl⟩ := ih hr
          exact ⟨i + 1, rest, more, by simp [List.replicate_succ], by simp [List.replicate_succ]⟩
      | cons y ys =>
          cases h
          exact ⟨0, ys, xs, rfl, rfl⟩

/-! ## Levels -/

/-- Every process in queue `i` has priority `i`, and every process the time
slice of its priority. -/
structure LevelOk (k : Kernel) : Prop where
  queue : ∀ i p, p ∈ k.readyQueues.getD i [] →
    ∃ inner, k.procs p = some inner ∧ min inner.priority (MLFQ_QUEUE_COUNT - 1) = i
  limit : ∀ p inner, k.procs p = some inner → inner.timeSliceLimit = getTimeSlice inner.priority

/-- The level of a process, as its control block has it. -/
def levelOf (k : Kernel) (p : Nat) : Nat :=
  min (((k.procs p).map Pcb.priority).getD 0) (MLFQ_QUEUE_COUNT - 1)

/-- Of the ready processes `fetch` takes one of least level, and of those of its
level the one that was put into the queue first. -/
def FetchesLeast (k : Kernel) : Prop :=
  ∀ p qs, fetchQueues k.readyQueues = some (p, qs) →
    (∀ q ∈ k.readyQueues.flatten, k.levelOf p ≤ k.levelOf q)
      ∧ ∃ rest, k.readyQueues.getD (k.levelOf p) [] = p :: rest

theorem LevelOk.levelOf {k : Kernel} (h : k.LevelOk) {i p : Nat}
    (hp : p ∈ k.readyQueues.getD i []) : k.levelOf p = i := by
  obtain ⟨inner, hinner, rfl⟩ := h.queue i p hp
  simp [Kernel.levelOf, hinner]

theorem LevelOk.fetchesLeast {k : Kernel} (h : k.LevelOk) : k.FetchesLeast := by
  intro p qs hf
  obtain ⟨i, rest, more, hqs, -⟩ := fetchQueues_eq hf
  have hat : k.readyQueues.getD i [] = p :: rest := by
    rw [hqs]
    simp [List.getD_eq_getElem?_getD]
  have hlevel : k.levelOf p = i := h.levelOf (by rw [hat]; exact List.mem_cons_self ..)
  refine ⟨?_, rest, by rw [hlevel, hat]⟩
  intro q hq
  obtain ⟨queue, hmem, hqq⟩ := List.mem_flatten.mp hq
  obtain ⟨j, hj, rfl⟩ := List.mem_iff_getElem.mp hmem
  have hjq : q ∈ k.readyQueues.getD j [] := by
    simpa [List.getD_eq_getElem?_getD, List.getElem?_eq_getElem hj] using hqq
  rw [hlevel, h.levelOf hjq]
  by_contra hlt
  -- the queues below that of `p` are empty
  rw [hqs, List.getD_eq_getElem?_getD,
    List.getElem?_append_left (by simpa using Nat.lt_of_not_le hlt)] at hjq
  simp [Nat.lt_of_not_le hlt] at hjq

/-- A yield or a preemption keeps the levels only for a process of level 0. -/
theorem LevelOk.suspended_iff {k : Kernel} (h : k.LevelOk)
    (hlen : k.readyQueues.length = MLFQ_QUEUE_COUNT) {p : Nat} {inner : Pcb}
    (hp : k.procs p = some inner) : (k.suspended p).LevelOk ↔ inner.priority = 0 := by
  have hfield : ∀ q inner', k.procs q = some inner' → ∃ s, (k.suspended p).procs q
      = some { inner' with processStatus := s } := by
    intro q inner' hq
    simp only [suspended, mapProcs, hq, Option.map_some]
    split
    · exact ⟨_, rfl⟩
    · exact ⟨inner'.processStatus, rfl⟩
  constructor
  · intro hs
    obtain ⟨inner', hinner', hlevel⟩ := hs.queue 0 p ((mem_addQueues hlen).mpr (.inr ⟨rfl, rfl⟩))
    obtain ⟨s, hsame⟩ := hfield p inner hp
    cases hsame.symm.trans hinner'
    have : MLFQ_QUEUE_COUNT = 4 := rfl
    dsimp only at hlevel
    omega
  · intro hzero
    refine ⟨?_, ?_⟩
    · intro i q hq
      rcases (mem_addQueues hlen).mp hq with hq | ⟨rfl, rfl⟩
      · obtain ⟨inner', hinner', hlevel⟩ := h.queue i q hq
        obtain ⟨s, hsame⟩ := hfield q inner' hinner'
        exact ⟨_, hsame, hlevel⟩
      · obtain ⟨s, hsame⟩ := hfield q inner hp
        exact ⟨_, hsame, by dsimp only; rw [hzero]⟩
    · intro q inner' hinner'
      simp only [suspended, mapProcs, Option.map_eq_some_iff] at hinner'
      obtain ⟨inner₀, hq, rfl⟩ := hinner'
      have hlimit := h.limit q inner₀ hq
      split
      · exact hlimit
      · exact hlimit

/-! ## Every event keeps the levels -/

/-- The fields of the control block that make up its level. -/
def levelPart (inner : Pcb) : Nat × Nat := (inner.priority, inner.timeSliceLimit)

theorem levelPart_untouched : Untouched levelPart where
  status _ _ := rfl
  sig _ _ := rfl
  used _ _ := rfl
  tree _ _ _ _ _ := rfl

/-- Every process of `k'` has the level of one of `k`. -/
def LevelsFrom (k k' : Kernel) : Prop :=
  ∀ q inner', k'.procs q = some inner' →
    ∃ p inner, k.procs p = some inner ∧ levelPart inner' = levelPart inner

theorem LevelsFrom.of_sameField {k k' : Kernel} (h : SameField levelPart k k') :
    LevelsFrom k k' := by
  intro q inner' hq
  have hsame := h q
  rw [hq, Option.map_some, eq_comm, Option.map_eq_some_iff] at hsame
  obtain ⟨inner, hinner, hlevel⟩ := hsame
  exact ⟨q, inner, hinner, hlevel.symm⟩

theorem LevelsFrom.fork {k k' : Kernel} {r : Int} (hfresh : k.procs k.nextProc = none)
    (h : k.sysFork = .ok (r, k')) : LevelsFrom k k' := by
  obtain ⟨p, inner, hcur, -, rfl⟩ := fork_ok hfresh h
  have hinner := (currentInner_eq_some.mp hcur).2
  intro q inner' hq
  simp only [forkedBy] at hq
  split at hq
  · cases hq
    exact ⟨p, inner, hinner, rfl⟩
  · rw [Option.map_eq_some_iff] at hq
    obtain ⟨inner₀, hinner₀, rfl⟩ := hq
    refine ⟨q, inner₀, hinner₀, ?_⟩
    split <;> rfl

theorem LevelsFrom.waitpid {k k' : Kernel} {pid r : Int} {code : Option Int}
    (h : k.sysWaitpid pid = .ok (r, code, k')) : LevelsFrom k k' := by
  rcases waitpid_ok h with ⟨-, rfl⟩ | ⟨p, inner, c, pids, -, -, -, -, -, rfl⟩
  · exact .of_sameField (.refl _ _)
  · have hdetached : LevelsFrom k (k.detached p pid) := .of_sameField <| .mapProcs k fun q i => by
      split <;> rfl
    intro q inner' hq
    rcases eq_or_ne q c with rfl | hne
    · simp [reaped] at hq
    · simp only [reaped, Function.update_of_ne hne] at hq
      exact hdetached q inner' hq

theorem LevelsFrom.perform {k k' : Kernel} {e : KEvent} (hfresh : k.procs k.nextProc = none)
    (h : k.perform e = .ok k') : LevelsFrom k k' := by
  cases e with
  | fork =>
      obtain ⟨⟨r, k₁⟩, hfork, rfl⟩ := map_ok h
      exact .fork hfresh hfork
  | waitpid pid =>
      obtain ⟨⟨r, code, k₁⟩, hwait, rfl⟩ := map_ok h
      exact .waitpid hwait
  | pipe =>
      obtain ⟨⟨r, k₁⟩, hpipe, rfl⟩ := map_ok h
      exact .of_sameField (.pipe (fun _ _ => rfl) hpipe)
  | close fd =>
      obtain ⟨⟨r, k₁⟩, hclose, rfl⟩ := map_ok h
      exact .of_sameField (.close (fun _ _ => rfl) hclose)
  | dup fd =>
      obtain ⟨⟨r, k₁⟩, hdup, rfl⟩ := map_ok h
      exact .of_sameField (.dup (fun _ _ => rfl) hdup)
  | _ => exact .of_sameField (.perform levelPart_untouched (by trivial) h)

/-- No process has ever left level 0. -/
structure AllTop (k : Kernel) : Prop where
  queues : ∃ q, k.readyQueues = [q, [], [], []]
  levels : ∀ p inner, k.procs p = some inner →
    inner.priority = 0 ∧ inner.timeSliceLimit = getTimeSlice 0

theorem boot_allTop (cx : TrapContext) : (boot cx).AllTop where
  queues := ⟨[0], rfl⟩
  levels p inner hp := by
    rcases eq_or_ne p 0 with rfl | hne
    · cases hp
      exact ⟨rfl, rfl⟩
    · simp [boot, hne] at hp

theorem AllTop.levelOk {k : Kernel} (h : k.AllTop) (hplaced : k.Placed) : k.LevelOk := by
  obtain ⟨queue, hqueue⟩ := h.queues
  refine ⟨?_, ?_⟩
  · intro i p hp
    have hmem : p ∈ k.readyQueues.flatten := by
      rw [List.getD_eq_getElem?_getD] at hp
      cases hi : k.readyQueues[i]? with
      | none =>
          rw [hi] at hp
          cases hp
      | some q =>
          rw [hi] at hp
          exact List.mem_flatten.mpr ⟨q, List.mem_of_getElem? hi, hp⟩
    have hlive : k.isLive p = true := by
      have hplace := hplaced.place p
      have hpos := List.count_pos_iff.mpr hmem
      by_contra hno
      rw [if_neg hno] at hplace
      omega
    obtain ⟨inner, hinner, -⟩ := isLive_iff.mp hlive
    refine ⟨inner, hinner, ?_⟩
    rw [(h.levels p inner hinner).1]
    match i, hp with
    | 0, _ => rfl
    | 1, hp | 2, hp | 3, hp => simp [hqueue] at hp
    | i + 4, hp => simp [hqueue] at hp
  · intro p inner hp
    obtain ⟨hpri, hlim⟩ := h.levels p inner hp
    rw [hlim, hpri]

/-- No action puts a process anywhere but into queue 0. -/
theorem Action.queues {k k' : Kernel} {a : Act} (ha : Action k a k')
    (h : ∃ q, k.readyQueues = [q, [], [], []]) : ∃ q, k'.readyQueues = [q, [], [], []] := by
  obtain ⟨queue, hqueue⟩ := h
  cases ha with
  | none => exact ⟨queue, hqueue⟩
  | @fetch p qs _ hf =>
      rw [hqueue] at hf
      cases queue with
      | nil => cases hf
      | cons x xs =>
          cases hf
          exact ⟨xs, rfl⟩
  | @suspend p _ => exact ⟨queue ++ [p], by simp only [suspended, hqueue]; rfl⟩
  | fork _ => exact ⟨queue ++ [k.nextProc], by simp only [forkedBy, hqueue]; rfl⟩
  | exit _ _ _ _ => exact ⟨queue, hqueue⟩
  | reap _ _ _ => exact ⟨queue, hqueue⟩

theorem AllTop.perform {k k' : Kernel} {e : KEvent} (h : k.AllTop) (hplaced : k.Placed)
    (hen : k.Enabled e) (hperf : k.perform e = .ok k') : k'.AllTop := by
  have hfresh := hplaced.fresh _ (Nat.le_refl _)
  obtain ⟨km, hl, ha, -⟩ := perform_cases hfresh hplaced.executing hen hperf
  refine ⟨ha.queues (hl.readyQueues ▸ h.queues), ?_⟩
  intro q inner' hq
  obtain ⟨p, inner, hp, hlevel⟩ := LevelsFrom.perform hfresh hperf q inner' hq
  obtain ⟨hpri, hlim⟩ := h.levels p inner hp
  obtain ⟨hpri', hlim'⟩ := Prod.mk.inj hlevel
  exact ⟨hpri'.trans hpri, hlim'.trans hlim⟩

theorem reachable_allTop {cx : TrapContext} {tr : List Act} {k : Kernel}
    (h : Runs KStep (boot cx) tr k) : k.Placed ∧ k.AllTop := by
  refine h.invariant (I := fun k => k.Placed ∧ k.AllTop) ⟨boot_placed cx, boot_allTop cx⟩ ?_
  rintro k a k' ⟨hplaced, htop⟩ hs
  refine ⟨hs.placed hplaced, ?_⟩
  obtain ⟨e, hen, hperf, -⟩ := hs
  exact htop.perform hplaced hen hperf

/-- The kernel goes on after the event, and every ready process is at its
level. -/
def Requeues (k : Kernel) (e : KEvent) : Prop := ∃ k', k.perform e = .ok k' ∧ k'.LevelOk

theorem Placed.currentInner {k : Kernel} (h : k.Placed) {p : Nat} (hp : k.executing = some p) :
    ∃ inner, k.currentInner = some (p, inner) := by
  have hcur : k.current = some p := h.executing ▸ hp
  obtain ⟨inner, hinner, -⟩ := isLive_iff.mp (h.current_live hcur)
  exact ⟨inner, currentInner_eq_some.mpr ⟨hcur, hinner⟩⟩

/-- A tick that leaves something of the slice, a yield and a fork go on. -/
theorem Placed.goes_on {k : Kernel} (h : k.Placed) {e : KEvent} (hen : k.Enabled e)
    (he : e = .timer ∨ e = .yield ∨ e = .fork) (hslice : ¬ (e = .timer ∧ k.SliceEnds)) :
    ∃ k', k.perform e = .ok k' := by
  rcases he with rfl | rfl | rfl
  · obtain ⟨p, hp, -⟩ := hen
    obtain ⟨inner, hcur⟩ := h.currentInner hp
    have hlt : ¬ inner.timeSliceUsed + 1 ≥ inner.timeSliceLimit :=
      fun hge => hslice ⟨rfl, p, inner, hcur, hge⟩
    exact ⟨_, (timer_eq hcur).trans (if_neg hlt)⟩
  · obtain ⟨p, hp, -⟩ := hen
    exact ⟨_, suspend_eq (h.executing ▸ hp)⟩
  · obtain ⟨p, hp, -⟩ := hen
    obtain ⟨inner, hcur⟩ := h.currentInner hp
    simp only [Kernel.perform, sysFork, hcur]
    exact ⟨_, rfl⟩

end Kernel

/-- In every reachable state the ready processes are at their levels, with the
slices of these levels, and `fetch` takes the oldest of the least level; every
event after which the kernel goes on keeps that; and a tick, a yield or a fork
leaves its process at its level exactly if it is not the tick that uses up the
slice. -/
theorem level_law_iff {cx : TrapContext} {tr : List Act} {k : Kernel}
    (h : Runs KStep (Kernel.boot cx) tr k) :
    k.LevelOk ∧ k.FetchesLeast
      ∧ (∀ e k', k.Enabled e → k.perform e = .ok k' → k'.LevelOk)
      ∧ ∀ e, k.Enabled e → e = .timer ∨ e = .yield ∨ e = .fork →
        (k.Requeues e ↔ ¬ (e = .timer ∧ k.SliceEnds)) := by
  obtain ⟨hplaced, htop⟩ := Kernel.reachable_allTop h
  have hlevels := htop.levelOk hplaced
  have hkeeps : ∀ e k', k.Enabled e → k.perform e = .ok k' → k'.LevelOk := by
    intro e k' hen hperf
    exact (htop.perform hplaced hen hperf).levelOk
      (KStep.placed (a := k.act e) hplaced ⟨e, hen, hperf, rfl⟩)
  refine ⟨hlevels, hlevels.fetchesLeast, hkeeps, ?_⟩
  intro e hen he
  constructor
  · rintro ⟨k', hperf, -⟩ hslice
    rw [(hplaced.takeCurrent_iff hen).mpr hslice] at hperf
    cases hperf
  · intro hslice
    obtain ⟨k', hperf⟩ := hplaced.goes_on hen he hslice
    exact ⟨k', hperf, hkeeps e k' hen hperf⟩

/-- The first tick of `initproc` puts it back at its level. -/
theorem level_law_first_tick :
    ∃ cx tr k, Runs KStep (Kernel.boot cx) tr k ∧ k.Enabled .timer ∧ k.Requeues .timer := by
  have hrun := Runs.single (alone_fetch 0)
  refine ⟨_, _, _, hrun, ⟨0, rfl, rfl⟩, ?_⟩
  obtain ⟨-, -, -, hmeets⟩ := level_law_iff hrun
  refine (hmeets .timer ⟨0, rfl, rfl⟩ (.inl rfl)).mpr ?_
  rintro ⟨-, p, inner, hcur, hge⟩
  obtain ⟨inner', hcur', hused, hlimit⟩ := alone_current 0
  cases hcur.symm.trans hcur'
  rw [hused, hlimit] at hge
  exact absurd hge (by decide)

/-- The tick that uses up the slice of `initproc` does not: there is no state
after it. -/
theorem level_demotion_panics :
    ¬ ∀ (cx : TrapContext) (tr : List Act) (k : Kernel), Runs KStep (Kernel.boot cx) tr k →
        ∀ e, k.Enabled e → e = .timer ∨ e = .yield ∨ e = .fork → k.Requeues e := by
  intro hall
  obtain ⟨tr, hrun⟩ := alone_run (MLFQ_BASE_TIME_SLICE - 1) (by decide)
  obtain ⟨inner, hcur, hused, hlimit⟩ := alone_current (MLFQ_BASE_TIME_SLICE - 1)
  obtain ⟨k', hperf, -⟩ := hall _ tr _ hrun .timer ⟨0, rfl, rfl⟩ (.inl rfl)
  simp only [Kernel.perform] at hperf
  rw [Kernel.timer_eq hcur, hused, hlimit, if_pos (by decide)] at hperf
  cases hperf

end Nimloth
