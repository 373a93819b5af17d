import Mathlib.Tactic.Common
import Mathlib.Algebra.Order.BigOperators.Group.Finset
import Nimloth.KernelSched

/-!
# The process tree, the pid map and reaping

Four structures have to agree: the children lists, the parent links, the
pid map and the references that other parts of the kernel hold.
`TreeOk` is the agreement. It is written with one accessor per field, and
for each action the accessors of the new state are given by one equation
each, so that the case analysis over "which process is this" is done
once per action.

From it follow the three assertions on the way of an exited process: its
pid is found by `remove_from_pid2process`, the child that `sys_waitpid`
removes has no other reference, and its pid is one `PidAllocator` gave
out. `History` adds to it what a run has observed, for the last part of
`process_tree_consistent`: who may reap a process, how often, and with
which exit code.
-/

namespace Nimloth

/-- The allocator knows every pid in use. -/
structure PidAllocator.Ok (a : PidAllocator) (used : Nat → Prop) : Prop where
  used : ∀ pid, used pid → pid < a.current ∧ pid ∉ a.recycled
  recycled : ∀ pid ∈ a.recycled, pid < a.current
  nodup : a.recycled.Nodup

/-- The pid handed out is not in use. -/
theorem PidAllocator.Ok.alloc_fresh {a : PidAllocator} {used : Nat → Prop} (h : a.Ok used) :
    ¬ used a.alloc.1 := by
  intro hu
  obtain ⟨hlt, hnot⟩ := h.used _ hu
  unfold PidAllocator.alloc at hlt hnot
  split at hlt
  · next pid rest hr =>
      rw [hr] at hnot
      simp at hnot
  · exact Nat.lt_irrefl _ hlt

theorem PidAllocator.Ok.alloc {a : PidAllocator} {used used' : Nat → Prop} (h : a.Ok used)
    (hused : ∀ pid, used' pid → used pid ∨ pid = a.alloc.1) : a.alloc.2.Ok used' := by
  obtain ⟨current, recycled⟩ := a
  cases recycled with
  | nil =>
      refine ⟨fun pid hpid => ⟨?_, by simp [PidAllocator.alloc]⟩, by simp [PidAllocator.alloc],
        List.nodup_nil⟩
      show pid < current + 1
      rcases hused pid hpid with hu | rfl
      · exact Nat.lt_succ_of_lt (h.used pid hu).1
      · exact Nat.lt_succ_self _
  | cons x rest =>
      obtain ⟨hx, hrest⟩ := List.nodup_cons.mp h.nodup
      refine ⟨fun pid hpid => ?_, fun pid hpid => h.recycled pid (List.mem_cons_of_mem _ hpid),
        hrest⟩
      show pid < current ∧ pid ∉ rest
      rcases hused pid hpid with hu | rfl
      · obtain ⟨h1, h2⟩ := h.used pid hu
        exact ⟨h1, fun hm => h2 (List.mem_cons_of_mem _ hm)⟩
      · exact ⟨h.recycled _ List.mem_cons_self, hx⟩

/-- Giving back a pid in use satisfies both assertions. -/
theorem PidAllocator.Ok.dealloc {a : PidAllocator} {used used' : Nat → Prop} {pid : Nat}
    (h : a.Ok used) (hpid : used pid) (hused : ∀ pid', used' pid' → used pid' ∧ pid' ≠ pid) :
    ∃ a', a.dealloc pid = some a' ∧ a'.Ok used' := by
  obtain ⟨hlt, hnot⟩ := h.used pid hpid
  refine ⟨_, if_pos ⟨hlt, hnot⟩, fun pid' hpid' => ?_, fun pid' hpid' => ?_,
    List.nodup_cons.mpr ⟨hnot, h.nodup⟩⟩
  · obtain ⟨hu, hne⟩ := hused pid' hpid'
    obtain ⟨h1, h2⟩ := h.used pid' hu
    exact ⟨h1, by simp [hne, h2]⟩
  · rcases List.mem_cons.mp hpid' with rfl | hm
    · exact hlt
    · exact h.recycled pid' hm

namespace Kernel

def parentOf (k : Kernel) (p : Nat) : Option Nat := (k.procs p).bind Pcb.parent

def present (k : Kernel) (p : Nat) : Bool := (k.procs p).isSome

theorem present_eq (k : Kernel) (p : Nat) : k.present p = (k.isLive p || k.isZombie p) := by
  unfold present isLive isZombie
  cases k.procs p <;> simp

theorem present_of_parent {k : Kernel} {p q : Nat} (h : k.parentOf p = some q) :
    k.present p = true := by
  unfold parentOf at h
  unfold present
  cases hp : k.procs p with
  | none => simp [hp] at h
  | some inner => rfl

/-! ## The invariant -/

structure TreeOk (k : Kernel) : Prop where
  init : k.isLive k.initproc = true
  initPid : k.pidOf k.initproc = IDLE_PID
  initChild : ∀ q, k.initproc ∉ k.childrenOf q
  child : ∀ q c, c ∈ k.childrenOf q → k.parentOf c = some q
  listed : ∀ c, k.present c → c ≠ k.initproc →
    ∃ q, k.parentOf c = some q ∧ (k.childrenOf q).count c = 1
  zombie : ∀ q, k.isZombie q → k.childrenOf q = []
  map : ∀ pid p, (pid, p) ∈ k.pid2pcb ↔ k.isLive p ∧ k.pidOf p = pid
  pid : ∀ p q, k.present p → k.present q → k.pidOf p = k.pidOf q → p = q
  pids : k.pids.Ok fun pid => ∃ p, k.present p ∧ k.pidOf p = pid
  calls : ∀ p, (k.calls p).isSome → k.isLive p

/-! ## Accessors after an update of the process table -/

theorem parentOf_congr {k k' : Kernel} {q : Nat}
    (h : (k'.procs q).map Pcb.parent = (k.procs q).map Pcb.parent) :
    k'.parentOf q = k.parentOf q := by
  have hjoin : ∀ k : Kernel, k.parentOf q = ((k.procs q).map Pcb.parent).join := by
    intro k
    unfold parentOf
    cases k.procs q <;> rfl
  rw [hjoin, hjoin, h]

theorem isZombie_congr {k k' : Kernel} {q : Nat}
    (h : (k'.procs q).map Pcb.isZombie = (k.procs q).map Pcb.isZombie) :
    k'.isZombie q = k.isZombie q := by
  have hany : ∀ k : Kernel, k.isZombie q = ((k.procs q).map Pcb.isZombie).any id := by
    intro k
    simp only [isZombie, Option.any_map]
    rfl
  rw [hany, hany, h]

/-- The states agree on everything the tree invariant reads of the control
blocks. -/
structure SameTree (k k' : Kernel) : Prop where
  initproc : k'.initproc = k.initproc
  parentOf : ∀ q, k'.parentOf q = k.parentOf q
  childrenOf : ∀ q, k'.childrenOf q = k.childrenOf q
  isLive : ∀ q, k'.isLive q = k.isLive q
  isZombie : ∀ q, k'.isZombie q = k.isZombie q
  pidOf : ∀ q, k'.pidOf q = k.pidOf q
  exitCodeOf : ∀ q, k'.exitCodeOf q = k.exitCodeOf q
  nextProc : k'.nextProc = k.nextProc

theorem SameTree.present {k k' : Kernel} (h : SameTree k k') (q : Nat) :
    k'.present q = k.present q := by
  rw [present_eq, present_eq, h.isLive, h.isZombie]

theorem TreeOk.congr {k k' : Kernel} (h : k.TreeOk) (hs : SameTree k k')
    (hmap : ∀ pid p, (pid, p) ∈ k'.pid2pcb ↔ (pid, p) ∈ k.pid2pcb) (hpids : k'.pids = k.pids)
    (hcalls : ∀ p, (k'.calls p).isSome → k.isLive p) : k'.TreeOk where
  init := by rw [hs.isLive, hs.initproc, h.init]
  initPid := by rw [hs.pidOf, hs.initproc, h.initPid]
  initChild q := by rw [hs.childrenOf, hs.initproc]; exact h.initChild q
  child q c hc := by rw [hs.parentOf]; exact h.child q c (hs.childrenOf q ▸ hc)
  listed c hc hne := by
    obtain ⟨q, h1, h2⟩ := h.listed c (hs.present c ▸ hc) (hs.initproc ▸ hne)
    exact ⟨q, (hs.parentOf c).trans h1, by rw [hs.childrenOf]; exact h2⟩
  zombie q hq := by rw [hs.childrenOf]; exact h.zombie q (hs.isZombie q ▸ hq)
  map pid p := by rw [hmap, hs.isLive, hs.pidOf]; exact h.map pid p
  pid p q hp hq heq := by
    rw [hs.pidOf, hs.pidOf] at heq
    exact h.pid p q (hs.present p ▸ hp) (hs.present q ▸ hq) heq
  pids := by
    rw [hpids]
    refine ⟨fun pid hpid => ?_, h.pids.recycled, h.pids.nodup⟩
    obtain ⟨p, hp, heq⟩ := hpid
    exact h.pids.used pid ⟨p, hs.present p ▸ hp, (hs.pidOf p).symm.trans heq⟩
  calls p hp := by rw [hs.isLive]; exact hcalls p hp

theorem LocalStep.sameTree {k km : Kernel} (h : LocalStep k km) : SameTree k km := by
  have hfield : ∀ {α : Type} (g : Nat × ProcessStatus × Option Nat × List Nat × Int → α) (q : Nat),
      (km.procs q).map (fun inner => g inner.core) = (k.procs q).map fun inner => g inner.core := by
    intro α g q
    have := congrArg (Option.map g) (h.core q)
    rw [Option.map_map, Option.map_map] at this
    exact this
  exact {
    initproc := h.initproc
    parentOf := fun q => parentOf_congr (hfield (·.2.2.1) q)
    childrenOf := fun q => congrArg (Option.getD · []) (hfield (·.2.2.2.1) q)
    isLive := h.isLive
    isZombie := fun q => isZombie_congr (hfield (·.2.1 == .zombie) q)
    pidOf := fun q => congrArg (Option.getD · 0) (hfield (·.1) q)
    exitCodeOf := fun q => congrArg (Option.getD · 0) (hfield (·.2.2.2.2) q)
    nextProc := h.nextProc }

theorem TreeOk.local {k km : Kernel} (h : k.TreeOk) (hp : k.Placed) (hl : LocalStep k km) :
    km.TreeOk := by
  refine h.congr hl.sameTree (fun _ _ => by rw [hl.pid2pcb]) hl.pids fun p hcall => ?_
  by_cases hcur : k.current = some p
  · exact hp.current_live hcur
  · rw [hl.calls p hcur] at hcall
    exact h.calls p hcall

/-- The status change of a live process to ready or running. -/
theorem SameTree.setStatus {k : Kernel} {p : Nat} (hlive : k.isLive p = true) {s : ProcessStatus}
    (hs : s ≠ .zombie) :
    SameTree k (k.mapProcs fun q inner =>
      if q = p then { inner with processStatus := s } else inner) := by
  have hfield : ∀ {α : Type} (g : Pcb → α) (q : Nat),
      (∀ inner, g { inner with processStatus := s } = g inner) →
      ((k.mapProcs fun q inner =>
        if q = p then { inner with processStatus := s } else inner).procs q).map g
        = (k.procs q).map g := by
    intro α g q hg
    refine mapProcs_field _ _ _ _ fun inner => ?_
    split
    · exact hg inner
    · rfl
  exact {
    initproc := rfl
    parentOf := fun q => parentOf_congr (hfield _ q fun _ => rfl)
    childrenOf := fun q => congrArg (Option.getD · []) (hfield _ q fun _ => rfl)
    isLive := isLive_setStatus hlive hs
    isZombie := fun q => isZombie_congr (map_isZombie_setStatus hlive hs q)
    pidOf := fun q => congrArg (Option.getD · 0) (hfield _ q fun _ => rfl)
    exitCodeOf := fun q => congrArg (Option.getD · 0) (hfield _ q fun _ => rfl)
    nextProc := rfl }

theorem TreeOk.fetched {k : Kernel} (h : k.TreeOk) {p : Nat} (hlive : k.isLive p = true)
    (qs : List (List Nat)) : (k.fetched p qs).TreeOk := by
  have hs := SameTree.setStatus hlive (s := .running) (by decide)
  exact h.congr ⟨hs.initproc, hs.parentOf, hs.childrenOf, hs.isLive, hs.isZombie, hs.pidOf,
    hs.exitCodeOf, hs.nextProc⟩ (fun _ _ => Iff.rfl) rfl h.calls

theorem mem_insertPid {m : List (Nat × Nat)} {pid p pid' p' : Nat} :
    (pid', p') ∈ insertPid m pid p ↔ (pid' = pid ∧ p' = p) ∨ ((pid', p') ∈ m ∧ pid' ≠ pid) := by
  simp [insertPid]

/-- Putting a live process back under its own pid changes nothing. -/
theorem TreeOk.suspended {k : Kernel} (h : k.TreeOk) {p : Nat} (hlive : k.isLive p = true) :
    (k.suspended p).TreeOk := by
  have hs := SameTree.setStatus hlive (s := .ready) (by decide)
  refine h.congr ⟨hs.initproc, hs.parentOf, hs.childrenOf, hs.isLive, hs.isZombie, hs.pidOf,
    hs.exitCodeOf, hs.nextProc⟩ (fun pid q => ?_) rfl h.calls
  show (pid, q) ∈ insertPid k.pid2pcb (k.pidOf p) p ↔ _
  rw [mem_insertPid, h.map pid q]
  constructor
  · rintro (⟨rfl, rfl⟩ | ⟨h', -⟩)
    · exact ⟨hlive, rfl⟩
    · exact h'
  · rintro ⟨hq, rfl⟩
    by_cases hpid : k.pidOf q = k.pidOf p
    · refine .inl ⟨hpid, h.pid q p ?_ ?_ hpid⟩ <;> simp [present_eq, hq, hlive]
    · exact .inr ⟨⟨hq, rfl⟩, hpid⟩

/-! ## Exit -/

section Exited

variable {k : Kernel} {p : Nat} {exitCode : Int}

theorem procs_exited (q : Nat) : (k.exited p exitCode).procs q
    = (k.procs q).map (exitedPcb k.initproc p exitCode (k.childrenOf p) q) := rfl

theorem pidOf_exited (q : Nat) : (k.exited p exitCode).pidOf q = k.pidOf q := by
  unfold pidOf
  rw [procs_exited, Option.map_map]
  rfl

theorem present_exited (q : Nat) : (k.exited p exitCode).present q = k.present q := by
  simp [present, procs_exited]

theorem isZombie_exited (hp : k.present p = true) (q : Nat) :
    (k.exited p exitCode).isZombie q = (k.isZombie q || q = p) := by
  unfold isZombie
  unfold present at hp
  rw [procs_exited]
  rcases eq_or_ne q p with rfl | hq
  · obtain ⟨inner, hinner⟩ := Option.isSome_iff_exists.mp hp
    simp [hinner, exitedPcb, Pcb.isZombie]
  · cases k.procs q <;> simp [exitedPcb, Pcb.isZombie, hq]

theorem childrenOf_exited (exitCode : Int) (hinit : k.present k.initproc = true)
    (hne : p ≠ k.initproc) (q : Nat) :
    (k.exited p exitCode).childrenOf q
      = if q = p then [] else if q = k.initproc then k.childrenOf q ++ k.childrenOf p
        else k.childrenOf q := by
  have hraw : (k.exited p exitCode).childrenOf q = ((k.procs q).map fun inner =>
      if q = p then [] else if q = k.initproc then inner.children ++ k.childrenOf p
        else inner.children).getD [] := by
    show (((k.exited p exitCode).procs q).map Pcb.children).getD [] = _
    rw [procs_exited, Option.map_map]
    rfl
  rw [hraw]
  rcases eq_or_ne q p with rfl | hq
  · cases k.procs q <;> simp
  · simp only [hq, if_false]
    rcases eq_or_ne q k.initproc with rfl | hi
    · obtain ⟨inner, hinner⟩ := Option.isSome_iff_exists.mp hinit
      simp [childrenOf, hinner]
    · simp [childrenOf, hi]

theorem parentOf_exited (h : k.TreeOk) (q : Nat) :
    (k.exited p exitCode).parentOf q
      = if q ∈ k.childrenOf p then some k.initproc else k.parentOf q := by
  unfold parentOf
  rw [procs_exited]
  cases hq : k.procs q with
  | none =>
      have hnot : q ∉ k.childrenOf p := by
        intro hm
        have := present_of_parent (h.child p q hm)
        simp [present, hq] at this
      simp [hnot]
  | some inner => simp [exitedPcb]

theorem exitCodeOf_exited (hp : k.present p = true) (q : Nat) :
    (k.exited p exitCode).exitCodeOf q = if q = p then exitCode else k.exitCodeOf q := by
  unfold exitCodeOf
  rw [procs_exited, Option.map_map]
  rcases eq_or_ne q p with rfl | hq
  · obtain ⟨inner, hinner⟩ := Option.isSome_iff_exists.mp hp
    simp [hinner, exitedPcb]
  · cases k.procs q <;> simp [exitedPcb, hq]

theorem TreeOk.exited (h : k.TreeOk) (hlive : k.isLive p = true) (hpid : k.pidOf p ≠ IDLE_PID)
    (hcall : k.calls p = none) : (k.exited p exitCode).TreeOk := by
  have hne : p ≠ k.initproc := by
    rintro rfl
    exact hpid h.initPid
  have hpres : k.present p = true := by simp [present_eq, hlive]
  have hinit : k.present k.initproc = true := by simp [present_eq, h.init]
  have hch := childrenOf_exited exitCode hinit hne
  have hinitp : (k.exited p exitCode).initproc = k.initproc := rfl
  refine ⟨?_, ?_, fun q => ?_, fun q c hc => ?_, fun c hc hci => ?_, fun q hq => ?_,
    fun pid q => ?_, fun q r hq hr heq => ?_, ?_, fun q hq => ?_⟩
  · rw [isLive_exited, hinitp, h.init]
    simp [hne.symm]
  · rw [pidOf_exited, hinitp, h.initPid]
  · rw [hch, hinitp]
    split
    · simp
    · split
      · simp [h.initChild]
      · exact h.initChild q
  · -- a child of `q` after the exit: `q` is `initproc` and may have adopted it, or kept it
    rw [parentOf_exited h]
    rw [hch] at hc
    split at hc
    · cases hc
    · split at hc
      · next hqi =>
          subst hqi
          split
          · rfl
          · next hnot =>
              rcases List.mem_append.mp hc with hc | hc
              · exact h.child _ c hc
              · exact absurd hc hnot
      · next hqp hqi =>
          have hpar := h.child q c hc
          rw [if_neg, hpar]
          intro hm
          rw [h.child p c hm] at hpar
          exact hqp (Option.some.inj hpar).symm
  · rw [present_exited] at hc
    obtain ⟨q, hpar, hcount⟩ := h.listed c hc hci
    rw [parentOf_exited h]
    by_cases hm : c ∈ k.childrenOf p
    · have hqp : q = p := by
        rw [h.child p c hm] at hpar
        exact (Option.some.inj hpar).symm
      subst hqp
      refine ⟨k.initproc, if_pos hm, ?_⟩
      have hzero : (k.childrenOf k.initproc).count c = 0 := by
        rw [List.count_eq_zero]
        intro hm'
        rw [h.child _ c hm'] at hpar
        exact hne (Option.some.inj hpar).symm
      rw [hch, if_neg hne.symm, if_pos rfl, List.count_append, hzero, hcount]
    · refine ⟨q, by rw [if_neg hm, hpar], ?_⟩
      have hqp : q ≠ p := by
        rintro rfl
        rw [List.count_eq_zero.mpr hm] at hcount
        cases hcount
      rw [hch, if_neg hqp]
      split
      · rw [List.count_append, hcount, List.count_eq_zero.mpr hm]
      · exact hcount
  · rw [hch]
    rw [isZombie_exited hpres, Bool.or_eq_true, decide_eq_true_iff] at hq
    split
    · rfl
    · next hqp =>
        have hz := hq.resolve_right hqp
        have hqi : q ≠ k.initproc := by
          rintro rfl
          have := isZombie_not_live hz
          rw [h.init] at this
          cases this
        rw [if_neg hqi]
        exact h.zombie q hz
  · show (pid, q) ∈ k.pid2pcb.filter (·.1 ≠ k.pidOf p) ↔ _
    rw [List.mem_filter, h.map, isLive_exited, pidOf_exited]
    simp only [ne_eq, decide_not, Bool.not_eq_eq_eq_not, Bool.not_true, decide_eq_false_iff_not,
      Bool.and_eq_true]
    constructor
    · rintro ⟨⟨hq, rfl⟩, hnot⟩
      refine ⟨⟨hq, ?_⟩, rfl⟩
      rintro rfl
      exact hnot rfl
    · rintro ⟨⟨hq, hqp⟩, rfl⟩
      refine ⟨⟨hq, rfl⟩, fun heq => hqp (h.pid q p ?_ hpres heq)⟩
      simp [present_eq, hq]
  · rw [present_exited] at hq hr
    rw [pidOf_exited, pidOf_exited] at heq
    exact h.pid q r hq hr heq
  · refine ⟨fun pid hpid => ?_, h.pids.recycled, h.pids.nodup⟩
    obtain ⟨q, hq, heq⟩ := hpid
    rw [present_exited] at hq
    rw [pidOf_exited] at heq
    exact h.pids.used pid ⟨q, hq, heq⟩
  · have hq' : (k.calls q).isSome = true := hq
    rw [isLive_exited, h.calls q hq']
    have : q ≠ p := by
      rintro rfl
      rw [hcall] at hq'
      cases hq'
    simp [this]

end Exited

/-! ## Fork -/

section Forked

variable {k : Kernel} {p : Nat} {inner : Pcb}

theorem procs_forkedBy_new : (k.forkedBy p inner).procs k.nextProc
    = some (inner.forked p k.pids.alloc.1) := if_pos rfl

theorem procs_forkedBy {q : Nat} (hq : q ≠ k.nextProc) : (k.forkedBy p inner).procs q
    = (k.procs q).map fun inner =>
      if q = p then { inner with children := inner.children ++ [k.nextProc] } else inner :=
  if_neg hq

/-- A field other than the children list is as before at every old name. -/
theorem field_forkedBy {α : Type*} (g : Pcb → α)
    (hg : ∀ inner children, g { inner with children := children } = g inner) {q : Nat}
    (hq : q ≠ k.nextProc) : ((k.forkedBy p inner).procs q).map g = (k.procs q).map g := by
  rw [procs_forkedBy hq, Option.map_map]
  refine congrArg (Option.map · (k.procs q)) (funext fun inner => ?_)
  simp only [Function.comp_apply]
  split
  · exact hg _ _
  · rfl

theorem pidOf_forkedBy {q : Nat} (hq : q ≠ k.nextProc) :
    (k.forkedBy p inner).pidOf q = k.pidOf q :=
  congrArg (Option.getD · 0) (field_forkedBy Pcb.pid (fun _ _ => rfl) hq)

theorem pidOf_forkedBy_new : (k.forkedBy p inner).pidOf k.nextProc = k.pids.alloc.1 := by
  simp [pidOf, procs_forkedBy_new, Pcb.forked]

theorem parentOf_forkedBy {q : Nat} (hq : q ≠ k.nextProc) :
    (k.forkedBy p inner).parentOf q = k.parentOf q :=
  parentOf_congr (field_forkedBy Pcb.parent (fun _ _ => rfl) hq)

theorem isZombie_forkedBy {q : Nat} (hq : q ≠ k.nextProc) :
    (k.forkedBy p inner).isZombie q = k.isZombie q :=
  isZombie_congr (field_forkedBy Pcb.isZombie (fun _ _ => rfl) hq)

theorem present_forkedBy {q : Nat} (hq : q ≠ k.nextProc) :
    (k.forkedBy p inner).present q = k.present q := by
  simp [present, procs_forkedBy hq]

theorem exitCodeOf_forkedBy {q : Nat} (hq : q ≠ k.nextProc) :
    (k.forkedBy p inner).exitCodeOf q = k.exitCodeOf q :=
  congrArg (Option.getD · 0) (field_forkedBy Pcb.exitCode (fun _ _ => rfl) hq)

theorem childrenOf_forkedBy (hp : k.present p = true) {q : Nat} (hq : q ≠ k.nextProc) :
    (k.forkedBy p inner).childrenOf q
      = if q = p then k.childrenOf q ++ [k.nextProc] else k.childrenOf q := by
  unfold childrenOf
  rw [procs_forkedBy hq]
  rcases eq_or_ne q p with rfl | hqp
  · obtain ⟨inner, hinner⟩ := Option.isSome_iff_exists.mp hp
    simp [hinner]
  · simp [hqp]

theorem childrenOf_forkedBy_new : (k.forkedBy p inner).childrenOf k.nextProc = [] := by
  simp [childrenOf, procs_forkedBy_new, Pcb.forked]

theorem TreeOk.forkedBy (h : k.TreeOk) (hplaced : k.Placed) (hlive : k.isLive p = true) :
    (k.forkedBy p inner).TreeOk := by
  have hpres : k.present p = true := by simp [present_eq, hlive]
  have hfresh : k.present k.nextProc = false := by
    simp [present, hplaced.fresh k.nextProc (Nat.le_refl _)]
  have hold : ∀ {q}, k.present q = true → q ≠ k.nextProc := by
    rintro q hq rfl
    rw [hfresh] at hq
    cases hq
  have hinit : k.initproc ≠ k.nextProc := hold (by simp [present_eq, h.init])
  have hnot : ∀ q, k.nextProc ∉ k.childrenOf q :=
    fun q hm => hold (present_of_parent (h.child q _ hm)) rfl
  have hinitp : (k.forkedBy p inner).initproc = k.initproc := rfl
  refine ⟨?_, ?_, fun q => ?_, fun q c hc => ?_, fun c hc hci => ?_, fun q hq => ?_,
    fun pid q => ?_, fun q r hq hr heq => ?_, ?_, fun q hq => ?_⟩
  · rw [isLive_forkedBy, hinitp, h.init]
    rfl
  · rw [hinitp, pidOf_forkedBy hinit, h.initPid]
  · rw [hinitp]
    rcases eq_or_ne q k.nextProc with rfl | hq
    · simp [childrenOf_forkedBy_new]
    · rw [childrenOf_forkedBy hpres hq]
      split
      · simp [h.initChild q, hinit]
      · exact h.initChild q
  · rcases eq_or_ne q k.nextProc with rfl | hq
    · simp [childrenOf_forkedBy_new] at hc
    · rw [childrenOf_forkedBy hpres hq] at hc
      have hkeep : c ∈ k.childrenOf q → (k.forkedBy p inner).parentOf c = some q := by
        intro hm
        have hpar := h.child q c hm
        rw [parentOf_forkedBy (hold (present_of_parent hpar)), hpar]
      split at hc
      · next hqp =>
          rcases List.mem_append.mp hc with hc | hc
          · exact hkeep hc
          · obtain rfl := List.mem_singleton.mp hc
            simp [parentOf, procs_forkedBy_new, Pcb.forked, hqp]
      · exact hkeep hc
  · rcases eq_or_ne c k.nextProc with rfl | hcn
    · refine ⟨p, by simp [parentOf, procs_forkedBy_new, Pcb.forked], ?_⟩
      rw [childrenOf_forkedBy hpres (hold hpres), if_pos rfl, List.count_append,
        List.count_eq_zero.mpr (hnot p)]
      simp
    · rw [present_forkedBy hcn] at hc
      obtain ⟨q, hpar, hcount⟩ := h.listed c hc hci
      have hq : q ≠ k.nextProc := by
        rintro rfl
        have : k.childrenOf k.nextProc = [] := by
          simp [childrenOf, hplaced.fresh k.nextProc (Nat.le_refl _)]
        rw [this] at hcount
        cases hcount
      refine ⟨q, by rw [parentOf_forkedBy hcn, hpar], ?_⟩
      rw [childrenOf_forkedBy hpres hq]
      split
      · rw [List.count_append, hcount, List.count_singleton]
        simp [hcn.symm]
      · exact hcount
  · rcases eq_or_ne q k.nextProc with rfl | hqn
    · exact childrenOf_forkedBy_new
    · rw [isZombie_forkedBy hqn] at hq
      rw [childrenOf_forkedBy hpres hqn, if_neg]
      · exact h.zombie q hq
      · rintro rfl
        have := isZombie_not_live hq
        rw [hlive] at this
        cases this
  · show (pid, q) ∈ insertPid k.pid2pcb k.pids.alloc.1 k.nextProc ↔ _
    rw [mem_insertPid, h.map, isLive_forkedBy, Bool.or_eq_true, decide_eq_true_iff]
    constructor
    · rintro (⟨rfl, rfl⟩ | ⟨⟨hq, rfl⟩, -⟩)
      · exact ⟨.inr rfl, pidOf_forkedBy_new⟩
      · have hqn := hold (by simp [present_eq, hq] : k.present q = true)
        exact ⟨.inl hq, pidOf_forkedBy hqn⟩
    · rintro ⟨hq, rfl⟩
      rcases eq_or_ne q k.nextProc with rfl | hqn
      · exact .inl ⟨pidOf_forkedBy_new, rfl⟩
      · have hq' := hq.resolve_right hqn
        rw [pidOf_forkedBy hqn]
        exact .inr ⟨⟨hq', rfl⟩, fun heq =>
          h.pids.alloc_fresh ⟨q, by simp [present_eq, hq'], heq⟩⟩
  · have hnew : ∀ q, k.present q = true → k.pidOf q ≠ k.pids.alloc.1 :=
      fun q hq heq => h.pids.alloc_fresh ⟨q, hq, heq⟩
    rcases eq_or_ne q k.nextProc with rfl | hqn <;> rcases eq_or_ne r k.nextProc with rfl | hrn
    · rfl
    · rw [pidOf_forkedBy_new, pidOf_forkedBy hrn] at heq
      exact absurd heq.symm (hnew r (present_forkedBy hrn ▸ hr))
    · rw [pidOf_forkedBy_new, pidOf_forkedBy hqn] at heq
      exact absurd heq (hnew q (present_forkedBy hqn ▸ hq))
    · rw [pidOf_forkedBy hqn, pidOf_forkedBy hrn] at heq
      exact h.pid q r (present_forkedBy hqn ▸ hq) (present_forkedBy hrn ▸ hr) heq
  · refine h.pids.alloc fun pid hpid => ?_
    obtain ⟨q, hq, rfl⟩ := hpid
    rcases eq_or_ne q k.nextProc with rfl | hqn
    · exact .inr pidOf_forkedBy_new
    · exact .inl ⟨q, present_forkedBy hqn ▸ hq, (pidOf_forkedBy hqn).symm⟩
  · rw [isLive_forkedBy, h.calls q hq]
    rfl

end Forked

/-! ## Reaping -/

/-- The first child that satisfies the test is the one removed. -/
theorem eraseP_of_find? {l : List Nat} {t : Nat → Bool} {c : Nat} (h : l.find? t = some c) :
    l.eraseP t = l.erase c := by
  induction l with
  | nil => cases h
  | cons x xs ih =>
      cases hx : t x with
      | true =>
          rw [List.find?_cons_of_pos hx] at h
          cases h
          rw [List.eraseP_cons_of_pos hx, List.erase_cons_head]
      | false =>
          have hx' : ¬ t x = true := by simp [hx]
          rw [List.find?_cons_of_neg hx'] at h
          have hne : x ≠ c := by
            rintro rfl
            exact hx' (List.find?_some h)
          rw [List.eraseP_cons_of_neg hx', ih h, List.erase_cons_tail (by simpa using hne)]

section Reaped

variable {k : Kernel} {p c : Nat} {pid : Int} {inner : Pcb} {pids : PidAllocator}

/-- The state of a `sys_waitpid` that has found the child `c`. -/
structure Reaps (k : Kernel) (p : Nat) (pid : Int) (c : Nat) : Prop where
  live : k.isLive p = true
  find : (k.childrenOf p).find? (k.reapable pid) = some c

theorem Reaps.mem (h : Reaps k p pid c) : c ∈ k.childrenOf p := List.mem_of_find?_eq_some h.find

theorem Reaps.zombie (h : Reaps k p pid c) : k.isZombie c = true := by
  have := List.find?_some h.find
  simp only [reapable, Bool.and_eq_true] at this
  exact this.1

theorem field_detached {α : Type*} (g : Pcb → α)
    (hg : ∀ inner children, g { inner with children := children } = g inner) (q : Nat) :
    ((k.detached p pid).procs q).map g = (k.procs q).map g := by
  refine mapProcs_field _ _ _ _ fun inner => ?_
  split
  · exact hg _ _
  · rfl

theorem childrenOf_detached (h : Reaps k p pid c) (q : Nat) :
    (k.detached p pid).childrenOf q
      = if q = p then (k.childrenOf p).erase c else k.childrenOf q := by
  have hraw : (k.detached p pid).childrenOf q = ((k.procs q).map fun inner =>
      if q = p then inner.children.eraseP (k.reapable pid) else inner.children).getD [] := by
    show (((k.procs q).map _).map Pcb.children).getD [] = _
    rw [Option.map_map]
    refine congrArg (fun f => (Option.map f (k.procs q)).getD []) (funext fun inner => ?_)
    simp only [Function.comp_apply]
    split <;> rfl
  rw [hraw]
  rcases eq_or_ne q p with rfl | hq
  · obtain ⟨inner, hinner, -⟩ := isLive_iff.mp h.live
    have hch : k.childrenOf q = inner.children := by simp [childrenOf, hinner]
    have hfind := h.find
    rw [hch] at hfind
    simp [hinner, hch, eraseP_of_find? hfind]
  · simp [hq, childrenOf]

/-- After the removal no children list mentions `c`. -/
theorem TreeOk.not_mem_detached (hk : k.TreeOk) (h : Reaps k p pid c) (q : Nat) :
    c ∉ (k.detached p pid).childrenOf q := by
  rw [childrenOf_detached h]
  have hpar := hk.child p c h.mem
  split
  · have hci : c ≠ k.initproc := by
      rintro rfl
      exact hk.initChild p h.mem
    obtain ⟨q', hpar', hcount⟩ := hk.listed c (present_of_parent hpar) hci
    rw [hpar] at hpar'
    cases hpar'
    rw [← List.count_eq_zero, List.count_erase_self, hcount]
  · next hq =>
      intro hm
      rw [hk.child q c hm] at hpar
      exact hq (Option.some.inj hpar)

/-- The assertion of `sys_waitpid`: nothing else refers to the child. -/
theorem TreeOk.strongCount_detached (hk : k.TreeOk) (hplaced : k.Placed) (h : Reaps k p pid c) :
    (k.detached p pid).strongCount c = 0 := by
  have hdead := isZombie_not_live h.zombie
  have hplace := hplaced.place c
  rw [hdead, if_neg Bool.false_ne_true] at hplace
  have hmap : (k.pid2pcb.map Prod.snd).count c = 0 := by
    rw [List.count_eq_zero]
    intro hm
    obtain ⟨⟨pid', c'⟩, hmem, rfl⟩ := List.mem_map.mp hm
    have := ((hk.map pid' c').mp hmem).1
    rw [hdead] at this
    cases this
  have hinit : k.initproc ≠ c := by
    rintro rfl
    rw [hk.init] at hdead
    cases hdead
  have hcalls : (k.calls c).isSome = false := by
    by_contra hc
    rw [Bool.not_eq_false] at hc
    rw [hk.calls c hc] at hdead
    cases hdead
  have hsum : ∑ q ∈ Finset.range k.nextProc, ((k.detached p pid).childrenOf q).count c = 0 :=
    Finset.sum_eq_zero fun q _ => List.count_eq_zero.mpr (hk.not_mem_detached h q)
  show k.readyQueues.flatten.count c + (if k.current = some c then 1 else 0)
    + (k.pid2pcb.map Prod.snd).count c
    + ∑ q ∈ Finset.range k.nextProc, ((k.detached p pid).childrenOf q).count c
    + (if k.initproc = c then 1 else 0) + (if (k.calls c).isSome then 1 else 0) = 0
  rw [hplace, hmap, hsum, if_neg hinit, hcalls]
  rfl

theorem procs_reaped_self : (k.reaped p pid c pids).procs c = none := Function.update_self ..

theorem procs_reaped {q : Nat} (hq : q ≠ c) :
    (k.reaped p pid c pids).procs q = (k.detached p pid).procs q := Function.update_of_ne hq ..

theorem field_reaped {α : Type*} (g : Pcb → α)
    (hg : ∀ inner children, g { inner with children := children } = g inner) {q : Nat}
    (hq : q ≠ c) : ((k.reaped p pid c pids).procs q).map g = (k.procs q).map g := by
  rw [procs_reaped hq]
  exact field_detached g hg q

theorem present_reaped (q : Nat) :
    (k.reaped p pid c pids).present q = (k.present q && q ≠ c) := by
  rcases eq_or_ne q c with rfl | hq
  · simp [present, procs_reaped_self]
  · simp [present, procs_reaped hq, detached, mapProcs, hq]

theorem pidOf_reaped {q : Nat} (hq : q ≠ c) :
    (k.reaped p pid c pids).pidOf q = k.pidOf q :=
  congrArg (Option.getD · 0) (field_reaped Pcb.pid (fun _ _ => rfl) hq)

theorem parentOf_reaped {q : Nat} (hq : q ≠ c) :
    (k.reaped p pid c pids).parentOf q = k.parentOf q :=
  parentOf_congr (field_reaped Pcb.parent (fun _ _ => rfl) hq)

theorem exitCodeOf_reaped {q : Nat} (hq : q ≠ c) :
    (k.reaped p pid c pids).exitCodeOf q = k.exitCodeOf q :=
  congrArg (Option.getD · 0) (field_reaped Pcb.exitCode (fun _ _ => rfl) hq)

theorem isZombie_reaped (q : Nat) :
    (k.reaped p pid c pids).isZombie q = (k.isZombie q && q ≠ c) := by
  rcases eq_or_ne q c with rfl | hq
  · simp [isZombie, procs_reaped_self]
  · rw [isZombie_congr (field_reaped Pcb.isZombie (fun _ _ => rfl) hq)]
    simp [hq]

theorem isLive_reaped (h : Reaps k p pid c) (q : Nat) :
    (k.reaped p pid c pids).isLive q = k.isLive q := by
  rcases eq_or_ne q c with rfl | hq
  · rw [isZombie_not_live h.zombie]
    simp [isLive, procs_reaped_self]
  · exact isLive_congr (field_reaped Pcb.isZombie (fun _ _ => rfl) hq)

theorem childrenOf_reaped (pids : PidAllocator) (hk : k.TreeOk) (h : Reaps k p pid c) (q : Nat) :
    (k.reaped p pid c pids).childrenOf q
      = if q = p then (k.childrenOf p).erase c else k.childrenOf q := by
  rw [← childrenOf_detached h]
  rcases eq_or_ne q c with rfl | hq
  · have hqp : q ≠ p := by
      rintro rfl
      have := isZombie_not_live h.zombie
      rw [h.live] at this
      cases this
    rw [childrenOf_detached h, if_neg hqp, hk.zombie q h.zombie]
    simp [childrenOf, procs_reaped_self]
  · unfold childrenOf
    rw [procs_reaped hq]

theorem TreeOk.reaped (hk : k.TreeOk) (h : Reaps k p pid c)
    (hpids : k.pids.dealloc (k.pidOf c) = some pids) : (k.reaped p pid c pids).TreeOk := by
  have hch := childrenOf_reaped pids hk h
  have hnot : ∀ q, c ∉ (k.reaped p pid c pids).childrenOf q := by
    intro q
    rw [hch, ← childrenOf_detached h]
    exact hk.not_mem_detached h q
  have hsub : ∀ q x, x ∈ (k.reaped p pid c pids).childrenOf q → x ∈ k.childrenOf q := by
    intro q x hx
    rw [hch] at hx
    split at hx
    · next hqp =>
        rw [hqp]
        exact List.mem_of_mem_erase hx
    · exact hx
  have hinitp : (k.reaped p pid c pids).initproc = k.initproc := rfl
  have hci : k.initproc ≠ c := by
    rintro rfl
    exact hk.initChild p h.mem
  have hpresc : k.present c = true := present_of_parent (hk.child p c h.mem)
  refine ⟨?_, ?_, fun q hm => hk.initChild q (hsub q _ hm), fun q x hx => ?_,
    fun x hx hxi => ?_, fun q hq => ?_, fun pid' q => ?_, fun q r hq hr heq => ?_, ?_,
    fun q hq => ?_⟩
  · rw [isLive_reaped h, hinitp, hk.init]
  · rw [hinitp, pidOf_reaped hci, hk.initPid]
  · have hxc : x ≠ c := by
      rintro rfl
      exact hnot q hx
    rw [parentOf_reaped hxc]
    exact hk.child q x (hsub q x hx)
  · rw [present_reaped, Bool.and_eq_true, decide_eq_true_iff] at hx
    obtain ⟨q, hpar, hcount⟩ := hk.listed x hx.1 hxi
    refine ⟨q, by rw [parentOf_reaped hx.2, hpar], ?_⟩
    rw [hch]
    split
    · next hqp =>
        subst hqp
        rw [List.count_erase_of_ne hx.2, hcount]
    · exact hcount
  · rw [isZombie_reaped, Bool.and_eq_true] at hq
    refine List.eq_nil_iff_forall_not_mem.mpr fun x hx => ?_
    have := hsub q x hx
    rw [hk.zombie q hq.1] at this
    cases this
  · show (pid', q) ∈ k.pid2pcb ↔ _
    rw [hk.map, isLive_reaped h]
    refine and_congr_right fun hq => ?_
    rw [pidOf_reaped]
    rintro rfl
    rw [isZombie_not_live h.zombie] at hq
    cases hq
  · rw [present_reaped, Bool.and_eq_true, decide_eq_true_iff] at hq hr
    rw [pidOf_reaped hq.2, pidOf_reaped hr.2] at heq
    exact hk.pid q r hq.1 hr.1 heq
  · have hused : ∀ pid', (∃ q, (k.reaped p pid c pids).present q
        ∧ (k.reaped p pid c pids).pidOf q = pid') →
        (∃ q, k.present q ∧ k.pidOf q = pid') ∧ pid' ≠ k.pidOf c := by
      rintro pid' ⟨q, hq, rfl⟩
      rw [present_reaped, Bool.and_eq_true, decide_eq_true_iff] at hq
      rw [pidOf_reaped hq.2]
      exact ⟨⟨q, hq.1, rfl⟩, fun heq => hq.2 (hk.pid q c hq.1 hpresc heq)⟩
    obtain ⟨a', ha', hok⟩ := hk.pids.dealloc ⟨c, hpresc, rfl⟩ hused
    rw [hpids] at ha'
    cases ha'
    exact hok
  · rw [isLive_reaped h]
    exact hk.calls q hq

end Reaped

theorem Placed.reaps {k : Kernel} (h : k.Placed) {p c : Nat} {pid : Int} {inner : Pcb}
    (hcur : k.currentInner = some (p, inner))
    (hfind : inner.children.find? (k.reapable pid) = some c) : Reaps k p pid c := by
  obtain ⟨hp, hinner⟩ := currentInner_eq_some.mp hcur
  exact ⟨h.current_live hp, by simpa [childrenOf, hinner] using hfind⟩

theorem TreeOk.action {k k' : Kernel} {a : Act} (h : k.TreeOk) (hp : k.Placed)
    (ha : Action k a k') : k'.TreeOk := by
  cases ha with
  | none => exact h
  | fetch _ hf => exact h.fetched (hp.fetched_live hf) _
  | suspend hcur => exact h.suspended (hp.current_live hcur)
  | fork hcur => exact h.forkedBy hp (hp.current_live (currentInner_eq_some.mp hcur).1)
  | exit exitCode hcur hcall hpid => exact h.exited (hp.current_live hcur) hpid hcall
  | reap hcur hfind hpids => exact h.reaped (hp.reaps hcur hfind) hpids

theorem boot_treeOk (cx : TrapContext) : (boot cx).TreeOk := by
  have hprocs : ∀ q, q ≠ 0 → (boot cx).procs q = none := by
    intro q hq
    simp [boot, hq]
  have hch : ∀ q, (boot cx).childrenOf q = [] := by
    intro q
    rcases eq_or_ne q 0 with rfl | hq
    · rfl
    · simp [childrenOf, hprocs q hq]
  have hpres : ∀ q, (boot cx).present q → q = 0 := by
    intro q hq
    by_contra hne
    simp [present, hprocs q hne] at hq
  refine ⟨rfl, rfl, fun q => by simp [hch], fun q c hc => by simp [hch] at hc,
    fun c hc hci => absurd (hpres c hc) hci, fun q _ => hch q, fun pid q => ?_,
    fun q r hq hr _ => by rw [hpres q hq, hpres r hr], ?_, fun q hq => by cases hq⟩
  · rcases eq_or_ne q 0 with rfl | hq
    · have : (boot cx).isLive 0 = true := rfl
      have hpid : (boot cx).pidOf 0 = 0 := rfl
      rw [this, hpid]
      show (pid, 0) ∈ [(0, 0)] ↔ _
      simp [eq_comm]
    · simp [isLive, boot, hq]
  · refine ⟨?_, fun pid (hpid : pid ∈ []) => by simp at hpid, List.nodup_nil⟩
    rintro pid ⟨q, hq, rfl⟩
    obtain rfl := hpres q hq
    exact ⟨Nat.one_pos, fun hm => by cases hm⟩

/-! ## The assertions -/

/-- The pid map, looked up: each key is the pid of a live process. -/
theorem TreeOk.pid2process_iff {k : Kernel} (h : k.TreeOk) (pid p : Nat) :
    k.pid2process pid = some p ↔ k.isLive p ∧ k.pidOf p = pid := by
  have hmem : ∀ q, k.pid2process pid = some q → (pid, q) ∈ k.pid2pcb := by
    intro q hq
    obtain ⟨l₁, l₂, heq, -⟩ := List.lookup_eq_some_iff.mp hq
    rw [heq]
    simp
  constructor
  · intro hp
    exact (h.map pid p).mp (hmem p hp)
  · rintro ⟨hlive, hpid⟩
    cases hq : k.pid2process pid with
    | none =>
        have := List.lookup_eq_none_iff.mp hq (pid, p) ((h.map pid p).mpr ⟨hlive, hpid⟩)
        simp at this
    | some q =>
        obtain ⟨hqlive, hqpid⟩ := (h.map pid q).mp (hmem q hq)
        rw [h.pid p q (by simp [present_eq, hlive]) (by simp [present_eq, hqlive])
          (hpid.trans hqpid.symm)]

theorem TreeOk.exit_error {k : Kernel} (h : k.TreeOk) (hplaced : k.Placed) {p : Nat}
    (hp : k.current = some p) {exitCode : Int} {halt : Halt}
    (herr : k.exitCurrentAndRunNext exitCode = .error halt) : ∃ failure, halt = .shutdown failure := by
  have hfound : (k.pid2process (k.pidOf p)).isSome = true := by
    rw [(h.pid2process_iff _ p).mpr ⟨hplaced.current_live hp, rfl⟩]
    rfl
  unfold exitCurrentAndRunNext takeCurrentProcess removeFromPid2process at herr
  rw [hp] at herr
  dsimp only at herr
  split at herr
  · cases herr
    exact ⟨_, rfl⟩
  · split at herr
    · next hnone =>
        split at hnone
        · cases hnone
        · next hno => exact absurd hfound hno
    · cases herr

theorem TreeOk.waitpid_error {k : Kernel} (h : k.TreeOk) (hplaced : k.Placed) {pid : Int}
    {halt : Halt} (herr : k.sysWaitpid pid = .error halt) : halt = .current := by
  cases hcur : k.currentInner with
  | none =>
      unfold sysWaitpid at herr
      rw [hcur] at herr
      cases herr
      rfl
  | some pi =>
      obtain ⟨p, inner⟩ := pi
      cases hfind : inner.children.find? (k.reapable pid) with
      | none =>
          unfold sysWaitpid at herr
          simp only [hcur, hfind] at herr
          split at herr <;> cases herr
      | some c =>
          have hr := hplaced.reaps hcur hfind
          have hpresc : k.present c = true := present_of_parent (h.child p c hr.mem)
          obtain ⟨pids, hpids, -⟩ := h.pids.dealloc ⟨c, hpresc, rfl⟩ fun pid' hfalse =>
            False.elim hfalse
          rw [waitpid_found hcur hfind, if_pos (h.strongCount_detached hplaced hr), hpids] at herr
          cases herr

/-- None of the assertions about pids and references fails. -/
theorem TreeOk.no_panic {k : Kernel} (h : k.TreeOk) (hplaced : k.Placed) {e : KEvent}
    (hen : k.Enabled e) {halt : Halt} (herr : k.perform e = .error halt) :
    halt ≠ .pid2process ∧ halt ≠ .strongCount ∧ halt ≠ .pidDealloc := by
  have hexec : ∃ p, k.executing = some p := by
    cases e with
    | fetch => cases herr
    | _ =>
        obtain ⟨p, hp, -⟩ := hen
        exact ⟨p, hp⟩
  obtain ⟨p, hp⟩ := hexec
  rw [hplaced.executing] at hp
  rcases perform_error hp herr with hloc | ⟨-, rfl⟩ | ⟨km, exitCode, hl, hexit⟩ | ⟨pid, -, hwait⟩
  · cases halt <;> simp [Halt.Local] at hloc ⊢
  · simp
  · obtain ⟨failure, rfl⟩ :=
      (h.local hplaced hl).exit_error (hplaced.local hl) (hl.current.trans hp) hexit
    simp
  · obtain rfl := h.waitpid_error hplaced hwait
    simp

end Kernel

/-! ## What a run has observed -/

namespace Act

/-- The exit code of an exit of `c`. -/
def exitOf (c : Nat) : Act → Option Int
  | .exit p exitCode => if p = c then some exitCode else none
  | _ => none

/-- The exit code reported when `c` is reaped. -/
def reapOf (c : Nat) : Act → Option Int
  | .reap _ c' _ exitCode => if c' = c then some exitCode else none
  | _ => none

end Act

/-- The exit codes of `c`, in order. -/
def exitsOf (tr : List Act) (c : Nat) : List Int := tr.filterMap (Act.exitOf c)

def reapsOf (tr : List Act) (c : Nat) : List Int := tr.filterMap (Act.reapOf c)

/-- The control block of a process agrees with what was observed of it. -/
structure History (tr : List Act) (k : Kernel) : Prop where
  live : ∀ c, k.isLive c → exitsOf tr c = []
  zombie : ∀ c, k.isZombie c → exitsOf tr c = [k.exitCodeOf c]
  fresh : ∀ c, k.nextProc ≤ c → exitsOf tr c = []
  reaped : ∀ c, k.present c ∨ k.nextProc ≤ c → reapsOf tr c = []
  forked : ∀ c, k.present c → c ≠ k.initproc → ∃ p, .fork p c ∈ tr
    ∧ (k.parentOf c = some p ∨ (k.parentOf c = some k.initproc ∧ exitsOf tr p ≠ []))

namespace History

variable {tr : List Act} {k k' : Kernel}

theorem exitsOf_snoc (a : Act) (c : Nat) :
    exitsOf (tr ++ [a]) c = exitsOf tr c ++ (Act.exitOf c a).toList := by
  unfold exitsOf
  rw [List.filterMap_append]
  cases h : Act.exitOf c a <;> simp [h]

theorem reapsOf_snoc (a : Act) (c : Nat) :
    reapsOf (tr ++ [a]) c = reapsOf tr c ++ (Act.reapOf c a).toList := by
  unfold reapsOf
  rw [List.filterMap_append]
  cases h : Act.reapOf c a <;> simp [h]

/-- An exit recorded once stays recorded. -/
theorem exitsOf_snoc_ne {a : Act} {c : Nat} (h : exitsOf tr c ≠ []) :
    exitsOf (tr ++ [a]) c ≠ [] := by
  rw [exitsOf_snoc]
  simp [h]

theorem congr (h : History tr k) (hs : Kernel.SameTree k k') : History tr k' where
  live c hc := h.live c (hs.isLive c ▸ hc)
  zombie c hc := by rw [hs.exitCodeOf]; exact h.zombie c (hs.isZombie c ▸ hc)
  fresh c hc := h.fresh c (hs.nextProc ▸ hc)
  reaped c hc := h.reaped c (by rw [← hs.present, ← hs.nextProc]; exact hc)
  forked c hc hci := by
    rw [hs.parentOf, hs.initproc]
    exact h.forked c (hs.present c ▸ hc) (hs.initproc ▸ hci)

/-- A step that observes nothing and keeps the tree. -/
theorem other (h : History tr k) : History (tr ++ [.other]) k where
  live c hc := by rw [exitsOf_snoc, h.live c hc]; rfl
  zombie c hc := by rw [exitsOf_snoc, h.zombie c hc]; rfl
  fresh c hc := by rw [exitsOf_snoc, h.fresh c hc]; rfl
  reaped c hc := by rw [reapsOf_snoc, h.reaped c hc]; rfl
  forked c hc hci := by
    obtain ⟨p, hfork, hpar⟩ := h.forked c hc hci
    exact ⟨p, List.mem_append_left _ hfork, hpar.imp_right fun h => ⟨h.1, exitsOf_snoc_ne h.2⟩⟩

theorem fork (h : History tr k) {p : Nat} {inner : Pcb} :
    History (tr ++ [.fork p k.nextProc]) (k.forkedBy p inner) where
  live c hc := by
    rw [exitsOf_snoc]
    rw [Kernel.isLive_forkedBy, Bool.or_eq_true, decide_eq_true_iff] at hc
    rcases hc with hc | rfl
    · rw [h.live c hc]; rfl
    · rw [h.fresh _ (Nat.le_refl _)]; rfl
  zombie c hc := by
    rw [exitsOf_snoc]
    have hcn : c ≠ k.nextProc := by
      rintro rfl
      simp [Kernel.isZombie, Kernel.procs_forkedBy_new, Pcb.forked, Pcb.isZombie] at hc
    rw [Kernel.isZombie_forkedBy hcn] at hc
    rw [Kernel.exitCodeOf_forkedBy hcn, h.zombie c hc]
    rfl
  fresh c hc := by
    have hc' : k.nextProc + 1 ≤ c := hc
    rw [exitsOf_snoc, h.fresh c (by omega)]
    rfl
  reaped c hc := by
    have hc' : k.present c ∨ k.nextProc ≤ c := by
      rcases eq_or_ne c k.nextProc with rfl | hcn
      · exact .inr (Nat.le_refl _)
      · rw [Kernel.present_forkedBy hcn] at hc
        exact hc.imp_right fun h : k.nextProc + 1 ≤ c => by omega
    rw [reapsOf_snoc, h.reaped c hc']
    rfl
  forked c hc hci := by
    rcases eq_or_ne c k.nextProc with rfl | hcn
    · exact ⟨p, by simp, .inl (by simp [Kernel.parentOf, Kernel.procs_forkedBy_new, Pcb.forked])⟩
    · rw [Kernel.present_forkedBy hcn] at hc
      obtain ⟨p', hfork, hpar⟩ := h.forked c hc hci
      rw [Kernel.parentOf_forkedBy hcn]
      exact ⟨p', List.mem_append_left _ hfork,
        hpar.imp_right fun h => ⟨h.1, exitsOf_snoc_ne h.2⟩⟩

theorem exit (h : History tr k) (hk : k.TreeOk) (hplaced : k.Placed) {p : Nat}
    (hlive : k.isLive p = true) (exitCode : Int) :
    History (tr ++ [.exit p exitCode]) (k.exited p exitCode) := by
  have hpres : k.present p = true := by simp [Kernel.present_eq, hlive]
  have hplt : p < k.nextProc := by
    by_contra hge
    simp [Kernel.present, hplaced.fresh p (Nat.le_of_not_lt hge)] at hpres
  have hself : exitsOf (tr ++ [.exit p exitCode]) p = [exitCode] := by
    rw [exitsOf_snoc, h.live p hlive]
    simp [Act.exitOf]
  have hother : ∀ c, c ≠ p → exitsOf (tr ++ [.exit p exitCode]) c = exitsOf tr c := by
    intro c hc
    rw [exitsOf_snoc]
    simp [Act.exitOf, hc.symm]
  refine ⟨fun c hc => ?_, fun c hc => ?_, fun c hc => ?_, fun c hc => ?_, fun c hc hci => ?_⟩
  · rw [Kernel.isLive_exited, Bool.and_eq_true, decide_eq_true_iff] at hc
    rw [hother c hc.2, h.live c hc.1]
  · rw [Kernel.isZombie_exited hpres, Bool.or_eq_true, decide_eq_true_iff] at hc
    rw [Kernel.exitCodeOf_exited hpres]
    rcases eq_or_ne c p with rfl | hcp
    · rw [if_pos rfl, hself]
    · rw [if_neg hcp, hother c hcp, h.zombie c (hc.resolve_right hcp)]
  · have hc' : k.nextProc ≤ c := hc
    rw [hother c (by omega), h.fresh c hc']
  · rw [Kernel.present_exited] at hc
    rw [reapsOf_snoc, h.reaped c hc]
    rfl
  · rw [Kernel.present_exited] at hc
    obtain ⟨p', hfork, hpar⟩ := h.forked c hc hci
    refine ⟨p', List.mem_append_left _ hfork, ?_⟩
    rw [Kernel.parentOf_exited hk]
    split
    · next hm =>
        -- an orphan: its parent was `p`, which has exited now, or it was adopted before
        refine .inr ⟨rfl, ?_⟩
        rw [hk.child p c hm] at hpar
        rcases hpar with heq | ⟨-, hne⟩
        · cases heq
          simp [hself]
        · exact exitsOf_snoc_ne hne
    · exact hpar.imp_right fun h => ⟨h.1, exitsOf_snoc_ne h.2⟩

theorem reap (h : History tr k) (hplaced : k.Placed) {p c : Nat} {pid : Int}
    {pids : PidAllocator} (hr : Kernel.Reaps k p pid c) (r code : Int) :
    History (tr ++ [.reap p c r code]) (k.reaped p pid c pids) where
  live x hx := by
    rw [Kernel.isLive_reaped hr] at hx
    rw [exitsOf_snoc, h.live x hx]
    rfl
  zombie x hx := by
    rw [Kernel.isZombie_reaped, Bool.and_eq_true, decide_eq_true_iff] at hx
    rw [exitsOf_snoc, Kernel.exitCodeOf_reaped hx.2, h.zombie x hx.1]
    rfl
  fresh x hx := by
    rw [exitsOf_snoc, h.fresh x hx]
    rfl
  reaped x hx := by
    have hxc : x ≠ c := by
      rintro rfl
      rcases hx with hx | hx
      · simp [Kernel.present_reaped] at hx
      · have hz := hr.zombie
        have hx' : k.nextProc ≤ x := hx
        simp [Kernel.isZombie, hplaced.fresh x hx'] at hz
    rw [reapsOf_snoc, h.reaped x (hx.imp_left fun hx => ?_)]
    · simp [Act.reapOf, hxc.symm]
    · rw [Kernel.present_reaped, Bool.and_eq_true] at hx
      exact hx.1
  forked x hx hxi := by
    rw [Kernel.present_reaped, Bool.and_eq_true, decide_eq_true_iff] at hx
    obtain ⟨p', hfork, hpar⟩ := h.forked x hx.1 hxi
    rw [Kernel.parentOf_reaped hx.2]
    exact ⟨p', List.mem_append_left _ hfork, hpar.imp_right fun h => ⟨h.1, exitsOf_snoc_ne h.2⟩⟩

theorem action (h : History tr k) (hk : k.TreeOk) (hplaced : k.Placed) {a : Act}
    (ha : Kernel.Action k a k') : History (tr ++ [a]) k' := by
  cases ha with
  | none => exact h.other
  | fetch _ hf =>
      have hs := Kernel.SameTree.setStatus (hplaced.fetched_live hf) (s := .running) (by decide)
      exact h.other.congr ⟨hs.initproc, hs.parentOf, hs.childrenOf, hs.isLive, hs.isZombie,
        hs.pidOf, hs.exitCodeOf, hs.nextProc⟩
  | suspend hcur =>
      have hs := Kernel.SameTree.setStatus (hplaced.current_live hcur) (s := .ready) (by decide)
      exact h.other.congr ⟨hs.initproc, hs.parentOf, hs.childrenOf, hs.isLive, hs.isZombie,
        hs.pidOf, hs.exitCodeOf, hs.nextProc⟩
  | fork hcur => exact h.fork
  | exit exitCode hcur _ _ => exact h.exit hk hplaced (hplaced.current_live hcur) exitCode
  | reap hcur hfind _ => exact h.reap hplaced (hplaced.reaps hcur hfind) _ _

theorem boot (cx : TrapContext) : History [] (Kernel.boot cx) where
  live _ _ := rfl
  zombie c hc := by
    rcases eq_or_ne c 0 with rfl | hne
    · cases hc
    · simp [Kernel.isZombie, Kernel.boot, hne] at hc
  fresh _ _ := rfl
  reaped _ _ := rfl
  forked c hc hci := by
    have hne : c ≠ 0 := hci
    simp [Kernel.present, Kernel.boot, hne] at hc

end History

/-- The three invariants, along every run. -/
theorem Kernel.reachable_tree {cx : TrapContext} {tr : List Act} {k : Kernel}
    (h : Runs KStep (Kernel.boot cx) tr k) : k.Placed ∧ k.TreeOk ∧ History tr k := by
  refine h.trace_invariant (I := fun tr k => k.Placed ∧ k.TreeOk ∧ History tr k)
    ⟨boot_placed cx, boot_treeOk cx, History.boot cx⟩ ?_
  rintro tr k a k' ⟨hp, ht, hh⟩ hs
  obtain ⟨km, hl, ha, -⟩ := hs.cases hp
  have hp' := hp.local hl
  have ht' := ht.local hp hl
  exact ⟨hp'.action ha, ht'.action hp' ha, (hh.congr hl.sameTree).action ht' hp' ha⟩

/-- In every reachable state: every process but `initproc` is listed exactly
once, as a child of the process its parent link names; a zombie has no
children; the pid map holds exactly the live processes, each under its own
pid. The assertions that rest on this never fail. A process that is reaped
was not reaped before, is reaped by the process that forked it or, if that
one has exited, by `initproc`, and with the one exit code it exited with. -/
theorem process_tree_consistent {cx : TrapContext} {tr : List Act} {k : Kernel}
    (h : Runs KStep (Kernel.boot cx) tr k) :
    (∀ c inner, k.procs c = some inner → c ≠ k.initproc →
        ∃ q, inner.parent = some q ∧ (k.childrenOf q).count c = 1
          ∧ ∀ q', q' ≠ q → c ∉ k.childrenOf q')
      ∧ (∀ p, k.isZombie p → k.childrenOf p = [])
      ∧ (∀ pid p, k.pid2process pid = some p ↔ k.isLive p ∧ k.pidOf p = pid)
      ∧ (∀ e halt, k.Enabled e → k.perform e = .error halt →
        halt ≠ .pid2process ∧ halt ≠ .strongCount ∧ halt ≠ .pidDealloc)
      ∧ ∀ q c pid code k', KStep k (.reap q c pid code) k' →
        reapsOf tr c = [] ∧ exitsOf tr c = [code] ∧ pid = k.pidOf c
          ∧ ∃ p, .fork p c ∈ tr ∧ (q = p ∨ (q = k.initproc ∧ exitsOf tr p ≠ [])) := by
  obtain ⟨hplaced, htree, hhist⟩ := Kernel.reachable_tree h
  refine ⟨fun c inner hc hci => ?_, htree.zombie, htree.pid2process_iff,
    fun e halt hen herr => htree.no_panic hplaced hen herr, fun q c pid code k' hs => ?_⟩
  · obtain ⟨q, hpar, hcount⟩ := htree.listed c (by simp [Kernel.present, hc]) hci
    refine ⟨q, by simpa [Kernel.parentOf, hc] using hpar, hcount, fun q' hne hm => ?_⟩
    rw [htree.child q' c hm] at hpar
    exact hne (Option.some.inj hpar)
  · obtain ⟨km, hl, ha, -⟩ := hs.cases hplaced
    have hsame := hl.sameTree
    cases ha with
    | reap hcur hfind _ =>
        have hr := (hplaced.local hl).reaps hcur hfind
        have hpar := (htree.local hplaced hl).child _ _ hr.mem
        rw [hsame.parentOf] at hpar
        have hpres := Kernel.present_of_parent hpar
        have hci : c ≠ k.initproc := by
          rintro rfl
          have hm := hr.mem
          rw [hsame.childrenOf] at hm
          exact htree.initChild _ hm
        obtain ⟨p, hfork, hp⟩ := hhist.forked c hpres hci
        rw [hpar] at hp
        refine ⟨hhist.reaped c (Or.inl hpres), ?_, by rw [hsame.pidOf], p, hfork, ?_⟩
        · rw [hsame.exitCodeOf]
          exact hhist.zombie c (hsame.isZombie c ▸ hr.zombie)
        · exact hp.imp Option.some.inj (And.imp_left Option.some.inj)

/-- `initproc` forks: the child is its child once, and is found by its pid. -/
theorem process_tree_consistent_fork :
    ∃ cx tr k, Runs KStep (Kernel.boot cx) tr k ∧ (k.childrenOf 0).count 1 = 1
      ∧ k.pid2process 1 = some 1 := by
  obtain ⟨k, hk⟩ : ∃ k, (aloneRunning 0).sysFork = .ok (1, k) := ⟨_, rfl⟩
  have hfork : KStep (aloneRunning 0) (.fork 0 1) k := by
    refine ⟨.fork, ⟨0, rfl, rfl⟩, ?_, rfl⟩
    simp only [Kernel.perform, hk]
    rfl
  have hrun := Runs.cons (alone_fetch 0) (Runs.single hfork)
  obtain ⟨hlisted, -, hmap, -⟩ := process_tree_consistent hrun
  obtain ⟨p, inner, hcur, -, rfl⟩ := Kernel.fork_ok rfl hk
  cases hcur
  obtain ⟨q, hq, hcount, -⟩ := hlisted 1 _ rfl (by decide)
  cases hq
  exact ⟨_, _, _, hrun, hcount, (hmap 1 1).mpr ⟨rfl, rfl⟩⟩

end Nimloth
