import Mathlib.Tactic.Common
import Nimloth.Kernel

/-!
# What an event of the kernel can do

Every event first makes changes that no other process can see in the
process tree, the queues or the pid map (`LocalStep`): signals, time
slice counts, descriptors, rings, calls in progress. After that it does
at most one of five things: fetch, suspend, fork, exit or reap. Each of
these is stated once as an equation for the new state, and
`perform_cases` says that there is nothing else. The invariants of the
later files are proved from these equations alone.

Updates of the process table are written pointwise (`mapProcs`), which
turns the loop over the children in `exit_current_and_run_next` into one
expression (`adopt_eq`).
-/

namespace Nimloth

/-- A stretch of a call keeps the ring a queue and never panics. -/
theorem PipeCall.run_spec (strong : Nat → Nat) {rb : PipeRingBuffer}
    {call : PipeCall} {q : List UInt8} {w : Nat} (hq : PipeRingBuffer.Queued rb q)
    (hw : rb.writeEnd = some w) (hcall : call.Wf) :
    (∃ q', PipeRingBuffer.Queued (call.run strong rb).1 q')
      ∧ (call.run strong rb).1.writeEnd = some w ∧ (call.run strong rb).2.1.Wf
      ∧ (call.run strong rb).2.2 ≠ .panicked := by
  cases call with
  | read c =>
      obtain ⟨d, q', -, hm, hout⟩ := readLoop_moves strong hq hw hcall
      refine ⟨⟨q', hm.queued⟩, hm.writeEnd.trans hw, hm.wf, ?_⟩
      rintro hp
      rcases hout with ⟨h1, -⟩ | ⟨n, h1, -⟩ <;> simp [PipeCall.run, h1] at hp
  | write c =>
      obtain ⟨d, hm, hout⟩ := writeLoop_moves hq hcall
      refine ⟨⟨q ++ d, hm.queued⟩, hm.writeEnd.trans hw, hm.wf, ?_⟩
      rintro hp
      rcases hout with h1 | ⟨h1, -⟩ <;> simp [PipeCall.run, h1] at hp

namespace Kernel

/-- The function applied at each name to the control block there. -/
def mapProcs (k : Kernel) (f : Nat → Pcb → Pcb) : Kernel :=
  { k with procs := fun q => (k.procs q).map (f q) }

theorem modifyProc_eq (k : Kernel) (p : Nat) (f : Pcb → Pcb) :
    k.modifyProc p f = k.mapProcs fun q inner => if q = p then f inner else inner := by
  unfold modifyProc mapProcs
  congr 1
  funext q
  by_cases h : q = p
  · subst h
    simp
  · rw [Function.update_of_ne h]
    simp [h]

theorem mapProcs_mapProcs (k : Kernel) (f g : Nat → Pcb → Pcb) :
    (k.mapProcs f).mapProcs g = k.mapProcs fun q inner => g q (f q inner) := by
  unfold mapProcs
  simp [Option.map_map, Function.comp_def]

/-- A field that the update keeps is the same at every name. -/
theorem mapProcs_field (k : Kernel) {α : Type*} (f : Nat → Pcb → Pcb) (g : Pcb → α) (q : Nat)
    (h : ∀ inner, g (f q inner) = g inner) :
    ((k.mapProcs f).procs q).map g = (k.procs q).map g := by
  show ((k.procs q).map (f q)).map g = _
  rw [Option.map_map]
  exact congrArg (Option.map · (k.procs q)) (funext h)

/-- What the children loop of `exit_current_and_run_next` does at `q`. -/
def adopted (initproc : Nat) (children : List Nat) (q : Nat) (inner : Pcb) : Pcb :=
  { inner with
    parent := if q ∈ children then some initproc else inner.parent
    children := if q = initproc then inner.children ++ children else inner.children }

theorem mapProcs_id (k : Kernel) (f : Nat → Pcb → Pcb) (h : ∀ q inner, f q inner = inner) :
    k.mapProcs f = k := by
  have hf : f = fun _ inner => inner := by
    funext q inner
    exact h q inner
  subst hf
  unfold mapProcs
  simp

theorem adopt_eq (k : Kernel) (children : List Nat) :
    k.adopt children = k.mapProcs (adopted k.initproc children) := by
  induction children generalizing k with
  | nil =>
      rw [mapProcs_id]
      · rfl
      · intro q inner
        simp [adopted]
  | cons child rest ih =>
      have hstep : k.adopt (child :: rest) =
          ((k.modifyProc child fun inner => { inner with parent := some k.initproc }).modifyProc
            k.initproc fun inner => { inner with children := inner.children ++ [child] }).adopt
              rest := rfl
      rw [hstep, ih, modifyProc_eq, modifyProc_eq, mapProcs_mapProcs, mapProcs_mapProcs]
      congr 1
      funext q inner
      simp only [adopted, mapProcs, List.mem_cons]
      rcases eq_or_ne q child with rfl | hc
      · by_cases hi : q = k.initproc <;> simp [hi]
      · simp only [hc, if_false, false_or]
        by_cases hi : q = k.initproc <;> simp [hi]

/-! ## The five actions -/

/-- `run_process` with `p` at the front of the queues. -/
def fetched (k : Kernel) (p : Nat) (qs : List (List Nat)) : Kernel :=
  { k.mapProcs fun q inner => if q = p then { inner with processStatus := .running } else inner with
    readyQueues := qs
    current := some p
    executing := some p }

/-- `suspend_current_and_run_next` of `p`. -/
def suspended (k : Kernel) (p : Nat) : Kernel :=
  { k.mapProcs fun q inner => if q = p then { inner with processStatus := .ready } else inner with
    readyQueues := addQueues k.readyQueues p 0
    current := none
    pid2pcb := insertPid k.pid2pcb (k.pidOf p) p
    executing := none }

/-- What `exit_current_and_run_next` of `p` does at `q`. -/
def exitedPcb (initproc p : Nat) (exitCode : Int) (children : List Nat) (q : Nat) (inner : Pcb) :
    Pcb :=
  { inner with
    processStatus := if q = p then .zombie else inner.processStatus
    exitCode := if q = p then exitCode else inner.exitCode
    parent := if q ∈ children then some initproc else inner.parent
    children :=
      if q = p then [] else if q = initproc then inner.children ++ children else inner.children }

def exited (k : Kernel) (p : Nat) (exitCode : Int) : Kernel :=
  { k.mapProcs (exitedPcb k.initproc p exitCode (k.childrenOf p)) with
    current := none
    pid2pcb := k.pid2pcb.filter (·.1 ≠ k.pidOf p)
    executing := none }

/-- `sys_fork` by `p`, whose control block is `inner`. -/
def forkedBy (k : Kernel) (p : Nat) (inner : Pcb) : Kernel :=
  { k with
    procs := fun q =>
      if q = k.nextProc then some (inner.forked p k.pids.alloc.1)
      else (k.procs q).map fun inner =>
        if q = p then { inner with children := inner.children ++ [k.nextProc] } else inner
    nextProc := k.nextProc + 1
    readyQueues := addQueues k.readyQueues k.nextProc 0
    pid2pcb := insertPid k.pid2pcb k.pids.alloc.1 k.nextProc
    pids := k.pids.alloc.2 }

/-- The removal of the child `c` from the list of `p` in `sys_waitpid`. -/
def detached (k : Kernel) (p : Nat) (pid : Int) : Kernel :=
  k.mapProcs fun q inner =>
    if q = p then { inner with children := inner.children.eraseP (k.reapable pid) } else inner

/-- The rest of `sys_waitpid`: the last reference to the child `c` is gone. -/
def reaped (k : Kernel) (p : Nat) (pid : Int) (c : Nat) (pids : PidAllocator) : Kernel :=
  { k.detached p pid with
    pids := pids
    procs := Function.update (k.detached p pid).procs c none }

theorem currentInner_eq_some {k : Kernel} {p : Nat} {inner : Pcb} :
    k.currentInner = some (p, inner) ↔ k.current = some p ∧ k.procs p = some inner := by
  unfold currentInner
  cases hcur : k.current with
  | none => simp
  | some q =>
      cases hq : k.procs q with
      | none =>
          simp only [Option.bind_some, hq, Option.map_none, Option.some.injEq]
          constructor
          · intro h
            cases h
          · rintro ⟨rfl, h⟩
            rw [hq] at h
            cases h
      | some inner' =>
          simp only [Option.bind_some, hq, Option.map_some, Option.some.injEq, Prod.mk.injEq]
          constructor
          · rintro ⟨rfl, rfl⟩
            exact ⟨rfl, hq⟩
          · rintro ⟨rfl, h⟩
            rw [hq, Option.some.injEq] at h
            exact ⟨rfl, h⟩

theorem pidOf_mapProcs (k : Kernel) {f : Nat → Pcb → Pcb} {p : Nat}
    (h : ∀ inner, (f p inner).pid = inner.pid) : (k.mapProcs f).pidOf p = k.pidOf p :=
  congrArg (Option.getD · 0) (k.mapProcs_field f Pcb.pid p h)

theorem childrenOf_mapProcs (k : Kernel) {f : Nat → Pcb → Pcb} {p : Nat}
    (h : ∀ inner, (f p inner).children = inner.children) :
    (k.mapProcs f).childrenOf p = k.childrenOf p :=
  congrArg (Option.getD · []) (k.mapProcs_field f Pcb.children p h)

theorem suspend_eq {k : Kernel} {p : Nat} (h : k.current = some p) :
    k.suspendCurrentAndRunNext = .ok (k.suspended p) := by
  unfold suspendCurrentAndRunNext takeCurrentProcess
  rw [h]
  simp only [modifyProc_eq, addProcess, addProcessWithPriority, schedule]
  rw [pidOf_mapProcs _ (by simp)]
  rfl

theorem suspend_ok {k k' : Kernel} {p : Nat} (h : k.suspendCurrentAndRunNext = .ok k')
    (hp : k.current = some p) : k' = k.suspended p := by
  rw [suspend_eq hp] at h
  cases h
  rfl

theorem suspend_none {k : Kernel} (h : k.current = none) :
    k.suspendCurrentAndRunNext = .error .takeCurrent := by
  unfold suspendCurrentAndRunNext takeCurrentProcess
  rw [h]

theorem exit_ok {k k' : Kernel} {exitCode : Int} {p : Nat} (hp : k.current = some p)
    (h : k.exitCurrentAndRunNext exitCode = .ok k') :
    k.pidOf p ≠ IDLE_PID ∧ k' = k.exited p exitCode := by
  unfold exitCurrentAndRunNext takeCurrentProcess removeFromPid2process at h
  rw [hp] at h
  dsimp only at h
  split at h
  · cases h
  · next hpid =>
      refine ⟨hpid, ?_⟩
      split at h
      · cases h
      · next k₁ hk₁ =>
          split at hk₁
          · cases hk₁
            simp only [modifyProc_eq, adopt_eq, mapProcs_mapProcs, schedule] at h
            rw [childrenOf_mapProcs _ (by simp)] at h
            cases h
            unfold exited mapProcs
            congr 1
            funext q
            refine congrArg (Option.map · (k.procs q)) ?_
            funext inner
            unfold exitedPcb adopted
            rcases eq_or_ne q p with rfl | hq
            · simp
              rfl
            · simp only [hq, if_false]
              rfl
          · cases hk₁

theorem runProcess_cases (k : Kernel) :
    (fetchQueues k.readyQueues = none ∧ k.runProcess = k)
      ∨ ∃ p qs, fetchQueues k.readyQueues = some (p, qs) ∧ k.runProcess = k.fetched p qs := by
  unfold runProcess
  match hf : fetchQueues k.readyQueues with
  | none => exact .inl ⟨rfl, rfl⟩
  | some (p, qs) =>
      refine .inr ⟨p, qs, rfl, ?_⟩
      simp only [modifyProc_eq]
      rfl

theorem fork_ok {k k' : Kernel} {r : Int} (hfresh : k.procs k.nextProc = none)
    (h : k.sysFork = .ok (r, k')) :
    ∃ p inner, k.currentInner = some (p, inner) ∧ r = k.pids.alloc.1
      ∧ k' = k.forkedBy p inner := by
  unfold sysFork at h
  split at h
  · cases h
  · next p inner hcur =>
      have hne : p ≠ k.nextProc := by
        rintro rfl
        rw [(currentInner_eq_some.mp hcur).2] at hfresh
        cases hfresh
      refine ⟨p, inner, hcur, ?_⟩
      simp only [modifyProc_eq, addProcess, addProcessWithPriority] at h
      rw [pidOf_mapProcs _ (by simp [hne.symm])] at h
      have hpid : ({ k with
          pids := k.pids.alloc.2
          nextProc := k.nextProc + 1
          procs := Function.update k.procs k.nextProc (some (inner.forked p k.pids.alloc.1)) } :
          Kernel).pidOf k.nextProc = k.pids.alloc.1 := by
        simp [pidOf, Pcb.forked]
      rw [hpid] at h
      cases h
      refine ⟨rfl, ?_⟩
      unfold forkedBy mapProcs
      congr 1
      funext q
      rcases eq_or_ne q k.nextProc with rfl | hq
      · simp [hne.symm]
      · simp [hq]

theorem exitCodeOf_mapProcs (k : Kernel) {f : Nat → Pcb → Pcb} {p : Nat}
    (h : ∀ inner, (f p inner).exitCode = inner.exitCode) :
    (k.mapProcs f).exitCodeOf p = k.exitCodeOf p :=
  congrArg (Option.getD · 0) (k.mapProcs_field f Pcb.exitCode p h)

/-- `sys_waitpid` once it has found the child `c`. -/
theorem waitpid_found {k : Kernel} {pid : Int} {p c : Nat} {inner : Pcb}
    (hcur : k.currentInner = some (p, inner))
    (hfind : inner.children.find? (k.reapable pid) = some c) :
    k.sysWaitpid pid =
      if (k.detached p pid).strongCount c = 0 then
        match k.pids.dealloc (k.pidOf c) with
        | none => .error .pidDealloc
        | some pids => .ok (k.pidOf c, some (k.exitCodeOf c), k.reaped p pid c pids)
      else .error .strongCount := by
  have hany : inner.children.any (k.wanted pid) = true := by
    have hr := List.find?_some hfind
    simp only [reapable, Bool.and_eq_true] at hr
    exact List.any_eq_true.mpr ⟨c, List.mem_of_find?_eq_some hfind, hr.2⟩
  have hdet : (k.modifyProc p fun inner =>
      { inner with children := inner.children.eraseP (k.reapable pid) }) = k.detached p pid :=
    modifyProc_eq ..
  have hpid : (k.detached p pid).pidOf c = k.pidOf c :=
    pidOf_mapProcs _ fun inner => by split <;> rfl
  have hcode : (k.detached p pid).exitCodeOf c = k.exitCodeOf c :=
    exitCodeOf_mapProcs _ fun inner => by split <;> rfl
  unfold sysWaitpid
  simp only [hcur, hany, Bool.not_true, Bool.false_eq_true, if_false, hfind, hdet, hpid, hcode]
  by_cases hs : (k.detached p pid).strongCount c = 0
  · simp only [hs, if_true, Nat.zero_add, ne_eq, not_true_eq_false, if_false]
    rfl
  · have hs' : (k.detached p pid).strongCount c + 1 ≠ 1 := by omega
    simp only [hs, if_false, hs', ne_eq, not_false_eq_true, if_true]

theorem waitpid_ok {k k' : Kernel} {pid r : Int} {code : Option Int}
    (h : k.sysWaitpid pid = .ok (r, code, k')) :
    (code = none ∧ k' = k)
      ∨ ∃ p inner c pids, k.currentInner = some (p, inner)
        ∧ inner.children.find? (k.reapable pid) = some c
        ∧ k.pids.dealloc (k.pidOf c) = some pids
        ∧ r = k.pidOf c ∧ code = some (k.exitCodeOf c) ∧ k' = k.reaped p pid c pids := by
  cases hcur : k.currentInner with
  | none =>
      unfold sysWaitpid at h
      rw [hcur] at h
      cases h
  | some pi =>
      obtain ⟨p, inner⟩ := pi
      cases hfind : inner.children.find? (k.reapable pid) with
      | none =>
          unfold sysWaitpid at h
          simp only [hcur, hfind] at h
          split at h <;> cases h <;> exact .inl ⟨rfl, rfl⟩
      | some c =>
          rw [waitpid_found hcur hfind] at h
          split at h
          · split at h
            · cases h
            · next pids hpids =>
                cases h
                exact .inr ⟨p, inner, c, pids, rfl, hfind, hpids, rfl, rfl, rfl⟩
          · cases h

end Kernel

/-! ## Steps -/

/-- What is observed of a step. -/
inductive Act where
  | fork (parent child : Nat)
  | exit (p : Nat) (exitCode : Int)
  | reap (parent child : Nat) (pid exitCode : Int)
  | other
  deriving DecidableEq

/-- The panics that are about the calling process or its pipe alone. -/
def Halt.Local : Halt → Prop
  | .current | .trapCtxBackup | .writeEnd => True
  | _ => False

/-- The control block without the fields that are local to the process. -/
def Pcb.core (inner : Pcb) : Nat × ProcessStatus × Option Nat × List Nat × Int :=
  (inner.pid, inner.processStatus, inner.parent, inner.children, inner.exitCode)

namespace Kernel

/-- The exit code of the fatal signal that the end of a trap finds, if it does
not suspend. -/
def fatalSignal (sig : SignalState) : Option Int :=
  let sig := checkPendingSignals sig
  if sig.frozen && !sig.killed then none else sig.signals.checkError.map Prod.fst

/-- The observation an event makes. What `sys_waitpid` reports is taken from
its own results. -/
def act (k : Kernel) : KEvent → Act
  | .fork => (k.current.map fun p => .fork p k.nextProc).getD .other
  | .exit exitCode => (k.current.map fun p => .exit p exitCode).getD .other
  | .handleSignals =>
      (k.currentInner.bind fun (p, inner) => (fatalSignal inner.sig).map (.exit p)).getD .other
  | .waitpid pid =>
      match k.sysWaitpid pid with
      | .ok (r, some code, _) =>
          (k.currentInner.bind fun (p, inner) =>
            (inner.children.find? (k.reapable pid)).map fun c => .reap p c r code).getD .other
      | _ => .other
  | _ => .other

end Kernel

/-- A step of the machine that does not stop it. -/
def KStep (k : Kernel) (a : Act) (k' : Kernel) : Prop :=
  ∃ e, k.Enabled e ∧ k.perform e = .ok k' ∧ a = k.act e

namespace Kernel

/-- The rings are queues, each with its write end registered, and the calls in
progress are consistent. -/
structure RingsOk (k : Kernel) : Prop where
  files : ∀ f, k.nextFile ≤ f → k.files f = none
  buffer : ∀ f readable writable b, k.files f = some (.pipe readable writable b) → b < k.nextRing
  ring : ∀ b, b < k.nextRing → ∃ q w, PipeRingBuffer.Queued (k.rings b) q
    ∧ (k.rings b).writeEnd = some w
  writeEnd : ∀ f b, k.files f = some (.pipe false true b) → (k.rings b).writeEnd = some f
  calls : ∀ p f call, k.calls p = some (f, call) → call.Wf

/-- Changes that leave the tree, the queues, the current process and the pid
map alone. Descriptors and calls change only for the current process, and a
call it is left in is on a file it has a descriptor for. -/
structure LocalStep (k km : Kernel) : Prop where
  nextProc : km.nextProc = k.nextProc
  initproc : km.initproc = k.initproc
  readyQueues : km.readyQueues = k.readyQueues
  current : km.current = k.current
  pid2pcb : km.pid2pcb = k.pid2pcb
  pids : km.pids = k.pids
  executing : km.executing = k.executing
  core : ∀ q, (km.procs q).map Pcb.core = (k.procs q).map Pcb.core
  fdTable : ∀ q, k.current ≠ some q → km.fdTableOf q = k.fdTableOf q
  calls : ∀ q, k.current ≠ some q → km.calls q = k.calls q
  call : ∀ q f call, k.current = some q → km.calls q = some (f, call) →
    km.fdTableOf q = k.fdTableOf q
      ∧ (some f ∈ k.fdTableOf q ∨ ∃ call', k.calls q = some (f, call'))
  rings : k.RingsOk → km.RingsOk

theorem fdTableOf_mapProcs (k : Kernel) {f : Nat → Pcb → Pcb} {p : Nat}
    (h : ∀ inner, (f p inner).fdTable = inner.fdTable) :
    (k.mapProcs f).fdTableOf p = k.fdTableOf p :=
  congrArg (Option.getD · []) (k.mapProcs_field f Pcb.fdTable p h)

theorem LocalStep.refl (k : Kernel) : LocalStep k k where
  nextProc := rfl
  initproc := rfl
  readyQueues := rfl
  current := rfl
  pid2pcb := rfl
  pids := rfl
  executing := rfl
  core _ := rfl
  fdTable _ _ := rfl
  calls _ _ := rfl
  call _ _ call _ h := ⟨rfl, .inr ⟨call, h⟩⟩
  rings h := h

/-- An update of signal fields or of the time slice. -/
theorem LocalStep.modifyProc (k : Kernel) (p : Nat) {f : Pcb → Pcb}
    (hcore : ∀ inner, (f inner).core = inner.core)
    (hfd : ∀ inner, (f inner).fdTable = inner.fdTable) : LocalStep k (k.modifyProc p f) := by
  rw [modifyProc_eq]
  have htable : ∀ q, (k.mapProcs fun q inner => if q = p then f inner else inner).fdTableOf q
      = k.fdTableOf q := by
    intro q
    refine fdTableOf_mapProcs _ fun inner => ?_
    split
    · exact hfd inner
    · rfl
  refine ⟨rfl, rfl, rfl, rfl, rfl, rfl, rfl, fun q => ?_, fun q _ => htable q, fun _ _ => rfl,
    fun q _ call _ h => ⟨htable q, .inr ⟨call, h⟩⟩,
    fun h => ⟨h.files, h.buffer, h.ring, h.writeEnd, h.calls⟩⟩
  refine mapProcs_field _ _ _ _ fun inner => ?_
  split
  · exact hcore inner
  · rfl

/-- An update of the descriptor table of the current process, outside of
calls, next to new files and rings. -/
theorem LocalStep.modifyFds {k : Kernel} {p : Nat} (hp : k.current = some p)
    (hcall : k.calls p = none) (files : Nat → Option FileObj) (nextFile : Nat)
    (rings : Nat → PipeRingBuffer) (nextRing : Nat)
    (hrings : k.RingsOk → ({ k with
      files := files, nextFile := nextFile, rings := rings, nextRing := nextRing } :
        Kernel).RingsOk) {f : Pcb → Pcb} (hcore : ∀ inner, (f inner).core = inner.core) :
    LocalStep k (({ k with
      files := files, nextFile := nextFile, rings := rings, nextRing := nextRing } :
        Kernel).modifyProc p f) := by
  rw [modifyProc_eq]
  refine ⟨rfl, rfl, rfl, rfl, rfl, rfl, rfl, fun q => ?_, fun q hq => ?_, fun _ _ => rfl,
    fun q _ call hq h => ?_, fun h => ?_⟩
  · refine mapProcs_field _ _ _ _ fun inner => ?_
    split
    · exact hcore inner
    · rfl
  · have hne : q ≠ p := by
      rintro rfl
      exact hq hp
    exact fdTableOf_mapProcs _ fun inner => by simp [hne]
  · obtain rfl : p = q := by simpa [hp] using hq
    have : k.calls p = some (_, call) := h
    rw [hcall] at this
    cases this
  · obtain ⟨h1, h2, h3, h4, h5⟩ := hrings h
    exact ⟨h1, h2, h3, h4, h5⟩

/-- The new pipe of `sys_pipe` has an empty ring whose write end is
registered. -/
theorem RingsOk.makePipe {k : Kernel} (h : k.RingsOk) :
    ({ k with
      files := Function.update (Function.update k.files k.nextFile
        (some (.pipe true false k.nextRing))) (k.nextFile + 1) (some (.pipe false true k.nextRing))
      nextFile := k.nextFile + 2
      rings := Function.update k.rings k.nextRing
        (PipeRingBuffer.new.setWriteEnd (k.nextFile + 1))
      nextRing := k.nextRing + 1 } : Kernel).RingsOk where
  files f hf := by
    have h1 : f ≠ k.nextFile + 1 := by simp only at hf; omega
    have h2 : f ≠ k.nextFile := by simp only at hf; omega
    have h3 : k.nextFile ≤ f := by simp only at hf; omega
    simp [h1, h2, h.files f h3]
  buffer f readable writable b hf := by
    simp only [Function.update_apply] at hf
    split at hf
    · cases hf
      exact Nat.lt_succ_self _
    · split at hf
      · cases hf
        exact Nat.lt_succ_self _
      · exact Nat.lt_succ_of_lt (h.buffer _ _ _ _ hf)
  ring b hb := by
    rcases Nat.lt_succ_iff_lt_or_eq.mp hb with hlt | rfl
    · obtain ⟨q, w, hq, hw⟩ := h.ring b hlt
      refine ⟨q, w, ?_⟩
      simp only [Function.update_apply, Nat.ne_of_lt hlt, if_false]
      exact ⟨hq, hw⟩
    · exact ⟨[], k.nextFile + 1, by
        simpa using PipeRingBuffer.new_queued.setWriteEnd (k.nextFile + 1), by
        simp [PipeRingBuffer.setWriteEnd]⟩
  writeEnd f b hf := by
    simp only [Function.update_apply] at hf ⊢
    split at hf
    · next hfe =>
        cases hf
        simp [PipeRingBuffer.setWriteEnd, hfe]
    · split at hf
      · cases hf
      · rw [if_neg (Nat.ne_of_lt (h.buffer _ _ _ _ hf))]
        exact h.writeEnd f b hf
  calls := h.calls

/-- A stretch of a call of the current process that does not panic: the ring
changes, the call ends or goes on, and in the second case the process
suspends. -/
theorem runCall_ok {k k' : Kernel} {p file buffer : Nat} {call : PipeCall} {r w : Bool}
    (hp : k.current = some p) (hfile : k.files file = some (.pipe r w buffer))
    (hheld : some file ∈ k.fdTableOf p ∨ ∃ call', k.calls p = some (file, call'))
    (hwf : k.RingsOk → call.Wf) (h : k.runCall p file buffer call = .ok k') :
    ∃ km, LocalStep k km ∧ (k' = km ∨ k' = km.suspended p) := by
  have hlocal : ∀ c, (∀ f call', c = some (f, call') →
        f = file ∧ call' = (call.run k.fileStrong (k.rings buffer)).2.1) →
      LocalStep k { k with
        rings := Function.update k.rings buffer (call.run k.fileStrong (k.rings buffer)).1
        calls := Function.update k.calls p c } := by
    intro c hc
    refine ⟨rfl, rfl, rfl, rfl, rfl, rfl, rfl, fun _ => rfl, fun _ _ => rfl, fun q hq => ?_,
      fun q f call' hq hcall => ?_, fun hk => ⟨hk.files, hk.buffer, fun b hb => ?_,
        fun f b hf => ?_, fun q f call' hcall => ?_⟩⟩
    · exact Function.update_of_ne (by rintro rfl; exact hq hp) ..
    · obtain rfl : p = q := by simpa [hp] using hq
      obtain ⟨rfl, -⟩ := hc f call' (by simpa using hcall)
      exact ⟨rfl, hheld⟩
    · obtain ⟨qs, w', hqs, hw'⟩ := hk.ring b hb
      rcases eq_or_ne b buffer with rfl | hne
      · obtain ⟨⟨qs', h1⟩, h2, -⟩ := PipeCall.run_spec k.fileStrong hqs hw' (hwf hk)
        exact ⟨qs', w', by simpa using h1, by simpa using h2⟩
      · exact ⟨qs, w', by simpa [hne] using hqs, by simpa [hne] using hw'⟩
    · obtain ⟨qs, w', hqs, hw'⟩ := hk.ring b (hk.buffer _ _ _ _ hf)
      have hwe := hk.writeEnd f b hf
      rcases eq_or_ne b buffer with rfl | hne
      · simpa [hwe] using (PipeCall.run_spec k.fileStrong hqs hwe (hwf hk)).2.1
      · simpa [hne] using hwe
    · rcases eq_or_ne q p with rfl | hne
      · obtain ⟨-, rfl⟩ := hc f call' (by simpa using hcall)
        obtain ⟨qs, w', hqs, hw'⟩ := hk.ring buffer (hk.buffer _ _ _ _ hfile)
        exact (PipeCall.run_spec k.fileStrong hqs hw' (hwf hk)).2.2.1
      · exact hk.calls q f call' (by simpa [hne] using hcall)
  unfold runCall at h
  dsimp only at h
  split at h
  · cases h
  · cases h
    exact ⟨_, hlocal none (by simp), .inl rfl⟩
  · refine ⟨_, hlocal (some (file, (call.run k.fileStrong (k.rings buffer)).2.1)) ?_, .inr ?_⟩
    · intro f call' heq
      cases heq
      exact ⟨rfl, rfl⟩
    · exact suspend_ok h hp

/-- The action an event takes after its local changes. -/
inductive Action (k : Kernel) : Act → Kernel → Prop
  | none : Action k .other k
  | fetch {p : Nat} {qs : List (List Nat)} (hidle : k.executing = none)
      (h : fetchQueues k.readyQueues = some (p, qs)) :
      Action k .other (k.fetched p qs)
  | suspend {p : Nat} (h : k.current = some p) : Action k .other (k.suspended p)
  | fork {p : Nat} {inner : Pcb} (h : k.currentInner = some (p, inner)) :
      Action k (.fork p k.nextProc) (k.forkedBy p inner)
  | exit {p : Nat} (exitCode : Int) (h : k.current = some p) (hcall : k.calls p = none)
      (hpid : k.pidOf p ≠ IDLE_PID) : Action k (.exit p exitCode) (k.exited p exitCode)
  | reap {p c : Nat} {inner : Pcb} {pid : Int} {pids : PidAllocator}
      (h : k.currentInner = some (p, inner))
      (hfind : inner.children.find? (k.reapable pid) = some c)
      (hpids : k.pids.dealloc (k.pidOf c) = some pids) :
      Action k (.reap p c (k.pidOf c) (k.exitCodeOf c)) (k.reaped p pid c pids)

/-- `perform` of an event that is only an update of signal fields. -/
theorem modifySignals_ok {k k' : Kernel} {f : SignalState → SignalState}
    (h : k.modifySignals f = .ok k') : LocalStep k k' := by
  unfold modifySignals at h
  split at h
  · cases h
  · cases h
    exact LocalStep.modifyProc k _ (fun _ => rfl) fun _ => rfl

theorem kill_local (k : Kernel) (pid : Nat) (signum : Int) :
    LocalStep k (k.sysKill pid signum).2 := by
  unfold sysKill
  split
  · exact LocalStep.refl k
  · exact LocalStep.modifyProc k _ (fun _ => rfl) fun _ => rfl

/-- With the slice used up the demotion takes the current process, and the
`unwrap` that follows finds none. -/
theorem timer_eq {k : Kernel} {p : Nat} {inner : Pcb} (hcur : k.currentInner = some (p, inner)) :
    k.timerInterrupt =
      if inner.timeSliceUsed + 1 ≥ inner.timeSliceLimit then .error .takeCurrent
      else .ok ((k.modifyProc p fun i =>
        { i with timeSliceUsed := inner.timeSliceUsed + 1 }).suspended p) := by
  have hp := (currentInner_eq_some.mp hcur).1
  have htake : ∀ f, (k.modifyProc p f).takeCurrentProcess
      = (some p, { k.modifyProc p f with current := none }) := by
    intro f
    unfold takeCurrentProcess
    rw [show (k.modifyProc p f).current = k.current from rfl, hp]
  unfold timerInterrupt
  rw [hcur]
  dsimp only
  split
  · rw [htake]
    exact suspend_none rfl
  · exact suspend_eq hp

theorem timer_ok {k k' : Kernel} (h : k.timerInterrupt = .ok k') :
    ∃ p km, k.current = some p ∧ LocalStep k km ∧ k' = km.suspended p := by
  cases hcur : k.currentInner with
  | none =>
      unfold timerInterrupt at h
      rw [hcur] at h
      cases hc : k.current with
      | none =>
          rw [suspend_none hc] at h
          cases h
      | some p => exact ⟨p, k, rfl, LocalStep.refl k, suspend_ok h hc⟩
  | some pi =>
      obtain ⟨p, inner⟩ := pi
      rw [timer_eq hcur] at h
      split at h
      · cases h
      · cases h
        refine ⟨p, _, (currentInner_eq_some.mp hcur).1, ?_, rfl⟩
        exact LocalStep.modifyProc k p (fun _ => rfl) fun _ => rfl

/-- The end of a trap: a suspension of a frozen process, the exit of one with
a fatal signal, or neither. -/
theorem handleSignals_ok {k k' : Kernel} (h : k.handleSignals = .ok k') :
    ∃ p inner km, k.currentInner = some (p, inner) ∧ LocalStep k km ∧ km.calls = k.calls
      ∧ (∀ q, km.fdTableOf q = k.fdTableOf q)
      ∧ ((fatalSignal inner.sig = none ∧ (k' = km ∨ k' = km.suspended p))
        ∨ ∃ errno, fatalSignal inner.sig = some errno ∧ km.exitCurrentAndRunNext errno = .ok k') := by
  unfold handleSignals at h
  split at h
  · cases h
  · next p inner hcur =>
      have hp := (currentInner_eq_some.mp hcur).1
      dsimp only at h
      refine ⟨p, inner, k.modifyProc p fun inner' =>
        { inner' with sig := checkPendingSignals inner.sig }, hcur, ?_, rfl, ?_, ?_⟩
      · exact LocalStep.modifyProc k p (fun _ => rfl) fun _ => rfl
      · intro q
        rw [modifyProc_eq]
        refine fdTableOf_mapProcs _ fun inner => ?_
        split <;> rfl
      · split at h
        · next hfrozen =>
            refine .inl ⟨?_, .inr (suspend_ok h hp)⟩
            simp only [fatalSignal, hfrozen, if_true]
        · next hfrozen =>
            simp only [Bool.not_eq_true] at hfrozen
            split at h
            · next errno msg herr =>
                refine .inr ⟨errno, ?_, h⟩
                simp [fatalSignal, hfrozen, herr]
            · next herr =>
                cases h
                refine .inl ⟨?_, .inl rfl⟩
                simp [fatalSignal, hfrozen, herr]

theorem io_ok {k k' : Kernel} {fd : Nat} {write : Bool} (call : PipeCall) (hwf : call.Wf)
    (h : k.sysIo fd write call = .ok k') :
    ∃ p km, k.current = some p ∧ LocalStep k km ∧ (k' = km ∨ k' = km.suspended p) := by
  unfold sysIo at h
  split at h
  · cases h
  · next p inner hcur =>
      obtain ⟨hp, hinner⟩ := currentInner_eq_some.mp hcur
      refine ⟨p, ?_⟩
      split at h
      · cases h
        exact ⟨k, hp, LocalStep.refl k, .inl rfl⟩
      · next file hfd =>
          split at h
          · next readable writable buffer hfile =>
              split at h
              · have hmem : some file ∈ k.fdTableOf p := by
                  have : inner.fdTable[fd]? = some (some file) := by
                    simpa [Option.join_eq_some_iff] using hfd
                  simpa [fdTableOf, hinner] using List.mem_of_getElem? this
                obtain ⟨km, hkm⟩ := runCall_ok hp hfile (.inl hmem) (fun _ => hwf) h
                exact ⟨km, hp, hkm⟩
              · cases h
                exact ⟨k, hp, LocalStep.refl k, .inl rfl⟩
          · cases h
            exact ⟨k, hp, LocalStep.refl k, .inl rfl⟩

theorem resume_ok {k k' : Kernel} (h : k.resumeCall = .ok k') :
    ∃ p km, k.current = some p ∧ LocalStep k km ∧ (k' = km ∨ k' = km.suspended p) := by
  unfold resumeCall at h
  split at h
  · cases h
  · next p hp =>
      refine ⟨p, ?_⟩
      split at h
      · cases h
        exact ⟨k, hp, LocalStep.refl k, .inl rfl⟩
      · next file call hcall =>
          split at h
          · next readable writable buffer hfile =>
              obtain ⟨km, hkm⟩ := runCall_ok hp hfile (.inr ⟨call, hcall⟩)
                (fun hk => hk.calls p file call hcall) h
              exact ⟨km, hp, hkm⟩
          · cases h
            exact ⟨k, hp, LocalStep.refl k, .inl rfl⟩

theorem pipe_ok {k k' : Kernel} {r : Int} (hcall : ∀ p, k.current = some p → k.calls p = none)
    (h : k.sysPipe = .ok (r, k')) : LocalStep k k' := by
  unfold sysPipe at h
  split at h
  · cases h
  · next p inner hcur =>
      have hp := (currentInner_eq_some.mp hcur).1
      cases h
      exact LocalStep.modifyFds hp (hcall p hp) _ _ _ _ RingsOk.makePipe fun _ => rfl

theorem close_ok {k k' : Kernel} {fd : Nat} {r : Int}
    (hcall : ∀ p, k.current = some p → k.calls p = none) (h : k.sysClose fd = .ok (r, k')) :
    LocalStep k k' := by
  unfold sysClose at h
  split at h
  · cases h
  · next p inner hcur =>
      have hp := (currentInner_eq_some.mp hcur).1
      split at h
      · cases h
        exact LocalStep.refl k
      · cases h
        exact LocalStep.modifyFds hp (hcall p hp) _ _ _ _ (fun h => h) fun _ => rfl

theorem dup_ok {k k' : Kernel} {fd : Nat} {r : Int}
    (hcall : ∀ p, k.current = some p → k.calls p = none) (h : k.sysDup fd = .ok (r, k')) :
    LocalStep k k' := by
  unfold sysDup at h
  split at h
  · cases h
  · next p inner hcur =>
      have hp := (currentInner_eq_some.mp hcur).1
      split at h
      · cases h
        exact LocalStep.refl k
      · cases h
        exact LocalStep.modifyFds hp (hcall p hp) _ _ _ _ (fun h => h) fun _ => rfl

theorem map_ok {α : Type*} {x : Except Halt α} {f : α → Kernel} {k' : Kernel}
    (h : x.map f = .ok k') : ∃ a, x = .ok a ∧ f a = k' := by
  cases x with
  | error e => cases h
  | ok a =>
      cases h
      exact ⟨a, rfl, rfl⟩

/-- Everything an enabled event can do to a machine whose current process is
the one that executes. What precedes an exit does not touch descriptors. -/
theorem perform_cases {k k' : Kernel} {e : KEvent} (hfresh : k.procs k.nextProc = none)
    (hexec : k.executing = k.current) (hen : k.Enabled e) (h : k.perform e = .ok k') :
    ∃ km, LocalStep k km ∧ Action km (k.act e) k'
      ∧ ∀ p exitCode, k.act e = .exit p exitCode → km.fdTableOf p = k.fdTableOf p := by
  have hidle : ∀ p, k.current = some p → (∃ p, k.executing = some p ∧ k.calls p = none) →
      k.calls p = none := by
    rintro p hp ⟨p', hp', hcall⟩
    rw [hexec, hp] at hp'
    cases hp'
    exact hcall
  have hstop : ∀ {p km}, k.current = some p → LocalStep k km →
      k' = km ∨ k' = km.suspended p → ∃ km, LocalStep k km ∧ Action km .other k'
        ∧ ∀ p exitCode, Act.other = .exit p exitCode → km.fdTableOf p = k.fdTableOf p := by
    rintro p km hp hl (rfl | rfl)
    · exact ⟨_, hl, .none, fun _ _ h => by cases h⟩
    · exact ⟨km, hl, .suspend (hl.current.trans hp), fun _ _ h => by cases h⟩
  have hlocal : LocalStep k k' → ∃ km, LocalStep k km ∧ Action km .other k'
      ∧ ∀ p exitCode, Act.other = .exit p exitCode → km.fdTableOf p = k.fdTableOf p :=
    fun hl => ⟨k', hl, .none, fun _ _ h => by cases h⟩
  cases e with
  | fetch =>
      cases h
      rcases runProcess_cases k with ⟨-, hk⟩ | ⟨p, qs, hf, hk⟩
      · rw [hk]
        exact ⟨k, LocalStep.refl k, .none, fun _ _ _ => rfl⟩
      · rw [hk]
        exact ⟨k, LocalStep.refl k, .fetch hen hf, fun _ _ _ => rfl⟩
  | timer =>
      obtain ⟨p, km, hp, hl, rfl⟩ := timer_ok h
      exact hstop hp hl (.inr rfl)
  | fault signal =>
      simp only [perform, currentAddSignal] at h
      exact hlocal (modifySignals_ok h)
  | handleSignals =>
      obtain ⟨p, inner, km, hcur, hl, hcalls, hfd, ⟨hfatal, hk⟩ | ⟨errno, hfatal, hk⟩⟩ :=
        handleSignals_ok h
      · have hact : k.act .handleSignals = .other := by simp [act, hcur, hfatal]
        rw [hact]
        exact hstop (currentInner_eq_some.mp hcur).1 hl hk
      · have hact : k.act .handleSignals = .exit p errno := by simp [act, hcur, hfatal]
        have hp := (currentInner_eq_some.mp hcur).1
        obtain ⟨hpid, rfl⟩ := exit_ok (hl.current.trans hp) hk
        rw [hact]
        refine ⟨km, hl, .exit errno (hl.current.trans hp) ?_ hpid, fun p _ _ => hfd p⟩
        rw [hcalls]
        exact hidle p hp hen
  | yield =>
      cases hc : k.current with
      | none =>
          rw [show k.perform .yield = k.suspendCurrentAndRunNext from rfl, suspend_none hc] at h
          cases h
      | some p => exact hstop hc (LocalStep.refl k) (.inr (suspend_ok h hc))
  | fork =>
      obtain ⟨⟨r, k''⟩, hr, rfl⟩ := map_ok h
      obtain ⟨p, inner, hcur, -, rfl⟩ := fork_ok hfresh hr
      have hact : k.act .fork = .fork p k.nextProc := by
        simp [act, (currentInner_eq_some.mp hcur).1]
      rw [hact]
      exact ⟨k, LocalStep.refl k, .fork hcur, fun _ _ _ => rfl⟩
  | exec cx =>
      simp only [perform, exec] at h
      exact hlocal (modifySignals_ok h)
  | exit exitCode =>
      cases hc : k.current with
      | none =>
          have herr : k.exitCurrentAndRunNext exitCode = .error .takeCurrent := by
            unfold exitCurrentAndRunNext takeCurrentProcess
            rw [hc]
          rw [show k.perform (.exit exitCode) = k.exitCurrentAndRunNext exitCode from rfl,
            herr] at h
          cases h
      | some p =>
          obtain ⟨hpid, rfl⟩ := exit_ok hc h
          have hact : k.act (.exit exitCode) = .exit p exitCode := by simp [act, hc]
          rw [hact]
          exact ⟨k, LocalStep.refl k, .exit exitCode hc (hidle p hc hen) hpid, fun _ _ _ => rfl⟩
  | waitpid pid =>
      obtain ⟨⟨r, code, k''⟩, hr, rfl⟩ := map_ok h
      rcases waitpid_ok hr with ⟨rfl, rfl⟩ | ⟨p, inner, c, pids, hcur, hfind, hpids, rfl, rfl, rfl⟩
      · have hact : k''.act (.waitpid pid) = .other := by simp [act, hr]
        rw [hact]
        exact ⟨_, LocalStep.refl _, .none, fun _ _ _ => rfl⟩
      · have hact : k.act (.waitpid pid) = .reap p c (k.pidOf c) (k.exitCodeOf c) := by
          simp [act, hr, hcur, hfind]
        rw [hact]
        exact ⟨k, LocalStep.refl k, .reap hcur hfind hpids, fun _ _ _ => rfl⟩
  | kill pid signum =>
      cases h
      exact hlocal (kill_local k pid signum)
  | sigprocmask mask =>
      simp only [perform] at h
      exact hlocal (modifySignals_ok h)
  | sigaction signum action oldAction new =>
      simp only [perform] at h
      exact hlocal (modifySignals_ok h)
  | sigreturn =>
      replace h : k.sigreturn = .ok k' := h
      unfold sigreturn at h
      split at h
      · cases h
      · split at h
        · cases h
        · exact hlocal (modifySignals_ok h)
  | pipe =>
      obtain ⟨⟨r, k''⟩, hr, rfl⟩ := map_ok h
      exact hlocal (pipe_ok (fun p hp => hidle p hp hen) hr)
  | close fd =>
      obtain ⟨⟨r, k''⟩, hr, rfl⟩ := map_ok h
      exact hlocal (close_ok (fun p hp => hidle p hp hen) hr)
  | dup fd =>
      obtain ⟨⟨r, k''⟩, hr, rfl⟩ := map_ok h
      exact hlocal (dup_ok (fun p hp => hidle p hp hen) hr)
  | read fd len =>
      obtain ⟨p, km, hp, hl, hk⟩ := io_ok (.read (.start len)) (ReadCall.start_wf len) h
      exact hstop hp hl hk
  | write fd buf =>
      obtain ⟨p, km, hp, hl, hk⟩ := io_ok (.write (.start buf)) (WriteCall.start_wf buf) h
      exact hstop hp hl hk
  | resume =>
      obtain ⟨p, km, hp, hl, hk⟩ := resume_ok h
      exact hstop hp hl hk

/-! ## How an event can stop the machine -/

theorem modifySignals_error {k : Kernel} {f : SignalState → SignalState} {halt : Halt}
    (h : k.modifySignals f = .error halt) : halt.Local := by
  unfold modifySignals at h
  split at h <;> cases h
  trivial

theorem runCall_error {k : Kernel} {p file buffer : Nat} {call : PipeCall} {halt : Halt}
    (hp : k.current = some p) (h : k.runCall p file buffer call = .error halt) : halt.Local := by
  unfold runCall at h
  dsimp only at h
  split at h
  · cases h
    trivial
  · cases h
  · rw [suspend_eq (by exact hp)] at h
    cases h

theorem io_error {k : Kernel} {fd : Nat} {write : Bool} {call : PipeCall} {halt : Halt}
    (h : k.sysIo fd write call = .error halt) : halt.Local := by
  unfold sysIo at h
  split at h
  · cases h
    trivial
  · next p inner hcur =>
      split at h
      · cases h
      · split at h
        · split at h
          · exact runCall_error (currentInner_eq_some.mp hcur).1 h
          · cases h
        · cases h

theorem resume_error {k : Kernel} {halt : Halt} (h : k.resumeCall = .error halt) :
    halt.Local := by
  unfold resumeCall at h
  split at h
  · cases h
    trivial
  · next p hp =>
      split at h
      · cases h
      · split at h
        · exact runCall_error hp h
        · cases h

theorem map_error {α : Type*} {x : Except Halt α} {f : α → Kernel} {halt : Halt}
    (h : x.map f = .error halt) : x = .error halt := by
  cases x with
  | error e =>
      cases h
      rfl
  | ok a => cases h

/-- With a current process the machine stops in the demotion by the timer, in
an exit, in `sys_waitpid`, or for a reason local to the call. -/
theorem perform_error {k : Kernel} {e : KEvent} {halt : Halt} {p : Nat} (hp : k.current = some p)
    (h : k.perform e = .error halt) :
    halt.Local ∨ (e = .timer ∧ halt = .takeCurrent)
      ∨ (∃ km exitCode, LocalStep k km ∧ km.exitCurrentAndRunNext exitCode = .error halt)
      ∨ ∃ pid, e = .waitpid pid ∧ k.sysWaitpid pid = .error halt := by
  cases e with
  | fetch => cases h
  | timer =>
      simp only [perform] at h
      refine .inr (.inl ⟨rfl, ?_⟩)
      cases hcur : k.currentInner with
      | none =>
          unfold timerInterrupt at h
          rw [hcur] at h
          rw [suspend_eq hp] at h
          cases h
      | some pi =>
          rw [timer_eq hcur] at h
          split at h <;> cases h
          rfl
  | fault signal =>
      simp only [perform, currentAddSignal] at h
      exact .inl (modifySignals_error h)
  | handleSignals =>
      simp only [perform] at h
      unfold handleSignals at h
      split at h
      · cases h
        exact .inl trivial
      · next q inner hcur =>
          dsimp only at h
          split at h
          · rw [suspend_eq (by exact hp)] at h
            cases h
          · split at h
            · refine .inr (.inr (.inl ⟨_, _, ?_, h⟩))
              exact LocalStep.modifyProc k q (fun _ => rfl) fun _ => rfl
            · cases h
  | yield =>
      simp only [perform] at h
      rw [suspend_eq hp] at h
      cases h
  | fork =>
      have h := map_error h
      unfold sysFork at h
      split at h <;> cases h
      exact .inl trivial
  | exec cx =>
      simp only [perform, exec] at h
      exact .inl (modifySignals_error h)
  | exit exitCode => exact .inr (.inr (.inl ⟨k, exitCode, LocalStep.refl k, h⟩))
  | waitpid pid => exact .inr (.inr (.inr ⟨pid, rfl, map_error h⟩))
  | kill pid signum => cases h
  | sigprocmask mask =>
      simp only [perform] at h
      exact .inl (modifySignals_error h)
  | sigaction signum action oldAction new =>
      simp only [perform] at h
      exact .inl (modifySignals_error h)
  | sigreturn =>
      simp only [perform] at h
      unfold sigreturn at h
      split at h
      · cases h
        exact .inl trivial
      · split at h
        · cases h
          exact .inl trivial
        · exact .inl (modifySignals_error h)
  | pipe =>
      have h := map_error h
      unfold sysPipe at h
      split at h <;> cases h
      exact .inl trivial
  | close fd =>
      have h := map_error h
      unfold sysClose at h
      split at h
      · cases h
        exact .inl trivial
      · split at h <;> cases h
  | dup fd =>
      have h := map_error h
      unfold sysDup at h
      split at h
      · cases h
        exact .inl trivial
      · split at h <;> cases h
  | read fd len => exact .inl (io_error h)
  | write fd buf => exact .inl (io_error h)
  | resume => exact .inl (resume_error h)

end Kernel

end Nimloth
