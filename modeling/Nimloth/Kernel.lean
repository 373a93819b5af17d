import Mathlib.Tactic.Common
import Mathlib.Algebra.BigOperators.Group.Finset.Basic
import Mathlib.Logic.Function.Basic
import Nimloth.Runs
import Nimloth.PipeCalls
import Nimloth.Signal

/-!
# Processes and the scheduler

The process part of the kernel: `os/src/process` (`manager.rs`,
`processor.rs`, `process.rs`, `pid.rs`, `mod.rs`), the timer branch of
`os/src/trap/mod.rs` and the process and descriptor system calls of
`os/src/syscall`.

A control block is named by the allocation its `Arc`s point to, never
by its pid: names are not used again, pids are. Reference counts are
not stored; `strongCount` and `fileStrong` count the places that hold a
reference, including the kernel stacks of processes that wait inside
`sys_read` or `sys_write` with a clone of their control block and of the
file (`calls`).

The processor executes either the idle loop of `run_process` or the
context of one process (`executing`). That is a fact about the machine,
apart from `PROCESSOR.current`, which the code takes and sets; that the
two agree is something to be proved. A process is interrupted only in
user mode, so whatever one event does is not cut in two, and the events
of the executing process may follow each other in any order.

Left out are address spaces (of `exec` only the new trap context
remains), the console files behind descriptors 0 to 2, and the register
write of a system call's result.
-/

namespace Nimloth

/-! ## Constants -/

def CLOCK_FREQ : Nat := 12500000
def MLFQ_QUEUE_COUNT : Nat := 4
def MLFQ_BASE_TIME_SLICE : Nat := CLOCK_FREQ / 100
def IDLE_PID : Nat := 0

/-- `KernelStack::top`, the second component of `kernel_stack_position`. -/
def kernelStackTop (pid : Nat) : UInt64 :=
  let pageSize : UInt64 := 0x1000
  let kernelStackSize : UInt64 := 4096 * 2
  let trampoline : UInt64 := 0 - pageSize
  trampoline - (kernelStackSize + pageSize) * UInt64.ofNat pid

/-- `ProcessManager::get_time_slice`: entry `i` of `time_slices` is the base
slice shifted by `i`. -/
def getTimeSlice (priority : Nat) : Nat :=
  MLFQ_BASE_TIME_SLICE * 2 ^ min priority (MLFQ_QUEUE_COUNT - 1)

/-! ## State -/

inductive ProcessStatus where
  | ready
  | running
  | zombie
  deriving DecidableEq

/-- The file objects a descriptor can name; `buffer` is the ring shared by the
two ends of a pipe. -/
inductive FileObj where
  | stdin
  | stdout
  | stderr
  | pipe (readable writable : Bool) (buffer : Nat)
  deriving DecidableEq

/-- A stretch of a read or a write. -/
def PipeCall.run (strong : Nat → Nat) (rb : PipeRingBuffer) :
    PipeCall → PipeRingBuffer × PipeCall × CallOutcome
  | .read c =>
      let (rb, c, out) := readLoop strong rb c
      (rb, .read c, out)
  | .write c =>
      let (rb, c, out) := writeLoop rb c
      (rb, .write c, out)

/-- `ProcessControlBlock` with its inner part. -/
structure Pcb where
  pid : Nat
  processStatus : ProcessStatus
  parent : Option Nat
  children : List Nat
  exitCode : Int
  fdTable : List (Option Nat)
  sig : SignalState
  priority : Nat
  timeSliceUsed : Nat
  timeSliceLimit : Nat

def Pcb.isZombie (inner : Pcb) : Bool := inner.processStatus == .zombie

/-- The control block `ProcessControlBlock::fork` builds for the child, with
the `a0` that `sys_fork` sets in its trap context. -/
def Pcb.forked (parentInner : Pcb) (parent pid : Nat) : Pcb where
  pid := pid
  processStatus := .ready
  parent := some parent
  children := []
  exitCode := 0
  fdTable := parentInner.fdTable
  sig := { parentInner.sig with
    signals := 0
    handlingSig := none
    killed := false
    frozen := false
    trapCtxBackup := none
    trapCx := { parentInner.sig.trapCx with
      kernelSp := kernelStackTop pid
      x := parentInner.sig.trapCx.x.set 10 0 a0_lt } }
  priority := parentInner.priority
  timeSliceUsed := 0
  timeSliceLimit := parentInner.timeSliceLimit

/-- `alloc_fd`: the first free slot, or a new one at the end. -/
def allocFd (fdTable : List (Option Nat)) : Nat × List (Option Nat) :=
  match fdTable.findIdx? Option.isNone with
  | some fd => (fd, fdTable)
  | none => (fdTable.length, fdTable ++ [none])

structure PidAllocator where
  current : Nat
  recycled : List Nat

structure Kernel where
  procs : Nat → Option Pcb
  nextProc : Nat
  initproc : Nat
  readyQueues : List (List Nat)
  current : Option Nat
  pid2pcb : List (Nat × Nat)
  pids : PidAllocator
  files : Nat → Option FileObj
  nextFile : Nat
  rings : Nat → PipeRingBuffer
  nextRing : Nat
  executing : Option Nat
  calls : Nat → Option (Nat × PipeCall)

/-- How the kernel stops: a shutdown, or a panic with its place. -/
inductive Halt where
  /-- `take_current_process().unwrap()` -/
  | takeCurrent
  /-- `current_process().unwrap()` -/
  | current
  /-- the panic of `remove_from_pid2process` -/
  | pid2process
  /-- the assertion of `sys_waitpid` -/
  | strongCount
  /-- the assertions of `PidAllocator::dealloc` -/
  | pidDealloc
  /-- `trap_ctx_backup.unwrap()` -/
  | trapCtxBackup
  /-- `write_end.as_ref().unwrap()` -/
  | writeEnd
  | shutdown (failure : Bool)
  deriving DecidableEq

namespace PidAllocator

def alloc (a : PidAllocator) : Nat × PidAllocator :=
  match a.recycled with
  | pid :: rest => (pid, { a with recycled := rest })
  | [] => (a.current, { a with current := a.current + 1 })

/-- `none` is a failed assertion. The vector's end is the list's head. -/
def dealloc (a : PidAllocator) (pid : Nat) : Option PidAllocator :=
  if pid < a.current ∧ pid ∉ a.recycled then some { a with recycled := pid :: a.recycled }
  else none

end PidAllocator

namespace Kernel

variable (k : Kernel)

/-! ## Access to control blocks

An `Arc` keeps its block allocated, so the defaults below are never
reached from a reference the kernel holds. -/

def modifyProc (p : Nat) (f : Pcb → Pcb) : Kernel :=
  { k with procs := Function.update k.procs p ((k.procs p).map f) }

def pidOf (p : Nat) : Nat := ((k.procs p).map Pcb.pid).getD 0

def childrenOf (p : Nat) : List Nat := ((k.procs p).map Pcb.children).getD []

def fdTableOf (p : Nat) : List (Option Nat) := ((k.procs p).map Pcb.fdTable).getD []

def exitCodeOf (p : Nat) : Int := ((k.procs p).map Pcb.exitCode).getD 0

def isZombie (p : Nat) : Bool := (k.procs p).any Pcb.isZombie

/-- The process exists and has not exited. -/
def isLive (p : Nat) : Bool := (k.procs p).any fun inner => !inner.isZombie

def currentInner : Option (Nat × Pcb) :=
  k.current.bind fun p => (k.procs p).map fun inner => (p, inner)

/-! ## Reference counts -/

/-- `Arc::strong_count` of a control block, outside the running function. -/
def strongCount (p : Nat) : Nat :=
  k.readyQueues.flatten.count p
    + (if k.current = some p then 1 else 0)
    + (k.pid2pcb.map Prod.snd).count p
    + ∑ q ∈ Finset.range k.nextProc, (k.childrenOf q).count p
    + (if k.initproc = p then 1 else 0)
    + (if (k.calls p).isSome then 1 else 0)

/-- `Arc::strong_count` of a file object. -/
def fileStrong (f : Nat) : Nat :=
  ∑ q ∈ Finset.range k.nextProc,
    ((k.fdTableOf q).count (some f) + if (k.calls q).map Prod.fst = some f then 1 else 0)

/-! ## Ready queues and the processor -/

/-- `ProcessManager::add`. -/
def addQueues (qs : List (List Nat)) (p priority : Nat) : List (List Nat) :=
  qs.modify (min priority (MLFQ_QUEUE_COUNT - 1)) (· ++ [p])

/-- `ProcessManager::fetch`: the front of the first queue that has one. -/
def fetchQueues : List (List Nat) → Option (Nat × List (List Nat))
  | [] => none
  | [] :: qs => (fetchQueues qs).map fun r => (r.1, [] :: r.2)
  | (p :: q) :: qs => some (p, q :: qs)

def takeCurrentProcess : Option Nat × Kernel := (k.current, { k with current := none })

/-- `BTreeMap::insert`. -/
def insertPid (m : List (Nat × Nat)) (pid p : Nat) : List (Nat × Nat) :=
  (pid, p) :: m.filter (·.1 ≠ pid)

def addProcessWithPriority (p priority : Nat) : Kernel :=
  { k with
    pid2pcb := insertPid k.pid2pcb (k.pidOf p) p
    readyQueues := addQueues k.readyQueues p priority }

def addProcess (p : Nat) : Kernel := k.addProcessWithPriority p 0

def pid2process (pid : Nat) : Option Nat := k.pid2pcb.lookup pid

/-- `remove_from_pid2process`; `none` is its panic. -/
def removeFromPid2process (pid : Nat) : Option Kernel :=
  if (k.pid2process pid).isSome then
    some { k with pid2pcb := k.pid2pcb.filter (·.1 ≠ pid) }
  else none

/-- `schedule`: the processor goes back to the idle loop. -/
def schedule : Kernel := { k with executing := none }

/-- One iteration of `run_process`; with no process ready it loops. -/
def runProcess : Kernel :=
  match fetchQueues k.readyQueues with
  | none => k
  | some (p, qs) =>
      let k := { k with readyQueues := qs }
      let k := k.modifyProc p fun inner => { inner with processStatus := .running }
      { k with current := some p, executing := some p }

def suspendCurrentAndRunNext : Except Halt Kernel :=
  match k.takeCurrentProcess with
  | (none, _) => .error .takeCurrent
  | (some p, k) =>
      let k := k.modifyProc p fun inner => { inner with processStatus := .ready }
      .ok (k.addProcess p).schedule

/-- The loop of `exit_current_and_run_next` that hands the children over. -/
def adopt (children : List Nat) : Kernel :=
  children.foldl (fun k child =>
    (k.modifyProc child fun inner => { inner with parent := some k.initproc }).modifyProc
      k.initproc fun inner => { inner with children := inner.children ++ [child] }) k

def exitCurrentAndRunNext (exitCode : Int) : Except Halt Kernel :=
  match k.takeCurrentProcess with
  | (none, _) => .error .takeCurrent
  | (some p, k) =>
      if k.pidOf p = IDLE_PID then .error (.shutdown (exitCode ≠ 0))
      else
        match k.removeFromPid2process (k.pidOf p) with
        | none => .error .pid2process
        | some k =>
            let k := k.modifyProc p fun inner =>
              { inner with processStatus := .zombie, exitCode := exitCode }
            let k := k.adopt (k.childrenOf p)
            let k := k.modifyProc p fun inner => { inner with children := [] }
            .ok k.schedule

/-- The `SupervisorTimer` branch of `trap_handler`. -/
def timerInterrupt : Except Halt Kernel :=
  match k.currentInner with
  | none => k.suspendCurrentAndRunNext
  | some (p, inner) =>
      let timeSliceUsed := inner.timeSliceUsed + 1
      if timeSliceUsed ≥ inner.timeSliceLimit then
        let newPriority :=
          if inner.priority < MLFQ_QUEUE_COUNT - 1 then inner.priority + 1 else inner.priority
        let k := k.modifyProc p fun inner =>
          { inner with
            priority := newPriority
            timeSliceUsed := 0
            timeSliceLimit := getTimeSlice newPriority }
        let k :=
          match k.takeCurrentProcess with
          | (none, k) => k
          | (some p, k) => k.addProcessWithPriority p newPriority
        k.suspendCurrentAndRunNext
      else
        (k.modifyProc p fun inner =>
          { inner with timeSliceUsed := timeSliceUsed }).suspendCurrentAndRunNext

/-! ## Process system calls

Each returns the value the caller sees next to the new state. -/

def sysFork : Except Halt (Int × Kernel) :=
  match k.currentInner with
  | none => .error .current
  | some (p, inner) =>
      let (pid, pids) := k.pids.alloc
      let child := k.nextProc
      let k := { k with
        pids := pids
        nextProc := child + 1
        procs := Function.update k.procs child (some (inner.forked p pid)) }
      let k := k.modifyProc p fun inner => { inner with children := inner.children ++ [child] }
      .ok (pid, k.addProcess child)

/-- `pid == -1 || pid as usize == p.getpid()`. -/
def wanted (pid : Int) (child : Nat) : Bool :=
  pid == -1 || pid % 2 ^ 64 == k.pidOf child

/-- The test by which `sys_waitpid` looks for a child to reap. -/
def reapable (pid : Int) (child : Nat) : Bool := k.isZombie child && k.wanted pid child

/-- The second component is what is stored through `exit_code_ptr`. The
removed child has one reference left, the local variable; when it goes the
control block is freed and its pid with it. -/
def sysWaitpid (pid : Int) : Except Halt (Int × Option Int × Kernel) :=
  match k.currentInner with
  | none => .error .current
  | some (p, inner) =>
      if !inner.children.any (k.wanted pid) then .ok (-1, none, k)
      else
        match inner.children.find? (k.reapable pid) with
        | none => .ok (-2, none, k)
        | some child =>
            let k := k.modifyProc p fun inner =>
              { inner with children := inner.children.eraseP (k.reapable pid) }
            if k.strongCount child + 1 ≠ 1 then .error .strongCount
            else
              match k.pids.dealloc (k.pidOf child) with
              | none => .error .pidDealloc
              | some pids =>
                  .ok (k.pidOf child, some (k.exitCodeOf child),
                    { k with pids := pids, procs := Function.update k.procs child none })

def sysKill (pid : Nat) (signum : Int) : Int × Kernel :=
  match k.pid2process pid with
  | none => (-1, k)
  | some p =>
      let result := ((k.procs p).map fun inner => (killSignal inner.sig signum).1).getD (-1)
      (result, k.modifyProc p fun inner => { inner with sig := (killSignal inner.sig signum).2 })

/-- An update of the signal state of the current process. -/
def modifySignals (f : SignalState → SignalState) : Except Halt Kernel :=
  match k.current with
  | none => .error .current
  | some p => .ok (k.modifyProc p fun inner => { inner with sig := f inner.sig })

/-- `ProcessControlBlock::exec` after the new address space is built: `cx` is
the context for the entry point and the arguments. -/
def exec (cx : TrapContext) : Except Halt Kernel :=
  k.modifySignals fun sig => { sig with trapCx := cx }

def currentAddSignal (signal : SignalFlags) : Except Halt Kernel :=
  k.modifySignals fun sig => { sig with signals := sig.signals ||| signal }

/-- The `unwrap` in `sys_sigreturn` fails when no handler was ever entered. -/
def sigreturn : Except Halt Kernel :=
  match k.currentInner with
  | none => .error .current
  | some (_, inner) =>
      match sigreturnTrap inner.sig with
      | none => .error .trapCtxBackup
      | some sig => k.modifySignals fun _ => sig

/-- One round of the loop of `handle_signals` and, when the loop ends, the
check for a fatal signal that follows it in `trap_handler`. A frozen process
suspends and starts the next round when it runs again. -/
def handleSignals : Except Halt Kernel :=
  match k.currentInner with
  | none => .error .current
  | some (p, inner) =>
      let sig := checkPendingSignals inner.sig
      let k := k.modifyProc p fun inner => { inner with sig := sig }
      if sig.frozen && !sig.killed then k.suspendCurrentAndRunNext
      else
        match sig.signals.checkError with
        | some (errno, _) => k.exitCurrentAndRunNext errno
        | none => .ok k

/-! ## Descriptors and pipes -/

/-- `sys_pipe` with `make_pipe`: the ring and its two ends are new objects. -/
def sysPipe : Except Halt (Int × Kernel) :=
  match k.currentInner with
  | none => .error .current
  | some (p, inner) =>
      let (readEnd, writeEnd) := (k.nextFile, k.nextFile + 1)
      let (readFd, fdTable) := allocFd inner.fdTable
      let fdTable := fdTable.set readFd (some readEnd)
      let (writeFd, fdTable) := allocFd fdTable
      let fdTable := fdTable.set writeFd (some writeEnd)
      let k := { k with
        rings := Function.update k.rings k.nextRing (PipeRingBuffer.new.setWriteEnd writeEnd)
        nextRing := k.nextRing + 1
        files := Function.update (Function.update k.files readEnd
          (some (.pipe true false k.nextRing))) writeEnd (some (.pipe false true k.nextRing))
        nextFile := k.nextFile + 2 }
      .ok (0, k.modifyProc p fun inner => { inner with fdTable := fdTable })

def sysClose (fd : Nat) : Except Halt (Int × Kernel) :=
  match k.currentInner with
  | none => .error .current
  | some (p, inner) =>
      match inner.fdTable[fd]?.join with
      | none => .ok (-1, k)
      | some _ =>
          .ok (0, k.modifyProc p fun inner => { inner with fdTable := inner.fdTable.set fd none })

def sysDup (fd : Nat) : Except Halt (Int × Kernel) :=
  match k.currentInner with
  | none => .error .current
  | some (p, inner) =>
      match inner.fdTable[fd]?.join with
      | none => .ok (-1, k)
      | some file =>
          let (newFd, fdTable) := allocFd inner.fdTable
          .ok (newFd, k.modifyProc p fun inner =>
            { inner with fdTable := fdTable.set newFd (some file) })

/-- Process `p` executes a stretch of a call on the pipe end `file` of ring
`buffer`: until it returns, which drops its clones, or suspends. -/
def runCall (p file buffer : Nat) (call : PipeCall) : Except Halt Kernel :=
  let (ring, call, out) := call.run k.fileStrong (k.rings buffer)
  let k := { k with rings := Function.update k.rings buffer ring }
  match out with
  | .panicked => .error .writeEnd
  | .returned _ => .ok { k with calls := Function.update k.calls p none }
  | .suspended =>
      { k with
        calls := Function.update k.calls p (some (file, call)) }.suspendCurrentAndRunNext

/-- `sys_read` (`write = false`) and `sys_write` on a pipe. A descriptor that
is closed, out of range or not open in that direction gives `-1`; the console
files are not followed. -/
def sysIo (fd : Nat) (write : Bool) (call : PipeCall) : Except Halt Kernel :=
  match k.currentInner with
  | none => .error .current
  | some (p, inner) =>
      match inner.fdTable[fd]?.join with
      | none => .ok k
      | some file =>
          match k.files file with
          | some (.pipe readable writable buffer) =>
              if bif write then writable else readable then k.runCall p file buffer call
              else .ok k
          | _ => .ok k

def sysRead (fd len : Nat) : Except Halt Kernel := k.sysIo fd false (.read (.start len))

def sysWrite (fd : Nat) (buf : List UInt8) : Except Halt Kernel :=
  k.sysIo fd true (.write (.start buf))

/-- The current process continues after the `suspend_current_and_run_next` of
its read or write. -/
def resumeCall : Except Halt Kernel :=
  match k.current with
  | none => .error .current
  | some p =>
      match k.calls p with
      | none => .ok k
      | some (file, call) =>
          match k.files file with
          | some (.pipe _ _ buffer) => k.runCall p file buffer call
          | _ => .ok k

end Kernel

/-! ## Runs -/

/-- What happens next: an iteration of the idle loop, a timer interrupt, a
fault, the end of a trap, a system call, or the rest of a suspended one. -/
inductive KEvent where
  | fetch
  | timer
  | fault (signal : SignalFlags)
  | handleSignals
  | yield
  | fork
  | exec (cx : TrapContext)
  | exit (exitCode : Int)
  | waitpid (pid : Int)
  | kill (pid : Nat) (signum : Int)
  | sigprocmask (mask : SignalFlags)
  | sigaction (signum : Int) (action oldAction : UInt64) (new : SignalAction)
  | sigreturn
  | pipe
  | close (fd : Nat)
  | dup (fd : Nat)
  | read (fd len : Nat)
  | write (fd : Nat) (buf : List UInt8)
  | resume

namespace Kernel

variable (k : Kernel)

/-- The idle loop runs when no process does, and a process inside a read or
write can only continue that call. -/
def Enabled : KEvent → Prop
  | .fetch => k.executing = none
  | .resume => ∃ p, k.executing = some p ∧ (k.calls p).isSome
  | _ => ∃ p, k.executing = some p ∧ k.calls p = none

def perform : KEvent → Except Halt Kernel
  | .fetch => .ok k.runProcess
  | .timer => k.timerInterrupt
  | .fault signal => k.currentAddSignal signal
  | .handleSignals => k.handleSignals
  | .yield => k.suspendCurrentAndRunNext
  | .fork => (k.sysFork).map (·.2)
  | .exec cx => k.exec cx
  | .exit exitCode => k.exitCurrentAndRunNext exitCode
  | .waitpid pid => (k.sysWaitpid pid).map (·.2.2)
  | .kill pid signum => .ok (k.sysKill pid signum).2
  | .sigprocmask mask => k.modifySignals fun sig => (sysSigprocmask sig mask).2
  | .sigaction signum action oldAction new =>
      k.modifySignals fun sig => (sysSigaction sig signum action oldAction new).2.2
  | .sigreturn => k.sigreturn
  | .pipe => (k.sysPipe).map (·.2)
  | .close fd => (k.sysClose fd).map (·.2)
  | .dup fd => (k.sysDup fd).map (·.2)
  | .read fd len => k.sysRead fd len
  | .write fd buf => k.sysWrite fd buf
  | .resume => k.resumeCall

/-- The state after `add_initproc`: `ProcessControlBlock::new` with the trap
context `cx` built from the `initproc` image, in the first ready queue. -/
def boot (cx : TrapContext) : Kernel where
  procs := Function.update (fun _ => none) 0 (some {
    pid := 0
    processStatus := .ready
    parent := none
    children := []
    exitCode := 0
    fdTable := [some 0, some 1, some 2]
    sig := .new cx
    priority := 0
    timeSliceUsed := 0
    timeSliceLimit := MLFQ_BASE_TIME_SLICE })
  nextProc := 1
  initproc := 0
  readyQueues := [[0], [], [], []]
  current := none
  pid2pcb := [(0, 0)]
  pids := { current := 1, recycled := [] }
  files := fun f =>
    if f = 0 then some .stdin else if f = 1 then some .stdout
    else if f = 2 then some .stderr else none
  nextFile := 3
  rings := fun _ => .new
  nextRing := 0
  executing := none
  calls := fun _ => none

end Kernel

end Nimloth
