import Nimloth.ForkSpace
import Nimloth.Kernel
import Nimloth.KernelSpace
import Nimloth.Signal
import Nimloth.UserAccess

/-!
# Processes and the frames they hold

Creation, `fork`, `exec`, exit and reaping of processes, on the state
that decides who holds which frame: memory with its allocator, the
kernel's address space, the pids, and of each control block the address
space. `KernelStack` is given by the pid. What a process does in user mode
is `userStore`.

A frame is given back where its tracker is dropped: the data frames of a
process at its exit, its tables when it is reaped, an old address space
when `exec` replaces it, the kernel stack after the pid.
-/

namespace Nimloth

open Outcome PageTable MemorySet

/-! ## State -/

/-- A control block: what it holds, and what `sys_waitpid` looks at. `parent` is a pid. -/
structure ProcessSpace where
  pid : Nat
  memorySet : MemorySet
  trapCxPpn : Nat
  zombie : Bool
  exitCode : UInt32
  parent : Option Nat

/-- What the kernel keeps of its processes. The allocators, the owners of page tables and the
processes are values here; their bytes in the kernel's data and on its heap are not in
the memory of `st`. -/
structure Machine where
  st : MemState
  kernel : MemorySet
  pids : PidAllocator
  procs : List ProcessSpace

/-- Where a panic comes from. -/
inductive Fault where
  /-- the code on the address space of a process -/
  | space (e : MemPanic)
  /-- the code on `KERNEL_SPACE` -/
  | kernelSpace (e : MemPanic)
  /-- the assertions of `PidAllocator::dealloc` -/
  | pidDealloc
  /-- the idle process exits -/
  | shutdown
  /-- there is no such process -/
  | noProcess
  /-- `alloc_error_handler`: the kernel's heap is exhausted -/
  | heap
  deriving DecidableEq

abbrev MachineM := Outcome Machine Fault

/-- A program on the memory. -/
def onMemory {α : Type} (tag : MemPanic → Fault) (p : MemM α) : MachineM α := fun s =>
  match p s.st with
  | .error e => .error (tag e)
  | .ok (a, st) => .ok (a, { s with st := st })

/-- What `app_init_context` reads: the status register, set to return to user mode, and the
    address of `trap_handler`. -/
structure TrapSetup where
  sstatus : UInt64
  trapHandler : UInt64

/-! ## Trap contexts -/

def TrapContext.appInitContext (cpu : TrapSetup) (entry sp kernelSatp kernelSp : Nat) :
    TrapContext where
  x := (Vector.replicate 32 0).set 2 (UInt64.ofNat sp)
  sstatus := cpu.sstatus
  sepc := UInt64.ofNat entry
  kernelSatp := UInt64.ofNat kernelSatp
  kernelSp := UInt64.ofNat kernelSp
  trapHandler := cpu.trapHandler

/-- The layout of `#[repr(C)]`. -/
def TrapContext.bytes (cx : TrapContext) : List UInt8 :=
  (cx.x.toList ++ [cx.sstatus, cx.sepc, cx.kernelSatp, cx.kernelSp, cx.trapHandler]).flatMap
    fun w => leBytes 8 w.toNat

/-- `memory_set.translate(VirtAddr::from(TRAP_CONTEXT).into()).unwrap().ppn()`. -/
def findTrapCx (ms : MemorySet) : MemM Nat := do
  let st ← get
  let pte ← unwrap .noTable (ms.translate st.mem (VirtAddr.floor (VirtAddr.from TRAP_CONTEXT)))
  pure pte.ppn

/-- A write through `trap_cx()`, `k` bytes into the context. -/
def writeTrapCx (trapCxPpn k : Nat) (bs : List UInt8) : MemM Unit := do
  ensure .noTable (trapCxPpn ≠ 0)
  modify fun st => { st with mem := st.mem.write (trapCxPpn * 4096 + k) bs }

/-! ## Arguments of a program -/

/-- Subtraction of `usize`. -/
def usizeSub (a b : Nat) : Nat := (a + 2 ^ 64 - b % 2 ^ 64) % 2 ^ 64

def refmut (token va : Nat) : MemM Nat := do
  let st ← get
  unwrap .noTable (translatedRefmut st.mem token va)

def writeAt (pa : Nat) (bs : List UInt8) : MemM Unit :=
  modify fun st => { st with mem := st.mem.write pa bs }

/-- The references to `argv`, from index `k` on. -/
def argvRefs (token argvBase : Nat) : Nat → Nat → MemM (List Nat)
  | _, 0 => pure []
  | k, n + 1 => do
      let pa ← refmut token ((argvBase + k * 8) % 2 ^ 64)
      let pas ← argvRefs token argvBase (k + 1) n
      pure (pa :: pas)

/-- The bytes of one argument and the terminating zero. -/
def copyArg (token : Nat) : Nat → List UInt8 → MemM Unit
  | p, [] => do
      let pa ← refmut token p
      writeAt pa [0]
  | p, c :: cs => do
      let pa ← refmut token p
      writeAt pa [c]
      copyArg token ((p + 1) % 2 ^ 64) cs

/-- The loop over the arguments, each with the reference to its place in `argv`. -/
def copyArgs (token : Nat) : Nat → List (Nat × List UInt8) → MemM Nat
  | userSp, [] => pure userSp
  | userSp, (pa, arg) :: rest => do
      let userSp := usizeSub userSp (arg.length + 1)
      writeAt pa (leBytes 8 userSp)
      copyArg token userSp arg
      copyArgs token userSp rest

/-- What `exec` puts on the user stack; returns the stack pointer and `argv_base`. -/
def pushArgs (token userSp : Nat) (args : List (List UInt8)) : MemM (Nat × Nat) := do
  let argvBase := usizeSub userSp ((args.length + 1) * 8)
  let argv ← argvRefs token argvBase 0 args.length
  let last ← refmut token ((argvBase + args.length * 8) % 2 ^ 64)
  writeAt last (leBytes 8 0)
  let userSp ← copyArgs token argvBase (argv.zip args)
  pure (userSp - userSp % 8, argvBase)

/-! ## Processes -/

namespace Machine

def pidAlloc : MachineM Nat := do
  let s ← get
  let (pid, pids) := s.pids.alloc
  set { s with pids := pids }
  pure pid

/-- The drop of a `PidHandle`. -/
def pidDealloc (pid : Nat) : MachineM Unit := do
  let s ← get
  let pids ← unwrap .pidDealloc (s.pids.dealloc pid)
  set { s with pids := pids }

def newKernelStack (pid : Nat) : MachineM Unit := do
  let s ← get
  let kernel ← onMemory .kernelSpace (KernelStack.new s.kernel pid)
  modify fun s => { s with kernel := kernel }

def dropKernelStack (pid : Nat) : MachineM Unit := do
  let s ← get
  let kernel ← onMemory .kernelSpace (KernelStack.drop s.kernel pid)
  modify fun s => { s with kernel := kernel }

/-- A process that is not a zombie. -/
def running (i : Nat) : MachineM ProcessSpace := do
  let s ← get
  let p ← unwrap .noProcess s.procs[i]?
  ensure .noProcess (p.zombie = false)
  pure p

/-- The control block of a new process. -/
def newProcess (ms : MemorySet) (parent : Option Nat) : MachineM ProcessSpace := do
  let trapCxPpn ← onMemory .space (findTrapCx ms)
  let pid ← pidAlloc
  newKernelStack pid
  let p : ProcessSpace := ⟨pid, ms, trapCxPpn, false, 0, parent⟩
  modify fun s => { s with procs := s.procs ++ [p] }
  pure p

/-- `ProcessControlBlock::new`. -/
def create (img : KernelImage) (cpu : TrapSetup) (elf : Elf) : MachineM Unit := do
  let (ms, userSp, entry) ← onMemory .space (fromElf img elf)
  let p ← newProcess ms none
  let s ← get
  let cx := TrapContext.appInitContext cpu entry userSp s.kernel.token
    (kernelStackPosition p.pid).2
  onMemory .space (writeTrapCx p.trapCxPpn 0 cx.bytes)

/-- `fork`; `kernel_sp` is word 35 of the trap context. -/
def fork (img : KernelImage) (i : Nat) : MachineM Unit := do
  let parent ← running i
  let ms ← onMemory .space (fromExistedUser img parent.memorySet)
  let p ← newProcess ms (some parent.pid)
  onMemory .space (writeTrapCx p.trapCxPpn (35 * 8) (leBytes 8 (kernelStackPosition p.pid).2))

/-- `exec`; the assignment to `memory_set` drops the old address space. -/
def exec (img : KernelImage) (cpu : TrapSetup) (i : Nat) (elf : Elf) (args : List (List UInt8)) :
    MachineM Unit := do
  let p ← running i
  let (ms, userSp, entry) ← onMemory .space (fromElf img elf)
  let trapCxPpn ← onMemory .space (findTrapCx ms)
  let (userSp, argvBase) ← onMemory .space (pushArgs ms.token userSp args)
  onMemory .space p.memorySet.drop
  modify fun s =>
    { s with procs := s.procs.set i { p with memorySet := ms, trapCxPpn := trapCxPpn } }
  let s ← get
  let cx := TrapContext.appInitContext cpu entry userSp s.kernel.token
    (kernelStackPosition p.pid).2
  let x := (cx.x.set 10 (UInt64.ofNat args.length) a0_lt).set 11 (UInt64.ofNat argvBase) a1_lt
  onMemory .space (writeTrapCx trapCxPpn 0 { cx with x := x }.bytes)

/-- A child of `pid` becomes one of `INITPROC`, the process of pid 0. -/
def reparent (pid : Nat) (q : ProcessSpace) : ProcessSpace :=
  { q with parent := if q.parent = some pid then some 0 else q.parent }

/-- `exit_current_and_run_next`. -/
def exit (i : Nat) (exitCode : UInt32) : MachineM Unit := do
  let p ← running i
  ensure .shutdown (p.pid ≠ 0)
  let ms ← onMemory .space p.memorySet.recycleDataPages
  modify fun s => { s with
    procs := (s.procs.map (reparent p.pid)).set i
      { reparent p.pid p with memorySet := ms, zombie := true, exitCode := exitCode } }

/-- The drop of a control block: the pid, the kernel stack, the address space. -/
def dropProcess (i : Nat) : MachineM Unit := do
  let s ← get
  let p ← unwrap .noProcess s.procs[i]?
  set { s with procs := s.procs.eraseIdx i }
  pidDealloc p.pid
  dropKernelStack p.pid
  onMemory .space p.memorySet.drop

/-- A store in user mode; without permission it faults. -/
def userStore (i va : Nat) (b : UInt8) : MachineM Unit := do
  let p ← running i
  modify fun s =>
    match p.memorySet.pageTable.lookup s.st.mem (pageOf va) with
    | some e =>
        if e.flags.has PTEFlags.U ∧ e.flags.has PTEFlags.W then
          { s with st := { s.st with mem := s.st.mem.write (e.ppn * 4096 + va % 4096) [b] } }
        else s
    | none => s

/-- `sys_waitpid` by process `j` that has found its zombie child `i`. -/
def waitpid (j i exitCodePtr : Nat) : MachineM Unit := do
  let parent ← running j
  let s ← get
  let child ← unwrap .noProcess s.procs[i]?
  ensure .noProcess (child.zombie = true ∧ child.parent = some parent.pid)
  onMemory .space (do
    let pa ← refmut parent.memorySet.token exitCodePtr
    writeAt pa (leBytes 4 child.exitCode.toNat))
  dropProcess i

end Machine

/-! ## Events -/

inductive Lifecycle where
  | create (cpu : TrapSetup) (elf : Elf)
  | fork (i : Nat)
  | exec (cpu : TrapSetup) (i : Nat) (elf : Elf) (args : List (List UInt8))
  | exit (i : Nat) (exitCode : UInt32)
  | drop (i : Nat)
  | userStore (i va : Nat) (b : UInt8)

def Lifecycle.run (img : KernelImage) : Lifecycle → MachineM Unit
  | .create cpu elf => Machine.create img cpu elf
  | .fork i => Machine.fork img i
  | .exec cpu i elf args => Machine.exec img cpu i elf args
  | .exit i exitCode => Machine.exit i exitCode
  | .drop i => Machine.dropProcess i
  | .userStore i va b => Machine.userStore i va b

def LifecycleStep (img : KernelImage) (s : Machine) (e : Lifecycle) (s' : Machine) : Prop :=
  e.run img s = .ok ((), s')

/-- After boot: the kernel's address space, and no process. -/
def Machine.Boot (img : KernelImage) (s : Machine) : Prop :=
  ∃ m, newKernel img ⟨m, img.initFrameAllocator⟩ = .ok (s.kernel, s.st)
    ∧ s.pids = ⟨0, []⟩ ∧ s.procs = []

end Nimloth
