import Nimloth.ExecArgs
import Nimloth.OSInode
import Nimloth.UserStrings

/-!
# `sys_exec`

The system call reads the path and the arguments, opens the file, reads
all of it and calls `exec`. The only failure that it reports is that
there is no such file: from there on a file that is no program or does
not load, a file that is too long for the kernel's heap, and arguments
that do not fit on the stack, are not looked for. They are met as the
panics of the loader and of the allocator, or not at all.

Of what the call puts on the heap, its strings, their vector and the
buffer of `read_all` are as long as the program and the file make them.
`heap` says which sizes the heap has room for. The nodes of the new
address space, which the frames bound, and the pointers of `exec`, which
the stack bounds for arguments that fit, are taken to find theirs.
-/

namespace Nimloth

open Outcome PageTable MemorySet

/-! ## The code -/

/-- A heap with buffers of the sizes in `heap` lets `sys_exec` read path and arguments. A `String`
    has 24 bytes in the vector. -/
def CallGranted (heap : Nat → Bool) (path : String) (args : List String) : Prop :=
  (∀ str ∈ path :: args, HasRoom heap (stringBuffers (nameBytes str).length))
    ∧ HasRoom heap (vecBuffers 24 args.length)

instance (heap : Nat → Bool) (path : String) (args : List String) :
    Decidable (CallGranted heap path args) :=
  inferInstanceAs (Decidable (_ ∧ _))

namespace Machine

/-- `sys_exec` when path and arguments are read. -/
def execPath (img : KernelImage) (cpu : TrapSetup) (heap : Nat → Bool)
    (files : String → Option (List UInt8)) (parse : List UInt8 → Option Elf) (i : Nat)
    (path : String) (argsVec : List String) : MachineM Int := do
  match files path with
  | some allData => do
      ensure .heap (Granted heap allData.length)
      let elf ← unwrap (.space .badElf) (parse allData)
      exec img cpu i elf (argsVec.map nameBytes)
      pure argsVec.length
  | none => pure (-1)

/-- `sys_exec`. For a path, `files` is what `open_file` finds and `read_all` reads; `parse` is what
    `xmas_elf` makes of it. -/
def sysExec (img : KernelImage) (cpu : TrapSetup) (heap : Nat → Bool)
    (files : String → Option (List UInt8)) (parse : List UInt8 → Option Elf)
    (fuel i path args : Nat) : MachineM Int := do
  let p ← running i
  let s ← get
  let token := p.memorySet.token
  let path ← unwrap (.space .noTable) (translatedStr s.st.mem token fuel path)
  let argsVec ← unwrap (.space .noTable) (readArgs s.st.mem token fuel args)
  ensure .heap (CallGranted heap path argsVec)
  execPath img cpu heap files parse i path argsVec

end Machine

/-- A process calls `sys_exec` with a path and arguments in its memory. -/
structure ExecCall (img : KernelImage) (s : Machine) (i : Nat) (p : ProcessSpace)
    (fuel pathPtr argsPtr : Nat) (path : String) (args : List String) : Prop where
  ok : s.Ok img
  proc : s.procs[i]? = some p
  running : p.zombie = false
  path : translatedStr s.st.mem p.memorySet.token fuel pathPtr = some path
  args : readArgs s.st.mem p.memorySet.token fuel argsPtr = some args

/-- `argv` and the strings fit on the user stack. -/
def ArgsFit (args : List (List UInt8)) : Prop :=
  8 * (args.length + 1) + argsSize args ≤ USER_STACK_SIZE

instance (args : List (List UInt8)) : Decidable (ArgsFit args) :=
  inferInstanceAs (Decidable (_ ≤ _))

section Exec

variable {img : KernelImage} {cpu : TrapSetup} {heap : Nat → Bool}
  {files : String → Option (List UInt8)} {parse : List UInt8 → Option Elf} {s : Machine}
  {i fuel pathPtr argsPtr : Nat} {p : ProcessSpace} {path : String} {args : List String}
  {E : Fault → Prop}

/-- The call is what comes after the strings. -/
theorem ExecCall.sysExec_iff (h : ExecCall img s i p fuel pathPtr argsPtr path args)
    {Q : Int → Machine → Prop} :
    Meets E (Machine.sysExec img cpu heap files parse fuel i pathPtr argsPtr) s Q
      ↔ (CallGranted heap path args →
          Meets E (Machine.execPath img cpu heap files parse i path args) s Q)
        ∧ (¬ CallGranted heap path args → E .heap) := by
  simp only [Machine.sysExec, Machine.running, Meets.bind_iff, Meets.get_iff]
  rw [h.proc, Meets.unwrap_some, Meets.ensure_iff]
  simp only [h.running, Meets.pure_iff, h.path, h.args, Meets.unwrap_some, Meets.ensure_iff]
  exact ⟨fun hmeets => hmeets.1 trivial,
    fun hmeets => ⟨fun _ => hmeets, fun hno => absurd trivial hno⟩⟩

theorem ExecCall.sysExec_of_granted (h : ExecCall img s i p fuel pathPtr argsPtr path args)
    (hstrings : CallGranted heap path args) {Q : Int → Machine → Prop}
    (hmeets : Meets E (Machine.execPath img cpu heap files parse i path args) s Q) :
    Meets E (Machine.sysExec img cpu heap files parse fuel i pathPtr argsPtr) s Q :=
  h.sysExec_iff.mpr ⟨fun _ => hmeets, fun hno => absurd hstrings hno⟩

/-- `exec` returns for programs that load only. -/
theorem Machine.exec_loadable {elf : Elf} {bss : List (List UInt8)} (h : s.Ok img) :
    Meets (fun _ => True) (Machine.exec img cpu i elf bss) s fun _ _ => elf.Loadable := by
  simp only [Machine.exec, Meets.bind_iff]
  refine (Machine.running_meets fun _ => trivial).mono ?_
  rintro q _ ⟨rfl, -, -⟩
  rw [onMemory_iff]
  refine (fromElf_exact h.owns.wf h.backs_nil (fun _ => trivial) fun _ _ => trivial).mono ?_
  rintro ⟨ms, top, entry⟩ st₁ ⟨hload, -⟩
  simp only [← Meets.bind_iff]
  exact Meets.trivial.mono fun _ _ _ => hload

/-- For a file that is there the call returns only if the heap has room for it and it is a program
    that loads, and then does not report a failure. -/
theorem ExecCall.found (h : ExecCall img s i p fuel pathPtr argsPtr path args)
    {data : List UInt8} (hfile : files path = some data) :
    Meets (fun _ => True) (Machine.sysExec img cpu heap files parse fuel i pathPtr argsPtr) s
      fun r _ => r ≠ -1 ∧ Granted heap data.length ∧ ∃ elf, parse data = some elf
        ∧ elf.Loadable := by
  refine h.sysExec_iff.mpr ⟨fun _ => ?_, fun _ => trivial⟩
  rw [Machine.execPath, hfile]
  dsimp only
  rw [Meets.bind_iff, Meets.ensure_iff]
  refine ⟨fun hgranted => ?_, fun _ => trivial⟩
  rw [Meets.bind_iff]
  cases hparse : parse data with
  | none => exact Meets.unwrap_none.mpr trivial
  | some elf =>
      rw [Meets.unwrap_some, Meets.bind_iff]
      refine (Machine.exec_loadable h.ok).mono fun _ s' hload => ?_
      exact Meets.pure_iff.mpr ⟨by omega, hgranted, elf, rfl, hload⟩

/-- The call when the program is loaded and the arguments fit. -/
theorem ExecCall.loaded (h : ExecCall img s i p fuel pathPtr argsPtr path args)
    {data : List UInt8} {elf : Elf} {ms : MemorySet} {top entry : Nat} {st₁ : MemState}
    (hstrings : CallGranted heap path args) (hfile : files path = some data)
    (hgranted : Granted heap data.length) (hparse : parse data = some elf)
    (hrun : fromElf img elf s.st = .ok ((ms, top, entry), st₁))
    (hfit : ArgsFit (args.map nameBytes)) :
    Meets E (Machine.sysExec img cpu heap files parse fuel i pathPtr argsPtr) s fun r s' =>
      r = args.length ∧ ∃ argvBase sp ppn,
        s'.procs = s.procs.set i { p with memorySet := ms, trapCxPpn := ppn }
          ∧ ExecLayout st₁.mem s'.st.mem ms.pageTable top entry (args.map nameBytes) argvBase
            sp := by
  refine h.sysExec_of_granted hstrings ?_
  rw [Machine.execPath, hfile]
  dsimp only
  rw [hparse, Meets.bind_iff, Meets.ensure_iff]
  refine ⟨fun _ => ?_, fun hno => absurd hgranted hno⟩
  rw [Meets.bind_iff, Meets.unwrap_some, Meets.bind_iff]
  refine (Machine.exec_placed h.ok h.proc h.running hrun hfit).mono fun _ s' hplaced => ?_
  exact Meets.pure_iff.mpr ⟨rfl, hplaced⟩

end Exec

/-! ## A process and a program -/

/-- A process with the bytes `bs` on its stack. -/
theorem exists_caller {bs : List UInt8} (hlen : bs.length ≤ 4096) :
    ∃ (s : Machine) (p : ProcessSpace), s.Ok default ∧ s.procs[0]? = some p ∧ p.zombie = false
      ∧ 0x100 ≤ s.st.alloc.available ∧ HoldsAt s.st.mem p.memorySet.pageTable 0x1000 bs := by
  obtain ⟨-, s, p, f, -, -, hinv, hprocs, hz, -, -, -, -, hav, hstacked⟩ := exists_program
  have hp : p ∈ s.procs := by
    rw [hprocs]
    exact List.mem_singleton.mpr rfl
  obtain ⟨e, he, hppn, hf⟩ := hstacked.lookup hinv.ok hp hz
  have hx : (p.memorySet, false) ∈ s.sets := by
    rw [← hz]
    exact Machine.mem_sets hp
  obtain ⟨hholds, hsame⟩ := Holds.wrote hinv.ok hx
    (@Wrote.of_write _ _ _ f (f * 4096) bs (Or.inl hf) (Nat.le_refl _) (by omega))
  refine ⟨{ s with st := { s.st with mem := s.st.mem.write (f * 4096) bs } }, p, hholds,
    by rw [hprocs]; rfl, hz, hav, fun j b hb => ?_⟩
  have hj := (List.getElem?_eq_some_iff.mp hb).1
  have hpage : pageOf (0x1000 + j) = 1 := by
    rw [pageOf_eq]
    omega
  have htree := (hinv.ok.userOk hp hz).space.tree
  have hlook : p.memorySet.pageTable.lookup (s.st.mem.write (f * 4096) bs) 1 = some e := by
    rw [htree.lookup_congr fun n hn => hsame n
      (List.mem_append_right _ (Sets.mem_tables hx hn))]
    exact he
  dsimp only
  rw [byteAt, physAt, hpage, hlook, Option.map_some, Option.map_some, hppn]
  rw [Mem.write_inside _ (by omega) (by omega), List.getD_eq_getElem?_getD]
  have hoff : f * 4096 + (0x1000 + j) % 4096 - f * 4096 = j := by omega
  rw [hoff, hb]
  rfl

section Read

variable {img : KernelImage} {s : Machine} {i : Nat} {p : ProcessSpace} (hok : s.Ok img)
  (hp : s.procs[i]? = some p) (hz : p.zombie = false)

include hok hp hz

/-- What is mapped in the space of a process is not frame 0. -/
theorem Machine.Ok.ppn_pos_of_lookup :
    p.memorySet.pageTable.rootPpn < 2 ^ 44 ∧ ∀ v e, v < 2 ^ 27 →
      p.memorySet.pageTable.lookup s.st.mem v = some e → 0 < e.ppn := by
  have huser := hok.userOk (List.mem_of_getElem? hp) hz
  exact ⟨huser.rootPpn_lt, fun v e hv he =>
    ppn_pos huser img.trampoline_pos img.trampoline_lt_two_pow hv he⟩

/-- `translated_str` on a string of a process. -/
theorem CStrAt.read {ptr fuel : Nat} {bs : List UInt8}
    (h : CStrAt s.st.mem p.memorySet.pageTable ptr bs) (hptr : ptr < 2 ^ 64)
    (hfuel : bs.length < fuel) :
    Nimloth.translatedStr s.st.mem p.memorySet.token fuel ptr = some (pushChars bs) := by
  obtain ⟨hroot, hpos⟩ := hok.ppn_pos_of_lookup hp hz
  exact h.translatedStr hroot hpos hptr hfuel

end Read

/-- The call of a process with strings in its memory. -/
theorem ExecCall.of_holds {s : Machine} {p : ProcessSpace} {i fuel pathPtr argsPtr : Nat}
    {pathBytes : List UInt8} {bss : List (List UInt8)} {img : KernelImage} (hok : s.Ok img)
    (hp : s.procs[i]? = some p) (hz : p.zombie = false)
    (hpath : CStrAt s.st.mem p.memorySet.pageTable pathPtr pathBytes) (hlt : pathPtr < 2 ^ 64)
    (hargs : ArgvAt s.st.mem p.memorySet.pageTable argsPtr bss) (hlt' : argsPtr < 2 ^ 64)
    (haligned : argsPtr % 8 = 0) (hfuel : pathBytes.length < fuel)
    (hfuel' : (bss.map fun bs => bs.length + 1).sum < fuel) :
    ExecCall img s i p fuel pathPtr argsPtr (pushChars pathBytes) (bss.map pushChars) := by
  obtain ⟨hroot, hpos⟩ := hok.ppn_pos_of_lookup hp hz
  refine ⟨hok, hp, hz, hpath.read hok hp hz hlt hfuel, ?_⟩
  have hread := readArgs_holds hroot hpos haligned hargs hfuel'
  rwa [Nat.mod_eq_of_lt hlt'] at hread

section Laws

variable {img : KernelImage} {cpu : TrapSetup} {heap : Nat → Bool}
  {files : String → Option (List UInt8)} {parse : List UInt8 → Option Elf} {s : Machine}
  {i fuel pathPtr argsPtr : Nat} {p : ProcessSpace} {path : String} {args : List String}

/-! ## Files that are no programs -/

end Laws

section Laws

variable {img : KernelImage} {cpu : TrapSetup} {heap : Nat → Bool}
  {files : String → Option (List UInt8)} {parse : List UInt8 → Option Elf} {s : Machine}
  {i fuel pathPtr argsPtr : Nat} {p : ProcessSpace} {path : String} {args : List String}

end Laws

end Nimloth
