import Nimloth.Encoding
import Nimloth.ImageFrames
import Nimloth.TrapContexts

/-!
# Traps along runs

`SystemStep` has the events of the processes, the traps of running
programs, and the kernel's changes to the registers of a process that is
in the kernel. In every state such steps lead to, a trap of a running
program ends in the handler on the kernel stack of its process
(`trap_entry`), and when it returns the program has the registers it had
(`trap_return`).
-/

namespace Nimloth

open Outcome RiscV PageTable MemorySet

/-! ## The system -/

/-- The kernel was built with this handler, and writes no exit code into a trap context. -/
def ProcessEvent.Respects (handler : UInt64) : ProcessEvent → Prop
  | .lifecycle (.create cpu _) => cpu.trapHandler = handler
  | .lifecycle (.exec cpu _ _ _) => cpu.trapHandler = handler
  | .lifecycle _ => True
  | .waitpid _ _ exitCodePtr =>
      pageOf exitCodePtr ≠ TRAP_CONTEXT_VPN ∧ exitCodePtr % 4096 + 4 ≤ 4096

theorem ProcessEvent.Respects.carried {img : KernelImage} {s s' : Machine} {handler : UInt64}
    {e : ProcessEvent} (he : e.Respects handler) (h : Walkable img s) (hr : s.Ready handler)
    (hs : FittingStep img s e s') :
    s'.Ready handler ∧ s.Carries s' e.Touches ∧ s.Spares s' e.Touches := by
  cases e with
  | lifecycle e =>
      have hready : Meets (fun _ => True) (e.run img) s fun _ s' =>
          s'.Ready handler ∧ s.Carries s' (ProcessEvent.lifecycle e).Touches := by
        cases e with
        | create cpu elf => exact Machine.create_ready h.ok h.traced hr he
        | fork i => exact Machine.fork_ready h.ok h.traced hr
        | exec cpu i elf args => exact Machine.exec_ready h.ok h.traced hr he
        | exit i exitCode => exact Machine.exit_ready h.ok hr
        | drop i => exact Machine.dropProcess_ready h.toPidInv h.traced hr
        | userStore i va b => exact Machine.userStore_ready h.ok hr
      have hmeets := (hready.and (h.lifecycle e)).ok hs.1
      exact ⟨hmeets.1.1, hmeets.1.2, hmeets.2.2⟩
  | waitpid j i exitCodePtr =>
      have hmeets := ((Machine.waitpid_ready h hr he.1 he.2).and (h.waitpid hs.2)).ok hs.1
      exact ⟨hmeets.1.1, hmeets.1.2, hmeets.2.2 he.2⟩

/-- The processor runs the program of `p`. -/
structure InUser (s : Machine) (p : ProcessSpace) (c : Cpu Mem) : Prop where
  mem : c.mem = s.st.mem
  mode : c.mode = .user
  satp : c.csr .satp = UInt64.ofNat p.memorySet.token
  stvec : c.csr .stvec = UInt64.ofNat TRAMPOLINE
  sscratch : c.csr .sscratch = UInt64.ofNat TRAP_CONTEXT

/-- The processor is in the trap handler, on the kernel stack of `p`. -/
structure InHandler (s : Machine) (p : ProcessSpace) (handler : UInt64) (c : Cpu Mem) : Prop where
  mode : c.mode = .supervisor
  satp : c.csr .satp = UInt64.ofNat s.kernel.token
  sp : c.get Reg.sp = UInt64.ofNat (kernelStackPosition p.pid).2
  pc : c.pc = handler &&& ~~~1

inductive SystemEvent where
  | process (e : ProcessEvent)
  /-- the program of process `i` traps at `epc` -/
  | trap (i : Nat) (c : Cpu Mem) (epc : UInt64)
  /-- the kernel writes to the registers of a program -/
  | registers (i k : Nat) (bs : List UInt8)

inductive SystemStep (img : KernelImage) (d : Sv39.Decoder) (handler : UInt64) :
    Machine → SystemEvent → Machine → Prop
  | process {s s' : Machine} {e : ProcessEvent} :
      FittingStep img s e s' → e.Respects handler →
        -- nor does it write into the code of the trampoline
        Mem.SameFrame s.st.mem s'.st.mem img.trampoline → SystemStep img d handler s (.process e) s'
  | trap {s : Machine} {i : Nat} {p : ProcessSpace} {c c' : Cpu Mem} {epc : UInt64} :
      s.procs[i]? = some p → p.zombie = false → InUser s p c →
        stepN (Sv39.bus d) Asm.alltraps.length (c.trap epc) = some c' →
          SystemStep img d handler s (.trap i c epc) (s.withMem c'.mem)
  | registers {s : Machine} {i k : Nat} {p : ProcessSpace} {bs : List UInt8} :
      s.procs[i]? = some p → p.zombie = false → k + bs.length ≤ 34 * 8 →
        SystemStep img d handler s (.registers i k bs)
          (s.withMem (s.st.mem.write (p.trapCxPpn * 4096 + k) bs))

/-- The invariant of the system. -/
structure System (img : KernelImage) (d : Sv39.Decoder) (len : Instr → UInt64) (handler : UInt64)
    (s : Machine) : Prop where
  walkable : Walkable img s
  ready : s.Ready handler
  code : HasTrampoline img d len s.st.mem

namespace System

variable {img : KernelImage} {d : Sv39.Decoder} {len : Instr → UInt64} {handler : UInt64}
  {s s' : Machine} {i : Nat} {p : ProcessSpace} {c : Cpu Mem}

/-- The traps of a process. -/
theorem trapSetting (h : System img d len handler s) (hp : p ∈ s.procs) (hz : p.zombie = false) :
    TrapSetting (Sv39.bus d) len (Elsewhere s.st.mem p.trapCxPpn) InContext
      (contextWord p.trapCxPpn) (UInt64.ofNat TRAMPOLINE) (UInt64.ofNat TRAP_CONTEXT)
      (UInt64.ofNat p.memorySet.token) (UInt64.ofNat s.kernel.token) :=
  h.walkable.trapSetting hp hz (h.ready p hp hz).context h.code

theorem trap (h : System img d len handler s) (hp : p ∈ s.procs) (hz : p.zombie = false)
    (hc : InUser s p c) (epc : UInt64) :
    ∃ c', Follows (Sv39.bus d) len Asm.alltraps (c.trap epc) c'
      ∧ Elsewhere s.st.mem p.trapCxPpn c'.mem
      ∧ Trapped InContext (contextWord p.trapCxPpn) (UInt64.ofNat TRAP_CONTEXT) (c.trap epc)
        c' := by
  have hready := h.ready p hp hz
  have hmem : (c.trap epc).mem = s.st.mem := hc.mem
  refine alltraps_follows (h.trapSetting hp hz) ?_ hc.stvec rfl hc.satp hc.sscratch ?_
    (satp_token h.walkable.ok.kernelOk.rootPpn_lt).1
  · rw [hmem]
    exact fun n _ => Mem.SameFrame.refl _ n
  · rw [hmem]
    exact hready.satp

/-- A change in the frame of a context that leaves the kernel's part. -/
theorem withMem (h : System img d len handler s) (hp : s.procs[i]? = some p)
    (hz : p.zombie = false) {m : Mem} (hm : Elsewhere s.st.mem p.trapCxPpn m)
    (hsatp : (p.context m).kernelSatp = (p.context s.st.mem).kernelSatp)
    (hsp : (p.context m).kernelSp = (p.context s.st.mem).kernelSp)
    (hhandler : (p.context m).trapHandler = (p.context s.st.mem).trapHandler) :
    System img d len handler (s.withMem m) := by
  have hpm := List.mem_of_getElem? hp
  have hcx := (h.ready p hpm hz).context
  refine ⟨h.walkable.withMem fun n hn => hm n (h.walkable.tables_ne hpm hcx hn), ?_, ?_⟩
  · intro q hq hzq
    have hq' : q ∈ s.procs := hq
    have hready := h.ready q hq' hzq
    obtain ⟨j, hj⟩ := List.mem_iff_getElem?.mp hq'
    by_cases hji : j = i
    · rw [hji, hp] at hj
      cases hj
      exact ⟨hready.context, hsatp.trans hready.satp, hsp.trans hready.sp,
        hhandler.trans hready.handler⟩
    · refine hready.congr (.refl q) (hm _ fun heq => ?_)
      have hown : p.trapCxPpn ∈ p.memorySet.frames := List.mem_append_right _ hcx.mem_dataPpns
      refine h.walkable.ok.frames_apart hp hj hji hown ?_
      rw [← heq]
      exact List.mem_append_right _ hready.context.mem_dataPpns
  · refine h.code.congr fun x hx hx' => hm img.trampoline ?_ x (by omega)
    intro heq
    refine h.walkable.ok.apart ?_
    rw [heq]
    exact Machine.Ok.mem_frames hpm (List.mem_append_right _ hcx.mem_dataPpns)

/-- What a trap leaves in memory. -/
theorem trapped_context {c' : Cpu Mem} {epc : UInt64} (hc : InUser s p c)
    (ht : Trapped InContext (contextWord p.trapCxPpn) (UInt64.ofNat TRAP_CONTEXT) (c.trap epc) c') :
    p.context c'.mem = (p.context s.st.mem).saved (c.trap epc) := by
  have hmem : (c.trap epc).mem = s.st.mem := hc.mem
  have hsaved := ht.saved
  rw [hmem] at hsaved
  exact hsaved

theorem step {e : SystemEvent} (h : System img d len handler s)
    (hs : SystemStep img d handler s e s') : System img d len handler s' := by
  cases hs with
  | process hstep hrespects htramp =>
      refine ⟨h.walkable.step hstep, (hrespects.carried h.walkable h.ready hstep).1, ?_⟩
      exact h.code.congr fun x hx hx' => htramp x (by omega)
  | @trap i p c c' epc hp hz hc hrun =>
      obtain ⟨c₁, hf, helse, ht⟩ := h.trap (List.mem_of_getElem? hp) hz hc epc
      rw [hf.stepN_eq] at hrun
      cases hrun
      obtain ⟨hsatp, hsp, hhandler⟩ := (p.context s.st.mem).saved_kernel (c.trap epc)
      rw [← trapped_context hc ht] at hsatp hsp hhandler
      exact h.withMem hp hz helse hsatp hsp hhandler
  | @registers i k p bs hp hz hlen =>
      obtain ⟨hsatp, hsp, hhandler⟩ := @context_kernel s.st.mem
        (s.st.mem.write (p.trapCxPpn * 4096 + k) bs) p fun j hj _ =>
          Mem.write_outside _ (by omega)
      refine h.withMem hp hz (fun n hn x hx => Mem.write_outside _ ?_) hsatp hsp hhandler
      omega

theorem boot (hboot : Machine.Boot img s) (hcode : HasTrampoline img d len s.st.mem) :
    System img d len handler s := by
  refine ⟨.boot hboot, fun p hp => ?_, hcode⟩
  obtain ⟨-, -, -, hprocs⟩ := hboot
  rw [hprocs] at hp
  exact absurd hp List.not_mem_nil

theorem runs {s₀ : Machine} {tr : List SystemEvent} (hboot : Machine.Boot img s₀)
    (hcode : HasTrampoline img d len s₀.st.mem) (hrun : Runs (SystemStep img d handler) s₀ tr s) :
    System img d len handler s :=
  hrun.invariant (boot hboot hcode) fun _ _ _ h hs => h.step hs

end System

/-! ## A program -/

namespace Machine

variable {img : KernelImage} {s : Machine} {ms : MemorySet} {parent : Option Nat}

/-- A program without segments is not copied over the trampoline. -/
theorem create_trampoline {cpu : TrapSetup} (h : s.Ok img) (hav : 12 ≤ s.st.alloc.available) :
    Meets (fun _ => True) (create img cpu ⟨[], [], 0⟩) s fun _ s' =>
      Mem.SameFrame s.st.mem s'.st.mem img.trampoline := by
  simp only [create]
  rw [Meets.bind_iff, onMemory_iff]
  refine ((fromElf_no_segments h.owns.wf rfl hav).weaken fun _ _ => trivial).mono ?_
  rintro ⟨ms, userSp, entry⟩ st₁ ⟨hok, htrap, hm, -⟩
  dsimp only at hok htrap hm ⊢
  have hsame := hm.same img.trampoline not_false h.free List.not_mem_nil
  obtain ⟨hholds, -⟩ := Holds.add h hok htrap (hm.weaken fun _ => False.elim)
  have hkernel : img.trampoline ∉ s.kernel.frames :=
    fun hmem => hholds.apart (List.mem_append_left _ hmem)
  rw [Meets.bind_iff]
  refine (newProcess_same (s := { s with st := st₁ }) hholds hholds.free hkernel).mono ?_
  rintro p s₁ ⟨hppn, hsame₁⟩
  rw [Meets.bind_iff, Meets.get_iff]
  refine (writeTrapCx_writes _ _ _).mono ?_
  rintro _ s₂ rfl
  have hne : p.trapCxPpn ≠ img.trampoline := by
    intro heq
    refine hholds.apart (List.mem_append_right _ (List.mem_append_left _ ?_))
    exact heq ▸ List.mem_append_right _ hppn
  refine hsame.trans (hsame₁.trans fun x hx => Mem.write_outside _ ?_)
  rw [length_bytes]
  omega

end Machine

/-- The kernel boots with the code of the trampoline in its place. -/
theorem exists_boot_trampoline : ∃ s₀, Machine.Boot default s₀
    ∧ HasTrampoline default Sv39.plain (fun _ => 4) s₀.st.mem
    ∧ (KernelImage.initFrameAllocator default).available ≤ s₀.st.alloc.available + 31 := by
  let m : Mem := Mem.write (fun _ => 0) ((default : KernelImage).trampoline * 4096 + 0)
    (Sv39.codeBytes (Asm.alltraps ++ Asm.restore))
  obtain ⟨s₀, hboot, himage, hav⟩ := exists_boot_image default m (by decide)
  have hplaced : HasTrampoline default Sv39.plain (fun _ => 4) m :=
    Sv39.placed_write _ (by decide) (by decide)
  refine ⟨s₀, hboot, hplaced.congr fun x hx hx' => himage x ?_ ?_, hav⟩
  · exact Nat.le_trans (by decide) hx
  · exact Nat.lt_of_lt_of_le hx' (by decide)

/-- A program is there after boot. -/
theorem exists_system : ∃ s₀ s p tr, Machine.Boot default s₀
    ∧ HasTrampoline default Sv39.plain (fun _ => 4) s₀.st.mem
    ∧ Runs (SystemStep default Sv39.plain 0) s₀ tr s ∧ p ∈ s.procs ∧ p.zombie = false := by
  obtain ⟨s₀, hboot, hcode, hav⟩ := exists_boot_trampoline
  have htotal : (KernelImage.initFrameAllocator default).available = 0x900 := by decide
  have hinv := PidInv.boot hboot
  have hsmall : SmallPid s₀.pids.alloc.1 := by
    rw [hboot.choose_spec.2.1]
    decide
  have hcreate := (@Machine.create_meets default _ s₀ ⟨0, 0⟩ ⟨[], [], 0⟩
    (fun _ st₁ => s₀.st.alloc.available ≤ st₁.alloc.available + 12) hinv.ok
    (hinv.stackFaults hsmall fun _ => False) ?_ ?_).and
      (Machine.create_trampoline hinv.ok (by omega))
  · obtain ⟨_, s, hs, ⟨ms, st₁, p, -, hspawn, -⟩, hsame⟩ := hcreate.exists_ok
    have hstep : SystemStep default Sv39.plain 0 s₀
        (.process (.lifecycle (.create ⟨0, 0⟩ ⟨[], [], 0⟩))) s := .process ⟨hs, trivial⟩ rfl hsame
    refine ⟨s₀, s, p, _, hboot, hcode, Runs.single hstep, ?_, hspawn.zombie⟩
    rw [hspawn.procs]
    exact List.mem_append_right _ (List.mem_singleton.mpr rfl)
  · refine (fromElf_no_segments hinv.ok.owns.wf rfl (by omega)).mono ?_
    rintro r st₁ ⟨hok, htrap, hm, hst₁, -⟩
    exact ⟨hok, htrap, hm.weaken fun _ => False.elim, hst₁⟩
  · intro ms st₁ hst₁ hlt
    omega

theorem exists_inUser (s : Machine) (p : ProcessSpace) : ∃ c, InUser s p c :=
  ⟨⟨fun _ => 7, fun k => if k = .satp then UInt64.ofNat p.memorySet.token
    else if k = .stvec then UInt64.ofNat TRAMPOLINE else UInt64.ofNat TRAP_CONTEXT,
    .user, 0x10000, s.st.mem⟩, rfl, rfl, rfl, rfl, rfl⟩

/-! ## Into the kernel -/

/-- In every state that the events lead to, a trap of a running program ends in the handler, with
    the program's registers in its context. -/
theorem trap_entry {img : KernelImage} {d : Sv39.Decoder} {len : Instr → UInt64}
    {handler : UInt64} {s₀ s : Machine} {tr : List SystemEvent} (hboot : Machine.Boot img s₀)
    (hcode : HasTrampoline img d len s₀.st.mem) (hrun : Runs (SystemStep img d handler) s₀ tr s)
    {p : ProcessSpace} (hp : p ∈ s.procs) (hz : p.zombie = false) {c : Cpu Mem}
    (hc : InUser s p c) (epc : UInt64) :
    ∃ c', stepN (Sv39.bus d) Asm.alltraps.length (c.trap epc) = some c'
      ∧ InHandler s p handler c'
      ∧ p.context c'.mem = { p.context s.st.mem with
          x := Vector.ofFn fun r : Reg =>
            if r = Reg.x0 ∨ r = Reg.x4 then (p.context s.st.mem).x.get r else c.get r
          sstatus := Status.trap (c.csr .sstatus)
          sepc := epc }
      ∧ (∀ r, r ∉ [Reg.sp, Reg.t0, Reg.t1, Reg.t2] → c'.get r = c.get r)
      ∧ Elsewhere s.st.mem p.trapCxPpn c'.mem
      ∧ ∀ a, InContext a → ¬ TrapSlot (UInt64.ofNat TRAP_CONTEXT) a →
        contextWord p.trapCxPpn c'.mem a = contextWord p.trapCxPpn s.st.mem a := by
  have h := System.runs hboot hcode hrun
  have hready := h.ready p hp hz
  obtain ⟨c', hf, helse, ht⟩ := h.trap hp hz hc epc
  have hmem : (c.trap epc).mem = s.st.mem := hc.mem
  have hold : TrapContext.inMemory (contextWord p.trapCxPpn) (c.trap epc).mem
      (UInt64.ofNat TRAP_CONTEXT) = p.context s.st.mem := by
    rw [hmem]
    rfl
  refine ⟨c', hf.stepN_eq, ⟨ht.mode, ?_, ?_, ?_⟩, System.trapped_context hc ht, ht.get, helse, ?_⟩
  · rw [ht.satp, hold, hready.satp]
  · rw [ht.sp, hold, hready.sp]
  · rw [ht.pc, hold, hready.handler]
  · intro a ha hne
    rw [ht.others a ha hne, hmem]

/-- A system call of the first program. -/
theorem trap_entry_program : ∃ s p c c', InUser s p c
    ∧ stepN (Sv39.bus Sv39.plain) Asm.alltraps.length (c.trap c.pc) = some c'
    ∧ InHandler s p 0 c' := by
  obtain ⟨s₀, s, p, tr, hboot, hcode, hrun, hp, hz⟩ := exists_system
  obtain ⟨c, hc⟩ := exists_inUser s p
  obtain ⟨c', hrun', hin, -⟩ := trap_entry hboot hcode hrun hp hz hc c.pc
  exact ⟨s, p, c, c', hc, hrun', hin⟩

/-! ## Back to the program -/

/-- The event is about the process `pid`. -/
def SystemEvent.About (s : Machine) (pid : Nat) : SystemEvent → Prop
  | .process e => ∃ j q, e.Touches j ∧ s.procs[j]? = some q ∧ q.pid = pid
  | .trap i _ _ => ∃ q, s.procs[i]? = some q ∧ q.pid = pid
  | .registers i _ _ => ∃ q, s.procs[i]? = some q ∧ q.pid = pid

/-- A step that is not about `pid`. -/
def QuietStep (img : KernelImage) (d : Sv39.Decoder) (handler : UInt64) (pid : Nat) (s : Machine)
    (e : SystemEvent) (s' : Machine) : Prop :=
  SystemStep img d handler s e s' ∧ ¬ e.About s pid

/-- At `__restore`, called by `trap_return` for `p`. -/
structure AtRestore (len : Instr → UInt64) (s : Machine) (p : ProcessSpace) (c : Cpu Mem) :
    Prop where
  mem : c.mem = s.st.mem
  mode : c.mode = .supervisor
  satp : c.csr .satp = UInt64.ofNat s.kernel.token
  stvec : c.csr .stvec = UInt64.ofNat TRAMPOLINE
  pc : c.pc = UInt64.ofNat TRAMPOLINE + size len Asm.alltraps
  trapCxPtr : c.get Reg.a0 = UInt64.ofNat TRAP_CONTEXT
  userSatp : c.get Reg.a1 = UInt64.ofNat p.memorySet.token

namespace System

variable {img : KernelImage} {d : Sv39.Decoder} {len : Instr → UInt64} {handler : UInt64}
  {s s' : Machine} {p : ProcessSpace} {c : Cpu Mem}

/-- The registers of a process stay where they are while the system does other things. -/
theorem quiet {e : SystemEvent} (h : System img d len handler s) (hp : p ∈ s.procs)
    (hz : p.zombie = false) (hs : QuietStep img d handler p.pid s e s') :
    ∃ q ∈ s'.procs, p.Same q ∧ q.context s'.st.mem = p.context s.st.mem := by
  obtain ⟨j, hj⟩ := List.mem_iff_getElem?.mp hp
  have hcx := (h.ready p hp hz).context
  have hown : p.trapCxPpn ∈ p.memorySet.frames := List.mem_append_right _ hcx.mem_dataPpns
  obtain ⟨hstep, hnot⟩ := hs
  -- another process does not change the frame of this context
  have hother : ∀ (i : Nat) (q : ProcessSpace), s.procs[i]? = some q → q.pid ≠ p.pid →
      q.zombie = false → p.trapCxPpn ≠ q.trapCxPpn := by
    intro i q hi hne hzq heq
    have hqcx := (h.ready q (List.mem_of_getElem? hi) hzq).context
    have hji : j ≠ i := by
      rintro rfl
      rw [hi] at hj
      cases hj
      exact hne rfl
    refine h.walkable.ok.frames_apart hi hj hji (n := q.trapCxPpn) ?_ (heq ▸ hown)
    exact List.mem_append_right _ hqcx.mem_dataPpns
  cases hstep with
  | @process _ e hstep hrespects _ =>
      have hj' : ¬ e.Touches j := fun ht => hnot ⟨j, p, ht, hj, rfl⟩
      obtain ⟨-, hcarries, hspares⟩ := hrespects.carried h.walkable h.ready hstep
      obtain ⟨q, hq, hsame⟩ := hcarries.procs j p hj' hj
      exact ⟨q, hq, hsame, context_sameFrame hsame.trapCxPpn (hspares j p hj' hj _ hown)⟩
  | @trap i q c c' epc hi hzq hc hrun =>
      obtain ⟨c₁, hf, helse, -⟩ := h.trap (List.mem_of_getElem? hi) hzq hc epc
      rw [hf.stepN_eq] at hrun
      cases hrun
      have hne := hother i q hi (fun heq => hnot ⟨q, hi, heq⟩) hzq
      exact ⟨p, hp, .refl p, context_sameFrame rfl (helse _ hne)⟩
  | @registers i k q bs hi hzq hlen =>
      have hne := hother i q hi (fun heq => hnot ⟨q, hi, heq⟩) hzq
      refine ⟨p, hp, .refl p, context_sameFrame rfl fun x hx => Mem.write_outside _ ?_⟩
      omega

theorem quiet_runs {tr : List SystemEvent} (h : System img d len handler s) (hp : p ∈ s.procs)
    (hz : p.zombie = false) (hrun : Runs (QuietStep img d handler p.pid) s tr s') :
    System img d len handler s'
      ∧ ∃ q ∈ s'.procs, p.Same q ∧ q.context s'.st.mem = p.context s.st.mem := by
  refine hrun.invariant (I := fun s' => System img d len handler s'
    ∧ ∃ q ∈ s'.procs, p.Same q ∧ q.context s'.st.mem = p.context s.st.mem)
    ⟨h, p, hp, .refl p, rfl⟩ ?_
  rintro t e t' ⟨ht, q, hq, hsame, hcx⟩ hs
  obtain ⟨r, hr, hsame', hcx'⟩ := ht.quiet hq (hsame.zombie.trans hz) (hsame.pid.symm ▸ hs)
  exact ⟨ht.step hs.1, r, hr, hsame.trans hsame', hcx'.trans hcx⟩

/-- `__restore` brings the program back. -/
theorem restore (h : System img d len handler s) (hp : p ∈ s.procs) (hz : p.zombie = false)
    (hc : AtRestore len s p c) :
    ∃ c', stepN (Sv39.bus d) Asm.restore.length c = some c'
      ∧ Restored (contextWord p.trapCxPpn) (UInt64.ofNat TRAP_CONTEXT)
        (UInt64.ofNat p.memorySet.token) c c' := by
  have hroot := (h.walkable.walked hp hz).root
  have helse : Elsewhere s.st.mem p.trapCxPpn c.mem := by
    rw [hc.mem]
    exact fun n _ => Mem.SameFrame.refl _ n
  obtain ⟨c', hf, hr⟩ := restore_follows (h.trapSetting hp hz) helse hc.pc hc.mode hc.satp
    hc.trapCxPtr hc.userSatp (satp_token hroot).1
  exact ⟨c', hf.stepN_eq, hr⟩

end System

/-- A trap returns to user mode: `SPP` says where it came from. -/
theorem previous_trap (v : UInt64) : Status.previous (Status.trap v) = .user := by
  have hmask : ~~~(Status.SIE ||| Status.SPIE ||| Status.SPP) &&& Status.SPP = 0 := by decide
  have hspie : (if v &&& Status.SIE = 0 then 0 else Status.SPIE) &&& Status.SPP = 0 := by
    split
    · decide
    · decide
  refine if_pos ?_
  refine UInt64.toBitVec_inj.mp ?_
  have hbits := congrArg UInt64.toBitVec hmask
  have hbits' := congrArg UInt64.toBitVec hspie
  rw [UInt64.toBitVec_and] at hbits hbits'
  rw [Status.trap, UInt64.toBitVec_and, UInt64.toBitVec_or, UInt64.toBitVec_and,
    BitVec.and_or_distrib_right, BitVec.and_assoc, hbits, hbits']
  simp

theorem exists_atRestore (len : Instr → UInt64) (s : Machine) (p : ProcessSpace) :
    ∃ c, AtRestore len s p c :=
  ⟨⟨fun r => if r = Reg.a0 then UInt64.ofNat TRAP_CONTEXT else UInt64.ofNat p.memorySet.token,
    fun k => if k = .satp then UInt64.ofNat s.kernel.token else UInt64.ofNat TRAMPOLINE,
    .supervisor, UInt64.ofNat TRAMPOLINE + size len Asm.alltraps, s.st.mem⟩,
    rfl, rfl, rfl, rfl, rfl, rfl, rfl⟩

/-- A program that trapped gets its registers back, whatever happens to the other processes in
    between; `x4` is the kernel's. -/
theorem trap_return {img : KernelImage} {d : Sv39.Decoder} {len : Instr → UInt64}
    {handler : UInt64} {s₀ s t : Machine} {tr tr' : List SystemEvent} (hboot : Machine.Boot img s₀)
    (hcode : HasTrampoline img d len s₀.st.mem) (hrun : Runs (SystemStep img d handler) s₀ tr s)
    {p : ProcessSpace} (hp : p ∈ s.procs) (hz : p.zombie = false) {c c' : Cpu Mem}
    (hc : InUser s p c) {epc : UInt64}
    (htrap : stepN (Sv39.bus d) Asm.alltraps.length (c.trap epc) = some c')
    (hquiet : Runs (QuietStep img d handler p.pid) (s.withMem c'.mem) tr' t) :
    ∃ q ∈ t.procs, p.Same q ∧ ∀ c₁, AtRestore len t q c₁ →
      ∃ c₂, stepN (Sv39.bus d) Asm.restore.length c₁ = some c₂ ∧ InUser t q c₂
        ∧ c₂.pc = epc &&& ~~~1 ∧ (∀ r, r ≠ 4 → c₂.get r = c.get r) ∧ c₂.get 4 = c₁.get 4
        ∧ c₂.csr .sstatus = Status.sret (Status.trap (c.csr .sstatus)) := by
  have h := System.runs hboot hcode hrun
  obtain ⟨i, hi⟩ := List.mem_iff_getElem?.mp hp
  obtain ⟨c₀, hf, -, ht⟩ := h.trap hp hz hc epc
  have htrapped : c₀ = c' := Option.some.inj (hf.stepN_eq.symm.trans htrap)
  subst htrapped
  have h₁ := h.step (.trap hi hz hc htrap)
  have hp₁ : p ∈ (s.withMem c₀.mem).procs := hp
  obtain ⟨h₂, q, hq, hsame, hcx⟩ := h₁.quiet_runs hp₁ hz hquiet
  have hsaved : q.context t.st.mem = (p.context s.st.mem).saved (c.trap epc) :=
    hcx.trans (System.trapped_context hc ht)
  refine ⟨q, hq, hsame, fun c₁ hat => ?_⟩
  obtain ⟨c₂, hrun₂, hr⟩ := h₂.restore hq (hsame.zombie.trans hz) hat
  have hctx : TrapContext.inMemory (contextWord q.trapCxPpn) c₁.mem (UInt64.ofNat TRAP_CONTEXT)
      = (p.context s.st.mem).saved (c.trap epc) := by
    rw [hat.mem]
    exact hsaved
  refine ⟨c₂, hrun₂, ⟨?_, ?_, hr.satp, ?_, hr.sscratch⟩, ?_, ?_, hr.tp, ?_⟩
  · rw [hr.mem, hat.mem]
  · rw [hr.mode, hctx]
    exact previous_trap _
  · rw [hr.stvec, hat.stvec]
  · rw [hr.pc, hctx]
    rfl
  · intro r hr₄
    by_cases hr₀ : r = 0
    · rw [hr₀, Cpu.get, if_pos rfl, Cpu.get, if_pos rfl]
    · rw [hr.get r hr₀ hr₄, hctx, TrapContext.get_saved, if_neg (by simp [hr₀, hr₄])]
      rfl
  · rw [hr.sstatus, hctx]
    rfl

/-- The return from it. -/
theorem trap_return_program : ∃ t q c c₁ c₂, AtRestore (fun _ => 4) t q c₁
    ∧ stepN (Sv39.bus Sv39.plain) Asm.restore.length c₁ = some c₂ ∧ InUser t q c₂
    ∧ ∀ r : Reg, r ≠ 4 → c₂.get r = (c : Cpu Mem).get r := by
  obtain ⟨s₀, s, p, tr, hboot, hcode, hrun, hp, hz⟩ := exists_system
  obtain ⟨c, hc⟩ := exists_inUser s p
  obtain ⟨c', hf, -⟩ := (System.runs hboot hcode hrun).trap hp hz hc c.pc
  obtain ⟨q, -, -, hback⟩ :=
    trap_return hboot hcode hrun hp hz hc hf.stepN_eq (Runs.nil (s.withMem c'.mem))
  obtain ⟨c₁, hat⟩ := exists_atRestore (fun _ => 4) (s.withMem c'.mem) q
  obtain ⟨c₂, hrun₂, hin, -, hget, -⟩ := hback c₁ hat
  exact ⟨_, q, c, c₁, c₂, hat, hrun₂, hin, hget⟩

end Nimloth
