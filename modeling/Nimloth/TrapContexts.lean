import Nimloth.Trampoline

/-!
# Trap contexts

What the kernel puts into the trap context of a process for its traps:
its own page tables, the top of the kernel stack of that process, and the
trap handler (`ProcessSpace.Ready`). That survives whatever the processes
do, as long as the kernel does not write through a user pointer into the
context (`ProcessEvent.Respects`).
-/

namespace Nimloth

open Outcome RiscV PageTable MemorySet

/-! ## Contexts in memory -/

section Context

variable {m m' : Mem} {f k : Nat} {p q : ProcessSpace}

theorem contextWord_trapSlot (hk : k < 37) :
    contextWord f m (trapSlot (UInt64.ofNat TRAP_CONTEXT) k) = Sv39.word m (f * 4096 + 8 * k) := by
  have hmod : (TRAP_CONTEXT + 8 * k) % 4096 = 8 * k := by
    have hval : TRAP_CONTEXT = 4096 * (2 ^ 52 - 2) := by decide
    rw [hval, Nat.mul_add_mod]
    omega
  rw [contextWord, trapSlot_toNat hk, hmod]

theorem context_congr
    (hs : ∀ j, j < 296 → m' (q.trapCxPpn * 4096 + j) = m (p.trapCxPpn * 4096 + j)) :
    q.context m' = p.context m := by
  rw [ProcessSpace.context, ProcessSpace.context]
  refine TrapContext.inMemory_congr fun a ha => ?_
  obtain ⟨k, hk, rfl⟩ := ha
  rw [contextWord_trapSlot hk, contextWord_trapSlot hk, Sv39.word, Sv39.word]
  congr 2
  refine List.ext_getElem (by simp) fun j hj _ => ?_
  rw [Mem.length_read] at hj
  rw [Mem.getElem_read, Mem.getElem_read, Nat.add_assoc, Nat.add_assoc]
  exact hs _ (by omega)

theorem context_sameFrame (hppn : q.trapCxPpn = p.trapCxPpn)
    (hs : Mem.SameFrame m m' p.trapCxPpn) : q.context m' = p.context m :=
  context_congr fun j hj => hppn ▸ hs _ (by omega)

/-- Frames with the same bytes hold the same context. -/
theorem context_frame (h : m'.frame q.trapCxPpn = m.frame p.trapCxPpn) :
    q.context m' = p.context m := by
  refine context_congr fun j hj => ?_
  have hlen : ∀ (m : Mem) (n : Nat), j < (m.frame n).length := fun m n => by
    rw [Mem.length_frame]
    omega
  have hget := congrArg (fun bs : List UInt8 => bs[j]?) h
  rw [List.getElem?_eq_getElem (hlen _ _), List.getElem?_eq_getElem (hlen _ _)] at hget
  have hbyte := Option.some.inj hget
  simp only [Mem.frame] at hbyte
  rwa [Mem.getElem_read, Mem.getElem_read] at hbyte

/-- The words of a context. -/
def TrapContext.words (cx : TrapContext) : List UInt64 :=
  cx.x.toList ++ [cx.sstatus, cx.sepc, cx.kernelSatp, cx.kernelSp, cx.trapHandler]

/-- A context that was written is there. -/
theorem context_write (p : ProcessSpace) (m : Mem) (cx : TrapContext) :
    p.context (m.write (p.trapCxPpn * 4096) cx.bytes) = cx := by
  have hlen : cx.words.length = 37 := by simp [TrapContext.words]
  have hbytes : cx.bytes = Sv39.wordBytes cx.words := rfl
  have hword : ∀ k, k < 37 → cx.words[k]? = some (contextWord p.trapCxPpn
      (m.write (p.trapCxPpn * 4096) cx.bytes) (trapSlot (UInt64.ofNat TRAP_CONTEXT) k)) := by
    intro k hk
    rw [contextWord_trapSlot hk, hbytes, Sv39.word_write_words _ _ (by omega)]
    exact List.getElem?_eq_getElem (by omega)
  have hx : (Vector.ofFn fun i : Reg => contextWord p.trapCxPpn
      (m.write (p.trapCxPpn * 4096) cx.bytes) (trapSlot (UInt64.ofNat TRAP_CONTEXT) i)) = cx.x := by
    refine Vector.ext fun i hi => ?_
    rw [Vector.getElem_ofFn]
    refine Option.some.inj ((hword i (by omega)).symm.trans ?_)
    rw [TrapContext.words, List.getElem?_append_left (by simpa using hi)]
    simp [hi]
  have hlast : ∀ k, k < 5 → [cx.sstatus, cx.sepc, cx.kernelSatp, cx.kernelSp, cx.trapHandler][k]?
      = some (contextWord p.trapCxPpn (m.write (p.trapCxPpn * 4096) cx.bytes)
        (trapSlot (UInt64.ofNat TRAP_CONTEXT) (32 + k))) := by
    intro k hk
    rw [← hword (32 + k) (by omega), TrapContext.words, List.getElem?_append_right (by simp)]
    simp
  rw [ProcessSpace.context, TrapContext.inMemory, hx,
    ← Option.some.inj (hlast 0 (by decide)), ← Option.some.inj (hlast 1 (by decide)),
    ← Option.some.inj (hlast 2 (by decide)), ← Option.some.inj (hlast 3 (by decide)),
    ← Option.some.inj (hlast 4 (by decide))]

/-- The kernel's part is in the last three words. -/
theorem context_kernel (p : ProcessSpace)
    (hs : ∀ j, 272 ≤ j → j < 296 → m' (p.trapCxPpn * 4096 + j) = m (p.trapCxPpn * 4096 + j)) :
    (p.context m').kernelSatp = (p.context m).kernelSatp
      ∧ (p.context m').kernelSp = (p.context m).kernelSp
      ∧ (p.context m').trapHandler = (p.context m).trapHandler := by
  have hword : ∀ l, 34 ≤ l → l < 37 →
      contextWord p.trapCxPpn m' (trapSlot (UInt64.ofNat TRAP_CONTEXT) l)
        = contextWord p.trapCxPpn m (trapSlot (UInt64.ofNat TRAP_CONTEXT) l) := by
    intro l hl hl'
    rw [contextWord_trapSlot hl', contextWord_trapSlot hl']
    refine Sv39.word_congr fun j hj => ?_
    rw [Nat.add_assoc]
    exact hs _ (by omega) (by omega)
  simp only [ProcessSpace.context, TrapContext.inMemory]
  exact ⟨hword 34 (by decide) (by decide), hword 35 (by decide) (by decide),
    hword 36 (by decide) (by decide)⟩

/-- A new `kernel_sp`. -/
theorem context_kernelSp (p : ProcessSpace) (m : Mem) {sp : Nat} (hsp : sp < 2 ^ 64) :
    p.context (m.write (p.trapCxPpn * 4096 + 35 * 8) (leBytes 8 sp))
      = { p.context m with kernelSp := UInt64.ofNat sp } := by
  have hset : m.write (p.trapCxPpn * 4096 + 35 * 8) (leBytes 8 sp)
      = Sv39.setWord m (p.trapCxPpn * 4096 + 8 * 35) (UInt64.ofNat sp) := by
    rw [Sv39.setWord, UInt64.toNat_ofNat', Nat.mod_eq_of_lt hsp]
  have hother : ∀ k, k < 37 → k ≠ 35 → contextWord p.trapCxPpn
      (Sv39.setWord m (p.trapCxPpn * 4096 + 8 * 35) (UInt64.ofNat sp))
        (trapSlot (UInt64.ofNat TRAP_CONTEXT) k)
      = contextWord p.trapCxPpn m (trapSlot (UInt64.ofNat TRAP_CONTEXT) k) := by
    intro k hk hne
    rw [contextWord_trapSlot hk, contextWord_trapSlot hk]
    exact Sv39.word_setWord_of_disjoint m _ (by omega)
  have hx : (Vector.ofFn fun i : Reg => contextWord p.trapCxPpn
      (Sv39.setWord m (p.trapCxPpn * 4096 + 8 * 35) (UInt64.ofNat sp))
        (trapSlot (UInt64.ofNat TRAP_CONTEXT) i))
      = Vector.ofFn fun i : Reg => contextWord p.trapCxPpn m
        (trapSlot (UInt64.ofNat TRAP_CONTEXT) i) :=
    congrArg Vector.ofFn (funext fun i => hother i (by omega) (by omega))
  have hself := Sv39.word_setWord m (p.trapCxPpn * 4096 + 8 * 35) (UInt64.ofNat sp)
  rw [← contextWord_trapSlot (by decide)] at hself
  rw [hset, ProcessSpace.context, ProcessSpace.context, TrapContext.inMemory, TrapContext.inMemory,
    hx, hself, hother 32 (by decide) (by decide), hother 33 (by decide) (by decide),
    hother 34 (by decide) (by decide), hother 36 (by decide) (by decide)]

end Context

/-! ## The page table of the kernel -/

section Root

variable {st : MemState} {pt : PageTable} {ms : MemorySet} {a : MapArea}

theorem PageTable.createLoop_root (js : List Nat) (n : Nat) :
    Meets (fun _ => True) (createLoop pt n js) st fun r _ => r.1.rootPpn = pt.rootPpn := by
  induction js generalizing st pt n with
  | nil => exact Meets.stop_iff.mpr trivial
  | cons j js ih =>
      cases js with
      | nil => exact Meets.pure_iff.mpr rfl
      | cons k js =>
          rw [createLoop, Meets.bind_iff, Meets.get_iff]
          split
          · exact ih _
          · simp only [Meets.bind_iff, Meets.modify_iff, Meets.get_iff]
            exact Meets.trivial.mono fun f _ _ => ih _

theorem PageTable.map_root (vpn ppn : Nat) (flags : PTEFlags) :
    Meets (fun _ => True) (pt.map vpn ppn flags) st fun pt' _ => pt'.rootPpn = pt.rootPpn := by
  simp only [PageTable.map, findPteCreate, Meets.bind_iff]
  refine (createLoop_root _ _).mono fun r st₁ h => ?_
  simp only [Meets.get_iff, Meets.ensure_iff, Meets.set_iff, Meets.pure_iff]
  exact ⟨fun _ => h, fun _ => trivial⟩

theorem MapArea.mapOne_root (vpn : Nat) :
    Meets (fun _ => True) (a.mapOne pt vpn) st fun r _ => r.2.rootPpn = pt.rootPpn := by
  unfold mapOne
  cases a.mapType with
  | identical =>
      dsimp only
      rw [Meets.bind_iff]
      exact (PageTable.map_root _ _ _).mono fun _ _ h => Meets.pure_iff.mpr h
  | framed =>
      simp only [Meets.bind_iff]
      refine Meets.trivial.mono fun f _ _ => Meets.trivial.mono fun _ _ _ => ?_
      exact (PageTable.map_root _ _ _).mono fun _ _ h => Meets.pure_iff.mpr h

theorem MapArea.mapPages_root (vpns : List Nat) :
    Meets (fun _ => True) (a.mapPages pt vpns) st fun r _ => r.2.rootPpn = pt.rootPpn := by
  induction vpns generalizing st pt a with
  | nil => exact Meets.pure_iff.mpr rfl
  | cons v vs ih =>
      rw [mapPages, Meets.bind_iff]
      exact (mapOne_root v).mono fun r _ h => ih.mono fun _ _ h' => h'.trans h

theorem kernelStack_new_root (pid : Nat) :
    Meets (fun _ => True) (KernelStack.new ms pid) st fun ms' _ =>
      ms'.pageTable.rootPpn = ms.pageTable.rootPpn := by
  simp only [KernelStack.new, insertFramedArea, pushNew, pushArea, MapArea.map, Meets.bind_iff]
  refine Meets.trivial.mono fun area _ _ => (MapArea.mapPages_root _).mono fun r _ h => ?_
  exact Meets.pure_iff.mpr h

theorem kernelStack_drop_root (pid : Nat) :
    Meets (fun _ => True) (KernelStack.drop ms pid) st fun ms' _ =>
      ms'.pageTable.rootPpn = ms.pageTable.rootPpn := by
  simp only [KernelStack.drop, Meets.bind_iff, Meets.ensure_iff]
  refine ⟨fun _ => ?_, fun _ => trivial⟩
  unfold removeAreaWithStartVpn
  split
  · exact Meets.pure_iff.mpr rfl
  · split
    · exact Meets.pure_iff.mpr rfl
    · simp only [Meets.bind_iff]
      exact Meets.trivial.mono fun _ _ _ => Meets.trivial.mono fun _ _ _ => Meets.pure_iff.mpr rfl

end Root

/-! ## What the kernel needs for a trap -/

/-- The kernel's part of the context is in place. -/
structure ProcessSpace.Ready (p : ProcessSpace) (m : Mem) (token : Nat) (handler : UInt64) :
    Prop where
  context : p.HasContext
  satp : (p.context m).kernelSatp = UInt64.ofNat token
  sp : (p.context m).kernelSp = UInt64.ofNat (kernelStackPosition p.pid).2
  handler : (p.context m).trapHandler = handler

def Machine.Ready (handler : UInt64) (s : Machine) : Prop :=
  ∀ p ∈ s.procs, p.zombie = false → p.Ready s.st.mem s.kernel.token handler

/-- A process that at most got another parent. -/
structure ProcessSpace.Same (p q : ProcessSpace) : Prop where
  pid : q.pid = p.pid
  memorySet : q.memorySet = p.memorySet
  trapCxPpn : q.trapCxPpn = p.trapCxPpn
  zombie : q.zombie = p.zombie

theorem ProcessSpace.Same.refl (p : ProcessSpace) : p.Same p := ⟨rfl, rfl, rfl, rfl⟩

theorem ProcessSpace.Same.trans {p q r : ProcessSpace} (h : p.Same q) (h' : q.Same r) :
    p.Same r where
  pid := h'.pid.trans h.pid
  memorySet := h'.memorySet.trans h.memorySet
  trapCxPpn := h'.trapCxPpn.trans h.trapCxPpn
  zombie := h'.zombie.trans h.zombie

theorem ProcessSpace.Ready.congr {p q : ProcessSpace} {m m' : Mem} {token : Nat} {handler : UInt64}
    (h : p.Ready m token handler) (hs : p.Same q) (hm : Mem.SameFrame m m' p.trapCxPpn) :
    q.Ready m' token handler := by
  have hcx := context_sameFrame hs.trapCxPpn hm
  refine ⟨?_, ?_, ?_, ?_⟩
  · rw [ProcessSpace.HasContext, hs.memorySet, hs.trapCxPpn]
    exact h.context
  · rw [hcx]
    exact h.satp
  · rw [hcx, hs.pid]
    exact h.sp
  · rw [hcx]
    exact h.handler

namespace Machine

variable {img : KernelImage} {s s' : Machine} {ms : MemorySet} {parent : Option Nat} {i : Nat}
  {handler : UInt64}

/-- What an event leaves of the processes it is not about, and of the kernel's page table. -/
structure Carries (s s' : Machine) (but : Nat → Prop) : Prop where
  token : s'.kernel.token = s.kernel.token
  procs : ∀ j q, ¬ but j → s.procs[j]? = some q → ∃ q' ∈ s'.procs, q.Same q'

theorem token_of_root {ms ms' : MemorySet} (h : ms'.pageTable.rootPpn = ms.pageTable.rootPpn) :
    ms'.token = ms.token := by
  rw [MemorySet.token, MemorySet.token, PageTable.token, PageTable.token, h]

theorem writeTrapCx_writes (ppn k : Nat) (bs : List UInt8) :
    Meets (fun _ => True) (onMemory .space (writeTrapCx ppn k bs)) s fun _ s' =>
      s' = { s with st := { s.st with mem := s.st.mem.write (ppn * 4096 + k) bs } } := by
  rw [onMemory_iff, writeTrapCx, Meets.bind_iff, Meets.ensure_iff]
  exact ⟨fun _ => Meets.modify_iff.mpr rfl, fun _ => trivial⟩

theorem findTrapCx_context {tramp : Nat} {st : MemState} (h : Writable tramp st.mem ms)
    (htrap : HasTrapContext ms) :
    Meets (fun _ => True) (findTrapCx ms) st fun ppn st' => st' = st ∧ ms.ContextAt ppn := by
  obtain ⟨a, ha, hav, hperm⟩ := htrap
  obtain ⟨n, e, hn, hmem, hlook, -, hppn⟩ := framed_page h.space ha (h.framed a ha) hav h.lt
  simp only [findTrapCx, Meets.bind_iff, Meets.get_iff]
  rw [floor_trapContext, MemorySet.translate, translate_of_lookup hlook, Meets.unwrap_some]
  exact Meets.pure_iff.mpr ⟨rfl, a, ha, hperm, hppn ▸ mem_of_lookup hn⟩

/-- The new process has its context in its own frame; the page table of the kernel is the same. -/
theorem newProcess_context (h : Holds img s.st s.kernel ((ms, false) :: s.sets)) :
    Meets (fun _ => True) (newProcess ms parent) s fun p s' =>
      s'.kernel.token = s.kernel.token ∧ s'.procs = s.procs ++ [p] ∧ p.memorySet = ms
        ∧ p.zombie = false ∧ p.HasContext
        ∧ ∀ n ∈ ms.frames, Mem.SameFrame s.st.mem s'.st.mem n := by
  have hx : (ms, false) ∈ (ms, false) :: s.sets := List.mem_cons_self
  simp only [newProcess, pidAlloc, newKernelStack, Meets.bind_iff, onMemory_iff]
  refine (findTrapCx_context (h.writable hx) ((h.sets _ hx).trapCx rfl)).mono ?_
  rintro ppn st₀ ⟨rfl, hppn⟩
  simp only [Meets.get_iff, Meets.set_iff, Meets.pure_iff]
  refine ((kernelStack_new_meets (X := Stray img.trampoline) (E := fun _ => True) h.kernelOk
    (fun _ _ => trivial) (fun _ => trivial) fun _ => trivial).and (kernelStack_new_root _)).mono ?_
  rintro kernel' st₁ ⟨⟨hk, hm, -⟩, hroot⟩
  obtain ⟨-, hsame⟩ := h.changeKernel hk hm
  simp only [Meets.modify_iff]
  refine ⟨token_of_root hroot, trivial, trivial, trivial, hppn, fun n hn => hsame n ?_⟩
  rw [Sets.frames_cons]
  exact List.mem_append_left _ hn

theorem create_context {cpu : TrapSetup} {elf : Elf} (h : s.Ok img) :
    Meets (fun _ => True) (create img cpu elf) s fun _ s' =>
      s'.kernel.token = s.kernel.token ∧ ∃ p userSp entry, s'.procs = s.procs ++ [p]
        ∧ p.zombie = false ∧ p.HasContext ∧ p.context s'.st.mem
          = TrapContext.appInitContext cpu entry userSp s.kernel.token
            (kernelStackPosition p.pid).2 := by
  simp only [create]
  rw [Meets.bind_iff, onMemory_iff]
  refine (fromElf_meets (X := Stray img.trampoline) h.owns.wf).mono ?_
  rintro ⟨ms, userSp, entry⟩ st₁ ⟨hok, htrap, hm⟩
  dsimp only at hok htrap hm ⊢
  obtain ⟨hholds, -⟩ := Holds.add h hok htrap hm
  rw [Meets.bind_iff]
  refine (newProcess_context (s := { s with st := st₁ }) hholds).mono ?_
  rintro p s₁ ⟨htoken, hprocs, -, hz, hcx, -⟩
  rw [Meets.bind_iff, Meets.get_iff]
  refine (writeTrapCx_writes _ _ _).mono ?_
  rintro _ s₂ rfl
  refine ⟨htoken, p, userSp, entry, hprocs, hz, hcx, ?_⟩
  rw [Nat.add_zero, context_write, htoken]

/-- The child has the context of its parent, but for its own kernel stack. -/
theorem fork_context (h : s.Ok img) (hcx : ∀ p ∈ s.procs, p.zombie = false → p.HasContext) :
    Meets (fun _ => True) (fork img i) s fun _ s' =>
      s'.kernel.token = s.kernel.token ∧ ∃ q p, s.procs[i]? = some q ∧ q.zombie = false
        ∧ s'.procs = s.procs ++ [p] ∧ p.zombie = false ∧ p.HasContext
        ∧ p.context s'.st.mem = { q.context s.st.mem with
            kernelSp := UInt64.ofNat (kernelStackPosition p.pid).2 } := by
  rw [fork, Meets.bind_iff]
  refine (running_meets fun _ => trivial).mono ?_
  rintro q s₀ ⟨rfl, hq, hz⟩
  have hqm := List.mem_of_getElem? hq
  have hx : (q.memorySet, false) ∈ s₀.sets := hz ▸ mem_sets hqm
  have huser := Holds.userOk h hx
  rw [Meets.bind_iff, onMemory_iff]
  refine (fromExistedUser_meets (E := fun _ => True) huser.toOk huser.framed
    fun _ => trivial).mono ?_
  rintro ms st₁ ⟨hfork, -⟩
  have hframed : ∀ c ∈ ms.areas, c.mapType = .framed := by
    intro c hc
    obtain ⟨a, ha, hac⟩ := exists_left_of_forall₂ hfork.areas hc
    exact hac.type.trans (huser.framed a ha)
  obtain ⟨hholds, hsame⟩ := Holds.add h ⟨hfork.ok, hframed⟩
    (trapContext_of_forking hfork ((h.sets _ hx).trapCx rfl))
    (hfork.moves.weaken fun _ => False.elim)
  rw [Meets.bind_iff]
  refine (newProcess_context (s := { s₀ with st := st₁ }) hholds).mono ?_
  rintro p s₁ ⟨htoken, hprocs, hms, hzp, hcxp, hkept⟩
  refine (writeTrapCx_writes _ _ _).mono ?_
  rintro _ s₂ rfl
  refine ⟨htoken, q, p, hq, hz, hprocs, hzp, hcxp, ?_⟩
  have hsp : (kernelStackPosition p.pid).2 < 2 ^ 64 := Nat.mod_lt _ (by decide)
  rw [context_kernelSp _ _ hsp]
  -- the frame of the child is a copy of that of its parent
  obtain ⟨c, hc, hcv, -, hcf⟩ := hcxp.frame (hms ▸ hfork.ok.space) (hms ▸ hframed)
  rw [hms] at hc
  obtain ⟨a, ha, hac⟩ := exists_left_of_forall₂ hfork.areas hc
  have hav : a.Has TRAP_CONTEXT_VPN := by
    rw [MapArea.Has, ← hac.range]
    exact hcv
  have haf : a.dataFrames.lookup TRAP_CONTEXT_VPN = some q.trapCxPpn := by
    have hlt : ∀ n ∈ dataPpns q.memorySet.areas, n < 2 ^ 44 :=
      fun n hn => huser.owns.lt_two_pow (List.mem_append_right _ hn)
    have hq' := hcx q hqm hz
    obtain ⟨n, e, hn, -, he, -, hppn⟩ := framed_page huser.space ha (huser.framed a ha) hav hlt
    rw [hq'.lookup huser.space huser.framed] at he
    cases he
    rw [PageTableEntry.ppn_new (hlt _ hq'.mem_dataPpns)] at hppn
    rw [hn, hppn]
  have hkeep := hkept p.trapCxPpn (hms ▸ List.mem_append_right _ hcxp.mem_dataPpns)
  have hbytes : s₁.st.mem.frame p.trapCxPpn = s₀.st.mem.frame q.trapCxPpn :=
    hkeep.frame.trans (hac.bytes _ _ _ haf hcf)
  rw [context_frame hbytes]

theorem exec_context {cpu : TrapSetup} {elf : Elf} {args : List (List UInt8)} (h : s.Ok img) :
    Meets (fun _ => True) (exec img cpu i elf args) s fun _ s' =>
      s'.kernel.token = s.kernel.token ∧ ∃ p q userSp entry x, s.procs[i]? = some p
        ∧ p.zombie = false ∧ s'.procs = s.procs.set i q ∧ q.pid = p.pid ∧ q.zombie = false
        ∧ q.HasContext ∧ q.context s'.st.mem
          = { TrapContext.appInitContext cpu entry userSp s.kernel.token
                (kernelStackPosition q.pid).2 with x := x } := by
  simp only [exec, Meets.bind_iff]
  refine (running_meets fun _ => trivial).mono ?_
  rintro p s₀ ⟨rfl, hp, hz⟩
  rw [onMemory_iff]
  refine (fromElf_meets (X := Stray img.trampoline) h.owns.wf).mono ?_
  rintro ⟨ms, userSp, entry⟩ st₁ ⟨hok, htrap, hm⟩
  dsimp only at hok htrap hm ⊢
  obtain ⟨hholds, -⟩ := Holds.add h hok htrap hm
  rw [onMemory_iff]
  refine (findTrapCx_context (hholds.writable List.mem_cons_self) htrap).mono ?_
  rintro ppn st₂ ⟨rfl, hppn⟩
  dsimp only
  rw [onMemory_iff]
  refine Meets.trivial.mono fun r st₃ _ => ?_
  dsimp only
  rw [onMemory_iff]
  refine Meets.trivial.mono fun _ st₄ _ => ?_
  simp only [Meets.modify_iff, Meets.get_iff]
  refine (writeTrapCx_writes _ _ _).mono ?_
  rintro _ s₅ rfl
  refine ⟨rfl, p, { p with memorySet := ms, trapCxPpn := ppn }, r.1, entry,
    ((TrapContext.appInitContext cpu entry r.1 s₀.kernel.token
      (kernelStackPosition p.pid).2).x.set 10 (UInt64.ofNat args.length) a0_lt).set 11
        (UInt64.ofNat r.2) a1_lt, hp, hz, rfl, rfl, hz, hppn, ?_⟩
  rw [Nat.add_zero]
  exact context_write { p with memorySet := ms, trapCxPpn := ppn } st₄.mem _

/-! ## Events -/

/-- Processes that an event is not about stay ready. -/
theorem Ready.spared {but : Nat → Prop} (h : s.Ready handler) (hs : s.Spares s' but)
    (htoken : s'.kernel.token = s.kernel.token) {j : Nat} {q q' : ProcessSpace} (hj : ¬ but j)
    (hq : s.procs[j]? = some q) (hsame : q.Same q') (hz : q'.zombie = false) :
    q'.Ready s'.st.mem s'.kernel.token handler := by
  have hready := h q (List.mem_of_getElem? hq) (hsame.zombie.symm.trans hz)
  rw [htoken]
  refine hready.congr hsame (hs j q hj hq _ ?_)
  exact List.mem_append_right _ hready.context.mem_dataPpns

theorem create_ready {cpu : TrapSetup} {elf : Elf} (h : s.Ok img) (ht : s.Traced img)
    (hr : s.Ready handler) (hcpu : cpu.trapHandler = handler) :
    Meets (fun _ => True) (create img cpu elf) s fun _ s' =>
      s'.Ready handler ∧ s.Carries s' fun _ => False := by
  refine ((create_traced h ht).and (create_context h)).mono ?_
  rintro _ s' ⟨⟨-, hspares⟩, htoken, p, userSp, entry, hprocs, hz, hcx, hval⟩
  refine ⟨fun q hq hzq => ?_, htoken, fun j q _ hq => ⟨q, ?_, .refl q⟩⟩
  · rw [hprocs] at hq
    rcases List.mem_append.mp hq with hq | hq
    · obtain ⟨j, hj⟩ := List.mem_iff_getElem?.mp hq
      exact hr.spared hspares htoken id hj (.refl q) hzq
    · obtain rfl := List.mem_singleton.mp hq
      rw [htoken]
      exact ⟨hcx, by rw [hval]; rfl, by rw [hval]; rfl, by rw [hval]; exact hcpu⟩
  · rw [hprocs]
    exact List.mem_append_left _ (List.mem_of_getElem? hq)

theorem fork_ready (h : s.Ok img) (ht : s.Traced img) (hr : s.Ready handler) :
    Meets (fun _ => True) (fork img i) s fun _ s' =>
      s'.Ready handler ∧ s.Carries s' fun _ => False := by
  refine ((fork_traced h ht).and (fork_context h fun p hp hz => (hr p hp hz).context)).mono ?_
  rintro _ s' ⟨⟨-, hspares⟩, htoken, q, p, hq, hzq, hprocs, hz, hcx, hval⟩
  have hparent := hr q (List.mem_of_getElem? hq) hzq
  refine ⟨fun r hmem hzr => ?_, htoken, fun j r _ hr' => ⟨r, ?_, .refl r⟩⟩
  · rw [hprocs] at hmem
    rcases List.mem_append.mp hmem with hmem | hmem
    · obtain ⟨j, hj⟩ := List.mem_iff_getElem?.mp hmem
      exact hr.spared hspares htoken id hj (.refl r) hzr
    · obtain rfl := List.mem_singleton.mp hmem
      rw [htoken]
      exact ⟨hcx, by rw [hval]; exact hparent.satp, by rw [hval],
        by rw [hval]; exact hparent.handler⟩
  · rw [hprocs]
    exact List.mem_append_left _ (List.mem_of_getElem? hr')

theorem exec_ready {cpu : TrapSetup} {elf : Elf} {args : List (List UInt8)} (h : s.Ok img)
    (ht : s.Traced img) (hr : s.Ready handler) (hcpu : cpu.trapHandler = handler) :
    Meets (fun _ => True) (exec img cpu i elf args) s fun _ s' =>
      s'.Ready handler ∧ s.Carries s' fun k => k = i := by
  refine ((exec_traced h ht).and (exec_context h)).mono ?_
  rintro _ s' ⟨⟨-, hspares⟩, htoken, p, q, userSp, entry, x, hp, -, hprocs, -, hz, hcx, hval⟩
  have hother : ∀ j, j ≠ i → s'.procs[j]? = s.procs[j]? := by
    intro j hj
    rw [hprocs, List.getElem?_set_ne (Ne.symm hj)]
  refine ⟨fun r hmem hzr => ?_, htoken, fun j r hj hr' => ⟨r, ?_, .refl r⟩⟩
  · obtain ⟨j, hj⟩ := List.mem_iff_getElem?.mp hmem
    by_cases hji : j = i
    · obtain ⟨hi, -⟩ := List.getElem?_eq_some_iff.mp hp
      rw [hji, hprocs, List.getElem?_set_self hi] at hj
      cases hj
      rw [htoken]
      exact ⟨hcx, by rw [hval]; rfl, by rw [hval]; rfl, by rw [hval]; exact hcpu⟩
    · exact hr.spared hspares htoken hji (hother j hji ▸ hj) (.refl r) hzr
  · exact List.mem_of_getElem? ((hother j hj).trans hr')

theorem exit_ready {exitCode : UInt32} (h : s.Ok img) (hr : s.Ready handler) :
    Meets (fun _ => True) (exit i exitCode) s fun _ s' =>
      s'.Ready handler ∧ s.Carries s' fun k => k = i := by
  refine (exit_meets h (fun _ => trivial) fun _ => trivial).mono ?_
  rintro _ s' ⟨-, hsame, hmem, p, hp, hprocs⟩
  have htoken : s'.kernel.token = s.kernel.token := by rw [hsame.kernel]
  have hspares : s.Spares s' fun k => k = i :=
    fun _ _ _ _ n _ => hmem ▸ Mem.SameFrame.refl _ n
  have hother : ∀ j q, j ≠ i → s.procs[j]? = some q → s'.procs[j]? = some (reparent p.pid q) := by
    intro j q hj hq
    rw [hprocs, List.getElem?_set_ne (Ne.symm hj), List.getElem?_map, hq, Option.map_some]
  have hreparent : ∀ q : ProcessSpace, q.Same (reparent p.pid q) := fun _ => ⟨rfl, rfl, rfl, rfl⟩
  refine ⟨fun r hmem' hzr => ?_, htoken, fun j q hj hq => ?_⟩
  · obtain ⟨j, hj⟩ := List.mem_iff_getElem?.mp hmem'
    obtain ⟨hi, -⟩ := List.getElem?_eq_some_iff.mp hp
    by_cases hji : j = i
    · rw [hji, hprocs, List.getElem?_set_self (by rw [List.length_map]; exact hi)] at hj
      cases hj
      cases hzr
    · have hlt : j < s.procs.length := by
        have hlen := (List.getElem?_eq_some_iff.mp hj).1
        rw [hprocs, List.length_set, List.length_map] at hlen
        exact hlen
      obtain ⟨q, hq⟩ : ∃ q, s.procs[j]? = some q := ⟨_, List.getElem?_eq_getElem hlt⟩
      rw [hother j q hji hq] at hj
      cases hj
      exact hr.spared hspares htoken hji hq (hreparent q) hzr
  · exact ⟨_, List.mem_of_getElem? (hother j q hj hq), hreparent q⟩

theorem dropProcess_token :
    Meets (fun _ => True) (dropProcess i) s fun _ s' =>
      s'.kernel.token = s.kernel.token ∧ s'.procs = s.procs.eraseIdx i := by
  simp only [dropProcess, Meets.bind_iff, Meets.get_iff]
  cases s.procs[i]? with
  | none => exact Meets.unwrap_none.mpr trivial
  | some p =>
      rw [Meets.unwrap_some]
      simp only [Meets.set_iff, pidDealloc, Meets.bind_iff, Meets.get_iff]
      cases s.pids.dealloc p.pid with
      | none => exact Meets.unwrap_none.mpr trivial
      | some pids =>
          simp only [Meets.unwrap_some, dropKernelStack, Meets.bind_iff, Meets.get_iff]
          rw [onMemory_iff]
          refine (kernelStack_drop_root _).mono fun kernel' st₁ hroot => ?_
          rw [Meets.modify_iff, onMemory_iff]
          exact Meets.trivial.mono fun _ st₂ _ => ⟨token_of_root hroot, rfl⟩

theorem dropProcess_ready (h : PidInv img s) (ht : s.Traced img) (hr : s.Ready handler) :
    Meets (fun _ => True) (dropProcess i) s fun _ s' =>
      s'.Ready handler ∧ s.Carries s' fun k => k = i := by
  refine ((dropProcess_traced h ht).and dropProcess_token).mono ?_
  rintro _ s' ⟨⟨-, hspares⟩, htoken, hprocs⟩
  refine ⟨fun r hmem hzr => ?_, htoken, fun j q hj hq => ⟨q, ?_, .refl q⟩⟩
  · rw [hprocs] at hmem
    obtain ⟨j, hj, hq⟩ := List.mem_eraseIdx_iff_getElem?.mp hmem
    exact hr.spared hspares htoken hj hq (.refl r) hzr
  · rw [hprocs]
    exact List.mem_eraseIdx_iff_getElem?.mpr ⟨j, hj, hq⟩

/-- Only one page leads to the context. -/
theorem Ok.context_page {p : ProcessSpace} (h : s.Ok img) (hp : p ∈ s.procs)
    (hz : p.zombie = false) (hcx : p.HasContext) {v : Nat} {e : PageTableEntry} (hv : v < 2 ^ 27)
    (he : p.memorySet.pageTable.lookup s.st.mem v = some e) (hppn : e.ppn = p.trapCxPpn) :
    v = TRAP_CONTEXT_VPN := by
  have huser := h.userOk hp hz
  rcases huser.lookup_cases img.trampoline_lt_two_pow hv he with ⟨-, htramp⟩ | ⟨a, ha, hframe⟩
  · exfalso
    refine Holds.apart h ?_
    rw [← htramp, hppn]
    exact Ok.mem_frames hp (List.mem_append_right _ hcx.mem_dataPpns)
  · obtain ⟨c, hc, -, -, hcf⟩ := hcx.frame huser.space huser.framed
    rw [hppn] at hframe
    exact huser.page_unique ha hc hframe (mem_of_lookup hcf)

/-- A write through a page of a process that is not the one of its context. -/
theorem Ready.wrote {p : ProcessSpace} {va : Nat} {e : PageTableEntry} {bs : List UInt8}
    (h : s.Ok img) (hr : s.Ready handler) (hp : s.procs[i]? = some p) (hz : p.zombie = false)
    (he : p.memorySet.pageTable.translate s.st.mem (pageOf va) = some e)
    (hpage : pageOf va ≠ TRAP_CONTEXT_VPN) (hlen : va % 4096 + bs.length ≤ 4096)
    (hmem : s'.st.mem = s.st.mem.write (e.ppn * 4096 + va % 4096) bs)
    (hkernel : s'.kernel = s.kernel) (hprocs : s'.procs = s.procs) : s'.Ready handler := by
  have hpm := List.mem_of_getElem? hp
  have hx : (p.memorySet, false) ∈ s.sets := hz ▸ mem_sets hpm
  intro q hq hzq
  rw [hprocs] at hq
  have hcx := (hr q hq hzq).context
  have hown : q.trapCxPpn ∈ q.memorySet.frames := List.mem_append_right _ hcx.mem_dataPpns
  have hne : q.trapCxPpn ≠ e.ppn := by
    intro heq
    rcases (Holds.writable h hx).room_of_translate he with hdata | hover
    · obtain ⟨j, hj⟩ := List.mem_iff_getElem?.mp hq
      by_cases hji : j = i
      · rw [hji, hp] at hj
        cases hj
        rcases (h.setOk hpm).tree.translate_cases he with hlook | rfl
        · exact hpage (h.context_page hpm hz hcx (pageOf_lt va) hlook heq.symm)
        · have hpos := (h.userOk hpm hz).owns.pos _ hown
          rw [heq, PageTableEntry.ppn_empty] at hpos
          exact Nat.lt_irrefl 0 hpos
      · have hdata' : e.ppn ∈ p.memorySet.frames := List.mem_append_right _ hdata
        exact h.frames_apart hp hj hji hdata' (heq ▸ hown)
    · exact Holds.not_stray h (Ok.mem_frames hq hown) (heq ▸ hover)
  rw [hkernel, hmem]
  refine (hr q hq hzq).congr (.refl q) fun x hx => Mem.write_outside _ ?_
  omega

theorem userStore_ready {va : Nat} {b : UInt8} (h : s.Ok img) (hr : s.Ready handler) :
    Meets (fun _ => True) (userStore i va b) s fun _ s' =>
      s'.Ready handler ∧ s.Carries s' fun k => k = i := by
  rw [userStore, Meets.bind_iff]
  refine (running_meets fun _ => trivial).mono ?_
  rintro p s₀ ⟨rfl, hp, hz⟩
  have hcarries : ∀ s' : Machine, s'.kernel = s₀.kernel → s'.procs = s₀.procs →
      s₀.Carries s' fun k => k = i := by
    intro s' hk hprocs
    refine ⟨by rw [hk], fun j q _ hq => ⟨q, ?_, .refl q⟩⟩
    rw [hprocs]
    exact List.mem_of_getElem? hq
  rw [Meets.modify_iff]
  cases he : p.memorySet.pageTable.lookup s₀.st.mem (pageOf va) with
  | none => exact ⟨hr, hcarries _ rfl rfl⟩
  | some e =>
      dsimp only
      split
      · next huw =>
          refine ⟨hr.wrote h hp hz (translate_of_lookup he) ?_ ?_ rfl rfl rfl,
            hcarries _ rfl rfl⟩
          · -- the context is no page of the user
            intro hpage
            have huser := h.userOk (List.mem_of_getElem? hp) hz
            have hcx := (hr p (List.mem_of_getElem? hp) hz).context
            rw [hpage, hcx.lookup huser.space huser.framed] at he
            cases he
            rw [PageTableEntry.flags_new
              (huser.owns.lt_two_pow (List.mem_append_right _ hcx.mem_dataPpns))] at huw
            exact absurd huw.1 (by decide)
          · rw [List.length_singleton]
            omega
      · exact ⟨hr, hcarries _ rfl rfl⟩

theorem waitpid_ready {j exitCodePtr : Nat} (h : Walkable img s) (hr : s.Ready handler)
    (hpage : pageOf exitCodePtr ≠ TRAP_CONTEXT_VPN) (hfits : exitCodePtr % 4096 + 4 ≤ 4096) :
    Meets (fun _ => True) (waitpid j i exitCodePtr) s fun _ s' =>
      s'.Ready handler ∧ s.Carries s' fun k => k = i ∨ k = j := by
  refine waitpid_meets (fun _ => trivial) (fun _ _ _ _ => trivial) ?_
  intro p q pa hw hpa
  have h₁ := h.withCode hw (Or.inl hfits) hpa
  have hx : (p.memorySet, false) ∈ s.sets :=
    hw.running ▸ mem_sets (List.mem_of_getElem? hw.parent)
  obtain ⟨e, he, hpa'⟩ := translatedRefmut_eq_some (Holds.writable h.ok hx).root hpa
  have hr₁ : (s.withCode pa q).Ready handler := by
    refine hr.wrote h.ok hw.parent hw.running he hpage ?_ (by rw [withCode, hpa']) rfl rfl
    rw [leBytes_length]
    exact hfits
  refine (dropProcess_ready h₁.toPidInv h₁.traced hr₁).mono ?_
  rintro _ s' ⟨hr', hc⟩
  exact ⟨hr', hc.token, fun k r hk hr => hc.procs k r (fun hki => hk (Or.inl hki)) hr⟩

end Machine

end Nimloth
