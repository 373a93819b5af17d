import Nimloth.HardwareAccess
import Nimloth.Trap

/-!
# Traps of a process

The code of the trampoline, behind the page tables of a process and of
the kernel: both show it on the last page, and the process shows its trap
context on the page below. From that (`Walkable.trapSetting`) a trap of
the program ends in the trap handler of the kernel with the state of the
program in the context, and nothing else in memory touched.
-/

namespace Nimloth

open RiscV PageTable MemorySet

/-! ## The pages of a trap -/

/-- Frame `f` is behind the page of the trap context. -/
def MemorySet.ContextAt (ms : MemorySet) (f : Nat) : Prop :=
  ∃ a ∈ ms.areas, a.mapPerm = PTEFlags.R ||| PTEFlags.W ∧ (TRAP_CONTEXT_VPN, f) ∈ a.dataFrames

/-- The trap context of a process is in its own frame. -/
def ProcessSpace.HasContext (p : ProcessSpace) : Prop := p.memorySet.ContextAt p.trapCxPpn

/-- The addresses of words on the page of the context. -/
def InContext (a : UInt64) : Prop := a.toNat / 4096 = TRAP_CONTEXT / 4096 ∧ a.toNat % 8 = 0

/-- The word there, if the context is in frame `f`. -/
def contextWord (f : Nat) (m : Mem) (a : UInt64) : UInt64 :=
  Sv39.word m (f * 4096 + a.toNat % 4096)

/-- But for frame `f` memory is as in `m₀`. -/
def Elsewhere (m₀ : Mem) (f : Nat) (m : Mem) : Prop := ∀ n, n ≠ f → Mem.SameFrame m₀ m n

/-- The context of a process, where it is in memory. -/
def ProcessSpace.context (p : ProcessSpace) (m : Mem) : TrapContext :=
  TrapContext.inMemory (contextWord p.trapCxPpn) m (UInt64.ofNat TRAP_CONTEXT)

theorem pageOf_of_div {va : UInt64} {page : Nat} (h : va.toNat / 4096 = page) :
    pageOf va.toNat = page % 2 ^ 27 := by
  rw [pageOf_toNat, h]

theorem canonical_of_div {va : UInt64} (h : TRAP_CONTEXT / 4096 ≤ va.toNat / 4096) :
    Sv39.Canonical va := by
  have hge : TRAP_CONTEXT / 4096 = 2 ^ 52 - 2 := by decide
  rw [hge] at h
  right
  omega

namespace MemorySet.Walked

variable {img : KernelImage} {m : Mem} {ms : MemorySet} {r : Regime} {va : UInt64}

/-- The kernel may execute the trampoline in every address space. -/
theorem trampoline_fetch (h : ms.Walked img.trampoline m) (hsatp : r.satp = UInt64.ofNat ms.token)
    (hmode : r.mode = .supervisor) (hva : va.toNat / 4096 = TRAMPOLINE / 4096) :
    Sv39.translate m r va .fetch = some (img.trampoline * 4096 + va.toNat % 4096) := by
  have hpage : pageOf va.toNat = TRAMPOLINE_VPN := pageOf_of_div hva
  have hlt := img.trampoline_lt_two_pow
  refine (h.translate_iff hsatp).mpr ⟨canonical_of_div ?_, trampolineEntry img.trampoline, ?_,
    bits_lt hlt _, ?_, ?_⟩
  · rw [hva]
    decide
  · rw [hpage]
    exact h.space.trampoline
  · rw [trampolineEntry, PageTableEntry.flags_new hlt]
    refine ⟨by decide, by decide, ?_⟩
    rw [Sv39.Grants, hmode]
    decide
  · rw [trampolineEntry, PageTableEntry.ppn_new hlt]

end MemorySet.Walked

namespace MemorySet.ContextAt

variable {tramp f : Nat} {m : Mem} {ms : MemorySet} {r : Regime} {va : UInt64} {a : Sv39.Access}

theorem mem_dataPpns (h : ms.ContextAt f) : f ∈ dataPpns ms.areas := by
  obtain ⟨area, harea, -, hframe⟩ := h
  exact List.mem_flatMap.mpr ⟨area, harea, List.mem_map_of_mem hframe⟩

/-- The area with the page has that frame for it. -/
theorem frame (h : ms.ContextAt f) (hs : Space tramp m ms.pageTable ms.areas)
    (hf : ∀ a ∈ ms.areas, a.mapType = .framed) :
    ∃ a ∈ ms.areas, a.Has TRAP_CONTEXT_VPN ∧ a.mapPerm = PTEFlags.R ||| PTEFlags.W
      ∧ a.dataFrames.lookup TRAP_CONTEXT_VPN = some f := by
  obtain ⟨a, ha, hperm, hframe⟩ := h
  have hok := hs.ok a ha
  have hav := hok.has_of_mem hframe
  obtain ⟨n, hn, -, -⟩ := hok.exists_frame (hf a ha) hav
  have hinj := List.inj_on_of_nodup_map hok.nodup_keys (mem_of_lookup hn) hframe rfl
  obtain rfl : n = f := congrArg Prod.snd hinj
  exact ⟨a, ha, hav, hperm, hn⟩

theorem lookup (h : ms.ContextAt f) (hs : Space tramp m ms.pageTable ms.areas)
    (hf : ∀ a ∈ ms.areas, a.mapType = .framed) :
    ms.pageTable.lookup m TRAP_CONTEXT_VPN
      = some (PageTableEntry.new f (PTEFlags.R ||| PTEFlags.W ||| PTEFlags.V)) := by
  obtain ⟨a, ha, hav, hperm, hframe⟩ := h.frame hs hf
  rw [hs.own a ha _ hav, MapArea.pageEntry, hf a ha]
  dsimp only
  rw [hframe, Option.map_some, hperm]

/-- The kernel reads and writes it under the tables of the process. -/
theorem access (h : ms.ContextAt f) (hw : ms.Walked tramp m)
    (hf : ∀ a ∈ ms.areas, a.mapType = .framed) (hlt : f < 2 ^ 44)
    (hsatp : r.satp = UInt64.ofNat ms.token) (hmode : r.mode = .supervisor)
    (hva : va.toNat / 4096 = TRAP_CONTEXT / 4096) (ha : a ≠ .fetch) :
    Sv39.translate m r va a = some (f * 4096 + va.toNat % 4096) := by
  have hpage : pageOf va.toNat = TRAP_CONTEXT_VPN := pageOf_of_div hva
  refine (hw.translate_iff hsatp).mpr ⟨canonical_of_div (Nat.le_of_eq hva.symm), _,
    by rw [hpage]; exact h.lookup hw.space hf, bits_lt hlt _, ?_, ?_⟩
  · rw [PageTableEntry.flags_new hlt]
    refine ⟨by decide, by decide, ?_⟩
    cases a with
    | fetch => exact absurd rfl ha
    | load =>
        rw [Sv39.Grants, hmode]
        exact ⟨Or.inl (by decide), Or.inl (by decide)⟩
    | store =>
        rw [Sv39.Grants, hmode]
        exact ⟨by decide, Or.inl (by decide)⟩
  · rw [PageTableEntry.ppn_new hlt]

end MemorySet.ContextAt

/-! ## Traps in a state of the machine -/

/-- The code of the trampoline is in its frame. -/
def HasTrampoline (img : KernelImage) (d : Sv39.Decoder) (len : Instr → UInt64) (m : Mem) : Prop :=
  Sv39.Placed d len m img.trampoline 0 (Asm.alltraps ++ Asm.restore)

theorem trapSlot_toNat {k : Nat} (hk : k < 37) :
    (trapSlot (UInt64.ofNat TRAP_CONTEXT) k).toNat = TRAP_CONTEXT + 8 * k := by
  have hcx : (UInt64.ofNat TRAP_CONTEXT).toNat = 2 ^ 64 - 8192 := by decide
  have hval : TRAP_CONTEXT = 2 ^ 64 - 8192 := by decide
  rw [trapSlot, UInt64.toNat_add, hcx, UInt64.toNat_ofNat', hval]
  omega

theorem inContext_of_trapSlot {a : UInt64} (h : TrapSlot (UInt64.ofNat TRAP_CONTEXT) a) :
    InContext a := by
  obtain ⟨k, hk, rfl⟩ := h
  have hval : TRAP_CONTEXT = 2 ^ 64 - 8192 := by decide
  rw [InContext, trapSlot_toNat hk, hval]
  omega

/-- Different words of the page are apart in the frame. -/
theorem inContext_apart {f : Nat} {a a' : UInt64} (h : InContext a) (h' : InContext a')
    (hne : a ≠ a') : f * 4096 + a'.toNat % 4096 + 8 ≤ f * 4096 + a.toNat % 4096
      ∨ f * 4096 + a.toNat % 4096 + 8 ≤ f * 4096 + a'.toNat % 4096 := by
  have hnat : a.toNat ≠ a'.toNat := fun heq => hne (UInt64.toNat_inj.mp heq)
  obtain ⟨hpage, hal⟩ := h
  obtain ⟨hpage', hal'⟩ := h'
  rw [← hpage'] at hpage
  omega

namespace Walkable

variable {img : KernelImage} {s : Machine} {p : ProcessSpace} {d : Sv39.Decoder}
  {len : Instr → UInt64}

theorem tables_ne (h : Walkable img s) (hp : p ∈ s.procs) (hcx : p.HasContext) {n : Nat}
    (hn : n ∈ s.tables) : n ≠ p.trapCxPpn := by
  rintro rfl
  exact Holds.data_apart h.ok (Machine.mem_sets hp) hcx.mem_dataPpns hn

theorem trapSetting (h : Walkable img s) (hp : p ∈ s.procs) (hz : p.zombie = false)
    (hcx : p.HasContext) (hcode : HasTrampoline img d len s.st.mem) :
    TrapSetting (Sv39.bus d) len (Elsewhere s.st.mem p.trapCxPpn) InContext
      (contextWord p.trapCxPpn) (UInt64.ofNat TRAMPOLINE) (UInt64.ofNat TRAP_CONTEXT)
      (UInt64.ofNat p.memorySet.token) (UInt64.ofNat s.kernel.token) := by
  have huser := h.ok.userOk hp hz
  have hlt : p.trapCxPpn < 2 ^ 44 :=
    huser.owns.lt_two_pow (List.mem_append_right _ hcx.mem_dataPpns)
  have hwalked : ∀ m, Elsewhere s.st.mem p.trapCxPpn m → p.memorySet.Walked img.trampoline m :=
    fun m hm => (h.walked hp hz).congr fun n hn =>
      hm n (h.tables_ne hp hcx
        (List.mem_append_right _ (Sets.mem_tables (Machine.mem_sets hp) hn)))
  have hkernel : ∀ m, Elsewhere s.st.mem p.trapCxPpn m → s.kernel.Walked img.trampoline m :=
    fun m hm => h.walked_kernel.congr fun n hn =>
      hm n (h.tables_ne hp hcx (List.mem_append_left _ hn))
  refine ⟨fun sstatus => ?_, fun m satp sstatus hm hor => ?_, fun a => inContext_of_trapSlot⟩
  · have haccess : ∀ (m : Mem) (va : UInt64) (a : Sv39.Access), a ≠ .fetch →
        Elsewhere s.st.mem p.trapCxPpn m → InContext va →
          Sv39.translate m ⟨.supervisor, UInt64.ofNat p.memorySet.token, sstatus⟩ va a
            = some (p.trapCxPpn * 4096 + va.toNat % 4096) :=
      fun m va a ha hm hva => hcx.access (hwalked m hm) huser.framed hlt rfl rfl hva.1 ha
    refine Sv39.words d (fun m va hm hva => haccess m va _ (by decide) hm hva)
      (fun m va hm hva => haccess m va _ (by decide) hm hva) (fun _ hva => hva.2)
      (fun va va' hva hva' hne => inContext_apart hva hva' hne) ?_
    intro m va w hm hva n hn
    refine (hm n hn).trans fun x hx => ?_
    refine Sv39.setWord_outside m w ?_
    have hal := hva.2
    omega
  · have hplaced : Sv39.Placed d len m img.trampoline 0 (Asm.alltraps ++ Asm.restore) := by
      refine hcode.congr fun x hx hx' => hm img.trampoline ?_ x (by omega)
      rintro heq
      refine h.ok.apart ?_
      rw [heq]
      exact Machine.Ok.mem_frames hp (List.mem_append_right _ hcx.mem_dataPpns)
    have hva : (UInt64.ofNat TRAMPOLINE).toNat = TRAMPOLINE / 4096 * 4096 + 0 := by decide
    refine hplaced.loaded (fun va hpage => ?_) hva
    rcases hor with rfl | rfl
    · exact (hwalked m hm).trampoline_fetch rfl rfl hpage
    · exact (hkernel m hm).trampoline_fetch rfl rfl hpage

end Walkable

end Nimloth
