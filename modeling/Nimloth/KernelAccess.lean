import Nimloth.HardwareAccess

/-!
# What the kernel reaches

The processor under the page tables of the kernel, in every state that
creation, `fork`, `exec`, exit and reaping lead to (`kernel_access`): the
trampoline, the sections at their own addresses and the stacks of the
processes, and nothing else. So nothing that may be executed may be
written, at whatever address; a stack that runs over meets an exception;
and a program in user mode reaches nothing there.
-/

namespace Nimloth

open RiscV PageTable MemorySet

/-! ## Pages of the kernel -/

/-- Page `v` is frame `n`, with these permissions. -/
inductive Machine.KernelPage (img : KernelImage) (s : Machine) : Nat → Nat → MapPermission → Prop
  | trampoline : KernelPage img s TRAMPOLINE_VPN img.trampoline (PTEFlags.R ||| PTEFlags.X)
  | identical {sec : KernelSection} {v : Nat} :
      sec ∈ img.sections → sec.bounds.1 ≤ v → v < sec.bounds.2 → KernelPage img s v v sec.perm
  | stack {p : ProcessSpace} {a : MapArea} {v n : Nat} :
      p ∈ s.procs → a ∈ s.kernel.areas → a.bounds = stackBounds p.pid → (v, n) ∈ a.dataFrames →
        KernelPage img s v n (PTEFlags.R ||| PTEFlags.W)

/-- Under the page tables of the kernel. -/
def Machine.regime (s : Machine) (mode : Mode) (sstatus : UInt64) : Regime :=
  ⟨mode, UInt64.ofNat s.kernel.token, sstatus⟩

/-- `k` bytes below the top of the kernel stack. -/
def ProcessSpace.kernelStackAddr (p : ProcessSpace) (k : Nat) : UInt64 :=
  UInt64.ofNat ((kernelStackPosition p.pid).2 - k)

/-! ## Permissions -/

namespace Sv39.Permits

variable {r : Regime} {f : UInt8} {a : Access}

theorem fetch_ne (h : Permits r f .fetch) : f &&& X ≠ 0 := h.2.2.1

theorem store_ne (h : Permits r f .store) : f &&& W ≠ 0 := h.2.2.1

theorem user_ne (h : Permits r f a) (hr : r.mode = .user) : f &&& U ≠ 0 := by
  obtain ⟨-, -, hg⟩ := h
  cases a with
  | fetch =>
      rw [Grants, if_pos hr] at hg
      exact hg.2
  | load =>
      rw [Grants, if_pos hr] at hg
      exact hg.2
  | store =>
      rw [Grants, if_pos hr] at hg
      exact hg.2

/-- The supervisor loads and stores on pages that are its own. -/
theorem supervisor (hr : r.mode = .supervisor) (ha : a ≠ .fetch)
    (hf : f = PTEFlags.R ||| PTEFlags.W) : Permits r f a := by
  rw [hf]
  refine ⟨by decide, by decide, ?_⟩
  cases a with
  | fetch => exact absurd rfl ha
  | load =>
      rw [Grants, hr]
      exact ⟨Or.inl (by decide), Or.inl (by decide)⟩
  | store =>
      rw [Grants, hr]
      exact ⟨by decide, Or.inl (by decide)⟩

end Sv39.Permits

namespace KernelImage

variable {img : KernelImage} {sec : KernelSection}

theorem section_perm (h : sec ∈ img.sections) :
    sec.perm = PTEFlags.R ||| PTEFlags.X
        ∧ sec.bounds = (0x80200, img.etext / 4096)
      ∨ sec.perm &&& Sv39.X = 0 ∧ sec.perm &&& Sv39.U = 0
        ∧ (img.etext / 4096 ≤ sec.bounds.1 ∨ sec.bounds.2 ≤ 0x80200) := by
  have hbounds : img.sections.map KernelSection.bounds = _ := img.sectionBounds_eq
  have hle := img.sections_le
  simp only [sections, MMIO, List.map_cons, List.map_nil, List.cons_append, List.nil_append,
    List.cons.injEq, and_true] at hbounds
  obtain ⟨h₁, h₂, h₃, h₄, h₅, h₆, h₇⟩ := hbounds
  simp only [sections, MMIO, List.map_cons, List.map_nil, List.cons_append, List.nil_append,
    List.mem_cons, List.not_mem_nil, or_false] at h
  have hR : PTEFlags.R &&& Sv39.X = 0 ∧ PTEFlags.R &&& Sv39.U = 0 := by decide
  have hRW : (PTEFlags.R ||| PTEFlags.W) &&& Sv39.X = 0
      ∧ (PTEFlags.R ||| PTEFlags.W) &&& Sv39.U = 0 := by
    decide
  rcases h with rfl | rfl | rfl | rfl | rfl | rfl | rfl
  · exact Or.inl ⟨rfl, h₁⟩
  · exact Or.inr ⟨hR.1, hR.2, Or.inl (by rw [h₂])⟩
  · exact Or.inr ⟨hRW.1, hRW.2, Or.inl (by rw [h₃]; dsimp only; omega)⟩
  · exact Or.inr ⟨hRW.1, hRW.2, Or.inl (by rw [h₄]; dsimp only; omega)⟩
  · exact Or.inr ⟨hRW.1, hRW.2, Or.inl (by rw [h₅]; dsimp only; omega)⟩
  · exact Or.inr ⟨hRW.1, hRW.2, Or.inr (by rw [h₆]; decide)⟩
  · exact Or.inr ⟨hRW.1, hRW.2, Or.inr (by rw [h₇]; decide)⟩

end KernelImage

theorem MapArea.has_iff {a : MapArea} {v : Nat} : a.Has v ↔ a.bounds.1 ≤ v ∧ v < a.bounds.2 :=
  Iff.rfl

/-- A page is in one area. -/
theorem Space.eq_of_has {tramp : Nat} {m : Mem} {pt : PageTable} {areas : List MapArea}
    (h : Space tramp m pt areas) {a b : MapArea} (ha : a ∈ areas) (hb : b ∈ areas) {v : Nat}
    (hav : a.Has v) (hbv : b.Has v) : a = b := by
  by_contra hne
  have hsymm : Std.Symm fun a b : MapArea => ∀ v, ¬ (a.Has v ∧ b.Has v) :=
    ⟨fun _ _ hab v hv => hab v hv.symm⟩
  exact h.apart.forall ha hb hne v ⟨hav, hbv⟩

namespace Walkable

variable {img : KernelImage} {s : Machine} {p : ProcessSpace} {v n : Nat} {perm : MapPermission}

/-- What an area of the kernel is. -/
theorem area_cases (h : Walkable img s) {a : MapArea} (ha : a ∈ s.kernel.areas) (hv : a.Has v) :
    (∃ sec ∈ img.sections, sec.Maps a) ∨ a.mapType = .framed
      ∧ a.mapPerm = PTEFlags.R ||| PTEFlags.W ∧ ∃ p ∈ s.procs, a.bounds = stackBounds p.pid := by
  rcases h.traced.sections.others a ha with hsec | ⟨htype, hperm⟩
  · exact Or.inl hsec
  · refine Or.inr ⟨htype, hperm, ?_⟩
    have hb : a.bounds ∈ s.bounds := List.mem_map_of_mem ha
    rcases List.mem_append.mp (h.bounds.mem_iff.mp hb) with hb | hb
    · -- the area of that section has the same pages, so it is this one
      obtain ⟨sec, hsec, heq⟩ := List.mem_map.mp hb
      obtain ⟨b, hbmem, hmaps⟩ := h.traced.sections.mapped sec hsec
      have hab := h.ok.kernelOk.space.eq_of_has ha hbmem hv
        (by rwa [MapArea.has_iff, hmaps.bounds, heq])
      rw [hab, hmaps.type] at htype
      cases htype
    · obtain ⟨pid, hpid, heq⟩ := List.mem_map.mp hb
      obtain ⟨p, hp, rfl⟩ := List.mem_map.mp hpid
      exact ⟨p, hp, heq.symm⟩

/-- The entry of a page. -/
theorem lookup_of_kernelPage (h : Walkable img s) (hpage : s.KernelPage img v n perm) :
    n < 2 ^ 44 ∧ s.kernel.pageTable.lookup s.st.mem v
      = some (PageTableEntry.new n (perm ||| PTEFlags.V)) := by
  have hspace := h.ok.kernelOk.space
  cases hpage with
  | trampoline => exact ⟨img.trampoline_lt_two_pow, hspace.trampoline⟩
  | @identical sec v hsec h₁ h₂ =>
      obtain ⟨a, ha, hmaps⟩ := h.traced.sections.mapped sec hsec
      have hle := sectionBounds_le img (List.mem_map_of_mem hsec)
      have hav : a.Has v := by
        rw [MapArea.has_iff, hmaps.bounds]
        exact ⟨h₁, h₂⟩
      refine ⟨by omega, ?_⟩
      rw [hspace.own a ha v hav, MapArea.pageEntry, hmaps.type, hmaps.perm]
  | @stack p a v n hp ha hbounds hframe =>
      have hok := hspace.ok a ha
      have hav := hok.has_of_mem hframe
      obtain ⟨htype, hperm⟩ : a.mapType = .framed ∧ a.mapPerm = PTEFlags.R ||| PTEFlags.W := by
        rcases h.area_cases ha hav with ⟨sec, hsec, hmaps⟩ | ⟨htype, hperm, -⟩
        · have hkeys := hok.keys
          rw [hmaps.type, if_neg (by decide)] at hkeys
          have hmem : v ∈ a.keys := List.mem_map_of_mem hframe
          rw [hkeys] at hmem
          exact absurd hmem List.not_mem_nil
        · exact ⟨htype, hperm⟩
      have hdata : n ∈ dataPpns s.kernel.areas :=
        List.mem_flatMap.mpr ⟨a, ha, List.mem_map_of_mem hframe⟩
      refine ⟨h.ok.kernelOk.owns.lt_two_pow (List.mem_append_right _ hdata), ?_⟩
      obtain ⟨n', hn', hmem', hentry⟩ := hok.exists_frame htype hav
      have hinj := List.inj_on_of_nodup_map hok.nodup_keys (mem_of_lookup hn') hframe rfl
      obtain rfl : n' = n := congrArg Prod.snd hinj
      rw [hspace.own a ha v hav, hentry, hperm]

theorem kernelPage_of_lookup (h : Walkable img s) (hv : v < 2 ^ 27) {e : PageTableEntry}
    (he : s.kernel.pageTable.lookup s.st.mem v = some e) :
    ∃ n perm, s.KernelPage img v n perm ∧ e = PageTableEntry.new n (perm ||| PTEFlags.V) := by
  have hspace := h.ok.kernelOk.space
  have hne : s.kernel.pageTable.lookup s.st.mem v ≠ none := by
    rw [he]
    exact Option.some_ne_none e
  rcases hspace.only v hv hne with rfl | ⟨a, ha, hav⟩
  · rw [hspace.trampoline] at he
    exact ⟨_, _, .trampoline, (Option.some.inj he).symm⟩
  · rw [hspace.own a ha v hav] at he
    rcases h.area_cases ha hav with ⟨sec, hsec, hmaps⟩ | ⟨htype, hperm, p, hp, hbounds⟩
    · rw [MapArea.pageEntry, hmaps.type, hmaps.perm] at he
      rw [MapArea.has_iff, hmaps.bounds] at hav
      exact ⟨_, _, .identical hsec hav.1 hav.2, (Option.some.inj he).symm⟩
    · obtain ⟨n, hn, -, hentry⟩ := (hspace.ok a ha).exists_frame htype hav
      rw [hentry, hperm] at he
      exact ⟨n, _, .stack hp ha hbounds (mem_of_lookup hn), (Option.some.inj he).symm⟩

theorem kernel_translate_iff (h : Walkable img s) {mode : Mode} {sstatus va : UInt64}
    {a : Sv39.Access} {pa : Nat} :
    Sv39.translate s.st.mem (s.regime mode sstatus) va a = some pa ↔ Sv39.Canonical va
      ∧ ∃ n perm, s.KernelPage img (pageOf va.toNat) n perm
        ∧ Sv39.Permits (s.regime mode sstatus) perm a ∧ pa = n * 4096 + va.toNat % 4096 := by
  rw [h.walked_kernel.translate_iff rfl]
  refine and_congr_right fun _ => ⟨?_, ?_⟩
  · rintro ⟨e, he, -, hperm, rfl⟩
    obtain ⟨n, perm, hpage, rfl⟩ := h.kernelPage_of_lookup (pageOf_lt _) he
    have hlt := (h.lookup_of_kernelPage hpage).1
    rw [PageTableEntry.flags_new hlt, permits_or_V] at hperm
    exact ⟨n, perm, hpage, hperm, by rw [PageTableEntry.ppn_new hlt]⟩
  · rintro ⟨n, perm, hpage, hperm, rfl⟩
    obtain ⟨hlt, he⟩ := h.lookup_of_kernelPage hpage
    refine ⟨_, he, bits_lt hlt _, ?_, by rw [PageTableEntry.ppn_new hlt]⟩
    rw [PageTableEntry.flags_new hlt, permits_or_V]
    exact hperm

/-- Frames of code, and the others. -/
theorem kernelPage_perm (h : Walkable img s) (hpage : s.KernelPage img v n perm) :
    perm &&& Sv39.U = 0 ∧ ((perm = PTEFlags.R ||| PTEFlags.X ∧ 0x80200 ≤ n ∧ n < img.etext / 4096)
      ∨ perm &&& Sv39.X = 0 ∧ ¬ (0x80200 ≤ n ∧ n < img.etext / 4096)) := by
  have hle := img.sections_le
  cases hpage with
  | trampoline =>
      refine ⟨by decide, Or.inl ⟨rfl, ?_⟩⟩
      have h₁ := img.trampoline_ge
      have h₂ := img.trampoline_lt
      have h₃ := img.trampoline_aligned
      obtain ⟨h₄, -⟩ := img.aligned
      unfold KernelImage.trampoline
      omega
  | @identical sec v hsec h₁ h₂ =>
      rcases KernelImage.section_perm hsec with ⟨hperm, hbounds⟩ | ⟨hX, hU, hbounds⟩
      · rw [hbounds] at h₁ h₂
        rw [hperm]
        exact ⟨by decide, Or.inl ⟨rfl, h₁, h₂⟩⟩
      · refine ⟨hU, Or.inr ⟨hX, ?_⟩⟩
        omega
  | @stack p a v n hp ha hbounds hframe =>
      refine ⟨by decide, Or.inr ⟨by decide, ?_⟩⟩
      have hdata : n ∈ dataPpns s.kernel.areas :=
        List.mem_flatMap.mpr ⟨a, ha, List.mem_map_of_mem hframe⟩
      have habove := h.traced.above n
        (Or.inr (List.mem_append_left _ (List.mem_append_right _ hdata)))
      omega

/-- A frame of a stack belongs to that page alone. -/
theorem stack_apart (h : Walkable img s) {a : MapArea} (ha : a ∈ s.kernel.areas)
    (hframe : (v, n) ∈ a.dataFrames) :
    img.ekernel ≤ n * 4096 ∧ ¬ s.st.alloc.Free n ∧ n ∉ s.sets.frames ∧ n ∉ s.tables
      ∧ ∀ b ∈ s.kernel.areas, ∀ w, (w, n) ∈ b.dataFrames → w = v := by
  have hdata : n ∈ dataPpns s.kernel.areas :=
    List.mem_flatMap.mpr ⟨a, ha, List.mem_map_of_mem hframe⟩
  have hkernel : n ∈ s.kernel.frames := List.mem_append_right _ hdata
  have hsets : n ∉ s.sets.frames := fun hmem => h.ok.owns.not_mem hmem hkernel
  refine ⟨h.traced.above n (Or.inr (List.mem_append_left _ hkernel)),
    h.ok.owns.used n (List.mem_append_left _ hkernel), hsets, fun hmem => ?_, fun b hb w hw => ?_⟩
  · rcases List.mem_append.mp hmem with hmem | hmem
    · exact h.ok.owns.left.not_mem hdata hmem
    · exact hsets (Sets.tables_subset _ hmem)
  · have hnodup : ((s.kernel.areas.flatMap MapArea.dataFrames).map Prod.snd).Nodup := by
      rw [List.map_flatMap]
      exact h.ok.owns.left.right.nodup
    have hinj := List.inj_on_of_nodup_map hnodup (List.mem_flatMap.mpr ⟨b, hb, hw⟩)
      (List.mem_flatMap.mpr ⟨a, ha, hframe⟩) rfl
    exact congrArg Prod.fst hinj

/-- Addresses below the top of a stack: two pages, and a third one that is not mapped. -/
theorem stack_page (h : Walkable img s) (hp : p ∈ s.procs) {k : Nat} (hk : 0 < k)
    (hk' : k ≤ 3 * 4096) :
    Sv39.Canonical (p.kernelStackAddr k)
      ∧ pageOf (p.kernelStackAddr k).toNat
        = stackStart p.pid + 1 - (k - 1) / 4096 := by
  have hpid := (h.pids.used _ (List.mem_map_of_mem hp)).1
  have hfew := h.few
  have hlow : p.pid < 0x81000 := Nat.lt_of_lt_of_le hpid hfew
  have htop : (kernelStackPosition p.pid).2 = 2 ^ 64 - 4096 - 12288 * p.pid := by
    clear hfew
    simp only [kernelStackPosition, TRAMPOLINE, KERNEL_STACK_SIZE, PAGE_SIZE]
    omega
  have hnat : (p.kernelStackAddr k).toNat
      = 2 ^ 64 - 4096 - 12288 * p.pid - k := by
    clear hfew
    rw [ProcessSpace.kernelStackAddr, UInt64.toNat_ofNat', htop]
    omega
  clear hfew
  refine ⟨Or.inr ?_, ?_⟩
  · rw [hnat]
    omega
  · rw [pageOf_toNat, hnat, stackStart]
    omega

/-- The frame behind such an address. -/
theorem stack_frame (h : Walkable img s) (hp : p ∈ s.procs) {k : Nat} (hk : 0 < k)
    (hk' : k ≤ 4096 * 2) :
    ∃ n, ∃ a ∈ s.kernel.areas, a.bounds = stackBounds p.pid
      ∧ (pageOf (p.kernelStackAddr k).toNat, n) ∈ a.dataFrames := by
  have hpid : p.pid ∈ s.procs.map ProcessSpace.pid := List.mem_map_of_mem hp
  obtain ⟨hgt, hstart, hle⟩ := (h.small _ hpid).stackStart_gt
  obtain ⟨-, hpage⟩ := h.stack_page hp hk (by omega)
  obtain ⟨a, ha, hbounds⟩ := List.mem_map.mp (h.stack_mem_bounds hpid)
  have hav : a.Has (pageOf (p.kernelStackAddr k).toNat) := by
    rw [MapArea.has_iff, hbounds, hpage, stackBounds]
    dsimp only
    omega
  have htype : a.mapType = .framed := by
    rcases h.area_cases ha hav with ⟨sec, hsec, hmaps⟩ | ⟨htype, -⟩
    · have hlow := sectionBounds_le img (List.mem_map_of_mem hsec)
      rw [← hmaps.bounds, hbounds, stackBounds] at hlow
      omega
    · exact htype
  obtain ⟨n, hn, -, -⟩ := (h.ok.kernelOk.space.ok a ha).exists_frame htype hav
  exact ⟨n, a, ha, hbounds, mem_of_lookup hn⟩

end Walkable

/-- What the processor reaches under the page tables of the kernel, in every state that the events
    lead to. -/
theorem kernel_access {img : KernelImage} {s₀ s : Machine} {tr : List ProcessEvent}
    (hboot : Machine.Boot img s₀) (hrun : Runs (FittingStep img) s₀ tr s) (mode : Mode)
    (sstatus va : UInt64) (a : Sv39.Access) (pa : Nat) :
    (Sv39.translate s.st.mem (s.regime mode sstatus) va a = some pa ↔ Sv39.Canonical va
      ∧ ∃ n perm, s.KernelPage img (pageOf va.toNat) n perm
        ∧ Sv39.Permits (s.regime mode sstatus) perm a ∧ pa = n * 4096 + va.toNat % 4096)
    ∧ (mode = .user → Sv39.translate s.st.mem (s.regime mode sstatus) va a = none)
    ∧ (Sv39.translate s.st.mem (s.regime mode sstatus) va .store = some pa →
      ∀ mode' sstatus' va', Sv39.translate s.st.mem (s.regime mode' sstatus') va' .fetch
        ≠ some pa) := by
  have h := Walkable.runs hboot hrun
  refine ⟨h.kernel_translate_iff, fun hmode => ?_, fun hstore mode' sstatus' va' hfetch => ?_⟩
  · refine Option.eq_none_iff_forall_ne_some.mpr fun pa' htr => ?_
    obtain ⟨-, n, perm, hpage, hperm, -⟩ := h.kernel_translate_iff.mp htr
    exact hperm.user_ne hmode (h.kernelPage_perm hpage).1
  · obtain ⟨-, n, perm, hpage, hperm, hpa⟩ := h.kernel_translate_iff.mp hstore
    obtain ⟨-, n', perm', hpage', hperm', hpa'⟩ := h.kernel_translate_iff.mp hfetch
    have hn : n = n' := by omega
    rcases (h.kernelPage_perm hpage).2 with ⟨rfl, -⟩ | ⟨-, hnot⟩
    · exact hperm.store_ne (by decide)
    · rcases (h.kernelPage_perm hpage').2 with ⟨-, htext⟩ | ⟨hX, -⟩
      · exact hnot (hn ▸ htext)
      · exact hperm'.fetch_ne hX

/-- The data of the kernel are not code, also when a program is there. -/
theorem kernel_access_data : ∃ s : Machine, s.procs ≠ []
    ∧ Sv39.translate s.st.mem (s.regime .supervisor 0) 0x80240000 .store = some 0x80240000
    ∧ ∀ mode sstatus va, Sv39.translate s.st.mem (s.regime mode sstatus) va .fetch
      ≠ some 0x80240000 := by
  obtain ⟨s₀, s, p, f, hboot, hstep, -, hprocs, -⟩ := exists_program
  obtain ⟨hiff, -, hwx⟩ := kernel_access hboot (Runs.single hstep) .supervisor 0 0x80240000 .store
    0x80240000
  let sec : KernelSection := ⟨0x80240000, 0x80300000, PTEFlags.R ||| PTEFlags.W⟩
  have hsec : sec ∈ (default : KernelImage).sections := .tail _ (.tail _ (.head _))
  have hpage : s.KernelPage default (pageOf (0x80240000 : UInt64).toNat) 0x80240 sec.perm :=
    .identical hsec (by decide) (by decide)
  have htr := hiff.mpr ⟨by decide, _, _, hpage, Sv39.Permits.supervisor rfl (by decide) rfl, rfl⟩
  refine ⟨s, ?_, htr, hwx htr⟩
  rw [hprocs]
  exact List.cons_ne_nil p []

/-- The stack that a trap of a process switches to: below its top are two pages in frames of its
    own, and below these an exception. -/
theorem kernel_stack {img : KernelImage} {s₀ s : Machine} {tr : List ProcessEvent}
    (hboot : Machine.Boot img s₀) (hrun : Runs (FittingStep img) s₀ tr s) {p : ProcessSpace}
    (hp : p ∈ s.procs) {k : Nat} (hk : 0 < k) (sstatus : UInt64) :
    (k ≤ KERNEL_STACK_SIZE → ∃ n,
      (∀ a, a ≠ .fetch → Sv39.translate s.st.mem (s.regime .supervisor sstatus)
        (p.kernelStackAddr k) a = some (n * 4096 + (p.kernelStackAddr k).toNat % 4096))
      ∧ img.ekernel ≤ n * 4096 ∧ ¬ s.st.alloc.Free n ∧ n ∉ s.sets.frames ∧ n ∉ s.tables
      ∧ ∀ q ∈ s.procs, ∀ b ∈ s.kernel.areas, b.bounds = stackBounds q.pid →
        ∀ w, (w, n) ∈ b.dataFrames → q.pid = p.pid
          ∧ w = pageOf (p.kernelStackAddr k).toNat)
    ∧ (KERNEL_STACK_SIZE < k → k ≤ KERNEL_STACK_SIZE + PAGE_SIZE → ∀ mode a,
      Sv39.translate s.st.mem (s.regime mode sstatus)
        (p.kernelStackAddr k) a = none) := by
  have h := Walkable.runs hboot hrun
  have hpid : p.pid ∈ s.procs.map ProcessSpace.pid := List.mem_map_of_mem hp
  have hsmall := h.small _ hpid
  obtain ⟨hgt, hstart, hle⟩ := hsmall.stackStart_gt
  constructor
  · intro hk'
    simp only [KERNEL_STACK_SIZE] at hk'
    obtain ⟨hcan, hpage⟩ := h.stack_page hp hk (by omega)
    obtain ⟨n, a, ha, hbounds, hframe⟩ := h.stack_frame hp hk hk'
    obtain ⟨h₁, h₂, h₃, h₄, h₅⟩ := h.stack_apart ha hframe
    refine ⟨n, fun acc hacc => ?_, h₁, h₂, h₃, h₄,
      fun q hq b hb hqb w hw => ?_⟩
    · exact h.kernel_translate_iff.mpr
        ⟨hcan, n, _, .stack hp ha hbounds hframe, Sv39.Permits.supervisor rfl hacc rfl, rfl⟩
    · have hwv := h₅ b hb w hw
      refine ⟨?_, hwv⟩
      by_contra hne
      have hapart := stackBounds_apart (h.small _ (List.mem_map_of_mem hq)) hsmall hne
      have hbw := (h.ok.kernelOk.space.ok b hb).has_of_mem hw
      rw [MapArea.has_iff, hqb, hwv, hpage, stackBounds] at hbw
      dsimp only at hbw
      omega
  · intro hk₁ hk₂ mode a
    simp only [KERNEL_STACK_SIZE, PAGE_SIZE] at hk₁ hk₂
    obtain ⟨-, hpage⟩ := h.stack_page hp hk (by omega)
    refine Option.eq_none_iff_forall_ne_some.mpr fun pa htr => ?_
    obtain ⟨-, n, perm, hkp, -⟩ := h.kernel_translate_iff.mp htr
    have hlook := (h.lookup_of_kernelPage hkp).2
    have hguard : stackStart p.pid + 1 - (k - 1) / 4096 = stackStart p.pid - 1 := by omega
    rw [hpage, hguard, h.guard_unmapped hpid] at hlook
    cases hlook

/-- The last byte of the stack of the first program, and the one below the stack. -/
theorem kernel_stack_program : ∃ (s : Machine) (p : ProcessSpace), p ∈ s.procs
    ∧ Sv39.translate s.st.mem (s.regime .supervisor 0) (p.kernelStackAddr 8192) .store ≠ none
    ∧ Sv39.translate s.st.mem (s.regime .supervisor 0) (p.kernelStackAddr 8193) .store = none := by
  obtain ⟨s₀, s, p, f, hboot, hstep, -, hprocs, -⟩ := exists_program
  have hp : p ∈ s.procs := by
    rw [hprocs]
    exact List.mem_singleton.mpr rfl
  obtain ⟨n, htr, -⟩ := (kernel_stack hboot (Runs.single hstep) hp (k := 8192) (by decide) 0).1
    (by decide)
  have hguard := (kernel_stack hboot (Runs.single hstep) hp (k := 8193) (by decide) 0).2
    (by decide) (by decide)
  refine ⟨s, p, hp, ?_, hguard .supervisor .store⟩
  rw [htr .store (by decide)]
  exact Option.some_ne_none _

end Nimloth
