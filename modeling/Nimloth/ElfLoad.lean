import Nimloth.ElfLayout

/-!
# Bytes of a loaded program

Where the bytes of the segments are after `from_elf`. `copy_data` fills
an area from the first byte of its first page on, also when the segment
starts within that page. What an address of the segment holds is
therefore the data further on by that offset.
-/

namespace Nimloth

open Outcome PageTable MemorySet

/-! ## Segments -/

/-- Byte `k` of a segment: from the file, then zeros. -/
def Elf.segmentByte (elf : Elf) (ph : ProgramHeader) (k : Nat) : UInt8 :=
  if k < ph.fileSize then elf.input.getD (ph.offset + k) 0 else 0

/-- A segment below the trap context, with memory for what the file has of it. -/
structure ProgramHeader.InPlace (ph : ProgramHeader) : Prop where
  pos : 0 < ph.memSize
  file : ph.fileSize ≤ ph.memSize
  below : ph.virtualAddr % 2 ^ 39 + ph.memSize ≤ TRAP_CONTEXT_VPN * 4096

instance (ph : ProgramHeader) : Decidable ph.InPlace :=
  decidable_of_iff (0 < ph.memSize ∧ ph.fileSize ≤ ph.memSize
    ∧ ph.virtualAddr % 2 ^ 39 + ph.memSize ≤ TRAP_CONTEXT_VPN * 4096)
    ⟨fun h => ⟨h.1, h.2.1, h.2.2⟩, fun h => ⟨h.pos, h.file, h.below⟩⟩

namespace ProgramHeader

variable {ph : ProgramHeader}

theorem InPlace.endVpn_eq (h : ph.InPlace) :
    ph.endVpn = (ph.virtualAddr % 2 ^ 39 + ph.memSize + 4095) / 4096 := by
  have hbelow := h.below
  simp only [TRAP_CONTEXT_VPN] at hbelow
  rw [ProgramHeader.endVpn_eq]
  omega

end ProgramHeader

/-- The slice of a segment is what the header says. -/
theorem slice_eq_some {input data : List UInt8} {lo n : Nat} (hn : n < 2 ^ 64)
    (h : slice input lo ((lo + n) % 2 ^ 64) = some data) : data.length = n
      ∧ ∀ k, data.getD k 0 = if k < n then input.getD (lo + k) 0 else 0 := by
  unfold slice at h
  split at h
  · next hle =>
      have hhi : (lo + n) % 2 ^ 64 = lo + n := by omega
      rw [hhi] at hle h
      have hlen : data.length = n := by
        rw [← Option.some.inj h, List.length_take, List.length_drop]
        omega
      refine ⟨hlen, fun k => ?_⟩
      by_cases hk : k < n
      · rw [if_pos hk, ← Option.some.inj h]
        simp only [List.getD_eq_getElem?_getD]
        rw [List.getElem?_take_of_lt (by omega), List.getElem?_drop]
      · rw [if_neg hk, List.getD_eq_default _ _ (by omega)]
  · cases h

/-- The area of a segment, with its bytes. -/
structure SegmentArea (elf : Elf) (m : Mem) (ph : ProgramHeader) (a : MapArea) : Prop where
  start : a.vpnRange.start = ph.startVpn
  end_ : a.vpnRange.end_ = ph.endVpn
  type : a.mapType = .framed
  perm : a.mapPerm = ph.mapPerm
  bytes : ∃ data, elf.segmentData ph = some data ∧ a.Holds m data

/-- Bytes stay where their frames do. -/
theorem SegmentArea.mono {elf : Elf} {m m' : Mem} {phs : List ProgramHeader} {as : List MapArea}
    (h : List.Forall₂ (SegmentArea elf m) phs as)
    (hs : ∀ p ∈ dataPpns as, Mem.SameFrame m m' p) :
    List.Forall₂ (SegmentArea elf m') phs as := by
  induction h with
  | nil => exact List.Forall₂.nil
  | @cons ph a phs as hpa _ ih =>
      have hsplit := dataPpns_cons a as
      refine List.Forall₂.cons ⟨hpa.start, hpa.end_, hpa.type, hpa.perm, ?_⟩
        (ih fun p hp => hs p (by simp [hsplit, hp]))
      obtain ⟨data, hdata, hholds⟩ := hpa.bytes
      refine ⟨data, hdata, fun v p hp k hk => ?_⟩
      have hmem : p ∈ a.ppns := List.mem_map_of_mem (mem_of_lookup hp)
      rw [hs p (by simp [hsplit, hmem]) _ (by omega)]
      exact hholds v p hp k hk

section Load

variable {img : KernelImage} {elf : Elf} {st : MemState} {ms : MemorySet}

/-- The loop of `from_elf`, for segments that are in place. -/
theorem loadSegments_holds {phs : List ProgramHeader} {maxEndVpn : Nat}
    (h : ms.UserOk img.trampoline st) (hin : ∀ ph ∈ phs, ph.isLoad = true → ph.InPlace) :
    Meets (fun _ => True) (loadSegments img elf ms maxEndVpn phs) st fun r st' =>
      r.1.UserOk img.trampoline st' ∧ (∀ p ∈ dataPpns ms.areas, Mem.SameFrame st.mem st'.mem p)
        ∧ ∃ as, r.1.areas = ms.areas ++ as
          ∧ List.Forall₂ (SegmentArea elf st'.mem) (phs.filter (·.isLoad)) as := by
  induction phs generalizing st ms maxEndVpn with
  | nil =>
      refine Meets.pure_iff.mpr ⟨h, fun p _ => Mem.SameFrame.refl _ p, [], ?_, List.Forall₂.nil⟩
      exact (List.append_nil _).symm
  | cons ph phs ih =>
      have hin' : ∀ q ∈ phs, q.isLoad = true → q.InPlace :=
        fun q hq => hin q (List.mem_cons_of_mem _ hq)
      rw [loadSegments]
      by_cases hload : ph.isLoad = true
      · have hplace := hin ph List.mem_cons_self hload
        have hbelow := hplace.below
        have hpos := hplace.pos
        have hfile := hplace.file
        simp only [TRAP_CONTEXT_VPN] at hbelow
        have hs := ph.startVpn_eq
        have he := hplace.endVpn_eq
        rw [if_pos hload, List.filter_cons_of_pos hload]
        simp only [MapArea.new, Meets.bind_iff]
        refine (VPNRange.new_meets fun _ => trivial).mono ?_
        rintro r _ ⟨rfl, hrs, hre⟩
        refine Meets.pure_iff.mpr ?_
        cases hdata : slice elf.input ph.offset ((ph.offset + ph.fileSize) % 2 ^ 64) with
        | none => exact Meets.unwrap_none.mpr trivial
        | some data =>
            rw [Meets.unwrap_some]
            have hrs' : r.start = ph.startVpn := hrs
            have hre' : r.end_ = ph.endVpn := hre
            have hlen := (slice_eq_some (by omega) hdata).1
            have hfits : Fits ⟨r, [], .framed, ph.mapPerm⟩ data := by
              constructor
              · dsimp only
                omega
              · dsimp only
                omega
            refine ((pushData_meets (X := fun _ => False) (a := ⟨r, [], .framed, ph.mapPerm⟩)
              rfl (by dsimp only; omega) (by dsimp only; omega) (fun _ => trivial)
              (fun _ => trivial) h.toOk h.framed rfl (Or.inl hfits) trivial).and
              (pushData_holds h.toOk (by omega) (by omega) hfits)).mono ?_
            rintro ms₁ st₁ ⟨hpush, hsame, a, hadded, hareas, hholds⟩
            refine (ih (hpush.userOk h) hin').mono ?_
            rintro ⟨ms₂, k⟩ st₂ ⟨hok, hsame', as, hareas', hsegs⟩
            dsimp only at hok hareas' ⊢
            have hmem : ∀ p, p ∈ dataPpns ms.areas ∨ p ∈ a.ppns → p ∈ dataPpns ms₁.areas := by
              intro p hp
              rw [hareas, dataPpns, List.flatMap_append, List.mem_append, List.flatMap_singleton]
              exact hp
            refine ⟨hok, fun p hp => (hsame p hp).trans (hsame' p (hmem p (Or.inl hp))), a :: as,
              ?_,
              List.Forall₂.cons ⟨?_, ?_, hadded.type, hadded.perm, data, hdata, ?_⟩ hsegs⟩
            · rw [hareas', hareas, List.append_assoc]
              rfl
            · rw [hadded.range]
              exact hrs'
            · rw [hadded.range]
              exact hre'
            · intro v p hp k hk
              have hppn : p ∈ a.ppns := List.mem_map_of_mem (mem_of_lookup hp)
              rw [hsame' p (hmem p (Or.inr hppn)) _ (by omega)]
              exact hholds v p hp k hk
      · rw [if_neg hload, List.filter_cons_of_neg hload]
        exact ih h hin'

/-- A push without data leaves the bytes of the areas that are there. -/
theorem pushNew_keeps {startVa endVa : Nat} {perm : MapPermission} {tramp : Nat}
    (h : ms.Ok tramp st) (hs : startVa < 2 ^ 39) (he : endVa < 2 ^ 39) :
    Meets (fun _ => True) (ms.pushNew startVa endVa .framed perm) st fun ms' st' =>
      ms'.Ok tramp st' ∧ (∀ p ∈ dataPpns ms.areas, Mem.SameFrame st.mem st'.mem p)
        ∧ ∃ a, ms'.areas = ms.areas ++ [a] := by
  have hceil := virtAddr_ceil_eq endVa
  have hkeep : Meets (fun _ => True) (ms.pushNew startVa endVa .framed perm) st fun ms' st' =>
      (∀ p ∈ dataPpns ms.areas, Mem.SameFrame st.mem st'.mem p)
        ∧ ∃ a, ms'.areas = ms.areas ++ [a] := by
    simp only [pushNew, MapArea.new, Meets.bind_iff]
    refine (VPNRange.new_meets fun _ => trivial).mono ?_
    rintro r _ ⟨rfl, hrs, hre⟩
    refine Meets.pure_iff.mpr ?_
    simp only [VirtAddr.floor, PAGE_SIZE] at hrs
    exact pushArea_holds h (by omega) (by omega)
  refine ((pushNew_meets (X := fun _ => False) h hs he (fun _ => trivial) (fun _ => trivial)
    fun _ => trivial).and hkeep).mono ?_
  rintro ms' st' ⟨⟨r, -, -, hpush⟩, hsame, a, hareas⟩
  exact ⟨hpush.ok, hsame, a, hareas⟩

theorem pushUserAreas_keeps {maxEndVpn tramp : Nat} (h : ms.Ok tramp st) :
    Meets (fun _ => True) (ms.pushUserAreas maxEndVpn) st fun r st' =>
      r.1.Ok tramp st' ∧ (∀ p ∈ dataPpns ms.areas, Mem.SameFrame st.mem st'.mem p)
        ∧ ∃ as, r.1.areas = ms.areas ++ as := by
  have hmem : ∀ {ms ms' : MemorySet} {a : MapArea}, ms'.areas = ms.areas ++ [a] →
      ∀ p ∈ dataPpns ms.areas, p ∈ dataPpns ms'.areas := by
    intro ms ms' a hareas p hp
    rw [hareas, dataPpns, List.flatMap_append, List.mem_append]
    exact Or.inl hp
  simp only [pushUserAreas, Meets.bind_iff]
  refine (pushNew_keeps h (virtAddr_lt _) (virtAddr_lt _)).mono ?_
  rintro ms₁ st₁ ⟨h₁, hs₁, a₁, ha₁⟩
  refine (pushNew_keeps h₁ (virtAddr_lt _) (virtAddr_lt _)).mono ?_
  rintro ms₂ st₂ ⟨h₂, hs₂, a₂, ha₂⟩
  refine (pushNew_keeps h₂ (virtAddr_lt _) (virtAddr_lt _)).mono ?_
  rintro ms₃ st₃ ⟨h₃, hs₃, a₃, ha₃⟩
  refine Meets.pure_iff.mpr ⟨h₃, fun p hp => ?_, [a₁, a₂, a₃], ?_⟩
  · have hp₁ := hmem ha₁ p hp
    exact ((hs₁ p hp).trans (hs₂ p hp₁)).trans (hs₃ p (hmem ha₂ p hp₁))
  · rw [ha₃, ha₂, ha₁, List.append_assoc, List.append_assoc]
    rfl

/-- The segments are in the address space that `from_elf` returns, each in its area. -/
theorem fromElf_holds (hwf : st.alloc.Wf) (hin : ∀ ph ∈ elf.loads, ph.InPlace) :
    Meets (fun _ => True) (fromElf img elf) st fun r st' => r.1.Ok img.trampoline st'
      ∧ ∃ as rest, r.1.areas = as ++ rest
        ∧ List.Forall₂ (SegmentArea elf st'.mem) elf.loads as := by
  have hin' : ∀ ph ∈ elf.programHeaders, ph.isLoad = true → ph.InPlace :=
    fun ph hp hload => hin ph (List.mem_filter.mpr ⟨hp, hload⟩)
  rw [fromElf_eq, Meets.bind_iff]
  refine (newUser_meets (X := fun _ => False) (Owns.nil hwf) fun _ => trivial).mono ?_
  rintro ms₀ st₀ ⟨hok, hnil, -, -⟩
  rw [Meets.bind_iff]
  refine (loadSegments_holds (hok.userOk_of_nil hnil) hin').mono ?_
  rintro ⟨ms₁, maxEndVpn⟩ st₁ ⟨hok₁, -, as, hareas, hsegs⟩
  dsimp only at hok₁ hareas hsegs ⊢
  rw [hnil, List.nil_append] at hareas
  rw [Meets.bind_iff]
  refine (pushUserAreas_keeps hok₁.toOk).mono ?_
  rintro ⟨ms₂, top⟩ st₂ ⟨hok₂, hsame, rest, hrest⟩
  refine Meets.pure_iff.mpr ⟨hok₂, as, rest, ?_, SegmentArea.mono hsegs fun p hp => ?_⟩
  · rw [← hareas]
    exact hrest
  · exact hsame p (hareas ▸ hp)

end Load

/-! ## Bytes at the segments' addresses -/

/-- The address space has the bytes of the segment at its addresses, with its permissions. -/
def Placed (elf : Elf) (m : Mem) (pt : PageTable) (ph : ProgramHeader) : Prop :=
  ∀ i, i < ph.memSize → ∃ e, pt.lookup m (pageOf (ph.virtualAddr + i)) = some e
    ∧ e.flags = ph.mapPerm ||| PTEFlags.V
    ∧ ∃ pa, physAt m pt (ph.virtualAddr + i) = some pa ∧ m pa = elf.segmentByte ph i

/-- A sequence that ends in zeros and is its own shift is all zeros. -/
theorem shift_eq_iff {B : Nat → UInt8} {n m off : Nat} (hzero : ∀ k, n ≤ k → B k = 0)
    (hle : n ≤ m) : (∀ i, i < m → B (off + i) = B i) ↔ off = 0 ∨ ∀ i, i < n → B i = 0 := by
  constructor
  · intro h
    by_cases hoff : off = 0
    · exact Or.inl hoff
    · right
      intro i hi
      -- from the end downwards
      obtain ⟨j, hj⟩ : ∃ j, n ≤ i + j := ⟨n, by omega⟩
      induction j generalizing i with
      | zero => exact hzero i hj
      | succ j ih =>
          rw [← h i (by omega)]
          by_cases hlt : off + i < n
          · exact ih (off + i) hlt (by omega)
          · exact hzero _ (Nat.not_lt.mp hlt)
  · rintro (rfl | h) i hi
    · rw [Nat.zero_add]
    · have hall : ∀ k, B k = 0 := fun k =>
        if hk : k < n then h k hk else hzero k (Nat.not_lt.mp hk)
      rw [hall, hall]

/-- What an address of a segment holds is further on in its data by the offset in its first
    page. -/
theorem placed_iff {elf : Elf} {tramp : Nat} {st : MemState} {ms : MemorySet} {ph : ProgramHeader}
    {a : MapArea} (h : ms.Ok tramp st) (ha : a ∈ ms.areas) (hseg : SegmentArea elf st.mem ph a)
    (hin : ph.InPlace) : Placed elf st.mem ms.pageTable ph
      ↔ ph.virtualAddr % 4096 = 0
        ∨ ∀ i, i < ph.fileSize → elf.input.getD (ph.offset + i) 0 = 0 := by
  obtain ⟨data, hdata, hholds⟩ := hseg.bytes
  have hbelow := hin.below
  have hfile := hin.file
  have hs := ph.startVpn_eq
  have he := hin.endVpn_eq
  simp only [TRAP_CONTEXT_VPN] at hbelow
  have hbyte : ∀ k, data.getD k 0 = elf.segmentByte ph k :=
    (slice_eq_some (by omega) hdata).2
  have hlt : ∀ p ∈ dataPpns ms.areas, p < 2 ^ 44 :=
    fun p hp => h.owns.lt_two_pow (List.mem_append_right _ hp)
  -- the byte at an address of the segment
  have hat : ∀ i, i < ph.memSize → ∃ e, ms.pageTable.lookup st.mem (pageOf (ph.virtualAddr + i))
      = some e ∧ e.flags = ph.mapPerm ||| PTEFlags.V
      ∧ ∃ pa, physAt st.mem ms.pageTable (ph.virtualAddr + i) = some pa
        ∧ st.mem pa = elf.segmentByte ph (ph.virtualAddr % 4096 + i) := by
    intro i hi
    have hpage : pageOf (ph.virtualAddr + i) = (ph.virtualAddr % 2 ^ 39 + i) / 4096 := by
      rw [pageOf_eq]
      omega
    have hhas : a.Has (pageOf (ph.virtualAddr + i)) := by
      rw [MapArea.Has, hseg.start, hseg.end_, hpage]
      omega
    obtain ⟨p, e, hp, hmem, hlook, hentry, hppn⟩ := framed_page h.space ha hseg.type hhas hlt
    refine ⟨e, hlook, ?_, p * 4096 + (ph.virtualAddr + i) % 4096, ?_, ?_⟩
    · rw [hentry, hseg.perm, PageTableEntry.flags_new (hlt p hmem)]
    · rw [physAt, hlook, Option.map_some, hppn]
    · rw [hholds _ p hp _ (Nat.mod_lt _ (by decide)), hbyte, hseg.start, hpage]
      congr 1
      omega
  have hshift : Placed elf st.mem ms.pageTable ph ↔ ∀ i, i < ph.memSize →
      elf.segmentByte ph (ph.virtualAddr % 4096 + i) = elf.segmentByte ph i := by
    constructor
    · intro hplaced i hi
      obtain ⟨-, -, -, pa, hpa, hval⟩ := hplaced i hi
      obtain ⟨-, -, -, pa', hpa', hval'⟩ := hat i hi
      rw [hpa, Option.some.injEq] at hpa'
      rw [← hval', ← hpa', hval]
    · intro heq i hi
      obtain ⟨e, hlook, hflags, pa, hpa, hval⟩ := hat i hi
      exact ⟨e, hlook, hflags, pa, hpa, hval.trans (heq i hi)⟩
  have hzero : ∀ k, ph.fileSize ≤ k → elf.segmentByte ph k = 0 :=
    fun k hk => if_neg (Nat.not_lt.mpr hk)
  rw [hshift, shift_eq_iff hzero hfile]
  refine or_congr Iff.rfl (forall_congr' fun i => imp_congr_right fun hi => ?_)
  rw [Elf.segmentByte, if_pos hi]

/-- One segment of a program that `from_elf` accepts. -/
theorem fromElf_placed_iff {img : KernelImage} {elf : Elf} {st st' : MemState} {ms : MemorySet}
    {r : Nat × Nat} {ph : ProgramHeader} (hwf : st.alloc.Wf) (hin : ∀ ph ∈ elf.loads, ph.InPlace)
    (hrun : fromElf img elf st = .ok ((ms, r), st')) (hph : ph ∈ elf.loads) :
    Placed elf st'.mem ms.pageTable ph
      ↔ ph.virtualAddr % 4096 = 0
        ∨ ∀ i, i < ph.fileSize → elf.input.getD (ph.offset + i) 0 = 0 := by
  obtain ⟨hok, as, rest, hareas, hsegs⟩ := (fromElf_holds hwf hin).ok hrun
  obtain ⟨a, ha, hseg⟩ := exists_right_of_forall₂ hsegs hph
  refine placed_iff hok ?_ hseg (hin ph hph)
  rw [hareas]
  exact List.mem_append_left _ ha

/-- All segments have their bytes if and only if each starts at a page or has but zeros. -/
theorem elf_bytes_placed {img : KernelImage} {elf : Elf} {st st' : MemState} {ms : MemorySet}
    {sp entry : Nat} (hwf : st.alloc.Wf) (hin : ∀ ph ∈ elf.loads, ph.InPlace)
    (hrun : fromElf img elf st = .ok ((ms, sp, entry), st')) :
    (∀ ph ∈ elf.loads, Placed elf st'.mem ms.pageTable ph) ↔ ∀ ph ∈ elf.loads,
      ph.virtualAddr % 4096 = 0 ∨ ∀ i, i < ph.fileSize → elf.input.getD (ph.offset + i) 0 = 0 :=
  forall_congr' fun _ => imp_congr_right fun hph => fromElf_placed_iff hwf hin hrun hph

theorem elf_bytes_placed_sorted : ∃ ms sp entry st',
    fromElf default sortedElf ⟨fun _ => 0, KernelImage.initFrameAllocator default⟩
      = .ok ((ms, sp, entry), st')
    ∧ ∀ ph ∈ sortedElf.loads, Placed sortedElf st'.mem ms.pageTable ph := by
  obtain ⟨ms, st', hrun, -⟩ := @exists_built sortedElf (by decide +kernel) (by decide)
  exact ⟨ms, _, _, st', hrun, (elf_bytes_placed (KernelImage.wf_initFrameAllocator default)
    (by decide) hrun).mpr (by decide)⟩

/-- Four bytes at `0x1010`. -/
def shiftedElf : Elf :=
  elfFile 0x1010 [⟨true, 0x1010, 16, 120, 4, true, false, true⟩] [1, 2, 3, 4]

/-- They are put at `0x1000`. -/
theorem shifted_segment_not_placed : (∀ ph ∈ shiftedElf.loads, ph.InPlace)
    ∧ ∃ ms sp entry st',
      fromElf default shiftedElf ⟨fun _ => 0, KernelImage.initFrameAllocator default⟩
        = .ok ((ms, sp, entry), st')
      ∧ ¬ ∀ ph ∈ shiftedElf.loads, Placed shiftedElf st'.mem ms.pageTable ph := by
  have hin : ∀ ph ∈ shiftedElf.loads, ph.InPlace := by decide
  obtain ⟨ms, st', hrun, -⟩ := @exists_built shiftedElf (by decide +kernel) (by decide)
  refine ⟨hin, ms, _, _, st', hrun, fun hall => ?_⟩
  have hph : ⟨true, 0x1010, 16, 120, 4, true, false, true⟩ ∈ shiftedElf.loads :=
    List.mem_singleton.mpr rfl
  exact absurd ((fromElf_placed_iff (KernelImage.wf_initFrameAllocator default) hin hrun hph).mp
    (hall _ hph)) (by decide)

end Nimloth
