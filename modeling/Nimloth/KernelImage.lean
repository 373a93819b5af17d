import Nimloth.MapArea

/-!
# The kernel's image in memory

The symbols of the linker script and what `MemorySet::new_kernel` maps
with them: each section of the kernel, the memory behind it and the device
registers, all identically. The kernel reads and writes frames at their
own addresses, so a store reaches a frame only where one of the sections
mapped writable has it (`KernelImage.Stores`). Elsewhere the store faults,
and a fault in the kernel is a panic of `trap_from_kernel`.
-/

namespace Nimloth

open PageTable

/-! ## The code -/

/-- `MEMORY_END`. -/
abbrev MEMORY_END : Nat := 0x81000000

/-- Device registers: address and size. -/
abbrev MMIO : List (Nat × Nat) := [(0x100000, 0x2000), (0x10001000, 0x1000)]

/-- The symbols of `linker.ld`, with what the script says of them. -/
structure KernelImage where
  stext : Nat
  strampoline : Nat
  etext : Nat
  srodata : Nat
  erodata : Nat
  sdata : Nat
  edata : Nat
  sbssWithStack : Nat
  ebss : Nat
  ekernel : Nat
  trampoline_aligned : strampoline % 4096 = 0
  trampoline_ge : stext ≤ strampoline
  trampoline_lt : strampoline < etext
  base : stext = 0x80200000
  text : etext = srodata
  rodata : srodata ≤ erodata ∧ erodata = sdata
  data : sdata ≤ edata ∧ edata = sbssWithStack
  bss : sbssWithStack ≤ ebss ∧ ebss = ekernel
  aligned : etext % 4096 = 0 ∧ erodata % 4096 = 0 ∧ edata % 4096 = 0 ∧ ekernel % 4096 = 0
  fits : ekernel < MEMORY_END

instance : Inhabited KernelImage where
  default := {
    stext := 0x80200000
    strampoline := 0x80201000
    etext := 0x80230000
    srodata := 0x80230000
    erodata := 0x80240000
    sdata := 0x80240000
    edata := 0x80300000
    sbssWithStack := 0x80300000
    ebss := 0x80700000
    ekernel := 0x80700000
    trampoline_aligned := by decide
    trampoline_ge := by decide
    trampoline_lt := by decide
    base := rfl
    text := rfl
    rodata := by decide
    data := by decide
    bss := by decide
    aligned := by decide
    fits := by decide }

/-- The frame of the trampoline. -/
def KernelImage.trampoline (img : KernelImage) : Nat := img.strampoline / 4096

/-- `init_frame_allocator`. -/
def KernelImage.initFrameAllocator (img : KernelImage) : StackFrameAllocator :=
  StackFrameAllocator.init ((img.ekernel - 1 + PAGE_SIZE) / PAGE_SIZE) (MEMORY_END / PAGE_SIZE)

/-- A range that is mapped identically. -/
structure KernelSection where
  start : Nat
  end_ : Nat
  perm : MapPermission

/-- What `new_kernel` pushes, in its order. -/
def KernelImage.sections (img : KernelImage) : List KernelSection :=
  [⟨img.stext, img.etext, PTEFlags.R ||| PTEFlags.X⟩,
    ⟨img.srodata, img.erodata, PTEFlags.R⟩,
    ⟨img.sdata, img.edata, PTEFlags.R ||| PTEFlags.W⟩,
    ⟨img.sbssWithStack, img.ebss, PTEFlags.R ||| PTEFlags.W⟩,
    ⟨img.ekernel, MEMORY_END, PTEFlags.R ||| PTEFlags.W⟩]
  ++ MMIO.map fun pair => ⟨pair.1, pair.1 + pair.2, PTEFlags.R ||| PTEFlags.W⟩

/-- The kernel can store to frame `p`: a section that is mapped writable has it. -/
def KernelImage.Stores (img : KernelImage) (p : Nat) : Prop :=
  ∃ sec ∈ img.sections,
    sec.perm &&& PTEFlags.W ≠ 0 ∧ sec.start ≤ p * 4096 ∧ p * 4096 < sec.end_

instance (img : KernelImage) (p : Nat) : Decidable (img.Stores p) :=
  inferInstanceAs (Decidable (∃ sec ∈ img.sections, _))

/-! ## Where things are -/

namespace KernelImage

variable (img : KernelImage)

/-- The sections follow each other. -/
theorem sections_le :
    0x80200000 = img.stext ∧ img.stext ≤ img.etext ∧ img.etext ≤ img.erodata
      ∧ img.erodata ≤ img.edata ∧ img.edata ≤ img.ekernel ∧ img.ekernel < 0x81000000 := by
  have h₀ := img.base
  have h₁ := img.trampoline_ge
  have h₂ := img.trampoline_lt
  have h₃ := img.text
  have h₄ := img.rodata
  have h₅ := img.data
  have h₆ := img.bss
  have h₇ := img.fits
  simp only [MEMORY_END] at h₇
  omega

theorem bounds :
    0x80200000 ≤ img.strampoline ∧ img.strampoline < img.ekernel ∧ img.ekernel < 0x81000000 := by
  have hle := img.sections_le
  have hge := img.trampoline_ge
  have hlt := img.trampoline_lt
  omega

theorem trampoline_eq : img.trampoline * 4096 = img.strampoline := by
  have h := img.trampoline_aligned
  unfold trampoline
  omega

theorem trampoline_lt_two_pow : img.trampoline < 2 ^ 44 := by
  have h := img.bounds
  unfold trampoline
  omega

theorem trampoline_pos : 0 < img.trampoline := by
  have h := img.bounds
  unfold trampoline
  omega

theorem wf_initFrameAllocator : img.initFrameAllocator.Wf := by
  have h := img.bounds
  refine StackFrameAllocator.wf_init ?_ ?_ ?_
  · simp only [PAGE_SIZE]
    omega
  · simp only [PAGE_SIZE, MEMORY_END]
    omega
  · simp only [PAGE_SIZE, MEMORY_END]
    omega

/-- The frames handed out lie behind the kernel. -/
theorem bounds_of_free {p : Nat} (h : img.initFrameAllocator.Free p) :
    img.ekernel ≤ p * 4096 ∧ p * 4096 < MEMORY_END := by
  have hb := img.bounds
  rcases h with hm | ⟨hge, hlt⟩
  · exact absurd hm List.not_mem_nil
  · simp only [initFrameAllocator, StackFrameAllocator.init, PAGE_SIZE, MEMORY_END] at hge hlt ⊢
    omega

theorem stores_of_free {p : Nat} (h : img.initFrameAllocator.Free p) : img.Stores p := by
  obtain ⟨hge, hlt⟩ := img.bounds_of_free h
  have hin : (⟨img.ekernel, MEMORY_END, PTEFlags.R ||| PTEFlags.W⟩ : KernelSection)
      ∈ img.sections := .tail _ (.tail _ (.tail _ (.tail _ (.head _))))
  have hperm : (PTEFlags.R ||| PTEFlags.W) &&& PTEFlags.W ≠ 0 := by decide
  exact ⟨_, hin, hperm, hge, hlt⟩

/-- A frame that can be stored to is not within `.text`, and not below all sections. -/
theorem Stores.bounds {p : Nat} (h : img.Stores p) :
    0x100000 ≤ p * 4096 ∧ (p * 4096 < img.stext ∨ img.etext ≤ p * 4096) := by
  obtain ⟨sec, hsec, hperm, hge, hlt⟩ := h
  have hle := img.sections_le
  have htext := img.text
  have hrodata := img.rodata
  have hdata := img.data
  simp only [sections, MMIO, List.map_cons, List.map_nil, List.cons_append, List.nil_append,
    List.mem_cons, List.not_mem_nil, or_false] at hsec
  rcases hsec with rfl | rfl | rfl | rfl | rfl | rfl | rfl
  · have htextPerm : (PTEFlags.R ||| PTEFlags.X) &&& PTEFlags.W = 0 := by decide
    exact absurd htextPerm hperm
  · have hrodataPerm : PTEFlags.R &&& PTEFlags.W = 0 := by decide
    exact absurd hrodataPerm hperm
  all_goals
    dsimp only at hge hlt
    omega

theorem not_stores_zero : ¬ img.Stores 0 :=
  fun h => absurd h.bounds.1 (by decide)

theorem not_stores_trampoline : ¬ img.Stores img.trampoline := by
  intro h
  have hout := h.bounds.2
  have hge := img.trampoline_ge
  have hlt := img.trampoline_lt
  rw [img.trampoline_eq] at hout
  omega

theorem trampoline_lt_ekernel : img.trampoline * 4096 < img.ekernel :=
  img.trampoline_eq ▸ img.bounds.2.1

end KernelImage

/-! ## Frames that can be stored to -/

/-- The kernel can store to the frames `S`, and to those that are left to hand out. -/
def KernelImage.Backs (img : KernelImage) (st : MemState) (S : List Nat) : Prop :=
  ∀ p, st.alloc.Free p ∨ p ∈ S → img.Stores p

namespace KernelImage.Backs

variable {img : KernelImage} {X : Nat → Prop} {st st' : MemState} {S S' : List Nat}

theorem init (img : KernelImage) (m : Mem) : img.Backs ⟨m, img.initFrameAllocator⟩ [] :=
  fun _ h => img.stores_of_free (h.resolve_right List.not_mem_nil)

theorem subset (h : img.Backs st S) (hs : S' ⊆ S) : img.Backs st S' :=
  fun p hp => h p (hp.imp_right fun hmem => hs hmem)

/-- Frames that come to be held were left to hand out. -/
theorem moves (h : img.Backs st S) (hm : Moves X st S st' S') : img.Backs st' S' := by
  intro p hp
  by_contra hno
  have hused : ¬ st.alloc.Free p := fun hf => hno (h p (Or.inl hf))
  have hout : p ∉ S := fun hmem => hno (h p (Or.inr hmem))
  exact hp.elim (hm.used p hused hout) (hm.apart p hused hout)

theorem not_free (h : img.Backs st S) : ¬ st.alloc.Free img.trampoline :=
  fun hf => img.not_stores_trampoline (h _ (Or.inl hf))

theorem not_mem (h : img.Backs st S) : img.trampoline ∉ S :=
  fun hmem => img.not_stores_trampoline (h _ (Or.inr hmem))

end KernelImage.Backs

end Nimloth
