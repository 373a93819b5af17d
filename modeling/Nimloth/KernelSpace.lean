import Mathlib.Data.List.Perm.Basic
import Nimloth.MemorySet

/-!
# The kernel's address space

`MemorySet::new_kernel` maps the sections of the kernel, the rest of the
memory and the device registers identically. Kernel stacks are framed
areas below the trampoline, one for each pid, with a page between two of
them.

That `new_kernel` returns (`newKernel_returns`) needs a better count of
frames than one of three for each page: tables of 512 entries are shared
by neighbouring pages.
-/

namespace Nimloth

open Outcome PageTable MemorySet

/-! ## The code -/

abbrev KERNEL_STACK_SIZE : Nat := 4096 * 2

namespace MemorySet

def pushSections : MemorySet → List KernelSection → MemM MemorySet
  | ms, [] => pure ms
  | ms, sec :: secs => do
      let ms ← ms.pushNew (VirtAddr.from sec.start) (VirtAddr.from sec.end_) .identical sec.perm
      ms.pushSections secs

def newKernel (img : KernelImage) : MemM MemorySet := do
  let ms ← newBare
  let ms ← ms.mapTrampoline img
  ms.pushSections img.sections

end MemorySet

/-- `kernel_stack_position`: bottom and top. -/
def kernelStackPosition (appId : Nat) : Nat × Nat :=
  let top := (TRAMPOLINE + 2 ^ 64 - (KERNEL_STACK_SIZE + PAGE_SIZE) * appId % 2 ^ 64) % 2 ^ 64
  let bottom := (top + 2 ^ 64 - KERNEL_STACK_SIZE) % 2 ^ 64
  (bottom, top)

/-- `KernelStack::new` for a pid; `kernel` is `KERNEL_SPACE`. -/
def KernelStack.new (kernel : MemorySet) (pid : Nat) : MemM MemorySet :=
  kernel.insertFramedArea (VirtAddr.from (kernelStackPosition pid).1)
    (VirtAddr.from (kernelStackPosition pid).2) (PTEFlags.R ||| PTEFlags.W)

/-- `KernelStack::drop`. -/
def KernelStack.drop (kernel : MemorySet) (pid : Nat) : MemM MemorySet := do
  let kernelStackBottomVa := VirtAddr.from (kernelStackPosition pid).1
  ensure .notAligned (kernelStackBottomVa % PAGE_SIZE = 0)
  kernel.removeAreaWithStartVpn (VirtAddr.floor kernelStackBottomVa)

/-! ## Ranges of pages -/

/-- First page and end of an area. -/
def MapArea.bounds (a : MapArea) : Nat × Nat := (a.vpnRange.start, a.vpnRange.end_)

def KernelSection.bounds (sec : KernelSection) : Nat × Nat :=
  (VirtAddr.floor (VirtAddr.from sec.start), VirtAddr.ceil (VirtAddr.from sec.end_))

/-- The ranges of `new_kernel`. -/
def KernelImage.sectionBounds (img : KernelImage) : List (Nat × Nat) :=
  img.sections.map KernelSection.bounds

/-- The stack of `pid` does not come down to what is mapped identically. -/
def SmallPid (pid : Nat) : Prop :=
  MEMORY_END + KERNEL_STACK_SIZE + (KERNEL_STACK_SIZE + PAGE_SIZE) * pid ≤ 2 ^ 39 - PAGE_SIZE

instance (pid : Nat) : Decidable (SmallPid pid) := Nat.decLe _ _

/-- The first page of the stack. -/
def stackStart (pid : Nat) : Nat := 2 ^ 27 - 3 - 3 * pid

def stackBounds (pid : Nat) : Nat × Nat := (stackStart pid, stackStart pid + 2)

theorem SmallPid.stackStart_gt {pid : Nat} (h : SmallPid pid) :
    0x81000 < stackStart pid ∧ stackStart pid = 2 ^ 27 - 3 - 3 * pid ∧ 3 * pid + 3 ≤ 2 ^ 27 := by
  simp only [SmallPid, MEMORY_END, KERNEL_STACK_SIZE, PAGE_SIZE] at h
  unfold stackStart
  omega

/-- Stacks are two pages long and three apart. -/
theorem SmallPid.position {pid : Nat} (h : SmallPid pid) :
    VirtAddr.floor (VirtAddr.from (kernelStackPosition pid).1) = stackStart pid
      ∧ VirtAddr.ceil (VirtAddr.from (kernelStackPosition pid).2) = stackStart pid + 2
      ∧ VirtAddr.from (kernelStackPosition pid).1 % PAGE_SIZE = 0 := by
  obtain ⟨-, heq, hle⟩ := h.stackStart_gt
  have htop : (kernelStackPosition pid).2 = 2 ^ 64 - 4096 - 12288 * pid := by
    simp only [kernelStackPosition, TRAMPOLINE, KERNEL_STACK_SIZE, PAGE_SIZE]
    omega
  have hbottom : (kernelStackPosition pid).1 = 2 ^ 64 - 12288 - 12288 * pid := by
    have : (kernelStackPosition pid).1
        = ((kernelStackPosition pid).2 + 2 ^ 64 - KERNEL_STACK_SIZE) % 2 ^ 64 := rfl
    rw [this, htop]
    simp only [KERNEL_STACK_SIZE]
    omega
  rw [htop, hbottom, heq, virtAddr_ceil_eq]
  simp only [VirtAddr.from, VirtAddr.floor, PAGE_SIZE, Nat.and_two_pow_sub_one_eq_mod]
  omega

theorem KernelSection.bounds_eq {start end_ : Nat} (perm : MapPermission) (hs : start < 2 ^ 39)
    (he : end_ < 2 ^ 39) (hs' : start % 4096 = 0) (he' : end_ % 4096 = 0) :
    (KernelSection.mk start end_ perm).bounds = (start / 4096, end_ / 4096) := by
  simp only [bounds, virtAddr_ceil_eq, VirtAddr.from, VirtAddr.floor, PAGE_SIZE,
    Nat.and_two_pow_sub_one_eq_mod, Prod.mk.injEq]
  omega

namespace KernelImage

variable (img : KernelImage)

/-- The ranges of `new_kernel`, in pages. -/
theorem sectionBounds_eq :
    img.sectionBounds = [(0x80200, img.etext / 4096), (img.etext / 4096, img.erodata / 4096),
      (img.erodata / 4096, img.edata / 4096), (img.edata / 4096, img.ekernel / 4096),
      (img.ekernel / 4096, 0x81000), (0x100, 0x102), (0x10001, 0x10002)] := by
  have hle := img.sections_le
  obtain ⟨h₁, h₂, h₃, h₄⟩ := img.aligned
  have htext := img.text
  have hrodata := img.rodata.2
  have hdata := img.data.2
  have hbss := img.bss.2
  simp only [sectionBounds, sections, List.map_cons, List.map_nil, List.cons_append,
    List.nil_append]
  rw [KernelSection.bounds_eq _ (by omega) (by omega) (by omega) (by omega),
    KernelSection.bounds_eq _ (by omega) (by omega) (by omega) (by omega),
    KernelSection.bounds_eq _ (by omega) (by omega) (by omega) (by omega),
    KernelSection.bounds_eq _ (by omega) (by omega) (by omega) (by omega),
    KernelSection.bounds_eq _ (by omega) (by decide) (by omega) (by decide),
    KernelSection.bounds_eq _ (by decide) (by decide) (by decide) (by decide),
    KernelSection.bounds_eq _ (by decide) (by decide) (by decide) (by decide),
    img.base, ← htext, ← hrodata, ← hdata, hbss]
  rfl

end KernelImage

/-! ## The frames of identical areas -/

section Returns

variable {st : MemState} {pt : PageTable} {ms : MemorySet}

/-- Pages with one table are found or not found together. -/
theorem translate_eq_none_congr {m : Mem} {v w : Nat} (h : v / 512 = w / 512) :
    pt.translate m v = none ↔ pt.translate m w = none := by
  have hpath : vpnPath v = vpnPath w := by
    simp only [vpnPath, List.cons.injEq, and_true]
    omega
  rw [translate_eq, translate_eq, hpath, Option.map_eq_none_iff, Option.map_eq_none_iff]

/-- Mapping identically returns; `t` is 0 if the first page has its table. -/
theorem mapPages_identical_returns {a : MapArea} (htype : a.mapType = .identical) {s n t : Nat}
    (ht : Tree st.mem pt) (ho : Owns st pt.frames) (hlt : s + n ≤ 2 ^ 27)
    (hfresh : ∀ v, s ≤ v → v < s + n → pt.lookup st.mem v = none)
    (htable : pt.translate st.mem s = none → 1 ≤ t)
    (hav : 2 * ((s + n) / 512 - s / 512 + t) ≤ st.alloc.available) :
    Meets (fun _ => False) (a.mapPages pt (List.range' s n)) st fun _ st' =>
      st.alloc.available ≤ st'.alloc.available + 2 * ((s + n) / 512 - s / 512 + t) := by
  induction n generalizing st pt s t with
  | zero => exact Meets.pure_iff.mpr (Nat.le_add_right _ _)
  | succ n ih =>
      rw [List.range'_succ, MapArea.mapPages, MapArea.mapOne, htype]
      simp only [Meets.bind_iff]
      refine (map_meets (X := fun _ => False) (k := 2 * t) ht ho (by omega)
        (Nat.lt_of_lt_of_le (by omega : s < 2 ^ 27) (by decide)) ?_ ?_ ?_).mono ?_
      · intro hnone
        have := htable hnone
        omega
      · intro h
        omega
      · exact fun h => h (hfresh s (Nat.le_refl s) (by omega))
      rintro pt₁ st₁ ⟨hg, -, hl⟩
      refine Meets.pure_iff.mpr ?_
      have hgav := hg.avail
      -- a new table is met at a multiple of 512 only
      have hfresh₁ : ∀ v, s + 1 ≤ v → v < s + 1 + n → pt₁.lookup st₁.mem v = none := by
        intro v hge hv
        rw [hl v (by omega), if_neg (by omega)]
        exact hfresh v (by omega) (by omega)
      by_cases hnext : (s + 1) % 512 = 0
      · refine (ih (t := 1) hg.tree hg.moves.owns (by omega) hfresh₁ (fun _ => Nat.le_refl 1)
          (by omega)).mono ?_
        intro _ st' hst'
        omega
      · have htable₁ : pt₁.translate st₁.mem (s + 1) ≠ none := by
          rw [ne_eq, translate_eq_none_congr (show (s + 1) / 512 = s / 512 by omega)]
          have hs := hl s (by omega)
          rw [if_pos rfl] at hs
          rw [translate_of_lookup hs]
          exact Option.some_ne_none _
        refine (ih (t := 0) hg.tree hg.moves.owns (by omega) hfresh₁
          (fun h => absurd h htable₁) (by omega)).mono ?_
        intro _ st' hst'
        omega

theorem pushNew_identical_returns {tramp startVa endVa : Nat} {perm : MapPermission}
    (h : ms.Ok tramp st) (he : endVa < 2 ^ 39)
    (hle : VirtAddr.floor startVa ≤ VirtAddr.ceil endVa)
    (hfresh : ∀ v, VirtAddr.floor startVa ≤ v → v < VirtAddr.ceil endVa →
      ms.pageTable.lookup st.mem v = none)
    (hav : 2 * (VirtAddr.ceil endVa / 512 - VirtAddr.floor startVa / 512 + 1)
      ≤ st.alloc.available) :
    Meets (fun _ => False) (ms.pushNew startVa endVa .identical perm) st fun _ st' =>
      st.alloc.available ≤ st'.alloc.available
        + 2 * (VirtAddr.ceil endVa / 512 - VirtAddr.floor startVa / 512 + 1) := by
  have hceil := virtAddr_ceil_eq endVa
  simp only [pushNew, MapArea.new, pushArea, MapArea.map, Meets.bind_iff]
  refine (VPNRange.new_meets (fun h => absurd h (Nat.not_lt_of_le hle))).mono ?_
  rintro r _ ⟨rfl, hrs, hre⟩
  refine Meets.pure_iff.mpr ?_
  have hsum : r.start + (r.end_ - r.start) = r.end_ := Nat.add_sub_cancel' r.le
  refine (mapPages_identical_returns (t := 1) rfl h.space.tree h.owns.left ?_ ?_
    (fun _ => Nat.le_refl 1) ?_).mono ?_
  · dsimp only
    omega
  · intro v hge hv
    dsimp only at hge hv
    exact hfresh v (hrs ▸ hge) (by omega)
  · rw [hsum, hrs, hre]
    exact hav
  · rintro ⟨a', pt'⟩ st' hst'
    rw [hsum, hrs, hre] at hst'
    exact Meets.pure_iff.mpr hst'

/-- Every section in turn becomes an area. -/
theorem pushSections_meets {X : Nat → Prop} {tramp : Nat} {secs : List KernelSection}
    (h : ms.Ok tramp st) :
    Meets (fun _ => True) (ms.pushSections secs) st fun ms' st' =>
      ms'.Ok tramp st' ∧ Moves X st ms.frames st' ms'.frames
        ∧ ms'.areas.map MapArea.bounds
          = ms.areas.map MapArea.bounds ++ secs.map KernelSection.bounds
        ∧ Keeps st ms.pageTable st' ms'.pageTable := by
  induction secs generalizing st ms with
  | nil => exact Meets.pure_iff.mpr ⟨h, Moves.refl h.owns, by simp, Keeps.refl st ms.pageTable⟩
  | cons sec secs ih =>
      rw [pushSections, Meets.bind_iff]
      refine (pushNew_meets (X := X) h (virtAddr_lt _) (virtAddr_lt _) (fun _ => trivial)
        (fun _ => trivial) (fun _ => trivial)).mono ?_
      rintro ms₁ st₁ ⟨r, hrs, hre, hpush⟩
      obtain ⟨a, hadded, hareas⟩ := hpush.areas
      have hbounds : a.bounds = sec.bounds := by
        rw [MapArea.bounds, hadded.range, hrs, hre]
        rfl
      refine (ih hpush.ok).mono ?_
      rintro ms' st' ⟨hok, hm, hb, hkeeps⟩
      refine ⟨hok, hpush.moves.trans hm, ?_, hpush.keeps.trans hkeeps⟩
      rw [hb, hareas]
      simp [hbounds]

/-- How many tables the sections need at most. -/
def sectionTables (bounds : List (Nat × Nat)) : Nat :=
  (bounds.map fun b => b.2 / 512 - b.1 / 512 + 1).sum

/-- Sections apart from each other and from what is mapped. -/
theorem pushSections_returns {tramp : Nat} {secs : List KernelSection} (h : ms.Ok tramp st)
    (hle : ∀ b ∈ secs.map KernelSection.bounds, b.1 ≤ b.2 ∧ b.2 ≤ TRAMPOLINE_VPN)
    (hapart : (secs.map KernelSection.bounds).Pairwise fun b c => b.2 ≤ c.1 ∨ c.2 ≤ b.1)
    (hold : ∀ a ∈ ms.areas, ∀ b ∈ secs.map KernelSection.bounds,
      a.bounds.2 ≤ b.1 ∨ b.2 ≤ a.bounds.1)
    (hav : 2 * sectionTables (secs.map KernelSection.bounds) ≤ st.alloc.available) :
    Meets (fun _ => False) (ms.pushSections secs) st fun _ st' =>
      st.alloc.available
        ≤ st'.alloc.available + 2 * sectionTables (secs.map KernelSection.bounds) := by
  induction secs generalizing st ms with
  | nil => exact Meets.pure_iff.mpr (Nat.le_add_right _ _)
  | cons sec secs ih =>
      rw [List.map_cons] at hle hapart hold hav ⊢
      obtain ⟨hfirst, hrest⟩ := List.pairwise_cons.mp hapart
      obtain ⟨hsle, hstr⟩ := hle sec.bounds List.mem_cons_self
      have hcount : sectionTables (sec.bounds :: secs.map KernelSection.bounds)
          = sec.bounds.2 / 512 - sec.bounds.1 / 512 + 1
            + sectionTables (secs.map KernelSection.bounds) := by
        simp [sectionTables]
      rw [hcount] at hav ⊢
      have hfresh : ∀ v, sec.bounds.1 ≤ v → v < sec.bounds.2 →
          ms.pageTable.lookup st.mem v = none := by
        intro v hge hlt
        simp only [TRAMPOLINE_VPN] at hstr
        by_contra hne
        rcases h.space.only v (by omega) hne with heq | ⟨a, ha, hav₁, hav₂⟩
        · simp only [TRAMPOLINE_VPN] at heq
          omega
        · have := hold a ha sec.bounds List.mem_cons_self
          simp only [MapArea.bounds] at this
          omega
      rw [pushSections, Meets.bind_iff]
      refine ((pushNew_identical_returns h (virtAddr_lt _) hsle hfresh (by
        show 2 * (sec.bounds.2 / 512 - sec.bounds.1 / 512 + 1) ≤ _
        omega)).and (pushNew_meets (X := fun _ => False) h (virtAddr_lt _) (virtAddr_lt _)
          (fun _ => trivial) (fun _ => trivial) (fun _ => trivial))).mono ?_
      rintro ms₁ st₁ ⟨hav₁, r, hrs, hre, hpush⟩
      change _ ≤ _ + 2 * (sec.bounds.2 / 512 - sec.bounds.1 / 512 + 1) at hav₁
      obtain ⟨a, hadded, hareas⟩ := hpush.areas
      refine (ih hpush.ok (fun b hb => hle b (List.mem_cons_of_mem _ hb)) hrest ?_
        (by omega)).mono ?_
      · intro b hb c hc
        rw [hareas] at hb
        rcases List.mem_append.mp hb with hb | hb
        · exact hold b hb c (List.mem_cons_of_mem _ hc)
        · have hbounds : b.bounds = sec.bounds := by
            rw [List.mem_singleton.mp hb, MapArea.bounds, hadded.range, hrs, hre]
            rfl
          rw [hbounds]
          exact hfirst c hc
      · intro _ st' hst'
        omega

end Returns

/-! ## `new_kernel` -/

section NewKernel

variable {img : KernelImage} {st : MemState}

theorem newKernel_eq (img : KernelImage) :
    newKernel img = ((do let ms ← newBare; ms.mapTrampoline img) >>= fun ms =>
      ms.pushSections img.sections) := by
  simp only [newKernel, bind_assoc]

theorem newKernel_meets {X : Nat → Prop} (hwf : st.alloc.Wf) :
    Meets (fun _ => True) (newKernel img) st fun ms st' =>
      ms.Ok img.trampoline st' ∧ Moves X st [] st' ms.frames
        ∧ ms.areas.map MapArea.bounds = img.sectionBounds := by
  rw [newKernel_eq, Meets.bind_iff]
  refine (newUser_meets (X := X) (Owns.nil hwf) (fun _ => trivial)).mono ?_
  rintro ms₀ st₀ ⟨hok, hnil, hm, -⟩
  refine (pushSections_meets (X := X) hok).mono ?_
  rintro ms st' ⟨hok', hm', hbounds, -⟩
  rw [hnil] at hbounds
  exact ⟨hok', hm.trans hm', hbounds⟩

/-- It takes 31 frames at most. -/
theorem newKernel_returns (hwf : st.alloc.Wf) (hav : 31 ≤ st.alloc.available) :
    Meets (fun _ => False) (newKernel img) st fun _ st' =>
      st.alloc.available ≤ st'.alloc.available + 31 := by
  have hle := img.sections_le
  have hbounds : img.sections.map KernelSection.bounds = _ := img.sectionBounds_eq
  have hcount : sectionTables (img.sections.map KernelSection.bounds) ≤ 14 := by
    rw [hbounds]
    simp only [sectionTables, List.map_cons, List.map_nil, List.sum_cons, List.sum_nil]
    omega
  rw [newKernel_eq, Meets.bind_iff]
  refine (newUser_meets (X := fun _ => False) (Owns.nil hwf) (fun h => by omega)).mono ?_
  rintro ms₀ st₀ ⟨hok, hnil, -, hav₀⟩
  refine (pushSections_returns hok ?_ ?_ ?_ (by omega)).mono ?_
  · rw [hbounds]
    simp only [List.mem_cons, List.not_mem_nil, or_false, forall_eq_or_imp, forall_eq,
      TRAMPOLINE_VPN]
    omega
  · rw [hbounds]
    simp only [List.pairwise_cons, List.mem_cons, List.not_mem_nil, or_false, forall_eq_or_imp,
      forall_eq, List.Pairwise.nil, and_true, false_imp_iff, implies_true]
    omega
  · rw [hnil]
    exact fun a ha => absurd ha List.not_mem_nil
  · intro _ st' hst'
    omega

/-- No frame is given back on the way. -/
theorem newUser_bump (hwf : st.alloc.Wf) :
    Meets (fun _ => True) (do let ms ← newBare; ms.mapTrampoline img) st fun _ st' =>
      st.alloc.recycled = [] → st'.alloc.recycled = [] := by
  simp only [newBare, Meets.bind_iff]
  have hnew : Meets (fun _ => True) PageTable.new st fun _ st' =>
      st.alloc.recycled = [] → st'.alloc.recycled = [] := by
    rw [PageTable.new, Meets.bind_iff]
    refine (frameAlloc_bump st).mono ?_
    exact fun _ _ h => Meets.pure_iff.mpr fun hr => (h hr).2.1
  refine ((new_meets (X := fun _ => False) (Owns.nil hwf) (fun _ => trivial)).and hnew).mono ?_
  rintro pt st₁ ⟨⟨ht, hm, -, -⟩, hbump⟩
  refine Meets.pure_iff.mpr ?_
  rw [mapTrampoline, Meets.bind_iff, Meets.ensure_iff, floor_trampoline]
  refine ⟨fun _ => ?_, fun _ => trivial⟩
  rw [Meets.bind_iff]
  refine (map_meets (X := fun _ => False) (k := 2) ht hm.owns (by decide)
    img.trampoline_lt_two_pow (fun _ => Nat.le_refl 2) (fun _ => trivial)
    (fun _ => trivial)).mono ?_
  rintro pt' st' ⟨hg, -, -⟩
  exact Meets.pure_iff.mpr fun hr => hg.keeps.bump (hbump hr)

theorem newKernel_bump (hwf : st.alloc.Wf) :
    Meets (fun _ => True) (newKernel img) st fun _ st' =>
      st.alloc.recycled = [] → st'.alloc.recycled = [] := by
  rw [newKernel_eq, Meets.bind_iff]
  refine ((newUser_meets (X := fun _ => False) (Owns.nil hwf) (fun _ => trivial)).and
    (newUser_bump hwf)).mono ?_
  rintro ms₀ st₀ ⟨⟨hok, -, -, -⟩, hbump⟩
  refine (pushSections_meets (X := fun _ => False) hok).mono ?_
  rintro ms st' ⟨-, -, -, hkeeps⟩ hr
  exact hkeeps.bump (hbump hr)

end NewKernel

/-! ## Kernel stacks -/

section Stacks

variable {X : Nat → Prop} {E : MemPanic → Prop} {tramp : Nat} {st : MemState}
  {kernel : MemorySet} {pid : Nat}

/-- The pages of an area that is gone are not mapped, the others are as before. -/
theorem lookup_of_removed {m m' : Mem} {pt pt' : PageTable} {a : MapArea} {areas : List MapArea}
    (h : Space tramp m pt (a :: areas)) (h' : Space tramp m' pt' areas) {v : Nat}
    (hv : v < 2 ^ 27) :
    pt'.lookup m' v = if a.vpnRange.start ≤ v ∧ v < a.vpnRange.end_ then none
      else pt.lookup m v := by
  have hrest := (List.pairwise_cons.mp h.apart).1
  by_cases hav : a.vpnRange.start ≤ v ∧ v < a.vpnRange.end_
  · rw [if_pos hav]
    by_contra hne
    rcases h'.only v hv hne with heq | ⟨b, hb, hbv⟩
    · exact Nat.ne_of_lt ((h.ok a List.mem_cons_self).lt hav) heq
    · exact hrest b hb v ⟨hav, hbv⟩
  · rw [if_neg hav]
    by_cases hmem : ∃ b ∈ areas, b.Has v
    · obtain ⟨b, hb, hbv⟩ := hmem
      rw [h'.own b hb v hbv, h.own b (List.mem_cons_of_mem _ hb) v hbv]
    · by_cases htr : v = TRAMPOLINE_VPN
      · rw [htr, h'.trampoline, h.trampoline]
      · have hnone : ∀ {m pt areas'}, Space tramp m pt areas' → (¬ ∃ b ∈ areas', b.Has v) →
            pt.lookup m v = none := by
          intro m pt areas' hs hno
          by_contra hne
          exact (hs.only v hv hne).elim htr hno
        rw [hnone h' hmem, hnone h]
        rintro ⟨b, hb, hbv⟩
        rcases List.mem_cons.mp hb with rfl | hb
        · exact hav hbv
        · exact hmem ⟨b, hb, hbv⟩

/-- A page below the trampoline is mapped if and only if an area has it. -/
theorem lookup_ne_none_iff (h : kernel.Ok tramp st) {v : Nat} (hv : v < TRAMPOLINE_VPN) :
    kernel.pageTable.lookup st.mem v ≠ none
      ↔ ∃ b ∈ kernel.areas.map MapArea.bounds, b.1 ≤ v ∧ v < b.2 := by
  constructor
  · intro hne
    simp only [TRAMPOLINE_VPN] at hv
    rcases h.space.only v (by omega) hne with heq | ⟨a, ha, hav⟩
    · simp only [TRAMPOLINE_VPN] at heq
      omega
    · exact ⟨a.bounds, List.mem_map_of_mem ha, hav⟩
  · rintro ⟨b, hb, hbv⟩
    obtain ⟨a, ha, rfl⟩ := List.mem_map.mp hb
    exact h.space.mapped ha hbv

/-- A stack whose pages are not mapped is mapped. -/
theorem kernelStack_new_meets (h : kernel.Ok tramp st) (hbad : ¬ SmallPid pid → ∀ e, E e)
    (hoom : st.alloc.available < 6 → E .outOfFrames)
    (hmapped : (∃ b ∈ kernel.areas.map MapArea.bounds,
      b.1 < stackStart pid + 2 ∧ stackStart pid < b.2) → E .mapped) :
    Meets E (KernelStack.new kernel pid) st fun kernel' st' =>
      kernel'.Ok tramp st' ∧ Moves X st kernel.frames st' kernel'.frames
        ∧ (SmallPid pid → kernel'.areas.map MapArea.bounds
            = kernel.areas.map MapArea.bounds ++ [stackBounds pid]
          ∧ st.alloc.available ≤ st'.alloc.available + 6) := by
  by_cases hs : SmallPid pid
  · obtain ⟨h₁, h₂, -⟩ := hs.position
    obtain ⟨-, hstart, hle⟩ := hs.stackStart_gt
    refine (pushNew_meets (X := X) h (virtAddr_lt _) (virtAddr_lt _) ?_ ?_ ?_).mono ?_
    · rw [h₁, h₂]
      exact fun hav => hoom (by omega)
    · intro hlt
      omega
    · rw [h₁, h₂]
      rintro ⟨v, hge, hlt, hne⟩
      obtain ⟨b, hb, hbv₁, hbv₂⟩ := (lookup_ne_none_iff h (by
        simp only [TRAMPOLINE_VPN]
        omega)).mp hne
      exact hmapped ⟨b, hb, by omega, by omega⟩
    rintro kernel' st' ⟨r, hrs, hre, hpush⟩
    refine ⟨hpush.ok, hpush.moves, fun _ => ?_⟩
    obtain ⟨a, hadded, hareas⟩ := hpush.areas
    have hbounds : a.bounds = stackBounds pid := by
      rw [MapArea.bounds, hadded.range, hrs, hre, h₁, h₂]
      rfl
    have hav := hpush.avail
    rw [VPNRange.length_pages, hrs, hre, h₁, h₂] at hav
    refine ⟨?_, by omega⟩
    rw [hareas, List.map_append, List.map_cons, List.map_nil, hbounds]
  · refine (pushNew_meets (X := X) h (virtAddr_lt _) (virtAddr_lt _) (fun _ => hbad hs _)
      (fun _ => hbad hs _) (fun _ => hbad hs _)).mono ?_
    rintro kernel' st' ⟨r, hrs, hre, hpush⟩
    exact ⟨hpush.ok, hpush.moves, fun h => absurd h hs⟩

/-- The first area that starts where the stack does is unmapped. -/
theorem kernelStack_drop_meets (h : kernel.Ok tramp st) (hbad : ¬ SmallPid pid → E .notAligned) :
    Meets E (KernelStack.drop kernel pid) st fun kernel' st' =>
      kernel'.Ok tramp st' ∧ Moves X st kernel.frames st' kernel'.frames
        ∧ (SmallPid pid →
          (∀ a ∈ kernel.areas, a.vpnRange.start ≠ stackStart pid) ∧ kernel' = kernel
          ∨ ∃ a, a.vpnRange.start = stackStart pid ∧ kernel.areas.Perm (a :: kernel'.areas)) := by
  unfold KernelStack.drop
  rw [Meets.bind_iff, Meets.ensure_iff]
  refine ⟨fun _ => ?_, fun hne => hbad (fun hs => hne hs.position.2.2)⟩
  refine (removeAreaWithStartVpn_meets (X := X) h _).mono ?_
  rintro kernel' st' ⟨hok, hm, hareas⟩
  refine ⟨hok, hm, fun hs => ?_⟩
  obtain ⟨h₁, -, -⟩ := hs.position
  rwa [h₁] at hareas

end Stacks

end Nimloth
