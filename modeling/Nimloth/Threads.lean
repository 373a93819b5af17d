import Nimloth.Encoding
import Nimloth.ImageFrames
import Nimloth.KernelAccess
import Nimloth.Switch

/-!
# Threads of the kernel

The threads of the kernel, one of each process and the idle one, keep
their contexts in its data. `ThreadStep` has the switches between them,
the contexts that are made for new processes, the events of processes
that the running thread brings about, and its stores to the data and the
stacks of the kernel. `recorded` reads off a trace what a thread was left
with; whoever is switched to gets that (`context_switch`). A process that
exits leaves for good, with a context on its stack that nobody uses.
-/

namespace Nimloth

open RiscV PageTable MemorySet

/-! ## Words of the kernel -/

namespace Machine

/-- A word in the data of the kernel or on a stack. -/
def KernelWord (img : KernelImage) (s : Machine) (a : UInt64) : Prop :=
  a.toNat % 8 = 0 ∧ (img.sdata ≤ a.toNat ∧ a.toNat < img.ekernel
    ∨ ∃ p ∈ s.procs, ∃ k, 0 < k ∧ k ≤ KERNEL_STACK_SIZE ∧ a = p.kernelStackAddr k)

/-- Where it is. -/
def phys (s : Machine) (a : UInt64) : Nat :=
  (Sv39.translate s.st.mem (s.regime .supervisor 0) a .load).getD 0

/-- The contents of memory but for words of the kernel. -/
def Beneath (img : KernelImage) (s : Machine) (m : Mem) : Prop :=
  (∀ n ∈ s.tables, Mem.SameFrame s.st.mem m n)
    ∧ ∀ x, img.stext ≤ x → x < img.etext → m x = s.st.mem x

end Machine

namespace Walkable

variable {img : KernelImage} {s : Machine} {a : UInt64} {m : Mem} {d : Sv39.Decoder}

theorem kernelPage_withMem {v n : Nat} {perm : MapPermission} (h : s.KernelPage img v n perm) :
    (s.withMem m).KernelPage img v n perm := by
  cases h with
  | trampoline => exact .trampoline
  | identical hsec h₁ h₂ => exact .identical hsec h₁ h₂
  | stack hp ha hbounds hframe => exact .stack hp ha hbounds hframe

/-- The data lie at their own addresses. -/
theorem data_page (hge : img.sdata ≤ a.toNat) (hlt : a.toNat < img.ekernel) :
    Sv39.Canonical a ∧ pageOf a.toNat = a.toNat / 4096
      ∧ s.KernelPage img (a.toNat / 4096) (a.toNat / 4096) (PTEFlags.R ||| PTEFlags.W) := by
  have hle := img.sections_le
  have hdata := img.rodata.2
  have hbss := img.data.2
  obtain ⟨-, h₁, h₂, h₃⟩ := img.aligned
  have hbounds : img.sections.map KernelSection.bounds = _ := img.sectionBounds_eq
  simp only [KernelImage.sections, MMIO, List.map_cons, List.map_nil, List.cons_append,
    List.nil_append, List.cons.injEq, and_true] at hbounds
  obtain ⟨-, -, hb₃, hb₄, -⟩ := hbounds
  refine ⟨Or.inl (by omega), ?_, ?_⟩
  · rw [pageOf_toNat]
    omega
  · by_cases hin : a.toNat < img.edata
    · have hsec : ⟨img.sdata, img.edata, PTEFlags.R ||| PTEFlags.W⟩ ∈ img.sections :=
        .tail _ (.tail _ (.head _))
      refine .identical hsec ?_ ?_
      · rw [hb₃]
        dsimp only
        omega
      · rw [hb₃]
        dsimp only
        omega
    · have hsec : ⟨img.sbssWithStack, img.ebss, PTEFlags.R ||| PTEFlags.W⟩ ∈ img.sections :=
        .tail _ (.tail _ (.tail _ (.head _)))
      refine .identical hsec ?_ ?_
      · rw [hb₄]
        dsimp only
        omega
      · rw [hb₄]
        dsimp only
        omega

theorem tables_above (h : Walkable img s) {n : Nat} (hn : n ∈ s.tables) :
    img.ekernel ≤ n * 4096 := by
  refine h.traced.above n (Or.inr ?_)
  rcases List.mem_append.mp hn with hn | hn
  · exact List.mem_append_left _ (List.mem_append_left _ hn)
  · exact List.mem_append_right _ (Sets.tables_subset _ hn)

/-- The page of a word: one of the data, or one of a stack. -/
theorem kernelWord_page (h : Walkable img s) (ha : s.KernelWord img a) :
    Sv39.Canonical a ∧ ∃ n, s.KernelPage img (pageOf a.toNat) n (PTEFlags.R ||| PTEFlags.W)
      ∧ n ∉ s.tables ∧ img.etext ≤ n * 4096
      ∧ (n = pageOf a.toNat ∧ n * 4096 < img.ekernel
        ∨ img.ekernel ≤ n * 4096 ∧ ∃ b ∈ s.kernel.areas, (pageOf a.toNat, n) ∈ b.dataFrames) := by
  have hle := img.sections_le
  have hrodata := img.rodata
  obtain ⟨h₁, h₂, h₃, h₄⟩ := img.aligned
  rcases ha.2 with ⟨hge, hlt⟩ | ⟨p, hp, k, hk, hk', rfl⟩
  · obtain ⟨hcan, hpage, hkp⟩ := @data_page img s a hge hlt
    refine ⟨hcan, a.toNat / 4096, hpage ▸ hkp, fun hmem => ?_, ?_, Or.inl ⟨hpage.symm, ?_⟩⟩
    · have habove := h.tables_above hmem
      omega
    · omega
    · omega
  · simp only [KERNEL_STACK_SIZE] at hk'
    obtain ⟨hcan, -⟩ := h.stack_page hp hk (by omega)
    obtain ⟨n, b, hb, hbounds, hframe⟩ := h.stack_frame hp hk hk'
    obtain ⟨habove, -, -, htable, -⟩ := h.stack_apart hb hframe
    exact ⟨hcan, n, .stack hp hb hbounds hframe, htable, by omega, Or.inr ⟨habove, b, hb, hframe⟩⟩

/-- The supervisor loads and stores there in every memory that has the same tables. -/
theorem translate_page (h : Walkable img s) {n : Nat} (hcan : Sv39.Canonical a)
    (hpage : s.KernelPage img (pageOf a.toNat) n (PTEFlags.R ||| PTEFlags.W)) (sstatus : UInt64)
    {acc : Sv39.Access} (hacc : acc ≠ .fetch) (hm : ∀ n ∈ s.tables, Mem.SameFrame s.st.mem m n) :
    Sv39.translate m (s.regime .supervisor sstatus) a acc = some (n * 4096 + a.toNat % 4096) :=
  (h.withMem hm).kernel_translate_iff.mpr ⟨hcan, n, _, kernelPage_withMem hpage,
    Sv39.Permits.supervisor rfl hacc rfl, rfl⟩

theorem phys_eq (h : Walkable img s) {n : Nat} (hcan : Sv39.Canonical a)
    (hpage : s.KernelPage img (pageOf a.toNat) n (PTEFlags.R ||| PTEFlags.W)) :
    s.phys a = n * 4096 + a.toNat % 4096 := by
  rw [Machine.phys, h.translate_page hcan hpage 0 (by decide) fun n _ => Mem.SameFrame.refl _ n,
    Option.getD_some]

theorem kernelWord_translate (h : Walkable img s) (hm : s.Beneath img m)
    (ha : s.KernelWord img a) (sstatus : UInt64) {acc : Sv39.Access} (hacc : acc ≠ .fetch) :
    Sv39.translate m (s.regime .supervisor sstatus) a acc = some (s.phys a) := by
  obtain ⟨hcan, n, hpage, -⟩ := h.kernelWord_page ha
  rw [h.phys_eq hcan hpage]
  exact h.translate_page hcan hpage sstatus hacc hm.1

/-- Different words are apart. -/
theorem kernelWord_apart (h : Walkable img s) {a' : UInt64} (ha : s.KernelWord img a)
    (ha' : s.KernelWord img a') (hne : a ≠ a') :
    s.phys a' + 8 ≤ s.phys a ∨ s.phys a + 8 ≤ s.phys a' := by
  obtain ⟨hcan, n, hpage, -, -, hcase⟩ := h.kernelWord_page ha
  obtain ⟨hcan', n', hpage', -, -, hcase'⟩ := h.kernelWord_page ha'
  have hphys := h.phys_eq hcan hpage
  have hphys' := h.phys_eq hcan' hpage'
  have hal := ha.1
  have hal' := ha'.1
  rw [hphys, hphys']
  by_cases hn : n = n'
  · -- two words of one frame are on one page
    subst hn
    have hv : pageOf a.toNat = pageOf a'.toNat := by
      rcases hcase with ⟨heq, hlow⟩ | ⟨habove, b, hb, hframe⟩
      · rcases hcase' with ⟨heq', -⟩ | ⟨habove', -⟩
        · exact heq.symm.trans heq'
        · omega
      · rcases hcase' with ⟨-, hlow'⟩ | ⟨-, b', hb', hframe'⟩
        · omega
        · exact ((h.stack_apart hb hframe).2.2.2.2 b' hb' _ hframe').symm
    have hoff : a.toNat % 4096 ≠ a'.toNat % 4096 :=
      fun hoff => hne (canonical_inj hcan hcan' hv hoff)
    omega
  · omega

/-- A store to a word is beneath. -/
theorem beneath_setWord (h : Walkable img s) (hm : s.Beneath img m) (ha : s.KernelWord img a)
    (w : UInt64) : s.Beneath img (Sv39.setWord m (s.phys a) w) := by
  obtain ⟨hcan, n, hpage, htable, htext, -⟩ := h.kernelWord_page ha
  have hphys := h.phys_eq hcan hpage
  have hal := ha.1
  constructor
  · intro k hk
    refine (hm.1 k hk).trans fun x hx => Sv39.setWord_outside m w ?_
    have hne : k ≠ n := by
      rintro rfl
      exact htable hk
    omega
  · intro x hx hx'
    rw [Sv39.setWord_outside m w (by omega)]
    exact hm.2 x hx hx'

/-- The kernel sees its data and its stacks as words. -/
theorem words (h : Walkable img s) (d : Sv39.Decoder) (sstatus : UInt64) :
    Words (Sv39.bus d) (s.regime .supervisor sstatus) (s.Beneath img) (s.KernelWord img)
      fun m a => Sv39.word m (s.phys a) :=
  Sv39.words d (fun _ _ hm ha => h.kernelWord_translate hm ha sstatus (by decide))
    (fun _ _ hm ha => h.kernelWord_translate hm ha sstatus (by decide)) (fun _ ha => ha.1)
    (fun _ _ ha ha' hne => h.kernelWord_apart ha ha' hne)
    fun _ _ w hm ha => h.beneath_setWord hm ha w

/-- Its code is fetched from where it lies. -/
theorem text_loaded (h : Walkable img s) {len : Instr → UInt64} {entry : UInt64}
    {is : List Instr} (hcode : Sv39.Lies d len s.st.mem entry.toNat is)
    (hge : img.stext ≤ entry.toNat) (hlt : entry.toNat + 4 * is.length ≤ img.etext)
    (sstatus : UInt64) (hm : s.Beneath img m) :
    Loaded (Sv39.bus d) len m (s.regime .supervisor sstatus) entry is := by
  have hle := img.sections_le
  obtain ⟨h₁, -⟩ := img.aligned
  have hlies : Sv39.Lies d len m entry.toNat is :=
    hcode.congr fun x hx hx' => hm.2 x (by omega) (by omega)
  have hbounds : img.sections.map KernelSection.bounds = _ := img.sectionBounds_eq
  simp only [KernelImage.sections, MMIO, List.map_cons, List.map_nil, List.cons_append,
    List.nil_append, List.cons.injEq] at hbounds
  refine hlies.loaded (fun va hva hva' => ?_) rfl (by omega)
  have hpage : pageOf va.toNat = va.toNat / 4096 := by
    rw [pageOf_toNat]
    omega
  have hsec : ⟨img.stext, img.etext, PTEFlags.R ||| PTEFlags.X⟩ ∈ img.sections := .head _
  have hkp : (s.withMem m).KernelPage img (pageOf va.toNat) (va.toNat / 4096)
      (PTEFlags.R ||| PTEFlags.X) := by
    rw [hpage]
    refine .identical hsec ?_ ?_
    · rw [hbounds.1]
      dsimp only
      omega
    · rw [hbounds.1]
      dsimp only
      omega
  refine (h.withMem hm.1).kernel_translate_iff.mpr
    ⟨Or.inl (by omega), _, _, hkp, ⟨by decide, by decide, by decide, ?_⟩, by omega⟩
  exact (by decide : (PTEFlags.R ||| PTEFlags.X) &&& Sv39.U = 0)

end Walkable

/-! ## Contexts in the data -/

/-- The context at an address that is the same for the kernel and in memory. -/
def ProcessContext.ofMem (m : Mem) (p : UInt64) : ProcessContext :=
  inMemory (fun m a => Sv39.word m a.toNat) m p

def ProcessContext.words (cx : ProcessContext) : List UInt64 := cx.ra :: cx.sp :: List.ofFn cx.s

/-- Where the linker and the heap put the code of `__switch` and the contexts. -/
structure ThreadPlaces {ι : Type} (img : KernelImage) (entry : UInt64) (addr : ι → UInt64) :
    Prop where
  text : (img.trampoline + 1) * 4096 ≤ entry.toNat
  text_end : entry.toNat + 4 * Asm.switch.length ≤ img.etext
  aligned : ∀ i, (addr i).toNat % 8 = 0
  data : ∀ i, img.sdata ≤ (addr i).toNat ∧ (addr i).toNat + 112 ≤ img.ekernel
  apart : ∀ i j, i ≠ j → (addr i).toNat + 112 ≤ (addr j).toNat
    ∨ (addr j).toNat + 112 ≤ (addr i).toNat

section Contexts

variable {m m' : Mem} {p a : UInt64}

theorem toNat_slot (hp : p.toNat + 112 < 2 ^ 64) {r : Reg × UInt64} (hr : r ∈ savePlaces) :
    (p + r.2).toNat = p.toNat + r.2.toNat ∧ r.2.toNat % 8 = 0 ∧ r.2.toNat + 8 ≤ 112 := by
  have hall : savePlaces.all (fun r => r.2.toNat % 8 == 0 && Nat.ble (r.2.toNat + 8) 112) := rfl
  have hr' := List.all_eq_true.mp hall r hr
  rw [Bool.and_eq_true, beq_iff_eq, Nat.ble_eq] at hr'
  obtain ⟨hal, hle⟩ := hr'
  refine ⟨?_, hal, hle⟩
  rw [UInt64.toNat_add]
  omega

theorem contextSlot_range (hp : p.toNat + 112 < 2 ^ 64) (ha : ContextSlot p a) :
    p.toNat ≤ a.toNat ∧ a.toNat + 8 ≤ p.toNat + 112 ∧ (a.toNat - p.toNat) % 8 = 0 := by
  obtain ⟨r, hr, rfl⟩ := ha
  obtain ⟨hnat, hal, hle⟩ := toNat_slot hp hr
  omega

theorem ProcessContext.ofMem_congr (hp : p.toNat + 112 < 2 ^ 64)
    (h : ∀ x, p.toNat ≤ x → x < p.toNat + 112 → m' x = m x) : ofMem m' p = ofMem m p := by
  refine inMemory_congr fun a ha => ?_
  obtain ⟨h₁, h₂, -⟩ := contextSlot_range hp ha
  exact Sv39.word_congr fun j hj => h _ (by omega) (by omega)

theorem ProcessContext.ofMem_write (hp : p.toNat + 112 < 2 ^ 64) (cx : ProcessContext) :
    ofMem (m.write p.toNat (Sv39.wordBytes cx.words)) p = cx := by
  have hlen : cx.words.length = 14 := by simp [words]
  have hword : ∀ (r : Reg × UInt64) (k : Nat), r ∈ savePlaces → r.2.toNat = 8 * k →
      (hk : k < cx.words.length) →
        Sv39.word (m.write p.toNat (Sv39.wordBytes cx.words)) (p + r.2).toNat = cx.words[k] := by
    intro r k hr hrk hk
    rw [(toNat_slot hp hr).1, hrk]
    exact Sv39.word_write_words m p.toNat hk
  refine ProcessContext.ext ?_ ?_ (funext fun n => ?_)
  · exact hword (Reg.ra, 0) 0 (by decide) rfl (by omega)
  · exact hword (Reg.sp, 8) 1 (by decide) rfl (by omega)
  · have hn := n.isLt
    refine (hword _ (n + 2) (sn_mem_places n) ?_ (by omega)).trans ?_
    · rw [snOffset, UInt64.toNat_ofNat']
      omega
    · exact List.getElem_ofFn _

end Contexts

/-! ## One switch -/

section Switch

variable {ι : Type} {img : KernelImage} {s : Machine} {d : Sv39.Decoder} {len : Instr → UInt64}
  {entry : UInt64} {addr : ι → UInt64} {c : Cpu Mem}

/-- The processor calls `__switch`. -/
structure CallsSwitch (s : Machine) (entry : UInt64) (p q : UInt64) (c : Cpu Mem) : Prop where
  mem : c.mem = s.st.mem
  pc : c.pc = entry
  mode : c.mode = .supervisor
  satp : c.csr .satp = UInt64.ofNat s.kernel.token
  current : c.get Reg.a0 = p
  next : c.get Reg.a1 = q

namespace ThreadPlaces

theorem word (h : ThreadPlaces img entry addr) (s : Machine) {i : ι} {a : UInt64}
    (ha : ContextSlot (addr i) a) :
    s.KernelWord img a ∧ img.sdata ≤ a.toNat ∧ a.toNat < img.ekernel := by
  have hle := img.sections_le
  have hal := h.aligned i
  obtain ⟨hge, hlt⟩ := h.data i
  obtain ⟨h₁, h₂, h₃⟩ := contextSlot_range (by omega) ha
  exact ⟨⟨by omega, Or.inl ⟨by omega, by omega⟩⟩, by omega, by omega⟩

theorem slots_apart (h : ThreadPlaces img entry addr) {i j : ι} {a : UInt64}
    (hi : ContextSlot (addr i) a) (hj : ContextSlot (addr j) a) : i = j := by
  by_contra hne
  have hle := img.sections_le
  have hlt := (h.data i).2
  have hlt' := (h.data j).2
  obtain ⟨h₁, h₂, -⟩ := contextSlot_range (by omega) hi
  obtain ⟨h₁', h₂', -⟩ := contextSlot_range (by omega) hj
  have hapart := h.apart i j hne
  omega

/-- The words of a context are where their addresses say. -/
theorem phys (h : ThreadPlaces img entry addr) (hs : Walkable img s) {i : ι} {a : UInt64}
    (ha : ContextSlot (addr i) a) : s.phys a = a.toNat := by
  obtain ⟨-, hge, hlt⟩ := h.word s ha
  obtain ⟨hcan, hpage, hkp⟩ := @Walkable.data_page img s a hge hlt
  rw [hs.phys_eq hcan (hpage ▸ hkp)]
  omega

theorem inMemory (h : ThreadPlaces img entry addr) (hs : Walkable img s) (m : Mem) (i : ι) :
    ProcessContext.inMemory (fun m a => Sv39.word m (s.phys a)) m (addr i)
      = ProcessContext.ofMem m (addr i) :=
  ProcessContext.inMemory_congr fun a ha => by rw [h.phys hs ha]

end ThreadPlaces

/-- The call saves the registers at `p` and goes on with those of thread `j`; the contexts of the
    others stay. -/
theorem Walkable.switch (hs : Walkable img s) (hplaces : ThreadPlaces img entry addr)
    (hcode : Sv39.Lies d len s.st.mem entry.toNat Asm.switch) {p : UInt64} {j : ι}
    (hc : CallsSwitch s entry p (addr j) c) (hp : ∀ a, ContextSlot p a → s.KernelWord img a) :
    ∃ c', stepN (Sv39.bus d) Asm.switch.length c = some c' ∧ s.Beneath img c'.mem
      ∧ Switched (fun m a => Sv39.word m (s.phys a)) (s.KernelWord img) p (addr j) c c' := by
  have hv : c.regime = s.regime .supervisor (c.csr .sstatus) := by
    rw [Cpu.regime, hc.mode, hc.satp]
    rfl
  have hbeneath : s.Beneath img c.mem := by
    rw [hc.mem]
    exact ⟨fun n _ => Mem.SameFrame.refl _ n, fun _ _ _ => rfl⟩
  have hstext : img.stext ≤ entry.toNat := by
    have htext := hplaces.text
    have hge := img.trampoline_ge
    have hal := img.trampoline_aligned
    unfold KernelImage.trampoline at htext
    omega
  have hcode' : ∀ m, s.Beneath img m →
      Loaded (Sv39.bus d) len m (s.regime .supervisor (c.csr .sstatus)) c.pc Asm.switch := by
    intro m hm
    rw [hc.pc]
    exact hs.text_loaded hcode hstext hplaces.text_end _ hm
  obtain ⟨c', hf, hb, hsw⟩ := switch_follows (hs.words d (c.csr .sstatus)) hcode' hbeneath hv
    (by rw [hc.current]; exact hp) (by rw [hc.next]; exact fun a ha => (hplaces.word s ha).1)
  rw [hc.current, hc.next] at hsw
  exact ⟨c', hf.stepN_eq, hb, hsw⟩

end Switch

/-! ## Threads -/

/-- The machine, the processor, and whose thread it runs. -/
structure Threads (ι : Type) where
  machine : Machine
  cpu : Cpu Mem
  current : ι

inductive ThreadEvent (ι : Type) where
  /-- `__switch`, with what the running thread is left with -/
  | switch (current next : ι) (saved : ProcessContext)
  /-- `__switch` with a context that is none of those, at the end of a process -/
  | leave (current next : ι)
  /-- the context of a new thread is written -/
  | create (i : ι) (cx : ProcessContext)
  | process (e : ProcessEvent)
  /-- the running thread stores a word -/
  | store (a w : UInt64)

section Threads

variable {ι : Type}

inductive ThreadStep (img : KernelImage) (d : Sv39.Decoder) (entry : UInt64) (addr : ι → UInt64) :
    Threads ι → ThreadEvent ι → Threads ι → Prop
  | switch {t : Threads ι} {j : ι} {c : Cpu Mem} :
      CallsSwitch t.machine entry (addr t.current) (addr j) t.cpu →
        stepN (Sv39.bus d) Asm.switch.length t.cpu = some c →
          ThreadStep img d entry addr t (.switch t.current j (ProcessContext.ofCpu t.cpu))
            ⟨t.machine.withMem c.mem, c, j⟩
  | leave {t : Threads ι} {p : UInt64} {j : ι} {c : Cpu Mem} :
      CallsSwitch t.machine entry p (addr j) t.cpu →
        (∀ a, ContextSlot p a → t.machine.KernelWord img a ∧ ∀ i, ¬ ContextSlot (addr i) a) →
          stepN (Sv39.bus d) Asm.switch.length t.cpu = some c →
            ThreadStep img d entry addr t (.leave t.current j) ⟨t.machine.withMem c.mem, c, j⟩
  | create {t : Threads ι} {i : ι} {cx : ProcessContext} {c : Cpu Mem} :
      i ≠ t.current →
        c.mem = t.machine.st.mem.write (addr i).toNat (Sv39.wordBytes cx.words) →
          ThreadStep img d entry addr t (.create i cx) ⟨t.machine.withMem c.mem, c, t.current⟩
  | process {t : Threads ι} {e : ProcessEvent} {s' : Machine} {c : Cpu Mem} :
      WithinStep img t.machine e s' → c.mem = s'.st.mem →
        ThreadStep img d entry addr t (.process e) ⟨s', c, t.current⟩
  | store {t : Threads ι} {a w : UInt64} {c : Cpu Mem} :
      t.machine.KernelWord img a → (∀ i, i ≠ t.current → ¬ ContextSlot (addr i) a) →
        c.mem = Sv39.setWord t.machine.st.mem (t.machine.phys a) w →
          ThreadStep img d entry addr t (.store a w) ⟨t.machine.withMem c.mem, c, t.current⟩

variable [DecidableEq ι]

/-- The context a thread was last left with, or made with. -/
def ThreadEvent.note (cxs : ι → Option ProcessContext) : ThreadEvent ι → ι → Option ProcessContext
  | .switch current _ saved => Function.update cxs current (some saved)
  | .leave current _ => Function.update cxs current none
  | .create i cx => Function.update cxs i (some cx)
  | .process _ => cxs
  | .store _ _ => cxs

def recorded (tr : List (ThreadEvent ι)) : ι → Option ProcessContext :=
  tr.foldl ThreadEvent.note fun _ => none

theorem recorded_snoc (tr : List (ThreadEvent ι)) (e : ThreadEvent ι) :
    recorded (tr ++ [e]) = e.note (recorded tr) := by
  unfold recorded
  rw [List.foldl_append]
  rfl

/-- What is recorded of the threads that do not run is in memory. -/
structure Suspended (img : KernelImage) (d : Sv39.Decoder) (len : Instr → UInt64) (entry : UInt64)
    (addr : ι → UInt64) (tr : List (ThreadEvent ι)) (t : Threads ι) : Prop where
  walkable : Walkable img t.machine
  mem : t.cpu.mem = t.machine.st.mem
  code : Sv39.Lies d len t.machine.st.mem entry.toNat Asm.switch
  contexts : ∀ j cx, j ≠ t.current → recorded tr j = some cx →
    ProcessContext.ofMem t.machine.st.mem (addr j) = cx

variable {img : KernelImage} {d : Sv39.Decoder} {len : Instr → UInt64} {entry : UInt64}
  {addr : ι → UInt64} {tr : List (ThreadEvent ι)} {t t' : Threads ι}

namespace Suspended

/-- Words are written, none of them in a table or in the text. -/
theorem withMem (h : Suspended img d len entry addr tr t) (hplaces : ThreadPlaces img entry addr)
    {c : Cpu Mem} {j : ι} {tr' : List (ThreadEvent ι)} (hb : t.machine.Beneath img c.mem)
    (hcx : ∀ k cx, k ≠ j → recorded tr' k = some cx →
      ProcessContext.ofMem c.mem (addr k) = cx) :
    Suspended img d len entry addr tr' ⟨t.machine.withMem c.mem, c, j⟩ := by
  have hge := img.trampoline_ge
  have hal := img.trampoline_aligned
  have htext := hplaces.text
  have hend := hplaces.text_end
  refine ⟨h.walkable.withMem hb.1, rfl, h.code.congr fun x hx hx' => hb.2 x ?_ ?_, hcx⟩
  · unfold KernelImage.trampoline at htext
    omega
  · omega

/-- After a switch: `p` got the registers, and other contexts are as they were. -/
theorem switched (h : Suspended img d len entry addr tr t) (hplaces : ThreadPlaces img entry addr)
    {p : UInt64} {j : ι} {c : Cpu Mem} (hc : CallsSwitch t.machine entry p (addr j) t.cpu)
    (hp : ∀ a, ContextSlot p a → t.machine.KernelWord img a)
    (hrun : stepN (Sv39.bus d) Asm.switch.length t.cpu = some c) :
    t.machine.Beneath img c.mem
      ∧ (∀ i, addr i = p → ProcessContext.ofMem c.mem (addr i) = ProcessContext.ofCpu t.cpu)
      ∧ ∀ i, (∀ a, ContextSlot p a → ¬ ContextSlot (addr i) a) →
        ProcessContext.ofMem c.mem (addr i) = ProcessContext.ofMem t.machine.st.mem (addr i) := by
  obtain ⟨c', hrun', hb, hsw⟩ := h.walkable.switch hplaces h.code hc hp
  rw [hrun] at hrun'
  cases hrun'
  refine ⟨hb, ?_, fun i hi => ?_⟩
  · rintro i rfl
    rw [← hplaces.inMemory h.walkable]
    exact hsw.saved
  · rw [← hplaces.inMemory h.walkable, ← hplaces.inMemory h.walkable, ← h.mem]
    refine ProcessContext.inMemory_congr fun a ha => ?_
    exact hsw.others a (hplaces.word _ ha).1 fun hpa => hi a hpa ha

theorem step (h : Suspended img d len entry addr tr t) (hplaces : ThreadPlaces img entry addr)
    {e : ThreadEvent ι} (hs : ThreadStep img d entry addr t e t') :
    Suspended img d len entry addr (tr ++ [e]) t' := by
  have hle := img.sections_le
  have hrodata := img.rodata
  cases hs with
  | @switch j c hc hrun =>
      obtain ⟨hb, hself, hother⟩ := h.switched hplaces hc (fun a ha => (hplaces.word _ ha).1) hrun
      refine h.withMem hplaces hb fun k cx _ hk => ?_
      rw [recorded_snoc, ThreadEvent.note] at hk
      by_cases hkc : k = t.current
      · subst hkc
        rw [Function.update_self] at hk
        cases hk
        exact hself _ rfl
      · rw [Function.update_of_ne hkc] at hk
        rw [hother k fun a ha hka => hkc (hplaces.slots_apart hka ha)]
        exact h.contexts k cx hkc hk
  | @leave p j c hc hp hrun =>
      obtain ⟨hb, -, hother⟩ := h.switched hplaces hc (fun a ha => (hp a ha).1) hrun
      refine h.withMem hplaces hb fun k cx _ hk => ?_
      rw [recorded_snoc, ThreadEvent.note] at hk
      by_cases hkc : k = t.current
      · rw [hkc, Function.update_self] at hk
        cases hk
      · rw [Function.update_of_ne hkc] at hk
        rw [hother k fun a ha => (hp a ha).2 k]
        exact h.contexts k cx hkc hk
  | @create i cx c hi hmem =>
      have hlen : (Sv39.wordBytes cx.words).length = 112 := by
        simp [Sv39.wordBytes, ProcessContext.words, leBytes_length]
      obtain ⟨hge, hlt⟩ := hplaces.data i
      have houtside : ∀ x, x < (addr i).toNat ∨ (addr i).toNat + 112 ≤ x →
          c.mem x = t.machine.st.mem x := by
        intro x hx
        rw [hmem]
        exact Mem.write_outside _ (by omega)
      refine h.withMem hplaces ⟨fun n hn x hx => houtside x ?_, fun x hx hx' => houtside x ?_⟩ ?_
      · have habove := h.walkable.tables_above hn
        omega
      · omega
      · intro k cx' hkc hk
        rw [recorded_snoc, ThreadEvent.note] at hk
        by_cases hki : k = i
        · rw [hki, Function.update_self] at hk
          cases hk
          rw [hki, hmem]
          exact ProcessContext.ofMem_write (by omega) cx
        · rw [Function.update_of_ne hki] at hk
          have hlt' := (hplaces.data k).2
          have hapart := hplaces.apart k i hki
          rw [ProcessContext.ofMem_congr (by omega) fun x hx hx' => houtside x (by omega)]
          exact h.contexts k cx' hkc hk
  | @process e s' c hstep hmem =>
      have htramp := img.trampoline_ge
      have hal := img.trampoline_aligned
      have htext := hplaces.text
      have hend := hplaces.text_end
      have hstramp := img.trampoline_lt
      have himage : ∀ x, img.stext ≤ x → x < img.ekernel → x / 4096 ≠ img.trampoline →
          s'.st.mem x = t.machine.st.mem x := fun _ => h.walkable.image_step hstep
      refine ⟨h.walkable.step hstep.fitting, hmem, ?_, fun k cx hkc hk => ?_⟩
      · refine h.code.congr fun x hx hx' => himage x ?_ (by omega) ?_
        · unfold KernelImage.trampoline at htext
          omega
        · omega
      · rw [recorded_snoc, ThreadEvent.note] at hk
        obtain ⟨hge, hlt⟩ := hplaces.data k
        have hbelow : img.trampoline * 4096 + 4096 ≤ img.etext := by
          obtain ⟨haligned, -⟩ := img.aligned
          unfold KernelImage.trampoline
          omega
        have hsame : ProcessContext.ofMem s'.st.mem (addr k)
            = ProcessContext.ofMem t.machine.st.mem (addr k) :=
          ProcessContext.ofMem_congr (by omega) fun x hx hx' =>
            himage x (by omega) (by omega) (by omega)
        exact hsame.trans (h.contexts k cx hkc hk)
  | @store a w c ha hnot hmem =>
      have hrefl : t.machine.Beneath img t.machine.st.mem :=
        ⟨fun n _ => Mem.SameFrame.refl _ n, fun _ _ _ => rfl⟩
      refine h.withMem hplaces (hmem ▸ h.walkable.beneath_setWord hrefl ha w) fun k cx hkc hk => ?_
      rw [recorded_snoc, ThreadEvent.note] at hk
      have hsame : ProcessContext.ofMem c.mem (addr k)
          = ProcessContext.ofMem t.machine.st.mem (addr k) := by
        rw [← hplaces.inMemory h.walkable, ← hplaces.inMemory h.walkable, hmem]
        refine ProcessContext.inMemory_congr fun a' ha' => ?_
        have hne : a' ≠ a := by
          rintro rfl
          exact hnot k hkc ha'
        exact Sv39.word_setWord_of_disjoint _ w
          (h.walkable.kernelWord_apart ha (hplaces.word _ ha').1 (Ne.symm hne))
      exact hsame.trans (h.contexts k cx hkc hk)

theorem boot (hboot : Machine.Boot img t.machine)
    (hmem : t.cpu.mem = t.machine.st.mem)
    (hcode : Sv39.Lies d len t.machine.st.mem entry.toNat Asm.switch) :
    Suspended img d len entry addr [] t := by
  refine ⟨.boot hboot, hmem, hcode, fun j cx _ hj => ?_⟩
  cases hj

end Suspended

/-- Whoever is switched to goes on with the registers it was left with, in every run after boot. -/
theorem context_switch (hplaces : ThreadPlaces img entry addr) {t₀ : Threads ι}
    (hboot : Machine.Boot img t₀.machine) (hmem : t₀.cpu.mem = t₀.machine.st.mem)
    (hcode : Sv39.Lies d len t₀.machine.st.mem entry.toNat Asm.switch)
    (hrun : Runs (ThreadStep img d entry addr) t₀ tr t) {p : UInt64} {j : ι}
    (hc : CallsSwitch t.machine entry p (addr j) t.cpu) (hj : j ≠ t.current)
    (hp : ∀ a, ContextSlot p a → t.machine.KernelWord img a
      ∧ ∀ i, i ≠ t.current → ¬ ContextSlot (addr i) a)
    {cx : ProcessContext} (hcx : recorded tr j = some cx) :
    ∃ c, stepN (Sv39.bus d) Asm.switch.length t.cpu = some c ∧ ProcessContext.ofCpu c = cx
      ∧ c.pc = cx.ra &&& ~~~1 ∧ (∀ r, CallerSaved r → c.get r = t.cpu.get r)
      ∧ c.csr = t.cpu.csr ∧ c.mode = t.cpu.mode := by
  have h : Suspended img d len entry addr tr t :=
    hrun.trace_invariant (Suspended.boot hboot hmem hcode) fun _ _ _ _ h hs =>
      h.step hplaces hs
  obtain ⟨c, hrun', -, hsw⟩ := h.walkable.switch hplaces h.code hc fun a ha => (hp a ha).1
  have hloaded : ProcessContext.ofCpu c = cx := by
    have hsame : ProcessContext.ofMem c.mem (addr j)
        = ProcessContext.ofMem t.machine.st.mem (addr j) := by
      rw [← hplaces.inMemory h.walkable, ← hplaces.inMemory h.walkable, ← h.mem]
      refine ProcessContext.inMemory_congr fun a ha => ?_
      exact hsw.others a (hplaces.word _ ha).1 fun hpa => (hp a hpa).2 j hj ha
    rw [hsw.loaded, hplaces.inMemory h.walkable, hsame]
    exact h.contexts j cx hj hcx
  refine ⟨c, hrun', hloaded, ?_, hsw.registers, hsw.csr, hsw.mode⟩
  rw [hsw.pc, ← hloaded]
  rfl

end Threads

/-- The idle thread switches to a new one. -/
theorem context_switch_new : ∃ (c c' : Cpu Mem),
    stepN (Sv39.bus Sv39.plain) Asm.switch.length c = some c'
      ∧ ProcessContext.ofCpu c' = ProcessContext.gotoTrapReturn 0x80220000 0x80310000
      ∧ c'.pc = 0x80220000 := by
  let addr : Bool → UInt64 := fun b => if b then 0x80300100 else 0x80300000
  let m : Mem := Mem.write (fun _ => 0) (0x80210 * 4096 + 0) (Sv39.codeBytes Asm.switch)
  obtain ⟨s₀, hboot, himage, -⟩ := exists_boot_image default m (by decide)
  have hplaces : ThreadPlaces default 0x80210000 addr :=
    ⟨by decide, by decide, by decide, by decide, by decide⟩
  have hlies : Sv39.Lies Sv39.plain (fun _ => 4) m 0x80210000 Asm.switch :=
    (Sv39.placed_write (n := 0x80210) (o := 0) _ (by decide) (by decide)).lies
  have hcode : Sv39.Lies Sv39.plain (fun _ => 4) s₀.st.mem (0x80210000 : UInt64).toNat
      Asm.switch := by
    refine hlies.congr fun x hx hx' => himage x ?_ ?_
    · exact Nat.le_trans (by decide) hx
    · exact Nat.lt_of_lt_of_le hx' (by decide)
  let cx := ProcessContext.gotoTrapReturn 0x80220000 0x80310000
  let m₁ := s₀.st.mem.write (addr true).toNat (Sv39.wordBytes cx.words)
  let c₀ : Cpu Mem := ⟨fun _ => 0, fun _ => 0, .supervisor, 0, s₀.st.mem⟩
  let c : Cpu Mem := ⟨fun r => if r = Reg.a0 then addr false else addr true,
    fun _ => UInt64.ofNat s₀.kernel.token, .supervisor, 0x80210000, m₁⟩
  have hne : true ≠ false := by decide
  have hrec : recorded [.create true cx] true = some cx := rfl
  have hcreate : ThreadStep default Sv39.plain 0x80210000 addr ⟨s₀, c₀, false⟩ (.create true cx)
      ⟨s₀.withMem c.mem, c, false⟩ := .create hne rfl
  have hc : CallsSwitch (s₀.withMem c.mem) 0x80210000 (addr false) (addr true) c :=
    ⟨rfl, rfl, rfl, rfl, rfl, rfl⟩
  obtain ⟨c', hsteps, hcx, hpc, -⟩ :=
    context_switch hplaces hboot rfl hcode (Runs.single hcreate) hc hne
    (fun a ha => ⟨(hplaces.word _ ha).1, fun i hi hia => hi (hplaces.slots_apart hia ha)⟩) hrec
  refine ⟨c, c', hsteps, hcx, hpc.trans ?_⟩
  decide

end Nimloth
