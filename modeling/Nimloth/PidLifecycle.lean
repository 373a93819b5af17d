import Nimloth.KernelTree
import Nimloth.LifecycleSteps

/-!
# Pids and kernel stacks

The stack of a process lies where its pid says, so that a recycled pid
brings its stack back. `PidInv` says that the kernel's areas are those of
`new_kernel` and one for each process; what distinguishes two of them is
the pid alone (`stackBounds_apart`). Every event keeps it
(`PidInv.step`), as long as the pids it hands out are small.

The end of a process takes no frames (`GivesBack`), so that there is room
for the next one, which has the recycled pid.
-/

namespace Nimloth

open Outcome PageTable MemorySet

/-! ## Statements -/

/-- The pages of the stack of `pid`: first page and end. -/
def kernelStackPages (pid : Nat) : Nat × Nat :=
  (VirtAddr.floor (VirtAddr.from (kernelStackPosition pid).1),
    VirtAddr.ceil (VirtAddr.from (kernelStackPosition pid).2))

/-- Creation and `fork` need a pid. -/
def Lifecycle.TakesPid : Lifecycle → Prop
  | .create _ _ => True
  | .fork _ => True
  | _ => False

/-- A step that hands out small pids only. -/
def PidStep (img : KernelImage) (s : Machine) (e : Lifecycle) (s' : Machine) : Prop :=
  LifecycleStep img s e s' ∧ (e.TakesPid → SmallPid s.pids.alloc.1)

/-! ## Pids -/

/-- One more pid is in use. -/
theorem PidAllocator.alloc_count {a : PidAllocator} {n : Nat}
    (h : a.recycled.length + n = a.current) :
    a.alloc.2.recycled.length + (n + 1) = a.alloc.2.current := by
  obtain ⟨current, recycled⟩ := a
  cases recycled with
  | nil =>
      have h : 0 + n = current := h
      show 0 + (n + 1) = current + 1
      omega
  | cons x rest =>
      have h : rest.length + 1 + n = current := h
      show rest.length + (n + 1) = current
      omega

theorem PidAllocator.dealloc_count {a a' : PidAllocator} {pid n : Nat}
    (h : a.recycled.length + (n + 1) = a.current) (hd : a.dealloc pid = some a') :
    a'.recycled.length + n = a'.current := by
  unfold PidAllocator.dealloc at hd
  split at hd
  · cases hd
    simp only [List.length_cons]
    omega
  · cases hd

/-- The pid given back last is the next to be handed out. -/
theorem PidAllocator.alloc_of_dealloc {a a' : PidAllocator} {pid : Nat}
    (hd : a.dealloc pid = some a') : a'.alloc.1 = pid := by
  unfold PidAllocator.dealloc at hd
  split at hd
  · cases hd
    rfl
  · cases hd

/-- Stacks of two small pids have no page in common, and none has the page below the other. -/
theorem stackBounds_apart {pid pid' : Nat} (h : SmallPid pid) (h' : SmallPid pid')
    (hne : pid ≠ pid') :
    stackStart pid + 2 < stackStart pid' ∨ stackStart pid' + 2 < stackStart pid := by
  obtain ⟨-, heq, hle⟩ := h.stackStart_gt
  obtain ⟨-, heq', hle'⟩ := h'.stackStart_gt
  omega

theorem sectionBounds_le (img : KernelImage) {b : Nat × Nat} (hb : b ∈ img.sectionBounds) :
    b.2 ≤ 0x81000 := by
  have hle := img.sections_le
  rw [img.sectionBounds_eq] at hb
  simp only [List.mem_cons, List.not_mem_nil, or_false] at hb
  rcases hb with rfl | rfl | rfl | rfl | rfl | rfl | rfl <;> dsimp only <;> omega

theorem SmallPid.pages {pid : Nat} (h : SmallPid pid) :
    kernelStackPages pid = (stackStart pid, stackStart pid + 2) := by
  obtain ⟨h₁, h₂, -⟩ := h.position
  rw [kernelStackPages, h₁, h₂]

/-! ## The invariant -/

structure PidInv (img : KernelImage) (s : Machine) : Prop where
  ok : s.Ok img
  pids : s.pids.Ok (· ∈ s.procs.map ProcessSpace.pid)
  nodup : (s.procs.map ProcessSpace.pid).Nodup
  count : s.pids.recycled.length + s.procs.length = s.pids.current
  small : ∀ pid ∈ s.procs.map ProcessSpace.pid, SmallPid pid
  bounds : s.bounds.Perm (img.sectionBounds ++ (s.procs.map ProcessSpace.pid).map stackBounds)

namespace PidInv

variable {img : KernelImage} {s s' : Machine} {i : Nat}

theorem boot (h : Machine.Boot img s) : PidInv img s := by
  obtain ⟨m, hk, hpids, hprocs⟩ := h
  obtain ⟨hok, hm, hbounds⟩ := (newKernel_meets (X := Stray img.trampoline)
    img.wf_initFrameAllocator).ok hk
  refine ⟨⟨?_, ?_, hok.space, ?_⟩, ?_, ?_, ?_, ?_, ?_⟩
  · rw [Machine.sets, hprocs]
    simpa [Sets.frames] using hok.owns
  · rw [Machine.sets, hprocs]
    simpa [Sets.frames] using (KernelImage.Backs.init img m).moves hm
  · rw [Machine.sets, hprocs]
    exact fun x hx => absurd hx List.not_mem_nil
  · rw [hpids, hprocs]
    exact ⟨fun pid hpid => absurd hpid List.not_mem_nil,
      fun pid hpid => absurd hpid List.not_mem_nil, List.nodup_nil⟩
  · rw [hprocs]
    exact List.nodup_nil
  · rw [hpids, hprocs]
    rfl
  · rw [hprocs]
    exact fun pid hpid => absurd hpid List.not_mem_nil
  · rw [hprocs, Machine.bounds, hbounds]
    simp

/-- Which ranges the kernel has mapped. -/
theorem mem_bounds (h : PidInv img s) {b : Nat × Nat} (hb : b ∈ s.bounds) :
    b.2 ≤ 0x81000 ∨ ∃ pid ∈ s.procs.map ProcessSpace.pid, b = stackBounds pid := by
  rcases List.mem_append.mp (h.bounds.mem_iff.mp hb) with hb | hb
  · exact Or.inl (sectionBounds_le img hb)
  · obtain ⟨pid, hpid, rfl⟩ := List.mem_map.mp hb
    exact Or.inr ⟨pid, hpid, rfl⟩

theorem stack_mem_bounds (h : PidInv img s) {pid : Nat}
    (hpid : pid ∈ s.procs.map ProcessSpace.pid) : stackBounds pid ∈ s.bounds :=
  h.bounds.mem_iff.mpr (List.mem_append_right _ (List.mem_map_of_mem hpid))

/-- The stack of a new pid is not mapped. -/
theorem stackFaults (h : PidInv img s) (hsmall : SmallPid s.pids.alloc.1) (E : Fault → Prop) :
    Machine.StackFaults E s := by
  refine ⟨fun hs => absurd hsmall hs, ?_⟩
  rintro ⟨b, hb, hlt₁, hlt₂⟩
  exfalso
  obtain ⟨hgt, -, -⟩ := hsmall.stackStart_gt
  rcases h.mem_bounds hb with hle | ⟨pid, hpid, rfl⟩
  · omega
  · have hne : pid ≠ s.pids.alloc.1 := by
      rintro rfl
      exact h.pids.alloc_fresh hpid
    have hapart := stackBounds_apart (h.small pid hpid) hsmall hne
    simp only [stackBounds] at hlt₁ hlt₂
    omega

/-- Nothing but the pids and the kernel's areas matters. -/
theorem samePids (h : PidInv img s) (hok : s'.Ok img) (hs : s.SamePids s') : PidInv img s' := by
  have hlen : s'.procs.length = s.procs.length := by
    simpa only [List.length_map] using congrArg List.length hs.procs
  refine ⟨hok, ?_, ?_, ?_, ?_, ?_⟩
  · rw [hs.pids, hs.procs]
    exact h.pids
  · rw [hs.procs]
    exact h.nodup
  · rw [hs.pids, hlen]
    exact h.count
  · rw [hs.procs]
    exact h.small
  · rw [Machine.bounds, hs.kernel, hs.procs]
    exact h.bounds

/-- A process more. -/
theorem spawned {st₁ : MemState} {ms : MemorySet} {parent : Option Nat} {p : ProcessSpace}
    (h : PidInv img s) (hsmall : SmallPid s.pids.alloc.1)
    (hs : Machine.Spawned img { s with st := st₁ } ms parent p s') : PidInv img s' := by
  have hpid : p.pid = s.pids.alloc.1 := hs.pid
  have hprocs : s'.procs = s.procs ++ [p] := hs.procs
  have hpids : s'.pids = s.pids.alloc.2 := hs.pids
  have hall : s'.procs.map ProcessSpace.pid = s.procs.map ProcessSpace.pid ++ [s.pids.alloc.1] := by
    rw [hprocs, List.map_append, List.map_cons, List.map_nil, hpid]
  have hfresh := h.pids.alloc_fresh
  refine ⟨hs.ok, ?_, ?_, ?_, ?_, ?_⟩
  · rw [hpids]
    refine h.pids.alloc fun pid hmem => ?_
    rw [hall] at hmem
    simpa using hmem
  · rw [hall, List.nodup_append]
    refine ⟨h.nodup, List.nodup_singleton _, fun a ha b hb => ?_⟩
    rw [List.mem_singleton.mp hb]
    rintro rfl
    exact hfresh ha
  · rw [hpids, hprocs, List.length_append, List.length_singleton]
    exact PidAllocator.alloc_count h.count
  · intro pid hmem
    rw [hall] at hmem
    rcases List.mem_append.mp hmem with hmem | hmem
    · exact h.small pid hmem
    · rw [List.mem_singleton.mp hmem]
      exact hsmall
  · obtain ⟨hb, -⟩ := hs.stack (hpid ▸ hsmall)
    rw [hb, hall, hpid, List.map_append, ← List.append_assoc]
    exact h.bounds.append_right _

/-- The area that starts at the stack of a process is its stack. -/
theorem area_of_start (h : PidInv img s) {pid : Nat} (hpid : pid ∈ s.procs.map ProcessSpace.pid)
    {a : MapArea} (ha : a ∈ s.kernel.areas) (hstart : a.vpnRange.start = stackStart pid) :
    a.bounds = stackBounds pid := by
  have hsmall := h.small pid hpid
  obtain ⟨hgt, -, -⟩ := hsmall.stackStart_gt
  have hb : a.bounds ∈ s.bounds := List.mem_map_of_mem ha
  have hle := a.vpnRange.le
  rcases h.mem_bounds hb with hle' | ⟨pid', hpid', heq⟩
  · dsimp only [MapArea.bounds] at hle'
    omega
  · have hpp : pid' = pid := by
      by_contra hne
      have hapart := stackBounds_apart (h.small pid' hpid') hsmall hne
      have h₁ : a.vpnRange.start = stackStart pid' := congrArg Prod.fst heq
      omega
    rw [heq, hpp]

/-- A process less. -/
theorem dropped (h : PidInv img s) {p : ProcessSpace} (hp : s.procs[i]? = some p)
    {E : Fault → Prop} :
    Meets E (Machine.dropProcess i) s fun _ s' => PidInv img s'
      ∧ (∀ v, v < 2 ^ 27 → s'.kernel.pageTable.lookup s'.st.mem v
        = if (kernelStackPages p.pid).1 ≤ v ∧ v < (kernelStackPages p.pid).2 then none
          else s.kernel.pageTable.lookup s.st.mem v)
      ∧ s'.procs = s.procs.eraseIdx i ∧ s.pids.dealloc p.pid = some s'.pids := by
  have hpid : p.pid ∈ s.procs.map ProcessSpace.pid :=
    List.mem_map_of_mem (List.mem_of_getElem? hp)
  have hsmall := h.small _ hpid
  have hperm : (s.procs.map ProcessSpace.pid).Perm
      (p.pid :: (s.procs.eraseIdx i).map ProcessSpace.pid) :=
    (perm_cons_eraseIdx hp).map ProcessSpace.pid
  obtain ⟨hnot, hnodup⟩ := List.nodup_cons.mp (hperm.nodup_iff.mp h.nodup)
  have hused : ∀ pid, pid ∈ (s.procs.eraseIdx i).map ProcessSpace.pid →
      pid ∈ s.procs.map ProcessSpace.pid ∧ pid ≠ p.pid := by
    intro pid hmem
    refine ⟨hperm.mem_iff.mpr (List.mem_cons_of_mem _ hmem), ?_⟩
    rintro rfl
    exact hnot hmem
  obtain ⟨pids', hdealloc, hpids'⟩ := h.pids.dealloc hpid hused
  refine (Machine.dropProcess_meets hp (Holds.perm h.ok (Machine.sets_perm hp)) ?_
    (fun hs => absurd hsmall hs)).mono ?_
  · intro hnone
    rw [hdealloc] at hnone
    cases hnone
  rintro _ s' ⟨hprocs, hd, hholds, -, hstack⟩
  rw [hdealloc] at hd
  cases hd
  -- the area that goes is the stack of the process
  obtain ⟨a₀, ha₀, hbounds₀⟩ := List.mem_map.mp (h.stack_mem_bounds hpid)
  have hstart₀ : a₀.vpnRange.start = stackStart p.pid := congrArg Prod.fst hbounds₀
  rcases hstack hsmall with ⟨hno, -⟩ | ⟨a, hstart, hareas⟩
  · exact absurd hstart₀ (hno a₀ ha₀)
  have hab := h.area_of_start hpid (hareas.mem_iff.mpr List.mem_cons_self) hstart
  refine ⟨⟨?_, ?_, ?_, ?_, ?_, ?_⟩, ?_, hprocs, hdealloc⟩
  · rw [Machine.Ok, Machine.sets, hprocs]
    exact hholds
  · rw [hprocs]
    exact hpids'
  · rw [hprocs]
    exact hnodup
  · rw [hprocs]
    refine PidAllocator.dealloc_count ?_ hdealloc
    have hlen := hperm.length_eq
    rw [List.length_map, List.length_cons, List.length_map] at hlen
    rw [← hlen]
    exact h.count
  · rw [hprocs]
    exact fun pid hmem => h.small pid (hused pid hmem).1
  · rw [hprocs]
    have hold : s.bounds.Perm (stackBounds p.pid :: s'.bounds) := by
      rw [← hab]
      exact hareas.map MapArea.bounds
    have hnew : (img.sectionBounds ++ (s.procs.map ProcessSpace.pid).map stackBounds).Perm
        (stackBounds p.pid :: (img.sectionBounds
          ++ ((s.procs.eraseIdx i).map ProcessSpace.pid).map stackBounds)) :=
      ((hperm.map stackBounds).append_left _).trans List.perm_middle
    exact List.Perm.cons_inv (hold.symm.trans (h.bounds.trans hnew))
  · intro v hv
    have hk : Space img.trampoline s.st.mem s.kernel.pageTable (a :: s'.kernel.areas) :=
      h.ok.kernel.perm hareas
    rw [lookup_of_removed hk hholds.kernel hv, hsmall.pages]
    have hend : a.vpnRange.end_ = stackStart p.pid + 2 := congrArg Prod.snd hab
    rw [hstart, hend]

/-- Every event but the two panics that are excluded. -/
def PidFault (f : Fault) : Prop := f ≠ .pidDealloc ∧ f ≠ .kernelSpace .mapped

theorem step (h : PidInv img s) (e : Lifecycle) (hsmall : e.TakesPid → SmallPid s.pids.alloc.1) :
    Meets PidFault (e.run img) s fun _ s' => PidInv img s' := by
  have hspace : ∀ e, PidFault (.space e) := fun _ => ⟨by simp, by simp⟩
  have hout : PidFault (.kernelSpace .outOfFrames) := ⟨by decide, by decide⟩
  have hno : PidFault .noProcess := ⟨by decide, by decide⟩
  cases e with
  | create cpu elf =>
      have hs := hsmall trivial
      refine (Machine.create_meets (R := fun _ _ => True) h.ok (h.stackFaults hs _) ?_
        (fun _ _ _ _ => hout)).mono ?_
      · refine ((fromElf_meets (X := Stray img.trampoline) h.ok.owns.wf).weaken
          fun _ _ => hspace _).mono ?_
        exact fun r st₁ ⟨hok, htrap, hm⟩ => ⟨hok, htrap, hm, trivial⟩
      · rintro _ s' ⟨ms, st₁, p, -, hspawn, -⟩
        exact h.spawned hs hspawn
  | fork i =>
      have hs := hsmall trivial
      refine (Machine.fork_meets h.ok (h.stackFaults hs _) (fun _ => hno)
        (fun _ => ⟨hspace _, hout⟩)).mono ?_
      rintro _ s' ⟨q, ms, st₁, p, -, -, hspawn, -⟩
      exact h.spawned hs hspawn
  | exec cpu i elf args =>
      exact (Machine.exec_meets h.ok hspace hno).mono fun _ _ ⟨hok, hs⟩ => h.samePids hok hs
  | exit i exitCode =>
      refine (Machine.exit_meets h.ok (fun _ => hno)
        (fun _ => ⟨by decide, by decide⟩)).mono ?_
      exact fun _ _ ⟨hok, hs, _⟩ => h.samePids hok hs
  | drop i =>
      cases hp : s.procs[i]? with
      | none =>
          simp only [Lifecycle.run, Machine.dropProcess, Meets.bind_iff, Meets.get_iff]
          rw [hp]
          exact Meets.unwrap_none.mpr hno
      | some p => exact (h.dropped hp).mono fun _ _ h' => h'.1
  | userStore i va b =>
      exact (Machine.userStore_meets h.ok hno).mono fun _ _ ⟨hok, hs⟩ => h.samePids hok hs

theorem runs {s₀ : Machine} {tr : List Lifecycle} (hboot : Machine.Boot img s₀)
    (hrun : Runs (PidStep img) s₀ tr s) : PidInv img s := by
  refine hrun.invariant (boot hboot) ?_
  intro a e b ha hstep
  exact (ha.step e hstep.2).ok hstep.1

/-- A page below the trampoline is in an area of `new_kernel`, in a stack, or not mapped. -/
theorem mapped_iff (h : PidInv img s) {v : Nat} (hv : v < TRAMPOLINE_VPN) :
    s.kernel.pageTable.lookup s.st.mem v ≠ none ↔ ∃ b ∈ s.bounds, b.1 ≤ v ∧ v < b.2 :=
  lookup_ne_none_iff h.ok.kernelOk hv

theorem stack_mapped (h : PidInv img s) {pid : Nat} (hpid : pid ∈ s.procs.map ProcessSpace.pid)
    {v : Nat} (h₁ : stackStart pid ≤ v) (h₂ : v < stackStart pid + 2) :
    s.kernel.pageTable.lookup s.st.mem v ≠ none := by
  obtain ⟨-, heq, hle⟩ := (h.small pid hpid).stackStart_gt
  refine (h.mapped_iff ?_).mpr ⟨_, h.stack_mem_bounds hpid, h₁, h₂⟩
  simp only [TRAMPOLINE_VPN]
  omega

theorem guard_unmapped (h : PidInv img s) {pid : Nat} (hpid : pid ∈ s.procs.map ProcessSpace.pid) :
    s.kernel.pageTable.lookup s.st.mem (stackStart pid - 1) = none := by
  obtain ⟨hgt, heq, hle⟩ := (h.small pid hpid).stackStart_gt
  by_contra hne
  obtain ⟨b, hb, h₁, h₂⟩ := (h.mapped_iff (by
    simp only [TRAMPOLINE_VPN]
    omega)).mp hne
  rcases h.mem_bounds hb with hle' | ⟨pid', hpid', rfl⟩
  · omega
  · dsimp only [stackBounds] at h₁ h₂
    by_cases hpp : pid' = pid
    · rw [hpp] at h₁
      omega
    · have hapart := stackBounds_apart (h.small pid' hpid') (h.small pid hpid) hpp
      omega

end PidInv

/-! ## Frames given back -/

/-- A program that takes no frames. -/
def GivesBack {α : Type} (c : MemM α) : Prop :=
  ∀ st, Meets (fun _ => True) c st fun _ st' => st.alloc.available ≤ st'.alloc.available

namespace GivesBack

variable {α β : Type}

theorem pure (a : α) : GivesBack (pure a : MemM α) :=
  fun _ => Meets.pure_iff.mpr (Nat.le_refl _)

theorem bind {c : MemM α} {f : α → MemM β} (hc : GivesBack c) (hf : ∀ a, GivesBack (f a)) :
    GivesBack (c >>= f) := by
  intro st
  rw [Meets.bind_iff]
  exact (hc st).mono fun a st' hle => (hf a st').mono fun _ _ hle' => Nat.le_trans hle hle'

theorem unwrap (e : MemPanic) (o : Option α) : GivesBack (unwrap e o) := by
  intro st
  cases o with
  | none => exact Meets.unwrap_none.mpr trivial
  | some a => exact Meets.unwrap_some.mpr (Nat.le_refl _)

theorem frameDealloc (p : Nat) : GivesBack (frameDealloc p) := by
  intro st
  simp only [Nimloth.frameDealloc, Meets.bind_iff, Meets.get_iff]
  cases hd : st.alloc.dealloc p with
  | none => exact Meets.unwrap_none.mpr trivial
  | some a =>
      rw [Meets.unwrap_some, Meets.set_iff]
      unfold StackFrameAllocator.dealloc at hd
      split at hd
      · cases hd
      · cases hd
        simp only [StackFrameAllocator.available, List.length_cons]
        omega

theorem dropFrames (ps : List Nat) : GivesBack (dropFrames ps) := by
  induction ps with
  | nil => exact pure ()
  | cons p ps ih => exact (frameDealloc p).bind fun _ => ih

theorem unmap (pt : PageTable) (vpn : Nat) : GivesBack (pt.unmap vpn) := by
  intro st
  simp only [PageTable.unmap, Meets.bind_iff, Meets.get_iff]
  cases pt.findPte st.mem vpn with
  | none => exact Meets.unwrap_none.mpr trivial
  | some x =>
      rw [Meets.unwrap_some, Meets.ensure_iff]
      exact ⟨fun _ => Meets.set_iff.mpr (Nat.le_refl _), fun _ => trivial⟩

theorem unmapOne (a : MapArea) (pt : PageTable) (vpn : Nat) : GivesBack (a.unmapOne pt vpn) := by
  unfold MapArea.unmapOne
  cases a.mapType with
  | identical => exact (unmap pt vpn).bind fun _ => pure _
  | framed => exact (unwrap _ _).bind fun p => (frameDealloc p).bind fun _ =>
      (unmap pt vpn).bind fun _ => pure _

theorem unmapPages (pt : PageTable) (vpns : List Nat) :
    ∀ a : MapArea, GivesBack (a.unmapPages pt vpns) := by
  induction vpns with
  | nil => exact fun a => pure a
  | cons vpn vpns ih => exact fun a => (unmapOne a pt vpn).bind ih

theorem removeAreaWithStartVpn (ms : MemorySet) (v : Nat) :
    GivesBack (ms.removeAreaWithStartVpn v) := by
  unfold MemorySet.removeAreaWithStartVpn
  split
  · exact pure ms
  · split
    · exact pure ms
    · next area _ =>
        exact (unmapPages ms.pageTable area.vpnRange.pages area).bind fun a =>
          (dropFrames a.ppns).bind fun _ => pure _

end GivesBack

/-- The end of a process takes no frames. -/
theorem dropProcess_available {s : Machine} (i : Nat) :
    Meets (fun _ => True) (Machine.dropProcess i) s fun _ s' =>
      s.st.alloc.available ≤ s'.st.alloc.available := by
  simp only [Machine.dropProcess, Meets.bind_iff, Meets.get_iff]
  cases s.procs[i]? with
  | none => exact Meets.unwrap_none.mpr trivial
  | some p =>
      simp only [Meets.unwrap_some, Meets.set_iff, Machine.pidDealloc, Meets.bind_iff,
        Meets.get_iff]
      cases s.pids.dealloc p.pid with
      | none => exact Meets.unwrap_none.mpr trivial
      | some pids =>
          simp only [Meets.unwrap_some, Machine.dropKernelStack, KernelStack.drop, Meets.bind_iff,
            Meets.get_iff, onMemory_iff, Meets.ensure_iff, Meets.modify_iff]
          refine ⟨fun _ => ?_, fun _ => trivial⟩
          refine (GivesBack.removeAreaWithStartVpn _ _ _).mono fun _ st₁ hle => ?_
          exact (((GivesBack.dropFrames _).bind fun _ => GivesBack.dropFrames _) st₁).mono
            fun _ st₂ hle' => Nat.le_trans hle hle'

/-! ## Boot and creation -/

/-- The kernel boots with 31 frames. -/
theorem exists_boot (img : KernelImage) (m : Mem) (hav : 31 ≤ img.initFrameAllocator.available) :
    ∃ s, Machine.Boot img s
      ∧ img.initFrameAllocator.available ≤ s.st.alloc.available + 31 := by
  have hwf : MemState.alloc ⟨m, img.initFrameAllocator⟩ |>.Wf := img.wf_initFrameAllocator
  obtain ⟨kernel, st, hk, hst⟩ := Meets.exists_ok (@newKernel_returns img _ hwf hav)
  exact ⟨⟨st, kernel, ⟨0, []⟩, []⟩, ⟨m, hk, rfl, rfl⟩, hst⟩

/-- A program without segments is created with 18 frames. -/
theorem exists_create {img : KernelImage} {s : Machine} (h : PidInv img s)
    (hsmall : SmallPid s.pids.alloc.1) (hav : 18 ≤ s.st.alloc.available) (cpu : TrapSetup) :
    ∃ s' p, PidStep img s (.create cpu ⟨[], [], 0⟩) s' ∧ s'.procs = s.procs ++ [p]
      ∧ p.pid = s.pids.alloc.1 ∧ s'.pids = s.pids.alloc.2
      ∧ s.st.alloc.available ≤ s'.st.alloc.available + 18 := by
  have hcreate := @Machine.create_meets img _ s cpu ⟨[], [], 0⟩
    (fun _ st₁ => s.st.alloc.available ≤ st₁.alloc.available + 12) h.ok
    (h.stackFaults hsmall fun _ => False) ?_ ?_
  · obtain ⟨u, s', hs', ms, st₁, p, hst₁, hspawn, -⟩ := hcreate.exists_ok
    have hpid : p.pid = s.pids.alloc.1 := hspawn.pid
    obtain ⟨-, hst'⟩ := hspawn.stack (hpid ▸ hsmall)
    dsimp only at hst'
    exact ⟨s', p, ⟨hs', fun _ => hsmall⟩, hspawn.procs, hpid, hspawn.pids, by omega⟩
  · refine (fromElf_no_segments h.ok.owns.wf rfl (by omega)).mono ?_
    rintro r st₁ ⟨hok, htrap, hm, hst₁, -⟩
    exact ⟨hok, htrap, hm.weaken fun _ => False.elim, hst₁⟩
  · intro ms st₁ hst₁ hlt
    omega

/-! ## The lifecycle -/

theorem pid_lifecycle {img : KernelImage} {s₀ s : Machine} {tr : List Lifecycle}
    (hboot : Machine.Boot img s₀) (hrun : Runs (PidStep img) s₀ tr s) :
    (s.procs.map ProcessSpace.pid).Nodup
      ∧ s.pids.recycled.length ≤ s.pids.current
      ∧ s.pids.current - s.pids.recycled.length = s.procs.length
      ∧ (∀ p ∈ s.procs, (kernelStackPages p.pid).2 = (kernelStackPages p.pid).1 + 2
        ∧ (∀ v, (kernelStackPages p.pid).1 ≤ v → v < (kernelStackPages p.pid).2 →
          s.kernel.pageTable.lookup s.st.mem v ≠ none)
        ∧ s.kernel.pageTable.lookup s.st.mem ((kernelStackPages p.pid).1 - 1) = none)
      ∧ (∀ p ∈ s.procs, ∀ q ∈ s.procs, p.pid ≠ q.pid →
        (kernelStackPages p.pid).2 ≤ (kernelStackPages q.pid).1
          ∨ (kernelStackPages q.pid).2 ≤ (kernelStackPages p.pid).1)
      ∧ (∀ (e : Lifecycle) (f : Fault), (e.TakesPid → SmallPid s.pids.alloc.1) →
        e.run img s = .error f → f ≠ .pidDealloc ∧ f ≠ .kernelSpace .mapped)
      ∧ ∀ i p, s.procs[i]? = some p → ∃ s', (Lifecycle.drop i).run img s = .ok ((), s')
        ∧ ∀ v, v < 2 ^ 27 → s'.kernel.pageTable.lookup s'.st.mem v
          = if (kernelStackPages p.pid).1 ≤ v ∧ v < (kernelStackPages p.pid).2 then none
            else s.kernel.pageTable.lookup s.st.mem v := by
  have h := PidInv.runs hboot hrun
  have hmem : ∀ p ∈ s.procs, p.pid ∈ s.procs.map ProcessSpace.pid :=
    fun p hp => List.mem_map_of_mem hp
  have hcount := h.count
  refine ⟨h.nodup, by omega, by omega, ?_, ?_, ?_, ?_⟩
  · intro p hp
    rw [(h.small _ (hmem p hp)).pages]
    exact ⟨rfl, fun v => h.stack_mapped (hmem p hp), h.guard_unmapped (hmem p hp)⟩
  · intro p hp q hq hne
    have hapart := stackBounds_apart (h.small _ (hmem p hp)) (h.small _ (hmem q hq)) hne
    rw [(h.small _ (hmem p hp)).pages, (h.small _ (hmem q hq)).pages]
    dsimp only
    omega
  · exact fun e f hsmall herr => (h.step e hsmall).of_error herr
  · intro i p hp
    obtain ⟨u, s', hs', -, hlook, -⟩ := Meets.exists_ok (h.dropped hp)
    exact ⟨s', hs', hlook⟩

/-- Two processes; the first ends, and the third has its pid. -/
theorem pid_lifecycle_reuse : ∃ s₀ s tr, ∃ p q : ProcessSpace,
    Machine.Boot default s₀ ∧ Runs (PidStep default) s₀ tr s ∧ .drop 0 ∈ tr
      ∧ s.procs = [p, q] ∧ p.pid = 1 ∧ q.pid = 0
      ∧ (∀ v, (kernelStackPages q.pid).1 ≤ v → v < (kernelStackPages q.pid).2 →
        s.kernel.pageTable.lookup s.st.mem v ≠ none)
      ∧ ∃ s', (Lifecycle.drop 0).run default s = .ok ((), s') := by
  obtain ⟨s₀, hboot, hav₀⟩ := exists_boot default (fun _ => 0) (by decide)
  have htotal : (KernelImage.initFrameAllocator default).available = 0x900 := by decide
  have hpids₀ : s₀.pids = ⟨0, []⟩ := hboot.choose_spec.2.1
  have hprocs₀ : s₀.procs = [] := hboot.choose_spec.2.2
  -- two processes
  obtain ⟨s₁, p₀, hstep₁, hprocs₁, hpid₁, hpids₁, hav₁⟩ := exists_create (PidInv.boot hboot)
    (by rw [hpids₀]; decide) (by omega) ⟨0, 0⟩
  rw [hpids₀] at hpid₁ hpids₁
  rw [hprocs₀, List.nil_append] at hprocs₁
  have hrun₁ : Runs (PidStep default) s₀ _ s₁ := Runs.single hstep₁
  obtain ⟨s₂, p, hstep₂, hprocs₂, hpid₂, hpids₂, hav₂⟩ := exists_create (PidInv.runs hboot hrun₁)
    (by rw [hpids₁]; decide) (by omega) ⟨0, 0⟩
  rw [hpids₁] at hpid₂ hpids₂
  rw [hprocs₁] at hprocs₂
  have hrun₂ := hrun₁.snoc hstep₂
  -- the first ends
  have hdropped : Meets (fun _ => False) (Machine.dropProcess 0) s₂ _ :=
    (PidInv.runs hboot hrun₂).dropped (p := p₀) (by rw [hprocs₂]; rfl)
  obtain ⟨u, s₃, hdrop, h₃, -, hprocs₃, hd⟩ := hdropped.exists_ok
  have hav₃ : s₂.st.alloc.available ≤ s₃.st.alloc.available := (dropProcess_available 0).ok hdrop
  have hnext : s₃.pids.alloc.1 = 0 := by
    rw [PidAllocator.alloc_of_dealloc hd, hpid₁]
    rfl
  rw [hprocs₂] at hprocs₃
  have hstep₃ : PidStep default s₂ (.drop 0) s₃ := ⟨hdrop, False.elim⟩
  have hrun₃ := hrun₂.snoc hstep₃
  -- its pid is the next one
  obtain ⟨s, q, hstep, hprocs, hpid, -, -⟩ := exists_create h₃ (by rw [hnext]; decide)
    (by omega) ⟨0, 0⟩
  rw [hprocs₃] at hprocs
  rw [hnext] at hpid
  have hrun := hrun₃.snoc hstep
  obtain ⟨-, -, -, hstacks, -, -, hdrop'⟩ := pid_lifecycle hboot hrun
  have hq : q ∈ s.procs := by
    rw [hprocs]
    exact List.mem_append_right _ (List.mem_singleton.mpr rfl)
  obtain ⟨s', hs', -⟩ := hdrop' 0 p (by rw [hprocs]; rfl)
  refine ⟨s₀, s, _, p, q, hboot, hrun, ?_, hprocs, hpid₂, hpid, (hstacks q hq).2.1, s', hs'⟩
  simp

end Nimloth
