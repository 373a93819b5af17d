import Nimloth.FrameExclusivity
import Nimloth.TablePointers

/-!
# Page tables that the hardware can walk, over all events

`Traced` is what the processor needs of a machine besides `Machine.Ok`:
the upper levels of all page tables, the sections of the kernel where
`new_kernel` put them, and all frames in use behind the kernel's image.
Every event keeps it, and leaves the frames of the processes it is not
about alone (`Machine.Spares`).

Pids stay small because every process holds a frame, and of those there
are not so many (`Walkable.small`).
-/

namespace Nimloth

open Outcome PageTable MemorySet

/-! ## Statements -/

/-- The area of a section. -/
structure KernelSection.Maps (sec : KernelSection) (a : MapArea) : Prop where
  bounds : a.bounds = sec.bounds
  type : a.mapType = .identical
  perm : a.mapPerm = sec.perm

/-- The sections of `new_kernel` are areas of the kernel, and the other areas are as those of
    stacks. -/
structure HasSections (img : KernelImage) (kernel : MemorySet) : Prop where
  mapped : ∀ sec ∈ img.sections, ∃ a ∈ kernel.areas, sec.Maps a
  others : ∀ a ∈ kernel.areas, (∃ sec ∈ img.sections, sec.Maps a)
    ∨ a.mapType = .framed ∧ a.mapPerm = PTEFlags.R ||| PTEFlags.W

/-- The end of the memory, in frames. -/
abbrev MEMORY_END_PPN : Nat := 0x81000

/-- Frames in use and free ones lie behind the kernel. -/
def Above (img : KernelImage) (st : MemState) (S : List Nat) : Prop :=
  ∀ n, st.alloc.Free n ∨ n ∈ S → img.ekernel ≤ n * 4096

structure Traced (img : KernelImage) (st : MemState) (kernel : MemorySet) (sets : Sets) :
    Prop where
  above : Above img st (kernel.frames ++ sets.frames)
  end_ : st.alloc.end_ = MEMORY_END_PPN
  sections : HasSections img kernel
  kernel : kernel.Pointers st.mem
  sets : ∀ x ∈ sets, x.1.Pointers st.mem

namespace Machine

def Traced (img : KernelImage) (s : Machine) : Prop := Nimloth.Traced img s.st s.kernel s.sets

/-- The frames of the processes are as before, but for those at `but`. -/
def Spares (s s' : Machine) (but : Nat → Prop) : Prop :=
  ∀ j q, ¬ but j → s.procs[j]? = some q → ∀ n ∈ q.memorySet.frames,
    Mem.SameFrame s.st.mem s'.st.mem n

end Machine

/-- The processes an event is about. -/
def ProcessEvent.Touches : ProcessEvent → Nat → Prop
  | .lifecycle (.create _ _), _ => False
  | .lifecycle (.fork _), _ => False
  | .lifecycle (.exec _ i _ _), k => k = i
  | .lifecycle (.exit i _), k => k = i
  | .lifecycle (.drop i), k => k = i
  | .lifecycle (.userStore i _ _), k => k = i
  | .waitpid j i _, k => k = i ∨ k = j

/-! ## Changes of the state -/

/-- No frame comes from elsewhere. -/
theorem Above.moves {img : KernelImage} {X : Nat → Prop} {st st' : MemState} {S S' T : List Nat}
    (h : Above img st (S ++ T)) (hm : Moves X st S st' S') : Above img st' (S' ++ T) := by
  have hold : ∀ n, ¬ (st.alloc.Free n ∨ n ∈ S) → ¬ (st'.alloc.Free n ∨ n ∈ S') := by
    intro n hn
    rw [not_or] at hn ⊢
    exact ⟨hm.used n hn.1 hn.2, hm.apart n hn.1 hn.2⟩
  intro n hn
  by_cases hmem : n ∈ T
  · exact h n (Or.inr (List.mem_append_right _ hmem))
  · have hn' : st'.alloc.Free n ∨ n ∈ S' := by
      rw [List.mem_append] at hn
      tauto
    by_contra hlt
    refine hold n (fun hs => hlt (h n ?_)) hn'
    rw [List.mem_append]
    tauto

theorem Above.perm {img : KernelImage} {st : MemState} {S T : List Nat} (h : Above img st S)
    (hp : S.Perm T) : Above img st T :=
  fun n hn => h n (hn.imp_right hp.mem_iff.mpr)

namespace Traced

variable {img : KernelImage} {st st' : MemState} {kernel kernel' : MemorySet} {sets sets' : Sets}

theorem perm (h : Traced img st kernel sets) (hp : sets.Perm sets') : Traced img st kernel sets' :=
  ⟨h.above.perm ((hp.flatMap_right _).append_left _), h.end_, h.sections, h.kernel,
    fun x hx => h.sets x (hp.mem_iff.mpr hx)⟩

/-- What the tables say stays. -/
theorem pointers_congr (h : Traced img st kernel sets) (hh : Holds img st kernel sets)
    (hs : ∀ p ∈ kernel.frames ++ sets.frames, Mem.SameFrame st.mem st'.mem p) :
    kernel.Pointers st'.mem ∧ ∀ x ∈ sets, x.1.Pointers st'.mem := by
  refine ⟨Pointers.congr h.kernel hh.kernel.tree fun p hp => hs p ?_, fun x hx =>
    Pointers.congr (h.sets x hx) (hh.sets x hx).tree fun p hp => hs p ?_⟩
  · exact List.mem_append_left _ (List.mem_append_left _ hp)
  · exact List.mem_append_right _ (sets.tables_subset (Sets.mem_tables hx hp))

/-- A write that leaves the tables as they are. -/
theorem congr (h : Traced img st kernel sets) (hh : Holds img st kernel sets)
    (hs : ∀ p ∈ kernel.pageTable.frames ++ sets.tables, Mem.SameFrame st.mem st'.mem p)
    (halloc : st'.alloc = st.alloc) : Traced img st' kernel sets where
  sections := h.sections
  kernel := Pointers.congr h.kernel hh.kernel.tree fun p hp => hs p (List.mem_append_left _ hp)
  sets := fun x hx => Pointers.congr (h.sets x hx) (hh.sets x hx).tree fun p hp =>
    hs p (List.mem_append_right _ (Sets.mem_tables hx hp))
  above := fun n hn => h.above n (halloc ▸ hn)
  end_ := halloc ▸ h.end_

section Moves

variable {X : Nat → Prop} {ms : MemorySet}

/-- One more address space. -/
theorem add (h : Traced img st kernel sets) (hh : Holds img st kernel sets)
    (hm : Moves X st [] st' ms.frames)
    (hs : ∀ p ∈ kernel.frames ++ sets.frames, Mem.SameFrame st.mem st'.mem p)
    (hnew : ms.Pointers st'.mem) : Traced img st' kernel ((ms, false) :: sets) := by
  obtain ⟨hk, hrest⟩ := h.pointers_congr hh hs
  refine ⟨?_, hm.end_eq.trans h.end_, h.sections, hk, fun x hx => ?_⟩
  · have hnil : Above img st ([] ++ (kernel.frames ++ sets.frames)) := h.above
    have habove := hnil.moves hm
    rw [Sets.frames_cons]
    exact habove.perm (List.perm_append_comm_assoc _ _ _)
  · rcases List.mem_cons.mp hx with rfl | hx
    · exact hnew
    · exact hrest x hx

/-- One address space less. -/
theorem dropped {z : Bool} (h : Traced img st kernel ((ms, z) :: sets))
    (hh : Holds img st kernel ((ms, z) :: sets)) (hm : Moves X st ms.frames st' [])
    (hs : ∀ p ∈ kernel.frames ++ sets.frames, Mem.SameFrame st.mem st'.mem p) :
    Traced img st' kernel sets := by
  have habove := h.above
  rw [Sets.frames_cons] at habove
  have h₀ : Traced img st kernel sets :=
    ⟨fun n hn => habove n ?_, h.end_, h.sections, h.kernel,
      fun y hy => h.sets y (List.mem_cons_of_mem _ hy)⟩
  · obtain ⟨hk, hrest⟩ := h₀.pointers_congr hh.of_cons hs
    have hmoved := (habove.perm (List.perm_append_comm_assoc _ _ _)).moves hm
    exact ⟨hmoved, hm.end_eq.trans h.end_, h.sections, hk, hrest⟩
  · refine hn.imp_right fun hn => ?_
    simp only [List.mem_append] at hn ⊢
    tauto

/-- The kernel's address space changes. -/
theorem changeKernel (h : Traced img st kernel sets) (hh : Holds img st kernel sets)
    (hm : Moves X st kernel.frames st' kernel'.frames)
    (hs : ∀ p ∈ sets.frames, Mem.SameFrame st.mem st'.mem p) (hk : kernel'.Pointers st'.mem)
    (hsec : HasSections img kernel') : Traced img st' kernel' sets where
  sections := hsec
  kernel := hk
  sets := fun x hx => Pointers.congr (h.sets x hx) (hh.sets x hx).tree fun p hp =>
    hs p (sets.tables_subset (Sets.mem_tables hx hp))
  above := h.above.moves hm
  end_ := hm.end_eq.trans h.end_

end Moves

end Traced

/-! ## Events -/

namespace Machine

variable {img : KernelImage} {s : Machine} {ms : MemorySet} {parent : Option Nat} {i : Nat}

theorem mem_eraseIdx_frames {j : Nat} {q : ProcessSpace} (hq : s.procs[j]? = some q) (hne : j ≠ i)
    {n : Nat} (hn : n ∈ q.memorySet.frames) :
    n ∈ Sets.frames ((s.procs.eraseIdx i).map fun p => (p.memorySet, p.zombie)) := by
  refine List.mem_flatMap.mpr ⟨(q.memorySet, q.zombie), ?_, hn⟩
  exact List.mem_map_of_mem (List.mem_eraseIdx_iff_getElem?.mpr ⟨j, hne, hq⟩)

theorem mem_sets_frames {j : Nat} {q : ProcessSpace} (hq : s.procs[j]? = some q) {n : Nat}
    (hn : n ∈ q.memorySet.frames) : n ∈ s.sets.frames :=
  List.mem_flatMap.mpr ⟨_, mem_sets (List.mem_of_getElem? hq), hn⟩

/-- One more stack. -/
theorem sections_of_pushed {kernel kernel' : MemorySet} {r : VPNRange}
    (h : HasSections img kernel) (hareas : ∃ a, Added
      ⟨r, [], .framed, PTEFlags.R ||| PTEFlags.W⟩ a ∧ kernel'.areas = kernel.areas ++ [a]) :
    HasSections img kernel' := by
  obtain ⟨a, hadded, hareas⟩ := hareas
  constructor
  · intro sec hsec
    obtain ⟨b, hb, hmaps⟩ := h.mapped sec hsec
    exact ⟨b, hareas ▸ List.mem_append_left _ hb, hmaps⟩
  · intro b hb
    rw [hareas] at hb
    rcases List.mem_append.mp hb with hb | hb
    · exact h.others b hb
    · obtain rfl := List.mem_singleton.mp hb
      exact Or.inr ⟨hadded.type, hadded.perm⟩

/-- A new process: frames of all address spaces stay. -/
theorem newProcess_traced (h : Holds img s.st s.kernel ((ms, false) :: s.sets))
    (ht : Nimloth.Traced img s.st s.kernel ((ms, false) :: s.sets)) :
    Meets (fun _ => True) (newProcess ms parent) s fun p s' =>
      s'.procs = s.procs ++ [p] ∧ p.memorySet = ms ∧ p.zombie = false
        ∧ p.trapCxPpn ∈ dataPpns ms.areas ∧ s'.Ok img ∧ s'.Traced img
        ∧ ∀ n ∈ Sets.frames ((ms, false) :: s.sets), Mem.SameFrame s.st.mem s'.st.mem n := by
  have hx : (ms, false) ∈ (ms, false) :: s.sets := List.mem_cons_self
  simp only [newProcess, pidAlloc, newKernelStack, Meets.bind_iff, onMemory_iff]
  refine (findTrapCx_meets (h.writable hx) ((h.sets _ hx).trapCx rfl)).mono ?_
  rintro ppn st₀ ⟨rfl, hppn⟩
  simp only [Meets.get_iff, Meets.set_iff, Meets.pure_iff]
  refine ((pushNew_meets (X := Stray img.trampoline) (E := fun _ => True) h.kernelOk
    (virtAddr_lt _) (virtAddr_lt _) (fun _ => trivial) (fun _ => trivial) fun _ => trivial).and
      (kernelStack_new_pointers ht.kernel h.kernelOk)).mono ?_
  rintro kernel' st₁ ⟨⟨r, -, -, hpush⟩, hk⟩
  obtain ⟨hholds, hsame⟩ := h.changeKernel hpush.ok hpush.moves
  have htraced := ht.changeKernel h hpush.moves hsame hk
    (sections_of_pushed ht.sections hpush.areas)
  have hperm : ∀ p : ProcessSpace, p.memorySet = ms → p.zombie = false →
      ((ms, false) :: s.sets).Perm ((s.procs ++ [p]).map fun p => (p.memorySet, p.zombie)) := by
    rintro p rfl hz
    rw [List.map_append, List.map_cons, List.map_nil, hz]
    exact (List.perm_append_singleton _ _).symm
  simp only [Meets.modify_iff]
  exact ⟨trivial, trivial, trivial, hppn, hholds.perm (hperm _ rfl rfl),
    htraced.perm (hperm _ rfl rfl), hsame⟩

/-- A write into the trap context of a process. -/
theorem writeTrapCx_traced {p : ProcessSpace} {k : Nat} {bs : List UInt8} (hok : s.Ok img)
    (ht : s.Traced img) (hp : p ∈ s.procs) (hz : p.zombie = false)
    (hppn : p.trapCxPpn ∈ dataPpns p.memorySet.areas) (hlen : k + bs.length ≤ 4096) :
    Meets (fun _ => True) (onMemory .space (writeTrapCx p.trapCxPpn k bs)) s fun _ s' =>
      s'.procs = s.procs ∧ s'.Ok img ∧ s'.Traced img
        ∧ ∀ n, n ≠ p.trapCxPpn → Mem.SameFrame s.st.mem s'.st.mem n := by
  have hx : (p.memorySet, false) ∈ s.sets := hz ▸ mem_sets hp
  have huser := Holds.userOk hok hx
  rw [onMemory_iff]
  refine (@writeTrapCx_meets img.trampoline _ _ _ _ _ _ hppn
    (huser.owns.pos _ (List.mem_append_right _ hppn)) hlen).mono ?_
  rintro _ st' ⟨hw, hsame⟩
  obtain ⟨hholds, htables⟩ := Holds.wrote hok hx hw
  exact ⟨rfl, hholds, Nimloth.Traced.congr ht hok htables hw.alloc, hsame⟩

/-- The trap context of a new process belongs to nobody else. -/
theorem trapCx_apart {s₁ s' : Machine} {p : ProcessSpace} {m : Mem}
    (hok : Holds img s₁.st s₁.kernel ((ms, false) :: s₁.sets))
    (hppn : p.trapCxPpn ∈ dataPpns ms.areas)
    (hsame : ∀ n, n ≠ p.trapCxPpn → Mem.SameFrame m s'.st.mem n) {n : Nat}
    (hn : n ∈ s₁.sets.frames) : Mem.SameFrame m s'.st.mem n := by
  refine hsame n ?_
  rintro rfl
  have ho := hok.owns.right
  rw [Sets.frames_cons] at ho
  exact ho.not_mem hn (List.mem_append_right _ hppn)

/-- What creation and `fork` have in common: the new address space is there, the process and its
    trap context are still to come. -/
theorem spawn_traced (s₀ : Machine) (parent : Option Nat) (k : Nat)
    (bs : ProcessSpace → Machine → List UInt8)
    (h : Holds img s.st s.kernel ((ms, false) :: s.sets))
    (ht : Nimloth.Traced img s.st s.kernel ((ms, false) :: s.sets))
    (hsame : ∀ n ∈ s.sets.frames, Mem.SameFrame s₀.st.mem s.st.mem n)
    (hprocs : s₀.procs = s.procs) (hlen : ∀ p s, k + (bs p s).length ≤ 4096) :
    Meets (fun _ => True) (do
      let p ← newProcess ms parent
      let s ← get
      onMemory .space (writeTrapCx p.trapCxPpn k (bs p s))) s fun _ s' =>
        s'.Traced img ∧ Spares s₀ s' fun _ => False := by
  rw [Meets.bind_iff]
  refine (newProcess_traced h ht).mono ?_
  rintro p s₁ ⟨hp, hms, hz, hppn, hok₁, ht₁, hsame₁⟩
  rw [Meets.bind_iff, Meets.get_iff]
  have hpmem : p ∈ s₁.procs := by
    rw [hp]
    exact List.mem_append_right _ List.mem_cons_self
  refine (writeTrapCx_traced hok₁ ht₁ hpmem hz (hms ▸ hppn) (hlen _ _)).mono ?_
  rintro _ s₂ ⟨-, -, ht₂, hsame₂⟩
  refine ⟨ht₂, fun j q _ hq n hn => ?_⟩
  rw [hprocs] at hq
  have hn' := mem_sets_frames hq hn
  refine (hsame n hn').trans ((hsame₁ n ?_).trans (trapCx_apart h hppn hsame₂ hn'))
  exact List.mem_append_right _ hn'

theorem create_traced {cpu : TrapSetup} {elf : Elf} (h : s.Ok img) (ht : s.Traced img) :
    Meets (fun _ => True) (create img cpu elf) s fun _ s' =>
      s'.Traced img ∧ Spares s s' fun _ => False := by
  simp only [create]
  rw [Meets.bind_iff, onMemory_iff]
  refine ((fromElf_meets (X := Stray img.trampoline) h.owns.wf).and (fromElf_pointers h.owns.wf)).mono ?_
  rintro ⟨ms, userSp, entry⟩ st₁ ⟨⟨hok, htrap, hm⟩, hp⟩
  dsimp only at hok htrap hm hp ⊢
  obtain ⟨hholds, hsame⟩ := Holds.add h hok htrap hm
  refine spawn_traced (s := { s with st := st₁ }) s none 0 _ hholds (ht.add h hm hsame hp)
    ?_ rfl ?_
  · exact fun n hn => hsame n (List.mem_append_right _ hn)
  · intro p s
    rw [length_bytes]
    decide

theorem fork_traced (h : s.Ok img) (ht : s.Traced img) :
    Meets (fun _ => True) (fork img i) s fun _ s' =>
      s'.Traced img ∧ Spares s s' fun _ => False := by
  rw [fork, Meets.bind_iff]
  refine (running_meets fun _ => trivial).mono ?_
  rintro q s₀ ⟨rfl, hq, hz⟩
  have hx : (q.memorySet, false) ∈ s₀.sets := hz ▸ mem_sets (List.mem_of_getElem? hq)
  have huser := Holds.userOk h hx
  rw [Meets.bind_iff, onMemory_iff]
  refine ((fromExistedUser_meets (E := fun _ => True) huser.toOk huser.framed fun _ => trivial).and
    (fromExistedUser_pointers huser.toOk huser.framed)).mono ?_
  rintro ms st₁ ⟨⟨hfork, -⟩, hp⟩
  have hframed : ∀ c ∈ ms.areas, c.mapType = .framed := by
    intro c hc
    obtain ⟨a, ha, hac⟩ := exists_left_of_forall₂ hfork.areas hc
    exact hac.type.trans (huser.framed a ha)
  have hm : Moves (Stray img.trampoline) s₀.st [] st₁ ms.frames :=
    hfork.moves.weaken fun _ => False.elim
  obtain ⟨hholds, hsame⟩ := Holds.add h ⟨hfork.ok, hframed⟩
    (trapContext_of_forking hfork ((h.sets _ hx).trapCx rfl)) hm
  have hspawn := spawn_traced (s := { s₀ with st := st₁ }) s₀ (some q.pid) (35 * 8)
    (fun p _ => leBytes 8 (kernelStackPosition p.pid).2) hholds
    (ht.add h hm hsame hp) (fun n hn => hsame n (List.mem_append_right _ hn)) rfl ?_
  · rw [Meets.bind_iff] at hspawn ⊢
    exact hspawn.mono fun p s' h' => Meets.get_iff.mp (Meets.bind_iff.mp h')
  · intro p s
    rw [leBytes_length]
    decide

theorem exec_traced {cpu : TrapSetup} {elf : Elf} {args : List (List UInt8)} (h : s.Ok img)
    (ht : s.Traced img) :
    Meets (fun _ => True) (exec img cpu i elf args) s fun _ s' =>
      s'.Traced img ∧ Spares s s' fun k => k = i := by
  simp only [exec, Meets.bind_iff]
  refine (running_meets fun _ => trivial).mono ?_
  rintro q s₀ ⟨rfl, hq, hz⟩
  rw [onMemory_iff]
  refine (((fromElf_meets (X := Stray img.trampoline) h.owns.wf).and (fromElf_userSp img elf _)).and
    (fromElf_pointers h.owns.wf)).mono ?_
  rintro ⟨ms, userSp, entry⟩ st₁ ⟨⟨⟨hok, htrap, hm⟩, hsp⟩, hp⟩
  dsimp only at hok htrap hm hsp hp ⊢
  obtain ⟨hholds, hsame⟩ := Holds.add h hok htrap hm
  have ht₁ := ht.add h hm hsame hp
  have hx : (ms, false) ∈ (ms, false) :: s₀.sets := List.mem_cons_self
  rw [onMemory_iff]
  refine (findTrapCx_meets (hholds.writable hx) htrap).mono ?_
  rintro ppn st₂ ⟨rfl, hppn⟩
  dsimp only
  rw [onMemory_iff]
  refine (pushArgs_meets (hholds.writable hx) trivial hsp).mono ?_
  rintro ⟨userSp', argvBase⟩ st₃ hw
  obtain ⟨hholds₃, htables₃⟩ := hholds.wrote hx hw
  have ht₃ := ht₁.congr hholds htables₃ hw.alloc
  dsimp only
  -- the old address space goes
  have hperm : ((ms, false) :: s₀.sets).Perm ((q.memorySet, q.zombie) :: (ms, false) ::
      (s₀.procs.eraseIdx i).map fun p => (p.memorySet, p.zombie)) :=
    ((sets_perm hq).cons _).trans (List.Perm.swap _ _ _)
  have hholds₃' := hholds₃.perm hperm
  have hold : Owns st₃ q.memorySet.frames := by
    have ho := hholds₃'.owns.right
    rw [Sets.frames_cons] at ho
    exact ho.left
  rw [onMemory_iff]
  refine (drop_meets (X := Stray img.trampoline) hold).mono ?_
  rintro _ st₄ ⟨hm₄, -⟩
  obtain ⟨hholds₄, hsame₄⟩ := hholds₃'.dropped hm₄
  have ht₄ := (ht₃.perm hperm).dropped hholds₃' hm₄ hsame₄
  simp only [Meets.modify_iff, Meets.get_iff, onMemory_iff]
  have hx₄ : (ms, false) ∈ ((ms, false) ::
      (s₀.procs.eraseIdx i).map fun p => (p.memorySet, p.zombie) : Sets) := List.mem_cons_self
  have huser := hholds₄.userOk hx₄
  refine (@writeTrapCx_meets img.trampoline _ _ _ _ _ _ hppn
    (huser.owns.pos _ (List.mem_append_right _ hppn)) ?_).mono ?_
  · rw [length_bytes]
    decide
  rintro _ st₅ ⟨hw₅, -⟩
  obtain ⟨-, htables₅⟩ := hholds₄.wrote hx₄ hw₅
  have ht₅ := ht₄.congr hholds₄ htables₅ hw₅.alloc
  have hset := set_sets_perm hq { q with memorySet := ms, trapCxPpn := ppn }
  have hmark : ((ms, false) : MemorySet × Bool) = (ms, q.zombie) := by rw [hz]
  rw [hmark] at ht₅
  refine ⟨ht₅.perm hset.symm, fun j r hne hr n hn => ?_⟩
  -- the frames of the others are none of the new address space
  have hrest := mem_eraseIdx_frames hr hne hn
  have hroom : ¬ Room img.trampoline ms n := by
    have ho := hholds₄.owns.right
    rw [Sets.frames_cons] at ho
    rintro (hd | hover)
    · exact ho.not_mem hrest (List.mem_append_right _ hd)
    · exact hholds₄.not_stray (List.mem_append_right _ (List.mem_append_right _ hrest)) hover
  refine (hsame n (List.mem_append_right _ (mem_sets_frames hr hn))).trans ?_
  refine (hw.same n hroom).trans ((hsame₄ n ?_).trans (hw₅.same n hroom))
  exact List.mem_append_right _ (List.mem_append_right _ hrest)

theorem exit_traced {exitCode : UInt32} (h : s.Ok img) (ht : s.Traced img) :
    Meets (fun _ => True) (exit i exitCode) s fun _ s' =>
      s'.Traced img ∧ s'.st.mem = s.st.mem := by
  simp only [exit, Meets.bind_iff]
  refine (running_meets fun _ => trivial).mono ?_
  rintro p s₀ ⟨rfl, hp, hz⟩
  rw [Meets.ensure_iff]
  refine ⟨fun _ => ?_, fun _ => trivial⟩
  have hp₁ : (s₀.procs.map (reparent p.pid))[i]? = some (reparent p.pid p) := by
    rw [List.getElem?_map, hp, Option.map_some]
  have hsets : Machine.sets { s₀ with procs := s₀.procs.map (reparent p.pid) } = s₀.sets :=
    (map_reparent p.pid s₀.procs).1
  have hperm := sets_perm (s := { s₀ with procs := s₀.procs.map (reparent p.pid) }) hp₁
  rw [hsets] at hperm
  have ht₀ : Nimloth.Traced img s₀.st s₀.kernel _ := Nimloth.Traced.perm ht hperm
  have ho := (Holds.perm h hperm).owns.right
  rw [Sets.frames_cons] at ho
  rw [onMemory_iff]
  refine (recycleDataPages_meets (X := Stray img.trampoline) ho.left).mono ?_
  rintro ms st₁ ⟨rfl, hm, hmem⟩
  rw [Meets.modify_iff]
  refine ⟨?_, hmem⟩
  have habove := ht₀.above
  rw [Sets.frames_cons] at habove
  have hmoved := (habove.perm (List.perm_append_comm_assoc _ _ _)).moves hm
  have hnew : Nimloth.Traced img st₁ s₀.kernel ((⟨p.memorySet.pageTable, []⟩, true)
      :: ((s₀.procs.map (reparent p.pid)).eraseIdx i).map fun p => (p.memorySet, p.zombie)) := by
    refine ⟨?_, hm.end_eq.trans ht.end_, ht.sections, hmem ▸ ht.kernel, fun x hx => ?_⟩
    · rw [Sets.frames_cons]
      exact hmoved.perm (List.perm_append_comm_assoc _ _ _)
    · rw [hmem]
      rcases List.mem_cons.mp hx with rfl | hx
      · exact ht₀.sets (p.memorySet, p.zombie) List.mem_cons_self
      · exact ht₀.sets x (List.mem_cons_of_mem _ hx)
  have hset := set_sets_perm hp₁ { reparent p.pid p with
    memorySet := ⟨p.memorySet.pageTable, []⟩, zombie := true, exitCode := exitCode }
  exact hnew.perm hset.symm

theorem userStore_traced {va : Nat} {b : UInt8} (h : s.Ok img) (ht : s.Traced img) :
    Meets (fun _ => True) (userStore i va b) s fun _ s' =>
      s'.Traced img ∧ Spares s s' fun k => k = i := by
  rw [userStore, Meets.bind_iff]
  refine (running_meets fun _ => trivial).mono ?_
  rintro p s₀ ⟨rfl, hp, hz⟩
  rw [Meets.modify_iff]
  have hrefl : s₀.Traced img ∧ Spares s₀ s₀ fun k => k = i :=
    ⟨ht, fun _ _ _ _ n _ => Mem.SameFrame.refl _ n⟩
  have hx : (p.memorySet, false) ∈ s₀.sets := hz ▸ mem_sets (List.mem_of_getElem? hp)
  cases he : p.memorySet.pageTable.lookup s₀.st.mem (pageOf va) with
  | none => exact hrefl
  | some e =>
      dsimp only
      split
      · have hroom : Room img.trampoline p.memorySet e.ppn :=
          (Holds.writable h hx).room_of_translate (translate_of_lookup he)
        have hw : Wrote img.trampoline p.memorySet s₀.st
            { s₀.st with mem := s₀.st.mem.write (e.ppn * 4096 + va % 4096) [b] } := by
          refine Wrote.of_write hroom (by omega) ?_
          rw [List.length_singleton]
          omega
        refine ⟨Nimloth.Traced.congr ht h (Holds.wrote h hx hw).2 rfl, fun j q hne hq n hn => ?_⟩
        refine hw.same n ?_
        rintro (hd | hover)
        · have hd' : n ∈ p.memorySet.frames := List.mem_append_right _ hd
          exact h.frames_apart hp hq hne hd' hn
        · exact Holds.not_stray h (Ok.mem_frames (List.mem_of_getElem? hq) hn) hover
      · exact hrefl

/-- The sections are no stacks. -/
theorem sections_of_removed {kernel kernel' : MemorySet} {pid : Nat} {a : MapArea}
    (h : HasSections img kernel) (hsmall : SmallPid pid)
    (hstart : a.vpnRange.start = stackStart pid)
    (hareas : kernel.areas.Perm (a :: kernel'.areas)) : HasSections img kernel' := by
  refine ⟨fun sec hsec => ?_, fun b hb => h.others b (hareas.mem_iff.mpr (.tail a hb))⟩
  obtain ⟨b, hb, hmaps⟩ := h.mapped sec hsec
  rcases List.mem_cons.mp (hareas.mem_iff.mp hb) with rfl | hb
  · exfalso
    have hle := sectionBounds_le img (List.mem_map_of_mem hsec)
    rw [← hmaps.bounds] at hle
    obtain ⟨hgt, -, -⟩ := hsmall.stackStart_gt
    have hab := b.vpnRange.le
    dsimp only [MapArea.bounds] at hle
    omega
  · exact ⟨b, hb, hmaps⟩

theorem dropProcess_traced (h : PidInv img s) (ht : s.Traced img) :
    Meets (fun _ => True) (dropProcess i) s fun _ s' =>
      s'.Traced img ∧ Spares s s' fun k => k = i := by
  simp only [dropProcess, Meets.bind_iff, Meets.get_iff]
  cases hp : s.procs[i]? with
  | none => exact Meets.unwrap_none.mpr trivial
  | some p =>
      have hsmall := h.small _ (List.mem_map_of_mem (List.mem_of_getElem? hp))
      have hholds := Holds.perm h.ok (sets_perm hp)
      have ht₀ : Nimloth.Traced img s.st s.kernel _ := Nimloth.Traced.perm ht (sets_perm hp)
      rw [Meets.unwrap_some]
      simp only [Meets.set_iff, pidDealloc, Meets.bind_iff, Meets.get_iff]
      cases s.pids.dealloc p.pid with
      | none => exact Meets.unwrap_none.mpr trivial
      | some pids =>
          simp only [Meets.unwrap_some, dropKernelStack, Meets.bind_iff, Meets.get_iff]
          rw [onMemory_iff]
          refine ((kernelStack_drop_meets (X := Stray img.trampoline) (E := fun _ => True)
            hholds.kernelOk fun _ => trivial).and
              (kernelStack_drop_pointers ht.kernel hholds.kernelOk)).mono ?_
          rintro kernel' st₁ ⟨⟨hk, hm, hstack⟩, hkp⟩
          obtain ⟨hholds₁, hsame₁⟩ := hholds.changeKernel hk hm
          have hsec : HasSections img kernel' := by
            rcases hstack hsmall with ⟨-, rfl⟩ | ⟨a, hstart, hareas⟩
            · exact ht.sections
            · exact sections_of_removed ht.sections hsmall hstart hareas
          have ht₁ := ht₀.changeKernel hholds hm hsame₁ hkp hsec
          have ho₁ := hholds₁.owns.right
          rw [Sets.frames_cons] at ho₁
          rw [Meets.modify_iff, onMemory_iff]
          refine (drop_meets (X := Stray img.trampoline) ho₁.left).mono ?_
          rintro _ st₂ ⟨hm₂, -⟩
          obtain ⟨-, hsame₂⟩ := hholds₁.dropped hm₂
          refine ⟨ht₁.dropped hholds₁ hm₂ hsame₂, fun j q hne hq n hn => ?_⟩
          have hrest := mem_eraseIdx_frames hq hne hn
          refine (hsame₁ n ?_).trans (hsame₂ n (List.mem_append_right _ hrest))
          rw [Sets.frames_cons]
          exact List.mem_append_right _ hrest

/-- The write of the exit code changes a frame of the parent, or one that is no table. -/
theorem Ok.withCode_spares {j : Nat} {p q : ProcessSpace} {exitCodePtr pa : Nat} (h : s.Ok img)
    (hw : Waits s j i p q) (hfits : exitCodePtr % 4096 + 4 ≤ 4096)
    (hpa : translatedRefmut s.st.mem p.memorySet.token exitCodePtr = some pa) :
    Spares s (s.withCode pa q) fun k => k = j := by
  have hpm := List.mem_of_getElem? hw.parent
  have hx : (p.memorySet, false) ∈ s.sets := hw.running ▸ mem_sets hpm
  have hwr := Holds.writable h hx
  obtain ⟨e, he, rfl⟩ := translatedRefmut_eq_some hwr.root hpa
  have hroom := hwr.room_of_translate he
  intro k r hne hr n hn
  have hnot : n ≠ e.ppn := by
    rintro rfl
    rcases hroom with hd | hover
    · have hd' : e.ppn ∈ p.memorySet.frames := List.mem_append_right _ hd
      exact h.frames_apart hw.parent hr hne hd' hn
    · exact Holds.not_stray h (Ok.mem_frames (List.mem_of_getElem? hr) hn) hover
  have hlen : (leBytes 4 q.exitCode.toNat).length = 4 := leBytes_length 4 _
  intro x hxn
  refine Mem.write_outside _ ?_
  omega

end Machine

/-! ## The sections of `new_kernel` -/

theorem pushSections_sections {tramp : Nat} {st : MemState} {ms : MemorySet}
    {secs : List KernelSection} (h : ms.Ok tramp st) :
    Meets (fun _ => True) (ms.pushSections secs) st fun ms' _ =>
      (∀ a ∈ ms.areas, a ∈ ms'.areas) ∧ (∀ sec ∈ secs, ∃ a ∈ ms'.areas, sec.Maps a)
        ∧ ∀ a ∈ ms'.areas, a ∈ ms.areas ∨ ∃ sec ∈ secs, sec.Maps a := by
  induction secs generalizing st ms with
  | nil =>
      exact Meets.pure_iff.mpr
        ⟨fun _ ha => ha, fun sec hsec => absurd hsec List.not_mem_nil, fun _ ha => Or.inl ha⟩
  | cons sec secs ih =>
      rw [pushSections, Meets.bind_iff]
      refine (pushNew_meets (X := fun _ => False) h (virtAddr_lt _) (virtAddr_lt _)
        (fun _ => trivial) (fun _ => trivial) (fun _ => trivial)).mono ?_
      rintro ms₁ st₁ ⟨r, hrs, hre, hpush⟩
      obtain ⟨a, hadded, hareas⟩ := hpush.areas
      have hmaps : sec.Maps a := by
        refine ⟨?_, hadded.type, hadded.perm⟩
        rw [MapArea.bounds, hadded.range, hrs, hre]
        rfl
      refine (ih hpush.ok).mono ?_
      rintro ms' st' ⟨hkeep, hsecs, hall⟩
      refine ⟨fun b hb => hkeep b (hareas ▸ List.mem_append_left _ hb), fun sec' hsec => ?_,
        fun b hb => ?_⟩
      · rcases List.mem_cons.mp hsec with rfl | hsec
        · exact ⟨a, hkeep a (hareas ▸ List.mem_append_right _ List.mem_cons_self), hmaps⟩
        · exact hsecs sec' hsec
      · rcases hall b hb with hb | ⟨sec', hsec, hb⟩
        · rw [hareas] at hb
          rcases List.mem_append.mp hb with hb | hb
          · exact Or.inl hb
          · obtain rfl := List.mem_singleton.mp hb
            exact Or.inr ⟨sec, List.mem_cons_self, hmaps⟩
        · exact Or.inr ⟨sec', List.mem_cons_of_mem _ hsec, hb⟩

theorem newKernel_sections {img : KernelImage} {st : MemState} (hwf : st.alloc.Wf) :
    Meets (fun _ => True) (newKernel img) st fun ms _ => HasSections img ms := by
  rw [newKernel_eq, Meets.bind_iff]
  refine (newUser_meets (X := fun _ => False) (Owns.nil hwf) (fun _ => trivial)).mono ?_
  rintro ms₀ st₀ ⟨hok, hnil, -, -⟩
  refine (pushSections_sections hok).mono fun ms _ ⟨_, hsecs, hall⟩ => ⟨hsecs, fun a ha => ?_⟩
  rcases hall a ha with ha | hmaps
  · rw [hnil] at ha
    exact absurd ha List.not_mem_nil
  · exact Or.inl hmaps

/-! ## The invariant of runs -/

/-- `PidInv` and `Traced`; `few` bounds the pids that were ever handed out. -/
structure Walkable (img : KernelImage) (s : Machine) : Prop extends PidInv img s where
  traced : s.Traced img
  few : s.pids.current ≤ MEMORY_END_PPN

/-- `s` with other contents of memory. -/
def Machine.withMem (s : Machine) (m : Mem) : Machine := { s with st := { s.st with mem := m } }

namespace Walkable

variable {img : KernelImage} {s s' : Machine} {i j : Nat}

/-- Every process holds a frame. -/
theorem length_le_frames {sets : Sets} (h : ∀ x ∈ sets, x.1.frames ≠ []) :
    sets.length ≤ sets.frames.length := by
  induction sets with
  | nil => exact Nat.zero_le _
  | cons x sets ih =>
      have hx := List.length_pos_iff.mpr (h x List.mem_cons_self)
      have hrest := ih fun y hy => h y (List.mem_cons_of_mem _ hy)
      have hcons : Sets.frames (x :: sets) = x.1.frames ++ Sets.frames sets := List.flatMap_cons
      rw [hcons, List.length_append, List.length_cons]
      omega

theorem procs_le (h : s.Ok img) (ht : s.Traced img) : s.procs.length ≤ MEMORY_END_PPN := by
  have hne : ∀ x ∈ s.sets, x.1.frames ≠ [] := by
    intro x hx hnil
    have hroot := (h.sets x hx).tree.mem [] _ isPath_nil rfl
    have hmem : x.1.pageTable.rootPpn ∈ x.1.frames := List.mem_append_left _ hroot
    rw [hnil] at hmem
    exact absurd hmem List.not_mem_nil
  have hsub : s.sets.frames ⊆ List.range MEMORY_END_PPN := by
    intro n hn
    have hlt := h.owns.right.lt n hn
    rw [ht.end_] at hlt
    exact List.mem_range.mpr hlt
  have hlen := (List.subperm_of_subset h.owns.right.nodup hsub).length_le
  rw [List.length_range] at hlen
  have hprocs := length_le_frames hne
  rw [Machine.sets, List.length_map] at hprocs
  exact hprocs.trans hlen

/-- Few pids are small pids. -/
theorem small_alloc (h : Walkable img s) : SmallPid s.pids.alloc.1 := by
  have hle : s.pids.alloc.1 ≤ s.pids.current := by
    unfold PidAllocator.alloc
    split
    · next pid rest hr =>
        exact Nat.le_of_lt (h.pids.recycled pid (by rw [hr]; exact List.mem_cons_self))
    · exact Nat.le_refl _
  have hfew := h.few
  simp only [SmallPid, MEMORY_END, KERNEL_STACK_SIZE, PAGE_SIZE, MEMORY_END_PPN] at hfew ⊢
  omega

/-- A fresh pid is handed out only if none is left to be used again. -/
theorem pids_meets (h : PidInv img s) (e : Lifecycle) :
    Meets (fun _ => True) (e.run img) s fun _ s' =>
      s'.pids.current = s.pids.current ∨ s'.pids.recycled = [] := by
  have halloc : ∀ a : PidAllocator, a.alloc.2.current = a.current ∨ a.alloc.2.recycled = [] := by
    rintro ⟨current, recycled⟩
    cases recycled with
    | nil => exact Or.inr rfl
    | cons _ _ => exact Or.inl rfl
  have hfaults : Machine.StackFaults (fun _ => True) s := ⟨fun _ _ => trivial, fun _ => trivial⟩
  cases e with
  | create cpu elf =>
      refine (Machine.create_meets (R := fun _ _ => True) h.ok hfaults ?_
        fun _ _ _ _ => trivial).mono ?_
      · refine (fromElf_meets (X := Stray img.trampoline) h.ok.owns.wf).mono ?_
        exact fun r st₁ ⟨hok, htrap, hm⟩ => ⟨hok, htrap, hm, trivial⟩
      · rintro _ s' ⟨ms, st₁, p, -, hspawn, -⟩
        rw [hspawn.pids]
        exact halloc s.pids
  | fork i =>
      refine (Machine.fork_meets h.ok hfaults (fun _ => trivial) fun _ =>
        ⟨trivial, trivial⟩).mono ?_
      rintro _ s' ⟨q, ms, st₁, p, -, -, hspawn, -⟩
      rw [hspawn.pids]
      exact halloc s.pids
  | exec cpu i elf args =>
      refine (Machine.exec_meets h.ok (fun _ => trivial) trivial).mono ?_
      exact fun _ _ ⟨_, hs⟩ => Or.inl (congrArg _ hs.pids)
  | exit i exitCode =>
      refine (Machine.exit_meets h.ok (fun _ => trivial) fun _ => trivial).mono ?_
      exact fun _ _ ⟨_, hs, _⟩ => Or.inl (congrArg _ hs.pids)
  | drop i =>
      cases hp : s.procs[i]? with
      | none =>
          simp only [Lifecycle.run, Machine.dropProcess, Meets.bind_iff, Meets.get_iff]
          rw [hp]
          exact Meets.unwrap_none.mpr trivial
      | some p =>
          refine (Machine.dropProcess_meets hp (Holds.perm h.ok (Machine.sets_perm hp))
            (fun _ => trivial) fun _ => trivial).mono ?_
          rintro _ s' ⟨-, hd, -⟩
          refine Or.inl ?_
          unfold PidAllocator.dealloc at hd
          split at hd
          · rw [← Option.some.inj hd]
          · cases hd
  | userStore i va b =>
      refine (Machine.userStore_meets h.ok trivial).mono ?_
      exact fun _ _ ⟨_, hs⟩ => Or.inl (congrArg _ hs.pids)

theorem few_of_pids (h : PidInv img s') (ht : s'.Traced img) (hs : s.pids.current ≤ MEMORY_END_PPN)
    (hpids : s'.pids.current = s.pids.current ∨ s'.pids.recycled = []) :
    s'.pids.current ≤ MEMORY_END_PPN := by
  rcases hpids with heq | hnil
  · rw [heq]
    exact hs
  · have hcount := h.count
    have hle := procs_le h.ok ht
    rw [hnil, List.length_nil] at hcount
    omega

theorem lifecycle (h : Walkable img s) (e : Lifecycle) :
    Meets (fun _ => True) (e.run img) s fun _ s' =>
      Walkable img s' ∧ s.Spares s' (ProcessEvent.lifecycle e).Touches := by
  have htraced : Meets (fun _ => True) (e.run img) s fun _ s' =>
      s'.Traced img ∧ s.Spares s' (ProcessEvent.lifecycle e).Touches := by
    cases e with
    | create cpu elf => exact Machine.create_traced h.ok h.traced
    | fork i => exact Machine.fork_traced h.ok h.traced
    | exec cpu i elf args => exact Machine.exec_traced h.ok h.traced
    | exit i exitCode =>
        refine (Machine.exit_traced h.ok h.traced).mono fun _ s' h' => ⟨h'.1, ?_⟩
        exact fun _ _ _ _ n _ => h'.2 ▸ Mem.SameFrame.refl _ n
    | drop i => exact Machine.dropProcess_traced h.toPidInv h.traced
    | userStore i va b => exact Machine.userStore_traced h.ok h.traced
  have hinv : Meets (fun _ => True) (e.run img) s fun _ s' => PidInv img s' :=
    (h.toPidInv.step e fun _ => h.small_alloc).weaken fun _ _ => trivial
  refine ((hinv.and htraced).and (pids_meets h.toPidInv e)).mono ?_
  rintro _ s' ⟨⟨hinv', ht, hspares⟩, hpids⟩
  exact ⟨⟨hinv', ht, few_of_pids hinv' ht h.few hpids⟩, hspares⟩

/-- The exit code is written to a frame that is no table. -/
theorem withCode {p q : ProcessSpace} {exitCodePtr pa : Nat} (h : Walkable img s)
    (hw : s.Waits j i p q) (hfits : (ProcessEvent.waitpid j i exitCodePtr).Fits s)
    (hpa : translatedRefmut s.st.mem p.memorySet.token exitCodePtr = some pa) :
    Walkable img (s.withCode pa q) := by
  have hx : (p.memorySet, false) ∈ s.sets :=
    hw.running ▸ Machine.mem_sets (List.mem_of_getElem? hw.parent)
  have hwr := Holds.writable h.ok hx
  have hok := h.ok.withCode hw hfits hpa
  obtain ⟨e, he, rfl⟩ := translatedRefmut_eq_some hwr.root hpa
  have htables : ∀ n ∈ s.tables, Mem.SameFrame s.st.mem
      (s.withCode (e.ppn * 4096 + exitCodePtr % 4096) q).st.mem n := by
    intro n hn x hxn
    have hne : n ≠ e.ppn := by
      rintro rfl
      exact Holds.room_apart h.ok hx (hwr.room_of_translate he) hn
    have hlen : (leBytes 4 q.exitCode.toNat).length = 4 := leBytes_length 4 _
    refine Mem.write_outside _ ?_
    rcases hfits with hfits | hnext
    · omega
    · have hne' : n ≠ e.ppn + 1 := by
        rintro rfl
        exact hnext p e hw.parent he hn
      omega
  exact ⟨h.toPidInv.samePids hok ⟨rfl, rfl, rfl⟩,
    Nimloth.Traced.congr h.traced h.ok htables rfl, h.few⟩

theorem waitpid {exitCodePtr : Nat} (h : Walkable img s)
    (hfits : (ProcessEvent.waitpid j i exitCodePtr).Fits s) :
    Meets (fun _ => True) (Machine.waitpid j i exitCodePtr) s fun _ s' =>
      Walkable img s' ∧ (exitCodePtr % 4096 + 4 ≤ 4096 →
        s.Spares s' (ProcessEvent.waitpid j i exitCodePtr).Touches) := by
  refine Machine.waitpid_meets (fun _ => trivial) (fun _ _ _ _ => trivial) ?_
  intro p q pa hw hpa
  have h₁ := h.withCode hw hfits hpa
  refine ((h₁.lifecycle (.drop i))).mono ?_
  rintro _ s' ⟨h', hspares⟩
  refine ⟨h', fun hpage k r hk hr n hn => ?_⟩
  have hcode := h.ok.withCode_spares hw hpage hpa
  exact (hcode k r (fun heq => hk (Or.inr heq)) hr n hn).trans
    (hspares k r (fun heq => hk (Or.inl heq)) hr n hn)

/-- After boot. -/
theorem boot (hboot : Machine.Boot img s) : Walkable img s := by
  have hinv := PidInv.boot hboot
  obtain ⟨m, hk, hpids, hprocs⟩ := hboot
  have hwf := img.wf_initFrameAllocator
  obtain ⟨-, hm, -⟩ := (newKernel_meets (X := fun _ => False) hwf).ok hk
  refine ⟨hinv, ⟨?_, hm.end_eq, (newKernel_sections hwf).ok hk, (newKernel_pointers hwf).ok hk,
    ?_⟩, ?_⟩
  · have hfree : Above img ⟨m, img.initFrameAllocator⟩ ([] ++ []) := by
      rintro n (hn | hn)
      · exact (img.bounds_of_free hn).1
      · exact absurd hn List.not_mem_nil
    rw [Machine.sets, hprocs]
    exact hfree.moves hm
  · rw [Machine.sets, hprocs]
    exact fun x hx => absurd hx List.not_mem_nil
  · rw [hpids]
    exact Nat.zero_le _

theorem step (h : Walkable img s) {e : ProcessEvent} (hs : FittingStep img s e s') :
    Walkable img s' := by
  cases e with
  | lifecycle e => exact ((h.lifecycle e).ok hs.1).1
  | waitpid j i exitCodePtr => exact ((h.waitpid hs.2).ok hs.1).1

theorem runs {s₀ : Machine} {tr : List ProcessEvent} (hboot : Machine.Boot img s₀)
    (hrun : Runs (FittingStep img) s₀ tr s) : Walkable img s :=
  hrun.invariant (boot hboot) fun _ _ _ h hs => h.step hs

/-- Other contents for memory that is no table. -/
theorem withMem (h : Walkable img s) {m : Mem}
    (hm : ∀ n ∈ s.tables, Mem.SameFrame s.st.mem m n) : Walkable img (s.withMem m) :=
  ⟨h.toPidInv.samePids (Holds.write h.ok hm) ⟨rfl, rfl, rfl⟩,
    Nimloth.Traced.congr h.traced h.ok hm rfl, h.few⟩

end Walkable

end Nimloth
