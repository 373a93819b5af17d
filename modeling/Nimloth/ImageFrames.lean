import Nimloth.Walkable

/-!
# The kernel's image

Creation, `fork`, `exec`, exit, reaping and the stores of programs write
to frames that were free, to those of the kernel's page tables and stacks
and to those of the processes, and nowhere else (`Machine.Foreign`) but in the
values that the kernel itself keeps in its data and on its heap. So its
code and its constants stay what they were (`kernel_image`). The
trampoline is the exception: an exit code may be written there.
-/

namespace Nimloth

open Outcome PageTable MemorySet

/-! ## Statements -/

namespace Machine

/-- Nobody holds the frame, and no copy goes there. -/
structure Foreign (img : KernelImage) (s : Machine) (n : Nat) : Prop where
  free : ¬ s.st.alloc.Free n
  frames : n ∉ s.kernel.frames ++ s.sets.frames
  stray : ¬ Stray img.trampoline n

end Machine

/-- The exit code is written within a page. -/
def ProcessEvent.Within : ProcessEvent → Prop
  | .lifecycle _ => True
  | .waitpid _ _ exitCodePtr => exitCodePtr % 4096 + 4 ≤ 4096

def WithinStep (img : KernelImage) (s : Machine) (e : ProcessEvent) (s' : Machine) : Prop :=
  ProcessStep img s e s' ∧ e.Within

theorem WithinStep.fitting {img : KernelImage} {s s' : Machine} {e : ProcessEvent}
    (h : WithinStep img s e s') : FittingStep img s e s' := by
  refine ⟨h.1, ?_⟩
  cases e with
  | lifecycle e => trivial
  | waitpid j i exitCodePtr => exact Or.inl h.2

/-! ## Events -/

namespace Machine

variable {img : KernelImage} {s : Machine} {ms : MemorySet} {parent : Option Nat} {i n : Nat}

/-- A new process takes frames that are free or the kernel's. -/
theorem newProcess_same (h : Holds img s.st s.kernel ((ms, false) :: s.sets))
    (hfree : ¬ s.st.alloc.Free n) (hn : n ∉ s.kernel.frames) :
    Meets (fun _ => True) (newProcess ms parent) s fun p s' =>
      p.trapCxPpn ∈ dataPpns ms.areas ∧ Mem.SameFrame s.st.mem s'.st.mem n := by
  have hx : (ms, false) ∈ (ms, false) :: s.sets := List.mem_cons_self
  simp only [newProcess, pidAlloc, newKernelStack, Meets.bind_iff, onMemory_iff]
  refine (findTrapCx_meets (h.writable hx) ((h.sets _ hx).trapCx rfl)).mono ?_
  rintro ppn st₀ ⟨rfl, hppn⟩
  simp only [Meets.get_iff, Meets.set_iff, Meets.pure_iff]
  refine (kernelStack_new_meets (X := fun _ => False) (E := fun _ => True) h.kernelOk
    (fun _ _ => trivial) (fun _ => trivial) fun _ => trivial).mono ?_
  rintro kernel' st₁ ⟨-, hm, -⟩
  simp only [Meets.modify_iff]
  exact ⟨hppn, hm.same n not_false hfree hn⟩

theorem writeTrapCx_same {ppn k : Nat} {bs : List UInt8} (hn : n ≠ ppn)
    (hlen : k + bs.length ≤ 4096) :
    Meets (fun _ => True) (onMemory .space (writeTrapCx ppn k bs)) s fun _ s' =>
      Mem.SameFrame s.st.mem s'.st.mem n := by
  rw [onMemory_iff, writeTrapCx, Meets.bind_iff, Meets.ensure_iff]
  refine ⟨fun _ => Meets.modify_iff.mpr fun x hx => Mem.write_outside _ ?_, fun _ => trivial⟩
  omega

/-- The new address space, the process and its trap context. -/
theorem spawn_same (parent : Option Nat) (k : Nat) (bs : ProcessSpace → Machine → List UInt8)
    {X : Nat → Prop}
    {st₁ : MemState} (h : Holds img st₁ s.kernel ((ms, false) :: s.sets))
    (hm : Moves X s.st [] st₁ ms.frames) (hX : ¬ X n) (hfree : ¬ s.st.alloc.Free n)
    (hn : n ∉ s.kernel.frames) (hlen : ∀ p s, k + (bs p s).length ≤ 4096) :
    Meets (fun _ => True) (do
      let p ← newProcess ms parent
      let s ← get
      onMemory .space (writeTrapCx p.trapCxPpn k (bs p s))) { s with st := st₁ } fun _ s' =>
        Mem.SameFrame s.st.mem s'.st.mem n := by
  have hsame := hm.same n hX hfree List.not_mem_nil
  have hnew : n ∉ ms.frames := hm.apart n hfree List.not_mem_nil
  rw [Meets.bind_iff]
  refine (newProcess_same (s := { s with st := st₁ }) h
    (hm.used n hfree List.not_mem_nil) hn).mono ?_
  rintro p s₁ ⟨hppn, hsame₁⟩
  rw [Meets.bind_iff, Meets.get_iff]
  have hne : n ≠ p.trapCxPpn := by
    rintro rfl
    exact hnew (List.mem_append_right _ hppn)
  refine (writeTrapCx_same hne (hlen p s₁)).mono fun _ s₂ hsame₂ => ?_
  exact hsame.trans (hsame₁.trans hsame₂)

namespace Foreign

theorem kernel (hn : s.Foreign img n) : n ∉ s.kernel.frames :=
  fun hmem => hn.frames (List.mem_append_left _ hmem)

theorem proc (hn : s.Foreign img n) {p : ProcessSpace} (hp : p ∈ s.procs) :
    n ∉ p.memorySet.frames := fun hmem => hn.frames (Ok.mem_frames hp hmem)

theorem room (hn : s.Foreign img n) {p : ProcessSpace} (hp : p ∈ s.procs) :
    ¬ Room img.trampoline p.memorySet n := by
  rintro (hd | hover)
  · exact hn.proc hp (List.mem_append_right _ hd)
  · exact hn.stray hover

theorem create {cpu : TrapSetup} {elf : Elf} (hn : s.Foreign img n) (h : s.Ok img) :
    Meets (fun _ => True) (create img cpu elf) s fun _ s' =>
      Mem.SameFrame s.st.mem s'.st.mem n := by
  simp only [Machine.create]
  rw [Meets.bind_iff, onMemory_iff]
  refine (fromElf_meets (X := Stray img.trampoline) h.owns.wf).mono ?_
  rintro ⟨ms, userSp, entry⟩ st₁ ⟨hok, htrap, hm⟩
  dsimp only at hok htrap hm ⊢
  refine spawn_same none 0 _ (Holds.add h hok htrap hm).1 hm hn.stray hn.free hn.kernel ?_
  intro p s
  rw [length_bytes]
  decide

theorem fork (hn : s.Foreign img n) (h : s.Ok img) :
    Meets (fun _ => True) (fork img i) s fun _ s' => Mem.SameFrame s.st.mem s'.st.mem n := by
  rw [Machine.fork, Meets.bind_iff]
  refine (running_meets fun _ => trivial).mono ?_
  rintro q s₀ ⟨rfl, hq, hz⟩
  have hx : (q.memorySet, false) ∈ s₀.sets := hz ▸ mem_sets (List.mem_of_getElem? hq)
  have huser := Holds.userOk h hx
  rw [Meets.bind_iff, onMemory_iff]
  refine (fromExistedUser_meets (E := fun _ => True) huser.toOk huser.framed
    fun _ => trivial).mono ?_
  rintro ms st₁ ⟨hfork, -⟩
  have hframed : ∀ c ∈ ms.areas, c.mapType = .framed := by
    intro c hc
    obtain ⟨a, ha, hac⟩ := exists_left_of_forall₂ hfork.areas hc
    exact hac.type.trans (huser.framed a ha)
  obtain ⟨hholds, -⟩ := Holds.add h ⟨hfork.ok, hframed⟩
    (trapContext_of_forking hfork ((h.sets _ hx).trapCx rfl))
    (hfork.moves.weaken fun _ => False.elim)
  have hspawn := spawn_same (some q.pid) (35 * 8)
    (fun p _ => leBytes 8 (kernelStackPosition p.pid).2) hholds hfork.moves id hn.free hn.kernel ?_
  · rw [Meets.bind_iff] at hspawn ⊢
    exact hspawn.mono fun p s' h' => Meets.get_iff.mp (Meets.bind_iff.mp h')
  · intro p s
    rw [leBytes_length]
    decide

theorem exec {cpu : TrapSetup} {elf : Elf} {args : List (List UInt8)} (hn : s.Foreign img n)
    (h : s.Ok img) :
    Meets (fun _ => True) (exec img cpu i elf args) s fun _ s' =>
      Mem.SameFrame s.st.mem s'.st.mem n := by
  simp only [Machine.exec, Meets.bind_iff]
  refine (running_meets fun _ => trivial).mono ?_
  rintro q s₀ ⟨rfl, hq, hz⟩
  rw [onMemory_iff]
  refine ((fromElf_meets (X := Stray img.trampoline) h.owns.wf).and (fromElf_userSp img elf _)).mono ?_
  rintro ⟨ms, userSp, entry⟩ st₁ ⟨⟨hok, htrap, hm⟩, hsp⟩
  dsimp only at hok htrap hm hsp ⊢
  have hsame := hm.same n hn.stray hn.free List.not_mem_nil
  have hnew : n ∉ ms.frames := hm.apart n hn.free List.not_mem_nil
  have hroom : ¬ Room img.trampoline ms n := by
    rintro (hd | hover)
    · exact hnew (List.mem_append_right _ hd)
    · exact hn.stray hover
  obtain ⟨hholds, -⟩ := Holds.add h hok htrap hm
  have hx : (ms, false) ∈ (ms, false) :: s₀.sets := List.mem_cons_self
  rw [onMemory_iff]
  refine (findTrapCx_meets (hholds.writable hx) htrap).mono ?_
  rintro ppn st₂ ⟨rfl, hppn⟩
  dsimp only
  rw [onMemory_iff]
  refine (pushArgs_meets (hholds.writable hx) trivial hsp).mono ?_
  rintro ⟨userSp', argvBase⟩ st₃ hw
  obtain ⟨hholds₃, -⟩ := hholds.wrote hx hw
  dsimp only
  -- dropping the old address space writes nothing
  have hperm : ((ms, false) :: s₀.sets).Perm ((q.memorySet, q.zombie) :: (ms, false) ::
      (s₀.procs.eraseIdx i).map fun p => (p.memorySet, p.zombie)) :=
    ((sets_perm hq).cons _).trans (List.Perm.swap _ _ _)
  have hold : Owns st₃ q.memorySet.frames := by
    have ho := (hholds₃.perm hperm).owns.right
    rw [Sets.frames_cons] at ho
    exact ho.left
  rw [onMemory_iff]
  refine (drop_meets (X := Stray img.trampoline) hold).mono ?_
  rintro _ st₄ ⟨-, hmem₄⟩
  simp only [Meets.modify_iff, Meets.get_iff]
  have hne : n ≠ ppn := by
    rintro rfl
    exact hnew (List.mem_append_right _ hppn)
  refine (writeTrapCx_same hne ?_).mono fun _ s₅ hsame₅ => ?_
  · rw [length_bytes]
    decide
  · refine hsame.trans ((hw.same n hroom).trans ?_)
    rw [← hmem₄]
    exact hsame₅

theorem drop (hn : s.Foreign img n) (h : s.Ok img) :
    Meets (fun _ => True) (dropProcess i) s fun _ s' =>
      Mem.SameFrame s.st.mem s'.st.mem n := by
  simp only [dropProcess, Meets.bind_iff, Meets.get_iff]
  cases hp : s.procs[i]? with
  | none => exact Meets.unwrap_none.mpr trivial
  | some p =>
      have hholds := Holds.perm h (sets_perm hp)
      rw [Meets.unwrap_some]
      simp only [Meets.set_iff, pidDealloc, Meets.bind_iff, Meets.get_iff]
      cases s.pids.dealloc p.pid with
      | none => exact Meets.unwrap_none.mpr trivial
      | some pids =>
          simp only [Meets.unwrap_some, dropKernelStack, Meets.bind_iff, Meets.get_iff]
          rw [onMemory_iff]
          refine (kernelStack_drop_meets (X := Stray img.trampoline) (E := fun _ => True)
            hholds.kernelOk fun _ => trivial).mono ?_
          rintro kernel' st₁ ⟨hk, hm, -⟩
          obtain ⟨hholds₁, -⟩ := hholds.changeKernel hk hm
          have ho₁ := hholds₁.owns.right
          rw [Sets.frames_cons] at ho₁
          rw [Meets.modify_iff, onMemory_iff]
          refine (drop_meets (X := Stray img.trampoline) ho₁.left).mono ?_
          rintro _ st₂ ⟨-, hmem₂⟩
          dsimp only
          rw [hmem₂]
          exact hm.same n hn.stray hn.free hn.kernel

theorem userStore {va : Nat} {b : UInt8} (hn : s.Foreign img n) (h : s.Ok img) :
    Meets (fun _ => True) (userStore i va b) s fun _ s' =>
      Mem.SameFrame s.st.mem s'.st.mem n := by
  rw [Machine.userStore, Meets.bind_iff]
  refine (running_meets fun _ => trivial).mono ?_
  rintro p s₀ ⟨rfl, hp, hz⟩
  rw [Meets.modify_iff]
  have hpm := List.mem_of_getElem? hp
  have hx : (p.memorySet, false) ∈ s₀.sets := hz ▸ mem_sets hpm
  cases he : p.memorySet.pageTable.lookup s₀.st.mem (pageOf va) with
  | none => exact Mem.SameFrame.refl _ n
  | some e =>
      dsimp only
      split
      · have hroom := (Holds.writable h hx).room_of_translate (translate_of_lookup he)
        have hne : n ≠ e.ppn := by
          rintro rfl
          exact hn.room hpm hroom
        refine fun x hxn => Mem.write_outside _ ?_
        rw [List.length_singleton]
        omega
      · exact Mem.SameFrame.refl _ n

theorem lifecycle (hn : s.Foreign img n) (h : s.Ok img) (e : Lifecycle) :
    Meets (fun _ => True) (e.run img) s fun _ s' => Mem.SameFrame s.st.mem s'.st.mem n := by
  cases e with
  | create cpu elf => exact hn.create h
  | fork i => exact hn.fork h
  | exec cpu i elf args => exact hn.exec h
  | exit i exitCode =>
      refine (exit_meets h (fun _ => trivial) fun _ => trivial).mono ?_
      rintro _ s' ⟨-, -, hmem, -⟩
      exact hmem ▸ Mem.SameFrame.refl _ n
  | drop i => exact hn.drop h
  | userStore i va b => exact hn.userStore h

theorem waitpid {j exitCodePtr : Nat} (hn : s.Foreign img n) (h : s.Ok img)
    (hfits : exitCodePtr % 4096 + 4 ≤ 4096) :
    Meets (fun _ => True) (waitpid j i exitCodePtr) s fun _ s' =>
      Mem.SameFrame s.st.mem s'.st.mem n := by
  refine waitpid_meets (fun _ => trivial) (fun _ _ _ _ => trivial) ?_
  intro p q pa hw hpa
  have hpm := List.mem_of_getElem? hw.parent
  have hwr := Holds.writable h (hw.running ▸ mem_sets hpm)
  have hok := h.withCode hw (Or.inl hfits) hpa
  obtain ⟨e, he, rfl⟩ := translatedRefmut_eq_some hwr.root hpa
  have hne : n ≠ e.ppn := by
    rintro rfl
    exact hn.room hpm (hwr.room_of_translate he)
  have hn' : (s.withCode (e.ppn * 4096 + exitCodePtr % 4096) q).Foreign img n :=
    ⟨hn.free, hn.frames, hn.stray⟩
  refine (hn'.drop hok).mono fun _ s' hsame => Mem.SameFrame.trans (fun x hx => ?_) hsame
  refine Mem.write_outside _ ?_
  rw [leBytes_length]
  omega

end Foreign

end Machine

/-! ## Runs -/

namespace Walkable

variable {img : KernelImage} {s s' : Machine} {n : Nat}

theorem foreign (h : Walkable img s) (h₁ : img.stext ≤ n * 4096) (h₂ : n * 4096 < img.ekernel)
    (hne : n ≠ img.trampoline) : s.Foreign img n := by
  have hbase := img.base
  refine ⟨fun hfree => ?_, fun hmem => ?_, ?_⟩
  · exact absurd (h.traced.above n (Or.inl hfree)) (Nat.not_le_of_lt h₂)
  · exact absurd (h.traced.above n (Or.inr hmem)) (Nat.not_le_of_lt h₂)
  · rintro (rfl | rfl)
    · omega
    · exact hne rfl

/-- An event leaves the image as it is, but for the trampoline. -/
theorem image_step {e : ProcessEvent} (h : Walkable img s) (hs : WithinStep img s e s') {pa : Nat}
    (h₁ : img.stext ≤ pa) (h₂ : pa < img.ekernel) (hne : pa / 4096 ≠ img.trampoline) :
    s'.st.mem pa = s.st.mem pa := by
  have hstext : img.stext % 4096 = 0 := by
    rw [img.base]
  have hn : s.Foreign img (pa / 4096) := h.foreign (by omega) (by omega) hne
  have hsame : Mem.SameFrame s.st.mem s'.st.mem (pa / 4096) := by
    cases e with
    | lifecycle e => exact (hn.lifecycle h.ok e).ok hs.1
    | waitpid j i exitCodePtr => exact (hn.waitpid h.ok hs.2).ok hs.1
  exact hsame pa rfl

end Walkable

/-- The code and the constants of the kernel are what they were after boot, but for the
    trampoline. -/
theorem kernel_image {img : KernelImage} {s₀ s : Machine} {tr : List ProcessEvent}
    (hboot : Machine.Boot img s₀) (hrun : Runs (WithinStep img) s₀ tr s) {pa : Nat}
    (h₁ : img.stext ≤ pa) (h₂ : pa < img.erodata) (hne : pa / 4096 ≠ img.trampoline) :
    s.st.mem pa = s₀.st.mem pa := by
  have hend : pa < img.ekernel := by
    have hrodata := img.rodata
    have hdata := img.data
    have hbss := img.bss
    omega
  have hinv := hrun.invariant (I := fun s => Walkable img s ∧ s.st.mem pa = s₀.st.mem pa)
    ⟨.boot hboot, rfl⟩ fun s e s' ⟨h, hsame⟩ hs =>
      ⟨h.step hs.fitting, (h.image_step hs h₁ hend hne).trans hsame⟩
  exact hinv.2

/-- A byte of `.rodata` when the first program is there. -/
theorem kernel_image_program : ∃ s₀ s : Machine, Machine.Boot default s₀ ∧ s.procs ≠ []
    ∧ s.st.mem 0x80230000 = s₀.st.mem 0x80230000 := by
  obtain ⟨s₀, s, p, f, hboot, hstep, -, hprocs, -⟩ := exists_program
  have hrun : Runs (WithinStep default) s₀ _ s := Runs.single ⟨hstep.1, trivial⟩
  refine ⟨s₀, s, hboot, ?_, kernel_image hboot hrun (by decide) (by decide) (by decide)⟩
  rw [hprocs]
  exact List.cons_ne_nil p []

/-- The kernel boots, with its image as it was loaded. -/
theorem exists_boot_image (img : KernelImage) (m : Mem)
    (hav : 31 ≤ img.initFrameAllocator.available) :
    ∃ s₀, Machine.Boot img s₀
      ∧ (∀ pa, img.stext ≤ pa → pa < img.ekernel → s₀.st.mem pa = m pa)
      ∧ img.initFrameAllocator.available ≤ s₀.st.alloc.available + 31 := by
  have hwf := KernelImage.wf_initFrameAllocator img
  have hmeets := (@newKernel_returns img ⟨m, img.initFrameAllocator⟩ hwf hav).and
    (newKernel_meets (X := fun _ => False) hwf)
  obtain ⟨kernel, st, hk, hst, -, hmoves, -⟩ := hmeets.exists_ok
  refine ⟨⟨st, kernel, ⟨0, []⟩, []⟩, ⟨m, hk, rfl, rfl⟩, fun pa h₁ h₂ => ?_, hst⟩
  refine hmoves.same (pa / 4096) not_false (fun hfree => ?_) List.not_mem_nil pa rfl
  have habove := (img.bounds_of_free hfree).1
  omega

end Nimloth
