import Nimloth.LifecycleFrames

/-!
# The events of a process

One specification for each function of `Lifecycle`: what it does to the
kernel's areas, the pids and the list of processes, and that `Machine.Ok`
survives it. `StackFaults` says in which panics of `KernelStack::new` we
are not interested; every other one is left to the caller as a hypothesis,
so that the same lemmas serve where a run must not fail.
-/

namespace Nimloth

open Outcome PageTable MemorySet

/-- A program on the memory does what it does there. -/
theorem onMemory_iff {α : Type} {E : Fault → Prop} {tag : MemPanic → Fault} {p : MemM α}
    {s : Machine} {Q : α → Machine → Prop} :
    Meets E (onMemory tag p) s Q
      ↔ Meets (fun e => E (tag e)) p s.st fun a st => Q a { s with st := st } := by
  unfold Meets onMemory
  cases p s.st with
  | error e => rfl
  | ok r => rfl

namespace Machine

def sets (s : Machine) : Sets := s.procs.map fun p => (p.memorySet, p.zombie)

/-- The invariant of the events. -/
def Ok (img : KernelImage) (s : Machine) : Prop := Holds img s.st s.kernel s.sets

/-- The first pages and ends of the kernel's areas. -/
def bounds (s : Machine) : List (Nat × Nat) := s.kernel.areas.map MapArea.bounds

/-- A stack for the next pid: without `SmallPid` anything may happen, and a page that is mapped
    already is a panic. -/
structure StackFaults (E : Fault → Prop) (s : Machine) : Prop where
  bad : ¬ SmallPid s.pids.alloc.1 → ∀ e, E (.kernelSpace e)
  mapped : (∃ b ∈ s.bounds, b.1 < stackStart s.pids.alloc.1 + 2 ∧ stackStart s.pids.alloc.1 < b.2) →
    E (.kernelSpace .mapped)

/-- After a new process with the address space `ms`, which was built before `s`. -/
structure Spawned (img : KernelImage) (s : Machine) (ms : MemorySet) (parent : Option Nat)
    (p : ProcessSpace) (s' : Machine) : Prop where
  procs : s'.procs = s.procs ++ [p]
  pid : p.pid = s.pids.alloc.1
  memorySet : p.memorySet = ms
  zombie : p.zombie = false
  parent : p.parent = parent
  pids : s'.pids = s.pids.alloc.2
  ok : s'.Ok img
  trapCx : p.trapCxPpn ∈ dataPpns ms.areas
  same : ∀ n ∈ Sets.tables ((ms, false) :: s.sets), Mem.SameFrame s.st.mem s'.st.mem n
  stack : SmallPid p.pid → s'.bounds = s.bounds ++ [stackBounds p.pid]
    ∧ s.st.alloc.available ≤ s'.st.alloc.available + 6

/-- Kernel, pids and the pids of the processes are as before. -/
structure SamePids (s s' : Machine) : Prop where
  kernel : s'.kernel = s.kernel
  pids : s'.pids = s.pids
  procs : s'.procs.map ProcessSpace.pid = s.procs.map ProcessSpace.pid

section Specs

variable {img : KernelImage} {E : Fault → Prop} {s : Machine} {ms : MemorySet}
  {parent : Option Nat} {i : Nat}

theorem running_meets
    (hE : (∀ p, s.procs[i]? = some p → p.zombie = true) → E .noProcess) :
    Meets E (running i) s fun p s' => s' = s ∧ s.procs[i]? = some p ∧ p.zombie = false := by
  simp only [running, Meets.bind_iff, Meets.get_iff]
  cases hp : s.procs[i]? with
  | none =>
      refine Meets.unwrap_none.mpr (hE fun p hp' => ?_)
      rw [hp] at hp'
      cases hp'
  | some p =>
      rw [Meets.unwrap_some, Meets.ensure_iff]
      refine ⟨fun hz => Meets.pure_iff.mpr ⟨rfl, rfl, hz⟩, fun hz => hE fun q hq => ?_⟩
      rw [hp] at hq
      cases hq
      simpa using hz

/-- The set of a process, and those of the others. -/
theorem sets_perm {p : ProcessSpace} (hp : s.procs[i]? = some p) :
    s.sets.Perm ((p.memorySet, p.zombie) :: (s.procs.eraseIdx i).map fun p => (p.memorySet, p.zombie)) :=
  (perm_cons_eraseIdx hp).map _

/-- The same for a process that was replaced. -/
theorem set_sets_perm {ps : List ProcessSpace} {p : ProcessSpace} (hp : ps[i]? = some p)
    (q : ProcessSpace) :
    ((ps.set i q).map fun p => (p.memorySet, p.zombie)).Perm
      ((q.memorySet, q.zombie) :: (ps.eraseIdx i).map fun p => (p.memorySet, p.zombie)) :=
  (set_perm_cons_eraseIdx hp q).map _

theorem map_pid_set {p q : ProcessSpace} {ps : List ProcessSpace} (hp : ps[i]? = some p)
    (hq : q.pid = p.pid) : (ps.set i q).map ProcessSpace.pid = ps.map ProcessSpace.pid := by
  refine List.ext_getElem? fun j => ?_
  rw [List.getElem?_map, List.getElem?_map, List.getElem?_set]
  split
  · next hij =>
      obtain ⟨hi, hget⟩ := List.getElem?_eq_some_iff.mp hp
      rw [if_pos hi, ← hij, hp, Option.map_some, Option.map_some, hq]
  · rfl

theorem newProcess_meets (h : Holds img s.st s.kernel ((ms, false) :: s.sets))
    (hf : StackFaults E s)
    (hoom : s.st.alloc.available < 6 → E (.kernelSpace .outOfFrames)) :
    Meets E (newProcess ms parent) s fun p s' => Spawned img s ms parent p s' := by
  have hx : (ms, false) ∈ (ms, false) :: s.sets := List.mem_cons_self
  simp only [newProcess, pidAlloc, newKernelStack, Meets.bind_iff, onMemory_iff]
  refine (findTrapCx_meets (h.writable hx) ((h.sets _ hx).trapCx rfl)).mono ?_
  rintro ppn st₀ ⟨rfl, hppn⟩
  simp only [Meets.get_iff, Meets.set_iff, Meets.pure_iff]
  refine (kernelStack_new_meets (X := Stray img.trampoline) h.kernelOk hf.bad hoom
    hf.mapped).mono ?_
  rintro kernel' st₁ ⟨hk, hm, hstack⟩
  obtain ⟨hholds, hsame⟩ := h.changeKernel hk hm
  simp only [Meets.modify_iff]
  refine ⟨rfl, rfl, rfl, rfl, rfl, rfl, ?_, hppn, ?_, hstack⟩
  · refine hholds.perm ?_
    simp only [sets, List.map_append, List.map_cons, List.map_nil]
    exact (List.perm_append_singleton _ _).symm
  · exact fun n hn => hsame n (Sets.tables_subset _ hn)

/-- A write into the trap context of the new process. -/
theorem Spawned.context_meets {p : ProcessSpace} {s' : Machine} {k : Nat} {bs : List UInt8}
    (h : Spawned img s ms parent p s') (hlen : k + bs.length ≤ 4096) :
    Meets E (onMemory .space (writeTrapCx p.trapCxPpn k bs)) s' fun _ s'' =>
      Spawned img s ms parent p s'' := by
  have hx : (ms, false) ∈ s'.sets := by
    refine List.mem_map.mpr ⟨p, ?_, by rw [h.memorySet, h.zombie]⟩
    rw [h.procs]
    exact List.mem_append_right _ (List.mem_singleton.mpr rfl)
  have huser := Holds.userOk h.ok hx
  rw [onMemory_iff]
  refine (@writeTrapCx_meets img.trampoline _ _ _ _ _ _ h.trapCx
    (huser.owns.pos _ (List.mem_append_right _ h.trapCx)) hlen).mono ?_
  rintro _ st' ⟨hw, -⟩
  obtain ⟨hholds, hsame⟩ := Holds.wrote h.ok hx hw
  refine ⟨h.procs, h.pid, h.memorySet, h.zombie, h.parent, h.pids, hholds, h.trapCx, ?_, ?_⟩
  · intro n hn
    refine (h.same n hn).trans (hsame n (List.mem_append_right _ ?_))
    have hperm : (Sets.tables ((ms, false) :: s.sets)).Perm (Sets.tables s'.sets) := by
      refine List.Perm.flatMap_right _ ?_
      simp only [sets, h.procs, List.map_append, List.map_cons, List.map_nil, h.memorySet, h.zombie]
      exact (List.perm_append_singleton _ _).symm
    exact hperm.mem_iff.mp hn
  · intro hs
    obtain ⟨hb, hav⟩ := h.stack hs
    exact ⟨hb, by rw [hw.alloc]; exact hav⟩

/-- `R` is what else is known of the new address space. -/
theorem create_meets {cpu : TrapSetup} {elf : Elf} {R : MemorySet → MemState → Prop}
    (h : s.Ok img) (hf : StackFaults E s)
    (helf : Meets (fun e => E (.space e)) (fromElf img elf) s.st fun r st₁ =>
      r.1.UserOk img.trampoline st₁ ∧ HasTrapContext r.1
        ∧ Moves (Stray img.trampoline) s.st [] st₁ r.1.frames ∧ R r.1 st₁)
    (hoom : ∀ ms st₁, R ms st₁ → st₁.alloc.available < 6 → E (.kernelSpace .outOfFrames)) :
    Meets E (create img cpu elf) s fun _ s' =>
      ∃ ms st₁ p, R ms st₁ ∧ Spawned img { s with st := st₁ } ms none p s'
        ∧ ∀ n ∈ s.sets.frames, Mem.SameFrame s.st.mem st₁.mem n := by
  simp only [create, Meets.bind_iff]
  rw [onMemory_iff]
  refine helf.mono ?_
  rintro ⟨ms, userSp, entry⟩ st₁ ⟨hok, htrap, hm, hR⟩
  dsimp only at hok htrap hm hR ⊢
  obtain ⟨hholds, hsame⟩ := Holds.add h hok htrap hm
  refine (newProcess_meets (s := { s with st := st₁ }) hholds ⟨hf.bad, hf.mapped⟩
    (hoom ms st₁ hR)).mono ?_
  rintro p s' hspawn
  rw [Meets.get_iff]
  refine (hspawn.context_meets ?_).mono ?_
  · rw [length_bytes]
    decide
  · exact fun _ s'' hspawn' => ⟨ms, st₁, p, hR, hspawn',
      fun n hn => hsame n (List.mem_append_right _ hn)⟩

/-- The child has the areas of the parent. -/
theorem trapContext_of_forking {tramp : Nat} {st st' : MemState} {parent child : MemorySet}
    (hf : Forking tramp st parent.areas st' child) (htrap : HasTrapContext parent) :
    HasTrapContext child := by
  obtain ⟨a, ha, hav, hperm⟩ := htrap
  obtain ⟨c, hc, hac⟩ := exists_right_of_forall₂ hf.areas ha
  refine ⟨c, hc, ?_, hac.perm.trans hperm⟩
  rw [MapArea.Has, hac.range]
  exact hav

theorem fork_meets (h : s.Ok img) (hf : StackFaults E s)
    (hno : (∀ p, s.procs[i]? = some p → p.zombie = true) → E .noProcess)
    (hoom : (∀ p, s.procs[i]? = some p →
      s.st.alloc.available < 9 + 3 * pageCount p.memorySet.areas) →
        E (.space .outOfFrames) ∧ E (.kernelSpace .outOfFrames)) :
    Meets E (fork img i) s fun _ s' =>
      ∃ q ms st₁ p, s.procs[i]? = some q ∧ q.zombie = false
        ∧ Spawned img { s with st := st₁ } ms (some q.pid) p s'
        ∧ ∀ n ∈ s.sets.frames, Mem.SameFrame s.st.mem st₁.mem n := by
  rw [fork, Meets.bind_iff]
  refine (running_meets hno).mono ?_
  rintro q s₀ ⟨rfl, hq, hz⟩
  have hx : (q.memorySet, false) ∈ s₀.sets :=
    List.mem_map.mpr ⟨q, List.mem_of_getElem? hq, by rw [hz]⟩
  have huser := Holds.userOk h hx
  rw [Meets.bind_iff, onMemory_iff]
  refine (fromExistedUser_meets huser.toOk huser.framed (fun hav => ?_)).mono ?_
  · refine (hoom fun p hp => ?_).1
    rw [hq] at hp
    cases hp
    omega
  rintro ms st₁ ⟨hfork, hav⟩
  have hframed : ∀ c ∈ ms.areas, c.mapType = .framed := by
    intro c hc
    obtain ⟨a, ha, hac⟩ := exists_left_of_forall₂ hfork.areas hc
    exact hac.type.trans (huser.framed a ha)
  obtain ⟨hholds, hsame⟩ := Holds.add h ⟨hfork.ok, hframed⟩
    (trapContext_of_forking hfork ((h.sets _ hx).trapCx rfl)) (hfork.moves.weaken fun _ => False.elim)
  rw [Meets.bind_iff]
  refine (newProcess_meets (s := { s₀ with st := st₁ }) hholds ⟨hf.bad, hf.mapped⟩ ?_).mono ?_
  · intro hlow
    refine (hoom fun p hp => ?_).2
    rw [hq] at hp
    cases hp
    dsimp only at hlow
    omega
  rintro p s' hspawn
  refine (hspawn.context_meets ?_).mono ?_
  · rw [leBytes_length]
    decide
  · exact fun _ s'' hspawn' => ⟨q, ms, st₁, p, hq, hz, hspawn',
      fun n hn => hsame n (List.mem_append_right _ hn)⟩

/-- The stack pointer of a program is that of an empty stack. -/
theorem fromElf_userSp (img : KernelImage) (elf : Elf) (st : MemState) :
    Meets (fun _ => True) (fromElf img elf) st fun r _ => r.2.1 % 8 = 0 := by
  have htop : ∀ vpn, (((VirtAddr.toUsize (VirtAddr.ofVpn vpn) + PAGE_SIZE) % 2 ^ 64
      + USER_STACK_SIZE) % 2 ^ 64) % 8 = 0 := by
    intro vpn
    have hvpn : VirtAddr.ofVpn vpn % 2 ^ 3 = 0 := by
      simp only [VirtAddr.ofVpn, Nat.shiftLeft_eq]
      omega
    have hor : (VirtAddr.ofVpn vpn ||| (2 ^ 64 - 2 ^ 39)) % 2 ^ 3 = 0 := by
      rw [Nat.or_mod_two_pow, hvpn]
      decide
    have huse : VirtAddr.toUsize (VirtAddr.ofVpn vpn) % 2 ^ 3 = 0 := by
      unfold VirtAddr.toUsize
      split
      · exact hor
      · exact hvpn
    simp only [PAGE_SIZE, USER_STACK_SIZE]
    omega
  simp only [fromElf, pushUserAreas, Meets.bind_iff]
  refine Meets.trivial.mono fun _ _ _ => Meets.trivial.mono fun _ _ _ =>
    Meets.trivial.mono fun r _ _ => Meets.trivial.mono fun _ _ _ =>
    Meets.trivial.mono fun _ _ _ => Meets.trivial.mono fun _ _ _ => ?_
  exact Meets.pure_iff.mpr (Meets.pure_iff.mpr (htop r.2))

theorem exec_meets {cpu : TrapSetup} {elf : Elf} {args : List (List UInt8)} (h : s.Ok img)
    (hE : ∀ e, E (.space e)) (hno : E .noProcess) :
    Meets E (exec img cpu i elf args) s fun _ s' => s'.Ok img ∧ SamePids s s' := by
  simp only [exec, Meets.bind_iff]
  refine (running_meets fun _ => hno).mono ?_
  rintro q s₀ ⟨rfl, hq, hz⟩
  rw [onMemory_iff]
  refine (((fromElf_meets (X := Stray img.trampoline) h.owns.wf).and (fromElf_userSp img elf _)).weaken
    fun _ _ => hE _).mono ?_
  rintro ⟨ms, userSp, entry⟩ st₁ ⟨⟨hok, htrap, hm⟩, hsp⟩
  dsimp only at hok htrap hm hsp ⊢
  obtain ⟨hholds, -⟩ := Holds.add h hok htrap hm
  have hx : (ms, false) ∈ (ms, false) :: s₀.sets := List.mem_cons_self
  rw [onMemory_iff]
  refine (findTrapCx_meets (hholds.writable hx) htrap).mono ?_
  rintro ppn st₂ ⟨rfl, hppn⟩
  dsimp only
  rw [onMemory_iff]
  refine (pushArgs_meets (hholds.writable hx) (hE _) hsp).mono ?_
  rintro ⟨userSp', argvBase⟩ st₃ hw
  obtain ⟨hholds₃, -⟩ := hholds.wrote hx hw
  dsimp only
  -- the old address space goes
  have hperm : ((ms, false) :: s₀.sets).Perm ((q.memorySet, q.zombie) :: (ms, false) ::
      (s₀.procs.eraseIdx i).map fun p => (p.memorySet, p.zombie)) :=
    ((sets_perm hq).cons _).trans (List.Perm.swap _ _ _)
  have hholds₃' := hholds₃.perm hperm
  have hold : Owns st₃ q.memorySet.frames := by
    have ho := hholds₃'.owns.right
    rw [Sets.frames_cons] at ho
    exact ho.left
  rw [onMemory_iff]
  refine (drop_meets (X := Stray img.trampoline) hold).mono ?_
  rintro _ st₄ ⟨hm₄, -⟩
  obtain ⟨hholds₄, -⟩ := hholds₃'.dropped hm₄
  simp only [Meets.modify_iff, Meets.get_iff, onMemory_iff]
  have hx₄ : (ms, false) ∈ ((ms, false) ::
      (s₀.procs.eraseIdx i).map fun p => (p.memorySet, p.zombie) : Sets) := List.mem_cons_self
  have huser := hholds₄.userOk hx₄
  refine (@writeTrapCx_meets img.trampoline _ _ _ _ _ _ hppn
    (huser.owns.pos _ (List.mem_append_right _ hppn)) ?_).mono ?_
  · rw [length_bytes]
    decide
  rintro _ st₅ ⟨hw₅, -⟩
  obtain ⟨hholds₅, -⟩ := hholds₄.wrote hx₄ hw₅
  have hset := set_sets_perm hq { q with memorySet := ms, trapCxPpn := ppn }
  have hmark : ((ms, false) : MemorySet × Bool) = (ms, q.zombie) := by rw [hz]
  rw [hmark] at hholds₅
  exact ⟨hholds₅.perm hset.symm, rfl, rfl, map_pid_set hq rfl⟩

/-- New parents change nothing that is held. -/
theorem map_reparent (pid : Nat) (ps : List ProcessSpace) :
    ((ps.map (reparent pid)).map fun p => (p.memorySet, p.zombie))
        = (ps.map fun p => (p.memorySet, p.zombie))
      ∧ (ps.map (reparent pid)).map ProcessSpace.pid = ps.map ProcessSpace.pid := by
  rw [List.map_map, List.map_map]
  exact ⟨rfl, rfl⟩

theorem exit_meets {exitCode : UInt32} (h : s.Ok img)
    (hno : (∀ p, s.procs[i]? = some p → p.zombie = true) → E .noProcess)
    (hdown : (∃ p, s.procs[i]? = some p ∧ p.pid = 0) → E .shutdown) :
    Meets E (exit i exitCode) s fun _ s' =>
      s'.Ok img ∧ SamePids s s' ∧ s'.st.mem = s.st.mem
        ∧ ∃ p, s.procs[i]? = some p ∧ s'.procs = (s.procs.map (reparent p.pid)).set i
          { reparent p.pid p with
            memorySet := ⟨p.memorySet.pageTable, []⟩, zombie := true, exitCode := exitCode } := by
  simp only [exit, Meets.bind_iff]
  refine (running_meets hno).mono ?_
  rintro p s₀ ⟨rfl, hp, hz⟩
  rw [Meets.ensure_iff]
  refine ⟨fun _ => ?_, fun hpid => hdown ⟨p, hp, by simpa using hpid⟩⟩
  -- the parents first, which hold nothing
  have hp₁ : (s₀.procs.map (reparent p.pid))[i]? = some (reparent p.pid p) := by
    rw [List.getElem?_map, hp, Option.map_some]
  have h₁ : Machine.Ok img { s₀ with procs := s₀.procs.map (reparent p.pid) } := by
    show Holds img s₀.st s₀.kernel _
    rw [sets, (map_reparent p.pid s₀.procs).1]
    exact h
  have hholds := Holds.perm h₁ (sets_perm hp₁)
  have ho : Owns s₀.st p.memorySet.frames := by
    have ho := hholds.owns.right
    rw [Sets.frames_cons] at ho
    exact ho.left
  rw [onMemory_iff]
  refine (recycleDataPages_meets (X := Stray img.trampoline) ho).mono ?_
  rintro ms st₁ ⟨rfl, hm, hmem⟩
  rw [Meets.modify_iff]
  have hnew : SetOk img.trampoline st₁.mem ⟨p.memorySet.pageTable, []⟩ true :=
    ⟨hmem ▸ (hholds.sets _ List.mem_cons_self).tree, fun hz => absurd hz (by decide),
      fun hz => absurd hz (by decide), fun hz => absurd hz (by decide), fun _ => rfl⟩
  obtain ⟨hholds', -⟩ := hholds.replaceHead hnew hm
  have hset := set_sets_perm hp₁ { reparent p.pid p with
    memorySet := ⟨p.memorySet.pageTable, []⟩, zombie := true, exitCode := exitCode }
  refine ⟨hholds'.perm hset.symm, ⟨rfl, rfl, ?_⟩, hmem, p, hp, rfl⟩
  refine (map_pid_set hp₁ ?_).trans (map_reparent p.pid s₀.procs).2
  rfl

/-- `rest` is what of the other processes is to be kept. -/
theorem dropProcess_meets {p : ProcessSpace} {rest : Sets} (hp : s.procs[i]? = some p)
    (h : Holds img s.st s.kernel ((p.memorySet, p.zombie) :: rest))
    (hpid : s.pids.dealloc p.pid = none → E .pidDealloc)
    (hbad : ¬ SmallPid p.pid → E (.kernelSpace .notAligned)) :
    Meets E (dropProcess i) s fun _ s' =>
      s'.procs = s.procs.eraseIdx i ∧ s.pids.dealloc p.pid = some s'.pids
        ∧ Holds img s'.st s'.kernel rest
        ∧ Moves (Stray img.trampoline) s.st (s.kernel.frames ++ p.memorySet.frames) s'.st
            s'.kernel.frames
        ∧ (SmallPid p.pid →
          (∀ a ∈ s.kernel.areas, a.vpnRange.start ≠ stackStart p.pid) ∧ s'.kernel = s.kernel
          ∨ ∃ a, a.vpnRange.start = stackStart p.pid
            ∧ s.kernel.areas.Perm (a :: s'.kernel.areas)) := by
  simp only [dropProcess, Meets.bind_iff, Meets.get_iff]
  rw [hp, Meets.unwrap_some]
  simp only [Meets.set_iff, pidDealloc, Meets.bind_iff, Meets.get_iff]
  cases hpids : s.pids.dealloc p.pid with
  | none => exact Meets.unwrap_none.mpr (hpid hpids)
  | some pids =>
      simp only [Meets.unwrap_some, dropKernelStack, Meets.bind_iff, Meets.get_iff]
      rw [onMemory_iff]
      refine (kernelStack_drop_meets (X := Stray img.trampoline) h.kernelOk hbad).mono ?_
      rintro kernel' st₁ ⟨hk, hm, hstack⟩
      obtain ⟨hholds, -⟩ := h.changeKernel hk hm
      have ho₁ := hholds.owns.right
      rw [Sets.frames_cons] at ho₁
      rw [Meets.modify_iff, onMemory_iff]
      refine (drop_meets (X := Stray img.trampoline) ho₁.left).mono ?_
      rintro _ st₂ ⟨hm₂, -⟩
      refine ⟨rfl, rfl, (hholds.dropped hm₂).1, ?_, hstack⟩
      have ho := h.owns
      rw [Sets.frames_cons, ← List.append_assoc] at ho
      have hm' := hm.frame ho.left
      refine hm'.trans (((hm₂.frame (T := kernel'.frames) ?_).perm List.perm_append_comm
        (List.Perm.refl _)))
      exact hm'.owns.perm List.perm_append_comm

theorem userStore_meets {va : Nat} {b : UInt8} (h : s.Ok img) (hno : E .noProcess) :
    Meets E (userStore i va b) s fun _ s' => s'.Ok img ∧ SamePids s s' := by
  rw [userStore, Meets.bind_iff]
  refine (running_meets fun _ => hno).mono ?_
  rintro p s₀ ⟨rfl, hp, hz⟩
  rw [Meets.modify_iff]
  have hx : (p.memorySet, false) ∈ s₀.sets :=
    List.mem_map.mpr ⟨p, List.mem_of_getElem? hp, by rw [hz]⟩
  cases he : p.memorySet.pageTable.lookup s₀.st.mem (pageOf va) with
  | none => exact ⟨h, rfl, rfl, rfl⟩
  | some e =>
      dsimp only
      split
      · have hwr := Holds.writable h hx
        have hroom : Room img.trampoline p.memorySet e.ppn :=
          hwr.room_of_translate (translate_of_lookup he)
        have hw : Wrote img.trampoline p.memorySet s₀.st
            { s₀.st with mem := s₀.st.mem.write (e.ppn * 4096 + va % 4096) [b] } := by
          refine Wrote.of_write hroom (by omega) ?_
          rw [List.length_singleton]
          omega
        exact ⟨(Holds.wrote h hx hw).1, rfl, rfl, rfl⟩
      · exact ⟨h, rfl, rfl, rfl⟩

end Specs

end Machine

end Nimloth
