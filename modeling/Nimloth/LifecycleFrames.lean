import Mathlib.Data.List.Perm.Basic
import Nimloth.Lifecycle
import Nimloth.UserSpace

/-!
# Who holds which frame

`Holds img st kernel sets`: the kernel and the processes hold their frames
each once, nobody holds the trampoline's, and every address space agrees
with its areas; a zombie has a page table only. A step of the code changes
what one of them holds (`Holds.change`, `Holds.changeKernel`) or writes
memory that is no page table (`Holds.write`), and that is all that is
needed of it.
-/

namespace Nimloth

open Outcome PageTable MemorySet

/-! ## Address spaces of processes -/

/-- The address space of a process; at its exit the areas go. -/
structure SetOk (tramp : Nat) (m : Mem) (ms : MemorySet) (zombie : Bool) : Prop where
  tree : Tree m ms.pageTable
  space : zombie = false → Space tramp m ms.pageTable ms.areas
  framed : zombie = false → ∀ a ∈ ms.areas, a.mapType = .framed
  trapCx : zombie = false → HasTrapContext ms
  areas : zombie = true → ms.areas = []

theorem SetOk.congr {tramp : Nat} {m m' : Mem} {ms : MemorySet} {zombie : Bool}
    (h : SetOk tramp m ms zombie) (hs : ∀ p ∈ ms.pageTable.frames, Mem.SameFrame m m' p) :
    SetOk tramp m' ms zombie where
  tree := h.tree.congr hs
  space := fun hz => (h.space hz).congr hs
  framed := h.framed
  trapCx := h.trapCx
  areas := h.areas

theorem SetOk.of_userOk {tramp : Nat} {st : MemState} {ms : MemorySet}
    (h : ms.UserOk tramp st) (htrap : HasTrapContext ms) : SetOk tramp st.mem ms false where
  tree := h.space.tree
  space := fun _ => h.space
  framed := fun _ => h.framed
  trapCx := fun _ => htrap
  areas := fun hz => absurd hz (by decide)

/-- Address spaces with the mark of a zombie. -/
abbrev Sets := List (MemorySet × Bool)

def Sets.frames (sets : Sets) : List Nat := sets.flatMap fun x => x.1.frames

def Sets.tables (sets : Sets) : List Nat := sets.flatMap fun x => x.1.pageTable.frames

theorem Sets.tables_subset (sets : Sets) {p : Nat} (hp : p ∈ sets.tables) : p ∈ sets.frames := by
  obtain ⟨x, hx, hpx⟩ := List.mem_flatMap.mp hp
  exact List.mem_flatMap.mpr ⟨x, hx, List.mem_append_left _ hpx⟩

theorem Sets.mem_tables {sets : Sets} {x : MemorySet × Bool} (hx : x ∈ sets) {p : Nat}
    (hp : p ∈ x.1.pageTable.frames) : p ∈ sets.tables := List.mem_flatMap.mpr ⟨x, hx, hp⟩

theorem Sets.frames_append (sets sets' : Sets) :
    Sets.frames (sets ++ sets') = sets.frames ++ sets'.frames := List.flatMap_append

theorem Sets.frames_cons (ms : MemorySet) (z : Bool) (sets : Sets) :
    Sets.frames ((ms, z) :: sets) = ms.frames ++ sets.frames := rfl

/-! ## The invariant -/

structure Holds (img : KernelImage) (st : MemState) (kernel : MemorySet) (sets : Sets) :
    Prop where
  owns : Owns st (kernel.frames ++ sets.frames)
  backs : img.Backs st (kernel.frames ++ sets.frames)
  kernel : Space img.trampoline st.mem kernel.pageTable kernel.areas
  sets : ∀ x ∈ sets, SetOk img.trampoline st.mem x.1 x.2

namespace Holds

variable {img : KernelImage} {st st' : MemState} {kernel kernel' : MemorySet} {sets : Sets}

theorem free (h : Holds img st kernel sets) : ¬ st.alloc.Free img.trampoline := h.backs.not_free

theorem apart (h : Holds img st kernel sets) : img.trampoline ∉ kernel.frames ++ sets.frames :=
  h.backs.not_mem

/-- The frames left to hand out can be stored to. -/
theorem backs_nil (h : Holds img st kernel sets) : img.Backs st [] :=
  h.backs.subset (List.nil_subset _)

theorem kernelOk (h : Holds img st kernel sets) : kernel.Ok img.trampoline st :=
  ⟨h.kernel, h.owns.left⟩

theorem perm {sets' : Sets} (h : Holds img st kernel sets) (hp : sets.Perm sets') :
    Holds img st kernel sets' := by
  have hframes : (kernel.frames ++ sets.frames).Perm (kernel.frames ++ sets'.frames) :=
    (hp.flatMap_right _).append_left _
  exact ⟨h.owns.perm hframes, h.backs.subset hframes.symm.subset, h.kernel,
    fun x hx => h.sets x (hp.mem_iff.mpr hx)⟩

/-- A page without a frame of its own leads to none of the frames held. -/
theorem not_stray (h : Holds img st kernel sets) {p : Nat}
    (hp : p ∈ kernel.frames ++ sets.frames) : ¬ Stray img.trampoline p := by
  rintro (rfl | rfl)
  · exact Nat.lt_irrefl _ (h.owns.pos 0 hp)
  · exact h.apart hp

/-- What is left of the frames of which `S` becomes `S'`. -/
theorem step {S S' T : List Nat} (h : Holds img st kernel sets)
    (hp : (kernel.frames ++ sets.frames).Perm (S ++ T))
    (hm : Moves (Stray img.trampoline) st S st' S') :
    Owns st' (S' ++ T) ∧ img.Backs st' (S' ++ T) ∧ ∀ p ∈ T, Mem.SameFrame st.mem st'.mem p := by
  have ho := h.owns.perm hp
  refine ⟨(hm.frame ho).owns, (h.backs.subset hp.symm.subset).moves (hm.frame ho), fun p hpT => ?_⟩
  refine hm.same p ?_ (ho.right.used p hpT) (ho.not_mem hpT)
  exact h.not_stray (hp.mem_iff.mpr (List.mem_append_right _ hpT))

/-- The kernel's address space changes. -/
theorem changeKernel (h : Holds img st kernel sets) (hk : kernel'.Ok img.trampoline st')
    (hm : Moves (Stray img.trampoline) st kernel.frames st' kernel'.frames) :
    Holds img st' kernel' sets ∧ ∀ p ∈ sets.frames, Mem.SameFrame st.mem st'.mem p := by
  obtain ⟨howns, hbacks, hsame⟩ := h.step (List.Perm.refl _) hm
  refine ⟨⟨howns, hbacks, hk.space, fun x hx => ?_⟩, hsame⟩
  exact (h.sets x hx).congr fun p hp => hsame p (sets.tables_subset (Sets.mem_tables hx hp))

/-- The address spaces `old` become `new`; either may be none. -/
theorem change {old new rest : Sets} (h : Holds img st kernel (old ++ rest))
    (hnew : ∀ x ∈ new, SetOk img.trampoline st'.mem x.1 x.2)
    (hm : Moves (Stray img.trampoline) st old.frames st' new.frames) :
    Holds img st' kernel (new ++ rest)
      ∧ ∀ p ∈ kernel.frames ++ rest.frames, Mem.SameFrame st.mem st'.mem p := by
  have hperm : ∀ x : Sets, (kernel.frames ++ Sets.frames (x ++ rest)).Perm
      (x.frames ++ (kernel.frames ++ rest.frames)) := by
    intro x
    rw [Sets.frames_append, ← List.append_assoc, ← List.append_assoc]
    exact List.perm_append_comm.append_right _
  obtain ⟨howns, hbacks, hsame⟩ := h.step (hperm old) hm
  refine ⟨⟨howns.perm (hperm new).symm, hbacks.subset (hperm new).subset,
    h.kernel.congr fun p hp => hsame p (List.mem_append_left _ (List.mem_append_left _ hp)),
    fun x hx => ?_⟩, hsame⟩
  rcases List.mem_append.mp hx with hx | hx
  · exact hnew x hx
  · refine (h.sets x (List.mem_append_right _ hx)).congr fun p hp => hsame p ?_
    exact List.mem_append_right _ (rest.tables_subset (Sets.mem_tables hx hp))

/-- One address space changes. -/
theorem replaceHead {ms ms' : MemorySet} {z z' : Bool} (h : Holds img st kernel ((ms, z) :: sets))
    (hnew : SetOk img.trampoline st'.mem ms' z')
    (hm : Moves (Stray img.trampoline) st ms.frames st' ms'.frames) :
    Holds img st' kernel ((ms', z') :: sets)
      ∧ ∀ p ∈ kernel.frames ++ sets.frames, Mem.SameFrame st.mem st'.mem p := by
  have h₀ : Holds img st kernel ([(ms, z)] ++ sets) := h
  have hm₀ : Moves (Stray img.trampoline) st (Sets.frames [(ms, z)]) st'
      (Sets.frames [(ms', z')]) := by
    simpa only [Sets.frames, List.flatMap_cons, List.flatMap_nil, List.append_nil] using hm
  refine h₀.change ?_ hm₀
  intro x hx
  rw [List.mem_singleton] at hx
  exact hx ▸ hnew

/-- A new address space comes in. -/
theorem add {ms : MemorySet} (h : Holds img st kernel sets) (hok : ms.UserOk img.trampoline st')
    (htrap : HasTrapContext ms) (hm : Moves (Stray img.trampoline) st [] st' ms.frames) :
    Holds img st' kernel ((ms, false) :: sets)
      ∧ ∀ p ∈ kernel.frames ++ sets.frames, Mem.SameFrame st.mem st'.mem p := by
  have h₀ : Holds img st kernel (([] : Sets) ++ sets) := h
  have hm₀ : Moves (Stray img.trampoline) st (Sets.frames []) st'
      (Sets.frames [(ms, false)]) := by
    simpa only [Sets.frames, List.flatMap_cons, List.flatMap_nil, List.append_nil] using hm
  refine h₀.change ?_ hm₀
  intro x hx
  rw [List.mem_singleton] at hx
  exact hx ▸ SetOk.of_userOk hok htrap

/-- An address space is dropped. -/
theorem dropped {ms : MemorySet} {z : Bool} (h : Holds img st kernel ((ms, z) :: sets))
    (hm : Moves (Stray img.trampoline) st ms.frames st' []) :
    Holds img st' kernel sets
      ∧ ∀ p ∈ kernel.frames ++ sets.frames, Mem.SameFrame st.mem st'.mem p := by
  have h₀ : Holds img st kernel ([(ms, z)] ++ sets) := h
  have hm₀ : Moves (Stray img.trampoline) st (Sets.frames [(ms, z)]) st' (Sets.frames []) := by
    simpa only [Sets.frames, List.flatMap_cons, List.flatMap_nil, List.append_nil] using hm
  exact h₀.change (fun x hx => absurd hx List.not_mem_nil) hm₀

/-- A write that leaves the page tables alone. -/
theorem write (h : Holds img st kernel sets) {m : Mem}
    (hm : ∀ p ∈ kernel.pageTable.frames ++ sets.tables, Mem.SameFrame st.mem m p) :
    Holds img { st with mem := m } kernel sets where
  owns := ⟨h.owns.wf, h.owns.nodup, h.owns.pos, h.owns.lt, h.owns.used⟩
  backs := h.backs
  kernel := h.kernel.congr fun p hp => hm p (List.mem_append_left _ hp)
  sets := fun x hx => (h.sets x hx).congr fun p hp =>
    hm p (List.mem_append_right _ (Sets.mem_tables hx hp))

/-- Data frames of a process are no page tables. -/
theorem data_apart {ms : MemorySet} {z : Bool} (h : Holds img st kernel sets)
    (hx : (ms, z) ∈ sets) {p : Nat} (hp : p ∈ dataPpns ms.areas) :
    p ∉ kernel.pageTable.frames ++ sets.tables := by
  intro hmem
  obtain ⟨i, hi, hget⟩ := List.mem_iff_getElem.mp hx
  have hsplit := perm_cons_eraseIdx (List.getElem?_eq_getElem hi)
  rw [hget] at hsplit
  have h' := h.perm hsplit
  have htables : (Sets.tables sets).Perm (ms.pageTable.frames ++ Sets.tables (sets.eraseIdx i)) :=
    hsplit.flatMap_right _
  have ho := h'.owns
  rw [Sets.frames_cons] at ho
  rcases List.mem_append.mp hmem with hmem | hmem
  · refine ho.not_mem (p := p) ?_ (List.mem_append_left _ hmem)
    exact List.mem_append_left _ (List.mem_append_right _ hp)
  · rcases List.mem_append.mp (htables.mem_iff.mp hmem) with hmem | hmem
    · exact (ho.right.left).not_mem hp hmem
    · exact ho.right.not_mem (Sets.tables_subset _ hmem) (List.mem_append_right _ hp)

end Holds

/-! ## Writes through a user space -/

/-- The frames that an address space translates to: its own, and those of pages without one. -/
def Room (tramp : Nat) (ms : MemorySet) (p : Nat) : Prop :=
  p ∈ dataPpns ms.areas ∨ Stray tramp p

/-- Only frames of `Room` were written. -/
structure Wrote (tramp : Nat) (ms : MemorySet) (st st' : MemState) : Prop where
  alloc : st'.alloc = st.alloc
  same : ∀ p, ¬ Room tramp ms p → Mem.SameFrame st.mem st'.mem p

namespace Wrote

variable {tramp : Nat} {ms : MemorySet} {st st₁ st₂ : MemState}

theorem refl (st : MemState) : Wrote tramp ms st st := ⟨rfl, fun p _ => Mem.SameFrame.refl _ p⟩

theorem trans (h : Wrote tramp ms st st₁) (h' : Wrote tramp ms st₁ st₂) :
    Wrote tramp ms st st₂ :=
  ⟨h'.alloc.trans h.alloc, fun p hp => (h.same p hp).trans (h'.same p hp)⟩

/-- A write within one frame. -/
theorem of_write {f a : Nat} {bs : List UInt8} (hf : Room tramp ms f) (h₁ : f * 4096 ≤ a)
    (h₂ : a + bs.length ≤ f * 4096 + 4096) :
    Wrote tramp ms st { st with mem := st.mem.write a bs } := by
  refine ⟨rfl, fun p hp => ?_⟩
  have hne : p ≠ f := by
    rintro rfl
    exact hp hf
  exact Mem.sameFrame_write _ h₁ (by omega) hne

end Wrote

/-- The tables of a user space are none of the frames it translates to. -/
structure Writable (tramp : Nat) (m : Mem) (ms : MemorySet) : Prop where
  space : Space tramp m ms.pageTable ms.areas
  framed : ∀ a ∈ ms.areas, a.mapType = .framed
  root : ms.pageTable.rootPpn < 2 ^ 44
  lt : ∀ p ∈ dataPpns ms.areas, p < 2 ^ 44
  trampLt : tramp < 2 ^ 44
  apart : ∀ p ∈ ms.pageTable.frames, ¬ Room tramp ms p

theorem Writable.of_wrote {tramp : Nat} {ms : MemorySet} {st st' : MemState}
    (h : Writable tramp st.mem ms) (hw : Wrote tramp ms st st') : Writable tramp st'.mem ms where
  space := h.space.congr fun p hp => hw.same p (h.apart p hp)
  framed := h.framed
  root := h.root
  lt := h.lt
  trampLt := h.trampLt
  apart := h.apart

theorem Writable.of_userOk {img : KernelImage} {ms : MemorySet} {st : MemState}
    (h : ms.UserOk img.trampoline st) (htramp : img.trampoline ∉ ms.frames) :
    Writable img.trampoline st.mem ms where
  space := h.space
  framed := h.framed
  root := h.rootPpn_lt
  lt := fun p hp => h.owns.lt_two_pow (List.mem_append_right _ hp)
  trampLt := img.trampoline_lt_two_pow
  apart := by
    rintro p hp (hd | rfl | rfl)
    · exact h.owns.not_mem hd hp
    · exact Nat.lt_irrefl _ (h.owns.pos 0 (List.mem_append_left _ hp))
    · exact htramp (List.mem_append_left _ hp)

/-- Where a reference points. -/
theorem translatedRefmut_eq_some {m : Mem} {ms : MemorySet} {va pa : Nat}
    (hroot : ms.pageTable.rootPpn < 2 ^ 44) (h : translatedRefmut m ms.token va = some pa) :
    ∃ e, ms.pageTable.translate m (pageOf va) = some e ∧ pa = e.ppn * 4096 + va % 4096 := by
  have hptr : translatedPtr m ms.pageTable.token va = some pa := h
  rw [translatedPtr_eq hroot] at hptr
  cases ht : ms.pageTable.translate m (pageOf va) with
  | none =>
      rw [ht] at hptr
      cases hptr
  | some e =>
      rw [ht] at hptr
      dsimp only at hptr
      split at hptr
      · cases hptr
      · cases hptr
        exact ⟨e, rfl, rfl⟩

theorem Writable.room_of_translate {tramp : Nat} {m : Mem} {ms : MemorySet}
    (h : Writable tramp m ms) {v : Nat} {e : PageTableEntry}
    (he : ms.pageTable.translate m v = some e) : Room tramp ms e.ppn := by
  rcases h.space.translate_ppn h.framed h.lt h.trampLt he with hp | hp | hp
  · exact Or.inl hp
  · exact Or.inr (Or.inr hp)
  · exact Or.inr (Or.inl hp)

section Args

variable {tramp : Nat} {ms : MemorySet} {st : MemState} {E : MemPanic → Prop}

/-- A reference is to the translated page, at the offset of the address. -/
theorem refmut_meets (h : Writable tramp st.mem ms) (hE : E .noTable) (va : Nat) :
    Meets E (refmut ms.token va) st fun pa st' =>
      st' = st ∧ ∃ f, Room tramp ms f ∧ pa = f * 4096 + va % 4096 := by
  simp only [refmut, Meets.bind_iff, Meets.get_iff]
  cases hpa : translatedRefmut st.mem ms.token va with
  | none => exact Meets.unwrap_none.mpr hE
  | some pa =>
      obtain ⟨e, he, hpa⟩ := translatedRefmut_eq_some h.root hpa
      exact Meets.unwrap_some.mpr ⟨rfl, e.ppn, h.room_of_translate he, hpa⟩

theorem argvRefs_meets (h : Writable tramp st.mem ms) (hE : E .noTable) {argvBase k n : Nat}
    (hbase : argvBase % 8 = 0) :
    Meets E (argvRefs ms.token argvBase k n) st fun pas st' =>
      st' = st ∧ ∀ pa ∈ pas, ∃ f, Room tramp ms f ∧ f * 4096 ≤ pa ∧ pa + 8 ≤ f * 4096 + 4096 := by
  induction n generalizing k with
  | zero => exact Meets.pure_iff.mpr ⟨rfl, fun pa hpa => absurd hpa List.not_mem_nil⟩
  | succ n ih =>
      rw [argvRefs, Meets.bind_iff]
      refine (refmut_meets h hE _).mono ?_
      rintro pa _ ⟨rfl, f, hf, rfl⟩
      rw [Meets.bind_iff]
      refine ih.mono ?_
      rintro pas _ ⟨rfl, hpas⟩
      refine Meets.pure_iff.mpr ⟨rfl, fun pa hpa => ?_⟩
      rcases List.mem_cons.mp hpa with rfl | hpa
      · exact ⟨f, hf, by omega, by omega⟩
      · exact hpas pa hpa

theorem copyArg_meets (h : Writable tramp st.mem ms) (hE : E .noTable) {p : Nat}
    {cs : List UInt8} :
    Meets E (copyArg ms.token p cs) st fun _ st' => Wrote tramp ms st st' := by
  have hbyte : ∀ (st : MemState) {f : Nat} (va : Nat) (c : UInt8), Room tramp ms f →
      Wrote tramp ms st { st with mem := st.mem.write (f * 4096 + va % 4096) [c] } := by
    intro st f va c hf
    refine Wrote.of_write hf (by omega) ?_
    rw [List.length_singleton]
    omega
  induction cs generalizing p st with
  | nil =>
      rw [copyArg, Meets.bind_iff]
      refine (refmut_meets h hE _).mono ?_
      rintro pa _ ⟨rfl, f, hf, rfl⟩
      exact Meets.modify_iff.mpr (hbyte _ p 0 hf)
  | cons c cs ih =>
      rw [copyArg, Meets.bind_iff]
      refine (refmut_meets h hE _).mono ?_
      rintro pa st₁ ⟨rfl, f, hf, rfl⟩
      rw [Meets.bind_iff]
      refine Meets.modify_iff.mpr ?_
      have hw := hbyte st₁ p c hf
      exact (ih (h.of_wrote hw)).mono fun _ _ hw' => hw.trans hw'

theorem copyArgs_meets {userSp : Nat} {args : List (Nat × List UInt8)}
    (h : Writable tramp st.mem ms) (hE : E .noTable)
    (hargs : ∀ x ∈ args, ∃ f, Room tramp ms f ∧ f * 4096 ≤ x.1 ∧ x.1 + 8 ≤ f * 4096 + 4096) :
    Meets E (copyArgs ms.token userSp args) st fun _ st' => Wrote tramp ms st st' := by
  induction args generalizing userSp st with
  | nil => exact Meets.pure_iff.mpr (Wrote.refl st)
  | cons x args ih =>
      obtain ⟨pa, arg⟩ := x
      obtain ⟨f, hf, h₁, h₂⟩ := hargs (pa, arg) List.mem_cons_self
      rw [copyArgs, Meets.bind_iff]
      refine Meets.modify_iff.mpr ?_
      have hw : Wrote tramp ms st { st with
          mem := st.mem.write pa (leBytes 8 (usizeSub userSp (arg.length + 1))) } := by
        refine Wrote.of_write hf h₁ ?_
        rw [leBytes_length]
        exact h₂
      rw [Meets.bind_iff]
      refine (copyArg_meets (h.of_wrote hw) hE).mono ?_
      rintro _ st₂ hw₂
      refine (ih ((h.of_wrote hw).of_wrote hw₂)
        (fun x hx => hargs x (List.mem_cons_of_mem _ hx))).mono ?_
      exact fun _ _ hw₃ => (hw.trans hw₂).trans hw₃

/-- The arguments go to frames of the new address space; `argv` is aligned, so that none of its
    words lies in two of them. -/
theorem pushArgs_meets {userSp : Nat} {args : List (List UInt8)}
    (h : Writable tramp st.mem ms) (hE : E .noTable) (hsp : userSp % 8 = 0) :
    Meets E (pushArgs ms.token userSp args) st fun _ st' => Wrote tramp ms st st' := by
  have hbase : usizeSub userSp ((args.length + 1) * 8) % 8 = 0 := by
    unfold usizeSub
    omega
  simp only [pushArgs, Meets.bind_iff]
  refine (argvRefs_meets h hE hbase).mono ?_
  rintro argv _ ⟨rfl, hargv⟩
  refine (refmut_meets h hE _).mono ?_
  rintro last _ ⟨rfl, f, hf, rfl⟩
  refine Meets.modify_iff.mpr ?_
  generalize usizeSub userSp ((args.length + 1) * 8) = argvBase at hbase hargv ⊢
  have hlen : (leBytes 8 0).length = 8 := leBytes_length 8 0
  have hw := fun st => @Wrote.of_write tramp ms st f
    (f * 4096 + (argvBase + args.length * 8) % 2 ^ 64 % 4096) (leBytes 8 0) hf (by omega) (by omega)
  refine (copyArgs_meets (h.of_wrote (hw _)) hE ?_).mono ?_
  · intro x hx
    exact hargv x.1 (List.of_mem_zip hx).1
  · exact fun _ _ hw' => Meets.pure_iff.mpr ((hw _).trans hw')

end Args

/-! ## Writes of a process -/

namespace Holds

variable {img : KernelImage} {st st' : MemState} {kernel : MemorySet} {sets : Sets}
  {ms : MemorySet}

theorem userOk (h : Holds img st kernel sets) (hx : (ms, false) ∈ sets) :
    ms.UserOk img.trampoline st where
  space := (h.sets _ hx).space rfl
  owns := by
    obtain ⟨i, hi, hget⟩ := List.mem_iff_getElem.mp hx
    have hsplit := perm_cons_eraseIdx (List.getElem?_eq_getElem hi)
    rw [hget] at hsplit
    have ho := (h.perm hsplit).owns.right
    rw [Sets.frames_cons] at ho
    exact ho.left
  framed := (h.sets _ hx).framed rfl

theorem writable (h : Holds img st kernel sets) (hx : (ms, false) ∈ sets) :
    Writable img.trampoline st.mem ms := by
  refine Writable.of_userOk (h.userOk hx) fun hmem => h.apart ?_
  exact List.mem_append_right _ (List.mem_flatMap.mpr ⟨_, hx, hmem⟩)

/-- A frame that a process translates to is no table. -/
theorem room_apart (h : Holds img st kernel sets) (hx : (ms, false) ∈ sets) {p : Nat}
    (hp : Room img.trampoline ms p) : p ∉ kernel.pageTable.frames ++ sets.tables := by
  intro hmem
  rcases hp with hd | hover
  · exact h.data_apart hx hd hmem
  · refine h.not_stray ?_ hover
    rcases List.mem_append.mp hmem with hmem | hmem
    · exact List.mem_append_left _ (List.mem_append_left _ hmem)
    · exact List.mem_append_right _ (sets.tables_subset hmem)

/-- The tables stay as they are. -/
theorem wrote (h : Holds img st kernel sets) (hx : (ms, false) ∈ sets)
    (hw : Wrote img.trampoline ms st st') :
    Holds img st' kernel sets
      ∧ ∀ p ∈ kernel.pageTable.frames ++ sets.tables, Mem.SameFrame st.mem st'.mem p := by
  have hsame : ∀ p ∈ kernel.pageTable.frames ++ sets.tables, Mem.SameFrame st.mem st'.mem p := by
    exact fun p hp => hw.same p fun hroom => h.room_apart hx hroom hp
  have hst' : st' = { st with mem := st'.mem } := by rw [← hw.alloc]
  refine ⟨?_, hsame⟩
  rw [hst']
  exact h.write hsame

/-- The others without one of the processes. -/
theorem of_cons {x : MemorySet × Bool} (h : Holds img st kernel (x :: sets)) :
    Holds img st kernel sets where
  owns := by
    have hperm : (kernel.frames ++ Sets.frames (x :: sets)).Perm
        ((kernel.frames ++ sets.frames) ++ x.1.frames) := by
      rw [List.append_assoc]
      exact List.perm_append_comm.append_left _
    exact (h.owns.perm hperm).left
  backs := h.backs.subset <| by
    intro p hmem
    rcases List.mem_append.mp hmem with hmem | hmem
    · exact List.mem_append_left _ hmem
    · exact List.mem_append_right _ (List.mem_append_right _ hmem)
  kernel := h.kernel
  sets := fun y hy => h.sets y (List.mem_cons_of_mem _ hy)

end Holds

/-! ## The trap context -/

section TrapCx

variable {tramp : Nat} {ms : MemorySet} {st : MemState} {E : MemPanic → Prop}

theorem length_bytes (cx : TrapContext) : cx.bytes.length = 296 := by
  have hall : ∀ ws : List UInt64, (ws.flatMap fun w => leBytes 8 w.toNat).length = 8 * ws.length := by
    intro ws
    induction ws with
    | nil => rfl
    | cons w ws ih =>
        rw [List.flatMap_cons, List.length_append, ih, leBytes_length, List.length_cons]
        omega
  rw [TrapContext.bytes, hall]
  simp

/-- The trap context is in a data frame of the process. -/
theorem findTrapCx_meets (h : Writable tramp st.mem ms) (htrap : HasTrapContext ms) :
    Meets E (findTrapCx ms) st fun ppn st' => st' = st ∧ ppn ∈ dataPpns ms.areas := by
  obtain ⟨a, ha, hav, -⟩ := htrap
  obtain ⟨p, e, -, hp, hlook, -, hppn⟩ := framed_page h.space ha (h.framed a ha) hav h.lt
  simp only [findTrapCx, Meets.bind_iff, Meets.get_iff]
  rw [floor_trapContext, MemorySet.translate, translate_of_lookup hlook, Meets.unwrap_some]
  exact Meets.pure_iff.mpr ⟨rfl, hppn ▸ hp⟩

theorem writeTrapCx_meets {ppn k : Nat} {bs : List UInt8} (hppn : ppn ∈ dataPpns ms.areas)
    (hpos : 0 < ppn) (hlen : k + bs.length ≤ 4096) :
    Meets E (writeTrapCx ppn k bs) st fun _ st' => Wrote tramp ms st st'
      ∧ ∀ p, p ≠ ppn → Mem.SameFrame st.mem st'.mem p := by
  rw [writeTrapCx, Meets.bind_iff, Meets.ensure_iff]
  refine ⟨fun _ => Meets.modify_iff.mpr ⟨?_, ?_⟩, fun h => absurd (by omega) h⟩
  · exact Wrote.of_write (Or.inl hppn) (by omega) (by omega)
  · exact fun p hp => Mem.sameFrame_write _ (by omega) (by omega) hp

end TrapCx

end Nimloth
