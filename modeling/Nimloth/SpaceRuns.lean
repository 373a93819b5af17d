import Mathlib.Data.List.Pairwise
import Nimloth.ForkSpace
import Nimloth.Runs

/-!
# Runs of operations on address spaces

The address spaces that come out of any sequence of `insert_framed_area`,
`push`, `remove_area_with_start_vpn`, `append_to`, `shrink_to` and
`from_existed_user`, starting from one that has the trampoline only. All
of them live in one memory with one allocator. `SpacesOk` says of each
that areas and page table agree and of all together that no frame is held
twice; each operation preserves it and fails for lack of frames, on an end
before the start, or where a frame handed out is no memory (`exec_meets`).
-/

namespace Nimloth

open Outcome PageTable MemorySet

/-! ## The system -/

structure Spaces where
  st : MemState
  sets : List MemorySet

/-- An operation on the address space at place `i`. Addresses are those of `usize`. -/
inductive SpaceOp where
  | insertFramedArea (i startVa endVa : Nat) (perm : MapPermission)
  | push (i startVa endVa : Nat) (perm : MapPermission) (data : List UInt8)
  | removeAreaWithStartVpn (i startVpn : Nat)
  | appendTo (i idx newEnd : Nat)
  | shrinkTo (i idx newEnd : Nat)
  | fromExistedUser (i : Nat)

namespace SpaceOp

def target : SpaceOp → Nat
  | .insertFramedArea i .. | .push i .. | .removeAreaWithStartVpn i _ | .appendTo i .. => i
  | .shrinkTo i .. | .fromExistedUser i => i

/-- The call on `ms`: what becomes of `ms`, and the new address space if there is one. -/
def call (img : KernelImage) (ms : MemorySet) : SpaceOp → MemM (MemorySet × List MemorySet)
  | .insertFramedArea _ startVa endVa perm => do
      let ms ← ms.insertFramedArea (VirtAddr.from startVa) (VirtAddr.from endVa) perm
      pure (ms, [])
  | .push _ startVa endVa perm data => do
      let area ← MapArea.new (VirtAddr.from startVa) (VirtAddr.from endVa) .framed perm
      let ms ← pushData img ms area data
      pure (ms, [])
  | .removeAreaWithStartVpn _ startVpn => do
      let ms ← ms.removeAreaWithStartVpn startVpn
      pure (ms, [])
  | .appendTo _ idx newEnd => do
      let ms ← ms.appendTo idx newEnd
      pure (ms, [])
  | .shrinkTo _ idx newEnd => do
      let ms ← ms.shrinkTo idx newEnd
      pure (ms, [])
  | .fromExistedUser _ => do
      let child ← MemorySet.fromExistedUser img ms
      pure (ms, [child])

def exec (img : KernelImage) (op : SpaceOp) (sets : List MemorySet) : MemM (List MemorySet) :=
  match sets[op.target]? with
  | none => pure sets
  | some ms => do
      let (ms, new) ← op.call img ms
      pure (sets.set op.target ms ++ new)

end SpaceOp

/-- Nothing is mapped in the range. -/
def Unmapped (m : Mem) (ms : MemorySet) (start end_ : Nat) : Prop :=
  ∀ v, start ≤ v → v < end_ → ms.pageTable.lookup m v = none

/-- What is added is not yet mapped, data fits in an area with pages, and `shrink_to` stays in
    the area. -/
def SpaceOp.Valid (m : Mem) (ms : MemorySet) : SpaceOp → Prop
  | .insertFramedArea _ startVa endVa _ =>
      Unmapped m ms (VirtAddr.floor (VirtAddr.from startVa)) (VirtAddr.ceil (VirtAddr.from endVa))
  | .push _ startVa endVa _ data =>
      Unmapped m ms (VirtAddr.floor (VirtAddr.from startVa)) (VirtAddr.ceil (VirtAddr.from endVa))
        ∧ VirtAddr.floor (VirtAddr.from startVa) < VirtAddr.ceil (VirtAddr.from endVa)
        ∧ data.length ≤ (VirtAddr.ceil (VirtAddr.from endVa)
            - VirtAddr.floor (VirtAddr.from startVa)) * PAGE_SIZE
  | .removeAreaWithStartVpn .. => True
  | .appendTo _ idx newEnd =>
      ∀ a, ms.areas[idx]? = some a → Unmapped m ms a.vpnRange.end_ newEnd
  | .shrinkTo _ idx newEnd =>
      ∀ a, ms.areas[idx]? = some a → a.vpnRange.start ≤ newEnd ∧ newEnd ≤ a.vpnRange.end_
  | .fromExistedUser _ => True

def Spaces.Valid (s : Spaces) (op : SpaceOp) : Prop :=
  ∀ ms, s.sets[op.target]? = some ms → op.Valid s.st.mem ms

def SpaceStep (img : KernelImage) (s : Spaces) (op : SpaceOp) (s' : Spaces) : Prop :=
  s.Valid op ∧ op.exec img s.sets s.st = .ok (s'.sets, s'.st)

/-- One address space, with the trampoline only. -/
def Spaces.Initial (img : KernelImage) (s : Spaces) : Prop :=
  ∃ st ms, st.alloc.Wf ∧ s.sets = [ms]
    ∧ (do let ms ← newBare; ms.mapTrampoline img : MemM MemorySet) st = .ok (ms, s.st)

/-! ## The invariant -/

structure SpacesOk (tramp : Nat) (st : MemState) (sets : List MemorySet) : Prop where
  space : ∀ ms ∈ sets, Space tramp st.mem ms.pageTable ms.areas
  framed : ∀ ms ∈ sets, ∀ a ∈ ms.areas, a.mapType = .framed
  owns : Owns st (sets.flatMap MemorySet.frames)

namespace SpacesOk

variable {tramp : Nat} {st st' : MemState} {sets : List MemorySet} {ms ms' : MemorySet}

theorem ok (h : SpacesOk tramp st sets) {i : Nat} (hi : sets[i]? = some ms) : ms.Ok tramp st := by
  have hperm := (perm_cons_eraseIdx hi).flatMap_right MemorySet.frames
  refine ⟨h.space ms (List.mem_of_getElem? hi), ?_⟩
  have := h.owns.perm hperm
  rw [List.flatMap_cons] at this
  exact this.left

/-- One address space is replaced, others are added. -/
theorem replace (h : SpacesOk tramp st sets) {i : Nat} (hi : sets[i]? = some ms)
    {new : List MemorySet} (hspace : ∀ x ∈ ms' :: new, Space tramp st'.mem x.pageTable x.areas)
    (hframed : ∀ x ∈ ms' :: new, ∀ a ∈ x.areas, a.mapType = .framed)
    (hm : Moves (fun _ => False) st ms.frames st' ((ms' :: new).flatMap MemorySet.frames)) :
    SpacesOk tramp st' (sets.set i ms' ++ new) := by
  have hperm := perm_cons_eraseIdx hi
  have hperm' : (sets.set i ms' ++ new).Perm ((ms' :: new) ++ sets.eraseIdx i) := by
    refine ((set_perm_cons_eraseIdx hi ms').append_right new).trans ?_
    rw [List.cons_append, List.cons_append]
    exact List.perm_append_comm.cons ms'
  have ho := h.owns.perm (hperm.flatMap_right MemorySet.frames)
  rw [List.flatMap_cons] at ho
  have hrest : ∀ x ∈ sets.eraseIdx i, x ∈ sets := fun x hx => List.mem_of_mem_eraseIdx hx
  refine ⟨?_, ?_, ?_⟩
  · intro x hx
    rcases List.mem_append.mp (hperm'.mem_iff.mp hx) with hx | hx
    · exact hspace x hx
    · refine (h.space x (hrest x hx)).congr ?_
      intro p hp
      have hmem : p ∈ (sets.eraseIdx i).flatMap MemorySet.frames :=
        List.mem_flatMap.mpr ⟨x, hx, List.mem_append_left _ hp⟩
      exact hm.same p id (ho.right.used p hmem) (ho.not_mem hmem)
  · intro x hx
    rcases List.mem_append.mp (hperm'.mem_iff.mp hx) with hx | hx
    · exact hframed x hx
    · exact h.framed x (hrest x hx)
  · have howns := (hm.frame ho).owns
    rw [← List.flatMap_append] at howns
    exact howns.perm (hperm'.symm.flatMap_right MemorySet.frames)

/-- The case that none is added. -/
theorem update (h : SpacesOk tramp st sets) {i : Nat} (hi : sets[i]? = some ms)
    (hok : ms'.Ok tramp st') (hframed : ∀ a ∈ ms'.areas, a.mapType = .framed)
    (hm : Moves (fun _ => False) st ms.frames st' ms'.frames) :
    SpacesOk tramp st' (sets.set i ms' ++ []) := by
  refine h.replace hi ?_ ?_ ?_
  · intro x hx
    rw [List.mem_singleton] at hx
    exact hx ▸ hok.space
  · intro x hx
    rw [List.mem_singleton] at hx
    exact hx ▸ hframed
  · simpa using hm

end SpacesOk

/-! ## One operation -/

/-- The panics that are left: no frame, a range whose end is before its start, or an allocator
    that hands out what is not memory. -/
def SpacePanic (e : MemPanic) : Prop := e = .outOfFrames ∨ e = .badRange ∨ e = .storeFault

section Step

variable {img : KernelImage} {st : MemState} {sets : List MemorySet} {op : SpaceOp}

theorem framed_pushed {tramp : Nat} {ms ms' : MemorySet} {st' : MemState} {r : VPNRange}
    {perm : MapPermission} {X : Nat → Prop} (hframed : ∀ a ∈ ms.areas, a.mapType = .framed)
    (hpush : Pushed X tramp st ms ⟨r, [], .framed, perm⟩ st' ms') :
    ∀ a ∈ ms'.areas, a.mapType = .framed := by
  obtain ⟨a', hadded, hareas⟩ := hpush.areas
  intro a ha
  rw [hareas] at ha
  rcases List.mem_append.mp ha with ha | ha
  · exact hframed a ha
  · rw [List.mem_singleton] at ha
    exact ha ▸ hadded.type

theorem framed_set {ms : MemorySet} {idx : Nat} {a' : MapArea}
    (hframed : ∀ a ∈ ms.areas, a.mapType = .framed) (ha' : a'.mapType = .framed) :
    ∀ a ∈ ms.areas.set idx a', a.mapType = .framed := by
  intro a ha
  rcases List.mem_or_eq_of_mem_set ha with ha | rfl
  · exact hframed a ha
  · exact ha'

theorem exec_meets (h : SpacesOk img.trampoline st sets) (hv : Spaces.Valid ⟨st, sets⟩ op) :
    Meets SpacePanic (op.exec img sets) st fun sets' st' =>
      SpacesOk img.trampoline st' sets' := by
  unfold SpaceOp.exec
  cases hi : sets[op.target]? with
  | none => exact Meets.pure_iff.mpr h
  | some ms =>
      have hvalid := hv ms hi
      have hok := h.ok hi
      have hframed := h.framed ms (List.mem_of_getElem? hi)
      have hbad : SpacePanic .badRange := Or.inr (Or.inl rfl)
      have hfault : SpacePanic .storeFault := Or.inr (Or.inr rfl)
      have hoom : SpacePanic .outOfFrames := Or.inl rfl
      dsimp only
      rw [Meets.bind_iff]
      cases op with
      | insertFramedArea i startVa endVa perm =>
          simp only [SpaceOp.call, Meets.bind_iff]
          refine (pushNew_meets (X := fun _ => False) hok (virtAddr_lt _) (virtAddr_lt _)
            (fun _ => hoom) (fun _ => hbad) ?_).mono ?_
          · rintro ⟨v, hge, hlt, hne⟩
            exact absurd (hvalid v hge hlt) hne
          rintro ms' st' ⟨r, -, -, hpush⟩
          exact Meets.pure_iff.mpr (Meets.pure_iff.mpr
            (h.update hi hpush.ok (framed_pushed hframed hpush) hpush.moves))
      | push i startVa endVa perm data =>
          obtain ⟨hfresh, hpages, hlen⟩ := hvalid
          have hceil := virtAddr_ceil_eq (VirtAddr.from endVa)
          have hfrom := virtAddr_lt endVa
          simp only [SpaceOp.call, MapArea.new, Meets.bind_iff]
          refine (VPNRange.new_meets (fun _ => hbad)).mono ?_
          rintro r _ ⟨rfl, hrs, hre⟩
          refine Meets.pure_iff.mpr ?_
          have hnew : (MapArea.mk r [] .framed perm).dataFrames = [] := rfl
          refine (pushData_meets (X := fun _ => False) hnew ?_ ?_ (fun _ => hoom) ?_ hok hframed
            rfl (Or.inl ⟨?_, ?_⟩) hfault).mono ?_
          · dsimp only
            omega
          · dsimp only
            omega
          · rintro ⟨v, ⟨hge, hlt⟩, hne⟩
            exact absurd (hfresh v (hrs ▸ hge) (hre ▸ hlt)) hne
          · dsimp only
            omega
          · dsimp only
            rw [hrs, hre]
            exact hlen
          rintro ms' st' hpush
          exact Meets.pure_iff.mpr (Meets.pure_iff.mpr
            (h.update hi hpush.ok (framed_pushed hframed hpush) hpush.moves))
      | removeAreaWithStartVpn i startVpn =>
          simp only [SpaceOp.call, Meets.bind_iff]
          refine (removeAreaWithStartVpn_meets (X := fun _ => False) hok startVpn).mono ?_
          rintro ms' st' ⟨hok', hm, hareas⟩
          refine Meets.pure_iff.mpr (Meets.pure_iff.mpr (h.update hi hok' ?_ hm))
          intro a ha
          rcases hareas with ⟨-, rfl⟩ | ⟨b, -, hperm⟩
          · exact hframed a ha
          · exact hframed a (hperm.mem_iff.mpr (List.mem_cons_of_mem _ ha))
      | appendTo i idx newEnd =>
          simp only [SpaceOp.call, Meets.bind_iff]
          cases ha : ms.areas[idx]? with
          | none =>
              simp only [MemorySet.appendTo, ha, Meets.pure_iff]
              exact h.update hi hok hframed (Moves.refl hok.owns)
          | some a =>
              refine (appendTo_meets (X := fun _ => False) hok ha (hvalid a ha) hoom
                (fun _ => hbad)).mono ?_
              rintro ms' st' ⟨hok', hm, a', -, -, htype, -, hareas⟩
              refine Meets.pure_iff.mpr (Meets.pure_iff.mpr (h.update hi hok' ?_ hm))
              rw [hareas]
              exact framed_set hframed (htype.trans (hframed a (List.mem_of_getElem? ha)))
      | shrinkTo i idx newEnd =>
          simp only [SpaceOp.call, Meets.bind_iff]
          cases ha : ms.areas[idx]? with
          | none =>
              simp only [MemorySet.shrinkTo, ha, Meets.pure_iff]
              exact h.update hi hok hframed (Moves.refl hok.owns)
          | some a =>
              obtain ⟨hge, hle⟩ := hvalid a ha
              refine (shrinkTo_meets (X := fun _ => False) hok ha hge hle).mono ?_
              rintro ms' st' ⟨hok', hm, a', -, -, htype, -, hareas⟩
              refine Meets.pure_iff.mpr (Meets.pure_iff.mpr (h.update hi hok' ?_ hm))
              rw [hareas]
              exact framed_set hframed (htype.trans (hframed a (List.mem_of_getElem? ha)))
      | fromExistedUser i =>
          simp only [SpaceOp.call, Meets.bind_iff]
          refine (fromExistedUser_meets hok hframed (fun _ => hoom)).mono ?_
          rintro child st' ⟨hf, -⟩
          refine Meets.pure_iff.mpr (Meets.pure_iff.mpr ?_)
          obtain ⟨-, hspace⟩ := parent_kept hok hf.moves
          refine h.replace hi ?_ ?_ ?_
          · intro x hx
            rcases List.mem_cons.mp hx with rfl | hx
            · exact hspace
            · rw [List.mem_singleton] at hx
              exact hx ▸ hf.ok.space
          · intro x hx
            rcases List.mem_cons.mp hx with rfl | hx
            · exact hframed
            · rw [List.mem_singleton] at hx
              subst hx
              intro c hc
              obtain ⟨a, ha, hac⟩ := exists_left_of_forall₂ hf.areas hc
              exact hac.type.trans (hframed a ha)
          · have hframe : Moves (fun _ => False) st ([] ++ ms.frames) st'
                (child.frames ++ ms.frames) := hf.moves.frame hok.owns
            simp only [List.flatMap_cons, List.flatMap_nil, List.append_nil]
            exact hframe.perm (List.Perm.refl _) List.perm_append_comm

end Step

/-! ## All runs -/

section Runs

variable {img : KernelImage} {s₀ s : Spaces} {tr : List SpaceOp}

theorem spacesOk_initial (h : s₀.Initial img) : SpacesOk img.trampoline s₀.st s₀.sets := by
  obtain ⟨st, ms, hwf, hsets, hrun⟩ := h
  have hmeets : Meets (fun _ => True) (do let ms ← newBare; ms.mapTrampoline img) st _ :=
    newUser_meets (X := fun _ => False) (Owns.nil hwf) (fun _ => trivial)
  obtain ⟨hok, hnil, -, -⟩ := hmeets.ok hrun
  rw [hsets]
  refine ⟨?_, ?_, ?_⟩
  · intro x hx
    rw [List.mem_singleton] at hx
    exact hx ▸ hok.space
  · intro x hx a ha
    rw [List.mem_singleton] at hx
    rw [hx, hnil] at ha
    exact absurd ha List.not_mem_nil
  · simpa using hok.owns

theorem spacesOk_of_runs (h₀ : s₀.Initial img) (h : Runs (SpaceStep img) s₀ tr s) :
    SpacesOk img.trampoline s.st s.sets := by
  refine h.invariant (I := fun s => SpacesOk img.trampoline s.st s.sets) (spacesOk_initial h₀) ?_
  rintro a op b ha ⟨hvalid, hexec⟩
  exact (exec_meets ha hvalid).ok hexec

/-- A page with a valid entry is the trampoline or in one area, and only one. -/
theorem Space.mapped_iff {tramp : Nat} {m : Mem} {pt : PageTable} {areas : List MapArea}
    (h : Space tramp m pt areas) {v : Nat} (hv : v < 2 ^ 27) :
    pt.lookup m v ≠ none
      ↔ v = TRAMPOLINE_VPN ∨ ∃! i : Nat, ∃ a : MapArea, areas[i]? = some a ∧ a.Has v := by
  constructor
  · intro hne
    rcases h.only v hv hne with heq | ⟨a, ha, hav⟩
    · exact Or.inl heq
    · obtain ⟨i, hi, hget⟩ := List.mem_iff_getElem.mp ha
      refine Or.inr ⟨i, ⟨a, by rw [List.getElem?_eq_getElem hi, hget], hav⟩, ?_⟩
      rintro j ⟨b, hb, hbv⟩
      obtain ⟨hj, rfl⟩ := List.getElem?_eq_some_iff.mp hb
      have hpair := List.pairwise_iff_getElem.mp h.apart
      rcases Nat.lt_trichotomy j i with hlt | heq | hgt
      · exact absurd ⟨hbv, hget ▸ hav⟩ (hpair j i hj hi hlt v)
      · exact heq
      · exact absurd ⟨hget ▸ hav, hbv⟩ (hpair i j hi hj hgt v)
  · rintro (rfl | ⟨i, ⟨a, ha, hav⟩, -⟩)
    · rw [h.trampoline]
      exact Option.some_ne_none _
    · exact h.mapped (List.mem_of_getElem? ha) hav

/-- In every reachable state page table, ranges and `data_frames` agree in every address space,
    and the next operation fails none of the assertions about mapped pages. -/
theorem memory_set_consistent (h₀ : s₀.Initial img) (h : Runs (SpaceStep img) s₀ tr s) :
    (∀ ms ∈ s.sets,
      (∀ v, v < 2 ^ 27 → (ms.pageTable.lookup s.st.mem v ≠ none
        ↔ v = TRAMPOLINE_VPN ∨ ∃! i : Nat, ∃ a : MapArea, ms.areas[i]? = some a ∧ a.Has v))
      ∧ ∀ a ∈ ms.areas, a.keys = a.vpnRange.pages
        ∧ ∀ v, a.Has v → ∃ p e, a.dataFrames.lookup v = some p
          ∧ ms.pageTable.lookup s.st.mem v = some e ∧ e.ppn = p
          ∧ e.flags = a.mapPerm ||| PTEFlags.V)
    ∧ ∀ op, s.Valid op → ∀ e, op.exec img s.sets s.st = .error e →
        e ≠ .mapped ∧ e ≠ .notMapped ∧ e ≠ .noFrame ∧ e ≠ .noTable := by
  have hok := spacesOk_of_runs h₀ h
  refine ⟨fun ms hms => ⟨fun v hv => (hok.space ms hms).mapped_iff hv, fun a ha => ?_⟩, ?_⟩
  · have hspace := hok.space ms hms
    have htype := hok.framed ms hms a ha
    have hlt : ∀ p ∈ dataPpns ms.areas, p < 2 ^ 44 := fun p hp =>
      hok.owns.lt_two_pow (List.mem_flatMap.mpr ⟨ms, hms, List.mem_append_right _ hp⟩)
    refine ⟨by rw [(hspace.ok a ha).keys, htype, if_pos rfl], fun v hv => ?_⟩
    obtain ⟨p, e, hp, hmem, he, rfl, hppn⟩ := framed_page hspace ha htype hv hlt
    exact ⟨p, _, hp, he, hppn, PageTableEntry.flags_new (hlt p hmem) _⟩
  · intro op hvalid e herr
    have hpanic : SpacePanic e := (exec_meets hok hvalid).of_error herr
    rcases hpanic with rfl | rfl | rfl
    · simp
    · simp
    · simp

theorem exec_one {img : KernelImage} {op : SpaceOp} {ms ms' : MemorySet} {new : List MemorySet}
    {st st' : MemState} (htarget : op.target = 0) (h : op.call img ms st = .ok ((ms', new), st')) :
    op.exec img [ms] st = .ok (ms' :: new, st') := by
  rw [SpaceOp.exec, htarget]
  show (op.call img ms >>= fun r => pure ([ms].set 0 r.1 ++ r.2) : MemM _) st = _
  simp only [bind, StateT.bind, h, Except.bind]
  rfl

/-- Two pages are inserted into a fresh address space, and removed again. -/
theorem memory_set_consistent_remove : ∃ s₀ s₁ s₂ op₁ op₂, s₀.Initial default
    ∧ SpaceStep default s₀ op₁ s₁ ∧ SpaceStep default s₁ op₂ s₂
    ∧ (∀ ms ∈ s₁.sets, ms.pageTable.lookup s₁.st.mem 0x10 ≠ none)
    ∧ ∀ ms ∈ s₂.sets, ms.pageTable.lookup s₂.st.mem 0x10 = none := by
  let img : KernelImage := default
  let st₀ : MemState := ⟨fun _ => 0, img.initFrameAllocator⟩
  have havail : st₀.alloc.available = 0x900 := by decide
  have hnew : Meets (fun _ => False) (do let ms ← newBare; ms.mapTrampoline img) st₀ _ :=
    newUser_meets (X := fun _ => False) (Owns.nil img.wf_initFrameAllocator)
      (fun h => absurd h (by omega))
  obtain ⟨ms, st, hrun, hok, hnil, -, hav⟩ := hnew.exists_ok
  have hinit : Spaces.Initial img ⟨st, [ms]⟩ := ⟨st₀, ms, img.wf_initFrameAllocator, rfl, hrun⟩
  have hvalid : Unmapped st.mem ms (VirtAddr.floor (VirtAddr.from 0x10000))
      (VirtAddr.ceil (VirtAddr.from 0x12000)) := by
    intro v _ hlt
    have hend : VirtAddr.ceil (VirtAddr.from 0x12000) = 0x12 := by decide
    rw [hend] at hlt
    by_contra hne
    rcases hok.space.only v (by omega) hne with heq | ⟨a, ha, -⟩
    · simp only [TRAMPOLINE_VPN] at heq
      omega
    · rw [hnil] at ha
      exact absurd ha List.not_mem_nil
  have hinsert : Meets (fun _ => False) (ms.insertFramedArea (VirtAddr.from 0x10000)
      (VirtAddr.from 0x12000) (PTEFlags.R ||| PTEFlags.W ||| PTEFlags.U)) st _ :=
    pushNew_meets (X := fun _ => False) hok (virtAddr_lt _) (virtAddr_lt _)
      (fun h => by
        have hpages : VirtAddr.ceil (VirtAddr.from 0x12000)
          - VirtAddr.floor (VirtAddr.from 0x10000) = 2 := by decide
        rw [hpages] at h
        omega)
      (fun h => absurd h (by decide)) (fun ⟨v, hge, hlt, hne⟩ => hne (hvalid v hge hlt))
  obtain ⟨ms', st', hins, r, hstart, hend, hpushed⟩ := hinsert.exists_ok
  have hstep : SpaceStep img ⟨st, [ms]⟩
      (.insertFramedArea 0 0x10000 0x12000 (PTEFlags.R ||| PTEFlags.W ||| PTEFlags.U))
      ⟨st', [ms']⟩ := by
    refine ⟨?_, exec_one rfl ?_⟩
    · rintro x hx
      cases hx
      exact hvalid
    · simp only [SpaceOp.call, bind, StateT.bind, hins, Except.bind]
      rfl
  -- the only area has the page
  obtain ⟨a, hadded, hareas⟩ := hpushed.areas
  rw [hnil, List.nil_append] at hareas
  have hrange : a.vpnRange.start = 0x10 ∧ a.vpnRange.end_ = 0x12 := by
    rw [hadded.range]
    exact ⟨hstart, hend⟩
  have hmapped : ms'.pageTable.lookup st'.mem 0x10 ≠ none := by
    refine (((memory_set_consistent hinit (Runs.single hstep)).1 ms' (List.mem_singleton.mpr
      rfl)).1 0x10 (by decide)).mpr (Or.inr ⟨0, ⟨a, by rw [hareas]; rfl, ?_⟩, ?_⟩)
    · rw [MapArea.Has, hrange.1, hrange.2]
      decide
    · rintro i ⟨b, hb, -⟩
      rw [hareas] at hb
      have hi := (List.getElem?_eq_some_iff.mp hb).1
      rw [List.length_singleton] at hi
      exact Nat.lt_one_iff.mp hi
  have hremove : Meets (fun _ => False) (ms'.removeAreaWithStartVpn 0x10) st' _ :=
    removeAreaWithStartVpn_meets (X := fun _ => False) hpushed.ok 0x10
  obtain ⟨ms'', st'', hrem, -, -, hleft⟩ := hremove.exists_ok
  have hstep' : SpaceStep img ⟨st', [ms']⟩ (.removeAreaWithStartVpn 0 0x10) ⟨st'', [ms'']⟩ := by
    refine ⟨fun _ _ => trivial, exec_one rfl ?_⟩
    simp only [SpaceOp.call, bind, StateT.bind, hrem, Except.bind]
    rfl
  have hnone : ms''.areas = [] := by
    rcases hleft with ⟨hno, -⟩ | ⟨b, -, hperm⟩
    · exact absurd hrange.1 (hno a (by rw [hareas]; exact List.mem_singleton.mpr rfl))
    · have hlen := hperm.length_eq
      rw [hareas, List.length_singleton, List.length_cons] at hlen
      exact List.eq_nil_of_length_eq_zero (by omega)
  refine ⟨_, _, _, _, _, hinit, hstep, hstep', ?_, ?_⟩
  · intro x hx
    rw [List.mem_singleton.mp hx]
    exact hmapped
  · intro x hx
    rw [List.mem_singleton.mp hx]
    by_contra hne
    rcases (((memory_set_consistent hinit ((Runs.single hstep).append (Runs.single hstep'))).1 ms''
      (List.mem_singleton.mpr rfl)).1 0x10 (by decide)).mp hne with heq | ⟨i, ⟨b, hb, -⟩, -⟩
    · exact absurd heq (by decide)
    · rw [hnone] at hb
      cases hb

end Runs

end Nimloth
