import Nimloth.ElfLayout
import Nimloth.Lifecycle

/-!
# Writes to a part of an address space

A region is a range of addresses that are mapped to frames of their own:
no other page has them, and none holds a table. A write to it changes
the bytes at the addresses written and no other byte of the address
space, and what is mapped stays so.
-/

namespace Nimloth

open Outcome PageTable MemorySet

/-! ## Bytes of an address space -/

/-- The byte that the page table maps at `va`. -/
def byteAt (m : Mem) (pt : PageTable) (va : Nat) : Option UInt8 := (physAt m pt va).map m

/-- The bytes `bs` are mapped from `va` on. -/
def HoldsAt (m : Mem) (pt : PageTable) (va : Nat) (bs : List UInt8) : Prop :=
  ∀ j b, bs[j]? = some b → byteAt m pt (va + j) = some b

/-- The addresses from `lo` to before `hi` are mapped, to frames that no other page has and that
    hold no table. -/
structure UserRegion (m : Mem) (pt : PageTable) (lo hi : Nat) : Prop where
  tree : Tree m pt
  root : pt.rootPpn < 2 ^ 44
  flat : lo % 2 ^ 39 + (hi - lo) ≤ 2 ^ 39
  le : hi ≤ 2 ^ 64
  mapped : ∀ va, lo ≤ va → va < hi → ∃ e, pt.lookup m (pageOf va) = some e ∧ 0 < e.ppn
    ∧ e.ppn ∉ pt.frames
  own : ∀ va, lo ≤ va → va < hi → ∀ v e e', v < 2 ^ 27 → pt.lookup m (pageOf va) = some e →
    pt.lookup m v = some e' → e'.ppn = e.ppn → v = pageOf va

/-- Only bytes at addresses in `A` are changed. -/
structure StoresAt (pt : PageTable) (A : Nat → Prop) (st st' : MemState) : Prop where
  alloc : st'.alloc = st.alloc
  only : ∀ x, st'.mem x ≠ st.mem x → ∃ va, A va ∧ physAt st.mem pt va = some x

section Bytes

variable {m m' : Mem} {pt : PageTable} {va : Nat}

theorem physAt_eq_some {x : Nat} : physAt m pt va = some x
    ↔ ∃ e, pt.lookup m (pageOf va) = some e ∧ x = e.ppn * 4096 + va % 4096 := by
  rw [physAt, Option.map_eq_some_iff]
  exact exists_congr fun e => and_congr_right fun _ => eq_comm

theorem HoldsAt.cons {b : UInt8} {bs : List UInt8} (hb : byteAt m pt va = some b)
    (h : HoldsAt m pt (va + 1) bs) : HoldsAt m pt va (b :: bs) := by
  intro j c hc
  cases j with
  | zero =>
      rw [List.getElem?_cons_zero, Option.some.injEq] at hc
      rw [Nat.add_zero, hb, hc]
  | succ j =>
      rw [List.getElem?_cons_succ] at hc
      rw [Nat.add_comm j 1, ← Nat.add_assoc]
      exact h j c hc

end Bytes

/-! ## Regions -/

namespace UserRegion

variable {st st₁ st₂ : MemState} {pt : PageTable} {lo hi : Nat} {A B : Nat → Prop}

/-- A byte of the region is mapped at one address. -/
theorem phys_inj (h : UserRegion st.mem pt lo hi) {va va' x : Nat} (hlo : lo ≤ va) (hhi : va < hi)
    (hx : physAt st.mem pt va = some x) (hx' : physAt st.mem pt va' = some x) :
    va' % 2 ^ 39 = va % 2 ^ 39 := by
  obtain ⟨e, he, rfl⟩ := physAt_eq_some.mp hx
  obtain ⟨e', he', heq⟩ := physAt_eq_some.mp hx'
  have hpage := h.own va hlo hhi _ e e' (pageOf_lt va') he he' (by omega)
  rw [pageOf_eq, pageOf_eq] at hpage
  omega

/-- Distinct addresses of the region are distinct addresses of 39 bits. -/
theorem eq_of_mod (h : UserRegion st.mem pt lo hi) {va va' : Nat} (hlo : lo ≤ va) (hhi : va < hi)
    (hlo' : lo ≤ va') (hhi' : va' < hi) (heq : va' % 2 ^ 39 = va % 2 ^ 39) : va' = va := by
  have hflat := h.flat
  omega

/-- The tables are not written to. -/
theorem sameFrame (h : UserRegion st.mem pt lo hi) (hA : ∀ va, A va → lo ≤ va ∧ va < hi)
    (hs : StoresAt pt A st st₁) {p : Nat} (hp : p ∈ pt.frames) :
    Mem.SameFrame st.mem st₁.mem p := by
  intro x hx
  by_contra hne
  obtain ⟨va, hva, hphys⟩ := hs.only x hne
  obtain ⟨e, he, -, hnot⟩ := h.mapped va (hA va hva).1 (hA va hva).2
  obtain ⟨e', he', rfl⟩ := physAt_eq_some.mp hphys
  rw [he, Option.some.injEq] at he'
  refine hnot ?_
  have hppn : e.ppn = p := by
    rw [he']
    omega
  exact hppn ▸ hp

theorem lookup_eq (h : UserRegion st.mem pt lo hi) (hA : ∀ va, A va → lo ≤ va ∧ va < hi)
    (hs : StoresAt pt A st st₁) (v : Nat) : pt.lookup st₁.mem v = pt.lookup st.mem v :=
  h.tree.lookup_congr (fun _ hp => h.sameFrame hA hs hp) v

theorem physAt_eq (h : UserRegion st.mem pt lo hi) (hA : ∀ va, A va → lo ≤ va ∧ va < hi)
    (hs : StoresAt pt A st st₁) (va : Nat) : physAt st₁.mem pt va = physAt st.mem pt va := by
  rw [physAt, physAt, h.lookup_eq hA hs]

theorem congr {m m' : Mem} (h : UserRegion m pt lo hi)
    (hm : ∀ p ∈ pt.frames, Mem.SameFrame m m' p) : UserRegion m' pt lo hi where
  tree := h.tree.congr hm
  root := h.root
  flat := h.flat
  le := h.le
  mapped va hlo hhi := by
    rw [h.tree.lookup_congr hm]
    exact h.mapped va hlo hhi
  own va hlo hhi v e e' hv he he' := by
    rw [h.tree.lookup_congr hm] at he he'
    exact h.own va hlo hhi v e e' hv he he'

theorem kept (h : UserRegion st.mem pt lo hi) (hA : ∀ va, A va → lo ≤ va ∧ va < hi)
    (hs : StoresAt pt A st st₁) : UserRegion st₁.mem pt lo hi :=
  h.congr fun _ hp => h.sameFrame hA hs hp

/-- Bytes at other addresses stay. -/
theorem byteAt_eq (h : UserRegion st.mem pt lo hi) (hA : ∀ va, A va → lo ≤ va ∧ va < hi)
    (hs : StoresAt pt A st st₁) {va : Nat} (hva : ∀ a, A a → a % 2 ^ 39 ≠ va % 2 ^ 39) :
    byteAt st₁.mem pt va = byteAt st.mem pt va := by
  rw [byteAt, byteAt, h.physAt_eq hA hs]
  cases hx : physAt st.mem pt va with
  | none => rfl
  | some x =>
      rw [Option.map_some, Option.map_some, Option.some.injEq]
      by_contra hne
      obtain ⟨a, ha, hphys⟩ := hs.only x hne
      exact hva a ha (h.phys_inj (hA a ha).1 (hA a ha).2 hphys hx).symm

theorem holdsAt_kept (h : UserRegion st.mem pt lo hi) (hA : ∀ va, A va → lo ≤ va ∧ va < hi)
    (hs : StoresAt pt A st st₁) {va : Nat} {bs : List UInt8} (hlo : lo ≤ va)
    (hhi : va + bs.length ≤ hi) (hva : ∀ a, A a → a < va ∨ va + bs.length ≤ a)
    (hold : HoldsAt st.mem pt va bs) : HoldsAt st₁.mem pt va bs := by
  intro j b hb
  have hj := (List.getElem?_eq_some_iff.mp hb).1
  rw [h.byteAt_eq hA hs fun a ha heq => ?_]
  · exact hold j b hb
  · have hin := hA a ha
    have := h.eq_of_mod (show lo ≤ va + j by omega) (by omega) hin.1 hin.2 heq
    have := hva a ha
    omega

end UserRegion

/-! ## StoresAt -/

namespace StoresAt

variable {st st₁ st₂ : MemState} {pt : PageTable} {lo hi : Nat} {A B : Nat → Prop}

theorem refl (st : MemState) : StoresAt pt A st st := ⟨rfl, fun _ hne => absurd rfl hne⟩

theorem weaken (h : StoresAt pt A st st₁) (hAB : ∀ va, A va → B va) : StoresAt pt B st st₁ where
  alloc := h.alloc
  only x hne := by
    obtain ⟨va, hva, hx⟩ := h.only x hne
    exact ⟨va, hAB va hva, hx⟩

theorem trans (hr : UserRegion st.mem pt lo hi) (hA : ∀ va, A va → lo ≤ va ∧ va < hi)
    (h : StoresAt pt A st st₁) (h' : StoresAt pt A st₁ st₂) : StoresAt pt A st st₂ where
  alloc := h'.alloc.trans h.alloc
  only x hne := by
    by_cases hx : st₁.mem x = st.mem x
    · rw [← hx] at hne
      obtain ⟨va, hva, hphys⟩ := h'.only x hne
      exact ⟨va, hva, hr.physAt_eq hA h va ▸ hphys⟩
    · exact h.only x hx

end StoresAt

/-! ## Writes through references -/

section Write

variable {st : MemState} {pt : PageTable} {lo hi : Nat} {E : MemPanic → Prop}

/-- A reference into the region is to where its address is mapped. -/
theorem refmut_region (h : UserRegion st.mem pt lo hi) {va : Nat} (hlo : lo ≤ va) (hhi : va < hi) :
    Meets E (refmut pt.token va) st fun pa st' => st' = st ∧ physAt st.mem pt va = some pa := by
  obtain ⟨e, he, hpos, -⟩ := h.mapped va hlo hhi
  have hpa : translatedRefmut st.mem pt.token va = some (e.ppn * 4096 + va % 4096) := by
    rw [translatedRefmut, translatedPtr_eq h.root, translate_of_lookup he]
    exact if_neg (by omega)
  simp only [refmut, Meets.bind_iff, Meets.get_iff]
  rw [hpa, Meets.unwrap_some]
  exact ⟨rfl, physAt_eq_some.mpr ⟨e, he, rfl⟩⟩

/-- A write inside of one page. -/
theorem writeAt_region (h : UserRegion st.mem pt lo hi) {va pa : Nat} (bs : List UInt8)
    (hlo : lo ≤ va) (hhi : va + bs.length ≤ hi) (hpage : va % 4096 + bs.length ≤ 4096)
    (hpa : physAt st.mem pt va = some pa) :
    Meets E (writeAt pa bs) st fun _ st' =>
      StoresAt pt (fun a => va ≤ a ∧ a < va + bs.length) st st' ∧ HoldsAt st'.mem pt va bs := by
  have hphys : ∀ j, j < bs.length → physAt st.mem pt (va + j) = some (pa + j) := by
    intro j hj
    obtain ⟨e, he, rfl⟩ := physAt_eq_some.mp hpa
    have hpg : pageOf (va + j) = pageOf va := by
      rw [pageOf_eq, pageOf_eq]
      omega
    exact physAt_eq_some.mpr ⟨e, hpg ▸ he, by omega⟩
  rw [writeAt, Meets.modify_iff]
  have hstores : StoresAt pt (fun a => va ≤ a ∧ a < va + bs.length) st
      { st with mem := st.mem.write pa bs } := by
    refine ⟨rfl, fun x hne => ?_⟩
    have hin : pa ≤ x ∧ x < pa + bs.length := by
      by_contra hout
      exact hne (Mem.write_outside _ (by omega))
    refine ⟨va + (x - pa), by omega, ?_⟩
    rw [hphys _ (by omega)]
    congr 1
    omega
  refine ⟨hstores, fun j b hb => ?_⟩
  have hj := (List.getElem?_eq_some_iff.mp hb).1
  rw [byteAt, h.physAt_eq (fun a ha => by omega) hstores, hphys j hj, Option.map_some]
  dsimp only
  rw [Mem.write_inside _ (by omega) (by omega), Nat.add_sub_cancel_left,
    List.getD_eq_getElem?_getD, hb, Option.getD_some]

end Write

end Nimloth
