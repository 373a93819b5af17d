import Mathlib.Tactic.Common
import Nimloth.ForkSpace
import Nimloth.UserSpace

/-!
# Typed access to user memory

`translated_ref` and `translated_refmut` of `os/src/mm/page_table.rs`.
They walk the page table of a token and turn the address they find into a
reference. Only the page of the first byte is translated; the rest of the
object is taken from the memory behind it, so the access is to the bytes
at the user's address only when these are contiguous.
-/

namespace Nimloth

open Outcome PageTable MemorySet

/-- The page of a user address. -/
def pageOf (va : Nat) : Nat := VirtAddr.floor (VirtAddr.from va)

theorem pageOf_eq (va : Nat) : pageOf va = va % 2 ^ 39 / 4096 := by
  simp only [pageOf, VirtAddr.floor, VirtAddr.from, Nat.and_two_pow_sub_one_eq_mod, PAGE_SIZE]

theorem pageOf_lt (va : Nat) : pageOf va < 2 ^ 27 := by
  rw [pageOf_eq]
  omega

/-! ## The code -/

/-- `translate_va(VirtAddr::from(va)).unwrap()` and the null check of `mut_ref` and `_ref`:
    where the reference points. -/
def translatedPtr (m : Mem) (token va : Nat) : Option Nat :=
  match (PageTable.fromToken token).translateVa m (VirtAddr.from va) with
  | none => none
  | some pa => if pa = 0 then none else some pa

def translatedRefmut (m : Mem) (token va : Nat) : Option Nat := translatedPtr m token va

def translatedRef (m : Mem) (token va : Nat) : Option Nat := translatedPtr m token va

/-- The walk from a token finds what the page table finds. -/
theorem translate_fromToken {pt : PageTable} (h : pt.rootPpn < 2 ^ 44) (m : Mem) (v : Nat) :
    (PageTable.fromToken pt.token).translate m v = pt.translate m v := by
  rw [translate_eq, translate_eq, fromToken_token h]

theorem translatedPtr_eq {pt : PageTable} (h : pt.rootPpn < 2 ^ 44) (m : Mem) (va : Nat) :
    translatedPtr m pt.token va = match pt.translate m (pageOf va) with
      | none => none
      | some e => if e.ppn = 0 ∧ va % 4096 = 0 then none else some (e.ppn * 4096 + va % 4096) := by
  have hoff : VirtAddr.from va % 4096 = va % 4096 := by
    simp only [VirtAddr.from, Nat.and_two_pow_sub_one_eq_mod]
    omega
  have hpage : VirtAddr.from va / 4096 = pageOf va := rfl
  unfold translatedPtr
  rw [translateVa_eq, hoff, hpage, translate_fromToken h]
  cases pt.translate m (pageOf va) with
  | none => rfl
  | some e =>
      simp only [Option.map_some]
      by_cases h0 : e.ppn = 0 ∧ va % 4096 = 0
      · rw [if_pos h0, if_pos (by omega)]
      · rw [if_neg h0, if_neg (by omega)]

theorem MemorySet.Ok.rootPpn_lt {tramp : Nat} {st : MemState} {ms : MemorySet}
    (h : ms.Ok tramp st) : ms.pageTable.rootPpn < 2 ^ 44 :=
  h.owns.lt_two_pow (List.mem_append_left _ (h.space.tree.mem [] _ isPath_nil rfl))

/-! ## Pages and frames -/

namespace MemorySet.UserOk

variable {tramp : Nat} {st : MemState} {ms : MemorySet}

/-- A mapped page is the trampoline or has a frame of its area. -/
theorem lookup_cases (h : ms.UserOk tramp st) (htramp : tramp < 2 ^ 44) {v : Nat}
    {e : PageTableEntry} (hv : v < 2 ^ 27) (he : ms.pageTable.lookup st.mem v = some e) :
    v = TRAMPOLINE_VPN ∧ e.ppn = tramp
      ∨ ∃ a ∈ ms.areas, (v, e.ppn) ∈ a.dataFrames := by
  have hne : ms.pageTable.lookup st.mem v ≠ none := by
    rw [he]
    exact Option.some_ne_none e
  rcases h.space.only v hv hne with heq | ⟨a, ha, hav⟩
  · rw [heq, h.space.trampoline] at he
    cases he
    exact Or.inl ⟨heq, PageTableEntry.ppn_new htramp _⟩
  · have hlt : ∀ p ∈ dataPpns ms.areas, p < 2 ^ 44 :=
      fun p hp => h.owns.lt_two_pow (List.mem_append_right _ hp)
    obtain ⟨p, e', hp, -, he', -, hppn⟩ := framed_page h.space ha (h.framed a ha) hav hlt
    rw [he] at he'
    cases he'
    exact Or.inr ⟨a, ha, hppn ▸ mem_of_lookup hp⟩

/-- A frame of an area belongs to one page. -/
theorem page_unique (h : ms.UserOk tramp st) {a b : MapArea} (ha : a ∈ ms.areas)
    (hb : b ∈ ms.areas) {v w n : Nat} (hv : (v, n) ∈ a.dataFrames) (hw : (w, n) ∈ b.dataFrames) :
    v = w := by
  have hnodup : ((ms.areas.flatMap MapArea.dataFrames).map Prod.snd).Nodup := by
    rw [List.map_flatMap]
    exact h.owns.right.nodup
  have hinj := List.inj_on_of_nodup_map hnodup (List.mem_flatMap.mpr ⟨a, ha, hv⟩)
    (List.mem_flatMap.mpr ⟨b, hb, hw⟩) rfl
  exact congrArg Prod.fst hinj

end MemorySet.UserOk

/-! ## Typed access -/

/-- The types that the system calls read and write through a reference. -/
inductive UserType where
  | i32
  | usize
  /-- `#[repr(C, align(16))]`, a `usize` and a `u32` -/
  | signalAction

/-- `size_of::<T>()`. -/
def UserType.size : UserType → Nat
  | .i32 => 4
  | .usize => 8
  | .signalAction => 16

/-- Where the page table maps the byte at `va`. -/
def physAt (m : Mem) (pt : PageTable) (va : Nat) : Option Nat :=
  (pt.lookup m (pageOf va)).map fun e => e.ppn * 4096 + va % 4096

/-- A write of `n` bytes through `translated_refmut` sets the bytes mapped at `va .. va + n` and
    no other, and a read through `translated_ref` returns them. -/
def ExactAccess (m : Mem) (pt : PageTable) (va n : Nat) : Prop :=
  (∃ pa, translatedRefmut m pt.token va = some pa
    ∧ ∀ bs : List UInt8, bs.length = n →
      (∀ j y, j < n → physAt m pt (va + j) = some y → m.write pa bs y = bs.getD j 0)
      ∧ ∀ x, (∀ j, j < n → physAt m pt (va + j) ≠ some x) → m.write pa bs x = m x)
  ∧ ∃ pa, translatedRef m pt.token va = some pa
    ∧ ∀ j y, j < n → physAt m pt (va + j) = some y → (m.read pa n).getD j 0 = m y

/-- The bytes lie in one page, or the next page has the next frame. -/
def Contiguous (m : Mem) (pt : PageTable) (va n : Nat) : Prop :=
  va % 4096 + n ≤ 4096 ∨ ∃ e e', pt.lookup m (pageOf va) = some e
    ∧ pt.lookup m (pageOf (va + n - 1)) = some e' ∧ e'.ppn = e.ppn + 1

section Typed

variable {tramp : Nat} {st : MemState} {ms : MemorySet} {va n : Nat}

/-- A page of a user space has a frame other than frame 0. -/
theorem ppn_pos (h : ms.UserOk tramp st) (htr : 0 < tramp) (htrlt : tramp < 2 ^ 44) {v : Nat}
    {e : PageTableEntry} (hv : v < 2 ^ 27) (he : ms.pageTable.lookup st.mem v = some e) :
    0 < e.ppn := by
  rcases h.lookup_cases htrlt hv he with ⟨-, heq⟩ | ⟨a, ha, hmem⟩
  · rwa [heq]
  · refine h.owns.pos _ (List.mem_append_right _ (List.mem_flatMap.mpr ⟨a, ha, ?_⟩))
    exact List.mem_map.mpr ⟨_, hmem, rfl⟩

/-- A byte of an object that lies in the page of the first one. -/
theorem pageOf_add_of_lt {j : Nat} (h : va % 4096 + j < 4096) :
    pageOf (va + j) = pageOf va ∧ (va + j) % 4096 = va % 4096 + j := by
  rw [pageOf_eq, pageOf_eq]
  omega

/-- A byte of an object that lies behind the page of the first one. -/
theorem pageOf_add_of_ge {j : Nat} (hge : 4096 ≤ va % 4096 + j) (hj : j < n) (hn : n ≤ 4096) :
    pageOf (va + j) = pageOf (va + n - 1) ∧ (va + j) % 4096 = va % 4096 + j - 4096 := by
  rw [pageOf_eq, pageOf_eq]
  omega

/-- The bytes mapped at `va .. va + n` are those from `pa` on. -/
theorem exactAccess_of_physAt {m : Mem} {pt : PageTable} {pa : Nat}
    (hpa : translatedPtr m pt.token va = some pa)
    (hphys : ∀ j, j < n → physAt m pt (va + j) = some (pa + j)) : ExactAccess m pt va n := by
  refine ⟨⟨pa, hpa, ?_⟩, pa, hpa, ?_⟩
  · intro bs hbs
    refine ⟨?_, ?_⟩
    · intro j y hj hy
      rw [hphys j hj] at hy
      cases hy
      rw [Mem.write_inside _ (by omega) (by omega), Nat.add_sub_cancel_left]
    · intro x hx
      refine Mem.write_outside _ ?_
      by_contra hin
      refine hx (x - pa) (by omega) ?_
      rw [hphys _ (by omega)]
      congr 1
      omega
  · intro j y hj hy
    rw [hphys j hj] at hy
    cases hy
    have hlen : j < (m.read pa n).length := by simpa using hj
    rw [List.getD_eq_getElem?_getD, List.getElem?_eq_getElem hlen, Option.getD_some,
      Mem.getElem_read]

/-- Where the first byte of the second page is written to is not mapped there. -/
theorem not_exactAccess {m : Mem} {pt : PageTable} {pa : Nat}
    (hpa : translatedPtr m pt.token va = some pa) {k : Nat} (hk : k < n)
    (hmiss : ∀ j, j < n → physAt m pt (va + j) ≠ some (pa + k)) : ¬ ExactAccess m pt va n := by
  rintro ⟨⟨pa', hpa', hwrite⟩, -⟩
  have hpp : pa' = pa := by
    have := hpa'.symm.trans hpa
    exact Option.some.inj this
  subst hpp
  have hsame := (hwrite (List.replicate n (m (pa' + k) + 1)) (by simp)).2 (pa' + k) hmiss
  rw [Mem.write_inside _ (by omega) (by simpa using hk), Nat.add_sub_cancel_left] at hsame
  rw [List.getD_eq_getElem?_getD, List.getElem?_replicate, if_pos hk, Option.getD_some] at hsame
  have hne : ∀ b : UInt8, b + 1 ≠ b := by
    intro b hb
    have := congrArg (· - b) hb
    simp only [UInt8.sub_self] at this
    rw [UInt8.add_comm, UInt8.add_sub_cancel] at this
    exact absurd this (by decide)
  exact hne _ hsame

theorem exactAccess_iff (h : ms.UserOk tramp st) (htr : 0 < tramp) (htrlt : tramp < 2 ^ 44)
    (hn : n ≤ 4096) (hpos : 0 < n)
    (hmapped : ∀ j, j < n → ms.pageTable.lookup st.mem (pageOf (va + j)) ≠ none) :
    ExactAccess st.mem ms.pageTable va n ↔ Contiguous st.mem ms.pageTable va n := by
  obtain ⟨e, he⟩ := Option.ne_none_iff_exists'.mp (hmapped 0 hpos)
  rw [Nat.add_zero] at he
  have hppn := ppn_pos h htr htrlt (pageOf_lt va) he
  have hpa : translatedPtr st.mem ms.pageTable.token va = some (e.ppn * 4096 + va % 4096) := by
    rw [translatedPtr_eq h.rootPpn_lt, translate_of_lookup he]
    exact if_neg (by omega)
  have hfirst : ∀ j, va % 4096 + j < 4096 →
      physAt st.mem ms.pageTable (va + j) = some (e.ppn * 4096 + va % 4096 + j) := by
    intro j hj
    obtain ⟨hpage, hoff⟩ := pageOf_add_of_lt hj
    rw [physAt, hpage, he, hoff, Option.map_some, Nat.add_assoc]
  by_cases hin : va % 4096 + n ≤ 4096
  · refine iff_of_true (exactAccess_of_physAt hpa fun j hj => hfirst j (by omega)) (Or.inl hin)
  · obtain ⟨e', he'⟩ := Option.ne_none_iff_exists'.mp (hmapped (n - 1) (by omega))
    rw [← Nat.add_sub_assoc hpos] at he'
    have hsecond : ∀ j, 4096 ≤ va % 4096 + j → j < n →
        physAt st.mem ms.pageTable (va + j) = some (e'.ppn * 4096 + (va % 4096 + j - 4096)) := by
      intro j hge hj
      obtain ⟨hpage, hoff⟩ := pageOf_add_of_ge hge hj hn
      rw [physAt, hpage, he', hoff, Option.map_some]
    by_cases hnext : e'.ppn = e.ppn + 1
    · refine iff_of_true (exactAccess_of_physAt hpa ?_) (Or.inr ⟨e, e', he, he', hnext⟩)
      intro j hj
      by_cases hj' : va % 4096 + j < 4096
      · exact hfirst j hj'
      · have hsum : (e.ppn + 1) * 4096 + (va % 4096 + j - 4096) = e.ppn * 4096 + va % 4096 + j := by
          omega
        rw [hsecond j (by omega) hj, hnext, hsum]
    · refine iff_of_false (not_exactAccess hpa (k := 4096 - va % 4096) (by omega) ?_) ?_
      · intro j hj
        by_cases hj' : va % 4096 + j < 4096
        · rw [hfirst j hj']
          intro heq
          have := Option.some.inj heq
          omega
        · rw [hsecond j (by omega) hj]
          intro heq
          have := Option.some.inj heq
          omega
      · rintro (hle | ⟨e₁, e₂, h₁, h₂, hadj⟩)
        · exact hin hle
        · rw [he] at h₁
          rw [he'] at h₂
          cases h₁
          cases h₂
          exact hnext hadj

/-- A typed access is to the bytes at the user's address if and only if these are contiguous in
    physical memory. -/
theorem typed_access_exact (img : KernelImage) (h : ms.UserOk img.trampoline st) (T : UserType)
    (va : Nat)
    (hmapped : ∀ j, j < T.size → ms.pageTable.lookup st.mem (pageOf (va + j)) ≠ none) :
    ExactAccess st.mem ms.pageTable va T.size ↔ Contiguous st.mem ms.pageTable va T.size := by
  have hsize : T.size ≤ 4096 ∧ 0 < T.size := by
    cases T with
    | i32 => decide
    | usize => decide
    | signalAction => decide
  exact exactAccess_iff h img.trampoline_pos img.trampoline_lt_two_pow hsize.1 hsize.2 hmapped

/-- An allocator with every second frame of a range left. -/
def scattered : StackFrameAllocator :=
  ⟨0x81000, 0x81000, (List.range 16).map fun i => 0x80800 + 2 * i⟩

theorem wf_scattered : scattered.Wf where
  nodup := by decide
  recycled := by decide
  current := by decide
  le := by decide
  bound := by decide

theorem even_of_free_scattered {p : Nat} (h : scattered.Free p) : p % 2 = 0 := by
  have hall : ∀ p ∈ scattered.recycled, p % 2 = 0 := by decide
  rcases h with h | ⟨hge, hlt⟩
  · exact hall p h
  · exact absurd hlt (Nat.not_lt_of_le hge)

/-- A program without segments, in frames that are not adjacent. -/
theorem exists_scattered_program : ∃ r st,
    fromElf default ⟨[], [], 0⟩ ⟨fun _ => 0, scattered⟩ = .ok (r, st)
      ∧ r.1.UserOk (KernelImage.trampoline default) st ∧ HasTrapContext r.1
      ∧ KernelImage.trampoline default ∉ r.1.frames
      ∧ (∃ a ∈ r.1.areas, a.Has 1 ∧ a.mapPerm = PTEFlags.R ||| PTEFlags.W ||| PTEFlags.U)
      ∧ ∃ e e', r.1.pageTable.lookup st.mem 1 = some e ∧ r.1.pageTable.lookup st.mem 2 = some e'
        ∧ e'.ppn ≠ e.ppn + 1 := by
  have hmeets := @fromElf_no_segments default ⟨fun _ => 0, scattered⟩ ⟨[], [], 0⟩ wf_scattered rfl
    (by decide)
  obtain ⟨r, st, hrun, hok, htrap, hm, -, a, ha, h₁, h₂, hperm⟩ := hmeets.exists_ok
  have hframe : ∀ v, a.Has v →
      ∃ e, r.1.pageTable.lookup st.mem v = some e ∧ e.ppn % 2 = 0 := by
    intro v hv
    obtain ⟨p, -, hp, hentry⟩ := (hok.space.ok a ha).exists_frame (hok.framed a ha) hv
    have hmem : p ∈ r.1.frames := List.mem_append_right _ (List.mem_flatMap.mpr ⟨a, ha, hp⟩)
    refine ⟨_, (hok.space.own a ha v hv).trans hentry, ?_⟩
    rw [PageTableEntry.ppn_new (hok.owns.lt_two_pow hmem)]
    exact even_of_free_scattered (hm.was_free hmem List.not_mem_nil)
  obtain ⟨e, he, heven⟩ := hframe 1 h₁
  obtain ⟨e', he', heven'⟩ := hframe 2 h₂
  have htramp : KernelImage.trampoline default ∉ r.1.frames := fun hmem =>
    absurd (even_of_free_scattered (hm.was_free hmem List.not_mem_nil)) (by decide)
  exact ⟨r, st, hrun, hok, htrap, htramp, ⟨a, ha, h₁, hperm⟩, e, e', he, he', by omega⟩

/-- An `i32` at the start of the stack. -/
theorem typed_access_exact_stack :
    ∃ ms st, MemorySet.UserOk (KernelImage.trampoline default) st ms
      ∧ ExactAccess st.mem ms.pageTable 0x1000 4 := by
  obtain ⟨r, st, -, hok, -, -, -, e, e', he, -, -⟩ := exists_scattered_program
  refine ⟨r.1, st, hok, ?_⟩
  refine (typed_access_exact default hok .i32 0x1000 ?_).mpr (Or.inl (by decide))
  intro j hj
  have hpage : pageOf (0x1000 + j) = 1 := by
    simp only [UserType.size] at hj
    rw [pageOf_eq]
    omega
  rw [hpage, he]
  exact Option.some_ne_none e

/-- An `i32` whose last two bytes are on the second page of the stack: the write goes to another
    frame. -/
theorem typed_access_crosses :
    ∃ r st, fromElf default ⟨[], [], 0⟩ ⟨fun _ => 0, scattered⟩ = .ok (r, st)
      ∧ (∀ j, j < UserType.i32.size → r.1.pageTable.lookup st.mem (pageOf (0x1ffe + j)) ≠ none)
      ∧ ¬ ExactAccess st.mem r.1.pageTable 0x1ffe UserType.i32.size := by
  obtain ⟨r, st, hrun, hok, -, -, -, e, e', he, he', hne⟩ := exists_scattered_program
  have hmapped : ∀ j, j < UserType.i32.size →
      r.1.pageTable.lookup st.mem (pageOf (0x1ffe + j)) ≠ none := by
    intro j hj
    simp only [UserType.size] at hj
    have hpage : pageOf (0x1ffe + j) = 1 ∨ pageOf (0x1ffe + j) = 2 := by
      rw [pageOf_eq]
      omega
    rcases hpage with hpage | hpage
    · rw [hpage, he]
      exact Option.some_ne_none e
    · rw [hpage, he']
      exact Option.some_ne_none e'
  refine ⟨r, st, hrun, hmapped, ?_⟩
  rw [exactAccess_iff hok (KernelImage.trampoline_pos _) (KernelImage.trampoline_lt_two_pow _)
    (by decide) (by decide) hmapped]
  have h1 : pageOf 0x1ffe = 1 := by decide
  have h2 : pageOf (0x1ffe + UserType.i32.size - 1) = 2 := by decide
  rintro (hle | ⟨e₁, e₂, h₁, h₂, hadj⟩)
  · exact absurd hle (by decide)
  · rw [h1, he] at h₁
    rw [h2, he'] at h₂
    cases h₁
    cases h₂
    exact hne hadj

end Typed

end Nimloth
