import Nimloth.Growth
import Nimloth.UserAccess

/-!
# Pages handed to the kernel

`translated_byte_buffer`, `translated_str`, `translated_ref` and
`translated_refmut` take the frame of the leaf entry they find and never
look at its flags, not even at `V`: all they check is that the tables on
the way exist. An object that crosses the end of its page goes on in the
frame behind, whatever this belongs to. A call is `Confined` if it gets
through and hands the kernel no frame but those that the program itself
may access; `UserAccess.Within` is the condition on the pointer.

The addresses of a byte buffer are walked in `usize`, so an odd pointer
may make the loop skip pages or never end. `bufferSpans` is that walk
without the page table; loops are bounded by a fuel and return when some
amount of it suffices.
-/

namespace Nimloth

open Outcome PageTable MemorySet

/-! ## The code -/

/-- A part of the buffer: bytes `lo .. hi` of frame `ppn`, found for page `vpn`. -/
structure BufferSlice where
  vpn : Nat
  ppn : Nat
  lo : Nat
  hi : Nat

/-- `end_va` of one turn of the loop. -/
def bufferEnd (end_ start : Nat) : Nat :=
  min (VirtAddr.ofVpn (pageOf start + 1)) (VirtAddr.from end_)

/-- The offset where the slice of one turn ends; `none` is the panic of the slice. -/
def sliceEnd (end_ start : Nat) : Option Nat :=
  let offset := bufferEnd end_ start % PAGE_SIZE
  if offset = 0 then some PAGE_SIZE
  else if VirtAddr.from start % PAGE_SIZE ≤ offset then some offset
  else none

/-- The loop of `translated_byte_buffer`. -/
def bufferLoop (m : Mem) (pt : PageTable) (end_ : Nat) : Nat → Nat → Option (List BufferSlice)
  | 0, _ => none
  | fuel + 1, start =>
      if start < end_ then do
        let pte ← pt.translate m (pageOf start)
        let hi ← sliceEnd end_ start
        let rest ← bufferLoop m pt end_ fuel (VirtAddr.toUsize (bufferEnd end_ start))
        pure (⟨pageOf start, pte.ppn, VirtAddr.from start % PAGE_SIZE, hi⟩ :: rest)
      else pure []

def translatedByteBuffer (fuel : Nat) (m : Mem) (token ptr len : Nat) :
    Option (List BufferSlice) :=
  bufferLoop m (PageTable.fromToken token) ((ptr + len) % 2 ^ 64) fuel ptr

/-- The loop of `translated_str`: the pages read from, and the string if its end is found. -/
def strLoop (m : Mem) (token : Nat) : Nat → Nat → List Nat × Option (List UInt8)
  | 0, _ => ([], none)
  | fuel + 1, va =>
      match translatedPtr m token va with
      | none => ([], none)
      | some pa =>
          if m pa = 0 then ([pageOf va], some [])
          else
            let (pages, s) := strLoop m token fuel ((va + 1) % 2 ^ 64)
            (pageOf va :: pages, s.map (m pa :: ·))

/-- The length of the `String` to which the bytes are pushed as characters: from 128 on a character
    takes two. -/
def pushedLength (bs : List UInt8) : Nat := bs.length + bs.countP (¬ · < 128)

/-! ## Accesses -/

/-- The frames that the bytes of an object at `pa` lie in. -/
def UserType.frames (T : UserType) (pa : Nat) : List Nat :=
  (List.range T.size).map fun j => (pa + j) / PAGE_SIZE

/-- A use of user memory by a system call; `writes` says that the kernel writes through it. -/
inductive UserAccess where
  | byteBuffer (ptr len : Nat) (writes : Bool)
  | str (ptr : Nat)
  | ref (T : UserType) (ptr : Nat)
  | refmut (T : UserType) (ptr : Nat)

def UserAccess.writes : UserAccess → Bool
  | .byteBuffer _ _ w => w
  | .str _ | .ref _ _ => false
  | .refmut _ _ => true

/-- The frames of which the kernel is handed bytes; `none` is a panic. The vector of slices, of 16
    bytes each, and the string get their buffers from a heap with those of the sizes in `heap`. -/
def UserAccess.frames (heap : Nat → Bool) (fuel : Nat) (m : Mem) (pt : PageTable) :
    UserAccess → Option (List Nat)
  | .byteBuffer ptr len _ =>
      ((translatedByteBuffer fuel m pt.token ptr len).filter fun slices =>
        HasRoom heap (vecBuffers 16 slices.length)).map fun slices => slices.map (·.ppn)
  | .str ptr =>
      ((strLoop m pt.token fuel ptr).2.filter fun bs =>
        HasRoom heap (stringBuffers (pushedLength bs))).map fun _ =>
          (strLoop m pt.token fuel ptr).1.filterMap fun v => (pt.translate m v).map (·.ppn)
  | .ref T ptr => (translatedRef m pt.token ptr).map T.frames
  | .refmut T ptr => (translatedRefmut m pt.token ptr).map T.frames

/-- The page is mapped for the user, and writable where the kernel writes. -/
def Permitted (m : Mem) (pt : PageTable) (v : Nat) (writes : Bool) : Prop :=
  ∃ e, pt.lookup m v = some e ∧ e.flags.has PTEFlags.U = true
    ∧ (writes = true → e.flags.has PTEFlags.W = true)

/-- The frame belongs to such a page. -/
def Allowed (m : Mem) (pt : PageTable) (n : Nat) (writes : Bool) : Prop :=
  ∃ v e, v < 2 ^ 27 ∧ pt.lookup m v = some e ∧ e.ppn = n ∧ Permitted m pt v writes

/-- The call gets through, and hands the kernel what the program may access and nothing else. -/
def UserAccess.Confined (heap : Nat → Bool) (m : Mem) (pt : PageTable) (c : UserAccess) : Prop :=
  ∃ fuel ns, c.frames heap fuel m pt = some ns ∧ ∀ n ∈ ns, Allowed m pt n c.writes

/-! ## The condition -/

/-- The pages of a buffer, from the addresses alone. -/
def bufferSpans (end_ : Nat) : Nat → Nat → Option (List Nat)
  | 0, _ => none
  | fuel + 1, start =>
      if start < end_ then do
        let _ ← sliceEnd end_ start
        let rest ← bufferSpans end_ fuel (VirtAddr.toUsize (bufferEnd end_ start))
        pure (pageOf start :: rest)
      else pure []

/-- The physical address of the leaf entry for `va`, valid or not. -/
def leafAddr (m : Mem) (pt : PageTable) (va : Nat) : Option Nat :=
  (pt.translate m (pageOf va)).map fun e => e.ppn * 4096 + va % 4096

/-- The `k` bytes from `ptr` on. -/
def bytesFrom (m : Mem) (pt : PageTable) (ptr k : Nat) : List UInt8 :=
  (List.range k).map fun i => ((leafAddr m pt (ptr + i)).map m).getD 0

/-- The leaf entry of `va` leads to an address other than null. -/
def Reaches (m : Mem) (pt : PageTable) (va : Nat) : Prop :=
  ∃ pa, leafAddr m pt va = some pa ∧ pa ≠ 0

/-- The page of the pointer is permitted, and for an object that crosses its end so is the page
    that the next frame belongs to. -/
def ObjectWithin (m : Mem) (pt : PageTable) (T : UserType) (ptr : Nat) (writes : Bool) : Prop :=
  Permitted m pt (pageOf ptr) writes
    ∧ ∀ e, PAGE_SIZE < ptr % PAGE_SIZE + T.size → pt.lookup m (pageOf ptr) = some e →
      Allowed m pt (e.ppn + 1) writes

/-- The pages of the range, of a string up to its end, are permitted, and the heap has room for the
    slices or the string. -/
def UserAccess.Within (heap : Nat → Bool) (m : Mem) (pt : PageTable) (c : UserAccess) : Prop :=
  match c with
  | .byteBuffer ptr len w => ∃ fuel vs, bufferSpans ((ptr + len) % 2 ^ 64) fuel ptr = some vs
      ∧ HasRoom heap (vecBuffers 16 vs.length) ∧ ∀ v ∈ vs, Permitted m pt v w
  | .str ptr => ∃ k, (∀ i, i ≤ k → Permitted m pt (pageOf (ptr + i)) false)
      ∧ (∀ i pa, i < k → leafAddr m pt (ptr + i) = some pa → m pa ≠ 0)
      ∧ (∀ pa, leafAddr m pt (ptr + k) = some pa → m pa = 0)
      ∧ HasRoom heap (stringBuffers (pushedLength (bytesFrom m pt ptr k)))
  | .ref T ptr => ObjectWithin m pt T ptr false
  | .refmut T ptr => ObjectWithin m pt T ptr true

/-! ## Pages of a buffer -/

/-- The loop returns just when every page of the walk has a leaf table. -/
theorem bufferLoop_iff (m : Mem) (pt : PageTable) (end_ fuel start : Nat) (vs : List Nat) :
    (∃ slices, bufferLoop m pt end_ fuel start = some slices ∧ slices.map (·.vpn) = vs)
      ↔ bufferSpans end_ fuel start = some vs ∧ ∀ v ∈ vs, pt.translate m v ≠ none := by
  induction fuel generalizing start vs with
  | zero => simp [bufferLoop, bufferSpans]
  | succ fuel ih =>
      rw [bufferLoop, bufferSpans]
      by_cases hlt : start < end_
      · rw [if_pos hlt, if_pos hlt]
        cases hs : sliceEnd end_ start with
        | none => simp
        | some hi =>
            have ih' := ih (VirtAddr.toUsize (bufferEnd end_ start))
            constructor
            · rintro ⟨slices, hloop, rfl⟩
              obtain ⟨pte, hpte, hloop⟩ := Option.bind_eq_some_iff.mp hloop
              obtain ⟨hi', hhi, hloop⟩ := Option.bind_eq_some_iff.mp hloop
              obtain ⟨rest, hrest, heq⟩ := Option.bind_eq_some_iff.mp hloop
              obtain ⟨hspans, htables⟩ := (ih' _).mp ⟨rest, hrest, rfl⟩
              cases heq
              refine ⟨?_, ?_⟩
              · show (bufferSpans end_ fuel _).bind _ = _
                rw [hspans]
                rfl
              · intro v hv
                rcases List.mem_cons.mp hv with rfl | hv
                · rw [hpte]
                  exact Option.some_ne_none pte
                · exact htables v hv
            · rintro ⟨hspans, htables⟩
              obtain ⟨hi', hhi, hspans⟩ := Option.bind_eq_some_iff.mp hspans
              obtain ⟨ws, hws, heq⟩ := Option.bind_eq_some_iff.mp hspans
              cases heq
              obtain ⟨pte, hpte⟩ :=
                Option.ne_none_iff_exists'.mp (htables _ List.mem_cons_self)
              obtain ⟨rest, hrest, rfl⟩ := (ih' ws).mpr
                ⟨hws, fun v hv => htables v (List.mem_cons_of_mem _ hv)⟩
              refine ⟨⟨pageOf start, pte.ppn, VirtAddr.from start % PAGE_SIZE, hi⟩ :: rest, ?_, rfl⟩
              rw [hpte, hrest]
              rfl
      · rw [if_neg hlt, if_neg hlt]
        constructor
        · rintro ⟨slices, heq, rfl⟩
          cases heq
          exact ⟨rfl, fun v hv => absurd hv List.not_mem_nil⟩
        · rintro ⟨heq, -⟩
          cases heq
          exact ⟨[], rfl, rfl⟩

theorem bufferLoop_fromToken {pt : PageTable} (h : pt.rootPpn < 2 ^ 44) (m : Mem)
    (end_ fuel start : Nat) :
    bufferLoop m (PageTable.fromToken pt.token) end_ fuel start
      = bufferLoop m pt end_ fuel start := by
  induction fuel generalizing start with
  | zero => rfl
  | succ fuel ih => rw [bufferLoop, bufferLoop, translate_fromToken h, ih]

/-- A slice lies in the frame of its page. -/
theorem bufferLoop_ppn {m : Mem} {pt : PageTable} {end_ fuel start : Nat}
    {slices : List BufferSlice} (h : bufferLoop m pt end_ fuel start = some slices) :
    ∀ b ∈ slices, ∃ e, pt.translate m b.vpn = some e ∧ e.ppn = b.ppn ∧ b.vpn < 2 ^ 27 := by
  induction fuel generalizing start slices with
  | zero => cases h
  | succ fuel ih =>
      rw [bufferLoop] at h
      by_cases hlt : start < end_
      · rw [if_pos hlt] at h
        obtain ⟨pte, hpte, h⟩ := Option.bind_eq_some_iff.mp h
        obtain ⟨hi, -, h⟩ := Option.bind_eq_some_iff.mp h
        obtain ⟨rest, hrest, heq⟩ := Option.bind_eq_some_iff.mp h
        cases heq
        intro b hb
        rcases List.mem_cons.mp hb with rfl | hb
        · exact ⟨pte, hpte, rfl, pageOf_lt start⟩
        · exact ih hrest b hb
      · rw [if_neg hlt] at h
        cases h
        exact fun b hb => absurd hb List.not_mem_nil

/-! ## Pages of a string -/

theorem translatedPtr_eq_some {pt : PageTable} (h : pt.rootPpn < 2 ^ 44) {m : Mem} {va pa : Nat} :
    translatedPtr m pt.token va = some pa ↔ leafAddr m pt va = some pa ∧ pa ≠ 0 := by
  rw [translatedPtr_eq h, leafAddr]
  cases pt.translate m (pageOf va) with
  | none => simp
  | some e =>
      simp only [Option.map_some, Option.some.injEq]
      by_cases h0 : e.ppn = 0 ∧ va % 4096 = 0
      · rw [if_pos h0]
        constructor
        · intro heq
          cases heq
        · rintro ⟨rfl, hne⟩
          omega
      · rw [if_neg h0, Option.some.injEq]
        constructor
        · rintro rfl
          exact ⟨rfl, by omega⟩
        · exact fun heq => heq.1

/-- Addresses are taken modulo the size of `usize`. -/
theorem leafAddr_mod (m : Mem) (pt : PageTable) (va : Nat) :
    leafAddr m pt (va % 2 ^ 64) = leafAddr m pt va ∧ pageOf (va % 2 ^ 64) = pageOf va := by
  have hpage : pageOf (va % 2 ^ 64) = pageOf va := by
    rw [pageOf_eq, pageOf_eq]
    omega
  have hoff : va % 2 ^ 64 % 4096 = va % 4096 := by omega
  exact ⟨by rw [leafAddr, leafAddr, hpage, hoff], hpage⟩

theorem leafAddr_succ (m : Mem) (pt : PageTable) (ptr i : Nat) :
    leafAddr m pt ((ptr + 1) % 2 ^ 64 + i) = leafAddr m pt (ptr + (i + 1))
      ∧ pageOf ((ptr + 1) % 2 ^ 64 + i) = pageOf (ptr + (i + 1)) := by
  have h₁ := leafAddr_mod m pt ((ptr + 1) % 2 ^ 64 + i)
  have h₂ := leafAddr_mod m pt (ptr + (i + 1))
  have heq : ((ptr + 1) % 2 ^ 64 + i) % 2 ^ 64 = (ptr + (i + 1)) % 2 ^ 64 := by omega
  rw [heq] at h₁
  exact ⟨h₁.1.symm.trans h₂.1, h₁.2.symm.trans h₂.2⟩

theorem bytesFrom_succ (m : Mem) (pt : PageTable) (ptr k : Nat) :
    bytesFrom m pt ptr (k + 1)
      = ((leafAddr m pt ptr).map m).getD 0 :: bytesFrom m pt ((ptr + 1) % 2 ^ 64) k := by
  rw [bytesFrom, List.range_succ_eq_map, List.map_cons, List.map_map, Nat.add_zero]
  refine congrArg (List.cons _) (List.map_congr_left fun i _ => ?_)
  rw [Function.comp_apply, (leafAddr_succ m pt ptr i).1]

/-- The string at `ptr` ends after `k` bytes, all of them reached. -/
structure StringAt (m : Mem) (pt : PageTable) (ptr k : Nat) : Prop where
  reaches : ∀ i, i ≤ k → Reaches m pt (ptr + i)
  nonzero : ∀ i pa, i < k → leafAddr m pt (ptr + i) = some pa → m pa ≠ 0
  zero : ∀ pa, leafAddr m pt (ptr + k) = some pa → m pa = 0

/-- A byte other than zero, and the string behind it. -/
theorem StringAt.cons {m : Mem} {pt : PageTable} {ptr k pa : Nat}
    (hpa : leafAddr m pt ptr = some pa) (hne : pa ≠ 0) (hz : m pa ≠ 0)
    (h : StringAt m pt ((ptr + 1) % 2 ^ 64) k) : StringAt m pt ptr (k + 1) := by
  have hshift := leafAddr_succ m pt ptr
  refine ⟨?_, ?_, ?_⟩
  · intro i hi
    cases i with
    | zero => exact ⟨pa, hpa, hne⟩
    | succ i =>
        obtain ⟨pa', hpa', hne'⟩ := h.reaches i (by omega)
        exact ⟨pa', (hshift i).1 ▸ hpa', hne'⟩
  · intro i pa' hi hpa'
    cases i with
    | zero =>
        cases hpa.symm.trans hpa'
        exact hz
    | succ i => exact h.nonzero i pa' (by omega) ((hshift i).1.trans hpa')
  · exact fun pa' hpa' => h.zero pa' ((hshift k).1.trans hpa')

theorem StringAt.tail {m : Mem} {pt : PageTable} {ptr k : Nat} (h : StringAt m pt ptr (k + 1)) :
    StringAt m pt ((ptr + 1) % 2 ^ 64) k := by
  have hshift := leafAddr_succ m pt ptr
  refine ⟨?_, ?_, ?_⟩
  · intro i hi
    obtain ⟨pa, hpa, hne⟩ := h.reaches (i + 1) (by omega)
    exact ⟨pa, (hshift i).1.trans hpa, hne⟩
  · exact fun i pa hi hpa => h.nonzero (i + 1) pa (by omega) ((hshift i).1.symm.trans hpa)
  · exact fun pa hpa => h.zero pa ((hshift k).1.symm.trans hpa)

/-- The loop returns if there is a string, and reads its bytes from their pages. -/
theorem strLoop_iff {pt : PageTable} (h : pt.rootPpn < 2 ^ 44) (m : Mem) (ptr : Nat)
    (pages : List Nat) (bs : List UInt8) :
    (∃ fuel, strLoop m pt.token fuel ptr = (pages, some bs))
      ↔ ∃ k, pages = (List.range (k + 1)).map (fun i => pageOf (ptr + i))
        ∧ bs = bytesFrom m pt ptr k ∧ StringAt m pt ptr k := by
  have hcons : ∀ ptr k, (List.range (k + 2)).map (fun i => pageOf (ptr + i))
      = pageOf ptr :: (List.range (k + 1)).map fun i => pageOf ((ptr + 1) % 2 ^ 64 + i) := by
    intro ptr k
    rw [List.range_succ_eq_map, List.map_cons, List.map_map, Nat.add_zero]
    congr 1
    exact List.map_congr_left fun i _ => (leafAddr_succ m pt ptr i).2.symm
  constructor
  · rintro ⟨fuel, hloop⟩
    induction fuel generalizing ptr pages bs with
    | zero => cases hloop
    | succ fuel ih =>
        rw [strLoop] at hloop
        cases hpa : translatedPtr m pt.token ptr with
        | none =>
            rw [hpa] at hloop
            cases hloop
        | some pa =>
            rw [hpa] at hloop
            obtain ⟨hleaf, hne⟩ := (translatedPtr_eq_some h).mp hpa
            dsimp only at hloop
            by_cases hz : m pa = 0
            · rw [if_pos hz] at hloop
              cases hloop
              refine ⟨0, rfl, rfl, ?_, fun i pa hi => absurd hi (Nat.not_lt_zero i), ?_⟩
              · intro i hi
                obtain rfl : i = 0 := by omega
                exact ⟨pa, hleaf, hne⟩
              · intro pa' hpa'
                cases hleaf.symm.trans hpa'
                exact hz
            · rw [if_neg hz] at hloop
              cases hrest : strLoop m pt.token fuel ((ptr + 1) % 2 ^ 64) with
              | mk pages' s' =>
                  rw [hrest] at hloop
                  cases s' with
                  | none => cases hloop
                  | some s' =>
                      cases hloop
                      obtain ⟨k, rfl, rfl, hk⟩ := ih _ _ _ hrest
                      refine ⟨k + 1, (hcons ptr k).symm, ?_, hk.cons hleaf hne hz⟩
                      rw [bytesFrom_succ, hleaf]
                      rfl
  · rintro ⟨k, rfl, rfl, hk⟩
    induction k generalizing ptr with
    | zero =>
        obtain ⟨pa, hpa, hne⟩ := hk.reaches 0 (Nat.le_refl _)
        have hz := hk.zero pa hpa
        rw [Nat.add_zero] at hpa
        refine ⟨1, ?_⟩
        rw [strLoop, (translatedPtr_eq_some h).mpr ⟨hpa, hne⟩]
        dsimp only
        rw [if_pos hz]
        rfl
    | succ k ih =>
        obtain ⟨pa, hpa, hne⟩ := hk.reaches 0 (Nat.zero_le _)
        have hz := hk.nonzero 0 pa (Nat.zero_lt_succ k) hpa
        rw [Nat.add_zero] at hpa
        obtain ⟨fuel, hf⟩ := ih ((ptr + 1) % 2 ^ 64) hk.tail
        refine ⟨fuel + 1, ?_⟩
        rw [strLoop, (translatedPtr_eq_some h).mpr ⟨hpa, hne⟩, bytesFrom_succ, hpa]
        dsimp only
        rw [if_neg hz, hf, hcons]
        rfl

/-! ## User frames only -/

section Frames

variable {tramp : Nat} {st : MemState} {ms : MemorySet}

/-- The frame of a leaf entry belongs to no page but that of the entry. -/
theorem allowed_iff (h : ms.UserOk tramp st) (hpos : 0 < tramp) (hlt : tramp < 2 ^ 44)
    (hnot : tramp ∉ ms.frames) {v : Nat} {e : PageTableEntry} (hv : v < 2 ^ 27)
    (he : ms.pageTable.translate st.mem v = some e) (w : Bool) :
    Allowed st.mem ms.pageTable e.ppn w ↔ Permitted st.mem ms.pageTable v w := by
  have htramp : ∀ {u : Nat} {a : MapArea}, a ∈ ms.areas → (u, tramp) ∉ a.dataFrames :=
    fun ha hu => hnot (List.mem_append_right _
      (List.mem_flatMap.mpr ⟨_, ha, List.mem_map.mpr ⟨_, hu, rfl⟩⟩))
  constructor
  · rintro ⟨u, e', hu, he', hppn, hperm⟩
    rcases h.space.tree.translate_cases he with hlook | rfl
    · have heq : v = u := by
        have hcases := h.lookup_cases hlt hu he'
        rw [hppn] at hcases
        rcases h.lookup_cases hlt hv hlook with ⟨rfl, hvt⟩ | ⟨a, ha, hva⟩
        · rcases hcases with ⟨rfl, -⟩ | ⟨b, hb, hub⟩
          · rfl
          · exact absurd (hvt ▸ hub) (htramp hb)
        · rcases hcases with ⟨-, hut⟩ | ⟨b, hb, hub⟩
          · exact absurd (hut ▸ hva) (htramp ha)
          · exact h.page_unique ha hb hva hub
      rwa [heq]
    · have := ppn_pos h hpos hlt hu he'
      rw [hppn] at this
      exact absurd this (by decide)
  · rintro ⟨e', he', hperm⟩
    cases he.symm.trans (translate_of_lookup he')
    exact ⟨v, e, hv, he', rfl, e, he', hperm⟩

/-- An object lies in the frame of its first byte, and in the next one if it crosses the end of
    the page. -/
theorem mem_frames_iff (T : UserType) {p k n : Nat} (hk : k < 4096) :
    n ∈ T.frames (p * 4096 + k) ↔ n = p ∨ 4096 < k + T.size ∧ n = p + 1 := by
  have hsize : 0 < T.size ∧ T.size ≤ 16 := by
    cases T <;> decide
  have hdiv : ∀ j, j < T.size → (p * 4096 + k + j) / 4096 = if k + j < 4096 then p else p + 1 := by
    intro j hj
    split <;> omega
  simp only [UserType.frames, PAGE_SIZE, List.mem_map, List.mem_range]
  constructor
  · rintro ⟨j, hj, rfl⟩
    rw [hdiv j hj]
    split
    · exact Or.inl rfl
    · exact Or.inr ⟨by omega, rfl⟩
  · rintro (rfl | ⟨hcross, rfl⟩)
    · exact ⟨0, hsize.1, by rw [hdiv 0 hsize.1, if_pos (by omega)]⟩
    · exact ⟨T.size - 1, by omega, by rw [hdiv _ (by omega), if_neg (by omega)]⟩

theorem object_confined_iff (h : ms.UserOk tramp st) (hpos : 0 < tramp) (hlt : tramp < 2 ^ 44)
    (hnot : tramp ∉ ms.frames) (T : UserType) (ptr : Nat) (w : Bool) :
    (∃ ns, (translatedPtr st.mem ms.pageTable.token ptr).map T.frames = some ns
        ∧ ∀ n ∈ ns, Allowed st.mem ms.pageTable n w)
      ↔ ObjectWithin st.mem ms.pageTable T ptr w := by
  have hoff : ptr % 4096 < 4096 := Nat.mod_lt _ (by decide)
  constructor
  · rintro ⟨ns, hns, hall⟩
    obtain ⟨pa, hpa, rfl⟩ := Option.map_eq_some_iff.mp hns
    obtain ⟨hleaf, -⟩ := (translatedPtr_eq_some h.rootPpn_lt).mp hpa
    obtain ⟨e, he, rfl⟩ := Option.map_eq_some_iff.mp hleaf
    simp only [mem_frames_iff T hoff] at hall
    refine ⟨(allowed_iff h hpos hlt hnot (pageOf_lt ptr) he w).mp (hall _ (Or.inl rfl)), ?_⟩
    intro e' hcross he'
    cases he.symm.trans (translate_of_lookup he')
    exact hall _ (Or.inr ⟨hcross, rfl⟩)
  · rintro ⟨hperm, hnext⟩
    obtain ⟨e, he, -⟩ := id hperm
    have hppn := ppn_pos h hpos hlt (pageOf_lt ptr) he
    have hpa : translatedPtr st.mem ms.pageTable.token ptr
        = some (e.ppn * 4096 + ptr % 4096) := by
      refine (translatedPtr_eq_some h.rootPpn_lt).mpr ⟨?_, by omega⟩
      rw [leafAddr, translate_of_lookup he]
      rfl
    refine ⟨_, by rw [hpa]; rfl, ?_⟩
    intro n hn
    rcases (mem_frames_iff T hoff).mp hn with rfl | ⟨hcross, rfl⟩
    · exact (allowed_iff h hpos hlt hnot (pageOf_lt ptr) (translate_of_lookup he) w).mpr hperm
    · exact hnext e hcross he

/-- A call hands the kernel user memory and nothing else if and only if its range is permitted. -/
theorem user_pages_permitted (img : KernelImage) (h : ms.UserOk img.trampoline st)
    (hnot : img.trampoline ∉ ms.frames) (heap : Nat → Bool) (c : UserAccess) :
    c.Confined heap st.mem ms.pageTable ↔ c.Within heap st.mem ms.pageTable := by
  have hroot := h.rootPpn_lt
  have hpos := img.trampoline_pos
  have hlt := img.trampoline_lt_two_pow
  cases c with
  | byteBuffer ptr len w =>
      simp only [UserAccess.Confined, UserAccess.frames, UserAccess.Within, UserAccess.writes,
        translatedByteBuffer, bufferLoop_fromToken hroot]
      constructor
      · rintro ⟨fuel, ns, hns, hall⟩
        obtain ⟨slices, hfilter, rfl⟩ := Option.map_eq_some_iff.mp hns
        obtain ⟨hloop, hroom⟩ := Option.filter_eq_some_iff.mp hfilter
        obtain ⟨hspans, -⟩ := (bufferLoop_iff ..).mp ⟨slices, hloop, rfl⟩
        refine ⟨fuel, _, hspans, ?_, fun v hv => ?_⟩
        · rw [List.length_map]
          exact of_decide_eq_true hroom
        obtain ⟨b, hb, rfl⟩ := List.mem_map.mp hv
        obtain ⟨e, he, hppn, hvlt⟩ := bufferLoop_ppn hloop b hb
        refine (allowed_iff h hpos hlt hnot hvlt he w).mp ?_
        rw [hppn]
        exact hall _ (List.mem_map.mpr ⟨b, hb, rfl⟩)
      · rintro ⟨fuel, vs, hspans, hroom, hall⟩
        have htables : ∀ v ∈ vs, ms.pageTable.translate st.mem v ≠ none := by
          intro v hv
          obtain ⟨e, he, -⟩ := hall v hv
          rw [translate_of_lookup he]
          exact Option.some_ne_none e
        obtain ⟨slices, hloop, rfl⟩ := (bufferLoop_iff ..).mpr ⟨hspans, htables⟩
        rw [List.length_map] at hroom
        refine ⟨fuel, _, by rw [hloop, Option.filter_some, if_pos (decide_eq_true hroom)]; rfl,
          fun n hn => ?_⟩
        obtain ⟨b, hb, rfl⟩ := List.mem_map.mp hn
        obtain ⟨e, he, hppn, hvlt⟩ := bufferLoop_ppn hloop b hb
        rw [← hppn]
        exact (allowed_iff h hpos hlt hnot hvlt he w).mpr (hall _ (List.mem_map.mpr ⟨b, hb, rfl⟩))
  | str ptr =>
      simp only [UserAccess.Confined, UserAccess.frames, UserAccess.Within, UserAccess.writes]
      constructor
      · rintro ⟨fuel, ns, hns, hall⟩
        obtain ⟨bs, hfilter, rfl⟩ := Option.map_eq_some_iff.mp hns
        obtain ⟨hbs, hroom⟩ := Option.filter_eq_some_iff.mp hfilter
        obtain ⟨k, hpages, rfl, hk⟩ :=
          (strLoop_iff hroot st.mem ptr (strLoop st.mem ms.pageTable.token fuel ptr).1 bs).mp
            ⟨fuel, Prod.ext rfl hbs⟩
        refine ⟨k, fun i hi => ?_, hk.nonzero, hk.zero, of_decide_eq_true hroom⟩
        obtain ⟨pa, hleaf, -⟩ := hk.reaches i hi
        obtain ⟨e, he, -⟩ := Option.map_eq_some_iff.mp hleaf
        refine (allowed_iff h hpos hlt hnot (pageOf_lt _) he false).mp (hall _ ?_)
        refine List.mem_filterMap.mpr ⟨pageOf (ptr + i), ?_, by rw [he]; rfl⟩
        rw [hpages]
        exact List.mem_map.mpr ⟨i, List.mem_range.mpr (by omega), rfl⟩
      · rintro ⟨k, hperm, hnonzero, hzero, hroom⟩
        have hreaches : ∀ i, i ≤ k → Reaches st.mem ms.pageTable (ptr + i) := by
          intro i hi
          obtain ⟨e, he, -⟩ := hperm i hi
          have hppn := ppn_pos h hpos hlt (pageOf_lt _) he
          refine ⟨e.ppn * 4096 + (ptr + i) % 4096, ?_, by omega⟩
          rw [leafAddr, translate_of_lookup he]
          rfl
        obtain ⟨fuel, hs⟩ :=
          (strLoop_iff hroot st.mem ptr _ _).mpr ⟨k, rfl, rfl, hreaches, hnonzero, hzero⟩
        refine ⟨fuel, _, by rw [hs, Option.filter_some, if_pos (decide_eq_true hroom)]; rfl,
          fun n hn => ?_⟩
        obtain ⟨v, hv, hn⟩ := List.mem_filterMap.mp hn
        obtain ⟨i, hi, rfl⟩ := List.mem_map.mp hv
        obtain ⟨e, he, rfl⟩ := Option.map_eq_some_iff.mp hn
        have hle : i ≤ k := Nat.le_of_lt_succ (List.mem_range.mp hi)
        exact (allowed_iff h hpos hlt hnot (pageOf_lt _) he false).mpr (hperm i hle)
  | ref T ptr =>
      have hiff := object_confined_iff h hpos hlt hnot T ptr false
      simp only [UserAccess.Confined, UserAccess.frames, UserAccess.writes, translatedRef,
        exists_const]
      exact hiff
  | refmut T ptr =>
      have hiff := object_confined_iff h hpos hlt hnot T ptr true
      simp only [UserAccess.Confined, UserAccess.frames, UserAccess.writes, translatedRefmut,
        exists_const]
      exact hiff

/-- The trap context is mapped, and not for the user. -/
theorem trapContext_not_permitted (h : ms.UserOk tramp st) (htrap : HasTrapContext ms) :
    (∃ e, ms.pageTable.translate st.mem TRAP_CONTEXT_VPN = some e)
      ∧ ∀ w, ¬ Permitted st.mem ms.pageTable TRAP_CONTEXT_VPN w := by
  obtain ⟨a, ha, hav, hperm⟩ := htrap
  have hlt : ∀ p ∈ dataPpns ms.areas, p < 2 ^ 44 :=
    fun p hp => h.owns.lt_two_pow (List.mem_append_right _ hp)
  obtain ⟨p, e, -, hp, hlook, rfl, -⟩ := framed_page h.space ha (h.framed a ha) hav hlt
  refine ⟨⟨_, translate_of_lookup hlook⟩, ?_⟩
  rintro w ⟨e', he', hU, -⟩
  rw [hlook] at he'
  cases he'
  rw [PageTableEntry.flags_new (hlt p hp), hperm] at hU
  exact absurd hU (by decide)

end Frames

/-- The exit code of a child, written to the stack of a program without segments. -/
theorem user_pages_permitted_stack :
    ∃ ms st, MemorySet.UserOk (KernelImage.trampoline default) st ms
      ∧ (UserAccess.refmut .i32 0x1000).Confined (fun size => size ≤ 0x100000) st.mem
        ms.pageTable := by
  obtain ⟨r, st, -, hok, -, hnot, ⟨a, ha, hav, hperm⟩, -⟩ := exists_scattered_program
  have hlt : ∀ p ∈ dataPpns r.1.areas, p < 2 ^ 44 :=
    fun p hp => hok.owns.lt_two_pow (List.mem_append_right _ hp)
  obtain ⟨p, e, -, hp, hlook, rfl, -⟩ :=
    framed_page hok.space ha (hok.framed a ha) hav hlt
  have hflags := PageTableEntry.flags_new (hlt p hp) (a.mapPerm ||| PTEFlags.V)
  have hpage : pageOf 0x1000 = 1 := by decide
  refine ⟨r.1, st, hok, (user_pages_permitted default hok hnot _ (.refmut .i32 0x1000)).mpr ?_⟩
  refine ⟨?_, fun e hcross => absurd hcross (by decide)⟩
  rw [hpage]
  refine ⟨_, hlook, ?_, fun _ => ?_⟩
  · rw [hflags, hperm]
    decide
  · rw [hflags, hperm]
    decide

/-- `sys_read` into the trap context of a program that `from_elf` has loaded: the kernel is
    handed a frame that the program may not access. -/
theorem read_into_trapContext :
    ∃ r st e, fromElf default ⟨[], [], 0⟩ ⟨fun _ => 0, scattered⟩ = .ok (r, st)
      ∧ r.1.pageTable.translate st.mem TRAP_CONTEXT_VPN = some e
      ∧ (UserAccess.byteBuffer TRAP_CONTEXT 8 true).frames (fun size => size ≤ 0x100000) 2 st.mem
        r.1.pageTable = some [e.ppn]
      ∧ ¬ Allowed st.mem r.1.pageTable e.ppn true
      ∧ ¬ (UserAccess.byteBuffer TRAP_CONTEXT 8 true).Confined (fun size => size ≤ 0x100000) st.mem
        r.1.pageTable := by
  obtain ⟨r, st, hrun, hok, htrap, hnot, -⟩ := exists_scattered_program
  obtain ⟨⟨e, he⟩, hperm⟩ := trapContext_not_permitted hok htrap
  have hpos := KernelImage.trampoline_pos default
  have hlt := KernelImage.trampoline_lt_two_pow default
  have hnever : ¬ Allowed st.mem r.1.pageTable e.ppn true := fun hall =>
    hperm true ((allowed_iff hok hpos hlt hnot (by decide) he true).mp hall)
  have htables : ∀ v ∈ [TRAP_CONTEXT_VPN], r.1.pageTable.translate st.mem v ≠ none := by
    intro v hv
    rw [List.mem_singleton.mp hv, he]
    exact Option.some_ne_none e
  obtain ⟨slices, hloop, hvpns⟩ := (bufferLoop_iff st.mem r.1.pageTable
    ((TRAP_CONTEXT + 8) % 2 ^ 64) 2 TRAP_CONTEXT _).mpr ⟨by decide, htables⟩
  obtain ⟨b, rfl, hb⟩ := List.map_eq_singleton_iff.mp hvpns
  obtain ⟨e', he', hppn, -⟩ := bufferLoop_ppn hloop b (List.mem_singleton_self b)
  rw [hb, he] at he'
  cases he'
  refine ⟨r, st, e, hrun, he, ?_, hnever, ?_⟩
  · rw [UserAccess.frames, translatedByteBuffer, bufferLoop_fromToken hok.rootPpn_lt, hloop, hppn]
    rfl
  · rintro ⟨fuel, ns, hns, hall⟩
    obtain ⟨slices, hfilter, rfl⟩ := Option.map_eq_some_iff.mp hns
    obtain ⟨hloop', -⟩ := Option.filter_eq_some_iff.mp hfilter
    rw [translatedByteBuffer, bufferLoop_fromToken hok.rootPpn_lt] at hloop'
    cases fuel with
    | zero => cases hloop'
    | succ fuel =>
        rw [bufferLoop, if_pos (by decide)] at hloop'
        obtain ⟨pte, hpte, hloop'⟩ := Option.bind_eq_some_iff.mp hloop'
        obtain ⟨hi, -, hloop'⟩ := Option.bind_eq_some_iff.mp hloop'
        obtain ⟨rest, -, heq⟩ := Option.bind_eq_some_iff.mp hloop'
        cases heq
        cases he.symm.trans hpte
        exact hnever (hall _ List.mem_cons_self)

end Nimloth
