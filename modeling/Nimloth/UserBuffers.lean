import Nimloth.Unmapped

/-!
# User buffers

`translated_byte_buffer` and the `UserBuffer` made of its slices. One turn
of the loop goes from `start` to the end of its page or of the buffer,
whichever comes first; both are compared as 39-bit addresses, and the
next `start` is sign-extended while `end` keeps its 64 bits. For a buffer
in the lower half this makes no difference. For others the next `start`
may lie behind, and the loop does not end.
-/

namespace Nimloth

open PageTable

/-! ## One turn -/

/-- The `start` of the next turn. -/
def bufferNext (end_ start : Nat) : Nat := VirtAddr.toUsize (bufferEnd end_ start)

theorem bufferEnd_eq (end_ start : Nat) :
    bufferEnd end_ start = min ((start % 2 ^ 39 / 4096 + 1) * 4096) (end_ % 2 ^ 39) := by
  simp only [bufferEnd, VirtAddr.ofVpn, VirtAddr.from, pageOf_eq, Nat.shiftLeft_eq,
    Nat.and_two_pow_sub_one_eq_mod]

theorem bufferEnd_lt (end_ start : Nat) : bufferEnd end_ start < 2 ^ 39 := by
  rw [bufferEnd_eq]
  omega

theorem sliceEnd_eq (end_ start : Nat) : sliceEnd end_ start =
    if bufferEnd end_ start % 4096 = 0 then some 4096
    else if start % 4096 ≤ bufferEnd end_ start % 4096 then some (bufferEnd end_ start % 4096)
    else none := by
  have hoff : VirtAddr.from start % 4096 = start % 4096 := by
    simp only [VirtAddr.from, Nat.and_two_pow_sub_one_eq_mod]
    omega
  rw [sliceEnd, hoff]

/-- Inside of the buffer the slice goes from `start` to the next one. -/
theorem sliceEnd_of_lt {end_ start : Nat} (h : start % 2 ^ 39 < end_ % 2 ^ 39) :
    sliceEnd end_ start
      = some (start % 4096 + (bufferEnd end_ start - start % 2 ^ 39)) := by
  have hend := bufferEnd_eq end_ start
  rw [sliceEnd_eq]
  by_cases hpage : (start % 2 ^ 39 / 4096 + 1) * 4096 ≤ end_ % 2 ^ 39
  · rw [Nat.min_eq_left hpage] at hend
    rw [if_pos (by omega), Option.some.injEq]
    omega
  · rw [Nat.min_eq_right (by omega)] at hend
    rw [if_neg (by omega), if_pos (by omega), Option.some.injEq]
    omega

/-! ## Buffers in the lower half -/

namespace BufferSlice

def len (b : BufferSlice) : Nat := b.hi - b.lo

/-- Where the bytes of the slice are. -/
def locations (b : BufferSlice) : List Nat := List.range' (b.ppn * 4096 + b.lo) b.len

@[simp] theorem length_locations (b : BufferSlice) : b.locations.length = b.len :=
  List.length_range'

end BufferSlice

/-- `UserBuffer::len`. -/
def userBufferLen (buffers : List BufferSlice) : Nat :=
  buffers.foldl (fun total b => total + b.len) 0

theorem userBufferLen_eq (buffers : List BufferSlice) :
    userBufferLen buffers = (buffers.flatMap BufferSlice.locations).length := by
  have hfold : ∀ n, buffers.foldl (fun total b => total + b.len) n
      = n + (buffers.flatMap BufferSlice.locations).length := by
    induction buffers with
    | nil => exact fun n => rfl
    | cons b bs ih =>
        intro n
        rw [List.foldl_cons, ih, List.flatMap_cons, List.length_append, b.length_locations]
        omega
  rw [userBufferLen, hfold, Nat.zero_add]

/-- Where the page table maps the bytes of a range inside of one page. -/
theorem physAt_range {m : Mem} {pt : PageTable} {start n : Nat} {e : PageTableEntry}
    (hin : start % 4096 + n ≤ 4096) (he : pt.lookup m (pageOf start) = some e) :
    (List.range' start n).map (physAt m pt)
      = (List.range' (e.ppn * 4096 + start % 4096) n).map some := by
  refine List.ext_getElem (by simp) ?_
  intro j hj hj'
  rw [List.length_map, List.length_range'] at hj
  simp only [List.getElem_map, List.getElem_range', Nat.one_mul]
  have hpage : pageOf (start + j) = pageOf start := by
    rw [pageOf_eq, pageOf_eq]
    omega
  rw [physAt, hpage, he, Option.map_some, Option.some.injEq]
  omega

theorem bufferLoop_done {m : Mem} {pt : PageTable} {end_ start : Nat} (h : ¬ start < end_) :
    bufferLoop m pt end_ 1 start = some [] := by
  rw [bufferLoop, if_neg h]
  rfl

/-- The loop over a buffer in the lower half whose bytes are all mapped. -/
theorem bufferLoop_low {m : Mem} {pt : PageTable} {end_ : Nat} (hend : end_ ≤ 2 ^ 38) (n : Nat)
    {start : Nat} (hn : end_ - start ≤ n) (hstart : start ≤ end_)
    (hmapped : ∀ va, start ≤ va → va < end_ → physAt m pt va ≠ none) :
    ∃ fuel slices, bufferLoop m pt end_ fuel start = some slices
      ∧ (∀ b ∈ slices, b.lo < b.hi ∧ b.hi ≤ 4096)
      ∧ (slices.flatMap BufferSlice.locations).map some
          = (List.range' start (end_ - start)).map (physAt m pt) := by
  induction n generalizing start with
  | zero =>
      refine ⟨1, [], bufferLoop_done (by omega), fun b hb => absurd hb List.not_mem_nil, ?_⟩
      rw [show end_ - start = 0 by omega]
      rfl
  | succ n ih =>
      by_cases hlt : start < end_
      · have hmod : start % 2 ^ 39 = start := by omega
        have hmod' : end_ % 2 ^ 39 = end_ := by omega
        have hnext := bufferEnd_eq end_ start
        have hslt : start % 2 ^ 39 < end_ % 2 ^ 39 := by omega
        have hslice := sliceEnd_of_lt hslt
        rw [hmod, hmod'] at hnext
        rw [hmod] at hslice
        obtain ⟨next, hdef⟩ : ∃ next, next = bufferEnd end_ start := ⟨_, rfl⟩
        rw [← hdef] at hnext hslice
        have hbounds : start < next ∧ next ≤ end_ ∧ start % 4096 + (next - start) ≤ 4096 := by
          omega
        obtain ⟨hgt, hle, hin⟩ := hbounds
        -- at the end of the lower half the next start is the sign-extended one
        have hrest : ∃ fuel rest, bufferLoop m pt end_ fuel (bufferNext end_ start) = some rest
            ∧ (∀ b ∈ rest, b.lo < b.hi ∧ b.hi ≤ 4096)
            ∧ (rest.flatMap BufferSlice.locations).map some
                = (List.range' next (end_ - next)).map (physAt m pt) := by
          rw [bufferNext, ← hdef]
          by_cases hlow : next < 2 ^ 38
          · rw [toUsize_low hlow]
            exact ih (by omega) hle fun va hva => hmapped va (by omega)
          · rw [toUsize_high (by omega) (by omega)]
            refine ⟨1, [], bufferLoop_done (by omega), fun b hb => absurd hb List.not_mem_nil, ?_⟩
            rw [show end_ - next = 0 by omega]
            rfl
        obtain ⟨fuel, rest, hloop, hne, hlocs⟩ := hrest
        obtain ⟨pa, hpa⟩ := Option.ne_none_iff_exists'.mp (hmapped start (Nat.le_refl _) hlt)
        obtain ⟨e, he, -⟩ := Option.map_eq_some_iff.mp hpa
        have hoff : VirtAddr.from start % PAGE_SIZE = start % 4096 := by
          simp only [VirtAddr.from, Nat.and_two_pow_sub_one_eq_mod, PAGE_SIZE]
          omega
        refine ⟨fuel + 1, ⟨pageOf start, e.ppn, start % 4096, start % 4096 + (next - start)⟩ :: rest,
          ?_, ?_, ?_⟩
        · rw [bufferLoop, if_pos hlt, translate_of_lookup he, hslice, hoff]
          rw [bufferNext] at hloop
          show (bufferLoop m pt end_ fuel _).bind _ = _
          rw [hloop]
          rfl
        · intro b hb
          rcases List.mem_cons.mp hb with rfl | hb
          · dsimp only
            omega
          · exact hne b hb
        · have hsplit : List.range' start (end_ - start)
              = List.range' start (next - start) ++ List.range' next (end_ - next) := by
            have happ := List.range'_append_1 (s := start) (m := next - start) (n := end_ - next)
            rw [show start + (next - start) = next by omega,
              show next - start + (end_ - next) = end_ - start by omega] at happ
            exact happ.symm
          have hfirst : (BufferSlice.mk (pageOf start) e.ppn (start % 4096)
              (start % 4096 + (next - start))).locations
                = List.range' (e.ppn * 4096 + start % 4096) (next - start) := by
            rw [BufferSlice.locations, BufferSlice.len, Nat.add_sub_cancel_left]
          rw [hsplit, List.map_append, List.flatMap_cons, List.map_append, hlocs, hfirst,
            physAt_range hin he]
      · refine ⟨1, [], bufferLoop_done hlt, fun b hb => absurd hb List.not_mem_nil, ?_⟩
        rw [show end_ - start = 0 by omega]
        rfl

/-! ## The iterator -/

structure UserBufferIterator where
  buffers : List BufferSlice
  currentBuffer : Nat
  currentIdx : Nat

/-- The address of one byte of the slice; `none` is the panic of the index. -/
def BufferSlice.location (b : BufferSlice) (idx : Nat) : Option Nat :=
  if idx < b.len then some (b.ppn * 4096 + b.lo + idx) else none

namespace UserBufferIterator

/-- `UserBuffer::into_iter`. -/
def intoIter (buffers : List BufferSlice) : UserBufferIterator := ⟨buffers, 0, 0⟩

/-- `next`; `none` is the panic of an index, the inner `none` is the end. -/
def next (it : UserBufferIterator) : Option (Option Nat × UserBufferIterator) :=
  if it.buffers.length ≤ it.currentBuffer then some (none, it)
  else do
    let b ← it.buffers[it.currentBuffer]?
    let r ← b.location it.currentIdx
    if it.currentIdx + 1 = b.len then
      pure (some r, { it with currentIdx := 0, currentBuffer := it.currentBuffer + 1 })
    else pure (some r, { it with currentIdx := it.currentIdx + 1 })

/-- What `next` gives until it gives `None`, in at most `fuel` calls. -/
def collect : Nat → UserBufferIterator → Option (List Nat)
  | 0, _ => none
  | fuel + 1, it =>
      match it.next with
      | none => none
      | some (none, _) => some []
      | some (some r, it) => (collect fuel it).map (r :: ·)

/-- The locations that are still to come. -/
def remaining (it : UserBufferIterator) : List Nat :=
  ((it.buffers.drop it.currentBuffer).flatMap BufferSlice.locations).drop it.currentIdx

/-- The index is one of the current slice, and no slice is empty. -/
structure Ok (it : UserBufferIterator) : Prop where
  nonempty : ∀ b ∈ it.buffers, 0 < b.len
  idx : ∀ b, it.buffers[it.currentBuffer]? = some b → it.currentIdx < b.len

variable {it : UserBufferIterator}

theorem intoIter_ok {buffers : List BufferSlice} (h : ∀ b ∈ buffers, b.lo < b.hi) :
    (intoIter buffers).Ok where
  nonempty b hb := Nat.sub_pos_of_lt (h b hb)
  idx b hb := Nat.sub_pos_of_lt (h b (List.mem_of_getElem? hb))

theorem remaining_intoIter (buffers : List BufferSlice) :
    (intoIter buffers).remaining = buffers.flatMap BufferSlice.locations := rfl

/-- `next` gives the first location that is still to come. -/
theorem Ok.next (h : it.Ok) :
    (it.remaining = [] ∧ it.next = some (none, it))
      ∨ ∃ r it', it.remaining = r :: it'.remaining ∧ it.next = some (some r, it') ∧ it'.Ok := by
  by_cases hend : it.buffers.length ≤ it.currentBuffer
  · refine Or.inl ⟨?_, if_pos hend⟩
    rw [remaining, List.drop_eq_nil_of_le hend]
    exact List.drop_nil
  · obtain ⟨b, hb⟩ : ∃ b, it.buffers[it.currentBuffer]? = some b :=
      ⟨_, List.getElem?_eq_getElem (Nat.lt_of_not_le hend)⟩
    have hidx := h.idx b hb
    have hflat : (it.buffers.drop it.currentBuffer).flatMap BufferSlice.locations
        = b.locations ++ (it.buffers.drop (it.currentBuffer + 1)).flatMap BufferSlice.locations := by
      obtain ⟨hlt, hget⟩ := List.getElem?_eq_some_iff.mp hb
      rw [List.drop_eq_getElem_cons hlt, hget, List.flatMap_cons]
    have hlen : it.currentIdx
        < ((it.buffers.drop it.currentBuffer).flatMap BufferSlice.locations).length := by
      rw [hflat, List.length_append, b.length_locations]
      omega
    have hfirst : it.remaining = (b.ppn * 4096 + b.lo + it.currentIdx)
        :: ((it.buffers.drop it.currentBuffer).flatMap BufferSlice.locations).drop
          (it.currentIdx + 1) := by
      rw [remaining, List.drop_eq_getElem_cons hlen]
      congr 1
      simp only [hflat]
      rw [List.getElem_append_left (by rw [b.length_locations]; exact hidx)]
      simp only [BufferSlice.locations, List.getElem_range', Nat.one_mul]
    have hnext : it.next = if it.currentIdx + 1 = b.len then
          some (some (b.ppn * 4096 + b.lo + it.currentIdx),
            { it with currentIdx := 0, currentBuffer := it.currentBuffer + 1 })
        else some (some (b.ppn * 4096 + b.lo + it.currentIdx),
          { it with currentIdx := it.currentIdx + 1 }) := by
      rw [UserBufferIterator.next, if_neg hend, hb]
      show (b.location it.currentIdx).bind _ = _
      rw [BufferSlice.location, if_pos hidx]
      rfl
    by_cases hlast : it.currentIdx + 1 = b.len
    · rw [if_pos hlast] at hnext
      refine Or.inr ⟨_, _, ?_, hnext, h.nonempty, fun c hc => h.nonempty c (List.mem_of_getElem? hc)⟩
      rw [hfirst, hflat, hlast, ← b.length_locations, List.drop_left]
      rfl
    · rw [if_neg hlast] at hnext
      refine Or.inr ⟨_, _, hfirst, hnext, h.nonempty, fun c hc => ?_⟩
      dsimp only at hc ⊢
      rw [hb, Option.some.injEq] at hc
      rw [← hc]
      omega

/-- The calls give all of them in order, and then `None`. -/
theorem Ok.collect (h : it.Ok) : it.collect (it.remaining.length + 1) = some it.remaining := by
  obtain ⟨rs, hrs⟩ : ∃ rs, it.remaining = rs := ⟨_, rfl⟩
  rw [hrs]
  induction rs generalizing it with
  | nil =>
      rcases h.next with ⟨-, hnext⟩ | ⟨r, it', hrem, -, -⟩
      · rw [List.length_nil, UserBufferIterator.collect, hnext]
      · rw [hrs] at hrem
        cases hrem
  | cons r rs ih =>
      rcases h.next with ⟨hnil, -⟩ | ⟨r', it', hrem, hnext, hok⟩
      · rw [hrs] at hnil
        cases hnil
      · rw [hrs] at hrem
        obtain ⟨rfl, hrs'⟩ := List.cons.inj hrem
        rw [List.length_cons, UserBufferIterator.collect, hnext]
        dsimp only
        rw [ih hok hrs'.symm, Option.map_some]

end UserBufferIterator

/-- A table and its token map the same bytes. -/
theorem physAt_fromToken {pt : PageTable} (h : pt.rootPpn < 2 ^ 44) (m : Mem) (va : Nat) :
    physAt m (fromToken pt.token) va = physAt m pt va := by
  unfold physAt lookup
  rw [translate_fromToken h]

/-- A buffer in the lower half is handed over byte for byte. -/
theorem byte_buffer_translates (m : Mem) (token ptr len : Nat) (hend : ptr + len ≤ 2 ^ 38)
    (hmapped : ∀ j, j < len → physAt m (fromToken token) (ptr + j) ≠ none) :
    ∃ fuel buffers, translatedByteBuffer fuel m token ptr len = some buffers
      ∧ (∀ b ∈ buffers, b.lo < b.hi ∧ b.hi ≤ 4096)
      ∧ userBufferLen buffers = len
      ∧ ∃ locs : List Nat, buffers.flatMap BufferSlice.locations = locs
        ∧ locs.map some = (List.range len).map (fun j => physAt m (fromToken token) (ptr + j))
        ∧ (UserBufferIterator.intoIter buffers).collect (len + 1) = some locs := by
  have hmod : (ptr + len) % 2 ^ 64 = ptr + len := by omega
  obtain ⟨fuel, buffers, hloop, hne, hlocs⟩ := @bufferLoop_low m (fromToken token) _ hend len ptr
    (by omega) (Nat.le_add_right ptr len) fun va hle hlt => by
      have hva := hmapped (va - ptr) (by omega)
      rwa [show ptr + (va - ptr) = va by omega] at hva
  rw [Nat.add_sub_cancel_left] at hlocs
  have hlen : (buffers.flatMap BufferSlice.locations).length = len := by
    have hcong := congrArg List.length hlocs
    rwa [List.length_map, List.length_map, List.length_range'] at hcong
  have hok := UserBufferIterator.intoIter_ok fun b hb => (hne b hb).1
  have hcollect := hok.collect
  rw [UserBufferIterator.remaining_intoIter, hlen] at hcollect
  refine ⟨fuel, buffers, ?_, hne, ?_, _, rfl, ?_, hcollect⟩
  · rw [translatedByteBuffer, hmod]
    exact hloop
  · rw [userBufferLen_eq, hlen]
  · rw [hlocs, List.range'_eq_map_range, List.map_map]
    rfl

/-- The last six bytes of the only page. -/
theorem byte_buffer_translates_page_end : ∃ s : PageState, ∃ fuel buffers,
    translatedByteBuffer fuel s.st.mem s.pt.token 0x5FFA 6 = some buffers
      ∧ (UserBufferIterator.intoIter buffers).collect 7
        = some [0x64FFA, 0x64FFB, 0x64FFC, 0x64FFD, 0x64FFE, 0x64FFF] := by
  obtain ⟨s₀, s, -, -, h, -⟩ := exists_one_page
  have hroot : s.pt.rootPpn < 2 ^ 44 :=
    h.owns.lt_two_pow (h.tree.mem [] _ isPath_nil rfl)
  have hphys : ∀ j, j < 6 →
      physAt s.st.mem (fromToken s.pt.token) (0x5FFA + j) = some (0x64FFA + j) := by
    intro j hj
    have hpage : pageOf (0x5FFA + j) = 5 := by
      rw [pageOf_eq]
      omega
    have hppn : (pageEntry (100, PTEFlags.R)).ppn = 100 := by decide
    rw [physAt_fromToken hroot, physAt, hpage, h.lookup 5 (by decide), Function.update_self,
      Option.map_some, Option.map_some, hppn, Option.some.injEq]
    omega
  obtain ⟨fuel, buffers, hloop, -, -, locs, -, hlocs, hcollect⟩ :=
    byte_buffer_translates s.st.mem s.pt.token 0x5FFA 6 (by decide) fun j hj => by
      rw [hphys j hj]
      exact Option.some_ne_none _
  refine ⟨s, fuel, buffers, hloop, hcollect.trans ?_⟩
  rw [List.map_congr_left fun j hj => hphys j (List.mem_range.mp hj)] at hlocs
  exact congrArg some ((List.map_injective_iff.mpr (Option.some_injective _)) (hlocs.trans rfl))

end Nimloth
