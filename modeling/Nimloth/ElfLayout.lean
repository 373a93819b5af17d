import Nimloth.PushedArea

/-!
# Which programs load

`from_elf` checks nothing: it stops at the assertions of what it calls.
`Elf.Loadable` is what the headers must be like for it to return, given
enough frames: ranges in order and apart from each other, the slices
within the file, and a page of a segment wherever the copy comes to. A
segment without bytes in the file needs no more than a leaf table for its
first page.

The stack goes above the area of the last header that is loaded,
whichever that is. It is above all segments if the last one is.
-/

namespace Nimloth

open Outcome PageTable MemorySet

/-! ## Ranges of pages -/

/-- `start_va.floor()` and `end_va.ceil()` of the area of a segment. -/
def ProgramHeader.startVpn (ph : ProgramHeader) : Nat :=
  VirtAddr.floor (VirtAddr.from ph.virtualAddr)

def ProgramHeader.endVpn (ph : ProgramHeader) : Nat :=
  VirtAddr.ceil (VirtAddr.from ((ph.virtualAddr + ph.memSize) % 2 ^ 64))

/-- The trampoline, and ranges from their first page to before their last. -/
def withTrampoline (rs : List (Nat × Nat)) : List (Nat × Nat) :=
  (TRAMPOLINE_VPN, TRAMPOLINE_VPN + 1) :: rs

/-- The pages from `s` to before `e` are in none of the ranges. -/
def Vacant (rs : List (Nat × Nat)) (s e : Nat) : Prop :=
  ∀ r ∈ withTrampoline rs, e ≤ s ∨ r.2 ≤ r.1 ∨ e ≤ r.1 ∨ r.2 ≤ s

instance (rs : List (Nat × Nat)) (s e : Nat) : Decidable (Vacant rs s e) :=
  inferInstanceAs (Decidable (∀ r ∈ withTrampoline rs, _))

/-- One of the ranges has a page of the 2 MiB of page `v`. -/
def Tabled (rs : List (Nat × Nat)) (v : Nat) : Prop :=
  ∃ r ∈ withTrampoline rs,
    r.1 < r.2 ∧ r.1 / 512 ≤ v % 2 ^ 27 / 512 ∧ v % 2 ^ 27 / 512 ≤ (r.2 - 1) / 512

instance (rs : List (Nat × Nat)) (v : Nat) : Decidable (Tabled rs v) :=
  inferInstanceAs (Decidable (∃ r ∈ withTrampoline rs, _))

/-- Page `v` is in one of the ranges. -/
def Covered (rs : List (Nat × Nat)) (v : Nat) : Prop :=
  ∃ r ∈ rs, r.1 ≤ v % 2 ^ 27 ∧ v % 2 ^ 27 < r.2

instance (rs : List (Nat × Nat)) (v : Nat) : Decidable (Covered rs v) :=
  inferInstanceAs (Decidable (∃ r ∈ rs, _))

/-- The copy of the data can come to page `v`: without data it only looks for the leaf table. -/
def Copyable (rs : List (Nat × Nat)) (data : List UInt8) (v : Nat) : Prop :=
  if data = [] then Tabled rs v else Covered rs v

instance (rs : List (Nat × Nat)) (data : List UInt8) (v : Nat) : Decidable (Copyable rs data v) :=
  inferInstanceAs (Decidable (ite _ _ _))

/-- The ranges of areas. -/
def areaRanges (areas : List MapArea) : List (Nat × Nat) :=
  areas.map fun a => (a.vpnRange.start, a.vpnRange.end_)

theorem mem_areaRanges {areas : List MapArea} {a : MapArea} (ha : a ∈ areas) :
    (a.vpnRange.start, a.vpnRange.end_) ∈ withTrampoline (areaRanges areas) :=
  List.mem_cons_of_mem _ (List.mem_map_of_mem ha)

section Ranges

variable {tramp : Nat} {m : Mem} {pt : PageTable} {areas : List MapArea}

/-- What is mapped are the pages of the ranges. -/
theorem mapped_iff_range (h : Space tramp m pt areas) {v : Nat} (hv : v < 2 ^ 27) :
    pt.lookup m v ≠ none ↔ ∃ r ∈ withTrampoline (areaRanges areas), r.1 ≤ v ∧ v < r.2 := by
  constructor
  · intro hne
    rcases h.only v hv hne with rfl | ⟨a, ha, hav⟩
    · exact ⟨_, List.mem_cons_self, Nat.le_refl _, Nat.lt_succ_self _⟩
    · exact ⟨_, mem_areaRanges ha, hav.1, hav.2⟩
  · rintro ⟨r, hr, hle, hlt⟩
    rcases List.mem_cons.mp hr with rfl | hr
    · obtain rfl : v = TRAMPOLINE_VPN := by
        dsimp only at hle hlt
        omega
      rw [h.trampoline]
      exact Option.some_ne_none _
    · obtain ⟨a, ha, rfl⟩ := List.mem_map.mp hr
      exact h.mapped ha ⟨hle, hlt⟩

theorem vacant_iff (h : Space tramp m pt areas) {s e : Nat} (he : e ≤ 2 ^ 27) :
    Vacant (areaRanges areas) s e ↔ ¬ ∃ v, (s ≤ v ∧ v < e) ∧ pt.lookup m v ≠ none := by
  constructor
  · rintro hvac ⟨v, hv, hne⟩
    obtain ⟨r, hr, hle, hlt⟩ := (mapped_iff_range h (by omega)).mp hne
    have := hvac r hr
    omega
  · intro hno r hr
    by_contra hmeet
    refine hno ⟨max s r.1, by omega, ?_⟩
    exact (mapped_iff_range h (by omega)).mpr ⟨r, hr, by omega, by omega⟩

theorem tabled_iff (h : Space tramp m pt areas) (ht : Tight m pt) (v : Nat) :
    Tabled (areaRanges areas) v ↔ pt.translate m v ≠ none := by
  rw [ht.translate_iff]
  constructor
  · rintro ⟨r, hr, hne, hle, hlt⟩
    have hu : max r.1 (v % 2 ^ 27 / 512 * 512) < 2 ^ 27 := by omega
    refine ⟨_, hu, by omega, (mapped_iff_range h hu).mpr ⟨r, hr, by omega, by omega⟩⟩
  · rintro ⟨u, hu, huv, hne⟩
    obtain ⟨r, hr, hle, hlt⟩ := (mapped_iff_range h hu).mp hne
    exact ⟨r, hr, by omega, by omega, by omega⟩

/-- A page takes data if and only if it is one of the areas'. -/
theorem copyable_iff {img : KernelImage} (h : Space img.trampoline m pt areas) (ht : Tight m pt)
    (hframed : ∀ a ∈ areas, a.mapType = .framed)
    (hstores : ∀ p ∈ dataPpns areas, p < 2 ^ 44 ∧ img.Stores p) (data : List UInt8) (v : Nat) :
    Copyable (areaRanges areas) data v ↔ MapArea.CopyTakes img m pt data v := by
  have hv : v % 2 ^ 27 < 2 ^ 27 := Nat.mod_lt _ (by decide)
  have hlt : ∀ p ∈ dataPpns areas, p < 2 ^ 44 := fun p hp => (hstores p hp).1
  unfold Copyable MapArea.CopyTakes
  by_cases hnil : data = []
  · rw [if_pos hnil, tabled_iff h ht]
    simp only [hnil, true_or, and_true]
    exact Option.ne_none_iff_exists'
  · rw [if_neg hnil, ← translate_mod]
    simp only [hnil, false_or]
    constructor
    · rintro ⟨r, hr, hle, hlt'⟩
      obtain ⟨a, ha, rfl⟩ := List.mem_map.mp hr
      obtain ⟨p, e, -, hp, hlook, -, rfl⟩ := framed_page h ha (hframed a ha) ⟨hle, hlt'⟩ hlt
      exact ⟨e, translate_of_lookup hlook, (hstores _ hp).2⟩
    · rintro ⟨e, he, hstore⟩
      rcases h.tree.translate_cases he with hl | rfl
      · rcases h.only _ hv (by rw [hl]; exact Option.some_ne_none e) with heq | ⟨a, ha, hav⟩
        · rw [heq, h.trampoline] at hl
          cases hl
          rw [trampolineEntry, PageTableEntry.ppn_new img.trampoline_lt_two_pow] at hstore
          exact absurd hstore img.not_stores_trampoline
        · exact ⟨_, List.mem_map_of_mem ha, hav⟩
      · rw [PageTableEntry.ppn_empty] at hstore
        exact absurd hstore img.not_stores_zero

end Ranges

/-! ## Headers -/

namespace ProgramHeader

theorem startVpn_eq (ph : ProgramHeader) : ph.startVpn = ph.virtualAddr % 2 ^ 39 / 4096 := by
  simp only [startVpn, VirtAddr.floor, VirtAddr.from, Nat.and_two_pow_sub_one_eq_mod, PAGE_SIZE]

theorem endVpn_eq (ph : ProgramHeader) :
    ph.endVpn = ((ph.virtualAddr + ph.memSize) % 2 ^ 39 + 4095) / 4096 := by
  rw [endVpn, virtAddr_ceil_eq, VirtAddr.from, Nat.and_two_pow_sub_one_eq_mod]
  omega

theorem startVpn_lt (ph : ProgramHeader) : ph.startVpn < 2 ^ 27 := by
  rw [startVpn_eq]
  omega

theorem endVpn_le (ph : ProgramHeader) : ph.endVpn ≤ 2 ^ 27 := by
  rw [endVpn_eq]
  omega

end ProgramHeader

/-- The pages a copy of `len` bytes from page `vpn` on comes to. -/
def copiedPages (vpn len : Nat) : List Nat := List.range' vpn (max 1 ((len + 4095) / 4096))

theorem mem_copiedPages {vpn len v : Nat} :
    v ∈ copiedPages vpn len ↔ MapArea.CopyVisits vpn len v := by
  rw [copiedPages, List.mem_range'_1, MapArea.CopyVisits]
  omega

namespace Elf

/-- The headers of the segments that are loaded. -/
def loads (elf : Elf) : List ProgramHeader := elf.programHeaders.filter (·.isLoad)

/-- `&elf.input[ph.offset()..ph.offset() + ph.file_size()]`. -/
def segmentData (elf : Elf) (ph : ProgramHeader) : Option (List UInt8) :=
  slice elf.input ph.offset ((ph.offset + ph.fileSize) % 2 ^ 64)

/-- The segment can be mapped beside the ranges, and its data copied. -/
def SegmentLoads (elf : Elf) (rs : List (Nat × Nat)) (ph : ProgramHeader) : Prop :=
  ph.startVpn ≤ ph.endVpn ∧ Vacant rs ph.startVpn ph.endVpn
    ∧ ∃ data ∈ elf.segmentData ph, ∀ v ∈ copiedPages ph.startVpn data.length,
      Copyable (rs ++ [(ph.startVpn, ph.endVpn)]) data v

instance (elf : Elf) (rs : List (Nat × Nat)) (ph : ProgramHeader) :
    Decidable (elf.SegmentLoads rs ph) :=
  inferInstanceAs (Decidable (_ ∧ _ ∧ ∃ data ∈ elf.segmentData ph, _))

/-- The segments can be loaded one after the other, beside the ranges. -/
def SegmentsLoad (elf : Elf) : List (Nat × Nat) → List ProgramHeader → Prop
  | _, [] => True
  | rs, ph :: phs =>
      elf.SegmentLoads rs ph ∧ elf.SegmentsLoad (rs ++ [(ph.startVpn, ph.endVpn)]) phs

instance decidableSegmentsLoad (elf : Elf) :
    ∀ rs phs, Decidable (elf.SegmentsLoad rs phs)
  | _, [] => isTrue trivial
  | rs, ph :: phs =>
      haveI := decidableSegmentsLoad elf (rs ++ [(ph.startVpn, ph.endVpn)]) phs
      inferInstanceAs (Decidable (elf.SegmentLoads rs ph ∧ _))

/-- The ranges of the segments. -/
def ranges (elf : Elf) : List (Nat × Nat) := elf.loads.map fun ph => (ph.startVpn, ph.endVpn)

/-- `max_end_vpn` after the loop. -/
def lastEnd (elf : Elf) : Nat := (elf.loads.getLast?.map (·.endVpn)).getD 0

/-- The first page of the user stack, and the page after its last. -/
def stackStart (elf : Elf) : Nat := (elf.lastEnd + 1) % 2 ^ 27

def stackEnd (elf : Elf) : Nat := (elf.lastEnd + 3) % 2 ^ 27

/-- `user_stack_bottom` and `user_stack_top`. -/
def userStackBottom (elf : Elf) : Nat :=
  (VirtAddr.toUsize (VirtAddr.ofVpn elf.lastEnd) + PAGE_SIZE) % 2 ^ 64

def userStackTop (elf : Elf) : Nat := (elf.userStackBottom + USER_STACK_SIZE) % 2 ^ 64

/-- `from_elf` returns, if there are enough frames. -/
def Loadable (elf : Elf) : Prop :=
  elf.SegmentsLoad [] elf.loads
    ∧ elf.stackStart ≤ elf.stackEnd ∧ Vacant elf.ranges elf.stackStart elf.stackEnd
    ∧ Vacant (elf.ranges ++ [(elf.stackStart, elf.stackEnd)]) TRAP_CONTEXT_VPN
      (TRAP_CONTEXT_VPN + 1)

instance (elf : Elf) : Decidable elf.Loadable := inferInstanceAs (Decidable (_ ∧ _))

theorem floor_userStackBottom (elf : Elf) :
    VirtAddr.floor (VirtAddr.from elf.userStackBottom) = elf.stackStart := by
  have hmod := toUsize_mod (elf.lastEnd * 4096)
  simp only [VirtAddr.floor, VirtAddr.from, userStackBottom, stackStart, ofVpn_eq,
    Nat.and_two_pow_sub_one_eq_mod, PAGE_SIZE]
  omega

theorem userStackTop_mod (elf : Elf) :
    elf.userStackTop % 2 ^ 39 = elf.stackEnd * 4096 := by
  have hmod := toUsize_mod (elf.lastEnd * 4096)
  simp only [userStackTop, userStackBottom, stackEnd, ofVpn_eq, PAGE_SIZE, USER_STACK_SIZE]
  omega

theorem floor_userStackTop (elf : Elf) :
    VirtAddr.floor (VirtAddr.from elf.userStackTop) = elf.stackEnd := by
  have hmod := elf.userStackTop_mod
  simp only [VirtAddr.floor, VirtAddr.from, Nat.and_two_pow_sub_one_eq_mod, PAGE_SIZE]
  omega

theorem ceil_userStackTop (elf : Elf) :
    VirtAddr.ceil (VirtAddr.from elf.userStackTop) = elf.stackEnd := by
  have hmod := elf.userStackTop_mod
  rw [virtAddr_ceil_eq, VirtAddr.from, Nat.and_two_pow_sub_one_eq_mod]
  omega

end Elf

/-! ## Pushing an area -/

section Push

variable {img : KernelImage} {E : MemPanic → Prop} {st : MemState} {ms : MemorySet}

/-- A framed area is mapped, just when its pages are free. -/
theorem map_exact {r : VPNRange} {perm : MapPermission} (h : ms.UserOk img.trampoline st)
    (ht : Tight st.mem ms.pageTable) (hstart : r.start < 2 ^ 27) (hend : r.end_ ≤ 2 ^ 27)
    (hoom : st.alloc.available < 3 * (r.end_ - r.start) → E .outOfFrames)
    (hmapped : ¬ Vacant (areaRanges ms.areas) r.start r.end_ → E .mapped) :
    Meets E (MapArea.map ⟨r, [], .framed, perm⟩ ms.pageTable) st fun x st' =>
      Pushed (fun _ => False) img.trampoline st ms ⟨r, [], .framed, perm⟩ st'
          ⟨x.2, ms.areas ++ [x.1]⟩
        ∧ Tight st'.mem x.2 ∧ Vacant (areaRanges ms.areas) r.start r.end_
        ∧ Space img.trampoline st'.mem x.2 (x.1 :: ms.areas) ∧ Added ⟨r, [], .framed, perm⟩ x.1 := by
  have hnew : (MapArea.mk r [] .framed perm).dataFrames = [] := rfl
  have hvacant := vacant_iff h.space hend (s := r.start)
  refine ((map_area_meets (X := fun _ => False) h.space h.owns hnew hstart hend ?_ ?_).and
    (MapArea.map_fills h.space.tree h.owns.left hnew hend rfl)).mono ?_
  · rwa [VPNRange.length_pages]
  · intro hmeet
    exact hmapped fun hvac => hvacant.mp hvac hmeet
  rintro ⟨a, pt⟩ st₁ ⟨⟨hspace, hadded, hm, hfresh, -, hav, hkeeps⟩, hfill⟩
  have hvac : Vacant (areaRanges ms.areas) r.start r.end_ :=
    hvacant.mpr fun hmeet => hmeet.elim fun v hv => hv.2 (hfresh v hv.1)
  have hmoves := hm.perm (List.Perm.refl _) (frames_append_perm pt ms.areas a)
  refine ⟨⟨⟨hspace.perm ?_, hmoves.owns⟩, ⟨a, hadded, rfl⟩, hmoves, hfresh, hav, hkeeps⟩,
    hfill.tight ht, hvac, hspace, hadded⟩
  exact (List.perm_append_singleton a ms.areas).symm

/-- `push` with data returns just when the pages are free and the copy comes to pages that take
    it. -/
theorem pushData_exact {r : VPNRange} {perm : MapPermission} {data : List UInt8}
    (h : ms.UserOk img.trampoline st) (ht : Tight st.mem ms.pageTable)
    (hbacks : img.Backs st ms.frames) (hstart : r.start < 2 ^ 27) (hend : r.end_ ≤ 2 ^ 27)
    (hoom : st.alloc.available < 3 * (r.end_ - r.start) → E .outOfFrames)
    (hmapped : ¬ Vacant (areaRanges ms.areas) r.start r.end_ → E .mapped)
    (hcopy : ¬ (∀ v ∈ copiedPages r.start data.length,
      Copyable (areaRanges ms.areas ++ [(r.start, r.end_)]) data v) → ∀ e, E e) :
    Meets E (pushData img ms ⟨r, [], .framed, perm⟩ data) st fun ms' st' =>
      Pushed (fun _ => False) img.trampoline st ms ⟨r, [], .framed, perm⟩ st' ms'
        ∧ Tight st'.mem ms'.pageTable ∧ Vacant (areaRanges ms.areas) r.start r.end_
        ∧ ∀ v ∈ copiedPages r.start data.length,
          Copyable (areaRanges ms.areas ++ [(r.start, r.end_)]) data v := by
  rw [pushData, Meets.bind_iff]
  refine (map_exact h ht hstart hend hoom hmapped).mono ?_
  rintro ⟨a, pt⟩ st₁ ⟨hpush, htight, hvac, hspace, hadded⟩
  dsimp only at hpush htight hspace hadded ⊢
  have hown := hpush.ok.owns
  have hperm := frames_append_perm pt ms.areas a
  have hframed : ∀ b ∈ ms.areas ++ [a], b.mapType = .framed :=
    (hpush.userOk h).framed
  have hstores : ∀ p ∈ dataPpns (ms.areas ++ [a]), p < 2 ^ 44 ∧ img.Stores p := fun p hp =>
    ⟨hown.lt_two_pow (List.mem_append_right _ hp),
      hbacks.moves hpush.moves p (Or.inr (List.mem_append_right _ hp))⟩
  have hpages : ∀ v, Copyable (areaRanges ms.areas ++ [(r.start, r.end_)]) data v
      ↔ MapArea.CopyTakes img st₁.mem pt data v := by
    have hranges : areaRanges (ms.areas ++ [a]) = areaRanges ms.areas ++ [(r.start, r.end_)] := by
      rw [areaRanges, List.map_append, List.map_singleton, hadded.range]
      rfl
    rw [← hranges]
    exact copyable_iff hpush.ok.space htight hframed hstores data
  have hvisited : ∀ v, MapArea.CopyVisits a.vpnRange.start data.length v →
      v ∈ copiedPages r.start data.length := by
    intro v hvis
    rw [hadded.range] at hvis
    exact mem_copiedPages.mpr hvis
  rw [Meets.bind_iff]
  refine (copyData_meets (X := fun _ => False) hspace (hown.perm hperm.symm) ?_ ?_ ?_).mono ?_
  · exact fun b hb => hframed b ((List.perm_append_singleton a ms.areas).mem_iff.mpr hb)
  · intro v hvis hnone
    refine hcopy (fun hall => ?_) _
    obtain ⟨e, he, -⟩ := (hpages v).mp (hall v (hvisited v hvis))
    rw [hnone] at he
    cases he
  · exact fun v hvis hno => hcopy (fun hall => hno ((hpages v).mp (hall v (hvisited v hvis)))) _
  · rintro _ st₂ ⟨hspace', hm', hkeeps', halloc, hsame, htaken⟩
    have hmoves := hpush.moves.trans (hm'.perm hperm hperm)
    refine Meets.pure_iff.mpr ⟨⟨⟨hspace'.perm ?_, hmoves.owns⟩, hpush.areas, hmoves, hpush.fresh, ?_,
      hpush.keeps.trans hkeeps'⟩, htight.congr hspace.tree hsame, hvac, fun v hv => ?_⟩
    · exact (List.perm_append_singleton a ms.areas).symm
    · rw [halloc]
      exact hpush.avail
    · refine (hpages v).mpr (htaken v ?_)
      rw [hadded.range]
      exact mem_copiedPages.mp hv

theorem areaRanges_of_pushed {X : Nat → Prop} {tramp : Nat} {st' : MemState} {ms' : MemorySet}
    {a : MapArea} (h : Pushed X tramp st ms a st' ms') :
    areaRanges ms'.areas = areaRanges ms.areas ++ [(a.vpnRange.start, a.vpnRange.end_)] := by
  obtain ⟨a', hadded, hareas⟩ := h.areas
  rw [hareas, areaRanges, List.map_append, List.map_singleton, hadded.range]
  rfl

/-- Headers that are not loaded are passed over. -/
theorem loadSegments_filter (elf : Elf) (k : Nat) (phs : List ProgramHeader) :
    loadSegments img elf ms k phs = loadSegments img elf ms k (phs.filter (·.isLoad)) := by
  induction phs generalizing ms k with
  | nil => rfl
  | cons ph phs ih =>
      by_cases hload : ph.isLoad = true
      · rw [List.filter_cons_of_pos hload, loadSegments, loadSegments, if_pos hload, if_pos hload]
        simp only [ih]
      · rw [List.filter_cons_of_neg hload, loadSegments, if_neg hload]
        exact ih k

/-- The number of pages of segments. -/
def pageTotal (phs : List ProgramHeader) : Nat := (phs.map fun ph => ph.endVpn - ph.startVpn).sum

theorem loadSegments_exact {elf : Elf} {k : Nat} {phs : List ProgramHeader}
    (hloads : ∀ ph ∈ phs, ph.isLoad = true) (h : ms.UserOk img.trampoline st)
    (ht : Tight st.mem ms.pageTable) (hbacks : img.Backs st ms.frames)
    (hoom : st.alloc.available < 3 * pageTotal phs → E .outOfFrames)
    (hbad : ¬ elf.SegmentsLoad (areaRanges ms.areas) phs → ∀ e, E e) :
    Meets E (loadSegments img elf ms k phs) st fun r st' =>
      elf.SegmentsLoad (areaRanges ms.areas) phs ∧ Extended img st ms st' r.1
        ∧ Tight st'.mem r.1.pageTable
        ∧ areaRanges r.1.areas
          = areaRanges ms.areas ++ phs.map (fun ph => (ph.startVpn, ph.endVpn))
        ∧ r.2 = (phs.getLast?.map (·.endVpn)).getD k
        ∧ st.alloc.available ≤ st'.alloc.available + 3 * pageTotal phs := by
  induction phs generalizing st ms k with
  | nil =>
      refine Meets.pure_iff.mpr ⟨trivial, ⟨h, Moves.refl h.owns⟩, ht, ?_, rfl, Nat.le_add_right _ _⟩
      exact (List.append_nil _).symm
  | cons ph phs ih =>
      have htotal : pageTotal (ph :: phs) = ph.endVpn - ph.startVpn + pageTotal phs := by
        rw [pageTotal, List.map_cons, List.sum_cons]
        rfl
      have hlt := ph.startVpn_lt
      have hle := ph.endVpn_le
      rw [loadSegments, if_pos (hloads ph List.mem_cons_self)]
      simp only [MapArea.new, Meets.bind_iff]
      refine (VPNRange.new_meets fun hlt => ?_).mono ?_
      · exact hbad (fun hall => absurd hall.1.1 (Nat.not_le.mpr hlt)) _
      rintro r _ ⟨rfl, hrs, hre⟩
      have hrs' : r.start = ph.startVpn := hrs
      have hre' : r.end_ = ph.endVpn := hre
      refine Meets.pure_iff.mpr ?_
      cases hdata : slice elf.input ph.offset ((ph.offset + ph.fileSize) % 2 ^ 64) with
      | none =>
          refine Meets.unwrap_none.mpr (hbad (fun hall => ?_) _)
          obtain ⟨data, hmem, -⟩ := hall.1.2.2
          rw [Elf.segmentData, hdata] at hmem
          cases hmem
      | some data =>
          rw [Meets.unwrap_some]
          refine (pushData_exact h ht hbacks (by omega) (by omega) ?_ ?_ ?_).mono ?_
          · intro hav
            exact hoom (by omega)
          · intro hocc
            rw [hrs', hre'] at hocc
            exact hbad (fun hall => hocc hall.1.2.1) _
          · intro hno
            rw [hrs', hre'] at hno
            refine hbad fun hall => hno ?_
            obtain ⟨data', hmem, hpages⟩ := hall.1.2.2
            rw [Elf.segmentData, hdata] at hmem
            cases hmem
            exact hpages
          rintro ms₁ st₁ ⟨hpush, htight, hvac, hpages⟩
          have hext := Extended.of_pushed h hpush
          have hranges := areaRanges_of_pushed hpush
          rw [hrs', hre'] at hranges hvac hpages
          have hseg : elf.SegmentLoads (areaRanges ms.areas) ph :=
            ⟨hrs' ▸ hre' ▸ r.le, hvac, data, hdata, hpages⟩
          have hav := hpush.avail
          rw [VPNRange.length_pages] at hav
          dsimp only at hav
          refine (ih (fun q hq => hloads q (List.mem_cons_of_mem _ hq)) hext.ok htight
            (hbacks.moves hext.moves) ?_ ?_).mono ?_
          · intro hlt'
            exact hoom (by omega)
          · intro hno
            rw [hranges] at hno
            exact hbad fun hall => hno hall.2
          rintro ⟨ms₂, k₂⟩ st₂ ⟨hrest, hext', htight', hranges', hlast, hav'⟩
          dsimp only at hext' htight' hranges' hlast ⊢
          rw [hranges] at hrest hranges'
          refine ⟨⟨hseg, hrest⟩, hext.trans hext', htight', ?_, ?_, by omega⟩
          · rw [hranges', List.append_assoc]
            rfl
          · rw [hlast, List.getLast?_cons]
            cases phs.getLast? with
            | none => exact hre'
            | some q => rfl

/-- A push without data. -/
theorem pushNew_exact {startVa endVa s e : Nat} {perm : MapPermission}
    (hs : VirtAddr.floor startVa = s) (he : VirtAddr.ceil endVa = e) (hlt : s < 2 ^ 27)
    (hle : e ≤ 2 ^ 27) (h : ms.UserOk img.trampoline st) (ht : Tight st.mem ms.pageTable)
    (hoom : st.alloc.available < 3 * (e - s) → E .outOfFrames)
    (hbad : ¬ (s ≤ e ∧ Vacant (areaRanges ms.areas) s e) → ∀ x, E x) :
    Meets E (ms.pushNew startVa endVa .framed perm) st fun ms' st' =>
      (s ≤ e ∧ Vacant (areaRanges ms.areas) s e) ∧ Extended img st ms st' ms'
        ∧ Tight st'.mem ms'.pageTable
        ∧ (∃ a, ms'.areas = ms.areas ++ [a] ∧ a.vpnRange.start = s ∧ a.vpnRange.end_ = e
          ∧ a.mapPerm = perm)
        ∧ st.alloc.available ≤ st'.alloc.available + 3 * (e - s) := by
  simp only [pushNew, MapArea.new, Meets.bind_iff]
  rw [hs, he]
  refine (VPNRange.new_meets fun hgt => ?_).mono ?_
  · exact hbad (fun hall => absurd hall.1 (Nat.not_le.mpr hgt)) _
  rintro r _ ⟨rfl, rfl, rfl⟩
  refine Meets.pure_iff.mpr ?_
  rw [pushArea, Meets.bind_iff]
  refine (map_exact h ht hlt hle hoom fun hocc => hbad (fun hall => hocc hall.2) _).mono ?_
  rintro ⟨a, pt⟩ st' ⟨hpush, htight, hvac, -⟩
  dsimp only at hpush htight
  have hav := hpush.avail
  rw [VPNRange.length_pages] at hav
  exact Meets.pure_iff.mpr
    ⟨⟨r.le, hvac⟩, Extended.of_pushed h hpush, htight, hpush.exists_area rfl rfl, hav⟩

/-- What `from_elf` returns: the segments, then stack, heap and trap context. -/
structure Built (img : KernelImage) (elf : Elf) (st : MemState) (ms : MemorySet) (st' : MemState) :
    Prop where
  ok : ms.UserOk img.trampoline st'
  moves : Moves (fun _ => False) st [] st' ms.frames
  tight : Tight st'.mem ms.pageTable
  areas : ∃ as stack heap trap, ms.areas = as ++ [stack, heap, trap] ∧ areaRanges as = elf.ranges
    ∧ (stack.vpnRange.start = elf.stackStart ∧ stack.vpnRange.end_ = elf.stackEnd
      ∧ stack.mapPerm = PTEFlags.R ||| PTEFlags.W ||| PTEFlags.U)
    ∧ (heap.vpnRange.start = elf.stackEnd ∧ heap.vpnRange.end_ = elf.stackEnd)
    ∧ trap.vpnRange.start = TRAP_CONTEXT_VPN ∧ trap.vpnRange.end_ = TRAMPOLINE_VPN
      ∧ trap.mapPerm = PTEFlags.R ||| PTEFlags.W

/-- A range without pages takes no place. -/
theorem vacant_append_empty {rs : List (Nat × Nat)} {s e t : Nat} :
    Vacant (rs ++ [(t, t)]) s e ↔ Vacant rs s e := by
  constructor
  · intro h r hr
    refine h r ?_
    rcases List.mem_cons.mp hr with rfl | hr
    · exact List.mem_cons_self
    · exact List.mem_cons_of_mem _ (List.mem_append_left _ hr)
  · intro h r hr
    rcases List.mem_cons.mp hr with rfl | hr
    · exact h _ List.mem_cons_self
    · rcases List.mem_append.mp hr with hr | hr
      · exact h r (List.mem_cons_of_mem _ hr)
      · rw [List.mem_singleton.mp hr]
        exact Or.inr (Or.inl (Nat.le_refl t))

theorem areaRanges_append (as bs : List MapArea) :
    areaRanges (as ++ bs) = areaRanges as ++ areaRanges bs := List.map_append

theorem pushUserAreas_exact {elf : Elf} (h : ms.UserOk img.trampoline st)
    (ht : Tight st.mem ms.pageTable) (hranges : areaRanges ms.areas = elf.ranges)
    (hoom : st.alloc.available < 9 → E .outOfFrames)
    (hbad : ¬ (elf.stackStart ≤ elf.stackEnd ∧ Vacant elf.ranges elf.stackStart elf.stackEnd
      ∧ Vacant (elf.ranges ++ [(elf.stackStart, elf.stackEnd)]) TRAP_CONTEXT_VPN
        (TRAP_CONTEXT_VPN + 1)) → ∀ e, E e) :
    Meets E (ms.pushUserAreas elf.lastEnd) st fun r st' =>
      (elf.stackStart ≤ elf.stackEnd ∧ Vacant elf.ranges elf.stackStart elf.stackEnd
        ∧ Vacant (elf.ranges ++ [(elf.stackStart, elf.stackEnd)]) TRAP_CONTEXT_VPN
          (TRAP_CONTEXT_VPN + 1))
      ∧ Extended img st ms st' r.1 ∧ Tight st'.mem r.1.pageTable
      ∧ (∃ stack heap trap, r.1.areas = ms.areas ++ [stack, heap, trap]
        ∧ (stack.vpnRange.start = elf.stackStart ∧ stack.vpnRange.end_ = elf.stackEnd
          ∧ stack.mapPerm = PTEFlags.R ||| PTEFlags.W ||| PTEFlags.U)
        ∧ (heap.vpnRange.start = elf.stackEnd ∧ heap.vpnRange.end_ = elf.stackEnd)
        ∧ trap.vpnRange.start = TRAP_CONTEXT_VPN ∧ trap.vpnRange.end_ = TRAMPOLINE_VPN
          ∧ trap.mapPerm = PTEFlags.R ||| PTEFlags.W)
      ∧ r.2 = elf.userStackTop
      ∧ st.alloc.available ≤ st'.alloc.available + 9 := by
  have hbottom := elf.floor_userStackBottom
  have htop := elf.ceil_userStackTop
  have htop' := elf.floor_userStackTop
  have hstart : elf.stackStart < 2 ^ 27 := Nat.mod_lt _ (by decide)
  have hend : elf.stackEnd < 2 ^ 27 := Nat.mod_lt _ (by decide)
  have htwo : elf.stackStart ≤ elf.stackEnd → elf.stackEnd - elf.stackStart ≤ 2 := by
    simp only [Elf.stackStart, Elf.stackEnd]
    omega
  have hunfold : ms.pushUserAreas elf.lastEnd = (do
      let ms ← ms.pushNew (VirtAddr.from elf.userStackBottom) (VirtAddr.from elf.userStackTop)
        .framed (PTEFlags.R ||| PTEFlags.W ||| PTEFlags.U)
      let ms ← ms.pushNew (VirtAddr.from elf.userStackTop) (VirtAddr.from elf.userStackTop)
        .framed (PTEFlags.R ||| PTEFlags.W ||| PTEFlags.U)
      let ms ← ms.pushNew (VirtAddr.from TRAP_CONTEXT) (VirtAddr.from TRAMPOLINE) .framed
        (PTEFlags.R ||| PTEFlags.W)
      pure (ms, elf.userStackTop)) := rfl
  rw [hunfold]
  simp only [Meets.bind_iff]
  refine (pushNew_exact hbottom htop hstart (Nat.le_of_lt hend) h ht ?_ ?_).mono ?_
  · intro hlt
    refine hoom ?_
    omega
  · rw [hranges]
    exact fun hno => hbad fun hall => hno ⟨hall.1, hall.2.1⟩
  rintro ms₁ st₁ ⟨hstack, h₁, ht₁, ⟨stack, hareas₁, hs₁, he₁, hp₁⟩, hav₁⟩
  rw [hranges] at hstack
  have htwo' := htwo hstack.1
  refine (pushNew_exact htop' htop hend (Nat.le_of_lt hend) h₁.ok ht₁ ?_ ?_).mono ?_
  · intro hlt
    omega
  · exact fun hno => absurd ⟨Nat.le_refl _, fun r hr => Or.inl (Nat.le_refl _)⟩ hno
  rintro ms₂ st₂ ⟨-, h₂, ht₂, ⟨heap, hareas₂, hs₂, he₂, -⟩, hav₂⟩
  have hext := h₁.trans h₂
  have hranges₂ : areaRanges ms₂.areas = elf.ranges ++ [(elf.stackStart, elf.stackEnd)]
      ++ [(elf.stackEnd, elf.stackEnd)] := by
    rw [hareas₂, hareas₁, areaRanges_append, areaRanges_append, hranges, ← hs₁, ← he₁]
    simp only [areaRanges, List.map_singleton]
    rw [hs₂, he₂, he₁]
  refine (pushNew_exact floor_trapContext ceil_trampoline (by decide) (by decide) h₂.ok ht₂ ?_
    ?_).mono ?_
  · intro hlt
    refine hoom ?_
    simp only [TRAMPOLINE_VPN, TRAP_CONTEXT_VPN] at hlt
    omega
  · rw [hranges₂, vacant_append_empty]
    refine fun hno => hbad fun hall => hno ⟨by decide, ?_⟩
    exact hall.2.2
  rintro ms₃ st₃ ⟨htrapv, h₃, ht₃, ⟨trap, hareas₃, hs₃, he₃, hp₃⟩, hav₃⟩
  rw [hranges₂, vacant_append_empty] at htrapv
  refine Meets.pure_iff.mpr ⟨⟨hstack.1, hstack.2, htrapv.2⟩, hext.trans h₃, ht₃, ⟨stack, heap, trap,
    ?_, ⟨hs₁, he₁, hp₁⟩, ⟨hs₂, he₂⟩, hs₃, he₃, hp₃⟩, rfl, ?_⟩
  · rw [hareas₃, hareas₂, hareas₁]
    simp only [List.append_assoc, List.cons_append, List.nil_append]
  · simp only [TRAMPOLINE_VPN, TRAP_CONTEXT_VPN] at hav₃
    omega

/-- A page table with the trampoline alone. -/
theorem newUser_tight (hwf : st.alloc.Wf) :
    Meets (fun _ => True) (do let ms ← newBare; ms.mapTrampoline img) st fun ms st' =>
      Tight st'.mem ms.pageTable := by
  simp only [newBare, Meets.bind_iff]
  refine (new_meets (X := fun _ => False) (Owns.nil hwf) fun _ => trivial).mono ?_
  rintro pt st₁ ⟨ht, hm, hnone, -⟩
  have htight : Tight st₁.mem pt := fun v _ hne => absurd (hnone v) hne
  refine Meets.pure_iff.mpr ?_
  rw [mapTrampoline, Meets.bind_iff, Meets.ensure_iff, floor_trampoline]
  refine ⟨fun _ => ?_, fun _ => trivial⟩
  rw [Meets.bind_iff]
  refine (htight.map ht hm.owns (by decide) img.trampoline_lt_two_pow).mono ?_
  exact fun pt' st' h => Meets.pure_iff.mpr h

/-- The frames that suffice: a page takes at most three. -/
def Elf.framesNeeded (elf : Elf) : Nat := 3 * pageTotal elf.loads + 12

/-- `from_elf` returns for the programs that load, and for no other. -/
theorem fromElf_exact {elf : Elf} (hwf : st.alloc.Wf) (hbacks : img.Backs st [])
    (hoom : st.alloc.available < elf.framesNeeded → E .outOfFrames)
    (hbad : ¬ elf.Loadable → ∀ e, E e) :
    Meets E (fromElf img elf) st fun r st' => elf.Loadable ∧ Built img elf st r.1 st'
      ∧ r.2 = (elf.userStackTop, elf.entryPoint)
      ∧ st.alloc.available ≤ st'.alloc.available + elf.framesNeeded := by
  have hunfold : fromElf img elf = ((do let ms ← newBare; ms.mapTrampoline img) >>= fun ms => do
      let loaded ← loadSegments img elf ms 0 elf.loads
      let pushed ← loaded.1.pushUserAreas loaded.2
      pure (pushed.1, pushed.2, elf.entryPoint)) := by
    simp only [fromElf_eq, loadSegments_filter elf 0 elf.programHeaders, Elf.loads]
  unfold Elf.framesNeeded at hoom
  rw [hunfold, Meets.bind_iff]
  refine ((newUser_meets (X := fun _ => False) (Owns.nil hwf)
    fun hlt => hoom (by omega)).and (newUser_tight hwf)).mono ?_
  rintro ms₀ st₀ ⟨⟨hok, hnil, hm, hav₀⟩, ht₀⟩
  have huser := hok.userOk_of_nil hnil
  have hranges₀ : areaRanges ms₀.areas = [] := by
    rw [hnil]
    rfl
  have hloads : ∀ ph ∈ elf.loads, ph.isLoad = true := fun ph hph => (List.mem_filter.mp hph).2
  rw [Meets.bind_iff]
  refine (loadSegments_exact hloads huser ht₀ (hbacks.moves hm) (fun hlt => hoom (by omega))
    ?_).mono ?_
  · rw [hranges₀]
    exact fun hno => hbad fun hall => hno hall.1
  rintro ⟨ms₁, k⟩ st₁ ⟨hsegs, h₁, ht₁, hranges₁, hlast, hav₁⟩
  dsimp only at h₁ ht₁ hranges₁ hlast ⊢
  rw [hranges₀] at hsegs
  rw [hranges₀, List.nil_append] at hranges₁
  have hk : k = elf.lastEnd := hlast
  rw [Meets.bind_iff, hk]
  refine (pushUserAreas_exact h₁.ok ht₁ hranges₁ (fun hlt => hoom (by omega)) ?_).mono ?_
  · exact fun hno => hbad fun hall => hno hall.2
  rintro ⟨ms₂, top⟩ st₂ ⟨hrest, h₂, ht₂, ⟨stack, heap, trap, hareas, hstack, hheap, htrap⟩, htop,
    hav₂⟩
  dsimp only at h₂ ht₂ hareas htop ⊢
  refine Meets.pure_iff.mpr ⟨⟨hsegs, hrest⟩, ⟨h₂.ok, hm.trans (h₁.moves.trans h₂.moves), ht₂,
    ms₁.areas, stack, heap, trap, hareas, hranges₁, hstack, hheap, htrap⟩, ?_, ?_⟩
  · rw [htop]
  · unfold Elf.framesNeeded
    omega

end Push

/-! ## The stack -/

/-- Segments on ranges of their own, with room for guard page and stack below the trap context. -/
structure Elf.Spaced (elf : Elf) : Prop where
  room : ∀ ph ∈ elf.loads, ph.virtualAddr % 2 ^ 39 + ph.memSize ≤ (TRAP_CONTEXT_VPN - 3) * 4096
  apart : elf.loads.Pairwise fun ph qh => ph.endVpn ≤ qh.startVpn ∨ qh.endVpn ≤ ph.startVpn

/-- The user stack that ends at `top` is above all segments and an unmapped page. -/
structure StackPlaced (elf : Elf) (tramp : Nat) (m : Mem) (pt : PageTable) (top : Nat) : Prop where
  stack : ∀ va, top - USER_STACK_SIZE ≤ va → va < top → ∃ e, pt.lookup m (pageOf va) = some e
    ∧ e.flags = PTEFlags.R ||| PTEFlags.W ||| PTEFlags.U ||| PTEFlags.V
    ∧ pageOf va ≠ TRAP_CONTEXT_VPN ∧ pageOf va ≠ TRAMPOLINE_VPN
  above : ∀ ph ∈ elf.loads,
    ph.virtualAddr % 2 ^ 39 + ph.memSize ≤ (top - USER_STACK_SIZE) % 2 ^ 39
  apart : ∀ ph ∈ elf.loads, ∀ i, i < ph.memSize →
    (∀ va, top - USER_STACK_SIZE ≤ va → va < top → pageOf (ph.virtualAddr + i) ≠ pageOf va)
      ∧ pageOf (ph.virtualAddr + i) ≠ TRAP_CONTEXT_VPN
      ∧ pageOf (ph.virtualAddr + i) ≠ TRAMPOLINE_VPN
  guard : pt.lookup m (pageOf (top - USER_STACK_SIZE - 1)) = none
  trapContext : ∃ e, pt.lookup m TRAP_CONTEXT_VPN = some e
    ∧ e.flags = PTEFlags.R ||| PTEFlags.W ||| PTEFlags.V
  trampoline : pt.lookup m TRAMPOLINE_VPN = some (trampolineEntry tramp)

/-- No segment ends above the last one, but for an empty one at the page above. -/
def Elf.LastIsHighest (elf : Elf) : Prop :=
  ∀ ph ∈ elf.loads, ph.endVpn ≤ elf.lastEnd
    ∨ ph.startVpn = elf.lastEnd + 1 ∧ ph.endVpn = elf.lastEnd + 1

instance (elf : Elf) : Decidable elf.LastIsHighest :=
  inferInstanceAs (Decidable (∀ ph ∈ elf.loads, _))

namespace Elf.Spaced

variable {elf : Elf}

theorem endVpn_eq (h : elf.Spaced) {ph : ProgramHeader} (hph : ph ∈ elf.loads) :
    ph.endVpn = (ph.virtualAddr % 2 ^ 39 + ph.memSize + 4095) / 4096
      ∧ ph.endVpn ≤ TRAP_CONTEXT_VPN - 3 := by
  have hroom := h.room ph hph
  simp only [TRAP_CONTEXT_VPN] at hroom ⊢
  rw [ph.endVpn_eq]
  omega

theorem lastEnd_le (h : elf.Spaced) : elf.lastEnd ≤ TRAP_CONTEXT_VPN - 3 := by
  unfold Elf.lastEnd
  cases hlast : elf.loads.getLast? with
  | none => exact Nat.zero_le _
  | some ph => exact (h.endVpn_eq (List.mem_of_getLast? hlast)).2

/-- The stack is the two pages after the guard page, where nothing wraps. -/
theorem stack_eq (h : elf.Spaced) : elf.stackStart = elf.lastEnd + 1
    ∧ elf.stackEnd = elf.lastEnd + 3 ∧ elf.userStackTop = elf.userStackBottom + USER_STACK_SIZE
    ∧ elf.userStackTop < 2 ^ 64 ∧ elf.userStackBottom % 2 ^ 39 = (elf.lastEnd + 1) * 4096
    ∧ 4096 ≤ elf.userStackBottom := by
  have hle := h.lastEnd_le
  simp only [TRAP_CONTEXT_VPN] at hle
  have huse : VirtAddr.toUsize (VirtAddr.ofVpn elf.lastEnd) = elf.lastEnd * 4096
      ∨ VirtAddr.toUsize (VirtAddr.ofVpn elf.lastEnd)
        = 2 ^ 64 - 2 ^ 39 + elf.lastEnd * 4096 := by
    rw [ofVpn_eq]
    by_cases hlow : elf.lastEnd * 4096 < 2 ^ 38
    · exact Or.inl (toUsize_low hlow)
    · exact Or.inr (toUsize_high (by omega) (by omega))
  simp only [Elf.stackStart, Elf.stackEnd, Elf.userStackTop, Elf.userStackBottom, PAGE_SIZE,
    USER_STACK_SIZE]
  omega

/-- Above the highest segment there is room for the stack. -/
theorem loadable (h : elf.Spaced) (hsegs : elf.SegmentsLoad [] elf.loads)
    (hlast : elf.LastIsHighest) : elf.Loadable := by
  obtain ⟨hs, he, -⟩ := h.stack_eq
  have hle := h.lastEnd_le
  simp only [TRAP_CONTEXT_VPN] at hle
  have hseg : ∀ r ∈ elf.ranges, r.2 ≤ elf.lastEnd ∨ r.2 ≤ r.1 := by
    intro r hr
    obtain ⟨ph, hph, rfl⟩ := List.mem_map.mp hr
    have := hlast ph hph
    dsimp only
    omega
  refine ⟨hsegs, by omega, fun r hr => ?_, fun r hr => ?_⟩
  · rcases List.mem_cons.mp hr with rfl | hr
    · simp only [TRAMPOLINE_VPN]
      omega
    · have := hseg r hr
      omega
  · simp only [TRAP_CONTEXT_VPN]
    rcases List.mem_cons.mp hr with rfl | hr
    · simp only [TRAMPOLINE_VPN]
      omega
    · rcases List.mem_append.mp hr with hr | hr
      · have := hseg r hr
        omega
      · rw [List.mem_singleton.mp hr]
        dsimp only
        omega

/-- The pages of the user stack. -/
theorem pageOf_stack (h : elf.Spaced) {va : Nat} (hlo : elf.userStackTop - USER_STACK_SIZE ≤ va)
    (hhi : va < elf.userStackTop) : elf.stackStart ≤ pageOf va ∧ pageOf va < elf.stackEnd := by
  obtain ⟨hs, he, htop, -, hmod, -⟩ := h.stack_eq
  have hle := h.lastEnd_le
  simp only [TRAP_CONTEXT_VPN] at hle
  rw [pageOf_eq]
  simp only [USER_STACK_SIZE] at htop hlo
  omega

/-- The pages of a segment. -/
theorem pageOf_segment (h : elf.Spaced) {ph : ProgramHeader} (hph : ph ∈ elf.loads) {i : Nat}
    (hi : i < ph.memSize) :
    ph.startVpn ≤ pageOf (ph.virtualAddr + i) ∧ pageOf (ph.virtualAddr + i) < ph.endVpn := by
  have hroom := h.room ph hph
  simp only [TRAP_CONTEXT_VPN] at hroom
  rw [(h.endVpn_eq hph).1, ph.startVpn_eq, pageOf_eq]
  omega

end Elf.Spaced

section Stack

variable {img : KernelImage} {elf : Elf} {st st' : MemState} {ms : MemorySet}

/-- The pages of the program, stack and trap context. -/
theorem Built.mapped_iff (h : Built img elf st ms st') {v : Nat} (hv : v < 2 ^ 27) :
    ms.pageTable.lookup st'.mem v ≠ none ↔ (∃ ph ∈ elf.loads, ph.startVpn ≤ v ∧ v < ph.endVpn)
      ∨ (elf.stackStart ≤ v ∧ v < elf.stackEnd) ∨ v = TRAP_CONTEXT_VPN ∨ v = TRAMPOLINE_VPN := by
  obtain ⟨as, stack, heap, trap, hareas, hranges, hstack, hheap, htrap⟩ := h.areas
  have hall : areaRanges ms.areas = elf.ranges ++ [(elf.stackStart, elf.stackEnd),
      (elf.stackEnd, elf.stackEnd), (TRAP_CONTEXT_VPN, TRAMPOLINE_VPN)] := by
    rw [hareas, areaRanges_append, hranges]
    simp only [areaRanges, List.map_cons, List.map_nil, hstack.1, hstack.2.1, hheap.1, hheap.2,
      htrap.1, htrap.2.1]
  rw [mapped_iff_range h.ok.space hv, hall]
  simp only [withTrampoline, Elf.ranges, List.mem_cons, List.mem_append, List.mem_map,
    List.not_mem_nil, or_false, TRAP_CONTEXT_VPN, TRAMPOLINE_VPN]
  constructor
  · rintro ⟨r, rfl | ⟨ph, hph, rfl⟩ | rfl | rfl | rfl, hlo, hhi⟩
    · exact Or.inr (Or.inr (Or.inr (by omega)))
    · exact Or.inl ⟨ph, hph, hlo, hhi⟩
    · exact Or.inr (Or.inl ⟨hlo, hhi⟩)
    · exact absurd hlo (Nat.not_le.mpr hhi)
    · exact Or.inr (Or.inr (Or.inl (by omega)))
  · rintro (⟨ph, hph, hv⟩ | hv | rfl | rfl)
    · exact ⟨_, Or.inr (Or.inl ⟨ph, hph, rfl⟩), hv⟩
    · exact ⟨_, Or.inr (Or.inr (Or.inl rfl)), hv⟩
    · exact ⟨_, Or.inr (Or.inr (Or.inr (Or.inr rfl))), by decide⟩
    · exact ⟨_, Or.inl rfl, by decide⟩

/-- The entry of a page of an area. -/
theorem Built.entry (h : Built img elf st ms st') {a : MapArea} (ha : a ∈ ms.areas) {v : Nat}
    (hv : a.Has v) : ∃ e, ms.pageTable.lookup st'.mem v = some e
      ∧ e.flags = a.mapPerm ||| PTEFlags.V ∧ e.ppn ∈ dataPpns ms.areas := by
  have hlt : ∀ p ∈ dataPpns ms.areas, p < 2 ^ 44 :=
    fun p hp => h.ok.owns.lt_two_pow (List.mem_append_right _ hp)
  obtain ⟨p, e, -, hmem, hlook, hentry, hppn⟩ :=
    framed_page h.ok.space ha (h.ok.framed a ha) hv hlt
  exact ⟨e, hlook, by rw [hentry, PageTableEntry.flags_new (hlt p hmem)], hppn ▸ hmem⟩

/-- Where the last segment is the highest, the stack is above all. -/
theorem Built.stackPlaced (h : Built img elf st ms st') (hs : elf.Spaced)
    (hlast : elf.LastIsHighest) :
    StackPlaced elf img.trampoline st'.mem ms.pageTable elf.userStackTop := by
  have hmapped := fun v hv => h.mapped_iff (v := v) hv
  obtain ⟨as, stack, heap, trap, hareas, -, hstack, -, htrap⟩ := h.areas
  obtain ⟨hstart, hend, htop, hlt, hmod, hpos⟩ := hs.stack_eq
  have hbelow : elf.userStackTop - USER_STACK_SIZE = elf.userStackBottom := by
    rw [htop, Nat.add_sub_cancel]
  have hle := hs.lastEnd_le
  have hvpn : TRAP_CONTEXT_VPN = 2 ^ 27 - 2 := rfl
  have hvpn' : TRAMPOLINE_VPN = 2 ^ 27 - 1 := rfl
  refine ⟨fun va hlo hhi => ?_, fun ph hph => ?_, fun ph hph i hi => ?_, ?_, ?_,
    h.ok.space.trampoline⟩
  · have hpage := hs.pageOf_stack hlo hhi
    have hin : stack ∈ ms.areas := by
      rw [hareas]
      simp only [List.mem_append, List.mem_cons, true_or, or_true]
    obtain ⟨e, hlook, hflags, -⟩ := h.entry hin (v := pageOf va) (by
      rw [MapArea.Has, hstack.1, hstack.2.1]
      exact hpage)
    refine ⟨e, hlook, by rw [hflags, hstack.2.2], by omega, by omega⟩
  · have hhigh := hlast ph hph
    rw [(hs.endVpn_eq hph).1, ph.startVpn_eq] at hhigh
    rw [hbelow, hmod]
    omega
  · have hpage := hs.pageOf_segment hph hi
    have hhigh := hlast ph hph
    have hroom := (hs.endVpn_eq hph).2
    refine ⟨fun va hlo hhi => ?_, by omega, by omega⟩
    have hpage' := hs.pageOf_stack hlo hhi
    omega
  · have hpage : pageOf (elf.userStackTop - USER_STACK_SIZE - 1) = elf.lastEnd := by
      rw [hbelow, pageOf_eq]
      omega
    rw [hpage]
    by_contra hne
    rcases (hmapped _ (by omega)).mp hne with ⟨ph, hph, hv⟩ | hv | hv | hv
    · have := hlast ph hph
      omega
    all_goals omega
  · have hin : trap ∈ ms.areas := by
      rw [hareas]
      simp only [List.mem_append, List.mem_cons, true_or, or_true]
    obtain ⟨e, hlook, hflags, -⟩ := h.entry hin (v := TRAP_CONTEXT_VPN) (by
      rw [MapArea.Has, htrap.1, htrap.2.1]
      decide)
    exact ⟨e, hlook, by rw [hflags, htrap.2.2]⟩

/-- A segment above the last one reaches the guard page or the stack. -/
theorem Built.lastIsHighest (h : Built img elf st ms st') (hs : elf.Spaced)
    (hplaced : StackPlaced elf img.trampoline st'.mem ms.pageTable elf.userStackTop) :
    elf.LastIsHighest := by
  intro ph hph
  obtain ⟨-, -, htop, -, hmod, hpos⟩ := hs.stack_eq
  have hbelow : elf.userStackTop - USER_STACK_SIZE = elf.userStackBottom := by
    rw [htop, Nat.add_sub_cancel]
  have hle := hs.lastEnd_le
  have hvpn : TRAP_CONTEXT_VPN = 2 ^ 27 - 2 := rfl
  have habove := hplaced.above ph hph
  rw [hbelow, hmod] at habove
  have hpage : pageOf (elf.userStackTop - USER_STACK_SIZE - 1) = elf.lastEnd := by
    rw [hbelow, pageOf_eq]
    omega
  have hguard : ¬ (ph.startVpn ≤ elf.lastEnd ∧ elf.lastEnd < ph.endVpn) := fun hv =>
    (h.mapped_iff (by omega)).mpr (Or.inl ⟨ph, hph, hv⟩) (hpage ▸ hplaced.guard)
  rw [(hs.endVpn_eq hph).1] at hguard ⊢
  rw [ph.startVpn_eq] at hguard ⊢
  omega

/-- `from_elf` puts the stack above the segments if and only if the last of them is the
    highest. -/
theorem user_stack_above_segments (hwf : st.alloc.Wf) (hbacks : img.Backs st [])
    (hs : elf.Spaced) (hframes : elf.framesNeeded ≤ st.alloc.available) :
    (∃ ms sp entry st', fromElf img elf st = .ok ((ms, sp, entry), st')
      ∧ StackPlaced elf img.trampoline st'.mem ms.pageTable sp)
    ↔ elf.SegmentsLoad [] elf.loads ∧ elf.LastIsHighest := by
  constructor
  · rintro ⟨ms, sp, entry, st', hrun, hplaced⟩
    obtain ⟨hload, hbuilt, hsp, -⟩ := (fromElf_exact hwf hbacks (fun _ => trivial)
      fun _ _ => trivial : Meets (fun _ => True) _ _ _).ok hrun
    have htop := (Prod.mk.inj hsp).1
    rw [htop] at hplaced
    exact ⟨hload.1, hbuilt.lastIsHighest hs hplaced⟩
  · rintro ⟨hsegs, hlast⟩
    obtain ⟨⟨ms, sp, entry⟩, st', hrun, -, hbuilt, hsp, -⟩ := Meets.exists_ok
      (fromElf_exact hwf hbacks (fun hlt => Nat.not_lt.mpr hframes hlt)
        fun hno _ => hno (hs.loadable hsegs hlast))
    dsimp only at hbuilt hsp
    rw [hsp] at hrun
    exact ⟨ms, _, _, st', hrun, hbuilt.stackPlaced hs hlast⟩

end Stack

/-- A program that loads is loaded after boot. -/
theorem exists_built {elf : Elf} (h : elf.Loadable) (hframes : elf.framesNeeded ≤ 0x900) :
    ∃ ms st', fromElf default elf ⟨fun _ => 0, KernelImage.initFrameAllocator default⟩
        = .ok ((ms, elf.userStackTop, elf.entryPoint), st')
      ∧ Built default elf ⟨fun _ => 0, KernelImage.initFrameAllocator default⟩ ms st' := by
  have htotal : (KernelImage.initFrameAllocator default).available = 0x900 := by decide
  obtain ⟨⟨ms, r⟩, st', hrun, -, hbuilt, hr, -⟩ := Meets.exists_ok
    (@fromElf_exact default (fun _ => False)
      ⟨fun _ => 0, KernelImage.initFrameAllocator default⟩ elf
      (KernelImage.wf_initFrameAllocator default) (KernelImage.Backs.init default _)
      (fun hlt => Nat.not_lt.mpr hframes (htotal ▸ hlt)) fun hno _ => hno h)
  dsimp only at hbuilt hr
  rw [hr] at hrun
  exact ⟨ms, st', hrun, hbuilt⟩

/-- An entry of the program header table. -/
def ProgramHeader.bytes (ph : ProgramHeader) : List UInt8 :=
  leBytes 4 (if ph.isLoad then 1 else 0)
    ++ leBytes 4 ((if ph.isExecute then 1 else 0) + (if ph.isWrite then 2 else 0)
      + (if ph.isRead then 4 else 0))
    ++ leBytes 8 ph.offset ++ leBytes 8 ph.virtualAddr ++ leBytes 8 ph.virtualAddr
    ++ leBytes 8 ph.fileSize ++ leBytes 8 ph.memSize ++ leBytes 8 0x1000

/-- An executable for RISC-V: 64 bytes of header, the program headers, and `data`. -/
def elfFile (entryPoint : Nat) (phs : List ProgramHeader) (data : List UInt8) : Elf where
  input := [0x7f, 0x45, 0x4c, 0x46, 2, 1, 1, 0] ++ leBytes 8 0 ++ leBytes 2 2 ++ leBytes 2 0xf3
    ++ leBytes 4 1 ++ leBytes 8 entryPoint ++ leBytes 8 64 ++ leBytes 8 0 ++ leBytes 4 0
    ++ leBytes 2 64 ++ leBytes 2 56 ++ leBytes 2 phs.length ++ leBytes 2 64 ++ leBytes 2 0
    ++ leBytes 2 0 ++ phs.flatMap ProgramHeader.bytes ++ data
  programHeaders := phs
  entryPoint := entryPoint

/-- Four bytes of code at `0x1000` and two bytes of data at `0x4000`. -/
def sortedElf : Elf :=
  elfFile 0x1000 [⟨true, 0x1000, 0x1000, 176, 4, true, false, true⟩,
    ⟨true, 0x4000, 0x1000, 180, 2, true, true, false⟩] [1, 2, 3, 4, 5, 6]

/-- The same segments with the headers the other way round. -/
def unsortedElf : Elf :=
  elfFile 0x1000 [⟨true, 0x4000, 0x1000, 180, 2, true, true, false⟩,
    ⟨true, 0x1000, 0x1000, 176, 4, true, false, true⟩] [1, 2, 3, 4, 5, 6]

theorem user_stack_above_segments_sorted : ∃ ms sp entry st',
    fromElf default sortedElf ⟨fun _ => 0, KernelImage.initFrameAllocator default⟩
      = .ok ((ms, sp, entry), st')
    ∧ StackPlaced sortedElf (KernelImage.trampoline default) st'.mem ms.pageTable sp :=
  (user_stack_above_segments (KernelImage.wf_initFrameAllocator default)
    (KernelImage.Backs.init default _) ⟨by decide, by decide⟩ (by decide)).mpr
    ⟨by decide +kernel, by decide +kernel⟩

/-- The stack is put after the code, where the data is: `from_elf` panics. -/
theorem unsorted_segments_panic : unsortedElf.Spaced ∧ unsortedElf.framesNeeded ≤ 0x900
    ∧ (KernelImage.initFrameAllocator default).available = 0x900
    ∧ ∀ r, fromElf default unsortedElf
      ⟨fun _ => 0, KernelImage.initFrameAllocator default⟩ ≠ .ok r := by
  refine ⟨⟨by decide, by decide⟩, by decide, by decide, fun r hrun => ?_⟩
  have hmeets := @fromElf_exact default (fun _ => True)
    ⟨fun _ => 0, KernelImage.initFrameAllocator default⟩ unsortedElf
    (KernelImage.wf_initFrameAllocator default) (KernelImage.Backs.init default _)
    (fun _ => trivial) fun _ _ => trivial
  exact absurd (hmeets.ok hrun).1 (by decide +kernel)

end Nimloth
