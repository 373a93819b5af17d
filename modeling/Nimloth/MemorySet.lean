import Mathlib.Data.List.Basic
import Mathlib.Data.List.Perm.Basic
import Nimloth.CopyData

/-!
# Address spaces

`MemorySet` of `os/src/mm/memory_set.rs`: a page table and the areas
mapped in it. `Space tramp m pt areas` is what ties the two together: the
areas are apart from each other, each page of an area has the entry the
area has for it, and but for the trampoline no other page is mapped. Every
function that changes an area replaces it by another one; `Space.replace`
is the one place where the invariant is shown to survive that.
-/

namespace Nimloth

open Outcome PageTable

/-! ## The code -/

structure MemorySet where
  pageTable : PageTable
  areas : List MapArea

namespace MemorySet

def newBare : MemM MemorySet := do
  let pt ← PageTable.new
  pure ⟨pt, []⟩

/-- `push(area, None)`. -/
def pushArea (ms : MemorySet) (area : MapArea) : MemM MemorySet := do
  let (area, pt) ← area.map ms.pageTable
  pure ⟨pt, ms.areas ++ [area]⟩

/-- `push(area, Some(data))`; the data is copied to the start of the area. -/
def pushData (img : KernelImage) (ms : MemorySet) (area : MapArea) (data : List UInt8) :
    MemM MemorySet := do
  let (area, pt) ← area.map ms.pageTable
  area.copyData img pt data
  pure ⟨pt, ms.areas ++ [area]⟩

/-- `push(MapArea::new(..), None)`. -/
def pushNew (ms : MemorySet) (startVa endVa : Nat) (mapType : MapType) (perm : MapPermission) :
    MemM MemorySet := do
  let area ← MapArea.new startVa endVa mapType perm
  ms.pushArea area

def insertFramedArea (ms : MemorySet) (startVa endVa : Nat) (perm : MapPermission) :
    MemM MemorySet :=
  ms.pushNew startVa endVa .framed perm

def mapTrampoline (img : KernelImage) (ms : MemorySet) : MemM MemorySet := do
  ensure .notAligned (img.strampoline % PAGE_SIZE = 0)
  let pt ← ms.pageTable.map (VirtAddr.floor (VirtAddr.from TRAMPOLINE)) img.trampoline
    (PTEFlags.R ||| PTEFlags.X)
  pure { ms with pageTable := pt }

def translate (m : Mem) (ms : MemorySet) (vpn : Nat) : Option PageTableEntry :=
  ms.pageTable.translate m vpn

def token (ms : MemorySet) : Nat := ms.pageTable.token

/-- `remove_area_with_start_vpn`; the area removed is dropped. -/
def removeAreaWithStartVpn (ms : MemorySet) (startVpn : Nat) : MemM MemorySet := do
  match ms.areas.findIdx? (·.vpnRange.start = startVpn) with
  | none => pure ms
  | some idx =>
      match ms.areas[idx]? with
      | none => pure ms
      | some area =>
          let area ← area.unmap ms.pageTable
          dropFrames area.ppns
          pure { ms with areas := ms.areas.eraseIdx idx }

/-- `append_to` of area `idx`. -/
def appendTo (ms : MemorySet) (idx newEnd : Nat) : MemM MemorySet := do
  match ms.areas[idx]? with
  | none => pure ms
  | some area =>
      let (area, pt) ← area.appendTo ms.pageTable newEnd
      pure ⟨pt, ms.areas.set idx area⟩

/-- `shrink_to` of area `idx`. -/
def shrinkTo (ms : MemorySet) (idx newEnd : Nat) : MemM MemorySet := do
  match ms.areas[idx]? with
  | none => pure ms
  | some area =>
      let area ← area.shrinkTo ms.pageTable newEnd
      pure { ms with areas := ms.areas.set idx area }

/-- The inner loop of `from_existed_user`. -/
def copyPages (src dst : PageTable) : List Nat → MemM Unit
  | [] => pure ()
  | vpn :: vpns => do
      let st ← get
      let srcPte ← unwrap .noTable (src.translate st.mem vpn)
      let dstPte ← unwrap .noTable (dst.translate st.mem vpn)
      set { st with mem := st.mem.write (dstPte.ppn * 4096) (st.mem.frame srcPte.ppn) }
      copyPages src dst vpns

/-- The outer loop of `from_existed_user`. -/
def copyAreas (userSpace : MemorySet) : MemorySet → List MapArea → MemM MemorySet
  | ms, [] => pure ms
  | ms, area :: areas => do
      let newArea ← MapArea.fromAnother area
      let ms ← ms.pushArea newArea
      copyPages userSpace.pageTable ms.pageTable area.vpnRange.pages
      copyAreas userSpace ms areas

def fromExistedUser (img : KernelImage) (userSpace : MemorySet) : MemM MemorySet := do
  let ms ← newBare
  let ms ← ms.mapTrampoline img
  copyAreas userSpace ms userSpace.areas

/-- The frames of the trackers in the areas, in the order of their drop. -/
def dataPpns (areas : List MapArea) : List Nat := areas.flatMap MapArea.ppns

/-- All frames held by the address space. -/
def frames (ms : MemorySet) : List Nat := ms.pageTable.frames ++ dataPpns ms.areas

def recycleDataPages (ms : MemorySet) : MemM MemorySet := do
  dropFrames (dataPpns ms.areas)
  pure { ms with areas := [] }

/-- The drop of a `MemorySet`: the page table, then the areas. -/
def drop (ms : MemorySet) : MemM Unit := do
  dropFrames ms.pageTable.frames
  dropFrames (dataPpns ms.areas)

end MemorySet

/-! ## Pages of well-formed areas -/

/-- The keys of `data_frames` are the pages of the area; the trampoline is above. -/
structure MapArea.Ok (a : MapArea) : Prop where
  keys : a.keys = if a.mapType = .framed then a.vpnRange.pages else []
  le : a.vpnRange.end_ ≤ TRAMPOLINE_VPN

namespace MapArea.Ok

variable {a : MapArea} {v : Nat}

theorem nodup_keys (h : a.Ok) : a.keys.Nodup := by
  rw [h.keys]
  split
  · exact a.vpnRange.nodup_pages
  · exact List.nodup_nil

theorem lt (h : a.Ok) (hv : a.Has v) : v < TRAMPOLINE_VPN := Nat.lt_of_lt_of_le hv.2 h.le

theorem exists_entry (h : a.Ok) (hv : a.Has v) : ∃ e, a.pageEntry v = some e := by
  have hkeys := h.keys
  unfold pageEntry
  cases htype : a.mapType with
  | identical => exact ⟨_, rfl⟩
  | framed =>
      rw [htype, if_pos rfl] at hkeys
      have hmem : v ∈ a.keys := by
        rw [hkeys]
        exact VPNRange.mem_pages.mpr hv
      obtain ⟨p, hp⟩ := exists_lookup_of_mem_keys hmem
      exact ⟨_, by rw [hp]; rfl⟩

/-- A page of a framed area is mapped to a frame of the area. -/
theorem exists_frame (h : a.Ok) (htype : a.mapType = .framed) (hv : a.Has v) :
    ∃ p, a.dataFrames.lookup v = some p ∧ p ∈ a.ppns
      ∧ a.pageEntry v = some (PageTableEntry.new p (a.mapPerm ||| PTEFlags.V)) := by
  have hkeys := h.keys
  rw [htype, if_pos rfl] at hkeys
  have hmem : v ∈ a.keys := by
    rw [hkeys]
    exact VPNRange.mem_pages.mpr hv
  obtain ⟨p, hp⟩ := exists_lookup_of_mem_keys hmem
  refine ⟨p, hp, List.mem_map_of_mem (mem_of_lookup hp), ?_⟩
  simp only [pageEntry, htype, hp, Option.map_some]

end MapArea.Ok

section Lists

variable {α : Type} {l : List α} {i : Nat} {x : α}

theorem perm_cons_eraseIdx (h : l[i]? = some x) : l.Perm (x :: l.eraseIdx i) := by
  induction l generalizing i with
  | nil => cases h
  | cons y l ih =>
      cases i with
      | zero =>
          obtain rfl : y = x := by simpa using h
          exact List.Perm.refl _
      | succ i =>
          rw [List.getElem?_cons_succ] at h
          exact ((ih h).cons y).trans (List.Perm.swap _ _ _)

theorem set_perm_cons_eraseIdx (h : l[i]? = some x) (y : α) :
    (l.set i y).Perm (y :: l.eraseIdx i) := by
  induction l generalizing i with
  | nil => cases h
  | cons z l ih =>
      cases i with
      | zero => exact List.Perm.refl _
      | succ i =>
          rw [List.getElem?_cons_succ] at h
          exact ((ih h).cons z).trans (List.Perm.swap _ _ _)

end Lists

/-- A range is cut at a page. -/
theorem VPNRange.pages_split (r s t : VPNRange) (h₁ : r.start = s.start) (h₂ : s.end_ = t.start)
    (h₃ : t.end_ = r.end_) : r.pages = s.pages ++ t.pages := by
  have hs := s.le
  have ht := t.le
  unfold VPNRange.pages
  have hlen : r.end_ - r.start = (s.end_ - s.start) + (t.end_ - t.start) := by omega
  have hmid : t.start = s.start + (s.end_ - s.start) := by omega
  rw [hlen, h₁, hmid, List.range'_append_1, ← hmid]

/-- The area without its pages. -/
def MapArea.atStart (a : MapArea) : MapArea :=
  { a with vpnRange := ⟨a.vpnRange.start, a.vpnRange.start, Nat.le_refl _⟩ }

theorem MapArea.not_has_atStart (a : MapArea) (v : Nat) : ¬ a.atStart.Has v := by
  rintro ⟨h₁, h₂⟩
  exact Nat.lt_irrefl _ (Nat.lt_of_le_of_lt h₁ h₂)

/-! ## The invariant -/

/-- The leaf entry of the trampoline. -/
def trampolineEntry (tramp : Nat) : PageTableEntry :=
  PageTableEntry.new tramp (PTEFlags.R ||| PTEFlags.X ||| PTEFlags.V)

structure Space (tramp : Nat) (m : Mem) (pt : PageTable) (areas : List MapArea) : Prop where
  tree : Tree m pt
  ok : ∀ a ∈ areas, a.Ok
  apart : areas.Pairwise fun a b => ∀ v, ¬ (a.Has v ∧ b.Has v)
  own : ∀ a ∈ areas, ∀ v, a.Has v → pt.lookup m v = a.pageEntry v
  trampoline : pt.lookup m TRAMPOLINE_VPN = some (trampolineEntry tramp)
  only : ∀ v, v < 2 ^ 27 → pt.lookup m v ≠ none → v = TRAMPOLINE_VPN ∨ ∃ a ∈ areas, a.Has v

namespace Space

variable {tramp : Nat} {m m' : Mem} {pt pt' : PageTable} {areas areas' : List MapArea}
  {a a' : MapArea}

theorem congr (h : Space tramp m pt areas) (hs : ∀ p ∈ pt.frames, Mem.SameFrame m m' p) :
    Space tramp m' pt areas where
  tree := h.tree.congr hs
  ok := h.ok
  apart := h.apart
  own := fun a ha v hv => (h.tree.lookup_congr hs v).trans (h.own a ha v hv)
  trampoline := (h.tree.lookup_congr hs _).trans h.trampoline
  only := fun v hv hne => h.only v hv (h.tree.lookup_congr hs v ▸ hne)

theorem perm (h : Space tramp m pt areas) (hp : areas.Perm areas') : Space tramp m pt areas' where
  tree := h.tree
  ok := fun a ha => h.ok a (hp.mem_iff.mpr ha)
  apart := h.apart.perm hp (fun hab v hv => hab v ⟨hv.2, hv.1⟩)
  own := fun a ha v hv => h.own a (hp.mem_iff.mpr ha) v hv
  trampoline := h.trampoline
  only := fun v hv hne => by
    rcases h.only v hv hne with heq | ⟨a, ha, hav⟩
    · exact Or.inl heq
    · exact Or.inr ⟨a, hp.mem_iff.mp ha, hav⟩

theorem mapped (h : Space tramp m pt areas) (ha : a ∈ areas) {v : Nat} (hv : a.Has v) :
    pt.lookup m v ≠ none := by
  obtain ⟨e, he⟩ := (h.ok a ha).exists_entry hv
  rw [h.own a ha v hv, he]
  exact Option.some_ne_none e

/-- One area takes the place of another. Where the new one has a page the old one had not, the
    page was not mapped. -/
theorem replace (h : Space tramp m pt (a :: areas)) (ht : Tree m' pt') (hok : a'.Ok)
    (hfresh : ∀ v, a'.Has v → a.Has v ∨ pt.lookup m v = none)
    (hlookup : ∀ v, v < 2 ^ 27 → pt'.lookup m' v
      = if a'.Has v then a'.pageEntry v else if a.Has v then none else pt.lookup m v) :
    Space tramp m' pt' (a' :: areas) := by
  obtain ⟨hapart, hrest⟩ := List.pairwise_cons.mp h.apart
  have hmem : ∀ b ∈ areas, b ∈ a :: areas := fun b hb => List.mem_cons_of_mem _ hb
  have hapart' : ∀ b ∈ areas, ∀ v, ¬ (a'.Has v ∧ b.Has v) := by
    rintro b hb v ⟨hav, hbv⟩
    rcases hfresh v hav with hold | hnone
    · exact hapart b hb v ⟨hold, hbv⟩
    · exact h.mapped (hmem b hb) hbv hnone
  have hlt : ∀ {b : MapArea} {v}, b.Ok → b.Has v → v < 2 ^ 27 := by
    intro b v hb hv
    have := hb.lt hv
    simp only [TRAMPOLINE_VPN] at this
    omega
  refine ⟨ht, ?_, List.pairwise_cons.mpr ⟨hapart', hrest⟩, ?_, ?_, ?_⟩
  · intro b hb
    rcases List.mem_cons.mp hb with rfl | hb
    · exact hok
    · exact h.ok b (hmem b hb)
  · intro b hb v hv
    rcases List.mem_cons.mp hb with rfl | hb
    · rw [hlookup v (hlt hok hv), if_pos hv]
    · have hav' : ¬ a'.Has v := fun hav => hapart' b hb v ⟨hav, hv⟩
      have hav : ¬ a.Has v := fun hav => hapart b hb v ⟨hav, hv⟩
      rw [hlookup v (hlt (h.ok b (hmem b hb)) hv), if_neg hav', if_neg hav]
      exact h.own b (hmem b hb) v hv
  · have hnot : ∀ b : MapArea, b.Ok → ¬ b.Has TRAMPOLINE_VPN :=
      fun b hb hv => Nat.lt_irrefl _ (hb.lt hv)
    rw [hlookup _ (by decide), if_neg (hnot a' hok), if_neg (hnot a (h.ok a List.mem_cons_self))]
    exact h.trampoline
  · intro v hv hne
    rw [hlookup v hv] at hne
    split at hne
    · next hav => exact Or.inr ⟨a', List.mem_cons_self, hav⟩
    · split at hne
      · exact absurd rfl hne
      · next hav =>
          rcases h.only v hv hne with heq | ⟨b, hb, hbv⟩
          · exact Or.inl heq
          · rcases List.mem_cons.mp hb with rfl | hb
            · exact absurd hbv hav
            · exact Or.inr ⟨b, List.mem_cons_of_mem _ hb, hbv⟩

/-- An area without pages may be added. -/
theorem cons_empty (h : Space tramp m pt areas) (hok : a.Ok) (hempty : ∀ v, ¬ a.Has v) :
    Space tramp m pt (a :: areas) where
  tree := h.tree
  ok := fun b hb => by
    rcases List.mem_cons.mp hb with rfl | hb
    · exact hok
    · exact h.ok b hb
  apart := List.pairwise_cons.mpr ⟨fun _ _ v hv => hempty v hv.1, h.apart⟩
  own := fun b hb v hv => by
    rcases List.mem_cons.mp hb with rfl | hb
    · exact absurd hv (hempty v)
    · exact h.own b hb v hv
  trampoline := h.trampoline
  only := fun v hv hne => by
    rcases h.only v hv hne with heq | ⟨b, hb, hbv⟩
    · exact Or.inl heq
    · exact Or.inr ⟨b, List.mem_cons_of_mem _ hb, hbv⟩

/-- An area without pages may be left out. -/
theorem of_cons_empty (h : Space tramp m pt (a :: areas)) (hempty : ∀ v, ¬ a.Has v) :
    Space tramp m pt areas where
  tree := h.tree
  ok := fun b hb => h.ok b (List.mem_cons_of_mem _ hb)
  apart := (List.pairwise_cons.mp h.apart).2
  own := fun b hb v hv => h.own b (List.mem_cons_of_mem _ hb) v hv
  trampoline := h.trampoline
  only := fun v hv hne => by
    rcases h.only v hv hne with heq | ⟨b, hb, hbv⟩
    · exact Or.inl heq
    · rcases List.mem_cons.mp hb with rfl | hb
      · exact absurd hbv (hempty v)
      · exact Or.inr ⟨b, hb, hbv⟩

/-- What a page of a user space is translated to, also where nothing is mapped. -/
theorem translate_ppn (h : Space tramp m pt areas) (hframed : ∀ a ∈ areas, a.mapType = .framed)
    (hlt : ∀ p ∈ MemorySet.dataPpns areas, p < 2 ^ 44) (htramp : tramp < 2 ^ 44) {v : Nat}
    {e : PageTableEntry} (ht : pt.translate m v = some e) :
    e.ppn ∈ MemorySet.dataPpns areas ∨ e.ppn = tramp ∨ e.ppn = 0 := by
  rw [← translate_mod] at ht
  have hv : v % 2 ^ 27 < 2 ^ 27 := Nat.mod_lt _ (by decide)
  rcases h.tree.translate_cases ht with hl | rfl
  · rcases h.only _ hv (by rw [hl]; exact Option.some_ne_none e) with heq | ⟨a, ha, hav⟩
    · rw [heq, h.trampoline] at hl
      cases hl
      exact Or.inr (Or.inl (PageTableEntry.ppn_new htramp _))
    · obtain ⟨p, -, hp, hentry⟩ := (h.ok a ha).exists_frame (hframed a ha) hav
      have hmem : p ∈ MemorySet.dataPpns areas := List.mem_flatMap.mpr ⟨a, ha, hp⟩
      rw [h.own a ha _ hav, hentry] at hl
      cases hl
      rw [PageTableEntry.ppn_new (hlt p hmem)]
      exact Or.inl hmem
  · exact Or.inr (Or.inr PageTableEntry.ppn_empty)

/-- A page of a framed area is translated to a frame of the areas. -/
theorem translate_own (h : Space tramp m pt (a :: areas)) (htype : a.mapType = .framed)
    (hlt : ∀ p ∈ MemorySet.dataPpns (a :: areas), p < 2 ^ 44) {v : Nat} (hv : a.Has v) :
    ∃ e, pt.translate m v = some e ∧ e.ppn ∈ MemorySet.dataPpns (a :: areas) := by
  obtain ⟨p, -, hp, hentry⟩ := (h.ok a List.mem_cons_self).exists_frame htype hv
  have hmem : p ∈ MemorySet.dataPpns (a :: areas) :=
    List.mem_flatMap.mpr ⟨a, List.mem_cons_self, hp⟩
  refine ⟨_, translate_of_lookup ((h.own a List.mem_cons_self v hv).trans hentry), ?_⟩
  rwa [PageTableEntry.ppn_new (hlt p hmem)]

end Space

namespace MemorySet

/-- The areas and the page table agree, and the frames are held. -/
structure Ok (tramp : Nat) (st : MemState) (ms : MemorySet) : Prop where
  space : Space tramp st.mem ms.pageTable ms.areas
  owns : Owns st ms.frames

variable {X : Nat → Prop} {E : MemPanic → Prop} {st : MemState} {img : KernelImage}
  {pt : PageTable} {areas : List MapArea} {ms : MemorySet} {a : MapArea} {tramp : Nat}

theorem dataPpns_cons (a : MapArea) (areas : List MapArea) :
    dataPpns (a :: areas) = a.ppns ++ dataPpns areas := List.flatMap_cons

theorem dataPpns_perm {areas' : List MapArea} (h : areas.Perm areas') :
    (dataPpns areas).Perm (dataPpns areas') := h.flatMap_right _

/-! ## A new address space -/

theorem floor_trampoline : VirtAddr.floor (VirtAddr.from TRAMPOLINE) = TRAMPOLINE_VPN := by decide

/-- Nothing is mapped but the trampoline. -/
theorem mapTrampoline_meets (ht : Tree st.mem pt) (ho : Owns st pt.frames)
    (hnone : ∀ v, pt.lookup st.mem v = none) (hE : st.alloc.available < 2 → E .outOfFrames) :
    Meets E (mapTrampoline img ⟨pt, []⟩) st fun ms st' =>
      ms.Ok img.trampoline st' ∧ ms.areas = [] ∧ Moves X st pt.frames st' ms.frames
        ∧ st.alloc.available ≤ st'.alloc.available + 2 := by
  rw [mapTrampoline, Meets.bind_iff, Meets.ensure_iff, floor_trampoline]
  refine ⟨fun _ => ?_, fun h => absurd img.trampoline_aligned h⟩
  rw [Meets.bind_iff]
  refine (map_meets (X := X) (k := 2) ht ho (by decide) img.trampoline_lt_two_pow
    (fun _ => Nat.le_refl 2) hE ?_).mono ?_
  · intro h
    exact absurd (hnone _) h
  rintro pt' st' ⟨hg, -, hl⟩
  refine Meets.pure_iff.mpr ?_
  have hframes : MemorySet.frames ⟨pt', []⟩ = pt'.frames := List.append_nil _
  have hspace : Space img.trampoline st'.mem pt' [] := by
    refine ⟨hg.tree, fun a ha => absurd ha List.not_mem_nil, List.Pairwise.nil,
      fun a ha => absurd ha List.not_mem_nil, ?_, ?_⟩
    · rw [hl _ (by decide), if_pos rfl]
      rfl
    · intro v hv hne
      rw [hl v hv] at hne
      split at hne
      · next heq => exact Or.inl heq
      · exact absurd (hnone v) hne
  exact ⟨⟨hspace, hframes ▸ hg.moves.owns⟩, rfl, hframes ▸ hg.moves, hg.avail⟩

theorem newUser_meets (ho : Owns st []) (hE : st.alloc.available < 3 → E .outOfFrames) :
    Meets E (do let ms ← newBare; ms.mapTrampoline img) st fun ms st' =>
      ms.Ok img.trampoline st' ∧ ms.areas = [] ∧ Moves X st [] st' ms.frames
        ∧ st.alloc.available ≤ st'.alloc.available + 3 := by
  simp only [newBare, Meets.bind_iff]
  refine (new_meets (X := X) ho (fun h => hE (by omega))).mono ?_
  rintro pt st₁ ⟨ht, hm, hnone, hav⟩
  refine Meets.pure_iff.mpr ?_
  refine (mapTrampoline_meets (X := X) ht hm.owns (fun v => lookup_of_translate_eq_none (hnone v))
    (fun h => hE (by omega))).mono ?_
  rintro ms st₂ ⟨hok, hareas, hm', hav'⟩
  exact ⟨hok, hareas, hm.trans hm', by omega⟩

/-! ## Adding an area -/

/-- The area `a'` is the fresh area `a`, mapped. -/
structure Added (a a' : MapArea) : Prop where
  range : a'.vpnRange = a.vpnRange
  type : a'.mapType = a.mapType
  perm : a'.mapPerm = a.mapPerm

theorem map_area_meets (h : Space tramp st.mem pt areas) (ho : Owns st (pt.frames ++ dataPpns areas))
    (hnew : a.dataFrames = []) (hstart : a.vpnRange.start < 2 ^ 27)
    (hend : a.vpnRange.end_ ≤ 2 ^ 27)
    (hE : st.alloc.available < 3 * a.vpnRange.pages.length → E .outOfFrames)
    (hmapped : (∃ v, a.Has v ∧ pt.lookup st.mem v ≠ none) → E .mapped) :
    Meets E (a.map pt) st fun r st' =>
      Space tramp st'.mem r.2 (r.1 :: areas) ∧ Added a r.1
        ∧ Moves X st (pt.frames ++ dataPpns areas) st' (r.2.frames ++ dataPpns (r.1 :: areas))
        ∧ (∀ v, a.Has v → pt.lookup st.mem v = none)
        ∧ (∀ p ∈ dataPpns areas, ¬ X p → Mem.SameFrame st.mem st'.mem p)
        ∧ st.alloc.available ≤ st'.alloc.available + 3 * a.vpnRange.pages.length
        ∧ Keeps st pt st' r.2 := by
  have hppns : a.ppns = [] := by simp [MapArea.ppns, hnew]
  have hkeys : a.keys = [] := by simp [MapArea.keys, hnew]
  have ho' : Owns st (pt.frames ++ a.ppns) := by simpa [hppns] using ho.left
  have hpages : ∀ v ∈ a.vpnRange.pages, v < 2 ^ 27 :=
    fun v hv => Nat.lt_of_lt_of_le (VPNRange.mem_pages.mp hv).2 hend
  refine (MapArea.mapPages_meets (X := X) h.tree ho' hpages a.vpnRange.pairwise_pages ?_ hE
    ?_).mono ?_
  · rw [hkeys]
    intro k hk
    exact absurd hk List.not_mem_nil
  · rintro ⟨v, hv, hne⟩
    exact hmapped ⟨v, VPNRange.mem_pages.mp hv, hne⟩
  rintro ⟨a', pt'⟩ st' hm
  have hhas : ∀ v, a'.Has v ↔ v ∈ a.vpnRange.pages := by
    intro v
    rw [VPNRange.mem_pages, MapArea.Has, hm.range]
  have hle : a'.vpnRange.end_ ≤ TRAMPOLINE_VPN := by
    rw [hm.range]
    by_contra hgt
    have hmem : TRAMPOLINE_VPN ∈ a.vpnRange.pages := by
      refine VPNRange.mem_pages.mpr ?_
      simp only [TRAMPOLINE_VPN] at hgt ⊢
      omega
    have := hm.fresh _ hmem
    rw [h.trampoline] at this
    cases this
  have hok : a'.Ok := by
    refine ⟨?_, hle⟩
    rw [hm.keys, hkeys, hm.type, hm.range, List.nil_append]
  -- an area of the same kind without pages stands where the new one comes to be
  have hempty : Space tramp st.mem pt (a.atStart :: areas) := by
    refine h.cons_empty ⟨?_, ?_⟩ a.not_has_atStart
    · simp [MapArea.keys, MapArea.atStart, hnew, VPNRange.pages]
    · simp only [MapArea.atStart, TRAMPOLINE_VPN]
      omega
  have hframe : Owns st (pt.frames ++ a.ppns ++ dataPpns areas) := by simpa [hppns] using ho
  refine ⟨hempty.replace hm.tree hok ?_ ?_, ⟨hm.range, hm.type, hm.perm⟩, ?_, ?_, ?_, hm.avail,
    hm.keeps⟩
  · intro v hv
    exact Or.inr (hm.fresh v ((hhas v).mp hv))
  · intro v hv
    rw [hm.lookup v hv, if_neg (a.not_has_atStart v)]
    simp only [hhas v]
  · have := hm.moves.frame hframe
    rw [hppns, List.append_nil] at this
    rw [dataPpns_cons, ← List.append_assoc]
    exact this
  · intro v hv
    exact hm.fresh v (VPNRange.mem_pages.mpr hv)
  · intro p hp hx
    exact hm.moves.same p hx (ho.right.used p hp) (hframe.not_mem hp)

/-- The address space after `push`. -/
structure Pushed (X : Nat → Prop) (tramp : Nat) (st : MemState) (ms : MemorySet) (a : MapArea)
    (st' : MemState) (ms' : MemorySet) : Prop where
  ok : ms'.Ok tramp st'
  areas : ∃ a', Added a a' ∧ ms'.areas = ms.areas ++ [a']
  moves : Moves X st ms.frames st' ms'.frames
  fresh : ∀ v, a.Has v → ms.pageTable.lookup st.mem v = none
  avail : st.alloc.available ≤ st'.alloc.available + 3 * a.vpnRange.pages.length
  keeps : Keeps st ms.pageTable st' ms'.pageTable

/-- The data fits in the area. -/
def Fits (a : MapArea) (data : List UInt8) : Prop :=
  a.vpnRange.start < a.vpnRange.end_
    ∧ data.length ≤ (a.vpnRange.end_ - a.vpnRange.start) * 4096

theorem frames_append_perm (pt : PageTable) (areas : List MapArea) (a : MapArea) :
    (pt.frames ++ dataPpns (a :: areas)).Perm (MemorySet.frames ⟨pt, areas ++ [a]⟩) :=
  (dataPpns_perm (List.perm_append_singleton a areas).symm).append_left _

/-- The copy to an area that is mapped. It stays within the frames of the areas. -/
theorem copyData_meets {data : List UInt8}
    (h : Space img.trampoline st.mem pt (a :: areas))
    (ho : Owns st (pt.frames ++ dataPpns (a :: areas)))
    (hframed : ∀ b ∈ a :: areas, b.mapType = .framed)
    (htable : ∀ v, MapArea.CopyVisits a.vpnRange.start data.length v →
      pt.translate st.mem v = none → E .noTable)
    (hfault : ∀ v, MapArea.CopyVisits a.vpnRange.start data.length v →
      ¬ MapArea.CopyTakes img st.mem pt data v → E .storeFault) :
    Meets E (a.copyData img pt data) st fun _ st' =>
      Space img.trampoline st'.mem pt (a :: areas)
        ∧ Moves X st (pt.frames ++ dataPpns (a :: areas)) st' (pt.frames ++ dataPpns (a :: areas))
        ∧ Keeps st pt st' pt ∧ st'.alloc = st.alloc
        ∧ (∀ p ∈ pt.frames, Mem.SameFrame st.mem st'.mem p)
        ∧ ∀ v, MapArea.CopyVisits a.vpnRange.start data.length v →
            MapArea.CopyTakes img st.mem pt data v := by
  have hlt : ∀ p ∈ dataPpns (a :: areas), p < 2 ^ 44 :=
    fun p hp => ho.lt_two_pow (List.mem_append_right _ hp)
  simp only [MapArea.copyData, Meets.bind_iff, Meets.ensure_iff]
  refine ⟨fun _ => ?_, fun hne => absurd (hframed a List.mem_cons_self) hne⟩
  have hcopy : ∀ v e, MapArea.CopyVisits a.vpnRange.start data.length v →
      pt.translate st.mem v = some e → img.Stores e.ppn → e.ppn ∈ dataPpns (a :: areas) := by
    intro v e _ he hstore
    rcases h.translate_ppn hframed hlt img.trampoline_lt_two_pow he with hp | hp | hp
    · exact hp
    · exact absurd (hp ▸ hstore) img.not_stores_trampoline
    · exact absurd (hp ▸ hstore) img.not_stores_zero
  have hnode : ∀ p ∈ pt.frames, p ∉ dataPpns (a :: areas) := fun p hp hd => ho.not_mem hd hp
  refine (MapArea.copyLoop_meets h.tree hcopy hnode htable hfault).mono ?_
  rintro _ st' ⟨halloc, hsame, htaken⟩
  have hst : st' = { st with mem := st'.mem } := by
    rw [← halloc]
  have hkept : ∀ p ∈ pt.frames, Mem.SameFrame st.mem st'.mem p := fun p hp => hsame p (hnode p hp)
  refine ⟨h.congr hkept, ?_, ⟨fun is n his hn => ?_, fun hr => by rwa [halloc]⟩, halloc, hkept,
    htaken⟩
  · rw [hst]
    exact Moves.of_same ho fun p _ hp => hsame p fun hd => hp (List.mem_append_right _ hd)
  · exact (h.tree.node_congr hkept his).trans hn

section Push

variable (hnew : a.dataFrames = []) (hstart : a.vpnRange.start < 2 ^ 27)
  (hend : a.vpnRange.end_ ≤ 2 ^ 27)
  (hE : st.alloc.available < 3 * a.vpnRange.pages.length → E .outOfFrames)
  (hmapped : (∃ v, a.Has v ∧ ms.pageTable.lookup st.mem v ≠ none) → E .mapped)
include hnew hstart hend hE hmapped

theorem pushArea_meets (h : ms.Ok tramp st) :
    Meets E (ms.pushArea a) st fun ms' st' =>
      Pushed X tramp st ms a st' ms'
        ∧ ∀ p ∈ dataPpns ms.areas, ¬ X p → Mem.SameFrame st.mem st'.mem p := by
  rw [pushArea, Meets.bind_iff]
  refine (map_area_meets (X := X) h.space h.owns hnew hstart hend hE hmapped).mono ?_
  rintro ⟨a', pt'⟩ st' ⟨hspace, hadded, hm, hfresh, hsame, hav, hkeeps⟩
  simp only [Meets.pure_iff]
  have hmoves := hm.perm (List.Perm.refl _) (frames_append_perm pt' ms.areas a')
  refine ⟨⟨⟨hspace.perm ?_, hmoves.owns⟩, ⟨a', hadded, rfl⟩, hmoves, hfresh, hav, hkeeps⟩, hsame⟩
  exact (List.perm_append_singleton a' ms.areas).symm

/-- With data, which fits in the area, or may come to a page without a leaf table. -/
theorem pushData_meets {data : List UInt8} (h : ms.Ok img.trampoline st)
    (hframed : ∀ b ∈ ms.areas, b.mapType = .framed) (htype : a.mapType = .framed)
    (hfits : Fits a data ∨ E .noTable) (hfault : E .storeFault) :
    Meets E (pushData img ms a data) st fun ms' st' =>
      Pushed X img.trampoline st ms a st' ms' := by
  rw [pushData, Meets.bind_iff]
  refine (map_area_meets (X := X) h.space h.owns hnew hstart hend hE hmapped).mono ?_
  rintro ⟨a', pt'⟩ st₁ ⟨hspace, hadded, hm, hfresh, -, hav, hkeeps⟩
  have htype' : a'.mapType = .framed := hadded.type.trans htype
  have hlt : ∀ p ∈ dataPpns (a' :: ms.areas), p < 2 ^ 44 :=
    fun p hp => hm.owns.lt_two_pow (List.mem_append_right _ hp)
  have hvisits : ∀ v, Fits a data → MapArea.CopyVisits a'.vpnRange.start data.length v →
      a'.Has v := by
    rintro v ⟨hlt, hlen⟩ ⟨hge, hv⟩
    rw [hadded.range] at hge hv
    rw [MapArea.Has, hadded.range]
    omega
  have hframed' : ∀ b ∈ a' :: ms.areas, b.mapType = .framed := by
    intro b hb
    rcases List.mem_cons.mp hb with rfl | hb
    · exact htype'
    · exact hframed b hb
  rw [Meets.bind_iff]
  refine (copyData_meets (X := X) hspace hm.owns hframed' ?_ fun _ _ _ => hfault).mono ?_
  · intro v hvis hnone
    rcases hfits with hfits | htable
    · obtain ⟨e', he', -⟩ := hspace.translate_own htype' hlt (hvisits v hfits hvis)
      rw [hnone] at he'
      cases he'
    · exact htable
  rintro _ st₂ ⟨hspace', hcopied, hkeeps', halloc, -⟩
  refine Meets.pure_iff.mpr ?_
  have hmoves := (hm.trans hcopied).perm (List.Perm.refl _) (frames_append_perm pt' ms.areas a')
  refine ⟨⟨hspace'.perm ?_, hmoves.owns⟩, ⟨a', hadded, rfl⟩, hmoves, hfresh, ?_,
    hkeeps.trans hkeeps'⟩
  · exact (List.perm_append_singleton a' ms.areas).symm
  · rw [halloc]
    exact hav

end Push

theorem pushNew_meets {startVa endVa : Nat} {type : MapType} {perm : MapPermission}
    (h : ms.Ok tramp st) (hs : startVa < 2 ^ 39) (he : endVa < 2 ^ 39)
    (hE : st.alloc.available < 3 * (VirtAddr.ceil endVa - VirtAddr.floor startVa) →
      E .outOfFrames)
    (hrange : VirtAddr.ceil endVa < VirtAddr.floor startVa → E .badRange)
    (hmapped : (∃ v, VirtAddr.floor startVa ≤ v ∧ v < VirtAddr.ceil endVa
      ∧ ms.pageTable.lookup st.mem v ≠ none) → E .mapped) :
    Meets E (ms.pushNew startVa endVa type perm) st fun ms' st' =>
      ∃ r : VPNRange, r.start = VirtAddr.floor startVa ∧ r.end_ = VirtAddr.ceil endVa
        ∧ Pushed X tramp st ms ⟨r, [], type, perm⟩ st' ms' := by
  have hceil := virtAddr_ceil_eq endVa
  simp only [pushNew, MapArea.new, Meets.bind_iff]
  refine (VPNRange.new_meets hrange).mono ?_
  rintro r _ ⟨rfl, hrs, hre⟩
  refine Meets.pure_iff.mpr ?_
  have hnew : (MapArea.mk r [] type perm).dataFrames = [] := rfl
  refine (pushArea_meets (X := X) hnew ?_ ?_ ?_ ?_ h).mono ?_
  · show r.start < 2 ^ 27
    rw [hrs]
    simp only [VirtAddr.floor, PAGE_SIZE]
    omega
  · show r.end_ ≤ 2 ^ 27
    omega
  · intro hav
    refine hE ?_
    rwa [VPNRange.length_pages, hrs, hre] at hav
  · rintro ⟨v, ⟨h₁, h₂⟩, hne⟩
    exact hmapped ⟨v, hrs ▸ h₁, hre ▸ h₂, hne⟩
  rintro ms' st' ⟨hpush, -⟩
  exact ⟨r, hrs, hre, hpush⟩

/-! ## Changing an area -/

/-- The pages from `r.start` on leave the area. -/
theorem unmap_area_meets (h : Space tramp st.mem pt (a :: areas))
    (ho : Owns st (pt.frames ++ dataPpns (a :: areas))) {r keep : VPNRange}
    (hr : r.end_ = a.vpnRange.end_) (hk : keep.start = a.vpnRange.start)
    (hcut : keep.end_ = r.start) :
    Meets E (a.unmapPages pt r.pages) st fun a' st' =>
      Space tramp st'.mem pt ({ a' with vpnRange := keep } :: areas)
        ∧ Moves X st (pt.frames ++ dataPpns (a :: areas)) st'
            (pt.frames ++ dataPpns ({ a' with vpnRange := keep } :: areas))
        ∧ Added a a' := by
  have hok := h.ok a List.mem_cons_self
  have hkle := keep.le
  have hrle := r.le
  have hle := hok.le
  rw [dataPpns_cons, ← List.append_assoc] at ho
  have hhas : ∀ v ∈ r.pages, a.Has v := by
    intro v hv
    rw [VPNRange.mem_pages] at hv
    exact ⟨by omega, by omega⟩
  refine (MapArea.unmapPages_meets (X := X) h.tree ho.left ?_ r.nodup_pages hok.nodup_keys ?_
    ?_).mono ?_
  · intro v hv
    have := hok.lt (hhas v hv)
    simp only [TRAMPOLINE_VPN] at this
    omega
  · intro v hv
    rw [hok.keys]
    split
    · exact VPNRange.mem_pages.mpr (hhas v hv)
    · rfl
  · intro v hv
    exact h.mapped List.mem_cons_self (hhas v hv)
  rintro a' st' hu
  have hkeys : a'.keys = if a'.mapType = .framed then keep.pages else [] := by
    have hsplit := a.vpnRange.pages_split keep r hk.symm hcut hr
    rw [hu.keys, hok.keys, hu.type]
    split
    · rw [hsplit, List.filter_append]
      have h₁ : keep.pages.filter (· ∉ r.pages) = keep.pages := by
        refine List.filter_eq_self.mpr ?_
        intro v hv
        rw [VPNRange.mem_pages] at hv
        simp only [VPNRange.mem_pages, decide_eq_true_eq]
        omega
      have h₂ : r.pages.filter (· ∉ r.pages) = [] := by
        refine List.filter_eq_nil_iff.mpr ?_
        intro v hv
        simpa using hv
      rw [h₁, h₂, List.append_nil]
    · rfl
  have hhas' : ∀ v, MapArea.Has { a' with vpnRange := keep } v ↔ a.Has v ∧ v ∉ r.pages := by
    intro v
    rw [VPNRange.mem_pages]
    simp only [MapArea.Has]
    omega
  refine ⟨h.replace hu.tree ⟨hkeys, ?_⟩ ?_ ?_, ?_, ⟨hu.range, hu.type, hu.perm⟩⟩
  · show keep.end_ ≤ _
    omega
  · intro v hv
    exact Or.inl ((hhas' v).mp hv).1
  · intro v hv
    have hentry : v ∉ r.pages → MapArea.pageEntry { a' with vpnRange := keep } v = a.pageEntry v :=
      hu.entry v
    rw [hu.lookup v hv]
    by_cases hvr : v ∈ r.pages
    · rw [if_pos hvr, if_neg (fun hk => ((hhas' v).mp hk).2 hvr), if_pos (hhas v hvr)]
    · rw [if_neg hvr, hentry hvr]
      by_cases hva : a.Has v
      · rw [if_pos ((hhas' v).mpr ⟨hva, hvr⟩), h.own a List.mem_cons_self v hva]
      · rw [if_neg (fun hk => hva ((hhas' v).mp hk).1), if_neg hva]
  · have := hu.moves.frame ho
    rw [List.append_assoc, List.append_assoc] at this
    exact this

/-- The pages of `r` join the area at its end. -/
theorem grow_area_meets (h : Space tramp st.mem pt (a :: areas))
    (ho : Owns st (pt.frames ++ dataPpns (a :: areas))) {r all : VPNRange}
    (hr : r.start = a.vpnRange.end_) (hs : all.start = a.vpnRange.start) (he : all.end_ = r.end_)
    (hfresh : ∀ v ∈ r.pages, pt.lookup st.mem v = none)
    (hE : st.alloc.available < 3 * r.pages.length → E .outOfFrames) :
    Meets E (a.mapPages pt r.pages) st fun p st' =>
      Space tramp st'.mem p.2 ({ p.1 with vpnRange := all } :: areas)
        ∧ Moves X st (pt.frames ++ dataPpns (a :: areas)) st'
            (p.2.frames ++ dataPpns ({ p.1 with vpnRange := all } :: areas))
        ∧ Added a p.1 := by
  have hok := h.ok a List.mem_cons_self
  have hrle := r.le
  have hale := a.vpnRange.le
  have hle := hok.le
  rw [dataPpns_cons, ← List.append_assoc] at ho
  -- the trampoline is mapped, so the range ends below it
  have hend : r.end_ ≤ TRAMPOLINE_VPN := by
    by_contra hgt
    have := hfresh TRAMPOLINE_VPN (VPNRange.mem_pages.mpr ⟨by omega, by omega⟩)
    rw [h.trampoline] at this
    cases this
  have hlt : ∀ v ∈ r.pages, v < 2 ^ 27 := by
    intro v hv
    rw [VPNRange.mem_pages] at hv
    simp only [TRAMPOLINE_VPN] at hend
    omega
  refine (MapArea.mapPages_meets (X := X) h.tree ho.left hlt r.pairwise_pages ?_ hE ?_).mono ?_
  · intro k hk v hv
    rw [hok.keys] at hk
    rw [VPNRange.mem_pages] at hv
    split at hk
    · rw [VPNRange.mem_pages] at hk
      omega
    · exact absurd hk List.not_mem_nil
  · rintro ⟨v, hv, hne⟩
    exact absurd (hfresh v hv) hne
  rintro ⟨a', pt'⟩ st' hm
  dsimp only at hm ⊢
  have hkeys : a'.keys = if a'.mapType = .framed then all.pages else [] := by
    rw [hm.keys, hok.keys, hm.type]
    split
    · rw [all.pages_split a.vpnRange r hs hr.symm he.symm]
    · rfl
  have hhas : ∀ v, MapArea.Has { a' with vpnRange := all } v ↔ a.Has v ∨ v ∈ r.pages := by
    intro v
    rw [VPNRange.mem_pages]
    simp only [MapArea.Has]
    omega
  refine ⟨h.replace hm.tree ⟨hkeys, ?_⟩ ?_ ?_, ?_, ⟨hm.range, hm.type, hm.perm⟩⟩
  · show all.end_ ≤ _
    omega
  · intro v hv
    rcases (hhas v).mp hv with hv | hv
    · exact Or.inl hv
    · exact Or.inr (hfresh v hv)
  · intro v hv
    have hentry : v ∉ r.pages → MapArea.pageEntry { a' with vpnRange := all } v = a.pageEntry v :=
      hm.entry v
    rw [hm.lookup v hv]
    by_cases hvr : v ∈ r.pages
    · rw [if_pos hvr, if_pos ((hhas v).mpr (Or.inr hvr))]
      rfl
    · rw [if_neg hvr, hentry hvr]
      by_cases hva : a.Has v
      · rw [if_pos ((hhas v).mpr (Or.inl hva)), h.own a List.mem_cons_self v hva]
      · have hvn : ¬ MapArea.Has { a' with vpnRange := all } v := by
          rw [hhas]
          exact fun h => h.elim hva hvr
        rw [if_neg hvn, if_neg hva]
  · have := hm.moves.frame ho
    rw [List.append_assoc, List.append_assoc] at this
    exact this

/-- The frames with the areas in another order. -/
theorem frames_perm {areas' : List MapArea} (hp : areas.Perm areas') :
    (pt.frames ++ dataPpns areas).Perm (pt.frames ++ dataPpns areas') :=
  (dataPpns_perm hp).append_left _

/-- The address space with the areas in another order. -/
theorem Ok.of_perm {st' : MemState} {pt' : PageTable} {areas₁ areas₂ areas' : List MapArea}
    (hs : Space tramp st'.mem pt' areas₁)
    (hm : Moves X st (pt.frames ++ dataPpns areas) st' (pt'.frames ++ dataPpns areas₁))
    (hp : areas.Perm areas₂) (hp' : areas₁.Perm areas') :
    Ok tramp st' ⟨pt', areas'⟩
      ∧ Moves X st (pt.frames ++ dataPpns areas₂) st' (MemorySet.frames ⟨pt', areas'⟩) := by
  have hmoves := hm.perm (frames_perm hp) (frames_perm hp')
  exact ⟨⟨hs.perm hp', hmoves.owns⟩, hmoves⟩

/-- `remove_area_with_start_vpn` unmaps the first area that starts at the page. -/
theorem removeAreaWithStartVpn_meets (h : ms.Ok tramp st) (startVpn : Nat) :
    Meets E (ms.removeAreaWithStartVpn startVpn) st fun ms' st' =>
      ms'.Ok tramp st' ∧ Moves X st ms.frames st' ms'.frames
        ∧ ((∀ a ∈ ms.areas, a.vpnRange.start ≠ startVpn) ∧ ms' = ms
          ∨ ∃ a, a.vpnRange.start = startVpn ∧ ms.areas.Perm (a :: ms'.areas)) := by
  unfold removeAreaWithStartVpn
  cases hidx : ms.areas.findIdx? (·.vpnRange.start = startVpn) with
  | none =>
      refine Meets.pure_iff.mpr ⟨h, Moves.refl h.owns, Or.inl ⟨?_, rfl⟩⟩
      simpa using List.findIdx?_eq_none_iff.mp hidx
  | some idx =>
      obtain ⟨hlt, hstart, -⟩ := List.findIdx?_eq_some_iff_getElem.mp hidx
      have hget : ms.areas[idx]? = some ms.areas[idx] := List.getElem?_eq_getElem hlt
      generalize ms.areas[idx] = a at hstart hget
      have hperm := perm_cons_eraseIdx hget
      dsimp only
      rw [hget]
      simp only [MapArea.unmap, Meets.bind_iff]
      refine (unmap_area_meets (X := X) (r := a.vpnRange) (h.space.perm hperm)
        (h.owns.perm (frames_perm hperm)) rfl
        (show (VPNRange.mk a.vpnRange.start a.vpnRange.start (Nat.le_refl _)).start = _ from rfl)
        rfl).mono ?_
      rintro a' st₁ ⟨hs, hm, -⟩
      -- nothing is left in the area
      have hempty := MapArea.not_has_atStart { a' with vpnRange := a.vpnRange }
      have hppns : a'.ppns = [] := by
        have hkeys := (hs.ok _ List.mem_cons_self).keys
        have hnil : a'.dataFrames = [] := by
          simpa [MapArea.keys, VPNRange.pages] using hkeys
        simp [MapArea.ppns, hnil]
      rw [hppns]
      simp only [dropFrames, Meets.pure_iff]
      have hm' : Moves X st (ms.pageTable.frames ++ dataPpns (a :: ms.areas.eraseIdx idx)) st₁
          (ms.pageTable.frames ++ dataPpns (ms.areas.eraseIdx idx)) := by
        have hrest : dataPpns ({ a' with
            vpnRange := ⟨a.vpnRange.start, a.vpnRange.start, Nat.le_refl _⟩ }
            :: ms.areas.eraseIdx idx) = a'.ppns ++ dataPpns (ms.areas.eraseIdx idx) :=
          dataPpns_cons _ _
        rw [hrest, hppns, List.nil_append] at hm
        exact hm
      obtain ⟨hok, hmoves⟩ := Ok.of_perm (hs.of_cons_empty hempty) hm' hperm.symm
        (List.Perm.refl _)
      exact ⟨hok, hmoves, Or.inr ⟨a, by simpa using hstart, hperm⟩⟩

theorem shrinkTo_meets (h : ms.Ok tramp st) {idx newEnd : Nat} (ha : ms.areas[idx]? = some a)
    (hge : a.vpnRange.start ≤ newEnd) (hle : newEnd ≤ a.vpnRange.end_) :
    Meets E (ms.shrinkTo idx newEnd) st fun ms' st' =>
      ms'.Ok tramp st' ∧ Moves X st ms.frames st' ms'.frames
        ∧ ∃ a', a'.vpnRange.start = a.vpnRange.start ∧ a'.vpnRange.end_ = newEnd
          ∧ a'.mapType = a.mapType ∧ a'.mapPerm = a.mapPerm
          ∧ ms'.areas = ms.areas.set idx a' := by
  have hperm := perm_cons_eraseIdx ha
  unfold shrinkTo
  rw [ha]
  simp only [MapArea.shrinkTo, Meets.bind_iff]
  refine (VPNRange.new_meets (fun hlt => absurd hlt (by omega))).mono ?_
  rintro r st₁ ⟨rfl, hrs, hre⟩
  refine (unmap_area_meets (X := X) (h.space.perm hperm) (h.owns.perm (frames_perm hperm)) hre
    (show (VPNRange.mk a.vpnRange.start newEnd hge).start = _ from rfl) hrs.symm).mono ?_
  rintro a' st₂ ⟨hs, hm, hadded⟩
  have hle' : a'.vpnRange.start ≤ newEnd := by
    rw [hadded.range]
    exact hge
  refine (VPNRange.new_meets (fun hlt => absurd hlt (by omega))).mono ?_
  rintro keep st₃ ⟨rfl, hks, hke⟩
  refine Meets.pure_iff.mpr (Meets.pure_iff.mpr ?_)
  have hkeep : keep = ⟨a.vpnRange.start, newEnd, hge⟩ :=
    VPNRange.ext (hks.trans (by rw [hadded.range])) hke
  rw [hkeep]
  obtain ⟨hok, hmoves⟩ := Ok.of_perm hs hm hperm.symm
    (set_perm_cons_eraseIdx ha _).symm
  exact ⟨hok, hmoves, { a' with vpnRange := ⟨a.vpnRange.start, newEnd, hge⟩ }, rfl, rfl,
    hadded.type, hadded.perm, rfl⟩

theorem appendTo_meets (h : ms.Ok tramp st) {idx newEnd : Nat} (ha : ms.areas[idx]? = some a)
    (hfresh : ∀ v, a.vpnRange.end_ ≤ v → v < newEnd → ms.pageTable.lookup st.mem v = none)
    (hE : E .outOfFrames) (hrange : newEnd < a.vpnRange.end_ → E .badRange) :
    Meets E (ms.appendTo idx newEnd) st fun ms' st' =>
      ms'.Ok tramp st' ∧ Moves X st ms.frames st' ms'.frames
        ∧ ∃ a', a'.vpnRange.start = a.vpnRange.start ∧ a'.vpnRange.end_ = newEnd
          ∧ a'.mapType = a.mapType ∧ a'.mapPerm = a.mapPerm
          ∧ ms'.areas = ms.areas.set idx a' := by
  have hperm := perm_cons_eraseIdx ha
  have hale := a.vpnRange.le
  unfold appendTo
  rw [ha]
  simp only [MapArea.appendTo, Meets.bind_iff]
  refine (VPNRange.new_meets hrange).mono ?_
  rintro r st₁ ⟨rfl, hrs, hre⟩
  have hrle := r.le
  have hge : a.vpnRange.start ≤ newEnd := by omega
  refine (grow_area_meets (X := X) (h.space.perm hperm) (h.owns.perm (frames_perm hperm)) hrs
    (show (VPNRange.mk a.vpnRange.start newEnd hge).start = _ from rfl) hre.symm ?_
    (fun _ => hE)).mono ?_
  · intro v hv
    rw [VPNRange.mem_pages, hrs, hre] at hv
    exact hfresh v hv.1 hv.2
  rintro ⟨a', pt'⟩ st₂ ⟨hs, hm, hadded⟩
  dsimp only at hs hm hadded ⊢
  refine (VPNRange.new_meets (fun hlt => absurd hlt (by rw [hadded.range]; omega))).mono ?_
  rintro all st₃ ⟨rfl, hks, hke⟩
  refine Meets.pure_iff.mpr (Meets.pure_iff.mpr ?_)
  have hall : all = ⟨a.vpnRange.start, newEnd, hge⟩ :=
    VPNRange.ext (hks.trans (by rw [hadded.range])) hke
  rw [hall]
  obtain ⟨hok, hmoves⟩ := Ok.of_perm hs hm hperm.symm
    (set_perm_cons_eraseIdx ha _).symm
  exact ⟨hok, hmoves, { a' with vpnRange := ⟨a.vpnRange.start, newEnd, hge⟩ }, rfl, rfl,
    hadded.type, hadded.perm, rfl⟩

/-! ## Giving frames back -/

/-- `recycle_data_pages` leaves the page table as it is. -/
theorem recycleDataPages_meets (ho : Owns st ms.frames) :
    Meets E ms.recycleDataPages st fun ms' st' =>
      ms' = ⟨ms.pageTable, []⟩ ∧ Moves X st ms.frames st' ms'.frames ∧ st'.mem = st.mem := by
  rw [recycleDataPages, Meets.bind_iff]
  refine (dropFrames_meets (X := X) (ho.perm List.perm_append_comm)).mono ?_
  rintro _ st' ⟨hm, hmem⟩
  refine Meets.pure_iff.mpr ⟨rfl, ?_, hmem⟩
  have hframes : MemorySet.frames ⟨ms.pageTable, []⟩ = ms.pageTable.frames := List.append_nil _
  rw [hframes]
  exact hm.perm List.perm_append_comm (List.Perm.refl _)

theorem drop_meets (ho : Owns st ms.frames) :
    Meets E ms.drop st fun _ st' => Moves X st ms.frames st' [] ∧ st'.mem = st.mem := by
  rw [drop, Meets.bind_iff]
  refine (dropFrames_meets (X := X) ho).mono ?_
  rintro _ st₁ ⟨hm, hmem⟩
  have ho₁ : Owns st₁ (dataPpns ms.areas ++ []) := by simpa using hm.owns
  refine (dropFrames_meets (X := X) ho₁).mono ?_
  rintro _ st₂ ⟨hm', hmem'⟩
  rw [List.append_nil] at hm'
  exact ⟨hm.trans hm', hmem'.trans hmem⟩

end MemorySet

end Nimloth
