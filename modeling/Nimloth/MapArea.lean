import Mathlib.Data.List.Basic
import Mathlib.Data.List.Perm.Basic
import Nimloth.PageTableMap

/-!
# Areas of an address space

`MapArea` of `os/src/mm/memory_set.rs`, with the addresses of
`os/src/mm/address.rs` it is built from. An area is a range of pages; a
framed one holds a frame for every page of it, an identical one maps page
`n` to frame `n`. `map`, `unmap`, `append_to` and `shrink_to` are loops of
`map_one` and `unmap_one` over the pages of a range, so two lemmas about
such loops (`mapPages_meets`, `unmapPages_meets`) carry what is said about
all four.
-/

namespace Nimloth

open Outcome PageTable

/-! ## Addresses -/

/-- `VirtAddr::from(usize)`. -/
def VirtAddr.from (v : Nat) : Nat := v &&& (2 ^ 39 - 1)

/-- `usize::from(VirtAddr)`, with its sign extension. -/
def VirtAddr.toUsize (va : Nat) : Nat := if 2 ^ 38 ≤ va then va ||| (2 ^ 64 - 2 ^ 39) else va

def VirtAddr.floor (va : Nat) : Nat := va / PAGE_SIZE

def VirtAddr.ceil (va : Nat) : Nat := if va = 0 then 0 else (va - 1 + PAGE_SIZE) / PAGE_SIZE

/-- `VirtAddr::from(VirtPageNum)`. -/
def VirtAddr.ofVpn (vpn : Nat) : Nat := vpn <<< 12

/-- `TRAMPOLINE`. -/
abbrev TRAMPOLINE : Nat := 2 ^ 64 - 4096

/-- `TRAP_CONTEXT`. -/
abbrev TRAP_CONTEXT : Nat := TRAMPOLINE - PAGE_SIZE

/-- The page of `TRAMPOLINE`. -/
abbrev TRAMPOLINE_VPN : Nat := 2 ^ 27 - 1

theorem virtAddr_lt (v : Nat) : VirtAddr.from v < 2 ^ 39 := by
  unfold VirtAddr.from
  rw [Nat.and_two_pow_sub_one_eq_mod]
  exact Nat.mod_lt _ (by decide)

theorem virtAddr_ceil_eq (va : Nat) : VirtAddr.ceil va = (va + 4095) / 4096 := by
  unfold VirtAddr.ceil
  split
  · omega
  · simp only [PAGE_SIZE]
    congr 1
    omega

theorem toUsize_low {va : Nat} (h : va < 2 ^ 38) : VirtAddr.toUsize va = va :=
  if_neg (Nat.not_le.mpr h)

theorem toUsize_high {va : Nat} (h : 2 ^ 38 ≤ va) (hlt : va < 2 ^ 39) :
    VirtAddr.toUsize va = 2 ^ 64 - 2 ^ 39 + va := by
  have hor := Nat.two_pow_add_eq_or_of_lt hlt (2 ^ 25 - 1)
  have hsum : 2 ^ 39 * (2 ^ 25 - 1) = 2 ^ 64 - 2 ^ 39 := by decide
  rw [hsum] at hor
  rw [VirtAddr.toUsize, if_pos h, Nat.or_comm, hor]

theorem toUsize_mod (va : Nat) : VirtAddr.toUsize va % 2 ^ 39 = va % 2 ^ 39 := by
  unfold VirtAddr.toUsize
  split
  · rw [Nat.or_mod_two_pow]
    exact Nat.or_zero _
  · rfl

theorem ofVpn_eq (vpn : Nat) : VirtAddr.ofVpn vpn = vpn * 4096 := Nat.shiftLeft_eq vpn 12

/-- `VPNRange`; `SimpleRange::new` asserts the order. -/
@[ext] structure VPNRange where
  start : Nat
  end_ : Nat
  le : start ≤ end_

namespace VPNRange

def new (start end_ : Nat) : MemM VPNRange :=
  if h : start ≤ end_ then pure ⟨start, end_, h⟩ else stop .badRange

/-- The pages its iterator yields. -/
def pages (r : VPNRange) : List Nat := List.range' r.start (r.end_ - r.start)

@[simp] theorem mem_pages {r : VPNRange} {v : Nat} : v ∈ r.pages ↔ r.start ≤ v ∧ v < r.end_ := by
  have := r.le
  simp only [pages, List.mem_range'_1]
  omega

theorem nodup_pages (r : VPNRange) : r.pages.Nodup := List.nodup_range'

theorem pairwise_pages (r : VPNRange) : r.pages.Pairwise (· < ·) := List.pairwise_lt_range'

theorem length_pages (r : VPNRange) : r.pages.length = r.end_ - r.start := List.length_range'

theorem new_meets {E : MemPanic → Prop} {st : MemState} {s e : Nat}
    (hE : e < s → E .badRange) :
    Meets E (new s e) st fun r st' => st' = st ∧ r.start = s ∧ r.end_ = e := by
  unfold new
  by_cases h : s ≤ e
  · rw [dif_pos h]
    exact Meets.pure_iff.mpr ⟨rfl, rfl, rfl⟩
  · rw [dif_neg h]
    exact Meets.stop_iff.mpr (hE (by omega))

end VPNRange

/-! ## The code -/

/-- `BTreeMap::insert`. -/
def btreeInsert {α : Type} : List (Nat × α) → Nat → α → List (Nat × α)
  | [], k, v => [(k, v)]
  | (k', v') :: l, k, v =>
      if k < k' then (k, v) :: (k', v') :: l
      else if k = k' then (k, v) :: l
      else (k', v') :: btreeInsert l k v

inductive MapType where
  | identical
  | framed
  deriving DecidableEq

abbrev MapPermission := UInt8

/-- `data_frames` is in the order of its keys. -/
structure MapArea where
  vpnRange : VPNRange
  dataFrames : List (Nat × Nat)
  mapType : MapType
  mapPerm : MapPermission

namespace MapArea

/-- `MapArea::new`. -/
def new (startVa endVa : Nat) (mapType : MapType) (mapPerm : MapPermission) : MemM MapArea := do
  let vpnRange ← VPNRange.new (VirtAddr.floor startVa) (VirtAddr.ceil endVa)
  pure ⟨vpnRange, [], mapType, mapPerm⟩

def mapOne (a : MapArea) (pt : PageTable) (vpn : Nat) : MemM (MapArea × PageTable) := do
  match a.mapType with
  | .identical =>
      let pt ← pt.map vpn vpn a.mapPerm
      pure (a, pt)
  | .framed =>
      let frame ← frameAlloc
      -- `insert` returns the tracker it replaces, which is dropped
      dropFrames (a.dataFrames.lookup vpn).toList
      let pt ← pt.map vpn frame a.mapPerm
      pure ({ a with dataFrames := btreeInsert a.dataFrames vpn frame }, pt)

def unmapOne (a : MapArea) (pt : PageTable) (vpn : Nat) : MemM MapArea := do
  match a.mapType with
  | .identical =>
      pt.unmap vpn
      pure a
  | .framed =>
      let frame ← unwrap .noFrame (a.dataFrames.lookup vpn)
      frameDealloc frame
      pt.unmap vpn
      pure { a with dataFrames := a.dataFrames.filter (·.1 ≠ vpn) }

/-- `map_one` for every page of a range. -/
def mapPages (a : MapArea) (pt : PageTable) : List Nat → MemM (MapArea × PageTable)
  | [] => pure (a, pt)
  | vpn :: vpns => do
      let (a, pt) ← a.mapOne pt vpn
      a.mapPages pt vpns

/-- `unmap_one` for every page of a range. -/
def unmapPages (a : MapArea) (pt : PageTable) : List Nat → MemM MapArea
  | [] => pure a
  | vpn :: vpns => do
      let a ← a.unmapOne pt vpn
      a.unmapPages pt vpns

def map (a : MapArea) (pt : PageTable) : MemM (MapArea × PageTable) :=
  a.mapPages pt a.vpnRange.pages

def unmap (a : MapArea) (pt : PageTable) : MemM MapArea :=
  a.unmapPages pt a.vpnRange.pages

def shrinkTo (a : MapArea) (pt : PageTable) (newEnd : Nat) : MemM MapArea := do
  let r ← VPNRange.new newEnd a.vpnRange.end_
  let a ← a.unmapPages pt r.pages
  let r ← VPNRange.new a.vpnRange.start newEnd
  pure { a with vpnRange := r }

def appendTo (a : MapArea) (pt : PageTable) (newEnd : Nat) : MemM (MapArea × PageTable) := do
  let r ← VPNRange.new a.vpnRange.end_ newEnd
  let (a, pt) ← a.mapPages pt r.pages
  let r ← VPNRange.new a.vpnRange.start newEnd
  pure ({ a with vpnRange := r }, pt)

def fromAnother (another : MapArea) : MemM MapArea := do
  let r ← VPNRange.new another.vpnRange.start another.vpnRange.end_
  pure ⟨r, [], another.mapType, another.mapPerm⟩

/-! ## Pages and frames of an area -/

/-- The pages with a frame. -/
def keys (a : MapArea) : List Nat := a.dataFrames.map Prod.fst

/-- The frames held. -/
def ppns (a : MapArea) : List Nat := a.dataFrames.map Prod.snd

/-- The page is in `vpn_range`. -/
def Has (a : MapArea) (v : Nat) : Prop := a.vpnRange.start ≤ v ∧ v < a.vpnRange.end_

instance (a : MapArea) (v : Nat) : Decidable (a.Has v) := inferInstanceAs (Decidable (_ ∧ _))

/-- The leaf entry the area has for a page. -/
def pageEntry (a : MapArea) (v : Nat) : Option PageTableEntry :=
  match a.mapType with
  | .identical => some (PageTableEntry.new v (a.mapPerm ||| PTEFlags.V))
  | .framed => (a.dataFrames.lookup v).map fun p =>
      PageTableEntry.new p (a.mapPerm ||| PTEFlags.V)

end MapArea

/-! ## Lists of keys and frames -/

section Keys

variable {α : Type} {l : List (Nat × α)} {k : Nat} {v : α}

theorem btreeInsert_last (h : ∀ x ∈ l.map Prod.fst, x < k) : btreeInsert l k v = l ++ [(k, v)] := by
  induction l with
  | nil => rfl
  | cons x l ih =>
      have hx : x.1 < k := h x.1 (by simp)
      rw [btreeInsert, if_neg (by omega), if_neg (by omega), ih]
      · rfl
      · intro y hy
        exact h y (by simp only [List.map_cons, List.mem_cons]; exact Or.inr hy)

theorem lookup_eq_none_of_keys (h : k ∉ l.map Prod.fst) : l.lookup k = none := by
  rw [List.lookup_eq_none_iff]
  intro p hp
  simp only [bne_iff_ne, ne_eq]
  rintro rfl
  exact h (List.mem_map_of_mem hp)

theorem exists_lookup_of_mem_keys (h : k ∈ l.map Prod.fst) : ∃ v, l.lookup k = some v := by
  obtain ⟨p, hp, rfl⟩ := List.mem_map.mp h
  refine Option.isSome_iff_exists.mp ?_
  rw [List.lookup_isSome_iff]
  exact ⟨p, hp, by simp⟩

theorem mem_of_lookup (h : l.lookup k = some v) : (k, v) ∈ l := by
  obtain ⟨l₁, l₂, rfl, -⟩ := List.lookup_eq_some_iff.mp h
  simp

theorem lookup_filter_ne {j : Nat} (h : j ≠ k) :
    (l.filter (·.1 ≠ k)).lookup j = l.lookup j := by
  induction l with
  | nil => rfl
  | cons x l ih =>
      by_cases hx : x.1 = k
      · have hne : (j == x.1) = false := by simp [hx, h]
        rw [List.filter_cons_of_neg (by simp [hx]), ih, List.lookup_cons, hne]
      · rw [List.filter_cons_of_pos (by simp [hx]), List.lookup_cons, List.lookup_cons, ih]

/-- The value of a key comes first, the others follow. -/
theorem values_perm_of_lookup (hk : (l.map Prod.fst).Nodup) (h : l.lookup k = some v) :
    (l.map Prod.snd).Perm (v :: (l.filter (·.1 ≠ k)).map Prod.snd) := by
  induction l with
  | nil => cases h
  | cons x l ih =>
      obtain ⟨hx, hnd⟩ := List.nodup_cons.mp hk
      by_cases hxk : x.1 = k
      · subst hxk
        have hrest : l.filter (·.1 ≠ x.1) = l := by
          refine List.filter_eq_self.mpr ?_
          intro y hy
          simp only [decide_eq_true_eq]
          intro heq
          exact hx (heq ▸ List.mem_map_of_mem hy)
        rw [List.lookup_cons_self] at h
        cases h
        rw [List.filter_cons_of_neg (by simp), hrest]
        exact List.Perm.refl _
      · have hne : (k == x.1) = false := by simpa using Ne.symm hxk
        rw [List.lookup_cons, hne] at h
        rw [List.filter_cons_of_pos (by simp [hxk]), List.map_cons, List.map_cons]
        exact ((ih hnd h).cons _).trans (List.Perm.swap _ _ _)

theorem keys_filter_ne : (l.filter (·.1 ≠ k)).map Prod.fst = (l.map Prod.fst).filter (· ≠ k) := by
  rw [List.filter_map]
  rfl

end Keys

/-! ## Mapping pages of an area -/

namespace MapArea

variable {X : Nat → Prop} {E : MemPanic → Prop} {st : MemState} {pt : PageTable} {a : MapArea}

/-- After `map_one` for the pages `vs`, which had no valid entry. -/
structure Maps (X : Nat → Prop) (st : MemState) (pt : PageTable) (a : MapArea) (vs : List Nat)
    (st' : MemState) (pt' : PageTable) (a' : MapArea) : Prop where
  tree : Tree st'.mem pt'
  root : pt'.rootPpn = pt.rootPpn
  moves : Moves X st (pt.frames ++ a.ppns) st' (pt'.frames ++ a'.ppns)
  range : a'.vpnRange = a.vpnRange
  type : a'.mapType = a.mapType
  perm : a'.mapPerm = a.mapPerm
  keys : a'.keys = a.keys ++ if a.mapType = .framed then vs else []
  entry : ∀ v, v ∉ vs → a'.pageEntry v = a.pageEntry v
  fresh : ∀ v ∈ vs, pt.lookup st.mem v = none
  lookup : ∀ v, v < 2 ^ 27 →
    pt'.lookup st'.mem v = if v ∈ vs then a'.pageEntry v else pt.lookup st.mem v
  avail : st.alloc.available ≤ st'.alloc.available + 3 * vs.length
  keeps : Keeps st pt st' pt'

theorem Maps.refl (ht : Tree st.mem pt) (ho : Owns st (pt.frames ++ a.ppns)) :
    Maps X st pt a [] st pt a where
  tree := ht
  root := rfl
  moves := Moves.refl ho
  range := rfl
  type := rfl
  perm := rfl
  keys := by simp
  entry := fun _ _ => rfl
  fresh := fun _ hv => absurd hv List.not_mem_nil
  lookup := fun v _ => by simp
  avail := Nat.le_refl _
  keeps := Keeps.refl st pt

theorem Maps.trans {st₁ st₂ : MemState} {pt₁ pt₂ : PageTable} {a₁ a₂ : MapArea} {v : Nat}
    {vs : List Nat} (h : Maps X st pt a [v] st₁ pt₁ a₁) (h' : Maps X st₁ pt₁ a₁ vs st₂ pt₂ a₂)
    (hv : v ∉ vs) (hlt : ∀ w ∈ vs, w < 2 ^ 27) : Maps X st pt a (v :: vs) st₂ pt₂ a₂ where
  tree := h'.tree
  root := h'.root.trans h.root
  moves := h.moves.trans h'.moves
  range := h'.range.trans h.range
  type := h'.type.trans h.type
  perm := h'.perm.trans h.perm
  keys := by
    rw [h'.keys, h.keys, h.type]
    split
    · simp
    · simp
  entry := fun w hw => by
    rw [List.mem_cons, not_or] at hw
    rw [h'.entry w hw.2, h.entry w (by simpa using hw.1)]
  fresh := fun w hw => by
    rcases List.mem_cons.mp hw with rfl | hw
    · exact h.fresh w (by simp)
    · have hwv : w ≠ v := fun heq => hv (heq ▸ hw)
      have hnone := h'.fresh w hw
      rwa [h.lookup w (hlt w hw), if_neg (by simpa using hwv)] at hnone
  lookup := fun w hw => by
    rw [h'.lookup w hw]
    by_cases hmem : w ∈ vs
    · rw [if_pos hmem, if_pos (List.mem_cons_of_mem _ hmem)]
    · rw [if_neg hmem, h.lookup w hw]
      by_cases hwv : w = v
      · rw [if_pos (by simp [hwv]), if_pos (by simp [hwv]), h'.entry w hmem]
      · rw [if_neg (by simpa using hwv), if_neg (by simp [hwv, hmem])]
  avail := by
    have h₁ := h.avail
    have h₂ := h'.avail
    rw [List.length_singleton] at h₁
    rw [List.length_cons]
    omega
  keeps := h.keeps.trans h'.keeps

theorem mapOne_meets {vpn : Nat} (ht : Tree st.mem pt) (ho : Owns st (pt.frames ++ a.ppns))
    (hvpn : vpn < 2 ^ 27) (hkeys : ∀ k ∈ a.keys, k < vpn)
    (hE : st.alloc.available < 3 → E .outOfFrames)
    (hmapped : pt.lookup st.mem vpn ≠ none → E .mapped) :
    Meets E (a.mapOne pt vpn) st fun r st' => Maps X st pt a [vpn] st' r.2 r.1 := by
  unfold mapOne
  cases htype : a.mapType with
  | identical =>
      dsimp only
      rw [Meets.bind_iff]
      refine (map_meets (X := X) (k := 2) ht ho.left hvpn (Nat.lt_trans hvpn (by decide))
        (fun _ => Nat.le_refl 2) (fun h => hE (by omega)) hmapped).mono ?_
      rintro pt' st' ⟨hg, hnone, hl⟩
      refine Meets.pure_iff.mpr ?_
      refine ⟨hg.tree, hg.root, hg.moves.frame ho, rfl, rfl, rfl, by simp [htype], fun _ _ => rfl,
        by simpa using hnone, ?_, ?_, hg.keeps⟩
      · intro v hv
        have hentry : a.pageEntry v = some (PageTableEntry.new v (a.mapPerm ||| PTEFlags.V)) := by
          simp only [pageEntry, htype]
        rw [hl v hv, hentry]
        by_cases hvv : v = vpn
        · rw [if_pos hvv, if_pos (by simp [hvv]), hvv]
        · rw [if_neg hvv, if_neg (by simpa using hvv)]
      · have := hg.avail
        rw [List.length_singleton]
        omega
  | framed =>
      have hnokey : vpn ∉ a.keys := fun h => Nat.lt_irrefl _ (hkeys vpn h)
      dsimp only
      rw [lookup_eq_none_of_keys hnokey, Meets.bind_iff]
      refine ((frameAlloc_meets (X := X) ho (fun h => hE (by omega))).and
        (frameAlloc_bump st)).mono ?_
      rintro f st₁ ⟨⟨hm, hfree, hmem, havail⟩, hbump⟩
      have hf : f < 2 ^ 44 := hm.owns.lt_two_pow List.mem_cons_self
      have hsame : ∀ p ∈ pt.frames, Mem.SameFrame st.mem st₁.mem p := by
        intro p hp
        rw [hmem]
        refine Mem.sameFrame_zeroFrame _ ?_
        rintro rfl
        exact ho.used p (List.mem_append_left _ hp) hfree
      have ho₁ : Owns st₁ (pt.frames ++ (a.ppns ++ [f])) := by
        refine hm.owns.perm ?_
        rw [← List.append_assoc]
        exact (List.perm_append_singleton f _).symm
      have hinsert : btreeInsert a.dataFrames vpn f = a.dataFrames ++ [(vpn, f)] :=
        btreeInsert_last hkeys
      simp only [Option.toList_none, dropFrames, Meets.bind_iff, Meets.pure_iff, hinsert]
      refine (map_meets (X := X) (k := 2) (ht.congr hsame) ho₁.left hvpn hf
        (fun _ => Nat.le_refl 2) (fun h => hE (by omega)) ?_).mono ?_
      · intro h
        exact hmapped (ht.lookup_congr hsame vpn ▸ h)
      rintro pt' st' ⟨hg, hnone, hl⟩
      rw [ht.lookup_congr hsame] at hnone
      have hmoves : Moves X st (pt.frames ++ a.ppns) st' (pt'.frames ++ (a.ppns ++ [f])) := by
        refine hm.trans ((hg.moves.frame ho₁).perm ?_ (List.Perm.refl _))
        rw [← List.append_assoc]
        exact List.perm_append_singleton f _
      have hkeeps : Keeps st pt st₁ pt :=
        ⟨fun is n his hn => (ht.node_congr hsame his).trans hn, fun hr => (hbump hr).2.1⟩
      refine ⟨hg.tree, hg.root, ?_, rfl, htype.symm, rfl, ?_, ?_, by simpa using hnone, ?_, ?_,
        hkeeps.trans hg.keeps⟩
      · simpa only [ppns, List.map_append, List.map_cons, List.map_nil] using hmoves
      · simp only [MapArea.keys, List.map_append, List.map_cons, List.map_nil, htype, if_pos]
      · intro v hv
        have hne : (v == vpn) = false := by simpa using hv
        simp only [pageEntry, htype, List.lookup_append, List.lookup_cons, hne, List.lookup_nil,
          Option.or_none]
      · intro v hv
        rw [hl v hv, ht.lookup_congr hsame]
        by_cases hvv : v = vpn
        · subst hvv
          rw [if_pos rfl, if_pos (by simp)]
          simp only [pageEntry, List.lookup_append, lookup_eq_none_of_keys hnokey,
            List.lookup_cons_self, Option.none_or, Option.map_some]
        · rw [if_neg hvv, if_neg (by simpa using hvv)]
      · have := hg.avail
        rw [List.length_singleton]
        omega

theorem mapPages_meets {vs : List Nat} (ht : Tree st.mem pt) (ho : Owns st (pt.frames ++ a.ppns))
    (hlt : ∀ v ∈ vs, v < 2 ^ 27) (hsorted : vs.Pairwise (· < ·))
    (hkeys : ∀ k ∈ a.keys, ∀ v ∈ vs, k < v)
    (hE : st.alloc.available < 3 * vs.length → E .outOfFrames)
    (hmapped : (∃ v ∈ vs, pt.lookup st.mem v ≠ none) → E .mapped) :
    Meets E (a.mapPages pt vs) st fun r st' => Maps X st pt a vs st' r.2 r.1 := by
  induction vs generalizing st pt a with
  | nil => exact Meets.pure_iff.mpr (Maps.refl ht ho)
  | cons v vs ih =>
      obtain ⟨hv, hsorted'⟩ := List.pairwise_cons.mp hsorted
      have hnot : v ∉ vs := fun h => Nat.lt_irrefl _ (hv v h)
      have hlt' : ∀ w ∈ vs, w < 2 ^ 27 := fun w hw => hlt w (List.mem_cons_of_mem _ hw)
      rw [mapPages, Meets.bind_iff]
      refine (mapOne_meets (X := X) ht ho (hlt v (by simp)) (fun k hk => hkeys k hk v (by simp))
        ?_ ?_).mono ?_
      · intro h
        refine hE ?_
        rw [List.length_cons]
        omega
      · intro h
        exact hmapped ⟨v, by simp, h⟩
      rintro ⟨a₁, pt₁⟩ st₁ h
      dsimp only at h ⊢
      refine (ih h.tree h.moves.owns hlt' hsorted' ?_ ?_ ?_).mono ?_
      · intro k hk w hw
        rw [h.keys] at hk
        rcases List.mem_append.mp hk with hk | hk
        · exact hkeys k hk w (List.mem_cons_of_mem _ hw)
        · split at hk
          · rw [List.mem_singleton] at hk
            exact hk ▸ hv w hw
          · exact absurd hk List.not_mem_nil
      · intro hav
        refine hE ?_
        have := h.avail
        rw [List.length_singleton] at this
        rw [List.length_cons]
        omega
      · rintro ⟨w, hw, hne⟩
        rw [h.lookup w (hlt' w hw), if_neg] at hne
        · exact hmapped ⟨w, List.mem_cons_of_mem _ hw, hne⟩
        · rw [List.mem_singleton]
          rintro rfl
          exact hnot hw
      rintro ⟨a₂, pt₂⟩ st₂ h'
      exact h.trans h' hnot hlt'

/-! ## Unmapping pages of an area -/

/-- After `unmap_one` for the pages `vs`. -/
structure Unmaps (X : Nat → Prop) (st : MemState) (pt : PageTable) (a : MapArea) (vs : List Nat)
    (st' : MemState) (a' : MapArea) : Prop where
  tree : Tree st'.mem pt
  moves : Moves X st (pt.frames ++ a.ppns) st' (pt.frames ++ a'.ppns)
  range : a'.vpnRange = a.vpnRange
  type : a'.mapType = a.mapType
  perm : a'.mapPerm = a.mapPerm
  keys : a'.keys = a.keys.filter (· ∉ vs)
  entry : ∀ v, v ∉ vs → a'.pageEntry v = a.pageEntry v
  lookup : ∀ v, v < 2 ^ 27 →
    pt.lookup st'.mem v = if v ∈ vs then none else pt.lookup st.mem v

theorem Unmaps.refl (ht : Tree st.mem pt) (ho : Owns st (pt.frames ++ a.ppns)) :
    Unmaps X st pt a [] st a where
  tree := ht
  moves := Moves.refl ho
  range := rfl
  type := rfl
  perm := rfl
  keys := by simp
  entry := fun _ _ => rfl
  lookup := fun v _ => by simp

theorem Unmaps.trans {st₁ st₂ : MemState} {a₁ a₂ : MapArea} {v : Nat} {vs : List Nat}
    (h : Unmaps X st pt a [v] st₁ a₁) (h' : Unmaps X st₁ pt a₁ vs st₂ a₂) :
    Unmaps X st pt a (v :: vs) st₂ a₂ where
  tree := h'.tree
  moves := h.moves.trans h'.moves
  range := h'.range.trans h.range
  type := h'.type.trans h.type
  perm := h'.perm.trans h.perm
  keys := by
    rw [h'.keys, h.keys, List.filter_filter]
    congr 1
    funext k
    simp only [List.mem_cons, List.not_mem_nil, or_false, not_or, ← Bool.decide_and, and_comm]
  entry := fun w hw => by
    rw [List.mem_cons, not_or] at hw
    rw [h'.entry w hw.2, h.entry w (by simpa using hw.1)]
  lookup := fun w hw => by
    rw [h'.lookup w hw, h.lookup w hw]
    by_cases hmem : w ∈ vs
    · rw [if_pos hmem, if_pos (List.mem_cons_of_mem _ hmem)]
    · rw [if_neg hmem]
      by_cases hwv : w = v
      · rw [if_pos (by simp [hwv]), if_pos (by simp [hwv])]
      · rw [if_neg (by simpa using hwv), if_neg (by simp [hwv, hmem])]

theorem unmapOne_meets {vpn : Nat} {e : PageTableEntry} (ht : Tree st.mem pt)
    (ho : Owns st (pt.frames ++ a.ppns)) (hvpn : vpn < 2 ^ 27) (hnodup : a.keys.Nodup)
    (hkey : if a.mapType = .framed then vpn ∈ a.keys else a.keys = [])
    (he : pt.lookup st.mem vpn = some e) :
    Meets E (a.unmapOne pt vpn) st fun a' st' => Unmaps X st pt a [vpn] st' a' := by
  unfold unmapOne
  cases htype : a.mapType with
  | identical =>
      rw [htype, if_neg (by decide)] at hkey
      dsimp only
      rw [Meets.bind_iff]
      refine (unmap_meets (X := X) ht ho.left hvpn he).mono ?_
      rintro _ st' ⟨ht', hm, -, hl⟩
      refine Meets.pure_iff.mpr ?_
      refine ⟨ht', hm.frame ho, rfl, rfl, rfl, by simp [hkey], fun _ _ => rfl, ?_⟩
      intro v hv
      rw [hl v hv]
      simp only [List.mem_singleton]
  | framed =>
      rw [htype, if_pos rfl] at hkey
      obtain ⟨p, hp⟩ := exists_lookup_of_mem_keys hkey
      have hperm : (pt.frames ++ a.ppns).Perm
          (p :: (pt.frames ++ (a.dataFrames.filter (·.1 ≠ vpn)).map Prod.snd)) :=
        ((values_perm_of_lookup hnodup hp).append_left pt.frames).trans List.perm_middle
      dsimp only
      rw [hp]
      simp only [Meets.bind_iff, Meets.unwrap_some]
      refine (frameDealloc_meets (X := X) (ho.perm hperm)).mono ?_
      rintro _ st₁ ⟨hm, hmem, -⟩
      rw [← hmem] at ht he
      refine (unmap_meets (X := X) ht hm.owns.left hvpn he).mono ?_
      rintro _ st' ⟨ht', hm', -, hl⟩
      refine Meets.pure_iff.mpr ?_
      refine ⟨ht', ?_, rfl, htype.symm, rfl, ?_, ?_, ?_⟩
      · exact (hm.trans (hm'.frame hm.owns)).perm hperm.symm (List.Perm.refl _)
      · simp only [MapArea.keys, keys_filter_ne, List.mem_singleton, ne_eq]
      · intro v hv
        simp only [pageEntry, htype, lookup_filter_ne (by simpa using hv)]
      · intro v hv
        rw [hl v hv, hmem]
        simp only [List.mem_singleton]

theorem unmapPages_meets {vs : List Nat} (ht : Tree st.mem pt) (ho : Owns st (pt.frames ++ a.ppns))
    (hlt : ∀ v ∈ vs, v < 2 ^ 27) (hvs : vs.Nodup) (hnodup : a.keys.Nodup)
    (hkey : ∀ v ∈ vs, if a.mapType = .framed then v ∈ a.keys else a.keys = [])
    (hmapped : ∀ v ∈ vs, pt.lookup st.mem v ≠ none) :
    Meets E (a.unmapPages pt vs) st fun a' st' => Unmaps X st pt a vs st' a' := by
  induction vs generalizing st a with
  | nil => exact Meets.pure_iff.mpr (Unmaps.refl ht ho)
  | cons v vs ih =>
      obtain ⟨hv, hvs'⟩ := List.nodup_cons.mp hvs
      obtain ⟨e, he⟩ := Option.ne_none_iff_exists'.mp (hmapped v (by simp))
      rw [unmapPages, Meets.bind_iff]
      refine (unmapOne_meets (X := X) ht ho (hlt v (by simp)) hnodup (hkey v (by simp)) he).mono ?_
      rintro a₁ st₁ h
      have hlt' : ∀ w ∈ vs, w < 2 ^ 27 := fun w hw => hlt w (List.mem_cons_of_mem _ hw)
      have hne : ∀ w ∈ vs, w ∉ [v] := by
        intro w hw hwv
        rw [List.mem_singleton] at hwv
        exact hv (hwv ▸ hw)
      refine (ih h.tree h.moves.owns hlt' hvs' ?_ ?_ ?_).mono ?_
      · rw [h.keys]
        exact hnodup.filter _
      · intro w hw
        have hw' := hkey w (List.mem_cons_of_mem _ hw)
        rw [h.type, h.keys]
        split
        · next hf =>
            rw [if_pos hf] at hw'
            simp only [List.mem_filter, decide_eq_true_eq]
            exact ⟨hw', hne w hw⟩
        · next hf =>
            rw [if_neg hf] at hw'
            rw [hw']
            rfl
      · intro w hw
        rw [h.lookup w (hlt' w hw), if_neg (hne w hw)]
        exact hmapped w (List.mem_cons_of_mem _ hw)
      rintro a₂ st₂ h'
      exact h.trans h'

end MapArea

end Nimloth
