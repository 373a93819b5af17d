import Mathlib.Data.List.Basic
import Mathlib.Data.List.Induction
import Nimloth.LifecycleFrames

/-!
# Entries that lead to tables

The code follows a valid entry of an upper level whatever its flags are;
the hardware takes one with `R` or `X` for a page. The two agree because
`find_pte_create` is the only one to fill an upper level, and gives its
entries no flag but `V` (`Pointers`). Here that is carried through every
function that changes an address space.
-/

namespace Nimloth

open Outcome PageTable MemorySet

/-- Every valid entry above the last level is one of `find_pte_create`. -/
def Pointers (m : Mem) (root : Nat) : Prop :=
  ∀ is n i, IsPath (is ++ [i]) → node m root is = some n → (m.entry n i).isValid = true →
    ∃ f, f < 2 ^ 44 ∧ m.entry n i = PageTableEntry.new f PTEFlags.V

section Table

variable {m m' : Mem} {pt : PageTable}

theorem Pointers.congr (h : Pointers m pt.rootPpn) (ht : Tree m pt)
    (hs : ∀ p ∈ pt.frames, Mem.SameFrame m m' p) : Pointers m' pt.rootPpn := by
  intro is n i his hn hv
  rw [ht.node_congr hs his.left] at hn
  have hsame := (hs n (ht.mem is n his.left hn)).entry his.last
  rw [hsame] at hv ⊢
  exact h is n i his hn hv

/-- Leaf entries do not matter. -/
theorem Pointers.setLeaf {vpn n : Nat} {e : PageTableEntry} (h : Pointers m pt.rootPpn)
    (ht : Tree m pt) (hn : node m pt.rootPpn (vpnPath vpn) = some n) :
    Pointers (m.setPte n (vpn % 512) e.bits) pt.rootPpn := by
  intro is k i his hk hv
  rw [ht.node_setLeaf hn his.left] at hk
  have hkn : k ≠ n := by
    rintro rfl
    have hpath := ht.inj is (vpnPath vpn) k his.left (vpnPath_isPath vpn) hk hn
    have hlen := his.1
    rw [List.length_append, hpath] at hlen
    simp [vpnPath] at hlen
  have hsame := m.entry_setPte_of_ne (v := e.bits) (Nat.mod_lt vpn (by decide : 0 < 512))
    his.last (Or.inl hkn)
  rw [hsame] at hv ⊢
  exact h is k i his hk hv

/-- A fresh table. -/
theorem Pointers.grow {is : List Nat} {n idx f : Nat} (h : Pointers m pt.rootPpn) (ht : Tree m pt)
    (his : IsPath (is ++ [idx])) (hn : node m pt.rootPpn is = some n)
    (hidx : (m.entry n idx).isValid = false) (hf : f < 2 ^ 44) (hfresh : f ∉ pt.frames) :
    Pointers (Tree.grown m n idx f) pt.rootPpn := by
  intro js k i hjs hk hv
  have hfn : f ≠ n := fun heq => hfresh (heq ▸ ht.mem is n his.left hn)
  rw [ht.node_grown his hn hidx hf hfresh hjs.left] at hk
  split at hk
  · cases hk
    rw [Tree.entry_grown_fresh m his.last hjs.last hfn, PageTableEntry.isValid_empty] at hv
    cases hv
  · have hkf : k ≠ f := fun heq => hfresh (heq ▸ ht.mem js k hjs.left hk)
    by_cases hki : k = n ∧ i = idx
    · obtain ⟨rfl, rfl⟩ := hki
      exact ⟨f, hf, Tree.entry_grown_self m k i hf⟩
    · rw [Tree.entry_grown_of_ne m his.last hjs.last hkf (by omega)] at hv ⊢
      exact h js k i hjs hk hv

end Table

/-! ## Page tables -/

namespace PageTable

variable {st : MemState} {pt : PageTable}

theorem grow_pointers {is : List Nat} {j n : Nat} (h : Pointers st.mem pt.rootPpn)
    (ht : Tree st.mem pt) (ho : Owns st pt.frames) (his : IsPath (is ++ [j]))
    (hn : node st.mem pt.rootPpn is = some n) (hv : (st.mem.entry n j).isValid = false) :
    Meets (fun _ => True) (do
      let frame ← frameAlloc
      modify fun st =>
        { st with mem := st.mem.setPte n j (PageTableEntry.new frame PTEFlags.V).bits }
      pure frame) st fun _ st' => Pointers st'.mem pt.rootPpn := by
  rw [Meets.bind_iff]
  refine (frameAlloc_meets (X := fun _ => False) ho fun _ => trivial).mono ?_
  rintro f st₁ ⟨hm, hfree, hmem, -⟩
  simp only [Meets.bind_iff, Meets.modify_iff, Meets.pure_iff]
  have hf : f < 2 ^ 44 := hm.owns.lt_two_pow List.mem_cons_self
  rw [hmem]
  exact h.grow ht his hn hv hf fun hmem => ho.used f hmem hfree

theorem createLoop_pointers {js : List Nat} {i : Nat} {st : MemState} {pt : PageTable}
    {is : List Nat} {n : Nat} (h : Pointers st.mem pt.rootPpn) (ht : Tree st.mem pt)
    (ho : Owns st pt.frames) (his : IsPath (is ++ js)) (hn : node st.mem pt.rootPpn is = some n) :
    Meets (fun _ => True) (createLoop pt n (js ++ [i])) st fun _ st' =>
      Pointers st'.mem pt.rootPpn := by
  induction js generalizing st pt is n with
  | nil => exact Meets.pure_iff.mpr h
  | cons j js ih =>
      have hpath : IsPath ((is ++ [j]) ++ js) := by simpa using his
      rw [createLoop_cons, Meets.bind_iff, Meets.get_iff]
      by_cases hv : (st.mem.entry n j).isValid = true
      · rw [if_pos hv]
        have hnode : node st.mem pt.rootPpn (is ++ [j]) = some (st.mem.entry n j).ppn := by
          rw [node_snoc, hn, Option.bind_some, if_pos hv]
        exact ih h ht ho hpath hnode
      · rw [if_neg hv]
        simp only [Bool.not_eq_true] at hv
        rw [Meets.bind_iff]
        refine ((grow_meets (X := fun _ => False) ht ho hpath.left hn hv fun _ => trivial).and
          (grow_pointers h ht ho hpath.left hn hv)).mono ?_
        rintro f st₁ ⟨⟨hg, -, hnodes, hppn, -⟩, h₁⟩
        have hnode := (hnodes _ hpath.left).trans (if_pos rfl)
        rw [Meets.bind_iff, Meets.get_iff, hppn]
        exact ih h₁ hg.tree hg.moves.owns hpath hnode

theorem new_pointers (ho : Owns st []) :
    Meets (fun _ => True) PageTable.new st fun pt st' => Pointers st'.mem pt.rootPpn := by
  rw [PageTable.new, Meets.bind_iff]
  refine (frameAlloc_meets (X := fun _ => False) ho fun _ => trivial).mono ?_
  rintro f st₁ ⟨hm, -, hmem, -⟩
  refine Meets.pure_iff.mpr ?_
  have hentry : ∀ i, i < 512 → st₁.mem.entry f i = PageTableEntry.empty := by
    intro i hi
    rw [hmem]
    exact Mem.entry_zeroFrame st.mem f hi
  intro is n i his hn hv
  dsimp only at hn
  cases is with
  | nil =>
      cases hn
      rw [hentry i his.last, PageTableEntry.isValid_empty] at hv
      cases hv
  | cons j is =>
      rw [node, hentry j (his.2 j List.mem_cons_self)] at hn
      simp at hn

theorem map_pointers {vpn ppn : Nat} {flags : PTEFlags} (h : Pointers st.mem pt.rootPpn)
    (ht : Tree st.mem pt) (ho : Owns st pt.frames) :
    Meets (fun _ => True) (pt.map vpn ppn flags) st fun _ st' => Pointers st'.mem pt.rootPpn := by
  rw [map, Meets.bind_iff, findPteCreate, vpnIndexes_eq]
  have hroot : node st.mem pt.rootPpn [] = some pt.rootPpn := rfl
  have hpath : IsPath ([] ++ vpnPath vpn) := vpnPath_isPath vpn
  refine ((createLoop_meets (X := fun _ => False) (k := 2) ht ho hpath hroot
    (fun _ => Nat.le_refl 2) fun _ => trivial).and
    (createLoop_pointers h ht ho hpath hroot)).mono ?_
  rintro ⟨pt', n, i⟩ st₁ ⟨⟨hg, -, hn, hi⟩, h₁⟩
  dsimp only at hg hn hi
  subst hi
  rw [List.nil_append] at hn
  simp only [Meets.bind_iff, Meets.get_iff, Meets.ensure_iff, Meets.set_iff, Meets.pure_iff]
  refine ⟨fun _ => ?_, fun _ => trivial⟩
  rw [← hg.root] at h₁ ⊢
  exact h₁.setLeaf hg.tree hn

theorem unmap_pointers {vpn : Nat} (h : Pointers st.mem pt.rootPpn) (ht : Tree st.mem pt) :
    Meets (fun _ => True) (pt.unmap vpn) st fun _ st' => Pointers st'.mem pt.rootPpn := by
  simp only [unmap, Meets.bind_iff, Meets.get_iff]
  rw [findPte_eq]
  cases hn : node st.mem pt.rootPpn (vpnPath vpn) with
  | none => exact Meets.unwrap_none.mpr trivial
  | some n =>
      simp only [Option.map_some, Meets.unwrap_some, Meets.ensure_iff, Meets.set_iff]
      exact ⟨fun _ => h.setLeaf ht hn, fun _ => trivial⟩

end PageTable

/-! ## Areas -/

namespace MapArea

variable {st : MemState} {pt : PageTable} {a : MapArea}

theorem mapOne_pointers {vpn : Nat} (h : Pointers st.mem pt.rootPpn) (ht : Tree st.mem pt)
    (ho : Owns st (pt.frames ++ a.ppns)) (hkeys : ∀ k ∈ a.keys, k < vpn) :
    Meets (fun _ => True) (a.mapOne pt vpn) st fun _ st' => Pointers st'.mem pt.rootPpn := by
  unfold mapOne
  cases a.mapType with
  | identical =>
      dsimp only
      rw [Meets.bind_iff]
      exact (map_pointers h ht ho.left).mono fun _ _ h' => Meets.pure_iff.mpr h'
  | framed =>
      have hnokey : vpn ∉ a.keys := fun h => Nat.lt_irrefl _ (hkeys vpn h)
      dsimp only
      rw [lookup_eq_none_of_keys hnokey, Meets.bind_iff]
      refine (frameAlloc_meets (X := fun _ => False) ho fun _ => trivial).mono ?_
      rintro f st₁ ⟨hm, hfree, hmem, -⟩
      have hsame : ∀ p ∈ pt.frames, Mem.SameFrame st.mem st₁.mem p := by
        intro p hp
        rw [hmem]
        refine Mem.sameFrame_zeroFrame _ ?_
        rintro rfl
        exact ho.used p (List.mem_append_left _ hp) hfree
      have ho₁ : Owns st₁ pt.frames := by
        have ho := hm.owns
        rw [← List.singleton_append] at ho
        exact ho.right.left
      simp only [Option.toList_none, dropFrames, Meets.bind_iff, Meets.pure_iff]
      exact map_pointers (h.congr ht hsame) (ht.congr hsame) ho₁

theorem mapPages_pointers {vs : List Nat} (h : Pointers st.mem pt.rootPpn) (ht : Tree st.mem pt)
    (ho : Owns st (pt.frames ++ a.ppns)) (hlt : ∀ v ∈ vs, v < 2 ^ 27)
    (hsorted : vs.Pairwise (· < ·)) (hkeys : ∀ k ∈ a.keys, ∀ v ∈ vs, k < v) :
    Meets (fun _ => True) (a.mapPages pt vs) st fun _ st' => Pointers st'.mem pt.rootPpn := by
  induction vs generalizing st pt a with
  | nil => exact Meets.pure_iff.mpr h
  | cons v vs ih =>
      obtain ⟨hv, hsorted'⟩ := List.pairwise_cons.mp hsorted
      have hfirst : ∀ k ∈ a.keys, k < v := fun k hk => hkeys k hk v (by simp)
      rw [mapPages, Meets.bind_iff]
      refine ((mapOne_meets (X := fun _ => False) ht ho (hlt v (by simp)) hfirst
        (fun _ => trivial) fun _ => trivial).and (mapOne_pointers h ht ho hfirst)).mono ?_
      rintro ⟨a₁, pt₁⟩ st₁ ⟨hm, h₁⟩
      dsimp only at hm ⊢
      rw [← hm.root] at h₁ ⊢
      refine ih h₁ hm.tree hm.moves.owns (fun w hw => hlt w (List.mem_cons_of_mem _ hw)) hsorted' ?_
      intro k hk w hw
      rw [hm.keys] at hk
      rcases List.mem_append.mp hk with hk | hk
      · exact hkeys k hk w (List.mem_cons_of_mem _ hw)
      · split at hk
        · rw [List.mem_singleton] at hk
          exact hk ▸ hv w hw
        · exact absurd hk List.not_mem_nil

theorem unmapOne_pointers {vpn : Nat} (h : Pointers st.mem pt.rootPpn) (ht : Tree st.mem pt)
    (ho : Owns st (pt.frames ++ a.ppns)) (hnodup : a.keys.Nodup) :
    Meets (fun _ => True) (a.unmapOne pt vpn) st fun _ st' => Pointers st'.mem pt.rootPpn := by
  unfold unmapOne
  cases a.mapType with
  | identical =>
      dsimp only
      rw [Meets.bind_iff]
      exact (unmap_pointers h ht).mono fun _ _ h' => Meets.pure_iff.mpr h'
  | framed =>
      dsimp only
      cases hp : a.dataFrames.lookup vpn with
      | none => exact Meets.bind_iff.mpr (Meets.unwrap_none.mpr trivial)
      | some p =>
          have hperm : (pt.frames ++ a.ppns).Perm
              (p :: (pt.frames ++ (a.dataFrames.filter (·.1 ≠ vpn)).map Prod.snd)) :=
            ((values_perm_of_lookup hnodup hp).append_left pt.frames).trans List.perm_middle
          simp only [Meets.bind_iff, Meets.unwrap_some]
          refine (frameDealloc_meets (X := fun _ => False) (ho.perm hperm)).mono ?_
          rintro _ st₁ ⟨-, hmem, -⟩
          rw [← hmem] at ht h
          exact (unmap_pointers h ht).mono fun _ _ h' => Meets.pure_iff.mpr h'

theorem unmapPages_pointers {vs : List Nat} (h : Pointers st.mem pt.rootPpn) (ht : Tree st.mem pt)
    (ho : Owns st (pt.frames ++ a.ppns)) (hlt : ∀ v ∈ vs, v < 2 ^ 27) (hvs : vs.Nodup)
    (hnodup : a.keys.Nodup)
    (hkey : ∀ v ∈ vs, if a.mapType = .framed then v ∈ a.keys else a.keys = [])
    (hmapped : ∀ v ∈ vs, pt.lookup st.mem v ≠ none) :
    Meets (fun _ => True) (a.unmapPages pt vs) st fun _ st' => Pointers st'.mem pt.rootPpn := by
  induction vs generalizing st a with
  | nil => exact Meets.pure_iff.mpr h
  | cons v vs ih =>
      obtain ⟨hv, hvs'⟩ := List.nodup_cons.mp hvs
      obtain ⟨e, he⟩ := Option.ne_none_iff_exists'.mp (hmapped v (by simp))
      have hlt' : ∀ w ∈ vs, w < 2 ^ 27 := fun w hw => hlt w (List.mem_cons_of_mem _ hw)
      have hne : ∀ w ∈ vs, w ∉ [v] := by
        intro w hw hwv
        rw [List.mem_singleton] at hwv
        exact hv (hwv ▸ hw)
      rw [unmapPages, Meets.bind_iff]
      refine ((unmapOne_meets (X := fun _ => False) ht ho (hlt v (by simp)) hnodup
        (hkey v (by simp)) he).and (unmapOne_pointers h ht ho hnodup)).mono ?_
      rintro a₁ st₁ ⟨hu, h₁⟩
      refine ih h₁ hu.tree hu.moves.owns hlt' hvs' ?_ ?_ ?_
      · rw [hu.keys]
        exact hnodup.filter _
      · intro w hw
        have hw' := hkey w (List.mem_cons_of_mem _ hw)
        rw [hu.type, hu.keys]
        split
        · next hf =>
            rw [if_pos hf] at hw'
            simp only [List.mem_filter, decide_eq_true_eq]
            exact ⟨hw', hne w hw⟩
        · next hf =>
            rw [if_neg hf] at hw'
            rw [hw']
            rfl
      · intro w hw
        rw [hu.lookup w (hlt' w hw), if_neg (hne w hw)]
        exact hmapped w (List.mem_cons_of_mem _ hw)

end MapArea

/-! ## Address spaces -/

namespace MemorySet

/-- The upper levels of the page table. -/
def Pointers (m : Mem) (ms : MemorySet) : Prop := Nimloth.Pointers m ms.pageTable.rootPpn

variable {img : KernelImage} {tramp : Nat} {st : MemState} {ms : MemorySet} {a : MapArea}
  {pt : PageTable} {areas : List MapArea}

theorem newUser_pointers (hwf : st.alloc.Wf) :
    Meets (fun _ => True) (do let ms ← newBare; ms.mapTrampoline img) st fun ms st' =>
      ms.Pointers st'.mem := by
  simp only [newBare, Meets.bind_iff]
  refine ((new_meets (X := fun _ => False) (Owns.nil hwf) fun _ => trivial).and
    (new_pointers (Owns.nil hwf))).mono ?_
  rintro pt st₁ ⟨⟨ht, hm, -, -⟩, hp⟩
  refine Meets.pure_iff.mpr ?_
  rw [mapTrampoline, Meets.bind_iff, Meets.ensure_iff, floor_trampoline]
  refine ⟨fun _ => ?_, fun _ => trivial⟩
  rw [Meets.bind_iff]
  refine ((map_meets (X := fun _ => False) (k := 2) ht hm.owns (by decide)
    img.trampoline_lt_two_pow (fun _ => Nat.le_refl 2) (fun _ => trivial)
    fun _ => trivial).and (map_pointers hp ht hm.owns)).mono ?_
  rintro pt' st' ⟨⟨hg, -, -⟩, hp'⟩
  refine Meets.pure_iff.mpr ?_
  rw [← hg.root] at hp'
  exact hp'

/-- A fresh area is mapped; the root stays. -/
theorem map_area_pointers (hp : Nimloth.Pointers st.mem pt.rootPpn)
    (h : Space tramp st.mem pt areas) (ho : Owns st (pt.frames ++ dataPpns areas))
    (hnew : a.dataFrames = []) (hend : a.vpnRange.end_ ≤ 2 ^ 27) :
    Meets (fun _ => True) (a.map pt) st fun r st' => Nimloth.Pointers st'.mem r.2.rootPpn := by
  have hppns : a.ppns = [] := by simp [MapArea.ppns, hnew]
  have hkeys : a.keys = [] := by simp [MapArea.keys, hnew]
  have ho' : Owns st (pt.frames ++ a.ppns) := by simpa [hppns] using ho.left
  have hpages : ∀ v ∈ a.vpnRange.pages, v < 2 ^ 27 :=
    fun v hv => Nat.lt_of_lt_of_le (VPNRange.mem_pages.mp hv).2 hend
  have hbelow : ∀ k ∈ a.keys, ∀ v ∈ a.vpnRange.pages, k < v := by
    rw [hkeys]
    exact fun k hk => absurd hk List.not_mem_nil
  refine ((MapArea.mapPages_meets (X := fun _ => False) h.tree ho' hpages a.vpnRange.pairwise_pages
    hbelow (fun _ => trivial) fun _ => trivial).and
      (MapArea.mapPages_pointers hp h.tree ho' hpages a.vpnRange.pairwise_pages hbelow)).mono ?_
  rintro r st' ⟨hm, hp'⟩
  rwa [← hm.root] at hp'

theorem pushArea_pointers (hp : ms.Pointers st.mem) (h : ms.Ok tramp st)
    (hnew : a.dataFrames = []) (hend : a.vpnRange.end_ ≤ 2 ^ 27) :
    Meets (fun _ => True) (ms.pushArea a) st fun ms' st' => ms'.Pointers st'.mem := by
  rw [pushArea, Meets.bind_iff]
  refine (map_area_pointers hp h.space h.owns hnew hend).mono ?_
  rintro r st' hp'
  exact Meets.pure_iff.mpr hp'

theorem pushData_pointers {data : List UInt8} (hp : ms.Pointers st.mem)
    (h : ms.UserOk img.trampoline st) (hnew : a.dataFrames = [])
    (hstart : a.vpnRange.start < 2 ^ 27) (hend : a.vpnRange.end_ ≤ 2 ^ 27)
    (hframed : a.mapType = .framed) :
    Meets (fun _ => True) (pushData img ms a data) st fun ms' st' => ms'.Pointers st'.mem := by
  rw [pushData, Meets.bind_iff]
  refine ((map_area_meets (X := fun _ => False) h.space h.owns hnew hstart hend (fun _ => trivial)
    fun _ => trivial).and (map_area_pointers hp h.space h.owns hnew hend)).mono ?_
  rintro ⟨a', pt'⟩ st₁ ⟨⟨hspace, hadded, hm, -⟩, hp'⟩
  have hall : ∀ b ∈ a' :: ms.areas, b.mapType = .framed := by
    intro b hb
    rcases List.mem_cons.mp hb with rfl | hb
    · exact hadded.type.trans hframed
    · exact h.framed b hb
  rw [Meets.bind_iff]
  refine (copyData_meets (X := fun _ => False) (E := fun _ => True) hspace hm.owns hall
    (fun _ _ _ => trivial) fun _ _ _ => trivial).mono ?_
  rintro _ st₂ ⟨-, -, -, -, hkept, -⟩
  refine Meets.pure_iff.mpr ?_
  exact Pointers.congr hp' hspace.tree hkept

theorem pushNew_pointers {startVa endVa : Nat} {type : MapType} {perm : MapPermission}
    (hp : ms.Pointers st.mem) (h : ms.Ok tramp st) (he : endVa < 2 ^ 39) :
    Meets (fun _ => True) (ms.pushNew startVa endVa type perm) st fun ms' st' =>
      ms'.Pointers st'.mem := by
  have hceil := virtAddr_ceil_eq endVa
  simp only [pushNew, MapArea.new, Meets.bind_iff]
  refine (VPNRange.new_meets fun _ => trivial).mono ?_
  rintro r _ ⟨rfl, hrs, hre⟩
  refine Meets.pure_iff.mpr ?_
  simp only [VirtAddr.floor, PAGE_SIZE] at hrs
  exact pushArea_pointers hp h rfl (by dsimp only; omega)

/-! ## `from_elf` -/

theorem loadSegments_pointers {elf : Elf} {phs : List ProgramHeader} {maxEndVpn : Nat}
    (hp : ms.Pointers st.mem) (h : ms.UserOk img.trampoline st) :
    Meets (fun _ => True) (loadSegments img elf ms maxEndVpn phs) st fun r st' =>
      r.1.Pointers st'.mem := by
  induction phs generalizing st ms maxEndVpn with
  | nil => exact Meets.pure_iff.mpr hp
  | cons ph phs ih =>
      rw [loadSegments]
      by_cases hload : ph.isLoad = true
      · have hs := virtAddr_lt ph.virtualAddr
        have hceil := virtAddr_ceil_eq (VirtAddr.from ((ph.virtualAddr + ph.memSize) % 2 ^ 64))
        have he := virtAddr_lt ((ph.virtualAddr + ph.memSize) % 2 ^ 64)
        rw [if_pos hload]
        simp only [MapArea.new, Meets.bind_iff]
        refine (VPNRange.new_meets (fun _ => trivial)).mono ?_
        rintro r _ ⟨rfl, hrs, hre⟩
        refine Meets.pure_iff.mpr ?_
        cases slice elf.input ph.offset ((ph.offset + ph.fileSize) % 2 ^ 64) with
        | none => exact Meets.unwrap_none.mpr trivial
        | some data =>
            rw [Meets.unwrap_some]
            have hnew : (MapArea.mk r [] .framed ph.mapPerm).dataFrames = [] := rfl
            simp only [VirtAddr.floor, PAGE_SIZE] at hrs
            have hlo : (MapArea.mk r [] .framed ph.mapPerm).vpnRange.start < 2 ^ 27 := by
              dsimp only
              omega
            have hhi : (MapArea.mk r [] .framed ph.mapPerm).vpnRange.end_ ≤ 2 ^ 27 := by
              dsimp only
              omega
            refine ((pushData_meets (X := fun _ => False) hnew hlo hhi (fun _ => trivial)
              (fun _ => trivial) h.toOk h.framed rfl (Or.inr trivial) trivial).and
              (pushData_pointers hp h hnew hlo hhi rfl)).mono ?_
            rintro ms₁ st₁ ⟨hpush, hp₁⟩
            exact ih hp₁ (Extended.of_pushed h hpush).ok
      · rw [if_neg hload]
        exact ih hp h

theorem pushUserAreas_pointers {maxEndVpn : Nat} (hp : ms.Pointers st.mem)
    (h : ms.UserOk img.trampoline st) :
    Meets (fun _ => True) (ms.pushUserAreas maxEndVpn) st fun r st' => r.1.Pointers st'.mem := by
  have hpush := fun {st : MemState} {ms : MemorySet} {startVa endVa : Nat}
    {perm : MapPermission} (hp : ms.Pointers st.mem) (h : ms.UserOk img.trampoline st)
    (hs : startVa < 2 ^ 39) (he : endVa < 2 ^ 39) =>
      (@pushNew_extends img st ms startVa endVa perm h hs he).and
        (@pushNew_pointers _ _ ms startVa endVa .framed perm hp h.toOk he)
  simp only [pushUserAreas, Meets.bind_iff]
  refine (hpush hp h (virtAddr_lt _) (virtAddr_lt _)).mono ?_
  rintro ms₁ st₁ ⟨⟨h₁, -⟩, hp₁⟩
  refine (hpush hp₁ h₁.ok (virtAddr_lt _) (virtAddr_lt _)).mono ?_
  rintro ms₂ st₂ ⟨⟨h₂, -⟩, hp₂⟩
  refine (hpush hp₂ h₂.ok (virtAddr_lt _) (virtAddr_lt _)).mono ?_
  rintro ms₃ st₃ ⟨-, hp₃⟩
  exact Meets.pure_iff.mpr hp₃

theorem fromElf_pointers {elf : Elf} (hwf : st.alloc.Wf) :
    Meets (fun _ => True) (fromElf img elf) st fun r st' => r.1.Pointers st'.mem := by
  rw [fromElf_eq, Meets.bind_iff]
  refine ((newUser_meets (X := fun _ => False) (Owns.nil hwf) (fun _ => trivial)).and
    (newUser_pointers hwf)).mono ?_
  rintro ms₀ st₀ ⟨⟨hok, hnil, -⟩, hp₀⟩
  have huser := hok.userOk_of_nil hnil
  rw [Meets.bind_iff]
  refine ((loadSegments_meets huser).and (loadSegments_pointers hp₀ huser)).mono ?_
  rintro ⟨ms₁, maxEndVpn⟩ st₁ ⟨h₁, hp₁⟩
  dsimp only at h₁ hp₁ ⊢
  rw [Meets.bind_iff]
  refine (pushUserAreas_pointers hp₁ h₁.ok).mono ?_
  rintro ⟨ms₂, top⟩ st₂ hp₂
  exact Meets.pure_iff.mpr hp₂

/-! ## `from_existed_user` -/

theorem copyArea_pointers {st₀ : MemState} {parent child : MemorySet} {done rest : List MapArea}
    (hpc : child.Pointers st.mem) (hp : parent.Ok tramp st₀)
    (hframed : ∀ a ∈ parent.areas, a.mapType = .framed)
    (hareas : parent.areas = done ++ a :: rest) (hf : Forking tramp st₀ done st child) :
    Meets (fun _ => True) (do
        let newArea ← MapArea.fromAnother a
        let ms ← child.pushArea newArea
        copyPages parent.pageTable ms.pageTable a.vpnRange.pages
        pure ms) st fun child' st' => child'.Pointers st'.mem := by
  have ha : a ∈ parent.areas := by simp [hareas]
  have hale := a.vpnRange.le
  have hend := (hp.space.ok a ha).le
  simp only [TRAMPOLINE_VPN] at hend
  simp only [MapArea.fromAnother, Meets.bind_iff]
  refine (VPNRange.new_meets (fun h => absurd h (by omega))).mono ?_
  rintro r _ ⟨rfl, hrs, hre⟩
  obtain rfl : r = a.vpnRange := VPNRange.ext hrs hre
  refine Meets.pure_iff.mpr ?_
  have hnew : (MapArea.mk a.vpnRange [] a.mapType a.mapPerm).dataFrames = [] := rfl
  refine ((pushArea_meets (X := fun _ => False) (E := fun _ => True) hnew (by dsimp only; omega)
    (by dsimp only; omega) (fun _ => trivial) (fun _ => trivial) hf.ok).and
      (pushArea_pointers hpc hf.ok hnew (by dsimp only; omega))).mono ?_
  rintro child₁ st₁ ⟨⟨hpush, -⟩, hp₁⟩
  obtain ⟨c, hadded, hchild⟩ := hpush.areas
  have hc : c ∈ child₁.areas := by simp [hchild]
  obtain ⟨hkeep, hspace⟩ := parent_kept hp (hf.moves.trans hpush.moves)
  refine (copyPages_area hspace (fun p hmem => (hkeep p hmem).2)
    (fun p hmem => hp.owns.lt_two_pow hmem) hpush.ok ha hc (hframed a ha)
    ⟨hadded.range, hadded.type, hadded.perm⟩).mono ?_
  rintro _ st₂ ⟨-, hother, -⟩
  refine Meets.pure_iff.mpr (Pointers.congr hp₁ hpush.ok.space.tree fun p hmem => ?_)
  exact hother p fun hcm =>
    hpush.ok.owns.not_mem (List.mem_flatMap.mpr ⟨c, hc, hcm⟩) hmem

theorem copyAreas_pointers {st₀ : MemState} {parent child : MemorySet} {done rest : List MapArea}
    (hpc : child.Pointers st.mem) (hp : parent.Ok tramp st₀)
    (hframed : ∀ a ∈ parent.areas, a.mapType = .framed)
    (hareas : parent.areas = done ++ rest) (hf : Forking tramp st₀ done st child) :
    Meets (fun _ => True) (copyAreas parent child rest) st fun child' st' =>
      child'.Pointers st'.mem := by
  induction rest generalizing done st child with
  | nil => exact Meets.pure_iff.mpr hpc
  | cons a rest ih =>
      have hunfold : copyAreas parent child (a :: rest) = (do
          let newArea ← MapArea.fromAnother a
          let ms ← child.pushArea newArea
          copyPages parent.pageTable ms.pageTable a.vpnRange.pages
          pure ms) >>= fun ms => copyAreas parent ms rest := by
        simp only [copyAreas, bind_assoc, pure_bind]
      rw [hunfold, Meets.bind_iff]
      refine ((copyArea_meets (E := fun _ => True) hp hframed hareas hf fun _ => trivial).and
        (copyArea_pointers hpc hp hframed hareas hf)).mono ?_
      rintro child₁ st₁ ⟨⟨hf₁, -⟩, hp₁⟩
      exact ih hp₁ (by simp [hareas]) hf₁

theorem fromExistedUser_pointers (h : ms.Ok img.trampoline st)
    (hframed : ∀ a ∈ ms.areas, a.mapType = .framed) :
    Meets (fun _ => True) (fromExistedUser img ms) st fun child st' => child.Pointers st'.mem := by
  have hunfold : fromExistedUser img ms = (do let ms ← newBare; ms.mapTrampoline img)
      >>= fun child => copyAreas ms child ms.areas := by
    simp only [fromExistedUser, bind_assoc]
  rw [hunfold, Meets.bind_iff]
  refine ((newUser_meets (X := fun _ => False) (Owns.nil h.owns.wf) fun _ => trivial).and
    (newUser_pointers h.owns.wf)).mono ?_
  rintro child st₁ ⟨⟨hok, hnil, hm, -⟩, hp⟩
  have hareas : ms.areas = [] ++ ms.areas := rfl
  refine copyAreas_pointers hp h hframed hareas ⟨hok, hm, ?_⟩
  rw [hnil]
  exact List.Forall₂.nil

/-! ## The kernel -/

theorem pushSections_pointers {secs : List KernelSection} (hp : ms.Pointers st.mem)
    (h : ms.Ok tramp st) :
    Meets (fun _ => True) (ms.pushSections secs) st fun ms' st' => ms'.Pointers st'.mem := by
  induction secs generalizing st ms with
  | nil => exact Meets.pure_iff.mpr hp
  | cons sec secs ih =>
      rw [pushSections, Meets.bind_iff]
      refine ((pushNew_meets (X := fun _ => False) h (virtAddr_lt _) (virtAddr_lt _)
        (fun _ => trivial) (fun _ => trivial) fun _ => trivial).and
          (pushNew_pointers hp h (virtAddr_lt _))).mono ?_
      rintro ms₁ st₁ ⟨⟨r, -, -, hpush⟩, hp₁⟩
      exact ih hp₁ hpush.ok

theorem newKernel_pointers (hwf : st.alloc.Wf) :
    Meets (fun _ => True) (newKernel img) st fun ms st' => ms.Pointers st'.mem := by
  rw [newKernel_eq, Meets.bind_iff]
  refine ((newUser_meets (X := fun _ => False) (Owns.nil hwf) (fun _ => trivial)).and
    (newUser_pointers hwf)).mono ?_
  rintro ms₀ st₀ ⟨⟨hok, -, -, -⟩, hp⟩
  exact pushSections_pointers hp hok

theorem kernelStack_new_pointers {pid : Nat} (hp : ms.Pointers st.mem) (h : ms.Ok tramp st) :
    Meets (fun _ => True) (KernelStack.new ms pid) st fun ms' st' => ms'.Pointers st'.mem :=
  pushNew_pointers hp h (virtAddr_lt _)

/-- The pages of an area are unmapped. -/
theorem unmap_area_pointers (hp : Nimloth.Pointers st.mem pt.rootPpn)
    (h : Space tramp st.mem pt (a :: areas)) (ho : Owns st (pt.frames ++ dataPpns (a :: areas))) :
    Meets (fun _ => True) (a.unmapPages pt a.vpnRange.pages) st fun _ st' =>
      Nimloth.Pointers st'.mem pt.rootPpn := by
  have hok := h.ok a List.mem_cons_self
  rw [dataPpns_cons, ← List.append_assoc] at ho
  have hhas : ∀ v ∈ a.vpnRange.pages, a.Has v := fun v hv => VPNRange.mem_pages.mp hv
  refine MapArea.unmapPages_pointers hp h.tree ho.left ?_ a.vpnRange.nodup_pages hok.nodup_keys
    ?_ ?_
  · intro v hv
    have := hok.lt (hhas v hv)
    simp only [TRAMPOLINE_VPN] at this
    omega
  · intro v hv
    rw [hok.keys]
    split
    · exact hv
    · rfl
  · exact fun v hv => h.mapped List.mem_cons_self (hhas v hv)

theorem removeAreaWithStartVpn_pointers {startVpn : Nat} (hp : ms.Pointers st.mem)
    (h : ms.Ok tramp st) :
    Meets (fun _ => True) (ms.removeAreaWithStartVpn startVpn) st fun ms' st' =>
      ms'.Pointers st'.mem := by
  unfold removeAreaWithStartVpn
  cases ms.areas.findIdx? (·.vpnRange.start = startVpn) with
  | none => exact Meets.pure_iff.mpr hp
  | some idx =>
      dsimp only
      cases hget : ms.areas[idx]? with
      | none => exact Meets.pure_iff.mpr hp
      | some a =>
          have hperm := perm_cons_eraseIdx hget
          simp only [MapArea.unmap, Meets.bind_iff]
          refine ((unmap_area_meets (X := fun _ => False) (E := fun _ => True) (r := a.vpnRange)
            (h.space.perm hperm) (h.owns.perm (frames_perm hperm)) rfl
            (show (VPNRange.mk a.vpnRange.start a.vpnRange.start (Nat.le_refl _)).start = _
              from rfl)
            rfl).and (unmap_area_pointers hp (h.space.perm hperm)
              (h.owns.perm (frames_perm hperm)))).mono ?_
          rintro a' st₁ ⟨⟨hs, hm, -⟩, hp₁⟩
          -- nothing is left in the area
          have hppns : a'.ppns = [] := by
            have hkeys := (hs.ok _ List.mem_cons_self).keys
            have hnil : a'.dataFrames = [] := by
              simpa [MapArea.keys, VPNRange.pages] using hkeys
            simp [MapArea.ppns, hnil]
          rw [hppns]
          simp only [dropFrames, Meets.pure_iff]
          exact hp₁

theorem kernelStack_drop_pointers {pid : Nat} (hp : ms.Pointers st.mem) (h : ms.Ok tramp st) :
    Meets (fun _ => True) (KernelStack.drop ms pid) st fun ms' st' => ms'.Pointers st'.mem := by
  unfold KernelStack.drop
  rw [Meets.bind_iff, Meets.ensure_iff]
  exact ⟨fun _ => removeAreaWithStartVpn_pointers hp h, fun _ => trivial⟩

end MemorySet

end Nimloth
