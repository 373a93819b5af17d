import Nimloth.PageTableRuns
import Nimloth.UserPages

/-!
# Pages that are not mapped

`find_pte` returns the leaf entry of a page as soon as its table exists,
and `translate` and `translate_va` do not ask whether the entry is valid.
A page that is not mapped is found all the same, at frame 0, when some
page of the same 2 MiB was mapped before, for tables are never given
back.
-/

namespace Nimloth

open Outcome PageTable

/-! ## Tables -/

section Tables

variable {st : MemState} {pt : PageTable}

/-- New tables lie on the path. -/
theorem createLoop_new {js : List Nat} {i : Nat} {st : MemState} {pt : PageTable}
    {is : List Nat} {n : Nat} (ht : Tree st.mem pt) (ho : Owns st pt.frames)
    (his : IsPath (is ++ js)) (hn : node st.mem pt.rootPpn is = some n) :
    Meets (fun _ => True) (createLoop pt n (js ++ [i])) st fun r st' =>
      ∀ ks, IsPath ks → node st'.mem r.1.rootPpn ks ≠ none →
        node st.mem pt.rootPpn ks ≠ none ∨ ks <+: is ++ js := by
  induction js generalizing st pt is n with
  | nil => exact Meets.pure_iff.mpr fun ks _ hne => Or.inl hne
  | cons j js ih =>
      have hsplit : is ++ j :: js = (is ++ [j]) ++ js := by simp
      have hpath : IsPath ((is ++ [j]) ++ js) := hsplit ▸ his
      rw [createLoop_cons, Meets.bind_iff, Meets.get_iff, hsplit]
      by_cases hv : (st.mem.entry n j).isValid = true
      · rw [if_pos hv]
        refine ih ht ho hpath ?_
        rw [node_snoc, hn, Option.bind_some, if_pos hv]
      · rw [if_neg hv, Meets.bind_iff]
        rw [Bool.not_eq_true] at hv
        refine (grow_meets (X := fun _ => False) ht ho hpath.left hn hv fun _ => trivial).mono ?_
        rintro f st₁ ⟨hg, -, hnodes, hppn, -⟩
        rw [Meets.bind_iff, Meets.get_iff, hppn]
        have hnode := (hnodes _ hpath.left).trans (if_pos rfl)
        refine (ih hg.tree hg.moves.owns hpath hnode).mono ?_
        intro r st₂ hnew ks hks hne
        rcases hnew ks hks hne with hne | hpre
        · rw [hnodes ks hks] at hne
          by_cases heq : ks = is ++ [j]
          · exact Or.inr (heq ▸ List.prefix_append _ _)
          · rw [if_neg heq] at hne
            exact Or.inl hne
        · exact Or.inr hpre

theorem translate_eq_none {m : Mem} {v : Nat} :
    pt.translate m v = none ↔ node m pt.rootPpn (vpnPath v) = none := by
  rw [translate_eq, Option.map_eq_none_iff]

/-- `map` creates the leaf table of the page, and no other. -/
theorem map_translate {vpn ppn : Nat} {flags : PTEFlags} (ht : Tree st.mem pt)
    (ho : Owns st pt.frames) :
    Meets (fun _ => True) (pt.map vpn ppn flags) st fun pt' st' => ∀ v,
      pt'.translate st'.mem v = none
        ↔ pt.translate st.mem v = none ∧ vpnPath vpn ≠ vpnPath v := by
  have hroot : node st.mem pt.rootPpn [] = some pt.rootPpn := rfl
  have hpath : IsPath ([] ++ vpnPath vpn) := vpnPath_isPath vpn
  rw [PageTable.map, Meets.bind_iff, findPteCreate, vpnIndexes_eq]
  refine ((createLoop_meets (X := fun _ => False) (k := 2) ht ho hpath hroot
    (fun _ => Nat.le_refl 2) fun _ => trivial).and (createLoop_new ht ho hpath hroot)).mono ?_
  rintro ⟨pt', n, i⟩ st₁ ⟨⟨hg, -, hn, hi⟩, hnew⟩
  dsimp only at hg hn hi hnew ⊢
  subst hi
  simp only [Meets.bind_iff, Meets.get_iff, Meets.ensure_iff, Meets.set_iff, Meets.pure_iff]
  refine ⟨fun _ v => ?_, fun _ => trivial⟩
  rw [List.nil_append] at hn
  rw [translate_eq_none, translate_eq_none, hg.tree.node_setLeaf hn (vpnPath_isPath v)]
  constructor
  · intro hnone
    refine ⟨?_, fun heq => ?_⟩
    · by_contra hne
      obtain ⟨k, hk⟩ := Option.ne_none_iff_exists'.mp hne
      rw [hg.keeps.nodes _ k (vpnPath_isPath v) hk] at hnone
      cases hnone
    · rw [← heq, hn] at hnone
      cases hnone
  · rintro ⟨hnone, hne⟩
    by_contra hsome
    rcases hnew _ (vpnPath_isPath v) hsome with hold | hpre
    · exact hold hnone
    · rw [List.nil_append] at hpre
      exact hne (hpre.eq_of_length rfl).symm

/-- `unmap` keeps the tables. -/
theorem unmap_translate {vpn : Nat} (ht : Tree st.mem pt) :
    Meets (fun _ => True) (pt.unmap vpn) st fun _ st' => ∀ v,
      pt.translate st'.mem v = none ↔ pt.translate st.mem v = none := by
  simp only [PageTable.unmap, Meets.bind_iff, Meets.get_iff]
  rw [findPte_eq]
  cases hn : node st.mem pt.rootPpn (vpnPath vpn) with
  | none => exact Meets.unwrap_none.mpr trivial
  | some n =>
      simp only [Option.map_some, Meets.unwrap_some, Meets.ensure_iff, Meets.set_iff]
      refine ⟨fun _ v => ?_, fun _ => trivial⟩
      rw [translate_eq_none, translate_eq_none, ht.node_setLeaf hn (vpnPath_isPath v)]

end Tables

/-! ## Runs -/

/-- A page of the same 2 MiB was mapped. -/
def Neighbour (tr : List PageEvent) (v : Nat) : Prop :=
  ∃ u ppn flags, PageEvent.map u ppn flags ∈ tr ∧ u / 512 = v / 512

/-- The page does not translate, and what the kernel does with a user address stops there. -/
structure PageState.Stops (s : PageState) (v : Nat) : Prop where
  translate : s.pt.translate s.st.mem v = none
  translateVa : ∀ va, pageOf va = v → s.pt.translateVa s.st.mem (VirtAddr.from va) = none
  ref : ∀ ptr, pageOf ptr = v → translatedRef s.st.mem s.pt.token ptr = none
  refmut : ∀ ptr, pageOf ptr = v → translatedRefmut s.st.mem s.pt.token ptr = none
  str : ∀ ptr fuel, pageOf ptr = v → strLoop s.st.mem s.pt.token fuel ptr = ([], none)
  byteBuffer : ∀ ptr len fuel, pageOf ptr = v → ptr < (ptr + len) % 2 ^ 64 →
    translatedByteBuffer fuel s.st.mem s.pt.token ptr len = none

namespace PageState

variable {s s' : PageState} {v : Nat}

/-- All of it hangs on `translate`. -/
theorem stops_iff (hroot : s.pt.rootPpn < 2 ^ 44) :
    s.Stops v ↔ s.pt.translate s.st.mem v = none := by
  refine ⟨Stops.translate, fun hnone => ?_⟩
  have hptr : ∀ ptr, pageOf ptr = v → translatedPtr s.st.mem s.pt.token ptr = none := by
    intro ptr hpage
    rw [translatedPtr_eq hroot, hpage, hnone]
  refine ⟨hnone, fun va hpage => ?_, hptr, hptr, fun ptr fuel hpage => ?_,
    fun ptr len fuel hpage hlt => ?_⟩
  · have hva : VirtAddr.from va / 4096 = v := hpage
    rw [translateVa_eq, hva, hnone]
    rfl
  · cases fuel with
    | zero => rfl
    | succ fuel => rw [strLoop, hptr ptr hpage]
  · rw [translatedByteBuffer, bufferLoop_fromToken hroot]
    cases fuel with
    | zero => rfl
    | succ fuel =>
        rw [bufferLoop, if_pos hlt, hpage, hnone]
        rfl

/-- Two pages have one leaf table if and only if they are in the same 2 MiB. -/
theorem vpnPath_eq_iff {u v : Nat} (hu : u < 2 ^ 27) (hv : v < 2 ^ 27) :
    vpnPath u = vpnPath v ↔ u / 512 = v / 512 := by
  simp only [vpnPath, List.cons.injEq, and_true]
  omega

/-- Leaf tables are those of the pages that were mapped at some time. -/
def TablesOf (tr : List PageEvent) (s : PageState) : Prop :=
  Tree s.st.mem s.pt ∧ Owns s.st s.pt.frames
    ∧ ∀ v, v < 2 ^ 27 → (s.pt.translate s.st.mem v = none ↔ ¬ Neighbour tr v)

theorem tablesOf_step {tr : List PageEvent} {e : PageEvent} (h : TablesOf tr s)
    (hs : s.Step e s') : TablesOf (tr ++ [e]) s' := by
  obtain ⟨ht, ho, htables⟩ := h
  have hquiet : (∀ u ppn flags, e ≠ .map u ppn flags) → ∀ v,
      Neighbour (tr ++ [e]) v ↔ Neighbour tr v := by
    intro hne v
    constructor
    · rintro ⟨u, ppn, flags, hmem, hu⟩
      rcases List.mem_append.mp hmem with hmem | hmem
      · exact ⟨u, ppn, flags, hmem, hu⟩
      · exact absurd (List.mem_singleton.mp hmem).symm (hne u ppn flags)
    · rintro ⟨u, ppn, flags, hmem, hu⟩
      exact ⟨u, ppn, flags, List.mem_append_left _ hmem, hu⟩
  cases e with
  | map vpn ppn flags =>
      obtain ⟨hvpn, hppn, hrun⟩ := hs
      obtain ⟨hg, -, -⟩ := (PageTable.map_meets (X := fun _ => False) (E := fun _ => True)
        ht ho hvpn hppn (fun _ => Nat.le_refl 2) (fun _ => trivial) fun _ => trivial).ok hrun
      have htrans := (map_translate ht ho).ok hrun
      refine ⟨hg.tree, hg.moves.owns, fun v hv => ?_⟩
      rw [htrans v, htables v hv, ne_eq, vpnPath_eq_iff hvpn hv]
      constructor
      · rintro ⟨hold, hne⟩ ⟨u, ppn', flags', hmem, hu⟩
        rcases List.mem_append.mp hmem with hmem | hmem
        · exact hold ⟨u, ppn', flags', hmem, hu⟩
        · cases List.mem_singleton.mp hmem
          exact hne hu
      · intro hno
        refine ⟨fun ⟨u, ppn', flags', hmem, hu⟩ => ?_, fun hu => ?_⟩
        · exact hno ⟨u, ppn', flags', List.mem_append_left _ hmem, hu⟩
        · exact hno ⟨vpn, ppn, flags, List.mem_append_right _ (List.mem_singleton.mpr rfl), hu⟩
  | unmap vpn =>
      obtain ⟨hvpn, hrun, hpt⟩ := hs
      have hlook : s.pt.lookup s.st.mem vpn ≠ none := lookup_ne_none_of_unmap hrun
      obtain ⟨e, he⟩ := Option.ne_none_iff_exists'.mp hlook
      obtain ⟨htree, hm, -, -⟩ := (PageTable.unmap_meets (X := fun _ => False)
        (E := fun _ => True) ht ho hvpn he).ok hrun
      have htrans := (unmap_translate ht).ok hrun
      rw [TablesOf, hpt]
      refine ⟨htree, hm.owns, fun v hv => ?_⟩
      rw [htrans v, htables v hv, hquiet (fun _ _ _ h => by cases h) v]
  | other st =>
      obtain ⟨hsame, howns, rfl⟩ := hs
      refine ⟨ht.congr hsame, howns, fun v hv => ?_⟩
      dsimp only
      rw [ht.translate_congr hsame, htables v hv, hquiet (fun _ _ _ h => by cases h) v]

theorem tablesOf_new {st : MemState} (hwf : st.alloc.Wf)
    (hnew : PageTable.new st = .ok (s.pt, s.st)) : TablesOf [] s := by
  obtain ⟨ht, hm, hnone, -⟩ := (new_meets (X := fun _ => False) (E := fun _ => True)
    (Owns.nil hwf) fun _ => trivial).ok hnew
  refine ⟨ht, hm.owns, fun v _ => ⟨fun _ => ?_, fun _ => hnone v⟩⟩
  rintro ⟨u, ppn, flags, hmem, -⟩
  cases hmem

theorem tablesOf_of_run {s₀ : PageState} {tr : List PageEvent} (hinit : TablesOf [] s₀)
    (hrun : Runs PageState.Step s₀ tr s) : TablesOf tr s := by
  induction hrun with
  | nil => exact hinit
  | snoc _ hs ih => exact tablesOf_step ih hs

end PageState

/-- A page that is not mapped stops the kernel if and only if no page of its 2 MiB was mapped. -/
theorem unmapped_pages_stop {st : MemState} {s₀ s : PageState} {tr : List PageEvent}
    (hwf : st.alloc.Wf) (hnew : PageTable.new st = .ok (s₀.pt, s₀.st))
    (hrun : Runs PageState.Step s₀ tr s) :
    ∃ M : PageMap, Runs PageMap.Step (fun _ => none) tr M
      ∧ ∀ v, v < 2 ^ 27 → M v = none → (s.Stops v ↔ ¬ Neighbour tr v) := by
  have hsim : ∀ a e b M, Represents a M → a.Step e b →
      ∃ M', Represents b M' ∧ PageMap.Step M e M' := fun _ _ _ _ h hs => h.step hs
  obtain ⟨M, h, hM⟩ := hrun.simulation hsim (Represents.new hwf hnew)
  have htables : s.TablesOf tr := PageState.tablesOf_of_run (PageState.tablesOf_new hwf hnew) hrun
  have hroot : s.pt.rootPpn < 2 ^ 44 :=
    h.owns.lt_two_pow (h.tree.mem [] _ isPath_nil rfl)
  refine ⟨M, hM, fun v hv _ => ?_⟩
  rw [PageState.stops_iff hroot, htables.2.2 v hv]

/-- A fresh page table with page 5 mapped, and frames to map two more. -/
theorem exists_one_page : ∃ s₀ s : PageState,
    PageTable.new ⟨fun _ => 0, .init 1 10⟩ = .ok (s₀.pt, s₀.st)
      ∧ Runs PageState.Step s₀ [.map 5 100 PTEFlags.R] s
      ∧ Represents s (Function.update (fun _ : Nat => none) 5 (some (100, PTEFlags.R)))
      ∧ 6 ≤ s.st.alloc.available := by
  have hwf : (StackFrameAllocator.init 1 10).Wf :=
    StackFrameAllocator.wf_init (by decide) (by decide) (by decide)
  have howns : Owns ⟨fun _ => 0, .init 1 10⟩ [] := Owns.nil hwf
  obtain ⟨pt₀, st₀, hnew, -, -, -, hav⟩ := Meets.exists_ok
    (new_meets (X := fun _ => False) howns fun hlt => absurd hlt (by decide))
  have htotal : (StackFrameAllocator.init 1 10).available = 9 := by decide
  have hrep : Represents ⟨st₀, pt₀⟩ fun _ => none := Represents.new hwf hnew
  dsimp only at hav
  obtain ⟨s, hstep, h, hav'⟩ := hrep.exists_map (show 5 < 2 ^ 27 by decide)
    (show 100 < 2 ^ 44 by decide) rfl (by dsimp only; omega) PTEFlags.R
  dsimp only at hav'
  exact ⟨⟨st₀, pt₀⟩, s, hnew, Runs.single hstep, h, by omega⟩

/-- Page 6 is not mapped, and a write to it goes to physical page 0. -/
theorem page_of_mapped_table_translates : ∃ s₀ s : PageState, ∃ tr, ∃ M : PageMap,
    PageTable.new ⟨fun _ => 0, .init 1 10⟩ = .ok (s₀.pt, s₀.st)
      ∧ Runs PageState.Step s₀ tr s ∧ Runs PageMap.Step (fun _ => none) tr M ∧ M 6 = none
      ∧ ¬ s.Stops 6 ∧ s.pt.translateVa s.st.mem 0x6008 = some 8
      ∧ translatedRefmut s.st.mem s.pt.token 0x6008 = some 8 := by
  obtain ⟨s₀, s, hnew, hrun, h, -⟩ := exists_one_page
  have hwf : (StackFrameAllocator.init 1 10).Wf :=
    StackFrameAllocator.wf_init (by decide) (by decide) (by decide)
  obtain ⟨ht, ho, htables⟩ := PageState.tablesOf_of_run (PageState.tablesOf_new hwf hnew) hrun
  have hroot : s.pt.rootPpn < 2 ^ 44 := ho.lt_two_pow (ht.mem [] _ isPath_nil rfl)
  have hsome : s.pt.translate s.st.mem 6 ≠ none := by
    rw [ne_eq, htables 6 (by decide), not_not]
    exact ⟨5, 100, PTEFlags.R, List.mem_singleton.mpr rfl, rfl⟩
  have hlook : s.pt.lookup s.st.mem 6 = none := (h.lookup_eq_none (by decide)).mpr rfl
  obtain ⟨e, he⟩ := Option.ne_none_iff_exists'.mp hsome
  have hempty : e = PageTableEntry.empty := by
    rcases ht.translate_cases he with hlook' | hempty
    · rw [hlook] at hlook'
      cases hlook'
    · exact hempty
  have hva : s.pt.translateVa s.st.mem 0x6008 = some 8 := by
    rw [translateVa_eq, he, hempty]
    decide
  have hpage : pageOf 0x6008 = 6 := by decide
  refine ⟨s₀, s, _, _, hnew, hrun, Runs.single ⟨rfl, rfl⟩, rfl, ?_, hva, ?_⟩
  · exact fun hstops => hsome hstops.translate
  · rw [translatedRefmut, translatedPtr_eq hroot, hpage, he, hempty]
    decide

/-- After page 5 alone was mapped, page 6 does not stop the kernel, and page 512 does. -/
theorem unmapped_pages_stop_after_one : ∃ s₀ s : PageState,
    Runs PageState.Step s₀ [.map 5 100 PTEFlags.R] s ∧ ¬ s.Stops 6 ∧ s.Stops 512 := by
  obtain ⟨s₀, s, hnew, hrun, -⟩ := exists_one_page
  have hwf : (StackFrameAllocator.init 1 10).Wf :=
    StackFrameAllocator.wf_init (by decide) (by decide) (by decide)
  obtain ⟨M, hM, hstops⟩ := unmapped_pages_stop hwf hnew hrun
  have hupdate : M = Function.update (fun _ : Nat => none) 5 (some (100, PTEFlags.R)) :=
    hM.single_inv.2
  refine ⟨s₀, s, hrun, ?_, ?_⟩
  · rw [hstops 6 (by decide) (by rw [hupdate]; rfl), not_not]
    exact ⟨5, 100, PTEFlags.R, List.mem_singleton.mpr rfl, rfl⟩
  · refine (hstops 512 (by decide) (by rw [hupdate]; rfl)).mpr ?_
    rintro ⟨u, ppn, flags, hmem, hu⟩
    cases List.mem_singleton.mp hmem
    exact absurd hu (by decide)

end Nimloth
