import Nimloth.ForkSpace
import Nimloth.KernelSpace
import Nimloth.UserSpace

/-!
# Where the frames of a new program lie

While no frame was given back, the allocator counts on: the next frame is
`current`. The first page of the user stack then lies right below the
table that is created when it is mapped (`fromElf_first`), since
`map_one` takes the frame of the page before `find_pte_create` takes
those of the tables.
-/

namespace Nimloth

open Outcome PageTable MemorySet

/-- The index of a page in the root. -/
def rootIndex (vpn : Nat) : Nat := vpn / 2 ^ 18 % 512

theorem isPath_rootIndex (vpn : Nat) : IsPath [rootIndex vpn] := by
  have hpath : IsPath ([rootIndex vpn] ++ [vpn / 2 ^ 9 % 512]) := vpnPath_isPath vpn
  exact hpath.left

section Page

variable {st : MemState} {pt : PageTable} {vpn : Nat}

/-- The first table that is created lies in the next frame. -/
theorem createLoop_first {is js : List Nat} {n j i : Nat} (ht : Tree st.mem pt)
    (ho : Owns st pt.frames) (his : IsPath (is ++ j :: js))
    (hn : node st.mem pt.rootPpn is = some n) (hnew : node st.mem pt.rootPpn (is ++ [j]) = none)
    (hr : st.alloc.recycled = []) :
    Meets (fun _ => True) (createLoop pt n (j :: js ++ [i])) st fun r st' =>
      node st'.mem r.1.rootPpn (is ++ [j]) = some st.alloc.current := by
  have hpath : IsPath ((is ++ [j]) ++ js) := by simpa using his
  have hv : ¬ (st.mem.entry n j).isValid = true := by
    intro hv
    rw [node_snoc, hn, Option.bind_some, if_pos hv] at hnew
    cases hnew
  rw [createLoop_cons, Meets.bind_iff, Meets.get_iff, if_neg hv, Meets.bind_iff]
  rw [Bool.not_eq_true] at hv
  refine (grow_meets (X := fun _ => False) ht ho hpath.left hn hv fun _ => trivial).mono ?_
  rintro f st₁ ⟨hg, -, hnodes, hppn, hf⟩
  have hnode := (hnodes _ hpath.left).trans (if_pos rfl)
  rw [Meets.bind_iff, Meets.get_iff, hppn]
  refine (createLoop_meets (X := fun _ => False) (k := js.length) hg.tree hg.moves.owns hpath
    hnode (fun _ => Nat.le_refl _) fun _ => trivial).mono ?_
  rintro r st₂ ⟨hg₂, -, -, -⟩
  rw [← hf hr]
  exact hg₂.keeps.nodes _ _ hpath.left hnode

/-- When a page is mapped, the new table below the root lies in the next frame. -/
theorem map_first {ppn : Nat} {flags : PTEFlags} (ht : Tree st.mem pt) (ho : Owns st pt.frames)
    (hnew : node st.mem pt.rootPpn [rootIndex vpn] = none) (hr : st.alloc.recycled = []) :
    Meets (fun _ => True) (pt.map vpn ppn flags) st fun pt' st' =>
      node st'.mem pt'.rootPpn [rootIndex vpn] = some st.alloc.current := by
  have hroot : node st.mem pt.rootPpn [] = some pt.rootPpn := rfl
  have hpath : IsPath ([] ++ vpnPath vpn) := vpnPath_isPath vpn
  have hidx := isPath_rootIndex vpn
  have hsplit : vpnPath vpn = rootIndex vpn :: [vpn / 2 ^ 9 % 512] := rfl
  rw [PageTable.map, Meets.bind_iff, findPteCreate, vpnIndexes_eq]
  refine ((createLoop_meets (X := fun _ => False) (k := 2) ht ho hpath hroot
    (fun _ => Nat.le_refl 2) fun _ => trivial).and
    (createLoop_first ht ho hpath hroot hnew hr)).mono ?_
  rintro ⟨pt', n, i⟩ st₁ ⟨⟨hg, -, hn, hi⟩, hfirst⟩
  dsimp only at hg hn hi hfirst ⊢
  subst hi
  simp only [Meets.bind_iff, Meets.get_iff, Meets.ensure_iff, Meets.set_iff, Meets.pure_iff]
  refine ⟨fun _ => ?_, fun _ => trivial⟩
  exact (hg.tree.node_setLeaf hn hidx).trans hfirst

/-- The frame of a page comes first, the table second. -/
theorem mapOne_first {a : MapArea} (ht : Tree st.mem pt) (ho : Owns st (pt.frames ++ a.ppns))
    (hkeys : ∀ k ∈ a.keys, k < vpn) (htype : a.mapType = .framed)
    (hnew : node st.mem pt.rootPpn [rootIndex vpn] = none) (hr : st.alloc.recycled = []) :
    Meets (fun _ => True) (a.mapOne pt vpn) st fun r st' =>
      r.1.pageEntry vpn = some (PageTableEntry.new st.alloc.current (a.mapPerm ||| PTEFlags.V))
        ∧ node st'.mem r.2.rootPpn [rootIndex vpn] = some (st.alloc.current + 1) := by
  have hnokey : vpn ∉ a.keys := fun h => Nat.lt_irrefl _ (hkeys vpn h)
  have hidx := isPath_rootIndex vpn
  unfold MapArea.mapOne
  rw [htype]
  dsimp only
  rw [lookup_eq_none_of_keys hnokey, Meets.bind_iff]
  refine ((frameAlloc_meets (X := fun _ => False) ho fun _ => trivial).and
    (frameAlloc_bump st)).mono ?_
  rintro f st₁ ⟨⟨hm, hfree, hmem, -⟩, hbump⟩
  obtain ⟨hf, hr₁, hnext⟩ := hbump hr
  have hsame : ∀ p ∈ pt.frames, Mem.SameFrame st.mem st₁.mem p := by
    intro p hp
    rw [hmem]
    refine Mem.sameFrame_zeroFrame _ ?_
    rintro rfl
    exact ho.used p (List.mem_append_left _ hp) hfree
  have ho₁ : Owns st₁ pt.frames := by
    have hall : Owns st₁ ([f] ++ (pt.frames ++ a.ppns)) := hm.owns
    exact hall.right.left
  have hinsert : btreeInsert a.dataFrames vpn f = a.dataFrames ++ [(vpn, f)] :=
    btreeInsert_last hkeys
  simp only [Option.toList_none, dropFrames, Meets.bind_iff, Meets.pure_iff, hinsert]
  rw [← ht.node_congr hsame hidx] at hnew
  refine (map_first (ht.congr hsame) ho₁ hnew hr₁).mono ?_
  intro pt' st' hnode
  refine ⟨?_, hnext ▸ hnode⟩
  simp only [MapArea.pageEntry, List.lookup_append, lookup_eq_none_of_keys hnokey,
    List.lookup_cons_self, Option.none_or, Option.map_some, hf]

end Page

section Program

variable {img : KernelImage} {st : MemState} {ms : MemorySet}

/-- While no frame was given back, what has come to be held lies from `current` on. -/
theorem current_le_of_moves {X : Nat → Prop} {st' : MemState} {S : List Nat}
    (hm : Moves X st [] st' S) (hr : st.alloc.recycled = []) {p : Nat} (hp : p ∈ S) :
    st.alloc.current ≤ p ∧ p < st'.alloc.current := by
  constructor
  · rcases hm.was_free hp List.not_mem_nil with hmem | ⟨hge, -⟩
    · rw [hr] at hmem
      exact absurd hmem List.not_mem_nil
    · exact hge
  · by_contra hge
    exact hm.owns.used p hp (Or.inr ⟨Nat.le_of_not_lt hge, hm.owns.lt p hp⟩)

/-- The three tables of the trampoline are all there is. -/
theorem newUser_first (hwf : st.alloc.Wf) (hr : st.alloc.recycled = []) {i : Nat} (hi : i < 511) :
    Meets (fun _ => True) (do let ms ← newBare; ms.mapTrampoline img) st fun ms st' =>
      node st'.mem ms.pageTable.rootPpn [i] = none := by
  refine ((newUser_meets (X := fun _ => False) (Owns.nil hwf) fun _ => trivial).and
    (newUser_bump hwf)).mono ?_
  rintro ms st' ⟨⟨hok, hnil, hm, hav⟩, hbump⟩
  have hr' := hbump hr
  have htree := hok.space.tree
  have htramp := hok.space.trampoline
  have hpath : vpnPath TRAMPOLINE_VPN = [511] ++ [511] := by decide
  rw [lookup_eq, hpath] at htramp
  obtain ⟨l, hl, -⟩ := Option.bind_eq_some_iff.mp htramp
  have hk := hl
  rw [node_snoc] at hk
  obtain ⟨k, hk, -⟩ := Option.bind_eq_some_iff.mp hk
  by_contra hne
  obtain ⟨n, hn⟩ := Option.ne_none_iff_exists'.mp hne
  -- four tables, in three frames
  have hroot : node st'.mem ms.pageTable.rootPpn [] = some ms.pageTable.rootPpn := rfl
  have h₀ := isPath_nil
  have h₂ : IsPath ([511] ++ [511]) := ⟨by decide, by simp⟩
  have h₁ : IsPath [511] := h₂.left
  have h₃ : IsPath [i] := ⟨by simp, by simpa using Nat.lt_succ_of_lt hi⟩
  have hmem : ∀ is p, IsPath is → node st'.mem ms.pageTable.rootPpn is = some p →
      st.alloc.current ≤ p ∧ p < st'.alloc.current := by
    intro is p his hp
    refine current_le_of_moves hm hr ?_
    exact List.mem_append_left _ (htree.mem is p his hp)
  have hdiff : ∀ is js p q, IsPath is → IsPath js → node st'.mem ms.pageTable.rootPpn is = some p →
      node st'.mem ms.pageTable.rootPpn js = some q → is ≠ js → p ≠ q := by
    rintro is js p _ his hjs hp hq hne rfl
    exact hne (htree.inj is js p his hjs hp hq)
  have b₀ := hmem _ _ h₀ hroot
  have b₁ := hmem _ _ h₁ hk
  have b₂ := hmem _ _ h₂ hl
  have b₃ := hmem _ _ h₃ hn
  have d₀₁ := hdiff _ _ _ _ h₀ h₁ hroot hk (by simp)
  have d₀₂ := hdiff _ _ _ _ h₀ h₂ hroot hl (by simp)
  have d₀₃ := hdiff _ _ _ _ h₀ h₃ hroot hn (by simp)
  have d₁₂ := hdiff _ _ _ _ h₁ h₂ hk hl (by simp)
  have d₁₃ := hdiff _ _ _ _ h₁ h₃ hk hn (by simp; omega)
  have d₂₃ := hdiff _ _ _ _ h₂ h₃ hl hn (by simp)
  have hend := hm.end_eq
  have hle := hwf.le
  have hle' := hm.owns.wf.le
  simp only [StackFrameAllocator.available, hr, hr', List.length_nil] at hav
  omega

/-- The first page of a new area. -/
theorem pushNew_first {tramp startVa endVa : Nat} {perm : MapPermission} (h : ms.Ok tramp st)
    (hs : startVa < 2 ^ 39) (he : endVa < 2 ^ 39)
    (hlt : VirtAddr.floor startVa < VirtAddr.ceil endVa)
    (hnew : node st.mem ms.pageTable.rootPpn [rootIndex (VirtAddr.floor startVa)] = none)
    (hr : st.alloc.recycled = []) :
    Meets (fun _ => True) (ms.pushNew startVa endVa .framed perm) st fun ms' st' =>
      (∃ a, ms'.areas = ms.areas ++ [a] ∧ a.Has (VirtAddr.floor startVa)
        ∧ a.pageEntry (VirtAddr.floor startVa)
          = some (PageTableEntry.new st.alloc.current (perm ||| PTEFlags.V)))
      ∧ node st'.mem ms'.pageTable.rootPpn [rootIndex (VirtAddr.floor startVa)]
          = some (st.alloc.current + 1) := by
  have hceil := virtAddr_ceil_eq endVa
  have hfloor : VirtAddr.floor startVa < 2 ^ 27 := by
    simp only [VirtAddr.floor, PAGE_SIZE]
    omega
  have hidx := isPath_rootIndex (VirtAddr.floor startVa)
  simp only [pushNew, MapArea.new, Meets.bind_iff]
  refine (VPNRange.new_meets fun _ => trivial).mono ?_
  rintro r st₀ ⟨hst₀, hrs, hre⟩
  rw [← hrs] at hlt hnew hfloor hidx
  rw [← hrs, hst₀]
  -- the pages: the first one, and the others
  have hpages : r.pages = r.start :: List.range' (r.start + 1) (r.end_ - r.start - 1) := by
    have hlen : r.end_ - r.start = (r.end_ - r.start - 1) + 1 := by omega
    rw [VPNRange.pages, hlen, List.range'_succ]
    rfl
  have hnot : r.start ∉ List.range' (r.start + 1) (r.end_ - r.start - 1) := by
    rw [List.mem_range'_1]
    omega
  have ho : Owns st (ms.pageTable.frames ++ (MapArea.mk r [] .framed perm).ppns) := by
    have hnil : (MapArea.mk r [] .framed perm).ppns = [] := rfl
    rw [hnil, List.append_nil]
    exact h.owns.left
  have hkeys : ∀ k ∈ (MapArea.mk r [] .framed perm).keys, k < r.start :=
    fun k hk => absurd hk List.not_mem_nil
  rw [Meets.pure_iff, pushArea, Meets.bind_iff, MapArea.map, hpages, MapArea.mapPages, Meets.bind_iff]
  refine ((MapArea.mapOne_meets (X := fun _ => False) h.space.tree ho hfloor hkeys
    (fun _ => trivial) fun _ => trivial).and
      (mapOne_first h.space.tree ho hkeys rfl hnew hr)).mono ?_
  rintro ⟨a₁, pt₁⟩ st₁ ⟨hm₁, hentry, hnode⟩
  dsimp only at hm₁ hentry hnode ⊢
  refine (MapArea.mapPages_meets (X := fun _ => False) hm₁.tree hm₁.moves.owns ?_
    List.pairwise_lt_range' ?_ (fun _ => trivial) fun _ => trivial).mono ?_
  · intro v hv
    rw [List.mem_range'_1] at hv
    omega
  · intro k hk v hv
    rw [hm₁.keys] at hk
    rw [List.mem_range'_1] at hv
    simp only [MapArea.keys, List.map_nil, if_pos, List.nil_append, List.mem_singleton] at hk
    omega
  rintro ⟨a₂, pt₂⟩ st₂ hm₂
  simp only [Meets.pure_iff]
  have hrange : a₂.vpnRange = r := hm₂.range.trans hm₁.range
  refine ⟨⟨a₂, rfl, ?_, (hm₂.entry _ hnot).trans hentry⟩, hm₂.keeps.nodes _ _ hidx hnode⟩
  rw [MapArea.Has, hrange]
  exact ⟨Nat.le_refl _, by omega⟩

/-- The frame of the first stack page of a program without segments, and the table above it. -/
theorem fromElf_first {elf : Elf} (hwf : st.alloc.Wf) (helf : elf.programHeaders = [])
    (hr : st.alloc.recycled = []) :
    Meets (fun _ => True) (fromElf img elf) st fun r st' =>
      pageCount r.1.areas = 3 ∧ ∃ f, (∃ a ∈ r.1.areas, a.Has 1 ∧ a.pageEntry 1
          = some (PageTableEntry.new f (PTEFlags.R ||| PTEFlags.W ||| PTEFlags.U ||| PTEFlags.V)))
        ∧ node st'.mem r.1.pageTable.rootPpn [0] = some (f + 1) := by
  rw [fromElf_nil img helf, Meets.bind_iff]
  refine (((newUser_meets (X := fun _ => False) (Owns.nil hwf) fun _ => trivial).and
    (newUser_bump hwf)).and (newUser_first hwf hr (by decide : 0 < 511))).mono ?_
  rintro ms₀ st₀ ⟨⟨⟨hok, hnil, hm₀, -⟩, hbump⟩, hnone⟩
  obtain ⟨hbottom, htop, htop'⟩ := stack_pages_of_nil
  have htrap : VirtAddr.floor (VirtAddr.from TRAP_CONTEXT) = 2 ^ 27 - 2 := floor_trapContext
  have htramp : VirtAddr.ceil (VirtAddr.from TRAMPOLINE) = 2 ^ 27 - 1 := ceil_trampoline
  have hidx : rootIndex 1 = 0 := by decide
  simp only [pushUserAreas, Meets.bind_iff]
  refine ((pushNew_meets (X := fun _ => False) hok (virtAddr_lt _) (virtAddr_lt _)
    (fun _ => trivial) (fun _ => trivial) fun _ => trivial).and
      (pushNew_first hok (virtAddr_lt _) (virtAddr_lt _) (by omega) ?_ (hbump hr))).mono ?_
  · rw [hbottom, hidx]
    exact hnone
  rintro ms₁ st₁ ⟨⟨r₁, hs₁, he₁, hpush₁⟩, ⟨a₁, hareas₁, hhas, hentry⟩, hnode⟩
  rw [hbottom] at hs₁ hhas hentry hnode
  rw [hidx] at hnode
  refine (pushNew_meets (X := fun _ => False) hpush₁.ok (virtAddr_lt _) (virtAddr_lt _)
    (fun _ => trivial) (fun _ => trivial) fun _ => trivial).mono ?_
  rintro ms₂ st₂ ⟨r₂, hs₂, he₂, hpush₂⟩
  refine (pushNew_meets (X := fun _ => False) hpush₂.ok (virtAddr_lt _) (virtAddr_lt _)
    (fun _ => trivial) (fun _ => trivial) fun _ => trivial).mono ?_
  rintro ms₃ st₃ ⟨r₃, hs₃, he₃, hpush₃⟩
  refine Meets.pure_iff.mpr (Meets.pure_iff.mpr ?_)
  obtain ⟨b₁, hadded₁, hb₁⟩ := hpush₁.areas
  obtain ⟨b₂, hadded₂, hb₂⟩ := hpush₂.areas
  obtain ⟨b₃, hadded₃, hb₃⟩ := hpush₃.areas
  have hkept : IsPath [0] := ⟨by simp, by simp⟩
  refine ⟨?_, st₀.alloc.current, ⟨a₁, ?_, hhas, hentry⟩,
    hpush₃.keeps.nodes _ _ hkept (hpush₂.keeps.nodes _ _ hkept hnode)⟩
  · rw [hb₃, hb₂, hb₁, hnil]
    simp only [pageCount, List.nil_append, List.cons_append, List.map_cons, List.map_nil,
      List.sum_cons, List.sum_nil, VPNRange.length_pages, hadded₁.range, hadded₂.range,
      hadded₃.range]
    omega
  · rw [hb₃, hb₂, hareas₁]
    simp

end Program

end Nimloth
