import Mathlib.Data.List.Induction
import Mathlib.Tactic.Common
import Nimloth.FrameAllocator
import Nimloth.PageTable

/-!
# Mapping and unmapping pages

`find_pte_create`, `map` and `unmap` of `os/src/mm/page_table.rs`.

`Tree m pt` says that different paths reach different frames, that all of
them are frames the page table holds, and that an entry of a node that is
not valid is empty. A page table is used through `lookup`, the valid leaf
entry of a page: `map` and `unmap` change it at one page, and what
`find_pte_create` adds does not change it at all.
-/

namespace Nimloth

open Outcome

namespace PageTable

/-! ## The code -/

def new : MemM PageTable := do
  let frame ← frameAlloc
  pure ⟨frame, [frame]⟩

/-- The loop of `find_pte_create`: where the leaf entry is. -/
def createLoop : PageTable → Nat → List Nat → MemM (PageTable × Nat × Nat)
  | _, _, [] => stop .noTable
  | pt, ppn, [idx] => pure (pt, ppn, idx)
  | pt, ppn, idx :: i :: rest => do
      let st ← get
      if (st.mem.entry ppn idx).isValid then
        createLoop pt (st.mem.entry ppn idx).ppn (i :: rest)
      else
        let frame ← frameAlloc
        modify fun st =>
          { st with mem := st.mem.setPte ppn idx (PageTableEntry.new frame PTEFlags.V).bits }
        let st ← get
        createLoop { pt with frames := pt.frames ++ [frame] } (st.mem.entry ppn idx).ppn (i :: rest)

def findPteCreate (pt : PageTable) (vpn : Nat) : MemM (PageTable × Nat × Nat) :=
  createLoop pt pt.rootPpn (vpnIndexes vpn)

def map (pt : PageTable) (vpn ppn : Nat) (flags : PTEFlags) : MemM PageTable := do
  let (pt, n, i) ← pt.findPteCreate vpn
  let st ← get
  ensure .mapped (¬ (st.mem.entry n i).isValid)
  set { st with mem := st.mem.setPte n i (PageTableEntry.new ppn (flags ||| PTEFlags.V)).bits }
  pure pt

def unmap (pt : PageTable) (vpn : Nat) : MemM Unit := do
  let st ← get
  let (n, i) ← unwrap .noTable (pt.findPte st.mem vpn)
  ensure .notMapped (st.mem.entry n i).isValid
  set { st with mem := st.mem.setPte n i PageTableEntry.empty.bits }

/-! ## The tree -/

/-- The valid leaf entry of a page. -/
def lookup (m : Mem) (pt : PageTable) (vpn : Nat) : Option PageTableEntry :=
  (pt.translate m vpn).filter PageTableEntry.isValid

/-- The nodes of the page table, each reached on one path. -/
structure Tree (m : Mem) (pt : PageTable) : Prop where
  mem : ∀ is n, IsPath is → node m pt.rootPpn is = some n → n ∈ pt.frames
  inj : ∀ is js n, IsPath is → IsPath js → node m pt.rootPpn is = some n →
    node m pt.rootPpn js = some n → is = js
  blank : ∀ is n i, IsPath is → node m pt.rootPpn is = some n → i < 512 →
    (m.entry n i).isValid = false → m.entry n i = PageTableEntry.empty

end PageTable

open PageTable

theorem IsPath.left {is js : List Nat} (h : IsPath (is ++ js)) : IsPath is := by
  obtain ⟨hlen, hlt⟩ := h
  rw [List.length_append] at hlen
  exact ⟨by omega, fun i hi => hlt i (List.mem_append_left _ hi)⟩

theorem IsPath.last {is : List Nat} {j : Nat} (h : IsPath (is ++ [j])) : j < 512 :=
  h.2 j (by simp)

theorem isPath_nil : IsPath [] := ⟨by simp, fun _ h => absurd h List.not_mem_nil⟩

theorem lookup_eq (m : Mem) (pt : PageTable) (v : Nat) :
    pt.lookup m v = (node m pt.rootPpn (vpnPath v)).bind fun n =>
      if (m.entry n (v % 512)).isValid then some (m.entry n (v % 512)) else none := by
  unfold lookup
  rw [translate_eq]
  cases node m pt.rootPpn (vpnPath v) with
  | none => rfl
  | some n => simp [Option.filter]

theorem lookup_isValid {m : Mem} {pt : PageTable} {v : Nat} {e : PageTableEntry}
    (h : pt.lookup m v = some e) : e.isValid = true := by
  unfold lookup at h
  rw [Option.filter_eq_some_iff] at h
  exact h.2

theorem translate_of_lookup {m : Mem} {pt : PageTable} {v : Nat} {e : PageTableEntry}
    (h : pt.lookup m v = some e) : pt.translate m v = some e := by
  unfold lookup at h
  rw [Option.filter_eq_some_iff] at h
  exact h.1

theorem lookup_of_translate_eq_none {m : Mem} {pt : PageTable} {v : Nat}
    (h : pt.translate m v = none) : pt.lookup m v = none := by
  unfold lookup
  rw [h]
  rfl

/-- The page number is taken modulo the size of the address space. -/
theorem translate_mod (m : Mem) (pt : PageTable) (v : Nat) :
    pt.translate m (v % 2 ^ 27) = pt.translate m v := by
  have hpath : vpnPath (v % 2 ^ 27) = vpnPath v := by
    simp only [vpnPath, List.cons.injEq, and_true]
    omega
  have hidx : v % 2 ^ 27 % 512 = v % 512 := by omega
  rw [translate_eq, translate_eq, hpath, hidx]

namespace PageTable.Tree

variable {m m' : Mem} {pt : PageTable}

/-- A leaf entry that is found is valid or empty. -/
theorem translate_cases (h : Tree m pt) {v : Nat} {e : PageTableEntry}
    (ht : pt.translate m v = some e) : pt.lookup m v = some e ∨ e = PageTableEntry.empty := by
  by_cases hv : e.isValid = true
  · refine Or.inl ?_
    unfold PageTable.lookup
    rw [ht]
    simp [Option.filter, hv]
  · refine Or.inr ?_
    rw [translate_eq] at ht
    obtain ⟨n, hn, rfl⟩ := Option.map_eq_some_iff.mp ht
    exact h.blank _ n _ (vpnPath_isPath v) hn (Nat.mod_lt _ (by decide)) (by simpa using hv)

/-- The nodes are determined by the frames of the page table. -/
theorem node_congr (h : Tree m pt) (hs : ∀ p ∈ pt.frames, Mem.SameFrame m m' p) {js : List Nat}
    (hjs : IsPath js) : node m' pt.rootPpn js = node m pt.rootPpn js := by
  induction js using List.reverseRecOn with
  | nil => rfl
  | append_singleton ks j ih =>
      rw [node_snoc, node_snoc, ih hjs.left]
      cases hk : node m pt.rootPpn ks with
      | none => simp only [Option.bind_none]
      | some k =>
          have hsame := (hs k (h.mem ks k hjs.left hk)).entry hjs.last
          simp only [Option.bind_some, hsame]

theorem congr (h : Tree m pt) (hs : ∀ p ∈ pt.frames, Mem.SameFrame m m' p) : Tree m' pt where
  mem := fun is n his hn => h.mem is n his (h.node_congr hs his ▸ hn)
  inj := fun is js n his hjs hn hn' =>
    h.inj is js n his hjs (h.node_congr hs his ▸ hn) (h.node_congr hs hjs ▸ hn')
  blank := fun is n i his hn hi hv => by
    rw [h.node_congr hs his] at hn
    have hsame := (hs n (h.mem is n his hn)).entry hi
    rw [hsame] at hv ⊢
    exact h.blank is n i his hn hi hv

theorem translate_congr (h : Tree m pt) (hs : ∀ p ∈ pt.frames, Mem.SameFrame m m' p) (v : Nat) :
    pt.translate m' v = pt.translate m v := by
  rw [translate_eq, translate_eq, h.node_congr hs (vpnPath_isPath v)]
  cases hn : node m pt.rootPpn (vpnPath v) with
  | none => simp only [Option.map_none]
  | some n =>
      have hsame := (hs n (h.mem _ n (vpnPath_isPath v) hn)).entry
        (show v % 512 < 512 from Nat.mod_lt _ (by decide))
      simp only [Option.map_some, hsame]

theorem lookup_congr (h : Tree m pt) (hs : ∀ p ∈ pt.frames, Mem.SameFrame m m' p) (v : Nat) :
    pt.lookup m' v = pt.lookup m v := by
  unfold PageTable.lookup
  rw [h.translate_congr hs]

/-! ## One entry of a leaf table -/

section Leaf

variable {vpn n : Nat} {e : PageTableEntry}

/-- No path goes through a leaf entry. -/
theorem node_setLeaf (h : Tree m pt) (hn : node m pt.rootPpn (vpnPath vpn) = some n)
    {js : List Nat} (hjs : IsPath js) :
    node (m.setPte n (vpn % 512) e.bits) pt.rootPpn js = node m pt.rootPpn js := by
  induction js using List.reverseRecOn with
  | nil => rfl
  | append_singleton ks j ih =>
      rw [node_snoc, node_snoc, ih hjs.left]
      cases hk : node m pt.rootPpn ks with
      | none => simp only [Option.bind_none]
      | some k =>
          have hkn : k ≠ n := by
            rintro rfl
            have hpath := h.inj ks (vpnPath vpn) k hjs.left (vpnPath_isPath vpn) hk hn
            have hlen := hjs.1
            rw [List.length_append, hpath] at hlen
            simp [vpnPath] at hlen
          have hsame := m.entry_setPte_of_ne (v := e.bits) (Nat.mod_lt vpn (by decide : 0 < 512))
            hjs.last (Or.inl hkn)
          simp only [Option.bind_some, hsame]

theorem setLeaf (h : Tree m pt) (hn : node m pt.rootPpn (vpnPath vpn) = some n)
    (he : e.bits < 2 ^ 64) (hblank : e.isValid = false → e = PageTableEntry.empty) :
    Tree (m.setPte n (vpn % 512) e.bits) pt where
  mem := fun is k his hk => h.mem is k his (h.node_setLeaf hn his ▸ hk)
  inj := fun is js k his hjs hk hk' =>
    h.inj is js k his hjs (h.node_setLeaf hn his ▸ hk) (h.node_setLeaf hn hjs ▸ hk')
  blank := fun is k i his hk hi hv => by
    rw [h.node_setLeaf hn his] at hk
    by_cases hki : k = n ∧ i = vpn % 512
    · obtain ⟨rfl, rfl⟩ := hki
      rw [m.entry_setPte _ _ he] at hv ⊢
      exact hblank hv
    · have hsame := m.entry_setPte_of_ne (v := e.bits) (Nat.mod_lt vpn (by decide : 0 < 512))
        hi (by omega : k ≠ n ∨ i ≠ vpn % 512)
      rw [hsame] at hv ⊢
      exact h.blank is k i his hk hi hv

/-- Exactly the page of the entry is looked up differently. -/
theorem lookup_setLeaf (h : Tree m pt) (hvpn : vpn < 2 ^ 27)
    (hn : node m pt.rootPpn (vpnPath vpn) = some n) (he : e.bits < 2 ^ 64) {v : Nat}
    (hv : v < 2 ^ 27) :
    pt.lookup (m.setPte n (vpn % 512) e.bits) v
      = if v = vpn then (if e.isValid then some e else none) else pt.lookup m v := by
  rw [lookup_eq, lookup_eq, h.node_setLeaf hn (vpnPath_isPath v)]
  by_cases heq : v = vpn
  · rw [if_pos heq, heq, hn, Option.bind_some, m.entry_setPte n (vpn % 512) he]
  · rw [if_neg heq]
    cases hk : node m pt.rootPpn (vpnPath v) with
    | none => simp only [Option.bind_none]
    | some k =>
        have hkn : k ≠ n ∨ v % 512 ≠ vpn % 512 := by
          by_contra hboth
          push Not at hboth
          obtain ⟨rfl, hidx⟩ := hboth
          have hpath := h.inj _ _ k (vpnPath_isPath v) (vpnPath_isPath vpn) hk hn
          exact heq (vpn_eq_of_path hv hvpn hpath hidx)
        have hsame := m.entry_setPte_of_ne (v := e.bits) (Nat.mod_lt vpn (by decide : 0 < 512))
          (Nat.mod_lt v (by decide : 0 < 512)) hkn
        simp only [Option.bind_some, hsame]

end Leaf

/-! ## One more table -/

section Grow

variable {is : List Nat} {n idx f : Nat}

/-- The memory after a fresh table `f` was put at index `idx` of the node `n`. -/
def grown (m : Mem) (n idx f : Nat) : Mem :=
  (m.zeroFrame f).setPte n idx (PageTableEntry.new f PTEFlags.V).bits

theorem entry_grown_self (m : Mem) (n idx : Nat) (hf : f < 2 ^ 44) :
    (grown m n idx f).entry n idx = PageTableEntry.new f PTEFlags.V :=
  Mem.entry_setPte _ _ _ (PageTableEntry.new_bits_lt hf _)

theorem entry_grown_fresh (m : Mem) {j : Nat} (hidx : idx < 512) (hj : j < 512) (hfn : f ≠ n) :
    (grown m n idx f).entry f j = PageTableEntry.empty := by
  unfold grown
  rw [Mem.entry_setPte_of_ne _ hidx hj (Or.inl hfn), Mem.entry_zeroFrame m f hj]

theorem entry_grown_of_ne (m : Mem) {k j : Nat} (hidx : idx < 512) (hj : j < 512) (hkf : k ≠ f)
    (h : k ≠ n ∨ j ≠ idx) : (grown m n idx f).entry k j = m.entry k j := by
  unfold grown
  rw [Mem.entry_setPte_of_ne _ hidx hj h, (Mem.sameFrame_zeroFrame m hkf).entry hj]

theorem isValid_table (hf : f < 2 ^ 44) : (PageTableEntry.new f PTEFlags.V).isValid = true := by
  unfold PageTableEntry.isValid
  rw [PageTableEntry.flags_new hf]
  decide

/-- The fresh table is the one new node. -/
theorem node_grown (h : Tree m pt) (his : IsPath (is ++ [idx])) (hn : node m pt.rootPpn is = some n)
    (hidx : (m.entry n idx).isValid = false) (hf : f < 2 ^ 44) (hfresh : f ∉ pt.frames)
    {js : List Nat} (hjs : IsPath js) :
    node (grown m n idx f) pt.rootPpn js
      = if js = is ++ [idx] then some f else node m pt.rootPpn js := by
  have hnone : node m pt.rootPpn (is ++ [idx]) = none := by
    rw [node_snoc, hn, Option.bind_some, hidx]
    rfl
  have hfn : f ≠ n := fun heq => hfresh (heq ▸ h.mem is n his.left hn)
  induction js using List.reverseRecOn with
  | nil =>
      rw [if_neg (by simp)]
      rfl
  | append_singleton ks j ih =>
      rw [node_snoc, ih hjs.left]
      by_cases hks : ks = is ++ [idx]
      · -- below the fresh table there is nothing yet
        have hne : ks ++ [j] ≠ is ++ [idx] := by
          intro heq
          have := congrArg List.length heq
          simp [hks] at this
        rw [if_pos hks, if_neg hne, Option.bind_some, entry_grown_fresh m his.last hjs.last hfn,
          node_snoc, hks, hnone]
        simp
      · rw [if_neg hks, node_snoc]
        by_cases heq : ks ++ [j] = is ++ [idx]
        · obtain ⟨rfl, hj⟩ := List.append_inj' heq rfl
          obtain rfl : j = idx := by simpa using hj
          rw [if_pos rfl, hn, Option.bind_some, entry_grown_self m n j hf, isValid_table hf,
            if_pos rfl, PageTableEntry.ppn_new hf]
        · rw [if_neg heq]
          cases hk : node m pt.rootPpn ks with
          | none => simp only [Option.bind_none]
          | some k =>
              have hkf : k ≠ f := fun heq => hfresh (heq ▸ h.mem ks k hjs.left hk)
              have hkn : k ≠ n ∨ j ≠ idx := by
                by_contra hboth
                push Not at hboth
                obtain ⟨rfl, rfl⟩ := hboth
                exact heq (by rw [h.inj ks is k hjs.left his.left hk hn])
              simp only [Option.bind_some, entry_grown_of_ne m his.last hjs.last hkf hkn]

theorem grow (h : Tree m pt) (his : IsPath (is ++ [idx])) (hn : node m pt.rootPpn is = some n)
    (hidx : (m.entry n idx).isValid = false) (hf : f < 2 ^ 44) (hfresh : f ∉ pt.frames) :
    Tree (grown m n idx f) { pt with frames := pt.frames ++ [f] } where
  mem := fun js k hjs hk => by
    dsimp only at hk ⊢
    rw [h.node_grown his hn hidx hf hfresh hjs] at hk
    split at hk
    · cases hk
      simp
    · exact List.mem_append_left _ (h.mem js k hjs hk)
  inj := fun js ks k hjs hks hk hk' => by
    dsimp only at hk hk'
    rw [h.node_grown his hn hidx hf hfresh hjs] at hk
    rw [h.node_grown his hn hidx hf hfresh hks] at hk'
    split at hk
    · next hj =>
        split at hk'
        · next hk => rw [hj, hk]
        · cases hk
          exact absurd (h.mem ks _ hks hk') hfresh
    · split at hk'
      · cases hk'
        exact absurd (h.mem js _ hjs hk) hfresh
      · exact h.inj js ks k hjs hks hk hk'
  blank := fun js k i hjs hk hi hv => by
    dsimp only at hk
    have hfn : f ≠ n := fun heq => hfresh (heq ▸ h.mem is n his.left hn)
    rw [h.node_grown his hn hidx hf hfresh hjs] at hk
    split at hk
    · cases hk
      exact entry_grown_fresh m his.last hi hfn
    · have hkf : k ≠ f := fun heq => hfresh (heq ▸ h.mem js k hjs hk)
      by_cases hkn : k = n ∧ i = idx
      · obtain ⟨rfl, rfl⟩ := hkn
        rw [entry_grown_self m k i hf, isValid_table hf] at hv
        cases hv
      · rw [entry_grown_of_ne m his.last hi hkf (by omega)] at hv ⊢
        exact h.blank js k i hjs hk hi hv

theorem lookup_grown (h : Tree m pt) (his : IsPath (is ++ [idx]))
    (hn : node m pt.rootPpn is = some n) (hidx : (m.entry n idx).isValid = false)
    (hf : f < 2 ^ 44) (hfresh : f ∉ pt.frames) (v : Nat) :
    PageTable.lookup (grown m n idx f) { pt with frames := pt.frames ++ [f] } v
      = pt.lookup m v := by
  have hfn : f ≠ n := fun heq => hfresh (heq ▸ h.mem is n his.left hn)
  have hv : v % 512 < 512 := Nat.mod_lt _ (by decide)
  rw [lookup_eq, lookup_eq]
  dsimp only
  rw [h.node_grown his hn hidx hf hfresh (vpnPath_isPath v)]
  by_cases hpath : vpnPath v = is ++ [idx]
  · rw [if_pos hpath, Option.bind_some, entry_grown_fresh m his.last hv hfn, hpath, node_snoc, hn,
      Option.bind_some, hidx]
    simp
  · rw [if_neg hpath]
    cases hk : node m pt.rootPpn (vpnPath v) with
    | none => simp only [Option.bind_none]
    | some k =>
        have hkf : k ≠ f := fun heq => hfresh (heq ▸ h.mem _ k (vpnPath_isPath v) hk)
        by_cases hkn : k = n ∧ v % 512 = idx
        · -- the entry was one of an inner node, so the page is not at it
          obtain ⟨rfl, rfl⟩ := hkn
          have hp := h.inj _ _ k (vpnPath_isPath v) his.left hk hn
          have hlen := his.1
          rw [← hp] at hlen
          simp [vpnPath] at hlen
        · simp only [Option.bind_some, entry_grown_of_ne m his.last hv hkf (by omega : k ≠ n ∨ _)]

end Grow

end PageTable.Tree

/-! ## Specifications -/

namespace PageTable

variable {X : Nat → Prop} {E : MemPanic → Prop} {st : MemState} {pt : PageTable}

/-- Nodes stay where they are, and while no frame was given back the allocator counts on. -/
structure Keeps (st : MemState) (pt : PageTable) (st' : MemState) (pt' : PageTable) : Prop where
  nodes : ∀ is n, IsPath is → node st.mem pt.rootPpn is = some n →
    node st'.mem pt'.rootPpn is = some n
  bump : st.alloc.recycled = [] → st'.alloc.recycled = []

theorem Keeps.refl (st : MemState) (pt : PageTable) : Keeps st pt st pt :=
  ⟨fun _ _ _ hn => hn, id⟩

theorem Keeps.trans {st₁ st₂ : MemState} {pt₁ pt₂ : PageTable} (h : Keeps st pt st₁ pt₁)
    (h' : Keeps st₁ pt₁ st₂ pt₂) : Keeps st pt st₂ pt₂ :=
  ⟨fun is n his hn => h'.nodes is n his (h.nodes is n his hn), fun hr => h'.bump (h.bump hr)⟩

/-- `pt'` is the table `pt` with at most `k` more frames. -/
structure Grows (X : Nat → Prop) (st : MemState) (pt : PageTable) (k : Nat) (st' : MemState)
    (pt' : PageTable) : Prop where
  tree : Tree st'.mem pt'
  root : pt'.rootPpn = pt.rootPpn
  moves : Moves X st pt.frames st' pt'.frames
  avail : st.alloc.available ≤ st'.alloc.available + k
  keeps : Keeps st pt st' pt'

/-- A new table below the node at `is`. -/
theorem grow_meets {is : List Nat} {j n : Nat} (ht : Tree st.mem pt) (ho : Owns st pt.frames)
    (his : IsPath (is ++ [j])) (hn : node st.mem pt.rootPpn is = some n)
    (hv : (st.mem.entry n j).isValid = false) (hE : st.alloc.available < 1 → E .outOfFrames) :
    Meets E (do
      let frame ← frameAlloc
      modify fun st =>
        { st with mem := st.mem.setPte n j (PageTableEntry.new frame PTEFlags.V).bits }
      pure frame) st fun f st' =>
        Grows X st pt 1 st' { pt with frames := pt.frames ++ [f] }
          ∧ (∀ v, pt.lookup st'.mem v = pt.lookup st.mem v)
          ∧ (∀ ks, IsPath ks → node st'.mem pt.rootPpn ks
            = if ks = is ++ [j] then some f else node st.mem pt.rootPpn ks)
          ∧ (st'.mem.entry n j).ppn = f ∧ (st.alloc.recycled = [] → f = st.alloc.current) := by
  rw [Meets.bind_iff]
  refine ((frameAlloc_meets (X := X) ho hE).and (frameAlloc_bump st)).mono ?_
  rintro f st₁ ⟨⟨hm, hfree, hmem, havail⟩, hbump⟩
  simp only [Meets.bind_iff, Meets.modify_iff, Meets.pure_iff]
  have hf : f < 2 ^ 44 := hm.owns.lt_two_pow List.mem_cons_self
  have hfresh : f ∉ pt.frames := fun h => ho.used f h hfree
  have hmem' : st₁.mem.setPte n j (PageTableEntry.new f PTEFlags.V).bits
      = Tree.grown st.mem n j f := by
    rw [hmem]
    rfl
  rw [hmem']
  have hentry : (Tree.grown st.mem n j f).entry n j = PageTableEntry.new f PTEFlags.V :=
    Tree.entry_grown_self _ _ _ hf
  have hmoves : Moves X st pt.frames { st₁ with mem := Tree.grown st.mem n j f }
      (pt.frames ++ [f]) := by
    have hnf : n ∈ f :: pt.frames := List.mem_cons_of_mem _ (ht.mem is n his.left hn)
    have hstep : Moves X st₁ (f :: pt.frames) { st₁ with mem := Tree.grown st.mem n j f }
        (f :: pt.frames) := by
      refine Moves.of_same hm.owns ?_
      intro p _ hp
      rw [← hmem']
      exact Mem.sameFrame_setPte _ his.last (fun heq => hp (heq ▸ hnf))
    refine (hm.trans hstep).perm (List.Perm.refl _) ?_
    exact (List.perm_append_singleton f pt.frames).symm
  have hkeeps : Keeps st pt { st₁ with mem := Tree.grown st.mem n j f }
      { pt with frames := pt.frames ++ [f] } := by
    refine ⟨fun ks m hks hm => ?_, fun hr => (hbump hr).2.1⟩
    dsimp only
    rw [ht.node_grown his hn hv hf hfresh hks, if_neg ?_, hm]
    rintro rfl
    rw [node_snoc, hn, Option.bind_some, if_neg (by simp [hv])] at hm
    cases hm
  refine ⟨⟨ht.grow his hn hv hf hfresh, rfl, hmoves, Nat.le_of_eq havail, hkeeps⟩,
    fun v => ht.lookup_grown his hn hv hf hfresh v,
    fun ks hks => ht.node_grown his hn hv hf hfresh hks, ?_, fun hr => (hbump hr).1⟩
  rw [hentry, PageTableEntry.ppn_new hf]

/-- One round of the loop of `find_pte_create`. -/
theorem createLoop_cons (pt : PageTable) (n j i : Nat) (js : List Nat) :
    createLoop pt n (j :: js ++ [i]) = (do
      let st ← get
      if (st.mem.entry n j).isValid then
        createLoop pt (st.mem.entry n j).ppn (js ++ [i])
      else
        let frame ← (do
          let frame ← frameAlloc
          modify fun st =>
            { st with mem := st.mem.setPte n j (PageTableEntry.new frame PTEFlags.V).bits }
          pure frame)
        let st ← get
        createLoop { pt with frames := pt.frames ++ [frame] } (st.mem.entry n j).ppn
          (js ++ [i])) := by
  simp only [bind_assoc, pure_bind]
  cases js with
  | nil => rfl
  | cons _ _ => rfl

/-- With tables on the whole way none is created; `k` bounds how many are. -/
theorem createLoop_meets {js : List Nat} {i k : Nat} {st : MemState} {pt : PageTable}
    {is : List Nat} {n : Nat} (ht : Tree st.mem pt) (ho : Owns st pt.frames)
    (his : IsPath (is ++ js)) (hn : node st.mem pt.rootPpn is = some n)
    (hk : node st.mem pt.rootPpn (is ++ js) = none → js.length ≤ k)
    (hE : st.alloc.available < k → E .outOfFrames) :
    Meets E (createLoop pt n (js ++ [i])) st fun r st' =>
      Grows X st pt k st' r.1 ∧ (∀ v, r.1.lookup st'.mem v = pt.lookup st.mem v)
        ∧ node st'.mem r.1.rootPpn (is ++ js) = some r.2.1 ∧ r.2.2 = i := by
  induction js generalizing st pt is n k with
  | nil =>
      rw [List.append_nil]
      refine Meets.pure_iff.mpr ?_
      exact ⟨⟨ht, rfl, Moves.refl ho, Nat.le_add_right _ _, Keeps.refl st pt⟩, fun _ => rfl, hn, rfl⟩
  | cons j js ih =>
      have hpath : IsPath ((is ++ [j]) ++ js) := by simpa using his
      rw [createLoop_cons, Meets.bind_iff, Meets.get_iff]
      by_cases hv : (st.mem.entry n j).isValid = true
      · rw [if_pos hv]
        have hnode : node st.mem pt.rootPpn (is ++ [j]) = some (st.mem.entry n j).ppn := by
          rw [node_snoc, hn, Option.bind_some, if_pos hv]
        have hk' : node st.mem pt.rootPpn ((is ++ [j]) ++ js) = none → js.length ≤ k := by
          rw [List.append_assoc]
          exact fun h => Nat.le_of_succ_le (hk h)
        refine (ih ht ho hpath hnode hk' hE).mono ?_
        rintro r st' ⟨hg, hl, hr, hi⟩
        rw [List.append_assoc] at hr
        exact ⟨hg, hl, hr, hi⟩
      · rw [if_neg hv]
        simp only [Bool.not_eq_true] at hv
        have hnone : node st.mem pt.rootPpn (is ++ j :: js) = none := by
          rw [← List.singleton_append, ← List.append_assoc, node_append, node_snoc, hn,
            Option.bind_some, if_neg (by simp [hv]), Option.bind_none]
        have hk' := hk hnone
        rw [List.length_cons] at hk'
        rw [Meets.bind_iff]
        refine (grow_meets (X := X) ht ho hpath.left hn hv fun h => hE (by omega)).mono ?_
        rintro f st₁ ⟨hg₁, hl₁, hnodes, hppn, -⟩
        have hnode := (hnodes _ hpath.left).trans (if_pos rfl)
        rw [Meets.bind_iff, Meets.get_iff, hppn]
        have hav₁ := hg₁.avail
        refine (ih (k := k - 1) hg₁.tree hg₁.moves.owns hpath hnode (fun _ => by omega) ?_).mono ?_
        · intro h
          exact hE (by omega)
        rintro r st' ⟨hg, hl, hr, hi⟩
        rw [List.append_assoc] at hr
        refine ⟨⟨hg.tree, hg.root, hg₁.moves.trans hg.moves, ?_, hg₁.keeps.trans hg.keeps⟩,
          fun v => (hl v).trans (hl₁ v), hr, hi⟩
        have := hg.avail
        omega

theorem new_meets (ho : Owns st []) (hE : st.alloc.available < 1 → E .outOfFrames) :
    Meets E PageTable.new st fun pt st' =>
      Tree st'.mem pt ∧ Moves X st [] st' pt.frames ∧ (∀ v, pt.translate st'.mem v = none)
        ∧ st.alloc.available ≤ st'.alloc.available + 1 := by
  rw [PageTable.new, Meets.bind_iff]
  refine (frameAlloc_meets (X := X) ho hE).mono ?_
  rintro f st₁ ⟨hm, -, hmem, havail⟩
  refine Meets.pure_iff.mpr ?_
  have hentry : ∀ i, i < 512 → st₁.mem.entry f i = PageTableEntry.empty := by
    intro i hi
    rw [hmem]
    exact Mem.entry_zeroFrame st.mem f hi
  -- only the root is a node
  have hnode : ∀ is n, IsPath is → node st₁.mem f is = some n → is = [] ∧ n = f := by
    intro is n his hn
    cases is with
    | nil => exact ⟨rfl, (Option.some.inj hn).symm⟩
    | cons i is =>
        rw [node, hentry i (his.2 i List.mem_cons_self)] at hn
        simp at hn
  refine ⟨⟨?_, ?_, ?_⟩, hm, ?_, Nat.le_of_eq havail⟩
  · intro is n his hn
    exact List.mem_singleton.mpr (hnode is n his hn).2
  · intro is js n his hjs hn hn'
    rw [(hnode is n his hn).1, (hnode js n hjs hn').1]
  · intro is n i his hn hi _
    rw [(hnode is n his hn).2]
    exact hentry i hi
  · intro v
    rw [translate_eq]
    cases hn : node st₁.mem f (vpnPath v) with
    | none => rfl
    | some n =>
        have := (hnode _ n (vpnPath_isPath v) hn).1
        simp [vpnPath] at this

/-- `map` adds the page, which had no valid entry before. -/
theorem map_meets {vpn ppn k : Nat} {flags : PTEFlags} (ht : Tree st.mem pt)
    (ho : Owns st pt.frames) (hvpn : vpn < 2 ^ 27) (hppn : ppn < 2 ^ 44)
    (hk : pt.translate st.mem vpn = none → 2 ≤ k)
    (hE : st.alloc.available < k → E .outOfFrames)
    (hmapped : pt.lookup st.mem vpn ≠ none → E .mapped) :
    Meets E (pt.map vpn ppn flags) st fun pt' st' =>
      Grows X st pt k st' pt' ∧ pt.lookup st.mem vpn = none
        ∧ ∀ v, v < 2 ^ 27 → pt'.lookup st'.mem v
            = if v = vpn then some (PageTableEntry.new ppn (flags ||| PTEFlags.V))
              else pt.lookup st.mem v := by
  have hidx : vpn % 512 < 512 := Nat.mod_lt _ (by decide)
  rw [map, Meets.bind_iff, findPteCreate, vpnIndexes_eq]
  have hroot : node st.mem pt.rootPpn [] = some pt.rootPpn := rfl
  have hpath : IsPath ([] ++ vpnPath vpn) := vpnPath_isPath vpn
  have hk' : node st.mem pt.rootPpn ([] ++ vpnPath vpn) = none → (vpnPath vpn).length ≤ k := by
    intro hnone
    refine hk ?_
    rw [translate_eq, ← List.nil_append (vpnPath vpn), hnone, Option.map_none]
  refine (createLoop_meets (X := X) ht ho hpath hroot hk' hE).mono ?_
  rintro ⟨pt', n, i⟩ st₁ ⟨hg, hl, hn, hi⟩
  dsimp only at hg hl hn hi
  subst hi
  rw [List.nil_append] at hn
  simp only [Meets.bind_iff, Meets.get_iff, Meets.ensure_iff, Meets.set_iff, Meets.pure_iff]
  have hlookup : pt.lookup st.mem vpn
      = if (st₁.mem.entry n (vpn % 512)).isValid then some (st₁.mem.entry n (vpn % 512))
        else none := by
    rw [← hl vpn, lookup_eq, hn, Option.bind_some]
  constructor
  · intro hv
    rw [if_neg hv] at hlookup
    have hbits := PageTableEntry.new_bits_lt hppn (flags ||| PTEFlags.V)
    have hvalid := PageTableEntry.isValid_new hppn flags
    generalize PageTableEntry.new ppn (flags ||| PTEFlags.V) = e at hbits hvalid ⊢
    have hstep : Moves X st₁ pt'.frames { st₁ with mem := st₁.mem.setPte n (vpn % 512) e.bits }
        pt'.frames := by
      refine Moves.of_same hg.moves.owns ?_
      intro p _ hp
      refine Mem.sameFrame_setPte _ hidx ?_
      rintro rfl
      exact hp (hg.tree.mem _ _ (vpnPath_isPath vpn) hn)
    have hkeeps : Keeps st₁ pt' { st₁ with mem := st₁.mem.setPte n (vpn % 512) e.bits } pt' :=
      ⟨fun is k his hk => (hg.tree.node_setLeaf hn his).trans hk, id⟩
    refine ⟨⟨?_, hg.root, hg.moves.trans hstep, hg.avail, hg.keeps.trans hkeeps⟩, hlookup, ?_⟩
    · refine hg.tree.setLeaf hn hbits ?_
      intro hinv
      rw [hvalid] at hinv
      cases hinv
    · intro v hv'
      rw [hg.tree.lookup_setLeaf hvpn hn hbits hv', hl v, if_pos hvalid]
  · intro hv
    rw [if_pos (by simpa using hv)] at hlookup
    refine hmapped ?_
    rw [hlookup]
    exact Option.some_ne_none _

/-- `unmap` removes a page that has a valid entry. -/
theorem unmap_meets {vpn : Nat} {e : PageTableEntry} (ht : Tree st.mem pt)
    (ho : Owns st pt.frames) (hvpn : vpn < 2 ^ 27) (he : pt.lookup st.mem vpn = some e) :
    Meets E (pt.unmap vpn) st fun _ st' =>
      Tree st'.mem pt ∧ Moves X st pt.frames st' pt.frames ∧ st'.alloc = st.alloc
        ∧ ∀ v, v < 2 ^ 27 → pt.lookup st'.mem v
            = if v = vpn then none else pt.lookup st.mem v := by
  have hidx : vpn % 512 < 512 := Nat.mod_lt _ (by decide)
  have hvalid := lookup_isValid he
  rw [lookup_eq] at he
  obtain ⟨n, hn, hentry⟩ := Option.bind_eq_some_iff.mp he
  have hfind : pt.findPte st.mem vpn = some (n, vpn % 512) := by
    rw [findPte_eq, hn]
    rfl
  have hv : (st.mem.entry n (vpn % 512)).isValid = true := by
    by_contra hv
    rw [if_neg hv] at hentry
    cases hentry
  have hbits : PageTableEntry.empty.bits < 2 ^ 64 := by decide
  simp only [unmap, Meets.bind_iff, Meets.get_iff]
  rw [hfind]
  simp only [Meets.unwrap_some, Meets.ensure_iff, Meets.set_iff]
  refine ⟨fun _ => ⟨?_, ?_, trivial, ?_⟩, fun h => absurd hv h⟩
  · exact ht.setLeaf hn hbits (fun _ => rfl)
  · refine Moves.of_same ho ?_
    intro p _ hp
    refine Mem.sameFrame_setPte _ hidx ?_
    rintro rfl
    exact hp (ht.mem _ _ (vpnPath_isPath vpn) hn)
  · intro v hv'
    rw [ht.lookup_setLeaf hvpn hn hbits hv', PageTableEntry.isValid_empty]
    rfl

end PageTable

end Nimloth
