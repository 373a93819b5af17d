import Mathlib.Tactic.Common
import Nimloth.IndexTree
import Nimloth.Runs

/-!
# Growth of an inode in steps

A disk inode from `initialize` on, made larger by `increase_size` again
and again, each time with the blocks that `blocks_num_needed` asks for.
`used` are the blocks it has been given so far.

Up to `INDIRECT2_BOUND` data blocks every step does what it should
(`GrowsWell`). A step beyond it panics: the loop over the double indirect
block does not stop at its end, so that `indirect3` is never filled, and
the assertion of `clear_size` excludes such a file as well.
-/

namespace Nimloth

open BlockProg DiskInode

/-- What `indirect3` has room for. -/
@[simp] abbrev INODE_INDIRECT3_COUNT : Nat := INODE_INDIRECT2_COUNT * INODE_INDIRECT1_COUNT

structure GrowthState where
  d : DiskInode
  σ : Store
  used : List UInt32

/-- Arguments of `increase_size`. -/
structure GrowthCall where
  newSize : UInt32
  newBlocks : List UInt32

/-- Growth to a size the documentation allows, by as many fresh blocks as are needed; `held` are
the blocks locked meanwhile. -/
structure GrowthCall.Valid (held : List Nat) (s : GrowthState) (c : GrowthCall) : Prop where
  le : s.d.size.toNat ≤ c.newSize.toNat
  max : blockCount c.newSize ≤ INDIRECT2_BOUND + INODE_INDIRECT3_COUNT
  fresh : (s.used ++ c.newBlocks).Nodup
  free : ∀ x ∈ c.newBlocks, x.toNat ∉ held
  needed : (s.d.blocksNumNeeded c.newSize).flat held s.σ = .ok (c.newBlocks.length, s.σ)

def GrowthStep (held : List Nat) (s : GrowthState) (c : GrowthCall) (s' : GrowthState) : Prop :=
  c.Valid held s
    ∧ (s.d.increaseSize c.newSize c.newBlocks).flat held s.σ = .ok (s'.d, s'.σ)
    ∧ s'.used = s.used ++ c.newBlocks

/-- `increase_size` returns, and all the blocks given to the inode are in its tree, in that order:
`ids` are those of data, the others are index blocks. `clear_size` returns each once. -/
def GrowsWell (held : List Nat) (s : GrowthState) (c : GrowthCall) : Prop :=
  ∃ d' σ', (s.d.increaseSize c.newSize c.newBlocks).flat held s.σ = .ok (d', σ')
    ∧ owned σ' d' (blockCount c.newSize) = s.used ++ c.newBlocks
    ∧ (∃ ids : Nat → UInt32,
      (∀ i, i < blockCount c.newSize →
        (d'.blockId (UInt32.ofNat i)).flat held σ' = .ok (ids i, σ'))
      ∧ (∀ i j, i < blockCount c.newSize → j < blockCount c.newSize → ids i = ids j → i = j)
      ∧ (∀ i, i < blockCount s.d.size →
        (s.d.blockId (UInt32.ofNat i)).flat held s.σ = .ok (ids i, s.σ))
      ∧ ∀ i (node : Node), i < blockCount c.newSize → node.since < blockCount c.newSize →
        node.isIndex → nodeId σ' d' node ≠ ids i)
    ∧ ∃ w d'', d'.clearSize.flat held σ' = .ok ((w, d''), σ') ∧ w.Perm (s.used ++ c.newBlocks)

/-- The inode owns the blocks it has been given. -/
structure GrowthInv (held : List Nat) (s : GrowthState) : Prop where
  bound : blockCount s.d.size ≤ 16539
  blocks : owned s.σ s.d (blockCount s.d.size) = s.used
  nodup : s.used.Nodup
  free : ∀ x ∈ s.used, x.toNat ∉ held

section Growth

variable {held : List Nat} {s s' : GrowthState} {c : GrowthCall}

theorem GrowthCall.Valid.free_all (hc : c.Valid held s) (h : GrowthInv held s) :
    ∀ x ∈ s.used ++ c.newBlocks, x.toNat ∉ held := by
  intro x hx
  rcases List.mem_append.mp hx with hx | hx
  · exact h.free x hx
  · exact hc.free x hx

theorem GrowthCall.Valid.length (hc : c.Valid held s) (h : GrowthInv held s) :
    (nodes (blockCount s.d.size)).length + c.newBlocks.length
      = blocksWithIndex (blockCount c.newSize) := by
  have hle := blockCount_mono hc.le
  have hnodes := blocksWithIndex_mono hle
  have hpost : Post (fun _ => True) (s.d.blocksNumNeeded c.newSize) held s.σ fun r _ =>
      r = blocksWithIndex (blockCount c.newSize) - blocksWithIndex (blockCount s.d.size) := by
    unfold DiskInode.blocksNumNeeded DiskInode.totalBlocks
    simp only [Post.bind_iff, Post.assert_iff, dataBlocksOf_iff, Post.pure_iff, Post.sub_iff,
      implies_true, and_true]
  have hlen : c.newBlocks.length = _ := hpost.ok hc.needed
  rw [hlen, length_nodes h.bound]
  omega

/-- One step within `INDIRECT2_BOUND`. -/
theorem GrowthInv.grow (h : GrowthInv held s) (hc : c.Valid held s)
    (hm : blockCount c.newSize ≤ 16539) :
    Returns (s.d.increaseSize c.newSize c.newBlocks) held s.σ fun d' σ' =>
      GrowthInv held ⟨d', σ', s.used ++ c.newBlocks⟩ ∧ d'.size = c.newSize
        ∧ ∀ node : Node, node.since < blockCount s.d.size →
          nodeId σ' d' node = nodeId s.σ s.d node := by
  have hnd : (owned s.σ s.d (blockCount s.d.size) ++ c.newBlocks).Nodup := by
    rw [h.blocks]
    exact hc.fresh
  have hfree : ∀ x ∈ owned s.σ s.d (blockCount s.d.size) ++ c.newBlocks, x.toNat ∉ held := by
    rw [h.blocks]
    exact hc.free_all h
  have hle := blockCount_mono hc.le
  have hlen := hc.length h
  rw [← length_nodes hm] at hlen
  apply (increaseSize_spec hc.le hm hlen hnd hfree).mono
  intro d' σ' hg
  have hsize : d'.size = c.newSize := hg.size
  obtain ⟨hown, hkeep, -, -⟩ := Growing.grown hle hnd hg
  rw [h.blocks] at hown
  exact ⟨⟨hsize ▸ hm, hsize ▸ hown, hc.fresh, hc.free_all h⟩, hsize, hkeep⟩

/-- No step goes beyond. -/
theorem GrowthInv.bound_of_ok (h : GrowthInv held s) (hc : c.Valid held s) {d' : DiskInode}
    {σ' : Store} (hrun : (s.d.increaseSize c.newSize c.newBlocks).flat held s.σ = .ok (d', σ')) :
    blockCount c.newSize ≤ 16539 := by
  by_contra hbig
  have hlen := hc.length h
  have hmono := blocksWithIndex_mono (Nat.not_le.mp hbig).le
  rw [← length_nodes (Nat.le_refl 16539)] at hmono
  have hpost : Ensures (s.d.increaseSize c.newSize c.newBlocks) held s.σ fun _ _ => False :=
    increaseSize_overrun trivial (fun _ => trivial) h.bound (Nat.not_le.mp hbig) (by omega)
      (by rw [h.blocks]; exact hc.fresh) (by rw [h.blocks]; exact hc.free_all h)
  exact hpost.ok hrun

theorem GrowthInv.step (h : GrowthInv held s) (hs : GrowthStep held s c s') :
    GrowthInv held s' := by
  obtain ⟨hc, hrun, hused⟩ := hs
  obtain ⟨hinv, -, -⟩ := (h.grow hc (h.bound_of_ok hc hrun)).ok hrun
  rw [← hused] at hinv
  exact hinv

theorem blockCount_init (type : DiskInodeType) : blockCount (DiskInode.init type).size = 0 := by
  have hzero : blockCount 0 = 0 := by decide
  exact hzero

theorem GrowthInv.init (held : List Nat) (type : DiskInodeType) (σ : Store) :
    GrowthInv held ⟨DiskInode.init type, σ, []⟩ where
  bound := by
    dsimp only
    rw [blockCount_init]
    exact Nat.zero_le _
  blocks := by
    dsimp only
    rw [blockCount_init]
    rfl
  nodup := List.nodup_nil
  free _ hx := absurd hx List.not_mem_nil

/-- What follows for the inode after a step. -/
theorem GrowthInv.growsWell (h : GrowthInv held s) (hc : c.Valid held s)
    (hm : blockCount c.newSize ≤ 16539) : GrowsWell held s c := by
  obtain ⟨d', σ', hrun, hinv, hsize, hkeep⟩ := (h.grow hc hm).exists_ok
  have hown : owned σ' d' (blockCount c.newSize) = s.used ++ c.newBlocks := hsize ▸ hinv.blocks
  have hnd : (owned σ' d' (blockCount c.newSize)).Nodup := by
    rw [hown]
    exact hc.fresh
  have hfree : ∀ x ∈ owned σ' d' (blockCount c.newSize), x.toNat ∉ held := by
    rw [hown]
    exact hc.free_all h
  have hdata : ∀ {i n : Nat}, i < n → (Node.data i).since < n := fun h => h
  -- `block_id` is the id of the node
  have hid : ∀ {σ : Store} {d : DiskInode} {n i : Nat}, i < n → n ≤ 16539 →
      (∀ x ∈ owned σ d n, x.toNat ∉ held) →
      (d.blockId (UInt32.ofNat i)).flat held σ = .ok (nodeId σ d (.data i), σ) := by
    intro σ d n i hi hn hfree
    have hpost : Returns (d.blockId (UInt32.ofNat i)) held σ fun r σ' =>
        r = nodeId σ d (.data i) ∧ σ' = σ := (blockId_spec hi hn hfree).mpr ⟨rfl, rfl⟩
    obtain ⟨a, σ', hok, rfl, rfl⟩ := hpost.exists_ok
    exact hok
  refine ⟨d', σ', hrun, hown, ⟨fun i => nodeId σ' d' (.data i), ?_, ?_, ?_, ?_⟩, ?_⟩
  · exact fun i hi => hid hi hm hfree
  · intro i j hi hj heq
    have := nodeId_inj hnd (hdata hi) (hdata hj) heq
    simpa using this
  · intro i hi
    dsimp only
    rw [hkeep (.data i) hi]
    refine hid hi h.bound ?_
    rw [h.blocks]
    exact h.free
  · intro i node hi hnode hindex heq
    have := nodeId_inj hnd hnode (hdata hi) heq
    rw [this] at hindex
    cases hindex
  · obtain ⟨⟨w, d''⟩, σ'', hclear, rfl, hw, -, -⟩ :=
      (clearSize_spec (hsize ▸ hm) (hsize ▸ hnd) (hsize ▸ hfree)).exists_ok
    refine ⟨w, d'', hclear, ?_⟩
    rw [show w = _ from hw, hsize, hown]

end Growth

theorem growth_within_indirect2 {held : List Nat} {type : DiskInodeType} {σ₀ : Store}
    {tr : List GrowthCall} {s : GrowthState} {c : GrowthCall}
    (hrun : Runs (GrowthStep held) ⟨DiskInode.init type, σ₀, []⟩ tr s) (hc : c.Valid held s) :
    GrowsWell held s c ↔ blockCount c.newSize ≤ INDIRECT2_BOUND := by
  have h : GrowthInv held s :=
    hrun.invariant (.init held type σ₀) fun _ _ _ ha hs => ha.step hs
  constructor
  · rintro ⟨d', σ', hok, -⟩
    exact h.bound_of_ok hc hok
  · exact h.growsWell hc

/-- A fresh inode gets `n` bytes. -/
theorem valid_first {n : Nat} (hn : n + 512 < 2 ^ 32)
    (hmax : (n + 511) / 512 ≤ INDIRECT2_BOUND + INODE_INDIRECT3_COUNT) :
    GrowthCall.Valid [] ⟨DiskInode.init .file, fun _ => Block.zero, []⟩
      ⟨UInt32.ofNat n, (List.range (blocksWithIndex ((n + 511) / 512))).map UInt32.ofNat⟩ := by
  have hsize : (UInt32.ofNat n).toNat = n := by
    rw [UInt32.toNat_ofNat', Nat.mod_eq_of_lt (by omega)]
  have hcount : blockCount (UInt32.ofNat n) = (n + 511) / 512 := by rw [blockCount, hsize]
  have hinit : (DiskInode.init .file).size.toNat = 0 := rfl
  refine ⟨?_, ?_, ?_, fun _ _ => List.not_mem_nil, ?_⟩
  · dsimp only
    omega
  · dsimp only
    rw [hcount]
    exact hmax
  · rw [List.nil_append]
    have hblocks : blocksWithIndex ((n + 511) / 512) < 2 ^ 32 := by
      have hcases := blocksWithIndex_cases ((n + 511) / 512)
      omega
    refine List.Nodup.map_on ?_ List.nodup_range
    intro i hi j hj heq
    rw [List.mem_range] at hi hj
    have := congrArg UInt32.toNat heq
    rw [UInt32.toNat_ofNat', UInt32.toNat_ofNat', Nat.mod_eq_of_lt (by omega),
      Nat.mod_eq_of_lt (by omega)] at this
    exact this
  · have hle : UInt32.ofNat n ≥ (DiskInode.init .file).size := by
      rw [ge_iff_le, UInt32.le_iff_toNat_le]
      omega
    have hpost : Returns ((DiskInode.init .file).blocksNumNeeded (UInt32.ofNat n)) []
        (fun _ => Block.zero) fun r σ' => r = blocksWithIndex ((n + 511) / 512)
          ∧ σ' = fun _ => Block.zero := by
      have hzero : blocksWithIndex (blockCount (DiskInode.init .file).size) = 0 := by decide
      unfold DiskInode.blocksNumNeeded DiskInode.totalBlocks
      simp only [Returns, Post.bind_iff, Post.assert_iff, hle, true_implies, not_true_eq_false,
        false_implies, and_true]
      rw [dataBlocksOf_spec (by omega), Post.pure_iff, dataBlocksOf_spec (by omega), Post.pure_iff,
        Post.sub_iff, hzero, hcount]
      exact ⟨fun _ => ⟨rfl, rfl⟩, fun h => absurd h (Nat.not_lt_zero _)⟩
    obtain ⟨r, σ', hok, rfl, rfl⟩ := hpost.exists_ok
    rw [List.length_map, List.length_range]
    exact hok

/-- Growth to the 28th data block, which needs the indirect block. -/
theorem growth_within_indirect2_28 :
    GrowsWell [] ⟨DiskInode.init .file, fun _ => Block.zero, []⟩
      ⟨UInt32.ofNat 14336, (List.range (blocksWithIndex ((14336 + 511) / 512))).map UInt32.ofNat⟩ :=
  (growth_within_indirect2 (Runs.nil _) (valid_first (by decide) (by decide))).mpr (by decide)

/-- Growth to the first data block under `indirect3`. -/
theorem growth_beyond_indirect2 :
    let s : GrowthState := ⟨DiskInode.init .file, fun _ => Block.zero, []⟩
    let c : GrowthCall := ⟨UInt32.ofNat 8468480,
      (List.range (blocksWithIndex ((8468480 + 511) / 512))).map UInt32.ofNat⟩
    Runs (GrowthStep []) s [] s ∧ c.Valid [] s ∧ ¬ GrowsWell [] s c := by
  have hc := @valid_first 8468480 (by decide) (by decide)
  refine ⟨Runs.nil _, hc, ?_⟩
  rintro ⟨d', σ', hok, -⟩
  have hbound := (GrowthInv.init [] .file fun _ => Block.zero).bound_of_ok hc hok
  exact absurd hbound (by decide)

end Nimloth
