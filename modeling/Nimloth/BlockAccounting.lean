import Mathlib.Tactic.Common
import Nimloth.CheckedWords
import Nimloth.IndexPlaces

/-!
# Block accounting

`total_blocks` and `blocks_num_needed` of a disk inode in their machine
types: a `u32` has 32 bits and a `usize` 64, and an operation whose
result does not fit returns nothing. The numbers are those of `Layout`
(`totalBlocks_flat`, `blocksNumNeeded_flat`): past the conversion of the
size to data blocks nothing can go wrong.

For a file that the index tree has room for, `total_blocks` is the number
of nodes of the tree that `block_id` addresses, and `blocks_num_needed`
is the number of nodes that growth adds to it (`block_accounting`).
-/

namespace Nimloth

open BlockProg

namespace DiskInode

namespace Machine

def usize (n : Nat) : BitVec 64 := BitVec.ofNat 64 n

/-- `_data_blocks`. -/
def dataBlocksOf (size : BitVec 32) : Option (BitVec 32) := do
  let n ← Word.add size (BitVec.ofNat 32 BLOCK_SZ)
  let n ← Word.sub n 1
  Word.div n (BitVec.ofNat 32 BLOCK_SZ)

/-- `(data_blocks - bound + count - 1) / count`. -/
def groupsBeyond (dataBlocks : BitVec 64) (bound count : Nat) : Option (BitVec 64) := do
  let n ← Word.sub dataBlocks (usize bound)
  let n ← Word.add n (usize count)
  let n ← Word.sub n 1
  Word.div n (usize count)

/-- What `total_blocks` adds for `indirect1`. -/
def addIndirect1 (dataBlocks total : BitVec 64) : Option (BitVec 64) :=
  if dataBlocks > usize INODE_DIRECT_COUNT then Word.add total 1 else some total

/-- What it adds for `indirect2`. -/
def addIndirect2 (dataBlocks total : BitVec 64) : Option (BitVec 64) :=
  if dataBlocks > usize INDIRECT1_BOUND then do
    let total ← Word.add total 1
    let level2Blocks ← groupsBeyond dataBlocks INDIRECT1_BOUND INODE_INDIRECT1_COUNT
    Word.add total (Word.min level2Blocks (usize INODE_INDIRECT1_COUNT))
  else some total

/-- What it adds for `indirect3`. -/
def addIndirect3 (dataBlocks total : BitVec 64) : Option (BitVec 64) :=
  if dataBlocks > usize INDIRECT2_BOUND then do
    let total ← Word.add total 1
    let subIndirect2 ← groupsBeyond dataBlocks INDIRECT2_BOUND INODE_INDIRECT2_COUNT
    let total ← Word.add total subIndirect2
    let subIndirect1 ← groupsBeyond dataBlocks INDIRECT2_BOUND INODE_INDIRECT1_COUNT
    Word.add total subIndirect1
  else some total

/-- `total_blocks`. -/
def totalBlocks (size : BitVec 32) : Option (BitVec 32) := do
  let dataBlocks ← dataBlocksOf size
  let dataBlocks := dataBlocks.setWidth 64
  let total ← addIndirect1 dataBlocks dataBlocks
  let total ← addIndirect2 dataBlocks total
  let total ← addIndirect3 dataBlocks total
  some (total.setWidth 32)

/-- `blocks_num_needed`. -/
def blocksNumNeeded (d : DiskInode) (newSize : UInt32) : Option (BitVec 32) :=
  if newSize ≥ d.size then do
    let new ← totalBlocks newSize.toBitVec
    let old ← totalBlocks d.size.toBitVec
    Word.sub new old
  else none

end Machine

/-! ## No operation leaves its type -/

section Exact

open Machine
open Word (Exact)

variable {x total : BitVec 64} {n t : Nat}

theorem dataBlocksOf_exact {size : UInt32} (h : size.toNat + 512 < 2 ^ 32) :
    Exact (Machine.dataBlocksOf size.toBitVec) (blockCount size) := by
  have hadd : Exact (Word.add size.toBitVec (BitVec.ofNat 32 BLOCK_SZ)) (size.toNat + 512) :=
    .add rfl rfl h
  refine hadd.bind fun n hn => ?_
  have hsub : Exact (Word.sub n 1) (size.toNat + 512 - 1) := .sub hn rfl (by omega)
  exact hsub.bind fun n hn => .div hn rfl (by decide)

theorem dataBlocksOf_eq_none {size : UInt32} (h : 2 ^ 32 ≤ size.toNat + 512) :
    Machine.dataBlocksOf size.toBitVec = none := by
  have hadd : Word.add size.toBitVec (BitVec.ofNat 32 BLOCK_SZ) = none := Word.add_eq_none h
  rw [Machine.dataBlocksOf, hadd]
  rfl

theorem toNat_usize (h : n < 2 ^ 64) : (usize n).toNat = n := Word.toNat_const h

theorem gt_usize (hx : x.toNat = n) {c : Nat} (hc : c < 2 ^ 64) : x > usize c ↔ n > c := by
  rw [gt_iff_lt, BitVec.lt_def, toNat_usize hc, hx]

theorem groupsBeyond_exact (hx : x.toNat = n) {bound count : Nat} (hbound : bound < n)
    (hcount : 0 < count) (hlt : n + count < 2 ^ 64) :
    Exact (groupsBeyond x bound count) ((n - bound + count - 1) / count) := by
  have hsub : Exact (Word.sub x (usize bound)) (n - bound) :=
    .sub hx (toNat_usize (by omega)) hbound.le
  refine hsub.bind fun y hy => ?_
  have hadd : Exact (Word.add y (usize count)) (n - bound + count) :=
    .add hy (toNat_usize (by omega)) (by omega)
  refine hadd.bind fun y hy => ?_
  have hone : Exact (Word.sub y 1) (n - bound + count - 1) := .sub hy rfl (by omega)
  exact hone.bind fun y hy => .div hy (toNat_usize (by omega)) hcount

theorem addIndirect1_exact (hx : x.toNat = n) (ht : total.toNat = t) (hlt : t < 2 ^ 63) :
    Exact (addIndirect1 x total) (if n > INODE_DIRECT_COUNT then t + 1 else t) :=
  .ite (gt_usize hx (by decide)) (fun _ => .add ht rfl (by omega)) fun _ => .ret ht

theorem level2_le (n : Nat) :
    min ((n - INDIRECT1_BOUND + INODE_INDIRECT1_COUNT - 1) / INODE_INDIRECT1_COUNT)
      INODE_INDIRECT1_COUNT ≤ 128 :=
  Nat.min_le_right ..

theorem addIndirect2_exact (hx : x.toNat = n) (hn : n < 2 ^ 32) (ht : total.toNat = t)
    (hlt : t < 2 ^ 63) :
    Exact (addIndirect2 x total) (if n > INDIRECT1_BOUND then
      t + 1 + min ((n - INDIRECT1_BOUND + INODE_INDIRECT1_COUNT - 1) / INODE_INDIRECT1_COUNT)
        INODE_INDIRECT1_COUNT
      else t) := by
  refine .ite (gt_usize hx (by decide)) (fun hbound => ?_) fun _ => .ret ht
  have hone : Exact (Word.add total 1) (t + 1) := .add ht rfl (by omega)
  refine hone.bind fun total htotal => ?_
  refine (groupsBeyond_exact hx hbound (by decide) ?_).bind fun level2 hlevel2 => ?_
  · exact show n + 128 < 2 ^ 64 by omega
  · have hmin := Word.toNat_min level2 (usize INODE_INDIRECT1_COUNT)
    rw [hlevel2, toNat_usize (by decide)] at hmin
    have hroom := level2_le n
    exact .add htotal hmin (by omega)

theorem addIndirect3_exact (hx : x.toNat = n) (hn : n < 2 ^ 32) (ht : total.toNat = t)
    (hlt : t < 2 ^ 62) :
    Exact (addIndirect3 x total) (if n > INDIRECT2_BOUND then
      t + 1 + (n - INDIRECT2_BOUND + INODE_INDIRECT2_COUNT - 1) / INODE_INDIRECT2_COUNT
        + (n - INDIRECT2_BOUND + INODE_INDIRECT1_COUNT - 1) / INODE_INDIRECT1_COUNT
      else t) := by
  refine .ite (gt_usize hx (by decide)) (fun hbound => ?_) fun _ => .ret ht
  have hone : Exact (Word.add total 1) (t + 1) := .add ht rfl (by omega)
  -- there are no more groups than data blocks
  have hgroups : ∀ count, 0 < count → (n - INDIRECT2_BOUND + count - 1) / count ≤ n := by
    intro count hcount
    rw [← Nat.ceilDiv_eq_add_pred_div, ceilDiv_le_iff_le_mul hcount]
    exact (Nat.sub_le ..).trans (Nat.le_mul_of_pos_left n hcount)
  have h₂ := hgroups INODE_INDIRECT2_COUNT (by decide)
  have h₁ := hgroups INODE_INDIRECT1_COUNT (by decide)
  refine hone.bind fun total htotal => ?_
  refine (groupsBeyond_exact hx hbound (by decide) ?_).bind fun subIndirect2 hsub₂ => ?_
  · exact show n + 16384 < 2 ^ 64 by omega
  have hadd : Exact (Word.add total subIndirect2) _ := .add htotal hsub₂ (by omega)
  refine hadd.bind fun total htotal => ?_
  refine (groupsBeyond_exact hx hbound (by decide) ?_).bind fun subIndirect1 hsub₁ => ?_
  · exact show n + 128 < 2 ^ 64 by omega
  exact .add htotal hsub₁ (by omega)

theorem totalBlocks_exact {size : UInt32} (h : size.toNat + 512 < 2 ^ 32) :
    Exact (Machine.totalBlocks size.toBitVec) (blocksWithIndex (blockCount size)) := by
  have hcount : blockCount size < 2 ^ 23 := by
    unfold blockCount
    omega
  refine (dataBlocksOf_exact h).bind fun blocks hblocks => ?_
  have hx : (blocks.setWidth 64).toNat = blockCount size :=
    Word.toNat_setWidth hblocks (by omega)
  refine (addIndirect1_exact hx hx (by omega)).bind fun total htotal => ?_
  refine (addIndirect2_exact hx (by omega) htotal ?_).bind fun total htotal => ?_
  · split <;> omega
  refine (addIndirect3_exact hx (by omega) htotal ?_).bind fun total htotal => ?_
  · have hroom := level2_le (blockCount size)
    split <;> split <;> omega
  refine .ret (Word.toNat_setWidth htotal (show blocksWithIndex (blockCount size) < 2 ^ 32 from ?_))
  have hcases := blocksWithIndex_cases (blockCount size)
  omega

theorem totalBlocks_eq_none {size : UInt32} (h : 2 ^ 32 ≤ size.toNat + 512) :
    Machine.totalBlocks size.toBitVec = none := by
  rw [Machine.totalBlocks, dataBlocksOf_eq_none h]
  rfl

theorem flat_dataBlocksOf (size : UInt32) (held : List Nat) (σ : Store) :
    (dataBlocksOf size).flat held σ
      = if size.toNat + 512 < 2 ^ 32 then .ok (blockCount size, σ) else .error .overflow := by
  have hcount : (size.toNat + BLOCK_SZ - 1) / BLOCK_SZ = blockCount size := by
    simp only [BLOCK_SZ, blockCount]
    omega
  rw [dataBlocksOf, flat_bind, add]
  by_cases h : size.toNat + BLOCK_SZ < 2 ^ 32
  · rw [if_pos h, if_pos (show size.toNat + 512 < 2 ^ 32 from h), ← hcount]
    rfl
  · rw [if_neg h, if_neg (show ¬ size.toNat + 512 < 2 ^ 32 from h)]
    rfl

theorem totalBlocks_flat (size : UInt32) (held : List Nat) (σ : Store) :
    (totalBlocks size).flat held σ
      = (Machine.totalBlocks size.toBitVec).elim (.error .overflow) fun t => .ok (t.toNat, σ) := by
  rw [totalBlocks, flat_bind, flat_dataBlocksOf]
  by_cases h : size.toNat + 512 < 2 ^ 32
  · obtain ⟨t, ht, hnat⟩ := totalBlocks_exact h
    rw [if_pos h, ht, Option.elim_some, hnat]
    rfl
  · rw [if_neg h, totalBlocks_eq_none (Nat.not_lt.mp h)]
    rfl

theorem sub_flat (x y : BitVec 32) (held : List Nat) (σ : Store) : (sub x.toNat y.toNat).flat held σ
    = (Word.sub x y).elim (.error .overflow) fun t => .ok (t.toNat, σ) := by
  rcases Nat.lt_or_ge x.toNat y.toNat with h | h
  · rw [sub, if_neg (Nat.not_le.mpr h), Word.sub_eq_none h]
    rfl
  · obtain ⟨t, ht, hnat⟩ : Exact (Word.sub x y) (x.toNat - y.toNat) := .sub rfl rfl h
    rw [sub, if_pos h, ht, Option.elim_some, hnat]
    rfl

theorem blocksNumNeeded_flat (d : DiskInode) {newSize : UInt32} (hle : d.size ≤ newSize)
    (held : List Nat) (σ : Store) : (d.blocksNumNeeded newSize).flat held σ
      = (Machine.blocksNumNeeded d newSize).elim (.error .overflow)
        fun t => .ok (t.toNat, σ) := by
  rw [blocksNumNeeded, Machine.blocksNumNeeded, assert, if_pos hle, if_pos hle, flat_bind]
  show (totalBlocks newSize >>= _).flat held σ = _
  rw [flat_bind, totalBlocks_flat]
  cases Machine.totalBlocks newSize.toBitVec with
  | none => rfl
  | some new =>
      show (totalBlocks d.size >>= _).flat held σ = _
      rw [flat_bind, totalBlocks_flat]
      cases Machine.totalBlocks d.size.toBitVec with
      | none => rfl
      | some old => exact sub_flat new old held σ

end Exact

end DiskInode

/-! ## What is counted -/

open DiskInode

section Accounting

variable {s s' : UInt32}

theorem blockCount_eq (s : UInt32) : blockCount s = s.toNat ⌈/⌉ BLOCK_SZ := by
  rw [Nat.ceilDiv_eq_add_pred_div]
  rfl

/-- A size that the tree has room for is far from the end of its type. -/
theorem totalBlocks_exact_of_room
    (hmax : blockCount s ≤ INDIRECT2_BOUND + INODE_INDIRECT3_COUNT) :
    Word.Exact (Machine.totalBlocks s.toBitVec) (indexTree (blockCount s)).card := by
  rw [card_indexTree hmax]
  have hmax : blockCount s ≤ 2113691 := hmax
  exact totalBlocks_exact (size_fits (by omega))

/-- `total_blocks` counts the data blocks and the index blocks of the tree that `block_id`
addresses, and `blocks_num_needed` those that growth adds. -/
theorem block_accounting (hle : s ≤ s')
    (hmax : s'.toNat ⌈/⌉ BLOCK_SZ ≤ INDIRECT2_BOUND + INODE_INDIRECT3_COUNT) :
    let n := s.toNat ⌈/⌉ BLOCK_SZ
    let n' := s'.toNat ⌈/⌉ BLOCK_SZ
    AddressedTree n (indexTree n) ∧ AddressedTree n' (indexTree n')
      ∧ (∀ p, p ∈ indexNodes n ↔ UsedIndex n p)
      ∧ ∃ t t', Machine.totalBlocks s.toBitVec = some t ∧ Machine.totalBlocks s'.toBitVec = some t'
        ∧ t.toNat = n + (indexNodes n).card
        ∧ t ≤ t'
        ∧ t'.toNat - t.toNat = (indexTree n' \ indexTree n).card
        ∧ ∀ d : DiskInode, d.size = s → ∃ k, Machine.blocksNumNeeded d s' = some k
          ∧ k.toNat = (indexTree n' \ indexTree n).card := by
  dsimp only
  rw [← blockCount_eq] at hmax
  rw [← blockCount_eq, ← blockCount_eq]
  have hcount := blockCount_mono (UInt32.le_iff_toNat_le.mp hle)
  have hmax₀ := hcount.trans hmax
  have hmono := indexTree_mono hcount
  have hcard := Finset.card_le_card hmono
  obtain ⟨t, ht, hnat⟩ := totalBlocks_exact_of_room hmax₀
  obtain ⟨t', ht', hnat'⟩ := totalBlocks_exact_of_room hmax
  refine ⟨addressedTree hmax₀, addressedTree hmax, fun p => mem_indexNodes hmax₀, t, t', ht, ht',
    ?_, ?_, ?_, ?_⟩
  · rw [hnat, card_indexTree_eq hmax₀]
  · rw [BitVec.le_def, hnat, hnat']
    exact hcard
  · rw [Finset.card_sdiff_of_subset hmono, hnat, hnat']
  · rintro d rfl
    rw [Machine.blocksNumNeeded, if_pos hle, ht, ht', Finset.card_sdiff_of_subset hmono]
    exact Word.Exact.sub hnat' hnat hcard

/-- Growth from 28 data blocks, the first with `indirect1`, to the first one under `indirect3`. -/
theorem block_accounting_28_16540 : ∃ k,
    Machine.blocksNumNeeded { DiskInode.init .file with size := 14336 } 8468480 = some k
      ∧ k.toNat = (indexTree ((8468480 : UInt32).toNat ⌈/⌉ BLOCK_SZ)
        \ indexTree ((14336 : UInt32).toNat ⌈/⌉ BLOCK_SZ)).card := by
  obtain ⟨-, -, -, t, t', -, -, -, -, -, hneeded⟩ :=
    @block_accounting 14336 8468480 (by decide) (by decide)
  exact hneeded { DiskInode.init .file with size := 14336 } rfl

end Accounting

end Nimloth
