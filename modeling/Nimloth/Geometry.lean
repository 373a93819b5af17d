import Mathlib.Tactic.Common
import Nimloth.FileSystem

/-!
# The regions of the disk

`create` computes the sizes and the starts of the five regions with
rounding divisions, and writes the sizes into the super block; `open`
computes the starts again from there. For every size of the disk and of
the inode bitmap for which the arithmetic of `create` fits its types the
regions follow each other without a gap up to the last block, and every
inode number of the bitmap has a slot of its own in the inode area.
-/

namespace Nimloth

open BlockProg

/-- A range of blocks, by its first block and its length. -/
structure Region where
  start : Nat
  blocks : Nat

namespace Region

def Mem (r : Region) (id : Nat) : Prop := r.start ≤ id ∧ id < r.start + r.blocks

/-- The regions follow each other from `start` to `stop`. -/
def Consecutive : Nat → Nat → List Region → Prop
  | start, stop, [] => start = stop
  | start, stop, r :: rs => r.start = start ∧ Consecutive (r.start + r.blocks) stop rs

theorem Consecutive.le {start stop : Nat} {rs : List Region} (h : Consecutive start stop rs) :
    start ≤ stop := by
  induction rs generalizing start with
  | nil => exact Nat.le_of_eq h
  | cons r rs ih =>
      obtain ⟨hr, hrs⟩ := h
      have := ih hrs
      omega

/-- Consecutive regions cover what lies between their ends. -/
theorem Consecutive.cover {start stop : Nat} {rs : List Region} (h : Consecutive start stop rs)
    (id : Nat) : (∃ r ∈ rs, r.Mem id) ↔ start ≤ id ∧ id < stop := by
  induction rs generalizing start with
  | nil =>
      have : start = stop := h
      simp only [List.not_mem_nil, false_and, exists_false, false_iff]
      omega
  | cons r rs ih =>
      obtain ⟨hr, hrs⟩ := h
      have hle := hrs.le
      have hrest := ih hrs
      rw [List.exists_mem_cons_iff, hrest]
      unfold Mem
      omega

theorem Consecutive.pairwise {start stop : Nat} {rs : List Region}
    (h : Consecutive start stop rs) :
    rs.Pairwise fun r r' => ∀ id, r.Mem id → ¬ r'.Mem id := by
  induction rs generalizing start with
  | nil => exact .nil
  | cons r rs ih =>
      obtain ⟨-, hrs⟩ := h
      refine .cons ?_ (ih hrs)
      intro r' hr' id hid hid'
      have := (hrs.cover id).mp ⟨r', hr', hid'⟩
      have := hid.2
      omega

end Region

namespace BlockManager

/-- The arithmetic of `create`, on numbers without a bound: no sum or cast
leaves `u32`, no difference is negative. -/
structure CreateFits (total ibb : Nat) : Prop where
  cast : ((Bitmap.mk 1 ibb).maximum * 128 + BLOCK_SZ - 1) / BLOCK_SZ < 2 ^ 32
  inodeTotal : ibb + ((Bitmap.mk 1 ibb).maximum * 128 + BLOCK_SZ - 1) / BLOCK_SZ < 2 ^ 32
  dataTotal : 1 + (ibb + ((Bitmap.mk 1 ibb).maximum * 128 + BLOCK_SZ - 1) / BLOCK_SZ) ≤ total
  rounding : total - 1 - (ibb + ((Bitmap.mk 1 ibb).maximum * 128 + BLOCK_SZ - 1) / BLOCK_SZ) + 4096
    < 2 ^ 32

/-- The regions of a disk: the starts as the manager has them, the sizes as the
super block has them. -/
def regions (mgr : BlockManager) (sb : SuperBlock) : List Region :=
  [⟨0, 1⟩,
   ⟨mgr.inodeBitmap.startBlockId, sb.inodeBitmapBlocks.toNat⟩,
   ⟨mgr.inodeAreaStartBlock, sb.inodeAreaBlocks.toNat⟩,
   ⟨mgr.dataBitmap.startBlockId, sb.dataBitmapBlocks.toNat⟩,
   ⟨mgr.dataAreaStartBlock, sb.dataAreaBlocks.toNat⟩]

/-- The inode numbers that the inode bitmap can hand out. -/
def InodeId (mgr : BlockManager) (id : UInt32) : Prop :=
  ∃ k, k < mgr.inodeBitmap.maximum ∧ id = UInt32.ofNat k

/-- Two 128-byte slots, by block and offset, without a common byte. -/
def SlotsApart (p q : Nat × Nat) : Prop := p.1 ≠ q.1 ∨ p.2 + 128 ≤ q.2 ∨ q.2 + 128 ≤ p.2

/-- The geometry of a disk of `total` blocks. -/
structure Geometry (mgr : BlockManager) (total : Nat) (σ : Store) : Prop where
  sizes : mgr.inodeBitmap.blocks = (SuperBlock.load (σ 0)).inodeBitmapBlocks.toNat
    ∧ mgr.dataBitmap.blocks = (SuperBlock.load (σ 0)).dataBitmapBlocks.toNat
  consecutive : Region.Consecutive 0 total (mgr.regions (SuperBlock.load (σ 0)))
  disjoint : (mgr.regions (SuperBlock.load (σ 0))).Pairwise fun r r' =>
    ∀ id, r.Mem id → ¬ r'.Mem id
  cover : ∀ id, (∃ r ∈ mgr.regions (SuperBlock.load (σ 0)), r.Mem id) ↔ id < total
  reopen : BlockManager.open.flat [] σ = .ok (mgr, σ)
  dataBits : ∀ id, mgr.dataAreaStartBlock ≤ id → id < total →
    id - mgr.dataAreaStartBlock < mgr.dataBitmap.maximum
  handed : ∀ σ₁ σ₂ id, mgr.allocInode.flat [] σ₁ = .ok (id, σ₂) → mgr.InodeId id
  slot : ∀ id, mgr.InodeId id → ∃ pos, (mgr.diskInodePos id).flat [] σ = .ok (pos, σ)
    ∧ mgr.inodeAreaStartBlock ≤ pos.1
    ∧ pos.1 < mgr.inodeAreaStartBlock + (SuperBlock.load (σ 0)).inodeAreaBlocks.toNat
    ∧ pos.2 + 128 ≤ BLOCK_SZ
  apart : ∀ id id' pos pos', mgr.InodeId id → mgr.InodeId id' → id ≠ id' →
    (mgr.diskInodePos id).flat [] σ = .ok (pos, σ) →
    (mgr.diskInodePos id').flat [] σ = .ok (pos', σ) → SlotsApart pos pos'

variable {mgr : BlockManager} {total ibb : Nat} {σ : Store}

theorem CreateFits.bounds (h : CreateFits total ibb) :
    1 + ibb * 1025 ≤ total ∧ total - 1 - ibb * 1025 + 4096 < 2 ^ 32 := by
  obtain ⟨hcast, hinode, hdata, hround⟩ := h
  simp only [Bitmap.maximum, BLOCK_BITS, BLOCK_SZ] at hdata hround
  omega

/-- The sizes in the super block. -/
theorem Described.sizes (hl : mgr.Layout total ibb) (hd : mgr.Described total ibb σ) :
    (SuperBlock.load (σ 0)).inodeBitmapBlocks.toNat = ibb
      ∧ (SuperBlock.load (σ 0)).inodeAreaBlocks.toNat = ibb * 1024
      ∧ (SuperBlock.load (σ 0)).dataBitmapBlocks.toNat = mgr.dataBitmap.blocks
      ∧ (SuperBlock.load (σ 0)).dataAreaBlocks.toNat = total - mgr.dataAreaStartBlock := by
  have hfits := hl.fits
  have htotal := hl.total_lt
  have hblocks := hl.blocks.1
  unfold Described at hd
  rw [hd]
  simp only [SuperBlock.init, UInt32.toNat_ofNat']
  refine ⟨Nat.mod_eq_of_lt ?_, Nat.mod_eq_of_lt ?_, Nat.mod_eq_of_lt ?_, Nat.mod_eq_of_lt ?_⟩
  all_goals omega

theorem Layout.consecutive (hl : mgr.Layout total ibb) (hd : mgr.Described total ibb σ) :
    Region.Consecutive 0 total (mgr.regions (SuperBlock.load (σ 0))) := by
  obtain ⟨hib, hia, hdb, hda⟩ := hd.sizes hl
  obtain ⟨-, hstart, hle⟩ := hl.blocks
  have hone : mgr.inodeBitmap.startBlockId = 1 := by rw [hl.inodeBitmap]
  have harea := hl.inodeArea
  have hdata := hl.dataArea
  simp only [regions, Region.Consecutive, hib, hia, hdb, hda, true_and]
  omega

theorem InodeId.lt {id : UInt32} (h : mgr.InodeId id) :
    id.toNat < mgr.inodeBitmap.blocks * 4096 := by
  obtain ⟨k, hk, rfl⟩ := h
  simp only [Bitmap.maximum, BLOCK_BITS, BLOCK_SZ] at hk
  rw [UInt32.toNat_ofNat']
  exact Nat.lt_of_le_of_lt (Nat.mod_le _ _) hk

/-- `alloc_inode` hands out the numbers of the bitmap. -/
theorem allocInode_inodeId {σ₁ σ₂ : Store} {id : UInt32}
    (h : mgr.allocInode.flat [] σ₁ = .ok (id, σ₂)) : mgr.InodeId id := by
  have hpost : Ensures mgr.allocInode [] σ₁ fun id _ => mgr.InodeId id := by
    unfold allocInode
    rw [Ensures, Post.bind_iff]
    refine (Post.of_returns (mgr.inodeBitmap.alloc_spec (by simp))).mono ?_
    intro r σ' hr
    cases r with
    | none => simp
    | some k =>
        simp only [Post.bind_iff, Post.unwrap_some, Post.pure_iff]
        exact ⟨k, hr.1, rfl⟩
  exact hpost.ok h

/-- The position of an inode of the bitmap. -/
theorem Layout.diskInodePos_flat (hl : mgr.Layout total ibb) {id : UInt32} (h : mgr.InodeId id) :
    (mgr.diskInodePos id).flat [] σ
      = .ok (((mgr.inode id.toNat).blockId, (mgr.inode id.toNat).blockOffset), σ) := by
  have hpost : Returns (mgr.diskInodePos id) [] σ fun pos σ' =>
      pos = ((mgr.inode id.toNat).blockId, (mgr.inode id.toNat).blockOffset) ∧ σ' = σ :=
    (diskInodePos_iff hl h.lt).mpr ⟨rfl, rfl⟩
  obtain ⟨pos, σ', hrun, rfl, rfl⟩ := hpost.exists_ok
  exact hrun

theorem Created.geometry (h : mgr.Created total ibb σ) : mgr.Geometry total σ := by
  have hl := h.layout
  obtain ⟨hib, hia, hdb, -⟩ := h.described.sizes hl
  have hchain := hl.consecutive h.described
  refine ⟨⟨?_, hdb.symm⟩, hchain, hchain.pairwise, ?_, open_spec hl h.described (by simp), ?_,
    fun _ _ _ => allocInode_inodeId, ?_, ?_⟩
  · rw [hib, hl.inodeBitmap]
  · intro id
    rw [hchain.cover id]
    omega
  · intro id hge hlt
    have := hl.bits.1
    simp only [Bitmap.maximum, BLOCK_BITS, BLOCK_SZ]
    omega
  · intro id hid
    refine ⟨_, hl.diskInodePos_flat hid, ?_, ?_, mgr.inode_fits _⟩
    · rw [hl.inodeArea]
      exact (hl.inode_lt hid.lt).1
    · have hlt := (hl.inode_lt hid.lt).2
      have hstart := hl.blocks.2.1
      have harea := hl.inodeArea
      rw [hia]
      omega
  · intro id id' pos pos' hid hid' hne hpos hpos'
    rw [hl.diskInodePos_flat hid] at hpos
    rw [hl.diskInodePos_flat hid'] at hpos'
    cases hpos
    cases hpos'
    have hne' : id.toNat ≠ id'.toNat := fun heq => hne (UInt32.toNat_inj.mp heq)
    simp only [SlotsApart, BlockManager.inode]
    omega

end BlockManager

open BlockManager

/-- Whenever its arithmetic fits, `create` returns a disk whose regions are
consecutive and end with it, which `open` finds again, and on which inodes do
not overlap. -/
theorem create_geometry {total ibb : UInt32} (hpos : 0 < ibb.toNat)
    (hfits : CreateFits total.toNat ibb.toNat) (σ₀ : Store) :
    ∃ mgr σ, (create total ibb).flat [] σ₀ = .ok (mgr, σ) ∧ mgr.Geometry total.toNat σ := by
  obtain ⟨hinode, hdata⟩ := hfits.bounds
  obtain ⟨mgr, σ, hrun, hcreated⟩ := create_returns hpos hinode hdata σ₀
  exact ⟨mgr, σ, hrun, hcreated.geometry⟩

/-- The disk of the file system test. -/
theorem create_geometry_4096 :
    ∃ mgr σ, (create 4096 1).flat [] (fun _ => Block.zero) = .ok (mgr, σ)
      ∧ mgr.Geometry 4096 σ :=
  @create_geometry 4096 1 (by decide) ⟨by decide, by decide, by decide, by decide⟩ fun _ => Block.zero

end Nimloth
