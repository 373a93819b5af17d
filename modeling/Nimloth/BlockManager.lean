import Mathlib.Tactic.Common
import Nimloth.Runs
import Nimloth.Bitmap
import Nimloth.Layout

/-!
# The block manager

`components/src/micro_fs/mfs.rs`. `create` lays the disk out as super
block, inode bitmap, inode area, data bitmap and data area; `open` finds
the same layout again in the super block. Inodes and data blocks are
handed out by the two bitmaps.

The data bitmap is `⌈n / 4097⌉` blocks large for the `n` blocks it shares
with the data area, and `alloc_data` searches all of its bits. It has a
bit for every block of the data area, and no other bit exactly if `n` is
a multiple of 4097: otherwise the last blocks handed out lie beyond the
end of the disk.
-/

namespace Nimloth

open BlockProg

structure BlockManager where
  inodeBitmap : Bitmap
  dataBitmap : Bitmap
  inodeAreaStartBlock : Nat
  dataAreaStartBlock : Nat
  deriving DecidableEq

namespace BlockManager

/-- `disk_inode_pos`. -/
def diskInodePos (mgr : BlockManager) (inodeId : UInt32) : BlockProg (Nat × Nat) := do
  let blockId ← add (2 ^ 32) mgr.inodeAreaStartBlock (inodeId.toNat / 4)
  pure (blockId, inodeId.toNat % 4 * 128)

/-- `alloc_inode`. -/
def allocInode (mgr : BlockManager) : BlockProg UInt32 := do
  let k ← mgr.inodeBitmap.alloc
  let k ← unwrap k
  pure (UInt32.ofNat k)

/-- `alloc_data`. -/
def allocData (mgr : BlockManager) : BlockProg UInt32 := do
  let k ← mgr.dataBitmap.alloc
  let k ← unwrap k
  let id ← add (2 ^ 32) (k % 2 ^ 32) mgr.dataAreaStartBlock
  pure (UInt32.ofNat id)

/-- `dealloc_data`. -/
def deallocData (mgr : BlockManager) (blockId : UInt32) : BlockProg Unit := do
  modifyBlock blockId.toNat fun _ => pure ((), Block.zero)
  let k ← sub blockId.toNat mgr.dataAreaStartBlock
  mgr.dataBitmap.dealloc k

/-- The loop of `create` over all blocks. -/
def clearBlocks : List Nat → BlockProg Unit
  | [] => pure ()
  | i :: is => do
      modifyBlock i fun _ => pure ((), Block.zero)
      clearBlocks is

/-- The cast of the size of the inode area to `u32`. -/
def inodeAreaBlocks (inodeBitmapBlocks : Nat) : Nat :=
  ((Bitmap.mk 1 inodeBitmapBlocks).maximum * 128 + BLOCK_SZ - 1) / BLOCK_SZ % 2 ^ 32

/-- The part of `create` that writes the disk. -/
def format (mfs : BlockManager) (totalBlocks inodeBitmapBlocks : UInt32)
    (inodeAreaBlocks dataBitmapBlocks dataAreaBlocks : Nat) : BlockProg Unit := do
  clearBlocks (List.range totalBlocks.toNat)
  modifyBlock 0 fun b => pure ((), (SuperBlock.init totalBlocks inodeBitmapBlocks
    (UInt32.ofNat inodeAreaBlocks) (UInt32.ofNat dataBitmapBlocks)
    (UInt32.ofNat dataAreaBlocks)).store b)
  let root ← mfs.allocInode
  assert (root = 0)
  let (rootInodeBlockId, rootInodeOffset) ← mfs.diskInodePos 0
  modifyBlock rootInodeBlockId fun b =>
    pure ((), (DiskInode.init .dir).store b rootInodeOffset)
  blockCacheSyncAll

/-- `BlockManager::create`. -/
def create (totalBlocks inodeBitmapBlocks : UInt32) : BlockProg BlockManager := do
  let inodeBitmap := Bitmap.mk 1 inodeBitmapBlocks.toNat
  let inodeAreaBlocks := inodeAreaBlocks inodeBitmapBlocks.toNat
  let inodeTotalBlocks ← add (2 ^ 32) inodeBitmapBlocks.toNat inodeAreaBlocks
  let n ← sub totalBlocks.toNat 1
  let dataTotalBlocks ← sub n inodeTotalBlocks
  let n ← add (2 ^ 32) dataTotalBlocks 4096
  let dataBitmapBlocks := n / 4097
  let dataAreaBlocks ← sub dataTotalBlocks dataBitmapBlocks
  let dataBitmapStart ← add (2 ^ 32) 1 inodeTotalBlocks
  let inodeAreaStartBlock ← add (2 ^ 32) 1 inodeBitmapBlocks.toNat
  let dataAreaStartBlock ← add (2 ^ 32) dataBitmapStart dataBitmapBlocks
  let mfs : BlockManager :=
    ⟨inodeBitmap, ⟨dataBitmapStart, dataBitmapBlocks⟩, inodeAreaStartBlock, dataAreaStartBlock⟩
  mfs.format totalBlocks inodeBitmapBlocks inodeAreaBlocks dataBitmapBlocks dataAreaBlocks
  pure mfs

/-- `BlockManager::open`. -/
def «open» : BlockProg BlockManager :=
  readBlock 0 fun b => do
    let superBlock := SuperBlock.load b
    assert superBlock.valid
    let inodeTotalBlocks ←
      add (2 ^ 32) superBlock.inodeBitmapBlocks.toNat superBlock.inodeAreaBlocks.toNat
    let dataBitmapStart ← add (2 ^ 32) 1 inodeTotalBlocks
    let inodeAreaStartBlock ← add (2 ^ 32) 1 superBlock.inodeBitmapBlocks.toNat
    let dataAreaStartBlock ← add (2 ^ 32) dataBitmapStart superBlock.dataBitmapBlocks.toNat
    pure ⟨⟨1, superBlock.inodeBitmapBlocks.toNat⟩,
      ⟨dataBitmapStart, superBlock.dataBitmapBlocks.toNat⟩, inodeAreaStartBlock, dataAreaStartBlock⟩

/-! ## The layout -/

/-- The number of blocks after the inode area. -/
def dataTotalBlocks (totalBlocks inodeBitmapBlocks : UInt32) : Nat :=
  totalBlocks.toNat - 1 - (inodeBitmapBlocks.toNat + inodeAreaBlocks inodeBitmapBlocks.toNat)

theorem inodeAreaBlocks_eq {n : Nat} (h : n * 1024 < 2 ^ 32) : inodeAreaBlocks n = n * 1024 := by
  unfold inodeAreaBlocks Bitmap.maximum
  simp only [BLOCK_BITS, BLOCK_SZ]
  omega

/-- The manager of a disk of `total` blocks whose inode bitmap takes `ibb` of
them. -/
structure Layout (mgr : BlockManager) (total ibb : Nat) : Prop where
  inodeBitmap : mgr.inodeBitmap = ⟨1, ibb⟩
  dataBitmap : mgr.dataBitmap = ⟨1 + ibb * 1025, (total - 1 - ibb * 1025 + 4096) / 4097⟩
  inodeArea : mgr.inodeAreaStartBlock = 1 + ibb
  dataArea : mgr.dataAreaStartBlock = 1 + ibb * 1025 + mgr.dataBitmap.blocks
  fits : 1 + ibb * 1025 ≤ total
  total_lt : total < 2 ^ 32
  fits_data : total - 1 - ibb * 1025 + 4096 < 2 ^ 32

/-- The super block on the disk describes the manager. -/
def Described (mgr : BlockManager) (total ibb : Nat) (σ : Store) : Prop :=
  SuperBlock.load (σ 0) = SuperBlock.init (UInt32.ofNat total) (UInt32.ofNat ibb)
    (UInt32.ofNat (ibb * 1024)) (UInt32.ofNat mgr.dataBitmap.blocks)
    (UInt32.ofNat (total - mgr.dataAreaStartBlock))

/-- A freshly created file system: the root directory is the one inode, and
every block after the inode area is zero. -/
structure Created (mgr : BlockManager) (total ibb : Nat) (σ : Store) : Prop where
  layout : mgr.Layout total ibb
  pos : 0 < ibb
  described : mgr.Described total ibb σ
  inode : ∀ k, k < ibb * 4096 → mgr.inodeBitmap.bit σ k = decide (k = 0)
  root : DiskInode.load (σ (1 + ibb)) 0 = DiskInode.init .dir
  zero : ∀ id, 1 + ibb * 1025 ≤ id → id < total → σ id = Block.zero

theorem clearBlocks_spec (is : List Nat) (σ : Store) :
    Returns (clearBlocks is) [] σ fun _ σ' =>
      ∀ id, σ' id = if id ∈ is then Block.zero else σ id := by
  induction is generalizing σ with
  | nil =>
      rw [clearBlocks, Returns, Post.pure_iff]
      intro id
      simp
  | cons i is ih =>
      rw [clearBlocks, Returns, Post.bind_iff, Post.modify_iff (by simp), Post.pure_iff]
      apply (ih _).mono
      intro _ σ' h id
      rw [h id]
      by_cases hid : id = i
      · simp [hid]
      · simp [hid]

theorem Layout.blocks {mgr : BlockManager} {total ibb : Nat} (h : mgr.Layout total ibb) :
    mgr.dataBitmap.blocks = (total - 1 - ibb * 1025 + 4096) / 4097
      ∧ mgr.dataBitmap.startBlockId = 1 + ibb * 1025 ∧ mgr.dataAreaStartBlock ≤ total := by
  have hb := h.dataArea
  have hfits := h.fits
  rw [h.dataBitmap] at hb ⊢
  refine ⟨rfl, rfl, ?_⟩
  rw [hb]
  dsimp only
  omega

theorem format_spec {E : FsErr → Prop} {mgr : BlockManager} {total ibb : UInt32} {σ : Store}
    (hl : mgr.Layout total.toNat ibb.toNat) (hE : E .panic ∨ 0 < ibb.toNat) :
    Post E (mgr.format total ibb (ibb.toNat * 1024) mgr.dataBitmap.blocks
      (total.toNat - mgr.dataAreaStartBlock)) [] σ fun _ σ' =>
        mgr.Created total.toNat ibb.toNat σ' ∧ ∀ id, total.toNat ≤ id → σ' id = σ id := by
  have hfits := hl.fits
  have hib : mgr.inodeBitmap.blocks = ibb.toNat := by rw [hl.inodeBitmap]
  have his : mgr.inodeBitmap.startBlockId = 1 := by rw [hl.inodeBitmap]
  rw [format, Post.bind_iff]
  apply (Post.of_returns (clearBlocks_spec _ σ)).mono
  intro _ σ₁ h₁
  rw [Post.bind_iff, Post.modify_iff (by simp), Post.pure_iff, Post.bind_iff]
  generalize hsb : SuperBlock.init total ibb (UInt32.ofNat (ibb.toNat * 1024))
    (UInt32.ofNat mgr.dataBitmap.blocks)
    (UInt32.ofNat (total.toNat - mgr.dataAreaStartBlock)) = sb
  set σ₂ := Function.update σ₁ 0 (sb.store (σ₁ 0)) with hσ₂
  have hzero : ∀ id, 0 < id → id < total.toNat → σ₂ id = Block.zero := by
    intro id hid hlt
    rw [hσ₂, Function.update_of_ne (by omega), h₁, if_pos (List.mem_range.mpr hlt)]
  have hclear : ∀ k, k < ibb.toNat * 4096 → mgr.inodeBitmap.bit σ₂ k = false := by
    intro k hk
    unfold Bitmap.bit
    rw [his, hzero _ (by omega) (by omega), Block.bit_zero]
  unfold allocInode
  rw [Post.bind_iff]
  apply (Post.of_returns (mgr.inodeBitmap.alloc_spec (by simp))).mono
  intro r σ₃ hr
  cases r with
  | none =>
      rcases hE with hE | hpos
      · simpa using hE
      · have := hr.2 0 (by rw [hib]; omega)
        rw [hclear 0 (by omega)] at this
        cases this
  | some k =>
      obtain ⟨hlt, -, hbefore, hsets⟩ := hr
      rw [hib] at hlt
      have hk : k = 0 := by
        by_contra hne
        have := hbefore 0 (by omega)
        rw [hclear 0 (by omega)] at this
        cases this
      subst hk
      have hframe : ∀ id, id ≠ 1 → σ₃ id = σ₂ id := by
        intro id hid
        apply hsets.frame
        rw [his]
        simpa using hid
      have hadd : 1 + ibb.toNat < 2 ^ 32 := by
        have := hl.total_lt
        omega
      simp only [Post.bind_iff, Post.unwrap_some, Post.pure_iff, Post.assert_iff, diskInodePos,
        Post.add_iff, hl.inodeArea]
      refine ⟨?_, fun h => absurd rfl h⟩
      intro _
      refine ⟨?_, fun h => absurd h (by simpa using hadd)⟩
      intro _
      rw [Post.modify_iff (by simp), Post.pure_iff, Post.syncAll_iff]
      refine ⟨⟨hl, by omega, ?_, ?_, ?_, ?_⟩, ?_⟩
      · unfold Described
        rw [Function.update_of_ne (by simp; omega), hframe 0 (by omega), hσ₂, Function.update_self,
          SuperBlock.load_store, ← hsb]
        simp
      · intro k hk
        have hne : k / 4096 + mgr.inodeBitmap.startBlockId ≠ 1 + ibb.toNat := by omega
        have hbit := hsets.bit k
        rw [hclear k hk] at hbit
        unfold Bitmap.bit at hbit ⊢
        rw [Function.update_of_ne (by simpa using hne), hbit]
        by_cases h0 : k = 0
        · simp [h0]
        · simp [h0]
      · simp only [UInt32.toNat_zero, Nat.zero_div, Nat.add_zero, Nat.zero_mod, Nat.zero_mul,
          Function.update_self]
        exact DiskInode.load_store _ _ (by simp [BLOCK_SZ])
      · intro id hid hlt
        rw [Function.update_of_ne (by simp; omega), hframe id (by omega), hzero id (by omega) hlt]
      · intro id hid
        rw [Function.update_of_ne (by simp; omega), hframe id (by omega), hσ₂,
          Function.update_of_ne (by omega), h₁, if_neg (by simpa using hid)]

/-- `create` returns exactly if its arithmetic fits and there is an inode. -/
theorem create_spec {E : FsErr → Prop} {total ibb : UInt32} (hfit : ibb.toNat * 1024 < 2 ^ 32)
    (hE : E .overflow ∨ (1 + ibb.toNat * 1025 ≤ total.toNat
      ∧ total.toNat - 1 - ibb.toNat * 1025 + 4096 < 2 ^ 32))
    (hE' : E .panic ∨ 0 < ibb.toNat) (σ : Store) :
    Post E (create total ibb) [] σ fun mgr σ' =>
      mgr.Created total.toNat ibb.toNat σ' ∧ ∀ id, total.toNat ≤ id → σ' id = σ id := by
  have harea := inodeAreaBlocks_eq hfit
  have htotal := total.toNat_lt
  simp only [create, harea, Post.bind_iff, Post.add_iff, Post.sub_iff, Post.pure_iff]
  refine ⟨?_, fun h => hE.resolve_right (by omega)⟩
  intro h₁
  refine ⟨?_, fun h => hE.resolve_right (by omega)⟩
  intro h₂
  refine ⟨?_, fun h => hE.resolve_right (by omega)⟩
  intro h₃
  refine ⟨?_, fun h => hE.resolve_right (by omega)⟩
  intro h₄
  refine ⟨?_, fun h => hE.resolve_right (by omega)⟩
  intro h₅
  refine ⟨?_, fun h => hE.resolve_right (by omega)⟩
  intro h₆
  refine ⟨?_, fun h => hE.resolve_right (by omega)⟩
  intro h₇
  refine ⟨?_, fun h => hE.resolve_right (by omega)⟩
  intro h₈
  have hsum : ibb.toNat + ibb.toNat * 1024 = ibb.toNat * 1025 := by omega
  simp only [hsum] at h₁ h₂ h₃ h₄ h₅ h₆ h₇ h₈ ⊢
  generalize hmgr : (⟨⟨1, ibb.toNat⟩, ⟨1 + ibb.toNat * 1025,
    (total.toNat - 1 - ibb.toNat * 1025 + 4096) / 4097⟩, 1 + ibb.toNat,
    1 + ibb.toNat * 1025 + (total.toNat - 1 - ibb.toNat * 1025 + 4096) / 4097⟩ : BlockManager) = mgr
  have hl : mgr.Layout total.toNat ibb.toNat := by
    subst hmgr
    exact ⟨rfl, rfl, rfl, rfl, by omega, htotal, h₄⟩
  have hblocks : mgr.dataBitmap.blocks = (total.toNat - 1 - ibb.toNat * 1025 + 4096) / 4097 :=
    hl.blocks.1
  have harea : total.toNat - 1 - ibb.toNat * 1025
      - (total.toNat - 1 - ibb.toNat * 1025 + 4096) / 4097
        = total.toNat - mgr.dataAreaStartBlock := by
    rw [hl.dataArea, hblocks]
    omega
  rw [harea, ← hblocks]
  exact format_spec hl hE'

theorem created_of_create {total ibb : UInt32} {mgr : BlockManager} {σ₀ σ : Store}
    (hfit : ibb.toNat * 1024 < 2 ^ 32) (h : (create total ibb).flat [] σ₀ = .ok (mgr, σ)) :
    mgr.Created total.toNat ibb.toNat σ :=
  ((create_spec (E := fun _ => True) hfit (.inl trivial) (.inl trivial) σ₀).ok h).1

/-- What lies behind the blocks of the file system is left. -/
theorem create_frame {total ibb : UInt32} {mgr : BlockManager} {σ₀ σ : Store}
    (hfit : ibb.toNat * 1024 < 2 ^ 32) (h : (create total ibb).flat [] σ₀ = .ok (mgr, σ)) {id : Nat}
    (hid : total.toNat ≤ id) : σ id = σ₀ id :=
  ((create_spec (E := fun _ => True) hfit (.inl trivial) (.inl trivial) σ₀).ok h).2 id hid

/-- `open` finds the manager that `create` returned. -/
theorem open_spec {mgr : BlockManager} {total ibb : Nat} {held : List Nat} {σ : Store}
    (hl : mgr.Layout total ibb) (hd : mgr.Described total ibb σ) (hheld : 0 ∉ held) :
    BlockManager.open.flat held σ = .ok (mgr, σ) := by
  have hfits := hl.fits
  have htotal := hl.total_lt
  obtain ⟨hblocks, hstart, hle⟩ := hl.blocks
  have harea := hl.dataArea
  have hmod : ∀ n, n ≤ total → n % 2 ^ 32 = n := by
    intro n hn
    exact Nat.mod_eq_of_lt (by omega)
  have hpost : Returns BlockManager.open held σ fun m σ' => m = mgr ∧ σ' = σ := by
    unfold BlockManager.open Described at *
    rw [Returns, Post.read_iff hheld, hd]
    rw [Post.bind_iff, Post.assert_iff]
    refine ⟨?_, by simp [SuperBlock.valid, SuperBlock.init]⟩
    intro _
    simp only [Post.bind_iff, SuperBlock.init, Post.add_iff, Post.pure_iff,
      UInt32.toNat_ofNat', hmod ibb (by omega), hmod (ibb * 1024) (by omega),
      hmod mgr.dataBitmap.blocks (by omega)]
    refine ⟨?_, by omega⟩
    intro _
    refine ⟨?_, by omega⟩
    intro _
    refine ⟨?_, by omega⟩
    intro _
    refine ⟨?_, by omega⟩
    intro _
    refine ⟨?_, trivial⟩
    have hsum : 1 + (ibb + ibb * 1024) = 1 + ibb * 1025 := by omega
    have hib := hl.inodeBitmap
    have hia := hl.inodeArea
    have hdb : mgr.dataBitmap = ⟨1 + ibb * 1025, mgr.dataBitmap.blocks⟩ := by rw [← hstart]
    rw [hsum, ← hdb, ← harea, ← hib, ← hia]
  obtain ⟨m, σ', hrun, rfl, rfl⟩ := hpost.exists_ok
  exact hrun

/-! ## Handing out data blocks -/

/-- `alloc_data` takes the first clear bit, and panics without one. -/
theorem allocData_spec {mgr : BlockManager} {total ibb : Nat} {E : FsErr → Prop} {held : List Nat}
    {σ : Store} (hl : mgr.Layout total ibb)
    (hheld : ∀ i, i < mgr.dataBitmap.blocks → i + mgr.dataBitmap.startBlockId ∉ held)
    (hE : (∀ j, j < mgr.dataBitmap.blocks * 4096 → mgr.dataBitmap.bit σ j = true) → E .panic)
    (hE' : ∀ k, k < mgr.dataBitmap.blocks * 4096 → mgr.dataBitmap.bit σ k = false →
      (∀ j, j < k → mgr.dataBitmap.bit σ j = true) → 2 ^ 32 ≤ mgr.dataAreaStartBlock + k →
        E .overflow) :
    Post E mgr.allocData held σ fun id σ' => mgr.dataAreaStartBlock ≤ id.toNat
      ∧ mgr.dataBitmap.Allocated σ (some (id.toNat - mgr.dataAreaStartBlock)) σ' := by
  obtain ⟨hblocks, -, hle⟩ := hl.blocks
  have hfits := hl.fits_data
  unfold allocData
  rw [Post.bind_iff]
  apply (Post.of_returns (mgr.dataBitmap.alloc_spec hheld)).mono
  intro r σ' hr
  cases r with
  | none => simpa using hE hr.2
  | some k =>
      obtain ⟨hk, hclear, hbefore, -⟩ := id hr
      have hmod : k % 2 ^ 32 = k := Nat.mod_eq_of_lt (by omega)
      simp only [Post.bind_iff, Post.unwrap_some, Post.add_iff, Post.pure_iff, hmod]
      refine ⟨?_, fun h => hE' k hk hclear hbefore (by omega)⟩
      intro hlt
      have hid : (UInt32.ofNat (k + mgr.dataAreaStartBlock)).toNat = k + mgr.dataAreaStartBlock := by
        rw [UInt32.toNat_ofNat', Nat.mod_eq_of_lt hlt]
      rw [hid, Nat.add_sub_cancel]
      exact ⟨by omega, hr⟩

end BlockManager

/-- Calls on a block manager and the ids they return or take. -/
inductive AllocEvent where
  | allocData (id : UInt32)
  | deallocData (id : UInt32)
  | «open»

open BlockManager in
inductive AllocStep : BlockManager × Store → AllocEvent → BlockManager × Store → Prop
  | allocData {mgr : BlockManager} {σ σ' : Store} {id : UInt32}
      (h : mgr.allocData.flat [] σ = .ok (id, σ')) : AllocStep (mgr, σ) (.allocData id) (mgr, σ')
  | deallocData {mgr : BlockManager} {σ σ' : Store} {id : UInt32}
      (h : (mgr.deallocData id).flat [] σ = .ok ((), σ')) :
      AllocStep (mgr, σ) (.deallocData id) (mgr, σ')
  | open {mgr mgr' : BlockManager} {σ σ' : Store}
      (h : BlockManager.open.flat [] σ = .ok (mgr', σ')) : AllocStep (mgr, σ) .open (mgr', σ')

/-- A call's effect on the ids handed out and not given back. -/
def AllocEvent.use (ids : List UInt32) : AllocEvent → List UInt32
  | .allocData id => id :: ids
  | .deallocData id => ids.filter (· ≠ id)
  | .open => ids

def inUse (tr : List AllocEvent) : List UInt32 := tr.foldl AllocEvent.use []

/-- In every run the ids handed out are on the disk, and with the whole data
area in use the next call panics. -/
def StaysOnDisk (total : Nat) (init : BlockManager × Store) : Prop :=
  ∀ tr s, Runs AllocStep init tr s →
    (∀ id, .allocData id ∈ tr → init.1.dataAreaStartBlock ≤ id.toNat ∧ id.toNat < total)
    ∧ ((∀ id : UInt32, init.1.dataAreaStartBlock ≤ id.toNat → id.toNat < total → id ∈ inUse tr) →
      s.1.allocData.flat [] s.2 = .error .panic)

namespace BlockManager

variable {mgr : BlockManager} {total ibb : Nat} {σ σ' : Store}

/-- The bits of the data bitmap tell the blocks in use. -/
structure AllocInv (mgr : BlockManager) (total ibb : Nat) (ids : List UInt32) (σ : Store) :
    Prop where
  described : mgr.Described total ibb σ
  bit : ∀ k, k < mgr.dataBitmap.blocks * 4096 →
    (mgr.dataBitmap.bit σ k = true ↔ ∃ id ∈ ids, id.toNat = mgr.dataAreaStartBlock + k)

theorem Created.dataBit (h : mgr.Created total ibb σ) {k : Nat}
    (hk : k < mgr.dataBitmap.blocks * 4096) : mgr.dataBitmap.bit σ k = false := by
  obtain ⟨-, hstart, hle⟩ := h.layout.blocks
  have harea := h.layout.dataArea
  unfold Bitmap.bit
  rw [h.zero _ (by omega) (by omega), Block.bit_zero]

theorem AllocInv.created (h : mgr.Created total ibb σ) : AllocInv mgr total ibb [] σ where
  described := h.described
  bit k hk := by simp [h.dataBit hk]

/-- A change of one bit of the data bitmap leaves the super block. -/
theorem Described.sets {k : Nat} {v : Bool} (hl : mgr.Layout total ibb)
    (hd : mgr.Described total ibb σ) (hs : mgr.dataBitmap.Sets σ σ' k v) :
    mgr.Described total ibb σ' := by
  have hstart := hl.blocks.2.1
  unfold Described at hd ⊢
  rw [hs.frame 0 (by omega), hd]

theorem AllocInv.allocData {ids : List UInt32} {id : UInt32} (hl : mgr.Layout total ibb)
    (hi : AllocInv mgr total ibb ids σ) (h : mgr.allocData.flat [] σ = .ok (id, σ')) :
    AllocInv mgr total ibb (id :: ids) σ' ∧ mgr.dataAreaStartBlock ≤ id.toNat
      ∧ id.toNat < mgr.dataAreaStartBlock + mgr.dataBitmap.blocks * 4096 := by
  obtain ⟨hle, hlt, -, -, hsets⟩ := (allocData_spec (E := fun _ => True) hl (by simp)
    (fun _ => trivial) (fun _ _ _ _ _ => trivial)).ok h
  refine ⟨⟨hi.described.sets hl hsets, ?_⟩, hle, by omega⟩
  intro k hk
  rw [hsets.bit k]
  by_cases heq : k = id.toNat - mgr.dataAreaStartBlock
  · rw [if_pos heq]
    refine iff_of_true rfl ⟨id, List.mem_cons_self, by omega⟩
  · rw [if_neg heq, hi.bit k hk]
    refine ⟨fun ⟨x, hx, hxk⟩ => ⟨x, List.mem_cons_of_mem _ hx, hxk⟩, ?_⟩
    rintro ⟨x, hx, hxk⟩
    rcases List.mem_cons.mp hx with rfl | hx
    · omega
    · exact ⟨x, hx, hxk⟩

theorem deallocData_ensures {id : UInt32}
    (h : (mgr.deallocData id).flat [] σ = .ok ((), σ')) :
    mgr.dataAreaStartBlock ≤ id.toNat
      ∧ mgr.dataBitmap.Sets (Function.update σ id.toNat Block.zero) σ'
        (id.toNat - mgr.dataAreaStartBlock) false := by
  have hpost : Ensures (mgr.deallocData id) [] σ fun _ σ' => mgr.dataAreaStartBlock ≤ id.toNat
      ∧ mgr.dataBitmap.Sets (Function.update σ id.toNat Block.zero) σ'
        (id.toNat - mgr.dataAreaStartBlock) false := by
    rw [Ensures, deallocData, Post.bind_iff, Post.modify_iff (by simp), Post.pure_iff,
      Post.bind_iff, Post.sub_iff]
    refine ⟨?_, fun _ => trivial⟩
    intro hle
    apply (mgr.dataBitmap.dealloc_spec (by simp) fun _ => trivial).mono
    rintro _ σ' ⟨-, hsets⟩
    exact ⟨hle, hsets⟩
  exact hpost.ok h

theorem AllocInv.deallocData {ids : List UInt32} {id : UInt32} (hl : mgr.Layout total ibb)
    (hi : AllocInv mgr total ibb ids σ) (h : (mgr.deallocData id).flat [] σ = .ok ((), σ')) :
    AllocInv mgr total ibb (ids.filter (· ≠ id)) σ' := by
  obtain ⟨hle, hsets⟩ := deallocData_ensures h
  obtain ⟨-, hstart, -⟩ := hl.blocks
  have harea := hl.dataArea
  refine ⟨Described.sets hl ?_ hsets, ?_⟩
  · unfold Described
    rw [Function.update_of_ne (by omega)]
    exact hi.described
  · intro k hk
    -- The zeroed block is a data block, not one of the bitmap.
    have hsame : mgr.dataBitmap.bit (Function.update σ id.toNat Block.zero) k
        = mgr.dataBitmap.bit σ k := by
      unfold Bitmap.bit
      rw [Function.update_of_ne (by omega)]
    rw [hsets.bit k, hsame]
    by_cases heq : k = id.toNat - mgr.dataAreaStartBlock
    · rw [if_pos heq]
      simp only [Bool.false_eq_true, List.mem_filter, false_iff]
      rintro ⟨x, ⟨-, hx⟩, hxk⟩
      have : x = id := UInt32.toNat_inj.mp (by omega)
      simp [this] at hx
    · rw [if_neg heq, hi.bit k hk]
      refine ⟨?_, fun ⟨x, hx, hxk⟩ => ⟨x, (List.mem_filter.mp hx).1, hxk⟩⟩
      rintro ⟨x, hx, hxk⟩
      refine ⟨x, List.mem_filter.mpr ⟨hx, ?_⟩, hxk⟩
      simp only [ne_eq, decide_not, Bool.not_eq_true', decide_eq_false_iff_not]
      rintro rfl
      omega

/-- What holds after every run: the manager is the one created, and the bits
are those of the blocks in use. -/
theorem alloc_run {tr : List AllocEvent} {s : BlockManager × Store} (h : mgr.Created total ibb σ)
    (hrun : Runs AllocStep (mgr, σ) tr s) :
    s.1 = mgr ∧ AllocInv mgr total ibb (inUse tr) s.2
      ∧ ∀ id, .allocData id ∈ tr → mgr.dataAreaStartBlock ≤ id.toNat
        ∧ id.toNat < mgr.dataAreaStartBlock + mgr.dataBitmap.blocks * 4096 := by
  refine hrun.trace_invariant (I := fun tr s => s.1 = mgr ∧ AllocInv mgr total ibb (inUse tr) s.2
    ∧ ∀ id, .allocData id ∈ tr → mgr.dataAreaStartBlock ≤ id.toNat
      ∧ id.toNat < mgr.dataAreaStartBlock + mgr.dataBitmap.blocks * 4096)
    ⟨rfl, AllocInv.created h, by simp⟩ ?_
  rintro tr ⟨m, τ⟩ e ⟨m', τ'⟩ ⟨rfl, hi, htr⟩ hstep
  unfold inUse
  rw [List.foldl_append]
  cases hstep with
  | allocData hs =>
      obtain ⟨hi', hid⟩ := AllocInv.allocData h.layout hi hs
      refine ⟨rfl, hi', ?_⟩
      intro id' hid'
      rcases List.mem_append.mp hid' with hid' | hid'
      · exact htr id' hid'
      · cases List.mem_singleton.mp hid'
        exact hid
  | deallocData hs =>
      refine ⟨rfl, hi.deallocData h.layout hs, ?_⟩
      intro id' hid'
      exact htr id' (by simpa using hid')
  | «open» hs =>
      rw [open_spec h.layout hi.described (by simp)] at hs
      cases hs
      refine ⟨rfl, hi, ?_⟩
      intro id' hid'
      exact htr id' (by simpa using hid')

/-- The bitmap has a bit for each block of the data area. -/
theorem Layout.bits (hl : mgr.Layout total ibb) :
    total ≤ mgr.dataAreaStartBlock + mgr.dataBitmap.blocks * 4096
      ∧ (total = mgr.dataAreaStartBlock + mgr.dataBitmap.blocks * 4096
        ↔ 4097 ∣ total - 1 - ibb * 1025) := by
  obtain ⟨hblocks, -, -⟩ := hl.blocks
  have harea := hl.dataArea
  have hfits := hl.fits
  omega

/-- With every bit set the call panics. -/
theorem allocData_full (hl : mgr.Layout total ibb)
    (hset : ∀ k, k < mgr.dataBitmap.blocks * 4096 → mgr.dataBitmap.bit σ k = true) :
    mgr.allocData.flat [] σ = .error .panic := by
  have hpost : Post (· = .panic) mgr.allocData [] σ _ :=
    allocData_spec hl (by simp) (fun _ => rfl) fun k hk hclear _ _ => by
      rw [hset k hk] at hclear
      cases hclear
  obtain ⟨e, he, rfl⟩ := (hpost.mono (R := fun _ _ => False) fun id σ' h => by
    have := h.2.2.1
    rw [hset _ h.2.1] at this
    cases this).exists_error
  exact he

/-- With the first `k` bits set and the next one clear the call returns block
`k` of the data area. -/
theorem allocData_next (hl : mgr.Layout total ibb) {k : Nat}
    (hk : k < mgr.dataBitmap.blocks * 4096) (hid : mgr.dataAreaStartBlock + k < 2 ^ 32)
    (hbit : ∀ j, j < mgr.dataBitmap.blocks * 4096 → mgr.dataBitmap.bit σ j = decide (j < k)) :
    ∃ id σ', mgr.allocData.flat [] σ = .ok (id, σ') ∧ id.toNat = mgr.dataAreaStartBlock + k
      ∧ ∀ j, j < mgr.dataBitmap.blocks * 4096 →
        mgr.dataBitmap.bit σ' j = decide (j < k + 1) := by
  have hclear : mgr.dataBitmap.bit σ k = false := by simp [hbit k hk]
  have hfirst : ∀ k', k' < mgr.dataBitmap.blocks * 4096 → mgr.dataBitmap.bit σ k' = false →
      (∀ j, j < k' → mgr.dataBitmap.bit σ j = true) → k' = k := by
    intro k' hk' hclear' hbefore
    have h₁ : ¬ k' < k := by simpa [hbit k' hk'] using hclear'
    have h₂ : ¬ k < k' := by
      intro hlt
      rw [hbefore k hlt] at hclear
      cases hclear
    omega
  have hpost : Returns mgr.allocData [] σ _ := allocData_spec hl (by simp)
    (fun hset => by rw [hset k hk] at hclear; cases hclear)
    fun k' hk' hclear' hbefore hover => by
      have := hfirst k' hk' hclear' hbefore
      omega
  obtain ⟨id, σ', hrun, hle, hlt, hclear', hbefore, hsets⟩ := hpost.exists_ok
  have heq := hfirst _ hlt hclear' hbefore
  refine ⟨id, σ', hrun, by omega, ?_⟩
  intro j hj
  rw [hsets.bit j, heq, hbit j hj]
  by_cases hjk : j = k
  · simp [hjk]
  · simp only [if_neg hjk, decide_eq_decide]
    omega

/-- Calls of `alloc_data` alone hand out the blocks in order. -/
theorem alloc_in_order (h : mgr.Created total ibb σ) (n : Nat)
    (hn : n ≤ mgr.dataBitmap.blocks * 4096) (hid : mgr.dataAreaStartBlock + n ≤ 2 ^ 32) :
    ∃ tr τ, Runs AllocStep (mgr, σ) tr (mgr, τ)
      ∧ (∀ j, j < mgr.dataBitmap.blocks * 4096 → mgr.dataBitmap.bit τ j = decide (j < n))
      ∧ ∀ k, k < n → ∃ id, .allocData id ∈ tr ∧ id.toNat = mgr.dataAreaStartBlock + k := by
  induction n with
  | zero =>
      refine ⟨[], σ, .nil _, ?_, by simp⟩
      intro j hj
      simp [h.dataBit hj]
  | succ n ih =>
      obtain ⟨tr, τ, hrun, hbit, htr⟩ := ih (by omega) (by omega)
      obtain ⟨id, τ', hcall, hid, hbit'⟩ := allocData_next h.layout (k := n) (by omega) (by omega) hbit
      refine ⟨_, τ', hrun.snoc (.allocData hcall), hbit', ?_⟩
      intro k hk
      by_cases hkn : k = n
      · exact ⟨id, by simp, by omega⟩
      · obtain ⟨id', hmem, hid'⟩ := htr k (by omega)
        exact ⟨id', List.mem_append_left _ hmem, hid'⟩

theorem Created.staysOnDisk_iff (h : mgr.Created total ibb σ) :
    StaysOnDisk total (mgr, σ) ↔ 4097 ∣ total - 1 - ibb * 1025 := by
  obtain ⟨hle, hiff⟩ := h.layout.bits
  have hstart := h.layout.blocks.2.2
  have htotal := h.layout.total_lt
  rw [← hiff]
  constructor
  · intro hdisk
    by_contra hne
    -- One block more than the data area has is still handed out.
    obtain ⟨tr, τ, hrun, -, htr⟩ := alloc_in_order h (total - mgr.dataAreaStartBlock + 1)
      (by omega) (by omega)
    obtain ⟨id, hmem, hid⟩ := htr (total - mgr.dataAreaStartBlock) (by omega)
    have := ((hdisk tr _ hrun).1 id hmem).2
    omega
  · rintro heq tr ⟨m, τ⟩ hrun
    obtain ⟨hm, hinv, hids⟩ := alloc_run h hrun
    dsimp only at hm hinv ⊢
    subst hm
    refine ⟨?_, ?_⟩
    · intro id hid
      have := hids id hid
      exact ⟨this.1, by omega⟩
    · intro hall
      apply allocData_full h.layout
      intro k hk
      have hid : (UInt32.ofNat (m.dataAreaStartBlock + k)).toNat = m.dataAreaStartBlock + k := by
        rw [UInt32.toNat_ofNat', Nat.mod_eq_of_lt (by omega)]
      rw [hinv.bit k hk]
      exact ⟨_, hall (UInt32.ofNat (m.dataAreaStartBlock + k)) (by omega) (by omega), hid⟩

theorem create_returns {total ibb : UInt32} (hpos : 0 < ibb.toNat)
    (hfits : 1 + ibb.toNat * 1025 ≤ total.toNat)
    (hfits' : total.toNat - 1 - ibb.toNat * 1025 + 4096 < 2 ^ 32) (σ₀ : Store) :
    ∃ mgr σ, (create total ibb).flat [] σ₀ = .ok (mgr, σ)
      ∧ mgr.Created total.toNat ibb.toNat σ := by
  have htotal := total.toNat_lt
  have hpost : Returns (create total ibb) [] σ₀ _ :=
    create_spec (by omega) (.inr ⟨hfits, hfits'⟩) (.inr hpos) σ₀
  obtain ⟨mgr, σ, h, hc, -⟩ := hpost.exists_ok
  exact ⟨mgr, σ, h, hc⟩

end BlockManager

open BlockManager

/-- `alloc_data` stays on the disk exactly if the blocks after the inode area
come in groups of 4097: one of the bitmap and the 4096 its bits are for. -/
theorem data_blocks_stay_on_disk {total ibb : UInt32} {mgr : BlockManager} {σ₀ σ : Store}
    (hfit : ibb.toNat * 1024 < 2 ^ 32) (h : (create total ibb).flat [] σ₀ = .ok (mgr, σ)) :
    StaysOnDisk total.toNat (mgr, σ) ↔ 4097 ∣ dataTotalBlocks total ibb := by
  have hdata : dataTotalBlocks total ibb = total.toNat - 1 - ibb.toNat * 1025 := by
    unfold dataTotalBlocks
    rw [inodeAreaBlocks_eq hfit]
    omega
  rw [hdata]
  exact (created_of_create hfit h).staysOnDisk_iff

/-- A disk with one group. -/
theorem data_blocks_stay_on_disk_5123 :
    ∃ mgr σ, (create 5123 1).flat [] (fun _ => Block.zero) = .ok (mgr, σ)
      ∧ StaysOnDisk 5123 (mgr, σ) := by
  obtain ⟨mgr, σ, h, -⟩ := @create_returns 5123 1 (by decide) (by decide) (by decide)
    fun _ => Block.zero
  exact ⟨mgr, σ, h, (data_blocks_stay_on_disk (by decide) h).mpr (by decide)⟩

/-- The disk of the file system test: 4096 blocks, of which 3069 are data
blocks; the 3070th call returns block 4096. -/
theorem data_blocks_leave_disk_4096 :
    ∃ mgr σ, (create 4096 1).flat [] (fun _ => Block.zero) = .ok (mgr, σ)
      ∧ (∃ tr s, Runs AllocStep (mgr, σ) tr s ∧ .allocData 4096 ∈ tr)
      ∧ ¬ StaysOnDisk 4096 (mgr, σ) := by
  obtain ⟨mgr, σ, h, hc⟩ := @create_returns 4096 1 (by decide) (by decide) (by decide)
    fun _ => Block.zero
  obtain ⟨hblocks, -, -⟩ := hc.layout.blocks
  have harea := hc.layout.dataArea
  simp only [UInt32.reduceToNat] at hblocks harea
  obtain ⟨tr, τ, hrun, -, htr⟩ := alloc_in_order hc 3070 (by omega) (by omega)
  obtain ⟨id, hmem, hid⟩ := htr 3069 (by omega)
  have : id = 4096 := UInt32.toNat_inj.mp (by simp only [UInt32.reduceToNat]; omega)
  subst this
  refine ⟨mgr, σ, h, ⟨tr, _, hrun, hmem⟩, ?_⟩
  intro hdisk
  exact absurd ((hdisk tr _ hrun).1 4096 hmem).2 (by decide)

end Nimloth
