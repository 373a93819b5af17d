import Mathlib.Tactic.Common
import Nimloth.BlockManager

/-!
# Inodes

`components/src/micro_fs/vfs.rs`. An `Inode` is a handle: the place of a
disk inode. Every operation locks the block manager it was made with,
which none of them changes, so the manager is an argument here.
-/

namespace Nimloth

open BlockProg

structure Inode where
  blockId : Nat
  blockOffset : Nat
  deriving DecidableEq, Repr

/-- `BlockManager::root_inode`. -/
def BlockManager.rootInode (mgr : BlockManager) : Inode := ⟨mgr.inodeAreaStartBlock, 0⟩

namespace Inode

variable {α : Type}

/-- `read_disk_inode`. -/
def readDiskInode (ino : Inode) (f : DiskInode → BlockProg α) : BlockProg α :=
  readBlock ino.blockId fun b => do
    assert (ino.blockOffset + 128 ≤ BLOCK_SZ)
    f (DiskInode.load b ino.blockOffset)

/-- `modify_disk_inode`. -/
def modifyDiskInode (ino : Inode) (f : DiskInode → BlockProg (α × DiskInode)) : BlockProg α :=
  modifyBlock ino.blockId fun b => do
    assert (ino.blockOffset + 128 ≤ BLOCK_SZ)
    let (x, d) ← f (DiskInode.load b ino.blockOffset)
    pure (x, d.store b ino.blockOffset)

/-! ## Directories -/

/-- Entry `i` of a directory. -/
def readDirEntry (d : DiskInode) (i : Nat) : BlockProg DirEntry := do
  let bytes ← d.readAt (DIRENT_SZ * i) DIRENT_SZ
  assert (bytes.length = DIRENT_SZ)
  pure (DirEntry.ofBytes bytes)

/-- The loop of `find_inode_id` over the entries. -/
def findLoop (name : String) (d : DiskInode) : List Nat → BlockProg (Option UInt32)
  | [] => pure none
  | i :: is => do
      let dirent ← readDirEntry d i
      let direntName ← dirent.nameStr
      if direntName = name then pure (some dirent.inodeNumber) else findLoop name d is

/-- `find_inode_id`. -/
def findInodeId (name : String) (d : DiskInode) : BlockProg (Option UInt32) := do
  assert d.dir
  findLoop name d (List.range (d.size.toNat / DIRENT_SZ))

/-- The loop of `find` over the components of the path. -/
def findFrom (mgr : BlockManager) : List String → Inode → BlockProg (Option Inode)
  | [], ino => pure (some ino)
  | name :: names, ino => do
      let inodeId ← ino.readDiskInode fun d =>
        if d.file then pure none else findInodeId name d
      match inodeId with
      | none => pure none
      | some inodeId => do
          let (blockId, blockOffset) ← mgr.diskInodePos inodeId
          findFrom mgr names ⟨blockId, blockOffset⟩

/-- `find`. -/
def find (mgr : BlockManager) (ino : Inode) (path : String) : BlockProg (Option Inode) :=
  findFrom mgr ((path.splitOn "/").filter (· ≠ "")) ino

/-- The loop of `ls` over the entries. -/
def lsLoop (d : DiskInode) : List Nat → List String → BlockProg (List String)
  | [], v => pure v
  | i :: is, v => do
      let dirent ← readDirEntry d i
      let direntName ← dirent.nameStr
      lsLoop d is (v ++ [direntName])

/-- `ls`. -/
def ls (ino : Inode) : BlockProg (List String) :=
  ino.readDiskInode fun d =>
    if d.file then pure [] else lsLoop d (List.range (d.size.toNat / DIRENT_SZ)) []

/-! ## Growth -/

/-- The loop of `increase_size` that takes `n` data blocks. -/
def allocBlocks (mgr : BlockManager) : Nat → BlockProg (List UInt32)
  | 0 => pure []
  | n + 1 => do
      let id ← mgr.allocData
      let v ← allocBlocks mgr n
      pure (id :: v)

/-- `Inode::increase_size`. -/
def increaseSize (mgr : BlockManager) (newSize : UInt32) (d : DiskInode) : BlockProg DiskInode := do
  if newSize < d.size then pure d
  else do
    let blocksNeeded ← d.blocksNumNeeded newSize
    let v ← allocBlocks mgr blocksNeeded
    d.increaseSize newSize v

/-! ## Operations -/

/-- The closure of `create_inode` on the directory. -/
def addEntry (mgr : BlockManager) (name : String) (newInodeId : UInt32) (root : DiskInode) :
    BlockProg (Unit × DiskInode) := do
  let fileCount := root.size.toNat / DIRENT_SZ
  let newSize := (fileCount + 1) * DIRENT_SZ
  let root ← increaseSize mgr (UInt32.ofNat newSize) root
  let dirent ← DirEntry.new name newInodeId
  let _ ← root.writeAt (fileCount * DIRENT_SZ) dirent.asBytes
  pure ((), root)

/-- `create_inode`: `create` and `create_dir`, by the type. -/
def createInode (mgr : BlockManager) (ino : Inode) (name : String) (type : DiskInodeType) :
    BlockProg (Option Inode) := do
  let found ← ino.readDiskInode fun d => do
    assert d.dir
    findInodeId name d
  if found.isSome then pure none
  else do
    let newInodeId ← mgr.allocInode
    let (newBlockId, newBlockOffset) ← mgr.diskInodePos newInodeId
    modifyDiskInode ⟨newBlockId, newBlockOffset⟩ fun _ => pure ((), DiskInode.init type)
    ino.modifyDiskInode fun root => addEntry mgr name newInodeId root
    let (blockId, blockOffset) ← mgr.diskInodePos newInodeId
    blockCacheSyncAll
    pure (some ⟨blockId, blockOffset⟩)

/-- The loop of `clear` that gives the blocks back. -/
def deallocBlocks (mgr : BlockManager) : List UInt32 → BlockProg Unit
  | [] => pure ()
  | id :: v => do
      mgr.deallocData id
      deallocBlocks mgr v

/-- `clear`. -/
def clear (mgr : BlockManager) (ino : Inode) : BlockProg Unit := do
  ino.modifyDiskInode fun d => do
    assert d.file
    let size := d.size
    let (dataBlocksDealloc, d) ← d.clearSize
    let total ← DiskInode.totalBlocks size
    assert (dataBlocksDealloc.length = total)
    deallocBlocks mgr dataBlocksDealloc
    pure ((), d)
  blockCacheSyncAll

/-- `Inode::read_at`. -/
def readAt (ino : Inode) (offset len : Nat) : BlockProg (List UInt8) :=
  ino.readDiskInode fun d => d.readAt offset len

/-- `Inode::write_at`. -/
def writeAt (mgr : BlockManager) (ino : Inode) (offset : Nat) (buf : List UInt8) :
    BlockProg Nat := do
  let size ← ino.modifyDiskInode fun d => do
    assert d.file
    let stop ← add (2 ^ 64) offset buf.length
    let d ← increaseSize mgr (UInt32.ofNat stop) d
    let size ← d.writeAt offset buf
    pure (size, d)
  blockCacheSyncAll
  pure size

end Inode

end Nimloth
