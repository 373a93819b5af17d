import Nimloth.Growth
import Nimloth.Vfs

/-!
# Open files

`os/src/fs/inode.rs`: the kernel's view of an inode. An `OSInode` adds the
offset where the next call goes on and the two permissions, which `sys_read`
and `sys_write` check. Its cell `inner` is used by one call at a time, so a
call takes the open file and returns it.
-/

namespace Nimloth

open BlockProg

/-- `UserBuffer`: the slices of a user's memory, with the bytes that are in
them. -/
structure UserBuffer where
  buffers : List (List UInt8)
  deriving DecidableEq, Repr

structure OSInode where
  readable : Bool
  writable : Bool
  offset : Nat
  inode : Inode
  deriving DecidableEq, Repr

namespace OSInode

/-- `OSInode::new`. -/
def new (readable writable : Bool) (inode : Inode) : OSInode := ⟨readable, writable, 0, inode⟩

/-- The loop of `read_all`, for at most `fuel` rounds. -/
def readAllLoop : Nat → OSInode → List UInt8 → BlockProg (Option (List UInt8 × OSInode))
  | 0, _, _ => pure none
  | fuel + 1, file, v => do
      let buffer ← file.inode.readAt file.offset 512
      if buffer.length = 0 then pure (some (v, file))
      else do
        let offset ← add (2 ^ 64) file.offset buffer.length
        readAllLoop fuel { file with offset := offset } (v ++ buffer)

/-- `read_all`; `none` if it is not done after `fuel` rounds. -/
def readAll (fuel : Nat) (file : OSInode) : BlockProg (Option (List UInt8 × OSInode)) :=
  readAllLoop fuel file []

/-- The loop of `read` over the slices. It returns them as they are filled. -/
def readLoop : List (List UInt8) → OSInode → Nat → BlockProg (Nat × List (List UInt8) × OSInode)
  | [], file, totalReadSize => pure (totalReadSize, [], file)
  | slice :: slices, file, totalReadSize => do
      let bytes ← file.inode.readAt file.offset slice.length
      if bytes.length = 0 then pure (totalReadSize, slice :: slices, file)
      else do
        let offset ← add (2 ^ 64) file.offset bytes.length
        let totalReadSize ← add (2 ^ 64) totalReadSize bytes.length
        let (size, slices, file) ← readLoop slices { file with offset := offset } totalReadSize
        pure (size, (bytes ++ slice.drop bytes.length) :: slices, file)

/-- `OSInode::read`. -/
def read (file : OSInode) (buf : UserBuffer) : BlockProg (Nat × UserBuffer × OSInode) := do
  let (size, buffers, file) ← readLoop buf.buffers file 0
  pure (size, ⟨buffers⟩, file)

/-- The loop of `write` over the slices. -/
def writeLoop (mgr : BlockManager) :
    List (List UInt8) → OSInode → Nat → BlockProg (Nat × OSInode)
  | [], file, totalWriteSize => pure (totalWriteSize, file)
  | slice :: slices, file, totalWriteSize => do
      let writeSize ← Inode.writeAt mgr file.inode file.offset slice
      assert (writeSize = slice.length)
      let offset ← add (2 ^ 64) file.offset writeSize
      let totalWriteSize ← add (2 ^ 64) totalWriteSize writeSize
      writeLoop mgr slices { file with offset := offset } totalWriteSize

/-- `OSInode::write`. -/
def write (mgr : BlockManager) (file : OSInode) (buf : UserBuffer) : BlockProg (Nat × OSInode) :=
  writeLoop mgr buf.buffers file 0

end OSInode

/-! ## The buffer of `read_all` -/

/-- The buffers of `read_all` on a file of `n` bytes. -/
def readAllBuffers (n : Nat) : List Nat := growthBuffers 8 512 n ((n + 511) / 512) 0 0

/-- A heap with buffers of the sizes in `heap` lets `read_all` return `n` bytes. -/
def Granted (heap : Nat → Bool) (n : Nat) : Prop := HasRoom heap (readAllBuffers n)

instance (heap : Nat → Bool) (n : Nat) : Decidable (Granted heap n) :=
  inferInstanceAs (Decidable (HasRoom heap (readAllBuffers n)))

theorem Granted.of_le {limit n : Nat} (h : max 8 (2 * n) ≤ limit) :
    Granted (fun size => size ≤ limit) n :=
  HasRoom.of_le fun _ hsize => Nat.le_trans (le_of_mem_growthBuffers hsize) h

/-! ## Opening -/

/-- `OpenFlags`, a set of bits. -/
structure OpenFlags where
  bits : UInt32
  deriving DecidableEq, Repr

namespace OpenFlags

def RDONLY : OpenFlags := ⟨0⟩

def WRONLY : OpenFlags := ⟨(1 : UInt32) <<< 0⟩

def RDWR : OpenFlags := ⟨(1 : UInt32) <<< 1⟩

def CREATE : OpenFlags := ⟨(1 : UInt32) <<< 9⟩

def TRUNC : OpenFlags := ⟨(1 : UInt32) <<< 10⟩

def isEmpty (flags : OpenFlags) : Bool := flags.bits = 0

def contains (flags other : OpenFlags) : Bool := flags.bits &&& other.bits = other.bits

/-- `read_write`: may it be read, may it be written. -/
def readWrite (flags : OpenFlags) : Bool × Bool :=
  if flags.isEmpty then (true, false)
  else if flags.contains WRONLY then (false, true)
  else (true, true)

end OpenFlags

/-- `open_file`. `ROOT_INODE` is the root inode of the mounted disk. -/
def openFile (mgr : BlockManager) (name : String) (flags : OpenFlags) :
    BlockProg (Option OSInode) := do
  let (readable, writable) := flags.readWrite
  if flags.contains .CREATE then do
    let found ← Inode.find mgr mgr.rootInode name
    match found with
    | some inode => do
        Inode.clear mgr inode
        pure (some (.new readable writable inode))
    | none => do
        let created ← Inode.createInode mgr mgr.rootInode name .file
        pure (created.map (.new readable writable))
  else do
    let found ← Inode.find mgr mgr.rootInode name
    match found with
    | some inode =>
        if flags.contains .TRUNC then do
          Inode.clear mgr inode
          pure (some (.new readable writable inode))
        else pure (some (.new readable writable inode))
    | none => pure none

end Nimloth
