import Mathlib.Tactic.Common
import Nimloth.BlockProg

/-!
# On-disk structures

`components/src/micro_fs/layout.rs`: the super block, the disk inode and
the directory entry, and the operations of a disk inode on its index
tree and its data. A `u32` field is a `UInt32`; a count or an index
computed from one is a `Nat`. The disk inode is changed in place in its
block by the closure that holds it, so here an operation takes the inode
and returns it.
-/

namespace Nimloth

open BlockProg

/-! ## Constants -/

def MFS_MAGIC : UInt32 := 0x3b800001

@[simp] abbrev NAME_LENGTH_LIMIT : Nat := 27

@[simp] abbrev INODE_DIRECT_COUNT : Nat := 27

@[simp] abbrev DIRECT_BOUND : Nat := INODE_DIRECT_COUNT

@[simp] abbrev INODE_INDIRECT1_COUNT : Nat := BLOCK_SZ / 4

@[simp] abbrev INDIRECT1_BOUND : Nat := DIRECT_BOUND + INODE_INDIRECT1_COUNT

@[simp] abbrev INODE_INDIRECT2_COUNT : Nat := INODE_INDIRECT1_COUNT * INODE_INDIRECT1_COUNT

@[simp] abbrev INDIRECT2_BOUND : Nat := INDIRECT1_BOUND + INODE_INDIRECT2_COUNT

@[simp] abbrev DIRENT_SZ : Nat := 32

/-! ## The super block -/

structure SuperBlock where
  magic : UInt32
  totalBlocks : UInt32
  inodeBitmapBlocks : UInt32
  inodeAreaBlocks : UInt32
  dataBitmapBlocks : UInt32
  dataAreaBlocks : UInt32

namespace SuperBlock

def load (b : Block) : SuperBlock where
  magic := b.u32 0
  totalBlocks := b.u32 4
  inodeBitmapBlocks := b.u32 8
  inodeAreaBlocks := b.u32 12
  dataBitmapBlocks := b.u32 16
  dataAreaBlocks := b.u32 20

def store (sb : SuperBlock) (b : Block) : Block :=
  b.setU32s 0 [sb.magic, sb.totalBlocks, sb.inodeBitmapBlocks, sb.inodeAreaBlocks,
    sb.dataBitmapBlocks, sb.dataAreaBlocks]

/-- `SuperBlock::initialize`. -/
def init (totalBlocks inodeBitmapBlocks inodeAreaBlocks dataBitmapBlocks
    dataAreaBlocks : UInt32) : SuperBlock :=
  ⟨MFS_MAGIC, totalBlocks, inodeBitmapBlocks, inodeAreaBlocks, dataBitmapBlocks, dataAreaBlocks⟩

def valid (sb : SuperBlock) : Bool := sb.magic == MFS_MAGIC

theorem load_store (sb : SuperBlock) (b : Block) : load (sb.store b) = sb := by
  have h : ∀ i (hi : i < 6), (sb.store b).u32 (0 + 4 * i) = _ := fun i hi =>
    @Block.u32_setU32s b 0 i [sb.magic, sb.totalBlocks, sb.inodeBitmapBlocks, sb.inodeAreaBlocks,
      sb.dataBitmapBlocks, sb.dataAreaBlocks] hi (by simp [BLOCK_SZ])
  unfold load
  rw [h 0 (by decide), h 1 (by decide), h 2 (by decide), h 3 (by decide), h 4 (by decide),
    h 5 (by decide)]
  rfl

end SuperBlock

/-! ## The disk inode -/

inductive DiskInodeType where
  | file
  | dir
  deriving DecidableEq, Repr

@[ext] structure DiskInode where
  size : UInt32
  direct : Vector UInt32 27
  indirect1 : UInt32
  indirect2 : UInt32
  indirect3 : UInt32
  type : DiskInodeType

namespace DiskInode

/-- `self.direct[i]` for an index below 27. -/
def directAt (d : DiskInode) (i : Nat) : UInt32 := d.direct[i]?.getD 0

def setDirect (d : DiskInode) (i : Nat) (x : UInt32) : DiskInode :=
  { d with direct := d.direct.setIfInBounds i x }

theorem directAt_setDirect (d : DiskInode) {i j : Nat} (x : UInt32) (hi : i < 27) :
    (d.setDirect i x).directAt j = if j = i then x else d.directAt j := by
  unfold directAt setDirect
  rw [Vector.getElem?_setIfInBounds]
  by_cases h : i = j
  · subst h
    rw [if_pos rfl, if_pos hi, if_pos rfl, Option.getD_some]
  · rw [if_neg h, if_neg (Ne.symm h)]

/-- The structure in its 128 bytes; a type byte other than 0 and 1 is not a
value of the enumeration. -/
def load (b : Block) (off : Nat) : DiskInode where
  size := b.u32 off
  direct := Vector.ofFn fun i => b.u32 (off + 4 + 4 * i)
  indirect1 := b.u32 (off + 112)
  indirect2 := b.u32 (off + 116)
  indirect3 := b.u32 (off + 120)
  type := if b.byte (off + 124) = 0 then .file else .dir

/-- The `u32` fields in their order. -/
def words (d : DiskInode) : List UInt32 :=
  d.size :: (d.direct.toList ++ [d.indirect1, d.indirect2, d.indirect3])

def typeByte : DiskInodeType → UInt8
  | .file => 0
  | .dir => 1

def store (d : DiskInode) (b : Block) (off : Nat) : Block :=
  (b.setU32s off d.words).write (off + 124) [typeByte d.type]

/-- `DiskInode::initialize`: an inode without data. -/
def init (type : DiskInodeType) : DiskInode where
  size := 0
  direct := Vector.replicate 27 0
  indirect1 := 0
  indirect2 := 0
  indirect3 := 0
  type := type

def dir (d : DiskInode) : Bool := d.type == .dir

def file (d : DiskInode) : Bool := d.type == .file

@[simp] theorem words_length (d : DiskInode) : d.words.length = 31 := by simp [words]

theorem words_bytes_length (d : DiskInode) :
    (d.words.flatMap fun x => leBytes 4 x.toNat).length = 124 := by
  rw [Block.length_flatMap_leBytes, words_length]

theorem u32_store (d : DiskInode) (b : Block) {off i : Nat} (hoff : off + 128 ≤ BLOCK_SZ)
    (hi : i < 31) : (d.store b off).u32 (off + 4 * i) = d.words.getD i 0 := by
  have hlen := d.words_length
  unfold store
  rw [Block.u32_write_apart _ (by simp only [Block.Apart]; omega) (by omega),
    Block.u32_setU32s b (by omega) (by omega), List.getD_eq_getElem?_getD,
    List.getElem?_eq_getElem (by omega), Option.getD_some]

/-- The inode is read back from its place. -/
theorem load_store (d : DiskInode) (b : Block) {off : Nat} (hoff : off + 128 ≤ BLOCK_SZ) :
    load (d.store b off) off = d := by
  have hw := fun i (hi : i < 31) => d.u32_store b hoff hi
  ext i hi
  · exact congrArg UInt32.toNat (hw 0 (by omega))
  · have h := hw (i + 1) (by omega)
    rw [show off + 4 * (i + 1) = off + 4 + 4 * i by omega] at h
    simp only [load, Vector.getElem_ofFn, h]
    have hget : (d.direct.toList ++ [d.indirect1, d.indirect2, d.indirect3])[i]?
        = some d.direct[i] := by
      rw [List.getElem?_append_left (by simpa using hi)]
      simp [hi]
    simp [words, hget]
  · simpa [load, words] using congrArg UInt32.toNat (hw 28 (by omega))
  · simpa [load, words] using congrArg UInt32.toNat (hw 29 (by omega))
  · simpa [load, words] using congrArg UInt32.toNat (hw 30 (by omega))
  · have hbyte : (d.store b off).byte (off + 124) = typeByte d.type := by
      unfold store
      rw [Block.byte_write _ _ _ (by omega), if_pos (by simp)]
      simp
    simp only [load, hbyte]
    cases d.type with
    | file => rfl
    | dir => rfl

/-- Storing an inode keeps the other bytes of its block. -/
theorem byte_store_apart (d : DiskInode) (b : Block) {off i : Nat} (h : Block.Apart off 128 i 1)
    (hi : i < BLOCK_SZ) : (d.store b off).byte i = b.byte i := by
  unfold Block.Apart at h
  unfold store Block.setU32s
  rw [Block.byte_write_apart _ (by simp only [Block.Apart, List.length_singleton]; omega) hi,
    Block.byte_write_apart _ (by rw [words_bytes_length]; unfold Block.Apart; omega) hi]

theorem load_congr {b b' : Block} {off : Nat}
    (h : ∀ i, off ≤ i → i < off + 128 → b.byte i = b'.byte i) : load b off = load b' off := by
  have hu : ∀ o, off ≤ o → o + 4 ≤ off + 128 → b.u32 o = b'.u32 o := by
    intro o ho ho'
    unfold Block.u32 Block.field
    rw [Block.slice_congr fun j hj => h (o + j) (by omega) (by omega)]
  unfold load
  rw [hu off (by omega) (by omega), hu (off + 112) (by omega) (by omega),
    hu (off + 116) (by omega) (by omega), hu (off + 120) (by omega) (by omega),
    h (off + 124) (by omega) (by omega)]
  congr 2
  funext i
  exact hu _ (by omega) (by omega)

theorem load_store_apart (d : DiskInode) (b : Block) {off off' : Nat}
    (h : Block.Apart off 128 off' 128) (hoff' : off' + 128 ≤ BLOCK_SZ) :
    load (d.store b off) off' = load b off' := by
  apply load_congr
  intro i hi hi'
  unfold Block.Apart at h
  exact byte_store_apart d b (by unfold Block.Apart; omega) (by omega)

/-! ### The index tree -/

/-- `block_id`. -/
def blockId (d : DiskInode) (innerId : UInt32) : BlockProg UInt32 :=
  let innerId := innerId.toNat
  if innerId < INODE_DIRECT_COUNT then pure (d.directAt innerId)
  else if innerId < INDIRECT1_BOUND then
    readBlock d.indirect1.toNat fun b => pure (b.entry (innerId - INODE_DIRECT_COUNT))
  else if innerId < INDIRECT2_BOUND then do
    let last := innerId - INDIRECT1_BOUND
    let indirect1 ← readBlock d.indirect2.toNat fun b =>
      pure (b.entry (last / INODE_INDIRECT1_COUNT))
    readBlock indirect1.toNat fun b => pure (b.entry (last % INODE_INDIRECT1_COUNT))
  else do
    let last := innerId - INDIRECT2_BOUND
    let indirect1 ← readBlock d.indirect3.toNat fun b => do
      assert (last / INODE_INDIRECT2_COUNT < INODE_INDIRECT1_COUNT)
      pure (b.entry (last / INODE_INDIRECT2_COUNT))
    let indirect2 ← readBlock indirect1.toNat fun b =>
      pure (b.entry (last % INODE_INDIRECT2_COUNT / INODE_INDIRECT1_COUNT))
    readBlock indirect2.toNat fun b =>
      pure (b.entry (last % INODE_INDIRECT2_COUNT % INODE_INDIRECT1_COUNT))

/-- `_data_blocks`. -/
def dataBlocksOf (size : UInt32) : BlockProg Nat := do
  let n ← add (2 ^ 32) size.toNat BLOCK_SZ
  pure ((n - 1) / BLOCK_SZ)

/-- `data_blocks`. -/
def dataBlocks (d : DiskInode) : BlockProg Nat := dataBlocksOf d.size

/-- What `total_blocks` adds up for a number of data blocks. -/
def blocksWithIndex (dataBlocks : Nat) : Nat :=
  let total := dataBlocks
  let total := if dataBlocks > INODE_DIRECT_COUNT then total + 1 else total
  let total :=
    if dataBlocks > INDIRECT1_BOUND then
      let level2Blocks :=
        (dataBlocks - INDIRECT1_BOUND + INODE_INDIRECT1_COUNT - 1) / INODE_INDIRECT1_COUNT
      total + 1 + min level2Blocks INODE_INDIRECT1_COUNT
    else total
  if dataBlocks > INDIRECT2_BOUND then
    total + 1
      + (dataBlocks - INDIRECT2_BOUND + INODE_INDIRECT2_COUNT - 1) / INODE_INDIRECT2_COUNT
      + (dataBlocks - INDIRECT2_BOUND + INODE_INDIRECT1_COUNT - 1) / INODE_INDIRECT1_COUNT
  else total

/-- `total_blocks`. -/
def totalBlocks (size : UInt32) : BlockProg Nat := do
  let dataBlocks ← dataBlocksOf size
  pure (blocksWithIndex dataBlocks)

/-- `blocks_num_needed`. -/
def blocksNumNeeded (d : DiskInode) (newSize : UInt32) : BlockProg Nat := do
  assert (newSize ≥ d.size)
  let new ← totalBlocks newSize
  let old ← totalBlocks d.size
  sub new old

/-- `new_blocks.next().unwrap()`. -/
def next : List UInt32 → BlockProg (UInt32 × List UInt32)
  | [] => fail .panic
  | x :: newBlocks => pure (x, newBlocks)

@[simp] theorem next_cons {E : FsErr → Prop} {held : List Nat} {σ : Store} {x : UInt32}
    {rest : List UInt32} {Q : UInt32 × List UInt32 → Store → Prop} :
    Post E (next (x :: rest)) held σ Q ↔ Q (x, rest) σ := by
  rw [next, Post.pure_iff]

/-- `if c { place = new_blocks.next().unwrap() }`. -/
def nextIf {S : Type} (c : Prop) [Decidable c] (set : S → UInt32 → S) (s : S)
    (newBlocks : List UInt32) : BlockProg (S × List UInt32) :=
  if c then do
    let (x, newBlocks) ← next newBlocks
    pure (set s x, newBlocks)
  else pure (s, newBlocks)

/-- The loop `while current_blocks < bound` that stores the next block id at
each place of an array of ids. -/
def fill {S : Type} (set : S → Nat → UInt32 → S) (bound : Nat) :
    S → Nat → List UInt32 → BlockProg (S × Nat × List UInt32)
  | s, current, [] => if current < bound then fail .panic else pure (s, current, [])
  | s, current, x :: newBlocks =>
      if current < bound then fill set bound (set s current x) (current + 1) newBlocks
      else pure (s, current, x :: newBlocks)

/-- The loop that fills the blocks under `indirect2` from `(a0, b0)` up to
`(a1, b1)`. Every round takes a new block, so the number of new blocks bounds
the rounds. -/
def fillIndirect2 (a1 b1 : Nat) :
    Nat → Block → Nat → Nat → List UInt32 → BlockProg (Block × List UInt32)
  | rounds, indirect2, a0, b0, newBlocks =>
      if a0 < a1 ∨ (a0 = a1 ∧ b0 < b1) then
        match rounds with
        | 0 => fail .panic
        | rounds + 1 => do
            assert (a0 < INODE_INDIRECT1_COUNT)
            let (indirect2, newBlocks) ←
              nextIf (b0 = 0) (fun b x => b.setEntry a0 x) indirect2 newBlocks
            let newBlocks ← modifyBlock (indirect2.entry a0).toNat fun indirect1 => do
              let (x, newBlocks) ← next newBlocks
              pure (newBlocks, indirect1.setEntry b0 x)
            if b0 + 1 = INODE_INDIRECT1_COUNT then
              fillIndirect2 a1 b1 rounds indirect2 (a0 + 1) 0 newBlocks
            else fillIndirect2 a1 b1 rounds indirect2 a0 (b0 + 1) newBlocks
      else pure (indirect2, newBlocks)

/-- The loop that fills the blocks under `indirect3`, as it stands: a round
with `b0 = 0` takes a new block for `indirect3[a0]`. -/
def fillIndirect3 (a1 b1 c1 : Nat) :
    Nat → Block → Nat → Nat → Nat → List UInt32 → BlockProg Block
  | rounds, indirect3, a0, b0, c0, newBlocks =>
      if a0 < a1 ∨ (a0 = a1 ∧ b0 < b1) ∨ (a0 = a1 ∧ b0 = b1 ∧ c0 < c1) then
        match rounds with
        | 0 => fail .panic
        | rounds + 1 => do
            assert (a0 < INODE_INDIRECT1_COUNT)
            let (indirect3, newBlocks) ←
              nextIf (b0 = 0) (fun b x => b.setEntry a0 x) indirect3 newBlocks
            let newBlocks ← modifyBlock (indirect3.entry a0).toNat fun indirect2 => do
              assert (b0 < INODE_INDIRECT1_COUNT)
              let (indirect2, newBlocks) ←
                nextIf (c0 = 0) (fun b x => b.setEntry b0 x) indirect2 newBlocks
              let newBlocks ← modifyBlock (indirect2.entry b0).toNat fun indirect1 => do
                let (x, newBlocks) ← next newBlocks
                pure (newBlocks, indirect1.setEntry c0 x)
              pure (newBlocks, indirect2)
            let (b0, c0) := if c0 + 1 = INODE_INDIRECT1_COUNT then (b0 + 1, 0) else (b0, c0 + 1)
            if b0 = INODE_INDIRECT2_COUNT then
              fillIndirect3 a1 b1 c1 rounds indirect3 (a0 + 1) 0 c0 newBlocks
            else fillIndirect3 a1 b1 c1 rounds indirect3 a0 b0 c0 newBlocks
      else pure indirect3

/-- The part of `increase_size` for the triple indirect block. -/
def increaseIndirect3 (d : DiskInode) (current total : Nat) (newBlocks : List UInt32) :
    BlockProg DiskInode := do
  if total > INODE_INDIRECT2_COUNT then
    let (d, newBlocks) ←
      nextIf (current = INODE_INDIRECT2_COUNT) (fun d x => { d with indirect3 := x }) d newBlocks
    let current ← sub current INODE_INDIRECT2_COUNT
    let total := total - INODE_INDIRECT2_COUNT
    let a0 := current / INODE_INDIRECT2_COUNT
    let b0 := current % INODE_INDIRECT2_COUNT / INODE_INDIRECT1_COUNT
    let c0 := current % INODE_INDIRECT2_COUNT % INODE_INDIRECT1_COUNT
    let a1 := total / INODE_INDIRECT2_COUNT
    let b1 := total % INODE_INDIRECT2_COUNT / INODE_INDIRECT1_COUNT
    let c1 := total % INODE_INDIRECT2_COUNT % INODE_INDIRECT1_COUNT
    modifyBlock d.indirect3.toNat fun indirect3 => do
      let indirect3 ← fillIndirect3 a1 b1 c1 newBlocks.length indirect3 a0 b0 c0 newBlocks
      pure ((), indirect3)
    pure d
  else pure d

/-- The part of `increase_size` for the double indirect block and below. -/
def increaseIndirect2 (d : DiskInode) (current total : Nat) (newBlocks : List UInt32) :
    BlockProg DiskInode := do
  if total > INODE_INDIRECT1_COUNT then
    let (d, newBlocks) ←
      nextIf (current = INODE_INDIRECT1_COUNT) (fun d x => { d with indirect2 := x }) d newBlocks
    let current ← sub current INODE_INDIRECT1_COUNT
    let total := total - INODE_INDIRECT1_COUNT
    let a0 := current / INODE_INDIRECT1_COUNT
    let b0 := current % INODE_INDIRECT1_COUNT
    let a1 := total / INODE_INDIRECT1_COUNT
    let b1 := total % INODE_INDIRECT1_COUNT
    let newBlocks ← modifyBlock d.indirect2.toNat fun indirect2 => do
      let (indirect2, newBlocks) ←
        fillIndirect2 a1 b1 newBlocks.length indirect2 a0 b0 newBlocks
      pure (newBlocks, indirect2)
    increaseIndirect3 d current total newBlocks
  else pure d

/-- The part of `increase_size` for the indirect block and below. -/
def increaseIndirect1 (d : DiskInode) (current total : Nat) (newBlocks : List UInt32) :
    BlockProg DiskInode := do
  if total > INODE_DIRECT_COUNT then
    let (d, newBlocks) ←
      nextIf (current = INODE_DIRECT_COUNT) (fun d x => { d with indirect1 := x }) d newBlocks
    let current ← sub current INODE_DIRECT_COUNT
    let total := total - INODE_DIRECT_COUNT
    let (current, newBlocks) ← modifyBlock d.indirect1.toNat fun indirect1 => do
      let (indirect1, current, newBlocks) ←
        fill Block.setEntry (min total INODE_INDIRECT1_COUNT) indirect1 current newBlocks
      pure ((current, newBlocks), indirect1)
    increaseIndirect2 d current total newBlocks
  else pure d

/-- `increase_size`. -/
def increaseSize (d : DiskInode) (newSize : UInt32) (newBlocks : List UInt32) :
    BlockProg DiskInode := do
  let current ← d.dataBlocks
  let d := { d with size := newSize }
  let total ← d.dataBlocks
  let (d, current, newBlocks) ← fill setDirect (min total INODE_DIRECT_COUNT) d current newBlocks
  increaseIndirect1 d current total newBlocks

/-- The ids of full blocks under `indirect2`, each followed by its entries. -/
def clearFull : List UInt32 → List UInt32 → BlockProg (List UInt32)
  | [], v => pure v
  | entry :: rest, v => do
      let v := v ++ [entry]
      let v ← modifyBlock entry.toNat fun indirect1 =>
        pure (v ++ indirect1.entries INODE_INDIRECT1_COUNT, indirect1)
      clearFull rest v

/-- `clear_size`. It asserts that the data blocks end at or before
`INDIRECT2_BOUND`, so what it does about `indirect3` is never reached. -/
def clearSize (d : DiskInode) : BlockProg (List UInt32 × DiskInode) := do
  let dataBlocks ← d.dataBlocks
  let (v, d) := (List.range (min dataBlocks INODE_DIRECT_COUNT)).foldl
    (fun (v, d) i => (v ++ [d.directAt i], d.setDirect i 0)) ([], { d with size := 0 })
  if dataBlocks > INODE_DIRECT_COUNT then
    let v := v ++ [d.indirect1]
    let dataBlocks := dataBlocks - INODE_DIRECT_COUNT
    let v ← modifyBlock d.indirect1.toNat fun indirect1 =>
      pure (v ++ indirect1.entries (min dataBlocks INODE_INDIRECT1_COUNT), indirect1)
    let d := { d with indirect1 := 0 }
    if dataBlocks > INODE_INDIRECT1_COUNT then
      let v := v ++ [d.indirect2]
      let dataBlocks := dataBlocks - INODE_INDIRECT1_COUNT
      assert (dataBlocks ≤ INODE_INDIRECT2_COUNT)
      let a1 := dataBlocks / INODE_INDIRECT1_COUNT
      let b1 := dataBlocks % INODE_INDIRECT1_COUNT
      let v ← modifyBlock d.indirect2.toNat fun indirect2 => do
        let v ← clearFull (indirect2.entries a1) v
        if b1 > 0 then
          let v := v ++ [indirect2.entry a1]
          let v ← modifyBlock (indirect2.entry a1).toNat fun indirect1 =>
            pure (v ++ indirect1.entries b1, indirect1)
          pure (v, indirect2)
        else pure (v, indirect2)
      pure (v, { d with indirect2 := 0 })
    else pure (v, d)
  else pure (v, d)

/-! ### Data -/

/-- Where the part of the range `start .. stop` in the block of `start` ends. -/
def endCurrentBlock (start stop : Nat) : Nat := min ((start / BLOCK_SZ + 1) * BLOCK_SZ) stop

theorem endCurrentBlock_decreases {start stop : Nat} (h : endCurrentBlock start stop ≠ stop) :
    stop - endCurrentBlock start stop < stop - start := by
  simp only [endCurrentBlock, BLOCK_SZ] at h ⊢
  omega

/-- The loop of `read_at`: the bytes from `start` up to `stop`, block by
block. -/
def readLoop (d : DiskInode) (stop start startBlock : Nat) (buf : List UInt8) :
    BlockProg (List UInt8) :=
  d.blockId (UInt32.ofNat startBlock) >>= fun id =>
  readBlock id.toNat (fun b =>
    pure (buf ++ b.slice (start % BLOCK_SZ) (endCurrentBlock start stop - start))) >>= fun buf =>
  if _h : endCurrentBlock start stop = stop then pure buf
  else readLoop d stop (endCurrentBlock start stop) (startBlock + 1) buf
termination_by stop - start
decreasing_by exact endCurrentBlock_decreases _h

/-- `DiskInode::read_at`: the bytes put at the start of the buffer; their
number is what the function returns. -/
def readAt (d : DiskInode) (offset len : Nat) : BlockProg (List UInt8) := do
  let stop ← add (2 ^ 64) offset len
  let stop := min stop d.size.toNat
  if offset ≥ stop then pure []
  else d.readLoop stop offset (offset / BLOCK_SZ) []

/-- The loop of `write_at`. -/
def writeLoop (d : DiskInode) (buf : List UInt8) (stop start startBlock writeSize : Nat) :
    BlockProg Nat :=
  let blockWriteSize := endCurrentBlock start stop - start
  d.blockId (UInt32.ofNat startBlock) >>= fun id =>
  modifyBlock id.toNat (fun b =>
    pure ((), b.write (start % BLOCK_SZ) ((buf.drop writeSize).take blockWriteSize))) >>= fun _ =>
  if _h : endCurrentBlock start stop = stop then pure (writeSize + blockWriteSize)
  else writeLoop d buf stop (endCurrentBlock start stop) (startBlock + 1) (writeSize + blockWriteSize)
termination_by stop - start
decreasing_by exact endCurrentBlock_decreases _h

/-- `DiskInode::write_at`. -/
def writeAt (d : DiskInode) (offset : Nat) (buf : List UInt8) : BlockProg Nat := do
  let stop ← add (2 ^ 64) offset buf.length
  let stop := min stop d.size.toNat
  assert (offset ≤ stop)
  d.writeLoop buf stop offset (offset / BLOCK_SZ) 0

end DiskInode

/-! ## The directory entry -/

structure DirEntry where
  name : List UInt8
  inodeNumber : UInt32

namespace DirEntry

/-- `DirEntry::new`; a name that does not fit panics. -/
def new (name : String) (inodeNumber : UInt32) : BlockProg DirEntry := do
  let bytes := name.toUTF8.data.toList
  assert (bytes.length ≤ NAME_LENGTH_LIMIT + 1)
  pure ⟨bytes ++ List.replicate (NAME_LENGTH_LIMIT + 1 - bytes.length) 0, inodeNumber⟩

def asBytes (e : DirEntry) : List UInt8 := e.name ++ leBytes 4 e.inodeNumber.toNat

/-- The entry in 32 bytes. -/
def ofBytes (bs : List UInt8) : DirEntry :=
  ⟨bs.take (NAME_LENGTH_LIMIT + 1), UInt32.ofNat (leNat (bs.drop (NAME_LENGTH_LIMIT + 1)))⟩

/-- The name up to its first zero byte, which must exist. -/
def nameStr (e : DirEntry) : BlockProg String := do
  assert (0 ∈ e.name)
  unwrap (String.fromUTF8? ⟨(e.name.takeWhile (· ≠ 0)).toArray⟩)

end DirEntry

end Nimloth
