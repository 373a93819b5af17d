import Mathlib.Tactic.Common
import Nimloth.Ownership

/-!
# What a file holds

To its users the file system is a map from files to byte arrays. `AbsStep`
is that map with the same calls: a write replaces a range and fills a gap
with zeros, a read takes a range, `clear` empties the file, and a new
file appends one entry to its directory. Every run of the file system
whose blocks stay on the disk is a run of the map with the same results.

The bytes between the end of a file and the end of its last block are
zero, and so is every free block of the disk: `create` and `dealloc_data`
zero them, and nobody writes to a block that is not theirs. That is
why a file can grow without writing what is in between.
-/

namespace Nimloth

open BlockProg

/-! ## The abstract file system -/

structure AbsFile where
  type : DiskInodeType
  bytes : List UInt8

/-- The files, by inode number. -/
abbrev AbsFs := Nat → Option AbsFile

/-- `buf` at `offset`; a gap before it is filled with zeros. -/
def overwrite (bytes : List UInt8) (offset : Nat) (buf : List UInt8) : List UInt8 :=
  (bytes ++ List.replicate (offset - bytes.length) 0).take offset ++ buf
    ++ bytes.drop (offset + buf.length)

/-- The name in entry `i` of a directory. -/
def nameAt (bytes : List UInt8) (i : Nat) : Option String :=
  let name := ((bytes.drop (32 * i)).take 32).take 28
  if 0 ∈ name then String.fromUTF8? ⟨(name.takeWhile (· ≠ 0)).toArray⟩ else none

/-- The inode number in entry `i` of a directory. -/
def numberAt (bytes : List UInt8) (i : Nat) : UInt32 :=
  (DirEntry.ofBytes ((bytes.drop (32 * i)).take 32)).inodeNumber

/-- The directory has an entry of that name. -/
def Lists (bytes : List UInt8) (name : String) : Prop :=
  ∃ i, i < bytes.length / 32 ∧ nameAt bytes i = some name

/-- One call on the map. -/
inductive AbsStep (mgr : BlockManager) : AbsFs → FsEvent → AbsFs → Prop
  | create {m : AbsFs} {f g : Nat} {bytes : List UInt8} {name : String} {type : DiskInodeType} :
      m f = some ⟨.dir, bytes⟩ → m g = none → ¬ Lists bytes name →
      AbsStep mgr m (.create (mgr.inode f) name type (some (mgr.inode g)))
        (Function.update (Function.update m g (some ⟨type, []⟩)) f
          (some ⟨.dir, bytes ++ BlockManager.entryBytes name g⟩))
  | found {m : AbsFs} {f : Nat} {bytes : List UInt8} {name : String} {type : DiskInodeType} :
      m f = some ⟨.dir, bytes⟩ → Lists bytes name →
      AbsStep mgr m (.create (mgr.inode f) name type none) m
  | write {m : AbsFs} {f : Nat} {bytes : List UInt8} {offset : Nat} {buf : List UInt8} :
      m f = some ⟨.file, bytes⟩ →
      AbsStep mgr m (.write (mgr.inode f) offset buf buf.length)
        (Function.update m f (some ⟨.file, overwrite bytes offset buf⟩))
  | read {m : AbsFs} {f : Nat} {a : AbsFile} {offset len : Nat} : m f = some a →
      AbsStep mgr m (.read (mgr.inode f) offset len ((a.bytes.drop offset).take len)) m
  | clear {m : AbsFs} {f : Nat} {bytes : List UInt8} : m f = some ⟨.file, bytes⟩ →
      AbsStep mgr m (.clear (mgr.inode f)) (Function.update m f (some ⟨.file, []⟩))

/-- An empty root directory. -/
def AbsFs.start : AbsFs := fun f => if f = 0 then some ⟨.dir, []⟩ else none

theorem overwrite_length (bytes : List UInt8) (offset : Nat) (buf : List UInt8) :
    (overwrite bytes offset buf).length = max bytes.length (offset + buf.length) := by
  simp only [overwrite, List.length_append, List.length_take, List.length_replicate,
    List.length_drop]
  omega

theorem overwrite_getD (bytes : List UInt8) (offset : Nat) (buf : List UInt8) (j : Nat) :
    (overwrite bytes offset buf).getD j 0
      = if offset ≤ j ∧ j < offset + buf.length then buf.getD (j - offset) 0
        else bytes.getD j 0 := by
  have hlen : ((bytes ++ List.replicate (offset - bytes.length) 0).take offset).length
      = offset := by
    simp only [List.length_take, List.length_append, List.length_replicate]
    omega
  unfold overwrite
  by_cases hlt : j < offset
  · rw [if_neg (by omega), List.append_assoc, List.getD_append _ _ _ _ (by omega)]
    simp only [List.getD_eq_getElem?_getD, List.getElem?_take_of_lt hlt]
    by_cases hj : j < bytes.length
    · rw [List.getElem?_append_left hj]
    · rw [List.getElem?_append_right (by omega), List.getElem?_eq_none (by omega : bytes.length ≤ j),
        List.getElem?_replicate]
      split <;> rfl
  · by_cases hin : j < offset + buf.length
    · rw [if_pos ⟨by omega, hin⟩, List.getD_append _ _ _ _ (by rw [List.length_append]; omega),
        List.getD_append_right _ _ _ _ (by omega), hlen]
    · rw [if_neg (by omega), List.getD_append_right _ _ _ _ (by rw [List.length_append]; omega),
        List.length_append, hlen]
      simp only [List.getD_eq_getElem?_getD, List.getElem?_drop]
      rw [show offset + buf.length + (j - (offset + buf.length)) = j by omega]

/-- At the end of a file, writing is appending. -/
theorem overwrite_end (bytes buf : List UInt8) :
    overwrite bytes bytes.length buf = bytes ++ buf := by
  simp [overwrite]

/-! ## The bytes of a file on the disk -/

theorem fileByte_frame {σ σ' : Store} {d : DiskInode} {n j : Nat}
    (h : ∀ x ∈ owned σ d n, σ' x.toNat = σ x.toNat) (hj : j < 512 * n) :
    fileByte σ' d j = fileByte σ d j := by
  have hnode : (Node.data (j / 512)).since < n := by
    simp only [Node.since]
    omega
  unfold fileByte
  rw [nodeId_frame (fun node hn _ => h _ (nodeId_mem hn)) hnode, h _ (nodeId_mem hnode)]

namespace BlockManager

variable {mgr : BlockManager} {total ibb : Nat} {σ σ' : Store} {f : Nat}

/-- The disk inode `d` holds the file `a`, and zeros up to the end of its last
block. -/
structure Stores (σ : Store) (d : DiskInode) (a : AbsFile) : Prop where
  type : d.type = a.type
  size : d.size.toNat = a.bytes.length
  byte : ∀ j, j < 512 * DiskInode.blockCount d.size → fileByte σ d j = a.bytes.getD j 0

theorem Stores.frame {d : DiskInode} {a : AbsFile} (h : Stores σ d a)
    (hframe : ∀ x ∈ blocksOf σ d, σ' x.toNat = σ x.toNat) : Stores σ' d a where
  type := h.type
  size := h.size
  byte j hj := by rw [fileByte_frame hframe hj, h.byte j hj]

theorem Stores.empty (type : DiskInodeType) {d : DiskInode} (htype : d.type = type)
    (hsize : d.size = 0) : Stores σ d ⟨type, []⟩ where
  type := htype
  size := by simp [hsize]
  byte j hj := by
    rw [hsize] at hj
    simp [DiskInode.blockCount] at hj

/-- Reading the disk is reading the list. -/
theorem Stores.bytesAt {d : DiskInode} {a : AbsFile} (h : Stores σ d a) (offset len : Nat) :
    bytesAt σ d offset (min len (d.size.toNat - offset)) = (a.bytes.drop offset).take len := by
  have hcount := DiskInode.size_le_blocks d.size
  have hsize := h.size
  unfold Nimloth.bytesAt
  apply List.ext_getElem?
  intro k
  simp only [List.getElem?_map, List.getElem?_take, List.getElem?_drop]
  by_cases hk : k < min len (d.size.toNat - offset)
  · rw [List.getElem?_range hk, if_pos (by omega), Option.map_some, h.byte _ (by omega),
      List.getD_eq_getElem?_getD, List.getElem?_eq_getElem (by omega)]
    rfl
  · rw [List.getElem?_eq_none (by rw [List.length_range]; omega)]
    split
    · rw [List.getElem?_eq_none (by omega)]
      rfl
    · rfl

/-- A write: the bytes of `buf` are in place, the old ones stay, and the new
blocks were zero. -/
theorem Overwrote.stores {a : AbsFile} {offset : Nat} {buf : List UInt8} {v : List UInt32}
    {d' : DiskInode} (h : mgr.Overwrote σ f offset buf v σ' d')
    (ha : Stores σ (mgr.inodeAt σ f) a) (hlen : offset + buf.length < 2 ^ 32)
    (hzero : ∀ x ∈ v, σ x.toNat = Block.zero) :
    Stores σ' d' ⟨a.type, overwrite a.bytes offset buf⟩ := by
  obtain ⟨hsize, hre⟩ := h.bytes hlen
  have hsize₀ := ha.size
  have hcount := DiskInode.size_le_blocks (mgr.inodeAt σ f).size
  refine ⟨?_, ?_, ?_⟩
  · rw [h.extended.type, ha.type]
  · rw [hsize, hsize₀, overwrite_length]
  · intro j hj
    rw [overwrite_getD]
    split
    · next hin => exact hre.inside j hin.1 hin.2
    · next hout =>
        by_cases hold : j < 512 * DiskInode.blockCount (mgr.inodeAt σ f).size
        · rw [hre.keep j hold hout, ha.byte j hold]
        · obtain ⟨x, hx, hbyte⟩ := hre.fresh j (by omega) hj hout
          rw [hbyte, hzero x hx, Block.byte_zero, List.getD_eq_getElem?_getD,
            List.getElem?_eq_none (by omega)]
          rfl

/-! ## The whole disk -/

/-- Every block handed out lies on the disk. -/
def OnDisk (mgr : BlockManager) (total : Nat) (σ : Store) : Prop :=
  ∀ k, k < mgr.dataBitmap.blocks * 4096 → mgr.dataBitmap.bit σ k = true →
    mgr.dataAreaStartBlock + k < total

/-- The free blocks of the disk are zero. -/
def FreeZero (mgr : BlockManager) (total : Nat) (σ : Store) : Prop :=
  ∀ k, k < mgr.dataBitmap.blocks * 4096 → mgr.dataBitmap.bit σ k = false →
    mgr.dataAreaStartBlock + k < total → σ (mgr.dataAreaStartBlock + k) = Block.zero

/-- The disk holds the files `m`. -/
structure Holds (mgr : BlockManager) (total : Nat) (σ : Store) (m : AbsFs) : Prop where
  zero : mgr.FreeZero total σ
  used : ∀ f, mgr.Used σ f → ∃ a, m f = some a ∧ Stores σ (mgr.inodeAt σ f) a
    ∧ (a.type = .dir → 32 ∣ a.bytes.length)
  unused : ∀ f, ¬ mgr.Used σ f → m f = none

theorem Holds.created (h : mgr.Created total ibb σ) : mgr.Holds total σ AbsFs.start := by
  obtain ⟨-, hstart, -⟩ := h.layout.blocks
  have hda := h.layout.dataArea
  have hblocks : mgr.inodeBitmap.blocks = ibb := by rw [h.layout.inodeBitmap]
  have hinit : mgr.inodeAt σ 0 = DiskInode.init .dir := by
    have := h.root
    rwa [← h.layout.inodeArea] at this
  refine ⟨?_, ?_, ?_⟩
  · intro k _ _ hk
    exact h.zero _ (by omega) hk
  · rintro f ⟨hf, hbit⟩
    rw [hblocks] at hf
    rw [h.inode f hf] at hbit
    obtain rfl : f = 0 := of_decide_eq_true hbit
    rw [hinit]
    exact ⟨⟨.dir, []⟩, rfl, .empty .dir rfl rfl, fun _ => ⟨0, rfl⟩⟩
  · intro f hf
    unfold AbsFs.start
    rw [if_neg]
    rintro rfl
    have hpos := h.pos
    refine hf ⟨by omega, ?_⟩
    rw [h.inode 0 (by omega)]
    rfl

/-- One file changes to `a`. -/
theorem Holds.changed {m : AbsFs} {a : AbsFile} (hl : mgr.Layout total ibb)
    (hi : mgr.FsInv total ibb σ) (hf : mgr.Used σ f) (hc : mgr.Changed σ f σ')
    (h : mgr.Holds total σ m) (hzero : mgr.FreeZero total σ')
    (ha : Stores σ' (mgr.inodeAt σ' f) a) (hdir : a.type = .dir → 32 ∣ a.bytes.length) :
    mgr.Holds total σ' (Function.update m f (some a)) := by
  refine ⟨hzero, ?_, ?_⟩
  · intro g hg
    by_cases hgf : g = f
    · subst hgf
      exact ⟨a, Function.update_self .., ha, hdir⟩
    · have hg := (hc.used hf hl).mp hg
      obtain ⟨b, hm, hb, hbdir⟩ := h.used g hg
      rw [Function.update_of_ne hgf, hc.inode g hg.1 hgf]
      exact ⟨b, hm, hb.frame fun x hx => hc.other hi hf hg hgf hx, hbdir⟩
  · intro g hg
    have hg := mt (hc.used hf hl).mpr hg
    have hgf : g ≠ f := by
      rintro rfl
      exact hg hf
    rw [Function.update_of_ne hgf, h.unused g hg]

theorem Holds.born {m : AbsFs} {g : Nat} {type : DiskInodeType} (hl : mgr.Layout total ibb)
    (hi : mgr.FsInv total ibb σ) (hb : mgr.Born σ g type σ') (h : mgr.Holds total σ m) :
    mgr.Holds total σ' (Function.update m g (some ⟨type, []⟩)) := by
  have hda := hl.dataArea
  have hstart := hl.blocks.2.1
  refine ⟨?_, ?_, ?_⟩
  · intro k hk hbit hdisk
    have hsame : mgr.dataBitmap.bit σ' k = mgr.dataBitmap.bit σ k := by
      unfold Bitmap.bit
      rw [hb.frame _ (by omega)]
    rw [hb.frame _ (by omega)]
    rw [hsame] at hbit
    exact h.zero k hk hbit hdisk
  · intro f hf
    have hd := hb.inode f hf.1
    by_cases hfg : f = g
    · subst hfg
      rw [if_pos rfl] at hd
      rw [hd]
      exact ⟨_, Function.update_self .., .empty type rfl rfl, fun _ => ⟨0, rfl⟩⟩
    · have hf := ((hb.used f).mp hf).resolve_left hfg
      rw [if_neg hfg] at hd
      obtain ⟨a, hm, ha, hdir⟩ := h.used f hf
      rw [Function.update_of_ne hfg, hd]
      refine ⟨a, hm, ha.frame ?_, hdir⟩
      intro x hx
      have := (hi.owned.area f hf x hx).1
      exact hb.frame _ (by omega)
  · intro f hf
    have hnot := not_or.mp (mt (hb.used f).mpr hf)
    rw [Function.update_of_ne hnot.1, h.unused f hnot.2]

/-- A block that is free before and after the change is not touched. -/
theorem Changed.free_frame (hi : mgr.FsInv total ibb σ) (hf : mgr.Used σ f)
    (hc : mgr.Changed σ f σ') {k : Nat} (hk : k < mgr.dataBitmap.blocks * 4096)
    (hfree : mgr.dataBitmap.bit σ k = false) (hfree' : mgr.dataBitmap.bit σ' k = false) :
    σ' (mgr.dataAreaStartBlock + k) = σ (mgr.dataAreaStartBlock + k) := by
  have hbit := mt (hc.bit k hk).mpr (by simp [hfree'])
  apply hc.frame _ (by omega)
  · intro x hx heq
    have hset := hi.owned.set hf hx
    rw [heq, Nat.add_sub_cancel_left, hfree] at hset
    cases hset
  · intro x hx heq
    exact hbit (.inr ⟨x, hx, heq⟩)

theorem Overwrote.freeZero (hl : mgr.Layout total ibb) (hi : mgr.FsInv total ibb σ)
    (hf : mgr.Used σ f) {offset : Nat} {buf : List UInt8} {v : List UInt32} {d' : DiskInode}
    (h : mgr.Overwrote σ f offset buf v σ' d') (hz : mgr.FreeZero total σ) :
    mgr.FreeZero total (mgr.putInode σ f σ' d') := by
  obtain ⟨hc, -, hown⟩ := h.changed hl hi hf
  intro k hk hfree' hdisk
  have hbit := not_or.mp (mt (hc.bit k hk).mpr (by simp [hfree']))
  have hfree : mgr.dataBitmap.bit σ k = false := by
    by_contra hset
    rw [Bool.not_eq_false] at hset
    refine hbit.1 ⟨hset, ?_⟩
    intro x hx heq
    refine hbit.2 ⟨x, ?_, heq⟩
    rw [hown]
    exact List.mem_append_left _ hx
  rw [hc.free_frame hi hf hk hfree hfree']
  exact hz k hk hfree hdisk

theorem Freed.freeZero (hl : mgr.Layout total ibb) (hi : mgr.FsInv total ibb σ)
    (hf : mgr.Used σ f) {d' : DiskInode} (h : mgr.Freed σ (mgr.ownedBy σ f) σ')
    (hsize : d'.size = 0) (hz : mgr.FreeZero total σ) :
    mgr.FreeZero total (mgr.putInode σ f σ' d') := by
  obtain ⟨hc, -, hnil⟩ := cleared_changed hl hi hf h hsize
  have hlt := (hl.inode_lt hf.1).2
  have hda := hl.dataArea
  have hstart := hl.blocks.2.1
  intro k hk hfree' hdisk
  by_cases hfree : mgr.dataBitmap.bit σ k = false
  · rw [hc.free_frame hi hf hk hfree hfree']
    exact hz k hk hfree hdisk
  · have hbit := not_or.mp (mt (hc.bit k hk).mpr (by simp [hfree']))
    rw [Bool.not_eq_false] at hfree
    -- The bit has been cleared, so the block was one of the file.
    obtain ⟨x, hx, heq⟩ : ∃ x ∈ mgr.ownedBy σ f, x.toNat = mgr.dataAreaStartBlock + k := by
      by_contra hno
      exact hbit.1 ⟨hfree, fun x hx heq => hno ⟨x, hx, heq⟩⟩
    rw [putInode_of_ne d' (by omega), ← heq]
    exact h.zero x hx

/-- The new blocks of a file were free blocks of the disk. -/
theorem Overwrote.zero (hl : mgr.Layout total ibb) (hi : mgr.FsInv total ibb σ)
    (hf : mgr.Used σ f) {offset : Nat} {buf : List UInt8} {v : List UInt32} {d' : DiskInode}
    (h : mgr.Overwrote σ f offset buf v σ' d') (hz : mgr.FreeZero total σ)
    (hdisk : mgr.OnDisk total (mgr.putInode σ f σ' d')) : ∀ x ∈ v, σ x.toNat = Block.zero := by
  obtain ⟨hc, -, hown⟩ := h.changed hl hi hf
  have hi' := hi.changed hf hc hl
  have hf' := (hc.used hf hl).mpr hf
  intro x hx
  obtain ⟨hle, hlt⟩ := h.extended.area x hx
  have hset := hi'.owned.set hf' (x := x) (by
    rw [hown]
    exact List.mem_append_right _ hx)
  have hlt' := hdisk _ (by omega) hset
  have hzero := hz _ (by omega) (h.extended.free x hx) hlt'
  rwa [Nat.add_sub_cancel' hle] at hzero

/-- A file gets `buf` at `offset`. -/
theorem Holds.overwrote {m : AbsFs} {a : AbsFile} {offset : Nat} {buf : List UInt8}
    {v : List UInt32} {d' : DiskInode} (hl : mgr.Layout total ibb) (hi : mgr.FsInv total ibb σ)
    (hf : mgr.Used σ f) (h : mgr.Holds total σ m) (ho : mgr.Overwrote σ f offset buf v σ' d')
    (hdisk : mgr.OnDisk total (mgr.putInode σ f σ' d')) (ha : Stores σ (mgr.inodeAt σ f) a)
    (hlen : offset + buf.length < 2 ^ 32)
    (hdir : a.type = .dir → 32 ∣ (overwrite a.bytes offset buf).length) :
    mgr.Holds total (mgr.putInode σ f σ' d')
      (Function.update m f (some ⟨a.type, overwrite a.bytes offset buf⟩)) := by
  obtain ⟨hc, hd', hown⟩ := ho.changed hl hi hf
  have hstores := ho.stores ha hlen (ho.zero hl hi hf h.zero hdisk)
  have hlt := (hl.inode_lt hf.1).2
  have hda := hl.dataArea
  have hstart := hl.blocks.2.1
  refine h.changed hl hi hf hc (ho.freeZero hl hi hf h.zero) ?_ hdir
  rw [hd']
  refine hstores.frame ?_
  intro x hx
  have harea := (ho.extended.reshaped (hi.fileOk hf)).area x hx
  exact putInode_of_ne d' (by have := harea.1; omega)

/-! ## Directories -/

section Find

variable {d : DiskInode} {a : AbsFile} {held : List Nat} (hn : DiskInode.blockCount d.size ≤ 16539)
  (hheld : ∀ x ∈ blocksOf σ d, x.toNat ∉ held) (ha : Stores σ d a)

include hn hheld ha

theorem readAt_returns {offset len : Nat} (hlen : offset + len < 2 ^ 64) :
    Returns (d.readAt offset len) held σ fun r σ' =>
      σ' = σ ∧ r = (a.bytes.drop offset).take len := by
  apply (DiskInode.readAt_spec hn hheld hlen).mono
  rintro r σ' ⟨hσ, hr⟩
  exact ⟨hσ, hr.trans (ha.bytesAt offset len)⟩

section Entry

variable {E : FsErr → Prop}
  (hE : ∀ i, i < a.bytes.length / 32 → nameAt a.bytes i = none → E .panic)

include hE

/-- Entry `i` is read and its name decoded. -/
theorem dirent_post {i : Nat} (hi : i < a.bytes.length / 32) {α : Type}
    {k : DirEntry → String → BlockProg α} {Q : α → Store → Prop}
    (hk : ∀ e name, nameAt a.bytes i = some name → e.inodeNumber = numberAt a.bytes i →
      Post E (k e name) held σ Q) :
    Post E (do
      let dirent ← Inode.readDirEntry d i
      let direntName ← dirent.nameStr
      k dirent direntName) held σ Q := by
  have hsize := ha.size
  have hlt := d.size.toNat_lt
  have hfull : ((a.bytes.drop (32 * i)).take 32).length = 32 := by
    rw [List.length_take, List.length_drop]
    omega
  unfold Inode.readDirEntry
  rw [Post.bind_iff, Post.bind_iff]
  apply (Post.of_returns (readAt_returns hn hheld ha (by simp only [DIRENT_SZ]; omega))).mono
  rintro bytes σ' ⟨rfl, rfl⟩
  rw [Post.bind_iff, Post.assert_iff]
  refine ⟨?_, fun hne => absurd hfull hne⟩
  intro _
  have hname : nameAt a.bytes i = if 0 ∈ (DirEntry.ofBytes
      ((a.bytes.drop (DIRENT_SZ * i)).take DIRENT_SZ)).name then
        String.fromUTF8? ⟨((DirEntry.ofBytes
          ((a.bytes.drop (DIRENT_SZ * i)).take DIRENT_SZ)).name.takeWhile (· ≠ 0)).toArray⟩
      else none := rfl
  unfold DirEntry.nameStr
  rw [Post.pure_iff, Post.bind_iff, Post.bind_iff, Post.assert_iff]
  refine ⟨?_, ?_⟩
  · intro hzero
    rw [if_pos hzero] at hname
    rw [← hname]
    cases hcase : nameAt a.bytes i with
    | none =>
        rw [Post.unwrap_none]
        exact hE i hi hcase
    | some name =>
        rw [Post.unwrap_some]
        exact hk _ name hcase rfl
  · intro hzero
    rw [if_neg hzero] at hname
    exact hE i hi hname

theorem findLoop_post (name : String) {is : List Nat} (his : ∀ i ∈ is, i < a.bytes.length / 32) :
    Post E (Inode.findLoop name d is) held σ fun r σ' => σ' = σ
      ∧ r = (is.find? fun i => nameAt a.bytes i = some name).map (numberAt a.bytes) := by
  induction is with
  | nil =>
      rw [Inode.findLoop, Post.pure_iff]
      exact ⟨rfl, rfl⟩
  | cons i is ih =>
      unfold Inode.findLoop
      apply dirent_post hn hheld ha hE (his i List.mem_cons_self)
      intro e direntName hname hnumber
      by_cases heq : direntName = name
      · rw [if_pos heq, Post.pure_iff, List.find?_cons_of_pos (by simp [hname, heq]), hnumber]
        exact ⟨rfl, rfl⟩
      · rw [if_neg heq, List.find?_cons_of_neg (by simpa [hname] using heq)]
        exact ih fun j hj => his j (List.mem_cons_of_mem _ hj)

end Entry

/-- `find_inode_id` finds a name exactly if the directory lists it. -/
theorem findInodeId_ensures (name : String) :
    Ensures (Inode.findInodeId name d) held σ fun r σ' =>
      σ' = σ ∧ (r.isSome ↔ Lists a.bytes name) := by
  have hsize := ha.size
  have his : ∀ i ∈ List.range (d.size.toNat / DIRENT_SZ), i < a.bytes.length / 32 := by
    intro i hi
    rw [List.mem_range, hsize] at hi
    exact hi
  unfold Inode.findInodeId
  rw [Ensures, Post.bind_iff, Post.assert_iff]
  refine ⟨?_, fun _ => trivial⟩
  intro _
  apply (findLoop_post hn hheld ha (fun _ _ _ => trivial) name his).mono
  rintro r σ' ⟨hσ, rfl⟩
  refine ⟨hσ, ?_⟩
  rw [Option.isSome_map, List.find?_isSome]
  simp only [List.mem_range, DIRENT_SZ, hsize, decide_eq_true_eq]
  rfl

end Find

/-! ## Runs -/

end BlockManager

/-- A range ends in `u32`, and a buffer to write is not empty. -/
def FsEvent.Fits : FsEvent → Prop
  | .create .. => True
  | .write _ offset buf _ => buf ≠ [] ∧ offset + buf.length < 2 ^ 32
  | .read _ offset len _ => offset + len < 2 ^ 32
  | .clear _ => True

/-- A write ends in `u32`. -/
def FsEvent.InRange : FsEvent → Prop
  | .write _ offset buf _ => offset + buf.length < 2 ^ 32
  | _ => True

theorem FsEvent.Fits.inRange {e : FsEvent} (h : e.Fits) : e.InRange := by
  cases e with
  | create => trivial
  | write => exact h.2
  | read => trivial
  | clear => trivial

/-- A call after which every block in use lies on the disk. -/
structure DiskStep (mgr : BlockManager) (total : Nat) (s : FsState) (e : FsEvent) (s' : FsState) :
    Prop where
  step : FsStep mgr s e s'
  fits : e.Fits
  disk : mgr.OnDisk total s'.store

namespace BlockManager

variable {mgr : BlockManager} {total ibb : Nat} {σ σ' : Store} {f : Nat}

/-- `Inode::read_at` on a file of the map. -/
theorem Holds.readAt {m : AbsFs} {a : AbsFile} (hl : mgr.Layout total ibb)
    (hi : mgr.FsInv total ibb σ) (h : mgr.Holds total σ m) (hf : mgr.Used σ f) (hm : m f = some a)
    {offset len : Nat} (hlen : offset + len < 2 ^ 64) :
    Returns ((mgr.inode f).readAt offset len) [] σ fun r σ' =>
      σ' = σ ∧ r = (a.bytes.drop offset).take len := by
  obtain ⟨b, hb, hstores, -⟩ := h.used f hf
  obtain rfl : b = a := Option.some.inj (hb.symm.trans hm)
  unfold Inode.readAt
  rw [Returns, readDiskInode_iff]
  exact readAt_returns (hi.bound f hf) (ownedBy_not_held hl hi hf) hstores hlen

/-- A read that returns does not overflow. -/
theorem readAt_in_range {offset len : Nat} {r : List UInt8 × Store}
    (hrun : ((mgr.inode f).readAt offset len).flat [] σ = .ok r) : offset + len < 2 ^ 64 := by
  by_contra hover
  have hfail : Post (· = .overflow) ((mgr.inode f).readAt offset len) [] σ fun _ _ => False := by
    unfold Inode.readAt
    rw [readDiskInode_iff]
    unfold DiskInode.readAt
    rw [Post.bind_iff, Post.add_iff]
    exact ⟨fun hlt => absurd hlt hover, fun _ => rfl⟩
  obtain ⟨e, herror, -⟩ := hfail.exists_error
  rw [hrun] at herror
  cases herror

theorem file_iff {d : DiskInode} : d.file = true ↔ d.type = .file := by
  simp [DiskInode.file]

theorem dir_iff {d : DiskInode} : d.dir = true ↔ d.type = .dir := by
  simp [DiskInode.dir]

/-- A new file, and its entry in directory `f`. -/
theorem Holds.entry {m : AbsFs} {bytes : List UInt8} {name : String} {type : DiskInodeType} {g : Nat}
    {σ₁ σ₂ : Store} {v : List UInt32} {d' : DiskInode} (hl : mgr.Layout total ibb)
    (hi : mgr.FsInv total ibb σ) (h : mgr.Holds total σ m) (hf : mgr.Used σ f)
    (hm : m f = some ⟨.dir, bytes⟩) (hborn : mgr.Born σ g type σ₁)
    (hname : (nameBytes name).length ≤ 28)
    (hover : mgr.Overwrote σ₁ f ((mgr.inodeAt σ f).size.toNat / 32 * 32) (entryBytes name g) v σ₂ d')
    (hdisk : mgr.OnDisk total (mgr.putInode σ₁ f σ₂ d')) :
    mgr.Holds total (mgr.putInode σ₁ f σ₂ d') (Function.update (Function.update m g
      (some ⟨type, []⟩)) f (some ⟨.dir, bytes ++ entryBytes name g⟩)) := by
  obtain ⟨a, ha, hstores, h32⟩ := h.used f hf
  obtain rfl : a = ⟨.dir, bytes⟩ := Option.some.inj (ha.symm.trans hm)
  have hlen : (entryBytes name g).length = 32 := length_entryBytes.mpr hname
  have hi₁ := hi.born hl hborn
  have hf₁ := (hborn.used f).mpr (.inr hf)
  have h₁ := h.born hl hi hborn
  have hfg : f ≠ g := by
    rintro rfl
    exact hborn.free hf
  have ha₁ : Stores σ₁ (mgr.inodeAt σ₁ f) ⟨.dir, bytes⟩ := by
    obtain ⟨b, hmb, hb, -⟩ := h₁.used f hf₁
    rw [Function.update_of_ne hfg, hm] at hmb
    cases hmb
    exact hb
  have hsize : (mgr.inodeAt σ f).size.toNat = bytes.length := hstores.size
  have hdvd : 32 ∣ bytes.length := h32 rfl
  have hbound := hi.bound f hf
  unfold DiskInode.blockCount at hbound
  rw [hsize, Nat.div_mul_cancel hdvd] at hover
  have hholds := h₁.overwrote hl hi₁ hf₁ hover hdisk ha₁ (by omega) (by
    intro _
    rw [overwrite_end, List.length_append, hlen]
    exact Nat.dvd_add hdvd ⟨1, rfl⟩)
  rwa [overwrite_end] at hholds

/-- One step of the file system is one of the map. -/
theorem Holds.step {s s' : FsState} {e : FsEvent} {m : AbsFs} (hl : mgr.Layout total ibb)
    (hfit : ibb * 4096 ≤ 2 ^ 32) (hok : mgr.FsOk total ibb s) (h : mgr.Holds total s.store m)
    (hstep : FsStep mgr s e s') (hrange : e.InRange) (hdisk : mgr.OnDisk total s'.store) :
    ∃ m', mgr.Holds total s'.store m' ∧ AbsStep mgr m e m' := by
  have hi := hok.inv
  cases hstep with
  | @create dir name type r σ hdir hrun =>
      obtain ⟨f, hf, rfl⟩ := hok.handles dir hdir
      obtain ⟨a, hm, ha, h32⟩ := h.used f hf
      have hfind := findInodeId_ensures (hi.bound f hf) (ownedBy_not_held hl hi hf) ha name
      have hpost := (createInode_post hl hfit hi hf (.any mgr total s.store f name)
        fun _ => hfind).ok hrun
      have htype : a.type = .dir := by
        rw [← ha.type]
        exact dir_iff.mp hpost.1
      obtain ⟨type', bytes⟩ := a
      dsimp only at htype h32
      subst htype
      cases r with
      | none =>
          obtain ⟨-, rfl, id, hlists⟩ := hpost
          exact ⟨m, h, .found hm (hlists.mp rfl)⟩
      | some ino =>
          obtain ⟨-, hnot, hname, g, σ₁, v, σ₂, d', rfl, hborn, hover, rfl, -⟩ := hpost
          exact ⟨_, h.entry hl hi hf hm hborn hname hover hdisk,
            .create hm (h.unused g hborn.free) (mt hnot.mpr (by simp))⟩
  | @write file offset buf r σ hfile hrun =>
      obtain ⟨f, hf, rfl⟩ := hok.handles file hfile
      obtain ⟨⟨type, bytes⟩, hm, ha, h32⟩ := h.used f hf
      obtain ⟨htype, hr, v, σ₁, d', hover, rfl, -⟩ :=
        (writeAt_post hl hi hf (.any mgr total s.store f offset buf)).ok hrun
      have hlen : offset + buf.length < 2 ^ 32 := hrange
      obtain rfl : type = .file := ha.type.symm.trans (file_iff.mp htype)
      obtain rfl : r = buf.length := hr hlen
      refine ⟨_, h.overwrote hl hi hf hover hdisk ha hlen ?_, .write hm⟩
      intro hdir
      cases hdir
  | @read file offset len r σ hfile hrun =>
      obtain ⟨f, hf, rfl⟩ := hok.handles file hfile
      obtain ⟨a, hm, -, -⟩ := h.used f hf
      obtain ⟨rfl, rfl⟩ := (h.readAt hl hi hf hm (readAt_in_range hrun)).ok hrun
      exact ⟨m, h, .read hm⟩
  | @clear file σ hfile hrun =>
      obtain ⟨f, hf, rfl⟩ := hok.handles file hfile
      obtain ⟨⟨type, bytes⟩, hm, ha, h32⟩ := h.used f hf
      obtain ⟨htype, σ₁, d', hfreed, hsize, htype', rfl⟩ := (clear_ensures hl hi hf).ok hrun
      obtain rfl : type = .file := ha.type.symm.trans (file_iff.mp htype)
      obtain ⟨hc, hd', -⟩ := cleared_changed hl hi hf hfreed hsize
      have htype'' : d'.type = .file := htype'.trans ha.type
      refine ⟨_, h.changed hl hi hf hc (hfreed.freeZero hl hi hf hsize h.zero) ?_ ?_, .clear hm⟩
      · rw [hd']
        exact .empty .file htype'' hsize
      · intro hdir
        cases hdir

end BlockManager

end Nimloth
