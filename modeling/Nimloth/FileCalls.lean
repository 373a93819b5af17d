import Mathlib.Tactic.Common
import Nimloth.Mounted

/-!
# The calls on a mounted disk

One rule for each call of `vfs.rs`, from a mounted disk to a mounted disk:
which file of the map it changes, what it returns, and how many blocks
of the disk it takes. With enough of them a call does not fail.
-/

namespace Nimloth

open BlockProg

namespace BlockManager

variable {mgr : BlockManager} {total ibb : Nat} {σ σ' : Store} {f : Nat}

/-! ## Blocks on the disk -/

theorem bit_putInode (hl : mgr.Layout total ibb) (hf : mgr.Used σ f) (d : DiskInode) (k : Nat) :
    mgr.dataBitmap.bit (mgr.putInode σ f σ' d) k = mgr.dataBitmap.bit σ' k := by
  have hlt := (hl.inode_lt hf.1).2
  unfold Bitmap.bit
  rw [putInode_of_ne d (by omega)]

section Overwrote

variable {offset : Nat} {buf : List UInt8} {v : List UInt32} {d' : DiskInode}
  (hl : mgr.Layout total ibb) (hf : mgr.Used σ f) (h : mgr.Overwrote σ f offset buf v σ' d')

include hl hf h

theorem Overwrote.bit {k : Nat} (hk : k < mgr.dataBitmap.blocks * 4096) :
    mgr.dataBitmap.bit (mgr.putInode σ f σ' d') k = true
      ↔ mgr.dataBitmap.bit σ k = true ∨ ∃ x ∈ v, x.toNat = mgr.dataAreaStartBlock + k := by
  rw [bit_putInode hl hf]
  exact h.extended.bit k hk

theorem Overwrote.onDisk (hdisk : mgr.OnDisk total σ) (hv : ∀ x ∈ v, x.toNat < total) :
    mgr.OnDisk total (mgr.putInode σ f σ' d') := by
  intro k hk hbit
  rcases (h.bit hl hf hk).mp hbit with hold | ⟨x, hx, heq⟩
  · exact hdisk k hk hold
  · rw [← heq]
    exact hv x hx

/-- The free blocks of the disk become fewer by those taken. -/
theorem Overwrote.room (hv : ∀ x ∈ v, x.toNat < total) :
    mgr.room total (mgr.putInode σ f σ' d') + v.length = mgr.room total σ := by
  have hnd : (v.map fun x => x.toNat - mgr.dataAreaStartBlock).Nodup := by
    refine List.Nodup.map_on ?_ (List.nodup_append.mp h.extended.nodup).2.1
    intro x hx y hy heq
    have hx := (h.extended.area x hx).1
    have hy := (h.extended.area y hy).1
    exact UInt32.toNat_inj.mp (by omega)
  have hcard := List.toFinset_card_of_nodup hnd
  rw [List.length_map] at hcard
  have hsub : (v.map fun x => x.toNat - mgr.dataAreaStartBlock).toFinset
      ⊆ mgr.freeBlocks total σ := by
    intro k hk
    obtain ⟨x, hx, rfl⟩ := List.mem_map.mp (List.mem_toFinset.mp hk)
    obtain ⟨hle, hlt⟩ := h.extended.area x hx
    have hdisk := hv x hx
    exact mem_freeBlocks.mpr ⟨by omega, h.extended.free x hx, by omega⟩
  have hfree : mgr.freeBlocks total (mgr.putInode σ f σ' d') = mgr.freeBlocks total σ
      \ (v.map fun x => x.toNat - mgr.dataAreaStartBlock).toFinset := by
    ext k
    rw [Finset.mem_sdiff, List.mem_toFinset, List.mem_map, mem_freeBlocks, mem_freeBlocks]
    have hmem : (∃ x ∈ v, x.toNat - mgr.dataAreaStartBlock = k)
        ↔ ∃ x ∈ v, x.toNat = mgr.dataAreaStartBlock + k := by
      refine exists_congr fun x => and_congr_right fun hx => ?_
      have hle := (h.extended.area x hx).1
      omega
    rw [hmem]
    by_cases hk : k < mgr.dataBitmap.blocks * 4096
    · have hbit := h.bit hl hf hk
      cases hnew : mgr.dataBitmap.bit (mgr.putInode σ f σ' d') k with
      | true =>
          rcases hbit.mp hnew with hold | hv
          · simp [hold]
          · simp [hv]
      | false =>
          rw [hnew] at hbit
          have hnone := not_or.mp (mt hbit.mpr (by simp))
          simp only [Bool.not_eq_true] at hnone
          simp [hnone]
    · simp [hk]
  unfold BlockManager.room
  rw [hfree, ← hcard]
  exact Finset.card_sdiff_add_card_eq_card hsub

end Overwrote

theorem Born.onDisk {g : Nat} {type : DiskInodeType} (hb : mgr.Born σ g type σ')
    (hdisk : mgr.OnDisk total σ) : mgr.OnDisk total σ' := by
  intro k hk hbit
  unfold Bitmap.bit at hbit
  rw [hb.frame _ (Nat.le_add_left ..)] at hbit
  exact hdisk k hk hbit

theorem Freed.onDisk (hl : mgr.Layout total ibb) (hf : mgr.Used σ f) {d' : DiskInode}
    {v : List UInt32} (h : mgr.Freed σ v σ') (hdisk : mgr.OnDisk total σ) :
    mgr.OnDisk total (mgr.putInode σ f σ' d') := by
  intro k hk hbit
  rw [bit_putInode hl hf] at hbit
  exact hdisk k hk ((h.bit k hk).mp hbit).1

/-- Blocks that are given back become free. -/
theorem Freed.room (hl : mgr.Layout total ibb) (hf : mgr.Used σ f) {d' : DiskInode}
    {v : List UInt32} (h : mgr.Freed σ v σ') :
    mgr.room total σ ≤ mgr.room total (mgr.putInode σ f σ' d') := by
  apply Finset.card_le_card
  intro k hk
  obtain ⟨hlt, hfree, hdisk⟩ := mem_freeBlocks.mp hk
  refine mem_freeBlocks.mpr ⟨hlt, ?_, hdisk⟩
  rw [bit_putInode hl hf]
  by_contra hset
  rw [Bool.not_eq_false] at hset
  have hold := ((h.bit k hlt).mp hset).1
  rw [hfree] at hold
  cases hold

/-- The blocks that a file takes, with those of its index. -/
def fileBlocks (size : Nat) : Nat := DiskInode.blocksWithIndex ((size + 511) / 512)

theorem fileBlocks_mono {n k : Nat} (h : n ≤ k) : fileBlocks n ≤ fileBlocks k :=
  blocksWithIndex_mono (Nat.div_le_div_right (Nat.add_le_add_right h _))

theorem blocksFor_eq {d : DiskInode} {n k : Nat} (hk : k < 2 ^ 32) (hn : d.size.toNat = n) :
    blocksFor d (UInt32.ofNat k) = fileBlocks k - fileBlocks n := by
  rw [blocksFor, DiskInode.blockCount, DiskInode.blockCount, UInt32.toNat_ofNat',
    Nat.mod_eq_of_lt hk, hn]
  rfl

/-! ## The calls -/

variable {P : Inode → String → Prop} {m : AbsFs} {E : FsErr → Prop}

theorem Mounted.used (h : mgr.Mounted total ibb P σ m) {a : AbsFile} (hm : m f = some a) :
    mgr.Used σ f :=
  (h.holds.stores hm).1

theorem Mounted.size (h : mgr.Mounted total ibb P σ m) {a : AbsFile} (hm : m f = some a) :
    (mgr.inodeAt σ f).size.toNat = a.bytes.length ∧ (mgr.inodeAt σ f).type = a.type :=
  ⟨(h.holds.stores hm).2.1.size, (h.holds.stores hm).2.1.type⟩

theorem Mounted.readAt (h : mgr.Mounted total ibb P σ m) (hl : mgr.Layout total ibb)
    {a : AbsFile} (hm : m f = some a) {offset len : Nat} (hlen : offset + len < 2 ^ 64) :
    Returns ((mgr.inode f).readAt offset len) [] σ fun r σ' =>
      σ' = σ ∧ r = (a.bytes.drop offset).take len :=
  h.holds.readAt hl h.inv (h.used hm) hm hlen

/-- With fewer files than inodes, one is free. -/
theorem Mounted.exists_free (h : mgr.Mounted total ibb P σ m) (hl : mgr.Layout total ibb)
    (files : List Nat) (hfiles : ∀ g, (m g).isSome → g ∈ files)
    (hlen : files.length < ibb * 4096) :
    ∃ g, g < mgr.inodeBitmap.blocks * 4096 ∧ mgr.inodeBitmap.bit σ g = false := by
  have hblocks : mgr.inodeBitmap.blocks = ibb := by rw [hl.inodeBitmap]
  by_contra hall
  have hused : ∀ g ∈ List.range (ibb * 4096), g ∈ files := by
    intro g hg
    have hlt := List.mem_range.mp hg
    have hbit : mgr.inodeBitmap.bit σ g = true := by
      by_contra hclear
      exact hall ⟨g, by rwa [hblocks], by simpa using hclear⟩
    exact hfiles g (h.holds.used_iff.mp ⟨by rwa [hblocks], hbit⟩)
  have hle := (List.subperm_of_subset List.nodup_range hused).length_le
  rw [List.length_range] at hle
  omega

/-- The same files with the same contents, as `read_at` shows them. -/
structure SameFiles (mgr : BlockManager) (σ σ' : Store) : Prop where
  used : ∀ g, mgr.Used σ g ↔ mgr.Used σ' g
  size : ∀ g, mgr.Used σ g → (mgr.inodeAt σ' g).size = (mgr.inodeAt σ g).size
  read : ∀ g offset len, mgr.Used σ g → offset + len < 2 ^ 64 →
    ∃ bytes, ((mgr.inode g).readAt offset len).flat [] σ = .ok (bytes, σ)
      ∧ ((mgr.inode g).readAt offset len).flat [] σ' = .ok (bytes, σ')

theorem Mounted.same (h : mgr.Mounted total ibb P σ m) (h' : mgr.Mounted total ibb P σ' m)
    (hl : mgr.Layout total ibb) : mgr.SameFiles σ σ' := by
  have hfile : ∀ g, mgr.Used σ g → ∃ a, m g = some a :=
    fun g hg => Option.isSome_iff_exists.mp (h.holds.used_iff.mp hg)
  refine ⟨fun g => h.holds.used_iff.trans h'.holds.used_iff.symm, ?_, ?_⟩
  · intro g hg
    obtain ⟨a, ha⟩ := hfile g hg
    rw [← UInt32.toNat_inj, (h'.size ha).1, (h.size ha).1]
  · intro g offset len hg hlen
    obtain ⟨a, ha⟩ := hfile g hg
    obtain ⟨r, σ₁, hread, rfl, rfl⟩ := (h.readAt hl ha hlen).exists_ok
    obtain ⟨r', σ₂, hread', rfl, rfl⟩ := (h'.readAt hl ha hlen).exists_ok
    exact ⟨_, hread, hread'⟩

/-- A file is written. -/
theorem Mounted.writeAt (h : mgr.Mounted total ibb P σ m) (hl : mgr.Layout total ibb)
    {bytes : List UInt8} (hm : m f = some ⟨.file, bytes⟩) {offset : Nat} {buf : List UInt8}
    (hlen : offset + buf.length < 2 ^ 32)
    (hE : WriteFaults E mgr total σ f offset buf)
    (hroom : blocksFor (mgr.inodeAt σ f) (UInt32.ofNat (offset + buf.length)) ≤ mgr.room total σ) :
    Post E (Inode.writeAt mgr (mgr.inode f) offset buf) [] σ fun r σ' => r = buf.length
      ∧ mgr.Mounted total ibb P σ' (Function.update m f (some ⟨.file, overwrite bytes offset buf⟩))
      ∧ mgr.room total σ' + blocksFor (mgr.inodeAt σ f) (UInt32.ofNat (offset + buf.length))
        = mgr.room total σ := by
  obtain ⟨hf, hstores, -⟩ := h.holds.stores hm
  apply (writeAt_post hl h.inv hf hE).mono
  rintro r σ' ⟨-, hr, v, σ₁, d', hover, rfl, hv⟩
  have hdisk := hover.onDisk hl hf h.disk (hv.disk hroom)
  have hholds := h.holds.overwrote hl h.inv hf hover hdisk hstores hlen fun hdir => by cases hdir
  refine ⟨hr hlen, ⟨?_, hholds, hdisk, h.dirs.file hm⟩, ?_⟩
  · exact h.inv.changed hf (hover.changed hl h.inv hf).1 hl
  · rw [← hv.length]
    exact hover.room hl hf (hv.disk hroom)

/-- Nothing goes wrong in a write within the bounds of a file and the disk. -/
theorem Mounted.writeFaults (h : mgr.Mounted total ibb P σ m) {bytes : List UInt8}
    (hm : m f = some ⟨.file, bytes⟩) {offset : Nat} {buf : List UInt8}
    (hstuck : ¬ (buf = [] ∧ (mgr.inodeAt σ f).size.toNat ≤ offset ∧ 512 ∣ offset))
    (hfit : offset + buf.length ≤ INDIRECT2_BOUND * BLOCK_SZ)
    (hroom : blocksFor (mgr.inodeAt σ f) (UInt32.ofNat (offset + buf.length)) ≤ mgr.room total σ) :
    WriteFaults (fun _ => False) mgr total σ f offset buf := by
  have hbound : offset + buf.length ≤ 16539 * 512 := hfit
  refine ⟨?_, fun hlarge => absurd hlarge (by omega), fun hlt => absurd hroom (by omega), ?_⟩
  · intro hfalse
    rw [file_iff.mpr (h.size hm).2] at hfalse
    cases hfalse
  · rintro ⟨hnil | hlarge, hend⟩
    · exact absurd ⟨hnil, hend⟩ hstuck
    · omega

/-- A file is emptied. -/
theorem Mounted.clear (h : mgr.Mounted total ibb P σ m) (hl : mgr.Layout total ibb)
    {bytes : List UInt8} (hm : m f = some ⟨.file, bytes⟩) :
    Returns (Inode.clear mgr (mgr.inode f)) [] σ fun _ σ' =>
      mgr.Mounted total ibb P σ' (Function.update m f (some ⟨.file, []⟩))
        ∧ mgr.room total σ ≤ mgr.room total σ' := by
  obtain ⟨hf, hstores, -⟩ := h.holds.stores hm
  apply (clear_returns hl h.inv hf (file_iff.mpr hstores.type)).mono
  rintro _ σ' ⟨σ₁, d', hfreed, hsize, htype, rfl⟩
  obtain ⟨hc, hd', -⟩ := cleared_changed hl h.inv hf hfreed hsize
  refine ⟨⟨h.inv.changed hf hc hl, ?_, hfreed.onDisk hl hf h.disk, h.dirs.file hm⟩,
    hfreed.room hl hf⟩
  refine h.holds.changed hl h.inv hf hc (hfreed.freeZero hl h.inv hf hsize h.holds.zero) ?_ ?_
  · rw [hd']
    exact .empty .file (htype.trans hstores.type) hsize
  · intro hdir
    cases hdir

/-- What `create` leaves when all of it lies on the disk. -/
theorem Mounted.entry (h : mgr.Mounted total ibb P σ m) (hl : mgr.Layout total ibb)
    (hfit : ibb * 4096 ≤ 2 ^ 32) {bytes : List UInt8} (hm : m f = some ⟨.dir, bytes⟩) {name : String}
    (hname : P (mgr.inode f) name) {type : DiskInodeType} {g : Nat} {σ₁ σ₂ : Store}
    {v : List UInt32} {d' : DiskInode} (hborn : mgr.Born σ g type σ₁)
    (hfits : (nameBytes name).length ≤ 28)
    (hover : mgr.Overwrote σ₁ f ((mgr.inodeAt σ f).size.toNat / 32 * 32) (entryBytes name g) v σ₂ d')
    (hdisk : mgr.OnDisk total (mgr.putInode σ₁ f σ₂ d')) (hnew : ¬ Lists bytes name) :
    m g = none ∧ g < 2 ^ 32
      ∧ mgr.Mounted total ibb P (mgr.putInode σ₁ f σ₂ d') (Function.update
        (Function.update m g (some ⟨type, []⟩)) f (some ⟨.dir, bytes ++ entryBytes name g⟩)) := by
  obtain ⟨hf, -, -⟩ := h.holds.stores hm
  have hi₁ := h.inv.born hl hborn
  have hf₁ := (hborn.used f).mpr (.inr hf)
  have hfree := h.holds.unused g hborn.free
  have hblocks : mgr.inodeBitmap.blocks = ibb := by rw [hl.inodeBitmap]
  have hlt := ((hborn.used g).mpr (.inl rfl)).1
  refine ⟨hfree, by omega, ?_, ?_, hdisk, ?_⟩
  · exact hi₁.changed hf₁ (hover.changed hl hi₁ hf₁).1 hl
  · exact h.holds.entry hl h.inv hf hm hborn hfits hover hdisk
  · exact h.dirs.create type hfree hm hname hfits (by omega) hnew

/-- A directory gets a new file, unless it has one of that name. -/
theorem Mounted.createInode (h : mgr.Mounted total ibb P σ m) (hl : mgr.Layout total ibb)
    (hfit : ibb * 4096 ≤ 2 ^ 32) {bytes : List UInt8} (hm : m f = some ⟨.dir, bytes⟩) {name : String}
    (hname : P (mgr.inode f) name) (type : DiskInodeType) (hE : CreateFaults E mgr total σ f name)
    (hread : ∀ i, i < bytes.length / 32 → nameAt bytes i = none → E .panic)
    (hroom : blocksFor (mgr.inodeAt σ f)
      (UInt32.ofNat ((mgr.inodeAt σ f).size.toNat / 32 * 32 + 32)) ≤ mgr.room total σ) :
    Post E (Inode.createInode mgr (mgr.inode f) name type) [] σ fun r σ' => match r with
      | none => σ' = σ ∧ Lists bytes name
      | some ino => ¬ Lists bytes name ∧ ∃ g, ino = mgr.inode g ∧ m g = none ∧ g < 2 ^ 32
          ∧ (nameBytes name).length ≤ 28
          ∧ mgr.Mounted total ibb P σ' (Function.update (Function.update m g (some ⟨type, []⟩)) f
            (some ⟨.dir, bytes ++ entryBytes name g⟩))
          ∧ mgr.room total σ' + blocksFor (mgr.inodeAt σ f)
            (UInt32.ofNat ((mgr.inodeAt σ f).size.toNat / 32 * 32 + 32)) = mgr.room total σ := by
  obtain ⟨hf, hstores, -⟩ := h.holds.stores hm
  have hfind := fun hdir => findInodeId_post (h.inv.bound f hf) (ownedBy_not_held hl h.inv hf)
    hstores hread hdir name
  have hlists := @lookup_isSome bytes name
  apply (createInode_post (P := fun r => r = Nimloth.lookup bytes name) hl hfit h.inv hf hE
    hfind).mono
  rintro (_ | ino) σ' ⟨-, hpost⟩
  · obtain ⟨rfl, id, hid⟩ := hpost
    exact ⟨rfl, hlists.mp (by rw [← hid]; rfl)⟩
  · obtain ⟨hnone, hfits, g, σ₁, v, σ₂, d', rfl, hborn, hover, rfl, hv⟩ := hpost
    have hf₁ := (hborn.used f).mpr (.inr hf)
    have hdisk := hover.onDisk hl hf₁ (hborn.onDisk h.disk) (hv.disk hroom)
    have hnew : ¬ Lists bytes name := mt hlists.mpr (by rw [← hnone]; simp)
    obtain ⟨hfree, hlt, h'⟩ := h.entry hl hfit hm hname hborn hfits hover hdisk hnew
    refine ⟨hnew, g, rfl, hfree, hlt, hfits, h', ?_⟩
    rw [← hv.length, ← hborn.room]
    exact hover.room hl hf₁ (hv.disk hroom)

/-- What a call of `create` that returns a file has done, as long as all of it lies on the disk. -/
theorem Mounted.create_ok (h : mgr.Mounted total ibb P σ m) (hl : mgr.Layout total ibb)
    (hfit : ibb * 4096 ≤ 2 ^ 32) (hm : m f = some ⟨.dir, bytes⟩) (hname : P (mgr.inode f) name)
    {type : DiskInodeType} {ino : Inode}
    (hrun : (Inode.createInode mgr (mgr.inode f) name type).flat [] σ = .ok (some ino, σ'))
    (hdisk : mgr.OnDisk total σ') :
    ∃ g, m g = none ∧ g < 2 ^ 32 ∧ (nameBytes name).length ≤ 28 ∧ ¬ Lists bytes name
      ∧ mgr.Mounted total ibb P σ' (Function.update (Function.update m g (some ⟨type, []⟩)) f
        (some ⟨.dir, bytes ++ entryBytes name g⟩)) := by
  obtain ⟨hf, hstores, -⟩ := h.holds.stores hm
  have hfind := fun hdir => findInodeId_post (E := fun _ => True) (h.inv.bound f hf)
    (ownedBy_not_held hl h.inv hf) hstores (fun _ _ _ => trivial) hdir name
  obtain ⟨-, hnone, hfits, g, σ₁, v, σ₂, d', rfl, hborn, hover, rfl, -⟩ :=
    (createInode_post (P := fun r => r = Nimloth.lookup bytes name) hl hfit h.inv hf
      (.any mgr total σ f name) hfind).ok hrun
  have hnew : ¬ Lists bytes name := by
    rw [← lookup_isSome, ← hnone]
    exact nofun
  obtain ⟨hfree, hlt, h'⟩ := h.entry hl hfit hm hname hborn hfits hover hdisk hnew
  exact ⟨g, hfree, hlt, hfits, hnew, h'⟩

end BlockManager

end Nimloth
