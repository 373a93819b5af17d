import Mathlib.Data.Finset.Card
import Mathlib.Tactic.Common
import Nimloth.Vfs
import Nimloth.FileData

/-!
# What the operations of the file system do

One specification for each operation of `vfs.rs`, in the terms of the
bitmaps and index trees. The operation on file `f` holds the block of its
inode while it runs; it changes nothing below the data bitmap, and in the
data area only blocks that the file owns before or after it.
-/

namespace Nimloth

open BlockProg

/-! ## The calls that only read -/

namespace Inode

theorem readDirEntry_within (d : DiskInode) (i : Nat) : (readDirEntry d i).Within false 1 :=
  .bind (d.readAt_within _ _) fun _ => .bind .assert fun _ => .pure _

theorem nameStr_within {d : Nat} (e : DirEntry) : e.nameStr.Within false d :=
  .bind .assert fun _ => .unwrap

theorem findLoop_within (name : String) (d : DiskInode) (is : List Nat) :
    (findLoop name d is).Within false 1 := by
  induction is with
  | nil => exact .pure _
  | cons i is ih =>
      refine .bind (readDirEntry_within d i) fun e => .bind (nameStr_within e) ?_
      intro direntName
      split
      · exact .pure _
      · exact ih

theorem findInodeId_within (name : String) (d : DiskInode) : (findInodeId name d).Within false 1 :=
  .bind .assert fun _ => findLoop_within ..

theorem readDiskInode_within {α : Type} {w : Bool} {depth : Nat} {f : DiskInode → BlockProg α}
    (ino : Inode) (h : ∀ d, (f d).Within w depth) : (ino.readDiskInode f).Within w (depth + 1) :=
  .readBlock fun _ => .bind .assert fun _ => h _

end Inode

namespace BlockManager

/-- The handle of inode `f`. -/
def inode (mgr : BlockManager) (f : Nat) : Inode := ⟨mgr.inodeAreaStartBlock + f / 4, f % 4 * 128⟩

def inodeAt (mgr : BlockManager) (σ : Store) (f : Nat) : DiskInode :=
  DiskInode.load (σ (mgr.inode f).blockId) (mgr.inode f).blockOffset

/-- Inode `f` is allocated. -/
def Used (mgr : BlockManager) (σ : Store) (f : Nat) : Prop :=
  f < mgr.inodeBitmap.blocks * 4096 ∧ mgr.inodeBitmap.bit σ f = true

/-- The blocks of file `f`. -/
def ownedBy (mgr : BlockManager) (σ : Store) (f : Nat) : List UInt32 :=
  owned σ (mgr.inodeAt σ f) (DiskInode.blockCount (mgr.inodeAt σ f).size)

variable {mgr : BlockManager} {total ibb : Nat} {σ σ' : Store} {held : List Nat}

/-- The blocks of the inode area lie before the data bitmap. -/
theorem Layout.inode_lt (hl : mgr.Layout total ibb) {f : Nat}
    (hf : f < mgr.inodeBitmap.blocks * 4096) :
    1 + ibb ≤ (mgr.inode f).blockId ∧ (mgr.inode f).blockId < mgr.dataBitmap.startBlockId := by
  have hib : mgr.inodeBitmap.blocks = ibb := by rw [hl.inodeBitmap]
  have hstart := hl.blocks.2.1
  unfold inode
  rw [hl.inodeArea]
  dsimp only
  omega

/-- `disk_inode_pos` of an inode of the bitmap. -/
theorem diskInodePos_iff {E : FsErr → Prop} {held : List Nat} {k : UInt32}
    {Q : Nat × Nat → Store → Prop} (hl : mgr.Layout total ibb)
    (hk : k.toNat < mgr.inodeBitmap.blocks * 4096) :
    Post E (mgr.diskInodePos k) held σ Q
      ↔ Q ((mgr.inode k.toNat).blockId, (mgr.inode k.toNat).blockOffset) σ := by
  have hlt := (hl.inode_lt hk).2
  have hstart := hl.blocks.2.1
  have hfits := hl.fits
  have htotal := hl.total_lt
  have hsum : mgr.inodeAreaStartBlock + k.toNat / 4 < 2 ^ 32 := by
    unfold inode at hlt
    dsimp only at hlt
    omega
  unfold diskInodePos
  rw [Post.bind_iff, Post.add_iff, Post.pure_iff]
  exact ⟨fun h => h.1 hsum, fun h => ⟨fun _ => h, fun hge => absurd hsum (Nat.not_lt.mpr hge)⟩⟩

theorem inode_fits (mgr : BlockManager) (f : Nat) : (mgr.inode f).blockOffset + 128 ≤ BLOCK_SZ := by
  simp only [inode, BLOCK_SZ]
  omega

theorem inode_inj {f g : Nat} (h : mgr.inode f = mgr.inode g) : f = g := by
  simp only [inode, Inode.mk.injEq] at h
  omega

/-- Replacing inode `f` leaves the others. -/
theorem inodeAt_store (mgr : BlockManager) (σ : Store) (f : Nat) (d : DiskInode) (g : Nat) :
    mgr.inodeAt (Function.update σ (mgr.inode f).blockId
      (d.store (σ (mgr.inode f).blockId) (mgr.inode f).blockOffset)) g
      = if g = f then d else mgr.inodeAt σ g := by
  unfold inodeAt
  by_cases hgf : g = f
  · rw [if_pos hgf, hgf, Function.update_self, DiskInode.load_store d _ (mgr.inode_fits f)]
  · rw [if_neg hgf]
    by_cases hblock : (mgr.inode g).blockId = (mgr.inode f).blockId
    · rw [hblock, Function.update_self]
      refine DiskInode.load_store_apart d _ ?_ (mgr.inode_fits g)
      simp only [inode, Block.Apart] at hblock ⊢
      omega
    · rw [Function.update_of_ne hblock]

/-- The closure of `modify_disk_inode` runs on the inode, with its block held. -/
theorem modifyDiskInode_iff {α : Type} {E : FsErr → Prop} {f : Nat}
    {F : DiskInode → BlockProg (α × DiskInode)} {Q : α → Store → Prop} :
    Post E ((mgr.inode f).modifyDiskInode F) [] σ Q
      ↔ Post E (F (mgr.inodeAt σ f)) [(mgr.inode f).blockId] σ fun r σ' =>
        Q r.1 (Function.update σ' (mgr.inode f).blockId
          (r.2.store (σ (mgr.inode f).blockId) (mgr.inode f).blockOffset)) := by
  have hfits := mgr.inode_fits f
  unfold Inode.modifyDiskInode inodeAt
  rw [Post.modify_iff (by simp)]
  simp only [Post.bind_iff, Post.assert_iff, hfits, true_implies, not_true_eq_false, false_implies,
    and_true, Post.pure_iff]

theorem readDiskInode_iff {α : Type} {E : FsErr → Prop} {f : Nat} {F : DiskInode → BlockProg α}
    {Q : α → Store → Prop} :
    Post E ((mgr.inode f).readDiskInode F) [] σ Q
      ↔ Post E (F (mgr.inodeAt σ f)) [(mgr.inode f).blockId] σ Q := by
  have hfits := mgr.inode_fits f
  unfold Inode.readDiskInode inodeAt
  rw [Post.read_iff (by simp)]
  simp only [Post.bind_iff, Post.assert_iff, hfits, true_implies, not_true_eq_false, false_implies,
    and_true]

/-! ## Free blocks -/

/-- The bits of the free blocks of the disk. -/
def freeBlocks (mgr : BlockManager) (total : Nat) (σ : Store) : Finset Nat :=
  (Finset.range (mgr.dataBitmap.blocks * 4096)).filter fun k =>
    mgr.dataBitmap.bit σ k = false ∧ mgr.dataAreaStartBlock + k < total

/-- How many blocks of the disk are free. -/
def room (mgr : BlockManager) (total : Nat) (σ : Store) : Nat := (mgr.freeBlocks total σ).card

theorem mem_freeBlocks {k : Nat} : k ∈ mgr.freeBlocks total σ
    ↔ k < mgr.dataBitmap.blocks * 4096 ∧ mgr.dataBitmap.bit σ k = false
      ∧ mgr.dataAreaStartBlock + k < total := by
  rw [freeBlocks, Finset.mem_filter, Finset.mem_range]

theorem freeBlocks_erase {k : Nat} (h : mgr.dataBitmap.Sets σ σ' k true) :
    mgr.freeBlocks total σ' = (mgr.freeBlocks total σ).erase k := by
  ext j
  rw [Finset.mem_erase, mem_freeBlocks, mem_freeBlocks, h.bit j]
  by_cases hj : j = k
  · simp [hj]
  · simp [hj]

/-- The bitmap hands out the first clear bit, so blocks of the disk first. -/
theorem room_allocated {k : Nat} (h : mgr.dataBitmap.Allocated σ (some k) σ') :
    (0 < mgr.room total σ → mgr.dataAreaStartBlock + k < total)
      ∧ mgr.room total σ' ≤ mgr.room total σ ∧ mgr.room total σ ≤ mgr.room total σ' + 1 := by
  obtain ⟨hk, hclear, hbefore, hsets⟩ := h
  refine ⟨?_, ?_, ?_⟩
  · intro hpos
    obtain ⟨j, hj⟩ := Finset.card_pos.mp hpos
    obtain ⟨-, hjclear, hjdisk⟩ := mem_freeBlocks.mp hj
    by_contra hout
    rw [hbefore j (by omega)] at hjclear
    cases hjclear
  · unfold room
    rw [freeBlocks_erase hsets]
    exact Finset.card_erase_le
  · unfold room
    rw [freeBlocks_erase hsets]
    have := Finset.pred_card_le_card_erase (s := mgr.freeBlocks total σ) (a := k)
    omega

/-- Every id that the data bitmap has a bit for fits in `u32`. -/
def IdsFit (mgr : BlockManager) : Prop :=
  mgr.dataAreaStartBlock + mgr.dataBitmap.blocks * 4096 ≤ 2 ^ 32

/-- `alloc_data` fails on a full disk alone. -/
theorem allocData_room {E : FsErr → Prop} (hl : mgr.Layout total ibb)
    (hE : mgr.room total σ = 0 → E .panic ∧ (¬ mgr.IdsFit → E .overflow))
    (hheld : ∀ b ∈ held, b < mgr.dataBitmap.startBlockId) :
    Post E mgr.allocData held σ fun id σ' => mgr.dataAreaStartBlock ≤ id.toNat
      ∧ mgr.dataBitmap.Allocated σ (some (id.toNat - mgr.dataAreaStartBlock)) σ' := by
  have htotal := hl.total_lt
  have hnone : (∀ k ∈ mgr.freeBlocks total σ, False) → mgr.room total σ = 0 := by
    intro h
    exact Finset.card_eq_zero.mpr (Finset.eq_empty_of_forall_notMem h)
  refine allocData_spec hl ?_ ?_ ?_
  · intro i _ hmem
    have := hheld _ hmem
    omega
  · intro hset
    refine (hE (hnone ?_)).1
    intro k hk
    obtain ⟨hlt, hclear, -⟩ := mem_freeBlocks.mp hk
    rw [hset k hlt] at hclear
    cases hclear
  · intro k hk _ hbefore hover
    refine (hE (hnone ?_)).2 fun hfit => by unfold IdsFit at hfit; omega
    intro j hj
    obtain ⟨-, hclear, hdisk⟩ := mem_freeBlocks.mp hj
    rw [hbefore j (by omega)] at hclear
    cases hclear

/-! ## Taking and giving back data blocks -/

/-- The blocks `v` were free and are taken; only the data bitmap changes. -/
structure Taken (mgr : BlockManager) (σ : Store) (v : List UInt32) (σ' : Store) : Prop where
  nodup : v.Nodup
  area : ∀ x ∈ v, mgr.dataAreaStartBlock ≤ x.toNat
    ∧ x.toNat < mgr.dataAreaStartBlock + mgr.dataBitmap.blocks * 4096
  free : ∀ x ∈ v, mgr.dataBitmap.bit σ (x.toNat - mgr.dataAreaStartBlock) = false
  bit : ∀ k, mgr.dataBitmap.bit σ' k = true
    ↔ mgr.dataBitmap.bit σ k = true ∨ ∃ x ∈ v, x.toNat = mgr.dataAreaStartBlock + k
  frame : ∀ b, b < mgr.dataBitmap.startBlockId ∨ mgr.dataAreaStartBlock ≤ b → σ' b = σ b

theorem Taken.nil (mgr : BlockManager) (σ : Store) : mgr.Taken σ [] σ where
  nodup := List.nodup_nil
  area x hx := by cases hx
  free x hx := by cases hx
  bit k := by simp
  frame _ _ := rfl

theorem Taken.cons (hl : mgr.Layout total ibb) {σ₁ : Store} {id : UInt32} {v : List UInt32}
    (hle : mgr.dataAreaStartBlock ≤ id.toNat)
    (h₁ : mgr.dataBitmap.Allocated σ (some (id.toNat - mgr.dataAreaStartBlock)) σ₁)
    (h₂ : mgr.Taken σ₁ v σ') : mgr.Taken σ (id :: v) σ' := by
  obtain ⟨hlt, hclear, -, hsets⟩ := h₁
  have harea := hl.dataArea
  have hstart := hl.blocks.2.1
  have hone : ∀ k, mgr.dataBitmap.bit σ₁ k = true
      ↔ mgr.dataBitmap.bit σ k = true ∨ id.toNat = mgr.dataAreaStartBlock + k := by
    intro k
    rw [hsets.bit k]
    by_cases hk : k = id.toNat - mgr.dataAreaStartBlock
    · rw [if_pos hk]
      exact iff_of_true rfl (.inr (by omega))
    · rw [if_neg hk]
      exact ⟨.inl, fun h => h.resolve_right (by omega)⟩
  have hnot : ∀ x ∈ v, mgr.dataBitmap.bit σ (x.toNat - mgr.dataAreaStartBlock) = false
      ∧ id.toNat ≠ x.toNat := by
    intro x hx
    have hfree := h₂.free x hx
    have hxle := (h₂.area x hx).1
    have hiff := hone (x.toNat - mgr.dataAreaStartBlock)
    rw [hfree] at hiff
    simp only [Bool.false_eq_true, false_iff, not_or, Bool.not_eq_true] at hiff
    exact ⟨hiff.1, fun heq => hiff.2 (by omega)⟩
  refine ⟨?_, ?_, ?_, ?_, ?_⟩
  · refine List.nodup_cons.mpr ⟨?_, h₂.nodup⟩
    intro hmem
    exact (hnot id hmem).2 rfl
  · intro x hx
    rcases List.mem_cons.mp hx with rfl | hx
    · omega
    · exact h₂.area x hx
  · intro x hx
    rcases List.mem_cons.mp hx with rfl | hx
    · exact hclear
    · exact (hnot x hx).1
  · intro k
    rw [h₂.bit k, hone k]
    simp only [List.mem_cons, exists_eq_or_imp, or_assoc]
  · intro b hb
    rw [h₂.frame b hb, hsets.frame b]
    have : (id.toNat - mgr.dataAreaStartBlock) / 4096 < mgr.dataBitmap.blocks := by omega
    omega

/-- The `n` blocks `v`; they lie on the disk if it has as many. -/
structure Provided (mgr : BlockManager) (total : Nat) (σ : Store) (n : Nat) (v : List UInt32) :
    Prop where
  length : v.length = n
  disk : n ≤ mgr.room total σ → ∀ x ∈ v, x.toNat < total

/-- Taking `n` blocks fails only if less than `n` are free on the disk. -/
theorem allocBlocks_spec {E : FsErr → Prop} (hl : mgr.Layout total ibb) (n : Nat)
    (hE : mgr.room total σ < n → E .panic ∧ (¬ mgr.IdsFit → E .overflow))
    (hheld : ∀ b ∈ held, b < mgr.dataBitmap.startBlockId) :
    Post E (Inode.allocBlocks mgr n) held σ fun v σ' =>
      mgr.Provided total σ n v ∧ mgr.Taken σ v σ' := by
  induction n generalizing σ with
  | zero =>
      rw [Inode.allocBlocks, Post.pure_iff]
      exact ⟨⟨rfl, fun _ x hx => absurd hx List.not_mem_nil⟩, .nil mgr σ⟩
  | succ n ih =>
      unfold Inode.allocBlocks
      rw [Post.bind_iff]
      apply (allocData_room hl (fun hzero => hE (by omega)) hheld).mono
      rintro id σ₁ ⟨hle, halloc⟩
      have hleft : (0 < mgr.room total σ → _) ∧ _ := room_allocated halloc
      obtain ⟨hdisk, hroom, hroom'⟩ := hleft
      have hE₁ : mgr.room total σ₁ < n → E .panic ∧ (¬ mgr.IdsFit → E .overflow) :=
        fun hlt => hE (by omega)
      rw [Post.bind_iff]
      apply (ih hE₁).mono
      rintro v σ' ⟨hv, htaken⟩
      rw [Post.pure_iff]
      refine ⟨⟨by simp [hv.length], ?_⟩, .cons hl hle halloc htaken⟩
      intro hfree x hx
      rcases List.mem_cons.mp hx with rfl | hx
      · have := hdisk (by omega)
        omega
      · exact hv.disk (by omega) x hx

/-- The blocks `v` are zeroed and free again; nothing else changes in the data
area. -/
structure Freed (mgr : BlockManager) (σ : Store) (v : List UInt32) (σ' : Store) : Prop where
  bit : ∀ k, k < mgr.dataBitmap.blocks * 4096 → (mgr.dataBitmap.bit σ' k = true
    ↔ mgr.dataBitmap.bit σ k = true ∧ ∀ x ∈ v, x.toNat ≠ mgr.dataAreaStartBlock + k)
  zero : ∀ x ∈ v, σ' x.toNat = Block.zero
  frame : ∀ b, b < mgr.dataBitmap.startBlockId ∨ mgr.dataAreaStartBlock ≤ b →
    (∀ x ∈ v, x.toNat ≠ b) → σ' b = σ b

/-- Blocks in use are given back without a failed assertion. -/
theorem deallocBlocks_spec (hl : mgr.Layout total ibb) {v : List UInt32} (hnd : v.Nodup)
    (harea : ∀ x ∈ v, mgr.dataAreaStartBlock ≤ x.toNat
      ∧ x.toNat < mgr.dataAreaStartBlock + mgr.dataBitmap.blocks * 4096)
    (hset : ∀ x ∈ v, mgr.dataBitmap.bit σ (x.toNat - mgr.dataAreaStartBlock) = true)
    (hheld : ∀ b ∈ held, b < mgr.dataBitmap.startBlockId) :
    Returns (Inode.deallocBlocks mgr v) held σ fun _ σ' => mgr.Freed σ v σ' := by
  obtain ⟨-, hstart, -⟩ := hl.blocks
  have hda := hl.dataArea
  induction v generalizing σ with
  | nil =>
      rw [Inode.deallocBlocks, Returns, Post.pure_iff]
      refine ⟨?_, ?_, fun _ _ _ => rfl⟩
      · intro k _
        simp
      · simp
  | cons x v ih =>
      obtain ⟨hle, hlt⟩ := harea x List.mem_cons_self
      obtain ⟨hx, hnd⟩ := List.nodup_cons.mp hnd
      have hxheld : x.toNat ∉ held := by
        intro hmem
        have := hheld _ hmem
        omega
      have hbheld : (x.toNat - mgr.dataAreaStartBlock) / 4096 + mgr.dataBitmap.startBlockId
          ∉ held := by
        intro hmem
        have := hheld _ hmem
        omega
      have hne : ∀ y ∈ v, y.toNat ≠ x.toNat := by
        intro y hy heq
        exact hx (UInt32.toNat_inj.mp heq ▸ hy)
      -- The zeroed block is not one of the bitmap.
      have hsame : ∀ k, k < mgr.dataBitmap.blocks * 4096 →
          mgr.dataBitmap.bit (Function.update σ x.toNat Block.zero) k = mgr.dataBitmap.bit σ k := by
        intro k hk
        unfold Bitmap.bit
        rw [Function.update_of_ne (by omega)]
      unfold Inode.deallocBlocks deallocData
      rw [Returns, Post.bind_iff, Post.bind_iff, Post.modify_iff hxheld, Post.pure_iff,
        Post.bind_iff, Post.sub_iff]
      refine ⟨?_, fun h => absurd h (by omega)⟩
      intro _
      apply (mgr.dataBitmap.dealloc_spec hbheld fun hclear => by
        rw [hsame _ (by omega), hset x List.mem_cons_self] at hclear
        cases hclear).mono
      rintro _ σ₁ ⟨-, hsets⟩
      have hone : ∀ k, k < mgr.dataBitmap.blocks * 4096 → (mgr.dataBitmap.bit σ₁ k = true
          ↔ mgr.dataBitmap.bit σ k = true ∧ x.toNat ≠ mgr.dataAreaStartBlock + k) := by
        intro k hk
        rw [hsets.bit k, hsame k hk]
        by_cases hkx : k = x.toNat - mgr.dataAreaStartBlock
        · rw [if_pos hkx]
          exact iff_of_false (by simp) fun h => h.2 (by omega)
        · rw [if_neg hkx]
          exact ⟨fun h => ⟨h, by omega⟩, And.left⟩
      have hframe : ∀ b, b < mgr.dataBitmap.startBlockId ∨ mgr.dataAreaStartBlock ≤ b →
          σ₁ b = Function.update σ x.toNat Block.zero b := by
        intro b hb
        apply hsets.frame
        have : (x.toNat - mgr.dataAreaStartBlock) / 4096 < mgr.dataBitmap.blocks := by omega
        omega
      apply (ih hnd (fun y hy => harea y (List.mem_cons_of_mem _ hy)) ?_).mono
      · intro _ σ' hfreed
        refine ⟨?_, ?_, ?_⟩
        · intro k hk
          rw [hfreed.bit k hk, hone k hk, and_assoc]
          simp
        · intro y hy
          by_cases hyv : y ∈ v
          · exact hfreed.zero y hyv
          · obtain rfl : y = x := (List.mem_cons.mp hy).resolve_right hyv
            rw [hfreed.frame _ (.inr hle) hne, hframe _ (.inr hle), Function.update_self]
        · intro b hb hbv
          rw [hfreed.frame b hb fun y hy => hbv y (List.mem_cons_of_mem _ hy), hframe b hb,
            Function.update_of_ne (Ne.symm (hbv x List.mem_cons_self))]
      · intro y hy
        obtain ⟨hyle, hylt⟩ := harea y (List.mem_cons_of_mem _ hy)
        refine (hone _ (by omega)).mpr ⟨hset y (List.mem_cons_of_mem _ hy), ?_⟩
        have := hne y hy
        omega

/-! ## Growth -/

/-- A file whose blocks are all distinct and in use. -/
structure FileOk (mgr : BlockManager) (σ : Store) (d : DiskInode) : Prop where
  bound : DiskInode.blockCount d.size ≤ 16539
  nodup : (owned σ d (DiskInode.blockCount d.size)).Nodup
  area : ∀ x ∈ owned σ d (DiskInode.blockCount d.size), mgr.dataAreaStartBlock ≤ x.toNat
    ∧ x.toNat < mgr.dataAreaStartBlock + mgr.dataBitmap.blocks * 4096
  set : ∀ x ∈ owned σ d (DiskInode.blockCount d.size),
    mgr.dataBitmap.bit σ (x.toNat - mgr.dataAreaStartBlock) = true

theorem FileOk.not_held {d : DiskInode} (h : mgr.FileOk σ d) (hl : mgr.Layout total ibb)
    (hheld : ∀ b ∈ held, b < mgr.dataBitmap.startBlockId) :
    ∀ x ∈ owned σ d (DiskInode.blockCount d.size), x.toNat ∉ held := by
  intro x hx hmem
  have h₁ := (h.area x hx).1
  have h₂ := hheld _ hmem
  have h₃ := hl.dataArea
  have h₄ := hl.blocks.2.1
  omega

/-- The file `d` has got the blocks `v` and is now `d'`; nothing else is
owned, taken or written. -/
structure Extended (mgr : BlockManager) (σ : Store) (d : DiskInode) (v : List UInt32) (σ' : Store)
    (d' : DiskInode) : Prop where
  nodup : (owned σ d (DiskInode.blockCount d.size) ++ v).Nodup
  area : ∀ x ∈ v, mgr.dataAreaStartBlock ≤ x.toNat
    ∧ x.toNat < mgr.dataAreaStartBlock + mgr.dataBitmap.blocks * 4096
  free : ∀ x ∈ v, mgr.dataBitmap.bit σ (x.toNat - mgr.dataAreaStartBlock) = false
  bit : ∀ k, k < mgr.dataBitmap.blocks * 4096 → (mgr.dataBitmap.bit σ' k = true
    ↔ mgr.dataBitmap.bit σ k = true ∨ ∃ x ∈ v, x.toNat = mgr.dataAreaStartBlock + k)
  bound : DiskInode.blockCount d'.size ≤ 16539
  owned : owned σ' d' (DiskInode.blockCount d'.size)
    = owned σ d (DiskInode.blockCount d.size) ++ v
  low : ∀ b, b < mgr.dataBitmap.startBlockId → σ' b = σ b
  frame : ∀ b, mgr.dataAreaStartBlock ≤ b →
    (∀ x ∈ Nimloth.owned σ d (DiskInode.blockCount d.size) ++ v, x.toNat ≠ b) → σ' b = σ b
  type : d'.type = d.type

/-- The bytes of a file that has grown: the old ones, and after them those of
its new blocks. -/
structure Kept (σ : Store) (d : DiskInode) (v : List UInt32) (σ' : Store) (d' : DiskInode) :
    Prop where
  keep : ∀ j, j < 512 * DiskInode.blockCount d.size → fileByte σ' d' j = fileByte σ d j
  fresh : ∀ j, 512 * DiskInode.blockCount d.size ≤ j → j < 512 * DiskInode.blockCount d'.size →
    ∃ x ∈ v, fileByte σ' d' j = (σ x.toNat).byte (j % 512)

theorem Extended.refl {d : DiskInode} (h : mgr.FileOk σ d) : mgr.Extended σ d [] σ d where
  nodup := by simpa using h.nodup
  area x hx := by cases hx
  free x hx := by cases hx
  bit k _ := by simp
  bound := h.bound
  owned := by simp
  low _ _ := rfl
  frame _ _ _ := rfl
  type := rfl

/-- The blocks of a growing file: the new ones were free, the old ones not. -/
theorem FileOk.nodup_append {d : DiskInode} {v : List UInt32} (h : mgr.FileOk σ d)
    (ht : mgr.Taken σ v σ') : (owned σ d (DiskInode.blockCount d.size) ++ v).Nodup := by
  refine List.nodup_append.mpr ⟨h.nodup, ht.nodup, ?_⟩
  rintro x hx y hy rfl
  have := ht.free x hy
  rw [h.set x hx] at this
  cases this

theorem FileOk.append_not_held {d : DiskInode} {v : List UInt32} (h : mgr.FileOk σ d)
    (hl : mgr.Layout total ibb) (ht : mgr.Taken σ v σ')
    (hheld : ∀ b ∈ held, b < mgr.dataBitmap.startBlockId) :
    ∀ x ∈ owned σ d (DiskInode.blockCount d.size) ++ v, x.toNat ∉ held := by
  have hda := hl.dataArea
  have hstart := hl.blocks.2.1
  intro x hx hmem
  have hlow := hheld _ hmem
  rcases List.mem_append.mp hx with hx | hx
  · have := (h.area x hx).1
    omega
  · have := (ht.area x hx).1
    omega

/-- Growth by exactly the blocks that are missing. -/
theorem grow_spec (hl : mgr.Layout total ibb) {d : DiskInode} {newSize : UInt32} {v : List UInt32}
    {σ₁ : Store} (h : mgr.FileOk σ d) (ht : mgr.Taken σ v σ₁)
    (hsize : d.size.toNat ≤ newSize.toNat) (hm : DiskInode.blockCount newSize ≤ 16539)
    (hlen : (nodes (DiskInode.blockCount d.size)).length + v.length
      = (nodes (DiskInode.blockCount newSize)).length)
    (hheld : ∀ b ∈ held, b < mgr.dataBitmap.startBlockId) :
    Returns (d.increaseSize newSize v) held σ₁ fun d' σ' =>
      d'.size = newSize ∧ mgr.Extended σ d v σ' d' ∧ Kept σ d v σ' d' := by
  have hda := hl.dataArea
  have hstart := hl.blocks.2.1
  have hle : DiskInode.blockCount d.size ≤ DiskInode.blockCount newSize :=
    DiskInode.blockCount_mono (by omega)
  have hown : owned σ₁ d (DiskInode.blockCount d.size)
      = owned σ d (DiskInode.blockCount d.size) :=
    owned_frame fun x hx => ht.frame _ (.inr (h.area x hx).1)
  have hnd := h.nodup_append ht
  have harea : ∀ x ∈ owned σ d (DiskInode.blockCount d.size) ++ v,
      mgr.dataAreaStartBlock ≤ x.toNat := by
    intro x hx
    rcases List.mem_append.mp hx with hx | hx
    · exact (h.area x hx).1
    · exact (ht.area x hx).1
  have hnot : ∀ x ∈ owned σ₁ d (DiskInode.blockCount d.size) ++ v, x.toNat ∉ held := by
    rw [hown]
    exact h.append_not_held hl ht hheld
  have hnd₁ : (owned σ₁ d (DiskInode.blockCount d.size) ++ v).Nodup := by rwa [hown]
  have hinc := DiskInode.increaseSize_spec hsize hm hlen hnd₁ hnot
  rw [hown] at hinc
  apply hinc.mono
  intro d' σ' hg
  have hsize' : d'.size = newSize := hg.size
  obtain ⟨hids, hkeep, hfresh, hdata⟩ := DiskInode.Growing.grown hle hnd hg
  have hframe : ∀ b, (∀ x ∈ owned σ d (DiskInode.blockCount d.size) ++ v, x.toNat ≠ b) →
      σ' b = σ₁ b := by
    intro b hb
    apply hg.frame
    intro node hnode _
    apply hb
    rw [← hids]
    exact nodeId_mem (mem_nodes.mp hnode)
  have hlow : ∀ b, b < mgr.dataAreaStartBlock → σ' b = σ₁ b := by
    intro b hb
    apply hframe
    intro x hx heq
    have := harea x hx
    omega
  refine ⟨hsize', ⟨hnd, ht.area, ht.free, ?_, ?_, ?_, ?_, ?_, hg.type⟩, ⟨?_, ?_⟩⟩
  · intro k hk
    rw [← ht.bit k]
    unfold Bitmap.bit
    rw [hlow _ (by omega)]
  · rw [hsize']
    exact hm
  · rw [hsize', hids]
  · intro b hb
    rw [hlow b (by omega), ht.frame b (.inl hb)]
  · intro b hb hbv
    rw [hframe b hbv, ht.frame b (.inr hb)]
  · intro j hj
    have hi : j / 512 < DiskInode.blockCount d.size := by omega
    have hnode : (Node.data (j / 512)).since < DiskInode.blockCount d.size := hi
    have hid := hkeep (.data (j / 512)) hnode
    have hblk := hdata (j / 512) (by omega)
    unfold fileByte
    rw [hblk, hid, ht.frame _ (.inr (harea _ (List.mem_append_left _ (nodeId_mem hnode))))]
  · intro j hj hj'
    rw [hsize'] at hj'
    have hmem := hfresh (.data (j / 512)) (by simp only [Node.since]; omega)
      (by simp only [Node.since]; omega)
    refine ⟨_, hmem, ?_⟩
    unfold fileByte
    rw [hdata (j / 512) (by omega), ht.frame _ (.inr (ht.area _ hmem).1)]

/-- The blocks that `d` needs to be `newSize` large. -/
def blocksFor (d : DiskInode) (newSize : UInt32) : Nat :=
  DiskInode.blocksWithIndex (DiskInode.blockCount newSize)
    - DiskInode.blocksWithIndex (DiskInode.blockCount d.size)

/-- `Inode::increase_size`: it returns unless the blocks are not there, or the
file would be too large. -/
theorem increaseSize_spec {E : FsErr → Prop} (hl : mgr.Layout total ibb) {d : DiskInode}
    {newSize : UInt32} (h : mgr.FileOk σ d)
    (hroom : mgr.room total σ < blocksFor d newSize →
      E .panic ∧ (¬ mgr.IdsFit → E .overflow))
    (hm : 16539 < DiskInode.blockCount newSize →
      E .panic ∧ (2 ^ 32 ≤ newSize.toNat + 512 → E .overflow))
    (hheld : ∀ b ∈ held, b < mgr.dataBitmap.startBlockId) :
    Post E (Inode.increaseSize mgr newSize d) held σ fun d' σ' =>
      d'.size.toNat = max d.size.toNat newSize.toNat
        ∧ ∃ v, mgr.Extended σ d v σ' d' ∧ Kept σ d v σ' d'
          ∧ mgr.Provided total σ (blocksFor d newSize) v := by
  have hbound := h.bound
  unfold Inode.increaseSize
  by_cases hlt : newSize < d.size
  · rw [if_pos hlt, Post.pure_iff]
    have hlt' : newSize.toNat < d.size.toNat := UInt32.lt_iff_toNat_lt.mp hlt
    have hle := DiskInode.blockCount_mono hlt'.le
    have hnone : blocksFor d newSize = 0 := by
      have := length_nodes_le hle
      rw [length_nodes hbound, length_nodes (by omega)] at this
      unfold blocksFor
      omega
    refine ⟨by omega, [], .refl h, ⟨fun _ _ => rfl, ?_⟩, hnone.symm, by simp⟩
    intro j h₁ h₂
    omega
  · have hge : d.size.toNat ≤ newSize.toNat := by
      have := mt UInt32.lt_iff_toNat_lt.mpr hlt
      omega
    have hfit : d.size.toNat + 512 < 2 ^ 32 := DiskInode.size_fits (by omega)
    have hge' : newSize ≥ d.size := UInt32.le_iff_toNat_le.mpr hge
    have hlen : (nodes (DiskInode.blockCount d.size)).length
        = DiskInode.blocksWithIndex (DiskInode.blockCount d.size) := length_nodes hbound
    have hle := DiskInode.blockCount_mono hge
    have hmono := blocksWithIndex_mono hle
    rw [if_neg hlt, Post.bind_iff]
    unfold DiskInode.blocksNumNeeded DiskInode.totalBlocks
    simp only [Post.bind_iff, Post.assert_iff, hge', true_implies, not_true_eq_false, false_implies,
      and_true, DiskInode.dataBlocksOf_iff, Post.pure_iff, Post.sub_iff]
    refine ⟨?_, fun hover => (hm (by unfold DiskInode.blockCount; omega)).2 hover⟩
    intro _
    refine ⟨?_, fun hover => absurd hfit (by omega)⟩
    intro _
    refine ⟨?_, fun hover => absurd hover (by omega)⟩
    intro _
    apply (allocBlocks_spec hl _ hroom hheld).mono
    rintro v σ₁ ⟨hv, ht⟩
    have hv' : v.length = blocksFor d newSize := hv.length
    by_cases hbig : DiskInode.blockCount newSize ≤ 16539
    · have hlen' := length_nodes hbig
      unfold blocksFor at hv'
      apply (Post.of_returns (grow_spec hl h ht hge hbig (by omega) hheld)).mono
      rintro d' σ' ⟨hsize, hext, hkept⟩
      exact ⟨by rw [hsize]; omega, v, hext, hkept, hv⟩
    · have hbig := Nat.not_le.mp hbig
      have hlen' := length_nodes (Nat.le_refl 16539)
      have hmono' := blocksWithIndex_mono hbig.le
      obtain ⟨hE, hE'⟩ := hm hbig
      have hown : owned σ₁ d (DiskInode.blockCount d.size)
          = owned σ d (DiskInode.blockCount d.size) :=
        owned_frame fun x hx => ht.frame _ (.inr (h.area x hx).1)
      have hnot : ∀ x ∈ owned σ₁ d (DiskInode.blockCount d.size) ++ v, x.toNat ∉ held := by
        rw [hown]
        exact h.append_not_held hl ht hheld
      unfold blocksFor at hv'
      apply (DiskInode.increaseSize_overrun hE hE' hbound hbig (by omega)
        (by rw [hown]; exact h.nodup_append ht) hnot).mono
      intro _ _ hfalse
      exact hfalse.elim

/-! ## Writing into a file that has grown -/

/-- The bytes of a file that has grown by the blocks `v` and got `buf` at
`offset`. -/
structure Rewritten (σ : Store) (d : DiskInode) (v : List UInt32) (offset : Nat) (buf : List UInt8)
    (σ' : Store) (d' : DiskInode) : Prop where
  inside : ∀ j, offset ≤ j → j < offset + buf.length → fileByte σ' d' j = buf.getD (j - offset) 0
  keep : ∀ j, j < 512 * DiskInode.blockCount d.size → ¬ (offset ≤ j ∧ j < offset + buf.length) →
    fileByte σ' d' j = fileByte σ d j
  fresh : ∀ j, 512 * DiskInode.blockCount d.size ≤ j → j < 512 * DiskInode.blockCount d'.size →
    ¬ (offset ≤ j ∧ j < offset + buf.length) →
      ∃ x ∈ v, fileByte σ' d' j = (σ x.toNat).byte (j % 512)

theorem Extended.written (hl : mgr.Layout total ibb) {d d' : DiskInode} {v : List UInt32}
    {σ₁ : Store} {start stop : Nat} {g : Nat → UInt8} (h : mgr.Extended σ d v σ₁ d')
    (harea : ∀ x ∈ Nimloth.owned σ d (DiskInode.blockCount d.size),
      mgr.dataAreaStartBlock ≤ x.toNat)
    (hw : DiskInode.Written σ₁ d' (DiskInode.blockCount d'.size) start stop g σ') :
    mgr.Extended σ d v σ' d' := by
  have hda := hl.dataArea
  have hstart := hl.blocks.2.1
  have hnd : (Nimloth.owned σ₁ d' (DiskInode.blockCount d'.size)).Nodup := by
    rw [h.owned]
    exact h.nodup
  have hmem : ∀ i, i < DiskInode.blockCount d'.size → nodeId σ₁ d' (.data i)
      ∈ Nimloth.owned σ d (DiskInode.blockCount d.size) ++ v := by
    intro i hi
    rw [← h.owned]
    exact nodeId_mem (show (Node.data i).since < _ from hi)
  have hlow : ∀ b, b < mgr.dataAreaStartBlock → σ' b = σ₁ b := by
    intro b hb
    apply hw.frame
    intro i hi heq
    rcases List.mem_append.mp (hmem i hi) with hx | hx
    · have := harea _ hx
      omega
    · have := (h.area _ hx).1
      omega
  refine ⟨h.nodup, h.area, h.free, ?_, h.bound, ?_, ?_, ?_, h.type⟩
  · intro k hk
    rw [← h.bit k hk]
    unfold Bitmap.bit
    rw [hlow _ (by omega)]
  · rw [hw.owned hnd, h.owned]
  · intro b hb
    rw [hlow b (by omega), h.low b hb]
  · intro b hb hbv
    rw [hw.frame b fun i hi => hbv _ (hmem i hi), h.frame b hb hbv]

/-- `write_at` on a file that has grown: whatever the range, it keeps to the
blocks of the file, and a range inside the file gets the bytes of `buf`. A
range without bytes may open the block after the last. -/
theorem Extended.writeAt {E : FsErr → Prop} (hl : mgr.Layout total ibb) {d d' : DiskInode}
    {v : List UInt32} {σ₁ : Store} {offset : Nat} {buf : List UInt8} (hd : mgr.FileOk σ d)
    (h : mgr.Extended σ d v σ₁ d') (hheld : ∀ b ∈ held, b < mgr.dataBitmap.startBlockId)
    (hover : 2 ^ 64 ≤ offset + buf.length → E .overflow)
    (hbeyond : d'.size.toNat < offset → E .panic)
    (hstuck : offset ≤ d'.size.toNat → d'.size.toNat = offset ∨ buf = [] →
      DiskInode.blockCount d'.size ≤ offset / 512 → ∀ e, E e) :
    Post E (d'.writeAt offset buf) held σ₁ fun r σ' => mgr.Extended σ d v σ' d'
      ∧ (Kept σ d v σ₁ d' → offset + buf.length ≤ d'.size.toNat →
        r = buf.length ∧ Rewritten σ d v offset buf σ' d') := by
  have hda := hl.dataArea
  have hstart := hl.blocks.2.1
  by_cases hlt : d'.size.toNat < offset
  · apply (DiskInode.writeAt_beyond (hbeyond hlt) hover hlt).mono
    intro _ _ hfalse
    exact hfalse.elim
  have hle := Nat.not_lt.mp hlt
  have hnd : (Nimloth.owned σ₁ d' (DiskInode.blockCount d'.size)).Nodup := by
    rw [h.owned]
    exact h.nodup
  have hnot : ∀ x ∈ Nimloth.owned σ₁ d' (DiskInode.blockCount d'.size), x.toNat ∉ held := by
    rw [h.owned]
    intro x hx hmem
    have := hheld _ hmem
    rcases List.mem_append.mp hx with hx | hx
    · have := (hd.area x hx).1
      omega
    · have := (h.area x hx).1
      omega
  by_cases hnone : d'.size.toNat = offset ∨ buf = []
  · apply (DiskInode.writeAt_empty h.bound hnot hle hnone hover (hstuck hle hnone)).mono
    rintro r σ' ⟨rfl, rfl⟩
    refine ⟨h, ?_⟩
    intro hkept hend
    obtain rfl : buf = [] := by
      rcases hnone with hnone | hnil
      · exact List.length_eq_zero_iff.mp (by omega)
      · exact hnil
    refine ⟨rfl, ⟨?_, fun j hj _ => hkept.keep j hj, fun j h₁ h₂ _ => hkept.fresh j h₁ h₂⟩⟩
    intro j h₁ h₂
    exact absurd h₂ (Nat.not_lt.mpr h₁)
  obtain ⟨hend, hne⟩ := not_or.mp hnone
  by_cases hlen : offset + buf.length < 2 ^ 64
  · apply (Post.of_returns (DiskInode.writeAt_spec h.bound hnd hnot hlen (by omega) hne)).mono
    rintro r σ' ⟨hr, hw⟩
    refine ⟨h.written hl (fun x hx => (hd.area x hx).1) hw, ?_⟩
    intro hkept hle
    have hcount := DiskInode.size_le_blocks d'.size
    rw [Nat.min_eq_left hle] at hr hw
    refine ⟨by omega, ?_, ?_, ?_⟩
    · intro j h₁ h₂
      rw [hw.byte j (by omega), if_pos ⟨h₁, h₂⟩]
    · intro j hj hout
      have hgrow : DiskInode.blockCount d.size ≤ DiskInode.blockCount d'.size := by
        have hlen := congrArg List.length h.owned
        simp only [Nimloth.owned, List.length_append, List.length_map] at hlen
        by_contra hgt
        have := length_nodes_lt (Nat.not_le.mp hgt)
        omega
      rw [hw.byte j (by omega), if_neg hout, hkept.keep j hj]
    · intro j h₁ h₂ hout
      rw [hw.byte j h₂, if_neg hout]
      exact hkept.fresh j h₁ h₂
  · unfold DiskInode.writeAt
    rw [Post.bind_iff, Post.add_iff]
    exact ⟨fun h => absurd h hlen, hover⟩

end BlockManager

end Nimloth
