import Mathlib.Tactic.Common
import Nimloth.Names
import Nimloth.Runs
import Nimloth.FileSystem

/-!
# Who owns a block

The data bitmap says which blocks are in use, the index trees of the
inodes say by whom, and nothing but the operations keeps the two
together. The invariant `BlocksOwned`: the set bits are the blocks of the
allocated inodes, and no block occurs twice, in one tree or in two.

Every operation changes one file: its inode, its blocks and the bits of
the blocks it takes or gives back (`Changed`). That one file keeps the
invariant is all an operation has to show; the other files are untouched
because their blocks are not in the tree of the changed one before or
after. `create_inode` makes an empty file first (`Born`).
-/

namespace Nimloth

open BlockProg

namespace BlockManager

variable {mgr : BlockManager} {total ibb : Nat} {σ σ' : Store} {f : Nat}

/-- The block ids that the data bitmap has a bit for. -/
def InArea (mgr : BlockManager) (x : UInt32) : Prop :=
  mgr.dataAreaStartBlock ≤ x.toNat
    ∧ x.toNat < mgr.dataAreaStartBlock + mgr.dataBitmap.blocks * 4096

/-- The set bits of the data bitmap are the disjoint union of the blocks of
the allocated inodes. -/
structure BlocksOwned (mgr : BlockManager) (σ : Store) : Prop where
  nodup : ∀ f, mgr.Used σ f → (mgr.ownedBy σ f).Nodup
  disjoint : ∀ f g, mgr.Used σ f → mgr.Used σ g → f ≠ g →
    List.Disjoint (mgr.ownedBy σ f) (mgr.ownedBy σ g)
  area : ∀ f, mgr.Used σ f → ∀ x ∈ mgr.ownedBy σ f, mgr.InArea x
  bit : ∀ k, k < mgr.dataBitmap.blocks * 4096 → (mgr.dataBitmap.bit σ k = true
    ↔ ∃ f, mgr.Used σ f ∧ ∃ x ∈ mgr.ownedBy σ f, x.toNat = mgr.dataAreaStartBlock + k)

structure FsInv (mgr : BlockManager) (total ibb : Nat) (σ : Store) : Prop where
  described : mgr.Described total ibb σ
  bound : ∀ f, mgr.Used σ f → DiskInode.blockCount (mgr.inodeAt σ f).size ≤ 16539
  owned : mgr.BlocksOwned σ

theorem BlocksOwned.set (h : mgr.BlocksOwned σ) (hf : mgr.Used σ f) {x : UInt32}
    (hx : x ∈ mgr.ownedBy σ f) :
    mgr.dataBitmap.bit σ (x.toNat - mgr.dataAreaStartBlock) = true := by
  obtain ⟨hle, hlt⟩ := h.area f hf x hx
  exact (h.bit _ (by omega)).mpr ⟨f, hf, x, hx, by omega⟩

theorem FsInv.fileOk (h : mgr.FsInv total ibb σ) (hf : mgr.Used σ f) :
    mgr.FileOk σ (mgr.inodeAt σ f) where
  bound := h.bound f hf
  nodup := h.owned.nodup f hf
  area := h.owned.area f hf
  set _ hx := h.owned.set hf hx

/-! ## One file changes -/

/-- The inode `f` and its blocks change, and the bits of the blocks it takes
or gives back. -/
structure Changed (mgr : BlockManager) (σ : Store) (f : Nat) (σ' : Store) : Prop where
  low : ∀ b, b < mgr.dataBitmap.startBlockId → b ≠ (mgr.inode f).blockId → σ' b = σ b
  inode : ∀ g, g < mgr.inodeBitmap.blocks * 4096 → g ≠ f → mgr.inodeAt σ' g = mgr.inodeAt σ g
  frame : ∀ b, mgr.dataAreaStartBlock ≤ b → (∀ x ∈ mgr.ownedBy σ f, x.toNat ≠ b) →
    (∀ x ∈ mgr.ownedBy σ' f, x.toNat ≠ b) → σ' b = σ b
  bound : DiskInode.blockCount (mgr.inodeAt σ' f).size ≤ 16539
  nodup : (mgr.ownedBy σ' f).Nodup
  area : ∀ x ∈ mgr.ownedBy σ' f, mgr.InArea x
  fresh : ∀ x ∈ mgr.ownedBy σ' f, x ∉ mgr.ownedBy σ f →
    mgr.dataBitmap.bit σ (x.toNat - mgr.dataAreaStartBlock) = false
  bit : ∀ k, k < mgr.dataBitmap.blocks * 4096 → (mgr.dataBitmap.bit σ' k = true
    ↔ (mgr.dataBitmap.bit σ k = true ∧ ∀ x ∈ mgr.ownedBy σ f, x.toNat ≠ mgr.dataAreaStartBlock + k)
      ∨ ∃ x ∈ mgr.ownedBy σ' f, x.toNat = mgr.dataAreaStartBlock + k)

section Changed

variable (hi : mgr.FsInv total ibb σ) (hf : mgr.Used σ f) (hc : mgr.Changed σ f σ')

include hf hc

/-- The super block and the inode bitmap lie before the inodes. -/
theorem Changed.head (hl : mgr.Layout total ibb) {b : Nat} (hb : b < 1 + ibb) : σ' b = σ b := by
  obtain ⟨hge, hlt⟩ := hl.inode_lt hf.1
  exact hc.low b (by omega) (by omega)

theorem Changed.used (hl : mgr.Layout total ibb) {g : Nat} : mgr.Used σ' g ↔ mgr.Used σ g := by
  have hib := hl.inodeBitmap
  unfold Used
  refine and_congr_right ?_
  intro hg
  have hblocks : mgr.inodeBitmap.blocks = ibb := by rw [hib]
  have hstart : mgr.inodeBitmap.startBlockId = 1 := by rw [hib]
  unfold Bitmap.bit
  rw [hc.head hf hl (by omega)]

include hi

/-- The blocks of another file are neither old nor new blocks of `f`. -/
theorem Changed.other_ne {g : Nat} (hg : mgr.Used σ g) (hgf : g ≠ f) {x : UInt32}
    (hx : x ∈ mgr.ownedBy σ g) :
    (∀ y ∈ mgr.ownedBy σ f, y.toNat ≠ x.toNat) ∧ ∀ y ∈ mgr.ownedBy σ' f, y.toNat ≠ x.toNat := by
  have hnot : x ∉ mgr.ownedBy σ f := fun hxf => hi.owned.disjoint g f hg hf hgf hx hxf
  refine ⟨?_, ?_⟩
  · intro y hy heq
    exact hnot (UInt32.toNat_inj.mp heq ▸ hy)
  · intro y hy heq
    cases UInt32.toNat_inj.mp heq
    have hfree := hc.fresh x hy hnot
    rw [hi.owned.set hg hx] at hfree
    cases hfree

theorem Changed.other {g : Nat} (hg : mgr.Used σ g) (hgf : g ≠ f) {x : UInt32}
    (hx : x ∈ mgr.ownedBy σ g) : σ' x.toNat = σ x.toNat := by
  obtain ⟨h₁, h₂⟩ := hc.other_ne hi hf hg hgf hx
  exact hc.frame _ (hi.owned.area g hg x hx).1 h₁ h₂

theorem Changed.ownedBy_other {g : Nat} (hg : mgr.Used σ g) (hgf : g ≠ f) :
    mgr.ownedBy σ' g = mgr.ownedBy σ g := by
  unfold ownedBy
  rw [hc.inode g hg.1 hgf]
  exact owned_frame fun x hx => hc.other hi hf hg hgf hx

theorem FsInv.changed (hl : mgr.Layout total ibb) : mgr.FsInv total ibb σ' := by
  have hused : ∀ g, mgr.Used σ' g ↔ mgr.Used σ g := fun _ => hc.used hf hl
  have hother : ∀ g, mgr.Used σ g → g ≠ f → mgr.ownedBy σ' g = mgr.ownedBy σ g :=
    fun _ => hc.ownedBy_other hi hf
  -- A block of another file is not one of `f` after the change.
  have hapart : ∀ g, mgr.Used σ g → g ≠ f → ∀ x ∈ mgr.ownedBy σ g, x ∉ mgr.ownedBy σ' f := by
    intro g hg hgf x hx hxf
    exact (hc.other_ne hi hf hg hgf hx).2 x hxf rfl
  refine ⟨?_, ?_, ⟨?_, ?_, ?_, ?_⟩⟩
  · have hd := hi.described
    unfold Described at hd ⊢
    rwa [hc.head hf hl (by omega)]
  · intro g hg
    by_cases hgf : g = f
    · rw [hgf]
      exact hc.bound
    · rw [hc.inode g hg.1 hgf]
      exact hi.bound g ((hused g).mp hg)
  · intro g hg
    by_cases hgf : g = f
    · rw [hgf]
      exact hc.nodup
    · rw [hother g ((hused g).mp hg) hgf]
      exact hi.owned.nodup g ((hused g).mp hg)
  · intro g g' hg hg' hne
    have hg := (hused g).mp hg
    have hg' := (hused g').mp hg'
    by_cases hgf : g = f
    · subst hgf
      rw [hother g' hg' (Ne.symm hne)]
      intro x hx hx'
      exact hapart g' hg' (Ne.symm hne) x hx' hx
    · by_cases hgf' : g' = f
      · subst hgf'
        rw [hother g hg hgf]
        intro x hx hx'
        exact hapart g hg hgf x hx hx'
      · rw [hother g hg hgf, hother g' hg' hgf']
        exact hi.owned.disjoint g g' hg hg' hne
  · intro g hg
    by_cases hgf : g = f
    · rw [hgf]
      exact hc.area
    · rw [hother g ((hused g).mp hg) hgf]
      exact hi.owned.area g ((hused g).mp hg)
  · intro k hk
    rw [hc.bit k hk, hi.owned.bit k hk]
    constructor
    · rintro (⟨⟨g, hg, x, hx, hk⟩, hne⟩ | ⟨x, hx, hk⟩)
      · have hgf : g ≠ f := by
          rintro rfl
          exact hne x hx hk
        exact ⟨g, (hused g).mpr hg, x, by rwa [hother g hg hgf], hk⟩
      · exact ⟨f, (hused f).mpr hf, x, hx, hk⟩
    · rintro ⟨g, hg, x, hx, hk⟩
      have hg := (hused g).mp hg
      by_cases hgf : g = f
      · subst hgf
        exact .inr ⟨x, hx, hk⟩
      · rw [hother g hg hgf] at hx
        refine .inl ⟨⟨g, hg, x, hx, hk⟩, ?_⟩
        rw [← hk]
        exact (hc.other_ne hi hf hg hgf hx).1

end Changed

/-! ## What the closures do

A closure of `modify_disk_inode` changes the blocks of the file and its
copy `d` of the inode, which is stored when it returns. -/

/-- The blocks in the tree of `d`. -/
def blocksOf (σ : Store) (d : DiskInode) : List UInt32 := owned σ d (DiskInode.blockCount d.size)

structure Reshaped (mgr : BlockManager) (σ : Store) (d : DiskInode) (σ' : Store) (d' : DiskInode) :
    Prop where
  low : ∀ b, b < mgr.dataBitmap.startBlockId → σ' b = σ b
  frame : ∀ b, mgr.dataAreaStartBlock ≤ b → (∀ x ∈ blocksOf σ d, x.toNat ≠ b) →
    (∀ x ∈ blocksOf σ' d', x.toNat ≠ b) → σ' b = σ b
  bound : DiskInode.blockCount d'.size ≤ 16539
  nodup : (blocksOf σ' d').Nodup
  area : ∀ x ∈ blocksOf σ' d', mgr.InArea x
  fresh : ∀ x ∈ blocksOf σ' d', x ∉ blocksOf σ d →
    mgr.dataBitmap.bit σ (x.toNat - mgr.dataAreaStartBlock) = false
  bit : ∀ k, k < mgr.dataBitmap.blocks * 4096 → (mgr.dataBitmap.bit σ' k = true
    ↔ (mgr.dataBitmap.bit σ k = true ∧ ∀ x ∈ blocksOf σ d, x.toNat ≠ mgr.dataAreaStartBlock + k)
      ∨ ∃ x ∈ blocksOf σ' d', x.toNat = mgr.dataAreaStartBlock + k)

/-- The store with the inode `f` put back. -/
def putInode (mgr : BlockManager) (σ : Store) (f : Nat) (σ' : Store) (d : DiskInode) : Store :=
  Function.update σ' (mgr.inode f).blockId
    (d.store (σ (mgr.inode f).blockId) (mgr.inode f).blockOffset)

theorem inodeAt_putInode (d : DiskInode) (h : σ' (mgr.inode f).blockId = σ (mgr.inode f).blockId)
    (g : Nat) :
    mgr.inodeAt (mgr.putInode σ f σ' d) g = if g = f then d else mgr.inodeAt σ' g := by
  unfold putInode
  rw [← h]
  exact mgr.inodeAt_store σ' f d g

theorem putInode_of_ne (d : DiskInode) {b : Nat} (hb : b ≠ (mgr.inode f).blockId) :
    mgr.putInode σ f σ' d b = σ' b :=
  Function.update_of_ne hb ..

theorem Reshaped.changed (hl : mgr.Layout total ibb) (hf : mgr.Used σ f) {d' : DiskInode}
    (h : mgr.Reshaped σ (mgr.inodeAt σ f) σ' d') :
    mgr.Changed σ f (mgr.putInode σ f σ' d')
      ∧ mgr.inodeAt (mgr.putInode σ f σ' d') f = d'
      ∧ mgr.ownedBy (mgr.putInode σ f σ' d') f = blocksOf σ' d' := by
  obtain ⟨hge, hlt⟩ := hl.inode_lt hf.1
  have hda := hl.dataArea
  have hstart := hl.blocks.2.1
  have hat : ∀ g, mgr.inodeAt (mgr.putInode σ f σ' d') g = if g = f then d' else mgr.inodeAt σ' g :=
    inodeAt_putInode d' (h.low _ hlt)
  have hhigh : ∀ b, mgr.dataBitmap.startBlockId ≤ b → mgr.putInode σ f σ' d' b = σ' b := by
    intro b hb
    exact putInode_of_ne d' (by omega)
  have hself : mgr.inodeAt (mgr.putInode σ f σ' d') f = d' := by rw [hat, if_pos rfl]
  have hown : mgr.ownedBy (mgr.putInode σ f σ' d') f = blocksOf σ' d' := by
    unfold ownedBy
    rw [hself]
    refine owned_frame ?_
    intro x hx
    have := (h.area x hx).1
    exact hhigh _ (by omega)
  refine ⟨⟨?_, ?_, ?_, ?_, ?_, ?_, ?_, ?_⟩, hself, hown⟩
  · intro b hb hne
    rw [putInode_of_ne d' hne, h.low b hb]
  · intro g hg hgf
    rw [hat, if_neg hgf]
    unfold inodeAt
    rw [h.low _ (hl.inode_lt hg).2]
  · intro b hb
    rw [hown, hhigh b (by omega)]
    exact h.frame b hb
  · rw [hself]
    exact h.bound
  · rw [hown]
    exact h.nodup
  · rw [hown]
    exact h.area
  · rw [hown]
    exact h.fresh
  · intro k hk
    have hbit : mgr.dataBitmap.bit (mgr.putInode σ f σ' d') k = mgr.dataBitmap.bit σ' k := by
      unfold Bitmap.bit
      rw [hhigh _ (by omega)]
    rw [hown, hbit]
    exact h.bit k hk

theorem Extended.reshaped {d d' : DiskInode} {v : List UInt32} (hd : mgr.FileOk σ d)
    (h : mgr.Extended σ d v σ' d') : mgr.Reshaped σ d σ' d' := by
  have hown : blocksOf σ' d' = blocksOf σ d ++ v := h.owned
  refine ⟨h.low, ?_, h.bound, ?_, ?_, ?_, ?_⟩
  · intro b hb _ hnew
    rw [hown] at hnew
    exact h.frame b hb hnew
  · rw [hown]
    exact h.nodup
  · rw [hown]
    intro x hx
    rcases List.mem_append.mp hx with hx | hx
    · exact hd.area x hx
    · exact h.area x hx
  · rw [hown]
    intro x hx hnot
    exact h.free x ((List.mem_append.mp hx).resolve_left hnot)
  · intro k hk
    rw [h.bit k hk, hown]
    constructor
    · rintro (hset | ⟨x, hx, hk⟩)
      · by_cases hold : ∃ x ∈ blocksOf σ d, x.toNat = mgr.dataAreaStartBlock + k
        · obtain ⟨x, hx, hk⟩ := hold
          exact .inr ⟨x, List.mem_append_left _ hx, hk⟩
        · exact .inl ⟨hset, fun x hx hk => hold ⟨x, hx, hk⟩⟩
      · exact .inr ⟨x, List.mem_append_right _ hx, hk⟩
    · rintro (⟨hset, -⟩ | ⟨x, hx, hk⟩)
      · exact .inl hset
      · rcases List.mem_append.mp hx with hx | hx
        · have hset := hd.set x hx
          rw [hk, Nat.add_sub_cancel_left] at hset
          exact .inl hset
        · exact .inr ⟨x, hx, hk⟩

theorem Freed.reshaped {d d' : DiskInode} (h : mgr.Freed σ (blocksOf σ d) σ')
    (hlow : ∀ x ∈ blocksOf σ d, mgr.dataBitmap.startBlockId ≤ x.toNat) (hsize : d'.size = 0) :
    mgr.Reshaped σ d σ' d' ∧ blocksOf σ' d' = [] := by
  have hnil : blocksOf σ' d' = [] := by
    unfold blocksOf
    rw [hsize]
    rfl
  refine ⟨?_, hnil⟩
  refine ⟨?_, ?_, ?_, ?_, ?_, ?_, ?_⟩
  · intro b hb
    apply h.frame b (.inl hb)
    intro x hx heq
    have := hlow x hx
    omega
  · intro b hb hold _
    exact h.frame b (.inr hb) hold
  · rw [hsize]
    decide
  · rw [hnil]
    exact List.nodup_nil
  · simp [hnil]
  · simp [hnil]
  · intro k hk
    rw [h.bit k hk, hnil]
    simp

/-! ## A new file -/

/-- The inode `g` was the first free one and is now an empty file. -/
structure Born (mgr : BlockManager) (σ : Store) (g : Nat) (type : DiskInodeType) (σ' : Store) :
    Prop where
  free : ¬ mgr.Used σ g
  first : ∀ h, h < g → mgr.Used σ h
  used : ∀ h, mgr.Used σ' h ↔ h = g ∨ mgr.Used σ h
  inode : ∀ h, h < mgr.inodeBitmap.blocks * 4096 →
    mgr.inodeAt σ' h = if h = g then DiskInode.init type else mgr.inodeAt σ h
  super : σ' 0 = σ 0
  frame : ∀ b, mgr.dataBitmap.startBlockId ≤ b → σ' b = σ b

theorem ownedBy_of_empty (h : (mgr.inodeAt σ f).size = 0) : mgr.ownedBy σ f = [] := by
  unfold ownedBy
  rw [h]
  rfl

section Born

variable {g : Nat} {type : DiskInodeType} (hl : mgr.Layout total ibb)
  (hi : mgr.FsInv total ibb σ) (hb : mgr.Born σ g type σ')

include hb

theorem Born.ownedBy_self : mgr.ownedBy σ' g = [] := by
  have hused : mgr.Used σ' g := (hb.used g).mpr (.inl rfl)
  apply ownedBy_of_empty
  rw [hb.inode g hused.1, if_pos rfl]
  rfl

include hl hi

theorem Born.ownedBy_other {h : Nat} (hh : mgr.Used σ h) : mgr.ownedBy σ' h = mgr.ownedBy σ h := by
  have hda := hl.dataArea
  have hstart := hl.blocks.2.1
  have hne : h ≠ g := by
    rintro rfl
    exact hb.free hh
  unfold ownedBy
  rw [hb.inode h hh.1, if_neg hne]
  refine owned_frame ?_
  intro x hx
  have := (hi.owned.area h hh x hx).1
  exact hb.frame _ (by omega)

theorem FsInv.born : mgr.FsInv total ibb σ' := by
  have hself := hb.ownedBy_self
  have hother : ∀ {h : Nat}, mgr.Used σ h → mgr.ownedBy σ' h = mgr.ownedBy σ h :=
    hb.ownedBy_other hl hi
  refine ⟨?_, ?_, ⟨?_, ?_, ?_, ?_⟩⟩
  · have hd := hi.described
    unfold Described at hd ⊢
    rwa [hb.super]
  · intro h hh
    rw [hb.inode h hh.1]
    split
    · show DiskInode.blockCount 0 ≤ 16539
      decide
    · next hne => exact hi.bound h (((hb.used h).mp hh).resolve_left hne)
  · intro h hh
    rcases (hb.used h).mp hh with rfl | hh
    · simp [hself]
    · rw [hother hh]
      exact hi.owned.nodup h hh
  · intro h h' hh hh' hne
    rcases (hb.used h).mp hh with rfl | hh
    · simp [hself]
    · rcases (hb.used h').mp hh' with rfl | hh'
      · simp [hself]
      · rw [hother hh, hother hh']
        exact hi.owned.disjoint h h' hh hh' hne
  · intro h hh
    rcases (hb.used h).mp hh with rfl | hh
    · simp [hself]
    · rw [hother hh]
      exact hi.owned.area h hh
  · intro k hk
    have hbit : mgr.dataBitmap.bit σ' k = mgr.dataBitmap.bit σ k := by
      unfold Bitmap.bit
      rw [hb.frame _ (by omega)]
    rw [hbit, hi.owned.bit k hk]
    constructor
    · rintro ⟨h, hh, x, hx, hk⟩
      exact ⟨h, (hb.used h).mpr (.inr hh), x, by rwa [hother hh], hk⟩
    · rintro ⟨h, hh, x, hx, hk⟩
      rcases (hb.used h).mp hh with rfl | hh
      · rw [hself] at hx
        cases hx
      · rw [hother hh] at hx
        exact ⟨h, hh, x, hx, hk⟩

end Born

/-! ## The operations -/

/-- File `f` has got the blocks `v`, and `buf` at `offset`, and is now `d'`. -/
structure Overwrote (mgr : BlockManager) (σ : Store) (f offset : Nat) (buf : List UInt8)
    (v : List UInt32) (σ' : Store) (d' : DiskInode) : Prop where
  extended : mgr.Extended σ (mgr.inodeAt σ f) v σ' d'
  bytes : offset + buf.length < 2 ^ 32 →
    d'.size.toNat = max (mgr.inodeAt σ f).size.toNat (offset + buf.length)
      ∧ Rewritten σ (mgr.inodeAt σ f) v offset buf σ' d'

theorem Overwrote.changed (hl : mgr.Layout total ibb) (hi : mgr.FsInv total ibb σ)
    (hf : mgr.Used σ f) {offset : Nat} {buf : List UInt8} {v : List UInt32} {d' : DiskInode}
    (h : mgr.Overwrote σ f offset buf v σ' d') :
    mgr.Changed σ f (mgr.putInode σ f σ' d') ∧ mgr.inodeAt (mgr.putInode σ f σ' d') f = d'
      ∧ mgr.ownedBy (mgr.putInode σ f σ' d') f = mgr.ownedBy σ f ++ v := by
  obtain ⟨hc, hd', hown⟩ := (h.extended.reshaped (hi.fileOk hf)).changed hl hf
  exact ⟨hc, hd', hown.trans h.extended.owned⟩

theorem inode_held (hl : mgr.Layout total ibb) (hf : mgr.Used σ f) :
    ∀ b ∈ [(mgr.inode f).blockId], b < mgr.dataBitmap.startBlockId := by
  intro b hb
  rw [List.mem_singleton.mp hb]
  exact (hl.inode_lt hf.1).2

/-- File `f` has got the blocks `v` and is now `d'`, `newSize` large at
least. -/
structure Grew (mgr : BlockManager) (σ : Store) (f newSize : Nat) (v : List UInt32) (σ' : Store)
    (d' : DiskInode) : Prop where
  extended : mgr.Extended σ (mgr.inodeAt σ f) v σ' d'
  kept : Kept σ (mgr.inodeAt σ f) v σ' d'
  size : d'.size.toNat = max (mgr.inodeAt σ f).size.toNat (newSize % 2 ^ 32)

theorem Grew.size_of_lt {newSize : Nat} {v : List UInt32} {d' : DiskInode}
    (h : mgr.Grew σ f newSize v σ' d') (hlt : newSize < 2 ^ 32) :
    d'.size.toNat = max (mgr.inodeAt σ f).size.toNat newSize := by
  have hsize := h.size
  rwa [Nat.mod_eq_of_lt hlt] at hsize

theorem increaseSize_grew {E : FsErr → Prop} (hl : mgr.Layout total ibb)
    (hi : mgr.FsInv total ibb σ) (hf : mgr.Used σ f) {newSize : Nat}
    (hroom : mgr.room total σ < blocksFor (mgr.inodeAt σ f) (UInt32.ofNat newSize) →
      E .panic ∧ (¬ mgr.IdsFit → E .overflow))
    (hlarge : 16539 * 512 < newSize → E .panic ∧ (2 ^ 32 ≤ newSize + 512 → E .overflow)) :
    Post E (Inode.increaseSize mgr (UInt32.ofNat newSize) (mgr.inodeAt σ f))
      [(mgr.inode f).blockId] σ fun d' σ' => ∃ v, mgr.Grew σ f newSize v σ' d'
        ∧ mgr.Provided total σ (blocksFor (mgr.inodeAt σ f) (UInt32.ofNat newSize)) v := by
  have hnat : (UInt32.ofNat newSize).toNat = newSize % 2 ^ 32 := UInt32.toNat_ofNat'
  have hm : 16539 < DiskInode.blockCount (UInt32.ofNat newSize) →
      E .panic ∧ (2 ^ 32 ≤ (UInt32.ofNat newSize).toNat + 512 → E .overflow) := by
    intro hbig
    unfold DiskInode.blockCount at hbig
    exact ⟨(hlarge (by omega)).1, fun hover => (hlarge (by omega)).2 (by omega)⟩
  apply (increaseSize_spec hl (hi.fileOk hf) hroom hm (inode_held hl hf)).mono
  rintro d' σ' ⟨hmax, v, hext, hkept, hv⟩
  rw [hnat] at hmax
  exact ⟨v, ⟨hext, hkept, hmax⟩, hv⟩

theorem Grew.writeAt {E : FsErr → Prop} (hl : mgr.Layout total ibb) (hi : mgr.FsInv total ibb σ)
    (hf : mgr.Used σ f) {offset : Nat} {buf : List UInt8} {v : List UInt32} {d' : DiskInode}
    (hlarge : 16539 * 512 < offset + buf.length →
      E .panic ∧ (2 ^ 32 ≤ offset + buf.length + 512 → E .overflow))
    (hstuck : (buf = [] ∨ 2 ^ 32 ≤ offset + buf.length)
      ∧ (mgr.inodeAt σ f).size.toNat ≤ offset ∧ 512 ∣ offset → ∀ e, E e)
    (h : mgr.Grew σ f (offset + buf.length) v σ' d') :
    Post E (d'.writeAt offset buf) [(mgr.inode f).blockId] σ' fun r σ'' =>
      mgr.Overwrote σ f offset buf v σ'' d'
        ∧ (offset + buf.length < 2 ^ 32 → r = buf.length) := by
  have hbound := h.extended.bound
  unfold DiskInode.blockCount at hbound
  have hbeyond : d'.size.toNat < offset → E .panic := by
    intro hlt
    by_cases hfit : offset + buf.length < 2 ^ 32
    · have := h.size_of_lt hfit
      omega
    · exact (hlarge (by omega)).1
  have hany : offset ≤ d'.size.toNat → d'.size.toNat = offset ∨ buf = [] →
      DiskInode.blockCount d'.size ≤ offset / 512 → ∀ e, E e := by
    intro hle hnone hcount
    have hsize := h.size
    unfold DiskInode.blockCount at hcount
    refine hstuck ⟨?_, by omega, by omega⟩
    by_cases hfit : offset + buf.length < 2 ^ 32
    · rw [Nat.mod_eq_of_lt hfit] at hsize
      refine .inl ?_
      rcases hnone with hend | hnil
      · exact List.length_eq_zero_iff.mp (by omega)
      · exact hnil
    · exact .inr (by omega)
  apply (h.extended.writeAt hl (hi.fileOk hf) (inode_held hl hf)
    (fun hover => (hlarge (by omega)).2 (by omega)) hbeyond hany).mono
  rintro r σ'' ⟨hext, hbytes⟩
  refine ⟨⟨hext, ?_⟩, ?_⟩
  · intro hlt
    have hsize := h.size_of_lt hlt
    exact ⟨hsize, (hbytes h.kept (by omega)).2⟩
  · intro hlt
    have hsize := h.size_of_lt hlt
    exact (hbytes h.kept (by omega)).1

/-- What can go wrong in `write_at`: it is no file, it would be too large, the
disk is full. At the end of the last block any block may be opened if there is
nothing to write, or so much that the new size does not fit `u32`. -/
structure WriteFaults (E : FsErr → Prop) (mgr : BlockManager) (total : Nat) (σ : Store)
    (f offset : Nat) (buf : List UInt8) : Prop where
  file : (mgr.inodeAt σ f).file = false → E .panic
  large : 16539 * 512 < offset + buf.length →
    E .panic ∧ (2 ^ 32 ≤ offset + buf.length + 512 → E .overflow)
  room : mgr.room total σ < blocksFor (mgr.inodeAt σ f) (UInt32.ofNat (offset + buf.length)) →
    E .panic ∧ (¬ mgr.IdsFit → E .overflow)
  stuck : (buf = [] ∨ 2 ^ 32 ≤ offset + buf.length)
    ∧ (mgr.inodeAt σ f).size.toNat ≤ offset ∧ 512 ∣ offset → ∀ e, E e

theorem WriteFaults.any (mgr : BlockManager) (total : Nat) (σ : Store) (f offset : Nat)
    (buf : List UInt8) : WriteFaults (fun _ => True) mgr total σ f offset buf :=
  ⟨fun _ => trivial, fun _ => ⟨trivial, fun _ => trivial⟩, fun _ => ⟨trivial, fun _ => trivial⟩,
    fun _ _ => trivial⟩

theorem writeAt_post {E : FsErr → Prop} (hl : mgr.Layout total ibb) (hi : mgr.FsInv total ibb σ)
    (hf : mgr.Used σ f) {offset : Nat} {buf : List UInt8}
    (hE : WriteFaults E mgr total σ f offset buf) :
    Post E (Inode.writeAt mgr (mgr.inode f) offset buf) [] σ fun r σ' =>
      (mgr.inodeAt σ f).file = true ∧ (offset + buf.length < 2 ^ 32 → r = buf.length)
        ∧ ∃ v σ₁ d', mgr.Overwrote σ f offset buf v σ₁ d' ∧ σ' = mgr.putInode σ f σ₁ d'
          ∧ mgr.Provided total σ
            (blocksFor (mgr.inodeAt σ f) (UInt32.ofNat (offset + buf.length))) v := by
  unfold Inode.writeAt
  rw [Post.bind_iff, modifyDiskInode_iff, Post.bind_iff, Post.assert_iff]
  refine ⟨?_, fun hfile => hE.file (by simpa using hfile)⟩
  intro hfile
  rw [Post.bind_iff, Post.add_iff]
  refine ⟨?_, fun hover => (hE.large (by omega)).2 (by omega)⟩
  intro _
  rw [Post.bind_iff]
  apply (increaseSize_grew hl hi hf hE.room hE.large).mono
  rintro d' σ₁ ⟨v, hgrew, hv⟩
  rw [Post.bind_iff]
  apply (hgrew.writeAt hl hi hf hE.large hE.stuck).mono
  rintro r σ₂ ⟨hover, hr⟩
  rw [Post.pure_iff, Post.bind_iff, Post.syncAll_iff, Post.pure_iff]
  exact ⟨hfile, hr, v, σ₂, d', hover, rfl, hv⟩

theorem ownedBy_not_held (hl : mgr.Layout total ibb) (hi : mgr.FsInv total ibb σ)
    (hf : mgr.Used σ f) : ∀ x ∈ mgr.ownedBy σ f, x.toNat ∉ [(mgr.inode f).blockId] := by
  exact (hi.fileOk hf).not_held hl (inode_held hl hf)

/-- `clear` returns on every regular file: no assertion fails, and all its
blocks are given back. -/
theorem clear_returns (hl : mgr.Layout total ibb) (hi : mgr.FsInv total ibb σ)
    (hf : mgr.Used σ f) (hfile : (mgr.inodeAt σ f).file = true) :
    Returns (Inode.clear mgr (mgr.inode f)) [] σ fun _ σ' =>
      ∃ σ₁ d', mgr.Freed σ (mgr.ownedBy σ f) σ₁ ∧ d'.size = 0
        ∧ d'.type = (mgr.inodeAt σ f).type ∧ σ' = mgr.putInode σ f σ₁ d' := by
  have hbound := hi.bound f hf
  have hfit : (mgr.inodeAt σ f).size.toNat + 512 < 2 ^ 32 := DiskInode.size_fits (by omega)
  unfold Inode.clear
  rw [Returns, Post.bind_iff, modifyDiskInode_iff, Post.bind_iff, Post.assert_iff]
  refine ⟨?_, fun h => absurd hfile h⟩
  intro _
  dsimp only
  rw [Post.bind_iff]
  apply (DiskInode.clearSize_spec hbound (hi.owned.nodup f hf) (ownedBy_not_held hl hi hf)).mono
  rintro ⟨v, d'⟩ σ' ⟨rfl, hv, hsize, htype⟩
  dsimp only at hv hsize htype ⊢
  subst hv
  unfold DiskInode.totalBlocks
  rw [Post.bind_iff, Post.bind_iff, DiskInode.dataBlocksOf_spec hfit, Post.pure_iff, Post.bind_iff,
    Post.assert_iff]
  have hlen : (owned σ' (mgr.inodeAt σ' f)
      (DiskInode.blockCount (mgr.inodeAt σ' f).size)).length
      = DiskInode.blocksWithIndex (DiskInode.blockCount (mgr.inodeAt σ' f).size) := by
    rw [owned, List.length_map, length_nodes hbound]
  refine ⟨?_, fun h => absurd hlen h⟩
  intro _
  rw [Post.bind_iff]
  apply (deallocBlocks_spec hl (hi.owned.nodup f hf) (hi.owned.area f hf)
    (fun x hx => hi.owned.set hf hx) (inode_held hl hf)).mono
  intro _ σ₁ hfreed
  rw [Post.pure_iff, Post.syncAll_iff]
  exact ⟨σ₁, d', hfreed, hsize, htype, rfl⟩

theorem clear_ensures (hl : mgr.Layout total ibb) (hi : mgr.FsInv total ibb σ)
    (hf : mgr.Used σ f) :
    Ensures (Inode.clear mgr (mgr.inode f)) [] σ fun _ σ' => (mgr.inodeAt σ f).file = true
      ∧ ∃ σ₁ d', mgr.Freed σ (mgr.ownedBy σ f) σ₁ ∧ d'.size = 0
        ∧ d'.type = (mgr.inodeAt σ f).type ∧ σ' = mgr.putInode σ f σ₁ d' := by
  by_cases hfile : (mgr.inodeAt σ f).file = true
  · apply (Post.of_returns (clear_returns hl hi hf hfile)).mono
    intro _ σ' h
    exact ⟨hfile, h⟩
  · unfold Inode.clear
    rw [Ensures, Post.bind_iff, modifyDiskInode_iff, Post.bind_iff, Post.assert_iff]
    exact ⟨fun h => absurd h hfile, fun _ => trivial⟩

theorem cleared_changed (hl : mgr.Layout total ibb) (hi : mgr.FsInv total ibb σ)
    (hf : mgr.Used σ f) {d' : DiskInode} (h : mgr.Freed σ (mgr.ownedBy σ f) σ')
    (hsize : d'.size = 0) :
    mgr.Changed σ f (mgr.putInode σ f σ' d') ∧ mgr.inodeAt (mgr.putInode σ f σ' d') f = d'
      ∧ mgr.ownedBy (mgr.putInode σ f σ' d') f = [] := by
  have hda := hl.dataArea
  have hstart := hl.blocks.2.1
  obtain ⟨hre, hnil⟩ := Freed.reshaped (d := mgr.inodeAt σ f) h (fun x hx => by
    have := (hi.owned.area f hf x hx).1
    omega) hsize
  obtain ⟨hc, hd', hown⟩ := hre.changed hl hf
  exact ⟨hc, hd', hown.trans hnil⟩

/-! ### Making a file -/

/-- `alloc_inode` and the initialization of the inode. -/
theorem newInode_born (hl : mgr.Layout total ibb) {g : Nat} {type : DiskInodeType} {σ₁ : Store}
    (h : mgr.inodeBitmap.Allocated σ (some g) σ₁) :
    mgr.Born σ g type (mgr.putInode σ₁ g σ₁ (DiskInode.init type)) := by
  obtain ⟨hg, hclear, hbefore, hsets⟩ := h
  have hblocks : mgr.inodeBitmap.blocks = ibb := by rw [hl.inodeBitmap]
  have hone : mgr.inodeBitmap.startBlockId = 1 := by rw [hl.inodeBitmap]
  obtain ⟨hge, hlt⟩ := hl.inode_lt hg
  have hstart := hl.blocks.2.1
  have hput : ∀ b, b < 1 + ibb ∨ mgr.dataBitmap.startBlockId ≤ b →
      mgr.putInode σ₁ g σ₁ (DiskInode.init type) b = σ₁ b := by
    intro b hb
    exact putInode_of_ne _ (by omega)
  have hframe : ∀ b, b = 0 ∨ 1 + ibb ≤ b → σ₁ b = σ b := by
    intro b hb
    apply hsets.frame
    omega
  refine ⟨?_, ?_, ?_, ?_, ?_, ?_⟩
  · intro hused
    have := hused.2
    rw [hclear] at this
    cases this
  · intro h hlt
    exact ⟨by omega, hbefore h hlt⟩
  · intro h
    unfold Used
    by_cases hh : h < mgr.inodeBitmap.blocks * 4096
    · have hbit : mgr.inodeBitmap.bit (mgr.putInode σ₁ g σ₁ (DiskInode.init type)) h
          = mgr.inodeBitmap.bit σ₁ h := by
        unfold Bitmap.bit
        rw [hput _ (by omega)]
      rw [hbit, hsets.bit h]
      by_cases hhg : h = g
      · simp [hhg, hg]
      · simp [hhg]
    · have hhg : h ≠ g := by
        rintro rfl
        exact hh hg
      simp [hh, hhg]
  · intro h hh
    rw [inodeAt_putInode _ rfl]
    split
    · rfl
    · unfold inodeAt
      rw [hframe _ (.inr (hl.inode_lt hh).1)]
  · rw [hput 0 (by omega), hframe 0 (.inl rfl)]
  · intro b hb
    rw [hput b (.inr hb), hframe b (.inr (by omega))]

/-- A new inode takes no block. -/
theorem Born.room {g : Nat} {type : DiskInodeType} (hb : mgr.Born σ g type σ') :
    mgr.room total σ' = mgr.room total σ := by
  have hbit : ∀ k, mgr.dataBitmap.bit σ' k = mgr.dataBitmap.bit σ k := by
    intro k
    unfold Bitmap.bit
    rw [hb.frame _ (Nat.le_add_left ..)]
  unfold BlockManager.room freeBlocks
  simp only [hbit]

theorem Provided.born {g n : Nat} {type : DiskInodeType} {v : List UInt32}
    (h : mgr.Provided total σ' n v) (hb : mgr.Born σ g type σ') : mgr.Provided total σ n v where
  length := h.length
  disk hroom := h.disk (by rwa [hb.room])

/-- The bytes of the entry `name` for inode `g`. -/
def entryBytes (name : String) (g : Nat) : List UInt8 :=
  DirEntry.asBytes ⟨name.toUTF8.data.toList
    ++ List.replicate (NAME_LENGTH_LIMIT + 1 - name.toUTF8.data.toList.length) 0, UInt32.ofNat g⟩

theorem length_entryBytes {name : String} {g : Nat} :
    (entryBytes name g).length = 32 ↔ (nameBytes name).length ≤ 28 := by
  show (nameBytes name ++ List.replicate (28 - (nameBytes name).length) 0
    ++ leBytes 4 (UInt32.ofNat g).toNat).length = 32 ↔ _
  rw [List.length_append, List.length_append, List.length_replicate, leBytes_length]
  omega

/-- What can go wrong with a new entry: the name does not fit, the directory
would be too large, the disk is full. -/
structure EntryFaults (E : FsErr → Prop) (mgr : BlockManager) (total : Nat) (σ : Store) (f : Nat)
    (name : String) : Prop where
  name : 28 < (nameBytes name).length → E .panic
  large : 16539 * 512 < (mgr.inodeAt σ f).size.toNat / 32 * 32 + 32 →
    E .panic ∧ (2 ^ 32 ≤ (mgr.inodeAt σ f).size.toNat / 32 * 32 + 32 + 512 → E .overflow)
  room : mgr.room total σ < blocksFor (mgr.inodeAt σ f)
    (UInt32.ofNat ((mgr.inodeAt σ f).size.toNat / 32 * 32 + 32)) →
      E .panic ∧ (¬ mgr.IdsFit → E .overflow)

/-- What else can go wrong in `create_inode`: it is no directory, there is no
free inode. -/
structure CreateFaults (E : FsErr → Prop) (mgr : BlockManager) (total : Nat) (σ : Store) (f : Nat)
    (name : String) : Prop extends EntryFaults E mgr total σ f name where
  dir : (mgr.inodeAt σ f).dir = false → E .panic
  inode : (∀ g, g < mgr.inodeBitmap.blocks * 4096 → mgr.inodeBitmap.bit σ g = true) → E .panic

theorem CreateFaults.any (mgr : BlockManager) (total : Nat) (σ : Store) (f : Nat) (name : String) :
    CreateFaults (fun _ => True) mgr total σ f name :=
  ⟨⟨fun _ => trivial, fun _ => ⟨trivial, fun _ => trivial⟩, fun _ => ⟨trivial, fun _ => trivial⟩⟩,
    fun _ => trivial, fun _ => trivial⟩

/-- The new inode is not the directory and takes no block. -/
theorem EntryFaults.born {E : FsErr → Prop} {name : String} {g : Nat} {type : DiskInodeType}
    (h : EntryFaults E mgr total σ f name) (hb : mgr.Born σ g type σ') (hf : mgr.Used σ f) :
    EntryFaults E mgr total σ' f name := by
  have hne : f ≠ g := by
    rintro rfl
    exact hb.free hf
  have hd := hb.inode f hf.1
  rw [if_neg hne] at hd
  refine ⟨h.name, ?_, ?_⟩
  · rw [hd]
    exact h.large
  · rw [hd, hb.room]
    exact h.room

theorem addEntry_post {E : FsErr → Prop} (hl : mgr.Layout total ibb) (hi : mgr.FsInv total ibb σ)
    (hf : mgr.Used σ f) {name : String} (hE : EntryFaults E mgr total σ f name) (g : Nat) :
    Post E (Inode.addEntry mgr name (UInt32.ofNat g) (mgr.inodeAt σ f)) [(mgr.inode f).blockId] σ
      fun r σ' => (nameBytes name).length ≤ 28 ∧ ∃ v,
        mgr.Overwrote σ f ((mgr.inodeAt σ f).size.toNat / 32 * 32) (entryBytes name g) v σ' r.2
          ∧ mgr.Provided total σ (blocksFor (mgr.inodeAt σ f)
            (UInt32.ofNat ((mgr.inodeAt σ f).size.toNat / 32 * 32 + 32))) v := by
  have hsum : ((mgr.inodeAt σ f).size.toNat / DIRENT_SZ + 1) * DIRENT_SZ
      = (mgr.inodeAt σ f).size.toNat / 32 * 32 + 32 := by
    simp only [DIRENT_SZ]
    omega
  unfold Inode.addEntry
  dsimp only
  rw [hsum, Post.bind_iff]
  apply (increaseSize_grew hl hi hf hE.room hE.large).mono
  rintro d' σ₁ ⟨v, hgrew, hv⟩
  unfold DirEntry.new
  rw [Post.bind_iff, Post.bind_iff, Post.assert_iff]
  refine ⟨?_, fun hname => hE.name (Nat.not_le.mp hname)⟩
  intro hname
  have hname : (nameBytes name).length ≤ 28 := hname
  have hlen : (entryBytes name g).length = 32 := length_entryBytes.mpr hname
  have hgrew : mgr.Grew σ f ((mgr.inodeAt σ f).size.toNat / 32 * 32 + (entryBytes name g).length) v
      σ₁ d' := by rwa [hlen]
  rw [Post.pure_iff, Post.bind_iff]
  apply (hgrew.writeAt hl hi hf (by rw [hlen]; exact hE.large) ?_).mono
  rotate_left
  · rintro ⟨hnil | hbig, -⟩
    · rw [hnil] at hlen
      cases hlen
    · have hbound := hi.bound f hf
      unfold DiskInode.blockCount at hbound
      omega
  rintro r σ₂ ⟨hover, -⟩
  rw [Post.pure_iff]
  exact ⟨hname, v, hover, hv⟩

/-- `create_inode`, for a search of the directory that ends with `P`. The new
inode is made first, and then the directory gets its entry. -/
theorem createInode_post {E : FsErr → Prop} (hl : mgr.Layout total ibb) (hfit : ibb * 4096 ≤ 2 ^ 32)
    (hi : mgr.FsInv total ibb σ) (hf : mgr.Used σ f) {name : String} {type : DiskInodeType}
    {P : Option UInt32 → Prop} (hE : CreateFaults E mgr total σ f name)
    (hfind : (mgr.inodeAt σ f).dir = true → Post E (Inode.findInodeId name (mgr.inodeAt σ f))
      [(mgr.inode f).blockId] σ fun r σ' => σ' = σ ∧ P r) :
    Post E (Inode.createInode mgr (mgr.inode f) name type) [] σ fun r σ' =>
      (mgr.inodeAt σ f).dir = true ∧ match r with
        | none => σ' = σ ∧ ∃ id, P (some id)
        | some ino => P none ∧ (nameBytes name).length ≤ 28
          ∧ ∃ g σ₁ v σ₂ d', ino = mgr.inode g ∧ mgr.Born σ g type σ₁
            ∧ mgr.Overwrote σ₁ f ((mgr.inodeAt σ f).size.toNat / 32 * 32) (entryBytes name g) v σ₂ d'
            ∧ σ' = mgr.putInode σ₁ f σ₂ d' ∧ mgr.Provided total σ (blocksFor (mgr.inodeAt σ f)
              (UInt32.ofNat ((mgr.inodeAt σ f).size.toNat / 32 * 32 + 32))) v := by
  unfold Inode.createInode
  rw [Post.bind_iff, readDiskInode_iff, Post.bind_iff, Post.assert_iff]
  refine ⟨?_, fun hdir => hE.dir (by simpa using hdir)⟩
  intro hdir
  apply (hfind hdir).mono
  rintro found σ' ⟨rfl, hP⟩
  cases found with
  | some id =>
      rw [if_pos (by simp), Post.pure_iff]
      exact ⟨hdir, rfl, id, hP⟩
  | none =>
      rw [if_neg (by simp), Post.bind_iff]
      unfold allocInode
      rw [Post.bind_iff]
      apply (Post.of_returns (mgr.inodeBitmap.alloc_spec (by simp))).mono
      intro k σ₁ hk
      cases k with
      | none =>
          rw [Post.bind_iff, Post.unwrap_none]
          exact hE.inode hk.2
      | some g =>
          have hblocks : mgr.inodeBitmap.blocks = ibb := by rw [hl.inodeBitmap]
          have hg := hk.1
          have hgNat : (UInt32.ofNat g).toNat = g := by
            rw [UInt32.toNat_ofNat', Nat.mod_eq_of_lt (by omega)]
          have hborn : mgr.Born σ' g type _ := newInode_born hl hk
          have hne : f ≠ g := by
            rintro rfl
            exact hborn.free hf
          have hi₁ := hi.born hl hborn
          have hf₁ := (hborn.used f).mpr (.inr hf)
          have hE₁ := hE.toEntryFaults.born hborn hf
          have hd₁ := hborn.inode f hf.1
          rw [if_neg hne] at hd₁
          rw [Post.bind_iff, Post.unwrap_some, Post.pure_iff, Post.bind_iff,
            diskInodePos_iff hl (by rwa [hgNat]), hgNat]
          dsimp only
          rw [Post.bind_iff]
          have hnew : ∀ Q : Unit → Store → Prop,
              Q () (mgr.putInode σ₁ g σ₁ (DiskInode.init type)) →
              Post E ((mgr.inode g).modifyDiskInode fun _ =>
                pure ((), DiskInode.init type)) [] σ₁ Q := by
            intro Q hQ
            rw [modifyDiskInode_iff, Post.pure_iff]
            exact hQ
          apply hnew
          rw [Post.bind_iff, modifyDiskInode_iff]
          apply (addEntry_post hl hi₁ hf₁ hE₁ g).mono
          rintro ⟨_, d'⟩ σ₂ ⟨hname, v, hover, hv⟩
          rw [Post.bind_iff, diskInodePos_iff hl (by rwa [hgNat]), hgNat]
          dsimp only
          rw [Post.bind_iff, Post.syncAll_iff, Post.pure_iff]
          rw [hd₁] at hover hv
          exact ⟨hdir, hP, hname, g, _, v, σ₂, d', rfl, hborn, hover, rfl, hv.born hborn⟩

end BlockManager

/-! ## Runs -/

/-- The disk, and the handles that have been given out. -/
structure FsState where
  store : Store
  handles : List Inode

/-- A call and what it returns. -/
inductive FsEvent where
  | create (dir : Inode) (name : String) (type : DiskInodeType) (result : Option Inode)
  | write (file : Inode) (offset : Nat) (buf : List UInt8) (result : Nat)
  | read (file : Inode) (offset len : Nat) (result : List UInt8)
  | clear (file : Inode)

/-- A call on a handle that returns. -/
inductive FsStep (mgr : BlockManager) : FsState → FsEvent → FsState → Prop
  | create {s : FsState} {dir : Inode} {name : String} {type : DiskInodeType} {r : Option Inode}
      {σ : Store} : dir ∈ s.handles →
      (Inode.createInode mgr dir name type).flat [] s.store = .ok (r, σ) →
      FsStep mgr s (.create dir name type r) ⟨σ, r.toList ++ s.handles⟩
  | write {s : FsState} {file : Inode} {offset : Nat} {buf : List UInt8} {r : Nat} {σ : Store} :
      file ∈ s.handles → (Inode.writeAt mgr file offset buf).flat [] s.store = .ok (r, σ) →
      FsStep mgr s (.write file offset buf r) ⟨σ, s.handles⟩
  | read {s : FsState} {file : Inode} {offset len : Nat} {r : List UInt8} {σ : Store} :
      file ∈ s.handles → (file.readAt offset len).flat [] s.store = .ok (r, σ) →
      FsStep mgr s (.read file offset len r) ⟨σ, s.handles⟩
  | clear {s : FsState} {file : Inode} {σ : Store} :
      file ∈ s.handles → (Inode.clear mgr file).flat [] s.store = .ok ((), σ) →
      FsStep mgr s (.clear file) ⟨σ, s.handles⟩

/-- A new file system: the one handle is that of the root directory. -/
def BlockManager.start (mgr : BlockManager) (σ : Store) : FsState := ⟨σ, [mgr.rootInode]⟩

namespace BlockManager

variable {mgr : BlockManager} {total ibb : Nat} {σ σ' : Store} {f : Nat}

/-- Every handle is that of an allocated inode. -/
structure FsOk (mgr : BlockManager) (total ibb : Nat) (s : FsState) : Prop where
  inv : mgr.FsInv total ibb s.store
  handles : ∀ ino ∈ s.handles, ∃ f, mgr.Used s.store f ∧ ino = mgr.inode f

theorem FsInv.created (h : mgr.Created total ibb σ) : mgr.FsInv total ibb σ := by
  have hblocks : mgr.inodeBitmap.blocks = ibb := by rw [h.layout.inodeBitmap]
  have hroot : ∀ f, mgr.Used σ f → f = 0 := by
    rintro f ⟨hf, hbit⟩
    rw [hblocks] at hf
    rw [h.inode f hf] at hbit
    exact of_decide_eq_true hbit
  have hinit : mgr.inodeAt σ 0 = DiskInode.init .dir := by
    have := h.root
    rwa [← h.layout.inodeArea] at this
  have hnil : ∀ f, mgr.Used σ f → mgr.ownedBy σ f = [] := by
    intro f hf
    rw [hroot f hf]
    apply ownedBy_of_empty
    rw [hinit]
    rfl
  refine ⟨h.described, ?_, ⟨?_, ?_, ?_, ?_⟩⟩
  · intro f hf
    rw [hroot f hf, hinit]
    show DiskInode.blockCount 0 ≤ 16539
    decide
  · intro f hf
    rw [hnil f hf]
    exact List.nodup_nil
  · intro f g hf hg hne
    exact absurd ((hroot f hf).trans (hroot g hg).symm) hne
  · intro f hf
    simp [hnil f hf]
  · intro k hk
    rw [h.dataBit hk]
    refine iff_of_false (by simp) ?_
    rintro ⟨f, hf, x, hx, -⟩
    rw [hnil f hf] at hx
    cases hx

theorem FsOk.created (h : mgr.Created total ibb σ) : mgr.FsOk total ibb (mgr.start σ) where
  inv := .created h
  handles ino hino := by
    have hpos := h.pos
    refine ⟨0, ⟨by rw [h.layout.inodeBitmap]; dsimp only; omega, ?_⟩, ?_⟩
    · show mgr.inodeBitmap.bit σ 0 = true
      rw [h.inode 0 (by omega)]
      rfl
    · rw [List.mem_singleton.mp hino]
      rfl

/-- One file changes and no handle is given out. -/
theorem FsOk.changed {s : FsState} (hl : mgr.Layout total ibb) (h : mgr.FsOk total ibb s)
    (hf : mgr.Used s.store f) (hc : mgr.Changed s.store f σ) : mgr.FsOk total ibb ⟨σ, s.handles⟩ where
  inv := h.inv.changed hf hc hl
  handles ino hino := by
    obtain ⟨g, hg, hino⟩ := h.handles ino hino
    exact ⟨g, (hc.used hf hl).mpr hg, hino⟩

theorem FsOk.step {s s' : FsState} {e : FsEvent} (hl : mgr.Layout total ibb)
    (hfit : ibb * 4096 ≤ 2 ^ 32) (h : mgr.FsOk total ibb s) (hs : FsStep mgr s e s') :
    mgr.FsOk total ibb s' := by
  cases hs with
  | @create dir name type r σ hdir hrun =>
      obtain ⟨f, hf, rfl⟩ := h.handles dir hdir
      have hfind := ((Inode.findInodeId_within name (mgr.inodeAt s.store f)).ensures
        [(mgr.inode f).blockId] s.store).mono fun r σ' (heq : σ' = s.store) =>
          (⟨heq, trivial⟩ : σ' = s.store ∧ (fun _ => True) r)
      have hpost := (createInode_post hl hfit h.inv hf (.any mgr total s.store f name)
        fun _ => hfind).ok hrun
      cases r with
      | none =>
          obtain ⟨-, rfl, -⟩ := hpost
          exact h
      | some ino =>
          obtain ⟨-, -, -, g, σ₁, v, σ₂, d', rfl, hborn, hover, rfl, -⟩ := hpost
          have hok : mgr.FsOk total ibb ⟨σ₁, mgr.inode g :: s.handles⟩ := by
            refine ⟨h.inv.born hl hborn, ?_⟩
            intro ino hino
            rcases List.mem_cons.mp hino with rfl | hino
            · exact ⟨g, (hborn.used g).mpr (.inl rfl), rfl⟩
            · obtain ⟨f, hf, rfl⟩ := h.handles ino hino
              exact ⟨f, (hborn.used f).mpr (.inr hf), rfl⟩
          have hf₁ := (hborn.used f).mpr (.inr hf)
          exact hok.changed hl hf₁ (hover.changed hl hok.inv hf₁).1
  | @write file offset buf r σ hfile hrun =>
      obtain ⟨f, hf, rfl⟩ := h.handles file hfile
      obtain ⟨-, -, v, σ₁, d', hover, rfl, -⟩ :=
        (writeAt_post hl h.inv hf (.any mgr total s.store f offset buf)).ok hrun
      exact h.changed hl hf (hover.changed hl h.inv hf).1
  | @read file offset len r σ hfile hrun =>
      have hwithin := Inode.readDiskInode_within file fun d => d.readAt_within offset len
      obtain rfl : σ = s.store := (hwithin.ensures [] s.store).ok hrun
      exact h
  | @clear file σ hfile hrun =>
      obtain ⟨f, hf, rfl⟩ := h.handles file hfile
      obtain ⟨-, σ₁, d', hfreed, hsize, -, rfl⟩ := (clear_ensures hl h.inv hf).ok hrun
      exact h.changed hl hf (cleared_changed hl h.inv hf hfreed hsize).1

theorem FsOk.run {s : FsState} {tr : List FsEvent} (h : mgr.Created total ibb σ)
    (hfit : ibb * 4096 ≤ 2 ^ 32) (hrun : Runs (FsStep mgr) (mgr.start σ) tr s) :
    mgr.FsOk total ibb s := by
  apply hrun.invariant (.created h)
  intro s _ s' hs hstep
  exact hs.step h.layout hfit hstep

end BlockManager

end Nimloth
