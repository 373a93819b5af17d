import Mathlib.Tactic.Common
import Nimloth.Durability
import Nimloth.SplitIO

/-!
# Locked blocks

A call looks a block up, locks it, and runs a closure that may look up
others. `Safe` follows a call through the cache, lookup by lookup: none
meets a full cache or an entry that is locked already, and no block is
synchronised while one is locked. On the array of blocks these are errors
that do not come up (`safe_of_flat`), and what a file, the bitmaps and the
inodes lock is never the same block. Nor does any arithmetic overflow: a
build without the checks goes on from there with another number, and then
this may be any block.
-/

namespace Nimloth

open BlockProg BlockManager

namespace BlockProg

variable {α : Type}

/-- Every lookup finds an entry that is not locked, and leaves room in the cache;
`sync_all` finds none locked. A call that ends early panics in every build. -/
def Safe : {α : Type} → BlockProg α → CacheSys Unit → Prop
  | _, .ret _, _ => True
  | _, .fail e, _ => e = .panic
  | _, .read id body k, s => ∃ a s₁ c, s.blockCache id () = some (a, s₁) ∧ a ∉ s.handles
      ∧ s₁.handles.length < BLOCK_CACHE_SIZE ∧ s₁.cells a = some c ∧ (body c.cache).Safe s₁
      ∧ ∀ x s₂, (body c.cache).run s₁ = .ok (x, s₂) → (k x).Safe (s₂.release 0)
  | _, .modify id body k, s => ∃ a s₁ c, s.blockCache id () = some (a, s₁) ∧ a ∉ s.handles
      ∧ s₁.handles.length < BLOCK_CACHE_SIZE ∧ s₁.cells a = some c ∧ (body c.cache).Safe s₁
      ∧ ∀ x b s₂, (body c.cache).run s₁ = .ok ((x, b), s₂) → (k x).Safe ((s₂.store a b).release 0)
  | _, .syncAll k, s => s.handles = [] ∧ k.Safe s.syncAll

/-- A block that is not locked yet is opened, and no handle is already on its cell. -/
theorem safe_open {s : CacheSys Unit} {held : List Nat} {σ : Store} {d id : Nat}
    (h : Caches s held σ) (hpos : 0 < d) (hd : held.length + d < BLOCK_CACHE_SIZE)
    (hid : id ∉ held) :
    ∃ a s₁ c, s.blockCache id () = some (a, s₁) ∧ a ∉ s.handles
      ∧ s₁.handles.length < BLOCK_CACHE_SIZE ∧ s₁.cells a = some c ∧ c.cache = σ id
      ∧ Caches s₁ (id :: held) σ ∧ s₁.handles = a :: s.handles
      ∧ (id :: held).length + (d - 1) < BLOCK_CACHE_SIZE := by
  obtain ⟨a, s₁, c, hs, h₁, hcons, hiff, hc, hcache⟩ := h.lookup (by omega) id
  have hlen : s₁.handles.length = (id :: held).length := by simpa using h₁.handles.length_eq
  have hd₁ : (id :: held).length + (d - 1) < BLOCK_CACHE_SIZE := by
    rw [List.length_cons]
    omega
  exact ⟨a, s₁, c, hs, mt hiff.mp hid, by omega, hc, hcache, h₁, hcons, hd₁⟩

/-- A call that at most panics on the array is safe on the cache. -/
theorem safe_of_flat (p : BlockProg α) {d : Nat} {s : CacheSys Unit} {held : List Nat} {σ : Store}
    (hp : p.Within true d) (hd : held.length + d < BLOCK_CACHE_SIZE) (h : Caches s held σ)
    (hflat : ∀ e, p.flat held σ = .error e → e = .panic) : p.Safe s := by
  induction p generalizing d s held σ with
  | ret a => trivial
  | fail e => exact hflat e rfl
  | read id body k ihb ihk =>
      obtain ⟨hpos, hb, hk⟩ := Within.read_iff.mp hp
      have hid : id ∉ held := by
        intro hid
        rw [flat, if_pos hid] at hflat
        cases hflat .deadlock rfl
      rw [flat, if_neg hid] at hflat
      obtain ⟨a, s₁, c, hs, ha, hroom, hc, hcache, h₁, -, hd₁⟩ := safe_open h hpos hd hid
      refine ⟨a, s₁, c, hs, ha, hroom, hc, ?_, ?_⟩
      · rw [hcache]
        refine ihb _ (hb _) hd₁ h₁ fun e he => hflat e ?_
        rw [he]
      · intro x s₂ hrun
        rw [hcache] at hrun
        obtain ⟨σ', hbody, h₂, -⟩ := flat_of_run (hb _) (Nat.le_of_lt hd₁) h₁ hrun
        rw [hbody] at hflat
        exact ihk x (hk x) hd h₂.release hflat
  | modify id body k ihb ihk =>
      obtain ⟨-, hpos, hb, hk⟩ := Within.modify_iff.mp hp
      have hid : id ∉ held := by
        intro hid
        rw [flat, if_pos hid] at hflat
        cases hflat .deadlock rfl
      rw [flat, if_neg hid] at hflat
      obtain ⟨a, s₁, c, hs, ha, hroom, hc, hcache, h₁, hcons, hd₁⟩ := safe_open h hpos hd hid
      refine ⟨a, s₁, c, hs, ha, hroom, hc, ?_, ?_⟩
      · rw [hcache]
        refine ihb _ (hb _) hd₁ h₁ fun e he => hflat e ?_
        rw [he]
      · intro x b s₂ hrun
        rw [hcache] at hrun
        obtain ⟨σ', hbody, h₂, hh⟩ := flat_of_run (hb _) (Nat.le_of_lt hd₁) h₁ hrun
        rw [hbody] at hflat
        have hfirst : s₂.handles[0]? = some a := by rw [hh, hcons]; rfl
        exact ihk x (hk x) hd (h₂.store hfirst).release hflat
  | syncAll k ih =>
      have hlen : s.handles.length = held.length := by simpa using h.handles.length_eq
      have hheld : held = [] := by
        by_contra hne
        rw [flat, if_neg hne] at hflat
        cases hflat .deadlock rfl
      subst hheld
      rw [flat, if_pos rfl] at hflat
      exact ⟨List.eq_nil_of_length_eq_zero hlen,
        ih (Within.syncAll_iff.mp hp).2 hd (Shadows.syncAll h).1 hflat⟩

/-- A safe call does not wait for itself. -/
theorem Safe.not_deadlock {p : BlockProg α} {s : CacheSys Unit} (h : p.Safe s) :
    p.run s ≠ .error .deadlock := by
  induction p generalizing s with
  | ret a =>
      rw [run]
      intro heq
      cases heq
  | fail e =>
      rw [run]
      intro heq
      cases heq
      cases h
  | read id body k ihb ihk =>
      obtain ⟨a, s₁, c, hs, ha, -, hc, hbody, hk⟩ := h
      rw [run, hs]
      dsimp only
      rw [if_neg ha, hc]
      dsimp only
      cases hrun : (body c.cache).run s₁ with
      | error e =>
          have hne := ihb _ hbody
          rw [hrun] at hne
          intro heq
          cases heq
          exact hne rfl
      | ok r => exact ihk _ (hk _ _ hrun)
  | modify id body k ihb ihk =>
      obtain ⟨a, s₁, c, hs, ha, -, hc, hbody, hk⟩ := h
      rw [run, hs]
      dsimp only
      rw [if_neg ha, hc]
      dsimp only
      cases hrun : (body c.cache).run s₁ with
      | error e =>
          have hne := ihb _ hbody
          rw [hrun] at hne
          intro heq
          cases heq
          exact hne rfl
      | ok r => exact ihk _ (hk _ _ _ hrun)
  | syncAll k ih =>
      obtain ⟨hnil, hk⟩ := h
      rw [run, if_pos hnil]
      exact ih hk

end BlockProg

/-! ## A read that wraps around -/

/-- `DiskInode::read_at` in a build without overflow checks. -/
def DiskInode.wrappingReadAt (d : DiskInode) (offset len : Nat) : BlockProg (List UInt8) :=
  let stop := min ((offset + len) % 2 ^ 64) d.size.toNat
  if offset ≥ stop then pure [] else d.readLoop stop offset (offset / BLOCK_SZ) []

/-- `Inode::read_at` in such a build. -/
def Inode.wrappingReadAt (ino : Inode) (offset len : Nat) : BlockProg (List UInt8) :=
  ino.readDiskInode fun d => d.wrappingReadAt offset len

/-- A read whose end wraps around does what an empty one does. -/
theorem Inode.exists_readAt (ino : Inode) {offset len : Nat} (hoffset : offset < 2 ^ 64)
    (hlen : len < 2 ^ 64) :
    ∃ len', offset + len' < 2 ^ 64 ∧ ino.wrappingReadAt offset len = ino.readAt offset len' := by
  have hchecked : ∀ (d : DiskInode) (len' : Nat), offset + len' < 2 ^ 64 →
      d.readAt offset len' = if offset ≥ min (offset + len') d.size.toNat then pure []
        else d.readLoop (min (offset + len') d.size.toNat) offset (offset / BLOCK_SZ) [] := by
    intro d len' hfit
    unfold DiskInode.readAt
    rw [BlockProg.add, if_pos hfit]
    rfl
  by_cases hfit : offset + len < 2 ^ 64
  · refine ⟨len, hfit, congrArg ino.readDiskInode (funext fun d => ?_)⟩
    rw [hchecked d len hfit, DiskInode.wrappingReadAt, Nat.mod_eq_of_lt hfit]
  · refine ⟨0, hoffset, congrArg ino.readDiskInode (funext fun d => ?_)⟩
    rw [hchecked d 0 hoffset, DiskInode.wrappingReadAt]
    rw [if_pos (by omega), if_pos (by omega)]

namespace BlockManager

variable {mgr : BlockManager} {total ibb : Nat} {P : Inode → String → Prop} {σ : Store} {m : AbsFs}
  {f : Nat}

/-- The disk has what file `f` takes to be `newSize` large, unless every id of the data bitmap
fits in `u32`. -/
def Supplied (mgr : BlockManager) (total : Nat) (σ : Store) (f newSize : Nat) : Prop :=
  ¬ mgr.IdsFit → blocksFor (mgr.inodeAt σ f) (UInt32.ofNat newSize) ≤ mgr.room total σ

/-! ## On the array -/

section Calls

variable (h : mgr.Mounted total ibb P σ m) (hl : mgr.Layout total ibb) (hf : mgr.Used σ f)

include h hl hf

theorem Mounted.find_unlocked (path : String) {e : FsErr}
    (herr : (Inode.find mgr (mgr.inode f) path).flat [] σ = .error e) : e = .panic := by
  have hpost : Post (· = .panic) (Inode.findFrom mgr (components path) (mgr.inode f)) [] σ _ :=
    findFrom_post hl h.inv h.holds h.dirs.linked (h.holds.used_iff.mp hf) _
      fun _ _ _ _ _ _ _ _ _ => rfl
  exact hpost.error herr

theorem Mounted.ls_unlocked {e : FsErr} (herr : (mgr.inode f).ls.flat [] σ = .error e) :
    e = .panic := by
  obtain ⟨⟨type, bytes⟩, hm⟩ := Option.isSome_iff_exists.mp (h.holds.used_iff.mp hf)
  have htype := (h.size hm).2
  have hpost : Post (· = .panic) (mgr.inode f).ls [] σ fun _ _ => True := by
    cases type with
    | file =>
        unfold Inode.ls
        rw [readDiskInode_iff, if_pos (file_iff.mpr htype), Post.pure_iff]
        trivial
    | dir =>
        apply (ls_post (E := (· = .panic)) hl h.inv h.holds hf hm fun _ _ _ => rfl).mono
        intro _ _ _
        trivial
  exact hpost.error herr

theorem Mounted.createInode_unlocked (hfit : ibb * 4096 ≤ 2 ^ 32)
    (hids : mgr.Supplied total σ f ((mgr.inodeAt σ f).size.toNat / 32 * 32 + 32)) (name : String)
    (type : DiskInodeType) {e : FsErr}
    (herr : (Inode.createInode mgr (mgr.inode f) name type).flat [] σ = .error e) :
    e = .panic := by
  obtain ⟨a, hm⟩ := Option.isSome_iff_exists.mp (h.holds.used_iff.mp hf)
  have hbound := h.inv.bound f hf
  unfold DiskInode.blockCount at hbound
  have hE : CreateFaults (· = .panic) mgr total σ f name :=
    ⟨⟨fun _ => rfl, fun _ => ⟨rfl, fun hover => absurd hover (by omega)⟩,
      fun hfull => ⟨rfl, fun hnot => absurd (hids hnot) (Nat.not_le.mpr hfull)⟩⟩,
      fun _ => rfl, fun _ => rfl⟩
  have hfind : (mgr.inodeAt σ f).dir = true → Post (· = .panic)
      (Inode.findInodeId name (mgr.inodeAt σ f)) [(mgr.inode f).blockId] σ _ :=
    fun hdir => findInodeId_post (E := (· = .panic)) (h.inv.bound f hf) (ownedBy_not_held hl h.inv hf)
      (h.holds.stores hm).2.1 (fun _ _ _ => rfl) hdir name
  have hpost : Post (· = .panic) (Inode.createInode mgr (mgr.inode f) name type) [] σ _ :=
    createInode_post (P := (· = lookup a.bytes name)) hl hfit h.inv hf hE hfind
  exact hpost.error herr

theorem Mounted.readAt_unlocked {offset len : Nat} (hlen : offset + len < 2 ^ 64) {e : FsErr}
    (herr : ((mgr.inode f).readAt offset len).flat [] σ = .error e) : e = .panic := by
  obtain ⟨a, hm⟩ := Option.isSome_iff_exists.mp (h.holds.used_iff.mp hf)
  exact ((h.readAt hl hm hlen).error herr).elim

theorem Mounted.writeAt_unlocked {offset : Nat} {buf : List UInt8} (hne : buf ≠ [])
    (hlen : offset + buf.length + 512 < 2 ^ 32) (hids : mgr.Supplied total σ f (offset + buf.length))
    {e : FsErr} (herr : (Inode.writeAt mgr (mgr.inode f) offset buf).flat [] σ = .error e) :
    e = .panic := by
  have hE : WriteFaults (· = .panic) mgr total σ f offset buf := by
    refine ⟨fun _ => rfl, fun _ => ⟨rfl, fun hover => absurd hover (by omega)⟩,
      fun hfull => ⟨rfl, fun hnot => absurd (hids hnot) (Nat.not_le.mpr hfull)⟩, ?_⟩
    rintro ⟨hnil | hlarge, -⟩
    · exact absurd hnil hne
    · omega
  exact (writeAt_post hl h.inv hf hE).error herr

theorem Mounted.clear_unlocked {e : FsErr}
    (herr : (Inode.clear mgr (mgr.inode f)).flat [] σ = .error e) : e = .panic := by
  by_cases hfile : (mgr.inodeAt σ f).file = true
  · exact ((clear_returns hl h.inv hf hfile).error herr).elim
  · have hpost : Post (· = .panic) (Inode.clear mgr (mgr.inode f)) [] σ fun _ _ => False := by
      unfold Inode.clear
      rw [Post.bind_iff, modifyDiskInode_iff, Post.bind_iff, Post.assert_iff]
      exact ⟨fun h => absurd h hfile, fun _ => rfl⟩
    exact hpost.error herr

end Calls

end BlockManager

/-! ## Sizes that wrap around -/

namespace DiskInode

variable {d : DiskInode} {held : List Nat} {σ : Store}

theorem fill_indirect2 (bound current : Nat) (v : List UInt32) :
    Ensures (fill setDirect bound d current v) held σ fun r _ => r.1.indirect2 = d.indirect2 := by
  induction v generalizing d current with
  | nil =>
      rw [fill]
      split
      · exact Post.fail_iff.mpr trivial
      · exact Post.pure_iff.mpr rfl
  | cons x v ih =>
      rw [fill]
      split
      · exact ih _
      · exact Post.pure_iff.mpr rfl

theorem nextIf_indirect2 {c : Prop} [Decidable c] (v : List UInt32) :
    Ensures (nextIf c (fun d x => { d with indirect1 := x }) d v) held σ
      fun r _ => r.1.indirect2 = d.indirect2 := by
  unfold nextIf
  split
  · rw [Ensures, Post.bind_iff]
    apply (Post.ensures_trivial ..).mono
    intro _ _ _
    exact Post.pure_iff.mpr rfl
  · exact Post.pure_iff.mpr rfl

/-- A file of at most 155 blocks gets no double indirect block. -/
theorem increaseSize_indirect2 {newSize : UInt32} {v : List UInt32}
    (hn : blockCount newSize ≤ 155) :
    Ensures (d.increaseSize newSize v) held σ fun d' _ => d'.indirect2 = d.indirect2 := by
  have hfit : newSize.toNat + 512 < 2 ^ 32 := size_fits (by omega)
  unfold increaseSize
  rw [Ensures, Post.bind_iff]
  apply (Post.ensures_trivial ..).mono
  intro current σ₁ _
  dsimp only
  unfold dataBlocks
  rw [Post.bind_iff, dataBlocksOf_spec hfit, Post.bind_iff]
  apply (fill_indirect2 ..).mono
  rintro ⟨d₁, current₁, v₁⟩ σ₂ hd₁
  dsimp only at hd₁ ⊢
  unfold increaseIndirect1
  split
  · rw [Post.bind_iff]
    apply (nextIf_indirect2 _).mono
    rintro ⟨d₂, v₂⟩ σ₃ hd₂
    dsimp only at hd₂ ⊢
    rw [Post.bind_iff]
    apply (Post.ensures_trivial ..).mono
    intro current₂ σ₄ _
    rw [Post.bind_iff]
    apply (Post.ensures_trivial ..).mono
    rintro ⟨current₃, v₃⟩ σ₅ -
    dsimp only
    unfold increaseIndirect2
    have hshort : ¬ blockCount newSize - INODE_DIRECT_COUNT > INODE_INDIRECT1_COUNT := by
      show ¬ blockCount newSize - 27 > 128
      omega
    rw [if_neg hshort, Post.pure_iff]
    exact hd₂.trans hd₁
  · exact Post.pure_iff.mpr hd₁

end DiskInode

namespace BlockManager

variable {mgr : BlockManager} {total ibb : Nat} {σ : Store} {f : Nat} {held : List Nat} {d : DiskInode}

theorem increaseSize_indirect2 {newSize : UInt32} (hn : DiskInode.blockCount newSize ≤ 155) :
    Ensures (Inode.increaseSize mgr newSize d) held σ fun d' _ => d'.indirect2 = d.indirect2 := by
  unfold Inode.increaseSize
  split
  · exact Post.pure_iff.mpr rfl
  · rw [Ensures, Post.bind_iff]
    apply (Post.ensures_trivial ..).mono
    intro n σ₁ _
    rw [Post.bind_iff]
    apply (Post.ensures_trivial ..).mono
    intro v σ₂ _
    exact DiskInode.increaseSize_indirect2 hn

theorem writeAt_indirect2 {offset : Nat} {buf : List UInt8}
    (hn : DiskInode.blockCount (UInt32.ofNat (offset + buf.length)) ≤ 155) :
    Ensures (Inode.writeAt mgr (mgr.inode f) offset buf) [] σ fun _ σ' =>
      (mgr.inodeAt σ' f).indirect2 = (mgr.inodeAt σ f).indirect2 := by
  unfold Inode.writeAt
  rw [Ensures, Post.bind_iff, modifyDiskInode_iff, Post.bind_iff]
  apply (Post.ensures_trivial ..).mono
  intro _ σ₁ _
  rw [Post.bind_iff, Post.add_iff]
  refine ⟨?_, fun _ => trivial⟩
  intro _
  rw [Post.bind_iff]
  apply (increaseSize_indirect2 hn).mono
  intro d' σ₂ hd'
  rw [Post.bind_iff]
  apply (Post.ensures_trivial ..).mono
  intro size σ₃ _
  rw [Post.pure_iff, Post.bind_iff, Post.syncAll_iff, Post.pure_iff]
  unfold inodeAt
  rw [Function.update_self, DiskInode.load_store _ _ (mgr.inode_fits f)]
  exact hd'

/-- Past the last block of the index block there is no other: `block_id` takes the
super block for the double indirect block. -/
theorem writeLoop_deadlock {d : DiskInode} {buf : List UInt8} {stop start n : Nat} {b : Nat}
    (hind : d.indirect2 = 0) (hzero : (0 : Nat) ∉ held) (hsuper : (σ 0).entry 0 = MFS_MAGIC)
    (hmagic : MFS_MAGIC.toNat ∉ held) (hentry : ((σ MFS_MAGIC.toNat).entry 0).toNat = b)
    (hb : b ∈ held) :
    Post (· = .deadlock) (d.writeLoop buf stop start 155 n) held σ fun _ _ => False := by
  rw [DiskInode.writeLoop, Post.bind_iff]
  unfold DiskInode.blockId
  have hid : (UInt32.ofNat 155).toNat = 155 := rfl
  dsimp only
  rw [hid, if_neg (by decide), if_neg (by decide), if_pos (by decide), Post.bind_iff, hind]
  rw [show (0 : UInt32).toNat = 0 from rfl, Post.read_iff hzero, Post.pure_iff]
  rw [show (155 - INDIRECT1_BOUND) / INODE_INDIRECT1_COUNT = 0 from rfl,
    show (155 - INDIRECT1_BOUND) % INODE_INDIRECT1_COUNT = 0 from rfl, hsuper, Post.read_iff hmagic,
    Post.pure_iff, hentry, Post.bind_iff]
  exact Post.modify_of (fun _ => rfl) fun hnot => absurd hb hnot

/-- A write of `2 ^ 32` bytes to the end of a file of 155 blocks. The new size
wraps around to the old one, so the file does not grow, and the loop looks for a
block it does not have. -/
theorem writeAt_deadlock (hl : mgr.Layout total ibb) (hi : mgr.FsInv total ibb σ)
    (hf : mgr.Used σ f) (hfile : (mgr.inodeAt σ f).file = true)
    (hsize : (mgr.inodeAt σ f).size = 79360) (hind : (mgr.inodeAt σ f).indirect2 = 0)
    (harea : mgr.dataAreaStartBlock + mgr.dataBitmap.blocks * 4096 ≤ MFS_MAGIC.toNat)
    (hentry : ((σ MFS_MAGIC.toNat).entry 0).toNat = (mgr.inode f).blockId)
    {buf : List UInt8} (hlen : buf.length = 2 ^ 32) :
    (Inode.writeAt mgr (mgr.inode f) 79360 buf).flat [] σ = .error .deadlock := by
  have hda := hl.dataArea
  have hstart := hl.blocks.2.1
  have hlt := (hl.inode_lt hf.1).1
  have hfileOk := hi.fileOk hf
  have hnew : UInt32.ofNat (79360 + buf.length) = (mgr.inodeAt σ f).size := by
    rw [hsize, hlen]
    rfl
  have hnone : blocksFor (mgr.inodeAt σ f) (mgr.inodeAt σ f).size = 0 := Nat.sub_self _
  have hgrow : Returns (Inode.increaseSize mgr (mgr.inodeAt σ f).size (mgr.inodeAt σ f))
      [(mgr.inode f).blockId] σ _ :=
    increaseSize_spec hl hfileOk (fun hroom => absurd hroom (by rw [hnone]; exact Nat.not_lt_zero _))
      (fun hbig => absurd hfileOk.bound (Nat.not_le.mpr hbig)) (inode_held hl hf)
  have hkept : Ensures (Inode.increaseSize mgr (mgr.inodeAt σ f).size (mgr.inodeAt σ f))
      [(mgr.inode f).blockId] σ _ :=
    increaseSize_indirect2 (by rw [hsize]; decide)
  have hdead : Post (· = .deadlock) (Inode.writeAt mgr (mgr.inode f) 79360 buf) [] σ
      fun _ _ => False := by
    unfold Inode.writeAt
    rw [Post.bind_iff, modifyDiskInode_iff, Post.bind_iff, Post.assert_iff]
    refine ⟨?_, fun hdir => absurd hfile hdir⟩
    intro _
    rw [Post.bind_iff, Post.add_iff]
    refine ⟨?_, fun hover => absurd hover (by omega)⟩
    intro _
    rw [Post.bind_iff, hnew]
    apply (Post.of_returns (hgrow.and hkept)).mono
    rintro d' σ' ⟨⟨hmax, v, hext, -, hv⟩, hind'⟩
    obtain rfl : v = [] := List.eq_nil_of_length_eq_zero (hv.length.trans hnone)
    have hsize' : d'.size.toNat = 79360 := by
      rw [hmax, hsize]
      rfl
    have hsuper : (σ' 0).entry 0 = MFS_MAGIC := by
      rw [hext.low 0 (by omega)]
      exact congrArg SuperBlock.magic hi.described
    have hsame : σ' MFS_MAGIC.toNat = σ MFS_MAGIC.toNat := by
      refine hext.frame _ (by omega) ?_
      intro x hx
      rw [List.append_nil] at hx
      have hin := (hfileOk.area x hx).2
      omega
    rw [Post.bind_iff]
    unfold DiskInode.writeAt
    rw [Post.bind_iff, Post.add_iff]
    refine ⟨?_, fun hover => absurd hover (by omega)⟩
    intro _
    dsimp only
    rw [Post.bind_iff, Post.assert_iff]
    refine ⟨?_, fun hnot => absurd hsize' (by omega)⟩
    intro _
    refine (writeLoop_deadlock (hind'.trans hind) ?_ hsuper ?_ (by rw [hsame]; exact hentry)
      (List.mem_singleton_self _)).mono fun _ _ h => h.elim
    · rw [List.mem_singleton]
      omega
    · rw [List.mem_singleton]
      have hlt' := (hl.inode_lt hf.1).2
      omega
  obtain ⟨e, hrun, rfl⟩ := hdead.exists_error
  exact hrun

end BlockManager

/-! ## On the cache -/

/-- A call of the live file system after which every block in use lies on the
disk. A write ends in `u32`. -/
structure LiveDiskStep (mgr : BlockManager) (total : Nat) (s : LiveState) (e : FsEvent)
    (s' : LiveState) : Prop where
  step : LiveStep mgr s e s'
  range : e.InRange
  disk : mgr.OnDisk total (s'.cache.dev ())

/-- A run of the live file system ends on a mounted disk. -/
theorem Mirrors.mounted {total ibb : UInt32} {mgr : BlockManager} {dev : Nat → Block}
    {c : CacheSys Unit} {tr : List FsEvent} {s : LiveState} (hfit : ibb.toNat * 4096 ≤ 2 ^ 32)
    (hcreate : (create total ibb).run (CacheSys.init fun _ => dev) = .ok (mgr, c))
    (hrun : Runs (LiveDiskStep mgr total.toNat) ⟨c, [mgr.rootInode]⟩ tr s) :
    ∃ t m, Mirrors s t ∧ mgr.Layout total.toNat ibb.toNat
      ∧ mgr.Mounted total.toNat ibb.toNat (fun _ _ => True) t.store m := by
  obtain ⟨σ, -, hc, hstart⟩ := Mirrors.start hfit hcreate
  have hl := hc.layout
  obtain ⟨t, hm, -, m, h⟩ := hrun.invariant
    (I := fun s => ∃ t, Mirrors s t ∧ mgr.FsOk total.toNat ibb.toNat t
      ∧ ∃ m, mgr.Mounted total.toNat ibb.toNat (fun _ _ => True) t.store m)
    ⟨_, hstart, .created hc, _, .created hc⟩ (by
      rintro s e s' ⟨t, hm, hok, m, h⟩ ⟨hs, hrange, hdisk⟩
      obtain ⟨t', hm', hstep⟩ := hm.step hs
      rw [hm'.device] at hdisk
      have hnames : e.Names fun _ _ => True := by
        cases e <;> trivial
      obtain ⟨hok', m', h', -⟩ := h.step hl hfit hok hstep hrange hdisk hnames
      exact ⟨t', hm', hok', m', h'⟩)
  exact ⟨t, m, hm, hl, h⟩

theorem Mirrors.lift_run {mgr : BlockManager} {total : Nat} {s : LiveState} {t t' : FsState}
    {tr : List FsEvent} (h : Mirrors s t) (hrun : Runs (RangeStep mgr total) t tr t') :
    ∃ s', Mirrors s' t' ∧ Runs (LiveDiskStep mgr total) s tr s' := by
  have hstep : ∀ t e t' s, Mirrors s t → RangeStep mgr total t e t' →
      ∃ s', Mirrors s' t' ∧ LiveDiskStep mgr total s e s' := by
    intro t e t' s hm hs
    obtain ⟨s', hm', hlive⟩ := hm.lift hs.step
    refine ⟨s', hm', hlive, hs.range, ?_⟩
    rw [hm'.device]
    exact hs.disk
  exact Runs.simulation (R := fun t s => Mirrors s t) hstep hrun h

/-- In every state that calls reach, no call locks an entry that it has locked
already, fills the cache with locked entries, or synchronises a locked one. A
write must have something to write, and the blocks up to its end are counted in
`u32`. -/
theorem no_self_deadlock {total ibb : UInt32} {mgr : BlockManager} {dev : Nat → Block}
    {c : CacheSys Unit} {tr : List FsEvent} {s : LiveState} (hfit : ibb.toNat * 4096 ≤ 2 ^ 32)
    (hcreate : (create total ibb).run (CacheSys.init fun _ => dev) = .ok (mgr, c))
    (hrun : Runs (LiveDiskStep mgr total.toNat) ⟨c, [mgr.rootInode]⟩ tr s) {f : Nat}
    (hf : mgr.Used (s.cache.dev ()) f) :
    (∀ path, (Inode.find mgr (mgr.inode f) path).Safe s.cache)
      ∧ (mgr.inode f).ls.Safe s.cache
      ∧ (mgr.Supplied total.toNat (s.cache.dev ()) f
          ((mgr.inodeAt (s.cache.dev ()) f).size.toNat / 32 * 32 + 32) →
        ∀ name type, (Inode.createInode mgr (mgr.inode f) name type).Safe s.cache)
      ∧ (∀ offset len, offset + len < 2 ^ 64 → ((mgr.inode f).readAt offset len).Safe s.cache)
      ∧ (∀ offset len, offset < 2 ^ 64 → len < 2 ^ 64 →
        ((mgr.inode f).wrappingReadAt offset len).Safe s.cache)
      ∧ (∀ offset buf, buf ≠ [] → offset + buf.length + 512 < 2 ^ 32 →
        mgr.Supplied total.toNat (s.cache.dev ()) f (offset + buf.length) →
          (Inode.writeAt mgr (mgr.inode f) offset buf).Safe s.cache)
      ∧ (Inode.clear mgr (mgr.inode f)).Safe s.cache := by
  obtain ⟨t, m, hm, hl, h⟩ := Mirrors.mounted hfit hcreate hrun
  rw [hm.device] at hf ⊢
  have hread : ∀ offset len, offset + len < 2 ^ 64 →
      ((mgr.inode f).readAt offset len).Safe s.cache := by
    intro offset len hlen
    exact safe_of_flat _ (((mgr.inode f).readAt_within offset len).lift (Nat.le_refl 2)) (by decide)
      hm.caches fun e => h.readAt_unlocked hl hf hlen
  refine ⟨?_, ?_, ?_, hread, ?_, ?_, ?_⟩
  · intro path
    exact safe_of_flat _ ((Inode.find_within mgr _ path).lift (Nat.le_refl 2)) (by decide) hm.caches
      fun e => h.find_unlocked hl hf path
  · exact safe_of_flat _ ((mgr.inode f).ls_within.lift (Nat.le_refl 2)) (by decide) hm.caches
      fun e => h.ls_unlocked hl hf
  · intro hids name type
    exact safe_of_flat _ (Inode.createInode_within mgr _ name type) (by decide) hm.caches
      fun e => h.createInode_unlocked hl hf hfit hids name type
  · intro offset len hoffset hlen
    obtain ⟨len', hlen', heq⟩ := (mgr.inode f).exists_readAt hoffset hlen
    rw [heq]
    exact hread offset len' hlen'
  · intro offset buf hne hlen hids
    exact safe_of_flat _ (Inode.writeAt_within mgr _ offset buf) (by decide) hm.caches
      fun e => h.writeAt_unlocked hl hf hne hlen hids
  · exact safe_of_flat _ (Inode.clear_within mgr _) (by decide) hm.caches
      fun e => h.clear_unlocked hl hf

/-- Nothing is locked twice when the second of two files grows far beyond its end, or is
emptied, or a third one is made. -/
theorem no_self_deadlock_5123 :
    ∃ mgr c s a b, (create 5123 1).run (CacheSys.init fun _ _ => Block.zero) = .ok (mgr, c)
      ∧ Runs (LiveDiskStep mgr 5123) ⟨c, [mgr.rootInode]⟩
        (twoFiles mgr (mgr.inode a) (mgr.inode b)) s
      ∧ (Inode.createInode mgr (mgr.inode 0) "log" .file).Safe s.cache
      ∧ (Inode.writeAt mgr (mgr.inode b) 100000 (List.replicate 70000 7)).Safe s.cache
      ∧ (Inode.clear mgr (mgr.inode b)).Safe s.cache := by
  obtain ⟨mgr, σ, s, m, a, b, hflat, hl, h, ⟨names, hm, -⟩, -, bytes, hb, -⟩ := two_files_5123
  obtain ⟨c, hcreate, hstart⟩ := Mirrors.of_create hflat
  obtain ⟨live, hlive, hrun⟩ := hstart.lift_run (h.run.mono fun _ _ _ hs => hs.inRange)
  have hids : mgr.IdsFit := by
    unfold IdsFit
    rw [hl.dataArea, hl.dataBitmap]
    decide
  have hused : ∀ {f : Nat} {x : AbsFile}, m f = some x → mgr.Used (live.cache.dev ()) f := by
    intro f x hx
    rw [hlive.device]
    exact h.mounted.used hx
  obtain ⟨-, -, hcreate₀, -⟩ := no_self_deadlock (by decide) hcreate hrun (hused hm)
  obtain ⟨-, -, -, -, -, hwrite, hclear⟩ := no_self_deadlock (by decide) hcreate hrun (hused hb)
  refine ⟨mgr, c, live, a, b, hcreate, hrun, ?_, ?_, hclear⟩
  · exact hcreate₀ (fun hnot => absurd hids hnot) "log" .file
  · refine hwrite _ _ ?_ ?_ fun hnot => absurd hids hnot
    · exact List.ne_nil_of_length_pos (by rw [List.length_replicate]; decide)
    · rw [List.length_replicate]
      decide

/-- On a device whose block 998244353 begins with 2, behind a file system of 5123
blocks: the file of inode 1, in block 2, has got 155 blocks, and then as much as
`u32` can count is written to its end. -/
theorem wrapped_write_deadlocks :
    ∃ mgr c s tr, (create 5123 1).run (CacheSys.init fun _ _ => Block.zero.setEntry 0 2) = .ok (mgr, c)
      ∧ Runs (LiveDiskStep mgr 5123) ⟨c, [mgr.rootInode]⟩ tr s ∧ mgr.Used (s.cache.dev ()) 1
      ∧ (Inode.writeAt mgr (mgr.inode 1) 79360 (List.replicate (2 ^ 32) 0)).run s.cache
        = .error .deadlock
      ∧ ¬ (Inode.writeAt mgr (mgr.inode 1) 79360 (List.replicate (2 ^ 32) 0)).Safe s.cache := by
  obtain ⟨mgr, σ, t, tr, hcreate, hrun, hg, ⟨m, h, hm⟩, hroom, hinit, hframe⟩ :=
    log_file_5123 fun _ => Block.zero.setEntry 0 2
  have hl : mgr.Layout 5123 1 := (created_of_create (by decide) hcreate).layout
  obtain ⟨buf, hlen⟩ : ∃ buf : List UInt8, buf.length = 79360 :=
    ⟨List.replicate 79360 0, List.length_replicate⟩
  have hne : buf ≠ [] := by
    rintro rfl
    cases hlen
  have hone : blocksFor (mgr.inodeAt t.store 1) (UInt32.ofNat (0 + buf.length))
      ≤ mgr.room 5123 t.store := by
    refine Nat.le_trans ?_ hroom
    rw [hlen, hinit]
    decide
  have hE : WriteFaults (fun _ => False) mgr 5123 t.store 1 0 buf :=
    h.writeFaults hm (fun hat => hne hat.1) (by rw [hlen]; decide) hone
  have hshort : 0 + buf.length < 2 ^ 32 := by omega
  obtain ⟨_, σ', hwrite, rfl, h', -⟩ := Returns.exists_ok (h.writeAt hl hm hshort hE hone)
  have hf := h.used hm
  have hstep : RangeStep mgr 5123 t _ ⟨σ', t.handles⟩ := ⟨.write hg hwrite, hshort, h'.disk⟩
  have hm' := Function.update_self (1 : Nat) (some (AbsFile.mk .file (overwrite [] 0 buf))) m
  have hsize' : (mgr.inodeAt σ' 1).size = 79360 := by
    refine UInt32.toNat_inj.mp ((h'.size hm').1.trans ?_)
    rw [overwrite_length, hlen]
    rfl
  have hind : (mgr.inodeAt σ' 1).indirect2 = 0 := by
    refine ((writeAt_indirect2 ?_).ok hwrite).trans ?_
    · rw [hlen]
      decide
    · rw [hinit]
      rfl
  have hblocks : mgr.dataBitmap.blocks = 1 := by rw [hl.dataBitmap]
  have harea : mgr.dataAreaStartBlock = 1027 := by rw [hl.dataArea, hblocks]
  have hbitmap : mgr.dataBitmap.startBlockId = 1026 := by rw [hl.dataBitmap]
  have hM : MFS_MAGIC.toNat = 998244353 := rfl
  have hmagic : σ' MFS_MAGIC.toNat = Block.zero.setEntry 0 2 := by
    obtain ⟨-, -, v, σ₁, d', hover, rfl, -⟩ :=
      (writeAt_post hl h.inv hf (.any mgr 5123 t.store 1 0 _)).ok hwrite
    have hlow := (hl.inode_lt hf.1).2
    rw [putInode_of_ne _ (by omega), hover.extended.frame _ (by omega), hframe _ (by decide)]
    intro x hx
    rcases List.mem_append.mp hx with hx | hx
    · have hin := ((h.inv.fileOk hf).area x hx).2
      omega
    · have hin := (hover.extended.area x hx).2
      omega
  have hblock : (mgr.inode 1).blockId = 2 := by
    show mgr.inodeAreaStartBlock + 1 / 4 = 2
    rw [hl.inodeArea]
  have hdead : (Inode.writeAt mgr (mgr.inode 1) 79360 (List.replicate (2 ^ 32) 0)).flat [] σ'
      = .error .deadlock :=
    writeAt_deadlock hl h'.inv (h'.used hm') (file_iff.mpr (h'.size hm').2) hsize' hind
      (by rw [harea, hblocks]; decide)
      (by rw [hmagic, hblock, Block.entry_setEntry _ _ (by decide) (by decide)]; rfl)
      List.length_replicate
  obtain ⟨c, hlive, hstart⟩ := Mirrors.of_create hcreate
  obtain ⟨s, hs, hrun'⟩ :=
    hstart.lift_run ((hrun.mono fun _ _ _ hs => hs.inRange).append (.single hstep))
  have hsim := run_of_flat_error
    (Inode.writeAt_within mgr (mgr.inode 1) 79360 (List.replicate (2 ^ 32) 0)) (by decide) hs.caches
    hdead
  refine ⟨mgr, c, s, _, hlive, hrun', ?_, hsim, fun hsafe => hsafe.not_deadlock hsim⟩
  rw [hs.device]
  exact h'.used hm'

end Nimloth
