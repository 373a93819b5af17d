import Mathlib.Tactic.Common
import Nimloth.Session

/-!
# The file system on the cache

The calls of the file system nest their closures four deep at most, far
less than the cache is large, so what they do on an array of blocks they
do on the cache. Each call that writes ends with `block_cache_sync_all`,
and the others write nothing: after every call no cached block is
modified, and the device holds the contents. A manager opened on the
bare device then finds the same file system.
-/

namespace Nimloth

open BlockProg

/-! ## How deep the calls nest -/

theorem BlockProg.Within.lift {α : Type} {p : BlockProg α} {w : Bool} {d d' : Nat}
    (h : p.Within w d) (hd : d ≤ d') : p.Within true d' :=
  h.mono (fun _ => rfl) hd

namespace Bitmap

theorem allocLoop_within (bm : Bitmap) (n blockId : Nat) :
    (bm.allocLoop n blockId).Within true 1 := by
  induction n generalizing blockId with
  | zero => exact .pure _
  | succ n ih =>
      refine .bind (.modifyBlock ?_) ?_
      · intro b
        split
        · exact .pure _
        · exact .pure _
      · intro pos
        split
        · exact .pure _
        · exact ih _

theorem alloc_within (bm : Bitmap) : bm.alloc.Within true 1 := bm.allocLoop_within _ _

theorem dealloc_within (bm : Bitmap) (k : Nat) : (bm.dealloc k).Within true 1 :=
  .modifyBlock fun _ => .bind .assert fun _ => .pure _

end Bitmap

namespace BlockManager

theorem diskInodePos_within {d : Nat} (mgr : BlockManager) (k : UInt32) :
    (mgr.diskInodePos k).Within true d :=
  .bind .add fun _ => .pure _

theorem allocInode_within (mgr : BlockManager) : mgr.allocInode.Within true 1 :=
  .bind mgr.inodeBitmap.alloc_within fun _ => .bind .unwrap fun _ => .pure _

theorem allocData_within (mgr : BlockManager) : mgr.allocData.Within true 1 :=
  .bind mgr.dataBitmap.alloc_within fun _ => .bind .unwrap fun _ => .bind .add fun _ => .pure _

theorem deallocData_within (mgr : BlockManager) (id : UInt32) :
    (mgr.deallocData id).Within true 1 :=
  .bind (.modifyBlock fun _ => .pure _) fun _ => .bind .sub fun _ => mgr.dataBitmap.dealloc_within _

theorem clearBlocks_within (is : List Nat) : (clearBlocks is).Within true 1 := by
  induction is with
  | nil => exact .pure _
  | cons i is ih => exact .bind (.modifyBlock fun _ => .pure _) fun _ => ih

theorem create_within (total ibb : UInt32) : (create total ibb).Within true 1 := by
  refine .bind .add fun _ => .bind .sub fun _ => .bind .sub fun _ => .bind .add fun _ =>
    .bind .sub fun _ => .bind .add fun _ => .bind .add fun _ => .bind .add fun _ => .bind ?_
      fun _ => .pure _
  refine .bind (clearBlocks_within _) fun _ => .bind (.modifyBlock fun _ => .pure _) fun _ =>
    .bind (allocInode_within _) fun _ => .bind .assert fun _ => .bind (diskInodePos_within _ _) ?_
  intro pos
  exact .bind (.modifyBlock fun _ => .pure _) fun _ => .blockCacheSyncAll

theorem open_within : BlockManager.open.Within false 1 :=
  .readBlock fun _ => .bind .assert fun _ => .bind .add fun _ => .bind .add fun _ =>
    .bind .add fun _ => .bind .add fun _ => .pure _

end BlockManager

namespace DiskInode

theorem next_within {w : Bool} {d : Nat} (v : List UInt32) : (next v).Within w d := by
  cases v with
  | nil => exact .fail _
  | cons x v => exact .pure _

theorem nextIf_within {w : Bool} {d : Nat} {S : Type} (c : Prop) [Decidable c]
    (set : S → UInt32 → S) (s : S) (v : List UInt32) : (nextIf c set s v).Within w d := by
  unfold nextIf
  split
  · exact .bind (next_within v) fun _ => .pure _
  · exact .pure _

theorem fill_within {w : Bool} {d : Nat} {S : Type} (set : S → Nat → UInt32 → S) (bound : Nat)
    (s : S) (current : Nat) (v : List UInt32) : (fill set bound s current v).Within w d := by
  induction v generalizing s current with
  | nil =>
      unfold fill
      split
      · exact .fail _
      · exact .pure _
  | cons x v ih =>
      unfold fill
      split
      · exact ih _ _
      · exact .pure _

theorem fillIndirect2_within (a1 b1 rounds : Nat) (blk : Block) (a b : Nat) (v : List UInt32) :
    (fillIndirect2 a1 b1 rounds blk a b v).Within true 1 := by
  induction rounds generalizing blk a b v with
  | zero =>
      unfold fillIndirect2
      split
      · exact .fail _
      · exact .pure _
  | succ rounds ih =>
      unfold fillIndirect2
      split
      · refine .bind .assert fun _ => .bind (nextIf_within ..) ?_
        intro r
        refine .bind (.modifyBlock fun _ => .bind (next_within _) fun _ => .pure _) ?_
        intro v
        split
        · exact ih ..
        · exact ih ..
      · exact .pure _

theorem fillIndirect3_within (a1 b1 c1 rounds : Nat) (blk : Block) (a b c : Nat)
    (v : List UInt32) : (fillIndirect3 a1 b1 c1 rounds blk a b c v).Within true 2 := by
  induction rounds generalizing blk a b c v with
  | zero =>
      unfold fillIndirect3
      split
      · exact .fail _
      · exact .pure _
  | succ rounds ih =>
      unfold fillIndirect3
      split
      · refine .bind .assert fun _ => .bind (nextIf_within ..) ?_
        intro r
        refine .bind (.modifyBlock fun _ => .bind .assert fun _ => .bind (nextIf_within ..) ?_) ?_
        · intro r
          exact .bind (.modifyBlock fun _ => .bind (next_within _) fun _ => .pure _) fun _ => .pure _
        · intro v
          dsimp only
          split
          · split
            · exact ih ..
            · exact ih ..
          · split
            · exact ih ..
            · exact ih ..
      · exact .pure _

theorem dataBlocksOf_within {w : Bool} {d : Nat} (size : UInt32) :
    (dataBlocksOf size).Within w d :=
  .bind .add fun _ => .pure _

theorem increaseIndirect3_within (d : DiskInode) (current total : Nat) (v : List UInt32) :
    (d.increaseIndirect3 current total v).Within true 3 := by
  unfold increaseIndirect3
  split
  · refine .bind (nextIf_within ..) ?_
    intro r
    exact .bind .sub fun _ => .bind (.modifyBlock fun _ => .bind (fillIndirect3_within ..)
      fun _ => .pure _) fun _ => .pure _
  · exact .pure _

theorem increaseIndirect2_within (d : DiskInode) (current total : Nat) (v : List UInt32) :
    (d.increaseIndirect2 current total v).Within true 3 := by
  unfold increaseIndirect2
  split
  · refine .bind (nextIf_within ..) ?_
    intro r
    refine .bind .sub fun _ => .bind (.modifyBlock ?_) fun _ => increaseIndirect3_within ..
    intro b
    exact .bind ((fillIndirect2_within ..).lift (by decide)) fun _ => .pure _
  · exact .pure _

theorem increaseIndirect1_within (d : DiskInode) (current total : Nat) (v : List UInt32) :
    (d.increaseIndirect1 current total v).Within true 3 := by
  unfold increaseIndirect1
  split
  · refine .bind (nextIf_within ..) ?_
    intro r
    exact .bind .sub fun _ => .bind (.modifyBlock fun _ => .bind (fill_within ..)
      fun _ => .pure _) fun _ => increaseIndirect2_within ..
  · exact .pure _

theorem increaseSize_within (d : DiskInode) (newSize : UInt32) (v : List UInt32) :
    (d.increaseSize newSize v).Within true 3 :=
  .bind (dataBlocksOf_within _) fun _ => .bind (dataBlocksOf_within _) fun _ =>
    .bind (fill_within ..) fun _ => increaseIndirect1_within ..

theorem clearFull_within (l v : List UInt32) : (clearFull l v).Within true 1 := by
  induction l generalizing v with
  | nil => exact .pure _
  | cons x l ih => exact .bind (.modifyBlock fun _ => .pure _) fun _ => ih _

theorem clearSize_within (d : DiskInode) : d.clearSize.Within true 2 := by
  unfold clearSize
  refine .bind (dataBlocksOf_within _) ?_
  intro n
  dsimp only
  split
  · refine .bind (.modifyBlock fun _ => .pure _) ?_
    intro v
    split
    · refine .bind .assert fun _ => .bind (.modifyBlock ?_) fun _ => .pure _
      intro b
      refine .bind (clearFull_within _ _) ?_
      intro v
      split
      · exact .bind (.modifyBlock fun _ => .pure _) fun _ => .pure _
      · exact .pure _
    · exact .pure _
  · exact .pure _

theorem writeLoop_within (d : DiskInode) (buf : List UInt8) (stop start startBlock n : Nat) :
    (d.writeLoop buf stop start startBlock n).Within true 1 := by
  induction hk : stop - start using Nat.strongRecOn generalizing start startBlock n with
  | ind k ih =>
      rw [writeLoop]
      refine .bind ((blockId_within d _).lift (Nat.le_refl 1)) fun _ =>
        .bind (.modifyBlock fun _ => .pure _) ?_
      intro _
      split
      · exact .pure _
      · next hne => exact ih _ (hk ▸ endCurrentBlock_decreases hne) _ _ _ rfl

theorem writeAt_within (d : DiskInode) (offset : Nat) (buf : List UInt8) :
    (d.writeAt offset buf).Within true 1 :=
  .bind .add fun _ => .bind .assert fun _ => writeLoop_within ..

end DiskInode

namespace Inode

theorem modifyDiskInode_within {α : Type} {depth : Nat} {f : DiskInode → BlockProg (α × DiskInode)}
    (ino : Inode) (h : ∀ d, (f d).Within true depth) :
    (ino.modifyDiskInode f).Within true (depth + 1) :=
  .modifyBlock fun _ => .bind .assert fun _ => .bind (h _) fun _ => .pure _

theorem allocBlocks_within (mgr : BlockManager) (n : Nat) : (allocBlocks mgr n).Within true 1 := by
  induction n with
  | zero => exact .pure _
  | succ n ih => exact .bind mgr.allocData_within fun _ => .bind ih fun _ => .pure _

theorem increaseSize_within (mgr : BlockManager) (newSize : UInt32) (d : DiskInode) :
    (increaseSize mgr newSize d).Within true 3 := by
  unfold increaseSize
  split
  · exact .pure _
  · refine .bind ?_ fun _ => .bind ((allocBlocks_within mgr _).lift (by decide)) fun _ =>
      d.increaseSize_within ..
    exact .bind .assert fun _ => .bind (.bind (DiskInode.dataBlocksOf_within _) fun _ => .pure _)
      fun _ => .bind (.bind (DiskInode.dataBlocksOf_within _) fun _ => .pure _) fun _ => .sub

theorem deallocBlocks_within (mgr : BlockManager) (v : List UInt32) :
    (deallocBlocks mgr v).Within true 1 := by
  induction v with
  | nil => exact .pure _
  | cons x v ih => exact .bind (mgr.deallocData_within x) fun _ => ih

theorem addEntry_within (mgr : BlockManager) (name : String) (k : UInt32) (d : DiskInode) :
    (addEntry mgr name k d).Within true 3 := by
  refine .bind (increaseSize_within ..) fun d => .bind (.bind .assert fun _ => .pure _) ?_
  intro e
  exact .bind ((d.writeAt_within _ _).lift (by decide)) fun _ => .pure _

/-- The search of `create_inode`. -/
theorem findEntry_within (ino : Inode) (name : String) :
    (ino.readDiskInode fun d => do
      assert d.dir
      findInodeId name d).Within false 2 :=
  ino.readDiskInode_within fun d => .bind .assert fun _ => findInodeId_within name d

/-- `create_inode` searches the directory and then either returns or ends with
a synchronisation. -/
theorem createInode_parts (mgr : BlockManager) (ino : Inode) (name : String)
    (type : DiskInodeType) : ∃ (p : BlockProg (Option UInt32)) (f : _ → BlockProg (Option Inode)),
      createInode mgr ino name type = p >>= f ∧ p.Within false 2
        ∧ ∀ a, (f a).Within true 4 ∧ ((∃ x, f a = pure x) ∨ (f a).EndsSynced false) := by
  refine ⟨_, _, rfl, findEntry_within ino name, ?_⟩
  intro found
  cases hfound : found.isSome with
  | true =>
      rw [if_pos rfl]
      exact ⟨.pure _, .inl ⟨_, rfl⟩⟩
  | false =>
      rw [if_neg (by simp)]
      refine ⟨?_, .inr (.bind fun k => .bind fun pos => .bind fun _ => .bind fun _ =>
        .bind fun pos => .map _ .sync)⟩
      refine .bind (mgr.allocInode_within.lift (by decide)) fun k =>
        .bind (mgr.diskInodePos_within k) ?_
      intro pos
      refine .bind (modifyDiskInode_within _ fun _ => .pure _) fun _ =>
        .bind (modifyDiskInode_within _ fun d => addEntry_within ..) fun _ =>
          .bind (mgr.diskInodePos_within k) ?_
      intro pos
      exact .bind .blockCacheSyncAll fun _ => .pure _

theorem createInode_within (mgr : BlockManager) (ino : Inode) (name : String)
    (type : DiskInodeType) : (createInode mgr ino name type).Within true 4 := by
  obtain ⟨p, f, heq, hp, hf⟩ := createInode_parts mgr ino name type
  rw [heq]
  exact .bind (hp.lift (by decide)) fun a => (hf a).1

theorem clear_within (mgr : BlockManager) (ino : Inode) : (clear mgr ino).Within true 3 := by
  refine .bind (modifyDiskInode_within _ ?_) fun _ => .blockCacheSyncAll
  intro d
  refine .bind .assert fun _ => .bind d.clearSize_within ?_
  intro r
  exact .bind (.bind (DiskInode.dataBlocksOf_within _) fun _ => .pure _) fun _ =>
    .bind .assert fun _ => .bind ((deallocBlocks_within mgr _).lift (by decide)) fun _ => .pure _

theorem writeAt_within (mgr : BlockManager) (ino : Inode) (offset : Nat) (buf : List UInt8) :
    (writeAt mgr ino offset buf).Within true 4 := by
  refine .bind (modifyDiskInode_within _ ?_) fun _ => .bind .blockCacheSyncAll fun _ => .pure _
  intro d
  refine .bind .assert fun _ => .bind .add fun _ => .bind (increaseSize_within ..) ?_
  intro d
  exact .bind ((d.writeAt_within _ _).lift (by decide)) fun _ => .pure _

theorem readAt_within (ino : Inode) (offset len : Nat) : (ino.readAt offset len).Within false 2 :=
  ino.readDiskInode_within fun d => d.readAt_within offset len

theorem lsLoop_within (d : DiskInode) (is : List Nat) (v : List String) :
    (lsLoop d is v).Within false 1 := by
  induction is generalizing v with
  | nil => exact .pure _
  | cons i is ih =>
      exact .bind (readDirEntry_within d i) fun e => .bind (nameStr_within e) fun _ => ih _

theorem ls_within (ino : Inode) : ino.ls.Within false 2 := by
  refine ino.readDiskInode_within ?_
  intro d
  split
  · exact .pure _
  · exact lsLoop_within ..

theorem findFrom_within (mgr : BlockManager) (names : List String) (ino : Inode) :
    (findFrom mgr names ino).Within false 2 := by
  induction names generalizing ino with
  | nil => exact .pure _
  | cons name names ih =>
      refine .bind (ino.readDiskInode_within ?_) ?_
      · intro d
        split
        · exact .pure _
        · exact findInodeId_within name d
      · intro found
        cases found with
        | none => exact .pure _
        | some k =>
            refine .bind (.bind .add fun _ => .pure _) ?_
            intro pos
            exact ih _

theorem find_within (mgr : BlockManager) (ino : Inode) (path : String) :
    (find mgr ino path).Within false 2 :=
  findFrom_within ..

end Inode

/-! ## The live file system -/

/-- The cache with its device, and the handles that have been given out. -/
structure LiveState where
  cache : CacheSys Unit
  handles : List Inode

/-- A call on a handle, run on the cache. -/
inductive LiveStep (mgr : BlockManager) : LiveState → FsEvent → LiveState → Prop
  | create {s : LiveState} {dir : Inode} {name : String} {type : DiskInodeType} {r : Option Inode}
      {c : CacheSys Unit} : dir ∈ s.handles →
      (Inode.createInode mgr dir name type).run s.cache = .ok (r, c) →
      LiveStep mgr s (.create dir name type r) ⟨c, r.toList ++ s.handles⟩
  | write {s : LiveState} {file : Inode} {offset : Nat} {buf : List UInt8} {r : Nat}
      {c : CacheSys Unit} : file ∈ s.handles →
      (Inode.writeAt mgr file offset buf).run s.cache = .ok (r, c) →
      LiveStep mgr s (.write file offset buf r) ⟨c, s.handles⟩
  | read {s : LiveState} {file : Inode} {offset len : Nat} {r : List UInt8} {c : CacheSys Unit} :
      file ∈ s.handles → (file.readAt offset len).run s.cache = .ok (r, c) →
      LiveStep mgr s (.read file offset len r) ⟨c, s.handles⟩
  | clear {s : LiveState} {file : Inode} {c : CacheSys Unit} :
      file ∈ s.handles → (Inode.clear mgr file).run s.cache = .ok ((), c) →
      LiveStep mgr s (.clear file) ⟨c, s.handles⟩

/-- The cache stands for the disk of `t`, and the device holds it. -/
structure Mirrors (s : LiveState) (t : FsState) : Prop where
  caches : Caches s.cache [] t.store
  clean : Clean s.cache
  handles : s.handles = t.handles

theorem Mirrors.device {s : LiveState} {t : FsState} (h : Mirrors s t) : s.cache.dev () = t.store :=
  h.caches.device h.clean

namespace Inode

variable {mgr : BlockManager} {ino : Inode} {s s' : CacheSys Unit} {σ : Store}

theorem createInode_clean {name : String} {type : DiskInodeType} {r : Option Inode}
    (h : Caches s [] σ) (hc : Clean s) (hrun : (createInode mgr ino name type).run s = .ok (r, s')) :
    Clean s' := by
  obtain ⟨p, f, heq, hp, hf⟩ := createInode_parts mgr ino name type
  rw [heq, run_bind] at hrun
  cases hsearch : p.run s with
  | error e =>
      rw [hsearch] at hrun
      cases hrun
  | ok q =>
      rw [hsearch] at hrun
      obtain ⟨found, s₁⟩ := q
      obtain ⟨σ₁, -, h₁, -⟩ := flat_of_run (hp.lift (Nat.le_refl 2)) (by decide) h hsearch
      have hc₁ := run_clean hp (by decide) h hc hsearch
      obtain ⟨hwithin, ⟨x, hx⟩ | hend⟩ := hf found
      · dsimp only at hrun
        rw [hx] at hrun
        cases hrun
        exact hc₁
      · exact hend.clean hwithin (by decide) h₁ (by simp) hrun

theorem writeAt_clean {offset : Nat} {buf : List UInt8} {r : Nat} (h : Caches s [] σ)
    (hrun : (writeAt mgr ino offset buf).run s = .ok (r, s')) : Clean s' := by
  have hend : (writeAt mgr ino offset buf).EndsSynced false := .bind fun _ => .map _ .sync
  exact hend.clean (writeAt_within ..) (by decide) h (by simp) hrun

theorem clear_clean (h : Caches s [] σ) (hrun : (clear mgr ino).run s = .ok ((), s')) :
    Clean s' := by
  have hend : (clear mgr ino).EndsSynced false := .bind fun _ => .sync
  exact hend.clean (clear_within ..) (by decide) h (by simp) hrun

end Inode

theorem BlockManager.create_clean {total ibb : UInt32} {mgr : BlockManager} {s s' : CacheSys Unit}
    {σ : Store} (h : Caches s [] σ) (hrun : (create total ibb).run s = .ok (mgr, s')) :
    Clean s' := by
  have hend : (create total ibb).EndsSynced false :=
    .bind fun _ => .bind fun _ => .bind fun _ => .bind fun _ => .bind fun _ => .bind fun _ =>
      .bind fun _ => .bind fun _ => .map _ (.bind fun _ => .bind fun _ => .bind fun _ =>
        .bind fun _ => .bind fun _ => .bind fun _ => .sync)
  exact hend.clean (create_within total ibb) (by decide) h (by simp) hrun

/-- A step on the cache is a step on the disk, which the device then holds. -/
theorem Mirrors.step {mgr : BlockManager} {s s' : LiveState} {t : FsState} {e : FsEvent}
    (h : Mirrors s t) (hs : LiveStep mgr s e s') : ∃ t', Mirrors s' t' ∧ FsStep mgr t e t' := by
  obtain ⟨hcaches, hclean, hhandles⟩ := h
  cases hs with
  | @create dir name type r c hdir hrun =>
      obtain ⟨σ, hflat, hc, -⟩ := flat_of_run (Inode.createInode_within ..) (by decide) hcaches hrun
      refine ⟨⟨σ, r.toList ++ t.handles⟩, ⟨hc, Inode.createInode_clean hcaches hclean hrun, ?_⟩,
        .create (hhandles ▸ hdir) hflat⟩
      rw [hhandles]
  | @write file offset buf r c hfile hrun =>
      obtain ⟨σ, hflat, hc, -⟩ := flat_of_run (Inode.writeAt_within ..) (by decide) hcaches hrun
      exact ⟨⟨σ, t.handles⟩, ⟨hc, Inode.writeAt_clean hcaches hrun, hhandles⟩,
        .write (hhandles ▸ hfile) hflat⟩
  | @read file offset len r c hfile hrun =>
      have hwithin := Inode.readAt_within file offset len
      obtain ⟨σ, hflat, hc, -⟩ := flat_of_run (hwithin.lift (Nat.le_refl 2)) (by decide) hcaches hrun
      exact ⟨⟨σ, t.handles⟩, ⟨hc, run_clean hwithin (by decide) hcaches hclean hrun, hhandles⟩,
        .read (hhandles ▸ hfile) hflat⟩
  | @clear file c hfile hrun =>
      obtain ⟨σ, hflat, hc, -⟩ := flat_of_run (Inode.clear_within ..) (by decide) hcaches hrun
      exact ⟨⟨σ, t.handles⟩, ⟨hc, Inode.clear_clean hcaches hrun, hhandles⟩,
        .clear (hhandles ▸ hfile) hflat⟩

open BlockManager

/-- The live file system as it is created. -/
theorem Mirrors.start {total ibb : UInt32} {mgr : BlockManager} {dev : Nat → Block}
    {c : CacheSys Unit} (hfit : ibb.toNat * 4096 ≤ 2 ^ 32)
    (hcreate : (create total ibb).run (CacheSys.init fun _ => dev) = .ok (mgr, c)) :
    ∃ σ, (create total ibb).flat [] dev = .ok (mgr, σ) ∧ mgr.Created total.toNat ibb.toNat σ
      ∧ Mirrors ⟨c, [mgr.rootInode]⟩ (mgr.start σ) := by
  have hinit : Caches (CacheSys.init fun _ => dev) [] dev := Shadows.init _
  obtain ⟨σ, hflat, hc, -⟩ :=
    flat_of_run (create_within total ibb) (by decide) hinit hcreate
  exact ⟨σ, hflat, created_of_create (by omega) hflat, hc, create_clean hinit hcreate, rfl⟩

theorem Mirrors.of_create {total ibb : UInt32} {mgr : BlockManager} {dev σ : Store}
    (hcreate : (create total ibb).flat [] dev = .ok (mgr, σ)) :
    ∃ c, (create total ibb).run (CacheSys.init fun _ => dev) = .ok (mgr, c)
      ∧ Mirrors ⟨c, [mgr.rootInode]⟩ (mgr.start σ) := by
  have hinit : Caches (CacheSys.init fun _ => dev) [] dev := Shadows.init _
  obtain ⟨c, hrun, hc⟩ := run_of_flat (create_within total ibb) (by decide) hinit hcreate
  exact ⟨c, hrun, hc, create_clean hinit hrun, rfl⟩

/-- A step on the disk is one of the live file system. -/
theorem Mirrors.lift {mgr : BlockManager} {s : LiveState} {t t' : FsState} {e : FsEvent}
    (h : Mirrors s t) (hs : FsStep mgr t e t') : ∃ s', Mirrors s' t' ∧ LiveStep mgr s e s' := by
  obtain ⟨hcaches, hclean, hhandles⟩ := h
  cases hs with
  | @create dir name type r σ hdir hflat =>
      obtain ⟨c, hrun, hc⟩ := run_of_flat (Inode.createInode_within ..) (by decide) hcaches hflat
      refine ⟨⟨c, r.toList ++ s.handles⟩, ⟨hc, Inode.createInode_clean hcaches hclean hrun, ?_⟩,
        .create (hhandles ▸ hdir) hrun⟩
      rw [hhandles]
  | @write file offset buf r σ hfile hflat =>
      obtain ⟨c, hrun, hc⟩ := run_of_flat (Inode.writeAt_within ..) (by decide) hcaches hflat
      exact ⟨⟨c, s.handles⟩, ⟨hc, Inode.writeAt_clean hcaches hrun, hhandles⟩,
        .write (hhandles ▸ hfile) hrun⟩
  | @read file offset len r σ hfile hflat =>
      have hwithin := Inode.readAt_within file offset len
      obtain ⟨c, hrun, hc⟩ := run_of_flat (hwithin.lift (Nat.le_refl 2)) (by decide) hcaches hflat
      exact ⟨⟨c, s.handles⟩, ⟨hc, run_clean hwithin (by decide) hcaches hclean hrun, hhandles⟩,
        .read (hhandles ▸ hfile) hrun⟩
  | @clear file σ hfile hflat =>
      obtain ⟨c, hrun, hc⟩ := run_of_flat (Inode.clear_within ..) (by decide) hcaches hflat
      exact ⟨⟨c, s.handles⟩, ⟨hc, Inode.clear_clean hcaches hrun, hhandles⟩,
        .clear (hhandles ▸ hfile) hrun⟩

/-- A run of the live file system is one on the disk. -/
theorem Mirrors.run {total ibb : UInt32} {mgr : BlockManager} {dev : Nat → Block}
    {c : CacheSys Unit} {tr : List FsEvent} {s : LiveState} (hfit : ibb.toNat * 4096 ≤ 2 ^ 32)
    (hcreate : (create total ibb).run (CacheSys.init fun _ => dev) = .ok (mgr, c))
    (hrun : Runs (LiveStep mgr) ⟨c, [mgr.rootInode]⟩ tr s) :
    ∃ t, Mirrors s t ∧ mgr.Layout total.toNat ibb.toNat ∧ mgr.FsOk total.toNat ibb.toNat t := by
  obtain ⟨σ, -, hcreated, hstart⟩ := Mirrors.start hfit hcreate
  have hstep : ∀ s e s' t, Mirrors s t → LiveStep mgr s e s' →
      ∃ t', Mirrors s' t' ∧ FsStep mgr t e t' :=
    fun _ _ _ _ h => h.step
  obtain ⟨t, hm, habs⟩ := Runs.simulation hstep hrun hstart
  exact ⟨t, hm, hcreated.layout, .run hcreated hfit habs⟩

/-- A program that writes nothing returns the same on any two caches of one
disk. -/
theorem run_agree {α : Type} {p : BlockProg α} {s s' : CacheSys Unit} {σ : Store}
    (hp : p.Within false 2) (h : Caches s [] σ) (h' : Caches s' [] σ) :
    (p.run s).map Prod.fst = (p.run s').map Prod.fst := by
  have hs := run_simulates p (hp.lift (Nat.le_refl 2)) (by decide) h
  have hs' := run_simulates p (hp.lift (Nat.le_refl 2)) (by decide) h'
  cases hflat : p.flat [] σ with
  | error e =>
      rw [hflat] at hs hs'
      rw [hs, hs']
  | ok r =>
      rw [hflat] at hs hs'
      obtain ⟨s₁, hs₁, -⟩ := hs
      obtain ⟨s₂, hs₂, -⟩ := hs'
      rw [hs₁, hs₂]
      rfl

/-- The cache of one device shows an array of blocks. Its queue never holds
more than 16 blocks or a block twice, a lookup with fewer than 16 handles in
use succeeds, and synchronising leaves the array on the device. So in every
state that the calls of the live file system reach, a manager opened on the
bare device is the live one, and lists, finds and reads the same. -/
theorem cache_transparent_durable :
    (∀ (dev : Unit → Nat → Block) (tr : List (CacheEvent Unit)) (s : CacheSys Unit),
      Runs CacheStep (CacheSys.init dev) tr s →
        s.queue.length ≤ BLOCK_CACHE_SIZE ∧ (s.queue.map Prod.fst).Nodup
          ∧ (s.handles.length < BLOCK_CACHE_SIZE → ∀ blockId,
            ∃ a s', s.blockCache blockId () = some (a, s'))
          ∧ ∃ t, Runs FlatStep ⟨dev, []⟩ tr t
            ∧ ∀ d blockId, s.syncAll.dev d blockId = t.content d blockId)
    ∧ ∀ (total ibb : UInt32) (mgr : BlockManager) (dev : Nat → Block) (c : CacheSys Unit)
        (tr : List FsEvent) (s : LiveState), ibb.toNat * 4096 ≤ 2 ^ 32 →
        (create total ibb).run (CacheSys.init fun _ => dev) = .ok (mgr, c) →
        Runs (LiveStep mgr) ⟨c, [mgr.rootInode]⟩ tr s →
          ∃ s', BlockManager.open.run (CacheSys.init s.cache.dev) = .ok (mgr, s')
            ∧ (∀ ino : Inode, (ino.ls.run s').map Prod.fst = (ino.ls.run s.cache).map Prod.fst)
            ∧ (∀ (ino : Inode) (path : String), ((ino.find mgr path).run s').map Prod.fst
              = ((ino.find mgr path).run s.cache).map Prod.fst)
            ∧ ∀ (ino : Inode) (offset len : Nat), ((ino.readAt offset len).run s').map Prod.fst
              = ((ino.readAt offset len).run s.cache).map Prod.fst := by
  refine ⟨?_, ?_⟩
  · intro dev tr s hrun
    have hstep : ∀ (s : CacheSys Unit) e s' t, Shadows s t → CacheStep s e s' →
        ∃ t', Shadows s' t' ∧ FlatStep t e t' := by
      intro s e s' t h hs
      exact h.step hs fun _ _ _ _ _ _ _ _ => rfl
    obtain ⟨t, hst, hflat⟩ := Runs.simulation hstep hrun (Shadows.init dev)
    refine ⟨hst.len, hst.ids, ?_, t, hflat, hst.syncAll.2⟩
    intro hfew blockId
    obtain ⟨⟨a, s'⟩, hs'⟩ := Option.isSome_iff_exists.mp (hst.lookup_isSome hfew blockId ())
    exact ⟨a, s', hs'⟩
  · intro total ibb mgr dev c tr s hfit hcreate hrun
    obtain ⟨t, hm, hl, hok⟩ := Mirrors.run hfit hcreate hrun
    have hinit : Caches (CacheSys.init s.cache.dev) [] t.store := by
      have hshadow := Shadows.init s.cache.dev
      have hdev : s.cache.dev = fun _ => t.store := by
        funext u
        exact hm.device
      rw [hdev] at hshadow ⊢
      exact hshadow
    have hflat : BlockManager.open.flat [] t.store = .ok (mgr, t.store) :=
      open_spec hl hok.inv.described (by simp)
    obtain ⟨s', hs', hc'⟩ := run_of_flat (open_within.lift (Nat.le_refl 1)) (by decide) hinit hflat
    refine ⟨s', hs', ?_, ?_, ?_⟩
    · intro ino
      exact run_agree ino.ls_within hc' hm.caches
    · intro ino path
      exact run_agree (Inode.find_within mgr ino path) hc' hm.caches
    · intro ino offset len
      exact run_agree (ino.readAt_within offset len) hc' hm.caches

/-- A step of the array with fewer than 16 handles. -/
def FewStep (t : FlatSys Unit) (e : CacheEvent Unit) (t' : FlatSys Unit) : Prop :=
  FlatStep t e t' ∧ t.handles.length < BLOCK_CACHE_SIZE

/-- With fewer than 16 handles the cache can do whatever the array does. -/
theorem Shadows.liftRun {dev : Unit → Nat → Block} {tr : List (CacheEvent Unit)} {t : FlatSys Unit}
    (h : Runs FewStep ⟨dev, []⟩ tr t) : ∃ s, Runs CacheStep (CacheSys.init dev) tr s := by
  have hstep : ∀ (t : FlatSys Unit) e t' s, Shadows s t → FewStep t e t' →
      ∃ s', Shadows s' t' ∧ CacheStep s e s' :=
    fun _ _ _ _ h hs => h.lift hs.1 hs.2 fun _ _ _ _ _ _ _ _ => rfl
  obtain ⟨s, -, hrun⟩ := Runs.simulation (R := fun t s => Shadows s t) hstep h (.init dev)
  exact ⟨s, hrun⟩

/-- Looking up blocks and dropping the handles again leaves the array as it is. -/
theorem touch_run (t : FlatSys Unit) (hfew : t.handles.length + 1 < BLOCK_CACHE_SIZE)
    (ids : List Nat) :
    Runs FewStep t (ids.flatMap fun id => [.lookup id (), .drop 0]) t := by
  induction ids with
  | nil => exact .nil t
  | cons id ids ih =>
      have hlook : FewStep t (.lookup id ()) { t with handles := ((), id) :: t.handles } :=
        ⟨.lookup .., by omega⟩
      have hdrop : FewStep { t with handles := ((), id) :: t.handles } (.drop 0) t :=
        ⟨FlatStep.drop (Nat.succ_pos _), hfew⟩
      rw [List.flatMap_cons]
      exact .append (.cons hlook (.single hdrop)) ih

/-- A run on the disk is one of the live file system. -/
theorem Mirrors.liftRun {mgr : BlockManager} {s : LiveState} {t t' : FsState} {tr : List FsEvent}
    (h : Mirrors s t) (hrun : Runs (FsStep mgr) t tr t') :
    ∃ s', Mirrors s' t' ∧ Runs (LiveStep mgr) s tr s' := by
  have hstep : ∀ (t : FsState) e t' s, Mirrors s t → FsStep mgr t e t' →
      ∃ s', Mirrors s' t' ∧ LiveStep mgr s e s' :=
    fun _ _ _ _ h hs => h.lift hs
  exact Runs.simulation (R := fun t s => Mirrors s t) hstep hrun h

/-- A block is changed and dropped, 16 others are looked up, and it is read again. Two
files of a live file system are listed, found and read on the device alone. -/
theorem cache_transparent_durable_5123 :
    (∃ s, Runs CacheStep (CacheSys.init fun _ _ => Block.zero)
        ([.lookup 0 (), .modify 0 fun _ => Vector.replicate BLOCK_SZ 1, .drop 0]
          ++ ([1, 2, 3, 4, 5, 6, 7, 8, 9, 10, 11, 12, 13, 14, 15, 16].flatMap fun id =>
            [.lookup id (), .drop 0])
          ++ [.lookup 0 (), .read 0 (Vector.replicate BLOCK_SZ 1)]) s
      ∧ s.queue.length ≤ BLOCK_CACHE_SIZE ∧ (s.queue.map Prod.fst).Nodup
      ∧ s.syncAll.dev () 0 = Vector.replicate BLOCK_SZ 1 ∧ s.syncAll.dev () 1 = Block.zero)
    ∧ ∃ mgr c s s' a b, (create 5123 1).run (CacheSys.init fun _ _ => Block.zero) = .ok (mgr, c)
      ∧ Runs (LiveStep mgr) ⟨c, [mgr.rootInode]⟩ (twoFiles mgr a b) s
      ∧ BlockManager.open.run (CacheSys.init s.cache.dev) = .ok (mgr, s')
      ∧ (mgr.rootInode.ls.run s').map Prod.fst = .ok ["a", "b"]
      ∧ ((mgr.rootInode.find mgr "b").run s').map Prod.fst = .ok (some b)
      ∧ ((a.readAt 0 8).run s').map Prod.fst = .ok []
      ∧ ((b.readAt 598 4).run s').map Prod.fst = .ok [0, 0, 9, 0] := by
  refine ⟨?_, ?_⟩
  · let ones : Block := Vector.replicate BLOCK_SZ 1
    let t₀ : FlatSys Unit := ⟨fun _ _ => Block.zero, []⟩
    let t₁ : FlatSys Unit := { t₀ with handles := [((), 0)] }
    let t₂ : FlatSys Unit := { t₁ with content := CacheSys.writeBlock t₀.content () 0 ones }
    let t₃ : FlatSys Unit := { t₂ with handles := [] }
    have h₁ : FewStep t₀ (.lookup 0 ()) t₁ := ⟨.lookup .., by decide⟩
    have h₂ : FewStep t₁ (.modify 0 fun _ => ones) t₂ := ⟨.modify _ rfl, by decide⟩
    have h₃ : FewStep t₂ (.drop 0) t₃ := ⟨FlatStep.drop (Nat.succ_pos _), by decide⟩
    have h₄ : FewStep t₃ (.lookup 0 ()) t₂ := ⟨.lookup .., by decide⟩
    have h₅ : FewStep t₂ (.read 0 ones) t₂ := ⟨FlatStep.read (t := t₂) (i := 0) rfl, by decide⟩
    have hfew := ((Runs.cons h₁ <| Runs.cons h₂ <| Runs.single h₃).append
      (touch_run t₃ (by decide) [1, 2, 3, 4, 5, 6, 7, 8, 9, 10, 11, 12, 13, 14, 15, 16])).append
        (Runs.cons h₄ <| Runs.single h₅)
    obtain ⟨s, hrun⟩ := Shadows.liftRun hfew
    obtain ⟨hlen, hids, -, t, hflat, hdev⟩ := cache_transparent_durable.1 _ _ s hrun
    obtain rfl : t = t₂ := Runs.deterministic (fun _ _ _ _ a b => a.deterministic b rfl) hflat
      (hfew.mono fun _ _ _ h => h.1)
    exact ⟨s, hrun, hlen, hids, hdev () 0, hdev () 1⟩
  · obtain ⟨mgr, σ, s, m, a, b, hflat, hl, h, ⟨names, hm, hes⟩, ha, bytes, hb, -, hat, -⟩ :=
      two_files_5123
    obtain ⟨c, hcreate, hstart⟩ := Mirrors.of_create hflat
    obtain ⟨live, hlive, hrun⟩ := hstart.liftRun (h.run.mono fun _ _ _ hstep => hstep.step)
    obtain ⟨s', hopen, hls, hfind, hread⟩ :=
      cache_transparent_durable.2 5123 1 mgr _ c _ live (by decide) hcreate hrun
    -- What the calls return on the disk is what they return on the live cache.
    have hvalue : ∀ {α : Type} {p : BlockProg α} {r : α}, p.Within false 2 →
        p.flat [] s.store = .ok (r, s.store) → (p.run live.cache).map Prod.fst = .ok r := by
      intro α p r hp hp'
      obtain ⟨c', hc', -⟩ := run_of_flat (hp.lift (Nat.le_refl 2)) (by decide) hlive.caches hp'
      rw [hc']
      rfl
    have hat₀ : ∀ {f : Nat} {a : AbsFile} (offset len : Nat), m f = some a →
        offset + len < 2 ^ 64 → ((mgr.inode f).readAt offset len).flat [] s.store
          = .ok ((a.bytes.drop offset).take len, s.store) := by
      intro f a offset len hm hlen
      obtain ⟨r, σ', hrun, rfl, rfl⟩ := (h.mounted.readAt hl hm hlen).exists_ok
      exact hrun
    have hroot : mgr.rootInode.ls.flat [] s.store = .ok (["a", "b"], s.store) :=
      h.mounted.ls_plain hl hm hes
    have hname : (mgr.rootInode.find mgr "b").flat [] s.store
        = .ok (some (mgr.inode b), s.store) := by
      have hfound := h.mounted.find_plain hl hm hes (by decide : '/' ∉ "b".toList)
      rw [hes.resolve hm (e := ("b", b)) (by simp)] at hfound
      exact hfound
    have hempty := hat₀ 0 8 ha (by decide)
    have hgap := hat₀ 598 4 hb (by decide)
    rw [hat] at hgap
    refine ⟨mgr, c, live, s', mgr.inode a, mgr.inode b, hcreate, hrun, hopen, ?_, ?_, ?_, ?_⟩
    · exact (hls _).trans (hvalue (Inode.ls_within _) hroot)
    · exact (hfind _ _).trans (hvalue (Inode.find_within ..) hname)
    · exact (hread _ 0 8).trans (hvalue (Inode.readAt_within ..) hempty)
    · exact (hread _ 598 4).trans (hvalue (Inode.readAt_within ..) hgap)

end Nimloth
