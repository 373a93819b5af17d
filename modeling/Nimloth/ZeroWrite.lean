import Mathlib.Tactic.Common
import Nimloth.SplitIO

/-!
# Writes of no bytes

The loop of `write_at` opens a block before it sees that there is nothing
to write. With the offset inside a block of the file that is one of its
own; at the end of the last block the file has none, and whatever the inode
has as the next block id is opened.

`accesses` are the blocks that a program locks. A program that returns
although some blocks are locked already does not access these
(`flat_avoids`), so running it with any other block locked shows that it
keeps to its own.
-/

namespace Nimloth

namespace BlockProg

variable {α : Type}

/-- The ids of the blocks that are locked, in order. What `sync_all` writes back
is not among them. -/
def accesses : {α : Type} → BlockProg α → List Nat → Store → List Nat
  | _, .ret _, _, _ => []
  | _, .fail _, _, _ => []
  | _, .read id body k, held, σ =>
      id :: if id ∈ held then [] else (body (σ id)).accesses (id :: held) σ ++
        match (body (σ id)).flat (id :: held) σ with
        | .error _ => []
        | .ok (x, σ) => (k x).accesses held σ
  | _, .modify id body k, held, σ =>
      id :: if id ∈ held then [] else (body (σ id)).accesses (id :: held) σ ++
        match (body (σ id)).flat (id :: held) σ with
        | .error _ => []
        | .ok ((x, b), σ) => (k x).accesses held (Function.update σ id b)
  | _, .syncAll k, held, σ => if held = [] then k.accesses held σ else []

/-- A block that is opened, what its body accesses and what comes after are avoided together. -/
theorem avoids_cons {held body rest : List Nat} {id : Nat} (hid : id ∉ held)
    (hbody : ∀ x ∈ id :: held, x ∉ body) (hrest : ∀ x ∈ held, x ∉ rest) :
    ∀ x ∈ held, x ∉ id :: (body ++ rest) := by
  intro x hx hmem
  rcases List.mem_cons.mp hmem with rfl | hmem
  · exact hid hx
  · rcases List.mem_append.mp hmem with hmem | hmem
    · exact hbody x (List.mem_cons_of_mem _ hx) hmem
    · exact hrest x hx hmem

/-- A program that returns with more blocks locked returns as well with fewer,
and accesses none of those. -/
theorem flat_avoids {p : BlockProg α} {held held' : List Nat} {σ : Store} {r : α × Store}
    (hsub : ∀ x ∈ held, x ∈ held') (h : p.flat held' σ = .ok r) :
    p.flat held σ = .ok r ∧ ∀ x ∈ held', x ∉ p.accesses held σ := by
  induction p generalizing held held' σ with
  | ret a => exact ⟨h, fun _ _ => List.not_mem_nil⟩
  | fail e => cases h
  | read id body k ihb ihk =>
      rw [flat] at h
      split at h
      · cases h
      · next hid =>
          have hid' : id ∉ held := fun hmem => hid (hsub id hmem)
          have hsub' : id :: held ⊆ id :: held' := List.cons_subset_cons id hsub
          split at h
          · cases h
          · next hbody =>
              obtain ⟨hflat, hacc⟩ := ihb _ hsub' hbody
              obtain ⟨hflat', hacc'⟩ := ihk _ hsub h
              rw [flat, accesses, if_neg hid', if_neg hid', hflat]
              exact ⟨hflat', avoids_cons hid hacc hacc'⟩
  | modify id body k ihb ihk =>
      rw [flat] at h
      split at h
      · cases h
      · next hid =>
          have hid' : id ∉ held := fun hmem => hid (hsub id hmem)
          have hsub' : id :: held ⊆ id :: held' := List.cons_subset_cons id hsub
          split at h
          · cases h
          · next hbody =>
              obtain ⟨hflat, hacc⟩ := ihb _ hsub' hbody
              obtain ⟨hflat', hacc'⟩ := ihk _ hsub h
              rw [flat, accesses, if_neg hid', if_neg hid', hflat]
              exact ⟨hflat', avoids_cons hid hacc hacc'⟩
  | syncAll k ih =>
      rw [flat] at h
      split at h
      · next hnil =>
          subst hnil
          obtain rfl : held = [] := List.eq_nil_iff_forall_not_mem.mpr fun x hx => by
            cases hsub x hx
          rw [flat, if_pos rfl]
          exact ⟨(ih hsub h).1, fun x hx => absurd hx List.not_mem_nil⟩
      · cases h

/-- The blocks of a sequence: those of its parts, the second from where the first
one leaves. -/
theorem accesses_bind {β : Type} (p : BlockProg α) (f : α → BlockProg β) (held : List Nat)
    (σ : Store) : (p >>= f).accesses held σ = p.accesses held σ ++ match p.flat held σ with
      | .error _ => []
      | .ok (a, σ) => (f a).accesses held σ := by
  show (p.bind f).accesses held σ = _
  induction p generalizing held σ with
  | ret a => rfl
  | fail e => rfl
  | read id body k _ ih =>
      rw [BlockProg.bind, accesses, accesses, flat]
      by_cases hid : id ∈ held
      · rw [if_pos hid, if_pos hid, if_pos hid]
        rfl
      · rw [if_neg hid, if_neg hid, if_neg hid, List.cons_append, List.append_assoc]
        cases (body (σ id)).flat (id :: held) σ with
        | error e => simp
        | ok r => simp only [ih]
  | modify id body k _ ih =>
      rw [BlockProg.bind, accesses, accesses, flat]
      by_cases hid : id ∈ held
      · rw [if_pos hid, if_pos hid, if_pos hid]
        rfl
      · rw [if_neg hid, if_neg hid, if_neg hid, List.cons_append, List.append_assoc]
        cases (body (σ id)).flat (id :: held) σ with
        | error e => simp
        | ok r => simp only [ih]
  | syncAll k ih =>
      rw [BlockProg.bind, accesses, accesses, flat]
      by_cases hheld : held = []
      · rw [if_pos hheld, if_pos hheld, if_pos hheld]
        exact ih _ _ _
      · rw [if_neg hheld, if_neg hheld, if_neg hheld]
        rfl

theorem mem_accesses_bind {β : Type} {p : BlockProg α} {f : α → BlockProg β} {held : List Nat}
    {σ : Store} {b : Nat} : b ∈ (p >>= f).accesses held σ ↔ b ∈ p.accesses held σ
      ∨ ∃ a σ', p.flat held σ = .ok (a, σ') ∧ b ∈ (f a).accesses held σ' := by
  rw [accesses_bind, List.mem_append]
  refine or_congr_right ?_
  cases p.flat held σ with
  | error e => simp
  | ok r =>
      constructor
      · intro hb
        exact ⟨r.1, r.2, rfl, hb⟩
      · rintro ⟨a, σ', heq, hb⟩
        cases heq
        exact hb

theorem assert_bind {c : Prop} [Decidable c] (hc : c) (k : Unit → BlockProg α) :
    (assert c >>= k) = k () := by
  rw [assert, if_pos hc]
  rfl

theorem mem_accesses_modifyBlock {id : Nat} {body : Block → BlockProg (α × Block)} {held : List Nat}
    {σ : Store} (hid : id ∉ held) {b : Nat} : b ∈ (modifyBlock id body).accesses held σ
      ↔ b = id ∨ b ∈ (body (σ id)).accesses (id :: held) σ := by
  rw [modifyBlock, accesses, if_neg hid, List.mem_cons, List.mem_append]
  cases (body (σ id)).flat (id :: held) σ with
  | error e => simp
  | ok r => simp [accesses]

end BlockProg

open BlockProg BlockManager

namespace BlockManager

variable {mgr : BlockManager} {total ibb : Nat} {σ : Store} {f : Nat}

/-- `increase_size` to a size that the file has already. -/
theorem increaseSize_kept {d : DiskInode} {newSize : UInt32} {held : List Nat}
    (h : mgr.FileOk σ d) (hle : newSize.toNat ≤ d.size.toNat)
    (hheld : ∀ x ∈ blocksOf σ d, x.toNat ∉ held) :
    Returns (Inode.increaseSize mgr newSize d) held σ fun d' σ' =>
      d'.size = d.size ∧ blocksOf σ' d' = blocksOf σ d := by
  have hbound := h.bound
  unfold Inode.increaseSize
  by_cases hlt : newSize < d.size
  · rw [if_pos hlt, Returns, Post.pure_iff]
    exact ⟨rfl, rfl⟩
  · have heq : newSize = d.size := by
      have hge := mt UInt32.lt_iff_toNat_lt.mpr hlt
      exact UInt32.toNat_inj.mp (by omega)
    subst heq
    have hfit : d.size.toNat + 512 < 2 ^ 32 := DiskInode.size_fits (by omega)
    have hnone : Returns (d.blocksNumNeeded d.size) held σ fun r σ' => r = 0 ∧ σ' = σ := by
      unfold DiskInode.blocksNumNeeded DiskInode.totalBlocks
      rw [Returns, Post.bind_iff, Post.assert_iff]
      refine ⟨?_, fun hne => absurd (UInt32.le_refl _) hne⟩
      intro _
      rw [Post.bind_iff, Post.bind_iff, DiskInode.dataBlocksOf_spec hfit, Post.pure_iff,
        Post.bind_iff, Post.bind_iff, DiskInode.dataBlocksOf_spec hfit, Post.pure_iff, Post.sub_iff,
        Nat.sub_self]
      exact ⟨fun _ => ⟨rfl, rfl⟩, fun hlt => absurd hlt (Nat.lt_irrefl _)⟩
    rw [if_neg hlt, Returns, Post.bind_iff]
    apply hnone.mono
    rintro r σ' ⟨rfl, rfl⟩
    rw [Inode.allocBlocks, Post.bind_iff, Post.pure_iff]
    have hown : owned σ' d (DiskInode.blockCount d.size) ++ []
        = owned σ' d (DiskInode.blockCount d.size) := List.append_nil _
    apply (DiskInode.increaseSize_spec (Nat.le_refl _) hbound (by simp) (by rw [hown]; exact h.nodup)
      (by rw [hown]; exact hheld)).mono
    intro d' σ'' hg
    have hids := hg.ids
    have hsize : d'.size = d.size := hg.size
    rw [List.append_nil, hown] at hids
    refine ⟨hsize, ?_⟩
    unfold blocksOf
    rw [hsize]
    exact hids

/-- What a call locks, besides the block of its inode, is what its closure locks. -/
theorem mem_accesses_modifyDiskInode {α : Type} {g : DiskInode → BlockProg (α × DiskInode)} {b : Nat} :
    b ∈ ((mgr.inode f).modifyDiskInode g).accesses [] σ ↔ b = (mgr.inode f).blockId
      ∨ b ∈ (g (mgr.inodeAt σ f)).accesses [(mgr.inode f).blockId] σ := by
  rw [Inode.modifyDiskInode, mem_accesses_modifyBlock List.not_mem_nil,
    assert_bind (mgr.inode_fits f), mem_accesses_bind]
  refine or_congr_right (or_iff_left ?_)
  rintro ⟨_, _, -, hb⟩
  cases hb

theorem flat_of_modifyDiskInode {α : Type} {g : DiskInode → BlockProg (α × DiskInode)}
    {r : α × Store} (h : ((mgr.inode f).modifyDiskInode g).flat [] σ = .ok r) :
    ∃ x, (g (mgr.inodeAt σ f)).flat [(mgr.inode f).blockId] σ = .ok x := by
  rw [Inode.modifyDiskInode, modifyBlock, flat, if_neg List.not_mem_nil,
    assert_bind (mgr.inode_fits f), flat_bind] at h
  cases hg : (g (mgr.inodeAt σ f)).flat [(mgr.inode f).blockId] σ with
  | ok x => exact ⟨x, rfl⟩
  | error e =>
      unfold inodeAt at hg
      rw [hg] at h
      cases h

/-- The closure of `write_at`, with nothing to write. -/
def zeroWrite (mgr : BlockManager) (offset : Nat) (d : DiskInode) : BlockProg (Nat × DiskInode) := do
  assert d.file
  let stop ← add (2 ^ 64) offset ([] : List UInt8).length
  let d ← Inode.increaseSize mgr (UInt32.ofNat stop) d
  let size ← d.writeAt offset []
  pure (size, d)

theorem writeAt_nil (mgr : BlockManager) (ino : Inode) (offset : Nat) :
    Inode.writeAt mgr ino offset [] = ino.modifyDiskInode (zeroWrite mgr offset) >>= fun size =>
      blockCacheSyncAll >>= fun _ => pure size := rfl

section Zero

variable {offset : Nat} {held : List Nat}

/-- The closure up to the loop: the file keeps its size and its blocks. -/
theorem zeroWrite_kept {d : DiskInode} (h : mgr.FileOk σ d) (hfile : d.file = true)
    (hle : offset ≤ d.size.toNat) (hheld : ∀ x ∈ blocksOf σ d, x.toNat ∉ held) {E : FsErr → Prop}
    {Q : Nat × DiskInode → Store → Prop}
    (hQ : ∀ d' σ', d'.size = d.size → blocksOf σ' d' = blocksOf σ d →
      Post E (d'.writeAt offset []) held σ' fun size => Q (size, d')) :
    Post E (zeroWrite mgr offset d) held σ Q := by
  have hlt := d.size.toNat_lt
  unfold zeroWrite
  rw [Post.bind_iff, Post.assert_iff]
  refine ⟨?_, fun hdir => absurd hfile hdir⟩
  intro _
  rw [Post.bind_iff, Post.add_iff]
  refine ⟨?_, fun hover => absurd hover (by simp only [List.length_nil]; omega)⟩
  intro _
  have hnat : (UInt32.ofNat (offset + ([] : List UInt8).length)).toNat = offset := by
    rw [UInt32.toNat_ofNat', List.length_nil, Nat.add_zero, Nat.mod_eq_of_lt (by omega)]
  rw [Post.bind_iff]
  apply (Post.of_returns (increaseSize_kept h (by rw [hnat]; exact hle) hheld)).mono
  rintro d' σ' ⟨hsize, hown⟩
  rw [Post.bind_iff]
  exact (hQ d' σ' hsize hown).mono fun _ _ h => Post.pure_iff.mpr h

/-- Inside the blocks of a file it needs no lock but those of the file. -/
theorem zeroWrite_returns {d : DiskInode} (h : mgr.FileOk σ d) (hfile : d.file = true)
    (hle : offset ≤ d.size.toNat) (hin : offset / 512 < DiskInode.blockCount d.size)
    (hheld : ∀ x ∈ blocksOf σ d, x.toNat ∉ held) :
    Returns (zeroWrite mgr offset d) held σ fun _ _ => True := by
  refine zeroWrite_kept h hfile hle hheld ?_
  intro d' σ' hsize hown
  apply (DiskInode.writeAt_empty (by rw [hsize]; exact h.bound)
    (by intro x hx; exact hheld x (hown ▸ hx)) (by rw [hsize]; exact hle) (.inr rfl)
    (fun hover => absurd hover (by
      have hlt := d.size.toNat_lt
      simp only [List.length_nil]
      omega))
    (fun hout => absurd hin (by rw [hsize] at hout; omega))).mono
  intro _ _ _
  trivial

variable (hl : mgr.Layout total ibb) (hi : mgr.FsInv total ibb σ) (hf : mgr.Used σ f)
  (hfile : (mgr.inodeAt σ f).file = true)

include hl hi hf hfile

/-- A write of no bytes inside the blocks of a file locks the block of its inode
and blocks of the file. -/
theorem writeAt_nil_accesses (hle : offset ≤ (mgr.inodeAt σ f).size.toNat)
    (hin : offset / 512 < DiskInode.blockCount (mgr.inodeAt σ f).size) :
    ∀ b ∈ (Inode.writeAt mgr (mgr.inode f) offset []).accesses [] σ,
      b = (mgr.inode f).blockId ∨ ∃ x ∈ mgr.ownedBy σ f, b = x.toNat := by
  intro b hb
  by_contra hnot
  obtain ⟨hinode, howned⟩ := not_or.mp hnot
  rw [writeAt_nil, mem_accesses_bind] at hb
  rcases hb with hb | ⟨_, _, -, hb⟩
  · have hb := (mem_accesses_modifyDiskInode.mp hb).resolve_left hinode
    -- The closure returns with block `b` locked as well, so it does not lock it.
    have hfree : ∀ x ∈ blocksOf σ (mgr.inodeAt σ f), x.toNat ∉ [b, (mgr.inode f).blockId] := by
      intro x hx hheld
      rcases List.mem_cons.mp hheld with heq | hheld
      · exact howned ⟨x, hx, heq.symm⟩
      · exact ownedBy_not_held hl hi hf x hx hheld
    obtain ⟨r, σ', hrun, -⟩ :=
      (zeroWrite_returns (hi.fileOk hf) hfile hle hin hfree).exists_ok
    have hsub : ∀ x ∈ [(mgr.inode f).blockId], x ∈ [b, (mgr.inode f).blockId] :=
      fun x hx => List.mem_cons_of_mem _ hx
    exact (flat_avoids hsub hrun).2 b List.mem_cons_self hb
  · cases hb

/-- A write of no bytes to the start of a file, if it returns, locks another block
than that of the inode; an empty file has none. -/
theorem writeAt_nil_strays {r : Nat} {σ' : Store}
    (hrun : (Inode.writeAt mgr (mgr.inode f) 0 []).flat [] σ = .ok (r, σ')) :
    ∃ b ∈ (Inode.writeAt mgr (mgr.inode f) 0 []).accesses [] σ, b ≠ (mgr.inode f).blockId := by
  have hkept : Returns (Inode.increaseSize mgr (UInt32.ofNat 0) (mgr.inodeAt σ f))
      [(mgr.inode f).blockId] σ _ :=
    increaseSize_kept (hi.fileOk hf) (Nat.zero_le _) (ownedBy_not_held hl hi hf)
  obtain ⟨d', σ₁, hincrease, -⟩ := hkept.exists_ok
  -- The loop opens the first block of the list, which holds no block of the file.
  have hloop : (d'.directAt 0).toNat ∈ (d'.writeAt 0 []).accesses [(mgr.inode f).blockId] σ₁ := by
    have hstop : min 0 d'.size.toNat = 0 := Nat.zero_min _
    unfold DiskInode.writeAt
    refine mem_accesses_bind.mpr (.inr ⟨0, σ₁, rfl, ?_⟩)
    dsimp only
    rw [hstop]
    refine mem_accesses_bind.mpr (.inr ⟨(), σ₁, rfl, ?_⟩)
    rw [DiskInode.writeLoop]
    refine mem_accesses_bind.mpr (.inr ⟨d'.directAt 0, σ₁, rfl, ?_⟩)
    exact mem_accesses_bind.mpr (.inl List.mem_cons_self)
  have hzero : (d'.directAt 0).toNat
      ∈ (zeroWrite mgr 0 (mgr.inodeAt σ f)).accesses [(mgr.inode f).blockId] σ := by
    unfold zeroWrite
    rw [assert_bind hfile]
    refine mem_accesses_bind.mpr (.inr ⟨0, σ, rfl, ?_⟩)
    refine mem_accesses_bind.mpr (.inr ⟨d', σ₁, hincrease, ?_⟩)
    exact mem_accesses_bind.mpr (.inl hloop)
  rw [writeAt_nil, flat_bind] at hrun
  refine ⟨_, mem_accesses_bind.mpr (.inl (mem_accesses_modifyDiskInode.mpr (.inr hzero))), ?_⟩
  intro heq
  cases hbody : ((mgr.inode f).modifyDiskInode (zeroWrite mgr 0)).flat [] σ with
  | error e =>
      rw [hbody] at hrun
      cases hrun
  | ok x =>
      obtain ⟨y, hy⟩ := flat_of_modifyDiskInode hbody
      have hsub : ∀ x ∈ [(mgr.inode f).blockId], x ∈ [(mgr.inode f).blockId] := fun _ hx => hx
      exact (flat_avoids hsub hy).2 _ (List.mem_singleton.mpr heq) hzero

end Zero

/-- A write of no bytes returns 0, locks nothing but the block of the inode and
blocks of the file, and every file stays as it is. -/
def WritesNothing (mgr : BlockManager) (σ : Store) (f offset : Nat) : Prop :=
  ∃ σ', (Inode.writeAt mgr (mgr.inode f) offset []).flat [] σ = .ok (0, σ')
    ∧ (∀ b ∈ (Inode.writeAt mgr (mgr.inode f) offset []).accesses [] σ,
      b = (mgr.inode f).blockId ∨ ∃ x ∈ mgr.ownedBy σ f, b = x.toNat)
    ∧ mgr.SameFiles σ σ'

end BlockManager

/-- Wherever the offset lies in a block of the file, a write of no bytes does
nothing. -/
theorem zero_length_write {total ibb : UInt32} {mgr : BlockManager} {σ₀ σ : Store}
    {tr : List FsEvent} {s : FsState} (hfit : ibb.toNat * 4096 ≤ 2 ^ 32)
    (hcreate : (create total ibb).flat [] σ₀ = .ok (mgr, σ))
    (hrun : Runs (RangeStep mgr total.toNat) (mgr.start σ) tr s) {f : Nat}
    (hf : mgr.Used s.store f) (hfile : (mgr.inodeAt s.store f).file = true) {offset : Nat}
    (hle : offset ≤ (mgr.inodeAt s.store f).size.toNat)
    (hin : offset < (mgr.inodeAt s.store f).size.toNat
      ∨ (mgr.inodeAt s.store f).size.toNat % 512 ≠ 0) :
    mgr.WritesNothing s.store f offset := by
  have hc := created_of_create (by omega) hcreate
  have hl := hc.layout
  obtain ⟨-, m, h⟩ := Mounted.runInRange hc hfit hrun
  obtain ⟨⟨type, bytes⟩, hm⟩ := Option.isSome_iff_exists.mp (h.holds.used_iff.mp hf)
  obtain ⟨hsize, htype⟩ := h.size hm
  obtain rfl : type = .file := htype.symm.trans (file_iff.mp hfile)
  have hlt := (mgr.inodeAt s.store f).size.toNat_lt
  have hbound := h.inv.bound f hf
  unfold DiskInode.blockCount at hbound
  have hblock : offset / 512 < DiskInode.blockCount (mgr.inodeAt s.store f).size := by
    unfold DiskInode.blockCount
    omega
  have hnone : blocksFor (mgr.inodeAt s.store f) (UInt32.ofNat (offset + ([] : List UInt8).length))
      = 0 := by
    have hmono := @blocksFor_le (mgr.inodeAt s.store f) (offset + ([] : List UInt8).length) _ hle hlt
    rw [UInt32.ofNat_toNat] at hmono
    exact Nat.eq_zero_of_le_zero (hmono.trans (Nat.sub_self _).le)
  have hend : offset ≤ INDIRECT2_BOUND * BLOCK_SZ := by
    show offset ≤ 16539 * 512
    omega
  have hE : WriteFaults (fun _ => False) mgr total.toNat s.store f offset [] :=
    h.writeFaults hm (fun hat => by omega) hend (by rw [hnone]; exact Nat.zero_le _)
  obtain ⟨_, σ', hwrite, rfl, h', -⟩ := Returns.exists_ok
    (h.writeAt hl hm (by rw [List.length_nil]; omega) hE (by rw [hnone]; exact Nat.zero_le _))
  dsimp only at hsize
  rw [overwrite_nil (by omega), ← hm, Function.update_eq_self] at h'
  exact ⟨σ', hwrite, writeAt_nil_accesses hl h.inv hf hfile hle hblock, h.same h' hl⟩

/-- A write of no bytes at the end of a file of one byte. -/
theorem zero_length_write_5123 :
    ∃ mgr σ s f tr, (create 5123 1).flat [] (fun _ => Block.zero) = .ok (mgr, σ)
      ∧ Runs (RangeStep mgr 5123) (mgr.start σ) tr s ∧ (mgr.inodeAt s.store f).size = 1
      ∧ mgr.WritesNothing s.store f 1 := by
  obtain ⟨mgr, σ, s, tr, hcreate, hrun, hg, ⟨m, h, hm⟩, hroom, -⟩ :=
    log_file_5123 fun _ => Block.zero
  have hl : mgr.Layout 5123 1 := (created_of_create (by decide) hcreate).layout
  have hsize : (mgr.inodeAt s.store 1).size = 0 := UInt32.toNat_inj.mp (h.size hm).1
  have hone : blocksFor (mgr.inodeAt s.store 1) (UInt32.ofNat (0 + [104].length))
      ≤ mgr.room 5123 s.store := by
    refine Nat.le_trans ?_ hroom
    unfold blocksFor
    rw [hsize]
    decide
  have hE : WriteFaults (fun _ => False) mgr 5123 s.store 1 0 [104] :=
    h.writeFaults hm (fun hat => absurd hat.1 (by decide)) (by decide) hone
  obtain ⟨_, σ', hwrite, rfl, h', -⟩ := Returns.exists_ok (h.writeAt hl hm (by decide) hE hone)
  have hshort : 0 + [104].length < 2 ^ 32 := by decide
  have hstep : RangeStep mgr 5123 s _ ⟨σ', s.handles⟩ := ⟨.write hg hwrite, hshort, h'.disk⟩
  have hm' := Function.update_self (1 : Nat) (some (AbsFile.mk .file (overwrite [] 0 [104]))) m
  have hsize' : (mgr.inodeAt σ' 1).size = 1 := UInt32.toNat_inj.mp (h'.size hm').1
  have hrun' := (hrun.mono fun _ _ _ hs => hs.inRange).append (.single hstep)
  refine ⟨mgr, σ, _, 1, _, hcreate, hrun', hsize', ?_⟩
  exact zero_length_write (by decide) hcreate hrun' (h'.used hm') (file_iff.mpr (h'.size hm').2)
    (by rw [hsize']; decide) (.inr (by rw [hsize']; decide))

/-- A new file has no block, and a write of no bytes to it opens one. -/
theorem zero_length_write_strays :
    ∃ mgr σ s f tr, (create 5123 1).flat [] (fun _ => Block.zero) = .ok (mgr, σ)
      ∧ Runs (RangeStep mgr 5123) (mgr.start σ) tr s ∧ mgr.Used s.store f
      ∧ (mgr.inodeAt s.store f).file = true ∧ (mgr.inodeAt s.store f).size = 0
      ∧ ¬ mgr.WritesNothing s.store f 0 := by
  obtain ⟨mgr, σ, s, tr, hcreate, hrun, -, ⟨m, h, hm⟩, -⟩ :=
    log_file_5123 fun _ => Block.zero
  have hl : mgr.Layout 5123 1 := (created_of_create (by decide) hcreate).layout
  have hsize : (mgr.inodeAt s.store 1).size = 0 := UInt32.toNat_inj.mp (h.size hm).1
  have hf := h.used hm
  have hfile := file_iff.mpr (h.size hm).2
  refine ⟨mgr, σ, s, 1, tr, hcreate, hrun.mono fun _ _ _ hs => hs.inRange, hf, hfile, hsize, ?_⟩
  rintro ⟨σ', hwrite, hacc, -⟩
  obtain ⟨b, hb, hne⟩ := writeAt_nil_strays hl h.inv hf hfile hwrite
  obtain ⟨x, hx, -⟩ := (hacc b hb).resolve_left hne
  -- The file owns no block.
  rw [ownedBy_of_empty hsize] at hx
  cases hx

end Nimloth
