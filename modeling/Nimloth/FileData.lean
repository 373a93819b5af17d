import Mathlib.Tactic.Common
import Nimloth.IndexTree

/-!
# The bytes of a file

Byte `j` of a file lies in data block `j / 512`. `read_at` and `write_at`
go over a range of bytes block by block; here the range is one list
(`bytesAt`) and the effect of a write one equation per byte
(`Written`). A write touches data blocks alone, so the index tree and the
bytes of every other file stay.
-/

namespace Nimloth

open BlockProg

def fileByte (σ : Store) (d : DiskInode) (j : Nat) : UInt8 :=
  (σ (nodeId σ d (.data (j / 512))).toNat).byte (j % 512)

/-- The bytes from `start` on. -/
def bytesAt (σ : Store) (d : DiskInode) (start len : Nat) : List UInt8 :=
  (List.range len).map fun k => fileByte σ d (start + k)

theorem bytesAt_add (σ : Store) (d : DiskInode) (start a b : Nat) :
    bytesAt σ d start (a + b) = bytesAt σ d start a ++ bytesAt σ d (start + a) b := by
  unfold bytesAt
  rw [List.range_add, List.map_append, List.map_map]
  simp [Function.comp_def, Nat.add_assoc]

/-- A range inside one block is a slice of it. -/
theorem slice_eq_bytesAt (σ : Store) (d : DiskInode) {start len : Nat}
    (h : start % 512 + len ≤ 512) :
    (σ (nodeId σ d (.data (start / 512))).toNat).slice (start % 512) len
      = bytesAt σ d start len := by
  unfold Block.slice bytesAt fileByte
  apply List.map_congr_left
  intro k hk
  have hk := List.mem_range.mp hk
  rw [show (start + k) / 512 = start / 512 by omega,
    show (start + k) % 512 = start % 512 + k by omega]

namespace DiskInode

variable {σ : Store} {d : DiskInode} {held : List Nat} {n : Nat}

/-! ## Reading -/

theorem readLoop_spec {stop start startBlock : Nat} {buf : List UInt8} (hn : n ≤ 16539)
    (hlt : start < stop) (hstop : stop ≤ 512 * n) (hblock : startBlock = start / 512)
    (hheld : ∀ x ∈ owned σ d n, x.toNat ∉ held) :
    Returns (d.readLoop stop start startBlock buf) held σ fun r σ' =>
      σ' = σ ∧ r = buf ++ bytesAt σ d start (stop - start) := by
  induction hk : stop - start using Nat.strongRecOn generalizing start startBlock buf with
  | ind k ih =>
      subst hblock
      obtain ⟨e, he⟩ : ∃ e, endCurrentBlock start stop = e := ⟨_, rfl⟩
      have he' : min ((start / 512 + 1) * 512) stop = e := he
      have hid : (nodeId σ d (.data (start / 512))).toNat ∉ held :=
        hheld _ (nodeId_mem (by simp only [Node.since]; omega))
      rw [readLoop, Returns, Post.bind_iff, blockId_spec (n := n) (by omega) hn hheld,
        Post.bind_iff, Post.read_iff hid, Post.pure_iff, he,
        show start % BLOCK_SZ = start % 512 from rfl, slice_eq_bytesAt σ d (by omega)]
      split
      · next heq =>
          subst heq
          rw [Post.pure_iff, hk]
          exact ⟨rfl, rfl⟩
      · next hne =>
          have hrest := @ih (stop - e) (by omega) e (start / 512 + 1)
            (buf ++ bytesAt σ d start (e - start)) (by omega) (by omega) rfl
          apply hrest.mono
          rintro r σ' ⟨rfl, hr⟩
          refine ⟨rfl, ?_⟩
          have hsplit := bytesAt_add σ' d start (e - start) (stop - e)
          rw [show e - start + (stop - e) = k by omega, show start + (e - start) = e by omega] at hsplit
          rw [hr, hsplit, List.append_assoc]

/-- `read_at` returns the bytes of the range that the file has. -/
theorem readAt_spec {offset len : Nat} (hn : blockCount d.size ≤ 16539)
    (hheld : ∀ x ∈ owned σ d (blockCount d.size), x.toNat ∉ held)
    (hlen : offset + len < 2 ^ 64) :
    Returns (d.readAt offset len) held σ fun r σ' =>
      σ' = σ ∧ r = bytesAt σ d offset (min len (d.size.toNat - offset)) := by
  unfold readAt
  rw [Returns, Post.bind_iff, Post.add_iff]
  refine ⟨?_, fun h => absurd hlen (Nat.not_lt.mpr h)⟩
  intro _
  obtain ⟨stop, hstop⟩ : ∃ stop, min (offset + len) d.size.toNat = stop := ⟨_, rfl⟩
  dsimp only
  rw [hstop]
  split
  · rw [Post.pure_iff, show min len (d.size.toNat - offset) = 0 by omega]
    exact ⟨rfl, rfl⟩
  · have hcount := size_le_blocks d.size
    have h : Returns (d.readLoop stop offset (offset / BLOCK_SZ) []) held σ fun r σ' =>
        σ' = σ ∧ r = [] ++ bytesAt σ d offset (stop - offset) :=
      readLoop_spec hn (by omega) (by omega) rfl hheld
    rw [show stop - offset = min len (d.size.toNat - offset) by omega] at h
    exact h

theorem blockId_within (d : DiskInode) (i : UInt32) : (d.blockId i).Within false 1 := by
  unfold blockId
  dsimp only
  split
  · exact .pure _
  · split
    · exact .readBlock fun _ => .pure _
    · split
      · exact .bind (.readBlock fun _ => .pure _) fun _ => .readBlock fun _ => .pure _
      · refine .bind (.readBlock fun _ => .bind .assert fun _ => .pure _) ?_
        intro _
        exact .bind (.readBlock fun _ => .pure _) fun _ => .readBlock fun _ => .pure _

theorem readLoop_within (d : DiskInode) (stop start startBlock : Nat) (buf : List UInt8) :
    (d.readLoop stop start startBlock buf).Within false 1 := by
  induction hk : stop - start using Nat.strongRecOn generalizing start startBlock buf with
  | ind k ih =>
      rw [readLoop]
      refine .bind (blockId_within d _) fun _ => .bind (.readBlock fun _ => .pure _) ?_
      intro buf
      split
      · exact .pure _
      · next hne => exact ih _ (hk ▸ endCurrentBlock_decreases hne) _ _ _ rfl

theorem readAt_within (d : DiskInode) (offset len : Nat) : (d.readAt offset len).Within false 1 := by
  unfold readAt
  refine .bind .add ?_
  intro stop
  dsimp only
  split
  · exact .pure _
  · exact readLoop_within ..

/-! ## Writing -/

/-- Between `start` and `stop` the bytes are those of `f`; the others, and the
blocks of other files, stay. -/
structure Written (σ : Store) (d : DiskInode) (n start stop : Nat) (f : Nat → UInt8) (σ' : Store) :
    Prop where
  frame : ∀ b, (∀ i, i < n → (nodeId σ d (.data i)).toNat ≠ b) → σ' b = σ b
  byte : ∀ j, j < 512 * n →
    fileByte σ' d j = if start ≤ j ∧ j < stop then f j else fileByte σ d j

/-- The tree is not touched by a write to data blocks. -/
theorem nodeId_of_data_written {σ' : Store} (hnd : (owned σ d n).Nodup)
    (hframe : ∀ b, (∀ i, i < n → (nodeId σ d (.data i)).toNat ≠ b) → σ' b = σ b) {node : Node}
    (hnode : node.since < n) : nodeId σ' d node = nodeId σ d node := by
  refine nodeId_frame ?_ hnode
  intro node' hnode' hindex
  apply hframe
  intro i hi heq
  have hdata : (Node.data i).since < n := hi
  have := nodeId_inj hnd hdata hnode' (UInt32.toNat_inj.mp heq)
  subst this
  cases hindex

theorem Written.nodeId {σ' : Store} {start stop : Nat} {f : Nat → UInt8}
    (h : Written σ d n start stop f σ') (hnd : (owned σ d n).Nodup) {node : Node}
    (hnode : node.since < n) : nodeId σ' d node = Nimloth.nodeId σ d node :=
  nodeId_of_data_written hnd h.frame hnode

theorem Written.owned {σ' : Store} {start stop : Nat} {f : Nat → UInt8}
    (h : Written σ d n start stop f σ') (hnd : (owned σ d n).Nodup) :
    owned σ' d n = Nimloth.owned σ d n :=
  owned_congr fun _ hnode => h.nodeId hnd hnode

theorem Written.trans {σ₁ σ₂ : Store} {start mid stop : Nat} {f : Nat → UInt8}
    (hnd : (Nimloth.owned σ d n).Nodup) (h₁ : Written σ d n start mid f σ₁)
    (h₂ : Written σ₁ d n mid stop f σ₂) (hle : start ≤ mid) (hle' : mid ≤ stop) :
    Written σ d n start stop f σ₂ where
  frame b hb := by
    rw [h₂.frame b ?_, h₁.frame b hb]
    intro i hi
    have hdata : (Node.data i).since < n := hi
    rw [h₁.nodeId hnd hdata]
    exact hb i hi
  byte j hj := by
    rw [h₂.byte j hj, h₁.byte j hj]
    by_cases h : j < mid
    · rw [if_neg (by omega)]
      simp only [h, and_true, show j < stop from by omega]
    · simp only [show mid ≤ j by omega, true_and, show start ≤ j by omega]
      split
      · rfl
      · rfl

/-- One data block is replaced. -/
theorem written_block {i : Nat} {blk : Block} {start stop : Nat} {f : Nat → UInt8}
    (hnd : (owned σ d n).Nodup) (hi : i < n)
    (hblk : ∀ j, j / 512 = i → blk.byte (j % 512)
      = if start ≤ j ∧ j < stop then f j else fileByte σ d j)
    (hrange : ∀ j, start ≤ j → j < stop → j / 512 = i) :
    Written σ d n start stop f
      (Function.update σ (nodeId σ d (.data i)).toNat blk) := by
  have hframe : ∀ b, (∀ i, i < n → (Nimloth.nodeId σ d (.data i)).toNat ≠ b) →
      Function.update σ (Nimloth.nodeId σ d (.data i)).toNat blk b = σ b := by
    intro b hb
    exact Function.update_of_ne (Ne.symm (hb i hi)) ..
  refine ⟨hframe, ?_⟩
  intro j hj
  have hj' : (Node.data (j / 512)).since < n := by
    simp only [Node.since]
    omega
  have hid := nodeId_of_data_written hnd hframe hj'
  unfold fileByte
  rw [hid]
  by_cases heq : j / 512 = i
  · rw [heq, Function.update_self, hblk j heq]
    unfold fileByte
    rw [heq]
  · have hne : (Nimloth.nodeId σ d (.data (j / 512))).toNat ≠ (Nimloth.nodeId σ d (.data i)).toNat := by
      intro h
      have hdata : (Node.data i).since < n := hi
      have := nodeId_inj hnd hj' hdata (UInt32.toNat_inj.mp h)
      exact heq (by simpa using this)
    rw [Function.update_of_ne hne, if_neg]
    rintro ⟨h₁, h₂⟩
    exact heq (hrange j h₁ h₂)

/-- A part of the buffer is copied into its block. -/
theorem written_slice {start stop offset : Nat} {buf : List UInt8} (hnd : (owned σ d n).Nodup)
    (hoff : offset ≤ start) (hle : start ≤ stop) (hblock : stop ≤ (start / 512 + 1) * 512)
    (hn : start / 512 < n) (hbuf : stop ≤ offset + buf.length) :
    Written σ d n start stop (fun j => buf.getD (j - offset) 0)
      (Function.update σ (nodeId σ d (.data (start / 512))).toNat
        ((σ (nodeId σ d (.data (start / 512))).toNat).write (start % 512)
          ((buf.drop (start - offset)).take (stop - start)))) := by
  have hlen : ((buf.drop (start - offset)).take (stop - start)).length = stop - start := by
    simp only [List.length_take, List.length_drop]
    omega
  refine written_block hnd hn ?_ fun j h₁ h₂ => by omega
  intro j hj
  rw [Block.byte_write _ _ _ (show j % 512 < 512 by omega), hlen]
  by_cases hin : start ≤ j ∧ j < stop
  · rw [if_pos (by omega), if_pos hin, List.getD_eq_getElem?_getD, List.getD_eq_getElem?_getD,
      List.getElem?_take_of_lt (by omega), List.getElem?_drop]
    congr 2
    omega
  · rw [if_neg (by omega), if_neg hin]
    unfold fileByte
    rw [hj]

theorem writeLoop_spec {stop start startBlock writeSize offset : Nat} {buf : List UInt8}
    (hn : n ≤ 16539) (hlt : start < stop) (hstop : stop ≤ 512 * n) (hblock : startBlock = start / 512)
    (hoff : offset ≤ start) (hsize : writeSize = start - offset)
    (hbuf : stop ≤ offset + buf.length) (hnd : (owned σ d n).Nodup)
    (hheld : ∀ x ∈ owned σ d n, x.toNat ∉ held) :
    Returns (d.writeLoop buf stop start startBlock writeSize) held σ fun r σ' =>
      r = stop - offset ∧ Written σ d n start stop (fun j => buf.getD (j - offset) 0) σ' := by
  induction hk : stop - start using Nat.strongRecOn generalizing σ start startBlock writeSize with
  | ind k ih =>
      subst hblock hsize
      obtain ⟨e, he⟩ : ∃ e, endCurrentBlock start stop = e := ⟨_, rfl⟩
      have he' : min ((start / 512 + 1) * 512) stop = e := he
      have hid : (nodeId σ d (.data (start / 512))).toNat ∉ held :=
        hheld _ (nodeId_mem (by simp only [Node.since]; omega))
      have hpart := @written_slice σ d n start e offset buf hnd hoff (by omega) (by omega)
        (by omega) (by omega)
      rw [writeLoop, Returns, Post.bind_iff, blockId_spec (n := n) (by omega) hn hheld,
        Post.bind_iff, Post.modify_iff hid, Post.pure_iff, he]
      dsimp only [BLOCK_SZ]
      generalize Function.update σ _ _ = σ₁ at hpart ⊢
      split
      · next heq =>
          subst heq
          rw [Post.pure_iff]
          exact ⟨by omega, hpart⟩
      · next hne =>
          have hown := hpart.owned hnd
          have hrest := @ih (stop - e) (by omega) σ₁ e (start / 512 + 1)
            (start - offset + (e - start)) (by omega) (by omega) (by omega) (by omega)
            (by rwa [hown]) (by rwa [hown]) rfl
          apply hrest.mono
          rintro r σ' ⟨hr, hw⟩
          exact ⟨hr, hpart.trans hnd hw (by omega) (by omega)⟩

/-- `write_at` copies what fits in the file. -/
theorem writeAt_spec {offset : Nat} {buf : List UInt8} (hn : blockCount d.size ≤ 16539)
    (hnd : (owned σ d (blockCount d.size)).Nodup)
    (hheld : ∀ x ∈ owned σ d (blockCount d.size), x.toNat ∉ held)
    (hlen : offset + buf.length < 2 ^ 64) (hlt : offset < d.size.toNat) (hbuf : buf ≠ []) :
    Returns (d.writeAt offset buf) held σ fun r σ' =>
      r = min (offset + buf.length) d.size.toNat - offset
        ∧ Written σ d (blockCount d.size) offset (min (offset + buf.length) d.size.toNat)
          (fun j => buf.getD (j - offset) 0) σ' := by
  have hpos := List.length_pos_of_ne_nil hbuf
  have hcount := size_le_blocks d.size
  unfold writeAt
  rw [Returns, Post.bind_iff, Post.add_iff]
  refine ⟨?_, fun h => absurd hlen (Nat.not_lt.mpr h)⟩
  intro _
  dsimp only
  rw [Post.bind_iff, Post.assert_iff]
  refine ⟨?_, fun h => h (by omega)⟩
  intro _
  exact writeLoop_spec hn (by omega) (by omega) rfl (Nat.le_refl _)
    (Nat.sub_self _).symm (by omega) hnd hheld

theorem writeAt_beyond {E : FsErr → Prop} {offset : Nat} {buf : List UInt8} (hE : E .panic)
    (hE' : 2 ^ 64 ≤ offset + buf.length → E .overflow) (h : d.size.toNat < offset) :
    Post E (d.writeAt offset buf) held σ fun _ _ => False := by
  unfold writeAt
  rw [Post.bind_iff, Post.add_iff]
  refine ⟨?_, hE'⟩
  intro _
  dsimp only
  rw [Post.bind_iff, Post.assert_iff]
  exact ⟨fun hle => absurd h (by omega), fun _ => hE⟩

/-- A `write_at` with nothing to copy changes no content. It opens the block at
`offset`, whether the file has it or not. -/
theorem writeAt_empty {E : FsErr → Prop} {offset : Nat} {buf : List UInt8}
    (hn : blockCount d.size ≤ 16539) (hheld : ∀ x ∈ owned σ d (blockCount d.size), x.toNat ∉ held)
    (hle : offset ≤ d.size.toNat) (h : d.size.toNat = offset ∨ buf = [])
    (hover : 2 ^ 64 ≤ offset + buf.length → E .overflow)
    (hstuck : blockCount d.size ≤ offset / 512 → ∀ e, E e) :
    Post E (d.writeAt offset buf) held σ fun r σ' => r = 0 ∧ σ' = σ := by
  unfold writeAt
  rw [Post.bind_iff, Post.add_iff]
  refine ⟨?_, hover⟩
  intro _
  dsimp only
  have hstop : min (offset + buf.length) d.size.toNat = offset := by
    rcases h with h | rfl
    · omega
    · simp only [List.length_nil]
      omega
  have hend : endCurrentBlock offset offset = offset := by
    simp only [endCurrentBlock, BLOCK_SZ]
    omega
  rw [hstop, Post.bind_iff, Post.assert_iff]
  refine ⟨?_, fun hlt => absurd (Nat.le_refl _) hlt⟩
  intro _
  have hwrite : ∀ id : UInt32, (id.toNat ∈ held → E .deadlock) →
      Post E (modifyBlock id.toNat (fun b => pure ((), b.write (offset % BLOCK_SZ)
        ((buf.drop 0).take (endCurrentBlock offset offset - offset)))) >>= fun _ =>
          if endCurrentBlock offset offset = offset then
            pure (0 + (endCurrentBlock offset offset - offset))
          else d.writeLoop buf offset (endCurrentBlock offset offset) (offset / BLOCK_SZ + 1)
            (0 + (endCurrentBlock offset offset - offset))) held σ fun r σ' => r = 0 ∧ σ' = σ := by
    intro id hid
    rw [Post.bind_iff]
    refine Post.modify_of hid ?_
    intro _
    rw [Post.pure_iff, hend, Nat.sub_self, List.take_zero, Block.write_nil,
      Function.update_eq_self, if_pos rfl, Post.pure_iff]
    exact ⟨rfl, rfl⟩
  rw [writeLoop, Post.bind_iff]
  by_cases hin : offset / 512 < blockCount d.size
  · rw [show offset / BLOCK_SZ = offset / 512 from rfl, blockId_spec hin hn hheld]
    exact hwrite _ fun hmem => absurd hmem (hheld _ (nodeId_mem hin))
  · have hE : E = fun _ => True := by
      funext e
      exact eq_true (hstuck (Nat.not_lt.mp hin) e)
    subst hE
    apply ((blockId_within d _).ensures held σ).mono
    rintro id σ' rfl
    exact hwrite id fun _ => trivial

end DiskInode

end Nimloth
