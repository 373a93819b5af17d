import Mathlib.Tactic.Common
import Nimloth.DirectoryLaw
import Nimloth.OSInode

/-!
# Reading and writing in slices

A user buffer comes in slices, one for each page. `OSInode::read` and
`write` go through them with one `read_at` or `write_at` each, and what
they do together is what one call on the whole buffer does: every slice
goes on where the one before it ended.
-/

namespace Nimloth

open BlockProg BlockManager

/-! ## Bytes -/

theorem overwrite_nil {bytes : List UInt8} {offset : Nat} (h : offset ≤ bytes.length) :
    overwrite bytes offset [] = bytes := by
  unfold overwrite
  rw [Nat.sub_eq_zero_of_le h, List.replicate_zero, List.append_nil, List.append_nil,
    List.length_nil, Nat.add_zero, List.take_append_drop]

/-- Two writes, the second where the first one ended, are one. -/
theorem overwrite_append (bytes : List UInt8) (offset : Nat) (a b : List UInt8) :
    overwrite (overwrite bytes offset a) (offset + a.length) b = overwrite bytes offset (a ++ b) := by
  apply List.ext_getElem
  · rw [overwrite_length, overwrite_length, overwrite_length, List.length_append]
    omega
  · intro j h₁ h₂
    have hget := overwrite_getD (overwrite bytes offset a) (offset + a.length) b j
    have hget' := overwrite_getD bytes offset (a ++ b) j
    rw [List.getD_eq_getElem _ _ h₁, overwrite_getD] at hget
    rw [List.getD_eq_getElem _ _ h₂, List.length_append] at hget'
    rw [hget, hget']
    by_cases hb : offset + a.length ≤ j ∧ j < offset + a.length + b.length
    · rw [if_pos hb, if_pos (by omega), List.getD_append_right _ _ _ _ (by omega)]
      congr 1
      omega
    · rw [if_neg hb]
      by_cases ha : offset ≤ j ∧ j < offset + a.length
      · rw [if_pos ha, if_pos (by omega), List.getD_append _ _ _ _ (by omega)]
      · rw [if_neg ha, if_neg (by omega)]

/-- Bytes of a list taken in two goes. -/
theorem take_drop_add (bytes : List UInt8) (offset n k : Nat) :
    (bytes.drop offset).take (n + k) = (bytes.drop offset).take n
      ++ (bytes.drop (offset + ((bytes.drop offset).take n).length)).take k := by
  rw [List.take_add, List.length_take, List.length_drop]
  congr 1
  by_cases h : n ≤ bytes.length - offset
  · rw [Nat.min_eq_left h, List.drop_drop]
  · have hover : bytes.length ≤ offset + n := by omega
    rw [Nat.min_eq_right (by omega), List.drop_drop, List.drop_eq_nil_of_le hover,
      List.drop_eq_nil_of_le (by omega)]

section Blocks

variable {d d' : DiskInode} {n n' : Nat}

theorem blocksWithIndex_ofNat_le (hn : n ≤ n') (hlt : n' < 2 ^ 32) :
    DiskInode.blocksWithIndex (DiskInode.blockCount (UInt32.ofNat n))
      ≤ DiskInode.blocksWithIndex (DiskInode.blockCount (UInt32.ofNat n')) := by
  apply blocksWithIndex_mono
  apply DiskInode.blockCount_mono
  rw [UInt32.toNat_ofNat', UInt32.toNat_ofNat', Nat.mod_eq_of_lt hlt]
  exact (Nat.mod_le ..).trans hn

theorem blocksFor_le (hn : n ≤ n') (hlt : n' < 2 ^ 32) :
    BlockManager.blocksFor d (UInt32.ofNat n) ≤ BlockManager.blocksFor d (UInt32.ofNat n') :=
  Nat.sub_le_sub_right (blocksWithIndex_ofNat_le hn hlt) _

/-- Blocks for two writes, the second of which ends later. -/
theorem blocksFor_add (hn : n ≤ n') (hlt : n' < 2 ^ 32)
    (hsize : d'.size.toNat = max d.size.toNat n) :
    BlockManager.blocksFor d (UInt32.ofNat n) + BlockManager.blocksFor d' (UInt32.ofNat n')
      = BlockManager.blocksFor d (UInt32.ofNat n') := by
  have hnat : (UInt32.ofNat n).toNat = n := by
    rw [UInt32.toNat_ofNat', Nat.mod_eq_of_lt (by omega)]
  have hle := blocksWithIndex_ofNat_le hn hlt
  unfold BlockManager.blocksFor
  rcases Nat.le_total d.size.toNat n with h | h
  · have hle' := blocksWithIndex_mono (DiskInode.blockCount_mono (hnat.symm ▸ h))
    rw [Nat.max_eq_right h, ← hnat] at hsize
    rw [UInt32.toNat_inj.mp hsize]
    omega
  · have hle' := blocksWithIndex_mono (DiskInode.blockCount_mono (hnat.symm ▸ h))
    rw [Nat.max_eq_left h] at hsize
    rw [UInt32.toNat_inj.mp hsize]
    omega

end Blocks

namespace BlockManager

variable {mgr : BlockManager} {total ibb : Nat} {P : Inode → String → Prop} {σ : Store} {m : AbsFs}
  {f : Nat}

section Calls

variable (h : mgr.Mounted total ibb P σ m) (hl : mgr.Layout total ibb)

include h hl

/-! ## Reading -/

/-- The loop of `read` fills the slices from the front, as far as the file
has bytes. -/
theorem Mounted.readLoop {a : AbsFile} (hm : m f = some a) {readable writable : Bool}
    {slices : List (List UInt8)} (hne : ∀ slice ∈ slices, slice ≠ []) {offset size : Nat}
    (hoff : offset + slices.flatten.length < 2 ^ 64)
    (hsize : size + slices.flatten.length < 2 ^ 64) :
    Returns (OSInode.readLoop slices ⟨readable, writable, offset, mgr.inode f⟩ size) [] σ
      fun r σ' => σ' = σ ∧ ∃ bytes, bytes = (a.bytes.drop offset).take slices.flatten.length
        ∧ r.1 = size + bytes.length ∧ r.2.1.flatten = bytes ++ slices.flatten.drop bytes.length
        ∧ r.2.1.map List.length = slices.map List.length
        ∧ r.2.2 = ⟨readable, writable, offset + bytes.length, mgr.inode f⟩ := by
  induction slices generalizing offset size with
  | nil =>
      rw [OSInode.readLoop, Returns, Post.pure_iff]
      exact ⟨rfl, [], by simp⟩
  | cons slice slices ih =>
      rw [List.flatten_cons, List.length_append] at hoff hsize
      have hslice := hne slice List.mem_cons_self
      unfold OSInode.readLoop
      dsimp only
      rw [Returns, Post.bind_iff]
      apply (h.readAt hl hm (by omega)).mono
      rintro bytes σ' ⟨rfl, hbytes⟩
      have hle : bytes.length ≤ slice.length := by
        rw [hbytes, List.length_take]
        exact Nat.min_le_left ..
      by_cases hzero : bytes.length = 0
      · -- The file ends here: the one call on all slices reads nothing either.
        have hend : a.bytes.drop offset = [] := by
          have hnil := List.length_eq_zero_iff.mp hzero
          rw [hbytes, List.take_eq_nil_iff] at hnil
          exact hnil.resolve_left fun hlen => hslice (List.length_eq_zero_iff.mp hlen)
        rw [if_pos hzero, Post.pure_iff]
        exact ⟨rfl, [], by simp [hend]⟩
      · have hdrop := take_drop_add a.bytes offset slice.length slices.flatten.length
        rw [if_neg hzero, Post.bind_iff, Post.add_iff]
        refine ⟨?_, fun hover => absurd hover (by omega)⟩
        intro _
        rw [Post.bind_iff, Post.add_iff]
        refine ⟨?_, fun hover => absurd hover (by omega)⟩
        intro _
        rw [Post.bind_iff]
        apply (ih (fun s hs => hne s (List.mem_cons_of_mem _ hs)) (by omega) (by omega)).mono
        rintro ⟨size', slices', file'⟩ σ' ⟨rfl, bytes', hbytes', rfl, hflat, hlens, rfl⟩
        dsimp only at hflat hlens ⊢
        rw [← hbytes, ← hbytes'] at hdrop
        rw [Post.pure_iff]
        refine ⟨rfl, bytes ++ bytes', ?_, ?_, ?_, ?_, ?_⟩
        · rw [List.flatten_cons, List.length_append, hdrop]
        · rw [List.length_append]
          omega
        · rw [List.flatten_cons, List.flatten_cons, hflat, List.length_append, List.append_assoc,
            List.append_assoc]
          congr 1
          rcases Nat.lt_or_eq_of_le hle with hlt | heq
          · -- A slice that is not filled is the last one that gets bytes.
            have hnil : bytes' = [] := by
              rw [hbytes, List.length_take, List.length_drop] at hlt
              rw [hbytes', hbytes, List.length_take, List.length_drop, List.drop_eq_nil_of_le (by omega),
                List.take_nil]
            rw [hnil, List.length_nil, Nat.add_zero, List.nil_append, List.drop_zero,
              List.drop_append_of_le_length hle, List.nil_append]
          · rw [heq, List.drop_length, List.nil_append, ← List.drop_drop, List.drop_left]
        · rw [List.map_cons, List.map_cons, hlens, List.length_append, List.length_drop]
          congr 1
          omega
        · rw [List.length_append, ← Nat.add_assoc]

/-- `OSInode::read` on a user buffer does what one `read_at` on all of it does. -/
theorem Mounted.osRead {a : AbsFile} (hm : m f = some a) {readable writable : Bool} {offset : Nat}
    {buf : UserBuffer} (hne : ∀ slice ∈ buf.buffers, slice ≠ [])
    (hlen : offset + buf.buffers.flatten.length < 2 ^ 64) :
    ∃ bytes buf', ((mgr.inode f).readAt offset buf.buffers.flatten.length).flat [] σ = .ok (bytes, σ)
      ∧ (OSInode.read ⟨readable, writable, offset, mgr.inode f⟩ buf).flat [] σ
        = .ok ((bytes.length, buf', ⟨readable, writable, offset + bytes.length, mgr.inode f⟩), σ)
      ∧ buf'.buffers.flatten = bytes ++ buf.buffers.flatten.drop bytes.length
      ∧ buf'.buffers.map List.length = buf.buffers.map List.length := by
  obtain ⟨bytes, σ₁, hread, rfl, hbytes⟩ := (h.readAt hl hm hlen).exists_ok
  have hpost : Returns (OSInode.read ⟨readable, writable, offset, mgr.inode f⟩ buf) [] σ₁
      fun r σ' => σ' = σ₁ ∧ ∃ buf', r = (bytes.length, buf',
          ⟨readable, writable, offset + bytes.length, mgr.inode f⟩)
        ∧ buf'.buffers.flatten = bytes ++ buf.buffers.flatten.drop bytes.length
        ∧ buf'.buffers.map List.length = buf.buffers.map List.length := by
    unfold OSInode.read
    rw [Returns, Post.bind_iff]
    apply (h.readLoop hl hm hne hlen (by omega)).mono
    rintro ⟨size, slices, file⟩ σ' ⟨rfl, bytes', hbytes', hsize, hflat, hlens, hfile⟩
    rw [← hbytes] at hbytes'
    subst hbytes'
    dsimp only at hsize hflat hlens hfile ⊢
    rw [Nat.zero_add] at hsize
    subst hsize hfile
    rw [Post.pure_iff]
    exact ⟨rfl, ⟨slices⟩, rfl, hflat, hlens⟩
  obtain ⟨_, σ', hrun, rfl, buf', rfl, hflat, hlens⟩ := hpost.exists_ok
  exact ⟨bytes, buf', hread, hrun, hflat, hlens⟩

/-! ## Reading everything -/

/-- Every round of `read_all` takes at most 512 bytes, and the last one none. -/
theorem Mounted.readAllLoop {a : AbsFile} (hm : m f = some a) {readable writable : Bool} {fuel : Nat}
    {offset : Nat} {v : List UInt8} (hoff : offset ≤ a.bytes.length)
    (hfuel : a.bytes.length - offset < fuel) :
    Returns (OSInode.readAllLoop fuel ⟨readable, writable, offset, mgr.inode f⟩ v) [] σ
      fun r σ' => σ' = σ ∧ r = some (v ++ a.bytes.drop offset,
        ⟨readable, writable, a.bytes.length, mgr.inode f⟩) := by
  have hlen := (h.size hm).1
  have hlt := (mgr.inodeAt σ f).size.toNat_lt
  induction fuel generalizing offset v with
  | zero => omega
  | succ fuel ih =>
      unfold OSInode.readAllLoop
      dsimp only
      rw [Returns, Post.bind_iff]
      apply (h.readAt hl hm (by omega)).mono
      rintro bytes σ' ⟨rfl, hbytes⟩
      have hcount : bytes.length = min 512 (a.bytes.length - offset) := by
        rw [hbytes, List.length_take, List.length_drop]
      by_cases hzero : bytes.length = 0
      · obtain rfl : offset = a.bytes.length := by omega
        rw [if_pos hzero, Post.pure_iff, List.drop_length, List.append_nil]
        exact ⟨rfl, rfl⟩
      · rw [if_neg hzero, Post.bind_iff, Post.add_iff]
        refine ⟨?_, fun hover => absurd hover (by omega)⟩
        intro _
        apply (ih (by omega) (by omega)).mono
        rintro r σ' ⟨hσ, rfl⟩
        have hsplit := List.take_append_drop 512 (a.bytes.drop offset)
        rw [← hbytes, List.drop_drop] at hsplit
        have hdrop : a.bytes.drop (offset + bytes.length) = a.bytes.drop (offset + 512) := by
          rcases Nat.le_total 512 (a.bytes.length - offset) with hmore | hless
          · rw [hcount, Nat.min_eq_left hmore]
          · rw [List.drop_eq_nil_of_le (by omega), List.drop_eq_nil_of_le (by omega)]
        rw [hdrop, List.append_assoc, hsplit]
        exact ⟨hσ, rfl⟩

/-! ## Writing -/

omit h in
/-- The loop of `write` leaves the file as one write of all slices does. -/
theorem Mounted.writeLoop {slices : List (List UInt8)} (hne : ∀ slice ∈ slices, slice ≠ [])
    {readable writable : Bool} {offset size : Nat} {bytes : List UInt8}
    (h : mgr.Mounted total ibb P σ m) (hm : m f = some ⟨.file, bytes⟩)
    (hstart : slices ≠ [] ∨ offset ≤ bytes.length)
    (hfit : offset + slices.flatten.length ≤ INDIRECT2_BOUND * BLOCK_SZ)
    (hroom : blocksFor (mgr.inodeAt σ f) (UInt32.ofNat (offset + slices.flatten.length))
      ≤ mgr.room total σ)
    (hsize : size + slices.flatten.length < 2 ^ 64) :
    Returns (OSInode.writeLoop mgr slices ⟨readable, writable, offset, mgr.inode f⟩ size) [] σ
      fun r σ' => r = (size + slices.flatten.length,
          ⟨readable, writable, offset + slices.flatten.length, mgr.inode f⟩)
        ∧ mgr.Mounted total ibb P σ' (Function.update m f
          (some ⟨.file, overwrite bytes offset slices.flatten⟩)) := by
  induction slices generalizing offset size bytes σ m with
  | nil =>
      have hle := hstart.resolve_left fun hnil => hnil rfl
      rw [OSInode.writeLoop, Returns, Post.pure_iff, List.flatten_nil, overwrite_nil hle,
        Function.update_eq_self_iff.mpr hm.symm]
      exact ⟨rfl, h⟩
  | cons slice slices ih =>
      have hbound : offset + (slice :: slices).flatten.length ≤ 16539 * 512 := hfit
      rw [List.flatten_cons, List.length_append] at hbound hroom hsize
      have hslice := hne slice List.mem_cons_self
      have hpos := List.length_pos_of_ne_nil hslice
      have hle : offset + slice.length ≤ offset + (slice.length + slices.flatten.length) := by omega
      have hroom₁ := (blocksFor_le hle (by omega)).trans hroom
      have hE := h.writeFaults hm (fun hat => hslice hat.1) (hle.trans hbound) hroom₁
      unfold OSInode.writeLoop
      dsimp only
      rw [Returns, Post.bind_iff]
      apply (h.writeAt hl hm (by omega) hE hroom₁).mono
      rintro r σ' ⟨rfl, h', hroom'⟩
      rw [Post.bind_iff, Post.assert_iff]
      refine ⟨?_, fun hlen => absurd rfl hlen⟩
      intro _
      rw [Post.bind_iff, Post.add_iff]
      refine ⟨?_, fun hover => absurd hover (by omega)⟩
      intro _
      rw [Post.bind_iff, Post.add_iff]
      refine ⟨?_, fun hover => absurd hover (by omega)⟩
      intro _
      -- What the slice has left of the room is enough for the others.
      have hlen := (h'.size (Function.update_self ..)).1
      rw [overwrite_length, ← (h.size hm).1] at hlen
      have hadd := blocksFor_add hle (by omega) hlen
      rw [← Nat.add_assoc] at hadd hroom
      apply (ih (fun s hs => hne s (List.mem_cons_of_mem _ hs)) h' (Function.update_self ..)
        (.inr (by rw [overwrite_length]; omega)) (by rw [Nat.add_assoc]; exact hbound)
        (by omega) (by omega)).mono
      rintro r σ'' ⟨rfl, h''⟩
      rw [Function.update_idem, overwrite_append] at h''
      rw [List.flatten_cons, List.length_append, ← Nat.add_assoc, ← Nat.add_assoc]
      exact ⟨rfl, h''⟩

end Calls

end BlockManager

/-- Going through the slices of a buffer is one call on all of it; only a write
without slices is none at all. -/
theorem split_io {total ibb : UInt32} {mgr : BlockManager} {σ₀ σ : Store} {tr : List FsEvent}
    {s : FsState} (hfit : ibb.toNat * 4096 ≤ 2 ^ 32)
    (hcreate : (create total ibb).flat [] σ₀ = .ok (mgr, σ))
    (hrun : Runs (DiskStep mgr total.toNat) (mgr.start σ) tr s) {f : Nat}
    (hf : mgr.Used s.store f) (readable writable : Bool) :
    (∀ offset (buf : UserBuffer), (∀ slice ∈ buf.buffers, slice ≠ []) →
      offset + buf.buffers.flatten.length < 2 ^ 64 → ∃ bytes buf',
        ((mgr.inode f).readAt offset buf.buffers.flatten.length).flat [] s.store = .ok (bytes, s.store)
        ∧ (OSInode.read ⟨readable, writable, offset, mgr.inode f⟩ buf).flat [] s.store
          = .ok ((bytes.length, buf', ⟨readable, writable, offset + bytes.length, mgr.inode f⟩),
              s.store)
        ∧ buf'.buffers.flatten = bytes ++ buf.buffers.flatten.drop bytes.length
        ∧ buf'.buffers.map List.length = buf.buffers.map List.length)
      ∧ ((mgr.inodeAt s.store f).file = true → ∀ offset (buf : UserBuffer),
        (∀ slice ∈ buf.buffers, slice ≠ []) →
        buf.buffers ≠ [] ∨ offset ≤ (mgr.inodeAt s.store f).size.toNat →
        offset + buf.buffers.flatten.length ≤ INDIRECT2_BOUND * BLOCK_SZ →
        blocksFor (mgr.inodeAt s.store f) (UInt32.ofNat (offset + buf.buffers.flatten.length))
          ≤ mgr.room total.toNat s.store →
        ∃ σ', (OSInode.write mgr ⟨readable, writable, offset, mgr.inode f⟩ buf).flat [] s.store
            = .ok ((buf.buffers.flatten.length,
              ⟨readable, writable, offset + buf.buffers.flatten.length, mgr.inode f⟩), σ')
          ∧ (∀ r σ'', (Inode.writeAt mgr (mgr.inode f) offset buf.buffers.flatten).flat [] s.store
              = .ok (r, σ'') → r = buf.buffers.flatten.length ∧ mgr.SameFiles σ' σ'')
          ∧ (buf.buffers ≠ [] → ∃ r σ'',
            (Inode.writeAt mgr (mgr.inode f) offset buf.buffers.flatten).flat [] s.store
              = .ok (r, σ'')))
      ∧ ∃ bytes, ((mgr.inode f).readAt 0 (mgr.inodeAt s.store f).size.toNat).flat [] s.store
            = .ok (bytes, s.store)
          ∧ bytes.length = (mgr.inodeAt s.store f).size.toNat
          ∧ ∀ fuel, bytes.length < fuel →
            (OSInode.readAll fuel ⟨readable, writable, 0, mgr.inode f⟩).flat [] s.store
              = .ok (some (bytes, ⟨readable, writable, bytes.length, mgr.inode f⟩), s.store) := by
  have hc := created_of_create (by omega) hcreate
  have hl := hc.layout
  obtain ⟨-, m, h⟩ := Mounted.run (P := fun _ _ => True) hc hfit
    (hrun.mono fun _ e _ hstep => ⟨hstep, by cases e <;> trivial⟩)
  obtain ⟨a, hm⟩ := Option.isSome_iff_exists.mp (h.holds.used_iff.mp hf)
  obtain ⟨hsize, htype⟩ := h.size hm
  refine ⟨fun offset buf hne hlen => h.osRead hl hm hne hlen, ?_, ?_⟩
  · intro hfile offset buf hne hstart hbound hroom
    obtain ⟨type, bytes⟩ := a
    obtain rfl : type = .file := htype.symm.trans (file_iff.mp hfile)
    rw [hsize] at hstart
    have hbound' : offset + buf.buffers.flatten.length ≤ 16539 * 512 := hbound
    obtain ⟨_, σ', hwrite, rfl, h'⟩ := Returns.exists_ok
      (h.writeLoop hl hne hm hstart hbound hroom (by omega : 0 + _ < 2 ^ 64))
    rw [Nat.zero_add] at hwrite
    refine ⟨σ', hwrite, ?_, ?_⟩
    · intro r σ'' hone
      have hpost : Ensures (Inode.writeAt mgr (mgr.inode f) offset buf.buffers.flatten) [] s.store _ :=
        h.writeAt hl hm (by omega) (.any ..) hroom
      obtain ⟨hr, h'', -⟩ := hpost.ok hone
      exact ⟨hr, h'.same h'' hl⟩
    · intro hsome
      have hflat : buf.buffers.flatten ≠ [] := by
        obtain ⟨slice, hmem⟩ := List.exists_mem_of_ne_nil _ hsome
        intro hnil
        exact hne slice hmem (List.flatten_eq_nil_iff.mp hnil slice hmem)
      obtain ⟨r, σ'', hone, -⟩ := Returns.exists_ok
        (h.writeAt hl hm (by omega) (h.writeFaults hm (fun hat => hflat hat.1) hbound hroom) hroom)
      exact ⟨r, σ'', hone⟩
  · have hlt := (mgr.inodeAt s.store f).size.toNat_lt
    have hone : Returns ((mgr.inode f).readAt 0 a.bytes.length) [] s.store _ :=
      h.readAt hl hm (by omega)
    obtain ⟨_, σ', hread, rfl, rfl⟩ := hone.exists_ok
    rw [List.drop_zero, List.take_length] at hread
    rw [hsize]
    refine ⟨a.bytes, hread, rfl, ?_⟩
    intro fuel hfuel
    obtain ⟨_, σ'', hall, rfl, rfl⟩ := Returns.exists_ok
      (h.readAllLoop hl hm (Nat.zero_le _) (by omega))
    exact hall

/-- Two slices of one byte, in a new file. -/
theorem split_io_5123 :
    ∃ mgr σ s g tr, (create 5123 1).flat [] (fun _ => Block.zero) = .ok (mgr, σ)
      ∧ Runs (DiskStep mgr 5123) (mgr.start σ) tr s
      ∧ ∃ σ', (OSInode.write mgr ⟨true, true, 0, mgr.inode g⟩ ⟨[[104], [105]]⟩).flat [] s.store
        = .ok ((2, ⟨true, true, 2, mgr.inode g⟩), σ') := by
  obtain ⟨mgr, σ, s, tr, hcreate, hrun, -, ⟨m, h, hm⟩, hroom, -⟩ :=
    log_file_5123 fun _ => Block.zero
  have hsize : (mgr.inodeAt s.store 1).size = 0 := UInt32.toNat_inj.mp (h.size hm).1
  obtain ⟨-, hwrite, -⟩ := split_io (by decide) hcreate hrun (h.used hm) true true
  obtain ⟨σ', hrun', -, -⟩ := hwrite (file_iff.mpr (h.size hm).2) 0 ⟨[[104], [105]]⟩ (by decide)
    (.inl (by decide)) (by decide) (by
      refine Nat.le_trans ?_ hroom
      unfold blocksFor
      rw [hsize]
      decide)
  exact ⟨mgr, σ, s, 1, tr, hcreate, hrun, σ', hrun'⟩

/-- Writing no slices beyond the end of a file leaves it; one write of no bytes
there makes it grow. -/
theorem empty_write_grows :
    ∃ mgr σ s g tr, (create 5123 1).flat [] (fun _ => Block.zero) = .ok (mgr, σ)
      ∧ Runs (DiskStep mgr 5123) (mgr.start σ) tr s ∧ (mgr.inodeAt s.store g).size = 0
      ∧ (OSInode.write mgr ⟨true, true, 5, mgr.inode g⟩ ⟨[]⟩).flat [] s.store
        = .ok ((0, ⟨true, true, 5, mgr.inode g⟩), s.store)
      ∧ ∃ σ', (Inode.writeAt mgr (mgr.inode g) 5 []).flat [] s.store = .ok (0, σ')
        ∧ (mgr.inodeAt σ' g).size = 5 := by
  obtain ⟨mgr, σ, s, tr, hcreate, hrun, -, ⟨m, h, hm⟩, hroom, -⟩ :=
    log_file_5123 fun _ => Block.zero
  have hsize : (mgr.inodeAt s.store 1).size = 0 := UInt32.toNat_inj.mp (h.size hm).1
  have hl : mgr.Layout 5123 1 := (created_of_create (by decide) hcreate).layout
  have hone : blocksFor (mgr.inodeAt s.store 1) (UInt32.ofNat (5 + ([] : List UInt8).length))
      ≤ mgr.room 5123 s.store := by
    refine Nat.le_trans ?_ hroom
    unfold blocksFor
    rw [hsize]
    decide
  have hE : WriteFaults (fun _ => False) mgr 5123 s.store 1 5 [] :=
    h.writeFaults hm (fun hat => absurd hat.2.2 (by decide)) (by decide) hone
  obtain ⟨_, σ', hwrite, rfl, h', -⟩ := Returns.exists_ok (h.writeAt hl hm (by decide) hE hone)
  refine ⟨mgr, σ, s, 1, tr, hcreate, hrun, hsize, rfl, σ', hwrite, ?_⟩
  have hgrown := (h'.size (Function.update_self ..)).1
  exact UInt32.toNat_inj.mp hgrown

end Nimloth
