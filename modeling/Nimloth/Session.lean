import Mathlib.Tactic.Common
import Nimloth.DirectoryLaw

/-!
# Sessions

A run goes on as long as the disk has room: a directory takes a name that it
does not list, and a file is written or emptied. A `Session` is a run
with the files that it leaves and a number of blocks that are still free,
and there is a rule for each call. `two_files_5123` is the run of the
examples further on: one file is written behind its end, and grows again
after the other one has given its block back.
-/

namespace Nimloth

open BlockProg BlockManager

/-- The files after a call depend on the call alone. -/
theorem AbsStep.deterministic {mgr : BlockManager} {m m₁ m₂ : AbsFs} {e e' : FsEvent}
    (h₁ : AbsStep mgr m e m₁) (h₂ : AbsStep mgr m e' m₂) (he : e = e') : m₁ = m₂ := by
  cases h₁ with
  | create hm₁ =>
      cases h₂ with
      | create hm₂ =>
          injection he with hf hname htype hg
          obtain rfl := inode_inj hf
          obtain rfl := inode_inj (Option.some.inj hg)
          rw [hm₁] at hm₂
          cases hm₂
          rw [hname, htype]
      | found =>
          injection he with _ _ _ hr
          cases hr
      | _ => cases he
  | found =>
      cases h₂ with
      | create =>
          injection he with _ _ _ hr
          cases hr
      | found => rfl
      | _ => cases he
  | write hm₁ =>
      cases h₂ with
      | write hm₂ =>
          injection he with hf hoffset hbuf _
          obtain rfl := inode_inj hf
          rw [hm₁] at hm₂
          cases hm₂
          rw [hoffset, hbuf]
      | _ => cases he
  | read =>
      cases h₂ with
      | read => rfl
      | _ => cases he
  | clear hm₁ =>
      cases h₂ with
      | clear hm₂ =>
          injection he with hf
          rw [inode_inj hf]
      | _ => cases he

/-- A run from a new disk, the files that it leaves, and a number of blocks that
are free then. -/
structure Session (mgr : BlockManager) (total ibb : Nat) (σ : Store) (tr : List FsEvent)
    (s : FsState) (m : AbsFs) (free : Nat) : Prop where
  run : Runs (DiskStep mgr total) (mgr.start σ) tr s
  abs : Runs (AbsStep mgr) AbsFs.start tr m
  mounted : mgr.Mounted total ibb (fun _ => PlainName) s.store m
  handles : ∀ f, (m f).isSome → mgr.inode f ∈ s.handles
  files : ∃ files : List Nat, files.length ≤ tr.length + 1 ∧ ∀ g, (m g).isSome → g ∈ files
  room : free ≤ mgr.room total s.store

namespace Session

variable {mgr : BlockManager} {total ibb : Nat} {σ : Store} {tr : List FsEvent} {s : FsState}
  {m : AbsFs} {f free : Nat} {bytes : List UInt8}

theorem start (h : mgr.Created total ibb σ) (hbits : free ≤ mgr.dataBitmap.blocks * 4096)
    (hdisk : mgr.dataAreaStartBlock + free ≤ total) :
    Session mgr total ibb σ [] (mgr.start σ) AbsFs.start free where
  run := .nil _
  abs := .nil _
  mounted := .created h
  handles f hf := by
    unfold AbsFs.start at hf
    split at hf
    · next hzero =>
        rw [hzero]
        exact List.mem_singleton_self _
    · cases hf
  files := by
    refine ⟨[0], Nat.le_refl 1, ?_⟩
    intro g hg
    unfold AbsFs.start at hg
    split at hg
    · next hzero => exact List.mem_singleton.mpr hzero
    · cases hg
  room := h.le_room hbits hdisk

/-- A directory of less than a block gets a file of a name that it does not list. -/
theorem create (h : Session mgr total ibb σ tr s m (free + 1)) (hl : mgr.Layout total ibb)
    (hfit : ibb * 4096 ≤ 2 ^ 32) (hm : m f = some ⟨.dir, bytes⟩) {es : List (String × Nat)}
    (hes : DirOk PlainName m bytes es) (hsmall : es.length < 16) {name : String}
    (hname : PlainName name) (hnew : name ∉ es.map Prod.fst) (hcount : tr.length + 1 < ibb * 4096)
    (type : DiskInodeType) :
    ∃ g s' m', Session mgr total ibb σ
        (tr ++ [.create (mgr.inode f) name type (some (mgr.inode g))]) s' m' free
      ∧ g ≠ 0 ∧ m g = none ∧ m' g = some ⟨type, []⟩ ∧ (∀ k, k ≠ f → k ≠ g → m' k = m k)
      ∧ ∃ bytes', m' f = some ⟨.dir, bytes'⟩ ∧ DirOk PlainName m' bytes' (es ++ [(name, g)]) := by
  obtain ⟨files, hlen, hfiles⟩ := h.files
  obtain ⟨hsize, htype⟩ := h.mounted.size hm
  have hbytes := length_entriesBytes hes.fits
  rw [← hes.bytes] at hbytes
  have hnew' : ¬ Lists bytes name := mt hes.lists.mp hnew
  have hlong := hname.length
  have hroom := h.room
  have hone : fileBlocks 512 = 1 := by decide
  have hblock := @fileBlocks_mono (bytes.length / 32 * 32 + 32) 512 (by omega)
  have hneed := @blocksFor_eq (mgr.inodeAt s.store f) bytes.length
    (bytes.length / 32 * 32 + 32) (by omega) hsize
  have hbound : bytes.length / 32 * 32 + 32 ≤ 16539 * 512 := by omega
  rw [← hsize] at hblock hneed hbound
  have hacc : mgr.Accepts total s.store f :=
    ⟨h.mounted.exists_free hl files hfiles (by omega), hbound, by omega⟩
  obtain ⟨r, σ', hrun, hr⟩ := Returns.exists_ok (h.mounted.createInode hl hfit hm hname type
    (hacc.faults (dir_iff.mpr htype) fun hlt => by omega)
    (fun i hi hnone => hes.nameAt_ne_none hi hnone) hacc.room)
  cases r with
  | none => exact absurd hr.2 hnew'
  | some ino =>
      obtain ⟨-, g, rfl, hfree, hg, -, h', hroom'⟩ := hr
      have hstep : DiskStep mgr total s (.create (mgr.inode f) name type (some (mgr.inode g))) _ :=
        ⟨.create (h.handles f (by rw [hm]; rfl)) hrun, trivial, h'.disk⟩
      have hroot := h.mounted.dirs.ne_root hfree
      refine ⟨g, _, _, ⟨h.run.snoc hstep, h.abs.snoc (.create hm hfree hnew'), h', ?_, ?_, ?_⟩,
        hroot, hfree, update_create type hfree hm, ?_, _, Function.update_self ..,
        hes.create type hfree hm hname (by omega) hg hroot hnew'⟩
      · intro k hk
        by_cases hkg : k = g
        · rw [hkg]
          exact List.mem_cons_self
        · refine List.mem_cons_of_mem _ (h.handles k ?_)
          by_cases hkf : k = f
          · rw [hkf, hm]
            rfl
          · rwa [Function.update_of_ne hkf, Function.update_of_ne hkg] at hk
      · refine ⟨g :: files, by simp only [List.length_cons, List.length_append]; omega, ?_⟩
        intro k hk
        by_cases hkg : k = g
        · rw [hkg]
          exact List.mem_cons_self
        · refine List.mem_cons_of_mem _ (hfiles k ?_)
          by_cases hkf : k = f
          · rw [hkf, hm]
            rfl
          · rwa [Function.update_of_ne hkf, Function.update_of_ne hkg] at hk
      · show free ≤ mgr.room total σ'
        omega
      · intro k hkf hkg
        rw [Function.update_of_ne hkf, Function.update_of_ne hkg]

section File

variable (hm : m f = some ⟨.file, bytes⟩)

include hm

/-- A file changes, and no other file does. -/
theorem file {s' : FsState} {e : FsEvent} {bytes' : List UInt8} {free' : Nat}
    (h : Session mgr total ibb σ tr s m free) (hstep : FsStep mgr s e s') (hfits : e.Fits)
    (habs : AbsStep mgr m e (Function.update m f (some ⟨.file, bytes'⟩)))
    (h' : mgr.Mounted total ibb (fun _ => PlainName) s'.store
      (Function.update m f (some ⟨.file, bytes'⟩))) (hhandles : s'.handles = s.handles)
    (hroom : free' ≤ mgr.room total s'.store) :
    Session mgr total ibb σ (tr ++ [e]) s' (Function.update m f (some ⟨.file, bytes'⟩)) free' := by
  have hsome : ∀ k, (Function.update m f (some ⟨.file, bytes'⟩) k).isSome → (m k).isSome := by
    intro k hk
    by_cases hkf : k = f
    · rw [hkf, hm]
      rfl
    · rwa [Function.update_of_ne hkf] at hk
  obtain ⟨files, hlen, hfiles⟩ := h.files
  refine ⟨h.run.snoc ⟨hstep, hfits, h'.disk⟩, h.abs.snoc habs, h', ?_, ⟨files, ?_, ?_⟩, hroom⟩
  · intro k hk
    rw [hhandles]
    exact h.handles k (hsome k hk)
  · rw [List.length_append, List.length_singleton]
    omega
  · intro k hk
    exact hfiles k (hsome k hk)

/-- A file is written; no index block is needed up to 27 blocks. -/
theorem write (n : Nat) (h : Session mgr total ibb σ tr s m (free + n)) (hl : mgr.Layout total ibb)
    (offset : Nat) {buf : List UInt8} (hne : buf ≠ []) (hend : offset + buf.length ≤ 512 * n)
    (hn : n ≤ 27) :
    ∃ s', Session mgr total ibb σ (tr ++ [.write (mgr.inode f) offset buf buf.length]) s'
      (Function.update m f (some ⟨.file, overwrite bytes offset buf⟩)) free := by
  have hroom := h.room
  have hbound : offset + buf.length ≤ 16539 * 512 := by omega
  have hn' : fileBlocks (512 * n) = n := by
    unfold fileBlocks
    rw [show (512 * n + 511) / 512 = n by omega]
    have hcases := blocksWithIndex_cases n
    omega
  have hblock := fileBlocks_mono hend
  have hneed := @blocksFor_eq (mgr.inodeAt s.store f) bytes.length (offset + buf.length)
    (by omega) (h.mounted.size hm).1
  have henough : blocksFor (mgr.inodeAt s.store f) (UInt32.ofNat (offset + buf.length))
      ≤ mgr.room total s.store := by omega
  obtain ⟨_, σ', hrun, rfl, h', hroom'⟩ := Returns.exists_ok
    (h.mounted.writeAt hl hm (by omega)
      (h.mounted.writeFaults hm (fun hat => hne hat.1) hbound henough) henough)
  refine ⟨⟨σ', s.handles⟩, h.file hm (.write (h.handles f (by rw [hm]; rfl)) hrun)
    ⟨hne, by omega⟩ (.write hm) h' rfl ?_⟩
  show free ≤ mgr.room total σ'
  omega

/-- A file is emptied, and gives back its blocks. -/
theorem clear (h : Session mgr total ibb σ tr s m free) (hl : mgr.Layout total ibb) :
    ∃ s', Session mgr total ibb σ (tr ++ [.clear (mgr.inode f)]) s'
      (Function.update m f (some ⟨.file, []⟩)) free := by
  obtain ⟨_, σ', hrun, h', hroom⟩ := Returns.exists_ok (h.mounted.clear hl hm)
  exact ⟨⟨σ', s.handles⟩, h.file hm (.clear (h.handles f (by rw [hm]; rfl)) hrun) trivial
    (.clear hm) h' rfl (h.room.trans hroom)⟩

end File

end Session

/-- The calls of `two_files_5123`. -/
def twoFiles (mgr : BlockManager) (a b : Inode) : List FsEvent :=
  [.create (mgr.inode 0) "a" .file (some a), .create (mgr.inode 0) "b" .file (some b),
    .write a 0 [1, 2, 3] 3, .write b 600 [9] 1, .clear a, .write b 1500 [7] 1]

/-- Two files. The second one gets its first byte behind its end, and grows when the
first one has been emptied. -/
theorem two_files_5123 :
    ∃ mgr σ s m a b, (create 5123 1).flat [] (fun _ => Block.zero) = .ok (mgr, σ)
      ∧ mgr.Layout 5123 1 ∧ Session mgr 5123 1 σ (twoFiles mgr (mgr.inode a) (mgr.inode b)) s m 4088
      ∧ (∃ bytes, m 0 = some ⟨.dir, bytes⟩ ∧ DirOk PlainName m bytes [("a", a), ("b", b)])
      ∧ m a = some ⟨.file, []⟩ ∧ ∃ bytes, m b = some ⟨.file, bytes⟩ ∧ bytes.length = 1501
        ∧ (bytes.drop 598).take 4 = [0, 0, 9, 0] ∧ (bytes.drop 1498).take 8 = [0, 0, 7] := by
  obtain ⟨mgr, σ, hcreate, hc⟩ := @create_returns 5123 1 (by decide) (by decide) (by decide)
    fun _ => Block.zero
  have hl : mgr.Layout 5123 1 := hc.layout
  have hblocks : mgr.dataBitmap.blocks = 1 := by rw [hl.dataBitmap]
  have harea := hl.dataArea
  have h₀ : Session mgr 5123 1 σ [] (mgr.start σ) AbsFs.start 4096 :=
    .start hc (by omega) (by omega)
  obtain ⟨a, s₁, m₁, h₁, hroot₁, -, ha₁, -, bytes₁, hm₁, hes₁⟩ := h₀.create hl (by decide)
    (show AbsFs.start 0 = _ from rfl) (.empty ..) (by decide) (show PlainName "a" by decide)
    List.not_mem_nil (by decide) .file
  obtain ⟨b, s₂, m₂, h₂, hroot₂, hfree₂, hb₂, hold₂, bytes₂, hm₂, hes₂⟩ := h₁.create hl (by decide)
    hm₁ hes₁ (by simp) (show PlainName "b" by decide) (by simp) (by simp) .file
  have hne : a ≠ b := by
    rintro rfl
    rw [ha₁] at hfree₂
    cases hfree₂
  have ha₂ := (hold₂ a hroot₁ hne).trans ha₁
  obtain ⟨s₃, h₃⟩ := h₂.write ha₂ 1 hl 0 (List.cons_ne_nil 1 [2, 3]) (by decide) (by decide)
  obtain ⟨s₄, h₄⟩ := h₃.write ((Function.update_of_ne hne.symm ..).trans hb₂) 2 hl 600
    (List.cons_ne_nil 9 []) (by decide) (by decide)
  obtain ⟨s₅, h₅⟩ := h₄.clear ((Function.update_of_ne hne ..).trans (Function.update_self ..)) hl
  obtain ⟨s₆, h₆⟩ := h₅.write ((Function.update_of_ne hne.symm ..).trans (Function.update_self ..)) 3
    hl 1500 (List.cons_ne_nil 7 []) (by decide) (by decide)
  refine ⟨mgr, σ, s₆, _, a, b, hcreate, hl, h₆, ⟨bytes₂, ?_, ?_⟩, ?_, _, Function.update_self ..,
    ?_, by decide +kernel, by decide +kernel⟩
  · rw [Function.update_of_ne hroot₂.symm, Function.update_of_ne hroot₁.symm,
      Function.update_of_ne hroot₂.symm, Function.update_of_ne hroot₁.symm, hm₂]
  · exact hes₂.mono fun _ hk => isSome_file (isSome_file (isSome_file (isSome_file hk)))
  · rw [Function.update_of_ne hne, Function.update_self]
  · rw [overwrite_length, overwrite_length]
    rfl

end Nimloth
