import Mathlib.Tactic.Common
import Nimloth.Directory

/-!
# Mounted disks

What the calls keep of the directories. Every directory is made of entries
(`DirOk`), whose names are those that it was given; an entry is that of a
file that exists, and never of the root. `Mounted` puts this beside the
ownership of blocks and the contents of files, and `Mounted.run` has it
after every run.
-/

namespace Nimloth

open BlockProg BlockManager

/-- A call that gives no file of a directory a name outside of `P`. -/
def FsEvent.Names (P : Inode → String → Prop) : FsEvent → Prop
  | .create dir name _ _ => P dir name
  | _ => True

/-- An entry of a directory: its name can be stored, its inode exists and is
not that of the root. -/
structure EntryOk (P : String → Prop) (m : AbsFs) (e : String × Nat) : Prop where
  name : P e.1
  fits : (nameBytes e.1).length ≤ 28
  small : e.2 < 2 ^ 32
  used : (m e.2).isSome
  child : e.2 ≠ 0

/-- A directory made of entries. The name of an entry is never what is read
back for an entry before it. -/
structure DirOk (P : String → Prop) (m : AbsFs) (bytes : List UInt8) (es : List (String × Nat)) :
    Prop where
  bytes : bytes = entriesBytes es
  entries : ∀ e ∈ es, EntryOk P m e
  apart : es.Pairwise fun a b => storedName a.1 ≠ some b.1

/-- Every directory is made of entries, and inode 0 is one. -/
structure DirsOk (P : Nat → String → Prop) (m : AbsFs) : Prop where
  entries : ∀ f bytes, m f = some ⟨.dir, bytes⟩ → ∃ es, DirOk (P f) m bytes es
  root : ∃ bytes, m 0 = some ⟨.dir, bytes⟩

section DirsOk

variable {P : String → Prop} {m m' : AbsFs} {bytes : List UInt8} {es : List (String × Nat)} {f g : Nat}

theorem DirOk.fits (h : DirOk P m bytes es) : ∀ e ∈ es, (nameBytes e.1).length ≤ 28 :=
  fun e he => (h.entries e he).fits

theorem DirOk.lookup (h : DirOk P m bytes es) (name : String) :
    lookup bytes name
      = (es.find? fun e => storedName e.1 = some name).map fun e => UInt32.ofNat e.2 := by
  rw [h.bytes]
  exact lookup_entriesBytes h.fits (fun e he => (h.entries e he).small) name

theorem DirOk.lookup_some (h : DirOk P m bytes es) {name : String} {id : UInt32}
    (hid : Nimloth.lookup bytes name = some id) :
    ∃ e ∈ es, storedName e.1 = some name ∧ id.toNat = e.2 := by
  rw [h.lookup] at hid
  obtain ⟨e, he, rfl⟩ := Option.map_eq_some_iff.mp hid
  have hmem := List.mem_of_find?_eq_some he
  have hname := List.find?_some he
  refine ⟨e, hmem, by simpa using hname, ?_⟩
  rw [UInt32.toNat_ofNat', Nat.mod_eq_of_lt (h.entries e hmem).small]

theorem DirOk.mono (h : DirOk P m bytes es) (hm : ∀ g, (m g).isSome → (m' g).isSome) :
    DirOk P m' bytes es where
  bytes := h.bytes
  entries e he :=
    { h.entries e he with used := hm _ (h.entries e he).used }
  apart := h.apart

variable {Ps : Nat → String → Prop}

theorem DirOk.imp {Q : String → Prop} (h : DirOk P m bytes es) (hPQ : ∀ name, P name → Q name) :
    DirOk Q m bytes es where
  bytes := h.bytes
  entries e he :=
    { h.entries e he with name := hPQ _ (h.entries e he).name }
  apart := h.apart

theorem DirOk.empty (P : String → Prop) (m : AbsFs) : DirOk P m [] [] where
  bytes := rfl
  entries _ he := absurd he List.not_mem_nil
  apart := .nil

theorem DirsOk.start (Ps : Nat → String → Prop) : DirsOk Ps AbsFs.start where
  entries f bytes hm := by
    unfold AbsFs.start at hm
    split at hm
    · cases hm
      exact ⟨[], .empty ..⟩
    · cases hm
  root := ⟨[], rfl⟩

theorem DirsOk.linked (h : DirsOk Ps m) : Linked m := by
  intro f bytes hm name id hid
  obtain ⟨es, hes⟩ := h.entries f bytes hm
  obtain ⟨e, he, -, hnat⟩ := hes.lookup_some hid
  rw [hnat]
  exact (hes.entries e he).used

theorem DirsOk.readable (h : DirsOk Ps m) (hP : ∀ f name, Ps f name → storedName name ≠ none) :
    Readable m := by
  intro f bytes hm i hi
  obtain ⟨es, hes⟩ := h.entries f bytes hm
  have hlen := length_entriesBytes hes.fits
  rw [hes.bytes, hlen] at hi
  have hi : i < es.length := by omega
  rw [hes.bytes, nameAt_entriesBytes hes.fits hi]
  exact hP f _ (hes.entries _ (List.getElem_mem hi)).name

theorem isSome_file {bytes' : List UInt8} {k : Nat} (hk : (m k).isSome) :
    (Function.update m f (some ⟨.file, bytes'⟩) k).isSome := by
  by_cases hkf : k = f
  · rw [hkf, Function.update_self]
    rfl
  · rwa [Function.update_of_ne hkf]

section File

variable {old bytes' : List UInt8} (hf : m f = some ⟨.file, old⟩)

include hf

/-- The directories stay as they are when a regular file gets another content. -/
theorem update_file_dir {k : Nat} {b : List UInt8} :
    Function.update m f (some ⟨.file, bytes'⟩) k = some ⟨.dir, b⟩ ↔ m k = some ⟨.dir, b⟩ := by
  by_cases hkf : k = f
  · rw [hkf, Function.update_self, hf]
    simp
  · rw [Function.update_of_ne hkf]

theorem resolve_update_file (names : List String) (k : Nat) :
    resolve (Function.update m f (some ⟨.file, bytes'⟩)) names k = resolve m names k := by
  induction names generalizing k with
  | nil => rfl
  | cons name names ih =>
      rw [resolve, resolve]
      by_cases hkf : k = f
      · rw [hkf, Function.update_self, hf]
      · rw [Function.update_of_ne hkf]
        split
        · split
          · exact ih _
          · rfl
        · rfl

theorem DirsOk.file (h : DirsOk Ps m) : DirsOk Ps (Function.update m f (some ⟨.file, bytes'⟩)) where
  entries g bytes hg := by
    obtain ⟨es, hes⟩ := h.entries g bytes ((update_file_dir hf).mp hg)
    exact ⟨es, hes.mono fun k hk => isSome_file hk⟩
  root := by
    obtain ⟨bytes, hroot⟩ := h.root
    exact ⟨bytes, (update_file_dir hf).mpr hroot⟩

end File

/-- A directory gets one more entry. -/
theorem DirOk.append (h : DirOk P m bytes es) {name : String} (hname : P name)
    (hfits : (nameBytes name).length ≤ 28) (hg : g < 2 ^ 32) (hroot : g ≠ 0)
    (hnew : ¬ Lists bytes name) (hm : ∀ k, (m k).isSome → (m' k).isSome) (hused : (m' g).isSome) :
    DirOk P m' (bytes ++ entryBytes name g) (es ++ [(name, g)]) := by
  have hes := h.mono hm
  refine ⟨?_, ?_, ?_⟩
  · rw [h.bytes]
    unfold entriesBytes
    rw [List.flatMap_append, List.flatMap_singleton]
  · intro e he
    rcases List.mem_append.mp he with he | he
    · exact hes.entries e he
    · rw [List.mem_singleton.mp he]
      exact ⟨hname, hfits, hg, hused, hroot⟩
  · refine List.pairwise_append.mpr ⟨h.apart, List.pairwise_singleton .., ?_⟩
    intro a ha b hb
    rw [List.mem_singleton.mp hb]
    intro heq
    rw [h.bytes, lists_entriesBytes h.fits] at hnew
    exact hnew ⟨a, ha, heq⟩

theorem DirsOk.ne_root (h : DirsOk Ps m) (hfree : m g = none) : g ≠ 0 := by
  rintro rfl
  obtain ⟨bytes, hroot⟩ := h.root
  rw [hfree] at hroot
  cases hroot

section Create

variable {name : String} (type : DiskInodeType) (hfree : m g = none)

include hfree

/-- No file is lost when one is created. -/
theorem isSome_create {k : Nat} (hk : (m k).isSome) :
    (Function.update (Function.update m g (some ⟨type, []⟩)) f
      (some ⟨.dir, bytes ++ entryBytes name g⟩) k).isSome := by
  by_cases hkf : k = f
  · rw [hkf, Function.update_self]
    rfl
  · by_cases hkg : k = g
    · rw [hkg, hfree] at hk
      cases hk
    · rwa [Function.update_of_ne hkf, Function.update_of_ne hkg]

variable (hf : m f = some ⟨.dir, bytes⟩)

include hf

theorem update_create : Function.update (Function.update m g (some ⟨type, []⟩)) f
    (some ⟨.dir, bytes ++ entryBytes name g⟩) g = some ⟨type, []⟩ := by
  have hne : g ≠ f := by
    rintro rfl
    rw [hfree] at hf
    cases hf
  rw [Function.update_of_ne hne, Function.update_self]

/-- The entry of the new file is the last one of directory `f`. -/
theorem DirOk.create (h : DirOk P m bytes es) (hname : P name) (hfits : (nameBytes name).length ≤ 28)
    (hg : g < 2 ^ 32) (hroot : g ≠ 0) (hnew : ¬ Lists bytes name) :
    DirOk P (Function.update (Function.update m g (some ⟨type, []⟩)) f
      (some ⟨.dir, bytes ++ entryBytes name g⟩)) (bytes ++ entryBytes name g)
        (es ++ [(name, g)]) := by
  refine h.append hname hfits hg hroot hnew (fun k hk => isSome_create type hfree hk) ?_
  rw [update_create type hfree hf]
  rfl

theorem DirsOk.create (h : DirsOk Ps m) (hname : Ps f name)
    (hfits : (nameBytes name).length ≤ 28) (hg : g < 2 ^ 32) (hnew : ¬ Lists bytes name) :
    DirsOk Ps (Function.update (Function.update m g (some ⟨type, []⟩)) f
      (some ⟨.dir, bytes ++ entryBytes name g⟩)) where
  entries k bytes' hk := by
    have hroot := h.ne_root hfree
    by_cases hkf : k = f
    · rw [hkf, Function.update_self] at hk
      cases hk
      obtain ⟨es, hes⟩ := h.entries f bytes hf
      rw [hkf]
      exact ⟨_, hes.create type hfree hf hname hfits hg hroot hnew⟩
    · rw [Function.update_of_ne hkf] at hk
      by_cases hkg : k = g
      · rw [hkg, Function.update_self] at hk
        cases hk
        exact ⟨[], .empty ..⟩
      · rw [Function.update_of_ne hkg] at hk
        obtain ⟨es, hes⟩ := h.entries k bytes' hk
        exact ⟨es, hes.mono fun k hk => isSome_create type hfree hk⟩
  root := by
    obtain ⟨bytes', hroot⟩ := h.root
    by_cases hzero : 0 = f
    · rw [hzero, Function.update_self]
      exact ⟨_, rfl⟩
    · rw [Function.update_of_ne hzero, Function.update_of_ne (h.ne_root hfree).symm]
      exact ⟨bytes', hroot⟩

end Create

end DirsOk

namespace BlockManager

/-- The disk holds the files `m`, whose directories have names in `P`. -/
structure Mounted (mgr : BlockManager) (total ibb : Nat) (P : Inode → String → Prop) (σ : Store)
    (m : AbsFs) : Prop where
  inv : mgr.FsInv total ibb σ
  holds : mgr.Holds total σ m
  disk : mgr.OnDisk total σ
  dirs : DirsOk (fun f => P (mgr.inode f)) m

end BlockManager

/-- A call after which every block in use lies on the disk. A write ends in `u32`,
and may have nothing to write. -/
structure RangeStep (mgr : BlockManager) (total : Nat) (s : FsState) (e : FsEvent) (s' : FsState) :
    Prop where
  step : FsStep mgr s e s'
  range : e.InRange
  disk : mgr.OnDisk total s'.store

theorem DiskStep.inRange {mgr : BlockManager} {total : Nat} {s s' : FsState} {e : FsEvent}
    (h : DiskStep mgr total s e s') : RangeStep mgr total s e s' :=
  ⟨h.step, h.fits.inRange, h.disk⟩

/-- A call after which every block in use lies on the disk, and that names its
file in `P`. -/
structure NamedStep (mgr : BlockManager) (total : Nat) (P : Inode → String → Prop) (s : FsState)
    (e : FsEvent) (s' : FsState) : Prop where
  step : DiskStep mgr total s e s'
  names : e.Names P

namespace BlockManager

variable {mgr : BlockManager} {total ibb : Nat} {P : Inode → String → Prop} {σ : Store} {m : AbsFs}

theorem Mounted.imp {Q : Inode → String → Prop} (h : mgr.Mounted total ibb P σ m)
    (hPQ : ∀ dir name, P dir name → Q dir name) : mgr.Mounted total ibb Q σ m where
  inv := h.inv
  holds := h.holds
  disk := h.disk
  dirs :=
    { entries := fun f bytes hm => (h.dirs.entries f bytes hm).imp fun _ hes => hes.imp (hPQ _)
      root := h.dirs.root }

theorem Mounted.created (h : mgr.Created total ibb σ) : mgr.Mounted total ibb P σ AbsFs.start where
  inv := .created h
  holds := .created h
  disk k hk hbit := by
    rw [h.dataBit hk] at hbit
    cases hbit
  dirs := .start _

theorem created_fits {f : Nat} {name : String} {type : DiskInodeType} {ino : Inode} {σ' : Store}
    (hl : mgr.Layout total ibb) (hfit : ibb * 4096 ≤ 2 ^ 32) (hi : mgr.FsInv total ibb σ)
    (hf : mgr.Used σ f)
    (hrun : (Inode.createInode mgr (mgr.inode f) name type).flat [] σ = .ok (some ino, σ')) :
    (nameBytes name).length ≤ 28 := by
  have hfind := ((Inode.findInodeId_within name (mgr.inodeAt σ f)).ensures
    [(mgr.inode f).blockId] σ).mono fun r σ' (heq : σ' = σ) =>
      (⟨heq, trivial⟩ : σ' = σ ∧ (fun _ => True) r)
  obtain ⟨-, -, hfits, -⟩ :=
    (createInode_post hl hfit hi hf (.any mgr total σ f name) fun _ => hfind).ok hrun
  exact hfits

theorem Mounted.step {s s' : FsState} {e : FsEvent} (hl : mgr.Layout total ibb)
    (hfit : ibb * 4096 ≤ 2 ^ 32) (hok : mgr.FsOk total ibb s)
    (h : mgr.Mounted total ibb P s.store m) (hstep : FsStep mgr s e s') (hrange : e.InRange)
    (hdisk : mgr.OnDisk total s'.store) (hnames : e.Names P) :
    mgr.FsOk total ibb s' ∧ ∃ m', mgr.Mounted total ibb P s'.store m' ∧ AbsStep mgr m e m' := by
  have hok' := hok.step hl hfit hstep
  obtain ⟨m', hholds, habs⟩ := h.holds.step hl hfit hok hstep hrange hdisk
  refine ⟨hok', m', ⟨hok'.inv, hholds, hdisk, ?_⟩, habs⟩
  cases habs with
  | @create f g bytes name type hf hfree hnew =>
      have hg : mgr.Used s'.store g := by
        rw [hholds.used_iff]
        by_cases hgf : g = f
        · simp [hgf]
        · simp [Function.update_of_ne hgf]
      have hblocks : mgr.inodeBitmap.blocks = ibb := by rw [hl.inodeBitmap]
      have hlt := hg.1
      have hfits : (nameBytes name).length ≤ 28 := by
        cases hstep with
        | create hdir hrun => exact created_fits hl hfit h.inv (h.holds.stores hf).1 hrun
      exact h.dirs.create type hfree hf hnames hfits (by omega) hnew
  | found => exact h.dirs
  | write hm => exact h.dirs.file hm
  | read => exact h.dirs
  | clear hm => exact h.dirs.file hm

theorem Mounted.run {s : FsState} {tr : List FsEvent} (h : mgr.Created total ibb σ)
    (hfit : ibb * 4096 ≤ 2 ^ 32) (hrun : Runs (NamedStep mgr total P) (mgr.start σ) tr s) :
    mgr.FsOk total ibb s ∧ ∃ m, mgr.Mounted total ibb P s.store m := by
  refine hrun.invariant (I := fun s => mgr.FsOk total ibb s ∧ ∃ m, mgr.Mounted total ibb P s.store m)
    ⟨.created h, _, .created h⟩ ?_
  rintro s e s' ⟨hok, m, hm⟩ hs
  obtain ⟨hok', m', hm', -⟩ :=
    hm.step h.layout hfit hok hs.step.step hs.step.fits.inRange hs.step.disk hs.names
  exact ⟨hok', m', hm'⟩

theorem Mounted.runInRange {s : FsState} {tr : List FsEvent} (h : mgr.Created total ibb σ)
    (hfit : ibb * 4096 ≤ 2 ^ 32) (hrun : Runs (RangeStep mgr total) (mgr.start σ) tr s) :
    mgr.FsOk total ibb s ∧ ∃ m, mgr.Mounted total ibb (fun _ _ => True) s.store m := by
  refine hrun.invariant
    (I := fun s => mgr.FsOk total ibb s ∧ ∃ m, mgr.Mounted total ibb (fun _ _ => True) s.store m)
    ⟨.created h, _, .created h⟩ ?_
  rintro s e s' ⟨hok, m, hm⟩ hs
  have hnames : e.Names fun _ _ => True := by
    cases e <;> trivial
  obtain ⟨hok', m', hm', -⟩ := hm.step h.layout hfit hok hs.step hs.range hs.disk hnames
  exact ⟨hok', m', hm'⟩

end BlockManager

end Nimloth
