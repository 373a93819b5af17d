import Mathlib.Tactic.Common
import Nimloth.FileCalls

/-!
# The directory law

A directory is a list of names, each with its file. `create_inode` appends
to the list, or refuses a name that is on it, and a lookup finds what was
created under the name. The names are those that a lookup of one path
component can ask for, and that fit an entry with a NUL behind them.
-/

namespace Nimloth

open BlockProg BlockManager

/-- A name of one path component that fits an entry and can be read back. -/
structure PlainName (name : String) : Prop where
  ne : name ≠ ""
  length : (nameBytes name).length ≤ 27
  slash : '/' ∉ name.toList
  nul : '\x00' ∉ name.toList

instance (name : String) : Decidable (PlainName name) :=
  decidable_of_iff (name ≠ "" ∧ (nameBytes name).length ≤ 27 ∧ '/' ∉ name.toList
    ∧ '\x00' ∉ name.toList) ⟨fun ⟨h₁, h₂, h₃, h₄⟩ => ⟨h₁, h₂, h₃, h₄⟩,
      fun h => ⟨h.ne, h.length, h.slash, h.nul⟩⟩

theorem PlainName.stored {name : String} (h : PlainName name) : storedName name = some name :=
  storedName_of_no_nul (Nat.lt_succ_of_le h.length) h.nul

theorem PlainName.components {name : String} (h : PlainName name) : components name = [name] := by
  rw [components_of_no_slash h.slash, if_neg h.ne]

/-- An inode is free, and directory `f` has a place for one more entry. -/
structure BlockManager.Accepts (mgr : BlockManager) (total : Nat) (σ : Store) (f : Nat) : Prop where
  inode : ∃ g, g < mgr.inodeBitmap.blocks * 4096 ∧ mgr.inodeBitmap.bit σ g = false
  size : (mgr.inodeAt σ f).size.toNat / 32 * 32 + 32 ≤ INDIRECT2_BOUND * BLOCK_SZ
  room : blocksFor (mgr.inodeAt σ f)
    (UInt32.ofNat ((mgr.inodeAt σ f).size.toNat / 32 * 32 + 32)) ≤ mgr.room total σ

namespace BlockManager

variable {mgr : BlockManager} {total ibb : Nat} {σ : Store} {f : Nat}

/-- Nothing goes wrong in a directory that accepts an entry. -/
theorem Accepts.faults {E : FsErr → Prop} {name : String} (h : mgr.Accepts total σ f)
    (hdir : (mgr.inodeAt σ f).dir = true) (hname : 28 < (nameBytes name).length → E .panic) :
    CreateFaults E mgr total σ f name := by
  have hsize : (mgr.inodeAt σ f).size.toNat / 32 * 32 + 32 ≤ 16539 * 512 := h.size
  refine ⟨⟨hname, fun hlt => absurd hsize (by omega),
    fun hlt => absurd h.room (Nat.not_le.mpr hlt)⟩, ?_, ?_⟩
  · intro hfalse
    rw [hdir] at hfalse
    cases hfalse
  · intro hall
    obtain ⟨g, hg, hclear⟩ := h.inode
    rw [hall g hg] at hclear
    cases hclear

theorem Created.inodeAt_root (h : mgr.Created total ibb σ) : mgr.inodeAt σ 0 = DiskInode.init .dir := by
  have hroot := h.root
  rwa [← h.layout.inodeArea] at hroot

theorem Created.le_room (h : mgr.Created total ibb σ) {n : Nat}
    (hbits : n ≤ mgr.dataBitmap.blocks * 4096) (hdisk : mgr.dataAreaStartBlock + n ≤ total) :
    n ≤ mgr.room total σ := by
  have hsub : Finset.range n ⊆ mgr.freeBlocks total σ := by
    intro k hk
    have hk := Finset.mem_range.mp hk
    exact mem_freeBlocks.mpr ⟨by omega, h.dataBit (by omega), by omega⟩
  have hcard := Finset.card_le_card hsub
  rwa [Finset.card_range] at hcard

/-- The root directory of a created disk with a data block accepts an entry. -/
theorem Created.accepts (h : mgr.Created total ibb σ) (hdata : ibb * 1025 + 3 ≤ total) :
    mgr.Accepts total σ 0 := by
  have hpos := h.pos
  have hblocks : mgr.inodeBitmap.blocks = ibb := by rw [h.layout.inodeBitmap]
  have hdatablocks : mgr.dataBitmap.blocks = (total - 1 - ibb * 1025 + 4096) / 4097 := by
    rw [h.layout.dataBitmap]
  have harea := h.layout.dataArea
  have hroom : 1 ≤ mgr.room total σ := h.le_room (by omega) (by omega)
  refine ⟨⟨1, by omega, ?_⟩, ?_, ?_⟩
  · rw [h.inode 1 (by omega)]
    rfl
  · rw [h.inodeAt_root]
    decide
  · rw [h.inodeAt_root]
    exact le_trans (by decide) hroom

end BlockManager

/-- A disk with one empty file, `log`. The device goes on behind it. -/
theorem log_file_5123 (σ₀ : Store) :
    ∃ mgr σ s tr, (create 5123 1).flat [] σ₀ = .ok (mgr, σ)
      ∧ Runs (DiskStep mgr 5123) (mgr.start σ) tr s ∧ mgr.inode 1 ∈ s.handles
      ∧ (∃ m, mgr.Mounted 5123 1 (fun _ _ => True) s.store m ∧ m 1 = some ⟨.file, []⟩)
      ∧ 4095 ≤ mgr.room 5123 s.store ∧ mgr.inodeAt s.store 1 = DiskInode.init .file
      ∧ ∀ b, 5123 ≤ b → s.store b = σ₀ b := by
  obtain ⟨mgr, σ, hcreate, hc⟩ := @create_returns 5123 1 (by decide) (by decide) (by decide) σ₀
  have hl : mgr.Layout 5123 1 := hc.layout
  have h : mgr.Mounted 5123 1 (fun _ _ => True) σ AbsFs.start := .created hc
  have hroot : AbsFs.start 0 = some ⟨.dir, []⟩ := rfl
  have hacc : mgr.Accepts 5123 σ 0 := hc.accepts (by decide)
  have hfaults : CreateFaults (fun _ => False) mgr 5123 σ 0 "log" :=
    hacc.faults (dir_iff.mpr (h.size hroot).2) fun hlt => absurd hlt (by decide)
  have hnone : ∀ i, i < 0 / 32 → nameAt [] i = none → False := nofun
  obtain ⟨r, σ', hrun, hr⟩ := Returns.exists_ok
    (h.createInode hl (by decide) hroot trivial .file hfaults hnone hacc.room)
  cases r with
  | none =>
      obtain ⟨i, hi, -⟩ := hr.2
      cases hi
  | some ino =>
      obtain ⟨-, g, rfl, hfree, -, -, h', hroom⟩ := hr
      have hf := h.used hroot
      have hfind := findInodeId_ensures (h.inv.bound 0 hf) (ownedBy_not_held hl h.inv hf)
        (h.holds.stores hroot).2.1 "log"
      obtain ⟨-, -, -, g', σ₁, v, σ₂, d', heq, hborn, hover, rfl, -⟩ :=
        (createInode_post hl (by decide) h.inv hf (.any mgr 5123 σ 0 "log") fun _ => hfind).ok hrun
      obtain rfl := inode_inj heq
      have hi₁ := h.inv.born hl hborn
      have hf₁ := (hborn.used 0).mpr (.inr hf)
      have hblocks : mgr.dataBitmap.blocks = 1 := by rw [hl.dataBitmap]
      have hstart : mgr.dataBitmap.startBlockId = 1026 := by rw [hl.dataBitmap]
      have harea : mgr.dataAreaStartBlock = 1027 := by rw [hl.dataArea, hblocks]
      have hg : g = 1 := by
        have hbit := hc.inode 1 (by decide)
        by_contra hne
        rcases Nat.lt_or_gt_of_ne hne with hlt | hgt
        · obtain rfl : g = 0 := by omega
          exact hborn.free hf
        · rw [(hborn.first 1 hgt).2] at hbit
          cases hbit
      subst hg
      have hstep : FsStep mgr (mgr.start σ) _ _ := .create (List.mem_singleton_self _) hrun
      have hfull : 4096 ≤ mgr.room 5123 σ := hc.le_room (by omega) (by rw [harea]; decide)
      have hone : blocksFor (mgr.inodeAt σ 0)
          (UInt32.ofNat ((mgr.inodeAt σ 0).size.toNat / 32 * 32 + 32)) = 1 := by
        rw [hc.inodeAt_root]
        decide
      refine ⟨mgr, σ, _, _, hcreate, .single ⟨hstep, trivial, h'.disk⟩, List.mem_cons_self,
        ⟨_, h', update_create .file hfree hroot⟩, ?_, ?_, ?_⟩
      · show 4095 ≤ mgr.room 5123 (mgr.putInode σ₁ 0 σ₂ d')
        omega
      · have hlt := ((hborn.used 1).mpr (.inl rfl)).1
        rw [(hover.changed hl hi₁ hf₁).1.inode 1 hlt (by decide), hborn.inode 1 hlt, if_pos rfl]
      · intro b hb
        have hlt := (hl.inode_lt hf.1).2
        show mgr.putInode σ₁ 0 σ₂ d' b = σ₀ b
        rw [putInode_of_ne _ (by omega), hover.extended.frame b (by omega), hborn.frame b (by omega),
          create_frame (by decide) hcreate hb]
        intro x hx
        rcases List.mem_append.mp hx with hx | hx
        · have hin := ((hi₁.fileOk hf₁).area x hx).2
          omega
        · have hin := (hover.extended.area x hx).2
          omega

section Names

variable {P : String → Prop} {m m' : AbsFs} {bytes : List UInt8} {es : List (String × Nat)}
  {name : String} {g : Nat}

theorem DirOk.names_eq (h : DirOk P m bytes es) :
    namesOf bytes = es.filterMap fun e => storedName e.1 := by
  rw [h.bytes, namesOf_entriesBytes h.fits]

theorem DirOk.names_plain (h : DirOk PlainName m bytes es) : namesOf bytes = es.map Prod.fst := by
  rw [h.names_eq, List.filterMap_congr fun e he => (h.entries e he).name.stored,
    ← List.filterMap_eq_map]
  rfl

theorem DirOk.nodup (h : DirOk PlainName m bytes es) : (es.map Prod.fst).Nodup := by
  refine List.pairwise_map.mpr (h.apart.imp_of_mem ?_)
  intro a b ha _ hne heq
  rw [(h.entries a ha).name.stored, heq] at hne
  exact hne rfl

theorem DirOk.lists (h : DirOk PlainName m bytes es) : Lists bytes name ↔ name ∈ es.map Prod.fst := by
  rw [h.bytes, lists_entriesBytes h.fits, List.mem_map]
  refine exists_congr fun e => and_congr_right fun he => ?_
  rw [(h.entries e he).name.stored, Option.some.injEq]

theorem DirOk.nameAt_ne_none (h : DirOk PlainName m bytes es) {i : Nat} (hi : i < bytes.length / 32) :
    nameAt bytes i ≠ none := by
  have hlen := length_entriesBytes h.fits
  rw [h.bytes, hlen] at hi
  have hi : i < es.length := by omega
  rw [h.bytes, nameAt_entriesBytes h.fits hi, (h.entries _ (List.getElem_mem hi)).name.stored]
  simp

/-- The name of an entry leads to its file. -/
theorem DirOk.resolve (h : DirOk PlainName m bytes es) {f : Nat} (hm : m f = some ⟨.dir, bytes⟩)
    {e : String × Nat} (he : e ∈ es) : resolve m (components e.1) f = some e.2 := by
  have hmem : e.1 ∈ es.map Prod.fst := List.mem_map_of_mem he
  obtain ⟨id, hid⟩ := Option.isSome_iff_exists.mp (lookup_isSome.mpr (h.lists.mpr hmem))
  obtain ⟨e', he', hstored, hnat⟩ := h.lookup_some hid
  rw [(h.entries e' he').name.stored, Option.some.injEq] at hstored
  obtain rfl := List.inj_on_of_nodup_map h.nodup he' he hstored
  rw [(h.entries e' he).name.components, Nimloth.resolve, hm]
  dsimp only
  rw [hid]
  dsimp only
  rw [Nimloth.resolve, hnat]

/-- Looking up a name after an entry has been appended. -/
theorem DirOk.lookup_append (h : DirOk P m bytes es)
    (h' : DirOk P m' (bytes ++ entryBytes name g) (es ++ [(name, g)])) (other : String) :
    Nimloth.lookup (bytes ++ entryBytes name g) other
      = (Nimloth.lookup bytes other).or
        (if storedName name = some other then some (UInt32.ofNat g) else none) := by
  rw [h'.lookup, h.lookup, List.find?_append, Option.map_or]
  congr 1
  by_cases hname : storedName name = some other
  · rw [if_pos hname, List.find?_cons_of_pos (by simpa using hname)]
    rfl
  · rw [if_neg hname, List.find?_cons_of_neg (by simpa using hname)]
    rfl

/-- After `create` the name leads to the new file, and no other name leads
anywhere else than before. -/
theorem resolve_created {f : Nat} (hm : m f = some ⟨.dir, bytes⟩) (h : DirOk P m bytes es)
    (hm' : m' f = some ⟨.dir, bytes ++ entryBytes name g⟩)
    (h' : DirOk P m' (bytes ++ entryBytes name g) (es ++ [(name, g)])) (hname : PlainName name)
    (hnew : ¬ Lists bytes name) :
    resolve m' (components name) f = some g ∧ ∀ other, '/' ∉ other.toList → other ≠ name →
      resolve m' (components other) f = resolve m (components other) f := by
  have hentry := h'.entries (name, g) (List.mem_append_right _ (List.mem_singleton_self _))
  have hstored := hname.stored
  have hfree : lookup bytes name = none := by
    rw [← Option.not_isSome_iff_eq_none, lookup_isSome]
    exact hnew
  refine ⟨?_, ?_⟩
  · have hg : (UInt32.ofNat g).toNat = g := by
      rw [UInt32.toNat_ofNat', Nat.mod_eq_of_lt hentry.small]
    rw [hname.components, resolve, hm']
    dsimp only
    rw [h.lookup_append h', hfree, if_pos hstored, Option.none_or]
    dsimp only
    rw [resolve, hg]
  · intro other hslash hne
    rw [components_of_no_slash hslash]
    split
    · rfl
    · have hother : ¬ storedName name = some other := by
        rw [hstored, Option.some.injEq]
        exact Ne.symm hne
      rw [resolve, resolve, hm, hm']
      dsimp only
      rw [h.lookup_append h', if_neg hother, Option.or_none]
      split
      · rfl
      · rfl

end Names

namespace BlockManager

variable {mgr : BlockManager} {total ibb : Nat} {P : Inode → String → Prop} {σ : Store} {m : AbsFs}
  {f : Nat} {bytes : List UInt8} {es : List (String × Nat)}

theorem Mounted.ls (h : mgr.Mounted total ibb P σ m) (hl : mgr.Layout total ibb)
    (hm : m f = some ⟨.dir, bytes⟩) (hread : ∀ i, i < bytes.length / 32 → nameAt bytes i ≠ none) :
    (mgr.inode f).ls.flat [] σ = .ok (namesOf bytes, σ) := by
  obtain ⟨r, σ', hls, rfl, rfl, -⟩ :=
    Returns.exists_ok (ls_post hl h.inv h.holds (h.used hm) hm hread)
  exact hls

/-- A new entry that can be read back is listed after the others. -/
theorem Mounted.ls_created (h : mgr.Mounted total ibb P σ m) (hl : mgr.Layout total ibb)
    (hm : m f = some ⟨.dir, bytes⟩) (hread : ∀ i, i < bytes.length / 32 → nameAt bytes i ≠ none)
    {type : DiskInodeType} {g : Nat} {name listed : String} {σ' : Store} (hname : P (mgr.inode f) name)
    (hstored : storedName name = some listed) (hfree : m g = none) (hg : g < 2 ^ 32)
    (hfits : (nameBytes name).length ≤ 28) (hnew : ¬ Lists bytes name)
    (h' : mgr.Mounted total ibb P σ' (Function.update (Function.update m g (some ⟨type, []⟩)) f
      (some ⟨.dir, bytes ++ entryBytes name g⟩))) :
    (mgr.inode f).ls.flat [] σ' = .ok (namesOf bytes ++ [listed], σ') := by
  obtain ⟨es, hes⟩ := h.dirs.entries f bytes hm
  have hes' := hes.create type hfree hm hname hfits hg (h.dirs.ne_root hfree) hnew
  have hcount := length_entriesBytes hes.fits
  have hcount' := length_entriesBytes hes'.fits
  rw [← hes.bytes] at hcount
  rw [← hes'.bytes] at hcount'
  have hconcat : (es ++ [(name, g)]).length = es.length + 1 := List.length_append
  have hread' : ∀ i, i < (bytes ++ entryBytes name g).length / 32 →
      nameAt (bytes ++ entryBytes name g) i ≠ none := by
    intro i hi
    rw [hes'.bytes, nameAt_entriesBytes hes'.fits (by omega)]
    by_cases hlast : i < es.length
    · rw [List.getElem_append_left hlast, ← nameAt_entriesBytes hes.fits hlast, ← hes.bytes]
      exact hread i (by omega)
    · obtain rfl : i = es.length := by omega
      rw [List.getElem_concat_length rfl, hstored]
      exact Option.some_ne_none _
  have hlast : [(name, g)].filterMap (fun e => storedName e.1) = [listed] :=
    List.filterMap_cons_some hstored
  rw [h'.ls hl (Function.update_self ..) hread', hes'.names_eq, hes.names_eq,
    List.filterMap_append, hlast]

section Plain

variable (h : mgr.Mounted total ibb P σ m) (hl : mgr.Layout total ibb)
  (hm : m f = some ⟨.dir, bytes⟩) (hes : DirOk PlainName m bytes es)

include h hl hm hes

theorem Mounted.ls_plain : (mgr.inode f).ls.flat [] σ = .ok (es.map Prod.fst, σ) := by
  rw [h.ls hl hm fun i hi => hes.nameAt_ne_none hi, hes.names_plain]

/-- A path of at most one component is looked up in the directory alone. -/
theorem Mounted.find_plain {name : String} (hslash : '/' ∉ name.toList) :
    (Inode.find mgr (mgr.inode f) name).flat [] σ
      = .ok ((resolve m (components name) f).map mgr.inode, σ) := by
  have hlen : (components name).length ≤ 1 := by
    rw [components_of_no_slash hslash]
    split <;> simp
  have hread : ∀ k g bytes', k < (components name).length →
      resolve m ((components name).take k) f = some g → m g = some ⟨.dir, bytes'⟩ →
        ∀ i, i < bytes'.length / 32 → nameAt bytes' i = none → False := by
    intro k g bytes' hk hg hm' i hi hnone
    obtain rfl : k = 0 := by omega
    obtain rfl : f = g := Option.some.inj hg
    obtain rfl : bytes' = bytes := by
      rw [hm] at hm'
      cases hm'
      rfl
    exact hes.nameAt_ne_none hi hnone
  obtain ⟨r, σ', hfind, rfl, rfl⟩ := Returns.exists_ok (findFrom_post hl h.inv h.holds
    h.dirs.linked (f := f) (by rw [hm]; rfl) (components name) hread)
  exact hfind

end Plain

end BlockManager

/-- Whatever is done elsewhere, as long as directory `f` gets plain names only:
`ls` lists distinct names; `create` refuses exactly those, and otherwise
appends its name, under which `find` then finds the new file, and all others
as before. -/
theorem directory_law {total ibb : UInt32} {mgr : BlockManager} {σ₀ σ : Store} {f : Nat}
    {tr : List FsEvent} {s : FsState} (hfit : ibb.toNat * 4096 ≤ 2 ^ 32)
    (hcreate : (create total ibb).flat [] σ₀ = .ok (mgr, σ))
    (hrun : Runs (NamedStep mgr total.toNat fun dir name => dir = mgr.inode f → PlainName name)
      (mgr.start σ) tr s)
    (hf : mgr.Used s.store f) (hdir : (mgr.inodeAt s.store f).dir = true) :
    ∃ names, (mgr.inode f).ls.flat [] s.store = .ok (names, s.store) ∧ names.Nodup
      ∧ ∀ name type, PlainName name → mgr.Accepts total.toNat s.store f →
        ∃ r σ', (Inode.createInode mgr (mgr.inode f) name type).flat [] s.store = .ok (r, σ')
          ∧ (r = none ↔ name ∈ names) ∧ (r = none → σ' = s.store)
          ∧ ∀ ino, r = some ino →
            (mgr.inode f).ls.flat [] σ' = .ok (names ++ [name], σ')
              ∧ (Inode.find mgr (mgr.inode f) name).flat [] σ' = .ok (some ino, σ')
              ∧ (∃ g, ino = mgr.inode g ∧ ¬ mgr.Used s.store g ∧ mgr.Used σ' g
                ∧ (mgr.inodeAt σ' g).type = type ∧ (mgr.inodeAt σ' g).size = 0)
              ∧ ∀ other, '/' ∉ other.toList → other ≠ name → ∃ r',
                (Inode.find mgr (mgr.inode f) other).flat [] s.store = .ok (r', s.store)
                  ∧ (Inode.find mgr (mgr.inode f) other).flat [] σ' = .ok (r', σ') := by
  have hc := created_of_create (by omega) hcreate
  have hl := hc.layout
  obtain ⟨-, m, h⟩ := Mounted.run hc hfit hrun
  obtain ⟨⟨type₀, bytes⟩, hm⟩ := Option.isSome_iff_exists.mp (h.holds.used_iff.mp hf)
  obtain rfl : type₀ = .dir := (h.size hm).2.symm.trans (dir_iff.mp hdir)
  obtain ⟨es, hes⟩ := h.dirs.entries f bytes hm
  have hes : DirOk PlainName m bytes es := hes.imp fun _ hplain => hplain rfl
  refine ⟨es.map Prod.fst, h.ls_plain hl hm hes, hes.nodup, ?_⟩
  intro name type hname hacc
  have hread : ∀ i, i < bytes.length / 32 → nameAt bytes i = none → False :=
    fun i hi hnone => hes.nameAt_ne_none hi hnone
  have hlong := hname.length
  obtain ⟨r, σ', hrun', hpost⟩ := Returns.exists_ok (h.createInode hl hfit hm (fun _ => hname)
    type (hacc.faults hdir fun hlt => by omega) hread hacc.room)
  refine ⟨r, σ', hrun', ?_⟩
  cases r with
  | none =>
      obtain ⟨rfl, hlists⟩ := hpost
      exact ⟨⟨fun _ => hes.lists.mp hlists, fun _ => rfl⟩, fun _ => rfl, nofun⟩
  | some ino =>
      obtain ⟨hnew, g, rfl, hfree, hg, hfits, h', -⟩ := hpost
      refine ⟨⟨nofun, fun hmem => absurd (hes.lists.mpr hmem) hnew⟩, nofun, ?_⟩
      rintro _ ⟨⟩
      have hmg : Function.update (Function.update m g (some ⟨type, []⟩)) f
          (some ⟨.dir, bytes ++ entryBytes name g⟩) g = some ⟨type, []⟩ := update_create type hfree hm
      have hmf : Function.update (Function.update m g (some ⟨type, []⟩)) f
          (some ⟨.dir, bytes ++ entryBytes name g⟩) f = some ⟨.dir, bytes ++ entryBytes name g⟩ :=
        Function.update_self ..
      have hes' := hes.create type hfree hm hname hfits hg (h.dirs.ne_root hfree) hnew
      obtain ⟨hfound, hothers⟩ := resolve_created hm hes hmf hes' hname hnew
      refine ⟨?_, ?_, ⟨g, rfl, ?_, h'.used hmg, ?_, ?_⟩, ?_⟩
      · rw [h'.ls_plain hl hmf hes', List.map_append]
        rfl
      · rw [h'.find_plain hl hmf hes' hname.slash, hfound]
        rfl
      · rw [h.holds.used_iff, hfree]
        simp
      · exact (h'.size hmg).2
      · exact UInt32.toNat_inj.mp (h'.size hmg).1
      · intro other hslash hne
        refine ⟨_, h.find_plain hl hm hes hslash, ?_⟩
        rw [h'.find_plain hl hmf hes' hslash, hothers other hslash hne]

/-- The first file of a disk as it is created. -/
theorem directory_law_5123 :
    ∃ mgr σ, (create 5123 1).flat [] (fun _ => Block.zero) = .ok (mgr, σ)
      ∧ ∃ ino σ', (Inode.createInode mgr (mgr.inode 0) "log" .file).flat [] σ = .ok (some ino, σ')
        ∧ (mgr.inode 0).ls.flat [] σ' = .ok (["log"], σ')
        ∧ (Inode.find mgr (mgr.inode 0) "log").flat [] σ' = .ok (some ino, σ') := by
  obtain ⟨mgr, σ, hcreate, hc⟩ := @create_returns 5123 1 (by decide) (by decide) (by decide)
    fun _ => Block.zero
  have hm : mgr.Mounted 5123 1 (fun _ _ => True) σ AbsFs.start := .created hc
  have hroot : AbsFs.start 0 = some ⟨.dir, []⟩ := rfl
  obtain ⟨names, hls, -, hlaw⟩ := directory_law (f := 0) (by decide) hcreate (.nil _)
    (hm.used hroot) (dir_iff.mpr (hm.size hroot).2)
  have hnil : (mgr.inode 0).ls.flat [] σ = .ok ([], σ) :=
    hm.ls_plain hc.layout hroot (.empty ..)
  obtain rfl : names = [] := by
    have heq := hls.symm.trans hnil
    cases heq
    rfl
  obtain ⟨r, σ', hrun, hnone, -, hsome⟩ := hlaw "log" .file (by decide) (hc.accepts (by decide))
  cases r with
  | none => cases hnone.mp rfl
  | some ino =>
      obtain ⟨hls', hfind, -, -⟩ := hsome ino rfl
      exact ⟨mgr, σ, hcreate, ino, σ', hrun, hls', hfind⟩

end Nimloth
