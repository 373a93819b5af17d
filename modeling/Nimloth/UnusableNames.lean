import Mathlib.Tactic.Common
import Nimloth.PathLaw

/-!
# Names that do not fit

An entry has 28 bytes for the name, and reading it back takes a NUL among
them. A longer name panics in `DirEntry::new`, after its inode has been
taken; one of exactly 28 bytes without a NUL is written, and then nobody can
list its directory any more. Every other name does no harm: what is listed
is the name, or its beginning.
-/

namespace Nimloth

open BlockProg BlockManager

/-- A name that fits an entry and can be read back, at least in part. -/
def Storable (name : String) : Prop :=
  (nameBytes name).length ≤ NAME_LENGTH_LIMIT
    ∨ (nameBytes name).length = NAME_LENGTH_LIMIT + 1 ∧ '\x00' ∈ name.toList

instance (name : String) : Decidable (Storable name) :=
  inferInstanceAs (Decidable (_ ∨ _ ∧ _))

theorem Storable.fits {name : String} (h : Storable name) : (nameBytes name).length ≤ 28 := by
  rcases h with h | h
  · exact Nat.le_succ_of_le h
  · exact h.1.le

theorem Storable.stored {name : String} (h : Storable name) :
    storedName name = some (untilNul name) := by
  refine if_pos ?_
  rcases h with h | h
  · exact .inl (Nat.lt_succ_of_le h)
  · exact .inr h.2

/-- The listed name is the name cut at 27 bytes, or at a NUL before. -/
theorem storedName_cut {name listed : String} (hfits : (nameBytes name).length ≤ 28)
    (h : storedName name = some listed) :
    nameBytes listed <+: (nameBytes name).take NAME_LENGTH_LIMIT := by
  unfold storedName at h
  split at h
  · next hread =>
      cases h
      rw [← takeWhile_nameBytes, List.prefix_take_iff]
      have hpre := List.takeWhile_prefix (l := nameBytes name) (· ≠ 0)
      refine ⟨hpre, ?_⟩
      by_contra hlong
      have hlong := Nat.not_le.mp hlong
      have hle := hpre.length_le
      have hlen : (nameBytes name).length = 28 := by
        have hlong : 27 < ((nameBytes name).takeWhile (· ≠ 0)).length := hlong
        omega
      have hall : (nameBytes name).takeWhile (· ≠ 0) = nameBytes name := by
        have hlong : 27 < ((nameBytes name).takeWhile (· ≠ 0)).length := hlong
        exact hpre.eq_of_length (by omega)
      rcases hread with hlt | hnul
      · omega
      · have hzero := List.takeWhile_eq_self_iff.mp hall 0 (zero_mem_nameBytes.mpr hnul)
        simp at hzero
  · cases h

namespace BlockManager

variable {mgr : BlockManager} {total ibb : Nat} {P : Inode → String → Prop} {σ σ' : Store} {m : AbsFs}
  {f : Nat} {bytes : List UInt8} {name : String}

section Calls

variable (h : mgr.Mounted total ibb P σ m) (hl : mgr.Layout total ibb) (hm : m f = some ⟨.dir, bytes⟩)

include h hm

/-- No name of more than 27 bytes is ever listed. -/
theorem Mounted.lists_length (hlists : Lists bytes name) : (nameBytes name).length ≤ 27 := by
  obtain ⟨es, hes⟩ := h.dirs.entries f bytes hm
  rw [hes.bytes, lists_entriesBytes hes.fits] at hlists
  obtain ⟨e, he, hname⟩ := hlists
  have hpre := (storedName_cut (hes.fits e he) hname).length_le
  rw [List.length_take] at hpre
  exact hpre.trans (Nat.min_le_left ..)

include hl

variable (hfit : ibb * 4096 ≤ 2 ^ 32) (hacc : mgr.Accepts total σ f)

include hfit hacc

/-- A name of more than 28 bytes panics. -/
theorem Mounted.create_long (type : DiskInodeType) (hlong : 28 < (nameBytes name).length) :
    (Inode.createInode mgr (mgr.inode f) name type).flat [] σ = .error .panic := by
  have hdir := dir_iff.mpr (h.size hm).2
  have h₀ : mgr.Mounted total ibb (fun _ _ => True) σ m := h.imp fun _ _ _ => trivial
  have hfaults : CreateFaults (· = .panic) mgr total σ f name := hacc.faults hdir fun _ => rfl
  have hpost : Post (· = .panic) (Inode.createInode mgr (mgr.inode f) name type) [] σ
      fun _ _ => False := by
    apply (h₀.createInode hl hfit hm trivial type hfaults (fun _ _ _ => rfl) hacc.room).mono
    rintro (_ | ino) σ' hr
    · have hlists := h.lists_length hm hr.2
      omega
    · obtain ⟨-, g, -, -, -, hfits, -⟩ := hr
      omega
  obtain ⟨e, he, rfl⟩ := hpost.exists_error
  exact he

/-- A name of 28 bytes without a NUL is entered, and after that `ls` panics. -/
theorem Mounted.create_full (hread : ∀ i, i < bytes.length / 32 → nameAt bytes i ≠ none)
    (type : DiskInodeType) (hlen : (nameBytes name).length = 28) (hnul : '\x00' ∉ name.toList) :
    ∃ ino σ', (Inode.createInode mgr (mgr.inode f) name type).flat [] σ = .ok (some ino, σ')
      ∧ (mgr.inode f).ls.flat [] σ' = .error .panic := by
  have hdir := dir_iff.mpr (h.size hm).2
  have h₀ : mgr.Mounted total ibb (fun _ _ => True) σ m := h.imp fun _ _ _ => trivial
  have hfaults : CreateFaults (fun _ => False) mgr total σ f name :=
    hacc.faults hdir fun hlt => by omega
  obtain ⟨r, σ', hrun, hr⟩ :=
    Returns.exists_ok (h₀.createInode hl hfit hm trivial type hfaults hread hacc.room)
  cases r with
  | none =>
      have hlists := h.lists_length hm hr.2
      omega
  | some ino =>
      refine ⟨ino, σ', hrun, ?_⟩
      obtain ⟨hnew, g, rfl, hfree, hg, hfits, h', -⟩ := hr
      obtain ⟨es, hes⟩ := h₀.dirs.entries f bytes hm
      have hes' := hes.create type hfree hm trivial hfits hg (h.dirs.ne_root hfree) hnew
      have hm' : Function.update (Function.update m g (some ⟨type, []⟩)) f
          (some ⟨.dir, bytes ++ entryBytes name g⟩) f = some ⟨.dir, bytes ++ entryBytes name g⟩ :=
        Function.update_self ..
      have hcount := length_entriesBytes hes'.fits
      have hconcat : (es ++ [(name, g)]).length = es.length + 1 := by simp
      rw [← hes'.bytes, hconcat] at hcount
      -- The last entry is the one that cannot be read.
      have hlast : nameAt (bytes ++ entryBytes name g) es.length = none := by
        rw [hes'.bytes, nameAt_entriesBytes hes'.fits (by simp), List.getElem_concat_length rfl]
        refine if_neg ?_
        rintro (hlt | hmem)
        · exact absurd hlen hlt.ne
        · exact hnul hmem
      have hpost : Post (· = .panic) (mgr.inode f).ls [] σ' fun _ _ => False := by
        apply (ls_post (E := (· = .panic)) hl h'.inv h'.holds (h'.used hm') hm' fun _ _ _ => rfl).mono
        rintro _ _ ⟨-, -, hread'⟩
        exact hread' es.length (by omega) hlast
      obtain ⟨e, he, rfl⟩ := hpost.exists_error
      exact he

end Calls

end BlockManager

/-- As long as all names are storable, every directory can be listed and searched;
and one more name keeps it so, and is at most cut, exactly if it is storable. -/
theorem unusable_names {total ibb : UInt32} {mgr : BlockManager} {σ₀ σ : Store} {tr : List FsEvent}
    {s : FsState} (hfit : ibb.toNat * 4096 ≤ 2 ^ 32)
    (hcreate : (create total ibb).flat [] σ₀ = .ok (mgr, σ))
    (hrun : Runs (NamedStep mgr total.toNat fun _ name => Storable name) (mgr.start σ) tr s)
    {f : Nat} (hf : mgr.Used s.store f) (hdir : (mgr.inodeAt s.store f).dir = true) :
    ∃ names, (mgr.inode f).ls.flat [] s.store = .ok (names, s.store)
      ∧ (∀ path, ∃ r, (Inode.find mgr (mgr.inode f) path).flat [] s.store = .ok (r, s.store))
      ∧ ∀ name type, mgr.Accepts total.toNat s.store f →
        ((∃ r σ', (Inode.createInode mgr (mgr.inode f) name type).flat [] s.store = .ok (r, σ')
          ∧ (r = none → σ' = s.store)
          ∧ (r ≠ none → ∃ listed, nameBytes listed <+: (nameBytes name).take NAME_LENGTH_LIMIT
            ∧ (mgr.inode f).ls.flat [] σ' = .ok (names ++ [listed], σ'))
          ∧ ∀ path, ∃ r', (Inode.find mgr (mgr.inode f) path).flat [] σ' = .ok (r', σ'))
            ↔ Storable name) := by
  have hc := created_of_create (by omega) hcreate
  have hl := hc.layout
  obtain ⟨-, m, h⟩ := Mounted.run hc hfit hrun
  obtain ⟨⟨type₀, bytes⟩, hm⟩ := Option.isSome_iff_exists.mp (h.holds.used_iff.mp hf)
  obtain rfl : type₀ = .dir := (h.size hm).2.symm.trans (dir_iff.mp hdir)
  have hstorable : ∀ (f : Nat) name, Storable name → storedName name ≠ none := by
    intro f name hname
    rw [hname.stored]
    exact Option.some_ne_none _
  have hread := h.dirs.readable hstorable
  refine ⟨namesOf bytes, h.ls hl hm (hread f bytes hm),
    fun path => ⟨_, h.find hl hread (by rw [hm]; rfl) path⟩, ?_⟩
  intro name type hacc
  constructor
  · rintro ⟨r, σ', hrun', hnone, hsome, -⟩
    by_contra hname
    rcases Nat.lt_or_ge 28 (nameBytes name).length with hlong | hfits
    · rw [h.create_long hl hm hfit hacc type hlong] at hrun'
      cases hrun'
    · have hlen : (nameBytes name).length = 28 := by
        have hlt : ¬ (nameBytes name).length ≤ 27 := fun hle => hname (.inl hle)
        omega
      obtain ⟨ino, σ₁, hrun₁, hls₁⟩ := h.create_full hl hm hfit hacc
        (hread f bytes hm) type hlen fun hnul => hname (.inr ⟨hlen, hnul⟩)
      obtain ⟨rfl, rfl⟩ := Prod.mk.inj (Except.ok.inj (hrun₁.symm.trans hrun'))
      obtain ⟨listed, -, hls⟩ := hsome (Option.some_ne_none _)
      rw [hls] at hls₁
      cases hls₁
  · intro hname
    have hfaults : CreateFaults (fun _ => False) mgr total.toNat s.store f name :=
      hacc.faults hdir fun hlt => absurd hname.fits (Nat.not_le.mpr hlt)
    obtain ⟨r, σ', hrun', hr⟩ := Returns.exists_ok
      (h.createInode hl hfit hm hname type hfaults (hread f bytes hm) hacc.room)
    refine ⟨r, σ', hrun', ?_⟩
    cases r with
    | none =>
        obtain ⟨rfl, -⟩ := hr
        exact ⟨fun _ => rfl, fun hne => absurd rfl hne,
          fun path => ⟨_, h.find hl hread (by rw [hm]; rfl) path⟩⟩
    | some ino =>
        obtain ⟨hnew, g, rfl, hfree, hg, hfits, h', -⟩ := hr
        have hread' := h'.dirs.readable hstorable
        have hm' : Function.update (Function.update m g (some ⟨type, []⟩)) f
            (some ⟨.dir, bytes ++ entryBytes name g⟩) f = some ⟨.dir, bytes ++ entryBytes name g⟩ :=
          Function.update_self ..
        refine ⟨nofun, fun _ => ⟨untilNul name, storedName_cut hname.fits hname.stored, ?_⟩,
          fun path => ⟨_, h'.find hl hread' (by rw [hm']; rfl) path⟩⟩
        exact h.ls_created hl hm (hread f bytes hm) hname hname.stored hfree hg hfits hnew h'

/-- 28 bytes, the last of them NUL, are stored as 27. -/
theorem unusable_names_5123 :
    ∃ mgr σ, (create 5123 1).flat [] (fun _ => Block.zero) = .ok (mgr, σ)
      ∧ ∃ r σ', (Inode.createInode mgr (mgr.inode 0) "abcdefghijklmnopqrstuvwxyz0\x00" .file).flat
          [] σ = .ok (r, σ')
        ∧ ∀ path, ∃ r', (Inode.find mgr (mgr.inode 0) path).flat [] σ' = .ok (r', σ') := by
  obtain ⟨mgr, σ, hcreate, hc⟩ := @create_returns 5123 1 (by decide) (by decide) (by decide)
    fun _ => Block.zero
  have hm : mgr.Mounted 5123 1 (fun _ _ => True) σ AbsFs.start := .created hc
  have hroot : AbsFs.start 0 = some ⟨.dir, []⟩ := rfl
  obtain ⟨names, -, -, hcall⟩ := unusable_names (f := 0) (by decide) hcreate (.nil _)
    (hm.used hroot) (dir_iff.mpr (hm.size hroot).2)
  obtain ⟨r, σ', hrun, -, -, hfind⟩ := (hcall "abcdefghijklmnopqrstuvwxyz0\x00" .file
    (hc.accepts (by decide))).mpr (by decide)
  exact ⟨mgr, σ, hcreate, r, σ', hrun, hfind⟩

/-- On a disk as it is created, a file with a name of 29 bytes panics, and after one with
a name of 28 bytes `ls` does. -/
theorem long_names_panic :
    ∃ mgr σ, (create 5123 1).flat [] (fun _ => Block.zero) = .ok (mgr, σ)
      ∧ (Inode.createInode mgr (mgr.inode 0) "abcdefghijklmnopqrstuvwxyz012" .file).flat [] σ
        = .error .panic
      ∧ ∃ ino σ', (Inode.createInode mgr (mgr.inode 0) "abcdefghijklmnopqrstuvwxyz01" .file).flat
          [] σ = .ok (some ino, σ')
        ∧ (mgr.inode 0).ls.flat [] σ' = .error .panic := by
  obtain ⟨mgr, σ, hcreate, hc⟩ := @create_returns 5123 1 (by decide) (by decide) (by decide)
    fun _ => Block.zero
  have hm : mgr.Mounted 5123 1 (fun _ _ => True) σ AbsFs.start := .created hc
  have hroot : AbsFs.start 0 = some ⟨.dir, []⟩ := rfl
  have hacc : mgr.Accepts 5123 σ 0 := hc.accepts (by decide)
  exact ⟨mgr, σ, hcreate, hm.create_long hc.layout hroot (by decide) hacc .file (by decide),
    hm.create_full hc.layout hroot (by decide) hacc (fun i hi => absurd hi (Nat.not_lt_zero i))
      .file (by decide) (by decide)⟩

end Nimloth
