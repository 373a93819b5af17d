import Mathlib.Tactic.Common
import Nimloth.OSInode
import Nimloth.UnusableNames

/-!
# Opening files

`open_file` looks a path up component by component, but creates a file
under the whole string, in the root. The two agree on a name of one plain
component. And a file that is opened with `CREATE` or `TRUNC` is cleared,
which directories refuse.
-/

namespace Nimloth

open BlockProg BlockManager

section Resolve

variable {Ps : Nat → String → Prop} {m : AbsFs} {g : Nat} {bytes : List UInt8} {name : String}
  (type : DiskInodeType) (h : DirsOk Ps m) (hfree : m g = none) (hroot : m 0 = some ⟨.dir, bytes⟩)

include h hfree

/-- From below the root no path leads to a new file of the root. -/
theorem resolve_create_below {names : List String} {k : Nat} (hk : (m k).isSome) (hne : k ≠ 0) :
    resolve (Function.update (Function.update m g (some ⟨type, []⟩)) 0
      (some ⟨.dir, bytes ++ entryBytes name g⟩)) names k ≠ some g := by
  have hkg : ∀ k, (m k).isSome → k ≠ g := by
    rintro k hk rfl
    rw [hfree] at hk
    cases hk
  induction names generalizing k with
  | nil =>
      rw [resolve, Ne, Option.some.injEq]
      exact hkg k hk
  | cons c names ih =>
      rw [resolve, Function.update_of_ne hne, Function.update_of_ne (hkg k hk)]
      split
      · next b hm =>
          split
          · next id hid =>
              obtain ⟨es, hes⟩ := h.entries k b hm
              obtain ⟨e, he, -, hnat⟩ := hes.lookup_some hid
              have hentry := hes.entries e he
              rw [hnat]
              exact ih hentry.used hentry.child
          · simp
      · simp

include hroot

/-- A new file of the root is found under the name that is stored, and under
no other path. -/
theorem resolve_create {names : List String} (hfits : (nameBytes name).length ≤ 28)
    (hg : g < 2 ^ 32) (hname : Ps 0 name) (hnew : ¬ Lists bytes name) :
    resolve (Function.update (Function.update m g (some ⟨type, []⟩)) 0
      (some ⟨.dir, bytes ++ entryBytes name g⟩)) names 0 = some g →
        ∃ c, names = [c] ∧ storedName name = some c := by
  intro hres
  have hg0 := h.ne_root hfree
  obtain ⟨es, hes⟩ := h.entries 0 bytes hroot
  have hes' := hes.create type hfree hroot hname hfits hg hg0 hnew
  cases names with
  | nil => exact absurd (Option.some.inj hres).symm hg0
  | cons c names =>
      rw [resolve, Function.update_self] at hres
      dsimp only at hres
      rw [hes.lookup_append hes'] at hres
      cases hid : lookup bytes c with
      | some id =>
          rw [hid] at hres
          obtain ⟨e, he, -, hnat⟩ := hes.lookup_some hid
          have hentry := hes.entries e he
          dsimp only [Option.some_or] at hres
          rw [hnat] at hres
          exact absurd hres (resolve_create_below type h hfree hentry.used hentry.child)
      | none =>
          rw [hid, Option.none_or] at hres
          split at hres
          · next id hcase =>
              split at hcase
              · next hstored =>
                  cases hcase
                  rw [UInt32.toNat_ofNat', Nat.mod_eq_of_lt hg] at hres
                  refine ⟨c, ?_, hstored⟩
                  cases names with
                  | nil => rfl
                  | cons c' names =>
                      rw [resolve, Function.update_of_ne hg0, Function.update_self] at hres
                      cases type <;> cases hres
              · cases hcase
          · cases hres

end Resolve

namespace BlockManager

variable {mgr : BlockManager} {total ibb : Nat} {P : Inode → String → Prop} {σ : Store} {m : AbsFs}
  {g : Nat} {bytes : List UInt8} {name : String} {flags : OpenFlags} {E : FsErr → Prop}

/-- Does the open file go through `clear`? -/
def clears (flags : OpenFlags) : Bool := flags.contains .CREATE || flags.contains .TRUNC

section Found

variable {Q : Option OSInode → Store → Prop}

theorem openFile_some {ino : Inode}
    (hfind : (Inode.find mgr mgr.rootInode name).flat [] σ = .ok (some ino, σ)) :
    Post E (openFile mgr name flags) [] σ Q ↔
      if clears flags then Post E (Inode.clear mgr ino) [] σ fun _ =>
          Q (some (.new flags.readWrite.1 flags.readWrite.2 ino))
      else Q (some (.new flags.readWrite.1 flags.readWrite.2 ino)) σ := by
  have hpost : ∀ k : Option Inode → BlockProg (Option OSInode),
      Post E (Inode.find mgr mgr.rootInode name >>= k) [] σ Q ↔ Post E (k (some ino)) [] σ Q := by
    intro k
    rw [Post.bind_iff, Post, hfind]
  unfold openFile clears
  generalize flags.readWrite = perms
  obtain ⟨readable, writable⟩ := perms
  dsimp only
  cases flags.contains .CREATE with
  | true => simp [hpost, Post.bind_iff, Post.pure_iff]
  | false =>
      cases flags.contains .TRUNC with
      | true => simp [hpost, Post.bind_iff, Post.pure_iff]
      | false => simp [hpost, Post.pure_iff]

theorem openFile_none (hfind : (Inode.find mgr mgr.rootInode name).flat [] σ = .ok (none, σ)) :
    Post E (openFile mgr name flags) [] σ Q ↔
      if flags.contains .CREATE then
        Post E (Inode.createInode mgr mgr.rootInode name .file) [] σ fun r =>
          Q (r.map (.new flags.readWrite.1 flags.readWrite.2))
      else Q none σ := by
  have hpost : ∀ k : Option Inode → BlockProg (Option OSInode),
      Post E (Inode.find mgr mgr.rootInode name >>= k) [] σ Q ↔ Post E (k none) [] σ Q := by
    intro k
    rw [Post.bind_iff, Post, hfind]
  unfold openFile
  generalize flags.readWrite = perms
  obtain ⟨readable, writable⟩ := perms
  dsimp only
  cases flags.contains .CREATE with
  | true => simp [hpost, Post.bind_iff, Post.pure_iff]
  | false => simp [hpost, Post.pure_iff]

end Found

section Open

variable (h : mgr.Mounted total ibb P σ m) (hl : mgr.Layout total ibb)

include h hl

theorem Mounted.find_root (hread : Readable m) (path : String) :
    (Inode.find mgr mgr.rootInode path).flat [] σ
      = .ok ((resolve m (components path) 0).map mgr.inode, σ) := by
  obtain ⟨bytes, hroot⟩ := h.dirs.root
  exact h.find hl hread (by rw [hroot]; rfl) path

/-- What is opened with `RDONLY` is what the path leads to. -/
theorem Mounted.openFile_rdonly (hread : ¬ Readable m → E .panic) :
    Post E (openFile mgr name .RDONLY) [] σ fun r σ' => σ' = σ
      ∧ r = (resolve m (components name) 0).map fun g => .new true false (mgr.inode g) := by
  obtain ⟨bytes, hroot⟩ := h.dirs.root
  obtain ⟨k, hopen, hnone, hsome⟩ : ∃ k, openFile mgr name .RDONLY
      = Inode.find mgr mgr.rootInode name >>= k ∧ k none = pure none
      ∧ ∀ inode, k (some inode) = pure (some (.new true false inode)) :=
    ⟨_, rfl, rfl, fun _ => rfl⟩
  rw [hopen, Post.bind_iff]
  apply (find_post hl h.inv h.holds h.dirs.linked hread (f := 0) (by rw [hroot]; rfl) name).mono
  rintro r σ' ⟨rfl, rfl⟩
  cases resolve m (components name) 0 with
  | none =>
      rw [Option.map_none, hnone]
      exact Post.pure_iff.mpr ⟨rfl, rfl⟩
  | some g =>
      rw [Option.map_some, hsome]
      exact Post.pure_iff.mpr ⟨rfl, rfl⟩

/-- A regular file that is found is cleared, if it is to be. -/
theorem Mounted.openFile_file (flags : OpenFlags) (hread : Readable m) {old : List UInt8}
    (hg : resolve m (components name) 0 = some g) (hm : m g = some ⟨.file, old⟩)
    (hflags : clears flags = true) :
    ∃ file σ', (openFile mgr name flags).flat [] σ = .ok (some file, σ')
      ∧ file.inode = mgr.inode g
      ∧ mgr.Mounted total ibb P σ' (Function.update m g (some ⟨.file, []⟩)) := by
  have hfind := h.find_root hl hread name
  rw [hg] at hfind
  have hpost : Returns (openFile mgr name flags) [] σ fun r σ' =>
      r = some (.new flags.readWrite.1 flags.readWrite.2 (mgr.inode g))
        ∧ mgr.Mounted total ibb P σ' (Function.update m g (some ⟨.file, []⟩)) := by
    rw [Returns, openFile_some hfind, if_pos hflags]
    apply (h.clear hl hm).mono
    rintro _ σ' ⟨h', -⟩
    exact ⟨rfl, h'⟩
  obtain ⟨r, σ', hrun, rfl, h'⟩ := hpost.exists_ok
  exact ⟨_, σ', hrun, rfl, h'⟩

end Open

/-- `open_file` as it is meant: it returns; if it returns no file, nothing has
changed; and the file that it returns for `CREATE` is empty, is the one that
`RDONLY` opens next, and is the only one that `CREATE` opens under the name. -/
def Opens (mgr : BlockManager) (σ : Store) (name : String) (flags : OpenFlags) : Prop :=
  ∃ r σ', (openFile mgr name flags).flat [] σ = .ok (r, σ') ∧ (r = none → σ' = σ)
    ∧ ∀ file, r = some file → flags.contains .CREATE = true →
      (∃ file', (openFile mgr name .RDONLY).flat [] σ' = .ok (some file', σ')
        ∧ file'.inode = file.inode)
      ∧ (∃ g, file.inode = mgr.inode g ∧ mgr.Used σ' g ∧ (mgr.inodeAt σ' g).size = 0)
      ∧ ∀ flags', flags'.contains .CREATE = true →
        ∃ r' σ'', (openFile mgr name flags').flat [] σ' = .ok (r', σ'')
          ∧ ∀ file', r' = some file' → file'.inode = file.inode

section Law

variable (h : mgr.Mounted total ibb P σ m) (hl : mgr.Layout total ibb) (hread : Readable m)

include h hl hread

/-- A path that leads to a regular file, which is empty. -/
theorem Mounted.opens_next (hg : resolve m (components name) 0 = some g)
    (hm : m g = some ⟨.file, []⟩) {file : OSInode} (hfile : file.inode = mgr.inode g) :
    (∃ file', (openFile mgr name .RDONLY).flat [] σ = .ok (some file', σ)
        ∧ file'.inode = file.inode)
      ∧ (∃ g, file.inode = mgr.inode g ∧ mgr.Used σ g ∧ (mgr.inodeAt σ g).size = 0)
      ∧ ∀ flags', flags'.contains .CREATE = true →
        ∃ r' σ'', (openFile mgr name flags').flat [] σ = .ok (r', σ'')
          ∧ ∀ file', r' = some file' → file'.inode = file.inode := by
  refine ⟨?_, ⟨g, hfile, h.used hm, UInt32.toNat_inj.mp (h.size hm).1⟩, ?_⟩
  · have hpost : Returns (openFile mgr name .RDONLY) [] σ _ := h.openFile_rdonly hl (absurd hread)
    obtain ⟨r, σ', hrun, rfl, rfl⟩ := hpost.exists_ok
    rw [hg] at hrun
    exact ⟨_, hrun, hfile.symm⟩
  · intro flags' hcreate
    obtain ⟨file', σ', hrun, hfile', -⟩ := h.openFile_file hl flags' hread hg hm
      (by rw [clears, hcreate]; rfl)
    refine ⟨_, σ', hrun, ?_⟩
    rintro _ ⟨⟩
    rw [hfile', hfile]

/-- What is found and not cleared is opened. -/
theorem Mounted.opens_found (hg : resolve m (components name) 0 = some g)
    (hflags : clears flags = false) : Opens mgr σ name flags := by
  have hfind := h.find_root hl hread name
  rw [hg] at hfind
  have hpost : Returns (openFile mgr name flags) [] σ fun r σ' => r ≠ none ∧ σ' = σ := by
    rw [Returns, openFile_some hfind, if_neg (by rw [hflags]; simp)]
    exact ⟨Option.some_ne_none _, rfl⟩
  obtain ⟨r, σ', hrun, hsome, rfl⟩ := hpost.exists_ok
  refine ⟨r, _, hrun, fun _ => rfl, ?_⟩
  intro _ _ hcreate
  rw [clears, hcreate] at hflags
  cases hflags

/-- What leads to a regular file is opened. -/
theorem Mounted.opens_file {old : List UInt8} (hg : resolve m (components name) 0 = some g)
    (hm : m g = some ⟨.file, old⟩) : Opens mgr σ name flags := by
  cases hflags : clears flags with
  | false => exact h.opens_found hl hread hg hflags
  | true =>
      obtain ⟨file, σ', hrun, hfile, h'⟩ := h.openFile_file hl flags hread hg hm hflags
      have hread' : Readable (Function.update m g (some ⟨.file, []⟩)) := by
        intro k b hk
        exact hread k b ((update_file_dir hm).mp hk)
      refine ⟨_, σ', hrun, nofun, ?_⟩
      rintro _ ⟨⟩ -
      exact h'.opens_next hl hread' ((resolve_update_file hm ..).trans hg)
        (Function.update_self ..) hfile

/-- A directory cannot be cleared. -/
theorem Mounted.openFile_dir (hg : resolve m (components name) 0 = some g)
    (hm : m g = some ⟨.dir, bytes⟩) (hflags : clears flags = true) :
    (openFile mgr name flags).flat [] σ = .error .panic := by
  have hfind := h.find_root hl hread name
  rw [hg] at hfind
  have hfile : ¬ (mgr.inodeAt σ g).file = true := by
    rw [file_iff, (h.size hm).2]
    exact nofun
  have hpost : Post (· = .panic) (openFile mgr name flags) [] σ fun _ _ => False := by
    rw [openFile_some hfind, if_pos hflags, Inode.clear, Post.bind_iff, modifyDiskInode_iff,
      Post.bind_iff, Post.assert_iff]
    exact ⟨fun h => absurd h hfile, fun _ => rfl⟩
  obtain ⟨e, he, rfl⟩ := hpost.exists_error
  exact he

/-- What leads to a directory is opened, unless it is to be cleared. -/
theorem Mounted.opens_dir (hg : resolve m (components name) 0 = some g)
    (hm : m g = some ⟨.dir, bytes⟩) : Opens mgr σ name flags ↔ clears flags = false := by
  refine ⟨?_, h.opens_found hl hread hg⟩
  rintro ⟨r, σ', hrun, -⟩
  by_contra hflags
  rw [h.openFile_dir hl hread hg hm (Bool.not_eq_false _ ▸ hflags)] at hrun
  cases hrun

/-- A name under which a file is created and then found is plain. -/
theorem Mounted.plain_of_opens (hfit : ibb * 4096 ≤ 2 ^ 32) (hroot : m 0 = some ⟨.dir, bytes⟩)
    (hg : resolve m (components name) 0 = none) (hnew : ¬ Lists bytes name)
    (hcreate : flags.contains .CREATE = true) (hacc : mgr.Accepts total σ 0)
    (hopens : Opens mgr σ name flags) : PlainName name := by
  have hfind := h.find_root hl hread name
  rw [hg] at hfind
  have h₀ : mgr.Mounted total ibb (fun _ _ => True) σ m := h.imp fun _ _ _ => trivial
  have hpost : Ensures (openFile mgr name flags) [] σ fun r σ' =>
      ∃ g, r.map OSInode.inode = some (mgr.inode g) ∧ m g = none ∧ g < 2 ^ 32
        ∧ (nameBytes name).length ≤ 28
        ∧ mgr.Mounted total ibb (fun _ _ => True) σ' (Function.update
          (Function.update m g (some ⟨.file, []⟩)) 0 (some ⟨.dir, bytes ++ entryBytes name g⟩)) := by
    rw [Ensures, openFile_none hfind, if_pos hcreate]
    apply (h₀.createInode hl hfit hroot trivial .file (.any mgr total σ 0 name)
      (fun _ _ _ => trivial) hacc.room).mono
    rintro (_ | ino) σ' hr
    · exact absurd hr.2 hnew
    · obtain ⟨-, g, rfl, hfree, hlt, hfits, h', -⟩ := hr
      exact ⟨g, rfl, hfree, hlt, hfits, h'⟩
  obtain ⟨r, σ', hrun, -, hsome⟩ := hopens
  obtain ⟨g, hr, hfree, hlt, hfits, h'⟩ := hpost.ok hrun
  obtain ⟨file, rfl, hino⟩ := Option.map_eq_some_iff.mp hr
  obtain ⟨⟨file', hopen, hsame⟩, -, -⟩ := hsome file rfl hcreate
  have hrdonly : Ensures (openFile mgr name .RDONLY) [] σ' _ :=
    h'.openFile_rdonly hl fun _ => trivial
  obtain ⟨-, hres⟩ := hrdonly.ok hopen
  obtain ⟨k, hk, rfl⟩ := Option.map_eq_some_iff.mp hres.symm
  have hkg : mgr.inode k = mgr.inode g := hsame.trans hino
  rw [inode_inj hkg] at hk
  obtain ⟨c, hcomp, hstored⟩ := resolve_create .file h₀.dirs hfree hroot hfits hlt trivial hnew hk
  have huntil : untilNul name = c := by
    unfold storedName at hstored
    split at hstored
    · exact Option.some.inj hstored
    · cases hstored
  obtain rfl : name = c := eq_of_components hcomp huntil
  obtain ⟨hne, hslash⟩ := @mem_components name name (by simp [hcomp])
  have hpre := (storedName_cut hfits hstored).length_le
  rw [List.length_take] at hpre
  refine ⟨hne, hpre.trans (Nat.min_le_left ..), hslash, ?_⟩
  rw [← huntil]
  exact fun hmem => (mem_untilNul hmem).2 rfl

/-- What leads nowhere is not opened, if it is not to be created. -/
theorem Mounted.opens_nothing (hg : resolve m (components name) 0 = none)
    (hcreate : flags.contains .CREATE = false) : Opens mgr σ name flags := by
  have hfind := h.find_root hl hread name
  rw [hg] at hfind
  have hpost : Returns (openFile mgr name flags) [] σ fun r σ' => r = none ∧ σ' = σ := by
    rw [Returns, openFile_none hfind, if_neg (by rw [hcreate]; simp)]
    exact ⟨rfl, rfl⟩
  obtain ⟨r, σ', hrun, rfl, rfl⟩ := hpost.exists_ok
  refine ⟨none, _, hrun, fun _ => rfl, ?_⟩
  rintro _ ⟨⟩

/-- A name that is listed is refused. -/
theorem Mounted.opens_listed (hfit : ibb * 4096 ≤ 2 ^ 32) (hroot : m 0 = some ⟨.dir, bytes⟩)
    (hg : resolve m (components name) 0 = none) (hlists : Lists bytes name)
    (hcreate : flags.contains .CREATE = true) (hacc : mgr.Accepts total σ 0) :
    Opens mgr σ name flags := by
  have hfind := h.find_root hl hread name
  rw [hg] at hfind
  have h₀ : mgr.Mounted total ibb (fun _ _ => True) σ m := h.imp fun _ _ _ => trivial
  have hlen := h.lists_length hroot hlists
  have hfaults : CreateFaults (fun _ => False) mgr total σ 0 name :=
    hacc.faults (dir_iff.mpr (h.size hroot).2) fun hlt => by omega
  have hpost : Returns (openFile mgr name flags) [] σ fun r σ' => r = none ∧ σ' = σ := by
    rw [Returns, openFile_none hfind, if_pos hcreate]
    apply (h₀.createInode hl hfit hroot trivial .file hfaults (hread 0 bytes hroot) hacc.room).mono
    rintro (_ | ino) σ' hr
    · exact ⟨rfl, hr.1⟩
    · exact absurd hlists hr.1
  obtain ⟨r, σ', hrun, rfl, rfl⟩ := hpost.exists_ok
  refine ⟨none, _, hrun, fun _ => rfl, ?_⟩
  rintro _ ⟨⟩

/-- A plain name that is new is created, and found from then on. -/
theorem Mounted.opens_plain (hfit : ibb * 4096 ≤ 2 ^ 32) (hroot : m 0 = some ⟨.dir, bytes⟩)
    (hP : P (mgr.inode 0) name) (hQ : ∀ dir name, P dir name → storedName name ≠ none)
    (hg : resolve m (components name) 0 = none) (hname : PlainName name)
    (hnew : ¬ Lists bytes name) (hcreate : flags.contains .CREATE = true)
    (hacc : mgr.Accepts total σ 0) : Opens mgr σ name flags := by
  have hfind := h.find_root hl hread name
  rw [hg] at hfind
  have hlen := hname.length
  have hfaults : CreateFaults (fun _ => False) mgr total σ 0 name :=
    hacc.faults (dir_iff.mpr (h.size hroot).2) fun hlt => by omega
  have hpost : Returns (openFile mgr name flags) [] σ fun r σ' =>
      ∃ g file, r = some file ∧ file.inode = mgr.inode g ∧ m g = none ∧ g < 2 ^ 32
        ∧ mgr.Mounted total ibb P σ' (Function.update
          (Function.update m g (some ⟨.file, []⟩)) 0 (some ⟨.dir, bytes ++ entryBytes name g⟩)) := by
    rw [Returns, openFile_none hfind, if_pos hcreate]
    apply (h.createInode hl hfit hroot hP .file hfaults (hread 0 bytes hroot) hacc.room).mono
    rintro (_ | ino) σ' hr
    · exact absurd hr.2 hnew
    · obtain ⟨-, g, rfl, hfree, hlt, -, h', -⟩ := hr
      exact ⟨g, _, rfl, rfl, hfree, hlt, h'⟩
  obtain ⟨_, σ', hrun, g, file, rfl, hfile, hfree, hlt, h'⟩ := hpost.exists_ok
  refine ⟨some file, σ', hrun, fun hnone => absurd hnone (Option.some_ne_none _), ?_⟩
  rintro _ ⟨⟩ -
  obtain ⟨es, hes⟩ := h.dirs.entries 0 bytes hroot
  have hes' := hes.create .file hfree hroot hP (by omega) hlt (h.dirs.ne_root hfree) hnew
  obtain ⟨hres, -⟩ := resolve_created hroot hes (Function.update_self ..) hes' hname hnew
  exact h'.opens_next hl (h'.dirs.readable fun _ => hQ _) hres (update_create .file hfree hroot) hfile

end Law

end BlockManager

/-- As long as all names are storable, `open_file` works as it is meant to,
exactly if it clears no directory and creates only what `find` will find. -/
theorem open_file_law {total ibb : UInt32} {mgr : BlockManager} {σ₀ σ : Store} {tr : List FsEvent}
    {s : FsState} (hfit : ibb.toNat * 4096 ≤ 2 ^ 32)
    (hcreate : (create total ibb).flat [] σ₀ = .ok (mgr, σ))
    (hrun : Runs (NamedStep mgr total.toNat fun _ name => Storable name) (mgr.start σ) tr s)
    (name : String) (flags : OpenFlags) :
    ∃ names found, mgr.rootInode.ls.flat [] s.store = .ok (names, s.store)
      ∧ (Inode.find mgr mgr.rootInode name).flat [] s.store = .ok (found, s.store)
      ∧ ((found = none → flags.contains .CREATE = true → mgr.Accepts total.toNat s.store 0) →
        (Opens mgr s.store name flags ↔
          (flags.contains .CREATE = true ∨ flags.contains .TRUNC = true →
            ∀ g, found = some (mgr.inode g) → (mgr.inodeAt s.store g).file = true)
          ∧ (flags.contains .CREATE = true → found = none → name ∈ names ∨ PlainName name))) := by
  have hc := created_of_create (by omega) hcreate
  have hl := hc.layout
  obtain ⟨-, m, h⟩ := Mounted.run hc hfit hrun
  have hstorable : ∀ (dir : Inode) name, Storable name → storedName name ≠ none := by
    intro _ name hname
    rw [hname.stored]
    exact Option.some_ne_none _
  have hread := h.dirs.readable fun f => hstorable (mgr.inode f)
  obtain ⟨bytes, hroot⟩ := h.dirs.root
  refine ⟨namesOf bytes, _, h.ls hl hroot (hread 0 bytes hroot), h.find_root hl hread name, ?_⟩
  intro hacc
  have hclears : clears flags = true
      ↔ flags.contains .CREATE = true ∨ flags.contains .TRUNC = true := by
    rw [clears, Bool.or_eq_true]
  rw [← hclears]
  cases hg : resolve m (components name) 0 with
  | none =>
      have hnone : (none : Option Nat).map mgr.inode = none := rfl
      simp only [hg, hnone] at hacc ⊢
      constructor
      · intro hopens
        refine ⟨nofun, fun hflag _ => ?_⟩
        by_cases hnew : Lists bytes name
        · exact .inl (mem_namesOf.mpr hnew)
        · exact .inr (h.plain_of_opens hl hread hfit hroot hg hnew hflag (hacc trivial hflag) hopens)
      · rintro ⟨-, hname⟩
        cases hflag : flags.contains .CREATE with
        | false => exact h.opens_nothing hl hread hg hflag
        | true =>
            by_cases hnew : Lists bytes name
            · exact h.opens_listed hl hread hfit hroot hg hnew hflag (hacc trivial hflag)
            · have hplain := (hname hflag trivial).resolve_left (mt mem_namesOf.mp hnew)
              exact h.opens_plain hl hread hfit hroot (.inl hplain.length) hstorable hg hplain hnew
                hflag (hacc trivial hflag)
  | some g =>
      obtain ⟨⟨type, b⟩, hm⟩ := Option.isSome_iff_exists.mp
        (h.dirs.linked.resolve_isSome (f := 0) (by rw [hroot]; rfl) hg)
      have hsize := (h.size hm).2
      cases type with
      | file =>
          refine ⟨fun _ => ⟨?_, nofun⟩, fun _ => h.opens_file hl hread hg hm⟩
          intro _ g' hg'
          rw [← inode_inj (Option.some.inj hg')]
          exact file_iff.mpr hsize
      | dir =>
          rw [h.opens_dir hl hread hg hm]
          constructor
          · intro hflags
            refine ⟨fun hclear => ?_, nofun⟩
            rw [hflags] at hclear
            cases hclear
          · rintro ⟨hfile, -⟩
            by_contra hflags
            have htype := file_iff.mp (hfile (Bool.not_eq_false _ ▸ hflags) g rfl)
            rw [hsize] at htype
            cases htype

/-- The first file of a disk as it is created. -/
theorem open_file_law_5123 :
    ∃ mgr σ, (create 5123 1).flat [] (fun _ => Block.zero) = .ok (mgr, σ)
      ∧ Opens mgr σ "log" .CREATE := by
  obtain ⟨mgr, σ, hcreate, hc⟩ := @create_returns 5123 1 (by decide) (by decide) (by decide)
    fun _ => Block.zero
  have hm : mgr.Mounted 5123 1 (fun _ name => Storable name) σ AbsFs.start := .created hc
  have hfind := hm.find_root hc.layout (hm.dirs.readable fun _ name hname => by simp [hname.stored])
    "log"
  have hnone : resolve AbsFs.start (components "log") 0 = none := by
    rw [components_of_no_slash (by decide), if_neg (by decide)]
    rfl
  rw [hnone] at hfind
  obtain ⟨names, found, -, hfound, hlaw⟩ := open_file_law (by decide) hcreate (.nil _) "log" .CREATE
  obtain rfl : found = none := by
    have heq := hfound.symm.trans hfind
    cases heq
    rfl
  refine ⟨mgr, σ, hcreate, (hlaw fun _ _ => hc.accepts (by decide)).mpr ⟨fun _ => nofun, ?_⟩⟩
  exact fun _ _ => .inr (by decide)

/-- On a disk as it is created, `CREATE` panics on the root, and does not create
what it would find where there is a slash in the name. -/
theorem create_root_panics :
    ∃ mgr σ, (create 5123 1).flat [] (fun _ => Block.zero) = .ok (mgr, σ)
      ∧ (openFile mgr "/" .CREATE).flat [] σ = .error .panic
      ∧ ¬ Opens mgr σ "etc/log" .CREATE := by
  obtain ⟨mgr, σ, hcreate, hc⟩ := @create_returns 5123 1 (by decide) (by decide) (by decide)
    fun _ => Block.zero
  have hm : mgr.Mounted 5123 1 (fun _ name => Storable name) σ AbsFs.start := .created hc
  have hread : Readable AbsFs.start := hm.dirs.readable fun _ name hname => by simp [hname.stored]
  have hroot : AbsFs.start 0 = some ⟨.dir, []⟩ := rfl
  have hslash : resolve AbsFs.start (components "/") 0 = some 0 := by
    have h := components_leading ""
    rw [components_empty] at h
    rw [show ("/" : String) = "/" ++ "" from rfl, h]
    rfl
  have hetc : components "etc/log" = ["etc", "log"] := by
    rw [show "etc/log" = "etc" ++ "/" ++ "log" from rfl, components_append,
      components_of_no_slash (by decide), components_of_no_slash (by decide), if_neg (by decide),
      if_neg (by decide)]
    rfl
  refine ⟨mgr, σ, hcreate, hm.openFile_dir hc.layout hread hslash hroot rfl, ?_⟩
  intro hopens
  have hplain := hm.plain_of_opens hc.layout hread (by decide) hroot (by rw [hetc]; rfl)
    (by rw [← mem_namesOf]; exact List.not_mem_nil) rfl (hc.accepts (by decide)) hopens
  exact absurd hplain (by decide)

end Nimloth
