import Mathlib.Tactic.Common
import Nimloth.Session

/-!
# Path resolution

Where the names of all directories can be read, `find` is `resolve` on the
components of the path, and never fails. Everything about paths is then
about lists of components.
-/

namespace Nimloth

open BlockProg BlockManager

namespace BlockManager

variable {mgr : BlockManager} {total ibb : Nat} {P : Inode → String → Prop} {σ : Store} {m : AbsFs}
  {f : Nat}

theorem Mounted.find (h : mgr.Mounted total ibb P σ m) (hl : mgr.Layout total ibb)
    (hread : Readable m) (hf : (m f).isSome) (path : String) :
    (Inode.find mgr (mgr.inode f) path).flat [] σ
      = .ok ((resolve m (components path) f).map mgr.inode, σ) := by
  obtain ⟨r, σ', hfind, rfl, rfl⟩ := Returns.exists_ok
    (find_post hl h.inv h.holds h.dirs.linked (absurd hread) hf path)
  exact hfind

/-- What a directory shows with `ls` can be read. -/
theorem Mounted.readable (h : mgr.Mounted total ibb P σ m) (hl : mgr.Layout total ibb)
    (hls : ∀ g, mgr.Used σ g → (mgr.inodeAt σ g).dir = true →
      ∃ names, (mgr.inode g).ls.flat [] σ = .ok (names, σ)) : Readable m := by
  intro g bytes hm
  have hg := h.used hm
  obtain ⟨names, hrun⟩ := hls g hg (dir_iff.mpr (h.size hm).2)
  have hpost : Ensures (mgr.inode g).ls [] σ _ :=
    ls_post hl h.inv h.holds hg hm fun _ _ _ => trivial
  obtain ⟨-, -, hread⟩ := hpost.ok hrun
  exact hread

end BlockManager

/-- Where `ls` lists every directory, `find` goes through a path one component
at a time, from left to right. -/
theorem path_law {total ibb : UInt32} {mgr : BlockManager} {σ₀ σ : Store} {tr : List FsEvent}
    {s : FsState} (hfit : ibb.toNat * 4096 ≤ 2 ^ 32)
    (hcreate : (create total ibb).flat [] σ₀ = .ok (mgr, σ))
    (hrun : Runs (DiskStep mgr total.toNat) (mgr.start σ) tr s)
    (hnames : ∀ g, mgr.Used s.store g → (mgr.inodeAt s.store g).dir = true →
      ∃ names, (mgr.inode g).ls.flat [] s.store = .ok (names, s.store))
    {f : Nat} (hf : mgr.Used s.store f) :
    (∀ p q, ∃ r, (Inode.find mgr (mgr.inode f) p).flat [] s.store = .ok (r, s.store)
        ∧ match r with
          | none => (Inode.find mgr (mgr.inode f) (p ++ "/" ++ q)).flat [] s.store
              = .ok (none, s.store)
          | some d => ∃ r', (Inode.find mgr d q).flat [] s.store = .ok (r', s.store)
              ∧ (Inode.find mgr (mgr.inode f) (p ++ "/" ++ q)).flat [] s.store = .ok (r', s.store))
      ∧ (∀ p, (Inode.find mgr (mgr.inode f) ("/" ++ p)).flat [] s.store
          = (Inode.find mgr (mgr.inode f) p).flat [] s.store)
      ∧ (∀ p, (Inode.find mgr (mgr.inode f) (p ++ "/")).flat [] s.store
          = (Inode.find mgr (mgr.inode f) p).flat [] s.store)
      ∧ (∀ p q, (Inode.find mgr (mgr.inode f) (p ++ "//" ++ q)).flat [] s.store
          = (Inode.find mgr (mgr.inode f) (p ++ "/" ++ q)).flat [] s.store)
      ∧ (∀ p, components p = [] →
          (Inode.find mgr (mgr.inode f) p).flat [] s.store = .ok (some (mgr.inode f), s.store))
      ∧ ∀ p path names g, components path = components p ++ names → names ≠ [] →
          (Inode.find mgr (mgr.inode f) p).flat [] s.store = .ok (some (mgr.inode g), s.store) →
          (mgr.inodeAt s.store g).file = true →
          (Inode.find mgr (mgr.inode f) path).flat [] s.store = .ok (none, s.store) := by
  have hc := created_of_create (by omega) hcreate
  have hl := hc.layout
  obtain ⟨-, m, h⟩ := Mounted.run (P := fun _ _ => True) hc hfit
    (hrun.mono fun _ e _ hstep => ⟨hstep, by cases e <;> trivial⟩)
  have hread := h.readable hl hnames
  have hsome := h.holds.used_iff.mp hf
  have hfind := h.find hl hread hsome
  -- Two paths with the same components lead to the same place.
  have hsame : ∀ p q, components p = components q →
      (Inode.find mgr (mgr.inode f) p).flat [] s.store
        = (Inode.find mgr (mgr.inode f) q).flat [] s.store := by
    intro p q heq
    rw [hfind, hfind, heq]
  refine ⟨?_, fun p => hsame _ _ (components_leading p), fun p => hsame _ _ (components_trailing p),
    fun p q => hsame _ _ (components_repeated p q), ?_, ?_⟩
  · intro p q
    refine ⟨_, hfind p, ?_⟩
    have happ := hfind (p ++ "/" ++ q)
    rw [components_append, resolve_append] at happ
    cases hg : resolve m (components p) f with
    | none =>
        rw [hg] at happ
        exact happ
    | some g =>
        rw [hg] at happ
        exact ⟨_, h.find hl hread (h.dirs.linked.resolve_isSome hsome hg) q, happ⟩
  · intro p hp
    rw [hfind, hp]
    rfl
  · intro p path names g hpath hne hp hfile
    rw [hfind] at hp
    have hg : resolve m (components p) f = some g := by
      cases hcase : resolve m (components p) f with
      | none =>
          rw [hcase] at hp
          cases hp
      | some k =>
          rw [hcase] at hp
          have hk : mgr.inode k = mgr.inode g :=
            Option.some.inj (Prod.mk.inj (Except.ok.inj hp)).1
          rw [inode_inj hk]
    obtain ⟨⟨type, bytes⟩, hm⟩ :=
      Option.isSome_iff_exists.mp (h.dirs.linked.resolve_isSome hsome hg)
    obtain rfl : type = .file := (h.size hm).2.symm.trans (file_iff.mp hfile)
    rw [hfind, hpath, resolve_append, hg, Option.bind_some, resolve_file hm hne]
    rfl

/-- A file in a directory: it is found whatever slashes are around the two names, and
nothing is below it. -/
theorem path_law_5123 :
    ∃ mgr σ s d f, (create 5123 1).flat [] (fun _ => Block.zero) = .ok (mgr, σ)
      ∧ Runs (DiskStep mgr 5123) (mgr.start σ)
        [.create (mgr.inode 0) "d" .dir (some d), .create d "f" .file (some f)] s
      ∧ (Inode.find mgr (mgr.inode 0) "d").flat [] s.store = .ok (some d, s.store)
      ∧ (Inode.find mgr d "f").flat [] s.store = .ok (some f, s.store)
      ∧ (Inode.find mgr (mgr.inode 0) "/d//f/").flat [] s.store = .ok (some f, s.store)
      ∧ (Inode.find mgr (mgr.inode 0) "d/f/x").flat [] s.store = .ok (none, s.store) := by
  obtain ⟨mgr, σ, hcreate, hc⟩ := @create_returns 5123 1 (by decide) (by decide) (by decide)
    fun _ => Block.zero
  have hl : mgr.Layout 5123 1 := hc.layout
  have hblocks : mgr.dataBitmap.blocks = 1 := by rw [hl.dataBitmap]
  have harea := hl.dataArea
  have h₀ : Session mgr 5123 1 σ [] (mgr.start σ) AbsFs.start 4096 :=
    .start hc (by omega) (by omega)
  obtain ⟨d, s₁, m₁, h₁, hroot₁, -, hd₁, -, bytes₁, hm₁, hes₁⟩ := h₀.create hl (by decide)
    (show AbsFs.start 0 = _ from rfl) (.empty ..) (by decide) (show PlainName "d" by decide)
    List.not_mem_nil (by decide) .dir
  obtain ⟨f, s, m, h, hroot₂, hfree₂, hf, hold, bytes₂, hm₂, hes₂⟩ := h₁.create hl (by decide)
    hd₁ (.empty ..) (by decide) (show PlainName "f" by decide) List.not_mem_nil (by simp) .file
  -- The root has kept its one entry.
  have hm₀ := (hold 0 hroot₁.symm hroot₂.symm).trans hm₁
  have hes₀ : DirOk PlainName m bytes₁ [("d", d)] := by
    refine hes₁.mono ?_
    intro k hk
    by_cases hkd : k = d
    · rw [hkd, hm₂]
      rfl
    · by_cases hkf : k = f
      · rw [hkf, hfree₂] at hk
        cases hk
      · rwa [hold k hkd hkf]
  have hnames : ∀ g, mgr.Used s.store g → (mgr.inodeAt s.store g).dir = true →
      ∃ names, (mgr.inode g).ls.flat [] s.store = .ok (names, s.store) := by
    intro g hg hdir
    obtain ⟨⟨type, bytes⟩, hm⟩ := Option.isSome_iff_exists.mp (h.mounted.holds.used_iff.mp hg)
    obtain rfl : type = .dir := (h.mounted.size hm).2.symm.trans (dir_iff.mp hdir)
    obtain ⟨es, hes⟩ := h.mounted.dirs.entries g bytes hm
    exact ⟨_, h.mounted.ls_plain hl hm hes⟩
  obtain ⟨happ, hlead, htrail, hrep, -, hbelow⟩ :=
    path_law (by decide) hcreate h.run hnames (h.mounted.used hm₀)
  have hd : (Inode.find mgr (mgr.inode 0) "d").flat [] s.store
      = .ok (some (mgr.inode d), s.store) := by
    rw [h.mounted.find_plain hl hm₀ hes₀ (by decide), hes₀.resolve hm₀ List.mem_cons_self]
    rfl
  have hfile : (Inode.find mgr (mgr.inode d) "f").flat [] s.store
      = .ok (some (mgr.inode f), s.store) := by
    rw [h.mounted.find_plain hl hm₂ hes₂ (by decide), hes₂.resolve hm₂ List.mem_cons_self]
    rfl
  have hpath : (Inode.find mgr (mgr.inode 0) "d/f").flat [] s.store
      = .ok (some (mgr.inode f), s.store) := by
    obtain ⟨r, hr, hrest⟩ := happ "d" "f"
    rw [hd] at hr
    cases hr
    obtain ⟨r', hr', hpath⟩ := hrest
    rw [hfile] at hr'
    cases hr'
    exact hpath
  refine ⟨mgr, σ, s, _, _, hcreate, h.run, hd, hfile, ?_, ?_⟩
  · exact (hlead "d//f/").trans ((htrail "d//f").trans ((hrep "d" "f").trans hpath))
  · have hcomp := components_append "d/f" "x"
    rw [(show PlainName "x" by decide).components] at hcomp
    exact hbelow "d/f" "d/f/x" ["x"] f hcomp (List.cons_ne_nil _ _) hpath
      (file_iff.mpr (h.mounted.size hf).2)

end Nimloth
