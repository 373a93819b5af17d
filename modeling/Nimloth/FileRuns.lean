import Mathlib.Tactic.Common
import Nimloth.Session

/-!
# Whole runs of the file system

What the steps of the last files add up to. After every run each block
in use has one owner, and as long as the blocks stay on the disk the
run is one of a map from files to byte arrays.
-/

namespace Nimloth

open BlockProg BlockManager

/-- Every block in use has one owner, in every state that the calls reach.
So `clear_size` returns every block of the file once, and `clear` neither
stops nor leaves the file a block. -/
theorem blocks_owned_once {total ibb : UInt32} {mgr : BlockManager} {σ₀ σ : Store}
    {tr : List FsEvent} {s : FsState} (hfit : ibb.toNat * 4096 ≤ 2 ^ 32)
    (hcreate : (create total ibb).flat [] σ₀ = .ok (mgr, σ))
    (hrun : Runs (FsStep mgr) (mgr.start σ) tr s) :
    mgr.BlocksOwned s.store
      ∧ ∀ f, mgr.Used s.store f → (mgr.inodeAt s.store f).file = true →
        Returns (mgr.inodeAt s.store f).clearSize [(mgr.inode f).blockId] s.store
            (fun r _ => r.1 = mgr.ownedBy s.store f)
          ∧ Returns (Inode.clear mgr (mgr.inode f)) [] s.store fun _ σ' =>
            mgr.BlocksOwned σ' ∧ mgr.ownedBy σ' f = [] := by
  have hc := created_of_create (by omega) hcreate
  have hl := hc.layout
  have hi := (FsOk.run hc hfit hrun).inv
  refine ⟨hi.owned, ?_⟩
  intro f hf hfile
  refine ⟨?_, ?_⟩
  · apply (DiskInode.clearSize_spec (hi.bound f hf) (hi.owned.nodup f hf)
      (ownedBy_not_held hl hi hf)).mono
    rintro r σ' ⟨-, hr, -⟩
    exact hr
  · apply (clear_returns hl hi hf hfile).mono
    rintro _ σ' ⟨σ₁, d', hfreed, hsize, -, rfl⟩
    obtain ⟨hchanged, -, hnil⟩ := cleared_changed hl hi hf hfreed hsize
    exact ⟨(hi.changed hf hchanged hl).owned, hnil⟩

/-- Two files. Emptying the first one leaves it without a block, and then all three of
the second one are given back. -/
theorem blocks_owned_once_5123 :
    ∃ mgr σ s a b σ', (create 5123 1).flat [] (fun _ => Block.zero) = .ok (mgr, σ)
      ∧ Runs (FsStep mgr) (mgr.start σ) (twoFiles mgr (mgr.inode a) (mgr.inode b)) s
      ∧ mgr.BlocksOwned s.store ∧ mgr.ownedBy s.store a = []
      ∧ (mgr.ownedBy s.store b).length = 3
      ∧ (Inode.clear mgr (mgr.inode b)).flat [] s.store = .ok ((), σ')
      ∧ mgr.BlocksOwned σ' ∧ mgr.ownedBy σ' b = [] := by
  obtain ⟨mgr, σ, s, m, a, b, hcreate, hl, h, -, ha, bytes, hb, hlen, -⟩ := two_files_5123
  have hrun := h.run.mono fun _ _ _ hstep => hstep.step
  obtain ⟨howned, hclear⟩ := blocks_owned_once (by decide) hcreate hrun
  obtain ⟨hsize, htype⟩ := h.mounted.size hb
  obtain ⟨-, hreturns⟩ := hclear b (h.mounted.used hb) (file_iff.mpr htype)
  obtain ⟨_, σ', hflat, howned', hnil⟩ := hreturns.exists_ok
  refine ⟨mgr, σ, s, a, b, σ', hcreate, hrun, howned, ?_, ?_, hflat, howned', hnil⟩
  · exact ownedBy_of_empty (UInt32.toNat_inj.mp (h.mounted.size ha).1)
  · have hsize : (mgr.inodeAt s.store b).size = 1501 :=
      UInt32.toNat_inj.mp (hsize.trans hlen)
    rw [ownedBy, hsize, owned_length]
    decide

/-- Every run is a run of the map with the same results, and after it every
file can be read: `read_at` returns the bytes the map has there. -/
theorem file_content_refines {total ibb : UInt32} {mgr : BlockManager} {σ₀ σ : Store}
    {tr : List FsEvent} {s : FsState} (hfit : ibb.toNat * 4096 ≤ 2 ^ 32)
    (hcreate : (create total ibb).flat [] σ₀ = .ok (mgr, σ))
    (hrun : Runs (DiskStep mgr total.toNat) (mgr.start σ) tr s) :
    ∃ m, Runs (AbsStep mgr) AbsFs.start tr m ∧ ∀ ino ∈ s.handles, ∃ f a, ino = mgr.inode f
      ∧ m f = some a ∧ ∀ offset len, offset + len < 2 ^ 32 →
        (ino.readAt offset len).flat [] s.store = .ok ((a.bytes.drop offset).take len, s.store) := by
  have hc := created_of_create (by omega) hcreate
  have hl := hc.layout
  have hok := FsOk.run hc hfit (hrun.mono fun _ _ _ h => h.step)
  -- The two systems run side by side; the file system's own invariant goes along.
  have hstep : ∀ s e s' m, (mgr.FsOk total.toNat ibb.toNat s ∧ mgr.Holds total.toNat s.store m) →
      DiskStep mgr total.toNat s e s' →
        ∃ m', (mgr.FsOk total.toNat ibb.toNat s' ∧ mgr.Holds total.toNat s'.store m')
          ∧ AbsStep mgr m e m' := by
    rintro s e s' m ⟨hok, h⟩ hstep
    obtain ⟨m', h', habs⟩ := h.step hl hfit hok hstep.step hstep.fits.inRange hstep.disk
    exact ⟨m', ⟨hok.step hl hfit hstep.step, h'⟩, habs⟩
  obtain ⟨m, ⟨-, hholds⟩, habs⟩ := Runs.simulation hstep hrun ⟨.created hc, .created hc⟩
  refine ⟨m, habs, ?_⟩
  intro ino hino
  obtain ⟨f, hf, rfl⟩ := hok.handles ino hino
  obtain ⟨a, hm, -, -⟩ := hholds.used f hf
  refine ⟨f, a, rfl, hm, ?_⟩
  intro offset len hlen
  have hlen' : offset + len < 2 ^ 64 := by omega
  obtain ⟨r, σ', hread, rfl, rfl⟩ := (hholds.readAt hl hok.inv hf hm hlen').exists_ok
  exact hread

/-- The first file is empty again. The second one reads as zeros between its bytes, also
where a block of the first one has come to it. -/
theorem file_content_refines_5123 :
    ∃ mgr σ s a b, (create 5123 1).flat [] (fun _ => Block.zero) = .ok (mgr, σ)
      ∧ Runs (DiskStep mgr 5123) (mgr.start σ) (twoFiles mgr a b) s
      ∧ (a.readAt 0 8).flat [] s.store = .ok ([], s.store)
      ∧ (b.readAt 598 4).flat [] s.store = .ok ([0, 0, 9, 0], s.store)
      ∧ (b.readAt 1498 8).flat [] s.store = .ok ([0, 0, 7], s.store) := by
  obtain ⟨mgr, σ, s, m, a, b, hcreate, hl, h, -, ha, bytes, hb, -, hat₁, hat₂⟩ := two_files_5123
  obtain ⟨m', hm', hread⟩ := file_content_refines (by decide) hcreate h.run
  obtain rfl : m = m' :=
    Runs.deterministic (fun _ _ _ _ h₁ h₂ => h₁.deterministic h₂ rfl) h.abs hm'
  obtain ⟨f, c, hf, hc, hbytes⟩ := hread _ (h.handles a (by rw [ha]; rfl))
  obtain rfl := inode_inj hf
  obtain rfl := Option.some.inj (hc.symm.trans ha)
  obtain ⟨g, d, hg, hd, hbytes'⟩ := hread _ (h.handles b (by rw [hb]; rfl))
  obtain rfl := inode_inj hg
  obtain rfl := Option.some.inj (hd.symm.trans hb)
  have hread₁ := hbytes' 598 4 (by decide)
  have hread₂ := hbytes' 1498 8 (by decide)
  dsimp only at hread₁ hread₂
  rw [hat₁] at hread₁
  rw [hat₂] at hread₂
  exact ⟨mgr, σ, s, _, _, hcreate, h.run, hbytes 0 8 (by decide), hread₁, hread₂⟩

end Nimloth
