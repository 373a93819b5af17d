import Mathlib.Data.List.Nodup
import Nimloth.MemorySet

/-!
# The address space of a forked process

`MemorySet::from_existed_user`. The child gets an area for each area of
the parent, in frames of its own, and the bytes are copied page by page.
The parent's frames are in use while the child's are handed out, so no
frame of the child is one of the parent: `fork_isolation` ends with what
that means for any later writes through one of the two.
-/

namespace Nimloth

open Outcome PageTable MemorySet

/-! ## Copying pages -/

/-- Each page `v` of the list is copied from frame `f v` to frame `g v`. -/
theorem copyPages_meets {E : MemPanic → Prop} {src dst : PageTable} {f g : Nat → Nat}
    {vs : List Nat} {st : MemState} (hsrc : Tree st.mem src) (hdst : Tree st.mem dst)
    (hvs : vs.Nodup)
    (hs : ∀ v ∈ vs, ∃ e, src.translate st.mem v = some e ∧ e.ppn = f v)
    (hd : ∀ v ∈ vs, ∃ e, dst.translate st.mem v = some e ∧ e.ppn = g v)
    (hinj : ∀ v ∈ vs, ∀ w ∈ vs, g v = g w → v = w) (hfg : ∀ v ∈ vs, ∀ w ∈ vs, f v ≠ g w)
    (hsrcg : ∀ v ∈ vs, g v ∉ src.frames) (hdstg : ∀ v ∈ vs, g v ∉ dst.frames) :
    Meets E (copyPages src dst vs) st fun _ st' =>
      st'.alloc = st.alloc ∧ (∀ p, (∀ v ∈ vs, p ≠ g v) → Mem.SameFrame st.mem st'.mem p)
        ∧ ∀ v ∈ vs, st'.mem.frame (g v) = st.mem.frame (f v) := by
  induction vs generalizing st with
  | nil =>
      refine Meets.pure_iff.mpr ⟨rfl, fun p _ => Mem.SameFrame.refl _ p, ?_⟩
      intro v hv
      exact absurd hv List.not_mem_nil
  | cons v vs ih =>
      obtain ⟨hv, hvs'⟩ := List.nodup_cons.mp hvs
      obtain ⟨es, hes, hfs⟩ := hs v List.mem_cons_self
      obtain ⟨ed, hed, hgd⟩ := hd v List.mem_cons_self
      have hmem : ∀ w ∈ vs, w ∈ v :: vs := fun w hw => List.mem_cons_of_mem _ hw
      simp only [copyPages, Meets.bind_iff, Meets.get_iff]
      rw [hes, Meets.unwrap_some, hed, Meets.unwrap_some, Meets.set_iff, hfs, hgd]
      have hother : ∀ p, p ≠ g v →
          Mem.SameFrame st.mem (st.mem.write (g v * 4096) (st.mem.frame (f v))) p := by
        intro p hp
        refine Mem.sameFrame_write _ (Nat.le_refl _) ?_ hp
        rw [Mem.length_frame]
        omega
      have hsame : ∀ t : PageTable, g v ∉ t.frames → ∀ p ∈ t.frames,
          Mem.SameFrame st.mem (st.mem.write (g v * 4096) (st.mem.frame (f v))) p := by
        intro t ht p hp
        refine hother p ?_
        rintro rfl
        exact ht hp
      have hsrc' := hsame src (hsrcg v List.mem_cons_self)
      have hdst' := hsame dst (hdstg v List.mem_cons_self)
      refine (ih (hsrc.congr hsrc') (hdst.congr hdst') hvs' ?_ ?_ ?_ ?_ ?_ ?_).mono ?_
      · intro w hw
        rw [hsrc.translate_congr hsrc']
        exact hs w (hmem w hw)
      · intro w hw
        rw [hdst.translate_congr hdst']
        exact hd w (hmem w hw)
      · exact fun w hw x hx => hinj w (hmem w hw) x (hmem x hx)
      · exact fun w hw x hx => hfg w (hmem w hw) x (hmem x hx)
      · exact fun w hw => hsrcg w (hmem w hw)
      · exact fun w hw => hdstg w (hmem w hw)
      rintro _ st' ⟨halloc, hkeep, hcopied⟩
      refine ⟨halloc, ?_, ?_⟩
      · intro p hp
        refine (hother p (hp v List.mem_cons_self)).trans (hkeep p ?_)
        exact fun w hw => hp w (hmem w hw)
      · intro w hw
        rcases List.mem_cons.mp hw with rfl | hw
        · have hkeep' := hkeep (g w) (fun x hx heq => hv (hinj w List.mem_cons_self x (hmem x hx)
            heq ▸ hx))
          rw [hkeep'.frame]
          exact Mem.frame_write _ _ (Mem.length_frame _ _)
        · rw [hcopied w hw]
          exact (hother (f w) (hfg w (hmem w hw) v List.mem_cons_self)).frame

/-! ## The loop over the areas -/

/-- A frame belongs to one page. -/
theorem lookup_inj {l : List (Nat × Nat)} (h : (l.map Prod.snd).Nodup) {v w p : Nat}
    (hv : l.lookup v = some p) (hw : l.lookup w = some p) : v = w := by
  have hinj := List.inj_on_of_nodup_map h (mem_of_lookup hv) (mem_of_lookup hw) rfl
  exact congrArg Prod.fst hinj

theorem exists_left_of_forall₂ {α β : Type} {R : α → β → Prop} {as : List α} {bs : List β}
    (h : List.Forall₂ R as bs) {b : β} (hb : b ∈ bs) : ∃ a ∈ as, R a b := by
  induction h with
  | nil => exact absurd hb List.not_mem_nil
  | @cons a _ _ _ hab _ ih =>
      rcases List.mem_cons.mp hb with rfl | hb
      · exact ⟨a, List.mem_cons_self, hab⟩
      · obtain ⟨a', ha', hr⟩ := ih hb
        exact ⟨a', List.mem_cons_of_mem _ ha', hr⟩

theorem exists_right_of_forall₂ {α β : Type} {R : α → β → Prop} {as : List α} {bs : List β}
    (h : List.Forall₂ R as bs) {a : α} (ha : a ∈ as) : ∃ b ∈ bs, R a b := by
  obtain ⟨b, hb, hr⟩ := exists_left_of_forall₂ h.flip ha
  exact ⟨b, hb, hr⟩

/-- The area `c` is a copy of `a`: its pages hold in `m` what those of `a` held in `m₀`. -/
structure Copied (m₀ m : Mem) (a c : MapArea) : Prop extends Added a c where
  bytes : ∀ v p q, a.dataFrames.lookup v = some p → c.dataFrames.lookup v = some q →
    m.frame q = m₀.frame p

theorem Copied.mono {m₀ m m' : Mem} {as cs : List MapArea}
    (h : List.Forall₂ (Copied m₀ m) as cs) (hs : ∀ p ∈ dataPpns cs, Mem.SameFrame m m' p) :
    List.Forall₂ (Copied m₀ m') as cs := by
  induction h with
  | nil => exact List.Forall₂.nil
  | @cons a c as cs hac _ ih =>
      have hsplit := dataPpns_cons c cs
      refine List.Forall₂.cons ⟨hac.toAdded, ?_⟩ (ih (fun p hp => hs p (by simp [hsplit, hp])))
      intro v p q hp hq
      have hmem : q ∈ c.ppns := List.mem_map_of_mem (mem_of_lookup hq)
      rw [(hs q (by simp [hsplit, hmem])).frame]
      exact hac.bytes v p q hp hq

/-- The loop has copied the areas `done`; it started in `st₀`. -/
structure Forking (tramp : Nat) (st₀ : MemState) (done : List MapArea) (st : MemState)
    (child : MemorySet) : Prop where
  ok : child.Ok tramp st
  moves : Moves (fun _ => False) st₀ [] st child.frames
  areas : List.Forall₂ (Copied st₀.mem st.mem) done child.areas

/-- How many pages the areas have. -/
def pageCount (areas : List MapArea) : Nat := (areas.map (·.vpnRange.pages.length)).sum

section Loop

variable {E : MemPanic → Prop} {tramp : Nat} {st₀ : MemState} {parent : MemorySet}

/-- What the parent sees while the child is built. -/
theorem parent_kept (hp : parent.Ok tramp st₀) {st : MemState} {S : List Nat}
    (hm : Moves (fun _ => False) st₀ [] st S) :
    (∀ p ∈ parent.frames, Mem.SameFrame st₀.mem st.mem p ∧ p ∉ S)
      ∧ Space tramp st.mem parent.pageTable parent.areas := by
  have hkeep : ∀ p ∈ parent.frames, Mem.SameFrame st₀.mem st.mem p ∧ p ∉ S := fun p hmem =>
    ⟨hm.same p id (hp.owns.used p hmem) List.not_mem_nil,
      hm.apart p (hp.owns.used p hmem) List.not_mem_nil⟩
  exact ⟨hkeep, hp.space.congr (fun p hmem => (hkeep p (List.mem_append_left _ hmem)).1)⟩

/-- Where a page of a framed area is found. -/
theorem framed_page {m : Mem} {pt : PageTable} {areas : List MapArea} {a : MapArea} {v : Nat}
    (h : Space tramp m pt areas) (ha : a ∈ areas) (htype : a.mapType = .framed) (hv : a.Has v)
    (hlt : ∀ p ∈ dataPpns areas, p < 2 ^ 44) :
    ∃ p e, a.dataFrames.lookup v = some p ∧ p ∈ dataPpns areas ∧ pt.lookup m v = some e
      ∧ e = PageTableEntry.new p (a.mapPerm ||| PTEFlags.V) ∧ e.ppn = p := by
  obtain ⟨p, hp, hmem, hentry⟩ := (h.ok a ha).exists_frame htype hv
  have hdata : p ∈ dataPpns areas := List.mem_flatMap.mpr ⟨a, ha, hmem⟩
  exact ⟨p, _, hp, hdata, (h.own a ha v hv).trans hentry, rfl,
    PageTableEntry.ppn_new (hlt p hdata) _⟩

/-- The next area of the parent is not yet mapped in the child. -/
theorem Forking.fresh {st : MemState} {child : MemorySet} {done rest : List MapArea}
    {a : MapArea} (hp : parent.Ok tramp st₀) (hareas : parent.areas = done ++ a :: rest)
    (hf : Forking tramp st₀ done st child) {v : Nat} (hv : a.Has v) :
    child.pageTable.lookup st.mem v = none := by
  have ha : a ∈ parent.areas := by simp [hareas]
  have hlt := (hp.space.ok a ha).lt hv
  have hapart := hp.space.apart
  rw [hareas, List.pairwise_append] at hapart
  by_contra hne
  simp only [TRAMPOLINE_VPN] at hlt
  rcases hf.ok.space.only v (by omega) hne with heq | ⟨c, hc, hcv⟩
  · simp only [TRAMPOLINE_VPN] at heq
    omega
  · obtain ⟨b, hb, hbc⟩ := exists_left_of_forall₂ hf.areas hc
    rw [MapArea.Has, hbc.range] at hcv
    exact hapart.2.2 b hb a List.mem_cons_self v ⟨hcv, hv⟩

/-- The pages of `a` are copied to those of the area `c` of the child; only frames of `c` are
written. -/
theorem copyPages_area {st : MemState} {child : MemorySet} {a c : MapArea}
    (hspace : Space tramp st.mem parent.pageTable parent.areas)
    (hapart : ∀ p ∈ parent.frames, p ∉ child.frames) (hlt : ∀ p ∈ parent.frames, p < 2 ^ 44)
    (hok : child.Ok tramp st) (ha : a ∈ parent.areas) (hc : c ∈ child.areas)
    (htype : a.mapType = .framed) (hadded : Added a c) :
    Meets E (copyPages parent.pageTable child.pageTable a.vpnRange.pages) st fun _ st' =>
      st'.alloc = st.alloc ∧ (∀ p, p ∉ c.ppns → Mem.SameFrame st.mem st'.mem p)
        ∧ ∀ v p q, a.dataFrames.lookup v = some p → c.dataFrames.lookup v = some q →
          st'.mem.frame q = st.mem.frame p := by
  have hnodup : c.ppns.Nodup :=
    (List.nodup_flatMap.mp (List.nodup_append.mp hok.owns.nodup).2.1).1 c hc
  have hdata : ∀ q ∈ c.ppns, q ∈ dataPpns child.areas :=
    fun q hq => List.mem_flatMap.mpr ⟨c, hc, hq⟩
  -- the two frames of a page
  have hsrc : ∀ v ∈ a.vpnRange.pages, ∃ p e, (a.dataFrames.lookup v).getD 0 = p
      ∧ p ∈ dataPpns parent.areas ∧ parent.pageTable.lookup st.mem v = some e ∧ e.ppn = p := by
    intro v hv
    rw [VPNRange.mem_pages] at hv
    obtain ⟨p, e, hp, hmem, he, -, hppn⟩ :=
      framed_page hspace ha htype hv fun p hp => hlt p (List.mem_append_right _ hp)
    exact ⟨p, e, by rw [hp]; rfl, hmem, he, hppn⟩
  have hdst : ∀ v ∈ a.vpnRange.pages, ∃ q e, (c.dataFrames.lookup v).getD 0 = q
      ∧ c.dataFrames.lookup v = some q ∧ child.pageTable.lookup st.mem v = some e
      ∧ e.ppn = q ∧ q ∈ c.ppns := by
    intro v hv
    rw [VPNRange.mem_pages] at hv
    have hcv : c.Has v := by
      rw [MapArea.Has, hadded.range]
      exact hv
    obtain ⟨q, e, hq, -, he, -, hppn⟩ :=
      framed_page hok.space hc (hadded.type.trans htype) hcv fun p hp =>
        hok.owns.lt_two_pow (List.mem_append_right _ hp)
    exact ⟨q, e, by rw [hq]; rfl, hq, he, hppn, List.mem_map_of_mem (mem_of_lookup hq)⟩
  refine (copyPages_meets (f := fun v => (a.dataFrames.lookup v).getD 0)
    (g := fun v => (c.dataFrames.lookup v).getD 0) hspace.tree hok.space.tree
    a.vpnRange.nodup_pages ?_ ?_ ?_ ?_ ?_ ?_).mono ?_
  · intro v hv
    obtain ⟨p, e, rfl, -, he, hppn⟩ := hsrc v hv
    exact ⟨e, translate_of_lookup he, hppn⟩
  · intro v hv
    obtain ⟨q, e, rfl, -, he, hppn, -⟩ := hdst v hv
    exact ⟨e, translate_of_lookup he, hppn⟩
  · intro v hv w hw heq
    obtain ⟨q, -, hgq, hq, -⟩ := hdst v hv
    obtain ⟨q', -, hgq', hq', -⟩ := hdst w hw
    simp only [hgq, hgq'] at heq
    exact lookup_inj hnodup hq (heq ▸ hq')
  · intro v hv w hw heq
    obtain ⟨p, -, hgp, hpm, -⟩ := hsrc v hv
    obtain ⟨q, -, hgq, -, -, -, hqm⟩ := hdst w hw
    simp only [hgp, hgq] at heq
    exact hapart p (List.mem_append_right _ hpm)
      (heq ▸ List.mem_append_right _ (hdata q hqm))
  · intro v hv hmem
    obtain ⟨q, -, rfl, -, -, -, hqm⟩ := hdst v hv
    exact hapart _ (List.mem_append_left _ hmem) (List.mem_append_right _ (hdata _ hqm))
  · intro v hv hmem
    obtain ⟨q, -, rfl, -, -, -, hqm⟩ := hdst v hv
    exact hok.owns.not_mem (hdata _ hqm) hmem
  rintro _ st' ⟨halloc, hother, hcopied⟩
  refine ⟨halloc, ?_, ?_⟩
  · intro p hnot
    refine hother p ?_
    rintro v hv rfl
    obtain ⟨q, -, rfl, -, -, -, hqm⟩ := hdst v hv
    exact hnot hqm
  · intro v p q hp hq
    have hv : v ∈ a.vpnRange.pages := by
      have hkeys := (hspace.ok a ha).keys
      rw [htype, if_pos rfl] at hkeys
      rw [← hkeys]
      exact List.mem_map_of_mem (mem_of_lookup hp)
    have hbytes := hcopied v hv
    simpa only [hp, hq, Option.getD_some] using hbytes

/-- One turn of the loop: the area is pushed, then its pages are copied. -/
theorem copyArea_meets {st : MemState} {child : MemorySet} {done rest : List MapArea}
    {a : MapArea} (hp : parent.Ok tramp st₀) (hframed : ∀ a ∈ parent.areas, a.mapType = .framed)
    (hareas : parent.areas = done ++ a :: rest) (hf : Forking tramp st₀ done st child)
    (hE : st.alloc.available < 3 * a.vpnRange.pages.length → E .outOfFrames) :
    Meets E (do
        let newArea ← MapArea.fromAnother a
        let ms ← child.pushArea newArea
        copyPages parent.pageTable ms.pageTable a.vpnRange.pages
        pure ms) st fun child' st' =>
      Forking tramp st₀ (done ++ [a]) st' child'
        ∧ st.alloc.available ≤ st'.alloc.available + 3 * a.vpnRange.pages.length := by
  have ha : a ∈ parent.areas := by simp [hareas]
  have hale := a.vpnRange.le
  have hend := (hp.space.ok a ha).le
  simp only [TRAMPOLINE_VPN] at hend
  simp only [MapArea.fromAnother, Meets.bind_iff]
  refine (VPNRange.new_meets (fun h => absurd h (by omega))).mono ?_
  rintro r _ ⟨rfl, hrs, hre⟩
  obtain rfl : r = a.vpnRange := VPNRange.ext hrs hre
  refine Meets.pure_iff.mpr ?_
  have hnew : (MapArea.mk a.vpnRange [] a.mapType a.mapPerm).dataFrames = [] := rfl
  refine (pushArea_meets (X := fun _ => False) hnew (by dsimp only; omega)
    (by dsimp only; omega) hE ?_ hf.ok).mono ?_
  · rintro ⟨v, hv, hne⟩
    exact absurd (hf.fresh hp hareas hv) hne
  rintro child₁ st₁ ⟨hpush, hsame⟩
  obtain ⟨c, hadded, hchild⟩ := hpush.areas
  have hc : c ∈ child₁.areas := by simp [hchild]
  have hm₁ := hf.moves.trans hpush.moves
  obtain ⟨hkeep, hspace⟩ := parent_kept hp hm₁
  refine (copyPages_area hspace (fun p hmem => (hkeep p hmem).2)
    (fun p hmem => hp.owns.lt_two_pow hmem) hpush.ok ha hc (hframed a ha)
    ⟨hadded.range, hadded.type, hadded.perm⟩).mono ?_
  rintro _ st₂ ⟨halloc, hother, hcopied⟩
  refine Meets.pure_iff.mpr ?_
  have hst₂ : st₂ = { st₁ with mem := st₂.mem } := by rw [← halloc]
  have hdata : ∀ p ∈ c.ppns, p ∈ dataPpns child₁.areas :=
    fun p hmem => List.mem_flatMap.mpr ⟨c, hc, hmem⟩
  have hm₂ : Moves (fun _ => False) st₁ child₁.frames st₂ child₁.frames := by
    rw [hst₂]
    refine Moves.of_same hpush.ok.owns fun p _ hnot => hother p fun hcm => ?_
    exact hnot (List.mem_append_right _ (hdata p hcm))
  have hnodup := (List.nodup_append.mp hpush.ok.owns.nodup).2.1
  rw [hchild, dataPpns, List.flatMap_append, List.nodup_append] at hnodup
  refine ⟨⟨⟨hpush.ok.space.congr ?_, hm₂.owns⟩, hm₁.trans hm₂, ?_⟩, ?_⟩
  · exact fun p hmem => hother p fun hcm => hpush.ok.owns.not_mem (hdata p hcm) hmem
  · rw [hchild]
    refine List.rel_append ?_ (List.Forall₂.cons ⟨?_, ?_⟩ List.Forall₂.nil)
    · -- the areas copied before keep their bytes
      refine Copied.mono hf.areas fun p hmem => (hsame p hmem id).trans (hother p fun hcm => ?_)
      exact hnodup.2.2 _ hmem _ (by simpa using hcm) rfl
    · exact ⟨hadded.range, hadded.type, hadded.perm⟩
    · intro v p q hpv hqv
      have hpm : p ∈ dataPpns parent.areas :=
        List.mem_flatMap.mpr ⟨a, ha, List.mem_map_of_mem (mem_of_lookup hpv)⟩
      rw [hcopied v p q hpv hqv, (hkeep p (List.mem_append_right _ hpm)).1.frame]
  · rw [halloc]
    exact hpush.avail

theorem copyAreas_meets {st : MemState} {child : MemorySet} {done rest : List MapArea}
    (hp : parent.Ok tramp st₀) (hframed : ∀ a ∈ parent.areas, a.mapType = .framed)
    (hareas : parent.areas = done ++ rest) (hf : Forking tramp st₀ done st child)
    (hE : st.alloc.available < 3 * pageCount rest → E .outOfFrames) :
    Meets E (copyAreas parent child rest) st fun child' st' =>
      Forking tramp st₀ parent.areas st' child'
        ∧ st.alloc.available ≤ st'.alloc.available + 3 * pageCount rest := by
  induction rest generalizing done st child with
  | nil =>
      rw [List.append_nil] at hareas
      exact Meets.pure_iff.mpr ⟨hareas ▸ hf, Nat.le_add_right _ _⟩
  | cons a rest ih =>
      have hcount : pageCount (a :: rest) = a.vpnRange.pages.length + pageCount rest := by
        simp [pageCount]
      have hunfold : copyAreas parent child (a :: rest) = (do
          let newArea ← MapArea.fromAnother a
          let ms ← child.pushArea newArea
          copyPages parent.pageTable ms.pageTable a.vpnRange.pages
          pure ms) >>= fun ms => copyAreas parent ms rest := by
        simp only [copyAreas, bind_assoc, pure_bind]
      rw [hunfold, Meets.bind_iff]
      refine (copyArea_meets hp hframed hareas hf (fun h => hE (by omega))).mono ?_
      rintro child₁ st₁ ⟨hf₁, hav⟩
      have hareas' : parent.areas = (done ++ [a]) ++ rest := by simp [hareas]
      refine (ih hareas' hf₁ (fun h => hE (by omega))).mono ?_
      rintro child₂ st₂ ⟨hf₂, hav₂⟩
      exact ⟨hf₂, by omega⟩

end Loop

/-- `from_existed_user` copies every area and takes at most three frames for each page. -/
theorem fromExistedUser_meets {E : MemPanic → Prop} {img : KernelImage} {st : MemState}
    {parent : MemorySet} (hp : parent.Ok img.trampoline st)
    (hframed : ∀ a ∈ parent.areas, a.mapType = .framed)
    (hE : st.alloc.available < 3 + 3 * pageCount parent.areas → E .outOfFrames) :
    Meets E (fromExistedUser img parent) st fun child st' =>
      Forking img.trampoline st parent.areas st' child
        ∧ st.alloc.available ≤ st'.alloc.available + (3 + 3 * pageCount parent.areas) := by
  have hunfold : fromExistedUser img parent
      = (do let ms ← newBare; ms.mapTrampoline img) >>= fun ms =>
        copyAreas parent ms parent.areas := by
    simp only [fromExistedUser, bind_assoc]
  rw [hunfold, Meets.bind_iff]
  refine (newUser_meets (X := fun _ => False) (Owns.nil hp.owns.wf)
    (fun h => hE (by omega))).mono ?_
  rintro child₀ st₁ ⟨hok, hnil, hm, hav⟩
  have hf : Forking img.trampoline st [] st₁ child₀ := by
    refine ⟨hok, hm, ?_⟩
    rw [hnil]
    exact List.Forall₂.nil
  refine (copyAreas_meets hp hframed rfl hf (fun h => hE (by omega))).mono ?_
  rintro child st' ⟨hf', hav'⟩
  exact ⟨hf', by omega⟩

/-- A page of the parent and of the child: the trampoline, a page of neither, or a copy. -/
theorem Forking.page {tramp : Nat} {st st' : MemState} {parent child : MemorySet}
    (hp : parent.Ok tramp st) (hframed : ∀ a ∈ parent.areas, a.mapType = .framed)
    (hf : Forking tramp st parent.areas st' child) {v : Nat} (hv : v < 2 ^ 27) :
    (v = TRAMPOLINE_VPN ∧ parent.pageTable.lookup st.mem v = some (trampolineEntry tramp)
        ∧ child.pageTable.lookup st'.mem v = some (trampolineEntry tramp))
      ∨ (parent.pageTable.lookup st.mem v = none ∧ child.pageTable.lookup st'.mem v = none)
      ∨ ∃ p q f, p ∈ dataPpns parent.areas ∧ q ∈ dataPpns child.areas
        ∧ parent.pageTable.lookup st.mem v = some (PageTableEntry.new p f)
        ∧ child.pageTable.lookup st'.mem v = some (PageTableEntry.new q f)
        ∧ st'.mem.frame q = st.mem.frame p := by
  have hltp : ∀ p ∈ dataPpns parent.areas, p < 2 ^ 44 :=
    fun p hmem => hp.owns.lt_two_pow (List.mem_append_right _ hmem)
  have hltc : ∀ p ∈ dataPpns child.areas, p < 2 ^ 44 :=
    fun p hmem => hf.ok.owns.lt_two_pow (List.mem_append_right _ hmem)
  by_cases htr : v = TRAMPOLINE_VPN
  · exact Or.inl ⟨htr, htr ▸ hp.space.trampoline, htr ▸ hf.ok.space.trampoline⟩
  refine Or.inr ?_
  by_cases hnone : parent.pageTable.lookup st.mem v = none
  · refine Or.inl ⟨hnone, ?_⟩
    by_contra hne
    rcases hf.ok.space.only v hv hne with heq | ⟨c, hc, hcv⟩
    · exact htr heq
    · obtain ⟨a, ha, hac⟩ := exists_left_of_forall₂ hf.areas hc
      rw [MapArea.Has, hac.range] at hcv
      exact hp.space.mapped ha hcv hnone
  · refine Or.inr ?_
    obtain ⟨a, ha, hav⟩ := (hp.space.only v hv hnone).resolve_left htr
    obtain ⟨c, hc, hac⟩ := exists_left_of_forall₂ hf.areas.flip ha
    have hac : Copied st.mem st'.mem a c := hac
    have hcv : c.Has v := by
      rw [MapArea.Has, hac.range]
      exact hav
    obtain ⟨p, e, h₁, h₂, h₃, rfl, -⟩ := framed_page hp.space ha (hframed a ha) hav hltp
    obtain ⟨q, e', k₁, k₂, k₃, rfl, -⟩ :=
      framed_page hf.ok.space hc (hac.type.trans (hframed a ha)) hcv hltc
    rw [hac.perm] at k₃
    exact ⟨p, q, _, h₂, k₂, h₃, k₃, hac.bytes v p q h₁ k₁⟩

/-! ## Reads and writes through an address space -/

/-- The byte at address `va`. -/
def loadByte (pt : PageTable) (m : Mem) (va : Nat) : Option UInt8 :=
  (pt.lookup m (VirtAddr.floor (VirtAddr.from va))).map fun e => m (e.ppn * 4096 + va % 4096)

/-- A byte written at address `va`; the trampoline is mapped without `W`. -/
def storeByte (pt : PageTable) (m : Mem) (va : Nat) (b : UInt8) : Mem :=
  if VirtAddr.floor (VirtAddr.from va) = TRAMPOLINE_VPN then m
  else match pt.lookup m (VirtAddr.floor (VirtAddr.from va)) with
    | some e => m.write (e.ppn * 4096 + va % 4096) [b]
    | none => m

def storeBytes (pt : PageTable) (m : Mem) (ws : List (Nat × UInt8)) : Mem :=
  ws.foldl (fun m w => storeByte pt m w.1 w.2) m

theorem floor_from_lt (va : Nat) : VirtAddr.floor (VirtAddr.from va) < 2 ^ 27 := by
  have := virtAddr_lt va
  unfold VirtAddr.floor
  simp only [PAGE_SIZE]
  omega

section Writes

variable {tramp : Nat} {m : Mem} {pt : PageTable} {areas : List MapArea}

/-- A write goes to a frame of an area. -/
theorem sameFrame_storeByte (h : Space tramp m pt areas)
    (hframed : ∀ a ∈ areas, a.mapType = .framed) (hlt : ∀ p ∈ dataPpns areas, p < 2 ^ 44)
    (va : Nat) (b : UInt8) {p : Nat} (hp : p ∉ dataPpns areas) :
    Mem.SameFrame m (storeByte pt m va b) p := by
  unfold storeByte
  split
  · exact Mem.SameFrame.refl m p
  · next htr =>
      split
      · next e he =>
          have hne : pt.lookup m (VirtAddr.floor (VirtAddr.from va)) ≠ none := by
            rw [he]
            exact Option.some_ne_none e
          obtain ⟨a, ha, hav⟩ := (h.only _ (floor_from_lt va) hne).resolve_left htr
          obtain ⟨q, e', -, hq, he', -, hppn⟩ := framed_page h ha (hframed a ha) hav hlt
          rw [he] at he'
          cases he'
          refine Mem.sameFrame_write _ (n := e.ppn) (by omega) ?_ ?_
          · rw [List.length_singleton]
            omega
          · rintro rfl
            exact hp (hppn ▸ hq)
      · exact Mem.SameFrame.refl m p

theorem sameFrame_storeBytes (h : Space tramp m pt areas)
    (hframed : ∀ a ∈ areas, a.mapType = .framed) (hlt : ∀ p ∈ dataPpns areas, p < 2 ^ 44)
    (hapart : ∀ p ∈ pt.frames, p ∉ dataPpns areas) (ws : List (Nat × UInt8)) {p : Nat}
    (hp : p ∉ dataPpns areas) : Mem.SameFrame m (storeBytes pt m ws) p := by
  induction ws generalizing m with
  | nil => exact Mem.SameFrame.refl m p
  | cons w ws ih =>
      have hstep : ∀ q, q ∉ dataPpns areas → Mem.SameFrame m (storeByte pt m w.1 w.2) q :=
        fun q hq => sameFrame_storeByte h hframed hlt w.1 w.2 hq
      exact (hstep p hp).trans (ih (h.congr (fun q hq => hstep q (hapart q hq))))

/-- Who maps none of the frames written reads what it read before. -/
theorem loadByte_congr {m' : Mem} (h : Space tramp m pt areas)
    (hframed : ∀ a ∈ areas, a.mapType = .framed) (hlt : ∀ p ∈ dataPpns areas, p < 2 ^ 44)
    (htr : tramp < 2 ^ 44) (hs : ∀ p ∈ pt.frames ++ dataPpns areas, Mem.SameFrame m m' p)
    (hstr : Mem.SameFrame m m' tramp) (va : Nat) : loadByte pt m' va = loadByte pt m va := by
  unfold loadByte
  rw [h.tree.lookup_congr (fun p hp => hs p (List.mem_append_left _ hp))]
  cases he : pt.lookup m (VirtAddr.floor (VirtAddr.from va)) with
  | none => rfl
  | some e =>
      have hsame : Mem.SameFrame m m' e.ppn := by
        have hne : pt.lookup m (VirtAddr.floor (VirtAddr.from va)) ≠ none := by
          rw [he]
          exact Option.some_ne_none e
        rcases h.only _ (floor_from_lt va) hne with heq | ⟨a, ha, hav⟩
        · rw [heq, h.trampoline] at he
          cases he
          rwa [trampolineEntry, PageTableEntry.ppn_new htr]
        · obtain ⟨q, e', -, hq, he', -, hppn⟩ := framed_page h ha (hframed a ha) hav hlt
          rw [he] at he'
          cases he'
          rw [hppn]
          exact hs q (List.mem_append_right _ hq)
      simp only [Option.map_some, Option.some.injEq]
      exact hsame _ (by omega)

/-- Writes through one address space do not show through another one that has none of its
    frames. -/
theorem loadByte_storeBytes {st : MemState} {ms other : MemorySet} (h : ms.Ok tramp st)
    (hframed : ∀ a ∈ ms.areas, a.mapType = .framed) (h' : other.Ok tramp st)
    (hframed' : ∀ a ∈ other.areas, a.mapType = .framed) (htr : tramp < 2 ^ 44)
    (htr' : tramp ∉ dataPpns ms.areas) (hapart : ∀ p ∈ other.frames, p ∉ dataPpns ms.areas)
    (ws : List (Nat × UInt8)) (va : Nat) :
    loadByte other.pageTable (storeBytes ms.pageTable st.mem ws) va
      = loadByte other.pageTable st.mem va := by
  have hlt : ∀ p ∈ dataPpns ms.areas, p < 2 ^ 44 :=
    fun p hp => h.owns.lt_two_pow (List.mem_append_right _ hp)
  have hlt' : ∀ p ∈ dataPpns other.areas, p < 2 ^ 44 :=
    fun p hp => h'.owns.lt_two_pow (List.mem_append_right _ hp)
  have hsame : ∀ p, p ∉ dataPpns ms.areas →
      Mem.SameFrame st.mem (storeBytes ms.pageTable st.mem ws) p := by
    intro p hp
    refine sameFrame_storeBytes h.space hframed hlt ?_ ws hp
    exact fun q hq hd => h.owns.not_mem hd hq
  exact loadByte_congr h'.space hframed' hlt' htr (fun p hp => hsame p (hapart p hp))
    (hsame tramp htr') va

end Writes

/-- `from_existed_user` on a user space with enough free frames: it returns, the child maps the
    same pages with the same flags and bytes in frames that were free, nothing in use was
    written, and afterwards neither side sees what the other writes. -/
theorem fork_isolation (img : KernelImage) (st : MemState) (parent : MemorySet)
    (hp : parent.Ok img.trampoline st) (hframed : ∀ a ∈ parent.areas, a.mapType = .framed)
    (hkernel : ∀ p, st.alloc.Free p ∨ p ∈ parent.frames → img.ekernel ≤ p * 4096)
    (henough : 3 + 3 * pageCount parent.areas ≤ st.alloc.available) :
    ∃ child st', fromExistedUser img parent st = .ok (child, st')
      ∧ child.Ok img.trampoline st'
      ∧ (∀ v, v < 2 ^ 27 → (child.pageTable.lookup st'.mem v).map PageTableEntry.flags
          = (parent.pageTable.lookup st.mem v).map PageTableEntry.flags)
      ∧ (∀ v e e', v < 2 ^ 27 → parent.pageTable.lookup st.mem v = some e →
          child.pageTable.lookup st'.mem v = some e' →
          st'.mem.frame e'.ppn = st.mem.frame e.ppn
            ∧ (v ≠ TRAMPOLINE_VPN → e'.ppn ∈ dataPpns child.areas)
            ∧ (v = TRAMPOLINE_VPN → e' = e))
      ∧ child.frames.Nodup
      ∧ (∀ p ∈ child.frames, st.alloc.Free p ∧ ¬ st'.alloc.Free p)
      ∧ (∀ p, ¬ st.alloc.Free p → Mem.SameFrame st.mem st'.mem p)
      ∧ parent.Ok img.trampoline st'
      ∧ (∀ ws va, loadByte parent.pageTable (storeBytes child.pageTable st'.mem ws) va
          = loadByte parent.pageTable st'.mem va)
      ∧ (∀ ws va, loadByte child.pageTable (storeBytes parent.pageTable st'.mem ws) va
          = loadByte child.pageTable st'.mem va) := by
  have hmeets : Meets (fun _ => False) (fromExistedUser img parent) st fun child st' =>
      Forking img.trampoline st parent.areas st' child :=
    (fromExistedUser_meets hp hframed (fun h => absurd h (by omega))).mono fun _ _ h => h.1
  obtain ⟨child, st', hrun, hf⟩ := hmeets.exists_ok
  obtain ⟨hkeep, hspace⟩ := parent_kept hp hf.moves
  have htr := img.trampoline_lt_two_pow
  have htramp : ∀ p, st.alloc.Free p ∨ p ∈ parent.frames → img.trampoline ≠ p := by
    rintro p hmem rfl
    exact absurd (hkernel _ hmem) (Nat.not_le_of_lt img.trampoline_lt_ekernel)
  have hltp : ∀ p ∈ dataPpns parent.areas, p < 2 ^ 44 :=
    fun p hmem => hp.owns.lt_two_pow (List.mem_append_right _ hmem)
  have hltc : ∀ p ∈ dataPpns child.areas, p < 2 ^ 44 :=
    fun p hmem => hf.ok.owns.lt_two_pow (List.mem_append_right _ hmem)
  have hfree : ∀ p ∈ child.frames, st.alloc.Free p :=
    fun p hmem => hf.moves.was_free hmem List.not_mem_nil
  have hsame : ∀ p, ¬ st.alloc.Free p → Mem.SameFrame st.mem st'.mem p :=
    fun p hused => hf.moves.same p id hused List.not_mem_nil
  have hparent : parent.Ok img.trampoline st' := by
    have hframe : Moves (fun _ => False) st ([] ++ parent.frames) st'
        (child.frames ++ parent.frames) := hf.moves.frame hp.owns
    exact ⟨hspace, hframe.owns.right⟩
  have hcframed : ∀ c ∈ child.areas, c.mapType = .framed := by
    intro c hc
    obtain ⟨a, ha, hac⟩ := exists_left_of_forall₂ hf.areas hc
    exact hac.type.trans (hframed a ha)
  refine ⟨child, st', hrun, hf.ok, ?_, ?_, hf.ok.owns.nodup,
    fun p hmem => ⟨hfree p hmem, hf.ok.owns.used p hmem⟩, hsame, hparent, ?_, ?_⟩
  · intro v hv
    rcases hf.page hp hframed hv with ⟨-, h₁, h₂⟩ | ⟨h₁, h₂⟩ | ⟨p, q, f, hpm, hqm, h₁, h₂, -⟩
    · rw [h₁, h₂]
    · rw [h₁, h₂]
    · rw [h₁, h₂, Option.map_some, Option.map_some, PageTableEntry.flags_new (hltp p hpm),
        PageTableEntry.flags_new (hltc q hqm)]
  · intro v e e' hv he he'
    rcases hf.page hp hframed hv with ⟨hveq, h₁, h₂⟩ | ⟨h₁, -⟩ | ⟨p, q, f, hpm, hqm, h₁, h₂, hbytes⟩
    · rw [he] at h₁
      rw [he'] at h₂
      cases h₁
      cases h₂
      refine ⟨?_, fun hne => absurd hveq hne, fun _ => rfl⟩
      refine (hsame _ ?_).frame
      rw [trampolineEntry, PageTableEntry.ppn_new htr]
      exact fun hmem => htramp _ (Or.inl hmem) rfl
    · rw [he] at h₁
      cases h₁
    · rw [he] at h₁
      rw [he'] at h₂
      cases h₁
      cases h₂
      rw [PageTableEntry.ppn_new (hltp p hpm), PageTableEntry.ppn_new (hltc q hqm)]
      refine ⟨hbytes, fun _ => hqm, ?_⟩
      intro hveq
      rw [hveq, hp.space.trampoline] at he
      rw [hveq, hf.ok.space.trampoline] at he'
      rw [← Option.some.inj he, ← Option.some.inj he']
  · refine loadByte_storeBytes hf.ok hcframed hparent hframed htr ?_ ?_
    · exact fun hmem => htramp _ (Or.inl (hfree _ (List.mem_append_right _ hmem))) rfl
    · exact fun p hmem hd => (hkeep p hmem).2 (List.mem_append_right _ hd)
  · refine loadByte_storeBytes hparent hframed hf.ok hcframed htr ?_ ?_
    · exact fun hmem => (htramp _ (Or.inr (List.mem_append_right _ hmem))) rfl
    · exact fun p hmem hd => (hkeep p (List.mem_append_right _ hd)).2 hmem

/-- A process with two pages of memory is forked. -/
theorem fork_isolation_two_pages :
    ∃ st parent child st', parent.areas.length = 1 ∧ pageCount parent.areas = 2
      ∧ fromExistedUser default parent st = .ok (child, st')
      ∧ ∀ ws va, loadByte parent.pageTable (storeBytes child.pageTable st'.mem ws) va
          = loadByte parent.pageTable st'.mem va := by
  let img : KernelImage := default
  let st₀ : MemState := ⟨fun _ => 0, img.initFrameAllocator⟩
  have havail : st₀.alloc.available = 0x900 := by decide
  have hbuild : Meets (fun _ => False) ((do let ms ← newBare; ms.mapTrampoline img) >>= fun ms =>
      ms.insertFramedArea 0x10000 0x12000 (PTEFlags.R ||| PTEFlags.W ||| PTEFlags.U)) st₀
      fun ms st => ms.Ok img.trampoline st ∧ Moves (fun _ => False) st₀ [] st ms.frames
        ∧ (∃ a, ms.areas = [a] ∧ a.mapType = .framed ∧ a.vpnRange.pages.length = 2)
        ∧ 9 ≤ st.alloc.available := by
    rw [Meets.bind_iff]
    refine (newUser_meets (X := fun _ => False) (Owns.nil img.wf_initFrameAllocator)
      (fun h => absurd h (by omega))).mono ?_
    rintro ms st₁ ⟨hok, hnil, hm, hav⟩
    refine (pushNew_meets (X := fun _ => False) hok (by decide) (by decide)
      (fun h => ?_) (fun h => absurd h (by decide)) ?_).mono ?_
    · have hpages : VirtAddr.ceil 0x12000 - VirtAddr.floor 0x10000 = 2 := by decide
      rw [hpages] at h
      omega
    · rintro ⟨v, -, hv, hne⟩
      rcases hok.space.only v (Nat.lt_trans hv (by decide)) hne with rfl | ⟨a, ha, -⟩
      · exact absurd hv (by decide)
      · rw [hnil] at ha
        exact absurd ha List.not_mem_nil
    rintro ms' st₂ ⟨r, hrs, hre, hpush⟩
    obtain ⟨a, hadded, hareas⟩ := hpush.areas
    have hlen : r.pages.length = 2 := by
      rw [VPNRange.length_pages, hrs, hre]
      decide
    have hav₂ := hpush.avail
    dsimp only at hav₂
    refine ⟨hpush.ok, hm.trans hpush.moves, ⟨a, by rw [hareas, hnil]; rfl, hadded.type, ?_⟩, ?_⟩
    · rw [hadded.range]
      exact hlen
    · omega
  obtain ⟨parent, st, -, hok, hm, ⟨a, hareas, htype, hlen⟩, hav⟩ := hbuild.exists_ok
  have hcount : pageCount parent.areas = 2 := by
    rw [hareas, pageCount]
    simpa using hlen
  have hframed : ∀ b ∈ parent.areas, b.mapType = .framed := by
    intro b hb
    rw [hareas, List.mem_singleton] at hb
    exact hb ▸ htype
  have hkernel : ∀ p, st.alloc.Free p ∨ p ∈ parent.frames → img.ekernel ≤ p * 4096 := by
    intro p hmem
    refine (img.bounds_of_free ?_).1
    rcases hmem with hfree | hmem
    · by_contra hused
      exact hm.used p hused List.not_mem_nil hfree
    · exact hm.was_free hmem List.not_mem_nil
  obtain ⟨child, st', hrun, -, -, -, -, -, -, -, hiso, -⟩ :=
    fork_isolation img st parent hok hframed hkernel (by omega)
  exact ⟨st, parent, child, st', by rw [hareas]; rfl, hcount, hrun, hiso⟩

end Nimloth
