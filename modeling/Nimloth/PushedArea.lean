import Mathlib.Data.List.GetD
import Nimloth.ForkSpace
import Nimloth.Unmapped
import Nimloth.UserSpace

/-!
# What a pushed area holds

The leaf tables and the bytes of an address space while it is built. A
fresh area has zeroed frames, and mapping it changes no frame that
somebody holds but those of the page table (`Fills`). Nothing is unmapped
meanwhile, so the leaf tables are those of the pages mapped now
(`Tight`). `copy_data` fills the pages of an area from their first byte
on.
-/

namespace Nimloth

open Outcome PageTable MemorySet

/-! ## Leaf tables of mapped pages -/

/-- Where there is a leaf table, one of its pages is mapped. -/
def Tight (m : Mem) (pt : PageTable) : Prop :=
  ∀ v, v < 2 ^ 27 → pt.translate m v ≠ none →
    ∃ u, u < 2 ^ 27 ∧ u / 512 = v / 512 ∧ pt.lookup m u ≠ none

namespace Tight

variable {st : MemState} {m m' : Mem} {pt : PageTable}

/-- A page has a leaf table if and only if a page of the same 2 MiB is mapped. -/
theorem translate_iff (h : Tight m pt) (v : Nat) : pt.translate m v ≠ none
    ↔ ∃ u, u < 2 ^ 27 ∧ u / 512 = v % 2 ^ 27 / 512 ∧ pt.lookup m u ≠ none := by
  have hv : v % 2 ^ 27 < 2 ^ 27 := Nat.mod_lt _ (by decide)
  rw [← translate_mod]
  refine ⟨h _ hv, ?_⟩
  rintro ⟨u, hu, hpath, hlook⟩
  rw [← PageState.vpnPath_eq_iff hu hv] at hpath
  rw [ne_eq, translate_eq_none, ← hpath, ← translate_eq_none]
  exact fun hnone => hlook (lookup_of_translate_eq_none hnone)

theorem congr (h : Tight m pt) (ht : Tree m pt) (hs : ∀ p ∈ pt.frames, Mem.SameFrame m m' p) :
    Tight m' pt := by
  intro v hv hne
  rw [ht.translate_congr hs] at hne
  obtain ⟨u, hu, hpath, hlook⟩ := h v hv hne
  exact ⟨u, hu, hpath, by rwa [ht.lookup_congr hs]⟩

theorem map (h : Tight st.mem pt) (ht : Tree st.mem pt) (ho : Owns st pt.frames) {vpn ppn : Nat}
    {flags : PTEFlags} (hvpn : vpn < 2 ^ 27) (hppn : ppn < 2 ^ 44) :
    Meets (fun _ => True) (pt.map vpn ppn flags) st fun pt' st' => Tight st'.mem pt' := by
  refine ((map_meets (X := fun _ => False) ht ho hvpn hppn (fun _ => Nat.le_refl 2)
    (fun _ => trivial) fun _ => trivial).and (map_translate ht ho)).mono ?_
  rintro pt' st' ⟨⟨-, -, hlook⟩, htrans⟩ v hv hne
  by_cases hpath : vpnPath vpn = vpnPath v
  · refine ⟨vpn, hvpn, (PageState.vpnPath_eq_iff hvpn hv).mp hpath, ?_⟩
    rw [hlook vpn hvpn, if_pos rfl]
    exact Option.some_ne_none _
  · obtain ⟨u, hu, huv, hne'⟩ := h v hv fun hnone => hne ((htrans v).mpr ⟨hnone, hpath⟩)
    refine ⟨u, hu, huv, ?_⟩
    rw [hlook u hu]
    split
    · exact Option.some_ne_none _
    · exact hne'

end Tight

/-! ## The frames of a fresh area -/

namespace MapArea

/-- Mapping the pages leaves the frames held by others, and the new frames are zero. -/
structure Fills (st : MemState) (pt : PageTable) (a : MapArea) (st' : MemState) (pt' : PageTable)
    (a' : MapArea) : Prop where
  tight : Tight st.mem pt → Tight st'.mem pt'
  same : ∀ p, ¬ st.alloc.Free p → p ∉ pt.frames → Mem.SameFrame st.mem st'.mem p
  zero : ∃ fs, a'.dataFrames = a.dataFrames ++ fs
    ∧ ∀ x ∈ fs, ∀ y, y / 4096 = x.2 → st'.mem y = 0

variable {st : MemState} {pt : PageTable} {a : MapArea}

theorem mapOne_fills {vpn : Nat} (ht : Tree st.mem pt) (ho : Owns st (pt.frames ++ a.ppns))
    (hvpn : vpn < 2 ^ 27) (hkeys : ∀ k ∈ a.keys, k < vpn) (hframed : a.mapType = .framed) :
    Meets (fun _ => True) (a.mapOne pt vpn) st fun r st' => Fills st pt a st' r.2 r.1 := by
  have hnokey : vpn ∉ a.keys := fun h => Nat.lt_irrefl _ (hkeys vpn h)
  have hinsert : ∀ f, btreeInsert a.dataFrames vpn f = a.dataFrames ++ [(vpn, f)] :=
    fun f => btreeInsert_last hkeys
  rw [mapOne, hframed]
  dsimp only
  rw [lookup_eq_none_of_keys hnokey, Meets.bind_iff]
  refine (frameAlloc_meets (X := fun _ => False) ho.left fun _ => trivial).mono ?_
  rintro f st₁ ⟨hm, hfree, hmem, -⟩
  have hf : f < 2 ^ 44 := hm.owns.lt_two_pow List.mem_cons_self
  have hused : ∀ p, ¬ st.alloc.Free p → Mem.SameFrame st.mem st₁.mem p := by
    intro p hp
    rw [hmem]
    refine Mem.sameFrame_zeroFrame _ ?_
    rintro rfl
    exact hp hfree
  have hsame : ∀ p ∈ pt.frames, Mem.SameFrame st.mem st₁.mem p :=
    fun p hp => hused p (ho.used p (List.mem_append_left _ hp))
  have ho₁ : Owns st₁ (pt.frames ++ [f]) := hm.owns.perm (List.perm_append_singleton f _).symm
  have hfpt : f ∉ pt.frames := (List.nodup_cons.mp hm.owns.nodup).1
  simp only [Option.toList_none, dropFrames, Meets.bind_iff, Meets.pure_iff, hinsert]
  have htight : Meets (fun _ => True) (pt.map vpn f a.mapPerm) st₁ fun pt' st' =>
      Tight st.mem pt → Tight st'.mem pt' := by
    by_cases h : Tight st.mem pt
    · refine ((h.congr ht hsame).map (ht.congr hsame) ho₁.left hvpn hf).mono ?_
      exact fun _ _ h' _ => h'
    · refine (map_meets (X := fun _ => False) (ht.congr hsame) ho₁.left hvpn hf
        (fun _ => Nat.le_refl 2) (fun _ => trivial) fun _ => trivial).mono ?_
      exact fun _ _ _ h' => absurd h' h
  refine ((map_meets (X := fun _ => False) (ht.congr hsame) ho₁.left hvpn hf
    (fun _ => Nat.le_refl 2) (fun _ => trivial) fun _ => trivial).and htight).mono ?_
  rintro pt' st' ⟨⟨hg, -, -⟩, htight⟩
  refine ⟨htight, fun p hp hpt => ?_, [(vpn, f)], rfl, ?_⟩
  · exact (hused p hp).trans (hg.moves.same p id (hm.used p hp hpt) hpt)
  · intro x hx y hy
    rw [List.mem_singleton.mp hx] at hy
    rw [hg.moves.same f id (hm.owns.used f List.mem_cons_self) hfpt y hy, hmem]
    exact Mem.zeroFrame_apply st.mem hy

/-- The frames of the first pages stay zero while the others are mapped. -/
theorem Fills.trans {st₁ st₂ : MemState} {pt₁ pt₂ : PageTable} {a₁ a₂ : MapArea}
    {v : Nat} (h : Fills st pt a st₁ pt₁ a₁) (hm : Maps (fun _ => False) st pt a [v] st₁ pt₁ a₁)
    (h' : Fills st₁ pt₁ a₁ st₂ pt₂ a₂) : Fills st pt a st₂ pt₂ a₂ := by
  obtain ⟨fs, hfs, hzero⟩ := h.zero
  obtain ⟨gs, hgs, hzero'⟩ := h'.zero
  have hheld : ∀ p ∈ a₁.ppns, ¬ st₁.alloc.Free p ∧ p ∉ pt₁.frames := fun p hp =>
    ⟨hm.moves.owns.right.used p hp, hm.moves.owns.not_mem hp⟩
  have hppns : a₁.ppns = a.ppns ++ fs.map Prod.snd := by
    rw [ppns, hfs, List.map_append]
    rfl
  refine ⟨fun ht => h'.tight (h.tight ht), fun p hp hpt => ?_, fs ++ gs, ?_, ?_⟩
  · have hkept : ¬ st₁.alloc.Free p ∧ p ∉ pt₁.frames := by
      by_cases hpa : p ∈ a.ppns
      · exact hheld p (hppns ▸ List.mem_append_left _ hpa)
      · have hout : p ∉ pt.frames ++ a.ppns := by
          rw [List.mem_append]
          exact not_or.mpr ⟨hpt, hpa⟩
        exact ⟨hm.moves.used p hp hout,
          fun hmem => hm.moves.apart p hp hout (List.mem_append_left _ hmem)⟩
    exact (h.same p hp hpt).trans (h'.same p hkept.1 hkept.2)
  · rw [hgs, hfs, List.append_assoc]
  · intro x hx y hy
    rcases List.mem_append.mp hx with hx | hx
    · obtain ⟨hused, hpt⟩ := hheld x.2 (hppns ▸ List.mem_append_right _ (List.mem_map_of_mem hx))
      rw [h'.same x.2 hused hpt y hy]
      exact hzero x hx y hy
    · exact hzero' x hx y hy

theorem mapPages_fills {vs : List Nat} (ht : Tree st.mem pt) (ho : Owns st (pt.frames ++ a.ppns))
    (hlt : ∀ v ∈ vs, v < 2 ^ 27) (hsorted : vs.Pairwise (· < ·))
    (hkeys : ∀ k ∈ a.keys, ∀ v ∈ vs, k < v) (hframed : a.mapType = .framed) :
    Meets (fun _ => True) (a.mapPages pt vs) st fun r st' => Fills st pt a st' r.2 r.1 := by
  induction vs generalizing st pt a with
  | nil =>
      refine Meets.pure_iff.mpr ⟨id, fun p _ _ => Mem.SameFrame.refl _ p, [], ?_, ?_⟩
      · exact (List.append_nil _).symm
      · exact fun x hx => absurd hx List.not_mem_nil
  | cons v vs ih =>
      obtain ⟨hv, hsorted'⟩ := List.pairwise_cons.mp hsorted
      have hvkeys : ∀ k ∈ a.keys, k < v := fun k hk => hkeys k hk v List.mem_cons_self
      rw [mapPages, Meets.bind_iff]
      refine ((mapOne_meets (X := fun _ => False) ht ho (hlt v List.mem_cons_self) hvkeys
        (fun _ => trivial) fun _ => trivial).and
        (mapOne_fills ht ho (hlt v List.mem_cons_self) hvkeys hframed)).mono ?_
      rintro ⟨a₁, pt₁⟩ st₁ ⟨hm, hfill⟩
      dsimp only at hm hfill ⊢
      refine (ih hm.tree hm.moves.owns (fun w hw => hlt w (List.mem_cons_of_mem _ hw)) hsorted' ?_
        (hm.type.trans hframed)).mono ?_
      · intro k hk w hw
        rw [hm.keys, if_pos hframed] at hk
        rcases List.mem_append.mp hk with hk | hk
        · exact hkeys k hk w (List.mem_cons_of_mem _ hw)
        · exact List.mem_singleton.mp hk ▸ hv w hw
      rintro ⟨a₂, pt₂⟩ st₂ hfill'
      exact hfill.trans hm hfill'

/-- A fresh area, mapped. -/
theorem map_fills (ht : Tree st.mem pt) (ho : Owns st pt.frames) (hnew : a.dataFrames = [])
    (hend : a.vpnRange.end_ ≤ 2 ^ 27) (hframed : a.mapType = .framed) :
    Meets (fun _ => True) (a.map pt) st fun r st' => Fills st pt a st' r.2 r.1 := by
  have hppns : a.ppns = [] := by simp [ppns, hnew]
  have hkeys : a.keys = [] := by simp [keys, hnew]
  refine mapPages_fills ht (by rwa [hppns, List.append_nil]) (fun v hv => ?_)
    a.vpnRange.pairwise_pages ?_ hframed
  · exact Nat.lt_of_lt_of_le (VPNRange.mem_pages.mp hv).2 hend
  · rw [hkeys]
    exact fun k hk => absurd hk List.not_mem_nil

end MapArea

/-! ## Bytes of an area -/

/-- The pages of the area hold the data, from the first byte of the first page on. -/
def MapArea.Holds (m : Mem) (a : MapArea) (data : List UInt8) : Prop :=
  ∀ v p, a.dataFrames.lookup v = some p → ∀ k, k < 4096 →
    m (p * 4096 + k) = data.getD ((v - a.vpnRange.start) * 4096 + k) 0

namespace MemorySet

variable {st : MemState} {ms : MemorySet} {tramp : Nat}

/-- A framed area is mapped: its frames are zero. -/
theorem map_zeroed {r : VPNRange} {perm : MapPermission} (h : ms.Ok tramp st)
    (hstart : r.start < 2 ^ 27) (hend : r.end_ ≤ 2 ^ 27) :
    Meets (fun _ => True) (MapArea.map ⟨r, [], .framed, perm⟩ ms.pageTable) st fun x st' =>
      Space tramp st'.mem x.2 (x.1 :: ms.areas) ∧ Added ⟨r, [], .framed, perm⟩ x.1
        ∧ Owns st' (x.2.frames ++ dataPpns (x.1 :: ms.areas))
        ∧ (∀ p ∈ dataPpns ms.areas, Mem.SameFrame st.mem st'.mem p)
        ∧ ∀ v p, x.1.dataFrames.lookup v = some p → ∀ y, y / 4096 = p → st'.mem y = 0 := by
  have hnew : (MapArea.mk r [] .framed perm).dataFrames = [] := rfl
  refine ((map_area_meets (X := fun _ => False) h.space h.owns hnew hstart hend (fun _ => trivial)
    fun _ => trivial).and (MapArea.map_fills h.space.tree h.owns.left hnew hend rfl)).mono ?_
  rintro ⟨a, pt⟩ st₁ ⟨⟨hspace, hadded, hm, -, hsame, -, -⟩, hfill⟩
  obtain ⟨fs, hfs, hzero⟩ := hfill.zero
  rw [hnew, List.nil_append] at hfs
  refine ⟨hspace, hadded, hm.owns, fun p hp => hsame p hp id, fun v p hp y hy => ?_⟩
  exact hzero (v, p) (mem_of_lookup (hfs ▸ hp)) y hy

/-- A framed area is pushed without data. -/
theorem pushArea_holds {r : VPNRange} {perm : MapPermission} (h : ms.Ok tramp st)
    (hstart : r.start < 2 ^ 27) (hend : r.end_ ≤ 2 ^ 27) :
    Meets (fun _ => True) (ms.pushArea ⟨r, [], .framed, perm⟩) st fun ms' st' =>
      (∀ p ∈ dataPpns ms.areas, Mem.SameFrame st.mem st'.mem p)
        ∧ ∃ a, ms'.areas = ms.areas ++ [a] := by
  rw [pushArea, Meets.bind_iff]
  refine (map_zeroed h hstart hend).mono ?_
  rintro ⟨a, pt⟩ st' ⟨-, -, -, hsame, -⟩
  exact Meets.pure_iff.mpr ⟨hsame, a, rfl⟩

/-- A framed area is pushed, with data that fits in it. -/
theorem pushData_holds {img : KernelImage} {r : VPNRange} {perm : MapPermission} {d : List UInt8}
    (h : ms.Ok tramp st) (hstart : r.start < 2 ^ 27) (hend : r.end_ ≤ 2 ^ 27)
    (hfits : Fits ⟨r, [], .framed, perm⟩ d) :
    Meets (fun _ => True) (pushData img ms ⟨r, [], .framed, perm⟩ d) st fun ms' st' =>
      (∀ p ∈ dataPpns ms.areas, Mem.SameFrame st.mem st'.mem p)
        ∧ ∃ a, Added ⟨r, [], .framed, perm⟩ a ∧ ms'.areas = ms.areas ++ [a]
          ∧ a.Holds st'.mem d := by
  rw [pushData, Meets.bind_iff]
  refine (map_zeroed h hstart hend).mono ?_
  rintro ⟨a, pt⟩ st₁ ⟨hspace, hadded, howns, hsame, hzero⟩
  dsimp only at hspace hadded howns hzero
  have htype : a.mapType = .framed := hadded.type
  have hok := hspace.ok a List.mem_cons_self
  have hlt : ∀ p ∈ dataPpns (a :: ms.areas), p < 2 ^ 44 :=
    fun p hp => howns.lt_two_pow (List.mem_append_right _ hp)
  have hvisits : ∀ v, MapArea.CopyVisits a.vpnRange.start d.length v → a.Has v := by
    rintro v ⟨hge, hv⟩
    obtain ⟨hne, hlen⟩ := hfits
    rw [hadded.range] at hge hv
    rw [MapArea.Has, hadded.range]
    dsimp only at hne hlen hge hv ⊢
    omega
  -- where the copy goes
  have hpage : ∀ v, MapArea.CopyVisits a.vpnRange.start d.length v → ∃ p,
      a.dataFrames.lookup v = some p ∧ p ∈ a.ppns
        ∧ ∃ e, pt.translate st₁.mem v = some e ∧ e.ppn = p := by
    intro v hvis
    obtain ⟨p, hp, hmem, hentry⟩ := hok.exists_frame htype (hvisits v hvis)
    refine ⟨p, hp, hmem, _, translate_of_lookup
      ((hspace.own a List.mem_cons_self v (hvisits v hvis)).trans hentry), ?_⟩
    refine PageTableEntry.ppn_new (hlt p ?_) _
    exact List.mem_flatMap.mpr ⟨a, List.mem_cons_self, hmem⟩
  have hdata := (List.nodup_append.mp howns.nodup).2.1
  rw [dataPpns_cons, List.nodup_append] at hdata
  simp only [MapArea.copyData, Meets.bind_iff, Meets.ensure_iff]
  refine ⟨fun _ => ?_, fun _ => trivial⟩
  refine (MapArea.copyLoop_bytes (f := fun v => (a.dataFrames.lookup v).getD 0) hspace.tree
    ?_ ?_ ?_).mono ?_
  · intro v hvis
    obtain ⟨p, hp, -, e, he, hppn⟩ := hpage v hvis
    exact ⟨e, he, by rw [hp, hppn]; rfl⟩
  · intro v w hv hw heq
    obtain ⟨p, hp, -, -⟩ := hpage v hv
    obtain ⟨q, hq, -, -⟩ := hpage w hw
    rw [hp, hq, Option.getD_some, Option.getD_some] at heq
    exact lookup_inj hdata.1 hp (heq ▸ hq)
  · intro v hvis
    obtain ⟨p, hp, hmem, -⟩ := hpage v hvis
    rw [hp, Option.getD_some]
    refine howns.not_mem (List.mem_flatMap.mpr ⟨a, List.mem_cons_self, hmem⟩)
  rintro _ st₂ ⟨hkeep, hbytes⟩
  refine Meets.pure_iff.mpr ⟨fun p hp => (hsame p hp).trans (hkeep p ?_), a, hadded, rfl, ?_⟩
  · intro v hvis heq
    obtain ⟨q, hq, hmem, -⟩ := hpage v hvis
    rw [hq, Option.getD_some] at heq
    exact hdata.2.2 q hmem p hp heq.symm
  · intro v p hp k hk
    have hzeros := hzero v p hp (p * 4096 + k) (by omega)
    by_cases hvis : MapArea.CopyVisits a.vpnRange.start d.length v
    · have hbyte := hbytes v hvis k hk
      rw [hp, Option.getD_some] at hbyte
      rw [hbyte, hzeros]
      split
      · rfl
      · next hge => exact (List.getD_eq_default _ _ (Nat.not_lt.mp hge)).symm
    · have hother : ∀ w, MapArea.CopyVisits a.vpnRange.start d.length w →
          p ≠ (a.dataFrames.lookup w).getD 0 := by
        intro w hw heq
        obtain ⟨q, hq, -, -⟩ := hpage w hw
        rw [hq, Option.getD_some] at heq
        exact hvis (lookup_inj hdata.1 hp (heq ▸ hq) ▸ hw)
      have hv : a.vpnRange.start ≤ v := by
        have hkeys := hok.keys
        rw [htype, if_pos rfl] at hkeys
        have hmem : v ∈ a.keys := List.mem_map_of_mem (mem_of_lookup hp)
        rw [hkeys] at hmem
        exact (VPNRange.mem_pages.mp hmem).1
      rw [hkeep p hother _ (by omega), hzeros]
      refine (List.getD_eq_default _ _ ?_).symm
      by_contra hlt
      exact hvis ⟨hv, Or.inr (by omega)⟩

end MemorySet

end Nimloth
