import Nimloth.KernelImage

/-!
# Copying data to pages

`MapArea::copy_data` translates one page after the other and copies to the
frame it finds, without a look at the entry or at the end of the area. A
leaf entry that is empty leads to frame 0, that of the trampoline to the
code of the kernel. Neither is mapped writable in the kernel, so the copy
ends there with a fault: what it writes are frames that can be stored to.
-/

namespace Nimloth

open Outcome PageTable

namespace MapArea

/-! ## The code -/

/-- The loop of `copy_data`; `data` is what is still to be copied. -/
def copyLoop (img : KernelImage) (pt : PageTable) (vpn : Nat) (data : List UInt8) :
    MemM Unit := do
  let st ← get
  let pte ← unwrap .noTable (pt.translate st.mem vpn)
  -- the copy of no byte stores nothing
  ensure .storeFault (data = [] ∨ img.Stores pte.ppn)
  set { st with mem := st.mem.write (pte.ppn * 4096) (data.take 4096) }
  if data.length ≤ 4096 then pure () else copyLoop img pt (vpn + 1) (data.drop 4096)
termination_by data.length
decreasing_by
  rw [List.length_drop]
  omega

def copyData (img : KernelImage) (a : MapArea) (pt : PageTable) (data : List UInt8) :
    MemM Unit := do
  ensure .notFramed (a.mapType = .framed)
  copyLoop img pt a.vpnRange.start data

/-! ## Pages of a copy -/

/-- The copy of `len` bytes to the pages from `vpn` on comes to page `v`. -/
def CopyVisits (vpn len v : Nat) : Prop := vpn ≤ v ∧ (v = vpn ∨ (v - vpn) * 4096 < len)

/-- Page `v` takes a part of the data: it has a leaf table, and a frame that can be stored to if
    there is anything to store. -/
def CopyTakes (img : KernelImage) (m : Mem) (pt : PageTable) (data : List UInt8) (v : Nat) :
    Prop :=
  ∃ e, pt.translate m v = some e ∧ (data = [] ∨ img.Stores e.ppn)

variable {img : KernelImage} {E : MemPanic → Prop} {st : MemState} {pt : PageTable}

/-- A copy writes only frames its pages are translated to, and all of them take their part. -/
theorem copyLoop_meets {F : Nat → Prop} {vpn : Nat} {data : List UInt8} (ht : Tree st.mem pt)
    (hF : ∀ v e, CopyVisits vpn data.length v → pt.translate st.mem v = some e →
      img.Stores e.ppn → F e.ppn)
    (hapart : ∀ p ∈ pt.frames, ¬ F p)
    (htable : ∀ v, CopyVisits vpn data.length v → pt.translate st.mem v = none → E .noTable)
    (hfault : ∀ v, CopyVisits vpn data.length v → ¬ CopyTakes img st.mem pt data v →
      E .storeFault) :
    Meets E (copyLoop img pt vpn data) st fun _ st' =>
      st'.alloc = st.alloc ∧ (∀ p, ¬ F p → Mem.SameFrame st.mem st'.mem p)
        ∧ ∀ v, CopyVisits vpn data.length v → CopyTakes img st.mem pt data v := by
  induction hlen : data.length using Nat.strong_induction_on generalizing vpn data st with
  | h n ih =>
      have hfirst : CopyVisits vpn data.length vpn := ⟨Nat.le_refl _, Or.inl rfl⟩
      rw [copyLoop]
      simp only [Meets.bind_iff, Meets.get_iff]
      cases hv : pt.translate st.mem vpn with
      | none => exact Meets.unwrap_none.mpr (htable vpn (hlen ▸ hfirst) hv)
      | some e =>
          simp only [Meets.unwrap_some, Meets.ensure_iff, Meets.set_iff]
          refine ⟨fun hstore => ?_, fun hno => hfault vpn (hlen ▸ hfirst) ?_⟩
          swap
          · rintro ⟨e', he', hstore⟩
            rw [hv] at he'
            cases he'
            exact hno hstore
          have htakes : CopyTakes img st.mem pt data vpn := ⟨e, hv, hstore⟩
          have hwrite : ∀ p, ¬ F p →
              Mem.SameFrame st.mem (st.mem.write (e.ppn * 4096) (data.take 4096)) p := by
            intro p hp
            rcases hstore with rfl | hstore
            · rw [List.take_nil, Mem.write_nil]
              exact Mem.SameFrame.refl _ p
            · refine Mem.sameFrame_write _ (Nat.le_refl _) ?_ ?_
              · rw [List.length_take]
                omega
              · rintro rfl
                exact hp (hF vpn e (hlen ▸ hfirst) hv hstore)
          by_cases hle : data.length ≤ 4096
          · rw [if_pos hle]
            refine Meets.pure_iff.mpr ⟨rfl, hwrite, fun v hvis => ?_⟩
            obtain rfl : v = vpn := by
              obtain ⟨hge, hlt⟩ := hvis
              omega
            exact htakes
          · rw [if_neg hle]
            have hsame : ∀ p ∈ pt.frames, Mem.SameFrame st.mem
                (st.mem.write (e.ppn * 4096) (data.take 4096)) p :=
              fun p hp => hwrite p (hapart p hp)
            have hne : data ≠ [] := by
              rintro rfl
              exact hle (Nat.zero_le _)
            have hdrop : (data.drop 4096).length = data.length - 4096 := List.length_drop
            have hne' : data.drop 4096 ≠ [] := by
              intro hnil
              rw [hnil, List.length_nil] at hdrop
              omega
            have hrest : ∀ v, CopyVisits (vpn + 1) (data.drop 4096).length v →
                CopyVisits vpn data.length v := by
              rintro v ⟨hge, hlt⟩
              exact ⟨by omega, Or.inr (by omega)⟩
            -- what is left to copy is taken by the same pages
            have hpart : ∀ v, CopyTakes img
                (st.mem.write (e.ppn * 4096) (data.take 4096)) pt (data.drop 4096) v
                ↔ CopyTakes img st.mem pt data v := by
              intro v
              simp only [CopyTakes, ht.translate_congr hsame, hne, hne', false_or]
            refine (ih (data.drop 4096).length (by omega) (ht.congr hsame) ?_ ?_ ?_ rfl).mono ?_
            · intro v e' hvis he'
              exact hF v e' (hlen ▸ hrest v hvis) (ht.translate_congr hsame v ▸ he')
            · intro v hvis hnone
              exact htable v (hlen ▸ hrest v hvis) (ht.translate_congr hsame v ▸ hnone)
            · intro v hvis hno
              exact hfault v (hlen ▸ hrest v hvis) fun h => hno ((hpart v).mpr h)
            · rintro _ st' ⟨halloc, hst, htaken⟩
              refine ⟨halloc, fun p hp => (hwrite p hp).trans (hst p hp), fun v hvis => ?_⟩
              by_cases heq : v = vpn
              · exact heq ▸ htakes
              · obtain ⟨hge, hlt⟩ := hvis
                exact (hpart v).mp (htaken v ⟨by omega, Or.inr (by omega)⟩)

/-! ## Copied bytes -/

/-- A copy fills the frames of its pages from the first byte on, and no other. -/
theorem copyLoop_bytes {f : Nat → Nat} {vpn : Nat} {data : List UInt8} (ht : Tree st.mem pt)
    (hf : ∀ v, CopyVisits vpn data.length v →
      ∃ e, pt.translate st.mem v = some e ∧ e.ppn = f v)
    (hinj : ∀ v w, CopyVisits vpn data.length v → CopyVisits vpn data.length w →
      f v = f w → v = w)
    (hapart : ∀ v, CopyVisits vpn data.length v → f v ∉ pt.frames) :
    Meets (fun _ => True) (copyLoop img pt vpn data) st fun _ st' =>
      (∀ p, (∀ v, CopyVisits vpn data.length v → p ≠ f v) → Mem.SameFrame st.mem st'.mem p)
        ∧ ∀ v, CopyVisits vpn data.length v → ∀ k, k < 4096 → st'.mem (f v * 4096 + k)
            = if (v - vpn) * 4096 + k < data.length then data.getD ((v - vpn) * 4096 + k) 0
              else st.mem (f v * 4096 + k) := by
  induction hlen : data.length using Nat.strong_induction_on generalizing vpn data st with
  | h n ih =>
      subst hlen
      have hvisit : CopyVisits vpn data.length vpn := ⟨Nat.le_refl _, Or.inl rfl⟩
      obtain ⟨e, he, hppn⟩ := hf vpn hvisit
      rw [copyLoop]
      simp only [Meets.bind_iff, Meets.get_iff]
      rw [he, Meets.unwrap_some, Meets.ensure_iff, hppn]
      refine ⟨fun _ => Meets.set_iff.mpr ?_, fun _ => trivial⟩
      have hother : ∀ p, p ≠ f vpn →
          Mem.SameFrame st.mem (st.mem.write (f vpn * 4096) (data.take 4096)) p := by
        intro p hp
        refine Mem.sameFrame_write _ (Nat.le_refl _) ?_ hp
        rw [List.length_take]
        omega
      have hfirst : ∀ k, k < 4096 → st.mem.write (f vpn * 4096) (data.take 4096) (f vpn * 4096 + k)
          = if k < data.length then data.getD k 0 else st.mem (f vpn * 4096 + k) := by
        intro k hk
        by_cases hlt : k < data.length
        · rw [if_pos hlt, Mem.write_inside _ (by omega) (by rw [List.length_take]; omega),
            Nat.add_sub_cancel_left]
          simp only [List.getD_eq_getElem?_getD]
          rw [List.getElem?_take_of_lt hk]
        · rw [if_neg hlt]
          exact Mem.write_outside _ (Or.inr (by rw [List.length_take]; omega))
      by_cases hle : data.length ≤ 4096
      · rw [if_pos hle]
        have hone : ∀ v, CopyVisits vpn data.length v → v = vpn := by
          rintro v ⟨hge, hlt⟩
          omega
        refine Meets.pure_iff.mpr ⟨fun p hp => hother p (hp vpn hvisit), fun v hvis k hk => ?_⟩
        rw [hone v hvis, Nat.sub_self, Nat.zero_mul, Nat.zero_add]
        exact hfirst k hk
      · rw [if_neg hle]
        have hsame : ∀ p ∈ pt.frames, Mem.SameFrame st.mem
            (st.mem.write (f vpn * 4096) (data.take 4096)) p := by
          intro p hp
          refine hother p ?_
          rintro rfl
          exact hapart vpn hvisit hp
        have hdrop : (data.drop 4096).length = data.length - 4096 := List.length_drop
        have hrest : ∀ v, CopyVisits (vpn + 1) (data.drop 4096).length v →
            CopyVisits vpn data.length v := by
          rintro v ⟨hge, hlt⟩
          exact ⟨by omega, Or.inr (by omega)⟩
        refine (ih (data.drop 4096).length (by omega) (ht.congr hsame) ?_ ?_ ?_ rfl).mono ?_
        · intro v hvis
          rw [ht.translate_congr hsame]
          exact hf v (hrest v hvis)
        · exact fun v w hv hw => hinj v w (hrest v hv) (hrest w hw)
        · exact fun v hvis => hapart v (hrest v hvis)
        rintro _ st' ⟨hkeep, hbytes⟩
        -- the pages of the rest are other frames
        have hne : ∀ v, CopyVisits (vpn + 1) (data.drop 4096).length v → f v ≠ f vpn := by
          intro v hvis heq
          have hv := hinj v vpn (hrest v hvis) hvisit heq
          have hge := hvis.1
          omega
        refine ⟨fun p hp => ?_, fun v hvis k hk => ?_⟩
        · refine (hother p (hp vpn hvisit)).trans (hkeep p fun v hvis => hp v (hrest v hvis))
        · by_cases hv : v = vpn
          · subst hv
            have hlater := hkeep (f v) (fun w hw heq => hne w hw heq.symm) (f v * 4096 + k)
              (by omega)
            rw [hlater, Nat.sub_self, Nat.zero_mul, Nat.zero_add]
            exact hfirst k hk
          · have hvis' : CopyVisits (vpn + 1) (data.drop 4096).length v := by
              obtain ⟨hge, hlt⟩ := hvis
              exact ⟨by omega, Or.inr (by omega)⟩
            have hge := hvis'.1
            have hold := hother (f v) (hne v hvis') (f v * 4096 + k) (by omega)
            rw [hbytes v hvis' k hk]
            dsimp only
            rw [hold, hdrop]
            have hidx : (v - vpn) * 4096 + k = 4096 + ((v - (vpn + 1)) * 4096 + k) := by omega
            rw [hidx]
            obtain ⟨j, hj⟩ : ∃ j, j = (v - (vpn + 1)) * 4096 + k := ⟨_, rfl⟩
            rw [← hj]
            by_cases hlt : j < data.length - 4096
            · have hlt' : 4096 + j < data.length := by omega
              rw [if_pos hlt, if_pos hlt']
              simp only [List.getD_eq_getElem?_getD, List.getElem?_drop]
            · have hlt' : ¬ 4096 + j < data.length := by omega
              rw [if_neg hlt, if_neg hlt']

end MapArea

end Nimloth
