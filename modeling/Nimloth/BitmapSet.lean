import Nimloth.Bitmap
import Nimloth.FirstFit

/-!
# A bitmap is a finite set

`setBits` is the set that a bitmap on a store stands for; `alloc` and
`dealloc` are first-fit allocation on it (`step_refines`), and change
nothing else in the store.
-/

namespace Nimloth

open BlockProg

namespace Bitmap

/-- The bits that are set. -/
def setBits (bm : Bitmap) (σ : Store) : Finset Nat :=
  (Finset.range bm.maximum).filter fun k => bm.bit σ k = true

/-- A call and its result; only bits that are set are given back. -/
def Step (bm : Bitmap) (σ : Store) (e : FirstFit.Event) (σ' : Store) : Prop :=
  match e with
  | .alloc r => bm.alloc.flat [] σ = .ok (r, σ')
  | .dealloc b => b ∈ bm.setBits σ ∧ (bm.dealloc b).flat [] σ = .ok ((), σ')

variable {bm : Bitmap} {σ σ' : Store} {r : Option Nat} {b k : Nat}

theorem mem_setBits : k ∈ bm.setBits σ ↔ k < bm.maximum ∧ bm.bit σ k = true := by
  rw [setBits, Finset.mem_filter, Finset.mem_range]

theorem mem_free_setBits :
    k ∈ FirstFit.free bm.maximum (bm.setBits σ) ↔ k < bm.maximum ∧ bm.bit σ k = false := by
  rw [FirstFit.mem_free, mem_setBits]
  constructor
  · rintro ⟨hlt, hnot⟩
    exact ⟨hlt, by simpa [hlt] using hnot⟩
  · rintro ⟨hlt, hclear⟩
    exact ⟨hlt, by simp [hclear]⟩

theorem setBits_insert (h : bm.Sets σ σ' k true) (hk : k < bm.maximum) :
    bm.setBits σ' = insert k (bm.setBits σ) := by
  ext j
  rw [Finset.mem_insert, mem_setBits, mem_setBits, h.bit j]
  by_cases hj : j = k
  · simp [hj, hk]
  · simp [hj]

theorem setBits_erase (h : bm.Sets σ σ' k false) : bm.setBits σ' = (bm.setBits σ).erase k := by
  ext j
  rw [Finset.mem_erase, mem_setBits, mem_setBits, h.bit j]
  by_cases hj : j = k
  · simp [hj]
  · simp [hj]

/-- What `alloc` does is allocation on the set. -/
theorem Allocated.refines (h : bm.Allocated σ r σ') :
    FirstFit.Step bm.maximum (bm.setBits σ) (.alloc r) (bm.setBits σ') := by
  have hmax : bm.blocks * 4096 = bm.maximum := rfl
  cases r with
  | some k =>
      obtain ⟨hlt, hclear, hset, hsets⟩ := h
      rw [hmax] at hlt
      rw [setBits_insert hsets hlt]
      refine .alloc ⟨Finset.mem_coe.mpr (mem_free_setBits.mpr ⟨hlt, hclear⟩), ?_⟩
      intro j hj
      by_contra hjk
      have hj := (mem_free_setBits.mp (Finset.mem_coe.mp hj)).2
      rw [hset j (Nat.not_le.mp hjk)] at hj
      cases hj
  | none =>
      obtain ⟨rfl, hall⟩ := h
      refine .full (Finset.eq_empty_of_forall_notMem fun j hj => ?_)
      obtain ⟨hlt, hclear⟩ := mem_free_setBits.mp hj
      rw [hall j hlt] at hclear
      cases hclear

theorem alloc_returns (bm : Bitmap) (σ : Store) :
    ∃ r σ', bm.alloc.flat [] σ = .ok (r, σ') ∧ bm.Allocated σ r σ' := by
  have hspec : Returns bm.alloc [] σ (bm.Allocated σ) :=
    bm.alloc_spec fun _ _ => List.not_mem_nil
  exact hspec.exists_ok

theorem dealloc_returns (h : b ∈ bm.setBits σ) :
    ∃ σ', (bm.dealloc b).flat [] σ = .ok ((), σ') ∧ bm.Sets σ σ' b false := by
  have hset := (mem_setBits.mp h).2
  have hspec : Returns (bm.dealloc b) [] σ fun _ σ' =>
      bm.bit σ b = true ∧ bm.Sets σ σ' b false :=
    bm.dealloc_spec List.not_mem_nil fun hclear => by
      rw [hset] at hclear
      cases hclear
  obtain ⟨_, σ', hok, -, hsets⟩ := Returns.exists_ok hspec
  exact ⟨σ', hok, hsets⟩

theorem step_refines {e : FirstFit.Event} (h : bm.Step σ e σ') :
    FirstFit.Step bm.maximum (bm.setBits σ) e (bm.setBits σ') := by
  cases e with
  | alloc r =>
      obtain ⟨r', σ'', hok, hspec⟩ := bm.alloc_returns σ
      have heq := hok.symm.trans h
      cases heq
      exact hspec.refines
  | dealloc b =>
      obtain ⟨hmem, hrun⟩ := h
      obtain ⟨σ'', hok, hsets⟩ := dealloc_returns hmem
      have heq := hok.symm.trans hrun
      cases heq
      rw [setBits_erase hsets]
      exact .dealloc hmem

/-- A bit that was given back is taken next if it is below every clear one. -/
theorem alloc_after_dealloc (hmem : b ∈ bm.setBits σ) (hsets : bm.Sets σ σ' b false)
    (hle : ∀ k, k < bm.maximum → bm.bit σ k = false → b < k) :
    ∃ σ'', bm.alloc.flat [] σ' = .ok (some b, σ'') := by
  have hstep : FirstFit.Step bm.maximum (bm.setBits σ) (.dealloc b) (bm.setBits σ') := by
    rw [setBits_erase hsets]
    exact .dealloc hmem
  have hnext := hstep.alloc_after_dealloc (mem_setBits.mp hmem).1 fun k hk =>
    hle k (mem_free_setBits.mp hk).1 (mem_free_setBits.mp hk).2
  obtain ⟨r, σ'', hok, hspec⟩ := bm.alloc_returns σ'
  obtain ⟨rfl, -⟩ := hspec.refines.alloc_unique hnext
  exact ⟨σ'', hok⟩

end Bitmap

/-- Every run is one of first-fit allocation on the set of bits, and in each state reached the
next call does this. -/
theorem bitmap_refines_set (bm : Bitmap) {σ₀ σ : Store} {tr : List FirstFit.Event}
    (hrun : Runs bm.Step σ₀ tr σ) :
    Runs (FirstFit.Step bm.maximum) (bm.setBits σ₀) tr (bm.setBits σ)
      ∧ (∃ r σ', bm.alloc.flat [] σ = .ok (r, σ')
        ∧ (r = none ↔ ∀ k, k < bm.maximum → bm.bit σ k = true)
        ∧ (r = none → σ' = σ)
        ∧ ∀ k, r = some k → IsLeast {j | j < bm.maximum ∧ bm.bit σ j = false} k
          ∧ bm.Sets σ σ' k true ∧ (bm.setBits σ').card = (bm.setBits σ).card + 1)
      ∧ ∀ b, b < bm.maximum → bm.bit σ b = true → ∃ σ', (bm.dealloc b).flat [] σ = .ok ((), σ')
        ∧ bm.Sets σ σ' b false ∧ (bm.setBits σ').card + 1 = (bm.setBits σ).card
        ∧ ((∀ k, k < bm.maximum → bm.bit σ k = false → b < k) →
          ∃ σ'', bm.alloc.flat [] σ' = .ok (some b, σ'')) := by
  refine ⟨?_, ?_, ?_⟩
  · have hsim : ∀ a e b S, S = bm.setBits a → bm.Step a e b →
        ∃ T, T = bm.setBits b ∧ FirstFit.Step bm.maximum S e T := by
      rintro a e b S rfl hs
      exact ⟨_, rfl, Bitmap.step_refines hs⟩
    obtain ⟨S, rfl, hS⟩ := hrun.simulation hsim rfl
    exact hS
  · obtain ⟨r, σ', hok, hspec⟩ := bm.alloc_returns σ
    have hcard := hspec.refines.card_alloc
    refine ⟨r, σ', hok, ?_⟩
    cases r with
    | none =>
        obtain ⟨rfl, hall⟩ := hspec
        exact ⟨iff_of_true rfl hall, fun _ => rfl, fun k hk => absurd hk (by simp)⟩
    | some k =>
        obtain ⟨hlt, hclear, hset, hsets⟩ := hspec
        refine ⟨iff_of_false (by simp) fun hall => ?_, fun h => absurd h (by simp), ?_⟩
        · rw [hall k hlt] at hclear
          cases hclear
        · rintro k' hk'
          cases hk'
          refine ⟨⟨⟨hlt, hclear⟩, ?_⟩, hsets, hcard⟩
          rintro j ⟨-, hj⟩
          by_contra hjk
          rw [hset j (Nat.not_le.mp hjk)] at hj
          cases hj
  · intro b hb hbit
    have hmem : b ∈ bm.setBits σ := Bitmap.mem_setBits.mpr ⟨hb, hbit⟩
    obtain ⟨σ', hok, hsets⟩ := Bitmap.dealloc_returns hmem
    have hstep := Bitmap.step_refines (show bm.Step σ (.dealloc b) σ' from ⟨hmem, hok⟩)
    exact ⟨σ', hok, hsets, hstep.card_dealloc, Bitmap.alloc_after_dealloc hmem hsets⟩

/-- The first bit of an empty bitmap of two blocks is taken, then the second; the first is given
back and taken again. -/
theorem bitmap_refines_set_reuse : ∃ σ₁ σ₂ σ₃ σ₄,
    (Bitmap.mk 1 2).alloc.flat [] (fun _ => Block.zero) = .ok (some 0, σ₁)
      ∧ (Bitmap.mk 1 2).alloc.flat [] σ₁ = .ok (some 1, σ₂)
      ∧ ((Bitmap.mk 1 2).dealloc 0).flat [] σ₂ = .ok ((), σ₃)
      ∧ (Bitmap.mk 1 2).alloc.flat [] σ₃ = .ok (some 0, σ₄) := by
  have hzero : ∀ k, (Bitmap.mk 1 2).bit (fun _ => Block.zero) k = false :=
    fun k => Block.bit_zero (k % 4096)
  have hmax : 1 < (Bitmap.mk 1 2).maximum := by decide
  have halloc : ∀ {tr σ k}, Runs (Bitmap.mk 1 2).Step (fun _ => Block.zero) tr σ →
      IsLeast {j | j < (Bitmap.mk 1 2).maximum ∧ (Bitmap.mk 1 2).bit σ j = false} k →
      ∃ σ', (Bitmap.mk 1 2).alloc.flat [] σ = .ok (some k, σ')
        ∧ (Bitmap.mk 1 2).Sets σ σ' k true := by
    intro tr σ k hrun hleast
    obtain ⟨-, ⟨r, σ', hok, hnone, -, hsome⟩, -⟩ := bitmap_refines_set (Bitmap.mk 1 2) hrun
    cases r with
    | none =>
        have hset := hnone.mp rfl k hleast.1.1
        rw [hleast.1.2] at hset
        cases hset
    | some j =>
        obtain ⟨hleast', hsets, -⟩ := hsome j rfl
        obtain rfl := hleast'.unique hleast
        exact ⟨σ', hok, hsets⟩
  obtain ⟨σ₁, h₁, hsets₁⟩ := halloc (k := 0) (.nil _) ⟨⟨by omega, hzero 0⟩, fun j _ => Nat.zero_le j⟩
  have hrun₁ : Runs (Bitmap.mk 1 2).Step _ [.alloc (some 0)] σ₁ := Runs.single h₁
  have hfirst₁ : (Bitmap.mk 1 2).bit σ₁ 0 = true := by
    rw [hsets₁.bit]
    rfl
  have hleast₁ : IsLeast {j | j < (Bitmap.mk 1 2).maximum ∧ (Bitmap.mk 1 2).bit σ₁ j = false} 1 := by
    refine ⟨⟨hmax, ?_⟩, ?_⟩
    · rw [hsets₁.bit, hzero]
      rfl
    · rintro j ⟨-, hj⟩
      refine Nat.one_le_iff_ne_zero.mpr ?_
      rintro rfl
      rw [hfirst₁] at hj
      cases hj
  obtain ⟨σ₂, h₂, hsets₂⟩ := halloc hrun₁ hleast₁
  have hrun₂ : Runs (Bitmap.mk 1 2).Step _ [.alloc (some 0), .alloc (some 1)] σ₂ :=
    hrun₁.append (Runs.single h₂)
  have hfirst₂ : (Bitmap.mk 1 2).bit σ₂ 0 = true := by
    rw [hsets₂.bit, hfirst₁]
    rfl
  obtain ⟨σ₃, h₃, -, -, hagain⟩ :=
    (bitmap_refines_set (Bitmap.mk 1 2) hrun₂).2.2 0 (by omega) hfirst₂
  obtain ⟨σ₄, h₄⟩ := hagain fun k _ hclear => by
    refine Nat.pos_of_ne_zero ?_
    rintro rfl
    rw [hfirst₂] at hclear
    cases hclear
  exact ⟨σ₁, σ₂, σ₃, σ₄, h₁, h₂, h₃, h₄⟩

end Nimloth
