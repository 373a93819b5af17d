import Mathlib.Data.Finset.Max
import Mathlib.Order.Interval.Finset.Nat
import Nimloth.Runs

/-!
# First-fit allocation of numbers

The numbers below a bound, some of them in use: the state is the finite
set of those. Allocation takes the least number that is free.
-/

namespace Nimloth

namespace FirstFit

inductive Event where
  /-- `none`: no number is free -/
  | alloc (r : Option Nat)
  | dealloc (b : Nat)

def free (bound : Nat) (S : Finset Nat) : Finset Nat := Finset.range bound \ S

inductive Step (bound : Nat) : Finset Nat → Event → Finset Nat → Prop
  | alloc {S : Finset Nat} {k : Nat} :
      IsLeast (free bound S : Set Nat) k → Step bound S (.alloc (some k)) (insert k S)
  | full {S : Finset Nat} : free bound S = ∅ → Step bound S (.alloc none) S
  | dealloc {S : Finset Nat} {b : Nat} : b ∈ S → Step bound S (.dealloc b) (S.erase b)

variable {bound : Nat} {S T : Finset Nat} {r r' : Option Nat} {k b : Nat}

theorem mem_free : k ∈ free bound S ↔ k < bound ∧ k ∉ S := by
  rw [free, Finset.mem_sdiff, Finset.mem_range]

theorem not_mem_of_isLeast (h : IsLeast (free bound S : Set Nat) k) : k ∉ S :=
  (mem_free.mp (Finset.mem_coe.mp h.1)).2

/-- Allocation adds a number exactly if it returns one. -/
theorem Step.card_alloc (h : Step bound S (.alloc r) T) :
    T.card = S.card + if r.isSome then 1 else 0 := by
  cases h with
  | alloc hk => exact Finset.card_insert_of_notMem (not_mem_of_isLeast hk)
  | full _ => rfl

theorem Step.card_dealloc (h : Step bound S (.dealloc b) T) : T.card + 1 = S.card := by
  cases h with
  | dealloc hb => exact Finset.card_erase_add_one hb

/-- Allocation is a function of the set. -/
theorem Step.alloc_unique (h : Step bound S (.alloc r) T) {T' : Finset Nat}
    (h' : Step bound S (.alloc r') T') : r = r' ∧ T = T' := by
  cases h with
  | alloc hk =>
      cases h' with
      | alloc hk' =>
          obtain rfl := hk.unique hk'
          exact ⟨rfl, rfl⟩
      | full hnone =>
          have hmem := hk.1
          rw [hnone] at hmem
          exact absurd hmem (by simp)
  | full hnone =>
      cases h' with
      | alloc hk' =>
          have hmem := hk'.1
          rw [hnone] at hmem
          exact absurd hmem (by simp)
      | full _ => exact ⟨rfl, rfl⟩

/-- A number given back is the next one taken if none below it is free. -/
theorem Step.alloc_after_dealloc (h : Step bound S (.dealloc b) T) (hb : b < bound)
    (hle : ∀ k ∈ free bound S, b < k) : Step bound T (.alloc (some b)) S := by
  cases h with
  | dealloc hmem =>
      have hleast : IsLeast (free bound (S.erase b) : Set Nat) b := by
        constructor
        · exact Finset.mem_coe.mpr (mem_free.mpr ⟨hb, Finset.notMem_erase b S⟩)
        · intro k hk
          obtain ⟨hlt, hnot⟩ := mem_free.mp (Finset.mem_coe.mp hk)
          by_cases hkb : k = b
          · exact Nat.le_of_eq hkb.symm
          · have hfree : k ∈ free bound S :=
              mem_free.mpr ⟨hlt, fun h => hnot (Finset.mem_erase.mpr ⟨hkb, h⟩)⟩
            exact Nat.le_of_lt (hle k hfree)
      have hstep := Step.alloc hleast
      rwa [Finset.insert_erase hmem] at hstep

end FirstFit

end Nimloth
