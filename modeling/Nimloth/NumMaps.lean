import Mathlib.Data.Finmap
import Mathlib.Data.Fintype.EquivFin
import Mathlib.Tactic.Common

/-!
# Finite maps from numbers

A finite map from numbers never uses all of them, so it has a least
number that is free (`leastFree`). A list of optional values holds such a
map (`tableMap`), with a hole for each number not in use: filling a slot
is an insertion, emptying one a removal, and the first hole, or else the
length, is the least free number.
-/

namespace Nimloth

abbrev NumMap (α : Type*) := Finmap fun _ : Nat => α

namespace NumMap

variable {α : Type*} {m : NumMap α} {i : Nat}

theorem exists_free (m : NumMap α) : ∃ i, i ∉ m := by
  obtain ⟨i, hi⟩ := Infinite.exists_notMem_finset m.keys
  exact ⟨i, mt Finmap.mem_keys.mpr hi⟩

/-- The least number not in use. -/
def leastFree (m : NumMap α) : Nat := Nat.find m.exists_free

theorem leastFree_eq_iff : m.leastFree = i ↔ i ∉ m ∧ ∀ j < i, j ∈ m := by
  unfold leastFree
  rw [Nat.find_eq_iff]
  simp only [not_not]

theorem leastFree_notMem (m : NumMap α) : m.leastFree ∉ m := (leastFree_eq_iff.mp rfl).1

theorem mem_of_lt_leastFree (h : i < m.leastFree) : i ∈ m := (leastFree_eq_iff.mp rfl).2 i h

theorem lookup_insert_some {j : Nat} {a b : α} (h : Finmap.lookup j (m.insert i a) = some b) :
    b = a ∨ m.lookup j = some b := by
  by_cases hj : j = i
  · subst hj
    rw [Finmap.lookup_insert, Option.some.injEq] at h
    exact .inl h.symm
  · rw [Finmap.lookup_insert_of_ne _ hj] at h
    exact .inr h

theorem lookup_erase_some {j : Nat} {b : α} (h : Finmap.lookup j (m.erase i) = some b) :
    m.lookup j = some b := by
  by_cases hj : j = i
  · subst hj
    rw [Finmap.lookup_erase] at h
    cases h
  · rwa [Finmap.lookup_erase_ne hj] at h

/-- Numbers are handed out in increasing order. -/
theorem leastFree_lt_insert (m : NumMap α) (a : α) :
    m.leastFree < NumMap.leastFree (m.insert m.leastFree a) := by
  by_contra hle
  have hfree := leastFree_notMem (m.insert m.leastFree a)
  rw [Finmap.mem_insert, not_or] at hfree
  exact hfree.2 (mem_of_lt_leastFree (by omega))

theorem leastFree_erase (h : ∀ j < i, j ∈ m) : NumMap.leastFree (m.erase i) = i := by
  refine leastFree_eq_iff.mpr ⟨Finmap.notMem_erase_self, fun j hj => ?_⟩
  exact Finmap.mem_erase.mpr ⟨by omega, h j hj⟩

end NumMap

/-! ## Tables -/

section Table

variable {α : Type*} {t : List (Option α)} {i : Nat}

/-- The map of a table whose first slot has the number `i`. -/
def tableMapFrom (i : Nat) : List (Option α) → NumMap α
  | [] => ∅
  | none :: t => tableMapFrom (i + 1) t
  | some a :: t => (tableMapFrom (i + 1) t).insert i a

def tableMap (t : List (Option α)) : NumMap α := tableMapFrom 0 t

theorem lookup_tableMapFrom (i : Nat) (t : List (Option α)) (j : Nat) :
    (tableMapFrom i t).lookup j = if j < i then none else t[j - i]?.join := by
  induction t generalizing i with
  | nil => simp [tableMapFrom]
  | cons x t ih =>
      rcases Nat.lt_trichotomy j i with hlt | rfl | hgt
      · cases x with
        | none =>
            rw [tableMapFrom, ih, if_pos hlt, if_pos (by omega)]
        | some a =>
            rw [tableMapFrom, Finmap.lookup_insert_of_ne _ (by omega), ih, if_pos hlt,
              if_pos (by omega)]
      · cases x with
        | none =>
            rw [tableMapFrom, ih, if_pos (Nat.lt_succ_self j), if_neg (Nat.lt_irrefl j)]
            simp
        | some a =>
            rw [tableMapFrom, Finmap.lookup_insert, if_neg (Nat.lt_irrefl j)]
            simp
      · obtain ⟨d, rfl⟩ := Nat.exists_eq_add_of_lt hgt
        have hsub : i + d + 1 - i = d + 1 := by omega
        have hsub' : i + d + 1 - (i + 1) = d := by omega
        cases x with
        | none =>
            rw [tableMapFrom, ih, if_neg (by omega), if_neg (by omega), hsub, hsub',
              List.getElem?_cons_succ]
        | some a =>
            rw [tableMapFrom, Finmap.lookup_insert_of_ne _ (by omega), ih, if_neg (by omega),
              if_neg (by omega), hsub, hsub', List.getElem?_cons_succ]

@[simp] theorem lookup_tableMap (t : List (Option α)) (i : Nat) :
    (tableMap t).lookup i = t[i]?.join := by
  unfold tableMap
  rw [lookup_tableMapFrom, if_neg (Nat.not_lt_zero i), Nat.sub_zero]

theorem mem_tableMap : i ∈ tableMap t ↔ t[i]?.join.isSome := by
  rw [← Finmap.lookup_isSome, lookup_tableMap]

theorem tableMap_set_some (h : i < t.length) (a : α) :
    tableMap (t.set i (some a)) = (tableMap t).insert i a := by
  refine Finmap.ext_lookup fun j => ?_
  rw [lookup_tableMap]
  by_cases hj : j = i
  · subst hj
    rw [Finmap.lookup_insert, List.getElem?_set_self h]
    rfl
  · rw [Finmap.lookup_insert_of_ne _ hj, List.getElem?_set_ne (Ne.symm hj), lookup_tableMap]

theorem tableMap_set_none (t : List (Option α)) (i : Nat) :
    tableMap (t.set i none) = (tableMap t).erase i := by
  refine Finmap.ext_lookup fun j => ?_
  rw [lookup_tableMap]
  by_cases hj : j = i
  · subst hj
    rw [Finmap.lookup_erase, List.getElem?_set]
    split
    · split <;> rfl
    · contradiction
  · rw [Finmap.lookup_erase_ne hj, List.getElem?_set_ne (Ne.symm hj), lookup_tableMap]

theorem tableMap_append_none (t : List (Option α)) : tableMap (t ++ [none]) = tableMap t := by
  refine Finmap.ext_lookup fun j => ?_
  rw [lookup_tableMap, lookup_tableMap]
  rcases Nat.lt_trichotomy j t.length with hlt | rfl | hgt
  · rw [List.getElem?_append_left hlt]
  · rw [List.getElem?_append_right (Nat.le_refl _)]
    simp
  · rw [List.getElem?_eq_none (by simp; omega), List.getElem?_eq_none (by omega)]

/-- The first hole is the least free number. -/
theorem leastFree_tableMap_hole (h : t.findIdx? Option.isNone = some i) :
    i < t.length ∧ (tableMap t).leastFree = i := by
  obtain ⟨hi, hnone, hfirst⟩ := List.findIdx?_eq_some_iff_getElem.mp h
  refine ⟨hi, NumMap.leastFree_eq_iff.mpr ⟨?_, fun j hj => ?_⟩⟩
  · rw [mem_tableMap, List.getElem?_eq_getElem hi, Option.isNone_iff_eq_none.mp hnone]
    exact Bool.false_ne_true
  · have hsome := hfirst j hj
    rw [mem_tableMap, List.getElem?_eq_getElem (by omega)]
    cases hx : t[j] with
    | none => simp [hx] at hsome
    | some a => rfl

/-- A table without holes has its length as the least free number. -/
theorem leastFree_tableMap_full (h : t.findIdx? Option.isNone = none) :
    (tableMap t).leastFree = t.length := by
  rw [List.findIdx?_eq_none_iff] at h
  refine NumMap.leastFree_eq_iff.mpr ⟨?_, fun j hj => ?_⟩
  · rw [mem_tableMap, List.getElem?_eq_none (Nat.le_refl _)]
    exact Bool.false_ne_true
  · have hsome := h t[j] (List.getElem_mem hj)
    rw [mem_tableMap, List.getElem?_eq_getElem hj]
    cases hx : t[j] with
    | none => simp [hx] at hsome
    | some a => rfl

end Table

end Nimloth
