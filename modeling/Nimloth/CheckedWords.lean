import Mathlib.Algebra.Group.Nat.Defs
import Mathlib.Tactic.Common

/-!
# Checked machine arithmetic

Unsigned numbers of `w` bits with operations that return nothing when the
result does not fit. `Exact p n` says that the computation `p` returns, with
the number `n`: none of its operations has left the machine type, so what it
computes is the arithmetic of natural numbers. There is one rule for each
way to build a computation; the bounds are left as conditions on numbers.
-/

namespace Nimloth

namespace Word

variable {v w m n : Nat} {x y : BitVec w}

/-- `x + y`. -/
def add (x y : BitVec w) : Option (BitVec w) := if x.uaddOverflow y then none else some (x + y)

/-- `x - y`. -/
def sub (x y : BitVec w) : Option (BitVec w) := if x.usubOverflow y then none else some (x - y)

/-- `x / y`. -/
def div (x y : BitVec w) : Option (BitVec w) := if y = 0 then none else some (x / y)

/-- `x.min(y)`. -/
def min (x y : BitVec w) : BitVec w := if x ≤ y then x else y

theorem toNat_min (x y : BitVec w) : (min x y).toNat = Min.min x.toNat y.toNat := by
  unfold min
  split
  · next h => exact (Nat.min_eq_left (BitVec.le_def.mp h)).symm
  · next h => exact (Nat.min_eq_right (Nat.le_of_not_le (mt BitVec.le_def.mpr h))).symm

theorem toNat_const (h : n < 2 ^ w) : (BitVec.ofNat w n).toNat = n := by
  rw [BitVec.toNat_ofNat, Nat.mod_eq_of_lt h]

/-- A conversion to a type that has room for the number. -/
theorem toNat_setWidth (hx : x.toNat = n) (h : n < 2 ^ v) : (x.setWidth v).toNat = n := by
  rw [BitVec.toNat_setWidth, hx, Nat.mod_eq_of_lt h]

theorem add_eq_none (h : 2 ^ w ≤ x.toNat + y.toNat) : add x y = none := by
  unfold add BitVec.uaddOverflow
  rw [if_pos (by simpa using h)]

theorem sub_eq_none (h : x.toNat < y.toNat) : sub x y = none := by
  unfold sub BitVec.usubOverflow
  rw [if_pos (by simpa using h)]

/-- The computation returns the number `n`. -/
def Exact (p : Option (BitVec w)) (n : Nat) : Prop := ∃ x, p = some x ∧ x.toNat = n

namespace Exact

theorem ret (h : x.toNat = n) : Exact (some x) n := ⟨x, rfl, h⟩

theorem bind {p : Option (BitVec w)} {f : BitVec w → Option (BitVec v)} (h : Exact p m)
    (hf : ∀ x, x.toNat = m → Exact (f x) n) : Exact (p >>= f) n := by
  obtain ⟨x, rfl, hx⟩ := h
  exact hf x hx

/-- The machine decides a condition on words, the number depends on one on numbers. -/
theorem ite {c c' : Prop} [Decidable c] [Decidable c'] {p q : Option (BitVec w)} (hc : c ↔ c')
    (hp : c' → Exact p m) (hq : ¬ c' → Exact q n) :
    Exact (if c then p else q) (if c' then m else n) := by
  by_cases h : c'
  · rw [if_pos (hc.mpr h), if_pos h]
    exact hp h
  · rw [if_neg (mt hc.mp h), if_neg h]
    exact hq h

theorem add (hx : x.toNat = m) (hy : y.toNat = n) (h : m + n < 2 ^ w) :
    Exact (add x y) (m + n) := by
  have hover : ¬ x.uaddOverflow y := by
    simp only [BitVec.uaddOverflow, decide_eq_true_eq]
    omega
  refine ⟨x + y, if_neg hover, ?_⟩
  rw [BitVec.toNat_add_of_not_uaddOverflow hover, hx, hy]

theorem sub (hx : x.toNat = m) (hy : y.toNat = n) (h : n ≤ m) : Exact (sub x y) (m - n) := by
  have hover : ¬ x.usubOverflow y := by
    simp only [BitVec.usubOverflow, decide_eq_true_eq]
    omega
  refine ⟨x - y, if_neg hover, ?_⟩
  rw [BitVec.toNat_sub_of_not_usubOverflow hover, hx, hy]

theorem div (hx : x.toNat = m) (hy : y.toNat = n) (h : 0 < n) : Exact (div x y) (m / n) := by
  have hzero : y ≠ 0 := by
    rintro rfl
    rw [← hy] at h
    exact absurd h (by simp)
  refine ⟨x / y, if_neg hzero, ?_⟩
  rw [BitVec.toNat_udiv, hx, hy]

end Exact

end Word

end Nimloth
