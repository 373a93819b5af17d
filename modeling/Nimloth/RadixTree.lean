import Mathlib.Algebra.Order.BigOperators.Group.Finset
import Mathlib.Algebra.Order.Floor.Div
import Mathlib.Data.List.Infix
import Mathlib.GroupTheory.GroupAction.Ring
import Mathlib.Tactic.Common

/-!
# Trees addressed by digits

The leaf `i` of a tree of height `h` whose nodes have `b` children is
reached by the digits of `i` in base `b`, the most significant one first.
A node is the path that leads to it, so the nodes that the first `n`
leaves need are the prefixes of their addresses (`prefixes`).

The prefix of length `k` of the address of `i` is the address of
`i / b ^ (h - k)` in a tree of height `k`: the nodes at one depth are
numbered from the left, each is there from its first leaf on
(`mem_prefixes`), and there are as many as `n` divided by the leaves under
one of them, rounded up (`card_prefixes`).
-/

namespace Nimloth

namespace Radix

variable {b h k i j n : Nat}

/-- The last `h` digits of `i`, and what is left as the first one of them. -/
def digits (b : Nat) : Nat → Nat → List Nat
  | 0, _ => []
  | h + 1, i => i / b ^ h :: digits b h (i % b ^ h)

@[simp] theorem length_digits (b h i : Nat) : (digits b h i).length = h := by
  induction h generalizing i with
  | zero => rfl
  | succ h ih => rw [digits, List.length_cons, ih]

theorem take_digits (hk : k ≤ h) (i : Nat) :
    (digits b h i).take k = digits b k (i / b ^ (h - k)) := by
  induction k generalizing h i with
  | zero => rfl
  | succ k ih =>
      obtain ⟨h, rfl⟩ : ∃ h', h = h' + 1 := ⟨h - 1, by omega⟩
      have hpow : b ^ h = b ^ (h - k) * b ^ k := by
        rw [← Nat.pow_add]
        congr 1
        omega
      rw [digits, List.take_succ_cons, ih (Nat.le_of_succ_le_succ hk), Nat.add_sub_add_right,
        digits, Nat.div_div_eq_div_mul, ← hpow, hpow, Nat.mod_mul_right_div_self]

/-- Different leaves have different addresses. -/
theorem digits_inj (hh : 0 < h) (heq : digits b h i = digits b h j) : i = j := by
  induction h generalizing i j with
  | zero => cases hh
  | succ h ih =>
      rw [digits, digits, List.cons.injEq] at heq
      obtain ⟨hdiv, hmod⟩ := heq
      rcases Nat.eq_zero_or_pos h with rfl | hpos
      · simpa using hdiv
      · rw [← Nat.div_add_mod i (b ^ h), ← Nat.div_add_mod j (b ^ h), hdiv, ih hpos hmod]

/-- The nodes on the way to one of the first `n` leaves. -/
def prefixes (b h n : Nat) : Finset (List Nat) :=
  (Finset.range n).biUnion fun i => (digits b h i).inits.toFinset

/-- Node `q` at depth `k` is there when its first leaf is. -/
theorem mem_prefixes (hb : 0 < b) {p : List Nat} :
    p ∈ prefixes b h n ↔ ∃ k ≤ h, ∃ q, q * b ^ (h - k) < n ∧ p = digits b k q := by
  simp only [prefixes, Finset.mem_biUnion, Finset.mem_range, List.mem_toFinset, List.mem_inits]
  constructor
  · rintro ⟨i, hi, hp⟩
    have hle : p.length ≤ h := by simpa using hp.length_le
    refine ⟨p.length, hle, i / b ^ (h - p.length), ?_, ?_⟩
    · exact Nat.lt_of_le_of_lt (Nat.div_mul_le_self ..) hi
    · rw [← take_digits hle]
      exact List.prefix_iff_eq_take.mp hp
  · rintro ⟨k, hk, q, hq, rfl⟩
    refine ⟨q * b ^ (h - k), hq, ?_⟩
    have htake := take_digits (b := b) hk (q * b ^ (h - k))
    rw [Nat.mul_div_cancel _ (Nat.pow_pos hb)] at htake
    rw [← htake]
    exact List.take_prefix ..

/-- The nodes at depth `k`. -/
theorem filter_prefixes (hb : 0 < b) (hk : k ≤ h) :
    (prefixes b h n).filter (·.length = k)
      = (Finset.range (n ⌈/⌉ b ^ (h - k))).image (digits b k) := by
  have hpos : 0 < b ^ (h - k) := Nat.pow_pos hb
  ext p
  simp only [Finset.mem_filter, mem_prefixes hb, Finset.mem_image, Finset.mem_range]
  constructor
  · rintro ⟨⟨k', -, q, hq, rfl⟩, hlen⟩
    rw [length_digits] at hlen
    subst hlen
    refine ⟨q, ?_, rfl⟩
    by_contra hle
    have := (ceilDiv_le_iff_le_mul hpos).mp (Nat.not_lt.mp hle)
    rw [Nat.mul_comm] at this
    omega
  · rintro ⟨q, hq, rfl⟩
    refine ⟨⟨k, hk, q, ?_, rfl⟩, length_digits b k q⟩
    by_contra hle
    rw [Nat.not_lt, Nat.mul_comm] at hle
    exact absurd hq (Nat.not_lt.mpr ((ceilDiv_le_iff_le_mul hpos).mpr hle))

theorem card_filter_prefixes (hb : 0 < b) (hk : k ≤ h) (hn : n ≤ b ^ h) :
    ((prefixes b h n).filter (·.length = k)).card = n ⌈/⌉ b ^ (h - k) := by
  rw [filter_prefixes hb hk, Finset.card_image_of_injOn, Finset.card_range]
  intro i hi j hj heq
  rcases Nat.eq_zero_or_pos k with rfl | hpos
  · -- there is only one node without digits
    have hle : n ⌈/⌉ b ^ (h - 0) ≤ 1 :=
      (ceilDiv_le_iff_le_mul (Nat.pow_pos hb)).mpr (by simpa using hn)
    simp only [Finset.coe_range, Set.mem_Iio] at hi hj
    omega
  · exact digits_inj hpos heq

/-- A tree that is large enough has as many nodes as there are at its depths. -/
theorem card_prefixes (hb : 0 < b) (hn : n ≤ b ^ h) :
    (prefixes b h n).card = ∑ k ∈ Finset.range (h + 1), n ⌈/⌉ b ^ (h - k) := by
  have hmaps : ∀ p ∈ prefixes b h n, p.length ∈ Finset.range (h + 1) := by
    intro p hp
    obtain ⟨k, hk, q, -, rfl⟩ := (mem_prefixes hb).mp hp
    rw [length_digits, Finset.mem_range]
    exact Nat.lt_succ_of_le hk
  rw [Finset.card_eq_sum_card_fiberwise hmaps]
  refine Finset.sum_congr rfl fun k hk => ?_
  exact card_filter_prefixes hb (Nat.le_of_lt_succ (Finset.mem_range.mp hk)) hn

theorem min_ceilDiv {c m : Nat} (hc : 0 < c) : min n (c * m) ⌈/⌉ c = min (n ⌈/⌉ c) m := by
  refine eq_of_forall_ge_iff fun q => ?_
  rw [ceilDiv_le_iff_le_mul hc, min_le_iff, min_le_iff, ceilDiv_le_iff_le_mul hc,
    Nat.mul_le_mul_left_iff hc]

/-- There is one root. -/
theorem min_ceilDiv_one {c : Nat} (hc : 0 < c) : min (n ⌈/⌉ c) 1 = if 0 < n then 1 else 0 := by
  rcases Nat.eq_zero_or_pos n with rfl | hn
  · simp
  · have hpos : ¬ n ⌈/⌉ c ≤ 0 := by
      rw [ceilDiv_le_iff_le_mul hc]
      omega
    rw [if_pos hn, Nat.min_eq_right (Nat.not_le.mp hpos)]

/-- At depth `k` there is room for `b ^ k` nodes. -/
theorem card_prefixes_min (hb : 0 < b) : (prefixes b h (min n (b ^ h))).card
    = ∑ k ∈ Finset.range (h + 1), min (n ⌈/⌉ b ^ (h - k)) (b ^ k) := by
  rw [card_prefixes hb (min_le_right ..)]
  refine Finset.sum_congr rfl fun k hk => ?_
  have hpow : b ^ h = b ^ (h - k) * b ^ k := by
    rw [← Nat.pow_add, Nat.sub_add_cancel (Nat.le_of_lt_succ (Finset.mem_range.mp hk))]
  rw [hpow, min_ceilDiv (Nat.pow_pos hb)]

end Radix

end Nimloth
