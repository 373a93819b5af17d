import Mathlib.Tactic.Common

/-!
# Buffers that grow

A `Vec` or a `String` without room asks the heap for a buffer of twice its
capacity, or of what it needs if that is more. `growthBuffers` are the
capacities it asks for while it is filled. None of them is more than twice
what it is to hold (`le_of_mem_growthBuffers`), so that a heap with room
for as much grants them all (`HasRoom.of_le`).
-/

namespace Nimloth

/-- The capacity that a `Vec` of capacity `cap` gets when it is extended to `len` elements; `least`
    is the smallest that it takes. -/
def growCapacity (least cap len : Nat) : Nat :=
  if len ≤ cap then cap else max least (max (2 * cap) len)

/-- The capacities that a `Vec` of `len` elements asks the heap for, one after the other, when it is
    extended to `n` elements in `rounds` rounds of at most `step`. -/
def growthBuffers (least step n : Nat) : Nat → Nat → Nat → List Nat
  | 0, _, _ => []
  | rounds + 1, len, cap =>
      let newLen := min n (len + step)
      let newCap := growCapacity least cap newLen
      if newCap = cap then growthBuffers least step n rounds newLen cap
      else newCap :: growthBuffers least step n rounds newLen newCap

/-- The buffers of a `Vec` to which `n` elements of `size` bytes are pushed. -/
def vecBuffers (size n : Nat) : List Nat := (growthBuffers 4 1 n n 0 0).map (size * ·)

/-- The buffers of a `String` to which characters of `n` bytes in all are pushed. They do not depend
    on which of these take two bytes. -/
def stringBuffers (n : Nat) : List Nat := growthBuffers 8 1 n n 0 0

/-- The heap, which has buffers of the sizes in `heap`, has all of these. -/
def HasRoom (heap : Nat → Bool) (sizes : List Nat) : Prop := ∀ size ∈ sizes, heap size

instance (heap : Nat → Bool) (sizes : List Nat) : Decidable (HasRoom heap sizes) :=
  inferInstanceAs (Decidable (∀ size ∈ sizes, heap size = true))

theorem growCapacity_le {least cap len : Nat} (h : ¬ growCapacity least cap len = cap) :
    growCapacity least cap len ≤ max least (2 * len) := by
  by_cases hfits : len ≤ cap
  · exact absurd (if_pos hfits) h
  · rw [growCapacity, if_neg hfits]
    omega

/-- A buffer is at most twice as long as what is to go into it. -/
theorem le_of_mem_growthBuffers {least step n size rounds len cap : Nat}
    (h : size ∈ growthBuffers least step n rounds len cap) : size ≤ max least (2 * n) := by
  induction rounds generalizing len cap with
  | zero => cases h
  | succ rounds ih =>
      rw [growthBuffers] at h
      split at h
      case isTrue => exact ih h
      case isFalse hgrown =>
        rcases List.mem_cons.mp h with rfl | h
        · exact Nat.le_trans (growCapacity_le hgrown) (by omega)
        · exact ih h

namespace HasRoom

variable {limit : Nat}

theorem of_le {sizes : List Nat} (h : ∀ size ∈ sizes, size ≤ limit) :
    HasRoom (fun size => size ≤ limit) sizes := fun size hsize => decide_eq_true (h size hsize)

theorem string {n : Nat} (h : max 8 (2 * n) ≤ limit) :
    HasRoom (fun size => size ≤ limit) (stringBuffers n) :=
  of_le fun _ hsize => Nat.le_trans (le_of_mem_growthBuffers hsize) h

end HasRoom

end Nimloth
