import Mathlib.Tactic.Common
import Nimloth.Block

/-!
# Physical memory

Memory is a function from byte addresses; frame `n` is the 4096 bytes
from `n * 4096`. A range of bytes is read and written as a list, and a
page table entry is the little-endian number in eight of them. Three
facts are used above: what was written is read back, a write changes
nothing outside of its range, and an entry stays what it is when its
frame does.
-/

namespace Nimloth

abbrev PAGE_SIZE : Nat := 4096

/-- The contents of physical memory, by address. -/
abbrev Mem := Nat → UInt8

namespace Mem

def read (m : Mem) (a n : Nat) : List UInt8 := (List.range n).map fun j => m (a + j)

def write (m : Mem) (a : Nat) (bs : List UInt8) : Mem :=
  fun x => if a ≤ x ∧ x < a + bs.length then bs.getD (x - a) 0 else m x

/-- `ppn.bytes_array()`, all set to zero. -/
def zeroFrame (m : Mem) (n : Nat) : Mem := m.write (n * 4096) (List.replicate 4096 0)

/-- The bytes of frame `n`. -/
def frame (m : Mem) (n : Nat) : List UInt8 := m.read (n * 4096) 4096

/-- Entry `i` of `ppn.pte_array()`. -/
def pte (m : Mem) (n i : Nat) : Nat := leNat (m.read (n * 4096 + 8 * i) 8)

def setPte (m : Mem) (n i v : Nat) : Mem := m.write (n * 4096 + 8 * i) (leBytes 8 v)

/-- The two memories agree on frame `n`. -/
def SameFrame (m m' : Mem) (n : Nat) : Prop := ∀ x, x / 4096 = n → m' x = m x

@[simp] theorem length_read (m : Mem) (a n : Nat) : (m.read a n).length = n := by
  simp [read]

@[simp] theorem write_nil (m : Mem) (a : Nat) : m.write a [] = m := by
  funext x
  exact if_neg (by simp)

theorem getElem_read (m : Mem) (a n : Nat) {j : Nat} (hj : j < (m.read a n).length) :
    (m.read a n)[j] = m (a + j) := by
  simp [read]

theorem read_add (m : Mem) (a n k : Nat) : m.read a (n + k) = m.read a n ++ m.read (a + n) k := by
  simp only [read, List.range_add, List.map_append, List.map_map, Function.comp_def, Nat.add_assoc]

theorem read_congr {m m' : Mem} {a n : Nat} (h : ∀ j, j < n → m' (a + j) = m (a + j)) :
    m'.read a n = m.read a n := by
  refine List.ext_getElem (by simp) ?_
  intro j hj hj'
  rw [getElem_read, getElem_read]
  exact h j (by simpa using hj)

theorem write_outside (m : Mem) {a x : Nat} {bs : List UInt8} (h : x < a ∨ a + bs.length ≤ x) :
    m.write a bs x = m x := by
  unfold write
  rw [if_neg (by omega)]

theorem write_inside (m : Mem) {a x : Nat} {bs : List UInt8} (h : a ≤ x) (h' : x < a + bs.length) :
    m.write a bs x = bs.getD (x - a) 0 := by
  unfold write
  rw [if_pos ⟨h, h'⟩]

theorem read_write (m : Mem) (a : Nat) (bs : List UInt8) : (m.write a bs).read a bs.length = bs := by
  refine List.ext_getElem (by simp) ?_
  intro j hj hj'
  rw [getElem_read, write_inside m (by omega) (by omega), Nat.add_sub_cancel_left]
  simp [hj']

theorem read_write_of_disjoint (m : Mem) {a b n : Nat} {bs : List UInt8}
    (h : b + n ≤ a ∨ a + bs.length ≤ b) : (m.write a bs).read b n = m.read b n := by
  refine read_congr ?_
  intro j hj
  exact write_outside m (by omega)

/-! ## Frames -/

theorem SameFrame.refl (m : Mem) (n : Nat) : SameFrame m m n := fun _ _ => rfl

theorem SameFrame.trans {m₁ m₂ m₃ : Mem} {n : Nat} (h : SameFrame m₁ m₂ n)
    (h' : SameFrame m₂ m₃ n) : SameFrame m₁ m₃ n :=
  fun x hx => (h' x hx).trans (h x hx)

theorem SameFrame.symm {m m' : Mem} {n : Nat} (h : SameFrame m m' n) : SameFrame m' m n :=
  fun x hx => (h x hx).symm

theorem SameFrame.frame {m m' : Mem} {n : Nat} (h : SameFrame m m' n) : m'.frame n = m.frame n := by
  refine read_congr ?_
  intro j hj
  exact h _ (by omega)

theorem SameFrame.pte {m m' : Mem} {n i : Nat} (h : SameFrame m m' n) (hi : i < 512) :
    m'.pte n i = m.pte n i := by
  unfold Mem.pte
  rw [read_congr]
  intro j hj
  exact h _ (by omega)

/-- A write inside of a frame leaves the others. -/
theorem sameFrame_write (m : Mem) {n a k : Nat} {bs : List UInt8} (h : n * 4096 ≤ a)
    (h' : a + bs.length ≤ (n + 1) * 4096) (hk : k ≠ n) : SameFrame m (m.write a bs) k := by
  intro x hx
  refine write_outside m ?_
  omega

theorem sameFrame_zeroFrame (m : Mem) {n k : Nat} (hk : k ≠ n) : SameFrame m (m.zeroFrame n) k :=
  sameFrame_write m (Nat.le_refl _) (by rw [List.length_replicate]; omega) hk

theorem sameFrame_setPte (m : Mem) {n i v k : Nat} (hi : i < 512) (hk : k ≠ n) :
    SameFrame m (m.setPte n i v) k :=
  sameFrame_write m (by omega) (by rw [leBytes_length]; omega) hk

theorem getD_replicate_zero (k j : Nat) : (List.replicate k (0 : UInt8)).getD j 0 = 0 := by
  rw [List.getD_eq_getElem?_getD, List.getElem?_replicate]
  split
  · rfl
  · rfl

theorem read_zeroFrame (m : Mem) (n : Nat) {a k : Nat} (h : n * 4096 ≤ a)
    (h' : a + k ≤ (n + 1) * 4096) : (m.zeroFrame n).read a k = List.replicate k 0 := by
  refine List.ext_getElem (by simp) ?_
  intro j hj hj'
  rw [length_read] at hj
  rw [getElem_read, zeroFrame, write_inside m (by omega) (by rw [List.length_replicate]; omega),
    List.getElem_replicate, getD_replicate_zero]

theorem zeroFrame_apply (m : Mem) {n x : Nat} (hx : x / 4096 = n) : m.zeroFrame n x = 0 := by
  unfold zeroFrame
  rw [write_inside m (by omega) (by rw [List.length_replicate]; omega), getD_replicate_zero]

@[simp] theorem length_frame (m : Mem) (n : Nat) : (m.frame n).length = 4096 := length_read _ _ _

theorem frame_write (m : Mem) (n : Nat) {bs : List UInt8} (h : bs.length = 4096) :
    (m.write (n * 4096) bs).frame n = bs := by
  have hread := m.read_write (n * 4096) bs
  rw [h] at hread
  exact hread

/-! ## Entries -/

theorem pte_setPte (m : Mem) (n i : Nat) {v : Nat} (hv : v < 2 ^ 64) :
    (m.setPte n i v).pte n i = v := by
  have hread := m.read_write (n * 4096 + 8 * i) (leBytes 8 v)
  rw [leBytes_length] at hread
  unfold pte setPte
  rw [hread, leNat_leBytes]
  exact Nat.mod_eq_of_lt (by omega)

theorem pte_setPte_of_ne (m : Mem) {n i k j v : Nat} (hi : i < 512) (hj : j < 512)
    (h : k ≠ n ∨ j ≠ i) : (m.setPte n i v).pte k j = m.pte k j := by
  unfold pte setPte
  rw [read_write_of_disjoint]
  rw [leBytes_length]
  omega

theorem pte_zeroFrame (m : Mem) (n : Nat) {i : Nat} (hi : i < 512) : (m.zeroFrame n).pte n i = 0 := by
  unfold pte
  rw [read_zeroFrame m n (by omega) (by omega), leNat_replicate_zero]

theorem pte_lt (m : Mem) (n i : Nat) : m.pte n i < 2 ^ 64 := by
  have := leNat_lt (m.read (n * 4096 + 8 * i) 8)
  rw [length_read] at this
  unfold pte
  omega

end Mem

end Nimloth
