import Mathlib.Tactic.Common
import Mathlib.Tactic.Ring
import Mathlib.Data.List.Basic

/-!
# Blocks and the integers in them

A block is 512 bytes. The file system reads the same block as an array
of bytes, of little-endian `u32`s or `u64`s, or as a packed structure;
all of these are fields: a byte range and the number it spells
(`field`, `setField`). The two laws of a field are all that is used
above: a field reads back what was written to it, and keeps its value
when bytes outside of it are written.
-/

namespace Nimloth

/-! ## Little-endian numbers -/

/-- The `w` bytes of `n`, least significant first. -/
def leBytes : Nat → Nat → List UInt8
  | 0, _ => []
  | w + 1, n => UInt8.ofNat n :: leBytes w (n / 256)

def leNat : List UInt8 → Nat
  | [] => 0
  | b :: bs => b.toNat + 256 * leNat bs

@[simp] theorem leBytes_length (w n : Nat) : (leBytes w n).length = w := by
  induction w generalizing n with
  | zero => rfl
  | succ w ih => simp [leBytes, ih]

theorem leNat_leBytes (w n : Nat) : leNat (leBytes w n) = n % 256 ^ w := by
  induction w generalizing n with
  | zero => simp [leBytes, leNat, Nat.mod_one]
  | succ w ih =>
      simp only [leBytes, leNat, ih, UInt8.toNat_ofNat']
      rw [show (256 : Nat) ^ (w + 1) = 256 * 256 ^ w by ring, Nat.mod_mul]

theorem leNat_lt (bs : List UInt8) : leNat bs < 256 ^ bs.length := by
  induction bs with
  | nil => simp [leNat]
  | cons b bs ih =>
      have hb := b.toNat_lt
      simp only [leNat, List.length_cons, pow_succ]
      omega

theorem leBytes_leNat (bs : List UInt8) : leBytes bs.length (leNat bs) = bs := by
  induction bs with
  | nil => rfl
  | cons b bs ih =>
      have hb : UInt8.ofNat (b.toNat + 256 * leNat bs) = b := by
        apply UInt8.toNat_inj.mp
        rw [UInt8.toNat_ofNat', Nat.add_mul_mod_self_left]
        exact Nat.mod_eq_of_lt b.toNat_lt
      have hdiv : (b.toNat + 256 * leNat bs) / 256 = leNat bs := by
        have := b.toNat_lt
        omega
      rw [List.length_cons, leNat, leBytes, hb, hdiv, ih]

theorem leNat_append (as bs : List UInt8) :
    leNat (as ++ bs) = leNat as + 256 ^ as.length * leNat bs := by
  induction as with
  | nil => simp [leNat]
  | cons a as ih =>
      rw [List.cons_append, leNat, leNat, ih, List.length_cons, pow_succ]
      ring

theorem leNat_replicate_zero (w : Nat) : leNat (List.replicate w 0) = 0 := by
  induction w with
  | zero => rfl
  | succ w ih => simp [List.replicate_succ, leNat, ih]

/-! ## Blocks -/

abbrev BLOCK_SZ : Nat := 512

abbrev Block := Vector UInt8 BLOCK_SZ

namespace Block

def zero : Block := Vector.replicate BLOCK_SZ 0

/-- The byte at `i`; `0` outside of the block. -/
def byte (b : Block) (i : Nat) : UInt8 := b[i]?.getD 0

/-- The bytes from `off` on are replaced by `bs`. -/
def write (b : Block) (off : Nat) (bs : List UInt8) : Block :=
  Vector.ofFn fun i => if off ≤ i ∧ i < off + bs.length then bs.getD (i - off) 0 else b[i]

def slice (b : Block) (off len : Nat) : List UInt8 := (List.range len).map fun j => b.byte (off + j)

def field (b : Block) (off w : Nat) : Nat := leNat (b.slice off w)

def setField (b : Block) (off w n : Nat) : Block := b.write off (leBytes w n)

theorem ext_byte {a b : Block} (h : ∀ i, i < BLOCK_SZ → a.byte i = b.byte i) : a = b := by
  ext i hi
  have := h i hi
  simpa [byte, hi] using congrArg UInt8.toNat this

@[simp] theorem byte_zero (i : Nat) : zero.byte i = 0 := by
  unfold byte zero
  by_cases hi : i < BLOCK_SZ
  · simp [hi]
  · simp [hi]

theorem byte_write (b : Block) (off : Nat) (bs : List UInt8) {i : Nat} (hi : i < BLOCK_SZ) :
    (b.write off bs).byte i
      = if off ≤ i ∧ i < off + bs.length then bs.getD (i - off) 0 else b.byte i := by
  simp [byte, write, hi]

@[simp] theorem write_nil (b : Block) (off : Nat) : b.write off [] = b := by
  apply ext_byte
  intro i hi
  rw [byte_write b off [] hi, if_neg]
  simp only [List.length_nil]
  omega

@[simp] theorem slice_length (b : Block) (off len : Nat) : (b.slice off len).length = len := by
  simp [slice]

theorem slice_zero (off len : Nat) : zero.slice off len = List.replicate len 0 := by
  unfold slice
  simp [List.map_const']

theorem slice_congr {a b : Block} {off len : Nat}
    (h : ∀ j, j < len → a.byte (off + j) = b.byte (off + j)) : a.slice off len = b.slice off len := by
  unfold slice
  apply List.map_congr_left
  intro j hj
  exact h j (List.mem_range.mp hj)

theorem slice_write_self (b : Block) {off : Nat} {bs : List UInt8}
    (h : off + bs.length ≤ BLOCK_SZ) : (b.write off bs).slice off bs.length = bs := by
  apply List.ext_getElem
  · simp
  · intro j h1 h2
    have hj : off + j < BLOCK_SZ := by omega
    simp only [slice, List.getElem_map, List.getElem_range]
    rw [byte_write b off bs hj, if_pos (by omega)]
    simp [h2]

theorem slice_write_inner (b : Block) {off j len : Nat} {bs : List UInt8}
    (hj : j + len ≤ bs.length) (h : off + bs.length ≤ BLOCK_SZ) :
    (b.write off bs).slice (off + j) len = (bs.drop j).take len := by
  apply List.ext_getElem
  · simp
    omega
  · intro k h1 h2
    rw [slice_length] at h1
    simp only [slice, List.getElem_map, List.getElem_range, List.getElem_take, List.getElem_drop]
    have hk : off + j + k - off = j + k := by omega
    rw [byte_write b off bs (by omega), if_pos (by omega), hk, List.getD_eq_getElem?_getD,
      List.getElem?_eq_getElem (by omega), Option.getD_some]

/-- The two byte ranges do not meet. -/
def Apart (off len off' len' : Nat) : Prop := off + len ≤ off' ∨ off' + len' ≤ off

theorem slice_write_apart (b : Block) {off off' len' : Nat} {bs : List UInt8}
    (h : Apart off bs.length off' len') (hlen : off' + len' ≤ BLOCK_SZ) :
    (b.write off bs).slice off' len' = b.slice off' len' := by
  apply slice_congr
  intro j hj
  rw [byte_write b off bs (by omega), if_neg]
  unfold Apart at h
  omega

theorem field_setField (b : Block) {off w n : Nat} (h : off + w ≤ BLOCK_SZ) (hn : n < 256 ^ w) :
    (b.setField off w n).field off w = n := by
  have hs : (b.write off (leBytes w n)).slice off (leBytes w n).length = leBytes w n :=
    slice_write_self b (by simpa using h)
  rw [leBytes_length] at hs
  unfold field setField
  rw [hs, leNat_leBytes, Nat.mod_eq_of_lt hn]

theorem field_setField_apart (b : Block) {off w n off' w' : Nat} (h : Apart off w off' w')
    (hlen : off' + w' ≤ BLOCK_SZ) : (b.setField off w n).field off' w' = b.field off' w' := by
  unfold field setField
  rw [slice_write_apart b (by simpa using h) hlen]

@[simp] theorem field_zero (off w : Nat) : zero.field off w = 0 := by
  unfold field
  rw [slice_zero, leNat_replicate_zero]

theorem field_lt (b : Block) (off w : Nat) : b.field off w < 256 ^ w := by
  have := leNat_lt (b.slice off w)
  rwa [slice_length] at this

/-! ### The u32 fields of a block -/

def u32 (b : Block) (off : Nat) : UInt32 := UInt32.ofNat (b.field off 4)

def setU32 (b : Block) (off : Nat) (x : UInt32) : Block := b.setField off 4 x.toNat

/-- Consecutive `u32` fields. -/
def setU32s (b : Block) (off : Nat) (xs : List UInt32) : Block :=
  b.write off (xs.flatMap fun x => leBytes 4 x.toNat)

theorem u32_setU32 (b : Block) {off : Nat} (x : UInt32) (h : off + 4 ≤ BLOCK_SZ) :
    (b.setU32 off x).u32 off = x := by
  unfold u32 setU32
  rw [field_setField b h (by simpa using x.toNat_lt), UInt32.ofNat_toNat]

theorem u32_setU32_apart (b : Block) {off off' : Nat} (x : UInt32) (h : Apart off 4 off' 4)
    (hlen : off' + 4 ≤ BLOCK_SZ) : (b.setU32 off x).u32 off' = b.u32 off' := by
  unfold u32 setU32
  rw [field_setField_apart b h hlen]

theorem length_flatMap_leBytes (xs : List UInt32) :
    (xs.flatMap fun x => leBytes 4 x.toNat).length = 4 * xs.length := by
  induction xs with
  | nil => rfl
  | cons x xs ih =>
      rw [List.flatMap_cons, List.length_append, ih, leBytes_length, List.length_cons]
      omega

theorem flatMap_leBytes_drop {xs : List UInt32} {i : Nat} (hi : i < xs.length) :
    ((xs.flatMap fun x => leBytes 4 x.toNat).drop (4 * i)).take 4 = leBytes 4 xs[i].toNat := by
  induction xs generalizing i with
  | nil => cases hi
  | cons x xs ih =>
      rw [List.flatMap_cons]
      cases i with
      | zero =>
          rw [Nat.mul_zero, List.drop_zero, List.take_append_of_le_length (by simp),
            List.take_of_length_le (by simp), List.getElem_cons_zero]
      | succ i =>
          have hlen : (leBytes 4 x.toNat).length = 4 := leBytes_length ..
          rw [List.drop_append, List.drop_eq_nil_of_le (by omega), List.nil_append, hlen,
            show 4 * (i + 1) - 4 = 4 * i by omega, ih (by simpa using hi), List.getElem_cons_succ]

theorem u32_setU32s (b : Block) {off i : Nat} {xs : List UInt32} (hi : i < xs.length)
    (hlen : off + 4 * xs.length ≤ BLOCK_SZ) :
    (b.setU32s off xs).u32 (off + 4 * i) = xs[i] := by
  have hbytes := length_flatMap_leBytes xs
  unfold u32 setU32s field
  rw [slice_write_inner b (by omega) (by omega), flatMap_leBytes_drop hi, leNat_leBytes,
    Nat.mod_eq_of_lt (by simpa using xs[i].toNat_lt), UInt32.ofNat_toNat]

theorem u32_write_apart (b : Block) {off off' : Nat} {bs : List UInt8}
    (h : Apart off bs.length off' 4) (hlen : off' + 4 ≤ BLOCK_SZ) :
    (b.write off bs).u32 off' = b.u32 off' := by
  unfold u32 field
  rw [slice_write_apart b h hlen]

theorem byte_write_apart (b : Block) {off i : Nat} {bs : List UInt8} (h : Apart off bs.length i 1)
    (hi : i < BLOCK_SZ) : (b.write off bs).byte i = b.byte i := by
  rw [byte_write b off bs hi, if_neg]
  unfold Apart at h
  omega

/-! The block as an `IndirectBlock`, an array of 128 block ids. -/

def entry (b : Block) (i : Nat) : UInt32 := b.u32 (4 * i)

def setEntry (b : Block) (i : Nat) (x : UInt32) : Block := b.setU32 (4 * i) x

/-- The first `n` entries. -/
def entries (b : Block) (n : Nat) : List UInt32 := (List.range n).map b.entry

theorem entry_setEntry (b : Block) {i j : Nat} (x : UInt32) (hi : i < 128) (hj : j < 128) :
    (b.setEntry i x).entry j = if j = i then x else b.entry j := by
  unfold entry setEntry
  split
  · next h =>
      subst h
      exact u32_setU32 b x (by simp only [BLOCK_SZ]; omega)
  · next h => exact u32_setU32_apart b x (by unfold Apart; omega) (by simp only [BLOCK_SZ]; omega)

end Block

end Nimloth
