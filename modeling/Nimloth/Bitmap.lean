import Mathlib.Tactic.Common
import Mathlib.Data.Nat.Bitwise
import Nimloth.BlockProg

/-!
# Bitmaps

`components/src/micro_fs/bitmap.rs`. A bitmap is a run of blocks, each
an array of 64 words of 64 bits. `alloc` sets the first clear bit of the
first block that has one; `dealloc` asserts that its bit is set and
clears it.

Above this file a bitmap is its bits: `bit σ k`, and what an operation
does to a store is `Sets σ σ' k v`: bit `k` becomes `v`, and nothing
else changes.
-/

namespace Nimloth

open BlockProg

/-! ## Words and bits -/

theorem testBit_or_two_pow (x i j : Nat) :
    (x ||| 2 ^ i).testBit j = if j = i then true else x.testBit j := by
  rw [Nat.testBit_or, Nat.testBit_two_pow]
  by_cases h : j = i
  · simp [h]
  · simp [h, Ne.symm h]

/-- Subtracting the weight of a set bit clears it. -/
theorem testBit_sub_two_pow {x i : Nat} (h : x.testBit i = true) (j : Nat) :
    (x - 2 ^ i).testBit j = if j = i then false else x.testBit j := by
  have hpos := Nat.two_pow_pos i
  have hr : x % 2 ^ i < 2 ^ i := Nat.mod_lt _ hpos
  have hodd : x / 2 ^ i % 2 = 1 := by simpa [Nat.testBit_eq_decide_div_mod_eq] using h
  obtain ⟨q, hq⟩ : ∃ q, x / 2 ^ i = 2 * q + 1 := ⟨x / 2 ^ i / 2, by omega⟩
  have hx : x = 2 ^ i * (2 * q + 1) + x % 2 ^ i := by
    rw [← hq]
    exact (Nat.div_add_mod x (2 ^ i)).symm
  have hsub : x - 2 ^ i = 2 ^ i * (2 * q) + x % 2 ^ i := by
    rw [Nat.mul_add] at hx
    omega
  rw [hsub, Nat.testBit_two_pow_mul_add _ hr]
  conv_rhs => rw [hx, Nat.testBit_two_pow_mul_add _ hr]
  by_cases hj : j < i
  · simp [hj, Nat.ne_of_lt hj]
  · rw [if_neg hj, if_neg hj]
    by_cases heq : j = i
    · simp [heq]
    · obtain ⟨n, hn⟩ : ∃ n, j - i = n + 1 := ⟨j - i - 1, by omega⟩
      have h1 : 2 * q / 2 = q := by omega
      have h2 : (2 * q + 1) / 2 = q := by omega
      rw [if_neg heq, hn, Nat.testBit_succ, Nat.testBit_succ, h1, h2]

/-- `u64::trailing_ones`. -/
def trailingOnes (x : Nat) : Nat := ((List.range 64).find? fun i => !x.testBit i).getD 64

namespace Block

/-- Word `i` of the block as a `BitmapBlock`. -/
def word (b : Block) (i : Nat) : Nat := b.field (8 * i) 8

def setWord (b : Block) (i x : Nat) : Block := b.setField (8 * i) 8 x

theorem word_lt (b : Block) (i : Nat) : b.word i < 2 ^ 64 := b.field_lt (8 * i) 8

theorem word_setWord (b : Block) {i j x : Nat} (hi : i < 64) (hj : j < 64) (hx : x < 2 ^ 64) :
    (b.setWord i x).word j = if j = i then x else b.word j := by
  unfold word setWord
  split
  · next h =>
      subst h
      exact field_setField b (by simp only [BLOCK_SZ]; omega) hx
  · next h => exact field_setField_apart b (by unfold Apart; omega) (by simp only [BLOCK_SZ]; omega)

/-- Bit `k` of the block. -/
def bit (b : Block) (k : Nat) : Bool := (b.word (k / 64)).testBit (k % 64)

@[simp] theorem bit_zero (k : Nat) : zero.bit k = false := by simp [bit, word]

/-- Changing one bit of a word changes one bit of the block. -/
theorem bit_setWord (b : Block) {w i x k : Nat} {v : Bool} (hw : w < 64) (hi : i < 64)
    (hx : x < 2 ^ 64) (hbit : ∀ j, x.testBit j = if j = i then v else (b.word w).testBit j)
    (hk : k < 4096) : (b.setWord w x).bit k = if k = 64 * w + i then v else b.bit k := by
  unfold bit
  rw [word_setWord b hw (by omega) hx]
  by_cases hkw : k / 64 = w
  · rw [if_pos hkw, hbit, hkw]
    have : k % 64 = i ↔ k = 64 * w + i := by omega
    simp only [this]
  · rw [if_neg hkw, if_neg (by omega)]

end Block

/-! ## The bitmap -/

@[simp] abbrev BLOCK_BITS : Nat := BLOCK_SZ * 8

structure Bitmap where
  startBlockId : Nat
  blocks : Nat
  deriving DecidableEq

namespace Bitmap

/-- The word and the bit in it that `alloc` takes in a block. -/
def firstFree (b : Block) : Option (Nat × Nat) :=
  ((List.range 64).find? fun i => b.word i != 2 ^ 64 - 1).map fun i => (i, trailingOnes (b.word i))

def allocLoop (bm : Bitmap) : Nat → Nat → BlockProg (Option Nat)
  | 0, _ => pure none
  | n + 1, blockId => do
      let pos ← modifyBlock (blockId + bm.startBlockId) fun b =>
        match firstFree b with
        | some (bits64Pos, innerPos) =>
            pure (some (blockId * BLOCK_BITS + bits64Pos * 64 + innerPos),
              b.setWord bits64Pos (b.word bits64Pos ||| 2 ^ innerPos))
        | none => pure (none, b)
      if pos.isSome then pure pos else allocLoop bm n (blockId + 1)

def alloc (bm : Bitmap) : BlockProg (Option Nat) := bm.allocLoop bm.blocks 0

def dealloc (bm : Bitmap) (bit : Nat) : BlockProg Unit := do
  let blockPos := bit / BLOCK_BITS
  let bits64Pos := bit % BLOCK_BITS / 64
  let innerPos := bit % BLOCK_BITS % 64
  modifyBlock (blockPos + bm.startBlockId) fun b => do
    assert (b.word bits64Pos &&& 2 ^ innerPos > 0)
    pure ((), b.setWord bits64Pos (b.word bits64Pos - 2 ^ innerPos))

def maximum (bm : Bitmap) : Nat := bm.blocks * BLOCK_BITS

/-- Bit `k` of the bitmap. -/
def bit (bm : Bitmap) (σ : Store) (k : Nat) : Bool :=
  (σ (k / 4096 + bm.startBlockId)).bit (k % 4096)

/-- Bit `k` is set to `v`; the rest of the store stays. -/
structure Sets (bm : Bitmap) (σ σ' : Store) (k : Nat) (v : Bool) : Prop where
  bit : ∀ j, bm.bit σ' j = if j = k then v else bm.bit σ j
  frame : ∀ id, id ≠ k / 4096 + bm.startBlockId → σ' id = σ id

/-! ### One block -/

theorem trailingOnes_spec {x : Nat} (hx : x < 2 ^ 64) (hne : x ≠ 2 ^ 64 - 1) :
    trailingOnes x < 64 ∧ x.testBit (trailingOnes x) = false
      ∧ ∀ j, j < trailingOnes x → x.testBit j = true := by
  unfold trailingOnes
  cases hfind : (List.range 64).find? fun i => !x.testBit i with
  | none =>
      exfalso
      apply hne
      apply Nat.eq_of_testBit_eq
      intro j
      rw [Nat.testBit_two_pow_sub_one]
      by_cases hj : j < 64
      · have := List.find?_eq_none.mp hfind j (List.mem_range.mpr hj)
        simpa [hj] using this
      · rw [Nat.testBit_lt_two_pow (Nat.lt_of_lt_of_le hx (Nat.pow_le_pow_right (by omega)
          (by omega)))]
        simp [hj]
  | some i =>
      obtain ⟨hi, hmem, hbefore⟩ := List.find?_range_eq_some.mp hfind
      refine ⟨List.mem_range.mp hmem, by simpa using hi, ?_⟩
      intro j hj
      simpa using hbefore j hj

theorem bit_of_full {b : Block} {w k : Nat} (hw : b.word w = 2 ^ 64 - 1) (hk : k / 64 = w) :
    b.bit k = true := by
  unfold Block.bit
  rw [hk, hw, Nat.testBit_two_pow_sub_one]
  simp only [decide_eq_true_eq]
  omega

theorem firstFree_some {b : Block} {w i : Nat} (h : firstFree b = some (w, i)) :
    w < 64 ∧ i < 64 ∧ b.bit (64 * w + i) = false ∧ ∀ j, j < 64 * w + i → b.bit j = true := by
  obtain ⟨w', hfind, heq⟩ := Option.map_eq_some_iff.mp h
  cases heq
  obtain ⟨hne, hmem, hbefore⟩ := List.find?_range_eq_some.mp hfind
  obtain ⟨hi, hclear, hset⟩ := trailingOnes_spec (b.word_lt w) (by simpa using hne)
  have hw : w < 64 := List.mem_range.mp hmem
  refine ⟨hw, hi, ?_, ?_⟩
  · unfold Block.bit
    rw [show (64 * w + trailingOnes (b.word w)) / 64 = w by omega,
      show (64 * w + trailingOnes (b.word w)) % 64 = trailingOnes (b.word w) by omega]
    exact hclear
  · intro j hj
    by_cases hjw : j / 64 = w
    · unfold Block.bit
      rw [hjw]
      exact hset _ (by omega)
    · have hfull := hbefore (j / 64) (by omega)
      exact bit_of_full (by simpa using hfull) rfl

theorem firstFree_none {b : Block} (h : firstFree b = none) {k : Nat} (hk : k < 4096) :
    b.bit k = true := by
  have hfull := List.find?_range_eq_none.mp (Option.map_eq_none_iff.mp h) (k / 64) (by omega)
  exact bit_of_full (by simpa using hfull) rfl

/-! ### The operations -/

/-- A block of the bitmap is replaced by one that differs in one bit. -/
theorem sets_update (bm : Bitmap) (σ : Store) {b : Block} {k : Nat} {v : Bool}
    (h : ∀ j, j < 4096 → b.bit j
      = if j = k % 4096 then v else (σ (k / 4096 + bm.startBlockId)).bit j) :
    bm.Sets σ (Function.update σ (k / 4096 + bm.startBlockId) b) k v where
  bit j := by
    unfold Bitmap.bit
    by_cases hj : j / 4096 = k / 4096
    · rw [hj, Function.update_self, h _ (by omega)]
      have : j % 4096 = k % 4096 ↔ j = k := by omega
      simp only [this]
    · rw [Function.update_of_ne (by omega), if_neg (by rintro rfl; exact hj rfl)]
  frame id hid := Function.update_of_ne hid ..

/-- What `alloc` returns and does: the first clear bit is set, and without one
nothing changes. -/
def Allocated (bm : Bitmap) (σ : Store) (r : Option Nat) (σ' : Store) : Prop :=
  match r with
  | some k => k < bm.blocks * 4096 ∧ bm.bit σ k = false ∧ (∀ j, j < k → bm.bit σ j = true)
      ∧ bm.Sets σ σ' k true
  | none => σ' = σ ∧ ∀ j, j < bm.blocks * 4096 → bm.bit σ j = true

theorem bit_block (bm : Bitmap) (σ : Store) (blockId : Nat) {i : Nat} (hi : i < 4096) :
    bm.bit σ (blockId * 4096 + i) = (σ (blockId + bm.startBlockId)).bit i := by
  unfold Bitmap.bit
  rw [show (blockId * 4096 + i) / 4096 = blockId by omega,
    show (blockId * 4096 + i) % 4096 = i by omega]

/-- The blocks before `blockId` are full. -/
theorem allocLoop_spec (bm : Bitmap) {held : List Nat} {σ : Store}
    (hheld : ∀ i, i < bm.blocks → i + bm.startBlockId ∉ held) (n blockId : Nat)
    (hn : blockId + n = bm.blocks) (hfull : ∀ j, j < blockId * 4096 → bm.bit σ j = true) :
    Returns (bm.allocLoop n blockId) held σ (bm.Allocated σ) := by
  induction n generalizing blockId with
  | zero =>
      have : blockId = bm.blocks := by omega
      subst this
      rw [allocLoop, Returns, Post.pure_iff]
      exact ⟨rfl, hfull⟩
  | succ n ih =>
      have hid := hheld blockId (by omega)
      rw [allocLoop, Returns, Post.bind_iff, Post.modify_iff hid]
      cases hfree : firstFree (σ (blockId + bm.startBlockId)) with
      | none =>
          simp only [Post.pure_iff, Function.update_eq_self, Option.isSome_none, Bool.false_eq_true,
            if_false]
          refine ih (blockId + 1) (by omega) ?_
          intro j hj
          by_cases hlt : j < blockId * 4096
          · exact hfull j hlt
          · obtain ⟨i, rfl⟩ : ∃ i, j = blockId * 4096 + i := ⟨j - blockId * 4096, by omega⟩
            rw [bit_block bm σ blockId (by omega)]
            exact firstFree_none hfree (by omega)
      | some p =>
          obtain ⟨w, i⟩ := p
          obtain ⟨hw, hi, hclear, hset⟩ := firstFree_some hfree
          have hlt : 64 * w + i < 4096 := by omega
          have hk : blockId * BLOCK_BITS + w * 64 + i = blockId * 4096 + (64 * w + i) := by
            simp only [BLOCK_BITS, BLOCK_SZ]
            omega
          simp only [Post.pure_iff, Option.isSome_some, if_true, hk]
          refine ⟨?_, ?_, ?_, ?_⟩
          · have : (blockId + 1) * 4096 ≤ bm.blocks * 4096 := Nat.mul_le_mul_right _ (by omega)
            omega
          · rw [bit_block bm σ blockId hlt]
            exact hclear
          · intro j hj
            by_cases hjb : j < blockId * 4096
            · exact hfull j hjb
            · obtain ⟨i', rfl⟩ : ∃ i', j = blockId * 4096 + i' := ⟨j - blockId * 4096, by omega⟩
              rw [bit_block bm σ blockId (by omega)]
              exact hset i' (by omega)
          · have hdiv : (blockId * 4096 + (64 * w + i)) / 4096 = blockId := by omega
            have hmod : (blockId * 4096 + (64 * w + i)) % 4096 = 64 * w + i := by omega
            have hsets := bm.sets_update σ (k := blockId * 4096 + (64 * w + i)) (v := true)
              (b := (σ (blockId + bm.startBlockId)).setWord w
                ((σ (blockId + bm.startBlockId)).word w ||| 2 ^ i))
            rw [hdiv, hmod] at hsets
            apply hsets
            intro j hj
            refine Block.bit_setWord _ hw hi ?_ (testBit_or_two_pow _ i) hj
            exact Nat.or_lt_two_pow (Block.word_lt _ w) (Nat.pow_lt_pow_right (by omega) hi)

theorem alloc_spec (bm : Bitmap) {held : List Nat} {σ : Store}
    (hheld : ∀ i, i < bm.blocks → i + bm.startBlockId ∉ held) :
    Returns bm.alloc held σ (bm.Allocated σ) :=
  bm.allocLoop_spec hheld bm.blocks 0 (Nat.zero_add _) (by simp)

/-- `dealloc` returns exactly if its bit is set. -/
theorem dealloc_spec (bm : Bitmap) {E : FsErr → Prop} {held : List Nat} {σ : Store} {k : Nat}
    (hheld : k / 4096 + bm.startBlockId ∉ held) (hE : bm.bit σ k = false → E .panic) :
    Post E (bm.dealloc k) held σ fun _ σ' => bm.bit σ k = true ∧ bm.Sets σ σ' k false := by
  have hw : k % 4096 / 64 < 64 := by omega
  have hi : k % 4096 % 64 < 64 := by omega
  have hiff : 0 < (σ (k / 4096 + bm.startBlockId)).word (k % 4096 / 64) &&& 2 ^ (k % 4096 % 64)
      ↔ bm.bit σ k = true := by
    unfold Bitmap.bit Block.bit
    rw [Nat.and_two_pow]
    cases ((σ (k / 4096 + bm.startBlockId)).word (k % 4096 / 64)).testBit (k % 4096 % 64) with
    | false => simp
    | true => simp
  simp only [dealloc, BLOCK_BITS, BLOCK_SZ, Nat.reduceMul]
  rw [Post.modify_iff hheld, Post.bind_iff, Post.assert_iff]
  refine ⟨?_, ?_⟩
  · intro hpos
    have hset := hiff.mp hpos
    rw [Post.pure_iff]
    refine ⟨hset, bm.sets_update σ ?_⟩
    intro j hj
    have hmod : 64 * (k % 4096 / 64) + k % 4096 % 64 = k % 4096 := by omega
    rw [Block.bit_setWord _ hw hi ?_ (testBit_sub_two_pow hset) hj, hmod]
    exact Nat.lt_of_le_of_lt (Nat.sub_le _ _) (Block.word_lt _ _)
  · intro hzero
    apply hE
    simpa using mt hiff.mpr hzero

end Bitmap

end Nimloth
