import Mathlib.Tactic.Common
import Nimloth.IndexGrowth
import Nimloth.RadixTree

/-!
# Places in the index tree

`block_id` finds a data block by a walk: it begins at an id in the inode
and follows an entry of one index block after the other. A place is the
beginning of a walk, and `idAt` is what is found there;
`IndexPlace.ofData i` is where `block_id` goes for data block `i`, over
all three levels of indirection (`blockId_eq`). The index tree of a file
of `n` data blocks (`indexTree`) has a node for each block on the way to
one of them.

Below each id of the inode hangs a tree that is addressed by digits, so the
nodes are counted by depth. Up to `INDIRECT2_BOUND` data blocks the tree
is the one that `increase_size` builds (`indexTree_eq_nodes`).
-/

namespace Nimloth

open BlockProg DiskInode

/-! ## Walks -/

/-- Where a walk begins: an id in the inode. -/
inductive IndexRoot where
  | direct (i : Nat)
  | indirect1
  | indirect2
  | indirect3
  deriving DecidableEq

namespace IndexRoot

/-- How many index blocks lead to a data block. -/
def depth : IndexRoot → Nat
  | .direct _ => 0
  | .indirect1 => 1
  | .indirect2 => 2
  | .indirect3 => 3

def id (d : DiskInode) : IndexRoot → UInt32
  | .direct i => d.directAt i
  | .indirect1 => d.indirect1
  | .indirect2 => d.indirect2
  | .indirect3 => d.indirect3

/-- The first data block below. -/
def first : IndexRoot → Nat
  | .direct i => i
  | .indirect1 => DIRECT_BOUND
  | .indirect2 => INDIRECT1_BOUND
  | .indirect3 => INDIRECT2_BOUND

end IndexRoot

/-- A place in the index tree: the walk to it. -/
@[ext] structure IndexPlace where
  root : IndexRoot
  entries : List Nat
  deriving DecidableEq

namespace IndexPlace

/-- The walk ends at an index block. -/
def isIndex (p : IndexPlace) : Bool := p.entries.length < p.root.depth

/-- The place of data block `innerId`, by the splits of `block_id`. -/
def ofData (innerId : Nat) : IndexPlace :=
  if innerId < INODE_DIRECT_COUNT then ⟨.direct innerId, []⟩
  else if innerId < INDIRECT1_BOUND then ⟨.indirect1, [innerId - INODE_DIRECT_COUNT]⟩
  else if innerId < INDIRECT2_BOUND then
    let last := innerId - INDIRECT1_BOUND
    ⟨.indirect2, [last / INODE_INDIRECT1_COUNT, last % INODE_INDIRECT1_COUNT]⟩
  else
    let last := innerId - INDIRECT2_BOUND
    ⟨.indirect3, [last / INODE_INDIRECT2_COUNT,
      last % INODE_INDIRECT2_COUNT / INODE_INDIRECT1_COUNT,
      last % INODE_INDIRECT2_COUNT % INODE_INDIRECT1_COUNT]⟩

section OfData

variable {i : Nat}

theorem ofData_direct (h : i < 27) : ofData i = ⟨.direct i, []⟩ := if_pos h

theorem ofData_indirect1 (hlo : 27 ≤ i) (hhi : i < 155) : ofData i = ⟨.indirect1, [i - 27]⟩ := by
  have hdirect : ¬ i < INODE_DIRECT_COUNT := Nat.not_lt.mpr hlo
  have hbound : i < INDIRECT1_BOUND := hhi
  rw [ofData, if_neg hdirect, if_pos hbound]

theorem ofData_indirect2 (hlo : 155 ≤ i) (hhi : i < 16539) :
    ofData i = ⟨.indirect2, [(i - 155) / 128, (i - 155) % 128]⟩ := by
  have hbound₁ : ¬ i < INDIRECT1_BOUND := Nat.not_lt.mpr hlo
  have hdirect : ¬ i < INODE_DIRECT_COUNT := fun h => hbound₁ (Nat.lt_add_right _ h)
  have hbound₂ : i < INDIRECT2_BOUND := hhi
  rw [ofData, if_neg hdirect, if_neg hbound₁, if_pos hbound₂]
  rfl

theorem ofData_indirect3 (hlo : 16539 ≤ i) : ofData i = ⟨.indirect3,
    [(i - 16539) / 16384, (i - 16539) % 16384 / 128, (i - 16539) % 16384 % 128]⟩ := by
  have hbound₂ : ¬ i < INDIRECT2_BOUND := Nat.not_lt.mpr hlo
  have hbound₁ : ¬ i < INDIRECT1_BOUND := fun h => hbound₂ (Nat.lt_add_right _ h)
  have hdirect : ¬ i < INODE_DIRECT_COUNT := fun h => hbound₁ (Nat.lt_add_right _ h)
  rw [ofData, if_neg hdirect, if_neg hbound₁, if_neg hbound₂]
  rfl

end OfData

/-- The places on the way, the place itself included. -/
def nodes (p : IndexPlace) : Finset IndexPlace :=
  (p.entries.inits.map (IndexPlace.mk p.root)).toFinset

end IndexPlace

namespace DiskInode

/-- From the block `id` on, an entry of each block leads to the next. -/
def follow (id : UInt32) : List Nat → BlockProg UInt32
  | [] => pure id
  | j :: entries => do
      let id ← readBlock id.toNat fun b => pure (b.entry j)
      follow id entries

/-- The id of the block at a place. -/
def idAt (d : DiskInode) (p : IndexPlace) : BlockProg UInt32 := follow (p.root.id d) p.entries

theorem follow_append (id : UInt32) (entries rest : List Nat) :
    follow id (entries ++ rest) = follow id entries >>= fun id => follow id rest := by
  induction entries generalizing id with
  | nil => rfl
  | cons j entries ih =>
      rw [List.cons_append, follow, follow]
      simp only [ih]
      rfl

/-- `block_id` is the walk to the place of the data block. -/
theorem blockId_eq (d : DiskInode) {innerId : UInt32}
    (h : innerId.toNat < INDIRECT2_BOUND + INODE_INDIRECT3_COUNT) :
    d.blockId innerId = d.idAt (.ofData innerId.toNat) := by
  unfold blockId IndexPlace.ofData
  dsimp only
  split
  · rfl
  · split
    · rfl
    · split
      · rfl
      · -- the index into the last level is one of its block
        have hlast : (innerId.toNat - INDIRECT2_BOUND) / INODE_INDIRECT2_COUNT
            < INODE_INDIRECT1_COUNT := by
          simp only [INDIRECT2_BOUND, INDIRECT1_BOUND, DIRECT_BOUND, INODE_DIRECT_COUNT,
            INODE_INDIRECT3_COUNT, INODE_INDIRECT2_COUNT, INODE_INDIRECT1_COUNT, BLOCK_SZ] at h ⊢
          omega
        simp only [assert, if_pos hlast]
        rfl

end DiskInode

/-- The blocks that a file of `n` data blocks needs, by their places. -/
def indexTree (n : Nat) : Finset IndexPlace :=
  (Finset.range n).biUnion fun i => (IndexPlace.ofData i).nodes

/-- Its index blocks. -/
def indexNodes (n : Nat) : Finset IndexPlace := (indexTree n).filter (·.isIndex)

/-- The index blocks in use with `n` data blocks, each from its first data block on. -/
inductive UsedIndex (n : Nat) : IndexPlace → Prop where
  | indirect1 : DIRECT_BOUND < n → UsedIndex n ⟨.indirect1, []⟩
  | indirect2 : INDIRECT1_BOUND < n → UsedIndex n ⟨.indirect2, []⟩
  | child {a : Nat} : a < INODE_INDIRECT1_COUNT → INDIRECT1_BOUND + a * INODE_INDIRECT1_COUNT < n →
      UsedIndex n ⟨.indirect2, [a]⟩
  | indirect3 : INDIRECT2_BOUND < n → UsedIndex n ⟨.indirect3, []⟩
  | middle {a : Nat} : a < INODE_INDIRECT1_COUNT → INDIRECT2_BOUND + a * INODE_INDIRECT2_COUNT < n →
      UsedIndex n ⟨.indirect3, [a]⟩
  | leaf {a b : Nat} : a < INODE_INDIRECT1_COUNT → b < INODE_INDIRECT1_COUNT →
      INDIRECT2_BOUND + a * INODE_INDIRECT2_COUNT + b * INODE_INDIRECT1_COUNT < n →
      UsedIndex n ⟨.indirect3, [a, b]⟩

theorem indexTree_mono {n n' : Nat} (h : n ≤ n') : indexTree n ⊆ indexTree n' :=
  Finset.biUnion_subset_biUnion_of_subset_left _ (Finset.range_subset_range.mpr h)

theorem IndexPlace.mem_nodes {p q : IndexPlace} :
    p ∈ q.nodes ↔ p.root = q.root ∧ p.entries <+: q.entries := by
  obtain ⟨root, entries⟩ := p
  simp only [nodes, List.mem_toFinset, List.mem_map, List.mem_inits, IndexPlace.mk.injEq]
  constructor
  · rintro ⟨es, hes, rfl, rfl⟩
    exact ⟨rfl, hes⟩
  · rintro ⟨rfl, hes⟩
    exact ⟨entries, hes, rfl, rfl⟩

/-! ## The trees below the ids -/

namespace IndexRoot

/-- The ids of an inode. -/
def all : Finset IndexRoot :=
  (Finset.range INODE_DIRECT_COUNT).image .direct ∪ {.indirect1, .indirect2, .indirect3}

/-- How many of the first `n` data blocks are below. -/
def used (n : Nat) (r : IndexRoot) : Nat := min (n - r.first) (128 ^ r.depth)

variable {r : IndexRoot} {i n : Nat}

theorem ofData_eq (hr : r ∈ all) (hlo : r.first ≤ i) (hhi : i < r.first + 128 ^ r.depth) :
    IndexPlace.ofData i = ⟨r, Radix.digits 128 r.depth (i - r.first)⟩ := by
  cases r with
  | direct j =>
      have hj : j < 27 := by simpa [all] using hr
      obtain rfl : i = j := by
        simp only [first, depth, Nat.pow_zero] at hlo hhi
        omega
      exact IndexPlace.ofData_direct hj
  | indirect1 =>
      rw [IndexPlace.ofData_indirect1 hlo hhi]
      simp [Radix.digits, first, depth]
  | indirect2 =>
      rw [IndexPlace.ofData_indirect2 hlo hhi]
      simp [Radix.digits, first, depth, BLOCK_SZ]
  | indirect3 =>
      rw [IndexPlace.ofData_indirect3 hlo]
      simp [Radix.digits, first, depth, BLOCK_SZ]

theorem lt_used {m : Nat} (hm : m < 128 ^ r.depth) (h : r.first + m < n) : m < r.used n :=
  lt_min_iff.mpr ⟨Nat.lt_sub_iff_add_lt'.mpr h, hm⟩

/-- Each data block is below one of the ids. -/
theorem exists_root (h : i < INDIRECT2_BOUND + INODE_INDIRECT3_COUNT) :
    ∃ r ∈ all, r.first ≤ i ∧ i < r.first + 128 ^ r.depth := by
  have hlt : i < 16539 + 2097152 := h
  rcases Nat.lt_or_ge i 27 with h₁ | h₁
  · exact ⟨.direct i, by simp [all, h₁], Nat.le_refl _, by simp [first, depth]⟩
  rcases Nat.lt_or_ge i 155 with h₂ | h₂
  · exact ⟨.indirect1, by simp [all], h₁, h₂⟩
  rcases Nat.lt_or_ge i 16539 with h₃ | h₃
  · exact ⟨.indirect2, by simp [all], h₂, h₃⟩
  · exact ⟨.indirect3, by simp [all], h₃, hlt⟩

/-- Different data blocks have different places. -/
theorem ofData_inj {j : Nat} (hi : i < INDIRECT2_BOUND + INODE_INDIRECT3_COUNT)
    (hj : j < INDIRECT2_BOUND + INODE_INDIRECT3_COUNT)
    (h : IndexPlace.ofData i = IndexPlace.ofData j) : i = j := by
  obtain ⟨r, hr, hlo, hhi⟩ := exists_root hi
  obtain ⟨r', hr', hlo', hhi'⟩ := exists_root hj
  rw [ofData_eq hr hlo hhi, ofData_eq hr' hlo' hhi'] at h
  obtain ⟨rfl, hdigits⟩ := IndexPlace.mk.inj h
  rcases Nat.eq_zero_or_pos r.depth with hzero | hpos
  · rw [hzero, Nat.pow_zero] at hhi hhi'
    omega
  · have := Radix.digits_inj hpos hdigits
    omega

theorem length_ofData (h : i < INDIRECT2_BOUND + INODE_INDIRECT3_COUNT) :
    (IndexPlace.ofData i).entries.length = (IndexPlace.ofData i).root.depth := by
  obtain ⟨r, hr, hlo, hhi⟩ := exists_root h
  rw [ofData_eq hr hlo hhi]
  exact Radix.length_digits ..

theorem sum_all (f : IndexRoot → Nat) : ∑ r ∈ all, f r
    = ∑ i ∈ Finset.range INODE_DIRECT_COUNT, f (.direct i) + f .indirect1 + f .indirect2
      + f .indirect3 := by
  have hdisjoint : Disjoint ((Finset.range INODE_DIRECT_COUNT).image direct)
      {.indirect1, .indirect2, .indirect3} := by
    rw [Finset.disjoint_left]
    simp only [Finset.mem_image]
    rintro _ ⟨i, -, rfl⟩
    simp
  rw [all, Finset.sum_union hdisjoint, Finset.sum_image fun i _ j _ h => direct.inj h,
    Finset.sum_insert (by simp), Finset.sum_insert (by simp), Finset.sum_singleton]
  omega

/-- The nodes below an id, by depth. -/
def nodesBelow (n : Nat) (r : IndexRoot) : Nat :=
  ∑ k ∈ Finset.range (r.depth + 1), min ((n - r.first) ⌈/⌉ 128 ^ (r.depth - k)) (128 ^ k)

theorem nodesBelow_direct (n i : Nat) : nodesBelow n (.direct i) = min (n - i) 1 := by
  simp [nodesBelow, depth, first]

theorem nodesBelow_indirect1 (n : Nat) : nodesBelow n .indirect1
    = (if 0 < n - 27 then 1 else 0) + min (n - 27) 128 := by
  rw [← Radix.min_ceilDiv_one (show 0 < 128 by decide)]
  simp [nodesBelow, depth, first, Finset.sum_range_succ]

theorem nodesBelow_indirect2 (n : Nat) : nodesBelow n .indirect2
    = (if 0 < n - 155 then 1 else 0) + min ((n - 155) ⌈/⌉ 128) 128 + min (n - 155) 16384 := by
  rw [← Radix.min_ceilDiv_one (show 0 < 16384 by decide)]
  simp [nodesBelow, depth, first, Finset.sum_range_succ, BLOCK_SZ]

theorem nodesBelow_indirect3 (n : Nat) : nodesBelow n .indirect3
    = (if 0 < n - 16539 then 1 else 0) + min ((n - 16539) ⌈/⌉ 16384) 128
      + min ((n - 16539) ⌈/⌉ 128) 16384 + min (n - 16539) 2097152 := by
  rw [← Radix.min_ceilDiv_one (show 0 < 2097152 by decide)]
  simp [nodesBelow, depth, first, Finset.sum_range_succ, BLOCK_SZ]

theorem sum_min_one (n m : Nat) : ∑ i ∈ Finset.range m, min (n - i) 1 = min n m := by
  induction m with
  | zero => simp
  | succ m ih =>
      rw [Finset.sum_range_succ, ih]
      omega

end IndexRoot

section Tree

variable {n : Nat}

theorem usedIndex_digits {r : IndexRoot} {k q : Nat} (hk : k < r.depth)
    (hq : q * 128 ^ (r.depth - k) < r.used n) : UsedIndex n ⟨r, Radix.digits 128 k q⟩ := by
  have hq := lt_min_iff.mp hq
  cases r with
  | direct i => exact absurd hk (Nat.not_lt_zero k)
  | indirect1 =>
      obtain rfl : k = 0 := Nat.lt_one_iff.mp hk
      have hq : q * 128 ^ 1 < n - 27 := hq.1
      exact .indirect1 (show 27 < n by omega)
  | indirect2 =>
      have hk : k < 2 := hk
      obtain rfl | rfl : k = 0 ∨ k = 1 := by omega
      · have hq : q * 128 ^ 2 < n - 155 := hq.1
        exact .indirect2 (show 155 < n by omega)
      · have hq : q * 128 ^ 1 < n - 155 ∧ q * 128 ^ 1 < 128 ^ 2 := hq
        rw [Radix.digits, Nat.pow_zero, Nat.div_one]
        exact .child (show q < 128 by omega) (show 155 + q * 128 < n by omega)
  | indirect3 =>
      have hk : k < 3 := hk
      obtain rfl | rfl | rfl : k = 0 ∨ k = 1 ∨ k = 2 := by omega
      · have hq : q * 128 ^ 3 < n - 16539 := hq.1
        exact .indirect3 (show 16539 < n by omega)
      · have hq : q * 128 ^ 2 < n - 16539 ∧ q * 128 ^ 2 < 128 ^ 3 := hq
        rw [Radix.digits, Nat.pow_zero, Nat.div_one]
        exact .middle (show q < 128 by omega) (show 16539 + q * 16384 < n by omega)
      · have hq : q * 128 ^ 1 < n - 16539 ∧ q * 128 ^ 1 < 128 ^ 3 := hq
        rw [Radix.digits, Radix.digits, Nat.pow_zero, Nat.div_one]
        exact .leaf (show q / 128 < 128 by omega) (show q % 128 < 128 by omega)
          (show 16539 + q / 128 * 16384 + q % 128 * 128 < n by omega)

theorem UsedIndex.exists_digits {p : IndexPlace} (h : UsedIndex n p) : ∃ k < p.root.depth, ∃ q,
    q * 128 ^ (p.root.depth - k) < p.root.used n ∧ p.entries = Radix.digits 128 k q := by
  cases h with
  | indirect1 h => exact ⟨0, by decide, 0, IndexRoot.lt_used (by decide) h, rfl⟩
  | indirect2 h => exact ⟨0, by decide, 0, IndexRoot.lt_used (by decide) h, rfl⟩
  | @child a ha h =>
      have ha : a < 128 := ha
      refine ⟨1, show 1 < 2 by decide, a, IndexRoot.lt_used ?_ h, ?_⟩
      · exact show a * 128 ^ 1 < 128 ^ 2 by omega
      · exact congrArg (· :: []) (Nat.div_one a).symm
  | indirect3 h => exact ⟨0, by decide, 0, IndexRoot.lt_used (by decide) h, rfl⟩
  | @middle a ha h =>
      have ha : a < 128 := ha
      refine ⟨1, show 1 < 3 by decide, a, IndexRoot.lt_used ?_ h, ?_⟩
      · exact show a * 128 ^ 2 < 128 ^ 3 by omega
      · exact congrArg (· :: []) (Nat.div_one a).symm
  | @leaf a b ha hb h =>
      have ha : a < 128 := ha
      have hb : b < 128 := hb
      have h : 16539 + a * 16384 + b * 128 < n := h
      refine ⟨2, show 2 < 3 by decide, a * 128 + b, IndexRoot.lt_used ?_ ?_, ?_⟩
      · exact show (a * 128 + b) * 128 ^ 1 < 128 ^ 3 by omega
      · exact show 16539 + (a * 128 + b) * 128 ^ 1 < n by omega
      · have hdiv : (a * 128 + b) / 128 ^ 1 = a := by omega
        have hmod : (a * 128 + b) % 128 ^ 1 / 128 ^ 0 = b := by omega
        rw [Radix.digits, Radix.digits, hdiv, hmod, Radix.digits]

/-- `total_blocks`, a summand for each kind of node. -/
theorem blocksWithIndex_eq (n : Nat) : DiskInode.blocksWithIndex n
    = n + (if 0 < n - 27 then 1 else 0)
      + ((if 0 < n - 155 then 1 else 0) + min ((n - 155) ⌈/⌉ 128) 128)
      + ((if 0 < n - 16539 then 1 else 0) + (n - 16539) ⌈/⌉ 16384 + (n - 16539) ⌈/⌉ 128) := by
  have hsub : ∀ b : Nat, 0 < n - b ↔ n > b := fun b => Nat.sub_pos_iff_lt
  have hzero : ∀ b c : Nat, ¬ n > b → (n - b) ⌈/⌉ c = 0 := by
    intro b c h
    rw [Nat.sub_eq_zero_of_le (Nat.not_lt.mp h), zero_ceilDiv]
  simp only [hsub]
  have hbounds : DiskInode.blocksWithIndex n
      = (if n > 16539 then
          (if n > 155 then
            (if n > 27 then n + 1 else n) + 1 + min ((n - 155) ⌈/⌉ 128) 128
          else if n > 27 then n + 1 else n)
          + 1 + (n - 16539) ⌈/⌉ 16384 + (n - 16539) ⌈/⌉ 128
        else if n > 155 then
            (if n > 27 then n + 1 else n) + 1 + min ((n - 155) ⌈/⌉ 128) 128
          else if n > 27 then n + 1 else n) := rfl
  have hindirect1 : (if n > 27 then n + 1 else n) = n + if n > 27 then 1 else 0 := by
    split <;> rfl
  rw [hbounds, hindirect1]
  clear hbounds
  by_cases h₁ : n > 155
  · by_cases h₂ : n > 16539
    · simp only [if_pos h₁, if_pos h₂]
      omega
    · simp only [if_pos h₁, if_neg h₂, hzero _ _ h₂]
      omega
  · simp only [if_neg h₁, if_neg (show ¬ n > 16539 by omega), hzero _ _ h₁,
      hzero _ _ (show ¬ n > 16539 by omega)]
    omega

variable (hn : n ≤ INDIRECT2_BOUND + INODE_INDIRECT3_COUNT)

include hn

/-- The tree, below each id of the inode. -/
theorem mem_indexTree {p : IndexPlace} : p ∈ indexTree n
    ↔ p.root ∈ IndexRoot.all ∧ p.entries ∈ Radix.prefixes 128 p.root.depth (p.root.used n) := by
  obtain ⟨r, entries⟩ := p
  simp only [indexTree, Radix.prefixes, Finset.mem_biUnion, Finset.mem_range, IndexPlace.mem_nodes,
    List.mem_toFinset, List.mem_inits]
  constructor
  · rintro ⟨i, hi, hroot, hentries⟩
    obtain ⟨r', hr', hlo, hhi⟩ := IndexRoot.exists_root (Nat.lt_of_lt_of_le hi hn)
    rw [IndexRoot.ofData_eq hr' hlo hhi] at hroot hentries
    obtain rfl : r = r' := hroot
    refine ⟨hr', i - r.first, ?_, hentries⟩
    rw [IndexRoot.used, lt_min_iff]
    exact ⟨by omega, by omega⟩
  · rintro ⟨hr, j, hj, hentries⟩
    rw [IndexRoot.used, lt_min_iff] at hj
    have hdata := IndexRoot.ofData_eq (i := r.first + j) hr (Nat.le_add_right ..)
      (Nat.add_lt_add_left hj.2 _)
    rw [Nat.add_sub_cancel_left] at hdata
    refine ⟨r.first + j, by omega, ?_, ?_⟩
    · rw [hdata]
    · rw [hdata]
      exact hentries

/-- Below an id, the index blocks at depth `k` are numbered from the left. -/
theorem mem_indexNodes_iff {p : IndexPlace} : p ∈ indexNodes n ↔ p.root ∈ IndexRoot.all
    ∧ ∃ k < p.root.depth, ∃ q, q * 128 ^ (p.root.depth - k) < p.root.used n
      ∧ p.entries = Radix.digits 128 k q := by
  rw [indexNodes, Finset.mem_filter, mem_indexTree hn, Radix.mem_prefixes (by decide), and_assoc,
    IndexPlace.isIndex, decide_eq_true_eq]
  constructor
  · rintro ⟨hr, ⟨k, -, q, hq, hentries⟩, hdepth⟩
    rw [hentries, Radix.length_digits] at hdepth
    exact ⟨hr, k, hdepth, q, hq, hentries⟩
  · rintro ⟨hr, k, hk, q, hq, hentries⟩
    refine ⟨hr, ⟨k, hk.le, q, hq, hentries⟩, ?_⟩
    rw [hentries, Radix.length_digits]
    exact hk

theorem mem_indexNodes {p : IndexPlace} : p ∈ indexNodes n ↔ UsedIndex n p := by
  rw [mem_indexNodes_iff hn]
  constructor
  · obtain ⟨root, entries⟩ := p
    rintro ⟨-, k, hk, q, hq, rfl⟩
    exact usedIndex_digits hk hq
  · intro h
    have hall : p.root ∈ IndexRoot.all := by cases h <;> simp [IndexRoot.all]
    exact ⟨hall, h.exists_digits⟩

theorem card_filter_root {r : IndexRoot} (hr : r ∈ IndexRoot.all) :
    ((indexTree n).filter (·.root = r)).card = r.nodesBelow n := by
  have himage : (indexTree n).filter (·.root = r)
      = (Radix.prefixes 128 r.depth (r.used n)).image (IndexPlace.mk r) := by
    ext p
    simp only [Finset.mem_filter, mem_indexTree hn, Finset.mem_image]
    constructor
    · rintro ⟨⟨-, hentries⟩, rfl⟩
      exact ⟨p.entries, hentries, rfl⟩
    · rintro ⟨entries, hentries, rfl⟩
      exact ⟨⟨hr, hentries⟩, rfl⟩
  rw [himage, Finset.card_image_of_injective _ fun _ _ h => (IndexPlace.mk.inj h).2, IndexRoot.used,
    Radix.card_prefixes_min (by decide), IndexRoot.nodesBelow]

/-- `total_blocks` counts the nodes of the tree. -/
theorem card_indexTree : (indexTree n).card = DiskInode.blocksWithIndex n := by
  have hmaps : ∀ p ∈ indexTree n, p.root ∈ IndexRoot.all :=
    fun p hp => ((mem_indexTree hn).mp hp).1
  rw [Finset.card_eq_sum_card_fiberwise hmaps,
    Finset.sum_congr rfl fun r hr => card_filter_root hn hr, IndexRoot.sum_all,
    Finset.sum_congr rfl fun i _ => IndexRoot.nodesBelow_direct n i, IndexRoot.sum_min_one,
    IndexRoot.nodesBelow_indirect1, IndexRoot.nodesBelow_indirect2,
    IndexRoot.nodesBelow_indirect3]
  have hmax : n ≤ 2113691 := hn
  have hdata : min n INODE_DIRECT_COUNT + min (n - 27) 128 + min (n - 155) 16384
      + min (n - 16539) 2097152 = n := by
    simp only [INODE_DIRECT_COUNT]
    omega
  have hmiddle : min ((n - 16539) ⌈/⌉ 16384) 128 = (n - 16539) ⌈/⌉ 16384 :=
    Nat.min_eq_left ((ceilDiv_le_iff_le_mul (by decide)).mpr (by omega))
  have hleaf : min ((n - 16539) ⌈/⌉ 128) 16384 = (n - 16539) ⌈/⌉ 128 :=
    Nat.min_eq_left ((ceilDiv_le_iff_le_mul (by decide)).mpr (by omega))
  rw [hmiddle, hleaf, blocksWithIndex_eq]
  generalize min ((n - 155) ⌈/⌉ 128) 128 = children
  omega

theorem filter_not_isIndex :
    (indexTree n).filter (¬ ·.isIndex) = (Finset.range n).image .ofData := by
  have hlength : ∀ i < n, (IndexPlace.ofData i).entries.length = (IndexPlace.ofData i).root.depth :=
    fun i hi => IndexRoot.length_ofData (Nat.lt_of_lt_of_le hi hn)
  ext p
  simp only [indexTree, Finset.mem_filter, Finset.mem_biUnion, Finset.mem_image,
    Finset.mem_range, IndexPlace.mem_nodes, IndexPlace.isIndex, decide_eq_true_eq, Nat.not_lt]
  constructor
  · rintro ⟨⟨i, hi, hroot, hentries⟩, hdepth⟩
    rw [hroot, ← hlength i hi] at hdepth
    exact ⟨i, hi, IndexPlace.ext hroot.symm (hentries.eq_of_length_le hdepth).symm⟩
  · rintro ⟨i, hi, rfl⟩
    exact ⟨⟨i, hi, rfl, List.prefix_rfl⟩, (hlength i hi).ge⟩

/-- The nodes of the tree are the data blocks and the index blocks. -/
theorem card_indexTree_eq : (indexTree n).card = n + (indexNodes n).card := by
  rw [← Finset.card_filter_add_card_filter_not (s := indexTree n) (·.isIndex),
    filter_not_isIndex hn, Finset.card_image_of_injOn, Finset.card_range, indexNodes, Nat.add_comm]
  intro i hi j hj h
  simp only [Finset.coe_range, Set.mem_Iio] at hi hj
  exact IndexRoot.ofData_inj (Nat.lt_of_lt_of_le hi hn) (Nat.lt_of_lt_of_le hj hn) h

end Tree

/-! ## The trees of `block_id` and of `increase_size` -/

/-- The tree that `block_id` addresses for `n` data blocks: to find one it walks through places of
the tree, and there are no others. -/
structure AddressedTree (n : Nat) (tree : Finset IndexPlace) : Prop where
  blockId : ∀ (d : DiskInode) (i : UInt32), i.toNat < n → d.blockId i = d.idAt (.ofData i.toNat)
  mem : ∀ i < n, ∀ p, p ∈ (IndexPlace.ofData i).nodes → p ∈ tree
  through : ∀ p ∈ tree, ∃ i : UInt32, i.toNat < n
    ∧ ∃ rest, ∀ d : DiskInode, d.blockId i = d.idAt p >>= fun id => follow id rest

theorem addressedTree {n : Nat} (hn : n ≤ INDIRECT2_BOUND + INODE_INDIRECT3_COUNT) :
    AddressedTree n (indexTree n) where
  blockId d _ hi := d.blockId_eq (Nat.lt_of_lt_of_le hi hn)
  mem i hi _ hp := Finset.mem_biUnion.mpr ⟨i, Finset.mem_range.mpr hi, hp⟩
  through p hp := by
    simp only [indexTree, Finset.mem_biUnion, Finset.mem_range, IndexPlace.mem_nodes] at hp
    obtain ⟨i, hi, hroot, rest, hentries⟩ := hp
    have hmax : n ≤ 2113691 := hn
    have hword : (UInt32.ofNat i).toNat = i := by
      rw [UInt32.toNat_ofNat', Nat.mod_eq_of_lt (by omega)]
    refine ⟨UInt32.ofNat i, hword.symm ▸ hi, rest, fun d => ?_⟩
    rw [d.blockId_eq (hword.symm ▸ Nat.lt_of_lt_of_le hi hn), hword, idAt, ← hentries,
      follow_append, ← hroot]
    rfl

/-- The place of a node. -/
def Node.place : Node → IndexPlace
  | .data i => .ofData i
  | .indirect1 => ⟨.indirect1, []⟩
  | .indirect2 => ⟨.indirect2, []⟩
  | .sub a => ⟨.indirect2, [a]⟩

/-- The tree is the one that `increase_size` fills, as far as it goes. -/
theorem indexTree_eq_nodes {n : Nat} (hn : n ≤ INDIRECT2_BOUND) :
    indexTree n = ((nodes n).map Node.place).toFinset := by
  have hmax : n ≤ INDIRECT2_BOUND + INODE_INDIRECT3_COUNT := Nat.le_add_right_of_le hn
  have hn : n ≤ 16539 := hn
  rw [← Finset.filter_union_filter_not_eq (·.isIndex) (indexTree n), filter_not_isIndex hmax,
    ← indexNodes]
  ext p
  simp only [Finset.mem_union, mem_indexNodes hmax, Finset.mem_image, Finset.mem_range,
    List.mem_toFinset, List.mem_map, mem_nodes]
  constructor
  · rintro (h | ⟨i, hi, rfl⟩)
    · cases h with
      | indirect1 h => exact ⟨.indirect1, h, rfl⟩
      | indirect2 h => exact ⟨.indirect2, h, rfl⟩
      | @child a _ h =>
          have h : 155 + a * 128 < n := h
          exact ⟨.sub a, show 155 + 128 * a < n by omega, rfl⟩
      | indirect3 h => exact absurd hn (Nat.not_le.mpr h)
      | @middle a _ h =>
          have h : 16539 + a * 16384 < n := h
          omega
      | @leaf a b _ _ h =>
          have h : 16539 + a * 16384 + b * 128 < n := h
          omega
    · exact ⟨.data i, hi, rfl⟩
  · rintro ⟨node, h, rfl⟩
    cases node with
    | data i => exact .inr ⟨i, h, rfl⟩
    | indirect1 => exact .inl (.indirect1 h)
    | indirect2 => exact .inl (.indirect2 h)
    | sub a =>
        have h : 155 + 128 * a < n := h
        exact .inl (.child (show a < 128 by omega) (show 155 + a * 128 < n by omega))

end Nimloth
