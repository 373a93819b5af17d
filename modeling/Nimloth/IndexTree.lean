import Mathlib.Tactic.Common
import Mathlib.Data.List.Nodup
import Nimloth.Layout

/-!
# The index tree of an inode

A file of `n` data blocks owns, besides these, the indirect block from
28 data blocks on, the double indirect block from 156 on, and one block
under the latter for each 128 further data blocks. `nodes n` lists all of
them in the order in which a file growing block by block gets them;
`owned σ d n` are their ids.

`increase_size`, `clear_size` and `total_blocks` each work the shape of
the tree out in their own way. They agree with `nodes`: growth from `n`
to `m` data blocks takes exactly the ids of the nodes in between, in
order, and leaves the ids of the first ones (`Grown`), whatever the steps
it comes in; `clear_size` returns `owned`; `total_blocks` is its length.
-/

namespace Nimloth

open BlockProg

/-! ## Nodes -/

/-- A block of a file, by its place in the index tree. -/
inductive Node where
  | data (i : Nat)
  | indirect1
  | indirect2
  | sub (a : Nat)
  deriving DecidableEq

namespace Node

def isIndex : Node → Bool
  | .data _ => false
  | _ => true

/-- The nodes that data block `i` adds. -/
def added (i : Nat) : List Node :=
  if i = 27 then [.indirect1, .data i]
  else if i = 155 then [.indirect2, .sub 0, .data i]
  else if 155 < i ∧ (i - 155) % 128 = 0 then [.sub ((i - 155) / 128), .data i]
  else [.data i]

end Node

/-- The nodes of a file of `n` data blocks. -/
def nodes (n : Nat) : List Node := (List.range n).flatMap Node.added

theorem nodes_succ (n : Nat) : nodes (n + 1) = nodes n ++ Node.added n := by
  simp [nodes, List.range_succ]

/-- Data blocks a file has before the node is there. -/
def Node.since : Node → Nat
  | .data i => i
  | .indirect1 => 27
  | .indirect2 => 155
  | .sub a => 155 + 128 * a

theorem mem_added {node : Node} {i : Nat} : node ∈ Node.added i ↔ node.since = i := by
  unfold Node.added
  cases node with
  | data j =>
      simp only [Node.since]
      split
      · simp [eq_comm]
      · split
        · simp [eq_comm]
        · split <;> simp [eq_comm]
  | indirect1 =>
      simp only [Node.since]
      split
      · next h => simp [h]
      · next h =>
          refine iff_of_false ?_ (Ne.symm h)
          split
          · simp
          · split <;> simp
  | indirect2 =>
      simp only [Node.since]
      split
      · next h => simp [h]
      · split
        · next h => simp [h]
        · next h =>
            refine iff_of_false ?_ (Ne.symm h)
            split <;> simp
  | sub a =>
      simp only [Node.since]
      split
      · next h =>
          subst h
          refine iff_of_false (by simp) (by omega)
      · split
        · next h =>
            subst h
            simp
        · split
          · simp only [List.mem_cons, Node.sub.injEq, reduceCtorEq, List.not_mem_nil, or_false]
            omega
          · refine iff_of_false (by simp) (by omega)

/-- A node is there once the file has more data blocks than `since`. -/
theorem mem_nodes {node : Node} {n : Nat} : node ∈ nodes n ↔ node.since < n := by
  unfold nodes
  simp only [List.mem_flatMap, List.mem_range, mem_added]
  exact ⟨fun ⟨_, hi, h⟩ => h ▸ hi, fun h => ⟨_, h, rfl⟩⟩

theorem length_added (i : Nat) : (Node.added i).length
    = if i = 27 then 2 else if i = 155 then 3 else if 155 < i ∧ (i - 155) % 128 = 0 then 2 else 1 := by
  unfold Node.added
  split
  · rfl
  · split
    · rfl
    · split <;> rfl

/-- `total_blocks`, by the index blocks that are in use. -/
theorem blocksWithIndex_cases (n : Nat) :
    (n ≤ 27 ∧ DiskInode.blocksWithIndex n = n)
    ∨ (27 < n ∧ n ≤ 155 ∧ DiskInode.blocksWithIndex n = n + 1)
    ∨ (155 < n ∧ n ≤ 16539 ∧ DiskInode.blocksWithIndex n = n + 2 + (n - 28) / 128)
    ∨ 16539 < n
      ∧ DiskInode.blocksWithIndex n = n + 131 + (n - 156) / 16384 + (n - 16412) / 128 := by
  have h₁ : INDIRECT1_BOUND = 155 := rfl
  have h₂ : INDIRECT2_BOUND = 16539 := rfl
  have h₃ : INODE_INDIRECT1_COUNT = 128 := rfl
  have h₄ : INODE_INDIRECT2_COUNT = 16384 := rfl
  simp only [DiskInode.blocksWithIndex, INODE_DIRECT_COUNT, h₁, h₂, h₃, h₄]
  rcases Nat.lt_or_ge 16539 n with h | h
  · rw [if_pos h, if_pos (show n > 155 by omega), if_pos (show n > 27 by omega)]
    omega
  rw [if_neg (Nat.not_lt.mpr h)]
  rcases Nat.lt_or_ge 155 n with h | h
  · rw [if_pos h, if_pos (show n > 27 by omega)]
    omega
  rw [if_neg (Nat.not_lt.mpr h)]
  split
  · omega
  · omega

/-- `total_blocks` counts the nodes. -/
theorem length_nodes {n : Nat} (h : n ≤ 16539) :
    (nodes n).length = DiskInode.blocksWithIndex n := by
  induction n with
  | zero => rfl
  | succ n ih =>
      rw [nodes_succ, List.length_append, ih (by omega), length_added]
      have hn := blocksWithIndex_cases n
      have hn' := blocksWithIndex_cases (n + 1)
      split
      · omega
      · split
        · omega
        · split
          · omega
          · omega

theorem blocksWithIndex_mono {n m : Nat} (h : n ≤ m) :
    DiskInode.blocksWithIndex n ≤ DiskInode.blocksWithIndex m := by
  have hn := blocksWithIndex_cases n
  have hm := blocksWithIndex_cases m
  omega

theorem nodes_prefix {n m : Nat} (h : n ≤ m) : nodes n <+: nodes m := by
  induction h with
  | refl => exact List.prefix_refl _
  | step _ ih =>
      rw [nodes_succ]
      exact ih.trans (List.prefix_append ..)

/-! ## Their ids -/

/-- The id of a node, read off the inode and the index blocks. -/
def nodeId (σ : Store) (d : DiskInode) : Node → UInt32
  | .data i =>
      if i < 27 then d.directAt i
      else if i < 155 then (σ d.indirect1.toNat).entry (i - 27)
      else (σ ((σ d.indirect2.toNat).entry ((i - 155) / 128)).toNat).entry ((i - 155) % 128)
  | .indirect1 => d.indirect1
  | .indirect2 => d.indirect2
  | .sub a => (σ d.indirect2.toNat).entry a

/-- The ids of the blocks of a file of `n` data blocks. -/
def owned (σ : Store) (d : DiskInode) (n : Nat) : List UInt32 := (nodes n).map (nodeId σ d)

theorem owned_succ (σ : Store) (d : DiskInode) (n : Nat) :
    owned σ d (n + 1) = owned σ d n ++ (Node.added n).map (nodeId σ d) := by
  unfold owned
  rw [nodes_succ, List.map_append]

@[simp] theorem owned_length (σ : Store) (d : DiskInode) (n : Nat) :
    (owned σ d n).length = (nodes n).length := List.length_map ..

theorem nodeId_mem {σ : Store} {d : DiskInode} {n : Nat} {node : Node} (h : node.since < n) :
    nodeId σ d node ∈ owned σ d n :=
  List.mem_map_of_mem (mem_nodes.mpr h)

theorem mem_owned {σ : Store} {d : DiskInode} {n : Nat} {x : UInt32} :
    x ∈ owned σ d n ↔ ∃ node : Node, node.since < n ∧ nodeId σ d node = x := by
  unfold owned
  simp only [List.mem_map, mem_nodes]

/-- Nodes of a file without shared blocks are told apart by their ids. -/
theorem nodeId_inj {σ : Store} {d : DiskInode} {n : Nat} (h : (owned σ d n).Nodup)
    {node node' : Node} (hn : node.since < n) (hn' : node'.since < n)
    (heq : nodeId σ d node = nodeId σ d node') : node = node' :=
  List.inj_on_of_nodup_map h (mem_nodes.mpr hn) (mem_nodes.mpr hn') heq

theorem owned_congr {σ σ' : Store} {d d' : DiskInode} {n : Nat}
    (h : ∀ node : Node, node.since < n → nodeId σ' d' node = nodeId σ d node) :
    owned σ' d' n = owned σ d n := by
  unfold owned
  apply List.map_congr_left
  intro node hnode
  exact h node (mem_nodes.mp hnode)

/-- The ids are read from the index blocks alone. -/
theorem nodeId_frame {σ σ' : Store} {d : DiskInode} {n : Nat}
    (h : ∀ node : Node, node.since < n → node.isIndex →
      σ' (nodeId σ d node).toNat = σ (nodeId σ d node).toNat)
    {node : Node} (hn : node.since < n) : nodeId σ' d node = nodeId σ d node := by
  cases node with
  | data i =>
      simp only [Node.since] at hn
      simp only [nodeId]
      split
      · rfl
      · split
        · have h₁ : σ' d.indirect1.toNat = σ d.indirect1.toNat :=
            h .indirect1 (by simp only [Node.since]; omega) rfl
          rw [h₁]
        · have h₂ : σ' d.indirect2.toNat = σ d.indirect2.toNat :=
            h .indirect2 (by simp only [Node.since]; omega) rfl
          have h₃ := h (.sub ((i - 155) / 128)) (by simp only [Node.since]; omega) rfl
          simp only [nodeId] at h₃
          rw [h₂, h₃]
  | indirect1 => rfl
  | indirect2 => rfl
  | sub a =>
      simp only [Node.since] at hn
      have h₂ : σ' d.indirect2.toNat = σ d.indirect2.toNat :=
        h .indirect2 (by simp only [Node.since]; omega) rfl
      simp only [nodeId, h₂]

theorem owned_frame {σ σ' : Store} {d : DiskInode} {n : Nat}
    (h : ∀ x ∈ owned σ d n, σ' x.toNat = σ x.toNat) : owned σ' d n = owned σ d n := by
  apply owned_congr
  intro node hn
  exact nodeId_frame (fun node hn _ => h _ (nodeId_mem hn)) hn

/-! ## Growth, node by node -/

/-- The order in which a growing file gets its nodes. -/
def Node.rank : Node → Nat
  | .data i => 4 * i + 3
  | .indirect1 => 4 * 27
  | .indirect2 => 4 * 155 + 1
  | .sub a => 4 * (155 + 128 * a) + 2

/-- A file on the way from `σ₀` to an inode of the size and type of `d₀`: the
nodes `M` have the first of the ids `ids`, the others are still to come, and
only index blocks have been written. -/
structure Growing (σ₀ : Store) (d₀ : DiskInode) (ids : List UInt32) (σ : Store) (d : DiskInode)
    (M : List Node) (rest : List UInt32) : Prop where
  ids : M.map (nodeId σ d) ++ rest = ids
  frame : ∀ b, (∀ node ∈ M, node.isIndex → (nodeId σ d node).toNat ≠ b) → σ b = σ₀ b
  size : d.size = d₀.size
  type : d.type = d₀.type

namespace Growing

variable {σ₀ σ : Store} {d₀ d : DiskInode} {ids : List UInt32} {M : List Node} {x : UInt32}
  {rest : List UInt32}

theorem mem_ids (h : Growing σ₀ d₀ ids σ d M rest) {node : Node} (hn : node ∈ M) :
    nodeId σ d node ∈ ids := by
  rw [← h.ids]
  exact List.mem_append_left _ (List.mem_map_of_mem hn)

theorem length (h : Growing σ₀ d₀ ids σ d M rest) : M.length + rest.length = ids.length := by
  rw [← h.ids]
  simp

/-- Distinct nodes have distinct ids. -/
theorem ne (h : Growing σ₀ d₀ ids σ d M rest) (hnd : ids.Nodup) {node node' : Node}
    (hn : node ∈ M) (hn' : node' ∈ M) (hne : node ≠ node') :
    (nodeId σ d node).toNat ≠ (nodeId σ d node').toNat := by
  intro heq
  rw [← h.ids] at hnd
  exact hne (List.inj_on_of_nodup_map (List.nodup_append.mp hnd).1 hn hn'
    (UInt32.toNat_inj.mp heq))

/-- One more node: the others keep their ids, the new one has the next id, and
only a block of the tree is written. -/
theorem add (h : Growing σ₀ d₀ ids σ d M (x :: rest)) {σ' : Store} {d' : DiskInode} {new : Node}
    (hkeep : ∀ node ∈ M, nodeId σ' d' node = nodeId σ d node) (hnew : nodeId σ' d' new = x)
    (hframe : ∀ b, (∀ node ∈ M, node.isIndex → (nodeId σ d node).toNat ≠ b) → σ' b = σ b)
    (hsize : d'.size = d.size) (htype : d'.type = d.type) :
    Growing σ₀ d₀ ids σ' d' (M ++ [new]) rest where
  ids := by
    rw [List.map_append, List.map_congr_left hkeep, ← h.ids]
    simp [hnew]
  frame b hb := by
    have hold : ∀ node ∈ M, node.isIndex → (nodeId σ d node).toNat ≠ b := by
      intro node hn hi
      rw [← hkeep node hn]
      exact hb node (List.mem_append_left _ hn) hi
    rw [hframe b hold, h.frame b hold]
  size := hsize.trans h.size
  type := htype.trans h.type

theorem add_direct (h : Growing σ₀ d₀ ids σ d M (x :: rest)) {i : Nat} (hi : i < 27)
    (hM : ∀ node ∈ M, node.rank < (Node.data i).rank) :
    Growing σ₀ d₀ ids σ (d.setDirect i x) (M ++ [.data i]) rest := by
  refine h.add ?_ ?_ (fun _ _ => rfl) rfl rfl
  · intro node hn
    have hr := hM node hn
    cases node with
    | data j =>
        simp only [Node.rank] at hr
        simp only [nodeId, if_pos (show j < 27 by omega)]
        rw [DiskInode.directAt_setDirect d x hi, if_neg (by omega)]
    | indirect1 => rfl
    | indirect2 => rfl
    | sub a => rfl
  · simp only [nodeId, if_pos hi]
    rw [DiskInode.directAt_setDirect d x hi, if_pos rfl]

theorem add_indirect1 (h : Growing σ₀ d₀ ids σ d M (x :: rest))
    (hM : ∀ node ∈ M, node.rank < Node.indirect1.rank) :
    Growing σ₀ d₀ ids σ { d with indirect1 := x } (M ++ [.indirect1]) rest := by
  refine h.add ?_ rfl (fun _ _ => rfl) rfl rfl
  intro node hn
  have hr := hM node hn
  cases node with
  | data j =>
      simp only [Node.rank] at hr
      simp only [nodeId, if_pos (show j < 27 by omega)]
      rfl
  | indirect1 => simp [Node.rank] at hr
  | indirect2 => rfl
  | sub a => rfl

theorem add_indirect2 (h : Growing σ₀ d₀ ids σ d M (x :: rest))
    (hM : ∀ node ∈ M, node.rank < Node.indirect2.rank) :
    Growing σ₀ d₀ ids σ { d with indirect2 := x } (M ++ [.indirect2]) rest := by
  refine h.add ?_ rfl (fun _ _ => rfl) rfl rfl
  intro node hn
  have hr := hM node hn
  cases node with
  | data j =>
      simp only [Node.rank] at hr
      simp only [nodeId, if_pos (show j < 155 by omega)]
      rfl
  | indirect1 => rfl
  | indirect2 => simp [Node.rank] at hr
  | sub a =>
      simp only [Node.rank] at hr
      omega

/-- An entry of the indirect block. -/
theorem add_entry1 (h : Growing σ₀ d₀ ids σ d M (x :: rest)) {i : Nat} (hi : 27 ≤ i) (hi' : i < 155)
    (hM : ∀ node ∈ M, node.rank < (Node.data i).rank) (hmem : .indirect1 ∈ M) :
    Growing σ₀ d₀ ids (Function.update σ d.indirect1.toNat
      ((σ d.indirect1.toNat).setEntry (i - 27) x)) d (M ++ [.data i]) rest := by
  refine h.add ?_ ?_ ?_ rfl rfl
  · intro node hn
    have hr := hM node hn
    cases node with
    | data j =>
        simp only [Node.rank] at hr
        simp only [nodeId, if_pos (show j < 155 by omega)]
        split
        · rfl
        · rw [Function.update_self, Block.entry_setEntry _ x (by omega) (by omega),
            if_neg (by omega)]
    | indirect1 => rfl
    | indirect2 =>
        simp only [Node.rank] at hr
        omega
    | sub a =>
        simp only [Node.rank] at hr
        omega
  · simp only [nodeId, if_neg (show ¬ i < 27 by omega), if_pos hi']
    rw [Function.update_self, Block.entry_setEntry _ x (by omega) (by omega), if_pos rfl]
  · intro b hb
    exact Function.update_of_ne (Ne.symm (hb .indirect1 hmem rfl)) ..

/-- An entry of the double indirect block. -/
theorem add_sub (h : Growing σ₀ d₀ ids σ d M (x :: rest)) (hnd : ids.Nodup) {a : Nat}
    (ha : a < 128) (hM : ∀ node ∈ M, node.rank < (Node.sub a).rank) (hmem₁ : .indirect1 ∈ M)
    (hmem₂ : .indirect2 ∈ M) (hsub : ∀ a', a' < a → .sub a' ∈ M) :
    Growing σ₀ d₀ ids (Function.update σ d.indirect2.toNat
      ((σ d.indirect2.toNat).setEntry a x)) d (M ++ [.sub a]) rest := by
  have hne₁ : d.indirect1.toNat ≠ d.indirect2.toNat := h.ne hnd hmem₁ hmem₂ (by simp)
  have hsame : ∀ a', a' < a → ((σ d.indirect2.toNat).setEntry a x).entry a'
      = (σ d.indirect2.toNat).entry a' := by
    intro a' ha'
    rw [Block.entry_setEntry _ x ha (by omega), if_neg (by omega)]
  refine h.add ?_ ?_ ?_ rfl rfl
  · intro node hn
    have hr := hM node hn
    cases node with
    | data j =>
        simp only [Node.rank] at hr
        simp only [nodeId]
        split
        · rfl
        · split
          · rw [Function.update_of_ne hne₁]
          · have ha' : (j - 155) / 128 < a := by omega
            have hne := h.ne hnd (hsub _ ha') hmem₂ (by simp)
            simp only [nodeId] at hne
            rw [Function.update_self, hsame _ ha', Function.update_of_ne hne]
    | indirect1 => rfl
    | indirect2 => rfl
    | sub a' =>
        simp only [Node.rank] at hr
        simp only [nodeId, Function.update_self]
        exact hsame a' (by omega)
  · simp only [nodeId, Function.update_self]
    rw [Block.entry_setEntry _ x ha ha, if_pos rfl]
  · intro b hb
    exact Function.update_of_ne (Ne.symm (hb .indirect2 hmem₂ rfl)) ..

/-- An entry of a block under the double indirect block. -/
theorem add_entry2 (h : Growing σ₀ d₀ ids σ d M (x :: rest)) (hnd : ids.Nodup) {a b : Nat}
    (hb : b < 128) (hM : ∀ node ∈ M, node.rank < (Node.data (155 + 128 * a + b)).rank)
    (hmem₁ : .indirect1 ∈ M) (hmem₂ : .indirect2 ∈ M) (hsub : ∀ a', a' ≤ a → .sub a' ∈ M) :
    Growing σ₀ d₀ ids (Function.update σ ((σ d.indirect2.toNat).entry a).toNat
      ((σ ((σ d.indirect2.toNat).entry a).toNat).setEntry b x)) d
      (M ++ [.data (155 + 128 * a + b)]) rest := by
  have hself := hsub a (Nat.le_refl a)
  have hne₁ := h.ne hnd hmem₁ hself (by simp)
  have hne₂ := h.ne hnd hmem₂ hself (by simp)
  simp only [nodeId] at hne₁ hne₂
  refine h.add ?_ ?_ ?_ rfl rfl
  · intro node hn
    have hr := hM node hn
    cases node with
    | data j =>
        simp only [Node.rank] at hr
        simp only [nodeId]
        split
        · rfl
        · split
          · rw [Function.update_of_ne hne₁]
          · rw [Function.update_of_ne hne₂]
            by_cases heq : (j - 155) / 128 = a
            · rw [heq, Function.update_self, Block.entry_setEntry _ x hb (by omega),
                if_neg (by omega)]
            · have hne := h.ne hnd (hsub ((j - 155) / 128) (by omega)) hself (by simpa using heq)
              simp only [nodeId] at hne
              rw [Function.update_of_ne hne]
    | indirect1 => rfl
    | indirect2 => rfl
    | sub a' => simp only [nodeId, Function.update_of_ne hne₂]
  · have h₁ : (155 + 128 * a + b - 155) / 128 = a := by omega
    have h₂ : (155 + 128 * a + b - 155) % 128 = b := by omega
    simp only [nodeId, if_neg (show ¬ 155 + 128 * a + b < 27 by omega),
      if_neg (show ¬ 155 + 128 * a + b < 155 by omega), h₁, h₂]
    rw [Function.update_of_ne hne₂, Function.update_self, Block.entry_setEntry _ x hb hb, if_pos rfl]
  · intro b' hb'
    have := hb' (.sub a) hself rfl
    simp only [nodeId] at this
    exact Function.update_of_ne (Ne.symm this) ..

end Growing

/-! ## increase_size -/

/-- The nodes before data block `p`, with the indirect block if it is the
first to need it. -/
def withIndirect1 (p : Nat) : List Node := if p = 27 then nodes p ++ [.indirect1] else nodes p

/-- The same for the double indirect block. -/
def withIndirect2 (p : Nat) : List Node := if p = 155 then nodes p ++ [.indirect2] else nodes p

/-- The same for the blocks under it. -/
def withSub (p : Nat) : List Node :=
  if (p - 155) % 128 = 0 then withIndirect2 p ++ [.sub ((p - 155) / 128)] else withIndirect2 p

theorem withIndirect1_of_ne {p : Nat} (h : p ≠ 27) : withIndirect1 p = nodes p := if_neg h

theorem withIndirect2_of_ne {p : Nat} (h : p ≠ 155) : withIndirect2 p = nodes p := if_neg h

theorem withIndirect1_succ {p : Nat} (h : 27 ≤ p) (h' : p < 155) :
    withIndirect1 p ++ [.data p] = withIndirect1 (p + 1) := by
  unfold withIndirect1
  rw [if_neg (show p + 1 ≠ 27 by omega), nodes_succ, Node.added]
  by_cases hp : p = 27
  · simp [hp]
  · rw [if_neg hp, if_neg hp, if_neg (by omega), if_neg (by omega)]

theorem withSub_succ {p : Nat} (h : 155 ≤ p) : withSub p ++ [.data p] = withIndirect2 (p + 1) := by
  unfold withSub withIndirect2
  rw [if_neg (show p + 1 ≠ 155 by omega), nodes_succ, Node.added]
  by_cases hp : p = 155
  · simp [hp]
  · simp only [if_neg hp, if_neg (show p ≠ 27 by omega)]
    by_cases hmod : (p - 155) % 128 = 0
    · rw [if_pos hmod, if_pos ⟨by omega, hmod⟩]
      simp
    · rw [if_neg hmod, if_neg (by omega)]

theorem Node.rank_lt {node : Node} {p : Nat} (h : node.since < p) : node.rank < 4 * p := by
  cases node with
  | data i =>
      simp only [since, rank] at *
      omega
  | indirect1 =>
      simp only [since, rank] at *
      omega
  | indirect2 =>
      simp only [since, rank] at *
      omega
  | sub a =>
      simp only [since, rank] at *
      omega

theorem mem_withIndirect1 {node : Node} {p : Nat} (h : node ∈ withIndirect1 p) :
    node.since < p ∨ (node = .indirect1 ∧ p = 27) := by
  unfold withIndirect1 at h
  split at h
  · next hp =>
      rcases List.mem_append.mp h with h | h
      · exact .inl (mem_nodes.mp h)
      · exact .inr ⟨List.mem_singleton.mp h, hp⟩
  · exact .inl (mem_nodes.mp h)

theorem mem_withIndirect2 {node : Node} {p : Nat} :
    node ∈ withIndirect2 p ↔ node.since < p ∨ (node = .indirect2 ∧ p = 155) := by
  unfold withIndirect2
  split
  · next hp => simp [mem_nodes, hp]
  · next hp => simp [mem_nodes, hp]

theorem mem_withSub {node : Node} {p : Nat} : node ∈ withSub p
    ↔ node.since < p ∨ (node = .indirect2 ∧ p = 155)
      ∨ ((p - 155) % 128 = 0 ∧ node = .sub ((p - 155) / 128)) := by
  unfold withSub
  split
  · next h => simp [mem_withIndirect2, h, or_assoc]
  · next h => simp [mem_withIndirect2, h]

theorem length_nodes_lt {n m : Nat} (h : n < m) : (nodes n).length < (nodes m).length := by
  induction h with
  | refl =>
      rw [nodes_succ, List.length_append, length_added]
      split_ifs <;> omega
  | step _ ih =>
      rw [nodes_succ, List.length_append]
      omega

theorem length_nodes_le {n m : Nat} (h : n ≤ m) : (nodes n).length ≤ (nodes m).length := by
  rcases Nat.lt_or_eq_of_le h with hlt | rfl
  · exact Nat.le_of_lt (length_nodes_lt hlt)
  · exact Nat.le_refl _

/-- The number of nodes still to come bounds the data blocks still to come. -/
theorem length_withIndirect2 {p m : Nat} (hp : 155 ≤ p) (h : p ≤ m) :
    (withIndirect2 p).length + (m - p) ≤ (withIndirect2 m).length := by
  induction h with
  | refl => simp
  | @step m hm ih =>
      have hlen := congrArg List.length (withSub_succ (p := m) (Nat.le_trans hp hm))
      have hsub : (withIndirect2 m).length ≤ (withSub m).length := by
        unfold withSub
        split <;> simp
      rw [List.length_append, List.length_singleton] at hlen
      have : p ≤ m := hm
      simp only [Nat.succ_eq_add_one]
      omega

namespace DiskInode

/-- A loop `fill` keeps what every round keeps. -/
theorem fill_spec {S : Type} {set : S → Nat → UInt32 → S} {bound : Nat}
    {I : S → Nat → List UInt32 → Prop}
    (hstep : ∀ s current x rest, current < bound → I s current (x :: rest) →
      I (set s current x) (current + 1) rest)
    (hmore : ∀ s current, current < bound → ¬ I s current []) {held : List Nat} {σ : Store}
    {s : S} {current : Nat} {v : List UInt32} (h : I s current v) :
    Returns (fill set bound s current v) held σ fun r σ' =>
      σ' = σ ∧ I r.1 r.2.1 r.2.2 ∧ r.2.1 = max current bound := by
  induction v generalizing s current with
  | nil =>
      unfold fill
      split
      · next hlt => exact absurd h (hmore s current hlt)
      · rw [Returns, Post.pure_iff]
        exact ⟨rfl, h, by dsimp only; omega⟩
  | cons x v ih =>
      unfold fill
      split
      · next hlt =>
          apply (ih (hstep s current x v hlt h)).mono
          rintro r σ' ⟨h₁, h₂, h₃⟩
          exact ⟨h₁, h₂, by omega⟩
      · rw [Returns, Post.pure_iff]
        exact ⟨rfl, h, by dsimp only; omega⟩

section Growth

variable {σ₀ σ : Store} {d₀ d : DiskInode} {ids rest : List UInt32} {held : List Nat} {n m : Nat}

/-- Blocks are left as long as nodes are. -/
theorem Growing.rest_ne {M : List Node} (h : Growing σ₀ d₀ ids σ d M rest)
    (hids : (nodes m).length ≤ ids.length) (hM : M.length < (nodes m).length) : rest ≠ [] := by
  rintro rfl
  have := h.length
  simp only [List.length_nil] at this
  omega

theorem fillDirect_spec (hids : (nodes m).length ≤ ids.length)
    (h : Growing σ₀ d₀ ids σ d (nodes n) rest) :
    Returns (fill setDirect (min m 27) d n rest) held σ fun r σ' =>
      σ' = σ ∧ Growing σ₀ d₀ ids σ r.1 (nodes r.2.1) r.2.2 ∧ r.2.1 = max n (min m 27) := by
  refine fill_spec (I := fun d n rest => Growing σ₀ d₀ ids σ d (nodes n) rest) ?_ ?_ h
  · intro d n x rest hn h
    have hadd := h.add_direct (i := n) (by omega) ?_
    · rw [nodes_succ, Node.added, if_neg (by omega), if_neg (by omega), if_neg (by omega)]
      exact hadd
    · intro node hmem
      have := Node.rank_lt (mem_nodes.mp hmem)
      show node.rank < 4 * n + 3
      omega
  · intro d n hn h
    exact Growing.rest_ne h hids (length_nodes_lt (by omega)) rfl

/-- The loop over the entries of the indirect block, on the copy `blk` of it. -/
theorem fillEntries_spec (hids : (nodes m).length ≤ ids.length) {blk : Block} (hn : 27 ≤ n)
    (h : Growing σ₀ d₀ ids (Function.update σ d.indirect1.toNat blk) d (withIndirect1 n) rest) :
    Returns (fill Block.setEntry (min (m - 27) 128) blk (n - 27) rest) held σ fun r σ' =>
      σ' = σ ∧ Growing σ₀ d₀ ids (Function.update σ d.indirect1.toNat r.1) d
        (withIndirect1 (r.2.1 + 27)) r.2.2 ∧ r.2.1 = max (n - 27) (min (m - 27) 128) := by
  refine fill_spec (I := fun blk c rest => Growing σ₀ d₀ ids
    (Function.update σ d.indirect1.toNat blk) d (withIndirect1 (c + 27)) rest) ?_ ?_ ?_
  · intro blk c x rest hc h
    have hadd := h.add_entry1 (i := c + 27) (by omega) (by omega) ?_ ?_
    · rw [withIndirect1_succ (by omega) (by omega)] at hadd
      simpa [Nat.add_right_comm] using hadd
    · intro node hmem
      rcases mem_withIndirect1 hmem with hlt | ⟨rfl, -⟩
      · have := Node.rank_lt hlt
        show node.rank < 4 * (c + 27) + 3
        omega
      · simp only [Node.rank]
        omega
    · unfold withIndirect1
      split
      · simp
      · exact mem_nodes.mpr (by simp only [Node.since]; omega)
  · intro blk c hc h
    refine Growing.rest_ne h hids ?_ rfl
    have hlen := congrArg List.length (withIndirect1_succ (p := c + 27) (by omega) (by omega))
    have hle := length_nodes_le (show c + 27 + 1 ≤ m by omega)
    rw [List.length_append, List.length_singleton,
      withIndirect1_of_ne (show c + 27 + 1 ≠ 27 by omega)] at hlen
    omega
  · rwa [Nat.sub_add_cancel hn]

/-- The nodes of the tree that data block `p` needs. -/
theorem mem_withIndirect2_tree {p : Nat} (hp : 155 ≤ p) :
    Node.indirect1 ∈ withIndirect2 p ∧ Node.indirect2 ∈ withIndirect2 p
      ∧ ∀ a, 155 + 128 * a < p → Node.sub a ∈ withIndirect2 p := by
  refine ⟨mem_withIndirect2.mpr (.inl ?_), mem_withIndirect2.mpr ?_, ?_⟩
  · simp only [Node.since]
    omega
  · simp only [Node.since, true_and]
    omega
  · intro a ha
    exact mem_withIndirect2.mpr (.inl ha)

/-- The first half of a round: a block under the double indirect block, if
data block `p` is the first to need it. -/
theorem fillSub_spec (hnd : ids.Nodup) (hids : (nodes m).length ≤ ids.length) {blk : Block}
    {a b : Nat} (ha : a < 128) (hb : b < 128) (hm : 155 + 128 * a + b < m)
    (h : Growing σ₀ d₀ ids (Function.update σ d.indirect2.toNat blk) d
      (withIndirect2 (155 + 128 * a + b)) rest) :
    Returns (nextIf (b = 0) (fun b x => b.setEntry a x) blk rest) held σ fun r σ' => σ' = σ
        ∧ Growing σ₀ d₀ ids (Function.update σ d.indirect2.toNat r.1) d
          (withSub (155 + 128 * a + b)) r.2 := by
  have hmod : (155 + 128 * a + b - 155) % 128 = b := by omega
  have hdiv : (155 + 128 * a + b - 155) / 128 = a := by omega
  obtain ⟨hmem₁, hmem₂, hsub⟩ := mem_withIndirect2_tree (p := 155 + 128 * a + b) (by omega)
  unfold nextIf
  split
  · next hb0 =>
      subst hb0
      have hlen := congrArg List.length (withSub_succ (p := 155 + 128 * a + 0) (by omega))
      have hle := length_nodes_le (show 155 + 128 * a + 0 + 1 ≤ m by omega)
      rw [withIndirect2_of_ne (by omega), List.length_append, List.length_singleton] at hlen
      have hsubeq : withSub (155 + 128 * a + 0)
          = withIndirect2 (155 + 128 * a + 0) ++ [.sub a] := by
        unfold withSub
        rw [if_pos hmod, hdiv]
      rw [hsubeq, List.length_append, List.length_singleton] at hlen
      obtain ⟨x, rest, rfl⟩ := List.exists_cons_of_ne_nil
        (Growing.rest_ne h hids (show (withIndirect2 (155 + 128 * a + 0)).length < _ by omega))
      have hadd := h.add_sub hnd ha ?_ hmem₁ hmem₂ fun a' ha' => hsub a' (by omega)
      · rw [Returns, Post.bind_iff, next_cons, Post.pure_iff]
        refine ⟨rfl, ?_⟩
        rw [hsubeq]
        simpa using hadd
      · intro node hmem
        rcases mem_withIndirect2.mp hmem with hlt | ⟨rfl, -⟩
        · have := Node.rank_lt hlt
          show node.rank < 4 * (155 + 128 * a) + 2
          omega
        · simp only [Node.rank]
          omega
  · next hb0 =>
      rw [Returns, Post.pure_iff]
      refine ⟨rfl, ?_⟩
      unfold withSub
      rw [if_neg (by omega)]
      exact h

/-- One round of the loop under the double indirect block, on the copy `blk`
of it: data block `p` gets its place, and the loop goes on. -/
theorem fillIndirect2_round {E : FsErr → Prop} {a1 b1 rounds a b : Nat} {blk : Block}
    {Q : Block × List UInt32 → Store → Prop} (hnd : ids.Nodup)
    (hids : (nodes m).length ≤ ids.length) (ha : a < 128) (hb : b < 128)
    (hheld : ∀ x ∈ ids, x.toNat ∉ held) (hm : 155 + 128 * a + b < m)
    (hmore : a < a1 ∨ (a = a1 ∧ b < b1))
    (h : Growing σ₀ d₀ ids (Function.update σ d.indirect2.toNat blk) d
      (withIndirect2 (155 + 128 * a + b)) rest)
    (hnext : ∀ σ' blk' rest' a' b', b' < 128 → 155 + 128 * a' + b' = 155 + 128 * a + b + 1 →
      Growing σ₀ d₀ ids (Function.update σ' d.indirect2.toNat blk') d
        (withIndirect2 (155 + 128 * a' + b')) rest' →
      Post E (fillIndirect2 a1 b1 rounds blk' a' b' rest') (d.indirect2.toNat :: held) σ' Q) :
    Post E (fillIndirect2 a1 b1 (rounds + 1) blk a b rest) (d.indirect2.toNat :: held) σ Q := by
  unfold fillIndirect2
  rw [if_pos hmore, Post.bind_iff, Post.assert_iff]
  refine ⟨?_, fun h => absurd ha h⟩
  intro _
  rw [Post.bind_iff]
  apply (Post.of_returns (fillSub_spec hnd hids ha hb hm h)).mono
  rintro ⟨blk', rest'⟩ σ' ⟨rfl, h'⟩
  have hmem : ∀ node, node ∈ withIndirect2 (155 + 128 * a + b) →
      node ∈ withSub (155 + 128 * a + b) := by
    intro node hmem
    rcases mem_withIndirect2.mp hmem with h | h
    · exact mem_withSub.mpr (.inl h)
    · exact mem_withSub.mpr (.inr (.inl h))
  obtain ⟨hmem₁, hmem₂, hsub⟩ := mem_withIndirect2_tree (p := 155 + 128 * a + b) (by omega)
  have hself : Node.sub a ∈ withSub (155 + 128 * a + b) := by
    by_cases hb0 : b = 0
    · refine mem_withSub.mpr (.inr (.inr ⟨by omega, ?_⟩))
      congr 1
      omega
    · exact hmem _ (hsub a (by omega))
  have hy : nodeId (Function.update σ' d.indirect2.toNat blk') d (.sub a) = blk'.entry a := by
    simp [nodeId]
  have hne := h'.ne hnd hself (hmem _ hmem₂) (by simp)
  have hnot := hheld _ (h'.mem_ids hself)
  rw [hy] at hne hnot
  have hne' : (blk'.entry a).toNat ≠ d.indirect2.toNat := hne
  dsimp only
  rw [Post.bind_iff, Post.modify_iff (by
    simp only [List.mem_cons, not_or]
    exact ⟨hne', hnot⟩), Post.bind_iff]
  have hlen := congrArg List.length (withSub_succ (p := 155 + 128 * a + b) (by omega))
  have hle := length_nodes_le (show 155 + 128 * a + b + 1 ≤ m by omega)
  rw [withIndirect2_of_ne (by omega), List.length_append, List.length_singleton] at hlen
  obtain ⟨x, rest, rfl⟩ := List.exists_cons_of_ne_nil
    (Growing.rest_ne h' hids (show (withSub (155 + 128 * a + b)).length < _ by omega))
  have hadd := h'.add_entry2 hnd (a := a) hb ?_ (hmem _ hmem₁) (hmem _ hmem₂) ?_
  · rw [withSub_succ (by omega), Function.update_self, Function.update_of_ne hne',
      Function.update_comm (Ne.symm hne')] at hadd
    rw [next_cons, Post.pure_iff]
    by_cases hb' : b + 1 = INODE_INDIRECT1_COUNT
    · rw [if_pos hb']
      have hb128 : b + 1 = 128 := hb'
      have heq : 155 + 128 * a + b + 1 = 155 + 128 * (a + 1) + 0 := by omega
      rw [heq] at hadd
      exact hnext _ _ _ _ _ (by omega) (by omega) hadd
    · rw [if_neg hb']
      have hb128 : b + 1 ≠ 128 := hb'
      exact hnext _ _ _ _ _ (by omega) rfl hadd
  · intro node hnode
    rcases mem_withSub.mp hnode with hlt | ⟨rfl, -⟩ | ⟨-, rfl⟩
    · have := Node.rank_lt hlt
      show node.rank < 4 * (155 + 128 * a + b) + 3
      omega
    · simp only [Node.rank]
      omega
    · simp only [Node.rank]
      omega
  · intro a' ha'
    by_cases heq : a' = a
    · rw [heq]
      exact hself
    · exact hmem _ (hsub a' (by omega))

/-- The loop under the double indirect block, on the copy `blk` of it. -/
theorem fillIndirect2_spec (hnd : ids.Nodup) (hids : ids.length = (nodes m).length)
    (hm : m ≤ 16539) (hm' : 155 < m) {rounds a b : Nat} {blk : Block} (hb : b < 128)
    (hheld : ∀ x ∈ ids, x.toNat ∉ held) (hp : 155 + 128 * a + b ≤ m)
    (hrounds : m ≤ 155 + 128 * a + b + rounds)
    (h : Growing σ₀ d₀ ids (Function.update σ d.indirect2.toNat blk) d
      (withIndirect2 (155 + 128 * a + b)) rest) :
    Returns (fillIndirect2 ((m - 155) / 128) ((m - 155) % 128) rounds blk a b rest)
      (d.indirect2.toNat :: held) σ fun r σ' =>
        Growing σ₀ d₀ ids (Function.update σ' d.indirect2.toNat r.1) d (nodes m) r.2 := by
  have hdone : 155 + 128 * a + b = m → withIndirect2 (155 + 128 * a + b) = nodes m := by
    rintro rfl
    exact withIndirect2_of_ne (by omega)
  induction rounds generalizing σ blk a b rest with
  | zero =>
      unfold fillIndirect2
      rw [if_neg (by omega), Returns, Post.pure_iff, ← hdone (by omega)]
      exact h
  | succ rounds ih =>
      by_cases hlt : 155 + 128 * a + b < m
      · refine fillIndirect2_round hnd hids.ge (by omega) hb hheld hlt (by omega) h ?_
        intro σ' blk' rest' a' b' hb' hstep h'
        refine ih hb' (by omega) (by omega) h' ?_
        rintro rfl
        exact withIndirect2_of_ne (by omega)
      · unfold fillIndirect2
        rw [if_neg (by omega), Returns, Post.pure_iff, ← hdone (by omega)]
        exact h

theorem Growing.done (h : Growing σ₀ d₀ ids σ d (nodes m) rest)
    (hids : ids.length = (nodes m).length) : rest = [] := by
  have := h.length
  exact List.length_eq_zero_iff.mp (by omega)

/-- The double indirect block, if data block `n` is the first to need it. -/
theorem nextIndirect2_spec (hids : (nodes m).length ≤ ids.length) (hm : 155 < m) (hn : 155 ≤ n)
    (h : Growing σ₀ d₀ ids σ d (nodes n) rest) :
    Returns (nextIf (n - 27 = INODE_INDIRECT1_COUNT) (fun d x => { d with indirect2 := x }) d rest)
      held σ fun r σ' => σ' = σ ∧ Growing σ₀ d₀ ids σ r.1 (withIndirect2 n) r.2 := by
  unfold nextIf
  split
  · next heq =>
      have heq : n - 27 = 128 := heq
      have hn' : n = 155 := by omega
      subst hn'
      obtain ⟨x, rest, rfl⟩ := List.exists_cons_of_ne_nil
        (Growing.rest_ne h hids (length_nodes_lt hm))
      rw [Returns, Post.bind_iff, next_cons, Post.pure_iff]
      refine ⟨rfl, h.add_indirect2 ?_⟩
      intro node hmem
      have := Node.rank_lt (mem_nodes.mp hmem)
      simp only [Node.rank] at this ⊢
      omega
  · next hne =>
      have hne : n - 27 ≠ 128 := hne
      rw [Returns, Post.pure_iff]
      refine ⟨rfl, ?_⟩
      rw [withIndirect2_of_ne (by omega)]
      exact h

/-- The indirect block, if data block `n` is the first to need it. -/
theorem nextIndirect1_spec (hids : (nodes m).length ≤ ids.length) (hm : 27 < m) (hn : 27 ≤ n)
    (h : Growing σ₀ d₀ ids σ d (nodes n) rest) :
    Returns (nextIf (n = INODE_DIRECT_COUNT) (fun d x => { d with indirect1 := x }) d rest)
      held σ fun r σ' => σ' = σ ∧ Growing σ₀ d₀ ids σ r.1 (withIndirect1 n) r.2 := by
  unfold nextIf
  split
  · next heq =>
      have hn' : n = 27 := heq
      subst hn'
      obtain ⟨x, rest, rfl⟩ := List.exists_cons_of_ne_nil
        (Growing.rest_ne h hids (length_nodes_lt hm))
      rw [Returns, Post.bind_iff, next_cons, Post.pure_iff]
      refine ⟨rfl, h.add_indirect1 ?_⟩
      intro node hmem
      have := Node.rank_lt (mem_nodes.mp hmem)
      simp only [Node.rank] at this ⊢
      omega
  · next hne =>
      rw [Returns, Post.pure_iff]
      refine ⟨rfl, ?_⟩
      rw [withIndirect1_of_ne hne]
      exact h

theorem increaseIndirect2_spec (hnd : ids.Nodup) (hids : ids.length = (nodes m).length)
    (hm : m ≤ 16539) (hheld : ∀ x ∈ ids, x.toNat ∉ held) (hnm : n ≤ m) (hn : 155 < m → 155 ≤ n)
    (hn' : m ≤ 155 → n = m) (h : Growing σ₀ d₀ ids σ d (nodes n) rest) :
    Returns (increaseIndirect2 d (n - 27) (m - 27) rest) held σ fun d' σ' =>
      Growing σ₀ d₀ ids σ' d' (nodes m) [] := by
  unfold increaseIndirect2
  by_cases hlt : 155 < m
  · have hn := hn hlt
    have hc : m - 27 > INODE_INDIRECT1_COUNT := by
      show m - 27 > 128
      omega
    rw [if_pos hc, Returns, Post.bind_iff]
    apply (nextIndirect2_spec hids.ge hlt hn h).mono
    rintro ⟨d, rest⟩ σ' ⟨rfl, h⟩
    dsimp only at h ⊢
    rw [Post.bind_iff, Post.sub_iff]
    refine ⟨?_, fun hlt => absurd hlt (show ¬ n - 27 < 128 by omega)⟩
    intro _
    obtain ⟨-, hmem₂, -⟩ := mem_withIndirect2_tree hn
    have h₁ : n - 27 - INODE_INDIRECT1_COUNT = n - 155 := by
      show n - 27 - 128 = n - 155
      omega
    have h₂ : m - 27 - INODE_INDIRECT1_COUNT = m - 155 := by
      show m - 27 - 128 = m - 155
      omega
    have hnot : d.indirect2.toNat ∉ held := hheld _ (h.mem_ids hmem₂)
    rw [Post.bind_iff, Post.modify_iff hnot, Post.bind_iff, h₁, h₂]
    have hlen := h.length
    have hle := length_withIndirect2 hn hnm
    rw [withIndirect2_of_ne (show m ≠ 155 by omega)] at hle
    have hpos : 155 + 128 * ((n - 155) / 128) + (n - 155) % 128 = n := by omega
    have hstart : Growing σ₀ d₀ ids (Function.update σ' d.indirect2.toNat (σ' d.indirect2.toNat)) d
        (withIndirect2 (155 + 128 * ((n - 155) / 128) + (n - 155) % 128)) rest := by
      rw [hpos, Function.update_eq_self]
      exact h
    have hfill := fillIndirect2_spec hnd hids hm hlt (Nat.mod_lt _ (by decide)) hheld (by omega)
      (show m ≤ _ + rest.length by omega) hstart
    apply hfill.mono
    rintro ⟨blk, rest'⟩ τ hτ
    have hrest := Growing.done hτ hids
    dsimp only at hτ hrest
    subst hrest
    have hc : ¬ m - 155 > INODE_INDIRECT2_COUNT := by
      simp only [INODE_INDIRECT2_COUNT, INODE_INDIRECT1_COUNT, BLOCK_SZ]
      omega
    simp only [increaseIndirect3, if_neg hc, Post.pure_iff]
    exact hτ
  · have hc : ¬ m - 27 > INODE_INDIRECT1_COUNT := by
      show ¬ m - 27 > 128
      omega
    rw [if_neg hc, Returns, Post.pure_iff]
    have heq := hn' (by omega)
    subst heq
    have hrest := Growing.done h hids
    subst hrest
    exact h

theorem increaseIndirect1_spec (hnd : ids.Nodup) (hids : ids.length = (nodes m).length)
    (hm : m ≤ 16539) (hheld : ∀ x ∈ ids, x.toNat ∉ held) (hnm : n ≤ m) (hn : 27 < m → 27 ≤ n)
    (hn' : m ≤ 27 → n = m) (h : Growing σ₀ d₀ ids σ d (nodes n) rest) :
    Returns (increaseIndirect1 d n m rest) held σ fun d' σ' =>
      Growing σ₀ d₀ ids σ' d' (nodes m) [] := by
  unfold increaseIndirect1
  by_cases hlt : 27 < m
  · have hn := hn hlt
    rw [if_pos hlt, Returns, Post.bind_iff]
    apply (nextIndirect1_spec hids.ge hlt hn h).mono
    rintro ⟨d, rest⟩ σ' ⟨rfl, h⟩
    dsimp only at h ⊢
    rw [Post.bind_iff, Post.sub_iff]
    refine ⟨?_, fun hlt => absurd hlt (show ¬ n < 27 by omega)⟩
    intro _
    have hmem : Node.indirect1 ∈ withIndirect1 n := by
      unfold withIndirect1
      split
      · simp
      · exact mem_nodes.mpr (by simp only [Node.since]; omega)
    have hnot : d.indirect1.toNat ∉ held := hheld _ (h.mem_ids hmem)
    rw [Post.bind_iff, Post.modify_iff hnot, Post.bind_iff]
    have hstart : Growing σ₀ d₀ ids (Function.update σ' d.indirect1.toNat (σ' d.indirect1.toNat)) d
        (withIndirect1 n) rest := by
      rw [Function.update_eq_self]
      exact h
    apply (fillEntries_spec hids.ge hn hstart).mono
    rintro ⟨blk, c, rest'⟩ τ ⟨rfl, hτ, hc⟩
    dsimp only at hτ hc ⊢
    rw [withIndirect1_of_ne (by omega)] at hτ
    have hspec := increaseIndirect2_spec (n := c + 27) hnd hids hm hheld (by omega) (by omega)
      (by omega) hτ
    rw [Nat.add_sub_cancel] at hspec
    rw [Post.pure_iff]
    exact hspec
  · rw [if_neg hlt, Returns, Post.pure_iff]
    have heq := hn' (by omega)
    subst heq
    have hrest := Growing.done h hids
    subst hrest
    exact h

/-- The number of data blocks of a file of `size` bytes. -/
def blockCount (size : UInt32) : Nat := (size.toNat + 511) / 512

theorem blockCount_mono {s s' : UInt32} (h : s.toNat ≤ s'.toNat) : blockCount s ≤ blockCount s' :=
  Nat.div_le_div_right (Nat.add_le_add_right h _)

theorem size_le_blocks (size : UInt32) : size.toNat ≤ 512 * blockCount size := by
  unfold blockCount
  omega

/-- The size of a file that the index tree has room for is converted without overflow. -/
theorem size_fits {size : UInt32} (h : blockCount size < 2 ^ 22) : size.toNat + 512 < 2 ^ 32 := by
  have := size_le_blocks size
  omega

theorem dataBlocksOf_iff {E : FsErr → Prop} {size : UInt32} {Q : Nat → Store → Prop} :
    Post E (dataBlocksOf size) held σ Q ↔ (size.toNat + 512 < 2 ^ 32 → Q (blockCount size) σ)
      ∧ (2 ^ 32 ≤ size.toNat + 512 → E .overflow) := by
  have heq : (size.toNat + BLOCK_SZ - 1) / BLOCK_SZ = blockCount size := by
    simp only [BLOCK_SZ, blockCount]
    omega
  unfold dataBlocksOf
  rw [Post.bind_iff, Post.add_iff, Post.pure_iff, heq]

theorem dataBlocksOf_spec {E : FsErr → Prop} {size : UInt32} {Q : Nat → Store → Prop}
    (h : size.toNat + 512 < 2 ^ 32) :
    Post E (dataBlocksOf size) held σ Q ↔ Q (blockCount size) σ := by
  rw [dataBlocksOf_iff]
  constructor
  · exact fun hQ => hQ.1 h
  · exact fun hQ => ⟨fun _ => hQ, fun hge => absurd h (Nat.not_lt.mpr hge)⟩

/-- `increase_size` with exactly the blocks that are missing: the file owns
its old blocks and, after them, the new ones. -/
theorem increaseSize_spec {newSize : UInt32} {v : List UInt32}
    (hsize : d.size.toNat ≤ newSize.toNat) (hm : blockCount newSize ≤ 16539)
    (hlen : (nodes (blockCount d.size)).length + v.length = (nodes (blockCount newSize)).length)
    (hnd : (owned σ d (blockCount d.size) ++ v).Nodup)
    (hheld : ∀ x ∈ owned σ d (blockCount d.size) ++ v, x.toNat ∉ held) :
    Returns (d.increaseSize newSize v) held σ fun d' σ' =>
      Growing σ { d with size := newSize } (owned σ d (blockCount d.size) ++ v) σ' d'
        (nodes (blockCount newSize)) [] := by
  have hfit : newSize.toNat + 512 < 2 ^ 32 := size_fits (by omega)
  have hle := blockCount_mono hsize
  have hids : (owned σ d (blockCount d.size) ++ v).length = (nodes (blockCount newSize)).length := by
    rw [List.length_append, owned_length, hlen]
  unfold increaseSize dataBlocks
  rw [Returns, Post.bind_iff, dataBlocksOf_spec (by omega), Post.bind_iff, dataBlocksOf_spec hfit,
    Post.bind_iff]
  have hstart : Growing σ { d with size := newSize } (owned σ d (blockCount d.size) ++ v) σ
      { d with size := newSize } (nodes (blockCount d.size)) v :=
    ⟨rfl, fun _ _ => rfl, rfl, rfl⟩
  apply (fillDirect_spec hids.ge hstart).mono
  rintro ⟨d', c, rest⟩ σ' ⟨rfl, h, hc⟩
  dsimp only at h hc
  exact increaseIndirect1_spec hnd hids hm hheld (by omega) (by omega) (by omega) h

/-- A file that has grown: the old nodes keep their ids, the others have the
new ones, and the data blocks are as they were. -/
theorem Growing.grown {σ' : Store} {d' : DiskInode} {v : List UInt32} (hnm : n ≤ m)
    (hnd : (owned σ d n ++ v).Nodup)
    (h : Growing σ₀ d₀ (owned σ d n ++ v) σ' d' (nodes m) []) :
    owned σ' d' m = owned σ d n ++ v
      ∧ (∀ node : Node, node.since < n → nodeId σ' d' node = nodeId σ d node)
      ∧ (∀ node : Node, n ≤ node.since → node.since < m → nodeId σ' d' node ∈ v)
      ∧ ∀ i, i < m → σ' (nodeId σ' d' (.data i)).toNat = σ₀ (nodeId σ' d' (.data i)).toNat := by
  have hown : owned σ' d' m = owned σ d n ++ v := by
    unfold owned
    rw [← List.append_nil (List.map (nodeId σ' d') _), h.ids, owned]
  have hpre : owned σ' d' n = owned σ d n := by
    obtain ⟨K, hK⟩ := nodes_prefix hnm
    have hsplit : owned σ' d' n ++ K.map (nodeId σ' d') = owned σ d n ++ v := by
      rw [← hown, owned, owned, ← hK, List.map_append]
    exact (List.append_inj hsplit (by simp)).1
  have hkeep : ∀ node : Node, node.since < n → nodeId σ' d' node = nodeId σ d node := by
    intro node hnode
    exact List.map_inj_left.mp hpre node (mem_nodes.mpr hnode)
  have hnd' : (owned σ' d' m).Nodup := by rwa [hown]
  refine ⟨hown, hkeep, ?_, ?_⟩
  · intro node hge hlt
    have hmem : nodeId σ' d' node ∈ owned σ d n ++ v := by
      rw [← hown]
      exact nodeId_mem hlt
    refine (List.mem_append.mp hmem).resolve_left ?_
    intro hold
    rw [← hpre] at hold
    obtain ⟨node', hlt', heq⟩ := mem_owned.mp hold
    have := nodeId_inj hnd' (by omega) hlt heq
    subst this
    omega
  · intro i hi
    apply h.frame
    intro node hnode hindex heq
    have hdata : (Node.data i).since < m := hi
    have := nodeId_inj hnd' (mem_nodes.mp hnode) hdata (UInt32.toNat_inj.mp heq)
    subst this
    cases hindex

/-! ### Lookup -/

/-- `block_id` of a data block of the file. -/
theorem blockId_spec {E : FsErr → Prop} {i : Nat} {Q : UInt32 → Store → Prop} (hi : i < n)
    (hn : n ≤ 16539) (hheld : ∀ x ∈ owned σ d n, x.toNat ∉ held) :
    Post E (d.blockId (UInt32.ofNat i)) held σ Q ↔ Q (nodeId σ d (.data i)) σ := by
  have hmod : (UInt32.ofNat i).toNat = i := by
    rw [UInt32.toNat_ofNat', Nat.mod_eq_of_lt (by omega)]
  have hnot : ∀ node : Node, node.since ≤ i → (nodeId σ d node).toNat ∉ held := by
    intro node hnode
    exact hheld _ (nodeId_mem (by omega))
  unfold blockId
  simp only [hmod, INODE_DIRECT_COUNT, INDIRECT1_BOUND, DIRECT_BOUND, INODE_INDIRECT1_COUNT,
    INDIRECT2_BOUND, INODE_INDIRECT2_COUNT, BLOCK_SZ, Nat.reduceDiv, Nat.reduceMul, Nat.reduceAdd]
  split
  · next h =>
      simp only [nodeId, if_pos h]
      exact Post.pure_iff
  · next h =>
      split
      · next h' =>
          have h₁ : d.indirect1.toNat ∉ held := hnot .indirect1 (by simp only [Node.since]; omega)
          rw [Post.read_iff h₁, Post.pure_iff]
          simp only [nodeId, if_neg h, if_pos h']
      · next h' =>
          have h₂ : d.indirect2.toNat ∉ held := hnot .indirect2 (by simp only [Node.since]; omega)
          have h₃ : ((σ d.indirect2.toNat).entry ((i - 155) / 128)).toNat ∉ held :=
            hnot (.sub ((i - 155) / 128)) (by simp only [Node.since]; omega)
          rw [if_pos (by omega), Post.bind_iff, Post.read_iff h₂, Post.pure_iff, Post.read_iff h₃,
            Post.pure_iff]
          simp only [nodeId, if_neg h, if_neg h']

/-! ### clear_size -/

theorem owned_direct (h : n ≤ 27) : owned σ d n = (List.range n).map d.directAt := by
  induction n with
  | zero => rfl
  | succ n ih =>
      rw [owned_succ, ih (by omega), Node.added, if_neg (by omega), if_neg (by omega),
        if_neg (by omega), List.range_succ, List.map_append]
      simp only [List.map_cons, List.map_nil, nodeId, if_pos (show n < 27 by omega)]

theorem entries_succ (b : Block) (k : Nat) : b.entries (k + 1) = b.entries k ++ [b.entry k] := by
  unfold Block.entries
  rw [List.range_succ, List.map_append]
  rfl

theorem owned_indirect1 {k : Nat} (hk : k ≤ 128) : (withIndirect1 (27 + k)).map (nodeId σ d)
    = (List.range 27).map d.directAt ++ [d.indirect1] ++ (σ d.indirect1.toNat).entries k := by
  induction k with
  | zero =>
      have h := owned_direct (σ := σ) (d := d) (n := 27) (Nat.le_refl _)
      unfold owned at h
      simp only [withIndirect1, Nat.add_zero, if_true, List.map_append, h, List.map_cons,
        List.map_nil, nodeId]
      simp [Block.entries]
  | succ k ih =>
      have hid : nodeId σ d (.data (27 + k)) = (σ d.indirect1.toNat).entry k := by
        simp only [nodeId, if_neg (show ¬ 27 + k < 27 by omega), if_pos (show 27 + k < 155 by omega),
          Nat.add_sub_cancel_left]
      rw [← Nat.add_assoc, ← withIndirect1_succ (by omega) (by omega), List.map_append,
        ih (by omega), entries_succ]
      simp [hid]

/-- The ids of the first `a` full blocks under the double indirect block and
of the first `b` entries of the next one. -/
def subIds (σ : Store) (indirect2 : Block) (a b : Nat) : List UInt32 :=
  (indirect2.entries a).flatMap (fun x => x :: (σ x.toNat).entries 128)
    ++ if 0 < b then indirect2.entry a :: (σ (indirect2.entry a).toNat).entries b else []

theorem subIds_succ (σ : Store) (blk : Block) (a b : Nat) :
    subIds σ blk a b ++ (if b = 0 then [blk.entry a] else [])
      ++ [(σ (blk.entry a).toNat).entry b]
      = if b + 1 = 128 then subIds σ blk (a + 1) 0 else subIds σ blk a (b + 1) := by
  have hempty : subIds σ blk a 0
      = (blk.entries a).flatMap (fun x => x :: (σ x.toNat).entries 128) := by
    rw [subIds, if_neg (Nat.lt_irrefl 0), List.append_nil]
  have hpart : ∀ c, 0 < c →
      subIds σ blk a c = subIds σ blk a 0 ++ blk.entry a :: (σ (blk.entry a).toNat).entries c := by
    intro c hc
    rw [hempty, subIds, if_pos hc]
  have hfull : subIds σ blk (a + 1) 0
      = subIds σ blk a 0 ++ blk.entry a :: (σ (blk.entry a).toNat).entries 128 := by
    rw [hempty, subIds, if_neg (Nat.lt_irrefl 0), List.append_nil, entries_succ, List.flatMap_append,
      List.flatMap_singleton]
  -- the entry of the block goes before its first
  have hstart : subIds σ blk a b ++ (if b = 0 then [blk.entry a] else [])
      = subIds σ blk a 0 ++ blk.entry a :: (σ (blk.entry a).toNat).entries b := by
    by_cases hb0 : b = 0
    · rw [if_pos hb0, hb0]
      rfl
    · rw [if_neg hb0, List.append_nil, hpart b (Nat.pos_of_ne_zero hb0)]
  rw [hstart, List.append_assoc, List.cons_append, ← entries_succ]
  split
  · next hlast => rw [hfull, hlast]
  · rw [hpart (b + 1) (Nat.succ_pos b)]

theorem owned_indirect2 {p : Nat} (hp : 155 ≤ p) : (withIndirect2 p).map (nodeId σ d)
    = owned σ d 155 ++ [d.indirect2]
      ++ subIds σ (σ d.indirect2.toNat) ((p - 155) / 128) ((p - 155) % 128) := by
  induction hp with
  | refl => simp [withIndirect2, owned, subIds, nodeId, Block.entries]
  | @step p hp ih =>
      have hp' : 155 ≤ p := hp
      have hid : nodeId σ d (.data p) = (σ ((σ d.indirect2.toNat).entry ((p - 155) / 128)).toNat).entry
          ((p - 155) % 128) := by
        simp only [nodeId, if_neg (show ¬ p < 27 by omega), if_neg (show ¬ p < 155 by omega)]
      have hsub : (withSub p).map (nodeId σ d) = (withIndirect2 p).map (nodeId σ d)
          ++ (if (p - 155) % 128 = 0 then [(σ d.indirect2.toNat).entry ((p - 155) / 128)] else []) := by
        unfold withSub
        split
        · simp [nodeId]
        · simp
      have hsucc := subIds_succ σ (σ d.indirect2.toNat) ((p - 155) / 128) ((p - 155) % 128)
      have hnext : (if (p - 155) % 128 + 1 = 128
          then subIds σ (σ d.indirect2.toNat) ((p - 155) / 128 + 1) 0
          else subIds σ (σ d.indirect2.toNat) ((p - 155) / 128) ((p - 155) % 128 + 1))
          = subIds σ (σ d.indirect2.toNat) ((p + 1 - 155) / 128) ((p + 1 - 155) % 128) := by
        split
        · rw [show (p + 1 - 155) / 128 = (p - 155) / 128 + 1 by omega,
            show (p + 1 - 155) % 128 = 0 by omega]
        · rw [show (p + 1 - 155) / 128 = (p - 155) / 128 by omega,
            show (p + 1 - 155) % 128 = (p - 155) % 128 + 1 by omega]
      rw [Nat.succ_eq_add_one, ← withSub_succ hp', List.map_append, hsub, ih]
      simp only [List.map_cons, List.map_nil, hid]
      rw [List.append_assoc (owned σ d 155 ++ [d.indirect2]), List.append_assoc (owned σ d 155 ++ _),
        hsucc, hnext]

/-- The loop over the direct blocks reads each before it clears it. -/
theorem clearDirect_spec (d : DiskInode) {k : Nat} (hk : k ≤ 27) :
    let r := (List.range k).foldl (fun (v, d) i => (v ++ [d.directAt i], d.setDirect i 0)) ([], d)
    r.1 = (List.range k).map d.directAt ∧ (∀ j, k ≤ j → r.2.directAt j = d.directAt j)
      ∧ r.2.size = d.size ∧ r.2.type = d.type ∧ r.2.indirect1 = d.indirect1
      ∧ r.2.indirect2 = d.indirect2 := by
  induction k with
  | zero => simp
  | succ k ih =>
      obtain ⟨h₁, h₂, h₃, h₄, h₅, h₆⟩ := ih (by omega)
      simp only [List.range_succ, List.foldl_append, List.foldl_cons, List.foldl_nil,
        List.map_append, List.map_cons, List.map_nil]
      refine ⟨?_, ?_, h₃, h₄, h₅, h₆⟩
      · rw [h₁, h₂ k (Nat.le_refl k)]
      · intro j hj
        rw [directAt_setDirect _ _ (by omega), if_neg (by omega), h₂ j (by omega)]

theorem clearFull_spec {l v : List UInt32} (hheld : ∀ x ∈ l, x.toNat ∉ held) :
    Returns (clearFull l v) held σ fun r σ' =>
      σ' = σ ∧ r = v ++ l.flatMap fun x => x :: (σ x.toNat).entries 128 := by
  induction l generalizing v with
  | nil =>
      rw [clearFull, Returns, Post.pure_iff]
      exact ⟨rfl, by simp⟩
  | cons x l ih =>
      unfold clearFull
      rw [Returns, Post.bind_iff, Post.modify_iff (hheld x List.mem_cons_self), Post.pure_iff,
        Function.update_eq_self]
      apply (ih fun y hy => hheld y (List.mem_cons_of_mem _ hy)).mono
      rintro r σ' ⟨h₁, h₂⟩
      refine ⟨h₁, ?_⟩
      rw [h₂]
      simp [INODE_INDIRECT1_COUNT, BLOCK_SZ]

/-- `clear_size` returns the blocks the file owns and leaves an empty file. -/
theorem clearSize_spec (hn : blockCount d.size ≤ 16539)
    (hnd : (owned σ d (blockCount d.size)).Nodup)
    (hheld : ∀ x ∈ owned σ d (blockCount d.size), x.toNat ∉ held) :
    Returns d.clearSize held σ fun r σ' => σ' = σ ∧ r.1 = owned σ d (blockCount d.size)
      ∧ r.2.size = 0 ∧ r.2.type = d.type := by
  have hfit : d.size.toNat + 512 < 2 ^ 32 := size_fits (by omega)
  have hnot : ∀ node : Node, node.since < blockCount d.size → (nodeId σ d node).toNat ∉ held :=
    fun node hnode => hheld _ (nodeId_mem hnode)
  have hne : ∀ node node' : Node, node.since < blockCount d.size → node'.since < blockCount d.size →
      node ≠ node' → (nodeId σ d node).toNat ≠ (nodeId σ d node').toNat := by
    intro node node' h h' hne heq
    exact hne (nodeId_inj hnd h h' (UInt32.toNat_inj.mp heq))
  generalize hm : blockCount d.size = m at *
  have hdirect := clearDirect_spec { d with size := 0 } (k := min m INODE_DIRECT_COUNT)
    (Nat.min_le_right ..)
  unfold clearSize dataBlocks
  rw [Returns, Post.bind_iff, dataBlocksOf_spec hfit, hm]
  generalize (List.range (min m INODE_DIRECT_COUNT)).foldl
    (fun (x : List UInt32 × DiskInode) i => match x with
      | (v, d) => (v ++ [d.directAt i], d.setDirect i 0)) ([], { d with size := 0 }) = r at *
  obtain ⟨v, d'⟩ := r
  obtain ⟨hv, -, hsize, htype, hi₁, hi₂⟩ := hdirect
  have hv : v = (List.range (min m 27)).map d.directAt := hv
  dsimp only at hsize htype hi₁ hi₂ ⊢
  by_cases h27 : m > INODE_DIRECT_COUNT
  · have h27' : 27 < m := h27
    have h₁ : d.indirect1.toNat ∉ held := hnot .indirect1 h27'
    have hv27 : v = (List.range 27).map d.directAt := by rw [hv, Nat.min_eq_right (by omega)]
    rw [if_pos h27, Post.bind_iff, hi₁, Post.modify_iff h₁, Post.pure_iff, Function.update_eq_self]
    dsimp only
    by_cases h155 : m - INODE_DIRECT_COUNT > INODE_INDIRECT1_COUNT
    · have h155' : 155 < m := by
        have : m - 27 > 128 := h155
        omega
      have hc : m - INODE_DIRECT_COUNT - INODE_INDIRECT1_COUNT ≤ INODE_INDIRECT2_COUNT := by
        simp only [INODE_DIRECT_COUNT, INODE_INDIRECT2_COUNT, INODE_INDIRECT1_COUNT, BLOCK_SZ]
        omega
      have h₂ : d.indirect2.toNat ∉ held := hnot .indirect2 h155'
      have hsub : ∀ a, 155 + 128 * a < m → ((σ d.indirect2.toNat).entry a).toNat
          ∉ d.indirect2.toNat :: held := by
        intro a ha
        simp only [List.mem_cons, not_or]
        exact ⟨hne (.sub a) .indirect2 ha h155' (by simp), hnot (.sub a) ha⟩
      have hpre := owned_indirect1 (σ := σ) (d := d) (k := 128) (Nat.le_refl _)
      have hown := owned_indirect2 (σ := σ) (d := d) (p := m) (by omega)
      rw [withIndirect1_of_ne (by omega)] at hpre
      rw [withIndirect2_of_ne (by omega), owned, hpre] at hown
      have hmin : min (m - INODE_DIRECT_COUNT) INODE_INDIRECT1_COUNT = 128 := by
        simp only [INODE_DIRECT_COUNT, INODE_INDIRECT1_COUNT, BLOCK_SZ]
        omega
      have hdiv : (m - INODE_DIRECT_COUNT - INODE_INDIRECT1_COUNT) / INODE_INDIRECT1_COUNT
          = (m - 155) / 128 := by
        simp only [INODE_DIRECT_COUNT, INODE_INDIRECT1_COUNT, BLOCK_SZ]
        omega
      have hmod : (m - INODE_DIRECT_COUNT - INODE_INDIRECT1_COUNT) % INODE_INDIRECT1_COUNT
          = (m - 155) % 128 := by
        simp only [INODE_DIRECT_COUNT, INODE_INDIRECT1_COUNT, BLOCK_SZ]
        omega
      rw [if_pos h155, Post.bind_iff, Post.assert_iff]
      refine ⟨?_, fun h => h hc⟩
      intro _
      rw [hdiv, hmod, hmin, Post.bind_iff, hi₂, Post.modify_iff h₂, Post.bind_iff]
      obtain ⟨a, ha⟩ : ∃ a, (m - 155) / 128 = a := ⟨_, rfl⟩
      obtain ⟨b, hb⟩ : ∃ b, (m - 155) % 128 = b := ⟨_, rfl⟩
      rw [ha, hb] at hown ⊢
      have hfull := @clearFull_spec σ (d.indirect2.toNat :: held)
        ((σ d.indirect2.toNat).entries a)
        (v ++ [d.indirect1] ++ (σ d.indirect1.toNat).entries 128 ++ [d.indirect2]) ?_
      · apply hfull.mono
        rintro r σ' ⟨rfl, hr⟩
        rw [hv27] at hr
        by_cases hpos : b > 0
        · rw [if_pos hpos, Post.bind_iff, Post.modify_iff (hsub _ (by omega)), Post.pure_iff,
            Post.pure_iff]
          simp only [Function.update_eq_self, Post.pure_iff]
          refine ⟨trivial, ?_, hsize, htype⟩
          rw [owned, hown, subIds, if_pos hpos, hr]
          simp
        · simp only [if_neg hpos, Post.pure_iff, Function.update_eq_self]
          refine ⟨trivial, ?_, hsize, htype⟩
          rw [owned, hown, subIds, if_neg hpos, hr]
          simp
      · intro x hx
        obtain ⟨a', ha', rfl⟩ := List.mem_map.mp hx
        have := List.mem_range.mp ha'
        exact hsub a' (by omega)
    · have h155' : m ≤ 155 := by
        have : ¬ m - 27 > 128 := h155
        omega
      have hown := owned_indirect1 (σ := σ) (d := d) (k := m - 27) (by omega)
      rw [Nat.add_sub_cancel' (by omega), withIndirect1_of_ne (by omega)] at hown
      have hmin : min (m - INODE_DIRECT_COUNT) INODE_INDIRECT1_COUNT = m - 27 := by
        simp only [INODE_DIRECT_COUNT, INODE_INDIRECT1_COUNT, BLOCK_SZ]
        omega
      rw [if_neg h155, Post.pure_iff]
      refine ⟨rfl, ?_, hsize, htype⟩
      rw [owned, hown, hv27, hmin]
  · have h27' : m ≤ 27 := Nat.not_lt.mp h27
    rw [if_neg h27, Post.pure_iff]
    refine ⟨rfl, ?_, hsize, htype⟩
    rw [owned_direct h27', hv, Nat.min_eq_left h27']

/-! ### The largest file -/

/-- The loop under the double indirect block never gets past its last entry. -/
theorem fillIndirect2_overrun {E : FsErr → Prop} (hE : E .panic) (hnd : ids.Nodup)
    (hids : (nodes 16539).length ≤ ids.length) {a1 b1 rounds a b : Nat} {blk : Block} (hb : b < 128)
    (hheld : ∀ x ∈ ids, x.toNat ∉ held) (hp : 155 + 128 * a + b ≤ 16539)
    (hend : 128 < a1 ∨ (a1 = 128 ∧ 0 < b1))
    (h : Growing σ₀ d₀ ids (Function.update σ d.indirect2.toNat blk) d
      (withIndirect2 (155 + 128 * a + b)) rest) :
    Post E (fillIndirect2 a1 b1 rounds blk a b rest) (d.indirect2.toNat :: held) σ
      fun _ _ => False := by
  induction rounds generalizing σ blk a b rest with
  | zero =>
      unfold fillIndirect2
      rw [if_pos (by omega)]
      exact Post.fail_iff.mpr hE
  | succ rounds ih =>
      by_cases hlt : a < 128
      · refine fillIndirect2_round hnd hids hlt hb hheld (by omega) (by omega) h ?_
        intro σ' blk' rest' a' b' hb' hstep h'
        exact ih hb' (by omega) h'
      · unfold fillIndirect2
        rw [if_pos (by omega), Post.bind_iff, Post.assert_iff]
        exact ⟨fun ha => absurd ha hlt, fun _ => hE⟩

theorem increaseIndirect2_overrun {E : FsErr → Prop} (hE : E .panic) (hnd : ids.Nodup)
    (hids : (nodes 16539).length ≤ ids.length) (hheld : ∀ x ∈ ids, x.toNat ∉ held) (hn : 155 ≤ n)
    (hn' : n ≤ 16539) (hm : 16539 < m) (h : Growing σ₀ d₀ ids σ d (nodes n) rest) :
    Post E (increaseIndirect2 d (n - 27) (m - 27) rest) held σ fun _ _ => False := by
  have hc : m - 27 > INODE_INDIRECT1_COUNT := by
    show m - 27 > 128
    omega
  unfold increaseIndirect2
  rw [if_pos hc, Post.bind_iff]
  apply (Post.of_returns (nextIndirect2_spec hids (by decide) hn h)).mono
  rintro ⟨d, rest⟩ σ' ⟨rfl, h⟩
  dsimp only at h ⊢
  rw [Post.bind_iff, Post.sub_iff]
  refine ⟨?_, fun hlt => absurd hlt (show ¬ n - 27 < 128 by omega)⟩
  intro _
  obtain ⟨-, hmem₂, -⟩ := mem_withIndirect2_tree hn
  have hnot : d.indirect2.toNat ∉ held := hheld _ (h.mem_ids hmem₂)
  obtain ⟨c, hcur⟩ : ∃ c, n - 27 - INODE_INDIRECT1_COUNT = c := ⟨_, rfl⟩
  obtain ⟨t, htot⟩ : ∃ t, m - 27 - INODE_INDIRECT1_COUNT = t := ⟨_, rfl⟩
  rw [hcur, htot, Post.bind_iff, Post.modify_iff hnot, Post.bind_iff]
  simp only [INODE_INDIRECT1_COUNT, BLOCK_SZ, Nat.reduceDiv] at hcur htot ⊢
  have hpos : 155 + 128 * (c / 128) + c % 128 = n := by omega
  have hstart : Growing σ₀ d₀ ids (Function.update σ' d.indirect2.toNat (σ' d.indirect2.toNat)) d
      (withIndirect2 (155 + 128 * (c / 128) + c % 128)) rest := by
    rw [hpos, Function.update_eq_self]
    exact h
  apply (fillIndirect2_overrun hE hnd hids (Nat.mod_lt _ (by decide)) hheld (by omega)
    (by omega) hstart).mono
  intro _ _ h
  exact h.elim

theorem increaseIndirect1_overrun {E : FsErr → Prop} (hE : E .panic) (hnd : ids.Nodup)
    (hids : (nodes 16539).length ≤ ids.length) (hheld : ∀ x ∈ ids, x.toNat ∉ held) (hn : 27 ≤ n)
    (hn' : n ≤ 16539) (hm : 16539 < m) (h : Growing σ₀ d₀ ids σ d (nodes n) rest) :
    Post E (increaseIndirect1 d n m rest) held σ fun _ _ => False := by
  have hc : m > INODE_DIRECT_COUNT := by
    show m > 27
    omega
  unfold increaseIndirect1
  rw [if_pos hc, Post.bind_iff]
  apply (Post.of_returns (nextIndirect1_spec hids (by decide) hn h)).mono
  rintro ⟨d, rest⟩ σ' ⟨rfl, h⟩
  dsimp only at h ⊢
  rw [Post.bind_iff, Post.sub_iff]
  refine ⟨?_, fun hlt => absurd hlt (show ¬ n < 27 by omega)⟩
  intro _
  have hmem : Node.indirect1 ∈ withIndirect1 n := by
    unfold withIndirect1
    split
    · simp
    · exact mem_nodes.mpr (by simp only [Node.since]; omega)
  have hstart : Growing σ₀ d₀ ids (Function.update σ' d.indirect1.toNat (σ' d.indirect1.toNat)) d
      (withIndirect1 n) rest := by
    rw [Function.update_eq_self]
    exact h
  have hnot : d.indirect1.toNat ∉ held := hheld _ (h.mem_ids hmem)
  have hbound : min (m - INODE_DIRECT_COUNT) INODE_INDIRECT1_COUNT = min (16539 - 27) 128 := by
    simp only [INODE_DIRECT_COUNT, INODE_INDIRECT1_COUNT, BLOCK_SZ]
    omega
  rw [Post.bind_iff, Post.modify_iff hnot, Post.bind_iff, hbound]
  apply (Post.of_returns (fillEntries_spec hids hn hstart)).mono
  rintro ⟨blk, c, rest'⟩ τ ⟨rfl, hτ, hcur⟩
  dsimp only at hτ hcur ⊢
  rw [withIndirect1_of_ne (by omega)] at hτ
  have hspec := increaseIndirect2_overrun hE hnd hids hheld (by omega) (by omega) hm hτ
  rw [Nat.add_sub_cancel] at hspec
  rw [Post.pure_iff]
  exact hspec

/-- A file does not grow beyond `INDIRECT2_BOUND` data blocks: with blocks
enough for them, the growth stops there. -/
theorem increaseSize_overrun {E : FsErr → Prop} {newSize : UInt32} {v : List UInt32}
    (hE : E .panic) (hE' : 2 ^ 32 ≤ newSize.toNat + 512 → E .overflow)
    (hn : blockCount d.size ≤ 16539)
    (hm : 16539 < blockCount newSize)
    (hlen : (nodes 16539).length ≤ (nodes (blockCount d.size)).length + v.length)
    (hnd : (owned σ d (blockCount d.size) ++ v).Nodup)
    (hheld : ∀ x ∈ owned σ d (blockCount d.size) ++ v, x.toNat ∉ held) :
    Post E (d.increaseSize newSize v) held σ fun _ _ => False := by
  have hids : (nodes 16539).length ≤ (owned σ d (blockCount d.size) ++ v).length := by
    rwa [List.length_append, owned_length]
  unfold increaseSize dataBlocks
  rw [Post.bind_iff, dataBlocksOf_spec (size_fits (by omega)), Post.bind_iff, dataBlocksOf_iff]
  refine ⟨?_, hE'⟩
  intro _
  have hstart : Growing σ { d with size := newSize } (owned σ d (blockCount d.size) ++ v) σ
      { d with size := newSize } (nodes (blockCount d.size)) v :=
    ⟨rfl, fun _ _ => rfl, rfl, rfl⟩
  have hbound : min (blockCount newSize) INODE_DIRECT_COUNT = min 16539 27 := by
    simp only [INODE_DIRECT_COUNT]
    omega
  rw [Post.bind_iff, hbound]
  apply (Post.of_returns (fillDirect_spec hids hstart)).mono
  rintro ⟨d', c, rest⟩ σ' ⟨rfl, h, hc⟩
  dsimp only at h hc
  exact increaseIndirect1_overrun hE hnd hids hheld (by omega) (by omega) hm h

end Growth

end DiskInode

end Nimloth
