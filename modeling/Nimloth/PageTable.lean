import Mathlib.Tactic.Common
import Nimloth.Memory
import Nimloth.Outcome

/-!
# Page tables

`os/src/mm/page_table.rs`. A page table lives in frames of physical
memory: a virtual page number is three indices of nine bits, the first
two lead from the root to the table of the last level, and the third
names the leaf entry there. `find_pte` returns that entry whenever the
tables on the way exist, also when the entry itself is not valid; no
function of the translation looks at the flags of the leaf.

A page table is read here as a tree of nodes: `node m root is` is the
frame reached along the indices `is`.
-/

namespace Nimloth

/-! ## Entries -/

abbrev PTEFlags := UInt8

namespace PTEFlags

def V : PTEFlags := 1
def R : PTEFlags := 2
def W : PTEFlags := 4
def X : PTEFlags := 8
def U : PTEFlags := 16

/-- `flags & f != empty()`. -/
def has (flags f : PTEFlags) : Bool := flags &&& f != 0

theorem has_or_V (f : PTEFlags) : (f ||| V).has V = true := by
  have h : (f ||| V) &&& V = V := by
    refine UInt8.toBitVec_inj.mp ?_
    simp only [V, UInt8.toBitVec_and, UInt8.toBitVec_or]
    rw [BitVec.or_comm]
    ext i hi
    simp only [BitVec.getElem_and, BitVec.getElem_or]
    cases (UInt8.toBitVec 1)[i] with
    | true => simp
    | false => simp
  unfold has
  rw [h]
  decide

end PTEFlags

structure PageTableEntry where
  bits : Nat
  deriving DecidableEq

namespace PageTableEntry

def new (ppn : Nat) (flags : PTEFlags) : PageTableEntry :=
  ⟨(ppn <<< 10) % 2 ^ 64 ||| flags.toNat⟩

def empty : PageTableEntry := ⟨0⟩

def ppn (e : PageTableEntry) : Nat := e.bits >>> 10 &&& (2 ^ 44 - 1)

def flags (e : PageTableEntry) : PTEFlags := UInt8.ofNat e.bits

def isValid (e : PageTableEntry) : Bool := e.flags.has PTEFlags.V

theorem new_bits {p : Nat} (hp : p < 2 ^ 44) (f : PTEFlags) :
    (new p f).bits = p * 1024 + f.toNat := by
  have hf := f.toNat_lt
  have hlt : f.toNat < 2 ^ 10 := by omega
  unfold new
  dsimp only
  rw [Nat.shiftLeft_eq, Nat.mod_eq_of_lt (by omega), Nat.mul_comm,
    ← Nat.two_pow_add_eq_or_of_lt hlt]

theorem new_bits_lt {p : Nat} (hp : p < 2 ^ 44) (f : PTEFlags) : (new p f).bits < 2 ^ 64 := by
  have hf := f.toNat_lt
  rw [new_bits hp]
  omega

theorem ppn_eq (e : PageTableEntry) : e.ppn = e.bits / 1024 % 2 ^ 44 := by
  unfold ppn
  rw [Nat.and_two_pow_sub_one_eq_mod, Nat.shiftRight_eq_div_pow]

theorem ppn_lt (e : PageTableEntry) : e.ppn < 2 ^ 44 := by
  rw [ppn_eq]
  exact Nat.mod_lt _ (by decide)

@[simp] theorem ppn_new {p : Nat} (hp : p < 2 ^ 44) (f : PTEFlags) : (new p f).ppn = p := by
  have hf := f.toNat_lt
  rw [ppn_eq, new_bits hp]
  omega

@[simp] theorem flags_new {p : Nat} (hp : p < 2 ^ 44) (f : PTEFlags) : (new p f).flags = f := by
  have hf := f.toNat_lt
  unfold flags
  rw [new_bits hp]
  refine UInt8.toNat_inj.mp ?_
  rw [UInt8.toNat_ofNat']
  omega

theorem isValid_new {p : Nat} (hp : p < 2 ^ 44) (f : PTEFlags) :
    (new p (f ||| PTEFlags.V)).isValid = true := by
  unfold isValid
  rw [flags_new hp]
  exact PTEFlags.has_or_V f

@[simp] theorem isValid_empty : empty.isValid = false := by decide

@[simp] theorem ppn_empty : empty.ppn = 0 := by decide

end PageTableEntry

open PageTableEntry

/-- `ppn.pte_array()[idx]`. -/
def Mem.entry (m : Mem) (n i : Nat) : PageTableEntry := ⟨m.pte n i⟩

theorem Mem.SameFrame.entry {m m' : Mem} {n i : Nat} (h : Mem.SameFrame m m' n) (hi : i < 512) :
    m'.entry n i = m.entry n i := by
  unfold Mem.entry
  rw [h.pte hi]

theorem Mem.entry_setPte (m : Mem) (n i : Nat) {e : PageTableEntry} (he : e.bits < 2 ^ 64) :
    (m.setPte n i e.bits).entry n i = e := by
  unfold Mem.entry
  rw [Mem.pte_setPte m n i he]

theorem Mem.entry_setPte_of_ne (m : Mem) {n i k j v : Nat} (hi : i < 512) (hj : j < 512)
    (h : k ≠ n ∨ j ≠ i) : (m.setPte n i v).entry k j = m.entry k j := by
  unfold Mem.entry
  rw [Mem.pte_setPte_of_ne m hi hj h]

theorem Mem.entry_zeroFrame (m : Mem) (n : Nat) {i : Nat} (hi : i < 512) :
    (m.zeroFrame n).entry n i = empty := by
  unfold Mem.entry
  rw [Mem.pte_zeroFrame m n hi]
  rfl

/-! ## Translation -/

/-- `vpn.indexes()`. -/
def vpnIndexes (vpn : Nat) : List Nat := [vpn >>> 18 &&& 511, vpn >>> 9 &&& 511, vpn &&& 511]

/-- `PageTable`; `frames` are the frames of its trackers. -/
structure PageTable where
  rootPpn : Nat
  frames : List Nat

/-- The loop of `find_pte`: where the leaf entry is. -/
def findLoop (m : Mem) : Nat → List Nat → Option (Nat × Nat)
  | _, [] => none
  | ppn, [idx] => some (ppn, idx)
  | ppn, idx :: i :: rest =>
      if (m.entry ppn idx).isValid then findLoop m (m.entry ppn idx).ppn (i :: rest) else none

namespace PageTable

/-- `find_pte`. -/
def findPte (m : Mem) (pt : PageTable) (vpn : Nat) : Option (Nat × Nat) :=
  findLoop m pt.rootPpn (vpnIndexes vpn)

/-- `translate`. -/
def translate (m : Mem) (pt : PageTable) (vpn : Nat) : Option PageTableEntry :=
  (pt.findPte m vpn).map fun (n, i) => m.entry n i

/-- `translate_va`. -/
def translateVa (m : Mem) (pt : PageTable) (va : Nat) : Option Nat :=
  (pt.findPte m (va / PAGE_SIZE)).map fun (n, i) =>
    ((m.entry n i).ppn <<< 12 + (va &&& (PAGE_SIZE - 1))) &&& (2 ^ 56 - 1)

def token (pt : PageTable) : Nat := 8 <<< 60 ||| pt.rootPpn

/-- `from_token`: a table that holds no frames. -/
def fromToken (satp : Nat) : PageTable := ⟨satp &&& (2 ^ 44 - 1), []⟩

end PageTable

/-! ## Nodes -/

/-- The frame reached from frame `n` along valid entries. -/
def node (m : Mem) : Nat → List Nat → Option Nat
  | n, [] => some n
  | n, i :: is => if (m.entry n i).isValid then node m (m.entry n i).ppn is else none

/-- The path to the table of the last level. -/
def vpnPath (vpn : Nat) : List Nat := [vpn / 2 ^ 18 % 512, vpn / 2 ^ 9 % 512]

/-- The indices are those of a path to a node. -/
def IsPath (is : List Nat) : Prop := is.length ≤ 2 ∧ ∀ i ∈ is, i < 512

theorem vpnIndexes_eq (vpn : Nat) : vpnIndexes vpn = vpnPath vpn ++ [vpn % 512] := by
  have h511 : ∀ n, n &&& 511 = n % 512 := fun n => Nat.and_two_pow_sub_one_eq_mod n 9
  simp only [vpnIndexes, vpnPath, h511, Nat.shiftRight_eq_div_pow, List.cons_append,
    List.nil_append]

theorem vpnPath_isPath (vpn : Nat) : IsPath (vpnPath vpn) := by
  refine ⟨by simp [vpnPath], ?_⟩
  intro i hi
  simp only [vpnPath, List.mem_cons, List.not_mem_nil, or_false] at hi
  omega

/-- A page number is given by its path and its index. -/
theorem vpn_eq_of_path {v w : Nat} (hv : v < 2 ^ 27) (hw : w < 2 ^ 27)
    (hpath : vpnPath v = vpnPath w) (hidx : v % 512 = w % 512) : v = w := by
  simp only [vpnPath, List.cons.injEq, and_true] at hpath
  omega

theorem node_append (m : Mem) (n : Nat) (is js : List Nat) :
    node m n (is ++ js) = (node m n is).bind fun k => node m k js := by
  induction is generalizing n with
  | nil => rfl
  | cons i is ih =>
      rw [List.cons_append, node, node]
      split
      · exact ih _
      · rfl

theorem node_snoc (m : Mem) (n : Nat) (is : List Nat) (i : Nat) :
    node m n (is ++ [i]) = (node m n is).bind fun k =>
      if (m.entry k i).isValid then some (m.entry k i).ppn else none := by
  rw [node_append]
  rfl

namespace PageTable

theorem findPte_eq (m : Mem) (pt : PageTable) (vpn : Nat) :
    pt.findPte m vpn = (node m pt.rootPpn (vpnPath vpn)).map fun n => (n, vpn % 512) := by
  unfold findPte
  rw [vpnIndexes_eq]
  simp only [vpnPath, List.cons_append, List.nil_append, findLoop, node]
  split
  · split
    · rfl
    · rfl
  · rfl

theorem translate_eq (m : Mem) (pt : PageTable) (vpn : Nat) :
    pt.translate m vpn = (node m pt.rootPpn (vpnPath vpn)).map fun n => m.entry n (vpn % 512) := by
  unfold translate
  rw [findPte_eq, Option.map_map]
  rfl

theorem translateVa_eq (m : Mem) (pt : PageTable) (va : Nat) :
    pt.translateVa m va
      = (pt.translate m (va / 4096)).map fun e => e.ppn * 4096 + va % 4096 := by
  have h : ∀ e : PageTableEntry, (e.ppn <<< 12 + (va &&& (PAGE_SIZE - 1))) &&& (2 ^ 56 - 1)
      = e.ppn * 4096 + va % 4096 := by
    intro e
    have hlt := e.ppn_lt
    have hoff : va &&& (PAGE_SIZE - 1) = va % 4096 := Nat.and_two_pow_sub_one_eq_mod va 12
    rw [Nat.and_two_pow_sub_one_eq_mod, hoff, Nat.shiftLeft_eq]
    omega
  unfold translateVa translate
  rw [Option.map_map]
  congr 1
  funext r
  exact h _

/-- The walk from a token is the walk from the root. -/
theorem fromToken_token {pt : PageTable} (h : pt.rootPpn < 2 ^ 44) :
    (fromToken pt.token).rootPpn = pt.rootPpn := by
  have hbits : pt.token = 2 ^ 63 + pt.rootPpn := by
    have hlt : pt.rootPpn < 2 ^ 63 := by omega
    have hor := Nat.two_pow_add_eq_or_of_lt hlt 1
    unfold token
    simpa using hor.symm
  unfold fromToken
  dsimp only
  rw [Nat.and_two_pow_sub_one_eq_mod, hbits]
  omega

end PageTable

end Nimloth
