import Mathlib.Data.List.Nodup
import Mathlib.Tactic.Common

/-!
# Straight-line code of a RISC-V processor

The instructions that save and restore the state of a processor, with
the registers and the control registers they touch. Memory is behind a
`Bus`, which fetches, loads and stores under the `Regime` of the
processor: its mode, `satp` and `sstatus`. An access that the bus refuses
is an exception, and the run ends there.

Whether the assembler takes two or four bytes for an instruction is the
parameter `len`. `Follows` is a run along a list of instructions, each of
them fetched where the program counter stands. Most of such code stores
a list of registers or loads one: `Follows.saves` and `Follows.loads` say
what that does, where the bus shows memory as independent words (`Words`).
-/

namespace Nimloth.RiscV

/-! ## State -/

abbrev Reg := Fin 32

namespace Reg

abbrev ofNat (n : Nat) : Reg := Fin.ofNat 32 n

abbrev x0 : Reg := 0
abbrev x1 : Reg := 1
abbrev x3 : Reg := 3
abbrev x4 : Reg := 4
abbrev ra : Reg := 1
abbrev sp : Reg := 2
abbrev t0 : Reg := 5
abbrev t1 : Reg := 6
abbrev t2 : Reg := 7
abbrev a0 : Reg := 10
abbrev a1 : Reg := 11

/-- `s0` to `s11`. -/
def s (n : Fin 12) : Reg := if (n : Nat) < 2 then ofNat (8 + n) else ofNat (16 + n)

end Reg

inductive Mode where
  | user
  | supervisor
  deriving DecidableEq

inductive Csr where
  | sstatus
  | sepc
  | sscratch
  | satp
  | stvec
  deriving DecidableEq

/-- What decides an access besides the address. -/
structure Regime where
  mode : Mode
  satp : UInt64
  sstatus : UInt64

structure Cpu (M : Type) where
  x : Reg → UInt64
  csr : Csr → UInt64
  mode : Mode
  pc : UInt64
  mem : M

inductive Instr where
  | sd (src : Reg) (off : UInt64) (base : Reg)
  | ld (dst : Reg) (off : UInt64) (base : Reg)
  | mv (dst src : Reg)
  | csrrw (dst : Reg) (csr : Csr) (src : Reg)
  | csrr (dst : Reg) (csr : Csr)
  | csrw (csr : Csr) (src : Reg)
  | sfenceVma
  | jr (src : Reg)
  | sret
  deriving DecidableEq

structure Bus (M : Type) where
  /-- the instruction at an address, and its length -/
  fetch : M → Regime → UInt64 → Option (Instr × UInt64)
  load : M → Regime → UInt64 → Option UInt64
  store : M → Regime → UInt64 → UInt64 → Option M

/-! ## The status register -/

namespace Status

def SIE : UInt64 := 2
def SPIE : UInt64 := 32
def SPP : UInt64 := 256
def SUM : UInt64 := 262144

/-- A trap that comes from user mode. -/
def trap (s : UInt64) : UInt64 :=
  (s &&& ~~~(SIE ||| SPIE ||| SPP)) ||| if s &&& SIE = 0 then 0 else SPIE

def sret (s : UInt64) : UInt64 :=
  (s &&& ~~~(SIE ||| SPIE ||| SPP)) ||| (if s &&& SPIE = 0 then 0 else SIE) ||| SPIE

/-- The mode that `sret` returns to. -/
def previous (s : UInt64) : Mode := if s &&& SPP = 0 then .user else .supervisor

end Status

/-- The mode of translation in `satp`. -/
def satpMode (v : UInt64) : UInt64 := v >>> 60

/-- What a control register holds after `v` is written to it: addresses of instructions are even,
    and a mode of translation that is not there leaves `satp` as it was. -/
def Csr.written (old v : UInt64) : Csr → UInt64
  | .sepc => v &&& ~~~1
  | .satp => if satpMode v = 0 ∨ satpMode v = 8 then v else old
  | _ => v

/-! ## Steps -/

section Step

variable {M : Type}

namespace Cpu

def get (c : Cpu M) (r : Reg) : UInt64 := if r = 0 then 0 else c.x r

def set (c : Cpu M) (r : Reg) (v : UInt64) : Cpu M :=
  { c with x := fun q => if q = r then v else c.x q }

def setCsr (c : Cpu M) (k : Csr) (v : UInt64) : Cpu M :=
  { c with csr := fun q => if q = k then k.written (c.csr k) v else c.csr q }

def withMem (c : Cpu M) (m : M) : Cpu M := { c with mem := m }

def next (c : Cpu M) (n : UInt64) : Cpu M := { c with pc := c.pc + n }

def jump (c : Cpu M) (a : UInt64) : Cpu M := { c with pc := a }

def regime (c : Cpu M) : Regime := ⟨c.mode, c.csr .satp, c.csr .sstatus⟩

/-- The trap of a program in user mode, at the address `epc`. -/
def trap (c : Cpu M) (epc : UInt64) : Cpu M :=
  { c with
    csr := fun q => match q with
      | .sepc => epc
      | .sstatus => Status.trap (c.csr .sstatus)
      | q => c.csr q
    mode := .supervisor
    pc := c.csr .stvec }

end Cpu

/-- What an instruction of length `n` does. -/
def Instr.run (b : Bus M) (n : UInt64) (c : Cpu M) : Instr → Option (Cpu M)
  | .sd src off base =>
      (b.store c.mem c.regime (c.get base + off) (c.get src)).map fun m => (c.withMem m).next n
  | .ld dst off base =>
      (b.load c.mem c.regime (c.get base + off)).map fun v => (c.set dst v).next n
  | .mv dst src => some ((c.set dst (c.get src)).next n)
  | .csrrw dst k src =>
      if c.mode = .supervisor then some (((c.setCsr k (c.get src)).set dst (c.csr k)).next n)
      else none
  | .csrr dst k => if c.mode = .supervisor then some ((c.set dst (c.csr k)).next n) else none
  | .csrw k src => if c.mode = .supervisor then some ((c.setCsr k (c.get src)).next n) else none
  | .sfenceVma => if c.mode = .supervisor then some (c.next n) else none
  | .jr src => some (c.jump (c.get src &&& ~~~1))
  | .sret =>
      if c.mode = .supervisor then
        some { c with
          csr := fun q => if q = .sstatus then Status.sret (c.csr .sstatus) else c.csr q
          mode := Status.previous (c.csr .sstatus)
          pc := c.csr .sepc }
      else none

def step (b : Bus M) (c : Cpu M) : Option (Cpu M) :=
  (b.fetch c.mem c.regime c.pc).bind fun i => i.1.run b i.2 c

def stepN (b : Bus M) : Nat → Cpu M → Option (Cpu M)
  | 0, c => some c
  | n + 1, c => (step b c).bind (stepN b n)

end Step

/-! ## Simplification -/

section Simp

variable {M : Type} (c : Cpu M) (r q : Reg) (k l : Csr) (n v : UInt64)

theorem Cpu.get_of_ne {c : Cpu M} {r : Reg} (h : r ≠ 0) : c.get r = c.x r := if_neg h

theorem Cpu.get_set_self {r : Reg} (h : r ≠ 0) : (c.set r v).get r = v := by
  rw [Cpu.get_of_ne h]
  exact if_pos rfl

theorem Cpu.get_set_of_ne {r q : Reg} (h : q ≠ r) : (c.set r v).get q = c.get q := by
  unfold Cpu.get
  split
  · rfl
  · exact if_neg h

@[simp] theorem Cpu.get_withMem (m : M) : (c.withMem m).get r = c.get r := rfl
@[simp] theorem Cpu.get_jump : (c.jump n).get r = c.get r := rfl
@[simp] theorem Cpu.get_setCsr : (c.setCsr k v).get r = c.get r := rfl
@[simp] theorem Cpu.get_next : (c.next n).get r = c.get r := rfl
@[simp] theorem Cpu.csr_withMem (m : M) : (c.withMem m).csr = c.csr := rfl
@[simp] theorem Cpu.csr_jump : (c.jump n).csr = c.csr := rfl
@[simp] theorem Cpu.csr_set : (c.set r v).csr = c.csr := rfl
@[simp] theorem Cpu.csr_next : (c.next n).csr = c.csr := rfl
@[simp] theorem Cpu.mode_withMem (m : M) : (c.withMem m).mode = c.mode := rfl
@[simp] theorem Cpu.mode_jump : (c.jump n).mode = c.mode := rfl
@[simp] theorem Cpu.mode_set : (c.set r v).mode = c.mode := rfl
@[simp] theorem Cpu.mode_setCsr : (c.setCsr k v).mode = c.mode := rfl
@[simp] theorem Cpu.mode_next : (c.next n).mode = c.mode := rfl
@[simp] theorem Cpu.mem_withMem (m : M) : (c.withMem m).mem = m := rfl
@[simp] theorem Cpu.mem_jump : (c.jump n).mem = c.mem := rfl
@[simp] theorem Cpu.mem_set : (c.set r v).mem = c.mem := rfl
@[simp] theorem Cpu.mem_setCsr : (c.setCsr k v).mem = c.mem := rfl
@[simp] theorem Cpu.mem_next : (c.next n).mem = c.mem := rfl
@[simp] theorem Cpu.pc_withMem (m : M) : (c.withMem m).pc = c.pc := rfl
@[simp] theorem Cpu.pc_jump : (c.jump n).pc = n := rfl
@[simp] theorem Cpu.pc_set : (c.set r v).pc = c.pc := rfl
@[simp] theorem Cpu.pc_setCsr : (c.setCsr k v).pc = c.pc := rfl
@[simp] theorem Cpu.pc_next : (c.next n).pc = c.pc + n := rfl
@[simp] theorem Cpu.regime_withMem (m : M) : (c.withMem m).regime = c.regime := rfl
@[simp] theorem Cpu.regime_set : (c.set r v).regime = c.regime := rfl
@[simp] theorem Cpu.regime_next : (c.next n).regime = c.regime := rfl

theorem Cpu.csr_setCsr_self : (c.setCsr k v).csr k = k.written (c.csr k) v := if_pos rfl

theorem Cpu.csr_setCsr_of_ne {k l : Csr} (h : l ≠ k) : (c.setCsr k v).csr l = c.csr l := if_neg h

end Simp

/-! ## Lists of instructions -/

section Code

variable {M : Type} (b : Bus M) (len : Instr → UInt64)

/-- The bytes of a list of instructions. -/
def size : List Instr → UInt64
  | [] => 0
  | i :: is => len i + size is

/-- The instructions are fetched one after the other from `a` on. -/
def Loaded (m : M) (v : Regime) : UInt64 → List Instr → Prop
  | _, [] => True
  | a, i :: is => b.fetch m v a = some (i, len i) ∧ Loaded m v (a + len i) is

/-- A run along a list of instructions. -/
inductive Follows : List Instr → Cpu M → Cpu M → Prop
  | nil (c : Cpu M) : Follows [] c c
  | cons {i : Instr} {is : List Instr} {c c₁ c' : Cpu M} :
      b.fetch c.mem c.regime c.pc = some (i, len i) → i.run b (len i) c = some c₁ →
        Follows is c₁ c' → Follows (i :: is) c c'

variable {b len} {is js : List Instr} {i : Instr} {c c₁ c₂ : Cpu M} {m : M} {v : Regime}
  {a : UInt64}

theorem size_append : size len (is ++ js) = size len is + size len js := by
  induction is with
  | nil => rw [List.nil_append, size, UInt64.zero_add]
  | cons i is ih => rw [List.cons_append, size, size, ih, UInt64.add_assoc]

theorem loaded_append : Loaded b len m v a (is ++ js)
    ↔ Loaded b len m v a is ∧ Loaded b len m v (a + size len is) js := by
  induction is generalizing a with
  | nil => simp [Loaded, size]
  | cons i is ih =>
      rw [List.cons_append, Loaded, Loaded, ih, and_assoc, size, UInt64.add_assoc]

theorem Follows.append (h : Follows b len is c c₁) (h' : Follows b len js c₁ c₂) :
    Follows b len (is ++ js) c c₂ := by
  induction h with
  | nil => exact h'
  | cons hfetch hrun _ ih => exact .cons hfetch hrun (ih h')

theorem Follows.single (hfetch : b.fetch c.mem c.regime c.pc = some (i, len i))
    (hrun : i.run b (len i) c = some c₁) : Follows b len [i] c c₁ :=
  .cons hfetch hrun (.nil c₁)

/-- The processor takes that run. -/
theorem Follows.stepN_eq (h : Follows b len is c c₁) : stepN b is.length c = some c₁ := by
  induction h with
  | nil => rfl
  | cons hfetch hrun _ ih =>
      rw [List.length_cons, stepN, step, hfetch, Option.bind_some]
      dsimp only
      rw [hrun, Option.bind_some]
      exact ih

end Code

/-! ## Control registers and moves -/

section Control

variable {M : Type} {b : Bus M} {len : Instr → UInt64} {c c' c'' : Cpu M} {d src : Reg} {k : Csr}
  {is js : List Instr} {rs qs : List Reg} {ks ls : List Csr}

/-- Along `is` nothing but the registers `rs` and the control registers `ks` changes. -/
structure Changes (len : Instr → UInt64) (is : List Instr) (rs : List Reg) (ks : List Csr)
    (c c' : Cpu M) : Prop where
  get : ∀ r, r ∉ rs → c'.get r = c.get r
  csr : ∀ k, k ∉ ks → c'.csr k = c.csr k
  mem : c'.mem = c.mem
  mode : c'.mode = c.mode
  pc : c'.pc = c.pc + size len is

theorem Changes.regime (h : Changes len is rs ks c c') (hsatp : .satp ∉ ks)
    (hsstatus : .sstatus ∉ ks) : c'.regime = c.regime := by
  unfold Cpu.regime
  rw [h.mode, h.csr _ hsatp, h.csr _ hsstatus]

theorem Changes.append (h : Changes len is rs ks c c') (h' : Changes len js qs ls c' c'') :
    Changes len (is ++ js) (rs ++ qs) (ks ++ ls) c c'' where
  get r hr := by
    rw [List.mem_append, not_or] at hr
    rw [h'.get r hr.2, h.get r hr.1]
  csr k hk := by
    rw [List.mem_append, not_or] at hk
    rw [h'.csr k hk.2, h.csr k hk.1]
  mem := h'.mem.trans h.mem
  mode := h'.mode.trans h.mode
  pc := by rw [h'.pc, h.pc, size_append, UInt64.add_assoc]

theorem size_single (len : Instr → UInt64) (i : Instr) : size len [i] = len i :=
  UInt64.add_zero _

theorem Changes.set (v : UInt64) (i : Instr) :
    Changes len [i] [d] [] c ((c.set d v).next (len i)) where
  get r hr := by
    rw [List.mem_singleton] at hr
    rw [Cpu.get_next, Cpu.get_set_of_ne _ _ hr]
  csr _ _ := rfl
  mem := rfl
  mode := rfl
  pc := by rw [size_single, Cpu.pc_next, Cpu.pc_set]

theorem Changes.setCsr (v : UInt64) (i : Instr) :
    Changes len [i] [] [k] c ((c.setCsr k v).next (len i)) where
  get _ _ := rfl
  csr l hl := by
    rw [List.mem_singleton] at hl
    rw [Cpu.csr_next, Cpu.csr_setCsr_of_ne _ _ hl]
  mem := rfl
  mode := rfl
  pc := by rw [size_single, Cpu.pc_next, Cpu.pc_setCsr]

theorem Follows.csrr (hcode : Loaded b len c.mem c.regime c.pc [.csrr d k])
    (hmode : c.mode = .supervisor) (hd : d ≠ 0) :
    ∃ c', Follows b len [.csrr d k] c c' ∧ Changes len [.csrr d k] [d] [] c c'
      ∧ c'.get d = c.csr k := by
  refine ⟨_, .single hcode.1 (if_pos hmode), .set _ _, ?_⟩
  rw [Cpu.get_next, Cpu.get_set_self _ _ hd]

theorem Follows.csrw (hcode : Loaded b len c.mem c.regime c.pc [.csrw k src])
    (hmode : c.mode = .supervisor) :
    ∃ c', Follows b len [.csrw k src] c c' ∧ Changes len [.csrw k src] [] [k] c c'
      ∧ c'.csr k = k.written (c.csr k) (c.get src) := by
  refine ⟨_, .single hcode.1 (if_pos hmode), .setCsr _ _, ?_⟩
  rw [Cpu.csr_next, Cpu.csr_setCsr_self]

theorem Follows.csrrw (hcode : Loaded b len c.mem c.regime c.pc [.csrrw d k src])
    (hmode : c.mode = .supervisor) (hd : d ≠ 0) :
    ∃ c', Follows b len [.csrrw d k src] c c' ∧ Changes len [.csrrw d k src] [d] [k] c c'
      ∧ c'.get d = c.csr k ∧ c'.csr k = k.written (c.csr k) (c.get src) := by
  refine ⟨_, .single hcode.1 (if_pos hmode), ⟨?_, ?_, rfl, rfl, ?_⟩, ?_, ?_⟩
  · intro r hr
    rw [List.mem_singleton] at hr
    rw [Cpu.get_next, Cpu.get_set_of_ne _ _ hr, Cpu.get_setCsr]
  · intro l hl
    rw [List.mem_singleton] at hl
    rw [Cpu.csr_next, Cpu.csr_set, Cpu.csr_setCsr_of_ne _ _ hl]
  · rw [size_single, Cpu.pc_next, Cpu.pc_set, Cpu.pc_setCsr]
  · rw [Cpu.get_next, Cpu.get_set_self _ _ hd]
  · rw [Cpu.csr_next, Cpu.csr_set, Cpu.csr_setCsr_self]

theorem Follows.mv (hcode : Loaded b len c.mem c.regime c.pc [.mv d src]) (hd : d ≠ 0) :
    ∃ c', Follows b len [.mv d src] c c' ∧ Changes len [.mv d src] [d] [] c c'
      ∧ c'.get d = c.get src := by
  refine ⟨_, .single hcode.1 rfl, .set _ _, ?_⟩
  rw [Cpu.get_next, Cpu.get_set_self _ _ hd]

theorem Follows.sfenceVma (hcode : Loaded b len c.mem c.regime c.pc [.sfenceVma])
    (hmode : c.mode = .supervisor) :
    ∃ c', Follows b len [.sfenceVma] c c' ∧ Changes len [.sfenceVma] [] [] c c' :=
  ⟨_, .single hcode.1 (if_pos hmode), fun _ _ => rfl, fun _ _ => rfl, rfl, rfl,
    by rw [size_single, Cpu.pc_next]⟩

end Control

/-! ## Saving and loading registers -/

/-- Under `v` the addresses `S` are independent words, in memories with `I`. -/
structure Words {M : Type} (b : Bus M) (v : Regime) (I : M → Prop) (S : UInt64 → Prop)
    (word : M → UInt64 → UInt64) : Prop where
  load : ∀ m a, I m → S a → b.load m v a = some (word m a)
  store : ∀ m a w, I m → S a → ∃ m', b.store m v a w = some m' ∧ I m' ∧ word m' a = w
    ∧ ∀ a', S a' → a' ≠ a → word m' a' = word m a'

/-- Registers with their places. -/
abbrev Places := List (Reg × UInt64)

def saves (base : Reg) (rs : Places) : List Instr := rs.map fun r => .sd r.1 r.2 base

def loads (base : Reg) (rs : Places) : List Instr := rs.map fun r => .ld r.1 r.2 base

section Blocks

variable {M : Type} {b : Bus M} {len : Instr → UInt64} {v : Regime} {I : M → Prop}
  {S : UInt64 → Prop} {word : M → UInt64 → UInt64} {base : Reg} {rs : Places} {c c' : Cpu M}

/-- Registers were stored, and nothing else happened. -/
structure Stored (len : Instr → UInt64) (S : UInt64 → Prop) (word : M → UInt64 → UInt64)
    (base : Reg) (rs : Places) (c c' : Cpu M) : Prop where
  get : ∀ r, c'.get r = c.get r
  csr : c'.csr = c.csr
  mode : c'.mode = c.mode
  pc : c'.pc = c.pc + size len (saves base rs)
  saved : ∀ r ∈ rs, word c'.mem (c.get base + r.2) = c.get r.1
  others : ∀ a, S a → (∀ r ∈ rs, a ≠ c.get base + r.2) → word c'.mem a = word c.mem a

/-- Registers were loaded, and nothing else happened. -/
structure Fetched (len : Instr → UInt64) (word : M → UInt64 → UInt64) (base : Reg) (rs : Places)
    (c c' : Cpu M) : Prop where
  changes : Changes len (loads base rs) (rs.map Prod.fst) [] c c'
  loaded : ∀ r ∈ rs, c'.get r.1 = word c.mem (c.get base + r.2)

theorem Stored.regime (h : Stored len S word base rs c c') : c'.regime = c.regime := by
  unfold Cpu.regime
  rw [h.mode, h.csr]

theorem Fetched.regime (h : Fetched len word base rs c c') : c'.regime = c.regime :=
  h.changes.regime List.not_mem_nil List.not_mem_nil

/-- A load, also of its base. -/
theorem Follows.ld {d : Reg} {off : UInt64} (hw : Words b v I S word) (hI : I c.mem)
    (hv : c.regime = v) (hcode : Loaded b len c.mem v c.pc [.ld d off base])
    (hS : S (c.get base + off)) (hd : d ≠ 0) :
    ∃ c', Follows b len [.ld d off base] c c' ∧ Changes len [.ld d off base] [d] [] c c'
      ∧ c'.get d = word c.mem (c.get base + off) := by
  have hload := hw.load c.mem _ hI hS
  refine ⟨_, .single (hv ▸ hcode.1) ?_, .set (word c.mem (c.get base + off)) _, ?_⟩
  · rw [Instr.run, hv, hload, Option.map_some]
  · rw [Cpu.get_next, Cpu.get_set_self _ _ hd]

theorem Follows.saves (hw : Words b v I S word) (hI : I c.mem) (hv : c.regime = v)
    (hcode : ∀ m, I m → Loaded b len m v c.pc (saves base rs))
    (hS : ∀ r ∈ rs, S (c.get base + r.2)) (hnodup : (rs.map Prod.snd).Nodup) :
    ∃ c', Follows b len (RiscV.saves base rs) c c' ∧ I c'.mem
      ∧ Stored len S word base rs c c' := by
  induction rs generalizing c with
  | nil =>
      refine ⟨c, .nil c, hI, fun _ => rfl, rfl, rfl, (UInt64.add_zero _).symm, ?_, fun _ _ _ => rfl⟩
      exact fun r hr => absurd hr List.not_mem_nil
  | cons r rs ih =>
      rw [List.map_cons, List.nodup_cons] at hnodup
      obtain ⟨hr, hnodup⟩ := hnodup
      have hSr := hS r List.mem_cons_self
      obtain ⟨m₁, hstore, hI₁, hself, hother⟩ := hw.store c.mem _ (c.get r.1) hI hSr
      have hcons : RiscV.saves base (r :: rs) = .sd r.1 r.2 base :: RiscV.saves base rs := rfl
      rw [hcons] at hcode ⊢
      have hrun : (Instr.sd r.1 r.2 base).run b (len (.sd r.1 r.2 base)) c
          = some ((c.withMem m₁).next (len (.sd r.1 r.2 base))) := by
        rw [Instr.run, hv, hstore, Option.map_some]
      have hfetch := (hcode c.mem hI).1
      rw [← hv] at hfetch
      obtain ⟨c', hf, hI', h⟩ :=
        ih (c := (c.withMem m₁).next (len (.sd r.1 r.2 base))) hI₁ (by simpa using hv)
          (fun m hm => (hcode m hm).2)
          (fun q hq => by simpa using hS q (List.mem_cons_of_mem _ hq)) hnodup
      have hsaved := h.saved
      have hkept := h.others
      simp only [Cpu.get_next, Cpu.get_withMem, Cpu.mem_next, Cpu.mem_withMem] at hsaved hkept
      refine ⟨c', .cons hfetch hrun hf, hI', h.get, h.csr, h.mode, ?_, ?_, ?_⟩
      · rw [h.pc, Cpu.pc_next, Cpu.pc_withMem, hcons, size, UInt64.add_assoc]
      · intro q hq
        rcases List.mem_cons.mp hq with rfl | hq
        · refine (hkept _ hSr fun p hp heq => ?_).trans hself
          have hoff : q.2 = p.2 := UInt64.add_right_inj (c.get base) |>.mp heq
          exact hr (List.mem_map.mpr ⟨p, hp, hoff.symm⟩)
        · exact hsaved q hq
      · intro a ha hne
        refine (hkept a ha fun p hp => hne p (List.mem_cons_of_mem _ hp)).trans ?_
        exact hother a ha (hne r List.mem_cons_self)

theorem Follows.loads (hw : Words b v I S word) (hI : I c.mem) (hv : c.regime = v)
    (hcode : Loaded b len c.mem v c.pc (loads base rs))
    (hS : ∀ r ∈ rs, S (c.get base + r.2)) (hnodup : (rs.map Prod.fst).Nodup)
    (hbase : base ∉ rs.map Prod.fst) (hzero : 0 ∉ rs.map Prod.fst) :
    ∃ c', Follows b len (RiscV.loads base rs) c c' ∧ Fetched len word base rs c c' := by
  induction rs generalizing c with
  | nil =>
      refine ⟨c, .nil c, ⟨fun _ _ => rfl, fun _ _ => rfl, rfl, rfl, (UInt64.add_zero _).symm⟩, ?_⟩
      exact fun r hr => absurd hr List.not_mem_nil
  | cons r rs ih =>
      rw [List.map_cons, List.nodup_cons] at hnodup
      rw [List.map_cons, List.mem_cons, not_or] at hbase hzero
      obtain ⟨hr, hnodup⟩ := hnodup
      have hcons : RiscV.loads base (r :: rs) = [.ld r.1 r.2 base] ++ RiscV.loads base rs := rfl
      rw [hcons, loaded_append] at hcode
      obtain ⟨c₁, hf₁, h₁, hloaded₁⟩ := Follows.ld hw hI hv hcode.1 (hS r List.mem_cons_self)
        (Ne.symm hzero.1)
      have hv₁ := h₁.regime List.not_mem_nil List.not_mem_nil
      have hget : c₁.get base = c.get base := h₁.get _ (List.mem_singleton.not.mpr hbase.1)
      obtain ⟨c', hf, h⟩ := ih (by rw [h₁.mem]; exact hI) (hv₁.trans hv)
        (by rw [h₁.mem, h₁.pc]; exact hcode.2)
        (fun q hq => by rw [hget]; exact hS q (List.mem_cons_of_mem _ hq)) hnodup hbase.2 hzero.2
      refine ⟨c', hf₁.append hf, h₁.append h.changes, ?_⟩
      intro q hq
      rcases List.mem_cons.mp hq with rfl | hq
      · exact (h.changes.get q.1 hr).trans hloaded₁
      · rw [h.loaded q hq, h₁.mem, hget]

end Blocks

end Nimloth.RiscV
