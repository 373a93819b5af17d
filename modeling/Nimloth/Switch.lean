import Nimloth.RiscV

/-!
# Switching between contexts

`os/src/process/switch.S` saves `ra`, `sp` and the registers that a call
preserves in the context behind its first argument, loads those of the
second, and returns to where that one was left (`switch_follows`).
-/

namespace Nimloth

open RiscV

/-! ## The code -/

@[ext] structure ProcessContext where
  ra : UInt64
  sp : UInt64
  s : Fin 12 → UInt64

namespace ProcessContext

/-- `goto_trap_return`; the address of `trap_return` is left open. -/
def gotoTrapReturn (trapReturn kstackPtr : UInt64) : ProcessContext :=
  ⟨trapReturn, kstackPtr, fun _ => 0⟩

end ProcessContext

/-- `(\n+2)*8`. -/
def snOffset (n : Fin 12) : UInt64 := UInt64.ofNat ((n + 2) * 8)

namespace Asm

/-- `SAVE_SN`. -/
def saveSn (n : Fin 12) : Instr := .sd (Reg.s n) (snOffset n) Reg.a0

/-- `LOAD_SN`. -/
def loadSn (n : Fin 12) : Instr := .ld (Reg.s n) (snOffset n) Reg.a1

/-- `__switch`. -/
def switch : List Instr :=
  [.sd Reg.sp 8 Reg.a0, .sd Reg.ra 0 Reg.a0]
  ++ (List.finRange 12).map saveSn
  ++ [.ld Reg.ra 0 Reg.a1]
  ++ (List.finRange 12).map loadSn
  ++ [.ld Reg.sp 8 Reg.a1, .jr Reg.ra]

end Asm

/-! ## Contexts in registers and in memory -/

/-- The places of `s0` to `s11`. -/
def snPlaces : Places := (List.finRange 12).map fun n => (Reg.s n, snOffset n)

def savePlaces : Places := [(Reg.sp, 8), (Reg.ra, 0)] ++ snPlaces

def loadPlaces : Places := [(Reg.ra, 0)] ++ snPlaces ++ [(Reg.sp, 8)]

theorem switch_eq :
    Asm.switch = saves Reg.a0 savePlaces ++ (loads Reg.a1 loadPlaces ++ [.jr Reg.ra]) := by
  decide

/-- The addresses of the fields. -/
def ContextSlot (p a : UInt64) : Prop := ∃ r ∈ savePlaces, a = p + r.2

theorem mem_places {r : Reg × UInt64} : r ∈ loadPlaces ↔ r ∈ savePlaces := by
  simp only [loadPlaces, savePlaces, List.mem_append, List.mem_cons, List.not_mem_nil, or_false]
  tauto

theorem sn_mem_places (n : Fin 12) : (Reg.s n, snOffset n) ∈ savePlaces :=
  List.mem_append_right _ (List.mem_map.mpr ⟨n, List.mem_finRange n, rfl⟩)

section Context

variable {M : Type}

/-- What a thread is left with when it calls `__switch`. -/
def ProcessContext.ofCpu (c : Cpu M) : ProcessContext :=
  ⟨c.get Reg.ra, c.get Reg.sp, fun n => c.get (Reg.s n)⟩

/-- The context in memory. -/
def ProcessContext.inMemory (word : M → UInt64 → UInt64) (m : M) (p : UInt64) : ProcessContext :=
  ⟨word m (p + 0), word m (p + 8), fun n => word m (p + snOffset n)⟩

variable {word : M → UInt64 → UInt64} {m m' : M} {p : UInt64} {c : Cpu M}

/-- Only the slots of the context are read. -/
theorem ProcessContext.inMemory_congr {word' : M → UInt64 → UInt64}
    (h : ∀ a, ContextSlot p a → word' m' a = word m a) :
    inMemory word' m' p = inMemory word m p := by
  refine ProcessContext.ext ?_ ?_ (funext fun n => ?_)
  · exact h _ ⟨(Reg.ra, 0), by simp [savePlaces], rfl⟩
  · exact h _ ⟨(Reg.sp, 8), by simp [savePlaces], rfl⟩
  · exact h _ ⟨_, sn_mem_places n, rfl⟩

theorem ProcessContext.inMemory_eq_ofCpu
    (h : ∀ r ∈ savePlaces, word m (p + r.2) = c.get r.1) : inMemory word m p = ofCpu c := by
  refine ProcessContext.ext ?_ ?_ (funext fun n => ?_)
  · exact h (Reg.ra, 0) (by simp [savePlaces])
  · exact h (Reg.sp, 8) (by simp [savePlaces])
  · exact h _ (sn_mem_places n)

end Context

/-! ## One switch -/

/-- Registers that are not part of a context. -/
def CallerSaved (r : Reg) : Prop := r ∉ loadPlaces.map Prod.fst

section Switch

variable {M : Type} {b : Bus M} {len : Instr → UInt64} {v : Regime} {I : M → Prop}
  {S : UInt64 → Prop} {word : M → UInt64 → UInt64} {entry : UInt64} {c : Cpu M}

/-- After `__switch` from the context at `p` to the one at `q`. -/
structure Switched (word : M → UInt64 → UInt64) (S : UInt64 → Prop) (p q : UInt64)
    (c c' : Cpu M) : Prop where
  saved : ProcessContext.inMemory word c'.mem p = ProcessContext.ofCpu c
  others : ∀ a, S a → ¬ ContextSlot p a → word c'.mem a = word c.mem a
  loaded : ProcessContext.ofCpu c' = ProcessContext.inMemory word c'.mem q
  pc : c'.pc = c'.get Reg.ra &&& ~~~1
  registers : ∀ r, CallerSaved r → c'.get r = c.get r
  csr : c'.csr = c.csr
  mode : c'.mode = c.mode

theorem switch_follows (hw : Words b v I S word)
    (hcode : ∀ m, I m → Loaded b len m v c.pc Asm.switch) (hI : I c.mem) (hv : c.regime = v)
    (hp : ∀ a, ContextSlot (c.get Reg.a0) a → S a)
    (hq : ∀ a, ContextSlot (c.get Reg.a1) a → S a) :
    ∃ c', Follows b len Asm.switch c c' ∧ I c'.mem
      ∧ Switched word S (c.get Reg.a0) (c.get Reg.a1) c c' := by
  rw [switch_eq] at hcode ⊢
  obtain ⟨c₁, hsaves, hI₁, hstored⟩ := Follows.saves hw hI hv
    (fun m hm => (loaded_append.mp (hcode m hm)).1) (fun r hr => hp _ ⟨r, hr, rfl⟩) (by decide)
  have hrest := (loaded_append.mp (hcode c₁.mem hI₁)).2
  rw [← hstored.pc] at hrest
  obtain ⟨hload, hret⟩ := loaded_append.mp hrest
  obtain ⟨c₂, hloads, hfetched⟩ := Follows.loads hw hI₁ (hstored.regime.trans hv) hload
    (fun r hr => by rw [hstored.get]; exact hq _ ⟨r, mem_places.mp hr, rfl⟩)
    (by decide) (by decide) (by decide)
  have hv₂ : c₂.regime = v := hfetched.regime.trans (hstored.regime.trans hv)
  have hloaded : ∀ r ∈ savePlaces, word c₂.mem (c.get Reg.a1 + r.2) = c₂.get r.1 := by
    intro r hr
    rw [hfetched.loaded r (mem_places.mpr hr), hstored.get, hfetched.changes.mem]
  have hfetch := hret.1
  rw [← hfetched.changes.pc, ← hfetched.changes.mem, ← hv₂] at hfetch
  have hjr : Follows b len [.jr Reg.ra] c₂ (c₂.jump (c₂.get Reg.ra &&& ~~~1)) := .single hfetch rfl
  refine ⟨_, hsaves.append (hloads.append hjr), ?_, ?_, ?_, ?_, ?_, ?_, ?_, ?_⟩
  · rw [Cpu.mem_jump, hfetched.changes.mem]
    exact hI₁
  · rw [Cpu.mem_jump, hfetched.changes.mem]
    exact ProcessContext.inMemory_eq_ofCpu hstored.saved
  · intro a ha hne
    rw [Cpu.mem_jump, hfetched.changes.mem]
    exact hstored.others a ha fun r hr heq => hne ⟨r, hr, heq⟩
  · rw [Cpu.mem_jump, ProcessContext.inMemory_eq_ofCpu hloaded]
    rfl
  · rw [Cpu.pc_jump, Cpu.get_jump]
  · intro r hr
    rw [Cpu.get_jump, hfetched.changes.get r hr, hstored.get]
  · rw [Cpu.csr_jump, funext fun k => hfetched.changes.csr k List.not_mem_nil, hstored.csr]
  · rw [Cpu.mode_jump, hfetched.changes.mode, hstored.mode]

end Switch

end Nimloth
