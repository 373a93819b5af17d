import Nimloth.RiscV
import Nimloth.Signal

/-!
# The code of the trampoline

`os/src/trap/trap.S`. `__alltraps` puts the registers of a program into
its trap context and goes to the trap handler of the kernel, under the
kernel's page tables; `__restore` takes them out again and goes back.
Register `x4` is left alone on both ways, so a program gets back what the
kernel has there.
-/

namespace Nimloth

open RiscV

/-! ## The code -/

namespace Asm

/-- `SAVE_GP`. -/
def saveGp (n : Reg) : Instr := .sd n (UInt64.ofNat (n * 8)) Reg.sp

/-- `LOAD_GP`. -/
def loadGp (n : Reg) : Instr := .ld n (UInt64.ofNat (n * 8)) Reg.sp

/-- `.rept 27` from 5 on. -/
def gp : List Reg := (List.range 27).map fun n => Reg.ofNat (5 + n)

/-- `__alltraps`. -/
def alltraps : List Instr :=
  [.csrrw Reg.sp .sscratch Reg.sp, .sd Reg.x1 (1 * 8) Reg.sp, .sd Reg.x3 (3 * 8) Reg.sp]
  ++ gp.map saveGp
  ++ [.csrr Reg.t0 .sstatus, .csrr Reg.t1 .sepc,
    .sd Reg.t0 (32 * 8) Reg.sp, .sd Reg.t1 (33 * 8) Reg.sp,
    .csrr Reg.t2 .sscratch, .sd Reg.t2 (2 * 8) Reg.sp,
    .ld Reg.t0 (34 * 8) Reg.sp, .ld Reg.t1 (36 * 8) Reg.sp, .ld Reg.sp (35 * 8) Reg.sp,
    .csrw .satp Reg.t0, .sfenceVma, .jr Reg.t1]

/-- `__restore`. -/
def restore : List Instr :=
  [.csrw .satp Reg.a1, .sfenceVma, .csrw .sscratch Reg.a0, .mv Reg.sp Reg.a0,
    .ld Reg.t0 (32 * 8) Reg.sp, .ld Reg.t1 (33 * 8) Reg.sp,
    .csrw .sstatus Reg.t0, .csrw .sepc Reg.t1,
    .ld Reg.x1 (1 * 8) Reg.sp, .ld Reg.x3 (3 * 8) Reg.sp]
  ++ gp.map loadGp
  ++ [.ld Reg.sp (2 * 8) Reg.sp, .sret]

end Asm

/-! ## Contexts in memory -/

/-- Where word `k` of a context is. -/
def trapSlot (cx : UInt64) (k : Nat) : UInt64 := cx + UInt64.ofNat (k * 8)

def TrapSlot (cx a : UInt64) : Prop := ∃ k, k < 37 ∧ a = trapSlot cx k

theorem trapSlot_inj {cx : UInt64} {k l : Nat} (hk : k < 37) (hl : l < 37)
    (h : trapSlot cx k = trapSlot cx l) : k = l := by
  have hoff := congrArg UInt64.toNat (UInt64.add_right_inj cx |>.mp h)
  rw [UInt64.toNat_ofNat', UInt64.toNat_ofNat'] at hoff
  omega

/-- Registers with the words of a context. -/
def slots (ks : List (Reg × Nat)) : Places := ks.map fun q => (q.1, UInt64.ofNat (q.2 * 8))

/-- The general registers but `sp` and `x4`. -/
def gpSlots : List (Reg × Nat) := (Reg.x1, 1) :: (Reg.x3, 3) :: Asm.gp.map fun n => (n, n)

def csrSlots : List (Reg × Nat) := [(Reg.t0, 32), (Reg.t1, 33)]

/-- The first part of `__alltraps`. -/
def savingCode : List Instr :=
  [.csrrw Reg.sp .sscratch Reg.sp] ++ (saves Reg.sp (slots gpSlots)
  ++ ([.csrr Reg.t0 .sstatus] ++ ([.csrr Reg.t1 .sepc] ++ (saves Reg.sp (slots csrSlots)
  ++ ([.csrr Reg.t2 .sscratch] ++ saves Reg.sp (slots [(Reg.t2, 2)]))))))

/-- The second. -/
def leavingCode : List Instr :=
  loads Reg.sp (slots [(Reg.t0, 34), (Reg.t1, 36)])
  ++ ([.ld Reg.sp (UInt64.ofNat (35 * 8)) Reg.sp] ++ ([.csrw .satp Reg.t0] ++ ([.sfenceVma]
  ++ [.jr Reg.t1])))

theorem alltraps_eq : Asm.alltraps = savingCode ++ leavingCode := by
  decide

theorem restore_eq : Asm.restore
    = [.csrw .satp Reg.a1] ++ ([.sfenceVma] ++ ([.csrw .sscratch Reg.a0] ++ ([.mv Reg.sp Reg.a0]
      ++ (loads Reg.sp (slots csrSlots) ++ ([.csrw .sstatus Reg.t0] ++ ([.csrw .sepc Reg.t1]
      ++ (loads Reg.sp (slots gpSlots) ++ ([.ld Reg.sp (UInt64.ofNat (2 * 8)) Reg.sp]
      ++ [.sret]))))))))  := by
  decide

section Context

variable {M : Type}

/-- The context in memory. -/
def TrapContext.inMemory (word : M → UInt64 → UInt64) (m : M) (cx : UInt64) : TrapContext where
  x := Vector.ofFn fun i => word m (trapSlot cx i)
  sstatus := word m (trapSlot cx 32)
  sepc := word m (trapSlot cx 33)
  kernelSatp := word m (trapSlot cx 34)
  kernelSp := word m (trapSlot cx 35)
  trapHandler := word m (trapSlot cx 36)

variable {word : M → UInt64 → UInt64} {m m' : M} {cx : UInt64}

theorem TrapContext.get_inMemory (r : Reg) :
    (inMemory word m cx).x.get r = word m (trapSlot cx r) :=
  Vector.getElem_ofFn r.isLt

theorem TrapContext.inMemory_congr {word' : M → UInt64 → UInt64}
    (h : ∀ a, TrapSlot cx a → word' m' a = word m a) :
    inMemory word' m' cx = inMemory word m cx := by
  have hslot : ∀ k, k < 37 → word' m' (trapSlot cx k) = word m (trapSlot cx k) :=
    fun k hk => h (trapSlot cx k) ⟨k, hk, rfl⟩
  have hx : (Vector.ofFn fun i : Reg => word' m' (trapSlot cx i))
      = Vector.ofFn fun i : Reg => word m (trapSlot cx i) :=
    congrArg Vector.ofFn (funext fun i => hslot i (by omega))
  simp only [inMemory, hx, hslot 32 (by decide), hslot 33 (by decide), hslot 34 (by decide),
    hslot 35 (by decide), hslot 36 (by decide)]

/-- What `__alltraps` makes of the context `old`. -/
def TrapContext.saved (old : TrapContext) (c : Cpu M) : TrapContext :=
  { old with
    x := Vector.ofFn fun r : Reg => if r = Reg.x0 ∨ r = Reg.x4 then old.x.get r else c.get r
    sstatus := c.csr .sstatus
    sepc := c.csr .sepc }

/-- The kernel's part stays. -/
theorem TrapContext.saved_kernel (old : TrapContext) (c : Cpu M) :
    (old.saved c).kernelSatp = old.kernelSatp ∧ (old.saved c).kernelSp = old.kernelSp
      ∧ (old.saved c).trapHandler = old.trapHandler := by
  simp only [TrapContext.saved, and_self]

theorem TrapContext.get_saved (old : TrapContext) (c : Cpu M) (r : Reg) :
    (old.saved c).x.get r = if r = Reg.x0 ∨ r = Reg.x4 then old.x.get r else c.get r := by
  exact Vector.getElem_ofFn r.isLt

theorem TrapContext.inMemory_eq_saved {c : Cpu M}
    (hx : ∀ r : Reg, word m' (trapSlot cx r)
      = if r = Reg.x0 ∨ r = Reg.x4 then word m (trapSlot cx r) else c.get r)
    (hsstatus : word m' (trapSlot cx 32) = c.csr .sstatus)
    (hsepc : word m' (trapSlot cx 33) = c.csr .sepc)
    (hkernel : ∀ k, 34 ≤ k → k < 37 → word m' (trapSlot cx k) = word m (trapSlot cx k)) :
    inMemory word m' cx = (inMemory word m cx).saved c := by
  have hvec : (Vector.ofFn fun i : Reg => word m' (trapSlot cx i))
      = Vector.ofFn fun r : Reg =>
        if r = Reg.x0 ∨ r = Reg.x4 then (inMemory word m cx).x.get r else c.get r := by
    refine congrArg Vector.ofFn (funext fun r => (hx r).trans ?_)
    rw [get_inMemory]
  rw [TrapContext.saved, ← hvec]
  simp only [inMemory, hsstatus, hsepc, hkernel 34 (by decide) (by decide),
    hkernel 35 (by decide) (by decide), hkernel 36 (by decide) (by decide)]

end Context

/-! ## Into the kernel -/

section Alltraps

variable {M : Type} {b : Bus M} {len : Instr → UInt64} {I : M → Prop} {S : UInt64 → Prop}
  {word : M → UInt64 → UInt64} {entry cx user kernel : UInt64} {c c' : Cpu M}
  {ks : List (Reg × Nat)} {k : Nat}

/-- The trampoline lies at `entry` under the tables of the program and those of the kernel, the
    context of the program at `cx` under its own. -/
structure TrapSetting (b : Bus M) (len : Instr → UInt64) (I : M → Prop) (S : UInt64 → Prop)
    (word : M → UInt64 → UInt64) (entry cx user kernel : UInt64) : Prop where
  words : ∀ sstatus, Words b ⟨.supervisor, user, sstatus⟩ I S word
  code : ∀ m satp sstatus, I m → satp = user ∨ satp = kernel →
    Loaded b len m ⟨.supervisor, satp, sstatus⟩ entry (Asm.alltraps ++ Asm.restore)
  slots : ∀ a, TrapSlot cx a → S a

theorem mem_slots {r : Reg × UInt64} :
    r ∈ slots ks ↔ ∃ q ∈ ks, r = (q.1, UInt64.ofNat (q.2 * 8)) := by
  simp only [slots, List.mem_map, eq_comm]

theorem slots_nodup (hks : ∀ q ∈ ks, q.2 < 37) (h : (ks.map Prod.snd).Nodup) :
    ((slots ks).map Prod.snd).Nodup := by
  have hsnd : (slots ks).map Prod.snd = (ks.map Prod.snd).map (trapSlot 0) := by
    rw [slots, List.map_map, List.map_map]
    exact List.map_congr_left fun q _ => (UInt64.zero_add _).symm
  rw [hsnd]
  refine List.Nodup.map_on (fun x hx y hy heq => ?_) h
  obtain ⟨q, hq, rfl⟩ := List.mem_map.mp hx
  obtain ⟨r, hr, rfl⟩ := List.mem_map.mp hy
  exact trapSlot_inj (hks q hq) (hks r hr) heq

namespace RiscV.Stored

theorem slot (h : Stored len S word Reg.sp (slots ks) c c') (hsp : c.get Reg.sp = cx)
    {q : Reg × Nat} (hq : q ∈ ks) : word c'.mem (trapSlot cx q.2) = c.get q.1 := by
  have hsaved := h.saved _ (mem_slots.mpr ⟨q, hq, rfl⟩)
  rwa [hsp] at hsaved

theorem outside (h : Stored len S word Reg.sp (slots ks) c c') (hsp : c.get Reg.sp = cx)
    {a : UInt64} (ha : S a) (hne : ∀ q ∈ ks, a ≠ trapSlot cx q.2) :
    word c'.mem a = word c.mem a := by
  refine h.others a ha fun r hr => ?_
  obtain ⟨q, hq, rfl⟩ := mem_slots.mp hr
  rw [hsp]
  exact hne q hq

theorem other_slot (h : Stored len S word Reg.sp (slots ks) c c') (hsp : c.get Reg.sp = cx)
    (hS : ∀ a, TrapSlot cx a → S a) (hks : ∀ q ∈ ks, q.2 < 37) (hk : k < 37)
    (hne : k ∉ ks.map Prod.snd) : word c'.mem (trapSlot cx k) = word c.mem (trapSlot cx k) := by
  refine h.outside hsp (hS _ ⟨k, hk, rfl⟩) fun q hq heq => ?_
  exact hne (trapSlot_inj hk (hks q hq) heq ▸ List.mem_map_of_mem hq)

end RiscV.Stored

/-- The state of the program is in its context. -/
structure Saved (S : UInt64 → Prop) (word : M → UInt64 → UInt64) (cx : UInt64) (c c' : Cpu M) :
    Prop where
  saved : TrapContext.inMemory word c'.mem cx = (TrapContext.inMemory word c.mem cx).saved c
  others : ∀ a, S a → ¬ TrapSlot cx a → word c'.mem a = word c.mem a
  get : ∀ r, r ∉ [Reg.sp, Reg.t0, Reg.t1, Reg.t2] → c'.get r = c.get r
  sscratch : c'.csr .sscratch = c.get Reg.sp
  csr : ∀ k, k ≠ .sscratch → k ≠ .satp → c'.csr k = c.csr k
  mode : c'.mode = c.mode

theorem saving_follows (hs : TrapSetting b len I S word entry cx user kernel) (hI : I c.mem)
    (hpc : c.pc = entry) (hmode : c.mode = .supervisor) (hsatp : c.csr .satp = user)
    (hcx : c.csr .sscratch = cx) :
    ∃ c', Follows b len savingCode c c' ∧ I c'.mem ∧ Saved S word cx c c'
      ∧ c'.get Reg.sp = cx ∧ c'.csr .satp = user ∧ c'.pc = entry + size len savingCode := by
  have hv : c.regime = ⟨.supervisor, user, c.csr .sstatus⟩ := by
    rw [Cpu.regime, hmode, hsatp]
  have hw := hs.words (c.csr .sstatus)
  have hS : ∀ ks : List (Reg × Nat), (∀ q ∈ ks, q.2 < 37) → ∀ c₁ : Cpu M, c₁.get Reg.sp = cx →
      ∀ r ∈ slots ks, S (c₁.get Reg.sp + r.2) := by
    intro ks hks c₁ hsp r hr
    obtain ⟨q, hq, rfl⟩ := mem_slots.mp hr
    rw [hsp]
    exact hs.slots _ ⟨q.2, hks q hq, rfl⟩
  have hcode : ∀ m, I m → Loaded b len m c.regime c.pc savingCode := by
    intro m hm
    have hall := hs.code m user (c.csr .sstatus) hm (Or.inl rfl)
    rw [alltraps_eq, List.append_assoc] at hall
    rw [hv, hpc]
    exact (loaded_append.mp hall).1
  rw [← hv] at hw
  have hcsr₀ := hcode c.mem hI
  unfold savingCode at hcode hcsr₀ ⊢
  simp only [loaded_append] at hcode hcsr₀
  -- the context is in `sp`, the stack pointer of the program in `sscratch`
  obtain ⟨c₁, hf₁, h₁, hsp₁, hscratch₁⟩ := Follows.csrrw hcsr₀.1 hmode (by decide)
  have hv₁ := h₁.regime (by decide) (by decide)
  rw [hcx] at hsp₁
  rw [← h₁.pc] at hcode
  have hI₁ : I c₁.mem := by
    rw [h₁.mem]
    exact hI
  -- the general registers
  obtain ⟨c₂, hf₂, hI₂, h₂⟩ := Follows.saves hw hI₁ hv₁ (fun m hm => (hcode m hm).2.1)
    (hS gpSlots (by decide) c₁ hsp₁) (slots_nodup (by decide) (by decide))
  have hsp₂ := (h₂.get Reg.sp).trans hsp₁
  have hv₂ := h₂.regime.trans hv₁
  rw [← h₂.pc] at hcode
  -- `sstatus` and `sepc`
  have hcode₂ := hcode c₂.mem hI₂
  obtain ⟨c₃, hf₃, h₃, ht₃⟩ := Follows.csrr (hv₂ ▸ hcode₂.2.2.1)
    (h₂.mode.trans (h₁.mode.trans hmode)) (by decide)
  have hv₃ := (h₃.regime (by decide) (by decide)).trans hv₂
  rw [← h₃.pc, ← h₃.mem] at hcode₂
  obtain ⟨c₄, hf₄, h₄, ht₄⟩ := Follows.csrr (hv₃ ▸ hcode₂.2.2.2.1)
    (h₃.mode.trans (h₂.mode.trans (h₁.mode.trans hmode))) (by decide)
  have hv₄ := (h₄.regime (by decide) (by decide)).trans hv₃
  rw [← h₃.pc, ← h₄.pc] at hcode
  have hsp₄ : c₄.get Reg.sp = cx := by
    rw [h₄.get _ (by decide), h₃.get _ (by decide), hsp₂]
  have hI₄ : I c₄.mem := by
    rw [h₄.mem, h₃.mem]
    exact hI₂
  obtain ⟨c₅, hf₅, hI₅, h₅⟩ := Follows.saves hw hI₄ hv₄ (fun m hm => (hcode m hm).2.2.2.2.1)
    (hS csrSlots (by decide) c₄ hsp₄) (slots_nodup (by decide) (by decide))
  have hsp₅ := (h₅.get Reg.sp).trans hsp₄
  have hv₅ := h₅.regime.trans hv₄
  rw [← h₅.pc] at hcode
  -- the stack pointer of the program
  have hmode₅ : c₅.mode = c.mode := by
    rw [h₅.mode, h₄.mode, h₃.mode, h₂.mode, h₁.mode]
  obtain ⟨c₆, hf₆, h₆, ht₆⟩ := Follows.csrr (hv₅ ▸ (hcode c₅.mem hI₅).2.2.2.2.2.1)
    (hmode₅.trans hmode) (by decide)
  have hv₆ := (h₆.regime (by decide) (by decide)).trans hv₅
  rw [← h₆.pc] at hcode
  have hsp₆ := (h₆.get Reg.sp (by decide)).trans hsp₅
  have hI₆ : I c₆.mem := by
    rw [h₆.mem]
    exact hI₅
  obtain ⟨c₇, hf₇, hI₇, h₇⟩ := Follows.saves hw hI₆ hv₆ (fun m hm => (hcode m hm).2.2.2.2.2.2)
    (hS [(Reg.t2, 2)] (by decide) c₆ hsp₆) (slots_nodup (by decide) (by decide))
  refine ⟨c₇, hf₁.append (hf₂.append (hf₃.append (hf₄.append (hf₅.append (hf₆.append hf₇))))),
    hI₇, ?_, (h₇.get Reg.sp).trans hsp₆, ?_, ?_⟩
  · have hscratch₅ : c₅.csr .sscratch = c.get Reg.sp := by
      rw [h₅.csr, h₄.csr _ (by decide), h₃.csr _ (by decide), h₂.csr, hscratch₁]
      rfl
    have hword₂ : ∀ k, k < 37 → k ≠ 2 →
        word c₇.mem (trapSlot cx k) = word c₅.mem (trapSlot cx k) := by
      intro k hk hne
      rw [h₇.other_slot hsp₆ hs.slots (by decide) hk (by simpa using hne), h₆.mem]
    have hword : ∀ k, k < 37 → k ≠ 2 → k ≠ 32 → k ≠ 33 →
        word c₇.mem (trapSlot cx k) = word c₂.mem (trapSlot cx k) := by
      intro k hk hne hne₃₂ hne₃₃
      rw [hword₂ k hk hne, h₅.other_slot hsp₄ hs.slots (by decide) hk
        (by simp [csrSlots, hne₃₂, hne₃₃]), h₄.mem, h₃.mem]
    have hrest : ∀ k, k < 37 → k ∉ gpSlots.map Prod.snd →
        word c₂.mem (trapSlot cx k) = word c.mem (trapSlot cx k) := by
      intro k hk hne
      rw [h₂.other_slot hsp₁ hs.slots (by decide) hk hne, h₁.mem]
    refine ⟨TrapContext.inMemory_eq_saved ?_ ?_ ?_ ?_, ?_, ?_, ?_, ?_, ?_⟩
    · intro r
      have hcases : ∀ r : Reg, r = 2 ∨ (r = Reg.x0 ∨ r = Reg.x4) ∧ (r : Nat) ∉ gpSlots.map Prod.snd
          ∨ (r, (r : Nat)) ∈ gpSlots ∧ ¬ (r = Reg.x0 ∨ r = Reg.x4) ∧ r ≠ 2 := by decide
      rcases hcases r with rfl | ⟨hr, hnot⟩ | ⟨hmem, hr, hne⟩
      · rw [if_neg (by decide)]
        exact (h₇.slot hsp₆ (List.mem_singleton.mpr rfl)).trans (ht₆.trans hscratch₅)
      · have hk : (r : Nat) ≠ 2 := by rcases hr with rfl | rfl <;> decide
        rw [if_pos hr, hword r (by omega) hk (by omega) (by omega), hrest r (by omega) hnot]
      · have hk : (r : Nat) ≠ 2 := fun h => hne (Fin.ext h)
        rw [if_neg hr, hword r (by omega) hk (by omega) (by omega), h₂.slot hsp₁ hmem,
          h₁.get r (by simpa using hne)]
    · rw [hword₂ 32 (by decide) (by decide), h₅.slot hsp₄ (q := (Reg.t0, 32)) (by decide),
        h₄.get _ (by decide), ht₃, h₂.csr, h₁.csr _ (by decide)]
    · rw [hword₂ 33 (by decide) (by decide), h₅.slot hsp₄ (q := (Reg.t1, 33)) (by decide),
        ht₄, h₃.csr _ (by decide), h₂.csr, h₁.csr _ (by decide)]
    · intro k hk hk'
      have hnot : ∀ q ∈ gpSlots, q.2 < 34 := by decide
      rw [hword k hk' (by omega) (by omega) (by omega), hrest k hk' ?_]
      intro hmem
      obtain ⟨q, hq, rfl⟩ := List.mem_map.mp hmem
      exact absurd (hnot q hq) (by omega)
    · intro a ha hne
      have hslot : ∀ k, k < 37 → a ≠ trapSlot cx k := fun k hk heq => hne ⟨k, hk, heq⟩
      have hgp : ∀ q ∈ gpSlots, q.2 < 37 := by decide
      have hcsrs : ∀ q ∈ csrSlots, q.2 < 37 := by decide
      have hone : ∀ q ∈ [(Reg.t2, 2)], q.2 < 37 := by decide
      rw [h₇.outside hsp₆ ha fun q hq => hslot _ (hone q hq), h₆.mem,
        h₅.outside hsp₄ ha fun q hq => hslot _ (hcsrs q hq), h₄.mem, h₃.mem,
        h₂.outside hsp₁ ha fun q hq => hslot _ (hgp q hq), h₁.mem]
    · intro r hr
      simp only [List.mem_cons, List.not_mem_nil, or_false, not_or] at hr
      rw [h₇.get, h₆.get r (by simp [hr]), h₅.get, h₄.get r (by simp [hr]),
        h₃.get r (by simp [hr]), h₂.get, h₁.get r (by simp [hr])]
    · rw [h₇.csr, h₆.csr _ (by decide), hscratch₅]
    · intro k hk _
      rw [h₇.csr, h₆.csr k List.not_mem_nil, h₅.csr, h₄.csr k List.not_mem_nil,
        h₃.csr k List.not_mem_nil, h₂.csr, h₁.csr k (by simpa using hk)]
    · rw [h₇.mode, h₆.mode, hmode₅]
  · rw [h₇.csr, h₆.csr _ (by decide), h₅.csr, h₄.csr _ (by decide), h₃.csr _ (by decide), h₂.csr,
      h₁.csr _ (by decide), hsatp]
  · rw [h₇.pc, h₆.pc, h₅.pc, h₄.pc, h₃.pc, h₂.pc, h₁.pc, hpc]
    simp only [size_append, UInt64.add_assoc]

/-- The state of the program is in its context, and the kernel is entered. -/
structure Trapped (S : UInt64 → Prop) (word : M → UInt64 → UInt64) (cx : UInt64) (c c' : Cpu M) :
    Prop extends Saved S word cx c c' where
  sp : c'.get Reg.sp = (TrapContext.inMemory word c.mem cx).kernelSp
  satp : c'.csr .satp = (TrapContext.inMemory word c.mem cx).kernelSatp
  pc : c'.pc = (TrapContext.inMemory word c.mem cx).trapHandler &&& ~~~1

theorem alltraps_follows (hs : TrapSetting b len I S word entry cx user kernel) (hI : I c.mem)
    (hpc : c.pc = entry) (hmode : c.mode = .supervisor) (hsatp : c.csr .satp = user)
    (hcx : c.csr .sscratch = cx)
    (hkernel : (TrapContext.inMemory word c.mem cx).kernelSatp = kernel)
    (hsv39 : satpMode kernel = 8) :
    ∃ c', Follows b len Asm.alltraps c c' ∧ I c'.mem ∧ Trapped S word cx c c' := by
  obtain ⟨c₁, hf₁, hI₁, h₁, hsp₁, hsatp₁, hpc₁⟩ := saving_follows hs hI hpc hmode hsatp hcx
  have hcode : ∀ satp sstatus, satp = user ∨ satp = kernel →
      Loaded b len c₁.mem ⟨.supervisor, satp, sstatus⟩ c₁.pc leavingCode := by
    intro satp sstatus hor
    have hall := hs.code c₁.mem satp sstatus hI₁ hor
    rw [alltraps_eq, List.append_assoc, loaded_append, ← hpc₁, loaded_append] at hall
    exact hall.2.1
  have hmode₁ : c₁.mode = .supervisor := h₁.mode.trans hmode
  have hv₁ : c₁.regime = ⟨.supervisor, user, c₁.csr .sstatus⟩ := by
    rw [Cpu.regime, hmode₁, hsatp₁]
  have hw := hs.words (c₁.csr .sstatus)
  rw [← hv₁] at hw
  have huser := hcode user (c₁.csr .sstatus) (Or.inl rfl)
  have hker := hcode kernel (c₁.csr .sstatus) (Or.inr rfl)
  rw [← hv₁] at huser
  unfold leavingCode at huser hker
  simp only [loaded_append] at huser hker
  have hold : TrapContext.inMemory word c₁.mem cx = (TrapContext.inMemory word c.mem cx).saved c :=
    h₁.saved
  have hslot : ∀ k, k < 37 → S (trapSlot cx k) := fun k hk => hs.slots _ ⟨k, hk, rfl⟩
  -- under the tables of the program: what the kernel left in the context
  obtain ⟨c₂, hf₂, h₂⟩ := Follows.loads hw hI₁ rfl huser.1 (by
    intro r hr
    obtain ⟨q, hq, rfl⟩ := mem_slots.mp hr
    have hlt : ∀ q ∈ [(Reg.t0, 34), (Reg.t1, 36)], q.2 < 37 := by decide
    rw [hsp₁]
    exact hslot q.2 (hlt q hq)) (by decide) (by decide) (by decide)
  have ht₀ : c₂.get Reg.t0 = (TrapContext.inMemory word c₁.mem cx).kernelSatp := by
    have h := h₂.loaded (Reg.t0, UInt64.ofNat (34 * 8)) (by decide)
    rwa [hsp₁] at h
  have ht₁ : c₂.get Reg.t1 = (TrapContext.inMemory word c₁.mem cx).trapHandler := by
    have h := h₂.loaded (Reg.t1, UInt64.ofNat (36 * 8)) (by decide)
    rwa [hsp₁] at h
  have hsp₂ : c₂.get Reg.sp = cx := (h₂.changes.get _ (by decide)).trans hsp₁
  rw [← h₂.changes.pc, ← h₂.changes.mem] at huser
  obtain ⟨c₃, hf₃, h₃, hsp₃⟩ := Follows.ld hw (h₂.changes.mem.symm ▸ hI₁) h₂.regime huser.2.1
    (by rw [hsp₂]; exact hslot 35 (by decide)) (by decide)
  have hv₃ := (h₃.regime (by decide) (by decide)).trans h₂.regime
  rw [← h₃.pc, ← h₃.mem, ← hv₃] at huser
  obtain ⟨c₄, hf₄, h₄, hsatp₄⟩ := Follows.csrw huser.2.2.1
    (h₃.mode.trans (h₂.changes.mode.trans hmode₁))
  have hmode₄ : c₄.mode = .supervisor :=
    h₄.mode.trans (h₃.mode.trans (h₂.changes.mode.trans hmode₁))
  -- under those of the kernel
  have hsatp₄' : c₄.csr .satp = kernel := by
    rw [hsatp₄, h₃.get _ (by decide), ht₀, hold]
    have heq : ((TrapContext.inMemory word c.mem cx).saved c).kernelSatp = kernel := hkernel
    rw [heq]
    exact if_pos (Or.inr hsv39)
  have hv₄ : c₄.regime = ⟨.supervisor, kernel, c₁.csr .sstatus⟩ := by
    rw [Cpu.regime, hmode₄, hsatp₄', h₄.csr _ (by decide), h₃.csr _ (by decide),
      h₂.changes.csr _ (by decide)]
  rw [← h₂.changes.pc, ← h₂.changes.mem, ← h₃.pc, ← h₃.mem, ← h₄.pc, ← h₄.mem, ← hv₄] at hker
  obtain ⟨c₅, hf₅, h₅⟩ := Follows.sfenceVma hker.2.2.2.1 hmode₄
  have hret := hker.2.2.2.2.1
  rw [← h₅.pc, ← h₅.mem, ← h₅.regime (by decide) (by decide)] at hret
  have hf₆ : Follows b len [.jr Reg.t1] c₅ (c₅.jump (c₅.get Reg.t1 &&& ~~~1)) := .single hret rfl
  have hmem : (c₅.jump (c₅.get Reg.t1 &&& ~~~1)).mem = c₁.mem := by
    rw [Cpu.mem_jump, h₅.mem, h₄.mem, h₃.mem, h₂.changes.mem]
  have hcsr : ∀ k, k ≠ .satp → (c₅.jump (c₅.get Reg.t1 &&& ~~~1)).csr k = c₁.csr k := by
    intro k hk
    rw [Cpu.csr_jump, h₅.csr k List.not_mem_nil, h₄.csr k (by simpa using hk),
      h₃.csr k List.not_mem_nil, h₂.changes.csr k List.not_mem_nil]
  have hfollows : Follows b len Asm.alltraps c (c₅.jump (c₅.get Reg.t1 &&& ~~~1)) := by
    rw [alltraps_eq]
    exact hf₁.append (hf₂.append (hf₃.append (hf₄.append (hf₅.append hf₆))))
  refine ⟨_, hfollows, hmem.symm ▸ hI₁, ⟨?_, ?_, ?_, ?_, ?_, ?_⟩, ?_, ?_, ?_⟩
  · rw [hmem]
    exact h₁.saved
  · rw [hmem]
    exact h₁.others
  · intro r hr
    rw [← h₁.get r hr]
    simp only [List.mem_cons, List.not_mem_nil, or_false, not_or] at hr
    have hfst : (slots [(Reg.t0, 34), (Reg.t1, 36)]).map Prod.fst = [Reg.t0, Reg.t1] := rfl
    rw [Cpu.get_jump, h₅.get r List.not_mem_nil, h₄.get r List.not_mem_nil,
      h₃.get r (by simp [hr]), h₂.changes.get r (by rw [hfst]; simp [hr])]
  · rw [hcsr _ (by decide), h₁.sscratch]
  · intro k hk hne
    rw [hcsr k hne, h₁.csr k hk hne]
  · rw [Cpu.mode_jump, h₅.mode, hmode₄, hmode]
  · rw [Cpu.get_jump, h₅.get _ (by decide), h₄.get _ (by decide), hsp₃, hsp₂, h₂.changes.mem]
    exact congrArg TrapContext.kernelSp hold
  · rw [Cpu.csr_jump, h₅.csr _ (by decide), hsatp₄', hkernel]
  · rw [Cpu.pc_jump, h₅.get _ (by decide), h₄.get _ (by decide), h₃.get _ (by decide), ht₁]
    exact congrArg (fun cx => cx.trapHandler &&& ~~~1) hold

end Alltraps

/-! ## Out of the kernel -/

section Restore

variable {M : Type} {b : Bus M} {len : Instr → UInt64} {I : M → Prop} {S : UInt64 → Prop}
  {word : M → UInt64 → UInt64} {entry cx user kernel : UInt64} {c c' : Cpu M}

/-- The program goes on with what is in its context. -/
structure Restored (word : M → UInt64 → UInt64) (cx user : UInt64) (c c' : Cpu M) : Prop where
  mem : c'.mem = c.mem
  get : ∀ r : Reg, r ≠ Reg.x0 → r ≠ Reg.x4 → c'.get r = (TrapContext.inMemory word c.mem cx).x.get r
  tp : c'.get 4 = c.get 4
  pc : c'.pc = (TrapContext.inMemory word c.mem cx).sepc &&& ~~~1
  mode : c'.mode = Status.previous (TrapContext.inMemory word c.mem cx).sstatus
  sstatus : c'.csr .sstatus = Status.sret (TrapContext.inMemory word c.mem cx).sstatus
  satp : c'.csr .satp = user
  sscratch : c'.csr .sscratch = cx
  stvec : c'.csr .stvec = c.csr .stvec

theorem restore_follows (hs : TrapSetting b len I S word entry cx user kernel) (hI : I c.mem)
    (hpc : c.pc = entry + size len Asm.alltraps) (hmode : c.mode = .supervisor)
    (hsatp : c.csr .satp = kernel) (ha0 : c.get Reg.a0 = cx) (ha1 : c.get Reg.a1 = user)
    (hsv39 : satpMode user = 8) :
    ∃ c', Follows b len Asm.restore c c' ∧ Restored word cx user c c' := by
  have hcode : ∀ satp sstatus, satp = user ∨ satp = kernel →
      Loaded b len c.mem ⟨.supervisor, satp, sstatus⟩ c.pc Asm.restore := by
    intro satp sstatus hor
    have hall := hs.code c.mem satp sstatus hI hor
    rw [loaded_append, ← hpc] at hall
    exact hall.2
  have hv : c.regime = ⟨.supervisor, kernel, c.csr .sstatus⟩ := by
    rw [Cpu.regime, hmode, hsatp]
  have hker := hcode kernel (c.csr .sstatus) (Or.inr rfl)
  have huser := fun sstatus => hcode user sstatus (Or.inl rfl)
  rw [← hv] at hker
  rw [restore_eq] at hker huser ⊢
  simp only [loaded_append] at hker huser
  have hslot : ∀ k, k < 37 → S (trapSlot cx k) := fun k hk => hs.slots _ ⟨k, hk, rfl⟩
  have hS : ∀ ks : List (Reg × Nat), (∀ q ∈ ks, q.2 < 37) → ∀ c₁ : Cpu M, c₁.get Reg.sp = cx →
      ∀ r ∈ slots ks, S (c₁.get Reg.sp + r.2) := by
    intro ks hks c₁ hsp r hr
    obtain ⟨q, hq, rfl⟩ := mem_slots.mp hr
    rw [hsp]
    exact hslot q.2 (hks q hq)
  -- the tables of the program
  obtain ⟨c₁, hf₁, h₁, hsatp₁⟩ := Follows.csrw hker.1 hmode
  have hsatp₁' : c₁.csr .satp = user := by
    rw [hsatp₁, ha1]
    exact if_pos (Or.inr hsv39)
  have hv₁ : c₁.regime = ⟨.supervisor, user, c.csr .sstatus⟩ := by
    rw [Cpu.regime, h₁.mode, hmode, hsatp₁', h₁.csr _ (by decide)]
  have hold := huser (c.csr .sstatus)
  rw [← hv₁, ← h₁.mem, ← h₁.pc] at hold
  have hmode₁ := h₁.mode.trans hmode
  obtain ⟨c₂, hf₂, h₂⟩ := Follows.sfenceVma hold.2.1 hmode₁
  have hv₂ := h₂.regime (by decide) (by decide)
  rw [← h₂.pc, ← h₂.mem, ← hv₂] at hold
  have hmode₂ := h₂.mode.trans hmode₁
  obtain ⟨c₃, hf₃, h₃, hscratch₃⟩ := Follows.csrw hold.2.2.1 hmode₂
  have hv₃ := h₃.regime (by decide) (by decide)
  rw [← h₃.pc, ← h₃.mem, ← hv₃] at hold
  have hmode₃ := h₃.mode.trans hmode₂
  obtain ⟨c₄, hf₄, h₄, hsp₄⟩ := Follows.mv hold.2.2.2.1 (by decide)
  have hv₄ := h₄.regime (by decide) (by decide)
  rw [← h₄.pc, ← h₄.mem, ← hv₄] at hold
  have hget₄ : ∀ r, r ≠ Reg.sp → c₄.get r = c.get r := by
    intro r hr
    rw [h₄.get r (by simpa using hr), h₃.get r List.not_mem_nil, h₂.get r List.not_mem_nil,
      h₁.get r List.not_mem_nil]
  have hsp₄' : c₄.get Reg.sp = cx := by
    rw [hsp₄, h₃.get _ (by decide), h₂.get _ (by decide), h₁.get _ (by decide), ha0]
  have hmem₄ : c₄.mem = c.mem := by
    rw [h₄.mem, h₃.mem, h₂.mem, h₁.mem]
  have hI₄ : I c₄.mem := hmem₄.symm ▸ hI
  have hv₄' : c₄.regime = ⟨.supervisor, user, c.csr .sstatus⟩ :=
    hv₄.trans (hv₃.trans (hv₂.trans hv₁))
  -- `sstatus` and `sepc`
  obtain ⟨c₅, hf₅, h₅⟩ := Follows.loads (hs.words _) hI₄ hv₄' (hv₄' ▸ hold.2.2.2.2.1)
    (hS csrSlots (by decide) c₄ hsp₄') (by decide) (by decide) (by decide)
  have ht₀ : c₅.get Reg.t0 = (TrapContext.inMemory word c.mem cx).sstatus := by
    have h := h₅.loaded (Reg.t0, UInt64.ofNat (32 * 8)) (by decide)
    rwa [hsp₄', hmem₄] at h
  have ht₁ : c₅.get Reg.t1 = (TrapContext.inMemory word c.mem cx).sepc := by
    have h := h₅.loaded (Reg.t1, UInt64.ofNat (33 * 8)) (by decide)
    rwa [hsp₄', hmem₄] at h
  rw [← h₅.changes.pc, ← h₅.changes.mem, ← h₅.regime] at hold
  have hmode₅ := h₅.changes.mode.trans (h₄.mode.trans hmode₃)
  obtain ⟨c₆, hf₆, h₆, hsstatus₆⟩ := Follows.csrw hold.2.2.2.2.2.1 hmode₅
  have hsstatus₆' : c₆.csr .sstatus = (TrapContext.inMemory word c.mem cx).sstatus :=
    hsstatus₆.trans ht₀
  have hcsr₅ : c₅.csr .satp = user := by
    rw [h₅.changes.csr _ (by decide), h₄.csr _ (by decide), h₃.csr _ (by decide),
      h₂.csr _ (by decide), hsatp₁']
  have hmode₆ := h₆.mode.trans hmode₅
  have hv₆ : c₆.regime = ⟨.supervisor, user, c₆.csr .sstatus⟩ := by
    rw [Cpu.regime, hmode₆, h₆.csr _ (by decide), hcsr₅]
  have hmem₆ : c₆.mem = c.mem := by
    rw [h₆.mem, h₅.changes.mem, hmem₄]
  -- the status of the program counts from here on
  have hnew := huser (c₆.csr .sstatus)
  rw [← hv₆, ← h₁.pc, ← h₂.pc, ← h₃.pc, ← h₄.pc, ← h₅.changes.pc, ← h₆.pc, ← hmem₆] at hnew
  obtain ⟨c₇, hf₇, h₇, hsepc₇⟩ := Follows.csrw hnew.2.2.2.2.2.2.1 hmode₆
  have hv₇ := h₇.regime (by decide) (by decide)
  rw [← h₇.pc, ← h₇.mem, ← hv₇] at hnew
  have hsp₇ : c₇.get Reg.sp = cx := by
    rw [h₇.get _ (by decide), h₆.get _ (by decide), h₅.changes.get _ (by decide), hsp₄']
  have hmem₇ : c₇.mem = c.mem := h₇.mem.trans hmem₆
  have hI₇ : I c₇.mem := hmem₇.symm ▸ hI
  obtain ⟨c₈, hf₈, h₈⟩ := Follows.loads (hs.words _) hI₇ (hv₇.trans hv₆)
    ((hv₇.trans hv₆) ▸ hnew.2.2.2.2.2.2.2.1) (hS gpSlots (by decide) c₇ hsp₇) (by decide)
    (by decide) (by decide)
  rw [← h₈.changes.pc, ← h₈.changes.mem, ← h₈.regime] at hnew
  have hsp₈ : c₈.get Reg.sp = cx := (h₈.changes.get _ (by decide)).trans hsp₇
  have hmem₈ : c₈.mem = c.mem := h₈.changes.mem.trans hmem₇
  have hv₈ := h₈.regime.trans (hv₇.trans hv₆)
  obtain ⟨c₉, hf₉, h₉, hsp₉⟩ := Follows.ld (hs.words _) (hmem₈.symm ▸ hI) hv₈
    (hv₈ ▸ hnew.2.2.2.2.2.2.2.2.1) (by rw [hsp₈]; exact hslot 2 (by decide)) (by decide)
  have hsret := hnew.2.2.2.2.2.2.2.2.2.1
  rw [← h₉.pc, ← h₉.mem, ← h₉.regime (by decide) (by decide)] at hsret
  have hmode₉ : c₉.mode = .supervisor :=
    h₉.mode.trans (h₈.changes.mode.trans (h₇.mode.trans hmode₆))
  have hf₁₀ := Follows.single hsret (if_pos hmode₉)
  have hcsr₉ : ∀ k, k ≠ .sepc → c₉.csr k = c₆.csr k := by
    intro k hk
    rw [h₉.csr k List.not_mem_nil, h₈.changes.csr k List.not_mem_nil, h₇.csr k (by simpa using hk)]
  have hsstatus₉ : c₉.csr .sstatus = (TrapContext.inMemory word c.mem cx).sstatus :=
    (hcsr₉ _ (by decide)).trans hsstatus₆'
  refine ⟨_, hf₁.append (hf₂.append (hf₃.append (hf₄.append (hf₅.append (hf₆.append
    (hf₇.append (hf₈.append (hf₉.append hf₁₀)))))))), ?_, ?_, ?_, ?_, ?_, ?_, ?_, ?_, ?_⟩
  · exact h₉.mem.trans hmem₈
  · intro r hr hr₄
    show c₉.get r = _
    have hcases : ∀ r : Reg, r ≠ Reg.x0 → r ≠ Reg.x4 →
        r = Reg.sp ∨ r ≠ Reg.sp ∧ (r, (r : Nat)) ∈ gpSlots := by
      decide
    rw [TrapContext.get_inMemory]
    rcases hcases r hr hr₄ with rfl | ⟨hne, hmem⟩
    · rw [hsp₉, hsp₈, hmem₈]
      rfl
    · have hloaded := h₈.loaded _ (mem_slots.mpr ⟨_, hmem, rfl⟩)
      rw [h₉.get r (by simpa using hne), hloaded, hsp₇, hmem₇]
      rfl
  · show c₉.get 4 = _
    rw [h₉.get _ (by decide), h₈.changes.get _ (by decide), h₇.get _ (by decide),
      h₆.get _ (by decide), h₅.changes.get _ (by decide), hget₄ _ (by decide)]
  · show c₉.csr .sepc = _
    rw [h₉.csr _ (by decide), h₈.changes.csr _ (by decide), hsepc₇, h₆.get _ (by decide), ht₁]
    rfl
  · show Status.previous (c₉.csr .sstatus) = _
    rw [hsstatus₉]
  · show Status.sret (c₉.csr .sstatus) = _
    rw [hsstatus₉]
  · show c₉.csr .satp = _
    rw [hcsr₉ _ (by decide), h₆.csr _ (by decide), hcsr₅]
  · show c₉.csr .sscratch = _
    rw [hcsr₉ _ (by decide), h₆.csr _ (by decide), h₅.changes.csr _ (by decide),
      h₄.csr _ (by decide), hscratch₃, h₂.get _ (by decide), h₁.get _ (by decide), ha0]
    rfl
  · show c₉.csr .stvec = _
    rw [hcsr₉ _ (by decide), h₆.csr _ (by decide), h₅.changes.csr _ (by decide),
      h₄.csr _ (by decide), h₃.csr _ (by decide), h₂.csr _ (by decide), h₁.csr _ (by decide)]

end Restore

end Nimloth
