import Nimloth.FrameExclusivity
import Nimloth.UserRegion

/-!
# The arguments of a program

What `exec` puts on the new user stack. The words of `argv` end at its
top; below them the strings go down, each written upwards one byte at a
time. Every byte goes through the page table, so the bytes of a string
may lie in both pages of the stack; a word lies in one since it is
aligned.
-/

namespace Nimloth

open Outcome PageTable MemorySet

/-! ## Layout -/

/-- The bytes of the strings, each with its terminating zero. -/
def argsSize (args : List (List UInt8)) : Nat := (args.map fun arg => arg.length + 1).sum

/-- Where the string of argument `i` is when the strings go down from `c`. -/
def argPtr (c : Nat) (args : List (List UInt8)) (i : Nat) : Nat := c - argsSize (args.take (i + 1))

/-- `argv` and the strings are on the stack that ends at `top`. -/
structure ArgsPlaced (m : Mem) (pt : PageTable) (top : Nat) (args : List (List UInt8))
    (argvBase sp : Nat) : Prop where
  words : ∀ i arg, args[i]? = some arg →
    HoldsAt m pt (argvBase + 8 * i) (leBytes 8 (argPtr argvBase args i))
  strings : ∀ i arg, args[i]? = some arg → HoldsAt m pt (argPtr argvBase args i) (arg ++ [0])
  last : HoldsAt m pt (argvBase + 8 * args.length) (leBytes 8 0)
  apart : ∀ i j arg, i < j → args[j]? = some arg →
    argPtr argvBase args j + (arg.length + 1) ≤ argPtr argvBase args i
  below : ∀ i arg, args[i]? = some arg → argPtr argvBase args i + (arg.length + 1) ≤ argvBase
  aligned : sp % 8 = 0
  under : sp ≤ argvBase ∧ ∀ i, sp ≤ argPtr argvBase args i
  inside : top - USER_STACK_SIZE ≤ sp ∧ argvBase + 8 * (args.length + 1) = top
  tight : argvBase ≤ sp + argsSize args + 7

section Layout

variable {c : Nat} {arg : List UInt8} {args : List (List UInt8)}

theorem argsSize_cons : argsSize (arg :: args) = arg.length + 1 + argsSize args := by
  rw [argsSize, List.map_cons, List.sum_cons]
  rfl

theorem argPtr_zero : argPtr c (arg :: args) 0 = c - (arg.length + 1) := by
  rw [argPtr, List.take_succ_cons, List.take_zero, argsSize_cons]
  rfl

theorem argPtr_succ (i : Nat) :
    argPtr c (arg :: args) (i + 1) = argPtr (c - (arg.length + 1)) args i := by
  rw [argPtr, argPtr, List.take_succ_cons, argsSize_cons, Nat.sub_sub]

theorem argsSize_take_le (args : List (List UInt8)) (i : Nat) :
    argsSize (args.take i) ≤ argsSize args := by
  induction args generalizing i with
  | nil => rw [List.take_nil]
  | cons arg args ih =>
      cases i with
      | zero => exact Nat.zero_le _
      | succ i =>
          rw [List.take_succ_cons, argsSize_cons, argsSize_cons]
          exact Nat.add_le_add_left (ih i) _

/-- The first strings take more room with each that follows. -/
theorem argsSize_take_succ {i : Nat} (h : args[i]? = some arg) :
    argsSize (args.take (i + 1)) = argsSize (args.take i) + (arg.length + 1) := by
  rw [List.take_add_one, h, argsSize, argsSize, List.map_append, List.sum_append]
  rfl

theorem argsSize_take_mono (args : List (List UInt8)) {i j : Nat} (h : i ≤ j) :
    argsSize (args.take i) ≤ argsSize (args.take j) := by
  have hmin : args.take i = (args.take j).take i := by rw [List.take_take, Nat.min_eq_left h]
  rw [hmin]
  exact argsSize_take_le _ i

/-- A string is below `c`. -/
theorem argPtr_below {i : Nat} (hc : argsSize args ≤ c) (h : args[i]? = some arg) :
    argPtr c args i + (arg.length + 1) + argsSize (args.take i) = c := by
  have hle := argsSize_take_le args (i + 1)
  rw [argsSize_take_succ h] at hle
  rw [argPtr, argsSize_take_succ h]
  omega

/-- A string is below those before it. -/
theorem argPtr_apart {i j : Nat} (hc : argsSize args ≤ c) (hij : i < j)
    (h : args[j]? = some arg) : argPtr c args j + (arg.length + 1) ≤ argPtr c args i := by
  have hbelow := argPtr_below hc h
  have hmono := argsSize_take_mono args (show i + 1 ≤ j from hij)
  rw [show argPtr c args i = c - argsSize (args.take (i + 1)) from rfl]
  omega

theorem le_argPtr (c : Nat) (args : List (List UInt8)) (i : Nat) :
    c - argsSize args ≤ argPtr c args i := by
  have := argsSize_take_le args (i + 1)
  rw [argPtr]
  omega

end Layout

/-! ## The copies -/

section Copy

variable {st : MemState} {ms : MemorySet} {lo hi : Nat} {E : MemPanic → Prop}

/-- The string of one argument. -/
theorem copyArg_region {p : Nat} {cs : List UInt8} (h : UserRegion st.mem ms.pageTable lo hi)
    (hlo : lo ≤ p) (hhi : p + (cs.length + 1) ≤ hi) :
    Meets E (copyArg ms.token p cs) st fun _ st' =>
      StoresAt ms.pageTable (fun a => p ≤ a ∧ a < p + (cs.length + 1)) st st'
        ∧ HoldsAt st'.mem ms.pageTable p (cs ++ [0]) := by
  have hle := h.le
  have hbyte : p % 4096 + 1 ≤ 4096 := by omega
  induction cs generalizing p st with
  | nil =>
      simp only [copyArg, Meets.bind_iff]
      refine (refmut_region h hlo (by omega)).mono ?_
      rintro pa _ ⟨rfl, hpa⟩
      exact writeAt_region h [0] hlo hhi hbyte hpa
  | cons c cs ih =>
      simp only [List.length_cons] at hhi ⊢
      rw [copyArg, Meets.bind_iff]
      refine (refmut_region h hlo (by omega)).mono ?_
      rintro pa st₁ ⟨rfl, hpa⟩
      rw [Meets.bind_iff, Nat.mod_eq_of_lt (by omega)]
      refine (writeAt_region h [c] hlo (by simp only [List.length_singleton]; omega) hbyte
        hpa).mono ?_
      rintro _ st₂ ⟨hfirst, hc⟩
      simp only [List.length_singleton] at hfirst
      have hin : ∀ a, p ≤ a ∧ a < p + 1 → lo ≤ a ∧ a < hi := fun a ha => by omega
      have h₂ := h.kept hin hfirst
      refine (ih h₂ (by omega) (by omega) (by omega)).mono ?_
      rintro _ st₃ ⟨hrest, hcs⟩
      refine ⟨StoresAt.trans h (fun a ha => by omega)
        (hfirst.weaken fun a ha => by omega) (hrest.weaken fun a ha => by omega), ?_⟩
      -- the first byte is not written to again
      have hc' : HoldsAt st₃.mem ms.pageTable p [c] :=
        h₂.holdsAt_kept (fun a ha => by omega) hrest hlo
          (by simp only [List.length_singleton]; omega) (fun a ha => Or.inr ha.1) hc
      exact HoldsAt.cons (hc' 0 c rfl) hcs

/-- The references to the words of `argv`. -/
theorem argvRefs_region {argvBase k n : Nat} (h : UserRegion st.mem ms.pageTable lo hi)
    (hlo : lo ≤ argvBase) (hhi : argvBase + (k + n) * 8 ≤ hi) :
    Meets E (argvRefs ms.token argvBase k n) st fun pas st' => st' = st
      ∧ pas.map some = (List.range' k n).map fun i =>
        physAt st.mem ms.pageTable (argvBase + i * 8) := by
  have hle := h.le
  induction n generalizing k with
  | zero => exact Meets.pure_iff.mpr ⟨rfl, rfl⟩
  | succ n ih =>
      rw [argvRefs, Meets.bind_iff, Nat.mod_eq_of_lt (by omega)]
      refine (refmut_region h (by omega) (by omega)).mono ?_
      rintro pa _ ⟨rfl, hpa⟩
      rw [Meets.bind_iff]
      refine (ih (by omega)).mono ?_
      rintro pas _ ⟨rfl, hpas⟩
      refine Meets.pure_iff.mpr ⟨rfl, ?_⟩
      rw [List.map_cons, List.range'_succ, List.map_cons, hpas, hpa]

/-- The loop over the arguments, from index `k` on. -/
theorem copyArgs_region {c argvBase k : Nat} {pas : List Nat} {args : List (List UInt8)}
    (h : UserRegion st.mem ms.pageTable lo hi) (hlo : lo + argsSize args ≤ c)
    (hbase : c ≤ argvBase) (haligned : argvBase % 8 = 0)
    (hhi : argvBase + (k + args.length) * 8 ≤ hi)
    (hpas : pas.map some = (List.range' k args.length).map fun i =>
      physAt st.mem ms.pageTable (argvBase + i * 8)) :
    Meets E (copyArgs ms.token c (pas.zip args)) st fun sp st' => sp = c - argsSize args
      ∧ StoresAt ms.pageTable (fun a => (c - argsSize args ≤ a ∧ a < c)
        ∨ argvBase + k * 8 ≤ a ∧ a < argvBase + (k + args.length) * 8) st st'
      ∧ ∀ i arg, args[i]? = some arg →
        HoldsAt st'.mem ms.pageTable (argvBase + (k + i) * 8) (leBytes 8 (argPtr c args i))
          ∧ HoldsAt st'.mem ms.pageTable (argPtr c args i) (arg ++ [0]) := by
  have hle := h.le
  induction args generalizing c k pas st with
  | nil =>
      have hnil : pas.zip ([] : List (List UInt8)) = [] := List.zip_nil_right
      rw [hnil]
      exact Meets.pure_iff.mpr ⟨rfl, StoresAt.refl st, fun i arg harg => by cases harg⟩
  | cons arg args ih =>
      rw [argsSize_cons] at hlo ⊢
      simp only [List.length_cons] at hhi hpas ⊢
      cases pas with
      | nil =>
          rw [List.range'_succ, List.map_cons] at hpas
          cases hpas
      | cons pa pas =>
          rw [List.range'_succ, List.map_cons, List.map_cons, List.cons.injEq] at hpas
          obtain ⟨hpa, hpas⟩ := hpas
          have hsub : usizeSub c (arg.length + 1) = c - (arg.length + 1) := by
            unfold usizeSub
            omega
          rw [List.zip_cons_cons, copyArgs, hsub, Meets.bind_iff]
          -- the word of this argument
          have hword := leBytes_length 8 (c - (arg.length + 1))
          refine (writeAt_region h _ (by omega) (by omega) (by omega) hpa.symm).mono ?_
          rintro _ st₁ ⟨hs₁, hheld₁⟩
          rw [hword] at hs₁
          have hin₁ : ∀ a, argvBase + k * 8 ≤ a ∧ a < argvBase + k * 8 + 8 → lo ≤ a ∧ a < hi :=
            fun a ha => by omega
          have h₁ := h.kept hin₁ hs₁
          -- its string
          rw [Meets.bind_iff]
          refine (copyArg_region h₁ (by omega) (by omega)).mono ?_
          rintro _ st₂ ⟨hs₂, hheld₂⟩
          have hin₂ : ∀ a, c - (arg.length + 1) ≤ a
              ∧ a < c - (arg.length + 1) + (arg.length + 1) → lo ≤ a ∧ a < hi :=
            fun a ha => by omega
          have h₂ := h₁.kept hin₂ hs₂
          -- the others
          have hpas₂ : pas.map some = (List.range' (k + 1) args.length).map fun i =>
              physAt st₂.mem ms.pageTable (argvBase + i * 8) := by
            rw [hpas]
            refine List.map_congr_left fun i _ => ?_
            rw [h₁.physAt_eq hin₂ hs₂, h.physAt_eq hin₁ hs₁]
          refine (ih h₂ (by omega) (by omega) (by omega) hpas₂).mono ?_
          rintro sp st₃ ⟨hsp, hs₃, hheld₃⟩
          refine ⟨by omega, ?_, fun i b hb => ?_⟩
          · have hA : ∀ a, (c - (arg.length + 1 + argsSize args) ≤ a ∧ a < c)
                ∨ argvBase + k * 8 ≤ a ∧ a < argvBase + (k + (args.length + 1)) * 8 →
                lo ≤ a ∧ a < hi := fun a ha => by omega
            exact StoresAt.trans h hA (hs₁.weaken fun a ha => by omega)
              (StoresAt.trans h₁ hA (hs₂.weaken fun a ha => by omega)
                (hs₃.weaken fun a ha => by omega))
          · cases i with
            | zero =>
                cases hb
                rw [argPtr_zero]
                constructor
                · refine h₂.holdsAt_kept (fun a ha => by omega) hs₃ (by omega) (by omega)
                    (fun a ha => by omega) ?_
                  exact h₁.holdsAt_kept hin₂ hs₂ (by omega) (by omega) (fun a ha => by omega) hheld₁
                · have hlen : (arg ++ [0]).length = arg.length + 1 := List.length_append
                  exact h₂.holdsAt_kept (fun a ha => by omega) hs₃ (by omega) (by omega)
                    (fun a ha => by omega) hheld₂
            | succ i =>
                rw [argPtr_succ]
                have hk : k + (i + 1) = k + 1 + i := by omega
                rw [hk]
                exact hheld₃ i b hb

/-- All that `exec` puts on a stack of its own. -/
theorem pushArgs_region {top : Nat} {args : List (List UInt8)}
    (h : UserRegion st.mem ms.pageTable (top - USER_STACK_SIZE) top) (htop : top % 8 = 0)
    (hfit : 8 * (args.length + 1) + argsSize args ≤ USER_STACK_SIZE) (hle : USER_STACK_SIZE ≤ top) :
    Meets E (pushArgs ms.token top args) st fun r st' =>
      r.2 = top - 8 * (args.length + 1)
        ∧ StoresAt ms.pageTable (fun a => r.2 - argsSize args ≤ a ∧ a < top) st st'
        ∧ ArgsPlaced st'.mem ms.pageTable top args r.2 r.1 := by
  have htop64 := h.le
  simp only [USER_STACK_SIZE] at hfit hle
  have hbase : usizeSub top ((args.length + 1) * 8) = top - 8 * (args.length + 1) := by
    unfold usizeSub
    omega
  have hlo : top - USER_STACK_SIZE = top - 8192 := rfl
  rw [hlo] at h
  rw [pushArgs, hbase]
  -- from here on the base alone matters
  obtain ⟨base, hb⟩ : ∃ base, base = top - 8 * (args.length + 1) := ⟨_, rfl⟩
  rw [← hb]
  have hend : base + 8 * (args.length + 1) = top := by omega
  simp only [Meets.bind_iff]
  refine (argvRefs_region h (by omega) (by omega)).mono ?_
  rintro pas _ ⟨rfl, hpas⟩
  rw [Nat.mod_eq_of_lt (show base + args.length * 8 < 2 ^ 64 by omega)]
  refine (refmut_region h (by omega) (by omega)).mono ?_
  rintro last st₁ ⟨rfl, hlast⟩
  have hword := leBytes_length 8 0
  refine (writeAt_region h (leBytes 8 0) (by omega) (by omega) (by omega) hlast).mono ?_
  rintro _ st₂ ⟨hs₂, hheld₂⟩
  rw [hword] at hs₂
  have hin₂ : ∀ a, base + args.length * 8 ≤ a ∧ a < base + args.length * 8 + 8 →
      top - 8192 ≤ a ∧ a < top := fun a ha => by omega
  have h₂ := h.kept hin₂ hs₂
  have hpas₂ : pas.map some = (List.range' 0 args.length).map fun i =>
      physAt st₂.mem ms.pageTable (base + i * 8) := by
    rw [hpas]
    exact List.map_congr_left fun i _ => (h.physAt_eq hin₂ hs₂ _).symm
  refine (copyArgs_region h₂ (by omega) (Nat.le_refl base) (by omega) (by omega) hpas₂).mono ?_
  rintro sp st₃ ⟨rfl, hs₃, hheld₃⟩
  have hsize : argsSize args ≤ base := by omega
  refine Meets.pure_iff.mpr ⟨rfl, ?_, ?_⟩
  · exact StoresAt.trans h (fun a ha => by omega) (hs₂.weaken fun a ha => by omega)
      (hs₃.weaken fun a ha => by omega)
  · refine ⟨fun i arg harg => ?_, fun i arg harg => (hheld₃ i arg harg).2, ?_,
      fun i j arg hij harg => argPtr_apart hsize hij harg, fun i arg harg => ?_, ?_, ?_, ?_, ?_⟩
    · have hi : base + (0 + i) * 8 = base + 8 * i := by omega
      exact hi ▸ (hheld₃ i arg harg).1
    · have hi : base + args.length * 8 = base + 8 * args.length := by omega
      rw [← hi]
      exact h₂.holdsAt_kept (fun a ha => by omega) hs₃ (by omega) (by omega) (fun a ha => by omega)
        hheld₂
    · have := argPtr_below hsize harg
      dsimp only
      omega
    · dsimp only
      omega
    · refine ⟨by dsimp only; omega, fun i => ?_⟩
      have := le_argPtr base args i
      dsimp only
      omega
    · dsimp only
      omega
    · dsimp only
      omega

end Copy

/-- What is on the stack stays with its bytes. -/
theorem ArgsPlaced.congr {m m' : Mem} {pt : PageTable} {top argvBase sp : Nat}
    {args : List (List UInt8)} (h : ArgsPlaced m pt top args argvBase sp)
    (hm : ∀ va, sp ≤ va → va < top → byteAt m' pt va = byteAt m pt va) :
    ArgsPlaced m' pt top args argvBase sp := by
  have hinside := h.inside
  have hunder := h.under
  have hkeep : ∀ va bs, sp ≤ va → va + bs.length ≤ top → HoldsAt m pt va bs →
      HoldsAt m' pt va bs := by
    intro va bs hlo hhi hold j b hb
    have hj := (List.getElem?_eq_some_iff.mp hb).1
    rw [hm (va + j) (by omega) (by omega)]
    exact hold j b hb
  refine ⟨fun i arg harg => ?_, fun i arg harg => ?_, ?_, h.apart, h.below, h.aligned, h.under,
    h.inside, h.tight⟩
  · have hi := (List.getElem?_eq_some_iff.mp harg).1
    refine hkeep _ _ (by omega) ?_ (h.words i arg harg)
    rw [leBytes_length]
    omega
  · have hbelow := h.below i arg harg
    refine hkeep _ _ (hunder.2 i) ?_ (h.strings i arg harg)
    rw [List.length_append, List.length_singleton]
    omega
  · refine hkeep _ _ (by omega) ?_ h.last
    rw [leBytes_length]
    omega

/-! ## Regions of a program -/

namespace Elf.Loadable

variable {elf : Elf}

/-- The stack does not wrap. -/
theorem stack_eq (h : elf.Loadable) : elf.stackEnd = elf.stackStart + 2
    ∧ elf.userStackTop = elf.userStackBottom + USER_STACK_SIZE ∧ elf.userStackTop < 2 ^ 64
    ∧ elf.userStackBottom % 2 ^ 39 = elf.stackStart * 4096 := by
  have hle := h.2.1
  have hmod := toUsize_mod (elf.lastEnd * 4096)
  simp only [Elf.stackStart, Elf.stackEnd] at hle
  simp only [Elf.stackStart, Elf.stackEnd, Elf.userStackTop, Elf.userStackBottom, ofVpn_eq,
    PAGE_SIZE, USER_STACK_SIZE]
  omega

/-- Its pages are not that of the trap context. -/
theorem pageOf_stack (h : elf.Loadable) (va : Nat)
    (hlo : elf.userStackTop - USER_STACK_SIZE ≤ va) (hhi : va < elf.userStackTop) :
    elf.stackStart ≤ pageOf va ∧ pageOf va < elf.stackEnd ∧ pageOf va ≠ TRAP_CONTEXT_VPN := by
  obtain ⟨hend, htop, hlt, hmod⟩ := h.stack_eq
  have hlast : elf.stackEnd < 2 ^ 27 := Nat.mod_lt _ (by decide)
  have htrap := h.2.2.2 (elf.stackStart, elf.stackEnd)
    (List.mem_cons_of_mem _ (List.mem_append_right _ (List.mem_singleton.mpr rfl)))
  simp only [USER_STACK_SIZE] at htop hlo
  have hpage : elf.stackStart ≤ pageOf va ∧ pageOf va < elf.stackEnd := by
    rw [pageOf_eq]
    omega
  dsimp only at htrap
  omega

end Elf.Loadable

theorem trapContext_mod : TRAP_CONTEXT % 4096 = 0 := by decide

theorem pageOf_trapContext {va : Nat} (hlo : TRAP_CONTEXT ≤ va)
    (hhi : va < TRAP_CONTEXT + PAGE_SIZE) : pageOf va = TRAP_CONTEXT_VPN := by
  simp only [TRAP_CONTEXT, TRAMPOLINE, PAGE_SIZE] at hlo hhi
  rw [pageOf_eq]
  simp only [TRAP_CONTEXT_VPN]
  omega

section Regions

variable {img : KernelImage} {elf : Elf} {st st' : MemState} {ms : MemorySet}

/-- The pages of an area are a region. -/
theorem Built.region (h : Built img elf st ms st') (htr : ¬ st.alloc.Free img.trampoline)
    {a : MapArea} (ha : a ∈ ms.areas) {lo hi : Nat} (hflat : lo % 2 ^ 39 + (hi - lo) ≤ 2 ^ 39)
    (hle : hi ≤ 2 ^ 64) (hin : ∀ va, lo ≤ va → va < hi → a.Has (pageOf va)) :
    UserRegion st'.mem ms.pageTable lo hi where
  tree := h.ok.space.tree
  root := h.ok.rootPpn_lt
  flat := hflat
  le := hle
  mapped va hlo hhi := by
    obtain ⟨e, he, -, hmem⟩ := h.entry ha (hin va hlo hhi)
    exact ⟨e, he, h.ok.owns.pos _ (List.mem_append_right _ hmem), h.ok.owns.not_mem hmem⟩
  own va hlo hhi v e e' hv he he' heq := by
    have hcases : ∀ w c, w < 2 ^ 27 → ms.pageTable.lookup st'.mem w = some c →
        w = TRAMPOLINE_VPN ∧ c.ppn = img.trampoline ∨ ∃ a ∈ ms.areas, (w, c.ppn) ∈ a.dataFrames :=
      fun w c hw hc => h.ok.lookup_cases img.trampoline_lt_two_pow hw hc
    have hnot : ∀ w c, w < 2 ^ 27 → ms.pageTable.lookup st'.mem w = some c → ∀ a ∈ ms.areas,
        (w, c.ppn) ∈ a.dataFrames → c.ppn ≠ img.trampoline := by
      intro w c _ _ a ha hwc htramp
      refine h.moves.apart _ htr List.not_mem_nil ?_
      rw [← htramp]
      exact List.mem_append_right _ (List.mem_flatMap.mpr ⟨a, ha, List.mem_map_of_mem hwc⟩)
    rcases hcases _ _ (pageOf_lt va) he with ⟨hpage, -⟩ | ⟨b, hb, hve⟩
    · have hlt := (h.ok.space.ok a ha).lt (hin va hlo hhi)
      omega
    · rcases hcases v e' hv he' with ⟨-, htramp⟩ | ⟨c, hc, hve'⟩
      · exact absurd (heq ▸ htramp) (hnot _ _ (pageOf_lt va) he b hb hve)
      · exact h.ok.page_unique hc hb (heq ▸ hve') hve

/-- The user stack of a program that was loaded. -/
theorem Built.stackRegion (h : Built img elf st ms st') (hload : elf.Loadable)
    (htr : ¬ st.alloc.Free img.trampoline) : UserRegion st'.mem ms.pageTable
      (elf.userStackTop - USER_STACK_SIZE) elf.userStackTop := by
  obtain ⟨as, stack, heap, trap, hareas, -, hstack, -⟩ := h.areas
  obtain ⟨hend, htop, hlt, hmod⟩ := hload.stack_eq
  have hlast : elf.stackEnd < 2 ^ 27 := Nat.mod_lt _ (by decide)
  have hin : stack ∈ ms.areas := by
    rw [hareas]
    simp only [List.mem_append, List.mem_cons, true_or, or_true]
  refine h.region htr hin ?_ (Nat.le_of_lt hlt) fun va hlo hhi => ?_
  · simp only [USER_STACK_SIZE] at htop ⊢
    omega
  · have hpage := hload.pageOf_stack va hlo hhi
    rw [MapArea.Has, hstack.1, hstack.2.1]
    exact ⟨hpage.1, hpage.2.1⟩

/-- Its trap context. -/
theorem Built.trapRegion (h : Built img elf st ms st') (htr : ¬ st.alloc.Free img.trampoline) :
    UserRegion st'.mem ms.pageTable TRAP_CONTEXT (TRAP_CONTEXT + PAGE_SIZE) := by
  obtain ⟨as, stack, heap, trap, hareas, -, -, -, htrap⟩ := h.areas
  have hin : trap ∈ ms.areas := by
    rw [hareas]
    simp only [List.mem_append, List.mem_cons, or_true, true_or]
  refine h.region htr hin (by decide) (by decide) fun va hlo hhi => ?_
  rw [MapArea.Has, htrap.1, htrap.2.1, pageOf_trapContext hlo hhi]
  decide

end Regions

/-! ## The trap context -/

section TrapCx

variable {st : MemState} {ms : MemorySet} {E : MemPanic → Prop}

theorem findTrapCx_region
    (h : UserRegion st.mem ms.pageTable TRAP_CONTEXT (TRAP_CONTEXT + PAGE_SIZE)) :
    Meets E (findTrapCx ms) st fun ppn st' => st' = st ∧ 0 < ppn
      ∧ physAt st.mem ms.pageTable TRAP_CONTEXT = some (ppn * 4096) := by
  obtain ⟨e, he, hpos, -⟩ := h.mapped TRAP_CONTEXT (Nat.le_refl _) (by decide)
  have hpage : VirtAddr.floor (VirtAddr.from TRAP_CONTEXT) = pageOf TRAP_CONTEXT := rfl
  simp only [findTrapCx, Meets.bind_iff, Meets.get_iff]
  rw [hpage, MemorySet.translate, translate_of_lookup he, Meets.unwrap_some]
  refine Meets.pure_iff.mpr ⟨rfl, hpos, physAt_eq_some.mpr ⟨e, he, ?_⟩⟩
  rw [trapContext_mod, Nat.add_zero]

theorem writeTrapCx_region {ppn : Nat} {bs : List UInt8}
    (h : UserRegion st.mem ms.pageTable TRAP_CONTEXT (TRAP_CONTEXT + PAGE_SIZE)) (hpos : 0 < ppn)
    (hpa : physAt st.mem ms.pageTable TRAP_CONTEXT = some (ppn * 4096))
    (hlen : bs.length ≤ PAGE_SIZE) :
    Meets E (writeTrapCx ppn 0 bs) st fun _ st' =>
      StoresAt ms.pageTable (fun a => TRAP_CONTEXT ≤ a ∧ a < TRAP_CONTEXT + bs.length) st st'
        ∧ HoldsAt st'.mem ms.pageTable TRAP_CONTEXT bs := by
  rw [writeTrapCx, Meets.bind_iff, Meets.ensure_iff, Nat.add_zero]
  refine ⟨fun _ => ?_, fun hno => absurd (Nat.ne_of_gt hpos) hno⟩
  refine writeAt_region h bs (Nat.le_refl _) (Nat.add_le_add_left hlen _) ?_ hpa
  rwa [trapContext_mod, Nat.zero_add]

end TrapCx

/-! ## After `exec` -/

/-- What a program that starts at `entry` finds in memory `m` after `exec`, where `from_elf` left
    memory `m₁`. -/
structure ExecLayout (m₁ m : Mem) (pt : PageTable) (top entry : Nat) (args : List (List UInt8))
    (argvBase sp : Nat) : Prop where
  context : ∃ cx : TrapContext, HoldsAt m pt TRAP_CONTEXT cx.bytes
    ∧ cx.sepc = UInt64.ofNat entry
    ∧ getElem cx.x 2 sp_lt = UInt64.ofNat sp ∧ getElem cx.x 10 a0_lt = UInt64.ofNat args.length
    ∧ getElem cx.x 11 a1_lt = UInt64.ofNat argvBase
  placed : ArgsPlaced m pt top args argvBase sp
  stack : ∀ va, top - USER_STACK_SIZE ≤ va → va < top → ∃ e, pt.lookup m (pageOf va) = some e
    ∧ e.flags = PTEFlags.R ||| PTEFlags.W ||| PTEFlags.U ||| PTEFlags.V
  rest : ∀ va, pageOf va ≠ TRAP_CONTEXT_VPN →
    (∀ a, argvBase - argsSize args ≤ a → a < top → a % 2 ^ 39 ≠ va % 2 ^ 39) →
    byteAt m pt va = byteAt m₁ pt va

theorem Built.stackEntry {img : KernelImage} {elf : Elf} {st st' : MemState} {ms : MemorySet}
    (h : Built img elf st ms st') (hload : elf.Loadable) (va : Nat)
    (hlo : elf.userStackTop - USER_STACK_SIZE ≤ va) (hhi : va < elf.userStackTop) :
    ∃ e, ms.pageTable.lookup st'.mem (pageOf va) = some e
      ∧ e.flags = PTEFlags.R ||| PTEFlags.W ||| PTEFlags.U ||| PTEFlags.V := by
  obtain ⟨as, stack, heap, trap, hareas, -, hstack, -⟩ := h.areas
  have hpage := hload.pageOf_stack va hlo hhi
  have hin : stack ∈ ms.areas := by
    rw [hareas]
    simp only [List.mem_append, List.mem_cons, true_or, or_true]
  obtain ⟨e, he, hflags, -⟩ := h.entry hin (v := pageOf va) (by
    rw [MapArea.Has, hstack.1, hstack.2.1]
    exact ⟨hpage.1, hpage.2.1⟩)
  exact ⟨e, he, by rw [hflags, hstack.2.2]⟩

/-- A program is loaded: its stack and its trap context are ready to be written to. -/
structure Prepared (img : KernelImage) (st : MemState) (ms : MemorySet) (top : Nat)
    (st₁ : MemState) : Prop where
  moves : Moves (fun _ => False) st [] st₁ ms.frames
  stack : UserRegion st₁.mem ms.pageTable (top - USER_STACK_SIZE) top
  trap : UserRegion st₁.mem ms.pageTable TRAP_CONTEXT (TRAP_CONTEXT + PAGE_SIZE)
  aligned : top % 8 = 0
  le : USER_STACK_SIZE ≤ top
  entry : ∀ va, top - USER_STACK_SIZE ≤ va → va < top →
    ∃ e, ms.pageTable.lookup st₁.mem (pageOf va) = some e
      ∧ e.flags = PTEFlags.R ||| PTEFlags.W ||| PTEFlags.U ||| PTEFlags.V
  page : ∀ va, top - USER_STACK_SIZE ≤ va → va < top → pageOf va ≠ TRAP_CONTEXT_VPN

theorem prepared_of_fromElf {img : KernelImage} {elf : Elf} {st st₁ : MemState} {ms : MemorySet}
    {top entry : Nat} (hwf : st.alloc.Wf) (hbacks : img.Backs st [])
    (hrun : fromElf img elf st = .ok ((ms, top, entry), st₁)) : Prepared img st ms top st₁ := by
  obtain ⟨hload, hbuilt, hr, -⟩ := (fromElf_exact hwf hbacks (fun _ => trivial)
    fun _ _ => trivial : Meets (fun _ => True) _ _ _).ok hrun
  have htop : top = elf.userStackTop := (Prod.mk.inj hr).1
  have heq := hload.stack_eq
  have hmod := elf.userStackTop_mod
  have htr := hbacks.not_free
  rw [htop]
  exact ⟨hbuilt.moves, hbuilt.stackRegion hload htr, hbuilt.trapRegion htr, by omega, by omega,
    fun va hlo hhi => hbuilt.stackEntry hload va hlo hhi,
    fun va hlo hhi => (hload.pageOf_stack va hlo hhi).2.2⟩

namespace Machine

variable {img : KernelImage} {cpu : TrapSetup} {s : Machine} {i : Nat} {p : ProcessSpace}
  {elf : Elf} {args : List (List UInt8)} {ms : MemorySet} {top entry : Nat} {st₁ : MemState}
  {E : Fault → Prop}

/-- With arguments that fit, `exec` returns once the program is loaded. -/
theorem exec_placed (h : s.Ok img) (hp : s.procs[i]? = some p) (hz : p.zombie = false)
    (hrun : fromElf img elf s.st = .ok ((ms, top, entry), st₁))
    (hfit : 8 * (args.length + 1) + argsSize args ≤ USER_STACK_SIZE) :
    Meets E (exec img cpu i elf args) s fun _ s' => ∃ argvBase sp ppn,
      s'.procs = s.procs.set i { p with memorySet := ms, trapCxPpn := ppn }
        ∧ ExecLayout st₁.mem s'.st.mem ms.pageTable top entry args argvBase sp := by
  obtain ⟨hmoves, hstack, htrap, haligned, hle, hentry, hpage⟩ :=
    prepared_of_fromElf h.owns.wf h.backs_nil hrun
  simp only [exec, Meets.bind_iff]
  refine (running_meets fun hall => absurd (hall p hp) (by simp [hz])).mono ?_
  rintro q s₀ ⟨rfl, hq, -⟩
  obtain rfl : p = q := Option.some.inj (hp.symm.trans hq)
  rw [onMemory_iff]
  refine Meets.of_ok hrun ?_
  dsimp only
  rw [onMemory_iff]
  refine (findTrapCx_region htrap).mono ?_
  rintro ppn st₂ ⟨rfl, hpos, hpa⟩
  dsimp only
  rw [onMemory_iff]
  refine (pushArgs_region hstack haligned hfit hle).mono ?_
  rintro ⟨sp, argvBase⟩ st₃ ⟨hbase, hs₃, hargs⟩
  dsimp only at hbase hs₃ hargs ⊢
  -- the old address space goes
  have hold : Owns st₃ p.memorySet.frames := by
    have ho := (Holds.perm h (sets_perm hp)).owns.right
    rw [Sets.frames_cons] at ho
    have ho₂ := (hmoves.frame (S := []) ho.left).owns.right
    exact ⟨hs₃.alloc ▸ ho₂.wf, ho₂.nodup, ho₂.pos, hs₃.alloc ▸ ho₂.lt, hs₃.alloc ▸ ho₂.used⟩
  rw [onMemory_iff]
  refine (drop_meets (X := Stray img.trampoline) hold).mono ?_
  rintro _ st₄ ⟨-, hmem₄⟩
  simp only [Meets.modify_iff, Meets.get_iff, onMemory_iff]
  have hin₃ : ∀ a, argvBase - argsSize args ≤ a ∧ a < top → top - USER_STACK_SIZE ≤ a ∧ a < top :=
    fun a ha => by omega
  have htrap₃ : UserRegion st₄.mem ms.pageTable TRAP_CONTEXT (TRAP_CONTEXT + PAGE_SIZE) := by
    rw [hmem₄]
    exact htrap.congr fun _ hp => hstack.sameFrame hin₃ hs₃ hp
  have hpa₃ : physAt st₄.mem ms.pageTable TRAP_CONTEXT = some (ppn * 4096) := by
    rw [hmem₄, hstack.physAt_eq hin₃ hs₃]
    exact hpa
  have hlen : ∀ cx : TrapContext, cx.bytes.length ≤ PAGE_SIZE := fun cx => by
    rw [length_bytes]
    decide
  refine (writeTrapCx_region htrap₃ hpos hpa₃ (hlen _)).mono ?_
  rintro _ st₅ ⟨hs₅, hcx⟩
  have hin₅ : ∀ {n : Nat}, n ≤ PAGE_SIZE → ∀ a, TRAP_CONTEXT ≤ a ∧ a < TRAP_CONTEXT + n →
      TRAP_CONTEXT ≤ a ∧ a < TRAP_CONTEXT + PAGE_SIZE :=
    fun hn a ha => ⟨ha.1, Nat.lt_of_lt_of_le ha.2 (Nat.add_le_add_left hn _)⟩
  have hkeep : ∀ va, pageOf va ≠ TRAP_CONTEXT_VPN →
      byteAt st₅.mem ms.pageTable va = byteAt st₃.mem ms.pageTable va := by
    intro va hva
    rw [htrap₃.byteAt_eq (hin₅ (hlen _)) hs₅ fun a ha heq => hva ?_, hmem₄]
    obtain ⟨hlo, hhi⟩ := hin₅ (hlen _) a ha
    rw [← pageOf_trapContext hlo hhi, pageOf_eq, pageOf_eq, heq]
  refine ⟨argvBase, sp, ppn, rfl, ⟨_, hcx, rfl, ?_, ?_, ?_⟩, hargs.congr fun va hlo hhi => ?_, ?_, ?_⟩
  · simp [TrapContext.appInitContext]
  · simp [TrapContext.appInitContext]
  · simp [TrapContext.appInitContext]
  · exact hkeep va (hpage va (Nat.le_trans hargs.inside.1 hlo) hhi)
  · intro va hlo hhi
    rw [htrap₃.lookup_eq (hin₅ (hlen _)) hs₅, hmem₄, hstack.lookup_eq hin₃ hs₃]
    exact hentry va hlo hhi
  · intro va hva hout
    rw [hkeep va hva]
    exact hstack.byteAt_eq hin₃ hs₃ fun a ha => hout a ha.1 ha.2

end Machine

/-- The arguments of a program that is loaded are on its stack as it expects them; besides these
    and the trap context nothing is written. -/
theorem exec_arguments {img : KernelImage} {cpu : TrapSetup} {s : Machine} {i : Nat}
    {p : ProcessSpace} {elf : Elf} {args : List (List UInt8)} {ms : MemorySet} {top entry : Nat}
    {st₁ : MemState} (h : s.Ok img) (hp : s.procs[i]? = some p) (hz : p.zombie = false)
    (hrun : fromElf img elf s.st = .ok ((ms, top, entry), st₁))
    (hfit : 8 * (args.length + 1) + argsSize args ≤ USER_STACK_SIZE) :
    ∃ s' argvBase sp ppn, Machine.exec img cpu i elf args s = .ok ((), s')
      ∧ s'.procs = s.procs.set i { p with memorySet := ms, trapCxPpn := ppn }
      ∧ ExecLayout st₁.mem s'.st.mem ms.pageTable top entry args argvBase sp := by
  obtain ⟨_, s', hexec, argvBase, sp, ppn, hprocs, hlayout⟩ :=
    (Machine.exec_placed h hp hz hrun hfit).exists_ok
  exact ⟨s', argvBase, sp, ppn, hexec, hprocs, hlayout⟩

/-- A process in a kernel that can load a small program. -/
theorem exists_loading {elf : Elf} (hload : elf.Loadable) (hframes : elf.framesNeeded ≤ 0x100) :
    ∃ (s : Machine) (p : ProcessSpace) (ms : MemorySet) (top entry : Nat) (st₁ : MemState),
      s.Ok default ∧ s.procs[0]? = some p ∧ p.zombie = false
      ∧ elf.framesNeeded ≤ s.st.alloc.available
      ∧ fromElf default elf s.st = .ok ((ms, top, entry), st₁) := by
  obtain ⟨-, s, p, -, -, -, hinv, hprocs, hz, -, -, -, -, hav, -⟩ := exists_program
  have hmeets := @fromElf_exact default (fun _ => False) s.st elf hinv.ok.owns.wf
    hinv.ok.backs_nil (fun hlt => by omega) fun hno _ => hno hload
  obtain ⟨⟨ms, top, entry⟩, st₁, hrun, -⟩ := hmeets.exists_ok
  exact ⟨s, p, ms, top, entry, st₁, hinv.ok, by rw [hprocs]; rfl, hz, by omega, hrun⟩

/-- `ls -l`. -/
theorem exec_arguments_ls : ∃ s ms top entry st₁ s' argvBase sp,
    fromElf default sortedElf s.st = .ok ((ms, top, entry), st₁)
      ∧ Machine.exec default ⟨0, 0⟩ 0 sortedElf [[0x6c, 0x73], [0x2d, 0x6c]] s = .ok ((), s')
      ∧ ExecLayout st₁.mem s'.st.mem ms.pageTable top entry [[0x6c, 0x73], [0x2d, 0x6c]]
        argvBase sp := by
  obtain ⟨s, p, ms, top, entry, st₁, hok, hp, hz, -, hrun⟩ :=
    @exists_loading sortedElf (by decide +kernel) (by decide)
  obtain ⟨s', argvBase, sp, -, hexec, -, hlayout⟩ :=
    @exec_arguments default ⟨0, 0⟩ s 0 p sortedElf [[0x6c, 0x73], [0x2d, 0x6c]] ms top entry st₁
      hok hp hz hrun (by decide)
  exact ⟨s, ms, top, entry, st₁, s', argvBase, sp, hrun, hexec, hlayout⟩

end Nimloth
