import Mathlib.Data.List.Basic
import Nimloth.MemorySet

/-!
# The address space of a program

`MemorySet::from_elf`: one framed area for each segment of the file that
is loaded, the user stack above the last of them with a page between, an
empty heap area, and the page of the trap context, which the user cannot
access. The file comes parsed: `Elf` is what `xmas_elf` returns. A file
may be ill-formed, so a segment's data may be longer than its area. The
copy then runs on over pages of the new address space, and ends with a
fault at the first page that is not one of them.
-/

namespace Nimloth

open Outcome PageTable MemorySet

/-! ## The code -/

/-- A program header; numbers are those of `u64`. -/
structure ProgramHeader where
  /-- `get_type()` is `Load` -/
  isLoad : Bool
  virtualAddr : Nat
  memSize : Nat
  offset : Nat
  fileSize : Nat
  isRead : Bool
  isWrite : Bool
  isExecute : Bool

/-- `ElfFile`, for a file that parses. -/
structure Elf where
  input : List UInt8
  programHeaders : List ProgramHeader
  entryPoint : Nat

abbrev USER_STACK_SIZE : Nat := 4096 * 2

def ProgramHeader.mapPerm (ph : ProgramHeader) : MapPermission :=
  PTEFlags.U ||| (if ph.isRead then PTEFlags.R else 0) ||| (if ph.isWrite then PTEFlags.W else 0)
    ||| (if ph.isExecute then PTEFlags.X else 0)

/-- `&input[lo..hi]`. -/
def slice (input : List UInt8) (lo hi : Nat) : Option (List UInt8) :=
  if lo ≤ hi ∧ hi ≤ input.length then some ((input.drop lo).take (hi - lo)) else none

namespace MemorySet

/-- The loop of `from_elf`; `maxEndVpn` is the end of the last area. -/
def loadSegments (img : KernelImage) (elf : Elf) :
    MemorySet → Nat → List ProgramHeader → MemM (MemorySet × Nat)
  | ms, maxEndVpn, [] => pure (ms, maxEndVpn)
  | ms, maxEndVpn, ph :: phs => do
      if ph.isLoad then
        let startVa := VirtAddr.from ph.virtualAddr
        let endVa := VirtAddr.from ((ph.virtualAddr + ph.memSize) % 2 ^ 64)
        let area ← MapArea.new startVa endVa .framed ph.mapPerm
        let data ← unwrap .badElf
          (slice elf.input ph.offset ((ph.offset + ph.fileSize) % 2 ^ 64))
        let ms ← pushData img ms area data
        loadSegments img elf ms area.vpnRange.end_ phs
      else loadSegments img elf ms maxEndVpn phs

/-- The rest of `from_elf`: stack, heap and trap context. -/
def pushUserAreas (ms : MemorySet) (maxEndVpn : Nat) : MemM (MemorySet × Nat) := do
  let maxEndVa := VirtAddr.ofVpn maxEndVpn
  let userStackBottom := (VirtAddr.toUsize maxEndVa + PAGE_SIZE) % 2 ^ 64
  let userStackTop := (userStackBottom + USER_STACK_SIZE) % 2 ^ 64
  let ms ← ms.pushNew (VirtAddr.from userStackBottom) (VirtAddr.from userStackTop) .framed
    (PTEFlags.R ||| PTEFlags.W ||| PTEFlags.U)
  let ms ← ms.pushNew (VirtAddr.from userStackTop) (VirtAddr.from userStackTop) .framed
    (PTEFlags.R ||| PTEFlags.W ||| PTEFlags.U)
  let ms ← ms.pushNew (VirtAddr.from TRAP_CONTEXT) (VirtAddr.from TRAMPOLINE) .framed
    (PTEFlags.R ||| PTEFlags.W)
  pure (ms, userStackTop)

/-- `from_elf`: the address space, the top of the user stack and the entry point. -/
def fromElf (img : KernelImage) (elf : Elf) : MemM (MemorySet × Nat × Nat) := do
  let ms ← newBare
  let ms ← ms.mapTrampoline img
  let (ms, maxEndVpn) ← loadSegments img elf ms 0 elf.programHeaders
  let (ms, userStackTop) ← ms.pushUserAreas maxEndVpn
  pure (ms, userStackTop, elf.entryPoint)

end MemorySet

/-- The page of `TRAP_CONTEXT`. -/
abbrev TRAP_CONTEXT_VPN : Nat := 2 ^ 27 - 2

/-! ## User spaces -/

/-- An address space of a process: areas and page table agree, and all areas are framed. -/
structure MemorySet.UserOk (tramp : Nat) (st : MemState) (ms : MemorySet) : Prop
    extends ms.Ok tramp st where
  framed : ∀ a ∈ ms.areas, a.mapType = .framed

/-- The frames that a page without a frame of its own translates to: frame 0 and the
    trampoline. -/
def Stray (tramp p : Nat) : Prop := p = 0 ∨ p = tramp

section Specs

variable {img : KernelImage} {st : MemState} {ms : MemorySet}

/-- The address space after one more area. -/
structure Extended (img : KernelImage) (st : MemState) (ms : MemorySet) (st' : MemState)
    (ms' : MemorySet) : Prop where
  ok : ms'.UserOk img.trampoline st'
  moves : Moves (fun _ => False) st ms.frames st' ms'.frames

theorem MemorySet.Ok.userOk_of_nil {tramp : Nat} (h : ms.Ok tramp st) (hnil : ms.areas = []) :
    ms.UserOk tramp st := by
  refine ⟨h, ?_⟩
  rw [hnil]
  exact fun a ha => absurd ha List.not_mem_nil

section Pushed

variable {X : Nat → Prop} {tramp : Nat} {r : VPNRange} {perm : MapPermission} {st' : MemState}
  {ms' : MemorySet}

theorem MemorySet.Pushed.userOk (hp : Pushed X tramp st ms ⟨r, [], .framed, perm⟩ st' ms')
    (h : ms.UserOk tramp st) : ms'.UserOk tramp st' := by
  obtain ⟨a', hadded, hareas⟩ := hp.areas
  refine ⟨hp.ok, ?_⟩
  intro a ha
  rw [hareas] at ha
  rcases List.mem_append.mp ha with ha | ha
  · exact h.framed a ha
  · rw [List.mem_singleton] at ha
    exact ha ▸ hadded.type

/-- The area that is pushed is the last one. -/
theorem MemorySet.Pushed.exists_area (hp : Pushed X tramp st ms ⟨r, [], .framed, perm⟩ st' ms')
    {s e : Nat} (hs : r.start = s) (he : r.end_ = e) :
    ∃ a, ms'.areas = ms.areas ++ [a] ∧ a.vpnRange.start = s ∧ a.vpnRange.end_ = e
      ∧ a.mapPerm = perm := by
  obtain ⟨a, hadded, hareas⟩ := hp.areas
  refine ⟨a, hareas, ?_, ?_, hadded.perm⟩
  · rw [hadded.range]
    exact hs
  · rw [hadded.range]
    exact he

end Pushed

theorem Extended.of_pushed {r : VPNRange} {perm : MapPermission} {st' : MemState}
    {ms' : MemorySet} (h : ms.UserOk img.trampoline st)
    (hp : Pushed (fun _ => False) img.trampoline st ms ⟨r, [], .framed, perm⟩ st' ms') :
    Extended img st ms st' ms' :=
  ⟨hp.userOk h, hp.moves⟩

theorem Extended.trans {st₁ st₂ : MemState} {ms₁ ms₂ : MemorySet} (h : Extended img st ms st₁ ms₁)
    (h' : Extended img st₁ ms₁ st₂ ms₂) : Extended img st ms st₂ ms₂ :=
  ⟨h'.ok, h.moves.trans h'.moves⟩

theorem loadSegments_meets {elf : Elf} {phs : List ProgramHeader} {maxEndVpn : Nat}
    (h : ms.UserOk img.trampoline st) :
    Meets (fun _ => True) (loadSegments img elf ms maxEndVpn phs) st fun r st' =>
      Extended img st ms st' r.1 := by
  induction phs generalizing st ms maxEndVpn with
  | nil => exact Meets.pure_iff.mpr ⟨h, Moves.refl h.owns⟩
  | cons ph phs ih =>
      rw [loadSegments]
      by_cases hload : ph.isLoad = true
      · have hs := virtAddr_lt ph.virtualAddr
        have he := virtAddr_lt ((ph.virtualAddr + ph.memSize) % 2 ^ 64)
        have hceil := virtAddr_ceil_eq (VirtAddr.from ((ph.virtualAddr + ph.memSize) % 2 ^ 64))
        rw [if_pos hload]
        simp only [MapArea.new, Meets.bind_iff]
        refine (VPNRange.new_meets (fun _ => trivial)).mono ?_
        rintro r _ ⟨rfl, hrs, hre⟩
        refine Meets.pure_iff.mpr ?_
        cases slice elf.input ph.offset ((ph.offset + ph.fileSize) % 2 ^ 64) with
        | none => exact Meets.unwrap_none.mpr trivial
        | some data =>
            rw [Meets.unwrap_some]
            have hnew : (MapArea.mk r [] .framed ph.mapPerm).dataFrames = [] := rfl
            simp only [VirtAddr.floor, PAGE_SIZE] at hrs
            refine (pushData_meets (X := fun _ => False) hnew (by dsimp only; omega)
              (by dsimp only; omega) (fun _ => trivial) (fun _ => trivial) h.toOk h.framed rfl
              (Or.inr trivial) trivial).mono ?_
            rintro ms₁ st₁ hpush
            have hext := Extended.of_pushed h hpush
            refine (ih hext.ok).mono ?_
            rintro r st₂ hext'
            exact hext.trans hext'
      · rw [if_neg hload]
        exact ih h

/-- A push without data, with whatever outcome. -/
theorem pushNew_extends {startVa endVa : Nat} {perm : MapPermission}
    (h : ms.UserOk img.trampoline st) (hs : startVa < 2 ^ 39) (he : endVa < 2 ^ 39) :
    Meets (fun _ => True) (ms.pushNew startVa endVa .framed perm) st fun ms' st' =>
      Extended img st ms st' ms'
        ∧ ∃ a, ms'.areas = ms.areas ++ [a] ∧ a.vpnRange.start = VirtAddr.floor startVa
          ∧ a.vpnRange.end_ = VirtAddr.ceil endVa ∧ a.mapPerm = perm := by
  refine (pushNew_meets (X := fun _ => False) h.toOk hs he (fun _ => trivial)
    (fun _ => trivial) (fun _ => trivial)).mono ?_
  rintro ms' st' ⟨r, hrs, hre, hpush⟩
  exact ⟨Extended.of_pushed h hpush, hpush.exists_area hrs hre⟩

theorem floor_trapContext : VirtAddr.floor (VirtAddr.from TRAP_CONTEXT) = TRAP_CONTEXT_VPN := by
  decide

theorem ceil_trampoline : VirtAddr.ceil (VirtAddr.from TRAMPOLINE) = TRAMPOLINE_VPN := by decide

/-- The area of the trap context. -/
def HasTrapContext (ms : MemorySet) : Prop :=
  ∃ a ∈ ms.areas, a.Has TRAP_CONTEXT_VPN ∧ a.mapPerm = PTEFlags.R ||| PTEFlags.W

theorem pushUserAreas_meets {maxEndVpn : Nat} (h : ms.UserOk img.trampoline st) :
    Meets (fun _ => True) (ms.pushUserAreas maxEndVpn) st fun r st' =>
      Extended img st ms st' r.1 ∧ HasTrapContext r.1 := by
  simp only [pushUserAreas, Meets.bind_iff]
  refine (pushNew_extends h (virtAddr_lt _) (virtAddr_lt _)).mono ?_
  rintro ms₁ st₁ ⟨h₁, -⟩
  refine (pushNew_extends h₁.ok (virtAddr_lt _) (virtAddr_lt _)).mono ?_
  rintro ms₂ st₂ ⟨h₂, -⟩
  refine (pushNew_extends h₂.ok (virtAddr_lt _) (virtAddr_lt _)).mono ?_
  rintro ms₃ st₃ ⟨h₃, a, hareas, hs, he, hperm⟩
  refine Meets.pure_iff.mpr ⟨(h₁.trans h₂).trans h₃, a, by simp [hareas], ⟨?_, ?_⟩, hperm⟩
  · rw [hs]
    decide
  · rw [he]
    decide

/-- `from_elf`: an address space with the trampoline, and the areas that are pushed to it. -/
theorem fromElf_eq (img : KernelImage) (elf : Elf) :
    fromElf img elf = ((do let ms ← newBare; ms.mapTrampoline img) >>= fun ms => do
      let (ms, maxEndVpn) ← loadSegments img elf ms 0 elf.programHeaders
      let (ms, userStackTop) ← ms.pushUserAreas maxEndVpn
      pure (ms, userStackTop, elf.entryPoint)) := by
  simp only [fromElf, bind_assoc]

/-- Where the stack is then: pages 1 and 2. -/
theorem stack_pages_of_nil :
    VirtAddr.floor (VirtAddr.from ((VirtAddr.toUsize (VirtAddr.ofVpn 0) + PAGE_SIZE) % 2 ^ 64)) = 1
    ∧ VirtAddr.ceil (VirtAddr.from (((VirtAddr.toUsize (VirtAddr.ofVpn 0) + PAGE_SIZE) % 2 ^ 64
      + USER_STACK_SIZE) % 2 ^ 64)) = 3
    ∧ VirtAddr.floor (VirtAddr.from (((VirtAddr.toUsize (VirtAddr.ofVpn 0) + PAGE_SIZE) % 2 ^ 64
      + USER_STACK_SIZE) % 2 ^ 64)) = 3 := by decide

/-- A file without segments. -/
theorem fromElf_nil (img : KernelImage) {elf : Elf} (helf : elf.programHeaders = []) :
    fromElf img elf = ((do let ms ← newBare; ms.mapTrampoline img) >>= fun ms => do
      let (ms, userStackTop) ← ms.pushUserAreas 0
      pure (ms, userStackTop, elf.entryPoint)) := by
  simp only [fromElf_eq, helf, loadSegments, pure_bind]

/-- What `from_elf` returns is a user space with a trap context, in frames that were free. -/
theorem fromElf_meets {X : Nat → Prop} {elf : Elf} (hwf : st.alloc.Wf) :
    Meets (fun _ => True) (fromElf img elf) st fun r st' =>
      r.1.UserOk img.trampoline st' ∧ HasTrapContext r.1 ∧ Moves X st [] st' r.1.frames := by
  rw [fromElf_eq, Meets.bind_iff]
  refine (newUser_meets (X := fun _ => False) (Owns.nil hwf) (fun _ => trivial)).mono ?_
  rintro ms₀ st₀ ⟨hok, hnil, hm, -⟩
  have huser := hok.userOk_of_nil hnil
  rw [Meets.bind_iff]
  refine (loadSegments_meets huser).mono ?_
  rintro ⟨ms₁, maxEndVpn⟩ st₁ h₁
  dsimp only at h₁ ⊢
  rw [Meets.bind_iff]
  refine (pushUserAreas_meets h₁.ok).mono ?_
  rintro ⟨ms₂, top⟩ st₂ ⟨h₂, htrap⟩
  have hmoves := hm.trans (h₁.moves.trans h₂.moves)
  exact Meets.pure_iff.mpr ⟨h₂.ok, htrap, hmoves.weaken fun _ => False.elim⟩

/-- A push to pages that are not mapped, with enough frames, returns. -/
theorem pushNew_returns {startVa endVa : Nat} {perm : MapPermission}
    (h : ms.UserOk img.trampoline st) (hs : startVa < 2 ^ 39) (he : endVa < 2 ^ 39)
    (hle : VirtAddr.floor startVa ≤ VirtAddr.ceil endVa)
    (hav : 3 * (VirtAddr.ceil endVa - VirtAddr.floor startVa) ≤ st.alloc.available)
    (htramp : VirtAddr.ceil endVa ≤ TRAMPOLINE_VPN)
    (happart : ∀ a ∈ ms.areas, a.vpnRange.end_ ≤ VirtAddr.floor startVa) :
    Meets (fun _ => False) (ms.pushNew startVa endVa .framed perm) st fun ms' st' =>
      ms'.UserOk img.trampoline st' ∧ Moves (fun _ => False) st ms.frames st' ms'.frames
        ∧ (∃ a, ms'.areas = ms.areas ++ [a] ∧ a.vpnRange.start = VirtAddr.floor startVa
          ∧ a.vpnRange.end_ = VirtAddr.ceil endVa ∧ a.mapPerm = perm)
        ∧ st.alloc.available
          ≤ st'.alloc.available + 3 * (VirtAddr.ceil endVa - VirtAddr.floor startVa) := by
  simp only [TRAMPOLINE_VPN] at htramp
  refine (pushNew_meets (X := fun _ => False) h.toOk hs he (fun h => absurd h (by omega))
    (fun h => absurd h (by omega)) ?_).mono ?_
  · rintro ⟨v, hge, hlt, hne⟩
    rcases h.space.only v (by omega) hne with heq | ⟨a, ha, hav⟩
    · simp only [TRAMPOLINE_VPN] at heq
      omega
    · have := happart a ha
      have := hav.2
      omega
  rintro ms' st' ⟨r, hrs, hre, hpush⟩
  have hlen : r.pages.length = VirtAddr.ceil endVa - VirtAddr.floor startVa := by
    rw [VPNRange.length_pages, hrs, hre]
  refine ⟨hpush.userOk h, hpush.moves, hpush.exists_area hrs hre, ?_⟩
  rw [← hlen]
  exact hpush.avail

/-- A file without segments: the stack is pages 1 and 2. -/
theorem fromElf_no_segments {elf : Elf} (hwf : st.alloc.Wf) (helf : elf.programHeaders = [])
    (hav : 12 ≤ st.alloc.available) :
    Meets (fun _ => False) (fromElf img elf) st fun r st' =>
      r.1.UserOk img.trampoline st' ∧ HasTrapContext r.1
        ∧ Moves (fun _ => False) st [] st' r.1.frames
        ∧ st.alloc.available ≤ st'.alloc.available + 12
        ∧ ∃ a ∈ r.1.areas, a.Has 1 ∧ a.Has 2
          ∧ a.mapPerm = PTEFlags.R ||| PTEFlags.W ||| PTEFlags.U := by
  rw [fromElf_nil img helf, Meets.bind_iff]
  refine (newUser_meets (X := fun _ => False) (Owns.nil hwf)
    (fun h => absurd h (by omega))).mono ?_
  rintro ms₀ st₀ ⟨hok, hnil, hm₀, hav₀⟩
  have huser := hok.userOk_of_nil hnil
  obtain ⟨hbottom, htop, htop'⟩ := stack_pages_of_nil
  have htrap : VirtAddr.floor (VirtAddr.from TRAP_CONTEXT) = 2 ^ 27 - 2 := floor_trapContext
  have htramp : VirtAddr.ceil (VirtAddr.from TRAMPOLINE) = 2 ^ 27 - 1 := ceil_trampoline
  simp only [pushUserAreas, Meets.bind_iff]
  refine (pushNew_returns huser (virtAddr_lt _) (virtAddr_lt _) (by omega) (by omega)
    (by rw [htop]; decide) ?_).mono ?_
  · rw [hnil]
    exact fun a ha => absurd ha List.not_mem_nil
  rintro ms₁ st₁ ⟨h₁, hm₁, ⟨a₁, hareas₁, hs₁, he₁, hperm₁⟩, hav₁⟩
  rw [hbottom] at hs₁ hav₁
  rw [htop] at he₁ hav₁
  refine (pushNew_returns h₁ (virtAddr_lt _) (virtAddr_lt _) (by omega) (by omega)
    (by rw [htop]; decide) ?_).mono ?_
  · intro a ha
    rw [hareas₁, hnil, List.nil_append, List.mem_singleton] at ha
    rw [ha, he₁, htop']
  rintro ms₂ st₂ ⟨h₂, hm₂, ⟨a₂, hareas₂, hs₂, he₂, -⟩, hav₂⟩
  rw [htop'] at hs₂ hav₂
  rw [htop] at he₂ hav₂
  refine (pushNew_returns h₂ (virtAddr_lt _) (virtAddr_lt _) (by omega) (by omega)
    (by rw [htramp]) ?_).mono ?_
  · intro a ha
    rw [hareas₂, hareas₁, hnil] at ha
    simp only [List.nil_append, List.cons_append, List.mem_cons, List.not_mem_nil, or_false] at ha
    rcases ha with rfl | rfl
    · omega
    · omega
  rintro ms₃ st₃ ⟨h₃, hm₃, ⟨a₃, hareas₃, hs₃, he₃, hperm₃⟩, hav₃⟩
  have hmem : ∀ a, a = a₁ ∨ a = a₃ → a ∈ ms₃.areas := by
    rintro a (rfl | rfl)
    · simp [hareas₃, hareas₂, hareas₁]
    · simp [hareas₃]
  refine Meets.pure_iff.mpr (Meets.pure_iff.mpr ⟨h₃, ⟨a₃, hmem a₃ (Or.inr rfl), ⟨?_, ?_⟩, hperm₃⟩,
    hm₀.trans ((hm₁.trans hm₂).trans hm₃), ?_, a₁, hmem a₁ (Or.inl rfl), ⟨?_, ?_⟩, ⟨?_, ?_⟩, hperm₁⟩)
  · rw [hs₃, htrap]
  · rw [he₃, htramp]
    decide
  · omega
  · rw [hs₁]
  · rw [he₁]
    decide
  · rw [hs₁]
    decide
  · rw [he₁]
    decide

end Specs

end Nimloth
