import Nimloth.Encoding
import Nimloth.SysExec
import Nimloth.TrapContexts
import Nimloth.UserNames

/-!
# The arguments of `main`

`_start` of `user/src/lib.rs` is the first code of a program. It finds
its arguments where `exec` has put them, and makes the slices that `main`
gets. Its loads go through the page tables of the process as the
processor walks them, so with `exec_start` a program gets the strings
that the kernel read from the memory of the old one, in their order. That
needs a stack in the lower half of the address space: `from_elf` puts the
stack above the segments, and does not see to it that the upper bits of an
address agree. It also needs room: below the strings for what the compiled
`_start` puts on the stack, and on the heap of the program for its vector.
What `_start` has stored by then, there or elsewhere, is left open.
-/

namespace Nimloth

open Outcome RiscV PageTable MemorySet

/-! ## The code -/

/-- What a program can do at an address: load a byte, load a word, store. -/
structure UserMode where
  byte : UInt64 → Option UInt8
  word : UInt64 → Option UInt64
  store : UInt64 → Bool

/-- A byte, as the processor loads it. -/
def userByte (m : Mem) (v : Regime) (va : UInt64) : Option UInt8 :=
  (Sv39.translate m v va .load).map m

section Code

/-- The search for the zero, from `i` on. -/
def strLen (byte : UInt64 → Option UInt8) (strStart : UInt64) : Nat → Nat → Option Nat
  | 0, _ => none
  | fuel + 1, i => do
      let b ← byte (strStart + UInt64.ofNat i)
      if b = 0 then pure i else strLen byte strStart fuel (i + 1)

/-- `from_raw_parts`. -/
def rawParts (byte : UInt64 → Option UInt8) (data : UInt64) : Nat → Option (List UInt8)
  | 0 => some []
  | len + 1 => do
      let b ← byte data
      let bs ← rawParts byte (data + 1) len
      pure (b :: bs)

end Code

section Start

variable (byte : UInt64 → Option UInt8) (word : UInt64 → Option UInt64)

/-- One round of the loop. -/
def startArg (fuel : Nat) (argv : UInt64) (i : Nat) : Option String := do
  let strStart ← word (argv + UInt64.ofNat (i * 8))
  let len ← strLen byte strStart fuel 0
  let bytes ← rawParts byte strStart len
  String.fromUTF8? ⟨bytes.toArray⟩

/-- The loop of `_start` from argument `i` on, with `n` arguments to go. -/
def startLoop (fuel : Nat) (argv : UInt64) : Nat → Nat → Option (List String)
  | _, 0 => some []
  | i, n + 1 => do
      let s ← startArg byte word fuel argv i
      let v ← startLoop fuel argv (i + 1) n
      pure (s :: v)

end Start

/-- `_start`: what `main` is called with. The compiled code takes `frame` bytes below `sp`, and `v`
    its buffers, of 16 bytes for a `&str`, from a heap that has those of the sizes in `heap`. -/
def start (u : UserMode) (heap : Nat → Bool) (frame fuel : Nat) (sp argc argv : UInt64) :
    Option (List String) :=
  if (∀ k < frame, u.store (sp - UInt64.ofNat (k + 1)))
      ∧ HasRoom heap (vecBuffers 16 argc.toNat) then
    startLoop u.byte u.word fuel argv 0 argc.toNat
  else none

/-! ## Arguments in memory -/

/-- The program loads what is mapped from `lo` to before `hi`. -/
structure Loads (byte : UInt64 → Option UInt8) (word : UInt64 → Option UInt64) (m : Mem)
    (pt : PageTable) (lo hi : Nat) : Prop where
  byte : ∀ va b, lo ≤ va → va < hi → byteAt m pt va = some b → byte (UInt64.ofNat va) = some b
  word : ∀ va n, lo ≤ va → va + 8 ≤ hi → va % 8 = 0 → HoldsAt m pt va (leBytes 8 n) →
    word (UInt64.ofNat va) = some (UInt64.ofNat n)

section Placed

variable {byte : UInt64 → Option UInt8} {word : UInt64 → Option UInt64} {m : Mem} {pt : PageTable}
  {lo hi va fuel i : Nat} {bs : List UInt8}

end Placed

/-! ## What the kernel reads -/

section Loads

variable {img : KernelImage} {s : Machine} {p : ProcessSpace}

/-- The bits of an entry above the page number are reserved. -/
theorem Walkable.bits_lt (h : Walkable img s) (hp : p ∈ s.procs) (hz : p.zombie = false) {v : Nat}
    {e : PageTableEntry} (hv : v < 2 ^ 27)
    (he : p.memorySet.pageTable.lookup s.st.mem v = some e) : e.bits < 2 ^ 54 := by
  have huser := h.ok.userOk hp hz
  have hlt : ∀ n ∈ dataPpns p.memorySet.areas, n < 2 ^ 44 :=
    fun n hn => huser.owns.lt_two_pow (List.mem_append_right _ hn)
  have hne : p.memorySet.pageTable.lookup s.st.mem v ≠ none := by
    rw [he]
    exact Option.some_ne_none e
  rcases huser.space.only _ hv hne with rfl | ⟨area, harea, hav⟩
  · rw [huser.space.trampoline] at he
    cases he
    exact Nimloth.bits_lt img.trampoline_lt_two_pow _
  · obtain ⟨n, e', -, hdata, he', rfl, -⟩ :=
      framed_page huser.space harea (huser.framed area harea) hav hlt
    rw [he] at he'
    cases he'
    exact Nimloth.bits_lt (hlt n hdata) _

/-- User mode may load from the pages of a stack, and store to them. -/
theorem stack_permits (p : ProcessSpace) (sstatus : UInt64) {a : Sv39.Access}
    (ha : a = .load ∨ a = .store) :
    Sv39.Permits (p.regime sstatus) (PTEFlags.R ||| PTEFlags.W ||| PTEFlags.U ||| PTEFlags.V)
      a := by
  refine ⟨fun _ => by decide, Or.inl (by decide), ?_⟩
  have huser : (p.regime sstatus).mode = .user := rfl
  rcases ha with rfl | rfl
  · rw [Sv39.Grants, if_pos huser]
    exact ⟨Or.inl (by decide), by decide⟩
  · rw [Sv39.Grants, if_pos huser]
    exact ⟨by decide, by decide⟩

/-- Where an access in the lower half goes, on pages such as those of a stack. -/
theorem Walkable.stack (h : Walkable img s) (hp : p ∈ s.procs) (hz : p.zombie = false)
    (sstatus : UInt64) {a : Sv39.Access} (ha : a = .load ∨ a = .store) {va : Nat}
    {e : PageTableEntry} (hva : va < 2 ^ 38)
    (he : p.memorySet.pageTable.lookup s.st.mem (pageOf va) = some e)
    (hflags : e.flags = PTEFlags.R ||| PTEFlags.W ||| PTEFlags.U ||| PTEFlags.V) :
    Sv39.translate s.st.mem (p.regime sstatus) (UInt64.ofNat va) a
      = some (e.ppn * 4096 + va % 4096) := by
  have hnat : (UInt64.ofNat va).toNat = va := by
    rw [UInt64.toNat_ofNat']
    exact Nat.mod_eq_of_lt (by omega)
  rw [(h.walked hp hz).translate_iff rfl, Sv39.Canonical, hnat]
  refine ⟨Or.inl hva, e, he, h.bits_lt hp hz (pageOf_lt va) he, ?_, rfl⟩
  rw [hflags]
  exact stack_permits p sstatus ha

/-- A program loads the bytes that are mapped on such pages. -/
theorem Walkable.loads (h : Walkable img s) (hp : p ∈ s.procs) (hz : p.zombie = false)
    (d : Sv39.Decoder) (sstatus : UInt64) {lo hi : Nat} (hhi : hi ≤ 2 ^ 38)
    (hpages : ∀ va, lo ≤ va → va < hi →
      ∃ e, p.memorySet.pageTable.lookup s.st.mem (pageOf va) = some e
        ∧ e.flags = PTEFlags.R ||| PTEFlags.W ||| PTEFlags.U ||| PTEFlags.V) :
    Loads (userByte s.st.mem (p.regime sstatus)) ((Sv39.bus d).load s.st.mem (p.regime sstatus))
      s.st.mem p.memorySet.pageTable lo hi := by
  have huser := h.ok.userOk hp hz
  refine ⟨fun va b hlo hva hb => ?_, fun va n hlo hva halign hheld => ?_⟩
  · obtain ⟨e, he, hflags⟩ := hpages va hlo hva
    rw [userByte, h.stack hp hz sstatus (Or.inl rfl) (by omega) he hflags]
    rw [byteAt, physAt, he] at hb
    exact hb
  · obtain ⟨e, he, hflags⟩ := hpages va hlo (by omega)
    have hnat : (UInt64.ofNat va).toNat = va := by
      rw [UInt64.toNat_ofNat']
      exact Nat.mod_eq_of_lt (by omega)
    have hpos : ∀ v e, v < 2 ^ 27 → p.memorySet.pageTable.lookup s.st.mem v = some e → 0 < e.ppn :=
      fun v e hv he => ppn_pos huser img.trampoline_pos img.trampoline_lt_two_pow hv he
    obtain ⟨pa, hpa, hword⟩ := readWord_holds huser.rootPpn_lt hpos halign hheld
    -- the kernel's walk ends at the same address
    have heq : pa = e.ppn * 4096 + va % 4096 := by
      rw [Nat.mod_eq_of_lt (by omega), translatedRef, translatedPtr_eq huser.rootPpn_lt,
        translate_of_lookup he] at hpa
      have hppn := hpos _ _ (pageOf_lt va) he
      have hne : ¬ (e.ppn = 0 ∧ va % 4096 = 0) := fun hzero => Nat.ne_of_gt hppn hzero.1
      dsimp only at hpa
      rw [if_neg hne] at hpa
      exact (Option.some.inj hpa).symm
    dsimp only [Sv39.bus]
    rw [hnat, if_pos halign, h.stack hp hz sstatus (Or.inl rfl) (by omega) he hflags,
      Option.map_some, ← heq, Sv39.word, hword]
    exact congrArg some (UInt64.toNat_inj.mp (by simp))

end Loads

/-! ## What the program has stored -/

/-- `m'` is what stores of process `p` make of memory `m`. None of them is to an address from `lo` to
    before `hi`. -/
def StoresOutside (p : ProcessSpace) (sstatus : UInt64) (lo hi : Nat) (m m' : Mem) : Prop :=
  ∀ x, m' x ≠ m x → ∃ va : UInt64, ¬ (lo ≤ va.toNat ∧ va.toNat < hi)
    ∧ Sv39.translate m (p.regime sstatus) va .store = some x

section Stores

variable {img : KernelImage} {s : Machine} {i lo hi : Nat} {p : ProcessSpace} {sstatus : UInt64}
  {m : Mem}

/-- No page table is among what a program stores to. -/
theorem StoresOutside.tables (hm : StoresOutside p sstatus lo hi s.st.mem m) (h : Walkable img s)
    (hp : s.procs[i]? = some p) (hz : p.zombie = false) :
    ∀ n ∈ s.tables, Mem.SameFrame s.st.mem m n := by
  intro n hn x hx
  by_contra hne
  obtain ⟨va, -, htr⟩ := hm x hne
  obtain ⟨-, a, ha, k, hk, -, rfl⟩ := (h.user_translate_iff (List.mem_of_getElem? hp) hz).mp htr
  obtain ⟨-, -, -, -, hnot, -⟩ := h.data_apart hp (Machine.Ok.mem_data ha hk)
  obtain rfl : k = n := by omega
  exact hnot hn

/-- A page has its frame for itself, so what is between `lo` and `hi` stays. -/
theorem StoresOutside.kept (hm : StoresOutside p sstatus lo hi s.st.mem m) (h : Walkable img s)
    (hp : p ∈ s.procs) (hz : p.zombie = false) {va : UInt64} {a : Sv39.Access} {x : Nat}
    (hlo : lo ≤ va.toNat) (hhi : va.toNat < hi)
    (htr : Sv39.translate s.st.mem (p.regime sstatus) va a = some x) : m x = s.st.mem x := by
  by_contra hne
  obtain ⟨va', hout, hstore⟩ := hm x hne
  obtain ⟨hcan, b, hb, n, hn, -, rfl⟩ := (h.user_translate_iff hp hz).mp htr
  obtain ⟨hcan', b', hb', n', hn', -, heq⟩ := (h.user_translate_iff hp hz).mp hstore
  obtain rfl : n' = n := by omega
  have hpage := (h.ok.userOk hp hz).page_unique hb hb' hn hn'
  obtain rfl := canonical_inj hcan hcan' hpage (by omega)
  exact hout ⟨hlo, hhi⟩

end Stores

section Witness

variable {img : KernelImage} {s : Machine} {p : ProcessSpace} {f : Nat}

theorem Stacked.entry (h : Stacked s.st.mem p f) (hok : s.Ok img) (hp : p ∈ s.procs)
    (hz : p.zombie = false) : p.memorySet.pageTable.lookup s.st.mem 1
      = some (PageTableEntry.new f (PTEFlags.R ||| PTEFlags.W ||| PTEFlags.U ||| PTEFlags.V)) := by
  obtain ⟨a, ha, hav, hentry⟩ := h.page
  exact ((hok.userOk hp hz).space.own a ha 1 hav).trans hentry

theorem Stacked.holds (hstacked : Stacked s.st.mem p f) (hok : s.Ok img) (hp : p ∈ s.procs)
    (hz : p.zombie = false) {m : Mem} {bs : List UInt8} (hs : s.st.mem = m.write (f * 4096) bs)
    (hlen : bs.length ≤ 4096) : HoldsAt s.st.mem p.memorySet.pageTable 0x1000 bs := by
  obtain ⟨-, -, -, hf⟩ := hstacked.lookup hok hp hz
  have hflt := (hok.userOk hp hz).owns.lt_two_pow (List.mem_append_right _ hf)
  intro j b hb
  have hj := (List.getElem?_eq_some_iff.mp hb).1
  have hpage : pageOf (0x1000 + j) = 1 := by
    rw [pageOf_eq]
    omega
  have hoff : (0x1000 + j) % 4096 = j := by omega
  rw [byteAt, physAt, hpage, hstacked.entry hok hp hz, Option.map_some, Option.map_some,
    PageTableEntry.ppn_new hflt, hoff, hs, Mem.write_inside _ (by omega) (by omega),
    Nat.add_sub_cancel_left, List.getD_eq_getElem?_getD, hb, Option.getD_some]

end Witness

end Nimloth
