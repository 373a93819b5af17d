import Nimloth.Sv39
import Nimloth.Walkable

/-!
# What the processor reads in the kernel's page tables

With nothing but pointers above the last level (`Pointers`) the walk of
the hardware finds the entry that `find_pte` does (`translate_iff`), and
its flags decide. From that, for every state that creation, `fork`,
`exec`, exit and reaping lead to: what a program in user mode reaches is
exactly what the areas of its process say, in frames that nobody else
has (`user_access`).
-/

namespace Nimloth

open RiscV PageTable MemorySet

/-! ## The walk -/

namespace Sv39

variable {m : Mem} {root : Nat} {va : Nat}

theorem isValid_iff (e : PageTableEntry) : e.isValid = true ↔ flags e.bits &&& V ≠ 0 := by
  unfold PageTableEntry.isValid PTEFlags.has
  rw [bne_iff_ne]
  rfl

/-- An entry that leads to a table. -/
theorem pointer_valid {f : Nat} (hf : f < 2 ^ 44) :
    Valid (PageTableEntry.new f PTEFlags.V).bits
      ∧ ¬ Leaf (flags (PageTableEntry.new f PTEFlags.V).bits) := by
  have hflags : flags (PageTableEntry.new f PTEFlags.V).bits = V := PageTableEntry.flags_new hf _
  have hbits := PageTableEntry.new_bits hf PTEFlags.V
  have hv : PTEFlags.V.toNat = 1 := rfl
  refine ⟨⟨?_, ?_, ?_⟩, ?_⟩
  · rw [hflags]
    decide
  · omega
  · rw [hflags]
    decide
  · rw [hflags]
    decide

theorem walk_pointer {is : List Nat} {n i level : Nat} (hp : Pointers m root)
    (his : IsPath (is ++ [i])) (hn : node m root is = some n)
    (hi : va / 2 ^ (12 + 9 * (level + 1)) % 512 = i) :
    walk m va (level + 1) n
      = if (m.entry n i).isValid then walk m va level (m.entry n i).ppn else none := by
  rw [walk, hi]
  have hpte : m.pte n i = (m.entry n i).bits := rfl
  rw [hpte]
  by_cases hv : (m.entry n i).isValid = true
  · obtain ⟨f, hf, he⟩ := hp is n i his hn hv
    rw [if_pos hv, he]
    obtain ⟨hvalid, hleaf⟩ := pointer_valid hf
    rw [if_pos hvalid, if_neg hleaf, PageTableEntry.ppn_eq]
    rfl
  · rw [if_neg hv, if_neg]
    exact fun hvalid => hv ((isValid_iff _).mpr hvalid.1)

/-- The walk ends where `find_pte` does. -/
theorem walk_eq (hp : Pointers m root) :
    walk m va 2 root = (node m root (vpnPath (va / 4096))).bind fun n =>
      if Valid (m.entry n (va / 4096 % 512)).bits ∧ Leaf (m.entry n (va / 4096 % 512)).flags then
        some ((m.entry n (va / 4096 % 512)).bits, 0)
      else none := by
  have hpath := vpnPath_isPath (va / 4096)
  have hsplit : vpnPath (va / 4096) = [va / 4096 / 2 ^ 18 % 512] ++ [va / 4096 / 2 ^ 9 % 512] := rfl
  have hroot : node m root [] = some root := rfl
  have hempty : IsPath ([] ++ [va / 4096 / 2 ^ 18 % 512]) := (hsplit ▸ hpath).left
  rw [walk_pointer hp hempty hroot (by omega), hsplit, node_append, node]
  split
  · next hv =>
      have hnode : node m root [va / 4096 / 2 ^ 18 % 512]
          = some (m.entry root (va / 4096 / 2 ^ 18 % 512)).ppn := by
        rw [node, if_pos hv, node]
      rw [walk_pointer hp (hsplit ▸ hpath) hnode (by omega), node, Option.bind_some, node]
      split
      · rw [node, Option.bind_some, walk]
        have hlow : va / 2 ^ (12 + 9 * 0) % 512 = va / 4096 % 512 := by omega
        rw [hlow]
        split
        · next hvalid =>
            split
            · next hleaf =>
                rw [if_pos ⟨hvalid, hleaf⟩]
                rfl
            · next hleaf => rw [if_neg fun h => hleaf h.2]
        · next hvalid => rw [if_neg fun h => hvalid h.1]
      · rfl
  · rfl

/-- The hardware goes where the entry of the page says, if its flags let it. -/
theorem translate_iff {pt : PageTable} {v : Regime} {va : UInt64} {a : Access} {pa : Nat}
    (hp : Pointers m pt.rootPpn) (hmode : satpMode v.satp = 8)
    (hroot : v.satp.toNat % 2 ^ 44 = pt.rootPpn) :
    translate m v va a = some pa ↔ Canonical va ∧ ∃ e, pt.lookup m (va.toNat / 4096) = some e
      ∧ e.bits < 2 ^ 54 ∧ Permits v e.flags a ∧ pa = e.ppn * 4096 + va.toNat % 4096 := by
  have hne : ¬ satpMode v.satp = 0 := by
    rw [hmode]
    decide
  unfold translate
  rw [if_neg hne, hroot, walk_eq hp, lookup_eq]
  by_cases hcan : Canonical va
  · rw [if_pos ⟨hmode, hcan⟩]
    cases node m pt.rootPpn (vpnPath (va.toNat / 4096)) with
    | none => simp
    | some n =>
        simp only [Option.bind_some]
        generalize m.entry n (va.toNat / 4096 % 512) = e
        have hpow : 2 ^ (9 * 0) = 1 := by decide
        have hpow' : 2 ^ (12 + 9 * 0) = 4096 := by decide
        have hflags : flags e.bits = e.flags := rfl
        have hppn : ppn e.bits = e.ppn := (PageTableEntry.ppn_eq e).symm
        have hvalid : Valid e.bits ↔ e.isValid = true ∧ e.bits < 2 ^ 54
            ∧ (e.flags &&& W ≠ 0 → e.flags &&& R ≠ 0) := by
          rw [isValid_iff]
          rfl
        constructor
        · intro h
          obtain ⟨leaf, hleaf, hpa⟩ := Option.bind_eq_some_iff.mp h
          split at hleaf
          · next hboth =>
              obtain ⟨hv, hl⟩ := hboth
              obtain rfl := (Option.some.inj hleaf).symm
              obtain ⟨hv₁, hv₂, hv₃⟩ := hvalid.mp hv
              dsimp only at hpa
              rw [hflags, hppn, hpow, hpow'] at hpa
              split at hpa
              · next hg =>
                  refine ⟨hcan, e, if_pos hv₁, hv₂, ⟨hv₃, hl, hg.1⟩, ?_⟩
                  exact (Option.some.inj hpa).symm
              · cases hpa
          · cases hleaf
        · rintro ⟨-, e', he', hbits, ⟨hw, hl, hg⟩, rfl⟩
          split at he'
          · next hv =>
              obtain rfl := Option.some.inj he'
              rw [if_pos ⟨hvalid.mpr ⟨hv, hbits, hw⟩, hl⟩, Option.bind_some]
              dsimp only
              rw [hflags, hppn, hpow, hpow', if_pos ⟨hg, Nat.mod_one _⟩]
          · cases he'
  · rw [if_neg fun h => hcan h.2]
    simp [hcan]

end Sv39

/-! ## Tokens and flags -/

theorem satp_token {pt : PageTable} (h : pt.rootPpn < 2 ^ 44) :
    satpMode (UInt64.ofNat pt.token) = 8
      ∧ (UInt64.ofNat pt.token).toNat % 2 ^ 44 = pt.rootPpn := by
  have htoken : pt.token = 2 ^ 63 + pt.rootPpn := by
    have hor := Nat.two_pow_add_eq_or_of_lt (show pt.rootPpn < 2 ^ 63 by omega) 1
    unfold PageTable.token
    rw [Nat.mul_one] at hor
    exact hor.symm
  have hnat : (UInt64.ofNat pt.token).toNat = pt.token := by
    rw [UInt64.toNat_ofNat']
    exact Nat.mod_eq_of_lt (by omega)
  refine ⟨UInt64.toNat_inj.mp ?_, ?_⟩
  · have hsix : (60 : UInt64).toNat % 64 = 60 := by decide
    have height : (8 : UInt64).toNat = 8 := by decide
    rw [satpMode, UInt64.toNat_shiftRight, hnat, hsix, height, Nat.shiftRight_eq_div_pow]
    omega
  · rw [hnat]
    omega

theorem and_or_V (f g : UInt8) (hg : PTEFlags.V &&& g = 0) :
    (f ||| PTEFlags.V) &&& g = f &&& g := by
  refine UInt8.toBitVec_inj.mp ?_
  have hzero := congrArg UInt8.toBitVec hg
  simp only [UInt8.toBitVec_and, UInt8.toBitVec_or] at hzero ⊢
  rw [BitVec.and_or_distrib_right, hzero]
  exact BitVec.or_zero

/-- That an entry is valid says nothing about what it permits. -/
theorem permits_or_V (v : Regime) (f : UInt8) (a : Sv39.Access) :
    Sv39.Permits v (f ||| PTEFlags.V) a ↔ Sv39.Permits v f a := by
  have hR := and_or_V f Sv39.R (by decide)
  have hW := and_or_V f Sv39.W (by decide)
  have hX := and_or_V f Sv39.X (by decide)
  have hU := and_or_V f Sv39.U (by decide)
  unfold Sv39.Permits Sv39.Leaf
  cases a with
  | fetch => simp only [Sv39.Grants, hR, hW, hX, hU]
  | load => simp only [Sv39.Grants, hR, hW, hX, hU]
  | store => simp only [Sv39.Grants, hR, hW, hX, hU]

/-- The trampoline is no page of the user. -/
theorem trampoline_denied {v : Regime} (hv : v.mode = .user) (a : Sv39.Access) :
    ¬ Sv39.Permits v (PTEFlags.R ||| PTEFlags.X ||| PTEFlags.V) a := by
  have hU : (PTEFlags.R ||| PTEFlags.X ||| PTEFlags.V) &&& Sv39.U = 0 := by decide
  rintro ⟨-, -, hg⟩
  cases a with
  | fetch =>
      rw [Sv39.Grants, if_pos hv] at hg
      exact hg.2 hU
  | load =>
      rw [Sv39.Grants, if_pos hv] at hg
      exact hg.2 hU
  | store =>
      rw [Sv39.Grants, if_pos hv] at hg
      exact hg.2 hU

theorem bits_lt {p : Nat} (hp : p < 2 ^ 44) (f : UInt8) :
    (PageTableEntry.new p f).bits < 2 ^ 54 := by
  have hf := f.toNat_lt
  rw [PageTableEntry.new_bits hp]
  omega

theorem pageOf_toNat (va : UInt64) : pageOf va.toNat = va.toNat / 4096 % 2 ^ 27 := by
  rw [pageOf_eq]
  omega

/-- The page and the offset are all there is of an address. -/
theorem canonical_inj {a a' : UInt64} (h : Sv39.Canonical a) (h' : Sv39.Canonical a')
    (hpage : pageOf a.toNat = pageOf a'.toNat) (hoff : a.toNat % 4096 = a'.toNat % 4096) :
    a = a' := by
  have hlt := a.toNat_lt
  have hlt' := a'.toNat_lt
  rw [pageOf_toNat, pageOf_toNat] at hpage
  refine UInt64.toNat_inj.mp ?_
  rcases h with h | h <;> rcases h' with h' | h' <;> omega

theorem lookup_mod (m : Mem) (pt : PageTable) (v : Nat) :
    pt.lookup m (v % 2 ^ 27) = pt.lookup m v := by
  unfold PageTable.lookup
  rw [translate_mod]

/-- The page of a frame. -/
theorem MapArea.Ok.has_of_mem {a : MapArea} {v n : Nat} (h : a.Ok) (hn : (v, n) ∈ a.dataFrames) :
    a.Has v := by
  have hmem : v ∈ a.keys := List.mem_map_of_mem hn
  rw [h.keys] at hmem
  split at hmem
  · exact VPNRange.mem_pages.mp hmem
  · exact absurd hmem List.not_mem_nil

/-- An address space as the hardware walks it. -/
structure MemorySet.Walked (tramp : Nat) (m : Mem) (ms : MemorySet) : Prop where
  pointers : ms.Pointers m
  space : Space tramp m ms.pageTable ms.areas
  root : ms.pageTable.rootPpn < 2 ^ 44

namespace MemorySet.Walked

variable {tramp : Nat} {m m' : Mem} {ms : MemorySet} {r : Regime} {va : UInt64} {a : Sv39.Access}
  {pa : Nat}

theorem congr (h : Walked tramp m ms) (hs : ∀ n ∈ ms.pageTable.frames, Mem.SameFrame m m' n) :
    Walked tramp m' ms where
  pointers := Pointers.congr h.pointers h.space.tree hs
  space := h.space.congr hs
  root := h.root

/-- What a page is for the hardware. -/
theorem translate_iff (h : Walked tramp m ms) (hsatp : r.satp = UInt64.ofNat ms.token) :
    Sv39.translate m r va a = some pa ↔ Sv39.Canonical va
      ∧ ∃ e, ms.pageTable.lookup m (pageOf va.toNat) = some e
        ∧ e.bits < 2 ^ 54 ∧ Sv39.Permits r e.flags a ∧ pa = e.ppn * 4096 + va.toNat % 4096 := by
  obtain ⟨hmode, hroot⟩ := satp_token h.root
  rw [pageOf_toNat, lookup_mod]
  refine Sv39.translate_iff h.pointers ?_ ?_
  · rw [hsatp]
    exact hmode
  · rw [hsatp]
    exact hroot

end MemorySet.Walked

/-! ## User mode -/

/-- The regime of a program, whatever else is in the status register. -/
def ProcessSpace.regime (p : ProcessSpace) (sstatus : UInt64) : Regime :=
  ⟨.user, UInt64.ofNat p.memorySet.token, sstatus⟩

namespace Walkable

variable {img : KernelImage} {s : Machine} {i : Nat} {p : ProcessSpace}

theorem walked (h : Walkable img s) (hp : p ∈ s.procs) (hz : p.zombie = false) :
    p.memorySet.Walked img.trampoline s.st.mem :=
  ⟨h.traced.sets _ (Machine.mem_sets hp), (h.ok.userOk hp hz).space, (h.ok.userOk hp hz).rootPpn_lt⟩

theorem walked_kernel (h : Walkable img s) : s.kernel.Walked img.trampoline s.st.mem :=
  ⟨h.traced.kernel, h.ok.kernelOk.space, h.ok.kernelOk.rootPpn_lt⟩

theorem user_translate_iff (h : Walkable img s) (hp : p ∈ s.procs) (hz : p.zombie = false)
    {sstatus : UInt64} {va : UInt64} {a : Sv39.Access} {pa : Nat} :
    Sv39.translate s.st.mem (p.regime sstatus) va a = some pa ↔ Sv39.Canonical va
      ∧ ∃ area ∈ p.memorySet.areas, ∃ n, (pageOf va.toNat, n) ∈ area.dataFrames
        ∧ Sv39.Permits (p.regime sstatus) area.mapPerm a
        ∧ pa = n * 4096 + va.toNat % 4096 := by
  have huser := h.ok.userOk hp hz
  have hlt : ∀ n ∈ dataPpns p.memorySet.areas, n < 2 ^ 44 :=
    fun n hn => huser.owns.lt_two_pow (List.mem_append_right _ hn)
  rw [(h.walked hp hz).translate_iff rfl]
  refine and_congr_right fun _ => ⟨?_, ?_⟩
  · rintro ⟨e, he, -, hperm, rfl⟩
    have hne : p.memorySet.pageTable.lookup s.st.mem (pageOf va.toNat) ≠ none := by
      rw [he]
      exact Option.some_ne_none e
    rcases huser.space.only _ (pageOf_lt _) hne with heq | ⟨area, harea, hav⟩
    · rw [heq, huser.space.trampoline] at he
      cases he
      rw [trampolineEntry, PageTableEntry.flags_new img.trampoline_lt_two_pow] at hperm
      exact absurd hperm (trampoline_denied rfl a)
    · obtain ⟨n, e', hn, hdata, he', rfl, hppn⟩ :=
        framed_page huser.space harea (huser.framed area harea) hav hlt
      rw [he] at he'
      cases he'
      rw [PageTableEntry.flags_new (hlt n hdata), permits_or_V] at hperm
      exact ⟨area, harea, n, mem_of_lookup hn, hperm, by rw [hppn]⟩
  · rintro ⟨area, harea, n, hn, hperm, rfl⟩
    have hok := huser.space.ok area harea
    have hav := hok.has_of_mem hn
    obtain ⟨n', e, hn', hdata, he, rfl, hppn⟩ :=
      framed_page huser.space harea (huser.framed area harea) hav hlt
    obtain rfl : n' = n := by
      have hinj := List.inj_on_of_nodup_map hok.nodup_keys (mem_of_lookup hn') hn rfl
      exact congrArg Prod.snd hinj
    refine ⟨_, he, bits_lt (hlt n' hdata) _, ?_, by rw [hppn]⟩
    rw [PageTableEntry.flags_new (hlt n' hdata), permits_or_V]
    exact hperm

/-- Frames of one process: behind the kernel, and nobody else's. -/
theorem data_apart (h : Walkable img s) (hp : s.procs[i]? = some p) {n : Nat}
    (hn : n ∈ dataPpns p.memorySet.areas) :
    img.ekernel ≤ n * 4096 ∧ n < MEMORY_END_PPN ∧ ¬ s.st.alloc.Free n ∧ n ∉ s.kernel.frames
      ∧ n ∉ s.tables ∧ ∀ j q, j ≠ i → s.procs[j]? = some q → n ∉ q.memorySet.frames := by
  have hmem := List.mem_of_getElem? hp
  have hframe : n ∈ p.memorySet.frames := List.mem_append_right _ hn
  have hall := Machine.Ok.mem_frames hmem hframe
  refine ⟨h.traced.above n (Or.inr hall), ?_, h.ok.owns.used n hall, ?_, ?_,
    fun j q hne hq hnq => h.ok.frames_apart hp hq hne hframe hnq⟩
  · have hlt := h.ok.owns.lt n hall
    rwa [h.traced.end_] at hlt
  · intro hk
    have hset : n ∈ s.sets.frames := Machine.mem_sets_frames hp hframe
    exact h.ok.owns.not_mem hset hk
  · exact Holds.data_apart h.ok (Machine.mem_sets hmem) hn

end Walkable

/-- What a program in user mode reaches, in every state that the events lead to. -/
theorem user_access {img : KernelImage} {s₀ s : Machine} {tr : List ProcessEvent}
    (hboot : Machine.Boot img s₀) (hrun : Runs (FittingStep img) s₀ tr s) {i : Nat}
    {p : ProcessSpace} (hp : s.procs[i]? = some p) (hz : p.zombie = false) (sstatus va : UInt64)
    (a : Sv39.Access) (pa : Nat) :
    (Sv39.translate s.st.mem (p.regime sstatus) va a = some pa ↔ Sv39.Canonical va
      ∧ ∃ area ∈ p.memorySet.areas, ∃ n, (pageOf va.toNat, n) ∈ area.dataFrames
        ∧ Sv39.Permits (p.regime sstatus) area.mapPerm a ∧ pa = n * 4096 + va.toNat % 4096)
    ∧ (Sv39.translate s.st.mem (p.regime sstatus) va a = some pa →
      img.ekernel ≤ pa ∧ pa < MEMORY_END ∧ ¬ s.st.alloc.Free (pa / 4096)
        ∧ pa / 4096 ∉ s.kernel.frames ∧ pa / 4096 ∉ s.tables
        ∧ ∀ j q, j ≠ i → s.procs[j]? = some q → pa / 4096 ∉ q.memorySet.frames) := by
  have h := Walkable.runs hboot hrun
  have hmem := List.mem_of_getElem? hp
  have hiff : Sv39.translate s.st.mem (p.regime sstatus) va a = some pa ↔ _ :=
    h.user_translate_iff hmem hz
  refine ⟨hiff, fun htr => ?_⟩
  obtain ⟨-, area, harea, n, hn, -, rfl⟩ := hiff.mp htr
  obtain ⟨h₁, h₂, h₃, h₄, h₅, h₆⟩ := h.data_apart hp (Machine.Ok.mem_data harea hn)
  have hdiv : (n * 4096 + va.toNat % 4096) / 4096 = n := by omega
  have hoffset : n * 4096 + va.toNat % 4096 < (n + 1) * 4096 := by
    clear h₂
    omega
  rw [hdiv]
  refine ⟨h₁.trans (Nat.le_add_right _ _), ?_, h₃, h₄, h₅, h₆⟩
  exact hoffset.trans_le (Nat.mul_le_mul_right _ h₂)

/-- The first program stores on its stack. -/
theorem user_access_store : ∃ (s : Machine) (p : ProcessSpace) (pa : Nat), p ∈ s.procs
    ∧ Sv39.translate s.st.mem (p.regime 0) 0x1000 .store = some pa
    ∧ pa / 4096 ∉ s.kernel.frames := by
  obtain ⟨s₀, s, p, f, hboot, hstep, hinv, hprocs, hz, -, -, -, -, -, hstacked⟩ := exists_program
  have hp : s.procs[0]? = some p := by
    rw [hprocs]
    rfl
  have hmem := List.mem_of_getElem? hp
  have huser := hinv.ok.userOk hmem hz
  obtain ⟨a, ha, hav, hentry⟩ := hstacked.page
  obtain ⟨n, e, hn, hdata, he, hnew, -⟩ := framed_page huser.space ha (huser.framed a ha) hav
    fun n hn => huser.owns.lt_two_pow (List.mem_append_right _ hn)
  have hlt := huser.owns.lt_two_pow (List.mem_append_right _ hdata)
  obtain ⟨-, -, -, hf⟩ := hstacked.lookup hinv.ok hmem hz
  have hflt := huser.owns.lt_two_pow (List.mem_append_right _ hf)
  have hperm : a.mapPerm ||| PTEFlags.V
      = PTEFlags.R ||| PTEFlags.W ||| PTEFlags.U ||| PTEFlags.V := by
    rw [huser.space.own a ha 1 hav, hentry] at he
    have hflags := congrArg PageTableEntry.flags ((Option.some.inj he).trans hnew)
    rw [PageTableEntry.flags_new hflt, PageTableEntry.flags_new hlt] at hflags
    exact hflags.symm
  obtain ⟨hiff, hreach⟩ := user_access hboot (Runs.single hstep) hp hz 0 0x1000 .store
    (n * 4096 + (0x1000 : UInt64).toNat % 4096)
  have htr := hiff.mpr ⟨by decide, a, ha, n, mem_of_lookup hn, ?_, rfl⟩
  · exact ⟨s, p, _, hmem, htr, (hreach htr).2.2.2.1⟩
  · rw [← permits_or_V, hperm]
    refine ⟨by decide, by decide, by decide, ?_⟩
    rw [ProcessSpace.regime, if_pos rfl]
    decide

end Nimloth
