import Mathlib.Logic.Function.Basic
import Nimloth.PageTableMap
import Nimloth.Runs

/-!
# A page table is a finite map

Runs of `map` and `unmap` on a fresh page table, while other code
allocates frames and writes to those that are not the table's. The
abstract state `PageMap` has for each page what its last `map` was given;
`Represents` ties the two together, one clause for each page.

A page that is not mapped may have an entry all the same, if a page near
to it was mapped once: `translate` returns it, but it is not valid.
`lookup` is the translation without such entries.
-/

namespace Nimloth

open Outcome PageTable

/-! ## The abstract map -/

/-- Frame and flags of each mapped page. -/
abbrev PageMap := Nat → Option (Nat × PTEFlags)

inductive PageEvent where
  | map (vpn ppn : Nat) (flags : PTEFlags)
  | unmap (vpn : Nat)
  /-- other code, which leads to this memory and allocator -/
  | other (st : MemState)

/-- `map` and `unmap` with their assertions. -/
def PageMap.Step (M : PageMap) (e : PageEvent) (M' : PageMap) : Prop :=
  match e with
  | .map vpn ppn flags => M vpn = none ∧ M' = Function.update M vpn (some (ppn, flags))
  | .unmap vpn => M vpn ≠ none ∧ M' = Function.update M vpn none
  | .other _ => M' = M

/-! ## The page table -/

structure PageState where
  st : MemState
  pt : PageTable

/-- Other code keeps off the frames of the page table. -/
def PageState.Step (s : PageState) (e : PageEvent) (s' : PageState) : Prop :=
  match e with
  | .map vpn ppn flags =>
      vpn < 2 ^ 27 ∧ ppn < 2 ^ 44 ∧ s.pt.map vpn ppn flags s.st = .ok (s'.pt, s'.st)
  | .unmap vpn => vpn < 2 ^ 27 ∧ s.pt.unmap vpn s.st = .ok ((), s'.st) ∧ s'.pt = s.pt
  | .other st => (∀ p ∈ s.pt.frames, Mem.SameFrame s.st.mem st.mem p) ∧ Owns st s.pt.frames
      ∧ s' = ⟨st, s.pt⟩

/-- The entry that `map` writes. -/
def pageEntry (x : Nat × PTEFlags) : PageTableEntry := PageTableEntry.new x.1 (x.2 ||| PTEFlags.V)

/-- `unmap` of a page that is not mapped panics. -/
theorem lookup_ne_none_of_unmap {st st' : MemState} {pt : PageTable} {vpn : Nat}
    (hrun : pt.unmap vpn st = .ok ((), st')) : pt.lookup st.mem vpn ≠ none := by
  intro hlook
  have hmeets : Meets (fun _ => True) (pt.unmap vpn) st fun _ _ => False := by
    simp only [PageTable.unmap, Meets.bind_iff, Meets.get_iff]
    rw [lookup_eq] at hlook
    rw [findPte_eq]
    cases hn : node st.mem pt.rootPpn (vpnPath vpn) with
    | none => exact Meets.unwrap_none.mpr trivial
    | some n =>
        rw [hn, Option.bind_some] at hlook
        simp only [Option.map_some, Meets.unwrap_some, Meets.ensure_iff]
        refine ⟨fun hv => ?_, fun _ => trivial⟩
        rw [if_pos hv] at hlook
        cases hlook
  exact hmeets.ok hrun

structure Represents (s : PageState) (M : PageMap) : Prop where
  tree : Tree s.st.mem s.pt
  owns : Owns s.st s.pt.frames
  lookup : ∀ v, v < 2 ^ 27 → s.pt.lookup s.st.mem v = (M v).map pageEntry
  lt : ∀ v x, M v = some x → x.1 < 2 ^ 44

namespace Represents

variable {s s' : PageState} {M M' : PageMap} {vpn ppn : Nat} {flags : PTEFlags}

theorem new {st : MemState} (hwf : st.alloc.Wf)
    (h : PageTable.new st = .ok (s.pt, s.st)) : Represents s fun _ => none := by
  obtain ⟨htree, hm, hnone, -⟩ := (new_meets (X := fun _ => False) (E := fun _ => True)
    (Owns.nil hwf) fun _ => trivial).ok h
  exact ⟨htree, hm.owns, fun v _ => lookup_of_translate_eq_none (hnone v), fun v x hx => by cases hx⟩

theorem lookup_eq_none (h : Represents s M) (hvpn : vpn < 2 ^ 27) :
    s.pt.lookup s.st.mem vpn = none ↔ M vpn = none := by
  rw [h.lookup vpn hvpn, Option.map_eq_none_iff]

/-- `map`: with two frames, it fails only for a page that is mapped. -/
theorem map_meets (h : Represents s M) (hvpn : vpn < 2 ^ 27) (hppn : ppn < 2 ^ 44)
    {E : MemPanic → Prop} (hE : s.st.alloc.available < 2 → E .outOfFrames)
    (hmapped : M vpn ≠ none → E .mapped) :
    Meets E (s.pt.map vpn ppn flags) s.st fun pt' st' => M vpn = none
      ∧ Represents ⟨st', pt'⟩ (Function.update M vpn (some (ppn, flags)))
      ∧ s.st.alloc.available ≤ st'.alloc.available + 2 := by
  refine (PageTable.map_meets (X := fun _ => False) (k := 2) h.tree h.owns hvpn hppn
    (fun _ => Nat.le_refl 2) hE fun hne => hmapped (mt (h.lookup_eq_none hvpn).mpr hne)).mono ?_
  rintro pt' st' ⟨hg, hnone, hlook⟩
  refine ⟨(h.lookup_eq_none hvpn).mp hnone, ⟨hg.tree, hg.moves.owns, ?_, ?_⟩, hg.avail⟩
  · intro v hv
    rw [hlook v hv]
    by_cases hvv : v = vpn
    · rw [if_pos hvv, hvv, Function.update_self]
      rfl
    · rw [if_neg hvv, Function.update_of_ne hvv]
      exact h.lookup v hv
  · intro v x hx
    by_cases hvv : v = vpn
    · rw [hvv, Function.update_self] at hx
      cases hx
      exact hppn
    · rw [Function.update_of_ne hvv] at hx
      exact h.lt v x hx

/-- `unmap` of a page that is mapped. -/
theorem unmap_meets (h : Represents s M) (hvpn : vpn < 2 ^ 27) (hmapped : M vpn ≠ none)
    {E : MemPanic → Prop} : Meets E (s.pt.unmap vpn) s.st fun _ st' =>
      Represents ⟨st', s.pt⟩ (Function.update M vpn none) := by
  obtain ⟨e, he⟩ := Option.ne_none_iff_exists'.mp (mt (h.lookup_eq_none hvpn).mp hmapped)
  refine (PageTable.unmap_meets (X := fun _ => False) h.tree h.owns hvpn he).mono ?_
  rintro _ st' ⟨htree, hm, -, hlook⟩
  refine ⟨htree, hm.owns, ?_, ?_⟩
  · intro v hv
    rw [hlook v hv]
    by_cases hvv : v = vpn
    · rw [if_pos hvv, hvv, Function.update_self]
      rfl
    · rw [if_neg hvv, Function.update_of_ne hvv]
      exact h.lookup v hv
  · intro v x hx
    by_cases hvv : v = vpn
    · rw [hvv, Function.update_self] at hx
      cases hx
    · rw [Function.update_of_ne hvv] at hx
      exact h.lt v x hx

/-- With two frames, a page that is not mapped can be mapped. -/
theorem exists_map (h : Represents s M) (hvpn : vpn < 2 ^ 27) (hppn : ppn < 2 ^ 44)
    (hnone : M vpn = none) (hav : 2 ≤ s.st.alloc.available) (flags : PTEFlags) :
    ∃ s', s.Step (.map vpn ppn flags) s'
      ∧ Represents s' (Function.update M vpn (some (ppn, flags)))
      ∧ s.st.alloc.available ≤ s'.st.alloc.available + 2 := by
  have hmeets : Meets (fun _ => False) (s.pt.map vpn ppn flags) s.st fun pt' st' => _ :=
    h.map_meets hvpn hppn (fun hlt => absurd hav (Nat.not_le.mpr hlt)) fun hne => hne hnone
  obtain ⟨pt', st', hok, -, h', hav'⟩ := hmeets.exists_ok
  exact ⟨⟨st', pt'⟩, ⟨hvpn, hppn, hok⟩, h', hav'⟩

theorem mapped_of_unmap (h : Represents s M) (hvpn : vpn < 2 ^ 27) {st' : MemState}
    (hrun : s.pt.unmap vpn s.st = .ok ((), st')) : M vpn ≠ none :=
  fun hnone => lookup_ne_none_of_unmap hrun ((h.lookup_eq_none hvpn).mpr hnone)

/-- Other code that leaves the frames of the table. -/
theorem other (h : Represents s M) {st : MemState}
    (hs : ∀ p ∈ s.pt.frames, Mem.SameFrame s.st.mem st.mem p) (ho : Owns st s.pt.frames) :
    Represents ⟨st, s.pt⟩ M where
  tree := h.tree.congr hs
  owns := ho
  lookup v hv := (h.tree.lookup_congr hs v).trans (h.lookup v hv)
  lt := h.lt

theorem step (h : Represents s M) {e : PageEvent} (hs : s.Step e s') :
    ∃ M', Represents s' M' ∧ M.Step e M' := by
  cases e with
  | map vpn ppn flags =>
      obtain ⟨hvpn, hppn, hrun⟩ := hs
      obtain ⟨hnone, hrep, -⟩ := (h.map_meets (E := fun _ => True) hvpn hppn (fun _ => trivial)
        fun _ => trivial).ok hrun
      exact ⟨_, hrep, hnone, rfl⟩
  | unmap vpn =>
      obtain ⟨hvpn, hrun, hpt⟩ := hs
      have hmapped := h.mapped_of_unmap hvpn hrun
      have hrep := (h.unmap_meets (E := fun _ => True) hvpn hmapped).ok hrun
      rw [← hpt] at hrep
      exact ⟨_, hrep, hmapped, rfl⟩
  | other st =>
      obtain ⟨hsame, ho, rfl⟩ := hs
      exact ⟨M, h.other hsame ho, rfl⟩

theorem translate_of_mapped (h : Represents s M) (hvpn : vpn < 2 ^ 27)
    (hM : M vpn = some (ppn, flags)) : ∃ e, s.pt.translate s.st.mem vpn = some e
      ∧ e.ppn = ppn ∧ e.flags = flags ||| PTEFlags.V := by
  have hlook := h.lookup vpn hvpn
  rw [hM, Option.map_some] at hlook
  have hlt : ppn < 2 ^ 44 := h.lt vpn _ hM
  exact ⟨_, translate_of_lookup hlook, PageTableEntry.ppn_new hlt _, PageTableEntry.flags_new hlt _⟩

theorem translate_of_not_mapped (h : Represents s M) (hvpn : vpn < 2 ^ 27) (hM : M vpn = none)
    {e : PageTableEntry} (he : s.pt.translate s.st.mem vpn = some e) : e.isValid = false := by
  rcases h.tree.translate_cases he with hlook | rfl
  · rw [(h.lookup_eq_none hvpn).mpr hM] at hlook
    cases hlook
  · exact PageTableEntry.isValid_empty

/-- A view from the token walks the same tables. -/
theorem fromToken (h : Represents s M) (v : Nat) :
    (PageTable.fromToken s.pt.token).translate s.st.mem v = s.pt.translate s.st.mem v := by
  have hroot : s.pt.rootPpn < 2 ^ 44 :=
    h.owns.lt_two_pow (h.tree.mem [] _ isPath_nil rfl)
  rw [translate_eq, translate_eq, fromToken_token hroot]

end Represents

/-! ## Runs -/

theorem page_table_refines_map {st : MemState} {s₀ s : PageState} {tr : List PageEvent}
    (hwf : st.alloc.Wf) (hnew : PageTable.new st = .ok (s₀.pt, s₀.st))
    (hrun : Runs PageState.Step s₀ tr s) :
    ∃ M : PageMap, Runs PageMap.Step (fun _ => none) tr M
      ∧ (∀ v ppn flags, v < 2 ^ 27 → M v = some (ppn, flags) →
        ∃ e, s.pt.translate s.st.mem v = some e ∧ e.ppn = ppn ∧ e.flags = flags ||| PTEFlags.V)
      ∧ (∀ v e, v < 2 ^ 27 → M v = none → s.pt.translate s.st.mem v = some e → e.isValid = false)
      ∧ (∀ v, (fromToken s.pt.token).translate s.st.mem v = s.pt.translate s.st.mem v)
      ∧ (∀ vpn ppn flags, vpn < 2 ^ 27 → ppn < 2 ^ 44 → M vpn = none →
        2 ≤ s.st.alloc.available → ∃ pt' st', s.pt.map vpn ppn flags s.st = .ok (pt', st')
          ∧ ∀ v, v < 2 ^ 27 → v ≠ vpn → pt'.lookup st'.mem v = s.pt.lookup s.st.mem v)
      ∧ ∀ vpn, vpn < 2 ^ 27 → M vpn ≠ none → ∃ st', s.pt.unmap vpn s.st = .ok ((), st')
        ∧ ∀ v, v < 2 ^ 27 → v ≠ vpn → s.pt.lookup st'.mem v = s.pt.lookup s.st.mem v := by
  have hsim : ∀ a e b M, Represents a M → a.Step e b →
      ∃ M', Represents b M' ∧ PageMap.Step M e M' := fun _ _ _ _ h hs => h.step hs
  have hinit : Represents s₀ fun _ => none := Represents.new hwf hnew
  obtain ⟨M, h, hM⟩ := hrun.simulation hsim hinit
  -- a state for a map that differs at one page
  have hother : ∀ pt' st' {vpn : Nat} {x : Option (Nat × PTEFlags)},
      Represents ⟨st', pt'⟩ (Function.update M vpn x) → ∀ v, v < 2 ^ 27 → v ≠ vpn →
        pt'.lookup st'.mem v = s.pt.lookup s.st.mem v := by
    intro pt' st' vpn x h' v hv hne
    have hlook := h'.lookup v hv
    rw [Function.update_of_ne hne, ← h.lookup v hv] at hlook
    exact hlook
  refine ⟨M, hM, fun v ppn flags hv hMv => h.translate_of_mapped hv hMv,
    fun v e hv hMv he => h.translate_of_not_mapped hv hMv he, h.fromToken, ?_, ?_⟩
  · intro vpn ppn flags hvpn hppn hnone hav
    obtain ⟨s', ⟨-, -, hok⟩, h', -⟩ := h.exists_map hvpn hppn hnone hav flags
    exact ⟨s'.pt, s'.st, hok, hother s'.pt s'.st h'⟩
  · intro vpn hvpn hmapped
    obtain ⟨_, st', hok, h'⟩ := Meets.exists_ok (h.unmap_meets hvpn hmapped)
    exact ⟨st', hok, hother s.pt st' h'⟩

/-- A fresh page table with one page. -/
theorem page_table_refines_map_one : ∃ s₀ s tr,
    PageTable.new ⟨fun _ => 0, .init 1 10⟩ = .ok (s₀.pt, s₀.st) ∧ Runs PageState.Step s₀ tr s
      ∧ ∃ e, s.pt.translate s.st.mem 5 = some e ∧ e.ppn = 100
        ∧ e.flags = PTEFlags.R ||| PTEFlags.V := by
  have hwf : (StackFrameAllocator.init 1 10).Wf :=
    StackFrameAllocator.wf_init (by decide) (by decide) (by decide)
  have howns : Owns ⟨fun _ => 0, .init 1 10⟩ [] := Owns.nil hwf
  obtain ⟨pt₀, st₀, hnew, -, -, -, hav⟩ := Meets.exists_ok
    (new_meets (X := fun _ => False) howns fun hlt => absurd hlt (by decide))
  have htotal : (StackFrameAllocator.init 1 10).available = 9 := by decide
  have hrun₀ : Runs PageState.Step ⟨st₀, pt₀⟩ [] ⟨st₀, pt₀⟩ := Runs.nil _
  obtain ⟨M₀, hM₀, -, -, -, hmap, -⟩ := page_table_refines_map hwf hnew hrun₀
  rw [hM₀.nil_inv] at hmap
  obtain ⟨pt, st, hok, -⟩ := hmap 5 100 PTEFlags.R (by decide) (by decide) rfl (by
    dsimp only at hav ⊢
    omega)
  have hrun : Runs PageState.Step ⟨st₀, pt₀⟩ [.map 5 100 PTEFlags.R] ⟨st, pt⟩ :=
    Runs.single ⟨by decide, by decide, hok⟩
  obtain ⟨M, hM, hmapped, -⟩ := page_table_refines_map hwf hnew hrun
  refine ⟨⟨st₀, pt₀⟩, ⟨st, pt⟩, _, hnew, hrun, hmapped 5 100 PTEFlags.R (by decide) ?_⟩
  rw [hM.single_inv.2, Function.update_self]

end Nimloth
