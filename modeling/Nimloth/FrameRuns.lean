import Nimloth.FrameAllocator
import Nimloth.Runs

/-!
# Every frame is free or has one tracker

Runs of `frame_alloc` and of drops of trackers, in any order, from an
allocator that `init` gave the frames from `l` to `r`; in between the
memory changes in any way. The frames below `current` are the live and
the recycled ones, each once: `Tracked` says so as a permutation, and all
that is known about the counts follows from it.
-/

namespace Nimloth

open Outcome

/-- `frame_alloc`. -/
def MemState.frameAlloc (st : MemState) : Option (Nat × MemState) :=
  st.alloc.alloc.map fun (ppn, alloc) =>
    (ppn % 2 ^ 44, ⟨st.mem.zeroFrame (ppn % 2 ^ 44), alloc⟩)

/-! ## Runs -/

/-- Memory, allocator and the page numbers of the trackers that live. -/
structure FrameUse where
  st : MemState
  live : List Nat

inductive FrameEvent where
  | alloc
  | drop (ppn : Nat)
  /-- whoever owns a frame writes to it -/
  | write (mem : Mem)

namespace FrameUse

def init (mem : Mem) (l r : Nat) : FrameUse := ⟨⟨mem, .init l r⟩, []⟩

def Step (s : FrameUse) (e : FrameEvent) (s' : FrameUse) : Prop :=
  match e with
  | .alloc =>
      match s.st.frameAlloc with
      | some (ppn, st) => s' = ⟨st, ppn :: s.live⟩
      | none => s' = s
  | .drop ppn => ppn ∈ s.live ∧ frameDealloc ppn s.st = .ok ((), s'.st)
      ∧ s'.live = s.live.erase ppn
  | .write mem => s' = ⟨⟨mem, s.st.alloc⟩, s.live⟩

theorem step_alloc {s s' : FrameUse} {p : Nat} {b : StackFrameAllocator}
    (ha : s.st.alloc.alloc = some (p, b)) (hp : p < 2 ^ 44) :
    s.Step .alloc s' ↔ s' = ⟨⟨s.st.mem.zeroFrame p, b⟩, p :: s.live⟩ := by
  unfold Step MemState.frameAlloc
  rw [ha, Option.map_some]
  dsimp only
  rw [Nat.mod_eq_of_lt hp]

/-- The frames handed out so far are live or recycled, each once. -/
structure Tracked (l r : Nat) (s : FrameUse) : Prop where
  start : l ≤ s.st.alloc.current
  le : s.st.alloc.current ≤ s.st.alloc.end_
  end_eq : s.st.alloc.end_ = r
  perm : (s.live ++ s.st.alloc.recycled).Perm (List.range' l (s.st.alloc.current - l))

namespace Tracked

variable {l r : Nat} {s s' : FrameUse}

theorem init (mem : Mem) (h : l ≤ r) : Tracked l r (FrameUse.init mem l r) where
  start := Nat.le_refl l
  le := h
  end_eq := rfl
  perm := by
    simp only [FrameUse.init, StackFrameAllocator.init, Nat.sub_self]
    exact List.Perm.nil

theorem nodup (h : Tracked l r s) : (s.live ++ s.st.alloc.recycled).Nodup :=
  h.perm.nodup_iff.mpr List.nodup_range'

theorem bounds (h : Tracked l r s) {p : Nat} (hp : p ∈ s.live ++ s.st.alloc.recycled) :
    l ≤ p ∧ p < s.st.alloc.current := by
  have hmem := h.perm.mem_iff.mp hp
  have hstart := h.start
  rw [List.mem_range'_1] at hmem
  omega

theorem count (h : Tracked l r s) :
    s.live.length + s.st.alloc.recycled.length = s.st.alloc.current - l := by
  have hlen := h.perm.length_eq
  rw [List.length_append, List.length_range'] at hlen
  exact hlen

/-- What `alloc` hands out becomes live. -/
theorem alloc (h : Tracked l r s) {p : Nat} {b : StackFrameAllocator}
    (ha : s.st.alloc.alloc = some (p, b)) (mem : Mem) :
    p < r ∧ p ∉ s.live ∧ Tracked l r ⟨⟨mem, b⟩, p :: s.live⟩ := by
  have hstart := h.start
  have hle := h.le
  have hend := h.end_eq
  have hnodup := h.nodup
  have hperm := h.perm
  unfold StackFrameAllocator.alloc at ha
  split at ha
  · next rest hr =>
      cases ha
      have hmem : p ∈ s.live ++ s.st.alloc.recycled := by
        rw [hr]
        exact List.mem_append_right _ List.mem_cons_self
      have hp := h.bounds hmem
      rw [hr] at hnodup hperm
      have hmiddle : (s.live ++ p :: rest).Perm (p :: s.live ++ rest) := List.perm_middle
      have hfresh := List.nodup_cons.mp (hmiddle.nodup_iff.mp hnodup)
      refine ⟨by omega, fun hlive => hfresh.1 (List.mem_append_left _ hlive), hstart, hle, hend, ?_⟩
      exact hmiddle.symm.trans hperm
  · next hr =>
      split at ha
      · cases ha
      · next hc =>
          cases ha
          refine ⟨by omega, fun hlive => ?_, ?_, ?_, hend, ?_⟩
          · have hp := h.bounds (List.mem_append_left _ hlive)
            omega
          · dsimp only
            omega
          · dsimp only
            omega
          · have hlen : s.st.alloc.current + 1 - l = s.st.alloc.current - l + 1 := by omega
            have hlast : l + (s.st.alloc.current - l) = s.st.alloc.current := by omega
            rw [hr, List.append_nil] at hperm
            dsimp only
            rw [hr, List.append_nil, hlen, List.range'_1_concat, hlast]
            exact (hperm.cons _).trans (List.perm_append_singleton _ _).symm

/-- A live frame can be given back. -/
theorem dealloc (h : Tracked l r s) {p : Nat} (hp : p ∈ s.live) :
    s.st.alloc.dealloc p = some { s.st.alloc with recycled := p :: s.st.alloc.recycled } := by
  have hlt := (h.bounds (List.mem_append_left _ hp)).2
  have hnot : p ∉ s.st.alloc.recycled :=
    fun hm => (List.nodup_append.mp h.nodup).2.2 p hp p hm rfl
  refine if_neg ?_
  rintro (hge | hm)
  · omega
  · exact hnot hm

/-- The drop of its tracker. -/
theorem drop (h : Tracked l r s) {p : Nat} (hp : p ∈ s.live) :
    Tracked l r ⟨⟨s.st.mem, { s.st.alloc with recycled := p :: s.st.alloc.recycled }⟩,
      s.live.erase p⟩ where
  start := h.start
  le := h.le
  end_eq := h.end_eq
  perm := by
    refine List.Perm.trans ?_ h.perm
    refine List.perm_middle.trans ?_
    exact (List.perm_cons_erase hp).symm.append_right _

theorem frameDealloc (h : Tracked l r s) {p : Nat} (hp : p ∈ s.live) :
    frameDealloc p s.st = .ok ((),
      ⟨s.st.mem, { s.st.alloc with recycled := p :: s.st.alloc.recycled }⟩) := by
  have hmeets : Meets (fun _ => False) (Nimloth.frameDealloc p) s.st fun _ st' =>
      st' = ⟨s.st.mem, { s.st.alloc with recycled := p :: s.st.alloc.recycled }⟩ := by
    unfold Nimloth.frameDealloc
    simp only [Meets.bind_iff, Meets.get_iff]
    rw [h.dealloc hp]
    simp only [Meets.unwrap_some, Meets.set_iff]
  obtain ⟨_, st', hok, hst⟩ := hmeets.exists_ok
  rw [hok, hst]

theorem step (h : Tracked l r s) {e : FrameEvent} (hr : r ≤ 2 ^ 44) (hs : s.Step e s') :
    Tracked l r s' := by
  cases e with
  | alloc =>
      cases ha : s.st.alloc.alloc with
      | none =>
          unfold Step MemState.frameAlloc at hs
          rw [ha] at hs
          exact hs ▸ h
      | some x =>
          obtain ⟨p, b⟩ := x
          obtain ⟨hlt, -, htracked⟩ := h.alloc ha (s.st.mem.zeroFrame p)
          rw [(step_alloc ha (by omega)).mp hs]
          exact htracked
  | drop p =>
      obtain ⟨hp, hrun, hlive⟩ := hs
      rw [h.frameDealloc hp] at hrun
      obtain ⟨st, live⟩ := s'
      cases hrun
      cases hlive
      exact h.drop hp
  | write mem =>
      cases hs
      exact ⟨h.start, h.le, h.end_eq, h.perm⟩

theorem of_run {mem : Mem} {tr : List FrameEvent} (hle : l ≤ r) (hr : r ≤ 2 ^ 44)
    (hrun : Runs FrameUse.Step (FrameUse.init mem l r) tr s) : Tracked l r s :=
  hrun.invariant (init mem hle) fun _ _ _ h hs => h.step hr hs

/-- There is no frame left when all are live. -/
theorem alloc_eq_none (h : Tracked l r s) : s.st.alloc.alloc = none ↔ s.live.length = r - l := by
  have hcount := h.count
  have hstart := h.start
  have hle := h.le
  have hend := h.end_eq
  unfold StackFrameAllocator.alloc
  split
  · next hr =>
      rw [hr, List.length_cons] at hcount
      refine ⟨fun hnone => (by cases hnone), fun hlen => ?_⟩
      omega
  · next hr =>
      rw [hr, List.length_nil] at hcount
      split
      · next hc => exact ⟨fun _ => by omega, fun _ => rfl⟩
      · next hc => exact ⟨fun hnone => (by cases hnone), fun hlen => by omega⟩

end Tracked

/-- What holds of an allocator for the frames from `l` to `r` and its trackers. -/
structure Sound (l r : Nat) (s : FrameUse) : Prop where
  live_nodup : s.live.Nodup
  live_range : ∀ p ∈ s.live, l ≤ p ∧ p < r
  current_le : s.st.alloc.current ≤ s.st.alloc.end_
  count : s.live.length + s.st.alloc.recycled.length
    + (s.st.alloc.end_ - s.st.alloc.current) = r - l
  recycled_nodup : s.st.alloc.recycled.Nodup
  recycled_apart : ∀ p ∈ s.st.alloc.recycled, p ∉ s.live
  alloc_none : s.st.frameAlloc = none ↔ s.live.length = r - l
  alloc_fresh : ∀ p st, s.st.frameAlloc = some (p, st) → p ∉ s.live ∧ l ≤ p ∧ p < r
  alloc_zero : ∀ p st, s.st.frameAlloc = some (p, st) → ∀ x, x / 4096 = p → st.mem x = 0
  dealloc : ∀ p ∈ s.live, ∃ st, frameDealloc p s.st = .ok ((), st)

theorem Tracked.sound {l r : Nat} {s : FrameUse} (h : Tracked l r s) (hr : r ≤ 2 ^ 44) :
    s.Sound l r where
  live_nodup := (List.nodup_append.mp h.nodup).1
  live_range p hp := by
    have hbounds := h.bounds (List.mem_append_left _ hp)
    have hle := h.le
    have hend := h.end_eq
    omega
  current_le := h.le
  count := by
    have hcount := h.count
    have hstart := h.start
    have hle := h.le
    have hend := h.end_eq
    omega
  recycled_nodup := (List.nodup_append.mp h.nodup).2.1
  recycled_apart p hp hlive := (List.nodup_append.mp h.nodup).2.2 p hlive p hp rfl
  alloc_none := by
    rw [MemState.frameAlloc, Option.map_eq_none_iff]
    exact h.alloc_eq_none
  alloc_fresh p st hp := by
    unfold MemState.frameAlloc at hp
    obtain ⟨⟨q, b⟩, ha, heq⟩ := Option.map_eq_some_iff.mp hp
    obtain ⟨hlt, hlive, htracked⟩ := h.alloc ha s.st.mem
    have hmod : q % 2 ^ 44 = q := Nat.mod_eq_of_lt (by omega)
    cases heq
    rw [hmod]
    exact ⟨hlive, (htracked.bounds List.mem_cons_self).1, hlt⟩
  alloc_zero p st hp x hx := by
    unfold MemState.frameAlloc at hp
    obtain ⟨⟨q, b⟩, -, heq⟩ := Option.map_eq_some_iff.mp hp
    cases heq
    exact Mem.zeroFrame_apply s.st.mem hx
  dealloc p hp := ⟨_, h.frameDealloc hp⟩

end FrameUse

theorem frame_allocator_invariant {l r : Nat} {mem : Mem} {tr : List FrameEvent} {s : FrameUse}
    (hle : l ≤ r) (hr : r ≤ 2 ^ 44)
    (hrun : Runs FrameUse.Step (FrameUse.init mem l r) tr s) : s.Sound l r :=
  (FrameUse.Tracked.of_run hle hr hrun).sound hr

/-- Two frames are taken and the first one is given back: it is the next one. -/
theorem frame_allocator_invariant_reuse : ∃ s : FrameUse,
    Runs FrameUse.Step (FrameUse.init (fun _ => 7) 3 5) [.alloc, .alloc, .drop 3] s
      ∧ s.live = [4] ∧ s.st.alloc.recycled = [3] ∧ s.Sound 3 5 := by
  have htaken : Runs FrameUse.Step (FrameUse.init (fun _ => 7) 3 5) [.alloc, .alloc]
      ⟨⟨(Mem.zeroFrame (fun _ => 7) 3).zeroFrame 4, ⟨5, 5, []⟩⟩, [4, 3]⟩ :=
    Runs.snoc (Runs.single ((FrameUse.step_alloc rfl (by decide)).mpr rfl))
      ((FrameUse.step_alloc rfl (by decide)).mpr rfl)
  have htracked := FrameUse.Tracked.of_run (by decide) (by decide) htaken
  have hlive : 3 ∈ [4, 3] := by decide
  have hrun : Runs FrameUse.Step (FrameUse.init (fun _ => 7) 3 5) [.alloc, .alloc, .drop 3]
      ⟨⟨(Mem.zeroFrame (fun _ => 7) 3).zeroFrame 4, ⟨5, 5, [3]⟩⟩, [4]⟩ :=
    Runs.snoc htaken ⟨hlive, htracked.frameDealloc hlive, by decide⟩
  exact ⟨_, hrun, rfl, rfl, frame_allocator_invariant (by decide) (by decide) hrun⟩

end Nimloth
