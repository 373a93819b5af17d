import Mathlib.Data.List.Basic
import Mathlib.Data.List.Perm.Basic
import Nimloth.Memory
import Nimloth.Outcome

/-!
# The frame allocator

`os/src/mm/frame_allocator.rs`. A frame is in use while its
`FrameTracker` lives: `frame_alloc` hands out a free frame and clears it,
the drop of the tracker gives it back.

The results about memory say who holds which frames. `Owns st S`: the
frames of the list `S` are in use, each once. `Moves X st S st' S'`: from
`st` to `st'` the holder of `S` has come to hold `S'`, and every other
frame in use was not taken and kept its contents, unless it is one of `X`
(the frames that a copy beyond its area may hit). Such steps compose, and
what is said about the frames a function works on holds beside any other
frames (`Moves.frame`).
-/

namespace Nimloth

/-! ## The allocator -/

/-- `StackFrameAllocator`; the head of `recycled` is the top of the stack. -/
structure StackFrameAllocator where
  current : Nat
  end_ : Nat
  recycled : List Nat

namespace StackFrameAllocator

def init (l r : Nat) : StackFrameAllocator := ⟨l, r, []⟩

def alloc (a : StackFrameAllocator) : Option (Nat × StackFrameAllocator) :=
  match a.recycled with
  | ppn :: rest => some (ppn, { a with recycled := rest })
  | [] =>
      if a.current = a.end_ then none
      else some (a.current, { a with current := a.current + 1 })

/-- `dealloc`; `none` is its panic. -/
def dealloc (a : StackFrameAllocator) (ppn : Nat) : Option StackFrameAllocator :=
  if a.current ≤ ppn ∨ ppn ∈ a.recycled then none
  else some { a with recycled := ppn :: a.recycled }

/-- The frame may still be handed out. -/
def Free (a : StackFrameAllocator) (p : Nat) : Prop :=
  p ∈ a.recycled ∨ a.current ≤ p ∧ p < a.end_

/-- How many frames may still be handed out. -/
def available (a : StackFrameAllocator) : Nat := a.recycled.length + (a.end_ - a.current)

structure Wf (a : StackFrameAllocator) : Prop where
  nodup : a.recycled.Nodup
  recycled : ∀ p ∈ a.recycled, 0 < p ∧ p < a.current
  current : 0 < a.current
  le : a.current ≤ a.end_
  bound : a.end_ ≤ 2 ^ 44

theorem wf_init {l r : Nat} (hl : 0 < l) (hle : l ≤ r) (hr : r ≤ 2 ^ 44) : (init l r).Wf where
  nodup := List.nodup_nil
  recycled := fun _ hp => absurd hp List.not_mem_nil
  current := hl
  le := hle
  bound := hr

theorem Wf.free_lt {a : StackFrameAllocator} (h : a.Wf) {p : Nat} (hp : a.Free p) :
    0 < p ∧ p < a.end_ := by
  have hcur := h.current
  have hle := h.le
  rcases hp with hp | hp
  · have := h.recycled p hp
    omega
  · omega

theorem alloc_eq_none {a : StackFrameAllocator} (h : a.alloc = none) : a.available = 0 := by
  unfold alloc at h
  split at h
  · cases h
  · next hr =>
      split at h
      · next hc =>
          unfold available
          rw [hr, hc]
          simp
      · cases h

/-- What `alloc` hands out was free and is the only frame taken. -/
theorem Wf.alloc {a b : StackFrameAllocator} {p : Nat} (h : a.Wf) (ha : a.alloc = some (p, b)) :
    b.Wf ∧ b.end_ = a.end_ ∧ a.available = b.available + 1 ∧ a.Free p
      ∧ ∀ q, b.Free q ↔ a.Free q ∧ q ≠ p := by
  have hcur := h.current
  have hle := h.le
  unfold StackFrameAllocator.alloc at ha
  split at ha
  · next x rest hr =>
      cases ha
      have hx := h.recycled p (by simp [hr])
      have hnd := h.nodup
      rw [hr, List.nodup_cons] at hnd
      refine ⟨⟨hnd.2, ?_, hcur, hle, h.bound⟩, rfl, ?_, Or.inl (by simp [hr]), ?_⟩
      · intro q hq
        exact h.recycled q (by simp [hr, show q ∈ rest from hq])
      · simp only [available, hr, List.length_cons]
        omega
      · intro q
        simp only [Free, hr, List.mem_cons]
        by_cases hq : q = p
        · subst hq
          have : q ∉ rest := hnd.1
          simp [this]
          omega
        · simp [hq]
  · next hr =>
      split at ha
      · cases ha
      · next hc =>
          cases ha
          refine ⟨⟨h.nodup, ?_, ?_, ?_, h.bound⟩, rfl, ?_, Or.inr ⟨Nat.le_refl _, ?_⟩, ?_⟩
          · intro q hq
            simp [hr] at hq
          · show 0 < a.current + 1
            omega
          · show a.current + 1 ≤ a.end_
            omega
          · simp only [available, hr, List.length_nil]
            omega
          · omega
          · intro q
            simp only [Free, hr, List.not_mem_nil, false_or]
            omega

/-- A frame in use can be given back. -/
theorem Wf.dealloc {a : StackFrameAllocator} {p : Nat} (h : a.Wf) (hp : 0 < p)
    (hlt : p < a.end_) (hused : ¬ a.Free p) :
    ∃ b, a.dealloc p = some b ∧ b.Wf ∧ b.end_ = a.end_ ∧ b.available = a.available + 1
      ∧ ∀ q, b.Free q ↔ a.Free q ∨ q = p := by
  have hnot : p ∉ a.recycled := fun hm => hused (Or.inl hm)
  have hcur : p < a.current := by
    by_contra hge
    exact hused (Or.inr ⟨by omega, hlt⟩)
  have hle := h.le
  refine ⟨_, if_neg (by simp [hnot, hcur]), ⟨List.nodup_cons.mpr ⟨hnot, h.nodup⟩, ?_, h.current,
    hle, h.bound⟩, rfl, ?_, ?_⟩
  · intro q hq
    rcases List.mem_cons.mp hq with rfl | hq
    · exact ⟨hp, hcur⟩
    · exact h.recycled q hq
  · simp only [available, List.length_cons]
    omega
  · intro q
    simp only [Free, List.mem_cons]
    tauto

end StackFrameAllocator

/-! ## Memory with its allocator -/

structure MemState where
  mem : Mem
  alloc : StackFrameAllocator

/-- The panics of the memory code. -/
inductive MemPanic where
  /-- `frame_alloc().unwrap()` -/
  | outOfFrames
  /-- "has not been allocated" of `dealloc` -/
  | notAllocated
  /-- "is mapped before mapping" -/
  | mapped
  /-- "is not mapped" -/
  | notMapped
  /-- `find_pte(..).unwrap()` and `translate(..).unwrap()` -/
  | noTable
  /-- `data_frames.remove(..).unwrap()` -/
  | noFrame
  /-- the assertion of `SimpleRange::new` -/
  | badRange
  /-- `assert_eq!(self.map_type, MapType::Framed)` -/
  | notFramed
  /-- `assert_eq!(value.page_offset(), 0)` -/
  | notAligned
  /-- a slice index out of range, or a read of what is not an ELF file -/
  | badElf
  /-- a store where the kernel has no writable page, in `trap_from_kernel` -/
  | storeFault
  deriving DecidableEq

abbrev MemM := Outcome MemState MemPanic

open Outcome

/-- `frame_alloc().unwrap()`. -/
def frameAlloc : MemM Nat := do
  let st ← get
  let (ppn, alloc) ← unwrap .outOfFrames st.alloc.alloc
  set (MemState.mk (st.mem.zeroFrame ppn) alloc)
  pure ppn

/-- `frame_dealloc`, the drop of a `FrameTracker`. -/
def frameDealloc (ppn : Nat) : MemM Unit := do
  let st ← get
  let alloc ← unwrap .notAllocated (st.alloc.dealloc ppn)
  set { st with alloc := alloc }

/-- The drop of the trackers of a collection, in its order. -/
def dropFrames : List Nat → MemM Unit
  | [] => pure ()
  | p :: ps => do
      frameDealloc p
      dropFrames ps

/-! ## Holding frames -/

/-- The frames `S` are in use, each once. -/
structure Owns (st : MemState) (S : List Nat) : Prop where
  wf : st.alloc.Wf
  nodup : S.Nodup
  pos : ∀ p ∈ S, 0 < p
  lt : ∀ p ∈ S, p < st.alloc.end_
  used : ∀ p ∈ S, ¬ st.alloc.Free p

/-- The holder of `S` has come to hold `S'`; who holds other frames sees nothing of it. -/
structure Moves (X : Nat → Prop) (st : MemState) (S : List Nat) (st' : MemState) (S' : List Nat) :
    Prop where
  owns : Owns st' S'
  end_eq : st'.alloc.end_ = st.alloc.end_
  used : ∀ p, ¬ st.alloc.Free p → p ∉ S → ¬ st'.alloc.Free p
  apart : ∀ p, ¬ st.alloc.Free p → p ∉ S → p ∉ S'
  same : ∀ p, ¬ X p → ¬ st.alloc.Free p → p ∉ S → Mem.SameFrame st.mem st'.mem p

namespace Owns

variable {st : MemState} {S T : List Nat}

theorem perm (h : Owns st S) (hp : S.Perm T) : Owns st T where
  wf := h.wf
  nodup := hp.nodup_iff.mp h.nodup
  pos := fun p hm => h.pos p (hp.mem_iff.mpr hm)
  lt := fun p hm => h.lt p (hp.mem_iff.mpr hm)
  used := fun p hm => h.used p (hp.mem_iff.mpr hm)

theorem left (h : Owns st (S ++ T)) : Owns st S where
  wf := h.wf
  nodup := (List.nodup_append.mp h.nodup).1
  pos := fun p hm => h.pos p (List.mem_append_left _ hm)
  lt := fun p hm => h.lt p (List.mem_append_left _ hm)
  used := fun p hm => h.used p (List.mem_append_left _ hm)

theorem right (h : Owns st (S ++ T)) : Owns st T :=
  (h.perm List.perm_append_comm).left

theorem not_mem (h : Owns st (S ++ T)) {p : Nat} (hp : p ∈ T) : p ∉ S :=
  fun hs => (List.nodup_append.mp h.nodup).2.2 p hs p hp rfl

theorem nil (h : st.alloc.Wf) : Owns st [] where
  wf := h
  nodup := List.nodup_nil
  pos := fun _ hp => absurd hp List.not_mem_nil
  lt := fun _ hp => absurd hp List.not_mem_nil
  used := fun _ hp => absurd hp List.not_mem_nil

theorem lt_two_pow (h : Owns st S) {p : Nat} (hp : p ∈ S) : p < 2 ^ 44 :=
  Nat.lt_of_lt_of_le (h.lt p hp) h.wf.bound

end Owns

namespace Moves

variable {X : Nat → Prop} {st st₁ st₂ : MemState} {S S₁ S₂ T : List Nat}

theorem refl (h : Owns st S) : Moves X st S st S where
  owns := h
  end_eq := rfl
  used := fun _ hp _ => hp
  apart := fun _ _ hp => hp
  same := fun p _ _ _ => Mem.SameFrame.refl _ p

theorem trans (h : Moves X st S st₁ S₁) (h' : Moves X st₁ S₁ st₂ S₂) : Moves X st S st₂ S₂ where
  owns := h'.owns
  end_eq := h'.end_eq.trans h.end_eq
  used := fun p hp hs => h'.used p (h.used p hp hs) (h.apart p hp hs)
  apart := fun p hp hs => h'.apart p (h.used p hp hs) (h.apart p hp hs)
  same := fun p hx hp hs =>
    (h.same p hx hp hs).trans (h'.same p hx (h.used p hp hs) (h.apart p hp hs))

theorem weaken {Y : Nat → Prop} (h : Moves X st S st₁ S₁) (hX : ∀ p, X p → Y p) :
    Moves Y st S st₁ S₁ where
  owns := h.owns
  end_eq := h.end_eq
  used := h.used
  apart := h.apart
  same := fun p hy => h.same p (fun hx => hy (hX p hx))

/-- What is held beside is still held. -/
theorem frame (h : Moves X st S st₁ S₁) (ho : Owns st (S ++ T)) :
    Moves X st (S ++ T) st₁ (S₁ ++ T) where
  owns := by
    have hT := ho.right
    have hkeep : ∀ p ∈ T, ¬ st₁.alloc.Free p ∧ p ∉ S₁ := fun p hp =>
      ⟨h.used p (hT.used p hp) (ho.not_mem hp), h.apart p (hT.used p hp) (ho.not_mem hp)⟩
    refine ⟨h.owns.wf, ?_, ?_, ?_, ?_⟩
    · refine List.nodup_append.mpr ⟨h.owns.nodup, hT.nodup, ?_⟩
      intro a ha b hb hab
      subst hab
      exact (hkeep a hb).2 ha
    · intro p hp
      rcases List.mem_append.mp hp with hp | hp
      · exact h.owns.pos p hp
      · exact hT.pos p hp
    · intro p hp
      rcases List.mem_append.mp hp with hp | hp
      · exact h.owns.lt p hp
      · rw [h.end_eq]
        exact hT.lt p hp
    · intro p hp
      rcases List.mem_append.mp hp with hp | hp
      · exact h.owns.used p hp
      · exact (hkeep p hp).1
  end_eq := h.end_eq
  used := fun p hp hs => h.used p hp (fun hm => hs (List.mem_append_left _ hm))
  apart := fun p hp hs hm => by
    rcases List.mem_append.mp hm with hm | hm
    · exact h.apart p hp (fun hm => hs (List.mem_append_left _ hm)) hm
    · exact hs (List.mem_append_right _ hm)
  same := fun p hx hp hs => h.same p hx hp (fun hm => hs (List.mem_append_left _ hm))

theorem perm {T₁ : List Nat} (h : Moves X st S st₁ S₁) (hp : S.Perm T) (hp' : S₁.Perm T₁) :
    Moves X st T st₁ T₁ where
  owns := h.owns.perm hp'
  end_eq := h.end_eq
  used := fun p hu hs => h.used p hu (fun hm => hs (hp.mem_iff.mp hm))
  apart := fun p hu hs hm => h.apart p hu (fun hm => hs (hp.mem_iff.mp hm)) (hp'.mem_iff.mpr hm)
  same := fun p hx hu hs => h.same p hx hu (fun hm => hs (hp.mem_iff.mp hm))

/-- A frame that has come to be held was free. -/
theorem was_free (h : Moves X st S st₁ S₁) {p : Nat} (hp : p ∈ S₁) (hs : p ∉ S) :
    st.alloc.Free p := by
  by_contra hfree
  exact h.apart p hfree hs hp

/-- A change of the memory within frames held. -/
theorem of_same {m : Mem} (h : Owns st S)
    (hm : ∀ p, ¬ X p → p ∉ S → Mem.SameFrame st.mem m p) :
    Moves X st S { st with mem := m } S where
  owns := ⟨h.wf, h.nodup, h.pos, h.lt, h.used⟩
  end_eq := rfl
  used := fun _ hp _ => hp
  apart := fun _ _ hp => hp
  same := fun p hx _ hs => hm p hx hs

end Moves

section

variable {X : Nat → Prop} {E : MemPanic → Prop} {st : MemState} {S : List Nat}

theorem frameAlloc_meets (h : Owns st S)
    (hE : st.alloc.available < 1 → E .outOfFrames) :
    Meets E frameAlloc st fun p st' =>
      Moves X st S st' (p :: S) ∧ st.alloc.Free p ∧ st'.mem = st.mem.zeroFrame p
        ∧ st.alloc.available = st'.alloc.available + 1 := by
  unfold frameAlloc
  simp only [Meets.bind_iff, Meets.get_iff]
  cases ha : st.alloc.alloc with
  | none =>
      rw [Meets.unwrap_none]
      refine hE ?_
      rw [StackFrameAllocator.alloc_eq_none ha]
      exact Nat.one_pos
  | some r =>
      obtain ⟨p, b⟩ := r
      simp only [Meets.unwrap_some, Meets.set_iff, Meets.pure_iff]
      obtain ⟨hwf, hend, havail, hfree, hiff⟩ := h.wf.alloc ha
      obtain ⟨hpos, hlt⟩ := h.wf.free_lt hfree
      have hpS : p ∉ S := fun hm => h.used p hm hfree
      refine ⟨⟨⟨hwf, List.nodup_cons.mpr ⟨hpS, h.nodup⟩, ?_, ?_, ?_⟩, hend, ?_, ?_, ?_⟩, hfree, trivial,
        havail⟩
      · rintro q hq
        rcases List.mem_cons.mp hq with rfl | hq
        · exact hpos
        · exact h.pos q hq
      · rintro q hq
        rcases List.mem_cons.mp hq with rfl | hq
        · exact hend ▸ hlt
        · exact hend ▸ h.lt q hq
      · rintro q hq hqf
        rcases List.mem_cons.mp hq with rfl | hq
        · exact ((hiff q).mp hqf).2 rfl
        · exact h.used q hq ((hiff q).mp hqf).1
      · intro q hq _ hqf
        exact hq ((hiff q).mp hqf).1
      · intro q hq hqs hm
        rcases List.mem_cons.mp hm with rfl | hm
        · exact hq hfree
        · exact hqs hm
      · intro q _ hq _
        refine Mem.sameFrame_zeroFrame _ ?_
        rintro rfl
        exact hq hfree

/-- While no frame was given back the next one is `current`. -/
theorem frameAlloc_bump (st : MemState) :
    Meets (fun _ => True) frameAlloc st fun p st' => st.alloc.recycled = [] →
      p = st.alloc.current ∧ st'.alloc.recycled = []
        ∧ st'.alloc.current = st.alloc.current + 1 := by
  unfold frameAlloc
  simp only [Meets.bind_iff, Meets.get_iff]
  cases ha : st.alloc.alloc with
  | none => exact Meets.unwrap_none.mpr trivial
  | some r =>
      simp only [Meets.unwrap_some, Meets.set_iff, Meets.pure_iff]
      intro hnil
      unfold StackFrameAllocator.alloc at ha
      rw [hnil] at ha
      dsimp only at ha
      split at ha
      · cases ha
      · cases ha
        exact ⟨rfl, rfl, rfl⟩

theorem frameDealloc_meets {p : Nat} (h : Owns st (p :: S)) :
    Meets E (frameDealloc p) st fun _ st' =>
      Moves X st (p :: S) st' S ∧ st'.mem = st.mem
        ∧ st'.alloc.available = st.alloc.available + 1 := by
  have hmem : p ∈ p :: S := List.mem_cons_self
  obtain ⟨b, hb, hwf, hend, havail, hiff⟩ :=
    h.wf.dealloc (h.pos p hmem) (h.lt p hmem) (h.used p hmem)
  obtain ⟨hpS, hnd⟩ := List.nodup_cons.mp h.nodup
  unfold frameDealloc
  simp only [Meets.bind_iff, Meets.get_iff]
  rw [hb]
  simp only [Meets.unwrap_some, Meets.set_iff]
  have hmem' : ∀ q ∈ S, q ∈ p :: S := fun q hq => List.mem_cons_of_mem _ hq
  refine ⟨⟨⟨hwf, hnd, fun q hq => h.pos q (hmem' q hq), ?_, ?_⟩, hend, ?_, ?_, ?_⟩, trivial, havail⟩
  · intro q hq
    exact hend ▸ h.lt q (hmem' q hq)
  · intro q hq hqf
    rcases (hiff q).mp hqf with hqf | rfl
    · exact h.used q (hmem' q hq) hqf
    · exact hpS hq
  · intro q hq hqs hqf
    rcases (hiff q).mp hqf with hqf | rfl
    · exact hq hqf
    · exact hqs hmem
  · intro q _ hqs hm
    exact hqs (hmem' q hm)
  · intro q _ _ _
    exact Mem.SameFrame.refl _ q

theorem dropFrames_meets {ps : List Nat} (h : Owns st (ps ++ S)) :
    Meets E (dropFrames ps) st fun _ st' => Moves X st (ps ++ S) st' S ∧ st'.mem = st.mem := by
  induction ps generalizing st with
  | nil => exact Meets.pure_iff.mpr ⟨Moves.refl h, rfl⟩
  | cons p ps ih =>
      rw [dropFrames, Meets.bind_iff]
      refine (frameDealloc_meets (X := X) h).mono ?_
      rintro _ st₁ ⟨hm, hmem, _⟩
      refine (ih hm.owns).mono ?_
      rintro _ st₂ ⟨hm', hmem'⟩
      exact ⟨hm.trans hm', hmem'.trans hmem⟩

end

end Nimloth
