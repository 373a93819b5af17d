import Nimloth.KernelAccess

/-!
# Memory for the block device

`VirtioHal` of `os/src/drivers/block/virtio_blk.rs`. A buffer for the
device is a range of frames that were taken one by one, and an assertion
says that each is the one after the last. The allocator hands out what was
given back before it goes on to new frames, the last one first
(`StackFrameAllocator.order`), so that is a matter of the order in which
frames were given back: `dma_alloc_iff`. `dma_dealloc` gives them back
upwards, and so the next frames come downwards.

The device is told physical addresses. `virt_to_phys` finds them by the
walk in software, which agrees with that of the processor
(`dma_buffer_mapped`).
-/

namespace Nimloth

open Outcome PageTable MemorySet

/-! ## The order of frames -/

namespace StackFrameAllocator

/-- The frames in the order in which they will be handed out. -/
def order (a : StackFrameAllocator) : List Nat :=
  a.recycled ++ List.range' a.current (a.end_ - a.current)

variable {a b : StackFrameAllocator} {p : Nat}

theorem length_order (a : StackFrameAllocator) : a.order.length = a.available := by
  rw [order, List.length_append, List.length_range', available]

theorem mem_order (h : a.Wf) : p ∈ a.order ↔ a.Free p := by
  have hle := h.le
  rw [order, List.mem_append, List.mem_range'_1, Free]
  refine or_congr_right ⟨fun hp => ⟨hp.1, ?_⟩, fun hp => ⟨hp.1, ?_⟩⟩
  · omega
  · omega

theorem nodup_order (h : a.Wf) : a.order.Nodup := by
  refine List.nodup_append.mpr ⟨h.nodup, List.nodup_range', fun p hp q hq hpq => ?_⟩
  have hlt := (h.recycled p hp).2
  have hle := (List.mem_range'_1.mp hq).1
  omega

theorem alloc_nil (h : a.Wf) (hnil : a.order = []) : a.alloc = none := by
  have hle := h.le
  obtain ⟨hr, hrange⟩ := List.append_eq_nil_iff.mp hnil
  have hzero := List.range'_eq_nil_iff.mp hrange
  rw [alloc, hr]
  exact if_pos (by omega)

theorem alloc_cons (h : a.Wf) {ps : List Nat} (hcons : a.order = p :: ps) :
    ∃ b, a.alloc = some (p, b) ∧ b.Wf ∧ b.end_ = a.end_ ∧ b.order = ps := by
  have hle := h.le
  have hsome : ∃ b, a.alloc = some (p, b) ∧ b.order = ps := by
    rw [order] at hcons
    rw [alloc]
    cases hr : a.recycled with
    | cons q rest =>
        rw [hr, List.cons_append, List.cons.injEq] at hcons
        obtain ⟨rfl, hps⟩ := hcons
        exact ⟨_, rfl, hps⟩
    | nil =>
        rw [hr, List.nil_append] at hcons
        cases hn : a.end_ - a.current with
        | zero =>
            rw [hn] at hcons
            cases hcons
        | succ n =>
            rw [hn, List.range'_succ, List.cons.injEq] at hcons
            obtain ⟨rfl, hps⟩ := hcons
            refine ⟨_, if_neg (by omega), ?_⟩
            have hleft : a.end_ - (a.current + 1) = n := by omega
            rw [order]
            dsimp only
            rw [List.nil_append, hleft, hps]
  obtain ⟨b, hb, horder⟩ := hsome
  obtain ⟨hwf, hend, -⟩ := h.alloc hb
  exact ⟨b, hb, hwf, hend, horder⟩

/-- What is given back comes first. -/
theorem order_dealloc (hb : a.dealloc p = some b) : b.order = p :: a.order := by
  unfold dealloc at hb
  split at hb
  · cases hb
  · cases hb
    rfl

end StackFrameAllocator

theorem frameAlloc_nil {st : MemState} (h : st.alloc.Wf) (hnil : st.alloc.order = []) :
    frameAlloc st = .error .outOfFrames := by
  have hmeets : Meets (fun e => e = .outOfFrames) frameAlloc st fun _ _ => False := by
    unfold frameAlloc
    simp only [Meets.bind_iff, Meets.get_iff]
    rw [StackFrameAllocator.alloc_nil h hnil]
    exact Meets.unwrap_none.mpr rfl
  cases hrun : frameAlloc st with
  | error e => rw [hmeets.of_error hrun]
  | ok r => exact (hmeets.ok hrun).elim

theorem frameAlloc_cons {st : MemState} (h : st.alloc.Wf) {p : Nat} {ps : List Nat}
    (hcons : st.alloc.order = p :: ps) :
    ∃ b, frameAlloc st = .ok (p, ⟨st.mem.zeroFrame p, b⟩) ∧ b.Wf ∧ b.end_ = st.alloc.end_
      ∧ b.order = ps := by
  obtain ⟨b, hb, hwf, hend, horder⟩ := StackFrameAllocator.alloc_cons h hcons
  have hmeets : Meets (fun _ => False) frameAlloc st fun q st' =>
      q = p ∧ st' = ⟨st.mem.zeroFrame p, b⟩ := by
    unfold frameAlloc
    simp only [Meets.bind_iff, Meets.get_iff]
    rw [hb]
    simp only [Meets.unwrap_some, Meets.set_iff, Meets.pure_iff, and_self]
  obtain ⟨_, _, hrun, rfl, rfl⟩ := hmeets.exists_ok
  exact ⟨b, hrun, hwf, hend, horder⟩

/-! ## The code -/

/-- `QUEUE_FRAMES` beside the memory. -/
structure HalState where
  st : MemState
  queueFrames : List Nat

inductive HalPanic where
  | memory (e : MemPanic)
  /-- `assert_eq!(frame.ppn.0, ppn_base.0 + i)` -/
  | apart
  deriving DecidableEq

abbrev HalM := Outcome HalState HalPanic

namespace VirtioHal

def memory {α : Type} (p : MemM α) : HalM α := fun s =>
  match p s.st with
  | .error e => .error (.memory e)
  | .ok (a, st) => .ok (a, { s with st := st })

/-- The loop of `dma_alloc` from frame `i` on, with `n` frames to go. -/
def dmaAllocLoop : Nat → Nat → Nat → HalM Nat
  | ppnBase, _, 0 => pure ppnBase
  | ppnBase, i, n + 1 => do
      let ppn ← memory frameAlloc
      let ppnBase := if i = 0 then ppn else ppnBase
      ensure .apart (ppn = ppnBase + i)
      modify fun s => { s with queueFrames := s.queueFrames ++ [ppn] }
      dmaAllocLoop ppnBase (i + 1) n

/-- `dma_alloc`. -/
def dmaAlloc (pages : Nat) : HalM Nat := do
  let ppnBase ← dmaAllocLoop 0 0 pages
  pure (ppnBase * PAGE_SIZE)

/-- The loop of `dma_dealloc`. -/
def dmaDeallocLoop : Nat → Nat → HalM Unit
  | _, 0 => pure ()
  | ppn, n + 1 => do
      memory (frameDealloc ppn)
      dmaDeallocLoop (ppn + 1) n

/-- `dma_dealloc`. -/
def dmaDealloc (pa pages : Nat) : HalM Int := do
  let pa := pa &&& (2 ^ 56 - 1)
  ensure (.memory .notAligned) (pa % PAGE_SIZE = 0)
  dmaDeallocLoop (pa / PAGE_SIZE) pages
  pure 0

/-- `phys_to_virt`. -/
def physToVirt (addr : Nat) : Nat := addr

/-- `virt_to_phys`, under the token of the kernel; `none` is the panic. -/
def virtToPhys (m : Mem) (kernelToken vaddr : Nat) : Option Nat :=
  (PageTable.fromToken kernelToken).translateVa m (VirtAddr.from vaddr)

end VirtioHal

/-! ## Taking frames -/

/-- `n` frames from `base` on were taken, and nothing else happened. -/
structure Buffered (s : HalState) (base n : Nat) (s' : HalState) : Prop where
  wf : s'.st.alloc.Wf
  end_eq : s'.st.alloc.end_ = s.st.alloc.end_
  order : s.st.alloc.order = List.range' base n ++ s'.st.alloc.order
  queue : s'.queueFrames = s.queueFrames ++ List.range' base n
  zero : ∀ x, base * 4096 ≤ x → x < (base + n) * 4096 → s'.st.mem x = 0
  rest : ∀ x, x < base * 4096 ∨ (base + n) * 4096 ≤ x → s'.st.mem x = s.st.mem x

/-- Why `n` frames from `base` on could not be taken. -/
def Refused (order : List Nat) (base n : Nat) : HalPanic → Prop
  | .apart => ¬ List.range' base n <+: order
  | .memory e => e = .outOfFrames ∧ order.length < n ∧ order = List.range' base order.length

namespace VirtioHal

variable {s : HalState} {base i n : Nat}

theorem memory_iff {α : Type} {E : HalPanic → Prop} {p : MemM α} {Q : α → HalState → Prop} :
    Meets E (memory p) s Q
      ↔ Meets (fun e => E (.memory e)) p s.st fun a st => Q a { s with st := st } := by
  unfold Meets memory
  cases p s.st with
  | error e => rfl
  | ok r => rfl

end VirtioHal

theorem Buffered.refl (h : s.st.alloc.Wf) (base : Nat) : Buffered s base 0 s where
  wf := h
  end_eq := rfl
  order := rfl
  queue := (List.append_nil _).symm
  zero x hx hx' := by omega
  rest x _ := rfl

/-- One more frame, before the others. -/
theorem Buffered.cons {b : StackFrameAllocator} {ps : List Nat} {s' : HalState}
    (horder : s.st.alloc.order = base :: ps) (hend : b.end_ = s.st.alloc.end_) (hb : b.order = ps)
    (h : Buffered ⟨⟨s.st.mem.zeroFrame base, b⟩, s.queueFrames ++ [base]⟩ (base + 1) n s') :
    Buffered s base (n + 1) s' where
  wf := h.wf
  end_eq := h.end_eq.trans hend
  order := by
    have hrest := h.order
    dsimp only at hrest
    rw [horder, List.range'_succ, List.cons_append, ← hrest, hb]
  queue := by
    have hrest := h.queue
    dsimp only at hrest
    rw [hrest, List.range'_succ, List.append_assoc, List.singleton_append]
  zero x hx hx' := by
    have hnext : base + 1 + n = base + (n + 1) := by omega
    by_cases hlt : x < (base + 1) * 4096
    · rw [h.rest x (Or.inl hlt)]
      exact Mem.zeroFrame_apply _ (by omega)
    · refine h.zero x (Nat.le_of_not_lt hlt) ?_
      rw [hnext]
      exact hx'
  rest x hx := by
    have hnext : base + 1 + n = base + (n + 1) := by omega
    have hout : x < (base + 1) * 4096 ∨ (base + 1 + n) * 4096 ≤ x := by
      rw [hnext]
      exact hx.imp_left fun hlt =>
        Nat.lt_of_lt_of_le hlt (Nat.mul_le_mul_right _ (Nat.le_succ base))
    rw [h.rest x hout]
    refine Mem.write_outside _ ?_
    rw [List.length_replicate]
    clear hout h
    omega

theorem Refused.cons {ps : List Nat} {e : HalPanic} (h : Refused ps (base + 1) n e) :
    Refused (base :: ps) base (n + 1) e := by
  cases e with
  | apart =>
      intro hpre
      rw [List.range'_succ, List.cons_prefix_cons] at hpre
      exact h hpre.2
  | memory e =>
      obtain ⟨he, hlt, hps⟩ := h
      refine ⟨he, Nat.succ_lt_succ hlt, ?_⟩
      rw [List.length_cons, List.range'_succ, ← hps]

theorem Refused.empty (base : Nat) : Refused [] base (n + 1) (.memory .outOfFrames) :=
  ⟨rfl, Nat.succ_pos n, rfl⟩

namespace VirtioHal

/-- A round of the loop: a frame is taken, and the assertion made. -/
theorem dmaAllocLoop_succ {E : HalPanic → Prop} {Q : Nat → HalState → Prop}
    (h : s.st.alloc.Wf) (hnil : s.st.alloc.order = [] → E (.memory .outOfFrames))
    (hcons : ∀ p ps b, s.st.alloc.order = p :: ps → b.Wf → b.end_ = s.st.alloc.end_ →
      b.order = ps →
      (p = (if i = 0 then p else base) + i →
        Meets E (dmaAllocLoop (if i = 0 then p else base) (i + 1) n)
          ⟨⟨s.st.mem.zeroFrame p, b⟩, s.queueFrames ++ [p]⟩ Q)
      ∧ (p ≠ (if i = 0 then p else base) + i → E .apart)) :
    Meets E (dmaAllocLoop base i (n + 1)) s Q := by
  rw [dmaAllocLoop, Meets.bind_iff, memory_iff]
  cases horder : s.st.alloc.order with
  | nil =>
      have herr := frameAlloc_nil h horder
      unfold Meets
      rw [herr]
      exact hnil horder
  | cons p ps =>
      obtain ⟨b, hrun, hwf, hend, hb⟩ := frameAlloc_cons h horder
      obtain ⟨hgo, hstop⟩ := hcons p ps b horder hwf hend hb
      refine Meets.of_ok hrun ?_
      rw [Meets.bind_iff, Meets.ensure_iff]
      refine ⟨fun heq => ?_, hstop⟩
      rw [Meets.bind_iff, Meets.modify_iff]
      exact hgo heq

theorem dmaAllocLoop_meets (h : s.st.alloc.Wf) (hi : i ≠ 0) :
    Meets (Refused s.st.alloc.order (base + i) n) (dmaAllocLoop base i n) s fun r s' =>
      r = base ∧ Buffered s (base + i) n s' := by
  induction n generalizing i s with
  | zero =>
      rw [dmaAllocLoop, Meets.pure_iff]
      exact ⟨rfl, .refl h _⟩
  | succ n ih =>
      refine dmaAllocLoop_succ h ?_ fun p ps b horder hwf hend hb => ?_
      · intro hnil
        rw [hnil]
        exact Refused.empty _
      · rw [if_neg hi, horder]
        refine ⟨?_, ?_⟩
        · rintro rfl
          refine Meets.weaken ((ih (s := ⟨⟨s.st.mem.zeroFrame (base + i), b⟩, _⟩) hwf
            (Nat.succ_ne_zero i)).mono ?_) ?_
          · rintro r s' ⟨rfl, hs'⟩
            exact ⟨rfl, .cons horder hend hb hs'⟩
          · intro e he
            dsimp only at he
            rw [hb] at he
            exact he.cons
        · intro hne hpre
          rw [List.range'_succ, List.cons_prefix_cons] at hpre
          exact hne hpre.1.symm

/-- The frames are those that come next, if they are consecutive; otherwise the call panics. -/
theorem dmaAlloc_meets (h : s.st.alloc.Wf) :
    Meets (Refused s.st.alloc.order (s.st.alloc.order.headD 0) n) (dmaAlloc n) s fun pa s' =>
      ∃ base, pa = base * 4096 ∧ Buffered s base n s' := by
  rw [dmaAlloc, Meets.bind_iff]
  cases n with
  | zero =>
      rw [dmaAllocLoop, Meets.pure_iff, Meets.pure_iff]
      exact ⟨0, rfl, .refl h 0⟩
  | succ n =>
      refine dmaAllocLoop_succ h ?_ fun p ps b horder hwf hend hb => ?_
      · intro hnil
        rw [hnil]
        exact Refused.empty _
      · rw [if_pos rfl, horder]
        refine ⟨fun _ => ?_, fun hne => absurd rfl hne⟩
        refine Meets.weaken ((dmaAllocLoop_meets
          (s := ⟨⟨s.st.mem.zeroFrame p, b⟩, s.queueFrames ++ [p]⟩) hwf Nat.one_ne_zero).mono ?_) ?_
        · rintro r s' ⟨rfl, hs'⟩
          rw [Meets.pure_iff]
          exact ⟨r, rfl, .cons horder hend hb hs'⟩
        · intro e he
          dsimp only at he
          rw [hb] at he
          exact he.cons

theorem dmaAlloc_returns (h : s.st.alloc.Wf)
    (hpre : List.range' (s.st.alloc.order.headD 0) n <+: s.st.alloc.order) :
    ∃ r, dmaAlloc n s = .ok r := by
  cases hrun : dmaAlloc n s with
  | ok r => exact ⟨r, rfl⟩
  | error e =>
      have he := (dmaAlloc_meets h).of_error hrun
      cases e with
      | apart => exact absurd hpre he
      | memory e =>
          have hle := hpre.length_le
          rw [List.length_range'] at hle
          exact absurd he.2.1 (Nat.not_lt.mpr hle)

/-! ## Giving them back -/

theorem frameDealloc_owned {st : MemState} {p : Nat} {ps : List Nat} (h : Owns st (p :: ps)) :
    ∃ b, frameDealloc p st = .ok ((), ⟨st.mem, b⟩) ∧ b.order = p :: st.alloc.order
      ∧ Owns ⟨st.mem, b⟩ ps := by
  have hp := List.mem_cons_self (a := p) (l := ps)
  obtain ⟨b, hb, hwf, hend, -, hfree⟩ := h.wf.dealloc (h.pos p hp) (h.lt p hp) (h.used p hp)
  have hmeets : Meets (fun _ => False) (frameDealloc p) st fun _ st' => st' = ⟨st.mem, b⟩ := by
    unfold frameDealloc
    simp only [Meets.bind_iff, Meets.get_iff]
    rw [hb]
    simp only [Meets.unwrap_some, Meets.set_iff]
  obtain ⟨_, _, hrun, rfl⟩ := hmeets.exists_ok
  have hnd := List.nodup_cons.mp h.nodup
  refine ⟨b, hrun, StackFrameAllocator.order_dealloc hb, hwf, hnd.2, ?_, ?_, ?_⟩
  · exact fun q hq => h.pos q (List.mem_cons_of_mem p hq)
  · intro q hq
    show q < b.end_
    rw [hend]
    exact h.lt q (List.mem_cons_of_mem p hq)
  · intro q hq hfreeq
    rcases (hfree q).mp hfreeq with hold | rfl
    · exact h.used q (List.mem_cons_of_mem p hq) hold
    · exact hnd.1 hq

theorem dmaDeallocLoop_meets (h : Owns s.st (List.range' base n)) :
    Meets (fun _ => False) (dmaDeallocLoop base n) s fun _ s' => s'.st.alloc.Wf
      ∧ s'.st.mem = s.st.mem ∧ s'.queueFrames = s.queueFrames
      ∧ s'.st.alloc.order = (List.range' base n).reverse ++ s.st.alloc.order := by
  induction n generalizing base s with
  | zero =>
      rw [dmaDeallocLoop, Meets.pure_iff]
      exact ⟨h.wf, rfl, rfl, rfl⟩
  | succ n ih =>
      rw [List.range'_succ] at h ⊢
      obtain ⟨b, hrun, horder, howns⟩ := frameDealloc_owned h
      rw [dmaDeallocLoop, Meets.bind_iff, memory_iff]
      refine Meets.of_ok hrun ((ih (s := ⟨⟨s.st.mem, b⟩, s.queueFrames⟩) howns).mono ?_)
      rintro _ s' ⟨hwf, hmem, hqueue, hs'⟩
      refine ⟨hwf, hmem, hqueue, ?_⟩
      rw [hs', List.reverse_cons, List.append_assoc, List.singleton_append, ← horder]

theorem dmaDealloc_meets (h : Owns s.st (List.range' base n)) :
    Meets (fun _ => False) (dmaDealloc (base * 4096) n) s fun r s' => r = 0 ∧ s'.st.alloc.Wf
      ∧ s'.st.mem = s.st.mem ∧ s'.queueFrames = s.queueFrames
      ∧ s'.st.alloc.order = (List.range' base n).reverse ++ s.st.alloc.order := by
  rw [dmaDealloc, Nat.and_two_pow_sub_one_eq_mod, Meets.bind_iff, Meets.ensure_iff]
  have hmod : base * 4096 % 2 ^ 56 % 4096 = 0 := by omega
  refine ⟨fun _ => ?_, fun hne => absurd hmod hne⟩
  rw [Meets.bind_iff]
  have hloop : Meets (fun _ => False) (dmaDeallocLoop (base * 4096 % 2 ^ 56 / 4096) n) s fun _ s' =>
      s'.st.alloc.Wf ∧ s'.st.mem = s.st.mem ∧ s'.queueFrames = s.queueFrames
      ∧ s'.st.alloc.order = (List.range' base n).reverse ++ s.st.alloc.order := by
    cases n with
    | zero =>
        rw [dmaDeallocLoop, Meets.pure_iff]
        exact ⟨h.wf, rfl, rfl, rfl⟩
    | succ n =>
        have hlt := h.lt base (List.mem_range'_1.mpr ⟨Nat.le_refl _, by omega⟩)
        have hbound := h.wf.bound
        have hpage : base * 4096 % 2 ^ 56 / 4096 = base := by omega
        rw [hpage]
        exact dmaDeallocLoop_meets h
  refine hloop.mono fun _ s' hs' => ?_
  rw [Meets.pure_iff]
  exact ⟨rfl, hs'⟩

/-- Frames in falling order are no buffer. -/
theorem dmaAlloc_falling {x : Nat} {l : List Nat} (h : s.st.alloc.Wf)
    (horder : s.st.alloc.order = (x + 1) :: x :: l) (hn : 2 ≤ n) :
    dmaAlloc n s = .error .apart := by
  obtain ⟨k, rfl⟩ := Nat.exists_eq_add_of_le' hn
  have hmeets := dmaAlloc_meets (n := k + 2) h
  rw [horder, List.headD_cons] at hmeets
  cases hrun : dmaAlloc (k + 2) s with
  | error e =>
      have he := hmeets.of_error hrun
      cases e with
      | apart => rfl
      | memory e =>
          obtain ⟨-, -, hrange⟩ := he
          rw [List.length_cons, List.length_cons, List.range'_succ, List.range'_succ,
            List.cons.injEq, List.cons.injEq] at hrange
          omega
  | ok r =>
      obtain ⟨base, -, hb⟩ := hmeets.ok hrun
      have hrange := hb.order
      rw [horder, List.range'_succ, List.range'_succ, List.cons_append, List.cons_append,
        List.cons.injEq, List.cons.injEq] at hrange
      omega

end VirtioHal

theorem Buffered.owns {s' : HalState} (h : s.st.alloc.Wf) (hb : Buffered s base n s') :
    Owns s'.st (List.range' base n) := by
  have hnd := StackFrameAllocator.nodup_order h
  have hlt : ∀ p ∈ List.range' base n, 0 < p ∧ p < s.st.alloc.end_ := by
    intro p hp
    refine h.free_lt ((StackFrameAllocator.mem_order h).mp ?_)
    rw [hb.order]
    exact List.mem_append_left _ hp
  rw [hb.order] at hnd
  obtain ⟨hrange, -, hapart⟩ := List.nodup_append.mp hnd
  refine ⟨hb.wf, hrange, fun p hp => (hlt p hp).1, fun p hp => ?_, fun p hp hfree => ?_⟩
  · rw [hb.end_eq]
    exact (hlt p hp).2
  · exact hapart p hp p ((StackFrameAllocator.mem_order hb.wf).mpr hfree) rfl

/-- `dma_alloc` returns if and only if the frames that come next are consecutive. The buffer is
    theirs until it is given back, which does not panic; after that no buffer of more than one
    page can be had. -/
theorem dma_alloc_law {s : HalState} (h : s.st.alloc.Wf) (n : Nat) :
    ((∃ r, VirtioHal.dmaAlloc n s = .ok r)
      ↔ List.range' (s.st.alloc.order.headD 0) n <+: s.st.alloc.order)
    ∧ ∀ pa s', VirtioHal.dmaAlloc n s = .ok (pa, s') → ∃ base, pa = base * 4096
      ∧ Buffered s base n s' ∧ Owns s'.st (List.range' base n)
      ∧ ∀ s₁ : HalState, Owns s₁.st (List.range' base n) →
        ∃ s₂, VirtioHal.dmaDealloc pa n s₁ = .ok (0, s₂)
          ∧ s₂.st.mem = s₁.st.mem ∧ s₂.queueFrames = s₁.queueFrames
          ∧ (2 ≤ n → ∀ k, 2 ≤ k → VirtioHal.dmaAlloc k s₂ = .error .apart) := by
  have hmeets := VirtioHal.dmaAlloc_meets (n := n) h
  refine ⟨⟨?_, VirtioHal.dmaAlloc_returns h⟩, fun pa s' hrun => ?_⟩
  · rintro ⟨r, hrun⟩
    obtain ⟨base, -, hb⟩ := hmeets.ok hrun
    cases n with
    | zero => exact List.nil_prefix
    | succ n =>
        have hhead : s.st.alloc.order.headD 0 = base := by
          rw [hb.order, List.range'_succ, List.cons_append, List.headD_cons]
        rw [hhead, hb.order]
        exact List.prefix_append _ _
  · obtain ⟨base, rfl, hb⟩ := hmeets.ok hrun
    refine ⟨base, rfl, hb, hb.owns h, fun s₁ howns => ?_⟩
    obtain ⟨r, s₂, hdealloc, rfl, hwf, hmem, hqueue, horder⟩ :=
      (VirtioHal.dmaDealloc_meets howns).exists_ok
    refine ⟨s₂, hdealloc, hmem, hqueue, fun hn k hk => ?_⟩
    obtain ⟨j, rfl⟩ := Nat.exists_eq_add_of_le' hn
    have hfalling : s₂.st.alloc.order = (base + j + 1) :: (base + j)
        :: ((List.range' base j).reverse ++ s₁.st.alloc.order) := by
      rw [horder, List.range'_concat, List.range'_concat, List.reverse_append, List.reverse_append]
      simp only [Nat.one_mul, List.reverse_cons, List.reverse_nil, List.nil_append,
        List.cons_append, Nat.add_assoc]
    exact VirtioHal.dmaAlloc_falling hwf hfalling hk

/-- Two pages are given back. -/
theorem dma_alloc_law_boot : ∃ s s' s₂ : HalState, VirtioHal.dmaAlloc 2 s = .ok (0x5000, s')
    ∧ VirtioHal.dmaDealloc 0x5000 2 s' = .ok (0, s₂)
    ∧ VirtioHal.dmaAlloc 2 s₂ = .error .apart := by
  have hwf : (StackFrameAllocator.init 5 9).Wf :=
    StackFrameAllocator.wf_init (by decide) (by decide) (by decide)
  obtain ⟨hiff, hrest⟩ := @dma_alloc_law ⟨⟨fun _ => 7, .init 5 9⟩, []⟩ hwf 2
  obtain ⟨⟨pa, s'⟩, hrun⟩ := hiff.mpr (by decide)
  obtain ⟨base, rfl, hb, howns, hback⟩ := hrest pa s' hrun
  have horder := hb.order
  have hhead := congrArg (List.headD · 0) horder
  obtain rfl : base = 5 := hhead.symm
  obtain ⟨s₂, hdealloc, -, -, hnone⟩ := hback s' howns
  exact ⟨_, s', s₂, hrun, hdealloc, hnone (by decide) 2 (by decide)⟩

/-! ## Addresses -/

namespace Walkable

variable {img : KernelImage} {s : Machine}

/-- The walk in software finds what the processor finds. -/
theorem virtToPhys_eq (h : Walkable img s) {mode : RiscV.Mode} {sstatus va : UInt64}
    {a : Sv39.Access} {pa : Nat}
    (htr : Sv39.translate s.st.mem (s.regime mode sstatus) va a = some pa) :
    VirtioHal.virtToPhys s.st.mem s.kernel.token va.toNat = some pa := by
  have hw := h.walked_kernel
  obtain ⟨-, e, he, -, -, rfl⟩ := (hw.translate_iff rfl).mp htr
  have hoff : VirtAddr.from va.toNat % 4096 = va.toNat % 4096 := by
    simp only [VirtAddr.from, Nat.and_two_pow_sub_one_eq_mod]
    omega
  have hpage : VirtAddr.from va.toNat / 4096 = pageOf va.toNat := rfl
  rw [VirtioHal.virtToPhys, translateVa_eq, hoff, hpage]
  have hwalk : (PageTable.fromToken s.kernel.token).translate s.st.mem (pageOf va.toNat) = some e :=
    (translate_fromToken hw.root _ _).trans (translate_of_lookup he)
  rw [hwalk, Option.map_some]

/-- Memory that is no part of the image is mapped to itself. -/
theorem identity_translate (h : Walkable img s) {x : Nat} (hlo : img.ekernel ≤ x)
    (hhi : x < MEMORY_END) (sstatus : UInt64) {a : Sv39.Access} (ha : a ≠ .fetch) :
    Sv39.translate s.st.mem (s.regime .supervisor sstatus) (UInt64.ofNat x) a = some x := by
  have hend : x < 0x81000000 := hhi
  have hnat : (UInt64.ofNat x).toNat = x := by
    rw [UInt64.toNat_ofNat']
    exact Nat.mod_eq_of_lt (by omega)
  have hpage : pageOf (UInt64.ofNat x).toNat = x / 4096 := by
    rw [pageOf_toNat, hnat]
    omega
  have hbounds : img.sections.map KernelSection.bounds = _ := img.sectionBounds_eq
  simp only [KernelImage.sections, MMIO, List.map_cons, List.map_nil, List.cons_append,
    List.nil_append, List.cons.injEq] at hbounds
  have hsec : ⟨img.ekernel, MEMORY_END, PTEFlags.R ||| PTEFlags.W⟩ ∈ img.sections :=
    .tail _ (.tail _ (.tail _ (.tail _ (.head _))))
  have hkp : s.KernelPage img (pageOf (UInt64.ofNat x).toNat) (x / 4096)
      (PTEFlags.R ||| PTEFlags.W) := by
    rw [hpage]
    refine .identical hsec ?_ ?_
    · rw [hbounds.2.2.2.2.1]
      dsimp only
      omega
    · rw [hbounds.2.2.2.2.1]
      dsimp only
      omega
  refine h.kernel_translate_iff.mpr ⟨Or.inl (by omega), _, _, hkp,
    Sv39.Permits.supervisor rfl ha rfl, ?_⟩
  rw [hnat]
  omega

end Walkable

/-- A buffer that is allocated in a state that the events lead to: the kernel reaches each of its
    bytes at the address that it has for the device, nobody else has the frames, and for every
    address that the kernel reaches, `virt_to_phys` says where. -/
theorem dma_buffer_mapped {img : KernelImage} {s₀ s : Machine} {tr : List ProcessEvent}
    (hboot : Machine.Boot img s₀) (hrun : Runs (FittingStep img) s₀ tr s) {queueFrames : List Nat}
    {n pa : Nat} {s' : HalState}
    (halloc : VirtioHal.dmaAlloc n ⟨s.st, queueFrames⟩ = .ok (pa, s')) (sstatus : UInt64) :
    (∀ x, pa ≤ x → x < pa + n * 4096 → ∀ a, a ≠ .fetch →
      Sv39.translate s'.st.mem (s.regime .supervisor sstatus)
          (UInt64.ofNat (VirtioHal.physToVirt x)) a = some x
        ∧ VirtioHal.virtToPhys s'.st.mem s.kernel.token (VirtioHal.physToVirt x) = some x
        ∧ x / 4096 ∉ s.kernel.frames ++ s.sets.frames ∧ ¬ s'.st.alloc.Free (x / 4096))
    ∧ ∀ mode va a pa', Sv39.translate s'.st.mem (s.regime mode sstatus) va a = some pa' →
      VirtioHal.virtToPhys s'.st.mem s.kernel.token va.toNat = some pa' := by
  have h := Walkable.runs hboot hrun
  have hwf := h.ok.owns.wf
  obtain ⟨base, rfl, hb⟩ := (VirtioHal.dmaAlloc_meets (s := ⟨s.st, queueFrames⟩) hwf).ok halloc
  have howns := hb.owns hwf
  have hfree : ∀ p ∈ List.range' base n, s.st.alloc.Free p := by
    intro p hp
    refine (StackFrameAllocator.mem_order hwf).mp ?_
    rw [hb.order]
    exact List.mem_append_left _ hp
  have htables : ∀ p ∈ s.tables, Mem.SameFrame s.st.mem s'.st.mem p := by
    intro p hp x hx
    have hmem : p ∈ s.kernel.frames ++ s.sets.frames := by
      rcases List.mem_append.mp hp with hp | hp
      · exact List.mem_append_left _ (List.mem_append_left _ hp)
      · exact List.mem_append_right _ (Sets.tables_subset _ hp)
    have hused := h.ok.owns.used p hmem
    refine hb.rest x ?_
    by_contra hin
    refine hused (hfree p (List.mem_range'_1.mpr ?_))
    omega
  have h' := h.withMem htables
  refine ⟨fun x hlo hhi a ha => ?_, fun mode va a pa' htr => h'.virtToPhys_eq htr⟩
  have hx : x / 4096 ∈ List.range' base n := List.mem_range'_1.mpr (by omega)
  have habove := h.traced.above _ (Or.inl (hfree _ hx))
  have hend := (h.ok.owns.wf.free_lt (hfree _ hx)).2
  rw [h.traced.end_] at hend
  have hlt : x < 0x81000000 := by
    simp only [MEMORY_END_PPN] at hend
    omega
  have htr := h'.identity_translate (x := x) (by omega) hlt sstatus ha
  refine ⟨htr, ?_, fun hmem => h.ok.owns.used _ hmem (hfree _ hx), howns.used _ hx⟩
  have hnat : (UInt64.ofNat x).toNat = x := by
    rw [UInt64.toNat_ofNat']
    exact Nat.mod_eq_of_lt (by omega)
  have hphys := h'.virtToPhys_eq htr
  rwa [hnat] at hphys

/-- A page for the device when the first program is there. -/
theorem dma_buffer_mapped_program : ∃ (s : Machine) (s' : HalState) (pa : Nat), s.procs ≠ []
    ∧ VirtioHal.dmaAlloc 1 ⟨s.st, []⟩ = .ok (pa, s')
    ∧ VirtioHal.virtToPhys s'.st.mem s.kernel.token pa = some pa := by
  obtain ⟨s₀, s, p, f, hboot, hstep, hinv, hprocs, -, -, -, -, -, hav, -⟩ := exists_program
  have hwf := hinv.ok.owns.wf
  have hpre : List.range' (s.st.alloc.order.headD 0) 1 <+: s.st.alloc.order := by
    cases horder : s.st.alloc.order with
    | nil =>
        have hlen := StackFrameAllocator.length_order s.st.alloc
        rw [horder, List.length_nil] at hlen
        omega
    | cons q ps => exact List.prefix_append [q] ps
  obtain ⟨⟨pa, s'⟩, hrun⟩ := VirtioHal.dmaAlloc_returns (s := ⟨s.st, []⟩) hwf hpre
  obtain ⟨hbytes, -⟩ := dma_buffer_mapped hboot (Runs.single hstep) hrun 0
  refine ⟨s, s', pa, ?_, hrun, (hbytes pa (Nat.le_refl _) (by omega) .load (by decide)).2.1⟩
  rw [hprocs]
  exact List.cons_ne_nil p []

end Nimloth
