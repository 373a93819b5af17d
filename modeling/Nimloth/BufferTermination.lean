import Nimloth.UserBuffers

/-!
# When the loop over a buffer ends

`start` is made anew in each turn from a 39-bit address, `end` is not. A
buffer that ends at 2^39 or above can have an `end` that no turn reaches:
the loop comes to the truncated end, finds itself below `end` and stays
there, one more slice each turn. A pointer that is not canonical may also
lead back, or to a slice that ends before it starts.
-/

namespace Nimloth

open PageTable

/-! ## Turns -/

/-- What one turn of the loop comes to. -/
inductive BufferTurn where
  | returns
  /-- `translate(vpn).unwrap()` -/
  | unmapped
  /-- the slice would end before it starts -/
  | badSlice
  | continues (slice : BufferSlice) (start : Nat)

def bufferTurn (m : Mem) (pt : PageTable) (end_ start : Nat) : BufferTurn :=
  if start < end_ then
    match pt.translate m (pageOf start), sliceEnd end_ start with
    | none, _ => .unmapped
    | some _, none => .badSlice
    | some pte, some hi =>
        .continues ⟨pageOf start, pte.ppn, VirtAddr.from start % PAGE_SIZE, hi⟩
          (bufferNext end_ start)
  else .returns

/-- The loop takes its turns. -/
theorem bufferLoop_succ (m : Mem) (pt : PageTable) (end_ fuel start : Nat) :
    bufferLoop m pt end_ (fuel + 1) start = match bufferTurn m pt end_ start with
      | .returns => some []
      | .unmapped | .badSlice => none
      | .continues slice start => (bufferLoop m pt end_ fuel start).map (slice :: ·) := by
  rw [bufferLoop, bufferTurn]
  split
  · cases pt.translate m (pageOf start) with
    | none => rfl
    | some pte =>
        cases sliceEnd end_ start with
        | none => rfl
        | some hi =>
            show (bufferLoop m pt end_ fuel (bufferNext end_ start)).bind _
              = (bufferLoop m pt end_ fuel (bufferNext end_ start)).map _
            cases bufferLoop m pt end_ fuel (bufferNext end_ start) with
            | none => rfl
            | some rest => rfl
  · rfl

/-- After finitely many turns, each of which moves `start` up, the loop returns or stops at a
    page that does not translate. -/
inductive BufferEnds (m : Mem) (pt : PageTable) (end_ : Nat) : Nat → Prop
  | returns {start : Nat} (h : bufferTurn m pt end_ start = .returns) : BufferEnds m pt end_ start
  | unmapped {start : Nat} (h : bufferTurn m pt end_ start = .unmapped) :
      BufferEnds m pt end_ start
  | continues {start start' : Nat} {slice : BufferSlice}
      (h : bufferTurn m pt end_ start = .continues slice start') (hlt : start < start')
      (hends : BufferEnds m pt end_ start') : BufferEnds m pt end_ start

section

variable {m : Mem} {pt : PageTable} {end_ start : Nat}

theorem bufferEnds_iff : BufferEnds m pt end_ start ↔
    (start < end_ → pt.translate m (pageOf start) ≠ none → sliceEnd end_ start ≠ none
      ∧ start < bufferNext end_ start ∧ BufferEnds m pt end_ (bufferNext end_ start)) := by
  constructor
  · intro h hlt hpage
    obtain ⟨pte, hpte⟩ := Option.ne_none_iff_exists'.mp hpage
    cases hs : sliceEnd end_ start with
    | none =>
        have hturn : bufferTurn m pt end_ start = .badSlice := by
          rw [bufferTurn, if_pos hlt, hpte, hs]
        cases h with
        | returns h => rw [hturn] at h; cases h
        | unmapped h => rw [hturn] at h; cases h
        | continues h => rw [hturn] at h; cases h
    | some hi =>
        have hturn := bufferTurn.eq_def m pt end_ start
        rw [if_pos hlt, hpte, hs] at hturn
        cases h with
        | returns h => rw [hturn] at h; cases h
        | unmapped h => rw [hturn] at h; cases h
        | continues h hup hends =>
            rw [hturn] at h
            cases h
            exact ⟨Option.some_ne_none hi, hup, hends⟩
  · intro h
    by_cases hlt : start < end_
    · cases hpage : pt.translate m (pageOf start) with
      | none =>
          refine .unmapped ?_
          rw [bufferTurn, if_pos hlt, hpage]
      | some pte =>
          obtain ⟨hs, hup, hends⟩ := h hlt (by rw [hpage]; exact Option.some_ne_none pte)
          obtain ⟨hi, hhi⟩ := Option.ne_none_iff_exists'.mp hs
          have hturn := bufferTurn.eq_def m pt end_ start
          rw [if_pos hlt, hpage, hhi] at hturn
          exact .continues hturn hup hends
    · refine .returns ?_
      rw [bufferTurn, if_neg hlt]

theorem bufferEnds_done (h : end_ ≤ start) : BufferEnds m pt end_ start :=
  bufferEnds_iff.mpr fun hlt => absurd hlt (Nat.not_lt.mpr h)

/-- A turn that does not move `start` up. -/
theorem not_bufferEnds (hlt : start < end_) (hpage : pt.translate m (pageOf start) ≠ none)
    (hnext : bufferNext end_ start ≤ start) : ¬ BufferEnds m pt end_ start := by
  intro h
  obtain ⟨-, hup, -⟩ := bufferEnds_iff.mp h hlt hpage
  omega

theorem bufferNext_eq (end_ start : Nat) : bufferNext end_ start =
    if bufferEnd end_ start < 2 ^ 38 then bufferEnd end_ start
    else 2 ^ 64 - 2 ^ 39 + bufferEnd end_ start := by
  by_cases hlow : bufferEnd end_ start < 2 ^ 38
  · rw [if_pos hlow, bufferNext, toUsize_low hlow]
  · rw [if_neg hlow, bufferNext, toUsize_high (by omega) (bufferEnd_lt end_ start)]

/-- In the upper half, sign-extended, each turn goes up to `end`. -/
theorem bufferEnds_high (hend : end_ < 2 ^ 64) (n : Nat) {start : Nat} (hn : end_ - start ≤ n)
    (hstart : 2 ^ 64 - 2 ^ 38 ≤ start) : BufferEnds m pt end_ start := by
  induction n generalizing start with
  | zero => exact bufferEnds_done (by omega)
  | succ n ih =>
      refine bufferEnds_iff.mpr fun hlt _ => ?_
      have hnext := bufferNext_eq end_ start
      rw [bufferEnd_eq, if_neg (by omega)] at hnext
      have hslt : start % 2 ^ 39 < end_ % 2 ^ 39 := by omega
      have hslice := sliceEnd_of_lt hslt
      refine ⟨by rw [hslice]; exact Option.some_ne_none _, by omega, ih (by omega) (by omega)⟩

/-- From the lower half up to a truncated end in the upper half. -/
theorem bufferEnds_low_high (hend : end_ < 2 ^ 64) (hhigh : 2 ^ 38 ≤ end_ % 2 ^ 39) (n : Nat)
    {start : Nat} (hn : 2 ^ 38 - start ≤ n) (hstart : start < 2 ^ 38) :
    BufferEnds m pt end_ start := by
  induction n generalizing start with
  | zero => omega
  | succ n ih =>
      refine bufferEnds_iff.mpr fun hlt _ => ?_
      have hnext := bufferNext_eq end_ start
      have hslt : start % 2 ^ 39 < end_ % 2 ^ 39 := by omega
      have hslice := sliceEnd_of_lt hslt
      rw [bufferEnd_eq] at hnext
      refine ⟨by rw [hslice]; exact Option.some_ne_none _, ?_⟩
      by_cases hlow : (start % 2 ^ 39 / 4096 + 1) * 4096 < 2 ^ 38
      · rw [if_pos (by omega)] at hnext
        exact ⟨by omega, ih (by omega) (by omega)⟩
      · rw [if_neg (by omega)] at hnext
        exact ⟨by omega, bufferEnds_high hend _ (Nat.le_refl _) (by omega)⟩

/-- Inside of the lower half. -/
theorem bufferEnds_low (hend : end_ < 2 ^ 38) (n : Nat) {start : Nat} (hn : end_ - start ≤ n) :
    BufferEnds m pt end_ start := by
  induction n generalizing start with
  | zero => exact bufferEnds_done (by omega)
  | succ n ih =>
      refine bufferEnds_iff.mpr fun hlt _ => ?_
      have hnext := bufferNext_eq end_ start
      have hslt : start % 2 ^ 39 < end_ % 2 ^ 39 := by omega
      have hslice := sliceEnd_of_lt hslt
      rw [bufferEnd_eq, if_pos (by omega)] at hnext
      exact ⟨by rw [hslice]; exact Option.some_ne_none _, by omega, ih (by omega)⟩

/-- At a truncated end in the lower half the loop stays. -/
theorem bufferEnds_stuck (htrunc : end_ % 2 ^ 39 < end_) (hend : end_ % 2 ^ 39 < 2 ^ 38) :
    BufferEnds m pt end_ (end_ % 2 ^ 39) ↔ pt.translate m (end_ % 2 ^ 39 / 4096) = none := by
  have hpage : pageOf (end_ % 2 ^ 39) = end_ % 2 ^ 39 / 4096 := by
    rw [pageOf_eq, Nat.mod_mod]
  have hnext := bufferNext_eq end_ (end_ % 2 ^ 39)
  rw [bufferEnd_eq, if_pos (by omega)] at hnext
  rw [bufferEnds_iff, hpage]
  constructor
  · intro h
    by_contra hsome
    obtain ⟨-, hup, -⟩ := h htrunc hsome
    omega
  · exact fun hnone _ hsome => absurd hnone hsome

/-- From the lower half up to a truncated end in the lower half. -/
theorem bufferEnds_wrapped (htrunc : end_ % 2 ^ 39 < end_) (hend : end_ % 2 ^ 39 < 2 ^ 38) (n : Nat)
    {start : Nat} (hn : end_ % 2 ^ 39 - start ≤ n) (hstart : start ≤ end_ % 2 ^ 39) :
    BufferEnds m pt end_ start
      ↔ ∃ v, start / 4096 ≤ v ∧ v ≤ end_ % 2 ^ 39 / 4096 ∧ pt.translate m v = none := by
  -- the pages from `start` are its own and those after it
  induction n generalizing start with
  | zero =>
      obtain rfl : start = end_ % 2 ^ 39 := by omega
      rw [bufferEnds_stuck htrunc hend]
      refine ⟨fun hnone => ⟨_, Nat.le_refl _, Nat.le_refl _, hnone⟩, ?_⟩
      rintro ⟨v, hle, hge, hnone⟩
      rwa [Nat.le_antisymm hge hle] at hnone
  | succ n ih =>
      by_cases hlt : start < end_ % 2 ^ 39
      · have hpage : pageOf start = start / 4096 := by
          rw [pageOf_eq, Nat.mod_eq_of_lt (by omega)]
        have hnext := bufferNext_eq end_ start
        rw [bufferEnd_eq, if_pos (by omega)] at hnext
        have hslice : sliceEnd end_ start ≠ none := by
          rw [sliceEnd_of_lt (by omega)]
          exact Option.some_ne_none _
        rw [bufferEnds_iff, hpage, ih (by omega) (by omega)]
        constructor
        · intro h
          by_cases hnone : pt.translate m (start / 4096) = none
          · exact ⟨_, Nat.le_refl _, by omega, hnone⟩
          · obtain ⟨-, -, v, hle, hge, hv⟩ := h (by omega) hnone
            exact ⟨v, by omega, hge, hv⟩
        · rintro ⟨v, hle, hge, hv⟩ - hsome
          refine ⟨hslice, by omega, v, ?_, hge, hv⟩
          have hne : v ≠ start / 4096 := fun heq => hsome (heq ▸ hv)
          omega
      · exact ih (by omega) hstart

end

/-! ## All buffers -/

/-- The loop gets from the start of the buffer to its truncated end and finds itself at the end,
    or it meets a page that does not translate. -/
def BufferRoute (m : Mem) (pt : PageTable) (ptr len : Nat) : Prop :=
  let s := ptr % 2 ^ 39
  let e := (ptr + len) % 2 ^ 39
  len = 0 ∨ pt.translate m (pageOf ptr) = none
    ∨ (2 ^ 38 ≤ e ∧ s < e ∧ (ptr < 2 ^ 38 ∨ 2 ^ 38 - 4096 ≤ s))
    ∨ (2 ^ 38 ≤ e ∧ e ≤ s ∧ (e % 4096 = 0 ∨ s % 4096 ≤ e % 4096))
    ∨ (e < 2 ^ 38 ∧ ptr < 2 ^ 38 ∧ s < e
      ∧ (ptr + len < 2 ^ 38 ∨ ∃ v, s / 4096 ≤ v ∧ v ≤ e / 4096 ∧ pt.translate m v = none))

section

variable {m : Mem} {pt : PageTable} {ptr len : Nat}

/-- The pointer is below its truncated end. -/
theorem bufferEnds_ahead (hend : ptr + len < 2 ^ 64) (hlen : 0 < len)
    (hpage : pt.translate m (pageOf ptr) ≠ none)
    (hlt : ptr % 2 ^ 39 < (ptr + len) % 2 ^ 39) :
    BufferEnds m pt (ptr + len) ptr ↔ BufferRoute m pt ptr len := by
  have hnext := bufferNext_eq (ptr + len) ptr
  rw [bufferEnd_eq] at hnext
  have hslice : sliceEnd (ptr + len) ptr ≠ none := by
    rw [sliceEnd_of_lt hlt]
    exact Option.some_ne_none _
  have hroute : BufferRoute m pt ptr len
      ↔ (2 ^ 38 ≤ (ptr + len) % 2 ^ 39 ∧ (ptr < 2 ^ 38 ∨ 2 ^ 38 - 4096 ≤ ptr % 2 ^ 39))
        ∨ ((ptr + len) % 2 ^ 39 < 2 ^ 38 ∧ ptr < 2 ^ 38 ∧ (ptr + len < 2 ^ 38
          ∨ ∃ v, ptr % 2 ^ 39 / 4096 ≤ v ∧ v ≤ (ptr + len) % 2 ^ 39 / 4096
            ∧ pt.translate m v = none)) := by
    have hne : len ≠ 0 := by omega
    have hnot : ¬ (ptr + len) % 2 ^ 39 ≤ ptr % 2 ^ 39 := by omega
    simp only [BufferRoute, hne, hpage, hlt, hnot, false_or, true_and, false_and, and_false]
  rw [hroute]
  by_cases hhigh : 2 ^ 38 ≤ (ptr + len) % 2 ^ 39
  · by_cases hlow : ptr < 2 ^ 38
    · exact iff_of_true (bufferEnds_low_high hend hhigh _ (Nat.le_refl _) hlow)
        (Or.inl ⟨hhigh, Or.inl hlow⟩)
    · by_cases hlast : 2 ^ 38 - 4096 ≤ ptr % 2 ^ 39
      · rw [if_neg (by omega)] at hnext
        refine iff_of_true (bufferEnds_iff.mpr fun _ _ => ⟨hslice, by omega, ?_⟩)
          (Or.inl ⟨hhigh, Or.inr hlast⟩)
        exact bufferEnds_high hend _ (Nat.le_refl _) (by omega)
      · rw [if_pos (by omega)] at hnext
        refine iff_of_false (not_bufferEnds (by omega) hpage (by omega)) ?_
        omega
  · rw [if_pos (by omega)] at hnext
    by_cases hlow : ptr < 2 ^ 38
    · by_cases hend' : ptr + len < 2 ^ 38
      · exact iff_of_true (bufferEnds_low hend' _ (Nat.le_refl _))
          (Or.inr ⟨by omega, hlow, Or.inl hend'⟩)
      · have hmod : ptr % 2 ^ 39 = ptr := by omega
        rw [bufferEnds_wrapped (by omega) (by omega) _ (Nat.le_refl _) (by omega), hmod]
        constructor
        · exact fun h => Or.inr ⟨by omega, hlow, Or.inr h⟩
        · rintro (h | ⟨-, -, h | h⟩)
          · exact absurd h.1 hhigh
          · exact absurd h hend'
          · exact h
    · refine iff_of_false (not_bufferEnds (by omega) hpage (by omega)) ?_
      rintro (h | h)
      · exact hhigh h.1
      · exact hlow h.2.1

/-- The pointer is not below its truncated end. -/
theorem bufferEnds_behind (hend : ptr + len < 2 ^ 64) (hlen : 0 < len)
    (hpage : pt.translate m (pageOf ptr) ≠ none)
    (hle : (ptr + len) % 2 ^ 39 ≤ ptr % 2 ^ 39) :
    BufferEnds m pt (ptr + len) ptr ↔ BufferRoute m pt ptr len := by
  have hnext := bufferNext_eq (ptr + len) ptr
  have hbe := bufferEnd_eq (ptr + len) ptr
  rw [Nat.min_eq_right (by omega)] at hbe
  rw [hbe] at hnext
  have hslice := sliceEnd_eq (ptr + len) ptr
  rw [hbe] at hslice
  have hroute : BufferRoute m pt ptr len ↔ 2 ^ 38 ≤ (ptr + len) % 2 ^ 39
      ∧ ((ptr + len) % 2 ^ 39 % 4096 = 0
        ∨ ptr % 2 ^ 39 % 4096 ≤ (ptr + len) % 2 ^ 39 % 4096) := by
    have hne : len ≠ 0 := by omega
    have hnot : ¬ ptr % 2 ^ 39 < (ptr + len) % 2 ^ 39 := by omega
    simp only [BufferRoute, hne, hpage, hle, hnot, false_or, or_false, true_and, false_and,
      and_false]
  rw [hroute]
  by_cases hhigh : 2 ^ 38 ≤ (ptr + len) % 2 ^ 39
  · rw [if_neg (by omega)] at hnext
    have hoff : ptr % 2 ^ 39 % 4096 = ptr % 4096 := by omega
    rw [bufferEnds_iff, hslice, hoff]
    constructor
    · intro h
      refine ⟨hhigh, ?_⟩
      by_contra hno
      rw [if_neg (by omega), if_neg (by omega)] at h
      exact (h (by omega) hpage).1 rfl
    · rintro ⟨-, hok⟩ - -
      refine ⟨?_, by omega, bufferEnds_done (by omega)⟩
      split
      · exact Option.some_ne_none _
      · rw [if_pos (by omega)]
        exact Option.some_ne_none _
  · rw [if_pos (by omega)] at hnext
    exact iff_of_false (not_bufferEnds (by omega) hpage (by omega)) fun h => hhigh h.1

end

/-- The loop ends, each turn moving `start` up, if and only if the truncated addresses allow it. -/
theorem byte_buffer_ends (m : Mem) (token ptr len : Nat) (hend : ptr + len < 2 ^ 64) :
    BufferEnds m (fromToken token) ((ptr + len) % 2 ^ 64) ptr
      ↔ BufferRoute m (fromToken token) ptr len := by
  rw [Nat.mod_eq_of_lt hend]
  by_cases hlen : len = 0
  · exact iff_of_true (bufferEnds_done (by omega)) (Or.inl hlen)
  · by_cases hpage : (fromToken token).translate m (pageOf ptr) = none
    · refine iff_of_true (bufferEnds_iff.mpr fun _ hsome => absurd hpage hsome) ?_
      exact Or.inr (Or.inl hpage)
    · rcases Nat.lt_or_ge (ptr % 2 ^ 39) ((ptr + len) % 2 ^ 39) with hlt | hle
      · exact bufferEnds_ahead hend (Nat.pos_of_ne_zero hlen) hpage hlt
      · exact bufferEnds_behind hend (Nat.pos_of_ne_zero hlen) hpage hle

/-- Three mapped pages in the lower half. -/
theorem byte_buffer_ends_low : ∃ s : PageState,
    (∀ v, 5 ≤ v → v ≤ 7 → (fromToken s.pt.token).lookup s.st.mem v ≠ none)
      ∧ BufferEnds s.st.mem (fromToken s.pt.token) ((0x5000 + 0x3000) % 2 ^ 64) 0x5000 := by
  obtain ⟨s₀, s₁, -, -, h₁, hav₁⟩ := exists_one_page
  obtain ⟨s₂, -, h₂, hav₂⟩ := h₁.exists_map (show 6 < 2 ^ 27 by decide)
    (show 101 < 2 ^ 44 by decide) rfl (by omega) PTEFlags.R
  obtain ⟨s, -, h, -⟩ := h₂.exists_map (show 7 < 2 ^ 27 by decide)
    (show 102 < 2 ^ 44 by decide) rfl (by omega) PTEFlags.R
  have hroot : s.pt.rootPpn < 2 ^ 44 :=
    h.owns.lt_two_pow (h.tree.mem [] _ isPath_nil rfl)
  refine ⟨s, ?_, (byte_buffer_ends s.st.mem s.pt.token 0x5000 0x3000 (by decide)).mpr ?_⟩
  · intro v hge hle
    rw [lookup_eq, fromToken_token hroot, ← lookup_eq, h.lookup v (by omega)]
    obtain rfl | rfl | rfl : v = 5 ∨ v = 6 ∨ v = 7 := by omega
    · exact Option.some_ne_none _
    · exact Option.some_ne_none _
    · exact Option.some_ne_none _
  · exact Or.inr (Or.inr (Or.inr (Or.inr
      ⟨by decide, by decide, by decide, Or.inl (by decide)⟩)))

/-- A buffer of 2^39 bytes from a mapped page: the loop stays at its start for ever. -/
theorem byte_buffer_loops : ∃ s : PageState,
    (∃ e, s.pt.lookup s.st.mem 5 = some e)
      ∧ ¬ BufferEnds s.st.mem (fromToken s.pt.token) ((0x5000 + 2 ^ 39) % 2 ^ 64) 0x5000
      ∧ ∀ fuel, translatedByteBuffer fuel s.st.mem s.pt.token 0x5000 (2 ^ 39) = none := by
  obtain ⟨s₀, s, -, -, h, -⟩ := exists_one_page
  have hroot : s.pt.rootPpn < 2 ^ 44 :=
    h.owns.lt_two_pow (h.tree.mem [] _ isPath_nil rfl)
  have hlook : s.pt.lookup s.st.mem 5 = some (pageEntry (100, PTEFlags.R)) := by
    rw [h.lookup 5 (by decide), Function.update_self]
    rfl
  have htrans : (fromToken s.pt.token).translate s.st.mem (pageOf 0x5000)
      = some (pageEntry (100, PTEFlags.R)) := by
    have hpage : pageOf 0x5000 = 5 := by decide
    rw [translate_fromToken hroot, hpage]
    exact translate_of_lookup hlook
  have hmod : (0x5000 + 2 ^ 39) % 2 ^ 64 = 0x5000 + 2 ^ 39 := by decide
  have hnext : bufferNext (0x5000 + 2 ^ 39) 0x5000 = 0x5000 := by decide
  refine ⟨s, ⟨_, hlook⟩, ?_, fun fuel => ?_⟩
  · rw [hmod]
    refine not_bufferEnds (by decide) ?_ (Nat.le_of_eq hnext)
    rw [htrans]
    exact Option.some_ne_none _
  · rw [translatedByteBuffer, hmod]
    induction fuel with
    | zero => rfl
    | succ fuel ih =>
        rw [bufferLoop_succ, bufferTurn, if_pos (by decide), htrans, hnext]
        have hslice : sliceEnd (0x5000 + 2 ^ 39) 0x5000 = some 4096 := by decide
        rw [hslice]
        dsimp only
        rw [ih, Option.map_none]

end Nimloth
