import Mathlib.Tactic.Common
import Nimloth.Memory
import Nimloth.RiscV

/-!
# Translation by the hardware

The page tables of Sv39 as a processor reads them: three levels of 512
entries, an entry with `R` or `X` a leaf on whichever level it stands,
reserved bits that must be zero, and the permissions of a mode. What a
walk does to the bits `A` and `D` is left out, and there are no entries
kept from earlier walks.

`bus` is the memory of a processor behind that translation. How bytes
encode an instruction is the parameter `Decoder`; all that counts is that
the bytes at its address decide. An access across the end of a page is
not described.
-/

namespace Nimloth.Sv39

open RiscV

inductive Access where
  | fetch
  | load
  | store
  deriving DecidableEq

/-! ## Entries -/

def V : UInt8 := 1
def R : UInt8 := 2
def W : UInt8 := 4
def X : UInt8 := 8
def U : UInt8 := 16

def flags (pte : Nat) : UInt8 := UInt8.ofNat pte

def ppn (pte : Nat) : Nat := pte / 1024 % 2 ^ 44

/-- No page fault for the entry as such: the reserved bits are zero, and what may be written may
    be read. -/
def Valid (pte : Nat) : Prop :=
  flags pte &&& V ≠ 0 ∧ pte < 2 ^ 54 ∧ (flags pte &&& W ≠ 0 → flags pte &&& R ≠ 0)

instance (pte : Nat) : Decidable (Valid pte) := inferInstanceAs (Decidable (_ ∧ _ ∧ _))

def Leaf (f : UInt8) : Prop := f &&& R ≠ 0 ∨ f &&& X ≠ 0

instance (f : UInt8) : Decidable (Leaf f) := inferInstanceAs (Decidable (_ ∨ _))

def MXR : UInt64 := 524288

/-- What the flags of a leaf allow. -/
def Grants (v : Regime) (f : UInt8) : Access → Prop
  | .fetch => f &&& X ≠ 0 ∧ (if v.mode = .user then f &&& U ≠ 0 else f &&& U = 0)
  | .load => (f &&& R ≠ 0 ∨ v.sstatus &&& MXR ≠ 0 ∧ f &&& X ≠ 0)
      ∧ (if v.mode = .user then f &&& U ≠ 0 else f &&& U = 0 ∨ v.sstatus &&& Status.SUM ≠ 0)
  | .store => f &&& W ≠ 0
      ∧ (if v.mode = .user then f &&& U ≠ 0 else f &&& U = 0 ∨ v.sstatus &&& Status.SUM ≠ 0)

instance (v : Regime) (f : UInt8) (a : Access) : Decidable (Grants v f a) :=
  match a with
  | .fetch => inferInstanceAs (Decidable (_ ∧ _))
  | .load => inferInstanceAs (Decidable (_ ∧ _))
  | .store => inferInstanceAs (Decidable (_ ∧ _))

/-- The flags of a leaf that an access goes through. -/
def Permits (v : Regime) (f : UInt8) (a : Access) : Prop :=
  (f &&& W ≠ 0 → f &&& R ≠ 0) ∧ Leaf f ∧ Grants v f a

instance (v : Regime) (f : UInt8) (a : Access) : Decidable (Permits v f a) :=
  inferInstanceAs (Decidable (_ ∧ _ ∧ _))

/-! ## The walk -/

/-- The leaf entry for an address, and its level. -/
def walk (m : Mem) (va : Nat) : Nat → Nat → Option (Nat × Nat)
  | level, table =>
      let pte := m.pte table (va / 2 ^ (12 + 9 * level) % 512)
      if Valid pte then
        if Leaf (flags pte) then some (pte, level)
        else match level with
          | 0 => none
          | level + 1 => walk m va level (ppn pte)
      else none

/-- The upper bits repeat bit 38. -/
def Canonical (va : UInt64) : Prop := va.toNat < 2 ^ 38 ∨ 2 ^ 64 - 2 ^ 38 ≤ va.toNat

instance (va : UInt64) : Decidable (Canonical va) := inferInstanceAs (Decidable (_ ∨ _))

/-- Where an access goes. A leaf above the last level is for an aligned range of pages. -/
def translate (m : Mem) (v : Regime) (va : UInt64) (a : Access) : Option Nat :=
  if satpMode v.satp = 0 then some va.toNat
  else if satpMode v.satp = 8 ∧ Canonical va then
    (walk m va.toNat 2 (v.satp.toNat % 2 ^ 44)).bind fun leaf =>
      if Grants v (flags leaf.1) a ∧ ppn leaf.1 % 2 ^ (9 * leaf.2) = 0 then
        some (ppn leaf.1 * 4096 + va.toNat % 2 ^ (12 + 9 * leaf.2))
      else none
  else none

/-! ## The bus -/

/-- The word at a physical address. -/
def word (m : Mem) (pa : Nat) : UInt64 := UInt64.ofNat (leNat (m.read pa 8))

/-- The word at a physical address is replaced. -/
def setWord (m : Mem) (pa : Nat) (w : UInt64) : Mem := m.write pa (leBytes 8 w.toNat)

structure Decoder where
  decode : Mem → Nat → Option (Instr × UInt64)
  congr : ∀ m m' pa, (∀ x, pa ≤ x → x < pa + 4 → m' x = m x) → decode m' pa = decode m pa

def bus (d : Decoder) : Bus Mem where
  fetch m v pc := (translate m v pc .fetch).bind fun pa =>
    (d.decode m pa).filter fun i => pa % 4096 + i.2.toNat ≤ 4096
  load m v va := if va.toNat % 8 = 0 then (translate m v va .load).map (word m) else none
  store m v va w :=
    if va.toNat % 8 = 0 then (translate m v va .store).map fun pa => setWord m pa w else none

/-! ## Words -/

theorem word_setWord (m : Mem) (pa : Nat) (w : UInt64) : word (setWord m pa w) pa = w := by
  have hread := m.read_write pa (leBytes 8 w.toNat)
  rw [leBytes_length] at hread
  have hlt := w.toNat_lt
  unfold word setWord
  rw [hread, leNat_leBytes, Nat.mod_eq_of_lt (by omega), UInt64.ofNat_toNat]

theorem word_setWord_of_disjoint (m : Mem) {pa pa' : Nat} (w : UInt64)
    (h : pa' + 8 ≤ pa ∨ pa + 8 ≤ pa') : word (setWord m pa w) pa' = word m pa' := by
  unfold word setWord
  rw [Mem.read_write_of_disjoint]
  rw [leBytes_length]
  exact h

theorem setWord_outside (m : Mem) {pa x : Nat} (w : UInt64) (h : x < pa ∨ pa + 8 ≤ x) :
    setWord m pa w x = m x := by
  refine Mem.write_outside m ?_
  rw [leBytes_length]
  exact h

theorem word_congr {m m' : Mem} {pa : Nat} (h : ∀ j, j < 8 → m' (pa + j) = m (pa + j)) :
    word m' pa = word m pa := by
  unfold word
  rw [Mem.read_congr h]

/-- Words one after the other. -/
def wordBytes (ws : List UInt64) : List UInt8 := ws.flatMap fun w => leBytes 8 w.toNat

theorem write_append (m : Mem) (pa : Nat) (bs cs : List UInt8) :
    m.write pa (bs ++ cs) = (m.write pa bs).write (pa + bs.length) cs := by
  funext x
  unfold Mem.write
  rw [List.length_append]
  by_cases hcs : pa + bs.length ≤ x ∧ x < pa + bs.length + cs.length
  · rw [if_pos (by omega), if_pos hcs, List.getD_eq_getElem?_getD, List.getD_eq_getElem?_getD,
      List.getElem?_append_right (by omega), Nat.sub_add_eq]
  · rw [if_neg hcs]
    by_cases hbs : pa ≤ x ∧ x < pa + bs.length
    · rw [if_pos (by omega), if_pos hbs, List.getD_eq_getElem?_getD, List.getD_eq_getElem?_getD,
        List.getElem?_append_left (by omega)]
    · rw [if_neg (by omega), if_neg hbs]

theorem word_write_words (m : Mem) (pa : Nat) {ws : List UInt64} {k : Nat} (hk : k < ws.length) :
    word (m.write pa (wordBytes ws)) (pa + 8 * k) = ws[k] := by
  induction ws generalizing m pa k with
  | nil => exact absurd hk (Nat.not_lt_zero k)
  | cons w ws ih =>
      have hcons : wordBytes (w :: ws) = leBytes 8 w.toNat ++ wordBytes ws := List.flatMap_cons
      rw [hcons, write_append, leBytes_length]
      cases k with
      | zero =>
          have hread : ((setWord m pa w).write (pa + 8) (wordBytes ws)).read pa 8
              = (setWord m pa w).read pa 8 :=
            Mem.read_write_of_disjoint _ (Or.inl (Nat.le_refl _))
          rw [Nat.mul_zero, Nat.add_zero, word]
          exact (congrArg (fun bs => UInt64.ofNat (leNat bs)) hread).trans (word_setWord m pa w)
      | succ k =>
          have hpos : pa + 8 * (k + 1) = pa + 8 + 8 * k := by omega
          rw [hpos, List.getElem_cons_succ]
          exact ih _ _ (by simpa using hk)

/-- Words at `pa`, for addresses that translate there for loads and stores, different ones to
    places apart. -/
theorem words (d : Decoder) {v : Regime} {I : Mem → Prop} {S : UInt64 → Prop} {pa : UInt64 → Nat}
    (hload : ∀ m a, I m → S a → translate m v a .load = some (pa a))
    (hstore : ∀ m a, I m → S a → translate m v a .store = some (pa a))
    (haligned : ∀ a, S a → a.toNat % 8 = 0)
    (hapart : ∀ a a', S a → S a' → a ≠ a' → pa a' + 8 ≤ pa a ∨ pa a + 8 ≤ pa a')
    (hkeep : ∀ m a w, I m → S a → I (setWord m (pa a) w)) :
    Words (bus d) v I S fun m a => word m (pa a) where
  load m a hI ha := by
    show (if a.toNat % 8 = 0 then _ else _) = _
    rw [if_pos (haligned a ha), hload m a hI ha, Option.map_some]
  store m a w hI ha := by
    refine ⟨setWord m (pa a) w, ?_, hkeep m a w hI ha, word_setWord m (pa a) w, ?_⟩
    · show (if a.toNat % 8 = 0 then _ else _) = _
      rw [if_pos (haligned a ha), hstore m a hI ha, Option.map_some]
    · intro a' ha' hne
      exact word_setWord_of_disjoint m w (hapart a a' ha ha' (Ne.symm hne))

/-! ## Code in a frame -/

/-- The instructions lie in frame `n` from offset `o` on. -/
def Placed (d : Decoder) (len : Instr → UInt64) (m : Mem) (n : Nat) : Nat → List Instr → Prop
  | _, [] => True
  | o, i :: is => d.decode m (n * 4096 + o) = some (i, len i) ∧ o + 4 ≤ 4096 ∧ (len i).toNat ≤ 4
      ∧ Placed d len m n (o + (len i).toNat) is

section Placed

variable {d : Decoder} {len : Instr → UInt64} {m m' : Mem} {n o : Nat} {is : List Instr}
  {v : Regime}

theorem Placed.congr (h : Placed d len m n o is)
    (hs : ∀ x, n * 4096 ≤ x → x < (n + 1) * 4096 → m' x = m x) : Placed d len m' n o is := by
  induction is generalizing o with
  | nil => trivial
  | cons i is ih =>
      obtain ⟨hdecode, hfits, hlen, hrest⟩ := h
      have hend : n * 4096 + o + 4 ≤ (n + 1) * 4096 := by
        rw [Nat.succ_mul, Nat.add_assoc]
        exact Nat.add_le_add_left hfits _
      have hsame := d.congr m m' (n * 4096 + o) fun x h₁ h₂ =>
        hs x ((Nat.le_add_right _ _).trans h₁) (h₂.trans_le hend)
      exact ⟨hsame.trans hdecode, hfits, hlen, ih hrest⟩

/-- They are fetched where the page is mapped to the frame. -/
theorem Placed.loaded {page : Nat} {va : UInt64} (h : Placed d len m n o is)
    (htr : ∀ va : UInt64, va.toNat / 4096 = page →
      translate m v va .fetch = some (n * 4096 + va.toNat % 4096))
    (hva : va.toNat = page * 4096 + o) : Loaded (bus d) len m v va is := by
  induction is generalizing o va with
  | nil => trivial
  | cons i is ih =>
      obtain ⟨hdecode, hfits, hlen, hrest⟩ := h
      refine ⟨?_, ?_⟩
      · have hpage : va.toNat / 4096 = page := by omega
        have hoff : va.toNat % 4096 = o := by omega
        show (translate m v va .fetch).bind _ = _
        have hmod : (n * 4096 + o) % 4096 = o := by
          rw [Nat.mul_add_mod_self_right]
          exact Nat.mod_eq_of_lt (by omega)
        rw [htr va hpage, Option.bind_some, hoff, hdecode, Option.filter_some, if_pos]
        rw [decide_eq_true_eq, hmod]
        exact (Nat.add_le_add_left hlen o).trans hfits
      · cases is with
        | nil => trivial
        | cons j js =>
            -- the next one begins in the frame, so the address does not wrap
            have hnext := hrest.2.1
            have hlt := va.toNat_lt
            refine ih hrest ?_
            rw [UInt64.toNat_add]
            omega

end Placed

/-! ## Code at an address -/

/-- The instructions lie at `pa`, none of them across the end of a page. -/
def Lies (d : Decoder) (len : Instr → UInt64) (m : Mem) : Nat → List Instr → Prop
  | _, [] => True
  | pa, i :: is => d.decode m pa = some (i, len i) ∧ pa % 4096 + 4 ≤ 4096 ∧ (len i).toNat ≤ 4
      ∧ Lies d len m (pa + (len i).toNat) is

section Lies

variable {d : Decoder} {len : Instr → UInt64} {m m' : Mem} {pa : Nat} {is : List Instr}
  {v : Regime}

theorem Lies.congr (h : Lies d len m pa is)
    (hs : ∀ x, pa ≤ x → x < pa + 4 * is.length → m' x = m x) : Lies d len m' pa is := by
  induction is generalizing pa with
  | nil => trivial
  | cons i is ih =>
      obtain ⟨hdecode, hfits, hlen, hrest⟩ := h
      rw [List.length_cons] at hs
      have hsame := d.congr m m' pa fun x h₁ h₂ => hs x h₁ (by omega)
      exact ⟨hsame.trans hdecode, hfits, hlen, ih hrest fun x h₁ h₂ => hs x (by omega) (by omega)⟩

theorem Placed.lies {n o : Nat} (h : Placed d len m n o is) :
    Lies d len m (n * 4096 + o) is := by
  induction is generalizing o with
  | nil => trivial
  | cons i is ih =>
      obtain ⟨hdecode, hfits, hlen, hrest⟩ := h
      have hmod : (n * 4096 + o) % 4096 = o := by
        rw [Nat.mul_add_mod_self_right]
        exact Nat.mod_eq_of_lt (by omega)
      refine ⟨hdecode, by rw [hmod]; exact hfits, hlen, ?_⟩
      rw [Nat.add_assoc]
      exact ih hrest

/-- They are fetched where pages are mapped to themselves. -/
theorem Lies.loaded {va : UInt64} (h : Lies d len m pa is)
    (htr : ∀ va : UInt64, pa ≤ va.toNat → va.toNat < pa + 4 * is.length →
      translate m v va .fetch = some va.toNat)
    (hva : va.toNat = pa) (hlt : pa + 4 * is.length < 2 ^ 64) : Loaded (bus d) len m v va is := by
  induction is generalizing pa va with
  | nil => trivial
  | cons i is ih =>
      obtain ⟨hdecode, hfits, hlen, hrest⟩ := h
      rw [List.length_cons] at htr hlt
      refine ⟨?_, ih hrest (fun w h₁ h₂ => htr w (by omega) (by omega)) ?_ (by omega)⟩
      · show (translate m v va .fetch).bind _ = _
        rw [htr va (by omega) (by omega), Option.bind_some, hva, hdecode, Option.filter_some,
          if_pos]
        rw [decide_eq_true_eq]
        exact (Nat.add_le_add_left hlen _).trans hfits
      · rw [UInt64.toNat_add]
        omega

end Lies

end Nimloth.Sv39
