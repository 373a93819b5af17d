import Mathlib.Tactic.Common
import Mathlib.Data.List.TakeWhile
import Mathlib.Data.String.Basic

/-!
# Strings as names

Two things that a file system does with a string. A path is split at the
slashes; a name is stored as its bytes and read back up to the first zero
byte. The bytes of a character are all nonzero unless it is NUL, so the
bytes before the first zero byte are those of the characters before the
first NUL, and decode again.
-/

namespace Nimloth

open String

/-! ## Splitting at slashes -/

theorem splitOnAux_slash (l m r : List Char) (acc : List String) :
    splitOnAux (ofList (l ++ m ++ r)) "/" ⟨utf8Len l⟩ ⟨utf8Len l + utf8Len m⟩ 0 acc
      = acc.reverse ++ (List.splitOnPPrepend (· == '/') r m.reverse).map ofList := by
  have hsep : Pos.Raw.get "/" 0 = '/' := by decide
  have hnext : Pos.Raw.next "/" 0 = ⟨1⟩ := by decide
  have hend : Pos.Raw.atEnd "/" ⟨1⟩ = true := by decide
  induction r generalizing l m acc with
  | nil =>
      have hext := extract_of_valid l m []
      have hdone : Pos.Raw.atEnd (ofList (l ++ m ++ [])) ⟨utf8Len l + utf8Len m⟩ = true := by
        simp only [atEnd_iff, rawEndPos_ofList, utf8Len_append, utf8Len_nil, Nat.add_zero,
          Pos.Raw.mk_le_mk, Nat.le_refl]
      unfold splitOnAux
      rw [if_pos hdone, hext]
      simp
  | cons c r ih =>
      have hget := get_of_valid (l ++ m) (c :: r)
      have hstep := next_of_valid (l ++ m) c r
      have hext := extract_of_valid l m (c :: r)
      rw [utf8Len_append] at hget hstep
      have hpos := Char.utf8Size_pos c
      have hmore : ¬ Pos.Raw.atEnd (ofList (l ++ m ++ c :: r)) ⟨utf8Len l + utf8Len m⟩ = true := by
        simp only [atEnd_iff, rawEndPos_ofList, utf8Len_append, utf8Len_cons, Pos.Raw.mk_le_mk]
        omega
      unfold splitOnAux
      rw [if_neg hmore, hget, hsep, hnext, hstep]
      by_cases hc : c = '/'
      · subst hc
        have h := ih (l ++ m ++ ['/']) [] (ofList m :: acc)
        have hback : (⟨utf8Len l + utf8Len m + Char.utf8Size '/'⟩ : Pos.Raw).unoffsetBy ⟨1⟩
            = ⟨utf8Len l + utf8Len m⟩ := rfl
        simp only [List.headD_cons, BEq.rfl, if_true, hend, hback, hext]
        simp only [List.append_assoc, List.cons_append, List.nil_append, utf8Len_append,
          utf8Len_cons, utf8Len_nil, Nat.zero_add, Nat.add_zero, ← Nat.add_assoc] at h ⊢
        rw [h]
        simp [List.splitOnPPrepend_cons_eq_if]
      · have h := ih l (m ++ [c]) acc
        have hbeq : ((c :: r).headD default == '/') = false := by simpa using hc
        have hback : Pos.Raw.next (ofList (l ++ m ++ c :: r))
            ((⟨utf8Len l + utf8Len m⟩ : Pos.Raw).unoffsetBy 0)
              = ⟨utf8Len l + utf8Len m + c.utf8Size⟩ := hstep
        rw [hbeq, hback]
        simp only [List.append_assoc, List.cons_append, List.nil_append, utf8Len_append,
          utf8Len_cons, utf8Len_nil, Nat.zero_add, ← Nat.add_assoc] at h ⊢
        simp only [Bool.false_eq_true, if_false, h]
        simp [List.splitOnPPrepend_cons_eq_if, hc]

theorem splitOn_slash (s : String) : s.splitOn "/" = (s.toList.splitOn '/').map ofList := by
  have h := splitOnAux_slash [] [] s.toList []
  simp only [List.nil_append, ofList_toList, utf8Len_nil, Nat.add_zero, List.reverse_nil] at h
  unfold String.splitOn
  rw [if_neg (by decide)]
  exact h

/-- The components of a path: what is between the slashes and not empty. -/
def components (path : String) : List String := (path.splitOn "/").filter (· ≠ "")

theorem components_append (p q : String) :
    components (p ++ "/" ++ q) = components p ++ components q := by
  have hlist : (p ++ "/" ++ q).toList = p.toList ++ '/' :: q.toList := by
    rw [toList_append, toList_append, List.append_assoc]
    rfl
  unfold components
  rw [splitOn_slash, splitOn_slash, splitOn_slash, hlist, List.splitOn_append_cons_self,
    List.map_append, List.filter_append]

theorem components_empty : components "" = [] := by
  simp [components, splitOn_slash]

theorem components_leading (p : String) : components ("/" ++ p) = components p := by
  have h := components_append "" p
  rwa [components_empty, List.nil_append, String.empty_append] at h

theorem components_trailing (p : String) : components (p ++ "/") = components p := by
  have h := components_append p ""
  rwa [components_empty, List.append_nil, String.append_empty] at h

theorem components_repeated (p q : String) :
    components (p ++ "//" ++ q) = components (p ++ "/" ++ q) := by
  have hsplit : p ++ "//" ++ q = p ++ "/" ++ "/" ++ q := by
    rw [← toList_inj]
    simp [toList_append]
  rw [hsplit, components_append, components_trailing, components_append]

/-- A string without a slash is one component, or none if it is empty. -/
theorem components_of_no_slash {s : String} (h : '/' ∉ s.toList) :
    components s = if s = "" then [] else [s] := by
  unfold components
  rw [splitOn_slash, List.splitOn_eq_singleton h]
  by_cases hs : s = ""
  · simp [hs]
  · simp [hs]

/-- A string with a slash, cut at its first. -/
theorem exists_split {s : String} (h : '/' ∈ s.toList) :
    ∃ p q, s = p ++ "/" ++ q ∧ '/' ∉ p.toList := by
  obtain ⟨l, r, hlist, hl⟩ := List.eq_append_cons_of_mem h
  refine ⟨ofList l, ofList r, ?_, by rwa [toList_ofList]⟩
  rw [← toList_inj, hlist]
  simp [toList_append]

theorem mem_components_of_no_slash {s c : String} (h : '/' ∉ s.toList) (hc : c ∈ components s) :
    c = s ∧ s ≠ "" := by
  rw [components_of_no_slash h] at hc
  split at hc
  · cases hc
  · next hne => exact ⟨List.mem_singleton.mp hc, hne⟩

theorem mem_components {s c : String} (hc : c ∈ components s) : c ≠ "" ∧ '/' ∉ c.toList := by
  induction hn : s.toList.length using Nat.strong_induction_on generalizing s with
  | _ n ih =>
      by_cases hslash : '/' ∈ s.toList
      · obtain ⟨p, q, rfl, hp⟩ := exists_split hslash
        rw [components_append] at hc
        rcases List.mem_append.mp hc with hc | hc
        · obtain ⟨rfl, hne⟩ := mem_components_of_no_slash hp hc
          exact ⟨hne, hp⟩
        · refine ih q.toList.length ?_ hc rfl
          rw [← hn]
          simp only [toList_append, List.length_append]
          have hone : "/".toList.length = 1 := rfl
          omega
      · obtain ⟨rfl, hne⟩ := mem_components_of_no_slash hslash hc
        exact ⟨hne, hslash⟩

/-- Only slashes, and there is no component. -/
theorem components_eq_nil_iff {s : String} : components s = [] ↔ ∀ c ∈ s.toList, c = '/' := by
  induction hn : s.toList.length using Nat.strong_induction_on generalizing s with
  | _ n ih =>
      by_cases hslash : '/' ∈ s.toList
      · obtain ⟨p, q, rfl, hp⟩ := exists_split hslash
        have hlist : (p ++ "/" ++ q).toList = p.toList ++ '/' :: q.toList := by
          rw [toList_append, toList_append, List.append_assoc]
          rfl
        rw [hlist, List.length_append, List.length_cons] at hn
        have hq := ih q.toList.length (by omega) rfl
        rw [components_append, List.append_eq_nil_iff, hq, components_of_no_slash hp, hlist]
        constructor
        · rintro ⟨hnil, hall⟩ c hc
          have hempty : p = "" := by
            by_contra hne
            rw [if_neg hne] at hnil
            cases hnil
          rw [hempty] at hc
          rcases List.mem_cons.mp hc with rfl | hc
          · rfl
          · exact hall c hc
        · intro hall
          refine ⟨if_pos ?_, fun c hc => hall c (by simp [hc])⟩
          rw [← toList_inj]
          refine List.eq_nil_iff_forall_not_mem.mpr fun c hc => hp ?_
          rw [← hall c (List.mem_append_left _ hc)]
          exact hc
      · rw [components_of_no_slash hslash]
        constructor
        · intro hnil c hc
          by_cases hempty : s = ""
          · rw [hempty] at hc
            cases hc
          · rw [if_neg hempty] at hnil
            cases hnil
        · intro hall
          refine if_pos ?_
          rw [← toList_inj]
          refine List.eq_nil_iff_forall_not_mem.mpr fun c hc => hslash ?_
          rw [← hall c hc]
          exact hc

/-! ## Bytes up to the first zero -/

/-- The bytes of a string. -/
def nameBytes (s : String) : List UInt8 := s.toUTF8.data.toList

theorem nameBytes_ofList (l : List Char) : nameBytes (ofList l) = l.flatMap utf8EncodeChar := by
  unfold nameBytes
  rw [toUTF8_eq_toByteArray, toByteArray_ofList]
  simp [List.utf8Encode]

theorem zero_mem_utf8EncodeChar {c : Char} : 0 ∈ utf8EncodeChar c ↔ c = '\x00' := by
  have hmod : ∀ n, UInt8.ofNat n = 0 ↔ n % 256 = 0 := by
    intro n
    rw [← UInt8.toNat_inj, UInt8.toNat_ofNat']
    rfl
  have hzero : c = '\x00' ↔ c.val.toNat = 0 := by
    rw [Char.ext_iff, ← UInt32.toNat_inj]
    rfl
  rw [hzero, utf8EncodeChar]
  split
  · rw [List.mem_singleton, eq_comm, hmod]
    omega
  · split
    · simp only [List.mem_cons, List.not_mem_nil, or_false, eq_comm (a := (0 : UInt8)), hmod]
      omega
    · split
      · simp only [List.mem_cons, List.not_mem_nil, or_false, eq_comm (a := (0 : UInt8)), hmod]
        omega
      · simp only [List.mem_cons, List.not_mem_nil, or_false, eq_comm (a := (0 : UInt8)), hmod]
        omega

theorem fromUTF8_nameBytes (s : String) : String.fromUTF8? ⟨(nameBytes s).toArray⟩ = some s := by
  have hbytes : (⟨(nameBytes s).toArray⟩ : ByteArray) = s.toByteArray := rfl
  rw [hbytes, String.fromUTF8?, dif_pos s.isValidUTF8]
  rfl

/-- The name up to its first NUL. -/
def untilNul (s : String) : String := ofList (s.toList.takeWhile (· ≠ '\x00'))

theorem takeWhile_utf8Encode (l : List Char) : (l.flatMap utf8EncodeChar).takeWhile (· ≠ 0)
    = (l.takeWhile (· ≠ '\x00')).flatMap utf8EncodeChar := by
  induction l with
  | nil => rfl
  | cons c l ih =>
      by_cases hc : c = '\x00'
      · subst hc
        simp [utf8EncodeChar]
      · have hbytes : ∀ b ∈ utf8EncodeChar c, decide (b ≠ 0) = true := by
          intro b hb
          rw [decide_eq_true_eq]
          rintro rfl
          exact hc (zero_mem_utf8EncodeChar.mp hb)
        rw [List.flatMap_cons, List.takeWhile_append_of_pos hbytes, ih,
          List.takeWhile_cons_of_pos (by simpa using hc), List.flatMap_cons]

theorem takeWhile_nameBytes (s : String) :
    (nameBytes s).takeWhile (· ≠ 0) = nameBytes (untilNul s) := by
  have h := nameBytes_ofList s.toList
  rw [ofList_toList] at h
  rw [h, takeWhile_utf8Encode, untilNul, nameBytes_ofList]

theorem zero_mem_nameBytes {s : String} : 0 ∈ nameBytes s ↔ '\x00' ∈ s.toList := by
  have h := nameBytes_ofList s.toList
  rw [ofList_toList] at h
  rw [h, List.mem_flatMap]
  constructor
  · rintro ⟨c, hc, hzero⟩
    rwa [← zero_mem_utf8EncodeChar.mp hzero]
  · intro hmem
    exact ⟨_, hmem, zero_mem_utf8EncodeChar.mpr rfl⟩

theorem untilNul_of_not_mem {s : String} (h : '\x00' ∉ s.toList) : untilNul s = s := by
  unfold untilNul
  rw [List.takeWhile_eq_self_iff.mpr, ofList_toList]
  intro c hc
  rw [decide_eq_true_eq]
  rintro rfl
  exact h hc

theorem mem_untilNul {s : String} {c : Char} (h : c ∈ (untilNul s).toList) :
    c ∈ s.toList ∧ c ≠ '\x00' := by
  unfold untilNul at h
  rw [toList_ofList] at h
  exact ⟨(List.takeWhile_prefix _).subset h, by simpa using List.mem_takeWhile_imp h⟩

/-- A string that is stored as its only component is that component. -/
theorem eq_of_components {s c : String} (hc : components s = [c]) (hnul : untilNul s = c) : s = c := by
  obtain ⟨hne, hslash⟩ := @mem_components s c (by simp [hc])
  by_cases hs : '/' ∈ s.toList
  · obtain ⟨p, q, rfl, hp⟩ := exists_split hs
    exfalso
    by_cases hpn : '\x00' ∈ p.toList
    · -- The first component contains the NUL.
      have hmem : p ∈ components (p ++ "/" ++ q) := by
        rw [components_append, components_of_no_slash hp, if_neg]
        · simp
        · rintro rfl
          simp at hpn
      rw [hc, List.mem_singleton] at hmem
      rw [hmem, ← hnul] at hpn
      exact (mem_untilNul hpn).2 rfl
    · -- What is stored goes beyond the slash.
      apply hslash
      rw [← hnul]
      unfold untilNul
      have hall : ∀ a ∈ p.toList, decide (a ≠ '\x00') = true := by
        intro a ha
        rw [decide_eq_true_eq]
        rintro rfl
        exact hpn ha
      have hlist : (p ++ "/" ++ q).toList = p.toList ++ '/' :: q.toList := by
        rw [toList_append, toList_append, List.append_assoc]
        rfl
      rw [toList_ofList, hlist, List.takeWhile_append_of_pos hall,
        List.takeWhile_cons_of_pos (by decide)]
      simp
  · exact (mem_components_of_no_slash hs (by simp [hc])).1.symm

end Nimloth
