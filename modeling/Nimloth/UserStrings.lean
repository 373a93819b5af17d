import Nimloth.Names
import Nimloth.UserPages
import Nimloth.UserRegion

/-!
# Strings from user memory

`translated_str` and the loop of `sys_exec` that reads its arguments. The
bytes up to the first zero are pushed to a `String` one by one, each as
the character of that number. Such a string has those bytes only if they
are all ASCII: the characters from 128 on take two bytes each.
-/

namespace Nimloth

open Outcome PageTable MemorySet

/-! ## The code -/

/-- `string.push(ch as char)` for the bytes of the loop. -/
def pushChars (bs : List UInt8) : String := String.ofList (bs.map Char.ofUInt8)

/-- `translated_str`; `none` is the panic, or that the fuel is not enough. -/
def translatedStr (m : Mem) (token fuel ptr : Nat) : Option String :=
  (strLoop m token fuel ptr).2.map pushChars

/-- `translated_str` with a heap that has buffers of the sizes in `heap`. -/
def translatedStrOn (heap : Nat → Bool) (m : Mem) (token fuel ptr : Nat) : Option String :=
  (translatedStr m token fuel ptr).filter fun str =>
    HasRoom heap (stringBuffers (nameBytes str).length)

/-- The loop of `sys_exec` over its arguments. -/
def readArgs (m : Mem) (token : Nat) : Nat → Nat → Option (List String)
  | 0, _ => none
  | fuel + 1, args => do
      let pa ← translatedRef m token args
      let argStrPtr := leNat (m.read pa 8)
      if argStrPtr = 0 then pure []
      else
        let arg ← translatedStr m token fuel argStrPtr
        let rest ← readArgs m token fuel ((args + 8) % 2 ^ 64)
        pure (arg :: rest)

/-! ## Characters -/

theorem val_ofUInt8 (b : UInt8) : (Char.ofUInt8 b).val.toNat = b.toNat :=
  UInt8.toNat_toUInt32 b

theorem utf8EncodeChar_ascii {b : UInt8} (h : b < 128) :
    String.utf8EncodeChar (Char.ofUInt8 b) = [b] := by
  have hlt : b.toNat < 128 := UInt8.lt_iff_toNat_lt.mp h
  unfold String.utf8EncodeChar
  rw [val_ofUInt8]
  dsimp only
  rw [if_pos (by omega), UInt8.ofNat_toNat]

theorem length_utf8EncodeChar_wide {b : UInt8} (h : ¬ b < 128) :
    (String.utf8EncodeChar (Char.ofUInt8 b)).length = 2 := by
  have hge : ¬ b.toNat < 128 := fun hlt => h (UInt8.lt_iff_toNat_lt.mpr hlt)
  have hlt := b.toNat_lt
  unfold String.utf8EncodeChar
  rw [val_ofUInt8]
  dsimp only
  rw [if_neg (by omega), if_pos (by omega)]
  rfl

theorem nameBytes_pushChars (bs : List UInt8) :
    nameBytes (pushChars bs) = bs.flatMap fun b => String.utf8EncodeChar (Char.ofUInt8 b) := by
  rw [pushChars, nameBytes_ofList, List.flatMap_map]

/-- A byte that is not ASCII takes two. -/
theorem length_nameBytes_pushChars (bs : List UInt8) :
    (nameBytes (pushChars bs)).length = pushedLength bs := by
  rw [nameBytes_pushChars, pushedLength]
  induction bs with
  | nil => rfl
  | cons b bs ih =>
      rw [List.flatMap_cons, List.length_append, List.length_cons, ih]
      by_cases h : b < 128
      · rw [utf8EncodeChar_ascii h, List.countP_cons_of_neg (by simpa using h),
          List.length_singleton]
        omega
      · rw [length_utf8EncodeChar_wide h, List.countP_cons_of_pos (by simpa using h)]
        omega

/-- The string has the bytes that were read if and only if these are ASCII. -/
theorem nameBytes_pushChars_iff (bs : List UInt8) :
    nameBytes (pushChars bs) = bs ↔ ∀ b ∈ bs, b < 128 := by
  constructor
  · intro heq b hb
    have hlen := length_nameBytes_pushChars bs
    rw [heq, pushedLength] at hlen
    have hcount : bs.countP (¬ · < 128) = 0 := by omega
    simpa using List.countP_eq_zero.mp hcount b hb
  · intro hall
    rw [nameBytes_pushChars]
    induction bs with
    | nil => rfl
    | cons b bs ih =>
        rw [List.flatMap_cons, utf8EncodeChar_ascii (hall b List.mem_cons_self),
          ih fun c hc => hall c (List.mem_cons_of_mem _ hc)]
        rfl

/-! ## Bytes that are read -/

/-- A string of C: the bytes, then a zero. -/
def CStrAt (m : Mem) (pt : PageTable) (va : Nat) (bs : List UInt8) : Prop :=
  0 ∉ bs ∧ HoldsAt m pt va (bs ++ [0])

/-- An array of pointers to strings, with a null pointer at its end. -/
def ArgvAt (m : Mem) (pt : PageTable) : Nat → List (List UInt8) → Prop
  | va, [] => HoldsAt m pt va (leBytes 8 0)
  | va, bs :: bss => (∃ ptr, 0 < ptr ∧ ptr < 2 ^ 64 ∧ HoldsAt m pt va (leBytes 8 ptr)
      ∧ CStrAt m pt ptr bs) ∧ ArgvAt m pt (va + 8) bss

section Read

variable {m : Mem} {pt : PageTable} {va : Nat}

theorem HoldsAt.left {bs cs : List UInt8} (h : HoldsAt m pt va (bs ++ cs)) :
    HoldsAt m pt va bs := by
  intro j b hb
  refine h j b ?_
  rw [List.getElem?_append_left (List.getElem?_eq_some_iff.mp hb).1]
  exact hb

theorem HoldsAt.right {bs cs : List UInt8} (h : HoldsAt m pt va (bs ++ cs)) :
    HoldsAt m pt (va + bs.length) cs := by
  intro j b hb
  rw [Nat.add_assoc]
  refine h (bs.length + j) b ?_
  rw [List.getElem?_append_right (Nat.le_add_right _ _), Nat.add_sub_cancel_left]
  exact hb

theorem HoldsAt.tail {b : UInt8} {bs : List UInt8} (h : HoldsAt m pt va (b :: bs)) :
    HoldsAt m pt (va + 1) bs := @HoldsAt.right m pt va [b] bs h

/-- A byte that is mapped is what the reference of its address points to. -/
theorem translatedPtr_of_byteAt (hroot : pt.rootPpn < 2 ^ 44)
    (hpos : ∀ v e, v < 2 ^ 27 → pt.lookup m v = some e → 0 < e.ppn) {b : UInt8}
    (h : byteAt m pt va = some b) : ∃ pa, translatedPtr m pt.token (va % 2 ^ 64) = some pa
      ∧ physAt m pt va = some pa ∧ m pa = b := by
  obtain ⟨pa, hpa, hb⟩ := Option.map_eq_some_iff.mp h
  obtain ⟨e, he, hpe⟩ := physAt_eq_some.mp hpa
  refine ⟨pa, ?_, hpa, hb⟩
  have hpage : pageOf (va % 2 ^ 64) = pageOf va := by
    rw [pageOf_eq, pageOf_eq]
    omega
  have hoff : va % 2 ^ 64 % 4096 = va % 4096 := by omega
  have hppn := hpos _ _ (pageOf_lt va) he
  rw [translatedPtr_eq hroot, hpage, translate_of_lookup he, hoff, hpe]
  exact if_neg (by omega)

theorem strLoop_holds (hroot : pt.rootPpn < 2 ^ 44)
    (hpos : ∀ v e, v < 2 ^ 27 → pt.lookup m v = some e → 0 < e.ppn) {bs : List UInt8}
    (h : CStrAt m pt va bs) {fuel : Nat} (hfuel : bs.length < fuel) :
    (strLoop m pt.token fuel (va % 2 ^ 64)).2 = some bs := by
  obtain ⟨hnul, hheld⟩ := h
  induction bs generalizing va fuel with
  | nil =>
      obtain ⟨pa, hpa, -, hb⟩ := translatedPtr_of_byteAt hroot hpos (hheld 0 0 rfl)
      cases fuel with
      | zero => exact absurd hfuel (Nat.not_lt_zero _)
      | succ fuel =>
          rw [Nat.add_zero] at hpa
          rw [strLoop, hpa]
          dsimp only
          rw [if_pos hb]
  | cons b bs ih =>
      obtain ⟨pa, hpa, -, hb⟩ := translatedPtr_of_byteAt hroot hpos (hheld 0 b rfl)
      cases fuel with
      | zero => exact absurd hfuel (Nat.not_lt_zero _)
      | succ fuel =>
          have hne : m pa ≠ 0 := fun hz => hnul (by rw [← hz, hb]; exact List.mem_cons_self)
          have hrest := @ih (va + 1) fuel (Nat.lt_of_succ_lt_succ hfuel)
            (fun hmem => hnul (List.mem_cons_of_mem _ hmem)) hheld.tail
          have hmod : (va % 2 ^ 64 + 1) % 2 ^ 64 = (va + 1) % 2 ^ 64 := by omega
          rw [Nat.add_zero] at hpa
          rw [strLoop, hpa]
          dsimp only
          rw [if_neg hne, hmod, hrest, hb]
          rfl

/-- `translated_str` returns the bytes up to the zero, pushed as characters. -/
theorem CStrAt.translatedStr (hroot : pt.rootPpn < 2 ^ 44)
    (hpos : ∀ v e, v < 2 ^ 27 → pt.lookup m v = some e → 0 < e.ppn) {bs : List UInt8}
    (h : CStrAt m pt va bs) (hva : va < 2 ^ 64) {fuel : Nat} (hfuel : bs.length < fuel) :
    translatedStr m pt.token fuel va = some (pushChars bs) := by
  have hread := strLoop_holds hroot hpos h hfuel
  rw [Nat.mod_eq_of_lt hva] at hread
  rw [Nimloth.translatedStr, hread]
  rfl

/-- An aligned word. -/
theorem readWord_holds (hroot : pt.rootPpn < 2 ^ 44)
    (hpos : ∀ v e, v < 2 ^ 27 → pt.lookup m v = some e → 0 < e.ppn) (haligned : va % 8 = 0)
    {n : Nat} (h : HoldsAt m pt va (leBytes 8 n)) :
    ∃ pa, translatedRef m pt.token (va % 2 ^ 64) = some pa
      ∧ leNat (m.read pa 8) = n % 2 ^ 64 := by
  have hlen := leBytes_length 8 n
  obtain ⟨b, hb⟩ : ∃ b, (leBytes 8 n)[0]? = some b :=
    ⟨_, List.getElem?_eq_getElem (by omega)⟩
  obtain ⟨pa, hpa, hphys, -⟩ := translatedPtr_of_byteAt hroot hpos (h 0 b hb)
  rw [Nat.add_zero] at hpa hphys
  refine ⟨pa, hpa, ?_⟩
  obtain ⟨e, he, rfl⟩ := physAt_eq_some.mp hphys
  have hread : m.read (e.ppn * 4096 + va % 4096) 8 = leBytes 8 n := by
    refine List.ext_getElem (by rw [Mem.length_read, hlen]) fun j hj hj' => ?_
    rw [hlen] at hj'
    have hoff : va % 4096 + j = (va + j) % 4096 := by omega
    have hbyte := h j _ (List.getElem?_eq_getElem (by omega))
    have hpage : pageOf (va + j) = pageOf va := by
      rw [pageOf_eq, pageOf_eq]
      omega
    obtain ⟨x, hx, hval⟩ := Option.map_eq_some_iff.mp hbyte
    rw [physAt, hpage, he, Option.map_some, Option.some.injEq] at hx
    rw [Mem.getElem_read, ← hval, ← hx, Nat.add_assoc, hoff]
  have hwidth : 256 ^ 8 = 2 ^ 64 := by norm_num
  rw [hread, leNat_leBytes, hwidth]

/-- The arguments that are read are those of the array, as strings. -/
theorem readArgs_holds (hroot : pt.rootPpn < 2 ^ 44)
    (hpos : ∀ v e, v < 2 ^ 27 → pt.lookup m v = some e → 0 < e.ppn) (haligned : va % 8 = 0)
    {bss : List (List UInt8)} (h : ArgvAt m pt va bss) {fuel : Nat}
    (hfuel : (bss.map fun bs => bs.length + 1).sum < fuel) :
    readArgs m pt.token fuel (va % 2 ^ 64) = some (bss.map pushChars) := by
  induction bss generalizing va fuel with
  | nil =>
      obtain ⟨pa, hpa, hword⟩ := readWord_holds hroot hpos haligned h
      cases fuel with
      | zero => exact absurd hfuel (Nat.not_lt_zero _)
      | succ fuel =>
          rw [readArgs, hpa]
          simp only [Option.bind_eq_bind, Option.bind_some, hword]
          rfl
  | cons bs bss ih =>
      obtain ⟨⟨ptr, hptr, hlt, hheld, hstr⟩, hrest⟩ := h
      obtain ⟨pa, hpa, hword⟩ := readWord_holds hroot hpos haligned hheld
      rw [Nat.mod_eq_of_lt hlt] at hword
      rw [List.map_cons, List.sum_cons] at hfuel
      cases fuel with
      | zero => exact absurd hfuel (Nat.not_lt_zero _)
      | succ fuel =>
          have hread := hstr.translatedStr hroot hpos hlt (show bs.length < fuel by omega)
          have hargs := @ih (va + 8) (by omega) hrest fuel (by omega)
          have hmod : (va % 2 ^ 64 + 8) % 2 ^ 64 = (va + 8) % 2 ^ 64 := by omega
          rw [readArgs, hpa]
          simp only [Option.bind_eq_bind, Option.bind_some, hword]
          rw [if_neg (Nat.ne_of_gt hptr), hread, hmod, hargs]
          rfl

end Read

end Nimloth
