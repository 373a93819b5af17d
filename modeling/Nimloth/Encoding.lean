import Nimloth.Sv39

/-!
# Instructions as words

The encodings of the instructions of `RiscV`, each in four bytes, and the
decoder for them: `decode_encode` is the round trip, `plain` the
`Decoder` of a processor that reads words, and `placed_write` says that
code that was written to a frame lies there.
-/

namespace Nimloth.RiscV

/-! ## Fields -/

def word (op rd funct rs top : Nat) : Nat :=
  top * 2 ^ 20 + rs * 2 ^ 15 + funct * 2 ^ 12 + rd * 2 ^ 7 + op

namespace Field

def op (w : Nat) : Nat := w % 2 ^ 7
def rd (w : Nat) : Nat := w / 2 ^ 7 % 2 ^ 5
def funct (w : Nat) : Nat := w / 2 ^ 12 % 2 ^ 3
def rs (w : Nat) : Nat := w / 2 ^ 15 % 2 ^ 5
def top (w : Nat) : Nat := w / 2 ^ 20

variable {o d f s t : Nat}

@[simp] theorem op_word (ho : o < 128) : op (word o d f s t) = o := by
  unfold op word
  omega

@[simp] theorem rd_word (ho : o < 128) (hd : d < 32) : rd (word o d f s t) = d := by
  unfold rd word
  omega

@[simp] theorem funct_word (ho : o < 128) (hd : d < 32) (hf : f < 8) :
    funct (word o d f s t) = f := by
  unfold funct word
  omega

@[simp] theorem rs_word (ho : o < 128) (hd : d < 32) (hf : f < 8) (hs : s < 32) :
    rs (word o d f s t) = s := by
  unfold rs word
  omega

@[simp] theorem top_word (ho : o < 128) (hd : d < 32) (hf : f < 8) (hs : s < 32) :
    top (word o d f s t) = t := by
  unfold top word
  omega

end Field

/-! ## Words -/

def Csr.number : Csr → Nat
  | .sstatus => 0x100
  | .stvec => 0x105
  | .sscratch => 0x140
  | .sepc => 0x141
  | .satp => 0x180

def Csr.ofNumber (n : Nat) : Option Csr :=
  [Csr.sstatus, .stvec, .sscratch, .sepc, .satp].find? fun k => k.number = n

def encode : Instr → Nat
  | .sd src off base =>
      word 0x23 (off.toNat % 32) 3 base (off.toNat % 4096 / 32 * 32 + src)
  | .ld dst off base => word 0x03 dst 3 base (off.toNat % 4096)
  | .mv dst src => word 0x13 dst 0 src 0
  | .csrrw dst k src => word 0x73 dst 1 src k.number
  | .csrr dst k => word 0x73 dst 2 0 k.number
  | .csrw k src => word 0x73 0 1 src k.number
  | .sfenceVma => word 0x73 0 0 0 0x120
  | .jr src => word 0x67 0 0 src 0
  | .sret => word 0x73 0 0 0 0x102

/-- An immediate of twelve bits, with its sign. -/
def immediate (n : Nat) : UInt64 :=
  if n < 2048 then UInt64.ofNat n else UInt64.ofNat (n + (2 ^ 64 - 4096))

def decode (w : Nat) : Option Instr :=
  let rd := Reg.ofNat (Field.rd w)
  let rs := Reg.ofNat (Field.rs w)
  let top := Field.top w
  match Field.op w, Field.funct w with
  | 0x23, 3 => some (.sd (Reg.ofNat top) (immediate (top / 32 % 128 * 32 + Field.rd w)) rs)
  | 0x03, 3 => some (.ld rd (immediate top) rs)
  | 0x13, 0 => if top = 0 then some (.mv rd rs) else none
  | 0x67, 0 => if top = 0 ∧ rd = Reg.x0 then some (.jr rs) else none
  | 0x73, 0 =>
      if rd = Reg.x0 ∧ rs = Reg.x0 then
        if top = 0x102 then some .sret else if top = 0x120 then some .sfenceVma else none
      else none
  | 0x73, 1 =>
      (Csr.ofNumber top).map fun k => if rd = Reg.x0 then .csrw k rs else .csrrw rd k rs
  | 0x73, 2 => if rs = Reg.x0 then (Csr.ofNumber top).map fun k => .csrr rd k else none
  | _, _ => none

/-- Twelve bits, with a sign. -/
def Short (v : UInt64) : Prop := v.toNat < 2048 ∨ 2 ^ 64 - 2048 ≤ v.toNat

instance (v : UInt64) : Decidable (Short v) := inferInstanceAs (Decidable (_ ∨ _))

/-- A `csrrw` to `x0` is a `csrw`. -/
def Instr.Encodable : Instr → Prop
  | .sd _ off _ => Short off
  | .ld _ off _ => Short off
  | .csrrw dst _ _ => dst ≠ Reg.x0
  | _ => True

instance (i : Instr) : Decidable i.Encodable :=
  match i with
  | .sd _ off _ => inferInstanceAs (Decidable (Short off))
  | .ld _ off _ => inferInstanceAs (Decidable (Short off))
  | .csrrw dst _ _ => inferInstanceAs (Decidable (dst ≠ Reg.x0))
  | .mv _ _ => .isTrue trivial
  | .csrr _ _ => .isTrue trivial
  | .csrw _ _ => .isTrue trivial
  | .sfenceVma => .isTrue trivial
  | .jr _ => .isTrue trivial
  | .sret => .isTrue trivial

@[simp] theorem ofNumber_number (k : Csr) : Csr.ofNumber k.number = some k := by
  cases k <;> rfl

@[simp] theorem ofNat_val (r : Reg) : Reg.ofNat r = r :=
  Fin.ext (Nat.mod_eq_of_lt r.isLt)

theorem immediate_mod {v : UInt64} (h : Short v) : immediate (v.toNat % 4096) = v := by
  have hlt := v.toNat_lt
  unfold immediate
  rcases h with h | h
  · rw [if_pos (by omega), Nat.mod_eq_of_lt (by omega), UInt64.ofNat_toNat]
  · have hsum : v.toNat % 4096 + (2 ^ 64 - 4096) = v.toNat := by omega
    rw [if_neg (by omega), hsum, UInt64.ofNat_toNat]

theorem decode_encode {i : Instr} (h : i.Encodable) : decode (encode i) = some i := by
  cases i with
  | sd src off base =>
      have hoff : Short off := h
      have hsrc := src.isLt
      have hrd : off.toNat % 32 < 32 := Nat.mod_lt _ (by decide)
      have hreg : Reg.ofNat (off.toNat % 4096 / 32 * 32 + src) = src := by
        refine Fin.ext ?_
        show (off.toNat % 4096 / 32 * 32 + src) % 32 = src
        omega
      have himm : (off.toNat % 4096 / 32 * 32 + src) / 32 % 128 * 32 + off.toNat % 32
          = off.toNat % 4096 := by
        omega
      simp only [decode, encode, Field.op_word, Field.rd_word, Field.funct_word, Field.rs_word,
        Field.top_word, Nat.reduceLT, hrd, base.isLt, ofNat_val, hreg, himm, immediate_mod hoff]
  | ld dst off base =>
      have hoff : Short off := h
      simp only [decode, encode, Field.op_word, Field.rd_word, Field.funct_word, Field.rs_word,
        Field.top_word, Nat.reduceLT, dst.isLt, base.isLt, ofNat_val, immediate_mod hoff]
  | mv dst src =>
      simp only [decode, encode, Field.op_word, Field.rd_word, Field.funct_word, Field.rs_word,
        Field.top_word, Nat.reduceLT, dst.isLt, src.isLt, ofNat_val, if_pos]
  | csrrw dst k src =>
      have hdst : dst ≠ Reg.x0 := h
      simp only [decode, encode, Field.op_word, Field.rd_word, Field.funct_word, Field.rs_word,
        Field.top_word, Nat.reduceLT, dst.isLt, src.isLt, ofNat_val, ofNumber_number,
        Option.map_some, if_neg hdst]
  | csrr dst k =>
      simp only [decode, encode, Field.op_word, Field.rd_word, Field.funct_word, Field.rs_word,
        Field.top_word, Nat.reduceLT, dst.isLt, ofNat_val, ofNumber_number, Option.map_some]
      rfl
  | csrw k src =>
      simp only [decode, encode, Field.op_word, Field.rd_word, Field.funct_word, Field.rs_word,
        Field.top_word, Nat.reduceLT, src.isLt, ofNat_val, ofNumber_number, Option.map_some]
      rfl
  | sfenceVma => rfl
  | jr src =>
      simp only [decode, encode, Field.op_word, Field.rd_word, Field.funct_word, Field.rs_word,
        Field.top_word, Nat.reduceLT, src.isLt, ofNat_val]
      rfl
  | sret => rfl

theorem encode_lt (i : Instr) : encode i < 2 ^ 32 := by
  have hword : ∀ {o d f s t : Nat}, o < 128 → d < 32 → f < 8 → s < 32 → t < 4096 →
      word o d f s t < 2 ^ 32 := by
    intro o d f s t ho hd hf hs ht
    unfold word
    omega
  have hnumber : ∀ k : Csr, k.number < 4096 := by
    intro k
    cases k <;> decide
  cases i with
  | sd src off base => exact hword (by decide) (by omega) (by decide) base.isLt (by omega)
  | ld dst off base => exact hword (by decide) dst.isLt (by decide) base.isLt (by omega)
  | mv dst src => exact hword (by decide) dst.isLt (by decide) src.isLt (by decide)
  | csrrw dst k src => exact hword (by decide) dst.isLt (by decide) src.isLt (hnumber k)
  | csrr dst k => exact hword (by decide) dst.isLt (by decide) (by decide) (hnumber k)
  | csrw k src => exact hword (by decide) (by decide) (by decide) src.isLt (hnumber k)
  | sfenceVma => decide
  | jr src => exact hword (by decide) (by decide) (by decide) src.isLt (by decide)
  | sret => decide

end Nimloth.RiscV

namespace Nimloth.Sv39

open RiscV

/-! ## Code that was written -/

/-- A processor that reads words of four bytes. -/
def plain : Decoder where
  decode m pa := (RiscV.decode (leNat (m.read pa 4))).map fun i => (i, 4)
  congr m m' pa h := by
    rw [Mem.read_congr fun j hj => h (pa + j) (Nat.le_add_right pa j) (Nat.add_lt_add_left hj pa)]

def codeBytes (is : List Instr) : List UInt8 := is.flatMap fun i => leBytes 4 (encode i)

theorem placed_write {n o : Nat} (m : Mem) {is : List Instr} (h : ∀ i ∈ is, i.Encodable)
    (hfits : o + 4 * is.length ≤ 4096) :
    Placed plain (fun _ => 4) (m.write (n * 4096 + o) (codeBytes is)) n o is := by
  induction is generalizing m o with
  | nil => trivial
  | cons i is ih =>
      rw [List.length_cons] at hfits
      have hcons : codeBytes (i :: is) = leBytes 4 (encode i) ++ codeBytes is := List.flatMap_cons
      rw [hcons, write_append, leBytes_length]
      refine ⟨?_, by omega, Nat.le_refl 4, ?_⟩
      · have hdisj : n * 4096 + o + 4 ≤ n * 4096 + o + 4 ∨ n * 4096 + o + 4 + (codeBytes is).length
            ≤ n * 4096 + o := Or.inl (Nat.le_refl _)
        have hread := (m.write (n * 4096 + o) (leBytes 4 (encode i))).read_write_of_disjoint hdisj
        have hself := m.read_write (n * 4096 + o) (leBytes 4 (encode i))
        rw [leBytes_length] at hself
        show (RiscV.decode (leNat (Mem.read _ _ 4))).map _ = _
        have hlt : encode i < 256 ^ 4 := encode_lt i
        rw [hread, hself, leNat_leBytes, Nat.mod_eq_of_lt hlt,
          decode_encode (h i List.mem_cons_self), Option.map_some]
      · have hnext : n * 4096 + o + 4 = n * 4096 + (o + 4) := Nat.add_assoc _ _ _
        rw [hnext]
        exact ih _ (fun j hj => h j (List.mem_cons_of_mem i hj)) (by omega)

end Nimloth.Sv39
