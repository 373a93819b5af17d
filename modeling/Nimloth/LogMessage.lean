import Mathlib.Tactic.Common
import Nimloth.Block

/-!
# Log messages

`components/src/log/message.rs`. `serialize` writes a header of 13 bytes,
with one byte for the length of the module name and two for that of the
text, and the two strings; `deserialize` has its own checks of the length
and replaces what is not UTF-8. On messages that `LogMessage::new` admits
the second is the inverse of the first.
-/

namespace Nimloth

abbrev MAX_MESSAGE_LEN : Nat := 512

abbrev MAX_MODULE_LEN : Nat := 32

inductive LogLevel where
  | error
  | warn
  | info
  | debug
  | trace
  deriving DecidableEq, Repr

namespace LogLevel

/-- `level as u8`. -/
def toU8 : LogLevel → UInt8
  | error => 1
  | warn => 2
  | info => 3
  | debug => 4
  | trace => 5

/-- The `match` of `deserialize`. -/
def ofU8 : UInt8 → Option LogLevel
  | 1 => some error
  | 2 => some warn
  | 3 => some info
  | 4 => some debug
  | 5 => some trace
  | _ => none

theorem ofU8_toU8 (level : LogLevel) : ofU8 level.toU8 = some level := by
  cases level with
  | error => rfl
  | warn => rfl
  | info => rfl
  | debug => rfl
  | trace => rfl

theorem toU8_ofU8 {b : UInt8} {level : LogLevel} (h : ofU8 b = some level) : level.toU8 = b := by
  unfold ofU8 at h
  split at h <;> cases h <;> rfl

end LogLevel

/-! ## Strings and bytes -/

/-- `s.as_bytes()`. -/
def asBytes (s : String) : List UInt8 := s.toUTF8.data.toList

/-- The length of the invalid sequence at the front of `bs`: the longest part
of a character that its first bytes can still begin, at least one byte. -/
def invalidLen : List UInt8 → Nat
  | b :: c :: rest =>
      if (b = 0xE0 ∧ 0xA0 ≤ c ∧ c ≤ 0xBF) ∨ (0xE1 ≤ b ∧ b ≤ 0xEC ∧ 0x80 ≤ c ∧ c ≤ 0xBF)
          ∨ (b = 0xED ∧ 0x80 ≤ c ∧ c ≤ 0x9F) ∨ (0xEE ≤ b ∧ b ≤ 0xEF ∧ 0x80 ≤ c ∧ c ≤ 0xBF) then 2
      else if (b = 0xF0 ∧ 0x90 ≤ c ∧ c ≤ 0xBF) ∨ (0xF1 ≤ b ∧ b ≤ 0xF3 ∧ 0x80 ≤ c ∧ c ≤ 0xBF)
          ∨ (b = 0xF4 ∧ 0x80 ≤ c ∧ c ≤ 0x8F) then
        match rest with
        | d :: _ => if 0x80 ≤ d ∧ d ≤ 0xBF then 3 else 2
        | [] => 2
      else 1
  | _ => 1

/-- The characters of `bs`, with U+FFFD for each invalid sequence; `fuel`
bounds their number. -/
def lossyChars : Nat → List UInt8 → List Char
  | 0, _ => []
  | _, [] => []
  | fuel + 1, bs =>
      match ByteArray.utf8DecodeChar? ⟨bs.toArray⟩ 0 with
      | some c => c :: lossyChars fuel (bs.drop c.utf8Size)
      | none => '\uFFFD' :: lossyChars fuel (bs.drop (invalidLen bs))

/-- `String::from_utf8_lossy`. -/
def fromUtf8Lossy (bs : List UInt8) : String :=
  match String.fromUTF8? ⟨bs.toArray⟩ with
  | some s => s
  | none => String.ofList (lossyChars bs.length bs)

theorem fromUtf8Lossy_asBytes (s : String) : fromUtf8Lossy (asBytes s) = s := by
  have hbytes : (⟨(asBytes s).toArray⟩ : ByteArray) = s.toUTF8 := by simp [asBytes]
  have hvalid : String.fromUTF8? s.toUTF8 = some s := by
    have hv : s.toUTF8.IsValidUTF8 := s.isValidUTF8
    rw [String.fromUTF8?, dif_pos hv]
    rfl
  rw [fromUtf8Lossy, hbytes, hvalid]

/-- The bytes are UTF-8. -/
def ValidUtf8 (bs : List UInt8) : Prop := (⟨bs.toArray⟩ : ByteArray).IsValidUTF8

theorem asBytes_fromUtf8Lossy {bs : List UInt8} (h : ValidUtf8 bs) :
    asBytes (fromUtf8Lossy bs) = bs := by
  have hv : (⟨bs.toArray⟩ : ByteArray).IsValidUTF8 := h
  rw [fromUtf8Lossy, String.fromUTF8?, dif_pos hv]
  rfl

/-! ## The message -/

structure LogMessage where
  level : LogLevel
  pid : UInt32
  cpuId : UInt8
  timestamp : UInt32
  module : String
  message : String
  deriving DecidableEq

namespace LogMessage

/-- `LogMessage::new`. -/
def new (level : LogLevel) (pid : UInt32) (cpuId : UInt8) (timestamp : UInt32)
    (module message : String) : Option LogMessage :=
  if (asBytes module).length > MAX_MODULE_LEN ∨ (asBytes message).length > MAX_MESSAGE_LEN then none
  else some ⟨level, pid, cpuId, timestamp, module, message⟩

/-- `LogMessage::serialize`. -/
def serialize (m : LogMessage) : List UInt8 :=
  [m.level.toU8] ++ leBytes 4 m.pid.toNat ++ [m.cpuId] ++ leBytes 4 m.timestamp.toNat
    ++ [UInt8.ofNat (asBytes m.module).length]
    ++ leBytes 2 ((asBytes m.message).length % 2 ^ 16)
    ++ asBytes m.module ++ asBytes m.message

/-- `LogMessage::deserialize`. -/
def deserialize (data : List UInt8) : Option LogMessage :=
  if data.length < 12 then none
  else do
    let level ← LogLevel.ofU8 (data.getD 0 0)
    let pid := UInt32.ofNat (leNat ((data.drop 1).take 4))
    let cpuId := data.getD 5 0
    let timestamp := UInt32.ofNat (leNat ((data.drop 6).take 4))
    if 10 + 3 > data.length then none
    else
      let moduleLen := (data.getD 10 0).toNat
      let messageLen := leNat ((data.drop 11).take 2)
      if 13 + moduleLen + messageLen > data.length then none
      else
        let module := fromUtf8Lossy ((data.drop 13).take moduleLen)
        let message := fromUtf8Lossy ((data.drop (13 + moduleLen)).take messageLen)
        some ⟨level, pid, cpuId, timestamp, module, message⟩

/-- The message came from `LogMessage::new`. -/
def Admitted (m : LogMessage) : Prop :=
  ∃ level pid cpuId timestamp module message,
    new level pid cpuId timestamp module message = some m

theorem Admitted.lengths {m : LogMessage} (h : m.Admitted) :
    (asBytes m.module).length ≤ 32 ∧ (asBytes m.message).length ≤ 512 := by
  obtain ⟨level, pid, cpuId, timestamp, module, message, hnew⟩ := h
  unfold new at hnew
  split at hnew
  · cases hnew
  · next hle =>
      cases hnew
      dsimp only [MAX_MODULE_LEN, MAX_MESSAGE_LEN] at hle ⊢
      omega

theorem length_serialize (m : LogMessage) :
    m.serialize.length = 13 + (asBytes m.module).length + (asBytes m.message).length := by
  simp only [serialize, List.length_append, List.length_singleton, leBytes_length]

theorem ofNat_leNat_leBytes (n : UInt32) : UInt32.ofNat (leNat (leBytes 4 n.toNat)) = n := by
  have hlt := n.toNat_lt
  rw [leNat_leBytes, Nat.mod_eq_of_lt (by omega), UInt32.ofNat_toNat]

/-- `deserialize` is the inverse of `serialize`, whatever follows. -/
theorem deserialize_append {m : LogMessage} (h : m.Admitted) (s : List UInt8) :
    deserialize (m.serialize ++ s) = some m := by
  obtain ⟨hmod, hmsg⟩ := h.lengths
  have hlen : (m.serialize ++ s).length
      = 13 + (asBytes m.module).length + (asBytes m.message).length + s.length := by
    rw [List.length_append, m.length_serialize]
  obtain ⟨a0, a1, a2, a3, ha⟩ : ∃ a0 a1 a2 a3, leBytes 4 m.pid.toNat = [a0, a1, a2, a3] :=
    ⟨_, _, _, _, rfl⟩
  obtain ⟨t0, t1, t2, t3, ht⟩ : ∃ t0 t1 t2 t3, leBytes 4 m.timestamp.toNat = [t0, t1, t2, t3] :=
    ⟨_, _, _, _, rfl⟩
  obtain ⟨l0, l1, hl⟩ :
      ∃ l0 l1, leBytes 2 ((asBytes m.message).length % 2 ^ 16) = [l0, l1] := ⟨_, _, rfl⟩
  have hpid := ofNat_leNat_leBytes m.pid
  have htime := ofNat_leNat_leBytes m.timestamp
  have hmodule : (UInt8.ofNat (asBytes m.module).length).toNat = (asBytes m.module).length := by
    rw [UInt8.toNat_ofNat']
    exact Nat.mod_eq_of_lt (by omega)
  have hmessage : leNat [l0, l1] = (asBytes m.message).length := by
    rw [← hl, leNat_leBytes]
    omega
  rw [ha] at hpid
  rw [ht] at htime
  have hdata : m.serialize ++ s = [m.level.toU8, a0, a1, a2, a3, m.cpuId, t0, t1, t2, t3,
      UInt8.ofNat (asBytes m.module).length, l0, l1]
        ++ (asBytes m.module ++ (asBytes m.message ++ s)) := by
    simp only [serialize, ha, ht, hl, List.cons_append, List.nil_append, List.append_assoc]
  generalize m.serialize ++ s = data at hdata hlen ⊢
  have hstrings : data.drop 13 = asBytes m.module ++ (asBytes m.message ++ s) := by
    rw [hdata]
    rfl
  have htext : data.drop (13 + (asBytes m.module).length) = asBytes m.message ++ s := by
    rw [← List.drop_drop, hstrings, List.drop_left]
  have hlevel : data.getD 0 0 = m.level.toU8 := by rw [hdata]; rfl
  have hcpu : data.getD 5 0 = m.cpuId := by rw [hdata]; rfl
  have h10 : data.getD 10 0 = UInt8.ofNat (asBytes m.module).length := by rw [hdata]; rfl
  have h1 : (data.drop 1).take 4 = [a0, a1, a2, a3] := by rw [hdata]; rfl
  have h6 : (data.drop 6).take 4 = [t0, t1, t2, t3] := by rw [hdata]; rfl
  have h11 : (data.drop 11).take 2 = [l0, l1] := by rw [hdata]; rfl
  unfold deserialize
  rw [if_neg (by omega), hlevel, LogLevel.ofU8_toU8]
  simp only [Option.bind_eq_bind, Option.bind_some, h1, h6, h10, h11, hcpu, hmodule, hmessage,
    hpid, htime, hstrings, htext]
  rw [if_neg (by omega), if_neg (by omega), List.take_left, List.take_left,
    fromUtf8Lossy_asBytes, fromUtf8Lossy_asBytes]

theorem deserialize_serialize {m : LogMessage} (h : m.Admitted) :
    deserialize m.serialize = some m := by
  have hround := deserialize_append h []
  rwa [List.append_nil] at hround

end LogMessage

end Nimloth
