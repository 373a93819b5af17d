import Mathlib.Tactic.Common
import Nimloth.LogMessage

/-!
# What `deserialize` accepts

`deserialize` checks the length of its input three times before it
indexes it. Written with every index and every slice as a step that can
fail (`deserializeIndexed`), it never does; so what it accepts is said by
the two lengths in the header alone (`deserialize_eq`): the header and
the two strings must fit, and nothing after them is looked at.
-/

namespace Nimloth

/-! ## Slices -/

section Slices

variable {α : Type*} {l : List α} {i n : Nat}

/-- `&l[lo..hi]`; `none` is the panic for a range that does not fit. -/
def sliced (l : List α) (lo hi : Nat) : Option (List α) :=
  if lo ≤ hi ∧ hi ≤ l.length then some ((l.drop lo).take (hi - lo)) else none

theorem sliced_eq (h : i + n ≤ l.length) : sliced l i (i + n) = some ((l.drop i).take n) := by
  unfold sliced
  rw [if_pos ⟨Nat.le_add_right i n, h⟩, Nat.add_sub_cancel_left]

theorem getElem?_eq_getD (h : i < l.length) (d : α) : l[i]? = some (l.getD i d) := by
  rw [List.getD_eq_getElem?_getD, List.getElem?_eq_getElem h, Option.getD_some]

theorem take_drop_succ (h : i < l.length) (d : α) (n : Nat) :
    (l.drop i).take (n + 1) = l.getD i d :: (l.drop (i + 1)).take n := by
  rw [List.drop_eq_getElem_cons h, List.take_succ_cons, List.getD_eq_getElem?_getD,
    List.getElem?_eq_getElem h, Option.getD_some]

end Slices

namespace LogMessage

/-- `deserialize` with its accesses: the outer `none` is an index out of
bounds. -/
def deserializeIndexed (data : List UInt8) : Option (Option LogMessage) :=
  if data.length < 12 then some none
  else do
    let offset := 0
    let tag ← data[offset]?
    match LogLevel.ofU8 tag with
    | none => some none
    | some level =>
        let offset := offset + 1
        let p0 ← data[offset]?
        let p1 ← data[offset + 1]?
        let p2 ← data[offset + 2]?
        let p3 ← data[offset + 3]?
        let pid := UInt32.ofNat (leNat [p0, p1, p2, p3])
        let offset := offset + 4
        let cpuId ← data[offset]?
        let offset := offset + 1
        let t0 ← data[offset]?
        let t1 ← data[offset + 1]?
        let t2 ← data[offset + 2]?
        let t3 ← data[offset + 3]?
        let timestamp := UInt32.ofNat (leNat [t0, t1, t2, t3])
        let offset := offset + 4
        if offset + 3 > data.length then some none
        else
          let m0 ← data[offset]?
          let moduleLen := m0.toNat
          let offset := offset + 1
          let l0 ← data[offset]?
          let l1 ← data[offset + 1]?
          let messageLen := leNat [l0, l1]
          let offset := offset + 2
          if offset + moduleLen + messageLen > data.length then some none
          else
            let module ← sliced data offset (offset + moduleLen)
            let offset := offset + moduleLen
            let message ← sliced data offset (offset + messageLen)
            some (some ⟨level, pid, cpuId, timestamp, fromUtf8Lossy module, fromUtf8Lossy message⟩)

/-! ## The lengths in the header -/

variable {data : List UInt8}

def moduleLen (data : List UInt8) : Nat := (data.getD 10 0).toNat

def messageLen (data : List UInt8) : Nat := leNat ((data.drop 11).take 2)

/-- The header and the two strings. -/
def readLen (data : List UInt8) : Nat := 13 + moduleLen data + messageLen data

def moduleBytes (data : List UInt8) : List UInt8 := (data.drop 13).take (moduleLen data)

def messageBytes (data : List UInt8) : List UInt8 :=
  (data.drop (13 + moduleLen data)).take (messageLen data)

/-- The fields of `data` next to a level. -/
def fields (data : List UInt8) (level : LogLevel) : LogMessage where
  level := level
  pid := UInt32.ofNat (leNat ((data.drop 1).take 4))
  cpuId := data.getD 5 0
  timestamp := UInt32.ofNat (leNat ((data.drop 6).take 4))
  module := fromUtf8Lossy (moduleBytes data)
  message := fromUtf8Lossy (messageBytes data)

/-- The three checks of the length are one. -/
theorem deserialize_eq (data : List UInt8) :
    deserialize data
      = if readLen data ≤ data.length then (LogLevel.ofU8 (data.getD 0 0)).map (fields data)
        else none := by
  have hread : readLen data = 13 + (data.getD 10 0).toNat + leNat ((data.drop 11).take 2) := rfl
  unfold deserialize
  by_cases h12 : data.length < 12
  · rw [if_pos h12, if_neg (by omega)]
  rw [if_neg h12]
  cases LogLevel.ofU8 (data.getD 0 0) with
  | none => simp only [Option.bind_eq_bind, Option.bind_none, Option.map_none, ite_self]
  | some level =>
      simp only [Option.bind_eq_bind, Option.bind_some]
      by_cases h13 : 10 + 3 > data.length
      · rw [if_pos h13, if_neg (by omega)]
      rw [if_neg h13, hread]
      by_cases hfit : 13 + (data.getD 10 0).toNat + leNat ((data.drop 11).take 2) > data.length
      · rw [if_pos hfit, if_neg (by omega)]
      · rw [if_neg hfit, if_pos (by omega)]
        rfl

/-- No access is out of bounds. -/
theorem deserializeIndexed_eq (data : List UInt8) :
    deserializeIndexed data = some (deserialize data) := by
  have hget : ∀ i {β : Type} (f : UInt8 → Option β), i < data.length →
      data[i]?.bind f = f (data.getD i 0) := by
    intro i β f hi
    rw [getElem?_eq_getD hi 0]
    rfl
  have htake : ∀ i n, i < data.length →
      (data.drop i).take (n + 1) = data.getD i 0 :: (data.drop (i + 1)).take n :=
    fun i n hi => take_drop_succ hi 0 n
  have hfour : ∀ i, i + 4 ≤ data.length → (data.drop i).take 4
      = [data.getD i 0, data.getD (i + 1) 0, data.getD (i + 2) 0, data.getD (i + 3) 0] := by
    intro i hi
    rw [htake i 3 (by omega), htake (i + 1) 2 (by omega), htake (i + 2) 1 (by omega),
      htake (i + 3) 0 (by omega), List.take_zero]
  unfold deserializeIndexed deserialize
  by_cases h12 : data.length < 12
  · rw [if_pos h12, if_pos h12]
  rw [if_neg h12, if_neg h12]
  dsimp only [Option.bind_eq_bind, Nat.reduceAdd]
  rw [hget 0 _ (by omega)]
  cases LogLevel.ofU8 (data.getD 0 0) with
  | none => rw [Option.bind_none]
  | some level =>
      dsimp only
      rw [hget 1 _ (by omega), hget 2 _ (by omega), hget 3 _ (by omega), hget 4 _ (by omega),
        hget 5 _ (by omega), hget 6 _ (by omega), hget 7 _ (by omega), hget 8 _ (by omega),
        hget 9 _ (by omega), Option.bind_some]
      by_cases h13 : 13 > data.length
      · rw [if_pos h13, if_pos h13]
      rw [if_neg h13, if_neg h13, hget 10 _ (by omega), hget 11 _ (by omega),
        hget 12 _ (by omega), hfour 1 (by omega), hfour 6 (by omega), htake 11 1 (by omega),
        htake 12 0 (by omega), List.take_zero]
      by_cases hfit : 13 + (data.getD 10 0).toNat + leNat [data.getD 11 0, data.getD 12 0]
          > data.length
      · rw [if_pos hfit, if_pos hfit]
      · rw [if_neg hfit, if_neg hfit, sliced_eq (by omega), sliced_eq (by omega)]
        rfl

/-! ## Frames and their prefixes -/

theorem readLen_append {m : LogMessage} (h : m.Admitted) (s : List UInt8) :
    readLen (m.serialize ++ s) = m.serialize.length := by
  obtain ⟨hmod, hmsg⟩ := h.lengths
  have h10 : (m.serialize ++ s).getD 10 0 = UInt8.ofNat (asBytes m.module).length := rfl
  have h11 : ((m.serialize ++ s).drop 11).take 2
      = leBytes 2 ((asBytes m.message).length % 2 ^ 16) := rfl
  rw [readLen, moduleLen, messageLen, h10, h11, leNat_leBytes, UInt8.toNat_ofNat',
    m.length_serialize, Nat.mod_eq_of_lt (show (asBytes m.module).length < 2 ^ 8 by omega)]
  omega

/-- The lengths are in the first 13 bytes. -/
theorem readLen_prefix {p : List UInt8} (h : 13 ≤ p.length) (t : List UInt8) :
    readLen (p ++ t) = readLen p := by
  rw [readLen, readLen, moduleLen, moduleLen, messageLen, messageLen,
    List.getD_eq_getElem?_getD, List.getD_eq_getElem?_getD, List.getElem?_append_left (by omega),
    List.drop_append_of_le_length (by omega),
    List.take_append_of_le_length (by rw [List.length_drop]; omega)]

/-- A frame that is cut off is refused. -/
theorem deserialize_prefix {m : LogMessage} (h : m.Admitted) {p : List UInt8}
    (hp : p <+: m.serialize) (hne : p ≠ m.serialize) : deserialize p = none := by
  obtain ⟨t, ht⟩ := hp
  rw [deserialize_eq, if_neg]
  intro hle
  have h13 : 13 ≤ p.length := by
    unfold readLen at hle
    omega
  have hread := readLen_append h []
  rw [List.append_nil, ← ht, readLen_prefix h13, List.length_append] at hread
  have hnil : t = [] := List.length_eq_zero_iff.mp (by omega)
  rw [hnil, List.append_nil] at ht
  exact hne ht

/-! ## Back to the bytes -/

theorem leBytes_ofNat_leNat {bs : List UInt8} (h : bs.length = 4) :
    leBytes 4 (UInt32.ofNat (leNat bs)).toNat = bs := by
  have hlt := leNat_lt bs
  rw [h] at hlt
  rw [UInt32.toNat_ofNat', Nat.mod_eq_of_lt (by omega), ← h, leBytes_leNat]

/-- The message on the stream, with its two texts in bytes. -/
def encoded (m : LogMessage) (module message : List UInt8) : List UInt8 :=
  [m.level.toU8] ++ leBytes 4 m.pid.toNat ++ [m.cpuId] ++ leBytes 4 m.timestamp.toNat
    ++ [UInt8.ofNat module.length] ++ leBytes 2 (message.length % 2 ^ 16) ++ module ++ message

theorem encoded_fields (hfit : readLen data ≤ data.length) {level : LogLevel}
    (hlevel : LogLevel.ofU8 (data.getD 0 0) = some level) :
    (fields data level).encoded (moduleBytes data) (messageBytes data)
      = data.take (readLen data) := by
  have hread : readLen data = 1 + 4 + 1 + 4 + 1 + 2 + moduleLen data + messageLen data := rfl
  have hone : ∀ i, i < data.length → (data.drop i).take 1 = [data.getD i 0] :=
    fun i hi => take_drop_succ hi 0 0
  have hslice : ∀ i n, i + n ≤ data.length → ((data.drop i).take n).length = n := by
    intro i n hi
    rw [List.length_take, List.length_drop]
    omega
  have hmodLen : (moduleBytes data).length = moduleLen data := hslice _ _ (by omega)
  have hmsgLen : (messageBytes data).length = messageLen data := hslice _ _ (by omega)
  have h10 : UInt8.ofNat (moduleLen data) = data.getD 10 0 := by
    rw [moduleLen, UInt8.ofNat_toNat]
  have h11 : leBytes 2 (messageLen data % 2 ^ 16) = (data.drop 11).take 2 := by
    have hlen := hslice 11 2 (by omega)
    have hlt := leNat_lt ((data.drop 11).take 2)
    rw [hlen] at hlt
    have hbytes := leBytes_leNat ((data.drop 11).take 2)
    rw [hlen] at hbytes
    rw [messageLen, Nat.mod_eq_of_lt (by omega), hbytes]
  rw [encoded, fields, LogLevel.toU8_ofU8 hlevel]
  dsimp only
  rw [leBytes_ofNat_leNat (hslice 1 4 (by omega)), leBytes_ofNat_leNat (hslice 6 4 (by omega)),
    hmodLen, hmsgLen, h10, h11, hread,
    List.take_add, List.take_add, List.take_add, List.take_add, List.take_add, List.take_add,
    List.take_add, ← hone 5 (by omega), ← hone 10 (by omega), ← hone 0 (by omega)]
  rfl

theorem serialize_fields (hfit : readLen data ≤ data.length) {level : LogLevel}
    (hlevel : LogLevel.ofU8 (data.getD 0 0) = some level) (hmod : ValidUtf8 (moduleBytes data))
    (hmsg : ValidUtf8 (messageBytes data)) :
    (fields data level).serialize = data.take (readLen data) := by
  rw [← encoded_fields hfit hlevel]
  show (fields data level).encoded (asBytes (fromUtf8Lossy (moduleBytes data)))
    (asBytes (fromUtf8Lossy (messageBytes data))) = _
  rw [asBytes_fromUtf8Lossy hmod, asBytes_fromUtf8Lossy hmsg]

/-- Serializing and deserializing are inverse to each other, cut off frames are
refused, and no input makes `deserialize` panic. -/
theorem log_codec {m : LogMessage} (h : m.Admitted) (s data : List UInt8) :
    deserialize (m.serialize ++ s) = some m
      ∧ (∀ p, p <+: m.serialize → p ≠ m.serialize → deserialize p = none)
      ∧ deserializeIndexed data = some (deserialize data)
      ∧ ∀ m', deserialize data = some m' → ValidUtf8 (moduleBytes data) →
        ValidUtf8 (messageBytes data) → m'.serialize = data.take (readLen data) := by
  refine ⟨deserialize_append h s, fun p hp hne => deserialize_prefix h hp hne,
    deserializeIndexed_eq data, fun m' hm' hmod hmsg => ?_⟩
  rw [deserialize_eq] at hm'
  split at hm'
  · next hfit =>
      obtain ⟨level, hlevel, rfl⟩ := Option.map_eq_some_iff.mp hm'
      exact serialize_fields hfit hlevel hmod hmsg
  · cases hm'

/-- A short message in front of another byte. -/
theorem log_codec_short :
    ∃ m : LogMessage, m.message = "ok" ∧ deserialize (m.serialize ++ [7]) = some m
      ∧ deserializeIndexed (m.serialize ++ [7]) = some (some m) := by
  have hadm : (⟨.info, 1, 0, 9, "k", "ok"⟩ : LogMessage).Admitted :=
    ⟨.info, 1, 0, 9, "k", "ok", rfl⟩
  obtain ⟨hround, -, htotal, -⟩ := log_codec hadm [7]
    ((⟨.info, 1, 0, 9, "k", "ok"⟩ : LogMessage).serialize ++ [7])
  exact ⟨_, rfl, hround, htotal.trans (congrArg some hround)⟩

end LogMessage

end Nimloth
