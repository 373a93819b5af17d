import Mathlib.Tactic.Common
import Nimloth.LogMessage

/-!
# The log transport

`components/src/log/transport.rs`. A message is sent as a frame: the
length of the serialized message in four bytes, in one write, and the
message itself in a second one. `receive` reads the two parts with two
reads, the second one into a buffer of the length that the first one
found. The system calls are arguments of the transport, so `send` and
`receive` are programs over them (`SysProg`).

What a program does to a stream of bytes is said once, by recursion on
it: `Owes p bs a`, with every write complete it writes `bs` and returns
`a`; `Takes p bs a`, it reads exactly `bs` and returns `a`; `Ends p a`,
it returns `a` on a stream that has ended. The file on concurrent clients
uses the same three facts about `send` and `receive`.
-/

namespace Nimloth

/-! ## Programs over `sys_read` and `sys_write` -/

/-- A program up to its next system call. The continuation of a read gets the
value the call returns and the bytes it stored in the buffer. -/
inductive SysProg (α : Type) where
  | ret (a : α)
  | write (fd : Nat) (buf : List UInt8) (k : Int → SysProg α)
  | read (fd : Nat) (len : Nat) (k : Int → List UInt8 → SysProg α)

namespace SysProg

variable {α β : Type}

protected def bind : SysProg α → (α → SysProg β) → SysProg β
  | .ret a, f => f a
  | .write fd buf k, f => .write fd buf fun n => (k n).bind f
  | .read fd len k, f => .read fd len fun n got => (k n got).bind f

instance : Monad SysProg where
  pure := .ret
  bind := .bind

theorem bind_assoc {γ : Type} (p : SysProg α) (f : α → SysProg β) (g : β → SysProg γ) :
    (p.bind f).bind g = p.bind fun a => (f a).bind g := by
  induction p with
  | ret a => rfl
  | write fd buf k ih => exact congrArg (SysProg.write fd buf) (funext ih)
  | read fd len k ih => exact congrArg (SysProg.read fd len) (funext fun n => funext (ih n))

/-- With every write complete the program writes `bs` and returns `a`. -/
def Owes : SysProg α → List UInt8 → α → Prop
  | .ret a, bs, r => bs = [] ∧ a = r
  | .write _ buf k, bs, r => buf ≠ [] ∧ ∃ rest, bs = buf ++ rest ∧ (k buf.length).Owes rest r
  | .read _ _ _, _, _ => False

/-- With every read complete the program reads `bs` and returns `a`. -/
def Takes : SysProg α → List UInt8 → α → Prop
  | .ret a, bs, r => bs = [] ∧ a = r
  | .write _ _ _, _, _ => False
  | .read _ len k, bs, r =>
      0 < len ∧ ∃ b rest, bs = b ++ rest ∧ b.length = len ∧ (k len b).Takes rest r

/-- With the stream at its end the program returns `a`. -/
def Ends : SysProg α → α → Prop
  | .ret a, r => a = r
  | .write _ _ _, _ => False
  | .read _ _ k, r => (k 0 []).Ends r

end SysProg

/-! ## The transport -/

inductive TransportError where
  | writeFailed
  | readFailed
  | notConnected
  deriving DecidableEq, Repr

abbrev TransportResult := Except TransportError

/-- The heap has `n` bytes; an empty buffer takes none. -/
def Grants (heap : Nat → Bool) (n : Nat) : Prop := n = 0 ∨ heap n = true

instance (heap : Nat → Bool) (n : Nat) : Decidable (Grants heap n) :=
  inferInstanceAs (Decidable (_ ∨ _))

/-- The flags say whether the function pointers are there. -/
structure PipeTransport where
  writeFd : Option Nat
  readFd : Option Nat
  sysWrite : Bool
  sysRead : Bool

namespace PipeTransport

def newClient (writeFd : Nat) : PipeTransport := ⟨some writeFd, none, true, false⟩

def newServer (readFd : Nat) : PipeTransport := ⟨none, some readFd, false, true⟩

/-- `write_to_pipe`. -/
def writeToPipe (t : PipeTransport) (fd : Nat) (data : List UInt8) :
    SysProg (TransportResult Nat) :=
  if t.sysWrite then
    .write fd data fun written =>
      .ret (if written > 0 then .ok written.toNat else .error .writeFailed)
  else .ret (.error .notConnected)

/-- `read_from_pipe`, with the buffer as it is left. -/
def readFromPipe (t : PipeTransport) (fd : Nat) (buffer : List UInt8) :
    SysProg (TransportResult Nat × List UInt8) :=
  if t.sysRead then
    .read fd buffer.length fun readSize got =>
      .ret (if readSize > 0 then .ok readSize.toNat
        else if readSize = 0 then .ok 0
        else .error .readFailed, got ++ buffer.drop got.length)
  else .ret (.error .notConnected, buffer)

/-- `send`. -/
def send (t : PipeTransport) (message : LogMessage) : SysProg (TransportResult Unit) :=
  match t.writeFd with
  | none => pure (.error .notConnected)
  | some fd => do
      let data := message.serialize
      let lenBytes := leBytes 4 (data.length % 2 ^ 32)
      match ← t.writeToPipe fd lenBytes with
      | .error e => pure (.error e)
      | .ok _ =>
          match ← t.writeToPipe fd data with
          | .error e => pure (.error e)
          | .ok _ => pure (.ok ())

/-- The second half of `receive`, with a buffer for the message. -/
def receiveBody (t : PipeTransport) (fd msgLen : Nat) : SysProg (TransportResult LogMessage) := do
  let (r, msgBuf) ← t.readFromPipe fd (List.replicate msgLen 0)
  match r with
  | .error e => pure (.error e)
  | .ok _ =>
      match LogMessage.deserialize msgBuf with
      | some m => pure (.ok m)
      | none => pure (.error .readFailed)

/-- `receive`. `none` is the panic of the allocator, which has no buffer of the length read. -/
def receiveOn (heap : Nat → Bool) (t : PipeTransport) :
    SysProg (Option (TransportResult LogMessage)) :=
  match t.readFd with
  | none => pure (some (.error .notConnected))
  | some fd => do
      let (r, lenBuf) ← t.readFromPipe fd (List.replicate 4 0)
      match r with
      | .error e => pure (some (.error e))
      | .ok _ =>
          let msgLen := leNat lenBuf
          if Grants heap msgLen then
            let r ← t.receiveBody fd msgLen
            pure (some r)
          else pure none

/-- `receive` on a heap that has every buffer. -/
def receive (t : PipeTransport) : SysProg (TransportResult LogMessage) :=
  match t.readFd with
  | none => pure (.error .notConnected)
  | some fd => do
      let (r, lenBuf) ← t.readFromPipe fd (List.replicate 4 0)
      match r with
      | .error e => pure (.error e)
      | .ok _ => t.receiveBody fd (leNat lenBuf)

theorem receiveOn_true (t : PipeTransport) :
    t.receiveOn (fun _ => true) = t.receive >>= fun r => pure (some r) := by
  unfold receiveOn receive
  cases t.readFd with
  | none => rfl
  | some fd =>
      refine Eq.trans ?_ (SysProg.bind_assoc ..).symm
      refine congrArg (SysProg.bind _) (funext ?_)
      rintro ⟨r, lenBuf⟩
      cases r with
      | error e => rfl
      | ok n => exact if_pos (Or.inr rfl)

end PipeTransport

/-! ## One frame -/

/-- What `send` puts on the stream. -/
def LogMessage.frame (m : LogMessage) : List UInt8 :=
  leBytes 4 m.serialize.length ++ m.serialize

theorem LogMessage.frame_ne_nil (m : LogMessage) : m.frame ≠ [] := by
  intro h
  have := congrArg List.length h
  simp [LogMessage.frame] at this

theorem LogMessage.Admitted.length_lt {m : LogMessage} (h : m.Admitted) :
    0 < m.serialize.length ∧ m.serialize.length < 2 ^ 32 := by
  obtain ⟨hmod, hmsg⟩ := h.lengths
  have := m.length_serialize
  omega

namespace PipeTransport

/-- `send` writes the frame. -/
theorem send_owes (fd : Nat) {m : LogMessage} (h : m.Admitted) :
    ((newClient fd).send m).Owes m.frame (.ok ()) := by
  obtain ⟨hpos, hlt⟩ := h.length_lt
  have hne : m.serialize ≠ [] := List.ne_nil_of_length_pos hpos
  have hhdr : (leBytes 4 (m.serialize.length % 2 ^ 32)).length = 4 := leBytes_length ..
  have hfour : leBytes 4 (m.serialize.length % 2 ^ 32) ≠ [] :=
    List.ne_nil_of_length_pos (by omega)
  have hbody : ∀ {e : TransportError}, (if ((m.serialize.length : Nat) : Int) > 0
      then (.ok (m.serialize.length : Int).toNat : TransportResult Nat) else .error e)
        = .ok m.serialize.length := by
    intro e
    rw [if_pos (by omega), Int.toNat_natCast]
  refine ⟨hfour, m.serialize, ?_, ?_⟩
  · rw [Nat.mod_eq_of_lt hlt, LogMessage.frame]
  · rw [hhdr]
    refine ⟨hne, [], (List.append_nil _).symm, ?_⟩
    dsimp only [SysProg.bind, Bind.bind]
    rw [hbody]
    exact ⟨rfl, rfl⟩

/-- `receive` reads one frame. -/
theorem receive_takes (fd : Nat) {m : LogMessage} (h : m.Admitted) :
    (newServer fd).receive.Takes m.frame (.ok m) := by
  obtain ⟨hpos, hlt⟩ := h.length_lt
  have hhdr : (leBytes 4 m.serialize.length).length = 4 := leBytes_length ..
  have hlen : leNat (leBytes 4 m.serialize.length ++ (List.replicate 4 0).drop
      (leBytes 4 m.serialize.length).length) = m.serialize.length := by
    rw [hhdr, List.drop_of_length_le (by simp), List.append_nil, leNat_leBytes]
    exact Nat.mod_eq_of_lt (by omega)
  have hbody : ∀ {e : TransportError}, (if ((m.serialize.length : Nat) : Int) > 0
      then (.ok (m.serialize.length : Int).toNat : TransportResult Nat)
      else if ((m.serialize.length : Nat) : Int) = 0 then .ok 0 else .error e)
        = .ok m.serialize.length := by
    intro e
    rw [if_pos (by omega), Int.toNat_natCast]
  refine ⟨by decide, leBytes 4 m.serialize.length, m.serialize, rfl, hhdr, ?_⟩
  dsimp only [SysProg.bind, Bind.bind]
  rw [hlen, if_pos (by decide)]
  refine ⟨by simpa using hpos, m.serialize, [], (List.append_nil _).symm, by simp, ?_⟩
  dsimp only [SysProg.bind, Bind.bind]
  rw [List.length_replicate, hbody, List.drop_of_length_le (by simp), List.append_nil,
    LogMessage.deserialize_serialize h]
  exact ⟨rfl, rfl⟩

/-- At the end of the stream both reads store nothing, and the empty message is
refused. -/
theorem receive_ends (fd : Nat) : (newServer fd).receive.Ends (.error .readFailed) := rfl

/-- The messages are sent one after the other. -/
def sendAll (t : PipeTransport) : List LogMessage → SysProg (List (TransportResult Unit))
  | [] => pure []
  | m :: ms => do
      let r ← t.send m
      let rs ← t.sendAll ms
      pure (r :: rs)

/-- `n` calls of `receive`. -/
def receiveMany (t : PipeTransport) : Nat → SysProg (List (TransportResult LogMessage))
  | 0 => pure []
  | n + 1 => do
      let r ← t.receive
      let rs ← t.receiveMany n
      pure (r :: rs)

end PipeTransport

/-! ## A stream of bytes -/

/-- The bytes written and not yet read, and whether the writer has closed its
end. -/
structure ByteStream where
  bytes : List UInt8
  ended : Bool

namespace SysProg

variable {α β : Type}

/-- A program alone on a stream. A write delivers all its bytes; a read takes
all the bytes asked for, or what is left once the stream has ended; without
either it waits, and `none` says that it does so for ever. -/
def run : SysProg α → ByteStream → Option (α × ByteStream)
  | .ret a, s => some (a, s)
  | .write _ buf k, s => (k buf.length).run { s with bytes := s.bytes ++ buf }
  | .read _ len k, s =>
      if s.ended ∨ (s.bytes ≠ [] ∧ len ≤ s.bytes.length) then
        (k (s.bytes.take len).length (s.bytes.take len)).run { s with bytes := s.bytes.drop len }
      else none

theorem run_bind (p : SysProg α) (f : α → SysProg β) (s : ByteStream) :
    (p >>= f).run s = (p.run s).bind fun r => (f r.1).run r.2 := by
  show (p.bind f).run s = _
  induction p generalizing s with
  | ret a => rfl
  | write fd buf k ih => exact ih _ _
  | read fd len k ih =>
      simp only [SysProg.bind, run]
      split
      · exact ih _ _ _
      · rfl

theorem Owes.run {p : SysProg α} {bs : List UInt8} {a : α} (h : p.Owes bs a) (s : ByteStream) :
    p.run s = some (a, { s with bytes := s.bytes ++ bs }) := by
  induction p generalizing bs s with
  | ret a =>
      obtain ⟨rfl, rfl⟩ := h
      simp [SysProg.run]
  | write fd buf k ih =>
      obtain ⟨-, rest, rfl, hk⟩ := h
      rw [SysProg.run, ih _ hk, List.append_assoc]
  | read fd len k _ => exact h.elim

theorem Takes.run {p : SysProg α} {bs : List UInt8} {a : α} (h : p.Takes bs a) (rest : List UInt8)
    (ended : Bool) : p.run ⟨bs ++ rest, ended⟩ = some (a, ⟨rest, ended⟩) := by
  induction p generalizing bs with
  | ret a =>
      obtain ⟨rfl, rfl⟩ := h
      rfl
  | write fd buf k _ => exact h.elim
  | read fd len k ih =>
      obtain ⟨hpos, b, bs', rfl, rfl, hk⟩ := h
      have hne : b ++ bs' ++ rest ≠ [] := by
        have := List.ne_nil_of_length_pos hpos
        simp [this]
      rw [SysProg.run, if_pos (.inr ⟨hne, by simp⟩)]
      simp only [List.append_assoc, List.take_left, List.drop_left]
      exact ih _ _ hk

theorem Ends.run {p : SysProg α} {a : α} (h : p.Ends a) : p.run ⟨[], true⟩ = some (a, ⟨[], true⟩) := by
  induction p with
  | ret a =>
      obtain rfl : a = _ := h
      rfl
  | write fd buf k _ => exact h.elim
  | read fd len k ih =>
      rw [SysProg.run, if_pos (.inl rfl)]
      simp only [List.take_nil, List.drop_nil, List.length_nil]
      exact ih _ _ h

end SysProg

namespace PipeTransport

theorem run_sendAll (fd : Nat) {ms : List LogMessage} (h : ∀ m ∈ ms, m.Admitted)
    (s : ByteStream) : ((newClient fd).sendAll ms).run s
      = some (ms.map fun _ => .ok (), { s with bytes := s.bytes ++ ms.flatMap LogMessage.frame }) := by
  induction ms generalizing s with
  | nil => simp [sendAll, SysProg.run, pure]
  | cons m ms ih =>
      have hm := (send_owes fd (h m (by simp))).run s
      have hms := ih (fun m' hm' => h m' (by simp [hm'])) { s with bytes := s.bytes ++ m.frame }
      rw [sendAll, SysProg.run_bind, hm, Option.bind_some, SysProg.run_bind, hms]
      simp [SysProg.run, pure]

theorem run_receiveMany_ended (fd k : Nat) : ((newServer fd).receiveMany k).run ⟨[], true⟩
    = some (List.replicate k (.error .readFailed), ⟨[], true⟩) := by
  induction k with
  | zero => rfl
  | succ k ih =>
      rw [receiveMany, SysProg.run_bind, (receive_ends fd).run, Option.bind_some, SysProg.run_bind, ih]
      rfl

theorem run_receiveMany (fd : Nat) {ms : List LogMessage} (h : ∀ m ∈ ms, m.Admitted) (k : Nat) :
    ((newServer fd).receiveMany (ms.length + k)).run ⟨ms.flatMap LogMessage.frame, true⟩
      = some (ms.map .ok ++ List.replicate k (.error .readFailed), ⟨[], true⟩) := by
  induction ms with
  | nil => simpa using run_receiveMany_ended fd k
  | cons m ms ih =>
      have hm := (receive_takes fd (h m (by simp))).run (ms.flatMap LogMessage.frame) true
      have hms := ih fun m' hm' => h m' (by simp [hm'])
      rw [show (m :: ms).length + k = (ms.length + k) + 1 by simp; omega, receiveMany,
        List.flatMap_cons, SysProg.run_bind, hm, Option.bind_some, SysProg.run_bind, hms]
      rfl

end PipeTransport

end Nimloth
