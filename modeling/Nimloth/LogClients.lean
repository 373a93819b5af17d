import Mathlib.Tactic.Common
import Mathlib.Data.List.FinRange
import Nimloth.PipeCalls
import Nimloth.LogTransport

/-!
# Log clients on one pipe

Any number of clients send their messages through one kernel pipe to a
server that receives them. A client can lose the processor between the
two writes of a frame, and inside each of them whenever the 32 bytes of
the ring are full, so the bytes of two frames can mix. They do not as
long as no client puts bytes into the pipe while only a part of another
client's frame is in it (`LogSys.Whole`): then the server gets the messages as they
were sent, each client's in its order, and sees the end of the stream
only after all of them.

The invariant (`LogSys.Flow`) reads the state as one list of messages:
those received, and those whose first byte is in the pipe or beyond. The
bytes of the latter are what the server has of the next frame, what is in
the ring, and what the one client inside a frame has still to write.
-/

namespace Nimloth

open PipeRingBuffer

/-! ## The system -/

/-- A client between two system calls, or inside a write. -/
inductive ClientState where
  | running (prog : SysProg (TransportResult Unit))
  | writing (c : WriteCall) (k : Int → SysProg (TransportResult Unit))
  | closed

/-- The write that the client makes next or is inside of. -/
def ClientState.call : ClientState → Option (WriteCall × (Int → SysProg (TransportResult Unit)))
  | .running (.write _ buf k) => some (.start buf, k)
  | .writing c k => some (c, k)
  | _ => none

/-- `part` is a history the code has not: the bytes of the message under way
that are in the pipe or beyond. -/
structure Client where
  transport : PipeTransport
  todo : List LogMessage
  state : ClientState
  part : List UInt8

namespace Client

def isOpen (cl : Client) : Bool :=
  match cl.state with
  | .closed => false
  | _ => true

/-- Some, but not all, of a frame is in the pipe. -/
def midFrame (cl : Client) : Prop := cl.part ≠ [] ∧ cl.state.call.isSome

/-- After a stretch of the write `c`. -/
def wrote (cl : Client) (c c' : WriteCall) (k : Int → SysProg (TransportResult Unit))
    (out : CallOutcome) : Client :=
  { cl with
    state := match out with
      | .returned v => .running (k v)
      | _ => .writing c' k
    part := cl.part ++ c.left.take (c.left.length - c'.left.length) }

end Client

inductive ServerState where
  | running (prog : SysProg (TransportResult LogMessage))
  | reading (c : ReadCall) (k : Int → List UInt8 → SysProg (TransportResult LogMessage))

namespace ServerState

def call : ServerState →
    Option (ReadCall × (Int → List UInt8 → SysProg (TransportResult LogMessage)))
  | .running (.read _ len k) => some (.start len, k)
  | .reading c k => some (c, k)
  | _ => none

/-- After a stretch of a read. -/
def after (c' : ReadCall) (k : Int → List UInt8 → SysProg (TransportResult LogMessage)) :
    CallOutcome → ServerState
  | .returned v => .running (k v c'.got)
  | _ => .reading c' k

end ServerState

structure LogSys (n : Nat) where
  ring : PipeRingBuffer
  clients : Fin n → Client
  transport : PipeTransport
  server : ServerState
  results : List (TransportResult LogMessage)

namespace LogSys

variable {n : Nat}

/-- The strong count of the write end: one for each client that has not closed
its descriptor. -/
def strong (s : LogSys n) : Nat := (List.finRange n).countP fun i => (s.clients i).isOpen

/-- Client `i` is about to send `msgs i` through its descriptor `fds i`. -/
def start (fds : Fin n → Nat) (readFd : Nat) (msgs : Fin n → List LogMessage) : LogSys n where
  ring := PipeRingBuffer.new.setWriteEnd 0
  clients i := ⟨.newClient (fds i), msgs i, .running (.ret (.ok ())), []⟩
  transport := .newServer readFd
  server := .running (PipeTransport.newServer readFd).receive
  results := []

def setClient (s : LogSys n) (i : Fin n) (cl : Client) : LogSys n :=
  { s with clients := Function.update s.clients i cl }

end LogSys

inductive LogEvent (n : Nat) where
  | write (i : Fin n)
  | next (i : Fin n)
  | close (i : Fin n)
  | read
  | result

/-- Client `i` executes a stretch of a write, turns to its next message or
closes its end after the last; the server executes a stretch of a read, or its
`receive` returns and it calls it again. -/
inductive LogStep {n : Nat} : LogSys n → LogEvent n → LogSys n → Prop
  | write {s : LogSys n} {i : Fin n} {c c' : WriteCall} {ring : PipeRingBuffer}
      {k : Int → SysProg (TransportResult Unit)} {out : CallOutcome}
      (hcall : (s.clients i).state.call = some (c, k))
      (hrun : writeLoop s.ring c = (ring, c', out)) (hout : out ≠ .panicked) :
      LogStep s (.write i)
        ({ s with ring := ring }.setClient i ((s.clients i).wrote c c' k out))
  | next {s : LogSys n} {i : Fin n} {r : TransportResult Unit} {m : LogMessage}
      {todo : List LogMessage} (hret : (s.clients i).state = .running (.ret r))
      (htodo : (s.clients i).todo = m :: todo) :
      LogStep s (.next i) (s.setClient i
        ⟨(s.clients i).transport, todo, .running ((s.clients i).transport.send m), []⟩)
  | close {s : LogSys n} {i : Fin n} {r : TransportResult Unit}
      (hret : (s.clients i).state = .running (.ret r)) (htodo : (s.clients i).todo = []) :
      LogStep s (.close i) (s.setClient i { s.clients i with state := .closed })
  | read {s : LogSys n} {c c' : ReadCall} {ring : PipeRingBuffer}
      {k : Int → List UInt8 → SysProg (TransportResult LogMessage)} {out : CallOutcome}
      (hcall : s.server.call = some (c, k))
      (hrun : readLoop (fun _ => s.strong) s.ring c = (ring, c', out)) (hout : out ≠ .panicked) :
      LogStep s .read { s with ring := ring, server := .after c' k out }
  | result {s : LogSys n} {r : TransportResult LogMessage} (hret : s.server = .running (.ret r)) :
      LogStep s .result
        { s with server := .running s.transport.receive, results := s.results ++ [r] }

/-- No client puts bytes into the pipe while a part of another's frame is in it. A stretch that
finds the ring full puts none there. -/
def LogSys.Whole {n : Nat} (s : LogSys n) : LogEvent n → Prop
  | .write i => s.ring.availableWrite = 0 ∨ ∀ j, j ≠ i → ¬ (s.clients j).midFrame
  | _ => True

/-- The steps that keep frames whole. -/
def WholeStep {n : Nat} (s : LogSys n) (e : LogEvent n) (s' : LogSys n) : Prop :=
  LogStep s e s' ∧ s.Whole e

/-- The messages of client `i` in a list. -/
def fromClient {n : Nat} (i : Fin n) (l : List (Fin n × LogMessage)) : List LogMessage :=
  (l.filter (·.1 = i)).map (·.2)

/-- What the server has received so far is what was sent: the results are the
messages of the list `received`, in which each client's are the first of its
list; and the errors after them come only when every message was received. -/
def LogSys.Intact {n : Nat} (msgs : Fin n → List LogMessage) (s : LogSys n) : Prop :=
  ∃ (received : List (Fin n × LogMessage)) (errors : Nat),
    s.results = received.map (fun x => .ok x.2) ++ List.replicate errors (.error .readFailed)
      ∧ (∀ i, fromClient i received <+: msgs i)
      ∧ (0 < errors → ∀ i, fromClient i received = msgs i)

/-! ## A client -/

/-- The client has still to write `bs` for its message. -/
def ClientState.Pending : ClientState → List UInt8 → Prop
  | .running prog, bs => prog.Owes bs (.ok ())
  | .writing c k, bs =>
      c.Wf ∧ ∃ rest, bs = c.left ++ rest ∧ (k c.wantToWrite).Owes rest (.ok ())
  | .closed, _ => False

namespace ClientState

theorem Pending.call {st : ClientState} {bs : List UInt8} {c : WriteCall}
    {k : Int → SysProg (TransportResult Unit)} (h : st.Pending bs)
    (hcall : st.call = some (c, k)) :
    c.Wf ∧ ∃ rest, bs = c.left ++ rest ∧ (k c.wantToWrite).Owes rest (.ok ()) := by
  cases st with
  | running prog =>
      cases prog with
      | ret a => cases hcall
      | write fd buf k' =>
          cases hcall
          exact ⟨WriteCall.start_wf buf, h.2⟩
      | read fd len k' => cases hcall
  | writing c' k' =>
      cases hcall
      exact h
  | closed => cases hcall

theorem not_closed {st : ClientState} {c : WriteCall} {k : Int → SysProg (TransportResult Unit)}
    (hcall : st.call = some (c, k)) : st ≠ .closed := by
  rintro rfl
  cases hcall

/-- Without a write left the message is out. -/
theorem Pending.done {st : ClientState} {bs : List UInt8} (h : st.Pending bs)
    (hcall : st.call = none) : st = .running (.ret (.ok ())) ∧ bs = [] := by
  cases st with
  | running prog =>
      cases prog with
      | ret a =>
          obtain ⟨hbs, ha⟩ := h
          exact ⟨by rw [ha], hbs⟩
      | write fd buf k => cases hcall
      | read fd len k => exact h.elim
  | writing c k => cases hcall
  | closed => exact h.elim

end ClientState

/-- A stretch of a write moves bytes of the message into the ring. -/
theorem Client.wrote_pending {cl : Client} {bs q : List UInt8} {c c' : WriteCall}
    {k : Int → SysProg (TransportResult Unit)} {out : CallOutcome} {rb ring : PipeRingBuffer}
    (h : cl.state.Pending bs) (hcall : cl.state.call = some (c, k)) (hq : Queued rb q)
    (hrun : writeLoop rb c = (ring, c', out)) (hout : out ≠ .panicked) :
    ∃ d bs', bs = d ++ bs' ∧ Queued ring (q ++ d) ∧ ring.writeEnd = rb.writeEnd
      ∧ (cl.wrote c c' k out).part = cl.part ++ d
      ∧ (cl.wrote c c' k out).state.Pending bs' := by
  obtain ⟨hwf, rest, rfl, hk⟩ := h.call hcall
  obtain ⟨d, hm, hres⟩ := writeLoop_moves hq hwf
  rw [hrun] at hm hres
  have hleft : c.left = d ++ c'.left := hm.left
  have htake : c.left.take (c.left.length - c'.left.length) = d := by
    rw [hleft, List.length_append, Nat.add_sub_cancel, List.take_left]
  refine ⟨d, c'.left ++ rest, by rw [hleft, List.append_assoc], hm.queued, hm.writeEnd, ?_, ?_⟩
  · simp only [wrote, htake]
  · cases out with
    | suspended => exact ⟨hm.wf, rest, rfl, by rw [hm.want]; exact hk⟩
    | returned v =>
        obtain hsus | ⟨hv, hnil⟩ := hres
        · cases hsus
        · cases hv
          dsimp only at hnil
          simp only [wrote, ClientState.Pending, hnil, List.nil_append]
          exact hk
    | panicked => exact absurd rfl hout

/-- Where a client is in its list `ms`: the messages `started` have a byte in
the pipe, and `owed` is what it still has to write of the last of them. -/
inductive ClientOk (ms : List LogMessage) : List LogMessage → List UInt8 → Client → Prop
  | idle {cl : Client} {started : List LogMessage} (hst : cl.state = .running (.ret (.ok ())))
      (hms : started ++ cl.todo = ms) : ClientOk ms started [] cl
  | closed {cl : Client} (hst : cl.state = .closed) : ClientOk ms ms [] cl
  | fresh {cl : Client} {started : List LogMessage} {m : LogMessage}
      (hms : started ++ m :: cl.todo = ms) (hm : m.Admitted) (hp : cl.state.Pending m.frame)
      (hpart : cl.part = []) : ClientOk ms started [] cl
  | mid {cl : Client} {started : List LogMessage} {owed : List UInt8}
      (hms : started ++ cl.todo = ms) (hp : cl.state.Pending owed) (hpart : cl.part ≠ [])
      (hcall : cl.state.call.isSome) : ClientOk ms started owed cl

namespace ClientOk

variable {ms started : List LogMessage} {owed bs : List UInt8} {cl : Client}

/-- A client with a byte of its message in the pipe. -/
theorem of_pending (hms : started ++ cl.todo = ms) (hp : cl.state.Pending bs)
    (hpart : cl.part ≠ []) : ClientOk ms started bs cl ∧ (¬ cl.midFrame → bs = []) := by
  cases hcall : cl.state.call with
  | none =>
      obtain ⟨hst, rfl⟩ := hp.done hcall
      exact ⟨.idle hst hms, fun _ => rfl⟩
  | some ck =>
      have hsome : cl.state.call.isSome := by rw [hcall]; rfl
      exact ⟨.mid hms hp hpart hsome, fun hmid => absurd ⟨hpart, hsome⟩ hmid⟩

theorem prefix_ms (h : ClientOk ms started owed cl) : started <+: ms := by
  cases h with
  | idle _ hms => exact ⟨_, hms⟩
  | closed _ => exact List.prefix_rfl
  | fresh hms _ _ _ => exact ⟨_, hms⟩
  | mid hms _ _ _ => exact ⟨_, hms⟩

theorem of_closed (h : ClientOk ms started owed cl) (hst : cl.state = .closed) :
    started = ms := by
  cases h with
  | idle hidle _ =>
      rw [hst] at hidle
      cases hidle
  | closed _ => rfl
  | fresh _ _ hp _ =>
      rw [hst] at hp
      exact hp.elim
  | mid _ hp _ _ =>
      rw [hst] at hp
      exact hp.elim

/-- A client between two messages. -/
theorem of_ret {r : TransportResult Unit} (h : ClientOk ms started owed cl)
    (hst : cl.state = .running (.ret r)) : started ++ cl.todo = ms ∧ owed = [] := by
  cases h with
  | idle _ hms => exact ⟨hms, rfl⟩
  | closed hcl =>
      rw [hst] at hcl
      cases hcl
  | fresh _ _ hp _ =>
      rw [hst] at hp
      exact absurd hp.1 (LogMessage.frame_ne_nil _)
  | mid _ _ _ hcall =>
      rw [hst] at hcall
      cases hcall

end ClientOk

/-! ## The server -/

namespace ServerState

/-- The server takes exactly `bs` and its `receive` returns `r`. -/
def Takes : ServerState → List UInt8 → TransportResult LogMessage → Prop
  | .running prog, bs, r => prog.Takes bs r
  | .reading c k, bs, r =>
      c.Wf ∧ 0 < c.wantToRead ∧ ∃ b rest, bs = b ++ rest
        ∧ c.got.length + b.length = c.wantToRead ∧ (k c.wantToRead (c.got ++ b)).Takes rest r

/-- At the end of the stream `receive` returns `r`. -/
def Ends : ServerState → TransportResult LogMessage → Prop
  | .running prog, r => prog.Ends r
  | .reading c k, r => c.Wf ∧ c.got = [] ∧ (k 0 []).Ends r

variable {st : ServerState} {bs : List UInt8} {r : TransportResult LogMessage} {c c' : ReadCall}
  {k : Int → List UInt8 → SysProg (TransportResult LogMessage)}

theorem Takes.call (h : st.Takes bs r) (hcall : st.call = some (c, k)) :
    (ServerState.reading c k).Takes bs r := by
  cases st with
  | running prog =>
      cases prog with
      | ret a => cases hcall
      | write fd buf k' => cases hcall
      | read fd len k' =>
          cases hcall
          obtain ⟨hpos, b, rest, hbs, hb, hk⟩ := h
          refine ⟨ReadCall.start_wf len, hpos, b, rest, hbs, ?_, hk⟩
          simpa [ReadCall.start] using hb
  | reading c' k' =>
      cases hcall
      exact h

theorem Ends.call (h : st.Ends r) (hcall : st.call = some (c, k)) :
    (ServerState.reading c k).Ends r := by
  cases st with
  | running prog =>
      cases prog with
      | ret a => cases hcall
      | write fd buf k' => cases hcall
      | read fd len k' =>
          cases hcall
          exact ⟨ReadCall.start_wf len, rfl, h⟩
  | reading c' k' =>
      cases hcall
      exact h

/-- A stretch that adds `d` to a read and does not end it short. -/
theorem Takes.after {d : List UInt8} {out : CallOutcome}
    (h : (ServerState.reading c k).Takes (d ++ bs) r) (hgot : c'.got = c.got ++ d)
    (hwant : c'.wantToRead = c.wantToRead) (hwf : c'.Wf) (hout : out ≠ .panicked)
    (hret : ∀ v, out = .returned v → v = c.wantToRead ∧ c'.got.length = c.wantToRead) :
    (ServerState.after c' k out).Takes bs r := by
  obtain ⟨hcwf, hpos, b, rest, hbs, hlen, hk⟩ := h
  have hle : d.length ≤ b.length := by
    have h₁ := hwf.already
    have h₂ := hwf.left
    rw [hgot, List.length_append] at h₁
    omega
  obtain ⟨b', rfl⟩ : d <+: b := by
    refine List.prefix_of_prefix_length_le (List.prefix_append d bs) ?_ hle
    rw [hbs]
    exact List.prefix_append b rest
  rw [List.append_assoc] at hbs
  have hrest := List.append_cancel_left hbs
  rw [List.length_append] at hlen
  cases out with
  | suspended =>
      refine ⟨hwf, by omega, b', rest, hrest, ?_, ?_⟩
      · rw [hgot, hwant, List.length_append]
        omega
      · rw [hgot, hwant, List.append_assoc]
        exact hk
  | returned v =>
      obtain ⟨rfl, hfull⟩ := hret v rfl
      rw [hgot, List.length_append] at hfull
      obtain rfl : b' = [] := List.eq_nil_of_length_eq_zero (by omega)
      rw [List.append_nil] at hk
      rw [List.nil_append] at hrest
      simp only [ServerState.after, ServerState.Takes, hgot, hrest]
      exact hk
  | panicked => exact absurd rfl hout

end ServerState

/-! ## The invariant -/

namespace LogSys

variable {n : Nat} {msgs : Fin n → List LogMessage} {s s' : LogSys n}

/-- What the server does next: it waits for the rest of the frame of which it
has `part`, or it is past the end of the stream. -/
def ServerOk (s : LogSys n) (sent : List (Fin n × LogMessage)) (errors : Nat)
    (part : List UInt8) : Prop :=
  (errors = 0 ∧ (∀ x ∈ sent.head?, part <+: x.2.frame)
    ∧ (∀ m : LogMessage, m.Admitted → ∀ rest, part ++ rest = m.frame → s.server.Takes rest (.ok m))
    ∧ (part = [] → s.server.Ends (.error .readFailed)))
  ∨ (sent = [] ∧ (∀ i, (s.clients i).state = .closed) ∧ s.server.Ends (.error .readFailed))

structure Flow (msgs : Fin n → List LogMessage) (s : LogSys n)
    (received sent : List (Fin n × LogMessage)) (errors : Nat) (part queue tail : List UInt8)
    (owed : Fin n → List UInt8) : Prop where
  transport : ∃ fd, s.transport = .newServer fd
  transports : ∀ i, ∃ fd, (s.clients i).transport = .newClient fd
  results : s.results
    = received.map (fun x => .ok x.2) ++ List.replicate errors (.error .readFailed)
  queued : Queued s.ring queue
  writeEnd : s.ring.writeEnd = some 0
  bytes : part ++ queue ++ tail = sent.flatMap fun x => x.2.frame
  admitted : ∀ x ∈ sent, x.2.Admitted
  clients : ∀ i, ClientOk (msgs i) (fromClient i (received ++ sent)) (owed i) (s.clients i)
  single : ∀ i j, (s.clients i).midFrame → (s.clients j).midFrame → i = j
  owes : ∀ i, (s.clients i).midFrame → owed i = tail
  noTail : (∀ i, ¬ (s.clients i).midFrame) → tail = []
  server : s.ServerOk sent errors part

/-- The state of a run that keeps frames whole. -/
def Flowing (msgs : Fin n → List LogMessage) (s : LogSys n) : Prop :=
  ∃ received sent errors part queue tail owed,
    s.Flow msgs received sent errors part queue tail owed

theorem start_flowing (fds : Fin n → Nat) (readFd : Nat) (msgs : Fin n → List LogMessage) :
    (start fds readFd msgs).Flowing msgs := by
  refine ⟨[], [], 0, [], [], [], fun _ => [], ⟨readFd, rfl⟩, fun i => ⟨fds i, rfl⟩, rfl,
    new_queued.setWriteEnd 0, rfl, rfl, by simp, fun i => .idle rfl rfl, ?_, ?_, fun _ => rfl,
    .inl ⟨rfl, by simp, ?_, fun _ => PipeTransport.receive_ends readFd⟩⟩
  · intro i j hi
    exact absurd rfl hi.1
  · intro i hi
    exact absurd rfl hi.1
  · rintro m hm rest rfl
    exact PipeTransport.receive_takes readFd hm

theorem strong_eq_zero : s.strong = 0 ↔ ∀ i, (s.clients i).state = .closed := by
  unfold strong
  rw [List.countP_eq_zero]
  constructor
  · intro h i
    have hi := h i (List.mem_finRange i)
    unfold Client.isOpen at hi
    split at hi
    · assumption
    · exact absurd rfl hi
  · intro h i _
    simp [Client.isOpen, h i]

@[simp] theorem setClient_self (s : LogSys n) (i : Fin n) (cl : Client) :
    (s.setClient i cl).clients i = cl := Function.update_self ..

theorem setClient_of_ne (s : LogSys n) {i j : Fin n} (cl : Client) (h : j ≠ i) :
    (s.setClient i cl).clients j = s.clients j := Function.update_of_ne h ..

theorem fromClient_snoc (l : List (Fin n × LogMessage)) (i : Fin n) (m : LogMessage) :
    fromClient i (l ++ [(i, m)]) = fromClient i l ++ [m] := by
  simp [fromClient]

theorem fromClient_snoc_ne (l : List (Fin n × LogMessage)) {i j : Fin n} (m : LogMessage)
    (h : j ≠ i) : fromClient j (l ++ [(i, m)]) = fromClient j l := by
  have : ¬ i = j := fun he => h he.symm
  simp [fromClient, this]

section Steps

variable {received sent : List (Fin n × LogMessage)} {errors : Nat}
  {part queue tail : List UInt8} {owed : Fin n → List UInt8}

/-- With a client that is not closed the server is not past the end. -/
theorem Flow.waiting (h : s.Flow msgs received sent errors part queue tail owed) {i : Fin n}
    (hst : (s.clients i).state ≠ .closed) :
    errors = 0 ∧ (∀ x ∈ sent.head?, part <+: x.2.frame)
      ∧ (∀ m : LogMessage, m.Admitted → ∀ rest, part ++ rest = m.frame →
        s.server.Takes rest (.ok m))
      ∧ (part = [] → s.server.Ends (.error .readFailed)) := by
  rcases h.server with hw | ⟨-, hclosed, -⟩
  · exact hw
  · exact absurd (hclosed i) hst

/-- Client `i` goes on to `cl`, and perhaps starts a message. -/
theorem Flow.setClient (h : s.Flow msgs received sent errors part queue tail owed)
    {i : Fin n} {cl : Client} {ring : PipeRingBuffer} {l : List (Fin n × LogMessage)}
    {q t o : List UInt8} (hst : (s.clients i).state ≠ .closed)
    (htr : cl.transport = (s.clients i).transport) (hq : Queued ring q)
    (hwe : ring.writeEnd = some 0)
    (hbytes : part ++ q ++ t = l.flatMap fun x => x.2.frame)
    (hadm : ∀ x ∈ l, x.2.Admitted)
    (hhead : ∀ x ∈ l.head?, part <+: x.2.frame)
    (hrest : ∀ j, j ≠ i → fromClient j (received ++ l) = fromClient j (received ++ sent))
    (hcl : ClientOk (msgs i) (fromClient i (received ++ l)) o cl)
    (hmid : cl.midFrame → o = t ∧ ∀ j, j ≠ i → ¬ (s.clients j).midFrame)
    (howes : ∀ j, j ≠ i → (s.clients j).midFrame → owed j = t)
    (hnone : (∀ j, j ≠ i → ¬ (s.clients j).midFrame) → ¬ cl.midFrame → t = []) :
    ({ s with ring := ring }.setClient i cl).Flowing msgs := by
  obtain ⟨herr, -, htakes, hends⟩ := h.waiting hst
  refine ⟨received, l, errors, part, q, t, Function.update owed i o,
    h.transport, ?_, h.results, hq, hwe, hbytes, hadm, ?_, ?_, ?_, ?_,
    .inl ⟨herr, hhead, htakes, hends⟩⟩
  · intro j
    by_cases hj : j = i
    · subst hj
      rw [setClient_self, htr]
      exact h.transports j
    · rw [setClient_of_ne _ _ hj]
      exact h.transports j
  · intro j
    by_cases hj : j = i
    · subst hj
      rw [setClient_self, Function.update_self]
      exact hcl
    · rw [setClient_of_ne _ _ hj, Function.update_of_ne hj, hrest j hj]
      exact h.clients j
  · intro j j' hj hj'
    by_cases hi : j = i
    · by_cases hi' : j' = i
      · rw [hi, hi']
      · rw [hi, setClient_self] at hj
        rw [setClient_of_ne _ _ hi'] at hj'
        exact absurd hj' ((hmid hj).2 j' hi')
    · rw [setClient_of_ne _ _ hi] at hj
      by_cases hi' : j' = i
      · rw [hi', setClient_self] at hj'
        exact absurd hj ((hmid hj').2 j hi)
      · rw [setClient_of_ne _ _ hi'] at hj'
        exact h.single j j' hj hj'
  · intro j hj
    by_cases hi : j = i
    · subst hi
      rw [setClient_self] at hj
      rw [Function.update_self]
      exact (hmid hj).1
    · rw [setClient_of_ne _ _ hi] at hj
      rw [Function.update_of_ne hi]
      exact howes j hi hj
  · intro hall
    refine hnone ?_ ?_
    · intro j hj
      have := hall j
      rwa [setClient_of_ne _ _ hj] at this
    · have := hall i
      rwa [setClient_self] at this

/-- A client that starts, ends or closes between two messages. -/
theorem Flow.between (h : s.Flow msgs received sent errors part queue tail owed) {i : Fin n}
    {cl : Client} (hst : (s.clients i).state ≠ .closed) (hold : ¬ (s.clients i).midFrame)
    (htr : cl.transport = (s.clients i).transport) (hnew : ¬ cl.midFrame)
    (hcl : ClientOk (msgs i) (fromClient i (received ++ sent)) [] cl) :
    (s.setClient i cl).Flowing msgs := by
  refine h.setClient hst htr h.queued h.writeEnd h.bytes h.admitted (h.waiting hst).2.1
    (fun _ _ => rfl) hcl (fun hmid => absurd hmid hnew) (fun j _ hj => h.owes j hj) ?_
  intro hothers _
  refine h.noTail ?_
  intro j
  by_cases hj : j = i
  · rw [hj]
    exact hold
  · exact hothers j hj

/-- A stretch of a write that finds the ring full. -/
theorem Flow.stalled (h : s.Flow msgs received sent errors part queue tail owed) {i : Fin n}
    {c c' : WriteCall} {k : Int → SysProg (TransportResult Unit)} {out : CallOutcome}
    {ring : PipeRingBuffer} (hcall : (s.clients i).state.call = some (c, k))
    (hrun : writeLoop s.ring c = (ring, c', out)) (hfull : s.ring.availableWrite = 0) :
    ({ s with ring := ring }.setClient i ((s.clients i).wrote c c' k out)).Flowing msgs := by
  rw [writeLoop, dif_pos hfull] at hrun
  cases hrun
  have hst := ClientState.not_closed hcall
  have hpart : ((s.clients i).wrote c c k .suspended).part = (s.clients i).part := by
    simp [Client.wrote]
  have hmid : ((s.clients i).wrote c c k .suspended).midFrame ↔ (s.clients i).midFrame := by
    rw [Client.midFrame, Client.midFrame, hpart, hcall]
    rfl
  have hok : ∀ {started bs}, ClientOk (msgs i) started bs (s.clients i) →
      ClientOk (msgs i) started bs ((s.clients i).wrote c c k .suspended) := by
    intro started bs hold
    cases hold with
    | idle hidle _ =>
        rw [hidle] at hcall
        cases hcall
    | closed hcl => exact absurd hcl hst
    | fresh hms hm hp hnil => exact .fresh hms hm (hp.call hcall) (hpart.trans hnil)
    | mid hms hp hne _ => exact .mid hms (hp.call hcall) (by rwa [hpart]) rfl
  refine h.setClient hst rfl h.queued h.writeEnd h.bytes h.admitted (h.waiting hst).2.1
    (fun _ _ => rfl) (hok (h.clients i)) (fun hin => ⟨h.owes i (hmid.mp hin), fun j hj hj' => ?_⟩)
    (fun j _ hj => h.owes j hj) fun hothers hnew => h.noTail fun j => ?_
  · exact hj (h.single j i hj' (hmid.mp hin))
  · by_cases hj : j = i
    · rw [hj]
      exact fun hin => hnew (hmid.mpr hin)
    · exact hothers j hj

theorem Flow.write (h : s.Flow msgs received sent errors part queue tail owed) {i : Fin n}
    {c c' : WriteCall} {k : Int → SysProg (TransportResult Unit)} {out : CallOutcome}
    {ring : PipeRingBuffer} (hcall : (s.clients i).state.call = some (c, k))
    (hrun : writeLoop s.ring c = (ring, c', out)) (hout : out ≠ .panicked)
    (hwhole : ∀ j, j ≠ i → ¬ (s.clients j).midFrame) :
    ({ s with ring := ring }.setClient i ((s.clients i).wrote c c' k out)).Flowing msgs := by
  have hst := ClientState.not_closed hcall
  obtain ⟨herr, hhead, htakes, hends⟩ := h.waiting hst
  have hok := h.clients i
  generalize hstarted : fromClient i (received ++ sent) = started at hok
  generalize howed : owed i = bs at hok
  cases hok with
  | idle hidle _ =>
      rw [hidle] at hcall
      cases hcall
  | closed hcl => exact absurd hcl hst
  | @fresh _ _ m hms hm hp hpart =>
      obtain ⟨d, bs', hbs, hq, hwe, hpart', hp'⟩ :=
        Client.wrote_pending hp hcall h.queued hrun hout
      have htail : tail = [] := by
        refine h.noTail ?_
        intro j
        by_cases hj : j = i
        · rw [hj]
          exact fun hmid => hmid.1 hpart
        · exact hwhole j hj
      rw [hpart, List.nil_append] at hpart'
      cases d with
      | nil =>
          -- the ring was full: no byte of the message is in it yet
          rw [List.nil_append] at hbs
          rw [List.append_nil] at hq
          have hnew : ¬ ((s.clients i).wrote c c' k out).midFrame := fun hmid => hmid.1 hpart'
          refine h.setClient hst rfl hq (hwe.trans h.writeEnd) h.bytes h.admitted hhead
            (fun _ _ => rfl) (o := []) ?_ (fun hmid => absurd hmid hnew)
            (fun j hj hmid => absurd hmid (hwhole j hj)) (fun _ _ => htail)
          rw [hstarted]
          exact .fresh hms hm (by rw [hbs]; exact hp') hpart'
      | cons b d =>
          have htodo : (started ++ [m]) ++ ((s.clients i).wrote c c' k out).todo = msgs i := by
            rw [← hms]
            simp [Client.wrote]
          obtain ⟨hcl, hdone⟩ := ClientOk.of_pending htodo hp' (by rw [hpart']; simp)
          refine h.setClient (l := sent ++ [(i, m)]) (t := bs') hst rfl hq
            (hwe.trans h.writeEnd) ?_ ?_ ?_ ?_ (o := bs') ?_
            (fun _ => ⟨rfl, hwhole⟩) (fun j hj hmid => absurd hmid (hwhole j hj))
            (fun _ => hdone)
          · have hbytes := h.bytes
            rw [htail, List.append_nil] at hbytes
            rw [List.flatMap_append, ← hbytes, List.flatMap_singleton, hbs]
            simp
          · intro x hx
            rcases List.mem_append.mp hx with hx | hx
            · exact h.admitted x hx
            · rw [List.mem_singleton.mp hx]
              exact hm
          · cases hs : sent with
            | nil =>
                have hbytes := h.bytes
                rw [hs, List.flatMap_nil, List.append_eq_nil_iff, List.append_eq_nil_iff] at hbytes
                rw [hbytes.1.1]
                exact fun _ _ => List.nil_prefix
            | cons x sent =>
                rw [hs] at hhead
                exact hhead
          · intro j hj
            rw [← List.append_assoc, fromClient_snoc_ne _ _ hj]
          · rw [← List.append_assoc, fromClient_snoc, hstarted]
            exact hcl
  | mid hms hp hpart hsome =>
      have hmid : (s.clients i).midFrame := ⟨hpart, hsome⟩
      have htail : bs = tail := howed ▸ h.owes i hmid
      obtain ⟨d, bs', hbs, hq, hwe, hpart', hp'⟩ :=
        Client.wrote_pending hp hcall h.queued hrun hout
      have htodo : started ++ ((s.clients i).wrote c c' k out).todo = msgs i := hms
      obtain ⟨hcl, hdone⟩ := ClientOk.of_pending htodo hp' (by rw [hpart']; simp [hpart])
      refine h.setClient (t := bs') hst rfl hq (hwe.trans h.writeEnd) ?_ h.admitted hhead
        (fun _ _ => rfl) (o := bs') (by rw [hstarted]; exact hcl) (fun _ => ⟨rfl, hwhole⟩)
        (fun j hj hj' => absurd hj' (hwhole j hj)) (fun _ => hdone)
      rw [← h.bytes, ← htail, hbs]
      simp

/-! ### A stretch of a read -/

/-- The stretch moves `d` out of the ring; if the read returns, then what it has
is what it says, and it is short only at the end of the stream. -/
structure ReadStretch (s : LogSys n) (c c' : ReadCall) (out : CallOutcome)
    (queue d rest : List UInt8) : Prop where
  split : queue = d ++ rest
  got : c'.got = c.got ++ d
  want : c'.wantToRead = c.wantToRead
  wf : c'.Wf
  returns : out ≠ .panicked
  ret : ∀ v, out = .returned v → v = c'.got.length
    ∧ (v < c.wantToRead → rest = [] ∧ ∀ i, (s.clients i).state = .closed)

theorem readLoop_stretch {c c' : ReadCall} {out : CallOutcome} {ring : PipeRingBuffer}
    (hq : Queued s.ring queue) (hwe : s.ring.writeEnd = some 0) (hwf : c.Wf)
    (hrun : readLoop (fun _ => s.strong) s.ring c = (ring, c', out)) (hout : out ≠ .panicked) :
    ∃ d rest, s.ReadStretch c c' out queue d rest ∧ Queued ring rest
      ∧ ring.writeEnd = some 0 := by
  obtain ⟨d, rest, hsplit, hm, hres⟩ := readLoop_moves (fun _ => s.strong) hq hwe hwf
  rw [hrun] at hm hres
  refine ⟨d, rest, ⟨hsplit, hm.got, hm.want, hm.wf, hout, ?_⟩, hm.queued, hm.writeEnd.trans hwe⟩
  rintro v rfl
  obtain ⟨hsus, -⟩ | ⟨v', hv, hlen, hshort⟩ := hres
  · cases hsus
  · cases hv
    exact ⟨hlen.symm, fun hlt => ⟨(hshort hlt).1, strong_eq_zero.mp (hshort hlt).2⟩⟩

variable {c c' : ReadCall} {k : Int → List UInt8 → SysProg (TransportResult LogMessage)}
  {out : CallOutcome} {d rest : List UInt8}

/-- Without a byte a read that has none stays at the end of the stream. -/
theorem ReadStretch.ends {r : TransportResult LogMessage} (h : s.ReadStretch c c' out queue [] rest)
    (hends : (ServerState.reading c k).Ends r) : (ServerState.after c' k out).Ends r := by
  obtain ⟨-, hnil, hk⟩ := hends
  have hgot := h.got
  rw [hnil, List.append_nil] at hgot
  cases out with
  | suspended => exact ⟨h.wf, hgot, hk⟩
  | returned v =>
      have hv := (h.ret v rfl).1
      rw [hgot] at hv
      subst hv
      simp only [ServerState.after, ServerState.Ends, hgot]
      exact hk
  | panicked => exact absurd rfl h.returns

/-- The read is inside the next frame: it cannot end short, for then nobody
would write the rest of the frame. -/
theorem Flow.full (h : s.Flow msgs received sent errors part queue tail owed)
    (hr : s.ReadStretch c c' out queue d rest) {x : Fin n × LogMessage}
    {more : List (Fin n × LogMessage)} {b after : List UInt8} (hsent : sent = x :: more)
    (hframe : part ++ (b ++ after) = x.2.frame) (hb : c.got.length + b.length = c.wantToRead) :
    d <+: b ∧ ∀ v, out = .returned v → v = c.wantToRead ∧ c'.got.length = c.wantToRead := by
  have hlen : c'.got.length = c.got.length + d.length := by rw [hr.got, List.length_append]
  have hle : d.length ≤ b.length := by
    have h₁ := hr.wf.already
    have h₂ := hr.wf.left
    have h₃ := hr.want
    omega
  have hfuture : d ++ (rest ++ tail) = b ++ (after ++ more.flatMap fun x => x.2.frame) := by
    have hbytes := h.bytes
    rw [hsent, List.flatMap_cons, ← hframe, hr.split, List.append_assoc, List.append_assoc,
      List.append_assoc, List.append_assoc] at hbytes
    exact List.append_cancel_left hbytes
  refine ⟨?_, ?_⟩
  · refine List.prefix_of_prefix_length_le (List.prefix_append d (rest ++ tail)) ?_ hle
    rw [hfuture]
    exact List.prefix_append b _
  · intro v hv
    obtain ⟨hgot, hshort⟩ := hr.ret v hv
    have hnot : ¬ v < c.wantToRead := by
      intro hlt
      obtain ⟨hrest, hclosed⟩ := hshort hlt
      have htail : tail = [] := by
        refine h.noTail ?_
        intro i hmid
        have hcall := hmid.2
        rw [hclosed i] at hcall
        cases hcall
      have hcount := congrArg List.length hfuture
      rw [hrest, htail] at hcount
      simp only [List.append_nil, List.length_append] at hcount
      omega
    omega

/-- The server after a stretch of a read. -/
theorem Flow.server_read {ring : PipeRingBuffer}
    (h : s.Flow msgs received sent errors part queue tail owed)
    (hcall : s.server.call = some (c, k)) (hr : s.ReadStretch c c' out queue d rest) :
    LogSys.ServerOk { s with ring := ring, server := .after c' k out } sent errors (part ++ d) := by
  have hbytes := h.bytes
  rw [hr.split] at hbytes
  have hnone : sent = [] → part = [] ∧ d = [] := by
    rintro rfl
    rw [List.flatMap_nil, List.append_eq_nil_iff, List.append_eq_nil_iff,
      List.append_eq_nil_iff] at hbytes
    exact ⟨hbytes.1.1, hbytes.1.2.1⟩
  rcases h.server with ⟨herr, hhead, htakes, hends⟩ | ⟨hsent, hclosed, hends⟩
  · have hmore : (∀ v, out = .returned v → v = c.wantToRead ∧ c'.got.length = c.wantToRead) →
        ∀ m : LogMessage, m.Admitted → ∀ rest', part ++ d ++ rest' = m.frame →
          (ServerState.after c' k out).Takes rest' (.ok m) := by
      intro hfull m hadm rest' hrest'
      rw [List.append_assoc] at hrest'
      exact ((htakes m hadm _ hrest').call hcall).after hr.got hr.want hr.wf hr.returns hfull
    have hwait : part ++ d = [] → (ServerState.after c' k out).Ends (.error .readFailed) := by
      intro hnil
      obtain ⟨hpart, rfl⟩ := List.append_eq_nil_iff.mp hnil
      exact hr.ends ((hends hpart).call hcall)
    cases hs : sent with
    | nil =>
        obtain ⟨hpart, rfl⟩ := hnone hs
        have hstill := (hends hpart).call hcall
        by_cases hret : ∃ v, out = .returned v
        · -- nothing was sent and the read returned: the stream has ended
          obtain ⟨v, hv⟩ := hret
          obtain ⟨hgot, hshort⟩ := hr.ret v hv
          have hadm : (⟨.error, 0, 0, 0, "", ""⟩ : LogMessage).Admitted :=
            ⟨.error, 0, 0, 0, "", "", by decide⟩
          have hpos : 0 < c.wantToRead :=
            ((htakes _ hadm _ (by rw [hpart, List.nil_append])).call hcall).2.1
          rw [hr.got, hstill.2.1] at hgot
          have hlt : v < c.wantToRead := by
            rw [hgot]
            exact hpos
          exact .inr ⟨rfl, (hshort hlt).2, hr.ends hstill⟩
        · refine .inl ⟨herr, by simp, hmore ?_, hwait⟩
          intro v hv
          exact absurd ⟨v, hv⟩ hret
    | cons x more =>
        rw [hs] at hhead
        obtain ⟨todo, htodo⟩ := hhead x rfl
        have hadm := h.admitted x (by rw [hs]; simp)
        obtain ⟨-, -, b, after, rfl, hb, -⟩ := (htakes x.2 hadm todo htodo).call hcall
        obtain ⟨⟨b', rfl⟩, hfull⟩ := h.full hr hs htodo hb
        refine .inl ⟨herr, ?_, hmore hfull, hwait⟩
        rintro y ⟨⟩
        refine ⟨b' ++ after, ?_⟩
        rw [← htodo]
        simp
  · obtain ⟨-, rfl⟩ := hnone hsent
    exact .inr ⟨hsent, hclosed, hr.ends (hends.call hcall)⟩

theorem Flow.read_wf (h : s.Flow msgs received sent errors part queue tail owed)
    (hcall : s.server.call = some (c, k)) : c.Wf := by
  rcases h.server with ⟨-, hhead, htakes, hends⟩ | ⟨-, -, hends⟩
  · cases hs : sent with
    | nil =>
        have hbytes := h.bytes
        rw [hs, List.flatMap_nil, List.append_eq_nil_iff, List.append_eq_nil_iff] at hbytes
        exact ((hends hbytes.1.1).call hcall).1
    | cons x more =>
        rw [hs] at hhead
        obtain ⟨todo, htodo⟩ := hhead x rfl
        exact ((htakes x.2 (h.admitted x (by rw [hs]; simp)) todo htodo).call hcall).1
  · exact (hends.call hcall).1

theorem Flow.read {ring : PipeRingBuffer}
    (h : s.Flow msgs received sent errors part queue tail owed)
    (hcall : s.server.call = some (c, k))
    (hrun : readLoop (fun _ => s.strong) s.ring c = (ring, c', out)) (hout : out ≠ .panicked) :
    LogSys.Flowing msgs { s with ring := ring, server := .after c' k out } := by
  obtain ⟨d, rest, hr, hq, hwe⟩ :=
    readLoop_stretch h.queued h.writeEnd (h.read_wf hcall) hrun hout
  refine ⟨received, sent, errors, part ++ d, rest, tail, owed, h.transport, h.transports,
    h.results, hq, hwe, ?_, h.admitted, h.clients, h.single, h.owes, h.noTail,
    h.server_read hcall hr⟩
  rw [← h.bytes, hr.split]
  simp

/-- A `receive` that returns has read one whole frame, or the stream has
ended. -/
theorem Flow.result {r : TransportResult LogMessage}
    (h : s.Flow msgs received sent errors part queue tail owed)
    (hret : s.server = .running (.ret r)) :
    LogSys.Flowing msgs
      { s with server := .running s.transport.receive, results := s.results ++ [r] } := by
  obtain ⟨fd, hfd⟩ := h.transport
  have hnext : ∀ m : LogMessage, m.Admitted → ∀ rest', [] ++ rest' = m.frame →
      (ServerState.running s.transport.receive).Takes rest' (.ok m) := by
    rintro m hadm rest' rfl
    rw [hfd]
    exact PipeTransport.receive_takes fd hadm
  have hend : (ServerState.running s.transport.receive).Ends (.error .readFailed) := by
    rw [hfd]
    exact PipeTransport.receive_ends fd
  have hbytes := h.bytes
  rcases h.server with ⟨herr, hhead, htakes, hends⟩ | ⟨hsent, hclosed, hends⟩
  · cases hs : sent with
    | nil =>
        -- the server has nothing of a frame, but every frame begins with a byte to read
        rw [hs, List.flatMap_nil, List.append_eq_nil_iff, List.append_eq_nil_iff] at hbytes
        have hadm : (⟨.error, 0, 0, 0, "", ""⟩ : LogMessage).Admitted :=
          ⟨.error, 0, 0, 0, "", "", by decide⟩
        have htake := htakes _ hadm _ (by rw [hbytes.1.1, List.nil_append])
        rw [hret] at htake
        exact absurd htake.1 (LogMessage.frame_ne_nil _)
    | cons x more =>
        rw [hs] at hhead hbytes
        obtain ⟨todo, htodo⟩ := hhead x rfl
        have htake := htakes x.2 (h.admitted x (by rw [hs]; simp)) todo htodo
        rw [hret] at htake
        obtain ⟨rfl, rfl⟩ := htake
        rw [List.append_nil] at htodo
        rw [List.flatMap_cons, ← htodo, List.append_assoc] at hbytes
        refine ⟨received ++ [x], more, 0, [], queue, tail, owed, h.transport, h.transports, ?_,
          h.queued, h.writeEnd, ?_, ?_, ?_, h.single, h.owes, h.noTail,
          .inl ⟨rfl, fun _ _ => List.nil_prefix, hnext, fun _ => hend⟩⟩
        · rw [h.results, herr]
          simp
        · rw [List.nil_append]
          exact List.append_cancel_left hbytes
        · intro y hy
          exact h.admitted y (by rw [hs]; simp [hy])
        · intro i
          have hcl := h.clients i
          rw [hs] at hcl
          simpa using hcl
  · rw [hret] at hends
    obtain rfl : r = .error .readFailed := hends
    refine ⟨received, sent, errors + 1, part, queue, tail, owed, h.transport, h.transports, ?_,
      h.queued, h.writeEnd, h.bytes, h.admitted, h.clients, h.single, h.owes, h.noTail,
      .inr ⟨hsent, hclosed, hend⟩⟩
    rw [h.results, List.replicate_succ']
    simp

end Steps

theorem Flowing.step (hadm : ∀ i, ∀ m ∈ msgs i, m.Admitted) {e : LogEvent n}
    (h : s.Flowing msgs) (hs : WholeStep s e s') : s'.Flowing msgs := by
  obtain ⟨received, sent, errors, part, queue, tail, owed, h⟩ := h
  obtain ⟨hs, hwhole⟩ := hs
  cases hs with
  | write hcall hrun hout =>
      rcases hwhole with hfull | hwhole
      · exact h.stalled hcall hrun hfull
      · exact h.write hcall hrun hout hwhole
  | @next i r m todo hret htodo =>
      obtain ⟨hms, howed⟩ := (h.clients i).of_ret hret
      obtain ⟨fd, hfd⟩ := h.transports i
      have hm : m.Admitted := by
        refine hadm i m ?_
        rw [← hms, htodo]
        simp
      refine h.between (by rw [hret]; simp) ?_ rfl (fun hmid => hmid.1 rfl) ?_
      · intro hmid
        have hcall := hmid.2
        rw [hret] at hcall
        cases hcall
      · rw [htodo] at hms
        refine .fresh hms hm ?_ rfl
        rw [hfd]
        exact PipeTransport.send_owes fd hm
  | @close i r hret htodo =>
      obtain ⟨hms, howed⟩ := (h.clients i).of_ret hret
      refine h.between (by rw [hret]; simp) ?_ rfl ?_ ?_
      · intro hmid
        have hcall := hmid.2
        rw [hret] at hcall
        cases hcall
      · intro hmid
        cases hmid.2
      · rw [htodo, List.append_nil] at hms
        rw [hms]
        exact .closed rfl
  | read hcall hrun hout => exact h.read hcall hrun hout
  | result hret => exact h.result hret

theorem Flowing.intact (h : s.Flowing msgs) : s.Intact msgs := by
  obtain ⟨received, sent, errors, part, queue, tail, owed, h⟩ := h
  have hpre : ∀ i, fromClient i received <+: fromClient i (received ++ sent) := by
    intro i
    refine ⟨fromClient i sent, ?_⟩
    simp [fromClient]
  refine ⟨received, errors, h.results, fun i => (hpre i).trans (h.clients i).prefix_ms, ?_⟩
  intro herr i
  rcases h.server with ⟨hzero, -⟩ | ⟨hsent, hclosed, -⟩
  · omega
  · have hall := (h.clients i).of_closed (hclosed i)
    rw [hsent, List.append_nil] at hall
    exact hall

end LogSys

/-- As long as no client puts bytes into the frame of another, the server receives
the messages as they were sent. -/
theorem log_clients_intact {n : Nat} {fds : Fin n → Nat} {readFd : Nat}
    {msgs : Fin n → List LogMessage} (hadm : ∀ i, ∀ m ∈ msgs i, m.Admitted)
    {tr : List (LogEvent n)} {s : LogSys n}
    (h : Runs WholeStep (LogSys.start fds readFd msgs) tr s) : s.Intact msgs :=
  LogSys.Flowing.intact
    (h.invariant (LogSys.start_flowing fds readFd msgs) fun _ _ _ hI hs => hI.step hadm hs)

/-! ## Calls that need not wait -/

theorem writeFor_fits {m : Nat} {rb : PipeRingBuffer} {c : WriteCall} (hc : c.Wf)
    (hne : c.left ≠ []) (hle : c.left.length ≤ m) :
    (writeFor m rb c).2.2 = some c.wantToWrite := by
  induction m generalizing rb c with
  | zero => exact absurd (List.eq_nil_of_length_eq_zero (by omega)) hne
  | succ m ih =>
      have hal := hc.already
      rw [writeFor]
      split
      · next hnil => exact absurd hnil hne
      · next byte left hleft =>
          rw [hleft, List.length_cons] at hal hle
          dsimp only
          split
          · rfl
          · next hmore =>
              have hwant : (c.take left).wantToWrite = c.wantToWrite := rfl
              have hal' : (c.take left).alreadyWrite = c.alreadyWrite + 1 := rfl
              rw [← hwant]
              refine ih ⟨?_⟩ ?_ ?_
              · show c.alreadyWrite + 1 + left.length = c.wantToWrite
                omega
              · show left ≠ []
                rintro rfl
                rw [List.length_nil] at hal
                omega
              · show left.length ≤ m
                omega

/-- A write for which there is room returns at once. -/
theorem writeLoop_fits {rb : PipeRingBuffer} {q buf : List UInt8} (hq : Queued rb q)
    (hbuf : buf ≠ []) (hle : q.length + buf.length ≤ RING_BUFFER_SIZE) :
    ∃ ring c', writeLoop rb (.start buf) = (ring, c', .returned buf.length) ∧ c'.left = []
      ∧ Queued ring (q ++ buf) ∧ ring.writeEnd = rb.writeEnd := by
  have hpos := List.length_pos_of_ne_nil hbuf
  have havail := hq.availableWrite
  have hfor : (writeFor rb.availableWrite rb (.start buf)).2.2 = some buf.length :=
    writeFor_fits (WriteCall.start_wf buf) hbuf (show buf.length ≤ _ by omega)
  obtain ⟨d, hm, hres⟩ := writeLoop_moves hq (WriteCall.start_wf buf)
  have hrun : (writeLoop rb (.start buf)).2.2 = .returned buf.length := by
    rw [writeLoop, dif_neg (by omega)]
    split
    · next heq =>
        rw [heq] at hfor
        cases hfor
        rfl
    · next heq =>
        rw [heq] at hfor
        cases hfor
  rw [hrun] at hres
  obtain hsus | ⟨-, hleft⟩ := hres
  · cases hsus
  · have hd : buf = d := by
      have := hm.left
      rwa [hleft, List.append_nil] at this
    have hqueued := hm.queued
    rw [← hd] at hqueued
    exact ⟨_, _, Prod.ext rfl (Prod.ext rfl hrun), hleft, hqueued, hm.writeEnd⟩

theorem readFor_enough {m : Nat} {rb : PipeRingBuffer} {c : ReadCall} (hc : c.Wf)
    (hpos : 0 < c.left) (hle : c.left ≤ m) : (readFor m rb c).2.2 = some c.wantToRead := by
  induction m generalizing rb c with
  | zero => omega
  | succ m ih =>
      have hal := hc.already
      have hleft := hc.left
      rw [readFor, if_neg (by omega)]
      dsimp only
      split
      · rfl
      · next hmore =>
          have hwant : (c.store rb.readByte.1).wantToRead = c.wantToRead := rfl
          have hmore' : c.alreadyRead + 1 ≠ c.wantToRead := hmore
          rw [← hwant]
          refine ih ⟨?_, ?_⟩ ?_ ?_
          · simp [ReadCall.store, hal]
          · show c.alreadyRead + 1 + (c.left - 1) = c.wantToRead
            omega
          · show 0 < c.left - 1
            omega
          · show c.left - 1 ≤ m
            omega

/-- A read for which there are bytes returns at once. -/
theorem readLoop_enough (strong : Nat → Nat) {rb : PipeRingBuffer} {w : Nat} {b q : List UInt8}
    (hq : Queued rb (b ++ q)) (hw : rb.writeEnd = some w) (hb : b ≠ []) :
    ∃ ring c', readLoop strong rb (.start b.length) = (ring, c', .returned b.length) ∧ c'.got = b
      ∧ Queued ring q ∧ ring.writeEnd = rb.writeEnd := by
  have hpos := List.length_pos_of_ne_nil hb
  have havail := hq.availableRead
  rw [List.length_append] at havail
  have hfor : (readFor rb.availableRead rb (.start b.length)).2.2 = some b.length :=
    readFor_enough (ReadCall.start_wf _) hpos (show b.length ≤ _ by omega)
  obtain ⟨d, q', hsplit, hm, hres⟩ := readLoop_moves strong hq hw (ReadCall.start_wf b.length)
  have hrun : (readLoop strong rb (.start b.length)).2.2 = .returned b.length := by
    rw [readLoop, dif_neg (by omega)]
    split
    · next heq =>
        rw [heq] at hfor
        cases hfor
        rfl
    · next heq =>
        rw [heq] at hfor
        cases hfor
  rw [hrun] at hres
  obtain ⟨hsus, -⟩ | ⟨v, hv, hlen, -⟩ := hres
  · cases hsus
  · cases hv
    have hgot : (readLoop strong rb (.start b.length)).2.1.got = d := hm.got
    rw [hgot] at hlen
    obtain ⟨rfl, rfl⟩ := List.append_inj hsplit hlen.symm
    exact ⟨_, _, Prod.ext rfl (Prod.ext rfl hrun), hgot, hm.queued, hm.writeEnd⟩

namespace LogSys

variable {n : Nat} {s : LogSys n} {q : List UInt8}

/-- Client `i` turns to its next message. -/
theorem next_message {i : Fin n} {r : TransportResult Unit} {m : LogMessage}
    {todo : List LogMessage} (hret : (s.clients i).state = .running (.ret r))
    (htodo : (s.clients i).todo = m :: todo) :
    ∃ s', WholeStep s (.next i) s' ∧ s'.ring = s.ring ∧ s'.transport = s.transport
      ∧ s'.server = s.server ∧ s'.results = s.results
      ∧ (s'.clients i).state = .running ((s.clients i).transport.send m)
      ∧ ∀ j, j ≠ i → s'.clients j = s.clients j := by
  refine ⟨_, ⟨.next hret htodo, trivial⟩, rfl, rfl, rfl, rfl, ?_, ?_⟩
  · rw [setClient_self]
  · intro j hj
    rw [setClient_of_ne _ _ hj]

/-- Client `i` makes a write for which there is room. -/
theorem write_fits {i : Fin n} {fd : Nat} {buf : List UInt8}
    {k : Int → SysProg (TransportResult Unit)}
    (hst : (s.clients i).state = .running (.write fd buf k)) (hq : Queued s.ring q)
    (hbuf : buf ≠ []) (hle : q.length + buf.length ≤ RING_BUFFER_SIZE) :
    ∃ s', LogStep s (.write i) s' ∧ Queued s'.ring (q ++ buf) ∧ s'.ring.writeEnd = s.ring.writeEnd
      ∧ s'.transport = s.transport ∧ s'.server = s.server ∧ s'.results = s.results
      ∧ (s'.clients i).state = .running (k buf.length)
      ∧ ∀ j, j ≠ i → s'.clients j = s.clients j := by
  obtain ⟨ring, c', hrun, hleft, hq', hwe⟩ := writeLoop_fits hq hbuf hle
  have hcall : (s.clients i).state.call = some (.start buf, k) := by rw [hst]; rfl
  refine ⟨_, .write hcall hrun (by simp), hq', hwe, rfl, rfl, rfl, ?_, ?_⟩
  · rw [setClient_self]
    rfl
  · intro j hj
    rw [setClient_of_ne _ _ hj]

/-- A client that finds room for what it owes and is not disturbed puts it into
the ring. -/
theorem send_fits {i : Fin n} {prog : SysProg (TransportResult Unit)} {bs : List UInt8}
    (hst : (s.clients i).state = .running prog) (howes : prog.Owes bs (.ok ()))
    (hq : Queued s.ring q) (hle : q.length + bs.length ≤ RING_BUFFER_SIZE)
    (hwhole : ∀ j, j ≠ i → ¬ (s.clients j).midFrame) :
    ∃ tr s', Runs WholeStep s tr s' ∧ Queued s'.ring (q ++ bs)
      ∧ s'.ring.writeEnd = s.ring.writeEnd ∧ s'.transport = s.transport
      ∧ s'.server = s.server ∧ s'.results = s.results
      ∧ (s'.clients i).state = .running (.ret (.ok ()))
      ∧ ∀ j, j ≠ i → s'.clients j = s.clients j := by
  induction prog generalizing s q bs with
  | ret a =>
      obtain ⟨rfl, rfl⟩ := howes
      exact ⟨[], s, .nil s, by simpa using hq, rfl, rfl, rfl, rfl, hst, fun _ _ => rfl⟩
  | write fd buf k ih =>
      obtain ⟨hbuf, rest, rfl, hk⟩ := howes
      rw [List.length_append] at hle
      obtain ⟨s₁, hstep, hq₁, hwe₁, htr₁, hserver₁, hresults₁, hst₁, hothers₁⟩ :=
        write_fits hst hq hbuf (by omega)
      have hwhole₁ : ∀ j, j ≠ i → ¬ (s₁.clients j).midFrame := by
        intro j hj
        rw [hothers₁ j hj]
        exact hwhole j hj
      obtain ⟨tr, s', hrun, hq', hwe', htr', hserver', hresults', hst', hothers'⟩ :=
        ih _ hst₁ hk hq₁ (by rw [List.length_append]; omega) hwhole₁
      refine ⟨_, s', .cons ⟨hstep, .inr hwhole⟩ hrun, ?_, hwe'.trans hwe₁, htr'.trans htr₁,
        hserver'.trans hserver₁, hresults'.trans hresults₁, hst', fun j hj => ?_⟩
      · rwa [List.append_assoc] at hq'
      · rw [hothers' j hj, hothers₁ j hj]
  | read fd len k _ => exact howes.elim

/-- A server that finds all it takes in the ring receives it. -/
theorem receive_enough {prog : SysProg (TransportResult LogMessage)} {bs : List UInt8}
    {r : TransportResult LogMessage} {w : Nat} (hst : s.server = .running prog)
    (htakes : prog.Takes bs r) (hq : Queued s.ring (bs ++ q)) (hw : s.ring.writeEnd = some w) :
    ∃ tr s', Runs WholeStep s tr s' ∧ s'.clients = s.clients ∧ s'.results = s.results ++ [r]
      ∧ Queued s'.ring q ∧ s'.ring.writeEnd = some w ∧ s'.server = .running s.transport.receive := by
  induction prog generalizing s bs with
  | ret a =>
      obtain ⟨rfl, rfl⟩ := htakes
      exact ⟨_, _, .single ⟨.result hst, trivial⟩, rfl, rfl, hq, hw, rfl⟩
  | write fd buf k _ => exact htakes.elim
  | read fd len k ih =>
      obtain ⟨hpos, b, rest, rfl, rfl, hk⟩ := htakes
      rw [List.append_assoc] at hq
      obtain ⟨ring, c', hloop, hgot, hq', hwe⟩ :=
        readLoop_enough (fun _ => s.strong) hq hw (List.ne_nil_of_length_pos hpos)
      have hcall : s.server.call = some (.start b.length, k) := by rw [hst]; rfl
      have hstep := LogStep.read hcall hloop (by simp)
      rw [ServerState.after, hgot] at hstep
      obtain ⟨tr, s', hrun, hlast⟩ := ih _ _
        (s := { s with ring := ring, server := .running (k b.length b) }) rfl hk hq' (hwe.trans hw)
      exact ⟨_, s', .cons ⟨hstep, trivial⟩ hrun, hlast⟩

end LogSys

/-- A message without text. -/
def hello (pid : UInt32) : LogMessage := ⟨.info, pid, 0, 0, "", ""⟩

theorem hello_admitted (pid : UInt32) : (hello pid).Admitted :=
  ⟨.info, pid, 0, 0, "", "", rfl⟩

/-- Two processes that log one message each. -/
def helloTwice (i : Fin 2) : List LogMessage := [hello (UInt32.ofNat (i + 1))]

/-- One process sends its message and the server receives it, then the other. The first is done with
its frame when the second begins. -/
theorem log_clients_intact_hello :
    ∃ tr s, Runs WholeStep (LogSys.start (fun _ => 3) 3 helloTwice) tr s
      ∧ s.results = [.ok (hello 1), .ok (hello 2)] ∧ s.Intact helloTwice := by
  obtain ⟨s₀, hnext, hring, htr, hserver, hresults, hst, hothers⟩ := LogSys.next_message
    (s := LogSys.start (fun _ => 3) 3 helloTwice) (i := 0) rfl rfl
  obtain ⟨tr₁, s₁, hrun₁, hq₁, hwe₁, htr₁, hserver₁, hresults₁, hst₁, hothers₁⟩ :=
    LogSys.send_fits hst (PipeTransport.send_owes 3 (hello_admitted 1))
      (by rw [hring]; exact new_queued.setWriteEnd 0) (by decide)
      (fun j hj => by rw [hothers j hj]; exact fun hmid => hmid.1 rfl)
  rw [hserver] at hserver₁
  rw [hring] at hwe₁
  obtain ⟨tr₂, s₂, hrun₂, hclients₂, hresults₂, hq₂, hwe₂, hserver₂⟩ :=
    LogSys.receive_enough (q := []) hserver₁
      (PipeTransport.receive_takes 3 (hello_admitted 1)) (by simpa using hq₁) hwe₁
  have hone : s₂.clients 1 = (LogSys.start (fun _ => 3) 3 helloTwice).clients 1 := by
    rw [hclients₂, hothers₁ 1 (by decide), hothers 1 (by decide)]
  obtain ⟨s₃, hnext₃, hring₃, htr₃, hserver₃, hresults₃, hst₃, hothers₃⟩ :=
    LogSys.next_message (s := s₂) (i := 1) (by rw [hone]; rfl) (by rw [hone]; rfl)
  rw [hone] at hst₃
  have hdone : ∀ j, j ≠ 1 → ¬ (s₃.clients j).midFrame := by
    intro j hj hmid
    obtain rfl : j = 0 := by omega
    have hcall := hmid.2
    rw [hothers₃ 0 hj, hclients₂, hst₁] at hcall
    cases hcall
  obtain ⟨tr₄, s₄, hrun₄, hq₄, hwe₄, htr₄, hserver₄, hresults₄, -⟩ :=
    LogSys.send_fits hst₃ (PipeTransport.send_owes 3 (hello_admitted 2)) (by rw [hring₃]; exact hq₂)
      (by decide) hdone
  rw [hserver₃, hserver₂, htr₁, htr] at hserver₄
  rw [hring₃] at hwe₄
  obtain ⟨tr₅, s₅, hrun₅, -, hresults₅, -⟩ := LogSys.receive_enough (q := []) hserver₄
    (PipeTransport.receive_takes 3 (hello_admitted 2)) (by simpa using hq₄) (hwe₄.trans hwe₂)
  have hrun := ((Runs.cons hnext hrun₁).append hrun₂).append ((Runs.cons hnext₃ hrun₄).append hrun₅)
  refine ⟨_, s₅, hrun, ?_, ?_⟩
  · rw [hresults₅, hresults₄, hresults₃, hresults₂, hresults₁, hresults]
    rfl
  · refine log_clients_intact ?_ hrun
    intro i m hm
    rw [List.mem_singleton.mp hm]
    exact hello_admitted _

/-- Both processes write their length before the first writes its message: the
server takes the second length for the beginning of the first message. -/
theorem log_clients_torn :
    ∃ tr s, Runs LogStep (LogSys.start (fun _ => 3) 3 helloTwice) tr s
      ∧ s.results = [.error .readFailed] ∧ ¬ s.Intact helloTwice := by
  obtain ⟨s₁, hs₁, hring₁, -, hserver₁, hresults₁, hst₁, hothers₁⟩ := LogSys.next_message
    (s := LogSys.start (fun _ => 3) 3 helloTwice) (i := 0) rfl rfl
  obtain ⟨s₂, hs₂, hq₂, hwe₂, -, hserver₂, hresults₂, hst₂, hothers₂⟩ :=
    LogSys.write_fits (q := []) hst₁ (by rw [hring₁]; exact new_queued.setWriteEnd 0) (by decide)
      (by decide)
  have hone : s₂.clients 1 = (LogSys.start (fun _ => 3) 3 helloTwice).clients 1 := by
    rw [hothers₂ 1 (by decide), hothers₁ 1 (by decide)]
  obtain ⟨s₃, hs₃, hring₃, -, hserver₃, hresults₃, hst₃, hothers₃⟩ :=
    LogSys.next_message (s := s₂) (i := 1) (by rw [hone]; rfl) (by rw [hone]; rfl)
  rw [hone] at hst₃
  obtain ⟨s₄, hs₄, hq₄, hwe₄, -, hserver₄, hresults₄, hst₄, hothers₄⟩ :=
    LogSys.write_fits hst₃ (by rw [hring₃]; exact hq₂) (by decide) (by decide)
  have hzero : (s₄.clients 0).state = _ :=
    (congrArg Client.state ((hothers₄ 0 (by decide)).trans (hothers₃ 0 (by decide)))).trans hst₂
  obtain ⟨s₅, hs₅, hq₅, hwe₅, -, hserver₅, hresults₅, -, -⟩ :=
    LogSys.write_fits hzero hq₄ (by decide) (by decide)
  have hserver : s₅.server = .running (PipeTransport.newServer 3).receive := by
    rw [hserver₅, hserver₄, hserver₃, hserver₂, hserver₁]
    rfl
  have hwe : s₅.ring.writeEnd = some 0 := by
    rw [hwe₅, hwe₄, hring₃, hwe₂, hring₁]
    rfl
  have htakes : (PipeTransport.newServer 3).receive.Takes
      [13, 0, 0, 0, 13, 0, 0, 0, 3, 1, 0, 0, 0, 0, 0, 0, 0] (.error .readFailed) :=
    ⟨by decide, [13, 0, 0, 0], _, rfl, rfl, by decide, [13, 0, 0, 0, 3, 1, 0, 0, 0, 0, 0, 0, 0], [],
      rfl, rfl, rfl, rfl⟩
  obtain ⟨tr, s₆, hrun, -, hresults, -⟩ :=
    LogSys.receive_enough (q := [0, 0, 0, 0]) hserver htakes hq₅ hwe
  have hres : s₆.results = [.error .readFailed] := by
    rw [hresults, hresults₅, hresults₄, hresults₃, hresults₂, hresults₁]
    rfl
  refine ⟨_, s₆, .cons hs₁.1 (.cons hs₂ (.cons hs₃.1 (.cons hs₄ (.cons hs₅
    (hrun.mono fun _ _ _ h => h.1))))), hres, ?_⟩
  rintro ⟨received, errors, heq, -, hall⟩
  rw [hres] at heq
  cases received with
  | nil =>
      have hpos : 0 < errors := by
        have := congrArg List.length heq
        simp at this
        omega
      have := hall hpos 0
      simp [fromClient, helloTwice] at this
  | cons x received => simp at heq

/-! ## One client -/

theorem fromClient_fin_one (l : List (Fin 1 × LogMessage)) :
    fromClient 0 l = l.map (·.2) := by
  have hall : l.filter (·.1 = 0) = l := by
    refine List.filter_eq_self.mpr ?_
    intro x _
    simp [Fin.fin_one_eq_zero x.1]
  rw [fromClient, hall]

/-- The messages of one client on a stream that it closes after the last: the
sends succeed, the receives return the messages with every field as it was, and
then nothing but errors. On the ring of the kernel the same holds of the results
at every moment of every interleaving. -/
theorem log_stream_round_trip {ms : List LogMessage} (hadm : ∀ m ∈ ms, m.Admitted)
    (fd readFd : Nat) :
    (∃ s, ((PipeTransport.newClient fd).sendAll ms).run ⟨[], false⟩
        = some (ms.map fun _ => .ok (), s)
      ∧ ∀ k, ((PipeTransport.newServer readFd).receiveMany (ms.length + k)).run
          { s with ended := true }
        = some (ms.map .ok ++ List.replicate k (.error .readFailed), ⟨[], true⟩))
    ∧ ∀ tr s, Runs LogStep (LogSys.start (fun _ : Fin 1 => fd) readFd fun _ => ms) tr s →
        ∃ received errors, s.results
            = received.map .ok ++ List.replicate errors (.error .readFailed)
          ∧ received <+: ms ∧ (0 < errors → received = ms) := by
  refine ⟨⟨_, PipeTransport.run_sendAll fd hadm _, ?_⟩, ?_⟩
  · intro k
    exact PipeTransport.run_receiveMany readFd hadm k
  · intro tr s hrun
    have hwhole : ∀ (a : LogSys 1) e b, LogStep a e b → WholeStep a e b := by
      intro a e b hs
      refine ⟨hs, ?_⟩
      cases e with
      | write i => exact .inr fun j hj => absurd (Subsingleton.elim j i) hj
      | next i => trivial
      | close i => trivial
      | read => trivial
      | result => trivial
    have hflow : s.Flowing fun _ => ms :=
      (hrun.mono hwhole).invariant (LogSys.start_flowing _ readFd _) fun _ _ _ hI hs =>
        hI.step (fun _ => hadm) hs
    obtain ⟨received, errors, hres, hpre, hall⟩ := hflow.intact
    have hone := fromClient_fin_one received
    refine ⟨received.map (·.2), errors, ?_, hone ▸ hpre 0, fun herr => hone ▸ hall herr 0⟩
    rw [hres, List.map_map]
    rfl

/-- Two messages without text. -/
theorem log_stream_round_trip_hello :
    ∃ s, ((PipeTransport.newClient 3).sendAll [hello 1, hello 2]).run ⟨[], false⟩
        = some ([.ok (), .ok ()], s)
      ∧ ((PipeTransport.newServer 3).receiveMany 3).run { s with ended := true }
        = some ([.ok (hello 1), .ok (hello 2), .error .readFailed], ⟨[], true⟩) := by
  have hadm : ∀ m ∈ [hello 1, hello 2], m.Admitted := by
    intro m hm
    rcases List.mem_cons.mp hm with rfl | hm
    · exact hello_admitted 1
    · rw [List.mem_singleton.mp hm]
      exact hello_admitted 2
  obtain ⟨⟨s, hsend, hreceive⟩, -⟩ := log_stream_round_trip hadm 3 3
  exact ⟨s, hsend, hreceive 1⟩

end Nimloth
