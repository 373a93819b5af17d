import Mathlib.Tactic.Common
import Mathlib.Logic.Function.Basic
import Nimloth.Runs
import Nimloth.PipeRing

/-!
# Concurrent calls on one pipe

`Pipe::read` and `Pipe::write` of `os/src/fs/pipe.rs`, cut at the only
places where another process can run: `suspend_current_and_run_next`. A
call in progress keeps its local variables (`ReadCall`, `WriteCall`);
`readLoop` and `writeLoop` execute the body of the `loop` from the point
of resumption until the call suspends or returns.

`PipeStep` interleaves any number of such calls, one per process, with
the copying and closing of descriptors of the write end. The state keeps
two histories the code has not: the bytes handed to readers, in the
order of `read_byte`, and those taken from writers, in the order of
`write_byte`. `pipe_lossless_fifo` relates them to the buffer in every
reachable state and says what a call may return.
-/

namespace Nimloth

open PipeRingBuffer

/-- How a stretch of a blocking call ends. -/
inductive CallOutcome where
  | suspended
  | returned (n : Nat)
  | panicked
  deriving DecidableEq, Repr

/-! ## `Pipe::read` -/

/-- The locals of `Pipe::read`. `left` counts the byte references `buf_iter`
has still to yield and `got` is what was stored through those it yielded. -/
structure ReadCall where
  wantToRead : Nat
  left : Nat
  alreadyRead : Nat
  got : List UInt8

def ReadCall.start (len : Nat) : ReadCall :=
  { wantToRead := len, left := len, alreadyRead := 0, got := [] }

/-- One byte is stored through the next byte reference. -/
def ReadCall.store (c : ReadCall) (byte : UInt8) : ReadCall :=
  { c with
    left := c.left - 1
    alreadyRead := c.alreadyRead + 1
    got := c.got ++ [byte] }

/-- The `for _ in 0..loop_read` loop; `some` is a `return` out of it. -/
def readFor : Nat → PipeRingBuffer → ReadCall → PipeRingBuffer × ReadCall × Option Nat
  | 0, rb, c => (rb, c, none)
  | n + 1, rb, c =>
      if c.left = 0 then (rb, c, some c.alreadyRead)
      else
        let (byte, rb) := rb.readByte
        let c := c.store byte
        if c.alreadyRead = c.wantToRead then (rb, c, some c.wantToRead)
        else readFor n rb c

/-- An iteration of the `for` loop that does not return uses up a byte
reference. -/
theorem readFor_left {n : Nat} {rb rb' : PipeRingBuffer} {c c' : ReadCall}
    (h : readFor n rb c = (rb', c', none)) : c'.left + n = c.left := by
  induction n generalizing rb c with
  | zero =>
      obtain ⟨-, rfl, -⟩ := Prod.mk.injEq .. ▸ h
      rfl
  | succ n ih =>
      rw [readFor] at h
      split at h
      · simp at h
      · dsimp only at h
        split at h
        · simp at h
        · have := ih h
          simp only [ReadCall.store] at this
          omega

def readLoop (strong : Nat → Nat) (rb : PipeRingBuffer) (c : ReadCall) :
    PipeRingBuffer × ReadCall × CallOutcome :=
  if _hzero : rb.availableRead = 0 then
    match rb.allWriteEndsClosed strong with
    | none => (rb, c, .panicked)
    | some true => (rb, c, .returned c.alreadyRead)
    | some false => (rb, c, .suspended)
  else
    match _h : readFor rb.availableRead rb c with
    | (rb', c', some n) => (rb', c', .returned n)
    | (rb', c', none) => readLoop strong rb' c'
termination_by c.left
decreasing_by
  have := readFor_left _h
  omega

/-! ## `Pipe::write` -/

/-- The locals of `Pipe::write`. `left` is what `buf_iter` has still to
yield. -/
structure WriteCall where
  wantToWrite : Nat
  left : List UInt8
  alreadyWrite : Nat

def WriteCall.start (buf : List UInt8) : WriteCall :=
  { wantToWrite := buf.length, left := buf, alreadyWrite := 0 }

/-- One byte is taken from the iterator. -/
def WriteCall.take (c : WriteCall) (left : List UInt8) : WriteCall :=
  { c with left := left, alreadyWrite := c.alreadyWrite + 1 }

/-- The `for _ in 0..loop_write` loop. -/
def writeFor : Nat → PipeRingBuffer → WriteCall → PipeRingBuffer × WriteCall × Option Nat
  | 0, rb, c => (rb, c, none)
  | n + 1, rb, c =>
      match c.left with
      | [] => (rb, c, some c.alreadyWrite)
      | byte :: left =>
          let rb := rb.writeByte byte
          let c := c.take left
          if c.alreadyWrite = c.wantToWrite then (rb, c, some c.wantToWrite)
          else writeFor n rb c

theorem writeFor_left {n : Nat} {rb rb' : PipeRingBuffer} {c c' : WriteCall}
    (h : writeFor n rb c = (rb', c', none)) : c'.left.length + n = c.left.length := by
  induction n generalizing rb c with
  | zero =>
      obtain ⟨-, rfl, -⟩ := Prod.mk.injEq .. ▸ h
      rfl
  | succ n ih =>
      rw [writeFor] at h
      split at h
      · simp at h
      · next byte left hleft =>
          dsimp only at h
          split at h
          · simp at h
          · have := ih h
            simp only [WriteCall.take] at this
            rw [hleft, List.length_cons]
            omega

def writeLoop (rb : PipeRingBuffer) (c : WriteCall) :
    PipeRingBuffer × WriteCall × CallOutcome :=
  if _hzero : rb.availableWrite = 0 then (rb, c, .suspended)
  else
    match _h : writeFor rb.availableWrite rb c with
    | (rb', c', some n) => (rb', c', .returned n)
    | (rb', c', none) => writeLoop rb' c'
termination_by c.left.length
decreasing_by
  have := writeFor_left _h
  omega

/-! ## What a stretch of a call does to the queue -/

/-- The two counters of a read agree with the bytes it has stored. -/
structure ReadCall.Wf (c : ReadCall) : Prop where
  already : c.alreadyRead = c.got.length
  left : c.alreadyRead + c.left = c.wantToRead

theorem ReadCall.start_wf (len : Nat) : (ReadCall.start len).Wf :=
  ⟨rfl, Nat.zero_add _⟩

/-- `rb'` and `c'` come from `rb` and `c` by moving the bytes `d` from the
front of the queue into the reader's buffer. -/
structure ReadMoves (rb : PipeRingBuffer) (c : ReadCall) (rb' : PipeRingBuffer) (c' : ReadCall)
    (d q' : List UInt8) : Prop where
  queued : Queued rb' q'
  writeEnd : rb'.writeEnd = rb.writeEnd
  got : c'.got = c.got ++ d
  want : c'.wantToRead = c.wantToRead
  wf : c'.Wf

theorem readFor_moves {n : Nat} {rb : PipeRingBuffer} {c : ReadCall} {q : List UInt8}
    (hq : Queued rb q) (hn : n ≤ q.length) (hc : c.Wf) :
    ∃ d q', q = d ++ q' ∧ ReadMoves rb c (readFor n rb c).1 (readFor n rb c).2.1 d q'
      ∧ ((readFor n rb c).2.2 = none ∧ d.length = n
        ∨ (readFor n rb c).2.2 = some c.wantToRead
          ∧ (readFor n rb c).2.1.got.length = c.wantToRead) := by
  induction n generalizing rb c q with
  | zero => exact ⟨[], q, rfl, ⟨hq, rfl, by simp [readFor], rfl, hc⟩, .inl ⟨rfl, rfl⟩⟩
  | succ n ih =>
      have hal := hc.already
      have hle := hc.left
      rw [readFor]
      split
      · next hleft =>
          -- the iterator is exhausted: only a read of no bytes at all gets here
          have hwant : c.alreadyRead = c.wantToRead := by omega
          exact ⟨[], q, rfl, ⟨hq, rfl, by simp, rfl, hc⟩,
            .inr ⟨by simp [hwant], by simp only; omega⟩⟩
      · cases q with
        | nil => simp at hn
        | cons b q =>
            obtain ⟨hb, hq'⟩ := hq.readByte
            dsimp only
            rw [hb]
            have hc' : (c.store b).Wf :=
              ⟨by simp [ReadCall.store, hal], by simp only [ReadCall.store]; omega⟩
            have hstep : ReadMoves rb c rb.readByte.2 (c.store b) [b] q :=
              ⟨hq', rfl, rfl, rfl, hc'⟩
            split
            · next heq =>
                exact ⟨[b], q, rfl, hstep, .inr ⟨rfl, hc'.already.symm.trans heq⟩⟩
            · obtain ⟨d, q', rfl, hm, hout⟩ := ih hq' (by simpa using hn) hc'
              refine ⟨b :: d, q', rfl,
                ⟨hm.queued, hm.writeEnd, ?_, hm.want, hm.wf⟩, ?_⟩
              · rw [hm.got]
                simp [ReadCall.store]
              · rcases hout with ⟨h1, h2⟩ | hret
                · exact .inl ⟨h1, by simp [h2]⟩
                · exact .inr hret

/-- A stretch of a read moves bytes from the front of the queue to the
reader. It returns short only with the queue empty and the write end gone,
and suspends only with the queue empty. -/
theorem readLoop_moves (strong : Nat → Nat) {rb : PipeRingBuffer} {c : ReadCall} {w : Nat}
    {q : List UInt8} (hq : Queued rb q) (hw : rb.writeEnd = some w) (hc : c.Wf) :
    ∃ d q', q = d ++ q'
      ∧ ReadMoves rb c (readLoop strong rb c).1 (readLoop strong rb c).2.1 d q'
      ∧ ((readLoop strong rb c).2.2 = .suspended ∧ q' = []
        ∨ ∃ n, (readLoop strong rb c).2.2 = .returned n
          ∧ (readLoop strong rb c).2.1.got.length = n
          ∧ (n < c.wantToRead → q' = [] ∧ strong w = 0)) := by
  induction hl : c.left using Nat.strongRecOn generalizing rb c q with
  | ind left ih =>
      rw [readLoop]
      split
      · next hzero =>
          have hnil : q = [] := by
            rw [hq.availableRead] at hzero
            exact List.eq_nil_of_length_eq_zero hzero
          refine ⟨[], q, rfl, ?_⟩
          simp only [allWriteEndsClosed, hw, Option.map_some]
          cases hs : strong w == 0 with
          | true =>
              exact ⟨⟨hq, rfl, by simp, rfl, hc⟩,
                .inr ⟨_, rfl, hc.already.symm, fun _ => ⟨hnil, by simpa using hs⟩⟩⟩
          | false => exact ⟨⟨hq, rfl, by simp, rfl, hc⟩, .inl ⟨rfl, hnil⟩⟩
      · next hpos =>
          have havail := hq.availableRead
          obtain ⟨d, q', hd, hm, hout⟩ := readFor_moves hq (Nat.le_of_eq havail) hc
          split
          · next rb' c' n heq =>
              rw [heq] at hm hout
              obtain ⟨h1, -⟩ | ⟨h1, h2⟩ := hout
              · cases h1
              · obtain rfl : n = c.wantToRead := by simpa using h1
                exact ⟨d, q', hd, hm, .inr ⟨_, rfl, h2, fun hlt => absurd hlt (Nat.lt_irrefl _)⟩⟩
          · next rb' c' heq =>
              have hlt := readFor_left heq
              rw [heq] at hm
              obtain ⟨d', q'', rfl, hm', hout'⟩ :=
                ih c'.left (by omega) hm.queued (hm.writeEnd.trans hw) hm.wf rfl
              refine ⟨d ++ d', q'', by simp [hd], ⟨hm'.queued, hm'.writeEnd.trans hm.writeEnd,
                by rw [hm'.got, hm.got, List.append_assoc], hm'.want.trans hm.want, hm'.wf⟩, ?_⟩
              rwa [← hm.want]

structure WriteCall.Wf (c : WriteCall) : Prop where
  already : c.alreadyWrite + c.left.length = c.wantToWrite

theorem WriteCall.start_wf (buf : List UInt8) : (WriteCall.start buf).Wf :=
  ⟨Nat.zero_add _⟩

/-- `rb'` and `c'` come from `rb` and `c` by moving the bytes `d` from the
writer's buffer to the end of the queue. -/
structure WriteMoves (rb : PipeRingBuffer) (c : WriteCall) (q : List UInt8)
    (rb' : PipeRingBuffer) (c' : WriteCall) (d : List UInt8) : Prop where
  queued : Queued rb' (q ++ d)
  writeEnd : rb'.writeEnd = rb.writeEnd
  left : c.left = d ++ c'.left
  want : c'.wantToWrite = c.wantToWrite
  wf : c'.Wf

theorem writeFor_moves {n : Nat} {rb : PipeRingBuffer} {c : WriteCall} {q : List UInt8}
    (hq : Queued rb q) (hn : q.length + n ≤ RING_BUFFER_SIZE) (hc : c.Wf) :
    ∃ d, WriteMoves rb c q (writeFor n rb c).1 (writeFor n rb c).2.1 d
      ∧ ((writeFor n rb c).2.2 = none
        ∨ (writeFor n rb c).2.2 = some c.wantToWrite ∧ (writeFor n rb c).2.1.left = []) := by
  induction n generalizing rb c q with
  | zero => exact ⟨[], ⟨by simpa [writeFor] using hq, rfl, rfl, rfl, hc⟩, .inl rfl⟩
  | succ n ih =>
      have hal := hc.already
      rw [writeFor]
      split
      · next hleft =>
          rw [hleft, List.length_nil] at hal
          exact ⟨[], ⟨by simpa using hq, rfl, rfl, rfl, hc⟩, .inr ⟨by simp [← hal], hleft⟩⟩
      · next b left hleft =>
          rw [hleft, List.length_cons] at hal
          have hq' := hq.writeByte (by omega) b
          have hc' : (c.take left).Wf := ⟨by simp only [WriteCall.take]; omega⟩
          have hstep : WriteMoves rb c q (rb.writeByte b) (c.take left) [b] :=
            ⟨hq', rfl, hleft, rfl, hc'⟩
          dsimp only
          split
          · next heq =>
              have hnil : left = [] := by
                simp only [WriteCall.take] at heq
                exact List.eq_nil_of_length_eq_zero (by omega)
              exact ⟨[b], hstep, .inr ⟨rfl, hnil⟩⟩
          · have hroom : (q ++ [b]).length + n ≤ RING_BUFFER_SIZE := by
              rw [List.length_append, List.length_singleton]
              omega
            obtain ⟨d, hm, hout⟩ := ih hq' hroom hc'
            refine ⟨b :: d, ⟨by simpa using hm.queued, hm.writeEnd, ?_, hm.want, hm.wf⟩, hout⟩
            rw [hleft, List.cons_append, ← hm.left]
            rfl

/-- A stretch of a write moves bytes from the writer to the end of the
queue, and returns only when all of them are there. -/
theorem writeLoop_moves {rb : PipeRingBuffer} {c : WriteCall} {q : List UInt8}
    (hq : Queued rb q) (hc : c.Wf) :
    ∃ d, WriteMoves rb c q (writeLoop rb c).1 (writeLoop rb c).2.1 d
      ∧ ((writeLoop rb c).2.2 = .suspended
        ∨ (writeLoop rb c).2.2 = .returned c.wantToWrite ∧ (writeLoop rb c).2.1.left = []) := by
  induction hl : c.left.length using Nat.strongRecOn generalizing rb c q with
  | ind left ih =>
      rw [writeLoop]
      split
      · exact ⟨[], ⟨by simpa using hq, rfl, rfl, rfl, hc⟩, .inl rfl⟩
      · next hpos =>
          have hlen := hq.len
          have havail := hq.availableWrite
          obtain ⟨d, hm, hout⟩ := writeFor_moves (n := rb.availableWrite) hq (by omega) hc
          split
          · next rb' c' n heq =>
              rw [heq] at hm hout
              obtain h1 | ⟨h1, h2⟩ := hout
              · cases h1
              · obtain rfl : n = c.wantToWrite := by simpa using h1
                exact ⟨d, hm, .inr ⟨rfl, h2⟩⟩
          · next rb' c' heq =>
              have hlt := writeFor_left heq
              rw [heq] at hm
              obtain ⟨d', hm', hout'⟩ := ih c'.left.length (by omega) hm.queued hm.wf rfl
              refine ⟨d ++ d', ⟨by simpa using hm'.queued, hm'.writeEnd.trans hm.writeEnd,
                by rw [hm.left, hm'.left, List.append_assoc], hm'.want.trans hm.want, hm'.wf⟩, ?_⟩
              rwa [← hm.want]

/-! ## Any number of readers and writers -/

/-- The call a process has in progress on the pipe. -/
inductive PipeCall where
  | read (c : ReadCall)
  | write (c : WriteCall)

def PipeCall.Wf : PipeCall → Prop
  | .read c => c.Wf
  | .write c => c.Wf

/-- One pipe and its users. `fds` counts the descriptors that hold the write
end and `writing` the writes in progress: `sys_write` keeps a clone of the
file for the duration of the call. -/
structure PipeSys where
  ring : PipeRingBuffer
  fds : Nat
  writing : Nat
  calls : Nat → Option PipeCall
  delivered : List UInt8
  accepted : List UInt8

namespace PipeSys

/-- `make_pipe`, with the write end named 0 and held by one descriptor. -/
def make : PipeSys where
  ring := PipeRingBuffer.new.setWriteEnd 0
  fds := 1
  writing := 0
  calls := fun _ => none
  delivered := []
  accepted := []

/-- The strong count of the write end. -/
def strong (s : PipeSys) : Nat := s.fds + s.writing

def closed (s : PipeSys) : Prop := s.ring.allWriteEndsClosed (fun _ => s.strong) = some true

/-- What remains of a call after a stretch of it. -/
def keep (call : PipeCall) : CallOutcome → Option PipeCall
  | .suspended => some call
  | _ => none

/-- Process `p` executes a stretch of the read `c`. -/
def runRead (s : PipeSys) (p : Nat) (c : ReadCall) : PipeSys × ReadCall × CallOutcome :=
  let (ring, c', out) := readLoop (fun _ => s.strong) s.ring c
  ({ s with
      ring := ring
      calls := Function.update s.calls p (keep (.read c') out)
      delivered := s.delivered ++ c'.got.drop c.got.length }, c', out)

/-- Process `p` executes a stretch of the write `c`; the clone of the file is
dropped when the call returns. -/
def runWrite (s : PipeSys) (p : Nat) (c : WriteCall) : PipeSys × WriteCall × CallOutcome :=
  let (ring, c', out) := writeLoop s.ring c
  ({ s with
      ring := ring
      writing := if out = .suspended then s.writing else s.writing - 1
      calls := Function.update s.calls p (keep (.write c') out)
      accepted := s.accepted ++ c.left.take (c.left.length - c'.left.length) }, c', out)

end PipeSys

/-- What is observed of a step: a stretch of a call with the locals at its
end, or a change in the number of descriptors of the write end. -/
inductive PipeEvent where
  | read (p : Nat) (c : ReadCall) (out : CallOutcome)
  | write (p : Nat) (c : WriteCall) (out : CallOutcome)
  | dup
  | close

inductive PipeStep : PipeSys → PipeEvent → PipeSys → Prop
  | readCall {s : PipeSys} {p : Nat} (len : Nat) (h : s.calls p = none) :
      PipeStep s (.read p (s.runRead p (.start len)).2.1 (s.runRead p (.start len)).2.2)
        (s.runRead p (.start len)).1
  | readResume {s : PipeSys} {p : Nat} {c : ReadCall} (h : s.calls p = some (.read c)) :
      PipeStep s (.read p (s.runRead p c).2.1 (s.runRead p c).2.2) (s.runRead p c).1
  | writeCall {s t : PipeSys} {p : Nat} (buf : List UInt8) (h : s.calls p = none)
      (hfd : 0 < s.fds) (ht : t = { s with writing := s.writing + 1 }) :
      PipeStep s (.write p (t.runWrite p (.start buf)).2.1 (t.runWrite p (.start buf)).2.2)
        (t.runWrite p (.start buf)).1
  | writeResume {s : PipeSys} {p : Nat} {c : WriteCall} (h : s.calls p = some (.write c)) :
      PipeStep s (.write p (s.runWrite p c).2.1 (s.runWrite p c).2.2) (s.runWrite p c).1
  | dup {s : PipeSys} (hfd : 0 < s.fds) : PipeStep s .dup { s with fds := s.fds + 1 }
  | close {s : PipeSys} (hfd : 0 < s.fds) : PipeStep s .close { s with fds := s.fds - 1 }

/-- What a step may show: a write returns its full length, a read that
returns fewer bytes than asked leaves the buffer empty and finds every write
end closed, and neither call panics. -/
def PipeEvent.Allowed (s' : PipeSys) : PipeEvent → Prop
  | .read _ c (.returned n) =>
      n = c.got.length ∧ n ≤ c.wantToRead
        ∧ (n < c.wantToRead → s'.ring.availableRead = 0 ∧ s'.closed)
  | .write _ c (.returned n) => n = c.wantToWrite ∧ c.left = []
  | .read _ _ .suspended => True
  | .write _ _ .suspended => True
  | .read _ _ .panicked => False
  | .write _ _ .panicked => False
  | .dup => True
  | .close => True

namespace PipeSys

/-- The queue in the ring is what was accepted and not yet delivered. -/
structure Fifo (s : PipeSys) : Prop where
  queue : ∃ q, Queued s.ring q ∧ s.delivered ++ q = s.accepted
  writeEnd : s.ring.writeEnd = some 0
  calls : ∀ p call, s.calls p = some call → call.Wf

theorem make_fifo : make.Fifo :=
  ⟨⟨[], new_queued.setWriteEnd 0, rfl⟩, rfl, fun _ _ h => by cases h⟩

theorem Fifo.update_calls {s : PipeSys} (h : s.Fifo) {p : Nat} (call : PipeCall)
    (hcall : call.Wf) (out : CallOutcome) :
    ∀ p' call', Function.update s.calls p (keep call out) p' = some call' → call'.Wf := by
  intro p' call' heq
  by_cases hp : p' = p
  · subst hp
    cases out with
    | suspended =>
        obtain rfl : call = call' := by simpa [keep] using heq
        exact hcall
    | returned n => simp [keep] at heq
    | panicked => simp [keep] at heq
  · rw [Function.update_of_ne hp] at heq
    exact h.calls p' call' heq

theorem Fifo.runRead {s : PipeSys} (h : s.Fifo) {p : Nat} {c : ReadCall} (hc : c.Wf) :
    (s.runRead p c).1.Fifo
      ∧ (PipeEvent.read p (s.runRead p c).2.1 (s.runRead p c).2.2).Allowed (s.runRead p c).1 := by
  obtain ⟨q, hq, hhist⟩ := h.queue
  obtain ⟨d, q', hsplit, hm, hout⟩ := readLoop_moves (fun _ => s.strong) hq h.writeEnd hc
  have hdrop : (readLoop (fun _ => s.strong) s.ring c).2.1.got.drop c.got.length = d := by
    rw [hm.got, List.drop_left]
  refine ⟨⟨⟨q', hm.queued, ?_⟩, hm.writeEnd.trans h.writeEnd,
    h.update_calls (.read _) hm.wf _⟩, ?_⟩
  · show s.delivered ++ _ ++ q' = s.accepted
    rw [hdrop, List.append_assoc, ← hsplit, hhist]
  · rcases hout with ⟨hsus, -⟩ | ⟨n, hret, hn, hshort⟩
    · simp only [PipeSys.runRead, hsus, PipeEvent.Allowed]
    · have hle : n ≤ (readLoop (fun _ => s.strong) s.ring c).2.1.wantToRead := by
        have h1 := hm.wf.already
        have h2 := hm.wf.left
        omega
      simp only [PipeSys.runRead, hret, PipeEvent.Allowed]
      refine ⟨hn.symm, hle, fun hlt => ?_⟩
      rw [hm.want] at hlt
      obtain ⟨rfl, hzero⟩ := hshort hlt
      refine ⟨hm.queued.availableRead, ?_⟩
      show Option.map _ (readLoop (fun _ => s.strong) s.ring c).1.writeEnd = some true
      rw [hm.writeEnd, h.writeEnd, Option.map_some, Option.some.injEq, beq_iff_eq]
      exact hzero

theorem Fifo.runWrite {s : PipeSys} (h : s.Fifo) {p : Nat} {c : WriteCall} (hc : c.Wf) :
    (s.runWrite p c).1.Fifo
      ∧ (PipeEvent.write p (s.runWrite p c).2.1 (s.runWrite p c).2.2).Allowed
        (s.runWrite p c).1 := by
  obtain ⟨q, hq, hhist⟩ := h.queue
  obtain ⟨d, hm, hout⟩ := writeLoop_moves hq hc
  have htake : c.left.take (c.left.length - (writeLoop s.ring c).2.1.left.length) = d := by
    rw [hm.left, List.length_append, Nat.add_sub_cancel, List.take_left]
  refine ⟨⟨⟨q ++ d, hm.queued, ?_⟩, hm.writeEnd.trans h.writeEnd,
    h.update_calls (.write _) hm.wf _⟩, ?_⟩
  · show s.delivered ++ (q ++ d) = s.accepted ++ _
    rw [htake, ← hhist, List.append_assoc]
  · rcases hout with hsus | ⟨hret, hleft⟩
    · simp only [PipeSys.runWrite, hsus, PipeEvent.Allowed]
    · simp only [PipeSys.runWrite, hret, PipeEvent.Allowed, hm.want]
      exact ⟨trivial, hleft⟩

theorem Fifo.step {s s' : PipeSys} {e : PipeEvent} (h : s.Fifo) (hs : PipeStep s e s') :
    s'.Fifo ∧ e.Allowed s' := by
  cases hs with
  | readCall len _ => exact h.runRead (ReadCall.start_wf len)
  | readResume hcall => exact h.runRead (h.calls _ _ hcall)
  | @writeCall t _ buf _ _ ht =>
      have ht' : t.Fifo := ht ▸ ⟨h.queue, h.writeEnd, h.calls⟩
      exact ht'.runWrite (WriteCall.start_wf buf)
  | writeResume hcall => exact h.runWrite (h.calls _ _ hcall)
  | dup _ => exact ⟨⟨h.queue, h.writeEnd, h.calls⟩, trivial⟩
  | close _ => exact ⟨⟨h.queue, h.writeEnd, h.calls⟩, trivial⟩

end PipeSys

/-- In every state of every interleaving the bytes delivered so far followed
by those in the buffer are the bytes accepted so far, the two counters are
the numbers of buffered and of free bytes, and whatever call runs next only
returns what it may. -/
theorem pipe_lossless_fifo {tr : List PipeEvent} {s : PipeSys}
    (h : Runs PipeStep PipeSys.make tr s) :
    s.delivered ++ s.ring.content = s.accepted
      ∧ s.ring.availableRead = s.accepted.length - s.delivered.length
      ∧ s.ring.availableWrite
        = RING_BUFFER_SIZE - (s.accepted.length - s.delivered.length)
      ∧ ∀ e s', PipeStep s e s' → e.Allowed s' := by
  have hfifo : s.Fifo :=
    h.invariant PipeSys.make_fifo fun _ _ _ hI hs => (hI.step hs).1
  obtain ⟨q, hq, hhist⟩ := hfifo.queue
  have hlen : s.accepted.length - s.delivered.length = q.length := by
    rw [← hhist, List.length_append]
    omega
  refine ⟨by rw [hq.content, hhist], by rw [hq.availableRead, hlen],
    by rw [hq.availableWrite, hlen], fun e s' hs => (hfifo.step hs).2⟩

/-- A process writes three bytes and another reads two of them. -/
theorem pipe_lossless_fifo_write_read :
    ∃ tr s, Runs PipeStep PipeSys.make tr s ∧ s.accepted = [7, 8, 9]
      ∧ s.delivered ++ s.ring.content = [7, 8, 9] := by
  have hwrite := PipeStep.writeCall (s := PipeSys.make) (p := 1) [7, 8, 9] rfl (by decide) rfl
  have hread := PipeStep.readCall (p := 2) 2
    (s := (({ PipeSys.make with writing := 1 } : PipeSys).runWrite 1 (.start [7, 8, 9])).1) rfl
  have hrun := Runs.cons hwrite (Runs.single hread)
  have hacc : ((({ PipeSys.make with writing := 1 } : PipeSys).runWrite 1
      (.start [7, 8, 9])).1.runRead 2 (.start 2)).1.accepted = [7, 8, 9] := by
    simp only [PipeSys.runRead, PipeSys.runWrite]
    rw [writeLoop]
    rfl
  exact ⟨_, _, hrun, hacc, (pipe_lossless_fifo hrun).1.trans hacc⟩

end Nimloth
