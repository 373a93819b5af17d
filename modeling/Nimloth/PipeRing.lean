import Mathlib.Tactic.Common
import Mathlib.Data.List.Basic

/-!
# The pipe's ring buffer

`os/src/fs/pipe.rs`: a 32-byte array with a read index `head`, a write
index `tail` and a three-valued status that tells the full buffer from
the empty one when the two indices meet. The indices are `Fin 32`, so
the `% RING_BUFFER_SIZE` of the source is the addition of the type.

`Queued rb q` relates the buffer to the list `q` of the bytes in it,
oldest first. One lemma per operation says what it does to that list;
nothing above this file looks at `head`, `tail` or `status` again.
-/

namespace Nimloth

abbrev RING_BUFFER_SIZE : Nat := 32

inductive RingBufferStatus where
  | full
  | empty
  | normal
  deriving DecidableEq, Repr

/-- `PipeRingBuffer`. `writeEnd` is the `Weak<Pipe>` of the write end: the
name of the end object, which is alive as long as its strong count is
positive. -/
structure PipeRingBuffer where
  arr : Vector UInt8 RING_BUFFER_SIZE
  head : Fin RING_BUFFER_SIZE
  tail : Fin RING_BUFFER_SIZE
  status : RingBufferStatus
  writeEnd : Option Nat

namespace PipeRingBuffer

def new : PipeRingBuffer where
  arr := Vector.replicate RING_BUFFER_SIZE 0
  head := ⟨0, by decide⟩
  tail := ⟨0, by decide⟩
  status := .empty
  writeEnd := none

def setWriteEnd (rb : PipeRingBuffer) (w : Nat) : PipeRingBuffer :=
  { rb with writeEnd := some w }

/-- The index after `i`, wrapping at the end of the array. -/
def next (i : Fin RING_BUFFER_SIZE) : Fin RING_BUFFER_SIZE :=
  ⟨(i + 1) % RING_BUFFER_SIZE, Nat.mod_lt _ (by decide)⟩

def readByte (rb : PipeRingBuffer) : UInt8 × PipeRingBuffer :=
  let c := rb.arr[rb.head]
  let head := next rb.head
  (c, { rb with
    head := head
    status := if head = rb.tail then .empty else .normal })

def writeByte (rb : PipeRingBuffer) (byte : UInt8) : PipeRingBuffer :=
  let tail := next rb.tail
  { rb with
    arr := rb.arr.set rb.tail byte
    tail := tail
    status := if tail = rb.head then .full else .normal }

def availableRead (rb : PipeRingBuffer) : Nat :=
  if rb.status = .empty then 0
  else if rb.tail > rb.head then rb.tail - rb.head
  else rb.tail + RING_BUFFER_SIZE - rb.head

def availableWrite (rb : PipeRingBuffer) : Nat :=
  if rb.status = .full then 0
  else RING_BUFFER_SIZE - rb.availableRead

/-- `all_write_ends_closed`: the `unwrap` fails on a buffer whose write end
was never set, and the `upgrade` on an end whose strong count is zero. -/
def allWriteEndsClosed (rb : PipeRingBuffer) (strong : Nat → Nat) : Option Bool :=
  rb.writeEnd.map fun w => strong w == 0

/-- The byte `i` places after `head`. -/
def cell (rb : PipeRingBuffer) (i : Nat) : UInt8 :=
  rb.arr.get ⟨(rb.head + i) % RING_BUFFER_SIZE, Nat.mod_lt _ (by decide)⟩

/-- The bytes in the buffer, oldest first. -/
def content (rb : PipeRingBuffer) : List UInt8 :=
  (List.range rb.availableRead).map rb.cell

/-! ## The queue in the buffer -/

/-- `rb` holds exactly the bytes `q`: the cells from `head` on spell `q`,
`tail` is one past the last of them, and the status says which of the two
readings of `head = tail` is meant. -/
structure Queued (rb : PipeRingBuffer) (q : List UInt8) : Prop where
  len : q.length ≤ RING_BUFFER_SIZE
  tail : (rb.tail : Nat) = (rb.head + q.length) % RING_BUFFER_SIZE
  status : rb.status =
    if q.length = 0 then .empty else if q.length = RING_BUFFER_SIZE then .full else .normal
  cells : ∀ i, (h : i < q.length) → rb.cell i = q[i]

theorem new_queued : Queued new [] where
  len := by decide
  tail := by decide
  status := rfl
  cells := by simp

theorem Queued.setWriteEnd {rb : PipeRingBuffer} {q : List UInt8} (h : Queued rb q) (w : Nat) :
    Queued (rb.setWriteEnd w) q :=
  ⟨h.len, h.tail, h.status, h.cells⟩

@[simp] theorem next_val (i : Fin RING_BUFFER_SIZE) : (next i : Nat) = (i + 1) % 32 := rfl

theorem Queued.head_lt {rb : PipeRingBuffer} {q : List UInt8} (_ : Queued rb q) :
    (rb.head : Nat) < 32 := rb.head.isLt

theorem Queued.len_le {rb : PipeRingBuffer} {q : List UInt8} (h : Queued rb q) :
    q.length ≤ 32 := h.len

theorem Queued.tail_val {rb : PipeRingBuffer} {q : List UInt8} (h : Queued rb q) :
    (rb.tail : Nat) = (rb.head + q.length) % 32 := h.tail

theorem Queued.availableRead {rb : PipeRingBuffer} {q : List UInt8} (h : Queued rb q) :
    rb.availableRead = q.length := by
  have hlen := h.len_le
  have htail := h.tail_val
  have hhead := h.head_lt
  by_cases h0 : q.length = 0
  · simp [PipeRingBuffer.availableRead, h.status, h0]
  · have hst : rb.status ≠ .empty := by
      rw [h.status, if_neg h0]
      split_ifs <;> simp
    rw [PipeRingBuffer.availableRead, if_neg hst]
    by_cases hgt : rb.tail > rb.head
    · rw [if_pos hgt]
      have : (rb.head : Nat) < rb.tail := hgt
      omega
    · rw [if_neg hgt]
      have : ¬ (rb.head : Nat) < rb.tail := hgt
      show (rb.tail : Nat) + 32 - rb.head = q.length
      omega

theorem Queued.availableWrite {rb : PipeRingBuffer} {q : List UInt8} (h : Queued rb q) :
    rb.availableWrite = RING_BUFFER_SIZE - q.length := by
  rw [PipeRingBuffer.availableWrite, h.availableRead, h.status]
  by_cases h0 : q.length = 0
  · simp [h0]
  · by_cases h1 : q.length = RING_BUFFER_SIZE <;> simp [h0, h1]

theorem Queued.content {rb : PipeRingBuffer} {q : List UInt8} (h : Queued rb q) :
    rb.content = q := by
  rw [PipeRingBuffer.content, h.availableRead]
  refine List.ext_getElem (by simp) fun i hi hi' => ?_
  simpa using h.cells i hi'

theorem cell_readByte (rb : PipeRingBuffer) (i : Nat) :
    rb.readByte.2.cell i = rb.cell (i + 1) := by
  simp only [readByte, cell, next]
  congr 2
  rw [Nat.mod_add_mod]
  congr 1
  omega

theorem cell_zero (rb : PipeRingBuffer) : rb.cell 0 = rb.arr[rb.head] := by
  have hmod : ((rb.head : Nat) + 0) % RING_BUFFER_SIZE = rb.head := Nat.mod_eq_of_lt rb.head.isLt
  simp only [cell, hmod]
  rfl

/-- Reading takes the oldest byte. -/
theorem Queued.readByte {rb : PipeRingBuffer} {c : UInt8} {q : List UInt8}
    (h : Queued rb (c :: q)) : rb.readByte.1 = c ∧ Queued rb.readByte.2 q := by
  have hlen := h.len_le
  have htail := h.tail_val
  have hhead := h.head_lt
  rw [List.length_cons] at hlen htail
  refine ⟨(cell_zero rb).symm.trans (h.cells 0 (by simp)), ?_, ?_, ?_, ?_⟩
  · show q.length ≤ 32
    omega
  · show (rb.tail : Nat) = ((next rb.head : Nat) + q.length) % 32
    rw [next_val]
    omega
  · have hiff : next rb.head = rb.tail ↔ q.length = 0 := by
      rw [Fin.ext_iff, next_val]
      omega
    have hne : q.length ≠ 32 := by omega
    simp only [PipeRingBuffer.readByte, hiff, if_neg hne]
  · intro i hi
    rw [cell_readByte, h.cells (i + 1) (by simpa using hi)]
    rfl

theorem cell_writeByte (rb : PipeRingBuffer) (b : UInt8) (i : Nat) :
    (rb.writeByte b).cell i =
      if (rb.tail : Nat) = (rb.head + i) % 32 then b else rb.cell i :=
  Vector.getElem_set rb.tail.isLt _

/-- Writing into a buffer that is not full appends the byte. -/
theorem Queued.writeByte {rb : PipeRingBuffer} {q : List UInt8} (h : Queued rb q)
    (hroom : q.length < RING_BUFFER_SIZE) (b : UInt8) :
    Queued (rb.writeByte b) (q ++ [b]) := by
  have htail := h.tail_val
  have hhead := h.head_lt
  have hroom' : q.length < 32 := hroom
  have hlen : (q ++ [b]).length = q.length + 1 := by simp
  refine ⟨?_, ?_, ?_, ?_⟩
  · show (q ++ [b]).length ≤ 32
    omega
  · show (next rb.tail : Nat) = (rb.head + (q ++ [b]).length) % 32
    rw [next_val]
    omega
  · have hiff : next rb.tail = rb.head ↔ q.length + 1 = 32 := by
      rw [Fin.ext_iff, next_val]
      omega
    have hne : q.length + 1 ≠ 0 := by omega
    simp only [PipeRingBuffer.writeByte, hiff, hlen, if_neg hne]
  · intro i hi
    rw [cell_writeByte]
    by_cases hq : i = q.length
    · rw [if_pos (by omega)]
      simp [hq]
    · have hlt : i < q.length := by omega
      rw [if_neg (by omega), h.cells i hlt, List.getElem_append_left hlt]

end PipeRingBuffer

end Nimloth
