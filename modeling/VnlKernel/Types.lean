import VnlKernel.Lib.Bits
import VnlKernel.Lib.ByteMem

/-!
# Shared vocabulary of the kernel

The constants of `include/types.h`, and what calling a kernel routine can come to.
Machine words are natural numbers; every sum, product and difference that the C
code forms in 64 bits is wrapped explicitly.
-/

namespace VnlKernel

/-- `PAGE_SIZE`. -/
def pageSize : Nat := 4096

/-- `ALIGN_UP(v, PAGE_SIZE)`. -/
def alignUpPage (v : Nat) : Nat := Bits.alignUp v pageSize

/-- Run through the bytes of a string, not through all the bytes there are. -/
instance (priority := 2000) decidableBytesOf (l : List UInt8) (p : UInt8 → Prop) [DecidablePred p] :
    Decidable (∀ c ∈ l, p c) :=
  List.decidableBAll p l

/-- How a call ends. `kpanic` halts the machine, so nothing follows a `panic`. -/
inductive Outcome (α : Type) where
  | done (a : α)
  | panic (msg : String)
  /-- The fuel of a loop or recursion ran out before the call returned. -/
  | timeout
deriving DecidableEq

namespace Outcome

variable {α β : Type}

def bind (x : Outcome α) (f : α → Outcome β) : Outcome β :=
  match x with
  | done a => f a
  | panic msg => panic msg
  | timeout => timeout

instance : Monad Outcome where
  pure := done
  bind := bind

@[simp] theorem pure_eq (a : α) : (pure a : Outcome α) = done a := rfl

@[simp] theorem bind_done (a : α) (f : α → Outcome β) : (done a >>= f) = f a := rfl

@[simp] theorem bind_panic (msg : String) (f : α → Outcome β) : (panic msg >>= f) = panic msg := rfl

@[simp] theorem bind_timeout (f : α → Outcome β) : (timeout >>= f) = timeout := rfl

theorem bind_assoc {γ : Type} (x : Outcome α) (f : α → Outcome β) (g : β → Outcome γ) :
    (x >>= f) >>= g = x >>= fun a => f a >>= g := by
  cases x with
  | done a => rfl
  | panic msg => rfl
  | timeout => rfl

/-- A sequence returns only if both halves do. -/
theorem bind_eq_done {x : Outcome α} {f : α → Outcome β} {b : β} (h : (x >>= f) = done b) :
    ∃ a, x = done a ∧ f a = done b := by
  cases x with
  | done a => exact ⟨a, rfl, h⟩
  | panic msg => exact absurd h (by simp)
  | timeout => exact absurd h (by simp)

/-- Two sequences agree if they do on what the first half returns. -/
theorem bind_congr {x : Outcome α} {f g : α → Outcome β} (h : ∀ a, x = done a → f a = g a) :
    (x >>= f) = (x >>= g) := by
  cases x with
  | done a => exact h a rfl
  | panic msg => rfl
  | timeout => rfl

/-- What the call returned, if it did. -/
def get? : Outcome α → Option α
  | done a => some a
  | _ => none

theorem of_get? {x : Outcome α} {f : α → β} {b : β} (h : x.get?.map f = some b) :
    ∃ a, x = done a ∧ f a = b := by
  cases x with
  | done a => exact ⟨a, rfl, by simpa [get?] using h⟩
  | panic msg => exact absurd h (by simp [get?])
  | timeout => exact absurd h (by simp [get?])

/-- The call ends: it returns, or it halts the machine. -/
def Ends (x : Outcome α) : Prop := x ≠ timeout

theorem ends_done (a : α) : (done a).Ends := by simp [Ends]

/-- A sequence ends if both halves do. -/
theorem Ends.bind {x : Outcome α} {f : α → Outcome β} (hx : x.Ends) (hf : ∀ a, (f a).Ends) :
    (x >>= f).Ends := by
  cases x with
  | done a => exact hf a
  | panic msg => simp [Ends]
  | timeout => exact absurd rfl hx

end Outcome

theorem alignUpPage_spec {v : Nat} (hv : v + 4095 < 2 ^ 64) :
    v ≤ alignUpPage v ∧ alignUpPage v < v + 4096 ∧ 4096 ∣ alignUpPage v :=
  Bits.alignUp_spec (k := 12) hv (by decide)

end VnlKernel
