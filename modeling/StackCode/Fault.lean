import StackCode.Types.Basic

/-!
# Faults

A computation over a type table ends in one of three ways: with a result, with a refusal that states
its cause, or because it looked up a type that the table does not have.  The last is no verdict
about the input but a broken promise of the caller, so it is kept apart from the refusals.

## Main definitions

* `Fault`: a dangling lookup or a refusal.
* `Checked`: computations that may end in a fault.
* `Checked.refuse`: ends with a refusal.
* `Checked.widen`: carries the causes of refusals into a wider type.

## Main results

* `Checked.widen_eq_ok`: widening keeps successes and adds none.
-/

namespace StackCode

/-- Why a computation over a type table stopped. -/
inductive Fault (ε : Type) where
  /-- A type outside the table was looked up. -/
  | dangling (type : TypeId)
  /-- The input was refused for a cause. -/
  | refused (cause : ε)
deriving DecidableEq, Repr

/-- Carries the cause of a refusal into a wider type of causes. -/
def Fault.map {ε δ : Type} (f : ε → δ) : Fault ε → Fault δ
  | dangling type => dangling type
  | refused cause => refused (f cause)

/-- Computations that may end in a fault. -/
abbrev Checked (ε α : Type) := Except (Fault ε) α

namespace Checked

/-- Ends with a refusal. -/
def refuse {ε α : Type} (cause : ε) : Checked ε α := .error (.refused cause)

/-- Carries the causes of refusals into a wider type. -/
def widen {ε δ α : Type} (f : ε → δ) (x : Checked ε α) : Checked δ α := x.mapError (Fault.map f)

@[simp] theorem widen_ok {ε δ α : Type} (f : ε → δ) (a : α) :
    widen f (.ok a) = .ok a := rfl

@[simp] theorem widen_error {ε δ α : Type} (f : ε → δ) (e : Fault ε) :
    widen f (.error e : Checked ε α) = .error (e.map f) := rfl

/-- Widening the causes keeps successes and adds none. -/
theorem widen_eq_ok {ε δ α : Type} {f : ε → δ} {x : Checked ε α} {a : α} :
    widen f x = .ok a ↔ x = .ok a := by
  cases x <;> simp

end Checked

end StackCode
