/-!
# Operand stacks

A stack of abstract operands.  The values are kept top first, so that pushing and popping share the
rest of the stack; they are listed bottom first.

## Main definitions

* `OperandStack`: the stack, with `push`, `pop?`, `top?` and `size`.
* `OperandStack.ofBottomUp`, `OperandStack.bottomUp`: the view as a list, bottom first.
-/

namespace StackCode

/-- A stack of operands. -/
@[ext]
structure OperandStack (α : Type) where
  /-- The values, top first. -/
  topDown : List α
deriving DecidableEq, Repr

namespace OperandStack

variable {α : Type}

/-- The empty stack. -/
def empty : OperandStack α := ⟨[]⟩

/-- The stack of these values, bottom first. -/
def ofBottomUp (values : List α) : OperandStack α := ⟨values.reverse⟩

/-- The values of the stack, bottom first. -/
def bottomUp (s : OperandStack α) : List α := s.topDown.reverse

/-- The number of values. -/
def size (s : OperandStack α) : Nat := s.topDown.length

/-- Whether there are no values. -/
def isEmpty (s : OperandStack α) : Bool := s.topDown.isEmpty

/-- The value on top. -/
def top? (s : OperandStack α) : Option α := s.topDown.head?

/-- Puts a value on top. -/
def push (s : OperandStack α) (value : α) : OperandStack α := ⟨value :: s.topDown⟩

/-- Puts values on top, the last of them topmost. -/
def pushAll (s : OperandStack α) (values : List α) : OperandStack α := values.foldl push s

/-- The value on top and the stack below it. -/
def pop? (s : OperandStack α) : Option (α × OperandStack α) :=
  match s.topDown with
  | [] => none
  | value :: below => some (value, ⟨below⟩)

/-- The values that stand on top of `below` in `s`, top first. -/
def above (s below : OperandStack α) : List α := s.topDown.take (s.size - below.size)

@[simp] theorem bottomUp_empty : (empty : OperandStack α).bottomUp = [] := rfl

@[simp] theorem bottomUp_ofBottomUp (values : List α) : (ofBottomUp values).bottomUp = values :=
  List.reverse_reverse values

@[simp] theorem ofBottomUp_bottomUp (s : OperandStack α) : ofBottomUp s.bottomUp = s := by
  simp [ofBottomUp, bottomUp]

@[simp] theorem length_bottomUp (s : OperandStack α) : s.bottomUp.length = s.size :=
  List.length_reverse

@[simp] theorem bottomUp_push (s : OperandStack α) (value : α) :
    (s.push value).bottomUp = s.bottomUp ++ [value] := by
  simp [push, bottomUp]

@[simp] theorem bottomUp_pushAll (s : OperandStack α) (values : List α) :
    (s.pushAll values).bottomUp = s.bottomUp ++ values := by
  induction values generalizing s with
  | nil => simp [pushAll]
  | cons v rest ih =>
    have step : s.pushAll (v :: rest) = (s.push v).pushAll rest := rfl
    rw [step, ih, bottomUp_push, List.append_assoc, List.singleton_append]

@[simp] theorem pop?_empty : (empty : OperandStack α).pop? = none := rfl

@[simp] theorem pop?_push (s : OperandStack α) (value : α) :
    (s.push value).pop? = some (value, s) := rfl

end OperandStack

end StackCode
