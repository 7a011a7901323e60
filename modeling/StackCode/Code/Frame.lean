import StackCode.Code.Error
import StackCode.Image.Descriptor
import StackCode.Typing.Verify

/-!
# Frames

A frame holds the parameters of a function, then its locals, then its operand stack, all counted in
slots of four bytes.  Every slot has a number that fits in a byte.

Slots are summed as 32-bit words; a sum that leaves them is reported as the largest word.

## Main definitions

* `FrameError`: a count that does not fit.
* `Frame`: the slots of a function.
* `Frame.ofTyping`: the frame of a typed body.
* `Frame.ofStub`: the frame of a system call.
* `Frame.ofFunction`: the frame of any function.
-/

namespace StackCode

/-- A count of slots that does not fit in a byte. -/
structure FrameError where
  part : FramePart
  slots : Nat
deriving DecidableEq, Repr

/-- The overflow in the frame of a function. -/
def FrameError.located (func : FuncRef) (e : FrameError) : EncodeError :=
  .frameOverflow func e.part e.slots

/-- The slots of a function. -/
structure Frame where
  argSlots : UInt8
  localSlots : UInt8
  /-- The slots of the deepest operand stack. -/
  maxStack : UInt8
  /-- The first slot of each parameter. -/
  paramOffsets : List UInt8
  /-- The first slot of each local. -/
  localOffsets : List UInt8
deriving DecidableEq, Repr

namespace Frame

/-- The first slot of a parameter. -/
def paramSlot? (f : Frame) (index : Nat) : Option UInt8 := f.paramOffsets[index]?

/-- The first slot of a local. -/
def localSlot? (f : Frame) (index : Nat) : Option UInt8 := f.localOffsets[index]?

/-- The descriptor of a function with this frame. -/
def descriptor (f : Frame) (zeroInit : Bool) : Descriptor :=
  ⟨zeroInit, f.maxStack, f.argSlots, f.localSlots⟩

/-- Adds counts of slots. -/
def add (part : FramePart) (a b : Nat) : Checked FrameError Nat :=
  if a + b < wordLimit then .ok (a + b) else .refuse ⟨part, wordLimit - 1⟩

/-- A count of slots as a byte. -/
def fit (part : FramePart) (slots : Nat) : Checked FrameError UInt8 :=
  if slots < 256 then .ok (UInt8.ofNat slots) else .refuse ⟨part, slots⟩

/-- The first slots of variables placed one after the other from `next` on, and the slot after
them. -/
def assign (t : TypeTable) (part : FramePart) : List Variable → (next : Nat) →
    Checked FrameError (List UInt8 × Nat)
  | [], next => .ok ([], next)
  | v :: rest, next => do
    let first ← fit part next
    let next ← add part next (← t.slots v.type)
    let (offsets, total) ← assign t part rest next
    return (first :: offsets, total)

/-- The slots of a stack. -/
def depth (t : TypeTable) (s : OperandStack TypeId) : Checked FrameError Nat :=
  s.bottomUp.foldlM (fun sum type => do add .stack sum (← t.slots type)) 0

/-- The slots of the deepest of the recorded stacks. -/
def peak (t : TypeTable) (states : List (Option (OperandStack TypeId))) : Checked FrameError Nat :=
  (states.filterMap id).foldlM (fun peak s => return max peak (← depth t s)) 0

/-- The frame of a body with these recorded stacks. -/
def ofTyping (t : TypeTable) (decl : FunctionDecl) (states : List (Option (OperandStack TypeId))) :
    Checked FrameError Frame := do
  let (paramOffsets, argSlots) ← assign t .params decl.params 0
  let (localOffsets, localSlots) ← assign t .locals decl.locals 0
  let localOffsets ← localOffsets.mapM fun offset => do
    fit .frame (← add .frame offset.toNat argSlots)
  let maxStack ← peak t states
  let argByte ← fit .params argSlots
  let localByte ← fit .locals localSlots
  let stackByte ← fit .stack maxStack
  let _ ← fit .frame (← add .frame (← add .frame argSlots localSlots) maxStack)
  return ⟨argByte, localByte, stackByte, paramOffsets, localOffsets⟩

/-- The frame of a system call: arguments in, the result on the stack. -/
def ofStub (t : TypeTable) (decl : FunctionDecl) : Checked FrameError Frame := do
  let (paramOffsets, argSlots) ← assign t .params decl.params 0
  let resultSlots ← t.slots decl.result
  let _ ← fit .frame (← add .frame argSlots resultSlots)
  let argByte ← fit .params argSlots
  let stackByte ← fit .stack resultSlots
  return ⟨argByte, 0, stackByte, paramOffsets, []⟩

/-- The frame of a function; `states` are the stacks recorded for its body. -/
def ofFunction (t : TypeTable) (decl : FunctionDecl)
    (states : List (Option (OperandStack TypeId))) : Checked FrameError Frame :=
  match decl.implementation with
  | .syscall _ => ofStub t decl
  | .code => ofTyping t decl states

end Frame

end StackCode
