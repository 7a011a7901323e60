import StackCode.Code.Selection

/-!
# Placement of code

The operations of a function are placed one after the other, and every branch gets its final form on
the way.  A branch to an instruction already placed is short if its displacement fits in a byte.  A
branch forward is short if its target is in reach even when every branch between takes its long
form.  No decision depends on a later one, so the offsets found are final.

## Main definitions

* `FunctionCode`: the operations of a function, by instruction.
* `FunctionCode.place`: the placed code.
* `PlacedCode`: operations in their final form, with the offset of every instruction.
-/

namespace StackCode

/-- The operations of a function. -/
structure FunctionCode where
  func : FuncRef
  descriptor : Descriptor
  /-- The operations of each instruction; none for those that control does not reach. -/
  instrs : List (List SelectedOp)
  /-- The instruction each label stands at. -/
  labels : Array Nat
deriving DecidableEq

/-- The greatest length a list of operations can get. -/
def maxLength : List SelectedOp → Nat
  | [] => 0
  | op :: ops => op.maxLength + maxLength ops

/-- The sums of the first elements of a list: none, one, two, up to all of them. -/
def prefixSums (ns : List Nat) : Array Nat :=
  ns.foldl (fun sums n => sums.push (sums.back?.getD 0 + n)) #[0]

/-- Code of which some instructions are placed. -/
structure Placement where
  /-- The offset of each instruction placed so far, and of the one being placed. -/
  offsets : Array Nat
  /-- The operations of the instructions placed so far. -/
  instrs : Array (List SelectedOp)
  /-- Where the next operation goes. -/
  position : Nat

/-- Where a function is placed from: what is known of its instructions beforehand. -/
structure PlacementContext where
  /-- The number of instructions. -/
  size : Nat
  /-- The instruction each label stands at. -/
  labels : Array Nat
  /-- The greatest offset each instruction can get, and that of the end. -/
  bounds : Array Nat

namespace PlacementContext

variable (c : PlacementContext)

/-- The instruction a label stands at, if there is one. -/
def target? (l : Label) : Option Nat :=
  match c.labels[l.index]? with
  | some target => if target < c.size then some target else none
  | none => none

/-- The greatest distance from the end of instruction `index` to the start of instruction
`target`. -/
def span (index target : Nat) : Nat :=
  c.bounds[target]?.getD 0 - c.bounds[index + 1]?.getD 0

/-- Whether a branch that would end at `finish` in its short form can stay short.  It belongs to
instruction `index`, of which at most `rest` bytes follow it. -/
def staysShort (offsets : Array Nat) (index target finish rest : Nat) : Bool :=
  if target ≤ index then fitsShort ((offsets[target]?.getD 0 : Nat) - (finish : Int))
  else rest + c.span index target ≤ 127

/-- The final form of an operation placed at `position`; nothing if its label stands at no
instruction. -/
def finalForm? (offsets : Array Nat) (index position rest : Nat) (op : SelectedOp) :
    Option SelectedOp :=
  match op.operand with
  | .target l =>
    match c.target? l with
    | none => none
    | some target =>
      if c.staysShort offsets index target (position + op.length) rest then some op
      else op.opcode.longForm?.map fun long => ⟨long, op.operand⟩
  | _ => some op

/-- Places the operations of instruction `index` from `position` on, of which at most `rest` bytes
are left.  Answers them in their final form and where they end. -/
def placeOps (offsets : Array Nat) (index : Nat) :
    (ops : List SelectedOp) → (position rest : Nat) → Option (List SelectedOp × Nat)
  | [], position, _ => some ([], position)
  | op :: ops, position, rest =>
    let rest := rest - op.maxLength
    match c.finalForm? offsets index position rest op with
    | none => none
    | some op =>
      match placeOps offsets index ops (position + op.length) rest with
      | none => none
      | some (ops, finish) => some (op :: ops, finish)

/-- Places the next instruction.  The error is its index: it branches to a label that stands at no
instruction. -/
def placeInstr (p : Placement) (ops : List SelectedOp) : Except Nat Placement :=
  let ⟨offsets, instrs, position⟩ := p
  let index := instrs.size
  let offsets := offsets.push position
  match c.placeOps offsets index ops position (maxLength ops) with
  | none => .error index
  | some (ops, finish) => .ok ⟨offsets, instrs.push ops, finish⟩

end PlacementContext

/-- Placed code. -/
structure PlacedCode where
  func : FuncRef
  descriptor : Descriptor
  /-- The operations of each instruction, in their final form. -/
  instrs : List (List SelectedOp)
  labels : Array Nat
  /-- The offset of each instruction from the start of the code. -/
  offsets : Array Nat
  /-- The length of the code. -/
  size : Nat
deriving DecidableEq

/-- Places the instructions of a function in order. -/
def FunctionCode.place (c : FunctionCode) : Except EncodeError PlacedCode := do
  let context : PlacementContext :=
    ⟨c.instrs.length, c.labels, prefixSums (c.instrs.map maxLength)⟩
  let placed ← (c.instrs.foldlM context.placeInstr ⟨#[], #[], 0⟩).mapError (.unbound c.func)
  (placed.offsets.push placed.position).toList.forM fun offset =>
    if offset < wordLimit then .ok () else .error (.functionOffsetOverflow c.func offset)
  return ⟨c.func, c.descriptor, placed.instrs.toList, c.labels, placed.offsets, placed.position⟩

/-- The capabilities placed code needs. -/
def PlacedCode.features (c : PlacedCode) : Features :=
  .unionAll (c.instrs.flatten.map fun op => op.opcode.features)

/-- The offset of the instruction a label stands at. -/
def PlacedCode.targetOffset? (c : PlacedCode) (l : Label) : Option Nat :=
  match c.labels[l.index]? with
  | some target => c.offsets[target]?
  | none => none

end StackCode
