import StackCode.Operator
import StackCode.Types.Basic

/-!
# Instructions

The source instructions of a function body.  They work on an operand stack and leave the choice of
widths to the verifier: an `add` adds whatever two numbers of one class it finds.  Instructions that
name something (a variable, a field, a function, a type, a label) carry the name.

## Main definitions

* `FuncRef`, `Label`, `FieldRef`: what instructions name.
* `Instr`: the instructions.
* `Instr.exits`: where control can go after an instruction.
-/

namespace StackCode

/-- The number of a module in its program. -/
structure ModuleId where
  index : Nat
deriving DecidableEq, Repr

/-- A function of a module. -/
structure FuncRef where
  module : ModuleId
  index : Nat
deriving DecidableEq, Repr

/-- The printed form of a function reference. -/
def FuncRef.toText (f : FuncRef) : String := s!"m{f.module.index}.f{f.index}"

/-- The number of a label of a function. -/
structure Label where
  index : Nat
deriving DecidableEq, Repr

/-- The printed form of a label. -/
def Label.toText (l : Label) : String := s!"L{l.index}"

/-- A field of a structure type. -/
structure FieldRef where
  owner : TypeId
  index : Nat
deriving DecidableEq, Repr

/-- Operators without a name attached. -/
inductive PlainOp where
  | nop
  | arith (op : ArithOp)
  | integer (op : IntegerOp)
  | neg
  | not
  | compare (op : Comparison)
  | compareUn (op : UnsignedComparison)
  | dup
  | pop
  | ret
  /-- Push the null reference. -/
  | null
deriving DecidableEq, Repr

/-- Constants; floating point numbers are kept as their bits. -/
inductive Constant where
  | int32 (value : Int32)
  | int64 (value : Int64)
  | float32 (bits : UInt32)
  | float64 (bits : UInt64)
deriving DecidableEq, Repr

/-- What is done with a variable or field. -/
inductive Access where
  | load
  | store
  /-- Push a reference to it. -/
  | address
deriving DecidableEq, Repr

/-- What is done with a function. -/
inductive FuncOp where
  | call
  /-- Allocate an object and call a constructor on it. -/
  | newObject
  /-- Push the function as a value. -/
  | loadFunction
deriving DecidableEq, Repr

/-- What is done at a type. -/
inductive TypeOp where
  | convert
  | loadIndirect
  | storeIndirect
  | loadElement
  | storeElement
  | elementAddress
  | callIndirect
deriving DecidableEq, Repr

/-- The source instructions. -/
inductive Instr where
  | plain (op : PlainOp)
  | constant (c : Constant)
  | argument (access : Access) (index : Nat)
  | localVar (access : Access) (index : Nat)
  | field (access : Access) (field : FieldRef)
  | function (op : FuncOp) (func : FuncRef)
  | typed (op : TypeOp) (type : TypeId)
  /-- Go to the label. -/
  | jump (target : Label)
  /-- Go to the label if the condition holds. -/
  | branch (condition : Condition) (target : Label)
deriving DecidableEq, Repr

/-- A way control can leave an instruction. -/
inductive Exit where
  /-- To the next instruction of the body. -/
  | next
  /-- To the instruction a label stands at. -/
  | label (l : Label)
deriving DecidableEq, Repr

namespace Instr

/-- Where control can go after an instruction; the target of a branch comes before the instruction
that follows it. -/
def exits : Instr → List Exit
  | plain .ret => []
  | jump target => [.label target]
  | branch _ target => [.label target, .next]
  | _ => [.next]

/-- Whether control never passes to the next instruction. -/
def isTerminator : Instr → Bool
  | plain .ret | jump _ => true
  | _ => false

/-- The label an instruction can go to. -/
def target? : Instr → Option Label
  | jump target | branch _ target => some target
  | _ => none

/-- An instruction passes control on exactly if it is no terminator. -/
theorem next_mem_exits_iff (i : Instr) : Exit.next ∈ i.exits ↔ i.isTerminator = false := by
  cases i with
  | plain op => cases op <;> simp [exits, isTerminator]
  | _ => simp [exits, isTerminator]

end Instr

end StackCode
