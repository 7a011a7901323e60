import StackCode.Image.Header
import StackCode.Instr.Basic

/-!
# Encoding errors

Why a typed module has no image: a frame, an operand or a displacement does not fit its field, or
the program names something it does not have.

## Main definitions

* `FramePart`: the parts of a frame that are counted.
* `EncodeError`: the causes.
-/

namespace StackCode

/-- The parts of a frame whose slots are counted. -/
inductive FramePart where
  | params
  | locals
  /-- The deepest operand stack. -/
  | stack
  /-- All of them together. -/
  | frame
deriving DecidableEq, Repr

/-- The printed name. -/
def FramePart.toText : FramePart → String
  | params => "parameter"
  | locals => "local"
  | stack => "operand stack"
  | frame => "frame"

/-- Why a module has no image. -/
inductive EncodeError where
  /-- A function has no typing, or that of another body. -/
  | unverified (func : FuncRef)
  /-- An instruction names something that does not exist. -/
  | unbound (func : FuncRef) (index : Nat)
  /-- No opcode does this at this type. -/
  | unsupportedOperand (func : FuncRef) (index : Nat) (type : TypeId)
  /-- A number of slots does not fit in a byte. -/
  | frameOverflow (func : FuncRef) (part : FramePart) (slots : Nat)
  /-- An offset, size or count does not fit its field. -/
  | valueTooLarge (func : FuncRef) (index : Nat) (value : Nat)
  /-- A displacement does not fit the form of its branch. -/
  | branchOverflow (func : FuncRef) (index : Nat) (displacement : Int)
  /-- A function starts where no token reaches. -/
  | functionOffsetOverflow (func : FuncRef) (offset : Nat)
  | imageTooLarge (module : ModuleId) (length max : Nat)
  | tooManyImports (module : ModuleId) (count : Nat)
  /-- A call of a function in a module that is not imported. -/
  | notImported (func : FuncRef) (index : Nat) (module : ModuleId)
  | unknownModule (module : ModuleId)
deriving DecidableEq, Repr

namespace EncodeError

/-- The printed message. -/
def message : EncodeError → String
  | unverified func => func.toText ++ ": function was not verified"
  | unbound func index => func.toText ++ s!"@{index}: unbound symbol"
  | unsupportedOperand func index type =>
    func.toText ++ s!"@{index}: no opcode for operand type id {type.index}"
  | frameOverflow func part slots =>
    func.toText ++ ": " ++ part.toText ++ s!" slots ({slots}) exceed 255"
  | valueTooLarge func index value =>
    func.toText ++ s!"@{index}: operand value {value} does not fit its field"
  | branchOverflow func index displacement =>
    func.toText ++ s!"@{index}: branch displacement {displacement} out of range"
  | functionOffsetOverflow func offset =>
    func.toText ++ s!": function offset {offset} exceeds 16 bits"
  | imageTooLarge m length max => s!"module {m.index}: image of {length} bytes exceeds {max}"
  | tooManyImports m count => s!"module {m.index}: {count} imports exceed {Header.maxImports}"
  | notImported func index m => func.toText ++ s!"@{index}: module {m.index} is not imported"
  | unknownModule m => s!"unknown module {m.index}"

/-- The number of the diagnostic. -/
def code : EncodeError → Nat
  | unverified .. => 3001
  | unbound .. => 3002
  | unsupportedOperand .. => 3003
  | frameOverflow .. => 3004
  | valueTooLarge .. => 3005
  | branchOverflow .. => 3006
  | functionOffsetOverflow .. => 3007
  | imageTooLarge .. => 3008
  | tooManyImports .. => 3009
  | notImported .. => 3010
  | unknownModule .. => 3011

/-- The error as a diagnostic. -/
def toDiagnostic (e : EncodeError) : Diagnostic := .error .encoding e.code e.message

end EncodeError

end StackCode
