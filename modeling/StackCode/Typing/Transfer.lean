import StackCode.Dataflow.OperandStack
import StackCode.Program.Basic
import StackCode.Typing.Error

/-!
# Typing of instructions

What an instruction takes off a stack of types and what it leaves.  An instruction takes all its
operands before it leaves anything, so its rule is a computation that takes types off the stack and
answers the list of types it leaves.

The types on the stack are stack types: integers of one width are not told apart, and narrow
integers are widened to 32 bits.

## Main definitions

* `Operands`: computations that take operands off a stack of types.
* `TypingContext`: the program and the function an instruction belongs to.
* `TypingContext.results`: the typing rule of every instruction.
-/

namespace StackCode

namespace TypeId

/-- Whether a stack type is a class of numbers. -/
def isNumeric (t : TypeId) : Bool := t = int32 ∨ t = int64 ∨ t = float32 ∨ t = float64

/-- Whether a stack type is a class of integers. -/
def isInteger (t : TypeId) : Bool := t = int32 ∨ t = int64

/-- Whether numbers can be converted to the type. -/
def isConversionTarget (t : TypeId) : Bool := int8.index ≤ t.index ∧ t.index ≤ float64.index

end TypeId

/-- The stack type of a constant. -/
def Constant.type : Constant → TypeId
  | int32 _ => .int32
  | int64 _ => .int64
  | float32 _ => .float32
  | float64 _ => .float64

/-- Computations that take operands off a stack of types. -/
abbrev Operands := StateT (OperandStack TypeId) (Checked Violation)

namespace Operands

/-- Refuses the instruction. -/
def refuse {α : Type} (v : Violation) : Operands α := throw (.refused v)

/-- Refuses the instruction unless the condition holds. -/
def require (condition : Bool) (v : Violation) : Operands Unit :=
  if condition then pure () else refuse v

/-- Looks something up without touching the stack. -/
def ask {α : Type} (query : Checked Violation α) : Operands α := StateT.lift query

/-- Takes the type on top. -/
def pop : Operands TypeId := fun s =>
  match s.pop? with
  | some taken => .ok taken
  | none => .error (.refused .stackUnderflow)

/-- Takes the right operand and the left operand, which have one type of a class, and answers that
type. -/
def popPair (expected : Expectation) (inClass : TypeId → Bool) : Operands TypeId := do
  let right ← pop
  let left ← pop
  require (inClass left) (.typeMismatch expected left)
  require (left = right) (.typeMismatch (.type left) right)
  return left

/-- Takes an index into a container. -/
def popIndex : Operands Unit := do
  let index ← pop
  require (index = .int32) (.typeMismatch (.type .int32) index)

end Operands

namespace TypeTable

open Operands

/-- Refuses a value that may not be stored in a location of a type. -/
def expectAssignable (t : TypeTable) (value type : TypeId) : Operands Unit := do
  require (← ask (t.assignable value type)) (.typeMismatch (.type type) value)

/-- Refuses an access to a location as another type than its own. -/
def expectLocation (t : TypeTable) (location type : TypeId) : Operands Unit := do
  t.expectAssignable (← ask (t.verificationType location)) type

/-- Whether a stack type is null or a reference. -/
def isNullable (t : TypeTable) (type : TypeId) : Operands Bool :=
  if type = .null then return true else ask (t.isReference type)

/-- Takes two operands that can be tested for equality: of one numeric or reference type, or null
and a reference. -/
def popEqualityPair (t : TypeTable) : Operands Unit := do
  let right ← pop
  let left ← pop
  let leftNullable ← t.isNullable left
  require (left.isNumeric || leftNullable) (.typeMismatch .numericOrReference left)
  let rightNullable ← t.isNullable right
  require (left = right || left = .null && rightNullable || right = .null && leftNullable)
    (.typeMismatch (.type left) right)

/-- Takes the arguments for parameters of these types, the last on top. -/
def popArguments (t : TypeTable) (params : List TypeId) : Operands Unit := do
  let depth := (← get).size
  require (params.length ≤ depth) (.arityMismatch params.length depth)
  params.reverse.forM fun param => do t.expectAssignable (← pop) param

/-- Takes a reference and answers the type of the place it refers to. -/
def popReference (t : TypeTable) : Operands TypeId := do
  let address ← pop
  match ← ask (t.referent? address) with
  | some location => return location
  | none => refuse (.typeMismatch .reference address)

/-- The type of the elements of a container; containers are spans and references to arrays. -/
def elementType? {ε : Type} (t : TypeTable) (container : TypeId) : Checked ε (Option TypeId) := do
  match ← t.kind container with
  | .span element => return some element
  | .reference target =>
    match ← t.kind target with
    | .array element _ => return some element
    | _ => return none
  | _ => return none

/-- Takes a container and answers the type of its elements. -/
def popContainer (t : TypeTable) : Operands TypeId := do
  let container ← pop
  match ← ask (t.elementType? container) with
  | some element => return element
  | none => refuse (.typeMismatch .container container)

/-- What a value of a type leaves on the stack: nothing for `void`. -/
def valueOf (t : TypeTable) (type : TypeId) : Operands (List TypeId) := do
  if type = .void then return [] else return [← ask (t.stackType type)]

/-- What the address of a location of a type leaves on the stack. -/
def addressOf (t : TypeTable) (type : TypeId) : Operands (List TypeId) := do
  if ← ask (t.carriesAddress type) then refuse (.unsupported .taken)
  match t.referenceTo? type with
  | some reference => return [← ask (t.stackType reference)]
  | none => refuse .unbound

/-- Refuses to store addresses in memory. -/
def refuseAddress (t : TypeTable) (use : AddressUse) (type : TypeId) : Operands Unit := do
  if ← ask (t.carriesAddress type) then refuse (.unsupported use)

end TypeTable

/-- The program and the function an instruction belongs to. -/
structure TypingContext where
  program : Program
  decl : FunctionDecl

namespace TypingContext

open Operands

variable (c : TypingContext)

/-- The type table of the program. -/
def types : TypeTable := c.program.types

/-- Operators. -/
def plain : PlainOp → Operands (List TypeId)
  | .nop => return []
  | .arith _ => return [← popPair .numeric TypeId.isNumeric]
  | .integer _ => return [← popPair .integer TypeId.isInteger]
  | .neg => do
    let operand ← pop
    require operand.isNumeric (.typeMismatch .numeric operand)
    return [operand]
  | .not => do
    let operand ← pop
    require operand.isInteger (.typeMismatch .integer operand)
    return [operand]
  | .compare .equal => do
    c.types.popEqualityPair
    return [.int32]
  | .compare _ => do
    let _ ← popPair .numeric TypeId.isNumeric
    return [.int32]
  | .compareUn _ => do
    let _ ← popPair .integer TypeId.isInteger
    return [.int32]
  | .dup => do
    let operand ← pop
    return [operand, operand]
  | .pop => do
    let _ ← pop
    return []
  | .null => return [.null]
  | .ret => do
    let result := c.decl.result
    if result ≠ .void then
      c.types.refuseAddress .returned result
      c.types.expectAssignable (← pop) result
    let depth := (← get).size
    require (depth = 0) (.stackNotEmpty depth)
    return []

/-- Accesses to a variable. -/
def access (a : Access) (vars : List Variable) (index : Nat) : Operands (List TypeId) :=
  match vars[index]?, a with
  | none, _ => refuse .unbound
  | some v, .load => c.types.valueOf v.type
  | some v, .store => do
    c.types.expectAssignable (← pop) v.type
    return []
  | some v, .address => c.types.addressOf v.type

/-- Accesses to a field. -/
def fieldAccess (a : Access) (ref : FieldRef) : Operands (List TypeId) :=
  match c.types.field? ref.owner ref.index, c.types.referenceTo? ref.owner with
  | some field, some ownerReference =>
    match a with
    | .load => do
      c.types.expectAssignable (← pop) ownerReference
      c.types.valueOf field.type
    | .store => do
      c.types.refuseAddress .stored field.type
      let value ← pop
      c.types.expectAssignable (← pop) ownerReference
      c.types.expectAssignable value field.type
      return []
    | .address => do
      c.types.expectAssignable (← pop) ownerReference
      c.types.addressOf field.type
  | _, _ => refuse .unbound

/-- The type of the objects a constructor makes: the target of its first parameter.  A constructor
has no result. -/
def constructed? {ε : Type} (callee : FunctionDecl) : Checked ε (Option TypeId) :=
  match callee.params with
  | [] => return none
  | this :: _ => do
    let target ← c.types.referent? this.type
    return if callee.result = .void then target else none

/-- Calls, constructions and function values. -/
def funcOp (op : FuncOp) (func : FuncRef) : Operands (List TypeId) :=
  match c.program.function? func with
  | none => refuse .unbound
  | some callee =>
    match op with
    | .call => do
      c.types.popArguments callee.paramTypes
      c.types.valueOf callee.result
    | .newObject => do
      match ← ask (c.constructed? callee) with
      | none => refuse (.notConstructor func)
      | some object =>
        c.types.popArguments callee.paramTypes.tail
        c.types.valueOf object
    | .loadFunction => return [← ask (c.types.stackType callee.signature)]

/-- Instructions at a type. -/
def typeOp (op : TypeOp) (type : TypeId) : Operands (List TypeId) :=
  match op with
  | .convert => do
    let operand ← pop
    require operand.isNumeric (.typeMismatch .numeric operand)
    require type.isConversionTarget (.typeMismatch .numeric type)
    c.types.valueOf type
  | .loadIndirect => do
    c.types.expectLocation (← c.types.popReference) type
    c.types.valueOf type
  | .storeIndirect => do
    c.types.refuseAddress .stored type
    let value ← pop
    c.types.expectLocation (← c.types.popReference) type
    c.types.expectAssignable value type
    return []
  | .loadElement => do
    popIndex
    c.types.expectLocation (← c.types.popContainer) type
    c.types.valueOf type
  | .storeElement => do
    c.types.refuseAddress .stored type
    let value ← pop
    popIndex
    c.types.expectLocation (← c.types.popContainer) type
    c.types.expectAssignable value type
    return []
  | .elementAddress => do
    popIndex
    let element ← c.types.popContainer
    c.types.expectLocation element type
    c.types.addressOf element
  | .callIndirect => do
    match ← ask (c.types.kind type) with
    | .function params result =>
      c.types.expectAssignable (← pop) type
      c.types.popArguments params
      c.types.valueOf result
    | _ => refuse (.typeMismatch .function type)

/-- Tests of conditional branches. -/
def test : Condition → Operands Unit
  | .isTrue | .isFalse => do
    let operand ← pop
    let nullable ← c.types.isNullable operand
    require (operand.isInteger || nullable) (.typeMismatch .condition operand)
  | .equal | .notEqual => c.types.popEqualityPair
  | .orderedUn _ => do
    let _ ← popPair .integer TypeId.isInteger
  | .ordered _ => do
    let _ ← popPair .numeric TypeId.isNumeric

/-- The typing rule of an instruction: takes its operands and answers the types it leaves, in the
order they are pushed. -/
def results : Instr → Operands (List TypeId)
  | .plain op => c.plain op
  | .constant value => return [value.type]
  | .argument a index => c.access a c.decl.params index
  | .localVar a index => c.access a c.decl.locals index
  | .field a ref => c.fieldAccess a ref
  | .function op func => c.funcOp op func
  | .typed op type => c.typeOp op type
  | .jump _ => return []
  | .branch condition _ => do
    c.test condition
    return []

end TypingContext

end StackCode
